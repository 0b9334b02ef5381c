import QueryBlocks.Proofs.Query.Category
import QueryBlocks.Proofs.Script.Part

/-!
Where the problems of a query are reported. Compiling a statement adds problems to those that are
there, and each of them is at the place of the statement or of something inside it.
-/
namespace QueryBlocks

open QueryBlocks.Part

section arguments

variable {x : Diagnostic} {keyword : Keyword} {allowed : List FetchParam} {arg : Expr}

theorem Expr.holds_pos (e : Expr) : (expr e).Holds e.pos := .self rfl

theorem Setting.pos_of_make {name : String} {value : Option Expr}
    (h : make keyword allowed arg name value = .error x) : x.pos = arg.pos := by
  unfold make at h
  split at h
  · cases h
    rfl
  · cases h
    rfl
  · cases h

theorem Setting.pos_of_read (h : read keyword allowed arg = .error x) : x.pos = arg.pos := by
  unfold read at h
  split at h
  · exact pos_of_make h
  · exact pos_of_make h
  · split at h
    · cases h
      rfl
    · split at h
      · exact pos_of_make h
      · cases h
        rfl
  · cases h
    rfl

/-- The left side of a predicate is a part of it. -/
theorem holds_left {p : Position} {left right : Expr} {op : BinOp} :
    (expr (.binary p left op right)).Holds left.pos :=
  left.holds_pos.of_child List.mem_cons_self

theorem holds_cast {p : Position} {value : Expr} {type : String} :
    (expr (.cast p value type)).Holds value.pos :=
  value.holds_pos.of_child List.mem_cons_self

theorem Filter.holds_of_error (h : read arg = .error x) : (expr arg).Holds x.pos := by
  unfold read at h
  split at h
  · split at h
    · cases h
      exact holds_left
    · cases h
      exact Expr.holds_pos _
    · cases h
  · cases h
    exact Expr.holds_pos arg

theorem Filter.holds_of_ok {f : Filter} {fieldPos : Position} (h : read arg = .ok (f, fieldPos)) :
    (expr arg).Holds fieldPos := by
  unfold read at h
  split at h
  · split at h
    · cases h
    · cases h
    · cases h
      exact holds_left
  · cases h

theorem SortKey.holds_of_error (h : read arg = .error x) : (expr arg).Holds x.pos := by
  unfold read at h
  split at h
  · cases h
  · split at h
    · cases h
      exact holds_cast
    · cases h
      exact Expr.holds_pos _
    · cases h
  · cases h
    exact Expr.holds_pos arg

theorem Target.holds_of_read (h : x ∈ (read arg).2) : (expr arg).Holds x.pos := by
  unfold read at h
  split at h
  · cases h
  · obtain rfl := List.mem_singleton.mp h
    exact Expr.holds_pos arg
  · split at h
    · cases h
    · split at h
      · obtain rfl := List.mem_singleton.mp h
        exact holds_cast
      · split at h
        · obtain rfl := List.mem_singleton.mp h
          exact Expr.holds_pos _
        · cases h
    · cases h
    · cases h
    · obtain rfl := List.mem_singleton.mp h
      exact Expr.holds_pos arg

end arguments

namespace Draft

variable {settings : Settings} {lookup : TypeLookup} {d e f : Draft} {P : Position → Prop}
  {x : Diagnostic} {pos : Position} {args : List Expr}

/-- From `d` to `e` problems have been added, and only at places of a kind. -/
def Adds (P : Position → Prop) (d e : Draft) : Prop :=
  ∃ new, e.diagnostics = d.diagnostics ++ new ∧ ∀ x ∈ new, P x.pos

namespace Adds

theorem refl (d : Draft) : Adds P d d := ⟨[], (List.append_nil _).symm, fun _ h => by cases h⟩

theorem trans (hde : Adds P d e) (hef : Adds P e f) : Adds P d f := by
  obtain ⟨new, he, hnew⟩ := hde
  obtain ⟨more, hf, hmore⟩ := hef
  refine ⟨new ++ more, ?_, List.forall_mem_append.mpr ⟨hnew, hmore⟩⟩
  rw [hf, he, List.append_assoc]

theorem mono {Q : Position → Prop} (h : Adds P d e) (hPQ : ∀ p, P p → Q p) : Adds Q d e := by
  obtain ⟨new, he, hnew⟩ := h
  exact ⟨new, he, fun x hx => hPQ x.pos (hnew x hx)⟩

theorem reportAll {problems : List Diagnostic} (h : ∀ x ∈ problems, P x.pos) :
    Adds P d (d.reportAll problems) := ⟨problems, rfl, h⟩

theorem report {causes : List Cause} (h : P pos) : Adds P d (d.report causes pos) := by
  refine ⟨_, rfl, ?_⟩
  intro x hx
  obtain ⟨cause, -, rfl⟩ := List.mem_map.mp hx
  exact h

/-- Only the problems matter. -/
theorem of_eq (h : Adds P d e) (hf : f.diagnostics = e.diagnostics) : Adds P d f := by
  obtain ⟨new, he, hnew⟩ := h
  exact ⟨new, hf.trans he, hnew⟩

end Adds

/-- The place is in one of the arguments. -/
def InArgs (args : List Expr) (p : Position) : Prop := ∃ arg ∈ args, (expr arg).Holds p

theorem InArgs.subset {p : Position} {more : List Expr} (h : InArgs more p)
    (hsub : ∀ arg ∈ more, arg ∈ args) : InArgs args p := by
  obtain ⟨arg, harg, hp⟩ := h
  exact ⟨arg, hsub arg harg, hp⟩

theorem adds_takeSettings (d : Draft) (keyword : Keyword) (allowed : List FetchParam)
    (args : List Expr) : Adds (InArgs args) d (d.takeSettings keyword allowed args).1 := by
  refine ⟨refused (args.map (Setting.read keyword allowed)), rfl, ?_⟩
  intro x hx
  obtain ⟨arg, harg, hread⟩ := List.mem_map.mp (mem_refused.mp hx)
  refine ⟨arg, harg, ?_⟩
  rw [Setting.pos_of_read hread]
  exact arg.holds_pos

/-- The place of a keyword, or one in its arguments. -/
def InCall (pos : Position) (args : List Expr) (p : Position) : Prop := p = pos ∨ InArgs args p

theorem selectMode_pos (h : x ∈ (selectMode pos args).2) : InCall pos args x.pos := by
  unfold selectMode at h
  split at h
  · obtain rfl := List.mem_singleton.mp h
    exact .inl rfl
  · rename_i first more
    split at h
    · cases h
    · obtain rfl := List.mem_singleton.mp h
      exact .inr ⟨first, List.mem_cons_self, first.holds_pos⟩

theorem adds_select : Adds (InCall pos args) d (d.select pos args) := by
  have hmode : Adds (InCall pos args) d (d.reportAll (selectMode pos args).2) :=
    .reportAll fun x hx => selectMode_pos hx
  have hsettings := adds_takeSettings (d.reportAll (selectMode pos args).2) .select
    [.limit, .offset] args.tail
  refine (hmode.trans (hsettings.mono ?_)).of_eq rfl
  intro p hp
  exact .inr (hp.subset fun arg => List.mem_of_mem_tail)

theorem cursorMode_pos (h : x ∈ (cursorMode args).2.1) : InArgs args x.pos := by
  unfold cursorMode at h
  split at h
  · rename_i p name more
    split at h
    · cases h
    · split at h
      · cases h
      · obtain rfl := List.mem_singleton.mp h
        exact ⟨.var p name, List.mem_cons_self, Expr.holds_pos _⟩
  · cases h

theorem cursorMode_subset {arg : Expr} (h : arg ∈ (cursorMode args).2.2) : arg ∈ args := by
  unfold cursorMode at h
  split at h
  · refine List.mem_cons_of_mem _ ?_
    split at h
    · exact h
    · split at h <;> exact h
  · exact h

theorem adds_cursor : Adds (InArgs args) d (d.cursor args) := by
  have hmode : Adds (InArgs args) d (d.reportAll (cursorMode args).2.1) :=
    .reportAll fun x hx => cursorMode_pos hx
  have hsettings := adds_takeSettings (d.reportAll (cursorMode args).2.1) .cursor
    [.startCursor, .endCursor, .limit] (cursorMode args).2.2
  refine (hmode.trans (hsettings.mono ?_)).of_eq rfl
  intro p hp
  exact hp.subset fun arg => cursorMode_subset

theorem adds_fetchOptions : Adds (InArgs args) d (d.fetchOptions args) :=
  (adds_takeSettings d .fetchOptions [.chunkSize, .prefetchSize] args).of_eq rfl

section origins

variable {first : Expr} {more : List Expr}

theorem resolve_pos {target : Option Target} (h : x ∈ (resolve lookup first target).2) :
    x.pos = first.pos := by
  unfold resolve at h
  split at h
  · split at h
    · cases h
    · obtain rfl := List.mem_singleton.mp h
      rfl
  · cases h

theorem completeOrigin_pos {origin : Origin} (h : x ∈ (completeOrigin pos first more origin).2) :
    InCall pos (first :: more) x.pos := by
  unfold completeOrigin at h
  split at h
  · rename_i second others _
    have hsecond : InCall pos (first :: second :: others) second.pos :=
      .inr ⟨second, List.mem_cons_of_mem _ List.mem_cons_self, second.holds_pos⟩
    split at h
    · cases h
    · obtain rfl := List.mem_singleton.mp h
      exact hsecond
    · obtain rfl := List.mem_singleton.mp h
      exact hsecond
  · obtain rfl := List.mem_singleton.mp h
    exact .inr ⟨first, List.mem_cons_self, first.holds_pos⟩
  · obtain rfl := List.mem_singleton.mp h
    exact .inl rfl
  · cases h

theorem adds_from : Adds (InCall pos args) d (d.from lookup pos args) := by
  cases args with
  | nil => exact .report (.inl rfl)
  | cons first more =>
    have harity : Adds (InCall pos (first :: more)) d
        (if more.length > 1 then d.report [.fromArity] pos else d) := by
      split
      · exact .report (.inl rfl)
      · exact .refl d
    have hfirst {p : Position} (h : (expr first).Holds p) : InCall pos (first :: more) p :=
      .inr ⟨first, List.mem_cons_self, h⟩
    refine (harity.trans (.reportAll ?_)).of_eq rfl
    intro x hx
    rcases List.mem_append.mp hx with hx | hx
    · rcases List.mem_append.mp hx with hx | hx
      · exact hfirst (Target.holds_of_read hx)
      · rw [resolve_pos hx]
        exact hfirst first.holds_pos
    · exact completeOrigin_pos hx

end origins

section conditions

variable {arg : Expr}

/-- Whatever is wrong with an argument that is read is reported inside it. -/
theorem adds_take {α : Type} {r : Restriction α} {first : Bool}
    (herror : ∀ {x}, r.read arg = .error x → (expr arg).Holds x.pos)
    (hok : ∀ {item fieldPos}, r.read arg = .ok (item, fieldPos) → (expr arg).Holds fieldPos) :
    Adds (expr arg).Holds d (d.take settings r first arg).1 := by
  unfold take
  split
  · rename_i problem hread
    exact .reportAll (List.forall_mem_singleton.mpr (herror hread))
  · rename_i item fieldPos hread
    exact ((Adds.report (hok hread)).trans (.report arg.holds_pos)).of_eq rfl

theorem adds_filter {first : Bool} :
    Adds (expr arg).Holds d (d.take settings (.filtering settings) first arg).1 :=
  adds_take Filter.holds_of_error Filter.holds_of_ok

theorem adds_sort {first : Bool} :
    Adds (expr arg).Holds d (d.take settings (.sorting settings) first arg).1 := by
  refine adds_take (fun h => SortKey.holds_of_error (Restriction.read_sorting_of_error h)) ?_
  intro key fieldPos h
  rw [(Restriction.read_sorting_of_ok h).2]
  exact arg.holds_pos

theorem adds_takeAll {α : Type} {r : Restriction α} {first : Bool}
    (step : ∀ {d first arg}, Adds (expr arg).Holds d (d.take settings r first arg).1) :
    Adds (InArgs args) d (d.takeAll settings r first args).1 :=
  takeAll_run (R := fun _ d e => Adds (InArgs args) d e.1) Adds.refl Adds.trans
    fun _ _ arg harg => step.mono fun _ hp => ⟨arg, harg, hp⟩

end conditions

theorem adds_keyword {word : Keyword} :
    Adds (InCall pos args) d (d.keyword settings lookup pos args word) := by
  cases word with
  | select => exact adds_select
  | cursor => exact adds_cursor.mono fun _ => .inr
  | «from» => exact adds_from
  | «where» => exact ((adds_takeAll adds_filter).of_eq rfl).mono fun _ => .inr
  | orderBy => exact ((adds_takeAll adds_sort).of_eq rfl).mono fun _ => .inr
  | fetchOptions => exact adds_fetchOptions.mono fun _ => .inr

/-- The problems of a statement are at places inside it. -/
theorem adds_statement (settings : Settings) (lookup : TypeLookup) (d : Draft) (s : Stmt) :
    Adds (stmt s).Holds d (d.statement settings lookup s) := by
  unfold statement
  split
  · rename_i p value
    have hvalue {q : Position} (h : (expr value).Holds q) : (stmt (.eval p value)).Holds q :=
      h.of_child List.mem_cons_self
    split
    · split
      · exact .refl d
      · exact .report (hvalue (.self rfl))
    · rename_i callPos name args
      split
      · refine adds_keyword.mono fun q hq => hvalue ?_
        rcases hq with rfl | ⟨arg, harg, hq⟩
        · exact .self rfl
        · exact hq.of_child (List.mem_map_of_mem harg)
      · exact .report (hvalue (.self rfl))
    · exact .report (hvalue (Expr.holds_pos _))
  · exact .report (.self rfl)

/-- The statements of a block, each with the problems that compiling it adds. -/
def trace (settings : Settings) (lookup : TypeLookup) (d : Draft) :
    List Stmt → List (Stmt × List Diagnostic)
  | [] => []
  | s :: more =>
    (s, (d.statement settings lookup s).diagnostics.drop d.diagnostics.length) ::
      trace settings lookup (d.statement settings lookup s) more

theorem map_trace (d : Draft) (statements : List Stmt) :
    (d.trace settings lookup statements).map (·.1) = statements := by
  induction statements generalizing d with
  | nil => rfl
  | cons s more ih => rw [trace, List.map_cons, ih]

theorem foldl_trace (d : Draft) (statements : List Stmt) :
    (statements.foldl (statement settings lookup) d).diagnostics =
      d.diagnostics ++ (d.trace settings lookup statements).flatMap (·.2) := by
  induction statements generalizing d with
  | nil => exact (List.append_nil _).symm
  | cons s more ih =>
    obtain ⟨new, hnew, -⟩ := adds_statement settings lookup d s
    rw [List.foldl_cons, ih, trace, List.flatMap_cons, hnew, List.drop_left, List.append_assoc]

theorem holds_of_trace {d : Draft} {statements : List Stmt} {s : Stmt} {new : List Diagnostic}
    (h : (s, new) ∈ d.trace settings lookup statements) (hx : x ∈ new) : (stmt s).Holds x.pos := by
  induction statements generalizing d with
  | nil => cases h
  | cons first more ih =>
    rcases List.mem_cons.mp h with h | h
    · cases h
      obtain ⟨added, hadded, hplaces⟩ := adds_statement settings lookup d s
      rw [hadded, List.drop_left] at hx
      exact hplaces x hx
    · exact ih h

end Draft

/-- Compiling reports the problems of the statements, one statement after the other. -/
theorem compile_trace (settings : Settings) (lookup : TypeLookup) (statements : List Stmt) :
    (compile settings lookup statements).2 =
      (Draft.empty.trace settings lookup statements).flatMap (·.2) :=
  Draft.foldl_trace .empty statements

end QueryBlocks
