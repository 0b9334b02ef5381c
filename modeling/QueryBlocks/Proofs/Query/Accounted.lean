import QueryBlocks.Proofs.Query.Reported
import QueryBlocks.Proofs.Query.Summary
import QueryBlocks.Proofs.Query.Written

/-!
Nothing that is written in a query block is dropped silently. Every call of a keyword gives its
clause, every other statement is reported, and of the arguments each one is either taken into the
clause or refused with one problem of form.
-/
namespace QueryBlocks

/-- What a clause takes from an argument. -/
inductive ClauseItem where
  | setting (value : Setting)
  | filter (value : Filter)
  | sort (value : SortKey)

/-- The settings, filters or sort keys of a clause, in order. -/
def Clause.items : Clause → List ClauseItem
  | select _ settings | cursor _ settings | fetchOptions settings => settings.map .setting
  | «where» filters => filters.map .filter
  | orderBy keys => keys.map .sort
  | «from» _ => []

namespace Keyword

/-- The arguments of a statement, without the one that names the mode. -/
def itemArgs : Keyword → List Expr → List Expr
  | select, args => args.tail
  | cursor, .var .. :: more => more
  | _, args => args

/-- What a statement takes one of these arguments for, if it takes it. -/
def item? : Keyword → Expr → Option ClauseItem
  | select, arg => (Written.Setting.of? [.limit, .offset] arg).map (.setting ·.text)
  | cursor, arg =>
    (Written.Setting.of? [.startCursor, .endCursor, .limit] arg).map (.setting ·.text)
  | fetchOptions, arg =>
    (Written.Setting.of? [.chunkSize, .prefetchSize] arg).map (.setting ·.text)
  | «where», arg => (Written.Filter.of? arg).map (.filter ·.text)
  | orderBy, arg => (SortKey.read arg).toOption.map .sort
  | «from», _ => none

end Keyword

/-- The problem is about the mode of `select` or `cursor`. -/
def Cause.isMode : Cause → Bool
  | modeMissing | modeUnknown | cursorModeUnknown => true
  | _ => false

/-- A problem of form with an argument other than the mode. -/
def Diagnostic.isRefusal (x : Diagnostic) : Bool :=
  (x.category == .shape || x.category == .vocabulary) && !x.cause.isMode

/-- The keyword of the clause that a statement gives. -/
def Stmt.clauseKeyword? (s : Stmt) : Option Keyword :=
  match s.keywordCall? with
  | some (.from, []) => none
  | some (word, _) => some word
  | none => none

/-- What becomes of a statement: which problems are added, and how the query changes. -/
inductive Accounted (s : Stmt) (before after : Query) (added : List Diagnostic) : Prop
  /-- A keyword that stands alone. -/
  | alone (hs : s.isBareKeyword = true) (hadded : added = []) (hquery : after = before)
  /-- Anything that is no keyword and no call of one. -/
  | foreign (x : Diagnostic) (hs : s.isBareKeyword = false) (hcall : s.keywordCall? = none)
      (hadded : added = [x]) (hcategory : x.category = .vocabulary) (hquery : after = before)
  /-- A `from` without arguments. -/
  | empty (x : Diagnostic) (hcall : s.keywordCall? = some (.from, [])) (hadded : added = [x])
      (hcategory : x.category = .shape) (hquery : after = before)
  /-- A `from` with arguments. -/
  | origin (first : Expr) (more : List Expr) (c : Clause)
      (hcall : s.keywordCall? = some (.from, first :: more)) (hkeyword : c.keyword = .from)
      (hquery : after = before.add c)
  /-- Any other call of a keyword. -/
  | call (word : Keyword) (args : List Expr) (c : Clause) (hword : word ≠ .from)
      (hcall : s.keywordCall? = some (word, args)) (hkeyword : c.keyword = word)
      (hquery : after = before.add c)
      (hitems : c.items = (word.itemArgs args).filterMap word.item?)
      (hcount : (word.itemArgs args).length =
        c.items.length + added.countP Diagnostic.isRefusal)
      (hmode : added.countP (fun x => x.cause.isMode) ≤
        if word = .select ∨ word = .cursor then 1 else 0)

/-! ### Refusals -/

theorem Setting.isRefusal_of_make {keyword : Keyword} {allowed : List FetchParam} {arg : Expr}
    {name : String} {value : Option Expr} {x : Diagnostic}
    (h : Setting.make keyword allowed arg name value = .error x) : x.isRefusal = true := by
  unfold Setting.make at h
  split at h <;> cases h <;> rfl

theorem Setting.isRefusal_of_read {keyword : Keyword} {allowed : List FetchParam} {arg : Expr}
    {x : Diagnostic} (h : Setting.read keyword allowed arg = .error x) : x.isRefusal = true := by
  unfold Setting.read at h
  split at h
  · exact isRefusal_of_make h
  · exact isRefusal_of_make h
  · split at h
    · cases h
      rfl
    · split at h
      · exact isRefusal_of_make h
      · cases h
        rfl
  · cases h
    rfl

theorem Filter.isRefusal_of_read {arg : Expr} {x : Diagnostic} (h : Filter.read arg = .error x) :
    x.isRefusal = true := by
  unfold Filter.read at h
  split at h
  · split at h <;> cases h <;> rfl
  · cases h
    rfl

theorem SortKey.isRefusal_of_read {arg : Expr} {x : Diagnostic} (h : SortKey.read arg = .error x) :
    x.isRefusal = true := by
  unfold SortKey.read at h
  split at h
  · cases h
  · split at h <;> cases h <;> rfl
  · cases h
    rfl

theorem Cause.formal_of_isMode {cause : Cause} (h : cause.isMode = true) :
    cause.category.Formal := by
  cases cause <;> first | exact .inl rfl | exact .inr rfl | cases h

theorem Diagnostic.formal_of_isRefusal {x : Diagnostic} (h : x.isRefusal = true) :
    x.category.Formal := by
  simp only [isRefusal, Bool.and_eq_true, Bool.or_eq_true, beq_iff_eq] at h
  exact h.1

theorem Diagnostic.isMode_of_isRefusal {x : Diagnostic} (h : x.isRefusal = true) :
    x.cause.isMode = false := by
  simp only [isRefusal, Bool.and_eq_true, Bool.not_eq_true'] at h
  exact h.2

/-- Of `arguments` arguments `taken` were taken, the others are refused by these problems, and none
of the problems is about a mode. -/
structure Tally (arguments taken : Nat) (problems : List Diagnostic) : Prop where
  count : arguments = taken + problems.countP Diagnostic.isRefusal
  mode : problems.countP (fun x => x.cause.isMode) = 0

namespace Tally

theorem nil : Tally 0 0 [] := ⟨rfl, rfl⟩

theorem append {a b t u : Nat} {p q : List Diagnostic} (hp : Tally a t p) (hq : Tally b u q) :
    Tally (a + b) (t + u) (p ++ q) := by
  constructor
  · rw [List.countP_append]
    have := hp.count
    have := hq.count
    omega
  · rw [List.countP_append, hp.mode, hq.mode]

theorem refused {x : Diagnostic} (h : x.isRefusal = true) : Tally 1 0 [x] := by
  constructor
  · simp [h]
  · simp [Diagnostic.isMode_of_isRefusal h]

/-- An argument that is taken may name an unknown field and break rules, but its form is not
objected to. -/
theorem taken {unknown broken : List Cause} {p q : Position}
    (hunknown : ∀ cause ∈ unknown, cause.category = .resolution)
    (hbroken : ∀ cause ∈ broken, cause.category = .semantic) :
    Tally 1 1 (unknown.map (⟨·, p⟩) ++ broken.map (⟨·, q⟩)) := by
  have hform : ∀ x ∈ unknown.map (⟨·, p⟩) ++ broken.map (⟨·, q⟩),
      ¬ (Diagnostic.category x).Formal := by
    intro x hx
    rcases List.mem_append.mp hx with hx | hx
    · obtain ⟨cause, hcause, rfl⟩ := List.mem_map.mp hx
      rw [Diagnostic.category, hunknown cause hcause]
      simp [Category.Formal]
    · obtain ⟨cause, hcause, rfl⟩ := List.mem_map.mp hx
      rw [Diagnostic.category, hbroken cause hcause]
      simp [Category.Formal]
  constructor
  · rw [List.countP_eq_zero.mpr fun x hx hr => hform x hx (Diagnostic.formal_of_isRefusal hr)]
  · exact List.countP_eq_zero.mpr fun x hx hm => hform x hx (Cause.formal_of_isMode hm)

/-- A problem with the mode comes on top. -/
theorem mode_append {a t : Nat} {mode problems : List Diagnostic} (h : Tally a t problems)
    (hlength : mode.length ≤ 1) (hmode : ∀ x ∈ mode, x.cause.isMode = true) :
    a = t + (mode ++ problems).countP Diagnostic.isRefusal ∧
      (mode ++ problems).countP (fun x => x.cause.isMode) ≤ 1 := by
  have hrefusal : mode.countP Diagnostic.isRefusal = 0 := by
    apply List.countP_eq_zero.mpr
    intro x hx hr
    have hnot := Diagnostic.isMode_of_isRefusal hr
    rw [hmode x hx] at hnot
    cases hnot
  rw [List.countP_append, List.countP_append, hrefusal, h.mode, Nat.zero_add, Nat.add_zero]
  exact ⟨h.count, Nat.le_trans List.countP_le_length hlength⟩

end Tally

namespace Draft

/-! ### Arguments -/

theorem tally_settings (keyword : Keyword) (allowed : List FetchParam) (args : List Expr) :
    Tally args.length (accepted (args.map (Setting.read keyword allowed))).length
      (refused (args.map (Setting.read keyword allowed))) := by
  induction args with
  | nil => exact .nil
  | cons arg more ih =>
    rw [List.length_cons, Nat.add_comm]
    cases hread : Setting.read keyword allowed arg with
    | error x =>
      have h := (Tally.refused (Setting.isRefusal_of_read hread)).append ih
      simpa [accepted, QueryBlocks.refused, hread] using h
    | ok value =>
      have hone : Tally 1 1 [] := ⟨rfl, rfl⟩
      have h := hone.append ih
      simpa [accepted, QueryBlocks.refused, hread, Nat.add_comm] using h

/-- Every argument of a statement is taken or refused. -/
theorem tally_takeAll {α : Type} {r : Restriction α} (hr : r.Lawful)
    (hrefusal : ∀ {arg x}, r.read arg = .error x → x.isRefusal = true) (settings : Settings)
    (d : Draft) (first : Bool) (args : List Expr) :
    ∃ added, (d.takeAll settings r first args).1.diagnostics = d.diagnostics ++ added ∧
      Tally args.length (d.takeAll settings r first args).2.length added := by
  refine takeAll_run (R := fun args d e => ∃ added, e.1.diagnostics = d.diagnostics ++ added ∧
    Tally args.length e.2.length added) (fun d => ⟨[], (List.append_nil _).symm, .nil⟩)
    ?_ (fun d first arg _ => ?_)
  · rintro arg more d e f taken others ⟨problems, hproblems, htally⟩ ⟨further, hfurther, hrest⟩
    refine ⟨problems ++ further, ?_, ?_⟩
    · rw [hfurther, hproblems, List.append_assoc]
    · rw [List.length_append, List.length_cons, Nat.add_comm]
      exact htally.append hrest
  · refine ⟨_, diagnostics_take, ?_⟩
    rw [taken_take]
    cases hread : r.read arg with
    | error x => exact .refused (hrefusal hread)
    | ok read => exact .taken (fun _ => fieldCauses_category) (fun _ => hr.semantic)

theorem tally_filters (settings : Settings) (d : Draft) (args : List Expr) :
    ∃ added, (d.takeAll settings (.filtering settings) true args).1.diagnostics =
        d.diagnostics ++ added ∧
      Tally args.length (d.takeAll settings (.filtering settings) true args).2.length added :=
  tally_takeAll (Restriction.lawful_filtering settings) Filter.isRefusal_of_read settings d true
    args

theorem tally_sorts (settings : Settings) (d : Draft) (args : List Expr) :
    ∃ added, (d.takeAll settings (.sorting settings) true args).1.diagnostics =
        d.diagnostics ++ added ∧
      Tally args.length (d.takeAll settings (.sorting settings) true args).2.length added :=
  tally_takeAll (Restriction.lawful_sorting settings)
    (fun h => SortKey.isRefusal_of_read (Restriction.read_sorting_of_error h)) settings d true args

/-! ### Modes -/

theorem selectMode_problems (pos : Position) (args : List Expr) :
    (selectMode pos args).2.length ≤ 1 ∧
      ∀ x ∈ (selectMode pos args).2, x.cause.isMode = true := by
  cases args with
  | nil => simp [selectMode, Cause.isMode]
  | cons first more =>
    rw [selectMode]
    cases first.name?.bind Mode.ofName? <;> simp [Cause.isMode]

theorem cursorMode_problems (args : List Expr) :
    (cursorMode args).2.1.length ≤ 1 ∧ ∀ x ∈ (cursorMode args).2.1, x.cause.isMode = true := by
  unfold cursorMode
  split
  · split
    · simp
    · split <;> simp [Cause.isMode]
  · simp

theorem itemArgs_cursor (args : List Expr) :
    Keyword.itemArgs .cursor args = (cursorMode args).2.2 := by
  cases args with
  | nil => rfl
  | cons first more =>
    cases first with
    | var pos name =>
      rw [Keyword.itemArgs, cursorMode]
      split
      · rfl
      · split <;> rfl
    | _ => rfl

/-! ### Statements -/

theorem items_of_settings (keyword : Keyword) (allowed : List FetchParam) (args : List Expr) :
    (accepted (args.map (Setting.read keyword allowed))).map ClauseItem.setting =
      args.filterMap fun arg => (Written.Setting.of? allowed arg).map (.setting ·.text) := by
  rw [accepted_map, List.map_filterMap]
  simp only [Setting.toOption_read, Option.map_map]
  rfl

section

variable {s : Stmt} {word : Keyword} {args : List Expr}

theorem accounted_keyword (settings : Settings) (lookup : TypeLookup) (d : Draft) (pos : Position)
    (hcall : s.keywordCall? = some (word, args)) :
    ∃ added, (d.keyword settings lookup pos args word).diagnostics = d.diagnostics ++ added ∧
      Accounted s d.query (d.keyword settings lookup pos args word).query added := by
  cases word with
  | select =>
    obtain ⟨hlength, hmode⟩ := selectMode_problems pos args
    have htally := (tally_settings .select [.limit, .offset] args.tail).mode_append hlength hmode
    have hitems := items_of_settings .select [.limit, .offset] args.tail
    refine ⟨_, List.append_assoc .., .call .select args (.select _ _) (by decide) hcall rfl rfl
      hitems ?_ htally.2⟩
    rw [Clause.items, List.length_map]
    exact htally.1
  | cursor =>
    obtain ⟨hlength, hmode⟩ := cursorMode_problems args
    have htally := (tally_settings .cursor [.startCursor, .endCursor, .limit]
      (cursorMode args).2.2).mode_append hlength hmode
    have hitems := items_of_settings .cursor [.startCursor, .endCursor, .limit]
      (cursorMode args).2.2
    refine ⟨_, List.append_assoc .., .call .cursor args (.cursor _ _) (by decide) hcall rfl rfl
      ?_ ?_ htally.2⟩
    · rw [itemArgs_cursor]
      exact hitems
    · rw [itemArgs_cursor, Clause.items, List.length_map]
      exact htally.1
  | «from» =>
    cases args with
    | nil => exact ⟨[⟨.fromArity, pos⟩], rfl, .empty _ hcall rfl rfl rfl⟩
    | cons first more =>
      have hother : Keyword.from ≠ .where ∧ Keyword.from ≠ .orderBy := by decide
      obtain ⟨added, hadded, -⟩ :=
        diagnostics_keyword settings lookup d pos (first :: more) hother
      exact ⟨added, hadded, .origin first more (.from _) hcall rfl query_from⟩
  | «where» =>
    obtain ⟨added, hadded, htally⟩ := tally_filters settings d args
    refine ⟨added, hadded, .call .where args (.where _) (by decide) hcall rfl query_where ?_ ?_
      (Nat.le_of_eq htally.mode)⟩
    · rw [Clause.items, taken_filters, List.map_map, List.map_filterMap]
      rfl
    · rw [Clause.items, List.length_map]
      exact htally.count
  | orderBy =>
    obtain ⟨added, hadded, htally⟩ := tally_sorts settings d args
    refine ⟨added, hadded, .call .orderBy args (.orderBy _) (by decide) hcall rfl query_orderBy
      ?_ ?_ (Nat.le_of_eq htally.mode)⟩
    · rw [Clause.items, taken_sorts, accepted_map, List.map_filterMap]
      rfl
    · rw [Clause.items, List.length_map]
      exact htally.count
  | fetchOptions =>
    have htally := tally_settings .fetchOptions [.chunkSize, .prefetchSize] args
    have hitems := items_of_settings .fetchOptions [.chunkSize, .prefetchSize] args
    refine ⟨_, rfl, .call .fetchOptions args (.fetchOptions _) (by decide) hcall rfl rfl hitems ?_
      (Nat.le_of_eq htally.mode)⟩
    rw [Clause.items, List.length_map]
    exact htally.count

/-- A statement that calls no keyword is a keyword that stands alone, or it is reported. -/
theorem statement_of_no_call (settings : Settings) (lookup : TypeLookup) (d : Draft)
    (hcall : s.keywordCall? = none) :
    (s.isBareKeyword = true ∧ d.statement settings lookup s = d) ∨
      s.isBareKeyword = false ∧ ∃ x : Diagnostic, x.category = .vocabulary ∧
        d.statement settings lookup s = d.reportAll [x] := by
  cases s with
  | eval p e =>
    cases e with
    | var pos name =>
      cases hname : isKeyword name with
      | true => exact .inl ⟨hname, by simp [statement, hname]⟩
      | false =>
        refine .inr ⟨hname, ⟨.unsupportedName name, pos⟩, rfl, ?_⟩
        simp [statement, hname, report, reportAll]
    | call pos receiver name args =>
      cases receiver with
      | some receiver => exact .inr ⟨rfl, ⟨_, _⟩, rfl, rfl⟩
      | none =>
        have hname : Keyword.ofName? name = none := by
          simpa [Stmt.keywordCall?] using hcall
        refine .inr ⟨rfl, ⟨.unsupportedName name, pos⟩, rfl, ?_⟩
        simp [statement, hname, report, reportAll]
    | _ => exact .inr ⟨rfl, ⟨_, _⟩, rfl, rfl⟩
  | _ => exact .inr ⟨rfl, ⟨_, _⟩, rfl, rfl⟩

theorem accounted_statement (settings : Settings) (lookup : TypeLookup) (d : Draft) (s : Stmt) :
    ∃ added, (d.statement settings lookup s).diagnostics = d.diagnostics ++ added ∧
      Accounted s d.query (d.statement settings lookup s).query added := by
  rcases statement_cases settings lookup d s with ⟨hcall, -⟩ | ⟨word, args, pos, hcall, hs⟩
  · rcases statement_of_no_call settings lookup d hcall with ⟨halone, hs⟩ | ⟨hs, x, hx, hreport⟩
    · rw [hs]
      exact ⟨[], (List.append_nil _).symm, .alone halone rfl rfl⟩
    · rw [hreport]
      exact ⟨[x], rfl, .foreign x hs hcall rfl hx rfl⟩
  · rw [hs]
    exact accounted_keyword settings lookup d pos hcall

/-- Later statements only add to what has been reported. -/
theorem diagnostics_foldl (settings : Settings) (lookup : TypeLookup) (d : Draft)
    (statements : List Stmt) : ∃ later,
      (statements.foldl (statement settings lookup) d).diagnostics = d.diagnostics ++ later := by
  induction statements generalizing d with
  | nil => exact ⟨[], (List.append_nil _).symm⟩
  | cons s more ih =>
    obtain ⟨added, hadded, -⟩ := accounted_statement settings lookup d s
    obtain ⟨later, hlater⟩ := ih (d.statement settings lookup s)
    refine ⟨added ++ later, ?_⟩
    rw [List.foldl_cons, hlater, hadded, List.append_assoc]

end

end Draft

theorem Written.Clause.keyword_of? (s : Stmt) :
    (Written.Clause.of? s).map (fun c => c.text.keyword) = s.clauseKeyword? := by
  rw [Written.Clause.of?, Stmt.clauseKeyword?]
  cases hcall : s.keywordCall? with
  | none => rfl
  | some call =>
    obtain ⟨word, args⟩ := call
    cases word with
    | «from» => cases args <;> rfl
    | _ => rfl

/-- Nothing is dropped silently: the clauses are those of the calls of keywords, in order, and each
statement, between those before and those after it, is accounted for by the problems it adds. -/
theorem compile_accounts_for_statements (settings : Settings) (lookup : TypeLookup) :
    (∀ statements : List Stmt, (compile settings lookup statements).1.clauses.map Clause.keyword =
      statements.filterMap Stmt.clauseKeyword?) ∧
    ∀ (before : List Stmt) (s : Stmt) (after : List Stmt), ∃ added later,
      (compile settings lookup (before ++ [s])).2 = (compile settings lookup before).2 ++ added ∧
      (compile settings lookup (before ++ s :: after)).2 =
        (compile settings lookup before).2 ++ added ++ later ∧
      Accounted s (compile settings lookup before).1 (compile settings lookup (before ++ [s])).1
        added := by
  refine ⟨fun statements => ?_, fun before s after => ?_⟩
  · rw [compile_clauses, List.map_map, List.map_filterMap]
    congr
    funext s
    exact Written.Clause.keyword_of? s
  · simp only [compile, List.foldl_append, List.foldl_cons, List.foldl_nil]
    obtain ⟨added, hadded, haccounted⟩ := Draft.accounted_statement settings lookup
      (before.foldl (Draft.statement settings lookup) .empty) s
    obtain ⟨later, hlater⟩ := Draft.diagnostics_foldl settings lookup
      ((before.foldl (Draft.statement settings lookup) .empty).statement settings lookup s) after
    refine ⟨added, later, hadded, ?_, haccounted⟩
    rw [hlater, hadded]

end QueryBlocks
