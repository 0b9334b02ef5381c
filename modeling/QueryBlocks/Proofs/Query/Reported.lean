import QueryBlocks.Proofs.Query.Checked

/-!
What statements add to the problems that are reported. The rules of a store are asked of filters and
sort keys only, so all problems of semantics are raised by these, one after the other.
-/
namespace QueryBlocks

/-- Of the rules on filters, those on ancestors and cursors are asked of every filter and the others
of inequality filters. -/
theorem Query.filter_filterCauses {settings : Settings} {q : Query} {f : Filter}
    {kind : Cause → Bool} (hkindless : ∀ field, kind (.kindlessFilter field) = false)
    (hcursor : ∀ field, kind (.cursorFilter field) = false) :
    (q.filterCauses settings f).filter kind =
      if f.op ∈ FilterOp.inequalities then (q.inequalityCauses f ++ q.countCauses f).filter kind
      else [] := by
  have hothers : ((if q.kindlessAncestor && f.field != settings.keyProperty then
        [.kindlessFilter f.field] else []).filter kind = []) ∧
      (if q.cursor && (f.op == .isIn || f.op == .notEqual) then
        [.cursorFilter f.field] else []).filter kind = [] := by
    constructor <;> split <;> simp [hkindless, hcursor]
  rw [filterCauses, List.filter_append, List.filter_append, hothers.1, hothers.2, List.append_nil,
    List.append_nil]
  simp only [FilterOp.isInequality_iff]
  split <;> rfl

namespace Draft

variable {settings : Settings} {lookup : TypeLookup} {d : Draft}

/-- The problems with causes of some kind. -/
def raised (kind : Cause → Bool) (d : Draft) : List Diagnostic :=
  d.diagnostics.filter fun x => kind x.cause

theorem diagnostics_take {α : Type} {r : Restriction α} {first : Bool} {arg : Expr} :
    (d.take settings r first arg).1.diagnostics = d.diagnostics ++
      match r.read arg with
      | .error x => [x]
      | .ok (item, fieldPos) =>
        (fieldCauses settings d.fields (r.field item)).map (⟨·, fieldPos⟩) ++
          (r.causes d.query first item).map (⟨·, arg.pos⟩) := by
  unfold take
  rcases r.read arg with x | ⟨item, fieldPos⟩
  · rfl
  · simp [report]

/-- Statements other than `where` and `orderBy` add problems of form and of resolution. -/
theorem diagnostics_keyword (settings : Settings) (lookup : TypeLookup) (d : Draft) (pos : Position)
    (args : List Expr) {word : Keyword} (h : word ≠ .where ∧ word ≠ .orderBy) :
    ∃ problems, (d.keyword settings lookup pos args word).diagnostics = d.diagnostics ++ problems ∧
      ∀ x ∈ problems, x.category.Formal ∨ x.category = .resolution := by
  cases word with
  | select =>
    refine ⟨_, List.append_assoc .., fun x hx => .inl ?_⟩
    rcases List.mem_append.1 hx with hx | hx
    · exact formal_of_selectMode hx
    · exact formal_of_refused hx
  | cursor =>
    refine ⟨_, List.append_assoc .., fun x hx => .inl ?_⟩
    rcases List.mem_append.1 hx with hx | hx
    · exact formal_of_cursorMode hx
    · exact formal_of_refused hx
  | «from» =>
    cases args with
    | nil =>
      refine ⟨[⟨.fromArity, pos⟩], rfl, fun x hx => .inl ?_⟩
      obtain rfl := List.mem_singleton.1 hx
      exact .inl rfl
    | cons first more =>
      have hproblems : ∀ x ∈ (Target.read first).2 ++
          (resolve lookup first (Target.read first).1).2 ++ (completeOrigin pos first more
            (((Target.read first).1.map Target.origin).getD .empty)).2,
          x.category.Formal ∨ x.category = .resolution := by
        intro x hx
        rcases List.mem_append.1 hx with hx | hx
        · rcases List.mem_append.1 hx with hx | hx
          · exact .inl (Target.formal_of_read hx)
          · exact .inr (resolve_category hx)
        · exact .inl (formal_of_completeOrigin hx)
      rw [keyword, Draft.from]
      by_cases hmore : more.length > 1
      · rw [if_pos hmore]
        refine ⟨⟨.fromArity, pos⟩ :: _, List.append_assoc .., ?_⟩
        refine List.forall_mem_cons.2 ⟨?_, hproblems⟩
        exact .inl (.inl rfl)
      · rw [if_neg hmore]
        exact ⟨_, rfl, hproblems⟩
  | «where» => exact absurd rfl h.1
  | orderBy => exact absurd rfl h.2
  | fetchOptions => exact ⟨_, rfl, fun x hx => .inl (formal_of_refused hx)⟩

section

variable {kind : Cause → Bool} (hkind : ∀ cause, kind cause = true → cause.category = .semantic)

include hkind

theorem filter_kind_of_ne {problems : List Diagnostic}
    (h : ∀ x ∈ problems, x.category ≠ .semantic) :
    problems.filter (fun x => kind x.cause) = [] := by
  rw [List.filter_eq_nil_iff]
  exact fun x hx hcause => h x hx (hkind x.cause hcause)

/-- An argument raises the problems that the rules find in what it adds. -/
theorem raised_take {α : Type} {r : Restriction α} (hr : r.Lawful) {first : Bool} {arg : Expr} :
    (d.take settings r first arg).1.raised kind = d.raised kind ++
      match r.read arg with
      | .error _ => []
      | .ok (item, _) => ((r.causes d.query first item).filter kind).map (⟨·, arg.pos⟩) := by
  rw [raised, diagnostics_take, List.filter_append]
  refine congrArg _ ?_
  cases hread : r.read arg with
  | error x =>
    refine filter_kind_of_ne hkind (List.forall_mem_singleton.2 ?_)
    exact (hr.formal hread).ne.1
  | ok read =>
    rw [List.filter_append, filter_kind_of_ne hkind, List.nil_append, List.filter_map]
    · rfl
    · exact List.forall_mem_map.2 fieldCauses_ne_semantic

theorem raised_eq_of_append {e : Draft} {problems : List Diagnostic}
    (happend : e.diagnostics = d.diagnostics ++ problems)
    (h : ∀ x ∈ problems, x.category ≠ .semantic) : e.raised kind = d.raised kind := by
  rw [raised, happend, List.filter_append, filter_kind_of_ne hkind h, List.append_nil, raised]

theorem raised_keyword {pos : Position} {args : List Expr} {word : Keyword}
    (h : word ≠ .where ∧ word ≠ .orderBy) :
    (d.keyword settings lookup pos args word).raised kind = d.raised kind := by
  obtain ⟨problems, hproblems, hform⟩ := diagnostics_keyword settings lookup d pos args h
  refine raised_eq_of_append hkind hproblems fun x hx => ?_
  rcases hform x hx with hx | hx
  · exact hx.ne.1
  · simp [hx]

theorem raised_report_of_vocabulary {causes : List Cause} {pos : Position}
    (h : ∀ cause ∈ causes, cause.category = .vocabulary) :
    (d.report causes pos).raised kind = d.raised kind := by
  refine raised_eq_of_append hkind rfl (List.forall_mem_map.2 fun cause hcause => ?_)
  simp [Diagnostic.category, h cause hcause]

end

end Draft

end QueryBlocks
