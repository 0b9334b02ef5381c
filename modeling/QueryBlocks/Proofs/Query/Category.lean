import QueryBlocks.Query.Classify
import QueryBlocks.Query.Compile

/-!
Which categories of problems the statements of a query block can report. Reading an argument fails
in shape or vocabulary only, looking up types and fields only in resolution, and the rules on
filters and sort keys are all there is of semantics.
-/
namespace QueryBlocks

/-- The text is not of the form that is asked for, whatever it would mean. -/
def Category.Formal (c : Category) : Prop := c = .shape ∨ c = .vocabulary

theorem Category.Formal.ne {c : Category} (h : c.Formal) :
    c ≠ .semantic ∧ c ≠ .internal := by
  rcases h with rfl | rfl <;> simp

section Arguments

variable {keyword : Keyword} {allowed : List FetchParam} {arg : Expr} {x : Diagnostic}

theorem Setting.formal_of_make {name : String} {value : Option Expr}
    (h : Setting.make keyword allowed arg name value = .error x) : x.category.Formal := by
  unfold Setting.make at h
  split at h
  · cases h
    exact .inr rfl
  · cases h
    exact .inl rfl
  · cases h

theorem Setting.formal_of_read (h : Setting.read keyword allowed arg = .error x) :
    x.category.Formal := by
  unfold Setting.read at h
  split at h
  · exact formal_of_make h
  · exact formal_of_make h
  · split at h
    · cases h
      exact .inl rfl
    · split at h
      · exact formal_of_make h
      · cases h
        exact .inr rfl
  · cases h
    exact .inl rfl

theorem Filter.formal_of_read (h : Filter.read arg = .error x) : x.category.Formal := by
  unfold Filter.read at h
  split at h
  · split at h
    · cases h
      exact .inl rfl
    · cases h
      exact .inr rfl
    · cases h
  · cases h
    exact .inl rfl

theorem SortKey.formal_of_read (h : SortKey.read arg = .error x) : x.category.Formal := by
  unfold SortKey.read at h
  split at h
  · cases h
  · split at h
    · cases h
      exact .inl rfl
    · cases h
      exact .inr rfl
    · cases h
  · cases h
    exact .inl rfl

theorem Target.formal_of_read (h : x ∈ (Target.read arg).2) : x.category.Formal := by
  unfold Target.read at h
  repeat' split at h
  all_goals
    simp only [List.not_mem_nil, List.mem_singleton] at h
    try subst h
    try exact .inl rfl
    try exact .inr rfl

theorem Draft.formal_of_selectMode {pos : Position} {args : List Expr}
    (h : x ∈ (Draft.selectMode pos args).2) : x.category.Formal := by
  unfold Draft.selectMode at h
  split at h
  · obtain rfl := List.mem_singleton.1 h
    exact .inl rfl
  · split at h
    · cases h
    · obtain rfl := List.mem_singleton.1 h
      exact .inr rfl

theorem Draft.formal_of_cursorMode {args : List Expr} (h : x ∈ (Draft.cursorMode args).2.1) :
    x.category.Formal := by
  unfold Draft.cursorMode at h
  split at h
  · split at h
    · cases h
    · split at h
      · cases h
      · obtain rfl := List.mem_singleton.1 h
        exact .inr rfl
  · cases h

theorem Draft.formal_of_completeOrigin {pos : Position} {first : Expr} {more : List Expr}
    {origin : Origin} (h : x ∈ (Draft.completeOrigin pos first more origin).2) :
    x.category.Formal := by
  unfold Draft.completeOrigin at h
  repeat' split at h
  all_goals
    simp only [List.not_mem_nil, List.mem_singleton] at h
    try subst h
    try exact .inl rfl

theorem mem_refused {α : Type} {results : List (Except Diagnostic α)} :
    x ∈ refused results ↔ .error x ∈ results := by
  simp only [refused, List.mem_filterMap]
  constructor
  · rintro ⟨_ | a, hr, h⟩
    · rwa [Option.some.inj h] at hr
    · cases h
  · exact fun h => ⟨_, h, rfl⟩

theorem formal_of_refused {args : List Expr}
    (h : x ∈ refused (args.map (Setting.read keyword allowed))) : x.category.Formal := by
  obtain ⟨arg, -, hread⟩ := List.mem_map.1 (mem_refused.1 h)
  exact Setting.formal_of_read hread

end Arguments

theorem fieldCauses_category {settings : Settings} {fields : Option FieldSet} {field : String}
    {cause : Cause} (h : cause ∈ fieldCauses settings fields field) :
    cause.category = .resolution := by
  unfold fieldCauses at h
  split at h
  · split at h
    · cases h
    · obtain rfl := List.mem_singleton.1 h
      rfl
  · cases h

namespace Query

variable {settings : Settings} {q : Query} {cause : Cause}

theorem inequalityCauses_category {f : Filter} (h : cause ∈ q.inequalityCauses f) :
    cause.category = .semantic := by
  unfold inequalityCauses at h
  repeat' split at h
  all_goals
    simp only [List.not_mem_nil, List.mem_singleton] at h
    try subst h
    try rfl

theorem filterCauses_category {f : Filter} (h : cause ∈ q.filterCauses settings f) :
    cause.category = .semantic := by
  simp only [filterCauses, countCauses, List.mem_append, List.mem_ite_nil_right,
    List.mem_singleton] at h
  rcases h with (⟨-, h | ⟨-, rfl⟩⟩ | ⟨-, rfl⟩) | ⟨-, rfl⟩
  · exact inequalityCauses_category h
  · rfl
  · rfl
  · rfl

theorem sortCauses_category {first : Bool} {key : SortKey}
    (h : cause ∈ q.sortCauses settings first key) : cause.category = .semantic := by
  rcases List.mem_append.1 h with h | h
  · repeat' split at h
    all_goals
      simp only [List.not_mem_nil, List.mem_singleton] at h
      try subst h
      try rfl
  · repeat' split at h
    all_goals
      simp only [List.not_mem_nil, List.mem_singleton] at h
      try subst h
      try rfl

end Query

/-- An argument that cannot be read fails in form, and the rules are all of semantics. -/
structure Restriction.Lawful {α : Type} (r : Restriction α) : Prop where
  formal : ∀ {arg x}, r.read arg = .error x → x.category.Formal
  semantic : ∀ {q first item cause}, cause ∈ r.causes q first item → cause.category = .semantic

namespace Restriction

variable {settings : Settings} {q : Query} {first : Bool}

@[simp] theorem causes_filtering {f : Filter} :
    (filtering settings).causes q first f = q.filterCauses settings f := rfl

@[simp] theorem add_filtering {f : Filter} : (filtering settings).add q f = q.withFilter f := rfl

@[simp] theorem causes_sorting {key : SortKey} :
    (sorting settings).causes q first key = q.sortCauses settings first key := rfl

@[simp] theorem add_sorting {key : SortKey} : (sorting settings).add q key = q.withSort key := rfl

theorem read_sorting {arg : Expr} :
    (sorting settings).read arg = (SortKey.read arg).map (·, arg.pos) := rfl

theorem read_sorting_of_error {arg : Expr} {x : Diagnostic}
    (h : (sorting settings).read arg = .error x) : SortKey.read arg = .error x := by
  rw [read_sorting] at h
  cases hread : SortKey.read arg <;> rw [hread] at h <;> cases h
  rfl

theorem read_sorting_of_ok {arg : Expr} {key : SortKey} {fieldPos : Position}
    (h : (sorting settings).read arg = .ok (key, fieldPos)) :
    SortKey.read arg = .ok key ∧ fieldPos = arg.pos := by
  rw [read_sorting] at h
  cases hread : SortKey.read arg <;> rw [hread] at h <;> cases h
  exact ⟨rfl, rfl⟩

theorem lawful_filtering (settings : Settings) : (filtering settings).Lawful where
  formal := Filter.formal_of_read
  semantic := Query.filterCauses_category

theorem lawful_sorting (settings : Settings) : (sorting settings).Lawful where
  formal h := SortKey.formal_of_read (read_sorting_of_error h)
  semantic := Query.sortCauses_category

end Restriction

namespace Draft

variable {settings : Settings} {lookup : TypeLookup} {d : Draft} {c : Category}

/-- No problem of this category has been reported. -/
def Free (c : Category) (d : Draft) : Prop := ∀ x ∈ d.diagnostics, x.category ≠ c

theorem free_empty : empty.Free c := by simp [Free, empty]

@[simp] theorem free_report {causes : List Cause} {pos : Position} :
    (d.report causes pos).Free c ↔ d.Free c ∧ ∀ cause ∈ causes, cause.category ≠ c := by
  simp [Free, report, or_imp, forall_and, Diagnostic.category]

@[simp] theorem free_reportAll {problems : List Diagnostic} :
    (d.reportAll problems).Free c ↔ d.Free c ∧ ∀ x ∈ problems, x.category ≠ c := by
  simp [Free, reportAll, or_imp, forall_and]

@[simp] theorem free_withClause {clause : Clause} : (d.withClause clause).Free c ↔ d.Free c :=
  Iff.rfl

/-- What a draft knows of its query has no part in what has been reported. -/
@[simp] theorem free_mk {q : Query} {fields : Option FieldSet} :
    Free c ⟨q, fields, d.diagnostics⟩ ↔ d.Free c := Iff.rfl

theorem free_takeSettings {keyword : Keyword} {allowed : List FetchParam} {args : List Expr} :
    (d.takeSettings keyword allowed args).1.Free c ↔
      d.Free c ∧ ∀ x ∈ refused (args.map (Setting.read keyword allowed)), x.category ≠ c :=
  free_reportAll

theorem free_select {pos : Position} {args : List Expr} : (d.select pos args).Free c ↔
    (d.Free c ∧ ∀ x ∈ (selectMode pos args).2, x.category ≠ c) ∧
      ∀ x ∈ refused (args.tail.map (Setting.read .select [.limit, .offset])), x.category ≠ c := by
  rw [select, free_withClause, free_mk, free_takeSettings, free_reportAll]

theorem free_cursor {args : List Expr} : (d.cursor args).Free c ↔
    (d.Free c ∧ ∀ x ∈ (cursorMode args).2.1, x.category ≠ c) ∧
      ∀ x ∈ refused ((cursorMode args).2.2.map
        (Setting.read .cursor [.startCursor, .endCursor, .limit])), x.category ≠ c := by
  rw [cursor, free_withClause, free_mk, free_takeSettings, free_reportAll]

theorem free_fetchOptions {args : List Expr} : (d.fetchOptions args).Free c ↔
    d.Free c ∧ ∀ x ∈ refused (args.map
      (Setting.read .fetchOptions [.chunkSize, .prefetchSize])), x.category ≠ c := by
  rw [fetchOptions, free_withClause, free_takeSettings]

theorem resolve_category {first : Expr} {target : Option Target} {x : Diagnostic}
    (h : x ∈ (resolve lookup first target).2) : x.category = .resolution := by
  unfold resolve at h
  split at h
  · split at h
    · cases h
    · obtain rfl := List.mem_singleton.1 h
      rfl
  · cases h

theorem free_from_nil (lookup : TypeLookup) {pos : Position} :
    (d.from lookup pos []).Free c ↔ d.Free c ∧ .shape ≠ c := by
  simp [Draft.from, Cause.category]

theorem free_from_cons {pos : Position} {first : Expr} {more : List Expr} :
    (d.from lookup pos (first :: more)).Free c ↔
      (d.Free c ∧ (more.length > 1 → .shape ≠ c)) ∧
        ∀ x ∈ (Target.read first).2 ++ (resolve lookup first (Target.read first).1).2 ++
          (completeOrigin pos first more
            (((Target.read first).1.map Target.origin).getD .empty)).2, x.category ≠ c := by
  rw [Draft.from, free_withClause, free_mk, free_reportAll]
  refine and_congr_left fun _ => ?_
  split
  · rename_i hmore
    simp [hmore, Cause.category]
  · rename_i hmore
    simp [hmore]

section arguments

variable {α : Type} {r : Restriction α} {first : Bool} {arg : Expr} {args : List Expr}

theorem free_take : (d.take settings r first arg).1.Free c ↔ d.Free c ∧
    match r.read arg with
    | .error x => x.category ≠ c
    | .ok (item, _) =>
      (∀ cause ∈ fieldCauses settings d.fields (r.field item), cause.category ≠ c) ∧
        ∀ cause ∈ r.causes d.query first item, cause.category ≠ c := by
  unfold take
  rcases r.read arg with x | ⟨item, fieldPos⟩
  · simp
  · rw [free_mk, free_report, free_report, and_assoc]
    rfl

theorem query_take : (d.take settings r first arg).1.query =
    match r.read arg with
    | .error _ => d.query
    | .ok (item, _) => r.add d.query item := by
  unfold take
  rcases r.read arg with _ | ⟨item, fieldPos⟩ <;> rfl

theorem taken_take : (d.take settings r first arg).2 =
    match r.read arg with
    | .error _ => []
    | .ok (item, _) => [item] := by
  unfold take
  rcases r.read arg with _ | ⟨item, fieldPos⟩ <;> rfl

theorem takeAll_cons_fst {more : List Expr} : (d.takeAll settings r first (arg :: more)).1 =
    ((d.take settings r first arg).1.takeAll settings r false more).1 := rfl

/-- What one argument does to a draft, and what can be put together, is done by all arguments of a
statement. -/
theorem takeAll_run {R : List Expr → Draft → Draft × List α → Prop} (nil : ∀ d, R [] d (d, []))
    (cons : ∀ {arg more d e f taken others}, R [arg] d (e, taken) → R more e (f, others) →
      R (arg :: more) d (f, taken ++ others))
    (step : ∀ d first, ∀ arg ∈ args, R [arg] d (d.take settings r first arg)) :
    R args d (d.takeAll settings r first args) := by
  induction args generalizing d first with
  | nil => exact nil d
  | cons arg more ih =>
    refine cons (step d first arg (.head _)) (ih fun d first other hother => ?_)
    exact step d first other (.tail _ hother)

/-- What all arguments leave alone is left alone by the statement. -/
theorem takeAll_keeps {β : Type} (observe : Draft → β)
    (step : ∀ d first, ∀ arg ∈ args, observe (d.take settings r first arg).1 = observe d) :
    observe (d.takeAll settings r first args).1 = observe d :=
  takeAll_run (R := fun _ d e => observe e.1 = observe d) (fun _ => rfl)
    (fun hfirst hrest => hrest.trans hfirst) step

theorem free_of_takeAll (h : (d.takeAll settings r first args).1.Free c) : d.Free c := by
  refine takeAll_run (R := fun _ d e => e.1.Free c → d.Free c) (fun _ => id)
    (fun hfirst hrest h => hfirst (hrest h)) (fun d first arg _ h => ?_) h
  exact (free_take.1 h).1

end arguments

/-- What has been reported stays reported. -/
theorem free_of_keyword {pos : Position} {args : List Expr} {word : Keyword}
    (h : (d.keyword settings lookup pos args word).Free c) : d.Free c := by
  cases word with
  | select => exact (free_select.1 h).1.1
  | cursor => exact (free_cursor.1 h).1.1
  | «from» =>
    cases args with
    | nil => exact ((free_from_nil lookup).1 h).1
    | cons first more => exact (free_from_cons.1 h).1.1
  | «where» => exact free_of_takeAll h
  | orderBy => exact free_of_takeAll h
  | fetchOptions => exact (free_fetchOptions.1 h).1

theorem ne_of_formal (hc : ¬ c.Formal) {x : Category} (hx : x.Formal) : x ≠ c := by
  rintro rfl
  exact hc hx

theorem free_takeAll {α : Type} {r : Restriction α} (hr : r.Lawful) (hc : ¬ c.Formal)
    (hres : c ≠ .resolution) (hsem : c ≠ .semantic) {first : Bool} {args : List Expr}
    (h : d.Free c) : (d.takeAll settings r first args).1.Free c := by
  refine takeAll_run (R := fun _ d e => d.Free c → e.1.Free c) (fun _ => id)
    (fun hfirst hrest h => hrest (hfirst h)) (fun d first arg _ h => ?_) h
  refine free_take.2 ⟨h, ?_⟩
  split
  · exact ne_of_formal hc (hr.formal ‹_›)
  · refine ⟨fun cause hcause => ?_, fun cause hcause => ?_⟩
    · rw [fieldCauses_category hcause]
      exact hres.symm
    · rw [hr.semantic hcause]
      exact hsem.symm

/-- Statements other than `where` and `orderBy` report on form and resolution only, and these two
report on semantics besides. -/
theorem free_keyword {pos : Position} {args : List Expr} {word : Keyword} (hc : ¬ c.Formal)
    (hres : c ≠ .resolution) (hsem : c = .semantic → word ≠ .where ∧ word ≠ .orderBy)
    (h : d.Free c) : (d.keyword settings lookup pos args word).Free c := by
  cases word with
  | select =>
    refine free_select.2 ⟨⟨h, fun x hx => ?_⟩, fun x hx => ?_⟩
    · exact ne_of_formal hc (formal_of_selectMode hx)
    · exact ne_of_formal hc (formal_of_refused hx)
  | cursor =>
    refine free_cursor.2 ⟨⟨h, fun x hx => ?_⟩, fun x hx => ?_⟩
    · exact ne_of_formal hc (formal_of_cursorMode hx)
    · exact ne_of_formal hc (formal_of_refused hx)
  | «from» =>
    have hshape : Category.shape ≠ c := ne_of_formal hc (.inl rfl)
    cases args with
    | nil => exact (free_from_nil lookup).2 ⟨h, hshape⟩
    | cons first more =>
      refine free_from_cons.2 ⟨⟨h, fun _ => hshape⟩, fun x hx => ?_⟩
      rcases List.mem_append.1 hx with hx | hx
      · rcases List.mem_append.1 hx with hx | hx
        · exact ne_of_formal hc (Target.formal_of_read hx)
        · rw [resolve_category hx]
          exact hres.symm
      · exact ne_of_formal hc (formal_of_completeOrigin hx)
  | «where» =>
    exact free_takeAll (Restriction.lawful_filtering _) hc hres (fun hs => (hsem hs).1 rfl) h
  | orderBy =>
    exact free_takeAll (Restriction.lawful_sorting _) hc hres (fun hs => (hsem hs).2 rfl) h
  | fetchOptions =>
    exact free_fetchOptions.2 ⟨h, fun x hx => ne_of_formal hc (formal_of_refused hx)⟩

/-- A statement is compiled as the keyword it calls, and without one it is at most reported. -/
theorem statement_cases (settings : Settings) (lookup : TypeLookup) (d : Draft) (s : Stmt) :
    (s.keywordCall? = none ∧ ∃ causes pos, d.statement settings lookup s = d.report causes pos ∧
      ∀ cause ∈ causes, cause.category = .vocabulary) ∨
    ∃ word args pos, s.keywordCall? = some (word, args) ∧
      d.statement settings lookup s = d.keyword settings lookup pos args word := by
  unfold statement
  split
  · split
    · rename_i pos name
      refine .inl ⟨rfl, ?_⟩
      split
      · exact ⟨[], pos, by simp [report], by simp⟩
      · exact ⟨_, pos, rfl, by simp [Cause.category]⟩
    · rename_i pos name args
      cases hword : Keyword.ofName? name with
      | some word => exact .inr ⟨word, args, pos, by simp [Stmt.keywordCall?, hword], rfl⟩
      | none =>
        exact .inl ⟨by simp [Stmt.keywordCall?, hword], _, pos, rfl, by simp [Cause.category]⟩
    · rename_i hvar hcall
      refine .inl ⟨?_, _, _, rfl, by simp [Cause.category]⟩
      unfold Stmt.keywordCall?
      split
      · simp_all
      · rfl
  · rename_i heval
    refine .inl ⟨?_, _, _, rfl, by simp [Cause.category]⟩
    unfold Stmt.keywordCall?
    split
    · simp_all
    · rfl

theorem free_of_statement {s : Stmt} (h : (d.statement settings lookup s).Free c) : d.Free c := by
  rcases statement_cases settings lookup d s with
    ⟨-, causes, pos, hs, -⟩ | ⟨word, args, pos, -, hs⟩
  · rw [hs, free_report] at h
    exact h.1
  · rw [hs] at h
    exact free_of_keyword h

theorem free_internal_statement {s : Stmt} (h : d.Free .internal) :
    (d.statement settings lookup s).Free .internal := by
  rcases statement_cases settings lookup d s with
    ⟨-, causes, pos, hs, hcauses⟩ | ⟨word, args, pos, -, hs⟩
  · rw [hs, free_report]
    exact ⟨h, fun cause hcause => by simp [hcauses cause hcause]⟩
  · rw [hs]
    exact free_keyword (by simp [Category.Formal]) (by simp) (by simp) h

theorem free_internal_foldl {statements : List Stmt} (h : d.Free .internal) :
    (statements.foldl (statement settings lookup) d).Free .internal := by
  induction statements generalizing d with
  | nil => exact h
  | cons s more ih => exact ih (free_internal_statement h)

end Draft

/-- Compiling a block never fails inside. -/
theorem compile_category_ne_internal {settings : Settings} {lookup : TypeLookup}
    {statements : List Stmt} {x : Diagnostic} (h : x ∈ (compile settings lookup statements).2) :
    x.category ≠ .internal :=
  Draft.free_internal_foldl Draft.free_empty x h

end QueryBlocks
