import QueryBlocks.Proofs.Query.Written
import QueryBlocks.Proofs.Script.Declared
import QueryBlocks.Proofs.Script.Parsed

/-! What is written in a query block that was read: fields are names, and the values are trees of
the grammar. Only a value in parentheses can be spread. -/
namespace QueryBlocks

open QueryBlocks.Token

namespace Written

/-- What the grammar says of a clause, if `typeOk` holds of the types that are declared in it. -/
structure Clause.Given (typeOk : String → Prop) (c : Clause) : Prop where
  types : ∀ type ∈ c.typeName?, IsQualified type
  stored : ∀ e ∈ c.stored, e.ValidArg typeOk
  filters : ∀ f ∈ c.filters, f.value.Valid typeOk
  fields : ∀ field ∈ c.fields, isName field = true

/-- A clause whose values can be written as they are. -/
structure Clause.Valid (c : Clause) : Prop where
  types : ∀ type ∈ c.typeName?, IsQualified type ∧ isReserved (firstSegment type) = false
  values : ∀ e ∈ c.values, e.Valid Declarable
  fields : ∀ field ∈ c.fields, isName field = true

theorem Clause.Given.declarable {c : Clause} (h : c.Given IsType)
    (helse : ∀ e ∈ c.values, ∀ type ∈ e.declaredTypes, firstSegment type ≠ "else") :
    c.Given Declarable where
  types := h.types
  stored e he := by
    have harg := h.stored e he
    have htypes := helse e (List.mem_append_left _ he)
    cases e with
    | spread _ e => exact Expr.Valid.and (e := e) harg htypes
    | _ => exact Expr.Valid.and harg htypes
  filters f hf :=
    (h.filters f hf).and (helse f.value (List.mem_append_right _ (List.mem_map_of_mem hf)))
  fields := h.fields

theorem Clause.Given.valid {c : Clause} (h : c.Given IsType)
    (hspread : ∀ e ∈ c.stored, e.isSpread = false)
    (htype : ∀ type ∈ c.typeName?, isReserved (firstSegment type) = false)
    (helse : ∀ e ∈ c.values, ∀ type ∈ e.declaredTypes, firstSegment type ≠ "else") : c.Valid where
  types type ht := ⟨h.types type ht, htype type ht⟩
  values e he := by
    rcases List.mem_append.mp he with hstored | hfilter
    · have harg := (h.declarable helse).stored e hstored
      have hplain := hspread e hstored
      cases e with
      | spread => cases hplain
      | _ => exact harg
    · obtain ⟨f, hf, rfl⟩ := List.mem_map.mp hfilter
      exact (h.declarable helse).filters f hf
  fields := h.fields

variable {typeOk : String → Prop} {arg : Expr} {args : List Expr}

theorem Setting.validArg_of {allowed : List FetchParam} {v : Setting} (harg : arg.ValidArg typeOk)
    (h : Setting.of? allowed arg = some v) : v.value.ValidArg typeOk := by
  unfold Setting.of? at h
  split at h
  · obtain ⟨param, -, rfl⟩ := Option.map_eq_some_iff.mp h
    exact Expr.validAll_iff.mp harg.2 _ List.mem_cons_self
  · obtain ⟨param, -, rfl⟩ := Option.map_eq_some_iff.mp h
    exact .of_valid harg.2
  · cases h

theorem validArg_of_ancestor {value : Expr} (harg : arg.ValidArg typeOk)
    (h : ancestor? arg = some value) : value.ValidArg typeOk := by
  unfold ancestor? at h
  split at h
  · split at h <;> cases h
    exact Expr.validAll_iff.mp harg.2 _ List.mem_cons_self
  · split at h <;> cases h
    exact .of_valid harg.2
  · cases h

theorem Filter.valid_of {f : Filter} (harg : arg.ValidArg typeOk) (h : Filter.of? arg = some f) :
    isName f.field = true ∧ f.value.Valid typeOk := by
  unfold Filter.of? at h
  split at h
  · obtain ⟨op, -, rfl⟩ := Option.map_eq_some_iff.mp h
    exact harg
  · cases h

theorem isName_of_sortKey {key : SortKey} (harg : arg.ValidArg typeOk)
    (h : (SortKey.read arg).toOption = some key) : isName key.field = true := by
  cases arg with
  | var _ field =>
    cases h
    exact harg
  | cast _ value marker =>
    cases value with
    | var _ field =>
      simp only [SortKey.read, Expr.name?] at h
      cases hdirection : Direction.ofMarker? marker with
      | none => simp [hdirection, Except.toOption] at h
      | some direction =>
        rw [hdirection] at h
        cases h
        exact harg.1
    | _ => cases h
  | _ => cases h

/-! ### Clauses -/

theorem Clause.Given.of_settings {c : Clause} (horigin : c.origin? = none)
    (hfilters : c.filters = []) (hfields : c.fields = [])
    (h : ∀ v ∈ c.settings, v.value.ValidArg typeOk) : c.Given typeOk where
  types type ht := by simp [Clause.typeName?, horigin] at ht
  stored e he := by
    simp only [Clause.stored, horigin, Option.bind_none, Option.toList_none, List.append_nil,
      List.mem_map] at he
    obtain ⟨v, hv, rfl⟩ := he
    exact h v hv
  filters f hf := by simp [hfilters] at hf
  fields field hf := by simp [hfields] at hf

theorem Clause.Given.of_origin {o : Origin} (htype : ∀ type ∈ o.typeName, IsQualified type)
    (hancestor : ∀ e ∈ o.ancestor, e.ValidArg typeOk) : (Clause.from o).Given typeOk where
  types type ht := htype type ht
  stored e he := hancestor e (by simpa [Clause.stored, Clause.settings, Clause.origin?] using he)
  filters f hf := (nomatch hf)
  fields field hf := (nomatch hf)

theorem mem_of_cursorMode (h : arg ∈ (Draft.cursorMode args).2.2) : arg ∈ args := by
  unfold Draft.cursorMode at h
  split at h
  · refine List.mem_cons_of_mem _ ?_
    split at h
    · exact h
    · split at h <;> exact h
  · exact h

theorem validArg_of_settings {allowed : List FetchParam}
    (hargs : ∀ arg ∈ args, arg.ValidArg typeOk) :
    ∀ v ∈ args.filterMap (Setting.of? allowed), v.value.ValidArg typeOk := by
  intro v hv
  obtain ⟨arg, harg, hof⟩ := List.mem_filterMap.mp hv
  exact Setting.validArg_of (hargs arg harg) hof

theorem given_from {first : Expr} {more : List Expr} (hfirst : first.ValidArg typeOk)
    (hmore : ∀ arg ∈ more, arg.ValidArg typeOk) : (Clause.from (.of first more)).Given typeOk := by
  have hhead : ∀ e ∈ more.head?.bind ancestor?, e.ValidArg typeOk := by
    intro e he
    obtain ⟨arg, harg, hvalue⟩ := Option.bind_eq_some_iff.mp he
    exact validArg_of_ancestor (hmore arg (List.mem_of_mem_head? harg)) hvalue
  have hnone : (Clause.from .empty).Given typeOk :=
    .of_origin (fun _ h => (nomatch h)) fun _ h => (nomatch h)
  unfold Origin.of
  split
  · rename_i value hvalue
    refine .of_origin (fun _ h => (nomatch h)) fun e he => ?_
    cases he
    exact validArg_of_ancestor hfirst hvalue
  · exact .of_origin (fun _ h => (nomatch h)) hhead
  · split
    · refine .of_origin (fun type ht => ?_) hhead
      cases ht
      exact hfirst.2
    · exact hnone
  · exact hnone

theorem given_ofCall {word : Keyword} {c : Clause} (hargs : ∀ arg ∈ args, arg.ValidArg typeOk)
    (h : Clause.ofCall word args = some c) : c.Given typeOk := by
  cases word with
  | select =>
    cases h
    exact .of_settings rfl rfl rfl
      (validArg_of_settings fun arg ha => hargs arg (List.mem_of_mem_tail ha))
  | cursor =>
    cases h
    exact .of_settings rfl rfl rfl
      (validArg_of_settings fun arg ha => hargs arg (mem_of_cursorMode ha))
  | «from» =>
    cases args with
    | nil => cases h
    | cons first more =>
      cases h
      rw [List.forall_mem_cons] at hargs
      exact given_from hargs.1 hargs.2
  | «where» =>
    cases h
    have hfilter : ∀ f ∈ args.filterMap Filter.of?,
        isName f.field = true ∧ f.value.Valid typeOk := by
      intro f hf
      obtain ⟨arg, harg, hof⟩ := List.mem_filterMap.mp hf
      exact Filter.valid_of (hargs arg harg) hof
    refine ⟨fun _ h => (nomatch h), fun _ h => (nomatch h), fun f hf => (hfilter f hf).2, ?_⟩
    exact List.forall_mem_map.mpr fun f hf => (hfilter f hf).1
  | orderBy =>
    cases h
    refine ⟨fun _ h => (nomatch h), fun _ h => (nomatch h), fun _ h => (nomatch h), ?_⟩
    rw [Clause.fields, List.forall_mem_map, accepted_map]
    intro key hkey
    obtain ⟨arg, harg, hread⟩ := List.mem_filterMap.mp hkey
    exact isName_of_sortKey (hargs arg harg) hread
  | fetchOptions =>
    cases h
    exact .of_settings rfl rfl rfl (validArg_of_settings hargs)

theorem given_of {s : Stmt} {c : Clause} (hs : s.Valid typeOk) (h : Clause.of? s = some c) :
    c.Given typeOk := by
  obtain ⟨⟨word, args⟩, hcall, hclause⟩ := Option.bind_eq_some_iff.mp h
  have hargs : Expr.ValidAll typeOk args := by
    unfold Stmt.keywordCall? at hcall
    split at hcall
    · obtain ⟨_, -, heq⟩ := Option.map_eq_some_iff.mp hcall
      cases heq
      exact hs.2
    · cases hcall
  exact given_ofCall (Expr.validAll_iff.mp hargs) hclause

theorem given_of_valid {b : Block} (hb : b.Valid typeOk) : ∀ c ∈ clauses b, c.Given typeOk := by
  obtain ⟨_, statements⟩ := b
  intro c hc
  obtain ⟨s, hs, hof⟩ := List.mem_filterMap.mp hc
  exact given_of (Stmt.validAll_iff.mp hb s hs) hof

/-- The clauses that are written in a block that was read. -/
theorem given_of_parsed {b : Block} (hb : b.Parsed) : ∀ c ∈ clauses b, c.Given IsType :=
  given_of_valid hb.valid

end Written

end QueryBlocks
