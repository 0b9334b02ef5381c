import QueryBlocks.Proofs.Query.Order
import QueryBlocks.Proofs.Query.Summary
import QueryBlocks.Proofs.Query.Written

/-!
The two readings of `from`. Statements are a query if a search finds a usable `from` in them, and
the compiler reads the arguments of every `from` on its own. A block that is compiled without
problems is a query from its first `from` on, and what the search has found out about the type of a
query is what the compiled query has.
-/
namespace QueryBlocks

/-! ### Blocks without problems of form -/

/-- Arguments that the search passes over name nothing to the compiler either. -/
theorem target_eq_none_of_unusable {first : Expr} {more : List Expr}
    (hmore : more.length ≤ 1) (h : usableFrom (first :: more) = none) :
    (Target.read first).1 = none := by
  have hfirst : usableFrom [first] = none := by
    match more with
    | [] => exact h
    | [_] => exact h
  cases first with
  | var | lit | member | construct | not | negate | list | spread | closure =>
    simp_all [usableFrom, Target.read, AncestorArg.read]
  | call pos receiver name args =>
    cases receiver with
    | none => simp [usableFrom] at hfirst
    | some receiver => rfl
  | binary pos left op right =>
    cases op with
    | assign => simp [usableFrom] at hfirst
    | _ => rfl
  | cast pos marker type =>
    simp only [usableFrom, Target.read, AncestorArg.read] at hfirst ⊢
    cases hname : marker.name? with
    | none => rfl
    | some word =>
      cases hmarker : Representation.ofMarker? word with
      | none => simp only [hmarker]
      | some representation => simp [hname, hmarker] at hfirst

namespace Draft

variable {settings : Settings} {lookup : TypeLookup} {d : Draft}

theorem usable_of_free_from {pos : Position} {args : List Expr}
    (h : (d.from lookup pos args).Free .shape) : ∃ typed, usableFrom args = some typed := by
  rw [← Option.isSome_iff_exists, ← Option.ne_none_iff_isSome]
  intro hnone
  cases args with
  | nil => exact ((free_from_nil lookup).1 h).2 rfl
  | cons first more =>
    obtain ⟨⟨-, harity⟩, hproblems⟩ := free_from_cons.1 h
    have hmore : more.length ≤ 1 := by
      by_contra hlong
      exact harity (by omega) rfl
    rw [target_eq_none_of_unusable hmore hnone] at hproblems
    refine hproblems ⟨.fromUnsupported, pos⟩ ?_ rfl
    simp [completeOrigin, Origin.empty]

theorem isBareKeyword_of_free {s : Stmt} (h : (d.statement settings lookup s).Free .vocabulary)
    (hcall : s.keywordCall? = none) : s.isBareKeyword = true := by
  unfold statement at h
  split at h
  · split at h
    · split at h
      · assumption
      · simp [Cause.category] at h
    · split at h
      · simp_all [Stmt.keywordCall?]
      · simp [Cause.category] at h
    · simp [Cause.category] at h
  · simp [Cause.category] at h

theorem classifyFrom_cons_of_ne {s : Stmt} {more : List Stmt} {index : Nat}
    (hs : s.keyword? ≠ some .from) (hbare : s.keywordCall? = none → s.isBareKeyword = true) :
    classifyFrom index (s :: more) = classifyFrom (index + 1) more := by
  rw [classifyFrom]
  cases hcall : s.keywordCall? with
  | none => simp [hbare hcall]
  | some call =>
    obtain ⟨word, args⟩ := call
    cases word with
    | «from» => exact absurd (keyword?_of_call hcall) hs
    | _ => rfl

/-- The search for a usable `from` goes through statements without problems of form and ends at the
first `from`. -/
theorem classifyFrom_of_wellFormed {statements : List Stmt} (index : Nat)
    (hform : (statements.foldl (statement settings lookup) d).WellFormed)
    (hfrom : ∃ s ∈ statements, s.keyword? = some .from) :
    ∃ typed, classifyFrom index statements =
      some ⟨index + statements.findIdx (·.keyword? = some .from), typed⟩ := by
  induction statements generalizing d index with
  | nil => simp at hfrom
  | cons s more ih =>
    have hshape : (d.statement settings lookup s).Free .shape := free_of_foldl hform.1
    have hword : (d.statement settings lookup s).Free .vocabulary := free_of_foldl hform.2
    by_cases hs : s.keyword? = some .from
    · rcases statement_cases settings lookup d s with
        ⟨hcall, -⟩ | ⟨word, args, pos, hcall, hstep⟩
      · simp [Stmt.keyword?, hcall] at hs
      · obtain rfl : word = .from := by simpa [keyword?_of_call hcall] using hs
        rw [hstep] at hshape
        obtain ⟨typed, htyped⟩ := usable_of_free_from hshape
        exact ⟨typed, by simp [classifyFrom, hcall, htyped, List.findIdx_cons, hs]⟩
    · have hlater : ∃ t ∈ more, t.keyword? = some .from := by
        simpa [hs] using hfrom
      obtain ⟨typed, htyped⟩ := ih (index + 1) hform hlater
      have hindex : (s :: more).findIdx (·.keyword? = some .from) =
          more.findIdx (·.keyword? = some .from) + 1 := by simp [List.findIdx_cons, hs]
      refine ⟨typed, ?_⟩
      rw [classifyFrom_cons_of_ne hs (isBareKeyword_of_free hword), htyped, hindex,
        Nat.add_right_comm, Nat.add_assoc]

end Draft

/-! ### The type of a query -/

/-- The type that an origin has, if it has one, as the search for it says. -/
def Origin.HasType (o : Origin) : Option TypedFrom → Prop
  | some t => o.typeName = some t.typeName ∧ o.kind = some t.kind ∧
      o.representation = some t.representation
  | none => o.typeName = none ∧ o.representation = none

instance (o : Origin) : (typed : Option TypedFrom) → Decidable (o.HasType typed)
  | some _ => inferInstanceAs (Decidable (_ ∧ _ ∧ _))
  | none => inferInstanceAs (Decidable (_ ∧ _))

/-- Usable arguments name the type that the search reads in them. -/
theorem hasType_of_usable {first : Expr} {more : List Expr} {typed : Option TypedFrom}
    (h : usableFrom (first :: more) = some typed) :
    (Written.Origin.of first more).text.HasType typed := by
  have hfirst : usableFrom [first] = some typed := by
    match more with
    | [] => exact h
    | [_] => exact h
    | _ :: _ :: _ => cases h
  cases first with
  | lit | member | construct | not | negate | list | spread | closure => cases hfirst
  | var =>
    cases hfirst
    exact ⟨rfl, rfl⟩
  | call pos receiver name args =>
    cases receiver with
    | none =>
      cases hfirst
      unfold Written.Origin.of
      cases Written.ancestor? (.call pos none name args) <;> exact ⟨rfl, rfl⟩
    | some receiver => cases hfirst
  | binary pos left op right =>
    cases op with
    | assign =>
      cases hfirst
      unfold Written.Origin.of
      cases Written.ancestor? (.binary pos left .assign right) <;> exact ⟨rfl, rfl⟩
    | _ => cases hfirst
  | cast pos marker type =>
    cases marker with
    | var place word =>
      cases hmarker : Representation.ofMarker? word with
      | none => simp [usableFrom, Expr.name?, hmarker] at hfirst
      | some representation =>
        obtain rfl : some ⟨type, Token.simpleName type, representation⟩ = typed := by
          simpa [usableFrom, Expr.name?, hmarker] using hfirst
        simp [Written.Origin.of, Written.ancestor?, hmarker, Written.Origin.text, Origin.HasType]
    | _ => cases hfirst

theorem exists_usable_of_classify {statements : List Stmt} {c : Classification}
    (h : classify statements = some c) :
    ∃ s ∈ statements, ∃ args, s.keywordCall? = some (.from, args) ∧
      usableFrom args = some c.typed := by
  unfold classify at h
  generalize 0 = index at h
  fun_induction classifyFrom index statements with
  | case1 => cases h
  | case2 index s more args hcall typed htyped =>
    cases h
    exact ⟨s, .head _, args, hcall, htyped⟩
  | case3 index s more _ _ _ ih | case4 index s more _ _ _ ih | case5 index s more _ _ ih =>
    obtain ⟨t, ht, hfrom⟩ := ih h
    exact ⟨t, .tail _ ht, hfrom⟩
  | case6 => cases h

theorem origin?_eq_none_of_ne {s : Stmt} (h : s.keyword? ≠ some .from) :
    ((Written.Clause.of? s).bind fun c => c.text.origin?) = none := by
  cases hcall : s.keywordCall? with
  | none => simp [Written.Clause.of?, hcall]
  | some call =>
    obtain ⟨word, args⟩ := call
    rw [Written.Clause.of?, hcall, Option.bind_some]
    cases word with
    | «from» => exact absurd (Draft.keyword?_of_call hcall) h
    | _ => rfl

/-- The origin of a compiled query is the one that its last `from` names. -/
theorem compile_origin (settings : Settings) (lookup : TypeLookup) (statements : List Stmt) :
    (compile settings lookup statements).1.origin =
      ((statements.filter (·.keyword? = some .from)).filterMap fun s =>
        (Written.Clause.of? s).bind fun c => c.text.origin?).getLast?.getD .empty := by
  have hsummary : (compile settings lookup statements).1.Summarized :=
    compile_keeps Query.summarized_empty (fun _ _ h => h.add) statements
  rw [hsummary.origin, compile_clauses, List.filterMap_map, List.filterMap_filterMap,
    List.filterMap_filter]
  congr 3
  funext s
  split
  · rfl
  · rename_i hs
    exact origin?_eq_none_of_ne (by simpa using hs)

/-- If a block is compiled without problems, it is a query from its first `from` on, if it has one.
If a query has only one `from`, the type of the compiled query is the one that it is known by. -/
theorem classify_agrees_with_compile (settings : Settings) (lookup : TypeLookup)
    (statements : List Stmt) :
    ((compile settings lookup statements).2 = [] →
      (∃ s ∈ statements, s.keyword? = some .from) →
      ∃ c, classify statements = some c ∧
        c.fromIndex = statements.findIdx (·.keyword? = some .from)) ∧
    ∀ c, classify statements = some c →
      (statements.filter (·.keyword? = some .from)).length = 1 →
      (compile settings lookup statements).1.origin.HasType c.typed := by
  constructor
  · intro hnone hfrom
    have hfree := Draft.diagnostics_eq_nil_iff.1 hnone
    obtain ⟨typed, htyped⟩ :=
      Draft.classifyFrom_of_wellFormed 0 ⟨hfree .shape, hfree .vocabulary⟩ hfrom
    exact ⟨_, htyped, Nat.zero_add _⟩
  · intro c hc hone
    obtain ⟨s, hs, args, hcall, husable⟩ := exists_usable_of_classify hc
    have honly : statements.filter (·.keyword? = some .from) = [s] := by
      obtain ⟨t, ht⟩ := List.length_eq_one_iff.1 hone
      have hmem : s ∈ statements.filter (·.keyword? = some .from) :=
        List.mem_filter.2 ⟨hs, by simp [Draft.keyword?_of_call hcall]⟩
      rw [ht, List.mem_singleton] at hmem
      rw [ht, hmem]
    rw [compile_origin, honly]
    cases args with
    | nil => cases husable
    | cons first more =>
      have horigin : (Written.Clause.of? s).bind (fun c => c.text.origin?) =
          some (Written.Origin.of first more).text := by
        rw [Written.Clause.of?, hcall]
        rfl
      simpa [horigin] using hasType_of_usable husable

/-- A typed `from` with an ancestor, in the middle of a block without problems. -/
theorem classify_agrees_with_compile_typed : ∃ block,
    Block.read "select all\nfrom pojo as com.acme.Person, childOf(k)\nwhere age > 3" = .ok block ∧
    (compile .standard .permissive block.statements).2 = [] ∧
    (∃ s ∈ block.statements, s.keyword? = some .from) ∧
    (∃ c, classify block.statements = some c ∧
      c.fromIndex = block.statements.findIdx (·.keyword? = some .from)) ∧
    (block.statements.filter (·.keyword? = some .from)).length = 1 ∧
    classify block.statements = some ⟨1, some ⟨"com.acme.Person", "Person", .pojo⟩⟩ ∧
    (compile .standard .permissive block.statements).1.origin.HasType
      (some ⟨"com.acme.Person", "Person", .pojo⟩) := by
  refine Block.exists_read (fun block (h :
    (compile .standard .permissive block.statements).2 = [] ∧
    (∃ s ∈ block.statements, s.keyword? = some .from) ∧
    (block.statements.filter (·.keyword? = some .from)).length = 1 ∧
    classify block.statements = some ⟨1, some ⟨"com.acme.Person", "Person", .pojo⟩⟩) => ?_)
    (by decide +kernel)
  obtain ⟨hnone, hfrom, hone, hclass⟩ := h
  have hagrees := classify_agrees_with_compile .standard .permissive block.statements
  exact ⟨hnone, hfrom, hagrees.1 hnone hfrom, hone, hclass, hagrees.2 _ hclass hone⟩

end QueryBlocks
