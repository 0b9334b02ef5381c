import QueryBlocks.Proofs.Script.Command
import QueryBlocks.Proofs.Script.Newline

/-!
Which rule a text is meant for. Rules that are tried earlier may come to accept a text when more is
behind it. They do not take it away from a later rule: what both begin with is an operand that
nothing goes on with, so the later rule would have ended there.
-/
namespace QueryBlocks

open QueryBlocks.Parser QueryBlocks.Token QueryBlocks.Rules

variable {s t m r z : List Char} {w : String} {e : Expr} {k : Nat}

namespace Token

theorem name_eq_ok (h : name s = .ok w r) : s = w.toList ++ r ∧ isName w = true ∧ EndsWord r := by
  obtain ⟨hsplit, -, hends⟩ := identifier_eq_ok (verify_eq_ok.mp h).1
  exact ⟨hsplit, ensures_name s w r h, hends⟩

theorem gap1_eq_ok (h : gap1 s = .ok () t) :
    EndsWord s ∧ s.head? ≠ some '.' ∧ s.head? ≠ some '[' ∧ skip isGap s = t := by
  cases s with
  | nil => cases h
  | cons c s =>
    by_cases hc : c = ' ' ∨ c = '\t'
    · have hread : gap1 (c :: s) = .ok () (skip isGap s) := by
        rcases hc with rfl | rfl <;> rfl
      rw [hread] at h
      cases h
      rcases hc with rfl | rfl
      · exact ⟨endsWord_cons.mpr (by decide), by simp, by simp, skip_pos (by decide) (by decide)⟩
      · exact ⟨endsWord_cons.mpr (by decide), by simp, by simp, skip_pos (by decide) (by decide)⟩
    · rw [not_or] at hc
      exact absurd h (gap1_failed hc).ne_ok

theorem exactly_failed {k : String} {c d : Char} {more : List Char} (hk : k.toList = d :: more)
    (hc : c ≠ d) : (exactly k (c :: s)).Failed := by
  rcases exactly_cases k (c :: s) with ⟨after, hs, -⟩ | he
  · rw [hk] at hs
    exact absurd (List.cons.inj hs).1 hc
  · rw [he]
    trivial

end Token

/-- Behind a gap, nothing goes on with an operand of strength `k` or more. -/
structure Idle (k : Nat) (t : List Char) : Prop where
  call : ∀ c ∈ t.head?, c ≠ '(' ∧ c ≠ '\x7b'
  member : (skip isSpace t).head? ≠ some '.'
  cast : (keyword "as" t).Failed
  operator : ∀ j, k ≤ j → (opAt j t).Failed

namespace Idle

theorem follows (ht : Idle k (skip isGap m)) (hword : EndsWord m)
    (hindex : m.head? ≠ some '[') : Follows k m := by
  have hdot : m.head? ≠ some '.' := by
    intro hm
    obtain ⟨u, rfl⟩ := List.head?_eq_some_iff.mp hm
    have hmember := ht.member
    rw [skip_neg (by decide) (by decide), skip_neg (by decide) (by decide)] at hmember
    exact hmember rfl
  refine ⟨hword, ht.call, fun c s h => absurd (congrArg List.head? h) hdot, fun _ => hdot,
    fun _ => Follows.dot_failed ?_, fun _ => hindex, fun _ => Follows.castWord_failed ht.cast,
    fun j hj => Follows.operator_failed (ht.operator j hj)⟩
  rw [← skip_skip isSpace_of_isGap m]
  exact ht.member

theorem of_unclosed (ht : Unclosed t) : Idle k t := by
  have hskip := ht.skip_eq isSpace
  obtain ⟨rest, rfl, -⟩ := ht
  refine ⟨fun c hc => ?_, ?_, trivial, fun j => opAt_failed fun i hi _ => ?_⟩
  · cases hc
    decide
  · rw [hskip]
    simp
  · interval_cases i <;> trivial

theorem of_char {c : Char} (hc : isSpace c = false ∧ c ≠ '/')
    (hne : c ≠ '(' ∧ c ≠ '\x7b' ∧ c ≠ '.') (hcast : (keyword "as" (c :: s)).Failed)
    (hop : ∀ j < 9, k ≤ j → (opAt j (c :: s)).Failed) : Idle k (c :: s) := by
  refine ⟨fun d hd => ?_, ?_, hcast, fun j => opAt_failed hop⟩
  · cases hd
    exact ⟨hne.1, hne.2.1⟩
  · rw [skip_neg hc.1 hc.2]
    simpa using hne.2.2

theorem of_comma : Idle k (',' :: s) := by
  refine of_char (by decide) (by decide) trivial fun j hj _ => ?_
  interval_cases j <;> trivial

theorem of_arrow : Idle k ('-' :: '>' :: s) := by
  refine of_char (by decide) (by decide) trivial fun j hj _ => ?_
  interval_cases j <;> trivial

/-- The sign of an assignment ends the operand in front of it. -/
theorem of_assign (hs : s.head? ≠ some '=') : Idle 2 ('=' :: s) := by
  have hequal : (exactly "==" ('=' :: s)).Failed := by
    rcases exactly_cases "==" ('=' :: s) with ⟨rest, he, -⟩ | he
    · cases he
      exact absurd rfl hs
    · rw [he]
      trivial
  refine of_char (by decide) (by decide) trivial fun j hj hlo => ?_
  interval_cases j
  case «4» =>
    simp only [opAt, equalityOp, run_orElse, run_bind, Outcome.failed_or]
    exact ⟨hequal.andThen, trivial⟩
  all_goals trivial

end Idle

section arguments

variable {c : Char}

theorem startsArgument_eq_ok (h : startsArgument t = .ok () r) :
    r = t ∧ ∃ c s, t = c :: s ∧ isArgumentStart c = true ∧
      ∀ k ∈ wordOperators, (keyword k t).Failed := by
  rw [startsArgument, run_bind, Outcome.andThen_eq_ok] at h
  obtain ⟨_, mid, hnot, h⟩ := h
  obtain ⟨hwords, rfl⟩ := notNext_eq_ok hnot
  obtain ⟨⟨c, after, hc⟩, rfl⟩ := ahead_eq_ok h
  obtain ⟨c, s, rfl, hstart⟩ := needs_satisfy _ hc
  rw [run_orElse, run_orElse, Outcome.failed_or, Outcome.failed_or] at hwords
  refine ⟨rfl, c, s, rfl, hstart, ?_⟩
  simp only [wordOperators, List.forall_mem_cons, List.not_mem_nil, false_imp_iff, implies_true,
    and_true]
  exact hwords

theorem settled_startsArgument : Needs Settled startsArgument := by
  intro t _ r h
  obtain ⟨-, c, s, rfl, hc, -⟩ := startsArgument_eq_ok h
  refine settled_cons ?_
  rintro rfl
  exact absurd hc (by decide)

/-- Where an argument can begin, no operator stands. -/
theorem opAt_of_argument (hc : isArgumentStart c = true)
    (hwords : ∀ k ∈ wordOperators, (keyword k (c :: s)).Failed) {j : Nat} (hj : j < 9) :
    (opAt j (c :: s)).Failed := by
  have hne {d : Char} (hd : isArgumentStart d = false) : c ≠ d := ne_of_isArgumentStart hc hd
  have hword {k : String} {d : Char} {more : List Char} (hk : k.toList = d :: more)
      (hd : isArgumentStart d = false) : (exactly k (c :: s)).Failed := exactly_failed hk (hne hd)
  have hsign {d : Char} (hd : isArgumentStart d = false) : (char d (c :: s)).Failed :=
    char_failed (by simpa using hne hd)
  have hinstance := hwords "instanceof" (by decide)
  have hin := hwords "in" (by decide)
  interval_cases j
  · trivial
  · simp only [opAt, assignOp, run_orElse, run_bind, Outcome.failed_or]
    exact ⟨(hword rfl (by decide)).andThen, (hword rfl (by decide)).andThen,
      (hsign (by decide)).andThen⟩
  · simp only [opAt, orOp, run_bind]
    exact (hword rfl (by decide)).andThen
  · simp only [opAt, andOp, run_bind]
    exact (hword rfl (by decide)).andThen
  · simp only [opAt, equalityOp, run_orElse, run_bind, Outcome.failed_or]
    exact ⟨(hword rfl (by decide)).andThen, (hword rfl (by decide)).andThen⟩
  · simp only [opAt, relationOp, run_orElse, run_bind, Outcome.failed_or]
    exact ⟨(hword rfl (by decide)).andThen, (hword rfl (by decide)).andThen,
      (hsign (by decide)).andThen, (hsign (by decide)).andThen, hinstance.andThen, hin.andThen⟩
  · simp only [opAt, shiftOp, run_bind]
    exact (hword rfl (by decide)).andThen
  · simp only [opAt, sumOp, run_orElse, run_bind, Outcome.failed_or]
    exact ⟨(hsign (by decide)).andThen, (hsign (by decide)).andThen⟩
  · simp only [opAt, productOp, run_orElse, run_bind, Outcome.failed_or]
    exact ⟨(hsign (by decide)).andThen, (hsign (by decide)).andThen, (hsign (by decide)).andThen⟩

theorem Idle.of_argument (h : startsArgument t = .ok () r) : Idle k t := by
  obtain ⟨-, c, s, rfl, hc, hwords⟩ := startsArgument_eq_ok h
  have hne {d : Char} (hd : isArgumentStart d = false) : c ≠ d := ne_of_isArgumentStart hc hd
  refine .of_char ⟨?_, hne (by decide)⟩ ⟨hne (by decide), hne (by decide), hne (by decide)⟩
    (hwords "as" (by decide)) fun j hj _ => opAt_of_argument hc hwords hj
  simp [isSpace, isGap, hne (d := ' ') (by decide), hne (d := '\t') (by decide),
    hne (d := '\r') (by decide), hne (d := '\n') (by decide)]

theorem startsArgument_of_name (h : name t = .ok w r) : startsArgument t = .ok () t := by
  obtain ⟨rfl, hn, hends⟩ := name_eq_ok h
  have hid := isIdentifier_of_isName hn
  have hwords : ∀ k ∈ wordOperators, (keyword k (w.toList ++ r)).Failed := by
    intro k hk
    obtain ⟨hkid, hres, -⟩ := Barred.wordOperator_facts hk
    refine keyword_failed (all_isWordChar hkid) (all_isWordChar hid) hends ?_
    rintro rfl
    simp [isName, hres] at hn
  obtain ⟨c, more, hwl, hc, -⟩ := isIdentifier_iff.mp hid
  rw [hwl, List.cons_append] at hwords ⊢
  exact startsArgument_of_char (by simp [isArgumentStart, isWordChar_of_isWordStart hc]) hwords

theorem Idle.of_name (h : name t = .ok w r) : Idle k t := .of_argument (startsArgument_of_name h)

end arguments

/-! ### Expressions -/

theorem assignment_var (hs : name s = .ok w m) (hm : Follows 1 m) :
    bare.assignment s = .ok (.var ⟨0, 0⟩ w) m := by
  obtain ⟨rfl, hn, -⟩ := name_eq_ok hs
  have hbegins : Begins 10 w.toList := .of_identifier (isIdentifier_of_isName hn)
  exact ((Primary.var hn).fits.lower (by decide) (fun _ => hbegins.unsigned (Nat.le_refl 10))
    (Nat.le_refl 2) (by decide)).whole m hm

theorem unspaced_assignment : Needs Unspaced bare.assignment := by
  intro s e r h
  cases s with
  | nil => exact absurd (advances_assignment.length_le h) (Nat.not_succ_le_zero _)
  | cons c s =>
    have hc : isOpening c = true ∨ c = '\'' := by
      by_contra hne
      rw [not_or] at hne
      exact (assignment_failed (by simpa using hne.1) hne.2).ne_ok h
    rcases hc with hc | rfl
    · have hbegins : Begins 0 (c :: s) := ⟨c, s, rfl, hc, fun h => absurd h (by decide)⟩
      exact hbegins.unspaced
    · exact ⟨'\'', s, rfl, by decide, by decide⟩

/-! ### Types -/

theorem fits_segments (ht : Fits 11 t e) {more : List String}
    (hmore : ∀ word ∈ more, isIdentifier word = true) :
    ∃ e', Fits 11 (t ++ more.flatMap fun word => ".".toList ++ word.toList) e' := by
  induction more generalizing t e with
  | nil => exact ⟨e, by simpa using ht⟩
  | cons word more ih =>
    obtain ⟨e', he'⟩ := ih (ht.member (hmore word List.mem_cons_self)) fun w hw =>
      hmore w (List.mem_cons_of_mem word hw)
    refine ⟨e', ?_⟩
    rw [List.append_assoc] at he'
    exact he'

theorem StartsExpr.primary (hw : StartsExpr w) : ∃ e, Primary w.toList e := by
  rcases hw with hn | hw
  · exact ⟨_, .var hn⟩
  · simp only [List.mem_cons, List.not_mem_nil, or_false] at hw
    rcases hw with rfl | rfl | rfl
    · exact ⟨_, .bool true⟩
    · exact ⟨_, .bool false⟩
    · exact ⟨_, .null⟩

/-- No constructor is called without a gap behind `new`. -/
theorem assignment_new_dot : (bare.assignment ("new".toList ++ '.' :: s)).Failed := by
  have hends : EndsWord ('.' :: s) := endsWord_cons.mpr (by decide)
  have hconstruction : (bare.construction ("new".toList ++ '.' :: s)).Failed := by
    rw [construction, run_bind, here, Outcome.andThen_ok, run_bind, keyword_append hends,
      Outcome.andThen_ok, run_bind]
    exact (gap1_failed (by decide)).andThen
  have hprimary : (bare.primary ("new".toList ++ '.' :: s)).Failed := by
    rw [primary_word (by decide), (literal_failed (wordLiteral_failed (by decide) hends
      (by decide))).or, hconstruction.or, nameOrCall, run_bind, here, Outcome.andThen_ok, run_bind]
    exact (name_reserved (by decide) hends (by decide)).andThen
  exact assignment_of_primary_failed ⟨'n', _, rfl, by decide⟩ hprimary

/-- In front of a dot, a reserved word is no beginning of an expression, unless it is a literal. -/
theorem startsExpr_of_dot (hid : isIdentifier w = true)
    (h : bare.assignment (w.toList ++ '.' :: s) = .ok e r) : StartsExpr w := by
  by_contra hne
  rw [StartsExpr, not_or] at hne
  have hres : isReserved w = true := isReserved_of_not_isName hid hne.1
  have hfail : (bare.assignment (w.toList ++ '.' :: s)).Failed := by
    by_cases hnew : w = "new"
    · subst hnew
      exact assignment_new_dot
    · refine assignment_reserved hid hres ?_ (endsWord_cons.mpr (by decide))
      have hliteral := hne.2
      simp only [List.mem_cons, List.not_mem_nil, or_false, not_or] at hliteral ⊢
      exact ⟨hliteral.1, hliteral.2.1, hliteral.2.2, hnew⟩
  exact hfail.ne_ok h

theorem isName_of_isTypeName (hid : isIdentifier w = true) (hw : isTypeName w = true) :
    isName w = true := by
  rw [isName, hid, Bool.true_and, Bool.not_eq_true']
  by_contra hres
  have hmem : w ∈ reserved := by simpa [isReserved] using hres
  rw [not_isTypeName w (List.mem_append_left _ hmem)] at hw
  cases hw

/-- A type that is the beginning of an expression is a chain of members. -/
theorem fits_of_type {type : String} (htype : typeName s = .ok type m)
    (h : bare.assignment s = .ok e r) :
    s = type.toList ++ m ∧ Begins 10 type.toList ∧ ∃ e', Fits 11 type.toList e' := by
  obtain ⟨hread, hname⟩ := typeName_eq_ok htype
  obtain ⟨w, more, rfl, hid, hmore, rfl⟩ := qualifiedName_split hread
  have hstarts : StartsExpr w := by
    cases more with
    | nil =>
      have hsingle : ".".intercalate [w] = w := by simp
      rw [hsingle] at hname
      exact .inl (isName_of_isTypeName hid hname)
    | cons word more =>
      rw [toList_intercalate_cons, List.append_assoc] at h
      exact startsExpr_of_dot hid h
  obtain ⟨e₀, hprimary⟩ := hstarts.primary
  rw [toList_intercalate_cons]
  exact ⟨rfl, (Begins.of_identifier hid).append _, fits_segments hprimary.fits hmore⟩

/-- Nothing stands in the brackets of an array type, so they are no index. -/
theorem suffix_brackets : (bare.suffix e ('[' :: ']' :: s)).Failed := by
  have hdot : (dot ('[' :: ']' :: s)).Failed := by
    refine Follows.dot_failed ?_
    rw [skip_neg (by decide) (by decide)]
    simp
  have hspace : space (']' :: s) = .ok () (']' :: s) :=
    space_cons (by decide) (by decide)
  rw [suffix, run_bind, optional_failed hdot, Outcome.andThen_ok]
  simp only [Option.isSome_none, Bool.false_eq_true, if_false, run_bind, optional_ok run_char,
    Outcome.andThen_ok, Option.isSome_some, if_true, hspace, bare_expr]
  exact (assignment_failed (by decide) (by decide)).andThen

/-- If an expression begins with a declared type, it ends with it, where nothing goes on. -/
theorem rest_of_type {type : Option String} (htype : declaredType s = .ok type m)
    (hgap : gap1 m = .ok () t) (ht : Idle 1 t) (h : bare.assignment s = .ok e r) : r = m := by
  rw [declaredType, run_orElse, Outcome.or_eq_ok] at htype
  rcases htype with hdef | ⟨-, htype⟩
  · rw [run_bind, Outcome.andThen_eq_ok] at hdef
    obtain ⟨_, mid, hdef, -⟩ := hdef
    obtain ⟨rfl, hends⟩ := keyword_eq_ok hdef
    exact absurd h (assignment_reserved (by decide) (by decide) (by decide) hends).ne_ok
  · rw [run_bind, Outcome.andThen_eq_ok] at htype
    obtain ⟨base, mid, hbase, htype⟩ := htype
    rw [run_bind, Outcome.andThen_eq_ok] at htype
    obtain ⟨found, mid', hfound, htype⟩ := htype
    obtain ⟨rfl, hbegins, e', hfits⟩ := fits_of_type hbase h
    have hunsigned := hbegins.unsigned (Nat.le_refl 10)
    rcases optional_eq_ok hfound with ⟨_, rfl, hbrackets⟩ | ⟨rfl, rfl, -⟩
    · obtain rfl : mid = '[' :: ']' :: mid' := exactly_eq_ok.mp hbrackets
      have hfollows : Follows 12 ('[' :: ']' :: mid') :=
        .of_suffix (.inr rfl) fun h => absurd h (by decide)
      have hpost : (bare.postfixed (base.toList ++ '[' :: ']' :: mid')).Failed := by
        have hread := hfits _ hfollows
        rw [reader_postfixed (by decide), resume_postfixed (by decide)] at hread
        rw [hread]
        exact extend_failed suffix_brackets
      have hfail := assignment_of_signed_failed (signed_of_postfixed_failed
        ((hbegins.append _).unsigned (Nat.le_refl 10)) hpost)
      exact absurd h hfail.ne_ok
    · cases htype
      obtain ⟨hends, -, hindex, rfl⟩ := gap1_eq_ok hgap
      have hwhole := (hfits.lower (by decide) (fun _ => hunsigned) (Nat.le_refl 2)
        (by decide)).whole m (ht.follows hends hindex)
      rw [h] at hwhole
      cases hwhole
      rfl

/-! ### Initial values -/

theorem initMark_eq_ok (h : initMark m = .ok () z) :
    ∃ s, skip isGap m = '=' :: s ∧ s.head? ≠ some '=' ∧ z = skip isSpace s := by
  rw [initMark, run_bind, run_gap, Outcome.andThen_ok, run_bind, Outcome.andThen_eq_ok] at h
  obtain ⟨_, s, hsign, h⟩ := h
  rw [run_bind, Outcome.andThen_eq_ok] at h
  obtain ⟨_, mid, hnot, h⟩ := h
  obtain ⟨hfail, rfl⟩ := notNext_eq_ok hnot
  cases h
  refine ⟨mid, char_eq_ok hsign, fun hhead => ?_, rfl⟩
  obtain ⟨u, rfl⟩ := List.head?_eq_some_iff.mp hhead
  rw [run_char] at hfail
  exact hfail

/-- A name with an initial value that cannot be read is no assignment either. -/
theorem assignment_of_init (hname : name s = .ok w m) (hinit : initMark m = .ok () z)
    (hz : (bare.assignment z).Failed) : (bare.assignment s).Failed := by
  obtain ⟨rfl, hn, hends⟩ := name_eq_ok hname
  obtain ⟨u, hu, hsign, rfl⟩ := initMark_eq_ok hinit
  have hfollows : Follows 2 m := by
    refine Idle.follows ?_ hends fun hindex => ?_
    · rw [hu]
      exact .of_assign hsign
    · obtain ⟨v, rfl⟩ := List.head?_eq_some_iff.mp hindex
      rw [skip_neg (by decide) (by decide)] at hu
      cases hu
  have hbegins : Begins 10 w.toList := .of_identifier (isIdentifier_of_isName hn)
  have hlevels : bare.levels ladder (w.toList ++ m) = .ok (.var ⟨0, 0⟩ w) m :=
    ((Primary.var hn).fits.lower (by decide) (fun _ => hbegins.unsigned (Nat.le_refl 10))
      (Nat.le_refl 2) (by decide)).ok (by decide) hfollows
  have hop : (do gap; assignOp : Parser BinOp) m = .ok .assign u := by
    have hnot := notNext_failed (char_failed hsign)
    have hadd : (exactly "+=" ('=' :: u)).Failed := exactly_failed rfl (by decide)
    have hsub : (exactly "-=" ('=' :: u)).Failed := exactly_failed rfl (by decide)
    rw [run_bind, run_gap, hu, Outcome.andThen_ok, assignOp, run_orElse, run_orElse, run_bind,
      run_bind, run_bind, hadd.andThen.or, hsub.andThen.or, run_char, Outcome.andThen_ok, run_bind,
      hnot]
    rfl
  simp only [assignment, run_bind, hlevels, Outcome.andThen_ok, optional_ok hop, run_space]
  rw [bare_expr]
  exact hz.andThen

/-! ### Statements -/

theorem typeAhead_eq_ok {type : Option String} (h : typeAhead s = .ok type t) :
    ∃ m, declaredType s = .ok type m ∧ gap1 m = .ok () t := by
  rw [typeAhead, run_bind, Outcome.andThen_eq_ok] at h
  obtain ⟨found, m, htype, h⟩ := h
  rw [run_bind, Outcome.andThen_eq_ok] at h
  obtain ⟨_, t', hgap, h⟩ := h
  cases h
  exact ⟨m, htype, hgap⟩

theorem declaration_eq_ok {a : Stmt} (h : bare.declaration s = .ok a r) :
    ∃ type t w u init, typeAhead s = .ok type t ∧ name t = .ok w u ∧
      bare.initializer u = .ok init r ∧ a = .declare ⟨0, 0⟩ type w init := by
  rw [declaration, run_bind, here, Outcome.andThen_ok, run_bind, Outcome.andThen_eq_ok] at h
  obtain ⟨type, t, htype, h⟩ := h
  rw [run_bind, Outcome.andThen_eq_ok] at h
  obtain ⟨w, u, hname, h⟩ := h
  rw [run_bind, Outcome.andThen_eq_ok] at h
  obtain ⟨init, r', hinit, h⟩ := h
  cases h
  exact ⟨type, t, w, u, init, htype, hname, hinit, rfl⟩

theorem command_eq_ok {a : Stmt} (h : bare.command s = .ok a r) :
    ∃ w m t args, name s = .ok w m ∧ gap1 m = .ok () t ∧ startsArgument t = .ok () t ∧
      bare.bareArgs t = .ok args r := by
  rw [command, run_bind, here, Outcome.andThen_ok, run_bind, Outcome.andThen_eq_ok] at h
  obtain ⟨w, m, hname, h⟩ := h
  rw [run_bind, Outcome.andThen_eq_ok] at h
  obtain ⟨_, t, hgap, h⟩ := h
  rw [run_bind, Outcome.andThen_eq_ok] at h
  obtain ⟨_, t', hstart, h⟩ := h
  rw [run_bind, Outcome.andThen_eq_ok] at h
  obtain ⟨args, r', hargs, h⟩ := h
  cases h
  obtain ⟨rfl, -⟩ := startsArgument_eq_ok hstart
  exact ⟨w, m, t', args, hname, hgap, hstart, hargs⟩

theorem evaluation_eq_ok {a : Stmt} (h : bare.evaluation s = .ok a r) :
    ∃ e, bare.assignment s = .ok e r := by
  rw [evaluation, run_bind, here, Outcome.andThen_ok, run_bind, Outcome.andThen_eq_ok] at h
  obtain ⟨e, r', he, h⟩ := h
  cases h
  exact ⟨e, he⟩

/-- A name in front of a gap is the only type that can be read there. -/
theorem typeAhead_of_name {type : Option String} (hname : name s = .ok w m)
    (hdot : m.head? ≠ some '.') (hindex : m.head? ≠ some '[') (h : typeAhead s = .ok type t) :
    gap1 m = .ok () t := by
  obtain ⟨rfl, hn, hends⟩ := name_eq_ok hname
  have hid := isIdentifier_of_isName hn
  have hdef : (keyword "def" (w.toList ++ m)).Failed := by
    refine keyword_failed (by decide) (all_isWordChar hid) hends ?_
    rintro rfl
    exact absurd hn (by decide)
  have hbrackets : (exactly "[]" m).Failed := by
    cases m with
    | nil => trivial
    | cons c m => exact exactly_failed (d := '[') rfl (by simpa using hindex)
  have hread := qualifiedName_append (.of_identifier hid) hends hdot
  rcases typeAhead_of_qualified hdef hread hbrackets with hfail | heq
  · exact absurd h hfail.ne_ok
  · rw [h] at heq
    obtain ⟨_, u, hgap, hu⟩ := Outcome.andThen_eq_ok.mp heq.symm
    cases hu
    exact hgap

/-- If the word of a call could be a type, its first argument is what stands behind that type. -/
theorem argument_after_type {type : Option String} {a : Stmt} (htype : typeAhead s = .ok type t)
    (h : bare.command s = .ok a r) :
    startsArgument t = .ok () t ∧ ∃ e m, bare.assignment t = .ok e m := by
  obtain ⟨w, m, t', args, hname, hgap, hstart, hargs⟩ := command_eq_ok h
  obtain ⟨-, hdot, hindex, -⟩ := gap1_eq_ok hgap
  have hsame := typeAhead_of_name hname hdot hindex htype
  rw [hgap] at hsame
  cases hsame
  refine ⟨hstart, ?_⟩
  obtain ⟨-, c, u, rfl, hc, -⟩ := startsArgument_eq_ok hstart
  rw [bareArgs, sepBy1, run_bind, argument_of_isArgumentStart hc, Outcome.andThen_eq_ok] at hargs
  obtain ⟨first, mid, hfirst, -⟩ := hargs
  exact ⟨first, mid, hfirst⟩

/-! ### Reserved words -/

section reserved

variable (hid : isIdentifier w = true) (hres : isReserved w = true)

include hid hres

theorem command_reserved (hs : EndsWord s) : (bare.command (w.toList ++ s)).Failed := by
  rw [command, run_bind, here, Outcome.andThen_ok, run_bind]
  exact (name_reserved hid hs hres).andThen

theorem evaluation_reserved (hw : w ∉ ["true", "false", "null", "new"]) (hs : EndsWord s) :
    (bare.evaluation (w.toList ++ s)).Failed := by
  rw [evaluation, run_bind, here, Outcome.andThen_ok, run_bind]
  exact (assignment_reserved hid hres hw hs).andThen

/-- A reserved word can begin a type only as its first segment. -/
theorem typeAhead_reserved {type : Option String} (hdef : w ≠ "def") (hs : EndsWord s)
    (h : typeAhead (w.toList ++ s) = .ok type t) :
    (∃ found, type = some found ∧ firstSegment found = w) ∧ s.head? = some '.' := by
  obtain ⟨m, htype, -⟩ := typeAhead_eq_ok h
  cases type with
  | none =>
    have hfail : (keyword "def" (w.toList ++ s)).Failed :=
      keyword_failed (by decide) (all_isWordChar hid) hs hdef
    rw [declaredType, run_orElse, run_bind, hfail.andThen.or, run_bind,
      Outcome.andThen_eq_ok] at htype
    obtain ⟨base, mid, -, htype⟩ := htype
    rw [run_bind, Outcome.andThen_eq_ok] at htype
    obtain ⟨brackets, mid', -, htype⟩ := htype
    cases brackets <;> cases htype
  | some found =>
    obtain ⟨base, mid, hbase, -, hshape⟩ := declaredType_eq_ok htype
    obtain ⟨hqual, hname⟩ := typeName_eq_ok hbase
    obtain ⟨after, hword, hafter⟩ := qualifiedName_eq_ok hqual
    rw [identifier_append hid hs] at hword
    cases hword
    -- a reserved word alone is no name of a type
    have hne : firstSegment base ≠ base := by
      intro he
      rw [he] at hres
      rw [not_isTypeName base (List.mem_append_left _ (by simpa [isReserved] using hres))] at hname
      cases hname
    refine ⟨⟨found, rfl, ?_⟩, ?_⟩
    · rcases hshape with rfl | rfl
      · rfl
      · exact firstSegment_append hne "[]"
    · rcases hafter with hwhole | ⟨more, rfl⟩
      · exact absurd hwhole.symm hne
      · rfl

/-- A statement that begins with a reserved word which begins no other one is a declaration. -/
theorem statement_reserved {a : Stmt}
    (hw : w ∉ ["def", "if", "return", "true", "false", "null", "new"]) (hs : EndsWord s)
    (h : bare.statement (w.toList ++ s) = .ok a r) :
    ∃ type name init, a = .declare ⟨0, 0⟩ (some type) name init ∧ firstSegment type = w := by
  simp only [List.mem_cons, List.not_mem_nil, or_false, not_or] at hw
  have hconditional : (bare.conditional (w.toList ++ s)).Failed :=
    conditional_of_keyword (keyword_failed (by decide) (all_isWordChar hid) hs hw.2.1)
  have hreturn : (bare.returnStmt (w.toList ++ s)).Failed :=
    returnStmt_of_keyword (keyword_failed (by decide) (all_isWordChar hid) hs hw.2.2.1)
  have hevaluation := evaluation_reserved hid hres (by simp [hw]) hs
  rw [statement, run_orElse, run_orElse, run_orElse, run_orElse, hconditional.or, hreturn.or,
    (command_reserved hid hres hs).or, Outcome.or_eq_ok] at h
  rcases h with h | ⟨-, h⟩
  · obtain ⟨type, t, name, u, init, htype, -, -, rfl⟩ := declaration_eq_ok h
    obtain ⟨⟨found, rfl, hfirst⟩, -⟩ := typeAhead_reserved hid hres hw.1 hs htype
    exact ⟨found, name, init, rfl, hfirst⟩
  · exact absurd h hevaluation.ne_ok

end reserved

/-- Behind `if`, only a declaration of a dotted type is no condition. -/
theorem conditional_of_other {a : Stmt} (h : (bare.returnStmt <|> bare.declaration <|> bare.command
    <|> bare.evaluation) s = .ok a r) :
    (keyword "if" s).Failed ∨ ∃ more, s = "if".toList ++ '.' :: more := by
  rcases keyword_cases "if" s with ⟨after, rfl, hends, -⟩ | hfail
  · have hreturn : (bare.returnStmt ("if".toList ++ after)).Failed :=
      returnStmt_of_keyword (keyword_failed (by decide) (by decide) hends (by decide))
    have hcommand := command_reserved (w := "if") (by decide) (by decide) hends
    have hevaluation := evaluation_reserved (w := "if") (by decide) (by decide) (by decide) hends
    rw [run_orElse, run_orElse, run_orElse, hreturn.or, hcommand.or, Outcome.or_eq_ok] at h
    rcases h with h | ⟨-, h⟩
    · obtain ⟨type, t, _, _, _, htype, -⟩ := declaration_eq_ok h
      obtain ⟨-, hdot⟩ := typeAhead_reserved (by decide) (by decide) (by decide) hends htype
      obtain ⟨more, rfl⟩ := List.head?_eq_some_iff.mp hdot
      exact .inr ⟨more, rfl⟩
    · exact absurd h hevaluation.ne_ok
  · exact .inl hfail

/-- A text that is no return statement but another one does not begin with `return`. -/
theorem return_of_other {a : Stmt} (hfail : (bare.returnStmt s).Failed)
    (h : (bare.declaration <|> bare.command <|> bare.evaluation) s = .ok a r) :
    (keyword "return" s).Failed := by
  rcases keyword_cases "return" s with ⟨after, rfl, hends, -⟩ | hkeyword
  · have hcommand := command_reserved (w := "return") (by decide) (by decide) hends
    have hevaluation :=
      evaluation_reserved (w := "return") (by decide) (by decide) (by decide) hends
    rw [run_orElse, run_orElse, hcommand.or, Outcome.or_eq_ok] at h
    rcases h with h | ⟨-, h⟩
    · obtain ⟨type, t, _, _, _, htype, -⟩ := declaration_eq_ok h
      obtain ⟨⟨found, rfl, hfirst⟩, -⟩ :=
        typeAhead_reserved (by decide) (by decide) (by decide) hends htype
      exact absurd hfail (returnStmt_of_type bare htype hfirst)
    · exact absurd h hevaluation.ne_ok
  · exact hkeyword

/-! ### Lists of statements -/

theorem unspaced_typeAhead : Needs Unspaced typeAhead :=
  (((unspaced_keyword (by decide)).bind).orElse (unspaced_identifier.bind.verify.bind)).bind

theorem unspaced_statement : Needs Unspaced bare.statement := by
  have hconditional : Needs Unspaced bare.conditional :=
    needs_after_here fun _ => (unspaced_keyword (by decide)).bind
  have hreturn : Needs Unspaced bare.returnStmt :=
    needs_after_here fun _ => (unspaced_keyword (by decide)).bind
  have hdeclaration : Needs Unspaced bare.declaration :=
    needs_after_here fun _ => unspaced_typeAhead.bind
  have hcommand : Needs Unspaced bare.command :=
    needs_after_here fun _ => unspaced_identifier.verify.bind
  have hevaluation : Needs Unspaced bare.evaluation :=
    needs_after_here fun _ => unspaced_assignment.bind
  exact hconditional.orElse (hreturn.orElse (hdeclaration.orElse (hcommand.orElse hevaluation)))

theorem statementEnd_eq_ok (h : statementEnd m = .ok () t) :
    ended (skip isGap m) = true ∧ t = skip isGap m := by
  rw [statementEnd, run_bind, run_gap, Outcome.andThen_ok, run_bind, remaining,
    Outcome.andThen_ok] at h
  split at h
  · rename_i hended
    cases h
    exact ⟨hended, rfl⟩
  · cases h

theorem statementEnd_ok (h : ended (skip isGap m) = true) :
    statementEnd m = .ok () (skip isGap m) := by
  rw [statementEnd, run_bind, run_gap, Outcome.andThen_ok, run_bind, remaining,
    Outcome.andThen_ok, if_pos h]
  rfl

/-- A list of statements is over at once, or one of them comes before the others. -/
theorem statements_eq_ok {ss : List Stmt} (h : bare.statements s = .ok ss r) :
    closed (skip isBreak s) = true ∧ ss = [] ∧ r = skip isBreak s ∨
      closed (skip isBreak s) = false ∧ ∃ a m others, bare.statement (skip isBreak s) = .ok a m ∧
        ended (skip isGap m) = true ∧ bare.statements (skip isGap m) = .ok others r ∧
          ss = a :: others := by
  rw [statements, Rules.sequence, run_bind, run_breaks, Outcome.andThen_ok] at h
  rcases manyUntil_eq_ok h with ⟨hclosed, rfl, rfl⟩ | ⟨hopen, a, mid, others, ha, -, hothers, rfl⟩
  · exact .inl ⟨hclosed, rfl, rfl⟩
  · rw [run_bind, Outcome.andThen_eq_ok] at ha
    obtain ⟨a', m, ha', hrest⟩ := ha
    rw [run_bind, Outcome.andThen_eq_ok] at hrest
    obtain ⟨_, t, hend, hrest⟩ := hrest
    obtain ⟨hended, rfl⟩ := statementEnd_eq_ok hend
    cases hrest
    exact .inr ⟨hopen, a, m, others, ha', hended, hothers, rfl⟩

theorem settled_statements {ss : List Stmt} (h : bare.statements s = .ok ss r) (hr : r ≠ []) :
    Settled s := by
  refine settled_of_skip (g := isBreak) ?_
  rcases statements_eq_ok h with ⟨hclosed, -, rfl⟩ | ⟨-, a, m, _, ha, -⟩
  · cases hs : skip isBreak s with
    | nil => exact absurd hs hr
    | cons c t =>
      rw [hs, closed, beq_iff_eq] at hclosed
      subst hclosed
      exact settled_cons (by decide)
  · exact (unspaced_statement ha).settled

/-! ### Parameters of closures -/

theorem name_cases (s : List Char) : (∃ w u, name s = .ok w u) ∨ (name s).Failed := by
  cases s with
  | nil => exact .inr trivial
  | cons c s =>
    cases hc : isWordStart c with
    | false => exact .inr (name_failed hc)
    | true =>
      have hread : identifier (c :: s) =
          .ok (String.ofList (c :: s.takeWhile isWordChar)) (s.dropWhile isWordChar) := by
        simp [identifier, satisfy, hc, wordRest]
      generalize String.ofList (c :: s.takeWhile isWordChar) = w at hread
      cases hres : isReserved w with
      | true => exact .inr (verify_refused hread (by simp [hres]))
      | false => exact .inl ⟨w, _, verify_ok hread (by simp [hres])⟩

/-- A name that neither an argument nor the rest of an expression follows is a statement. -/
theorem rest_of_name {a : Stmt} (hname : name s = .ok w m) (hm : Follows 1 m)
    (hstart : (startsArgument (skip isGap m)).Failed) (h : bare.statement s = .ok a r) : r = m := by
  obtain ⟨hs, hn, hends⟩ := name_eq_ok hname
  have hstop {t : List Char} (hgap : gap1 m = .ok () t) (ht : startsArgument t = .ok () t) :
      False := by
    obtain ⟨-, -, -, rfl⟩ := gap1_eq_ok hgap
    rw [ht] at hstart
    exact hstart
  have hconditional := conditional_of_name hn hends
  have hreturn := returnStmt_of_name hn hends
  rw [← hs] at hconditional hreturn
  rw [statement, run_orElse, run_orElse, run_orElse, run_orElse, hconditional.or, hreturn.or,
    Outcome.or_eq_ok, Outcome.or_eq_ok] at h
  rcases h with h | ⟨-, h | ⟨-, h⟩⟩
  · obtain ⟨type, t, w', u, _, htype, hname', -⟩ := declaration_eq_ok h
    have hgap := typeAhead_of_name hname (hm.segment (by decide)) (hm.index (by decide)) htype
    exact (hstop hgap (startsArgument_of_name hname')).elim
  · obtain ⟨w', m', t, _, hname', hgap, ht, -⟩ := command_eq_ok h
    rw [hname] at hname'
    cases hname'
    exact (hstop hgap ht).elim
  · obtain ⟨e, he⟩ := evaluation_eq_ok h
    rw [assignment_var hname hm] at he
    cases he
    rfl

/-- Without a word in front, a statement is an expression. -/
theorem statement_symbol {c : Char} (hc : isWordChar c = false)
    (h : (bare.assignment (c :: s)).Failed) : (bare.statement (c :: s)).Failed := by
  have hstart : isWordStart c = false := by
    by_contra hword
    rw [isWordChar_of_isWordStart (by simpa using hword)] at hc
    cases hc
  have hkeyword {k : String} {d : Char} {more : List Char} (hk : k.toList = d :: more)
      (hd : isWordChar d = true) : (keyword k (c :: s)).Failed := by
    refine keyword_symbol hk ?_
    rintro rfl
    rw [hd] at hc
    cases hc
  have htype : (typeName (c :: s)).Failed := verify_failed (Barred.qualifiedName_failed hstart)
  simp only [statement, run_orElse, Outcome.failed_or]
  refine ⟨conditional_of_keyword (hkeyword rfl (by decide)),
    returnStmt_of_keyword (hkeyword rfl (by decide)), ?_, ?_, ?_⟩
  · rw [declaration, run_bind, here, Outcome.andThen_ok, run_bind, typeAhead, run_bind,
      declaredType, run_orElse, run_bind, run_bind, (hkeyword rfl (by decide)).andThen.or]
    exact htype.andThen.andThen.andThen
  · rw [command, run_bind, here, Outcome.andThen_ok, run_bind]
    exact (name_failed hstart).andThen
  · rw [evaluation, run_bind, here, Outcome.andThen_ok, run_bind]
    exact h.andThen

/-- No statement begins with an arrow. -/
theorem statement_arrow : (bare.statement ('-' :: '>' :: s)).Failed := by
  refine statement_symbol (by decide) (assignment_of_signed_failed ?_)
  have hsigned : (bare.signed ('>' :: s)).Failed := by
    refine signed_of_postfixed_failed ⟨'>', s, rfl, by decide⟩ ?_
    rw [postfixed, run_bind]
    exact (primary_failed (by decide) (by decide)).andThen
  have hnot : optional (char '!') ('-' :: '>' :: s) = .ok none ('-' :: '>' :: s) :=
    optional_failed (char_failed (by simp))
  simp only [signed, here, run_bind, Outcome.andThen_ok, hnot, optional_ok run_char,
    Option.isSome_none, Option.isSome_some, Bool.false_eq_true, if_false, if_true]
  rw [bare_unary]
  exact hsigned.andThen

/-- Where statements are read, no parameters of a closure stand. -/
theorem closureParams_of_statements {ss : List Stmt} (h : bare.statements s = .ok ss r) :
    (closureParams s).Failed := by
  rcases name_cases s with ⟨w, u, hname⟩ | hfail
  · obtain ⟨hs, hn, hends⟩ := name_eq_ok hname
    have hid := isIdentifier_of_isName hn
    have hbegins : Begins 0 s := hs ▸ (Begins.of_identifier hid).append u
    -- a parameter alone would be a statement, but what follows it does not end one
    have hkey (hidle : Idle 1 (skip isGap u)) (hindex : (skip isGap u).head? ≠ some '[')
        (hstart : (startsArgument (skip isGap u)).Failed)
        (hended : ended (skip isGap u) = false) : False := by
      have hu : u.head? ≠ some '[' := by
        intro hu
        obtain ⟨v, rfl⟩ := List.head?_eq_some_iff.mp hu
        rw [skip_neg (by decide) (by decide)] at hindex
        exact hindex rfl
      have hskip : skip isBreak s = s := skip_unspaced (fun _ h => h) hbegins.unspaced
      rcases statements_eq_ok h with ⟨hclosed, -⟩ | ⟨-, a, m, _, ha, hend, -⟩
      · rw [hskip, hbegins.not_closed] at hclosed
        cases hclosed
      · rw [hskip] at ha
        obtain rfl := rest_of_name hname (hidle.follows hends hu) hstart ha
        rw [hended] at hend
        cases hend
    rw [hs]
    refine Lead.closureParams_of_word hid hends fun _ => ⟨fun hcomma => ?_, ?_⟩
    · obtain ⟨v, hv⟩ := List.head?_eq_some_iff.mp hcomma
      rw [hv] at hkey
      exact hkey .of_comma (by simp) trivial rfl
    · rcases exactly_cases "->" (skip isGap u) with ⟨v, hv, -⟩ | he
      · rw [hv] at hkey
        exact (hkey .of_arrow (by simp) trivial rfl).elim
      · rw [he]
        trivial
  · refine Lead.closureParams_of_unnamed hfail ?_
    rcases exactly_cases "->" (skip isGap s) with ⟨v, hv, -⟩ | he
    · have hskip : skip isBreak s = '-' :: '>' :: v := by
        rw [← skip_skip isBreak_of_isGap, hv]
        exact skip_neg (by decide) (by decide)
      rcases statements_eq_ok h with ⟨hclosed, -⟩ | ⟨-, a, m, _, ha, -⟩
      · rw [hskip] at hclosed
        cases hclosed
      · rw [hskip] at ha
        exact absurd ha statement_arrow.ne_ok
    · rw [he]
      trivial

end QueryBlocks
