import QueryBlocks.Proofs.Script.Unplaced
import QueryBlocks.Proofs.Site.Refill

/-!
What passes from the sites of a part to others: to the sites of the part that has been acted on,
which are the same with other bodies, and to those of the part without places.
-/
namespace QueryBlocks

variable {ω : Type} {settings : Settings} {act : SiteAction ω} {n : Part} {site : Site}
  {typeOk : String → Prop} {P Q : Site → Prop}

namespace Part

/-! ### Sites that have been acted on -/

theorem head_atSites (n : Part) : (n.atSites settings act).1.head = n.head := by
  by_cases hclosed : n.Closed settings
  · rcases hclosed with ⟨site, hsite⟩ | hskip
    · obtain ⟨place, closure, rfl, hacted⟩ := atSites_of_site act hsite
      rw [hacted]
      rfl
    · rw [atSites_of_skipped hskip]
  · exact (passed hclosed).head

theorem eq_var_of_head {p : Position} {name : String} (h : n.head = expr (.var p name)) :
    n = expr (.var p name) := by
  cases n <;> simp only [head, reduceCtorEq, expr.injEq] at h
  rename_i e
  cases e <;> simp_all [Expr.head]

theorem eq_closure_of_head {p : Position} {params : List String} {body : Block}
    (h : n.head = (expr (.closure p params body)).head) :
    ∃ body', n = expr (.closure p params body') := by
  cases n <;> simp only [head, reduceCtorEq, expr.injEq] at h
  rename_i e
  cases e <;> simp_all [Expr.head]

/-- A part becomes no site by acting on the sites in it. -/
theorem not_closed_atSites (h : ¬ n.Closed settings) :
    ¬ (n.atSites settings act).1.Closed settings := by
  have hpassed : Passed settings act n := passed h
  rintro (⟨site, ⟨place, closure, hcall⟩, hstore, hname⟩ | ⟨m, hm, hskip⟩)
  · have hhead := hpassed.head
    have hchildren := hpassed.children
    rw [hcall] at hhead hchildren
    -- its children have the heads of the receiver and the closure, so they are such themselves
    obtain ⟨receiver, more, hn, hreceiver, hmore⟩ := List.map_eq_cons_iff.1 hchildren.symm
    obtain ⟨argument, none, rfl, hargument, hnone⟩ := List.map_eq_cons_iff.1 hmore
    obtain rfl := List.map_eq_nil_iff.1 hnone
    obtain rfl := eq_var_of_head ((head_atSites receiver).symm.trans (congrArg head hreceiver))
    obtain ⟨body, rfl⟩ :=
      eq_closure_of_head ((head_atSites argument).symm.trans (congrArg head hargument))
    have hsite : n = expr (.call site.pos (some (.var place site.receiver)) site.method
        [.closure closure site.params body]) := ext_children hhead.symm hn
    exact h (.inl ⟨{ site with body }, ⟨place, closure, hsite⟩, hstore, hname⟩)
  · have hhead := hpassed.head
    rw [hm] at hhead
    cases n <;> simp only [head, reduceCtorEq, method.injEq, Method.mk.injEq] at hhead
    rename_i other
    refine h (.inr ⟨other, rfl, ?_⟩)
    rwa [← hhead.2.2.2.1]

theorem isSite_atSites (h : n.IsSite settings site) :
    (n.atSites settings act).1.IsSite settings { site with body := (act site).1 } := by
  obtain ⟨place, closure, rfl, hacted⟩ := atSites_of_site act h
  rw [hacted]
  exact ⟨⟨place, closure, rfl⟩, h.2⟩

theorem isSpread_atSites (e : Expr) : (e.atSites settings act).1.isSpread = e.isSpread := by
  have hhead : (e.atSites settings act).1.head = e.head := expr.inj (head_atSites (expr e))
  have hspread (e : Expr) : e.head.isSpread = e.isSpread := by cases e <;> rfl
  rw [← hspread, hhead, hspread]

theorem isNumber_atSites (e : Expr) : (e.atSites settings act).1.isNumber = e.isNumber := by
  have hhead : (e.atSites settings act).1.head = e.head := expr.inj (head_atSites (expr e))
  have hnumber (e : Expr) : e.head.isNumber = e.isNumber := by cases e <;> rfl
  rw [← hnumber, hhead, hnumber]

theorem proper_atSites (h : ¬ n.Closed settings) :
    (n.atSites settings act).1.Proper typeOk ↔ n.Proper typeOk := by
  cases n with
  | script s => rfl
  | classDecl c => rfl
  | field f =>
    obtain ⟨_, _, _, _, init⟩ := f
    cases init <;> simp [Proper, Field.atSites, isSpread_atSites]
  | method m =>
    have hkeep : m.name ∉ settings.skipMethods := fun hm => h (.inr ⟨m, rfl, hm⟩)
    simp [Method.atSites, hkeep, Proper]
  | block b => rfl
  | stmt s =>
    rcases s with _ | ⟨_, _, _, _ | _⟩ | ⟨_, _, _, _ | _⟩ | ⟨_, _ | _⟩ <;>
      simp [Stmt.atSites, Proper, isSpread_atSites]
  | expr e =>
    cases e with
    | call p receiver name args =>
      cases receiver with
      | none => simp [Expr.atSites, Proper]
      | some receiver =>
        have hsite : Site.ofCall? settings p (some receiver) name args = none := site?_eq_none h
        simp [Expr.atSites, hsite, Proper, isSpread_atSites]
    | _ => simp [Expr.atSites, Proper, isSpread_atSites, isNumber_atSites]

/-- Acting on sites keeps to the grammar if the new bodies do. -/
theorem valid_atSites (hact : ∀ site, site.body.Valid typeOk → (act site).1.Valid typeOk)
    (h : n.Valid typeOk) : (n.atSites settings act).1.Valid typeOk := by
  induction n using induct with
  | step n ih =>
    by_cases hclosed : n.Closed settings
    · rcases hclosed with ⟨site, hsite⟩ | hskip
      · obtain ⟨place, closure, rfl, hacted⟩ := atSites_of_site act hsite
        rw [hacted]
        obtain ⟨hreceiver, hname, ⟨hparams, hbody⟩, -⟩ := h
        exact ⟨hreceiver, hname, ⟨hparams, hact site hbody⟩, trivial⟩
      · rw [atSites_of_skipped hskip]
        exact h
    · obtain ⟨hproper, hchildren⟩ := (valid_iff n).1 h
      rw [valid_iff, (passed hclosed).children, List.forall_mem_map]
      exact ⟨(proper_atSites hclosed).2 hproper, fun c hc => ih c hc (hchildren c hc)⟩

/-! ### All sites -/

/-- Something holds of all sites. -/
def AllSites (settings : Settings) (P : Site → Prop) (n : Part) : Prop :=
  ∀ path site, n.SiteAt settings path site → P site

theorem allSites_of_site (h : n.IsSite settings site) : n.AllSites settings P ↔ P site := by
  refine ⟨fun hall => hall [] site (siteAt_nil.2 h), fun hsite path other hother => ?_⟩
  cases path with
  | nil =>
    have hsame : some other = some site :=
      (site?_eq_some.2 (siteAt_nil.1 hother)).symm.trans (site?_eq_some.2 h)
    obtain rfl := Option.some.inj hsame
    exact hsite
  | cons i path => exact absurd (.inl ⟨site, h⟩) (siteAt_cons.1 hother).1

theorem allSites_of_skipped (h : n.IsSkipped settings) : n.AllSites settings P := by
  intro path site hsite
  cases path with
  | nil => exact absurd (siteAt_nil.1 hsite) h.not_isSite
  | cons i path => exact absurd (.inr h) (siteAt_cons.1 hsite).1

theorem allSites_of_open (h : ¬ n.Closed settings) :
    n.AllSites settings P ↔ ∀ c ∈ n.children, c.AllSites settings P := by
  constructor
  · intro hall c hc path site hsite
    obtain ⟨i, hi⟩ := List.mem_iff_getElem?.1 hc
    exact hall (i :: path) site (siteAt_cons.2 ⟨h, c, hi, hsite⟩)
  · intro hall path site hsite
    cases path with
    | nil => exact absurd (.inl ⟨site, siteAt_nil.1 hsite⟩) h
    | cons i path =>
      obtain ⟨-, c, hc, hsite⟩ := siteAt_cons.1 hsite
      exact hall c (List.mem_of_getElem? hc) path site hsite

theorem allSites_atSites (hact : ∀ site, Q site → P { site with body := (act site).1 })
    (h : n.AllSites settings Q) : (n.atSites settings act).1.AllSites settings P := by
  induction n using induct with
  | step n ih =>
    by_cases hclosed : n.Closed settings
    · rcases hclosed with ⟨site, hsite⟩ | hskip
      · rw [allSites_of_site (isSite_atSites hsite)]
        exact hact site ((allSites_of_site hsite).1 h)
      · rw [atSites_of_skipped hskip]
        exact allSites_of_skipped hskip
    · rw [allSites_of_open (not_closed_atSites hclosed), (passed hclosed).children,
        List.forall_mem_map]
      exact fun c hc => ih c hc ((allSites_of_open hclosed).1 h c hc)

end Part

/-! ### Sites without places -/

def Site.bare (site : Site) : Site :=
  { site with pos := ⟨0, 0⟩, body := site.body.bare }

namespace Part

theorem isSite_bare (h : n.IsSite settings site) : n.bare.IsSite settings site.bare := by
  obtain ⟨⟨place, closure, rfl⟩, hnames⟩ := h
  exact ⟨⟨⟨0, 0⟩, ⟨0, 0⟩, by simp [bare, Site.bare]⟩, hnames⟩

theorem isSkipped_bare (h : n.IsSkipped settings) : n.bare.IsSkipped settings := by
  obtain ⟨m, rfl, hskip⟩ := h
  exact ⟨m.bare, rfl, hskip⟩

theorem exists_var_of_bare {e : Expr} {p : Position} {name : String}
    (h : e.bare = .var p name) : ∃ place, e = .var place name := by
  cases e <;> simp at h
  exact ⟨_, by rw [h.2]⟩

theorem exists_closure_of_bare {e : Expr} {p : Position} {params : List String} {body : Block}
    (h : e.bare = .closure p params body) : ∃ place body', e = .closure place params body' := by
  cases e <;> simp at h
  exact ⟨_, _, by rw [h.2.1]⟩

theorem not_closed_bare (h : ¬ n.Closed settings) : ¬ n.bare.Closed settings := by
  rintro (⟨site, ⟨place, closure, hcall⟩, hstore, hname⟩ | ⟨m, hm, hskip⟩)
  · cases n with
    | expr e =>
      replace hcall := expr.inj hcall
      cases e with
      | call p receiver name args =>
        simp only [Expr.bare_call, Expr.call.injEq, Option.map_eq_some_iff, List.map_eq_cons_iff,
          List.map_eq_nil_iff] at hcall
        obtain ⟨-, ⟨receiver, rfl, hreceiver⟩, rfl, argument, more, rfl, hargument, rfl⟩ := hcall
        obtain ⟨place, rfl⟩ := exists_var_of_bare hreceiver
        obtain ⟨closure, body, rfl⟩ := exists_closure_of_bare hargument
        exact h (.inl ⟨{ site with pos := p, body }, ⟨place, closure, rfl⟩, hstore, hname⟩)
      | _ => simp at hcall
    | _ => cases hcall
  · cases n with
    | method other =>
      obtain rfl := method.inj hm
      exact h (.inr ⟨other, rfl, hskip⟩)
    | _ => cases hm

theorem allSites_bare (hP : ∀ site, P site.bare ↔ P site) :
    n.bare.AllSites settings P ↔ n.AllSites settings P := by
  induction n using induct with
  | step n ih =>
    by_cases hclosed : n.Closed settings
    · rcases hclosed with ⟨site, hsite⟩ | hskip
      · rw [allSites_of_site (isSite_bare hsite), allSites_of_site hsite, hP]
      · exact iff_of_true (allSites_of_skipped (isSkipped_bare hskip)) (allSites_of_skipped hskip)
    · rw [allSites_of_open (not_closed_bare hclosed), allSites_of_open hclosed, children_bare,
        List.forall_mem_map]
      exact forall₂_congr ih

end Part

end QueryBlocks
