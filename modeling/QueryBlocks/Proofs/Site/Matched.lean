import QueryBlocks.Proofs.Script.Part
import QueryBlocks.Site

/-!
Where the sites of a script are. They are listed with their paths, in the order in which a walk that
visits parents first comes to them.
-/
namespace QueryBlocks

namespace Part

/-- A part is a site if it calls an entry method of a store with a closure as only argument. -/
def IsSite (settings : Settings) (site : Site) (n : Part) : Prop :=
  (∃ place closure, n = expr (.call site.pos (some (.var place site.receiver)) site.method
      [.closure closure site.params site.body])) ∧
    site.receiver ∈ settings.receivers ∧ site.method ∈ settings.methods

/-- A method that is to be left alone. -/
def IsSkipped (settings : Settings) (n : Part) : Prop :=
  ∃ m, n = method m ∧ m.name ∈ settings.skipMethods

/-- Nothing below a site or a skipped method is searched. -/
def Closed (settings : Settings) (n : Part) : Prop :=
  (∃ site, n.IsSite settings site) ∨ n.IsSkipped settings

/-- A site below a part that is inside no other site and no skipped method. -/
def SiteAt (settings : Settings) (n : Part) (path : List Nat) (site : Site) : Prop :=
  (∃ m, n.find path = some m ∧ m.IsSite settings site) ∧
    ∀ above rest, path = above ++ rest → rest ≠ [] →
      ∀ m, n.find above = some m → ¬ m.Closed settings

/-- The site that a part is, if it is one. -/
def site? (settings : Settings) : Part → Option Site
  | expr (.call p receiver name args) => Site.ofCall? settings p receiver name args
  | _ => none

def isSkipped (settings : Settings) : Part → Bool
  | method m => settings.skipMethods.contains m.name
  | _ => false

/-- Put the number of the child in front of the paths found in each child. -/
def numberedFrom (i : Nat) : List (List (List Nat × Site)) → List (List Nat × Site)
  | [] => []
  | found :: more => (found.map fun (path, site) => (i :: path, site)) ++ numberedFrom (i + 1) more

/-- The sites below a part with their paths. -/
def sites (settings : Settings) (n : Part) : List (List Nat × Site) :=
  match n.site? settings with
  | some site => [([], site)]
  | none =>
    if n.isSkipped settings then []
    else numberedFrom 0 (n.children.attach.map fun c => c.1.sites settings)
termination_by sizeOf n
decreasing_by exact sizeOf_child c.2

variable {settings : Settings} {n : Part} {path : List Nat} {site : Site}

theorem mem_numberedFrom {start : Nat} {lists : List (List (List Nat × Site))} :
    (path, site) ∈ numberedFrom start lists ↔
      ∃ i rest found, lists[i]? = some found ∧ path = (start + i) :: rest ∧
        (rest, site) ∈ found := by
  induction lists generalizing start with
  | nil => simp [numberedFrom]
  | cons first more ih =>
    simp only [numberedFrom, List.mem_append, List.mem_map, Prod.mk.injEq, Prod.exists, ih]
    constructor
    · rintro (⟨rest, _, hmem, rfl, rfl⟩ | ⟨i, rest, found, hfound, rfl, hmem⟩)
      · exact ⟨0, rest, first, rfl, rfl, hmem⟩
      · exact ⟨i + 1, rest, found, hfound, by rw [Nat.add_assoc, Nat.add_comm 1], hmem⟩
    · rintro ⟨i, rest, found, hfound, rfl, hmem⟩
      cases i with
      | zero =>
        obtain rfl : first = found := by simpa using hfound
        exact .inl ⟨rest, site, hmem, rfl, rfl⟩
      | succ i =>
        refine .inr ⟨i, rest, found, by simpa using hfound, ?_, hmem⟩
        rw [Nat.add_assoc, Nat.add_comm 1]

theorem pairwise_numberedFrom {start : Nat} {lists : List (List (List Nat × Site))}
    (h : ∀ found ∈ lists, found.Pairwise (·.1 < ·.1)) :
    (numberedFrom start lists).Pairwise (·.1 < ·.1) := by
  induction lists generalizing start with
  | nil => exact .nil
  | cons first more ih =>
    refine List.pairwise_append.2 ⟨?_, ih fun found hfound => h found (.tail _ hfound), ?_⟩
    · rw [List.pairwise_map]
      exact (h first (.head _)).imp fun hlt => List.cons_lt_cons_self.2 hlt
    · intro a ha b hb
      obtain ⟨x, -, rfl⟩ := List.mem_map.1 ha
      obtain ⟨i, rest, found, -, hpath, -⟩ := mem_numberedFrom.1 (show (b.1, b.2) ∈ _ from hb)
      rw [hpath]
      exact List.cons_lt_cons_iff.2 (.inl (by omega))

theorem flatMap_numberedFrom {ω : Type} (f : Site → List ω) {start : Nat}
    {lists : List (List (List Nat × Site))} :
    (numberedFrom start lists).flatMap (fun x => f x.2) =
      lists.flatMap fun found => found.flatMap fun x => f x.2 := by
  induction lists generalizing start with
  | nil => rfl
  | cons first more ih => simp [numberedFrom, List.flatMap_append, ih, List.flatMap_map]

theorem ofCall?_eq_some (p place closure : Position) {store name : String} {params : List String}
    {body : Block} (hstore : store ∈ settings.receivers) (hname : name ∈ settings.methods) :
    Site.ofCall? settings p (some (.var place store)) name [.closure closure params body] =
      some ⟨p, store, name, params, body⟩ := by
  simp [Site.ofCall?, hstore, hname]

theorem site?_eq_some : n.site? settings = some site ↔ n.IsSite settings site := by
  constructor
  · intro h
    unfold site? at h
    split at h
    · unfold Site.ofCall? at h
      split at h
      · split at h
        · cases h
          simp_all [IsSite]
        · cases h
      · cases h
    · cases h
  · rintro ⟨⟨place, closure, rfl⟩, hstore, hname⟩
    exact ofCall?_eq_some _ place closure hstore hname

theorem isSkipped_iff : n.isSkipped settings = true ↔ n.IsSkipped settings := by
  cases n <;> simp [isSkipped, IsSkipped]

theorem site?_eq_none (h : ¬ n.Closed settings) : n.site? settings = none := by
  rw [Option.eq_none_iff_forall_ne_some]
  exact fun site hsite => h (.inl ⟨site, site?_eq_some.1 hsite⟩)

theorem IsSkipped.not_isSite (h : n.IsSkipped settings) : ¬ n.IsSite settings site := by
  rintro ⟨⟨place, closure, rfl⟩, -⟩
  obtain ⟨m, hm, -⟩ := h
  cases hm

theorem sites_of_site (h : n.IsSite settings site) : n.sites settings = [([], site)] := by
  rw [sites, site?_eq_some.2 h]

theorem sites_of_skipped (h : n.IsSkipped settings) : n.sites settings = [] := by
  rw [sites, if_pos (isSkipped_iff.2 h)]
  obtain ⟨m, rfl, -⟩ := h
  rfl

theorem sites_of_open (h : ¬ n.Closed settings) :
    n.sites settings = numberedFrom 0 (n.children.map fun c => c.sites settings) := by
  have hskip : ¬ n.isSkipped settings = true := fun hs => h (.inr (isSkipped_iff.1 hs))
  rw [sites, site?_eq_none h, if_neg hskip]
  simp

theorem siteAt_nil : n.SiteAt settings [] site ↔ n.IsSite settings site := by
  refine ⟨fun ⟨⟨m, hm, hsite⟩, _⟩ => by simp_all, fun h => ⟨⟨n, rfl, h⟩, ?_⟩⟩
  intro above rest hpath hrest
  simp_all

theorem siteAt_cons {i : Nat} : n.SiteAt settings (i :: path) site ↔
    ¬ n.Closed settings ∧ ∃ c, n.children[i]? = some c ∧ c.SiteAt settings path site := by
  constructor
  · rintro ⟨⟨m, hm, hsite⟩, habove⟩
    obtain ⟨c, hc, hm⟩ := Option.bind_eq_some_iff.1 hm
    refine ⟨habove [] (i :: path) rfl (by simp) n rfl, c, hc, ⟨m, hm, hsite⟩, ?_⟩
    intro above rest hpath hrest m hm
    refine habove (i :: above) rest (by rw [hpath, List.cons_append]) hrest m ?_
    rw [find_cons, hc]
    exact hm
  · rintro ⟨hopen, c, hc, ⟨m, hm, hsite⟩, habove⟩
    refine ⟨⟨m, by rw [find_cons, hc]; exact hm, hsite⟩, ?_⟩
    intro above rest hpath hrest a ha
    cases above with
    | nil =>
      obtain rfl : n = a := by simpa using ha
      exact hopen
    | cons j above =>
      rw [List.cons_append, List.cons.injEq] at hpath
      obtain ⟨rfl, rfl⟩ := hpath
      rw [find_cons, hc] at ha
      exact habove above rest rfl hrest a ha

theorem mem_sites : (path, site) ∈ n.sites settings ↔ n.SiteAt settings path site := by
  induction path generalizing n with
  | nil =>
    rw [siteAt_nil]
    by_cases hclosed : n.Closed settings
    · rcases hclosed with ⟨other, hother⟩ | hskip
      · rw [sites_of_site hother, ← site?_eq_some, site?_eq_some.2 hother]
        simp [eq_comm]
      · simp [sites_of_skipped hskip, hskip.not_isSite]
    · have hsite : ¬ n.IsSite settings site := fun h => hclosed (.inl ⟨site, h⟩)
      simp [sites_of_open hclosed, mem_numberedFrom, hsite]
  | cons i path ih =>
    rw [siteAt_cons]
    by_cases hclosed : n.Closed settings
    · simp only [hclosed, not_true_eq_false, false_and, iff_false]
      rcases hclosed with ⟨other, hother⟩ | hskip
      · simp [sites_of_site hother]
      · simp [sites_of_skipped hskip]
    · simp only [sites_of_open hclosed, mem_numberedFrom, hclosed, not_false_eq_true, true_and,
        ← ih, List.getElem?_map, Option.map_eq_some_iff]
      grind

/-- The paths of the sites are in the order of a walk that visits parents first. -/
theorem pairwise_sites : (n.sites settings).Pairwise (·.1 < ·.1) := by
  induction n using induct with
  | step n ih =>
    by_cases hclosed : n.Closed settings
    · rcases hclosed with ⟨other, hother⟩ | hskip
      · rw [sites_of_site hother]
        exact List.pairwise_singleton ..
      · rw [sites_of_skipped hskip]
        exact .nil
    · rw [sites_of_open hclosed]
      refine pairwise_numberedFrom fun found hfound => ?_
      obtain ⟨c, hc, rfl⟩ := List.mem_map.1 hfound
      exact ih c hc

end Part

end QueryBlocks
