import QueryBlocks.Proofs.Site.Matched

/-!
What acting on the sites of a script does to its parts: the bodies of the sites are exchanged, all
other parts keep their heads, and what is said comes in the order of the sites.
-/
namespace QueryBlocks

variable {ω : Type} {settings : Settings} {act : SiteAction ω}

theorem Expr.allAtSites_eq (es : List Expr) :
    Expr.allAtSites settings act es = atEach (Expr.atSites settings act) es := by
  induction es with
  | nil => rfl
  | cons e es ih => simp [Expr.allAtSites, ih, atEach]

theorem Stmt.allAtSites_eq (ss : List Stmt) :
    Stmt.allAtSites settings act ss = atEach (Stmt.atSites settings act) ss := by
  induction ss with
  | nil => rfl
  | cons s ss ih => simp [Stmt.allAtSites, ih, atEach]

namespace Part

/-- Act on every site of a part. -/
def atSites (settings : Settings) (act : SiteAction ω) : Part → Part × List ω
  | script x => (x.atSites settings act).map script id
  | classDecl x => (x.atSites settings act).map classDecl id
  | field x => (x.atSites settings act).map field id
  | method x => (x.atSites settings act).map method id
  | block x => (x.atSites settings act).map block id
  | stmt x => (x.atSites settings act).map stmt id
  | expr x => (x.atSites settings act).map expr id

@[simp] theorem atSites_script (x : Script) :
    (script x).atSites settings act = (x.atSites settings act).map script id := rfl

@[simp] theorem atSites_classDecl (x : ClassDecl) :
    (classDecl x).atSites settings act = (x.atSites settings act).map classDecl id := rfl

@[simp] theorem atSites_field (x : Field) :
    (field x).atSites settings act = (x.atSites settings act).map field id := rfl

@[simp] theorem atSites_method (x : Method) :
    (method x).atSites settings act = (x.atSites settings act).map method id := rfl

@[simp] theorem atSites_block (x : Block) :
    (block x).atSites settings act = (x.atSites settings act).map block id := rfl

@[simp] theorem atSites_stmt (x : Stmt) :
    (stmt x).atSites settings act = (x.atSites settings act).map stmt id := rfl

@[simp] theorem atSites_expr (x : Expr) :
    (expr x).atSites settings act = (x.atSites settings act).map expr id := rfl

/-- Where the body of a site is, seen from its call: in the closure that follows the receiver. -/
def bodyPath : List Nat := [1, 0]

/-- Every child of a part is acted on, and nothing else. -/
structure Passed (settings : Settings) (act : SiteAction ω) (n : Part) : Prop where
  head : (n.atSites settings act).1.head = n.head
  children : (n.atSites settings act).1.children =
    n.children.map fun c => (c.atSites settings act).1
  said : (n.atSites settings act).2 = n.children.flatMap fun c => (c.atSites settings act).2

variable {n : Part}

theorem passed_expr {e : Expr} (h : ¬ (expr e).Closed settings) :
    Passed settings act (expr e) := by
  cases e with
  | call p receiver name args =>
    cases receiver with
    | none =>
      constructor <;>
        simp [Expr.atSites, Expr.allAtSites_eq, atEach, Part.head, Expr.head,
          Part.children, Expr.children, List.flatMap_map]
    | some receiver =>
      have hsite : Site.ofCall? settings p (some receiver) name args = none := site?_eq_none h
      constructor <;>
        simp [Expr.atSites, hsite, Expr.allAtSites_eq, atEach, Part.head, Expr.head,
          Part.children, Expr.children, List.flatMap_map]
  | _ =>
    constructor <;>
      simp [Expr.atSites, Expr.allAtSites_eq, atEach, Part.head, Expr.head,
        Part.children, Expr.children, List.flatMap_map]

theorem passed_stmt (s : Stmt) : Passed settings act (stmt s) := by
  rcases s with ⟨p, e⟩ | ⟨p, type, name, _ | e⟩ | ⟨p, cond, body, _ | other⟩ | ⟨p, _ | e⟩ <;>
    constructor <;>
      simp [Stmt.atSites, Part.head, Stmt.head, Part.children, Stmt.children]

theorem passed (h : ¬ n.Closed settings) : Passed settings act n := by
  cases n with
  | expr e => exact passed_expr h
  | stmt s => exact passed_stmt s
  | block b =>
    cases b
    constructor <;>
      simp [Block.atSites, Stmt.allAtSites_eq, atEach, Part.head, Part.children,
        List.flatMap_map]
  | method m =>
    have hkeep : m.name ∉ settings.skipMethods := fun hm => h (.inr ⟨m, rfl, hm⟩)
    constructor <;> simp [Method.atSites, hkeep, Part.head, Part.children]
  | field f =>
    rcases f with ⟨p, modifiers, type, name, _ | e⟩ <;>
      constructor <;> simp [Field.atSites, Part.head, Part.children]
  | classDecl c =>
    constructor <;>
      simp [ClassDecl.atSites, atEach, Part.head, Part.children, List.flatMap_map,
        Function.comp_def]
  | script s =>
    have hitem (item : Item) :
        (item.atSites settings act).map Item.part id = item.part.atSites settings act := by
      cases item <;> rfl
    have hnode (item : Item) :
        (item.atSites settings act).1.part = (item.part.atSites settings act).1 :=
      congrArg Prod.fst (hitem item)
    have hsaid (item : Item) :
        (item.atSites settings act).2 = (item.part.atSites settings act).2 :=
      congrArg Prod.snd (hitem item)
    constructor <;>
      simp [Script.atSites, atEach, Part.head, Part.children, List.flatMap_map,
        hnode, hsaid]

theorem atSites_of_skipped (h : n.IsSkipped settings) : n.atSites settings act = (n, []) := by
  obtain ⟨m, rfl, hskip⟩ := h
  simp [Method.atSites, hskip]

/-- Acting on a site exchanges the body of the closure. -/
theorem atSites_of_site (act : SiteAction ω) {site : Site} (h : n.IsSite settings site) :
    ∃ place closure, n = expr (.call site.pos (some (.var place site.receiver)) site.method
        [.closure closure site.params site.body]) ∧
      n.atSites settings act = (expr (.call site.pos (some (.var place site.receiver)) site.method
        [.closure closure site.params (act site).1]), (act site).2) := by
  obtain ⟨⟨place, closure, rfl⟩, hstore, hname⟩ := h
  refine ⟨place, closure, rfl, ?_⟩
  simp [Expr.atSites, ofCall?_eq_some _ place closure hstore hname, Site.refill]

theorem find_site_body {site : Site} (h : n.IsSite settings site) :
    (n.atSites settings act).1.find bodyPath = some (block (act site).1) := by
  obtain ⟨place, closure, -, hacted⟩ := atSites_of_site act h
  rw [hacted]
  rfl

theorem SiteAt.find_body {path : List Nat} {site : Site} (h : n.SiteAt settings path site) :
    n.find (path ++ bodyPath) = some (block site.body) := by
  obtain ⟨⟨m, hm, ⟨place, closure, rfl⟩, -⟩, -⟩ := h
  rw [find_append, hm]
  rfl

theorem find_site_elsewhere {site : Site} (h : n.IsSite settings site) {path : List Nat}
    (hpath : ∀ rest, path = bodyPath ++ rest → (act site).1 = site.body) :
    ((n.atSites settings act).1.find path).map head = (n.find path).map head := by
  obtain ⟨place, closure, rfl, hacted⟩ := atSites_of_site act h
  rw [hacted]
  match path with
  | [] => rfl
  | 0 :: _ => rfl
  | [1] => rfl
  | 1 :: 0 :: rest => rw [hpath rest rfl]
  | 1 :: (_ + 1) :: _ => rfl
  | (_ + 2) :: _ => rfl

theorem find_passed (h : ¬ n.Closed settings) (i : Nat) (path : List Nat) :
    (n.atSites settings act).1.find (i :: path) =
      n.children[i]?.bind fun c => (c.atSites settings act).1.find path := by
  rw [find_cons, (passed h).children, List.getElem?_map]
  cases n.children[i]? <;> rfl

/-- The body of every site is the one that the action gives. -/
theorem find_body (act : SiteAction ω) {path : List Nat} {site : Site}
    (h : n.SiteAt settings path site) :
    (n.atSites settings act).1.find (path ++ bodyPath) = some (block (act site).1) := by
  induction path generalizing n with
  | nil => exact find_site_body (siteAt_nil.1 h)
  | cons i path ih =>
    obtain ⟨hopen, c, hc, hsite⟩ := siteAt_cons.1 h
    rw [List.cons_append, find_passed hopen, hc]
    exact ih hsite

theorem find_elsewhere_closed (hclosed : n.Closed settings) {path : List Nat}
    (h : ∀ above site rest, n.SiteAt settings above site → path = above ++ bodyPath ++ rest →
      (act site).1 = site.body) :
    ((n.atSites settings act).1.find path).map head = (n.find path).map head := by
  rcases hclosed with ⟨site, hsite⟩ | hskip
  · exact find_site_elsewhere hsite fun rest hpath => h [] site rest (siteAt_nil.2 hsite) hpath
  · rw [atSites_of_skipped hskip]

/-- A part keeps its head unless it is in a body that the action exchanges. -/
theorem find_elsewhere {path : List Nat}
    (h : ∀ above site rest, n.SiteAt settings above site → path = above ++ bodyPath ++ rest →
      (act site).1 = site.body) :
    ((n.atSites settings act).1.find path).map head = (n.find path).map head := by
  induction path generalizing n with
  | nil =>
    by_cases hclosed : n.Closed settings
    · exact find_elsewhere_closed hclosed h
    · simp [(passed hclosed).head]
  | cons i path ih =>
    by_cases hclosed : n.Closed settings
    · exact find_elsewhere_closed hclosed h
    · rw [find_passed hclosed, find_cons]
      cases hc : n.children[i]? with
      | none => rfl
      | some c =>
        refine ih fun above site rest hsite hpath => h (i :: above) site rest ?_ (by simp [hpath])
        exact siteAt_cons.2 ⟨hclosed, c, hc, hsite⟩

/-- What is said about the sites comes in their order. -/
theorem said_atSites (settings : Settings) (act : SiteAction ω) (n : Part) :
    (n.atSites settings act).2 = (n.sites settings).flatMap fun x => (act x.2).2 := by
  induction n using induct with
  | step n ih =>
    by_cases hclosed : n.Closed settings
    · rcases hclosed with ⟨site, hsite⟩ | hskip
      · obtain ⟨place, closure, -, hacted⟩ := atSites_of_site act hsite
        simp [hacted, sites_of_site hsite]
      · simp [atSites_of_skipped hskip, sites_of_skipped hskip]
    · rw [sites_of_open hclosed, flatMap_numberedFrom (fun site => (act site).2),
        (passed hclosed).said, List.flatMap_map]
      simp only [List.flatMap_def, List.map_congr_left ih]

end Part

/-- The script `after` is the script `before` with the bodies of some sites exchanged: a body that
has a replacement gives way to it, and every part outside such bodies keeps its head. -/
structure Script.Refilled (settings : Settings) (replacement? : Site → Option Block)
    (before after : Script) : Prop where
  body : ∀ path site block, (Part.script before).SiteAt settings path site →
    replacement? site = some block →
    (Part.script after).find (path ++ Part.bodyPath) = some (.block block)
  elsewhere : ∀ path,
    (∀ above site rest, (Part.script before).SiteAt settings above site →
      path = above ++ Part.bodyPath ++ rest → replacement? site = none) →
    ((Part.script after).find path).map Part.head = ((Part.script before).find path).map Part.head

namespace Script.Refilled

variable {replacement? : Site → Option Block} {before : Script}

theorem of_atSites (hact : ∀ site, (act site).1 = (replacement? site).getD site.body) :
    Refilled settings replacement? before (before.atSites settings act).1 where
  body path site block hsite hblock := by
    have := Part.find_body act hsite
    simpa [hact, hblock] using this
  elsewhere path h := by
    refine Part.find_elsewhere (n := .script before) fun above site rest hsite hp => ?_
    simp [hact, h above site rest hsite hp]

/-- Nothing more is to be said: the exchanged bodies and the kept heads determine the script. -/
theorem unique {after other : Script} (h : Refilled settings replacement? before after)
    (hother : Refilled settings replacement? before other) : other = after := by
  have heq : Part.script other = .script after := by
    refine Part.ext_find fun path => ?_
    by_cases hpath : ∃ above site rest, (Part.script before).SiteAt settings above site ∧
        path = above ++ Part.bodyPath ++ rest ∧ replacement? site ≠ none
    · obtain ⟨above, site, rest, hsite, rfl, hsome⟩ := hpath
      obtain ⟨block, hblock⟩ := Option.ne_none_iff_exists'.1 hsome
      rw [Part.find_append, hother.body above site block hsite hblock, Part.find_append,
        h.body above site block hsite hblock]
    · simp only [not_exists, not_and, ne_eq, Classical.not_not] at hpath
      rw [hother.elsewhere path hpath, h.elsewhere path hpath]
  exact Part.script.inj heq

end Script.Refilled

end QueryBlocks
