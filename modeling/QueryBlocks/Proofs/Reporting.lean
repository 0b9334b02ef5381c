import QueryBlocks.Proofs.Expansion
import QueryBlocks.Proofs.Query.Pointed
import QueryBlocks.Proofs.Script.Located

/-!
Where the problems of a script are reported. A problem stands inside the statement that it was found
in, so in the text and not before the call whose block the statement belongs to.
-/
namespace QueryBlocks

namespace Part

variable {place : List Char → Position} {s : List Char} {n m : Part} {p : Position}

/-- What is found in a part lies behind the beginning of the part. -/
theorem Lies.find {path : List Nat} (h : n.Lies place s) (hm : n.find path = some m) :
    ∃ u, u <:+ s ∧ n.pos? = some (place u) ∧ m.Lies place u := by
  induction path generalizing n s with
  | nil =>
    cases hm
    obtain ⟨hu, hpos, hchildren⟩ := h
    exact ⟨_, hu, hpos, .mk (List.suffix_refl _) hpos hchildren⟩
  | cons i path ih =>
    obtain ⟨hu, hpos, hchildren⟩ := h
    obtain ⟨c, hc, hm⟩ := Option.bind_eq_some_iff.mp hm
    obtain ⟨v, hv, -, hlies⟩ := ih (hchildren c (List.mem_of_getElem? hc)) hm
    exact ⟨_, hu, hpos, hlies.widen hv⟩

/-- A place in a part is that of an end of the text behind the beginning of the part. -/
theorem Lies.holds (h : n.Lies place s) (hp : n.Holds p) :
    ∃ u v, u <:+ s ∧ v <:+ u ∧ n.pos? = some (place u) ∧ p = place v := by
  obtain ⟨path, m, hm, hpos⟩ := hp
  obtain ⟨u, hu, hn, ⟨hv, hplace, -⟩⟩ := h.find hm
  exact ⟨u, _, hu, hv, hn, Option.some.inj (hpos.symm.trans hplace)⟩

/-- What stands in a statement of a site's block stands in the site. -/
theorem IsSite.holds {settings : Settings} {site : Site} {stmt : Stmt} (h : n.IsSite settings site)
    (hstmt : stmt ∈ site.body.statements) (hp : (Part.stmt stmt).Holds p) : n.Holds p := by
  obtain ⟨⟨place, closure, rfl⟩, -, -⟩ := h
  have hblock : (block site.body).Holds p := hp.of_child (List.mem_map_of_mem hstmt)
  have hclosure : (expr (.closure closure site.params site.body)).Holds p :=
    hblock.of_child List.mem_cons_self
  exact hclosure.of_child (List.mem_cons_of_mem _ List.mem_cons_self)

end Part

namespace Site

variable (settings : Settings) (lookup : TypeLookup) (reader : CodeReader) (site : Site)

/-- The problems that are reported for a site. -/
def problems : List Diagnostic :=
  (site.expand settings lookup reader).2.flatMap SiteReport.diagnostics

theorem diagnostics_report (sites : List Site) :
    (report settings lookup reader sites).diagnostics =
      sites.flatMap (problems settings lookup reader) :=
  List.flatMap_assoc

/-- A problem of a site was found when its query was compiled, or its program is not read. -/
theorem mem_problems {x : Diagnostic} : x ∈ site.problems settings lookup reader ↔
    site.isQuery = true ∧ x ∈ (site.compiled settings lookup).2 ∨
      site.rejection? settings lookup reader = some x := by
  unfold problems
  rcases site.expand_cases settings lookup reader with
    ⟨hq, h⟩ | ⟨body, entry, hq, hr, -, h⟩ | ⟨e, hq, hr, h⟩
  · simp [h, rejection?, hq]
  · simp [h, rejection?, hq, hr]
  · simp [h, rejection?, hq, hr, eq_comm]

/-- A problem points into a site of a text: its place is that of an end of the text, and not before
the site. Unless it is internal it is one of those added by a statement of the block, and its place
is that of something in this statement. -/
structure PointedAt (text : List Char) (x : Diagnostic) : Prop where
  inText : ∃ rest, rest <:+ text ∧ x.pos = (LineIndex.ofText text).locate rest
  notBefore : site.pos ≤ x.pos
  inStatement : x.category ≠ .internal → ∃ s new,
    (s, new) ∈ Draft.empty.trace settings lookup site.body.statements ∧ x ∈ new ∧
      (Part.stmt s).Holds x.pos

variable {settings lookup reader site}

theorem rejection?_eq_some {x : Diagnostic} (h : site.rejection? settings lookup reader = some x) :
    x.category = .internal ∧ x.pos = site.pos := by
  unfold rejection? at h
  split at h
  · cases h
    exact ⟨rfl, rfl⟩
  · cases h

theorem pointedAt {text : List Char} {n : Part} {x : Diagnostic} (hsite : n.IsSite settings site)
    (hlies : n.Lies (LineIndex.ofText text).locate text)
    (hx : x ∈ site.problems settings lookup reader) : site.PointedAt settings lookup text x := by
  have hpos : n.pos? = some site.pos := by
    obtain ⟨⟨place, closure, rfl⟩, -, -⟩ := hsite
    rfl
  -- A place in the site is in the text and not before the site, whoever names it.
  have hplaces (hp : n.Holds x.pos) :
      (∃ rest, rest <:+ text ∧ x.pos = (LineIndex.ofText text).locate rest) ∧ site.pos ≤ x.pos := by
    obtain ⟨u, v, hu, hv, hn, hplace⟩ := hlies.holds hp
    refine ⟨⟨v, hv.trans hu, hplace⟩, ?_⟩
    rw [Option.some.inj (hpos.symm.trans hn), hplace]
    exact LineIndex.locate_le hu hv
  rcases (site.mem_problems settings lookup reader).mp hx with ⟨-, hcompiled⟩ | hrejected
  · rw [compiled, compile_trace] at hcompiled
    obtain ⟨⟨s, new⟩, htrace, hnew⟩ := List.mem_flatMap.mp hcompiled
    have hmem : s ∈ site.body.statements := by
      rw [← Draft.map_trace .empty site.body.statements]
      exact List.mem_map_of_mem htrace
    have hstmt := Draft.holds_of_trace htrace hnew
    obtain ⟨hin, hafter⟩ := hplaces (hsite.holds hmem hstmt)
    exact ⟨hin, hafter, fun _ => ⟨s, new, htrace, hnew, hstmt⟩⟩
  · obtain ⟨hinternal, hsame⟩ := rejection?_eq_some hrejected
    obtain ⟨hin, hafter⟩ := hplaces (hsame ▸ .self hpos)
    exact ⟨hin, hafter, fun h => absurd hinternal h⟩

end Site

/-- A site of a script lies in the text of the script. -/
theorem Script.lies_site {text : String} {script : Script} {settings : Settings} {path : List Nat}
    {site : Site} (hread : Script.read text = .ok script)
    (hsite : (Part.script script).SiteAt settings path site) :
    ∃ n : Part, n.IsSite settings site ∧
      n.Lies (LineIndex.ofText text.toList).locate text.toList := by
  obtain ⟨⟨n, hfind, hn⟩, -⟩ := hsite
  refine ⟨n, hn, ?_⟩
  cases path with
  | nil =>
    cases hfind
    obtain ⟨⟨place, closure, hpart⟩, -, -⟩ := hn
    cases hpart
  | cons i path =>
    obtain ⟨c, hc, hfind⟩ := Option.bind_eq_some_iff.mp hfind
    obtain ⟨item, hitem, rfl⟩ := List.mem_map.mp (List.mem_of_getElem? hc)
    obtain ⟨u, hu, -, hlies⟩ := (Script.lies_of_read hread item hitem).find hfind
    exact hlies.widen hu

/-- The report on a script holds the problems of its sites, one site after the other, and every
problem points into its site. -/
theorem expandText_points_into_queries {given settings : Settings} {source : String}
    {script : Script} (hsettings : given.validate = .ok settings)
    (hread : Script.read source = .ok script) :
    ∃ out report, expandText given source = .ok (out, report) ∧
      report.diagnostics = ((Part.script script).sites settings).flatMap (fun found =>
        found.2.problems settings (Catalogue.ofScript script settings).lookup .standard) ∧
      ∀ path site, (Part.script script).SiteAt settings path site →
        ∀ x ∈ site.problems settings (Catalogue.ofScript script settings).lookup .standard,
          site.PointedAt settings (Catalogue.ofScript script settings).lookup source.toList x := by
  refine ⟨_, _, expandText_of_read hsettings hread, ?_, ?_⟩
  · rw [Script.expand, Script.report_expandWith, Site.diagnostics_report, List.flatMap_map]
  · intro path site hsite x hx
    obtain ⟨n, hn, hlies⟩ := Script.lies_site hread hsite
    exact Site.pointedAt hn hlies hx

/-- A predicate on a sum: the problem stands where the predicate does, inside the second line. -/
theorem expandText_points_into_where : ∃ script,
    Script.read "datastore.executeQuery \x7b from Person\n  where a + 1 \x7d" = .ok script ∧
      ∃ (site : Site) (x : Diagnostic), x.category ≠ .internal ∧ x.pos = ⟨2, 9⟩ ∧
        site.PointedAt .standard (Catalogue.ofScript script .standard).lookup
          "datastore.executeQuery \x7b from Person\n  where a + 1 \x7d".toList x := by
  have hcheck : ∃ script,
      Script.read "datastore.executeQuery \x7b from Person\n  where a + 1 \x7d" = .ok script ∧
        ∃ found ∈ (Part.script script).sites .standard, found.2.isQuery = true ∧
          ∃ x ∈ (found.2.compiled .standard (Catalogue.ofScript script .standard).lookup).2,
            x.category ≠ .internal ∧ x.pos = ⟨2, 9⟩ :=
    exists_ok (by decide +kernel)
  obtain ⟨script, hread, ⟨path, site⟩, hsite, hquery, x, hx, hkind, hpos⟩ := hcheck
  obtain ⟨-, -, -, -, hpoints⟩ := expandText_points_into_queries Settings.validate_standard hread
  exact ⟨script, hread, site, x, hkind, hpos, hpoints path site (Part.mem_sites.mp hsite) x
    ((site.mem_problems ..).mpr (.inl ⟨hquery, hx⟩))⟩

end QueryBlocks
