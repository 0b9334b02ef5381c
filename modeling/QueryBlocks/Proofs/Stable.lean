import QueryBlocks.Proofs.Expansion
import QueryBlocks.Proofs.Program.Legible
import QueryBlocks.Proofs.Query.Unplaced
import QueryBlocks.Proofs.Site.Transfer

/-!
Expanding what has been expanded changes nothing. The body of a site that is a query has given way
to a program, and a program begins with a declaration, which no query does. A query that was left is
one whose program is not read, and it is not read the second time either. Nothing of this depends on
places, so it still holds of the script that is read from the written text.
-/
namespace QueryBlocks

open QueryBlocks.Token

/-! ### Programs that were read -/

section

variable {settings : Settings} {clauses : List Written.Clause} {again : Block}
  (hsuffix : settings.suffix.toList.all isWordChar = true)
  (hgiven : ∀ c ∈ clauses, c.Given Declarable)
  (hread : Block.read (Program.code settings (clauses.map Written.Clause.text)) = .ok again)

include hsuffix hgiven hread

theorem Program.valid_of_read_code : again.Valid Declarable := by
  obtain ⟨ss, hss, hbare⟩ := (legible_program hsuffix hgiven).spells_of_read hread
  obtain ⟨pos, statements⟩ := again
  have hsame : (Part.block ⟨pos, statements⟩).bare = (Part.block ⟨pos, ss⟩).bare := by
    rw [Part.bare, Part.bare, Block.bare_mk, Block.bare_mk, hbare]
  have hblock : (Part.block ⟨pos, statements⟩).Valid Declarable := by
    rw [← Part.valid_bare, hsame, Part.valid_bare]
    exact valid_of_spells hss
  exact hblock

/-- No query begins with a declaration. -/
theorem Program.classify_of_read_code : classify again.statements = none := by
  obtain ⟨ss, hss, hbare⟩ := (legible_program hsuffix hgiven).spells_of_read hread
  cases hss with
  | cons hspells _ =>
    have hfirst := hspells.unique (Tree.spells_declare hsuffix .markerProperty)
    rw [← classify_bare, hbare, List.map_cons, hfirst]
    rfl

end

/-! ### Sites -/

namespace Site

variable {settings : Settings} {lookup later : TypeLookup} {reader : CodeReader} {site : Site}

theorem code_eq : site.code settings lookup =
    Program.code settings ((Written.clauses site.body).map Written.Clause.text) :=
  congrArg (Program.code settings) (compile_clauses settings lookup _)

theorem replacement?_bare :
    site.bare.replacement? settings lookup reader = site.replacement? settings lookup reader := by
  obtain ⟨_, _, _, _, _, statements⟩ := site
  simp only [replacement?, isQuery, code_eq, Site.bare, Written.clauses_bare]
  simp only [Block.bare_mk, classify_bare]

section

variable (hsuffix : settings.suffix.toList.all isWordChar = true)
  (h : site.body.Valid Declarable)

include hsuffix h

theorem valid_expand : (site.expand settings lookup .standard).1.Valid Declarable := by
  rcases site.expand_cases settings lookup .standard with
    ⟨-, hbody⟩ | ⟨body, entry, -, hread, -, hbody⟩ | ⟨e, -, -, hbody⟩
  · rw [hbody]
    exact h
  · rw [hbody]
    rw [code_eq, CodeReader.standard_eq_ok] at hread
    exact Program.valid_of_read_code hsuffix (Written.given_of_valid h) hread
  · rw [hbody]
    exact h

/-- The body that takes the place of a site's is not replaced again. -/
theorem replacement?_expand : Site.replacement? settings later .standard
    { site with body := (site.expand settings lookup .standard).1 } = none := by
  rcases site.expand_cases settings lookup .standard with
    ⟨hquery, hbody⟩ | ⟨body, entry, -, hread, -, hbody⟩ | ⟨e, -, herror, hbody⟩
  · rw [hbody]
    simp [replacement?, hquery]
  · rw [code_eq, CodeReader.standard_eq_ok] at hread
    have hnone := Program.classify_of_read_code hsuffix (Written.given_of_valid h) hread
    rw [hbody]
    simp [replacement?, isQuery, hnone]
  · rw [hbody]
    rw [code_eq] at herror
    simp [replacement?, code_eq, herror, Except.toOption]

end

end Site

/-! ### Scripts -/

namespace Script

variable {settings : Settings} {lookup : TypeLookup} {reader : CodeReader} {script : Script}

/-- No site has a replacement. -/
def Settled (settings : Settings) (lookup : TypeLookup) (reader : CodeReader)
    (script : Script) : Prop :=
  (Part.script script).AllSites settings fun site =>
    site.replacement? settings lookup reader = none

theorem Settled.expandWith_eq (h : script.Settled settings lookup reader) :
    (script.expandWith settings lookup reader).1 = script := by
  have hkept : script.Refilled settings (Site.replacement? settings lookup reader) script := by
    refine ⟨fun path site block hsite hblock => ?_, fun _ _ => rfl⟩
    rw [h path site hsite] at hblock
    cases hblock
  exact hkept.unique (.of_atSites (Site.expand_body settings lookup reader))

theorem Settled.queries_eq_nil (h : script.Settled settings lookup reader) :
    (script.expandWith settings lookup reader).2.queries = [] := by
  have hqueries := Site.queries_report settings lookup reader
    (((Part.script script).sites settings).map (·.2))
  have hnone : (((Part.script script).sites settings).map (·.2)).filter
      (fun site => (site.replacement? settings lookup reader).isSome) = [] := by
    rw [List.filter_eq_nil_iff, List.forall_mem_map]
    rintro ⟨path, site⟩ hsite
    simp [h path site (Part.mem_sites.1 hsite)]
  rw [hnone, List.forall₂_nil_left_iff, ← script.report_expandWith] at hqueries
  exact hqueries

theorem Settled.of_bare_eq {other : Script} (h : script.Settled settings lookup reader)
    (hbare : other.bare = script.bare) : other.Settled settings lookup reader := by
  have hsame : (Part.script other).bare = (Part.script script).bare :=
    congrArg Part.script hbare
  have hP (site : Site) : site.bare.replacement? settings lookup reader = none ↔
      site.replacement? settings lookup reader = none := by rw [Site.replacement?_bare]
  rwa [Settled, ← Part.allSites_bare hP, hsame, Part.allSites_bare hP]

variable (hsuffix : settings.suffix.toList.all isWordChar = true) (h : script.Valid Declarable)

include hsuffix h

theorem valid_expandWith : (script.expandWith settings lookup .standard).1.Valid Declarable :=
  Part.valid_atSites (n := .script script)
    (fun _ hbody => Site.valid_expand hsuffix hbody) h

/-- What has been expanded has no site with a replacement. -/
theorem settled_expandWith {later : TypeLookup} :
    (script.expandWith settings lookup .standard).1.Settled settings later .standard := by
  have hbodies : (Part.script script).AllSites settings fun site => site.body.Valid Declarable :=
    fun path site hsite => Part.valid_find (n := .script script) h hsite.find_body
  exact Part.allSites_atSites (fun _ hbody => Site.replacement?_expand hsuffix hbody) hbodies

end Script

/-- Expanding is idempotent: the text that comes out is expanded to itself, and there is no query in
it. -/
theorem expandText_stable {given : Settings} {source out : String} {script : Script}
    {report : Report} (hread : Script.read source = .ok script)
    (htypes : ∀ type ∈ script.declaredTypes, firstSegment type ≠ "else")
    (h : expandText given source = .ok (out, report)) :
    ∃ again, expandText given out = .ok (out, again) ∧ again.queries = [] := by
  obtain ⟨settings, other, hsettings, hother, rfl, rfl⟩ := expandText_eq_ok.1 h
  obtain rfl : script = other := Except.ok.inj (hread.symm.trans hother)
  have hsuffix := Settings.suffix_of_validate hsettings
  have hvalid : script.Valid Declarable := (Script.valid_of_read hread).and htypes
  have hexpanded : (script.expand settings).1.Valid Declarable :=
    Script.valid_expandWith hsuffix hvalid
  obtain ⟨again, hagain, hbare⟩ := Script.read_text hexpanded
  have hsettled : again.Settled settings (Catalogue.ofScript again settings).lookup .standard :=
    (Script.settled_expandWith hsuffix hvalid).of_bare_eq hbare
  refine ⟨_, expandText_eq_ok.2 ⟨settings, again, hsettings, hagain, ?_, rfl⟩,
    hsettled.queries_eq_nil⟩
  calc (again.expand settings).1.text
      _ = again.text := by rw [Script.expand, hsettled.expandWith_eq]
      _ = again.bare.text := again.text_bare.symm
      _ = (script.expand settings).1.text := by rw [hbare, Script.text_bare]

/-- A query with another one in a value, a query whose program is not read, and a block that is no
query. -/
theorem expandText_stable_mixed : ∃ out report,
    expandText .standard "class A \x7b def f(k) \x7b datastore.executeQuery \x7b select keys
        from Person\n where age > \x7b datastore.executeQuery \x7b from Pet \x7d \x7d \x7d \x7d \x7d
      Entitystore.defineQuery \x7b from Person, childOf(*k) \x7d
      datastore.executeQuery \x7b int n = 1 \x7d" = .ok (out, report) ∧
    ∃ again, expandText .standard out = .ok (out, again) ∧ again.queries = [] := by
  have hcheck : ∃ script, Script.read
      "class A \x7b def f(k) \x7b datastore.executeQuery \x7b select keys
        from Person\n where age > \x7b datastore.executeQuery \x7b from Pet \x7d \x7d \x7d \x7d \x7d
      Entitystore.defineQuery \x7b from Person, childOf(*k) \x7d
      datastore.executeQuery \x7b int n = 1 \x7d" = .ok script ∧
      ∀ type ∈ script.declaredTypes, firstSegment type ≠ "else" := exists_ok (by decide +kernel)
  obtain ⟨script, hread, htypes⟩ := hcheck
  have hexpand := expandText_of_read Settings.validate_standard hread
  exact ⟨_, _, hexpand, expandText_stable hread htypes hexpand⟩

end QueryBlocks
