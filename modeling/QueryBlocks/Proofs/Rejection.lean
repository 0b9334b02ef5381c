import QueryBlocks.Proofs.Expansion
import QueryBlocks.Proofs.Program.Legible

/-!
Queries whose programs cannot be read. A query is rejected, and the report has an internal problem,
if a value that its program stores is spread, or a type that it stores begins with a reserved word
that is no literal. Otherwise its program is read. Inside values, a declared type must not begin
with `else`: behind a branch it would be taken for the other branch.
-/
namespace QueryBlocks

open QueryBlocks.Token

/-- No value that is written in the block declares a type that begins with `else`. -/
def Written.ElseFree (b : Block) : Prop :=
  ∀ c ∈ Written.clauses b, ∀ e ∈ c.values, ∀ type ∈ e.declaredTypes, firstSegment type ≠ "else"

instance (b : Block) : Decidable (Written.ElseFree b) :=
  inferInstanceAs (Decidable (∀ c ∈ Written.clauses b, _))

instance (w : String) : Decidable (StartsExpr w) := inferInstanceAs (Decidable (_ ∨ _))

instance (c : Written.Clause) : Decidable c.Plain :=
  decidable_of_iff (_ ∧ _) ⟨fun h => ⟨h.1, h.2⟩, fun h => ⟨h.1, h.2⟩⟩

section

variable {given settings : Settings} {lookup : TypeLookup} {reader : CodeReader}

/-- The program for a block is read exactly if all that the block stores can be assigned. -/
theorem Program.read_code_iff {block : Block} (hsettings : given.validate = .ok settings)
    (hblock : block.Parsed) (helse : Written.ElseFree block) :
    (∃ again, Block.read (Program.code settings
        (compile settings lookup block.statements).1.clauses) = .ok again) ↔
      ∀ c ∈ Written.clauses block, c.Plain := by
  have hclauses : (compile settings lookup block.statements).1.clauses =
      (Written.clauses block).map Written.Clause.text := compile_clauses settings lookup _
  have hgiven : ∀ c ∈ Written.clauses block, c.Given Declarable := fun c hc =>
    (Written.given_of_parsed hblock c hc).declarable (helse c hc)
  rw [hclauses]
  exact (legible_program (Settings.suffix_of_validate hsettings) hgiven).read_iff

theorem Site.exists_rejection_iff {site : Site} :
    (∃ d, site.rejection? settings lookup reader = some d) ↔
      site.isQuery = true ∧ ¬ ∃ body, reader (site.code settings lookup) = .ok body := by
  unfold Site.rejection?
  cases site.isQuery <;> cases reader (site.code settings lookup) <;> simp

/-- The report has an internal problem exactly if a query is there whose program is not read. -/
theorem Script.exists_internal_iff (script : Script) :
    (∃ d ∈ (script.expandWith settings lookup reader).2.diagnostics, d.category = .internal) ↔
      ∃ path site, (Part.script script).SiteAt settings path site ∧ site.isQuery = true ∧
        ¬ ∃ body, reader (site.code settings lookup) = .ok body := by
  have hinternal := Site.internal_report settings lookup reader
    (((Part.script script).sites settings).map (·.2))
  rw [← script.report_expandWith] at hinternal
  calc
    _ ↔ ∃ d, d ∈ (script.expandWith settings lookup reader).2.diagnostics.filter
          (fun x => x.category == .internal) := by simp
    _ ↔ ∃ path site, (Part.script script).SiteAt settings path site ∧
          ∃ d, site.rejection? settings lookup reader = some d := by
      rw [hinternal]
      simp only [List.mem_filterMap, List.mem_map, Prod.exists, ← Part.mem_sites]
      grind
    _ ↔ _ := by simp only [Site.exists_rejection_iff]

end

section

variable {given settings : Settings} {source : String} {script : Script} {path : List Nat}
  {site : Site} (hsettings : given.validate = .ok settings)
  (hread : Script.read source = .ok script)
  (hsite : (Part.script script).SiteAt settings path site)

include hsettings hread hsite

theorem Site.read_code_iff (lookup : TypeLookup) (helse : Written.ElseFree site.body) :
    (∃ body, CodeReader.standard (site.code settings lookup) = .ok body) ↔
      ∀ c ∈ Written.clauses site.body, c.Plain := by
  simp only [CodeReader.standard_eq_ok]
  exact Program.read_code_iff hsettings (.script hread hsite.find_body) helse

/-- One stored value that cannot be assigned is enough. -/
theorem Script.exists_internal (hquery : site.isQuery = true)
    (helse : Written.ElseFree site.body) {c : Written.Clause} (hc : c ∈ Written.clauses site.body)
    (hplain : ¬ c.Plain) :
    ∃ d ∈ (script.expand settings).2.diagnostics, d.category = .internal := by
  refine script.exists_internal_iff.2 ⟨path, site, hsite, hquery, fun hbody => hplain ?_⟩
  exact (Site.read_code_iff hsettings hread hsite _ helse).1 hbody c hc

end

/-- A script that can be read is expanded. There is no internal problem if everything that its
queries store can be assigned, and there is one if something cannot: a value that is spread, or a
type that begins with a word no expression begins with. The program for a block is read exactly if
all that the block stores can be assigned. A query with a value that declares a type beginning with
`else` is left open, in both directions: whether its program is read depends on what stands before
the declaration, since behind a branch the type is taken for the other branch. -/
theorem expandText_internal {given settings : Settings}
    (hsettings : given.validate = .ok settings) :
    (∀ source script, Script.read source = .ok script →
      ∃ out report, expandText given source = .ok (out, report) ∧
        ((∀ path site, (Part.script script).SiteAt settings path site → site.isQuery = true →
            Written.ElseFree site.body ∧ ∀ c ∈ Written.clauses site.body, c.Plain) →
          ∀ d ∈ report.diagnostics, d.category ≠ .internal) ∧
        ((∃ path site, (Part.script script).SiteAt settings path site ∧ site.isQuery = true ∧
            Written.ElseFree site.body ∧ ∃ c ∈ Written.clauses site.body, ¬ c.Plain) →
          ∃ d ∈ report.diagnostics, d.category = .internal)) ∧
    ∀ (lookup : TypeLookup) (block : Block), block.Parsed → Written.ElseFree block →
      ((∃ again, Block.read (Program.code settings
          (compile settings lookup block.statements).1.clauses) = .ok again) ↔
        ∀ c ∈ Written.clauses block, c.Plain) := by
  refine ⟨fun source script hread => ?_,
    fun lookup block hblock helse => Program.read_code_iff hsettings hblock helse⟩
  refine ⟨_, _, expandText_of_read hsettings hread, fun hplain d hd hinternal => ?_, ?_⟩
  · obtain ⟨path, site, hsite, hquery, hunread⟩ := script.exists_internal_iff.1 ⟨d, hd, hinternal⟩
    obtain ⟨helse, hclauses⟩ := hplain path site hsite hquery
    exact hunread ((Site.read_code_iff hsettings hread hsite _ helse).2 hclauses)
  · rintro ⟨path, site, hsite, hquery, helse, c, hc, hspread⟩
    exact Script.exists_internal hsettings hread hsite hquery helse hc hspread

/-- A type may begin with a literal, but not with an operator. -/
theorem expandText_internal_types :
    (∃ out report, expandText .standard
        "class A \x7b def f(k) \x7b datastore.executeQuery \x7b select all, limit(-5)
        from pojo as true.Person, childOf = \x7b x -> int y = x; y \x7d
        where age in [1, *more] \x7d \x7d \x7d" = .ok (out, report) ∧
      ∀ d ∈ report.diagnostics, d.category ≠ .internal) ∧
    ∃ out report, expandText .standard
        "def q = Entitystore.defineQuery \x7b select keys\n from pojo as in.Person \x7d" =
          .ok (out, report) ∧
      ∃ d ∈ report.diagnostics, d.category = .internal := by
  have hvalidate := Settings.validate_standard
  constructor
  · have hcheck : ∃ script, Script.read
        "class A \x7b def f(k) \x7b datastore.executeQuery \x7b select all, limit(-5)
        from pojo as true.Person, childOf = \x7b x -> int y = x; y \x7d
        where age in [1, *more] \x7d \x7d \x7d" = .ok script ∧
        ∀ x ∈ (Part.script script).sites .standard, x.2.isQuery = true →
          Written.ElseFree x.2.body ∧ ∀ c ∈ Written.clauses x.2.body, c.Plain :=
      exists_ok (by decide +kernel)
    obtain ⟨script, hread, hplain⟩ := hcheck
    obtain ⟨out, report, hexpand, hnone, -⟩ := (expandText_internal hvalidate).1 _ script hread
    exact ⟨out, report, hexpand, hnone fun path site h => hplain (path, site) (Part.mem_sites.2 h)⟩
  · have hcheck : ∃ script, Script.read
        "def q = Entitystore.defineQuery \x7b select keys\n from pojo as in.Person \x7d" =
          .ok script ∧
        ∃ x ∈ (Part.script script).sites .standard, x.2.isQuery = true ∧
          Written.ElseFree x.2.body ∧ ∃ c ∈ Written.clauses x.2.body, ¬ c.Plain :=
      exists_ok (by decide +kernel)
    obtain ⟨script, hread, ⟨path, site⟩, hsite, hbroken⟩ := hcheck
    obtain ⟨out, report, hexpand, -, hsome⟩ := (expandText_internal hvalidate).1 _ script hread
    exact ⟨out, report, hexpand, hsome ⟨path, site, Part.mem_sites.1 hsite, hbroken⟩⟩

/-- A limit that is spread is taken into the query, and then its program is not read. -/
theorem spread_limit_rejected : Settings.standard.validate = .ok .standard ∧ ∃ script,
    Script.read
      "def a = datastore.executeQuery \x7b\n  select all, limit(*n)\n  from Person\n\x7d" =
        .ok script ∧
    ∃ out report, expandText .standard
        "def a = datastore.executeQuery \x7b\n  select all, limit(*n)\n  from Person\n\x7d" =
          .ok (out, report) ∧
      ∃ d ∈ report.diagnostics, d.category = .internal := by
  have hvalidate := Settings.validate_standard
  have hcheck : ∃ script, Script.read
      "def a = datastore.executeQuery \x7b\n  select all, limit(*n)\n  from Person\n\x7d" =
        .ok script ∧
      ∃ x ∈ (Part.script script).sites .standard, x.2.isQuery = true ∧
        Written.ElseFree x.2.body ∧ ∃ c ∈ Written.clauses x.2.body, ¬ c.Plain :=
    exists_ok (by decide +kernel)
  obtain ⟨script, hread, ⟨path, site⟩, hsite, hquery, helse, c, hc, hspread⟩ := hcheck
  exact ⟨hvalidate, script, hread, _, _, expandText_of_read hvalidate hread,
    Script.exists_internal hvalidate hread (Part.mem_sites.1 hsite) hquery helse hc hspread⟩

end QueryBlocks
