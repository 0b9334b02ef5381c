import QueryBlocks.Expansion
import QueryBlocks.Proofs.Query.Category
import QueryBlocks.Proofs.Site.Refill
import Mathlib.Data.List.Forall2

/-!
What expanding a script changes, and what is reported about it. Only the bodies of sites that are
queries and whose program can be read change; each of them has its entry in the report.
-/
namespace QueryBlocks

theorem CodeReader.standard_eq_ok {text : String} {block : Block} :
    CodeReader.standard text = .ok block ↔ Block.read text = .ok block := by
  unfold CodeReader.standard
  cases Block.read text <;> simp [Except.mapError]

namespace Site

section

variable (settings : Settings) (lookup : TypeLookup) (reader : CodeReader) (site : Site)

def isQuery : Bool := (classify site.body.statements).isSome

/-- The query of a body on its own, and the problems of compiling it. -/
def compiled : Query × List Diagnostic := compile settings lookup site.body.statements

def code : String := Program.code settings (site.compiled settings lookup).1.clauses

/-- What the body of a site gives way to. -/
def replacement? : Option Block :=
  if site.isQuery then (reader (site.code settings lookup)).toOption else none

/-- The problem of a query whose program cannot be read. -/
def rejection? : Option Diagnostic :=
  match site.isQuery, reader (site.code settings lookup) with
  | true, .error e => some ⟨.unreadableCode e.message, site.pos⟩
  | _, _ => none

/-- An entry of the report speaks of this site, and of its body alone. -/
structure Describes (entry : ExpandedQuery) : Prop where
  pos : entry.pos = site.pos
  receiver : entry.receiver = site.receiver
  method : entry.method = site.method
  classification : classify site.body.statements = some entry.classification
  query : entry.query = (site.compiled settings lookup).1
  code : entry.code = site.code settings lookup

end

variable (settings : Settings) (lookup : TypeLookup) (reader : CodeReader) (site : Site)

/-- The entry of a site whose body is replaced. -/
def entry (classification : Classification) : ExpandedQuery where
  pos := site.pos
  receiver := site.receiver
  method := site.method
  classification := classification
  query := (site.compiled settings lookup).1
  code := site.code settings lookup

theorem describes_entry {classification : Classification}
    (h : classify site.body.statements = some classification) :
    site.Describes settings lookup (site.entry settings lookup classification) := by
  constructor <;> simp only [entry, h]

theorem expand_eq : site.expand settings lookup reader =
    match classify site.body.statements with
    | none => (site.body, [])
    | some classification =>
      match reader (site.code settings lookup) with
      | .ok body =>
        (body, [⟨(site.compiled settings lookup).2,
          some (site.entry settings lookup classification)⟩])
      | .error e =>
        (site.body, [⟨(site.compiled settings lookup).2 ++
          [⟨.unreadableCode e.message, site.pos⟩], none⟩]) := rfl

/-- A site is left alone, replaced or rejected. -/
theorem expand_cases :
    (site.isQuery = false ∧ site.expand settings lookup reader = (site.body, [])) ∨
    (∃ body entry, site.isQuery = true ∧ reader (site.code settings lookup) = .ok body ∧
      site.Describes settings lookup entry ∧
      site.expand settings lookup reader =
        (body, [⟨(site.compiled settings lookup).2, some entry⟩])) ∨
    ∃ e, site.isQuery = true ∧ reader (site.code settings lookup) = .error e ∧
      site.expand settings lookup reader = (site.body,
        [⟨(site.compiled settings lookup).2 ++ [⟨.unreadableCode e.message, site.pos⟩],
          none⟩]) := by
  rw [expand_eq]
  cases hclass : classify site.body.statements with
  | none => exact .inl ⟨by simp [isQuery, hclass], rfl⟩
  | some classification =>
    have hquery : site.isQuery = true := by simp [isQuery, hclass]
    cases hread : reader (site.code settings lookup) with
    | ok body =>
      exact .inr (.inl ⟨body, _, hquery, rfl, site.describes_entry settings lookup hclass, rfl⟩)
    | error e => exact .inr (.inr ⟨e, hquery, rfl, rfl⟩)

theorem expand_body :
    (site.expand settings lookup reader).1 =
      (site.replacement? settings lookup reader).getD site.body := by
  rcases site.expand_cases settings lookup reader with
    ⟨hq, h⟩ | ⟨body, entry, hq, hr, -, h⟩ | ⟨e, hq, hr, h⟩
  · simp [h, replacement?, hq]
  · simp [h, replacement?, hq, hr, Except.toOption]
  · simp [h, replacement?, hq, hr, Except.toOption]

/-- The report on sites, one after the other. -/
def report (sites : List Site) : Report :=
  .ofSites (sites.flatMap fun site => (site.expand settings lookup reader).2)

theorem queries_report (sites : List Site) :
    List.Forall₂ (Describes settings lookup)
      (sites.filter fun site => (site.replacement? settings lookup reader).isSome)
      (report settings lookup reader sites).queries := by
  induction sites with
  | nil => exact .nil
  | cons site more ih =>
    simp only [report, Report.ofSites, List.flatMap_cons, List.filterMap_append] at ih ⊢
    rcases site.expand_cases settings lookup reader with
      ⟨hq, h⟩ | ⟨body, entry, hq, hr, hd, h⟩ | ⟨e, hq, hr, h⟩
    · simpa [h, replacement?, hq] using ih
    · simpa [h, replacement?, hq, hr, Except.toOption] using ⟨hd, ih⟩
    · simpa [h, replacement?, hq, hr, Except.toOption] using ih

theorem filter_internal_compiled :
    (site.compiled settings lookup).2.filter (fun x => x.category == .internal) = [] := by
  rw [List.filter_eq_nil_iff]
  intro x hx
  simpa using compile_category_ne_internal hx

theorem filter_other_compiled :
    (site.compiled settings lookup).2.filter (fun x => x.category != .internal) =
      (site.compiled settings lookup).2 := by
  rw [List.filter_eq_self]
  intro x hx
  simpa using compile_category_ne_internal hx

theorem category_unreadable {reason : String} {pos : Position} :
    Diagnostic.category ⟨.unreadableCode reason, pos⟩ = .internal := rfl

theorem internal_report (sites : List Site) :
    (report settings lookup reader sites).diagnostics.filter (fun x => x.category == .internal) =
      sites.filterMap (rejection? settings lookup reader) := by
  induction sites with
  | nil => rfl
  | cons site more ih =>
    simp only [report, Report.ofSites, List.flatMap_cons, List.flatMap_append,
      List.filter_append] at ih ⊢
    rw [ih, List.filterMap_cons]
    rcases site.expand_cases settings lookup reader with
      ⟨hq, h⟩ | ⟨body, entry, hq, hr, hd, h⟩ | ⟨e, hq, hr, h⟩
    · simp [h, rejection?, hq]
    · simp [h, rejection?, hq, hr, filter_internal_compiled]
    · simp [h, rejection?, hq, hr, filter_internal_compiled, category_unreadable]

theorem other_report (sites : List Site) :
    (report settings lookup reader sites).diagnostics.filter (fun x => x.category != .internal) =
      (sites.filter isQuery).flatMap fun site => (site.compiled settings lookup).2 := by
  induction sites with
  | nil => rfl
  | cons site more ih =>
    simp only [report, Report.ofSites, List.flatMap_cons, List.flatMap_append,
      List.filter_append] at ih ⊢
    rw [ih, List.filter_cons]
    rcases site.expand_cases settings lookup reader with
      ⟨hq, h⟩ | ⟨body, entry, hq, hr, hd, h⟩ | ⟨e, hq, hr, h⟩
    · simp [h, hq]
    · simp [h, hq, filter_other_compiled]
    · simp [h, hq, filter_other_compiled, category_unreadable]

end Site

/-- The report speaks of all sites, one after the other. -/
theorem Script.report_expandWith (settings : Settings) (lookup : TypeLookup) (reader : CodeReader)
    (script : Script) : (script.expandWith settings lookup reader).2 =
      Site.report settings lookup reader (((Part.script script).sites settings).map (·.2)) := by
  have hsaid := Part.said_atSites settings (Site.expand settings lookup reader) (.script script)
  simp only [Part.atSites_script, Prod.map_snd, id] at hsaid
  simp [Script.expandWith, hsaid, Site.report, List.flatMap_map]

/-- Expanding exchanges the bodies of the outermost sites outside skipped methods that are queries
and whose program is read, and nothing else. The report has one entry for each of them, one
internal problem for each query whose program is refused, and the problems of compiling each query,
all in the order of the sites. -/
theorem Script.expandWith_effect (settings : Settings) (lookup : TypeLookup) (reader : CodeReader)
    (script : Script) :
    ∃ sites : List (List Nat × Site),
      (∀ path site, (path, site) ∈ sites ↔ (Part.script script).SiteAt settings path site) ∧
      sites.Pairwise (·.1 < ·.1) ∧
      (∀ after, script.Refilled settings (Site.replacement? settings lookup reader) after ↔
        after = (script.expandWith settings lookup reader).1) ∧
      List.Forall₂ (Site.Describes settings lookup)
        ((sites.map (·.2)).filter fun site => (site.replacement? settings lookup reader).isSome)
        (script.expandWith settings lookup reader).2.queries ∧
      (script.expandWith settings lookup reader).2.diagnostics.filter
          (fun x => x.category == .internal) =
        (sites.map (·.2)).filterMap (Site.rejection? settings lookup reader) ∧
      (script.expandWith settings lookup reader).2.diagnostics.filter
          (fun x => x.category != .internal) =
        ((sites.map (·.2)).filter Site.isQuery).flatMap
          fun site => (site.compiled settings lookup).2 := by
  let sites := (Part.script script).sites settings
  have hreport := script.report_expandWith settings lookup reader
  have hrefilled : script.Refilled settings (Site.replacement? settings lookup reader)
      (script.expandWith settings lookup reader).1 :=
    .of_atSites (Site.expand_body settings lookup reader)
  refine ⟨sites, fun _ _ => Part.mem_sites, Part.pairwise_sites, fun after => ?_, ?_, ?_, ?_⟩
  · exact ⟨fun h => hrefilled.unique h, fun h => h ▸ hrefilled⟩
  · rw [hreport]
    exact Site.queries_report settings lookup reader _
  · rw [hreport]
    exact Site.internal_report settings lookup reader _
  · rw [hreport]
    exact Site.other_report settings lookup reader _

/-- The text of a script is expanded if the settings are good and it can be read. -/
theorem expandText_eq_ok {given : Settings} {source out : String} {report : Report} :
    expandText given source = .ok (out, report) ↔ ∃ settings script,
      given.validate = .ok settings ∧ Script.read source = .ok script ∧
        (script.expand settings).1.text = out ∧ (script.expand settings).2 = report := by
  unfold expandText
  cases given.validate <;> cases Script.read source <;>
    simp [Except.mapError, bind, Except.bind, pure, Except.pure]

theorem expandText_of_read {given settings : Settings} {source : String} {script : Script}
    (hsettings : given.validate = .ok settings) (hread : Script.read source = .ok script) :
    expandText given source =
      .ok ((script.expand settings).1.text, (script.expand settings).2) := by
  simp only [expandText, hsettings, hread, Except.mapError]
  rfl

end QueryBlocks
