import QueryBlocks.Program.Code
import QueryBlocks.Query.Classify
import QueryBlocks.Query.Compile
import QueryBlocks.Script.Read
import QueryBlocks.Site

/-!
Expanding the query blocks of a script. A block that is a query gives way to the program that runs
it; the generated text is read back by the parser of scripts before it takes the block's place.
-/
namespace QueryBlocks

/-- A query that has been expanded. -/
structure ExpandedQuery where
  pos : Position
  receiver : String
  method : String
  classification : Classification
  query : Query
  code : String

/-- What comes of one site: its problems, and its query if the block was replaced. -/
structure SiteReport where
  diagnostics : List Diagnostic
  query : Option ExpandedQuery

structure Report where
  diagnostics : List Diagnostic
  queries : List ExpandedQuery

namespace Report

def ofSites (sites : List SiteReport) : Report :=
  ⟨sites.flatMap SiteReport.diagnostics, sites.filterMap SiteReport.query⟩

def hasProblems (r : Report) : Bool := !r.diagnostics.isEmpty

end Report

/-- Why generated text was not taken. -/
inductive RereadError where
  | syntactic (error : ParseError)
  | refused (reason : String)

def RereadError.message : RereadError → String
  | syntactic error => error.message
  | refused reason => "Generated code does not parse: " ++ reason

/-- Turns generated text into a block. -/
abbrev CodeReader := String → Except RereadError Block

def CodeReader.standard : CodeReader := fun text => (Block.read text).mapError .syntactic

/-- Expand the block of one site. A block that is no query stays as it is, and so does one whose
program cannot be read. -/
def Site.expand (settings : Settings) (lookup : TypeLookup) (reader : CodeReader) :
    SiteAction SiteReport := fun site =>
  match classify site.body.statements with
  | none => (site.body, [])
  | some classification =>
    let (query, diagnostics) := compile settings lookup site.body.statements
    let code := Program.code settings query.clauses
    match reader code with
    | .ok body =>
      (body, [⟨diagnostics, some
        ⟨site.pos, site.receiver, site.method, classification, query, code⟩⟩])
    | .error e =>
      (site.body, [⟨diagnostics ++ [⟨.unreadableCode e.message, site.pos⟩], none⟩])

namespace Script

def expandWith (settings : Settings) (lookup : TypeLookup) (reader : CodeReader)
    (script : Script) : Script × Report :=
  let (script, sites) := script.atSites settings (Site.expand settings lookup reader)
  (script, .ofSites sites)

/-- Expand a script whose own classes are the types of its queries. -/
def expand (settings : Settings) (script : Script) : Script × Report :=
  script.expandWith settings (Catalogue.ofScript script settings).lookup .standard

end Script

inductive ExpandError where
  | settings (fault : Settings.Fault)
  | parse (error : ParseError)

def ExpandError.message : ExpandError → String
  | settings fault => fault.message
  | parse error => error.message

/-- Expand the text of a script. The settings are checked before the text is read. -/
def expandText (settings : Settings) (text : String) : Except ExpandError (String × Report) := do
  let settings ← settings.validate.mapError .settings
  let script ← (Script.read text).mapError .parse
  let (script, report) := script.expand settings
  return (script.text, report)

end QueryBlocks
