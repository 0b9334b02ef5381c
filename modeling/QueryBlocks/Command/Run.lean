import QueryBlocks.Command.Files
import QueryBlocks.Command.Invocation
import QueryBlocks.Expansion
import QueryBlocks.Query.Json
import QueryBlocks.Settings.Read
import QueryBlocks.Text.Blank

/-! Running a command: find the settings, expand the script, and say what came of it. -/
namespace QueryBlocks

/-- What a command leaves behind, apart from files. -/
structure Result where
  status : Nat
  output : String
  errors : String
deriving DecidableEq, Repr

/-- Why a command could not do its work. -/
inductive CommandError where
  | configFile (error : FileError)
  | config (error : Settings.ReadError)
  | reading (file : String) (error : FileError)
  | expanding (file : String) (error : ExpandError)
  | writing (file : String) (error : FileError)

def CommandError.message : CommandError → String
  | configFile error => "IO error: " ++ error.message ++ ": " ++ error.message
  | config error => error.message
  | reading file error => "Failed to read '" ++ file ++ "': " ++ error.message
  | expanding file error => "Failed to transform '" ++ file ++ "': " ++ error.message
  | writing file error => "Failed to write '" ++ file ++ "': " ++ error.message

namespace Diagnostic

/-- A diagnostic as a line that names its file. -/
def line (file : String) (d : Diagnostic) : String :=
  file ++ ":" ++ d.pos.text ++ ": " ++ d.category.text ++ " error: " ++ d.message ++ "\n"

def lines (file : String) (ds : List Diagnostic) : String := String.join (ds.map (line file))

end Diagnostic

namespace Report

/-- One if there are problems. -/
def status (r : Report) : Nat := if r.hasProblems then 1 else 0

/-- The outcome of a check, for people. -/
def verdict (r : Report) : String :=
  let count := toString r.queries.length ++ " query block(s)"
  if r.hasProblems then
    "\n✗ " ++ toString r.diagnostics.length ++ " problem(s) in " ++ count ++ "\n"
  else "✓ " ++ count ++ ", no problems\n"

end Report

/-- A query and its program, for people. -/
def ExpandedQuery.explanation (q : ExpandedQuery) : String :=
  "Query " ++ q.receiver ++ "." ++ q.method ++ " at " ++ q.pos.text ++ "\n" ++
    q.query.json.pretty 0 ++ "\n\nGenerated:\n" ++
    String.join ((Text.lines q.code.toList).map fun l => "  " ++ String.ofList l ++ "\n") ++ "\n"

namespace Invocation

/-- The file of settings in the working directory. -/
def localConfig : String := "kindql.toml"

/-- The file of settings below the user's configuration directory. -/
def userConfig (directory : String) : String := directory ++ "/kindql/config.toml"

variable {m : Type → Type} [Monad m] (files : FileAccess m)

def readConfig (path : String) : ExceptT CommandError m Settings := do
  match ← files.read path with
  | .error error => throw (.configFile error)
  | .ok document =>
    match Settings.read document with
    | .ok settings => return settings
    | .error error => throw (.config error)

/-- The first file there is, or the standard settings. -/
def searchConfig : List String → ExceptT CommandError m Settings
  | [] => return .standard
  | path :: more => do
    if ← files.exists? path then readConfig files path else searchConfig more

/-- A named file counts alone; otherwise the usual places are searched. -/
def findSettings (inv : Invocation) (userDirectory : Option String) :
    ExceptT CommandError m Settings := do
  let settings ← match inv.config with
    | some path => readConfig files path
    | none => searchConfig files (localConfig :: (userDirectory.map userConfig).toList)
  return { settings with suffix := inv.suffix.getD settings.suffix }

/-- Read and expand a script. -/
def expandFile (settings : Settings) (file : String) :
    ExceptT CommandError m (String × Report) := do
  match ← files.read file with
  | .error error => throw (.reading file error)
  | .ok text =>
    match expandText settings text with
    | .ok result => return result
    | .error error => throw (.expanding file error)

/-- The problems of a script are reported even if its expansion cannot be written. -/
def transform (settings : Settings) (file : String) (target : Option String) :
    ExceptT CommandError m Result := do
  let (text, report) ← expandFile files settings file
  let problems := Diagnostic.lines file report.diagnostics
  match target with
  | none => return ⟨report.status, text, problems⟩
  | some path =>
    match ← files.write path text with
    | .ok () =>
      let done := "✓ Rewrote " ++ toString report.queries.length ++ " query block(s) into " ++
        path ++ "\n"
      return ⟨report.status, done, problems⟩
    | .error error =>
      return ⟨2, "", problems ++ "Error: " ++ (CommandError.writing path error).message ++ "\n"⟩

def check (settings : Settings) (file : String) (format : Format) :
    ExceptT CommandError m Result := do
  let (_, report) ← expandFile files settings file
  match format with
  | .json =>
    return ⟨report.status, (Json.ofList Diagnostic.json report.diagnostics).pretty 0 ++ "\n", ""⟩
  | .text =>
    return ⟨report.status, report.verdict, Diagnostic.lines file report.diagnostics⟩

def explain (settings : Settings) (file : String) : ExceptT CommandError m Result := do
  let (_, report) ← expandFile files settings file
  let text := if report.queries.isEmpty then "(no query blocks)\n"
    else String.join (report.queries.map ExpandedQuery.explanation)
  return ⟨report.status, text, Diagnostic.lines file report.diagnostics⟩

def perform (inv : Invocation) (userDirectory : Option String) :
    ExceptT CommandError m Result := do
  let settings ← inv.findSettings files userDirectory
  match inv.action with
  | .transform file output => transform files settings file output
  | .check file format => check files settings file format
  | .explain file => explain files settings file

/-- Do what was asked for. An error takes the place of all output. -/
def run (inv : Invocation) (userDirectory : Option String) : m Result := do
  match ← (inv.perform files userDirectory).run with
  | .ok result => return result
  | .error error => return ⟨2, "", "Error: " ++ error.message ++ "\n"⟩

end Invocation

end QueryBlocks
