import QueryBlocks.Command.Run

/-! The command line. -/
namespace QueryBlocks.Main

/-- The number of an error; the system may give it negated. -/
def errorNumber (code : UInt32) : UInt32 := if code < 0x80000000 then code else -code

def fileError : IO.Error → FileError
  | .noFileOrDirectory .. => .missing
  | .inappropriateType _ code _ => if errorNumber code = 20 then .notDirectory else .directory
  | .permissionDenied .. => .other "Permission denied (os error 13)"
  | .userError _ => .other "stream did not contain valid UTF-8"
  | .invalidArgument _ code details =>
    if errorNumber code = 36 then .nameTooLong else .other details
  | e => .other (toString e)

def attempt {α : Type} (act : IO α) : IO (Except FileError α) := do
  try return .ok (← act) catch e => return .error (fileError e)

/-- A file that is there but cannot be read counts as there. -/
def exists? (path : String) : IO Bool := do
  match ← attempt (IO.FS.readFile path) with
  | .error .missing | .error .notDirectory | .error .nameTooLong => return false
  | _ => return true

def access : FileAccess IO where
  exists?
  read path := attempt (IO.FS.readFile path)
  write path content := attempt (IO.FS.writeFile path content)

def usage : String :=
  "usage: kindql [-c CONFIG] [--suffix TEXT] transform FILE [-o OUT] | " ++
    "check FILE [-f text|json] | explain FILE"

def userDirectory : IO (Option String) := do
  match ← IO.getEnv "XDG_CONFIG_HOME" with
  | some directory => return some directory
  | none => return (← IO.getEnv "HOME").map (· ++ "/.config")

end QueryBlocks.Main

open QueryBlocks in
def main (args : List String) : IO UInt32 := do
  match Invocation.ofArgs? args with
  | none =>
    IO.eprintln Main.usage
    return 2
  | some inv =>
    let config := inv.config.or (← IO.getEnv "KINDQL_CONFIG")
    let result ← { inv with config }.run Main.access (← Main.userDirectory)
    IO.print result.output
    IO.eprint result.errors
    return result.status.toUInt32
