import QueryBlocks.Settings
import QueryBlocks.Toml.Read

/-! Settings written as TOML. Every key must be known, and what is left out stays as it is. -/
namespace QueryBlocks

namespace Toml.Value

def text? : Value → Option String
  | text s => some s
  | _ => none

def truth? : Value → Option Bool
  | truth b => some b
  | _ => none

def texts? : Value → Option (List String)
  | list items => items.mapM text?
  | _ => none

def types? : Value → Option (List (String × List String))
  | table _ entries => entries.mapM fun (name, fields) => return (name, ← fields.texts?)
  | _ => none

end Toml.Value

namespace Settings

/-- Change the setting of one key. -/
def setKey (s : Settings) (key : String) (value : Toml.Value) : Option Settings :=
  match key with
  | "receivers" => return s.withReceivers (← value.texts?)
  | "methods" => return s.withMethods (← value.texts?)
  | "suffix" => return s.withSuffix (← value.text?)
  | "key_property" => return s.withKeyProperty (← value.text?)
  | "skip_methods" => return { s with skipMethods := ← value.texts? }
  | "strict_types" => return s.withStrictTypes (← value.truth?)
  | "types" => do
    return (← value.types?).foldl (fun s (name, fields) => s.withType name fields)
      { s with types := [] }
  | _ => none

def ofTable? (table : Toml.Table) : Option Settings :=
  table.foldlM (fun s (key, value) => s.setKey key value) standard

inductive ReadError where
  /-- The document is not well formed, or has a key or a value that settings do not have. -/
  | malformed
  | fault (f : Fault)
deriving DecidableEq, Repr

def ReadError.message : ReadError → String
  | malformed => "Invalid configuration file"
  | fault f => f.message

/-- Read settings and check them. -/
def read (document : String) : Except ReadError Settings :=
  match (Toml.read? document).bind ofTable? with
  | none => .error .malformed
  | some s => s.validate.mapError .fault

end Settings

end QueryBlocks
