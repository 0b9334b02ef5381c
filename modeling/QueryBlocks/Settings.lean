import QueryBlocks.Script.Token

/-! Settings of the compiler. -/
namespace QueryBlocks

structure Settings where
  /-- Names of stores that take query blocks. -/
  receivers : List String
  /-- Names of the methods that take them. -/
  methods : List String
  /-- Ends every generated name, so that none meets a name of the script. -/
  suffix : String
  /-- The field that stands for the key of a row. -/
  keyProperty : String
  /-- Methods that are left alone. -/
  skipMethods : List String
  /-- Whether an unknown type is a problem. -/
  strictTypes : Bool
  /-- Types and their fields, sorted by name. -/
  types : List (String × List String)
deriving DecidableEq, Repr

namespace Settings

def standard : Settings where
  receivers := ["datastore", "Entitystore"]
  methods := ["executeQuery", "defineQuery"]
  suffix := "__kql"
  keyProperty := "KEY_RESERVED_PROPERTY"
  skipMethods := ["main"]
  strictTypes := true
  types := []

/-- Why settings are refused. -/
inductive Fault where
  | emptySuffix
  | badSuffix (suffix : String)
  | noEntry
  | emptyKeyProperty
deriving DecidableEq, Repr

def Fault.detail : Fault → String
  | emptySuffix => "suffix must not be empty"
  | badSuffix suffix => "suffix '" ++ suffix ++ "' is not a valid identifier part"
  | noEntry => "at least one receiver and one method are required"
  | emptyKeyProperty => "key_property must not be empty"

def Fault.message (f : Fault) : String := "Configuration error: " ++ f.detail

/-- The settings, unless something is wrong with them. -/
def validate (s : Settings) : Except Fault Settings :=
  if s.suffix.isEmpty then .error .emptySuffix
  else if !s.suffix.toList.all Token.isWordChar then .error (.badSuffix s.suffix)
  else if s.receivers.isEmpty || s.methods.isEmpty then .error .noEntry
  else if s.keyProperty.isEmpty then .error .emptyKeyProperty
  else .ok s

/-- The standard settings pass their own check. -/
theorem validate_standard : standard.validate = .ok standard := rfl

/-- The name of a generated variable. -/
def slot (s : Settings) (name : String) : String := name ++ s.suffix

/-- Put a type into a sorted list of types; an entry of the same name gives way. -/
def putType (name : String) (fields : List String) :
    List (String × List String) → List (String × List String)
  | [] => [(name, fields)]
  | (other, known) :: more =>
    if name < other then (name, fields) :: (other, known) :: more
    else if name = other then (name, fields) :: more
    else (other, known) :: putType name fields more

def withReceivers (s : Settings) (names : List String) : Settings := { s with receivers := names }

def withMethods (s : Settings) (names : List String) : Settings := { s with methods := names }

def withSuffix (s : Settings) (suffix : String) : Settings := { s with suffix }

def withKeyProperty (s : Settings) (name : String) : Settings := { s with keyProperty := name }

def withStrictTypes (s : Settings) (strict : Bool) : Settings := { s with strictTypes := strict }

def withType (s : Settings) (name : String) (fields : List String) : Settings :=
  { s with types := putType name fields s.types }

end Settings

end QueryBlocks
