import QueryBlocks.Schema.FieldSet
import QueryBlocks.Settings

/-! Finding the types that queries name. It serves diagnostics only. -/
namespace QueryBlocks

/-- What a compiler may ask about types. -/
structure TypeLookup where
  /-- The fields of a type; without them fields are not checked. -/
  fields : String → Option FieldSet
  /-- Whether there is such a type. -/
  knows : String → Bool

namespace TypeLookup

/-- Accepts every type and has the fields of none. -/
def permissive : TypeLookup := ⟨fun _ => none, fun _ => true⟩

end TypeLookup

/-- Types by simple name. Of two entries with one name the later counts. -/
structure Catalogue where
  strict : Bool
  entries : List FieldSet
deriving Repr

namespace Catalogue

def empty (strict : Bool) : Catalogue := ⟨strict, []⟩

def insert (c : Catalogue) (fields : FieldSet) : Catalogue :=
  { c with entries := fields :: c.entries }

def find? (c : Catalogue) (type : String) : Option FieldSet :=
  c.entries.find? fun entry => entry.typeName == Token.simpleName type

/-- The types of the settings, then the classes of the script. -/
def ofScript (script : Script) (settings : Settings) : Catalogue :=
  let declared := settings.types.map fun (name, fields) =>
    FieldSet.ofList (Token.simpleName name) fields
  let classes := script.classes.map fun c => FieldSet.ofList c.name (c.fields.map Field.name)
  (declared ++ classes).foldl insert (empty settings.strictTypes)

def lookup (c : Catalogue) : TypeLookup where
  fields := c.find?
  knows type := !c.strict || (c.find? type).isSome

end Catalogue

end QueryBlocks
