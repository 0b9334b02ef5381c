import QueryBlocks.Query.Clause
import QueryBlocks.Query.Diagnostic
import QueryBlocks.Script.Print
import QueryBlocks.Script.Token

/-!
Reading the arguments of query statements. An argument is either taken or refused with one
diagnostic.
-/
namespace QueryBlocks

/-- The values of the successes, in order. -/
def accepted {α : Type} (results : List (Except Diagnostic α)) : List α :=
  results.filterMap fun
    | .ok a => some a
    | .error _ => none

/-- The diagnostics of the refusals, in order. -/
def refused {α : Type} (results : List (Except Diagnostic α)) : List Diagnostic :=
  results.filterMap fun
    | .ok _ => none
    | .error d => some d

namespace Setting

/-- Check the name of a setting, then its value. -/
def make (keyword : Keyword) (allowed : List FetchParam) (arg : Expr) (name : String)
    (value : Option Expr) : Except Diagnostic Setting :=
  match (FetchParam.ofName? name).filter allowed.contains, value with
  | none, _ => .error ⟨.unsupportedArgument keyword name, arg.pos⟩
  | some _, none => .error ⟨.invalidValue arg.text, arg.pos⟩
  | some param, some value => .ok ⟨param, value.text⟩

/-- Read `name(value)` or `name = value`. -/
def read (keyword : Keyword) (allowed : List FetchParam) (arg : Expr) :
    Except Diagnostic Setting :=
  match arg with
  | .call _ none name [value] => make keyword allowed arg name (some value)
  | .call _ none name _ => make keyword allowed arg name none
  | .binary _ left op right =>
    match left.name? with
    | none => .error ⟨.oddArgument keyword, arg.pos⟩
    | some name =>
      if op = .assign then make keyword allowed arg name (some right)
      else .error ⟨.settingOperator keyword op name right.text, arg.pos⟩
  | _ => .error ⟨.settingForm keyword arg.text, arg.pos⟩

end Setting

namespace Filter

/-- Read `field op value`; the place is that of the field. -/
def read (arg : Expr) : Except Diagnostic (Filter × Position) :=
  match arg with
  | .binary _ left op right =>
    match left.name?, FilterOp.ofBinOp? op with
    | none, _ => .error ⟨.leftPart .where arg.text, left.pos⟩
    | some _, none => .error ⟨.filterOperator op arg.text, arg.pos⟩
    | some field, some filterOp => .ok (⟨field, filterOp, right.text⟩, left.pos)
  | _ => .error ⟨.argumentForm .where arg.text, arg.pos⟩

end Filter

namespace SortKey

/-- Read `field` or `field as DESC`. -/
def read (arg : Expr) : Except Diagnostic SortKey :=
  match arg with
  | .var _ field => .ok ⟨field, .ascending⟩
  | .cast _ value marker =>
    match value.name?, Direction.ofMarker? marker with
    | none, _ => .error ⟨.leftPart .orderBy arg.text, value.pos⟩
    | some _, none => .error ⟨.direction, arg.pos⟩
    | some field, some direction => .ok ⟨field, direction⟩
  | _ => .error ⟨.argumentForm .orderBy arg.text, arg.pos⟩

end SortKey

/-- An argument that may name the ancestor of a query. -/
inductive AncestorArg where
  | value (text : String)
  /-- The name of an ancestor without exactly one value. -/
  | malformed
  | other

namespace AncestorArg

/-- Read `childOf = key` or `childOf(key)`. -/
def read : Expr → AncestorArg
  | .binary _ left .assign right => if left.name?.any isAncestorName then value right.text else other
  | .call _ none name args =>
    if isAncestorName name then
      match args with
      | [arg] => value arg.text
      | _ => malformed
    else other
  | _ => other

end AncestorArg

/-- What the first argument of `from` names. -/
inductive Target where
  | kind (name : String)
  | typed (type : String) (representation : Representation)
  | ancestor (text : String)

namespace Target

/-- Calls and operators that name no ancestor are passed over here: the statement as a whole
reports them. -/
def read (arg : Expr) : Option Target × List Diagnostic :=
  match AncestorArg.read arg with
  | .value text => (some (.ancestor text), [])
  | .malformed => (none, [⟨.invalidValue arg.text, arg.pos⟩])
  | .other =>
    match arg with
    | .var _ name => (some (.kind name), [])
    | .cast _ marker type =>
      match marker.name? with
      | none => (none, [⟨.leftPart .from marker.text, marker.pos⟩])
      | some word =>
        match Representation.ofMarker? word with
        | none => (none, [⟨.fromMarker, arg.pos⟩])
        | some representation => (some (.typed type representation), [])
    | .call .. | .binary .. => (none, [])
    | _ => (none, [⟨.oddArgument .from, arg.pos⟩])

def origin : Target → Origin
  | kind name => { Origin.empty with kind := some name }
  | typed type representation =>
    { Origin.empty with
      kind := some (Token.simpleName type)
      typeName := some type
      representation := some representation }
  | ancestor text => { Origin.empty with ancestor := some text }

end Target

end QueryBlocks
