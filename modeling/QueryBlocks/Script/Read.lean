import QueryBlocks.Script.Grammar.Declarations
import QueryBlocks.Text.Blank

/-! Reading whole texts as scripts, statement lists and expressions. -/
namespace QueryBlocks

/-- Why a text could not be read, and where. -/
inductive ParseError where
  /-- No rule goes on from here. -/
  | unexpected (pos : Position) (near : String)
  /-- Something stands after the end. -/
  | trailing (pos : Position) (near : String)
deriving DecidableEq, Repr

namespace ParseError

def pos : ParseError → Position
  | unexpected pos _ | trailing pos _ => pos

def detail : ParseError → String
  | unexpected _ near => "Unexpected input near '" ++ near ++ "'"
  | trailing _ near => "Unexpected trailing content: '" ++ near ++ "'"

def message (e : ParseError) : String :=
  "Parse error at " ++ e.pos.text ++ ": " ++ e.detail

end ParseError

/-- A text with its line index. -/
structure Source where
  text : List Char
  index : LineIndex

namespace Source

variable {α : Type}

def ofString (s : String) : Source := ⟨s.toList, .ofText s.toList⟩

/-- The rules over this text, deep enough for all of it. -/
def rules (source : Source) : Rules := .nested source.index.locate source.text.length

/-- Require that only separators are left. -/
def finish (source : Source) : Outcome α → Except ParseError α
  | .ok a rest =>
    match Token.skip Token.isBreak rest with
    | [] => .ok a
    | rest => .error (.trailing (source.index.locate rest) (Text.snippet rest))
  | .fail place | .stop place =>
    .error (.unexpected (source.index.locate place) (Text.snippet place))

end Source

def Script.read (text : String) : Except ParseError Script :=
  let source := Source.ofString text
  source.finish (source.rules.script source.text)

def Block.read (text : String) : Except ParseError Block :=
  let source := Source.ofString text
  (source.finish (source.rules.statements source.text)).map (⟨⟨1, 1⟩, ·⟩)

/-- White space in front of an expression is skipped, but counts in its place. -/
def Expr.read (text : String) : Except ParseError Expr :=
  let source := Source.ofString text
  source.finish (source.rules.assignment (Text.trimStart source.text))

end QueryBlocks
