import QueryBlocks.Query.Clause
import QueryBlocks.Script.Token

/-!
Telling query blocks from other closures. Statements of the query vocabulary are passed over,
anything else ends the search, and the first usable `from` on the way decides.
-/
namespace QueryBlocks

/-- The type that `from marker as Type` asks for. -/
structure TypedFrom where
  typeName : String
  kind : String
  representation : Representation
deriving DecidableEq, Repr

structure Classification where
  /-- The number of the `from` statement, from zero. -/
  fromIndex : Nat
  typed : Option TypedFrom
deriving DecidableEq, Repr

/-- The type named by usable arguments of `from`, if they name one. -/
def usableFrom : List Expr → Option (Option TypedFrom)
  | [first] | [first, _] =>
    match first with
    | .var .. | .call _ none .. | .binary _ _ .assign _ => some none
    | .cast _ marker type => do
      let word ← marker.name?
      let representation ← Representation.ofMarker? word
      return some ⟨type, Token.simpleName type, representation⟩
    | _ => none
  | _ => none

/-- A call of a keyword that stands alone as a statement, with its arguments. -/
def Stmt.keywordCall? : Stmt → Option (Keyword × List Expr)
  | .eval _ (.call _ none name args) => (Keyword.ofName? name).map (·, args)
  | _ => none

def Stmt.isBareKeyword : Stmt → Bool
  | .eval _ (.var _ name) => isKeyword name
  | _ => false

/-- Look for a usable `from` in statements that are numbered from `index`. -/
def classifyFrom (index : Nat) : List Stmt → Option Classification
  | [] => none
  | s :: more =>
    match s.keywordCall? with
    | some (.from, args) =>
      match usableFrom args with
      | some typed => some ⟨index, typed⟩
      | none => classifyFrom (index + 1) more
    | some _ => classifyFrom (index + 1) more
    | none => if s.isBareKeyword then classifyFrom (index + 1) more else none

/-- What makes these statements a query, if they are one. -/
def classify (statements : List Stmt) : Option Classification := classifyFrom 0 statements

end QueryBlocks
