import QueryBlocks.Query.Vocabulary

/-! What can be wrong with a query block. -/
namespace QueryBlocks

inductive Category where
  /-- Wrong number, form or place of arguments. -/
  | shape
  /-- A word or operator that is not in the vocabulary. -/
  | vocabulary
  /-- A broken rule on inequalities, sorting, ancestors or cursors. -/
  | semantic
  /-- A type or field that cannot be found. -/
  | resolution
  /-- Generated code that cannot be read. -/
  | internal
deriving DecidableEq, Repr

namespace Category

def all : List Category := [shape, vocabulary, semantic, resolution, internal]

def text : Category → String
  | shape => "shape"
  | vocabulary => "vocabulary"
  | semantic => "semantic"
  | resolution => "resolution"
  | internal => "internal"

end Category

/-- The causes of diagnostics. Texts of expressions are kept as they are printed. -/
inductive Cause where
  | unsupportedStatement
  | unsupportedName (name : String)
  | unsupportedExpression (text : String)
  | modeMissing
  | modeUnknown
  | cursorModeUnknown
  | unsupportedArgument (keyword : Keyword) (name : String)
  | invalidValue (text : String)
  /-- An argument of a kind that the keyword never takes. -/
  | oddArgument (keyword : Keyword)
  | settingForm (keyword : Keyword) (text : String)
  | settingOperator (keyword : Keyword) (op : BinOp) (name value : String)
  | argumentForm (keyword : Keyword) (text : String)
  | leftPart (keyword : Keyword) (text : String)
  | filterOperator (op : BinOp) (text : String)
  | fromArity
  | fromTooMany
  | fromSecond
  | fromUnsupported
  | fromMarker
  | unknownType (name : String)
  | unknownField (type field : String) (suggestion : Option String)
  | inequalityConflict (existing new : String)
  | notEqualConflict
  | tooManyInequalities (field : String)
  | sortBeforeInequality (now required : String)
  | kindlessFilter (field : String)
  | cursorFilter (field : String)
  | kindlessSort (key field : String)
  | kindlessDescending (key : String)
  | direction
  | unreadableCode (reason : String)
  /-- A problem reported from outside. -/
  | reported (category : Category) (message : String)
deriving DecidableEq, Repr

namespace Cause

def category : Cause → Category
  | modeMissing | invalidValue .. | oddArgument .. | settingForm .. | argumentForm ..
  | leftPart .. | fromArity | fromTooMany | fromSecond | fromUnsupported => .shape
  | unsupportedStatement | unsupportedName .. | unsupportedExpression .. | modeUnknown
  | cursorModeUnknown | unsupportedArgument .. | settingOperator .. | filterOperator ..
  | fromMarker | direction => .vocabulary
  | inequalityConflict .. | notEqualConflict | tooManyInequalities .. | sortBeforeInequality ..
  | kindlessFilter .. | cursorFilter .. | kindlessSort .. | kindlessDescending .. => .semantic
  | unknownType .. | unknownField .. => .resolution
  | unreadableCode .. => .internal
  | reported category _ => category

def message : Cause → String
  | unsupportedStatement => "Unsupported statement in a query block"
  | unsupportedName name => "Unsupported name: " ++ name
  | unsupportedExpression text => "Unsupported expression: " ++ text
  | modeMissing | modeUnknown =>
    "'select' must have the first argument as one of [all,keys,single,count]"
  | cursorModeUnknown => "'cursor' may only have the first argument as one of [all,keys]"
  | unsupportedArgument keyword name =>
    "'" ++ keyword.text ++ "' doesn't support the argument '" ++ name ++ "'"
  | invalidValue text => "Invalid argument value: " ++ text
  | oddArgument keyword => "Unsupported argument expression for '" ++ keyword.text ++ "'"
  | settingForm keyword text =>
    "'" ++ keyword.text ++ "' doesn't support the argument expression: '" ++ text ++ "'"
  | settingOperator keyword op name value =>
    "'" ++ keyword.text ++ "' doesn't support operation '" ++ op.token ++ "' (" ++ name ++ " " ++
      op.token ++ " " ++ value ++ ")"
  | argumentForm keyword text =>
    "'" ++ keyword.text ++ "' doesn't support the argument expression: " ++ text
  | leftPart keyword text =>
    "'" ++ keyword.text ++ "' doesn't support the argument expression: " ++ text ++ " (left part)"
  | filterOperator op text =>
    "'where' doesn't support the operation: " ++ op.token ++ " (" ++ text ++ ")"
  | fromArity => "'from' must have one or two arguments"
  | fromTooMany => "'from' contains too many parameters for kindless query"
  | fromSecond => "The second argument contains an expression that 'from' doesn't support"
  | fromUnsupported => "Unsupported 'from' expression"
  | fromMarker => "'from' can contain 'pojo' or 'bean' or 'entity'"
  | unknownType name => "Can't resolve the type '" ++ name ++ "'"
  | unknownField type field suggestion =>
    "Class '" ++ type ++ "' doesn't contain a field with a name '" ++ field ++ "'" ++
      match suggestion with
      | some word => "; did you mean '" ++ word ++ "'?"
      | none => ""
  | inequalityConflict existing new =>
    "A query may only use inequality filters (<, <=, >=, >, !=) on one property. ('" ++
      existing ++ "' - exists; '" ++ new ++ "' - new )"
  | notEqualConflict =>
    "A query can only have one not-equal filter and cannot have other inequality filters"
  | tooManyInequalities field =>
    "Too many inequality filter expressions (<, <=, >=, >, !=). ( field = '" ++ field ++ "' )"
  | sortBeforeInequality now required =>
    "Properties in inequality filters must be ordered before other sort orders ( '" ++ now ++
      "' - now; '" ++ required ++ "' must be )"
  | kindlessFilter field =>
    "Kindless queries cannot include filters on properties ( field = '" ++ field ++ "' )"
  | cursorFilter field =>
    "Cursor query can't contain 'in' or '!=' filter operation ( field = '" ++ field ++ "' )"
  | kindlessSort key field =>
    "Kindless ancestor query can be only sorted on '" ++ key ++ "' ( field = '" ++ field ++ "' )"
  | kindlessDescending key => "Only 'Ascending' direction on " ++ key ++ " is supported"
  | direction => "'orderBy' direction must be 'ASC' or 'DESC'"
  | unreadableCode reason => "Generated code does not parse: " ++ reason
  | reported _ message => message

end Cause

/-- A problem and the place it is reported at. -/
structure Diagnostic where
  cause : Cause
  pos : Position
deriving DecidableEq, Repr

namespace Diagnostic

def category (d : Diagnostic) : Category := d.cause.category

def message (d : Diagnostic) : String := d.cause.message

def text (d : Diagnostic) : String := d.pos.text ++ ": " ++ d.message

end Diagnostic

end QueryBlocks
