/-! What a command line asks for. -/
namespace QueryBlocks

inductive Format where
  | text | json
deriving DecidableEq, Repr

inductive Action where
  /-- Expand a script, to a file or to the output. -/
  | transform (file : String) (output : Option String)
  /-- Report the problems of a script. -/
  | check (file : String) (format : Format)
  /-- Show what each query becomes. -/
  | explain (file : String)
deriving DecidableEq, Repr

structure Invocation where
  /-- File of settings. -/
  config : Option String
  /-- Replaces the suffix of the settings. -/
  suffix : Option String
  action : Action
deriving DecidableEq, Repr

namespace Invocation

/-- An argument: an option with its value, if it has one, or a word. -/
inductive Argument where
  | flag (name : String) (value : Option String)
  | word (text : String)

/-- `--name`, `--name=value`, `-n`, `-nvalue` or a word. -/
def Argument.ofString (arg : String) : Argument :=
  match arg.toList with
  | '-' :: '-' :: long =>
    match long.span (· != '=') with
    | (name, _ :: value) => flag (String.ofList name) (some (String.ofList value))
    | (name, []) => flag (String.ofList name) none
  | '-' :: short :: [] => flag (String.singleton short) none
  | '-' :: short :: '=' :: value => flag (String.singleton short) (some (String.ofList value))
  | '-' :: short :: value => flag (String.singleton short) (some (String.ofList value))
  | _ => word arg

/-- Options that take a value, by their long and short names. -/
def valued : List (String × String) :=
  [("config", "config"), ("c", "config"), ("suffix", "suffix"), ("output", "output"),
    ("o", "output"), ("format", "format"), ("f", "format")]

def switches : List String := ["verbose", "v"]

/-- The values of options and the words, in order. -/
structure Parts where
  options : List (String × String)
  words : List String

/-- The value of an option. One that is given again replaces the earlier one. -/
def Parts.option? (parts : Parts) (name : String) : Option String :=
  parts.options.reverse.lookup name

/-- Sort arguments into options and words. An option without a value of its own takes the next
argument. -/
def parts? : List String → Option Parts
  | [] => some ⟨[], []⟩
  | [last] =>
    match Argument.ofString last with
    | .word text => some ⟨[], [text]⟩
    | .flag name (some value) => return ⟨[(← valued.lookup name, value)], []⟩
    | .flag name none => if switches.contains name then some ⟨[], []⟩ else none
  | arg :: next :: more =>
    match Argument.ofString arg with
    | .word text => do
      let parts ← parts? (next :: more)
      return { parts with words := text :: parts.words }
    | .flag name value =>
      match valued.lookup name, value with
      | some option, some value => do
        let parts ← parts? (next :: more)
        return { parts with options := (option, value) :: parts.options }
      | some option, none => do
        let parts ← parts? more
        return { parts with options := (option, next) :: parts.options }
      | none, none => if switches.contains name then parts? (next :: more) else none
      | none, some _ => none

def format? : Option String → Option Format
  | none | some "text" => some .text
  | some "json" => some .json
  | some _ => none

def action? (parts : Parts) : Option Action :=
  match parts.words with
  | ["transform", file] => some (.transform file (parts.option? "output"))
  | ["check", file] => do return .check file (← format? (parts.option? "format"))
  | ["explain", file] => some (.explain file)
  | _ => none

def ofArgs? (args : List String) : Option Invocation := do
  let parts ← parts? args
  return ⟨parts.option? "config", parts.option? "suffix", ← action? parts⟩

end Invocation

end QueryBlocks
