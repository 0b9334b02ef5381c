/-!
Parsers over the characters that remain to be read. A parser gives a value with the text after it,
or the place where it gave up. Giving up is of two kinds: after `fail` another alternative may be
tried, after `stop` none may.
-/
namespace QueryBlocks

inductive Outcome (α : Type) where
  | ok (value : α) (rest : List Char)
  | fail (place : List Char)
  | stop (place : List Char)
deriving Repr, DecidableEq

variable {α β : Type}

namespace Outcome

def map (f : α → β) : Outcome α → Outcome β
  | ok a rest => ok (f a) rest
  | fail place => fail place
  | stop place => stop place

end Outcome

def Parser (α : Type) : Type := List Char → Outcome α

namespace Parser

protected def pure (a : α) : Parser α := fun s => .ok a s

protected def bind (p : Parser α) (f : α → Parser β) : Parser β := fun s =>
  match p s with
  | .ok a rest => f a rest
  | .fail place => .fail place
  | .stop place => .stop place

instance : Monad Parser where
  pure := Parser.pure
  bind := Parser.bind

def fail : Parser α := fun s => .fail s

def stop : Parser α := fun s => .stop s

/-- Try `q` where `p` fails. If both fail, `q` says where. -/
def orElse (p : Parser α) (q : Unit → Parser α) : Parser α := fun s =>
  match p s with
  | .fail _ => q () s
  | outcome => outcome

instance : OrElse (Parser α) := ⟨orElse⟩

/-- Give nothing, and leave the text alone, where `p` fails. -/
def optional (p : Parser α) : Parser (Option α) := fun s =>
  match p s with
  | .ok a rest => .ok (some a) rest
  | .fail _ => .ok none s
  | .stop place => .stop place

/-- The remaining text. -/
def remaining : Parser (List Char) := fun s => .ok s s

/-- Change the remaining text by a function that cannot fail. -/
def skipping (f : List Char → List Char) : Parser Unit := fun s => .ok () (f s)

/-- Succeed, reading nothing, exactly where `p` fails. -/
def notNext (p : Parser α) : Parser Unit := fun s =>
  match p s with
  | .ok .. => .fail s
  | .fail _ => .ok () s
  | .stop place => .stop place

/-- Succeed, reading nothing, exactly where `p` succeeds. -/
def ahead (p : Parser α) : Parser Unit := notNext (notNext p)

/-- Require a property of the value; the place of a refusal is where `p` began. -/
def verify (p : Parser α) (good : α → Bool) : Parser α := fun s =>
  match p s with
  | .ok a rest => if good a then .ok a rest else .fail s
  | outcome => outcome

def satisfy (good : Char → Bool) : Parser Char
  | c :: rest => if good c then .ok c rest else .fail (c :: rest)
  | [] => .fail []

def char (c : Char) : Parser Char := satisfy (· == c)

def oneOf (cs : List Char) : Parser Char := satisfy cs.contains

/-- Read exactly the characters of `word`. -/
def exactly (word : String) : Parser Unit := fun s =>
  match word.toList.isPrefixOf? s with
  | some rest => .ok () rest
  | none => .fail s

/-- Read `p` as often as it succeeds. A success that reads nothing counts as a failure, so every
round shortens the text. -/
def many (p : Parser α) : Parser (List α) := fun s =>
  match p s with
  | .ok a rest => if rest.length < s.length then (many p rest).map (a :: ·) else .fail s
  | .fail _ => .ok [] s
  | .stop place => .stop place
termination_by s => s.length

/-- Read `p` until `done` holds of the remaining text. -/
def manyUntil (done : List Char → Bool) (p : Parser α) : Parser (List α) := fun s =>
  if done s then .ok [] s
  else
    match p s with
    | .ok a rest =>
      if rest.length < s.length then (manyUntil done p rest).map (a :: ·) else .fail s
    | .fail place => .fail place
    | .stop place => .stop place
termination_by s => s.length

/-- Extend a value for as long as `step` gives another one. -/
def extend (step : α → Parser (Option α)) (a : α) : Parser α := fun s =>
  match step a s with
  | .ok none rest => .ok a rest
  | .ok (some b) rest => if rest.length < s.length then extend step b rest else .fail s
  | .fail place => .fail place
  | .stop place => .stop place
termination_by s => s.length

/-- One or more, with `separator` between them. A separator that no element follows is not read. -/
def sepBy1 (separator : Parser β) (p : Parser α) : Parser (List α) := do
  let first ← p
  let more ← many (do let _ ← separator; p)
  return first :: more

/-- Any number, with `separator` between them. -/
def sepBy (separator : Parser β) (p : Parser α) : Parser (List α) :=
  sepBy1 separator p <|> pure []

end Parser

end QueryBlocks
