/-!
Upper-case forms, exact in the Latin letters A to Z that they hold. Markers are searched for such
letters only, so every other character may stand for itself.
-/
namespace QueryBlocks.Text

/-- Characters outside ASCII whose upper-case form holds a letter from A to Z. -/
def upperForms : List (Char × String) :=
  [('ß', "SS"), ('ı', "I"), ('ŉ', "ʼN"), ('ſ', "S"), ('ǰ', "J̌"), ('ẖ', "H̱"),
    ('ẗ', "T̈"), ('ẘ', "W̊"), ('ẙ', "Y̊"), ('ẚ', "Aʾ"), ('ﬀ', "FF"), ('ﬁ', "FI"),
    ('ﬂ', "FL"), ('ﬃ', "FFI"), ('ﬄ', "FFL"), ('ﬅ', "ST"), ('ﬆ', "ST")]

def upperChar (c : Char) : List Char :=
  match upperForms.lookup c with
  | some form => form.toList
  | none => [c.toUpper]

def upper (s : String) : List Char := s.toList.flatMap upperChar

/-- Whether `word` stands somewhere in the text. -/
def holds (word : List Char) : List Char → Bool
  | [] => word.isEmpty
  | c :: rest => word.isPrefixOf (c :: rest) || holds word rest

end QueryBlocks.Text
