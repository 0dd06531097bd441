import PatternTraversal.Toml.Space

/-!
# Quoted text

Text between double quotes may hold escapes; text between apostrophes is taken as it stands. Three
quotes in a row open a text of several lines, whose first line break is dropped when it comes at
once and in which a backslash at the end of a line joins it with the next text. One or two quotes
may stand inside such a text, and right before its end.
-/

namespace PatternTraversal

namespace Toml

/-- The double quote. -/
def quote : Char := '"'

/-- The apostrophe. -/
def apostrophe : Char := Char.ofNat 0x27

/-- The backslash. -/
def backslash : Char := Char.ofNat 0x5c

/-- Whether a character stands for itself between double quotes. -/
def isUnescaped (c : Char) : Bool := isPlain c && c ≠ quote && c ≠ backslash

/-- Whether a character may stand between apostrophes. -/
def isVerbatim (c : Char) : Bool := isPlain c && c ≠ apostrophe

/-- Value of a hexadecimal digit. -/
def hexDigit? (c : Char) : Option Nat :=
  if '0' ≤ c ∧ c ≤ '9' then some (c.toNat - '0'.toNat)
  else if 'a' ≤ c ∧ c ≤ 'f' then some (c.toNat - 'a'.toNat + 10)
  else if 'A' ≤ c ∧ c ≤ 'F' then some (c.toNat - 'A'.toNat + 10)
  else none

/-- The number of the given count of hexadecimal digits, behind the digits read so far. -/
def hexNumber : (count : Nat) → (known : Nat) → Reader Nat
  | 0, known => pure known
  | count + 1, known => do
    let c ← Reader.satisfy fun c => (hexDigit? c).isSome
    hexNumber count (16 * known + (hexDigit? c).getD 0)

/-- The character with a code point, unless it is a surrogate or none at all. -/
def scalar (code : Nat) : Reader Char :=
  if code.isValidChar then pure (Char.ofNat code) else failure

/-- What follows the backslash of an escape. -/
def escaped : Reader Char := do
  let c ← Reader.satisfy fun _ => true
  match c with
  | 'b' => pure (Char.ofNat 0x08)
  | 't' => pure '\t'
  | 'n' => pure '\n'
  | 'f' => pure (Char.ofNat 0x0c)
  | 'r' => pure '\r'
  | 'u' => hexNumber 4 0 >>= scalar
  | 'U' => hexNumber 8 0 >>= scalar
  | c => if c = quote ∨ c = backslash then pure c else failure

/-- An escape. -/
def escape : Reader Char := Reader.char backslash *> escaped

/-- Text between double quotes. -/
def basicText : Reader (List Char) := do
  Reader.char quote
  let chars ← Reader.many (Reader.satisfy isUnescaped <|> escape)
  Reader.char quote
  pure chars

/-- Text between apostrophes. -/
def literalText : Reader (List Char) := do
  Reader.char apostrophe
  let chars ← Reader.takeWhile isVerbatim
  Reader.char apostrophe
  pure chars

/-- One or two quotes inside a text of several lines. -/
def innerQuotes (mark : Char) : Reader (List Char) :=
  Reader.guarded (Reader.takeWhile (· = mark)) fun run => run.length = 1 || run.length = 2

/-- The three quotes that end a text of several lines, with the quotes before them. -/
def closingQuotes (mark : Char) : Reader (List Char) := do
  let run ← Reader.takeWhile (· = mark)
  if 3 ≤ run.length ∧ run.length ≤ 5 then pure (run.drop 3) else failure

/-- A backslash at the end of a line, with the blanks and line breaks behind it. -/
def joinedLine : Reader (List Char) := do
  Reader.char backslash
  blanks
  lineBreak
  let _ ← Reader.many ((do let _ ← Reader.satisfy isBlankChar) <|> lineBreak)
  pure []

/-- A line break inside a text. -/
def innerBreak : Reader (List Char) := lineBreak *> pure ['\n']

/-- A text of several lines, of the given pieces, between three quotes on each side. -/
def longText (mark : Char) (piece : Reader (List Char)) : Reader (List Char) := do
  Reader.literal [mark, mark, mark]
  let _ ← optional lineBreak
  let pieces ← Reader.many (piece <|> innerBreak <|> innerQuotes mark)
  let last ← closingQuotes mark
  pure (pieces.flatten ++ last)

/-- Text of several lines between double quotes. -/
def longBasicText : Reader (List Char) :=
  longText quote
    ((do pure [← Reader.satisfy isUnescaped]) <|> joinedLine <|> (do pure [← escape]))

/-- Text of several lines between apostrophes. -/
def longLiteralText : Reader (List Char) :=
  longText apostrophe (do pure [← Reader.satisfy isVerbatim])

/-- Any quoted text. -/
def quotedText : Reader String :=
  String.ofList <$> (longBasicText <|> basicText <|> longLiteralText <|> literalText)

end Toml

end PatternTraversal
