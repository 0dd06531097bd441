import PatternTraversal.Toml.Reader

/-!
# Space between the parts of a document

Blanks are spaces and tabs. A line ends with a line feed, with or without a carriage return before
it; a comment runs from its number sign to the end of the line. No control character but the tab may
stand in a comment.
-/

namespace PatternTraversal

namespace Toml

/-- Whether a character is a blank. -/
def isBlankChar (c : Char) : Bool := c = ' ' || c = '\t'

/-- Whether a character is no control character, or the tab. -/
def isPlain (c : Char) : Bool := c = '\t' || (0x20 ≤ c.toNat && c.toNat ≠ 0x7f)

/-- Any number of blanks. -/
def blanks : Reader Unit := do
  let _ ← Reader.takeWhile isBlankChar

/-- A line break. -/
def lineBreak : Reader Unit := Reader.char '\n' <|> Reader.literal ['\r', '\n']

/-- A comment, up to the end of its line. -/
def comment : Reader Unit := do
  Reader.char '#'
  let _ ← Reader.takeWhile isPlain

/-- A line break or the end of the text. -/
def lineEnd : Reader Unit := lineBreak <|> Reader.atEnd

/-- What may stand behind the last part of a line. -/
def trailing : Reader Unit := do
  blanks
  let _ ← optional comment
  lineEnd

/-- Blanks, comments and line breaks between the items of an array. -/
def gap : Reader Unit := do
  let _ ← Reader.many ((do let _ ← Reader.satisfy isBlankChar) <|> lineBreak <|> comment)

end Toml

end PatternTraversal
