/-!
# Readers

A reader takes characters off the front of a text, or refuses it. A choice of two readers tries the
second one where the first one refuses, from the same place.
-/

namespace PatternTraversal

namespace Toml

/-- Takes a value off the front of a text. -/
abbrev Reader (α : Type) := StateT (List Char) Option α

namespace Reader

variable {α β : Type}

/-- The next character, if it passes a test. -/
def satisfy (test : Char → Bool) : Reader Char
  | c :: rest => if test c then some (c, rest) else none
  | [] => none

/-- A given character. -/
def char (c : Char) : Reader Unit
  | d :: rest => if d = c then some ((), rest) else none
  | [] => none

/-- A given text. -/
def literal : List Char → Reader Unit
  | [] => pure ()
  | c :: rest => do
    char c
    literal rest

/-- The longest run of characters that pass a test. -/
def takeWhile (test : Char → Bool) : Reader (List Char) := fun chars =>
  some (chars.takeWhile test, chars.dropWhile test)

/-- The end of the text. -/
def atEnd : Reader Unit
  | [] => some ((), [])
  | _ :: _ => none

/-- The values of as many rounds as succeed and take something off the text. -/
def rounds (item : Reader α) (chars : List Char) : List α × List Char :=
  match item chars with
  | none => ([], chars)
  | some (a, rest) =>
    if rest.length < chars.length then
      let (items, rest) := rounds item rest
      (a :: items, rest)
    else ([], chars)
termination_by chars.length

/-- As many rounds as succeed. -/
def many (item : Reader α) : Reader (List α) := fun chars => some (rounds item chars)

/-- One or more items with separators between them. -/
def separated (item : Reader α) (separator : Reader β) : Reader (List α) := do
  let first ← item
  let rest ← many (separator *> item)
  pure (first :: rest)

/-- A value that passes a test. -/
def guarded (item : Reader α) (test : α → Bool) : Reader α := do
  let a ← item
  if test a then pure a else failure

end Reader

end Toml

end PatternTraversal
