import PatternTraversal.Toml.Item
import PatternTraversal.Toml.Moment

/-!
# Values

A scalar, an array of values, or a table written on one line. Arrays may run over several lines and
end with a comma; tables on one line may not.
-/

namespace PatternTraversal

namespace Toml

/-- True or false. -/
def boolean : Reader Bool :=
  (Reader.literal ['t', 'r', 'u', 'e'] *> pure true) <|>
    (Reader.literal ['f', 'a', 'l', 's', 'e'] *> pure false)

/-- A value without parts. -/
def scalarValue : Reader Item :=
  (Item.string <$> quotedText) <|> (Item.boolean <$> boolean) <|>
    (moment *> pure Item.moment) <|> (float *> pure Item.float) <|> (Item.integer <$> integer)

/-- An array of the given values. -/
def arrayOf (value : Reader Item) : Reader Item := do
  Reader.char '['
  let items ←
    (do
      let items ← Reader.separated (gap *> value <* gap) (Reader.char ',')
      let _ ← optional (Reader.char ',')
      pure items) <|> pure []
  gap
  Reader.char ']'
  pure (.array items)

/-- A path and the given value for it. -/
def pairOf (value : Reader Item) : Reader (Path × Item) := do
  let path ← path
  Reader.char '='
  blanks
  let item ← value
  pure (path, item)

/-- A table of the given values, on one line. -/
def tableOf (value : Reader Item) : Reader Item := do
  Reader.char (Char.ofNat 0x7b)
  let pairs ← Reader.separated (pairOf value <* blanks) (Reader.char ',') <|> pure []
  blanks
  Reader.char (Char.ofNat 0x7d)
  match Entries.addAll [] pairs with
  | some entries => pure (.table .inline entries)
  | none => failure

/-- A value in which arrays and tables nest no deeper than `levels`. -/
def valueWithin : (levels : Nat) → Reader Item
  | 0 => scalarValue
  | levels + 1 => scalarValue <|> arrayOf (valueWithin levels) <|> tableOf (valueWithin levels)

/-- A value. -/
def value : Reader Item := valueWithin (nestingBound - 1)

end Toml

end PatternTraversal
