import PatternTraversal.Toml.Quoted

/-!
# Keys

A key is a run of letters, digits, underscores and hyphens, or a quoted text of one line. Keys with
points between them name an entry inside nested tables.
-/

namespace PatternTraversal

namespace Toml

/-- Whether a character may stand in a key without quotes. -/
def isBareKey (c : Char) : Bool := c.isAlphanum || c = '_' || c = '-'

/-- A key without quotes. -/
def bareKey : Reader (List Char) := Reader.guarded (Reader.takeWhile isBareKey) (!·.isEmpty)

/-- A single key. -/
def simpleKey : Reader String := String.ofList <$> (basicText <|> literalText <|> bareKey)

/-- Bound on the nesting of tables and arrays; each nested part stays below it. -/
def nestingBound : Nat := 80

/-- Keys with points between them: the tables passed through, and the entry. -/
structure Path where
  tables : List String
  key : String
deriving DecidableEq, Repr

/-- The path of a list of keys. -/
def Path.ofKeys? (keys : List String) : Option Path :=
  keys.getLast?.map fun key => ⟨keys.dropLast, key⟩

/-- Keys with points between them. -/
def path : Reader Path := do
  let keys ← Reader.guarded (Reader.separated (blanks *> simpleKey <* blanks) (Reader.char '.'))
    (·.length < nestingBound)
  match Path.ofKeys? keys with
  | some path => pure path
  | none => failure

end Toml

end PatternTraversal
