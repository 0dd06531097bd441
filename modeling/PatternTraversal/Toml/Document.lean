import PatternTraversal.Toml.Value

/-!
# Documents

A document is a list of lines: blank ones, pairs of a path and a value, and headers. The pairs up to
the first header belong to the document itself, those behind a header to its table. The tables are
put together in the order of their headers.
-/

namespace PatternTraversal

namespace Toml

/-- Where the pairs of a section go. -/
inductive Header where
  /-- The document itself. -/
  | root
  /-- A table. -/
  | table (path : Path)
  /-- A new table at the end of an array. -/
  | element (path : Path)
deriving DecidableEq, Repr

/-- One line of a document. -/
inductive Line where
  | blank
  | pair (path : Path) (item : Item)
  | header (header : Header)
deriving Repr

/-- A header line. -/
def headerLine : Reader Line :=
  (do
    Reader.literal ['[', '[']
    let path ← path
    Reader.literal [']', ']']
    trailing
    pure (.header (.element path))) <|>
  (do
    Reader.char '['
    let path ← path
    Reader.char ']'
    trailing
    pure (.header (.table path)))

/-- A line with a path and its value. -/
def pairLine : Reader Line := do
  let (path, item) ← pairOf value
  trailing
  pure (.pair path item)

/-- A line without contents. -/
def blankLine : Reader Line := (lineBreak <|> (comment *> lineEnd)) *> pure .blank

/-- The lines of a document; a byte order mark may come before them. -/
def lines : Reader (List Line) := do
  let _ ← optional (Reader.char (Char.ofNat 0xfeff))
  blanks
  let lines ← Reader.many ((blankLine <|> headerLine <|> pairLine) <* blanks)
  Reader.atEnd
  pure lines

/-- A header with the pairs that follow it. -/
structure Section where
  header : Header
  pairs : List (Path × Item)
deriving Repr

/-- The sections of lines that follow a header and some pairs. -/
def sectionsFrom (header : Header) (pairs : List (Path × Item)) : List Line → List Section
  | [] => [⟨header, pairs⟩]
  | .blank :: rest => sectionsFrom header pairs rest
  | .pair path item :: rest => sectionsFrom header (pairs ++ [(path, item)]) rest
  | .header next :: rest => ⟨header, pairs⟩ :: sectionsFrom next [] rest

/-- Entries that a table has before its header: those of tables on the way to earlier headers. -/
def openTable? (entries : Entries) (key : String) : Option Entries :=
  match entries.lookup key with
  | none => some []
  | some (.table .passed inner) => some inner
  | some _ => none

/-- Put a new table at the end of an array. -/
def appendTable? (entries : Entries) (key : String) (table : Entries) : Option Entries :=
  match entries.lookup key with
  | none => some (entries.put key (.tables [] table))
  | some (.tables earlier last) => some (entries.put key (.tables (earlier ++ [last]) table))
  | some _ => none

/-- Add a section to the document. -/
def addSection (root : Entries) (part : Section) : Option Entries :=
  match part.header with
  | .root => root.addAll part.pairs
  | .table path =>
    root.updateAt false (fun _ entries => do
      let start ← openTable? entries path.key
      let table ← start.addAll part.pairs
      pure (entries.put path.key (.table .header table))) path.tables .header
  | .element path =>
    root.updateAt false (fun _ entries => do
      let table ← Entries.addAll [] part.pairs
      appendTable? entries path.key table) path.tables .header

/-- The entries of a document, unless it is malformed. -/
def parse? (text : String) : Option Entries :=
  match lines text.toList with
  | none => none
  | some (lines, _) => (sectionsFrom .root [] lines).foldlM addSection []

end Toml

end PatternTraversal
