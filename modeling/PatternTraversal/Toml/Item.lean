import PatternTraversal.Toml.Key

/-!
# Items

The contents of a document: values, and tables of named items. How a table came about decides what
may still be added to it: a table given by a header is closed to keys with points, a table passed
through on the way to a header may get a header of its own, a table made by keys with points may be
extended by such keys, and a table written as a value is complete.
-/

namespace PatternTraversal

namespace Toml

/-- How a table came about. -/
inductive Origin where
  /-- Given by a header of its own. -/
  | header
  /-- Passed through on the way to the table of a header. -/
  | passed
  /-- Made by a key with points. -/
  | dotted
  /-- Written as a value. -/
  | inline
deriving DecidableEq, Repr

/-- Whether no header and no value has given the table so far. -/
def Origin.isImplicit : Origin → Bool
  | header => false
  | passed => true
  | dotted => true
  | inline => false

/-- Part of a document. -/
inductive Item where
  | string (text : String)
  | integer (n : Int)
  | float
  | boolean (b : Bool)
  /-- A date, a time, or both. -/
  | moment
  | array (items : List Item)
  | table (origin : Origin) (entries : List (String × Item))
  /-- The tables given by the headers of an array, the last one apart. -/
  | tables (earlier : List (List (String × Item))) (last : List (String × Item))
deriving Repr

/-- Named items, in the order in which they were added. -/
abbrev Entries := List (String × Item)

namespace Entries

/-- Put an item under a key, in place of a previous one. -/
def put (key : String) (item : Item) : Entries → Entries
  | [] => [(key, item)]
  | entry :: rest => if entry.1 = key then (key, item) :: rest else entry :: put key item rest

/-- Change the entries of the table that the keys lead to. Tables are made where none are, and an
array of tables stands for its last one. Keys with points may pass through implicit tables only. -/
def updateAt (dotted : Bool) (change : Origin → Entries → Option Entries) :
    List String → Origin → Entries → Option Entries
  | [], origin, entries => change origin entries
  | key :: path, _, entries =>
    match entries.lookup key with
    | none =>
      let origin := if dotted then .dotted else .passed
      (updateAt dotted change path origin []).map fun inner => put key (.table origin inner) entries
    | some (.table .inline _) => none
    | some (.table origin inner) =>
      if dotted && !origin.isImplicit then none
      else
        (updateAt dotted change path origin inner).map fun inner =>
          put key (.table origin inner) entries
    | some (.tables earlier last) =>
      (updateAt dotted change path .header last).map fun last =>
        put key (.tables earlier last) entries
    | some _ => none

/-- Add an item at a path whose tables, if there are any, were all made by keys with points. -/
def add (entries : Entries) (path : Path) (item : Item) : Option Entries :=
  updateAt true (fun origin inner =>
    if (origin == .dotted) == path.tables.isEmpty then none
    else
      match inner.lookup path.key with
      | some _ => none
      | none => some (put path.key item inner)) path.tables .header entries

/-- Add items at paths, in order. -/
def addAll (entries : Entries) (pairs : List (Path × Item)) : Option Entries :=
  pairs.foldlM (fun entries pair => entries.add pair.1 pair.2) entries

end Entries

end Toml

end PatternTraversal
