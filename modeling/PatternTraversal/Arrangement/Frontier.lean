import PatternTraversal.Arrangement.Units

/-!
# Frontier of a search

While a search builds an order it keeps which members are placed and, for every alias that one of
them mentions, how many do. An alias is dropped with its last mention, so the test whether a member
may come next looks up its aliases and nothing else, and taking a member back undoes exactly what
placing it did.
-/

namespace PatternTraversal

/-- A member of a search unit, with what the search asks about it. -/
structure Candidate where
  /-- Place within the unit. -/
  slot : Nat
  /-- Place in the list of expressions. -/
  index : Nat
  aliases : List Alias
  /-- Whether it touches an alias resolved beforehand. -/
  anchored : Bool
  /-- Whether it may come first. -/
  opens : Bool
  interest : Nat
  bonus : Int
deriving DecidableEq, Repr

namespace Candidate

/-- Score of the member when its interest counts `weight` times. -/
def gain (candidate : Candidate) (weight : Nat) : Int :=
  weight * candidate.interest + candidate.bonus

end Candidate

namespace SearchUnit

/-- The members of a unit as the search sees them. -/
def candidates (ctx : Context) {exps : List Expression} (unit : SearchUnit exps.length) :
    List Candidate :=
  unit.members.zipIdx.map fun (i, slot) =>
    let e := exps.get i
    { slot
      index := i
      aliases := e.entities
      anchored := e.entities.any ctx.isBound
      opens := unit.entry.isEmpty || unit.entry.contains i
      interest := ctx.interest e
      bonus := ctx.bonus e }

end SearchUnit

/-- Members placed so far, and how many of them mention each alias that one of them mentions. -/
structure Frontier where
  placed : Array Bool
  introduced : AliasMap Nat
deriving DecidableEq, Repr

namespace Frontier

/-- Nothing placed yet. -/
def start (slots : Nat) : Frontier := ⟨Array.replicate slots false, ∅⟩

/-- Whether a member is placed. -/
def isPlaced (frontier : Frontier) (candidate : Candidate) : Bool :=
  frontier.placed.getD candidate.slot false

/-- Whether some placed member mentions an alias. -/
def introduces (frontier : Frontier) (ident : Alias) : Bool := frontier.introduced.contains ident

/-- Whether a member may come next, `first` telling that nothing is placed yet. -/
def reachable (frontier : Frontier) (first : Bool) (candidate : Candidate) : Bool :=
  if first then candidate.opens
  else candidate.anchored || candidate.aliases.any frontier.introduces

/-- The count of an alias after one more mention. -/
def increment (count? : Option Nat) : Option Nat := some (count?.getD 0 + 1)

/-- The count of an alias after one mention less; the last one takes the alias with it. -/
def decrement : Option Nat → Option Nat
  | none => none
  | some count => if count - 1 = 0 then none else some (count - 1)

/-- Place a member. -/
def place (frontier : Frontier) (candidate : Candidate) : Frontier :=
  ⟨frontier.placed.setIfInBounds candidate.slot true,
    candidate.aliases.foldl (fun counts ident => counts.alter ident increment) frontier.introduced⟩

/-- Take a member back. -/
def unplace (frontier : Frontier) (candidate : Candidate) : Frontier :=
  ⟨frontier.placed.setIfInBounds candidate.slot false,
    candidate.aliases.foldl (fun counts ident => counts.alter ident decrement) frontier.introduced⟩

end Frontier

end PatternTraversal
