import PatternTraversal.Arrangement.Frontier

/-!
# Searching a unit

A small unit is searched completely: every order in which each member may follow the ones before it
is scored, depth first and in member order, and the first one of the best score is kept. A large
unit is ordered greedily: of the members that may come next, the first one of the best score is
placed. Both keep count of what they did, and of whether the scores they formed fit machine words.
-/

namespace PatternTraversal

/-- An order with its score. -/
structure Ranked where
  order : List Nat
  score : Int
deriving DecidableEq, Repr

namespace Ranked

/-- The better of two orders; the earlier one unless the later one scores strictly more. -/
def first (earlier? later? : Option Ranked) : Option Ranked :=
  match earlier?, later? with
  | none, later? => later?
  | some earlier, none => some earlier
  | some earlier, some later => if earlier.score < later.score then some later else some earlier

end Ranked

/-- State of a search. -/
structure Progress where
  frontier : Frontier
  /-- Complete orders scored so far. -/
  scored : Nat
  /-- Incomplete orders so far that nothing could follow. -/
  deadEnds : Nat
  /-- Whether every score formed so far fits a machine word. -/
  fits : Bool
deriving DecidableEq, Repr

namespace Progress

/-- A search that has not begun. -/
def start (frontier : Frontier) : Progress := ⟨frontier, 0, 0, true⟩

/-- Place a member. -/
def place (progress : Progress) (candidate : Candidate) : Progress :=
  { progress with frontier := progress.frontier.place candidate }

/-- Take a member back. -/
def unplace (progress : Progress) (candidate : Candidate) : Progress :=
  { progress with frontier := progress.frontier.unplace candidate }

/-- Note a score that was formed. -/
def note (progress : Progress) (score : Int) : Progress :=
  { progress with fits := progress.fits && Score.fits score }

/-- Note a complete order. -/
def complete (progress : Progress) : Progress :=
  { progress with scored := progress.scored + 1 }

/-- Note an incomplete order that nothing can follow. -/
def deadEnd (progress : Progress) : Progress :=
  { progress with deadEnds := progress.deadEnds + 1 }

/-- Whether a member may come next. -/
def admits (progress : Progress) (first : Bool) (candidate : Candidate) : Bool :=
  !progress.frontier.isPlaced candidate && progress.frontier.reachable first candidate

end Progress

namespace Search

/-- The first best completion of the members `chosen` so far, newest first, whose score is `score`,
by `remaining` further members. -/
def explore (candidates : List Candidate) :
    (remaining : Nat) → List Nat → Int → Progress → Option Ranked × Progress
  | 0, chosen, score, progress => (some ⟨chosen.reverse, score⟩, progress.complete)
  | remaining + 1, chosen, score, progress =>
    let (best?, extended, progress) := candidates.foldl
      (fun (best?, extended, progress) candidate =>
        if progress.admits chosen.isEmpty candidate then
          let gain := candidate.gain (remaining + 1)
          let (found?, progress) := explore candidates remaining (candidate.index :: chosen)
            (score + gain) (((progress.note gain).note (score + gain)).place candidate)
          (Ranked.first best? found?, true, progress.unplace candidate)
        else (best?, extended, progress))
      ((none : Option Ranked), false, progress)
    (best?, if extended then progress else progress.deadEnd)

/-- Complete search of a unit; the input order stands in when no order is valid. -/
def exhaustive (candidates : List Candidate) (progress : Progress) : List Nat × Progress :=
  match explore candidates candidates.length [] 0 progress with
  | (some best, progress) => (best.order, progress)
  | (none, progress) => (candidates.map Candidate.index, progress)

/-- The first member of the best score among those that may come next. -/
def pick? (candidates : List Candidate) (first : Bool) (weight : Nat) (progress : Progress) :
    Option Candidate :=
  let best := candidates.foldl
    (fun best candidate =>
      if progress.admits first candidate then
        let gain := candidate.gain weight
        match best with
        | none => some (candidate, gain)
        | some (known, score) =>
          if score < gain then some (candidate, gain) else some (known, score)
      else best)
    (none : Option (Candidate × Int))
  best.map (·.1)

/-- Whether the scores compared for the next place fit machine words. -/
def gainsFit (candidates : List Candidate) (first : Bool) (weight : Nat) (progress : Progress) :
    Bool :=
  candidates.all fun candidate =>
    !progress.admits first candidate || Score.fits (candidate.gain weight)

/-- Greedy completion of the members `chosen` so far, newest first, by `remaining` further members;
when nothing may come next, the first member left over starts anew. -/
def extend (candidates : List Candidate) :
    (remaining : Nat) → List Nat → Progress → List Nat × Progress
  | 0, chosen, progress => (chosen.reverse, progress)
  | remaining + 1, chosen, progress =>
    let fits := gainsFit candidates chosen.isEmpty (remaining + 1) progress
    match pick? candidates chosen.isEmpty (remaining + 1) progress with
    | some candidate =>
      let progress := { progress with fits := progress.fits && fits }
      extend candidates remaining (candidate.index :: chosen) (progress.place candidate)
    | none =>
      match candidates.find? fun candidate => !progress.frontier.isPlaced candidate with
      | some candidate =>
        extend candidates remaining (candidate.index :: chosen) (progress.deadEnd.place candidate)
      | none => (chosen.reverse, progress.deadEnd)

/-- Greedy search of a unit. -/
def greedy (candidates : List Candidate) (progress : Progress) : List Nat × Progress :=
  extend candidates candidates.length [] progress

end Search

end PatternTraversal
