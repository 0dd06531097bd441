import PatternTraversal.Arrangement.Search
import PatternTraversal.Proofs.Arrangement.Completions
import PatternTraversal.Proofs.Arrangement.Frontier

/-!
# What the complete search finds

Below any placed members the complete search returns the first best of their completions, counts the
completions and the orders that got stuck, and leaves the frontier as it found it. The induction is
on the number of members still to be placed; inside it, one on the members that are tried.
-/

namespace PatternTraversal

namespace SearchUnit

variable {ctx : Context} {exps : List Expression} {unit : SearchUnit exps.length}

/-- Completions of some placed members of a unit, the last one first. -/
abbrev completions (ctx : Context) (unit : SearchUnit exps.length) (remaining : ℕ)
    (placed : List (Fin exps.length)) : List (List (Fin exps.length)) :=
  Search.completions unit.members (unit.follows ctx) remaining placed

/-- Members of a unit that may come next. -/
abbrev nextMembers (ctx : Context) (unit : SearchUnit exps.length)
    (placed : List (Fin exps.length)) : List (Fin exps.length) :=
  Search.nextMembers unit.members (unit.follows ctx) placed

/-- Incomplete orders of a unit that nothing can follow. -/
abbrev stuck (ctx : Context) (unit : SearchUnit exps.length) (remaining : ℕ)
    (placed : List (Fin exps.length)) : ℕ :=
  Search.stuck unit.members (unit.follows ctx) remaining placed

/-- A completion of some placed members with its score, `score` being the one of the placed
members. -/
def rank (ctx : Context) (placed : List (Fin exps.length)) (score : ℤ)
    (order : List (Fin exps.length)) : Ranked where
  order := (placed.reverse ++ order).map Fin.val
  score := score + Score.total (ctx.gainsFrom order.length (order.map exps.get))

/-- Placing the first member of a completion moves its gain to the score. -/
theorem rank_cons (placed : List (Fin exps.length)) (score : ℤ) (i : Fin exps.length)
    (order : List (Fin exps.length)) :
    rank ctx placed score (i :: order) =
      rank ctx (i :: placed) (score + (unit.candidate ctx i).gain (order.length + 1)) order := by
  have hgain : (unit.candidate ctx i).gain (order.length + 1) =
      ctx.gain (order.length + 1 : ℕ) (exps.get i) := rfl
  simp only [rank, List.reverse_cons, List.append_assoc, List.singleton_append, hgain,
    List.length_cons, List.map_cons, Context.gainsFrom, Nat.add_sub_cancel, Score.total]
  rw [Int.add_assoc]

/-- The first best of the completions of some placed members. -/
def bestCompletion (ctx : Context) (unit : SearchUnit exps.length) (remaining : ℕ)
    (placed : List (Fin exps.length)) (score : ℤ) : Option Ranked :=
  Ranked.best ((unit.completions ctx remaining placed).map (rank ctx placed score))

/-- The first best completion by way of one next member after the other. -/
theorem bestCompletion_succ (remaining : ℕ) (placed : List (Fin exps.length)) (score : ℤ) :
    unit.bestCompletion ctx (remaining + 1) placed score =
      (unit.nextMembers ctx placed).foldr (fun i best? =>
        Ranked.first (unit.bestCompletion ctx remaining (i :: placed)
          (score + (unit.candidate ctx i).gain (remaining + 1))) best?) none := by
  rw [bestCompletion, completions, Search.completions, nextMembers]
  induction Search.nextMembers unit.members (unit.follows ctx) placed with
  | nil => rfl
  | cons i rest ih =>
    rw [List.flatMap_cons, List.map_append, Ranked.best_append, ih, List.foldr_cons, bestCompletion,
      List.map_map]
    congr 2
    refine List.map_congr_left fun order horder => ?_
    have hlength := ((Search.mem_completions_iff _ _ _).1 horder).1
    rw [Function.comp_apply, ← hlength]
    exact rank_cons placed score i order

/-- The admitted members are those that may come next. -/
theorem admits_candidate {progress : Progress} {placed : List (Fin exps.length)}
    (hfrontier : progress.frontier = unit.frontier ctx placed) (hsub : placed ⊆ unit.members)
    (i : Fin exps.length) :
    progress.admits placed.isEmpty (unit.candidate ctx i) =
      (!decide (i ∈ placed) && unit.follows ctx placed i) := by
  rw [Progress.admits, hfrontier, isPlaced_frontier hsub, reachable_frontier]

/-- One member tried by the complete search: the first best order so far, whether something could
follow, and the progress. -/
def exploreMember (ctx : Context) (unit : SearchUnit exps.length) (remaining : ℕ)
    (placed : List (Fin exps.length)) (score : ℤ) (state : Option Ranked × Bool × Progress)
    (i : Fin exps.length) : Option Ranked × Bool × Progress :=
  let (best?, extended, progress) := state
  let candidate := unit.candidate ctx i
  if progress.admits placed.isEmpty candidate then
    let gain := candidate.gain (remaining + 1)
    let (found?, progress) := Search.explore (unit.members.map (unit.candidate ctx)) remaining
      ((i :: placed).map Fin.val) (score + gain)
      (((progress.note gain).note (score + gain)).place candidate)
    (Ranked.first best? found?, true, progress.unplace candidate)
  else (best?, extended, progress)

/-- The complete search tries one member after the other. -/
theorem explore_succ (remaining : ℕ) (placed : List (Fin exps.length)) (score : ℤ)
    (progress : Progress) :
    Search.explore (unit.members.map (unit.candidate ctx)) (remaining + 1) (placed.map Fin.val)
        score progress =
      let (best?, extended, progress) :=
        unit.members.foldl (unit.exploreMember ctx remaining placed score) (none, false, progress)
      (best?, if extended then progress else progress.deadEnd) := by
  rw [Search.explore, List.foldl_map]
  simp only [List.isEmpty_map]
  rfl

/-- Whether all scores formed below some placed members fit words: for each member that may come
next its gain, the score with it, and those formed below it. -/
def fitsBelow (ctx : Context) (unit : SearchUnit exps.length) :
    (remaining : ℕ) → (placed : List (Fin exps.length)) → (score : ℤ) → Bool
  | 0, _, _ => true
  | remaining + 1, placed, score =>
    (unit.nextMembers ctx placed).all fun i =>
      let gain := (unit.candidate ctx i).gain (remaining + 1)
      Score.fits gain && Score.fits (score + gain) &&
        unit.fitsBelow ctx remaining (i :: placed) (score + gain)

/-- Whether all scores formed by trying one member fit words. -/
def memberFits (ctx : Context) (unit : SearchUnit exps.length) (remaining : ℕ)
    (placed : List (Fin exps.length)) (score : ℤ) (i : Fin exps.length) : Bool :=
  let gain := (unit.candidate ctx i).gain (remaining + 1)
  Score.fits gain && Score.fits (score + gain) &&
    unit.fitsBelow ctx remaining (i :: placed) (score + gain)

/-- The scores below some placed members are those of trying each member that may come next. -/
theorem fitsBelow_succ (remaining : ℕ) (placed : List (Fin exps.length)) (score : ℤ) :
    unit.fitsBelow ctx (remaining + 1) placed score =
      (unit.nextMembers ctx placed).all (unit.memberFits ctx remaining placed score) := rfl

/-- What the complete search answers below some placed members: it ranks their completions, counts
them and the orders that got stuck, notes whether the scores it formed fit words, and leaves the
frontier as it was. -/
def Explored (ctx : Context) (unit : SearchUnit exps.length) (remaining : ℕ)
    (placed : List (Fin exps.length)) : Prop :=
  ∀ (score : ℤ) (progress : Progress), progress.frontier = unit.frontier ctx placed →
    Search.explore (unit.members.map (unit.candidate ctx)) remaining
        (placed.map Fin.val) score progress =
      (unit.bestCompletion ctx remaining placed score,
        { frontier := unit.frontier ctx placed
          scored := progress.scored + (unit.completions ctx remaining placed).length
          deadEnds := progress.deadEnds + unit.stuck ctx remaining placed
          fits := progress.fits && unit.fitsBelow ctx remaining placed score })

/-- A member that may come next is tried: its completions are ranked behind those before it, and it
is taken back. -/
theorem exploreMember_of_mem {remaining : ℕ} {placed : List (Fin exps.length)}
    (hsub : placed ⊆ unit.members) (score : ℤ) {i : Fin exps.length}
    (hi : i ∈ unit.nextMembers ctx placed) (hbelow : unit.Explored ctx remaining (i :: placed))
    (best? : Option Ranked) (extended : Bool) {progress : Progress}
    (hfrontier : progress.frontier = unit.frontier ctx placed) :
    unit.exploreMember ctx remaining placed score (best?, extended, progress) i =
      (Ranked.first best? (unit.bestCompletion ctx remaining (i :: placed)
          (score + (unit.candidate ctx i).gain (remaining + 1))), true,
        { frontier := unit.frontier ctx placed
          scored := progress.scored + (unit.completions ctx remaining (i :: placed)).length
          deadEnds := progress.deadEnds + unit.stuck ctx remaining (i :: placed)
          fits := progress.fits && unit.memberFits ctx remaining placed score i }) := by
  obtain ⟨hmem, hleft, hfollows⟩ := (Search.mem_nextMembers_iff placed i).1 hi
  have hadmits : progress.admits placed.isEmpty (unit.candidate ctx i) = true := by
    rw [admits_candidate hfrontier hsub i]
    simp [hleft, hfollows]
  have hplaced : (((progress.note ((unit.candidate ctx i).gain (remaining + 1))).note
      (score + (unit.candidate ctx i).gain (remaining + 1))).place
        (unit.candidate ctx i)).frontier = unit.frontier ctx (i :: placed) := by
    rw [frontier, ← hfrontier]
    rfl
  have hexplore := hbelow (score + (unit.candidate ctx i).gain (remaining + 1)) _ hplaced
  simp only [exploreMember, hadmits, if_true, hexplore, Progress.unplace,
    unplace_frontier hsub hleft]
  simp only [Progress.place, Progress.note, memberFits, Bool.and_assoc]

/-- A member that may not come next is passed over. -/
theorem exploreMember_of_not_mem (remaining : ℕ) {placed : List (Fin exps.length)}
    (hsub : placed ⊆ unit.members) (score : ℤ) {i : Fin exps.length} (hmem : i ∈ unit.members)
    (hi : i ∉ unit.nextMembers ctx placed) (best? : Option Ranked) (extended : Bool)
    {progress : Progress} (hfrontier : progress.frontier = unit.frontier ctx placed) :
    unit.exploreMember ctx remaining placed score (best?, extended, progress) i =
      (best?, extended, progress) := by
  have hadmits : ¬ progress.admits placed.isEmpty (unit.candidate ctx i) = true := by
    rw [admits_candidate hfrontier hsub i]
    simpa [Search.mem_nextMembers_iff, hmem] using hi
  simp only [exploreMember, if_neg hadmits]

/-- Several members are tried one after the other. -/
theorem foldl_exploreMember {remaining : ℕ} {placed : List (Fin exps.length)}
    (hsub : placed ⊆ unit.members) (score : ℤ)
    (hbelow : ∀ i ∈ unit.nextMembers ctx placed, unit.Explored ctx remaining (i :: placed))
    {rest : List (Fin exps.length)} (hrest : rest ⊆ unit.members) (best? : Option Ranked)
    (extended : Bool) {progress : Progress}
    (hfrontier : progress.frontier = unit.frontier ctx placed) :
    rest.foldl (unit.exploreMember ctx remaining placed score) (best?, extended, progress) =
      (Ranked.first best? ((Search.nextMembers rest (unit.follows ctx) placed).foldr
          (fun i best? => Ranked.first (unit.bestCompletion ctx remaining (i :: placed)
            (score + (unit.candidate ctx i).gain (remaining + 1))) best?) none),
        extended || !(Search.nextMembers rest (unit.follows ctx) placed).isEmpty,
        { frontier := unit.frontier ctx placed
          scored := progress.scored + ((Search.nextMembers rest (unit.follows ctx) placed).map
            fun i => (unit.completions ctx remaining (i :: placed)).length).sum
          deadEnds := progress.deadEnds + ((Search.nextMembers rest (unit.follows ctx) placed).map
            fun i => unit.stuck ctx remaining (i :: placed)).sum
          fits := progress.fits && (Search.nextMembers rest (unit.follows ctx) placed).all
            (unit.memberFits ctx remaining placed score) }) := by
  induction rest generalizing best? extended progress with
  | nil => simp [Search.nextMembers, ← hfrontier]
  | cons i rest ih =>
    obtain ⟨hmem, hrest⟩ := List.cons_subset.1 hrest
    by_cases hi : i ∈ unit.nextMembers ctx placed
    · have hstep := exploreMember_of_mem hsub score hi (hbelow i hi) best? extended hfrontier
      have hrestored (scored deadEnds : ℕ) (fits : Bool) :
          (⟨unit.frontier ctx placed, scored, deadEnds, fits⟩ : Progress).frontier =
            unit.frontier ctx placed := rfl
      have hnext : Search.nextMembers (i :: rest) (unit.follows ctx) placed =
          i :: Search.nextMembers rest (unit.follows ctx) placed :=
        List.filter_cons_of_pos (List.mem_filter.1 hi).2
      rw [List.foldl_cons, hstep, ih hrest _ _ (hrestored _ _ _), hnext]
      simp [Ranked.first_assoc, Nat.add_assoc, Bool.and_assoc]
    · have hnext : Search.nextMembers (i :: rest) (unit.follows ctx) placed =
          Search.nextMembers rest (unit.follows ctx) placed :=
        List.filter_cons_of_neg fun h => hi (List.mem_filter.2 ⟨hmem, h⟩)
      rw [List.foldl_cons, exploreMember_of_not_mem remaining hsub score hmem hi best? extended
        hfrontier, ih hrest best? extended hfrontier, hnext]

/-- The complete search answers as described, however many members remain to be placed. -/
theorem explored (remaining : ℕ) {placed : List (Fin exps.length)}
    (hsub : placed ⊆ unit.members) : unit.Explored ctx remaining placed := by
  induction remaining generalizing placed with
  | zero =>
    intro score progress hfrontier
    simp [Search.explore, bestCompletion, Search.completions, rank, Ranked.best, Search.stuck,
      Progress.complete, Context.gainsFrom, Score.total, fitsBelow, ← hfrontier]
  | succ remaining ih =>
    intro score progress hfrontier
    have hbelow (i : Fin exps.length) (hi : i ∈ unit.nextMembers ctx placed) :
        unit.Explored ctx remaining (i :: placed) :=
      ih (List.cons_subset.2 ⟨(List.mem_filter.1 hi).1, hsub⟩)
    have hfold := foldl_exploreMember hsub score hbelow (List.Subset.refl _) none false hfrontier
    rw [explore_succ, hfold, bestCompletion_succ, fitsBelow_succ]
    by_cases hnext : unit.nextMembers ctx placed = []
    · simp [hnext, Search.completions, Search.stuck, Progress.deadEnd, Ranked.first]
    · simp [hnext, Search.completions, Search.stuck, Ranked.first, List.length_flatMap]

end SearchUnit

end PatternTraversal
