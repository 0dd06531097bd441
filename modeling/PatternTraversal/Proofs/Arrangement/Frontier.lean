import Mathlib.Data.List.Basic
import PatternTraversal.Arrangement.Frontier
import PatternTraversal.Proofs.Arrangement.Validity
import PatternTraversal.Proofs.MapChanges

/-!
# What a frontier knows

After some members of a unit have been placed, the marks are those of the placed members, and the
aliases kept are those that placed members mention, each with the number of those members. So the
test on a frontier is the plain test whether a member may follow the placed ones, and taking the
last member back restores the frontier.
-/

namespace PatternTraversal

namespace Frontier

/-- Placing a member counts one more mention of each of its aliases. -/
theorem introduced_place (frontier : Frontier) {candidate : Candidate}
    (hnodup : candidate.aliases.Nodup) (ident : Alias) :
    (frontier.place candidate).introduced[ident]? =
      if ident ∈ candidate.aliases then increment frontier.introduced[ident]?
      else frontier.introduced[ident]? :=
  getElem?_foldl_alter_of_nodup hnodup increment frontier.introduced ident

/-- Taking a member back counts one mention less of each of its aliases. -/
theorem introduced_unplace (frontier : Frontier) {candidate : Candidate}
    (hnodup : candidate.aliases.Nodup) (ident : Alias) :
    (frontier.unplace candidate).introduced[ident]? =
      if ident ∈ candidate.aliases then decrement frontier.introduced[ident]?
      else frontier.introduced[ident]? :=
  getElem?_foldl_alter_of_nodup hnodup decrement frontier.introduced ident

/-- One mention less after one more leaves a count that is not zero as it was. -/
theorem decrement_increment {count? : Option ℕ} (h : count? ≠ some 0) :
    decrement (increment count?) = count? := by
  cases count? with
  | none => rfl
  | some count =>
    have hcount : count ≠ 0 := fun heq => h (congrArg some heq)
    simp [increment, decrement, hcount]

/-- Taking back a member that was not placed before gives the frontier from before its placing, when
no alias is kept with the count zero there. -/
theorem unplace_place (frontier : Frontier) {candidate : Candidate}
    (hnodup : candidate.aliases.Nodup) (hleft : frontier.isPlaced candidate = false)
    (hcounts : ∀ ident : Alias, frontier.introduced[ident]? ≠ some 0) :
    (frontier.place candidate).unplace candidate = frontier := by
  have hplaced : ((frontier.place candidate).unplace candidate).placed = frontier.placed := by
    apply Array.ext_getElem?
    intro slot
    simp only [unplace, place, Array.getElem?_setIfInBounds, Array.size_setIfInBounds]
    by_cases hslot : candidate.slot = slot
    · subst slot
      by_cases hlt : candidate.slot < frontier.placed.size
      · have hvalue : frontier.placed[candidate.slot] = false := by
          simpa [isPlaced, Array.getD_eq_getD_getElem?, hlt] using hleft
        simp [hlt, hvalue]
      · simp [hlt]
    · simp [hslot]
  have hintroduced :
      ((frontier.place candidate).unplace candidate).introduced = frontier.introduced := by
    apply Std.ExtTreeMap.ext_getElem?
    intro ident
    rw [introduced_unplace _ hnodup, introduced_place _ hnodup]
    split
    · exact decrement_increment (hcounts ident)
    · rfl
  cases frontier
  exact congr (congrArg Frontier.mk hplaced) hintroduced

/-- Placing a member marks its slot and no other one. -/
theorem isPlaced_place (frontier : Frontier) {candidate : Candidate} (other : Candidate)
    (h : candidate.slot < frontier.placed.size) :
    (frontier.place candidate).isPlaced other =
      (candidate.slot == other.slot || frontier.isPlaced other) := by
  simp only [isPlaced, place, Array.getD_eq_getD_getElem?, Array.getElem?_setIfInBounds]
  by_cases hslot : candidate.slot = other.slot
  · simp [hslot, hslot ▸ h]
  · simp [hslot]

end Frontier

namespace SearchUnit

variable {exps : List Expression}

/-- A member of a unit as the search sees it. -/
def candidate (ctx : Context) (unit : SearchUnit exps.length) (i : Fin exps.length) :
    Candidate where
  slot := unit.members.idxOf i
  index := i
  aliases := (exps.get i).entities
  anchored := (exps.get i).entities.any ctx.isBound
  opens := unit.entry.isEmpty || unit.entry.contains i
  interest := ctx.interest (exps.get i)
  bonus := ctx.bonus (exps.get i)

/-- The frontier after some members have been placed, the last one first. -/
def frontier (ctx : Context) (unit : SearchUnit exps.length) : List (Fin exps.length) → Frontier
  | [] => .start unit.members.length
  | i :: placed => (unit.frontier ctx placed).place (unit.candidate ctx i)

/-- Whether a member may come next, `placed` being the members placed so far, the last one first. -/
def follows (ctx : Context) (unit : SearchUnit exps.length) (placed : List (Fin exps.length))
    (i : Fin exps.length) : Bool :=
  if placed.isEmpty then unit.entry.isEmpty || unit.entry.contains i
  else ctx.validNext (placed.map exps.get) (exps.get i)

variable {ctx : Context} {unit : SearchUnit exps.length}

/-- The search sees the members one by one. -/
theorem candidates_eq_map (hnodup : unit.members.Nodup) :
    unit.candidates ctx = unit.members.map (unit.candidate ctx) := by
  apply List.ext_getElem
  · simp [candidates]
  · intro slot h _
    simp [candidates, candidate, hnodup.idxOf_getElem]

/-- The number of marks stays that of the members. -/
theorem size_placed_frontier (placed : List (Fin exps.length)) :
    (unit.frontier ctx placed).placed.size = unit.members.length := by
  induction placed with
  | nil => simp [frontier, Frontier.start]
  | cons i placed ih => simpa [frontier, Frontier.place] using ih

/-- The marks are those of the placed members. -/
theorem isPlaced_frontier {placed : List (Fin exps.length)} (hsub : placed ⊆ unit.members)
    (i : Fin exps.length) :
    (unit.frontier ctx placed).isPlaced (unit.candidate ctx i) = decide (i ∈ placed) := by
  induction placed with
  | nil =>
    rw [frontier, Frontier.start, Frontier.isPlaced, Array.getD_eq_getD_getElem?,
      Array.getElem?_replicate]
    split <;> simp
  | cons j placed ih =>
    have hj : j ∈ unit.members := hsub List.mem_cons_self
    have hslot : (unit.candidate ctx j).slot < (unit.frontier ctx placed).placed.size := by
      rw [size_placed_frontier]
      exact List.idxOf_lt_length_of_mem hj
    rw [frontier, Frontier.isPlaced_place _ _ hslot, ih (List.subset_of_cons_subset hsub)]
    have hsame : ((unit.candidate ctx j).slot == (unit.candidate ctx i).slot) = decide (i = j) := by
      rw [Bool.eq_iff_iff, beq_iff_eq, decide_eq_true_eq, eq_comm (a := i)]
      exact List.idxOf_inj hj
    rw [hsame, ← Bool.decide_or]
    simp

/-- An alias is kept when some placed member mentions it, with the number of those that do. -/
theorem introduced_frontier (placed : List (Fin exps.length)) (ident : Alias) :
    (unit.frontier ctx placed).introduced[ident]? =
      if placed.any fun i => (exps.get i).references ident then
        some (placed.countP fun i => (exps.get i).references ident)
      else none := by
  induction placed with
  | nil => rfl
  | cons i placed ih =>
    have hmention : ident ∈ (unit.candidate ctx i).aliases ↔ (exps.get i).references ident = true :=
      Expression.mem_entities_iff _ _
    rw [frontier, Frontier.introduced_place _ (Expression.nodup_entities _), ih, List.any_cons,
      List.countP_cons]
    simp only [hmention]
    cases (exps.get i).references ident with
    | false => simp only [Bool.false_or, Bool.false_eq_true, if_false, Nat.add_zero]
    | true =>
      by_cases hplaced : (placed.any fun i => (exps.get i).references ident) = true
      · simp only [Frontier.increment, hplaced, Bool.or_true, if_true, Option.getD_some]
      · have hzero : (placed.countP fun i => (exps.get i).references ident) = 0 := by
          simpa [List.countP_eq_zero] using hplaced
        simp only [Frontier.increment, hplaced, hzero, Bool.true_or, Bool.false_eq_true, if_true,
          if_false, Option.getD_none]

/-- An alias is introduced exactly when some placed member mentions it. -/
theorem introduces_frontier (placed : List (Fin exps.length)) (ident : Alias) :
    (unit.frontier ctx placed).introduces ident =
      placed.any fun i => (exps.get i).references ident := by
  rw [Frontier.introduces, Std.ExtTreeMap.contains_eq_isSome_getElem?, introduced_frontier]
  split
  · next h => rw [h, Option.isSome_some]
  · next h => rw [Option.isSome_none, Bool.eq_false_of_not_eq_true h]

/-- No alias is kept with the count zero. -/
theorem introduced_frontier_ne_zero (placed : List (Fin exps.length)) (ident : Alias) :
    (unit.frontier ctx placed).introduced[ident]? ≠ some 0 := by
  rw [introduced_frontier]
  split
  · next h =>
    rw [List.any_eq_true, ← List.countP_pos_iff] at h
    exact fun heq => h.ne' (Option.some.inj heq)
  · exact nofun

/-- The test on the frontier is the plain test on the placed members. -/
theorem reachable_frontier (placed : List (Fin exps.length)) (i : Fin exps.length) :
    (unit.frontier ctx placed).reachable placed.isEmpty (unit.candidate ctx i) =
      unit.follows ctx placed i := by
  cases placed with
  | nil => rfl
  | cons j placed =>
    rw [follows, Frontier.reachable, if_neg (by simp), if_neg (by simp), Context.validNext,
      Context.connects, Bool.eq_iff_iff]
    simp only [candidate, introduces_frontier, List.map_cons, List.isEmpty_cons, Bool.false_or,
      Bool.or_eq_true, List.any_eq_true, List.any_cons, List.any_map, Function.comp_apply]
    simp only [and_or_left, exists_or]

/-- Taking back the last member gives the frontier of the others. -/
theorem unplace_frontier {placed : List (Fin exps.length)} (hsub : placed ⊆ unit.members)
    {i : Fin exps.length} (hleft : i ∉ placed) :
    (unit.frontier ctx (i :: placed)).unplace (unit.candidate ctx i) = unit.frontier ctx placed :=
  Frontier.unplace_place _ (Expression.nodup_entities _)
    (by simpa [isPlaced_frontier hsub] using hleft) (introduced_frontier_ne_zero placed)

end SearchUnit

end PatternTraversal
