import Mathlib.Data.Fin.Basic
import Mathlib.Data.List.Forall2
import PatternTraversal.Proofs.Arrangement.Splitting

/-!
# What an arrangement depends on

Of the aliases an ordering looks at nothing but which expressions share one, which of them are
resolved or constrained, and whether all are declared. Lists of one length that agree in this fall
into the same components and the same units, their searches meet the same orders with the same
scores, and so they are arranged alike.
-/

namespace PatternTraversal

open Components (Linked Shares link)

/-! ## Components and units -/

/-- Disjoint sets that join the same numbers list the same classes. -/
theorem DisjointSet.classes_congr {n : ℕ} {one two : DisjointSet n}
    (h : ∀ i j, one.root i = one.root j ↔ two.root i = two.root j) : one.classes = two.classes := by
  -- a root is the least number of its set, in either forest
  have hroot (i : Fin n) : one.root i = two.root i := by
    apply le_antisymm
    · rw [← (h (two.root i) i).2 (two.root_root i)]
      exact one.root_le _
    · rw [← (h (one.root i) i).1 (one.root_root i)]
      exact two.root_le _
  have hroots : one.root = two.root := funext hroot
  have hclassOf : one.classOf = two.classOf := by
    funext r
    simp only [classOf, hroots]
  simp only [classes_eq_map, hroots, hclassOf]

/-- A unit read among as many numbers. -/
def SearchUnit.cast {n m : ℕ} (h : n = m) (unit : SearchUnit n) : SearchUnit m :=
  ⟨unit.members.map (Fin.cast h), unit.entry.map (Fin.cast h)⟩

/-- Among the same numbers a unit reads as it is. -/
@[simp] theorem SearchUnit.cast_rfl {n : ℕ} (unit : SearchUnit n) : unit.cast rfl = unit := by
  simp [cast]

/-- Expressions that touch the tested aliases alike do so as members of a component. -/
theorem Units.touches_congr {n : ℕ} {entities entities' : Fin n → List Alias}
    {test test' : Alias → Bool} (h : ∀ i, (entities' i).any test' = (entities i).any test) :
    touches entities' test' = touches entities test := by
  funext members
  unfold touches
  congr 1
  exact funext h

section Cast

variable {n m : ℕ} (h : n = m)

/-- Expressions that share aliases alike fall into the same components. -/
theorem Components.classes_link_cast {entities : Fin n → List Alias}
    {entities' : Fin m → List Alias}
    (hshares : ∀ i j, Shares entities' (i.cast h) (j.cast h) ↔ Shares entities i j) :
    (link entities').classes = (link entities).classes.map (List.map (Fin.cast h)) := by
  subst h
  have hclasses : (link entities').classes = (link entities).classes := by
    refine DisjointSet.classes_congr fun i j => ?_
    have hsame : Shares entities' = Shares entities := by
      funext i j
      exact propext (hshares i j)
    rw [root_link_eq_iff, root_link_eq_iff, Linked, Linked, hsame]
  simp [hclasses]

/-- Components whose members touch resolved and constrained aliases alike make up the same units. -/
theorem Units.ofComponents_cast {entities : Fin n → List Alias} {entities' : Fin m → List Alias}
    {isBound isFiltered isBound' isFiltered' : Alias → Bool}
    (hbound : ∀ i, (entities' (i.cast h)).any isBound' = (entities i).any isBound)
    (hfiltered : ∀ i, (entities' (i.cast h)).any isFiltered' = (entities i).any isFiltered)
    (components : List (List (Fin n))) :
    ofComponents entities' isBound' isFiltered' (components.map (List.map (Fin.cast h))) =
      ⟨(ofComponents entities isBound isFiltered components).units.map (SearchUnit.cast h),
        (ofComponents entities isBound isFiltered components).unanchored⟩ := by
  subst h
  have hboundAll : touches entities' isBound' = touches entities isBound := touches_congr hbound
  have hfilteredAll : touches entities' isFiltered' = touches entities isFiltered :=
    touches_congr hfiltered
  have hcast : (SearchUnit.cast rfl : SearchUnit n → SearchUnit n) = id :=
    funext SearchUnit.cast_rfl
  simp [ofComponents, hboundAll, hfilteredAll, hcast]

/-! ## Searches -/

namespace Search

variable {follows : List (Fin n) → Fin n → Bool} {follows' : List (Fin m) → Fin m → Bool}
  (hfollows : ∀ placed i, follows' (placed.map (Fin.cast h)) (i.cast h) = follows placed i)

include hfollows

/-- Members that may follow alike may come next alike. -/
theorem nextMembers_cast (members placed : List (Fin n)) :
    nextMembers (members.map (Fin.cast h)) follows' (placed.map (Fin.cast h)) =
      (nextMembers members follows placed).map (Fin.cast h) := by
  subst h
  have hsame : follows' = follows := by
    funext placed i
    simpa using hfollows placed i
  simp [hsame]

/-- Members that may follow alike are completed alike. -/
theorem completions_cast (members : List (Fin n)) (remaining : ℕ) (placed : List (Fin n)) :
    completions (members.map (Fin.cast h)) follows' remaining (placed.map (Fin.cast h)) =
      (completions members follows remaining placed).map (List.map (Fin.cast h)) := by
  induction remaining generalizing placed with
  | zero => rfl
  | succ remaining ih =>
    rw [completions, nextMembers_cast h hfollows, List.flatMap_map, completions, List.map_flatMap]
    congr 1
    funext i
    rw [← List.map_cons, ih, List.map_map, List.map_map]
    rfl

end Search

/-- Two searches with the same order and counts, whose scores fit words alike. The frontiers that
they end with may number the aliases differently. -/
structure Search.AnswersAlike (one two : List ℕ × Progress) : Prop where
  order : one.1 = two.1
  scored : one.2.scored = two.2.scored
  deadEnds : one.2.deadEnds = two.2.deadEnds
  fits : one.2.fits = two.2.fits

/-- Among members that gain alike the same one is chosen. -/
theorem Search.chooseFrom_cast {gain : Fin n → ℤ} {gain' : Fin m → ℤ}
    (hgain : ∀ i, gain' (i.cast h) = gain i) (members : List (Fin n)) :
    chooseFrom gain' none (members.map (Fin.cast h)) =
      (chooseFrom gain none members).map (Fin.cast h) := by
  subst h
  obtain rfl : gain' = gain := funext hgain
  simp

end Cast

/-! ## Lists -/

namespace Context

/-- Two lists under two contexts, of which an ordering sees the same. -/
structure Alike (ctx ctx' : Context) (exps exps' : List Expression) : Prop where
  length : exps.length = exps'.length
  options : ctx'.options = ctx.options
  declares : ctx'.DeclaresAll exps' ↔ ctx.DeclaresAll exps
  shares : ∀ i j : Fin exps.length,
    Shares (Expression.entitiesAt exps') (i.cast length) (j.cast length) ↔
      Shares (Expression.entitiesAt exps) i j
  anchors : ∀ i : Fin exps.length,
    ctx'.anchors (exps'.get (i.cast length)) = ctx.anchors (exps.get i)
  filtered : ∀ i : Fin exps.length,
    (exps'.get (i.cast length)).entities.any ctx'.isFiltered =
      (exps.get i).entities.any ctx.isFiltered
  interest : ∀ i : Fin exps.length,
    ctx'.interest (exps'.get (i.cast length)) = ctx.interest (exps.get i)
  labelOnly : ∀ i : Fin exps.length,
    (exps'.get (i.cast length)).isLabelOnly = (exps.get i).isLabelOnly

namespace Alike

variable {ctx ctx' : Context} {exps exps' : List Expression} (h : ctx.Alike ctx' exps exps')

include h

/-- Expressions at one place gain alike. -/
theorem gain (weight : ℤ) (i : Fin exps.length) :
    ctx'.gain weight (exps'.get (i.cast h.length)) = ctx.gain weight (exps.get i) := by
  simp only [Context.gain, bonus, h.interest, h.labelOnly, h.options]

/-- Orders of the same places score alike. -/
theorem gainsFrom (remaining : ℕ) (order : List (Fin exps.length)) :
    ctx'.gainsFrom remaining ((order.map (Fin.cast h.length)).map exps'.get) =
      ctx.gainsFrom remaining (order.map exps.get) := by
  induction order generalizing remaining with
  | nil => rfl
  | cons i rest ih => simp only [List.map_cons, Context.gainsFrom, h.gain, ih]

/-- Placed members let the same members follow. -/
theorem validNext (placed : List (Fin exps.length)) (i : Fin exps.length) :
    ctx'.validNext ((placed.map (Fin.cast h.length)).map exps'.get) (exps'.get (i.cast h.length)) =
      ctx.validNext (placed.map exps.get) (exps.get i) := by
  rw [Bool.eq_iff_iff, validNext_get_iff, validNext_get_iff, h.anchors]
  simp [h.shares]

/-- The units are the same. -/
theorem units_eq :
    (ctx'.units exps').units = (ctx.units exps).units.map (SearchUnit.cast h.length) ∧
      (ctx'.units exps').unanchored = (ctx.units exps).unanchored := by
  have hpartition : partition exps' = (partition exps).map (List.map (Fin.cast h.length)) :=
    Components.classes_link_cast h.length h.shares
  have hunits : ctx'.units exps' = ⟨(ctx.units exps).units.map (SearchUnit.cast h.length),
      (ctx.units exps).unanchored⟩ := by
    rw [units, units, hpartition]
    apply Units.ofComponents_cast
    · exact h.anchors
    · exact h.filtered
  rw [hunits]
  exact ⟨rfl, rfl⟩

end Alike

end Context

namespace SearchUnit

variable {ctx ctx' : Context} {exps exps' : List Expression} (h : ctx.Alike ctx' exps exps')
  (unit : SearchUnit exps.length)

include h

/-- The same members may follow in the unit. -/
theorem follows_cast (placed : List (Fin exps.length)) (i : Fin exps.length) :
    (unit.cast h.length).follows ctx' (placed.map (Fin.cast h.length)) (i.cast h.length) =
      unit.follows ctx placed i := by
  have hentry : (unit.entry.map (Fin.cast h.length)).contains (i.cast h.length) =
      unit.entry.contains i := by
    simp [List.contains_eq_mem]
  simp only [follows, cast, List.isEmpty_map, hentry, h.validNext]

/-- The same members of the unit may come next. -/
theorem nextMembers_cast (placed : List (Fin exps.length)) :
    (unit.cast h.length).nextMembers ctx' (placed.map (Fin.cast h.length)) =
      (unit.nextMembers ctx placed).map (Fin.cast h.length) :=
  Search.nextMembers_cast h.length (unit.follows_cast h) unit.members placed

/-- The orders of the unit are the same. -/
theorem completions_cast (remaining : ℕ) (placed : List (Fin exps.length)) :
    (unit.cast h.length).completions ctx' remaining (placed.map (Fin.cast h.length)) =
      (unit.completions ctx remaining placed).map (List.map (Fin.cast h.length)) :=
  Search.completions_cast h.length (unit.follows_cast h) unit.members remaining placed

/-- An order is ranked alike. -/
theorem rank_cast (placed : List (Fin exps.length)) (score : ℤ)
    (order : List (Fin exps.length)) :
    rank ctx' (placed.map (Fin.cast h.length)) score (order.map (Fin.cast h.length)) =
      rank ctx placed score order := by
  simp only [rank, h.gainsFrom, List.length_map]
  simp [Function.comp_def]

/-- The best order is the same. -/
theorem bestCompletion_cast (remaining : ℕ) (placed : List (Fin exps.length)) (score : ℤ) :
    (unit.cast h.length).bestCompletion ctx' remaining (placed.map (Fin.cast h.length)) score =
      unit.bestCompletion ctx remaining placed score := by
  rw [bestCompletion, completions_cast h, List.map_map, bestCompletion]
  congr 2
  funext order
  exact rank_cast h placed score order

/-- A member of the unit gains alike. -/
theorem gain_candidate_cast (weight : ℕ) (i : Fin exps.length) :
    ((unit.cast h.length).candidate ctx' (i.cast h.length)).gain weight =
      (unit.candidate ctx i).gain weight :=
  h.gain weight i

/-- The scores formed by the complete search fit words alike. -/
theorem fitsBelow_cast (remaining : ℕ) (placed : List (Fin exps.length)) (score : ℤ) :
    (unit.cast h.length).fitsBelow ctx' remaining (placed.map (Fin.cast h.length)) score =
      unit.fitsBelow ctx remaining placed score := by
  induction remaining generalizing placed score with
  | zero => rfl
  | succ remaining ih =>
    rw [fitsBelow_succ, nextMembers_cast h, List.all_map, fitsBelow_succ]
    congr 1
    funext i
    simp only [Function.comp_apply, memberFits, gain_candidate_cast h, ← List.map_cons, ih]

/-- The greedy order is the same, and the scores compared on the way fit words alike. -/
theorem greedily_cast (remaining : ℕ) (placed : List (Fin exps.length)) :
    (unit.cast h.length).greedily ctx' remaining (placed.map (Fin.cast h.length)) =
      ((unit.greedily ctx remaining placed).1.map (Fin.cast h.length),
        (unit.greedily ctx remaining placed).2) := by
  induction remaining generalizing placed with
  | zero => rfl
  | succ remaining ih =>
    rw [greedily, greedily, nextMembers_cast h]
    dsimp only
    rw [Search.chooseFrom_cast h.length (unit.gain_candidate_cast h (remaining + 1))]
    cases Search.chooseFrom (fun i => (unit.candidate ctx i).gain (remaining + 1)) none
        (unit.nextMembers ctx placed) with
    | none => rfl
    | some i =>
      simp only [Option.map_some, ← List.map_cons, ih, List.all_map]
      congr 2
      congr 1
      funext j
      rw [Function.comp_apply, gain_candidate_cast h]

end SearchUnit

namespace Context

namespace Alike

variable {ctx ctx' : Context} {exps exps' : List Expression} (h : ctx.Alike ctx' exps exps')

include h

/-- The unit is one of the other list. -/
theorem cast_mem_units {unit : SearchUnit exps.length} (hunit : unit ∈ (ctx.units exps).units) :
    unit.cast h.length ∈ (ctx'.units exps').units := by
  rw [h.units_eq.1]
  exact List.mem_map_of_mem hunit

/-- The greedy search of a unit answers alike. -/
theorem searchUnit_of_lt {unit : SearchUnit exps.length} (hunit : unit ∈ (ctx.units exps).units)
    (hlimit : ctx.options.searchLimit < unit.members.length) :
    Search.AnswersAlike (ctx'.searchUnit (unit.cast h.length)) (ctx.searchUnit unit) := by
  have hlength : (unit.cast h.length).members.length = unit.members.length := List.length_map _
  have hlimit' : ctx'.options.searchLimit < (unit.cast h.length).members.length := by
    rwa [h.options, hlength]
  have hgreedily := unit.greedily_cast h unit.members.length []
  rw [List.map_nil] at hgreedily
  obtain ⟨horder, hdead, hscored, hfits⟩ :=
    Context.searchUnit_of_lt (isCoherent_of_mem_units hunit) hlimit
  obtain ⟨horder', hdead', hscored', hfits'⟩ :=
    Context.searchUnit_of_lt (isCoherent_of_mem_units (h.cast_mem_units hunit)) hlimit'
  rw [hlength, hgreedily] at horder' hfits'
  refine ⟨?_, hscored'.trans hscored.symm, hdead'.trans hdead.symm, hfits'.trans hfits.symm⟩
  rw [horder', horder]
  simp [Function.comp_def]

/-- The complete search of a unit answers alike. -/
theorem searchUnit_of_le {unit : SearchUnit exps.length} (hunit : unit ∈ (ctx.units exps).units)
    (hlimit : unit.members.length ≤ ctx.options.searchLimit) :
    Search.AnswersAlike (ctx'.searchUnit (unit.cast h.length)) (ctx.searchUnit unit) := by
  have hlength : (unit.cast h.length).members.length = unit.members.length := List.length_map _
  have hlimit' : (unit.cast h.length).members.length ≤ ctx'.options.searchLimit := by
    rwa [h.options, hlength]
  have hbest := unit.bestCompletion_cast h unit.members.length [] 0
  have hfits := unit.fitsBelow_cast h unit.members.length [] 0
  have hcompletions := unit.completions_cast h unit.members.length []
  rw [List.map_nil] at hbest hfits hcompletions
  obtain ⟨best, hfound, hsearch⟩ :=
    Context.searchUnit_of_le (isCoherent_of_mem_units hunit) hlimit
  obtain ⟨best', hfound', hsearch'⟩ :=
    Context.searchUnit_of_le (isCoherent_of_mem_units (h.cast_mem_units hunit)) hlimit'
  rw [hlength, hbest, hfound] at hfound'
  cases hfound'
  rw [hsearch, hsearch', hlength, hcompletions, hfits, List.length_map]
  exact ⟨rfl, rfl, rfl, rfl⟩

/-- The search of a unit answers alike. -/
theorem searchUnit {unit : SearchUnit exps.length} (hunit : unit ∈ (ctx.units exps).units) :
    Search.AnswersAlike (ctx'.searchUnit (unit.cast h.length)) (ctx.searchUnit unit) :=
  (Nat.lt_or_ge ctx.options.searchLimit unit.members.length).elim
    (h.searchUnit_of_lt hunit) (h.searchUnit_of_le hunit)

/-- Placing a unit gives the same placement. -/
theorem placeUnit (placement : Placement) {unit : SearchUnit exps.length}
    (hunit : unit ∈ (ctx.units exps).units) :
    ctx'.placeUnit placement (unit.cast h.length) = ctx.placeUnit placement unit := by
  obtain ⟨horder, hscored, hdead, hfits⟩ := h.searchUnit hunit
  have hlength : (unit.cast h.length).members.length = unit.members.length := List.length_map _
  simp only [Context.placeUnit, horder, hscored, hdead, hfits, hlength, h.options]

/-- Placing all units gives the same placement. -/
theorem placeUnits : ctx'.placeUnits (ctx'.units exps').units =
    ctx.placeUnits (ctx.units exps).units := by
  rw [Context.placeUnits, Context.placeUnits, h.units_eq.1, List.foldl_map]
  exact List.foldl_ext _ _ _ fun placement unit hunit => h.placeUnit placement hunit

/-- The expressions at some places score alike. -/
theorem gains_inOrder (order : List (Fin exps.length)) :
    ctx'.gains (Expression.inOrder exps' (order.map Fin.val)) =
      ctx.gains (Expression.inOrder exps (order.map Fin.val)) := by
  have hval : order.map Fin.val = (order.map (Fin.cast h.length)).map Fin.val := by
    simp [Function.comp_def]
  rw [Expression.inOrder_map_val, hval, Expression.inOrder_map_val, gains, gains, h.gainsFrom]
  simp

/-- A list that is left as it is stays so. -/
theorem arrangeTrivially : ctx'.arrangeTrivially exps' = ctx.arrangeTrivially exps := by
  have hgains := h.gains_inOrder (List.finRange exps.length)
  rw [List.map_coe_finRange_eq_range, Expression.inOrder_range] at hgains
  rw [h.length, Expression.inOrder_range] at hgains
  simp only [Context.arrangeTrivially, score, hgains, h.length]

/-- The arrangement of the units is the same. -/
theorem arrangeUnits : ctx'.arrangeUnits exps' (ctx'.units exps').units =
    ctx.arrangeUnits exps (ctx.units exps).units := by
  obtain ⟨order, -, hmarks⟩ := marks_placeUnits ctx exps
  have hgains := h.gains_inOrder order
  rw [← hmarks.order_eq, Expression.inOrder, Expression.inOrder] at hgains
  simp only [Context.arrangeUnits, score, h.placeUnits, hgains]
  simp [h.units_eq.1]

/-- With all aliases declared the answer is the same. -/
theorem arrange (hdeclared : ctx.DeclaresAll exps) : ctx'.arrange exps' = ctx.arrange exps := by
  have hcheck : ctx.check exps = .ok () := (check_eq_ok_iff exps).2 hdeclared
  have hcheck' : ctx'.check exps' = .ok () := (check_eq_ok_iff exps').2 (h.declares.2 hdeclared)
  simp only [Context.arrange, hcheck, hcheck', ← h.length, h.arrangeTrivially, h.arrangeUnits,
    h.units_eq.2, h.options]

end Alike

end Context

end PatternTraversal
