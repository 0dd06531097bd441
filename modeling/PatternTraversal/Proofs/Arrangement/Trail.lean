import PatternTraversal.Proofs.Arrangement.UnitOrder

/-!
# Where a search stands

Both searches can be told with one list of chosen members that grows and shrinks, and with a note of
every state on the way. Told so they answer the same. In each state the marks and counts are those
of the members chosen so far, so the test on them is the plain test whether a member may follow; and
a complete search below some state ends in that state, whatever it tried in between.
-/

namespace PatternTraversal

namespace Search

/-- A state of a search: the members chosen so far, newest first, and what is kept about them. -/
structure State where
  chosen : List ℕ
  frontier : Frontier
deriving DecidableEq, Repr

/-- A search under way, with every state it has been in. -/
structure Trail where
  /-- Members chosen so far, newest first. -/
  chosen : List ℕ
  progress : Progress
  /-- States so far, the latest one first. -/
  visited : List State

namespace Trail

/-- The state that a search is in. -/
def state (trail : Trail) : State := ⟨trail.chosen, trail.progress.frontier⟩

/-- A search that has not begun. -/
def start (progress : Progress) : Trail := ⟨[], progress, [⟨[], progress.frontier⟩]⟩

/-- Change what is counted. -/
def count (trail : Trail) (change : Progress → Progress) : Trail :=
  { trail with progress := change trail.progress }

/-- Choose a member. -/
def place (trail : Trail) (candidate : Candidate) : Trail :=
  let chosen := candidate.index :: trail.chosen
  let progress := trail.progress.place candidate
  ⟨chosen, progress, ⟨chosen, progress.frontier⟩ :: trail.visited⟩

/-- Note the gain of a member and the score with it, and choose it. -/
def enter (trail : Trail) (candidate : Candidate) (gain score : ℤ) : Trail :=
  (trail.count fun progress => (progress.note gain).note (score + gain)).place candidate

/-- Take the member chosen last back. -/
def unplace (trail : Trail) (candidate : Candidate) : Trail :=
  let chosen := trail.chosen.tail
  let progress := trail.progress.unplace candidate
  ⟨chosen, progress, ⟨chosen, progress.frontier⟩ :: trail.visited⟩

end Trail

/-- The complete search along a trail: a member is chosen, the search goes on below it, and the
member is taken back. -/
def exploreTrail (candidates : List Candidate) :
    (remaining : ℕ) → ℤ → Trail → Option Ranked × Trail
  | 0, score, trail => (some ⟨trail.chosen.reverse, score⟩, trail.count Progress.complete)
  | remaining + 1, score, trail =>
    let first := trail.chosen.isEmpty
    let (best?, extended, trail) := candidates.foldl
      (fun (best?, extended, trail) candidate =>
        if trail.progress.admits first candidate then
          let gain := candidate.gain (remaining + 1)
          let (found?, trail) :=
            exploreTrail candidates remaining (score + gain) (trail.enter candidate gain score)
          (Ranked.first best? found?, true, trail.unplace candidate)
        else (best?, extended, trail))
      ((none : Option Ranked), false, trail)
    (best?, if extended then trail else trail.count Progress.deadEnd)

/-- The greedy search along a trail. -/
def extendTrail (candidates : List Candidate) : (remaining : ℕ) → Trail → List ℕ × Trail
  | 0, trail => (trail.chosen.reverse, trail)
  | remaining + 1, trail =>
    let first := trail.chosen.isEmpty
    let fits := gainsFit candidates first (remaining + 1) trail.progress
    match pick? candidates first (remaining + 1) trail.progress with
    | some candidate =>
      extendTrail candidates remaining
        ((trail.count fun progress => { progress with fits := progress.fits && fits }).place
          candidate)
    | none =>
      match candidates.find? fun candidate => !trail.progress.frontier.isPlaced candidate with
      | some candidate =>
        extendTrail candidates remaining ((trail.count Progress.deadEnd).place candidate)
      | none => (trail.chosen.reverse, trail.count Progress.deadEnd)

/-! ## The same answers -/

/-- One candidate tried by the complete search. -/
def tryCandidate (candidates : List Candidate) (remaining : ℕ) (chosen : List ℕ) (score : ℤ)
    (tried : Option Ranked × Bool × Progress) (candidate : Candidate) :
    Option Ranked × Bool × Progress :=
  let (best?, extended, progress) := tried
  if progress.admits chosen.isEmpty candidate then
    let gain := candidate.gain (remaining + 1)
    let (found?, progress) := explore candidates remaining (candidate.index :: chosen)
      (score + gain) (((progress.note gain).note (score + gain)).place candidate)
    (Ranked.first best? found?, true, progress.unplace candidate)
  else (best?, extended, progress)

/-- One candidate tried along a trail. -/
def tryAlong (candidates : List Candidate) (remaining : ℕ) (first : Bool) (score : ℤ)
    (tried : Option Ranked × Bool × Trail) (candidate : Candidate) :
    Option Ranked × Bool × Trail :=
  let (best?, extended, trail) := tried
  if trail.progress.admits first candidate then
    let gain := candidate.gain (remaining + 1)
    let (found?, trail) :=
      exploreTrail candidates remaining (score + gain) (trail.enter candidate gain score)
    (Ranked.first best? found?, true, trail.unplace candidate)
  else (best?, extended, trail)

variable {candidates : List Candidate}

/-- The complete search tries one candidate after the other. -/
theorem explore_eq_foldl (remaining : ℕ) (chosen : List ℕ) (score : ℤ) (progress : Progress) :
    explore candidates (remaining + 1) chosen score progress =
      let (best?, extended, progress) :=
        candidates.foldl (tryCandidate candidates remaining chosen score) (none, false, progress)
      (best?, if extended then progress else progress.deadEnd) := rfl

/-- Along a trail as well one candidate is tried after the other. -/
theorem exploreTrail_eq_foldl (remaining : ℕ) (score : ℤ) (trail : Trail) :
    exploreTrail candidates (remaining + 1) score trail =
      let (best?, extended, trail) := candidates.foldl
        (tryAlong candidates remaining trail.chosen.isEmpty score) (none, false, trail)
      (best?, if extended then trail else trail.count Progress.deadEnd) := rfl

/-- What was tried along a trail and what was tried without one, the trail being at the members
`chosen`. -/
structure Retold (chosen : List ℕ) (along : Option Ranked × Bool × Trail)
    (tried : Option Ranked × Bool × Progress) : Prop where
  best_eq : along.1 = tried.1
  extended_eq : along.2.1 = tried.2.1
  progress_eq : along.2.2.progress = tried.2.2
  chosen_eq : along.2.2.chosen = chosen

/-- Along a trail the complete search answers as it does without one, and ends at the members it
began with. -/
def Retells (candidates : List Candidate) (remaining : ℕ) : Prop :=
  ∀ (score : ℤ) (trail : Trail),
    let told := exploreTrail candidates remaining score trail
    let answer := explore candidates remaining trail.chosen score trail.progress
    told.1 = answer.1 ∧ told.2.progress = answer.2 ∧ told.2.chosen = trail.chosen

/-- Trying one more candidate is retold by trying it along the trail. -/
theorem Retold.tryAlong {remaining : ℕ} (h : Retells candidates remaining) {chosen : List ℕ}
    (score : ℤ) {along : Option Ranked × Bool × Trail} {tried : Option Ranked × Bool × Progress}
    (hretold : Retold chosen along tried) (candidate : Candidate) :
    Retold chosen (tryAlong candidates remaining chosen.isEmpty score along candidate)
      (tryCandidate candidates remaining chosen score tried candidate) := by
  obtain ⟨best?, extended, trail⟩ := along
  obtain ⟨_, _, _⟩ := tried
  obtain ⟨rfl, rfl, rfl, rfl⟩ := hretold
  by_cases hadmits : trail.progress.admits trail.chosen.isEmpty candidate = true
  · obtain ⟨hfound, hprogress, hchosen⟩ := h (score + candidate.gain (remaining + 1))
      (trail.enter candidate (candidate.gain (remaining + 1)) score)
    simp only [Search.tryAlong, tryCandidate, if_pos hadmits]
    refine ⟨congrArg (Ranked.first best?) hfound, rfl, ?_, ?_⟩
    · exact congrArg (fun progress => Progress.unplace progress candidate) hprogress
    · exact congrArg List.tail hchosen
  · simp only [Search.tryAlong, tryCandidate, if_neg hadmits]
    exact ⟨rfl, rfl, rfl, rfl⟩

/-- Along a trail the complete search answers as it does without one. -/
theorem retells (candidates : List Candidate) (remaining : ℕ) : Retells candidates remaining := by
  induction remaining with
  | zero => exact fun score trail => ⟨rfl, rfl, rfl⟩
  | succ remaining ih =>
    intro score trail
    have hfold : Retold trail.chosen
        (candidates.foldl (tryAlong candidates remaining trail.chosen.isEmpty score)
          (none, false, trail))
        (candidates.foldl (tryCandidate candidates remaining trail.chosen score)
          (none, false, trail.progress)) :=
      List.foldl_rel ⟨rfl, rfl, rfl, rfl⟩ fun candidate _ _ _ hretold =>
        hretold.tryAlong ih score candidate
    rw [exploreTrail_eq_foldl, explore_eq_foldl]
    obtain ⟨hbest, hextended, hprogress, hchosen⟩ := hfold
    dsimp only
    rw [hextended]
    split
    · exact ⟨hbest, hprogress, hchosen⟩
    · exact ⟨hbest, congrArg Progress.deadEnd hprogress, hchosen⟩

/-- Along a trail the greedy search answers as it does without one. -/
theorem extendTrail_retells (remaining : ℕ) (trail : Trail) :
    let told := extendTrail candidates remaining trail
    (told.1, told.2.progress) = extend candidates remaining trail.chosen trail.progress := by
  induction remaining generalizing trail with
  | zero => rfl
  | succ remaining ih =>
    rw [extendTrail, extend]
    cases hpick : pick? candidates trail.chosen.isEmpty (remaining + 1) trail.progress with
    | some candidate => exact ih _
    | none =>
      cases hleft : candidates.find? fun candidate =>
          !trail.progress.frontier.isPlaced candidate with
      | some candidate => exact ih _
      | none => rfl

end Search

namespace SearchUnit

variable {ctx : Context} {exps : List Expression} {unit : SearchUnit exps.length}

/-! ## The states of a trail -/

/-- A state in which some members of a unit are placed, the last one first. -/
structure StandsAt (ctx : Context) (unit : SearchUnit exps.length)
    (placed : List (Fin exps.length)) (state : Search.State) : Prop where
  state_eq : state = ⟨placed.map Fin.val, unit.frontier ctx placed⟩
  nodup : placed.Nodup
  subset : placed ⊆ unit.members

/-- A trail that stands at some members, and stood at some in every state it has been in since
those in `past`. -/
structure Keeps (ctx : Context) (unit : SearchUnit exps.length) (past : List Search.State)
    (placed : List (Fin exps.length)) (trail : Search.Trail) : Prop where
  standsAt : unit.StandsAt ctx placed trail.state
  visited : ∀ state ∈ trail.visited, state ∈ past ∨ ∃ earlier, unit.StandsAt ctx earlier state

variable {past : List Search.State} {placed : List (Fin exps.length)} {trail : Search.Trail}

/-- In its state a trail has the frontier of the placed members. -/
theorem Keeps.frontier_eq (h : unit.Keeps ctx past placed trail) :
    trail.progress.frontier = unit.frontier ctx placed :=
  congrArg Search.State.frontier h.standsAt.state_eq

/-- A trail that has not begun stands at no members. -/
theorem keeps_start (hnodup : unit.members.Nodup) :
    unit.Keeps ctx [] [] (Search.Trail.start
      (.start (.start (unit.candidates ctx).length))) := by
  have hstart : unit.StandsAt ctx []
      ⟨[], .start (unit.candidates ctx).length⟩ :=
    ⟨by rw [frontier_start hnodup]; rfl, List.nodup_nil, List.nil_subset _⟩
  refine ⟨hstart, fun state hstate => .inr ⟨[], ?_⟩⟩
  rw [List.mem_singleton.1 hstate]
  exact hstart

/-- Counting does not move a trail. -/
theorem Keeps.count (h : unit.Keeps ctx past placed trail) {change : Progress → Progress}
    (hchange : (change trail.progress).frontier = trail.progress.frontier) :
    unit.Keeps ctx past placed (trail.count change) := by
  refine ⟨?_, h.visited⟩
  rw [Search.Trail.state, Search.Trail.count, hchange]
  exact h.standsAt

/-- Choosing a new member moves a trail behind it. -/
theorem Keeps.place (h : unit.Keeps ctx past placed trail) {i : Fin exps.length}
    (hi : i ∈ unit.members) (hleft : i ∉ placed) :
    unit.Keeps ctx past (i :: placed) (trail.place (unit.candidate ctx i)) := by
  have hchosen : trail.chosen = placed.map Fin.val :=
    congrArg Search.State.chosen h.standsAt.state_eq
  have hstands : unit.StandsAt ctx (i :: placed) (trail.place (unit.candidate ctx i)).state := by
    refine ⟨?_, List.nodup_cons.2 ⟨hleft, h.standsAt.nodup⟩,
      List.cons_subset.2 ⟨hi, h.standsAt.subset⟩⟩
    rw [frontier, ← h.frontier_eq, List.map_cons, ← hchosen]
    rfl
  exact ⟨hstands, List.forall_mem_cons.2 ⟨.inr ⟨_, hstands⟩, h.visited⟩⟩

/-- Taking the last member back moves a trail to where it was before it. -/
theorem Keeps.unplace {i : Fin exps.length} (h : unit.Keeps ctx past (i :: placed) trail) :
    unit.Keeps ctx past placed (trail.unplace (unit.candidate ctx i)) := by
  obtain ⟨hi, hsub⟩ := List.cons_subset.1 h.standsAt.subset
  obtain ⟨hleft, hnodup⟩ := List.nodup_cons.1 h.standsAt.nodup
  have hchosen : trail.chosen = (i :: placed).map Fin.val :=
    congrArg Search.State.chosen h.standsAt.state_eq
  have hstands : unit.StandsAt ctx placed (trail.unplace (unit.candidate ctx i)).state := by
    refine ⟨?_, hnodup, hsub⟩
    rw [← unplace_frontier hsub hleft, ← h.frontier_eq]
    simp [Search.Trail.state, Search.Trail.unplace, Progress.unplace, hchosen]
  exact ⟨hstands, List.forall_mem_cons.2 ⟨.inr ⟨_, hstands⟩, h.visited⟩⟩

/-- An admitted member is not placed yet. -/
theorem Keeps.notMem_of_admits (h : unit.Keeps ctx past placed trail) {first : Bool}
    {i : Fin exps.length} (hadmits : trail.progress.admits first (unit.candidate ctx i) = true) :
    i ∉ placed := by
  rw [Progress.admits, h.frontier_eq, isPlaced_frontier h.standsAt.subset] at hadmits
  simp only [Bool.and_eq_true, Bool.not_eq_true', decide_eq_false_iff_not] at hadmits
  exact hadmits.1

/-- Trying a member leaves a trail where it is, when searching below it does. -/
theorem Keeps.tryAlong {remaining : ℕ}
    (hbelow : ∀ (placed : List (Fin exps.length)) (score : ℤ) (trail : Search.Trail),
      unit.Keeps ctx past placed trail → unit.Keeps ctx past placed
        (Search.exploreTrail (unit.members.map (unit.candidate ctx)) remaining score trail).2)
    {first : Bool} {score : ℤ} {tried : Option Ranked × Bool × Search.Trail}
    (h : unit.Keeps ctx past placed tried.2.2) {i : Fin exps.length} (hi : i ∈ unit.members) :
    unit.Keeps ctx past placed (Search.tryAlong (unit.members.map (unit.candidate ctx)) remaining
      first score tried (unit.candidate ctx i)).2.2 := by
  obtain ⟨best?, extended, trail⟩ := tried
  by_cases hadmits : trail.progress.admits first (unit.candidate ctx i) = true
  · simp only [Search.tryAlong, if_pos hadmits]
    have hentered : unit.Keeps ctx past (i :: placed) (trail.enter (unit.candidate ctx i)
        ((unit.candidate ctx i).gain (remaining + 1)) score) :=
      Keeps.place (h.count rfl) hi (h.notMem_of_admits hadmits)
    exact (hbelow _ _ _ hentered).unplace
  · simp only [Search.tryAlong, if_neg hadmits]
    exact h

/-- The complete search ends where it began, and stands at some members all the way. -/
theorem Keeps.exploreTrail (h : unit.Keeps ctx past placed trail) (remaining : ℕ) (score : ℤ) :
    unit.Keeps ctx past placed
      (Search.exploreTrail (unit.members.map (unit.candidate ctx)) remaining score trail).2 := by
  induction remaining generalizing placed score trail with
  | zero => exact h.count rfl
  | succ remaining ih =>
    rw [Search.exploreTrail_eq_foldl]
    -- trying a candidate leaves the trail where it is, so all of them are tried from there
    have hfold : unit.Keeps ctx past placed ((unit.members.map (unit.candidate ctx)).foldl
        (Search.tryAlong (unit.members.map (unit.candidate ctx)) remaining trail.chosen.isEmpty
          score) (none, false, trail)).2.2 := by
      refine List.foldlRecOn
        (motive := fun (tried : Option Ranked × Bool × Search.Trail) =>
          unit.Keeps ctx past placed tried.2.2) _ _ h ?_
      intro tried htried candidate hcandidate
      obtain ⟨i, hi, rfl⟩ := List.mem_map.1 hcandidate
      exact htried.tryAlong (fun _ score _ hkeeps => ih hkeeps score) hi
    dsimp only
    split
    · exact hfold
    · exact hfold.count rfl

/-- The greedy search stands at some members all the way. -/
theorem Keeps.extendTrail (h : unit.Keeps ctx past placed trail) (remaining : ℕ) :
    ∃ ended, unit.Keeps ctx past ended
      (Search.extendTrail (unit.members.map (unit.candidate ctx)) remaining trail).2 := by
  induction remaining generalizing placed trail with
  | zero => exact ⟨placed, h⟩
  | succ remaining ih =>
    rw [Search.extendTrail]
    split
    -- chosen or starting anew, the next member is one that is not placed yet
    case h_1 candidate hpick =>
      rw [Search.pick?_map] at hpick
      obtain ⟨i, hchosen, rfl⟩ := Option.map_eq_some_iff.1 hpick
      obtain ⟨hi, hadmits⟩ := List.mem_filter.1 (Search.of_chooseFrom_eq_some hchosen).1
      exact ih (Keeps.place (h.count rfl) hi (h.notMem_of_admits hadmits))
    case h_2 =>
      split
      case h_1 candidate hfind =>
        obtain ⟨i, hi, rfl⟩ := List.mem_map.1 (List.mem_of_find?_eq_some hfind)
        have hleft := List.find?_some hfind
        rw [h.frontier_eq, isPlaced_frontier h.standsAt.subset] at hleft
        exact ih (Keeps.place (h.count rfl) hi (by simpa using hleft))
      case h_2 => exact ⟨placed, h.count rfl⟩

/-! ## What is known in a state -/

/-- A state knows what there is to know about the members of `order`, which have been chosen one
after the other. -/
structure Tracks (ctx : Context) (unit : SearchUnit exps.length) (order : List (Fin exps.length))
    (state : Search.State) : Prop where
  chosen_eq : state.chosen = order.reverse.map Fin.val
  nodup : order.Nodup
  subset : order ⊆ unit.members
  /-- The marks are those of the members of the order. -/
  marks_eq : state.frontier.placed.toList = unit.members.map fun i => decide (i ∈ order)
  /-- The aliases kept are those that members of the order mention, each with their number. -/
  introduced_eq : ∀ ident : Alias, state.frontier.introduced[ident]? =
    if order.any fun i => (exps.get i).references ident then
      some (order.countP fun i => (exps.get i).references ident)
    else none
  /-- A member may come next when it may follow the order. -/
  reachable_eq : order ≠ [] → ∀ i ∈ unit.members,
    state.frontier.reachable false (unit.candidate ctx i) =
      ctx.validNext (order.map exps.get) (exps.get i)

/-- The marks are those of the placed members. -/
theorem placed_frontier (hnodup : unit.members.Nodup) {placed : List (Fin exps.length)}
    (hsub : placed ⊆ unit.members) :
    (unit.frontier ctx placed).placed.toList = unit.members.map fun i => decide (i ∈ placed) := by
  apply List.ext_getElem
  · rw [Array.length_toList, size_placed_frontier, List.length_map]
  · intro slot hslot hmember
    rw [List.length_map] at hmember
    have hmark : (unit.frontier ctx placed).isPlaced (unit.candidate ctx unit.members[slot]) =
        decide (unit.members[slot] ∈ placed) := isPlaced_frontier hsub _
    rw [Frontier.isPlaced, candidate, hnodup.idxOf_getElem, Array.getD_eq_getD_getElem?] at hmark
    rw [List.getElem_map, ← hmark]
    simp [size_placed_frontier, hmember]

/-- A state in which some members are placed knows what there is to know about them. -/
theorem StandsAt.tracks (hnodup : unit.members.Nodup) {state : Search.State}
    (h : unit.StandsAt ctx placed state) : unit.Tracks ctx placed.reverse state := by
  obtain ⟨rfl, hplaced, hsub⟩ := h
  refine ⟨by rw [List.reverse_reverse], List.nodup_reverse.2 hplaced, List.reverse_subset.2 hsub,
    ?_, fun ident => ?_, fun hstarted i hi => ?_⟩
  · simp only [placed_frontier hnodup hsub, List.mem_reverse]
  · rw [introduced_frontier, List.any_reverse, List.countP_reverse]
  · have hstarted : placed ≠ [] := List.reverse_ne_nil_iff.1 hstarted
    have hreachable : (unit.frontier ctx placed).reachable placed.isEmpty (unit.candidate ctx i) =
        unit.follows ctx placed i := reachable_frontier placed i
    rw [List.isEmpty_eq_false_iff.2 hstarted] at hreachable
    rw [hreachable, Bool.eq_iff_iff, follows_iff]
    exact and_iff_right fun hnil => absurd hnil hstarted

/-! ## The searches of a unit -/

/-- The complete search of a unit along a trail. -/
def completeTrail (ctx : Context) (unit : SearchUnit exps.length) : Option Ranked × Search.Trail :=
  let candidates := unit.candidates ctx
  Search.exploreTrail candidates candidates.length 0 (.start (.start (.start candidates.length)))

/-- The greedy search of a unit along a trail. -/
def greedyTrail (ctx : Context) (unit : SearchUnit exps.length) : List ℕ × Search.Trail :=
  let candidates := unit.candidates ctx
  Search.extendTrail candidates candidates.length (.start (.start (.start candidates.length)))

/-- In every state of either search some members are placed. -/
theorem exists_standsAt (hnodup : unit.members.Nodup) {state : Search.State}
    (hstate : state ∈ (unit.completeTrail ctx).2.visited ++ (unit.greedyTrail ctx).2.visited) :
    ∃ placed, unit.StandsAt ctx placed state := by
  have hstart : unit.Keeps ctx [] [] (.start (.start (.start (unit.candidates ctx).length))) :=
    keeps_start hnodup
  have hcomplete := hstart.exploreTrail (unit.candidates ctx).length 0
  obtain ⟨_, hgreedy⟩ := hstart.extendTrail (unit.candidates ctx).length
  rw [← candidates_eq_map hnodup] at hcomplete hgreedy
  rcases List.mem_append.1 hstate with hstate | hstate
  · exact (hcomplete.visited state hstate).resolve_left List.not_mem_nil
  · exact (hgreedy.visited state hstate).resolve_left List.not_mem_nil

/-- In every state of either search the marks, the aliases kept with their counts, and the test are
those of the members chosen so far, and a complete search begun in such a state ends in it. The
trails tell of the very searches that a unit is ordered by. -/
theorem states_track_members (hunit : unit ∈ (ctx.units exps).units) :
    (∀ (remaining : ℕ) (score : ℤ) (trail : Search.Trail),
      let told := Search.exploreTrail (unit.candidates ctx) remaining score trail
      (told.1, told.2.progress) =
        Search.explore (unit.candidates ctx) remaining trail.chosen score trail.progress) ∧
    ((unit.greedyTrail ctx).1, (unit.greedyTrail ctx).2.progress) =
      Search.greedy (unit.candidates ctx) (.start (.start (unit.candidates ctx).length)) ∧
    ∀ state ∈ (unit.completeTrail ctx).2.visited ++ (unit.greedyTrail ctx).2.visited,
      (∃ order, unit.Tracks ctx order state) ∧
      ∀ (remaining : ℕ) (score : ℤ) (trail : Search.Trail), trail.state = state →
        (Search.exploreTrail (unit.candidates ctx) remaining score trail).2.state = state := by
  have hnodup := (Context.isCoherent_of_mem_units hunit).nodup
  refine ⟨fun remaining score trail => ?_, Search.extendTrail_retells _ _, fun state hstate => ?_⟩
  · obtain ⟨hanswer, hprogress, -⟩ := Search.retells (unit.candidates ctx) remaining score trail
    exact Prod.ext hanswer hprogress
  · obtain ⟨placed, hplaced⟩ := exists_standsAt hnodup hstate
    refine ⟨⟨_, hplaced.tracks hnodup⟩, ?_⟩
    rintro remaining score trail rfl
    have hkeeps : unit.Keeps ctx trail.visited placed trail := ⟨hplaced, fun _ h => .inl h⟩
    rw [candidates_eq_map hnodup]
    exact (hkeeps.exploreTrail remaining score).standsAt.state_eq.trans hplaced.state_eq.symm

/-- Behind a loop and a hop, one more copy of the hop and a scan being left: the alias of the loop
is counted once for the loop and once for the hop. -/
theorem states_track_loop :
    let hop : Expression := .hop ⟨"a"⟩ ⟨"b"⟩ (some "R") none
    let exps : List Expression :=
      [.hop ⟨"a"⟩ ⟨"a"⟩ (some "R") none, hop, hop, .labelScan ⟨"b"⟩ "L"]
    let ctx : Context := ⟨.empty, ∅, ∅, ⟨0, 8, true⟩⟩
    let unit : SearchUnit exps.length := ⟨[0, 1, 2, 3], []⟩
    let state : Search.State :=
      ⟨[1, 0], #[true, true, false, false], .ofList [((⟨"a"⟩ : Alias), 2), (⟨"b"⟩, 1)]⟩
    unit ∈ (ctx.units exps).units ∧ state ∈ (unit.completeTrail ctx).2.visited ∧
      unit.Tracks ctx [0, 1] state ∧ state.frontier.introduced[(⟨"a"⟩ : Alias)]? = some 2 ∧
      (Search.exploreTrail (unit.candidates ctx) 2 0 ⟨[1, 0], .start state.frontier, []⟩).2.state =
        state := by
  intro hop exps ctx unit state
  have hunit : unit ∈ (ctx.units exps).units := by decide +kernel
  have hstate : state ∈ (unit.completeTrail ctx).2.visited := by decide +kernel
  obtain ⟨-, -, hstates⟩ := states_track_members hunit
  obtain ⟨⟨order, htracks⟩, hends⟩ := hstates state (List.mem_append_left _ hstate)
  obtain rfl : [0, 1] = order := by
    apply List.reverse_injective
    exact List.map_injective_iff.2 Fin.val_injective htracks.chosen_eq
  exact ⟨hunit, hstate, htracks, htracks.introduced_eq _, hends 2 0 _ rfl⟩

end SearchUnit

end PatternTraversal
