import PatternTraversal.Proofs.Arrangement.Exploration
import PatternTraversal.Proofs.Arrangement.Units

/-!
# What the greedy search finds

The greedy choice is some member that may come next, and there is one as long as a member is left
over. So the greedy search never starts anew, and it finds a completion of what is placed.
-/

namespace PatternTraversal

namespace Search

section Choice

variable {n : ℕ}

/-- The better of two members: the earlier one unless the later one gains strictly more. -/
def prefer (gain : Fin n → ℤ) (earlier? : Option (Fin n)) (later : Fin n) : Fin n :=
  match earlier? with
  | none => later
  | some earlier => if gain earlier < gain later then later else earlier

/-- The first member of the largest gain, `best?` being the best one of those before. -/
def chooseFrom (gain : Fin n → ℤ) (best? : Option (Fin n)) (members : List (Fin n)) :
    Option (Fin n) :=
  members.foldl (fun best? i => some (prefer gain best? i)) best?

/-- Out of some members one is chosen. -/
theorem chooseFrom_ne_none (gain : Fin n → ℤ) (best? : Option (Fin n)) {members : List (Fin n)}
    (h : members ≠ []) : chooseFrom gain best? members ≠ none := by
  induction members generalizing best? with
  | nil => exact absurd rfl h
  | cons i rest ih =>
    by_cases hrest : rest = []
    · simp [chooseFrom, hrest]
    · exact ih _ hrest

/-- The chosen member is one of those given, and none of them gains more. -/
theorem of_chooseFrom_eq_some {gain : Fin n → ℤ} {best? : Option (Fin n)}
    {members : List (Fin n)} {i : Fin n} (h : chooseFrom gain best? members = some i) :
    i ∈ best?.toList ++ members ∧ ∀ j ∈ best?.toList ++ members, gain j ≤ gain i := by
  induction members generalizing best? with
  | nil =>
    obtain rfl : best? = some i := h
    simp
  | cons j rest ih =>
    obtain ⟨hmem, hle⟩ := ih h
    cases best? with
    | none => exact ⟨hmem, hle⟩
    | some known =>
      simp only [Option.toList_some, List.singleton_append, List.mem_cons, forall_eq_or_imp,
        prefer] at hmem hle ⊢
      split at hmem
      · grind
      · grind

end Choice

/-- One candidate weighed against the best one so far. -/
def weigh (first : Bool) (weight : ℕ) (progress : Progress) (best : Option (Candidate × ℤ))
    (candidate : Candidate) : Option (Candidate × ℤ) :=
  if progress.admits first candidate then
    let gain := candidate.gain weight
    match best with
    | none => some (candidate, gain)
    | some (known, score) => if score < gain then some (candidate, gain) else some (known, score)
  else best

/-- The greedy choice weighs one candidate after the other. -/
theorem pick?_eq_foldl (candidates : List Candidate) (first : Bool) (weight : ℕ)
    (progress : Progress) :
    pick? candidates first weight progress =
      (candidates.foldl (weigh first weight progress) none).map (·.1) := rfl

section Members

variable {n : ℕ} (candidate : Fin n → Candidate) (first : Bool) (weight : ℕ) (progress : Progress)

/-- A member as it is weighed: its candidate and what that gains. -/
def weighed (i : Fin n) : Candidate × ℤ := (candidate i, (candidate i).gain weight)

/-- Weighing a candidate that may come next prefers the better one. -/
theorem weigh_weighed (best? : Option (Fin n)) {i : Fin n}
    (hadmits : progress.admits first (candidate i) = true) :
    weigh first weight progress (best?.map (weighed candidate weight)) (candidate i) =
      some (weighed candidate weight (prefer (fun i => (candidate i).gain weight) best? i)) := by
  cases best? with
  | none => simp [weigh, hadmits, prefer, weighed]
  | some known =>
    simp only [weigh, hadmits, if_true, Option.map_some, prefer, weighed]
    split <;> rfl

/-- Weighing the candidates of some members chooses among those that may come next. -/
theorem foldl_weigh_map (best? : Option (Fin n)) (members : List (Fin n)) :
    (members.map candidate).foldl (weigh first weight progress)
        (best?.map (weighed candidate weight)) =
      (chooseFrom (fun i => (candidate i).gain weight) best?
        (members.filter fun i => progress.admits first (candidate i))).map
        (weighed candidate weight) := by
  induction members generalizing best? with
  | nil => rfl
  | cons i rest ih =>
    rw [List.map_cons, List.foldl_cons, List.filter_cons]
    by_cases hadmits : progress.admits first (candidate i) = true
    · rw [weigh_weighed candidate first weight progress best? hadmits, if_pos hadmits]
      exact ih (some _)
    · rw [weigh, if_neg hadmits, if_neg hadmits]
      exact ih best?

/-- The greedy choice is the first best of the members that may come next. -/
theorem pick?_map (members : List (Fin n)) :
    pick? (members.map candidate) first weight progress =
      (chooseFrom (fun i => (candidate i).gain weight) none
        (members.filter fun i => progress.admits first (candidate i))).map candidate := by
  have h := foldl_weigh_map candidate first weight progress none members
  rw [Option.map_none] at h
  rw [pick?_eq_foldl, h, Option.map_map]
  rfl

/-- The scores compared are those of the members that may come next. -/
theorem gainsFit_map (members : List (Fin n)) :
    gainsFit (members.map candidate) first weight progress =
      (members.filter fun i => progress.admits first (candidate i)).all
        fun i => Score.fits ((candidate i).gain weight) := by
  rw [gainsFit, List.all_map, List.all_filter]
  rfl

end Members

end Search

namespace SearchUnit

variable {ctx : Context} {exps : List Expression} {unit : SearchUnit exps.length}

/-- Placed members of a unit from which a search of it goes on. -/
def Started (unit : SearchUnit exps.length) (placed : List (Fin exps.length)) : Prop :=
  placed ⊆ unit.members ∧
    (placed = [] ∨ ∃ first ∈ placed, unit.entry = [] ∨ first ∈ unit.entry)

/-- A search starts with nothing placed. -/
theorem started_nil (unit : SearchUnit exps.length) : unit.Started [] :=
  ⟨List.nil_subset _, .inl rfl⟩

/-- A search goes on from a member that may come next. -/
theorem Started.cons {placed : List (Fin exps.length)} {i : Fin exps.length}
    (h : unit.Started placed) (hi : i ∈ unit.nextMembers ctx placed) :
    unit.Started (i :: placed) := by
  obtain ⟨hmem, _, hfollows⟩ := (Search.mem_nextMembers_iff placed i).1 hi
  refine ⟨List.cons_subset.2 ⟨hmem, h.1⟩, .inr ?_⟩
  rcases h.2 with rfl | ⟨first, hfirst, hentry⟩
  · exact ⟨i, List.mem_cons_self, by simpa [follows] using hfollows⟩
  · exact ⟨first, List.mem_cons_of_mem _ hfirst, hentry⟩

/-- In a coherent unit a search can go on until every member is placed. -/
theorem IsCoherent.nextMembers_ne_nil (h : unit.IsCoherent ctx) {placed : List (Fin exps.length)}
    (hstarted : unit.Started placed) (hlength : placed.length < unit.members.length) :
    unit.nextMembers ctx placed ≠ [] := by
  obtain ⟨hsub, rfl | ⟨first, hfirst, hentry⟩⟩ := hstarted
  · -- an order may start with any entry, and with any member when there is none
    have hopens : ∃ i ∈ unit.members, unit.entry = [] ∨ i ∈ unit.entry := by
      by_cases hentry : unit.entry = []
      · obtain ⟨i, hi⟩ := List.exists_mem_of_ne_nil _ h.nonempty
        exact ⟨i, hi, .inl hentry⟩
      · obtain ⟨i, hi⟩ := List.exists_mem_of_ne_nil _ hentry
        exact ⟨i, h.entry_subset hi, .inr hi⟩
    obtain ⟨i, hi, hentry⟩ := hopens
    exact List.ne_nil_of_mem ((Search.mem_nextMembers_iff [] i).2
      ⟨hi, List.not_mem_nil, by simpa [follows] using hentry⟩)
  · have hleft : ∃ i ∈ unit.members, i ∉ placed := by
      by_contra hall
      push Not at hall
      exact absurd (List.subperm_of_subset h.nodup hall).length_le (by omega)
    obtain ⟨i, hi, hnot⟩ := hleft
    obtain ⟨j, hj, hnew, hvalid⟩ := h.exists_next hsub hfirst hentry hi hnot
    refine List.ne_nil_of_mem ((Search.mem_nextMembers_iff placed j).2 ⟨hj, hnew, ?_⟩)
    rw [follows, if_neg (by simpa using List.ne_nil_of_mem hfirst), hvalid]

/-- The greedy completion of some placed members, and whether the scores compared on the way fit
words. -/
def greedily (ctx : Context) (unit : SearchUnit exps.length) :
    (remaining : ℕ) → (placed : List (Fin exps.length)) → List (Fin exps.length) × Bool
  | 0, _ => ([], true)
  | remaining + 1, placed =>
    let gain (i : Fin exps.length) := (unit.candidate ctx i).gain (remaining + 1)
    match Search.chooseFrom gain none (unit.nextMembers ctx placed) with
    | none => ([], true)
    | some i =>
      let (order, fits) := unit.greedily ctx remaining (i :: placed)
      (i :: order, (unit.nextMembers ctx placed).all (fun j => Score.fits (gain j)) && fits)

/-- The greedy completion places the chosen member first. -/
theorem greedily_succ {remaining : ℕ} {placed : List (Fin exps.length)} {i : Fin exps.length}
    (hchosen : Search.chooseFrom (fun i => (unit.candidate ctx i).gain (remaining + 1)) none
      (unit.nextMembers ctx placed) = some i) :
    unit.greedily ctx (remaining + 1) placed =
      (i :: (unit.greedily ctx remaining (i :: placed)).1,
        (unit.nextMembers ctx placed).all (fun j =>
          Score.fits ((unit.candidate ctx j).gain (remaining + 1))) &&
            (unit.greedily ctx remaining (i :: placed)).2) := by
  rw [greedily, hchosen]

/-- The members admitted by a frontier are those that may come next. -/
theorem filter_admits {progress : Progress} {placed : List (Fin exps.length)}
    (hfrontier : progress.frontier = unit.frontier ctx placed) (hsub : placed ⊆ unit.members) :
    unit.members.filter (fun i => progress.admits placed.isEmpty (unit.candidate ctx i)) =
      unit.nextMembers ctx placed :=
  List.filter_congr fun i _ => admits_candidate hfrontier hsub i

/-- In a coherent unit the greedy search finds the greedy completion of the placed members and gets
stuck nowhere. -/
theorem IsCoherent.extend_eq (h : unit.IsCoherent ctx) (remaining : ℕ)
    {placed : List (Fin exps.length)} (hstarted : unit.Started placed)
    (hlength : placed.length + remaining = unit.members.length)
    {progress : Progress} (hfrontier : progress.frontier = unit.frontier ctx placed) :
    (unit.greedily ctx remaining placed).1 ∈ unit.completions ctx remaining placed ∧
      ∃ progress', Search.extend (unit.members.map (unit.candidate ctx)) remaining
          (placed.map Fin.val) progress =
        ((placed.reverse ++ (unit.greedily ctx remaining placed).1).map Fin.val, progress') ∧
        progress'.deadEnds = progress.deadEnds ∧ progress'.scored = progress.scored ∧
        progress'.fits = (progress.fits && (unit.greedily ctx remaining placed).2) := by
  induction remaining generalizing placed progress with
  | zero =>
    exact ⟨by simp [Search.completions, greedily], progress, by simp [Search.extend, greedily],
      rfl, rfl, by simp [greedily]⟩
  | succ remaining ih =>
    have hnext := h.nextMembers_ne_nil hstarted (by omega)
    obtain ⟨i, hchosen⟩ := Option.ne_none_iff_exists'.1 (Search.chooseFrom_ne_none
      (fun i => (unit.candidate ctx i).gain (remaining + 1)) none hnext)
    have hi : i ∈ unit.nextMembers ctx placed := by
      simpa using (Search.of_chooseFrom_eq_some hchosen).1
    let progress₁ : Progress := { progress with
      fits := progress.fits && (unit.nextMembers ctx placed).all fun j =>
        Score.fits ((unit.candidate ctx j).gain (remaining + 1)) }
    have hplaced : (progress₁.place (unit.candidate ctx i)).frontier =
        unit.frontier ctx (i :: placed) := by
      rw [frontier, ← hfrontier]
      rfl
    obtain ⟨horder, progress', hextend, hdead, hscored, hfits⟩ :=
      ih (hstarted.cons hi) (by rw [List.length_cons]; omega) hplaced
    rw [greedily_succ hchosen]
    refine ⟨List.mem_flatMap.2 ⟨i, hi, List.mem_map_of_mem horder⟩, progress', ?_, hdead, hscored,
      by rw [hfits, ← Bool.and_assoc]; rfl⟩
    rw [Search.extend, List.isEmpty_map, Search.pick?_map, Search.gainsFit_map,
      filter_admits hfrontier hstarted.1, hchosen, List.append_cons, ← List.reverse_cons]
    exact hextend

end SearchUnit

end PatternTraversal
