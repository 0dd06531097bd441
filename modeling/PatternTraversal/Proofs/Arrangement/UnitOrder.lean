import PatternTraversal.Arrangement.Arrange
import PatternTraversal.Proofs.Arrangement.Greedy

/-!
# Orders of one unit

An order of a unit holds its members once, starts where the unit may start and is valid; a valid
order of the members starts there by itself. These are the complete completions of nothing. Either
search finds one of them without getting stuck, and the complete search finds the lexicographically
least one of the best score.
-/

namespace PatternTraversal

namespace SearchUnit

variable {ctx : Context} {exps : List Expression} {unit : SearchUnit exps.length}

/-- A valid order of the members of a unit that starts where the unit may start. -/
structure IsOrder (ctx : Context) (unit : SearchUnit exps.length)
    (order : List (Fin exps.length)) : Prop where
  perm : order.Perm unit.members
  opens : ∀ i ∈ order.head?, unit.entry = [] ∨ i ∈ unit.entry
  valid : ctx.ValidSequence (order.map exps.get)

/-- An order of the members of a unit in which each one may follow those before it. -/
structure ValidWithin (ctx : Context) (unit : SearchUnit exps.length)
    (segment : List (Fin exps.length)) : Prop where
  perm : segment.Perm unit.members
  valid : ctx.ValidSequence (segment.map exps.get)

/-- A valid order of a unit starts where the unit may start. -/
theorem isOrder_iff_validWithin {unit : SearchUnit exps.length}
    (hunit : unit ∈ (ctx.units exps).units) (segment : List (Fin exps.length)) :
    unit.IsOrder ctx segment ↔ unit.ValidWithin ctx segment := by
  refine ⟨fun h => ⟨h.perm, h.valid⟩, fun h => ⟨h.perm, fun first hfirst => ?_, h.valid⟩⟩
  by_cases hentry : unit.entry = []
  · exact .inl hentry
  · obtain ⟨rest, rfl⟩ := List.head?_eq_some_iff.1 hfirst
    have hsub : unit.entry ⊆ first :: rest := fun i hi =>
      h.perm.symm.subset ((Context.isCoherent_of_mem_units hunit).entry_subset hi)
    exact .inr ((Context.isFree_entry hunit hentry).head_mem_of_subset hsub h.valid)

/-- What may follow some members, the last one first, may follow them in the order of placing. -/
theorem follows_iff (placed : List (Fin exps.length)) (i : Fin exps.length) :
    unit.follows ctx placed i = true ↔
      (placed = [] → unit.entry = [] ∨ i ∈ unit.entry) ∧
        ctx.validNext (placed.reverse.map exps.get) (exps.get i) = true := by
  cases placed with
  | nil => simp [follows, Context.validNext]
  | cons j placed =>
    rw [follows, if_neg (by simp), Context.validNext_get_iff, Context.validNext_get_iff]
    simp only [List.mem_reverse, List.reverse_eq_nil_iff, reduceCtorEq, false_imp_iff, true_and]

/-- A continuation is new, starts where it may, and is valid behind what is placed. -/
theorem continues_iff (placed order : List (Fin exps.length)) :
    Search.Continues (unit.follows ctx) placed order ↔
      order.Nodup ∧ (∀ i ∈ order, i ∉ placed) ∧
        (placed = [] → ∀ i ∈ order.head?, unit.entry = [] ∨ i ∈ unit.entry) ∧
        ctx.ValidAfter (placed.reverse.map exps.get) (order.map exps.get) := by
  induction order generalizing placed with
  | nil => simp [Search.Continues, Context.ValidAfter]
  | cons i rest ih =>
    have hplaced : ((i :: placed).reverse.map exps.get) =
        placed.reverse.map exps.get ++ [exps.get i] := by simp
    rw [Search.Continues, ih, follows_iff, List.map_cons, Context.ValidAfter, hplaced,
      List.nodup_cons, List.forall_mem_cons]
    constructor
    · rintro ⟨⟨hi, hopens, hvalid⟩, hnodup, hnew, _, hrest⟩
      refine ⟨⟨fun h => hnew i h List.mem_cons_self, hnodup⟩,
        ⟨hi, fun j hj h => hnew j hj (List.mem_cons_of_mem _ h)⟩, ?_, hvalid, hrest⟩
      simpa using hopens
    · rintro ⟨⟨hnot, hnodup⟩, ⟨hi, hnew⟩, hopens, hvalid, hrest⟩
      refine ⟨⟨hi, by simpa using hopens, hvalid⟩, hnodup, fun j hj h => ?_, by simp, hrest⟩
      rcases List.mem_cons.1 h with rfl | h
      · exact hnot hj
      · exact hnew j hj h

/-- The orders of a unit are the complete completions of nothing. -/
theorem mem_completions_iff_isOrder (hnodup : unit.members.Nodup)
    (order : List (Fin exps.length)) :
    order ∈ unit.completions ctx unit.members.length [] ↔ unit.IsOrder ctx order := by
  rw [Search.mem_completions_iff, continues_iff]
  simp only [List.reverse_nil, List.map_nil, ← Context.validSequence_iff, forall_true_left]
  constructor
  · rintro ⟨hlength, hsub, hdistinct, _, hopens, hvalid⟩
    exact ⟨(List.subperm_of_subset hdistinct hsub).perm_of_length_le hlength.ge, hopens, hvalid⟩
  · rintro ⟨hperm, hopens, hvalid⟩
    exact ⟨hperm.length_eq, hperm.subset, hperm.nodup_iff.2 hnodup, fun _ _ => List.not_mem_nil,
      hopens, hvalid⟩

/-- In a coherent unit what is placed has a completion. -/
theorem IsCoherent.completions_ne_nil (h : unit.IsCoherent ctx) (remaining : ℕ)
    {placed : List (Fin exps.length)} (hstarted : unit.Started placed)
    (hlength : placed.length + remaining = unit.members.length) :
    unit.completions ctx remaining placed ≠ [] :=
  Search.completions_ne_nil (fun _ _ => Started.cons) (fun _ => h.nextMembers_ne_nil) remaining
    hstarted hlength

/-- A valid start of a coherent unit can be completed to one of its orders. -/
theorem IsCoherent.exists_isOrder_append (h : unit.IsCoherent ctx)
    {placed : List (Fin exps.length)} (hnodup : placed.Nodup) (hsub : placed ⊆ unit.members)
    (hopens : ∀ i ∈ placed.head?, unit.entry = [] ∨ i ∈ unit.entry)
    (hvalid : ctx.ValidSequence (placed.map exps.get)) :
    ∃ rest, unit.IsOrder ctx (placed ++ rest) := by
  have hstarted : unit.Started placed.reverse := by
    refine ⟨List.reverse_subset.2 hsub, ?_⟩
    cases placed with
    | nil => exact .inl rfl
    | cons first rest => exact .inr ⟨first, by simp, hopens first rfl⟩
  have hlength : placed.length ≤ unit.members.length :=
    (List.subperm_of_subset hnodup hsub).length_le
  have hcompletions := h.completions_ne_nil (unit.members.length - placed.length) hstarted
    (by rw [List.length_reverse]; omega)
  obtain ⟨rest, hrest⟩ := List.exists_mem_of_ne_nil _ hcompletions
  obtain ⟨hrestLength, hrestSub, hcontinues⟩ := (Search.mem_completions_iff _ _ rest).1 hrest
  obtain ⟨hrestNodup, hnew, hrestOpens, hafter⟩ := (continues_iff _ rest).1 hcontinues
  have hdisjoint : placed.Disjoint rest := fun i hi hirest =>
    hnew i hirest (List.mem_reverse.2 hi)
  refine ⟨rest, ?_, ?_, ?_⟩
  · refine (List.subperm_of_subset (hnodup.append hrestNodup hdisjoint)
      (List.append_subset.2 ⟨hsub, hrestSub⟩)).perm_of_length_le ?_
    rw [List.length_append]
    omega
  · cases placed with
    | nil => exact hrestOpens rfl
    | cons first others => exact hopens
  · rw [List.reverse_reverse] at hafter
    rw [Context.validSequence_iff] at hvalid ⊢
    rw [List.map_append, Context.validAfter_append_iff]
    exact ⟨hvalid, hafter⟩

/-- What the complete search of a unit starts from. -/
theorem frontier_start (hnodup : unit.members.Nodup) :
    Frontier.start (unit.candidates ctx).length = unit.frontier ctx [] := by
  rw [candidates_eq_map hnodup, List.length_map]
  rfl

/-- Places compare as their numbers do, one after the other. -/
theorem lex_map_val {n : ℕ} {one two : List (Fin n)} (h : List.Lex (· < ·) one two) :
    List.Lex (· < ·) (one.map Fin.val) (two.map Fin.val) := by
  induction h with
  | nil => exact .nil
  | cons _ ih => exact .cons ih
  | rel hlt => exact .rel hlt

/-- A complete order is ranked by its score. -/
theorem rank_start (order : List (Fin exps.length)) :
    rank ctx [] 0 order = ⟨order.map Fin.val, ctx.score (order.map exps.get)⟩ := by
  simp [rank, Context.score, Context.gains]

/-- The first best completion of nothing is the lexicographically least order of the best score. -/
theorem IsCoherent.bestCompletion_start (h : unit.IsCoherent ctx) :
    ∃ order, unit.IsOrder ctx order ∧
      unit.bestCompletion ctx unit.members.length [] 0 =
        some ⟨order.map Fin.val, ctx.score (order.map exps.get)⟩ ∧
      ∀ other, unit.IsOrder ctx other →
        ctx.score (other.map exps.get) ≤ ctx.score (order.map exps.get) ∧
          (ctx.score (other.map exps.get) = ctx.score (order.map exps.get) →
            other = order ∨ List.Lex (· < ·) (order.map Fin.val) (other.map Fin.val)) := by
  have hnodup := h.nodup
  have hcompletions : unit.completions ctx unit.members.length [] ≠ [] :=
    h.completions_ne_nil _ (started_nil unit) (by simp)
  have hsorted : ((unit.completions ctx unit.members.length []).map (rank ctx [] 0)).Pairwise
      fun one two => List.Lex (· < ·) one.order two.order := by
    rw [List.pairwise_map]
    refine (Search.pairwise_completions h.ascending _ _).imp fun hlex => ?_
    simpa only [rank_start] using lex_map_val hlex
  cases hbest : unit.bestCompletion ctx unit.members.length [] 0 with
  | none =>
    rw [bestCompletion, Ranked.best_eq_none_iff, List.map_eq_nil_iff] at hbest
    exact absurd hbest hcompletions
  | some found =>
    obtain ⟨hmem, hfirst⟩ := Ranked.best_listed_first hsorted hbest
    obtain ⟨order, horder, rfl⟩ := List.mem_map.1 hmem
    refine ⟨order, (mem_completions_iff_isOrder hnodup order).1 horder, by rw [rank_start],
      fun other hother => ?_⟩
    have hother := (mem_completions_iff_isOrder hnodup other).2 hother
    obtain ⟨hle, htie⟩ := hfirst _ (List.mem_map_of_mem hother)
    simp only [rank_start, Ranked.mk.injEq] at hle htie
    refine ⟨hle, fun heq => (htie heq).imp_left fun h => ?_⟩
    exact List.map_injective_iff.2 Fin.val_injective h.1

/-- The complete search of a coherent unit finds the first best completion of nothing, counts the
completions and gets stuck nowhere. -/
theorem IsCoherent.explore_candidates (h : unit.IsCoherent ctx) :
    Search.explore (unit.candidates ctx) (unit.candidates ctx).length [] 0
        (Progress.start (.start (unit.candidates ctx).length)) =
      (unit.bestCompletion ctx unit.members.length [] 0,
        { frontier := unit.frontier ctx []
          scored := (unit.completions ctx unit.members.length []).length
          deadEnds := 0
          fits := unit.fitsBelow ctx unit.members.length [] 0 }) := by
  have hnodup := h.nodup
  have hstuck : unit.stuck ctx unit.members.length [] = 0 :=
    Search.stuck_eq_zero (fun _ _ => Started.cons) (fun _ => h.nextMembers_ne_nil) _
      (started_nil unit) (by simp)
  have hexplore := explored unit.members.length (List.nil_subset unit.members) 0
    (Progress.start (.start (unit.candidates ctx).length))
    (frontier_start hnodup)
  rw [hstuck] at hexplore
  simpa [candidates_eq_map hnodup, Progress.start] using hexplore

/-- The greedy search of a coherent unit finds the greedy completion of nothing, which is one of its
orders, and gets stuck nowhere. -/
theorem IsCoherent.extend_candidates (h : unit.IsCoherent ctx) :
    unit.IsOrder ctx (unit.greedily ctx unit.members.length []).1 ∧ ∃ progress,
      Search.greedy (unit.candidates ctx)
          (Progress.start (.start (unit.candidates ctx).length)) =
        ((unit.greedily ctx unit.members.length []).1.map Fin.val, progress) ∧
      progress.deadEnds = 0 ∧ progress.scored = 0 ∧
      progress.fits = (unit.greedily ctx unit.members.length []).2 := by
  have hnodup := h.nodup
  obtain ⟨horder, progress, hextend, hdead, hscored, hfits⟩ :=
    h.extend_eq unit.members.length (started_nil unit) (by simp)
      (show (Progress.start (.start (unit.candidates ctx).length)).frontier =
        unit.frontier ctx [] from frontier_start hnodup)
  refine ⟨(mem_completions_iff_isOrder hnodup _).1 horder, progress, ?_, hdead, hscored,
    by rw [hfits, Progress.start, Bool.true_and]⟩
  rw [Search.greedy, candidates_eq_map hnodup, List.length_map]
  simpa [candidates_eq_map hnodup] using hextend

end SearchUnit

namespace Context

variable {ctx : Context} {exps : List Expression} {unit : SearchUnit exps.length}

/-- What the complete search of a coherent unit answers. -/
theorem searchUnit_of_le (h : unit.IsCoherent ctx)
    (hlimit : unit.members.length ≤ ctx.options.searchLimit) :
    ∃ best, unit.bestCompletion ctx unit.members.length [] 0 = some best ∧
      ctx.searchUnit unit = (best.order,
        { frontier := unit.frontier ctx []
          scored := (unit.completions ctx unit.members.length []).length
          deadEnds := 0
          fits := unit.fitsBelow ctx unit.members.length [] 0 }) := by
  obtain ⟨order, -, hfound, -⟩ := h.bestCompletion_start
  refine ⟨_, hfound, ?_⟩
  rw [searchUnit, if_pos hlimit, Search.exhaustive, h.explore_candidates, hfound]

/-- What the greedy search of a coherent unit answers. -/
theorem searchUnit_of_lt (h : unit.IsCoherent ctx)
    (hlimit : ctx.options.searchLimit < unit.members.length) :
    (ctx.searchUnit unit).1 = (unit.greedily ctx unit.members.length []).1.map Fin.val ∧
      (ctx.searchUnit unit).2.deadEnds = 0 ∧ (ctx.searchUnit unit).2.scored = 0 ∧
      (ctx.searchUnit unit).2.fits = (unit.greedily ctx unit.members.length []).2 := by
  obtain ⟨-, progress, hgreedy, hdead, hscored, hfits⟩ := h.extend_candidates
  rw [searchUnit, if_neg (Nat.not_le.2 hlimit), hgreedy]
  exact ⟨rfl, hdead, hscored, hfits⟩

/-- The complete search of a coherent unit finds an order that none of its orders outscores, the
lexicographically least one of its score. -/
theorem searchUnit_optimal (h : unit.IsCoherent ctx)
    (hlimit : unit.members.length ≤ ctx.options.searchLimit) :
    ∃ order, unit.IsOrder ctx order ∧ (ctx.searchUnit unit).1 = order.map Fin.val ∧
      ∀ other, unit.IsOrder ctx other →
        ctx.score (other.map exps.get) ≤ ctx.score (order.map exps.get) ∧
          (ctx.score (other.map exps.get) = ctx.score (order.map exps.get) →
            other = order ∨ List.Lex (· < ·) (order.map Fin.val) (other.map Fin.val)) := by
  obtain ⟨order, horder, hfound, hbest⟩ := h.bestCompletion_start
  obtain ⟨best, hsome, hsearch⟩ := searchUnit_of_le h hlimit
  cases hfound.symm.trans hsome
  exact ⟨order, horder, by rw [hsearch], hbest⟩

/-- Either search of a coherent unit finds one of its orders and gets stuck nowhere. -/
theorem searchUnit_isOrder (h : unit.IsCoherent ctx) :
    ∃ order, unit.IsOrder ctx order ∧ (ctx.searchUnit unit).1 = order.map Fin.val ∧
      (ctx.searchUnit unit).2.deadEnds = 0 := by
  rcases Nat.lt_or_ge ctx.options.searchLimit unit.members.length with hlimit | hlimit
  · obtain ⟨hfound, hdead, -, -⟩ := searchUnit_of_lt h hlimit
    exact ⟨_, h.extend_candidates.1, hfound, hdead⟩
  · obtain ⟨order, horder, hfound, -⟩ := searchUnit_optimal h hlimit
    obtain ⟨best, -, hsearch⟩ := searchUnit_of_le h hlimit
    exact ⟨order, horder, hfound, by rw [hsearch]⟩

end Context

end PatternTraversal
