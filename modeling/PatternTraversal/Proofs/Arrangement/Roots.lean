import PatternTraversal.Proofs.Arrangement.UnitOrder

/-!
# Roots of an arrangement

The units are placed one behind the other. Behind other units a unit can be entered only against
the rules, since it shares no alias with them and touches no resolved one, while inside a unit each
member follows those before it. So the roots of an arrangement are its first position and the
positions of the expressions that nothing before them leads to.
-/

namespace PatternTraversal

namespace Context

variable {ctx : Context} {exps : List Expression}

/-- What is known when the places in `order` have been placed: the roots mark the first position and
those that nothing before them leads to. -/
structure Marks (ctx : Context) (placement : Placement) (order : List (Fin exps.length)) :
    Prop where
  order_eq : placement.order = order.map Fin.val
  ascending : placement.roots.Pairwise (· < ·)
  bounded : ∀ p ∈ placement.roots, p < order.length
  mem_roots_iff : ∀ p (hp : p < order.length), p ∈ placement.roots ↔
    p = 0 ∨ ctx.validNext ((order.take p).map exps.get) (exps.get order[p]) = false
  deadEnds : placement.deadEnds = 0

/-- Inside a valid order of a unit each expression follows those before it, whatever was placed
before the unit. -/
theorem validNext_append_take {placed order : List (Fin exps.length)}
    (hvalid : ctx.ValidSequence (order.map exps.get)) {p : ℕ} (hpos : p ≠ 0)
    (hp : p < order.length) :
    ctx.validNext ((placed ++ order.take p).map exps.get) (exps.get order[p]) = true := by
  have h := hvalid p (by simpa using hp)
  rw [List.getElem_map, ← List.map_take] at h
  refine validNext_mono h ?_ (List.map_subset _ (List.subset_append_right _ _))
  simp only [ne_eq, List.map_eq_nil_iff, List.take_eq_nil_iff, not_or]
  exact ⟨hpos, List.ne_nil_of_length_pos (by omega)⟩

/-- Nothing outside of a free unit leads into it. -/
theorem IsFree.validNext_eq_false {members placed : List (Fin exps.length)}
    (hfree : ctx.IsFree exps members) (hne : placed ≠ []) (houtside : ∀ j ∈ placed, j ∉ members)
    {i : Fin exps.length} (hi : i ∈ members) :
    ctx.validNext (placed.map exps.get) (exps.get i) = false := by
  rw [Bool.eq_false_iff]
  intro h
  obtain h | h | ⟨j, hj, hshare⟩ := (validNext_get_iff placed i).1 h
  · exact hne h
  · exact Bool.false_ne_true ((hfree.unanchored i hi).symm.trans h)
  · exact houtside j hj (hfree.closed i hi j hshare.symm)

/-- Behind a valid order that nothing before it leads into, one more root marks where it starts. -/
theorem Marks.mem_roots_append_iff {placement : Placement} {order segment : List (Fin exps.length)}
    (h : Marks ctx placement order) (hvalid : ctx.ValidSequence (segment.map exps.get))
    (hpos : 0 < segment.length)
    (hstart : order = [] ∨ ctx.validNext (order.map exps.get) (exps.get segment[0]) = false)
    (p : ℕ) (hp : p < (order ++ segment).length) :
    p ∈ placement.roots ++ [order.length] ↔ p = 0 ∨
      ctx.validNext (((order ++ segment).take p).map exps.get) (exps.get (order ++ segment)[p]) =
        false := by
  rw [List.mem_append, List.mem_singleton]
  rcases Nat.lt_trichotomy p order.length with hlt | rfl | hgt
  · -- before the segment nothing has changed
    rw [List.take_append_of_le_length hlt.le, List.getElem_append_left hlt,
      ← h.mem_roots_iff p hlt]
    exact or_iff_left hlt.ne
  · -- the first member of the segment
    simp only [or_true, true_iff, List.take_left, List.getElem_append_right (le_refl _),
      Nat.sub_self]
    exact hstart.imp_left fun hnil => by rw [hnil, List.length_nil]
  · -- a later member of the segment
    obtain ⟨q, rfl⟩ : ∃ q, p = order.length + q := ⟨p - order.length, by omega⟩
    have hq : q < segment.length := by simpa using hp
    have hnext : ctx.validNext ((order ++ segment.take q).map exps.get)
        (exps.get segment[q]) = true := validNext_append_take hvalid (by omega) hq
    have hroot : order.length + q ∉ placement.roots := fun hmem => by
      have := h.bounded _ hmem
      omega
    simp only [List.take_length_add_append, List.getElem_append_right (Nat.le_add_right _ _),
      Nat.add_sub_cancel_left, hnext]
    simp only [hroot, false_or, Bool.true_eq_false, or_false]
    omega

/-- Placing one more unit keeps the marks. -/
theorem Marks.placeUnit {placement : Placement} {order : List (Fin exps.length)}
    (h : Marks ctx placement order) {unit : SearchUnit exps.length} (hunit : unit.IsCoherent ctx)
    (hfree : order ≠ [] → ctx.IsFree exps unit.members) (houtside : ∀ i ∈ order, i ∉ unit.members) :
    ∃ segment, unit.IsOrder ctx segment ∧
      Marks ctx (ctx.placeUnit placement unit) (order ++ segment) := by
  obtain ⟨segment, hsegment, hfound, hdead⟩ := searchUnit_isOrder hunit
  have hlength : placement.order.length = order.length := by rw [h.order_eq, List.length_map]
  have hpos : 0 < segment.length := by
    rw [hsegment.perm.length_eq]
    exact List.length_pos_of_ne_nil hunit.nonempty
  have hstart : order = [] ∨ ctx.validNext (order.map exps.get) (exps.get segment[0]) = false := by
    by_cases hne : order = []
    · exact .inl hne
    · exact .inr ((hfree hne).validNext_eq_false hne houtside
        (hsegment.perm.subset (List.getElem_mem hpos)))
  refine ⟨segment, hsegment, ?_, ?_, ?_, ?_, ?_⟩
  · simp [Context.placeUnit, h.order_eq, hfound]
  · simp only [Context.placeUnit, hlength, List.pairwise_append]
    refine ⟨h.ascending, by simp, fun p hp q hq => ?_⟩
    rw [List.mem_singleton.1 hq]
    exact h.bounded p hp
  · simp only [Context.placeUnit, hlength, List.mem_append, List.mem_singleton, List.length_append]
    rintro p (hp | rfl)
    · exact Nat.lt_add_right _ (h.bounded p hp)
    · omega
  · simp only [Context.placeUnit, hlength]
    exact h.mem_roots_append_iff hsegment.valid hpos hstart
  · simp [Context.placeUnit, h.deadEnds, hdead]

/-- Placing several units keeps the marks, when those behind something else are free. -/
theorem Marks.foldl_placeUnit {placement : Placement} {order : List (Fin exps.length)}
    (h : Marks ctx placement order) {units : List (SearchUnit exps.length)}
    (hunits : ∀ unit ∈ units, unit.IsCoherent ctx)
    (hnodup : (order ++ units.flatMap SearchUnit.members).Nodup)
    (hfree : ∀ unit ∈ units, order ≠ [] → ctx.IsFree exps unit.members)
    (htail : ∀ unit ∈ units.tail, ctx.IsFree exps unit.members) :
    ∃ segments, segments.Perm (units.flatMap SearchUnit.members) ∧
      Marks ctx (units.foldl ctx.placeUnit placement) (order ++ segments) := by
  induction units generalizing placement order with
  | nil => exact ⟨[], .nil, by simpa using h⟩
  | cons unit rest ih =>
    have houtside : ∀ i ∈ order, i ∉ unit.members := fun i hi hmem =>
      (List.nodup_append.1 hnodup).2.2 i hi i
        (List.mem_flatMap.2 ⟨unit, List.mem_cons_self, hmem⟩) rfl
    obtain ⟨segment, hsegment, hmarks⟩ := h.placeUnit (hunits unit List.mem_cons_self)
      (hfree unit List.mem_cons_self) houtside
    have hperm : (order ++ segment ++ rest.flatMap SearchUnit.members).Perm
        (order ++ (unit :: rest).flatMap SearchUnit.members) := by
      rw [List.append_assoc, List.flatMap_cons]
      exact (hsegment.perm.append_right _).append_left _
    obtain ⟨segments, hsegments, hmarks⟩ := ih hmarks
      (fun other hother => hunits other (List.mem_cons_of_mem _ hother))
      (hperm.nodup_iff.2 hnodup) (fun other hother _ => htail other hother)
      (fun other hother => htail other (List.mem_of_mem_tail hother))
    refine ⟨segment ++ segments, hsegment.perm.append hsegments, ?_⟩
    rw [← List.append_assoc]
    exact hmarks

/-- Nothing is marked before anything is placed. -/
theorem marks_nil (ctx : Context) (exps : List Expression) :
    Marks ctx ⟨[], [], 0, 0, 0, true⟩ ([] : List (Fin exps.length)) :=
  ⟨rfl, List.Pairwise.nil, by simp, by simp, rfl⟩

/-- The placement of all units of a list and its marks. -/
theorem marks_placeUnits (ctx : Context) (exps : List Expression) :
    ∃ order : List (Fin exps.length), order.Perm (List.finRange exps.length) ∧
      Marks ctx (ctx.placeUnits (ctx.units exps).units) order := by
  have hperm := units_members_perm ctx exps
  obtain ⟨order, horder, hmarks⟩ := (marks_nil ctx exps).foldl_placeUnit
    (fun unit hunit => isCoherent_of_mem_units hunit)
    (by rw [List.nil_append]; exact hperm.nodup_iff.2 (List.nodup_finRange _))
    (fun _ _ hne => absurd rfl hne) (fun unit hunit => isFree_of_mem_tail_units hunit)
  exact ⟨order, horder.trans hperm, hmarks⟩

/-- What an arrangement is: the list is left as it is when there is nothing to choose, and is
ordered unit by unit otherwise. -/
theorem arrange_cases {a : Arrangement} (h : ctx.arrange exps = .ok a) :
    (exps.length ≤ 1 ∧ a = ctx.arrangeTrivially exps) ∨
      (1 < exps.length ∧ a = ctx.arrangeUnits exps (ctx.units exps).units) := by
  unfold arrange at h
  split at h
  · cases h
  · split at h
    · next hle => exact .inl ⟨hle, (Except.ok.inj h).symm⟩
    · next hlt =>
      dsimp only at h
      split at h
      · cases h
      · exact .inr ⟨not_le.1 hlt, (Except.ok.inj h).symm⟩

/-- An arrangement names each place once. -/
theorem arrange_order_perm {a : Arrangement} (h : ctx.arrange exps = .ok a) :
    a.order.Perm (List.range exps.length) := by
  rcases arrange_cases h with ⟨-, rfl⟩ | ⟨-, rfl⟩
  · exact .refl _
  · obtain ⟨order, hperm, hmarks⟩ := marks_placeUnits ctx exps
    change (ctx.placeUnits (ctx.units exps).units).order.Perm _
    rw [hmarks.order_eq]
    simpa using hperm.map Fin.val

/-- The roots of an arrangement are ascending positions of its order, and no search got stuck on the
way to it. -/
theorem ascending_roots {a : Arrangement} (h : ctx.arrange exps = .ok a) :
    a.roots.Pairwise (· < ·) ∧ (∀ p ∈ a.roots, p < exps.length) ∧ a.stats.deadEnds = 0 := by
  rcases arrange_cases h with ⟨-, rfl⟩ | ⟨-, rfl⟩
  · exact ⟨List.pairwise_lt_range.sublist (List.take_sublist _ _),
      fun p hp => List.mem_range.1 (List.mem_of_mem_take hp), rfl⟩
  · obtain ⟨order, hperm, hmarks⟩ := marks_placeUnits ctx exps
    have hlength : order.length = exps.length := by simpa using hperm.length_eq
    exact ⟨hmarks.ascending, fun p hp => (hmarks.bounded p hp).trans_eq hlength, hmarks.deadEnds⟩

/-- The first position of an arrangement is a root. -/
theorem zero_mem_roots {a : Arrangement} (h : ctx.arrange exps = .ok a) (hpos : 1 ≤ exps.length) :
    0 ∈ a.roots := by
  rcases arrange_cases h with ⟨hle, rfl⟩ | ⟨-, rfl⟩
  · simp [arrangeTrivially, show exps.length = 1 by omega]
  · obtain ⟨order, hperm, hmarks⟩ := marks_placeUnits ctx exps
    have hlength : order.length = exps.length := by simpa using hperm.length_eq
    exact (hmarks.mem_roots_iff 0 (by omega)).2 (.inl rfl)

/-- A later position is a root when nothing before it leads to its expression. -/
theorem mem_roots_iff_of_pos {a : Arrangement} (h : ctx.arrange exps = .ok a) {p i : ℕ}
    {e : Expression} (hpos : 0 < p) (hi : a.order[p]? = some i) (he : exps[i]? = some e) :
    p ∈ a.roots ↔ ctx.validNext (Expression.inOrder exps (a.order.take p)) e = false := by
  rcases arrange_cases h with ⟨hle, rfl⟩ | ⟨-, rfl⟩
  · have hp : p < exps.length := by
      simpa [arrangeTrivially] using (List.getElem?_eq_some_iff.1 hi).1
    omega
  · obtain ⟨order, -, hmarks⟩ := marks_placeUnits ctx exps
    change (ctx.placeUnits (ctx.units exps).units).order[p]? = some i at hi
    change p ∈ (ctx.placeUnits (ctx.units exps).units).roots ↔
      ctx.validNext (Expression.inOrder exps
        ((ctx.placeUnits (ctx.units exps).units).order.take p)) e = false
    rw [hmarks.order_eq] at hi ⊢
    obtain ⟨hp, rfl⟩ := List.getElem?_eq_some_iff.1 hi
    rw [List.length_map] at hp
    obtain rfl : exps.get order[p] = e := by simpa using he
    rw [← List.map_take, Expression.inOrder_map_val, hmarks.mem_roots_iff p hp]
    exact or_iff_right hpos.ne'

/-- The complete search of a unit finds an order. -/
theorem explore_ne_none {unit : SearchUnit exps.length} (hunit : unit ∈ (ctx.units exps).units) :
    (Search.explore (unit.candidates ctx) (unit.candidates ctx).length [] 0
      (Progress.start (.start (unit.candidates ctx).length))).1 ≠ none := by
  have hcoherent := isCoherent_of_mem_units hunit
  obtain ⟨order, -, hfound, -⟩ := hcoherent.bestCompletion_start
  simp [hcoherent.explore_candidates, hfound]

/-- Every arrangement puts the expressions in some order, and its roots are the first position and
those of the expressions that nothing before them leads to. No search got stuck on the way: the
complete search of each unit finds an order, and the greedy one never starts anew. -/
theorem arrange_roots_iff {a : Arrangement} (h : ctx.arrange exps = .ok a) :
    a.order.Perm (List.range exps.length) ∧
      a.roots.Pairwise (· < ·) ∧ (∀ p ∈ a.roots, p < exps.length) ∧
      (1 ≤ exps.length → 0 ∈ a.roots) ∧
      (∀ p i e, 0 < p → a.order[p]? = some i → exps[i]? = some e →
        (p ∈ a.roots ↔ ctx.validNext (Expression.inOrder exps (a.order.take p)) e = false)) ∧
      a.stats.deadEnds = 0 ∧
      ∀ unit ∈ (ctx.units exps).units,
        (Search.explore (unit.candidates ctx) (unit.candidates ctx).length [] 0
          (Progress.start (.start (unit.candidates ctx).length))).1 ≠ none := by
  obtain ⟨hascending, hbounded, hdead⟩ := ascending_roots h
  exact ⟨arrange_order_perm h, hascending, hbounded, zero_mem_roots h,
    fun p i e hpos hi he => mem_roots_iff_of_pos h hpos hi he, hdead, fun unit => explore_ne_none⟩

/-- Two pieces ordered greedily: the second one starts with an expression that may not follow the
first piece. -/
theorem arrange_roots_two_pieces :
    let exps : List Expression :=
      [.hop ⟨"a"⟩ ⟨"b"⟩ none none, .labelScan ⟨"c"⟩ "L", .hop ⟨"b"⟩ ⟨"a"⟩ (some "R") none]
    let pattern := (Pattern.ofDeclarations
      [.node ⟨"a"⟩ [], .node ⟨"b"⟩ [], .node ⟨"c"⟩ []]).toOption.getD .empty
    let ctx : Context := ⟨pattern, .ofList [(⟨"c"⟩ : Alias)], ∅, ⟨0, 1, true⟩⟩
    ∃ a, ctx.arrange exps = .ok a ∧ a.order = [1, 0, 2] ∧ a.roots = [0, 1] ∧ a.mode = .greedy ∧
      a.order.Perm (List.range exps.length) ∧ a.stats.deadEnds = 0 ∧
      (1 ∈ a.roots ↔
        ctx.validNext [.labelScan ⟨"c"⟩ "L"] (.hop ⟨"a"⟩ ⟨"b"⟩ none none) = false) := by
  intro exps pattern ctx
  have harrange : ctx.arrange exps =
      .ok ⟨[1, 0, 2], 4, [0, 1], .greedy, ⟨2, 0, 0, 2⟩, true⟩ := by decide +kernel
  obtain ⟨hperm, -, -, -, hroots, hdead, -⟩ := arrange_roots_iff harrange
  exact ⟨_, harrange, rfl, rfl, rfl, hperm, hdead, hroots 1 0 _ Nat.one_pos rfl rfl⟩

end Context

end PatternTraversal
