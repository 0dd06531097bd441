import Mathlib.Data.List.Lex
import PatternTraversal.Proofs.Arrangement.Segments

/-!
# Serving a lone alias first

Where a single alias is constrained or resolved, all interest lies with the expressions that
reference it. They share the alias, so they may stand at the front of an order, and in a connected
list everything else can follow them. Moving them to the front of any order gains score unless they
are there already, whatever the flat scores of label tests are, since those do not depend on the
position. Among the orders that start with them the score does not tell their own order apart, so
the lexicographically least one has them ascending.
-/

namespace PatternTraversal

namespace Expression

/-- Places of the expressions that reference an alias, ascending. -/
def placesOf (exps : List Expression) (ident : Alias) : List (Fin exps.length) :=
  (List.finRange exps.length).filter fun i => (exps.get i).references ident

/-- The places of an alias are those whose expressions reference it. -/
theorem mem_placesOf_iff {exps : List Expression} {ident : Alias} (i : Fin exps.length) :
    i ∈ placesOf exps ident ↔ (exps.get i).references ident = true := by
  simp [placesOf]

/-- The places of an alias ascend. -/
theorem pairwise_placesOf (exps : List Expression) (ident : Alias) :
    (placesOf exps ident).Pairwise (· < ·) :=
  (List.pairwise_lt_finRange _).filter _

/-- There are as many places of an alias as expressions that reference it. -/
theorem length_placesOf (exps : List Expression) (ident : Alias) :
    (placesOf exps ident).length = exps.countP (·.references ident) := by
  conv_rhs => rw [← List.map_get_finRange exps]
  rw [List.countP_map, List.countP_eq_length_filter]
  rfl

end Expression

/-! ## Lexicographic order -/

/-- An ascending list is less than any other order of its members, whatever follows. -/
theorem lex_append_of_perm {ascending other : List ℕ} (hascending : ascending.Pairwise (· < ·))
    (hperm : other.Perm ascending) (hne : other ≠ ascending) (one two : List ℕ) :
    List.Lex (· < ·) (ascending ++ one) (other ++ two) := by
  induction ascending generalizing other with
  | nil => exact absurd hperm.eq_nil hne
  | cons least rest ih =>
    rw [List.pairwise_cons] at hascending
    cases other with
    | nil => exact absurd hperm.nil_eq.symm (List.cons_ne_nil _ _)
    | cons first others =>
      rcases List.mem_cons.1 (hperm.subset List.mem_cons_self) with rfl | hfirst
      · exact .cons (ih hascending.2 hperm.cons_inv fun heq => hne (heq ▸ rfl))
      · exact .rel (hascending.1 first hfirst)

namespace Context

variable {ctx : Context} {exps : List Expression}

/-! ## Scores of an order and of its parts -/

/-- Expressions of the same interest score the same in any order. -/
theorem score_perm_of_interest {one two : List Expression} (h : one.Perm two) {interest : ℕ}
    (hinterest : ∀ e ∈ one, ctx.interest e = interest) : ctx.score one = ctx.score two := by
  induction h with
  | nil => rfl
  | cons e hrest ih =>
    rw [List.forall_mem_cons] at hinterest
    rw [score_cons, score_cons, hrest.length_eq, ih hinterest.2]
  | swap e f rest =>
    have he := hinterest e (by simp)
    have hf := hinterest f (by simp)
    simp only [score_cons, gain, he, hf, List.length_cons]
    ring
  | trans hfirst _ ih ih' =>
    rw [ih hinterest, ih' fun e he => hinterest e (hfirst.mem_iff.2 he)]

/-- An expression without interest adds its flat score, and those before it gain a place. -/
theorem score_append_cons {e : Expression} (h : ctx.interest e = 0) (one two : List Expression) :
    ctx.score (one ++ e :: two) =
      ctx.bonus e + ctx.score (one ++ two) + ctx.totalInterest one := by
  rw [score_append, score_append, score_cons, gain, h, List.length_cons]
  push_cast
  ring

section Front

variable {front : Fin exps.length → Bool} {share : ℕ}

/-- Some places first and the others behind them, each of both as they were. -/
def moveToFront (front : Fin exps.length → Bool) (places : List (Fin exps.length)) :
    List (Fin exps.length) :=
  places.filter front ++ places.filter fun i => !front i

/-- The front of an order that starts with it. -/
theorem filter_front_append {first rest : List (Fin exps.length)}
    (hfirst : ∀ i ∈ first, front i = true) (hrest : ∀ i ∈ rest, front i = false) :
    (first ++ rest).filter front = first := by
  have hnone : rest.filter front = [] := by simpa [List.filter_eq_nil_iff] using hrest
  rw [List.filter_append, List.filter_eq_self.2 hfirst, hnone, List.append_nil]

/-- Places that are at the front already stay as they are. -/
theorem moveToFront_eq_self {first rest : List (Fin exps.length)}
    (hfirst : ∀ i ∈ first, front i = true) (hrest : ∀ i ∈ rest, front i = false) :
    moveToFront front (first ++ rest) = first ++ rest := by
  have hothers : first.filter (fun i => !front i) = [] := by
    simpa [List.filter_eq_nil_iff] using hfirst
  rw [moveToFront, filter_front_append hfirst hrest, List.filter_append, hothers,
    List.nil_append, List.filter_eq_self.2 (by simpa using hrest)]

variable (hshare : ∀ i, ctx.interest (exps.get i) = if front i then share else 0)

include hshare

/-- When the front shares all interest evenly, the order within the two parts does not matter. -/
theorem score_moveToFront_of_perm {one two : List (Fin exps.length)} (h : one.Perm two) :
    ctx.score ((moveToFront front one).map exps.get) =
      ctx.score ((moveToFront front two).map exps.get) := by
  have hfirst := (h.filter front).map exps.get
  have hrest := (h.filter fun i => !front i).map exps.get
  have hinterest : ∀ e ∈ (one.filter front).map exps.get, ctx.interest e = share := by
    intro e he
    obtain ⟨i, hi, rfl⟩ := List.mem_map.1 he
    rw [hshare, if_pos (List.of_mem_filter hi)]
  have hflat : ∀ e ∈ (one.filter fun i => !front i).map exps.get, ctx.interest e = 0 := by
    intro e he
    obtain ⟨i, hi, rfl⟩ := List.mem_map.1 he
    rw [hshare, if_neg (by simpa using List.of_mem_filter hi)]
  rw [moveToFront, moveToFront, List.map_append, List.map_append, score_append, score_append,
    totalInterest_perm hfirst, hrest.length_eq, score_perm_of_interest hfirst hinterest,
    score_perm_of_interest hrest hflat]

variable (hpos : 0 < share)

include hpos

/-- A front without any interest is empty. -/
theorem filter_front_eq_nil {places : List (Fin exps.length)}
    (h : ctx.totalInterest ((places.filter front).map exps.get) = 0) :
    places.filter front = [] := by
  by_contra hne
  obtain ⟨i, hi⟩ := List.exists_mem_of_ne_nil _ hne
  have hinterest : ctx.interest (exps.get i) = share := by
    rw [hshare, if_pos (List.of_mem_filter hi)]
  rw [totalInterest, List.sum_eq_zero_iff_forall_eq_nat] at h
  have hnone := h _ (List.mem_map_of_mem (List.mem_map_of_mem hi))
  omega

/-- Moving all expressions of interest to the front loses no score, and gains some unless they are
there already. -/
theorem score_le_moveToFront (places : List (Fin exps.length)) :
    ctx.score (places.map exps.get) ≤ ctx.score ((moveToFront front places).map exps.get) ∧
      (ctx.score (places.map exps.get) = ctx.score ((moveToFront front places).map exps.get) →
        moveToFront front places = places) := by
  induction places with
  | nil => exact ⟨le_rfl, fun _ => rfl⟩
  | cons i rest ih =>
    have hlength : (moveToFront front rest).length = rest.length :=
      (List.filter_append_perm front rest).length_eq
    obtain ⟨hle, heq⟩ := ih
    cases hi : front i with
    | true =>
      have hmove : moveToFront front (i :: rest) = i :: moveToFront front rest := by
        simp [moveToFront, hi]
      rw [hmove, List.map_cons, List.map_cons, score_cons, score_cons, List.length_map,
        List.length_map, hlength]
      exact ⟨by omega, fun h => by rw [heq (by omega)]⟩
    | false =>
      have hmove : moveToFront front (i :: rest) =
          rest.filter front ++ i :: rest.filter fun i => !front i := by
        simp [moveToFront, hi]
      have hflat : ctx.interest (exps.get i) = 0 := by rw [hshare, if_neg (by simp [hi])]
      -- the expression only has its flat score, and all of interest behind it gains a place
      have hfirst : ctx.score ((i :: rest).map exps.get) =
          ctx.bonus (exps.get i) + ctx.score (rest.map exps.get) := by
        simpa [totalInterest] using score_append_cons hflat [] (rest.map exps.get)
      have hmoved := score_append_cons hflat ((rest.filter front).map exps.get)
        ((rest.filter fun i => !front i).map exps.get)
      rw [← List.map_append, ← moveToFront] at hmoved
      rw [hmove, hfirst, List.map_append, List.map_cons, hmoved]
      refine ⟨by omega, fun h => ?_⟩
      have hnone : rest.filter front = [] := filter_front_eq_nil hshare hpos (by omega)
      have hrest : moveToFront front rest = rest := heq (by omega)
      rw [moveToFront, hnone, List.nil_append] at hrest
      rw [hnone, List.nil_append, hrest]

/-- An order that scores no less than one with the front ascending at its start, and comes no later
in the lexicographic order if it scores the same, starts the same way. -/
theorem take_eq_of_best {places first rest : List (Fin exps.length)}
    (hascending : first.Pairwise (· < ·)) (hfirst : ∀ i ∈ first, front i = true)
    (hrest : ∀ i ∈ rest, front i = false) (hperm : places.Perm (first ++ rest))
    (hbest : ctx.score ((first ++ rest).map exps.get) ≤ ctx.score (places.map exps.get) ∧
      (ctx.score ((first ++ rest).map exps.get) = ctx.score (places.map exps.get) →
        first ++ rest = places ∨
          List.Lex (· < ·) (places.map Fin.val) ((first ++ rest).map Fin.val))) :
    places.take first.length = first := by
  have hself := moveToFront_eq_self hfirst hrest
  have hscore := score_moveToFront_of_perm hshare hperm
  rw [hself] at hscore
  obtain ⟨hmoved, heq⟩ := score_le_moveToFront hshare hpos places
  obtain ⟨hle, htie⟩ := hbest
  have hplaces : moveToFront front places = places := heq (by omega)
  have hstart : (places.filter front).Perm first := by
    simpa only [filter_front_append hfirst hrest] using hperm.filter front
  rcases htie (by omega) with hsame | hless
  · rw [← hsame, List.take_left]
  · have hordered : places.filter front = first := by
      by_contra hne
      have hlex := lex_append_of_perm (hascending.map Fin.val fun _ _ h => h)
        (hstart.map Fin.val) (fun heq => hne (List.map_injective_iff.2 Fin.val_injective heq))
        (rest.map Fin.val) ((places.filter fun i => !front i).map Fin.val)
      rw [← List.map_append, ← List.map_append, ← moveToFront, hplaces] at hlex
      exact asymm hlex hless
    rw [← hplaces, moveToFront, hordered, List.take_left]

end Front

/-! ## A lone alias -/

/-- Of the aliases referenced in a list, a single one is constrained or resolved beforehand. -/
structure IsLone (ctx : Context) (exps : List Expression) (ident : Alias) : Prop where
  referenced : ∃ e ∈ exps, e.references ident = true
  known : ctx.isFiltered ident = true ∨ ctx.isBound ident = true
  only : ∀ e ∈ exps, ∀ other, e.references other = true →
    ctx.isFiltered other = true ∨ ctx.isBound other = true → other = ident

/-- An alias is of interest when it is constrained or resolved. -/
theorem aliasInterest_pos_iff (ctx : Context) (ident : Alias) :
    0 < ctx.aliasInterest ident ↔ ctx.isFiltered ident = true ∨ ctx.isBound ident = true := by
  rw [aliasInterest]
  cases ctx.isFiltered ident <;> cases ctx.isBound ident <;> simp

/-- All interest lies with the lone alias. -/
theorem IsLone.interest_eq {ident : Alias} (h : ctx.IsLone exps ident) {e : Expression}
    (he : e ∈ exps) :
    ctx.interest e = if e.references ident then ctx.aliasInterest ident else 0 := by
  have hother : ∀ other ∈ e.entities, other ≠ ident → ctx.aliasInterest other = 0 := by
    intro other hmem hne
    by_contra hpos
    have hknown := (ctx.aliasInterest_pos_iff other).1 (Nat.pos_of_ne_zero hpos)
    exact hne (h.only e he other ((e.mem_entities_iff other).1 hmem) hknown)
  have hcount : e.entities.count ident = if e.references ident then 1 else 0 := by
    simp [e.nodup_entities.count, e.mem_entities_iff]
  rw [interest_eq_sum, List.sum_map_eq_nsmul_single ident _ fun other hne hmem =>
    hother other hmem hne, hcount]
  split <;> simp

/-- In a unit of all places that may start with any of them, some order starts with the places of an
alias. -/
theorem exists_isOrder_placesOf {unit : SearchUnit exps.length} (hcoherent : unit.IsCoherent ctx)
    (hmembers : unit.members.Perm (List.finRange exps.length)) (hentry : unit.entry = [])
    (ident : Alias) :
    ∃ rest, unit.IsOrder ctx (Expression.placesOf exps ident ++ rest) ∧
      ∀ i ∈ rest, (exps.get i).references ident = false := by
  have hshared : ∀ e ∈ (Expression.placesOf exps ident).map exps.get,
      e.references ident = true := by
    intro e he
    obtain ⟨i, hi, rfl⟩ := List.mem_map.1 he
    exact (Expression.mem_placesOf_iff i).1 hi
  obtain ⟨rest, hstart⟩ := hcoherent.exists_isOrder_append
    (Expression.pairwise_placesOf exps ident).nodup
    (fun i _ => hmembers.mem_iff.2 (List.mem_finRange i)) (fun _ _ => .inl hentry)
    (validSequence_of_references hshared)
  have hdisjoint := List.disjoint_of_nodup_append (hstart.perm.nodup_iff.2 hcoherent.nodup)
  refine ⟨rest, hstart, fun i hi => ?_⟩
  rw [Bool.eq_false_iff]
  exact fun href => hdisjoint ((Expression.mem_placesOf_iff i).2 href) hi

/-- The complete search of a connected list in which a single alias is constrained or resolved puts
the expressions that reference it first, in the order of the list. -/
theorem arrange_serves_lone_alias_first {a : Arrangement} (h : ctx.arrange exps = .ok a)
    (hmode : a.mode = .exhaustive) (hconnected : (partition exps).length = 1) {ident : Alias}
    (hlone : ctx.IsLone exps ident) :
    a.order.take (exps.countP (·.references ident)) =
      (Expression.placesOf exps ident).map Fin.val := by
  rcases arrange_cases h with ⟨-, rfl⟩ | ⟨-, rfl⟩
  · cases hmode
  · obtain ⟨unit, hunits, hentry⟩ := exists_unit_of_connected ctx hconnected
    have hmem : unit ∈ (ctx.units exps).units := by simp [hunits]
    have hcoherent := isCoherent_of_mem_units hmem
    have hmembers : unit.members.Perm (List.finRange exps.length) := by
      simpa [hunits] using units_members_perm ctx exps
    obtain ⟨rest, hstart, hrest⟩ := exists_isOrder_placesOf hcoherent hmembers hentry ident
    have hlimit := length_members_le_of_mode hmode unit hmem
    obtain ⟨places, hplaces, hfound, hbest⟩ := searchUnit_optimal hcoherent hlimit
    have horder : (ctx.arrangeUnits exps (ctx.units exps).units).order = places.map Fin.val := by
      rw [hunits, (arrangeUnits_singleton unit).1, hfound]
    have htake := take_eq_of_best (fun i => hlone.interest_eq (List.get_mem exps i))
      ((ctx.aliasInterest_pos_iff ident).2 hlone.known) (Expression.pairwise_placesOf exps ident)
      (fun i => (Expression.mem_placesOf_iff i).1) hrest
      (hplaces.perm.trans hstart.perm.symm) (hbest _ hstart)
    rw [horder, ← List.map_take, ← Expression.length_placesOf, htake]

/-- A chain with a label test at each end, one of which is constrained: the two expressions at that
end come first, although each label test is worth more than any position. -/
theorem arrange_serves_lone_alias_first_chain :
    let exps : List Expression := [.labelScan ⟨"a"⟩ "L", .hop ⟨"a"⟩ ⟨"b"⟩ none none,
      .hop ⟨"b"⟩ ⟨"c"⟩ (some "R") none, .labelScan ⟨"c"⟩ "M"]
    let pattern := (Pattern.ofDeclarations
      [.node ⟨"a"⟩ [], .node ⟨"b"⟩ [], .node ⟨"c"⟩ []]).toOption.getD .empty
    let ctx : Context := ⟨pattern, .ofList [(⟨"c"⟩ : Alias)], ∅, ⟨8, 100, true⟩⟩
    ∃ a, ctx.arrange exps = .ok a ∧ a.mode = .exhaustive ∧ (partition exps).length = 1 ∧
      ctx.IsLone exps ⟨"c"⟩ ∧ a.order.take 2 = [2, 3] := by
  intro exps pattern ctx
  have harrange : ctx.arrange exps =
      .ok ⟨[2, 3, 1, 0], 207, [0], .exhaustive, ⟨1, 8, 0, 0⟩, true⟩ := by decide +kernel
  have hconnected : (partition exps).length = 1 := by decide +kernel
  have hlone : ctx.IsLone exps ⟨"c"⟩ := by
    refine ⟨by decide, .inl (by decide +kernel), fun _ _ other _ hknown => ?_⟩
    exact Eq.symm (by simpa [ctx, isFiltered, isBound] using hknown)
  exact ⟨_, harrange, rfl, hconnected, hlone,
    arrange_serves_lone_alias_first harrange rfl hconnected hlone⟩

end Context

end PatternTraversal
