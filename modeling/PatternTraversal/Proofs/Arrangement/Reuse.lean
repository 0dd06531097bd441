import PatternTraversal.Proofs.Arrangement.Fingerprint
import PatternTraversal.Proofs.Plan.Orientation

/-!
# Reusing an arrangement

An arrangement names places and no expressions, so it can be used on any list of its length. It
names every place once; hence each place lies inside of such a list, no slot is found empty, and
looking the expressions up gives what moving them out gives, the list in another order. A list of
another length is refused, whatever it is used for.
-/

namespace PatternTraversal

namespace Arrangement

variable {a : Arrangement} {l : List Expression}

/-- The expressions at the listed places, each moved out of its slot; none when a place has no slot
or finds it empty. -/
def takeEach? : List ℕ → List (Option Expression) → Option (List Expression)
  | [], _ => some []
  | i :: rest, slots =>
    match slots[i]?.join with
    | none => none
    | some e => (takeEach? rest (slots.set i none)).map (e :: ·)

/-- Where no slot is found empty, passing over empty slots changes nothing. -/
theorem takeSlots_of_takeEach? {order : List ℕ} {slots : List (Option Expression)}
    {taken : List Expression} (h : takeEach? order slots = some taken) :
    takeSlots order slots = taken := by
  induction order generalizing slots taken with
  | nil => exact Option.some.inj h
  | cons i rest ih =>
    cases hslot : slots[i]?.join with
    | none => simp [takeEach?, hslot] at h
    | some e =>
      simp only [takeEach?, hslot, Option.map_eq_some_iff] at h
      obtain ⟨others, hothers, rfl⟩ := h
      rw [takeSlots, hslot, ih hothers]
      rfl

/-- Different places whose slots are full give what the slots hold. -/
theorem takeEach?_of_nodup {places : List (Fin l.length)} (hnodup : places.Nodup)
    {slots : List (Option Expression)}
    (hfull : ∀ i ∈ places, slots[i.val]? = some (some (l.get i))) :
    takeEach? (places.map Fin.val) slots = some (places.map l.get) := by
  induction places generalizing slots with
  | nil => rfl
  | cons i rest ih =>
    obtain ⟨hi, hrest⟩ := List.nodup_cons.1 hnodup
    have hslot : slots[i.val]?.join = some (l.get i) := by
      rw [hfull i List.mem_cons_self]
      rfl
    have hleft : ∀ j ∈ rest, (slots.set i.val none)[j.val]? = some (some (l.get j)) := by
      intro j hj
      have hne : i.val ≠ j.val := fun heq => hi (Fin.ext heq ▸ hj)
      rw [List.getElem?_set_ne hne]
      exact hfull j (List.mem_cons_of_mem _ hj)
    simp only [List.map_cons, takeEach?, hslot, ih hrest hleft, Option.map_some]

/-- Places inside of a list give what is listed there. -/
theorem mapM_getElem?_map_val (places : List (Fin l.length)) :
    (places.map Fin.val).mapM (fun i => l[i]?) = some (places.map l.get) := by
  induction places with
  | nil => rfl
  | cons i rest ih =>
    rw [List.map_cons, List.mapM_cons, ih, List.getElem?_eq_getElem i.isLt]
    rfl

/-- A list of another length is refused. -/
theorem checkLength_of_ne (h : l.length ≠ a.length) :
    a.checkLength l = .error (.arrangementMismatch a.length l.length) := by
  rw [checkLength, if_neg h]

end Arrangement

namespace Plan

/-- Orienting twice gives the expression back. -/
@[simp] theorem orient_orient (transposed : Bool) (e : Expression) :
    orient transposed (orient transposed e) = e := by
  cases transposed with
  | false => rfl
  | true => exact e.transpose_transpose

/-- The steps keep the places of their expressions. -/
theorem map_index_stepsFrom (roots : List ℕ) (filtered : AliasSet) (position : ℕ)
    (resolved : AliasSet) (ordered : List (Expression × ℕ)) :
    (stepsFrom roots filtered position resolved ordered).map PlanStep.index =
      ordered.map Prod.snd := by
  induction ordered generalizing position resolved with
  | nil => rfl
  | cons entry rest ih => simp [stepsFrom, ih]

/-- Turning the steps back gives their expressions. -/
theorem map_orient_stepsFrom (roots : List ℕ) (filtered : AliasSet) (position : ℕ)
    (resolved : AliasSet) (ordered : List (Expression × ℕ)) :
    (stepsFrom roots filtered position resolved ordered).map
        (fun step => orient step.transposed step.expression) = ordered.map Prod.fst := by
  induction ordered generalizing position resolved with
  | nil => rfl
  | cons entry rest ih => simp [stepsFrom, ih]

variable {a : Arrangement} {l : List Expression}

/-- The plan of a reordered list has a step for each of its expressions, in this order. -/
theorem exists_build_reordered (filter : Option Condition) (bound : AliasSet)
    {places : List (Fin l.length)} (horder : a.order = places.map Fin.val)
    (hlength : places.length = l.length) :
    ∃ plan, build l a filter bound = .ok plan ∧ plan.steps.map PlanStep.index = a.order ∧
      plan.steps.map (fun step => orient step.transposed step.expression) = places.map l.get := by
  obtain ⟨plan, hbuild, hsteps⟩ := exists_build filter bound horder hlength
  refine ⟨plan, hbuild, ?_, ?_⟩
  · rw [hsteps, map_index_stepsFrom, List.map_map, horder]
    rfl
  · rw [hsteps, map_orient_stepsFrom, List.map_map]
    rfl

end Plan

namespace Arrangement

variable {a : Arrangement} {l : List Expression}

/-- Every use of an arrangement on a list of another length is refused. -/
theorem refused_of_ne (h : l.length ≠ a.length) (filter : Option Condition) (bound : AliasSet) :
    let mismatch := PlanError.arrangementMismatch a.length l.length
    a.apply l = .error mismatch ∧ a.intoOrdered l = .error mismatch ∧
      a.fingerprint l = .error mismatch ∧ Plan.build l a filter bound = .error mismatch := by
  have happly : a.apply l = .error (.arrangementMismatch a.length l.length) := by
    rw [apply, checkLength_of_ne h]
  refine ⟨happly, ?_, ?_, ?_⟩
  · rw [intoOrdered, checkLength_of_ne h]
  · rw [fingerprint, fingerprintBytes, happly]
    rfl
  · rw [Plan.build, happly]

/-- What the uses of an arrangement make of a list that they accept: its expressions in the order of
the arrangement. -/
structure Reorders (a : Arrangement) (l : List Expression) (filter : Option Condition)
    (bound : AliasSet) (ordered : List Expression) : Prop where
  /-- No expression is lost or doubled. -/
  perm : ordered.Perm l
  /-- Each place lies inside of the list. -/
  inside : a.order.mapM (fun i => l[i]?) = some ordered
  /-- Each slot is still full when its turn comes. -/
  full : takeEach? a.order (l.map some) = some ordered
  apply_eq : a.apply l = .ok ordered
  intoOrdered_eq : a.intoOrdered l = .ok ordered
  fingerprintBytes_eq : a.fingerprintBytes l = .ok (encodeOrdered ordered)
  fingerprint_ok : ∃ digest, a.fingerprint l = .ok digest
  /-- The steps of the plan are the ordered expressions, some of them turned. -/
  build_eq : ∃ plan, Plan.build l a filter bound = .ok plan ∧
    plan.steps.map PlanStep.index = a.order ∧
    plan.steps.map (fun step => Plan.orient step.transposed step.expression) = ordered

/-- An order that names every place of a list once reorders it. -/
theorem exists_reorders (h : a.order.Perm (List.range l.length)) (filter : Option Condition)
    (bound : AliasSet) : ∃ ordered, a.Reorders l filter bound ordered := by
  obtain ⟨places, horder, hperm⟩ := Expression.exists_places h
  have hlength : places.length = l.length := by simpa using hperm.length_eq
  have hcheck : a.checkLength l = .ok () := by
    rw [checkLength_eq_ok_iff, length, horder, List.length_map, hlength]
  have hget : (places.map l.get).Perm l := by
    have hmap : (places.map l.get).Perm ((List.finRange l.length).map l.get) := hperm.map _
    rwa [List.map_get_finRange] at hmap
  have hfull : takeEach? a.order (l.map some) = some (places.map l.get) := by
    rw [horder]
    exact takeEach?_of_nodup (hperm.nodup_iff.2 (List.nodup_finRange _)) fun i _ => by simp
  have happly : a.apply l = .ok (places.map l.get) := by
    rw [apply, hcheck, horder]
    exact congrArg Except.ok (Expression.inOrder_map_val l places)
  have hbytes : a.fingerprintBytes l = .ok (encodeOrdered (places.map l.get)) := by
    rw [fingerprintBytes, happly]
  have hdigest : ∃ digest, a.fingerprint l = .ok digest := by
    rw [fingerprint, hbytes]
    exact ⟨_, rfl⟩
  refine ⟨places.map l.get, hget, ?_, hfull, happly, ?_, hbytes, hdigest,
    Plan.exists_build_reordered filter bound horder hlength⟩
  · rw [horder, mapM_getElem?_map_val]
  · rw [intoOrdered, hcheck, takeSlots_of_takeEach? hfull]

end Arrangement

namespace Context

variable {ctx : Context} {exps : List Expression}

/-- Looking up, moving out, digesting and planning refuse exactly the lists of another length. Any
other list, whatever it holds, is reordered: each place lies inside of it and no slot is found
empty, looking up and moving out give the same order of all its expressions, and so do the steps of
the plan once they are turned back. On the list that was arranged this order is the chosen one. -/
theorem arrange_reusable {a : Arrangement} (h : ctx.arrange exps = .ok a) :
    ctx.order exps = a.apply exps ∧
      ∀ (l : List Expression) (filter : Option Condition) (bound : AliasSet),
        let mismatch := PlanError.arrangementMismatch a.length l.length
        (a.apply l = .error mismatch ↔ l.length ≠ a.length) ∧
          (a.intoOrdered l = .error mismatch ↔ l.length ≠ a.length) ∧
          (a.fingerprint l = .error mismatch ↔ l.length ≠ a.length) ∧
          (Plan.build l a filter bound = .error mismatch ↔ l.length ≠ a.length) ∧
          (l.length = a.length → ∃ ordered, a.Reorders l filter bound ordered) := by
  have hperm := arrange_order_perm h
  have hlength : a.length = exps.length := by simpa [Arrangement.length] using hperm.length_eq
  constructor
  · obtain ⟨ordered, hordered⟩ := Arrangement.exists_reorders hperm none ∅
    rw [order, h, hordered.apply_eq]
    exact hordered.intoOrdered_eq
  · intro l filter bound
    by_cases hl : l.length = a.length
    · rw [← hlength, ← hl] at hperm
      obtain ⟨ordered, hordered⟩ := Arrangement.exists_reorders hperm filter bound
      obtain ⟨plan, hbuild, -⟩ := hordered.build_eq
      obtain ⟨digest, hdigest⟩ := hordered.fingerprint_ok
      simp only [hordered.apply_eq, hordered.intoOrdered_eq, hdigest, hbuild, hl,
        reduceCtorEq, ne_eq, not_true, true_and, forall_true_left]
      exact ⟨ordered, hordered⟩
    · obtain ⟨happly, hinto, hdigest, hbuild⟩ := Arrangement.refused_of_ne hl filter bound
      simp only [happly, hinto, hdigest, hbuild, ne_eq, hl, not_false_eq_true, true_and,
        false_imp_iff]

/-- The order of two pieces on a list with a repeated expression that has nothing to do with them,
and on a list that is too short. -/
theorem arrange_reusable_repeated :
    let exps : List Expression :=
      [.hop ⟨"a"⟩ ⟨"b"⟩ none none, .labelScan ⟨"c"⟩ "L", .hop ⟨"b"⟩ ⟨"a"⟩ (some "R") none]
    let pattern := (Pattern.ofDeclarations
      [.node ⟨"a"⟩ [], .node ⟨"b"⟩ [], .node ⟨"c"⟩ []]).toOption.getD .empty
    let ctx : Context := ⟨pattern, .ofList [(⟨"c"⟩ : Alias)], ∅, ⟨0, 1, true⟩⟩
    let scan : Expression := .labelScan ⟨"x"⟩ "M"
    let hop : Expression := .hop ⟨"y"⟩ ⟨"x"⟩ none none
    ∃ a, ctx.arrange exps = .ok a ∧ ctx.order exps = a.apply exps ∧
      a.intoOrdered [scan, hop, scan] = .ok [hop, scan, scan] ∧
      a.Reorders [scan, hop, scan] none ∅ [hop, scan, scan] ∧
      a.fingerprint [scan, hop] = .error (.arrangementMismatch 3 2) := by
  intro exps pattern ctx scan hop
  have harrange : ctx.arrange exps =
      .ok ⟨[1, 0, 2], 4, [0, 1], .greedy, ⟨2, 0, 0, 2⟩, true⟩ := by decide +kernel
  obtain ⟨horder, hreuse⟩ := arrange_reusable harrange
  obtain ⟨-, -, -, -, hfits⟩ := hreuse [scan, hop, scan] none ∅
  obtain ⟨-, -, hshort, -, -⟩ := hreuse [scan, hop] none ∅
  obtain ⟨ordered, hordered⟩ := hfits rfl
  obtain rfl : [hop, scan, scan] = ordered := Option.some.inj hordered.inside
  exact ⟨_, harrange, horder, hordered.intoOrdered_eq, hordered, hshort.2 (by decide)⟩

end Context

end PatternTraversal
