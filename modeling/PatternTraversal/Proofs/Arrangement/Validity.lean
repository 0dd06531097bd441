import Mathlib.Data.List.Basic
import Mathlib.Data.List.Perm.Basic
import PatternTraversal.Arrangement.Context
import PatternTraversal.Proofs.Arrangement.Components

/-!
# Valid orders

An order is valid when each expression may follow the ones before it: it is the first one, touches a
resolved alias, or shares an alias with an earlier one. More predecessors never hurt. A set of
expressions that shares no alias with the others and touches no resolved alias can be entered only
by the first expression, so a valid order of a whole list has at most one such set.
-/

namespace PatternTraversal

namespace Expression

/-- The expressions of a list at the given places. -/
def inOrder (exps : List Expression) (order : List ℕ) : List Expression :=
  order.filterMap fun i => exps[i]?

/-- Places below the length are all found. -/
theorem inOrder_map_val (exps : List Expression) (order : List (Fin exps.length)) :
    inOrder exps (order.map Fin.val) = order.map exps.get := by
  induction order with
  | nil => rfl
  | cons i rest ih =>
    have hi : exps[i.val]? = some (exps.get i) := by simp
    simp only [inOrder, List.map_cons] at ih ⊢
    rw [List.filterMap_cons_some hi, ih]

/-- All places in turn give the list. -/
theorem inOrder_range (exps : List Expression) : inOrder exps (List.range exps.length) = exps := by
  rw [← List.map_coe_finRange_eq_range, inOrder_map_val, List.map_get_finRange]

/-- All places in any order give the list in another order. -/
theorem inOrder_perm {exps : List Expression} {order : List ℕ}
    (h : order.Perm (List.range exps.length)) : (inOrder exps order).Perm exps := by
  have hperm : (inOrder exps order).Perm (inOrder exps (List.range exps.length)) := h.filterMap _
  rwa [inOrder_range] at hperm

/-- An order of all places is one of places below the length. -/
theorem exists_places {exps : List Expression} {order : List ℕ}
    (h : order.Perm (List.range exps.length)) :
    ∃ places : List (Fin exps.length), order = places.map Fin.val ∧
      places.Perm (List.finRange exps.length) := by
  have hlt : ∀ i ∈ order, i < exps.length := fun i hi => List.mem_range.1 (h.subset hi)
  have horder : order = (order.pmap Fin.mk hlt).map Fin.val := by simp [List.map_pmap]
  refine ⟨order.pmap Fin.mk hlt, horder, ?_⟩
  rw [← List.map_perm_map_iff Fin.val_injective, ← horder]
  simpa using h

/-- Aliases of the expression at each place of a list. -/
abbrev entitiesAt (exps : List Expression) (i : Fin exps.length) : List Alias :=
  (exps.get i).entities

end Expression

namespace Context

variable {ctx : Context}

/-- Whether an expression touches an alias resolved beforehand. -/
def anchors (ctx : Context) (e : Expression) : Bool := e.entities.any ctx.isBound

/-- Each expression of a sequence may follow the ones before it. -/
def ValidSequence (ctx : Context) (sequence : List Expression) : Prop :=
  ∀ p (hp : p < sequence.length), ctx.validNext (sequence.take p) sequence[p] = true

/-- An order of all expressions of a list in which each one may follow the ones before it. -/
structure ValidOrder (ctx : Context) (exps : List Expression) (order : List ℕ) : Prop where
  perm : order.Perm (List.range exps.length)
  valid : ctx.ValidSequence (Expression.inOrder exps order)

/-- Each expression of a sequence may follow the placed ones and the ones before it. -/
def ValidAfter (ctx : Context) : List Expression → List Expression → Prop
  | _, [] => True
  | placed, e :: rest => ctx.validNext placed e = true ∧ ctx.ValidAfter (placed ++ [e]) rest

/-- Validity position by position. -/
theorem validAfter_iff (placed sequence : List Expression) :
    ctx.ValidAfter placed sequence ↔
      ∀ p (hp : p < sequence.length),
        ctx.validNext (placed ++ sequence.take p) sequence[p] = true := by
  induction sequence generalizing placed with
  | nil => simp [ValidAfter]
  | cons e rest ih =>
    rw [ValidAfter, ih]
    constructor
    · rintro ⟨hfirst, hrest⟩ p hp
      cases p with
      | zero => simpa using hfirst
      | succ p => simpa using hrest p (by simpa using hp)
    · intro h
      have hfirst := h 0 (Nat.zero_lt_succ _)
      refine ⟨by simpa using hfirst, fun p hp => ?_⟩
      have hnext := h (p + 1) (Nat.succ_lt_succ hp)
      simpa using hnext

/-- A sequence is valid when it is valid after nothing. -/
theorem validSequence_iff (sequence : List Expression) :
    ctx.ValidSequence sequence ↔ ctx.ValidAfter [] sequence := by
  simp [ValidSequence, validAfter_iff]

/-- A sequence in two parts is valid when the first one is, and the second one behind it. -/
theorem validAfter_append_iff (placed one two : List Expression) :
    ctx.ValidAfter placed (one ++ two) ↔
      ctx.ValidAfter placed one ∧ ctx.ValidAfter (placed ++ one) two := by
  induction one generalizing placed with
  | nil => simp [ValidAfter]
  | cons e rest ih => simp [ValidAfter, ih, and_assoc]

/-- What lets an expression follow the placed ones. -/
theorem validNext_iff (placed : List Expression) (e : Expression) :
    ctx.validNext placed e = true ↔
      placed = [] ∨ ctx.anchors e = true ∨
        ∃ other ∈ placed, ∃ ident ∈ other.entities, ident ∈ e.entities := by
  simp only [validNext, connects, anchors, Bool.or_eq_true, List.isEmpty_iff, List.any_eq_true,
    Expression.mem_entities_iff]
  grind

/-- Expressions with a common alias are valid in any order. -/
theorem validSequence_of_references {sequence : List Expression} {ident : Alias}
    (h : ∀ e ∈ sequence, e.references ident = true) : ctx.ValidSequence sequence := by
  intro p hp
  rw [validNext_iff]
  by_cases hempty : sequence.take p = []
  · exact .inl hempty
  · obtain ⟨other, hother⟩ := List.exists_mem_of_ne_nil _ hempty
    refine .inr (.inr ⟨other, hother, ident, ?_, ?_⟩)
    · exact (other.mem_entities_iff ident).2 (h other (List.mem_of_mem_take hother))
    · exact (sequence[p].mem_entities_iff ident).2 (h _ (List.getElem_mem hp))

/-- What may follow some placed expressions may follow more of them. -/
theorem validNext_mono {placed more : List Expression} {e : Expression}
    (h : ctx.validNext placed e = true) (hne : placed ≠ []) (hsub : placed ⊆ more) :
    ctx.validNext more e = true := by
  rw [validNext_iff] at h ⊢
  obtain h | h | ⟨other, hother, hshare⟩ := h
  · exact absurd h hne
  · exact .inr (.inl h)
  · exact .inr (.inr ⟨other, hsub hother, hshare⟩)

section Places

variable {exps : List Expression}

/-- What lets the expression at a place follow those at other places. -/
theorem validNext_get_iff (placed : List (Fin exps.length)) (i : Fin exps.length) :
    ctx.validNext (placed.map exps.get) (exps.get i) = true ↔
      placed = [] ∨ ctx.anchors (exps.get i) = true ∨
        ∃ j ∈ placed, Components.Shares (Expression.entitiesAt exps) j i := by
  rw [validNext_iff]
  simp [Components.Shares, Expression.entitiesAt]

/-- Places that share no alias with the others and touch no resolved one. -/
structure IsFree (ctx : Context) (exps : List Expression) (members : List (Fin exps.length)) :
    Prop where
  nonempty : members ≠ []
  closed : ∀ i ∈ members, ∀ j, Components.Shares (Expression.entitiesAt exps) i j → j ∈ members
  unanchored : ∀ i ∈ members, ctx.anchors (exps.get i) = false

/-- Once something else is placed, no free place can be reached. -/
theorem IsFree.not_mem_of_validAfter {members : List (Fin exps.length)}
    (hfree : ctx.IsFree exps members) {placed order : List (Fin exps.length)}
    (hne : placed ≠ []) (houtside : ∀ i ∈ placed, i ∉ members)
    (hvalid : ctx.ValidAfter (placed.map exps.get) (order.map exps.get)) :
    ∀ i ∈ order, i ∉ members := by
  induction order generalizing placed with
  | nil => simp
  | cons i rest ih =>
    obtain ⟨hnext, hrest⟩ := hvalid
    have hi : i ∉ members := by
      intro hi
      obtain h | h | ⟨j, hj, hshare⟩ := (validNext_get_iff placed i).1 hnext
      · exact hne h
      · exact Bool.false_ne_true ((hfree.unanchored i hi).symm.trans h)
      · exact houtside j hj (hfree.closed i hi j hshare.symm)
    have hplaced : ∀ j ∈ placed ++ [i], j ∉ members := by
      intro j hj
      rcases List.mem_append.1 hj with hj | hj
      · exact houtside j hj
      · exact List.mem_singleton.1 hj ▸ hi
    rw [List.forall_mem_cons]
    exact ⟨hi, ih (by simp) hplaced (by simpa using hrest)⟩

/-- A valid order starts in every free set of places that it holds. -/
theorem IsFree.head_mem_of_subset {members : List (Fin exps.length)}
    (hfree : ctx.IsFree exps members) {first : Fin exps.length} {rest : List (Fin exps.length)}
    (hsub : members ⊆ first :: rest) (hvalid : ctx.ValidSequence ((first :: rest).map exps.get)) :
    first ∈ members := by
  by_contra hfirst
  rw [validSequence_iff] at hvalid
  have hafter : ctx.ValidAfter ([first].map exps.get) (rest.map exps.get) := by
    simpa using hvalid.2
  have hrest := hfree.not_mem_of_validAfter (by simp) (by simpa using hfirst) hafter
  obtain ⟨i, hi⟩ := List.exists_mem_of_ne_nil members hfree.nonempty
  rcases List.mem_cons.1 (hsub hi) with rfl | hmem
  · exact hfirst hi
  · exact hrest i hmem hi

/-- A valid order of all places starts in every free set of them. -/
theorem IsFree.head_mem {members : List (Fin exps.length)} (hfree : ctx.IsFree exps members)
    {first : Fin exps.length} {rest : List (Fin exps.length)}
    (hperm : (first :: rest).Perm (List.finRange exps.length))
    (hvalid : ctx.ValidSequence ((first :: rest).map exps.get)) : first ∈ members :=
  hfree.head_mem_of_subset (fun i _ => hperm.mem_iff.2 (List.mem_finRange i)) hvalid

end Places

end Context

end PatternTraversal
