import Mathlib.Data.List.Chain
import Mathlib.Logic.Relation
import PatternTraversal.Arrangement.Components
import PatternTraversal.Proofs.Arrangement.DisjointSet

/-!
# Components are exact

Two expressions belong together when a chain of expressions joins them in which neighbours share an
alias. The pass keeps one expression for each alias, the first one seen with it. That is enough:
after any number of mentions each seen expression has the root of the first one of each of its
aliases, and no root joins expressions that are not linked.
-/

namespace PatternTraversal

namespace Components

variable {n : ℕ} {entities : Fin n → List Alias}

/-- Two expressions mention a common alias. -/
def Shares (entities : Fin n → List Alias) (i j : Fin n) : Prop :=
  ∃ ident ∈ entities i, ident ∈ entities j

/-- A chain of expressions joins two of them, neighbours sharing an alias. -/
def Linked (entities : Fin n → List Alias) : Fin n → Fin n → Prop :=
  Relation.ReflTransGen (Shares entities)

/-- Sharing an alias is mutual. -/
theorem Shares.symm {i j : Fin n} (h : Shares entities i j) : Shares entities j i :=
  let ⟨ident, hi, hj⟩ := h
  ⟨ident, hj, hi⟩

/-- Being linked is mutual. -/
theorem Linked.symm {i j : Fin n} (h : Linked entities i j) : Linked entities j i := by
  induction h with
  | refl => exact .refl
  | tail _ hbc ih => exact .head hbc.symm ih

/-- Linked expressions are the ends of a chain. -/
theorem linked_iff_exists_chain (i j : Fin n) :
    Linked entities i j ↔
      ∃ chain, (i :: chain).IsChain (Shares entities) ∧ (i :: chain).getLast? = some j := by
  simp only [List.getLast?_eq_some_getLast (List.cons_ne_nil _ _), Option.some_inj]
  constructor
  · exact List.exists_isChain_cons_of_relationReflTransGen
  · intro ⟨chain, hchain, hlast⟩
    exact List.relationReflTransGen_of_exists_isChain_cons chain hchain hlast

/-- Pairs of an expression and one of its aliases, in the order in which the pass meets them. -/
def mentions (entities : Fin n → List Alias) : List (Fin n × Alias) :=
  (List.finRange n).flatMap fun i => (entities i).map (i, ·)

/-- An expression is met with each of its aliases and with no other one. -/
theorem mem_mentions_iff (i : Fin n) (ident : Alias) :
    (i, ident) ∈ mentions entities ↔ ident ∈ entities i := by
  simp [mentions]

/-- The pass is one loop over the mentions. -/
theorem link_eq_foldl (entities : Fin n → List Alias) :
    link entities = ((mentions entities).foldl
      (fun linking mention => linking.mention mention.1 mention.2) (Linking.start n)).sets := by
  simp only [link, mentions, List.foldl_flatMap, List.foldl_map]

/-- What the pass has established when it has met the mentions in `seen`. -/
structure Linking.Established (entities : Fin n → List Alias) (linking : Linking n)
    (seen : List (Fin n × Alias)) : Prop where
  /-- The first expression of an alias has been seen with it. -/
  first_seen : ∀ ident j, linking.first[ident]? = some j → (j, ident) ∈ seen
  /-- An expression seen with an alias is in the class of the first one. -/
  root_first : ∀ i ident, (i, ident) ∈ seen →
    ∃ j, linking.first[ident]? = some j ∧ linking.sets.root i = linking.sets.root j
  /-- A class holds linked expressions only. -/
  linked : ∀ i j, linking.sets.root i = linking.sets.root j → Linked entities i j

/-- Nothing is established by nothing. -/
theorem Linking.established_start (entities : Fin n → List Alias) :
    (Linking.start n).Established entities [] where
  first_seen ident j h := by simp [Linking.start] at h
  root_first i ident h := by simp at h
  linked i j h := by
    simp only [Linking.start, DisjointSet.root_singletons] at h
    exact h ▸ .refl

section Mention

variable {linking : Linking n} {seen : List (Fin n × Alias)} {i : Fin n} {ident : Alias}

/-- The first mention of an alias makes its expression the first one of the alias. -/
theorem Linking.Established.mention_of_none (h : linking.Established entities seen)
    (hfirst : linking.first[ident]? = none) :
    (linking.mention i ident).Established entities (seen ++ [(i, ident)]) := by
  have hne {other : Alias} {j : Fin n} (hother : linking.first[other]? = some j) :
      ident ≠ other := by
    rintro rfl
    simp [hfirst] at hother
  simp only [Linking.mention, hfirst]
  constructor
  · intro other j hj
    rw [Std.ExtTreeMap.getElem?_insert] at hj
    split at hj
    · next heq =>
      rw [Std.LawfulEqCmp.eq_of_compare heq, ← Option.some.inj hj]
      simp
    · exact List.mem_append_left _ (h.first_seen other j hj)
  · intro k other hk
    rcases List.mem_append.1 hk with hk | hk
    · obtain ⟨j, hj, hroot⟩ := h.root_first k other hk
      exact ⟨j, by rw [Std.ExtTreeMap.getElem?_insert, if_neg (by simpa using hne hj), hj], hroot⟩
    · obtain ⟨rfl, rfl⟩ : k = i ∧ other = ident := by simpa using hk
      exact ⟨k, by simp, rfl⟩
  · exact h.linked

/-- A later mention of an alias joins its expression with the first one of the alias. -/
theorem Linking.Established.mention_of_some (h : linking.Established entities seen) {first : Fin n}
    (hfirst : linking.first[ident]? = some first) (hshares : Shares entities i first) :
    (linking.mention i ident).Established entities (seen ++ [(i, ident)]) := by
  simp only [Linking.mention, hfirst]
  constructor
  · intro other j hj
    exact List.mem_append_left _ (h.first_seen other j hj)
  · intro k other hk
    rcases List.mem_append.1 hk with hk | hk
    · obtain ⟨j, hj, hroot⟩ := h.root_first k other hk
      exact ⟨j, hj, (linking.sets.root_union_eq_iff i first k j).2 (.inl hroot)⟩
    · obtain ⟨rfl, rfl⟩ : k = i ∧ other = ident := by simpa using hk
      exact ⟨first, hfirst, (linking.sets.root_union_eq_iff k first k first).2
        (.inr (.inl ⟨rfl, rfl⟩))⟩
  · intro a b hab
    rcases (linking.sets.root_union_eq_iff i first a b).1 hab with hab | ⟨ha, hb⟩ | ⟨ha, hb⟩
    · exact h.linked a b hab
    · exact ((h.linked a i ha).tail hshares).trans (h.linked b first hb).symm
    · exact ((h.linked a first ha).tail hshares.symm).trans (h.linked b i hb).symm

/-- One more mention is established by meeting it. -/
theorem Linking.Established.mention (h : linking.Established entities seen)
    (hseen : ∀ i ident, (i, ident) ∈ seen → ident ∈ entities i) (hident : ident ∈ entities i) :
    (linking.mention i ident).Established entities (seen ++ [(i, ident)]) := by
  cases hfirst : linking.first[ident]? with
  | none => exact h.mention_of_none hfirst
  | some first =>
    exact h.mention_of_some hfirst
      ⟨ident, hident, hseen first ident (h.first_seen ident first hfirst)⟩

end Mention

/-- Every mention is established at the end of the pass. -/
theorem Linking.Established.foldl {linking : Linking n} {seen : List (Fin n × Alias)}
    (h : linking.Established entities seen) {rest : List (Fin n × Alias)}
    (hmem : ∀ i ident, (i, ident) ∈ seen ++ rest → ident ∈ entities i) :
    (rest.foldl (fun linking mention => linking.mention mention.1 mention.2) linking).Established
      entities (seen ++ rest) := by
  induction rest generalizing linking seen with
  | nil => simpa using h
  | cons mention rest ih =>
    have hstep := h.mention (fun i ident hi => hmem i ident (List.mem_append_left _ hi))
      (hmem mention.1 mention.2 (by simp))
    simpa using ih hstep (by simpa using hmem)

/-- After the pass two expressions share a root exactly when they are linked. -/
theorem root_link_eq_iff (entities : Fin n → List Alias) (i j : Fin n) :
    (link entities).root i = (link entities).root j ↔ Linked entities i j := by
  have hmentions : ∀ i ident, (i, ident) ∈ [] ++ mentions entities → ident ∈ entities i :=
    fun i ident hi => (mem_mentions_iff i ident).1 (by simpa using hi)
  have h := (Linking.established_start entities).foldl hmentions
  rw [List.nil_append] at h
  rw [link_eq_foldl]
  constructor
  · exact h.linked i j
  · intro hij
    induction hij with
    | refl => rfl
    | @tail b c _ hbc ih =>
      obtain ⟨ident, hb, hc⟩ := hbc
      obtain ⟨first, hfirst, hbroot⟩ := h.root_first b ident ((mem_mentions_iff b ident).2 hb)
      obtain ⟨other, hother, hcroot⟩ := h.root_first c ident ((mem_mentions_iff c ident).2 hc)
      obtain rfl : first = other := Option.some.inj (hfirst.symm.trans hother)
      exact ih.trans (hbroot.trans hcroot.symm)

end Components

/-- The components of a list part its expressions by being linked. -/
theorem isPartitionBy_partition (exps : List Expression) :
    IsPartitionBy (Components.Linked fun i : Fin exps.length => (exps.get i).entities)
      (partition exps) := by
  have h := (Components.link fun i : Fin exps.length => (exps.get i).entities).isPartitionBy_classes
  simp only [Components.root_link_eq_iff] at h
  exact h

/-- The components are listed in the order of their first members. -/
theorem pairwise_head?_partition (exps : List Expression) :
    (partition exps).Pairwise fun one two => one.head? < two.head? :=
  (Components.link fun i : Fin exps.length => (exps.get i).entities).pairwise_head?_classes

/-- Two expressions have a source or target alias in common. -/
def Expression.SharesEnd (e f : Expression) : Prop :=
  ∃ ident, (e.source = ident ∨ e.target = ident) ∧ (f.source = ident ∨ f.target = ident)

/-- Expressions mention a common alias when it is an end of both. -/
theorem Components.shares_iff_sharesEnd {exps : List Expression} (i j : Fin exps.length) :
    Shares (fun i : Fin exps.length => (exps.get i).entities) i j ↔
      (exps.get i).SharesEnd (exps.get j) := by
  simp only [Shares, Expression.SharesEnd, Expression.mem_entities_iff, Expression.references,
    Bool.or_eq_true, beq_iff_eq]

/-- The components are not empty and each one is ascending. They are listed in the order of their
first members, and together they hold every place once. Two places are in one component exactly when
they are the ends of a chain of expressions in which neighbours have a source or target alias in
common. -/
theorem partition_exact (exps : List Expression) :
    (∀ component ∈ partition exps, component ≠ [] ∧ component.Pairwise (· < ·)) ∧
      ((partition exps).Pairwise fun one two => one.head? < two.head?) ∧
      ((partition exps).flatten.map Fin.val).Perm (List.range exps.length) ∧
      ∀ i j, (∃ component ∈ partition exps, i ∈ component ∧ j ∈ component) ↔
        ∃ chain, (i :: chain).IsChain (fun k l => (exps.get k).SharesEnd (exps.get l)) ∧
          (i :: chain).getLast? = some j := by
  have h := isPartitionBy_partition exps
  refine ⟨fun component hmem => ⟨h.nonempty component hmem, h.ascending component hmem⟩,
    pairwise_head?_partition exps, ?_, fun i j => ?_⟩
  · rw [← List.map_coe_finRange_eq_range]
    exact h.perm.map Fin.val
  · simp only [h.exists_mem_iff, Components.linked_iff_exists_chain,
      ← Components.shares_iff_sharesEnd]

/-- The last hop links two pieces that the ones before it left apart. -/
example : partition [.hop ⟨"x"⟩ ⟨"y"⟩ none none, .hop ⟨"a"⟩ ⟨"b"⟩ none none, .labelScan ⟨"c"⟩ "L",
    .hop ⟨"b"⟩ ⟨"x"⟩ none none] = [[0, 1, 3], [2]] := by decide +kernel

end PatternTraversal
