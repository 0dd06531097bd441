import Mathlib.Data.Finset.Card
import Mathlib.Order.Bounds.Basic
import Mathlib.Order.WellFounded
import PatternTraversal.Matrix.Labels
import PatternTraversal.Proofs.Crossing
import PatternTraversal.Proofs.Matrix.Product

/-!
# Labels settle on the least reachable node

During the rounds the label of a node is always a node that it reaches, and no larger than the node
itself. When a round changes nothing, no label is larger than one its node points at, so each label
is the least node reached. As long as a label is not the least one, some node that is not settled
points at one that carries the label it should have, and settles in the next round; settled nodes
stay settled. So each round settles a node or is the last one. The first node is settled from the
start, and there are no more rounds than nodes.
-/

namespace PatternTraversal

namespace SparseMatrix

/-- Stored entries lead from one node to another. -/
def Reaches (m : SparseMatrix) : UInt64 → UInt64 → Prop := Relation.ReflTransGen m.Stores

/-- A column that stores a label for each of `n` nodes. -/
structure IsLabelling (labels : SparseMatrix) (n : UInt64) (label : UInt64 → UInt64) : Prop where
  rows_eq : labels.rows = n
  cols_eq : labels.cols = 1
  get?_eq : ∀ row col, labels.get? row col = if row < n ∧ col = 0 then some (label row) else none

variable {m labels pulled : SparseMatrix} {n : UInt64} {label next : UInt64 → UInt64}

/-- Entries of the column of own numbers, for the first nodes. -/
theorem getElem?_foldl_insert_own {count : ℕ} (hcount : count ≤ UInt64.size)
    (row col : UInt64) :
    ((List.range count).foldl (fun entries node =>
        entries.insert ⟨UInt64.ofNat node, 0⟩ (UInt64.ofNat node))
      (∅ : Std.ExtTreeMap Cell UInt64))[(⟨row, col⟩ : Cell)]? =
      if row.toNat < count ∧ col = 0 then some row else none := by
  induction count with
  | zero => simp
  | succ count ih =>
    rw [List.range_succ, List.foldl_append, List.foldl_cons, List.foldl_nil,
      Std.ExtTreeMap.getElem?_insert, ih (Nat.le_of_succ_le hcount)]
    have hkey : compare (⟨UInt64.ofNat count, 0⟩ : Cell) ⟨row, col⟩ = .eq ↔
        row.toNat = count ∧ col = 0 := by
      rw [Std.LawfulEqCmp.compare_eq_iff_eq, Cell.mk.injEq, ← UInt64.toNat_inj,
        UInt64.toNat_ofNat_of_lt' (by omega), eq_comm, @eq_comm _ 0]
    by_cases hlast : row.toNat = count ∧ col = 0
    · rw [if_pos (hkey.2 hlast), if_pos ⟨by omega, hlast.2⟩, ← hlast.1, UInt64.ofNat_toNat]
    · rw [if_neg (mt hkey.1 hlast)]
      refine if_congr (and_congr_left fun hcol => ?_) rfl rfl
      have hne : row.toNat ≠ count := fun heq => hlast ⟨heq, hcol⟩
      omega

/-- Each node starts with its own number. -/
theorem isLabelling_ownLabels (n : UInt64) : (ownLabels n).IsLabelling n id where
  rows_eq := rfl
  cols_eq := rfl
  get?_eq row col := by
    simp only [get?, ownLabels, getElem?_foldl_insert_own (UInt64.toNat_lt n).le,
      UInt64.lt_iff_toNat_lt, id_eq]

/-- A label is stored for each node. -/
theorem IsLabelling.get?_zero_eq_some_iff (h : labels.IsLabelling n label) {i value : UInt64} :
    labels.get? i 0 = some value ↔ i < n ∧ label i = value := by
  rw [h.get?_eq]
  by_cases hi : i < n <;> simp [hi]

/-- Two columns of the same labels are equal. -/
theorem IsLabelling.eq_of_labels_eq (h : labels.IsLabelling n label)
    (hpulled : pulled.IsLabelling n next) (heq : ∀ i < n, next i = label i) : pulled = labels := by
  refine ext_get? (hpulled.rows_eq.trans h.rows_eq.symm) (hpulled.cols_eq.trans h.cols_eq.symm) ?_
  intro row col
  rw [hpulled.get?_eq, h.get?_eq]
  by_cases hrow : row < n ∧ col = 0
  · simp [hrow, heq row hrow.1]
  · simp [hrow]

/-- What a round makes of the labels: the smallest one among the own label of each node and those of
the nodes that it points at. -/
structure IsPull (m : SparseMatrix) (n : UInt64) (label next : UInt64 → UInt64) : Prop where
  le_own : ∀ i < n, next i ≤ label i
  le_pointed : ∀ i k, m.Stores i k → next i ≤ label k
  own_or_pointed : ∀ i < n, next i = label i ∨ ∃ k, m.Stores i k ∧ next i = label k

/-- The label that a round stores for a node. -/
theorem get?_pulled (hm : m.IsSquare n) (h : labels.IsLabelling n label) {product : SparseMatrix}
    (hproduct : m.multiply .minSecond labels = .ok product)
    (hpulled : product.minimum labels = .ok pulled) {i : UInt64} (hi : i < n) :
    ∃ value, pulled.get? i 0 = some value ∧ value ≤ label i ∧
      (∀ k, m.Stores i k → value ≤ label k) ∧
      (value = label i ∨ ∃ k, m.Stores i k ∧ value = label k) := by
  have hlabel {k : UInt64} (hk : m.Stores i k) : labels.get? k 0 = some (label k) :=
    h.get?_zero_eq_some_iff.2 ⟨(hm.lt_of_stores hk).2, rfl⟩
  rw [get?_minimum hpulled, h.get?_zero_eq_some_iff.2 ⟨hi, rfl⟩, Option.elim_some]
  cases hget : product.get? i 0 with
  | none =>
    refine ⟨label i, rfl, UInt64.le_refl _, fun k hk => ?_, .inl rfl⟩
    have hstores : product.Stores i 0 := (stores_multiply_iff hproduct i 0).2
      ⟨k, hk, Option.isSome_of_mem (hlabel hk)⟩
    simp [Stores, hget] at hstores
  | some known =>
    obtain ⟨⟨k, hk, hknown⟩, hleast⟩ := get?_multiply_minSecond hproduct hget
    obtain rfl : label k = known := Option.some.inj ((hlabel hk).symm.trans hknown)
    have hpointed (j : UInt64) (hj : m.Stores i j) : label k ≤ label j :=
      hleast j (label j) hj (hlabel hj)
    rw [Option.elim_some]
    by_cases hle : label k ≤ label i
    · rw [if_pos hle]
      exact ⟨label k, rfl, hle, hpointed, .inr ⟨k, hk, rfl⟩⟩
    · rw [if_neg hle]
      have hlt : label i < label k := UInt64.not_le.1 hle
      exact ⟨label i, rfl, UInt64.le_refl _,
        fun j hj => UInt64.le_trans (UInt64.le_of_lt hlt) (hpointed j hj), .inl rfl⟩

/-- A round labels each node with the smallest label among its own and those it points at. -/
theorem exists_pullLabels (hm : m.IsSquare n) (h : labels.IsLabelling n label) :
    ∃ pulled next, m.pullLabels labels = .ok pulled ∧ pulled.IsLabelling n next ∧
      m.IsPull n label next := by
  obtain ⟨product, hproduct⟩ : ∃ product, m.multiply .minSecond labels = .ok product :=
    multiply_eq_ok (hm.cols_eq.trans h.rows_eq.symm)
  obtain ⟨hrows, hcols⟩ := shape_of_multiply hproduct
  obtain ⟨pulled, hpulled⟩ : ∃ pulled, product.minimum labels = .ok pulled :=
    ⟨_, if_pos ⟨hrows.trans (hm.rows_eq.trans h.rows_eq.symm), hcols⟩⟩
  obtain ⟨hrows', hcols'⟩ := shape_of_minimum hpulled
  choose! next hnext using fun i hi => get?_pulled hm h hproduct hpulled (i := i) hi
  refine ⟨pulled, next, ?_, ⟨?_, ?_, fun row col => ?_⟩, ?_, fun i k hk => ?_, ?_⟩
  · simp [pullLabels, hproduct, hpulled]
  · exact hrows'.trans (hrows.trans hm.rows_eq)
  · exact hcols'.trans (hcols.trans h.cols_eq)
  · by_cases hcell : row < n ∧ col = 0
    · obtain ⟨hrow, rfl⟩ := hcell
      rw [if_pos ⟨hrow, rfl⟩, (hnext row hrow).1]
    · rw [get?_minimum hpulled, h.get?_eq, if_neg hcell, if_neg hcell, Option.elim_none,
        ← Option.not_isSome_iff_eq_none]
      intro hstores
      obtain ⟨k, hk, hlabel⟩ := (stores_multiply_iff hproduct row col).1 hstores
      refine hcell ⟨(hm.lt_of_stores hk).1, ?_⟩
      by_contra hcol
      simp [Stores, h.get?_eq, hcol] at hlabel
  · exact fun i hi => (hnext i hi).2.1
  · exact (hnext i (hm.lt_of_stores hk).1).2.2.1 k hk
  · exact fun i hi => (hnext i hi).2.2.2

/-- What is known of the labels during the rounds: the label of a node is a node that it reaches,
and no larger than the node itself. -/
structure Approximates (m : SparseMatrix) (n : UInt64) (labels : SparseMatrix)
    (label : UInt64 → UInt64) : Prop where
  labelling : labels.IsLabelling n label
  reaches : ∀ i < n, m.Reaches i (label i)
  le_self : ∀ i < n, label i ≤ i

/-- At the start each node has its own number. -/
theorem approximates_ownLabels (m : SparseMatrix) (n : UInt64) :
    m.Approximates n (ownLabels n) id where
  labelling := isLabelling_ownLabels n
  reaches _ _ := .refl
  le_self _ _ := UInt64.le_refl _

/-- A round keeps what is known of the labels. -/
theorem Approximates.pull (h : m.Approximates n labels label) (hm : m.IsSquare n)
    (hpulled : pulled.IsLabelling n next) (hpull : m.IsPull n label next) :
    m.Approximates n pulled next where
  labelling := hpulled
  reaches i hi := by
    rcases hpull.own_or_pointed i hi with heq | ⟨k, hk, heq⟩
    · exact heq ▸ h.reaches i hi
    · exact heq ▸ .head hk (h.reaches k (hm.lt_of_stores hk).2)
  le_self i hi := UInt64.le_trans (hpull.le_own i hi) (h.le_self i hi)

/-- A node is settled when its label is the least node that it reaches. -/
def Settled (m : SparseMatrix) (label : UInt64 → UInt64) (i : UInt64) : Prop :=
  IsLeast {j | m.Reaches i j} (label i)

/-- When no label is larger than one its node points at, all nodes are settled. -/
theorem Approximates.settled_of_stable (h : m.Approximates n labels label) (hm : m.IsSquare n)
    (hstable : ∀ i k, m.Stores i k → label i ≤ label k) {i : UInt64} (hi : i < n) :
    m.Settled label i := by
  refine ⟨h.reaches i hi, fun j hj => ?_⟩
  have hle : label i ≤ label j ∧ j < n := by
    induction hj with
    | refl => exact ⟨UInt64.le_refl _, hi⟩
    | @tail b c _ hbc ih =>
      exact ⟨UInt64.le_trans ih.1 (hstable b c hbc), (hm.lt_of_stores hbc).2⟩
  exact UInt64.le_trans hle.1 (h.le_self j hle.2)

/-- A settled node stays settled. -/
theorem Approximates.settled_pull (h : m.Approximates n pulled next)
    (hpull : m.IsPull n label next) {i : UInt64} (hi : i < n) (hsettled : m.Settled label i) :
    m.Settled next i := by
  have heq : next i = label i :=
    UInt64.le_antisymm (hpull.le_own i hi) (hsettled.2 (h.reaches i hi))
  rwa [Settled, heq]

/-- Some node is the least one that a node reaches. -/
theorem exists_least_reached (m : SparseMatrix) (i : UInt64) :
    ∃ least, IsLeast {j | m.Reaches i j} least := by
  obtain ⟨least, hleast, hmin⟩ := (measure UInt64.toNat).wf.has_min {j | m.Reaches i j}
    ⟨i, .refl⟩
  exact ⟨least, hleast, fun j hj => UInt64.not_lt.1 (hmin j hj)⟩

/-- While some node is not settled, a round settles some node. -/
theorem Approximates.exists_newly_settled (h : m.Approximates n labels label)
    (hm : m.IsSquare n) (hnext : m.Approximates n pulled next) (hpull : m.IsPull n label next)
    {i : UInt64} (hi : i < n) (hunsettled : ¬ m.Settled label i) :
    ∃ a < n, ¬ m.Settled label a ∧ m.Settled next a := by
  obtain ⟨least, hleast, hmin⟩ := exists_least_reached m i
  have hlabel : ¬ label i ≤ least := by
    intro hle
    apply hunsettled
    rw [Settled, UInt64.le_antisymm hle (hmin (h.reaches i hi))]
    exact ⟨hleast, hmin⟩
  have hbelow : least < n := by
    rcases Relation.ReflTransGen.cases_tail hleast with rfl | ⟨k, -, hk⟩
    · exact hi
    · exact (hm.lt_of_stores hk).2
  obtain ⟨a, b, hia, hab, hb, ha, hbl⟩ := exists_crossing (fun j => ¬ label j ≤ least) hleast
    hlabel (not_not.2 (h.le_self least hbelow))
  rw [not_not] at hbl
  have han := (hm.lt_of_stores hab).1
  have hleastA : IsLeast {j | m.Reaches a j} least :=
    ⟨.head hab hb, fun j hj => hmin (Relation.ReflTransGen.trans hia hj)⟩
  have heq : next a = least := UInt64.le_antisymm
    (UInt64.le_trans (hpull.le_pointed a b hab) hbl) (hleastA.2 (hnext.reaches a han))
  refine ⟨a, han, fun hsettled => ha (hsettled.2 hleastA.1), ?_⟩
  rwa [Settled, heq]

open Classical in
/-- Nodes that are not settled. -/
noncomputable def unsettled (m : SparseMatrix) (n : UInt64) (label : UInt64 → UInt64) : Finset ℕ :=
  (Finset.range n.toNat).filter fun i => ¬ m.Settled label (UInt64.ofNat i)

/-- Nodes that are not settled, by their numbers. -/
theorem mem_unsettled_iff (i : ℕ) :
    i ∈ m.unsettled n label ↔ i < n.toNat ∧ ¬ m.Settled label (UInt64.ofNat i) := by
  simp [unsettled]

/-- At the start the first node is settled, if there is one. -/
theorem card_unsettled_id_lt (m : SparseMatrix) (n : UInt64) :
    (m.unsettled n id).card < max n.toNat 1 := by
  have hsub : m.unsettled n id ⊆ (Finset.range n.toNat).erase 0 := by
    intro i hi
    obtain ⟨hlt, hunsettled⟩ := (mem_unsettled_iff i).1 hi
    refine Finset.mem_erase.2 ⟨?_, Finset.mem_range.2 hlt⟩
    rintro rfl
    exact hunsettled ⟨.refl, fun j _ => UInt64.zero_le⟩
  have hcard := Finset.card_le_card hsub
  by_cases hn : 0 < n.toNat
  · rw [Finset.card_erase_of_mem (Finset.mem_range.2 hn), Finset.card_range] at hcard
    omega
  · have hrange := hcard.trans Finset.card_erase_le
    rw [Finset.card_range] at hrange
    omega

/-- While some node is not settled, a round leaves fewer of them. -/
theorem Approximates.card_unsettled_lt (h : m.Approximates n labels label) (hm : m.IsSquare n)
    (hnext : m.Approximates n pulled next) (hpull : m.IsPull n label next) {i : UInt64} (hi : i < n)
    (hunsettled : ¬ m.Settled label i) :
    (m.unsettled n next).card < (m.unsettled n label).card := by
  obtain ⟨a, han, ha, hsettled⟩ := h.exists_newly_settled hm hnext hpull hi hunsettled
  have hsub : m.unsettled n next ⊆ m.unsettled n label := by
    intro j hj
    obtain ⟨hj, hunsettled⟩ := (mem_unsettled_iff j).1 hj
    have hlt : UInt64.ofNat j < n := (UInt64.ofNat_lt_iff (hj.trans (UInt64.toNat_lt n))).2 hj
    exact (mem_unsettled_iff j).2
      ⟨hj, fun hsettled => hunsettled (hnext.settled_pull hpull hlt hsettled)⟩
  refine Finset.card_lt_card ((Finset.ssubset_iff_of_subset hsub).2 ⟨a.toNat, ?_, ?_⟩)
  · rw [mem_unsettled_iff, UInt64.ofNat_toNat]
    exact ⟨UInt64.lt_iff_toNat_lt.1 han, ha⟩
  · rw [mem_unsettled_iff, UInt64.ofNat_toNat]
    exact fun hmem => hmem.2 hsettled

/-- The rounds without a limit: they go on until one of them, the last, changes no label. -/
inductive SettlesIn (m : SparseMatrix) : ℕ → SparseMatrix → SparseMatrix → Prop
  | unchanged {labels : SparseMatrix} (hround : m.pullLabels labels = .ok labels) :
    SettlesIn m 1 labels labels
  | changed {rounds : ℕ} {labels pulled settled : SparseMatrix}
    (hround : m.pullLabels labels = .ok pulled) (hne : pulled ≠ labels)
    (hrest : SettlesIn m rounds pulled settled) : SettlesIn m (rounds + 1) labels settled

/-- However many more rounds are granted, the labels are those of the last round. -/
theorem SettlesIn.settleLabels_eq {rounds granted : ℕ} {settled : SparseMatrix}
    (h : m.SettlesIn rounds labels settled) (hle : rounds ≤ granted) :
    m.settleLabels granted labels = .ok settled := by
  induction h generalizing granted with
  | unchanged hround =>
    obtain ⟨granted, rfl⟩ := Nat.exists_eq_add_one_of_ne_zero (Nat.ne_zero_of_lt hle)
    rw [settleLabels, hround]
    exact if_pos rfl
  | changed hround hne _ ih =>
    obtain ⟨granted, rfl⟩ := Nat.exists_eq_add_one_of_ne_zero (Nat.ne_zero_of_lt hle)
    rw [settleLabels, hround]
    exact (if_neg hne).trans (ih (Nat.le_of_succ_le_succ hle))

/-- The rounds end by themselves, each but the last one settling a node, and then all nodes are
settled. -/
theorem Approximates.exists_settlesIn (h : m.Approximates n labels label) (hm : m.IsSquare n) :
    ∃ rounds settled final, m.SettlesIn rounds labels settled ∧
      rounds ≤ (m.unsettled n label).card + 1 ∧ settled.IsLabelling n final ∧
      ∀ i < n, m.Settled final i := by
  induction hcard : (m.unsettled n label).card using Nat.strong_induction_on
    generalizing labels label with
  | _ count ih =>
    obtain ⟨pulled, next, hround, hpulled, hpull⟩ := exists_pullLabels hm h.labelling
    have hnext := h.pull hm hpulled hpull
    by_cases heq : pulled = labels
    · subst heq
      refine ⟨1, pulled, label, .unchanged hround, by omega, h.labelling,
        fun i hi => h.settled_of_stable hm (fun i k hk => ?_) hi⟩
      have hi := (hm.lt_of_stores hk).1
      have hsame : label i = next i := (h.labelling.get?_zero_eq_some_iff.1
        (hpulled.get?_zero_eq_some_iff.2 ⟨hi, rfl⟩)).2
      exact hsame ▸ hpull.le_pointed i k hk
    · obtain ⟨i, hi, hunsettled⟩ : ∃ i < n, ¬ m.Settled label i := by
        by_contra hall
        push Not at hall
        refine heq (h.labelling.eq_of_labels_eq hpulled fun i hi => ?_)
        exact UInt64.le_antisymm (hpull.le_own i hi) ((hall i hi).2 (hnext.reaches i hi))
      have hlt := h.card_unsettled_lt hm hnext hpull hi hunsettled
      obtain ⟨rounds, settled, final, hrest, hrounds, hlabelling, hsettled⟩ :=
        ih _ (hcard ▸ hlt) hnext rfl
      exact ⟨rounds + 1, settled, final, .changed hround heq hrest, by omega, hlabelling, hsettled⟩

/-- The entries of a column of labels, node by node. -/
theorem IsLabelling.toList_eq (h : labels.IsLabelling n label) :
    labels.toList = (List.range n.toNat).map fun i =>
      ((⟨UInt64.ofNat i, 0⟩ : Cell), label (UInt64.ofNat i)) := by
  have hsize {i : ℕ} (hi : i < n.toNat) : i < UInt64.size := hi.trans (UInt64.toNat_lt n)
  refine toList_eq_of_ascending ?_ fun row col value => ?_
  · rw [List.pairwise_map]
    refine List.pairwise_lt_range.imp_of_mem fun {i j} hi hj hij => ?_
    have hrows : compare (UInt64.ofNat i) (UInt64.ofNat j) = .lt := Std.compare_eq_lt.2
      ((UInt64.ofNat_lt_iff_lt (hsize (List.mem_range.1 hi)) (hsize (List.mem_range.1 hj))).2 hij)
    change (compare (UInt64.ofNat i) (UInt64.ofNat j)).then _ = .lt
    rw [hrows]
    rfl
  · rw [h.get?_eq, List.mem_map]
    constructor
    · rintro ⟨i, hi, hentry⟩
      obtain ⟨⟨rfl, rfl⟩, rfl⟩ := by simpa using hentry
      rw [List.mem_range] at hi
      rw [if_pos ⟨(UInt64.ofNat_lt_iff (hsize hi)).2 hi, rfl⟩]
    · intro hvalue
      by_cases hcell : row < n ∧ col = 0
      · obtain ⟨hrow, rfl⟩ := hcell
        rw [if_pos ⟨hrow, rfl⟩, Option.some_inj] at hvalue
        refine ⟨row.toNat, List.mem_range.2 (UInt64.lt_iff_toNat_lt.1 hrow), ?_⟩
        rw [UInt64.ofNat_toNat, hvalue]
      · simp [hcell] at hvalue

/-- The labels in a column of them, node by node. -/
theorem IsLabelling.values_eq (h : labels.IsLabelling n label) :
    labels.toList.map (·.2) = (List.range n.toNat).map fun i => label (UInt64.ofNat i) := by
  rw [h.toList_eq, List.map_map]
  rfl

/-- From the own numbers on there are no more rounds than nodes, and at least one. -/
theorem IsSquare.exists_settlesIn_ownLabels (hm : m.IsSquare n) :
    ∃ rounds settled final, m.SettlesIn rounds (ownLabels n) settled ∧
      rounds ≤ max n.toNat 1 ∧ settled.IsLabelling n final ∧ ∀ i < n, m.Settled final i := by
  obtain ⟨rounds, settled, final, hrounds, hle, hlabelling, hsettled⟩ :=
    (approximates_ownLabels m n).exists_settlesIn hm
  exact ⟨rounds, settled, final, hrounds, hle.trans (card_unsettled_id_lt m n), hlabelling,
    hsettled⟩

/-- The rounds that are granted suffice, so the labels are those of the last one. -/
theorem componentLabels_eq_of_settlesIn (hm : m.IsSquare n) {rounds : ℕ} {settled : SparseMatrix}
    (h : m.SettlesIn rounds (ownLabels n) settled) (hle : rounds ≤ max n.toNat 1) :
    m.componentLabels = .ok (settled.toList.map (·.2)) := by
  have hgranted : rounds ≤ n.toNat + 1 := by omega
  rw [componentLabels, hm.rows_eq, h.settleLabels_eq hgranted]

/-- The labels of the nodes of a square matrix: each node has the least one that it reaches. -/
theorem exists_componentLabels (hm : m.IsSquare n) :
    ∃ final : UInt64 → UInt64, m.componentLabels =
        .ok ((List.range n.toNat).map fun i => final (UInt64.ofNat i)) ∧
      ∀ i < n, IsLeast {j | m.Reaches i j} (final i) := by
  obtain ⟨rounds, settled, final, hrounds, hle, hlabelling, hsettled⟩ :=
    hm.exists_settlesIn_ownLabels
  refine ⟨final, ?_, hsettled⟩
  rw [componentLabels_eq_of_settlesIn hm hrounds hle, hlabelling.values_eq]

/-- A matrix that is not square has no labels: its first round is refused. -/
theorem componentLabels_eq_error (h : m.rows ≠ m.cols) :
    m.componentLabels = .error (.shapeMismatch m.rows m.cols m.rows 1) := by
  have hmultiply : m.multiply .minSecond (ownLabels m.rows) =
      .error (.shapeMismatch m.rows m.cols m.rows 1) := if_neg (Ne.symm h)
  simp [componentLabels, settleLabels, pullLabels, hmultiply]

/-- A matrix that is not square is refused. The rounds of a square one end by themselves, after no
more of them than there are nodes and at least one, and label each node with the least node that its
stored entries lead to, itself included; neither symmetry nor the stored values matter. -/
theorem componentLabels_least_reached (hm : m.InBounds) :
    (m.rows ≠ m.cols → m.componentLabels = .error (.shapeMismatch m.rows m.cols m.rows 1)) ∧
      (m.rows = m.cols → ∃ rounds settled labels,
        m.SettlesIn rounds (ownLabels m.rows) settled ∧ rounds ≤ max m.rows.toNat 1 ∧
        m.componentLabels = .ok labels ∧ labels = settled.toList.map (·.2) ∧
        labels.length = m.rows.toNat ∧
        ∀ i (hi : i < labels.length), IsLeast {j | m.Reaches (UInt64.ofNat i) j} labels[i]) := by
  refine ⟨componentLabels_eq_error, fun hshape => ?_⟩
  have hsquare : m.IsSquare m.rows := ⟨rfl, hshape.symm, hm⟩
  obtain ⟨rounds, settled, final, hrounds, hle, hlabelling, hsettled⟩ :=
    hsquare.exists_settlesIn_ownLabels
  refine ⟨rounds, settled, _, hrounds, hle, componentLabels_eq_of_settlesIn hsquare hrounds hle,
    rfl, by simp [hlabelling.values_eq], fun i hi => ?_⟩
  have hin : i < m.rows.toNat := by simpa [hlabelling.values_eq] using hi
  simp only [hlabelling.values_eq, List.getElem_map, List.getElem_range]
  exact hsettled _ ((UInt64.ofNat_lt_iff (hin.trans (UInt64.toNat_lt _))).2 hin)

/-- On a path against the numbers of its nodes, whose entries are zeros, the label of the first node
reaches the last one, and three rounds are enough. -/
theorem componentLabels_least_reached_path :
    let m : SparseMatrix := ⟨3, 3, .ofList [((⟨1, 0⟩, 0) : Cell × UInt64), (⟨2, 1⟩, 0)]⟩
    m.InBounds ∧ m.rows = m.cols ∧ m.componentLabels = .ok [0, 0, 0] ∧
      (∃ rounds settled, m.SettlesIn rounds (ownLabels 3) settled ∧ rounds ≤ 3) ∧
      IsLeast {j | m.Reaches 2 j} 0 := by
  intro m
  have hm : m.InBounds := by decide +kernel
  obtain ⟨rounds, settled, labels, hrounds, hle, hlabels, -, hlength, hleast⟩ :=
    (componentLabels_least_reached hm).2 rfl
  have hzeros : m.componentLabels = .ok [0, 0, 0] := by decide +kernel
  obtain rfl := Except.ok.inj (hlabels.symm.trans hzeros)
  exact ⟨hm, rfl, hzeros, ⟨rounds, settled, hrounds, hle⟩, hleast 2 (by decide)⟩

end SparseMatrix

end PatternTraversal
