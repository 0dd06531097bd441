import PatternTraversal.Matrix.Basic
import PatternTraversal.Proofs.MapChanges

/-!
# Entries of sparse matrices

What a cell stores after an operation. A matrix is square of size `n` when it has `n` rows and
columns and stores nothing outside of them; writing into the shape, transposing and listing a
diagonal keep that.
-/

namespace PatternTraversal

namespace Cell

/-- Exchanging the coordinates twice gives the cell back. -/
@[simp] theorem transpose_transpose (cell : Cell) : cell.transpose.transpose = cell := rfl

/-- Different cells stay different when their coordinates are exchanged. -/
theorem transpose_injective : Function.Injective transpose := fun a b h => by
  simpa using congrArg transpose h

end Cell

namespace SparseMatrix

/-- Whether a cell stores a value. -/
def Stores (m : SparseMatrix) (row col : UInt64) : Prop := (m.get? row col).isSome

instance (m : SparseMatrix) (row col : UInt64) : Decidable (m.Stores row col) :=
  inferInstanceAs (Decidable ((m.get? row col).isSome = true))

/-- A matrix of `n` rows and columns that stores nothing outside of them. -/
structure IsSquare (m : SparseMatrix) (n : UInt64) : Prop where
  rows_eq : m.rows = n
  cols_eq : m.cols = n
  inBounds : m.InBounds

/-- A matrix that stores values on its diagonal only. -/
def IsDiagonal (m : SparseMatrix) : Prop := ∀ row col, m.Stores row col → row = col

variable {m : SparseMatrix} {n : UInt64}

/-- A cell stores a value when it is a key. -/
theorem stores_iff_mem (row col : UInt64) : m.Stores row col ↔ (⟨row, col⟩ : Cell) ∈ m.entries := by
  rw [Stores, get?, Std.ExtTreeMap.isSome_getElem?_iff_mem]

/-- The entries inside the shape are told by the listed ones. -/
theorem inBounds_iff :
    m.InBounds ↔ ∀ entry ∈ m.toList, entry.1.row < m.rows ∧ entry.1.col < m.cols := by
  constructor
  · intro h entry hentry
    exact h entry.1 ((stores_iff_mem _ _).1 (Option.isSome_of_mem (mem_toList_iff.1 hentry)))
  · intro h cell hcell
    obtain ⟨value, hvalue⟩ := Option.isSome_iff_exists.1 ((stores_iff_mem _ _).2 hcell)
    exact h (cell, value) (mem_toList_iff.2 hvalue)

instance (m : SparseMatrix) : Decidable m.InBounds := decidable_of_iff' _ inBounds_iff

/-- A cell that stores a value lies inside the shape. -/
theorem IsSquare.lt_of_stores (h : m.IsSquare n) {row col : UInt64} (hstores : m.Stores row col) :
    row < n ∧ col < n := by
  have hlt := h.inBounds ⟨row, col⟩ ((stores_iff_mem row col).1 hstores)
  rwa [h.rows_eq, h.cols_eq] at hlt

/-- The matrix without entries is square. -/
theorem isSquare_zero (n : UInt64) : (zero n n).IsSquare n :=
  ⟨rfl, rfl, fun _ hcell => absurd hcell Std.ExtTreeMap.not_mem_empty⟩

/-- The matrix without entries is diagonal. -/
theorem isDiagonal_zero (rows cols : UInt64) : (zero rows cols).IsDiagonal := by
  intro row col h
  simp [Stores] at h

/-- Entries listed cell by cell, in order and all of them, are the list of the matrix. -/
theorem toList_eq_of_ascending {listed : List (Cell × UInt64)}
    (hascending : listed.Pairwise fun a b => compare a.1 b.1 = .lt)
    (hmem : ∀ row col value, ((⟨row, col⟩ : Cell), value) ∈ listed ↔ m.get? row col = some value) :
    m.toList = listed := by
  have hnodup {entries : List (Cell × UInt64)}
      (h : entries.Pairwise fun a b => compare a.1 b.1 = .lt) : entries.Nodup := by
    refine h.imp fun hlt => ?_
    rintro rfl
    simp [Std.ReflCmp.compare_self] at hlt
  have hordered : m.toList.Pairwise fun a b => compare a.1 b.1 = .lt :=
    Std.ExtTreeMap.ordered_keys_toList
  have hperm : m.toList.Perm listed :=
    (List.perm_ext_iff_of_nodup (hnodup hordered) (hnodup hascending)).2 fun entry =>
      mem_toList_iff.trans (hmem entry.1.row entry.1.col entry.2).symm
  refine hperm.eq_of_pairwise (fun a b _ _ hab hba => ?_) hordered hascending
  exact absurd hba (Std.OrientedCmp.not_lt_of_lt hab)

section Set

variable {written : SparseMatrix} {value row col : UInt64}

/-- A value can be written exactly inside the shape. -/
theorem set_eq_ok_iff : m.set value row col = .ok written ↔
    (row < m.rows ∧ col < m.cols) ∧
      written = { m with entries := m.entries.insert ⟨row, col⟩ value } := by
  unfold set
  split
  · next h => simp [h, eq_comm]
  · next h => simp [h]

/-- After a write the cell stores the value and the other cells what they stored before. -/
theorem get?_set (h : m.set value row col = .ok written) (i j : UInt64) :
    written.get? i j = if i = row ∧ j = col then some value else m.get? i j := by
  obtain ⟨-, rfl⟩ := set_eq_ok_iff.1 h
  simp only [get?, Std.ExtTreeMap.getElem?_insert, Std.LawfulEqCmp.compare_eq_iff_eq,
    Cell.mk.injEq]
  simp only [eq_comm]

/-- After a write one more cell stores a value. -/
theorem stores_set_iff (h : m.set value row col = .ok written) (i j : UInt64) :
    written.Stores i j ↔ (i = row ∧ j = col) ∨ m.Stores i j := by
  rw [Stores, Stores, get?_set h]
  by_cases hij : i = row ∧ j = col
  · simp [hij]
  · simp [hij]

/-- Writing keeps a matrix square. -/
theorem IsSquare.set (hm : m.IsSquare n) (h : m.set value row col = .ok written) :
    written.IsSquare n := by
  obtain ⟨hlt, rfl⟩ := set_eq_ok_iff.1 h
  refine ⟨hm.rows_eq, hm.cols_eq, fun cell hcell => ?_⟩
  rcases Std.ExtTreeMap.mem_insert.1 hcell with heq | hcell
  · rw [← Std.LawfulEqCmp.eq_of_compare heq]
    exact hlt
  · exact hm.inBounds cell hcell

/-- A value can be written exactly into the cells of a square matrix. -/
theorem IsSquare.exists_set_iff (hm : m.IsSquare n) :
    (∃ written, m.set value row col = .ok written) ↔ row < n ∧ col < n := by
  simp only [set_eq_ok_iff, hm.rows_eq, hm.cols_eq, exists_and_left, exists_eq, and_true]

/-- Writing on the diagonal keeps a matrix diagonal. -/
theorem IsDiagonal.set (hm : m.IsDiagonal) (h : m.set value row row = .ok written) :
    written.IsDiagonal := by
  intro i j hij
  rcases (stores_set_iff h i j).1 hij with ⟨rfl, rfl⟩ | hij
  · rfl
  · exact hm i j hij

end Set

/-- A series of writes on the diagonal keeps a matrix square and diagonal. -/
theorem isSquare_of_foldlM_set {start : SparseMatrix} {indices : List UInt64}
    (hsquare : start.IsSquare n) (hdiagonal : start.IsDiagonal)
    (h : indices.foldlM (fun m index => m.set 1 index index) start = .ok m) :
    m.IsSquare n ∧ m.IsDiagonal := by
  induction indices generalizing start with
  | nil =>
    obtain rfl : start = m := Except.ok.inj h
    exact ⟨hsquare, hdiagonal⟩
  | cons index rest ih =>
    rw [List.foldlM_cons] at h
    cases hset : start.set 1 index index with
    | error error => simp [hset, Bind.bind, Except.bind] at h
    | ok written =>
      simp only [hset, Bind.bind, Except.bind] at h
      exact ih (hsquare.set hset) (hdiagonal.set hset) h

/-- The matrix of a list of diagonal entries is square and diagonal. -/
theorem isSquare_diagonal {indices : List UInt64} (h : diagonal n indices = .ok m) :
    m.IsSquare n ∧ m.IsDiagonal :=
  isSquare_of_foldlM_set (isSquare_zero n) (isDiagonal_zero n n) h

/-- After a series of writes on the diagonal the listed cells store ones. -/
theorem get?_foldlM_set {start : SparseMatrix} {indices : List UInt64}
    (h : indices.foldlM (fun m index => m.set 1 index index) start = .ok m) (row col : UInt64) :
    m.get? row col = if row = col ∧ row ∈ indices then some 1 else start.get? row col := by
  induction indices generalizing start with
  | nil =>
    obtain rfl : start = m := Except.ok.inj h
    simp
  | cons index rest ih =>
    rw [List.foldlM_cons] at h
    cases hset : start.set 1 index index with
    | error error => simp [hset, Bind.bind, Except.bind] at h
    | ok written =>
      simp only [hset, Bind.bind, Except.bind] at h
      rw [ih h, get?_set hset]
      grind

/-- The matrix of a list of diagonal entries stores ones in their cells and nothing else. -/
theorem get?_diagonal {indices : List UInt64} (h : diagonal n indices = .ok m) (row col : UInt64) :
    m.get? row col = if row = col ∧ row ∈ indices then some 1 else none := by
  rw [get?_foldlM_set h, get?_zero]

/-- A series of writes on the diagonal goes through exactly inside the size. -/
theorem IsSquare.exists_foldlM_set_iff {start : SparseMatrix} (hstart : start.IsSquare n)
    (indices : List UInt64) :
    (∃ m, indices.foldlM (fun m index => m.set 1 index index) start = .ok m) ↔
      ∀ index ∈ indices, index < n := by
  induction indices generalizing start with
  | nil => simp [Pure.pure, Except.pure]
  | cons index rest ih =>
    have hfirst : (∃ written, start.set 1 index index = .ok written) ↔ index < n ∧ index < n :=
      hstart.exists_set_iff
    rw [List.foldlM_cons, List.forall_mem_cons]
    cases hset : start.set 1 index index with
    | error error =>
      have hout : ¬ index < n := by simpa [hset] using hfirst
      simp [Bind.bind, Except.bind, hout]
    | ok written =>
      have hin : index < n := by simpa [hset] using hfirst
      simp only [Bind.bind, Except.bind, hin, true_and]
      exact ih (hstart.set hset)

/-- A diagonal matrix can be listed exactly inside its size. -/
theorem exists_diagonal_iff (n : UInt64) (indices : List UInt64) :
    (∃ m, diagonal n indices = .ok m) ↔ ∀ index ∈ indices, index < n :=
  (isSquare_zero n).exists_foldlM_set_iff indices

section Minimum

variable {left right : SparseMatrix}

/-- A cell is listed at most once. -/
theorem filter_toList (m : SparseMatrix) (row col : UInt64) :
    m.toList.filter (fun entry => entry.1 = ⟨row, col⟩) =
      ((m.get? row col).map ((⟨row, col⟩ : Cell), ·)).toList := by
  have hmem (entry : Cell × UInt64) :
      entry ∈ m.toList.filter (fun entry => entry.1 = ⟨row, col⟩) ↔
        entry.1 = ⟨row, col⟩ ∧ m.get? row col = some entry.2 := by
    obtain ⟨cell, value⟩ := entry
    rw [List.mem_filter, decide_eq_true_iff, and_comm]
    refine and_congr_right fun hcell => ?_
    obtain rfl : cell = ⟨row, col⟩ := hcell
    exact mem_toList_iff
  cases hget : m.get? row col with
  | none =>
    refine List.eq_nil_iff_forall_not_mem.2 fun entry hentry => ?_
    have hvalue := ((hmem entry).1 hentry).2
    rw [hget] at hvalue
    exact Option.some_ne_none _ hvalue.symm
  | some value =>
    have hnodup : (m.toList.filter fun entry => entry.1 = ⟨row, col⟩).Nodup := by
      refine List.Pairwise.filter _ (Std.ExtTreeMap.distinct_keys_toList.imp fun hne heq => ?_)
      exact hne (heq ▸ Std.ReflCmp.compare_self)
    refine List.perm_singleton.1 ((List.perm_ext_iff_of_nodup hnodup (by simp)).2 ?_)
    intro entry
    rw [hmem, hget, List.mem_singleton, Option.some_inj, Prod.ext_iff, eq_comm (a := value)]

/-- The element-wise minimum of two matrices has their shape. -/
theorem shape_of_minimum (h : left.minimum right = .ok m) :
    m.rows = left.rows ∧ m.cols = left.cols := by
  unfold minimum at h
  split at h
  · cases h
    exact ⟨rfl, rfl⟩
  · cases h

/-- The element-wise minimum stores the smaller value where both matrices store one, and the stored
one elsewhere. -/
theorem get?_minimum (h : left.minimum right = .ok m) (row col : UInt64) :
    m.get? row col = (right.get? row col).elim (left.get? row col) fun value =>
      some ((left.get? row col).elim value fun known =>
        if known ≤ value then known else value) := by
  unfold minimum at h
  split at h
  · obtain rfl := Except.ok.inj h
    rw [get?, getElem?_foldl_alter, filter_toList]
    cases right.get? row col with
    | none => rfl
    | some value =>
      simp only [get?]
      cases left.entries[(⟨row, col⟩ : Cell)]? with
      | none => rfl
      | some known => rfl
  · cases h

end Minimum

/-- The transposed matrix stores the same values at the exchanged coordinates. -/
@[simp] theorem get?_transpose (m : SparseMatrix) (row col : UInt64) :
    m.transpose.get? row col = m.get? col row := by
  have hdistinct : (m.toList.map fun entry => (entry.1.transpose, entry.2)).Pairwise
      fun a b => ¬compare a.1 b.1 = .eq := by
    rw [List.pairwise_map]
    refine Std.ExtTreeMap.distinct_keys_toList.imp fun hne heq => hne ?_
    rw [Std.LawfulEqCmp.compare_eq_iff_eq] at heq ⊢
    exact Cell.transpose_injective heq
  cases h : m.get? col row with
  | some value =>
    refine Std.ExtTreeMap.getElem?_ofList_of_mem Std.ReflCmp.compare_self hdistinct ?_
    exact List.mem_map.2 ⟨(⟨col, row⟩, value), mem_toList_iff.2 h, rfl⟩
  | none =>
    refine Std.ExtTreeMap.getElem?_ofList_of_contains_eq_false ?_
    rw [← Bool.not_eq_true, List.contains_iff_mem, List.map_map, List.mem_map]
    rintro ⟨⟨cell, value⟩, hmem, hcell⟩
    rw [mem_toList_iff] at hmem
    obtain rfl : cell = ⟨col, row⟩ := Cell.transpose_injective hcell
    rw [h] at hmem
    exact Option.some_ne_none value hmem.symm

/-- The transposed matrix stores a value where the matrix does, coordinates exchanged. -/
@[simp] theorem stores_transpose (m : SparseMatrix) (row col : UInt64) :
    m.transpose.Stores row col ↔ m.Stores col row := by
  rw [Stores, get?_transpose, Stores]

/-- Transposing keeps a matrix square. -/
theorem IsSquare.transpose (hm : m.IsSquare n) : m.transpose.IsSquare n := by
  refine ⟨hm.cols_eq, hm.rows_eq, fun cell hcell => ?_⟩
  have hstores := (stores_transpose m cell.row cell.col).1 ((stores_iff_mem _ _).2 hcell)
  exact (hm.inBounds _ ((stores_iff_mem _ _).1 hstores)).symm

/-- Transposing twice gives the matrix back. -/
@[simp] theorem transpose_transpose (m : SparseMatrix) : m.transpose.transpose = m :=
  ext_get? rfl rfl fun row col => by rw [get?_transpose, get?_transpose]

/-- A square matrix that stores values on its diagonal only is its own transpose. -/
theorem IsDiagonal.transpose_eq (hm : m.IsDiagonal) (hsquare : m.IsSquare n) : m.transpose = m := by
  refine ext_get? (hsquare.cols_eq.trans hsquare.rows_eq.symm)
    (hsquare.rows_eq.trans hsquare.cols_eq.symm) fun row col => ?_
  rw [get?_transpose]
  by_cases heq : row = col
  · rw [heq]
  · have hleft : ¬ m.Stores col row := fun h => heq (hm col row h).symm
    have hright : ¬ m.Stores row col := fun h => heq (hm row col h)
    rw [Stores, Option.not_isSome_iff_eq_none] at hleft hright
    rw [hleft, hright]

end SparseMatrix

end PatternTraversal
