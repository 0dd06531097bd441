import Mathlib.Algebra.Group.Nat.Defs
import Mathlib.Data.List.Pairwise
import PatternTraversal.Proofs.StoredGraph.RefusedUpdate

/-!
# Graphs and their history

A graph is determined by the updates it accepted: each cell of a relationship type holds the number
of the latest edge written to it, labels are the tags given so far, a mask is the latest one of its
name. Accepted edges are numbered without gaps, and the matrix of all relationships stores ones
where some type stores an edge. An accepted update extends the history by one entry, a refused one
leaves it, so this holds along every run.
-/

namespace PatternTraversal

namespace StoredGraph

/-! ## Accepted updates -/

/-- An update that was accepted, with the number of its edge. -/
structure Accepted where
  change : Update
  number? : Option UInt64
deriving DecidableEq, Repr

/-- The updates that are accepted during a run, in their order. -/
def accepted (graph : StoredGraph) : List Update → List Accepted
  | [] => []
  | change :: rest =>
    match graph.answer change with
    | .ok number? => ⟨change, number?⟩ :: (graph.update change).accepted rest
    | .error _ => (graph.update change).accepted rest

namespace Accepted

/-- Numbers of the accepted edges. -/
def numbers (past : List Accepted) : List UInt64 := past.filterMap Accepted.number?

/-- Numbers of the accepted edges of one type between two nodes. -/
def numbersOf (past : List Accepted) (relation : String) (source target : UInt64) : List UInt64 :=
  past.filterMap fun entry =>
    if entry.change = .edge relation source target then entry.number? else none

/-- Whether a node was tagged. -/
def Tagged (past : List Accepted) (name : String) (node : UInt64) : Prop :=
  ∃ entry ∈ past, entry.change = .label name node

instance (past : List Accepted) (name : String) (node : UInt64) :
    Decidable (Tagged past name node) :=
  inferInstanceAs (Decidable (∃ entry ∈ past, entry.change = .label name node))

/-- Nodes of the masks that were registered under a name. -/
def masksOf (past : List Accepted) (name : String) : List (List UInt64) :=
  past.filterMap fun entry =>
    match entry.change with
    | .mask other nodes => if other = name then some nodes else none
    | _ => none

end Accepted

/-- Nodes that a change names. -/
def Update.nodes : Update → List UInt64
  | edge _ source target => [source, target]
  | label _ node => [node]
  | mask _ nodes => nodes

/-- Entry of a matrix that may be missing. -/
def cell? (m? : Option SparseMatrix) (row col : UInt64) : Option UInt64 :=
  m?.bind (·.get? row col)

/-- A graph of the given size that accepted the given updates and no others. -/
structure Records (graph : StoredGraph) (dim : UInt64) (past : List Accepted) : Prop where
  dim_eq : graph.dim = dim
  /-- Every matrix has the size of the graph and its entries inside. -/
  isSquare : graph.IsSquare
  /-- Accepted edges are numbered from zero without gaps. -/
  numbers_eq : (Accepted.numbers past).map UInt64.toNat =
    List.range (Accepted.numbers past).length
  nextEdge_eq : graph.nextEdge = UInt64.ofNat (Accepted.numbers past).length
  /-- A cell of a type holds the number of the latest edge of the type between the two nodes. -/
  relation : ∀ name source target, cell? (graph.relation? name) source target =
    (Accepted.numbersOf past name source target).getLast?
  /-- The matrix of all relationships stores a cell where some type does. -/
  adjacency_iff : ∀ source target, graph.adjacency.Stores source target ↔
    ∃ name, (cell? (graph.relation? name) source target).isSome
  adjacency_one : graph.adjacency.IsPattern
  /-- A label stores ones on the diagonal, at the nodes tagged with it. -/
  label : ∀ name row col, cell? (graph.label? name) row col =
    if row = col ∧ Accepted.Tagged past name row then some 1 else none
  /-- A mask that was never registered is missing. -/
  mask_none : ∀ name, Accepted.masksOf past name = [] → graph.mask? name = none
  /-- A mask stores ones on the diagonal, at the nodes it was last registered with. -/
  mask : ∀ name nodes, (Accepted.masksOf past name).getLast? = some nodes →
    ∃ m, graph.mask? name = some m ∧
      ∀ row col, m.get? row col = if row = col ∧ row ∈ nodes then some 1 else none

/-! ## What updates do -/

variable {graph : StoredGraph} {number? : Option UInt64}

/-- An accepted edge is written to the matrix of its type, under the next number, and to that of all
relationships. -/
theorem update_of_accepted_edge {relation : String} {source target : UInt64}
    (h : graph.answer (.edge relation source target) = .ok number?) :
    ∃ matrix adjacency,
      (graph.relations.getD relation graph.blank).set graph.nextEdge source target = .ok matrix ∧
      graph.adjacency.set 1 source target = .ok adjacency ∧ number? = some graph.nextEdge ∧
      graph.update (.edge relation source target) =
        { graph with
          relations := graph.relations.insert relation matrix
          adjacency := adjacency
          nextEdge := graph.nextEdge + 1 } := by
  simp only [answer, update, addEdge] at h ⊢
  cases hmatrix : (graph.relations.getD relation graph.blank).set graph.nextEdge source target with
  | error error => simp [hmatrix, Except.map] at h
  | ok matrix =>
    cases hadjacency : graph.adjacency.set 1 source target with
    | error error => simp [hmatrix, hadjacency, Except.map] at h
    | ok adjacency =>
      simp only [hmatrix, hadjacency, Except.map, Except.ok.injEq] at h
      exact ⟨matrix, adjacency, rfl, rfl, h.symm, rfl⟩

/-- An accepted tag is written to the matrix of its label. -/
theorem update_of_accepted_label {name : String} {node : UInt64}
    (h : graph.answer (.label name node) = .ok number?) :
    ∃ matrix, (graph.labels.getD name graph.blank).set 1 node node = .ok matrix ∧
      number? = none ∧
      graph.update (.label name node) =
        { graph with labels := graph.labels.insert name matrix } := by
  simp only [answer, update, addLabel] at h ⊢
  cases hmatrix : (graph.labels.getD name graph.blank).set 1 node node with
  | error error => simp [hmatrix, Except.map] at h
  | ok matrix =>
    simp only [hmatrix, Except.map, Except.ok.injEq] at h
    exact ⟨matrix, rfl, h.symm, rfl⟩

/-- An accepted mask takes the place of a previous one. -/
theorem update_of_accepted_mask {name : String} {nodes : List UInt64}
    (h : graph.answer (.mask name nodes) = .ok number?) :
    ∃ matrix, SparseMatrix.diagonal graph.dim nodes = .ok matrix ∧ number? = none ∧
      graph.update (.mask name nodes) =
        { graph with masks := graph.masks.insert name matrix } := by
  simp only [answer, update, addMask] at h ⊢
  cases hmatrix : SparseMatrix.diagonal graph.dim nodes with
  | error error => simp [hmatrix, Except.map] at h
  | ok matrix =>
    simp only [hmatrix, Except.map, Except.ok.injEq] at h
    exact ⟨matrix, rfl, h.symm, rfl⟩

/-- A change is accepted when it names nodes of the graph only. -/
theorem IsSquare.exists_answer_iff (h : graph.IsSquare) (change : Update) :
    (∃ number?, graph.answer change = .ok number?) ↔ ∀ node ∈ change.nodes, node < graph.dim := by
  cases change with
  | edge relation source target =>
    have hmatrix : (∃ m, (graph.relations.getD relation graph.blank).set graph.nextEdge source
        target = .ok m) ↔ source < graph.dim ∧ target < graph.dim :=
      (h.getD_relations relation).exists_set_iff
    have hadjacency : (∃ m, graph.adjacency.set 1 source target = .ok m) ↔
        source < graph.dim ∧ target < graph.dim := h.adjacency.exists_set_iff
    rw [Update.nodes, List.forall_mem_cons, List.forall_mem_singleton, ← hmatrix]
    constructor
    · rintro ⟨number?, hanswer⟩
      obtain ⟨m, -, hm, -⟩ := update_of_accepted_edge hanswer
      exact ⟨m, hm⟩
    · intro hm
      obtain ⟨adjacency, hadjacency⟩ := hadjacency.2 (hmatrix.1 hm)
      obtain ⟨m, hm⟩ := hm
      exact ⟨some graph.nextEdge,
        by simp only [answer, StoredGraph.addEdge, hm, hadjacency, Except.map]⟩
  | label name node =>
    have hmatrix : (∃ m, (graph.labels.getD name graph.blank).set 1 node node = .ok m) ↔
        node < graph.dim := (h.getD_labels name).1.exists_set_iff.trans (and_self_iff)
    rw [Update.nodes, List.forall_mem_singleton, ← hmatrix]
    constructor
    · rintro ⟨number?, hanswer⟩
      obtain ⟨m, hm, -⟩ := update_of_accepted_label hanswer
      exact ⟨m, hm⟩
    · rintro ⟨m, hm⟩
      exact ⟨none, by simp only [answer, StoredGraph.addLabel, hm, Except.map]⟩
  | mask name nodes =>
    rw [Update.nodes, ← SparseMatrix.exists_diagonal_iff]
    constructor
    · rintro ⟨number?, hanswer⟩
      obtain ⟨m, hm, -⟩ := update_of_accepted_mask hanswer
      exact ⟨m, hm⟩
    · rintro ⟨m, hm⟩
      exact ⟨none, by simp only [answer, StoredGraph.addMask, hm, Except.map]⟩

section Maps

variable (known : Std.ExtTreeMap String SparseMatrix)

/-- Registering a name stores nothing. -/
theorem cell?_touch (dim : UInt64) (touched : Option String) (name : String) (row col : UInt64) :
    cell? (touch known (.zero dim dim) touched)[name]? row col = cell? known[name]? row col := by
  rw [getElem?_touch]
  split
  · cases known[name]? <;> simp [cell?]
  · rfl

/-- Writing a value into a matrix of a map, or into a blank one, changes one entry of the map. -/
theorem cell?_insert {dim : UInt64} {name : String} {value row col : UInt64} {m : SparseMatrix}
    (h : (known.getD name (.zero dim dim)).set value row col = .ok m) (other : String)
    (i j : UInt64) :
    cell? (known.insert name m)[other]? i j =
      if other = name ∧ i = row ∧ j = col then some value else cell? known[other]? i j := by
  rw [Std.ExtTreeMap.getElem?_insert]
  by_cases hname : name = other
  · subst hname
    have hold : (known.getD name (.zero dim dim)).get? i j = cell? known[name]? i j := by
      rw [Std.ExtTreeMap.getD_eq_getD_getElem?]
      cases known[name]? <;> simp [cell?]
    simp [cell?, SparseMatrix.get?_set h, hold]
  · simp [hname, Ne.symm hname]

end Maps

/-! ## Runs -/

variable {dim : UInt64} {past : List Accepted}

namespace Accepted

variable (past) (change : Update) (number? : Option UInt64)

/-- An accepted update adds its number, if it has one. -/
theorem numbers_snoc :
    numbers (past ++ [⟨change, number?⟩]) = numbers past ++ number?.toList := by
  cases number? <;> simp [numbers, List.filterMap_append]

/-- An accepted edge adds its number between its nodes. -/
theorem numbersOf_snoc (relation : String) (source target : UInt64) :
    numbersOf (past ++ [⟨change, number?⟩]) relation source target =
      numbersOf past relation source target ++
        if change = .edge relation source target then number?.toList else [] := by
  rw [numbersOf, List.filterMap_append]
  split
  · next h => cases number? <;> simp [numbersOf, h]
  · next h => simp [numbersOf, h]

/-- An accepted tag adds its node. -/
theorem tagged_snoc (name : String) (node : UInt64) :
    Tagged (past ++ [⟨change, number?⟩]) name node ↔
      Tagged past name node ∨ change = .label name node := by
  simp [Tagged, or_and_right, exists_or]

/-- An accepted mask adds its nodes, and no other change does. -/
theorem masksOf_snoc (name : String) :
    masksOf (past ++ [⟨change, number?⟩]) name = masksOf past name ++
      match change with
      | .mask other nodes => if other = name then [nodes] else []
      | _ => [] := by
  rw [masksOf, List.filterMap_append]
  cases change with
  | mask other nodes => by_cases h : other = name <;> simp [masksOf, h]
  | _ => simp [masksOf]

end Accepted

/-- At the start nothing was accepted. -/
theorem records_empty (dim : UInt64) : (empty dim).Records dim [] where
  dim_eq := rfl
  isSquare := isSquare_empty dim
  numbers_eq := rfl
  nextEdge_eq := rfl
  relation _ _ _ := by simp [cell?, relation?, empty, Accepted.numbersOf]
  adjacency_iff _ _ := by simp [SparseMatrix.Stores, empty, cell?, relation?]
  adjacency_one row col h := by simp [SparseMatrix.Stores, empty] at h
  label _ _ _ := by simp [cell?, label?, empty, Accepted.Tagged]
  mask_none _ _ := by simp [mask?, empty]
  mask _ _ h := by simp [Accepted.masksOf] at h

/-- A refused update leaves the history. -/
theorem Records.refuse (h : graph.Records dim past) {change : Update} {error : AlgebraError}
    (hrefused : graph.answer change = .error error) : (graph.update change).Records dim past := by
  have hsquare := h.isSquare.update change
  rw [update_of_refused h.isSquare hrefused] at hsquare ⊢
  have hrelation (name : String) (row col : UInt64) :
      cell? ((graph.register change).relation? name) row col =
        cell? (graph.relation? name) row col := cell?_touch graph.relations graph.dim _ name row col
  have hlabel (name : String) (row col : UInt64) :
      cell? ((graph.register change).label? name) row col =
        cell? (graph.label? name) row col := cell?_touch graph.labels graph.dim _ name row col
  exact
    { h with
      isSquare := hsquare
      relation := fun name source target => (hrelation name source target).trans (h.relation ..)
      adjacency_iff := fun source target => by
        simp only [hrelation]
        exact h.adjacency_iff source target
      label := fun name row col => (hlabel name row col).trans (h.label ..) }

/-- An accepted edge joins the history with the next number. -/
theorem Records.addEdge (h : graph.Records dim past)
    (hcount : (Accepted.numbers past).length < 2 ^ 64) {relation : String} {source target : UInt64}
    (haccepted : graph.answer (.edge relation source target) = .ok number?) :
    (graph.update (.edge relation source target)).Records dim
      (past ++ [⟨.edge relation source target, number?⟩]) := by
  obtain ⟨matrix, adjacency, hmatrix, hadjacency, rfl, hupdate⟩ :=
    update_of_accepted_edge haccepted
  have hsquare := h.isSquare.update (.edge relation source target)
  rw [hupdate] at hsquare ⊢
  have hnumber : graph.nextEdge.toNat = (Accepted.numbers past).length := by
    rw [h.nextEdge_eq, UInt64.toNat_ofNat_of_lt' hcount]
  have hentry (name : String) (row col : UInt64) :
      cell? (graph.relations.insert relation matrix)[name]? row col =
        if name = relation ∧ row = source ∧ col = target then some graph.nextEdge
        else cell? (graph.relation? name) row col :=
    cell?_insert graph.relations hmatrix name row col
  refine ⟨h.dim_eq, hsquare, ?_, ?_, fun name row col => ?_, fun row col => ?_, ?_, ?_, ?_, ?_⟩
  · rw [Accepted.numbers_snoc]
    simp [h.numbers_eq, hnumber, List.range_succ]
  · rw [Accepted.numbers_snoc, h.nextEdge_eq]
    simp [UInt64.ofNat_add]
  · rw [Accepted.numbersOf_snoc, List.getLast?_append, ← h.relation]
    refine (hentry name row col).trans ?_
    by_cases hcell : name = relation ∧ row = source ∧ col = target
    · obtain ⟨rfl, rfl, rfl⟩ := hcell
      simp
    · rw [if_neg hcell, if_neg (by grind)]
      rfl
  · rw [SparseMatrix.stores_set_iff hadjacency, h.adjacency_iff]
    change _ ↔ ∃ name, (cell? (graph.relations.insert relation matrix)[name]? row col).isSome
    simp only [hentry]
    constructor
    · rintro (⟨rfl, rfl⟩ | ⟨name, hname⟩)
      · exact ⟨relation, by simp⟩
      · exact ⟨name, by split <;> simp [hname]⟩
    · rintro ⟨name, hname⟩
      by_cases hcell : name = relation ∧ row = source ∧ col = target
      · exact .inl hcell.2
      · exact .inr ⟨name, by simpa [hcell] using hname⟩
  · intro row col hstores
    rw [SparseMatrix.get?_set hadjacency]
    split
    · rfl
    · next hcell =>
      exact h.adjacency_one row col
        (((SparseMatrix.stores_set_iff hadjacency row col).1 hstores).resolve_left hcell)
  · simpa [Accepted.tagged_snoc, label?] using h.label
  · simpa [Accepted.masksOf_snoc, mask?] using h.mask_none
  · simpa [Accepted.masksOf_snoc, mask?] using h.mask

/-- An accepted tag joins the history. -/
theorem Records.addLabel (h : graph.Records dim past) {name : String} {node : UInt64}
    (haccepted : graph.answer (.label name node) = .ok number?) :
    (graph.update (.label name node)).Records dim (past ++ [⟨.label name node, number?⟩]) := by
  obtain ⟨matrix, hmatrix, rfl, hupdate⟩ := update_of_accepted_label haccepted
  have hsquare := h.isSquare.update (.label name node)
  rw [hupdate] at hsquare ⊢
  refine ⟨h.dim_eq, hsquare, ?_, ?_, ?_, h.adjacency_iff, h.adjacency_one, ?_, ?_, ?_⟩
  · simpa [Accepted.numbers_snoc] using h.numbers_eq
  · simpa [Accepted.numbers_snoc] using h.nextEdge_eq
  · simpa [Accepted.numbersOf_snoc, relation?] using h.relation
  · intro other row col
    refine (cell?_insert graph.labels hmatrix other row col).trans ?_
    have hold : cell? graph.labels[other]? row col = _ := h.label other row col
    simp only [hold, Accepted.tagged_snoc, Update.label.injEq]
    grind
  · simpa [Accepted.masksOf_snoc, mask?] using h.mask_none
  · simpa [Accepted.masksOf_snoc, mask?] using h.mask

/-- An accepted mask joins the history. -/
theorem Records.addMask (h : graph.Records dim past) {name : String} {nodes : List UInt64}
    (haccepted : graph.answer (.mask name nodes) = .ok number?) :
    (graph.update (.mask name nodes)).Records dim (past ++ [⟨.mask name nodes, number?⟩]) := by
  obtain ⟨matrix, hmatrix, rfl, hupdate⟩ := update_of_accepted_mask haccepted
  have hsquare := h.isSquare.update (.mask name nodes)
  rw [hupdate] at hsquare ⊢
  refine ⟨h.dim_eq, hsquare, ?_, ?_, ?_, h.adjacency_iff, h.adjacency_one, ?_, ?_, ?_⟩
  · simpa [Accepted.numbers_snoc] using h.numbers_eq
  · simpa [Accepted.numbers_snoc] using h.nextEdge_eq
  · simpa [Accepted.numbersOf_snoc, relation?] using h.relation
  · simpa [Accepted.tagged_snoc, label?] using h.label
  · intro other hnone
    obtain ⟨hbefore, hname⟩ : Accepted.masksOf past other = [] ∧ name ≠ other := by
      simpa [Accepted.masksOf_snoc] using hnone
    simpa [mask?, Std.ExtTreeMap.getElem?_insert, hname] using h.mask_none other hbefore
  · intro other latest hlatest
    by_cases hname : name = other
    · subst hname
      obtain rfl : nodes = latest := by simpa [Accepted.masksOf_snoc] using hlatest
      exact ⟨matrix, by simp [mask?], SparseMatrix.get?_diagonal hmatrix⟩
    · obtain ⟨m, hm, hentries⟩ := h.mask other latest
        (by simpa [Accepted.masksOf_snoc, hname] using hlatest)
      exact ⟨m, by simpa [mask?, Std.ExtTreeMap.getElem?_insert, hname] using hm, hentries⟩

/-- An accepted update joins the history. -/
theorem Records.accept (h : graph.Records dim past)
    (hcount : (Accepted.numbers past).length < 2 ^ 64) {change : Update}
    (haccepted : graph.answer change = .ok number?) :
    (graph.update change).Records dim (past ++ [⟨change, number?⟩]) := by
  cases change with
  | edge relation source target => exact h.addEdge hcount haccepted
  | label name node => exact h.addLabel haccepted
  | mask name nodes => exact h.addMask haccepted

/-- A run joins its accepted updates to the history. -/
theorem Records.foldl_update (h : graph.Records dim past) {updates : List Update}
    (hcount : past.length + updates.length < 2 ^ 64) :
    (updates.foldl update graph).Records dim (past ++ graph.accepted updates) := by
  induction updates generalizing graph past with
  | nil => simpa [accepted] using h
  | cons change rest ih =>
    have hnumbers : (Accepted.numbers past).length ≤ past.length := List.length_filterMap_le ..
    rw [List.length_cons] at hcount
    rw [List.foldl_cons, accepted]
    cases hanswer : graph.answer change with
    | error error => exact ih (h.refuse hanswer) (by omega)
    | ok number? =>
      have hnext := ih (h.accept (by omega) hanswer) (by simp; omega)
      simpa using hnext

/-- Accepted edges have different numbers. -/
theorem Records.eq_of_number?_eq (h : graph.Records dim past) {number : UInt64}
    {entry other : Accepted} (hentry : entry ∈ past) (hother : other ∈ past)
    (hnumber : entry.number? = some number) (hnumber' : other.number? = some number) :
    entry = other := by
  have hnodup : (Accepted.numbers past).Nodup :=
    List.Nodup.of_map UInt64.toNat (h.numbers_eq ▸ List.nodup_range)
  have hdistinct := List.pairwise_filterMap.1 hnodup
  have : Std.Symm fun a b : Accepted =>
      ∀ x, a.number? = some x → ∀ y, b.number? = some y → x ≠ y :=
    ⟨fun _ _ hab x hx y hy => (hab y hy x hx).symm⟩
  by_contra hne
  exact hdistinct.forall hentry hother hne number hnumber number hnumber' rfl

/-- A stored number is that of an accepted edge. -/
theorem Records.exists_of_cell? (h : graph.Records dim past) {name : String}
    {source target number : UInt64}
    (hnumber : cell? (graph.relation? name) source target = some number) :
    ∃ entry ∈ past, entry.change = .edge name source target ∧ entry.number? = some number := by
  rw [h.relation] at hnumber
  obtain ⟨entry, hentry, hvalue⟩ := List.mem_filterMap.1 (List.mem_of_getLast? hnumber)
  split at hvalue
  · next hchange => exact ⟨entry, hentry, hchange, hvalue⟩
  · cases hvalue

/-- Cells of relationship types store different numbers. -/
theorem Records.relation_inj (h : graph.Records dim past) {number : UInt64} {name name' : String}
    {source target source' target' : UInt64}
    (hnumber : cell? (graph.relation? name) source target = some number)
    (hnumber' : cell? (graph.relation? name') source' target' = some number) :
    name = name' ∧ source = source' ∧ target = target' := by
  obtain ⟨entry, hentry, hchange, hvalue⟩ := h.exists_of_cell? hnumber
  obtain ⟨other, hother, hchange', hvalue'⟩ := h.exists_of_cell? hnumber'
  obtain rfl := h.eq_of_number?_eq hentry hother hvalue hvalue'
  simpa [hchange] using hchange'

/-- Every graph that updates lead to is determined by those it accepted: all matrices have its size,
the cells of a type hold the numbers of the latest edges, accepted edges are numbered without gaps,
so that no two cells hold one number, and labels and masks are what was accepted last. An update is
accepted when it names nodes of the graph only. -/
theorem ofUpdates_records (dim : UInt64) {updates : List Update}
    (hcount : updates.length < 2 ^ 64) :
    let graph := ofUpdates dim updates
    graph.Records dim ((empty dim).accepted updates) ∧
      (∀ change, (∃ number?, graph.answer change = .ok number?) ↔
        ∀ node ∈ change.nodes, node < dim) ∧
      ∀ number name name' source source' target target',
        cell? (graph.relation? name) source target = some number →
        cell? (graph.relation? name') source' target' = some number →
        name = name' ∧ source = source' ∧ target = target' := by
  intro graph
  have hrecords : graph.Records dim ([] ++ (empty dim).accepted updates) :=
    (records_empty dim).foldl_update (by simpa using hcount)
  refine ⟨hrecords, fun change => ?_, fun _ _ _ _ _ _ _ => hrecords.relation_inj⟩
  rw [hrecords.isSquare.exists_answer_iff, hrecords.dim_eq]

/-- Of two edges between the same nodes the later one is stored; a refused edge uses no number and a
refused mask replaces none. -/
theorem ofUpdates_records_parallel_edges :
    let updates : List Update := [.edge "R" 0 1, .edge "R" 0 7, .mask "M" [0], .edge "S" 2 0,
      .edge "R" 0 1, .label "L" 1, .mask "M" [1, 2], .mask "M" [0, 9]]
    let graph := ofUpdates 3 updates
    updates.length < 2 ^ 64 ∧ graph.Records 3 ((empty 3).accepted updates) ∧
      cell? (graph.relation? "R") 0 1 = some 2 ∧ graph.nextEdge = 3 ∧
      cell? (graph.label? "L") 1 1 = some 1 ∧
      ∃ m, graph.mask? "M" = some m ∧ m.get? 1 1 = some 1 ∧ m.get? 0 0 = none := by
  intro updates graph
  have hcount : updates.length < 2 ^ 64 := by decide
  obtain ⟨hrecords, -, -⟩ := ofUpdates_records 3 hcount
  have haccepted : (empty 3).accepted updates = [⟨.edge "R" 0 1, some 0⟩, ⟨.mask "M" [0], none⟩,
      ⟨.edge "S" 2 0, some 1⟩, ⟨.edge "R" 0 1, some 2⟩, ⟨.label "L" 1, none⟩,
      ⟨.mask "M" [1, 2], none⟩] := by decide +kernel
  obtain ⟨m, hm, hentries⟩ := hrecords.mask "M" [1, 2] (by rw [haccepted]; decide)
  refine ⟨hcount, hrecords, ?_, ?_, ?_, m, hm, ?_, ?_⟩
  · rw [hrecords.relation, haccepted]
    decide
  · rw [hrecords.nextEdge_eq, haccepted]
    decide
  · rw [hrecords.label, haccepted]
    decide
  · exact hentries 1 1
  · exact hentries 0 0

end StoredGraph

end PatternTraversal
