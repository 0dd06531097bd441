import Mathlib.Algebra.BigOperators.Group.List.Basic
import Mathlib.Algebra.BigOperators.Group.Multiset.Basic
import Mathlib.Algebra.GroupWithZero.Nat
import Mathlib.Data.List.Perm.Basic
import PatternTraversal.Proofs.Pattern.Building

/-!
# Degrees and neighbours

The incidence lists repeat what the declared relationships say: a relationship is listed at a node
once if it has an end there. Every declaration keeps the two in step, so along every run, refusals
included, degrees and neighbours read off the lists are those of the relationships, and the degrees
add up to twice the number of relationships.
-/

namespace PatternTraversal

namespace Relationship

/-- Whether a relationship has an end at a node. -/
def Touches (edge : Relationship) (node : Alias) : Prop := edge.source = node ∨ edge.target = node

instance (edge : Relationship) (node : Alias) : Decidable (edge.Touches node) :=
  inferInstanceAs (Decidable (_ ∨ _))

/-- Number of ends of a relationship that are a given node. -/
def endsAt (edge : Relationship) (node : Alias) : Nat :=
  (if node = edge.source then 1 else 0) + if node = edge.target then 1 else 0

/-- Whether a relationship joins two nodes, in either direction. -/
def Joins (edge : Relationship) (one two : Alias) : Prop :=
  edge.source = one ∧ edge.target = two ∨ edge.source = two ∧ edge.target = one

/-- A node that a relationship touches is one of its ends, in a self loop both. -/
theorem endsAt_eq (edge : Relationship) (node : Alias) :
    edge.endsAt node = if edge.Touches node then edge.ends else 0 := by
  by_cases hsource : edge.source = node <;> by_cases htarget : edge.target = node <;>
    simp_all [endsAt, Touches, ends, eq_comm]

/-- A relationship joins two nodes in both directions. -/
theorem Joins.symm {edge : Relationship} {one two : Alias} (h : edge.Joins one two) :
    edge.Joins two one := Or.symm h

/-- The end of a relationship opposite to a node it is attached to. -/
theorem touches_and_opposite_iff (edge : Relationship) (one two : Alias) :
    edge.Touches one ∧ (if edge.source = one then edge.target else edge.source) = two ↔
      edge.Joins one two := by
  by_cases hsource : edge.source = one <;> by_cases htarget : edge.target = one <;>
    simp_all [Touches, Joins, eq_comm]

end Relationship

namespace Pattern

variable {pattern : Pattern}

/-! ## The lists at the nodes -/

/-- The lists at the nodes agree with the relationships. -/
structure InStep (pattern : Pattern) : Prop where
  /-- No alias names a node and a relationship. -/
  disjoint : ∀ ident ∈ pattern.nodes, ident ∉ pattern.edges
  /-- Relationships run between declared nodes. -/
  touches : ∀ ident edge node, pattern.edge? ident = some edge → edge.Touches node →
    node ∈ pattern.nodes
  /-- Each declared node has a list. -/
  listed : ∀ node ∈ pattern.nodes, node ∈ pattern.incident
  nodup : ∀ node, (pattern.incident.getD node []).Nodup
  /-- The list at a node names the relationships that have an end there. -/
  mem_incident : ∀ node ident, ident ∈ pattern.incident.getD node [] ↔
    ∃ edge, pattern.edge? ident = some edge ∧ edge.Touches node

/-- The pattern without declarations has no lists to keep in step. -/
theorem inStep_empty : empty.InStep where
  disjoint := by simp [empty]
  touches := by simp [empty, edge?]
  listed := by simp [empty]
  nodup := by simp [empty]
  mem_incident := by simp [empty, edge?]

/-- Attaching gives no node a list and takes none away. -/
theorem mem_attach (edge node other : Alias) (incident : AliasMap (List Alias)) :
    other ∈ attach edge incident node ↔ other ∈ incident := by
  simp only [attach, Std.ExtTreeMap.mem_iff_isSome_getElem?, Std.ExtTreeMap.getElem?_alter,
    Std.LawfulEqCmp.compare_eq_iff_eq]
  split
  · next h => simp [h]
  · rfl

/-- Attaching changes the list at one node, if it has one. -/
theorem getD_attach (edge : Alias) {node : Alias} {incident : AliasMap (List Alias)}
    (h : node ∈ incident) (other : Alias) :
    (attach edge incident node).getD other [] =
      incident.getD other [] ++ if node = other then [edge] else [] := by
  simp only [attach, Std.ExtTreeMap.getD_eq_getD_getElem?, Std.ExtTreeMap.getElem?_alter,
    Std.LawfulEqCmp.compare_eq_iff_eq]
  split
  · next heq =>
    subst heq
    obtain ⟨listed, hlisted⟩ := Option.isSome_iff_exists.mp
      (Std.ExtTreeMap.mem_iff_isSome_getElem?.mp h)
    simp [hlisted]
  · simp

/-- Attaching both ends gives no node a list and takes none away. -/
theorem mem_attachBoth (ident : Alias) (edge : Relationship) (incident : AliasMap (List Alias))
    (node : Alias) : node ∈ attachBoth incident ident edge ↔ node ∈ incident := by
  unfold attachBoth
  split <;> simp [mem_attach]

/-- A relationship is added once to the list of each node it has an end at. -/
theorem getD_attachBoth (ident : Alias) {edge : Relationship} {incident : AliasMap (List Alias)}
    (hsource : edge.source ∈ incident) (htarget : edge.target ∈ incident) (node : Alias) :
    (attachBoth incident ident edge).getD node [] =
      incident.getD node [] ++ if edge.Touches node then [ident] else [] := by
  unfold attachBoth
  split
  · next hloop => simp [getD_attach ident hsource, Relationship.Touches, ← hloop]
  · next hloop =>
    rw [getD_attach ident ((mem_attach ..).mpr htarget), getD_attach ident hsource]
    by_cases hs : edge.source = node
    · have ht : edge.target ≠ node := fun ht => hloop (hs.trans ht.symm)
      simp [Relationship.Touches, hs, ht]
    · simp [Relationship.Touches, hs]

/-- No list is kept for an alias that is not a declared node. -/
theorem InStep.getD_incident_of_notMem (h : pattern.InStep) {node : Alias}
    (hnode : node ∉ pattern.nodes) : pattern.incident.getD node [] = [] := by
  refine List.eq_nil_iff_forall_not_mem.mpr fun ident hident => ?_
  obtain ⟨edge, hfound, htouches⟩ := (h.mem_incident node ident).mp hident
  exact hnode (h.touches ident edge node hfound htouches)

/-- No list names an alias that is not a declared relationship. -/
theorem InStep.notMem_incident (h : pattern.InStep) {ident : Alias}
    (hedge : ident ∉ pattern.edges) (node : Alias) : ident ∉ pattern.incident.getD node [] := by
  intro hident
  obtain ⟨edge, hfound, -⟩ := (h.mem_incident node ident).mp hident
  exact hedge (Std.ExtTreeMap.mem_iff_isSome_getElem?.mpr (Option.isSome_of_mem hfound))

/-- A written relationship is found under its alias; the other look-ups stay. -/
theorem edge?_write_edge (pattern : Pattern) (ident : Alias) (edge : Relationship) (other : Alias) :
    (pattern.write (.edge ident edge)).edge? other =
      if ident = other then some edge else pattern.edge? other := by
  simp [write, edge?, Std.ExtTreeMap.getElem?_insert]

/-- A new node keeps the lists in step. -/
theorem InStep.write_node (h : pattern.InStep) {ident : Alias} (labels : List String)
    (hfree : ¬ pattern.Used ident) : (pattern.write (.node ident labels)).InStep := by
  obtain ⟨hnode, hedge⟩ := not_or.mp hfree
  -- the new list is empty, as a missing list reads, so no look-up changes
  have hgetD (node : Alias) : (pattern.incident.insert ident []).getD node [] =
      pattern.incident.getD node [] := by
    rw [Std.ExtTreeMap.getD_insert]
    split
    · next heq =>
      obtain rfl : ident = node := by simpa using heq
      exact (h.getD_incident_of_notMem hnode).symm
    · rfl
  constructor
  case disjoint =>
    intro other hother
    obtain rfl | hother : ident = other ∨ other ∈ pattern.nodes := by simpa [write] using hother
    · exact hedge
    · exact h.disjoint other hother
  case touches =>
    intro other edge node hfound htouches
    have hmem := h.touches other edge node hfound htouches
    simp [write, hmem]
  case listed =>
    intro node hnode
    obtain rfl | hnode : ident = node ∨ node ∈ pattern.nodes := by simpa [write] using hnode
    · simp [write]
    · simp [write, h.listed node hnode]
  case nodup =>
    intro node
    simpa [write, hgetD] using h.nodup node
  case mem_incident =>
    intro node other
    simpa [write, hgetD, edge?] using h.mem_incident node other

/-- A new relationship between declared nodes keeps the lists in step. -/
theorem InStep.write_edge (h : pattern.InStep) {ident : Alias} {edge : Relationship}
    (hfree : ¬ pattern.Conflicts (.edge ident edge)) :
    (pattern.write (.edge ident edge)).InStep := by
  simp only [Conflicts, Used, not_or, not_not] at hfree
  obtain ⟨⟨hnode, hedge⟩, hsource, htarget⟩ := hfree
  have hgetD := getD_attachBoth ident (h.listed _ hsource) (h.listed _ htarget)
  constructor
  case disjoint =>
    intro other hother
    have hother : other ∈ pattern.nodes := hother
    have hne : ident ≠ other := fun heq => hnode (heq ▸ hother)
    simp [write, hne, h.disjoint other hother]
  case touches =>
    intro other found node hfound htouches
    rw [edge?_write_edge] at hfound
    split at hfound
    · obtain rfl := Option.some.inj hfound
      obtain rfl | rfl := htouches
      · exact hsource
      · exact htarget
    · exact h.touches other found node hfound htouches
  case listed =>
    intro node hnode
    exact (mem_attachBoth ident edge _ node).mpr (h.listed node hnode)
  case nodup =>
    intro node
    show ((attachBoth pattern.incident ident edge).getD node []).Nodup
    rw [hgetD]
    -- the alias is new, so no list has it yet
    have hnew := h.notMem_incident hedge node
    split
    · exact (h.nodup node).append (List.nodup_singleton ident) (by simpa using hnew)
    · simpa using h.nodup node
  case mem_incident =>
    intro node other
    show other ∈ (attachBoth pattern.incident ident edge).getD node [] ↔ _
    rw [hgetD, edge?_write_edge, List.mem_append, h.mem_incident]
    by_cases heq : ident = other
    · subst heq
      have hnone : pattern.edge? ident = none := by simpa [edge?] using hedge
      by_cases htouches : edge.Touches node <;> simp [hnone, htouches]
    · have hne : other ≠ ident := Ne.symm heq
      by_cases htouches : edge.Touches node <;> simp [htouches, heq, hne]

/-- A declaration, accepted or refused, keeps the lists in step. -/
theorem InStep.submit (h : pattern.InStep) (declaration : Declaration) :
    (pattern.submit declaration).2.InStep := by
  obtain ⟨hfree, heq⟩ | ⟨-, error, heq⟩ := pattern.submit_cases declaration
  · rw [heq]
    cases declaration with
    | node ident labels => exact h.write_node labels hfree
    | edge ident edge => exact h.write_edge hfree
  · rw [heq]
    exact h

/-- A run of declarations, some of which may be refused, keeps the lists in step. -/
theorem InStep.foldl_submit (h : pattern.InStep) (declarations : List Declaration) :
    (declarations.foldl (fun pattern declaration => (pattern.submit declaration).2)
      pattern).InStep := by
  induction declarations generalizing pattern with
  | nil => exact h
  | cons declaration rest ih => exact ih (h.submit declaration)

/-- Every pattern that declarations lead to has its lists in step. -/
theorem inStep_built (declarations : List Declaration) : (built declarations).InStep :=
  inStep_empty.foldl_submit declarations

/-! ## Views of the relationships -/

/-- A relationship is found under an alias exactly if it is listed with it. -/
theorem edge?_eq_some_iff {ident : Alias} {edge : Relationship} :
    pattern.edge? ident = some edge ↔ (ident, edge) ∈ pattern.edges.toList :=
  Std.ExtTreeMap.mem_toList_iff_getElem?_eq_some.symm

/-- No alias is listed with two relationships. -/
theorem nodup_map_fst_toList_edges (pattern : Pattern) :
    (pattern.edges.toList.map Prod.fst).Nodup := by
  rw [Std.ExtTreeMap.map_fst_toList_eq_keys]
  exact Std.ExtTreeMap.nodup_keys

/-- The list at a node holds, up to order, the relationships that have an end there. -/
theorem InStep.incident_perm (h : pattern.InStep) (node : Alias) :
    (pattern.incident.getD node []).Perm
      ((pattern.edges.toList.filter (·.2.Touches node)).map Prod.fst) := by
  have hnodup : ((pattern.edges.toList.filter (·.2.Touches node)).map Prod.fst).Nodup :=
    pattern.nodup_map_fst_toList_edges.sublist (List.filter_sublist.map Prod.fst)
  refine (List.perm_ext_iff_of_nodup (h.nodup node) hnodup).mpr fun ident => ?_
  simp [h.mem_incident, edge?_eq_some_iff]

/-- The relationships attached to a node are, up to order, those that have an end there. -/
theorem InStep.attached_perm (h : pattern.InStep) (node : Alias) :
    (pattern.attached node).Perm
      ((pattern.edges.toList.filter (·.2.Touches node)).map Prod.snd) := by
  refine ((h.incident_perm node).filterMap pattern.edge?).trans ?_
  rw [List.filterMap_map, ← List.filterMap_eq_map]
  refine .of_eq (List.filterMap_congr fun entry hentry => ?_)
  exact edge?_eq_some_iff.mpr (List.mem_of_mem_filter hentry)

/-- The degree of a node counts the ends of relationships at it. -/
theorem InStep.degree_eq (h : pattern.InStep) (node : Alias) :
    pattern.degree node = (pattern.edges.toList.map (·.2.endsAt node)).sum := by
  calc pattern.degree node
    _ = ((pattern.attached node).map Relationship.ends).sum := by
      rw [degree, List.sum, List.foldr_map]
    _ = (((pattern.edges.toList.filter (·.2.Touches node)).map Prod.snd).map
          Relationship.ends).sum := ((h.attached_perm node).map _).sum_eq
    _ = (pattern.edges.toList.map (·.2.endsAt node)).sum := by
      simp only [Relationship.endsAt_eq, List.sum_map_ite, List.map_map, Function.comp_def]
      simp

/-- The relationships attached to a node are the declared ones that have an end there. -/
theorem InStep.mem_attached_iff (h : pattern.InStep) (node : Alias) (edge : Relationship) :
    edge ∈ pattern.attached node ↔
      (∃ ident, pattern.edge? ident = some edge) ∧ edge.Touches node := by
  simp [(h.attached_perm node).mem_iff, edge?_eq_some_iff]

/-- Whether some relationship joins two nodes. -/
def Joined (pattern : Pattern) (one two : Alias) : Prop :=
  ∃ ident edge, pattern.edge? ident = some edge ∧ edge.Joins one two

/-- Two nodes are joined in both directions. -/
theorem Joined.symm {one two : Alias} (h : pattern.Joined one two) : pattern.Joined two one :=
  let ⟨ident, edge, hfound, hjoins⟩ := h
  ⟨ident, edge, hfound, hjoins.symm⟩

/-- The neighbours of a node are those that a relationship joins to it. -/
theorem InStep.mem_neighbors_iff (h : pattern.InStep) (one two : Alias) :
    two ∈ pattern.neighbors one ↔ pattern.Joined one two := by
  simp only [neighbors, Std.ExtTreeSet.mem_ofList, List.contains_iff_mem, List.mem_map,
    h.mem_attached_iff, Joined, ← Relationship.touches_and_opposite_iff]
  constructor
  · rintro ⟨edge, ⟨⟨ident, hfound⟩, htouches⟩, hother⟩
    exact ⟨ident, edge, hfound, htouches, hother⟩
  · rintro ⟨ident, edge, hfound, htouches, hother⟩
    exact ⟨edge, ⟨⟨ident, hfound⟩, htouches⟩, hother⟩

/-- The declared nodes have the two ends of each relationship between them. -/
theorem InStep.sum_endsAt (h : pattern.InStep) {ident : Alias} {edge : Relationship}
    (hfound : pattern.edge? ident = some edge) :
    (pattern.nodes.keys.map edge.endsAt).sum = 2 := by
  have hcount : ∀ node, edge.Touches node →
      (pattern.nodes.keys.map fun other => if other = node then 1 else 0).sum = 1 := by
    intro node htouches
    have hmem : node ∈ pattern.nodes.keys :=
      Std.ExtTreeMap.mem_keys.mpr (h.touches ident edge node hfound htouches)
    calc (pattern.nodes.keys.map fun other => if other = node then 1 else 0).sum
      _ = pattern.nodes.keys.count node := by
        rw [List.sum_map_ite, List.count_eq_countP, List.countP_eq_length_filter]
        simp [beq_eq_decide]
      _ = 1 := List.count_eq_one_of_mem Std.ExtTreeMap.nodup_keys hmem
  calc (pattern.nodes.keys.map edge.endsAt).sum
    _ = (pattern.nodes.keys.map fun other => if other = edge.source then 1 else 0).sum +
          (pattern.nodes.keys.map fun other => if other = edge.target then 1 else 0).sum :=
      List.sum_map_add
    _ = 2 := by rw [hcount _ (.inl rfl), hcount _ (.inr rfl)]

/-- The degrees add up to twice the number of relationships. -/
theorem InStep.sum_degree (h : pattern.InStep) :
    (pattern.nodes.keys.map pattern.degree).sum = 2 * pattern.edges.size := by
  calc (pattern.nodes.keys.map pattern.degree).sum
    _ = (pattern.nodes.keys.map fun node =>
          (pattern.edges.toList.map (·.2.endsAt node)).sum).sum := by
      exact congrArg List.sum (List.map_congr_left fun node _ => h.degree_eq node)
    _ = (pattern.edges.toList.map fun entry =>
          (pattern.nodes.keys.map entry.2.endsAt).sum).sum := by
      simpa using Multiset.sum_map_sum_map (pattern.nodes.keys : Multiset Alias)
        (pattern.edges.toList : Multiset (Alias × Relationship))
    _ = (pattern.edges.toList.map fun _ => 2).sum := by
      refine congrArg List.sum (List.map_congr_left fun entry hentry => ?_)
      exact h.sum_endsAt (edge?_eq_some_iff.mpr hentry)
    _ = 2 * pattern.edges.size := by
      simp [Nat.mul_comm]

/-- No relationship has an end at an alias that is not a declared node. -/
theorem InStep.attached_eq_nil (h : pattern.InStep) {ident : Alias}
    (hnode : ident ∉ pattern.nodes) : pattern.attached ident = [] := by
  rw [attached, h.getD_incident_of_notMem hnode, List.filterMap_nil]

/-- A pattern whose degrees and neighbours are those of its relationships. -/
structure Views (pattern : Pattern) : Prop where
  disjoint : ∀ ident, ¬ (ident ∈ pattern.nodes ∧ ident ∈ pattern.edges)
  endpoints : ∀ ident edge, pattern.edge? ident = some edge →
    edge.source ∈ pattern.nodes ∧ edge.target ∈ pattern.nodes
  /-- The degree of a node is the number of ends of relationships that are this node. -/
  degree : ∀ node, pattern.degree node = (pattern.edges.toList.map (·.2.endsAt node)).sum
  /-- The neighbours of a node are those that a relationship joins to it. -/
  neighbors : ∀ one two, two ∈ pattern.neighbors one ↔ pattern.Joined one two
  neighbors_comm : ∀ one two, two ∈ pattern.neighbors one ↔ one ∈ pattern.neighbors two
  sum_degree : (pattern.nodes.keys.map pattern.degree).sum = 2 * pattern.edges.size
  undeclared : ∀ ident, ident ∉ pattern.nodes →
    pattern.degree ident = 0 ∧ pattern.neighbors ident = ∅

/-- When the lists are in step, the views read off them are those of the relationships. -/
theorem InStep.views (h : pattern.InStep) : pattern.Views where
  disjoint ident := fun ⟨hnode, hedge⟩ => h.disjoint ident hnode hedge
  endpoints ident edge hfound :=
    ⟨h.touches ident edge _ hfound (.inl rfl), h.touches ident edge _ hfound (.inr rfl)⟩
  degree := h.degree_eq
  neighbors := h.mem_neighbors_iff
  neighbors_comm one two := by
    rw [h.mem_neighbors_iff, h.mem_neighbors_iff]
    exact ⟨Joined.symm, Joined.symm⟩
  sum_degree := h.sum_degree
  undeclared ident hnode := by
    simp [Pattern.degree, Pattern.neighbors, h.attached_eq_nil hnode]

/-- Every pattern that declarations lead to, some of which may be refused, has disjoint aliases of
nodes and relationships, relationships between declared nodes only, and the degrees and neighbours
that its relationships give. The next declaration is refused exactly if its alias is in use or an
endpoint is not declared; then the pattern stays, and otherwise the entry is added. -/
theorem built_views (declarations : List Declaration) :
    let pattern := built declarations
    pattern.Views ∧ ∀ declaration,
      let (answer, after) := pattern.submit declaration
      ((∃ error, answer = .error error) ↔ pattern.Conflicts declaration) ∧
      ((∃ error, answer = .error error) → after = pattern) ∧
      (answer = .ok () → pattern.Adds declaration after) := by
  intro pattern
  refine ⟨(inStep_built declarations).views, fun declaration => ?_⟩
  exact ⟨exists_error_iff pattern declaration, fun ⟨_, h⟩ => submit_of_error h, submit_of_ok⟩

/-- A relationship to an undeclared node and a second use of an alias were refused on the way, and
the self loop counts twice. A relationship to an undeclared node is refused again; the node is
accepted. -/
theorem built_views_self_loop :
    let pattern := built [.node ⟨"a"⟩ [], .node ⟨"b"⟩ [], .edge ⟨"e"⟩ ⟨⟨"a"⟩, ⟨"b"⟩, []⟩,
      .edge ⟨"f"⟩ ⟨⟨"b"⟩, ⟨"c"⟩, []⟩, .node ⟨"e"⟩ [], .edge ⟨"f"⟩ ⟨⟨"b"⟩, ⟨"b"⟩, []⟩]
    let refused := Declaration.edge ⟨"g"⟩ ⟨⟨"b"⟩, ⟨"c"⟩, []⟩
    let accepted := Declaration.node ⟨"c"⟩ []
    pattern.Views ∧ pattern.degree ⟨"b"⟩ = 3 ∧ (pattern.neighbors ⟨"b"⟩).toList = [⟨"a"⟩, ⟨"b"⟩] ∧
      pattern.Conflicts refused ∧ (pattern.submit refused).2 = pattern ∧
      ¬ pattern.Conflicts accepted ∧ pattern.Adds accepted (pattern.submit accepted).2 := by
  intro pattern refused accepted
  obtain ⟨hviews, hanswer⟩ := built_views [.node ⟨"a"⟩ [], .node ⟨"b"⟩ [],
    .edge ⟨"e"⟩ ⟨⟨"a"⟩, ⟨"b"⟩, []⟩, .edge ⟨"f"⟩ ⟨⟨"b"⟩, ⟨"c"⟩, []⟩, .node ⟨"e"⟩ [],
    .edge ⟨"f"⟩ ⟨⟨"b"⟩, ⟨"b"⟩, []⟩]
  have herror : (pattern.submit refused).1 = .error (.missingEndpoint ⟨"g"⟩ ⟨"c"⟩) := by
    decide +kernel
  have hok : (pattern.submit accepted).1 = .ok () := by decide +kernel
  obtain ⟨hrefused, hkept, -⟩ := hanswer refused
  obtain ⟨haccepted, -, hadded⟩ := hanswer accepted
  refine ⟨hviews, by decide +kernel, by decide +kernel, hrefused.mp ⟨_, herror⟩, hkept ⟨_, herror⟩,
    fun hconflict => ?_, hadded hok⟩
  obtain ⟨error, h⟩ := haccepted.mpr hconflict
  exact absurd (hok.symm.trans h) (by simp)

end Pattern

end PatternTraversal
