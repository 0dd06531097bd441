import Mathlib.Data.List.Basic
import Mathlib.Data.List.Perm.Basic
import Mathlib.Logic.Function.Basic
import PatternTraversal.Arrangement.Context
import PatternTraversal.Proofs.Conjuncts

/-!
# Other names

A renaming replaces every alias of the inputs of an ordering: in the pattern, the expressions, the
predicates and the resolved set. When it is injective, each renamed input answers about a new name
what the input answers about the old one. Declaring a pattern under other names gives the renamed
pattern.
-/

namespace PatternTraversal

variable {f : Alias → Alias}

/-! ## Maps and sets -/

namespace AliasMap

variable {β : Type}

/-- A map under the new names of its keys, each value changed along. -/
def rename (f : Alias → Alias) (value : β → β) (map : AliasMap β) : AliasMap β :=
  .ofList (map.toList.map fun entry => (f entry.1, value entry.2))

/-- What a renamed map holds under the new name of an alias. -/
theorem getElem?_rename (hf : f.Injective) (value : β → β) (map : AliasMap β) (ident : Alias) :
    (map.rename f value)[f ident]? = map[ident]?.map value := by
  cases h : map[ident]? with
  | none =>
    refine Std.ExtTreeMap.getElem?_ofList_of_contains_eq_false ?_
    rw [List.contains_eq_mem, decide_eq_false_iff_not, List.map_map]
    intro hmem
    obtain ⟨⟨other, content⟩, hentry, heq⟩ := List.mem_map.1 hmem
    obtain rfl := hf heq
    rw [Std.ExtTreeMap.mem_toList_iff_getElem?_eq_some, h] at hentry
    cases hentry
  | some content =>
    refine Std.ExtTreeMap.getElem?_ofList_of_mem Std.ReflCmp.compare_self ?_
      (List.mem_map.2 ⟨(ident, content),
        Std.ExtTreeMap.mem_toList_iff_getElem?_eq_some.2 h, rfl⟩)
    rw [List.pairwise_map]
    refine (Std.ExtTreeMap.distinct_keys_toList (t := map)).imp fun hne heq => hne ?_
    rw [hf (Std.LawfulEqCmp.eq_of_compare heq)]
    exact Std.ReflCmp.compare_self

/-- A renamed map holds nothing under an alias that is no new name. -/
theorem getElem?_rename_of_forall_ne (value : β → β) (map : AliasMap β) {ident : Alias}
    (h : ∀ known, f known ≠ ident) : (map.rename f value)[ident]? = none := by
  refine Std.ExtTreeMap.getElem?_ofList_of_contains_eq_false ?_
  rw [List.contains_eq_mem, decide_eq_false_iff_not, List.map_map]
  intro hmem
  obtain ⟨entry, -, heq⟩ := List.mem_map.1 hmem
  exact h entry.1 heq

/-- A renamed map has the new names of the keys. -/
theorem contains_rename (hf : f.Injective) (value : β → β) (map : AliasMap β) (ident : Alias) :
    (map.rename f value).contains (f ident) = map.contains ident := by
  rw [Std.ExtTreeMap.contains_eq_isSome_getElem?, getElem?_rename hf, Option.isSome_map,
    Std.ExtTreeMap.contains_eq_isSome_getElem?]

/-- A map that answers on new names what another one answers on the old names, and holds nothing
else, is that map renamed. -/
theorem eq_rename (hf : f.Injective) {value : β → β} {map renamed : AliasMap β}
    (hnew : ∀ ident, renamed[f ident]? = map[ident]?.map value)
    (hnone : ∀ ident, (∀ known, f known ≠ ident) → renamed[ident]? = none) :
    renamed = map.rename f value := by
  refine Std.ExtTreeMap.ext_getElem? fun ident => ?_
  by_cases h : ∃ known, f known = ident
  · obtain ⟨known, rfl⟩ := h
    rw [hnew, getElem?_rename hf]
  · have h : ∀ known, f known ≠ ident := fun known heq => h ⟨known, heq⟩
    rw [hnone ident h, getElem?_rename_of_forall_ne value map h]

/-- Changing the entry of a new name is renaming after changing the entry of the old one. -/
theorem alter_rename (hf : f.Injective) {value : β → β} (map : AliasMap β) (key : Alias)
    {change changeNew : Option β → Option β}
    (hchange : ∀ content?, changeNew (content?.map value) = (change content?).map value) :
    (map.rename f value).alter (f key) changeNew =
      AliasMap.rename f value (map.alter key change) := by
  refine eq_rename hf (fun ident => ?_) fun ident h => ?_
  · simp only [Std.ExtTreeMap.getElem?_alter, Std.compare_eq_iff_eq, hf.eq_iff,
      getElem?_rename hf]
    split
    · exact hchange _
    · rfl
  · rw [Std.ExtTreeMap.getElem?_alter, if_neg (by simpa using h key),
      getElem?_rename_of_forall_ne value map h]

/-- Inserting under a new name is renaming after inserting under the old one. -/
theorem insert_rename (hf : f.Injective) (value : β → β) (map : AliasMap β) (key : Alias)
    (content : β) :
    (map.rename f value).insert (f key) (value content) =
      AliasMap.rename f value (map.insert key content) := by
  refine eq_rename hf (fun ident => ?_) fun ident h => ?_
  · simp only [Std.ExtTreeMap.getElem?_insert, Std.compare_eq_iff_eq, hf.eq_iff,
      getElem?_rename hf]
    split <;> rfl
  · rw [Std.ExtTreeMap.getElem?_insert, if_neg (by simpa using h key),
      getElem?_rename_of_forall_ne value map h]

end AliasMap

namespace AliasSet

/-- A set of aliases under their new names. -/
def rename (f : Alias → Alias) (aliases : AliasSet) : AliasSet := .ofList (aliases.toList.map f)

/-- A renamed set holds the new names of its aliases. -/
theorem mem_rename_iff (aliases : AliasSet) (ident : Alias) :
    ident ∈ aliases.rename f ↔ ∃ known ∈ aliases, f known = ident := by
  simp [rename, Std.ExtTreeSet.mem_ofList]

/-- A renamed set answers on new names what the set answers on the old ones. -/
theorem contains_rename (hf : f.Injective) (aliases : AliasSet) (ident : Alias) :
    (aliases.rename f).contains (f ident) = aliases.contains ident := by
  rw [Bool.eq_iff_iff, Std.ExtTreeSet.contains_iff_mem, Std.ExtTreeSet.contains_iff_mem,
    mem_rename_iff]
  exact ⟨fun ⟨_, hmem, heq⟩ => hf heq ▸ hmem, fun h => ⟨ident, h, rfl⟩⟩

end AliasSet

/-! ## Patterns -/

/-- A relationship between the new names of its endpoints. -/
def Relationship.rename (f : Alias → Alias) (edge : Relationship) : Relationship :=
  ⟨f edge.source, f edge.target, edge.types⟩

/-- A declaration under other names. -/
def Declaration.rename (f : Alias → Alias) : Declaration → Declaration
  | node ident labels => node (f ident) labels
  | edge ident relationship => edge (f ident) (relationship.rename f)

namespace Pattern

/-- A pattern under other names. -/
def rename (f : Alias → Alias) (pattern : Pattern) : Pattern where
  nodes := AliasMap.rename f id pattern.nodes
  edges := AliasMap.rename f (Relationship.rename f) pattern.edges
  incident := AliasMap.rename f (List.map f) pattern.incident

/-- A renamed pattern declares the new names. -/
theorem contains_rename (hf : f.Injective) (pattern : Pattern) (ident : Alias) :
    (pattern.rename f).contains (f ident) = pattern.contains ident := by
  simp only [contains, rename, AliasMap.contains_rename hf]

/-- A renamed relationship is attached to the new name of a node. -/
theorem attach_rename (hf : f.Injective) (edge : Alias) (incident : AliasMap (List Alias))
    (node : Alias) :
    attach (f edge) (AliasMap.rename f (List.map f) incident) (f node) =
      AliasMap.rename f (List.map f) (attach edge incident node) := by
  refine AliasMap.alter_rename hf incident node fun content? => ?_
  cases content? <;> simp

/-- A declaration under other names is accepted by the renamed pattern. -/
theorem declare_rename (hf : f.Injective) {pattern declared : Pattern} {declaration : Declaration}
    (h : pattern.declare declaration = .ok declared) :
    (pattern.rename f).declare (declaration.rename f) = .ok (declared.rename f) := by
  have hnodes (ident : Alias) :
      (pattern.rename f).nodes.contains (f ident) = pattern.nodes.contains ident :=
    AliasMap.contains_rename hf id pattern.nodes ident
  cases declaration with
  | node ident labels =>
    simp only [declare, Declaration.rename, addNode, contains_rename hf] at h ⊢
    split at h
    · cases h
    · next hnew =>
      cases h
      rw [if_neg hnew]
      simp only [rename, ← AliasMap.insert_rename hf]
      rfl
  | edge ident relationship =>
    simp only [declare, Declaration.rename, addEdge, contains_rename hf, Relationship.rename,
      hnodes, hf.eq_iff] at h ⊢
    split at h
    · cases h
    split at h
    · cases h
    split at h
    · cases h
    next hnew hsource htarget =>
    cases h
    rw [if_neg hnew, if_neg hsource, if_neg htarget]
    simp only [rename, ← AliasMap.insert_rename hf, attach_rename hf]
    split <;> rfl

/-- Declarations under other names are accepted one after the other. -/
theorem foldlM_declare_rename (hf : f.Injective) {declarations : List Declaration}
    {start pattern : Pattern} (h : declarations.foldlM declare start = .ok pattern) :
    (declarations.map (Declaration.rename f)).foldlM declare (start.rename f) =
      .ok (pattern.rename f) := by
  induction declarations generalizing start with
  | nil =>
    cases h
    rfl
  | cons declaration rest ih =>
    rw [List.foldlM_cons] at h
    cases hdeclare : start.declare declaration with
    | error error =>
      rw [hdeclare] at h
      cases h
    | ok declared =>
      rw [hdeclare] at h
      rw [List.map_cons, List.foldlM_cons, declare_rename hf hdeclare]
      exact ih h

/-- Declaring everything under other names gives the renamed pattern. -/
theorem ofDeclarations_rename (hf : f.Injective) {declarations : List Declaration}
    {pattern : Pattern} (h : ofDeclarations declarations = .ok pattern) :
    ofDeclarations (declarations.map (Declaration.rename f)) = .ok (pattern.rename f) :=
  foldlM_declare_rename hf h

end Pattern

/-! ## Predicates -/

/-- A term about the new name of its alias. -/
def Term.rename (f : Alias → Alias) : Term → Term
  | property ident name => property (f ident) name
  | entity ident => entity (f ident)
  | literal value => literal value

/-- A renamed term mentions the new name. -/
theorem Term.alias?_rename (term : Term) : (term.rename f).alias? = term.alias?.map f := by
  cases term <;> rfl

namespace Condition

/-- A predicate tree about the new names. -/
def rename (f : Alias → Alias) : Condition → Condition
  | compare relation lhs rhs => compare relation (lhs.rename f) (rhs.rename f)
  | join connective left right => join connective (left.rename f) (right.rename f)
  | not child => not (child.rename f)

/-- A renamed condition constrains the new names. -/
theorem references_rename_iff (condition : Condition) (ident : Alias) :
    (condition.rename f).references ident = true ↔
      ∃ known, condition.references known = true ∧ f known = ident := by
  induction condition with
  | compare _ lhs rhs =>
    simp [rename, references, Term.alias?_rename, or_and_right, exists_or]
  | join _ left right ihl ihr => simp [rename, references, ihl, ihr, or_and_right, exists_or]
  | not child ih => simpa [rename, references] using ih

/-- The aliases of a renamed condition, if there is one. -/
theorem aliasesOf_rename (filter : Option Condition) :
    aliasesOf (filter.map (rename f)) = (aliasesOf filter).rename f := by
  refine Std.ExtTreeSet.ext_mem fun ident => ?_
  rw [AliasSet.mem_rename_iff]
  cases filter with
  | none => simp [aliasesOf]
  | some condition =>
    simp [aliasesOf, aliases, mem_addAliases_iff, references_rename_iff]

end Condition

/-! ## Expressions -/

/-- A factor between the new names. -/
def Operand.rename (f : Alias → Alias) : Operand → Operand
  | adjacency relation source target transposed =>
    adjacency relation (f source) (f target) transposed
  | label name ident => label name (f ident)
  | mask name ident => mask name (f ident)

/-- Renaming keeps the kind of factor. -/
@[simp] theorem Operand.isDiagonal_rename (operand : Operand) :
    (operand.rename f).isDiagonal = operand.isDiagonal := by
  cases operand <;> rfl

namespace Expression

/-- A product between the new names. -/
def rename (f : Alias → Alias) (e : Expression) : Expression :=
  ⟨e.operands.map (Operand.rename f), f e.source, f e.target, e.edge.map f⟩

/-- An expression under other names, as it is or transposed. -/
def IsRecast (f : Alias → Alias) (e recast : Expression) : Prop :=
  recast = e.rename f ∨ recast = (e.rename f).transpose

/-- A renamed expression has the new names of the entities. -/
theorem entities_rename (hf : f.Injective) (e : Expression) :
    (e.rename f).entities = e.entities.map f := by
  simp only [entities, rename, hf.eq_iff]
  split <;> rfl

/-- Renaming keeps what only filters. -/
theorem isLabelOnly_rename (hf : f.Injective) (e : Expression) :
    (e.rename f).isLabelOnly = e.isLabelOnly := by
  have hends : (f e.source == f e.target) = (e.source == e.target) := by
    rw [Bool.eq_iff_iff, beq_iff_eq, beq_iff_eq, hf.eq_iff]
  have hoperands : (e.operands.map (Operand.rename f)).all Operand.isDiagonal =
      e.operands.all Operand.isDiagonal := by
    simp [List.all_map, Function.comp_def]
  simp only [isLabelOnly, rename, hends, hoperands]

namespace IsRecast

variable {e recast : Expression}

/-- A recast expression has the new names of the entities, possibly exchanged. -/
theorem entities_perm (hf : f.Injective) (h : e.IsRecast f recast) :
    recast.entities.Perm (e.entities.map f) := by
  rw [← entities_rename hf]
  rcases h with rfl | rfl
  · exact .refl _
  · exact (e.rename f).entities_transpose_perm

/-- Recasting keeps what only filters. -/
theorem isLabelOnly_eq (hf : f.Injective) (h : e.IsRecast f recast) :
    recast.isLabelOnly = e.isLabelOnly := by
  rw [← isLabelOnly_rename hf e]
  rcases h with rfl | rfl
  · rfl
  · exact (e.rename f).isLabelOnly_transpose

/-- A recast expression has the new names in its roles, those of the ends possibly exchanged. -/
theorem roles_perm (h : e.IsRecast f recast) :
    (recast.roles.map Prod.fst).Perm ((e.roles.map Prod.fst).map f) := by
  rcases h with rfl | rfl
  · cases hedge : e.edge <;> simp [roles, rename, hedge]
  · cases hedge : e.edge <;> simp [roles, rename, transpose, hedge, List.Perm.swap]

end IsRecast

end Expression

/-! ## Contexts -/

namespace Context

/-- A context under other names. -/
def rename (f : Alias → Alias) (ctx : Context) : Context :=
  ⟨ctx.pattern.rename f, ctx.filtered.rename f, ctx.bound.rename f, ctx.options⟩

/-- The context of renamed inputs is the renamed one. -/
theorem ofInputs_rename (pattern : Pattern) (filter : Option Condition) (bound : AliasSet)
    (options : Options) :
    ofInputs (pattern.rename f) (filter.map (Condition.rename f)) (bound.rename f) options =
      (ofInputs pattern filter bound options).rename f := by
  rw [ofInputs, Condition.aliasesOf_rename]
  rfl

end Context

end PatternTraversal
