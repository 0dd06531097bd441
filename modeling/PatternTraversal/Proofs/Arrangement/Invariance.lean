import Mathlib.Logic.Equiv.Basic
import PatternTraversal.Proofs.Arrangement.Alike
import PatternTraversal.Proofs.Arrangement.Segments
import PatternTraversal.Proofs.Renaming

/-!
# Names and directions do not matter

Under other names, and with some expressions transposed, the inputs of an ordering look to it as
they did before: the entities of an expression may be exchanged, but what is asked about them does
not depend on their order. So it answers the same. Only the alias that an error names is another.
-/

namespace PatternTraversal

/-- Number of components that an error counts. -/
def PlanError.components? : PlanError → Option ℕ
  | disconnectedPattern components => some components
  | _ => none

/-- An error without the aliases and roles that it names. -/
def PlanError.outline (error : PlanError) : String × Option ℕ := (error.code, error.components?)

namespace Context

/-- A pattern declares a list when it declares every alias with a role in it. -/
theorem declaresAll_iff (ctx : Context) (exps : List Expression) :
    ctx.DeclaresAll exps ↔
      ∀ e ∈ exps, ∀ ident ∈ e.roles.map Prod.fst, ctx.pattern.contains ident = true := by
  refine forall₂_congr fun e _ => ?_
  simp only [Declares, List.mem_map, Prod.exists, Expression.mem_roles_iff, exists_and_right,
    exists_eq_right, forall_exists_index]
  exact forall_comm

/-- An ordering answers alike on lists that look alike to it. -/
theorem Alike.answer?_eq {ctx ctx' : Context} {exps exps' : List Expression}
    (h : ctx.Alike ctx' exps exps') :
    (ctx'.answer? exps').map (Except.mapError PlanError.outline) =
      (ctx.answer? exps).map (Except.mapError PlanError.outline) := by
  by_cases hdeclared : ctx.DeclaresAll exps
  · rw [answer?, h.arrange hdeclared, answer?]
  · have hundeclared {ctx : Context} {exps : List Expression} (h : ¬ctx.DeclaresAll exps) :
        (ctx.answer? exps).map (Except.mapError PlanError.outline) =
          some (.error ("UnknownAlias", none)) := by
      obtain ⟨ident, role, hfirst⟩ := (exists_firstUndeclared_iff exps).2 h
      rw [(answer?_eq_error_iff _).2 ((arrange_eq_unknownAlias_iff ident role).2 hfirst)]
      rfl
    rw [hundeclared hdeclared, hundeclared (mt h.declares.1 hdeclared)]

section Recast

variable {f : Alias → Alias} (hf : f.Injective) (ctx : Context)

include hf

/-- A recast expression has the interest of the expression. -/
theorem interest_recast {e recast : Expression} (h : e.IsRecast f recast) :
    (ctx.rename f).interest recast = ctx.interest e := by
  have hinterest (ident : Alias) :
      (ctx.rename f).aliasInterest (f ident) = ctx.aliasInterest ident := by
    simp only [aliasInterest, isFiltered, isBound, rename, AliasSet.contains_rename hf]
  rw [interest_eq_sum, ((h.entities_perm hf).map _).sum_eq, interest_eq_sum, List.map_map]
  simp only [Function.comp_def, hinterest]

/-- A recast expression touches an alias of a renamed set when the expression touches one of the
set. -/
theorem any_contains_recast {e recast : Expression} (h : e.IsRecast f recast) (aliases : AliasSet) :
    recast.entities.any (aliases.rename f).contains = e.entities.any aliases.contains := by
  rw [(h.entities_perm hf).any_eq, List.any_map]
  simp only [Function.comp_def, AliasSet.contains_rename hf]

/-- Recast expressions share an alias when the expressions do. -/
theorem shares_recast_iff {e other recast recastOther : Expression} (h : e.IsRecast f recast)
    (hother : other.IsRecast f recastOther) :
    (∃ ident ∈ recast.entities, ident ∈ recastOther.entities) ↔
      ∃ ident ∈ e.entities, ident ∈ other.entities := by
  simp only [(h.entities_perm hf).mem_iff, (hother.entities_perm hf).mem_iff, List.mem_map]
  constructor
  · rintro ⟨_, ⟨ident, hident, rfl⟩, known, hknown, heq⟩
    exact ⟨ident, hident, hf heq ▸ hknown⟩
  · rintro ⟨ident, hident, hother⟩
    exact ⟨f ident, ⟨ident, hident, rfl⟩, ident, hother, rfl⟩

/-- The renamed pattern declares a recast list when the pattern declares the list. -/
theorem declaresAll_recast_iff {exps recast : List Expression}
    (h : List.Forall₂ (Expression.IsRecast f) exps recast) :
    (ctx.rename f).DeclaresAll recast ↔ ctx.DeclaresAll exps := by
  rw [declaresAll_iff, declaresAll_iff]
  induction h with
  | nil => simp
  | cons hrecast _ ih =>
    rw [List.forall_mem_cons, List.forall_mem_cons, ih]
    refine and_congr_left fun _ => ?_
    simp only [hrecast.roles_perm.mem_iff, List.forall_mem_map, rename,
      Pattern.contains_rename hf]

/-- A recast list looks to the renamed context as the list looks to the context. -/
theorem alike_rename {exps recast : List Expression}
    (h : List.Forall₂ (Expression.IsRecast f) exps recast) :
    ctx.Alike (ctx.rename f) exps recast := by
  have hget (i : Fin exps.length) :
      (exps.get i).IsRecast f (recast.get (i.cast h.length_eq)) := h.get i.2 _
  exact
    { length := h.length_eq
      options := rfl
      declares := ctx.declaresAll_recast_iff hf h
      shares := fun i j => shares_recast_iff hf (hget i) (hget j)
      anchors := fun i => any_contains_recast hf (hget i) ctx.bound
      filtered := fun i => any_contains_recast hf (hget i) ctx.filtered
      interest := fun i => ctx.interest_recast hf (hget i)
      labelOnly := fun i => (hget i).isLabelOnly_eq hf }

end Recast

/-- Rename the aliases of the pattern, the expressions, the predicates and the resolved set alike,
no two of them to one name, and transpose any of the expressions: the answer is the same
arrangement, the same lack of an answer, or an error of the same code that counts the same number of
components. -/
theorem answer?_recast {f : Alias → Alias} (hf : f.Injective) (pattern : Pattern)
    (filter : Option Condition) (bound : AliasSet) (options : Options)
    {exps recast : List Expression} (hrecast : List.Forall₂ (Expression.IsRecast f) exps recast) :
    ((ofInputs (pattern.rename f) (filter.map (Condition.rename f)) (bound.rename f)
        options).answer? recast).map (Except.mapError PlanError.outline) =
      ((ofInputs pattern filter bound options).answer? exps).map
        (Except.mapError PlanError.outline) := by
  rw [ofInputs_rename]
  exact (alike_rename hf (ofInputs pattern filter bound options) hrecast).answer?_eq

/-- Two pieces with a constrained alias each; exchanging the names of the first and the last alias
and turning a hop of each piece around keeps their order. -/
theorem answer?_recast_two_pieces :
    let f : Alias → Alias := Equiv.swap ⟨"a"⟩ ⟨"e"⟩
    let declarations : List Declaration := [.node ⟨"a"⟩ [], .node ⟨"b"⟩ [], .node ⟨"c"⟩ [],
      .node ⟨"d"⟩ [], .node ⟨"e"⟩ [], .edge ⟨"r"⟩ ⟨⟨"b"⟩, ⟨"c"⟩, []⟩]
    let pattern := (Pattern.ofDeclarations declarations).toOption.getD .empty
    let filter : Condition := .and
      (.compare .eq (.property ⟨"c"⟩ "x") (.literal (.int 1)))
      (.compare .ne (.entity ⟨"a"⟩) (.entity ⟨"e"⟩))
    let exps : List Expression :=
      [.hop ⟨"a"⟩ ⟨"b"⟩ none none, .hop ⟨"b"⟩ ⟨"c"⟩ (some "R") (some ⟨"r"⟩), .labelScan ⟨"d"⟩ "L",
        .hop ⟨"d"⟩ ⟨"e"⟩ none none]
    let recast : List Expression :=
      [.hop ⟨"e"⟩ ⟨"b"⟩ none none, (Expression.hop ⟨"b"⟩ ⟨"c"⟩ (some "R") (some ⟨"r"⟩)).transpose,
        .labelScan ⟨"d"⟩ "L", (Expression.hop ⟨"d"⟩ ⟨"a"⟩ none none).transpose]
    f.Injective ∧ List.Forall₂ (Expression.IsRecast f) exps recast ∧
      Pattern.ofDeclarations (declarations.map (Declaration.rename f)) = .ok (pattern.rename f) ∧
      ((ofInputs (pattern.rename f) (some (filter.rename f)) (AliasSet.rename f ∅)
          .default).answer? recast).map (Except.mapError PlanError.outline) =
        some (.ok ⟨[0, 1, 3, 2], 10, [0, 2], .exhaustive, ⟨2, 4, 0, 0⟩, true⟩) := by
  intro f declarations pattern filter exps recast
  have hf : f.Injective := Equiv.injective _
  have hrecast : List.Forall₂ (Expression.IsRecast f) exps recast :=
    .cons (.inl (by decide +kernel)) <| .cons (.inr (by decide +kernel)) <|
      .cons (.inl (by decide +kernel)) <| .cons (.inr (by decide +kernel)) .nil
  have hpattern : Pattern.ofDeclarations declarations = .ok pattern := by decide +kernel
  have hanswer : (ofInputs pattern (some filter) ∅ .default).answer? exps =
      some (.ok ⟨[0, 1, 3, 2], 10, [0, 2], .exhaustive, ⟨2, 4, 0, 0⟩, true⟩) := by
    decide +kernel
  have hsame := answer?_recast hf pattern (some filter) ∅ .default hrecast
  rw [hanswer] at hsame
  exact ⟨hf, hrecast, Pattern.ofDeclarations_rename hf hpattern, hsame⟩

end Context

end PatternTraversal
