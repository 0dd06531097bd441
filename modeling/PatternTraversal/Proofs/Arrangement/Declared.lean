import PatternTraversal.Arrangement.Context

/-!
# The first undeclared alias

The check of a list reads its expressions in turn, and each one by source, target and edge. It
names the first alias on this way that the pattern does not declare.
-/

namespace PatternTraversal

/-- Place of a role in the order in which the roles of an expression are read. -/
def Role.rank : Role → Nat
  | source => 0
  | target => 1
  | edge => 2

namespace Expression

/-- The alias that plays a role. -/
def alias? (e : Expression) : Role → Option Alias
  | .source => some e.source
  | .target => some e.target
  | .edge => e.edge

/-- The roles of an expression are those that some alias plays. -/
theorem mem_roles_iff (e : Expression) (ident : Alias) (role : Role) :
    (ident, role) ∈ e.roles ↔ e.alias? role = some ident := by
  cases hedge : e.edge <;> cases role <;> simp [roles, alias?, hedge, eq_comm]

/-- The roles of an expression are listed by their rank. -/
theorem pairwise_roles (e : Expression) :
    e.roles.Pairwise fun one two => one.2.rank < two.2.rank := by
  cases h : e.edge <;> simp [roles, h, Role.rank]

end Expression

namespace Context

/-- The pattern declares the alias that plays a role, if there is one. -/
def Declares (ctx : Context) (e : Expression) (role : Role) : Prop :=
  ∀ ident, e.alias? role = some ident → ctx.pattern.contains ident = true

/-- The pattern declares every alias of a list. -/
def DeclaresAll (ctx : Context) (exps : List Expression) : Prop :=
  ∀ e ∈ exps, ∀ role, ctx.Declares e role

/-- An alias that the pattern does not declare, in a role it plays in a list. All aliases of the
expressions before and all those of earlier roles in the expression itself are declared. -/
def FirstUndeclared (ctx : Context) (exps : List Expression) (ident : Alias) (role : Role) : Prop :=
  ∃ before e after, exps = before ++ e :: after ∧ e.alias? role = some ident ∧
    ctx.pattern.contains ident = false ∧ ctx.DeclaresAll before ∧
    ∀ earlier : Role, earlier.rank < role.rank → ctx.Declares e earlier

variable {ctx : Context}

/-- No role of an expression is found undeclared when all are declared. -/
theorem find?_roles_eq_none_iff (e : Expression) :
    (e.roles.find? fun entry => !ctx.pattern.contains entry.1) = none ↔
      ∀ role, ctx.Declares e role := by
  simp only [List.find?_eq_none, Prod.forall, Expression.mem_roles_iff, Bool.not_eq_true,
    Bool.not_eq_false', Declares]
  exact forall_comm

/-- A role of an expression is found undeclared when it is and the earlier ones are declared. -/
theorem find?_roles_eq_some_iff (e : Expression) (ident : Alias) (role : Role) :
    (e.roles.find? fun entry => !ctx.pattern.contains entry.1) = some (ident, role) ↔
      e.alias? role = some ident ∧ ctx.pattern.contains ident = false ∧
        ∀ earlier : Role, earlier.rank < role.rank → ctx.Declares e earlier := by
  rw [List.find?_eq_some_iff_append, Bool.not_eq_true']
  constructor
  · intro ⟨hident, before, after, hroles, hbefore⟩
    have hsorted := e.pairwise_roles
    rw [hroles, List.pairwise_append] at hsorted
    refine ⟨?_, hident, ?_⟩
    · rw [← Expression.mem_roles_iff, hroles]
      simp
    · intro earlier hlt other hother
      rw [← Expression.mem_roles_iff, hroles, List.mem_append, List.mem_cons] at hother
      rcases hother with hother | hother | hother
      · simpa using hbefore _ hother
      · cases hother
        omega
      · have hgt : role.rank < earlier.rank := (List.pairwise_cons.1 hsorted.2.1).1 _ hother
        omega
  · intro ⟨halias, hident, hearlier⟩
    obtain ⟨before, after, hroles⟩ :=
      List.append_of_mem ((e.mem_roles_iff ident role).2 halias)
    refine ⟨hident, before, after, hroles, ?_⟩
    intro entry hentry
    have hsorted := e.pairwise_roles
    rw [hroles, List.pairwise_append] at hsorted
    have hlt := hsorted.2.2 entry hentry (ident, role) List.mem_cons_self
    have hplays : e.alias? entry.2 = some entry.1 := by
      rw [← Expression.mem_roles_iff, hroles]
      exact List.mem_append_left _ hentry
    simpa using hearlier entry.2 hlt entry.1 hplays

/-- The check names the first undeclared alias. -/
theorem check_eq_error_iff (exps : List Expression) (ident : Alias) (role : Role) :
    ctx.check exps = .error (.unknownAlias ident role) ↔ ctx.FirstUndeclared exps ident role := by
  have hfind : ctx.check exps = .error (.unknownAlias ident role) ↔
      (exps.flatMap Expression.roles).find? (fun entry => !ctx.pattern.contains entry.1) =
        some (ident, role) := by
    unfold check
    split <;> simp [*]
  rw [hfind, List.find?_flatMap, List.findSome?_eq_some_iff]
  simp only [find?_roles_eq_some_iff, find?_roles_eq_none_iff]
  grind [FirstUndeclared, DeclaresAll]

/-- The check passes a list whose aliases are all declared, and no other one. -/
theorem check_eq_ok_iff (exps : List Expression) :
    ctx.check exps = .ok () ↔ ctx.DeclaresAll exps := by
  have hfind : ctx.check exps = .ok () ↔
      (exps.flatMap Expression.roles).find? (fun entry => !ctx.pattern.contains entry.1) =
        none := by
    unfold check
    split <;> simp [*]
  rw [hfind, List.find?_flatMap, List.findSome?_eq_none_iff]
  simp only [find?_roles_eq_none_iff, DeclaresAll]

/-- The check finds no other fault. -/
theorem check_eq_ok_or (ctx : Context) (exps : List Expression) :
    ctx.check exps = .ok () ∨
      ∃ ident role, ctx.check exps = .error (.unknownAlias ident role) := by
  unfold check
  split
  case h_1 ident role _ => exact .inr ⟨ident, role, rfl⟩
  case h_2 => exact .inl rfl

/-- A list has a first undeclared alias when some alias is undeclared. -/
theorem exists_firstUndeclared_iff (exps : List Expression) :
    (∃ ident role, ctx.FirstUndeclared exps ident role) ↔ ¬ctx.DeclaresAll exps := by
  simp only [← check_eq_error_iff, ← check_eq_ok_iff]
  rcases ctx.check_eq_ok_or exps with hok | ⟨ident, role, herror⟩
  · simp [hok]
  · simp [herror]

end Context

end PatternTraversal
