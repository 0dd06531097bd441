import Mathlib.Logic.Relation

/-!
# Crossing a border

A chain of steps that starts inside a set and ends outside of it has a step that leads out of it.
-/

namespace PatternTraversal

/-- A chain from inside a set to outside of it crosses the border somewhere. -/
theorem exists_crossing {α : Type} {step : α → α → Prop} {start goal : α} (inside : α → Prop)
    (h : Relation.ReflTransGen step start goal) (hstart : inside start) (hgoal : ¬ inside goal) :
    ∃ a b, Relation.ReflTransGen step start a ∧ step a b ∧ Relation.ReflTransGen step b goal ∧
      inside a ∧ ¬ inside b := by
  induction h with
  | refl => exact absurd hstart hgoal
  | @tail b c hchain hstep ih =>
    by_cases hb : inside b
    · exact ⟨b, c, hchain, hstep, .refl, hb, hgoal⟩
    · obtain ⟨x, y, hx, hxy, hy, hcrossing⟩ := ih hb
      exact ⟨x, y, hx, hxy, hy.tail hstep, hcrossing⟩

end PatternTraversal
