import Mathlib.Data.Fintype.EquivFin
import Mathlib.Logic.Relation

/-!
# Orbits of a partial function

A partial function is iterated from a point until it is undefined. On a finite
type an iteration without a circle stops; one that runs into a circle goes on for ever.
A loop that follows such a function halts in the first case and not in the second.
-/

namespace Vx68k.Orbits

variable {α : Type} {step : α → Option α} {start : α}

/-- The function leads from one point to another. -/
def Follows (step : α → Option α) (point next : α) : Prop := step point = some next

/-- The points of the orbit. -/
def Visits (step : α → Option α) : α → α → Prop := Relation.ReflTransGen (Follows step)

/-- The orbit arrives where the function is undefined. -/
def Stops (step : α → Option α) (start : α) : Prop := ∃ last, Visits step start last ∧ step last = none

/-- The orbit arrives at a point that it comes back to. -/
def Circles (step : α → Option α) (start : α) : Prop :=
  ∃ point, Visits step start point ∧ Relation.TransGen (Follows step) point point

/-- An orbit that arrives at a circle goes on, towards the same circle. -/
theorem circles_step (circles : Circles step start) :
    ∃ next, step start = some next ∧ Circles step next := by
  obtain ⟨point, visits, around⟩ := circles
  rcases Relation.ReflTransGen.cases_head visits with rfl | ⟨next, follows, later⟩
  · obtain ⟨next, follows, back⟩ := Relation.TransGen.head'_iff.mp around
    exact ⟨next, follows, start, back, around⟩
  · exact ⟨next, follows, point, later, around⟩

/-- The orbit of a point where the function is defined throughout. -/
def orbit (next : α → α) (start : α) : Nat → α
  | 0 => start
  | count + 1 => next (orbit next start count)

/-- On a finite type an orbit without a circle stops.

Proof: if it never stopped it would visit a point for every number, so two of them
would be the same point, which lies on a circle. -/
theorem stops_of_not_circles [Finite α] (straight : ¬ Circles step start) : Stops step start := by
  by_contra endless
  have defined : ∀ point, Visits step start point → ∃ next, step point = some next := by
    intro point visits
    refine Option.ne_none_iff_exists'.mp fun undefined => endless ⟨point, visits, undefined⟩
  classical
  let next : α → α := fun point => (step point).getD point
  have visits : ∀ count, Visits step start (orbit next start count) := by
    intro count
    induction count with
    | zero => exact .refl
    | succ count inductionHypothesis =>
      obtain ⟨following, found⟩ := defined _ inductionHypothesis
      exact inductionHypothesis.tail (by simp [Follows, orbit, next, found])
  have moves : ∀ count more, Relation.TransGen (Follows step) (orbit next start count)
      (orbit next start (count + more + 1)) := by
    intro count more
    induction more with
    | zero =>
      obtain ⟨following, found⟩ := defined _ (visits count)
      exact .single (by simp [Follows, orbit, next, found])
    | succ more inductionHypothesis =>
      obtain ⟨following, found⟩ := defined _ (visits (count + more + 1))
      exact inductionHypothesis.tail (by
        change step (orbit next start (count + more + 1)) =
          some (next (orbit next start (count + more + 1)))
        simp [next, found])
  obtain ⟨one, other, same, different⟩ :=
    Function.not_injective_iff.mp (not_injective_infinite_finite (orbit next start))
  wlog order : one < other generalizing one other
  · exact this other one same.symm different.symm (by omega)
  obtain ⟨more, rfl⟩ : ∃ more, other = one + more + 1 := ⟨other - one - 1, by omega⟩
  have around := moves one more
  rw [← same] at around
  exact straight ⟨_, visits one, around⟩

end Vx68k.Orbits
