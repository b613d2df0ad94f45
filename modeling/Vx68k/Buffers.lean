import Mathlib.Data.List.Basic

/-!
# Buffers addressed by pointers

A buffer gives a cell for every distance from a base pointer, negative ones and
those past an end included, so that a loop that runs off is described like any
other. Loops are lists of stores, forward copies or runs of one value; what each
leaves is said cell by cell.
-/

namespace Vx68k.Buffers

/-- The cells around a base pointer. -/
abbrev Buffer (β : Type) := Int → β

variable {β : Type}

/-- Store a value in one cell. -/
def store (buffer : Buffer β) (index : Int) (value : β) : Buffer β := fun other =>
  if other = index then value else buffer other

/-- Make stores one after the other. -/
def storeAll (stores : List (Int × β)) (buffer : Buffer β) : Buffer β :=
  stores.foldl (fun buffer cell => store buffer cell.1 cell.2) buffer

/-- The cells that stores go to, in order. -/
def targets (stores : List (Int × β)) : List Int := stores.map Prod.fst

/-- A cell that is no target is kept. -/
theorem storeAll_other (stores : List (Int × β)) (buffer : Buffer β) (index : Int)
    (other : index ∉ targets stores) : storeAll stores buffer index = buffer index := by
  induction stores generalizing buffer with
  | nil => rfl
  | cons cell rest inductionHypothesis =>
    rw [targets, List.map_cons, List.mem_cons, not_or] at other
    exact (inductionHypothesis (store buffer cell.1 cell.2) other.2).trans (if_neg other.1)

/-- A target has the value of its stores when they agree. -/
theorem storeAll_target (stores : List (Int × β)) (buffer : Buffer β) (index : Int) (value : β)
    (target : index ∈ targets stores) (agree : ∀ other, (index, other) ∈ stores → other = value) :
    storeAll stores buffer index = value := by
  induction stores generalizing buffer with
  | nil => exact absurd target List.not_mem_nil
  | cons cell rest inductionHypothesis =>
    by_cases later : index ∈ targets rest
    · exact inductionHypothesis (store buffer cell.1 cell.2) later
        fun other member => agree other (List.mem_cons_of_mem _ member)
    · have first : index = cell.1 := (List.mem_cons.mp target).resolve_right later
      have last : cell.2 = value := agree cell.2 (first ▸ List.mem_cons_self)
      exact (storeAll_other rest _ index later).trans ((if_pos first).trans last)

/-- Copy a number of cells, the lowest first. -/
def copy : Nat → Int → Int → Buffer β → Buffer β
  | 0, _, _, buffer => buffer
  | count + 1, source, target, buffer =>
    copy count (source + 1) (target + 1) (store buffer target (buffer source))

/-- A forward copy to lower cells moves the old contents, even where source and
target overlap. -/
theorem copy_apply (count : Nat) (source target : Int) (buffer : Buffer β) (lower : target ≤ source)
    (index : Int) : copy count source target buffer index =
      if target ≤ index ∧ index < target + count then buffer (index - target + source)
      else buffer index := by
  induction count generalizing source target buffer with
  | zero =>
    rw [if_neg (by omega)]
    rfl
  | succ count inductionHypothesis =>
    rw [copy, inductionHypothesis _ _ _ (by omega)]
    by_cases first : index = target
    · subst first
      rw [if_neg (by omega), if_pos (by omega), store, if_pos rfl, Int.sub_self, Int.zero_add]
    · by_cases inside : target ≤ index ∧ index < target + (count + 1 : Nat)
      · have shifted : index - (target + 1) + (source + 1) = index - target + source := by omega
        rw [if_pos (by omega), if_pos inside, shifted, store, if_neg (by omega)]
      · rw [if_neg (by omega), if_neg inside, store, if_neg first]

/-- Store one value in a number of cells. -/
def fill : Nat → Int → β → Buffer β → Buffer β
  | 0, _, _, buffer => buffer
  | count + 1, target, value, buffer => fill count (target + 1) value (store buffer target value)

/-- A run of one value changes the cells it covers and no others. -/
theorem fill_apply (count : Nat) (target : Int) (value : β) (buffer : Buffer β) (index : Int) :
    fill count target value buffer index =
      if target ≤ index ∧ index < target + count then value else buffer index := by
  induction count generalizing target buffer with
  | zero =>
    rw [if_neg (by omega)]
    rfl
  | succ count inductionHypothesis =>
    rw [fill, inductionHypothesis]
    by_cases first : index = target
    · subst first
      rw [if_neg (by omega), if_pos (by omega), store, if_pos rfl]
    · by_cases inside : target ≤ index ∧ index < target + (count + 1 : Nat)
      · rw [if_pos (by omega), if_pos inside]
      · rw [if_neg (by omega), if_neg inside, store, if_neg first]

/-- Cells blanked after a copy, and the copied ones. -/
theorem fill_copy_apply (blank moved : Nat) (start source target : Int) (value : β)
    (buffer : Buffer β) (lower : target ≤ source) (index : Int) :
    fill blank start value (copy moved source target buffer) index =
      if start ≤ index ∧ index < start + blank then value
      else if target ≤ index ∧ index < target + moved then buffer (index - target + source)
      else buffer index := by
  rw [fill_apply, copy_apply _ _ _ _ lower]

end Vx68k.Buffers
