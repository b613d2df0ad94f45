import Mathlib.Data.BitVec

/-!
# Clocks that wrap

A clock of a fixed width shows a time modulo a power of two. Differences of what it
shows are true differences as long as the times are less than one turn apart, and an
interval added to what it shows moves the time by that interval. Times are natural
numbers and the width is a parameter.
-/

namespace Vx68k.Clocks

variable {width : Nat}

/-- What a clock of a width shows at a time. -/
def shown (width time : Nat) : BitVec width := BitVec.ofNat width time

/-- Within one turn, the difference of two readings is the time between them. -/
theorem shown_sub {start now : Nat} (order : start ≤ now) (near : now < start + 2 ^ width) :
    (shown width now - shown width start).toNat = now - start := by
  obtain ⟨passed, rfl⟩ : ∃ passed, now = start + passed := ⟨now - start, by omega⟩
  have sum : shown width (start + passed) - shown width start = shown width passed := by
    rw [shown, BitVec.ofNat_add, BitVec.add_comm]
    exact BitVec.add_sub_cancel _ _
  rw [sum, shown, BitVec.toNat_ofNat, Nat.mod_eq_of_lt (by omega)]
  omega

/-- Within one turn, the clock tells whether an interval has passed. -/
theorem shown_due {start now : Nat} {interval : BitVec width} (order : start ≤ now)
    (near : now < start + 2 ^ width) :
    shown width now - shown width start ≥ interval ↔ start + interval.toNat ≤ now := by
  rw [ge_iff_le, BitVec.le_def, shown_sub order near]
  omega

/-- Adding an interval to a reading moves it by that interval. -/
theorem shown_add (start : Nat) (interval : BitVec width) :
    shown width start + interval = shown width (start + interval.toNat) := by
  rw [shown, shown, BitVec.ofNat_add, BitVec.ofNat_toNat, BitVec.setWidth_eq]

/-- A reading moved by a positive interval shorter than a turn is another one. -/
theorem shown_moves (reading : BitVec width) {interval : BitVec width} (some : interval ≠ 0) :
    reading + interval ≠ reading := by
  intro same
  apply some
  have cancelled : reading + interval - reading = 0 := by
    rw [same]
    exact BitVec.sub_self reading
  rwa [BitVec.add_comm, BitVec.add_sub_cancel] at cancelled

end Vx68k.Clocks
