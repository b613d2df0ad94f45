import Vx68k.ByteStores

/-!
# Decimal numbers in text

A number is printed with its decimal digits, and zeros come before them up to a least
width. A number with more digits than that is printed whole.
-/

namespace Vx68k.Decimals

open ByteStores

/-- The decimal digits with zeros before them up to the width. -/
def padded (width number : Nat) : List Byte :=
  ((Nat.toDigits 10 number).leftpad width '0').map fun digit => BitVec.ofNat 8 digit.toNat

/-- A padded number is as wide as asked for, or as its digits. -/
theorem padded_length (width number : Nat) :
    (padded width number).length = max width (Nat.toDigits 10 number).length := by
  rw [padded, List.length_map, List.length_leftpad]

/-- A number below the power of the width has just that width. -/
theorem padded_fits {width number : Nat} (positive : 0 < width) (small : number < 10 ^ width) :
    (padded width number).length = width := by
  rw [padded_length]
  exact max_eq_left ((Nat.length_toDigits_le_iff (by decide) positive).mpr small)

/-- A number from the power of the width on is longer. -/
theorem padded_exceeds {width number : Nat} (positive : 0 < width) (large : 10 ^ width ≤ number) :
    width < (padded width number).length := by
  rw [padded_length]
  refine lt_max_of_lt_right (Nat.lt_of_not_le fun short => ?_)
  have small := (Nat.length_toDigits_le_iff (by decide) positive).mp short
  omega

/-- The width is a least width. -/
theorem width_le_padded (width number : Nat) : width ≤ (padded width number).length := by
  rw [padded_length]
  exact le_max_left _ _

/-- More digits than the width need a number as large. -/
theorem padded_le {width number most : Nat} (wide : width ≤ most) (positive : 0 < most)
    (small : number < 10 ^ most) : (padded width number).length ≤ most := by
  rw [padded_length]
  exact max_le wide ((Nat.length_toDigits_le_iff (by decide) positive).mpr small)

/-- A printed number has no zero byte. -/
theorem padded_clean (width number : Nat) : 0 ∉ padded width number := by
  intro member
  obtain ⟨digit, among, zero⟩ := List.mem_map.mp member
  have isDigit : digit.isDigit := by
    rw [List.leftpad] at among
    rcases List.mem_append.mp among with filler | proper
    · rw [(List.mem_replicate.mp filler).2]
      decide
    · exact Nat.isDigit_of_mem_toDigits (by decide) (by decide) proper
  obtain ⟨low, high⟩ : 48 ≤ digit.toNat ∧ digit.toNat ≤ 57 := Char.isDigit_iff_toNat.mp isDigit
  have value := congrArg BitVec.toNat zero
  rw [BitVec.toNat_ofNat, Nat.mod_eq_of_lt (by omega)] at value
  change digit.toNat = 0 at value
  omega

end Vx68k.Decimals
