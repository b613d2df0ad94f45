import Vx68k.TextVideo

/-!
# Palettes

The text palette is the upper half of the palette memory. A word write that changes an
entry sets a flag, which the display tests and clears. Writes elsewhere in this memory
do nothing.
-/

namespace Vx68k

/-- The 256 entries of the text palette and the flag for a change. -/
structure PalettesMemory where
  tpalette : Nat → Uint16
  textColorsModified : Bool

namespace PalettesMemory

/-- The constructor's colors. -/
def construct : PalettesMemory :=
  ⟨fun index => if index = 1 then 0xf83e else if index = 2 then 0xffc0 else if index = 3 then 0xfffe
    else if 4 ≤ index ∧ index < 8 then 0xde6c else if 8 ≤ index ∧ index < 16 then 0x4022 else 0, false⟩

/-- Write a word. A changed entry sets the flag. -/
def put16 (address : Uint32) (value : Uint16) (fc : FunctionCode) (palettes : PalettesMemory) :
    Except Fault PalettesMemory :=
  let address := address &&& 0xfffffffe
  if fc ≠ .superData then .error (.busError address .write fc)
  else
    let off := (address &&& 0x1fff).toNat
    if 2 * 256 * 2 ≤ off then .ok palettes
    else if 256 * 2 ≤ off then
      let i := (off - 256 * 2) / 2
      if value ≠ palettes.tpalette i then
        .ok ⟨Function.update palettes.tpalette i value, true⟩
      else .ok palettes
    else .ok palettes

/-- Every case of the `switch` above the text palette gives 0. -/
def get16 (address : Uint32) (fc : FunctionCode) (palettes : PalettesMemory) :
    Except Fault Uint16 :=
  let address := address &&& 0xfffffffe
  if fc ≠ .superData then .error (.busError address .read fc)
  else
    let off := (address &&& 0x1fff).toNat
    if 2 * 256 * 2 ≤ off then .ok 0
    else if 256 * 2 ≤ off then .ok (palettes.tpalette ((off - 256 * 2) / 2))
    else .ok 0

/-- Read a byte of a word: at odd addresses the high one. -/
def get8 (address : Uint32) (fc : FunctionCode) (palettes : PalettesMemory) :
    Except Fault Uint16 := do
  let w ← palettes.get16 address fc
  if address % 2 ≠ 0 then pure (w >>> 8 &&& 0xff) else pure (w &&& 0xff)

/-- Write a byte of a word, at odd addresses the high one. -/
def put8 (address value : Uint32) (fc : FunctionCode) (palettes : PalettesMemory) :
    Except Fault PalettesMemory := do
  let value : Uint16 := (value &&& 0xff).setWidth 16
  let w ← palettes.get16 address fc
  if address % 2 ≠ 0 then palettes.put16 address (w &&& (0xff : Uint16) ||| value <<< 8) fc
  else palettes.put16 address (w &&& ~~~0xff ||| value) fc

/-- Test the flag and clear it. -/
def checkTextColorsModified (palettes : PalettesMemory) : Bool × PalettesMemory :=
  (palettes.textColorsModified, { palettes with textColorsModified := false })

/-- A write that succeeds changes nothing or leaves the flag set. -/
theorem put16_flags {address : Uint32} {value : Uint16} {fc : FunctionCode}
    {palettes after : PalettesMemory} (done : put16 address value fc palettes = .ok after) :
    after = palettes ∨ after.textColorsModified = true := by
  simp only [put16] at done
  split at done
  · exact nomatch done
  · split at done
    · exact Or.inl (Except.ok.inj done).symm
    · split at done
      · split at done
        · exact Or.inr ((Except.ok.inj done) ▸ rfl)
        · exact Or.inl (Except.ok.inj done).symm
      · exact Or.inl (Except.ok.inj done).symm

/-- The entry of the text palette at an address. -/
def entry (address : Uint32) : Option Nat :=
  let off := address.toNat % 0x2000
  if 0x200 ≤ off ∧ off < 0x400 then some ((off - 0x200) / 2) else none

/-- The word at an address. -/
def word (address : Uint32) (palettes : PalettesMemory) : Uint16 :=
  match entry address with
  | some i => palettes.tpalette i
  | none => 0

/-- The palettes with a word at an address. -/
def assign (address : Uint32) (value : Uint16) (palettes : PalettesMemory) : PalettesMemory :=
  match entry address with
  | some i =>
    if value ≠ palettes.tpalette i then ⟨Function.update palettes.tpalette i value, true⟩
    else palettes
  | none => palettes

/-- The offset of the word at an address. -/
theorem off_toNat (address : Uint32) :
    (address &&& 0xfffffffe &&& 0x1fff).toNat = address.toNat % 0x2000 / 2 * 2 := by
  have even : (address &&& 0xfffffffe).toNat = address.toNat / 2 ^ 1 * 2 ^ 1 :=
    ByteStores.and_mask_toNat _ _ 1 (by decide)
  rw [BitVec.toNat_and, even]
  change (address.toNat / 2 * 2) &&& (2 ^ 13 - 1) = _
  rw [Nat.and_two_pow_sub_one_eq_mod]
  omega

/-- The supervisor reads the word at an address. -/
theorem get16_eq (address : Uint32) (palettes : PalettesMemory) :
    palettes.get16 address .superData = .ok (word address palettes) := by
  simp only [get16, word, entry, off_toNat, ne_eq, not_true_eq_false, if_false]
  by_cases inside : 0x200 ≤ address.toNat % 0x2000 ∧ address.toNat % 0x2000 < 0x400
  · rw [if_pos inside, if_neg (by omega), if_pos (by omega),
      show (address.toNat % 0x2000 / 2 * 2 - 256 * 2) / 2 = (address.toNat % 0x2000 - 0x200) / 2 by omega]
  · rw [if_neg inside]
    split
    · rfl
    · rw [if_neg (by omega)]

/-- The supervisor assigns the word at an address. -/
theorem put16_eq (address : Uint32) (value : Uint16) (palettes : PalettesMemory) :
    palettes.put16 address value .superData = .ok (palettes.assign address value) := by
  simp only [put16, assign, entry, off_toNat, ne_eq, not_true_eq_false, if_false]
  by_cases inside : 0x200 ≤ address.toNat % 0x2000 ∧ address.toNat % 0x2000 < 0x400
  · rw [if_pos inside, if_neg (by omega), if_pos (by omega),
      show (address.toNat % 0x2000 / 2 * 2 - 256 * 2) / 2 = (address.toNat % 0x2000 - 0x200) / 2 by omega]
    exact (apply_ite Except.ok _ _ _).symm
  · rw [if_neg inside]
    split
    · rfl
    · rw [if_neg (by omega)]

end PalettesMemory

end Vx68k
