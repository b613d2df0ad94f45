import Vx68k.Palettes
import Vx68k.VdispTimer

/-!
# Bytes of the palette and CRTC registers

Memory is big-endian: the byte at an even address is the high one of its word. The palettes
and the CRTC take a byte from a word that they read, and the palettes put a byte into one.
Both take the high byte for the odd address.
-/

namespace Vx68k.CrtcMemory

/-- The registers that are read do not depend on the state. -/
def get16 (address : Uint32) : Uint16 :=
  if address &&& 0x1fff = 0x28 then 0x417 else 0

/-- Read a byte of a word: at odd addresses the high one. -/
def get8 (address : Uint32) : Uint16 :=
  let w := get16 (address &&& ~~~1)
  if address &&& 1 ≠ 0 then w >>> 8 &&& 0xff else w &&& 0xff

/-- A word is the number of its bytes. -/
def WordLaw (address : Uint32) : Prop :=
  (get16 address).toNat = (get8 address).toNat * 256 + (get8 (address + 1)).toNat

/-- One register has a value of its own, and the others are zero. -/
theorem get16_eq (address : Uint32) :
    get16 address = if address.toNat % 0x2000 = 0x28 then 0x417 else 0 := by
  have register : address &&& 0x1fff = 0x28 ↔ address.toNat % 0x2000 = 0x28 := by
    rw [← BitVec.toNat_inj, ByteStores.and_low_toNat _ _ 13 rfl]
    rfl
  simp only [get16, register]

/-- The bytes of the registers are in order unless they are those of the one that is not 0. -/
theorem wordLaw_iff {address : Uint32} (even : address.toNat % 2 = 0) :
    WordLaw address ↔ address.toNat % 0x2000 ≠ 0x28 := by
  have bit (a : Uint32) : a &&& 1 ≠ 0 ↔ a.toNat % 2 = 1 := by
    have low : (a &&& 1).toNat = a.toNat % 2 := ByteStores.and_low_toNat _ _ 1 rfl
    rw [ne_eq, ← BitVec.toNat_inj, low]
    change ¬ a.toNat % 2 = 0 ↔ _
    omega
  have base (a : Uint32) : (a &&& ~~~1).toNat = a.toNat / 2 ^ 1 * 2 ^ 1 :=
    ByteStores.and_mask_toNat _ _ 1 (by decide)
  have next : (address + 1).toNat = address.toNat + 1 := by bv_omega
  have here : (address &&& ~~~1).toNat = address.toNat := by rw [base]; omega
  have there : ((address + 1) &&& ~~~1).toNat = address.toNat := by rw [base, next]; omega
  rw [WordLaw, get8, get8]
  have odd : (address.toNat + 1) % 2 = 1 := by omega
  simp only [get16_eq, bit, here, there, next, even, odd, Nat.zero_ne_one, if_true, if_false]
  by_cases register : address.toNat % 0x2000 = 0x28
  · rw [if_pos register]
    exact iff_of_false (by decide) (not_not_intro register)
  · rw [if_neg register]
    exact iff_of_true (by decide) register

end Vx68k.CrtcMemory

namespace Vx68k.PalettesMemory

open ByteStores

/-- The big-endian bytes of the entries. -/
def contents (palettes : PalettesMemory) : Store := fun index =>
  if index % 2 = 0 then BitVec.ofNat 8 ((palettes.tpalette (index / 2)).toNat / 256)
  else BitVec.ofNat 8 (palettes.tpalette (index / 2)).toNat

/-- The word that a byte write puts back. -/
def merged (address : Uint32) (value : Uint32) (w : Uint16) : Uint16 :=
  let value : Uint16 := (value &&& 0xff).setWidth 16
  if address % 2 ≠ 0 then w &&& (0xff : Uint16) ||| value <<< 8 else w &&& ~~~0xff ||| value

/-- The byte of a word that a byte read gives. -/
def half (address : Uint32) (w : Uint16) : Uint16 :=
  if address % 2 ≠ 0 then w >>> 8 &&& 0xff else w &&& 0xff

/-- The supervisor reads a half of the word. -/
theorem get8_eq (address : Uint32) (palettes : PalettesMemory) :
    palettes.get8 address .superData = .ok (half address (palettes.word address)) := by
  rw [get8, get16_eq]
  exact (apply_ite Except.ok _ _ _).symm

/-- The supervisor assigns the word with one half replaced. -/
theorem put8_eq (address value : Uint32) (palettes : PalettesMemory) :
    palettes.put8 address value .superData =
      .ok (palettes.assign address (merged address value (palettes.word address))) := by
  rw [put8, get16_eq, merged]
  change (if address % 2 ≠ 0 then _ else _) = _
  split
  · exact put16_eq _ _ _
  · exact put16_eq _ _ _

/-- An address is odd or even by its number. -/
theorem odd_iff (address : Uint32) : address % 2 ≠ 0 ↔ address.toNat % 2 = 1 := by
  rw [ne_eq, ← BitVec.toNat_inj, BitVec.toNat_umod]
  change ¬ address.toNat % 2 = 0 ↔ _
  omega

/-- The half of a word, as a number. -/
theorem half_toNat (address : Uint32) (w : Uint16) :
    (half address w).toNat = if address.toNat % 2 = 1 then w.toNat / 256 else w.toNat % 256 := by
  have bound := w.isLt
  rw [half]
  simp only [odd_iff]
  split
  · rw [ByteStores.and_low_toNat _ _ 8 rfl, BitVec.toNat_ushiftRight, Nat.shiftRight_eq_div_pow]
    omega
  · exact ByteStores.and_low_toNat _ _ 8 rfl

/-- The word with a half replaced, as a number. -/
theorem merged_toNat (address value : Uint32) (w : Uint16) :
    (merged address value w).toNat =
      if address.toNat % 2 = 1 then value.toNat % 256 * 256 + w.toNat % 256
      else w.toNat / 256 * 256 + value.toNat % 256 := by
  have byte : ((value &&& 0xff).setWidth 16 : Uint16).toNat = value.toNat % 256 := by
    rw [BitVec.toNat_setWidth, ByteStores.and_low_toNat _ _ 8 rfl]
    omega
  have below : value.toNat % 256 < 2 ^ 8 := Nat.mod_lt _ (by decide)
  rw [merged]
  simp only [odd_iff]
  split
  · have low : (w &&& 0xff).toNat = w.toNat % 256 := ByteStores.and_low_toNat _ _ 8 rfl
    have small : w.toNat % 256 < 2 ^ 8 := Nat.mod_lt _ (by decide)
    have fits : value.toNat % 256 * 2 ^ 8 < 2 ^ 16 := by omega
    rw [BitVec.toNat_or, low, BitVec.toNat_shiftLeft, byte, Nat.shiftLeft_eq,
      Nat.mod_eq_of_lt fits, Nat.or_comm, ← Nat.shiftLeft_eq, ← Nat.shiftLeft_add_eq_or_of_lt small,
      Nat.shiftLeft_eq]
  · have high : (w &&& ~~~0xff).toNat = w.toNat / 2 ^ 8 * 2 ^ 8 := and_mask_toNat _ _ 8 (by decide)
    rw [BitVec.toNat_or, high, byte, ← Nat.shiftLeft_eq, ← Nat.shiftLeft_add_eq_or_of_lt below,
      Nat.shiftLeft_eq]
    rfl

/-- The byte at an even place is the high half of its entry. -/
theorem contents_even (palettes : PalettesMemory) (i : Nat) :
    palettes.contents (2 * i) = BitVec.ofNat 8 ((palettes.tpalette i).toNat / 256) := by
  rw [contents, if_pos (Nat.mul_mod_right 2 i), Nat.mul_div_cancel_left i (by decide)]

/-- The byte at an odd place is the low half. -/
theorem contents_odd (palettes : PalettesMemory) (i : Nat) :
    palettes.contents (2 * i + 1) = BitVec.ofNat 8 (palettes.tpalette i).toNat := by
  rw [contents, if_neg (by omega), show (2 * i + 1) / 2 = i by omega]

/-- The bytes of an entry are its word. -/
theorem slice_contents (palettes : PalettesMemory) (i : Nat) :
    slice palettes.contents (2 * i) 2 = encode 2 (palettes.tpalette i).toNat := by
  rw [slice, slice, slice, contents_even, contents_odd]
  simp [encode]

/-- Putting a word changes its entry, and sets the flag if that is another word. -/
theorem assign_entry {address : Uint32} {i : Nat} (found : entry address = some i) (value : Uint16)
    (palettes : PalettesMemory) : palettes.assign address value =
      ⟨Function.update palettes.tpalette i value,
        palettes.textColorsModified || decide (value ≠ palettes.tpalette i)⟩ := by
  rw [assign, found]
  by_cases same : value = palettes.tpalette i
  · simp [same]
  · simp [same]

/-- A word put at an address is laid over the bytes of its entry. -/
theorem contents_assign {address : Uint32} {i : Nat} (found : entry address = some i)
    (value : Uint16) (palettes : PalettesMemory) :
    (palettes.assign address value).contents = lay palettes.contents (2 * i) (encode 2 value.toNat) := by
  have assigned : (palettes.assign address value).tpalette =
      Function.update palettes.tpalette i value := by
    rw [assign_entry found]
  funext index
  by_cases here : index / 2 = i
  · have byte : (palettes.assign address value).tpalette (index / 2) = value := by
      rw [assigned, here, Function.update_self]
    have place : index = 2 * i + index % 2 := by omega
    rw [contents, byte]
    rcases Nat.mod_two_eq_zero_or_one index with even | odd
    · rw [if_pos even, place, even, lay_inside _ _ _ 0 (by simp)]
      simp [encode]
    · rw [if_neg (by omega), place, odd, lay_inside _ _ _ 1 (by simp)]
      simp [encode]
  · have kept : (palettes.assign address value).tpalette (index / 2) = palettes.tpalette (index / 2) := by
      rw [assigned, Function.update_of_ne here]
    rw [contents, kept, lay_outside _ _ _ _ (by rw [encode_length]; omega)]
    rfl

end Vx68k.PalettesMemory

namespace Vx68k.RegisterBytes

open ByteStores PalettesMemory

/-- The bytes of a word are equal. -/
def Twin (w : Uint16) : Prop := w.toNat / 256 = w.toNat % 256

/-- An access with function code `SUPER_DATA`. -/
inductive Access where
  | get8 (address : Uint32)
  | get16 (address : Uint32)
  | put8 (address value : Uint32)
  | put16 (address : Uint32) (value : Uint16)

namespace Access

/-- The access itself. Writes answer 0. -/
def perform : Access → PalettesMemory → Except Fault (Nat × PalettesMemory)
  | get8 address, palettes => do
    let byte ← palettes.get8 address .superData
    pure (byte.toNat, palettes)
  | get16 address, palettes => do
    let w ← palettes.get16 address .superData
    pure (w.toNat, palettes)
  | put8 address value, palettes => do
    let after ← palettes.put8 address value .superData
    pure (0, after)
  | put16 address value, palettes => do
    let after ← palettes.put16 address value .superData
    pure (0, after)

/-- The place of an address in the bytes of the text palette. -/
def place (address : Uint32) : Option Nat :=
  let off := address.toNat % 0x2000
  if 0x200 ≤ off ∧ off < 0x400 then some (off - 0x200) else none

/-- The access to a big-endian byte array. Elsewhere there are zeros. -/
def onArray : Access → Store → Nat × Store
  | get8 address, bytes =>
    (match place address with
      | some index => (bytes index).toNat
      | none => 0, bytes)
  | get16 address, bytes =>
    (match place address with
      | some index => decode (slice bytes (index / 2 * 2) 2)
      | none => 0, bytes)
  | put8 address value, bytes =>
    (0, match place address with
      | some index => lay bytes index [value.setWidth 8]
      | none => bytes)
  | put16 address value, bytes =>
    (0, match place address with
      | some index => lay bytes (index / 2 * 2) (encode 2 value.toNat)
      | none => bytes)

/-- The order of the bytes makes no difference to an access: a byte is read from two that are
equal, or written where both are that byte already. -/
def Indifferent : Access → PalettesMemory → Prop
  | get8 address, palettes => Twin (palettes.word address)
  | get16 _, _ => True
  | put8 address value, palettes => ∀ i, entry address = some i →
      Twin (palettes.tpalette i) ∧ value.toNat % 256 = (palettes.tpalette i).toNat % 256
  | put16 _ _, _ => True

end Access

/-- Accesses one after the other, with their answers. -/
def run (palettes : PalettesMemory) : List Access → Except Fault (List Nat × PalettesMemory)
  | [] => .ok ([], palettes)
  | access :: rest => do
    let (answer, after) ← access.perform palettes
    let (answers, last) ← run after rest
    pure (answer :: answers, last)

/-- The same accesses to a byte array. -/
def runArray (bytes : Store) : List Access → List Nat × Store
  | [] => ([], bytes)
  | access :: rest =>
    let (answer, after) := access.onArray bytes
    let (answers, last) := runArray after rest
    (answer :: answers, last)

/-- At every point of a run answers and memory are those of the byte array. -/
def BigEndian (palettes : PalettesMemory) (accesses : List Access) : Prop :=
  ∀ front back, accesses = front ++ back → ∃ answers last,
    run palettes front = .ok (answers, last) ∧
      runArray palettes.contents front = (answers, last.contents)

/-- Every access of a run is indifferent where it is made. -/
def IndifferentRun (palettes : PalettesMemory) : List Access → Prop
  | [] => True
  | access :: rest => access.Indifferent palettes ∧
      ∀ answer after, access.perform palettes = .ok (answer, after) → IndifferentRun after rest

/-- A word is the number of its bytes. -/
def WordLaw (palettes : PalettesMemory) (address : Uint32) : Prop :=
  ∃ w high low, palettes.get16 address .superData = .ok w ∧
    palettes.get8 address .superData = .ok high ∧
    palettes.get8 (address + 1) .superData = .ok low ∧ w.toNat = high.toNat * 256 + low.toNat

/-- A byte write changes the byte at its address and no other. -/
def ByteLaw (palettes : PalettesMemory) (address value : Uint32) : Prop :=
  ∃ after byte, palettes.put8 address value .superData = .ok after ∧
    after.get8 address .superData = .ok byte ∧ byte.toNat = value.toNat % 256 ∧
    ∀ other : Uint32, other.toNat % 0x2000 ≠ address.toNat % 0x2000 →
      after.get8 other .superData = palettes.get8 other .superData

/-- Two byte writes make up a word write. -/
def SplitLaw (palettes : PalettesMemory) (address : Uint32) (value : Uint16) : Prop :=
  palettes.put16 address value .superData = do
    let after ← palettes.put8 address (BitVec.ofNat 32 (value.toNat / 256)) .superData
    after.put8 (address + 1) (BitVec.ofNat 32 (value.toNat % 256)) .superData

/-- An address is in the palette, where its byte is one of its entry's, or is not. -/
theorem place_cases (address : Uint32) :
    (∃ i, entry address = some i ∧ Access.place address = some (2 * i + address.toNat % 2)) ∨
      (entry address = none ∧ Access.place address = none) := by
  rw [entry, Access.place]
  by_cases inside : 0x200 ≤ address.toNat % 0x2000 ∧ address.toNat % 0x2000 < 0x400
  · refine Or.inl ⟨_, if_pos inside, ?_⟩
    rw [if_pos inside]
    exact congrArg some (by omega)
  · exact Or.inr ⟨if_neg inside, if_neg inside⟩

/-- An address is in an entry if its register is in the palette. -/
theorem entry_iff {address : Uint32} {i : Nat} : entry address = some i ↔
    0x200 ≤ address.toNat % 0x2000 ∧ address.toNat % 0x2000 < 0x400 ∧
      (address.toNat % 0x2000 - 0x200) / 2 = i := by
  rw [entry]
  split
  · rename_i inside
    rw [Option.some.injEq]
    exact ⟨fun same => ⟨inside.1, inside.2, same⟩, fun all => all.2.2⟩
  · rename_i outside
    exact iff_of_false (Option.some_ne_none i).symm fun all => outside ⟨all.1, all.2.1⟩

/-- The word at an address in the palette. -/
theorem word_entry {address : Uint32} {i : Nat} (found : entry address = some i)
    (palettes : PalettesMemory) : palettes.word address = palettes.tpalette i := by
  rw [word, found]

/-- A byte of an entry as big-endian memory has it. -/
theorem contents_toNat (palettes : PalettesMemory) (i : Nat) (address : Uint32) :
    (palettes.contents (2 * i + address.toNat % 2)).toNat =
      if address.toNat % 2 = 1 then (palettes.tpalette i).toNat % 256
      else (palettes.tpalette i).toNat / 256 := by
  have bound : (palettes.tpalette i).toNat / 256 < 2 ^ 8 := by
    have all := (palettes.tpalette i).isLt
    omega
  rcases Nat.mod_two_eq_zero_or_one address.toNat with even | odd
  · rw [even, if_neg (by decide), Nat.add_zero, contents_even]
    exact (BitVec.toNat_ofNat _ 8).trans (Nat.mod_eq_of_lt bound)
  · rw [odd, if_pos rfl, contents_odd]
    exact BitVec.toNat_ofNat _ 8

/-- Stores that differ in one entry at most are compared there. -/
theorem pair_iff {one other : Store} {i : Nat}
    (elsewhere : ∀ index, index < 2 * i ∨ 2 * i + 2 ≤ index → one index = other index) :
    one = other ↔ one (2 * i) = other (2 * i) ∧ one (2 * i + 1) = other (2 * i + 1) := by
  constructor
  · rintro rfl
    exact ⟨rfl, rfl⟩
  · rintro ⟨high, low⟩
    funext index
    by_cases outside : index < 2 * i ∨ 2 * i + 2 ≤ index
    · exact elsewhere index outside
    · obtain rfl | rfl : index = 2 * i ∨ index = 2 * i + 1 := by omega
      · exact high
      · exact low

/-- A byte laid over its entry makes a word just if that has this byte and the other one. -/
theorem lay_byte_iff (bytes : Store) (i parity : Nat) (bit : parity < 2) (value : Nat) (byte : Byte) :
    lay bytes (2 * i + parity) [byte] = lay bytes (2 * i) (encode 2 value) ↔
      (if parity = 1 then bytes (2 * i) else byte) = BitVec.ofNat 8 (value / 256) ∧
        (if parity = 1 then byte else bytes (2 * i + 1)) = BitVec.ofNat 8 value := by
  have high : lay bytes (2 * i) (encode 2 value) (2 * i) = BitVec.ofNat 8 (value / 256) := by
    simp [lay, encode]
  have low : lay bytes (2 * i) (encode 2 value) (2 * i + 1) = BitVec.ofNat 8 value := by
    simp [lay, encode]
  have first : lay bytes (2 * i + parity) [byte] (2 * i) = if parity = 1 then bytes (2 * i) else byte := by
    obtain rfl | rfl : parity = 0 ∨ parity = 1 := by omega
    · simp [lay]
    · simp [lay]
  have second : lay bytes (2 * i + parity) [byte] (2 * i + 1) =
      if parity = 1 then byte else bytes (2 * i + 1) := by
    obtain rfl | rfl : parity = 0 ∨ parity = 1 := by omega
    · simp [lay]
    · simp [lay]
  rw [@pair_iff _ _ i, high, low, first, second]
  intro index outside
  rw [lay_outside _ _ _ _ (by rw [List.length_singleton]; omega),
    lay_outside _ _ _ _ (by rw [encode_length]; omega)]

/-- A word read is that of the byte array. -/
theorem onArray_get16 (address : Uint32) (palettes : PalettesMemory) :
    (Access.get16 address).onArray palettes.contents =
      ((palettes.word address).toNat, palettes.contents) := by
  rw [Access.onArray]
  rcases place_cases address with ⟨i, found, place⟩ | ⟨missing, place⟩
  · have first : (2 * i + address.toNat % 2) / 2 * 2 = 2 * i := by omega
    have bound : (palettes.tpalette i).toNat < 256 ^ 2 := (palettes.tpalette i).isLt
    rw [place, word_entry found]
    simp only [first, slice_contents, decode_encode]
    rw [Nat.mod_eq_of_lt bound]
  · have zero : palettes.word address = 0 := by rw [word, missing]
    rw [place, zero]
    rfl

/-- So is a word write. -/
theorem onArray_put16 (address : Uint32) (value : Uint16) (palettes : PalettesMemory) :
    (Access.put16 address value).onArray palettes.contents =
      (0, (palettes.assign address value).contents) := by
  rw [Access.onArray]
  rcases place_cases address with ⟨i, found, place⟩ | ⟨missing, place⟩
  · have first : (2 * i + address.toNat % 2) / 2 * 2 = 2 * i := by omega
    rw [place, contents_assign found]
    simp only [first]
  · rw [place, assign, missing]

/-- A byte read gives the other byte of the word. -/
theorem onArray_get8 (address : Uint32) (palettes : PalettesMemory) :
    (Access.get8 address).onArray palettes.contents =
        ((half address (palettes.word address)).toNat, palettes.contents) ↔
      Twin (palettes.word address) := by
  rw [Access.onArray, half_toNat, Twin]
  rcases place_cases address with ⟨i, found, place⟩ | ⟨missing, place⟩
  · rw [place, word_entry found, Prod.mk.injEq]
    simp only [and_true, contents_toNat]
    split
    · exact eq_comm
    · exact Iff.rfl
  · have zero : palettes.word address = 0 := by rw [word, missing]
    rw [place, zero]
    simp

/-- A byte write replaces the other byte of the word. -/
theorem onArray_put8 (address value : Uint32) (palettes : PalettesMemory) :
    (Access.put8 address value).onArray palettes.contents =
        (0, (palettes.assign address (merged address value (palettes.word address))).contents) ↔
      (Access.put8 address value).Indifferent palettes := by
  rw [Access.onArray, Access.Indifferent, Prod.mk.injEq]
  rcases place_cases address with ⟨i, found, place⟩ | ⟨missing, place⟩
  · rw [place, contents_assign found, word_entry found]
    simp only [true_and, found, Option.some.injEq, forall_eq']
    have high : (palettes.tpalette i).toNat / 256 < 256 := by
      have bound := (palettes.tpalette i).isLt
      omega
    rw [lay_byte_iff _ _ _ (Nat.mod_lt _ (by decide)), merged_toNat, contents_even, contents_odd,
      Twin]
    generalize (palettes.tpalette i).toNat / 256 = h at *
    generalize (palettes.tpalette i).toNat = w
    rcases Nat.mod_two_eq_zero_or_one address.toNat with even | odd
    · have kept : (h * 256 + value.toNat % 256) / 256 = h := by omega
      simp only [even, Nat.zero_ne_one, if_false, ← BitVec.toNat_inj, BitVec.toNat_ofNat,
        BitVec.toNat_setWidth, kept]
      omega
    · have put : (value.toNat % 256 * 256 + w % 256) / 256 = value.toNat % 256 := by omega
      simp only [odd, if_true, ← BitVec.toNat_inj, BitVec.toNat_ofNat, BitVec.toNat_setWidth, put]
      omega
  · rw [place, assign, missing]
    simp

/-- An access is made, and it is that of the byte array just if it is indifferent. -/
theorem perform_iff (access : Access) (palettes : PalettesMemory) :
    ∃ answer after, access.perform palettes = .ok (answer, after) ∧
      (access.onArray palettes.contents = (answer, after.contents) ↔
        access.Indifferent palettes) := by
  cases access with
  | get8 address =>
    exact ⟨_, palettes, by rw [Access.perform, get8_eq]; rfl, onArray_get8 address palettes⟩
  | get16 address =>
    exact ⟨_, palettes, by rw [Access.perform, get16_eq]; rfl,
      iff_of_true (onArray_get16 address palettes) trivial⟩
  | put8 address value =>
    exact ⟨0, _, by rw [Access.perform, put8_eq]; rfl, onArray_put8 address value palettes⟩
  | put16 address value =>
    exact ⟨0, _, by rw [Access.perform, put16_eq]; rfl,
      iff_of_true (onArray_put16 address value palettes) trivial⟩

/-- A run is its first access and the rest. -/
theorem run_cons {access : Access} {palettes after : PalettesMemory} {answer : Nat}
    (performed : access.perform palettes = .ok (answer, after)) (rest : List Access)
    (answers : List Nat) (last : PalettesMemory) :
    run palettes (access :: rest) = .ok (answers, last) ↔
      ∃ others, answers = answer :: others ∧ run after rest = .ok (others, last) := by
  rw [run, performed]
  change (run after rest >>= fun result => pure (answer :: result.1, result.2)) = _ ↔ _
  cases run after rest with
  | error fault => exact iff_of_false (fun same => nomatch same) fun ⟨_, _, same⟩ => nomatch same
  | ok result =>
    obtain ⟨others, final⟩ := result
    constructor
    · intro same
      obtain ⟨rfl, rfl⟩ := Prod.mk.inj (Except.ok.inj same)
      exact ⟨others, rfl, rfl⟩
    · rintro ⟨_, rfl, same⟩
      obtain ⟨rfl, rfl⟩ := Prod.mk.inj (Except.ok.inj same)
      rfl

/-- A run follows the byte array if its first access does and the rest does. -/
theorem bigEndian_cons {access : Access} {palettes after : PalettesMemory} {answer : Nat}
    (performed : access.perform palettes = .ok (answer, after)) (rest : List Access) :
    BigEndian palettes (access :: rest) ↔
      access.onArray palettes.contents = (answer, after.contents) ∧ BigEndian after rest := by
  constructor
  · intro whole
    have first : access.onArray palettes.contents = (answer, after.contents) := by
      obtain ⟨answers, last, made, array⟩ := whole [access] rest rfl
      obtain ⟨others, rfl, ended⟩ := (run_cons performed [] answers last).mp made
      obtain ⟨rfl, rfl⟩ := Prod.mk.inj (Except.ok.inj ended)
      obtain ⟨answers, memory⟩ := Prod.mk.inj array
      exact Prod.ext (List.cons.inj answers).1 memory
    refine ⟨first, fun front back split => ?_⟩
    obtain ⟨answers, last, made, array⟩ := whole (access :: front) back (by rw [split]; rfl)
    obtain ⟨others, rfl, ended⟩ := (run_cons performed front answers last).mp made
    rw [runArray, first] at array
    obtain ⟨answers, memory⟩ := Prod.mk.inj array
    exact ⟨others, last, ended, Prod.ext (List.cons.inj answers).2 memory⟩
  · rintro ⟨first, others⟩ front back split
    cases front with
    | nil => exact ⟨[], palettes, rfl, rfl⟩
    | cons entry front =>
      obtain ⟨rfl, remains⟩ := List.cons.inj split
      obtain ⟨answers, last, ended, array⟩ := others front back remains
      refine ⟨answer :: answers, last, (run_cons performed front _ _).mpr ⟨answers, rfl, ended⟩, ?_⟩
      rw [runArray, first]
      simp only [array]

/-- A run follows the byte array exactly if all its accesses are indifferent.

Proof: by induction on the accesses. -/
theorem bigEndian_iff (palettes : PalettesMemory) (accesses : List Access) :
    BigEndian palettes accesses ↔ IndifferentRun palettes accesses := by
  induction accesses generalizing palettes with
  | nil =>
    refine iff_of_true (fun front back split => ?_) trivial
    obtain ⟨rfl, -⟩ := List.append_eq_nil_iff.mp split.symm
    exact ⟨[], palettes, rfl, rfl⟩
  | cons access rest inductionHypothesis =>
    obtain ⟨answer, after, performed, same⟩ := perform_iff access palettes
    rw [bigEndian_cons performed, same, inductionHypothesis, IndifferentRun]
    refine and_congr_right fun _ => ⟨fun others reply last again => ?_, fun others => others _ _ performed⟩
    obtain ⟨-, rfl⟩ := Prod.mk.inj (Except.ok.inj (performed.symm.trans again))
    exact others

/-- Every run ends. -/
theorem run_ok (palettes : PalettesMemory) (accesses : List Access) :
    ∃ answers last, run palettes accesses = .ok (answers, last) := by
  induction accesses generalizing palettes with
  | nil => exact ⟨[], palettes, rfl⟩
  | cons access rest inductionHypothesis =>
    obtain ⟨answer, after, performed, -⟩ := perform_iff access palettes
    obtain ⟨answers, last, ended⟩ := inductionHypothesis after
    exact ⟨_, last, (run_cons performed rest _ last).mpr ⟨answers, rfl, ended⟩⟩

/-- The address after an even one is in the same entry. -/
theorem entry_next {address : Uint32} (even : address.toNat % 2 = 0) :
    entry (address + 1) = entry address ∧ (address + 1).toNat % 2 = 1 := by
  have next : (address + 1).toNat = address.toNat + 1 := by bv_omega
  refine ⟨?_, by omega⟩
  rw [entry, entry, next]
  by_cases inside : 0x200 ≤ address.toNat % 0x2000 ∧ address.toNat % 0x2000 < 0x400
  · rw [if_pos inside, if_pos (by omega)]
    exact congrArg some (by omega)
  · rw [if_neg inside, if_neg (by omega)]

/-- Bytes and words agree at an address exactly if both halves of the word are equal. -/
theorem wordLaw_iff {address : Uint32} (even : address.toNat % 2 = 0) (palettes : PalettesMemory) :
    WordLaw palettes address ↔ Twin (palettes.word address) := by
  obtain ⟨same, odd⟩ := entry_next even
  have next : palettes.word (address + 1) = palettes.word address := by rw [word, word, same]
  have law : WordLaw palettes address ↔ (palettes.word address).toNat =
      (half address (palettes.word address)).toNat * 256 +
        (half (address + 1) (palettes.word address)).toNat := by
    rw [WordLaw, get16_eq, get8_eq, get8_eq, next]
    simp
  rw [law, half_toNat, half_toNat, if_neg (by omega), if_pos odd, Twin]
  omega

/-- The word at an address after one has been put. -/
theorem word_assign {address : Uint32} {i : Nat} (found : entry address = some i) (value : Uint16)
    (palettes : PalettesMemory) (other : Uint32) :
    (palettes.assign address value).word other =
      if entry other = some i then value else palettes.word other := by
  rw [assign_entry found, word]
  cases there : entry other with
  | none => rw [word, there]; rfl
  | some j =>
    by_cases same : j = i
    · subst same
      simp
    · simp [same, word, there]

/-- The law of byte writes holds in the whole text palette. -/
theorem byteLaw {address : Uint32} {i : Nat} (found : entry address = some i) (value : Uint32)
    (palettes : PalettesMemory) : ByteLaw palettes address value := by
  have written := merged_toNat address value (palettes.word address)
  have bound := (palettes.word address).isLt
  refine ⟨_, _, put8_eq _ _ _, get8_eq _ _, ?_, fun other elsewhere => ?_⟩
  · rw [word_assign found, if_pos found, half_toNat, written]
    split <;> omega
  · rw [get8_eq, get8_eq, word_assign found]
    split
    · rename_i together
      have halves : other.toNat % 2 ≠ address.toNat % 2 := by
        obtain ⟨low, -, here⟩ := entry_iff.mp found
        obtain ⟨also, -, there⟩ := entry_iff.mp together
        omega
      have same : palettes.word other = palettes.word address := by rw [word, word, found, together]
      rw [same]
      refine congrArg Except.ok (BitVec.eq_of_toNat_eq ?_)
      rw [half_toNat, half_toNat, written]
      split <;> split <;> omega
    · rfl

/-- Two byte writes leave the bytes of a word the other way round. -/
theorem merged_twice {address : Uint32} (even : address.toNat % 2 = 0) (value w : Uint16) :
    (merged (address + 1) (BitVec.ofNat 32 (value.toNat % 256))
        (merged address (BitVec.ofNat 32 (value.toNat / 256)) w)).toNat =
      value.toNat % 256 * 256 + value.toNat / 256 := by
  have bound := value.isLt
  have high : (BitVec.ofNat 32 (value.toNat / 256)).toNat % 256 = value.toNat / 256 := by
    rw [BitVec.toNat_ofNat]
    omega
  have low : (BitVec.ofNat 32 (value.toNat % 256)).toNat % 256 = value.toNat % 256 := by
    rw [BitVec.toNat_ofNat]
    omega
  rw [merged_toNat, if_pos (entry_next even).2, low, merged_toNat, if_neg (by omega), high]
  omega

/-- Both writes set the flag just if one of the word does, where they leave that word. -/
theorem splitLaw_iff {address : Uint32} {i : Nat} (found : entry address = some i)
    (even : address.toNat % 2 = 0) (value : Uint16) (palettes : PalettesMemory) :
    SplitLaw palettes address value ↔ Twin value := by
  have bound := value.isLt
  have also : entry (address + 1) = some i := (entry_next even).1.trans found
  have reversed := merged_twice even value (palettes.word address)
  have first := merged_toNat address (BitVec.ofNat 32 (value.toNat / 256)) (palettes.word address)
  rw [if_neg (by omega), BitVec.toNat_ofNat] at first
  have law : SplitLaw palettes address value ↔ palettes.assign address value =
      (palettes.assign address
        (merged address (BitVec.ofNat 32 (value.toNat / 256)) (palettes.word address))).assign
          (address + 1) (merged (address + 1) (BitVec.ofNat 32 (value.toNat % 256))
            (merged address (BitVec.ofNat 32 (value.toNat / 256)) (palettes.word address))) := by
    rw [SplitLaw, put16_eq, put8_eq]
    change _ = PalettesMemory.put8 _ _ _ (palettes.assign address _) ↔ _
    rw [put8_eq, word_assign found, if_pos also, Except.ok.injEq]
  rw [law, assign_entry found, assign_entry found, assign_entry also, PalettesMemory.mk.injEq, Twin]
  simp only [Function.update_idem, Function.update_self]
  generalize merged address (BitVec.ofNat 32 (value.toNat / 256)) (palettes.word address) = m at *
  generalize merged (address + 1) (BitVec.ofNat 32 (value.toNat % 256)) m = swapped at *
  constructor
  · rintro ⟨colors, -⟩
    have equal : value = swapped := by simpa using congrFun colors i
    have bytes := congrArg BitVec.toNat equal
    omega
  · intro twin
    obtain rfl : value = swapped := BitVec.eq_of_toNat_eq (by omega)
    refine ⟨rfl, ?_⟩
    -- If the word was there already, it is also there in between.
    by_cases there : value = palettes.tpalette i
    · obtain rfl : value = m := by
        have equal : value.toNat = (palettes.word address).toNat := by rw [word_entry found, there]
        exact BitVec.eq_of_toNat_eq (by omega)
      simp [there]
    · by_cases halfway : value = m
      · simp [there, ← halfway]
      · simp [there, halfway]

/-- The registers are big-endian exactly where the order of their bytes makes no difference:
runs of accesses, the laws of words and bytes after each run, and the registers of the CRTC. -/
theorem registers_bigEndian_iff (palettes : PalettesMemory) (accesses : List Access) :
    (BigEndian palettes accesses ↔ IndifferentRun palettes accesses) ∧
      (∃ answers last, run palettes accesses = .ok (answers, last) ∧
        (∀ address : Uint32, address.toNat % 2 = 0 →
          (WordLaw last address ↔ Twin (last.word address))) ∧
        (∀ (address value : Uint32) (i : Nat), entry address = some i → ByteLaw last address value) ∧
        ∀ (address : Uint32) (i : Nat) (value : Uint16), entry address = some i →
          address.toNat % 2 = 0 → (SplitLaw last address value ↔ Twin value)) ∧
      ∀ address : Uint32, address.toNat % 2 = 0 →
        (CrtcMemory.WordLaw address ↔ address.toNat % 0x2000 ≠ 0x28) := by
  obtain ⟨answers, last, ended⟩ := run_ok palettes accesses
  exact ⟨bigEndian_iff palettes accesses,
    ⟨answers, last, ended, fun _ even => wordLaw_iff even last,
      fun _ value _ found => byteLaw found value last,
      fun _ _ value found even => splitLaw_iff found even value last⟩,
    fun _ even => CrtcMemory.wordLaw_iff even⟩

/-- After a word is put, the byte at its even address is the low one. -/
theorem even_byte_is_low :
    ¬ BigEndian PalettesMemory.construct [.put16 0x200 0x1234, .get8 0x200] := by
  intro whole
  obtain ⟨-, rest⟩ := (bigEndian_iff _ _).mp whole
  have found : entry 0x200 = some 0 := by decide
  have performed : (Access.put16 0x200 0x1234).perform PalettesMemory.construct =
      .ok (0, PalettesMemory.construct.assign 0x200 0x1234) := by
    rw [Access.perform, put16_eq]
    rfl
  have twin : Twin ((PalettesMemory.construct.assign 0x200 0x1234).word 0x200) :=
    (rest _ _ performed).1
  rw [word_assign found, if_pos found, Twin] at twin
  exact absurd twin (by decide)

end Vx68k.RegisterBytes
