import Vx68k.TextVideo

/-!
# The font ROM

The font ROM is filled from the console: first the 256 narrow characters, at 0x3a800, then
the kanji of JIS rows 0x21 to 0x28 and 0x30 to 0x74, from the start of the ROM on. Rows 0x29
to 0x2f have no place. No bitmap is laid over another one, and each is read back.

The bytes of a new ROM are not defined, and writes by a program do nothing. The trace output
is left out.
-/

namespace Vx68k

open ByteStores

/-- The object's array; its constructor allocates 0xc0000 bytes. -/
structure FontRom where
  data : Store

namespace FontRom

/-- The number of a kanji, row after row; rows 0x29 to 0x2f do not count. -/
def linearJisx0208 (ch1 ch2 : Uint32) : Uint32 :=
  if ch1 ≥ 0x30 then (ch1 - 0x30 + 8) * 94 + (ch2 - 0x21) else (ch1 - 0x21) * 94 + (ch2 - 0x21)

/-- Where the bitmap of a narrow character of 16 rows starts. -/
def jisx0201_16Offset (ch : Uint32) : Uint32 := ch * (16 * 1) + 0x3a800

/-- Where the one of 24 rows starts. -/
def jisx0201_24Offset (ch : Uint32) : Uint32 := ch * (24 * 2) + 0x3d000

/-- Where the bitmap of a wide character of 16 rows starts. -/
def jisx0208_16Offset (ch1 ch2 : Uint32) : Uint32 := linearJisx0208 ch1 ch2 * (16 * 2)

/-- Where the one of 24 rows starts. -/
def jisx0208_24Offset (ch1 ch2 : Uint32) : Uint32 := linearJisx0208 ch1 ch2 * (24 * 3) + 0x40000

/-- Read a byte. Behind the fonts there are zeros. -/
def get8 (address : Uint32) (rom : FontRom) : Uint32 :=
  let address := address &&& 0xfffff
  if address ≥ 0xc0000 then 0 else (rom.data address.toNat).setWidth 32

/-- Read a word. Behind the fonts there are zeros. -/
def get16 (address : Uint32) (rom : FontRom) : Uint32 :=
  let address := address &&& 0xfffff
  if address ≥ 0xc0000 then 0
  else
    let i := address / 2
    BitVec.ofNat 32 (decode (slice rom.data (2 * i).toNat 2))

/-- The bytes that a console stores for a narrow character, one to a row. -/
def narrowImage (console : Console) (c : Uint32) : List Byte :=
  (List.range 16).map (console.b16Image c)

/-- The bytes that a console stores for a wide character, two to a row. -/
def wideImage (console : Console) (c : Uint32) : List Byte :=
  (List.range (16 * 2)).map (console.k16Image c)

/-- A narrow image has sixteen bytes. -/
@[simp]
theorem narrowImage_length (console : Console) (c : Uint32) : (narrowImage console c).length = 16 := by
  rw [narrowImage, List.length_map, List.length_range]

/-- A wide image has twice as many. -/
@[simp]
theorem wideImage_length (console : Console) (c : Uint32) : (wideImage console c).length = 32 := by
  rw [wideImage, List.length_map, List.length_range]

/-- A bitmap of the first loop, and where it goes. -/
def narrowCopy (console : Console) (i : Nat) : Nat × List Byte :=
  ((jisx0201_16Offset (BitVec.ofNat 32 i)).toNat, narrowImage console (BitVec.ofNat 32 i))

/-- A bitmap of the other loops, and where it goes. -/
def wideCopy (console : Console) (i j : Nat) : Nat × List Byte :=
  ((jisx0208_16Offset (BitVec.ofNat 32 i) (BitVec.ofNat 32 j)).toNat,
    wideImage console (BitVec.ofNat 32 i <<< 8 ||| BitVec.ofNat 32 j))

/-- The rows from one to before another. -/
def wideCopies (console : Console) (first last : Nat) : List (Nat × List Byte) :=
  (List.range' first (last - first)).flatMap fun i =>
    (List.range' 0x21 (0x7f - 0x21)).map fun j => wideCopy console i j

/-- The bitmaps that `copy_data` stores, in order. -/
def copies (console : Console) : List (Nat × List Byte) :=
  (List.range 0x100).map (narrowCopy console) ++
    (wideCopies console 0x21 0x29 ++ wideCopies console 0x30 0x75)

/-- Copy the console's bitmaps to their places. -/
def copyData (console : Console) (rom : FontRom) : FontRom :=
  { rom with data := layAll (copies console) rom.data }

/-- Addresses of the ROM repeat every megabyte. -/
theorem masked_toNat (address : Uint32) : (address &&& 0xfffff).toNat = address.toNat % 0x100000 :=
  and_low_toNat _ _ 20 rfl

/-- Past its array the ROM reads as zero. -/
theorem get8_eq (address : Uint32) (rom : FontRom) :
    get8 address rom =
      if 0xc0000 ≤ address.toNat % 0x100000 then 0
      else (rom.data (address.toNat % 0x100000)).setWidth 32 := by
  simp only [get8, ge_iff_le, BitVec.le_def, masked_toNat]
  rfl

/-- Words are read at even indices. -/
theorem get16_eq (address : Uint32) (rom : FontRom) :
    get16 address rom =
      if 0xc0000 ≤ address.toNat % 0x100000 then 0
      else BitVec.ofNat 32 (decode (slice rom.data (2 * (address.toNat % 0x100000 / 2)) 2)) := by
  have even : (2 * ((address &&& 0xfffff) / 2)).toNat = 2 * (address.toNat % 0x100000 / 2) := by
    rw [BitVec.toNat_mul, BitVec.toNat_udiv, masked_toNat, show (2 : Uint32).toNat = 2 from rfl]
    omega
  simp only [get16, ge_iff_le, BitVec.le_def, even, masked_toNat]
  rfl

/-- A word is the big-endian number of its two bytes. -/
theorem get16_bytes (address : Uint32) (rom : FontRom) (even : address.toNat % 2 = 0) :
    (get16 address rom).toNat =
      256 * (get8 address rom).toNat + (get8 (address + 1) rom).toNat := by
  have next : (address + 1).toNat % 0x100000 = address.toNat % 0x100000 + 1 := by bv_omega
  have same : 2 * (address.toNat % 0x100000 / 2) = address.toNat % 0x100000 := by omega
  rw [get16_eq, get8_eq, get8_eq, next, same]
  by_cases outside : 0xc0000 ≤ address.toNat % 0x100000
  · rw [if_pos outside, if_pos outside, if_pos (by omega)]
    rfl
  · have low := (rom.data (address.toNat % 0x100000)).isLt
    have high := (rom.data (address.toNat % 0x100000 + 1)).isLt
    rw [if_neg outside, if_neg outside, if_neg (by omega)]
    simp only [slice, decode, List.length_cons, List.length_nil, BitVec.toNat_ofNat,
      BitVec.toNat_setWidth]
    omega

/-- The byte at an address of the ROM. -/
theorem get8_data (rom : FontRom) (address : Uint32) (inside : address.toNat % 0x100000 < 0xc0000) :
    (get8 address rom).setWidth 8 = rom.data (address.toNat % 0x100000) := by
  rw [get8_eq, if_neg (Nat.not_le.mpr inside), BitVec.setWidth_setWidth_of_le _ (by decide),
    BitVec.setWidth_eq]

/-- The rows and cells of the kanji in the ROM. -/
def InFont (row cell : Nat) : Prop :=
  (0x21 ≤ row ∧ row ≤ 0x28 ∨ 0x30 ≤ row ∧ row ≤ 0x74) ∧ 0x21 ≤ cell ∧ cell ≤ 0x7e

/-- The place of a row among those that count. -/
def rank (row : Nat) : Nat := if 0x30 ≤ row then row - 0x30 + 8 else row - 0x21

/-- The place of a narrow bitmap does not wrap. -/
theorem jisx0201_16Offset_toNat {i : Nat} (small : i < 0x100) :
    (jisx0201_16Offset (BitVec.ofNat 32 i)).toNat = i * 16 + 0x3a800 := by
  rw [jisx0201_16Offset, show (16 * 1 : Uint32) = 16 from rfl]
  bv_omega

/-- Nor does that of a wide one. -/
theorem jisx0208_16Offset_toNat {row cell : Nat} (inside : InFont row cell) :
    (jisx0208_16Offset (BitVec.ofNat 32 row) (BitVec.ofNat 32 cell)).toNat =
      (rank row * 94 + (cell - 0x21)) * 32 := by
  obtain ⟨rows, cells⟩ := inside
  rw [jisx0208_16Offset, linearJisx0208, rank, show (16 * 2 : Uint32) = 32 from rfl]
  by_cases high : 0x30 ≤ row
  · rw [if_pos high, if_pos (by bv_omega)]
    bv_omega
  · rw [if_neg high, if_neg (by bv_omega)]
    bv_omega

/-- Rows that count have ranks in their order, up to 76. -/
theorem rank_lt {row later : Nat} (order : row < later) (low : 0x21 ≤ row)
    (kanji : row ≤ 0x28 ∨ 0x30 ≤ row) (laterKanji : later ≤ 0x28 ∨ 0x30 ≤ later) :
    rank row < rank later := by
  unfold rank
  split
  · rw [if_pos (by omega)]
    omega
  · split
    · omega
    · omega

/-- Narrow bitmaps take sixteen bytes each from 0x3a800 on. -/
theorem narrowCopy_span (console : Console) {i : Nat} (small : i < 0x100) :
    (narrowCopy console i).1 = i * 16 + 0x3a800 ∧ (narrowCopy console i).2.length = 16 :=
  ⟨jisx0201_16Offset_toNat small, narrowImage_length _ _⟩

/-- Wide bitmaps take 32 bytes each from the start on. -/
theorem wideCopy_span (console : Console) {row cell : Nat} (inside : InFont row cell) :
    (wideCopy console row cell).1 = (rank row * 94 + (cell - 0x21)) * 32 ∧
      (wideCopy console row cell).2.length = 32 :=
  ⟨jisx0208_16Offset_toNat inside, wideImage_length _ _⟩

/-- The bitmaps of some rows are those of the cells in them. -/
theorem mem_wideCopies {console : Console} {first last : Nat} {copy : Nat × List Byte} :
    copy ∈ wideCopies console first last ↔
      ∃ row cell, first ≤ row ∧ row < last ∧ 0x21 ≤ cell ∧ cell ≤ 0x7e ∧
        copy = wideCopy console row cell := by
  simp only [wideCopies, List.mem_flatMap, List.mem_map, List.mem_range'_1]
  constructor
  · rintro ⟨row, ⟨low, high⟩, cell, ⟨left, right⟩, rfl⟩
    exact ⟨row, cell, low, by omega, left, by omega, rfl⟩
  · rintro ⟨row, cell, low, high, left, right, rfl⟩
    exact ⟨row, ⟨low, by omega⟩, cell, ⟨left, by omega⟩, rfl⟩

/-- One bitmap ends before another one begins. -/
def Before (earlier later : Nat × List Byte) : Prop := earlier.1 + earlier.2.length ≤ later.1

/-- A cell's bitmap lies before those of later cells of its row and those of later rows. -/
theorem wideCopy_before (console : Console) {row cell laterRow laterCell : Nat}
    (inside : InFont row cell) (laterInside : InFont laterRow laterCell)
    (order : row < laterRow ∨ row = laterRow ∧ cell < laterCell) :
    Before (wideCopy console row cell) (wideCopy console laterRow laterCell) := by
  obtain ⟨start, length⟩ := wideCopy_span console inside
  obtain ⟨laterStart, -⟩ := wideCopy_span console laterInside
  obtain ⟨rows, left, right⟩ := inside
  obtain ⟨laterRows, laterLeft, laterRight⟩ := laterInside
  rw [Before, start, length, laterStart]
  rcases order with later | ⟨rfl, later⟩
  · have rank := rank_lt later (by omega) (by omega) (by omega)
    omega
  · omega

/-- The bitmaps of the rows from one to before another follow one another. -/
theorem wideCopies_ordered (console : Console) (first last : Nat)
    (kanji : ∀ row, first ≤ row → row < last → 0x21 ≤ row ∧ row ≤ 0x28 ∨ 0x30 ≤ row ∧ row ≤ 0x74) :
    (wideCopies console first last).Pairwise Before := by
  apply List.pairwise_flatMap.mpr
  constructor
  · intro row member
    obtain ⟨low, high⟩ := List.mem_range'_1.mp member
    have rows := kanji row low (by omega)
    apply List.pairwise_map.mpr
    apply List.Pairwise.imp_of_mem _ List.pairwise_lt_range'
    intro cell laterCell member laterMember order
    obtain ⟨left, right⟩ := List.mem_range'_1.mp member
    obtain ⟨laterLeft, laterRight⟩ := List.mem_range'_1.mp laterMember
    exact wideCopy_before console ⟨rows, left, by omega⟩ ⟨rows, laterLeft, by omega⟩
      (Or.inr ⟨rfl, order⟩)
  · apply List.Pairwise.imp_of_mem _ List.pairwise_lt_range'
    intro row laterRow member laterMember order copy copied later laterCopied
    obtain ⟨low, high⟩ := List.mem_range'_1.mp member
    obtain ⟨laterLow, laterHigh⟩ := List.mem_range'_1.mp laterMember
    obtain ⟨cell, cells, rfl⟩ := List.mem_map.mp copied
    obtain ⟨laterCell, laterCells, rfl⟩ := List.mem_map.mp laterCopied
    obtain ⟨left, right⟩ := List.mem_range'_1.mp cells
    obtain ⟨laterLeft, laterRight⟩ := List.mem_range'_1.mp laterCells
    exact wideCopy_before console ⟨kanji row low (by omega), left, by omega⟩
      ⟨kanji laterRow laterLow (by omega), laterLeft, by omega⟩ (Or.inl order)

/-- The bitmaps in the ROM are those of the narrow characters and of the kanji with a place. -/
theorem mem_copies {console : Console} {copy : Nat × List Byte} :
    copy ∈ copies console ↔ (∃ i, i < 0x100 ∧ copy = narrowCopy console i) ∨
      ∃ row cell, InFont row cell ∧ copy = wideCopy console row cell := by
  simp only [copies, List.mem_append, List.mem_map, List.mem_range, mem_wideCopies]
  constructor
  · rintro (⟨i, small, rfl⟩ | ⟨row, cell, low, high, left, right, rfl⟩ |
      ⟨row, cell, low, high, left, right, rfl⟩)
    · exact Or.inl ⟨i, small, rfl⟩
    · exact Or.inr ⟨row, cell, ⟨Or.inl ⟨low, by omega⟩, left, right⟩, rfl⟩
    · exact Or.inr ⟨row, cell, ⟨Or.inr ⟨low, by omega⟩, left, right⟩, rfl⟩
  · rintro (⟨i, small, rfl⟩ | ⟨row, cell, ⟨⟨low, high⟩ | ⟨low, high⟩, left, right⟩, rfl⟩)
    · exact Or.inl ⟨i, small, rfl⟩
    · exact Or.inr (Or.inl ⟨row, cell, low, by omega, left, right, rfl⟩)
    · exact Or.inr (Or.inr ⟨row, cell, low, by omega, left, right, rfl⟩)

/-- The kanji end before the narrow characters begin. -/
theorem wideCopy_below (console : Console) {row cell : Nat} (inside : InFont row cell) :
    (wideCopy console row cell).1 + (wideCopy console row cell).2.length ≤ 0x3a800 := by
  obtain ⟨start, length⟩ := wideCopy_span console inside
  obtain ⟨rows, left, right⟩ := inside
  have place : rank row ≤ 76 := by
    unfold rank
    split
    · omega
    · omega
  omega

/-- Every bitmap lies in the ROM. -/
theorem copies_inside {console : Console} {copy : Nat × List Byte} (member : copy ∈ copies console) :
    copy.1 + copy.2.length ≤ 0xc0000 := by
  rcases mem_copies.mp member with ⟨i, small, rfl⟩ | ⟨row, cell, inside, rfl⟩
  · obtain ⟨start, length⟩ := narrowCopy_span console small
    omega
  · exact Nat.le_trans (wideCopy_below console inside) (by decide)

/-- No two bitmaps overlap. -/
theorem copies_apart (console : Console) : (copies console).Pairwise Apart := by
  have low := wideCopies_ordered console 0x21 0x29 fun row _ _ => Or.inl ⟨by omega, by omega⟩
  have high := wideCopies_ordered console 0x30 0x75 fun row _ _ => Or.inr ⟨by omega, by omega⟩
  rw [copies, List.pairwise_append, List.pairwise_append]
  refine ⟨?_, ⟨low.imp Or.inl, high.imp Or.inl, ?_⟩, ?_⟩
  · apply List.pairwise_map.mpr
    apply List.Pairwise.imp_of_mem _ List.pairwise_lt_range
    intro i later member laterMember order
    obtain ⟨start, length⟩ := narrowCopy_span console (List.mem_range.mp member)
    obtain ⟨laterStart, -⟩ := narrowCopy_span console (List.mem_range.mp laterMember)
    exact Or.inl (by omega)
  · intro copy member later laterMember
    obtain ⟨row, cell, above, below, left, right, rfl⟩ := mem_wideCopies.mp member
    obtain ⟨laterRow, laterCell, laterAbove, laterBelow, laterLeft, laterRight, rfl⟩ :=
      mem_wideCopies.mp laterMember
    exact Or.inl (wideCopy_before console ⟨Or.inl ⟨above, by omega⟩, left, right⟩
      ⟨Or.inr ⟨laterAbove, by omega⟩, laterLeft, laterRight⟩ (Or.inl (by omega)))
  · intro copy member later laterMember
    obtain ⟨i, small, rfl⟩ := List.mem_map.mp member
    obtain ⟨start, -⟩ := narrowCopy_span console (List.mem_range.mp small)
    rw [List.mem_append, mem_wideCopies, mem_wideCopies] at laterMember
    rcases laterMember with ⟨row, cell, first, last, left, right, rfl⟩ |
      ⟨row, cell, first, last, left, right, rfl⟩
    · have below := wideCopy_below console ⟨Or.inl ⟨first, by omega⟩, left, right⟩
      exact Or.inr (by omega)
    · have below := wideCopy_below console ⟨Or.inr ⟨first, by omega⟩, left, right⟩
      exact Or.inr (by omega)

/-- After `copy_data` every bitmap is in its place. -/
theorem copyData_slice (console : Console) (rom : FontRom) {copy : Nat × List Byte}
    (member : copy ∈ copies console) :
    slice (copyData console rom).data copy.1 copy.2.length = copy.2 := by
  have apart := copies_apart console
  unfold copyData
  generalize copies console = runs at apart member
  exact slice_layAll runs rom.data copy apart member

end FontRom

end Vx68k
