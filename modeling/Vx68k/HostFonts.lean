import Vx68k.ConsoleGlyphs

/-!
# The fonts of the window system

The console draws each of its fonts into pixmaps, reads their pixels back and packs them into
an array of bytes: sixteen bytes for each narrow character, and for each row of the wide ones
94 times sixteen pairs. `get_b16_image` and `get_k16_image` look up bitmaps in these arrays.

What the window system draws is a parameter.
-/

namespace Vx68k.HostFonts

open ByteStores TextVideoMemory ConsoleGlyphs

/-- The pixels of an image, by column and row. -/
abbrev GdkImage := Nat → Nat → Uint32

section Blocks

variable {α β : Type}

/-- Blocks of one length, one after the other: an element is found by its block and its place
in it. -/
theorem flatMap_block {f : α → List β} {size : Nat} (uniform : ∀ a, (f a).length = size) (xs : List α)
    (block : Nat) {place : Nat} (inside : place < size) :
    (xs.flatMap f)[block * size + place]? = xs[block]?.bind fun a => (f a)[place]? := by
  induction xs generalizing block with
  | nil => simp
  | cons a rest inductionHypothesis =>
    rw [List.flatMap_cons]
    cases block with
    | zero =>
      rw [Nat.zero_mul, Nat.zero_add, List.getElem?_append_left (by rw [uniform]; exact inside)]
      rfl
    | succ block =>
      have length := uniform a
      rw [List.getElem?_append_right (by rw [length, Nat.succ_mul]; omega), length,
        List.getElem?_cons_succ, ← inductionHypothesis]
      congr 1
      rw [Nat.succ_mul]
      omega

/-- The length of blocks of one length. -/
theorem flatMap_length {f : α → List β} {size : Nat} (uniform : ∀ a, (f a).length = size) (xs : List α) :
    (xs.flatMap f).length = xs.length * size := by
  induction xs with
  | nil => rw [List.flatMap_nil, List.length_nil, List.length_nil, Nat.zero_mul]
  | cons a rest inductionHypothesis =>
    rw [List.flatMap_cons, List.length_append, uniform, inductionHypothesis, List.length_cons,
      Nat.succ_mul, Nat.add_comm]

end Blocks

/-- Pack eight pixels of a row, from a column on. -/
def packRow (pi : GdkImage) (first i : Nat) : Byte :=
  ((List.range 8).foldl (fun (d : Uint32) j =>
    if pi (first + j) i ≠ 0 then d ||| 0x80#32 >>> j else d) 0).setWidth 8

/-- The array of the narrow font, from a pixmap with its characters below each other. -/
def base16FontArray (pi : GdkImage) : List Byte := (List.range (256 * 16)).map (packRow pi 0)

/-- The array of the wide font, from a pixmap for each first byte. -/
def kanji16FontArray (pi : Nat → GdkImage) : List Byte :=
  (List.range' 0x21 94).flatMap fun h => (List.range (94 * 16)).flatMap fun i =>
    [packRow (pi h) 0 i, packRow (pi h) 8 i]

/-- The fonts of a `gtk_console`, which are null before they have been drawn. -/
structure GtkFonts where
  primaryFont : Option (List Byte)
  kanji16Font : Option (List Byte)

/-- A byte that `get_b16_image` stores, if it stores any. Outside of the array it is undefined. -/
def getB16Image (fonts : GtkFonts) (c : Uint32) (i : Nat) : Option Byte := do
  let primaryFont ← fonts.primaryFont
  primaryFont[(c * 16 + BitVec.ofNat 32 i).toNat]?

/-- A byte that `get_k16_image` stores, the first or the second one of a row. -/
def getK16Image (fonts : GtkFonts) (c : Uint32) (i column : Nat) : Option Byte := do
  let kanji16Font ← fonts.kanji16Font
  let h := c >>> 8
  let l := c &&& 0xff
  let p := (h - 0x21) * 94 + (l - 0x21)
  kanji16Font[((p * 16 + BitVec.ofNat 32 i) * 2 + BitVec.ofNat 32 column).toNat]?

/-- The bit that a turn of the packing sets. -/
theorem mask_bit {j : Nat} (inside : j < 8) (bit : Nat) :
    (0x80#32 >>> j).getLsbD bit = decide (bit = 7 - j) := by
  have power : (0x80#32 : Uint32) = BitVec.twoPow 32 7 := by decide
  have place : 7 = j + bit ↔ bit = 7 - j := by omega
  rw [BitVec.getLsbD_ushiftRight, power, BitVec.getLsbD_twoPow]
  simp [place]

/-- A pixel of a packed row. -/
theorem packRow_bit (pi : GdkImage) (first i : Nat) {j : Nat} (inside : j < 8) :
    (packRow pi first i).getLsbD (7 - j) = decide (pi (first + j) i ≠ 0) := by
  have packed (count bit : Nat) (fits : count ≤ 8) :
      ((List.range count).foldl (fun (d : Uint32) j =>
        if pi (first + j) i ≠ 0 then d ||| 0x80#32 >>> j else d) 0).getLsbD bit =
        decide (bit < 8 ∧ 7 - bit < count ∧ pi (first + (7 - bit)) i ≠ 0) := by
    induction count with
    | zero => simp
    | succ count inductionHypothesis =>
      have before := inductionHypothesis (by omega)
      rw [List.range_succ, List.foldl_append, List.foldl_cons, List.foldl_nil]
      by_cases set : pi (first + count) i ≠ 0
      · rw [if_pos set, BitVec.getLsbD_or, before, mask_bit (by omega), ← Bool.decide_or,
          decide_eq_decide]
        constructor
        · rintro (⟨low, earlier, some⟩ | rfl)
          · exact ⟨low, by omega, some⟩
          · refine ⟨by omega, by omega, ?_⟩
            rwa [show 7 - (7 - count) = count by omega]
        · rintro ⟨low, earlier, some⟩
          by_cases here : 7 - bit = count
          · exact Or.inr (by omega)
          · exact Or.inl ⟨low, by omega, some⟩
      · rw [if_neg set, before, decide_eq_decide]
        constructor
        · rintro ⟨low, earlier, some⟩
          exact ⟨low, by omega, some⟩
        · rintro ⟨low, earlier, some⟩
          have other : 7 - bit ≠ count := by
            rintro rfl
            exact set some
          exact ⟨low, by omega, some⟩
  rw [packRow, BitVec.getLsbD_setWidth, packed 8 _ (Nat.le_refl 8)]
  have place : 7 - (7 - j) = j := by omega
  simp only [place]
  have low : 7 - j < 8 := by omega
  simp [low, inside]

/-- The fonts after they have been drawn. -/
def drawn (narrow : GdkImage) (wide : Nat → GdkImage) : GtkFonts :=
  ⟨some (base16FontArray narrow), some (kanji16FontArray wide)⟩

variable {narrow : GdkImage} {wide : Nat → GdkImage}

/-- The narrow bitmap of a code is packed from its place in the narrow pixmap. -/
theorem getB16Image_drawn {c : Uint32} (small : c.toNat < 0x100) {i : Nat} (inside : i < 16) :
    getB16Image (drawn narrow wide) c i = some (packRow narrow 0 (c.toNat * 16 + i)) := by
  have index : (c * 16 + BitVec.ofNat 32 i).toNat = c.toNat * 16 + i := by bv_omega
  have within : c.toNat * 16 + i < 256 * 16 := by omega
  simp only [getB16Image, drawn, Option.bind_eq_bind, Option.bind_some, index]
  rw [base16FontArray, List.getElem?_map, List.getElem?_range within, Option.map_some]

/-- The bytes of an existing cell. -/
theorem getK16Image_drawn {request : Uint32} (inTable : InTable request) {i column : Nat}
    (inside : i < 16) (half : column < 2) :
    getK16Image (drawn narrow wide) request i column =
      some (packRow (wide (request >>> 8).toNat) (8 * column)
        (((request &&& 0xff).toNat - 0x21) * 16 + i)) := by
  obtain ⟨⟨rowLow, rowHigh⟩, cellLow, cellHigh⟩ := inTable
  simp only [getK16Image, drawn, Option.bind_eq_bind, Option.bind_some]
  generalize request >>> 8 = h at rowLow rowHigh ⊢
  generalize request &&& 0xff = l at cellLow cellHigh ⊢
  have row : (h - 0x21).toNat = h.toNat - 0x21 := by bv_omega
  have cell : (l - 0x21).toNat = l.toNat - 0x21 := by bv_omega
  have lowRow : 0x21 ≤ h.toNat ∧ h.toNat ≤ 0x7e := ⟨rowLow, rowHigh⟩
  have lowCell : 0x21 ≤ l.toNat ∧ l.toNat ≤ 0x7e := ⟨cellLow, cellHigh⟩
  have number : ((((h - 0x21) * 94 + (l - 0x21)) * 16 + BitVec.ofNat 32 i) * 2 +
      BitVec.ofNat 32 column).toNat =
        (h.toNat - 0x21) * 3008 + (((l.toNat - 0x21) * 16 + i) * 2 + column) := by
    have lines : ((h - 0x21) * 94 + (l - 0x21)).toNat = (h.toNat - 0x21) * 94 + (l.toNat - 0x21) := by
      have rows : ((h - 0x21) * 94).toNat = (h.toNat - 0x21) * 94 := by
        rw [BitVec.toNat_mul_of_lt] <;> rw [row]
        · rfl
        · change (h.toNat - 0x21) * 94 < 4294967296
          omega
      rw [BitVec.toNat_add_of_lt] <;> rw [rows, cell]
      omega
    generalize (h - 0x21) * 94 + (l - 0x21) = place at lines
    bv_omega
  have there : (List.range' 0x21 94)[h.toNat - 0x21]? = some h.toNat := by
    rw [List.getElem?_range' (by bv_omega)]
    congr 1
    bv_omega
  have line : (List.range (94 * 16))[(l.toNat - 0x21) * 16 + i]? = some ((l.toNat - 0x21) * 16 + i) :=
    List.getElem?_range (by bv_omega)
  have pair (h i : Nat) : [packRow (wide h) 0 i, packRow (wide h) 8 i].length = 2 := rfl
  have rowLength (h : Nat) : ((List.range (94 * 16)).flatMap fun i =>
      [packRow (wide h) 0 i, packRow (wide h) 8 i]).length = 3008 := by
    rw [flatMap_length (pair h), List.length_range]
  rw [number, kanji16FontArray, flatMap_block rowLength _ _ (by omega), there, Option.bind_some,
    flatMap_block (pair h.toNat) _ _ half, line, Option.bind_some]
  interval_cases column <;> rfl

/-- The console with these fonts. Where `get_b16_image` and `get_k16_image` store nothing, the
bitmap has zeros. -/
def console (fonts : GtkFonts) : Console :=
  ⟨fun c row => (getB16Image fonts c row).getD 0,
    fun c index => (getK16Image fonts c (index / 2) (index % 2)).getD 0⟩

/-- A code of Shift-JIS for a kanji. -/
structure ShiftJis (code : Uint16) : Prop where
  lead : LeadsKanji (code.toNat / 0x100)
  trail : 0x40 ≤ code.toNat % 0x100 ∧ code.toNat % 0x100 ≤ 0xfc
  skips : code.toNat % 0x100 ≠ 0x7f

/-- A cell of a table of 94 rows of 94 cells. -/
structure Cell (row cell : Nat) : Prop where
  row : 0x21 ≤ row ∧ row ≤ 0x7e
  cell : 0x21 ≤ cell ∧ cell ≤ 0x7e

/-- The code of Shift-JIS of a cell. -/
def encodeCell (row cell : Nat) : Uint16 :=
  let pair := (row - 0x21) / 2
  let place := cell - 0x21 + (row - 0x21) % 2 * 94
  BitVec.ofNat 16 ((if pair < 31 then pair + 0x81 else pair + 0xc1) * 0x100 +
    (if place < 63 then place + 0x40 else place + 0x41))

/-- The bytes of the code of a cell. -/
theorem encodeCell_toNat {row cell : Nat} (inside : Cell row cell) :
    (encodeCell row cell).toNat / 0x100 =
        (if (row - 0x21) / 2 < 31 then (row - 0x21) / 2 + 0x81 else (row - 0x21) / 2 + 0xc1) ∧
      (encodeCell row cell).toNat % 0x100 =
        (if cell - 0x21 + (row - 0x21) % 2 * 94 < 63 then cell - 0x21 + (row - 0x21) % 2 * 94 + 0x40
          else cell - 0x21 + (row - 0x21) % 2 * 94 + 0x41) := by
  obtain ⟨rows, cells⟩ := inside
  have lead : (if (row - 0x21) / 2 < 31 then (row - 0x21) / 2 + 0x81 else (row - 0x21) / 2 + 0xc1) ≤
      0xef := by
    split <;> omega
  have trail : (if cell - 0x21 + (row - 0x21) % 2 * 94 < 63 then
      cell - 0x21 + (row - 0x21) % 2 * 94 + 0x40
        else cell - 0x21 + (row - 0x21) % 2 * 94 + 0x41) ≤ 0xfc := by
    split <;> omega
  simp only [encodeCell, BitVec.toNat_ofNat]
  generalize (if (row - 0x21) / 2 < 31 then (row - 0x21) / 2 + 0x81 else (row - 0x21) / 2 + 0xc1) =
    first at lead ⊢
  generalize (if cell - 0x21 + (row - 0x21) % 2 * 94 < 63 then _ else _) = second at trail ⊢
  omega

/-- The code of a cell is one of Shift-JIS. -/
theorem encodeCell_shiftJis {row cell : Nat} (inside : Cell row cell) : ShiftJis (encodeCell row cell) := by
  obtain ⟨lead, trail⟩ := encodeCell_toNat inside
  obtain ⟨rows, cells⟩ := inside
  refine ⟨?_, ?_, ?_⟩
  · rw [lead]
    unfold LeadsKanji
    split <;> omega
  · rw [trail]
    split <;> omega
  · rw [trail]
    split <;> omega

/-- A code of Shift-JIS is decoded to a cell exactly if its bytes are those of the cell's code. -/
theorem codeBytes_iff {code : Uint16} (kanji : ShiftJis code) {row cell : Nat} (inside : Cell row cell) :
    codeBytes (code.setWidth 32) = ((row : Int), (cell : Int)) ↔
      code.toNat / 0x100 = (encodeCell row cell).toNat / 0x100 ∧
        code.toNat % 0x100 = (encodeCell row cell).toNat % 0x100 := by
  obtain ⟨lead, trail⟩ := encodeCell_toNat inside
  obtain ⟨rows, cells⟩ := inside
  obtain ⟨leads, trails, skips⟩ := kanji
  have number : (code.setWidth 32).toNat = code.toNat := BitVec.toNat_setWidth_of_le (by decide)
  have bound := code.isLt
  have high : ((code.toNat : Nat) : Int) / 256 % 256 = (code.toNat / 0x100 : Nat) := by omega
  have low : ((code.toNat : Nat) : Int) % 256 = (code.toNat % 0x100 : Nat) := by omega
  rw [lead, trail, codeBytes, number, high, low]
  unfold LeadsKanji at leads
  generalize code.toNat / 0x100 = first at leads
  generalize code.toNat % 0x100 = second at trails skips
  dsimp only
  rw [if_pos (by omega), Prod.mk.injEq]
  by_cases near : (row - 0x21) / 2 < 31 <;>
    by_cases early : cell - 0x21 + (row - 0x21) % 2 * 94 < 63 <;>
      simp only [near, early, ↓reduceIte] <;> split <;> split <;> omega

/-- Shift-JIS is read exactly: every cell of the table has one code of Shift-JIS that is decoded
to it, and no other one. -/
theorem shift_jis_exact {row cell : Nat} (inside : Cell row cell) :
    ∃! code : Uint16, ShiftJis code ∧ codeBytes (code.setWidth 32) = ((row : Int), (cell : Int)) := by
  refine ⟨encodeCell row cell, ⟨encodeCell_shiftJis inside,
    (codeBytes_iff (encodeCell_shiftJis inside) inside).mpr ⟨rfl, rfl⟩⟩, ?_⟩
  rintro other ⟨otherKanji, decoded⟩
  obtain ⟨sameLead, sameTrail⟩ := (codeBytes_iff otherKanji inside).mp decoded
  apply BitVec.eq_of_toNat_eq
  omega

/-- The first cell of row 0x30. -/
theorem shift_jis_exact_first : ∃! code : Uint16, ShiftJis code ∧
    codeBytes (code.setWidth 32) = (((0x30 : Nat) : Int), ((0x21 : Nat) : Int)) :=
  shift_jis_exact (⟨by decide, by decide⟩ : Cell 0x30 0x21)

/-- The request for the bitmap of a cell, as a number. -/
theorem request_toNat {row cell : Nat} (inside : Cell row cell) :
    (BitVec.ofInt 32 (row : Int) <<< 8 ||| BitVec.ofInt 32 (cell : Int)).toNat = row * 0x100 + cell := by
  obtain ⟨rows, cells⟩ := inside
  have sum : row <<< 8 ||| cell = row * 0x100 + cell := by
    rw [← Nat.shiftLeft_add_eq_or_of_lt (by omega), Nat.shiftLeft_eq]
  rw [BitVec.toNat_or, BitVec.toNat_shiftLeft, BitVec.ofInt_natCast, BitVec.ofInt_natCast,
    BitVec.toNat_ofNat, BitVec.toNat_ofNat, Nat.mod_eq_of_lt (by omega : row < 2 ^ 32),
    Nat.mod_eq_of_lt (by omega : cell < 2 ^ 32), Nat.mod_eq_of_lt (by rw [Nat.shiftLeft_eq]; omega), sum]

/-- The request for the bitmap of a cell. -/
theorem request_cell {row cell : Nat} (inside : Cell row cell) :
    let request := BitVec.ofInt 32 (row : Int) <<< 8 ||| BitVec.ofInt 32 (cell : Int)
    InTable request ∧ (request >>> 8).toNat = row ∧ (request &&& 0xff).toNat = cell := by
  have number := request_toNat inside
  obtain ⟨rows, cells⟩ := inside
  have inTable := (@request_inTable row cell (by omega) (by omega)).mpr (by omega)
  refine ⟨inTable, ?_, ?_⟩
  · rw [BitVec.toNat_ushiftRight, number, Nat.shiftRight_eq_div_pow]
    omega
  · rw [and_low_toNat _ _ 8 rfl, number]
    omega

/-- A code of one byte is drawn one column wide, with the narrow bitmap of the code. -/
theorem glyph_narrow (console : Console) {code : Uint16} (short : code.toNat < 0x100) :
    glyph console (code.setWidth 32) =
      ⟨1, fun row _ => console.b16Image (BitVec.ofNat 32 code.toNat) row⟩ := by
  have number : (code.setWidth 32).toNat = code.toNat := BitVec.toNat_setWidth_of_le (by decide)
  have high : ((code.toNat : Nat) : Int) / 256 % 256 = 0 := by omega
  have low : ((code.toNat : Nat) : Int) % 256 = (code.toNat : Nat) := by omega
  simp [glyph, codeBytes, number, high, low]

/-- A code that is decoded to a cell is drawn two columns wide, with the wide bitmap of the
cell. -/
theorem glyph_wide (console : Console) {c : Uint32} {row cell : Nat} (inside : Cell row cell)
    (bytes : codeBytes c = ((row : Int), (cell : Int))) :
    glyph console c = ⟨2, fun line column => console.k16Image
      (BitVec.ofInt 32 (row : Int) <<< 8 ||| BitVec.ofInt 32 (cell : Int)) (2 * line + column)⟩ := by
  have rows := inside.row
  simp only [glyph, bytes]
  rw [if_pos (by omega)]

/-- What the window system has drawn is what the console draws. For all pixmaps of the fonts: a
one-byte code is drawn with the eight by sixteen pixels below each other in the narrow pixmap, and
a code of a cell of the table with the sixteen by sixteen pixels of the cell in the pixmap of its
row. -/
theorem characters_drawn_as_host (narrow : GdkImage) (wide : Nat → GdkImage) (code : Uint16) :
    let drawnGlyph := glyph (console (drawn narrow wide)) (code.setWidth 32)
    (code.toNat < 0x100 → drawnGlyph.columns = 1 ∧ ∀ line x, line < 16 → x < 8 →
      (drawnGlyph.pixels line 0).getLsbD (7 - x) = decide (narrow x (code.toNat * 16 + line) ≠ 0)) ∧
    ∀ row cell : Nat, Cell row cell → codeBytes (code.setWidth 32) = ((row : Int), (cell : Int)) →
      drawnGlyph.columns = 2 ∧ ∀ line x, line < 16 → x < 16 →
        (drawnGlyph.pixels line (x / 8)).getLsbD (7 - x % 8) =
          decide (wide row x ((cell - 0x21) * 16 + line) ≠ 0) := by
  intro drawnGlyph
  constructor
  · intro short
    have same := glyph_narrow (console (drawn narrow wide)) short
    rw [show drawnGlyph = _ from same]
    refine ⟨rfl, fun line x inLines inRow => ?_⟩
    have image : (console (drawn narrow wide)).b16Image (BitVec.ofNat 32 code.toNat) line =
        packRow narrow 0 (code.toNat * 16 + line) := by
      have small : (BitVec.ofNat 32 code.toNat).toNat = code.toNat := by
        rw [BitVec.toNat_ofNat, Nat.mod_eq_of_lt (by omega)]
      simp only [console, getB16Image_drawn (by rw [small]; exact short) inLines, small, Option.getD_some]
    dsimp only
    rw [image, packRow_bit _ _ _ inRow, Nat.zero_add]
  · intro row cell inside bytes
    obtain ⟨inTable, rowByte, cellByte⟩ := request_cell inside
    have same := glyph_wide (console (drawn narrow wide)) inside bytes
    rw [show drawnGlyph = _ from same]
    refine ⟨rfl, fun line x inLines inRow => ?_⟩
    have half : (2 * line + x / 8) / 2 = line ∧ (2 * line + x / 8) % 2 = x / 8 := by omega
    simp only [console, half.1, half.2, getK16Image_drawn inTable inLines (by omega : x / 8 < 2), rowByte,
      cellByte, Option.getD_some]
    rw [packRow_bit _ _ _ (Nat.mod_lt x (by decide)), Nat.div_add_mod]

end Vx68k.HostFonts
