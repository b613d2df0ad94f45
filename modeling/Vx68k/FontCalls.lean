import Vx68k.FontRom

/-!
# The font call of the IOCS

`_FNTGET` decodes a character code as the text screen does, but with unsigned integers, reads
the bitmap from the font ROM and stores its size and its bytes at an address. After the ROM
has been filled from a console, these are the bytes that the screen paints.

The address space maps the font ROM at 0xf00000; this and the accesses are a class. The
messages on the error stream are left out.
-/

namespace Vx68k

open Programs ByteStores Buffers

/-- An address space with the font ROM at 0xf00000. Blocks are read from it byte by byte, and
storing words leaves it as it is. -/
class FontBus (M : Type) [Bus M] [WordBus M] where
  font : M → FontRom
  read : M → Uint32 → Nat → Except Thrown (List Byte)
  read_font : ∀ memory address count, 0xf00000 ≤ address.toNat → address.toNat + count ≤ 0xfc0000 →
    read memory address count = .ok ((List.range count).map fun index =>
      (FontRom.get8 (address + BitVec.ofNat 32 index) (font memory)).setWidth 8)
  put16_font : ∀ address value (memory after : M),
    WordBus.put16 address value memory = (.ok (), after) → font after = font memory

/-- The part of a `context` that `_FNTGET` works on. -/
structure IocsContext (M : Type) where
  mem : M
  d1 : Uint32
  a1 : Uint32

namespace FontCalls

/-- A call of the guest's. -/
abbrev Method (M α : Type) := Program Thrown (IocsContext M) α

/-- The conversion of a Shift-JIS kanji to JIS; the bytes of other codes are kept. -/
def jisBytes (ch1 ch2 : Uint32) : Uint32 × Uint32 :=
  if ch1 ≥ 0x81 ∧ ch1 ≤ 0x9f ∨ ch1 ≥ 0xe0 ∧ ch1 ≤ 0xef then
    let ch1 := if ch1 ≥ 0xe0 then ch1 - (0x81 + (0xe0 - 0xa0)) else ch1 - 0x81
    let ch2 := if ch2 ≥ 0x80 then ch2 - (0x40 + 1) else ch2 - 0x40
    let ch1 := ch1 * 2
    if ch2 ≥ 94 then (ch1 + 1 + 0x21, ch2 - 94 + 0x21) else (ch1 + 0x21, ch2 + 0x21)
  else (ch1, ch2)

variable {M : Type} [Bus M] [WordBus M] [FontBus M]

/-- A write to the address space. -/
def access (operation : M → Ending Thrown M Unit) : Method M Unit :=
  .zoom IocsContext.mem (fun mem context => { context with mem := mem }) (.atomic operation)

/-- Read a block into a buffer. -/
def read (address : Uint32) (count : Nat) : Method M (List Byte) :=
  .atomic fun context => (FontBus.read context.mem address count, context)

/-- Store the size of a bitmap and a number of its bytes. -/
def storeBitmap (i width height source : Uint32) (count : Nat) : Method M Unit := do
  access (WordBus.put16 i width)
  access (WordBus.put16 (i + 2) height)
  let buf ← read source count
  access (Bus.write (i + 4) buf)

/-- Size 6 only prints a message. -/
def iocsFntget : Method M Unit := do
  let context ← .state
  let sizeCh := context.d1
  let i := context.a1
  let (ch1, ch2) := jisBytes (sizeCh >>> 8 &&& 0xff) (sizeCh &&& 0xff)
  if ch1 ≥ 0x21 ∧ ch1 ≤ 0x7e then
    if sizeCh >>> 16 = 6 then pure ()
    else if sizeCh >>> 16 = 12 then
      storeBitmap i 24 24 (0xf00000 + FontRom.jisx0208_24Offset ch1 ch2) (24 * 3)
    else storeBitmap i 16 16 (0xf00000 + FontRom.jisx0208_16Offset ch1 ch2) (16 * 2)
  else
    if sizeCh >>> 16 = 6 then pure ()
    else if sizeCh >>> 16 = 12 then
      storeBitmap i 12 24 (0xf00000 + FontRom.jisx0201_24Offset ch2) (24 * 2)
    else storeBitmap i 8 16 (0xf00000 + FontRom.jisx0201_16Offset ch2) (16 * 1)

/-- The lead and trail bytes of Shift-JIS. -/
def ShiftJis (lead trail : Nat) : Prop :=
  (0x81 ≤ lead ∧ lead ≤ 0x9f ∨ 0xe0 ≤ lead ∧ lead ≤ 0xef) ∧
    (0x40 ≤ trail ∧ trail ≤ 0x7e ∨ 0x80 ≤ trail ∧ trail ≤ 0xfc)

/-- What a lead byte adds to the row, in pairs of rows. -/
def leadRank (lead : Nat) : Nat := if lead ≤ 0x9f then lead - 0x81 else lead - 0xc1

/-- What a trail byte adds to the cell, counting through a pair of rows. -/
def trailRank (trail : Nat) : Nat := if trail ≤ 0x7e then trail - 0x40 else trail - 0x41

/-- The number of a Shift-JIS character: each lead byte has two rows of 94 cells, and neither
leads from 0xa0 to 0xdf nor the trail 0x7f count. -/
def serial (lead trail : Nat) : Nat := leadRank lead * 188 + trailRank trail

/-- A code stands for a kanji, directly by its JIS row and cell or in Shift-JIS. -/
def StandsFor (c row cell : Nat) : Prop :=
  c = row * 256 + cell ∨
    ∃ lead trail, ShiftJis lead trail ∧ c = lead * 256 + trail ∧
      serial lead trail = (row - 0x21) * 94 + (cell - 0x21)

/-- A code is that of a narrow character or of a kanji with a place in the font ROM. -/
def Covered (c : Nat) : Prop :=
  c < 0x100 ∨ ∃ row cell, FontRom.InFont row cell ∧ StandsFor c row cell

/-- The bytes of a code are its quotient and remainder. -/
theorem code_bytes (sizeCh : Uint32) :
    sizeCh >>> 8 &&& 0xff = BitVec.ofNat 32 (sizeCh.toNat / 256 % 256) ∧
      sizeCh &&& 0xff = BitVec.ofNat 32 (sizeCh.toNat % 256) := by
  have low (value : Uint32) : (value &&& 0xff).toNat = value.toNat % 256 := and_low_toNat _ _ 8 rfl
  constructor
  · apply BitVec.eq_of_toNat_eq
    rw [low, BitVec.toNat_ushiftRight, Nat.shiftRight_eq_div_pow, BitVec.toNat_ofNat]
    omega
  · apply BitVec.eq_of_toNat_eq
    rw [low, BitVec.toNat_ofNat]
    omega

/-- The unsigned decoder keeps bytes that do not lead in Shift-JIS. -/
theorem jisBytes_direct {ch1 ch2 : Nat} (direct : ch1 < 0x81) :
    jisBytes (BitVec.ofNat 32 ch1) (BitVec.ofNat 32 ch2) =
      (BitVec.ofNat 32 ch1, BitVec.ofNat 32 ch2) := by
  rw [jisBytes, if_neg (by bv_omega)]

/-- The signed decoder keeps them too. -/
theorem codeBytes_direct {c : Uint32} (direct : c.toNat / 256 % 256 < 0x81) :
    TextVideoMemory.codeBytes c = (((c.toNat / 256 % 256 : Nat) : Int), ((c.toNat % 256 : Nat) : Int)) := by
  rw [TextVideoMemory.codeBytes, if_neg (by omega)]
  rfl

/-- A number within a pair of rows splits into the row and the cell. -/
theorem serial_split {lead trail row cell : Nat} (inside : FontRom.InFont row cell)
    (number : leadRank lead * 188 + trailRank trail = (row - 0x21) * 94 + (cell - 0x21))
    (trails : trailRank trail < 188) :
    trailRank trail < 94 ∧ row = leadRank lead * 2 + 0x21 ∧ cell = trailRank trail + 0x21 ∨
      94 ≤ trailRank trail ∧ row = leadRank lead * 2 + 1 + 0x21 ∧
        cell = trailRank trail - 94 + 0x21 := by
  obtain ⟨rows, left, right⟩ := inside
  omega

/-- A trail byte is one of 188. -/
theorem trailRank_lt {lead trail : Nat} (bytes : ShiftJis lead trail) : trailRank trail < 188 := by
  obtain ⟨-, trails⟩ := bytes
  unfold trailRank
  split
  · omega
  · omega

/-- The unsigned decoder counts pairs of rows by the lead byte. -/
theorem leadRank_ofNat {lead : Nat} (leads : 0x81 ≤ lead ∧ lead ≤ 0x9f ∨ 0xe0 ≤ lead ∧ lead ≤ 0xef) :
    (if BitVec.ofNat 32 lead ≥ 0xe0 then BitVec.ofNat 32 lead - (0x81 + (0xe0 - 0xa0))
      else BitVec.ofNat 32 lead - 0x81) = BitVec.ofNat 32 (leadRank lead) := by
  by_cases low : lead ≤ 0x9f
  · rw [leadRank, if_pos low, if_neg (by bv_omega)]
    bv_omega
  · rw [leadRank, if_neg low, if_pos (by bv_omega)]
    bv_omega

/-- The unsigned decoder converts bytes of Shift-JIS to the row and the cell of their number. -/
theorem jisBytes_shiftJis {lead trail row cell : Nat} (bytes : ShiftJis lead trail)
    (inside : FontRom.InFont row cell)
    (number : serial lead trail = (row - 0x21) * 94 + (cell - 0x21)) :
    jisBytes (BitVec.ofNat 32 lead) (BitVec.ofNat 32 trail) =
      (BitVec.ofNat 32 row, BitVec.ofNat 32 cell) := by
  have bound := trailRank_lt bytes
  have split := serial_split inside number bound
  obtain ⟨leads, trails⟩ := bytes
  have rows := leadRank_ofNat leads
  have cells : (if BitVec.ofNat 32 trail ≥ 0x80 then
      BitVec.ofNat 32 trail - (0x40 + 1) else BitVec.ofNat 32 trail - 0x40) =
        BitVec.ofNat 32 (trailRank trail) := by
    by_cases low : trail ≤ 0x7e
    · rw [trailRank, if_pos low, if_neg (by bv_omega)]
      bv_omega
    · rw [trailRank, if_neg low, if_pos (by bv_omega)]
      bv_omega
  rw [jisBytes, if_pos (by bv_omega)]
  simp only [rows, cells]
  rcases split with ⟨first, rfl, rfl⟩ | ⟨second, rfl, rfl⟩
  · rw [if_neg (by bv_omega)]
    exact Prod.ext (by bv_omega) (by bv_omega)
  · rw [if_pos (by bv_omega)]
    exact Prod.ext (by bv_omega) (by bv_omega)

/-- The first kanji of row 0x30. -/
example : jisBytes 0x88 0x9f = (0x30, 0x21) := by decide

/-- The signed decoder converts them to the same. -/
theorem codeBytes_shiftJis {c : Uint32} {lead trail row cell : Nat} (bytes : ShiftJis lead trail)
    (code : c.toNat = lead * 256 + trail) (inside : FontRom.InFont row cell)
    (number : serial lead trail = (row - 0x21) * 94 + (cell - 0x21)) :
    TextVideoMemory.codeBytes c = ((row : Int), (cell : Int)) := by
  have split := serial_split inside number (trailRank_lt bytes)
  obtain ⟨leads, trails⟩ := bytes
  have ch1 : (c.toNat : Int) / 256 % 256 = lead := by omega
  have ch2 : (c.toNat : Int) % 256 = trail := by omega
  have rows : (if (0xe0 : Int) ≤ lead then (lead : Int) - (0x81 + (0xe0 - 0xa0)) else lead - 0x81) =
      leadRank lead := by
    by_cases low : lead ≤ 0x9f
    · rw [leadRank, if_pos low, if_neg (by omega)]
      omega
    · rw [leadRank, if_neg low, if_pos (by omega)]
      omega
  have cells : (if (0x80 : Int) ≤ trail then (trail : Int) - (0x40 + 1) else trail - 0x40) =
      trailRank trail := by
    by_cases low : trail ≤ 0x7e
    · rw [trailRank, if_pos low, if_neg (by omega)]
      omega
    · rw [trailRank, if_neg low, if_pos (by omega)]
      omega
  rw [TextVideoMemory.codeBytes, ch1, ch2, if_pos (by omega)]
  simp only [rows, cells]
  rcases split with ⟨first, rfl, rfl⟩ | ⟨second, rfl, rfl⟩
  · rw [if_neg (by omega)]
    exact Prod.ext (by omega) (by omega)
  · rw [if_pos (by omega)]
    exact Prod.ext (by omega) (by omega)

/-- Both decoders find the row and the cell that a code stands for. -/
theorem decoders_agree {sizeCh : Uint32} {row cell : Nat} (inside : FontRom.InFont row cell)
    (stands : StandsFor (sizeCh.toNat % 0x10000) row cell) :
    jisBytes (sizeCh >>> 8 &&& 0xff) (sizeCh &&& 0xff) =
        (BitVec.ofNat 32 row, BitVec.ofNat 32 cell) ∧
      TextVideoMemory.codeBytes (BitVec.ofNat 32 (sizeCh.toNat % 0x10000)) =
        ((row : Int), (cell : Int)) := by
  obtain ⟨ch1, ch2⟩ := code_bytes sizeCh
  have code : (BitVec.ofNat 32 (sizeCh.toNat % 0x10000)).toNat = sizeCh.toNat % 0x10000 := by
    rw [BitVec.toNat_ofNat]
    omega
  rw [ch1, ch2]
  rcases stands with direct | ⟨lead, trail, bytes, pair, number⟩
  · obtain ⟨rows, left, right⟩ := inside
    have high : sizeCh.toNat / 256 % 256 = row := by omega
    have low : sizeCh.toNat % 256 = cell := by omega
    rw [high, low]
    refine ⟨jisBytes_direct (by omega), (codeBytes_direct (by rw [code]; omega)).trans ?_⟩
    rw [code]
    exact Prod.ext (by omega) (by omega)
  · have small := bytes
    obtain ⟨leads, trails⟩ := small
    have high : sizeCh.toNat / 256 % 256 = lead := by omega
    have low : sizeCh.toNat % 256 = trail := by omega
    rw [high, low]
    exact ⟨jisBytes_shiftJis bytes inside number,
      codeBytes_shiftJis bytes (code.trans pair) inside number⟩

/-- The character code of a call. -/
def code {M : Type} (context : IocsContext M) : Uint32 := BitVec.ofNat 32 (context.d1.toNat % 0x10000)

/-- The bytes of a bitmap, row after row. -/
def bitmap (g : TextVideoMemory.Glyph) : List Byte :=
  (List.range 16).flatMap fun row => (List.range g.columns).map (g.pixels row)

/-- The bytes of a number of rows. -/
theorem rows_length (g : TextVideoMemory.Glyph) (count : Nat) :
    ((List.range count).flatMap fun row => (List.range g.columns).map (g.pixels row)).length =
      g.columns * count := by
  rw [List.length_flatMap]
  simp only [List.length_map, List.length_range, List.map_const', List.sum_replicate_nat]
  exact Nat.mul_comm _ _

/-- Each pixel byte of a bitmap has its place. -/
theorem bitmap_get (g : TextVideoMemory.Glyph) {row column : Nat} (inRows : row < 16)
    (inColumns : column < g.columns) :
    (bitmap g)[g.columns * row + column]? = some (g.pixels row column) := by
  suffices rows : ∀ count, row < count →
      ((List.range count).flatMap fun row => (List.range g.columns).map (g.pixels row))[
        g.columns * row + column]? = some (g.pixels row column) from rows 16 inRows
  intro count below
  induction count with
  | zero => omega
  | succ count inductionHypothesis =>
    rw [List.range_succ, List.flatMap_append]
    by_cases last : row = count
    · subst last
      rw [List.getElem?_append_right (by rw [rows_length]; omega), rows_length,
        List.flatMap_singleton,
        List.getElem?_map, Nat.add_sub_cancel_left, List.getElem?_range inColumns, Option.map_some]
    · have earlier : g.columns * row + column < g.columns * count := by
        have step := Nat.mul_le_mul_left g.columns (by omega : row + 1 ≤ count)
        rw [Nat.mul_succ] at step
        omega
      rw [List.getElem?_append_left (by rw [rows_length]; exact earlier)]
      exact inductionHypothesis (by omega)

/-- The screen draws a covered code with the bitmap of its narrow character or of its kanji. -/
theorem glyph_bitmap (console : Console) {c : Uint32} {row cell : Nat}
    (inside : FontRom.InFont row cell)
    (bytes : TextVideoMemory.codeBytes c = ((row : Int), (cell : Int))) :
    (TextVideoMemory.glyph console c).columns = 2 ∧
      bitmap (TextVideoMemory.glyph console c) =
        FontRom.wideImage console (BitVec.ofNat 32 row <<< 8 ||| BitVec.ofNat 32 cell) := by
  obtain ⟨rows, -⟩ := inside
  have wide : TextVideoMemory.glyph console c = ⟨2, fun line column =>
      console.k16Image (BitVec.ofNat 32 row <<< 8 ||| BitVec.ofNat 32 cell) (2 * line + column)⟩ := by
    rw [TextVideoMemory.glyph, bytes, if_pos (by omega)]
    rfl
  rw [wide]
  exact ⟨rfl, rfl⟩

/-- The bitmap of a one-byte code is the narrow image. -/
theorem glyph_bitmap_short (console : Console) {c : Uint32} (short : c.toNat < 0x100) :
    (TextVideoMemory.glyph console c).columns = 1 ∧
      bitmap (TextVideoMemory.glyph console c) = FontRom.narrowImage console c := by
  have bytes := codeBytes_direct (c := c) (by omega)
  have narrow : TextVideoMemory.glyph console c = ⟨1, fun line _ => console.b16Image c line⟩ := by
    have same : BitVec.ofInt 32 ((c.toNat % 256 : Nat) : Int) = c := by
      rw [BitVec.ofInt_natCast, Nat.mod_eq_of_lt short, BitVec.ofNat_toNat, BitVec.setWidth_eq]
    rw [TextVideoMemory.glyph, bytes, if_neg (by omega), same]
  rw [narrow]
  exact ⟨rfl, rfl⟩

/-- Painting leaves the bitmap at the sixteen rows from a position on, in both planes. -/
theorem drawChar_painted (tvram : TextVideoMemory) (x y : Int) (c : Uint32) {plane : Int}
    (planes : plane = 0 ∨ plane = 1) {row column : Nat} (inRows : row < 16)
    (inColumns : column < (TextVideoMemory.glyph tvram.connectedConsole c).columns) :
    (tvram.drawChar x y c).buf
        (plane * TextVideoMemory.planeSize + y * 16 * TextVideoMemory.rowSize + x +
          row * TextVideoMemory.rowSize + column) =
      (TextVideoMemory.glyph tvram.connectedConsole c).pixels row column := by
  have narrow := TextVideoMemory.glyph_columns tvram.connectedConsole c
  rw [TextVideoMemory.drawChar_buf]
  apply storeAll_target
  · apply List.mem_map.mpr
    exact ⟨_, TextVideoMemory.mem_paint.mpr ⟨plane, planes, row, inRows, column, inColumns, rfl⟩, rfl⟩
  · intro other painted
    obtain ⟨otherPlane, otherPlanes, otherRow, otherRows, otherColumn, otherColumns, same⟩ :=
      TextVideoMemory.mem_paint.mp painted
    obtain ⟨place, rfl⟩ := Prod.mk.inj same
    simp only [TextVideoMemory.planeSize, TextVideoMemory.rowSize] at place
    have sameRow : row = otherRow := by omega
    have sameColumn : column = otherColumn := by omega
    rw [sameRow, sameColumn]

/-- A block of the window is the bytes of the ROM. -/
theorem read_slice (memory : M) {source : Uint32} {offset count : Nat}
    (place : source.toNat = 0xf00000 + offset) (inside : offset + count ≤ 0xc0000) :
    FontBus.read memory source count = .ok (slice (FontBus.font memory).data offset count) := by
  rw [FontBus.read_font memory source count (by omega) (by omega)]
  congr 1
  apply List.ext_getElem?
  intro index
  by_cases within : index < count
  · have at_ : (source + BitVec.ofNat 32 index).toNat % 0x100000 = offset + index := by bv_omega
    rw [slice_get _ _ _ _ within, List.getElem?_map, List.getElem?_range within, Option.map_some,
      FontRom.get8_data _ _ (by omega), at_]
  · rw [List.getElem?_eq_none (by simpa using within), List.getElem?_eq_none (by simpa using within)]

omit [Bus M] [WordBus M] [FontBus M] in
/-- A write returns with what it leaves in memory. -/
theorem returns_access {operation : M → Ending Thrown M Unit} {context after : IocsContext M}
    {done : Unit} :
    Returns (access operation) context done after ↔
      ∃ memory, operation context.mem = (.ok (), memory) ∧
        after = { context with mem := memory } :=
  returns_zoom.trans (exists_congr fun _ => and_congr returns_atomic eq_comm)

/-- The image that the call leaves: two words and the bytes. -/
def stored (width height : Uint32) (bytes : List Byte) : List Byte :=
  encode 2 width.toNat ++ encode 2 height.toNat ++ bytes

/-- Once the two words have been written, the bitmap is stored with them. -/
theorem storeBitmap_after {i width height source : Uint32} {offset count : Nat}
    {context : IocsContext M} {first last : M} (place : source.toNat = 0xf00000 + offset)
    (inRom : offset + count ≤ 0xc0000) (ram : i.toNat + 4 + count ≤ Bus.size context.mem)
    (wide : WordBus.put16 i width context.mem = (.ok (), first))
    (high : WordBus.put16 (i + 2) height first = (.ok (), last)) :
    ∃ after, Returns (storeBitmap i width height source count) context () after ∧
      Bus.byte after.mem = lay (Bus.byte context.mem) i.toNat
        (stored width height (slice (FontBus.font context.mem).data offset count)) := by
  have limit := Bus.size_le context.mem
  have second : (i + 2).toNat = i.toNat + 2 := by bv_omega
  have third : (i + 4).toNat = i.toNat + 4 := by bv_omega
  have widthStored := WordBus.put16_stored i width context.mem first (by omega) wide
  have heightStored := WordBus.put16_stored (i + 2) height first last
    (by rw [second, widthStored.size]; omega) high
  have font : FontBus.font last = FontBus.font context.mem :=
    (FontBus.put16_font _ _ _ _ high).trans (FontBus.put16_font _ _ _ _ wide)
  obtain ⟨memory, written, bytesStored⟩ := Bus.write_main (i + 4)
    (slice (FontBus.font last).data offset count) last
    (by rw [third, slice_length, heightStored.size, widthStored.size]; omega)
  refine ⟨{ context with mem := memory }, ?_, ?_⟩
  · have one : Returns (access (WordBus.put16 i width)) context () { context with mem := first } :=
      returns_access.mpr ⟨first, wide, rfl⟩
    have two : Returns (access (WordBus.put16 (i + 2) height)) { context with mem := first } ()
        { context with mem := last } := returns_access.mpr ⟨last, high, rfl⟩
    have three : Returns (read source count) { context with mem := last }
        (slice (FontBus.font last).data offset count) { context with mem := last } :=
      returns_atomic.mpr (Prod.ext (read_slice last place inRom) rfl)
    rw [storeBitmap, Returns, ends_after one, ends_after two, ends_after three]
    exact returns_access.mpr ⟨memory, written, rfl⟩
  · rw [bytesStored.byte, heightStored.byte, widthStored.byte, font, third, second, stored,
      lay_append, lay_append]
    simp only [List.length_append, encode_length]

/-- Where a bitmap is stored in main memory, its words and its bytes are; at an even address it
always is. -/
theorem storeBitmap_stores {i width height source : Uint32} {offset count : Nat}
    {context : IocsContext M} (place : source.toNat = 0xf00000 + offset)
    (inRom : offset + count ≤ 0xc0000) (ram : i.toNat + 4 + count ≤ Bus.size context.mem) :
    (i.toNat % 2 = 0 → ∃ after, Returns (storeBitmap i width height source count) context () after) ∧
      ∀ after, Returns (storeBitmap i width height source count) context () after →
        Bus.byte after.mem = lay (Bus.byte context.mem) i.toNat
          (stored width height (slice (FontBus.font context.mem).data offset count)) := by
  constructor
  · intro even
    have limit := Bus.size_le context.mem
    have second : (i + 2).toNat = i.toNat + 2 := by bv_omega
    obtain ⟨first, wide, widthStored⟩ := WordBus.put16_even i width context.mem even (by omega)
    obtain ⟨last, high, -⟩ := WordBus.put16_even (i + 2) height first (by omega)
      (by rw [second, widthStored.size]; omega)
    obtain ⟨after, returned, -⟩ := storeBitmap_after place inRom ram wide high
    exact ⟨after, returned⟩
  · intro after returned
    have steps := returned
    simp only [storeBitmap, returns_bind, returns_access] at steps
    obtain ⟨_, _, ⟨first, wide, rfl⟩, _, _, ⟨last, high, rfl⟩, -⟩ := steps
    obtain ⟨other, again, contents⟩ := storeBitmap_after place inRom ram wide high
    obtain ⟨-, rfl⟩ := returns_unique returned again
    exact contents

/-- With size 0 or 8 the call stores a bitmap of sixteen rows. -/
theorem ends_fntget {context after : IocsContext M} {outcome : Except Thrown Unit} {ch1 ch2 : Uint32}
    (size : context.d1 >>> 16 = 0 ∨ context.d1 >>> 16 = 8)
    (decoded : jisBytes (context.d1 >>> 8 &&& 0xff) (context.d1 &&& 0xff) = (ch1, ch2)) :
    Ends iocsFntget context outcome after ↔
      Ends (if ch1 ≥ 0x21 ∧ ch1 ≤ 0x7e then
          storeBitmap context.a1 16 16 (0xf00000 + FontRom.jisx0208_16Offset ch1 ch2) (16 * 2)
        else storeBitmap context.a1 8 16 (0xf00000 + FontRom.jisx0201_16Offset ch2) (16 * 1))
        context outcome after := by
  have notSix : ¬ context.d1 >>> 16 = 6 := by
    intro six
    rw [six] at size
    exact absurd size (by decide)
  have notTwelve : ¬ context.d1 >>> 16 = 12 := by
    intro twelve
    rw [twelve] at size
    exact absurd size (by decide)
  rw [iocsFntget, ends_after_state]
  simp only [decoded, if_neg notSix, if_neg notTwelve]

/-- A covered code takes the bitmap that the screen draws from its place in the font ROM. -/
theorem fntget_copy (console : Console) (context : IocsContext M)
    (size : context.d1 >>> 16 = 0 ∨ context.d1 >>> 16 = 8)
    (covered : Covered (context.d1.toNat % 0x10000)) :
    ∃ source copy, copy ∈ FontRom.copies console ∧ source.toNat = 0xf00000 + copy.1 ∧
      copy.2 = bitmap (TextVideoMemory.glyph console (code context)) ∧
        ∀ outcome after, Ends iocsFntget context outcome after ↔
          Ends (storeBitmap context.a1
            (BitVec.ofNat 32 (8 * (TextVideoMemory.glyph console (code context)).columns)) 16 source
              copy.2.length) context outcome after := by
  rcases covered with short | ⟨row, cell, inside, stands⟩
  · obtain ⟨ch1, ch2⟩ := code_bytes context.d1
    have high : context.d1.toNat / 256 % 256 = 0 := by omega
    have low : context.d1.toNat % 256 = context.d1.toNat % 0x10000 := by omega
    rw [high] at ch1
    rw [low] at ch2
    have decoded : jisBytes (BitVec.ofNat 32 0) (BitVec.ofNat 32 (context.d1.toNat % 0x10000)) = _ :=
      jisBytes_direct (by decide)
    rw [← ch1, ← ch2] at decoded
    obtain ⟨columns, image⟩ := glyph_bitmap_short console (c := code context)
      (by rw [code, BitVec.toNat_ofNat]; omega)
    have start := (FontRom.narrowCopy_span console short).1
    refine ⟨0xf00000 + FontRom.jisx0201_16Offset (code context),
      FontRom.narrowCopy console (context.d1.toNat % 0x10000),
      FontRom.mem_copies.mpr (Or.inl ⟨_, short, rfl⟩), ?_, image.symm, ?_⟩
    · have place : (FontRom.narrowCopy console (context.d1.toNat % 0x10000)).1 =
        (FontRom.jisx0201_16Offset (code context)).toNat := rfl
      bv_omega
    · intro outcome after
      rw [ends_fntget size decoded, columns, ch1, if_neg (by decide), ch2]
      exact Iff.rfl
  · obtain ⟨decoded, bytes⟩ := decoders_agree inside stands
    obtain ⟨columns, image⟩ := glyph_bitmap console inside bytes
    have below := FontRom.wideCopy_below console inside
    refine ⟨0xf00000 + FontRom.jisx0208_16Offset (BitVec.ofNat 32 row) (BitVec.ofNat 32 cell),
      FontRom.wideCopy console row cell, FontRom.mem_copies.mpr (Or.inr ⟨row, cell, inside, rfl⟩),
      ?_, image.symm, ?_⟩
    · have place : (FontRom.wideCopy console row cell).1 =
        (FontRom.jisx0208_16Offset (BitVec.ofNat 32 row) (BitVec.ofNat 32 cell)).toNat := rfl
      bv_omega
    · intro outcome after
      obtain ⟨rows, -⟩ := inside
      rw [ends_fntget size decoded, if_pos (by bv_omega), code, columns]
      exact Iff.rfl

/-- The screen draws a code with these bytes, so many to a row. -/
def Draws (console : Console) (c : Uint32) (columns : Nat) (bytes : List Byte) : Prop :=
  bytes.length = columns * 16 ∧
    ∀ (tvram : TextVideoMemory) (x y plane : Int), tvram.connectedConsole = console →
      plane = 0 ∨ plane = 1 → ∀ row column : Nat, row < 16 → column < columns →
        bytes[columns * row + column]? = some ((tvram.drawChar x y c).buf
          (plane * TextVideoMemory.planeSize + y * 16 * TextVideoMemory.rowSize + x +
            row * TextVideoMemory.rowSize + column))

/-- The screen draws a code with its bitmap. -/
theorem draws_bitmap (console : Console) (c : Uint32) :
    Draws console c (TextVideoMemory.glyph console c).columns
      (bitmap (TextVideoMemory.glyph console c)) := by
  constructor
  · exact rows_length _ 16
  · rintro tvram x y plane rfl planes row column inRows inColumns
    rw [bitmap_get _ inRows inColumns, drawChar_painted tvram x y c planes inRows inColumns]

/-- The byte columns of a code: narrow characters have codes of one byte. -/
def columns (c : Nat) : Nat := if c < 0x100 then 1 else 2

omit [Bus M] [WordBus M] [FontBus M] in
/-- The screen draws a covered code in its columns. -/
theorem glyph_columns (console : Console) (context : IocsContext M)
    (covered : Covered (context.d1.toNat % 0x10000)) :
    (TextVideoMemory.glyph console (code context)).columns = columns (context.d1.toNat % 0x10000) := by
  rcases covered with short | ⟨row, cell, inside, stands⟩
  · rw [columns, if_pos short]
    exact (glyph_bitmap_short console (by rw [code, BitVec.toNat_ofNat]; omega)).1
  · have wide : ¬ context.d1.toNat % 0x10000 < 0x100 := by
      obtain ⟨rows, -⟩ := inside
      rcases stands with direct | ⟨lead, trail, ⟨leads, -⟩, pair, -⟩
      · omega
      · omega
    rw [columns, if_neg wide]
    exact (glyph_bitmap console inside (decoders_agree inside stands).2).1

/-- After the ROM has been filled from a console, a covered code of size 0 or 8 is stored at an
even address of main memory, and wherever it is stored it is its size and the bytes that the
screen draws. No bitmap of the ROM overlaps another one. -/
theorem fntget_draws (console : Console) (rom : FontRom) (context : IocsContext M)
    (copied : FontBus.font context.mem = FontRom.copyData console rom)
    (size : context.d1 >>> 16 = 0 ∨ context.d1 >>> 16 = 8)
    (covered : Covered (context.d1.toNat % 0x10000))
    (ram : context.a1.toNat + 4 + columns (context.d1.toNat % 0x10000) * 16 ≤
      Bus.size context.mem) :
    ((FontRom.copies console).Pairwise Apart ∧
      ∀ copy ∈ FontRom.copies console, copy.1 + copy.2.length ≤ 0xc0000) ∧
      (context.a1.toNat % 2 = 0 → ∃ after, Returns iocsFntget context () after) ∧
        ∀ after, Returns iocsFntget context () after →
          ∃ bytes, Draws console (code context) (columns (context.d1.toNat % 0x10000)) bytes ∧
            Bus.byte after.mem = lay (Bus.byte context.mem) context.a1.toNat
              (encode 2 (8 * columns (context.d1.toNat % 0x10000)) ++ encode 2 16 ++ bytes) := by
  obtain ⟨source, copy, member, place, image, ends⟩ := fntget_copy console context size covered
  have draws := draws_bitmap console (code context)
  have width : (BitVec.ofNat 32 (8 * columns (context.d1.toNat % 0x10000))).toNat =
      8 * columns (context.d1.toNat % 0x10000) := by
    unfold columns
    split
    · rfl
    · rfl
  rw [glyph_columns console context covered] at ends draws
  have count : copy.2.length = columns (context.d1.toNat % 0x10000) * 16 := by rw [image, draws.1]
  have bytes := FontRom.copyData_slice console rom member
  rw [← copied] at bytes
  obtain ⟨finds, stores⟩ := storeBitmap_stores place (FontRom.copies_inside member)
    (by rw [count]; exact ram)
  refine ⟨⟨FontRom.copies_apart console, fun copy member => FontRom.copies_inside member⟩, ?_, ?_⟩
  · intro even
    obtain ⟨after, returned⟩ := finds even
    exact ⟨after, (ends _ _).mpr returned⟩
  · intro after returned
    refine ⟨copy.2, image ▸ draws, ?_⟩
    rw [stores after ((ends _ _).mp returned), bytes, stored, width]
    rfl

/-- An address space whose main memory is joined by the font ROM. -/
structure WithFont (R : Type) where
  ram : R
  font : FontRom

namespace WithFont

variable {R : Type}

/-- An operation on main memory. -/
def onRam (operation : R → Ending Thrown R Unit) (space : WithFont R) :
    Ending Thrown (WithFont R) Unit :=
  let ending := operation space.ram
  (ending.1, { space with ram := ending.2 })

variable [Bus R]

/-- What is stored in main memory is stored in the address space. -/
theorem onRam_stored {operation : R → Ending Thrown R Unit} {start : Nat} {bytes : List Byte}
    (space : WithFont R) (stores : ∃ after, operation space.ram = (.ok (), after) ∧
      Stored Bus.size Bus.byte space.ram start bytes after) :
    ∃ after, onRam operation space = (.ok (), after) ∧
      Stored (fun space => Bus.size space.ram) (fun space => Bus.byte space.ram) space start bytes
        after := by
  obtain ⟨after, done, stored⟩ := stores
  exact ⟨⟨after, space.font⟩, by simp only [onRam, done], stored.size, stored.byte⟩

/-- Main memory is in RAM; the font ROM lies above it. -/
instance : Bus (WithFont R) where
  size space := Bus.size space.ram
  byte space := Bus.byte space.ram
  get16 space := Bus.get16 space.ram
  get32 space := Bus.get32 space.ram
  put8 address value := onRam (Bus.put8 address value)
  put32 address value := onRam (Bus.put32 address value)
  write address bytes := onRam (Bus.write address bytes)
  putString address bytes := onRam (Bus.putString address bytes)
  size_le space := Bus.size_le space.ram
  get32_main space := Bus.get32_main space.ram
  put8_main address value space inside := onRam_stored space (Bus.put8_main address value _ inside)
  put32_main address value space aligned inside :=
    onRam_stored space (Bus.put32_main address value _ aligned inside)
  write_main address bytes space inside := onRam_stored space (Bus.write_main address bytes _ inside)
  putString_main address bytes space inside :=
    onRam_stored space (Bus.putString_main address bytes _ inside)

variable [WordBus R]

/-- Words are read and written in RAM. -/
instance : WordBus (WithFont R) where
  get32_even space := EvenBus.get32_even space.ram
  put32_even address value space even inside :=
    onRam_stored space (EvenBus.put32_even address value _ even inside)
  put16 address value := onRam (WordBus.put16 address value)
  get16_even space := WordBus.get16_even space.ram
  put16_even address value space even inside :=
    onRam_stored space (WordBus.put16_even address value _ even inside)
  put16_stored address value space after inside done := by
    obtain ⟨succeeded, rfl⟩ := Prod.mk.inj done
    have stored := WordBus.put16_stored address value space.ram _ inside (Prod.ext succeeded rfl)
    exact ⟨stored.size, stored.byte⟩

/-- The font is read from the ROM. -/
instance : FontBus (WithFont R) where
  font := WithFont.font
  read space address count :=
    if 0xf00000 ≤ address.toNat ∧ address.toNat + count ≤ 0xfc0000 then
      .ok ((List.range count).map fun index =>
        (FontRom.get8 (address + BitVec.ofNat 32 index) space.font).setWidth 8)
    else .error .memoryException
  read_font _ _ _ low high := if_pos ⟨low, high⟩
  put16_font _ _ _ _ done := by
    obtain ⟨-, rfl⟩ := Prod.mk.inj done
    rfl

end WithFont

/-- A machine with a megabyte of memory, called for a kanji of Shift-JIS. -/
def kanjiCall (font : FontRom) : IocsContext (WithFont MainMemory.ByteMemory) where
  mem := ⟨⟨0x100000, 0, fun _ => 0⟩, font⟩
  d1 := 0x0008889f
  a1 := 0x10000

/-- The first kanji of row 0x30 is stored as it is drawn. -/
theorem fntget_draws_kanji : ∃ font after bytes, Returns iocsFntget (kanjiCall font) () after ∧
    Draws Console.sample 0x889f 2 bytes ∧
      Bus.byte after.mem =
        lay (Bus.byte (kanjiCall font).mem) 0x10000 (encode 2 16 ++ encode 2 16 ++ bytes) := by
  obtain ⟨font, filled⟩ : ∃ font, font = FontRom.copyData Console.sample ⟨fun _ => 0⟩ := ⟨_, rfl⟩
  have copied : FontBus.font (kanjiCall font).mem = _ := filled
  have request : (kanjiCall font).d1 = 0x0008889f := rfl
  have destination : (kanjiCall font).a1 = 0x10000 := rfl
  have extent : Bus.size (kanjiCall font).mem = 0x100000 := rfl
  have low : (kanjiCall font).d1.toNat % 0x10000 = 0x889f := by
    rw [request]
    decide
  have same : code (kanjiCall font) = 0x889f := by
    rw [code, low]
    rfl
  have covered : Covered 0x889f :=
    Or.inr ⟨0x30, 0x21, ⟨Or.inr (by decide), by decide⟩,
      Or.inr ⟨0x88, 0x9f, ⟨Or.inl (by decide), Or.inr (by decide)⟩, by decide, by decide⟩⟩
  obtain ⟨-, finds, stores⟩ := fntget_draws Console.sample ⟨fun _ => 0⟩ (kanjiCall font) copied
    (Or.inr (by rw [request]; decide)) (by rw [low]; exact covered)
    (by rw [low, destination, extent]; decide)
  rw [low, same, destination] at stores
  obtain ⟨after, returned⟩ := finds (by rw [destination]; decide)
  obtain ⟨bytes, draws, contents⟩ := stores after returned
  exact ⟨font, after, bytes, returned, draws, contents⟩

end FontCalls

end Vx68k
