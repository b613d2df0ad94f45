import Vx68k.Buffers
import Vx68k.AddressSpace

/-!
# The text video memory

Four planes of 1024 rows of 128 bytes, in one buffer, and a mark for every row that
the display has to catch up with. Pointers into the buffer are distances from its
start. The console gives the bitmaps of characters; it is a parameter, since fonts
come from the window system.

Guest words are big-endian. Shifts of negative numbers are arithmetic. A loop whose
end pointer lies before its start is not described; callers never make one.
-/

namespace Vx68k

open ByteStores Buffers

/-- The machine integer that holds a character code or a guest word. -/
abbrev Uint16 := BitVec 16

/-- The fonts of a console: sixteen bytes for a narrow character and sixteen pairs
for a wide one. -/
structure Console where
  b16Image : Uint32 → Nat → Byte
  k16Image : Uint32 → Nat → Byte

/-- A console with some bitmaps. -/
def Console.sample : Console :=
  ⟨fun c row => BitVec.ofNat 8 (c.toNat + row), fun c index => BitVec.ofNat 8 (c.toNat + index)⟩

/-- The four planes behind each other, the console that is connected and the marks of rows. -/
structure TextVideoMemory where
  buf : Buffer Byte
  connectedConsole : Console
  rasterUpdateMarks : Buffer Bool

namespace TextVideoMemory

/-- The bytes from one row to the next. -/
abbrev rowSize : Int := 128

/-- The bytes from one plane to the next. -/
abbrev planeSize : Int := 131072

/-- The constructor, with a console connected to it. -/
def construct (console : Console) : TextVideoMemory := ⟨fun _ => 0, console, fun _ => false⟩

/-- The marks that filling from one row to another sets. A fill that starts past
its end runs off. -/
def Fills (topY bottomY : Uint32) (index : Int) : Prop :=
  topY ≠ bottomY ∧ topY.toNat ≤ index ∧ (topY.toNat ≤ bottomY.toNat → index < bottomY.toNat)

instance (topY bottomY : Uint32) (index : Int) : Decidable (Fills topY bottomY index) :=
  inferInstanceAs (Decidable (_ ∧ _ ∧ (_ → _)))

/-- Set the marks from one row to another. -/
def markUpdateArea (topY bottomY : Uint32) (tvram : TextVideoMemory) : TextVideoMemory :=
  let marks : Buffer Bool := fun index =>
    if Fills topY bottomY index then true else tvram.rasterUpdateMarks index
  { tvram with rasterUpdateMarks := marks }

/-- Marks are apart from the buffer. -/
@[simp]
theorem markUpdateArea_buf (topY bottomY : Uint32) (tvram : TextVideoMemory) :
    (markUpdateArea topY bottomY tvram).buf = tvram.buf := rfl

/-- Test a mark and clear it. -/
def rowChanged (index : Uint32) (tvram : TextVideoMemory) : Bool × TextVideoMemory :=
  let value := tvram.rasterUpdateMarks index.toNat
  (value, if value then
    { tvram with rasterUpdateMarks := store tvram.rasterUpdateMarks index.toNat false }
  else tvram)

/-- `connect` marks the visible rows. -/
def connect (console : Console) (tvram : TextVideoMemory) : TextVideoMemory :=
  markUpdateArea 0 512 { tvram with connectedConsole := console }

/-- A word of the buffer, the byte at the lower address first. The source reads and writes
words with `uint16_iterator` of libvm68k, which is not part of it; that this puts the high byte
first, as the processor does, is assumed here and in `storeWord`. -/
def word (buf : Buffer Byte) (index : Int) : Uint16 := buf index ++ buf (index + 1)

/-- Store a word in the buffer, its high byte first. -/
def storeWord (index : Int) (value : Uint16) (buf : Buffer Byte) : Buffer Byte :=
  store (store buf index (value.extractLsb' 8 8)) (index + 1) (value.extractLsb' 0 8)

/-- Addresses wrap around the four planes. -/
def offset (address : Uint32) : Nat := address.toNat % 0x80000

/-- The row of an address, in whichever plane. -/
def row (address : Uint32) : Uint32 := BitVec.ofNat 32 (offset address / 128 % 1024)

/-- A word write to the same contents changes nothing and marks nothing. -/
def put16 (address : Uint32) (value : Uint16) (fc : FunctionCode) (tvram : TextVideoMemory) :
    Except Fault TextVideoMemory :=
  if fc ≠ .superData then .error (.busError address .write fc)
  else if value ≠ word tvram.buf (offset address) then
    .ok (markUpdateArea (row address) (row address + 1)
      { tvram with buf := storeWord (offset address) value tvram.buf })
  else .ok tvram

/-- A byte write to the same contents changes nothing either. -/
def put8 (address value : Uint32) (fc : FunctionCode) (tvram : TextVideoMemory) :
    Except Fault TextVideoMemory :=
  if fc ≠ .superData then .error (.busError address .write fc)
  else if value.setWidth 8 ≠ tvram.buf (offset address) then
    .ok (markUpdateArea (row address) (row address + 1)
      { tvram with buf := store tvram.buf (offset address) (value.setWidth 8) })
  else .ok tvram

/-- Copy text lines 1 to 30 of a plane one line up and blank the last. -/
@[irreducible]
def scrollPlane (plane : Nat) (buf : Buffer Byte) : Buffer Byte :=
  fill (16 * 128) (plane * planeSize + 30 * 16 * rowSize) 0
    (copy (30 * 16 * 128) (plane * planeSize + 16 * rowSize) (plane * planeSize) buf)

/-- Scroll the first two planes and mark their rows. -/
def scroll (tvram : TextVideoMemory) : TextVideoMemory :=
  markUpdateArea 0 (31 * 16) { tvram with buf := scrollPlane 1 (scrollPlane 0 tvram.buf) }

/-- What scrolling does to the buffer. -/
@[simp]
theorem scroll_buf (tvram : TextVideoMemory) :
    tvram.scroll.buf = scrollPlane 1 (scrollPlane 0 tvram.buf) :=
  markUpdateArea_buf _ _ _

/-- The two bytes of a character code, those of a Shift-JIS kanji converted to JIS. -/
def codeBytes (c : Uint32) : Int × Int :=
  let ch1 : Int := c.toNat / 256 % 256
  let ch2 : Int := c.toNat % 256
  if 0x81 ≤ ch1 ∧ ch1 ≤ 0x9f ∨ 0xe0 ≤ ch1 ∧ ch1 ≤ 0xef then
    let ch1 := if 0xe0 ≤ ch1 then ch1 - (0x81 + (0xe0 - 0xa0)) else ch1 - 0x81
    let ch2 := if 0x80 ≤ ch2 then ch2 - (0x40 + 1) else ch2 - 0x40
    let ch1 := ch1 * 2
    if 94 ≤ ch2 then (ch1 + 1 + 0x21, ch2 - 94 + 0x21) else (ch1 + 0x21, ch2 + 0x21)
  else (ch1, ch2)

/-- The bitmap of a character: its width in byte columns and its bytes by row and
column. -/
structure Glyph where
  columns : Nat
  pixels : Nat → Nat → Byte

/-- The bitmap that the console has for a character code. -/
def glyph (console : Console) (c : Uint32) : Glyph :=
  let ch1 := (codeBytes c).1
  let ch2 := (codeBytes c).2
  if 0x21 ≤ ch1 ∧ ch1 ≤ 0x7e then
    let img := console.k16Image (BitVec.ofInt 32 ch1 <<< 8 ||| BitVec.ofInt 32 ch2)
    ⟨2, fun row column => img (2 * row + column)⟩
  else ⟨1, fun row _ => console.b16Image (BitVec.ofInt 32 ch2) row⟩

/-- The stores that paint a bitmap in two planes, at a byte column and a text line. -/
def paint (x y : Int) (g : Glyph) : List (Int × Byte) :=
  [(0 : Int), 1].flatMap fun plane => (List.range 16).flatMap fun (row : Nat) =>
    (List.range g.columns).map fun (column : Nat) =>
      (plane * planeSize + y * 16 * rowSize + x + row * rowSize + column, g.pixels row column)

/-- Painting stores to the bitmap's columns in the sixteen rows of a text line, in
both planes. -/
theorem mem_paint {x y : Int} {g : Glyph} {cell : Int × Byte} : cell ∈ paint x y g ↔
    ∃ plane : Int, (plane = 0 ∨ plane = 1) ∧ ∃ row : Nat, row < 16 ∧ ∃ column : Nat,
      column < g.columns ∧ cell =
        (plane * planeSize + y * 16 * rowSize + x + row * rowSize + column, g.pixels row column) := by
  simp only [paint, List.mem_flatMap, List.mem_cons, List.not_mem_nil, or_false, List.mem_range,
    List.mem_map, eq_comm]

/-- Only codes of two bytes have wide bitmaps. -/
theorem glyph_columns (console : Console) (c : Uint32) :
    (glyph console c).columns = 1 ∨ (glyph console c).columns = 2 ∧ 0x100 ≤ c.toNat := by
  by_cases short : c.toNat < 0x100
  · have high : (c.toNat : Int) / 256 % 256 = 0 := by omega
    have bytes : codeBytes c = (0, (c.toNat : Int) % 256) := by simp [codeBytes, high]
    exact Or.inl (by simp [glyph, bytes])
  · simp only [glyph]
    split
    · exact Or.inr ⟨rfl, by omega⟩
    · exact Or.inl rfl

/-- Paint a character at a byte column and a text line, and mark its rows. -/
def drawChar (x y : Int) (c : Uint32) (tvram : TextVideoMemory) : TextVideoMemory :=
  markUpdateArea (BitVec.ofInt 32 (y * 16)) (BitVec.ofInt 32 (y * 16 + 16))
    { tvram with buf := storeAll (paint x y (glyph tvram.connectedConsole c)) tvram.buf }

/-- What that does to the buffer. -/
@[simp]
theorem drawChar_buf (x y : Int) (c : Uint32) (tvram : TextVideoMemory) :
    (drawChar x y c tvram).buf = storeAll (paint x y (glyph tvram.connectedConsole c)) tvram.buf :=
  rfl

/-- The console stays connected. -/
@[simp]
theorem drawChar_console (x y : Int) (c : Uint32) (tvram : TextVideoMemory) :
    (drawChar x y c tvram).connectedConsole = tvram.connectedConsole := rfl

/-- One word of a fill: some bits of it replaced, or all of it. -/
inductive WordStep where
  | masked (index : Int) (mask bits : Uint16)
  | whole (index : Int) (pattern : Uint16)

/-- The place of the word. -/
def WordStep.index : WordStep → Int
  | .masked index _ _ => index
  | .whole index _ => index

/-- Do a step: replace bits of a word, or all of it. -/
def WordStep.perform : WordStep → Buffer Byte → Buffer Byte
  | .masked index mask bits, buf => storeWord index (word buf index &&& ~~~mask ||| bits) buf
  | .whole index pattern, buf => storeWord index pattern buf

/-- The same step in every row of a column of words. -/
def column (step : Int → WordStep) (first : Int) (rows : Nat) : List WordStep :=
  (List.range rows).map fun (row : Nat) => step (first + row * rowSize)

/-- The words that `fill_plane` goes through: those of the left edge if it is not
between two words, the whole ones, and those of the right edge. -/
def fillSteps (left top right bottom plane : Int) (pattern : Uint16) : List WordStep :=
  let rowFirst := plane * planeSize + top * rowSize
  let rows := (bottom - top).toNat
  let first := rowFirst + left / 16 * 2
  let last := rowFirst + right / 16 * 2
  let leftMask : Uint16 := 0xffff >>> (left % 16).toNat
  let rightMask : Uint16 := ~~~(0xffff >>> (right % 16).toNat)
  if first = last then
    column (.masked · (leftMask &&& rightMask) (pattern &&& (leftMask &&& rightMask))) first rows
  else
    let middle := if left % 16 ≠ 0 then first + 2 else first
    (if left % 16 ≠ 0 then column (.masked · leftMask (pattern &&& leftMask)) first rows else []) ++
      ((List.range ((last - middle) / 2).toNat).flatMap fun (i : Nat) =>
        column (.whole · pattern) (middle + 2 * i) rows) ++
      (if right % 16 ≠ 0 then column (.masked · rightMask (pattern &&& rightMask)) last rows else [])

/-- Go through words, one after the other. -/
def performAll (steps : List WordStep) (buf : Buffer Byte) : Buffer Byte :=
  steps.foldl (fun buf step => step.perform buf) buf

/-- Fill a rectangle of a plane with a pattern and mark its rows. -/
def fillPlane (left top right bottom plane : Int) (pattern : Uint16) (tvram : TextVideoMemory) :
    TextVideoMemory :=
  markUpdateArea (BitVec.ofInt 32 top) (BitVec.ofInt 32 bottom)
    { tvram with buf := performAll (fillSteps left top right bottom plane pattern) tvram.buf }

/-- The scan of a raster: the row's place, the position and the bytes of the four
planes there. -/
structure RasterIterator where
  buf : Int
  pos : Uint32
  packs : List Byte

/-- Fetch the bytes of the four planes at a position of a row. -/
def packsAt (buf : Buffer Byte) (base : Int) (pos : Uint32) : List Byte :=
  [(0 : Int), 1, 2, 3].map fun plane =>
    buf (base + (pos.toNat / 8 % 128 : Nat) + plane * planeSize)

/-- Where the scan of a row starts. -/
def raster (x y : Uint32) (tvram : TextVideoMemory) : RasterIterator :=
  let base := (y.toNat : Int) * rowSize
  ⟨base, x, packsAt tvram.buf base x⟩

namespace RasterIterator

/-- The number that one bit of each byte makes, the first byte lowest. -/
def value (iterator : RasterIterator) : Nat :=
  let mask : Byte := 0x80 >>> (iterator.pos.toNat % 8)
  iterator.packs.foldr (fun pack value => (if pack &&& mask ≠ 0 then 1 else 0) + 2 * value) 0

/-- Move to the next position, fetching when it is in other bytes. -/
def next (buf : Buffer Byte) (iterator : RasterIterator) : RasterIterator :=
  let pos := iterator.pos + 1
  if pos.toNat / 8 ≠ iterator.pos.toNat / 8 then
    { iterator with pos := pos, packs := packsAt buf iterator.buf pos }
  else { iterator with pos := pos }

end RasterIterator

end TextVideoMemory

end Vx68k
