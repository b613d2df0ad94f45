import Vx68k.ConsoleRefresh
import Vx68k.TextPixels

/-!
# Scanning a row

The raster iterator keeps the bytes of the four planes at its position and fetches new
ones when it moves to another byte. It keeps them right over row ends and over the wrap of
its counter, so that a scan of a row gives the same as a lookup of each pixel.
-/

namespace Vx68k

open ByteStores Buffers TextVideoMemory

namespace PalettesMemory

/-- The colors from one entry of the text palette up to another. -/
def getTextColors (first last : Nat) (palettes : PalettesMemory) : List Uint16 :=
  (List.range' first (last - first)).map palettes.tpalette

end PalettesMemory

namespace RowScan

/-- Write colors from a raster iterator on. -/
def scanFrom (buf : Buffer Byte) (textColors : List Uint16) : Nat → RasterIterator → List Uint16
  | 0, _ => []
  | count + 1, r =>
    let color := textColors.getD r.value 0
    (if color ≠ 0 then color else 0) :: scanFrom buf textColors count (r.next buf)

/-- The colors that `scan_row` writes to an output of some length. -/
def scanRow (y : Uint32) (count : Nat) (palettes : PalettesMemory) (tvram : TextVideoMemory) :
    List Uint16 :=
  scanFrom tvram.buf (palettes.getTextColors 0 16) count (raster 0 y tvram)

/-- The number whose bits are a pixel of the four planes. -/
def pixelValue (buf : Buffer Byte) (x y : Nat) : Nat :=
  Nat.ofBits fun plane : Fin 4 => pixel buf plane x y

/-- A pixel is one of sixteen. -/
theorem pixelValue_lt (buf : Buffer Byte) (x y : Nat) : pixelValue buf x y < 16 :=
  Nat.ofBits_lt_two_pow _

/-- A byte has the bit of a mask. -/
theorem mask_pixel (pack : Byte) {place : Nat} (small : place < 8) :
    pack &&& ((0x80 >>> place : Nat) : Byte) ≠ 0 ↔ pack.getLsbD (7 - place) = true := by
  have power : ((0x80 >>> place : Nat) : Byte) = BitVec.twoPow 8 (7 - place) := by
    interval_cases place <;> rfl
  have some : BitVec.twoPow 8 (7 - place) ≠ 0 := by
    interval_cases place <;> decide
  rw [power, BitVec.and_twoPow]
  split
  · rename_i set
    simp only [set, ne_eq, some, not_false_eq_true]
  · rename_i clear
    exact ⟨fun other => absurd rfl other, fun set => absurd set clear⟩

/-- An iterator over a row has fetched the bytes at its position. -/
structure Scans (buf : Buffer Byte) (y pos : Nat) (r : RasterIterator) : Prop where
  base : r.buf = y * rowSize
  pos : r.pos.toNat % 1024 = pos % 1024
  packs : r.packs = packsAt buf (y * rowSize) r.pos

variable {buf : Buffer Byte} {y pos : Nat} {r : RasterIterator}

/-- Positions in the same byte have the same bytes. -/
theorem packsAt_same (base : Int) {one other : Uint32} (same : one.toNat / 8 = other.toNat / 8) :
    packsAt buf base one = packsAt buf base other := by
  rw [packsAt, packsAt, same]

/-- The next position is scanned next. -/
theorem scans_next (scans : Scans buf y pos r) : Scans buf y (pos + 1) (r.next buf) := by
  obtain ⟨base, here, packs⟩ := scans
  have wraps : (r.pos + 1).toNat = (r.pos.toNat + 1) % 2 ^ 32 := by bv_omega
  have moved : (r.pos + 1).toNat % 1024 = (pos + 1) % 1024 := by omega
  simp only [RasterIterator.next]
  split
  · exact ⟨base, moved, by rw [base]⟩
  · rename_i same
    exact ⟨base, moved, packs.trans (packsAt_same _ (not_not.mp same).symm)⟩

/-- A scan starts at its position. -/
theorem scans_raster (tvram : TextVideoMemory) (x y : Uint32) :
    Scans tvram.buf y.toNat x.toNat (raster x y tvram) := ⟨rfl, rfl, rfl⟩

/-- It moves on from position to position. -/
theorem scans_moved (scans : Scans buf y pos r) (n : Nat) :
    Scans buf y (pos + n) ((RasterIterator.next buf)^[n] r) := by
  induction n generalizing pos r with
  | zero => exact scans
  | succ n inductionHypothesis =>
    rw [Function.iterate_succ_apply, Nat.add_comm n 1, ← Nat.add_assoc]
    exact inductionHypothesis (scans_next scans)

/-- An iterator gives the number of the pixel that it is at. -/
theorem scans_value (scans : Scans buf y pos r) : r.value = pixelValue buf (pos % 1024) y := by
  obtain ⟨base, here, packs⟩ := scans
  have bit (number : Int) (plane : Nat) (same : number = plane) :
      (if buf (y * rowSize + (r.pos.toNat / 8 % 128 : Nat) + number * planeSize) &&&
          ((0x80 >>> (r.pos.toNat % 8) : Nat) : Byte) ≠ 0 then 1 else 0) =
        (pixel buf plane (pos % 1024) y).toNat := by
    subst same
    have place : (plane * planeSize + y * rowSize + (pos % 1024 / 8 : Nat) : Int) =
        y * rowSize + (r.pos.toNat / 8 % 128 : Nat) + plane * planeSize := by omega
    have column : pos % 1024 % 8 = r.pos.toNat % 8 := by omega
    simp only [pixel, cell, place, column, mask_pixel _ (Nat.mod_lt _ (by decide : 0 < 8))]
    split
    · rename_i set
      rw [set]
      rfl
    · rename_i clear
      rw [Bool.not_eq_true] at clear
      rw [clear]
      rfl
  have value : r.value = (r.packs.foldr (fun pack value =>
      (if pack &&& ((0x80 >>> (r.pos.toNat % 8) : Nat) : Byte) ≠ 0 then 1 else 0) + 2 * value) 0) := rfl
  rw [value, packs, packsAt]
  simp only [List.map_cons, List.map_nil, List.foldr_cons, List.foldr_nil]
  have number : pixelValue buf (pos % 1024) y = 2 * (2 * (2 * (pixel buf 3 (pos % 1024) y).toNat +
      (pixel buf 2 (pos % 1024) y).toNat) + (pixel buf 1 (pos % 1024) y).toNat) +
        (pixel buf 0 (pos % 1024) y).toNat := by simp [pixelValue, Nat.ofBits_succ]
  rw [bit 0 0 rfl, bit 1 1 rfl, bit 2 2 rfl, bit 3 3 rfl, number]
  omega

/-- A scan looks its colors up pixel by pixel. -/
theorem scanFrom_lookup (scans : Scans buf y pos r) (textColors : List Uint16) (count : Nat) :
    scanFrom buf textColors count r =
      (List.range' pos count).map fun x => textColors.getD (pixelValue buf (x % 1024) y) 0 := by
  induction count generalizing pos r with
  | zero => rfl
  | succ count inductionHypothesis =>
    rw [scanFrom, inductionHypothesis (scans_next scans), scans_value scans, List.range'_succ,
      List.map_cons]
    congr 1
    split
    · rfl
    · rename_i black
      exact (not_not.mp black).symm

/-- The sixteen colors are entries of the palette. -/
theorem getTextColors_get (palettes : PalettesMemory) {value : Nat} (small : value < 16) :
    (palettes.getTextColors 0 16).getD value 0 = palettes.tpalette value := by
  simp [PalettesMemory.getTextColors, List.getD_eq_getElem?_getD, small]

/-- For every content of the text video memory, every palette and every row, an iterator
from any position gives, after any number of steps, the number whose bits are the pixels of
the four planes that many columns on, counted around the row; and a scan of any length
writes at each position the palette entry of its pixel.

Proof: each step keeps the iterator scanning the row, since bytes are fetched whenever the
position leaves its byte. -/
theorem scan_exact (tvram : TextVideoMemory) (palettes : PalettesMemory) (y : Uint32) :
    (∀ (x : Uint32) (n plane : Nat),
      ((RasterIterator.next tvram.buf)^[n] (raster x y tvram)).value.testBit plane =
        (decide (plane < 4) && pixel tvram.buf plane ((x.toNat + n) % 1024) y.toNat)) ∧
      ∀ count, scanRow y count palettes tvram = (List.range count).map fun index =>
        palettes.tpalette (pixelValue tvram.buf (index % 1024) y.toNat) := by
  constructor
  · intro x n plane
    rw [scans_value (scans_moved (scans_raster tvram x y) n), pixelValue, Nat.testBit_ofBits]
    split
    · rename_i low
      rw [decide_eq_true low, Bool.true_and]
    · rename_i high
      rw [decide_eq_false high, Bool.false_and]
  · intro count
    rw [scanRow, scanFrom_lookup (scans_raster tvram 0 y), List.range_eq_range']
    exact List.map_congr_left fun index _ => getTextColors_get palettes (pixelValue_lt _ _ _)

end RowScan

end Vx68k
