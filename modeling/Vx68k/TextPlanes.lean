import Vx68k.TextVideo

/-!
# The text planes cell by cell

The bytes of the text video memory by plane, row and byte column, and what painting,
scrolling, word writes and fills do to them. Whoever reasons about the picture uses
these instead of distances from the start of the buffer.
-/

namespace Vx68k.TextVideoMemory

open ByteStores Buffers

/-- The byte at a column of a row of a plane. -/
def cell (buf : Buffer Byte) (plane row column : Nat) : Byte :=
  buf (plane * planeSize + row * rowSize + column)

/-- A bitmap that fits its row replaces its cells in two planes and no others. -/
theorem cell_paint (x y : Nat) (g : Glyph) (buf : Buffer Byte) (fits : x + g.columns ≤ 128)
    (plane row column : Nat) (inRow : column < 128) (inPlane : row < 1024) (low : y < 64) :
    cell (storeAll (paint x y g) buf) plane row column =
      if plane < 2 ∧ 16 * y ≤ row ∧ row < 16 * y + 16 ∧ x ≤ column ∧ column < x + g.columns then
        g.pixels (row - 16 * y) (column - x)
      else cell buf plane row column := by
  have place {value : Byte} : ((plane * planeSize + row * rowSize + column : Int), value) ∈ paint x y g ↔
      (plane < 2 ∧ 16 * y ≤ row ∧ row < 16 * y + 16 ∧ x ≤ column ∧ column < x + g.columns) ∧
        value = g.pixels (row - 16 * y) (column - x) := by
    rw [mem_paint]
    simp only [Prod.mk.injEq, planeSize, rowSize]
    constructor
    · rintro ⟨p, two, r, rLow, c, cLow, same, rfl⟩
      obtain rfl : r = row - 16 * y := by omega
      obtain rfl : c = column - x := by omega
      exact ⟨by omega, rfl⟩
    · rintro ⟨inside, rfl⟩
      exact ⟨plane, by omega, row - 16 * y, by omega, column - x, by omega, by omega, rfl⟩
  unfold cell
  split
  · rename_i inside
    exact storeAll_target _ _ _ _ (List.mem_map.mpr ⟨_, place.mpr ⟨inside, rfl⟩, rfl⟩)
      fun other member => (place.mp member).2
  · rename_i outside
    apply storeAll_other
    intro target
    obtain ⟨⟨index, value⟩, member, rfl⟩ := List.mem_map.mp target
    exact outside (place.mp member).1

/-- Scrolling a plane, by the places in the buffer. -/
theorem scrollPlane_apply (plane : Nat) (buf : Buffer Byte) (index : Int) :
    scrollPlane plane buf index =
      if plane * planeSize + 30 * 16 * rowSize ≤ index ∧
          index < plane * planeSize + 30 * 16 * rowSize + (16 * 128 : Nat) then 0
      else if plane * planeSize ≤ index ∧ index < plane * planeSize + (30 * 16 * 128 : Nat) then
        buf (index - plane * planeSize + (plane * planeSize + 16 * rowSize))
      else buf index := by
  unfold scrollPlane
  exact fill_copy_apply _ _ _ _ _ _ _ (by simp only [rowSize]; omega) _

/-- Scrolling a plane moves 30 text lines up and blanks the one after them. -/
theorem cell_scrollPlane (scrolled : Nat) (buf : Buffer Byte) (plane row column : Nat)
    (inRow : column < 128) (inPlane : row < 1024) :
    cell (scrollPlane scrolled buf) plane row column =
      if plane = scrolled ∧ row < 480 then cell buf plane (row + 16) column
      else if plane = scrolled ∧ row < 496 then 0
      else cell buf plane row column := by
  rw [cell, cell, cell, scrollPlane_apply]
  simp only [planeSize, rowSize]
  by_cases same : plane = scrolled
  · subst same
    by_cases moved : row < 480
    · rw [if_neg (by omega), if_pos (by omega), if_pos ⟨rfl, moved⟩]
      exact congrArg buf (by omega)
    · by_cases blank : row < 496
      · rw [if_pos (by omega), if_neg (by omega), if_pos ⟨rfl, blank⟩]
      · rw [if_neg (by omega), if_neg (by omega), if_neg (by omega), if_neg (by omega)]
  · rw [if_neg (by omega), if_neg (by omega), if_neg (by omega), if_neg (by omega)]

/-- Scrolling moves the first two planes. -/
theorem cell_scroll (buf : Buffer Byte) (plane row column : Nat) (inRow : column < 128)
    (inPlane : row < 1024) :
    cell (scrollPlane 1 (scrollPlane 0 buf)) plane row column =
      if plane < 2 ∧ row < 480 then cell buf plane (row + 16) column
      else if plane < 2 ∧ row < 496 then 0
      else cell buf plane row column := by
  rw [cell_scrollPlane 1 _ plane row column inRow inPlane]
  by_cases one : plane = 1
  · have other (row : Nat) (inPlane : row < 1024) :
        cell (scrollPlane 0 buf) plane row column = cell buf plane row column := by
      rw [cell_scrollPlane 0 _ _ _ _ inRow inPlane, if_neg (by omega), if_neg (by omega)]
    have same : plane = 1 ↔ plane < 2 := by omega
    by_cases moved : row < 480
    · rw [if_pos ⟨one, moved⟩, if_pos (by omega), other _ (by omega)]
    · have still (which : Prop) : ¬ (which ∧ row < 480) := fun both => moved both.2
      rw [if_neg (still (plane = 1)), if_neg (still (plane < 2)), other _ inPlane]
      simp only [same]
  · rw [if_neg (by omega), if_neg (by omega), cell_scrollPlane 0 _ _ _ _ inRow inPlane]
    have same : plane = 0 ↔ plane < 2 := by omega
    simp only [same]

/-- A byte stored at an address keeps the other rows. -/
theorem cell_store (address : Uint32) (value : Byte) (buf : Buffer Byte) (plane row column : Nat)
    (inRow : column < 128) (inPlane : row < 1024) (other : row ≠ offset address / 128 % 1024) :
    cell (store buf (offset address) value) plane row column = cell buf plane row column := by
  apply if_neg
  simp only [planeSize, rowSize]
  omega

/-- So does a word at an even address. -/
theorem cell_storeWord (address : Uint32) (value : Uint16) (buf : Buffer Byte)
    (plane row column : Nat) (inRow : column < 128) (inPlane : row < 1024)
    (even : address.toNat % 2 = 0) (other : row ≠ offset address / 128 % 1024) :
    cell (storeWord (offset address) value buf) plane row column = cell buf plane row column := by
  refine (if_neg ?_).trans (cell_store address _ buf plane row column inRow inPlane other)
  simp only [planeSize, rowSize]
  unfold offset at other ⊢
  omega

/-- A word of a row that a fill from one position to another goes through. -/
def Word (left right word : Int) : Prop :=
  left / 16 ≤ word ∧
    (word < right / 16 ∨ word = right / 16 ∧ (left / 16 = right / 16 ∨ right % 16 ≠ 0))

/-- What a fill does at a word of a row: it replaces the bits from the left edge on, those
before the right edge, both, or all. -/
def stepAt (left right : Int) (pattern : Uint16) (word index : Int) : WordStep :=
  let leftMask : Uint16 := 0xffff >>> (left % 16).toNat
  let rightMask : Uint16 := ~~~(0xffff >>> (right % 16).toNat)
  if left / 16 = right / 16 then
    .masked index (leftMask &&& rightMask) (pattern &&& (leftMask &&& rightMask))
  else if word = left / 16 ∧ left % 16 ≠ 0 then .masked index leftMask (pattern &&& leftMask)
  else if word = right / 16 then .masked index rightMask (pattern &&& rightMask)
  else .whole index pattern

/-- A step is at its word. -/
@[simp]
theorem stepAt_index (left right : Int) (pattern : Uint16) (word index : Int) :
    (stepAt left right pattern word index).index = index := by
  simp only [stepAt]
  split
  · rfl
  · split
    · rfl
    · split
      · rfl
      · rfl

section Steps

variable {P : WordStep → Prop} {step : Int → WordStep} {rows : Nat}

/-- A column of steps makes the same step in every row. -/
theorem exists_column {first : Int} : (∃ done ∈ column step first rows, P done) ↔
    ∃ row : Nat, row < rows ∧ P (step (first + row * rowSize)) := by
  simp only [column, List.mem_map, List.mem_range]
  constructor
  · rintro ⟨_, ⟨row, inside, rfl⟩, holds⟩
    exact ⟨row, inside, holds⟩
  · rintro ⟨row, inside, holds⟩
    exact ⟨_, ⟨row, inside, rfl⟩, holds⟩

/-- Columns of words side by side. -/
theorem exists_columns {count : Nat} {middle : Int} :
    (∃ done ∈ (List.range count).flatMap fun (i : Nat) => column step (middle + 2 * i) rows, P done) ↔
      ∃ i : Nat, i < count ∧ ∃ row : Nat, row < rows ∧ P (step (middle + 2 * i + row * rowSize)) := by
  simp only [List.mem_flatMap, List.mem_range]
  constructor
  · rintro ⟨done, ⟨i, inside, member⟩, holds⟩
    exact ⟨i, inside, exists_column.mp ⟨done, member, holds⟩⟩
  · rintro ⟨i, inside, found⟩
    obtain ⟨done, member, holds⟩ := exists_column.mpr found
    exact ⟨done, ⟨i, inside, member⟩, holds⟩

/-- The words of an edge are there if the edge is between two words. -/
theorem exists_edge {cut : Prop} [Decidable cut] {first : Int} :
    (∃ done ∈ if cut then column step first rows else [], P done) ↔
      cut ∧ ∃ row : Nat, row < rows ∧ P (step (first + row * rowSize)) := by
  split
  · rename_i isCut
    rw [exists_column]
    exact (and_iff_right isCut).symm
  · rename_i uncut
    simp [uncut]

/-- The first word that a fill between two words or more sets as a whole. -/
def firstWhole (left : Int) : Int := if left % 16 ≠ 0 then left / 16 + 1 else left / 16

/-- A fill that ends in another word goes through that of its left edge, the whole ones
and that of its right edge. -/
theorem word_iff {left right word : Int} (ordered : left ≤ right) (different : left / 16 ≠ right / 16) :
    Word left right word ↔ (word = left / 16 ∧ left % 16 ≠ 0) ∨
      (∃ i : Nat, i < (right / 16 - firstWhole left).toNat ∧ word = firstWhole left + i) ∨
      (word = right / 16 ∧ right % 16 ≠ 0) := by
  unfold Word firstWhole
  have middle (start : Int) : (∃ i : Nat, i < (right / 16 - start).toNat ∧ word = start + i) ↔
      start ≤ word ∧ word < right / 16 := by
    constructor
    · rintro ⟨i, inside, rfl⟩
      omega
    · rintro ⟨low, high⟩
      exact ⟨(word - start).toNat, by omega, by omega⟩
  rw [middle]
  split <;> omega

/-- Where a fill ends in another word, it treats each kind of word in its own way. -/
theorem stepAt_kinds {left right : Int} (pattern : Uint16) (index : Int)
    (different : left / 16 ≠ right / 16) :
    (left % 16 ≠ 0 → stepAt left right pattern (left / 16) index =
      .masked index (0xffff >>> (left % 16).toNat : Uint16)
        (pattern &&& (0xffff >>> (left % 16).toNat : Uint16))) ∧
    (∀ i : Nat, i < (right / 16 - firstWhole left).toNat →
      stepAt left right pattern (firstWhole left + i) index = .whole index pattern) ∧
    stepAt left right pattern (right / 16) index =
      .masked index (~~~(0xffff >>> (right % 16).toNat) : Uint16)
        (pattern &&& (~~~(0xffff >>> (right % 16).toNat) : Uint16)) := by
  simp only [stepAt, if_neg different]
  refine ⟨fun cut => if_pos ⟨trivial, cut⟩, fun i inside => ?_, ?_⟩
  · have above : ¬ (firstWhole left + i = left / 16 ∧ left % 16 ≠ 0) := by
      unfold firstWhole
      split <;> omega
    have below : firstWhole left + i ≠ right / 16 := by omega
    rw [if_neg above, if_neg below]
  · rw [if_neg fun both => different both.1.symm, if_pos trivial]

/-- A fill goes through these words of every row. -/
theorem exists_fillSteps {left top right bottom plane : Int} {pattern : Uint16}
    (ordered : left ≤ right) :
    (∃ step ∈ fillSteps left top right bottom plane pattern, P step) ↔
      ∃ row : Nat, row < (bottom - top).toNat ∧ ∃ word, Word left right word ∧
        P (stepAt left right pattern word (plane * planeSize + (top + row) * rowSize + 2 * word)) := by
  simp only [fillSteps]
  generalize (bottom - top).toNat = rows
  have place (word : Int) (row : Nat) : plane * planeSize + top * rowSize + word * 2 + row * rowSize =
      plane * planeSize + (top + row) * rowSize + 2 * word := by
    simp only [rowSize]
    omega
  split
  · rename_i same
    have one : left / 16 = right / 16 := by omega
    have only (word : Int) : Word left right word ↔ word = left / 16 := by
      unfold Word
      omega
    simp only [stepAt, if_pos one, exists_column, only, exists_eq_left, place]
  · rename_i different
    have two : left / 16 ≠ right / 16 := by omega
    have kinds (index : Int) := @stepAt_kinds left right pattern index two
    have middle : (if left % 16 ≠ 0 then plane * planeSize + top * rowSize + left / 16 * 2 + 2
        else plane * planeSize + top * rowSize + left / 16 * 2) =
        plane * planeSize + top * rowSize + firstWhole left * 2 := by
      unfold firstWhole
      split <;> omega
    have count : (plane * planeSize + top * rowSize + right / 16 * 2 -
        (plane * planeSize + top * rowSize + firstWhole left * 2)) / 2 =
        right / 16 - firstWhole left := by omega
    have whole (i row : Nat) : plane * planeSize + top * rowSize + firstWhole left * 2 + 2 * i +
        row * rowSize = plane * planeSize + (top + row) * rowSize + 2 * (firstWhole left + i) := by
      rw [← place]
      omega
    simp only [List.mem_append, or_and_right, exists_or, exists_columns, exists_edge, middle, count,
      place, whole]
    constructor
    · rintro ((⟨cut, row, inside, holds⟩ | ⟨i, low, row, inside, holds⟩) | ⟨cut, row, inside, holds⟩)
      · refine ⟨row, inside, left / 16, (word_iff ordered two).mpr (Or.inl ⟨rfl, cut⟩), ?_⟩
        rwa [(kinds _).1 cut]
      · refine ⟨row, inside, _, (word_iff ordered two).mpr (Or.inr (Or.inl ⟨i, low, rfl⟩)), ?_⟩
        rwa [(kinds _).2.1 i low]
      · refine ⟨row, inside, right / 16, (word_iff ordered two).mpr (Or.inr (Or.inr ⟨rfl, cut⟩)), ?_⟩
        rwa [(kinds _).2.2]
    · rintro ⟨row, inside, word, inWord, holds⟩
      rcases (word_iff ordered two).mp inWord with ⟨rfl, cut⟩ | ⟨i, low, rfl⟩ | ⟨rfl, cut⟩
      · rw [(kinds _).1 cut] at holds
        exact Or.inl (Or.inl ⟨cut, row, inside, holds⟩)
      · rw [(kinds _).2.1 i low] at holds
        exact Or.inl (Or.inr ⟨i, low, row, inside, holds⟩)
      · rw [(kinds _).2.2] at holds
        exact Or.inr ⟨cut, row, inside, holds⟩

end Steps

/-- The places that a fill goes through are those of the words in its rows. -/
theorem mem_fillSteps {left top right bottom plane : Int} {pattern : Uint16} (ordered : left ≤ right)
    {index : Int} :
    (∃ step ∈ fillSteps left top right bottom plane pattern, step.index = index) ↔
      ∃ row : Nat, row < (bottom - top).toNat ∧ ∃ word, Word left right word ∧
        index = plane * planeSize + (top + row) * rowSize + 2 * word := by
  rw [exists_fillSteps ordered]
  simp only [stepAt_index, eq_comm]

/-- The bytes at which no word starts or ends are kept. -/
theorem performAll_other (steps : List WordStep) (buf : Buffer Byte) (index : Int)
    (other : ∀ step ∈ steps, index ≠ step.index ∧ index ≠ step.index + 1) :
    performAll steps buf index = buf index := by
  induction steps generalizing buf with
  | nil => rfl
  | cons step rest inductionHypothesis =>
    obtain ⟨first, later⟩ := List.forall_mem_cons.mp other
    apply (inductionHypothesis (step.perform buf) later).trans
    cases step <;> simp only [WordStep.index] at first <;>
      simp [WordStep.perform, storeWord, store, first]

/-- A fill within a plane keeps the rows that it does not fill. -/
theorem cell_fill (left top right bottom : Int) (filled : Nat) (pattern : Uint16) (buf : Buffer Byte)
    (leftLow : 0 ≤ left) (leftHigh : left < 1024) (ordered : left ≤ right) (rightHigh : right ≤ 1024)
    (topLow : 0 ≤ top) (bottomHigh : bottom ≤ 1024) (plane row column : Nat)
    (inRow : column < 128) (inPlane : row < 1024) (outside : row < top ∨ bottom ≤ row) :
    cell (performAll (fillSteps left top right bottom filled pattern) buf) plane row column =
      cell buf plane row column := by
  apply performAll_other
  intro step member
  obtain ⟨line, inside, word, inWord, place⟩ := (mem_fillSteps ordered).mp ⟨step, member, rfl⟩
  unfold Word at inWord
  simp only [planeSize, rowSize] at place ⊢
  omega

end Vx68k.TextVideoMemory
