import Vx68k.TextPlanes

/-!
# Pixels of the text planes

A pixel of a plane is a bit of its row, the leftmost one the highest of its byte and of
its word. A fill of a plane works on words with masks; what it leaves is said pixel by
pixel, and the marks it sets row by row.
-/

namespace Vx68k.TextVideoMemory

open ByteStores Buffers

/-- The bit of a plane at a position of a row. -/
def pixel (buf : Buffer Byte) (plane x y : Nat) : Bool :=
  (cell buf plane y (x / 8)).getLsbD (7 - x % 8)

/-- The place of the word that has a pixel. -/
def wordIndex (plane x y : Nat) : Int := plane * planeSize + y * rowSize + 2 * (x / 16 : Nat)

/-- A pixel is a bit of its word. -/
theorem pixel_word (buf : Buffer Byte) (plane x y : Nat) :
    pixel buf plane x y = (word buf (wordIndex plane x y)).getLsbD (15 - x % 16) := by
  rw [pixel, cell, word, BitVec.getLsbD_append]
  by_cases high : x % 16 < 8
  · have place : (plane * planeSize + y * rowSize + (x / 8 : Nat) : Int) = wordIndex plane x y := by
      simp only [wordIndex, rowSize, planeSize]
      omega
    rw [if_neg (by omega), place, show 7 - x % 8 = 15 - x % 16 - 8 by omega]
  · have place : (plane * planeSize + y * rowSize + (x / 8 : Nat) : Int) = wordIndex plane x y + 1 := by
      simp only [wordIndex, rowSize, planeSize]
      omega
    rw [if_pos (by omega), place, show 7 - x % 8 = 15 - x % 16 by omega]

/-- A word that has been stored. -/
theorem word_storeWord (buf : Buffer Byte) (index : Int) (value : Uint16) :
    word (storeWord index value buf) index = value := by
  have first : storeWord index value buf index = value.extractLsb' 8 8 := by
    rw [storeWord, store, if_neg (by omega), store, if_pos rfl]
  have second : storeWord index value buf (index + 1) = value.extractLsb' 0 8 := if_pos rfl
  rw [word, first, second]
  apply BitVec.eq_of_getLsbD_eq
  intro bit inside
  rw [BitVec.getLsbD_append]
  split
  · rename_i low
    simp [low]
  · rename_i high
    rw [BitVec.getLsbD_extractLsb', decide_eq_true (by omega), Bool.true_and,
      Nat.add_sub_cancel' (by omega)]

/-- Another word at an even distance is kept. -/
theorem word_storeWord_other (buf : Buffer Byte) {index other : Int} (value : Uint16)
    (different : other ≠ index) (even : (other - index) % 2 = 0) :
    word (storeWord index value buf) other = word buf other := by
  have kept (place : Int) (first : place ≠ index) (second : place ≠ index + 1) :
      storeWord index value buf place = buf place := by
    rw [storeWord, store, if_neg second, store, if_neg first]
  rw [word, word, kept other different (by omega), kept (other + 1) (by omega) (by omega)]

/-- The bits of a word that a step replaces. -/
def WordStep.mask : WordStep → Uint16
  | .masked _ mask _ => mask
  | .whole _ _ => 0xffff

/-- A step replaces bits of its word by those of a pattern. -/
def WordStep.Follows (pattern : Uint16) : WordStep → Prop
  | .masked _ mask bits => bits = pattern &&& mask
  | .whole _ bits => bits = pattern

/-- The word of a step afterwards, bit by bit. -/
theorem perform_bit {step : WordStep} {pattern : Uint16} (follows : step.Follows pattern)
    (buf : Buffer Byte) (bit : Nat) (inWord : bit < 16) :
    (word (step.perform buf) step.index).getLsbD bit =
      if step.mask.getLsbD bit then pattern.getLsbD bit
      else (word buf step.index).getLsbD bit := by
  cases step with
  | masked index mask bits =>
    obtain rfl : bits = pattern &&& mask := follows
    simp only [WordStep.perform, WordStep.index, WordStep.mask, word_storeWord, BitVec.getLsbD_or,
      BitVec.getLsbD_and, BitVec.getLsbD_not, inWord, decide_true, Bool.true_and]
    by_cases replaced : mask.getLsbD bit = true <;> simp [replaced]
  | whole index bits =>
    obtain rfl : bits = pattern := follows
    have all : (0xffff : Uint16).getLsbD bit = true := by
      rw [show (0xffff : Uint16) = BitVec.allOnes 16 from rfl, BitVec.getLsbD_allOnes]
      exact decide_eq_true inWord
    rw [WordStep.perform, WordStep.index, WordStep.mask, word_storeWord, if_pos all]

/-- Steps that follow one pattern leave its bits where one of them replaces bits, whatever
their order. -/
theorem performAll_bit {steps : List WordStep} {pattern : Uint16} {index : Int}
    (follow : ∀ step ∈ steps, step.Follows pattern)
    (even : ∀ step ∈ steps, (index - step.index) % 2 = 0) (buf : Buffer Byte) (bit : Nat)
    (inWord : bit < 16) :
    (word (performAll steps buf) index).getLsbD bit =
      if ∃ step ∈ steps, step.index = index ∧ step.mask.getLsbD bit then pattern.getLsbD bit
      else (word buf index).getLsbD bit := by
  induction steps generalizing buf with
  | nil => simp [performAll]
  | cons step rest inductionHypothesis =>
    obtain ⟨first, later⟩ := List.forall_mem_cons.mp follow
    obtain ⟨evenFirst, evenLater⟩ := List.forall_mem_cons.mp even
    rw [performAll, List.foldl_cons, ← performAll, inductionHypothesis later evenLater]
    simp only [List.exists_mem_cons_iff]
    by_cases replaced : ∃ step ∈ rest, step.index = index ∧ step.mask.getLsbD bit
    · rw [if_pos replaced, if_pos (Or.inr replaced)]
    · rw [if_neg replaced]
      simp only [replaced, or_false]
      by_cases here : step.index = index
      · subst here
        rw [perform_bit first buf bit inWord]
        simp only [true_and]
      · have kept : word (step.perform buf) index = word buf index := by
          cases step with
          | masked place mask bits => exact word_storeWord_other _ _ (Ne.symm here) evenFirst
          | whole place bits => exact word_storeWord_other _ _ (Ne.symm here) evenFirst
        rw [kept, if_neg fun both => here both.1]

/-- What a fill does at a word follows its pattern. -/
theorem stepAt_follows (left right : Int) (pattern : Uint16) (word index : Int) :
    (stepAt left right pattern word index).Follows pattern := by
  simp only [stepAt]
  split
  · rfl
  · split
    · rfl
    · split
      · rfl
      · rfl

/-- A shifted mask of ones has the bits to the right of an edge. -/
theorem mask_bit (edge place : Nat) (inWord : place < 16) :
    ((0xffff >>> edge : Nat) : Uint16).getLsbD (15 - place) = decide (edge ≤ place) := by
  rw [BitVec.natCast_eq_ofNat, BitVec.getLsbD_ofNat, decide_eq_true (by omega), Bool.true_and,
    Nat.testBit_shiftRight, show 0xffff = 2 ^ 16 - 1 from rfl, Nat.testBit_two_pow_sub_one]
  congr 1
  apply propext
  omega

/-- At a word of a fill, the replaced bits are those of the pixels between the edges. -/
theorem stepAt_mask {left right word : Int} (pattern : Uint16) (index : Int)
    (inWord : Word left right word) (place : Nat) (small : place < 16) :
    (stepAt left right pattern word index).mask.getLsbD (15 - place) ↔
      left ≤ 16 * word + place ∧ 16 * word + place < right := by
  have rightMask : (~~~((0xffff >>> (right % 16).toNat : Nat) : Uint16)).getLsbD (15 - place) =
      decide (place < (right % 16).toNat) := by
    rw [BitVec.getLsbD_not, mask_bit _ _ small, decide_eq_true (by omega), Bool.true_and, ← decide_not]
    simp only [Nat.not_le]
  unfold Word at inWord
  simp only [stepAt]
  split
  · simp only [WordStep.mask, BitVec.getLsbD_and, mask_bit _ _ small, rightMask, Bool.and_eq_true,
      decide_eq_true_eq]
    omega
  · split
    · simp only [WordStep.mask, mask_bit _ _ small, decide_eq_true_eq]
      omega
    · split
      · simp only [WordStep.mask, rightMask, decide_eq_true_eq]
        omega
      · have all : (0xffff : Uint16).getLsbD (15 - place) = true :=
          (mask_bit 0 place small).trans (decide_eq_true (Nat.zero_le _))
        simp only [WordStep.mask, all, true_iff]
        omega

section Fills

variable {left top right bottom filled : Int} {pattern : Uint16}

/-- The pixels that the words of a fill replace are those of the rectangle. -/
theorem fillSteps_replace (ordered : left ≤ right) (leftLow : 0 ≤ left) (rightHigh : right ≤ 1024)
    (topLow : 0 ≤ top) (bottomHigh : bottom ≤ 1024) {plane x y : Nat} (inRow : x < 1024)
    (inPlane : y < 1024) :
    (∃ step ∈ fillSteps left top right bottom filled pattern, step.index = wordIndex plane x y ∧
        step.mask.getLsbD (15 - x % 16)) ↔
      plane = filled ∧ left ≤ x ∧ x < right ∧ top ≤ y ∧ y < bottom := by
  rw [exists_fillSteps ordered]
  simp only [stepAt_index]
  constructor
  · rintro ⟨row, inside, word, inWord, place, replaced⟩
    have between := (stepAt_mask pattern _ inWord (x % 16) (Nat.mod_lt _ (by decide))).mp replaced
    unfold Word at inWord
    simp only [wordIndex, planeSize, rowSize] at place
    omega
  · rintro ⟨rfl, after, before, low, high⟩
    have inWord : Word left right (x / 16 : Nat) := by
      unfold Word
      omega
    refine ⟨(y - top).toNat, by omega, (x / 16 : Nat), inWord, ?_, ?_⟩
    · simp only [wordIndex, planeSize, rowSize]
      omega
    · exact (stepAt_mask pattern _ inWord (x % 16) (Nat.mod_lt _ (by decide))).mpr (by omega)

/-- A row number as the unsigned integer that marks are indexed by, and back. -/
theorem mark_iff (topLow : 0 ≤ top) (ordered : top ≤ bottom) (bottomHigh : bottom ≤ 1024) (index : Int) :
    Fills (BitVec.ofInt 32 top) (BitVec.ofInt 32 bottom) index ↔ top ≤ index ∧ index < bottom := by
  have number (line : Int) (low : 0 ≤ line) (high : line ≤ 1024) :
      ((BitVec.ofInt 32 line).toNat : Int) = line := by
    rw [BitVec.toNat_ofInt]
    omega
  have first := number top topLow (by omega)
  have last := number bottom (by omega) bottomHigh
  unfold Fills
  constructor
  · rintro ⟨-, after, before⟩
    omega
  · rintro ⟨after, before⟩
    refine ⟨fun same => ?_, by omega, by omega⟩
    rw [same] at first
    omega

/-- For every rectangle within the plane, every plane and every pattern: a fill replaces
exactly the pixels of the rectangle, by the bits of the pattern that lie at the same
places of a word, and sets exactly the marks of its rows.

Proof: the words of the fill follow the pattern, so the last step that replaces a bit
leaves the bit of the pattern; the masks of all words together make the rectangle. -/
theorem fillPlane_exact (tvram : TextVideoMemory) (left top right bottom filled : Int)
    (pattern : Uint16) (leftLow : 0 ≤ left) (wide : left ≤ right) (rightHigh : right ≤ 1024)
    (topLow : 0 ≤ top) (tall : top ≤ bottom) (bottomHigh : bottom ≤ 1024) :
    (∀ plane x y : Nat, plane < 4 → x < 1024 → y < 1024 →
      pixel (tvram.fillPlane left top right bottom filled pattern).buf plane x y =
        if plane = filled ∧ left ≤ x ∧ x < right ∧ top ≤ y ∧ y < bottom then
          pattern.getLsbD (15 - x % 16)
        else pixel tvram.buf plane x y) ∧
      ∀ index, (tvram.fillPlane left top right bottom filled pattern).rasterUpdateMarks index =
        if top ≤ index ∧ index < bottom then true else tvram.rasterUpdateMarks index := by
  constructor
  · intro plane x y planeLow inRow inPlane
    have follow : ∀ step ∈ fillSteps left top right bottom filled pattern, step.Follows pattern := by
      intro step member
      by_contra strays
      have stray : ∃ step ∈ fillSteps left top right bottom filled pattern, ¬ step.Follows pattern :=
        ⟨step, member, strays⟩
      obtain ⟨row, inside, word, inWord, other⟩ := (exists_fillSteps wide).mp stray
      exact other (stepAt_follows left right pattern word _)
    have even : ∀ step ∈ fillSteps left top right bottom filled pattern,
        (wordIndex plane x y - step.index) % 2 = 0 := by
      intro step member
      obtain ⟨row, inside, word, inWord, place⟩ := (mem_fillSteps wide).mp ⟨step, member, rfl⟩
      simp only [wordIndex, planeSize, rowSize] at place ⊢
      omega
    rw [fillPlane, markUpdateArea_buf, pixel_word, performAll_bit follow even _ _ (by omega),
      ← pixel_word]
    simp only [fillSteps_replace wide leftLow rightHigh topLow bottomHigh inRow inPlane]
  · intro index
    rw [fillPlane, markUpdateArea]
    simp only [mark_iff topLow tall bottomHigh]

/-- From inside one word to the edge of another, across two. -/
theorem fillPlane_exact_edges :
    pixel ((construct .sample).fillPlane 13 5 64 7 2 0x8005).buf 2 15 6 = true ∧
      pixel ((construct .sample).fillPlane 13 5 64 7 2 0x8005).buf 2 64 6 = false := by
  have exact := (fillPlane_exact (construct .sample) 13 5 64 7 2 0x8005 (by decide) (by decide)
    (by decide) (by decide) (by decide) (by decide)).1
  constructor
  · rw [exact 2 15 6 (by decide) (by decide) (by decide)]
    decide
  · rw [exact 2 64 6 (by decide) (by decide) (by decide)]
    decide

end Fills

end Vx68k.TextVideoMemory
