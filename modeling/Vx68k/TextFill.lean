import Vx68k.TextPlanes

/-!
# Filling text video memory for the guest

The IOCS call `_TXFILL` takes a plane, a rectangle and a pattern from a block of six
words and fills the rectangle. Nothing compares the words with the size of the buffer,
unlike the byte and word accesses of the guest, which wrap around it.
-/

namespace Vx68k.TextFill

open ByteStores Buffers TextVideoMemory

/-- The parameter block: the plane and the position are signed, the rest is not. -/
structure FillBlock where
  plane : Uint16
  x : Uint16
  y : Uint16
  width : Uint16
  height : Uint16
  pattern : Uint16

/-- Read the block of a call from guest memory. -/
def readBlock {M : Type} [Bus M] (memory : M) (param : Uint32) : Except Thrown FillBlock := do
  let plane ← Bus.get16 memory param
  let x ← Bus.get16 memory (param + 2)
  let y ← Bus.get16 memory (param + 4)
  let width ← Bus.get16 memory (param + 6)
  let height ← Bus.get16 memory (param + 8)
  let pattern ← Bus.get16 memory (param + 10)
  pure ⟨plane.setWidth 16, x.setWidth 16, y.setWidth 16, width.setWidth 16, height.setWidth 16,
    pattern.setWidth 16⟩

namespace FillBlock

/-- The first column of the rectangle. -/
def left (block : FillBlock) : Int := block.x.toInt

/-- Its first row. -/
def top (block : FillBlock) : Int := block.y.toInt

/-- The column after its last. -/
def right (block : FillBlock) : Int := block.x.toInt + block.width.toNat

/-- The row after its last. -/
def bottom (block : FillBlock) : Int := block.y.toInt + block.height.toNat

/-- The words that the call goes through. -/
def steps (block : FillBlock) : List WordStep :=
  fillSteps block.left block.top block.right block.bottom block.plane.toInt block.pattern

end FillBlock

/-- The call, given the address of its block. -/
def iocsTxfill {M : Type} [Bus M] (memory : M) (param : Uint32) (tvram : TextVideoMemory) :
    Except Thrown TextVideoMemory := do
  let block ← readBlock memory param
  pure (tvram.fillPlane block.left block.top block.right block.bottom block.plane.toInt block.pattern)

/-- The text video memory after a call, with the bytes that the call read or wrote and
the marks that it set. -/
structure Recorded where
  tvram : TextVideoMemory
  bytes : List Int
  marks : Int → Prop

/-- Go through words and note both bytes of each. -/
def performNoting : List WordStep → Buffer Byte → Buffer Byte × List Int
  | [], buf => (buf, [])
  | step :: rest, buf =>
    let later := performNoting rest (step.perform buf)
    (later.1, step.index :: (step.index + 1) :: later.2)

/-- `fill_plane` and the `mark_update_area` at its end with a record. -/
def fillRecorded (left top right bottom plane : Int) (pattern : Uint16) (tvram : TextVideoMemory) :
    Recorded :=
  let filled := performNoting (fillSteps left top right bottom plane pattern) tvram.buf
  let first := BitVec.ofInt 32 top
  let last := BitVec.ofInt 32 bottom
  ⟨markUpdateArea first last { tvram with buf := filled.1 }, filled.2, Fills first last⟩

/-- The call with a record. -/
def txfillRecorded {M : Type} [Bus M] (memory : M) (param : Uint32) (tvram : TextVideoMemory) :
    Except Thrown Recorded := do
  let block ← readBlock memory param
  pure (fillRecorded block.left block.top block.right block.bottom block.plane.toInt block.pattern
    tvram)

/-- The call stayed inside the text video memory: the bytes that it read or wrote lie in
the four planes, and the marks that it set are those of rows. -/
structure Recorded.Inside (recorded : Recorded) : Prop where
  bytes : ∀ index ∈ recorded.bytes, 0 ≤ index ∧ index < 4 * planeSize
  marks : ∀ index, recorded.marks index → 0 ≤ index ∧ index < 1024

/-- The same of a block: both bytes of every word that its rectangle has lie in the four
planes, and the marks of its rows exist. -/
structure Inside (block : FillBlock) : Prop where
  bytes : ∀ step ∈ block.steps, 0 ≤ step.index ∧ step.index + 1 < 4 * planeSize
  marks : ∀ index, Fills (BitVec.ofInt 32 block.top) (BitVec.ofInt 32 block.bottom) index →
    0 ≤ index ∧ index < 1024

/-- The rectangle has no rows, or its rows exist and so do its first byte and its
last. -/
def InBounds (block : FillBlock) : Prop :=
  block.height = 0 ∨
    0 ≤ block.top ∧ block.bottom ≤ 1024 ∧
      0 ≤ block.plane.toInt * planeSize + block.top * rowSize + 2 * (block.left / 16) ∧
      block.plane.toInt * planeSize + (block.bottom - 1) * rowSize +
        2 * max (block.left / 16) ((block.right - 1) / 16) + 1 < 4 * planeSize

instance (block : FillBlock) : Decidable (InBounds block) :=
  inferInstanceAs (Decidable (_ ∨ _))

/-- The last word of a row is the one of the rectangle's last position. -/
theorem word_last {left right word : Int} (ordered : left ≤ right) :
    Word left right word ↔ left / 16 ≤ word ∧ word ≤ max (left / 16) ((right - 1) / 16) := by
  unfold Word
  omega

/-- A row number as the unsigned integer that marks are indexed by. -/
theorem unsigned_toNat (line : Int) (low : -2 ^ 31 ≤ line) (high : line < 2 ^ 31) :
    ((BitVec.ofInt 32 line).toNat : Int) = if 0 ≤ line then line else line + 2 ^ 32 := by
  rw [BitVec.toNat_ofInt]
  split <;> omega

/-- Rows of a block are far from the limits of machine integers. -/
theorem rows_bounded (block : FillBlock) : -2 ^ 15 ≤ block.top ∧ block.top < 2 ^ 15 ∧
    block.bottom = block.top + block.height.toNat ∧ block.height.toNat < 2 ^ 16 :=
  ⟨BitVec.le_toInt block.y, BitVec.toInt_lt, rfl, block.height.isLt⟩

/-- A call that stays inside is in bounds: its first row and the row after its last
say so by their marks, its first word and its last by their bytes. -/
theorem inside_bounds (block : FillBlock) (inside : Inside block) (rows : 0 < block.height.toNat) :
    0 ≤ block.top ∧ block.bottom ≤ 1024 ∧
      0 ≤ block.plane.toInt * planeSize + block.top * rowSize + 2 * (block.left / 16) ∧
      block.plane.toInt * planeSize + (block.bottom - 1) * rowSize +
        2 * max (block.left / 16) ((block.right - 1) / 16) + 1 < 4 * planeSize := by
  obtain ⟨bytes, marks⟩ := inside
  obtain ⟨topLow, topHigh, extent, tall⟩ := rows_bounded block
  have first := unsigned_toNat block.top (by omega) (by omega)
  have last := unsigned_toNat block.bottom (by omega) (by omega)
  have different : BitVec.ofInt 32 block.top ≠ BitVec.ofInt 32 block.bottom := by
    intro same
    rw [same, last] at first
    split at first <;> split at first <;> omega
  have ordered : block.left ≤ block.right := Int.le_add_of_nonneg_right (Int.natCast_nonneg _)
  have fillsFirst : Fills (BitVec.ofInt 32 block.top) (BitVec.ofInt 32 block.bottom)
      (BitVec.ofInt 32 block.top).toNat := by
    refine ⟨different, Int.le_refl _, fun order => ?_⟩
    have apart : (BitVec.ofInt 32 block.top).toNat ≠ (BitVec.ofInt 32 block.bottom).toNat :=
      fun same => different (BitVec.eq_of_toNat_eq same)
    omega
  have low : 0 ≤ block.top := by
    have bounds := marks _ fillsFirst
    split at first <;> omega
  rw [if_pos low] at first
  rw [if_pos (by omega)] at last
  have high : block.bottom ≤ 1024 := by
    have bounds := marks (block.bottom - 1) ⟨different, by omega, fun _ => by omega⟩
    omega
  have word (row : Nat) (inRows : row < (block.bottom - block.top).toNat) (word : Int)
      (inWord : Word block.left block.right word) :
      0 ≤ block.plane.toInt * planeSize + (block.top + row) * rowSize + 2 * word ∧
        block.plane.toInt * planeSize + (block.top + row) * rowSize + 2 * word + 1 < 4 * planeSize := by
    obtain ⟨step, member, here⟩ := (mem_fillSteps ordered).mpr ⟨row, inRows, word, inWord, rfl⟩
    exact here ▸ bytes step member
  have opens := word 0 (by omega) (block.left / 16) ((word_last ordered).mpr ⟨by omega, by omega⟩)
  have closes := word (block.height.toNat - 1) (by omega)
    (max (block.left / 16) ((block.right - 1) / 16)) ((word_last ordered).mpr ⟨by omega, by omega⟩)
  simp only [planeSize, rowSize] at opens closes ⊢
  omega

/-- A call in bounds stays inside. -/
theorem bounds_inside (block : FillBlock) (low : 0 ≤ block.top) (high : block.bottom ≤ 1024)
    (opens : 0 ≤ block.plane.toInt * planeSize + block.top * rowSize + 2 * (block.left / 16))
    (closes : block.plane.toInt * planeSize + (block.bottom - 1) * rowSize +
      2 * max (block.left / 16) ((block.right - 1) / 16) + 1 < 4 * planeSize) : Inside block := by
  obtain ⟨-, topHigh, extent, tall⟩ := rows_bounded block
  have ordered : block.left ≤ block.right := Int.le_add_of_nonneg_right (Int.natCast_nonneg _)
  constructor
  · intro step member
    obtain ⟨row, inRows, word, inWord, place⟩ := (mem_fillSteps ordered).mp ⟨step, member, rfl⟩
    have between := (word_last ordered).mp inWord
    simp only [planeSize, rowSize] at place opens closes ⊢
    omega
  · intro index fills
    obtain ⟨-, after, before⟩ := fills
    have first := unsigned_toNat block.top (by omega) (by omega)
    have last := unsigned_toNat block.bottom (by omega) (by omega)
    rw [if_pos low] at first
    rw [if_pos (by omega)] at last
    have ends := before (by omega)
    omega

/-- A call without rows goes through no words and sets no marks. -/
theorem empty_inside (block : FillBlock) (empty : block.height = 0) : Inside block := by
  have same : block.bottom = block.top := by simp [FillBlock.bottom, FillBlock.top, empty]
  have ordered : block.left ≤ block.right := Int.le_add_of_nonneg_right (Int.natCast_nonneg _)
  constructor
  · intro step member
    obtain ⟨row, inRows, -⟩ := (mem_fillSteps ordered).mp ⟨step, member, rfl⟩
    omega
  · intro index fills
    exact absurd (congrArg (BitVec.ofInt 32) same.symm) fills.1

/-- A block in bounds stays inside. -/
theorem inBounds_inside (block : FillBlock) (bounds : InBounds block) : Inside block := by
  rcases bounds with empty | ⟨low, high, opens, closes⟩
  · exact empty_inside block empty
  · exact bounds_inside block low high opens closes

/-- A block stays inside if and only if its rectangle is in bounds.

Proof: the words of the rectangle lie between its first and its last, both of which it
goes through. -/
theorem block_inside_iff (block : FillBlock) : Inside block ↔ InBounds block := by
  constructor
  · intro inside
    by_cases empty : block.height = 0
    · exact Or.inl empty
    · have rows : 0 < block.height.toNat := by bv_omega
      exact Or.inr (inside_bounds block inside rows)
  · exact inBounds_inside block

/-- Noting changes nothing in what words leave. -/
theorem performNoting_buf (steps : List WordStep) (buf : Buffer Byte) :
    (performNoting steps buf).1 = performAll steps buf := by
  induction steps generalizing buf with
  | nil => rfl
  | cons step rest inductionHypothesis =>
    simp only [performNoting, performAll, List.foldl_cons, inductionHypothesis]

/-- The bytes noted are both bytes of every word. -/
theorem mem_performNoting {steps : List WordStep} {buf : Buffer Byte} {index : Int} :
    index ∈ (performNoting steps buf).2 ↔
      ∃ step ∈ steps, index = step.index ∨ index = step.index + 1 := by
  induction steps generalizing buf with
  | nil => simp [performNoting]
  | cons step rest inductionHypothesis =>
    rw [List.exists_mem_cons_iff, ← @inductionHypothesis (step.perform buf), or_assoc]
    simp only [performNoting, List.mem_cons]

section Calls

variable {M : Type} [Bus M] {memory : M} {param : Uint32} {block : FillBlock}
  {tvram after : TextVideoMemory}

/-- What a call leaves, given its block. -/
theorem iocsTxfill_block (read : readBlock memory param = .ok block)
    (called : iocsTxfill memory param tvram = .ok after) :
    after = markUpdateArea (BitVec.ofInt 32 block.top) (BitVec.ofInt 32 block.bottom)
      { tvram with buf := performAll block.steps tvram.buf } := by
  rw [iocsTxfill, read] at called
  exact (Except.ok.inj called).symm

/-- A call changes no byte but those of the words that it goes through. -/
theorem iocsTxfill_bytes (read : readBlock memory param = .ok block)
    (called : iocsTxfill memory param tvram = .ok after) (index : Int)
    (other : ∀ step ∈ block.steps, index ≠ step.index ∧ index ≠ step.index + 1) :
    after.buf index = tvram.buf index := by
  rw [iocsTxfill_block read called, markUpdateArea_buf]
  exact performAll_other block.steps tvram.buf index other

/-- A call sets no mark but those of its rows. -/
theorem iocsTxfill_marks (read : readBlock memory param = .ok block)
    (called : iocsTxfill memory param tvram = .ok after) (index : Int)
    (other : ¬ Fills (BitVec.ofInt 32 block.top) (BitVec.ofInt 32 block.bottom) index) :
    after.rasterUpdateMarks index = tvram.rasterUpdateMarks index := by
  rw [iocsTxfill_block read called]
  exact if_neg other

/-- A call whose rectangle is in bounds leaves everything outside the four planes and
outside their marks as it was. -/
theorem iocsTxfill_keeps (read : readBlock memory param = .ok block)
    (called : iocsTxfill memory param tvram = .ok after) (bounds : InBounds block) :
    (∀ index, index < 0 ∨ 4 * planeSize ≤ index → after.buf index = tvram.buf index) ∧
      ∀ index, index < 0 ∨ 1024 ≤ index →
        after.rasterUpdateMarks index = tvram.rasterUpdateMarks index := by
  have inside := inBounds_inside block bounds
  constructor
  · intro index outside
    apply iocsTxfill_bytes read called
    intro step member
    have within := inside.bytes step member
    omega
  · intro index outside
    apply iocsTxfill_marks read called
    intro fills
    have within := inside.marks index fills
    omega

/-- A call that gets its block stays inside if and only if the block does. -/
theorem recorded_inside_iff {recorded : Recorded} (read : readBlock memory param = .ok block)
    (called : txfillRecorded memory param tvram = .ok recorded) :
    recorded.Inside ↔ Inside block := by
  rw [txfillRecorded, read] at called
  obtain rfl := Except.ok.inj called
  constructor
  · rintro ⟨bytes, marks⟩
    refine ⟨fun step member => ⟨?_, ?_⟩, marks⟩
    · exact (bytes _ (mem_performNoting.mpr ⟨step, member, Or.inl rfl⟩)).1
    · exact (bytes _ (mem_performNoting.mpr ⟨step, member, Or.inr rfl⟩)).2
  · rintro ⟨bytes, marks⟩
    refine ⟨fun index member => ?_, marks⟩
    obtain ⟨step, among, place⟩ := mem_performNoting.mp member
    have within := bytes step among
    omega

end Calls

/-- For every memory and every address of a block, the call with a record does what the
call does, and what it reads, writes and marks lies in the text video memory if and only
if the rectangle of the block is in bounds. -/
theorem txfill_inside_iff {M : Type} [Bus M] (memory : M) (param : Uint32)
    (tvram : TextVideoMemory) :
    (txfillRecorded memory param tvram).map Recorded.tvram = iocsTxfill memory param tvram ∧
      ((∀ recorded, txfillRecorded memory param tvram = .ok recorded → recorded.Inside) ↔
        ∀ block, readBlock memory param = .ok block → InBounds block) := by
  cases read : readBlock memory param with
  | error thrown => simp [txfillRecorded, iocsTxfill, read, bind, Except.bind, Except.map]
  | ok block =>
    constructor
    · simp only [txfillRecorded, iocsTxfill, read, fillRecorded, fillPlane, performNoting_buf]
      rfl
    · have called : ∃ recorded, txfillRecorded memory param tvram = .ok recorded := by
        rw [txfillRecorded, read]
        exact ⟨_, rfl⟩
      obtain ⟨recorded, called⟩ := called
      constructor
      · rintro inside _ ⟨⟩
        exact (block_inside_iff block).mp ((recorded_inside_iff read called).mp (inside _ called))
      · intro bounds other same
        exact (recorded_inside_iff read same).mpr ((block_inside_iff block).mpr (bounds _ rfl))

/-- One pixel in row 0x7fff of plane 0, asked for by a block at 0x1000: the call ends, but
it got at a byte and set a mark far from the planes. -/
theorem far_row_outside : ∃ recorded,
    txfillRecorded (⟨0x2000, 0, lay (fun _ => 0) 0x1000 [0, 0, 0, 0, 0x7f, 0xff, 0, 1, 0, 1, 0xff, 0xff]⟩ :
      MainMemory.ByteMemory) 0x1000 (construct .sample) = .ok recorded ∧
      4194176 ∈ recorded.bytes ∧ recorded.marks 0x7fff ∧ ¬ recorded.Inside := by
  have marked : Fills (BitVec.ofInt 32 0x7fff) (BitVec.ofInt 32 0x8000) 0x7fff := by decide
  refine ⟨fillRecorded 0 0x7fff 1 0x8000 0 0xffff (construct .sample), rfl, ?_, marked, ?_⟩
  · have far : ∃ step ∈ fillSteps 0 0x7fff 1 0x8000 0 0xffff, step.index = 4194176 :=
      (mem_fillSteps (by decide)).mpr ⟨0, by decide, 0, ⟨by decide, by decide⟩, rfl⟩
    obtain ⟨step, member, place⟩ := far
    exact mem_performNoting.mpr ⟨step, member, Or.inl place.symm⟩
  · intro inside
    exact absurd (inside.marks 0x7fff marked).2 (by decide)

end Vx68k.TextFill
