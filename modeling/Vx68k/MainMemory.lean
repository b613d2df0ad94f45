import Vx68k.ByteStores
import Vx68k.Programs
import Mathlib.Tactic.IntervalCases

/-!
# Main memory as an array of 16-bit cells

The component stores half as many 16-bit cells as it has bytes. Six methods
access it at byte, word and long-word width, each with its own range test, masks
and choice of half. Addresses are mirrored every 2^24 bytes. A write by any
function code but supervisor data is refused below the protected size.

An access to a cell the array does not have is undefined in the source; it ends
here with a fault of its own, so that no result is invented for it. The same
holds for a failed alignment assertion. The assertions that a cell's value fits
16 bits hold by the type of the cells.
-/

namespace Vx68k

open Programs ByteStores

/-- A 32-bit machine word; the wider host types of a byte or a word argument are
masked before use. -/
abbrev Uint32 := BitVec 32

/-- Classes of memory references. -/
inductive FunctionCode where
  | userData | userProgram | superData | superProgram
deriving DecidableEq

/-- Whether a bus error was raised by a read or by a write. -/
inductive Direction where
  | read | write
deriving DecidableEq

/-- How an access fails: a bus error with its address and status, a failed
alignment assertion, or an index outside the cell array. -/
inductive Fault where
  | busError (address : Uint32) (direction : Direction) (fc : FunctionCode)
  | assertion
  | outOfBounds
deriving DecidableEq

/-- The object's fields. The array was allocated with one cell for two bytes. -/
structure MainMemory where
  size : Uint32
  protectedSize : Uint32
  content : Array (BitVec 16)
  allocated : content.size = size.toNat / 2

namespace MainMemory

/-- The constructor rounds the size up to an even number of bytes. Fresh storage
holds whatever the allocator of the host left in it. -/
def construct (size : Uint32) (initial : Nat → BitVec 16) : MainMemory where
  size := (size + 1) / 2 * 2
  protectedSize := 0
  content := Array.ofFn fun cell : Fin (((size + 1) / 2 * 2).toNat / 2) => initial cell
  allocated := Array.size_ofFn

/-- Set the size of the area that only the supervisor may write to. -/
def setProtectedSize (memory : MainMemory) (protectedSize : Uint32) : MainMemory :=
  { memory with protectedSize := protectedSize }

/-- A method of the object. -/
abbrev Method := Program Fault MainMemory

/-- Raise a failure unless a condition holds. -/
def require (condition : Prop) [Decidable condition] (failure : Fault) : Method Unit :=
  if condition then pure () else Program.raise failure

/-- Read a cell, widened to a machine word. -/
def cell (index : Uint32) : Method Uint32 := Program.atomic fun memory =>
  match memory.content[index.toNat]? with
  | some value => (.ok (value.setWidth 32), memory)
  | none => (.error .outOfBounds, memory)

/-- The memory with one cell replaced; the array keeps its size. -/
def set (memory : MainMemory) (index : Nat) (inside : index < memory.content.size)
    (value : BitVec 16) : MainMemory where
  size := memory.size
  protectedSize := memory.protectedSize
  content := memory.content.set index value
  allocated := by simpa using memory.allocated

/-- Assign the low half of a machine word to a cell. -/
def assign (index value : Uint32) : Method Unit := Program.atomic fun memory =>
  if inside : index.toNat < memory.content.size then
    (.ok (), memory.set index.toNat inside (value.setWidth 16))
  else (.error .outOfBounds, memory)

/-- Read a byte. -/
def get8 (address : Uint32) (fc : FunctionCode) : Method Uint32 := do
  let memory ← Program.state
  let i := address &&& 0xffffff
  require (i < memory.size) (.busError address .read fc)
  let value ← cell (i / 2)
  if i &&& 1 = 0 then pure (value >>> 8) else pure (value &&& 0xff)

/-- Read a word. The address has to be even. -/
def get16 (address : Uint32) (fc : FunctionCode) : Method Uint32 := do
  require (address &&& 1 = 0) .assertion
  let memory ← Program.state
  let i := address &&& 0xffffff
  require (i < memory.size) (.busError address .read fc)
  cell (i / 2)

/-- Read a long word. The address has to be a multiple of four. -/
def get32 (address : Uint32) (fc : FunctionCode) : Method Uint32 := do
  require (address &&& 3 = 0) .assertion
  let memory ← Program.state
  require (address % 0x1000000 < memory.size) (.busError address .read fc)
  let i := address % 0x1000000 / 2
  let value0 ← cell i
  let value1 ← cell (i + 1)
  pure (value0 <<< 16 ||| value1)

/-- The range test shared by the writing methods. -/
def writable (memory : MainMemory) (address : Uint32) (fc : FunctionCode) : Prop :=
  ¬ (memory.size ≤ address % 0x1000000 ∨
    fc ≠ .superData ∧ address % 0x1000000 < memory.protectedSize)

instance (memory : MainMemory) (address : Uint32) (fc : FunctionCode) :
    Decidable (writable memory address fc) :=
  inferInstanceAs (Decidable (¬ _))

/-- Write a byte into its half of a cell. -/
def put8 (address value : Uint32) (fc : FunctionCode) : Method Unit := do
  let value := value &&& 0xff
  let memory ← Program.state
  require (writable memory address fc) (.busError address .write fc)
  let i := address % 0x1000000 / 2
  let old ← cell i
  if address % 2 ≠ 0 then assign i (old &&& 0xff00 ||| value)
  else assign i (old &&& 0xff ||| value <<< 8)

/-- Write a word. The address has to be even. -/
def put16 (address value : Uint32) (fc : FunctionCode) : Method Unit := do
  require (address &&& 1 = 0) .assertion
  let value := value &&& 0xffff
  let memory ← Program.state
  require (writable memory address fc) (.busError address .write fc)
  let i := address % 0x1000000 / 2
  assign i value

/-- Write a long word. The address has to be a multiple of four. -/
def put32 (address value : Uint32) (fc : FunctionCode) : Method Unit := do
  require (address &&& 3 = 0) .assertion
  let memory ← Program.state
  require (writable memory address fc) (.busError address .write fc)
  let i := address % 0x1000000 / 2
  assign i (value >>> 16)
  assign (i + 1) (value &&& 0xffff)

/-- The byte at an index: the high half of a cell at even indices, the low half
at odd ones. -/
def byte (memory : MainMemory) : Store := fun index =>
  let value := memory.content[index / 2]?.getD 0
  if index % 2 = 0 then value.extractLsb' 8 8 else value.extractLsb' 0 8

/-- A fresh memory has the halves of the initial cells as its bytes. -/
theorem construct_byte (size : Uint32) (initial : Nat → BitVec 16) (index : Nat)
    (inside : index < ((size + 1) / 2 * 2).toNat) :
    (construct size initial).byte index =
      if index % 2 = 0 then (initial (index / 2)).extractLsb' 8 8
      else (initial (index / 2)).extractLsb' 0 8 := by
  have low : index / 2 < ((size + 1) / 2 * 2).toNat / 2 := by
    have even : ((size + 1) / 2 * 2).toNat % 2 = 0 := by
      rw [BitVec.toNat_mul, show (2 : Uint32).toNat = 2 from rfl]
      omega
    omega
  have stored : (construct size initial).content[index / 2]? = some (initial (index / 2)) := by
    simp only [construct, Array.getElem?_ofFn]
    exact dif_pos low
  simp only [byte, stored, Option.getD_some]

/-- Addresses are mirrored: only their low 24 bits select a byte. -/
def index (address : Uint32) : Nat := address.toNat % 0x1000000

/-- Masking an address gives its index. -/
theorem mask_index (address : Uint32) : (address &&& 0xffffff).toNat = index address :=
  and_low_toNat _ _ 24 rfl

/-- So does its remainder. -/
theorem mod_index (address : Uint32) : (address % 0x1000000).toNat = index address := rfl

/-- The cell of a masked address. -/
theorem mask_half (address : Uint32) : ((address &&& 0xffffff) / 2).toNat = index address / 2 := by
  rw [BitVec.toNat_udiv, mask_index]
  rfl

/-- The cell of a remainder. -/
theorem mod_half (address : Uint32) : (address % 0x1000000 / 2).toNat = index address / 2 := by
  rw [BitVec.toNat_udiv, mod_index]
  rfl

/-- The two cells of a long word. -/
theorem long_cells {address : Uint32} (aligned : address.toNat % 4 = 0) :
    index address % 4 = 0 ∧ (address % 0x1000000 / 2).toNat = index address / 2 ∧
      (address % 0x1000000 / 2 + 1).toNat = index address / 2 + 1 := by
  have small : index address < 2 ^ 24 := Nat.mod_lt _ (by decide)
  have half := mod_half address
  refine ⟨by unfold index; omega, half, ?_⟩
  rw [BitVec.toNat_add, half, show (1 : Uint32).toNat = 1 from rfl]
  omega

/-- The lowest bit tells odd addresses. -/
theorem odd_bit (value : Uint32) : (value &&& 1).toNat = value.toNat % 2 := by
  simp [BitVec.toNat_and]

/-- The two lowest bits are the remainder by four. -/
theorem low_bits (value : Uint32) : (value &&& 3).toNat = value.toNat % 4 := and_low_toNat _ _ 2 rfl

/-- Half an index selects an existing cell when the index is in range. -/
theorem cell_exists (memory : MainMemory) (half : Nat) (inside : 2 * half + 1 < memory.size.toNat) :
    ∃ value, memory.content[half]? = some value := by
  have allocated := memory.allocated
  have bound : half < memory.content.size := by omega
  exact ⟨memory.content[half], Array.getElem?_eq_getElem bound⟩

/-- The byte at an even index is the high one of its cell. -/
theorem byte_even (memory : MainMemory) (half : Nat) (value : BitVec 16)
    (stored : memory.content[half]? = some value) :
    memory.byte (2 * half) = value.extractLsb' 8 8 := by
  simp [byte, stored]

/-- The byte at an odd index is the low one. -/
theorem byte_odd (memory : MainMemory) (half : Nat) (value : BitVec 16)
    (stored : memory.content[half]? = some value) :
    memory.byte (2 * half + 1) = value.extractLsb' 0 8 := by
  have quotient : (2 * half + 1) / 2 = half := by omega
  simp [byte, stored, quotient]

/-- A cell's value is the big-endian number of its two bytes. -/
theorem decode_cell (memory : MainMemory) (half : Nat) (value : BitVec 16)
    (stored : memory.content[half]? = some value) :
    decode (slice memory.byte (2 * half) 2) = value.toNat := by
  have bound := value.isLt
  have high : (value.extractLsb' 8 8).toNat = value.toNat / 256 := by
    simp [Nat.shiftRight_eq_div_pow]
    omega
  have low : (value.extractLsb' 0 8).toNat = value.toNat % 256 := by simp
  simp only [slice, decode, List.length_cons, List.length_nil, byte_even memory half value stored,
    byte_odd memory half value stored, high, low]
  omega

/-- A check returns if its condition holds. -/
theorem returns_require {condition : Prop} [Decidable condition] {failure : Fault}
    {memory after : MainMemory} {done : Unit} :
    Returns (require condition failure) memory done after ↔ condition ∧ memory = after := by
  unfold require
  by_cases holds : condition <;> simp [holds]

/-- Otherwise it fails. -/
theorem raises_require {condition : Prop} [Decidable condition] {failure other : Fault}
    {memory after : MainMemory} :
    Raises (require condition failure) memory other after ↔
      ¬ condition ∧ failure = other ∧ memory = after := by
  unfold require
  by_cases holds : condition <;> simp [holds]

/-- A cell is read if there is one. -/
theorem returns_cell {half : Uint32} {memory after : MainMemory} {value : Uint32} :
    Returns (cell half) memory value after ↔
      memory.content[half.toNat]?.map (BitVec.setWidth 32) = some value ∧ memory = after := by
  unfold cell
  rw [returns_atomic]
  cases memory.content[half.toNat]? <;> simp

/-- The two low bytes of a machine word, most significant first. -/
theorem encode_two (value : Uint32) :
    encode 2 value.toNat = [value.extractLsb' 8 8, value.extractLsb' 0 8] := by
  simp only [encode, List.cons.injEq, and_true]
  constructor
  · apply BitVec.eq_of_toNat_eq
    simp [Nat.shiftRight_eq_div_pow]
  · apply BitVec.eq_of_toNat_eq
    simp

/-- Everything a write changes is the run of bytes it lays down. -/
def Laid (memory : MainMemory) (start : Nat) (bytes : List Byte) (after : MainMemory) : Prop :=
  after.size = memory.size ∧ after.protectedSize = memory.protectedSize ∧
    after.byte = lay memory.byte start bytes

/-- Assigning a cell lays down its two bytes. -/
theorem assign_laid (memory : MainMemory) (half value : Uint32)
    (inside : 2 * half.toNat + 1 < memory.size.toNat) :
    ∃ after, Returns (assign half value) memory () after ∧
      Laid memory (2 * half.toNat) (encode 2 value.toNat) after := by
  have allocated := memory.allocated
  have bound : half.toNat < memory.content.size := by omega
  refine ⟨memory.set half.toNat bound (value.setWidth 16),
    returns_atomic.mpr (by simp only [bound, ↓reduceDIte]), rfl, rfl, ?_⟩
  funext position
  rw [encode_two]
  by_cases same : position / 2 = half.toNat
  · have within : position = 2 * half.toNat ∨ position = 2 * half.toNat + 1 := by omega
    rcases within with rfl | rfl
    · simp only [byte, set, lay, same]
      ext bit low
      simp
      omega
    · simp only [byte, set, lay, same]
      ext bit low
      simp
      omega
  · have outside : position < 2 * half.toNat ∨ 2 * half.toNat + 2 ≤ position := by omega
    rw [lay_outside _ _ _ _ (by simpa using outside)]
    simp [byte, set, Ne.symm same]

/-- The test shared by all accesses of a width: in range, and for a write not in
the protected area unless it is by supervisor data. -/
def Permitted (memory : MainMemory) (address : Uint32) (direction : Direction)
    (fc : FunctionCode) : Prop :=
  index address < memory.size.toNat ∧
    (direction = .write → fc ≠ .superData → memory.protectedSize.toNat ≤ index address)

instance (memory : MainMemory) (address : Uint32) (direction : Direction) (fc : FunctionCode) :
    Decidable (memory.Permitted address direction fc) :=
  inferInstanceAs (Decidable (_ ∧ _))

/-- Reads are permitted everywhere in the memory. -/
theorem permitted_read {memory : MainMemory} {address : Uint32} {fc : FunctionCode} :
    memory.Permitted address .read fc ↔ index address < memory.size.toNat := by
  simp [Permitted]

/-- Writes are permitted where the source lets them pass. -/
theorem permitted_write {memory : MainMemory} {address : Uint32} {fc : FunctionCode} :
    memory.Permitted address .write fc ↔ writable memory address fc := by
  have mirrored := mod_index address
  simp only [Permitted, writable, BitVec.le_def, BitVec.lt_def, mirrored, not_or, not_and,
    not_le, not_lt, forall_const]

/-- A reading method of a width: in range it returns the big-endian number of its
bytes, otherwise it raises a bus error; the memory stays as it is. -/
def Reads (method : Method Uint32) (width : Nat) (address : Uint32) (fc : FunctionCode) : Prop :=
  ∀ memory : MainMemory, memory.size.toNat % 4 = 0 →
    (memory.Permitted address .read fc →
      ∃ value, value.toNat = decode (slice memory.byte (index address) width) ∧
        Returns method memory value memory) ∧
    (¬ memory.Permitted address .read fc →
      Raises method memory (.busError address .read fc) memory)

/-- A writing method of a width: where permitted it lays down the low bytes of
its value and nothing else, otherwise it raises a bus error and changes nothing. -/
def Writes (method : Method Unit) (width : Nat) (address value : Uint32) (fc : FunctionCode) :
    Prop :=
  ∀ memory : MainMemory, memory.size.toNat % 4 = 0 →
    (memory.Permitted address .write fc →
      ∃ after, Returns method memory () after ∧
        Laid memory (index address) (encode width value.toNat) after) ∧
    (¬ memory.Permitted address .write fc →
      Raises method memory (.busError address .write fc) memory)

/-- A failed range test raises before anything else is done. -/
theorem test_raises {α : Type} {test : MainMemory → Prop} [DecidablePred test] {failure : Fault}
    {rest : MainMemory → Unit → Method α} {memory : MainMemory} (fails : ¬ test memory) :
    Raises (do
      let memory ← Program.state
      let done ← require (test memory) failure
      rest memory done) memory failure memory :=
  raises_bind.mpr (Or.inr ⟨memory, memory, returns_state.mpr ⟨rfl, rfl⟩,
    raises_bind.mpr (Or.inl (raises_require.mpr ⟨fails, rfl, rfl⟩))⟩)

/-- A refused read raises before it takes a cell. -/
theorem read_refused {memory : MainMemory} {address place : Uint32} {fc : FunctionCode}
    {rest : MainMemory → Unit → Method Uint32} (same : place.toNat = index address)
    (refused : ¬ memory.Permitted address .read fc) :
    Raises (do
      let memory ← Program.state
      let done ← require (place < memory.size) (.busError address .read fc)
      rest memory done) memory (.busError address .read fc) memory := by
  refine @test_raises _ (fun memory => place < memory.size) _ _ rest memory ?_
  rw [BitVec.lt_def, same]
  exact fun inside => refused (permitted_read.mpr inside)

/-- A byte read selects the half of its cell by the lowest address bit. -/
theorem get8_reads (address : Uint32) (fc : FunctionCode) : Reads (get8 address fc) 1 address fc := by
  intro memory multiple
  have mask := mask_index address
  have odd := odd_bit (address &&& 0xffffff)
  have half := mask_half address
  constructor
  · intro permitted
    have inside := permitted_read.mp permitted
    obtain ⟨value, stored⟩ := memory.cell_exists (index address / 2) (by omega)
    have number := decode_cell memory (index address / 2) value stored
    have bound := value.isLt
    have range : address &&& 0xffffff < memory.size := by
      rw [BitVec.lt_def, mask]
      exact inside
    have loaded : Returns (cell ((address &&& 0xffffff) / 2)) memory (value.setWidth 32) memory :=
      returns_cell.mpr ⟨by rw [half, stored]; rfl, rfl⟩
    by_cases even : index address % 2 = 0
    · have position : index address = 2 * (index address / 2) := by omega
      refine ⟨value.setWidth 32 >>> 8, ?_, ?_⟩
      · rw [position, slice, slice, byte_even memory _ value stored]
        simp [decode, Nat.shiftRight_eq_div_pow]
        omega
      · have bit : address &&& 0xffffff &&& 1 = 0 := by bv_omega
        simp only [get8, returns_bind, returns_state, returns_require, bit, ↓reduceIte, returns_pure]
        exact ⟨_, _, ⟨rfl, rfl⟩, (), _, ⟨range, rfl⟩, _, _, loaded, rfl, rfl⟩
    · have position : index address = 2 * (index address / 2) + 1 := by omega
      refine ⟨value.setWidth 32 &&& 0xff, ?_, ?_⟩
      · rw [position, slice, slice, byte_odd memory _ value stored]
        have low : value.toNat &&& 255 = value.toNat % 256 := Nat.and_two_pow_sub_one_eq_mod _ 8
        simp only [decode, List.length_nil, BitVec.toNat_and, BitVec.toNat_setWidth]
        rw [Nat.mod_eq_of_lt (by omega)]
        simpa using low
      · have bit : ¬ address &&& 0xffffff &&& 1 = 0 := by bv_omega
        simp only [get8, returns_bind, returns_state, returns_require, bit, ↓reduceIte, returns_pure]
        exact ⟨_, _, ⟨rfl, rfl⟩, (), _, ⟨range, rfl⟩, _, _, loaded, rfl, rfl⟩
  · intro refused
    exact read_refused mask refused

/-- A word read takes one whole cell. -/
theorem get16_reads (address : Uint32) (fc : FunctionCode) (aligned : address.toNat % 2 = 0) :
    Reads (get16 address fc) 2 address fc := by
  intro memory multiple
  have mask := mask_index address
  have odd := odd_bit address
  have asserted : address &&& 1 = 0 := by bv_omega
  have even : 2 * (index address / 2) = index address := by
    unfold index
    omega
  have half := mask_half address
  constructor
  · intro permitted
    have inside := permitted_read.mp permitted
    obtain ⟨value, stored⟩ := memory.cell_exists (index address / 2) (by omega)
    have number := decode_cell memory (index address / 2) value stored
    have bound := value.isLt
    have range : address &&& 0xffffff < memory.size := by
      rw [BitVec.lt_def, mask]
      exact inside
    refine ⟨value.setWidth 32, ?_, ?_⟩
    · rw [even] at number
      rw [number, BitVec.toNat_setWidth]
      exact Nat.mod_eq_of_lt (by omega)
    · simp only [get16, returns_bind, returns_state, returns_require]
      exact ⟨(), _, ⟨asserted, rfl⟩, _, _, ⟨rfl, rfl⟩, (), _, ⟨range, rfl⟩,
        returns_cell.mpr ⟨by rw [half, stored]; rfl, rfl⟩⟩
  · intro refused
    exact raises_bind.mpr (Or.inr ⟨(), _, returns_require.mpr ⟨asserted, rfl⟩,
      read_refused mask refused⟩)

/-- Two cells make a long word, the first one at the higher weight. -/
theorem join_cells (first second : BitVec 16) :
    (first.setWidth 32 <<< 16 ||| second.setWidth 32 : Uint32).toNat =
      first.toNat * 2 ^ 16 + second.toNat := by
  have low := first.isLt
  have high := second.isLt
  rw [BitVec.toNat_or, BitVec.toNat_shiftLeft, BitVec.toNat_setWidth, BitVec.toNat_setWidth,
    Nat.mod_eq_of_lt (a := first.toNat) (by omega), Nat.mod_eq_of_lt (a := second.toNat) (by omega),
    Nat.shiftLeft_eq, Nat.mod_eq_of_lt (by omega), Nat.mul_comm,
    ← Nat.two_pow_add_eq_or_of_lt high]

/-- A long-word read takes two adjacent cells. Alignment to four bytes and a size
that is a multiple of four put the second one in the array too. -/
theorem get32_reads (address : Uint32) (fc : FunctionCode) (aligned : address.toNat % 4 = 0) :
    Reads (get32 address fc) 4 address fc := by
  intro memory multiple
  have bits := low_bits address
  have asserted : address &&& 3 = 0 := by bv_omega
  obtain ⟨fourth, half, next⟩ := long_cells aligned
  constructor
  · intro permitted
    have inside := permitted_read.mp permitted
    obtain ⟨first, storedFirst⟩ := memory.cell_exists (index address / 2) (by omega)
    obtain ⟨second, storedSecond⟩ := memory.cell_exists (index address / 2 + 1) (by omega)
    have high := decode_cell memory (index address / 2) first storedFirst
    have low := decode_cell memory (index address / 2 + 1) second storedSecond
    rw [show 2 * (index address / 2) = index address by omega] at high
    rw [show 2 * (index address / 2 + 1) = index address + 2 by omega] at low
    have range : address % 0x1000000 < memory.size := inside
    refine ⟨first.setWidth 32 <<< 16 ||| second.setWidth 32, ?_, ?_⟩
    · rw [join_cells, show (4 : Nat) = 2 + 2 from rfl, slice_add, decode_append, high, low,
        slice_length]
      rfl
    · simp only [get32, returns_bind, returns_state, returns_require, returns_pure]
      exact ⟨(), _, ⟨asserted, rfl⟩, _, _, ⟨rfl, rfl⟩, (), _, ⟨range, rfl⟩,
        _, _, returns_cell.mpr ⟨by rw [half, storedFirst]; rfl, rfl⟩,
        _, _, returns_cell.mpr ⟨by rw [next, storedSecond]; rfl, rfl⟩, rfl, rfl⟩
  · intro refused
    exact raises_bind.mpr (Or.inr ⟨(), _, returns_require.mpr ⟨asserted, rfl⟩,
      read_refused (mod_index address) refused⟩)

/-- A byte put into the low half keeps the high half. -/
theorem merge_low (old : BitVec 16) (value : Uint32) :
    encode 2 (old.setWidth 32 &&& 0xff00 ||| value &&& 0xff).toNat =
      [old.extractLsb' 8 8, value.extractLsb' 0 8] := by
  rw [encode_two]
  congr 1
  · ext bit inside
    interval_cases bit <;> simp
  · congr 1
    ext bit inside
    interval_cases bit <;> simp

/-- A byte put into the high half keeps the low half. -/
theorem merge_high (old : BitVec 16) (value : Uint32) :
    encode 2 (old.setWidth 32 &&& 0xff ||| (value &&& 0xff) <<< 8).toNat =
      [value.extractLsb' 0 8, old.extractLsb' 0 8] := by
  rw [encode_two]
  congr 1
  · ext bit inside
    interval_cases bit <;> simp
  · congr 1
    ext bit inside
    interval_cases bit <;> simp

/-- The low byte of a machine word is its encoding at width one. -/
theorem encode_one (value : Uint32) : encode 1 value.toNat = [value.extractLsb' 0 8] := by
  simp only [encode, List.cons.injEq, and_true]
  apply BitVec.eq_of_toNat_eq
  simp

/-- A byte put as a machine word is laid down as itself. -/
theorem encode_byte (byte : Byte) : encode 1 (byte.setWidth 32 : Uint32).toNat = [byte] := by
  rw [encode_one, ← BitVec.setWidth_eq_extractLsb' (by decide),
    BitVec.setWidth_setWidth_of_le _ (by decide), BitVec.setWidth_eq]

/-- A refused write raises before it touches a cell. -/
theorem write_refused {memory : MainMemory} {address : Uint32} {fc : FunctionCode}
    {rest : MainMemory → Unit → Method Unit}
    (refused : ¬ memory.Permitted address .write fc) :
    Raises (do
      let memory ← Program.state
      let done ← require (writable memory address fc) (.busError address .write fc)
      rest memory done) memory (.busError address .write fc) memory :=
  @test_raises _ (fun memory => writable memory address fc) _ _ rest memory
    fun holds => refused (permitted_write.mpr holds)

/-- A byte write rewrites its cell with the other half kept. -/
theorem put8_writes (address value : Uint32) (fc : FunctionCode) :
    Writes (put8 address value fc) 1 address value fc := by
  intro memory multiple
  have half := mod_half address
  refine ⟨?_, write_refused⟩
  intro permitted
  have inside : index address < memory.size.toNat := permitted.1
  obtain ⟨old, stored⟩ := memory.cell_exists (index address / 2) (by omega)
  have loaded : Returns (cell (address % 0x1000000 / 2)) memory (old.setWidth 32) memory :=
    returns_cell.mpr ⟨by rw [half, stored]; rfl, rfl⟩
  by_cases odd : address % 2 ≠ 0
  · have remainder : address.toNat % 2 ≠ 0 := fun zero => odd (BitVec.eq_of_toNat_eq zero)
    have position : index address = 2 * (index address / 2) + 1 := by
      unfold index
      omega
    obtain ⟨after, assigned, size, protection, bytes⟩ := assign_laid memory
      (address % 0x1000000 / 2) (old.setWidth 32 &&& 0xff00 ||| value &&& 0xff) (by omega)
    refine ⟨after, ?_, size, protection, ?_⟩
    · simp only [put8, returns_bind, returns_state, returns_require, odd, ne_eq,
        not_false_eq_true, ↓reduceIte]
      exact ⟨_, _, ⟨rfl, rfl⟩, (), _, ⟨permitted_write.mp permitted, rfl⟩, _, _, loaded, assigned⟩
    · have kept : [old.extractLsb' 8 8] = slice memory.byte (2 * (index address / 2)) 1 := by
        rw [slice, slice, byte_even memory _ old stored]
      rw [bytes, half, merge_low, encode_one]
      change lay _ _ ([old.extractLsb' 8 8] ++ [value.extractLsb' 0 8]) = _
      rw [lay_append, kept, lay_self, slice_length, ← position]
  · have remainder : address.toNat % 2 = 0 :=
      congrArg BitVec.toNat (not_not.mp odd : address % 2 = 0)
    have position : index address = 2 * (index address / 2) := by
      unfold index
      omega
    obtain ⟨after, assigned, size, protection, bytes⟩ := assign_laid memory
      (address % 0x1000000 / 2) (old.setWidth 32 &&& 0xff ||| (value &&& 0xff) <<< 8) (by omega)
    refine ⟨after, ?_, size, protection, ?_⟩
    · simp only [put8, returns_bind, returns_state, returns_require, odd, ↓reduceIte]
      exact ⟨_, _, ⟨rfl, rfl⟩, (), _, ⟨permitted_write.mp permitted, rfl⟩, _, _, loaded, assigned⟩
    · have kept : [old.extractLsb' 0 8] =
          slice (lay memory.byte (index address) [value.extractLsb' 0 8]) (index address + 1) 1 := by
        rw [slice_lay_disjoint _ _ _ _ _ (by simp), position, slice, slice,
          byte_odd memory _ old stored]
      rw [bytes, half, merge_high, encode_one, ← position]
      change lay _ _ ([value.extractLsb' 0 8] ++ [old.extractLsb' 0 8]) = _
      rw [lay_append, kept, List.length_singleton, lay_self]

/-- A word write replaces one cell. -/
theorem put16_writes (address value : Uint32) (fc : FunctionCode) (aligned : address.toNat % 2 = 0) :
    Writes (put16 address value fc) 2 address value fc := by
  intro memory multiple
  have odd := odd_bit address
  have asserted : address &&& 1 = 0 := by bv_omega
  have half := mod_half address
  have even : 2 * (index address / 2) = index address := by
    unfold index
    omega
  constructor
  · intro permitted
    have inside : index address < memory.size.toNat := permitted.1
    obtain ⟨after, assigned, size, protection, bytes⟩ := assign_laid memory
      (address % 0x1000000 / 2) (value &&& 0xffff) (by omega)
    refine ⟨after, ?_, size, protection, ?_⟩
    · simp only [put16, returns_bind, returns_state, returns_require]
      exact ⟨(), _, ⟨asserted, rfl⟩, _, _, ⟨rfl, rfl⟩, (), _,
        ⟨permitted_write.mp permitted, rfl⟩, assigned⟩
    · have low : (value &&& 0xffff).toNat = value.toNat % 256 ^ 2 := and_low_toNat _ _ 16 rfl
      rw [bytes, half, even, low, encode_mod]
  · intro refused
    exact raises_bind.mpr (Or.inr ⟨(), _, returns_require.mpr ⟨asserted, rfl⟩,
      write_refused refused⟩)

/-- A long-word write replaces two adjacent cells. -/
theorem put32_writes (address value : Uint32) (fc : FunctionCode) (aligned : address.toNat % 4 = 0) :
    Writes (put32 address value fc) 4 address value fc := by
  intro memory multiple
  have bits := low_bits address
  have asserted : address &&& 3 = 0 := by bv_omega
  obtain ⟨fourth, half, next⟩ := long_cells aligned
  constructor
  · intro permitted
    have inside : index address < memory.size.toNat := permitted.1
    obtain ⟨middle, high, sizeHigh, protectionHigh, bytesHigh⟩ := assign_laid memory
      (address % 0x1000000 / 2) (value >>> 16) (by omega)
    obtain ⟨after, low, sizeLow, protectionLow, bytesLow⟩ := assign_laid middle
      (address % 0x1000000 / 2 + 1) (value &&& 0xffff) (by rw [sizeHigh]; omega)
    refine ⟨after, ?_, sizeLow.trans sizeHigh, protectionLow.trans protectionHigh, ?_⟩
    · simp only [put32, returns_bind, returns_state, returns_require]
      exact ⟨(), _, ⟨asserted, rfl⟩, _, _, ⟨rfl, rfl⟩, (), _,
        ⟨permitted_write.mp permitted, rfl⟩, (), _, high, low⟩
    · have top : (value >>> 16).toNat = value.toNat / 256 ^ 2 := by
        simp [Nat.shiftRight_eq_div_pow]
      have bottom : (value &&& 0xffff).toNat = value.toNat % 256 ^ 2 := and_low_toNat _ _ 16 rfl
      rw [bytesLow, bytesHigh, half, next, bottom, encode_mod, top, show (4 : Nat) = 2 + 2 from rfl,
        encode_add, lay_append, encode_length,
        show 2 * (index address / 2) = index address by omega,
        show 2 * (index address / 2 + 1) = index address + 2 by omega]
  · intro refused
    exact raises_bind.mpr (Or.inr ⟨(), _, returns_require.mpr ⟨asserted, rfl⟩,
      write_refused refused⟩)

/-- The three access widths. -/
inductive Width where
  | byte | word | longWord
deriving DecidableEq

/-- The number of bytes of a width, which is also its alignment. -/
def Width.bytes : Width → Nat
  | .byte => 1
  | .word => 2
  | .longWord => 4

/-- One call of an accessing method; a read stores nothing. -/
structure Access where
  width : Width
  address : Uint32
  stored : Option Uint32
  fc : FunctionCode
deriving DecidableEq

/-- The direction of an access. -/
def Access.direction (access : Access) : Direction :=
  if access.stored.isNone then .read else .write

/-- The alignment the methods assert. -/
def Access.Aligned (access : Access) : Prop := access.address.toNat % access.width.bytes = 0

instance (access : Access) : Decidable access.Aligned := inferInstanceAs (Decidable (_ = _))

/-- The method called; a write answers with zero. -/
def perform (access : Access) : Method Uint32 :=
  match access.width, access.stored with
  | .byte, none => get8 access.address access.fc
  | .word, none => get16 access.address access.fc
  | .longWord, none => get32 access.address access.fc
  | .byte, some value => do put8 access.address value access.fc; pure 0
  | .word, some value => do put16 access.address value access.fc; pure 0
  | .longWord, some value => do put32 access.address value access.fc; pure 0

/-- The memory the component stands for: bytes, a size and a protected size. -/
structure ByteMemory where
  size : Nat
  protectedSize : Nat
  byte : Store

/-- The stated behaviour of an access of any width: a bus error when the index is
past the size or in the protected area, else the big-endian number read or the
low bytes of the value laid down. -/
def refer (access : Access) (memory : ByteMemory) : Except Fault Uint32 × ByteMemory :=
  if memory.size ≤ index access.address ∨ access.direction = .write ∧ access.fc ≠ .superData ∧
      index access.address < memory.protectedSize then
    (.error (.busError access.address access.direction access.fc), memory)
  else
    match access.stored with
    | none => (.ok (BitVec.ofNat 32
        (decode (slice memory.byte (index access.address) access.width.bytes))), memory)
    | some value => (.ok 0, { memory with
        byte := lay memory.byte (index access.address) (encode access.width.bytes value.toNat) })

/-- The byte memory that an object's fields represent. -/
def denotes (memory : MainMemory) : ByteMemory where
  size := memory.size.toNat
  protectedSize := memory.protectedSize.toNat
  byte := memory.byte

/-- The reference refuses exactly what the range tests of the methods refuse. -/
theorem permitted_iff (memory : MainMemory) (access : Access) :
    memory.Permitted access.address access.direction access.fc ↔
      ¬ ((denotes memory).size ≤ index access.address ∨ access.direction = .write ∧
        access.fc ≠ .superData ∧ index access.address < (denotes memory).protectedSize) := by
  simp only [Permitted, denotes, not_or, not_le, not_and, not_lt]

/-- A reading method of the accessed width simulates the reference. -/
theorem read_simulates {method : Method Uint32} (memory : MainMemory) (access : Access)
    (multiple : memory.size.toNat % 4 = 0) (read : access.stored = none)
    (reads : Reads method access.width.bytes access.address access.fc) :
    ∃ after, Ends method memory (refer access (denotes memory)).1 after ∧
      denotes after = (refer access (denotes memory)).2 ∧ after.size.toNat % 4 = 0 := by
  have direction : access.direction = .read := by simp [Access.direction, read]
  obtain ⟨accepted, refused⟩ := reads memory multiple
  rw [← direction] at accepted refused
  by_cases permitted : memory.Permitted access.address access.direction access.fc
  · obtain ⟨value, number, returned⟩ := accepted permitted
    have same : value = BitVec.ofNat 32
        (decode (slice memory.byte (index access.address) access.width.bytes)) := by
      rw [← number, BitVec.ofNat_toNat, BitVec.setWidth_eq]
    simp only [refer, (permitted_iff memory access).mp permitted, ↓reduceIte, read]
    exact ⟨memory, same ▸ returned, rfl, multiple⟩
  · rw [refer, if_pos (not_not.mp (mt (permitted_iff memory access).mpr permitted))]
    exact ⟨memory, refused permitted, rfl, multiple⟩

/-- A writing method of the accessed width simulates the reference. -/
theorem write_simulates {method : Method Unit} (memory : MainMemory) (access : Access)
    (value : Uint32) (multiple : memory.size.toNat % 4 = 0) (stored : access.stored = some value)
    (writes : Writes method access.width.bytes access.address value access.fc) :
    ∃ after, Ends (do method; pure 0) memory (refer access (denotes memory)).1 after ∧
      denotes after = (refer access (denotes memory)).2 ∧ after.size.toNat % 4 = 0 := by
  have direction : access.direction = .write := by simp [Access.direction, stored]
  obtain ⟨accepted, refused⟩ := writes memory multiple
  rw [← direction] at accepted refused
  by_cases permitted : memory.Permitted access.address access.direction access.fc
  · obtain ⟨after, returned, size, protection, bytes⟩ := accepted permitted
    simp only [refer, (permitted_iff memory access).mp permitted, ↓reduceIte, stored]
    refine ⟨after, returns_bind.mpr ⟨(), after, returned, returns_pure.mpr ⟨rfl, rfl⟩⟩, ?_,
      by rw [size]; exact multiple⟩
    simp only [denotes, size, protection, bytes]
  · rw [refer, if_pos (not_not.mp (mt (permitted_iff memory access).mpr permitted))]
    exact ⟨memory, raises_bind.mpr (Or.inl (refused permitted)), rfl, multiple⟩

/-- Every aligned access simulates the reference. -/
theorem perform_simulates (memory : MainMemory) (access : Access)
    (multiple : memory.size.toNat % 4 = 0) (aligned : access.Aligned) :
    ∃ after, Ends (perform access) memory (refer access (denotes memory)).1 after ∧
      denotes after = (refer access (denotes memory)).2 ∧ after.size.toNat % 4 = 0 := by
  obtain ⟨width, address, stored, fc⟩ := access
  cases stored with
  | none =>
    cases width with
    | byte => exact read_simulates memory _ multiple rfl (get8_reads address fc)
    | word => exact read_simulates memory _ multiple rfl (get16_reads address fc aligned)
    | longWord => exact read_simulates memory _ multiple rfl (get32_reads address fc aligned)
  | some value =>
    cases width with
    | byte => exact write_simulates memory _ value multiple rfl (put8_writes address value fc)
    | word => exact write_simulates memory _ value multiple rfl (put16_writes address value fc aligned)
    | longWord =>
      exact write_simulates memory _ value multiple rfl (put32_writes address value fc aligned)

/-- The reference keeps the protected size, and without supervisor data writes
also every byte below it. -/
theorem refer_protects (access : Access) (memory : ByteMemory) :
    (refer access memory).2.protectedSize = memory.protectedSize ∧
      (access.fc ≠ .superData → ∀ position < memory.protectedSize,
        (refer access memory).2.byte position = memory.byte position) := by
  unfold refer
  split
  · exact ⟨rfl, fun _ _ _ => rfl⟩
  · rename_i accepted
    cases stored : access.stored with
    | none => exact ⟨rfl, fun _ _ _ => rfl⟩
    | some value =>
      refine ⟨rfl, fun user position low => ?_⟩
      have above : memory.protectedSize ≤ index access.address := by
        by_contra below
        exact accepted (Or.inr ⟨by simp [Access.direction, stored], user, by omega⟩)
      exact lay_outside _ _ _ _ (Or.inl (by omega))

/-- Over any calls the protected bytes change only by supervisor data accesses. -/
theorem replay_protects (accesses : List Access) (memory : ByteMemory)
    (user : ∀ access ∈ accesses, access.stored.isSome → access.fc ≠ .superData) :
    ∀ position < memory.protectedSize,
      (replay refer accesses memory).2.byte position = memory.byte position := by
  induction accesses generalizing memory with
  | nil => exact fun _ _ => rfl
  | cons access rest inductionHypothesis =>
    intro position low
    obtain ⟨same, kept⟩ := refer_protects access memory
    have later := inductionHypothesis (refer access memory).2
      (fun other member => user other (by simp [member])) position (by omega)
    apply later.trans
    cases stored : access.stored with
    | none =>
      unfold refer
      split <;> simp [stored]
    | some value => exact kept (user access (by simp) (by simp [stored])) position low

/-- A main memory whose size is a multiple of four answers every sequence of
aligned accesses, of all widths mixed, as one big-endian byte array does: the
outcomes are the reference's, the final bytes are the reference's, and without
supervisor data writes no protected byte has changed.

Proof: each method simulates the reference at its width, so the session rule
applies; the protected bytes are followed on the reference. -/
theorem behaves_as_byte_array (memory : MainMemory) (multiple : memory.size.toNat % 4 = 0)
    (accesses : List Access) (aligned : ∀ access ∈ accesses, access.Aligned) :
    ∃ final, Session perform memory (replay refer accesses (denotes memory)).1 final ∧
      denotes final = (replay refer accesses (denotes memory)).2 ∧
      ((∀ access ∈ accesses, access.stored.isSome → access.fc ≠ .superData) →
        ∀ position < memory.protectedSize.toNat, final.byte position = memory.byte position) := by
  obtain ⟨final, session, same, -⟩ := session_simulates perform refer
    (fun concrete abstract => denotes concrete = abstract ∧ concrete.size.toNat % 4 = 0)
    Access.Aligned
    (by
      rintro access concrete _ admissible ⟨rfl, multiple⟩
      obtain ⟨after, ended, denoted, kept⟩ := perform_simulates concrete access multiple admissible
      exact ⟨after, ended, denoted, kept⟩)
    accesses memory (denotes memory) ⟨rfl, multiple⟩ aligned
  refine ⟨final, session, same, fun user position low => ?_⟩
  have bytes : final.byte = (replay refer accesses (denotes memory)).2.byte :=
    congrArg ByteMemory.byte same
  rw [bytes]
  exact replay_protects accesses (denotes memory) user position low

/-- Eight bytes with four of them protected: a long word is written by the
supervisor, half of it read by the user, a mirrored user write to it refused, and
a byte above it written and read back in its word. -/
theorem behaves_as_byte_array_mixed :
    ∃ final, Session perform ((construct 8 fun _ => 0x4afc).setProtectedSize 4)
      [(⟨.longWord, 0, some 0x01020304, .superData⟩, .ok 0),
        (⟨.word, 2, none, .userData⟩, .ok 0x0304),
        (⟨.byte, 0x1000003, some 0xff, .userData⟩, .error (.busError 0x1000003 .write .userData)),
        (⟨.byte, 5, some 0xff, .userData⟩, .ok 0),
        (⟨.word, 4, none, .userData⟩, .ok 0x4aff)] final ∧
      final.byte 3 = 4 := by
  obtain ⟨final, session, same, -⟩ := behaves_as_byte_array
    ((construct 8 fun _ => 0x4afc).setProtectedSize 4) (by decide)
    [⟨.longWord, 0, some 0x01020304, .superData⟩, ⟨.word, 2, none, .userData⟩,
      ⟨.byte, 0x1000003, some 0xff, .userData⟩, ⟨.byte, 5, some 0xff, .userData⟩,
      ⟨.word, 4, none, .userData⟩] (by decide)
  exact ⟨final, session, congrFun (congrArg ByteMemory.byte same) 3⟩

end MainMemory

end Vx68k
