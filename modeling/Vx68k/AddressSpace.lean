import Vx68k.MainMemory

/-!
# What the DOS layer relies on of an address space

The address spaces of the program are objects of the processor library, whose
code is not part of this repository. The DOS layer uses word and long-word reads and
four kinds of write, always by supervisor data. Their behaviour within main memory is
a named law of the class below, apart from that of word reads, on whose values nothing
depends; nothing is said about other addresses, where a call may raise, reach a device
or do anything to the state.

Main memory lies at address zero and addresses have 24 bits. Both the cell array
of `MainMemory` and the byte memory it denotes are instances.
-/

namespace Vx68k

open Programs ByteStores

/-- The exceptions that DOS-layer code ends with: those of memory accesses and
run-time errors with their texts. -/
inductive Thrown where
  | memoryException
  | runtimeError (what : String)
deriving DecidableEq

/-- The bytes a write lays down in main memory. -/
structure Stored {M : Type} (size : M → Nat) (byte : M → Store) (memory : M) (start : Nat)
    (bytes : List Byte) (after : M) : Prop where
  size : size after = size memory
  byte : byte after = lay (byte memory) start bytes

/-- An address space with main memory at address zero. A failing read raises; a
failing write raises and may leave any state. -/
class Bus (M : Type) where
  size : M → Nat
  byte : M → Store
  get16 : M → Uint32 → Except Thrown Uint32
  get32 : M → Uint32 → Except Thrown Uint32
  put8 : Uint32 → Uint32 → M → Ending Thrown M Unit
  put32 : Uint32 → Uint32 → M → Ending Thrown M Unit
  write : Uint32 → List Byte → M → Ending Thrown M Unit
  putString : Uint32 → List Byte → M → Ending Thrown M Unit
  size_le : ∀ memory, size memory ≤ 0x1000000
  get32_main : ∀ memory address, address.toNat % 4 = 0 → address.toNat + 4 ≤ size memory →
    get32 memory address = .ok (BitVec.ofNat 32 (decode (slice (byte memory) address.toNat 4)))
  put8_main : ∀ address value memory, address.toNat + 1 ≤ size memory →
    ∃ after, put8 address value memory = (.ok (), after) ∧
      Stored size byte memory address.toNat (encode 1 value.toNat) after
  put32_main : ∀ address value memory, address.toNat % 4 = 0 → address.toNat + 4 ≤ size memory →
    ∃ after, put32 address value memory = (.ok (), after) ∧
      Stored size byte memory address.toNat (encode 4 value.toNat) after
  write_main : ∀ address bytes memory, address.toNat + bytes.length ≤ size memory →
    ∃ after, write address bytes memory = (.ok (), after) ∧
      Stored size byte memory address.toNat bytes after
  putString_main : ∀ address bytes memory, address.toNat + bytes.length + 1 ≤ size memory →
    ∃ after, putString address bytes memory = (.ok (), after) ∧
      Stored size byte memory address.toNat (bytes ++ [0]) after

namespace Bus

variable {M : Type} [Bus M]

/-- The long word at an address of main memory. -/
def word (memory : M) (address : Uint32) : Uint32 :=
  BitVec.ofNat 32 (decode (slice (byte memory) address.toNat 4))

/-- A long word depends only on its four bytes. -/
theorem word_congr (memory other : M) (address : Uint32)
    (agree : ∀ index, address.toNat ≤ index → index < address.toNat + 4 →
      byte memory index = byte other index) :
    word memory address = word other address := by
  rw [word, word, slice_congr _ _ _ _ agree]

/-- An aligned write within main memory changes exactly one aligned long word. -/
theorem put32_spec (address value : Uint32) (memory : M) (aligned : address.toNat % 4 = 0)
    (inside : address.toNat + 4 ≤ size memory) :
    ∃ after, put32 address value memory = (.ok (), after) ∧ size after = size memory ∧
      word after address = value ∧
      (∀ other, other.toNat % 4 = 0 → other ≠ address → word after other = word memory other) ∧
      ∀ index, index < address.toNat ∨ address.toNat + 4 ≤ index →
        byte after index = byte memory index := by
  obtain ⟨after, done, stored⟩ := put32_main address value memory aligned inside
  refine ⟨after, done, stored.size, ?_, ?_, ?_⟩
  · rw [word, stored.byte, decode_lay_encode, Nat.mod_eq_of_lt (by exact value.isLt),
      BitVec.ofNat_toNat, BitVec.setWidth_eq]
  · intro other otherAligned different
    have apart : other.toNat ≠ address.toNat := fun same => different (BitVec.eq_of_toNat_eq same)
    rw [word, word, stored.byte, slice_lay_disjoint _ _ _ _ _ (by rw [encode_length]; omega)]
  · intro index outside
    rw [stored.byte, lay_outside _ _ _ _ (by rwa [encode_length])]

end Bus

/-- What the fix-up loop relies on beyond the aligned accesses: long words at any
even address of main memory are read and written as four bytes too. -/
class EvenBus (M : Type) [Bus M] : Prop where
  get32_even : ∀ (memory : M) address, address.toNat % 2 = 0 →
    address.toNat + 4 ≤ Bus.size memory →
    Bus.get32 memory address =
      .ok (BitVec.ofNat 32 (decode (slice (Bus.byte memory) address.toNat 4)))
  put32_even : ∀ address value (memory : M), address.toNat % 2 = 0 →
    address.toNat + 4 ≤ Bus.size memory →
    ∃ after, Bus.put32 address value memory = (.ok (), after) ∧
      Stored Bus.size Bus.byte memory address.toNat (encode 4 value.toNat) after

/-- Word accesses, as the machine and its system ROM make them. Words at even addresses of
main memory are read and written as two bytes, and a word write that succeeds is one. -/
class WordBus (M : Type) [Bus M] extends EvenBus M where
  put16 : Uint32 → Uint32 → M → Ending Thrown M Unit
  get16_even : ∀ (memory : M) address, address.toNat % 2 = 0 →
    address.toNat + 2 ≤ Bus.size memory →
    Bus.get16 memory address =
      .ok (BitVec.ofNat 32 (decode (slice (Bus.byte memory) address.toNat 2)))
  put16_even : ∀ address value (memory : M), address.toNat % 2 = 0 →
    address.toNat + 2 ≤ Bus.size memory →
    ∃ after, put16 address value memory = (.ok (), after) ∧
      Stored Bus.size Bus.byte memory address.toNat (encode 2 value.toNat) after
  put16_stored : ∀ address value (memory after : M), address.toNat + 2 ≤ Bus.size memory →
    put16 address value memory = (.ok (), after) →
    Stored Bus.size Bus.byte memory address.toNat (encode 2 value.toNat) after

/-- Byte reads. The low byte of the number read in main memory is the byte there. -/
class ByteBus (M : Type) [Bus M] where
  get8 : M → Uint32 → Except Thrown Uint32
  get8_main : ∀ (memory : M) address, address.toNat + 1 ≤ Bus.size memory →
    ∃ value, get8 memory address = .ok value ∧ value.setWidth 8 = Bus.byte memory address.toNat

/-- A string with its terminator in main memory. -/
structure Bus.HoldsText {M : Type} [Bus M] (memory : M) (address : Uint32) (text : List Byte) :
    Prop where
  inside : address.toNat + text.length + 1 ≤ Bus.size memory
  stored : slice (Bus.byte memory) address.toNat (text.length + 1) = text ++ [0]

/-- Strings are read up to their terminator. -/
class StringBus (M : Type) [Bus M] where
  getString : M → Uint32 → Except Thrown (List Byte)
  getString_main : ∀ (memory : M) address text, 0 ∉ text → Bus.HoldsText memory address text →
    getString memory address = .ok text

namespace MainMemory

/-- Lay down bytes in a byte memory if they fit below a bound. -/
def ByteMemory.layWithin (bound address : Nat) (bytes : List Byte) (memory : ByteMemory) :
    Ending Thrown ByteMemory Unit :=
  if address + bytes.length ≤ bound then
    (.ok (), { memory with byte := lay memory.byte address bytes })
  else (.error .memoryException, memory)

/-- The part of a byte memory that 24-bit addresses reach. -/
def ByteMemory.extent (memory : ByteMemory) : Nat := min memory.size 0x1000000

/-- Within its bound a byte memory stores what it is given. -/
theorem layWithin_stored (address : Nat) (bytes : List Byte) (memory : ByteMemory)
    (inside : address + bytes.length ≤ memory.extent) :
    ∃ after, memory.layWithin memory.extent address bytes = (.ok (), after) ∧
      Stored ByteMemory.extent ByteMemory.byte memory address bytes after :=
  ⟨_, if_pos inside, rfl, rfl⟩

/-- The byte memory that the main memory denotes is an address space. It takes
long words at even addresses and refuses whatever ends outside it. -/
instance : Bus ByteMemory where
  size := ByteMemory.extent
  byte := ByteMemory.byte
  get16 memory address :=
    if address.toNat % 2 = 0 ∧ address.toNat + 2 ≤ memory.extent then
      .ok (BitVec.ofNat 32 (decode (slice memory.byte address.toNat 2)))
    else .error .memoryException
  get32 memory address :=
    if address.toNat % 2 = 0 ∧ address.toNat + 4 ≤ memory.extent then
      .ok (BitVec.ofNat 32 (decode (slice memory.byte address.toNat 4)))
    else .error .memoryException
  put8 address value memory :=
    memory.layWithin memory.extent address.toNat (encode 1 value.toNat)
  put32 address value memory :=
    if address.toNat % 2 = 0 then
      memory.layWithin memory.extent address.toNat (encode 4 value.toNat)
    else (.error .memoryException, memory)
  write address bytes memory := memory.layWithin memory.extent address.toNat bytes
  putString address bytes memory := memory.layWithin memory.extent address.toNat (bytes ++ [0])
  size_le _ := Nat.min_le_right _ _
  get32_main _ _ aligned inside := if_pos ⟨by omega, inside⟩
  put8_main _ _ memory inside := layWithin_stored _ _ memory (by simpa using inside)
  put32_main address value memory aligned inside := by
    rw [if_pos (by omega)]
    exact layWithin_stored _ _ memory (by simpa using inside)
  write_main _ _ memory inside := layWithin_stored _ _ memory inside
  putString_main _ _ memory inside := layWithin_stored _ _ memory
    (by simp only [List.length_append, List.length_singleton]; omega)

/-- It takes long words at even addresses. -/
instance : EvenBus ByteMemory where
  get32_even _ _ even inside := if_pos ⟨even, inside⟩
  put32_even address value memory even inside := by
    simp only [Bus.put32, even, ↓reduceIte]
    exact layWithin_stored _ _ memory (by rw [encode_length]; exact inside)

/-- Words are taken at even addresses too. -/
instance : WordBus ByteMemory where
  put16 address value memory :=
    if address.toNat % 2 = 0 then
      memory.layWithin memory.extent address.toNat (encode 2 value.toNat)
    else (.error .memoryException, memory)
  get16_even _ _ even inside := if_pos ⟨even, inside⟩
  put16_even address value memory even inside := by
    simp only [even, ↓reduceIte]
    exact layWithin_stored _ _ memory (by rw [encode_length]; exact inside)
  put16_stored address value memory after inside done := by
    by_cases even : address.toNat % 2 = 0
    · rw [if_pos even] at done
      obtain ⟨stores, returned, stored⟩ := layWithin_stored address.toNat (encode 2 value.toNat) memory
        (by rw [encode_length]; exact inside)
      obtain ⟨-, rfl⟩ := Prod.mk.inj (done.symm.trans returned)
      exact stored
    · rw [if_neg even] at done
      cases (Prod.mk.inj done).1

/-- Its bytes are read wherever they lie. -/
instance : ByteBus ByteMemory where
  get8 memory address :=
    if address.toNat + 1 ≤ memory.extent then .ok ((memory.byte address.toNat).setWidth 32)
    else .error .memoryException
  get8_main memory address inside := by
    have fits : address.toNat + 1 ≤ memory.extent := inside
    rw [if_pos fits]
    exact ⟨_, rfl, BitVec.setWidth_setWidth_of_le _ (by decide)⟩

/-- Its strings are looked for up to the end of the memory. -/
instance : StringBus ByteMemory where
  getString memory address :=
    match textAt 0 memory.byte address.toNat (memory.extent - address.toNat) with
    | some text => .ok text
    | none => .error .memoryException
  getString_main memory address text clean held := by
    have enough : text.length < memory.extent - address.toNat := by
      have inside : address.toNat + text.length + 1 ≤ memory.extent := held.inside
      omega
    have found : textAt 0 memory.byte address.toNat (memory.extent - address.toNat) = some text :=
      textAt_stored clean held.stored enough
    rw [found]

/-- A check calls nothing. -/
theorem immediate_require (condition : Prop) [Decidable condition] (failure : Fault) :
    Immediate (require condition failure) := by
  unfold require
  split
  · exact immediate_atomic _
  · exact immediate_atomic _

/-- Reading a long word calls nothing. -/
theorem immediate_get32 (address : Uint32) (fc : FunctionCode) : Immediate (get32 address fc) :=
  immediate_bind (immediate_require _ _) fun _ =>
    immediate_bind (immediate_atomic _) fun _ => immediate_bind (immediate_require _ _) fun _ =>
      immediate_bind (immediate_atomic _) fun _ => immediate_bind (immediate_atomic _) fun _ =>
        immediate_atomic _

/-- Nor does reading a byte. -/
theorem immediate_get8 (address : Uint32) (fc : FunctionCode) : Immediate (get8 address fc) :=
  immediate_bind (immediate_atomic _) fun _ => immediate_bind (immediate_require _ _) fun _ =>
    immediate_bind (immediate_atomic _) fun _ => by
      split
      · exact immediate_atomic _
      · exact immediate_atomic _

/-- Nor does writing one. -/
theorem immediate_put8 (address value : Uint32) (fc : FunctionCode) :
    Immediate (put8 address value fc) :=
  immediate_bind (immediate_atomic _) fun _ => immediate_bind (immediate_require _ _) fun _ =>
    immediate_bind (immediate_atomic _) fun _ => by
      split
      · exact immediate_atomic _
      · exact immediate_atomic _

/-- Nor does writing a long word. -/
theorem immediate_put32 (address value : Uint32) (fc : FunctionCode) :
    Immediate (put32 address value fc) :=
  immediate_bind (immediate_require _ _) fun _ =>
    immediate_bind (immediate_atomic _) fun _ => immediate_bind (immediate_require _ _) fun _ =>
      immediate_bind (immediate_atomic _) fun _ => immediate_atomic _

/-- Put bytes at consecutive addresses, one after the other. -/
def putBytes (address : Uint32) : List Byte → Method Unit
  | [] => pure ()
  | byte :: rest => do
    put8 address (byte.setWidth 32) .superData
    putBytes (address + 1) rest

/-- Nor does writing bytes one by one. -/
theorem immediate_putBytes (address : Uint32) (bytes : List Byte) :
    Immediate (putBytes address bytes) := by
  induction bytes generalizing address with
  | nil => exact immediate_atomic _
  | cons byte rest inductionHypothesis =>
    exact immediate_bind (immediate_put8 _ _ _) fun _ => inductionHypothesis (address + 1)

/-- The part of main memory that every width reaches through 24-bit addresses. -/
def extent (memory : MainMemory) : Nat :=
  if memory.size.toNat % 4 = 0 then min memory.size.toNat 0x1000000 else 0

/-- Supervisor data accesses within the extent are permitted, and their addresses
are their indices. -/
theorem extent_permitted (memory : MainMemory) (address : Uint32) (direction : Direction)
    (inside : address.toNat < memory.extent) :
    memory.size.toNat % 4 = 0 ∧ index address = address.toNat ∧
      memory.Permitted address direction .superData := by
  unfold extent at inside
  split at inside
  · rename_i multiple
    have same : index address = address.toNat := Nat.mod_eq_of_lt (by omega)
    exact ⟨multiple, same, by omega, fun _ user => absurd rfl user⟩
  · omega

/-- Bytes that are laid down leave the reachable part as large as it was. -/
theorem laid_extent {memory after : MainMemory} {start : Nat} {bytes : List Byte}
    (laid : Laid memory start bytes after) : after.extent = memory.extent := by
  rw [extent, extent, laid.1]

/-- Consecutive byte writes within the extent lay down the whole run. -/
theorem putBytes_stored (address : Uint32) (bytes : List Byte) (memory : MainMemory)
    (inside : address.toNat + bytes.length ≤ memory.extent) :
    ∃ after, Returns (putBytes address bytes) memory () after ∧
      Stored extent byte memory address.toNat bytes after := by
  induction bytes generalizing address memory with
  | nil => exact ⟨memory, returns_pure.mpr ⟨rfl, rfl⟩, rfl, (lay_self memory.byte _ 0).symm⟩
  | cons first rest inductionHypothesis =>
    rw [List.length_cons] at inside
    obtain ⟨multiple, same, permitted⟩ := memory.extent_permitted address .write (by omega)
    obtain ⟨middle, returned, laid⟩ :=
      (put8_writes address (first.setWidth 32) .superData memory multiple).1 permitted
    have size : middle.extent = memory.extent := laid_extent laid
    have one : encode 1 (first.setWidth 32).toNat = [first] := encode_byte first
    cases rest with
    | nil =>
      refine ⟨middle, returns_bind.mpr ⟨(), middle, returned, returns_pure.mpr ⟨rfl, rfl⟩⟩, size, ?_⟩
      rw [laid.2.2, one, same]
    | cons second others =>
      rw [List.length_cons] at inside
      have bounded : memory.extent ≤ 0x1000000 := by
        unfold extent
        split <;> omega
      have next : (address + 1).toNat = address.toNat + 1 := by bv_omega
      obtain ⟨after, later, stored⟩ := inductionHypothesis (address + 1) middle
        (by rw [next, size, List.length_cons]; omega)
      refine ⟨after, returns_bind.mpr ⟨(), middle, returned, later⟩, stored.size.trans size, ?_⟩
      rw [stored.byte, laid.2.2, one, same, next]
      exact (lay_append memory.byte address.toNat [first] (second :: others)).symm

/-- Forget which failure ended a method. -/
def thrown {α : Type} (ending : Ending Fault MainMemory α) : Ending Thrown MainMemory α :=
  (ending.1.mapError fun _ => .memoryException, ending.2)

/-- An address space in which main memory alone is mapped. -/
instance : Bus MainMemory where
  size := extent
  byte := byte
  get16 memory address := (thrown (settle .assertion (get16 address .superData) memory)).1
  get32 memory address :=
    if address.toNat + 4 ≤ memory.extent then
      (thrown (settle .assertion (get32 address .superData) memory)).1
    else .error .memoryException
  put8 address value memory := thrown (settle .assertion (put8 address value .superData) memory)
  put32 address value memory := thrown (settle .assertion (put32 address value .superData) memory)
  write address bytes memory := thrown (settle .assertion (putBytes address bytes) memory)
  putString address bytes memory :=
    thrown (settle .assertion (putBytes address (bytes ++ [0])) memory)
  size_le memory := by
    unfold extent
    split <;> omega
  get32_main memory address aligned inside := by
    obtain ⟨multiple, same, permitted⟩ := memory.extent_permitted address .read (by omega)
    obtain ⟨value, number, returned⟩ :=
      (get32_reads address .superData aligned memory multiple).1 permitted
    rw [if_pos inside, settle_ends (immediate_get32 _ _) _ returned, ← same, ← number,
      BitVec.ofNat_toNat, BitVec.setWidth_eq]
    rfl
  put8_main address value memory inside := by
    obtain ⟨multiple, same, permitted⟩ := memory.extent_permitted address .write (by omega)
    obtain ⟨after, returned, laid⟩ := (put8_writes address value .superData memory multiple).1 permitted
    exact ⟨after, by rw [settle_ends (immediate_put8 _ _ _) _ returned]; rfl,
      laid_extent laid, same ▸ laid.2.2⟩
  put32_main address value memory aligned inside := by
    obtain ⟨multiple, same, permitted⟩ := memory.extent_permitted address .write (by omega)
    obtain ⟨after, returned, laid⟩ :=
      (put32_writes address value .superData aligned memory multiple).1 permitted
    exact ⟨after, by rw [settle_ends (immediate_put32 _ _ _) _ returned]; rfl,
      laid_extent laid, same ▸ laid.2.2⟩
  write_main address bytes memory inside := by
    obtain ⟨after, returned, stored⟩ := putBytes_stored address bytes memory inside
    exact ⟨after, by rw [settle_ends (immediate_putBytes _ _) _ returned]; rfl, stored⟩
  putString_main address bytes memory inside := by
    obtain ⟨after, returned, stored⟩ := putBytes_stored address (bytes ++ [0]) memory
      (by simp only [List.length_append, List.length_singleton]; omega)
    exact ⟨after, by rw [settle_ends (immediate_putBytes _ _) _ returned]; rfl, stored⟩

/-- A permitted byte read gives a number of which the byte is the low part. -/
theorem get8_byte (memory : MainMemory) (address : Uint32) (inside : address.toNat < memory.extent) :
    ∃ value, Returns (get8 address .superData) memory value memory ∧
      value.setWidth 8 = memory.byte address.toNat := by
  obtain ⟨multiple, same, permitted⟩ := memory.extent_permitted address .read inside
  obtain ⟨value, number, returned⟩ := (get8_reads address .superData memory multiple).1 permitted
  refine ⟨value, returned, BitVec.eq_of_toNat_eq ?_⟩
  have bound := (memory.byte address.toNat).isLt
  rw [same, slice, slice, decode, decode, List.length_nil] at number
  rw [BitVec.toNat_setWidth, number]
  omega

/-- The main memory has byte reads as its 68000 interface makes them. -/
instance : ByteBus MainMemory where
  get8 memory address := (thrown (settle .assertion (get8 address .superData) memory)).1
  get8_main memory address inside := by
    obtain ⟨value, returned, low⟩ := memory.get8_byte address (Nat.lt_of_succ_le inside)
    exact ⟨value, by rw [settle_ends (immediate_get8 _ _) _ returned]; rfl, low⟩

end MainMemory

end Vx68k
