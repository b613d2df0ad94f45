import Vx68k.AddressSpace

/-!
# Exception frames

An exception pushes fields of a word or a long word on a stack, from the top down. On any
address space a push is the sequence of its writes. In main memory it lays down the image
of the frame, in which the field pushed last comes first, and changes nothing else.
-/

namespace Vx68k.ExceptionFrames

open Programs ByteStores

/-- A field of a frame. -/
inductive Field where
  | word (value : Uint32)
  | long (value : Uint32)
deriving DecidableEq

namespace Field

/-- The bytes of a field. -/
def width : Field → Nat
  | word _ => 2
  | long _ => 4

/-- A field in memory, the high byte first. -/
def bytes : Field → List Byte
  | word value => encode 2 value.toNat
  | long value => encode 4 value.toNat

/-- A field is as wide as it says. -/
@[simp]
theorem bytes_length (field : Field) : field.bytes.length = field.width := by
  cases field <;> simp [bytes, width]

/-- Fields are made of words. -/
theorem width_even (field : Field) : field.width % 2 = 0 := by
  cases field <;> simp [width]

/-- No field is wider than a long word. -/
theorem width_le (field : Field) : field.width ≤ 4 := by
  cases field <;> simp [width]

end Field

/-- The bytes that a frame takes. -/
def width : List Field → Nat
  | [] => 0
  | field :: rest => width rest + field.width

/-- A frame in memory, from its lowest address on. -/
def image : List Field → List Byte
  | [] => []
  | field :: rest => image rest ++ field.bytes

/-- A frame is as wide as its fields. -/
@[simp]
theorem image_length (fields : List Field) : (image fields).length = width fields := by
  induction fields with
  | nil => rfl
  | cons field rest inductionHypothesis => simp [image, width, inductionHypothesis]

variable {M : Type} [Bus M] [WordBus M]

/-- Write a field. -/
def Field.put (address : Uint32) : Field → M → Ending Thrown M Unit
  | word value => WordBus.put16 address value
  | long value => Bus.put32 address value

/-- Pushing fields one after the other below an address leads from one memory to another. -/
def Pushes (memory : M) (top : Uint32) : List Field → M → Prop
  | [], after => after = memory
  | field :: rest, after => ∃ middle,
    field.put (top - BitVec.ofNat 32 field.width) memory = (.ok (), middle) ∧
      Pushes middle (top - BitVec.ofNat 32 field.width) rest after

/-- A field at an even address of main memory is stored. -/
theorem put_stored (field : Field) (address : Uint32) (memory : M) (even : address.toNat % 2 = 0)
    (inside : address.toNat + field.width ≤ Bus.size memory) :
    ∃ after, field.put address memory = (.ok (), after) ∧
      Stored Bus.size Bus.byte memory address.toNat field.bytes after := by
  cases field with
  | word value => exact WordBus.put16_even address value memory even inside
  | long value => exact EvenBus.put32_even address value memory even inside

/-- The memory after a push is determined. -/
theorem pushes_unique {fields : List Field} {memory one other : M} {top : Uint32}
    (first : Pushes memory top fields one) (second : Pushes memory top fields other) :
    one = other := by
  induction fields generalizing memory top with
  | nil => exact Eq.trans first (Eq.symm second)
  | cons field rest inductionHypothesis =>
    obtain ⟨middle, put, pushed⟩ := first
    obtain ⟨between, again, following⟩ := second
    obtain ⟨-, rfl⟩ := Prod.mk.inj (put.symm.trans again)
    exact inductionHypothesis pushed following

/-- A push on an even stack in main memory succeeds and lays down the image of the frame. -/
theorem pushes_stored (fields : List Field) (memory : M) (top : Uint32)
    (even : top.toNat % 2 = 0) (room : width fields ≤ top.toNat)
    (inside : top.toNat ≤ Bus.size memory) :
    ∃ after, Pushes memory top fields after ∧
      Stored Bus.size Bus.byte memory (top.toNat - width fields) (image fields) after := by
  induction fields generalizing memory top with
  | nil => exact ⟨memory, rfl, rfl, (lay_self (Bus.byte memory) _ 0).symm⟩
  | cons field rest inductionHypothesis =>
    rw [width] at room
    have widthEven := field.width_even
    have low : (top - BitVec.ofNat 32 field.width).toNat = top.toNat - field.width := by
      have small := field.width_le
      bv_omega
    obtain ⟨middle, put, stored⟩ := put_stored field (top - BitVec.ofNat 32 field.width) memory
      (by omega) (by omega)
    obtain ⟨after, pushed, rested⟩ := inductionHypothesis middle (top - BitVec.ofNat 32 field.width)
      (by omega) (by omega) (by rw [stored.size]; omega)
    refine ⟨after, ⟨middle, put, pushed⟩, rested.size.trans stored.size, ?_⟩
    have start : top.toNat - width (field :: rest) = top.toNat - field.width - width rest := by
      rw [width]
      omega
    have place : top.toNat - field.width =
        top.toNat - field.width - width rest + (image rest).length := by
      rw [image_length]
      omega
    rw [rested.byte, stored.byte, low, start, image, ← lay_prepend, ← place]

end Vx68k.ExceptionFrames
