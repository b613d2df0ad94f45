import Vx68k.AddressSpace

/-!
# Copies by `_DMAMOVE`

A guest copies so many bytes between the addresses in A1 and A2. The mode in the low
byte of D1 holds the direction and how each address moves after a byte: it stays, goes
up or goes down. The two directions are two loops, each the other one with its
addresses exchanged.

The mode is taken as a signed number, which the processor library does; none of the
bits it is tested for depends on that.
-/

namespace Vx68k.DmaMove

open Programs ByteStores

/-- The registers of a call; they are left as they are. -/
structure DmaRegisters where
  d1 : Uint32
  d2 : Uint32
  a1 : Uint32
  a2 : Uint32
deriving DecidableEq

/-- What each value of a field of the mode adds to an address. -/
def increments (index : Uint32) : Uint32 :=
  match index.toNat with
  | 1 => 1
  | 2 => -1
  | _ => 0

namespace DmaRegisters

variable (regs : DmaRegisters)

/-- The mode, a signed byte of D1. -/
def mode : Uint32 := (regs.d1.setWidth 8).signExtend 32

/-- What is added to the address in A1. -/
def iInc : Uint32 := increments (regs.mode &&& (0x3 : Uint32))

/-- What is added to the address in A2. -/
def jInc : Uint32 := increments (regs.mode >>> 2 &&& (0x3 : Uint32))

end DmaRegisters

variable {M : Type} [Bus M] [ByteBus M]

/-- Read a byte. -/
def get8 (address : Uint32) : Program Thrown M Uint32 :=
  .atomic fun memory => (ByteBus.get8 memory address, memory)

/-- Write a byte. -/
def put8 (address value : Uint32) : Program Thrown M Unit := .atomic (Bus.put8 address value)

/-- Where a loop stands. -/
structure Copying where
  n : Uint32
  i : Uint32
  j : Uint32
deriving DecidableEq

/-- Copy from A2 to A1. -/
def copyToA1 (iInc jInc : Uint32) (now : Copying) : Program Thrown M (Turn Copying Unit) :=
  if now.n > 0 then do
    let value ← get8 now.j
    put8 now.i value
    pure (.again ⟨now.n - 1, now.i + iInc, now.j + jInc⟩)
  else pure (.leave ())

/-- Copy from A1 to A2. -/
def copyToA2 (iInc jInc : Uint32) (now : Copying) : Program Thrown M (Turn Copying Unit) :=
  if now.n > 0 then do
    let value ← get8 now.i
    put8 now.j value
    pure (.again ⟨now.n - 1, now.i + iInc, now.j + jInc⟩)
  else pure (.leave ())

/-- `_DMAMOVE`. -/
def iocsDmamove (regs : DmaRegisters) : Program Thrown M Unit :=
  if regs.mode >>> 7 &&& (0x1 : Uint32) ≠ 0 then
    .loop (copyToA1 regs.iInc regs.jInc) ⟨regs.d2, regs.a1, regs.a2⟩
  else .loop (copyToA2 regs.iInc regs.jInc) ⟨regs.d2, regs.a1, regs.a2⟩

/-- The same place with the addresses exchanged. -/
def Copying.exchanged (now : Copying) : Copying := ⟨now.n, now.j, now.i⟩

/-- A loop is the other one with the addresses and increments exchanged. -/
theorem loops_exchanged (iInc jInc : Uint32) (now : Copying) :
    (Program.loop (copyToA1 jInc iInc) now.exchanged : Program Thrown M Unit) =
      .loop (copyToA2 iInc jInc) now := by
  refine loop_rename Copying.exchanged (fun position => ?_) now
  unfold copyToA1 copyToA2
  change (if position.n > 0 then _ else _) = _
  by_cases more : position.n > 0
  · rw [if_pos more, if_pos more]
    simp only [Copying.exchanged, bind_assoc, pure_bind, Turn.rename]
  · rw [if_neg more, if_neg more]
    simp only [pure_bind, Turn.rename]

/-- Calls in opposite directions with addresses and increments exchanged. -/
structure Mirrors (regs other : DmaRegisters) : Prop where
  direction : (other.d1 >>> 7 &&& (0x1 : Uint32) ≠ 0) ↔ ¬ (regs.d1 >>> 7 &&& (0x1 : Uint32) ≠ 0)
  low : other.d1 &&& (0x3 : Uint32) = regs.d1 >>> 2 &&& (0x3 : Uint32)
  high : other.d1 >>> 2 &&& (0x3 : Uint32) = regs.d1 &&& (0x3 : Uint32)
  d2 : other.d2 = regs.d2
  a1 : other.a1 = regs.a2
  a2 : other.a2 = regs.a1

/-- The bits of the mode are bits of D1. -/
theorem mode_bits (regs : DmaRegisters) :
    regs.mode &&& (0x3 : Uint32) = regs.d1 &&& (0x3 : Uint32) ∧ regs.mode >>> 2 &&& (0x3 : Uint32) = regs.d1 >>> 2 &&& (0x3 : Uint32) ∧
      regs.mode >>> 7 &&& (0x1 : Uint32) = regs.d1 >>> 7 &&& (0x1 : Uint32) := by
  unfold DmaRegisters.mode
  refine ⟨?_, ?_, ?_⟩
  · ext bit inside
    interval_cases bit <;> simp [BitVec.getElem_signExtend]
  · ext bit inside
    interval_cases bit <;> simp [BitVec.getElem_signExtend]
  · ext bit inside
    interval_cases bit <;> simp [BitVec.getElem_signExtend]

/-- A call in the other direction with the registers exchanged is the same call. -/
theorem mirrors_same {regs other : DmaRegisters} (mirrors : Mirrors regs other) :
    (iocsDmamove other : Program Thrown M Unit) = iocsDmamove regs := by
  obtain ⟨low, high, top⟩ := mode_bits regs
  obtain ⟨otherLow, otherHigh, otherTop⟩ := mode_bits other
  have first : other.iInc = regs.jInc := by
    rw [DmaRegisters.iInc, DmaRegisters.jInc, otherLow, high, mirrors.low]
  have second : other.jInc = regs.iInc := by
    rw [DmaRegisters.iInc, DmaRegisters.jInc, otherHigh, low, mirrors.high]
  rw [iocsDmamove, iocsDmamove, otherTop, top, first, second, mirrors.d2, mirrors.a1, mirrors.a2]
  by_cases direction : regs.d1 >>> 7 &&& (0x1 : Uint32) ≠ 0
  · rw [if_neg (fun also => mirrors.direction.mp also direction), if_pos direction]
    exact (loops_exchanged regs.jInc regs.iInc ⟨regs.d2, regs.a2, regs.a1⟩).symm
  · rw [if_pos (mirrors.direction.mpr direction), if_neg direction]
    exact loops_exchanged regs.iInc regs.jInc ⟨regs.d2, regs.a1, regs.a2⟩

/-- The address after so many bytes. -/
def place (start inc : Uint32) (offset : Nat) : Uint32 := start + BitVec.ofNat 32 offset * inc

/-- The first byte is at the start. -/
@[simp]
theorem place_zero (start inc : Uint32) : place start inc 0 = start := by
  simp [place]

/-- Each byte is one increment after the one before. -/
theorem place_succ (start inc : Uint32) (offset : Nat) :
    place start inc (offset + 1) = place start inc offset + inc := by
  rw [place, place, BitVec.ofNat_add, BitVec.add_mul, BitVec.one_mul, BitVec.add_assoc]

/-- An address that goes up or down comes to each place once. -/
theorem place_injective {start inc : Uint32} (moves : inc = 1 ∨ inc = -1) {first second : Nat}
    (one : first < 2 ^ 32) (two : second < 2 ^ 32)
    (same : place start inc first = place start inc second) : first = second := by
  have offsets : BitVec.ofNat 32 first * inc = BitVec.ofNat 32 second * inc :=
    (BitVec.add_right_inj start).mp same
  have numbers : BitVec.ofNat 32 first = BitVec.ofNat 32 second := by
    rcases moves with rfl | rfl
    · simpa using offsets
    · rw [BitVec.mul_neg, BitVec.mul_neg, BitVec.neg_inj] at offsets
      simpa using offsets
  have found := congrArg BitVec.toNat numbers
  rwa [BitVec.toNat_ofNat, BitVec.toNat_ofNat, Nat.mod_eq_of_lt one, Nat.mod_eq_of_lt two] at found

/-- A turn in main memory copies one byte. -/
theorem copyToA2_copies {iInc jInc : Uint32} {now : Copying} {memory : M} (more : now.n > 0)
    (source : now.i.toNat < Bus.size memory) (destination : now.j.toNat < Bus.size memory) :
    ∃ after, Returns (copyToA2 iInc jInc now) memory
        (.again ⟨now.n - 1, now.i + iInc, now.j + jInc⟩) after ∧
      Stored Bus.size Bus.byte memory now.j.toNat [Bus.byte memory now.i.toNat] after := by
  obtain ⟨value, read, low⟩ := ByteBus.get8_main memory now.i source
  obtain ⟨after, written, stored⟩ := Bus.put8_main now.j value memory destination
  have byte : encode 1 value.toNat = [Bus.byte memory now.i.toNat] := by
    rw [MainMemory.encode_one, ← low, ← BitVec.setWidth_eq_extractLsb' (by decide)]
  rw [byte] at stored
  refine ⟨after, ?_, stored⟩
  rw [copyToA2, if_pos more]
  exact returns_bind.mpr ⟨value, memory, returns_atomic.mpr (by rw [read]),
    returns_bind.mpr ⟨(), after, returns_atomic.mpr written, returns_pure.mpr ⟨rfl, rfl⟩⟩⟩

/-- The places of a copy are in main memory, and no byte is both read and written. -/
structure Separate (memory : M) (source destination : Nat → Uint32) (count : Nat) : Prop where
  read : ∀ offset < count, (source offset).toNat < Bus.size memory
  written : ∀ offset < count, (destination offset).toNat < Bus.size memory
  apart : ∀ first < count, ∀ second < count, source first ≠ destination second

/-- The loop copies all its bytes.

Proof: by induction on the bytes that are left. A byte's source has not been written,
since the two ranges are apart, and its destination is not one of those before. -/
theorem copyToA2_run {iInc jInc i j : Uint32} {initial : M} {total : Nat} (bound : total < 2 ^ 32)
    (separate : Separate initial (place i iInc) (place j jInc) total)
    (moves : jInc = 1 ∨ jInc = -1) (rest : Nat) :
    ∀ (done : Nat) (memory : M), done + rest = total → Bus.size memory = Bus.size initial →
      Copied (Bus.byte initial) (fun offset => (place i iInc offset).toNat)
        (fun offset => (place j jInc offset).toNat) done (Bus.byte memory) →
      ∃ after, Returns (.loop (copyToA2 iInc jInc)
          ⟨BitVec.ofNat 32 rest, place i iInc done, place j jInc done⟩) memory () after ∧
        Bus.size after = Bus.size initial ∧
        Copied (Bus.byte initial) (fun offset => (place i iInc offset).toNat)
          (fun offset => (place j jInc offset).toNat) total (Bus.byte after) := by
  induction rest with
  | zero =>
    intro done memory all size copied
    obtain rfl : done = total := by omega
    exact ⟨memory, loop_leaves (by simp [copyToA2]), size, copied⟩
  | succ rest inductionHypothesis =>
    intro done memory all size copied
    have left : (BitVec.ofNat 32 (rest + 1)).toNat = rest + 1 := Nat.mod_eq_of_lt (by omega)
    obtain ⟨middle, turn, stored⟩ := @copyToA2_copies _ _ _ iInc jInc
      ⟨BitVec.ofNat 32 (rest + 1), place i iInc done, place j jInc done⟩ memory
      (by rw [gt_iff_lt, BitVec.lt_def, left]; exact Nat.succ_pos rest)
      (size ▸ separate.read done (by omega)) (size ▸ separate.written done (by omega))
    have fewer : BitVec.ofNat 32 (rest + 1) - 1 = BitVec.ofNat 32 rest := by
      rw [BitVec.ofNat_add]
      exact BitVec.add_sub_cancel _ _
    have further : Copied (Bus.byte initial) (fun offset => (place i iInc offset).toNat)
        (fun offset => (place j jInc offset).toNat) (done + 1) (Bus.byte middle) := by
      rw [stored.byte]
      refine copied_next copied (fun offset before same => ?_) (fun offset before same => ?_)
      · exact separate.apart done (by omega) offset (by omega) (BitVec.eq_of_toNat_eq same)
      · have equal := place_injective moves (by omega) (by omega) (BitVec.eq_of_toNat_eq same)
        omega
    rw [fewer, ← place_succ, ← place_succ] at turn
    obtain ⟨after, returned, kept, whole⟩ := inductionHypothesis (done + 1) middle (by omega)
      (stored.size.trans size) further
    exact ⟨after, loop_continues turn returned, kept, whole⟩

/-- The address that is read. -/
def DmaRegisters.source (regs : DmaRegisters) : Uint32 :=
  if regs.d1 >>> 7 &&& (0x1 : Uint32) ≠ 0 then regs.a2 else regs.a1

/-- The address that is written. -/
def DmaRegisters.destination (regs : DmaRegisters) : Uint32 :=
  if regs.d1 >>> 7 &&& (0x1 : Uint32) ≠ 0 then regs.a1 else regs.a2

/-- With equal increments both directions are one loop. -/
theorem dmamove_loop (regs : DmaRegisters) (equal : regs.iInc = regs.jInc) :
    (iocsDmamove regs : Program Thrown M Unit) =
      .loop (copyToA2 regs.jInc regs.jInc) ⟨regs.d2, regs.source, regs.destination⟩ := by
  obtain ⟨-, -, top⟩ := mode_bits regs
  rw [iocsDmamove, top, equal, DmaRegisters.source, DmaRegisters.destination]
  by_cases direction : regs.d1 >>> 7 &&& (0x1 : Uint32) ≠ 0
  · rw [if_pos direction, if_pos direction, if_pos direction]
    exact loops_exchanged regs.jInc regs.jInc ⟨regs.d2, regs.a2, regs.a1⟩
  · rw [if_neg direction, if_neg direction, if_neg direction]

/-- A turn takes a bounded number of steps and counts one down. -/
theorem copyToA2_halts (iInc jInc : Uint32) (now : Copying) (memory : M) :
    Halts (.loop (copyToA2 iInc jInc) now) memory := by
  refine loop_halts (fun _ _ => True) (fun position _ => position.n.toNat)
    (fun position state _ => ?_) (fun position state next after _ turn => ?_) now memory trivial
  · unfold copyToA2
    split
    · exact halts_bind (halts_atomic _ _) fun value middle _ =>
        halts_bind (halts_atomic _ _) fun _ _ _ => halts_atomic _ _
    · exact halts_atomic _ _
  · unfold copyToA2 at turn
    split at turn
    · rename_i more
      obtain ⟨value, middle, -, written⟩ := returns_bind.mp turn
      obtain ⟨done, last, -, ended⟩ := returns_bind.mp written
      obtain ⟨same, -⟩ := returns_pure.mp ended
      obtain rfl := Turn.again.inj same
      refine ⟨trivial, ?_⟩
      change (position.n - 1).toNat < position.n.toNat
      bv_omega
    · obtain ⟨different, -⟩ := returns_pure.mp turn
      exact absurd different (by simp)

/-- Every call comes to an end. -/
theorem dmamove_halts (regs : DmaRegisters) (memory : M) : Halts (iocsDmamove regs) memory := by
  unfold iocsDmamove
  split
  · rw [show (⟨regs.d2, regs.a1, regs.a2⟩ : Copying) =
      Copying.exchanged ⟨regs.d2, regs.a2, regs.a1⟩ from rfl, loops_exchanged]
    exact copyToA2_halts _ _ _ memory
  · exact copyToA2_halts _ _ _ memory

/-- A call whose addresses both go up or both go down, over bytes of main memory that are
apart, copies exactly its bytes; and a call in the opposite direction, with addresses and
increments exchanged, does the same to every memory.

Proof: with equal increments both directions are the loop that writes at A2, and the bytes
it has copied are its invariant. The exchanged call is the same program, since its turns
differ in the names of the two addresses alone. -/
theorem dmamove_copies (regs : DmaRegisters) :
    (∀ memory : M, regs.iInc = regs.jInc → (regs.iInc = 1 ∨ regs.iInc = -1) →
      Separate memory (place regs.source regs.iInc) (place regs.destination regs.iInc)
        regs.d2.toNat →
      ∃ after, Returns (iocsDmamove regs) memory () after ∧ Bus.size after = Bus.size memory ∧
        (∀ offset < regs.d2.toNat,
          Bus.byte after (place regs.destination regs.iInc offset).toNat =
            Bus.byte memory (place regs.source regs.iInc offset).toNat) ∧
        ∀ index, (∀ offset < regs.d2.toNat,
          index ≠ (place regs.destination regs.iInc offset).toNat) →
            Bus.byte after index = Bus.byte memory index) ∧
    ∀ other, Mirrors regs other → ∀ memory : M, Halts (iocsDmamove regs) memory ∧
      ∀ outcome after, Ends (iocsDmamove other) memory outcome after ↔
        Ends (iocsDmamove regs) memory outcome after := by
  constructor
  · intro memory equal moves separate
    rw [equal] at moves separate
    obtain ⟨after, returned, size, copied⟩ := copyToA2_run regs.d2.isLt separate moves
      regs.d2.toNat 0 memory (Nat.zero_add _) rfl (copied_zero _ _ _)
    rw [BitVec.ofNat_toNat, BitVec.setWidth_eq, place_zero, place_zero] at returned
    rw [equal, dmamove_loop regs equal]
    exact ⟨after, returned, size, copied.copied, copied.frame⟩
  · intro other mirrors memory
    refine ⟨dmamove_halts regs memory, fun outcome after => ?_⟩
    rw [mirrors_same mirrors]

/-- Two bytes go from the front of six to their middle, upwards, and by the mirrored call. -/
theorem dmamove_copies_two :
    (∃ after, Returns (iocsDmamove ⟨0x05, 2, 0, 3⟩)
        (⟨6, 0, fun index => BitVec.ofNat 8 index⟩ : MainMemory.ByteMemory) () after ∧
      Bus.byte after 4 = 1 ∧ Bus.byte after 5 = 5) ∧
    ∀ outcome after, Ends (iocsDmamove ⟨0x85, 2, 3, 0⟩)
        (⟨6, 0, fun index => BitVec.ofNat 8 index⟩ : MainMemory.ByteMemory) outcome after ↔
      Ends (iocsDmamove ⟨0x05, 2, 0, 3⟩) ⟨6, 0, fun index => BitVec.ofNat 8 index⟩ outcome after := by
  obtain ⟨copies, mirrored⟩ := @dmamove_copies MainMemory.ByteMemory _ _ ⟨0x05, 2, 0, 3⟩
  constructor
  · obtain ⟨after, returned, -, copied, frame⟩ :=
      copies ⟨6, 0, fun index => BitVec.ofNat 8 index⟩ (by decide) (by decide)
        ⟨by decide, by decide, by decide⟩
    exact ⟨after, returned, copied 1 (by decide), frame 5 (by decide)⟩
  · exact (mirrored ⟨0x85, 2, 3, 0⟩
      ⟨by decide, by decide, by decide, rfl, rfl, rfl⟩ _).2

end Vx68k.DmaMove
