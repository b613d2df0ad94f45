import Vx68k.AddressSpace
import Vx68k.VdispTimer

/-!
# Calls of `_VDISPST`

A guest asks for an interrupt after a number of VDISP periods with the low byte of D1,
where 0 stands for 256. Whether the interrupt is enabled is not kept apart from the
reload value, and the timer thread polls between the calls.

The byte is taken as a signed number, which the processor library does.
-/

namespace Vx68k.CrtcMemory

/-- In the order of the polls, the first interrupt comes with the period of a number. -/
def FirstAfter (count : Nat) (crtc : CrtcMemory) : Prop :=
  ∀ times : List Nat, ∃ after log, crtc.run (times.map .check) = .ok (after, log) ∧
    ∀ front time counted posted back, log = front ++ .checked time counted posted :: back →
      (periods (front ++ [.checked time counted posted]) < count → posted = []) ∧
        (counted = true → periods (front ++ [.checked time counted posted]) = count →
          posted = [⟨6, 0x4d⟩])

variable {crtc : CrtcMemory}

/-- A poll at any time, with what it does to the counter in use. -/
theorem perform_cases (ready : Ready crtc) (enabled : crtc.vdispCounterData ≠ 0) (time : Nat) :
    ∃ after counted posted, crtc.perform (.check time) = .ok (after, .checked time counted posted) ∧
      Ready after ∧ after.vdispCounterData = crtc.vdispCounterData ∧
      ((counted = false ∧ posted = [] ∧ after.vdispCounterValue = crtc.vdispCounterValue) ∨
        (counted = true ∧ posted = [] ∧
          after.vdispCounterValue.toNat + 1 = crtc.vdispCounterValue.toNat) ∨
        (counted = true ∧ posted = [⟨6, 0x4d⟩] ∧ crtc.vdispCounterValue.toNat = 1)) := by
  obtain ⟨after, posted, done, interval, kept, cases⟩ := checkTimeouts_cases ready (Clocks.shown 32 time)
  have positive := ready.counter enabled
  have performed : crtc.perform (.check time) = .ok (after, .checked time
      (after.vdispStartTime ≠ crtc.vdispStartTime) posted) := by
    rw [perform, done]
    rfl
  refine ⟨after, _, posted, performed, ready_checked ready done, kept, ?_⟩
  rcases cases with ⟨-, rfl, rfl⟩ | ⟨-, start, counts⟩
  · exact Or.inl ⟨by simp, rfl, rfl⟩
  · have moved : decide (after.vdispStartTime ≠ crtc.vdispStartTime) = true := by
      rw [decide_eq_true_eq, start]
      apply Clocks.shown_moves
      rw [ready.interval]
      decide
    rcases counts with ⟨disabled, -⟩ | ⟨-, more, value, none⟩ | ⟨-, last, -, some⟩
    · exact absurd disabled enabled
    · refine Or.inr (Or.inl ⟨moved, none, ?_⟩)
      rw [value]
      bv_omega
    · exact Or.inr (Or.inr ⟨moved, some, congrArg BitVec.toNat last⟩)

/-- A counter in use comes to its first interrupt after as many periods as it holds.

Proof: by induction on the polls; a counted period takes one from the counter. -/
theorem firstAfter_counter (ready : Ready crtc) (enabled : crtc.vdispCounterData ≠ 0) :
    FirstAfter crtc.vdispCounterValue.toNat crtc := by
  intro times
  induction times generalizing crtc with
  | nil => exact ⟨crtc, [], rfl, fun front _ _ _ _ shape => absurd shape (by simp)⟩
  | cons time rest inductionHypothesis =>
    have positive := ready.counter enabled
    obtain ⟨middle, counted, posted, performed, still, kept, cases⟩ := perform_cases ready enabled time
    have stillEnabled : middle.vdispCounterData ≠ 0 := by
      rw [kept]
      exact enabled
    have more := still.counter stillEnabled
    obtain ⟨after, log, ran, others⟩ := inductionHypothesis still stillEnabled
    refine ⟨after, .checked time counted posted :: log, ?_, ?_⟩
    · rw [List.map_cons, run, performed]
      change (middle.run (rest.map .check) >>= fun _ => _) = _
      rw [ran]
      rfl
    · intro front next also asked back shape
      cases front with
      | nil =>
        obtain ⟨here, -⟩ := List.cons.inj shape
        obtain ⟨rfl, rfl, rfl⟩ := Entry.checked.inj here
        rw [List.nil_append, periods, periods]
        rcases cases with ⟨rfl, rfl, -⟩ | ⟨rfl, rfl, down⟩ | ⟨rfl, rfl, last⟩
        · exact ⟨fun _ => rfl, fun no => absurd no (by decide)⟩
        · refine ⟨fun _ => rfl, fun _ ends => ?_⟩
          rw [if_pos rfl] at ends
          bv_omega
        · refine ⟨fun before => ?_, fun _ _ => rfl⟩
          rw [if_pos rfl] at before
          omega
      | cons entry front =>
        obtain ⟨rfl, remains⟩ := List.cons.inj shape
        obtain ⟨before, ends⟩ := others front next also asked back remains
        rw [List.cons_append, periods]
        rcases cases with ⟨rfl, -, same⟩ | ⟨rfl, -, down⟩ | ⟨rfl, -, last⟩
        · rw [if_neg (by decide), Nat.zero_add, ← same]
          exact ⟨before, ends⟩
        · rw [if_pos rfl, ← down]
          exact ⟨fun less => before (by omega), fun yes equal => ends yes (by omega)⟩
        · -- The first interrupt came with this poll.
          rw [if_pos rfl, last]
          refine ⟨fun less => absurd less (by omega), fun yes equal => ?_⟩
          rw [periods_checked, if_pos yes] at equal
          omega

end Vx68k.CrtcMemory

namespace Vx68k.VdispCalls

open Programs ByteStores CrtcMemory

/-- What the calls work on. -/
structure Video (M : Type) where
  crtc : CrtcMemory
  memory : M

variable {M : Type} [Bus M]

/-- Write a long word of memory. -/
def put32 (address value : Uint32) : Program Thrown (Video M) Unit :=
  .atomic fun video =>
    let ending := Bus.put32 address value video.memory
    (ending.1, { video with memory := ending.2 })

/-- Set the counter's data, as the guest's call does. -/
def setVdispCounterData (value : Uint32) : Program Thrown (Video M) Unit :=
  .update fun video => { video with crtc := video.crtc.setVdispCounterData value }

/-- `_VDISPST` with D1 and A1; its value is D0. -/
def iocsVdispst (d1 address : Uint32) : Program Thrown (Video M) Uint32 := do
  let video ← .state
  if address = 0 then do
    setVdispCounterData 0
    pure 0
  else if video.crtc.vdispInterruptEnabled then pure 1
  else do
    let count := (d1.setWidth 8).signExtend 32
    let count := if count = 0 then 0x100 else count
    put32 (0x4d * 4) address
    setVdispCounterData count
    pure 0

/-- A call with the states before and after it. -/
structure Record (M : Type) where
  before : Video M
  d1 : Uint32
  address : Uint32
  result : Uint32
  after : Video M

/-- Calls one after the other, between polls of the timer and stores of the guest. -/
inductive Run : Video M → List (Record M) → Video M → Prop
  | stop (video : Video M) : Run video [] video
  | call (before : Video M) (d1 address result : Uint32) (middle : Video M)
      (records : List (Record M)) (after : Video M)
      (returned : Returns (iocsVdispst d1 address) before result middle)
      (rest : Run middle records after) :
      Run before (⟨before, d1, address, result, middle⟩ :: records) after
  | poll (before : Video M) (t : Uint32) (crtc : CrtcMemory) (posted : List Interrupt)
      (records : List (Record M)) (after : Video M)
      (done : before.crtc.checkTimeouts t = .ok (crtc, posted))
      (rest : Run ⟨crtc, before.memory⟩ records after) : Run before records after
  | store (before : Video M) (memory : M) (records : List (Record M)) (after : Video M)
      (size : Bus.size memory = Bus.size before.memory)
      (rest : Run ⟨before.crtc, memory⟩ records after) : Run before records after

/-- The number of periods that a call asks for. -/
def requested (d1 : Uint32) : Uint32 := if d1.setWidth 8 = 0#8 then 0x100 else (d1.setWidth 8).setWidth 32

/-- The call does what it is for: it disables, refuses, or arms the counter. -/
def Serves (record : Record M) : Prop :=
  if record.address = 0 then
    record.result = 0 ∧ ¬ record.after.crtc.vdispInterruptEnabled ∧
      record.after.memory = record.before.memory
  else if record.before.crtc.vdispInterruptEnabled then
    record.result = 1 ∧ record.after = record.before
  else
    record.result = 0 ∧
      Stored Bus.size Bus.byte record.before.memory 0x134 (encode 4 record.address.toNat)
        record.after.memory ∧
      record.after.crtc.vdispCounterData = requested record.d1 ∧
      FirstAfter (requested record.d1).toNat record.after.crtc

/-- The count is not negative as a byte, or is not looked at. -/
def InRange (record : Record M) : Prop :=
  record.address = 0 ∨ record.before.crtc.vdispInterruptEnabled ∨ (record.d1.setWidth 8).toNat < 0x80

/-- Sign extension keeps exactly the counts below 0x80. -/
theorem signExtend_iff : ∀ byte : Byte,
    (if byte.signExtend 32 = 0 then 0x100 else byte.signExtend 32) =
      (if byte = 0#8 then (0x100 : Uint32) else byte.setWidth 32) ↔ byte.toNat < 0x80 := by
  decide +kernel

/-- What a call returns and leaves, case by case. -/
theorem call_returns (video : Video M) (d1 address : Uint32) (room : 0x138 ≤ Bus.size video.memory) :
    ∃ result after, Returns (iocsVdispst d1 address) video result after ∧
      ((address = 0 ∧ result = 0 ∧ after = ⟨video.crtc.setVdispCounterData 0, video.memory⟩) ∨
        (address ≠ 0 ∧ video.crtc.vdispInterruptEnabled ∧ result = 1 ∧ after = video) ∨
        (address ≠ 0 ∧ ¬ video.crtc.vdispInterruptEnabled ∧ result = 0 ∧
          Stored Bus.size Bus.byte video.memory 0x134 (encode 4 address.toNat) after.memory ∧
          after.crtc = video.crtc.setVdispCounterData
            (if (d1.setWidth 8).signExtend 32 = 0 then 0x100 else (d1.setWidth 8).signExtend 32))) := by
  by_cases null : address = 0
  · refine ⟨0, ⟨video.crtc.setVdispCounterData 0, video.memory⟩, ends_after_state.mpr ?_,
      Or.inl ⟨null, rfl, rfl⟩⟩
    rw [if_pos null]
    exact ends_after_update.mpr (returns_pure.mpr ⟨rfl, rfl⟩)
  by_cases enabled : video.crtc.vdispInterruptEnabled
  · refine ⟨1, video, ends_after_state.mpr ?_, Or.inr (Or.inl ⟨null, enabled, rfl, rfl⟩)⟩
    rw [if_neg null, if_pos enabled]
    exact returns_pure.mpr ⟨rfl, rfl⟩
  · obtain ⟨memory, stores, stored⟩ := Bus.put32_main (0x4d * 4) address video.memory (by decide)
      (by simpa using room)
    refine ⟨0, ⟨video.crtc.setVdispCounterData _, memory⟩, ends_after_state.mpr ?_,
      Or.inr (Or.inr ⟨null, enabled, rfl, stored, rfl⟩)⟩
    rw [if_neg null, if_neg enabled]
    have put : Returns (put32 (0x4d * 4) address) video () ⟨video.crtc, memory⟩ :=
      returns_atomic.mpr (by rw [stores])
    exact returns_bind.mpr ⟨(), _, put, ends_after_update.mpr (returns_pure.mpr ⟨rfl, rfl⟩)⟩

/-- Setting a value that is not zero arms the counter for as many periods. -/
theorem set_arms {crtc : CrtcMemory} (ready : Ready crtc) {value : Uint32} (some : value ≠ 0) :
    (crtc.setVdispCounterData value).vdispCounterData = value ∧
      FirstAfter value.toNat (crtc.setVdispCounterData value) := by
  have counter := firstAfter_counter (set_ready ready value)
    (by rw [set_vdispCounterData]; exact some)
  rw [set_starts crtc some] at counter ⊢
  exact ⟨rfl, counter⟩

/-- One call does what it is for exactly if its count is in range, and it leaves a state
in which calls go on. -/
theorem call_serves_iff (record : Record M) (ready : Ready record.before.crtc)
    (room : 0x138 ≤ Bus.size record.before.memory)
    (returned : Returns (iocsVdispst record.d1 record.address) record.before record.result
      record.after) :
    (Serves record ↔ InRange record) ∧ Ready record.after.crtc ∧
      Bus.size record.after.memory = Bus.size record.before.memory := by
  obtain ⟨before, d1, address, result, after⟩ := record
  simp only at ready room returned ⊢
  obtain ⟨other, last, again, cases⟩ := call_returns before d1 address room
  obtain ⟨rfl, rfl⟩ := returns_unique returned again
  rcases cases with ⟨rfl, rfl, rfl⟩ | ⟨some, enabled, rfl, rfl⟩ | ⟨some, disabled, rfl, stored, crtc⟩
  · refine ⟨iff_of_true ?_ (Or.inl rfl), set_ready ready 0, rfl⟩
    exact ⟨rfl, fun enabled => enabled rfl, rfl⟩
  · refine ⟨iff_of_true ?_ (Or.inr (Or.inl enabled)), ready, rfl⟩
    rw [Serves, if_neg some, if_pos enabled]
    exact ⟨rfl, rfl⟩
  · refine ⟨?_, by rw [crtc]; exact set_ready ready _, stored.size⟩
    have loaded_some : (if (d1.setWidth 8).signExtend 32 = 0 then 0x100
        else (d1.setWidth 8).signExtend 32) ≠ (0 : Uint32) := by
      split
      · decide
      · assumption
    obtain ⟨data, first⟩ := set_arms ready loaded_some
    rw [Serves, if_neg some, if_neg disabled, InRange, or_iff_right some, or_iff_right disabled,
      ← signExtend_iff, crtc, data]
    constructor
    · exact fun serves => serves.2.2.1
    · intro same
      refine ⟨rfl, stored, same, ?_⟩
      rw [show requested d1 = _ from same.symm]
      exact first

/-- In every run of calls, polls and stores, each call does what it is for exactly if its
count is in range; and after the run every call returns. -/
theorem vdispst_serves_iff {before after : Video M} {records : List (Record M)}
    (run : Run before records after) (reached : Reached before.crtc)
    (room : 0x138 ≤ Bus.size before.memory) :
    (∀ record ∈ records, (Serves record ↔ InRange record)) ∧
      ∀ d1 address, ∃ result next, Returns (iocsVdispst d1 address) after result next := by
  have ready := reached_ready reached
  clear reached
  induction run with
  | stop video =>
    refine ⟨by simp, fun d1 address => ?_⟩
    obtain ⟨result, next, returned, -⟩ := call_returns video d1 address room
    exact ⟨result, next, returned⟩
  | call before d1 address result middle records after returned rest inductionHypothesis =>
    obtain ⟨here, still, size⟩ := call_serves_iff ⟨before, d1, address, result, middle⟩ ready
      room returned
    obtain ⟨others, total⟩ := inductionHypothesis (by rw [size]; exact room) still
    exact ⟨List.forall_mem_cons.mpr ⟨here, others⟩, total⟩
  | poll before t crtc posted records after done rest inductionHypothesis =>
    exact inductionHypothesis room (ready_checked ready done)
  | store before memory records after size rest inductionHypothesis =>
    exact inductionHypothesis (by rw [size]; exact room) ready

/-- A new CRTC and a page of memory. -/
def idle : Video MainMemory.ByteMemory := ⟨construct 0 0, ⟨0x1000, 0, fun _ => 0⟩⟩

/-- Every second period is asked for. -/
theorem vdispst_serves_second : ∃ result after, Returns (iocsVdispst 2 0x1000) idle result after ∧
    Serves ⟨idle, 2, 0x1000, result, after⟩ := by
  obtain ⟨result, after, returned, -⟩ := call_returns idle 2 0x1000 (by decide)
  have run : Run idle [⟨idle, 2, 0x1000, result, after⟩] after :=
    .call idle 2 0x1000 result after [] after returned (.stop after)
  have serves := (vdispst_serves_iff run (.constructed 0 0) (by decide)).1 _ List.mem_cons_self
  have low : ((2 : Uint32).setWidth 8).toNat < 0x80 := by decide
  exact ⟨result, after, returned, serves.mpr (Or.inr (Or.inr low))⟩

/-- A count of 128 periods is taken for 0xffffff80. -/
theorem count_128_not_served : ∃ result after, Returns (iocsVdispst 0x80 0x1000) idle result after ∧
    ¬ Serves ⟨idle, 0x80, 0x1000, result, after⟩ := by
  obtain ⟨result, after, returned, -⟩ := call_returns idle 0x80 0x1000 (by decide)
  have room : 0x138 ≤ Bus.size idle.memory := by decide
  have some : (0x1000 : Uint32) ≠ 0 := by decide
  have disabled : ¬ idle.crtc.vdispInterruptEnabled := by decide
  have high : ¬ ((0x80 : Uint32).setWidth 8).toNat < 0x80 := by decide
  have serves := (call_serves_iff ⟨idle, 0x80, 0x1000, result, after⟩
    (reached_ready (.constructed 0 0)) room returned).1
  exact ⟨result, after, returned, fun served =>
    (serves.mp served).elim some fun later => later.elim disabled high⟩

end Vx68k.VdispCalls
