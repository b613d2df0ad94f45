import Vx68k.FloppyDisk

/-!
# The floppy drives of the machine

Drives are empty when the machine is constructed. A user loads images into them and unloads
them again, and guests read from them with `_B_READ`.

A call for a drive that does not exist is an exception, after which the machine is as it
was. A negative descriptor is refused by an assertion, which ends the emulator.
-/

namespace Vx68k.Boot.Machine

open Programs ByteStores FileReads FloppyDisk

variable {S M : Type}

/-- A machine that has been constructed. -/
def construct (run : Uint32 → Method S M Uint32) : Machine S M where
  fd _ := none
  run := run

/-- Take the disk out of a drive. -/
def unloadFd (machine : Machine S M) (u : Uint32) : Except Raised (Machine S M) :=
  if u ≥ nfds then .error (.rangeError "machine")
  else .ok { machine with fd := Function.update machine.fd u none }

/-- A negative descriptor stands for no image. -/
def loadFd [Bus M] (host : Host) (machine : Machine S M) (u : Uint32) (fildes : Option Image) :
    Except Raised (Machine S M) :=
  if u ≥ nfds then .error (.rangeError "machine")
  else
    match fildes with
    | none => .error .aborted
    | some image => do
      let machine ← machine.unloadFd u
      pure { machine with fd := Function.update machine.fd u (some (FloppyDisk.read host image)) }

end Vx68k.Boot.Machine

namespace Vx68k.DiskDrives

open Programs ByteStores Boot FileReads FloppyDisk

/-- The registers of a `_B_READ` call. -/
structure DiskRegisters where
  d0 : Uint32
  d1 : Uint32
  d2 : Uint32
  d3 : Uint32
  a1 : Uint32

/-- The class of the device that a call names. -/
def DiskRegisters.deviceClass (regs : DiskRegisters) : Uint32 := (regs.d1 &&& 0xffff) >>> 12

/-- The drive that a call names. -/
def DiskRegisters.unit (regs : DiskRegisters) : Uint32 := (regs.d1 &&& 0xffff) >>> 8 &&& 0xf

variable {S M : Type}

/-- `iocs_b_read`. -/
def iocsBRead (machine : Machine S M) (regs : DiskRegisters) : Method S M DiskRegisters := do
  let status ← machine.readDisk (regs.d1 &&& 0xffff) regs.d2 regs.a1 regs.d3
  pure { regs with d0 := status }

/-- What a `_B_READ` call is for: it ends, it reads from the drive that it names and gives
the status of that in D0, or it is an exception. -/
structure Answers (machine : Machine S M) (regs : DiskRegisters) (context : Context S M) : Prop where
  ends : Halts (iocsBRead machine regs) context
  served : ∀ after last, Returns (iocsBRead machine regs) context after last →
    ∃ read status memory, machine.fd regs.unit = some read ∧
      Returns (read (regs.d1 &&& 0xffff) regs.d2 regs.a1 regs.d3) context.mem status memory ∧
      after = { regs with d0 := status } ∧ last = { context with mem := memory }
  thrown : ∀ failure last, Raises (iocsBRead machine regs) context failure last →
    (∃ error, failure = .thrown error) ∨ ∃ what, failure = .rangeError what

section Requests

variable {machine : Machine S M} {regs : DiskRegisters}

/-- A call for another class of device stops the emulator. -/
theorem readDisk_class (other : regs.deviceClass ≠ 9) :
    machine.readDisk (regs.d1 &&& 0xffff) regs.d2 regs.a1 regs.d3 = .raise .aborted :=
  if_neg other

/-- A call for a drive that does not exist is an exception. -/
theorem readDisk_outside (floppy : regs.deviceClass = 9) (outside : nfds ≤ regs.unit) :
    machine.readDisk (regs.d1 &&& 0xffff) regs.d2 regs.a1 regs.d3 =
      .raise (.rangeError "read_disk") :=
  (if_pos floppy).trans (if_pos outside)

/-- A call for a drive takes what there is in it. -/
theorem readDisk_drive (floppy : regs.deviceClass = 9) (drive : regs.unit < nfds) :
    machine.readDisk (regs.d1 &&& 0xffff) regs.d2 regs.a1 regs.d3 =
      match machine.fd regs.unit with
      | some readFloppy =>
        .zoom Context.mem (fun mem context => { context with mem := mem })
          (readFloppy (regs.d1 &&& 0xffff) regs.d2 regs.a1 regs.d3)
      | none => .raise .nullDisk :=
  (if_pos floppy).trans (if_neg (BitVec.not_le.mpr drive))

/-- A call that fails is answered exactly by an exception. -/
theorem answers_raised {failure : Raised} {context last : Context S M}
    (raised : Raises (iocsBRead machine regs) context failure last) :
    Answers machine regs context ↔
      (∃ error, failure = .thrown error) ∨ ∃ what, failure = .rangeError what := by
  constructor
  · intro answers
    exact answers.thrown failure last raised
  · intro thrown
    refine ⟨halts_iff.mpr (Or.inr ⟨failure, last, raised⟩),
      fun after final returned => absurd raised (returns_not_raises returned),
      fun other final also => ?_⟩
    obtain ⟨same, -⟩ := ends_unique raised also
    exact Except.error.inj same ▸ thrown

/-- A call may fail before it comes to a disk. -/
theorem raises_failed {failure : Raised}
    (fails : machine.readDisk (regs.d1 &&& 0xffff) regs.d2 regs.a1 regs.d3 = .raise failure)
    (context : Context S M) : Raises (iocsBRead machine regs) context failure context := by
  rw [iocsBRead, fails]
  exact raises_bind.mpr (Or.inl (raises_raise.mpr ⟨rfl, rfl⟩))

/-- A call for a drive with a disk is answered exactly if the read of the disk ends with a
status or an exception. -/
theorem answers_loaded {readFloppy : DiskRead M} {context : Context S M}
    {outcome : Except Raised Uint32} {memory : M} (floppy : regs.deviceClass = 9)
    (drive : regs.unit < nfds) (loaded : machine.fd regs.unit = some readFloppy)
    (ends : Ends (readFloppy (regs.d1 &&& 0xffff) regs.d2 regs.a1 regs.d3) context.mem outcome memory) :
    Answers machine regs context ↔ ∀ failure, outcome = .error failure →
      (∃ error, failure = .thrown error) ∨ ∃ what, failure = .rangeError what := by
  have call : iocsBRead machine regs = .zoom Context.mem
      (fun mem context => { context with mem := mem })
      (readFloppy (regs.d1 &&& 0xffff) regs.d2 regs.a1 regs.d3) >>= fun status =>
        pure { regs with d0 := status } := by
    rw [iocsBRead, readDisk_drive floppy drive, loaded]
  cases outcome with
  | ok status =>
    have returned : Returns (iocsBRead machine regs) context { regs with d0 := status }
        { context with mem := memory } := by
      rw [call]
      exact returns_bind.mpr ⟨status, _, returns_zoom.mpr ⟨memory, ends, rfl⟩,
        returns_pure.mpr ⟨rfl, rfl⟩⟩
    refine iff_of_true ⟨halts_iff.mpr (Or.inl ⟨_, _, returned⟩), fun after last also => ?_,
      fun failure last raised => absurd raised (returns_not_raises returned)⟩ (by simp)
    obtain ⟨rfl, rfl⟩ := returns_unique returned also
    exact ⟨readFloppy, status, memory, loaded, ends, rfl, rfl⟩
  | error failure =>
    have raised : Raises (iocsBRead machine regs) context failure { context with mem := memory } := by
      rw [call]
      exact raises_bind.mpr (Or.inl (raises_zoom.mpr ⟨memory, ends, rfl⟩))
    rw [answers_raised raised]
    constructor
    · intro thrown other same
      exact Except.error.inj same ▸ thrown
    · intro failures
      exact failures failure rfl

end Requests

/-- A call of the user. -/
inductive Call where
  | load (u : Uint32) (fildes : Option Image)
  | unload (u : Uint32)

/-- What a call does to the image in a drive. -/
def change (u : Uint32) (image : Option Image) : Call → Option Image
  | .load v (some next) => if v = u then some next else image
  | .load _ none => image
  | .unload v => if v = u then none else image

/-- The image in a drive after calls. -/
def inserted (u : Uint32) (calls : List Call) : Option Image := calls.foldl (change u) none

variable [Bus M]

/-- A call for a drive. -/
def perform (host : Host) (machine : Machine S M) : Call → Except Raised (Machine S M)
  | .load u fildes => machine.loadFd host u fildes
  | .unload u => machine.unloadFd u

/-- Calls of a user who goes on after an exception. There is no machine after an abort. -/
def run (host : Host) (machine : Machine S M) : List Call → Option (Machine S M)
  | [] => some machine
  | call :: rest =>
    match perform host machine call with
    | .ok after => run host after rest
    | .error .aborted => none
    | .error _ => run host machine rest

variable {host : Host}

/-- What an image in a drive changes to is what the drive reads from. -/
theorem update_fd {fd : Uint32 → Option (DiskRead M)} {u v : Uint32} {image : Option Image}
    (next : Option Image) (holds : fd u = image.map (FloppyDisk.read host)) :
    Function.update fd v (next.map (FloppyDisk.read host)) u =
      (if v = u then next else image).map (FloppyDisk.read host) := by
  by_cases same : v = u
  · subst same
    simp
  · rw [Function.update_of_ne (Ne.symm same), if_neg same, holds]

/-- A call changes one drive as it changes its image, or ends the emulator, or is refused
because there is no such drive. -/
theorem perform_cases (host : Host) (machine : Machine S M) (call : Call) :
    (∃ after, perform host machine call = .ok after ∧
      ∀ u image, machine.fd u = image.map (FloppyDisk.read host) →
        after.fd u = (change u image call).map (FloppyDisk.read host)) ∨
      perform host machine call = .error .aborted ∨
      (perform host machine call = .error (.rangeError "machine") ∧
        ∀ u < nfds, ∀ image, change u image call = image) := by
  cases call with
  | load v fildes =>
    by_cases outside : v ≥ nfds
    · refine Or.inr (Or.inr ⟨if_pos outside, fun u drive image => ?_⟩)
      cases fildes with
      | none => rfl
      | some next => exact if_neg fun same => absurd (same ▸ drive) (BitVec.not_lt.mpr outside)
    · cases fildes with
      | none => exact Or.inr (Or.inl (if_neg outside))
      | some next =>
        have unloaded : machine.unloadFd v =
            .ok { machine with fd := Function.update machine.fd v none } := if_neg outside
        refine Or.inl ⟨_, (if_neg outside).trans (by rw [unloaded]; rfl), fun u image holds => ?_⟩
        change Function.update (Function.update machine.fd v none) v
          ((some next).map (FloppyDisk.read host)) u = _
        rw [Function.update_idem]
        exact update_fd (some next) holds
  | unload v =>
    by_cases outside : v ≥ nfds
    · refine Or.inr (Or.inr ⟨if_pos outside, fun u drive image => ?_⟩)
      exact if_neg fun same => absurd (same ▸ drive) (BitVec.not_lt.mpr outside)
    · exact Or.inl ⟨_, if_neg outside, fun u image holds => update_fd none holds⟩

/-- After calls a drive has what they did to its image.

Proof: by induction on the calls; an exception changes neither. -/
theorem run_fd {machine last : Machine S M} {calls : List Call} {u : Uint32} (drive : u < nfds)
    {image : Option Image} (holds : machine.fd u = image.map (FloppyDisk.read host))
    (ran : run host machine calls = some last) :
    last.fd u = (calls.foldl (change u) image).map (FloppyDisk.read host) := by
  induction calls generalizing machine image with
  | nil =>
    obtain rfl := Option.some.inj ran
    exact holds
  | cons call rest inductionHypothesis =>
    rw [List.foldl_cons]
    rw [run] at ran
    rcases perform_cases host machine call with
      ⟨after, performed, changed⟩ | aborted | ⟨refused, unchanged⟩
    · rw [performed] at ran
      exact inductionHypothesis (changed u image holds) ran
    · rw [aborted] at ran
      exact nomatch ran
    · rw [refused] at ran
      rw [unchanged u drive image]
      exact inductionHypothesis holds ran

/-- After calls on a machine that has been constructed a drive reads from the image that was
inserted last, if any. -/
theorem inserted_fd {processor : Uint32 → Method S M Uint32} {machine : Machine S M}
    {calls : List Call} (ran : run host (Machine.construct processor) calls = some machine)
    {u : Uint32} (drive : u < nfds) :
    machine.fd u = (inserted u calls).map (FloppyDisk.read host) :=
  run_fd drive rfl ran

/-- A `_B_READ` call is answered exactly if it names a floppy disk, and the drive either does
not exist or has an image. Of an image in which the host cannot seek, the position must be
wrong. -/
theorem bRead_answers_iff (honest : Honest host) {processor : Uint32 → Method S M Uint32}
    {machine : Machine S M} {calls : List Call}
    (ran : run host (Machine.construct processor) calls = some machine) (regs : DiskRegisters)
    (context : Context S M) : Answers machine regs context ↔
      regs.deviceClass = 9 ∧ (nfds ≤ regs.unit ∨ ∃ image, inserted regs.unit calls = some image ∧
        (image.seekable = true ∨ ¬ Valid regs.d2)) := by
  by_cases floppy : regs.deviceClass = 9
  · by_cases outside : nfds ≤ regs.unit
    · rw [answers_raised (raises_failed (readDisk_outside floppy outside) context)]
      exact iff_of_true (Or.inr ⟨_, rfl⟩) ⟨floppy, Or.inl outside⟩
    · have drive : regs.unit < nfds := BitVec.not_le.mp outside
      have fd := inserted_fd ran drive
      cases holds : inserted regs.unit calls with
      | none =>
        rw [holds] at fd
        have fails := @readDisk_drive _ _ machine regs floppy drive
        rw [fd] at fails
        rw [answers_raised (raises_failed fails context)]
        simp [outside]
      | some image =>
        rw [holds] at fd
        by_cases safe : image.seekable = true ∨ ¬ Valid regs.d2
        · obtain ⟨outcome, memory, ends, failures⟩ := read_safe honest image (regs.d1 &&& 0xffff)
            regs.d2 regs.a1 regs.d3 safe context.mem
          rw [answers_loaded floppy drive fd ends]
          exact iff_of_true (fun failure same => Or.inl (failures failure same))
            ⟨floppy, Or.inr ⟨image, rfl, safe⟩⟩
        · obtain ⟨unseekable, valid⟩ := not_or.mp safe
          rw [answers_loaded floppy drive fd (read_unseekable host (regs.d1 &&& 0xffff) regs.a1
            regs.d3 (not_not.mp valid) unseekable context.mem)]
          simp [outside, unseekable, not_not.mp valid]
  · rw [answers_raised (raises_failed (readDisk_class floppy) context)]
    exact iff_of_false (by simp) fun asked => floppy asked.1

/-- A guest reads the first record of a disk that has replaced another. -/
theorem bRead_answers_replaced :
    ∃ machine : Machine Unit MainMemory.ByteMemory,
      run reading (Machine.construct fun _ => pure 0)
        [.load 0 (some ⟨[], false⟩), .unload 2, .load 0 (some ⟨[], true⟩)] = some machine ∧
        Answers machine ⟨0, 0x9070, 0x03000001, 1024, 0x2000⟩ ⟨⟨0x10000, 0, fun _ => 0⟩, 0, 0, ()⟩ := by
  have ran : run reading (Machine.construct fun _ => pure 0 : Machine Unit MainMemory.ByteMemory)
      [.load 0 (some ⟨[], false⟩), .unload 2, .load 0 (some ⟨[], true⟩)] = some _ := rfl
  exact ⟨_, ran, (bRead_answers_iff reading_honest ran _ _).mpr
    ⟨by decide, Or.inr ⟨⟨[], true⟩, rfl, Or.inl rfl⟩⟩⟩

/-- A call for an empty drive is a call of a method of no disk, and one for a hard disk
aborts the emulator. -/
theorem empty_drive_not_answered :
    ¬ Answers (Machine.construct fun _ => pure 0 : Machine Unit MainMemory.ByteMemory)
        ⟨0, 0x9070, 0x03000001, 1024, 0x2000⟩ ⟨⟨0x10000, 0, fun _ => 0⟩, 0, 0, ()⟩ ∧
      ¬ Answers (Machine.construct fun _ => pure 0 : Machine Unit MainMemory.ByteMemory)
        ⟨0, 0x8070, 0x03000001, 1024, 0x2000⟩ ⟨⟨0x10000, 0, fun _ => 0⟩, 0, 0, ()⟩ := by
  constructor
  · intro answers
    rcases answers.thrown .nullDisk _ (raises_failed rfl _) with ⟨_, impossible⟩ | ⟨_, impossible⟩
    · exact nomatch impossible
    · exact nomatch impossible
  · intro answers
    rcases answers.thrown .aborted _ (raises_failed rfl _) with ⟨_, impossible⟩ | ⟨_, impossible⟩
    · exact nomatch impossible
    · exact nomatch impossible

end Vx68k.DiskDrives
