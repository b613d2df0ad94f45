import Vx68k.ExceptionFrames

/-!
# Booting the machine

`machine::boot` reads the first sector of the disk and runs the processor from 0x2000. It
catches the exceptions that leave `eu.run` and runs the processor again: an instruction of
the F line, `TRAP`, and a bus or address error whose vector is no longer the ROM's are
served by pushing a frame and entering the handler at the vector.

For bus and address errors the source sets the program counter of the context, but runs the
processor again from its own variable, which is where the interrupted run had begun.

The processor, the context and the disk images are not part of this repository. They are
parameters, with the one law of the context that supervisor state is what it was set to.
The trace output is left out.
-/

namespace Vx68k.Boot

open Programs ByteStores ExceptionFrames

/-- The part of a `memory_exception` that its handler reads. -/
structure MemoryException where
  vecno : Uint32
  address : Uint32
  status : Uint32
deriving DecidableEq

/-- What leaves the calls of `boot`. A null disk is undefined in the source. -/
inductive Raised where
  | illegalInstruction (pc : Uint32)
  | memory (failure : MemoryException)
  | thrown (failure : Thrown)
  | rangeError (what : String)
  | aborted
  | nullDisk
deriving DecidableEq

/-- The part of a context that a processor shows beyond its registers. Setting the supervisor
state may exchange the stack pointer in A7. -/
class Status (S : Type) where
  sr : S → Uint32
  supervisorState : S → Bool
  setSupervisorState : Bool → Uint32 → S → Uint32 × S
  supervisorState_set : ∀ on a7 status, supervisorState (setSupervisorState on a7 status).2 = on

/-- A `context`: its address space, A7, the program counter and everything else. -/
structure Context (S M : Type) where
  mem : M
  a7 : Uint32
  pc : Uint32
  status : S

/-- A member function of the machine or of a device, which may stop the machine. -/
abbrev Method (S M α : Type) := Program Raised (Context S M) α

/-- The `read` of a disk takes a mode, a position, a buffer and a count. -/
abbrev DiskRead (M : Type) := Uint32 → Uint32 → Uint32 → Uint32 → Program Raised M Uint32

/-- The part of a `machine` that boots: its disks and `run` of its processor. -/
structure Machine (S M : Type) where
  fd : Uint32 → Option (DiskRead M)
  run : Uint32 → Method S M Uint32

/-- The number of floppy disk drives. -/
def nfds : Uint32 := 2

variable {S M : Type} [Status S] [Bus M] [WordBus M]

/-- The context in supervisor state with room for a frame on its stack. -/
def Context.supervise (context : Context S M) (size : Uint32) : Context S M :=
  let switched := Status.setSupervisorState true context.a7 context.status
  { context with a7 := switched.1 - size, status := switched.2 }

/-- Enter or leave the supervisor state, which exchanges the two stack pointers. -/
def setSupervisorState (on : Bool) : Method S M Unit :=
  .update fun context =>
    let switched := Status.setSupervisorState on context.a7 context.status
    { context with a7 := switched.1, status := switched.2 }

/-- Move the stack pointer down. -/
def lowerStack (size : Uint32) : Method S M Unit :=
  .update fun context => { context with a7 := context.a7 - size }

/-- A write to the address space. -/
def access (operation : M → Ending Thrown M Unit) : Method S M Unit :=
  .zoom Context.mem (fun mem context => { context with mem := mem })
    (.atomic fun mem => ((operation mem).1.mapError .thrown, (operation mem).2))

/-- Write a word to the processor's memory. -/
def put16 (address value : Uint32) : Method S M Unit := access (WordBus.put16 address value)

/-- Write a long word to it. -/
def put32 (address value : Uint32) : Method S M Unit := access (Bus.put32 address value)

/-- Read a word from the processor's memory. -/
def get16 (address : Uint32) : Method S M Uint32 :=
  .atomic fun context => ((Bus.get16 context.mem address).mapError .thrown, context)

/-- Read a long word from it. -/
def get32 (address : Uint32) : Method S M Uint32 :=
  .atomic fun context => ((Bus.get32 context.mem address).mapError .thrown, context)

/-- The frame that the source pushes for the F line and for `TRAP`. -/
def pushFrame (pc : Uint32) : Method S M Unit := do
  let context ← .state
  let oldsr := Status.sr context.status
  setSupervisorState true
  lowerStack 6
  let context ← .state
  put32 (context.a7 + 2) pc
  put16 (context.a7 + 0) oldsr

/-- The handler of an illegal instruction exception. -/
def catchIllegalInstruction (pc : Uint32) : Method S M (Turn Uint32 Unit) := do
  let op ← get16 pc
  if op &&& 0xf000 = 0xf000 then
    pushFrame pc
    let pc ← get32 (11 * 4)
    pure (.again pc)
  else if op &&& 0xfff0 = 0x4e40 then
    pushFrame (pc + 2)
    let pc ← get32 (((op &&& 0xf) + 32) * 4)
    pure (.again pc)
  else .raise (.illegalInstruction pc)

/-- The handler of a memory exception. It does not assign the variable `pc`. -/
def catchMemoryException (pc : Uint32) (failure : MemoryException) :
    Method S M (Turn Uint32 Unit) := do
  let vecaddr := failure.vecno * 4
  let addr ← get32 vecaddr
  if addr ≠ vecaddr + 0xfe0000 then
    let context ← .state
    let oldsr := Status.sr context.status
    setSupervisorState true
    lowerStack 14
    let context ← .state
    put32 (context.a7 + 10) context.pc
    put16 (context.a7 + 8) oldsr
    let op ← get16 context.pc
    put16 (context.a7 + 6) op
    put32 (context.a7 + 2) failure.address
    put16 (context.a7 + 0) failure.status
    .update fun context => { context with pc := addr }
    pure (.again pc)
  else .raise (.memory failure)

namespace Machine

/-- Read from a floppy disk, the only kind of disk there is. Nothing tests whether the drive has
one. -/
def readDisk (machine : Machine S M) (mode pos buf nbytes : Uint32) : Method S M Uint32 :=
  let u := mode >>> 8 &&& 0xf
  if mode >>> 12 = 0x9 then
    if u ≥ nfds then .raise (.rangeError "read_disk")
    else
      match machine.fd u with
      | some read =>
        .zoom Context.mem (fun mem context => { context with mem := mem }) (read mode pos buf nbytes)
      | none => .raise .nullDisk
  else .raise .aborted

/-- From the label `rerun` to the jump back to it. -/
def rerun (machine : Machine S M) (pc : Uint32) : Method S M (Turn Uint32 Unit) := do
  match ← .attempt (machine.run pc) with
  | .ok _ => pure (.leave ())
  | .error (.illegalInstruction pc) => catchIllegalInstruction pc
  | .error (.memory failure) => catchMemoryException pc failure
  | .error failure => .raise failure

/-- Read the boot sector of the first drive to 0x2000 and run it there. -/
def boot (machine : Machine S M) : Method S M Unit := do
  let st ← machine.readDisk 0x9070 0x03000001 0x2000 1024
  if st.sshiftRight 24 &&& 0xc0 ≠ 0 then .raise (.thrown (.runtimeError "machine"))
  else .loop machine.rerun 0x2000

/-- A run of `boot` calls the processor with a program counter in a context. -/
def Calls (machine : Machine S M) (initial : Context S M) (pc : Uint32) (entered : Context S M) :
    Prop :=
  ∃ st loaded, Returns (machine.readDisk 0x9070 0x03000001 0x2000 1024) initial st loaded ∧
    st.sshiftRight 24 &&& 0xc0 = 0 ∧ Turns machine.rerun 0x2000 loaded pc entered

/-- After one call the next call is with another program counter, in another context. -/
def NextCall (machine : Machine S M) (pc : Uint32) (entered : Context S M) (next : Uint32)
    (after : Context S M) : Prop :=
  Returns (machine.rerun pc) entered (.again next) after

end Machine

/-- What an exception asks for: its vector, the program counter to save and the size of its
frame. -/
structure Service where
  vector : Uint32
  pc : Uint32
  size : Nat
deriving DecidableEq

/-- The exceptions that `boot` serves in a context. -/
def service (context : Context S M) : Raised → Option Service
  | .illegalInstruction pc =>
    match Bus.get16 context.mem pc with
    | .ok op =>
      if op &&& 0xf000 = 0xf000 then some ⟨11, pc, 6⟩
      else if op &&& 0xfff0 = 0x4e40 then some ⟨32 + (op &&& 0xf), pc + 2, 6⟩
      else none
    | .error _ => none
  | .memory failure =>
    match Bus.get32 context.mem (failure.vecno * 4) with
    | .ok addr =>
      if addr = 0xfe0000 + failure.vecno * 4 then none else some ⟨failure.vecno, context.pc, 14⟩
    | .error _ => none
  | _ => none

/-- The stack pointer of supervisor state. -/
def Context.supervisorStack (context : Context S M) : Uint32 :=
  (Status.setSupervisorState true context.a7 context.status).1

/-- A frame for a service has been pushed: the program counter on top, the status register of
before below it, and what fields the size leaves room for below that. In main memory it is
stored so, and nothing else is. -/
def Framed (context : Context S M) (service : Service) (after : Context S M) : Prop :=
  ∃ below, width below + 6 = service.size ∧
    Pushes context.mem context.supervisorStack
      (.long service.pc :: .word (Status.sr context.status) :: below) after.mem ∧
    (context.supervisorStack.toNat % 2 = 0 → service.size ≤ context.supervisorStack.toNat →
      context.supervisorStack.toNat ≤ Bus.size context.mem →
      Bus.byte after.mem = lay (Bus.byte context.mem) after.a7.toNat
        (image below ++ encode 2 (Status.sr context.status).toNat ++ encode 4 service.pc.toNat))

/-- The memory in which the vector of an exception is read: a changed vector is recognized
before the frame is pushed, the others are read afterwards. -/
def Raised.table (raised : Raised) (context after : Context S M) : M :=
  match raised with
  | .memory _ => context.mem
  | _ => after.mem

/-- An exception that was raised in a context has been served when the next call is made. -/
structure Resumed (context : Context S M) (raised : Raised) (service : Service) (next : Uint32)
    (after : Context S M) : Prop where
  supervisor : Status.supervisorState after.status = true
  stack : after.a7 = context.supervisorStack - BitVec.ofNat 32 service.size
  frame : Framed context service after
  start : Bus.get32 (raised.table context after) (service.vector * 4) = .ok next

/-- The handler's accesses are to main memory and at even addresses. -/
structure Accessible (context : Context S M) (service : Service) : Prop where
  even : context.supervisorStack.toNat % 2 = 0
  room : service.size ≤ context.supervisorStack.toNat
  inside : context.supervisorStack.toNat ≤ Bus.size context.mem
  vector : (service.vector * 4).toNat + 4 ≤ Bus.size context.mem
  instruction : service.size = 14 →
    context.pc.toNat % 2 = 0 ∧ context.pc.toNat + 2 ≤ Bus.size context.mem

/-- A call that a bus or address error ended had begun at the address in the vector. -/
def BegunAtVector (pc : Uint32) (context : Context S M) : Raised → Prop
  | .memory failure => Bus.get32 context.mem (failure.vecno * 4) = .ok pc
  | _ => True

/-- Another kind of error changes no success. -/
theorem mapError_ok {ε ε' α : Type} {outcome : Except ε α} {change : ε → ε'} {value : α} :
    outcome.mapError change = .ok value ↔ outcome = .ok value := by
  cases outcome with
  | ok found => simp [Except.mapError]
  | error failure => simp [Except.mapError]

omit [Status S] [Bus M] [WordBus M] in
/-- A write returns with what it leaves in memory. -/
theorem returns_access {operation : M → Ending Thrown M Unit} {context after : Context S M}
    {done : Unit} :
    Returns (access operation) context done after ↔
      ∃ memory, operation context.mem = (.ok (), memory) ∧
        after = { context with mem := memory } := by
  rw [access, returns_zoom]
  simp only [returns_atomic, mapError_ok, Prod.ext_iff, eq_comm]

omit [Status S] [WordBus M] in
/-- Reading a word returns what is there and changes nothing. -/
theorem returns_get16 {address value : Uint32} {context after : Context S M} :
    Returns (get16 address) context value after ↔
      Bus.get16 context.mem address = .ok value ∧ context = after := by
  rw [get16, returns_atomic, Prod.mk.injEq, mapError_ok]

omit [Status S] [WordBus M] in
/-- So does reading a long word. -/
theorem returns_get32 {address value : Uint32} {context after : Context S M} :
    Returns (get32 address) context value after ↔
      Bus.get32 context.mem address = .ok value ∧ context = after := by
  rw [get32, returns_atomic, Prod.mk.injEq, mapError_ok]

omit [Bus M] [WordBus M] in
/-- The handlers go on in supervisor state with room for their frame. -/
theorem ends_supervise {α : Type} {size : Uint32} {next : Method S M α}
    {context after : Context S M} {outcome : Except Raised α} :
    Ends (do setSupervisorState true; lowerStack size; next) context outcome after ↔
      Ends next (context.supervise size) outcome after := by
  rw [setSupervisorState, ends_after_update, lowerStack, ends_after_update]
  rfl

/-- The frame of six bytes is pushed in supervisor state. -/
theorem returns_pushFrame {pc : Uint32} {context after : Context S M} {done : Unit} :
    Returns (pushFrame pc) context done after ↔
      ∃ memory, Pushes context.mem context.supervisorStack
          [.long pc, .word (Status.sr context.status)] memory ∧
        after = { context.supervise 6 with mem := memory } := by
  have high : (context.supervise 6).a7 + 2 = context.supervisorStack - 4#32 := by
    change context.supervisorStack - 6 + 2 = _
    bv_omega
  have low : (context.supervise 6).a7 + 0 = context.supervisorStack - 4#32 - 2#32 := by
    change context.supervisorStack - 6 + 0 = _
    bv_omega
  rw [pushFrame, Returns, ends_after_state, ends_supervise, ends_after_state, high, low]
  change Returns (access _ >>= fun _ => access _) _ _ _ ↔ _
  simp only [returns_bind, returns_access, Pushes]
  constructor
  · rintro ⟨_, _, ⟨first, saved, rfl⟩, last, lowered, rfl⟩
    exact ⟨last, ⟨first, saved, last, lowered, rfl⟩, rfl⟩
  · rintro ⟨memory, ⟨first, saved, last, lowered, rfl⟩, rfl⟩
    exact ⟨(), _, ⟨first, saved, rfl⟩, memory, lowered, rfl⟩

/-- After its frame an illegal instruction is followed by a call with a vector's address. -/
theorem returns_serve {pc vector next : Uint32} {context after : Context S M} :
    Returns (do pushFrame pc; let pc ← get32 vector; pure (.again pc) : Method S M (Turn Uint32 Unit))
        context (.again next) after ↔
      ∃ memory, Pushes context.mem context.supervisorStack
          [.long pc, .word (Status.sr context.status)] memory ∧
        Bus.get32 memory vector = .ok next ∧ after = { context.supervise 6 with mem := memory } := by
  simp only [returns_bind, returns_pushFrame, returns_get32, returns_pure, Turn.again.injEq]
  constructor
  · rintro ⟨_, _, ⟨memory, pushed, rfl⟩, _, _, ⟨read, rfl⟩, rfl, rfl⟩
    exact ⟨memory, pushed, read, rfl⟩
  · rintro ⟨memory, pushed, read, rfl⟩
    exact ⟨(), _, ⟨memory, pushed, rfl⟩, next, _, ⟨read, rfl⟩, rfl, rfl⟩

omit [Status S] [WordBus M] in
/-- The illegal instructions that are served, and how. -/
theorem service_illegalInstruction {pc : Uint32} {context : Context S M} {asked : Service}
    (served : service context (.illegalInstruction pc) = some asked) :
    ∃ op, Bus.get16 context.mem pc = .ok op ∧
      (op &&& 0xf000 = 0xf000 ∧ asked = ⟨11, pc, 6⟩ ∨
        ¬ op &&& 0xf000 = 0xf000 ∧ op &&& 0xfff0 = 0x4e40 ∧
          asked = ⟨32 + (op &&& 0xf), pc + 2, 6⟩) := by
  cases read : Bus.get16 context.mem pc with
  | error failure => simp only [service, read, reduceCtorEq] at served
  | ok op =>
    simp only [service, read] at served
    refine ⟨op, rfl, ?_⟩
    by_cases fLine : op &&& 0xf000 = 0xf000
    · rw [if_pos fLine] at served
      exact Or.inl ⟨fLine, (Option.some.inj served).symm⟩
    · rw [if_neg fLine] at served
      by_cases trap : op &&& 0xfff0 = 0x4e40
      · rw [if_pos trap] at served
        exact Or.inr ⟨fLine, trap, (Option.some.inj served).symm⟩
      · rw [if_neg trap] at served
        cases served

omit [Status S] [WordBus M] in
/-- The memory exceptions that are served, and how. -/
theorem service_memory {failure : MemoryException} {context : Context S M} {asked : Service}
    (served : service context (.memory failure) = some asked) :
    ∃ addr, Bus.get32 context.mem (failure.vecno * 4) = .ok addr ∧
      addr ≠ failure.vecno * 4 + 0xfe0000 ∧ asked = ⟨failure.vecno, context.pc, 14⟩ := by
  cases read : Bus.get32 context.mem (failure.vecno * 4) with
  | error refusal => simp only [service, read, reduceCtorEq] at served
  | ok addr =>
    simp only [service, read] at served
    by_cases default : addr = 0xfe0000 + failure.vecno * 4
    · rw [if_pos default] at served
      cases served
    · rw [if_neg default] at served
      rw [BitVec.add_comm] at default
      exact ⟨addr, rfl, default, (Option.some.inj served).symm⟩

/-- A served illegal instruction is followed by a call with the address in its vector. -/
theorem returns_catchIllegalInstruction {pc next : Uint32} {context after : Context S M}
    {asked : Service} (served : service context (.illegalInstruction pc) = some asked) :
    Returns (catchIllegalInstruction pc) context (.again next) after ↔
      ∃ memory, Pushes context.mem context.supervisorStack
          [.long asked.pc, .word (Status.sr context.status)] memory ∧
        Bus.get32 memory (asked.vector * 4) = .ok next ∧
          after = { context.supervise 6 with mem := memory } := by
  obtain ⟨op, read, kind⟩ := service_illegalInstruction served
  rw [catchIllegalInstruction, Returns, ends_after (returns_get16.mpr ⟨read, rfl⟩)]
  rcases kind with ⟨fLine, rfl⟩ | ⟨fLine, trap, rfl⟩
  · rw [if_pos fLine]
    exact returns_serve
  · rw [if_neg fLine, if_pos trap, BitVec.add_comm (op &&& 0xf)]
    exact returns_serve

omit [Bus M] [WordBus M] in
/-- The fields of the frame of fourteen bytes lie where five pushes put them. -/
theorem supervise_fields (context : Context S M) :
    (context.supervise 14).a7 + 10 = context.supervisorStack - 4#32 ∧
      (context.supervise 14).a7 + 8 = context.supervisorStack - 4#32 - 2#32 ∧
        (context.supervise 14).a7 + 6 = context.supervisorStack - 4#32 - 2#32 - 2#32 ∧
          (context.supervise 14).a7 + 2 = context.supervisorStack - 4#32 - 2#32 - 2#32 - 4#32 ∧
            (context.supervise 14).a7 + 0 =
              context.supervisorStack - 4#32 - 2#32 - 2#32 - 4#32 - 2#32 := by
  have lowered : (context.supervise 14).a7 = context.supervisorStack - 14 := rfl
  rw [lowered]
  bv_omega

/-- A served memory exception is followed by a call with the program counter of the last one. -/
theorem returns_catchMemoryException {pc next : Uint32} {failure : MemoryException}
    {context after : Context S M} {asked : Service}
    (served : service context (.memory failure) = some asked) :
    Returns (catchMemoryException pc failure) context (.again next) after ↔
      ∃ addr op first memory, Bus.get32 context.mem (failure.vecno * 4) = .ok addr ∧
        Pushes context.mem context.supervisorStack
          [.long asked.pc, .word (Status.sr context.status)] first ∧
        Bus.get16 first context.pc = .ok op ∧
        Pushes first (context.supervisorStack - 4#32 - 2#32)
          [.word op, .long failure.address, .word failure.status] memory ∧
        next = pc ∧ after = { context.supervise 14 with mem := memory, pc := addr } := by
  obtain ⟨addr, read, changed, rfl⟩ := service_memory served
  obtain ⟨saved, status, instruction, address, last⟩ := supervise_fields context
  rw [catchMemoryException, Returns, ends_after (returns_get32.mpr ⟨read, rfl⟩), if_pos changed,
    ends_after_state, ends_supervise, ends_after_state]
  simp only [saved, status, instruction, address, last]
  change Returns _ _ _ _ ↔ _
  simp only [put32, put16, returns_bind, returns_access, returns_get16, returns_update, returns_pure,
    Turn.again.injEq, Pushes]
  constructor
  · rintro ⟨_, _, ⟨one, pcSaved, rfl⟩, _, _, ⟨two, srSaved, rfl⟩, op, _, ⟨fetched, rfl⟩,
      _, _, ⟨three, opSaved, rfl⟩, _, _, ⟨four, addressSaved, rfl⟩, _, _, ⟨five, statusSaved, rfl⟩,
      _, _, rfl, rfl, rfl⟩
    exact ⟨addr, op, _, _, read, ⟨one, pcSaved, _, srSaved, rfl⟩, fetched,
      ⟨three, opSaved, four, addressSaved, _, statusSaved, rfl⟩, rfl, rfl⟩
  · rintro ⟨found, op, _, _, again, ⟨one, pcSaved, two, srSaved, rfl⟩, fetched,
      ⟨three, opSaved, four, addressSaved, five, statusSaved, rfl⟩, rfl, rfl⟩
    obtain rfl := Except.ok.inj (read.symm.trans again)
    exact ⟨(), _, ⟨one, pcSaved, rfl⟩, (), _, ⟨_, srSaved, rfl⟩, op, _, ⟨fetched, rfl⟩,
      (), _, ⟨three, opSaved, rfl⟩, (), _, ⟨four, addressSaved, rfl⟩, (), _, ⟨_, statusSaved, rfl⟩,
      (), _, rfl, rfl, rfl⟩

/-- After an exception the next call is what the handler of the exception arranges. -/
theorem nextCall_iff {machine : Machine S M} {pc next : Uint32} {entered context after : Context S M}
    {raised : Raised} (interrupted : Raises (machine.run pc) entered raised context) :
    machine.NextCall pc entered next after ↔
      match raised with
      | .illegalInstruction pc => Returns (catchIllegalInstruction pc) context (.again next) after
      | .memory failure => Returns (catchMemoryException pc failure) context (.again next) after
      | _ => False := by
  rw [Machine.NextCall, Machine.rerun, Returns, ends_after (returns_attempt.mpr interrupted)]
  cases raised with
  | illegalInstruction pc => exact Iff.rfl
  | memory failure => exact Iff.rfl
  | thrown failure => exact iff_of_false not_returns_raise id
  | rangeError what => exact iff_of_false not_returns_raise id
  | aborted => exact iff_of_false not_returns_raise id
  | nullDisk => exact iff_of_false not_returns_raise id

/-- A push that starts with a program counter and the status register is the frame of a service,
and it is stored so in main memory. -/
theorem framed {context after : Context S M} {asked : Service} {below : List Field}
    (size : width below + 6 = asked.size)
    (lowered : after.a7 = context.supervisorStack - BitVec.ofNat 32 asked.size)
    (pushed : Pushes context.mem context.supervisorStack
      (.long asked.pc :: .word (Status.sr context.status) :: below) after.mem) :
    Framed context asked after := by
  refine ⟨below, size, pushed, ?_⟩
  intro even room inside
  have total : width (.long asked.pc :: .word (Status.sr context.status) :: below) = asked.size := by
    rw [← size]
    simp only [width, Field.width]
  obtain ⟨memory, stores, stored⟩ := pushes_stored _ context.mem context.supervisorStack even
    (by rwa [total]) inside
  obtain rfl := pushes_unique pushed stores
  have bound := context.supervisorStack.isLt
  have base : after.a7.toNat = context.supervisorStack.toNat - asked.size := by
    rw [lowered]
    bv_omega
  rw [stored.byte, total, base]
  simp only [image, Field.bytes]

/-- After a served illegal instruction the next call starts at its vector. -/
theorem resumed_illegalInstruction {pc next : Uint32} {context after : Context S M} {asked : Service}
    (served : service context (.illegalInstruction pc) = some asked)
    (caught : Returns (catchIllegalInstruction pc) context (.again next) after) :
    Resumed context (.illegalInstruction pc) asked next after := by
  obtain ⟨memory, pushed, read, rfl⟩ := (returns_catchIllegalInstruction served).mp caught
  have size : asked.size = 6 := by
    obtain ⟨op, -, ⟨-, rfl⟩ | ⟨-, -, rfl⟩⟩ := service_illegalInstruction served
    · rfl
    · rfl
  have lowered : (context.supervise 6).a7 =
      context.supervisorStack - BitVec.ofNat 32 asked.size := by
    rw [size]
    rfl
  have empty : width [] + 6 = asked.size := size.symm
  exact ⟨Status.supervisorState_set _ _ _, lowered, framed empty lowered pushed, read⟩

/-- After a served memory exception the frame is in place, and the next call starts at the vector
exactly when the last one did. -/
theorem resumed_memory {pc next : Uint32} {failure : MemoryException} {context after : Context S M}
    {asked : Service} (served : service context (.memory failure) = some asked)
    (caught : Returns (catchMemoryException pc failure) context (.again next) after) :
    Resumed context (.memory failure) asked next after ↔
      Bus.get32 context.mem (failure.vecno * 4) = .ok pc := by
  obtain ⟨addr, op, first, memory, read, ⟨one, pcSaved, two, srSaved, rfl⟩, fetched, rest, rfl, rfl⟩ :=
    (returns_catchMemoryException served).mp caught
  obtain ⟨_, -, -, rfl⟩ := service_memory served
  constructor
  · intro resumed
    exact resumed.start
  · intro begun
    exact ⟨Status.supervisorState_set _ _ _, rfl, framed rfl rfl ⟨one, pcSaved, _, srSaved, rest⟩,
      begun⟩

omit [WordBus M] in
/-- A vector in main memory is read. -/
theorem get32_vector (memory : M) (vector : Uint32)
    (inside : (vector * 4).toNat + 4 ≤ Bus.size memory) :
    ∃ addr, Bus.get32 memory (vector * 4) = .ok addr := by
  have aligned : (vector * 4).toNat % 4 = 0 := by
    rw [BitVec.toNat_mul, show (4 : Uint32).toNat = 4 from rfl]
    omega
  exact ⟨_, Bus.get32_main memory _ aligned inside⟩

/-- An illegal instruction that is served by accesses to main memory is followed by a call. -/
theorem catchIllegalInstruction_again {pc : Uint32} {context : Context S M} {asked : Service}
    (served : service context (.illegalInstruction pc) = some asked)
    (accessible : Accessible context asked) :
    ∃ next after, Returns (catchIllegalInstruction pc) context (.again next) after := by
  have size : asked.size = 6 := by
    obtain ⟨op, -, ⟨-, rfl⟩ | ⟨-, -, rfl⟩⟩ := service_illegalInstruction served
    · rfl
    · rfl
  have room := accessible.room
  rw [size] at room
  obtain ⟨memory, pushed, stored⟩ := pushes_stored
    [.long asked.pc, .word (Status.sr context.status)] context.mem context.supervisorStack
    accessible.even room accessible.inside
  obtain ⟨next, read⟩ := get32_vector memory asked.vector (by rw [stored.size]; exact accessible.vector)
  exact ⟨next, _, (returns_catchIllegalInstruction served).mpr ⟨memory, pushed, read, rfl⟩⟩

/-- A memory exception that is served by accesses to main memory is followed by a call. -/
theorem catchMemoryException_again (pc : Uint32) {failure : MemoryException} {context : Context S M}
    {asked : Service} (served : service context (.memory failure) = some asked)
    (accessible : Accessible context asked) :
    ∃ next after, Returns (catchMemoryException pc failure) context (.again next) after := by
  obtain ⟨addr, read, -, rfl⟩ := service_memory served
  have even := accessible.even
  have room : 14 ≤ context.supervisorStack.toNat := accessible.room
  have inside := accessible.inside
  obtain ⟨pcEven, pcInside⟩ := accessible.instruction rfl
  obtain ⟨first, pushed, stored⟩ := pushes_stored
    [.long context.pc, .word (Status.sr context.status)] context.mem context.supervisorStack
    even (by simp only [width, Field.width]; omega) inside
  have fetched := WordBus.get16_even first context.pc pcEven (by rw [stored.size]; exact pcInside)
  have lowered : (context.supervisorStack - 4#32 - 2#32).toNat =
      context.supervisorStack.toNat - 6 := by bv_omega
  obtain ⟨memory, rest, -⟩ := pushes_stored
    [.word _, .long failure.address, .word failure.status] first
    (context.supervisorStack - 4#32 - 2#32) (by omega)
    (by simp only [width, Field.width]; omega) (by rw [stored.size]; omega)
  exact ⟨pc, _, (returns_catchMemoryException served).mpr
    ⟨addr, _, first, memory, read, pushed, fetched, rest, rfl, rfl⟩⟩

/-- An exception that is served by accesses to main memory is followed by a call. -/
theorem nextCall_exists {machine : Machine S M} {pc : Uint32} {entered context : Context S M}
    {raised : Raised} {asked : Service} (interrupted : Raises (machine.run pc) entered raised context)
    (served : service context raised = some asked) (accessible : Accessible context asked) :
    ∃ next after, machine.NextCall pc entered next after := by
  simp only [nextCall_iff interrupted]
  cases raised with
  | illegalInstruction at_ => exact catchIllegalInstruction_again served accessible
  | memory failure => exact catchMemoryException_again pc served accessible
  | thrown failure => cases served
  | rangeError what => cases served
  | aborted => cases served
  | nullDisk => cases served

/-- A served exception is followed by a call in supervisor state, with a frame, at its vector,
exactly when it is not a bus or address error or the last call had begun at that vector. -/
theorem boot_resumes_iff (machine : Machine S M) {initial entered context : Context S M}
    {pc : Uint32} {raised : Raised} {asked : Service} (called : machine.Calls initial pc entered)
    (interrupted : Raises (machine.run pc) entered raised context)
    (served : service context raised = some asked) :
    (Accessible context asked → ∃ next after, machine.NextCall pc entered next after) ∧
      ∀ next after, machine.NextCall pc entered next after →
        machine.Calls initial next after ∧
          (Resumed context raised asked next after ↔ BegunAtVector pc context raised) := by
  refine ⟨nextCall_exists interrupted served, ?_⟩
  intro next after following
  obtain ⟨st, loaded, disk, ready, turns⟩ := called
  refine ⟨⟨st, loaded, disk, ready, .next turns following⟩, ?_⟩
  have caught := (nextCall_iff interrupted).mp following
  cases raised with
  | illegalInstruction at_ => exact iff_of_true (resumed_illegalInstruction served caught) trivial
  | memory failure => exact resumed_memory served caught
  | thrown failure => exact caught.elim
  | rangeError what => exact caught.elim
  | aborted => exact caught.elim
  | nullDisk => exact caught.elim

/-- The handler of a memory exception only ever asks for the call it came from. -/
theorem catchMemoryException_turn {pc : Uint32} {failure : MemoryException} {turn : Turn Uint32 Unit}
    {context after : Context S M}
    (caught : Returns (catchMemoryException pc failure) context turn after) : turn = .again pc := by
  simp only [catchMemoryException, returns_bind] at caught
  obtain ⟨addr, middle, -, rest⟩ := caught
  by_cases changed : addr ≠ failure.vecno * 4 + 0xfe0000
  · rw [if_pos changed] at rest
    simp only [returns_bind, returns_pure] at rest
    obtain ⟨_, _, -, _, _, -, _, _, -, _, _, -, _, _, -, _, _, -, _, _, -, _, _, -, _, _, -, _, _, -,
      _, _, -, rfl, -⟩ := rest
    rfl
  · rw [if_neg changed] at rest
    exact absurd rest not_returns_raise

/-- The handler of an illegal instruction asks for another call. -/
theorem catchIllegalInstruction_turn {pc : Uint32} {turn : Turn Uint32 Unit}
    {context after : Context S M}
    (caught : Returns (catchIllegalInstruction pc) context turn after) :
    ∃ next, turn = .again next := by
  simp only [catchIllegalInstruction, returns_bind] at caught
  obtain ⟨op, middle, -, rest⟩ := caught
  split at rest
  · simp only [returns_bind, returns_pure] at rest
    obtain ⟨_, _, -, next, _, -, rfl, -⟩ := rest
    exact ⟨next, rfl⟩
  · split at rest
    · simp only [returns_bind, returns_pure] at rest
      obtain ⟨_, _, -, next, _, -, rfl, -⟩ := rest
      exact ⟨next, rfl⟩
    · exact absurd rest not_returns_raise

/-- A turn leaves exactly when its call of the processor returns. -/
theorem rerun_leave {machine : Machine S M} {pc : Uint32} {entered after : Context S M} :
    Returns (machine.rerun pc) entered (.leave ()) after ↔
      ∃ last, Returns (machine.run pc) entered last after := by
  rw [Machine.rerun, returns_bind]
  simp only [returns_attempt]
  constructor
  · rintro ⟨outcome, middle, ended, rest⟩
    cases outcome with
    | ok last =>
      obtain ⟨-, rfl⟩ := returns_pure.mp rest
      exact ⟨last, ended⟩
    | error raised =>
      cases raised with
      | illegalInstruction at_ =>
        obtain ⟨next, leaves⟩ := catchIllegalInstruction_turn rest
        cases leaves
      | memory failure => cases catchMemoryException_turn rest
      | thrown failure => exact absurd rest not_returns_raise
      | rangeError what => exact absurd rest not_returns_raise
      | aborted => exact absurd rest not_returns_raise
      | nullDisk => exact absurd rest not_returns_raise
  · rintro ⟨last, ended⟩
    exact ⟨.ok last, after, ended, returns_pure.mpr ⟨rfl, rfl⟩⟩

omit [Status S] [Bus M] [WordBus M] in
/-- The boot sector is read from the disk of unit zero. -/
theorem readDisk_boot {machine : Machine S M} {read : DiskRead M} (inserted : machine.fd 0 = some read)
    (pos buf nbytes : Uint32) :
    machine.readDisk 0x9070 pos buf nbytes =
      .zoom Context.mem (fun mem context => { context with mem := mem })
        (read 0x9070 pos buf nbytes) := by
  have unit : (0x9070 : Uint32) >>> 8 &&& 0xf = 0 := by decide
  rw [Machine.readDisk, if_pos (by decide), unit, if_neg (by decide)]
  simp only [inserted]

/-- A run of `boot` returns exactly when one of its calls of the processor does. -/
theorem boot_returns_iff (machine : Machine S M) (initial after : Context S M) :
    Returns machine.boot initial () after ↔
      ∃ pc entered last, machine.Calls initial pc entered ∧
        Returns (machine.run pc) entered last after := by
  rw [Machine.boot, returns_bind]
  constructor
  · rintro ⟨st, loaded, disk, rest⟩
    by_cases ready : st.sshiftRight 24 &&& 0xc0 = 0
    · rw [if_neg (not_not.mpr ready)] at rest
      obtain ⟨pc, entered, turns, left⟩ := ends_last_turn rest
      obtain ⟨last, returned⟩ := rerun_leave.mp left
      exact ⟨pc, entered, last, ⟨st, loaded, disk, ready, turns⟩, returned⟩
    · rw [if_pos ready] at rest
      exact absurd rest not_returns_raise
  · rintro ⟨pc, entered, last, ⟨st, loaded, disk, ready, turns⟩, returned⟩
    refine ⟨st, loaded, disk, ?_⟩
    rw [if_neg (not_not.mpr ready)]
    exact (ends_turns turns).mpr (loop_leaves (rerun_leave.mpr ⟨last, returned⟩))

/-- While only bus and address errors are raised, every call starts at 0x2000. -/
theorem calls_same (machine : Machine S M) {initial entered : Context S M} {pc : Uint32}
    (only : ∀ pc entered raised context, Raises (machine.run pc) entered raised context →
      ∃ failure, raised = .memory failure)
    (called : machine.Calls initial pc entered) : pc = 0x2000 := by
  obtain ⟨st, loaded, -, -, turns⟩ := called
  induction turns with
  | first => rfl
  | next _ turn inductionHypothesis =>
    rw [Machine.rerun, returns_bind] at turn
    obtain ⟨outcome, middle, ended, rest⟩ := turn
    cases outcome with
    | ok last => cases (returns_pure.mp rest).1
    | error raised =>
      obtain ⟨failure, rfl⟩ := only _ _ _ _ (returns_attempt.mp ended)
      cases catchMemoryException_turn rest
      exact inductionHypothesis

/-- The status register and the stack pointer that is not in A7. -/
structure SystemStatus where
  sr : Uint32
  otherStack : Uint32

/-- The status register with bit 13 for the supervisor state, and the stack pointer that is not
in use. -/
instance : Status SystemStatus where
  sr := SystemStatus.sr
  supervisorState status := status.sr.getLsbD 13
  setSupervisorState on a7 status :=
    if status.sr.getLsbD 13 = on then (a7, status)
    else (status.otherStack, ⟨status.sr ^^^ 0x2000, a7⟩)
  supervisorState_set on a7 status := by
    by_cases same : status.sr.getLsbD 13 = on
    · rw [if_pos same]
      exact same
    · rw [if_neg same, BitVec.getLsbD_xor, show (0x2000 : Uint32).getLsbD 13 = true from rfl,
        Bool.xor_true]
      exact Bool.not_eq.mpr same

/-- A first sector with `TST.W $00EC0000`, which accesses an address without memory. -/
def sector : List Byte := [0x4a, 0x79, 0x00, 0xec, 0x00, 0x00] ++ List.replicate 1018 0

/-- The bus error of that instruction. -/
def busError : MemoryException := ⟨2, 0x00ec0000, 0x15⟩

/-- Read this sector. -/
def loadSector (buf : Uint32) : Program Raised MainMemory.ByteMemory Uint32 :=
  .atomic fun memory =>
    let ending := Bus.write buf sector memory
    ((ending.1.mapError .thrown).map fun _ => 0, ending.2)

/-- A machine with this sector on its disks, where the instruction is executed. -/
def tester : Machine SystemStatus MainMemory.ByteMemory where
  fd _ := some fun _ _ buf _ => loadSector buf
  run pc := .atomic fun context => (.error (.memory busError), { context with pc := pc })

/-- A context in supervisor state whose bus error vector has the address of a handler. -/
def withHandler (handler : Uint32) : Context SystemStatus MainMemory.ByteMemory where
  mem := ⟨0x100000, 0, lay (fun _ => 0) 8 (encode 4 handler.toNat)⟩
  a7 := 0x2000
  pc := 0
  status := ⟨0x2700, 0⟩

/-- The first call is with the sector in memory and the vector as it was. -/
theorem first_call (handler : Uint32) : ∃ memory : MainMemory.ByteMemory,
    tester.Calls (withHandler handler) 0x2000 { withHandler handler with mem := memory } ∧
      Bus.size memory = 0x100000 ∧ Bus.get32 memory (2 * 4) = .ok handler := by
  have extent : Bus.size (withHandler handler).mem = 0x100000 := rfl
  have length : sector.length = 1024 := by
    rw [sector, List.length_append, List.length_replicate]
    rfl
  obtain ⟨memory, written, size, byte⟩ := Bus.write_main 0x2000 sector (withHandler handler).mem
    (by rw [extent, length]; decide)
  have loaded : Returns (tester.readDisk 0x9070 0x03000001 0x2000 1024) (withHandler handler) 0
      { withHandler handler with mem := memory } := by
    have inserted : tester.fd 0 = some fun _ _ buf _ => loadSector buf := rfl
    rw [readDisk_boot inserted]
    exact returns_zoom.mpr ⟨memory, returns_atomic.mpr (by rw [written]; rfl), rfl⟩
  refine ⟨memory, ⟨0, _, loaded, by decide, .first⟩, size.trans extent, ?_⟩
  rw [Bus.get32_main memory (2 * 4) (by decide) (by rw [size, extent]; decide), byte]
  have kept : slice (lay (Bus.byte (withHandler handler).mem) 0x2000 sector) 8 4 =
      slice (lay (fun _ => 0) 8 (encode 4 handler.toNat)) 8 4 :=
    slice_lay_disjoint _ _ _ _ _ (Or.inl (by decide))
  change Except.ok (BitVec.ofNat 32 (decode
    (slice (lay (Bus.byte (withHandler handler).mem) 0x2000 sector) 8 4))) = _
  rw [kept, decode_lay_encode, Nat.mod_eq_of_lt (by exact handler.isLt), BitVec.ofNat_toNat,
    BitVec.setWidth_eq]

/-- Every call of the processor ends with the bus error. -/
theorem tester_raises (pc : Uint32) (entered : Context SystemStatus MainMemory.ByteMemory) :
    Raises (tester.run pc) entered (.memory busError) { entered with pc := pc } :=
  raises_atomic.mpr rfl

/-- The bus error is served where the vector has been changed. -/
theorem busError_served {memory : MainMemory.ByteMemory} {handler : Uint32}
    (read : Bus.get32 memory (2 * 4) = .ok handler) (changed : handler ≠ 0xfe0008) :
    service { withHandler handler with mem := memory, pc := 0x2000 } (.memory busError) =
      some ⟨2, 0x2000, 14⟩ := by
  have found : Bus.get32 memory (busError.vecno * 4) = .ok handler := read
  simp only [service, found]
  exact if_neg changed

/-- The frame and the vector of the bus error lie in main memory. -/
theorem busError_accessible {memory : MainMemory.ByteMemory} (handler : Uint32)
    (size : Bus.size memory = 0x100000) :
    Accessible { withHandler handler with mem := memory, pc := 0x2000 } ⟨2, 0x2000, 14⟩ := by
  have stack : Context.supervisorStack
      { withHandler handler with mem := memory, pc := 0x2000 } = 0x2000 := by
    have supervisor : (0x2700 : Uint32).getLsbD 13 = true := by decide
    exact congrArg Prod.fst (if_pos supervisor)
  constructor
  · rw [stack]
    decide
  · rw [stack]
    decide
  · rw [stack, size]
    decide
  · rw [size]
    decide
  · intro _
    rw [size]
    change (0x2000 : Uint32).toNat % 2 = 0 ∧ (0x2000 : Uint32).toNat + 2 ≤ 0x100000
    decide

/-- A bus error whose handler is the boot sector itself is resumed there. -/
theorem boot_resumes_iff_bus_error : ∃ (context : Context SystemStatus MainMemory.ByteMemory)
    (next : Uint32) (after : Context SystemStatus MainMemory.ByteMemory),
    tester.Calls (withHandler 0x2000) next after ∧
      Resumed context (.memory busError) ⟨2, 0x2000, 14⟩ next after := by
  obtain ⟨memory, called, size, read⟩ := first_call 0x2000
  have served := busError_served read (by decide)
  obtain ⟨exists_next, resumes⟩ := boot_resumes_iff tester called (tester_raises _ _) served
  obtain ⟨next, after, following⟩ := exists_next (busError_accessible 0x2000 size)
  obtain ⟨calls, resumed⟩ := resumes next after following
  exact ⟨_, next, after, calls, resumed.mpr read⟩

/-- A bus error whose vector has the address 0x4000 is followed by a call at 0x2000. -/
theorem bus_error_restarts : ∃ entered context after : Context SystemStatus MainMemory.ByteMemory,
    tester.Calls (withHandler 0x4000) 0x2000 entered ∧
      Raises (tester.run 0x2000) entered (.memory busError) context ∧
      service context (.memory busError) = some ⟨2, 0x2000, 14⟩ ∧
      Bus.get32 context.mem (2 * 4) = .ok 0x4000 ∧ tester.NextCall 0x2000 entered 0x2000 after ∧
      ¬ Resumed context (.memory busError) ⟨2, 0x2000, 14⟩ 0x2000 after := by
  obtain ⟨memory, called, size, read⟩ := first_call 0x4000
  have served := busError_served read (by decide)
  have raises := tester_raises 0x2000 { withHandler 0x4000 with mem := memory }
  obtain ⟨next, after, following⟩ :=
    nextCall_exists raises served (busError_accessible 0x4000 size)
  have caught := (nextCall_iff raises).mp following
  cases catchMemoryException_turn caught
  refine ⟨_, _, after, called, raises, served, read, following, ?_⟩
  intro resumed
  have same := (resumed_memory served caught).mp resumed
  exact absurd (Except.ok.inj (read.symm.trans same)) (by decide)

end Vx68k.Boot
