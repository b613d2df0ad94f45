import Mathlib.Data.Fin.VecNotation
import Vx68k.Boot
import Vx68k.DosContext
import Vx68k.Exchanges

/-!
# The system ROM

The ROM fills the vectors with addresses of its own, and recognizes by them what the guest
has not changed. A guest changes a vector with `_B_INTVCS`, which answers the address that
was there; a hook goes on to it when it is done with its own work.

`TRAP #15` calls the function whose number is in D0. If its vector has been changed the hook
there is entered, with a frame on the stack and the address of an `RTE` in the ROM above it.
The ROM's own address of a function has an instruction that calls the function and returns to
the address on the stack.

What the functions do, apart from `_B_INTVCS`, is a parameter here. The processor is not part
of this repository: which instruction it executes next, and the hooks, are left open.
-/

namespace Vx68k.SystemRom

open Programs ByteStores ExceptionFrames Exchanges

/-- A `context` with its data registers and the address registers below A7. -/
structure Context (S M : Type) extends Boot.Context S M where
  d : Fin 8 → Uint32
  a : Fin 7 → Uint32

/-- A member function of the ROM or a function of the guest's. -/
abbrev Method (S M α : Type) := Program Boot.Raised (Context S M) α

/-- An `iocs_call_type` with its data. -/
abbrev IocsCall (S M : Type) := Method S M Unit

/-- The functions of the IOCS calls. -/
structure Rom (S M : Type) where
  iocsCalls : Vector (IocsCall S M) 0x100

/-- A word of the ROM. -/
def get16 (address : Uint32) : Uint32 :=
  if 0xfe0400 ≤ address ∧ address < 0xfe0800 then 0xf84f else 0x4e73

section Initialize

variable {M : Type} [Bus M]

/-- A turn of the loop over the vectors. -/
def fillVector : Uint32 × Uint32 → Program Thrown M (Turn (Uint32 × Uint32) Unit)
  | (i, f) =>
    if i = 0x800 then pure (.leave ())
    else do
      .atomic (Bus.put32 i f)
      pure (.again (i + 4, f + 4))

/-- A turn of the loop over the rest of the page. -/
def clearWord (i : Uint32) : Program Thrown M (Turn Uint32 Unit) :=
  if i = 0x1000 then pure (.leave ())
  else do
    .atomic (Bus.put32 i 0)
    pure (.again (i + 4))

/-- Fill the vectors with addresses in the ROM, and clear what is between them and the next
page. -/
def initializeRom : Program Thrown M Unit := do
  .loop fillVector (0, 0xfe0000)
  .loop clearWord 0x800

/-- The vector of a number in memory. -/
def vector (memory : M) (number : Fin 0x200) : Uint32 :=
  Bus.word memory (BitVec.ofNat 32 (number * 4))

/-- The ROM's own address for a vector. -/
def romAddress (number : Fin 0x200) : Uint32 := 0xfe0000 + BitVec.ofNat 32 (number * 4)

/-- The long words of a run have been set, and nothing else. -/
structure Filled (memory : M) (start stop : Nat) (value : Uint32 → Uint32) (after : M) : Prop where
  size : Bus.size after = Bus.size memory
  words : ∀ address : Uint32, address.toNat % 4 = 0 → start ≤ address.toNat → address.toNat < stop →
    Bus.word after address = value address
  outside : ∀ index, index < start ∨ stop ≤ index → Bus.byte after index = Bus.byte memory index

/-- Nothing has been filled. -/
theorem filled_nothing {memory : M} {bound : Nat} {value : Uint32 → Uint32} :
    Filled memory bound bound value memory :=
  ⟨rfl, fun _ _ low high => absurd high (Nat.not_lt.mpr low), fun _ _ => rfl⟩

/-- The first word and then the others. -/
theorem filled_cons {memory middle after : M} {value : Uint32 → Uint32} {address : Uint32} {stop : Nat}
    (aligned : address.toNat % 4 = 0) (inside : address.toNat + 4 ≤ stop)
    (size : Bus.size middle = Bus.size memory) (word : Bus.word middle address = value address)
    (kept : ∀ index, index < address.toNat ∨ address.toNat + 4 ≤ index →
      Bus.byte middle index = Bus.byte memory index)
    (filled : Filled middle (address.toNat + 4) stop value after) :
    Filled memory address.toNat stop value after := by
  refine ⟨filled.size.trans size, fun other otherAligned low high => ?_, fun index apart => ?_⟩
  · by_cases same : other = address
    · subst same
      rw [← word]
      exact Bus.word_congr _ _ _ fun index _ below => filled.outside index (Or.inl below)
    · have apart : other.toNat ≠ address.toNat := fun equal => same (BitVec.eq_of_toNat_eq equal)
      exact filled.words other otherAligned (by omega) high
  · rw [filled.outside index (by omega), kept index (by omega)]

/-- The loop over the vectors.

Proof: by induction on the number of vectors that are left. -/
theorem returns_vectors {left : Nat} {i : Uint32} (memory : M) (here : i.toNat + 4 * left = 0x800)
    (room : 0x800 ≤ Bus.size memory) :
    ∃ after, Returns (Program.loop fillVector (i, 0xfe0000 + i)) memory () after ∧
      Filled memory i.toNat 0x800 (0xfe0000 + ·) after := by
  induction left generalizing i memory with
  | zero =>
    obtain rfl : i = 0x800 := BitVec.eq_of_toNat_eq here
    exact ⟨memory, loop_leaves (returns_pure.mpr ⟨rfl, rfl⟩), filled_nothing⟩
  | succ left inductionHypothesis =>
    have more : i ≠ 0x800 := by bv_omega
    have next : (i + 4).toNat = i.toNat + 4 := by bv_omega
    obtain ⟨middle, put, size, word, -, kept⟩ :=
      Bus.put32_spec i (0xfe0000 + i) memory (by omega) (by omega)
    obtain ⟨after, returned, filled⟩ := inductionHypothesis (i := i + 4) middle (by omega) (by omega)
    rw [next] at filled
    refine ⟨after, (returns_loop_after ?_).mpr returned, filled_cons (by omega) (by omega) size word
      kept filled⟩
    rw [fillVector, if_neg more]
    refine returns_bind.mpr ⟨(), middle, returns_atomic.mpr put, returns_pure.mpr ⟨?_, rfl⟩⟩
    rw [BitVec.add_assoc]

/-- The loop over the rest of the page. -/
theorem returns_rest {left : Nat} {i : Uint32} (memory : M) (here : i.toNat + 4 * left = 0x1000)
    (room : 0x1000 ≤ Bus.size memory) :
    ∃ after, Returns (Program.loop clearWord i) memory () after ∧
      Filled memory i.toNat 0x1000 (fun _ => 0) after := by
  induction left generalizing i memory with
  | zero =>
    obtain rfl : i = 0x1000 := BitVec.eq_of_toNat_eq here
    exact ⟨memory, loop_leaves (returns_pure.mpr ⟨rfl, rfl⟩), filled_nothing⟩
  | succ left inductionHypothesis =>
    have more : i ≠ 0x1000 := by bv_omega
    have next : (i + 4).toNat = i.toNat + 4 := by bv_omega
    obtain ⟨middle, put, size, word, -, kept⟩ := Bus.put32_spec i 0 memory (by omega) (by omega)
    obtain ⟨after, returned, filled⟩ := inductionHypothesis (i := i + 4) middle (by omega) (by omega)
    rw [next] at filled
    refine ⟨after, (returns_loop_after ?_).mpr returned, filled_cons (by omega) (by omega) size word
      kept filled⟩
    rw [clearWord, if_neg more]
    exact returns_bind.mpr ⟨(), middle, returns_atomic.mpr put, returns_pure.mpr ⟨rfl, rfl⟩⟩

/-- The address of a vector does not wrap. -/
theorem number_toNat (number : Fin 0x200) : (BitVec.ofNat 32 (number * 4)).toNat = number * 4 := by
  rw [BitVec.toNat_ofNat]
  omega

/-- The first page holds the ROM's addresses and then zeros; the memory above it is as it was. -/
theorem initializeRom_returns (memory : M) (room : 0x1000 ≤ Bus.size memory) :
    ∃ after, Returns initializeRom memory () after ∧ Bus.size after = Bus.size memory ∧
      vector after = romAddress ∧
      (∀ address : Uint32, address.toNat % 4 = 0 → 0x800 ≤ address.toNat → address.toNat < 0x1000 →
        Bus.word after address = 0) ∧
      ∀ index, 0x1000 ≤ index → Bus.byte after index = Bus.byte memory index := by
  have vectorsBegin : (0 : Uint32).toNat + 4 * 0x200 = 0x800 := rfl
  have restBegins : (0x800 : Uint32).toNat + 4 * 0x200 = 0x1000 := rfl
  obtain ⟨middle, first, vectors⟩ := returns_vectors memory vectorsBegin (by omega)
  obtain ⟨after, second, rest⟩ :=
    returns_rest middle restBegins (by rw [vectors.size]; exact room)
  refine ⟨after, returns_bind.mpr ⟨(), middle, first, second⟩, rest.size.trans vectors.size, ?_,
    rest.words, fun index high => ?_⟩
  · funext number
    have small := number_toNat number
    have low : ∀ index, index < 0x800 → Bus.byte after index = Bus.byte middle index :=
      fun index inside => rest.outside index (Or.inl inside)
    rw [vector, Bus.word_congr after middle _ fun index _ inside => low index (by omega)]
    exact vectors.words _ (by omega) (Nat.zero_le _) (by omega)
  · rw [rest.outside index (Or.inr high), vectors.outside index (by omega)]

end Initialize

variable {S M : Type} [Bus M]

/-- What is done with the part of the context that the machine boots in. -/
def onBase {α : Type} (method : Boot.Method S M α) : Method S M α :=
  .zoom Context.toContext (fun base context => { context with toContext := base }) method

/-- Assign a data register. -/
def putD (index : Fin 8) (value : Uint32) : Method S M Unit :=
  .update fun context => { context with d := Function.update context.d index value }

/-- Exchange the vector in D1 with the address in A1. -/
def iocsBIntvcs : Method S M Unit := do
  let context ← .state
  let vecno := context.d 1 &&& 0xffff
  let addr := context.a 1
  if vecno > 0x1ff then pure ()
  else do
    let vecaddr := vecno * 4
    let oaddr ← onBase (Boot.get32 vecaddr)
    onBase (Boot.put32 vecaddr addr)
    putD 0 oaddr

/-- Calls of `_B_INTVCS`, and what happens between them: the guest may do anything else that
leaves the vectors alone. A call without a vector of its number exchanges nothing. -/
inductive Calls : Context S M → List (Exchange (Fin 0x200) Uint32) → Context S M → Prop
  | stop (context : Context S M) : Calls context [] context
  | intvcs {before middle after : Context S M} {number : Fin 0x200}
      {exchanges : List (Exchange (Fin 0x200) Uint32)}
      (asked : (before.d 1 &&& 0xffff).toNat = number)
      (returned : Returns iocsBIntvcs before () middle) (rest : Calls middle exchanges after) :
      Calls before (⟨number, before.a 1, middle.d 0⟩ :: exchanges) after
  | refused {before middle after : Context S M} {exchanges : List (Exchange (Fin 0x200) Uint32)}
      (asked : 0x200 ≤ (before.d 1 &&& 0xffff).toNat)
      (returned : Returns iocsBIntvcs before () middle) (rest : Calls middle exchanges after) :
      Calls before exchanges after
  | other {before middle after : Context S M} {exchanges : List (Exchange (Fin 0x200) Uint32)}
      (size : Bus.size middle.mem = Bus.size before.mem)
      (kept : vector middle.mem = vector before.mem) (rest : Calls middle exchanges after) :
      Calls before exchanges after

omit [Bus M] in
/-- A method of the context without data registers returns as it does there. -/
theorem returns_onBase {α : Type} {method : Boot.Method S M α} {context after : Context S M}
    {value : α} : Returns (onBase method) context value after ↔
      ∃ base, Returns method context.toContext value base ∧ after = { context with toContext := base } := by
  rw [onBase, returns_zoom]
  simp only [eq_comm]

/-- A vector has been exchanged with A1. -/
structure Exchanged (context : Context S M) (number : Fin 0x200) (after : Context S M) : Prop where
  size : Bus.size after.mem = Bus.size context.mem
  answer : after.d = Function.update context.d 0 (vector context.mem number)
  vectors : vector after.mem = Function.update (vector context.mem) number (context.a 1)
  outside : ∀ index : Nat, index < (number : Nat) * 4 ∨ (number : Nat) * 4 + 4 ≤ index →
    Bus.byte after.mem index = Bus.byte context.mem index
  kept : after = { context with d := after.d, mem := after.mem }

/-- `_B_INTVCS` exchanges the vector of its number. -/
theorem intvcs_exchanges {context : Context S M} {number : Fin 0x200}
    (asked : (context.d 1 &&& 0xffff).toNat = number) (room : 0x800 ≤ Bus.size context.mem) :
    ∃ after, Returns iocsBIntvcs context () after ∧ Exchanged context number after := by
  have vecaddr : (context.d 1 &&& 0xffff) * 4 = BitVec.ofNat 32 (number * 4) := by
    apply BitVec.eq_of_toNat_eq
    have four : (4 : Uint32).toNat = 4 := rfl
    rw [number_toNat, BitVec.toNat_mul, asked, four]
    omega
  have place := number_toNat number
  have small : ¬ context.d 1 &&& 0xffff > 0x1ff := by
    rw [gt_iff_lt, BitVec.lt_def, asked]
    change ¬ 0x1ff < _
    omega
  have read := Bus.get32_main context.mem (BitVec.ofNat 32 (number * 4)) (by omega) (by omega)
  obtain ⟨memory, put, size, word, others, outside⟩ :=
    Bus.put32_spec (BitVec.ofNat 32 (number * 4)) (context.a 1) context.mem (by omega) (by omega)
  refine ⟨{ context with mem := memory, d := Function.update context.d 0 _ }, ?_, size, rfl, ?_, ?_,
    rfl⟩
  · refine ends_after_state.mpr ?_
    rw [if_neg small, vecaddr]
    refine returns_bind.mpr ⟨_, _, returns_onBase.mpr ⟨_, Boot.returns_get32.mpr ⟨read, rfl⟩, rfl⟩, ?_⟩
    refine returns_bind.mpr ⟨(), _, returns_onBase.mpr ⟨_, Boot.returns_access.mpr
      ⟨memory, put, rfl⟩, rfl⟩, ?_⟩
    exact returns_update.mpr rfl
  · funext other
    by_cases same : other = number
    · subst same
      rw [Function.update_self]
      exact word
    · rw [Function.update_of_ne same]
      refine others _ ?_ ?_
      · have := number_toNat other
        omega
      · intro equal
        have := congrArg BitVec.toNat equal
        rw [number_toNat, number_toNat] at this
        exact same (Fin.ext (by omega))
  · rw [place] at outside
    exact outside

/-- A number without a vector changes nothing. -/
theorem intvcs_refuses {context : Context S M} (asked : 0x200 ≤ (context.d 1 &&& 0xffff).toNat) :
    Returns iocsBIntvcs context () context := by
  have large : context.d 1 &&& 0xffff > 0x1ff := by
    rw [gt_iff_lt, BitVec.lt_def]
    exact asked
  refine ends_after_state.mpr ?_
  rw [if_pos large]
  exact returns_pure.mpr ⟨rfl, rfl⟩

/-- The calls are exchanges in the table of vectors. -/
theorem calls_lead {before after : Context S M} {exchanges : List (Exchange (Fin 0x200) Uint32)}
    (calls : Calls before exchanges after) (room : 0x800 ≤ Bus.size before.mem) :
    Leads (vector before.mem) exchanges (vector after.mem) ∧
      Bus.size after.mem = Bus.size before.mem := by
  induction calls with
  | stop context => exact ⟨rfl, rfl⟩
  | intvcs asked returned rest inductionHypothesis =>
    obtain ⟨other, again, exchanged⟩ := intvcs_exchanges asked room
    obtain ⟨-, rfl⟩ := returns_unique returned again
    obtain ⟨leads, size⟩ := inductionHypothesis (by rw [exchanged.size]; exact room)
    refine ⟨⟨?_, ?_⟩, size.trans exchanged.size⟩
    · rw [exchanged.answer, Function.update_self]
    · rw [← exchanged.vectors]
      exact leads
  | refused asked returned rest inductionHypothesis =>
    obtain ⟨-, rfl⟩ := returns_unique returned (intvcs_refuses asked)
    exact inductionHypothesis room
  | other size kept rest inductionHypothesis =>
    obtain ⟨leads, later⟩ := inductionHypothesis (by rw [size]; exact room)
    rw [kept] at leads
    exact ⟨leads, later.trans size⟩

/-- No vector is lost. After the ROM has filled the vectors, for every run of calls of `_B_INTVCS`
in which the guest leaves the vectors alone between the calls, and for every vector, the addresses
that the calls have answered and then the one in memory are the ROM's own and then the addresses
that have been installed, in their order; so whoever goes on from hook to hook to the answered
address comes to the ROM's. -/
theorem vectors_follow {before after : Context S M} {memory : M}
    {exchanges : List (Exchange (Fin 0x200) Uint32)} (room : 0x1000 ≤ Bus.size memory)
    (filled : Returns initializeRom memory () before.mem) (calls : Calls before exchanges after)
    (number : Fin 0x200) :
    answeredFor number exchanges ++ [vector after.mem number] =
      romAddress number :: givenFor number exchanges := by
  obtain ⟨other, again, size, vectors, -⟩ := initializeRom_returns memory room
  obtain ⟨-, rfl⟩ := returns_unique filled again
  have leads := (calls_lead calls (by omega)).1
  rw [← vectors]
  exact answers_follow leads number

/-- A guest that calls `_B_INTVCS` for the function 0x20. -/
def guest (mem : MainMemory.ByteMemory) (address : Uint32) :
    Context Boot.SystemStatus MainMemory.ByteMemory where
  mem := mem
  a7 := 0x2000
  pc := 0x8000
  status := ⟨0x2700, 0⟩
  d := ![0x80, 0x120, 0, 0, 0, 0, 0, 0]
  a := ![0, address, 0, 0, 0, 0, 0]

/-- It asks for the vector 0x120. -/
theorem guest_asks (memory : MainMemory.ByteMemory) (address : Uint32) :
    ((guest memory address).d 1 &&& 0xffff).toNat = (0x120 : Fin 0x200) := by
  change ((0x120 : Uint32) &&& 0xffff).toNat = _
  decide

/-- A memory in which the ROM has filled the vectors. -/
theorem filled_exists : ∃ memory : MainMemory.ByteMemory,
    Returns initializeRom (⟨0x100000, 0, fun _ => 0⟩ : MainMemory.ByteMemory) () memory ∧
      Bus.size memory = 0x100000 ∧ vector memory = romAddress := by
  obtain ⟨memory, filled, size, vectors, -⟩ :=
    initializeRom_returns (⟨0x100000, 0, fun _ => 0⟩ : MainMemory.ByteMemory) (by decide)
  exact ⟨memory, filled, size, vectors⟩

/-- One hook is installed. -/
theorem guest_installs {memory : MainMemory.ByteMemory} (size : Bus.size memory = 0x100000)
    (address : Uint32) : ∃ after : Context Boot.SystemStatus MainMemory.ByteMemory,
      Calls (guest memory address) [⟨0x120, address, after.d 0⟩] after ∧
        Exchanged (guest memory address) 0x120 after := by
  obtain ⟨after, returned, exchanged⟩ := intvcs_exchanges
    (guest_asks memory address) (by rw [show Bus.size (guest memory address).mem = _ from size]; decide)
  exact ⟨after, .intvcs (guest_asks memory address) returned (.stop after), exchanged⟩

/-- One hook is installed after the ROM has filled the vectors. -/
theorem vectors_follow_hook : ∃ before after : Context Boot.SystemStatus MainMemory.ByteMemory,
    Calls before [⟨0x120, 0x4000, after.d 0⟩] after ∧
      answeredFor 0x120 [⟨0x120, 0x4000, after.d 0⟩] ++ [vector after.mem 0x120] =
        romAddress 0x120 :: givenFor 0x120 [⟨0x120, 0x4000, after.d 0⟩] := by
  obtain ⟨memory, filled, size, -⟩ := filled_exists
  obtain ⟨after, calls, -⟩ := guest_installs size 0x4000
  exact ⟨_, after, calls, vectors_follow (by decide) filled calls 0x120⟩

/-- Hooks that are removed in the reverse order leave no trace. When calls of `_B_INTVCS` are
followed by calls that install the answered addresses, the last one first, every vector is what it
was before. -/
theorem vectors_restored {before middle after : Context S M}
    {exchanges undos : List (Exchange (Fin 0x200) Uint32)} (room : 0x800 ≤ Bus.size before.mem)
    (calls : Calls before exchanges middle) (undoing : Calls middle undos after)
    (undoes : List.Forall₂ Undoes exchanges.reverse undos) :
    vector after.mem = vector before.mem := by
  obtain ⟨leads, size⟩ := calls_lead calls room
  obtain ⟨undone, -⟩ := calls_lead undoing (by rw [size]; exact room)
  exact undo_all leads undone undoes

/-- A hook of the function 0x20 is installed, and then the answered address is. -/
theorem vectors_restored_hook : ∃ before middle after : Context Boot.SystemStatus MainMemory.ByteMemory,
    Calls before [⟨0x120, 0x4000, romAddress 0x120⟩] middle ∧
      vector middle.mem = Function.update (vector before.mem) 0x120 0x4000 ∧
      Calls middle [⟨0x120, romAddress 0x120, 0x4000⟩] after ∧
      vector after.mem = vector before.mem ∧ vector before.mem = romAddress := by
  obtain ⟨memory, -, size, vectors⟩ := filled_exists
  obtain ⟨middle, calls, exchanged⟩ := guest_installs size 0x4000
  have answer : middle.d 0 = romAddress 0x120 := by
    rw [exchanged.answer, Function.update_self]
    exact congrFun vectors 0x120
  rw [answer] at calls
  have kept : Bus.size middle.mem = 0x100000 := exchanged.size.trans size
  obtain ⟨after, undone, returned⟩ := guest_installs kept (romAddress 0x120)
  have given : after.d 0 = 0x4000 := by
    rw [returned.answer, Function.update_self]
    change vector middle.mem 0x120 = 0x4000
    rw [exchanged.vectors, Function.update_self]
    rfl
  rw [given] at undone
  have undoing : Calls middle [⟨0x120, romAddress 0x120, 0x4000⟩] after := by
    refine .other ?_ ?_ undone
    · rfl
    · rfl
  exact ⟨guest memory 0x4000, middle, after, calls, exchanged.vectors, undoing, vectors_restored
    (by rw [show Bus.size (guest memory 0x4000).mem = _ from size]; decide) calls undoing
    (.cons ⟨rfl, rfl⟩ .nil), vectors⟩

section Trap

variable [Boot.Status S] [WordBus M]

/-- Assign the program counter. -/
def putPc (address : Uint32) : Method S M Unit := .update fun context => { context with pc := address }

/-- The frame of a hook of an IOCS call. -/
def pushCallFrame : Boot.Method S M Unit := do
  let context ← .state
  let oldsr := Boot.Status.sr context.status
  Boot.setSupervisorState true
  Boot.lowerStack 10
  let context ← .state
  Boot.put32 (context.a7 + 6) (context.pc + 2)
  Boot.put16 (context.a7 + 4) oldsr
  Boot.put32 (context.a7 + 0) 0xfe0000

namespace Rom

variable (rom : Rom S M)

/-- Call the function of a number. -/
def callIocs (funcno : Uint32) : Method S M Unit :=
  rom.iocsCalls[funcno.toNat % 0x100]

/-- The instruction `TRAP #15`. -/
def iocsTrap : Method S M Unit := do
  let vecaddr : Uint32 := (15 + 32) * 4
  let addr ← onBase (Boot.get32 vecaddr)
  if addr ≠ vecaddr + 0xfe0000 then do
    let context ← .state
    onBase (Boot.pushFrame (context.pc + 2))
    putPc addr
  else do
    let context ← .state
    let callno := context.d 0 &&& 0xff
    let callAddress := (callno + 0x100) * 4
    let callHandler ← onBase (Boot.get32 callAddress)
    if callHandler ≠ callAddress + 0xfe0000 then do
      onBase pushCallFrame
      putPc callHandler
    else do
      rom.callIocs callno
      .update fun context => { context with pc := context.pc + 2 }

/-- The instruction 0xf84f. -/
def x68kIocs : Method S M Unit := do
  let context ← .state
  let callno := (context.pc - 0xfe0400) / 4
  rom.callIocs callno
  let context ← .state
  let pc ← onBase (Boot.get32 context.a7)
  putPc pc
  .update fun context => { context with a7 := context.a7 + 4 }

end Rom

/-- The vector of `TRAP #15`. -/
def trapNumber : Fin 0x200 := 47

/-- The vector of an IOCS call. -/
def callNumber (call : Fin 0x100) : Fin 0x200 := ⟨0x100 + call, by omega⟩

/-- What is on the stack of a hook: the way back to the ROM, the status register and the program
counter after the trap. -/
def callFields (context : Context S M) : List Field :=
  [.long (context.pc + 2), .word (Boot.Status.sr context.status), .long 0xfe0000]

variable {rom : Rom S M} {context : Context S M} {call : Fin 0x100}

omit [Bus M] [WordBus M] in
/-- The way back is on top, and the frame of the trap is below it. -/
theorem image_callFields (context : Context S M) :
    image (callFields context) = encode 4 (0xfe0000 : Uint32).toNat ++
      image [.long (context.pc + 2), .word (Boot.Status.sr context.status)] := by
  simp only [callFields, image, Field.bytes, List.nil_append, List.append_assoc]

/-- The frame of ten bytes is pushed in supervisor state. -/
theorem returns_pushCallFrame {base after : Boot.Context S M} :
    Returns pushCallFrame base () after ↔
      ∃ memory, Pushes base.mem base.supervisorStack
          [.long (base.pc + 2), .word (Boot.Status.sr base.status), .long 0xfe0000] memory ∧
        after = { base.supervise 10 with mem := memory } := by
  have fields : (base.supervise 10).a7 + 6 = base.supervisorStack - 4#32 ∧
      (base.supervise 10).a7 + 4 = base.supervisorStack - 4#32 - 2#32 ∧
        (base.supervise 10).a7 + 0 = base.supervisorStack - 4#32 - 2#32 - 4#32 := by
    have lowered : (base.supervise 10).a7 = base.supervisorStack - 10 := rfl
    rw [lowered]
    bv_omega
  rw [pushCallFrame, Returns, ends_after_state, Boot.ends_supervise, ends_after_state, fields.1,
    fields.2.1, fields.2.2]
  change Returns (Boot.access _ >>= fun _ => Boot.access _ >>= fun _ => Boot.access _) _ _ _ ↔ _
  simp only [returns_bind, Boot.returns_access, Pushes]
  constructor
  · rintro ⟨_, _, ⟨first, saved, rfl⟩, _, _, ⟨second, status, rfl⟩, last, back, rfl⟩
    exact ⟨last, ⟨first, saved, second, status, last, back, rfl⟩, rfl⟩
  · rintro ⟨memory, ⟨first, saved, second, status, last, back, rfl⟩, rfl⟩
    exact ⟨(), _, ⟨first, saved, rfl⟩, (), _, ⟨second, status, rfl⟩, memory, back, rfl⟩

omit [Boot.Status S] [WordBus M] in
/-- The trap reads a vector at its place. -/
theorem returns_vector (room : 0x800 ≤ Bus.size context.mem) (number : Fin 0x200) :
    Returns (onBase (Boot.get32 (BitVec.ofNat 32 (number * 4)))) context
      (vector context.mem number) context := by
  have place := number_toNat number
  have read := Bus.get32_main context.mem (BitVec.ofNat 32 (number * 4)) (by omega) (by omega)
  exact returns_onBase.mpr ⟨_, Boot.returns_get32.mpr ⟨read, rfl⟩, rfl⟩

/-- Where the vector of the trap is the ROM's, the vector of the call decides. -/
theorem trap_decides (trap : vector context.mem trapNumber = romAddress trapNumber)
    (asked : (context.d 0 &&& 0xff).toNat = call) (room : 0x800 ≤ Bus.size context.mem)
    {after : Context S M} :
    Returns rom.iocsTrap context () after ↔
      if vector context.mem (callNumber call) ≠ romAddress (callNumber call) then
        Returns (do onBase pushCallFrame; putPc (vector context.mem (callNumber call))) context ()
          after
      else
        Returns (do
          rom.callIocs (context.d 0 &&& 0xff)
          .update fun context => { context with pc := context.pc + 2 }) context () after := by
  have place : ((context.d 0 &&& 0xff) + 0x100) * 4 =
      BitVec.ofNat 32 ((callNumber call : Nat) * 4) := by
    have small := call.isLt
    simp only [callNumber]
    bv_omega
  have first : Returns (onBase (Boot.get32 ((15 + 32) * 4))) context (0xfe00bc : Uint32) context := by
    have read := returns_vector room trapNumber
    rw [trap] at read
    exact read
  have second := returns_vector room (callNumber call)
  rw [← place] at second
  have same : romAddress (callNumber call) = ((context.d 0 &&& 0xff) + 0x100) * 4 + 0xfe0000 := by
    rw [place, romAddress, BitVec.add_comm]
  rw [Rom.iocsTrap, Returns, ends_after first, if_neg (by decide), ends_after_state,
    ends_after second, same]
  split
  · exact Iff.rfl
  · exact Iff.rfl

/-- The frame of a hook is in memory below the stack that the trap found. -/
structure Hooked (context : Context S M) (address : Uint32) (entered : Context S M) : Prop where
  start : entered.pc = address
  supervisor : Boot.Status.supervisorState entered.status = true
  stack : entered.a7 = context.supervisorStack - 10
  frame : slice (Bus.byte entered.mem) entered.a7.toNat 10 = image (callFields context)
  rest : entered.d = context.d ∧ entered.a = context.a

/-- The hook of a call is entered with its frame. -/
theorem trap_hooked (rom : Rom S M) (trap : vector context.mem trapNumber = romAddress trapNumber)
    (asked : (context.d 0 &&& 0xff).toNat = call)
    (changed : vector context.mem (callNumber call) ≠ romAddress (callNumber call))
    (room : 0x800 ≤ Bus.size context.mem) (even : context.supervisorStack.toNat % 2 = 0)
    (below : 10 ≤ context.supervisorStack.toNat)
    (inside : context.supervisorStack.toNat ≤ Bus.size context.mem) :
    ∃ entered, Returns rom.iocsTrap context () entered ∧
      Bus.size entered.mem = Bus.size context.mem ∧
      Hooked context (vector context.mem (callNumber call)) entered := by
  obtain ⟨memory, pushed, stored⟩ := pushes_stored (callFields context) context.mem
    context.supervisorStack even below inside
  have lowered : (context.supervisorStack - 10).toNat = context.supervisorStack.toNat - 10 := by bv_omega
  refine ⟨{ context with toContext := { context.supervise 10 with
      mem := memory
      pc := vector context.mem (callNumber call) } }, ?_, stored.size, rfl,
    Boot.Status.supervisorState_set _ _ _, rfl, ?_, rfl, rfl⟩
  · rw [trap_decides trap asked room, if_pos changed]
    exact returns_bind.mpr ⟨(), _, returns_onBase.mpr ⟨_, returns_pushCallFrame.mpr
      ⟨memory, pushed, rfl⟩, rfl⟩, returns_update.mpr rfl⟩
  · change slice (Bus.byte memory) (context.supervisorStack - 10).toNat 10 = _
    rw [lowered, stored.byte]
    exact slice_lay_same _ _ (image (callFields context))

/-- At the ROM's address of a call stands the instruction that makes it. -/
theorem rom_call (call : Fin 0x100) :
    get16 (romAddress (callNumber call)) = 0xf84f ∧
      ((romAddress (callNumber call) - 0xfe0400) / 4).toNat = call := by
  have small := call.isLt
  have place : romAddress (callNumber call) = 0xfe0400 + BitVec.ofNat 32 (call * 4) := by
    simp only [romAddress, callNumber]
    bv_omega
  rw [place]
  constructor
  · rw [get16, if_pos]
    constructor
    · bv_omega
    · bv_omega
  · have offset : (0xfe0400 : Uint32) + BitVec.ofNat 32 (call * 4) - 0xfe0400 =
        BitVec.ofNat 32 (call * 4) := by bv_omega
    rw [offset, BitVec.toNat_udiv, BitVec.toNat_ofNat]
    change (call : Nat) * 4 % 2 ^ 32 / 4 = call
    omega

omit [Bus M] [Boot.Status S] [WordBus M] in
/-- The function of a call is found by its number. -/
theorem callIocs_eq {funcno : Uint32} (number : funcno.toNat = call) :
    rom.callIocs funcno = rom.iocsCalls[call] := by
  simp only [Rom.callIocs, number, Nat.mod_eq_of_lt call.isLt, Fin.getElem_fin]

omit [Bus M] [Boot.Status S] [WordBus M] in
/-- Going on at an address from the stack takes it off. -/
theorem returns_unstack (left : Context S M) (address : Uint32) :
    Returns (do
        putPc address
        .update fun context => { context with a7 := context.a7 + 4 } : Method S M Unit) left ()
      { left with a7 := left.a7 + 4, pc := address } :=
  returns_bind.mpr ⟨(), { left with pc := address }, returns_update.mpr rfl, returns_update.mpr rfl⟩

omit [Bus M] [Boot.Status S] [WordBus M] in
/-- That changes no memory. -/
theorem unstack_mem (left : Context S M) (a7 pc : Uint32) :
    ({ left with a7 := a7, pc := pc } : Context S M).mem = left.mem := rfl

omit [Boot.Status S] in
/-- A return takes its address from the stack. -/
theorem returns_popPc {left : Context S M} (even : left.a7.toNat % 2 = 0)
    (inside : left.a7.toNat + 4 ≤ Bus.size left.mem) :
    Returns (do
        let context ← .state
        let pc ← onBase (Boot.get32 context.a7)
        putPc pc
        .update fun context => { context with a7 := context.a7 + 4 } : Method S M Unit) left ()
      { left with a7 := left.a7 + 4, pc := Bus.word left.mem left.a7 } := by
  have read : Bus.get32 left.mem left.a7 = .ok (Bus.word left.mem left.a7) :=
    EvenBus.get32_even left.mem left.a7 even inside
  refine ends_after_state.mpr ?_
  exact returns_bind.mpr ⟨_, left, returns_onBase.mpr ⟨_, Boot.returns_get32.mpr ⟨read, rfl⟩, rfl⟩,
    returns_unstack left _⟩

omit [Boot.Status S] in
/-- The ROM's instruction calls the function and then returns to the address on the stack. -/
theorem returns_x68kIocs {left : Context S M} (here : context.pc = romAddress (callNumber call))
    (returned : Returns rom.iocsCalls[call] context () left) (even : left.a7.toNat % 2 = 0)
    (inside : left.a7.toNat + 4 ≤ Bus.size left.mem) :
    Returns rom.x68kIocs context ()
      { left with a7 := left.a7 + 4, pc := Bus.word left.mem left.a7 } := by
  have function : rom.callIocs ((context.pc - 0xfe0400) / 4) = rom.iocsCalls[call] :=
    callIocs_eq (by rw [here]; exact (rom_call call).2)
  rw [Rom.x68kIocs, Returns, ends_after_state]
  exact returns_bind.mpr ⟨(), left, by rw [function]; exact returned, returns_popPc even inside⟩

/-- `TRAP #15` comes to the ROM's function, with hooks or without. Where the vectors are the ROM's,
it makes the call and goes on behind the trap. Where the vector of the call has been changed, it
enters the hook; and if the hook, whatever it has done, goes on to the ROM's address with its frame
on the stack, and the function leaves the frame there, the function is called once and returns to
an `RTE` in the ROM, with the frame of the trap itself on the stack. -/
theorem calls_reach_rom (trap : vector context.mem trapNumber = romAddress trapNumber)
    (asked : (context.d 0 &&& 0xff).toNat = call) (room : 0x800 ≤ Bus.size context.mem)
    (even : context.supervisorStack.toNat % 2 = 0) (below : 10 ≤ context.supervisorStack.toNat)
    (inside : context.supervisorStack.toNat ≤ Bus.size context.mem) :
    (vector context.mem (callNumber call) = romAddress (callNumber call) → ∀ left,
      Returns rom.iocsCalls[call] context () left →
        Returns rom.iocsTrap context () { left with pc := left.pc + 2 }) ∧
    (vector context.mem (callNumber call) ≠ romAddress (callNumber call) →
      ∃ entered, Returns rom.iocsTrap context () entered ∧
        Hooked context (vector context.mem (callNumber call)) entered ∧
        ∀ jumped left : Context S M, jumped.pc = romAddress (callNumber call) →
          Returns rom.iocsCalls[call] jumped () left → left.a7 = entered.a7 →
          Bus.size left.mem = Bus.size context.mem →
          slice (Bus.byte left.mem) left.a7.toNat 10 = slice (Bus.byte entered.mem) left.a7.toNat 10 →
          get16 jumped.pc = 0xf84f ∧
            ∃ after, Returns rom.x68kIocs jumped () after ∧
              after = { left with a7 := context.supervisorStack - 6, pc := 0xfe0000 } ∧
              get16 after.pc = 0x4e73 ∧
              slice (Bus.byte after.mem) after.a7.toNat 6 =
                image [.long (context.pc + 2), .word (Boot.Status.sr context.status)]) := by
  constructor
  · intro default left returned
    rw [trap_decides trap asked room, if_neg (not_not.mpr default)]
    exact returns_bind.mpr ⟨(), left, by rw [callIocs_eq asked]; exact returned,
      returns_update.mpr rfl⟩
  · intro changed
    obtain ⟨entered, returned, size, hooked⟩ :=
      trap_hooked rom trap asked changed room even below inside
    refine ⟨entered, returned, hooked, ?_⟩
    intro jumped left here called stack same kept
    have lowered : left.a7.toNat = context.supervisorStack.toNat - 10 := by
      rw [stack, hooked.stack]
      bv_omega
    have frame : slice (Bus.byte left.mem) left.a7.toNat 10 = image (callFields context) := by
      rw [kept, stack, hooked.frame]
    have top : slice (Bus.byte left.mem) left.a7.toNat 4 = encode 4 (0xfe0000 : Uint32).toNat ∧
        slice (Bus.byte left.mem) (left.a7.toNat + 4) 6 =
          image [.long (context.pc + 2), .word (Boot.Status.sr context.status)] := by
      rw [slice_add _ _ 4 6, image_callFields] at frame
      exact List.append_inj frame (by rw [slice_length, encode_length])
    have back : Bus.word left.mem left.a7 = 0xfe0000 := by
      rw [Bus.word, top.1, decode_encode, Nat.mod_eq_of_lt (by decide), BitVec.ofNat_toNat,
        BitVec.setWidth_eq]
    have raised : left.a7 + 4 = context.supervisorStack - 6 := by
      rw [stack, hooked.stack]
      bv_omega
    refine ⟨by rw [here]; exact (rom_call call).1, _, returns_x68kIocs here called (by omega)
      (by omega), ?_, ?_, ?_⟩
    · rw [back, raised]
    · change get16 (Bus.word left.mem left.a7) = 0x4e73
      rw [back]
      decide
    · change slice (Bus.byte left.mem) (left.a7 + 4).toNat 6 = _
      rw [← top.2, raised, lowered]
      congr 1
      bv_omega

/-- A ROM in which every call is `_B_INTVCS`. -/
def intvcsRom : Rom Boot.SystemStatus MainMemory.ByteMemory :=
  ⟨Vector.replicate 0x100 iocsBIntvcs⟩

/-- The stack of the guest. -/
theorem guest_stack (memory : MainMemory.ByteMemory) (address : Uint32) :
    (guest memory address).supervisorStack = 0x2000 := by
  have supervisor : (0x2700 : Uint32).getLsbD 13 = true := by decide
  exact congrArg Prod.fst (if_pos supervisor)

/-- The guest calls the function 0x20. -/
def guestCalls (memory : MainMemory.ByteMemory) : Context Boot.SystemStatus MainMemory.ByteMemory :=
  { guest memory 0x5000 with d := ![0x20, 0x120, 0, 0, 0, 0, 0, 0] }

/-- A memory in which the vector of the function 0x20 is that of a hook at 0x4000. -/
theorem hooked_exists : ∃ memory : MainMemory.ByteMemory, Bus.size memory = 0x100000 ∧
    vector memory = Function.update romAddress 0x120 0x4000 := by
  obtain ⟨memory, -, size, vectors⟩ := filled_exists
  obtain ⟨after, -, exchanged⟩ := guest_installs size 0x4000
  refine ⟨after.mem, exchanged.size.trans size, exchanged.vectors.trans ?_⟩
  rw [show vector (guest memory 0x4000).mem = romAddress from vectors]
  rfl

/-- The guest has the number of `_B_INTVCS` in D0. -/
theorem guest_traps (memory : MainMemory.ByteMemory) (address : Uint32) :
    ((guest memory address).d 0 &&& 0xff).toNat = (0x80 : Fin 0x100) := by
  change ((0x80 : Uint32) &&& 0xff).toNat = _
  decide

/-- The calling guest has the number 0x20 in D0. -/
theorem guestCalls_traps (memory : MainMemory.ByteMemory) :
    ((guestCalls memory).d 0 &&& 0xff).toNat = (0x20 : Fin 0x100) := by
  change ((0x20 : Uint32) &&& 0xff).toNat = _
  decide

/-- Of the two vectors on the way to the function, the hook has changed the second. -/
theorem hooked_vectors {memory : MainMemory.ByteMemory}
    (vectors : vector memory = Function.update romAddress 0x120 0x4000) :
    vector (guestCalls memory).mem trapNumber = romAddress trapNumber ∧
      vector (guestCalls memory).mem (callNumber 0x20) = 0x4000 := by
  rw [show vector (guestCalls memory).mem = _ from vectors]
  exact ⟨Function.update_of_ne (by decide) _ _, Function.update_self _ _ _⟩

/-- When the hook goes on to the ROM, `_B_INTVCS` leaves its frame on the stack. -/
theorem hook_goes_on {memory : MainMemory.ByteMemory}
    {entered : Context Boot.SystemStatus MainMemory.ByteMemory}
    (size : Bus.size entered.mem = 0x100000) (stack : entered.a7.toNat = 0x1ff6)
    (numbers : entered.d = (guestCalls memory).d) (addresses : entered.a = (guestCalls memory).a) :
    ∃ left, Returns iocsBIntvcs { entered with pc := romAddress 0x120 } () left ∧
      left.a7 = entered.a7 ∧ Bus.size left.mem = 0x100000 ∧ vector left.mem 0x120 = 0x5000 ∧
      slice (Bus.byte left.mem) left.a7.toNat 10 = slice (Bus.byte entered.mem) left.a7.toNat 10 := by
  let jumped := { entered with pc := romAddress 0x120 }
  have asks : (jumped.d 1 &&& 0xffff).toNat = (0x120 : Fin 0x200) := by
    change (entered.d 1 &&& 0xffff).toNat = _
    rw [numbers]
    change ((0x120 : Uint32) &&& 0xffff).toNat = _
    decide
  have room : Bus.size jumped.mem = 0x100000 := size
  obtain ⟨left, called, exchanged⟩ := intvcs_exchanges asks (by rw [room]; decide)
  have given : jumped.a 1 = 0x5000 := congrFun addresses 1
  have same : left.a7 = entered.a7 := by rw [exchanged.kept]
  refine ⟨left, called, same, exchanged.size.trans size, ?_, ?_⟩
  · rw [exchanged.vectors, Function.update_self]
    exact given
  · rw [same, stack]
    refine slice_congr _ _ _ _ fun index low _ => exchanged.outside index (Or.inr ?_)
    have stop : ((0x120 : Fin 0x200) : Nat) * 4 + 4 = 0x484 := rfl
    omega

/-- Without hooks the trap makes the call. With the hook it comes to 0x4000, and when the hook
goes on to the ROM's address, the function is called and returns to an `RTE`, with the guest's
program counter on the stack. -/
theorem calls_reach_rom_intvcs :
    (∃ context left : Context Boot.SystemStatus MainMemory.ByteMemory,
      Returns intvcsRom.iocsTrap context () { left with pc := left.pc + 2 }) ∧
    ∃ context entered after : Context Boot.SystemStatus MainMemory.ByteMemory,
      Returns intvcsRom.iocsTrap context () entered ∧ entered.pc = 0x4000 ∧
        Returns intvcsRom.x68kIocs { entered with pc := romAddress 0x120 } () after ∧
        get16 after.pc = 0x4e73 ∧ vector after.mem 0x120 = 0x5000 ∧
        slice (Bus.byte after.mem) after.a7.toNat 6 =
          image [.long (context.pc + 2), .word (Boot.Status.sr context.status)] := by
  constructor
  · obtain ⟨memory, -, size, vectors⟩ := filled_exists
    have stack := guest_stack memory 0x4000
    have extent : Bus.size (guest memory 0x4000).mem = 0x100000 := size
    have table : vector (guest memory 0x4000).mem = romAddress := vectors
    obtain ⟨left, returned, -⟩ := intvcs_exchanges (guest_asks memory 0x4000) (by rw [extent]; decide)
    refine ⟨guest memory 0x4000, left, (calls_reach_rom (congrFun table _) (guest_traps memory 0x4000)
      (by rw [extent]; decide) (by rw [stack]; decide) (by rw [stack]; decide)
      (by rw [stack, extent]; decide)).1 (congrFun table _) left ?_⟩
    simpa [intvcsRom] using returned
  · obtain ⟨memory, size, vectors⟩ := hooked_exists
    obtain ⟨trap, hook⟩ := hooked_vectors vectors
    have asked := guestCalls_traps memory
    have stack : (guestCalls memory).supervisorStack = 0x2000 := guest_stack memory 0x5000
    have extent : Bus.size (guestCalls memory).mem = 0x100000 := size
    have changed : vector (guestCalls memory).mem (callNumber 0x20) ≠ romAddress (callNumber 0x20) := by
      rw [hook]
      decide
    have room : 0x800 ≤ Bus.size (guestCalls memory).mem := by rw [extent]; decide
    have even : (guestCalls memory).supervisorStack.toNat % 2 = 0 := by rw [stack]; decide
    have below : 10 ≤ (guestCalls memory).supervisorStack.toNat := by rw [stack]; decide
    have inside : (guestCalls memory).supervisorStack.toNat ≤ Bus.size (guestCalls memory).mem := by
      rw [stack, extent]
      decide
    have enters : ∃ entered, Returns intvcsRom.iocsTrap (guestCalls memory) () entered ∧ _ :=
      (calls_reach_rom trap asked room even below inside).2 changed
    obtain ⟨entered, returned, hooked, reaches⟩ := enters
    obtain ⟨same, again, kept, -⟩ := trap_hooked intvcsRom trap asked changed room even below inside
    obtain ⟨-, rfl⟩ := returns_unique returned again
    have place : entered.a7.toNat = 0x1ff6 := by
      rw [hooked.stack, stack]
      decide
    obtain ⟨left, called, stands, large, given, frame⟩ :=
      hook_goes_on (kept.trans extent) place hooked.rest.1 hooked.rest.2
    obtain ⟨-, after, ends, moved, rte, frameLeft⟩ := reaches { entered with pc := romAddress 0x120 } left
      rfl (by simpa [intvcsRom] using called) stands (large.trans extent.symm) frame
    have unmoved : after.mem = left.mem := moved ▸ unstack_mem left _ _
    exact ⟨guestCalls memory, entered, after, returned, hooked.start.trans hook, ends, rte,
      by rw [unmoved]; exact given, frameLeft⟩

end Trap

end Vx68k.SystemRom
