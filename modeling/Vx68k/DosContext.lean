import Vx68k.Allocator

/-!
# The DOS context and the program loader

A `dos_exec_context` carries the address registers and the process that allocates,
and calls the allocator on its behalf. The loader reads a host file with an HU
header: 64 bytes, then text and data, then a table of fix-ups. The host's files are
a parameter. A table that ends inside an entry makes the source read past its
buffer; nothing is said about that, and the model does not end there.

File handles have a module of their own. The debugging output is left out.
-/

namespace Vx68k

open Programs ByteStores

/-- The processor registers that the DOS layer itself reads or sets. -/
structure Registers where
  a : Fin 8 → Uint32
  usp : Uint32
  pc : Uint32

/-- There are address registers. -/
instance registersNonempty : NeZero 8 := ⟨by decide⟩

/-- The memory side of a `dos_exec_context`. The allocator works on the context's
own address space. -/
structure DosExecContext (M : Type) where
  allocator : Allocator M
  currentPdb : Uint32
  regs : Registers

namespace DosExecContext

/-- A member function of the context. -/
abbrev Method (M α : Type) := Program Thrown (DosExecContext M) α

variable {M : Type} [Bus M]

/-- Call the allocator. -/
def allocating {α : Type} (call : Allocator.Method M α) : Method M α :=
  .zoom DosExecContext.allocator (fun allocator context => { context with allocator := allocator }) call

/-- A write to the address space. -/
def access (operation : M → Ending Thrown M Unit) : Method M Unit :=
  .atomic fun context =>
    let ending := operation context.allocator.as
    (ending.1, { context with allocator := { context.allocator with as := ending.2 } })

/-- Write a byte of memory. -/
def put8 (address value : Uint32) : Method M Unit := access (Bus.put8 address value)

/-- Write a long word of memory. -/
def put32 (address value : Uint32) : Method M Unit := access (Bus.put32 address value)

/-- Write bytes to memory. -/
def write (address : Uint32) (bytes : List Byte) : Method M Unit := access (Bus.write address bytes)

/-- Write bytes and a terminator to memory. -/
def putString (address : Uint32) (bytes : List Byte) : Method M Unit :=
  access (Bus.putString address bytes)

/-- Read a word of memory. -/
def get16 (address : Uint32) : Method M Uint32 :=
  .atomic fun context => (Bus.get16 context.allocator.as address, context)

/-- Read a long word of memory. -/
def get32 (address : Uint32) : Method M Uint32 :=
  .atomic fun context => (Bus.get32 context.allocator.as address, context)

/-- Set an address register. -/
def setA (index : Fin 8) (value : Uint32) : Method M Unit :=
  .update fun context =>
    { context with regs := { context.regs with a := Function.update context.regs.a index value } }

/-- Make a process the current one. -/
def setpdb (pdb : Uint32) : Method M Unit := .update fun context => { context with currentPdb := pdb }

/-- Allocate a block for the current process. -/
def malloc (len : Uint32) : Method M Int := do
  let context ← .state
  allocating (Allocator.alloc len context.currentPdb)

/-- Free a block, or with a null pointer all blocks of the current process. -/
def mfree (memptr : Uint32) : Method M Int := do
  let context ← .state
  if memptr = 0 then
    allocating (Allocator.freeByParent context.currentPdb)
    pure 0
  else allocating (Allocator.free memptr)

/-- Resize a block. -/
def setblock (memptr newlen : Uint32) : Method M Int := allocating (Allocator.resize memptr newlen)

/-- The allocation that `load` starts with. -/
def mallocLargest : Method M Int := do
  let context ← .state
  allocating (Allocator.allocLargest context.currentPdb)

/-- `malloc` returns what `alloc` does for the current process. -/
theorem returns_malloc {context after : DosExecContext M} {len : Uint32} {code : Int} :
    Returns (malloc len) context code after ↔ ∃ allocator,
      Returns (Allocator.alloc len context.currentPdb) context.allocator code allocator ∧
        after = { context with allocator := allocator } := by
  rw [malloc, show Returns _ context code after ↔ _ from ends_after_state]
  exact returns_zoom.trans (exists_congr fun allocator => and_congr Iff.rfl eq_comm)

/-- So does the allocation of the longest gap. -/
theorem returns_mallocLargest {context after : DosExecContext M} {code : Int} :
    Returns mallocLargest context code after ↔ ∃ allocator,
      Returns (Allocator.allocLargest context.currentPdb) context.allocator code allocator ∧
        after = { context with allocator := allocator } := by
  rw [mallocLargest, show Returns _ context code after ↔ _ from ends_after_state]
  exact returns_zoom.trans (exists_congr fun allocator => and_congr Iff.rfl eq_comm)

/-- `setblock` returns what `resize` does. -/
theorem returns_setblock {context after : DosExecContext M} {memptr newlen : Uint32} {code : Int} :
    Returns (setblock memptr newlen) context code after ↔ ∃ allocator,
      Returns (Allocator.resize memptr newlen) context.allocator code allocator ∧
        after = { context with allocator := allocator } := by
  rw [setblock]
  exact returns_zoom.trans (exists_congr fun allocator => and_congr Iff.rfl eq_comm)

/-- The big-endian long word that a list of bytes starts with, at an index. -/
def longWord (bytes : List Byte) (index : Nat) : Uint32 :=
  BitVec.ofNat 32 (decode ((bytes.drop (4 * index)).take 4))

/-- Apply one fix-up to the long word at an address. -/
def fixUpAt (base loadAddress address : Uint32) : Method M Unit := do
  let value ← get32 address
  put32 address (value + loadAddress - base)

/-- Go through the table of fix-ups. An entry is a word with the distance from the
address before, or the word 1 and a long word with the distance. -/
def fixUp (base loadAddress : Uint32) : List Byte → Uint32 → Method M Unit
  | [], _ => pure ()
  | [_], _ => .diverge
  | high :: low :: rest, address =>
    let d := BitVec.ofNat 32 (decode [high, low])
    if d = 1 then
      match rest with
      | first :: second :: third :: fourth :: rest =>
        let d := BitVec.ofNat 32 (decode [first, second, third, fourth])
        if d % 2 ≠ 0 then .raise (.runtimeError "exec format error")
        else do
          fixUpAt base loadAddress (address + d)
          fixUp base loadAddress rest (address + d)
      | _ => .diverge
    else if d % 2 ≠ 0 then .raise (.runtimeError "exec format error")
    else do
      fixUpAt base loadAddress (address + d)
      fixUp base loadAddress rest (address + d)

/-- The files of the host by their path names. -/
abbrev Host := List Byte → Option (List Byte)

/-- The fields of an HU header that the loader reads. -/
structure Header where
  base : Uint32
  startOffset : Uint32
  textSize : Uint32
  dataSize : Uint32
  bssSize : Uint32
  relocSize : Uint32

/-- The header fields follow the first four bytes of a file. -/
def header (file : List Byte) : Header :=
  let words := file.drop 4
  ⟨longWord words 0, longWord words 1, longWord words 2, longWord words 3, longWord words 4,
    longWord words 5⟩

/-- The bytes of text and data. -/
def imageSize (head : Header) : Nat := head.textSize.toNat + head.dataSize.toNat

/-- The part of the loader that has an accepted header. -/
def loadImage (name : List Byte) (head : Header) (body : List Byte) (address : Uint32) :
    Method M Uint32 := do
  let loadAddress := address + 0xf0
  if body.length < imageSize head then .raise (.runtimeError "read error")
  else do
    write loadAddress (body.take (imageSize head))
    let table := body.drop (imageSize head)
    if table.length < head.relocSize.toNat then .raise (.runtimeError "read error")
    else do
      fixUp head.base loadAddress (table.take head.relocSize.toNat) loadAddress
      put32 (loadAddress - 0x100 + 0x80) 0
      putString (loadAddress - 0x100 + 0xc4) name
      setA 0 (loadAddress - 0x100)
      setA 1 (loadAddress + head.textSize + head.dataSize + head.bssSize)
      pure (loadAddress + head.startOffset)

/-- Read an executable file to an address and relocate it. The start address is returned. -/
def loadExecutable (host : Host) (name : List Byte) (address : Uint32) : Method M Uint32 :=
  match host name with
  | none => .raise (.runtimeError "open error")
  | some file =>
    if file.length < 64 then .raise (.runtimeError "read error")
    else if file.take 2 ≠ [0x48, 0x55] then .raise (.runtimeError "exec format error")
    else loadImage name (header file) (file.drop 64) address

/-- What `load` does in the block it has allocated. -/
def loadInto (host : Host) (name : List Byte) (arg env pdb : Uint32) : Method M Unit := do
  let pdbBase := pdb - 0x10
  put32 (pdbBase + 0x10) env
  put32 (pdbBase + 0x20) arg
  let start ← loadExecutable host name pdb
  setA 2 arg
  setA 3 env
  setA 4 start

/-- Load a program into the longest gap. The block is not freed if that fails. -/
def load (host : Host) (name : List Byte) (arg env : Uint32) : Method M Uint32 := do
  let pdb ← mallocLargest
  loadInto host name arg env (BitVec.ofInt 32 pdb)
  pure (BitVec.ofInt 32 pdb)

end DosExecContext

end Vx68k
