import Vx68k.ConsoleText
import Vx68k.FileReads
import Vx68k.OpenFiles
import Vx68k.PositionedFiles

/-!
# Reading and writing through descriptors

A descriptor of a context leads over a slot to a counted object, and that over a descriptor of
the host to what the host knows of the open file. Duplicates share all but the slot. Together
this is a table of open files that the slots name, in which nothing is counted or deleted: the
host's descriptors are closed only when no slot leads to them.

The host's files are byte sequences. Each call says whether the host fails in it, and an array
that the source does not initialise brings the byte that it holds.
-/

namespace Vx68k.FileTransfers

open Programs ByteStores FileSystem FileHandles OpenFiles PositionedFiles

/-- Bytes are read in bulk. -/
class BlockBus (M : Type) [Bus M] where
  read : M → Uint32 → Nat → Except Thrown (List Byte)
  read_main : ∀ (memory : M) address count, address.toNat + count ≤ Bus.size memory →
    read memory address count = .ok (slice (Bus.byte memory) address.toNat count)

/-- A byte memory gives blocks of its reachable part. -/
instance : BlockBus MainMemory.ByteMemory where
  read memory address count :=
    if address.toNat + count ≤ memory.extent then .ok (slice memory.byte address.toNat count)
    else .error .memoryException
  read_main _ _ _ inside := if_pos inside

/-- What file objects work on: the host's files, with descriptions by keys, the machine that the
console device prints on, and the memory. -/
structure Outside (κ ι V M : Type) where
  host : Opened κ ι Byte
  console : Machine V
  memory : M

/-- A method of a file object. -/
abbrev Method (κ ι V M : Type) := Outside κ ι V M → Ending Thrown (Outside κ ι V M) Int

section Files

variable {κ ι V M β : Type} [DecidableEq κ] [DecidableEq ι] [Video V] [Bus M] [BlockBus M] [StringBus M]

/-- A call of the host. -/
def hosted (fails : Bool) (fd : κ) (call : Call ι Byte β) (outside : Outside κ ι V M) :
    Option β × Outside κ ι V M :=
  let answer := outside.host.through fd (call.refusedIf fails)
  (answer.1, { outside with host := answer.2 })

/-- A number as a signed long word. -/
def longResult (number : Nat) : Int := (BitVec.ofNat 32 number).toInt

namespace RegularFile

/-- The code for a failure of the host, or what follows from its answer. -/
def checked (next : β → Method κ ι V M) : Option β × Outside κ ι V M →
    Ending Thrown (Outside κ ι V M) Int
  | (none, outside) => (.ok (-6), outside)
  | (some answer, outside) => next answer outside

/-- Read from the host's file into memory. -/
def read (fails : Bool) (fd : κ) (dataptr size : Uint32) : Method κ ι V M := fun outside =>
  checked (fun data outside =>
      let stored := Bus.write dataptr data outside.memory
      (stored.1.map fun _ => longResult data.length, { outside with memory := stored.2 }))
    (hosted fails fd (.read size.toNat) outside)

/-- Write bytes and return their number. -/
def put (fails : Bool) (fd : κ) (data : List Byte) : Method κ ι V M := fun outside =>
  checked (fun count outside => (.ok (longResult count), outside))
    (hosted fails fd (.write 0 data) outside)

/-- Write from memory to the host's file. -/
def write (fails : Bool) (fd : κ) (dataptr size : Uint32) : Method κ ι V M := fun outside =>
  match BlockBus.read outside.memory dataptr size.toNat with
  | .error failure => (.error failure, outside)
  | .ok data => put fails fd data outside

/-- At the end of the file the array keeps its byte. -/
def fgetc (fails : Bool) (fd : κ) (stale : Byte) : Method κ ι V M := fun outside =>
  checked (fun data outside => (.ok (data.head?.getD stale).toNat, outside))
    (hosted fails fd (.read 1) outside)

/-- A failure of the host is not looked at. -/
def fputc (fails : Bool) (fd : κ) (code : Uint16) : Method κ ι V M := fun outside =>
  (.ok 1, (hosted fails fd (.write 0 [code.setWidth 8]) outside).2)

/-- Write a string to the host's file. -/
def fputs (fails : Bool) (fd : κ) (mesptr : Uint32) : Method κ ι V M := fun outside =>
  match StringBus.getString outside.memory mesptr with
  | .error failure => (.error failure, outside)
  | .ok mes => put fails fd mes outside

/-- A position of all ones counts as a failure. -/
def seek (fails : Bool) (fd : κ) (offset : Uint32) (mode : Uint16) : Method κ ι V M := fun outside =>
  checked (fun pos outside =>
      (.ok (if longResult pos = -1 then -6 else longResult pos), outside))
    (hosted fails fd (.seek offset.toInt mode.toNat) outside)

end RegularFile

namespace ConDeviceFile

/-- Not implemented in the source. -/
def read : Method κ ι V M := fun outside => (.ok (-1), outside)

/-- Print bytes of memory. The answer is the size. -/
def write (dataptr size : Uint32) : Method κ ι V M := fun outside =>
  match BlockBus.read outside.memory dataptr size.toNat with
  | .error failure => (.error failure, outside)
  | .ok data => (.ok size.toInt, { outside with console := outside.console.bPrint data })

/-- A byte of standard input is read and dropped. -/
def fgetc (fails : Bool) (stdin : κ) : Method κ ι V M := fun outside =>
  (.ok 1, (hosted fails stdin (.read 1) outside).2)

/-- Output a character code. -/
def fputc (code : Uint16) : Method κ ι V M := fun outside =>
  (.ok 1, { outside with console := outside.console.bPutc code })

/-- Print a string. -/
def fputs (str : Uint32) : Method κ ι V M := fun outside =>
  match StringBus.getString outside.memory str with
  | .error failure => (.error failure, outside)
  | .ok text => (.ok 0, { outside with console := outside.console.bPrint text })

/-- That of the base class. -/
def seek : Method κ ι V M := fun outside => (.ok (-1), outside)

end ConDeviceFile

end Files

/-- The virtual methods of a file, with their arguments. -/
inductive Transfer where
  | read (dataptr size : Uint32)
  | write (dataptr size : Uint32)
  | fgetc (stale : Byte)
  | fputc (code : Uint16)
  | fputs (mesptr : Uint32)
  | seek (offset : Uint32) (mode : Uint16)
deriving DecidableEq

/-- A file object over a key of the host's. -/
inductive Device (κ : Type) where
  | regular (fd : κ)
  | con

section Contexts

variable {κ ι V M : Type} [DecidableEq κ] [DecidableEq ι] [Video V] [Bus M] [BlockBus M] [StringBus M]

/-- A virtual call; `stdin` is the key of standard input. -/
def Device.transfer (stdin : κ) (fails : Bool) : Device κ → Transfer → Method κ ι V M
  | regular fd, .read dataptr size => RegularFile.read fails fd dataptr size
  | regular fd, .write dataptr size => RegularFile.write fails fd dataptr size
  | regular fd, .fgetc stale => RegularFile.fgetc fails fd stale
  | regular fd, .fputc code => RegularFile.fputc fails fd code
  | regular fd, .fputs mesptr => RegularFile.fputs fails fd mesptr
  | regular fd, .seek offset mode => RegularFile.seek fails fd offset mode
  | con, .read _ _ => ConDeviceFile.read
  | con, .write dataptr size => ConDeviceFile.write dataptr size
  | con, .fgetc _ => ConDeviceFile.fgetc fails stdin
  | con, .fputc code => ConDeviceFile.fputc code
  | con, .fputs str => ConDeviceFile.fputs str
  | con, .seek _ _ => ConDeviceFile.seek

/-- The file system with its contexts, and what is outside of it, with the host's numbers of
its descriptors. -/
structure World (ι V M : Type) where
  system : System
  outside : Outside Int ι V M

/-- A call of the context at a position, for a descriptor of it. -/
inductive Request where
  | transfer (position : Nat) (fd : Uint16) (fails : Bool) (transfer : Transfer)
  | dup (position : Nat) (fd : Uint16)
  | close (position : Nat) (fd : Uint16)
deriving DecidableEq

/-- The slots of a context; none where there is no context. -/
def slotsAt (position : Nat) (contexts : List Handles) : Handles := contexts.getD position .vacant

/-- The device that an object of the file system is. -/
def device : File → Device Int
  | .regular fd => .regular fd
  | .conDevice => .con

/-- Call a virtual method of the file of a descriptor. -/
def transfer (position : Nat) (fd : Uint16) (fails : Bool) (method : Transfer) :
    Program Stop (World ι V M) Int :=
  .atomic fun world =>
    match lookup (slotsAt position world.system.contexts) fd with
    | none => (.ok (-6), world)
    | some (_, f) =>
      match world.system.fs.objects f with
      | none => (.error .deadObject, world)
      | some object =>
        let ending := (device object).transfer 0 fails method world.outside
        (ending.1.mapError .thrown, { world with outside := ending.2 })

/-- Call a context for its slots. -/
def filing (position : Nat) (call : FileHandles.Method Int) : Program Stop (World ι V M) Int :=
  .zoom (fun world => (world.system.fs, slotsAt position world.system.contexts))
    (fun result world =>
      { world with system := ⟨result.1, world.system.contexts.set position result.2⟩ }) call

/-- The destructor of an object that is gone closes its descriptor. -/
def destroyed (before after : FileSystem) (f : FilePtr) (host : Opened Int ι Byte) :
    Opened Int ι Byte :=
  match before.objects f, after.objects f with
  | some (.regular fd), none => host.close fd
  | _, _ => host

/-- Close a descriptor. With the last reference the host's descriptor is closed as well. -/
def close (position : Nat) (fd : Uint16) : Program Stop (World ι V M) Int := do
  let before ← .state
  let code ← filing position (FileHandles.close fd)
  .update fun world =>
    match lookup (slotsAt position before.system.contexts) fd with
    | none => world
    | some (_, f) =>
      { world with outside := { world.outside with
          host := destroyed before.system.fs world.system.fs f world.outside.host } }
  pure code

/-- What the source does for a request. -/
def perform : Request → Program Stop (World ι V M) Int
  | .transfer position fd fails method => transfer position fd fails method
  | .dup position fd => filing position (FileHandles.dup fd)
  | .close position fd => close position fd

/-- Open files without counts and descriptors of the host: slots name them, and `none` names
standard input. -/
structure Table (ι V M : Type) where
  contexts : List Handles
  console : FilePtr → Bool
  outside : Outside (Option FilePtr) ι V M

/-- What a call does in the table. -/
def refer : Request → Table ι V M → Except Stop Int × Table ι V M
  | .transfer position fd fails method, table =>
    match lookup (slotsAt position table.contexts) fd with
    | none => (.ok (-6), table)
    | some (_, f) =>
      let named : Device (Option FilePtr) := if table.console f then .con else .regular (some f)
      let ending := named.transfer none fails method table.outside
      (ending.1.mapError .thrown, { table with outside := ending.2 })
  | .dup position fd, table =>
    let slots := slotsAt position table.contexts
    match lookup slots fd with
    | none => (.ok (-6), table)
    | some (_, f) =>
      match slots.find with
      | none => (.ok (-4), table)
      | some free =>
        (.ok (free : Nat),
          { table with contexts := table.contexts.set position (slots.set (some f) (.file free)) })
  | .close position fd, table =>
    let slots := slotsAt position table.contexts
    match lookup slots fd with
    | none => (.ok (-6), table)
    | some (index, _) =>
      (.ok 0, { table with contexts := table.contexts.set position (slots.set none (.file index)) })

end Contexts

section Refinement

variable {κ κ' ι V M β : Type}

/-- The same outside, up to the names of the keys. -/
structure Alike (names : κ → Option κ') (named : Outside κ' ι V M) (table : Outside κ ι V M) :
    Prop where
  host : Opened.Agree names named.host table.host
  console : named.console = table.console
  memory : named.memory = table.memory

/-- The same file, up to the name of its key. -/
inductive Names (names : κ → Option κ') : Device κ' → Device κ → Prop where
  | regular {key : κ} {fd : κ'} (named : names key = some fd) : Names names (.regular fd) (.regular key)
  | con : Names names .con .con

/-- Two methods end alike. -/
def EndAlike (names : κ → Option κ') (named : Ending Thrown (Outside κ' ι V M) Int)
    (table : Ending Thrown (Outside κ ι V M) Int) : Prop :=
  named.1 = table.1 ∧ Alike names named.2 table.2

variable [DecidableEq κ] [DecidableEq κ'] {names : κ → Option κ'} {named : Outside κ' ι V M}
  {table : Outside κ ι V M}

/-- Hosts that are alike answer a call alike and stay alike. -/
theorem hosted_alike (apart : Opened.Apart names) (alike : Alike names named table) {key : κ} {fd : κ'}
    (here : names key = some fd) (fails : Bool) (call : Call ι Byte β) :
    (hosted fails fd call named).1 = (hosted fails key call table).1 ∧
      Alike names (hosted fails fd call named).2 (hosted fails key call table).2 := by
  obtain ⟨same, agree⟩ := Opened.agree_through alike.host apart here (call.refusedIf fails)
  exact ⟨same, agree, alike.console, alike.memory⟩

/-- What follows from the same answer of the host. -/
theorem checked_alike (apart : Opened.Apart names) (alike : Alike names named table) {key : κ} {fd : κ'}
    (here : names key = some fd) (fails : Bool) (call : Call ι Byte β)
    {next : β → Method κ' ι V M} {other : β → Method κ ι V M}
    (follow : ∀ answer named table, Alike names named table →
      EndAlike names (next answer named) (other answer table)) :
    EndAlike names (RegularFile.checked next (hosted fails fd call named))
      (RegularFile.checked other (hosted fails key call table)) := by
  obtain ⟨same, kept⟩ := hosted_alike apart alike here fails call
  generalize hosted fails fd call named = first at same kept ⊢
  generalize hosted fails key call table = second at same kept ⊢
  obtain ⟨answer, named⟩ := first
  obtain ⟨also, table⟩ := second
  obtain rfl : answer = also := same
  cases answer with
  | none => exact ⟨rfl, kept⟩
  | some answer => exact follow answer named table kept

variable [DecidableEq ι]

/-- Writes to files that are alike end alike. -/
theorem put_alike (apart : Opened.Apart names) (alike : Alike names named table) {key : κ} {fd : κ'}
    (here : names key = some fd) (fails : Bool) (data : List Byte) :
    EndAlike names (RegularFile.put fails fd data named) (RegularFile.put fails key data table) :=
  checked_alike apart alike here fails (.write 0 data) fun _ _ _ kept => ⟨rfl, kept⟩

variable [Video V] [Bus M] [BlockBus M] [StringBus M]

/-- Calls of the same regular file end alike. -/
theorem regular_alike (apart : Opened.Apart names) (alike : Alike names named table) {key : κ} {fd : κ'}
    (here : names key = some fd) (stdin : κ) (input : κ') (fails : Bool) (method : Transfer) :
    EndAlike names ((Device.regular fd).transfer input fails method named)
      ((Device.regular key).transfer stdin fails method table) := by
  cases method with
  | read dataptr size =>
    refine checked_alike apart alike here fails (.read size.toNat) fun data named table kept => ?_
    obtain ⟨agree, console, memory⟩ := kept
    simp only [memory]
    exact ⟨rfl, agree, console, rfl⟩
  | write dataptr size =>
    simp only [Device.transfer, RegularFile.write, alike.memory]
    split
    · exact ⟨rfl, alike⟩
    · exact put_alike apart alike here fails _
  | fgetc stale => exact checked_alike apart alike here fails (.read 1) fun _ _ _ kept => ⟨rfl, kept⟩
  | fputc code => exact ⟨rfl, (hosted_alike apart alike here fails (.write 0 [code.setWidth 8])).2⟩
  | fputs mesptr =>
    simp only [Device.transfer, RegularFile.fputs, alike.memory]
    split
    · exact ⟨rfl, alike⟩
    · exact put_alike apart alike here fails _
  | seek offset mode =>
    exact checked_alike apart alike here fails (.seek offset.toInt mode.toNat)
      fun _ _ _ kept => ⟨rfl, kept⟩

/-- Calls of the console end alike. -/
theorem con_alike (apart : Opened.Apart names) (alike : Alike names named table) {stdin : κ} {input : κ'}
    (standard : names stdin = some input) (fails : Bool) (method : Transfer) :
    EndAlike names (Device.con.transfer input fails method named)
      (Device.con.transfer stdin fails method table) := by
  obtain ⟨agree, console, memory⟩ := id alike
  cases method with
  | read dataptr size => exact ⟨rfl, alike⟩
  | write dataptr size =>
    simp only [Device.transfer, ConDeviceFile.write, memory]
    split
    · exact ⟨rfl, alike⟩
    · exact ⟨rfl, agree, congrArg (Machine.bPrint _) console, rfl⟩
  | fgetc stale => exact ⟨rfl, (hosted_alike apart alike standard fails (.read 1)).2⟩
  | fputc code => exact ⟨rfl, agree, congrArg (Machine.bPutc code) console, memory⟩
  | fputs mesptr =>
    simp only [Device.transfer, ConDeviceFile.fputs, memory]
    split
    · exact ⟨rfl, alike⟩
    · exact ⟨rfl, agree, congrArg (Machine.bPrint _) console, rfl⟩
  | seek offset mode => exact ⟨rfl, alike⟩

/-- Virtual calls of the same file end alike. -/
theorem transfer_alike (apart : Opened.Apart names) (alike : Alike names named table) {stdin : κ}
    {input : κ'} (standard : names stdin = some input) (fails : Bool) {device : Device κ'}
    {other : Device κ} (same : Names names device other) (method : Transfer) :
    EndAlike names (device.transfer input fails method named)
      (other.transfer stdin fails method table) := by
  cases same with
  | regular here => exact regular_alike apart alike here stdin input fails method
  | con => exact con_alike apart alike standard fails method

end Refinement

section Sharing

open Holders FileCounts

variable {fs : FileSystem} {handles : Handles} {others : FilePtr → Nat} {fd : Uint16}
  {index : Fin NFILES} {f : FilePtr}

/-- Closing clears the slot, and the object goes with the last one. -/
theorem close_exact (exact : Exact fs (both handles others))
    (found : lookup handles fd = some (index, f)) :
    ∃ after, Returns (FileHandles.close fd) (fs, handles) 0 (after, handles.set none (.file index)) ∧
      Exact after (both (handles.set none (.file index)) others) ∧
      after.objects = remaining (both (handles.set none (.file index)) others) fs := by
  obtain ⟨-, here⟩ := lookup_some found
  have split : Exact fs fun g => held (some f) g + both (handles.set none (.file index)) others g :=
    exact_congr exact fun g => by
      have moved := handles.slots_set none (.file index) g
      rw [here, held_none] at moved
      simp only [both]
      omega
  obtain ⟨after, released, counted, objects⟩ := unref_exact split
  refine ⟨after, ends_after_state.mpr ?_, counted, objects⟩
  simp only [found]
  have called : Returns (FileHandles.filing (unref (some f))) (fs, handles) () (after, handles) :=
    returns_zoom.mpr ⟨after, released, rfl⟩
  refine (ends_after called).mpr (ends_after_update.mpr ?_)
  exact ends_pure.mpr ⟨rfl, rfl⟩

/-- Duplicating fills the first free slot, and no object changes. -/
theorem dup_exact (exact : Exact fs (both handles others)) (alone : others f = 0)
    (found : lookup handles fd = some (index, f)) {free : Fin NFILES}
    (search : handles.find = some free) :
    ∃ after, Returns (dup fd) (fs, handles) (free : Nat) (after, handles.set (some f) (.file free)) ∧
      Exact after (both (handles.set (some f) (.file free)) others) ∧ after.objects = fs.objects := by
  obtain ⟨-, here⟩ := lookup_some found
  obtain ⟨after, shared, counted, same⟩ := share_exact exact here (Handles.get_found search) alone
  refine ⟨after, ends_after_state.mpr ?_, counted, same⟩
  simp only [found, search]
  exact (ends_after shared).mpr (ends_pure.mpr ⟨rfl, rfl⟩)

/-- A slot that a descriptor leads to is that of a context. -/
theorem slots_split {position : Nat} {contexts : List Handles} {pair : Fin NFILES × FilePtr}
    (found : lookup (slotsAt position contexts) fd = some pair) :
    ∃ left right, contexts = left ++ slotsAt position contexts :: right ∧
      ∀ new, contexts.set position new = left ++ new :: right := by
  by_cases inside : position < contexts.length
  · have here : slotsAt position contexts = contexts[position] := by
      rw [slotsAt, List.getD_eq_getElem?_getD, List.getElem?_eq_getElem inside, Option.getD_some]
    refine ⟨contexts.take position, contexts.drop (position + 1), ?_, fun new =>
      List.set_eq_take_append_cons_drop.trans (if_pos inside)⟩
    rw [here, List.getElem_cons_drop, List.take_append_drop]
  · have vacant : slotsAt position contexts = .vacant := by
      rw [slotsAt, List.getD_eq_getElem?_getD, List.getElem?_eq_none (by omega), Option.getD_none]
    have none : lookup Handles.vacant fd = none := by
      unfold lookup Handles.get Handles.vacant
      split
      · simp
      · rfl
    rw [vacant, none] at found
    cases found

/-- A slot that a descriptor leads to keeps its object alive. -/
theorem slot_alive {system : System} (sound : Sound system) {position : Nat}
    (found : lookup (slotsAt position system.contexts) fd = some (index, f)) :
    ∃ object, system.fs.objects f = some object := by
  obtain ⟨-, here⟩ := lookup_some found
  obtain ⟨left, right, contexts, -⟩ := slots_split found
  have member : slotsAt position system.contexts ∈
      left ++ slotsAt position system.contexts :: right := by simp
  rw [← contexts] at member
  have held := total_pos.mpr ⟨_, member, Handles.slots_pos.mpr ⟨_, here⟩⟩
  exact Option.isSome_iff_exists.mp ((sound.exact.alive f).mpr held)

/-- The host's descriptors of the open files. -/
def descriptors (fs : FileSystem) : Option FilePtr → Option Int
  | none => some 0
  | some f =>
    match fs.objects f with
    | some (.regular fd) => some fd
    | _ => none

/-- The host's descriptor of an object is that of a regular file. -/
theorem descriptors_some {fd : Int} :
    descriptors fs (some f) = some fd ↔ fs.objects f = some (.regular fd) := by
  rcases found : fs.objects f with _ | (_ | _) <;> simp [descriptors, found]

/-- Objects that are left have the descriptors that they had. -/
theorem descriptors_fewer {after : FileSystem}
    (left : ∀ f object, after.objects f = some object → fs.objects f = some object)
    (key : Option FilePtr) (fd : Int) (here : descriptors after key = some fd) :
    descriptors fs key = some fd := by
  cases key with
  | none => exact here
  | some f => exact descriptors_some.mpr (left f _ (descriptors_some.mp here))

end Sharing

section Simulation

open Holders FileCounts

variable {ι V M : Type}

/-- The world is the table with counts and descriptors. -/
structure Refines (world : World ι V M) (table : Table ι V M) : Prop where
  sound : Sound world.system
  contexts : world.system.contexts = table.contexts
  apart : Opened.Apart (descriptors world.system.fs)
  alike : Alike (descriptors world.system.fs) world.outside table.outside
  console : ∀ f object, world.system.fs.objects f = some object →
    table.console f = decide (object = .conDevice)

variable {world : World ι V M} {table : Table ι V M}

/-- Closing the descriptor of an object that is gone. -/
theorem destroyed_agree {fs after : FileSystem} {host : Opened Int ι Byte}
    {other : Opened (Option FilePtr) ι Byte} (apart : Opened.Apart (descriptors fs))
    (agree : Opened.Agree (descriptors fs) host other)
    (left : ∀ f object, after.objects f = some object → fs.objects f = some object) (f : FilePtr) :
    Opened.Agree (descriptors after) (destroyed fs after f host) other := by
  have fewer := Opened.agree_fewer agree (descriptors_fewer left)
  unfold destroyed
  split
  · rename_i fd before gone
    refine Opened.agree_close fewer fun key named => ?_
    obtain rfl := apart key (some f) fd (descriptors_fewer left key fd named) (descriptors_some.mpr before)
    rw [descriptors_some, gone] at named
    cases named
  · exact fewer

/-- A call that changes one context and loses objects at most. -/
theorem filed_refines {fs after : FileSystem} {left right : List Handles} {handles new : Handles}
    {outside : Outside Int ι V M} {host : Opened Int ι Byte} {console : FilePtr → Bool}
    {tables : Outside (Option FilePtr) ι V M}
    (refines : Refines ⟨⟨fs, left ++ handles :: right⟩, outside⟩
      ⟨left ++ handles :: right, console, tables⟩)
    (exact : Exact after (both new (total Handles.slots (left ++ right))))
    (gains : ∀ f, 0 < new.slots f → 0 < handles.slots f)
    (objects : ∀ f object, after.objects f = some object → fs.objects f = some object)
    (agree : Opened.Agree (descriptors after) host tables.host) :
    Refines ⟨⟨after, left ++ new :: right⟩, { outside with host }⟩
      ⟨left ++ new :: right, console, tables⟩ where
  sound := by
    refine ⟨exact_congr exact fun f => ?_, apart_replace refines.sound.apart fun f some => Or.inl (gains f some)⟩
    exact (total_split Handles.slots left right new f).symm
  contexts := rfl
  apart := Opened.apart_fewer refines.apart (descriptors_fewer objects)
  alike := ⟨agree, refines.alike.console, refines.alike.memory⟩
  console f object here := refines.console f object (objects f object here)

/-- Putting back the slots of a context changes nothing. -/
theorem set_slotsAt (position : Nat) (contexts : List Handles) :
    contexts.set position (slotsAt position contexts) = contexts := by
  by_cases inside : position < contexts.length
  · rw [slotsAt, List.getD_eq_getElem?_getD, List.getElem?_eq_getElem inside, Option.getD_some,
      List.set_getElem_self]
  · exact List.set_eq_of_length_le (Nat.le_of_not_lt inside)

/-- A call that leaves the slots and the file system as they are. -/
theorem filing_unchanged {position : Nat} {call : FileHandles.Method Int} {outcome : Except Stop Int}
    (ended : Ends call (world.system.fs, slotsAt position world.system.contexts) outcome
      (world.system.fs, slotsAt position world.system.contexts)) :
    Ends (filing position call) world outcome world := by
  refine ends_zoom.mpr ⟨_, ended, ?_⟩
  simp only [set_slotsAt]

/-- A call of a context that fills or clears one of its slots. -/
theorem filing_ends {fs after : FileSystem} {contexts : List Handles} {outside : Outside Int ι V M}
    {position : Nat} {call : FileHandles.Method Int} {handles new : Handles} {code : Int}
    (here : slotsAt position contexts = handles)
    (returned : Returns call (fs, handles) code (after, new)) :
    Returns (filing position call) (⟨⟨fs, contexts⟩, outside⟩ : World ι V M) code
      ⟨⟨after, contexts.set position new⟩, outside⟩ :=
  ends_zoom.mpr ⟨(after, new), here ▸ returned, rfl⟩

/-- Setting a slot to an object that has slots, or to none, adds no object. -/
theorem gains_none {handles : Handles} {slot : Option FilePtr} {place : Place}
    (held : ∀ f, slot = some f → 0 < handles.slots f) (f : FilePtr)
    (some : 0 < (handles.set slot place).slots f) : 0 < handles.slots f := by
  by_cases same : slot = .some f
  · exact held f same
  · have moved := handles.slots_set slot place f
    have none : Holders.held slot f = 0 := if_neg same
    omega

variable [DecidableEq ι] [Video V] [Bus M] [BlockBus M] [StringBus M]

/-- A transfer does what the table does. -/
theorem transfer_simulates (refines : Refines world table) (position : Nat) (fd : Uint16)
    (fails : Bool) (method : Transfer) :
    ∃ after, Ends (transfer position fd fails method) world
        (refer (.transfer position fd fails method) table).1 after ∧
      Refines after (refer (.transfer position fd fails method) table).2 := by
  have same := refines.contexts
  cases found : lookup (slotsAt position world.system.contexts) fd with
  | none =>
    refine ⟨world, ends_atomic.mpr ?_, ?_⟩
    · simp only [refer, found, ← same]
    · simpa only [refer, found, ← same] using refines
  | some pair =>
    obtain ⟨index, f⟩ := pair
    obtain ⟨object, alive⟩ := slot_alive refines.sound found
    have named : Names (descriptors world.system.fs) (device object)
        (if table.console f then .con else .regular (some f) : Device (Option FilePtr)) := by
      rw [refines.console f object alive]
      cases object with
      | regular fd => exact .regular (descriptors_some.mpr alive)
      | conDevice => exact .con
    have standard : descriptors world.system.fs none = some 0 := rfl
    obtain ⟨ending, kept⟩ := transfer_alike refines.apart refines.alike standard fails named method
    refine ⟨{ world with outside := ((device object).transfer 0 fails method world.outside).2 },
      ends_atomic.mpr ?_, ?_⟩
    · simp only [refer, found, ← same, alive, ending]
    · simp only [refer, found, ← same]
      exact ⟨refines.sound, rfl, refines.apart, kept, refines.console⟩

/-- So does a duplication. -/
theorem dup_simulates (refines : Refines world table) (position : Nat) (fd : Uint16) :
    ∃ after, Ends (filing position (dup fd)) world (refer (.dup position fd) table).1 after ∧
      Refines after (refer (.dup position fd) table).2 := by
  obtain ⟨⟨fs, contexts⟩, outside⟩ := world
  obtain ⟨slots, console, tables⟩ := table
  obtain rfl : contexts = slots := refines.contexts
  cases found : lookup (slotsAt position contexts) fd with
  | none =>
    simp only [refer, found]
    refine ⟨_, filing_unchanged (ends_after_state.mpr ?_), refines⟩
    simp only [found]
    exact ends_pure.mpr ⟨rfl, rfl⟩
  | some pair =>
    obtain ⟨index, f⟩ := pair
    cases search : (slotsAt position contexts).find with
    | none =>
      simp only [refer, found, search]
      refine ⟨_, filing_unchanged (ends_after_state.mpr ?_), refines⟩
      simp only [found, search]
      exact ends_pure.mpr ⟨rfl, rfl⟩
    | some free =>
      obtain ⟨left, right, shape, replaced⟩ := slots_split found
      generalize here : slotsAt position contexts = handles at shape found replaced search
      subst shape
      have holds := Handles.slots_pos.mpr ⟨_, (lookup_some found).2⟩
      obtain ⟨after, returned, counted, objects⟩ := dup_exact (sound_both refines.sound)
        (apart_others refines.sound.apart holds) found search
      simp only [refer, here, found, search]
      refine ⟨_, filing_ends here returned, ?_⟩
      simp only [replaced]
      have same : ∀ g object, after.objects g = some object → fs.objects g = some object := by
        rw [objects]
        exact fun _ _ => id
      refine filed_refines refines counted (gains_none fun g shared => ?_) same
        (Opened.agree_fewer refines.alike.host (descriptors_fewer same))
      exact Option.some.inj shared ▸ holds

/-- So does a closing. -/
theorem close_simulates (refines : Refines world table) (position : Nat) (fd : Uint16) :
    ∃ after, Ends (close position fd) world (refer (.close position fd) table).1 after ∧
      Refines after (refer (.close position fd) table).2 := by
  obtain ⟨⟨fs, contexts⟩, outside⟩ := world
  obtain ⟨slots, console, tables⟩ := table
  obtain rfl : contexts = slots := refines.contexts
  cases found : lookup (slotsAt position contexts) fd with
  | none =>
    have refused : Returns (filing position (FileHandles.close fd))
        (⟨⟨fs, contexts⟩, outside⟩ : World ι V M) (-6) ⟨⟨fs, contexts⟩, outside⟩ := by
      refine filing_unchanged (ends_after_state.mpr ?_)
      simp only [found]
      exact ends_pure.mpr ⟨rfl, rfl⟩
    refine ⟨⟨⟨fs, contexts⟩, outside⟩, ends_after_state.mpr ((ends_after refused).mpr
      (ends_after_update.mpr ?_)), ?_⟩
    · simp only [refer, found]
      exact ends_pure.mpr ⟨rfl, rfl⟩
    · simp only [refer, found]
      exact refines
  | some pair =>
    obtain ⟨index, f⟩ := pair
    obtain ⟨left, right, shape, replaced⟩ := slots_split found
    generalize here : slotsAt position contexts = handles at shape found replaced
    subst shape
    obtain ⟨after, returned, counted, objects⟩ := close_exact (sound_both refines.sound) found
    have fewer : ∀ g object, after.objects g = some object → fs.objects g = some object := by
      intro g object alive
      rw [objects, remaining] at alive
      split at alive
      · exact alive
      · cases alive
    refine ⟨⟨⟨after, left ++ handles.set none (.file index) :: right⟩,
      { outside with host := destroyed fs after f outside.host }⟩, ?_, ?_⟩
    · refine ends_after_state.mpr ((ends_after (filing_ends here returned)).mpr
        (ends_after_update.mpr ?_))
      simp only [refer, here, found, replaced]
      exact ends_pure.mpr ⟨rfl, rfl⟩
    · simp only [refer, here, found, replaced]
      exact filed_refines refines counted (gains_none fun g none => by cases none) fewer
        (destroyed_agree refines.apart refines.alike.host fewer f)

end Simulation

end Vx68k.FileTransfers
