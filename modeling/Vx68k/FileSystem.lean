import Vx68k.AddressSpace
import Vx68k.FileNames
import Vx68k.Holders

/-!
# The file system and the file handles of a context

A `file_system` counts the slots that hold each file object; a `dos_exec_context` has
five standard slots and `NFILES` ordinary ones. A slot is written by the file system
through a reference, which is modelled as a second component of the state.

The host, the memory of a context and the addresses that `new` gives out are a
parameter of each call. Running out of host memory is not modelled, nor is what a file
object does when it is read or written.
-/

namespace Vx68k

open Programs ByteStores FileNames Holders

/-- How a call ends without returning: by an exception, by an assertion or by deleting
an object that is not there. -/
inductive Stop where
  | thrown (failure : Thrown)
  | outOfRange
  | assertion (condition : String)
  | deadObject
deriving DecidableEq

/-- Addresses of file objects, of which there are always more. A `file *` is an optional
address. -/
abbrev FilePtr := Nat

/-- File objects: a host descriptor or the console. -/
inductive File where
  | regular (fd : Int)
  | conDevice
deriving DecidableEq

/-- The host's reasons to refuse a file. -/
inductive Errno where
  | eperm
  | enoent
  | other
deriving DecidableEq

/-- The flags that files are opened with. -/
inductive OpenFlags where
  | rdonly
  | wronly
  | rdwr
  | rdwrCreatTrunc
deriving DecidableEq

/-- What surrounds a call: the address of the next new object, the host's files and the
strings in the context's memory. -/
structure Surroundings where
  address : FilePtr
  hostOpen : List Byte → OpenFlags → Except Errno Int
  getString : BitVec 32 → Except Thrown (List Byte)

/-- The counts, by file objects, and the objects that exist. -/
structure FileSystem where
  files : FilePtr → Option (BitVec 32)
  objects : FilePtr → Option File

namespace FileSystem

/-- A member function of the file system. -/
abbrev Method (α : Type) := Program Stop FileSystem α

/-- A method with a slot by reference. -/
abbrev SlotMethod (α : Type) := Program Stop (FileSystem × Option FilePtr) α

/-- A file system without files. -/
def empty : FileSystem := ⟨fun _ => none, fun _ => none⟩

/-- Give a file another count, or take it out. -/
def setCount (f : FilePtr) (count : Option (BitVec 32)) (fs : FileSystem) : FileSystem :=
  { fs with files := Function.update fs.files f count }

/-- Give a pointer another object, or none. -/
def setObject (f : FilePtr) (object : Option File) (fs : FileSystem) : FileSystem :=
  { fs with objects := Function.update fs.objects f object }

/-- Delete an object that exists. -/
def delete (f : FilePtr) : Method Unit := do
  let fs ← .state
  if fs.objects f = none then .raise .deadObject
  else .update (setObject f none)

/-- Give up a reference. The object is deleted with the last one. -/
def unref : Option FilePtr → Method Unit
  | none => pure ()
  | some f => do
    let fs ← .state
    match fs.files f with
    | none => .raise (.assertion "found != files.end()")
    | some count =>
      if count.toInt ≤ 0 then .raise (.assertion "found->second > 0")
      else if count - 1 = 0 then do
        .update (setCount f none)
        delete f
      else .update (setCount f (some (count - 1)))

/-- Take another reference to a file. -/
def ref : Option FilePtr → Method (Option FilePtr)
  | none => pure none
  | some f => do
    let fs ← .state
    match fs.files f with
    | none => .raise (.assertion "found != files.end()")
    | some count => do
      .update (setCount f (some (count + 1)))
      if (count + 1).toInt ≤ 0 then .raise (.assertion "found->second > 0")
      else pure (some f)

/-- A file system with a new object that one slot will hold; an entry that the table
already has stays. -/
def added (f : FilePtr) (object : File) (fs : FileSystem) : FileSystem :=
  setCount f (some ((fs.files f).getD 1)) (setObject f (some object) fs)

/-- Make a file object and let the slot hold it. -/
def install (around : Surroundings) (object : File) : SlotMethod Unit :=
  .update fun (fs, _) => (added around.address object fs, some around.address)

/-- Let the slot hold a regular file over a host descriptor. -/
def openFd (around : Surroundings) (fd : Int) : SlotMethod Unit := install around (.regular fd)

/-- ASCII letters in lower case. -/
def lower (byte : Byte) : Byte := if 0x41 ≤ byte ∧ byte ≤ 0x5a then byte + 0x20 else byte

/-- Compare with `con` up to the first NUL and without regard to case. -/
def isCon (name : List Byte) : Prop :=
  (name.takeWhile (· ≠ 0)).map lower = [0x63, 0x6f, 0x6e]

instance (name : List Byte) : Decidable (isCon name) := inferInstanceAs (Decidable (_ = _))

/-- The host's name of a file; an exception of the conversion goes on to the caller. -/
def hostName (name : List Byte) : SlotMethod (List Byte) := do
  let outcome ← .zoom (fun _ => ()) (fun _ whole => whole) (exportFileName name).attempt
  match outcome with
  | .ok exported => pure exported
  | .error _ => .raise .outOfRange

/-- Open a host file for the slot, or give the code for the host's reason. -/
def openHost (around : Surroundings) (name : List Byte) (flags : OpenFlags)
    (code : Errno → Int) : SlotMethod Int :=
  match around.hostOpen name flags with
  | .error reason => pure (code reason)
  | .ok fd => do
    openFd around fd
    pure 0

/-- The codes of DOS for the errors of opening. -/
def openCode : Errno → Int
  | .eperm => -19
  | .enoent => -2
  | .other => -2

/-- The codes of DOS for the errors of creating. -/
def createCode : Errno → Int
  | .eperm => -19
  | _ => -2

/-- The host's flags of a mode whose low bits are at most two. -/
def uflag (mode : BitVec 16) : OpenFlags :=
  if mode &&& 0xf = 0 then .rdonly else if mode &&& 0xf = 1 then .wronly else .rdwr

/-- Open a file by its name. -/
def openName (around : Surroundings) (name : List Byte) (mode : BitVec 16) : SlotMethod Int :=
  if mode &&& 0xf > 2 then pure (-12)
  else if isCon name then do
    install around .conDevice
    pure 0
  else do
    let extName ← hostName name
    openHost around extName (uflag mode) openCode

/-- A string of the context's memory. -/
def getString (around : Surroundings) (nameptr : BitVec 32) : SlotMethod (List Byte) :=
  match around.getString nameptr with
  | .error failure => .raise (.thrown failure)
  | .ok name => pure name

/-- Open a file by the address of its name. -/
def openAt (around : Surroundings) (nameptr : BitVec 32) (mode : BitVec 16) : SlotMethod Int := do
  let name ← getString around nameptr
  openName around name mode

/-- Create a file or empty it, and open it. -/
def create (around : Surroundings) (nameptr : BitVec 32) (_atr : BitVec 16) : SlotMethod Int := do
  let name ← getString around nameptr
  let name ← hostName name
  openHost around name .rdwrCreatTrunc createCode

/-- What the host says of a file: whether it is a directory, and whether it can be
written. -/
structure HostStatus where
  stat : List Byte → Except Errno Bool
  writable : List Byte → Bool

/-- Call a method that leaves its slot alone. -/
def withoutSlot {α : Type} (call : SlotMethod α) : Method α :=
  .zoom (fun fs => (fs, none)) (fun result _ => result.1) call

/-- The attributes of a file; none are changed. -/
def chmod (around : Surroundings) (host : HostStatus) (nameptr : BitVec 32) (_atr : BitVec 16) :
    Method Int := do
  let name ← withoutSlot (getString around nameptr)
  let name ← withoutSlot (hostName name)
  match host.stat name with
  | .error reason => pure (openCode reason)
  | .ok directory =>
    pure ((if directory then 0x10 else 0x20) + if host.writable name then 0 else 0x01)

end FileSystem

/-- The number of ordinary slots. -/
abbrev NFILES := 96

/-- A slot of a context. -/
inductive Place where
  | std (index : Fin 5)
  | file (index : Fin NFILES)
deriving DecidableEq

/-- The file handles of a `dos_exec_context`. -/
structure Handles where
  stdFiles : Vector (Option FilePtr) 5
  files : Vector (Option FilePtr) NFILES

namespace Handles

/-- What is in a slot. -/
def get (handles : Handles) : Place → Option FilePtr
  | .std index => handles.stdFiles[index]
  | .file index => handles.files[index]

/-- Put something into a slot. -/
def set (handles : Handles) (slot : Option FilePtr) : Place → Handles
  | .std index => { handles with stdFiles := handles.stdFiles.set index slot }
  | .file index => { handles with files := handles.files.set index slot }

/-- Handles that hold nothing. -/
def vacant : Handles := ⟨Vector.replicate 5 none, Vector.replicate NFILES none⟩

/-- The first ordinary slot that holds nothing. -/
def find (handles : Handles) : Option (Fin NFILES) := handles.files.findFinIdx? Option.isNone

/-- The slots in the order in which the destructor releases them. -/
def releases (handles : Handles) : List (Option FilePtr) :=
  handles.files.toList.reverse ++ handles.stdFiles.toList.reverse

/-- How many slots hold an object. -/
def slots (handles : Handles) (f : FilePtr) : Nat :=
  handles.stdFiles.count (some f) + handles.files.count (some f)

/-- A slot has what has been put into it. -/
@[simp]
theorem get_set_self (handles : Handles) (slot : Option FilePtr) (place : Place) :
    (handles.set slot place).get place = slot := by
  cases place <;> simp [set, get]

/-- Putting back what is there changes nothing. -/
@[simp]
theorem set_get_self (handles : Handles) (place : Place) :
    handles.set (handles.get place) place = handles := by
  cases place <;> simp [set, get]

/-- The other slots are left alone. -/
theorem get_set_other (handles : Handles) (slot : Option FilePtr) {place other : Place}
    (different : other ≠ place) : (handles.set slot place).get other = handles.get other := by
  cases place with
  | std index =>
    cases other with
    | std which =>
      have apart : index.val ≠ which.val := fun same =>
        different (congrArg Place.std (Fin.ext same.symm))
      simp [set, get, Vector.getElem_set_ne, apart]
    | file which => rfl
  | file index =>
    cases other with
    | std which => rfl
    | file which =>
      have apart : index.val ≠ which.val := fun same =>
        different (congrArg Place.file (Fin.ext same.symm))
      simp [set, get, Vector.getElem_set_ne, apart]

/-- Setting a slot of an array moves it from one object to another. -/
theorem count_set_held {n : Nat} (slots : Vector (Option FilePtr) n) (slot : Option FilePtr)
    (index : Fin n) (f : FilePtr) :
    held slots[index] f + (slots.set index slot).count (some f) =
      held slot f + slots.count (some f) := by
  have boole : ∀ content : Option FilePtr,
      (if content == some f then 1 else 0) = held content f := fun content => by simp [held]
  have there : (if slots[index.val] == some f then 1 else 0) ≤ slots.count (some f) :=
    Vector.boole_getElem_le_count index.isLt
  have counts : (slots.set index slot).count (some f) =
      slots.count (some f) - (if slots[index.val] == some f then 1 else 0) +
        (if slot == some f then 1 else 0) := Vector.count_set index.isLt
  rw [boole] at there
  rw [boole, boole] at counts
  simp only [Fin.getElem_fin]
  omega

/-- Setting a slot takes it from the object that it held to the one that it holds. -/
theorem slots_set (handles : Handles) (slot : Option FilePtr) (place : Place) (f : FilePtr) :
    held (handles.get place) f + (handles.set slot place).slots f =
      held slot f + handles.slots f := by
  cases place with
  | std index =>
    have moved := count_set_held handles.stdFiles slot index f
    simp only [slots, set, get]
    omega
  | file index =>
    have moved := count_set_held handles.files slot index f
    simp only [slots, set, get]
    omega

/-- An object with slots is in one of them. -/
theorem slots_pos {handles : Handles} {f : FilePtr} :
    0 < handles.slots f ↔ ∃ place, handles.get place = some f := by
  rw [slots, Nat.add_pos_iff_pos_or_pos, Vector.count_pos_iff, Vector.count_pos_iff,
    Vector.mem_iff_getElem, Vector.mem_iff_getElem]
  constructor
  · rintro (⟨index, within, here⟩ | ⟨index, within, here⟩)
    · exact ⟨.std ⟨index, within⟩, here⟩
    · exact ⟨.file ⟨index, within⟩, here⟩
  · rintro ⟨index | index, here⟩
    · exact Or.inl ⟨index, index.isLt, here⟩
    · exact Or.inr ⟨index, index.isLt, here⟩

/-- An object has at most all slots. -/
theorem slots_le (handles : Handles) (f : FilePtr) : handles.slots f ≤ 5 + NFILES :=
  Nat.add_le_add Vector.count_le_size Vector.count_le_size

/-- Vacant handles refer to no file. -/
@[simp]
theorem slots_vacant (f : FilePtr) : vacant.slots f = 0 := by
  simp [slots, vacant, Vector.count_replicate]

/-- The slot that is found holds nothing. -/
theorem get_found {handles : Handles} {found : Fin NFILES} (search : handles.find = some found) :
    handles.get (.file found) = none := by
  have first : handles.files.find? Option.isNone = some handles.files[found] := by
    rw [Vector.find?_eq_map_findFinIdx?_getElem,
      show handles.files.findFinIdx? Option.isNone = some found from search]
    rfl
  simpa [get] using Vector.find?_some first

/-- The destructor releases every slot. -/
theorem count_releases (handles : Handles) (f : FilePtr) :
    handles.releases.count (some f) = handles.slots f := by
  simp [releases, slots, Nat.add_comm]

end Handles

namespace FileHandles

/-- The calls of a context work on the shared file system and on its own handles. -/
abbrev Method (α : Type) := Program Stop (FileSystem × Handles) α

/-- Call the file system. -/
def filing {α : Type} (call : FileSystem.Method α) : Method α :=
  .zoom Prod.fst (fun fs context => (fs, context.2)) call

/-- Call the file system with a slot by reference. -/
def intoSlot {α : Type} (place : Place) (call : FileSystem.SlotMethod α) : Method α :=
  .zoom (fun context => (context.1, context.2.get place))
    (fun result context => (result.1, context.2.set result.2 place)) call

/-- Set a slot. -/
def setSlot (place : Place) (slot : Option FilePtr) : Method Unit :=
  .update fun context => (context.1, context.2.set slot place)

/-- Let one slot hold what another one holds. -/
def share (target source : Place) : Method Unit := do
  let context ← .state
  let slot ← filing (FileSystem.ref (context.2.get source))
  setSlot target slot

/-- The ordinary slot of a descriptor, when that holds a file. -/
def lookup (handles : Handles) (fd : BitVec 16) : Option (Fin NFILES × FilePtr) :=
  if inRange : fd.toNat < NFILES then
    (handles.get (.file ⟨fd.toNat, inRange⟩)).map fun f => (⟨fd.toNat, inRange⟩, f)
  else none

/-- Give up the file of a descriptor and empty its slot. -/
def close (fd : BitVec 16) : Method Int := do
  let context ← .state
  match lookup context.2 fd with
  | none => pure (-6)
  | some (index, f) => do
    filing (FileSystem.unref (some f))
    setSlot (.file index) none
    pure 0

/-- Share the file of a descriptor with a free slot. -/
def dup (filno : BitVec 16) : Method Int := do
  let context ← .state
  match lookup context.2 filno with
  | none => pure (-6)
  | some (index, _) =>
    match context.2.find with
    | none => pure (-4)
    | some found => do
      share (.file found) (.file index)
      pure (found : Nat)

/-- Give a free slot to a call of the file system that may fill it. -/
def intoFree (call : FileSystem.SlotMethod Int) : Method Int := do
  let context ← .state
  match context.2.find with
  | none => pure (-4)
  | some found => do
    let err ← intoSlot (.file found) call
    pure (if err < 0 then err else (found : Nat))

/-- Open the file of a name into a free slot. -/
def openFile (around : Surroundings) (nameptr : BitVec 32) (mode : BitVec 16) : Method Int :=
  intoFree (FileSystem.openAt around nameptr mode)

/-- Create the file of a name into a free slot. -/
def create (around : Surroundings) (nameptr : BitVec 32) (atr : BitVec 16) : Method Int :=
  intoFree (FileSystem.create around nameptr atr)

/-- The slots that the constructor fills from others, in order. -/
def standard : List (Place × Place) :=
  [(.std 1, .std 0), (.std 2, .std 0), (.std 3, .std 2), (.std 4, .std 2),
    (.file 0, .std 0), (.file 1, .std 1), (.file 2, .std 2), (.file 3, .std 3),
    (.file 4, .std 4)]

/-- Fill slots from others, one after the other. -/
def shareAll : List (Place × Place) → Method Unit
  | [] => pure ()
  | (target, source) :: rest => do
    share target source
    shareAll rest

/-- The constructor of a context. -/
def construct (around : Surroundings) : Method Unit := do
  .update fun context => (context.1, Handles.vacant)
  let _ ← intoSlot (.std 0) (FileSystem.openName around [0x63, 0x6f, 0x6e] 2)
  shareAll standard

/-- Release slots, one after the other. -/
def unrefAll : List (Option FilePtr) → FileSystem.Method Unit
  | [] => pure ()
  | slot :: rest => do
    FileSystem.unref slot
    unrefAll rest

/-- The destructor of a context. -/
def destruct : Method Unit := do
  let context ← .state
  filing (unrefAll context.2.releases)

end FileHandles

end Vx68k
