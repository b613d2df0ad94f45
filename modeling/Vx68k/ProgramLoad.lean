import Vx68k.AllocatorRuns
import Vx68k.DosContext

/-!
# What a program load writes

The writes of a load are recorded by an address space that keeps a log, in front of
any other address space. The log of a load that returns is known before it runs: it
depends on the block, the header, the table of fix-ups and the path name. A load
keeps to its block and keeps the image intact exactly when the file fits the block,
the fix-ups lie inside it and the path name is shorter than 60 bytes.

The loader itself checks none of this. Loads that end with an exception, as of a
file without an HU header or with a fix-up at an odd distance, are not covered.
-/

namespace Vx68k.ProgramLoad

open Programs ByteStores DosExecContext
open Allocator hiding Method load

/-- A run of bytes: its first address and its length. -/
abbrev Span := Nat × Nat

/-- A byte of a run. -/
def Covers (span : Span) (index : Nat) : Prop := span.1 ≤ index ∧ index < span.1 + span.2

/-- An address space with a log of what is written to it, in order. -/
structure Recording (M : Type) where
  memory : M
  writes : List Span

/-- Note a write and make it. -/
def recordWrite {M : Type} (start count : Nat) (operation : M → Ending Thrown M Unit)
    (recording : Recording M) : Ending Thrown (Recording M) Unit :=
  let ending := operation recording.memory
  (ending.1, ⟨ending.2, recording.writes ++ [(start, count)]⟩)

/-- A write that stores its bytes stores them with a log too. -/
theorem recordWrite_stored {M : Type} [Bus M] {start : Nat} {bytes : List Byte}
    {operation : M → Ending Thrown M Unit} (count : Nat) (recording : Recording M)
    (stores : ∃ after, operation recording.memory = (.ok (), after) ∧
      Stored Bus.size Bus.byte recording.memory start bytes after) :
    ∃ after, recordWrite start count operation recording = (.ok (), after) ∧
      Stored (fun recording => Bus.size recording.memory)
        (fun recording => Bus.byte recording.memory) recording start bytes after := by
  obtain ⟨after, done, stored⟩ := stores
  exact ⟨⟨after, recording.writes ++ [(start, count)]⟩, by simp only [recordWrite, done],
    stored.size, stored.byte⟩

/-- With a log of its writes an address space stays one. -/
instance {M : Type} [Bus M] : Bus (Recording M) where
  size recording := Bus.size recording.memory
  byte recording := Bus.byte recording.memory
  get16 recording := Bus.get16 recording.memory
  get32 recording := Bus.get32 recording.memory
  put8 address value := recordWrite address.toNat 1 (Bus.put8 address value)
  put32 address value := recordWrite address.toNat 4 (Bus.put32 address value)
  write address bytes := recordWrite address.toNat bytes.length (Bus.write address bytes)
  putString address bytes := recordWrite address.toNat (bytes.length + 1) (Bus.putString address bytes)
  size_le recording := Bus.size_le recording.memory
  get32_main recording := Bus.get32_main recording.memory
  put8_main address value recording inside :=
    recordWrite_stored 1 recording (Bus.put8_main address value recording.memory inside)
  put32_main address value recording aligned inside :=
    recordWrite_stored 4 recording (Bus.put32_main address value recording.memory aligned inside)
  write_main address bytes recording inside :=
    recordWrite_stored bytes.length recording (Bus.write_main address bytes recording.memory inside)
  putString_main address bytes recording inside :=
    recordWrite_stored (bytes.length + 1) recording
      (Bus.putString_main address bytes recording.memory inside)

/-- It takes long words at even addresses if it did before. -/
instance {M : Type} [Bus M] [EvenBus M] : EvenBus (Recording M) where
  get32_even recording := EvenBus.get32_even recording.memory
  put32_even address value recording even inside :=
    recordWrite_stored 4 recording (EvenBus.put32_even address value recording.memory even inside)

/-- The addresses of the fix-ups in a table, from the address before the first. A
table is refused when it ends inside an entry or has an odd distance. -/
def fixUpPlaces : List Byte → Uint32 → Option (List Uint32)
  | [], _ => some []
  | [_], _ => none
  | high :: low :: rest, address =>
    let d := BitVec.ofNat 32 (decode [high, low])
    if d = 1 then
      match rest with
      | first :: second :: third :: fourth :: rest =>
        let d := BitVec.ofNat 32 (decode [first, second, third, fourth])
        if d % 2 ≠ 0 then none
        else (fixUpPlaces rest (address + d)).map ((address + d) :: ·)
      | _ => none
    else if d % 2 ≠ 0 then none
    else (fixUpPlaces rest (address + d)).map ((address + d) :: ·)

/-- Apply fix-ups at addresses, in order. -/
def fixUpAll {M : Type} [Bus M] (base loadAddress : Uint32) :
    List Uint32 → DosExecContext.Method M Unit
  | [] => pure ()
  | place :: rest => do
    fixUpAt base loadAddress place
    fixUpAll base loadAddress rest

/-- An accepted table is gone through at the addresses it has. -/
theorem fixUp_places {M : Type} [Bus M] (base loadAddress : Uint32) (table : List Byte)
    (address : Uint32) (places : List Uint32) (accepted : fixUpPlaces table address = some places) :
    fixUp base loadAddress table address = (fixUpAll base loadAddress places :
      DosExecContext.Method M Unit) := by
  fun_induction fixUpPlaces table address generalizing places with
  | case1 address =>
    obtain rfl : [] = places := Option.some.inj accepted
    rfl
  | case2 only address => exact absurd accepted (by simp)
  | case3 high low address d isLong first second third fourth rest d' odd =>
    exact absurd accepted (by simp)
  | case4 high low address d isLong first second third fourth rest d' even inductionHypothesis =>
    obtain ⟨others, later, rfl⟩ := Option.map_eq_some_iff.mp accepted
    rw [fixUp.eq_def]
    simp only [d, d'] at isLong even inductionHypothesis later ⊢
    rw [if_pos isLong, if_neg even, inductionHypothesis others later]
    rfl
  | case5 high low rest address d isLong short => exact absurd accepted (by simp)
  | case6 high low rest address d short odd => exact absurd accepted (by simp)
  | case7 high low rest address d short even inductionHypothesis =>
    obtain ⟨others, later, rfl⟩ := Option.map_eq_some_iff.mp accepted
    rw [fixUp.eq_def]
    simp only [d] at short even inductionHypothesis later ⊢
    rw [if_neg short, if_neg even, inductionHypothesis others later]
    rfl

/-- An even distance leads from an even address to another. -/
theorem even_add {address d : Uint32} (even : address.toNat % 2 = 0) (multiple : ¬ d % 2 ≠ 0) :
    (address + d).toNat % 2 = 0 := by
  have none : (d % 2).toNat = 0 := by rw [not_not.mp multiple]; rfl
  rw [BitVec.toNat_umod] at none
  change d.toNat % 2 = 0 at none
  rw [BitVec.toNat_add]
  omega

/-- From an even address on, all fix-ups are at even addresses. -/
theorem fixUpPlaces_even (table : List Byte) (address : Uint32) (places : List Uint32)
    (accepted : fixUpPlaces table address = some places) (even : address.toNat % 2 = 0) :
    ∀ place ∈ places, place.toNat % 2 = 0 := by
  fun_induction fixUpPlaces table address generalizing places with
  | case1 address =>
    obtain rfl : [] = places := Option.some.inj accepted
    exact fun place member => absurd member (by simp)
  | case2 only address => exact absurd accepted (by simp)
  | case3 high low address d isLong first second third fourth rest d' odd =>
    exact absurd accepted (by simp)
  | case4 high low address d isLong first second third fourth rest d' multiple inductionHypothesis =>
    obtain ⟨others, later, rfl⟩ := Option.map_eq_some_iff.mp accepted
    have next := even_add even multiple
    exact List.forall_mem_cons.mpr ⟨next, inductionHypothesis others later next⟩
  | case5 high low rest address d isLong short => exact absurd accepted (by simp)
  | case6 high low rest address d short odd => exact absurd accepted (by simp)
  | case7 high low rest address d short multiple inductionHypothesis =>
    obtain ⟨others, later, rfl⟩ := Option.map_eq_some_iff.mp accepted
    have next := even_add even multiple
    exact List.forall_mem_cons.mpr ⟨next, inductionHypothesis others later next⟩

/-- The file has an HU header, all of text and data, and a table that is accepted,
with fix-ups at these addresses. -/
structure Accepted (file : List Byte) (loadAddress : Uint32) (places : List Uint32) : Prop where
  long : 64 ≤ file.length
  magic : file.take 2 = [0x48, 0x55]
  image : imageSize (header file) ≤ (file.drop 64).length
  table : (header file).relocSize.toNat ≤
    ((file.drop 64).drop (imageSize (header file))).length
  fixUps : fixUpPlaces (((file.drop 64).drop (imageSize (header file))).take
    (header file).relocSize.toNat) loadAddress = some places

/-- The text and data of a file. -/
def fileImage (file : List Byte) : List Byte := (file.drop 64).take (imageSize (header file))

/-- What the loader does with an accepted file. -/
def loadAccepted {M : Type} [Bus M] (name file : List Byte) (places : List Uint32)
    (loadAddress : Uint32) : DosExecContext.Method M Uint32 := do
  write loadAddress (fileImage file)
  fixUpAll (header file).base loadAddress places
  put32 (loadAddress - 0x100 + 0x80) 0
  putString (loadAddress - 0x100 + 0xc4) name
  setA 0 (loadAddress - 0x100)
  setA 1 (loadAddress + (header file).textSize + (header file).dataSize + (header file).bssSize)
  pure (loadAddress + (header file).startOffset)

/-- An accepted file is loaded without the checks. -/
theorem loadExecutable_accepted {M : Type} [Bus M] {host : Host} {name file : List Byte}
    {address : Uint32} {places : List Uint32} (found : host name = some file)
    (accepted : Accepted file (address + 0xf0) places) :
    (loadExecutable host name address : DosExecContext.Method M Uint32) =
      loadAccepted name file places (address + 0xf0) := by
  have long := accepted.long
  have image := accepted.image
  have table := accepted.table
  rw [loadExecutable, found]
  simp only
  rw [if_neg (by omega), if_neg (not_not.mpr accepted.magic), loadImage]
  simp only
  rw [if_neg (by omega), if_neg (by omega), fixUp_places _ _ _ _ _ accepted.fixUps]
  rfl

/-- The log of a context's address space. -/
def writes {M : Type} (context : DosExecContext (Recording M)) : List Span :=
  context.allocator.as.writes

section Logs

variable {M α β : Type}

/-- A program that returns has added these runs to the log. -/
def Writes (program : DosExecContext.Method (Recording M) α) (spans : List Span) : Prop :=
  ∀ before value after, Returns program before value after → writes after = writes before ++ spans

/-- A program writes what its parts do. -/
theorem writes_bind {first : DosExecContext.Method (Recording M) α}
    {next : α → DosExecContext.Method (Recording M) β} {spans later : List Span}
    (one : Writes first spans) (two : ∀ value, Writes (next value) later) :
    Writes (first >>= next) (spans ++ later) := by
  intro before value after returned
  obtain ⟨_, middle, done, rest⟩ := returns_bind.mp returned
  rw [two _ middle value after rest, one before _ middle done, List.append_assoc]

/-- An answer writes nothing. -/
theorem writes_pure (value : α) : Writes (pure value : DosExecContext.Method (Recording M) α) [] := by
  intro before result after returned
  rw [(returns_pure.mp returned).2, List.append_nil]

/-- A register is no memory. -/
theorem writes_setA (index : Fin 8) (value : Uint32) :
    Writes (setA index value : DosExecContext.Method (Recording M) Unit) [] := by
  intro before done after returned
  rw [setA, returns_update] at returned
  rw [← returned, writes, writes, List.append_nil]

variable [Bus M]

/-- Reading writes nothing. -/
theorem writes_get32 (address : Uint32) :
    Writes (get32 address : DosExecContext.Method (Recording M) Uint32) [] := by
  intro before value after returned
  rw [get32, returns_atomic] at returned
  rw [← (Prod.mk.inj returned).2, List.append_nil]

/-- A long word is written to four bytes. -/
theorem writes_put32 (address value : Uint32) :
    Writes (put32 address value : DosExecContext.Method (Recording M) Unit) [(address.toNat, 4)] := by
  intro before done after returned
  rw [put32, access, returns_atomic] at returned
  rw [← (Prod.mk.inj returned).2]
  rfl

/-- Bytes are written one behind the other. -/
theorem writes_write (address : Uint32) (bytes : List Byte) :
    Writes (write address bytes : DosExecContext.Method (Recording M) Unit)
      [(address.toNat, bytes.length)] := by
  intro before done after returned
  rw [write, access, returns_atomic] at returned
  rw [← (Prod.mk.inj returned).2]
  rfl

/-- A string is written with its terminator. -/
theorem writes_putString (address : Uint32) (bytes : List Byte) :
    Writes (putString address bytes : DosExecContext.Method (Recording M) Unit)
      [(address.toNat, bytes.length + 1)] := by
  intro before done after returned
  rw [putString, access, returns_atomic] at returned
  rw [← (Prod.mk.inj returned).2]
  rfl

/-- Each fix-up writes its long word. -/
theorem writes_fixUpAll (base loadAddress : Uint32) (places : List Uint32) :
    Writes (fixUpAll base loadAddress places : DosExecContext.Method (Recording M) Unit)
      (places.map fun place => (place.toNat, 4)) := by
  induction places with
  | nil => exact writes_pure ()
  | cons place rest inductionHypothesis =>
    have one : Writes (fixUpAt base loadAddress place : DosExecContext.Method (Recording M) Unit)
        ([] ++ [(place.toNat, 4)]) :=
      writes_bind (writes_get32 place) fun value => writes_put32 place (value + loadAddress - base)
    exact writes_bind one fun _ => inductionHypothesis

end Logs

section Effects

variable {M α β : Type} [Bus M]

/-- In memory of this size a program returns, and this is what it makes of the
bytes. -/
def Lays (room : Nat) (program : DosExecContext.Method M α) (effect : Store → Store) : Prop :=
  ∀ before : DosExecContext M, room ≤ Bus.size before.allocator.as →
    ∃ value after, Returns program before value after ∧
      Bus.size after.allocator.as = Bus.size before.allocator.as ∧
      Bus.byte after.allocator.as = effect (Bus.byte before.allocator.as)

/-- A program lays down what its parts do, in order. -/
theorem lays_bind {room : Nat} {first : DosExecContext.Method M α}
    {next : α → DosExecContext.Method M β} {effect later : Store → Store}
    (one : Lays room first effect) (two : ∀ value, Lays room (next value) later) :
    Lays room (first >>= next) (fun store => later (effect store)) := by
  intro before enough
  obtain ⟨value, middle, done, size, bytes⟩ := one before enough
  obtain ⟨result, after, rest, sizeAfter, bytesAfter⟩ := two value middle (by rw [size]; exact enough)
  exact ⟨result, after, returns_bind.mpr ⟨value, middle, done, rest⟩, sizeAfter.trans size,
    by rw [bytesAfter, bytes]⟩

/-- An answer lays down nothing. -/
theorem lays_pure (room : Nat) (value : α) :
    Lays room (pure value : DosExecContext.Method M α) id :=
  fun before _ => ⟨value, before, returns_pure.mpr ⟨rfl, rfl⟩, rfl, rfl⟩

/-- Nor does the change of a register. -/
theorem lays_setA (room : Nat) (index : Fin 8) (value : Uint32) :
    Lays room (setA index value : DosExecContext.Method M Unit) id :=
  fun _ _ => ⟨(), _, returns_update.mpr rfl, rfl, rfl⟩

/-- A write that stores its bytes in memory lays them down. -/
theorem lays_access {room start : Nat} {bytes : List Byte} {operation : M → Ending Thrown M Unit}
    (stores : ∀ memory, room ≤ Bus.size memory → ∃ after, operation memory = (.ok (), after) ∧
      Stored Bus.size Bus.byte memory start bytes after) :
    Lays room (access operation) (lay · start bytes) := by
  intro before enough
  obtain ⟨memory, done, stored⟩ := stores before.allocator.as enough
  refine ⟨(), { before with allocator := { before.allocator with as := memory } }, ?_, stored.size,
    stored.byte⟩
  rw [access, returns_atomic]
  simp only [done]

/-- Bytes are laid down where they are written. -/
theorem lays_write {room : Nat} (address : Uint32) (bytes : List Byte)
    (inside : address.toNat + bytes.length ≤ room) :
    Lays room (write address bytes : DosExecContext.Method M Unit) (lay · address.toNat bytes) :=
  lays_access fun memory enough => Bus.write_main address bytes memory (by omega)

/-- A string is laid down with its terminator. -/
theorem lays_putString {room : Nat} (address : Uint32) (bytes : List Byte)
    (inside : address.toNat + bytes.length + 1 ≤ room) :
    Lays room (putString address bytes : DosExecContext.Method M Unit)
      (lay · address.toNat (bytes ++ [0])) :=
  lays_access fun memory enough => Bus.putString_main address bytes memory (by omega)

/-- A long word is laid down with its high byte first. -/
theorem lays_put32 [EvenBus M] {room : Nat} (address value : Uint32) (even : address.toNat % 2 = 0)
    (inside : address.toNat + 4 ≤ room) :
    Lays room (put32 address value : DosExecContext.Method M Unit)
      (lay · address.toNat (encode 4 value.toNat)) :=
  lays_access fun memory enough => EvenBus.put32_even address value memory even (by omega)

/-- A relocated long word. -/
def relocateAt (base loadAddress : Uint32) (store : Store) (place : Uint32) : Store :=
  lay store place.toNat (encode 4
    (BitVec.ofNat 32 (decode (slice store place.toNat 4)) + loadAddress - base).toNat)

/-- Bytes with the long words at some addresses relocated, one after the other. -/
def relocate (base loadAddress : Uint32) (places : List Uint32) (store : Store) : Store :=
  places.foldl (relocateAt base loadAddress) store

/-- A fix-up relocates the long word at its address. -/
theorem lays_fixUpAt [EvenBus M] {room : Nat} (base loadAddress place : Uint32)
    (even : place.toNat % 2 = 0) (inside : place.toNat + 4 ≤ room) :
    Lays room (fixUpAt base loadAddress place : DosExecContext.Method M Unit)
      (relocateAt base loadAddress · place) := by
  intro before enough
  have read := EvenBus.get32_even before.allocator.as place even (by omega)
  obtain ⟨done, after, stored, size, bytes⟩ := lays_put32 place
    (BitVec.ofNat 32 (decode (slice (Bus.byte before.allocator.as) place.toNat 4)) + loadAddress - base)
    even inside before enough
  refine ⟨done, after, returns_bind.mpr ⟨_, before, ?_, stored⟩, size, bytes⟩
  rw [get32, returns_atomic, read]

/-- Fix-ups lay down the relocated long words. -/
theorem lays_fixUpAll [EvenBus M] {room : Nat} (base loadAddress : Uint32) (places : List Uint32)
    (even : ∀ place ∈ places, place.toNat % 2 = 0)
    (inside : ∀ place ∈ places, place.toNat + 4 ≤ room) :
    Lays room (fixUpAll base loadAddress places : DosExecContext.Method M Unit)
      (relocate base loadAddress places) := by
  induction places with
  | nil => exact lays_pure room ()
  | cons place rest inductionHypothesis =>
    obtain ⟨evenFirst, evenRest⟩ := List.forall_mem_cons.mp even
    obtain ⟨insideFirst, insideRest⟩ := List.forall_mem_cons.mp inside
    have both : Lays room (fixUpAll base loadAddress (place :: rest) : DosExecContext.Method M Unit)
        fun store => relocate base loadAddress rest (relocateAt base loadAddress store place) :=
      lays_bind (lays_fixUpAt base loadAddress place evenFirst insideFirst) fun _ =>
        inductionHypothesis evenRest insideRest
    exact both

end Effects

/-- The writes outside the image and the fix-ups: the environment and argument
pointers before them, the cleared long word and the path name after them. -/
def pspWrites (base : Nat) (name : List Byte) : List Span :=
  [(base + 0x10, 4), (base + 0x20, 4), (base + 0x80, 4), (base + 0xc4, name.length + 1)]

/-- Everything that a load writes into a block, in order. -/
def loadWrites (base : Nat) (file name : List Byte) (places : List Uint32) : List Span :=
  (pspWrites base name).take 2 ++ (base + 0x100, imageSize (header file)) ::
    places.map (fun place => (place.toNat, 4)) ++ (pspWrites base name).drop 2

/-- The relocated image, in memory where the two pointers have been stored. -/
def loadedImage (base : Uint32) (file : List Byte) (places : List Uint32) (arg env : Uint32)
    (store : Store) : Store :=
  relocate (header file).base (base + 0x100) places
    (lay (lay (lay store (base.toNat + 0x10) (encode 4 env.toNat)) (base.toNat + 0x20)
      (encode 4 arg.toNat)) (base.toNat + 0x100) (fileImage file))

/-- What a load makes of memory. -/
def loadEffect (base : Uint32) (file name : List Byte) (places : List Uint32) (arg env : Uint32)
    (store : Store) : Store :=
  lay (lay (loadedImage base file places arg env store) (base.toNat + 0x80) (encode 4 0))
    (base.toNat + 0xc4) (name ++ [0])

/-- Text, data and bss, the fix-ups and the path name fit a block. -/
structure Fits (block : Block) (file name : List Byte) (places : List Uint32) : Prop where
  region : block.addr.toNat + 0x100 + imageSize (header file) + (header file).bssSize.toNat ≤
    block.brk.toNat
  fixUps : ∀ place ∈ places, block.addr.toNat + 0x10 ≤ place.toNat ∧ place.toNat + 4 ≤ block.brk.toNat
  path : block.addr.toNat + 0xc4 + name.length + 1 ≤ block.brk.toNat

/-- The path name ends before the image, unless there is none. -/
def Short (file name : List Byte) : Prop := imageSize (header file) = 0 ∨ name.length < 60

/-- What a load should do: every byte written lies in the block and outside its
header, text, data and bss end in the block, the writes outside the image do not
reach it, and it is the relocated image of the file. -/
structure Contained (block : Block) (file name : List Byte) (places : List Uint32)
    (arg env : Uint32) (before after : Store) : Prop where
  inside : ∀ span ∈ loadWrites block.addr.toNat file name places, ∀ index, Covers span index →
    block.addr.toNat + 0x10 ≤ index ∧ index < block.brk.toNat
  region : block.addr.toNat + 0x100 + imageSize (header file) + (header file).bssSize.toNat ≤
    block.brk.toNat
  apart : ∀ span ∈ pspWrites block.addr.toNat name, ∀ index, Covers span index →
    ¬ Covers (block.addr.toNat + 0x100, imageSize (header file)) index
  image : slice after (block.addr.toNat + 0x100) (imageSize (header file)) =
    slice (loadedImage block.addr file places arg env before) (block.addr.toNat + 0x100)
      (imageSize (header file))

/-- The image of an accepted file is as long as its header says. -/
theorem fileImage_length {file : List Byte} {loadAddress : Uint32} {places : List Uint32}
    (accepted : Accepted file loadAddress places) :
    (fileImage file).length = imageSize (header file) := by
  rw [fileImage, List.length_take, Nat.min_eq_left accepted.image]

/-- A load writes the long word of every fix-up. -/
theorem fixUp_written (base : Nat) (file name : List Byte) {places : List Uint32} {place : Uint32}
    (applies : place ∈ places) : (place.toNat, 4) ∈ loadWrites base file name places := by
  simp only [loadWrites, List.mem_append, List.mem_cons, List.mem_map]
  exact Or.inl (Or.inr (Or.inr ⟨place, applies, rfl⟩))

/-- It writes outside the image too. -/
theorem psp_written (base : Nat) (file name : List Byte) (places : List Uint32) {span : Span}
    (member : span ∈ pspWrites base name) : span ∈ loadWrites base file name places := by
  rw [← List.take_append_drop 2 (pspWrites base name)] at member
  simp only [loadWrites, List.mem_append]
  exact (List.mem_append.mp member).imp Or.inl id

/-- Addresses in a block that starts low enough do not wrap. -/
theorem address_toNat (base offset : Uint32) (low : base.toNat < 0x1000000)
    (small : offset.toNat ≤ 0x100) : (base + offset).toNat = base.toNat + offset.toNat := by
  bv_omega

section Loads

variable {M : Type} [Bus M] {host : Host} {file name : List Byte} {places : List Uint32}
  {base : Uint32}

/-- `load_into` as its writes, in order, and the registers it sets. -/
theorem loadInto_accepted (found : host name = some file) (accepted : Accepted file (base + 0x100) places)
    (arg env : Uint32) :
    (loadInto host name arg env (base + 0x10) : DosExecContext.Method M Unit) = (do
      put32 (base + 0x10) env
      put32 (base + 0x20) arg
      write (base + 0x100) (fileImage file)
      fixUpAll (header file).base (base + 0x100) places
      put32 (base + 0x80) 0
      putString (base + 0xc4) name
      setA 0 base
      setA 1 (base + 0x100 + (header file).textSize + (header file).dataSize + (header file).bssSize)
      setA 2 arg
      setA 3 env
      setA 4 (base + 0x100 + (header file).startOffset)) := by
  have start : base + 0x10 + 0xf0 = base + 0x100 := by bv_omega
  have psp : base + 0x100 - 0x100 = base := by bv_omega
  rw [loadInto, BitVec.add_sub_cancel, loadExecutable_accepted found (start ▸ accepted), start]
  simp only [loadAccepted, psp, bind_assoc, pure_bind]

/-- The log of a load. -/
theorem loadInto_writes (found : host name = some file) (accepted : Accepted file (base + 0x100) places)
    (arg env : Uint32) (low : base.toNat < 0x1000000) :
    Writes (loadInto host name arg env (base + 0x10) : DosExecContext.Method (Recording M) Unit)
      (loadWrites base.toNat file name places) := by
  have image : ((base + 0x100).toNat, (fileImage file).length) =
      (base.toNat + 0x100, imageSize (header file)) := by
    rw [address_toNat base 0x100 low (by decide), fileImage_length accepted]
    rfl
  have registers : Writes (do
      setA 0 base
      setA 1 (base + 0x100 + (header file).textSize + (header file).dataSize + (header file).bssSize)
      setA 2 arg
      setA 3 env
      setA 4 (base + 0x100 + (header file).startOffset) :
      DosExecContext.Method (Recording M) Unit) [] :=
    writes_bind (writes_setA 0 _) fun _ => writes_bind (writes_setA 1 _) fun _ =>
      writes_bind (writes_setA 2 _) fun _ => writes_bind (writes_setA 3 _) fun _ => writes_setA 4 _
  have log := writes_bind (writes_put32 (M := M) (base + 0x10) env) fun _ =>
    writes_bind (writes_put32 (base + 0x20) arg) fun _ =>
      writes_bind (writes_write (base + 0x100) (fileImage file)) fun _ =>
        writes_bind (writes_fixUpAll (header file).base (base + 0x100) places) fun _ =>
          writes_bind (writes_put32 (base + 0x80) 0) fun _ =>
            writes_bind (writes_putString (base + 0xc4) name) fun _ => registers
  rw [image, address_toNat base 0x10 low (by decide), address_toNat base 0x20 low (by decide),
    address_toNat base 0x80 low (by decide), address_toNat base 0xc4 low (by decide)] at log
  rw [loadInto_accepted found accepted]
  exact log

/-- A load that writes in memory only returns, and this is what it makes of memory. -/
theorem loadInto_lays [EvenBus M] {room : Nat} (found : host name = some file)
    (accepted : Accepted file (base + 0x100) places) (arg env : Uint32) (aligned : Aligned base)
    (low : base.toNat < 0x1000000)
    (inside : ∀ span ∈ loadWrites base.toNat file name places, span.1 + span.2 ≤ room) :
    Lays room (loadInto host name arg env (base + 0x10) : DosExecContext.Method M Unit)
      (loadEffect base file name places arg env) := by
  have size := fileImage_length accepted
  have psp (span : Span) (member : span ∈ pspWrites base.toNat name) : span.1 + span.2 ≤ room :=
    inside span (psp_written base.toNat file name places member)
  have environment := psp (base.toNat + 0x10, 4) (by simp [pspWrites])
  have argument := psp (base.toNat + 0x20, 4) (by simp [pspWrites])
  have cleared := psp (base.toNat + 0x80, 4) (by simp [pspWrites])
  have path := psp (base.toNat + 0xc4, name.length + 1) (by simp [pspWrites])
  have image := inside (base.toNat + 0x100, imageSize (header file)) (by simp [loadWrites])
  unfold Aligned at aligned
  have at10 : (base + 0x10).toNat = base.toNat + 0x10 := address_toNat _ _ low (by decide)
  have at20 : (base + 0x20).toNat = base.toNat + 0x20 := address_toNat _ _ low (by decide)
  have at80 : (base + 0x80).toNat = base.toNat + 0x80 := address_toNat _ _ low (by decide)
  have atC4 : (base + 0xc4).toNat = base.toNat + 0xc4 := address_toNat _ _ low (by decide)
  have at100 : (base + 0x100).toNat = base.toNat + 0x100 := address_toNat _ _ low (by decide)
  have even : ∀ place ∈ places, place.toNat % 2 = 0 :=
    fixUpPlaces_even _ _ places accepted.fixUps (by omega)
  have registers : Lays room (do
      setA 0 base
      setA 1 (base + 0x100 + (header file).textSize + (header file).dataSize + (header file).bssSize)
      setA 2 arg
      setA 3 env
      setA 4 (base + 0x100 + (header file).startOffset) : DosExecContext.Method M Unit) id :=
    lays_bind (lays_setA room 0 _) fun _ => lays_bind (lays_setA room 1 _) fun _ =>
      lays_bind (lays_setA room 2 _) fun _ => lays_bind (lays_setA room 3 _) fun _ =>
        lays_setA room 4 _
  have effect := lays_bind (lays_put32 (M := M) (base + 0x10) env (by omega) (by omega)) fun _ =>
    lays_bind (lays_put32 (base + 0x20) arg (by omega) (by omega)) fun _ =>
      lays_bind (lays_write (base + 0x100) (fileImage file) (by omega)) fun _ =>
        lays_bind (lays_fixUpAll (header file).base (base + 0x100) places even
            fun place applies => inside _ (fixUp_written base.toNat file name applies)) fun _ =>
          lays_bind (lays_put32 (base + 0x80) 0 (by omega) (by omega)) fun _ =>
            lays_bind (lays_putString (base + 0xc4) name (by omega)) fun _ => registers
  rw [loadInto_accepted found accepted]
  simp only [at10, at20, at80, atC4, at100] at effect
  exact effect

end Loads

section Containment

variable {block : Block} {file name : List Byte} {places : List Uint32} {arg env : Uint32}
  {before after : Store}

/-- A load that keeps to its block fits it, and its path name is short. -/
theorem contained_fits (contained : Contained block file name places arg env before after) :
    Fits block file name places ∧ Short file name := by
  have inside := contained.inside
  have apart := contained.apart (block.addr.toNat + 0xc4, name.length + 1) (by simp [pspWrites])
  refine ⟨⟨contained.region, fun place applies => ?_, ?_⟩, ?_⟩
  · have written := fixUp_written block.addr.toNat file name applies
    have first := (inside _ written place.toNat (by simp only [Covers]; omega)).1
    have last := (inside _ written (place.toNat + 3) (by simp only [Covers]; omega)).2
    omega
  · have written := psp_written block.addr.toNat file name places
      (show (block.addr.toNat + 0xc4, name.length + 1) ∈ _ by simp [pspWrites])
    have last := (inside _ written (block.addr.toNat + 0xc4 + name.length)
      (by simp only [Covers]; omega)).2
    omega
  · by_contra long
    rw [Short, not_or] at long
    exact apart (block.addr.toNat + 0x100) (by simp only [Covers]; omega) (by simp only [Covers]; omega)

/-- What a load that fits its block writes lies in it. -/
theorem fits_inside (fits : Fits block file name places) :
    ∀ span ∈ loadWrites block.addr.toNat file name places,
      block.addr.toNat + 0x10 ≤ span.1 ∧ span.1 + span.2 ≤ block.brk.toNat := by
  obtain ⟨region, fixUps, path⟩ := fits
  have psp : ∀ span ∈ pspWrites block.addr.toNat name,
      block.addr.toNat + 0x10 ≤ span.1 ∧ span.1 + span.2 ≤ block.brk.toNat := by
    intro span member
    simp only [pspWrites, List.mem_cons, List.not_mem_nil, or_false] at member
    rcases member with rfl | rfl | rfl | rfl <;> dsimp only <;> omega
  intro span member
  simp only [loadWrites, List.mem_append, List.mem_cons, List.mem_map] at member
  rcases member with (first | rfl | ⟨place, member, rfl⟩) | last
  · exact psp span (List.mem_of_mem_take first)
  · dsimp only
    omega
  · exact fixUps place member
  · exact psp span (List.mem_of_mem_drop last)

/-- A short path name leaves the image as it is. -/
theorem short_image (short : Short file name)
    (loaded : after = loadEffect block.addr file name places arg env before) :
    slice after (block.addr.toNat + 0x100) (imageSize (header file)) =
      slice (loadedImage block.addr file places arg env before) (block.addr.toNat + 0x100)
        (imageSize (header file)) := by
  unfold Short at short
  rw [loaded, loadEffect]
  rcases short with none | short
  · rw [none]
    rfl
  · have path : block.addr.toNat + 0xc4 + (name ++ [0]).length ≤ block.addr.toNat + 0x100 := by
      rw [List.length_append, List.length_singleton]
      omega
    have cleared : block.addr.toNat + 0x80 + (encode 4 0).length ≤ block.addr.toNat + 0x100 := by
      rw [encode_length]
      omega
    rw [slice_lay_disjoint _ _ _ _ _ (Or.inr path), slice_lay_disjoint _ _ _ _ _ (Or.inr cleared)]

/-- A load that fits its block with a short path name keeps to it. -/
theorem fits_contained (fits : Fits block file name places) (short : Short file name)
    (loaded : after = loadEffect block.addr file name places arg env before) :
    Contained block file name places arg env before after := by
  refine ⟨fun span member index covers => ?_, fits.region, fun span member index covers => ?_,
    short_image short loaded⟩
  · have bounds := fits_inside fits span member
    simp only [Covers] at covers
    omega
  · unfold Short at short
    simp only [pspWrites, List.mem_cons, List.not_mem_nil, or_false] at member
    rcases member with rfl | rfl | rfl | rfl <;> simp only [Covers] at covers ⊢ <;> omega

end Containment

section Exactness

variable {M : Type} [Bus M] {blocks : List Block}

/-- The block that `alloc_largest` makes for the current process, and the list with it. With the
root block at the null address it makes none. -/
def granted (context : DosExecContext M) (blocks : List Block) : Option (Block × List Block) :=
  if context.allocator.rootBlock = 0 then none
  else fillWidest (context.currentPdb - 0x10) 0x10 context.allocator.limit blocks

/-- The largest allocation, as the list says. -/
theorem mallocLargest_granted {context : DosExecContext M} (kept : Kept context.allocator blocks)
    (owned : context.currentPdb - 0x10 ∈ keys blocks) :
    match granted context blocks with
    | none => Returns mallocLargest context (svalue 0x82000000) context
    | some (block, others) => ∃ given, Returns mallocLargest context (svalue (block.addr + 0x10)) given ∧
        Keeps (keys others) context.allocator given.allocator ∧ Holds given.allocator others ∧
        block ∈ others ∧ block.addr ∉ keys blocks := by
  rw [granted]
  by_cases null : context.allocator.rootBlock = 0
  · rw [if_pos null]
    exact returns_mallocLargest.mpr ⟨_, allocLargest_inert (kept.inert null) context.currentPdb, rfl⟩
  · rw [if_neg null]
    have spec := allocLargest_spec blocks context.currentPdb (kept_holds kept null) owned
    cases found : fillWidest (context.currentPdb - 0x10) 0x10 context.allocator.limit blocks with
    | none =>
      rw [found] at spec
      exact returns_mallocLargest.mpr ⟨_, spec, rfl⟩
    | some result =>
      obtain ⟨added, rest⟩ := result
      rw [found] at spec
      obtain ⟨after, called, held, frame⟩ := spec
      obtain ⟨upper, below, lower, rfl, rfl, -⟩ := fillWidest_some found
      exact ⟨_, returns_mallocLargest.mpr ⟨after, called, rfl⟩, frame, held,
        List.mem_append_cons_self, stacked_alone held.sound.stacked⟩

/-- A largest allocation that succeeds gives a block of a sound list. -/
theorem mallocLargest_gives {context given : DosExecContext M} {code : Int}
    (kept : Kept context.allocator blocks) (owned : context.currentPdb - 0x10 ∈ keys blocks)
    (allocated : Returns mallocLargest context code given) (success : 0 ≤ code) :
    ∃ block others, Holds given.allocator others ∧ block ∈ others ∧
      BitVec.ofInt 32 code = block.addr + 0x10 := by
  have spec := mallocLargest_granted kept owned
  cases found : granted context blocks with
  | none =>
    rw [found] at spec
    obtain ⟨rfl, -⟩ := returns_unique allocated spec
    exact absurd success (by decide)
  | some result =>
    obtain ⟨block, others⟩ := result
    rw [found] at spec
    obtain ⟨other, returned, -, held, member, -⟩ := spec
    obtain ⟨rfl, rfl⟩ := returns_unique allocated returned
    exact ⟨block, others, held, member, ofInt_svalue _⟩

/-- A load returns what its allocation does and ends as its body does. -/
theorem returns_load {context given after : DosExecContext M} {code : Int} {pdb : Uint32}
    {host : Host} {name : List Byte} {arg env : Uint32}
    (granted : Returns mallocLargest context code given) :
    Returns (load host name arg env) context pdb after ↔ BitVec.ofInt 32 code = pdb ∧
      Returns (loadInto host name arg env (BitVec.ofInt 32 code)) given () after := by
  rw [load, show Returns _ context pdb after ↔ _ from ends_after granted]
  constructor
  · intro returned
    obtain ⟨_, middle, filled, done⟩ := returns_bind.mp returned
    obtain ⟨rfl, rfl⟩ := returns_pure.mp done
    exact ⟨rfl, filled⟩
  · rintro ⟨rfl, filled⟩
    exact returns_bind.mpr ⟨_, _, filled, returns_pure.mpr ⟨rfl, rfl⟩⟩

/-- For every allocator state with a sound list in which the largest allocation
succeeds, every path name and every accepted file: a load that fits the block with
a path name shorter than 60 bytes returns; and when a load returns, its log is
known, and it keeps to the block and keeps the image intact if and only if the file
fits the block and the path name is shorter than 60 bytes or there is no image.

Proof: the log gives the conditions back; under them every write lies in main
memory, and the path name, which is written last, ends before the image. -/
theorem load_contained_iff [EvenBus M] (host : Host) (file name : List Byte) (arg env : Uint32)
    (context given : DosExecContext (Recording M)) (blocks : List Block) (code : Int)
    (kept : Kept context.allocator blocks)
    (current : context.currentPdb = context.allocator.root ∨
      Live context.allocator context.currentPdb)
    (granted : Returns mallocLargest context code given) (success : 0 ≤ code)
    (found : host name = some file) :
    ∃ block others, Kept given.allocator others ∧ block ∈ others ∧
      BitVec.ofInt 32 code = block.addr + 0x10 ∧
      ∀ places, Accepted file (block.addr + 0x100) places →
        (Fits block file name places ∧ Short file name →
          ∃ pdb after, Returns (load host name arg env) context pdb after) ∧
        ∀ pdb after, Returns (load host name arg env) context pdb after →
          writes after = writes given ++ loadWrites block.addr.toNat file name places ∧
          (Contained block file name places arg env (Bus.byte given.allocator.as)
              (Bus.byte after.allocator.as) ↔
            Fits block file name places ∧ Short file name) := by
  obtain ⟨block, others, held, member, pointer⟩ :=
    mallocLargest_gives kept (admissible_owner kept current) granted success
  obtain ⟨⟨aligned, room⟩, -⟩ := holds_inside held member
  have high := (stacked_member held.sound.stacked member).2.2
  have limit := held.room
  have bound := Bus.size_le given.allocator.as
  have lays (places : List Uint32) (accepted : Accepted file (block.addr + 0x100) places)
      (fits : Fits block file name places) :=
    loadInto_lays (M := Recording M) found accepted arg env aligned (by omega)
      (fun span member => (fits_inside fits span member).2) given (Nat.le_trans high limit)
  refine ⟨block, others, holds_kept held, member, pointer, fun places accepted => ⟨?_, ?_⟩⟩
  · rintro ⟨fits, -⟩
    obtain ⟨done, after, returned, -⟩ := lays places accepted fits
    exact ⟨_, after, (returns_load granted).mpr ⟨rfl, pointer ▸ returned⟩⟩
  · intro pdb after loaded
    obtain ⟨-, filled⟩ := (returns_load granted).mp loaded
    rw [pointer] at filled
    refine ⟨loadInto_writes found accepted arg env (by omega) given () after filled,
      contained_fits, ?_⟩
    rintro ⟨fits, short⟩
    obtain ⟨done, other, returned, -, bytes⟩ := lays places accepted fits
    obtain ⟨-, rfl⟩ := returns_unique filled returned
    exact fits_contained fits short bytes

/-- A path name of sixty bytes ends on the first byte of the image. -/
theorem loadEffect_terminator (base : Uint32) (file name : List Byte) (places : List Uint32)
    (arg env : Uint32) (store : Store) (long : name.length = 60) :
    loadEffect base file name places arg env store (base.toNat + 0x100) = 0 := by
  have last : 60 < (name ++ [0]).length := by simp [long]
  have place : base.toNat + 0x100 = base.toNat + 0xc4 + 60 := by omega
  rw [loadEffect, place, lay_inside _ _ _ 60 last, List.getElem_append_right (Nat.le_of_eq long)]
  simp [long]

/-- A file of the given text and table, with base and start offset zero. -/
def textFile (text table : List Byte) : List Byte :=
  [0x48, 0x55, 0, 0] ++ encode 4 0 ++ encode 4 0 ++ encode 4 text.length ++ encode 4 0 ++ encode 4 0 ++
    encode 4 table.length ++ List.replicate 36 0 ++ text ++ table

/-- A host that has one file under every name. -/
def oneFile (file : List Byte) : Host := fun _ => some file

/-- The header of the example. -/
theorem textFile_header (text table : List Byte) : header (textFile text table) =
    ⟨0, 0, BitVec.ofNat 32 text.length, 0, 0, BitVec.ofNat 32 table.length⟩ := by
  have number (value : Nat) :
      BitVec.ofNat 32 (decode (encode 4 value)) = BitVec.ofNat 32 value := by
    apply BitVec.eq_of_toNat_eq
    rw [decode_encode, BitVec.toNat_ofNat, BitVec.toNat_ofNat]
    exact Nat.mod_mod _ _
  have fields : header (textFile text table) = ⟨BitVec.ofNat 32 (decode (encode 4 0)),
      BitVec.ofNat 32 (decode (encode 4 0)), BitVec.ofNat 32 (decode (encode 4 text.length)),
      BitVec.ofNat 32 (decode (encode 4 0)), BitVec.ofNat 32 (decode (encode 4 0)),
      BitVec.ofNat 32 (decode (encode 4 table.length))⟩ := rfl
  rw [fields, number, number, number]
  rfl

/-- Such a file is accepted if its table is. -/
theorem textFile_accepted (text table : List Byte) (loadAddress : Uint32) (places : List Uint32)
    (textFits : text.length < 2 ^ 32) (tableFits : table.length < 2 ^ 32)
    (accepted : fixUpPlaces table loadAddress = some places) :
    Accepted (textFile text table) loadAddress places := by
  have body : (textFile text table).drop 64 = text ++ table := rfl
  have size : imageSize (header (textFile text table)) = text.length := by
    rw [textFile_header]
    simp only [imageSize, BitVec.toNat_ofNat]
    rw [Nat.mod_eq_of_lt textFits]
    rfl
  have relocSize : (header (textFile text table)).relocSize.toNat = table.length := by
    rw [textFile_header]
    simp only [BitVec.toNat_ofNat]
    exact Nat.mod_eq_of_lt tableFits
  refine ⟨?_, rfl, ?_, ?_, ?_⟩
  · simp only [textFile, List.length_append, List.length_cons, List.length_nil, encode_length,
      List.length_replicate]
    omega
  · rw [size, body, List.length_append]
    omega
  · rw [size, body, List.drop_left, relocSize]
  · rw [size, body, List.drop_left, relocSize, List.take_length]
    exact accepted

/-- The context of a megabyte with a log before its first load. -/
theorem megabyte_context : ∃ context given : DosExecContext (Recording MainMemory.ByteMemory),
    Kept context.allocator [⟨0x8000, 0, 0x8010⟩] ∧ context.currentPdb = context.allocator.root ∧
      Returns mallocLargest context 0x8020 given ∧
      Holds given.allocator [⟨0x8010, 0x8000, 0x100000⟩, ⟨0x8000, 0, 0x8010⟩] := by
  obtain ⟨allocator, -, holds, limit, root⟩ :=
    megabyte_holds (⟨megabyte, []⟩ : Recording MainMemory.ByteMemory) (Nat.le_refl _)
  obtain ⟨after, returned, held⟩ := megabyte_allocLargest holds limit
  exact ⟨⟨allocator, 0x8010, ⟨fun _ => 0, 0, 0⟩⟩, ⟨after, 0x8010, ⟨fun _ => 0, 0, 0⟩⟩,
    holds_kept holds, by rw [Allocator.root, root]; rfl, returns_mallocLargest.mpr ⟨after, returned, rfl⟩,
    held⟩

/-- Six bytes of text with one fix-up make a complete file, -/
theorem patch_accepted :
    Accepted (textFile [0x4e, 0x71, 0, 0, 0, 8] [0, 2]) (0x8010 + 0x100) [0x8112] :=
  textFile_accepted _ _ _ _ (by decide) (by decide) (by decide)

/-- which fits the rest of a megabyte. -/
theorem patch_fits :
    Fits ⟨0x8010, 0x8000, 0x100000⟩ (textFile [0x4e, 0x71, 0, 0, 0, 8] [0, 2]) [0x61] [0x8112] := by
  refine ⟨?_, fun place member => ?_, by decide⟩
  · rw [textFile_header]
    decide
  · rw [List.mem_singleton.mp member]
    decide

/-- Six bytes of text with one fix-up, loaded under a short name. -/
theorem load_contained_iff_megabyte :
    ∃ context given after : DosExecContext (Recording MainMemory.ByteMemory),
      ∃ pdb, Returns (load (oneFile (textFile [0x4e, 0x71, 0, 0, 0, 8] [0, 2])) [0x61] 0 0)
          context pdb after ∧
        Contained ⟨0x8010, 0x8000, 0x100000⟩ (textFile [0x4e, 0x71, 0, 0, 0, 8] [0, 2]) [0x61] [0x8112]
          0 0 (Bus.byte given.allocator.as) (Bus.byte after.allocator.as) := by
  obtain ⟨context, given, kept, current, granted, held⟩ := megabyte_context
  obtain ⟨block, others, left, member, pointer, loads⟩ := load_contained_iff
    (oneFile (textFile [0x4e, 0x71, 0, 0, 0, 8] [0, 2])) _ [0x61] 0 0 context given _ 0x8020 kept
    (Or.inl current) granted (by decide) rfl
  obtain rfl := kept_unique left (holds_kept held)
  obtain rfl : block = ⟨0x8010, 0x8000, 0x100000⟩ := by
    rcases List.mem_pair.mp member with rfl | rfl
    · rfl
    · exact absurd pointer (by decide)
  have short : Short (textFile [0x4e, 0x71, 0, 0, 0, 8] [0, 2]) [0x61] := Or.inr (by decide)
  obtain ⟨returns, contains⟩ := loads [0x8112] patch_accepted
  obtain ⟨pdb, after, returned⟩ := returns ⟨patch_fits, short⟩
  exact ⟨context, given, after, pdb, returned,
    (contains pdb after returned).2.mpr ⟨patch_fits, short⟩⟩

/-- Two bytes of text, loaded under a path name of sixty bytes: the terminator of
the name replaces the first byte of the text. -/
theorem long_path_damages_image :
    ∃ context given after : DosExecContext (Recording MainMemory.ByteMemory),
      Kept context.allocator [⟨0x8000, 0, 0x8010⟩] ∧ context.currentPdb = context.allocator.root ∧
      Returns mallocLargest context 0x8020 given ∧
      Kept given.allocator [⟨0x8010, 0x8000, 0x100000⟩, ⟨0x8000, 0, 0x8010⟩] ∧
      Accepted (textFile [0x4e, 0x75] []) (0x8010 + 0x100) [] ∧
      Returns (load (oneFile (textFile [0x4e, 0x75] [])) (List.replicate 60 0x61) 0 0) context
        0x8020 after ∧
      Bus.byte after.allocator.as 0x8110 = 0 ∧
      ¬ Contained ⟨0x8010, 0x8000, 0x100000⟩ (textFile [0x4e, 0x75] []) (List.replicate 60 0x61) [] 0 0
        (Bus.byte given.allocator.as) (Bus.byte after.allocator.as) := by
  obtain ⟨context, given, kept, current, granted, held⟩ := megabyte_context
  have accepted : Accepted (textFile [0x4e, 0x75] []) (0x8010 + 0x100) [] :=
    textFile_accepted _ _ _ _ (by decide) (by decide) (by decide)
  have size : imageSize (header (textFile [0x4e, 0x75] [])) = 2 := by
    rw [textFile_header]
    decide
  have fits : Fits ⟨0x8010, 0x8000, 0x100000⟩ (textFile [0x4e, 0x75] [])
      (List.replicate 60 0x61) [] := by
    refine ⟨?_, fun place member => absurd member List.not_mem_nil, ?_⟩
    · rw [textFile_header]
      decide
    · rw [List.length_replicate]
      decide
  have inList : (⟨0x8010, 0x8000, 0x100000⟩ : Block) ∈
      [⟨0x8010, 0x8000, 0x100000⟩, ⟨0x8000, 0, 0x8010⟩] := List.mem_cons_self
  have room := held.room
  have high := (stacked_member held.sound.stacked inList).2.2
  have found : oneFile (textFile [0x4e, 0x75] []) (List.replicate 60 0x61) =
      some (textFile [0x4e, 0x75] []) := rfl
  have lays := loadInto_lays (M := Recording MainMemory.ByteMemory) found accepted 0 0
    (show Aligned (0x8010 : Uint32) from rfl) (by decide)
    (fun span member => (fits_inside fits span member).2) given (Nat.le_trans high room)
  obtain ⟨done, after, returned, -, bytes⟩ := lays
  refine ⟨context, given, after, kept, current, granted, holds_kept held, accepted,
    (returns_load granted).mpr ⟨rfl, returned⟩, ?_, fun contained => ?_⟩
  · rw [bytes]
    exact loadEffect_terminator 0x8010 _ _ _ _ _ _ List.length_replicate
  · have long := (contained_fits contained).2
    rw [Short, size, List.length_replicate] at long
    omega

end Exactness

end Vx68k.ProgramLoad
