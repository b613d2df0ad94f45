import Vx68k.FileDescriptors

/-!
# Files hold what is written to them

Bytes go to a file in blocks of any lengths through any descriptors that share it, and come back
in other blocks. The file and the memory are as after one write and one read.
-/

namespace Vx68k.FileBlocks

open Programs ByteStores FileSystem FileHandles OpenFiles PositionedFiles FileTransfers

/-- One block after the other: the descriptor, the address and the length of each. -/
def blocks (start : Nat) : List (Uint16 × Nat) → List (Uint16 × Uint32 × Uint32)
  | [] => []
  | (fd, count) :: rest =>
    (fd, BitVec.ofNat 32 start, BitVec.ofNat 32 count) :: blocks (start + count) rest

/-- The length of all blocks. -/
def extent (parts : List (Uint16 × Nat)) : Nat := (parts.map Prod.snd).sum

/-- Requests that write blocks from a place in memory on. -/
def writes (position start : Nat) (parts : List (Uint16 × Nat)) : List Request :=
  (blocks start parts).map fun (fd, dataptr, size) => .transfer position fd false (.write dataptr size)

/-- Requests that read blocks to a place in memory. -/
def reads (position start : Nat) (parts : List (Uint16 × Nat)) : List Request :=
  (blocks start parts).map fun (fd, dataptr, size) => .transfer position fd false (.read dataptr size)

/-- Each block is transferred whole. -/
def answered (requests : List Request) (parts : List (Uint16 × Nat)) :
    List (Request × Except Stop Int) :=
  requests.zip (parts.map fun part => .ok (part.2 : Int))

section Replays

variable {ε τ α κ : Type} {reference : κ → τ → Except ε α × τ}

/-- What follows some calls starts where they have ended. -/
theorem replay_append (first second : List κ) (state : τ) :
    replay reference (first ++ second) state =
      ((replay reference first state).1 ++
        (replay reference second (replay reference first state).2).1,
        (replay reference second (replay reference first state).2).2) := by
  induction first generalizing state with
  | nil => rfl
  | cons request rest inductionHypothesis =>
    rw [List.cons_append, replay, inductionHypothesis]
    rfl

end Replays

variable {ι V M : Type} [DecidableEq ι] [Video V] [Bus M] [BlockBus M] [StringBus M]
  {table : Table ι V M} {position : Nat} {f : FilePtr} {d : Description ι}

/-- A descriptor of a context leads to an open file. -/
def LeadsTo (table : Table ι V M) (position : Nat) (f : FilePtr) (fd : Uint16) : Prop :=
  ∃ index, lookup (slotsAt position table.contexts) fd = some (index, f)

/-- The table with one file moved on, and with new contents and memory. -/
def moved (table : Table ι V M) (f : FilePtr) (d : Description ι) (content : ι → List Byte) (memory : M) :
    Table ι V M :=
  { table with outside := { table.outside with
      host := ⟨content, Function.update table.outside.host.opened (some f) (some d)⟩
      memory } }

/-- A number as a long word. -/
theorem longWord_toNat {number : Nat} (small : number < 2 ^ 32) :
    (BitVec.ofNat 32 number).toNat = number := by
  rw [BitVec.toNat_ofNat, Nat.mod_eq_of_lt small]

/-- A number as a signed long word. -/
theorem longWord_toInt {number : Nat} (small : number < 2 ^ 31) :
    (BitVec.ofNat 32 number).toInt = number := by
  have unsigned := longWord_toNat (by omega : number < 2 ^ 32)
  rw [BitVec.toInt_eq_toNat_of_lt (by rw [unsigned]; omega), unsigned]

/-- Writing one block. -/
theorem write_block {fd : Uint16} (leads : LeadsTo table position f fd) (regular : table.console f = false)
    (opened : table.outside.host.opened (some f) = some d) (writable : d.writable = true)
    (start count : Nat) (inside : start + count ≤ Bus.size table.outside.memory) :
    refer (.transfer position fd false (.write (BitVec.ofNat 32 start) (BitVec.ofNat 32 count))) table =
      (.ok count, moved table f { d with position := d.position + count }
        (Function.update table.outside.host.content d.file
          (overwrite 0 (table.outside.host.content d.file) d.position
            (slice (Bus.byte table.outside.memory) start count))) table.outside.memory) := by
  obtain ⟨index, found⟩ := leads
  have bound := Bus.size_le table.outside.memory
  have address : (BitVec.ofNat 32 start).toNat = start := longWord_toNat (by omega)
  have size : (BitVec.ofNat 32 count).toNat = count := longWord_toNat (by omega)
  have answer : longResult count = count := longWord_toInt (by omega)
  have data : BlockBus.read table.outside.memory (BitVec.ofNat 32 start) count =
      .ok (slice (Bus.byte table.outside.memory) start count) := by
    rw [BlockBus.read_main _ _ _ (by rw [address]; exact inside), address]
  simp only [refer, found, regular, Bool.false_eq_true, ↓reduceIte, Device.transfer, RegularFile.write,
    size, data, RegularFile.put, RegularFile.checked, hosted, Opened.through, opened, Call.refusedIf,
    Call.write, writable, slice_length, answer, moved]
  rfl

/-- Reading one block that is in the file. -/
theorem read_block {fd : Uint16} (leads : LeadsTo table position f fd) (regular : table.console f = false)
    (opened : table.outside.host.opened (some f) = some d) (readable : d.readable = true)
    (start count : Nat) (inside : start + count ≤ Bus.size table.outside.memory)
    (enough : count ≤ ((table.outside.host.content d.file).drop d.position).length) :
    ∃ memory, refer (.transfer position fd false (.read (BitVec.ofNat 32 start) (BitVec.ofNat 32 count)))
        table = (.ok count, moved table f { d with position := d.position + count }
          table.outside.host.content memory) ∧
      Stored Bus.size Bus.byte table.outside.memory start
        (((table.outside.host.content d.file).drop d.position).take count) memory := by
  obtain ⟨index, found⟩ := leads
  have bound := Bus.size_le table.outside.memory
  have address : (BitVec.ofNat 32 start).toNat = start := longWord_toNat (by omega)
  have size : (BitVec.ofNat 32 count).toNat = count := longWord_toNat (by omega)
  have answer : longResult count = count := longWord_toInt (by omega)
  have length : (((table.outside.host.content d.file).drop d.position).take count).length = count :=
    List.length_take_of_le enough
  obtain ⟨memory, done, stored⟩ := Bus.write_main (BitVec.ofNat 32 start)
    (((table.outside.host.content d.file).drop d.position).take count) table.outside.memory
    (by rw [address, length]; exact inside)
  rw [address] at stored
  refine ⟨memory, ?_, stored⟩
  simp only [refer, found, regular, Bool.false_eq_true, ↓reduceIte, Device.transfer, RegularFile.read,
    size, RegularFile.checked, hosted, Opened.through, opened, Call.refusedIf, Call.read, readable,
    length, done, answer, moved]
  rfl

omit [DecidableEq ι] [Video V] [Bus M] [BlockBus M] [StringBus M] in
/-- A descriptor that is moved to where it is leaves the table as it is. -/
theorem moved_self (opened : table.outside.host.opened (some f) = some d) :
    moved table f d table.outside.host.content table.outside.memory = table := by
  simp only [moved, ← opened, Function.update_eq_self]

omit [DecidableEq ι] [Video V] [Bus M] [BlockBus M] [StringBus M] in
/-- The last move counts. -/
theorem moved_moved (first second : Description ι) (content later : ι → List Byte) (memory after : M) :
    moved (moved table f first content memory) f second later after =
      moved table f second later after := by
  simp only [moved, Function.update_idem]

/-- Writing block after block is one write.

Proof: by induction on the blocks. -/
theorem writes_replay (parts : List (Uint16 × Nat)) {start : Nat}
    (leads : ∀ part ∈ parts, LeadsTo table position f part.1) (regular : table.console f = false)
    (opened : table.outside.host.opened (some f) = some d) (writable : d.writable = true)
    (inside : start + extent parts ≤ Bus.size table.outside.memory) :
    replay refer (writes position start parts) table =
      (answered (writes position start parts) parts,
        moved table f { d with position := d.position + extent parts }
          (Function.update table.outside.host.content d.file
            (overwrite 0 (table.outside.host.content d.file) d.position
              (slice (Bus.byte table.outside.memory) start (extent parts)))) table.outside.memory) := by
  induction parts generalizing table d start with
  | nil =>
    have none : slice (Bus.byte table.outside.memory) start (extent []) = [] := rfl
    rw [none, overwrite_nil, Function.update_eq_self]
    exact Prod.ext rfl (moved_self opened).symm
  | cons part rest inductionHypothesis =>
    obtain ⟨fd, count⟩ := part
    have sum : extent ((fd, count) :: rest) = count + extent rest := by simp [extent]
    rw [sum] at inside ⊢
    have first := write_block (leads _ List.mem_cons_self) regular opened writable start count (by omega)
    have later := @inductionHypothesis (moved table f { d with position := d.position + count }
      (Function.update table.outside.host.content d.file
        (overwrite 0 (table.outside.host.content d.file) d.position
          (slice (Bus.byte table.outside.memory) start count))) table.outside.memory) _ (start + count)
      (fun other member => leads other (List.mem_cons_of_mem _ member)) regular
      (Function.update_self _ _ _) writable (by rw [Nat.add_assoc]; exact inside)
    change replay refer (_ :: writes position (start + count) rest) table = _
    rw [replay, first, later, moved_moved]
    refine Prod.ext rfl ?_
    have joined := overwrite_append 0 (table.outside.host.content d.file) d.position
      (slice (Bus.byte table.outside.memory) start count)
      (slice (Bus.byte table.outside.memory) (start + count) (extent rest))
    rw [slice_length] at joined
    simp only [moved, Function.update_self, Function.update_idem, slice_add, Nat.add_assoc, joined]

/-- Reading block after block is one read, where the file has so many bytes.

Proof: by induction on the blocks. -/
theorem reads_replay (parts : List (Uint16 × Nat)) {start : Nat}
    (leads : ∀ part ∈ parts, LeadsTo table position f part.1) (regular : table.console f = false)
    (opened : table.outside.host.opened (some f) = some d) (readable : d.readable = true)
    (inside : start + extent parts ≤ Bus.size table.outside.memory)
    (enough : extent parts ≤ ((table.outside.host.content d.file).drop d.position).length) :
    ∃ memory, replay refer (reads position start parts) table =
        (answered (reads position start parts) parts,
          moved table f { d with position := d.position + extent parts } table.outside.host.content
            memory) ∧
      Stored Bus.size Bus.byte table.outside.memory start
        (((table.outside.host.content d.file).drop d.position).take (extent parts)) memory := by
  induction parts generalizing table d start with
  | nil => exact ⟨table.outside.memory, Prod.ext rfl (moved_self opened).symm, rfl, (lay_self _ start 0).symm⟩
  | cons part rest inductionHypothesis =>
    obtain ⟨fd, count⟩ := part
    have sum : extent ((fd, count) :: rest) = count + extent rest := by simp [extent]
    rw [sum] at inside enough ⊢
    obtain ⟨middle, first, stored⟩ := read_block (leads _ List.mem_cons_self) regular opened readable
      start count (by omega) (by omega)
    obtain ⟨memory, later, last⟩ := @inductionHypothesis
      (moved table f { d with position := d.position + count } table.outside.host.content middle) _
      (start + count) (fun other member => leads other (List.mem_cons_of_mem _ member)) regular
      (Function.update_self _ _ _) readable
      (by change _ ≤ Bus.size middle; rw [stored.size, Nat.add_assoc]; exact inside)
      (by
        change extent rest ≤ ((table.outside.host.content d.file).drop (d.position + count)).length
        rw [List.length_drop] at enough ⊢
        omega)
    refine ⟨memory, ?_, last.size.trans stored.size, ?_⟩
    · change replay refer (_ :: reads position (start + count) rest) table = _
      rw [replay, first, later, moved_moved]
      refine Prod.ext rfl ?_
      simp only [moved, Nat.add_assoc]
    · have length : (((table.outside.host.content d.file).drop d.position).take count).length = count := by
        exact List.length_take_of_le (by omega)
      have both := lay_append (Bus.byte table.outside.memory) start
        (((table.outside.host.content d.file).drop d.position).take count)
        (((table.outside.host.content d.file).drop (d.position + count)).take (extent rest))
      rw [length, ← List.drop_drop, ← List.take_add] at both
      rw [both, List.drop_drop, ← stored.byte]
      exact last.byte

/-- Going back to a position. -/
theorem seek_start {fd : Uint16} (leads : LeadsTo table position f fd) (regular : table.console f = false)
    (opened : table.outside.host.opened (some f) = some d) {place : Nat} (small : place < 2 ^ 31) :
    refer (.transfer position fd false (.seek (BitVec.ofNat 32 place) 0)) table =
      (.ok place, moved table f { d with position := place } table.outside.host.content
        table.outside.memory) := by
  obtain ⟨index, found⟩ := leads
  have offset : (BitVec.ofNat 32 place).toInt = place := longWord_toInt small
  have same : longResult place = place := offset
  have forward : ¬ (place : Int) = -1 := by omega
  simp only [refer, found, regular, Bool.false_eq_true, ↓reduceIte, Device.transfer, RegularFile.seek,
    RegularFile.checked, hosted, Opened.through, opened, Call.refusedIf, Call.seek, offset, moved]
  simp [same, forward]
  rfl

/-- Writing in blocks, going back and reading in other blocks. -/
theorem blocks_replay {parts others : List (Uint16 × Nat)} {back : Uint16}
    (leads : ∀ fd, fd = back ∨ fd ∈ parts.map Prod.fst ∨ fd ∈ others.map Prod.fst →
      LeadsTo table position f fd) (regular : table.console f = false)
    (opened : table.outside.host.opened (some f) = some d) (readable : d.readable = true)
    (writable : d.writable = true) (same : extent others = extent parts) (small : d.position < 2 ^ 31)
    {start target : Nat} (inside : start + extent parts ≤ Bus.size table.outside.memory)
    (room : target + extent parts ≤ Bus.size table.outside.memory) :
    ∃ memory, replay refer (writes position start parts ++
        .transfer position back false (.seek (BitVec.ofNat 32 d.position) 0) ::
          reads position target others) table =
        (answered (writes position start parts) parts ++
          (.transfer position back false (.seek (BitVec.ofNat 32 d.position) 0), .ok d.position) ::
            answered (reads position target others) others,
          moved table f { d with position := d.position + extent parts }
            (Function.update table.outside.host.content d.file
              (overwrite 0 (table.outside.host.content d.file) d.position
                (slice (Bus.byte table.outside.memory) start (extent parts)))) memory) ∧
      Stored Bus.size Bus.byte table.outside.memory target
        (slice (Bus.byte table.outside.memory) start (extent parts)) memory := by
  have written := writes_replay parts (fun part member =>
    leads part.1 (Or.inr (Or.inl (List.mem_map_of_mem member)))) regular opened writable inside
  have stored := overwrite_read 0 (table.outside.host.content d.file) d.position
    (slice (Bus.byte table.outside.memory) start (extent parts))
  rw [slice_length] at stored
  generalize overwrite 0 (table.outside.host.content d.file) d.position
    (slice (Bus.byte table.outside.memory) start (extent parts)) = whole at written stored ⊢
  have behind : LeadsTo (moved table f { d with position := d.position + extent parts }
      (Function.update table.outside.host.content d.file whole) table.outside.memory) position f back :=
    leads back (Or.inl rfl)
  have sought : refer (.transfer position back false (.seek (BitVec.ofNat 32 d.position) 0))
      (moved table f { d with position := d.position + extent parts }
        (Function.update table.outside.host.content d.file whole) table.outside.memory) =
      (.ok d.position, moved table f d (Function.update table.outside.host.content d.file whole)
        table.outside.memory) :=
    (seek_start behind regular (Function.update_self _ _ _) small).trans
      (Prod.ext rfl (moved_moved _ _ _ _ _ _))
  have enough : extent others ≤ (whole.drop d.position).length := by
    have taken := congrArg List.length stored
    rw [List.length_take, slice_length] at taken
    omega
  obtain ⟨memory, read, laid⟩ := @reads_replay ι V M _ _ _ _ _
    (moved table f d (Function.update table.outside.host.content d.file whole) table.outside.memory)
    position f d others target (fun part member =>
      leads part.1 (Or.inr (Or.inr (List.mem_map_of_mem member)))) regular
    (Function.update_self _ _ _) readable (by rw [same]; exact room)
    (by simpa only [moved, Function.update_self] using enough)
  have bytes : (whole.drop d.position).take (extent others) =
      slice (Bus.byte table.outside.memory) start (extent parts) := by
    rw [same]
    exact stored
  refine ⟨memory, ?_, ?_⟩
  · rw [replay_append, written]
    simp only [replay, sought, read, moved_moved, same]
    rfl
  · simpa only [moved, Function.update_self, bytes] using laid

/-- A file holds what is written to it. Where counts are exact and no two open files have one
descriptor of the host, as in every system that is reached, and descriptors of a context share a file
that can be read and written, bytes of main memory that are written in blocks
through some of them, and after going back are read in other blocks through others, are in main
memory at the other place; the file has them where it was, and nothing else changes. The host
transfers all that it is asked for, and the place in the file is below 2^31. -/
theorem blocks_read_back {system : System} (sound : Sound system)
    (apart : Opened.Apart (descriptors system.fs)) (outside : Outside Int ι V M)
    {host : Int} (object : system.fs.objects f = some (.regular host))
    (opened : outside.host.opened host = some d) (readable : d.readable = true)
    (writable : d.writable = true) {parts others : List (Uint16 × Nat)} {back : Uint16}
    (leads : ∀ fd, fd = back ∨ fd ∈ parts.map Prod.fst ∨ fd ∈ others.map Prod.fst →
      ∃ index, lookup (slotsAt position system.contexts) fd = some (index, f))
    (same : extent others = extent parts) (small : d.position < 2 ^ 31) {start target : Nat}
    (inside : start + extent parts ≤ Bus.size outside.memory)
    (room : target + extent parts ≤ Bus.size outside.memory) :
    ∃ final, Session perform ⟨system, outside⟩
        (answered (writes position start parts) parts ++
          (.transfer position back false (.seek (BitVec.ofNat 32 d.position) 0), .ok d.position) ::
            answered (reads position target others) others) final ∧
      final.outside.host.content = Function.update outside.host.content d.file
        (overwrite 0 (outside.host.content d.file) d.position
          (slice (Bus.byte outside.memory) start (extent parts))) ∧
      Stored Bus.size Bus.byte outside.memory target
        (slice (Bus.byte outside.memory) start (extent parts)) final.outside.memory := by
  have regular : (denotes ⟨system, outside⟩).console f = false := by simp [denotes, object]
  have named : (denotes ⟨system, outside⟩).outside.host.opened (some f) = some d := by
    simp only [denotes, descriptors_some.mpr object, Option.bind_some, opened]
  have shared : ∀ fd, fd = back ∨ fd ∈ parts.map Prod.fst ∨ fd ∈ others.map Prod.fst →
      LeadsTo (denotes ⟨system, outside⟩) position f fd := leads
  obtain ⟨memory, replayed, stored⟩ := blocks_replay shared regular named readable writable same small
    inside room
  obtain ⟨final, session, refines⟩ := session_refines sound apart outside (writes position start parts ++
    .transfer position back false (.seek (BitVec.ofNat 32 d.position) 0) ::
      reads position target others)
  rw [replayed] at session refines
  refine ⟨final, session, refines.alike.host.content, ?_⟩
  rw [refines.alike.memory]
  exact stored

/-- A file with one byte, open at its end as the host's descriptor 3 and the guest's 5. -/
def oneOpen : System :=
  ⟨added 1 (.regular 3) FileSystem.empty, [Handles.vacant.set (some 1) (.file ⟨5, by decide⟩)]⟩

/-- One context is apart. -/
theorem sound_single {fs : FileSystem} {handles : Handles}
    (exact : FileCounts.Exact fs (FileCounts.both handles fun _ => 0)) : Sound ⟨fs, [handles]⟩ := by
  refine ⟨exact, fun other member g some => ?_⟩
  obtain rfl := List.mem_singleton.mp member
  exact Nat.add_zero _

/-- The counts of the example are exact. -/
theorem oneOpen_sound : Sound oneOpen := by
  have none : FileCounts.Exact FileSystem.empty (FileCounts.both Handles.vacant fun _ => 0) :=
    FileCounts.exact_congr (reachable_sound Relation.ReflTransGen.refl).exact fun g => by
      simp [FileCounts.both, Holders.total]
  have free : Handles.vacant.get (.file ⟨5, by decide⟩) = .none := by simp [Handles.vacant, Handles.get]
  have one : FileCounts.Exact (added bare.address (.regular 3) FileSystem.empty)
      (FileCounts.both (Handles.vacant.set (some bare.address) (.file ⟨5, by decide⟩)) fun _ => 0) :=
    FileCounts.install_exact (.regular 3) none rfl free
  exact sound_single one

/-- Its descriptors of the host are different. -/
theorem oneOpen_apart : Opened.Apart (descriptors oneOpen.fs) := by
  have cases : ∀ key fd, descriptors oneOpen.fs key = some fd →
      key = none ∧ fd = 0 ∨ key = some 1 ∧ fd = 3 := by
    intro key fd here
    cases key with
    | none => exact Or.inl ⟨rfl, (Option.some.inj here).symm⟩
    | some f =>
      have object := descriptors_some.mp here
      by_cases only : f = 1
      · rw [only] at object
        exact Or.inr ⟨congrArg some only, (File.regular.inj (Option.some.inj object)).symm⟩
      · simp [oneOpen, added, setCount, setObject, FileSystem.empty, only] at object
  intro key other name here there
  rcases cases key name here with ⟨first, zero⟩ | ⟨first, three⟩
  · rcases cases other name there with ⟨second, -⟩ | ⟨-, three⟩
    · rw [first, second]
    · omega
  · rcases cases other name there with ⟨-, zero⟩ | ⟨second, -⟩
    · omega
    · rw [first, second]

/-- Two bytes are written one by one and read at once. -/
theorem blocks_read_back_two :
    ∃ (answers : List (Request × Except Stop Int))
      (final : World Nat TextVideoMemory MainMemory.ByteMemory),
      Session perform ⟨oneOpen, ⟨⟨fun _ => [0x58], fun _ => some ⟨0, 1, true, true⟩⟩,
        ⟨0, 0, 0, .construct ⟨fun _ _ => 0, fun _ _ => 0⟩⟩, ⟨0x1000, 0, fun index => index⟩⟩⟩ answers final ∧
      final.outside.host.content 0 = [0x58, 0, 1] ∧ final.outside.memory.byte 0x201 = 1 := by
  have leads : ∀ fd : Uint16, fd = 5 ∨ fd ∈ [(5, 1), (5, 1)].map Prod.fst ∨ fd ∈ [(5, 2)].map Prod.fst →
      ∃ index, lookup (slotsAt 0 oneOpen.contexts) fd = some (index, 1) := by
    intro fd named
    obtain rfl : fd = 5 := by simpa using named
    exact ⟨5, rfl⟩
  obtain ⟨final, session, file, memory⟩ := blocks_read_back (d := ⟨0, 1, true, true⟩) oneOpen_sound
    oneOpen_apart (⟨⟨fun _ => [0x58], fun _ => some ⟨0, 1, true, true⟩⟩,
      ⟨0, 0, 0, .construct ⟨fun _ _ => 0, fun _ _ => 0⟩⟩, ⟨0x1000, 0, fun index => index⟩⟩ :
        Outside Int Nat TextVideoMemory MainMemory.ByteMemory)
    (rfl : oneOpen.fs.objects 1 = some (.regular 3)) rfl rfl rfl leads rfl (by decide)
    (by decide : 0x100 + 2 ≤ 0x1000) (by decide : 0x200 + 2 ≤ 0x1000)
  refine ⟨_, final, session, ?_, ?_⟩
  · rw [file]
    rfl
  · exact congrFun memory.byte 0x201

end Vx68k.FileBlocks
