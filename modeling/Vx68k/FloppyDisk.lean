import Vx68k.Boot
import Vx68k.FileReads

/-!
# Floppy disks in image files

A disk is read by a position, four bytes with the size code, the cylinder, the head and
the record, and a number of bytes that is rounded up to sectors modulo 2^32. Sectors go
from the image file to guest memory one at a time.

The host reads an image file as any other: its `read` is a parameter that may fail or stop
short. It can seek in a regular file, but not in a pipe, and the result is asserted.
-/

namespace Vx68k.FloppyDisk

open Programs ByteStores Boot FileReads

/-- The offset of a record in the image file, or the value of a `disk_error`. -/
def recordOffset (pos : Uint32) : Except Uint32 Nat :=
  let n := pos >>> 24 &&& 0xff
  let c := pos >>> 16 &&& 0xff
  let h := pos >>> 8 &&& 0xff
  let r := pos &&& 0xff
  if n = 3 then
    if c > 76 ∨ h > 1 ∨ r < 1 ∨ r > 8 then .error 0x40040000
    else .ok (((c.toNat * 2 + h.toNat) * 8 + (r.toNat - 1)) * 1024)
  else .error 0x40040000

variable {M : Type} [Bus M]

/-- Write bytes to memory. -/
def write (address : Uint32) (bytes : List Byte) : Program Raised M Unit :=
  .atomic fun memory =>
    let ending := Bus.write address bytes memory
    (ending.1.mapError .thrown, ending.2)

/-- Where a transfer stands: in the file, in guest memory and in the bytes left. -/
structure Transfer where
  file : HostFile
  buf : Uint32
  nbytes : Uint32

/-- The transfer of one sector. -/
def sector (host : Host) (transfer : Transfer) : Program Raised M (Turn Transfer Uint32) :=
  if transfer.nbytes ≥ 1024 then
    match host 1024 transfer.file with
    | none => pure (.leave 0x40200000)
    | some (data, file) =>
      if data.length ≠ 1024 then pure (.leave 0x40202000)
      else do
        write transfer.buf data
        pure (.again ⟨file, transfer.buf + 1024, transfer.nbytes - 1024⟩)
  else pure (.leave 0)

/-- An image file: what it holds, and whether the host can seek in it. -/
structure Image where
  content : List Byte
  seekable : Bool

/-- `image_file_floppy_disk::read` with its image file. -/
def read (host : Host) (image : Image) : DiskRead M := fun mode pos buf nbytes =>
  match recordOffset pos with
  | .error value => pure (value ||| (mode >>> 8 &&& 0x3) <<< 24)
  | .ok offset =>
    if image.seekable then
      .loop (sector host) ⟨⟨image.content, offset⟩, buf, (nbytes + 1023) / 1024 * 1024⟩
    else .raise .aborted

/-- A position on a disk: 77 cylinders of two heads with eight records of 1024 bytes. -/
structure Valid (pos : Uint32) : Prop where
  size : pos.toNat / 0x1000000 = 3
  cylinder : pos.toNat / 0x10000 % 0x100 ≤ 76
  head : pos.toNat / 0x100 % 0x100 ≤ 1
  record : 1 ≤ pos.toNat % 0x100 ∧ pos.toNat % 0x100 ≤ 8

/-- The bytes before a record in an image. -/
def offsetOf (pos : Uint32) : Nat :=
  ((pos.toNat / 0x10000 % 0x100 * 2 + pos.toNat / 0x100 % 0x100) * 8 + pos.toNat % 0x100 - 1) * 1024

/-- What the host's `read` does when it does not fail: it gives bytes from the position on,
perhaps fewer than asked for, and moves on by them. -/
def Honest (host : Host) : Prop :=
  ∀ count file data after, host count file = some (data, after) →
    data <+: file.rest.take count ∧ after = ⟨file.content, file.position + data.length⟩

/-- Calls of `write` one after the other, whether they raise or not. -/
inductive Written : M → List (Uint32 × List Byte) → M → Prop
  | none (memory : M) : Written memory [] memory
  | more (before : M) (address : Uint32) (bytes : List Byte) (calls : List (Uint32 × List Byte))
      (after : M) (rest : Written (Bus.write address bytes before).2 calls after) :
      Written before ((address, bytes) :: calls) after

/-- Consecutive sectors of an image with consecutive addresses. -/
def sectors (image : List Byte) (offset : Nat) (buf : Uint32) : Nat → List (Uint32 × List Byte)
  | 0 => []
  | count + 1 =>
    (buf, (image.drop offset).take 1024) :: sectors image (offset + 1024) (buf + 1024) count

/-- Nothing that can be written follows main memory. -/
def Closed (M : Type) [Bus M] : Prop :=
  ∀ address bytes (memory after : M), address.toNat ≤ Bus.size memory →
    Bus.write address bytes memory = (.ok (), after) →
      address.toNat + bytes.length ≤ Bus.size memory

/-- A buffer of so many bytes is in main memory as far as it can be written. -/
def RamBuffer (buf : Uint32) (count : Nat) (memory : M) : Prop :=
  buf.toNat + count ≤ Bus.size memory ∨ (buf.toNat ≤ Bus.size memory ∧ Closed M)

/-- A byte of a long word. -/
theorem field_toNat (pos : Uint32) (bits : Nat) :
    (pos >>> bits &&& 0xff).toNat = pos.toNat / 2 ^ bits % 0x100 := by
  have low : (pos >>> bits &&& 0xff).toNat = (pos >>> bits).toNat % 0x100 := and_low_toNat _ _ 8 rfl
  rw [low, BitVec.toNat_ushiftRight, Nat.shiftRight_eq_div_pow]

/-- The offset is that of the record if the position is one of the disk. -/
theorem recordOffset_cases (pos : Uint32) :
    (Valid pos ∧ recordOffset pos = .ok (offsetOf pos)) ∨
      (¬ Valid pos ∧ recordOffset pos = .error 0x40040000) := by
  have code := field_toNat pos 24
  have cylinder := field_toNat pos 16
  have head := field_toNat pos 8
  have record : (pos &&& 0xff).toNat = pos.toNat % 0x100 := by simpa using field_toNat pos 0
  have bound := pos.isLt
  rw [recordOffset]
  generalize pos >>> 24 &&& 0xff = n at *
  generalize pos >>> 16 &&& 0xff = c at *
  generalize pos >>> 8 &&& 0xff = h at *
  generalize pos &&& 0xff = r at *
  by_cases size : n = 3
  · simp only [size, if_true]
    by_cases outside : c > 76 ∨ h > 1 ∨ r < 1 ∨ r > 8
    · refine Or.inr ⟨fun valid => ?_, if_pos outside⟩
      have cylinders := valid.cylinder
      have heads := valid.head
      have records := valid.record
      bv_omega
    · refine Or.inl ⟨⟨?_, ?_, ?_, ?_⟩, ?_⟩
      · bv_omega
      · bv_omega
      · bv_omega
      · bv_omega
      · have some : 1 ≤ r.toNat := by bv_omega
        rw [if_neg outside, offsetOf, cylinder, head, ← record, Nat.add_sub_assoc some]
        rfl
  · refine Or.inr ⟨fun valid => size ?_, if_neg size⟩
    have same := valid.size
    bv_omega

/-- A whole sector that is read is the next one. -/
theorem honest_whole {host : Host} (honest : Honest host) {file after : HostFile} {data : List Byte}
    (given : host 1024 file = some (data, after)) (whole : data.length = 1024) :
    data = file.rest.take 1024 ∧ after = ⟨file.content, file.position + 1024⟩ := by
  obtain ⟨front, moved⟩ := honest 1024 file data after given
  refine ⟨front.eq_of_length_le ?_, by rw [moved, whole]⟩
  rw [whole]
  exact List.length_take_le _ _

/-- A sector fails, or cannot be written, or is written. -/
theorem sector_cases {host : Host} (honest : Honest host) (transfer : Transfer)
    (more : transfer.nbytes ≥ 1024) (memory : M) :
    (∃ status, status ≠ 0 ∧ Returns (sector host transfer) memory (.leave status) memory) ∨
      (∃ failure after, Bus.write transfer.buf (transfer.file.rest.take 1024) memory =
          (.error failure, after) ∧ Raises (sector host transfer) memory (.thrown failure) after) ∨
      ∃ after, (transfer.file.rest.take 1024).length = 1024 ∧
        Bus.write transfer.buf (transfer.file.rest.take 1024) memory = (.ok (), after) ∧
        Returns (sector host transfer) memory
          (.again ⟨⟨transfer.file.content, transfer.file.position + 1024⟩, transfer.buf + 1024,
            transfer.nbytes - 1024⟩) after := by
  rw [sector, if_pos more]
  cases given : host 1024 transfer.file with
  | none => exact Or.inl ⟨0x40200000, by decide, returns_pure.mpr ⟨rfl, rfl⟩⟩
  | some result =>
    obtain ⟨data, file⟩ := result
    by_cases whole : data.length = 1024
    · obtain ⟨rfl, rfl⟩ := honest_whole honest given whole
      simp only [whole, ne_eq, not_true_eq_false, if_false]
      cases written : Bus.write transfer.buf (transfer.file.rest.take 1024) memory with
      | mk outcome after =>
        cases outcome with
        | error failure =>
          refine Or.inr (Or.inl ⟨failure, after, rfl, raises_bind.mpr (Or.inl ?_)⟩)
          exact raises_atomic.mpr (by rw [written]; rfl)
        | ok done =>
          refine Or.inr (Or.inr ⟨after, trivial, rfl, returns_bind.mpr ⟨(), after, ?_,
            returns_pure.mpr ⟨rfl, rfl⟩⟩⟩)
          exact returns_atomic.mpr (by rw [written]; rfl)
    · simp only [ne_eq, whole, not_false_eq_true, if_true]
      exact Or.inl ⟨0x40202000, by decide, returns_pure.mpr ⟨rfl, rfl⟩⟩

/-- So many bytes of a file have been stored from an address on. -/
structure Moved (file : HostFile) (buf : Uint32) (count : Nat) (before after : M) : Prop where
  length : (file.rest.take count).length = count
  stored : Stored Bus.size Bus.byte before buf.toNat (file.rest.take count) after
  inside : 0 < count → buf.toNat + count ≤ Bus.size before

/-- No bytes have been moved. -/
theorem moved_nothing (file : HostFile) (buf : Uint32) (memory : M) : Moved file buf 0 memory memory :=
  ⟨rfl, ⟨rfl, (lay_self _ _ 0).symm⟩, fun some => absurd some (by decide)⟩

/-- The first bytes of a buffer that are written are in main memory. -/
theorem ramBuffer_inside {buf : Uint32} {count : Nat} {before middle : M} {bytes : List Byte}
    (ram : RamBuffer buf (bytes.length + count) before)
    (written : Bus.write buf bytes before = (.ok (), middle)) :
    buf.toNat + bytes.length ≤ Bus.size before := by
  rcases ram with room | ⟨inside, closed⟩
  · omega
  · exact closed buf bytes before middle inside written

/-- What follows them is a buffer again. -/
theorem ramBuffer_next {buf : Uint32} {count : Nat} {before middle : M}
    (ram : RamBuffer buf (1024 + count) before) (inside : buf.toNat + 1024 ≤ Bus.size before)
    (size : Bus.size middle = Bus.size before) : RamBuffer (buf + 1024) count middle := by
  have extent := Bus.size_le before
  have behind : (buf + 1024).toNat = buf.toNat + 1024 := by bv_omega
  rcases ram with room | ⟨-, closed⟩
  · exact Or.inl (by omega)
  · exact Or.inr ⟨by omega, closed⟩

/-- A sector and those after it. -/
theorem moved_sector {file : HostFile} {buf : Uint32} {count : Nat} {before middle after : M}
    (ram : RamBuffer buf (1024 + count) before) (whole : (file.rest.take 1024).length = 1024)
    (written : Bus.write buf (file.rest.take 1024) before = (.ok (), middle))
    (next : RamBuffer (buf + 1024) count middle →
      Moved ⟨file.content, file.position + 1024⟩ (buf + 1024) count middle after) :
    Moved file buf (1024 + count) before after := by
  have extent := Bus.size_le before
  have inside : buf.toNat + 1024 ≤ Bus.size before := by
    rw [← whole] at ram ⊢
    exact ramBuffer_inside ram written
  have behind : (buf + 1024).toNat = buf.toNat + 1024 := by bv_omega
  obtain ⟨other, again, one⟩ := Bus.write_main buf (file.rest.take 1024) before (by omega)
  obtain ⟨-, rfl⟩ := Prod.mk.inj (written.symm.trans again)
  have rest := next (ramBuffer_next ram inside one.size)
  have further : HostFile.rest ⟨file.content, file.position + 1024⟩ = file.rest.drop 1024 := by
    rw [HostFile.rest, HostFile.rest, List.drop_drop]
  have joined : file.rest.take (1024 + count) =
      file.rest.take 1024 ++ (file.rest.drop 1024).take count := List.take_add
  obtain ⟨length, stored, room⟩ := rest
  rw [further] at length stored
  refine ⟨by rw [joined, List.length_append, whole, length], ⟨stored.size.trans one.size, ?_⟩, ?_⟩
  · rw [stored.byte, one.byte, joined, lay_append, whole, behind]
  · intro
    have size := one.size
    rcases Nat.eq_zero_or_pos count with rfl | some
    · omega
    · have later := room some
      omega

/-- A transfer of sectors ends after some of them, and with 0 only after all.

Proof: by induction on the number of sectors, one turn of the loop for each. -/
theorem transfer_ends {host : Host} (honest : Honest host) (count : Nat) (transfer : Transfer)
    (sized : transfer.nbytes.toNat = 1024 * count) (memory : M) :
    ∃ outcome after, Ends (.loop (sector host) transfer) memory outcome after ∧
      (∃ written ≤ count, Written memory (sectors transfer.file.content transfer.file.position
        transfer.buf written) after) ∧
      (∀ failure, outcome = .error failure → ∃ thrown, failure = .thrown thrown) ∧
      (outcome = .ok 0 → RamBuffer transfer.buf (1024 * count) memory →
        Moved transfer.file transfer.buf (1024 * count) memory after) := by
  induction count generalizing transfer memory with
  | zero =>
    have done : ¬ transfer.nbytes ≥ 1024 := by bv_omega
    refine ⟨.ok 0, memory, loop_leaves ?_, ⟨0, Nat.le_refl _, .none memory⟩, by simp,
      fun _ _ => moved_nothing _ _ memory⟩
    rw [sector, if_neg done]
    exact returns_pure.mpr ⟨rfl, rfl⟩
  | succ count inductionHypothesis =>
    have more : transfer.nbytes ≥ 1024 := by bv_omega
    rcases sector_cases honest transfer more memory with
      ⟨status, error, left⟩ | ⟨failure, after, refused, raised⟩ | ⟨middle, whole, written, again⟩
    · refine ⟨.ok status, memory, loop_leaves left, ⟨0, Nat.zero_le _, .none memory⟩, by simp, ?_⟩
      intro zero
      exact absurd (Except.ok.inj zero) error
    · refine ⟨.error (.thrown failure), after, ?_, ⟨1, by omega, .more _ _ _ _ _ ?_⟩, ?_, by simp⟩
      · exact (loop_ends_iff _ _ _ _).mpr (raises_bind.mpr (Or.inl raised))
      · rw [show transfer.file.content.drop transfer.file.position = transfer.file.rest from rfl, refused]
        exact .none after
      · intro other same
        exact ⟨failure, (Except.error.inj same).symm⟩
    · have left : (transfer.nbytes - 1024).toNat = 1024 * count := by bv_omega
      obtain ⟨outcome, after, ends, ⟨most, within, calls⟩, failures, moved⟩ := inductionHypothesis
        ⟨⟨transfer.file.content, transfer.file.position + 1024⟩, transfer.buf + 1024,
          transfer.nbytes - 1024⟩ left middle
      refine ⟨outcome, after, (loop_ends_iff _ _ _ _).mpr ((ends_after again).mpr ends),
        ⟨most + 1, by omega, .more _ _ _ _ _ ?_⟩, failures, ?_⟩
      · rw [show transfer.file.content.drop transfer.file.position = transfer.file.rest from rfl, written]
        exact calls
      · intro zero ram
        rw [show 1024 * (count + 1) = 1024 + 1024 * count by omega] at ram ⊢
        exact moved_sector ram whole written fun next => moved zero next

/-- A byte that has been moved. -/
theorem moved_byte {file : HostFile} {buf : Uint32} {count offset : Nat} {before after : M}
    (moved : Moved file buf count before after) (within : offset < count) :
    buf.toNat + offset < Bus.size after ∧
      file.content[file.position + offset]? = some (Bus.byte after (buf.toNat + offset)) := by
  have inside := moved.inside (by omega)
  have reached : offset < (file.rest.take count).length := by
    rw [moved.length]
    exact within
  refine ⟨by rw [moved.stored.size]; omega, ?_⟩
  rw [moved.stored.byte, lay_inside _ _ _ _ reached, List.getElem_take,
    ← List.getElem?_eq_getElem, HostFile.rest, List.getElem?_drop]

/-- What a read of a disk is for: 0 says that all bytes are in memory, sectors are written
in order, and a position that is not on the disk is an error. -/
structure Transfers (host : Host) (image : Image) (mode pos buf nbytes : Uint32) (memory : M) :
    Prop where
  complete : ∀ after, Returns (read host image mode pos buf nbytes) memory 0 after →
    ∀ offset < nbytes.toNat, buf.toNat + offset < Bus.size after ∧
      image.content[offsetOf pos + offset]? = some (Bus.byte after (buf.toNat + offset))
  ordered : Valid pos → ∀ outcome after,
    Ends (read host image mode pos buf nbytes) memory outcome after →
      ∃ written ≤ (nbytes.toNat + 1023) / 1024,
        Written memory (sectors image.content (offsetOf pos) buf written) after
  refused : ¬ Valid pos → ∃ status, status ≠ 0 ∧
    Returns (read host image mode pos buf nbytes) memory status memory

/-- A position that is not on the disk gives an error, and nothing is written. -/
theorem read_invalid (host : Host) (image : Image) (mode buf nbytes : Uint32) {pos : Uint32}
    (invalid : ¬ Valid pos) (memory : M) : ∃ status, status ≠ 0 ∧
      Returns (read host image mode pos buf nbytes) memory status memory := by
  obtain ⟨valid, -⟩ | ⟨-, refused⟩ := recordOffset_cases pos
  · exact absurd valid invalid
  · refine ⟨0x40040000 ||| (mode >>> 8 &&& 0x3) <<< 24, fun zero => ?_, ?_⟩
    · exact absurd (BitVec.or_eq_zero_iff.mp zero).1 (by decide)
    · rw [read, refused]
      exact returns_pure.mpr ⟨rfl, rfl⟩

/-- A read at a position on the disk is a transfer of sectors. -/
theorem read_valid (host : Host) {image : Image} (mode buf nbytes : Uint32) {pos : Uint32}
    (valid : Valid pos) (seekable : image.seekable = true) :
    (read host image mode pos buf nbytes : Program Raised M Uint32) =
      .loop (sector host) ⟨⟨image.content, offsetOf pos⟩, buf, (nbytes + 1023) / 1024 * 1024⟩ := by
  obtain ⟨-, found⟩ | ⟨invalid, -⟩ := recordOffset_cases pos
  · rw [read, found]
    exact if_pos seekable
  · exact absurd valid invalid

/-- Where the host cannot seek, such a read does not come back. -/
theorem read_unseekable (host : Host) {image : Image} (mode buf nbytes : Uint32) {pos : Uint32}
    (valid : Valid pos) (unseekable : ¬ image.seekable = true) (memory : M) :
    Raises (read host image mode pos buf nbytes) memory .aborted memory := by
  obtain ⟨-, found⟩ | ⟨invalid, -⟩ := recordOffset_cases pos
  · rw [read, found]
    simp only [unseekable]
    exact raises_raise.mpr ⟨rfl, rfl⟩
  · exact absurd valid invalid

/-- The number of bytes is rounded up to sectors, if the sum does not wrap. -/
theorem rounded_toNat {nbytes : Uint32} (low : nbytes.toNat ≤ 0xfffffc00) :
    ((nbytes + 1023) / 1024 * 1024).toNat = 1024 * ((nbytes.toNat + 1023) / 1024) := by
  have sum : (nbytes + 1023).toNat = nbytes.toNat + 1023 := by bv_omega
  rw [BitVec.toNat_mul, BitVec.toNat_udiv, sum]
  change (nbytes.toNat + 1023) / 1024 * 1024 % 2 ^ 32 = _
  omega

/-- Sums that wrap leave no sector to read. -/
theorem rounded_wraps {nbytes : Uint32} (high : 0xfffffc00 < nbytes.toNat) :
    (nbytes + 1023) / 1024 * 1024 = 0 := by
  have sum : (nbytes + 1023).toNat = nbytes.toNat + 1023 - 2 ^ 32 := by bv_omega
  apply BitVec.eq_of_toNat_eq
  rw [BitVec.toNat_mul, BitVec.toNat_udiv, sum]
  have bound := nbytes.isLt
  change (nbytes.toNat + 1023 - 2 ^ 32) / 1024 * 1024 % 2 ^ 32 = 0
  omega

/-- Nothing is read then, and the read returns 0. -/
theorem read_wrapped (host : Host) {image : Image} (mode buf : Uint32) {pos nbytes : Uint32}
    (valid : Valid pos) (seekable : image.seekable = true) (high : 0xfffffc00 < nbytes.toNat)
    (memory : M) : Returns (read host image mode pos buf nbytes) memory 0 memory := by
  rw [read_valid host mode buf nbytes valid seekable, rounded_wraps high]
  have done : ¬ (0 : Uint32) ≥ 1024 := by decide
  refine loop_leaves ?_
  rw [sector, if_neg done]
  exact returns_pure.mpr ⟨rfl, rfl⟩

/-- Without that, a read ends after some sectors, and with 0 only after all. -/
theorem read_ends {host : Host} (honest : Honest host) {image : Image} (mode buf : Uint32)
    {pos nbytes : Uint32} (valid : Valid pos) (seekable : image.seekable = true)
    (low : nbytes.toNat ≤ 0xfffffc00) (memory : M) :
    ∃ outcome after, Ends (read host image mode pos buf nbytes) memory outcome after ∧
      (∃ written ≤ (nbytes.toNat + 1023) / 1024,
        Written memory (sectors image.content (offsetOf pos) buf written) after) ∧
      (∀ failure, outcome = .error failure → ∃ thrown, failure = .thrown thrown) ∧
      (outcome = .ok 0 → RamBuffer buf (1024 * ((nbytes.toNat + 1023) / 1024)) memory →
        Moved ⟨image.content, offsetOf pos⟩ buf (1024 * ((nbytes.toNat + 1023) / 1024)) memory after) := by
  rw [read_valid host mode buf nbytes valid seekable]
  exact transfer_ends honest _ _ (rounded_toNat low) memory

/-- Where the host can seek, every read ends, and what it raises comes from the memory. -/
theorem read_safe {host : Host} (honest : Honest host) (image : Image) (mode pos buf nbytes : Uint32)
    (safe : image.seekable = true ∨ ¬ Valid pos) (memory : M) :
    ∃ outcome after, Ends (read host image mode pos buf nbytes) memory outcome after ∧
      ∀ failure, outcome = .error failure → ∃ thrown, failure = .thrown thrown := by
  by_cases valid : Valid pos
  · have seekable := safe.resolve_right (not_not_intro valid)
    by_cases low : nbytes.toNat ≤ 0xfffffc00
    · obtain ⟨outcome, after, ends, -, failures, -⟩ :=
        read_ends honest mode buf valid seekable low memory
      exact ⟨outcome, after, ends, failures⟩
    · exact ⟨.ok 0, memory, read_wrapped host mode buf valid seekable (by omega) memory, by simp⟩
  · obtain ⟨status, -, refused⟩ := read_invalid host image mode buf nbytes valid memory
    exact ⟨.ok status, memory, refused, by simp⟩

/-- A read keeps its promise exactly if rounding up does not wrap, the position is wrong or
the host cannot seek. -/
theorem read_transfers_iff {host : Host} (honest : Honest host) (image : Image)
    (mode pos buf nbytes : Uint32) (memory : M)
    (ram : RamBuffer buf (1024 * ((nbytes.toNat + 1023) / 1024)) memory) :
    Transfers host image mode pos buf nbytes memory ↔
      nbytes.toNat ≤ 0xfffffc00 ∨ ¬ Valid pos ∨ image.seekable = false := by
  by_cases valid : Valid pos
  · by_cases seekable : image.seekable = true
    · constructor
      · intro transfers
        by_contra neither
        have high : 0xfffffc00 < nbytes.toNat := by
          by_contra low
          exact neither (Or.inl (by omega))
        have extent := Bus.size_le memory
        have far := (transfers.complete memory
          (read_wrapped host mode buf valid seekable high memory) 0x1000000 (by omega)).1
        omega
      · intro sound
        have low : nbytes.toNat ≤ 0xfffffc00 := by
          rcases sound with low | invalid | unseekable
          · exact low
          · exact absurd valid invalid
          · exact absurd seekable (by simp [unseekable])
        obtain ⟨outcome, last, ends, written, -, moved⟩ :=
          read_ends honest mode buf valid seekable low memory
        refine ⟨fun after returned offset within => ?_, fun _ other after ended => ?_,
          fun invalid => absurd valid invalid⟩
        · obtain ⟨rfl, rfl⟩ := ends_unique ends returned
          exact moved_byte (moved rfl ram) (by omega)
        · obtain ⟨-, rfl⟩ := ends_unique ends ended
          exact written
    · have stopped := read_unseekable host mode buf nbytes valid seekable memory
      refine iff_of_true ⟨fun after returned => absurd stopped (returns_not_raises returned),
        fun _ outcome after ended => ?_, fun invalid => absurd valid invalid⟩
        (Or.inr (Or.inr (Bool.eq_false_iff.mpr seekable)))
      obtain ⟨-, rfl⟩ := ends_unique stopped ended
      exact ⟨0, Nat.zero_le _, .none memory⟩
  · obtain ⟨status, error, refused⟩ := read_invalid host image mode buf nbytes valid memory
    refine iff_of_true ⟨fun after returned => absurd (returns_unique refused returned).1 error,
      fun yes => absurd yes valid, fun _ => ⟨status, error, refused⟩⟩ (Or.inr (Or.inl valid))

/-- The reads of `reading` are honest. -/
theorem reading_honest : Honest reading := by
  intro count file data after given
  obtain ⟨rfl, rfl⟩ := Prod.mk.inj (Option.some.inj given)
  exact ⟨List.prefix_rfl, rfl⟩

/-- The first sector of a disk. -/
theorem read_transfers_first :
    Transfers reading ⟨List.replicate 1024 0x41, true⟩ 0x9070 0x03000001 0x2000 1024
      (⟨0x10000, 0, fun _ => 0⟩ : MainMemory.ByteMemory) :=
  (read_transfers_iff reading_honest _ 0x9070 0x03000001 0x2000 1024 _ (Or.inl (by decide))).mpr
    (Or.inl (by decide))

/-- From 0xfffffc01 bytes on nothing is read, and the status is 0. -/
theorem read_of_all_bytes :
    ¬ Transfers reading ⟨[], true⟩ 0x9070 0x03000001 0x2000 0xffffffff
      (⟨0x10000, 0, fun _ => 0⟩ : MainMemory.ByteMemory) := by
  intro transfers
  have valid : Valid 0x03000001 := ⟨by decide, by decide, by decide, by decide⟩
  have nothing := @read_wrapped MainMemory.ByteMemory _ reading ⟨[], true⟩ 0x9070 0x2000 0x03000001
    0xffffffff valid rfl (by decide) ⟨0x10000, 0, fun _ => 0⟩
  have first := (transfers.complete _ nothing 0 (by decide)).2
  exact nomatch first

end Vx68k.FloppyDisk
