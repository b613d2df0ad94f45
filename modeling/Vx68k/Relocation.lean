import Vx68k.FixUps

/-!
# What the fix-ups do to an image

A table of fix-ups encodes the offsets of long words in text and data, each by its distance
from the one before. Going through such a table relocates each of these long words once and
leaves every other byte of text and data as it is in the file.
-/

namespace Vx68k

open Programs ByteStores DosExecContext

/-- Long-word accesses at any address of main memory, where they return, are those of four
bytes. At odd addresses they need not return. -/
class LongBus (M : Type) [Bus M] : Prop extends EvenBus M where
  get32_returned : ∀ (memory : M) address value, address.toNat + 4 ≤ Bus.size memory →
    Bus.get32 memory address = .ok value →
    value = BitVec.ofNat 32 (decode (slice (Bus.byte memory) address.toNat 4))
  put32_returned : ∀ address value (memory after : M), address.toNat + 4 ≤ Bus.size memory →
    Bus.put32 address value memory = (.ok (), after) →
    Stored Bus.size Bus.byte memory address.toNat (encode 4 value.toNat) after

/-- What a byte memory returns and stores are long words. -/
instance : LongBus MainMemory.ByteMemory where
  get32_returned memory address value inside returned := by
    simp only [Bus.get32] at returned
    split at returned
    · exact (Except.ok.inj returned).symm
    · cases returned
  put32_returned address value memory after inside returned := by
    simp only [Bus.put32] at returned
    split at returned
    · obtain ⟨stores, done, stored⟩ := MainMemory.layWithin_stored address.toNat
        (encode 4 value.toNat) memory (by rw [encode_length]; exact inside)
      obtain ⟨-, rfl⟩ := Prod.mk.inj (returned.symm.trans done)
      exact stored
    · cases (Prod.mk.inj returned).1

namespace Relocation

open ProgramLoad FixUps

/-- A distance in a table: a word if it fits, or the word 1 and a long word. -/
def encodeDelta (d : Nat) : List Byte := if d < 0x10000 then encode 2 d else encode 2 1 ++ encode 4 d

/-- A table for offsets, from the one before the first. -/
def encodeTable : Nat → List Nat → List Byte
  | _, [] => []
  | previous, offset :: rest => encodeDelta (offset - previous) ++ encodeTable offset rest

/-- A file with an HU header, all of text and data, and a table that encodes even offsets of long
words in them, apart from each other. -/
structure Encoded (file : List Byte) (offsets : List Nat) : Prop where
  long : 64 ≤ file.length
  magic : file.take 2 = [0x48, 0x55]
  image : imageSize (header file) ≤ (file.drop 64).length
  table : ((file.drop 64).drop (imageSize (header file))).take (header file).relocSize.toNat =
    encodeTable 0 offsets
  complete : (header file).relocSize.toNat ≤ ((file.drop 64).drop (imageSize (header file))).length
  even : ∀ offset ∈ offsets, offset % 2 = 0
  apart : offsets.IsChain (· + 4 ≤ ·)
  inside : ∀ offset ∈ offsets, offset + 4 ≤ imageSize (header file)

/-- The long word at an offset of some bytes. -/
def wordAt (bytes : List Byte) (offset : Nat) : Uint32 :=
  BitVec.ofNat 32 (decode ((bytes.drop offset).take 4))

/-- Each long word listed has been relocated once, and every other byte is that of the file. -/
structure Relocated (file : List Byte) (offsets : List Nat) (loadAddress : Uint32) (after : Store) :
    Prop where
  words : ∀ offset ∈ offsets,
    BitVec.ofNat 32 (decode (slice after (loadAddress.toNat + offset) 4)) =
      wordAt (fileImage file) offset + loadAddress - (header file).base
  others : ∀ index, index < imageSize (header file) →
    (∀ offset ∈ offsets, index < offset ∨ offset + 4 ≤ index) →
      (fileImage file)[index]? = some (after (loadAddress.toNat + index))

/-- The loader from the text on to the end of the loop. -/
def place {M : Type} [Bus M] (base loadAddress : Uint32) (image : List Byte) (heap : Store)
    (relocSize : Nat) : DosExecContext.Method M Unit := do
  write loadAddress image
  fixUpLoop base loadAddress heap relocSize

section Tables

variable {address loadAddress : Uint32}

/-- The first distance of a table is read back. -/
theorem fixUpPlaces_delta {d : Nat} (even : d % 2 = 0) (small : d < 2 ^ 32) (rest : List Byte)
    (address : Uint32) : fixUpPlaces (encodeDelta d ++ rest) address =
      (fixUpPlaces rest (address + BitVec.ofNat 32 d)).map ((address + BitVec.ofNat 32 d) :: ·) := by
  have multiple : ¬ BitVec.ofNat 32 d % 2 ≠ 0 := by
    rw [not_not]
    apply BitVec.eq_of_toNat_eq
    rw [BitVec.toNat_umod, BitVec.toNat_ofNat, Nat.mod_eq_of_lt small]
    exact even
  by_cases short : d < 0x10000
  · have number : decode (encode 2 d) = d := by
      rw [decode_encode]
      omega
    have plain : ¬ BitVec.ofNat 32 d = (1 : Uint32) := by bv_omega
    rw [encodeDelta, if_pos short]
    change fixUpPlaces (BitVec.ofNat 8 (d / 256 ^ 1) :: BitVec.ofNat 8 (d / 256 ^ 0) :: rest) address = _
    have bytes : decode [BitVec.ofNat 8 (d / 256 ^ 1), BitVec.ofNat 8 (d / 256 ^ 0)] = d := number
    rw [fixUpPlaces.eq_def]
    simp only [bytes, plain, multiple, if_false]
  · have number : decode (encode 4 d) = d := by
      rw [decode_encode]
      omega
    have bytes : decode [BitVec.ofNat 8 (d / 256 ^ 3), BitVec.ofNat 8 (d / 256 ^ 2),
        BitVec.ofNat 8 (d / 256 ^ 1), BitVec.ofNat 8 (d / 256 ^ 0)] = d := number
    rw [encodeDelta, if_neg short]
    change fixUpPlaces (0 :: 1 :: BitVec.ofNat 8 (d / 256 ^ 3) :: BitVec.ofNat 8 (d / 256 ^ 2) ::
      BitVec.ofNat 8 (d / 256 ^ 1) :: BitVec.ofNat 8 (d / 256 ^ 0) :: rest) address = _
    have long : BitVec.ofNat 32 (decode [0, 1]) = (1 : Uint32) := by decide
    rw [fixUpPlaces.eq_def]
    simp only [long, bytes, multiple, if_true, if_false]

/-- A table gives back the offsets that it encodes, from the load address on.

Proof: by induction on the offsets; each distance leads from the one before to the next. -/
theorem fixUpPlaces_encodeTable {previous : Nat} {offsets : List Nat}
    (even : ∀ offset ∈ offsets, offset % 2 = 0) (start : previous % 2 = 0)
    (ordered : (previous :: offsets).IsChain (· ≤ ·)) (small : ∀ offset ∈ offsets, offset < 2 ^ 32)
    (loadAddress : Uint32) :
    fixUpPlaces (encodeTable previous offsets) (loadAddress + BitVec.ofNat 32 previous) =
      some (offsets.map fun offset => loadAddress + BitVec.ofNat 32 offset) := by
  induction offsets generalizing previous with
  | nil => rfl
  | cons offset rest inductionHypothesis =>
    obtain ⟨evenFirst, evenRest⟩ := List.forall_mem_cons.mp even
    obtain ⟨smallFirst, smallRest⟩ := List.forall_mem_cons.mp small
    obtain ⟨after, orderedRest⟩ := List.isChain_cons_cons.mp ordered
    have next : loadAddress + BitVec.ofNat 32 previous + BitVec.ofNat 32 (offset - previous) =
        loadAddress + BitVec.ofNat 32 offset := by
      bv_omega
    rw [encodeTable, fixUpPlaces_delta (by omega) (by omega), next,
      inductionHypothesis evenRest evenFirst orderedRest smallRest]
    rfl

end Tables

section Stores

variable (base loadAddress : Uint32) {places : List Uint32}

/-- Fix-ups leave runs that they do not touch. -/
theorem relocate_apart (store : Store) (start count : Nat)
    (apart : ∀ place ∈ places, start + count ≤ place.toNat ∨ place.toNat + 4 ≤ start) :
    slice (relocate base loadAddress places store) start count = slice store start count := by
  induction places generalizing store with
  | nil => rfl
  | cons place rest inductionHypothesis =>
    obtain ⟨first, others⟩ := List.forall_mem_cons.mp apart
    rw [relocate, List.foldl_cons, ← relocate, inductionHypothesis _ others]
    exact slice_lay_disjoint _ _ _ _ _ (by rw [encode_length]; exact first)

/-- Bytes outside the places are kept. -/
theorem relocate_other (store : Store) (index : Nat)
    (apart : ∀ place ∈ places, index < place.toNat ∨ place.toNat + 4 ≤ index) :
    relocate base loadAddress places store index = store index := by
  have same := relocate_apart base loadAddress store index 1 apart
  exact (List.cons.inj same).1

/-- The long word at a place is relocated. -/
theorem relocateAt_word (store : Store) (place : Uint32) :
    BitVec.ofNat 32 (decode (slice (relocateAt base loadAddress store place) place.toNat 4)) =
      BitVec.ofNat 32 (decode (slice store place.toNat 4)) + loadAddress - base := by
  rw [relocateAt, decode_lay_encode, Nat.mod_eq_of_lt (by exact BitVec.isLt _), BitVec.ofNat_toNat,
    BitVec.setWidth_eq]

/-- Of fix-ups that are apart, each relocates its long word once. -/
theorem relocate_word (store : Store) (apart : places.Pairwise fun one two => one.toNat + 4 ≤ two.toNat)
    {place : Uint32} (member : place ∈ places) :
    BitVec.ofNat 32 (decode (slice (relocate base loadAddress places store) place.toNat 4)) =
      BitVec.ofNat 32 (decode (slice store place.toNat 4)) + loadAddress - base := by
  induction places generalizing store with
  | nil => exact absurd member List.not_mem_nil
  | cons first rest inductionHypothesis =>
    obtain ⟨before, apartRest⟩ := List.pairwise_cons.mp apart
    rw [relocate, List.foldl_cons, ← relocate]
    rcases List.mem_cons.mp member with rfl | later
    · rw [relocate_apart _ _ _ _ _ fun other known => Or.inl (before other known)]
      exact relocateAt_word base loadAddress store place
    · rw [inductionHypothesis _ apartRest later, relocateAt, slice_lay_disjoint _ _ _ _ _
        (by rw [encode_length]; exact Or.inr (before place later))]

end Stores

section Programs

variable {M : Type} [Bus M] {base loadAddress : Uint32}

/-- A fix-up that returns has relocated the long word at its address. -/
theorem fixUpAt_returned [LongBus M] {place : Uint32} {before after : DosExecContext M}
    (inside : place.toNat + 4 ≤ Bus.size before.allocator.as)
    (returned : Returns (fixUpAt base loadAddress place) before () after) :
    Bus.size after.allocator.as = Bus.size before.allocator.as ∧
      Bus.byte after.allocator.as =
        relocateAt base loadAddress (Bus.byte before.allocator.as) place := by
  obtain ⟨value, middle, read, stored⟩ := returns_bind.mp returned
  rw [get32, returns_atomic] at read
  obtain ⟨got, rfl⟩ := Prod.mk.inj read
  obtain rfl := LongBus.get32_returned _ place value inside got
  rw [put32, access, returns_atomic] at stored
  obtain ⟨put, rfl⟩ := Prod.mk.inj stored
  have done := LongBus.put32_returned place _ before.allocator.as _ inside (Prod.ext put rfl)
  exact ⟨done.size, done.byte⟩

/-- Fix-ups that return have relocated the long words at their addresses.

Proof: by induction on the fix-ups. -/
theorem fixUpAll_returned [LongBus M] {places : List Uint32} {before after : DosExecContext M}
    (inside : ∀ place ∈ places, place.toNat + 4 ≤ Bus.size before.allocator.as)
    (returned : Returns (fixUpAll base loadAddress places) before () after) :
    Bus.byte after.allocator.as = relocate base loadAddress places (Bus.byte before.allocator.as) := by
  induction places generalizing before with
  | nil =>
    obtain ⟨-, rfl⟩ := returns_pure.mp returned
    rfl
  | cons place rest inductionHypothesis =>
    obtain ⟨insideFirst, insideRest⟩ := List.forall_mem_cons.mp inside
    obtain ⟨_, middle, first, others⟩ := returns_bind.mp returned
    obtain ⟨size, bytes⟩ := fixUpAt_returned insideFirst first
    rw [inductionHypothesis (by rw [size]; exact insideRest) others, bytes]
    rfl

/-- Over an accepted table the loop makes the fix-ups that the table has. -/
theorem fixUpLoop_accepted {heap : Store} {relocSize : Nat} {places : List Uint32}
    (accepted : fixUpPlaces (slice heap 0 relocSize) loadAddress = some places)
    (context : DosExecContext M) {outcome : Except Thrown Unit} {after : DosExecContext M} :
    Ends (fixUpLoop base loadAddress heap relocSize) context outcome after ↔
      Ends (fixUpAll base loadAddress places) context outcome after := by
  have spans : Spans base loadAddress (slice heap 0 relocSize) loadAddress context :=
    Or.inl (by rw [walk_accepted _ _ _ accepted]; exact Last.noConfusion)
  rw [fixUpLoop, loop_fixUp relocSize (Nat.zero_add relocSize) spans, fixUp_places _ _ _ _ _ accepted]

end Programs

section Files

variable {M : Type} [Bus M] {file : List Byte} {offsets : List Nat} {loadAddress : Uint32}

/-- The addresses of the long words listed. -/
def listed (loadAddress : Uint32) (offsets : List Nat) : List Uint32 :=
  offsets.map fun offset => loadAddress + BitVec.ofNat 32 offset

/-- An encoded file is accepted with the long words listed. -/
theorem encoded_accepted (encoded : Encoded file offsets)
    (small : imageSize (header file) < 2 ^ 32) (loadAddress : Uint32) :
    Accepted file loadAddress (listed loadAddress offsets) := by
  refine ⟨encoded.long, encoded.magic, encoded.image, encoded.complete, ?_⟩
  have ordered : (0 :: offsets).IsChain (· ≤ ·) := by
    have weaker : offsets.IsChain (· ≤ ·) := encoded.apart.imp fun _ _ far => by omega
    cases offsets with
    | nil => exact .singleton 0
    | cons offset rest => exact List.isChain_cons_cons.mpr ⟨Nat.zero_le _, weaker⟩
  have read := fixUpPlaces_encodeTable encoded.even rfl ordered
    (fun offset member => by have := encoded.inside offset member; omega) loadAddress
  rw [encoded.table]
  simpa [listed] using read

/-- The loader places text and data, relocates them, and then sets up the process. -/
theorem ends_loadExecutable {host : Host} {name : List Byte} {address : Uint32} {heap : Store}
    {places : List Uint32} (found : host name = some file)
    (accepted : Accepted file (address + 0xf0) places)
    (read : slice heap 0 (header file).relocSize.toNat =
      ((file.drop 64).drop (imageSize (header file))).take (header file).relocSize.toNat)
    {context after : DosExecContext M} {outcome : Except Thrown Uint32} :
    Ends (loadExecutable host name address) context outcome after ↔
      Ends (do
        place (header file).base (address + 0xf0) (fileImage file) heap (header file).relocSize.toNat
        put32 (address + 0xf0 - 0x100 + 0x80) 0
        putString (address + 0xf0 - 0x100 + 0xc4) name
        setA 0 (address + 0xf0 - 0x100)
        setA 1 (address + 0xf0 + (header file).textSize + (header file).dataSize +
          (header file).bssSize)
        pure (address + 0xf0 + (header file).startOffset)) context outcome after := by
  rw [loadExecutable_accepted found accepted, loadAccepted, place, bind_assoc, ends_bind, ends_bind]
  have table : fixUpPlaces (slice heap 0 (header file).relocSize.toNat) (address + 0xf0) = some places :=
    read ▸ accepted.fixUps
  refine or_congr Iff.rfl (exists_congr fun _ => exists_congr fun middle => and_congr_right fun _ => ?_)
  rw [ends_bind, ends_bind]
  refine or_congr (exists_congr fun failure => and_congr_left fun _ => ?_)
    (exists_congr fun _ => exists_congr fun last => and_congr_left fun _ => ?_)
  · exact (fixUpLoop_accepted table middle).symm
  · exact (fixUpLoop_accepted table middle).symm

/-- The long word at an offset of bytes that have been laid down. -/
theorem wordAt_lay (store : Store) (start offset : Nat) (bytes : List Byte)
    (inside : offset + 4 ≤ bytes.length) :
    BitVec.ofNat 32 (decode (slice (lay store start bytes) (start + offset) 4)) =
      wordAt bytes offset := by
  have same : slice (lay store start bytes) (start + offset) 4 = (bytes.drop offset).take 4 := by
    apply List.ext_getElem?
    intro index
    by_cases within : index < 4
    · rw [slice_get _ _ _ _ within, List.getElem?_take_of_lt within, List.getElem?_drop, Nat.add_assoc,
        lay_inside _ _ _ _ (by omega), List.getElem?_eq_getElem]
    · rw [List.getElem?_eq_none (by simpa using within), List.getElem?_eq_none (by simp; omega)]
  rw [same, wordAt]

/-- Long words of the image do not wrap. -/
theorem listed_toNat (encoded : Encoded file offsets) {loadAddress : Uint32}
    (room : loadAddress.toNat + imageSize (header file) ≤ 0x1000000) {offset : Nat}
    (member : offset ∈ offsets) :
    (loadAddress + BitVec.ofNat 32 offset).toNat = loadAddress.toNat + offset := by
  have inside := encoded.inside offset member
  bv_omega

/-- The listed places lie in the image. -/
theorem listed_inside (encoded : Encoded file offsets) {loadAddress : Uint32}
    (room : loadAddress.toNat + imageSize (header file) ≤ 0x1000000) :
    ∀ place ∈ listed loadAddress offsets,
      place.toNat + 4 ≤ loadAddress.toNat + imageSize (header file) := by
  intro place member
  obtain ⟨offset, known, rfl⟩ := List.mem_map.mp member
  have inside := encoded.inside offset known
  rw [listed_toNat encoded room known]
  omega

/-- They are in order and do not overlap. -/
theorem listed_apart (encoded : Encoded file offsets) {loadAddress : Uint32}
    (room : loadAddress.toNat + imageSize (header file) ≤ 0x1000000) :
    (listed loadAddress offsets).Pairwise fun one two => one.toNat + 4 ≤ two.toNat := by
  have transitive : Trans (fun one two : Nat => one + 4 ≤ two) (fun one two => one + 4 ≤ two)
      fun one two => one + 4 ≤ two := ⟨fun first second => by omega⟩
  have offsetsApart := List.isChain_iff_pairwise.mp encoded.apart
  refine List.pairwise_map.mpr (offsetsApart.imp_of_mem fun one two far => ?_)
  rw [listed_toNat encoded room one, listed_toNat encoded room two]
  omega

/-- The image with the fix-ups of an encoded table. -/
theorem relocate_image (encoded : Encoded file offsets) {loadAddress : Uint32}
    (room : loadAddress.toNat + imageSize (header file) ≤ 0x1000000) (store : Store)
    (length : (fileImage file).length = imageSize (header file)) :
    Relocated file offsets loadAddress (relocate (header file).base loadAddress
      (listed loadAddress offsets) (lay store loadAddress.toNat (fileImage file))) := by
  refine ⟨fun offset member => ?_, fun index within apart => ?_⟩
  · have place : loadAddress + BitVec.ofNat 32 offset ∈ listed loadAddress offsets :=
      List.mem_map_of_mem member
    have inside := encoded.inside offset member
    have word := relocate_word (header file).base loadAddress
      (lay store loadAddress.toNat (fileImage file)) (listed_apart encoded room) place
    rw [listed_toNat encoded room member, wordAt_lay _ _ _ _ (by rw [length]; exact inside)] at word
    exact word
  · have other : ∀ place ∈ listed loadAddress offsets,
        loadAddress.toNat + index < place.toNat ∨ place.toNat + 4 ≤ loadAddress.toNat + index := by
      intro place member
      obtain ⟨offset, known, rfl⟩ := List.mem_map.mp member
      have clear := apart offset known
      rw [listed_toNat encoded room known]
      omega
    rw [relocate_other _ _ _ _ other, lay_inside _ _ _ _ (by rw [length]; exact within)]
    exact List.getElem?_eq_getElem _

/-- For every file with an encoded table, every load address and every buffer that holds the
table: at an even load address the loop returns, and wherever it returns, each long word listed is
that of the file plus the load address minus the base, and every other byte of text and data is
that of the file.

Proof: the loop makes the fix-ups that the table encodes; they are apart, so that each changes its
own long word and no other byte. -/
theorem relocation_exact [LongBus M] (encoded : Encoded file offsets) (loadAddress : Uint32)
    (heap : Store)
    (read : slice heap 0 (header file).relocSize.toNat =
      ((file.drop 64).drop (imageSize (header file))).take (header file).relocSize.toNat)
    (context : DosExecContext M)
    (room : loadAddress.toNat + imageSize (header file) ≤ Bus.size context.allocator.as) :
    (loadAddress.toNat % 2 = 0 → ∃ after,
      Returns (place (header file).base loadAddress (fileImage file) heap
        (header file).relocSize.toNat) context () after) ∧
      ∀ after, Returns (place (header file).base loadAddress (fileImage file) heap
        (header file).relocSize.toNat) context () after →
          Relocated file offsets loadAddress (Bus.byte after.allocator.as) := by
  have limit := Bus.size_le context.allocator.as
  have low : loadAddress.toNat + imageSize (header file) ≤ 0x1000000 := Nat.le_trans room limit
  have accepted := encoded_accepted encoded (by omega) loadAddress
  have length := fileImage_length accepted
  have table : fixUpPlaces (slice heap 0 (header file).relocSize.toNat) loadAddress =
      some (listed loadAddress offsets) := read ▸ accepted.fixUps
  obtain ⟨_, placed, wrote, size, bytes⟩ := lays_write (M := M) loadAddress (fileImage file)
    (by rw [length]; exact room) context (Nat.le_refl _)
  have inside : ∀ place ∈ listed loadAddress offsets,
      place.toNat + 4 ≤ Bus.size placed.allocator.as := by
    intro place member
    rw [size]
    exact Nat.le_trans (listed_inside encoded low place member) room
  constructor
  · intro even
    have evenPlaces := fixUpPlaces_even _ _ _ accepted.fixUps even
    obtain ⟨_, after, relocated, -⟩ := lays_fixUpAll (M := M) (header file).base loadAddress _
      evenPlaces inside placed (Nat.le_refl _)
    exact ⟨after, returns_bind.mpr ⟨(), placed, wrote, (fixUpLoop_accepted table placed).mpr relocated⟩⟩
  · intro after returned
    obtain ⟨_, middle, first, looped⟩ := returns_bind.mp returned
    obtain ⟨-, rfl⟩ := returns_unique first wrote
    rw [fixUpAll_returned inside ((fixUpLoop_accepted table middle).mp looped), bytes]
    exact relocate_image encoded low _ length

/-- A file of six bytes of text and one fix-up, at offset 2. -/
theorem textFile_encoded : Encoded (textFile [0x4e, 0x71, 0, 0, 0, 8] [0, 2]) [2] := by
  have accepted : Accepted (textFile [0x4e, 0x71, 0, 0, 0, 8] [0, 2]) 0 [2] :=
    textFile_accepted _ _ _ _ (by decide) (by decide) (by decide)
  have size : imageSize (header (textFile [0x4e, 0x71, 0, 0, 0, 8] [0, 2])) = 6 := by
    rw [textFile_header]
    decide
  have relocSize : (header (textFile [0x4e, 0x71, 0, 0, 0, 8] [0, 2])).relocSize.toNat = 2 := by
    rw [textFile_header]
    decide
  refine ⟨accepted.long, accepted.magic, accepted.image, ?_, accepted.table, by simp, .singleton 2,
    fun offset member => by rw [List.mem_singleton.mp member, size]⟩
  rw [size, relocSize]
  rfl

/-- The file is loaded at 0x10000. -/
theorem relocation_exact_text : ∃ after : DosExecContext MainMemory.ByteMemory,
    Relocated (textFile [0x4e, 0x71, 0, 0, 0, 8] [0, 2]) [2] 0x10000 (Bus.byte after.allocator.as) := by
  have size : imageSize (header (textFile [0x4e, 0x71, 0, 0, 0, 8] [0, 2])) = 6 := by
    rw [textFile_header]
    decide
  have relocSize : (header (textFile [0x4e, 0x71, 0, 0, 0, 8] [0, 2])).relocSize.toNat = 2 := by
    rw [textFile_header]
    decide
  have read : slice (fun index => if index = 1 then 2 else 0) 0
      (header (textFile [0x4e, 0x71, 0, 0, 0, 8] [0, 2])).relocSize.toNat =
        (((textFile [0x4e, 0x71, 0, 0, 0, 8] [0, 2]).drop 64).drop
          (imageSize (header (textFile [0x4e, 0x71, 0, 0, 0, 8] [0, 2])))).take
            (header (textFile [0x4e, 0x71, 0, 0, 0, 8] [0, 2])).relocSize.toNat := by
    rw [size, relocSize]
    rfl
  obtain ⟨returns, relocates⟩ := relocation_exact textFile_encoded 0x10000 _ read
    (⟨⟨Allocator.megabyte, 0, 0, 0⟩, 0, ⟨fun _ => 0, 0, 0⟩⟩ : DosExecContext MainMemory.ByteMemory)
    (by rw [size]; decide)
  obtain ⟨after, returned⟩ := returns (by decide)
  exact ⟨after, relocates after returned⟩

end Files

end Relocation

end Vx68k
