import Vx68k.AddressSpace

/-!
# Reading files

A regular file is read in bulk into guest memory or by characters; the console gives the
characters of standard input. Both go through the host's `read`, a parameter: it returns
the bytes it has read and where the descriptor stands then, or nothing when it fails.

A local array of the source is not initialised, so each character read starts with a byte
that can be anything.
-/

namespace Vx68k.FileReads

open Programs ByteStores

/-- A file of the host and the position of a descriptor in it. -/
structure HostFile where
  content : List Byte
  position : Nat

/-- What is left of the file from the position on. -/
def HostFile.rest (file : HostFile) : List Byte := file.content.drop file.position

/-- The host's `read`: at most so many bytes. -/
abbrev Host := Nat → HostFile → Option (List Byte × HostFile)

/-- What `read` does to a regular file as long as it does not fail: the bytes from the
position on, fewer only where the file ends. -/
def Succeeds (host : Host) : Prop :=
  ∀ count file, host count file =
    some (file.rest.take count, ⟨file.content, file.position + (file.rest.take count).length⟩)

variable {M : Type} [Bus M]

/-- `regular_file::read`. -/
def read (host : Host) (dataptr size : Uint32) : Program Thrown (HostFile × M) Int :=
  .atomic fun (file, memory) =>
    match host size.toNat file with
    | none => (.ok (-6), (file, memory))
    | some (data, after) =>
      let stored := Bus.write dataptr data memory
      (stored.1.map fun _ => (BitVec.ofNat 32 data.length).toInt, (after, stored.2))

/-- `regular_file::fgetc`; the array holds a byte before. -/
def fgetc (host : Host) (stale : Byte) : Program Thrown HostFile Int :=
  .atomic fun file =>
    match host 1 file with
    | none => (.ok (-6), file)
    | some (data, after) => (.ok ((data.head?.getD stale).toNat : Int), after)

/-- `con_device_file::fgetc`; a failure of the host is not looked at. -/
def conFgetc (host : Host) (_stale : Byte) : Program Thrown HostFile Int :=
  .atomic fun input =>
    match host 1 input with
    | none => (.ok 1, input)
    | some (_, after) => (.ok 1, after)

/-- One character after the other, each with what its array holds before. -/
def characters (getc : Byte → Program Thrown HostFile Int) :
    List Byte → Program Thrown HostFile (List Int)
  | [] => pure []
  | stale :: others => do
    let code ← getc stale
    let codes ← characters getc others
    pure (code :: codes)

/-- The characters of a file are the bytes of one bulk read into memory, and negative
codes from where that has ended. -/
def AgreesInBulk (host : Host) (file : HostFile) (stale : List Byte) (dataptr : Uint32)
    (memory : M) : Prop :=
  ∃ codes rest, Returns (characters (fgetc host) stale) file codes rest ∧
    ∃ count after stored, Returns (read host dataptr (BitVec.ofNat 32 stale.length)) (file, memory)
        count (after, stored) ∧
      ∀ (index : Nat) (code : Int), codes[index]? = some code →
        if index < count then code = (Bus.byte stored (dataptr.toNat + index)).toNat else code < 0

/-- The characters of the console are the next bytes of standard input. -/
def AgreesWithInput (host : Host) (input : HostFile) (stale : List Byte) : Prop :=
  ∃ codes after, Returns (characters (conFgetc host) stale) input codes after ∧
    ∀ (index : Nat) (code : Int) (byte : Byte), codes[index]? = some code →
      input.rest[index]? = some byte → code = byte.toNat

/-- Characters taken from what is left of a file; where that has ended, the array is left. -/
def taken : List Byte → List Byte → List Int
  | _, [] => []
  | rest, stale :: others => ((rest.head?.getD stale).toNat : Int) :: taken (rest.drop 1) others

/-- The characters of a read: those of the file, and after its end what the array held. -/
theorem taken_get (rest stale : List Byte) (index : Nat) :
    (taken rest stale)[index]? =
      stale[index]?.map fun left => ((rest[index]?.getD left).toNat : Int) := by
  induction stale generalizing rest index with
  | nil => rfl
  | cons first others inductionHypothesis =>
    cases index with
    | zero => simp [taken, List.head?_eq_getElem?]
    | succ index =>
      rw [taken, List.getElem?_cons_succ, List.getElem?_cons_succ, inductionHypothesis,
        List.getElem?_drop, Nat.add_comm 1]

/-- Reading moves on by what it has read. -/
theorem rest_after (file : HostFile) (count : Nat) :
    HostFile.rest ⟨file.content, file.position + (file.rest.take count).length⟩ =
      file.rest.drop count := by
  rw [HostFile.rest, ← List.drop_drop, List.length_take]
  change file.rest.drop (min count file.rest.length) = file.rest.drop count
  rcases Nat.le_total count file.rest.length with enough | short
  · rw [Nat.min_eq_left enough]
  · rw [Nat.min_eq_right short, List.drop_length, List.drop_eq_nil_of_le short]

/-- The characters of a regular file. -/
theorem characters_taken {host : Host} (succeeds : Succeeds host) (file : HostFile)
    (stale : List Byte) :
    ∃ after, Returns (characters (fgetc host) stale) file (taken file.rest stale) after := by
  induction stale generalizing file with
  | nil => exact ⟨file, returns_pure.mpr ⟨rfl, rfl⟩⟩
  | cons first others inductionHypothesis =>
    obtain ⟨after, returned⟩ := inductionHypothesis
      ⟨file.content, file.position + (file.rest.take 1).length⟩
    rw [rest_after] at returned
    have one : Returns (fgetc host first) file ((file.rest.head?.getD first).toNat : Int)
        ⟨file.content, file.position + (file.rest.take 1).length⟩ := by
      refine returns_atomic.mpr ?_
      simp only [succeeds 1 file]
      cases file.rest <;> rfl
    exact ⟨after, returns_bind.mpr ⟨_, _, one, returns_bind.mpr ⟨_, _, returned,
      returns_pure.mpr ⟨rfl, rfl⟩⟩⟩⟩

/-- The characters of the console are all 1. -/
theorem characters_ones {host : Host} (succeeds : Succeeds host) (input : HostFile)
    (stale : List Byte) : ∃ after, Returns (characters (conFgetc host) stale) input
      (List.replicate stale.length 1) after := by
  induction stale generalizing input with
  | nil => exact ⟨input, returns_pure.mpr ⟨rfl, rfl⟩⟩
  | cons first others inductionHypothesis =>
    obtain ⟨after, returned⟩ := inductionHypothesis
      ⟨input.content, input.position + (input.rest.take 1).length⟩
    have one : Returns (conFgetc host first) input 1
        ⟨input.content, input.position + (input.rest.take 1).length⟩ :=
      returns_atomic.mpr (by simp only [succeeds 1 input])
    exact ⟨after, returns_bind.mpr ⟨_, _, one, returns_bind.mpr ⟨_, _, returned,
      returns_pure.mpr ⟨rfl, rfl⟩⟩⟩⟩

/-- A bulk read stores what is left of the file, up to its length. -/
theorem read_stored {host : Host} (succeeds : Succeeds host) (file : HostFile) (dataptr : Uint32)
    (size : Nat) (fits : size < 2 ^ 32) (memory : M)
    (room : dataptr.toNat + (file.rest.take size).length ≤ Bus.size memory) :
    ∃ after stored, Returns (read host dataptr (BitVec.ofNat 32 size)) (file, memory)
        (file.rest.take size).length (after, stored) ∧
      Stored Bus.size Bus.byte memory dataptr.toNat (file.rest.take size) stored := by
  have extent := Bus.size_le memory
  have asked : (BitVec.ofNat 32 size).toNat = size := by
    rw [BitVec.toNat_ofNat, Nat.mod_eq_of_lt fits]
  have result : (BitVec.ofNat 32 (file.rest.take size).length).toInt =
      ((file.rest.take size).length : Int) := by
    rw [BitVec.toInt_eq_toNat_of_lt] <;> rw [BitVec.toNat_ofNat, Nat.mod_eq_of_lt (by omega)]
    omega
  obtain ⟨after, done, stored⟩ := Bus.write_main dataptr (file.rest.take size) memory room
  refine ⟨⟨file.content, file.position + (file.rest.take size).length⟩, after,
    returns_atomic.mpr ?_, stored⟩
  simp only [asked, succeeds size file, done, ← result]
  rfl

/-- Character by character a file is read as in bulk exactly if it does not end before. -/
theorem agreesInBulk_iff {host : Host} (succeeds : Succeeds host) (file : HostFile)
    (stale : List Byte) (fits : stale.length < 2 ^ 32) (dataptr : Uint32) (memory : M)
    (room : dataptr.toNat + (file.rest.take stale.length).length ≤ Bus.size memory) :
    AgreesInBulk host file stale dataptr memory ↔ stale.length ≤ file.rest.length := by
  obtain ⟨rest, codes⟩ := characters_taken succeeds file stale
  obtain ⟨after, stored, bulk, lays⟩ := read_stored succeeds file dataptr stale.length fits memory room
  constructor
  · rintro ⟨others, last, again, count, done, left, read, agree⟩
    obtain ⟨rfl, -⟩ := returns_unique codes again
    obtain ⟨rfl, same⟩ := returns_unique bulk read
    obtain ⟨-, rfl⟩ := Prod.mk.inj same
    by_contra ends
    have inside : file.rest.length < stale.length := by omega
    have code := agree file.rest.length _ (by
      rw [taken_get, List.getElem?_eq_getElem inside, Option.map_some])
    rw [List.length_take, if_neg (by omega)] at code
    omega
  · intro enough
    refine ⟨_, rest, codes, _, after, stored, bulk, fun index code here => ?_⟩
    rw [taken_get] at here
    obtain ⟨left, inside, rfl⟩ := Option.map_eq_some_iff.mp here
    obtain ⟨reached, -⟩ := List.getElem?_eq_some_iff.mp inside
    have within : index < (file.rest.take stale.length).length := by
      rw [List.length_take]
      omega
    rw [if_pos (by omega), lays.byte, lay_inside _ _ _ _ within, List.getElem_take,
      List.getElem?_eq_getElem (by omega)]
    rfl

/-- The console agrees with its input exactly where that is all ones. -/
theorem agreesWithInput_iff {host : Host} (succeeds : Succeeds host) (input : HostFile)
    (stale : List Byte) :
    AgreesWithInput host input stale ↔ ∀ byte ∈ input.rest.take stale.length, byte = 1 := by
  obtain ⟨after, ones⟩ := characters_ones succeeds input stale
  constructor
  · rintro ⟨codes, last, again, agree⟩ byte member
    obtain ⟨rfl, -⟩ := returns_unique ones again
    obtain ⟨index, within, rfl⟩ := List.mem_iff_getElem.mp member
    rw [List.length_take] at within
    have code := agree index 1 _ (List.getElem?_replicate_of_lt (by omega))
      (List.getElem?_eq_getElem (by omega))
    rw [List.getElem_take]
    apply BitVec.eq_of_toNat_eq
    change _ = 1
    omega
  · intro all
    refine ⟨_, after, ones, fun index code byte here next => ?_⟩
    obtain ⟨within, rfl⟩ := List.getElem?_eq_some_iff.mp here
    obtain ⟨inside, rfl⟩ := List.getElem?_eq_some_iff.mp next
    rw [List.length_replicate] at within
    have member : input.rest[index] ∈ input.rest.take stale.length :=
      List.mem_take_iff_getElem.mpr ⟨index, by omega, rfl⟩
    rw [List.getElem_replicate, all _ member]
    rfl

/-- Reading by characters agrees with what there is to read exactly if the file does not
end before and the console is given nothing but the byte 1. -/
theorem characters_agree_iff {host : Host} (succeeds : Succeeds host) (file : HostFile)
    (stale : List Byte) (fits : stale.length < 2 ^ 32) (dataptr : Uint32) (memory : M)
    (room : dataptr.toNat + (file.rest.take stale.length).length ≤ Bus.size memory)
    (input : HostFile) (waiting : List Byte) :
    (AgreesInBulk host file stale dataptr memory ∧ AgreesWithInput host input waiting) ↔
      stale.length ≤ file.rest.length ∧ ∀ byte ∈ input.rest.take waiting.length, byte = 1 :=
  and_congr (agreesInBulk_iff succeeds file stale fits dataptr memory room)
    (agreesWithInput_iff succeeds input waiting)

/-- A host whose reads succeed. -/
def reading : Host := fun count file =>
  some (file.rest.take count, ⟨file.content, file.position + (file.rest.take count).length⟩)

/-- Three bytes from the second one on of a file of five, and an input that begins with two
ones. -/
theorem characters_agree_second :
    AgreesInBulk reading ⟨[0x41, 0x42, 0x43, 0x44, 0x45], 1⟩ [0x5a, 0x5b, 0x5c] 0x100
        (⟨0x1000, 0, fun _ => 0⟩ : MainMemory.ByteMemory) ∧
      AgreesWithInput reading ⟨[1, 1, 0x41], 0⟩ [0x5a, 0x5b] :=
  (characters_agree_iff (fun _ _ => rfl) ⟨[0x41, 0x42, 0x43, 0x44, 0x45], 1⟩ [0x5a, 0x5b, 0x5c]
    (by decide) 0x100 _ (by decide) ⟨[1, 1, 0x41], 0⟩ [0x5a, 0x5b]).mpr ⟨by decide, by decide⟩

/-- At the end of a file the character is the byte that the array held, here `Z`. -/
theorem end_not_seen :
    ¬ AgreesInBulk reading ⟨[0x41], 1⟩ [0x5a] 0x100
      (⟨0x1000, 0, fun _ => 0⟩ : MainMemory.ByteMemory) := by
  intro agrees
  have enough := (agreesInBulk_iff (fun _ _ => rfl) _ _ (by decide) 0x100
    (⟨0x1000, 0, fun _ => 0⟩ : MainMemory.ByteMemory) (by decide)).mp agrees
  exact absurd enough (by decide)

end Vx68k.FileReads
