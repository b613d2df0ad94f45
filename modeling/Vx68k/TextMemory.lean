import Vx68k.ConsoleRefresh

/-!
# The text video memory on the bus

The guest sees the four planes as one big-endian array of bytes that is mirrored all over the
range. A write that changes a byte marks the row of it, in whichever plane, and one that
changes nothing marks nothing; so the marks tell the console which rows may look different.

Word accesses are at even addresses, which the processor sees to.
-/

namespace Vx68k.TextMemory

open Programs ByteStores Buffers TextVideoMemory

/-- Read a word. Only the supervisor may. -/
def get16 (address : Uint32) (fc : FunctionCode) (tvram : TextVideoMemory) : Except Fault Uint16 :=
  if fc ≠ .superData then .error (.busError address .read fc)
  else .ok (TextVideoMemory.word tvram.buf (offset address))

/-- Read a byte. Only the supervisor may. -/
def get8 (address : Uint32) (fc : FunctionCode) (tvram : TextVideoMemory) : Except Fault Byte :=
  if fc ≠ .superData then .error (.busError address .read fc)
  else .ok (tvram.buf (offset address))

/-- An access with the value that it writes, if it writes one. -/
inductive Access where
  | byte (address : Uint32) (stored : Option Uint32) (fc : FunctionCode)
  | word (address : Uint32) (stored : Option Uint16) (fc : FunctionCode)
deriving DecidableEq

namespace Access

/-- The address of an access. -/
def address : Access → Uint32
  | byte address _ _ | word address _ _ => address

/-- Its function code. -/
def fc : Access → FunctionCode
  | byte _ _ fc | word _ _ fc => fc

/-- The number of its bytes. -/
def width : Access → Nat
  | byte _ _ _ => 1
  | word _ _ _ => 2

/-- The bytes that an access writes. -/
def stored : Access → Option (List Byte)
  | byte _ value _ => value.map fun value => encode 1 value.toNat
  | word _ value _ => value.map fun value => encode 2 value.toNat

/-- Words are accessed at even addresses. -/
def Aligned : Access → Prop
  | byte _ _ _ => True
  | word address _ _ => address.toNat % 2 = 0

instance : DecidablePred Aligned
  | byte _ _ _ => isTrue trivial
  | word address _ _ => inferInstanceAs (Decidable (address.toNat % 2 = 0))

end Access

/-- An access of the text video memory. A read has its value, a write none. -/
def perform (access : Access) : Program Fault TextVideoMemory (Option Nat) :=
  .atomic fun tvram =>
    match access with
    | .byte address none fc => ((get8 address fc tvram).map fun value => some value.toNat, tvram)
    | .word address none fc => ((get16 address fc tvram).map fun value => some value.toNat, tvram)
    | .byte address (some value) fc =>
      match tvram.put8 address value fc with
      | .ok after => (.ok none, after)
      | .error fault => (.error fault, tvram)
    | .word address (some value) fc =>
      match tvram.put16 address value fc with
      | .ok after => (.ok none, after)
      | .error fault => (.error fault, tvram)

/-- The bytes of the planes, and the rows that have changed. -/
structure Screen where
  byte : Store
  changed : Nat → Bool

/-- The same access of a byte array. -/
def refer (access : Access) (screen : Screen) : Except Fault (Option Nat) × Screen :=
  let start := offset access.address
  if access.fc ≠ .superData then
    (.error (.busError access.address (if access.stored.isSome then .write else .read) access.fc), screen)
  else
    match access.stored with
    | none => (.ok (some (decode (slice screen.byte start access.width))), screen)
    | some bytes =>
      (.ok none, ⟨lay screen.byte start bytes, fun y =>
        screen.changed y || decide (y = start / 128 % 1024 ∧ slice screen.byte start bytes.length ≠ bytes)⟩)

/-- A text video memory holds a screen, and around it what it held before. -/
structure Holds (around : Buffer Byte) (tvram : TextVideoMemory) (screen : Screen) : Prop where
  bytes : ∀ index : Nat, index < 0x80000 → tvram.buf index = screen.byte index
  around : ∀ index : Int, index < 0 ∨ 0x80000 ≤ index → tvram.buf index = around index
  marks : ∀ y : Nat, y < 1024 → tvram.rasterUpdateMarks y = screen.changed y

variable {around : Buffer Byte} {tvram : TextVideoMemory} {screen : Screen}

/-- Addresses repeat every 512 KiB. -/
theorem offset_lt (address : Uint32) : offset address < 0x80000 := Nat.mod_lt _ (by decide)

/-- The row of an address is marked, and no other. -/
theorem fills_row_iff (address : Uint32) {y : Nat} (inPlane : y < 1024) :
    Fills (row address) (row address + 1) y ↔ y = offset address / 128 % 1024 := by
  have place : (row address).toNat = offset address / 128 % 1024 := by
    rw [row, BitVec.toNat_ofNat]
    omega
  unfold Fills
  constructor
  · rintro ⟨-, low, high⟩
    have next : (row address + 1).toNat = (row address).toNat + 1 := by bv_omega
    have below := high (by omega)
    omega
  · rintro rfl
    exact ConsoleRefresh.Mutation.fills_row rfl

/-- The bytes of a word. -/
theorem encode_word (value : Uint16) :
    encode 2 value.toNat = [value.extractLsb' 8 8, value.extractLsb' 0 8] := by
  have high : BitVec.ofNat 8 (value.toNat / 256 ^ 1) = value.extractLsb' 8 8 := by
    apply BitVec.eq_of_toNat_eq
    rw [BitVec.toNat_ofNat, BitVec.extractLsb'_toNat, Nat.shiftRight_eq_div_pow]
    rfl
  have low : BitVec.ofNat 8 (value.toNat / 256 ^ 0) = value.extractLsb' 0 8 := by
    apply BitVec.eq_of_toNat_eq
    rw [BitVec.toNat_ofNat, BitVec.extractLsb'_toNat, Nat.shiftRight_eq_div_pow]
    rfl
  simp only [encode, high, low]

/-- A word is its two bytes, and equals another one if both do. -/
theorem word_eq_iff (value : Uint16) (high low : Byte) :
    value = high ++ low ↔ value.extractLsb' 8 8 = high ∧ value.extractLsb' 0 8 = low := by
  constructor
  · rintro rfl
    exact ⟨BitVec.extractLsb'_append_eq_left, BitVec.extractLsb'_append_eq_right⟩
  · rintro ⟨rfl, rfl⟩
    apply BitVec.eq_of_getLsbD_eq
    intro bit inside
    rw [BitVec.getLsbD_append]
    split
    · rename_i low
      simp [low]
    · rename_i high
      rw [BitVec.getLsbD_extractLsb', decide_eq_true (by omega), Bool.true_and,
        Nat.add_sub_cancel' (by omega)]

/-- A word is the number of its bytes. -/
theorem word_decode (high low : Byte) : (high ++ low).toNat = decode [high, low] := by
  have small := low.isLt
  rw [BitVec.toNat_append, ← Nat.shiftLeft_add_eq_or_of_lt small, Nat.shiftLeft_eq]
  simp [decode]

/-- The bytes that an access reads or replaces are those of the screen. -/
theorem holds_byte (holds : Holds around tvram screen) (address : Uint32) :
    tvram.buf (offset address) = screen.byte (offset address) := holds.bytes _ (offset_lt address)

/-- A word of the text video memory is two bytes of the array. -/
theorem holds_word (holds : Holds around tvram screen) {address : Uint32}
    (even : address.toNat % 2 = 0) :
    (TextVideoMemory.word tvram.buf (offset address)).toNat =
        decode (slice screen.byte (offset address) 2) ∧
      slice screen.byte (offset address) 2 =
        [tvram.buf (offset address), tvram.buf (offset address + 1)] := by
  have inside : offset address + 1 < 0x80000 := by
    unfold offset
    omega
  have second := holds.bytes (offset address + 1) inside
  have both : slice screen.byte (offset address) 2 =
      [tvram.buf (offset address), tvram.buf (offset address + 1)] := by
    rw [holds_byte holds, ← Nat.cast_succ, second]
    rfl
  refine ⟨?_, both⟩
  rw [both, TextVideoMemory.word, word_decode]

/-- Marking the row of an address. -/
theorem marks_row (tvram : TextVideoMemory) (address : Uint32) {y : Nat} (inPlane : y < 1024) :
    (markUpdateArea (row address) (row address + 1) tvram).rasterUpdateMarks y =
      (tvram.rasterUpdateMarks y || decide (y = offset address / 128 % 1024)) := by
  simp only [markUpdateArea, fills_row_iff address inPlane]
  split
  · rename_i here
    rw [decide_eq_true here, Bool.or_true]
  · rename_i other
    rw [decide_eq_false other, Bool.or_false]

/-- Bytes have been stored in a buffer from an index on. -/
def Stores (buf : Buffer Byte) (start : Nat) (bytes : List Byte) (new : Buffer Byte) : Prop :=
  (∀ (place : Nat) (inside : place < bytes.length), new (start + place : Nat) = bytes[place]) ∧
    ∀ index : Int, index < start ∨ start + bytes.length ≤ index → new index = buf index

/-- A write stores its bytes and marks their row, if it changes any. -/
theorem holds_put (holds : Holds around tvram screen) (address : Uint32) {bytes : List Byte}
    {new : Buffer Byte} (stores : Stores tvram.buf (offset address) bytes new)
    (inside : offset address + bytes.length ≤ 0x80000) :
    Holds around
      (if slice screen.byte (offset address) bytes.length ≠ bytes then
        markUpdateArea (row address) (row address + 1) { tvram with buf := new }
      else tvram)
      ⟨lay screen.byte (offset address) bytes, fun y => screen.changed y ||
        decide (y = offset address / 128 % 1024 ∧
          slice screen.byte (offset address) bytes.length ≠ bytes)⟩ := by
  obtain ⟨stored, others⟩ := stores
  by_cases differs : slice screen.byte (offset address) bytes.length ≠ bytes
  · rw [if_pos differs]
    refine ⟨fun index low => ?_, fun index out => ?_, fun y inPlane => ?_⟩
    · change new index = lay screen.byte (offset address) bytes index
      by_cases here : offset address ≤ index ∧ index < offset address + bytes.length
      · obtain ⟨place, rfl⟩ := Nat.exists_eq_add_of_le here.1
        have within : place < bytes.length := by omega
        rw [stored place within, lay_inside _ _ _ _ within]
      · rw [others index (by omega), lay_outside _ _ _ _ (by omega)]
        exact holds.bytes index low
    · change new index = around index
      rw [others index (by omega)]
      exact holds.around index out
    · rw [marks_row _ address inPlane]
      simp only [holds.marks y inPlane, differs, ne_eq, not_false_eq_true, and_true]
  · rw [if_neg differs]
    have same : lay screen.byte (offset address) bytes = screen.byte := by
      have unchanged := lay_self screen.byte (offset address) bytes.length
      rwa [not_not.mp differs] at unchanged
    refine ⟨fun index low => ?_, holds.around, fun y inPlane => ?_⟩
    · change _ = lay screen.byte (offset address) bytes index
      rw [same]
      exact holds.bytes index low
    · simp only [holds.marks y inPlane, differs, and_false, decide_false, Bool.or_false]

/-- A write that is not refused lays down its bytes and notes the row if they are new. -/
theorem refer_write {access : Access} {bytes : List Byte} (data : access.fc = .superData)
    (stored : access.stored = some bytes) (screen : Screen) :
    refer access screen = (.ok none, ⟨lay screen.byte (offset access.address) bytes, fun y =>
      screen.changed y || decide (y = offset access.address / 128 % 1024 ∧
        slice screen.byte (offset access.address) bytes.length ≠ bytes)⟩) := by
  simp [refer, data, stored]

/-- The supervisor writes a byte. -/
theorem put8_eq (tvram : TextVideoMemory) (address value : Uint32) :
    tvram.put8 address value .superData = .ok
      (if value.setWidth 8 ≠ tvram.buf (offset address) then
        markUpdateArea (row address) (row address + 1)
          { tvram with buf := store tvram.buf (offset address) (value.setWidth 8) }
      else tvram) := by
  rw [put8, if_neg (not_not.mpr rfl), apply_ite Except.ok]

/-- The supervisor writes a word. -/
theorem put16_eq (tvram : TextVideoMemory) (address : Uint32) (value : Uint16) :
    tvram.put16 address value .superData = .ok
      (if value ≠ TextVideoMemory.word tvram.buf (offset address) then
        markUpdateArea (row address) (row address + 1)
          { tvram with buf := storeWord (offset address) value tvram.buf }
      else tvram) := by
  rw [put16, if_neg (not_not.mpr rfl), apply_ite Except.ok]

/-- A byte write that is accepted. -/
theorem put8_holds (holds : Holds around tvram screen) (address value : Uint32) :
    ∃ after, tvram.put8 address value .superData = .ok after ∧
      Holds around after (refer (.byte address (some value) .superData) screen).2 := by
  have bytes : encode 1 value.toNat = [value.setWidth 8] := by
    rw [MainMemory.encode_one, BitVec.setWidth_eq_extractLsb' (by decide)]
  have differs : slice screen.byte (offset address) [value.setWidth 8].length ≠ [value.setWidth 8] ↔
      value.setWidth 8 ≠ tvram.buf (offset address) := by
    rw [holds_byte holds]
    simp [slice, eq_comm]
  have stores : Stores tvram.buf (offset address) [value.setWidth 8]
      (store tvram.buf (offset address) (value.setWidth 8)) := by
    constructor
    · intro place inside
      obtain rfl : place = 0 := by simpa using inside
      exact if_pos rfl
    · intro index other
      rw [List.length_singleton] at other
      exact if_neg (by omega)
  have put := holds_put holds address stores (offset_lt address)
  rw [if_congr differs rfl rfl] at put
  refine ⟨_, put8_eq tvram address value, ?_⟩
  have stored : (Access.byte address (some value) .superData).stored = some [value.setWidth 8] :=
    congrArg some bytes
  rw [refer_write rfl stored]
  exact put

/-- A word write at an even address that is accepted. -/
theorem put16_holds (holds : Holds around tvram screen) {address : Uint32}
    (even : address.toNat % 2 = 0) (value : Uint16) :
    ∃ after, tvram.put16 address value .superData = .ok after ∧
      Holds around after (refer (.word address (some value) .superData) screen).2 := by
  have inside : offset address + 2 ≤ 0x80000 := by
    unfold offset
    omega
  obtain ⟨-, old⟩ := holds_word holds even
  have differs : slice screen.byte (offset address)
        [value.extractLsb' 8 8, value.extractLsb' 0 8].length ≠
          [value.extractLsb' 8 8, value.extractLsb' 0 8] ↔
      value ≠ TextVideoMemory.word tvram.buf (offset address) := by
    change slice screen.byte (offset address) 2 ≠ _ ↔ _
    rw [old, TextVideoMemory.word, ne_eq, ne_eq, word_eq_iff]
    simp [eq_comm]
  have stores : Stores tvram.buf (offset address) [value.extractLsb' 8 8, value.extractLsb' 0 8]
      (storeWord (offset address) value tvram.buf) := by
    constructor
    · intro place within
      have first : place = 0 ∨ place = 1 := by
        rw [List.length_cons, List.length_singleton] at within
        omega
      rcases first with rfl | rfl
      · rw [storeWord, store, if_neg (by omega)]
        exact if_pos rfl
      · rw [storeWord]
        exact if_pos (by omega)
    · intro index other
      rw [List.length_cons, List.length_singleton] at other
      rw [storeWord, store, if_neg (by omega), store, if_neg (by omega)]
  have put := holds_put holds address stores inside
  rw [if_congr differs rfl rfl] at put
  refine ⟨_, put16_eq tvram address value, ?_⟩
  have stored : (Access.word address (some value) .superData).stored =
      some [value.extractLsb' 8 8, value.extractLsb' 0 8] := congrArg some (encode_word value)
  rw [refer_write rfl stored]
  exact put

/-- A refused access reports its address and changes nothing. -/
theorem perform_refused {access : Access} (other : access.fc ≠ .superData) (tvram : TextVideoMemory)
    (screen : Screen) : Ends (perform access) tvram (refer access screen).1 tvram ∧
      (refer access screen).2 = screen := by
  refine ⟨?_, congrArg Prod.snd (if_pos other)⟩
  apply ends_atomic.mpr
  obtain ⟨address, stored, fc⟩ | ⟨address, stored, fc⟩ := access <;>
    obtain _ | value := stored <;> change fc ≠ .superData at other
  · simp [refer, Access.fc, Access.address, Access.stored, other, get8, Except.map]
  · simp [refer, Access.fc, Access.address, Access.stored, other, put8]
  · simp [refer, Access.fc, Access.address, Access.stored, other, get16, Except.map]
  · simp [refer, Access.fc, Access.address, Access.stored, other, put16]

/-- An access does on the planes what it does on the byte array. -/
theorem perform_simulates (access : Access) (tvram : TextVideoMemory) (screen : Screen)
    (aligned : access.Aligned) (holds : Holds around tvram screen) :
    ∃ after, Ends (perform access) tvram (refer access screen).1 after ∧
      Holds around after (refer access screen).2 := by
  by_cases data : access.fc = .superData
  · obtain ⟨address, stored, fc⟩ | ⟨address, stored, fc⟩ := access <;>
      obtain _ | value := stored <;> obtain rfl : fc = .superData := data
    · have value : (tvram.buf (offset address)).toNat = decode (slice screen.byte (offset address) 1) := by
        rw [holds_byte holds]
        simp [slice, decode]
      refine ⟨tvram, ends_atomic.mpr ?_, holds⟩
      simp [refer, Access.fc, Access.address, Access.stored, Access.width, get8, Except.map, value]
    · obtain ⟨after, put, kept⟩ := put8_holds holds address value
      refine ⟨after, ends_atomic.mpr ?_, kept⟩
      simp only [put]
      rfl
    · obtain ⟨value, -⟩ := holds_word holds aligned
      refine ⟨tvram, ends_atomic.mpr ?_, holds⟩
      simp [refer, Access.fc, Access.address, Access.stored, Access.width, get16, Except.map, value]
    · obtain ⟨after, put, kept⟩ := put16_holds holds aligned value
      refine ⟨after, ends_atomic.mpr ?_, kept⟩
      simp only [put]
      rfl
  · obtain ⟨ended, same⟩ := perform_refused data tvram screen
    exact ⟨tvram, ended, same.symm ▸ holds⟩

/-- Two screens show the same on every row that is not marked in the later one, and no mark has
been taken back. -/
def Shows (before after : Screen) : Prop :=
  ∀ y, after.changed y = false → before.changed y = false ∧
    ∀ index < 0x80000, index / 128 % 1024 = y → after.byte index = before.byte index

/-- Screens that follow each other show the first one's rows where they are not marked. -/
theorem shows_trans {first second third : Screen} (before : Shows first second)
    (after : Shows second third) : Shows first third := by
  intro y unmarked
  obtain ⟨earlier, same⟩ := after y unmarked
  obtain ⟨still, equal⟩ := before y earlier
  exact ⟨still, fun index inside here => (same index inside here).trans (equal index inside here)⟩

/-- The bytes of an access lie on one row. -/
theorem stored_row {access : Access} (aligned : access.Aligned) {bytes : List Byte}
    (stored : access.stored = some bytes) {place : Nat} (inside : place < bytes.length) :
    (offset access.address + place) / 128 % 1024 = offset access.address / 128 % 1024 := by
  obtain ⟨address, value, fc⟩ | ⟨address, value, fc⟩ := access
  · obtain ⟨value, -, rfl⟩ := Option.map_eq_some_iff.mp stored
    rw [encode_length] at inside
    obtain rfl : place = 0 := by omega
    rfl
  · obtain ⟨value, -, rfl⟩ := Option.map_eq_some_iff.mp stored
    rw [encode_length] at inside
    change address.toNat % 2 = 0 at aligned
    have even : offset address % 2 = 0 := by
      unfold offset
      omega
    change (offset address + place) / 128 % 1024 = offset address / 128 % 1024
    omega

/-- An access marks the rows that it changes. -/
theorem refer_shows (access : Access) (screen : Screen) (aligned : access.Aligned) :
    Shows screen (refer access screen).2 := by
  intro y unmarked
  by_cases data : access.fc = .superData
  · cases stored : access.stored with
    | none =>
      have same : (refer access screen).2 = screen := by simp [refer, data, stored]
      rw [same] at unmarked ⊢
      exact ⟨unmarked, fun _ _ _ => rfl⟩
    | some bytes =>
      rw [refer_write data stored] at unmarked ⊢
      obtain ⟨still, free⟩ := Bool.or_eq_false_iff.mp unmarked
      refine ⟨still, fun index inside here => ?_⟩
      by_cases covered : offset access.address ≤ index ∧ index < offset access.address + bytes.length
      · obtain ⟨place, rfl⟩ := Nat.exists_eq_add_of_le covered.1
        rw [stored_row aligned stored (by omega)] at here
        have same : slice screen.byte (offset access.address) bytes.length = bytes := by
          by_contra differs
          exact of_decide_eq_false free ⟨here.symm, differs⟩
        have unchanged := lay_self screen.byte (offset access.address) bytes.length
        rw [same] at unchanged
        exact congrFun unchanged _
      · exact lay_outside _ _ _ _ (by omega)
  · have same : (refer access screen).2 = screen := congrArg Prod.snd (if_pos data)
    rw [same] at unmarked ⊢
    exact ⟨unmarked, fun _ _ _ => rfl⟩

/-- So do accesses one after the other. -/
theorem replay_shows (accesses : List Access) (screen : Screen)
    (aligned : ∀ access ∈ accesses, access.Aligned) :
    Shows screen (replay refer accesses screen).2 := by
  induction accesses generalizing screen with
  | nil => exact fun y unmarked => ⟨unmarked, fun _ _ _ => rfl⟩
  | cons access rest inductionHypothesis =>
    exact shows_trans (refer_shows access screen (aligned access (by simp)))
      (inductionHypothesis _ fun other member => aligned other (by simp [member]))

/-- The screen of a text video memory. -/
def denotes (tvram : TextVideoMemory) : Screen :=
  ⟨fun index => tvram.buf index, fun y => tvram.rasterUpdateMarks y⟩

/-- Aligned accesses, refused ones among them, answer as a byte array of 512 KiB does that repeats
all over the range and touch no byte beyond it, and a row that is unmarked after them looks as
before. -/
theorem text_memory_is_bytes (tvram : TextVideoMemory) (accesses : List Access)
    (aligned : ∀ access ∈ accesses, access.Aligned) :
    ∃ final, Session perform tvram (replay refer accesses (denotes tvram)).1 final ∧
      Holds tvram.buf final (replay refer accesses (denotes tvram)).2 ∧
      ∀ y : Nat, y < 1024 → final.rasterUpdateMarks y = false →
        tvram.rasterUpdateMarks y = false ∧
          ∀ index : Nat, index < 0x80000 → index / 128 % 1024 = y →
            final.buf index = tvram.buf index := by
  have start : Holds tvram.buf tvram (denotes tvram) :=
    ⟨fun _ _ => rfl, fun _ _ => rfl, fun _ _ => rfl⟩
  obtain ⟨final, session, holds⟩ := session_simulates perform refer (Holds tvram.buf) Access.Aligned
    (fun access concrete abstract admissible related =>
      perform_simulates access concrete abstract admissible related)
    accesses tvram (denotes tvram) start aligned
  refine ⟨final, session, holds, fun y inPlane unmarked => ?_⟩
  rw [holds.marks y inPlane] at unmarked
  obtain ⟨still, same⟩ := replay_shows accesses (denotes tvram) aligned y unmarked
  refine ⟨still, fun index inside here => ?_⟩
  rw [holds.bytes index inside]
  exact same index inside here

/-- A word is written twice through a mirror of the memory, its low byte is read, a user is refused,
and only the row that changed is marked. -/
theorem text_memory_is_bytes_mirrored :
    ∃ final, Session perform (construct ⟨fun _ _ => 0, fun _ _ => 0⟩)
      [(.word 0xe00080 (some 0x1234) .superData, .ok none),
        (.word 0xe80080 (some 0x1234) .superData, .ok none),
        (.byte 0xe00081 none .superData, .ok (some 0x34)),
        (.byte 0xe00081 (some 1) .userData, .error (.busError 0xe00081 .write .userData))] final ∧
      final.rasterUpdateMarks 1 = true ∧ final.rasterUpdateMarks 0 = false ∧ final.buf 0 = 0 := by
  obtain ⟨final, session, holds, -⟩ := text_memory_is_bytes (construct ⟨fun _ _ => 0, fun _ _ => 0⟩)
    [.word 0xe00080 (some 0x1234) .superData, .word 0xe80080 (some 0x1234) .superData,
      .byte 0xe00081 none .superData, .byte 0xe00081 (some 1) .userData] (by decide)
  exact ⟨final, session, holds.marks 1 (by decide), holds.marks 0 (by decide),
    holds.bytes 0 (by decide)⟩

end Vx68k.TextMemory
