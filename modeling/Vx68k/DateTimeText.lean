import Vx68k.AddressSpace
import Vx68k.Decimals

/-!
# Dates and times as text

`_DATEASC` and `_TIMEASC` take the fields of D1 apart, print them into an array on the
stack and copy the string from there to the address in A1. The arrays have room for
fields of two digits, but a field of eight bits may have three, and nothing limits it.

A string printed beyond the end of its array is undefined in the source, as is a read
beyond it; both end here with a fault of their own.
-/

namespace Vx68k.DateTimeText

open Programs ByteStores Decimals

/-- How a call fails: by an access beyond the array or by an exception of the memory. -/
inductive Failure where
  | overflow
  | exception (thrown : Thrown)
deriving DecidableEq

variable {M : Type} [Bus M]

/-- A call on the guest's memory, which may overflow its buffer or throw. -/
abbrev Call (M α : Type) := Program Failure M α

/-- Write a byte of the text. -/
def put8 (address value : Uint32) : Call M Unit := .atomic fun memory =>
  let ending := Bus.put8 address value memory
  (ending.1.mapError .exception, ending.2)

/-- `sprintf` into an array of so many bytes, given the text it makes. -/
def sprintf (capacity : Nat) (text : List Byte) : Call M (List Byte) :=
  if text.length + 1 ≤ capacity then pure (text ++ [0]) else .raise .overflow

/-- The loop over the array and the store of the terminator; the value is A1. -/
def copyString (address : Uint32) : List Byte → Call M Uint32
  | [] => .raise .overflow
  | p :: rest =>
    if p ≠ 0 then do
      put8 address (p.setWidth 32)
      copyString (address + 1) rest
    else do
      put8 address (p.setWidth 32)
      pure address

/-- The fields of a date in D1. -/
structure DateFields where
  mday : Uint32
  mon : Uint32
  year : Uint32
  format : Uint32
deriving DecidableEq

/-- The day, the month, the year and the format in D1. -/
def dateFields (d1 : Uint32) : DateFields :=
  let value := d1
  let mday := value &&& 0xff
  let value := value >>> 8
  let mon := value &&& 0xff
  let value := value >>> 8
  let year := value &&& 0xfff
  let value := value >>> 12
  let format := value &&& 0xf
  ⟨mday, mon, year, format⟩

/-- Three parts with a character between them. -/
def joined (separator : Byte) (first second third : List Byte) : List Byte :=
  first ++ [separator] ++ second ++ [separator] ++ third

/-- The text of a date in each of the four formats: `/` or `-`, with the whole year or
its last two digits. -/
def DateFields.text (date : DateFields) : List Byte :=
  match (date.format % 4).toNat with
  | 0 => joined 0x2f (padded 4 date.year.toNat) (padded 2 date.mon.toNat) (padded 2 date.mday.toNat)
  | 1 => joined 0x2d (padded 4 date.year.toNat) (padded 2 date.mon.toNat) (padded 2 date.mday.toNat)
  | 2 => joined 0x2f (padded 2 (date.year % 100).toNat) (padded 2 date.mon.toNat)
      (padded 2 date.mday.toNat)
  | _ => joined 0x2d (padded 2 (date.year % 100).toNat) (padded 2 date.mon.toNat)
      (padded 2 date.mday.toNat)

/-- `_DATEASC` with D1 and A1; its value is A1. -/
def iocsDateasc (d1 a1 : Uint32) : Call M Uint32 := do
  let str ← sprintf 11 (dateFields d1).text
  copyString a1 str

/-- The fields of a time in D1. -/
structure TimeFields where
  sec : Uint32
  min : Uint32
  hour : Uint32
deriving DecidableEq

/-- The second, the minute and the hour in D1. -/
def timeFields (d1 : Uint32) : TimeFields :=
  let value := d1
  let sec := value &&& 0xff
  let value := value >>> 8
  let min := value &&& 0xff
  let value := value >>> 8
  let hour := value &&& 0xff
  ⟨sec, min, hour⟩

/-- Hours, minutes and seconds of two digits with colons between them. -/
def TimeFields.text (time : TimeFields) : List Byte :=
  joined 0x3a (padded 2 time.hour.toNat) (padded 2 time.min.toNat) (padded 2 time.sec.toNat)

/-- `_TIMEASC` with D1 and A1; its value is A1. -/
def iocsTimeasc (d1 a1 : Uint32) : Call M Uint32 := do
  let str ← sprintf 9 (timeFields d1).text
  copyString a1 str

/-- Stores of bytes at consecutive addresses. -/
def putAll (address : Uint32) : List Byte → Call M Unit
  | [] => pure ()
  | byte :: rest => do
    put8 address (byte.setWidth 32)
    putAll (address + 1) rest

/-- The call fits its array and then stores exactly the string with its terminator at A1
and leaves A1 at the terminator; in main memory these are the bytes from A1 on. -/
structure Delivers (call : Uint32 → Call M Uint32) (capacity : Nat) (text : List Byte) : Prop where
  fits : text.length + 1 ≤ capacity
  stores : ∀ a1, call a1 = (do
    putAll a1 (text ++ [0])
    pure (a1 + BitVec.ofNat 32 text.length))
  stored : ∀ a1 (memory : M), a1.toNat + text.length + 1 ≤ Bus.size memory →
    ∃ after, Returns (call a1) memory (a1 + BitVec.ofNat 32 text.length) after ∧
      Stored Bus.size Bus.byte memory a1.toNat (text ++ [0]) after

/-- A string without zero bytes is copied up to the terminator. -/
theorem copyString_puts (text : List Byte) (clean : 0 ∉ text) (address : Uint32) :
    (copyString address (text ++ [0]) : Call M Uint32) = (do
      putAll address (text ++ [0])
      pure (address + BitVec.ofNat 32 text.length)) := by
  induction text generalizing address with
  | nil =>
    simp only [List.nil_append, copyString, putAll, ne_eq, not_true_eq_false, ↓reduceIte, bind_assoc,
      pure_bind, List.length_nil, BitVec.ofNat_eq_ofNat, BitVec.add_zero]
  | cons byte rest inductionHypothesis =>
    obtain ⟨different, others⟩ := List.ne_and_not_mem_of_not_mem_cons clean
    have next : address + 1 + BitVec.ofNat 32 rest.length =
        address + BitVec.ofNat 32 (byte :: rest).length := by
      rw [List.length_cons, BitVec.ofNat_add, BitVec.add_assoc, BitVec.add_comm 1]
      rfl
    rw [List.cons_append, copyString, if_pos different.symm, inductionHypothesis others, next, putAll,
      bind_assoc]

/-- In main memory the stores are one run of bytes. -/
theorem putAll_stored (bytes : List Byte) (address : Uint32) (memory : M)
    (inside : address.toNat + bytes.length ≤ Bus.size memory) :
    ∃ after, Returns (putAll address bytes) memory () after ∧
      Stored Bus.size Bus.byte memory address.toNat bytes after := by
  induction bytes generalizing address memory with
  | nil => exact ⟨memory, returns_pure.mpr ⟨rfl, rfl⟩, rfl, (lay_self _ _ 0).symm⟩
  | cons byte rest inductionHypothesis =>
    rw [List.length_cons] at inside
    have bounded := Bus.size_le memory
    have next : (address + 1).toNat = address.toNat + 1 := by bv_omega
    obtain ⟨middle, done, one⟩ := Bus.put8_main address (byte.setWidth 32) memory (by omega)
    rw [MainMemory.encode_byte] at one
    obtain ⟨after, later, others⟩ := inductionHypothesis (address + 1) middle
      (by rw [next, one.size]; omega)
    have first : Returns (put8 address (byte.setWidth 32)) memory () middle :=
      returns_atomic.mpr (by rw [done]; rfl)
    refine ⟨after, returns_bind.mpr ⟨(), middle, first, later⟩, others.size.trans one.size, ?_⟩
    rw [others.byte, one.byte, next]
    exact (lay_append (Bus.byte memory) address.toNat [byte] rest).symm

/-- A call that prints a text without zero bytes and copies it delivers the text exactly
when that fits its array. -/
theorem delivers_iff {capacity : Nat} {text : List Byte} (clean : 0 ∉ text) :
    Delivers (M := M) (fun a1 => sprintf capacity text >>= copyString a1) capacity text ↔
      text.length + 1 ≤ capacity := by
  constructor
  · exact fun delivers => delivers.fits
  · intro fits
    have stores (a1 : Uint32) : (sprintf capacity text >>= copyString a1 : Call M Uint32) = (do
        putAll a1 (text ++ [0])
        pure (a1 + BitVec.ofNat 32 text.length)) := by
      rw [sprintf, if_pos fits, pure_bind, copyString_puts text clean]
    refine ⟨fits, stores, fun a1 memory inside => ?_⟩
    obtain ⟨after, returned, stored⟩ := putAll_stored (text ++ [0]) a1 memory
      (by rw [List.length_append, List.length_singleton]; omega)
    exact ⟨after, by
      rw [stores]
      exact returns_bind.mpr ⟨(), after, returned, returns_pure.mpr ⟨rfl, rfl⟩⟩, stored⟩

/-- Three parts and two separators make up the length. -/
theorem joined_length (separator : Byte) (first second third : List Byte) :
    (joined separator first second third).length =
      first.length + second.length + third.length + 2 := by
  simp only [joined, List.length_append, List.length_singleton]
  omega

/-- Without a zero in the parts and between them there is none. -/
theorem joined_clean {separator : Byte} {first second third : List Byte} (between : 0 ≠ separator)
    (one : 0 ∉ first) (two : 0 ∉ second) (three : 0 ∉ third) :
    0 ∉ joined separator first second third := by
  simp only [joined, List.mem_append, List.mem_singleton, not_or]
  exact ⟨⟨⟨⟨one, between⟩, two⟩, between⟩, three⟩

/-- Masked fields have no more bits than the mask. -/
theorem field_byte (value : Uint32) : (value &&& 0xff).toNat < 256 := by
  have masked : (value &&& 0xff).toNat = value.toNat % 2 ^ 8 := and_low_toNat _ _ 8 rfl
  omega

/-- A year is below 4096. -/
theorem field_year (value : Uint32) : (value &&& 0xfff).toNat < 4096 := by
  have masked : (value &&& 0xfff).toNat = value.toNat % 2 ^ 12 := and_low_toNat _ _ 12 rfl
  omega

/-- A field of a byte takes two or three characters, and three only from 100 on. -/
theorem padded_byte {number : Nat} (small : number < 256) :
    2 ≤ (padded 2 number).length ∧ (padded 2 number).length ≤ 3 ∧
      ((padded 2 number).length = 2 ↔ number < 100) := by
  refine ⟨width_le_padded 2 number, padded_le (by decide) (by decide) (by omega), ?_⟩
  constructor
  · intro exact2
    by_contra large
    have longer := @padded_exceeds 2 number (by decide) (by omega)
    omega
  · intro below
    exact padded_fits (by decide) below

/-- The four formats by the number that selects them. -/
theorem format_cases (format : Uint32) :
    (format % 4).toNat = 0 ∨ (format % 4).toNat = 1 ∨ (format % 4).toNat = 2 ∨
      (format % 4).toNat = 3 := by
  have remainder : (format % 4).toNat = format.toNat % 4 := BitVec.toNat_umod
  omega

/-- With the whole year the string fits when day and month have two digits; with the last
two digits of the year it always does. -/
theorem date_fits_iff (date : DateFields) (mday : date.mday.toNat < 256)
    (mon : date.mon.toNat < 256) (year : date.year.toNat < 4096) :
    date.text.length + 1 ≤ 11 ↔
      date.format % 4 = 2 ∨ date.format % 4 = 3 ∨ date.mon.toNat < 100 ∧ date.mday.toNat < 100 := by
  obtain ⟨leastDay, mostDay, exactDay⟩ := padded_byte mday
  obtain ⟨leastMonth, mostMonth, exactMonth⟩ := padded_byte mon
  have whole : (padded 4 date.year.toNat).length = 4 := padded_fits (by decide) (by omega)
  have last : (padded 2 (date.year % 100).toNat).length = 2 := by
    have remainder : (date.year % 100).toNat = date.year.toNat % 100 := BitVec.toNat_umod
    exact padded_fits (by decide) (by omega)
  have two : date.format % 4 = 2 ↔ (date.format % 4).toNat = 2 := BitVec.toNat_inj.symm
  have three : date.format % 4 = 3 ↔ (date.format % 4).toNat = 3 := BitVec.toNat_inj.symm
  have narrow : 4 + (padded 2 date.mon.toNat).length + (padded 2 date.mday.toNat).length + 2 + 1 ≤ 11 ↔
      date.mon.toNat < 100 ∧ date.mday.toNat < 100 := by
    rw [← exactMonth, ← exactDay]
    omega
  rw [two, three]
  rcases format_cases date.format with case | case | case | case
  · simp only [DateFields.text, case, joined_length, whole, narrow]
    simp
  · simp only [DateFields.text, case, joined_length, whole, narrow]
    simp
  · simp only [DateFields.text, case, joined_length, last]
    exact iff_of_true (by omega) (Or.inl trivial)
  · simp only [DateFields.text, case, joined_length, last]
    exact iff_of_true (by omega) (Or.inr (Or.inl trivial))

/-- The text of a date has no zero before its terminator. -/
theorem date_clean (date : DateFields) : 0 ∉ date.text := by
  unfold DateFields.text
  split <;> exact joined_clean (by decide) (padded_clean _ _) (padded_clean _ _) (padded_clean _ _)

/-- A time fits when all its fields have two digits. -/
theorem time_fits_iff (time : TimeFields) (sec : time.sec.toNat < 256) (min : time.min.toNat < 256)
    (hour : time.hour.toNat < 256) :
    time.text.length + 1 ≤ 9 ↔
      time.hour.toNat < 100 ∧ time.min.toNat < 100 ∧ time.sec.toNat < 100 := by
  obtain ⟨leastSecond, -, exactSecond⟩ := padded_byte sec
  obtain ⟨leastMinute, -, exactMinute⟩ := padded_byte min
  obtain ⟨leastHour, -, exactHour⟩ := padded_byte hour
  simp only [TimeFields.text, joined_length]
  omega

/-- Nor has that of a time. -/
theorem time_clean (time : TimeFields) : 0 ∉ time.text :=
  joined_clean (by decide) (padded_clean _ _) (padded_clean _ _) (padded_clean _ _)

/-- A date is delivered exactly when its format has two digits of the year or its month and
day are below 100, and a time exactly when its fields are below 100, whatever D1 holds.

Proof: separators and terminator take three or four bytes, the whole year of twelve bits
takes four and every other field at least two; a field of a byte takes a third one from
100 on. What fits is copied up to its terminator, since no other byte of it is zero. -/
theorem ascii_delivers_iff (d1 : Uint32) :
    (Delivers (M := M) (iocsDateasc d1) 11 (dateFields d1).text ↔
      (dateFields d1).format % 4 = 2 ∨ (dateFields d1).format % 4 = 3 ∨
        (dateFields d1).mon.toNat < 100 ∧ (dateFields d1).mday.toNat < 100) ∧
    (Delivers (M := M) (iocsTimeasc d1) 9 (timeFields d1).text ↔
      (timeFields d1).hour.toNat < 100 ∧ (timeFields d1).min.toNat < 100 ∧
        (timeFields d1).sec.toNat < 100) := by
  constructor
  · exact (delivers_iff (date_clean _)).trans
      (date_fits_iff (dateFields d1) (field_byte _) (field_byte _) (field_year _))
  · exact (delivers_iff (time_clean _)).trans
      (time_fits_iff (timeFields d1) (field_byte _) (field_byte _) (field_byte _))

/-- The first day of a month 100, and an hour 100, run over the end of the arrays. -/
theorem ascii_overflows :
    (¬ Delivers (M := MainMemory.ByteMemory) (iocsDateasc 0x07d06401) 11
        (dateFields 0x07d06401).text ∧
      Raises (iocsDateasc 0x07d06401 0) (⟨16, 0, fun _ => 0⟩ : MainMemory.ByteMemory) .overflow
        ⟨16, 0, fun _ => 0⟩) ∧
    (¬ Delivers (M := MainMemory.ByteMemory) (iocsTimeasc 0x00640000) 9
        (timeFields 0x00640000).text ∧
      Raises (iocsTimeasc 0x00640000 0) (⟨16, 0, fun _ => 0⟩ : MainMemory.ByteMemory) .overflow
        ⟨16, 0, fun _ => 0⟩) := by
  have date : ¬ (dateFields 0x07d06401).text.length + 1 ≤ 11 := by decide
  have time : ¬ (timeFields 0x00640000).text.length + 1 ≤ 9 := by decide
  refine ⟨⟨fun delivers => date delivers.fits, ?_⟩, ⟨fun delivers => time delivers.fits, ?_⟩⟩
  · exact raises_bind.mpr (Or.inl (by rw [sprintf, if_neg date]; exact raises_raise.mpr ⟨rfl, rfl⟩))
  · exact raises_bind.mpr (Or.inl (by rw [sprintf, if_neg time]; exact raises_raise.mpr ⟨rfl, rfl⟩))

end Vx68k.DateTimeText
