import Mathlib.Data.Nat.Basic
import Mathlib.Data.BitVec
import Mathlib.Tactic.Ring

/-!
# Byte stores and big-endian numbers

A store gives a byte for every index. A run of bytes is read with `slice` and
replaced with `lay`; the two agree on the same run and do not disturb each other
on disjoint runs. Numbers of any width are encoded with the most significant
byte first. The width is a parameter, so byte, word and long-word accesses are
one operation at widths one, two and four.
-/

namespace Vx68k.ByteStores

/-- An eight-bit byte. -/
abbrev Byte := BitVec 8

/-- A byte for every index. -/
abbrev Store := Nat → Byte

/-- The low `count` bytes of a number, most significant first. -/
def encode : Nat → Nat → List Byte
  | 0, _ => []
  | count + 1, value => BitVec.ofNat 8 (value / 256 ^ count) :: encode count value

/-- The number whose big-endian bytes are given. -/
def decode : List Byte → Nat
  | [] => 0
  | byte :: rest => byte.toNat * 256 ^ rest.length + decode rest

/-- An encoded number has as many bytes as asked for. -/
@[simp]
theorem encode_length (count value : Nat) : (encode count value).length = count := by
  induction count with
  | zero => rfl
  | succ count inductionHypothesis => simp [encode, inductionHypothesis]

/-- Decoding an encoding keeps the number modulo the width. -/
theorem decode_encode (count value : Nat) : decode (encode count value) = value % 256 ^ count := by
  induction count with
  | zero => simp [encode, decode, Nat.mod_one]
  | succ count inductionHypothesis =>
    have split : value % 256 ^ (count + 1) =
        value % 256 ^ count + 256 ^ count * (value / 256 ^ count % 256) := by
      rw [Nat.pow_succ, Nat.mod_mul]
    simp only [encode, decode, encode_length, inductionHypothesis, BitVec.toNat_ofNat, split]
    rw [Nat.mul_comm, Nat.add_comm]

/-- Only the low bytes of a number are encoded. -/
theorem encode_mod (count value : Nat) : encode count (value % 256 ^ count) = encode count value := by
  suffices low : ∀ more, count ≤ more → encode count (value % 256 ^ more) = encode count value from
    low count (Nat.le_refl _)
  induction count with
  | zero => simp [encode]
  | succ count inductionHypothesis =>
    intro more enough
    obtain ⟨extra, rfl⟩ : ∃ extra, more = count + (1 + extra) := ⟨more - count - 1, by omega⟩
    have byte : value % 256 ^ (count + (1 + extra)) / 256 ^ count =
        value / 256 ^ count % 256 ^ (1 + extra) := by
      rw [Nat.pow_add, Nat.mod_mul_right_div_self]
    have head : BitVec.ofNat 8 (value / 256 ^ count % 256 ^ (1 + extra)) =
        BitVec.ofNat 8 (value / 256 ^ count) := by
      apply BitVec.eq_of_toNat_eq
      simp only [BitVec.toNat_ofNat]
      exact Nat.mod_mod_of_dvd _ (by rw [Nat.pow_add]; exact Dvd.intro _ rfl)
    rw [encode, encode, byte, head, inductionHypothesis _ (by omega)]

/-- The bytes of a number are those of its high part followed by its low part. -/
theorem encode_add (high low value : Nat) :
    encode (high + low) value = encode high (value / 256 ^ low) ++ encode low value := by
  induction high with
  | zero => simp [encode]
  | succ high inductionHypothesis =>
    have width : high + 1 + low = high + low + 1 := by omega
    rw [width, encode, encode, inductionHypothesis, Nat.div_div_eq_div_mul, ← Nat.pow_add,
      Nat.add_comm low high, List.cons_append]

/-- A concatenation is decoded with its first part at the higher weight. -/
theorem decode_append (high low : List Byte) :
    decode (high ++ low) = decode high * 256 ^ low.length + decode low := by
  induction high with
  | nil => simp [decode]
  | cons byte rest inductionHypothesis =>
    rw [List.cons_append, decode, decode, inductionHypothesis, List.length_append, Nat.pow_add]
    ring

/-- A mask of the low bits leaves the remainder. -/
theorem and_low_toNat {width : Nat} (value mask : BitVec width) (bits : Nat)
    (low : mask.toNat = 2 ^ bits - 1) : (value &&& mask).toNat = value.toNat % 2 ^ bits := by
  rw [BitVec.toNat_and, low, Nat.and_two_pow_sub_one_eq_mod]

/-- A mask that clears the low bits rounds down to a multiple. -/
theorem and_mask_toNat {width : Nat} (value mask : BitVec width) (bits : Nat)
    (clears : ∀ index, index < width → mask.getLsbD index = decide (bits ≤ index)) :
    (value &&& mask).toNat = value.toNat / 2 ^ bits * 2 ^ bits := by
  have shifted : value &&& mask = (value >>> bits) <<< bits := by
    apply BitVec.eq_of_getLsbD_eq
    intro index inside
    simp only [BitVec.getLsbD_and, BitVec.getLsbD_shiftLeft, BitVec.getLsbD_ushiftRight]
    rw [clears index inside]
    by_cases low : index < bits
    · simp [low]
    · simp [low, inside, Nat.le_of_not_lt low, Nat.add_sub_cancel' (Nat.le_of_not_lt low)]
  rw [shifted, BitVec.toNat_shiftLeft, BitVec.toNat_ushiftRight, Nat.shiftLeft_eq,
    Nat.shiftRight_eq_div_pow]
  exact Nat.mod_eq_of_lt (Nat.lt_of_le_of_lt (Nat.div_mul_le_self _ _) value.isLt)

/-- The bytes of a run of indices. -/
def slice (store : Store) (start : Nat) : Nat → List Byte
  | 0 => []
  | count + 1 => store start :: slice store (start + 1) count

/-- The store with a run of bytes replaced. -/
def lay (store : Store) (start : Nat) (bytes : List Byte) : Store := fun index =>
  if start ≤ index then bytes[index - start]?.getD (store index) else store index

/-- A slice has as many bytes as asked for. -/
@[simp]
theorem slice_length (store : Store) (start count : Nat) : (slice store start count).length = count := by
  induction count generalizing start with
  | zero => rfl
  | succ count inductionHypothesis => simp [slice, inductionHypothesis]

/-- Position by position, a slice is the store. -/
theorem slice_get (store : Store) (start count offset : Nat) (inside : offset < count) :
    (slice store start count)[offset]? = some (store (start + offset)) := by
  induction count generalizing start offset with
  | zero => omega
  | succ count inductionHypothesis =>
    cases offset with
    | zero => rfl
    | succ offset =>
      simp only [slice, List.getElem?_cons_succ]
      rw [inductionHypothesis (start + 1) offset (by omega)]
      congr 2
      omega

/-- A slice depends only on its own run of indices. -/
theorem slice_congr (store other : Store) (start count : Nat)
    (agree : ∀ index, start ≤ index → index < start + count → store index = other index) :
    slice store start count = slice other start count := by
  induction count generalizing start with
  | zero => rfl
  | succ count inductionHypothesis =>
    rw [slice, slice, agree start (Nat.le_refl _) (by omega),
      inductionHypothesis (start + 1) fun index low high => agree index (by omega) (by omega)]

/-- A run is read as two adjacent runs. -/
theorem slice_add (store : Store) (start first second : Nat) :
    slice store start (first + second) =
      slice store start first ++ slice store (start + first) second := by
  induction first generalizing start with
  | zero => simp [slice]
  | succ first inductionHypothesis =>
    have length : first + 1 + second = first + second + 1 := by omega
    have next : start + (first + 1) = start + 1 + first := by omega
    rw [length, slice, slice, inductionHypothesis, next, List.cons_append]

/-- Within the run laid down, the store has the new bytes. -/
theorem lay_inside (store : Store) (start : Nat) (bytes : List Byte) (offset : Nat)
    (inside : offset < bytes.length) : lay store start bytes (start + offset) = bytes[offset] := by
  simp [lay, List.getElem?_eq_getElem inside]

/-- Outside the run laid down, the store is unchanged. -/
theorem lay_outside (store : Store) (start : Nat) (bytes : List Byte) (index : Nat)
    (outside : index < start ∨ start + bytes.length ≤ index) : lay store start bytes index = store index := by
  unfold lay
  split
  · have past : bytes.length ≤ index - start := by omega
    simp [List.getElem?_eq_none past]
  · rfl

/-- Laying down a concatenation is laying down its parts one after the other. -/
theorem lay_append (store : Store) (start : Nat) (first second : List Byte) :
    lay store start (first ++ second) =
      lay (lay store start first) (start + first.length) second := by
  funext index
  by_cases before : index < start + first.length
  · rw [lay_outside _ (start + first.length) _ _ (Or.inl before)]
    unfold lay
    split
    · rw [List.getElem?_append_left (by omega)]
    · rfl
  · have low : start ≤ index := by omega
    have offset : index - start - first.length = index - (start + first.length) := by omega
    have past : first.length ≤ index - start := by omega
    simp [lay, low, Nat.le_of_not_lt before, List.getElem?_append_right past, offset,
      List.getElem?_eq_none past]

/-- Laying down the parts of a concatenation from the last one on is the same. -/
theorem lay_prepend (store : Store) (start : Nat) (first second : List Byte) :
    lay (lay store (start + first.length) second) start first =
      lay store start (first ++ second) := by
  rw [lay_append]
  funext index
  by_cases low : start ≤ index ∧ index < start + first.length
  · obtain ⟨offset, rfl⟩ : ∃ offset, index = start + offset := ⟨index - start, by omega⟩
    rw [lay_inside _ _ _ _ (by omega), lay_outside _ (start + first.length) _ _ (by omega),
      lay_inside _ _ _ _ (by omega)]
  · rw [lay_outside _ start _ _ (by omega)]
    unfold lay
    split
    · rw [if_pos (by omega), List.getElem?_eq_none (by omega : first.length ≤ index - start)]
      rfl
    · rw [ite_eq_right_iff.mpr]
      intro inside
      rw [List.getElem?_eq_none (by omega)]
      rfl

/-- A byte laid down with its own old value changes nothing. -/
theorem lay_self (store : Store) (start : Nat) (count : Nat) :
    lay store start (slice store start count) = store := by
  funext index
  by_cases inside : start ≤ index ∧ index < start + count
  · obtain ⟨offset, rfl⟩ : ∃ offset, index = start + offset := ⟨index - start, by omega⟩
    simp [lay, slice_get store start count offset (by omega)]
  · exact lay_outside store start _ index (by simp only [slice_length]; omega)

/-- Reading a run just laid down gives its bytes. -/
theorem slice_lay_same (store : Store) (start : Nat) (bytes : List Byte) :
    slice (lay store start bytes) start bytes.length = bytes := by
  apply List.ext_getElem?
  intro offset
  by_cases inside : offset < bytes.length
  · rw [slice_get _ _ _ _ inside, lay_inside _ _ _ _ inside, List.getElem?_eq_getElem inside]
  · rw [List.getElem?_eq_none (by simpa using inside), List.getElem?_eq_none (by omega)]

/-- Reading a run disjoint from the one laid down sees the old store. -/
theorem slice_lay_disjoint (store : Store) (start : Nat) (bytes : List Byte) (other count : Nat)
    (disjoint : other + count ≤ start ∨ start + bytes.length ≤ other) :
    slice (lay store start bytes) other count = slice store other count := by
  apply slice_congr
  intro index low high
  exact lay_outside store start bytes index (by omega)

/-- A run laid over another leaves that as it is just if its bytes are those that are there. -/
theorem slice_lay_iff (store : Store) (start : Nat) (bytes : List Byte) (skip count : Nat) :
    slice (lay store start bytes) (start + skip) count = slice store (start + skip) count ↔
      ∀ offset < count, ∀ byte, bytes[skip + offset]? = some byte →
        store (start + skip + offset) = byte := by
  constructor
  · intro same offset inside byte found
    obtain ⟨reached, rfl⟩ := List.getElem?_eq_some_iff.mp found
    have one := slice_get (lay store start bytes) (start + skip) count offset inside
    rw [same, slice_get _ _ _ _ inside, Nat.add_assoc, lay_inside _ _ _ _ reached] at one
    rw [Nat.add_assoc]
    exact Option.some.inj one
  · intro there
    apply slice_congr
    intro index low high
    obtain ⟨offset, rfl⟩ := Nat.exists_eq_add_of_le low
    by_cases reached : skip + offset < bytes.length
    · rw [there offset (by omega) _ (List.getElem?_eq_getElem reached), Nat.add_assoc,
        lay_inside _ _ _ _ reached]
    · exact lay_outside _ _ _ _ (by omega)

/-- The byte that a run has at an index. -/
def runAt (start : Nat) (bytes : List Byte) (index : Nat) : Option Byte :=
  if start ≤ index then bytes[index - start]? else none

/-- Bytes that are laid down are found at their places, and elsewhere what was there. -/
theorem lay_runAt (store : Store) (start : Nat) (bytes : List Byte) (index : Nat) :
    lay store start bytes index = (runAt start bytes index).getD (store index) := by
  rw [lay, runAt]
  split <;> rfl

/-- Every byte of a run is given by another run or by the store below it. -/
def Given (store : Store) (start : Nat) (bytes : List Byte) (other : Nat) (others : List Byte) :
    Prop :=
  ∀ index byte, runAt start bytes index = some byte →
    (runAt other others index).getD (store index) = byte

/-- Two runs make the same store exactly if each byte of one is given without it. -/
theorem lay_eq_iff (store : Store) (start : Nat) (bytes : List Byte) (other : Nat)
    (others : List Byte) : lay store start bytes = lay store other others ↔
      Given store start bytes other others ∧ Given store other others start bytes := by
  constructor
  · intro same
    have pointwise (index : Nat) : (runAt start bytes index).getD (store index) =
        (runAt other others index).getD (store index) := by
      rw [← lay_runAt, ← lay_runAt, same]
    exact ⟨fun index byte here => by rw [← pointwise, here]; rfl,
      fun index byte here => by rw [pointwise, here]; rfl⟩
  · rintro ⟨one, two⟩
    funext index
    rw [lay_runAt, lay_runAt]
    cases here : runAt start bytes index with
    | some byte => exact (one index byte here).symm
    | none =>
      cases there : runAt other others index with
      | some byte =>
        have given := two index byte there
        rw [here] at given
        exact given
      | none => rfl

/-- Two strings without the terminator that end at it and start at one index are one. -/
theorem text_unique {store : Store} {start : Nat} {text other : List Byte} {stop : Byte}
    (clean : stop ∉ text) (otherClean : stop ∉ other)
    (stored : slice store start (text.length + 1) = text ++ [stop])
    (otherStored : slice store start (other.length + 1) = other ++ [stop]) : text = other := by
  induction text generalizing start other with
  | nil =>
    cases other with
    | nil => rfl
    | cons byte rest =>
      rw [List.nil_append, slice, List.cons.injEq] at stored
      rw [List.cons_append, slice, List.cons.injEq] at otherStored
      exact absurd (stored.1.symm.trans otherStored.1) (List.ne_of_not_mem_cons otherClean)
  | cons byte rest inductionHypothesis =>
    rw [List.cons_append, slice, List.cons.injEq] at stored
    cases other with
    | nil =>
      rw [List.nil_append, slice, List.cons.injEq] at otherStored
      exact absurd (otherStored.1.symm.trans stored.1) (List.ne_of_not_mem_cons clean)
    | cons second others =>
      rw [List.cons_append, slice, List.cons.injEq] at otherStored
      rw [stored.1.symm.trans otherStored.1, inductionHypothesis
        (List.not_mem_of_not_mem_cons clean) (List.not_mem_of_not_mem_cons otherClean) stored.2
        otherStored.2]

/-- A string up to the first terminator of a store, if that is among so many bytes. -/
def textAt (stop : Byte) (store : Store) (start : Nat) : Nat → Option (List Byte)
  | 0 => none
  | count + 1 =>
    if store start = stop then some []
    else (textAt stop store (start + 1) count).map (store start :: ·)

/-- A string that a terminator ends is found. -/
theorem textAt_stored {store : Store} {start count : Nat} {text : List Byte} {stop : Byte}
    (clean : stop ∉ text) (stored : slice store start (text.length + 1) = text ++ [stop])
    (enough : text.length < count) : textAt stop store start count = some text := by
  induction text generalizing start count with
  | nil =>
    obtain ⟨more, rfl⟩ := Nat.exists_eq_add_of_lt enough
    rw [List.nil_append, slice, List.cons.injEq] at stored
    rw [textAt, if_pos stored.1]
  | cons byte rest inductionHypothesis =>
    rw [List.length_cons] at enough
    obtain ⟨more, rfl⟩ : ∃ more, count = more + 1 := ⟨count - 1, by omega⟩
    rw [List.cons_append, slice, List.cons.injEq] at stored
    have different : store start ≠ stop := by
      rw [stored.1]
      exact (List.ne_of_not_mem_cons clean).symm
    rw [textAt, if_neg different, inductionHypothesis (List.not_mem_of_not_mem_cons clean)
      stored.2 (by omega), stored.1]
    rfl

/-- A string that is found has no terminator and one after it. -/
theorem textAt_found {store : Store} {start count : Nat} {text : List Byte} {stop : Byte}
    (found : textAt stop store start count = some text) :
    stop ∉ text ∧ text.length < count ∧ slice store start (text.length + 1) = text ++ [stop] := by
  induction count generalizing start text with
  | zero => cases found
  | succ count inductionHypothesis =>
    rw [textAt] at found
    split at found
    · rename_i ends
      obtain rfl := Option.some.inj found
      exact ⟨by simp, by simp, by rw [List.length_nil, slice, slice, ends]; rfl⟩
    · rename_i goesOn
      obtain ⟨rest, later, rfl⟩ := Option.map_eq_some_iff.mp found
      obtain ⟨clean, enough, stored⟩ := inductionHypothesis later
      refine ⟨?_, by rw [List.length_cons]; omega, by rw [List.length_cons, slice, stored]; rfl⟩
      exact List.not_mem_cons_of_ne_of_not_mem (Ne.symm goesOn) clean

/-- Where a terminator is not far away a string is found. -/
theorem textAt_exists {store : Store} {start count : Nat} {stop : Byte} (offset : Nat)
    (near : offset < count) (ends : store (start + offset) = stop) :
    ∃ text, textAt stop store start count = some text := by
  induction count generalizing start offset with
  | zero => omega
  | succ count inductionHypothesis =>
    rw [textAt]
    split
    · exact ⟨[], rfl⟩
    · rename_i goesOn
      obtain ⟨more, rfl⟩ : ∃ more, offset = more + 1 := by
        refine ⟨offset - 1, ?_⟩
        have positive : offset ≠ 0 := by
          rintro rfl
          exact goesOn ends
        omega
      have next : start + (more + 1) = start + 1 + more := by omega
      obtain ⟨text, found⟩ := inductionHypothesis more (by omega) (next ▸ ends)
      exact ⟨_, by rw [found]; rfl⟩

/-- A run laid over two stores leaves them alike where they are. -/
theorem lay_alike {store other : Store} {kept : Nat → Prop}
    (alike : ∀ index, kept index → store index = other index) (start : Nat) (bytes : List Byte) :
    ∀ index, kept index → lay store start bytes index = lay other start bytes index := by
  intro index inside
  rw [lay, lay, alike index inside]

/-- A stored number is read back modulo its width. -/
theorem decode_lay_encode (store : Store) (start count value : Nat) :
    decode (slice (lay store start (encode count value)) start count) = value % 256 ^ count := by
  have same := slice_lay_same store start (encode count value)
  rw [encode_length] at same
  rw [same, decode_encode]

/-- Lay down runs of bytes one after the other, each at its start. -/
def layAll (runs : List (Nat × List Byte)) (store : Store) : Store :=
  runs.foldl (fun store run => lay store run.1 run.2) store

/-- Two runs have no index in common. -/
def Apart (earlier later : Nat × List Byte) : Prop :=
  earlier.1 + earlier.2.length ≤ later.1 ∨ later.1 + later.2.length ≤ earlier.1

/-- A run apart from all that are laid down is read as before. -/
theorem slice_layAll_apart (runs : List (Nat × List Byte)) (store : Store) (run : Nat × List Byte)
    (apart : ∀ other ∈ runs, Apart run other) :
    slice (layAll runs store) run.1 run.2.length = slice store run.1 run.2.length := by
  induction runs generalizing store with
  | nil => rfl
  | cons first rest inductionHypothesis =>
    rw [layAll, List.foldl_cons, ← layAll,
      inductionHypothesis _ fun other member => apart other (List.mem_cons_of_mem _ member)]
    exact slice_lay_disjoint _ _ _ _ _ (apart first List.mem_cons_self)

/-- Of runs that are apart each is read back. -/
theorem slice_layAll (runs : List (Nat × List Byte)) (store : Store) (run : Nat × List Byte)
    (apart : runs.Pairwise Apart) (member : run ∈ runs) :
    slice (layAll runs store) run.1 run.2.length = run.2 := by
  induction runs generalizing store with
  | nil => exact absurd member List.not_mem_nil
  | cons first rest inductionHypothesis =>
    obtain ⟨others, restApart⟩ := List.pairwise_cons.mp apart
    rw [layAll, List.foldl_cons, ← layAll]
    rcases List.mem_cons.mp member with rfl | later
    · rw [slice_layAll_apart rest _ run others]
      exact slice_lay_same store run.1 run.2
    · exact inductionHypothesis _ restApart later

/-- So many bytes are copied from one sequence of indices to another; all other
bytes are the initial ones. -/
structure Copied (initial : Store) (source destination : Nat → Nat) (count : Nat) (store : Store) :
    Prop where
  copied : ∀ offset < count, store (destination offset) = initial (source offset)
  frame : ∀ index, (∀ offset < count, index ≠ destination offset) → store index = initial index

/-- Before the first byte nothing has been copied. -/
theorem copied_zero (initial : Store) (source destination : Nat → Nat) :
    Copied initial source destination 0 initial where
  copied _ none := absurd none (Nat.not_lt_zero _)
  frame _ _ := rfl

/-- One more byte is copied when its source has not been written and its
destination is a new one. -/
theorem copied_next {initial store : Store} {source destination : Nat → Nat} {count : Nat}
    (so : Copied initial source destination count store)
    (apart : ∀ offset < count, source count ≠ destination offset)
    (fresh : ∀ offset < count, destination count ≠ destination offset) :
    Copied initial source destination (count + 1)
      (lay store (destination count) [store (source count)]) where
  copied offset inside := by
    rcases Nat.lt_succ_iff_lt_or_eq.mp inside with earlier | rfl
    · have different := fresh offset earlier
      rw [lay_outside _ _ _ _ (by rw [List.length_singleton]; omega), so.copied offset earlier]
    · have written := lay_inside store (destination offset) [store (source offset)] 0 (by simp)
      rw [Nat.add_zero] at written
      rw [written, List.getElem_cons_zero, so.frame _ apart]
  frame index outside := by
    have other := outside count (Nat.lt_succ_self count)
    rw [lay_outside _ _ _ _ (by rw [List.length_singleton]; omega)]
    exact so.frame index fun offset earlier => outside offset (by omega)

end Vx68k.ByteStores
