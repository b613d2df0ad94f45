import Mathlib.Data.List.TakeWhile
import Vx68k.FileSystem

/-!
# DOS calls that work on strings

`_NAMECK` splits a path name and `_GETENV` looks up a variable of the host. Both take
their arguments from the guest's stack, fetch a string and store strings in a buffer.

The host's environment is a parameter.
-/

namespace Vx68k.StringCalls

open Programs ByteStores FileNames

/-- A call on the guest's memory. -/
abbrev Call (M α : Type) := Program Stop M α

variable {M : Type} [Bus M]

/-- An exception of an access goes on to the caller. -/
def passed {α : Type} (result : Except Thrown α) : Except Stop α := result.mapError .thrown

/-- Read a word of memory. -/
def get16 (address : Uint32) : Call M Uint32 :=
  .atomic fun memory => (passed (Bus.get16 memory address), memory)

/-- Read a long word of memory. -/
def get32 (address : Uint32) : Call M Uint32 :=
  .atomic fun memory => (passed (Bus.get32 memory address), memory)

/-- Read a string up to its terminator. -/
def getString [StringBus M] (address : Uint32) : Call M (List Byte) :=
  .atomic fun memory => (passed (StringBus.getString memory address), memory)

/-- Write a string with its terminator. -/
def putString (address : Uint32) (text : List Byte) : Call M Unit :=
  .atomic fun memory =>
    let ending := Bus.putString address text memory
    (passed ending.1, ending.2)

/-- A part of a string, or the exception of a position outside it. -/
def part (text : List Byte) (pos count : SizeType) : Call M (List Byte) :=
  .atomic fun memory => ((substr text pos count).mapError fun _ => .outOfRange, memory)

/-- `_NAMECK`. The last argument of the search is taken for the position where it
starts, so it is for any byte of the name up to position 0x2f. -/
def nameck [StringBus M] (sp : Uint32) : Call M Uint32 := do
  let file ← get32 sp
  let buffer ← get32 (sp + 4)
  let buf ← getString file
  let p := findLast (buf.contains ·) buf 0x2f
  if p = npos then do
    putString buffer [dot, slash]
    putString (buffer + 67) buf
    pure 0
  else do
    let p := p + 1
    let directory ← part buf 0 p
    putString buffer directory
    let file ← part buf p npos
    putString (buffer + 67) file
    pure 0

/-- The environment of the host: a value for each name that is set. -/
abbrev Environ := List Byte → Option (List Byte)

/-- `dos_exec_context::getenv`. -/
def getenv [StringBus M] (environ : Environ) (getname _env getbuf : Uint32) : Call M Uint32 := do
  let name ← getString getname
  let s := (environ (name.takeWhile (· ≠ 0))).getD []
  putString getbuf (if s.length > 255 then s.take 255 else s)
  pure 0

/-- `_GETENV`. Its three pointers are read as words. -/
def dosGetenv [StringBus M] (environ : Environ) (sp : Uint32) : Call M Uint32 := do
  let getname ← get16 sp
  let env ← get16 (sp + 4)
  let getbuf ← get16 (sp + 8)
  getenv environ getname env getbuf

/-- A long word of main memory is read. -/
theorem get32_returns [EvenBus M] (address : Uint32) (memory : M) (even : address.toNat % 2 = 0)
    (inside : address.toNat + 4 ≤ Bus.size memory) :
    Returns (get32 address) memory (Bus.word memory address) memory :=
  returns_atomic.mpr (by rw [EvenBus.get32_even memory address even inside]; rfl)

/-- A word of main memory is read: the high half of the long word there. -/
theorem get16_returns [WordBus M] (address : Uint32) (memory : M) (even : address.toNat % 2 = 0)
    (inside : address.toNat + 4 ≤ Bus.size memory) :
    Returns (get16 address) memory (Bus.word memory address >>> 16) memory := by
  have high : BitVec.ofNat 32 (decode (slice (Bus.byte memory) address.toNat 2)) =
      Bus.word memory address >>> 16 := by
    have first := (Bus.byte memory address.toNat).isLt
    have second := (Bus.byte memory (address.toNat + 1)).isLt
    have third := (Bus.byte memory (address.toNat + 1 + 1)).isLt
    have fourth := (Bus.byte memory (address.toNat + 1 + 1 + 1)).isLt
    apply BitVec.eq_of_toNat_eq
    rw [Bus.word, BitVec.toNat_ushiftRight, Nat.shiftRight_eq_div_pow]
    simp only [slice, decode, List.length_cons, List.length_nil, BitVec.toNat_ofNat]
    omega
  exact returns_atomic.mpr (by
    rw [WordBus.get16_even memory address even (by omega), high]
    rfl)

/-- A string of main memory is fetched. -/
theorem getString_returns [StringBus M] {address : Uint32} {memory : M} {text : List Byte} (clean : 0 ∉ text)
    (held : Bus.HoldsText memory address text) : Returns (getString address) memory text memory :=
  returns_atomic.mpr (by rw [StringBus.getString_main memory address text clean held]; rfl)

/-- A string that fits main memory is stored with its terminator. -/
theorem putString_returns (address : Uint32) (text : List Byte) (memory : M)
    (inside : address.toNat + text.length + 1 ≤ Bus.size memory) :
    ∃ after, Returns (putString address text) memory () after ∧
      Stored Bus.size Bus.byte memory address.toNat (text ++ [0]) after := by
  obtain ⟨after, done, stored⟩ := Bus.putString_main address text memory inside
  exact ⟨after, returns_atomic.mpr (by rw [done]; rfl), stored⟩

omit [Bus M] in
/-- A part within a string. -/
theorem part_returns {text piece : List Byte} {pos count : SizeType}
    (within : substr text pos count = .ok piece) (memory : M) :
    Returns (part text pos count) memory piece memory :=
  returns_atomic.mpr (by rw [within]; rfl)

/-- What `_NAMECK` takes for the directory: up to 48 bytes of the name. -/
def headPart (name : List Byte) : List Byte := if name = [] then [dot, slash] else name.take 48

/-- The search for any byte of a name finds its byte at position 0x2f or its last one. -/
theorem findLast_own {name : List Byte} (nonempty : name ≠ []) :
    findLast (name.contains ·) name 0x2f = BitVec.ofNat 64 (min 48 name.length - 1) := by
  have count : 0 < name.length := List.length_pos_iff.mpr nonempty
  have searched : (name.take 48).reverse ≠ [] := by simp [nonempty]
  have first : (name.take 48).reverse.findIdx? (name.contains ·) = some 0 := by
    obtain ⟨byte, rest, shape⟩ := List.exists_cons_of_ne_nil searched
    have inside : byte ∈ name := by
      have member : byte ∈ (name.take 48).reverse := shape ▸ List.mem_cons_self
      exact List.mem_of_mem_take (List.mem_reverse.mp member)
    rw [shape, List.findIdx?_cons, if_pos (by simpa using inside)]
  have position : (0x2f : SizeType).toNat + 1 = 48 := rfl
  simp only [findLast, position, first, List.length_reverse, List.length_take, Nat.sub_zero]

/-- Two strings are stored at the two places of the buffer, which do not overlap. -/
theorem putString_both (buffer : Uint32) (head tail : List Byte) (memory : M)
    (short : head.length ≤ 66) (room : buffer.toNat + 68 + tail.length ≤ Bus.size memory) :
    ∃ middle after, Returns (putString buffer head) memory () middle ∧
      Returns (putString (buffer + 67) tail) middle () after ∧
      Bus.HoldsText after buffer head ∧ Bus.HoldsText after (buffer + 67) tail := by
  have bound := Bus.size_le memory
  have behind : (buffer + 67).toNat = buffer.toNat + 67 := by bv_omega
  obtain ⟨middle, stores, one⟩ := putString_returns buffer head memory (by omega)
  have size := one.size
  obtain ⟨after, again, other⟩ := putString_returns (buffer + 67) tail middle (by omega)
  have sizes := other.size
  have apart : slice (Bus.byte after) buffer.toNat (head ++ [0]).length = head ++ [0] := by
    rw [other.byte, slice_lay_disjoint _ _ _ _ _ (by simp; omega), one.byte, slice_lay_same]
  have last : slice (Bus.byte after) (buffer + 67).toNat (tail ++ [0]).length = tail ++ [0] := by
    rw [other.byte, slice_lay_same]
  rw [List.length_append] at apart last
  exact ⟨middle, after, stores, again, ⟨by omega, apart⟩, ⟨by omega, last⟩⟩

/-- A name that is not empty is cut after at most 48 bytes. -/
theorem cut_parts {name : List Byte} (some : name ≠ []) (short : name.length ≤ 66) :
    findLast (name.contains ·) name 0x2f ≠ npos ∧
      substr name 0 (findLast (name.contains ·) name 0x2f + 1) = .ok (headPart name) ∧
      substr name (findLast (name.contains ·) name 0x2f + 1) npos = .ok (name.drop 48) := by
  have count : 0 < name.length := List.length_pos_iff.mpr some
  have largest : npos.toNat = 2 ^ 64 - 1 := rfl
  have position : (BitVec.ofNat 64 (min 48 name.length - 1) + 1).toNat = min 48 name.length := by
    bv_omega
  rw [findLast_own some]
  refine ⟨by bv_omega, ?_, ?_⟩
  · rw [substr, if_pos (by simp), position, headPart, if_neg some]
    simp [List.take_eq_take_iff]
  · have same : name.drop (min 48 name.length) = name.drop 48 := by
      rcases Nat.le_total 48 name.length with long | all
      · rw [Nat.min_eq_left long]
      · rw [Nat.min_eq_right all, List.drop_length, List.drop_eq_nil_of_le all]
    have whole : (name.drop 48).length ≤ npos.toNat := by
      rw [List.length_drop]
      omega
    rw [substr, if_pos (by omega), position, same, List.take_of_length_le whole]

/-- `_NAMECK` stores the head of the name, or `./`, and what follows it. -/
theorem nameck_returns [EvenBus M] [StringBus M] {memory : M} {sp file buffer : Uint32} {name : List Byte}
    (even : sp.toNat % 2 = 0) (stack : sp.toNat + 8 ≤ Bus.size memory)
    (first : Bus.word memory sp = file) (second : Bus.word memory (sp + 4) = buffer)
    (held : Bus.HoldsText memory file name) (clean : 0 ∉ name) (short : name.length ≤ 66)
    (room : buffer.toNat + 68 + name.length ≤ Bus.size memory) :
    ∃ after, Returns (nameck sp) memory 0 after ∧
      Bus.HoldsText after buffer (headPart name) ∧
      Bus.HoldsText after (buffer + 67) (name.drop 48) := by
  have bound := Bus.size_le memory
  have next : (sp + 4).toNat = sp.toNat + 4 := by bv_omega
  have fetchedFile := first ▸ get32_returns sp memory even (by omega)
  have fetchedBuffer := second ▸ get32_returns (sp + 4) memory (by omega) (by omega)
  have small : (headPart name).length ≤ 66 := by
    rw [headPart]
    split
    · decide
    · rw [List.length_take]
      omega
  obtain ⟨middle, after, stores, again, head, tail⟩ := putString_both buffer (headPart name)
    (name.drop 48) memory small (by rw [List.length_drop]; omega)
  refine ⟨after, ?_, head, tail⟩
  refine returns_bind.mpr ⟨_, _, fetchedFile, returns_bind.mpr ⟨_, _, fetchedBuffer,
    returns_bind.mpr ⟨_, _, getString_returns clean held, ?_⟩⟩⟩
  have finished : Returns (pure 0 : Call M Uint32) after 0 after := returns_pure.mpr ⟨rfl, rfl⟩
  by_cases empty : name = []
  · subst empty
    have none : findLast (([] : List Byte).contains ·) [] 0x2f = npos := rfl
    rw [none, if_pos rfl]
    exact returns_bind.mpr ⟨(), middle, stores, returns_bind.mpr ⟨(), after, again, finished⟩⟩
  · obtain ⟨found, front, rest⟩ := cut_parts empty short
    rw [if_neg found]
    exact returns_bind.mpr ⟨_, _, part_returns front memory, returns_bind.mpr ⟨(), middle, stores,
      returns_bind.mpr ⟨_, _, part_returns rest middle, returns_bind.mpr ⟨(), after, again,
        finished⟩⟩⟩⟩

/-- A name in two parts, cut after its last slash; without one the directory is `./`. -/
structure Splits (name directory file : List Byte) : Prop where
  joined : slash ∈ name → directory ++ file = name
  ends : slash ∈ name → directory.getLast? = some slash
  plain : slash ∉ file
  here : slash ∉ name → directory = [dot, slash] ∧ file = name

/-- The last slash of a name is where the call cuts it: it ends the first 48 bytes. -/
def CutAtSlash (name : List Byte) : Prop :=
  name = [] ∨ (name.take 48).getLast? = some slash ∧ slash ∉ name.drop 48

/-- The parts of a name have no terminator. -/
theorem splits_clean {name directory file : List Byte} (clean : 0 ∉ name)
    (splits : Splits name directory file) : 0 ∉ directory ∧ 0 ∉ file := by
  by_cases some : slash ∈ name
  · rw [← splits.joined some, List.mem_append, not_or] at clean
    exact clean
  · obtain ⟨rfl, rfl⟩ := splits.here some
    exact ⟨by decide, clean⟩

/-- The parts that the call stores are those of the name exactly if it cuts at its last slash. -/
theorem splits_head_iff (name : List Byte) :
    Splits name (headPart name) (name.drop 48) ↔ CutAtSlash name := by
  by_cases empty : name = []
  · subst empty
    exact iff_of_true ⟨by simp, by simp, by simp, by simp [headPart]⟩ (.inl rfl)
  · have whole : headPart name = name.take 48 := if_neg empty
    rw [whole, CutAtSlash, or_iff_right empty]
    constructor
    · intro splits
      have some : slash ∈ name := by
        by_contra none
        obtain ⟨directory, -⟩ := splits.here none
        exact none (List.mem_of_mem_take (directory ▸ by decide : slash ∈ name.take 48))
      exact ⟨splits.ends some, splits.plain⟩
    · rintro ⟨ends, plain⟩
      have some : slash ∈ name := List.mem_of_mem_take (List.mem_of_getLast? ends)
      exact ⟨fun _ => List.take_append_drop 48 name, fun _ => ends, plain,
        fun none => absurd some none⟩

/-- `_NAMECK` splits a name at its last slash exactly if that ends its first 48 bytes. -/
theorem nameck_splits_iff [EvenBus M] [StringBus M] {memory : M} {sp file buffer : Uint32} {name : List Byte}
    (even : sp.toNat % 2 = 0) (stack : sp.toNat + 8 ≤ Bus.size memory)
    (first : Bus.word memory sp = file) (second : Bus.word memory (sp + 4) = buffer)
    (held : Bus.HoldsText memory file name) (clean : 0 ∉ name) (short : name.length ≤ 66)
    (room : buffer.toNat + 68 + name.length ≤ Bus.size memory) :
    (∃ after, Returns (nameck sp) memory 0 after ∧ ∃ directory rest, Splits name directory rest ∧
      Bus.HoldsText after buffer directory ∧ Bus.HoldsText after (buffer + 67) rest) ↔
      CutAtSlash name := by
  obtain ⟨after, returned, head, tail⟩ := nameck_returns even stack first second held clean short room
  rw [← splits_head_iff]
  constructor
  · rintro ⟨other, again, directory, rest, splits, storedDirectory, storedRest⟩
    obtain ⟨-, rfl⟩ := returns_unique returned again
    obtain ⟨cleanDirectory, cleanRest⟩ := splits_clean clean splits
    have headClean : 0 ∉ headPart name := by
      rw [headPart]
      split
      · decide
      · exact fun member => clean (List.mem_of_mem_take member)
    have tailClean : 0 ∉ name.drop 48 := fun member => clean (List.mem_of_mem_drop member)
    rw [text_unique headClean cleanDirectory head.stored storedDirectory.stored,
      text_unique tailClean cleanRest tail.stored storedRest.stored]
    exact splits
  · exact fun splits => ⟨after, returned, _, _, splits, head, tail⟩

/-- A stack at 0x800 with the addresses 0x100 and 0x200, and a name at the first of them. -/
def named (name : List Byte) : MainMemory.ByteMemory :=
  ⟨0x1000, 0, layAll [(0x100, name ++ [0]), (0x800, [0, 0, 1, 0, 0, 0, 2, 0])] fun _ => 0⟩

/-- `a/` is split after its slash. -/
theorem nameck_splits_directory : ∃ after, Returns (nameck 0x800) (named [0x61, 0x2f]) 0 after ∧
    ∃ directory rest, Splits [0x61, 0x2f] directory rest ∧
      Bus.HoldsText after 0x200 directory ∧ Bus.HoldsText after (0x200 + 67) rest := by
  have held : Bus.HoldsText (named [0x61, 0x2f]) 0x100 [0x61, 0x2f] := ⟨by decide, by decide⟩
  exact (nameck_splits_iff (by decide) (by decide) rfl rfl held (by decide) (by decide)
    (by decide)).mpr (.inr (by decide))

/-- The name `a` is stored as the directory. -/
theorem nameck_takes_file : ¬ ∃ after, Returns (nameck 0x800) (named [0x61]) 0 after ∧
    ∃ directory rest, Splits [0x61] directory rest ∧
      Bus.HoldsText after 0x200 directory ∧ Bus.HoldsText after (0x200 + 67) rest := by
  rintro ⟨other, again, directory, rest, splits, stored, -⟩
  have held : Bus.HoldsText (named [0x61]) 0x100 [0x61] := ⟨by decide, by decide⟩
  have buffer : Bus.word (named [0x61]) (0x800 + 4) = 0x200 := rfl
  obtain ⟨after, returned, head, -⟩ := nameck_returns (by decide) (by decide) rfl buffer held
    (by decide) (by decide) (by decide)
  obtain ⟨-, rfl⟩ := returns_unique returned again
  obtain ⟨rfl, -⟩ := splits.here (by decide)
  have same : headPart [0x61] = [dot, slash] :=
    text_unique (by decide) (by decide) head.stored stored.stored
  exact absurd same (by decide)

/-- The value that a guest is told: at most 255 bytes, and none if the name is not set. -/
def answer (environ : Environ) (name : List Byte) : List Byte := ((environ name).getD []).take 255

/-- The string at an address, as far as main memory goes. -/
def nameAt (memory : M) (address : Uint32) : List Byte :=
  (textAt 0 (Bus.byte memory) address.toNat (Bus.size memory - address.toNat)).getD []

/-- The values of the host are C strings. -/
def CStrings (environ : Environ) : Prop := ∀ name value, environ name = some value → 0 ∉ value

/-- When the high halves of the two pointers do instead of them: the buffer is at 0 and
both names have the same value, or all that they store was there before. -/
def Unnoticed (environ : Environ) (memory : M) (getname getbuf : Uint32) (name : List Byte) : Prop :=
  let wrong := answer environ (nameAt memory (getname >>> 16)) ++ [0]
  let right := answer environ name ++ [0]
  if getbuf = 0 then wrong = right
  else Given (Bus.byte memory) (getbuf >>> 16).toNat wrong getbuf.toNat right ∧
    Given (Bus.byte memory) getbuf.toNat right (getbuf >>> 16).toNat wrong

/-- An answer is cut to 255 bytes. -/
theorem answer_length (environ : Environ) (name : List Byte) : (answer environ name).length ≤ 255 :=
  List.length_take_le _ _

/-- An answer has no zero before its terminator. -/
theorem answer_clean {environ : Environ} (strings : CStrings environ) (name : List Byte) :
    0 ∉ answer environ name := by
  rw [answer]
  cases found : environ name with
  | none => simp
  | some value => exact fun member => strings name value found (List.mem_of_mem_take member)

/-- Below a string there is a string in main memory. -/
theorem nameAt_held {memory : M} {address lower : Uint32} {name : List Byte}
    (held : Bus.HoldsText memory address name) (below : lower.toNat ≤ address.toNat) :
    0 ∉ nameAt memory lower ∧ Bus.HoldsText memory lower (nameAt memory lower) := by
  have ends : Bus.byte memory (lower.toNat + (address.toNat + name.length - lower.toNat)) = 0 := by
    have last := slice_get (Bus.byte memory) address.toNat (name.length + 1) name.length (by omega)
    rw [held.stored, List.getElem?_append_right (Nat.le_refl _), Nat.sub_self] at last
    rw [Nat.add_sub_cancel' (by omega)]
    exact (Option.some.inj last).symm
  have inside := held.inside
  have near : address.toNat + name.length - lower.toNat < Bus.size memory - lower.toNat := by omega
  obtain ⟨text, found⟩ := textAt_exists _ near ends
  obtain ⟨clean, enough, stored⟩ := textAt_found found
  rw [nameAt, found]
  exact ⟨clean, by simp only [Option.getD_some]; omega, stored⟩

/-- The value is stored, cut to 255 bytes. -/
theorem getenv_returns [StringBus M] (environ : Environ) (env getbuf : Uint32) {memory : M}
    {getname : Uint32} {name : List Byte} (clean : 0 ∉ name) (held : Bus.HoldsText memory getname name)
    (room : getbuf.toNat + (answer environ name).length + 1 ≤ Bus.size memory) :
    ∃ after, Returns (getenv environ getname env getbuf) memory 0 after ∧
      Stored Bus.size Bus.byte memory getbuf.toNat (answer environ name ++ [0]) after := by
  obtain ⟨after, stores, stored⟩ := putString_returns getbuf (answer environ name) memory room
  have whole : name.takeWhile (· ≠ 0) = name :=
    List.takeWhile_eq_self_iff.mpr fun byte member => by
      simpa using ne_of_mem_of_not_mem member clean
  have cut (value : List Byte) :
      (if value.length > 255 then value.take 255 else value) = value.take 255 := by
    split
    · rfl
    · exact (List.take_of_length_le (by omega)).symm
  refine ⟨after, returns_bind.mpr ⟨name, memory, getString_returns clean held, ?_⟩, stored⟩
  simp only [whole, cut]
  exact returns_bind.mpr ⟨(), after, stores, returns_pure.mpr ⟨rfl, rfl⟩⟩

/-- `_GETENV` looks up what is at the high half of the first pointer and stores it at the
high half of the third. -/
theorem dosGetenv_returns [WordBus M] [StringBus M] (environ : Environ) {memory : M}
    {sp getname getbuf : Uint32} {name : List Byte} (even : sp.toNat % 2 = 0)
    (stack : sp.toNat + 12 ≤ Bus.size memory) (ram : 0x200 ≤ Bus.size memory)
    (first : Bus.word memory sp = getname) (third : Bus.word memory (sp + 8) = getbuf)
    (held : Bus.HoldsText memory getname name) (inside : getbuf.toNat < Bus.size memory) :
    ∃ after, Returns (dosGetenv environ sp) memory 0 after ∧
      Stored Bus.size Bus.byte memory (getbuf >>> 16).toNat
        (answer environ (nameAt memory (getname >>> 16)) ++ [0]) after := by
  have bound := Bus.size_le memory
  have half (pointer : Uint32) : (pointer >>> 16).toNat = pointer.toNat / 65536 := by
    rw [BitVec.toNat_ushiftRight, Nat.shiftRight_eq_div_pow]
  have below : (getname >>> 16).toNat ≤ getname.toNat := by
    rw [half]
    omega
  have low : (getbuf >>> 16).toNat ≤ 255 := by
    rw [half]
    omega
  have length := answer_length environ (nameAt memory (getname >>> 16))
  obtain ⟨clean, text⟩ := nameAt_held held below
  obtain ⟨after, returned, stored⟩ := getenv_returns environ (Bus.word memory (sp + 4) >>> 16)
    (getbuf >>> 16) clean text (by omega)
  refine ⟨after, ?_, stored⟩
  have fetchedName := first ▸ get16_returns sp memory even (by omega)
  have fetchedEnv := get16_returns (sp + 4) memory (by bv_omega) (by bv_omega)
  have fetchedBuffer := third ▸ get16_returns (sp + 8) memory (by bv_omega) (by bv_omega)
  exact returns_bind.mpr ⟨_, _, fetchedName, returns_bind.mpr ⟨_, _, fetchedEnv,
    returns_bind.mpr ⟨_, _, fetchedBuffer, returned⟩⟩⟩

/-- The high half of a pointer into main memory is the pointer exactly for the null pointer. -/
theorem half_pointer {pointer : Uint32} : pointer >>> 16 = pointer ↔ pointer = 0 := by
  constructor
  · intro same
    have value := congrArg BitVec.toNat same
    rw [BitVec.toNat_ushiftRight, Nat.shiftRight_eq_div_pow] at value
    bv_omega
  · rintro rfl
    rfl

/-- `_GETENV` answers the question that was asked exactly if the wrong pointers go unnoticed. -/
theorem dosGetenv_answers_iff [WordBus M] [StringBus M] {environ : Environ}
    (strings : CStrings environ) {memory : M} {sp getname getbuf : Uint32} {name : List Byte}
    (even : sp.toNat % 2 = 0) (stack : sp.toNat + 12 ≤ Bus.size memory)
    (ram : 0x200 ≤ Bus.size memory) (first : Bus.word memory sp = getname)
    (third : Bus.word memory (sp + 8) = getbuf) (held : Bus.HoldsText memory getname name)
    (room : getbuf.toNat + (answer environ name).length + 1 ≤ Bus.size memory) :
    (∃ after, Returns (dosGetenv environ sp) memory 0 after ∧
      Stored Bus.size Bus.byte memory getbuf.toNat (answer environ name ++ [0]) after) ↔
      Unnoticed environ memory getname getbuf name := by
  obtain ⟨after, returned, stored⟩ := dosGetenv_returns environ even stack ram first third held
    (by omega)
  have same_iff : (∃ other, Returns (dosGetenv environ sp) memory 0 other ∧
      Stored Bus.size Bus.byte memory getbuf.toNat (answer environ name ++ [0]) other) ↔
      lay (Bus.byte memory) (getbuf >>> 16).toNat
          (answer environ (nameAt memory (getname >>> 16)) ++ [0]) =
        lay (Bus.byte memory) getbuf.toNat (answer environ name ++ [0]) := by
    constructor
    · rintro ⟨other, again, right⟩
      obtain ⟨-, rfl⟩ := returns_unique returned again
      exact stored.byte.symm.trans right.byte
    · exact fun same => ⟨after, returned, stored.size, stored.byte.trans same⟩
  rw [same_iff, Unnoticed]
  by_cases null : getbuf = 0
  · subst null
    rw [if_pos rfl, half_pointer.mpr rfl]
    refine ⟨fun same => ?_, fun same => by rw [same]⟩
    have wrong := slice_lay_same (Bus.byte memory) (0 : Uint32).toNat
      (answer environ (nameAt memory (getname >>> 16)) ++ [0])
    have right := slice_lay_same (Bus.byte memory) (0 : Uint32).toNat (answer environ name ++ [0])
    rw [same, List.length_append] at wrong
    rw [List.length_append] at right
    rw [text_unique (answer_clean strings _) (answer_clean strings _) wrong right]
  · rw [if_neg null]
    exact lay_eq_iff ..

/-- A stack at 0x200 with three addresses, and a name at 0x100. -/
def asking (name : List Byte) (getbuf : Nat) : MainMemory.ByteMemory :=
  ⟨0x1000, 0, layAll [(0x100, name ++ [0]), (0x200, encode 4 0x100 ++ encode 4 0 ++ encode 4 getbuf)]
    fun _ => 0⟩

/-- A host that gives every variable one value answers rightly at the null pointer. -/
theorem dosGetenv_answers_null :
    ∃ after, Returns (dosGetenv (fun _ => some [0x41]) 0x200) (asking [0x4e] 0) 0 after ∧
      Stored Bus.size Bus.byte (asking [0x4e] 0) 0 [0x41, 0] after := by
  have held : Bus.HoldsText (asking [0x4e] 0) 0x100 [0x4e] := ⟨by decide, by decide⟩
  have third : Bus.word (asking [0x4e] 0) (0x200 + 8) = 0 := rfl
  have strings : CStrings fun _ => some [0x41] := by
    rintro name value found
    obtain rfl := Option.some.inj found
    decide
  exact (dosGetenv_answers_iff strings (by decide) (by decide) (by decide) rfl third held
    (by decide)).mpr rfl

/-- A host on which only `N` is set. -/
def onlyN (name : List Byte) : Option (List Byte) := if name = [0x4e] then some [0x41] else none

/-- With its buffer at 0x300 the value of `N` is not stored there. -/
theorem dosGetenv_misses :
    ¬ ∃ after, Returns (dosGetenv onlyN 0x200) (asking [0x4e] 0x300) 0 after ∧
      Stored Bus.size Bus.byte (asking [0x4e] 0x300) 0x300 (answer onlyN [0x4e] ++ [0]) after := by
  rintro ⟨other, again, right⟩
  have held : Bus.HoldsText (asking [0x4e] 0x300) 0x100 [0x4e] := ⟨by decide, by decide⟩
  have third : Bus.word (asking [0x4e] 0x300) (0x200 + 8) = 0x300 := rfl
  obtain ⟨after, returned, stored⟩ := dosGetenv_returns onlyN (by decide) (by decide) (by decide)
    rfl third held (by decide)
  obtain ⟨-, rfl⟩ := returns_unique returned again
  have byte : Bus.byte after 0x300 = 0 := by
    rw [stored.byte]
    rfl
  rw [right.byte] at byte
  exact absurd byte (by decide)

end Vx68k.StringCalls
