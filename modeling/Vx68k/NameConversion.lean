import Mathlib.Data.List.DropRight
import Vx68k.Components
import Vx68k.FileNames

/-!
# What the conversion of a file name returns

A DOS name is cut into components at dots, backslashes and slashes. Normalising it edits
every component alike. `export_file_name` does so but for a component that starts at
position 0, whose trailing spaces it keeps; and a name without anything but spaces makes
it use a position outside the name.
-/

namespace Vx68k.FileNames

open Programs ByteStores Components

/-- A component without its trailing spaces. -/
def trimEnd (part : List Byte) : List Byte := part.rdropWhile (· = space)

/-- The separator of the POSIX name. -/
def exported (ending : Byte) : Byte := if ending = backslash then slash else ending

/-- A component with the separator that ends it: those before a slash are kept verbatim. -/
def normaliseEnded (part : List Byte) (ending : Byte) : List Byte :=
  (if ending = slash then part else trimEnd part) ++ [exported ending]

/-- Components joined with their separators after each has been normalised. -/
def normaliseParts (text : List Byte) : List Byte :=
  (cut separator text).join normaliseEnded trimEnd

/-- The name that the conversion is for: no leading spaces and all components alike. -/
def normalise (dosName : List Byte) : List Byte := normaliseParts (dosName.dropWhile (· = space))

/-- The first component with its spaces, and the others normalised. -/
def keepFirst (dosName : List Byte) : List Byte :=
  match cut separator dosName with
  | ⟨[], last⟩ => last
  | ⟨(part, ending) :: more, last⟩ =>
    part ++ exported ending :: (Cut.mk more last).join normaliseEnded trimEnd

/-- The name that the conversion returns. -/
def converted (dosName : List Byte) : List Byte :=
  if dosName.head? = some space then normalise dosName else keepFirst dosName

/-- Some byte is not a space. -/
def Visible (dosName : List Byte) : Prop := ∃ byte ∈ dosName, byte ≠ space

instance (dosName : List Byte) : Decidable (Visible dosName) :=
  inferInstanceAs (Decidable (∃ byte ∈ dosName, byte ≠ space))

/-- Nothing is to be removed from a component at position 0: the name starts with a
space, or its first component is ended by a slash or does not end in a space. -/
def Aligned (dosName : List Byte) : Prop :=
  dosName.head? = some space ∨
    match (cut separator dosName).ended with
    | [] => dosName.getLast? ≠ some space
    | (part, ending) :: _ => ending = slash ∨ part.getLast? ≠ some space

/-- The first chosen byte comes after bytes that are not. -/
theorem findIdx_after {chosen : Byte → Bool} {part rest : List Byte} {byte : Byte}
    (others : ∀ other ∈ part, ¬ chosen other) (found : chosen byte) :
    (part ++ byte :: rest).findIdx? chosen = some part.length := by
  rw [List.findIdx?_append, List.findIdx?_eq_none_iff.mpr (by simpa using others),
    List.findIdx?_cons, if_pos found]
  simp

/-- A search that passes over some bytes finds the byte after them. -/
theorem findFirst_split {chosen : Byte → Bool} {front part rest : List Byte} {byte : Byte}
    (short : (front ++ part ++ byte :: rest).length < 2 ^ 64) (others : ∀ other ∈ part, ¬ chosen other)
    (found : chosen byte) :
    findFirst chosen (front ++ part ++ byte :: rest) (BitVec.ofNat 64 front.length) =
      BitVec.ofNat 64 (front.length + part.length) := by
  have position : front.length % 2 ^ 64 = front.length := Nat.mod_eq_of_lt (by simp at short; omega)
  rw [findFirst, BitVec.toNat_ofNat, position, List.append_assoc, List.drop_left,
    findIdx_after others found, BitVec.ofNat_add]

/-- A search that passes over all bytes finds nothing. -/
theorem findFirst_none {chosen : Byte → Bool} {front part : List Byte}
    (short : front.length < 2 ^ 64) (others : ∀ other ∈ part, ¬ chosen other) :
    findFirst chosen (front ++ part) (BitVec.ofNat 64 front.length) = npos := by
  rw [findFirst, BitVec.toNat_ofNat, Nat.mod_eq_of_lt short, List.drop_left,
    List.findIdx?_eq_none_iff.mpr (by simpa using others)]

/-- A backward search that passes over some bytes finds the byte before them. -/
theorem findLast_split {chosen : Byte → Bool} {front tail rest : List Byte} {byte : Byte}
    (short : (front ++ byte :: (tail ++ rest)).length < 2 ^ 64)
    (others : ∀ other ∈ tail, ¬ chosen other) (found : chosen byte) :
    findLast chosen (front ++ byte :: (tail ++ rest)) (BitVec.ofNat 64 (front.length + tail.length)) =
      BitVec.ofNat 64 front.length := by
  have position : (front.length + tail.length) % 2 ^ 64 = front.length + tail.length :=
    Nat.mod_eq_of_lt (by simp at short; omega)
  have searched : (front ++ byte :: (tail ++ rest)).take (front.length + tail.length + 1) =
      front ++ byte :: tail := by
    have shape : front ++ byte :: (tail ++ rest) = (front ++ byte :: tail) ++ rest := by simp
    rw [shape, List.take_left' (by simp; omega)]
  have search : (front ++ byte :: tail).reverse.findIdx? chosen = some tail.length := by
    rw [List.reverse_append, List.reverse_cons, List.append_assoc, List.singleton_append,
      findIdx_after (by simpa using others) found, List.length_reverse]
  simp only [findLast, BitVec.toNat_ofNat, position, searched, search]
  congr 1
  simp only [List.length_reverse, List.length_append, List.length_cons]
  omega

/-- The bytes between two positions. -/
theorem substr_split {front part rest : List Byte}
    (short : (front ++ part ++ rest).length < 2 ^ 64) :
    substr (front ++ part ++ rest) (BitVec.ofNat 64 front.length) (BitVec.ofNat 64 part.length) =
      .ok part := by
  simp only [List.length_append] at short
  have start : front.length % 2 ^ 64 = front.length := Nat.mod_eq_of_lt (by omega)
  have length : part.length % 2 ^ 64 = part.length := Nat.mod_eq_of_lt (by omega)
  rw [substr, BitVec.toNat_ofNat, BitVec.toNat_ofNat, start, length,
    if_pos (by simp only [List.length_append]; omega), List.append_assoc, List.drop_left,
    List.take_left]

/-- The byte at a position. -/
theorem charAt_split {front rest : List Byte} {byte : Byte} (short : front.length < 2 ^ 64) :
    charAt (front ++ byte :: rest) (BitVec.ofNat 64 front.length) = .ok byte := by
  rw [charAt, BitVec.toNat_ofNat, Nat.mod_eq_of_lt short]
  simp

/-- What a component that starts here can be cut by: a byte is before it, and that one
or its own first byte is not a space. -/
def Guarded (front rest : List Byte) : Prop :=
  ∃ before byte, front = before ++ [byte] ∧ (byte ≠ space ∨ rest.head? ≠ some space)

/-- A component is its bytes up to the last one that is no space, and spaces. -/
theorem trimEnd_spaces (part : List Byte) :
    ∃ spaces, part = trimEnd part ++ spaces ∧ ∀ byte ∈ spaces, ¬ decide (byte ≠ space) := by
  refine ⟨part.rtakeWhile (· = space), List.rdropWhile_append_rtakeWhile.symm, fun byte member => ?_⟩
  simpa using List.mem_rtakeWhile_imp member

/-- A trimmed component does not end in a space. -/
theorem trimEnd_last {part front : List Byte} {byte : Byte} (shape : trimEnd part = front ++ [byte]) :
    byte ≠ space := by
  have some : part.rdropWhile (· = space) ≠ [] := by
    change trimEnd part ≠ []
    simp [shape]
  have last := List.rdropWhile_last_not (fun byte : Byte => decide (byte = space)) part some
  have same : (part.rdropWhile (· = space)).getLast some = byte := by
    simp [show part.rdropWhile (· = space) = front ++ [byte] from shape]
  simpa [same] using last

/-- A byte that is not a space and not before the one in front of a component is its last. -/
theorem trimmed_found {front spaces rest : List Byte} {byte : Byte} {start : Nat}
    (short : (front ++ byte :: (spaces ++ rest)).length < 2 ^ 64 - 1) (visible : byte ≠ space)
    (blank : ∀ other ∈ spaces, ¬ decide (other ≠ space)) (after : 0 < start)
    (near : start ≤ front.length + 1) :
    trimmed (front ++ byte :: (spaces ++ rest)) (BitVec.ofNat 64 start)
      (BitVec.ofNat 64 (front.length + spaces.length)) = BitVec.ofNat 64 front.length := by
  have room : front.length + spaces.length < 2 ^ 64 - 2 := by simp at short; omega
  have found : findLast (· ≠ space) (front ++ byte :: (spaces ++ rest))
      (BitVec.ofNat 64 (front.length + spaces.length)) = BitVec.ofNat 64 front.length :=
    findLast_split (by omega) blank (by simpa using visible)
  have inside : ¬ (BitVec.ofNat 64 front.length = npos ∨
      BitVec.ofNat 64 front.length < BitVec.ofNat 64 start - 1) := by
    have none : npos.toNat = 2 ^ 64 - 1 := rfl
    bv_omega
  simp only [trimmed, found, if_neg inside]

/-- The trailing spaces of a guarded component are left out. -/
theorem trimmed_guarded {front part rest : List Byte}
    (short : (front ++ part ++ rest).length < 2 ^ 64 - 1) (nonempty : part ≠ [])
    (guarded : Guarded front part) :
    trimmed (front ++ part ++ rest) (BitVec.ofNat 64 front.length)
        (BitVec.ofNat 64 (front.length + part.length) - 1) + 1 - BitVec.ofNat 64 front.length =
      BitVec.ofNat 64 (trimEnd part).length := by
  obtain ⟨before, guard, rfl, guardVisible⟩ := guarded
  obtain ⟨spaces, shape, blank⟩ := trimEnd_spaces part
  obtain empty | ⟨kept, byte, same⟩ := (trimEnd part).eq_nil_or_concat'
  · -- The component is all spaces, so the byte before it is found.
    rw [empty, List.nil_append] at shape
    subst shape
    obtain ⟨first, others, rfl⟩ := List.exists_cons_of_ne_nil nonempty
    have firstBlank : first = space := by simpa using blank first List.mem_cons_self
    have visible : guard ≠ space := guardVisible.resolve_right (by simp [firstBlank])
    have text : before ++ [guard] ++ first :: others ++ rest =
        before ++ guard :: (first :: others ++ rest) := by simp
    have last : BitVec.ofNat 64 ((before ++ [guard]).length + (first :: others).length) - 1 =
        BitVec.ofNat 64 (before.length + (first :: others).length) := by
      simp only [List.length_append, List.length_cons, List.length_nil]
      bv_omega
    rw [text] at short ⊢
    rw [last, trimmed_found short visible blank (by simp) (by simp), empty]
    simp only [List.length_append, List.length_cons, List.length_nil]
    bv_omega
  · -- The component has a last byte that is no space, which is found.
    have text : before ++ [guard] ++ part ++ rest =
        (before ++ [guard] ++ kept) ++ byte :: (spaces ++ rest) := by
      conv_lhs => rw [shape, same]
      simp
    have last : BitVec.ofNat 64 ((before ++ [guard]).length + part.length) - 1 =
        BitVec.ofNat 64 ((before ++ [guard] ++ kept).length + spaces.length) := by
      conv_lhs => rw [shape, same]
      simp only [List.length_append, List.length_cons, List.length_nil]
      bv_omega
    rw [text] at short ⊢
    rw [last, trimmed_found short (trimEnd_last same) blank (by simp) (by simp), same]
    simp only [List.length_append, List.length_cons, List.length_nil]
    bv_omega

/-- How many bytes of a guarded component are taken; an empty one is not searched. -/
theorem count_guarded {front part rest : List Byte}
    (short : (front ++ part ++ rest).length < 2 ^ 64 - 1) (guarded : part ≠ [] → Guarded front part) :
    (if BitVec.ofNat 64 (front.length + part.length) ≠ BitVec.ofNat 64 front.length then
        trimmed (front ++ part ++ rest) (BitVec.ofNat 64 front.length)
          (BitVec.ofNat 64 (front.length + part.length) - 1)
      else BitVec.ofNat 64 (front.length + part.length) - 1) + 1 - BitVec.ofNat 64 front.length =
      BitVec.ofNat 64 (trimEnd part).length := by
  cases part with
  | nil => simp [trimEnd]
  | cons first others =>
    have apart : BitVec.ofNat 64 (front.length + (first :: others).length) ≠
        BitVec.ofNat 64 front.length := by
      simp only [List.length_append, List.length_cons] at short ⊢
      bv_omega
    rw [if_pos apart]
    exact trimmed_guarded short (by simp) (guarded (by simp))

/-- A component that is ended by a dot or a backslash. -/
theorem component_kept {dosName : List Byte} {pos nextPos : SizeType} {ending : Byte}
    (here : charAt dosName nextPos = .ok ending) (different : ending ≠ slash) :
    component dosName pos nextPos =
      (substr dosName pos
        ((if nextPos ≠ pos then trimmed dosName pos (nextPos - 1) else nextPos - 1) + 1 - pos)).map
        (· ++ [exported ending]) := by
  rw [component, here]
  simp only [bind, Except.bind, if_neg different, exported]
  rfl

/-- The text up to the end of a trimmed component. -/
theorem substr_trimEnd {front part rest : List Byte}
    (short : (front ++ part ++ rest).length < 2 ^ 64) :
    substr (front ++ part ++ rest) (BitVec.ofNat 64 front.length)
      (BitVec.ofNat 64 (trimEnd part).length) = .ok (trimEnd part) := by
  obtain ⟨spaces, shape, -⟩ := trimEnd_spaces part
  have text : front ++ part ++ rest = front ++ trimEnd part ++ (spaces ++ rest) := by
    conv_lhs => rw [shape]
    simp
  rw [text] at short ⊢
  exact substr_split short

/-- The separator that ends a component. -/
theorem charAt_ending {front part rest : List Byte} {ending : Byte}
    (short : (front ++ part ++ ending :: rest).length < 2 ^ 64 - 1) :
    charAt (front ++ part ++ ending :: rest) (BitVec.ofNat 64 (front.length + part.length)) =
      .ok ending := by
  rw [← List.length_append]
  exact charAt_split (by simp at short ⊢; omega)

/-- A component before a slash is kept with the slash. -/
theorem component_slash {front part rest : List Byte}
    (short : (front ++ part ++ slash :: rest).length < 2 ^ 64 - 1) :
    component (front ++ part ++ slash :: rest) (BitVec.ofNat 64 front.length)
      (BitVec.ofNat 64 (front.length + part.length)) = .ok (part ++ [slash]) := by
  have text : front ++ part ++ slash :: rest = front ++ (part ++ [slash]) ++ rest := by simp
  have count : BitVec.ofNat 64 (front.length + part.length) + 1 - BitVec.ofNat 64 front.length =
      BitVec.ofNat 64 (part ++ [slash]).length := by
    simp only [List.length_append, List.length_cons, List.length_nil]
    bv_omega
  rw [component, charAt_ending short]
  simp only [bind, Except.bind, if_true, count]
  rw [text] at short ⊢
  exact substr_split (by omega)

/-- A guarded component is normalised. -/
theorem component_guarded {front part rest : List Byte} {ending : Byte}
    (short : (front ++ part ++ ending :: rest).length < 2 ^ 64 - 1)
    (guarded : Guarded front (part ++ ending :: rest)) :
    component (front ++ part ++ ending :: rest) (BitVec.ofNat 64 front.length)
      (BitVec.ofNat 64 (front.length + part.length)) = .ok (normaliseEnded part ending) := by
  by_cases verbatim : ending = slash
  · subst verbatim
    rw [component_slash short, normaliseEnded, if_pos rfl]
    rfl
  · have onto : part ≠ [] → Guarded front part := by
      intro nonempty
      obtain ⟨first, others, rfl⟩ := List.exists_cons_of_ne_nil nonempty
      simpa [Guarded] using guarded
    rw [component_kept (charAt_ending short) verbatim, count_guarded short onto,
      substr_trimEnd (by omega), normaliseEnded, if_neg verbatim]
    rfl

/-- At position 0 no trailing space is left out: the position before it is the largest. -/
theorem trimmed_start (text : List Byte) (last : SizeType) : trimmed text 0 last = last := by
  have largest : (0 : SizeType) - 1 = npos := rfl
  have before : findLast (· ≠ space) text last = npos ∨ findLast (· ≠ space) text last < npos := by
    have none : npos.toNat = 2 ^ 64 - 1 := rfl
    bv_omega
  rw [trimmed, largest]
  exact if_pos before

/-- A component at position 0 is kept with its spaces. -/
theorem component_start {part rest : List Byte} {ending : Byte}
    (short : (part ++ ending :: rest).length < 2 ^ 64 - 1) :
    component (part ++ ending :: rest) 0 (BitVec.ofNat 64 part.length) =
      .ok (part ++ [exported ending]) := by
  have start : component (part ++ ending :: rest) 0 (BitVec.ofNat 64 part.length) =
      component ([] ++ part ++ ending :: rest) (BitVec.ofNat 64 ([] : List Byte).length)
        (BitVec.ofNat 64 (([] : List Byte).length + part.length)) := by simp
  by_cases verbatim : ending = slash
  · subst verbatim
    rw [start, component_slash (by simpa using short)]
    rfl
  · have here : charAt (part ++ ending :: rest) (BitVec.ofNat 64 part.length) = .ok ending := by
      simpa using @charAt_ending [] part rest ending (by simpa using short)
    have whole : substr (part ++ ending :: rest) 0 (BitVec.ofNat 64 part.length) = .ok part := by
      simpa using @substr_split [] part (ending :: rest)
        (by simp at short ⊢; omega)
    have count : BitVec.ofNat 64 part.length - (0 : SizeType) = BitVec.ofNat 64 part.length :=
      BitVec.sub_zero _
    rw [component_kept here verbatim]
    simp only [trimmed_start, ite_self, BitVec.sub_add_cancel, count, whole]
    rfl

/-- The turns of the conversion and its last component. -/
def scan (dosName : List Byte) (progress : Progress) : Program OutOfRange Unit (List Byte) := do
  let (pos, name) ← Program.loop
    (fun progress => .atomic fun done => (turn dosName progress, done)) progress
  let part ← .atomic fun done => (lastComponent dosName pos, done)
  pure (name ++ part)

/-- After its first step the conversion is a scan. -/
theorem exportFileName_begin {dosName : List Byte} {progress : Progress}
    (start : begin dosName = .ok progress) {outcome : Except OutOfRange (List Byte)} :
    Ends (exportFileName dosName) () outcome () ↔ Ends (scan dosName progress) () outcome () :=
  ends_after (returns_atomic.mpr (by rw [start]))

/-- A turn takes the next component. -/
theorem turn_ended {front part rest name piece : List Byte} {ending : Byte}
    (short : (front ++ part ++ ending :: rest).length < 2 ^ 64 - 1)
    (clean : ∀ byte ∈ part, ¬ separator byte) (ends : separator ending)
    (converts : component (front ++ part ++ ending :: rest) (BitVec.ofNat 64 front.length)
      (BitVec.ofNat 64 (front.length + part.length)) = .ok piece) :
    turn (front ++ part ++ ending :: rest) (BitVec.ofNat 64 front.length, name) =
      .ok (.again (BitVec.ofNat 64 (front ++ part ++ [ending]).length, name ++ piece)) := by
  have next : findFirst separator (front ++ part ++ ending :: rest)
      (BitVec.ofNat 64 front.length) = BitVec.ofNat 64 (front.length + part.length) :=
    findFirst_split (by omega) clean ends
  have goesOn : ¬ (BitVec.ofNat 64 front.length = npos ∨
      BitVec.ofNat 64 front.length = size (front ++ part ++ ending :: rest) ∨
      BitVec.ofNat 64 (front.length + part.length) = npos) := by
    have none : npos.toNat = 2 ^ 64 - 1 := rfl
    simp only [List.length_append, List.length_cons, size] at short ⊢
    bv_omega
  have after : BitVec.ofNat 64 (front.length + part.length) + 1 =
      BitVec.ofNat 64 (front ++ part ++ [ending]).length := by
    simp only [List.length_append, List.length_cons, List.length_nil]
    bv_omega
  simp only [turn, next, if_neg goesOn, converts, after]
  rfl

/-- A turn without a separator ahead is the last one. -/
theorem turn_plain {front part name : List Byte} (short : front.length < 2 ^ 64)
    (clean : ∀ byte ∈ part, ¬ separator byte) :
    turn (front ++ part) (BitVec.ofNat 64 front.length, name) =
      .ok (.leave (BitVec.ofNat 64 front.length, name)) := by
  simp only [turn, findFirst_none short clean, or_true, if_true]

/-- A scan goes on after a turn as from the next position. -/
theorem scan_continues {dosName result : List Byte} {progress next : Progress}
    (again : turn dosName progress = .ok (.again next))
    (rest : Returns (scan dosName next) () result ()) :
    Returns (scan dosName progress) () result () := by
  obtain ⟨reached, done, looped, finished⟩ := returns_bind.mp rest
  have taken : Returns (.atomic fun done : Unit => (turn dosName progress, done)) ()
      (.again next) () := returns_atomic.mpr (by rw [again])
  exact returns_bind.mpr ⟨reached, done, loop_continues taken looped, finished⟩

/-- A scan whose turn leaves ends with the last component. -/
theorem scan_leaves {dosName part : List Byte} {progress : Progress}
    (leave : turn dosName progress = .ok (.leave progress))
    (last : lastComponent dosName progress.1 = .ok part) :
    Returns (scan dosName progress) () (progress.2 ++ part) () := by
  have taken : Returns (.atomic fun done : Unit => (turn dosName progress, done)) ()
      (.leave progress) () := returns_atomic.mpr (by rw [leave])
  have finished : Returns (.atomic fun done : Unit => (lastComponent dosName progress.1, done)) ()
      part () := returns_atomic.mpr (by rw [last])
  exact returns_bind.mpr ⟨progress, (), loop_leaves taken,
    returns_bind.mpr ⟨part, (), finished, returns_pure.mpr ⟨rfl, rfl⟩⟩⟩

/-- The last component, when it is guarded, loses its trailing spaces. -/
theorem lastComponent_guarded {front part : List Byte}
    (short : (front ++ part).length < 2 ^ 64 - 1) (guarded : Guarded front part) :
    lastComponent (front ++ part) (BitVec.ofNat 64 front.length) = .ok (trimEnd part) := by
  have whole : size (front ++ part) = BitVec.ofNat 64 (front.length + part.length) := by
    rw [size, List.length_append]
  have text : front ++ part = front ++ part ++ [] := by simp
  rw [lastComponent, whole]
  rw [text] at short ⊢
  exact (congrArg (substr _ _) (count_guarded short fun _ => guarded)).trans
    (substr_trimEnd (by omega))

/-- A scan from a guarded position normalises all that is left. -/
theorem scan_guarded (front rest name : List Byte)
    (short : (front ++ rest).length < 2 ^ 64 - 1) (guarded : Guarded front rest) :
    Returns (scan (front ++ rest) (BitVec.ofNat 64 front.length, name)) ()
      (name ++ normaliseParts rest) () := by
  induction rest using component_induction separator generalizing front name with
  | plain part clean =>
    rw [normaliseParts, join_plain clean]
    exact scan_leaves (turn_plain (by simp at short; omega) clean)
      (lastComponent_guarded short guarded)
  | ended part ending rest clean ends inductionHypothesis =>
    have shape : front ++ (part ++ ending :: rest) = front ++ part ++ ending :: rest := by simp
    have behind : front ++ part ++ ending :: rest = front ++ part ++ [ending] ++ rest := by simp
    have onto : Guarded (front ++ part ++ [ending]) rest := by
      refine ⟨front ++ part, ending, rfl, Or.inl ?_⟩
      rintro rfl
      exact absurd ends (by decide)
    rw [shape] at short ⊢
    refine scan_continues (turn_ended short clean ends (component_guarded short guarded)) ?_
    rw [normaliseParts, join_ended clean ends, ← List.append_assoc]
    rw [behind] at short ⊢
    exact inductionHypothesis (front ++ part ++ [ending]) (name ++ normaliseEnded part ending)
      short onto

/-- A component without separators is kept. -/
theorem keepFirst_plain {part : List Byte} (clean : ∀ byte ∈ part, ¬ separator byte) :
    keepFirst part = part := by
  rw [keepFirst, cut_plain clean]

/-- A component with a separator behind it is kept, and the rest is normalised. -/
theorem keepFirst_ended {part rest : List Byte} {ending : Byte}
    (clean : ∀ byte ∈ part, ¬ separator byte) (ends : separator ending) :
    keepFirst (part ++ ending :: rest) = part ++ [exported ending] ++ normaliseParts rest := by
  rw [keepFirst, cut_ended clean ends, normaliseParts, List.append_assoc]
  rfl

/-- A scan from the start of a name keeps its first component. -/
theorem scan_start (dosName : List Byte) (short : dosName.length < 2 ^ 64 - 1) :
    Returns (scan dosName (0, [])) () (keepFirst dosName) () := by
  obtain clean | ⟨part, ending, rest, rfl, clean, ends⟩ := first_component separator dosName
  · have leaves : turn dosName (0, []) = .ok (.leave (0, [])) :=
      @turn_plain [] dosName [] (by simp) clean
    have whole : lastComponent dosName 0 = .ok dosName := by
      have all : substr dosName 0 (size dosName) = .ok dosName := by
        simpa [size] using @substr_split [] dosName [] (by simp; omega)
      have count : size dosName - (0 : SizeType) = size dosName := BitVec.sub_zero _
      simp only [lastComponent, trimmed_start, ite_self, BitVec.sub_add_cancel, count, all]
    rw [keepFirst_plain clean]
    exact scan_leaves leaves whole
  · have again : turn (part ++ ending :: rest) (0, []) =
        .ok (.again (BitVec.ofNat 64 (part ++ [ending]).length, part ++ [exported ending])) :=
      @turn_ended [] part rest [] _ ending short clean ends (by simpa using component_start short)
    have onto : Guarded (part ++ [ending]) rest := by
      refine ⟨part, ending, rfl, Or.inl ?_⟩
      rintro rfl
      exact absurd ends (by decide)
    have behind : part ++ ending :: rest = part ++ [ending] ++ rest := by simp
    refine scan_continues again ?_
    rw [keepFirst_ended clean ends]
    rw [behind] at short ⊢
    exact scan_guarded (part ++ [ending]) rest (part ++ [exported ending]) short onto

/-- A name with a byte that is no space is spaces and that byte before the rest. -/
theorem visible_split {dosName : List Byte} (visible : Visible dosName) :
    ∃ spaces first rest, dosName = spaces ++ first :: rest ∧ (∀ byte ∈ spaces, byte = space) ∧
      first ≠ space := by
  induction dosName with
  | nil => simp [Visible] at visible
  | cons byte others inductionHypothesis =>
    by_cases blank : byte = space
    · obtain ⟨spaces, first, rest, rfl, blanks, shown⟩ :=
        inductionHypothesis (by simpa [Visible, blank] using visible)
      exact ⟨byte :: spaces, first, rest, rfl, List.forall_mem_cons.mpr ⟨blank, blanks⟩, shown⟩
    · exact ⟨[], byte, others, rfl, by simp, blank⟩

/-- Where the conversion starts: after the leading spaces and a backslash there. -/
theorem begin_visible {spaces rest : List Byte} {first : Byte}
    (short : (spaces ++ first :: rest).length < 2 ^ 64 - 1) (blank : ∀ byte ∈ spaces, byte = space)
    (shown : first ≠ space) :
    begin (spaces ++ first :: rest) =
      .ok (if first = backslash then (BitVec.ofNat 64 (spaces ++ [first]).length, [slash])
        else (BitVec.ofNat 64 spaces.length, [])) := by
  have found : findFirst (· ≠ space) (spaces ++ first :: rest) 0 = BitVec.ofNat 64 spaces.length := by
    simpa using @findFirst_split (· ≠ space) [] spaces rest first (by simp at short ⊢; omega) (by simpa using blank) (by simpa using shown)
  have inside : BitVec.ofNat 64 spaces.length ≠ npos := by
    have none : npos.toNat = 2 ^ 64 - 1 := rfl
    simp only [List.length_append, List.length_cons] at short
    bv_omega
  have next : BitVec.ofNat 64 spaces.length + 1 = BitVec.ofNat 64 (spaces ++ [first]).length := by
    simp only [List.length_append, List.length_cons, List.length_nil]
    bv_omega
  rw [begin, found, if_neg inside, charAt_split (by simp at short; omega)]
  simp only [bind, Except.bind, next]
  rfl

/-- Normalising starts after the leading spaces. -/
theorem normalise_spaces {spaces rest : List Byte} {first : Byte}
    (blank : ∀ byte ∈ spaces, byte = space) (shown : first ≠ space) :
    normalise (spaces ++ first :: rest) = normaliseParts (first :: rest) := by
  have dropped : (spaces ++ first :: rest).dropWhile (· = space) = first :: rest := by
    rw [List.dropWhile_append, List.dropWhile_eq_nil_iff.mpr (by simpa using blank)]
    simp [shown]
  rw [normalise, dropped]

/-- A backslash that comes first is a component of its own. -/
theorem converted_backslash {spaces rest : List Byte} (blank : ∀ byte ∈ spaces, byte = space) :
    converted (spaces ++ backslash :: rest) = [slash] ++ normaliseParts rest := by
  have shape : backslash :: rest = [] ++ backslash :: rest := rfl
  have parts : normaliseParts (backslash :: rest) = [slash] ++ normaliseParts rest := by
    rw [normaliseParts, shape, join_ended (by simp) (by decide)]
    rfl
  cases spaces with
  | nil =>
    rw [converted, if_neg (by simp [backslash, space]), List.nil_append, shape,
      keepFirst_ended (by simp) (by decide)]
    rfl
  | cons head tail =>
    obtain ⟨rfl, -⟩ := List.forall_mem_cons.mp blank
    rw [converted, if_pos (by simp), normalise_spaces blank (by decide), parts]

/-- A name with a byte that is no space is converted. -/
theorem export_converted (dosName : List Byte) (short : dosName.length < 2 ^ 64 - 1)
    (visible : Visible dosName) :
    Returns (exportFileName dosName) () (converted dosName) () := by
  obtain ⟨spaces, first, rest, rfl, blank, shown⟩ := visible_split visible
  refine (exportFileName_begin (begin_visible short blank shown)).mpr ?_
  by_cases root : first = backslash
  · subst root
    have behind : spaces ++ backslash :: rest = spaces ++ [backslash] ++ rest := by simp
    rw [if_pos rfl, converted_backslash blank]
    rw [behind] at short ⊢
    exact scan_guarded (spaces ++ [backslash]) rest [slash] short
      ⟨spaces, backslash, rfl, Or.inl (by decide)⟩
  · rw [if_neg root]
    obtain rfl | ⟨before, byte, rfl⟩ := spaces.eq_nil_or_concat'
    · rw [converted, if_neg (by simpa using shown)]
      exact scan_start (first :: rest) short
    · have leading : (before ++ [byte] ++ first :: rest).head? = some space := by
        cases before with
        | nil => simpa using blank
        | cons head tail => simpa using blank head (by simp)
      rw [converted, if_pos leading, normalise_spaces blank shown]
      exact scan_guarded (before ++ [byte]) (first :: rest) [] short
        ⟨before, byte, rfl, Or.inr (by simpa using shown)⟩

/-- A component loses nothing exactly when it does not end in a space. -/
theorem trimEnd_self {part : List Byte} : trimEnd part = part ↔ part.getLast? ≠ some space := by
  rw [trimEnd, List.rdropWhile_eq_self_iff]
  obtain rfl | ⟨front, byte, rfl⟩ := part.eq_nil_or_concat' <;> simp

/-- What is returned is the normalised name exactly when the name is aligned. -/
theorem converted_iff (dosName : List Byte) :
    converted dosName = normalise dosName ↔ Aligned dosName := by
  by_cases leading : dosName.head? = some space
  · simp [converted, Aligned, leading]
  · have same : dosName.dropWhile (· = space) = dosName := by
      cases dosName with
      | nil => rfl
      | cons head tail => simpa using leading
    rw [converted, if_neg leading, Aligned, or_iff_right leading, normalise, same]
    obtain clean | ⟨part, ending, rest, rfl, clean, ends⟩ := first_component separator dosName
    · rw [keepFirst_plain clean, normaliseParts, join_plain clean, cut_plain clean, eq_comm,
        trimEnd_self]
    · rw [keepFirst_ended clean ends, normaliseParts, normaliseParts, join_ended clean ends,
        cut_ended clean ends, List.append_left_inj, normaliseEnded, List.append_left_inj]
      by_cases verbatim : ending = slash
      · simp [verbatim]
      · rw [if_neg verbatim, eq_comm, trimEnd_self]
        exact (or_iff_right verbatim).symm

/-- The conversion edits every component alike exactly on the aligned names. -/
theorem export_normalises_iff (dosName : List Byte) (short : dosName.length < 2 ^ 64 - 1)
    (visible : Visible dosName) :
    Returns (exportFileName dosName) () (normalise dosName) () ↔ Aligned dosName := by
  rw [← converted_iff]
  constructor
  · exact fun returned => (returns_unique (export_converted dosName short visible) returned).1
  · exact fun same => same ▸ export_converted dosName short visible

/-- `A .B` keeps the space of its first component. -/
theorem export_keeps_space :
    ¬ Returns (exportFileName [0x41, 0x20, 0x2e, 0x42]) () (normalise [0x41, 0x20, 0x2e, 0x42]) () := by
  intro returned
  have converts := export_converted [0x41, 0x20, 0x2e, 0x42] (by decide) (by decide)
  have same : converted [0x41, 0x20, 0x2e, 0x42] = normalise [0x41, 0x20, 0x2e, 0x42] :=
    (returns_unique converts returned).1
  exact absurd same (by decide)

/-- ` A .B` starts with a space, and `A /B` has its space before a slash. -/
theorem export_normalises_aligned :
    Returns (exportFileName [0x20, 0x41, 0x20, 0x2e, 0x42]) () [0x41, 0x2e, 0x42] () ∧
      Returns (exportFileName [0x41, 0x20, 0x2f, 0x42]) () [0x41, 0x20, 0x2f, 0x42] () :=
  ⟨(export_normalises_iff [0x20, 0x41, 0x20, 0x2e, 0x42] (by decide) (by decide)).mpr (.inl rfl),
    (export_normalises_iff [0x41, 0x20, 0x2f, 0x42] (by decide) (by decide)).mpr
      (.inr (.inl rfl))⟩

/-- No separator is exported as a backslash. -/
theorem exported_clean (ending : Byte) : exported ending ≠ backslash := by
  rw [exported]
  split
  · decide
  · assumption

/-- A component has no backslash, with or without its trailing spaces. -/
theorem part_clean {part : List Byte} (clean : ∀ byte ∈ part, ¬ separator byte) :
    backslash ∉ part ∧ backslash ∉ trimEnd part := by
  have outside : backslash ∉ part := fun member => clean backslash member (by decide)
  exact ⟨outside, fun member => outside ((List.rdropWhile_prefix _ _).subset member)⟩

/-- A normalised component has no backslash. -/
theorem normaliseEnded_clean {part : List Byte} (clean : ∀ byte ∈ part, ¬ separator byte)
    (ending : Byte) : backslash ∉ normaliseEnded part ending := by
  obtain ⟨kept, trimmed⟩ := part_clean clean
  have last : backslash ∉ [exported ending] := by simpa using (exported_clean ending).symm
  rw [normaliseEnded, List.mem_append]
  refine not_or_intro ?_ last
  split
  · exact kept
  · exact trimmed

/-- Nor has a normalised name. -/
theorem normaliseParts_clean (text : List Byte) : backslash ∉ normaliseParts text :=
  not_mem_join text (fun _ ending clean _ => normaliseEnded_clean clean ending)
    fun _ clean => (part_clean clean).2

/-- The converted name has no backslash. -/
theorem converted_clean (dosName : List Byte) : backslash ∉ converted dosName := by
  rw [converted]
  split
  · exact normaliseParts_clean _
  · obtain clean | ⟨part, ending, rest, rfl, clean, ends⟩ := first_component separator dosName
    · rw [keepFirst_plain clean]
      exact (part_clean clean).1
    · have last : backslash ∉ [exported ending] := by simpa using (exported_clean ending).symm
      rw [keepFirst_ended clean ends, List.mem_append, List.mem_append]
      exact not_or_intro (not_or_intro (part_clean clean).1 last) (normaliseParts_clean rest)

/-- A name of nothing but spaces makes the conversion use a position outside it. -/
theorem export_raises {dosName : List Byte} (short : dosName.length < 2 ^ 64 - 1)
    (hidden : ¬ Visible dosName) : Raises (exportFileName dosName) () .outOfRange () := by
  have blank : ∀ byte ∈ dosName, ¬ decide (byte ≠ space) := by
    simpa [Visible] using hidden
  have none : findFirst (· ≠ space) dosName 0 = npos := @findFirst_none (· ≠ space) [] dosName (by simp) blank
  have start : begin dosName = .ok (npos, []) := by rw [begin, none, if_pos rfl]
  have leaves : turn dosName (npos, []) = .ok (.leave (npos, [])) := by simp [turn]
  have outside : lastComponent dosName npos = .error .outOfRange := by
    have beyond : ¬ npos.toNat ≤ dosName.length := by
      have largest : npos.toNat = 2 ^ 64 - 1 := rfl
      omega
    simp only [lastComponent, substr, if_neg beyond]
  refine (exportFileName_begin start).mpr (raises_bind.mpr (.inr ⟨(npos, []), (), ?_, ?_⟩))
  · exact loop_leaves (returns_atomic.mpr (by rw [leaves]))
  · exact raises_bind.mpr (.inl (raises_atomic.mpr (by rw [outside])))

/-- The conversion ends without an exception exactly on names that are not all spaces,
and its result has no backslash then. -/
theorem export_clean_iff {dosName : List Byte} (short : dosName.length < 2 ^ 64 - 1) :
    (∃ name, Returns (exportFileName dosName) () name () ∧ backslash ∉ name) ↔
      Visible dosName := by
  constructor
  · rintro ⟨name, returned, -⟩
    by_contra hidden
    exact returns_not_raises returned (export_raises short hidden)
  · exact fun visible =>
      ⟨_, export_converted dosName short visible, converted_clean dosName⟩

end Vx68k.FileNames
