import Vx68k.Programs
import Vx68k.ByteStores

/-!
# File names

`export_file_name` turns a DOS file name into a POSIX one. It cuts the name at dots,
slashes and backslashes by the positions that the searches of a `std::string` return;
positions are unsigned 64-bit words and the largest one says that nothing was found.

A Kanji character is not told from two single bytes, as in the source.
-/

namespace Vx68k

open Programs ByteStores

namespace FileNames

/-- Positions within a string. -/
abbrev SizeType := BitVec 64

/-- The position that is none. -/
def npos : SizeType := BitVec.allOnes 64

/-- A position outside the string was used. -/
inductive OutOfRange where
  | outOfRange
deriving DecidableEq

/-- The size of a text, as the source counts it. -/
def size (text : List Byte) : SizeType := BitVec.ofNat 64 text.length

/-- The first position from a given one on whose byte is chosen. -/
def findFirst (chosen : Byte → Bool) (text : List Byte) (pos : SizeType) : SizeType :=
  match (text.drop pos.toNat).findIdx? chosen with
  | some offset => pos + BitVec.ofNat 64 offset
  | none => npos

/-- The last position up to a given one whose byte is chosen. -/
def findLast (chosen : Byte → Bool) (text : List Byte) (pos : SizeType) : SizeType :=
  let searched := (text.take (pos.toNat + 1)).reverse
  match searched.findIdx? chosen with
  | some offset => BitVec.ofNat 64 (searched.length - 1 - offset)
  | none => npos

/-- The byte at a position. -/
def charAt (text : List Byte) (pos : SizeType) : Except OutOfRange Byte :=
  match text[pos.toNat]? with
  | some byte => .ok byte
  | none => .error .outOfRange

/-- At most `count` bytes from a position on. -/
def substr (text : List Byte) (pos count : SizeType) : Except OutOfRange (List Byte) :=
  if pos.toNat ≤ text.length then .ok ((text.drop pos.toNat).take count.toNat)
  else .error .outOfRange

/-- The byte that components are filled up with. -/
def space : Byte := 0x20

/-- The byte before an extension. -/
def dot : Byte := 0x2e

/-- The byte between the components of a name of the host. -/
def slash : Byte := 0x2f

/-- The byte between the components of a name of DOS. -/
def backslash : Byte := 0x5c

/-- The bytes that end a component. -/
def separator (byte : Byte) : Bool := byte = dot ∨ byte = backslash ∨ byte = slash

/-- The last position of a component without its trailing spaces. It starts at `pos`
and its last byte is at `last`. -/
def trimmed (dosName : List Byte) (pos last : SizeType) : SizeType :=
  let found := findLast (· ≠ space) dosName last
  if found = npos ∨ found < pos - 1 then last else found

/-- The component from `pos` to the separator at `nextPos`, and the separator. -/
def component (dosName : List Byte) (pos nextPos : SizeType) :
    Except OutOfRange (List Byte) := do
  let ending ← charAt dosName nextPos
  if ending = slash then substr dosName pos (nextPos + 1 - pos)
  else
    let last := if nextPos ≠ pos then trimmed dosName pos (nextPos - 1) else nextPos - 1
    let part ← substr dosName pos (last + 1 - pos)
    pure (part ++ [if ending = backslash then slash else ending])

/-- Where the conversion stands: a position in the DOS name and the name so far. -/
abbrev Progress := SizeType × List Byte

/-- One turn of the conversion. -/
def turn (dosName : List Byte) (progress : Progress) :
    Except OutOfRange (Turn Progress Progress) :=
  let (pos, name) := progress
  let nextPos := findFirst separator dosName pos
  if pos = npos ∨ pos = size dosName ∨ nextPos = npos then .ok (.leave progress)
  else do
    let part ← component dosName pos nextPos
    pure (.again (nextPos + 1, name ++ part))

/-- Skip leading spaces and one backslash after them. -/
def begin (dosName : List Byte) : Except OutOfRange Progress :=
  let pos := findFirst (· ≠ space) dosName 0
  if pos = npos then .ok (pos, [])
  else do
    let first ← charAt dosName pos
    pure (if first = backslash then (pos + 1, [slash]) else (pos, []))

/-- The part after the last separator. -/
def lastComponent (dosName : List Byte) (pos : SizeType) : Except OutOfRange (List Byte) :=
  let last := size dosName - 1
  let last := if size dosName ≠ pos then trimmed dosName pos last else last
  substr dosName pos (last + 1 - pos)

/-- Convert a name of DOS to one of the host: its components without trailing spaces, and
slashes for backslashes. -/
def exportFileName (dosName : List Byte) : Program OutOfRange Unit (List Byte) := do
  let progress ← .atomic fun done => (begin dosName, done)
  let (pos, name) ← Program.loop
    (fun progress => .atomic fun done => (turn dosName progress, done)) progress
  let part ← .atomic fun done => (lastComponent dosName pos, done)
  pure (name ++ part)

/-- A position found by a forward search is in the string and not before its start. -/
theorem findFirst_bounds {chosen : Byte → Bool} {text : List Byte} {pos : SizeType}
    (short : text.length < 2 ^ 64) (found : findFirst chosen text pos ≠ npos) :
    pos.toNat ≤ (findFirst chosen text pos).toNat ∧
      (findFirst chosen text pos).toNat < text.length := by
  unfold findFirst at found ⊢
  cases search : (text.drop pos.toNat).findIdx? chosen with
  | none => simp [search] at found
  | some offset =>
    obtain ⟨within, -⟩ := List.findIdx?_eq_some_iff_getElem.mp search
    rw [List.length_drop] at within
    have sum : (pos + BitVec.ofNat 64 offset).toNat = pos.toNat + offset := by
      rw [BitVec.toNat_add, BitVec.toNat_ofNat, Nat.mod_eq_of_lt (a := offset) (by omega),
        Nat.mod_eq_of_lt (by omega)]
    simp only [sum]
    omega

/-- A turn that asks for another one has moved on within the string. -/
theorem turn_moves {dosName : List Byte} {progress next : Progress}
    (short : dosName.length < 2 ^ 64) (again : turn dosName progress = .ok (.again next)) :
    progress.1.toNat < next.1.toNat ∧ next.1.toNat ≤ dosName.length := by
  obtain ⟨pos, name⟩ := progress
  simp only [turn] at again
  split at again
  · simp at again
  · rename_i goesOn
    push Not at goesOn
    obtain ⟨after, before⟩ := findFirst_bounds short goesOn.2.2
    cases part : component dosName pos (findFirst separator dosName pos) with
    | error failure => simp [part] at again
    | ok bytes =>
      simp only [part, bind, Except.bind, pure, Except.pure, Except.ok.injEq,
        Turn.again.injEq] at again
      subst again
      simp only
      bv_omega

/-- The conversion of every name that fits the address space halts.

Proof: every turn moves the position towards the end of the name. -/
theorem export_halts (dosName : List Byte) (short : dosName.length < 2 ^ 64) :
    Halts (exportFileName dosName) () := by
  refine halts_bind (halts_atomic _ _) fun progress _ _ => halts_bind ?_ fun _ _ _ =>
    halts_bind (halts_atomic _ _) fun _ _ _ => halts_atomic _ _
  refine loop_halts (fun _ _ => True) (fun progress _ => dosName.length - progress.1.toNat)
    (fun _ _ _ => halts_atomic _ _) (fun progress done next _ _ returned => ⟨trivial, ?_⟩)
    progress _ trivial
  obtain ⟨moves, within⟩ := turn_moves short (Prod.mk.inj (returns_atomic.mp returned)).1
  omega

end FileNames

end Vx68k
