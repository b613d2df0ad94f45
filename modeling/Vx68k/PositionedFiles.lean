import Mathlib.Data.List.Basic
import Mathlib.Logic.Function.Basic

/-!
# Files that are read and written at a position

A file is a sequence of symbols. What one opening of a file leaves is a description: which
file it is, where the next transfer starts and what is allowed. Descriptions have keys, and
two tables of them with different keys behave alike as long as one kind of keys names the
other one without confusing any two.
-/

namespace Vx68k.PositionedFiles

variable {α β ι κ κ' : Type}

/-- The symbols before a position; where the file is shorter it is filled. -/
def front (fill : α) (content : List α) (position : Nat) : List α :=
  (content ++ List.replicate (position - content.length) fill).take position

/-- The part before a position has the position as its length. -/
@[simp]
theorem front_length (fill : α) (content : List α) (position : Nat) :
    (front fill content position).length = position := by
  rw [front, List.length_take, List.length_append, List.length_replicate]
  omega

/-- The front of a file that is long enough. -/
theorem front_append (fill : α) (first rest : List α) :
    front fill (first ++ rest) first.length = first := by
  rw [front, List.append_assoc, List.take_left]

/-- Put symbols into a file from a position on. No symbols leave it as it is. -/
def overwrite (fill : α) (content : List α) (position : Nat) (new : List α) : List α :=
  if new.isEmpty then content
  else front fill content position ++ new ++ content.drop (position + new.length)

/-- To write nothing changes nothing. -/
theorem overwrite_nil (fill : α) (content : List α) (position : Nat) :
    overwrite fill content position [] = content := rfl

/-- Other writes replace a part and fill up what is missing before it. -/
theorem overwrite_some (fill : α) (content : List α) (position : Nat) {new : List α}
    (some : new ≠ []) : overwrite fill content position new =
      front fill content position ++ new ++ content.drop (position + new.length) :=
  if_neg (by simpa using some)

/-- What has been written can be read. -/
theorem overwrite_read (fill : α) (content : List α) (position : Nat) (new : List α) :
    ((overwrite fill content position new).drop position).take new.length = new := by
  by_cases some : new = []
  · rw [some, List.length_nil, List.take_zero]
  · rw [overwrite_some fill content position some, List.append_assoc,
      List.drop_left' (front_length fill content position), List.take_left]

/-- Two writes with nothing between them are one. -/
theorem overwrite_append (fill : α) (content : List α) (position : Nat) (first second : List α) :
    overwrite fill (overwrite fill content position first) (position + first.length) second =
      overwrite fill content position (first ++ second) := by
  by_cases none : first = []
  · rw [none, overwrite_nil, List.length_nil, Nat.add_zero, List.nil_append]
  by_cases last : second = []
  · rw [last, overwrite_nil, List.append_nil]
  have length : (front fill content position ++ first).length = position + first.length := by
    rw [List.length_append, front_length]
  have start : front fill (front fill content position ++ first ++
      content.drop (position + first.length)) (position + first.length) =
        front fill content position ++ first := by
    rw [← length, front_append]
  have rest : (front fill content position ++ first ++ content.drop (position + first.length)).drop
      (position + first.length + second.length) =
        content.drop (position + first.length + second.length) := by
    rw [← List.drop_drop, List.drop_left' length, List.drop_drop]
  rw [overwrite_some fill _ _ last, overwrite_some fill content position none, start, rest,
    overwrite_some fill content position (List.append_ne_nil_of_left_ne_nil none second),
    List.length_append, ← Nat.add_assoc, ← List.append_assoc (front fill content position)]

/-- What one opening of a file has left. -/
structure Description (ι : Type) where
  file : ι
  position : Nat
  readable : Bool
  writable : Bool

/-- Files, and the descriptions of those that are open. -/
structure Opened (κ ι α : Type) where
  content : ι → List α
  opened : κ → Option (Description ι)

/-- A call on an open file: what it answers, if it does not fail, and the description and the
files after it. -/
abbrev Call (ι α β : Type) := Description ι → (ι → List α) → Option β × Description ι × (ι → List α)

namespace Call

/-- A call that the system refuses for reasons of its own. -/
def refusedIf (fails : Bool) (call : Call ι α β) : Call ι α β := fun description content =>
  if fails then (none, description, content) else call description content

/-- Read at most so many symbols. -/
def read (count : Nat) : Call ι α (List α) := fun description content =>
  if description.readable then
    let data := ((content description.file).drop description.position).take count
    (some data, { description with position := description.position + data.length }, content)
  else (none, description, content)

/-- Write symbols, all of them. -/
def write [DecidableEq ι] (fill : α) (data : List α) : Call ι α Nat := fun description content =>
  if description.writable then
    (some data.length, { description with position := description.position + data.length },
      Function.update content description.file
        (overwrite fill (content description.file) description.position data))
  else (none, description, content)

/-- Move to an offset from the start, from the position or from the end. -/
def seek (offset : Int) (whence : Nat) : Call ι α Nat := fun description content =>
  let base : Option Nat := match whence with
    | 0 => some 0
    | 1 => some description.position
    | 2 => some (content description.file).length
    | _ => none
  match base with
  | none => (none, description, content)
  | some base =>
    if 0 ≤ base + offset then
      (some (base + offset).toNat, { description with position := (base + offset).toNat }, content)
    else (none, description, content)

end Call

namespace Opened

/-- Two tables have the same files, and the same descriptions under names. -/
structure Agree (names : κ → Option κ') (named : Opened κ' ι α) (table : Opened κ ι α) : Prop where
  content : named.content = table.content
  opened : ∀ key name, names key = some name → named.opened name = table.opened key

/-- No two keys have one name. -/
def Apart (names : κ → Option κ') : Prop :=
  ∀ key other name, names key = some name → names other = some name → key = other

variable {names later : κ → Option κ'} {named : Opened κ' ι α} {table : Opened κ ι α}

/-- Fewer names agree still. -/
theorem agree_fewer (agree : Agree names named table)
    (fewer : ∀ key name, later key = some name → names key = some name) :
    Agree later named table :=
  ⟨agree.content, fun key name here => agree.opened key name (fewer key name here)⟩

/-- Fewer names are apart too. -/
theorem apart_fewer (apart : Apart names)
    (fewer : ∀ key name, later key = some name → names key = some name) : Apart later :=
  fun key other name here there => apart key other name (fewer key name here) (fewer other name there)

/-- A call through a key; it fails if that has no description. -/
def through [DecidableEq κ] (key : κ) (call : Call ι α β) (table : Opened κ ι α) :
    Option β × Opened κ ι α :=
  match table.opened key with
  | none => (none, table)
  | some description =>
    let answer := call description table.content
    (answer.1, ⟨answer.2.2, Function.update table.opened key (some answer.2.1)⟩)

/-- Take a description away. -/
def close [DecidableEq κ] (key : κ) (table : Opened κ ι α) : Opened κ ι α :=
  { table with opened := Function.update table.opened key none }

variable [DecidableEq κ']

/-- A name that is no longer used can be closed. -/
theorem agree_close (agree : Agree names named table) {name : κ'}
    (unused : ∀ key, names key ≠ some name) : Agree names (named.close name) table := by
  refine ⟨agree.content, fun key other here => ?_⟩
  have different : other ≠ name := fun clash => unused key (clash ▸ here)
  exact (Function.update_of_ne different _ _).trans (agree.opened key other here)

/-- A call through a name does what it does through the key of it. -/
theorem agree_through [DecidableEq κ] (agree : Agree names named table) (apart : Apart names)
    {key : κ} {name : κ'} (here : names key = some name) (call : Call ι α β) :
    (named.through name call).1 = (table.through key call).1 ∧
      Agree names (named.through name call).2 (table.through key call).2 := by
  have same := agree.opened key name here
  cases found : table.opened key with
  | none =>
    rw [found] at same
    simp only [through, same, found]
    exact ⟨trivial, agree⟩
  | some description =>
    rw [found] at same
    simp only [through, same, found, agree.content]
    refine ⟨trivial, rfl, fun other which called => ?_⟩
    dsimp only
    by_cases equal : other = key
    · obtain rfl := equal
      obtain rfl := Option.some.inj (here.symm.trans called)
      rw [Function.update_self, Function.update_self]
    · have different : which ≠ name := fun clash => equal (apart other key name (clash ▸ called) here)
      rw [Function.update_of_ne different, Function.update_of_ne equal]
      exact agree.opened other which called

end Opened

end Vx68k.PositionedFiles
