import Mathlib.Logic.Function.Basic
import Mathlib.Order.Basic
import Mathlib.Tactic.Tauto

/-!
# Counts of holders

Objects are held by slots, and a table gives the number of slots that hold each
object, without an entry for an object that no slot holds. A change at one object
leaves a correct table correct when it is correct there. Holders come in groups, and
the groups may be known not to share objects; then a group's own slots are all the
slots there are of what it holds, however many groups there are.

Nothing here depends on what the objects, the slots or the counts are.
-/

namespace Vx68k.Holders

variable {Object Count Group : Type}

/-- One more slot, when a slot's content is the object. -/
def held [DecidableEq Object] (slot : Option Object) (object : Object) : Nat := if slot = some object then 1 else 0

/-- An empty holder holds nothing. -/
@[simp]
theorem held_none [DecidableEq Object] (object : Object) : held none object = 0 := rfl

/-- A holder holds its object once. -/
@[simp]
theorem held_self [DecidableEq Object] (object : Object) : held (some object) object = 1 := if_pos rfl

/-- It holds no other object. -/
theorem held_other [DecidableEq Object] {object other : Object} (different : other ≠ object) :
    held (some object) other = 0 := if_neg fun same => different (Option.some.inj same).symm

/-- The table has the number of slots of every object that some slot holds. -/
def Counted (value : Count → Int) (table : Object → Option Count) (slots : Object → Nat) : Prop :=
  ∀ object, if slots object = 0 then table object = none
    else ∃ count, table object = some count ∧ value count = slots object

/-- An object with slots has an entry, which is their number. -/
theorem counted_some {value : Count → Int} {table : Object → Option Count}
    {slots : Object → Nat} (counted : Counted value table slots) {object : Object}
    (some : 0 < slots object) : ∃ count, table object = .some count ∧ value count = slots object := by
  have entry := counted object
  rwa [if_neg (by omega)] at entry

/-- An object without slots has no entry. -/
theorem counted_none {value : Count → Int} {table : Object → Option Count}
    {slots : Object → Nat} (counted : Counted value table slots) {object : Object}
    (none : slots object = 0) : table object = .none := by
  have entry := counted object
  rwa [if_pos none] at entry

/-- A correct entry for one object, whose slots alone have changed. -/
theorem counted_update [DecidableEq Object] {value : Count → Int} {table : Object → Option Count}
    {slots other : Object → Nat} (counted : Counted value table slots) (object : Object)
    (entry : Option Count)
    (correct : if other object = 0 then entry = none
      else ∃ count, entry = some count ∧ value count = other object)
    (elsewhere : ∀ different, different ≠ object → other different = slots different) :
    Counted value (Function.update table object entry) other := by
  intro place
  by_cases here : place = object
  · subst here
    simpa using correct
  · rw [Function.update_of_ne here, elsewhere place here]
    exact counted place

/-- The slots of all groups. -/
def total (slots : Group → Object → Nat) : List Group → Object → Nat
  | [], _ => 0
  | group :: rest, object => slots group object + total slots rest object

/-- A group among others. -/
theorem total_split (slots : Group → Object → Nat) (left right : List Group) (group : Group)
    (object : Object) : total slots (left ++ group :: right) object =
      slots group object + total slots (left ++ right) object := by
  induction left with
  | nil => rfl
  | cons other rest inductionHypothesis =>
    simp only [List.cons_append, total, inductionHypothesis]
    exact Nat.add_left_comm _ _ _

/-- A group's slots are among all slots. -/
theorem slots_le_total (slots : Group → Object → Nat) {groups : List Group} {group : Group}
    (member : group ∈ groups) (object : Object) :
    slots group object ≤ total slots groups object := by
  obtain ⟨left, right, rfl⟩ := List.append_of_mem member
  rw [total_split]
  exact Nat.le_add_right _ _

/-- What has slots is held by a group. -/
theorem total_pos {slots : Group → Object → Nat} {groups : List Group} {object : Object} :
    0 < total slots groups object ↔ ∃ group ∈ groups, 0 < slots group object := by
  induction groups with
  | nil => simp [total]
  | cons group rest inductionHypothesis =>
    rw [total, Nat.add_pos_iff_pos_or_pos, inductionHypothesis]
    simp only [List.mem_cons, exists_eq_or_imp]

/-- No object is held by two groups. -/
def Apart (slots : Group → Object → Nat) (groups : List Group) : Prop :=
  ∀ group ∈ groups, ∀ object, 0 < slots group object →
    total slots groups object = slots group object

/-- What a group holds, the others do not. -/
theorem apart_others {slots : Group → Object → Nat} {left right : List Group} {group : Group}
    (apart : Apart slots (left ++ group :: right)) {object : Object}
    (holds : 0 < slots group object) : total slots (left ++ right) object = 0 := by
  have alone := apart group (by simp) object holds
  rw [total_split] at alone
  omega

/-- Without one of its groups, the groups are still apart. -/
theorem apart_remove {slots : Group → Object → Nat} {left right : List Group} {group : Group}
    (apart : Apart slots (left ++ group :: right)) : Apart slots (left ++ right) := by
  intro other member object holds
  have whole := apart other (by
    rcases List.mem_append.mp member with inLeft | inRight <;> simp [*]) object holds
  have part := slots_le_total slots member object
  rw [total_split] at whole
  omega

/-- A group that holds only what no other does may join. -/
theorem apart_insert {slots : Group → Object → Nat} {left right : List Group} {new : Group}
    (apart : Apart slots (left ++ right))
    (fresh : ∀ object, 0 < slots new object → total slots (left ++ right) object = 0) :
    Apart slots (left ++ new :: right) := by
  intro other member object holds
  rw [total_split]
  by_cases same : other = new
  · subst same
    rw [fresh object holds, Nat.add_zero]
  · have among : other ∈ left ++ right := by
      simp only [List.mem_append, List.mem_cons] at member ⊢
      tauto
    have alone := apart other among object holds
    have free : slots new object = 0 := by
      by_contra some
      have none := fresh object (Nat.pos_of_ne_zero some)
      omega
    omega

/-- A group may be replaced by one that holds only what it held and what none did. -/
theorem apart_replace {slots : Group → Object → Nat} {left right : List Group}
    {group new : Group} (apart : Apart slots (left ++ group :: right))
    (fresh : ∀ object, 0 < slots new object →
      0 < slots group object ∨ total slots (left ++ right) object = 0) :
    Apart slots (left ++ new :: right) :=
  apart_insert (apart_remove apart) fun object holds =>
    (fresh object holds).elim (apart_others apart) id

end Vx68k.Holders
