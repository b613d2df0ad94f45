import Vx68k.MainMemory

/-!
# Accesses to cells the array does not have

The range test of every method looks at the first byte of an access only, and
the constructor rounds the size to a multiple of two. A byte or a word lies in
one cell, which the array then has. A long word takes two cells; the second one
is missing exactly when the first one is the last of the array.

The cells a method takes are followed through its sequence of operations, so one
rule for each operation decides whether it leaves the array.
-/

namespace Vx68k.MainMemory

open Programs

/-- The method needs these cells of the array: it returns when the array has all
of them and is an access outside the array otherwise. -/
def Takes {α : Type} (cells : List Nat) (method : Method α) : Prop := ∀ memory : MainMemory,
  ((∀ half ∈ cells, half < memory.content.size) →
    ∃ value after, Returns method memory value after ∧
      after.content.size = memory.content.size) ∧
  ((∃ half ∈ cells, memory.content.size ≤ half) →
    ∃ after, Raises method memory .outOfBounds after)

/-- An answer takes no cells. -/
theorem takes_pure {α : Type} (value : α) : Takes [] (pure value : Method α) := fun memory =>
  ⟨fun _ => ⟨value, memory, returns_pure.mpr ⟨rfl, rfl⟩, rfl⟩, fun ⟨_, member, _⟩ => by simp at member⟩

/-- Reading a cell takes it. -/
theorem takes_cell (half : Uint32) : Takes [half.toNat] (cell half) := by
  intro memory
  constructor
  · intro inside
    have bound : half.toNat < memory.content.size := inside _ (by simp)
    exact ⟨_, memory, returns_cell.mpr ⟨by rw [Array.getElem?_eq_getElem bound]; rfl, rfl⟩, rfl⟩
  · rintro ⟨index, member, outside⟩
    obtain rfl := List.mem_singleton.mp member
    have missing : memory.content[half.toNat]? = none := Array.getElem?_eq_none outside
    exact ⟨memory, raises_atomic.mpr (by rw [missing])⟩

/-- So does assigning it. -/
theorem takes_assign (half value : Uint32) : Takes [half.toNat] (assign half value) := by
  intro memory
  constructor
  · intro inside
    have bound : half.toNat < memory.content.size := inside _ (by simp)
    exact ⟨(), memory.set half.toNat bound (value.setWidth 16),
      returns_atomic.mpr (by simp only [bound, ↓reduceDIte]), by simp [set]⟩
  · rintro ⟨index, member, outside⟩
    obtain rfl := List.mem_singleton.mp member
    exact ⟨memory, raises_atomic.mpr (by rw [dif_neg (Nat.not_lt.mpr outside)])⟩

/-- A sequence takes the cells of both its parts. -/
theorem takes_bind {α β : Type} {earlier later : List Nat} {first : Method α}
    {next : α → Method β} (initial : Takes earlier first)
    (following : ∀ value, Takes later (next value)) : Takes (earlier ++ later) (first >>= next) := by
  intro memory
  obtain ⟨inside, outside⟩ := initial memory
  constructor
  · intro all
    obtain ⟨value, middle, returned, size⟩ :=
      inside fun half member => all half (List.mem_append_left _ member)
    obtain ⟨result, after, rest, kept⟩ := (following value middle).1 fun half member => by
      rw [size]
      exact all half (List.mem_append_right _ member)
    exact ⟨result, after, returns_bind.mpr ⟨value, middle, returned, rest⟩, kept.trans size⟩
  · rintro ⟨half, member, beyond⟩
    by_cases early : ∀ half ∈ earlier, half < memory.content.size
    · -- The first part stays inside, so the missing cell is one of the second part's.
      obtain ⟨value, middle, returned, size⟩ := inside early
      have late : half ∈ later := (List.mem_append.mp member).resolve_left fun among =>
        absurd (early half among) (Nat.not_lt.mpr beyond)
      obtain ⟨after, raised⟩ := (following value middle).2 ⟨half, late, size ▸ beyond⟩
      exact ⟨after, raises_bind.mpr (Or.inr ⟨value, middle, returned, raised⟩)⟩
    · obtain ⟨missing, among, short⟩ : ∃ half ∈ earlier, memory.content.size ≤ half := by
        simpa using early
      obtain ⟨after, raised⟩ := outside ⟨missing, among, short⟩
      exact ⟨after, raises_bind.mpr (Or.inl raised)⟩

/-- A sequence whose parts take the same cells takes these. -/
theorem takes_again {α β : Type} {cells : List Nat} {first : Method α} {next : α → Method β}
    (initial : Takes cells first) (following : ∀ value, Takes cells (next value)) :
    Takes cells (first >>= next) := by
  intro memory
  have both := takes_bind initial following memory
  simpa only [List.mem_append, or_self] using both

/-- The cells of an access by its address and width. -/
def Access.cells (access : Access) : List Nat :=
  match access.width with
  | .byte => [index access.address / 2]
  | .word => [index access.address / 2]
  | .longWord => [index access.address / 2, index access.address / 2 + 1]

/-- The method first makes the range test of an access; a refused one raises a
bus error, and one that is not refused takes these cells. -/
def Guarded {α : Type} (access : Access) (cells : List Nat) (method : Method α) : Prop :=
  ∀ memory : MainMemory,
    (¬ memory.Permitted access.address access.direction access.fc →
      Raises method memory (.busError access.address access.direction access.fc) memory) ∧
    (memory.Permitted access.address access.direction access.fc →
      ((∀ half ∈ cells, half < memory.content.size) →
        ∃ value after, Returns method memory value after) ∧
      ((∃ half ∈ cells, memory.content.size ≤ half) →
        ∃ after, Raises method memory .outOfBounds after))

/-- A range test and the operations after it. -/
theorem guarded_test {α : Type} {access : Access} {cells : List Nat} {rest : Method α}
    {test : MainMemory → Prop} [DecidablePred test]
    (decides : ∀ memory : MainMemory,
      memory.Permitted access.address access.direction access.fc ↔ test memory)
    (takes : Takes cells rest) :
    Guarded access cells (do
      let memory ← Program.state
      require (test memory) (.busError access.address access.direction access.fc)
      rest) := by
  intro memory
  constructor
  · intro refused
    exact @test_raises _ test _ _ (fun _ _ => rest) memory
      fun holds => refused ((decides memory).mpr holds)
  · intro permitted
    have passed : Returns (require (test memory)
        (.busError access.address access.direction access.fc)) memory () memory :=
      returns_require.mpr ⟨(decides memory).mp permitted, rfl⟩
    constructor
    · intro inside
      obtain ⟨value, after, returned, -⟩ := (takes memory).1 inside
      exact ⟨value, after, returns_bind.mpr ⟨memory, memory, returns_state.mpr ⟨rfl, rfl⟩,
        returns_bind.mpr ⟨(), memory, passed, returned⟩⟩⟩
    · intro outside
      obtain ⟨after, raised⟩ := (takes memory).2 outside
      exact ⟨after, raises_bind.mpr (Or.inr ⟨memory, memory, returns_state.mpr ⟨rfl, rfl⟩,
        raises_bind.mpr (Or.inr ⟨(), memory, passed, raised⟩)⟩)⟩

/-- The answer of a write is added after all its operations. -/
theorem guarded_answer {access : Access} {cells : List Nat} {method : Method Unit}
    (guarded : Guarded access cells method) :
    Guarded access cells (do method; pure (0 : Uint32)) := by
  intro memory
  obtain ⟨refused, permitted⟩ := guarded memory
  refine ⟨fun forbidden => raises_bind.mpr (Or.inl (refused forbidden)), fun allowed => ⟨?_, ?_⟩⟩
  · intro inside
    obtain ⟨done, after, returned⟩ := (permitted allowed).1 inside
    exact ⟨0, after, returns_bind.mpr ⟨done, after, returned, returns_pure.mpr ⟨rfl, rfl⟩⟩⟩
  · intro outside
    obtain ⟨after, raised⟩ := (permitted allowed).2 outside
    exact ⟨after, raises_bind.mpr (Or.inl raised)⟩

/-- A read is permitted if the masked address is below the size. -/
theorem masked_range {address : Uint32} {fc : FunctionCode} (memory : MainMemory) :
    memory.Permitted address .read fc ↔ address &&& 0xffffff < memory.size := by
  rw [permitted_read, BitVec.lt_def, mask_index]

/-- A byte is read from one cell, if that is permitted. -/
theorem get8_guarded (address : Uint32) (fc : FunctionCode) :
    Guarded ⟨.byte, address, none, fc⟩ [index address / 2] (get8 address fc) := by
  refine guarded_test masked_range ?_
  rw [← mask_half]
  refine takes_bind (takes_cell _) fun value => ?_
  split
  · exact takes_pure _
  · exact takes_pure _

/-- So is a word. -/
theorem get16_guarded (address : Uint32) (fc : FunctionCode) (aligned : address.toNat % 2 = 0) :
    Guarded ⟨.word, address, none, fc⟩ [index address / 2] (get16 address fc) := by
  have odd := odd_bit address
  have asserted : address &&& 1 = 0 := by bv_omega
  rw [get16, require, if_pos asserted, pure_bind, ← mask_half]
  exact guarded_test masked_range (takes_cell _)

/-- A long word is read from two cells, if the first is permitted. -/
theorem get32_guarded (address : Uint32) (fc : FunctionCode) (aligned : address.toNat % 4 = 0) :
    Guarded ⟨.longWord, address, none, fc⟩ [index address / 2, index address / 2 + 1]
      (get32 address fc) := by
  have bits := low_bits address
  have asserted : address &&& 3 = 0 := by bv_omega
  obtain ⟨-, half, next⟩ := long_cells aligned
  rw [get32, require, if_pos asserted, pure_bind, ← next, ← half]
  refine guarded_test (fun memory => permitted_read) ?_
  exact takes_bind (takes_cell _) fun _ => takes_bind (takes_cell _) fun _ => takes_pure _

/-- A byte is written to one cell, if that is permitted. -/
theorem put8_guarded (address value : Uint32) (fc : FunctionCode) :
    Guarded ⟨.byte, address, some value, fc⟩ [index address / 2] (put8 address value fc) := by
  refine guarded_test (fun memory => permitted_write) ?_
  rw [← mod_half]
  refine takes_again (takes_cell _) fun old => ?_
  split
  · exact takes_assign _ _
  · exact takes_assign _ _

/-- So is a word. -/
theorem put16_guarded (address value : Uint32) (fc : FunctionCode)
    (aligned : address.toNat % 2 = 0) :
    Guarded ⟨.word, address, some value, fc⟩ [index address / 2] (put16 address value fc) := by
  have odd := odd_bit address
  have asserted : address &&& 1 = 0 := by bv_omega
  rw [put16, require, if_pos asserted, pure_bind, ← mod_half]
  exact guarded_test (fun memory => permitted_write) (takes_assign _ _)

/-- A long word is written to two cells, if the first is permitted. -/
theorem put32_guarded (address value : Uint32) (fc : FunctionCode)
    (aligned : address.toNat % 4 = 0) :
    Guarded ⟨.longWord, address, some value, fc⟩ [index address / 2, index address / 2 + 1]
      (put32 address value fc) := by
  have bits := low_bits address
  have asserted : address &&& 3 = 0 := by bv_omega
  obtain ⟨-, half, next⟩ := long_cells aligned
  rw [put32, require, if_pos asserted, pure_bind, ← next, ← half]
  exact guarded_test (fun memory => permitted_write)
    (takes_bind (takes_assign _ _) fun _ => takes_assign _ _)

/-- Every aligned access makes its range test first and then takes its cells. -/
theorem perform_guarded (access : Access) (aligned : access.Aligned) :
    Guarded access access.cells (perform access) := by
  obtain ⟨width, address, stored, fc⟩ := access
  cases stored with
  | none =>
    cases width with
    | byte => exact get8_guarded address fc
    | word => exact get16_guarded address fc aligned
    | longWord => exact get32_guarded address fc aligned
  | some value =>
    cases width with
    | byte => exact guarded_answer (put8_guarded address value fc)
    | word => exact guarded_answer (put16_guarded address value fc aligned)
    | longWord => exact guarded_answer (put32_guarded address value fc aligned)

/-- The access returns, or it raises a bus error and changes nothing: every cell
it takes is in the array. -/
def Inside (memory : MainMemory) (access : Access) : Prop :=
  (∃ value after, Returns (perform access) memory value after) ∨
    Raises (perform access) memory
      (.busError access.address access.direction access.fc) memory

/-- An access outside the array is not inside it. -/
theorem not_inside {memory after : MainMemory} {access : Access}
    (raised : Raises (perform access) memory .outOfBounds after) : ¬ Inside memory access := by
  rintro (⟨value, final, returned⟩ | refused)
  · exact returns_not_raises returned raised
  · exact absurd (ends_unique refused raised).1 (by simp)

/-- With an even size the only access outside the array is a permitted long word
at the last cell.

Proof: the index of a permitted access is below the size, so its first cell is
one of the half as many cells; the cell after it is missing when no byte follows. -/
theorem inside_iff (memory : MainMemory) (access : Access) (even : memory.size.toNat % 2 = 0)
    (aligned : access.Aligned) :
    Inside memory access ↔
      ¬ (memory.Permitted access.address access.direction access.fc ∧
        access.width = .longWord ∧ index access.address + 2 = memory.size.toNat) := by
  obtain ⟨refused, permitted⟩ := perform_guarded access aligned memory
  have allocated := memory.allocated
  constructor
  · rintro inside ⟨allowed, long, last⟩
    have missing : memory.content.size ≤ index access.address / 2 + 1 := by omega
    obtain ⟨after, raised⟩ := (permitted allowed).2
      ⟨index access.address / 2 + 1, by simp [Access.cells, long], missing⟩
    exact not_inside raised inside
  · intro short
    by_cases allowed : memory.Permitted access.address access.direction access.fc
    · refine Or.inl ((permitted allowed).1 fun half member => ?_)
      have first : index access.address / 2 < memory.content.size := by
        have range := allowed.1
        omega
      obtain ⟨width, address, stored, fc⟩ := access
      cases width with
      | byte =>
        obtain rfl := List.mem_singleton.mp member
        exact first
      | word =>
        obtain rfl := List.mem_singleton.mp member
        exact first
      | longWord =>
        have fourth := (long_cells aligned).1
        have more : index address + 2 ≠ memory.size.toNat := fun last => short ⟨allowed, rfl, last⟩
        simp only [Access.cells, List.mem_cons, List.not_mem_nil, or_false] at member
        rcases member with rfl | rfl
        · exact first
        · dsimp only at first fourth more
          omega
    · exact Or.inr (refused allowed)

/-- However the method ends, the size is as before. -/
def KeepsSize {α : Type} (method : Method α) : Prop :=
  Carries (fun before after : MainMemory => after.size = before.size) method

/-- An answer keeps the size. -/
theorem keeps_pure {α : Type} (value : α) : KeepsSize (pure value : Method α) := by
  refine carries_pure ?_ value
  exact fun _ => rfl

/-- A program keeps the size if its parts do. -/
theorem keeps_bind {α β : Type} {first : Method α} {next : α → Method β}
    (initial : KeepsSize first) (following : ∀ value, KeepsSize (next value)) :
    KeepsSize (first >>= next) :=
  carries_bind (fun _ _ _ left right => right.trans left) initial following

/-- A check keeps the size. -/
theorem keeps_require (condition : Prop) [Decidable condition] (failure : Fault) :
    KeepsSize (require condition failure) := by
  unfold require
  split
  · exact keeps_pure ()
  · refine carries_raise ?_ failure
    exact fun _ => rfl

/-- So does reading a cell. -/
theorem keeps_cell (half : Uint32) : KeepsSize (cell half) :=
  carries_atomic fun memory => by cases memory.content[half.toNat]? <;> rfl

/-- So does assigning one. -/
theorem keeps_assign (half value : Uint32) : KeepsSize (assign half value) :=
  carries_atomic fun memory => by split <;> rfl

/-- What follows a range test decides whether the size is kept. -/
theorem keeps_tested {α : Type} {test : MainMemory → Prop} [DecidablePred test] {failure : Fault}
    {rest : Method α} (keeps : KeepsSize rest) : KeepsSize (do
      let memory ← Program.state
      require (test memory) failure
      rest) :=
  keeps_bind (carries_atomic fun _ => rfl) fun memory =>
    keeps_bind (keeps_require (test memory) failure) fun _ => keeps

/-- No method changes the size. -/
theorem perform_size (access : Access) : KeepsSize (perform access) := by
  obtain ⟨width, address, stored, fc⟩ := access
  cases stored with
  | none =>
    cases width with
    | byte =>
      refine keeps_tested (keeps_bind (keeps_cell _) fun value => ?_)
      split
      · exact keeps_pure _
      · exact keeps_pure _
    | word => exact keeps_bind (keeps_require _ _) fun _ => keeps_tested (keeps_cell _)
    | longWord =>
      exact keeps_bind (keeps_require _ _) fun _ => keeps_tested
        (keeps_bind (keeps_cell _) fun _ => keeps_bind (keeps_cell _) fun _ => keeps_pure _)
  | some value =>
    cases width with
    | byte =>
      refine keeps_bind (keeps_tested (keeps_bind (keeps_cell _) fun old => ?_))
        fun _ => keeps_pure _
      split
      · exact keeps_assign _ _
      · exact keeps_assign _ _
    | word =>
      exact keeps_bind (keeps_bind (keeps_require _ _) fun _ => keeps_tested (keeps_assign _ _))
        fun _ => keeps_pure _
    | longWord =>
      exact keeps_bind (keeps_bind (keeps_require _ _) fun _ => keeps_tested
        (keeps_bind (keeps_assign _ _) fun _ => keeps_assign _ _)) fun _ => keeps_pure _

/-- The memories a program meets: a constructed one, after any changes of the
protected size and any accesses. -/
inductive Reached (size : Uint32) (initial : Nat → BitVec 16) : MainMemory → Prop
  | constructed : Reached size initial (construct size initial)
  | guard {memory : MainMemory} (protectedSize : Uint32) (earlier : Reached size initial memory) :
      Reached size initial (memory.setProtectedSize protectedSize)
  | access {memory after : MainMemory} {outcome : Except Fault Uint32} (request : Access)
      (aligned : request.Aligned) (earlier : Reached size initial memory)
      (ended : Ends (perform request) memory outcome after) : Reached size initial after

/-- A run never changes the size given to the constructor. -/
theorem reached_size {size : Uint32} {initial : Nat → BitVec 16} {memory : MainMemory}
    (reached : Reached size initial memory) : memory.size = (construct size initial).size := by
  induction reached with
  | constructed => rfl
  | guard _ _ inductionHypothesis => exact inductionHypothesis
  | access request _ _ ended inductionHypothesis =>
    exact (perform_size request _ _ _ ended).trans inductionHypothesis

/-- Rounding adds the remainder modulo two; at the largest size it wraps to zero. -/
theorem rounded (size : Uint32) :
    (size + 1) / 2 * 2 = size + size % 2 ∧ ((size + 1) / 2 * 2).toNat % 2 = 0 ∧
      ((size + 1) / 2 * 2).toNat = (size.toNat + size.toNat % 2) % 2 ^ 32 := by
  have bound := size.isLt
  have number : ((size + 1) / 2 * 2).toNat = (size.toNat + size.toNat % 2) % 2 ^ 32 := by
    simp only [BitVec.toNat_mul, BitVec.toNat_udiv, BitVec.toNat_add,
      show (1 : Uint32).toNat = 1 from rfl, show (2 : Uint32).toNat = 2 from rfl]
    omega
  refine ⟨BitVec.eq_of_toNat_eq ?_, by omega, number⟩
  rw [number, BitVec.toNat_add, BitVec.toNat_umod]
  rfl

/-- The size is rounded to an even number, and in every memory a program meets
every aligned access stays inside the array. -/
def Bounded (size : Uint32) (initial : Nat → BitVec 16) : Prop :=
  (construct size initial).size = size + size % 2 ∧
    (construct size initial).size.toNat % 2 = 0 ∧
    ∀ memory, Reached size initial memory → ∀ access : Access, access.Aligned →
      Inside memory access

/-- A memory stays inside its array exactly when the rounded size is a multiple
of four or leaves no index at its last cell.

Proof: a long word is aligned to four bytes, so one that begins two bytes before
the end needs a size of two modulo four, and an index below 2^24. Of such a
size, the long word at the last cell is read in the constructed memory. -/
theorem bounded_iff (size : Uint32) (initial : Nat → BitVec 16) :
    Bounded size initial ↔
      size.toNat % 4 = 0 ∨ size.toNat % 4 = 3 ∨ 2 ^ 24 < size.toNat := by
  obtain ⟨remainder, even, number⟩ := rounded size
  have bound := size.isLt
  constructor
  · rintro ⟨-, -, inside⟩
    by_contra outside
    push Not at outside
    -- The read of the long word that begins with the last cell.
    obtain ⟨address, last⟩ :
        ∃ address : Uint32, address.toNat = ((size + 1) / 2 * 2).toNat - 2 :=
      ⟨BitVec.ofNat 32 _, Nat.mod_eq_of_lt (by omega)⟩
    have place : index address = ((size + 1) / 2 * 2).toNat - 2 := by
      rw [index, last]
      exact Nat.mod_eq_of_lt (by omega)
    have aligned : address.toNat % 4 = 0 := by omega
    have range : index address < ((size + 1) / 2 * 2).toNat := by omega
    have final : index address + 2 = ((size + 1) / 2 * 2).toNat := by omega
    exact (inside_iff _ ⟨.longWord, address, none, .userData⟩ even aligned).mp
      (inside _ .constructed _ aligned) ⟨permitted_read.mpr range, rfl, final⟩
  · intro sizes
    refine ⟨remainder, even, fun memory reached access aligned => ?_⟩
    have kept : memory.size.toNat = ((size + 1) / 2 * 2).toNat :=
      congrArg BitVec.toNat (reached_size reached)
    refine (inside_iff memory access (kept ▸ even) aligned).mpr ?_
    rintro ⟨-, long, last⟩
    have fourth : index access.address % 4 = 0 := by
      have multiple : access.address.toNat % 4 = 0 := by
        simpa only [Access.Aligned, long, Width.bytes] using aligned
      exact (long_cells multiple).1
    have low : index access.address < 2 ^ 24 := Nat.mod_lt _ (by decide)
    omega

/-- Two bytes are one cell, and a long word at their address needs two. -/
theorem two_bytes_overrun : ¬ Bounded 2 fun _ => 0x4afc := by
  rintro ⟨-, -, inside⟩
  have raised : Raises (perform ⟨.longWord, 0, none, .userData⟩)
      (construct 2 fun _ => 0x4afc) .outOfBounds (construct 2 fun _ => 0x4afc) := ⟨0, rfl⟩
  exact not_inside raised (inside _ .constructed _ (by decide))

end Vx68k.MainMemory
