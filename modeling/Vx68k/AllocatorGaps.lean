import Vx68k.AllocatorRuns

/-!
# Requests for new blocks

The results of `alloc` and `alloc_largest`, stated on integers. A request is answered
from the gaps of the list: the distance from the end of a block, rounded up, to the
next header above or to the limit. The source adds the header to the length modulo
2^32, so that a length near 2^32 stands for a short one. Any parent is allowed. The
new list need not be a forest then, and nothing is said about later reclamation.

The null address ends the list. A root there makes a list that no walk comes to.
-/

namespace Vx68k.Allocator

open Programs Forests

variable {M : Type} [Bus M] {allocator after : Allocator M} {blocks upper lower : List Block}
  {block : Block}

/-- The length of the gap above a block: from its rounded end to the lowest header
above, or to the limit. -/
def gap (limit : Uint32) (upper : List Block) (block : Block) : Nat :=
  (floor limit upper).toNat - (alignUp block.brk).toNat

/-- The machine's subtraction gives the gap, a multiple of sixteen within memory. -/
theorem gap_toNat (holds : Holds allocator (upper ++ block :: lower)) :
    (floor allocator.limit upper - alignUp block.brk).toNat = gap allocator.limit upper block ∧
      gap allocator.limit upper block % 16 = 0 ∧ gap allocator.limit upper block < 0x1000000 := by
  obtain ⟨aligned, high, fits, small⟩ := gap_bounds holds
  have stacked := ((stacked_append _ _ _).mp holds.sound.stacked).1
  have ceiling := floor_aligned stacked holds.limitAligned
  have proper := (stacked_member holds.sound.stacked List.mem_append_cons_self).2.1
  unfold Aligned at aligned ceiling
  unfold gap
  refine ⟨?_, ?_, ?_⟩
  · bv_omega
  · omega
  · omega

/-- A part of the list is full when its gaps are shorter than the length. -/
theorem full_gaps {len : Uint32} (holds : Holds allocator (upper ++ lower)) :
    Full len allocator.limit upper ↔ ∀ front other back, upper = front ++ other :: back →
      gap allocator.limit front other < len.toNat := by
  have same {front back : List Block} {other : Block} (shape : upper = front ++ other :: back) :
      (floor allocator.limit front - alignUp other.brk).toNat = gap allocator.limit front other := by
    subst shape
    have whole : Holds allocator (front ++ other :: (back ++ lower)) := by simpa using holds
    exact (gap_toNat whole).1
  rw [full_iff]
  constructor
  · intro full front other back shape
    have short := full front other back shape
    rwa [BitVec.lt_def, same shape] at short
  · intro short front other back shape
    rw [BitVec.lt_def, same shape]
    exact short front other back shape

/-- The codes of a refusal: no room at all, or the longest block there is room for. -/
def Refusal (code : Int) : Prop :=
  code = svalue 0x82000000 ∨
    ∃ longest : Uint32, longest.toNat < 0x1000000 ∧ code = svalue (0x81000000 + longest)

/-- The report of a shortage is a refusal. -/
theorem refusal_shortage {longest : Uint32} (least : 0x10 ≤ longest)
    (bounded : longest.toNat ≤ 0x1000000) : Refusal (shortage longest) := by
  unfold shortage
  split
  · exact Or.inl rfl
  · exact Or.inr ⟨longest - 0x10, by bv_omega, rfl⟩

/-- The value of a number with its highest bit set is negative. -/
theorem svalue_neg {value : Uint32} (high : 0x80000000 ≤ value) : svalue value < 0 := by
  unfold svalue
  rw [BitVec.toInt_eq_toNat_cond]
  split
  · bv_omega
  · have bound := value.isLt
    omega

/-- A number below 2^31 is not negative as a signed one. -/
theorem svalue_nonneg {value : Uint32} (low : value < 0x80000000) : 0 ≤ svalue value := by
  unfold svalue
  rw [BitVec.toInt_eq_toNat_cond]
  split
  · omega
  · bv_omega

/-- A refusal is no pointer and no success. -/
theorem refusal_neg {code : Int} (refused : Refusal code) : code < 0 := by
  rcases refused with rfl | ⟨longest, bounded, rfl⟩
  · exact svalue_neg (by decide)
  · exact svalue_neg (by bv_omega)

/-- A pointer into memory is not negative. -/
theorem pointer_nonneg (holds : Holds allocator (upper ++ block :: lower)) :
    0 ≤ svalue (alignUp block.brk + 0x10) := by
  obtain ⟨-, -, fits, small⟩ := gap_bounds holds
  exact svalue_nonneg (by bv_omega)

/-- The widest gap of a held list is within memory. -/
theorem widest_holds (holds : Holds allocator blocks) :
    0x10 ≤ widest 0x10 allocator.limit blocks ∧
      (widest 0x10 allocator.limit blocks).toNat ≤ 0x1000000 := by
  have extent := Bus.size_le allocator.as
  have room := holds.room
  exact ⟨known_le_widest _ _ _, widest_bounded _ _ (by decide) (by omega) holds.limitAligned
    holds.sound.stacked⟩

/-- A new block stands at the start of the gap above a block, with room for a header
and the length. The other blocks keep their address, owner and end, and no byte
outside the headers changes. -/
def Placed (allocator after : Allocator M) (upper : List Block) (block : Block) (lower : List Block)
    (len parent : Uint32) (code : Int) : Prop :=
  ∃ added : Block, added.addr = alignUp block.brk ∧ added.parent = parent - 0x10 ∧
    added.brk.toNat = added.addr.toNat + 16 + len.toNat ∧ code = svalue (added.addr + 0x10) ∧
    Listed after (upper ++ added :: block :: lower) ∧
    Stacked allocator.limit.toNat (upper ++ added :: block :: lower) ∧
    Keeps (keys (upper ++ added :: block :: lower)) allocator after

/-- A request to `alloc` is answered as its length says: by a block in the highest gap
that holds the length and a header, or by a refusal that changes nothing if there is
no such gap. -/
def Answered (allocator : Allocator M) (blocks : List Block) (len parent : Uint32) : Prop :=
  ∃ code after, Returns (alloc len parent) allocator code after ∧
    ((∃ upper block lower, blocks = upper ++ block :: lower ∧
        len.toNat + 16 ≤ gap allocator.limit upper block ∧
        (∀ front other back, upper = front ++ other :: back →
          gap allocator.limit front other < len.toNat + 16) ∧
        Placed allocator after upper block lower len parent code) ∨
      ((∀ upper block lower, blocks = upper ++ block :: lower →
          gap allocator.limit upper block < len.toNat + 16) ∧
        Refusal code ∧ after = allocator))

/-- A length that does not wrap is answered. -/
theorem answered_short (holds : Holds allocator blocks) {len : Uint32} (parent : Uint32)
    (short : len.toNat < 0xfffffff0) : Answered allocator blocks len parent := by
  have whole : (len + 0x10).toNat = len.toNat + 16 := by bv_omega
  have spec := alloc_makes blocks len parent holds
  cases found : firstFit (len + 0x10) (parent - 0x10) allocator.limit blocks with
  | none =>
    rw [found] at spec
    obtain ⟨least, bounded⟩ := widest_holds holds
    refine ⟨_, allocator, spec, Or.inr ⟨?_, refusal_shortage least bounded, rfl⟩⟩
    have closed : Holds allocator (blocks ++ []) := by simpa using holds
    have gaps := (full_gaps closed).mp (firstFit_none.mp found)
    rwa [whole] at gaps
  | some result =>
    rw [found] at spec
    obtain ⟨added, rest⟩ := result
    obtain ⟨upper, block, lower, rfl, rfl, makes, full, room, rfl⟩ := spec
    obtain ⟨aligned, high, fits, small⟩ := gap_bounds holds
    obtain ⟨exact, -, -⟩ := gap_toNat holds
    have enough : len.toNat + 16 ≤ gap allocator.limit upper block := by
      rw [← exact, ← whole]
      exact room
    have ends : (alignUp block.brk + (len + 0x10)).toNat =
        (alignUp block.brk).toNat + 16 + len.toNat := by
      unfold gap at enough
      bv_omega
    have within : (alignUp block.brk + (len + 0x10)).toNat ≤
        (floor allocator.limit upper).toNat := by
      unfold gap at enough
      omega
    obtain ⟨after, made, shaped, kept⟩ := makeBlock_shaped holds
      ⟨alignUp block.brk, parent - 0x10, alignUp block.brk + (len + 0x10)⟩ (len + 0x10) aligned high
      (by simp only [ends]; omega) within rfl
    have gaps := (full_gaps holds).mp full
    rw [whole] at gaps
    exact ⟨_, after, (makes _ _).mpr ⟨rfl, made⟩, Or.inl ⟨upper, block, lower, rfl, enough, gaps,
      _, rfl, rfl, ends, rfl, shaped_listed shaped, kept.limit ▸ shaped.stacked, kept⟩⟩

/-- A length that wraps is answered only if nothing fits what it wraps to. -/
theorem answered_wrapped (holds : Holds allocator blocks) {len parent : Uint32}
    (long : 0xfffffff0 ≤ len.toNat) (answered : Answered allocator blocks len parent) :
    Full (len + 0x10) allocator.limit blocks := by
  obtain ⟨code, after, returned, ⟨upper, block, lower, rfl, enough, -⟩ | ⟨-, refused, -⟩⟩ := answered
  · have small := (gap_toNat holds).2.2
    omega
  · have spec := alloc_makes blocks len parent holds
    apply (@firstFit_none blocks (len + 0x10) (parent - 0x10) allocator.limit).mp
    cases found : firstFit (len + 0x10) (parent - 0x10) allocator.limit blocks with
    | none => rfl
    | some result =>
      rw [found] at spec
      obtain ⟨added, rest⟩ := result
      obtain ⟨upper, block, lower, rfl, rfl, makes, -, -, rfl⟩ := spec
      obtain ⟨rfl, -⟩ := (makes _ _).mp returned
      exact absurd (refusal_neg refused) (Int.not_lt.mpr (pointer_nonneg holds))

/-- A list has a gap. -/
theorem holds_block (holds : Holds allocator blocks) : ∃ block rest, blocks = block :: rest := by
  cases blocks with
  | nil => simpa using holds.sound.rootLast
  | cons block rest => exact ⟨block, rest, rfl⟩

/-- `alloc` answers a request as its length says exactly if the length does not wrap
when the header is added, or wraps to a length that no gap holds: to a positive one
while no block has a gap above it. A root at the null address is the end of the list, so
the walk comes to no block and every request is refused.

Proof: the gaps are multiples of sixteen, and what a length wraps to is below
sixteen. A wrapped length that fits is answered by a pointer. -/
theorem alloc_answered_iff (kept : Kept allocator blocks) (len parent : Uint32) :
    (allocator.rootBlock ≠ 0 →
      (Answered allocator blocks len parent ↔ len.toNat < 0xfffffff0 ∨
        len ≠ 0xfffffff0 ∧ ∀ upper block lower, blocks = upper ++ block :: lower →
          gap allocator.limit upper block = 0)) ∧
    (allocator.rootBlock = 0 →
      Returns (alloc len parent) allocator (svalue 0x82000000) allocator) := by
  refine ⟨fun rooted => ?_, fun null => alloc_inert (kept.inert null) len parent⟩
  have holds := kept_holds kept rooted
  have closed : Holds allocator (blocks ++ []) := by simpa using holds
  constructor
  · intro answered
    by_cases short : len.toNat < 0xfffffff0
    · exact Or.inl short
    · have gaps := (full_gaps closed).mp (answered_wrapped holds (by omega) answered)
      have little : (len + 0x10).toNat < 16 := by bv_omega
      refine Or.inr ⟨?_, ?_⟩
      · rintro rfl
        obtain ⟨block, rest, rfl⟩ := holds_block holds
        exact absurd (gaps [] block rest rfl) (Nat.not_lt_zero _)
      · rintro upper block lower rfl
        have less := gaps upper block lower rfl
        have multiple := (gap_toNat holds).2.1
        omega
  · rintro (short | ⟨positive, none⟩)
    · exact answered_short holds parent short
    · by_cases short : len.toNat < 0xfffffff0
      · exact answered_short holds parent short
      have some : 0 < (len + 0x10).toNat := by bv_omega
      have full : Full (len + 0x10) allocator.limit blocks := by
        apply (full_gaps closed).mpr
        intro upper block lower shape
        rw [none upper block lower shape]
        exact some
      have spec := alloc_makes blocks len parent holds
      rw [firstFit_none.mpr full] at spec
      obtain ⟨least, bounded⟩ := widest_holds holds
      refine ⟨_, allocator, spec, Or.inr ⟨?_, refusal_shortage least bounded, rfl⟩⟩
      intro upper block lower shape
      rw [none upper block lower shape]
      omega

/-- A header made in a gap that has room for it gets the end computed modulo 2^32. -/
theorem makeBlock_end (holds : Holds allocator (upper ++ block :: lower)) (len parent : Uint32)
    (fits : (alignUp block.brk).toNat + 16 ≤ (floor allocator.limit upper).toNat) :
    ∃ after, Returns (makeBlock (alignUp block.brk) len block.addr parent) allocator () after ∧
      field after (alignUp block.brk) 8 = alignUp block.brk + len := by
  obtain ⟨aligned, high, -, -⟩ := gap_bounds holds
  have lowest := floor_le ((stacked_append _ _ _).mp holds.sound.stacked).1
  have room := holds.room
  have proper := (stacked_member holds.sound.stacked List.mem_append_cons_self).2.1
  obtain ⟨blockInside, blockSome⟩ := holds_inside holds List.mem_append_cons_self
  have some : alignUp block.brk ≠ 0 := by
    intro null
    rw [null] at high
    bv_omega
  obtain ⟨after, made, -, views⟩ := makeBlock_views (views_self allocator) (alignUp block.brk) len
    block.addr parent ⟨aligned, by omega⟩ some blockInside blockSome
    (by rw [holds_above holds]; exact fun some => (upper_inside holds some).1)
  refine ⟨after, made, ?_⟩
  rw [views.ends _ aligned, setAt_true, if_pos rfl]

/-- A list of one block is split at that block only. -/
theorem single_split {one : Block} (shape : [one] = upper ++ block :: lower) :
    upper = [] ∧ block = one := by
  cases upper with
  | nil => exact ⟨rfl, (List.cons.inj shape).1.symm⟩
  | cons first rest => exact absurd (List.cons.inj shape).2 (by simp)

/-- A megabyte of memory from which 0x2000 bytes are requested for the root. -/
theorem alloc_answered_iff_megabyte : ∃ allocator : Allocator MainMemory.ByteMemory,
    Kept allocator [⟨0x8000, 0, 0x8010⟩] ∧ allocator.rootBlock ≠ 0 ∧
      Answered allocator [⟨0x8000, 0, 0x8010⟩] 0x2000 0x8010 := by
  obtain ⟨allocator, -, holds, -, -⟩ := megabyte_holds megabyte (Nat.le_refl _)
  have kept := holds_kept holds
  exact ⟨allocator, kept, holds.rootSome,
    ((alloc_answered_iff kept 0x2000 0x8010).1 holds.rootSome).mpr (Or.inl (by decide))⟩

/-- The customary question for the largest block, `alloc(0xffffffff)`, gets a block of
fifteen bytes at the first gap: less than its own header. -/
theorem largest_question_granted : ∃ allocator : Allocator MainMemory.ByteMemory,
    Reached allocator ∧ Kept allocator [⟨0x8000, 0, 0x8010⟩] ∧
      ¬ Answered allocator [⟨0x8000, 0, 0x8010⟩] 0xffffffff 0x8010 ∧
      ∃ after, Returns (alloc 0xffffffff 0x8010) allocator 0x8020 after ∧
        field after 0x8010 8 = 0x801f := by
  obtain ⟨allocator, reached, holds, limit, root⟩ := megabyte_holds megabyte (Nat.le_refl _)
  refine ⟨allocator, reached, holds_kept holds, ?_, ?_⟩
  · intro answered
    have full := answered_wrapped holds (by decide) answered
    rw [limit] at full
    exact absurd full.1 (by decide)
  · have spec := alloc_makes _ 0xffffffff 0x8010 holds
    have found : firstFit (0xffffffff + 0x10) (0x8010 - 0x10) allocator.limit
        [⟨0x8000, 0, 0x8010⟩] =
        some (⟨0x8010, 0x8000, 0x801f⟩, [⟨0x8010, 0x8000, 0x801f⟩, ⟨0x8000, 0, 0x8010⟩]) := by
      rw [limit]
      decide
    rw [found] at spec
    obtain ⟨upper, block, lower, shape, -, makes, -⟩ := spec
    obtain ⟨rfl, rfl⟩ := single_split shape
    have aligned : alignUp 0x8010 = 0x8010 := by decide
    have first : Holds allocator ([] ++ [⟨0x8000, 0, 0x8010⟩]) := holds
    have filled := makeBlock_end first (0xffffffff + 0x10) 0x8000
    simp only [aligned, floor_nil, limit] at filled
    obtain ⟨after, made, brk⟩ := filled (by decide)
    exact ⟨after, (makes 0x8020 after).mpr ⟨by decide, made⟩, brk.trans (by decide)⟩

/-- A length is the longest gap of a list. -/
def Longest (limit : Uint32) (blocks : List Block) (length : Nat) : Prop :=
  (∃ upper block lower, blocks = upper ++ block :: lower ∧ gap limit upper block = length) ∧
    ∀ upper block lower, blocks = upper ++ block :: lower → gap limit upper block ≤ length

/-- The running maximum of the walks ends at the longest gap above sixteen. -/
theorem widest_longest (holds : Holds allocator blocks) {length : Nat} (more : 16 < length)
    (longest : Longest allocator.limit blocks length) :
    (widest 0x10 allocator.limit blocks).toNat = length := by
  obtain ⟨⟨upper, block, lower, shape, exact⟩, most⟩ := longest
  have closed : Holds allocator (blocks ++ []) := by simpa using holds
  obtain ⟨least, bounded⟩ := widest_holds holds
  have known : length < 0x1000000 := by
    subst shape
    exact exact ▸ (gap_toNat holds).2.2
  apply Nat.le_antisymm
  · have exceeds : widest 0x10 allocator.limit blocks < BitVec.ofNat 32 (length + 1) := by
      rw [widest_lt]
      refine ⟨by bv_omega, (full_gaps closed).mpr ?_⟩
      intro front other back same
      have less := most front other back same
      bv_omega
    bv_omega
  · by_contra short
    have under : widest 0x10 allocator.limit blocks < BitVec.ofNat 32 length := by bv_omega
    have less := (full_gaps closed).mp (widest_lt.mp under).2 upper block lower shape
    bv_omega

/-- Without a gap above sixteen the running maximum stays where it starts. -/
theorem widest_none (holds : Holds allocator blocks)
    (none : ∀ upper block lower, blocks = upper ++ block :: lower →
      gap allocator.limit upper block ≤ 16) :
    widest 0x10 allocator.limit blocks = 0x10 := by
  have closed : Holds allocator (blocks ++ []) := by simpa using holds
  have least := (widest_holds holds).1
  have under : widest 0x10 allocator.limit blocks < 0x11 := by
    rw [widest_lt]
    refine ⟨by decide, (full_gaps closed).mpr ?_⟩
    intro front other back same
    have less := none front other back same
    bv_omega
  bv_omega

/-- A list tells where a new block was put into it. -/
theorem insert_position {front back : List Block} {added other : Block}
    (fresh : added ∉ upper ++ block :: lower)
    (same : upper ++ added :: block :: lower = front ++ added :: other :: back) :
    upper = front ∧ block = other ∧ lower = back := by
  have above : added ∉ upper := fun member => fresh (List.mem_append_left _ member)
  have below : added ∉ block :: lower := fun member => fresh (List.mem_append_right _ member)
  obtain ⟨first, -, rest⟩ := (List.append_cons_inj_of_notMem above below).mp same
  obtain ⟨second, third⟩ := List.cons.inj rest
  exact ⟨first, second, third⟩

/-- `alloc_largest` and `alloc` for the longest gap come down to making the same block
below the same neighbour. -/
theorem allocLargest_alloc (holds : Holds allocator blocks) (parent : Uint32) {length : Nat}
    (more : 16 < length) (longest : Longest allocator.limit blocks length) :
    ∃ upper block lower added, blocks = upper ++ block :: lower ∧
      floor allocator.limit upper - alignUp block.brk = BitVec.ofNat 32 length ∧
      added = ⟨alignUp block.brk, parent - 0x10, floor allocator.limit upper⟩ ∧
      Makes (allocLargest parent) allocator added (BitVec.ofNat 32 length) block.addr ∧
      Makes (alloc (BitVec.ofNat 32 (length - 16)) parent) allocator added
        (BitVec.ofNat 32 length) block.addr := by
  have width := widest_longest holds more longest
  obtain ⟨least, bounded⟩ := widest_holds holds
  have wide : widest 0x10 allocator.limit blocks = BitVec.ofNat 32 length := by bv_omega
  have header : BitVec.ofNat 32 (length - 16) + 0x10 = BitVec.ofNat 32 length := by bv_omega
  have filled := allocLargest_makes blocks parent holds
  have fitted := alloc_makes blocks (BitVec.ofNat 32 (length - 16)) parent holds
  have wider : widest 0x10 allocator.limit blocks ≠ 0x10 := by bv_omega
  rw [fillWidest_firstFit, if_neg wider, wide] at filled
  rw [header] at fitted
  cases found : firstFit (BitVec.ofNat 32 length) (parent - 0x10) allocator.limit blocks with
  | none => exact absurd found (wide ▸ firstFit_widest _ wider)
  | some result =>
    rw [found] at filled fitted
    obtain ⟨added, rest⟩ := result
    obtain ⟨upper, block, lower, rfl, same, fills, long, brk⟩ := filled
    obtain ⟨front, other, back, -, also, fits, -, -, shape⟩ := fitted
    obtain ⟨aligned, high, within, small⟩ := gap_bounds holds
    have stacked : Stacked allocator.limit.toNat (upper ++ added :: block :: lower) := by
      rw [brk]
      exact stacked_insert _ block holds.sound.stacked aligned high (by simp only; bv_omega)
        (Nat.le_refl _)
    have fresh : added ∉ upper ++ block :: lower :=
      fun member => stacked_alone stacked (mem_keys.mpr ⟨added, member, rfl⟩)
    obtain ⟨rfl, rfl, rfl⟩ := insert_position fresh (same.symm.trans also)
    have exact : floor allocator.limit upper - alignUp block.brk = BitVec.ofNat 32 length := by
      have ends : floor allocator.limit upper = alignUp block.brk + BitVec.ofNat 32 length := by
        rw [brk] at shape
        exact (Block.mk.inj shape).2.2
      rw [ends]
      bv_omega
    rw [exact] at fills
    exact ⟨upper, block, lower, added, rfl, exact, brk, fills, fits⟩

/-- `alloc_largest` is `alloc` for what the longest gap holds besides a header: the two
calls end in the same state with the same pointer, and the new block takes up all of
the gap. Without a gap above sixteen bytes `alloc_largest` refuses and changes nothing.
With a root at the null address, which is the end of the list, the walks come to no gap,
and `alloc_largest` and `alloc` refuse alike.

Proof: filling the widest gap is first fit for its width, so both calls come down to
the same `make_block`. -/
theorem allocLargest_agrees (kept : Kept allocator blocks) (parent : Uint32) :
    (allocator.rootBlock ≠ 0 → ∀ length, 16 < length → Longest allocator.limit blocks length →
      (∀ code after, Returns (allocLargest parent) allocator code after ↔
        Returns (alloc (BitVec.ofNat 32 (length - 16)) parent) allocator code after) ∧
      ∃ code after upper block lower, Returns (allocLargest parent) allocator code after ∧
        blocks = upper ++ block :: lower ∧ gap allocator.limit upper block = length ∧
        Placed allocator after upper block lower (BitVec.ofNat 32 (length - 16)) parent code ∧
        field after (alignUp block.brk) 8 = floor allocator.limit upper) ∧
    (allocator.rootBlock = 0 →
      Returns (allocLargest parent) allocator (svalue 0x82000000) allocator ∧
      ∀ len, Returns (alloc len parent) allocator (svalue 0x82000000) allocator) ∧
    ((∀ upper block lower, blocks = upper ++ block :: lower →
        gap allocator.limit upper block ≤ 16) →
      Returns (allocLargest parent) allocator (svalue 0x82000000) allocator) := by
  refine ⟨?_, fun null => ⟨allocLargest_inert (kept.inert null) parent,
    fun len => alloc_inert (kept.inert null) len parent⟩, ?_⟩
  · intro rooted length more longest
    have holds := kept_holds kept rooted
    obtain ⟨upper, block, lower, added, rfl, exact, rfl, fills, fits⟩ :=
      allocLargest_alloc holds parent more longest
    obtain ⟨aligned, high, within, small⟩ := gap_bounds holds
    obtain ⟨same, -, bounded⟩ := gap_toNat holds
    have known : length < 2 ^ 32 := by
      obtain ⟨⟨front, other, back, shape, rfl⟩, -⟩ := longest
      have := (gap_toNat (shape ▸ holds)).2.2
      omega
    have width : gap allocator.limit upper block = length := by
      rw [← same, exact, BitVec.toNat_ofNat, Nat.mod_eq_of_lt known]
    have room : (alignUp block.brk).toNat + 16 ≤ (floor allocator.limit upper).toNat := by
      unfold gap at width
      omega
    have ends : alignUp block.brk + BitVec.ofNat 32 length = floor allocator.limit upper := by
      rw [← exact, BitVec.add_comm, BitVec.sub_add_cancel]
    obtain ⟨after, made, shaped, frame⟩ := makeBlock_shaped holds
      ⟨alignUp block.brk, parent - 0x10, floor allocator.limit upper⟩ (BitVec.ofNat 32 length)
      aligned high room (Nat.le_refl _) ends
    have brk := shaped.ends ⟨alignUp block.brk, parent - 0x10, floor allocator.limit upper⟩ (by simp)
    have long : (floor allocator.limit upper).toNat =
        (alignUp block.brk).toNat + 16 + (BitVec.ofNat 32 (length - 16)).toNat := by
      unfold gap at width
      rw [BitVec.toNat_ofNat]
      omega
    have agree : ∀ code after, Returns (allocLargest parent) allocator code after ↔
        Returns (alloc (BitVec.ofNat 32 (length - 16)) parent) allocator code after :=
      fun code after => (fills code after).trans (fits code after).symm
    exact ⟨agree, _, after, upper, block, lower, (fills _ _).mpr ⟨rfl, made⟩, rfl, width,
      ⟨_, rfl, rfl, long, rfl, shaped_listed shaped, frame.limit ▸ shaped.stacked, frame⟩, brk⟩
  · intro none
    by_cases null : allocator.rootBlock = 0
    · exact allocLargest_inert (kept.inert null) parent
    have holds := kept_holds kept null
    have spec := allocLargest_makes blocks parent holds
    rwa [fillWidest_firstFit, if_pos (widest_none holds none)] at spec

/-- A megabyte of memory with one gap of 0xf7ff0 bytes. -/
theorem allocLargest_agrees_megabyte : ∃ allocator : Allocator MainMemory.ByteMemory,
    Kept allocator [⟨0x8000, 0, 0x8010⟩] ∧ ∀ code after,
      Returns (allocLargest 0x8010) allocator code after ↔
        Returns (alloc 0xf7fe0 0x8010) allocator code after := by
  obtain ⟨allocator, -, holds, limit, -⟩ := megabyte_holds megabyte (Nat.le_refl _)
  have kept := holds_kept holds
  have longest : Longest allocator.limit [⟨0x8000, 0, 0x8010⟩] 0xf7ff0 := by
    rw [limit]
    refine ⟨⟨[], _, [], rfl, by decide⟩, ?_⟩
    intro upper block lower shape
    obtain ⟨rfl, rfl⟩ := single_split shape
    decide
  exact ⟨allocator, kept,
    ((allocLargest_agrees kept 0x8010).1 holds.rootSome 0xf7ff0 (by decide) longest).1⟩

end Vx68k.Allocator
