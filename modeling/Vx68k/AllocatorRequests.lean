import Vx68k.AllocatorGaps

/-!
# Requests on live blocks

What `resize`, `free` and `free_by_parent` do for the block of a program, and what
the length in a refusal means. The source adds the pointer and the length modulo
2^32 and compares the sum with the room only from above, so an end that wraps below
the block is accepted. Reclamation is stated on the parent fields: a subtree goes,
and the rest of the list stays in its order.
-/

namespace Vx68k.Allocator

open Programs Forests

variable {M : Type} [Bus M] {allocator after : Allocator M} {blocks upper lower : List Block}
  {block : Block}

/-- A block that `alloc` makes lies above or below every block of the list, header and
end included, also when the length wraps.

Proof: in a gap below the block the length fits, and it is not zero, so a header fits
as well; and otherwise the new block starts at or above the end of the block. -/
theorem alloc_apart (kept : Kept allocator blocks) (member : block ∈ blocks) (len parent : Uint32)
    {code : Int} (returned : Returns (alloc len parent) allocator code after) (granted : 0 ≤ code) :
    ∃ addr : Uint32, code = svalue (addr + 0x10) ∧ (block.brk.toNat ≤ addr.toNat ∨
      addr.toNat + 16 ≤ block.addr.toNat ∧ (field after addr 8).toNat ≤ block.addr.toNat) := by
  by_cases null : allocator.rootBlock = 0
  · obtain ⟨rfl, -⟩ := returns_unique returned (alloc_inert (kept.inert null) len parent)
    exact absurd (refusal_neg (refusal_shortage (by decide) (by decide))) (Int.not_lt.mpr granted)
  have holds := kept_holds kept null
  have spec := alloc_makes blocks len parent holds
  cases found : firstFit (len + 0x10) (parent - 0x10) allocator.limit blocks with
  | none =>
    rw [found] at spec
    obtain ⟨rfl, -⟩ := returns_unique returned spec
    obtain ⟨least, bounded⟩ := widest_holds holds
    exact absurd (refusal_neg (refusal_shortage least bounded)) (Int.not_lt.mpr granted)
  | some result =>
    rw [found] at spec
    obtain ⟨added, rest⟩ := result
    obtain ⟨upper, below, lower, rfl, -, makes, full, room, rfl⟩ := spec
    obtain ⟨rfl, made⟩ := (makes _ _).mp returned
    refine ⟨alignUp below.brk, rfl, ?_⟩
    obtain ⟨aligned, high, fits, small⟩ := gap_bounds holds
    have sorted := List.pairwise_append.mp (stacked_sorted holds.sound.stacked)
    rcases List.mem_append.mp member with inUpper | inLower
    · right
      have lowest := floor_le_member ((stacked_append _ _ _).mp holds.sound.stacked).1 inUpper
      obtain ⟨exact, multiple, -⟩ := gap_toNat holds
      have longer : 0 < (len + 0x10).toNat := by
        obtain ⟨front, back, shape⟩ := List.append_of_mem inUpper
        have short := (full_gaps holds).mp full front block back shape
        omega
      have enough : (len + 0x10).toNat ≤ gap allocator.limit upper below := by
        rw [← exact]
        exact room
      unfold gap at enough multiple
      obtain ⟨other, again, brk⟩ := makeBlock_end holds (len + 0x10) (parent - 0x10) (by omega)
      obtain ⟨-, rfl⟩ := returns_unique made again
      rw [brk]
      constructor
      · omega
      · bv_omega
    · left
      rcases List.mem_cons.mp inLower with rfl | inLower
      · exact high
      · have order := (List.pairwise_cons.mp sorted.2.1).1 block inLower
        have proper := (stacked_member holds.sound.stacked List.mem_append_cons_self).2.1
        omega

/-- A resized block keeps out every later one: in any state of the list that still has
the block with this end, `alloc` makes no block over it. -/
def Protected (M : Type) [Bus M] (claimed : Block) : Prop :=
  ∀ (later last : Allocator M) (others : List Block) (len parent : Uint32) (code : Int),
    Kept later others → claimed ∈ others → Returns (alloc len parent) later code last → 0 ≤ code →
    ∃ addr : Uint32, code = svalue (addr + 0x10) ∧ (claimed.brk.toNat ≤ addr.toNat ∨
      addr.toNat + 16 ≤ claimed.addr.toNat ∧ (field last addr 8).toNat ≤ claimed.addr.toNat)

/-- A request to `resize` for a block is answered as its length says: the end moves to
the pointer plus the length, which stays below the next header or the limit and is kept
free by later allocations; or there is no such room, and a refusal changes nothing. -/
def Granted (allocator : Allocator M) (upper : List Block) (block : Block) (lower : List Block)
    (memptr newlen : Uint32) : Prop :=
  ∃ code after, Returns (resize memptr newlen) allocator code after ∧
    ((code = 0 ∧ memptr.toNat + newlen.toNat ≤ (floor allocator.limit upper).toNat ∧
        ∃ brk : Uint32, brk.toNat = memptr.toNat + newlen.toNat ∧
          Kept after (upper ++ { block with brk := brk } :: lower) ∧
          Keeps (keys (upper ++ block :: lower)) allocator after ∧
          Protected M { block with brk := brk }) ∨
      ((floor allocator.limit upper).toNat < memptr.toNat + newlen.toNat ∧ Refusal code ∧
        after = allocator))

/-- The pointer to a live block, as a number. -/
theorem pointer_toNat (holds : Holds allocator (upper ++ block :: lower)) {memptr : Uint32}
    (here : block.addr = memptr - 0x10) : memptr.toNat = block.addr.toNat + 16 := by
  have proper := (stacked_member holds.sound.stacked List.mem_append_cons_self).2
  have limit := allocator.limit.isLt
  bv_omega

/-- The room of a block, header included, is the room that `resize` reports. -/
theorem refusal_room (holds : Holds allocator (upper ++ block :: lower)) :
    Refusal (shortage (floor allocator.limit upper - block.addr)) := by
  have proper := (stacked_member holds.sound.stacked List.mem_append_cons_self).2.1
  obtain ⟨-, high, fits, small⟩ := gap_bounds holds
  exact refusal_shortage (by bv_omega) (by bv_omega)

/-- An end that wraps falls below the block's own data and is accepted. -/
theorem resize_wrapped (holds : Holds allocator (upper ++ block :: lower)) {memptr newlen : Uint32}
    (here : block.addr = memptr - 0x10) (wraps : 2 ^ 32 ≤ memptr.toNat + newlen.toNat) :
    ∃ after, Returns (resize memptr newlen) allocator 0 after ∧
      field after block.addr 8 = memptr + newlen := by
  have stores := resize_stores memptr newlen holds here
  have place := pointer_toNat holds here
  have proper := (stacked_member holds.sound.stacked List.mem_append_cons_self).2.1
  obtain ⟨-, high, fits, small⟩ := gap_bounds holds
  obtain ⟨inside, -⟩ := holds_inside holds List.mem_append_cons_self
  have accepted : ¬ floor allocator.limit upper < memptr + newlen := by bv_omega
  rw [if_neg accepted] at stores
  obtain ⟨after, stored, effect⟩ := store_returns allocator block.addr 8 (memptr + newlen) inside
    offset_eight
  refine ⟨after, stores after stored, ?_⟩
  rw [effect.field _ _ inside.1 offset_eight, if_pos ⟨rfl, rfl⟩]

/-- `resize` of a live block answers a request as its length says exactly if the end of
the block does not wrap; `resize` of anything else changes nothing. With a root at the
null address, which is the end of the list, the walk comes to no block.

Proof: an end that wraps passes the comparison with the room, so the call succeeds
for a length that no room holds. -/
theorem resize_granted_iff (kept : Kept allocator blocks) (memptr newlen : Uint32) :
    (allocator.rootBlock ≠ 0 → ∀ upper block lower, blocks = upper ++ block :: lower →
      block.addr = memptr - 0x10 →
      (Granted allocator upper block lower memptr newlen ↔
        memptr.toNat + newlen.toNat < 2 ^ 32)) ∧
    (allocator.rootBlock = 0 ∨ memptr - 0x10 ∉ keys blocks →
      Returns (resize memptr newlen) allocator (-9) allocator) := by
  constructor
  · rintro rooted upper block lower rfl here
    have holds := kept_holds kept rooted
    obtain ⟨-, high, fits, small⟩ := gap_bounds holds
    have place := pointer_toNat holds here
    constructor
    · rintro ⟨code, after, returned, answer⟩
      by_contra long
      obtain ⟨other, wrapped, -⟩ := resize_wrapped holds here (Nat.not_lt.mp long)
      obtain ⟨rfl, -⟩ := returns_unique returned wrapped
      rcases answer with ⟨-, within, -⟩ | ⟨-, refused, -⟩
      · omega
      · exact absurd (refusal_neg refused) (by decide)
    · intro whole
      have ends : (memptr + newlen).toNat = memptr.toNat + newlen.toNat := by bv_omega
      have spec := resize_spec memptr newlen whole holds here
      by_cases short : floor allocator.limit upper < memptr + newlen
      · rw [if_pos short] at spec
        refine ⟨_, allocator, spec, Or.inr ⟨?_, refusal_room holds, rfl⟩⟩
        rw [← ends]
        exact short
      · rw [if_neg short] at spec
        obtain ⟨after, returned, held, frame⟩ := spec
        refine ⟨0, after, returned, Or.inl ⟨rfl, ?_, memptr + newlen, ends, holds_kept held, frame, ?_⟩⟩
        · rw [← ends]
          exact Nat.not_lt.mp short
        · intro later last others len parent code laterKept member made granted
          exact alloc_apart laterKept member len parent made granted
  · intro absent
    by_cases null : allocator.rootBlock = 0
    · exact resize_inert (kept.inert null) memptr newlen
    · exact resize_missing blocks memptr newlen (kept_holds kept null) (absent.resolve_left null)

/-- The root block of a megabyte is resized by 0x1000 bytes. -/
theorem resize_granted_iff_megabyte : ∃ allocator : Allocator MainMemory.ByteMemory,
    Kept allocator [⟨0x8000, 0, 0x8010⟩] ∧
      Granted allocator [] ⟨0x8000, 0, 0x8010⟩ [] 0x8010 0x1000 := by
  obtain ⟨allocator, -, holds, -, -⟩ := megabyte_holds megabyte (Nat.le_refl _)
  have kept := holds_kept holds
  have iff := (resize_granted_iff kept 0x8010 0x1000).1 holds.rootSome [] _ [] rfl (by decide)
  exact ⟨allocator, kept, iff.mpr (by decide)⟩

/-- A block of 0x2000 bytes that asks for 0xffffffff bytes is told it has them; its end
is now fifteen bytes into its own header. -/
theorem longest_resize_granted : ∃ allocator : Allocator MainMemory.ByteMemory,
    Reached allocator ∧ Kept allocator [⟨0x8010, 0x8000, 0xa020⟩, ⟨0x8000, 0, 0x8010⟩] ∧
      ¬ Granted allocator [] ⟨0x8010, 0x8000, 0xa020⟩ [⟨0x8000, 0, 0x8010⟩] 0x8020 0xffffffff ∧
      ∃ after, Returns (resize 0x8020 0xffffffff) allocator 0 after ∧
        field after 0x8010 8 = 0x801f := by
  obtain ⟨allocator, later, held⟩ := megabyte_allocated
  have first : Holds allocator ([] ++ ⟨0x8010, 0x8000, 0xa020⟩ :: [⟨0x8000, 0, 0x8010⟩]) := held
  obtain ⟨after, wrapped, brk⟩ := resize_wrapped first (by decide : (0x8010 : Uint32) = 0x8020 - 0x10)
    (by decide : 2 ^ 32 ≤ (0x8020 : Uint32).toNat + (0xffffffff : Uint32).toNat)
  refine ⟨allocator, later, holds_kept held, ?_, after, wrapped, brk.trans (by decide)⟩
  rintro ⟨code, last, answered, ⟨-, within, -⟩ | ⟨-, refused, -⟩⟩
  · have small := (gap_bounds first).2.2.2
    have size : (0x8020 : Uint32).toNat + (0xffffffff : Uint32).toNat = 0x10000801f := by decide
    omega
  · obtain ⟨rfl, -⟩ := returns_unique answered wrapped
    exact absurd (refusal_neg refused) (by decide)

/-- A shortage tells the length it reports. -/
theorem shortage_length {longest length : Uint32} (bounded : longest.toNat ≤ 0x1000000)
    (least : 0x10 ≤ longest) (short : length.toNat < 0x1000000)
    (same : shortage longest = svalue (0x81000000 + length)) :
    longest.toNat = length.toNat + 16 ∧ longest ≠ 0x10 := by
  unfold shortage at same
  split at same
  · have equal : (0x82000000 : Uint32) = 0x81000000 + length := BitVec.eq_of_toInt_eq same
    bv_omega
  · rename_i longer
    have equal : 0x81000000 + (longest - 0x10) = 0x81000000 + length := BitVec.eq_of_toInt_eq same
    exact ⟨by bv_omega, longer⟩

/-- A shortage that reports no length is for sixteen bytes. -/
theorem shortage_none {longest : Uint32} (bounded : longest.toNat ≤ 0x1000000)
    (least : 0x10 ≤ longest) (same : shortage longest = svalue 0x82000000) : longest = 0x10 := by
  by_contra longer
  rw [shortage, if_neg longer] at same
  have equal : 0x81000000 + (longest - 0x10) = 0x82000000 := BitVec.eq_of_toInt_eq same
  bv_omega

/-- A refused `alloc` reports the widest gap of the list. -/
theorem refused_widest (holds : Holds allocator blocks) {len parent : Uint32} {code : Int}
    (returned : Returns (alloc len parent) allocator code after) (refused : code < 0) :
    code = shortage (widest 0x10 allocator.limit blocks) := by
  have spec := alloc_makes blocks len parent holds
  cases found : firstFit (len + 0x10) (parent - 0x10) allocator.limit blocks with
  | none =>
    rw [found] at spec
    exact (returns_unique returned spec).1
  | some result =>
    rw [found] at spec
    obtain ⟨added, rest⟩ := result
    obtain ⟨upper, block, lower, rfl, -, makes, -, -, rfl⟩ := spec
    obtain ⟨rfl, -⟩ := (makes _ _).mp returned
    exact absurd refused (Int.not_lt.mpr (pointer_nonneg holds))

/-- A length beyond the widest gap is refused. -/
theorem alloc_refuses (holds : Holds allocator blocks) (len parent : Uint32)
    (long : widest 0x10 allocator.limit blocks < len + 0x10) :
    Returns (alloc len parent) allocator (shortage (widest 0x10 allocator.limit blocks))
      allocator := by
  have spec := alloc_makes blocks len parent holds
  rwa [firstFit_none.mpr (widest_lt.mp long).2] at spec

/-- The length that `alloc` reports is granted, and no longer one is. -/
theorem alloc_refusal_exact (holds : Holds allocator blocks) {len parent longest : Uint32}
    (short : longest.toNat ≤ 0xffffff)
    (returned : Returns (alloc len parent) allocator (svalue (0x81000000 + longest)) after) :
    (∃ code last upper block lower, blocks = upper ++ block :: lower ∧
      Returns (alloc longest parent) allocator code last ∧
      Placed allocator last upper block lower longest parent code) ∧
    ∀ len : Uint32, longest < len → len.toNat ≤ 0xffffff →
      Returns (alloc len parent) allocator (svalue (0x81000000 + longest)) allocator := by
  obtain ⟨least, bounded⟩ := widest_holds holds
  have report := refused_widest holds returned (svalue_neg (by bv_omega))
  obtain ⟨width, more⟩ := shortage_length bounded least (by omega) report.symm
  constructor
  · obtain ⟨code, last, granted, ⟨upper, block, lower, shape, -, -, placed⟩ | ⟨none, -, -⟩⟩ :=
      answered_short holds parent (by omega : longest.toNat < 0xfffffff0)
    · exact ⟨code, last, upper, block, lower, shape, granted, placed⟩
    · have closed : Holds allocator (blocks ++ []) := by simpa using holds
      have full : Full (widest 0x10 allocator.limit blocks) allocator.limit blocks :=
        (full_gaps closed).mpr (by rwa [width])
      exact absurd (firstFit_none.mpr full) (firstFit_widest parent more)
  · intro len longer limit
    rw [report]
    exact alloc_refuses holds len parent (by bv_omega)

/-- Where `alloc` reports no length, none is granted. -/
theorem alloc_refusal_none (holds : Holds allocator blocks) {len parent : Uint32}
    (returned : Returns (alloc len parent) allocator (svalue 0x82000000) after) :
    ∀ len : Uint32, 0 < len → len.toNat ≤ 0xffffff →
      Returns (alloc len parent) allocator (svalue 0x82000000) allocator := by
  intro len some limit
  obtain ⟨least, bounded⟩ := widest_holds holds
  have report := refused_widest holds returned (svalue_neg (by decide))
  have width := shortage_none bounded least report.symm
  rw [report]
  exact alloc_refuses holds len parent (by bv_omega)

/-- The length that `resize` reports is granted, and no longer one is. -/
theorem resize_refusal_exact (holds : Holds allocator (upper ++ block :: lower))
    {memptr newlen longest : Uint32} (here : block.addr = memptr - 0x10)
    (short : longest.toNat ≤ 0xffffff)
    (returned : Returns (resize memptr newlen) allocator (svalue (0x81000000 + longest)) after) :
    (∃ last, Returns (resize memptr longest) allocator 0 last) ∧
    ∀ newlen : Uint32, longest < newlen → newlen.toNat ≤ 0xffffff →
      Returns (resize memptr newlen) allocator (svalue (0x81000000 + longest)) allocator := by
  obtain ⟨-, high, fits, small⟩ := gap_bounds holds
  have proper := (stacked_member holds.sound.stacked List.mem_append_cons_self).2.1
  have place := pointer_toNat holds here
  have spec := resize_stores memptr newlen holds here
  by_cases exceeds : floor allocator.limit upper < memptr + newlen
  · rw [if_pos exceeds] at spec
    obtain ⟨report, -⟩ := returns_unique returned spec
    obtain ⟨width, -⟩ := shortage_length (by bv_omega) (by bv_omega) (by omega) report.symm
    constructor
    · have granted := resize_spec memptr longest (by omega) holds here
      rw [if_neg (by bv_omega)] at granted
      obtain ⟨last, granted, -⟩ := granted
      exact ⟨last, granted⟩
    · intro newlen longer limit
      have refused := resize_spec memptr newlen (by omega) holds here
      rw [if_pos (by bv_omega)] at refused
      rwa [report]
  · rw [if_neg exceeds] at spec
    obtain ⟨inside, -⟩ := holds_inside holds List.mem_append_cons_self
    obtain ⟨other, stored, -⟩ := store_returns allocator block.addr 8 (memptr + newlen) inside
      offset_eight
    obtain ⟨same, -⟩ := returns_unique returned (spec other stored)
    have negative := @svalue_neg (0x81000000 + longest) (by bv_omega)
    omega

/-- The length that a refused request reports is exactly the longest that works: asked
for from the same state, it is granted, and every longer one up to 0xffffff bytes is
refused with the same code. Where `alloc` reports no length, none works.

Proof: `alloc` reports the widest gap whatever the length was, and its test for a gap
is the test for the widest one; `resize` reports the room that it compares with. -/
theorem refusal_exact (kept : Kept allocator blocks) :
    (∀ len parent longest after, len.toNat ≤ 0xffffff → longest.toNat ≤ 0xffffff →
      Returns (alloc len parent) allocator (svalue (0x81000000 + longest)) after →
      (∃ code last upper block lower, blocks = upper ++ block :: lower ∧
        Returns (alloc longest parent) allocator code last ∧
        Placed allocator last upper block lower longest parent code) ∧
      ∀ len : Uint32, longest < len → len.toNat ≤ 0xffffff →
        Returns (alloc len parent) allocator (svalue (0x81000000 + longest)) allocator) ∧
    (∀ len parent after, len.toNat ≤ 0xffffff →
      Returns (alloc len parent) allocator (svalue 0x82000000) after →
      ∀ len : Uint32, 0 < len → len.toNat ≤ 0xffffff →
        Returns (alloc len parent) allocator (svalue 0x82000000) allocator) ∧
    (∀ memptr newlen longest after, memptr - 0x10 ∈ keys blocks → newlen.toNat ≤ 0xffffff →
      longest.toNat ≤ 0xffffff →
      Returns (resize memptr newlen) allocator (svalue (0x81000000 + longest)) after →
      (∃ last, Returns (resize memptr longest) allocator 0 last) ∧
      ∀ newlen : Uint32, longest < newlen → newlen.toNat ≤ 0xffffff →
        Returns (resize memptr newlen) allocator (svalue (0x81000000 + longest)) allocator) := by
  by_cases null : allocator.rootBlock = 0
  · have empty := kept.inert null
    refine ⟨fun len parent longest after _ short returned => ?_, fun _ parent _ _ _ len _ _ =>
      alloc_inert empty len parent, fun memptr newlen longest after _ _ short returned => ?_⟩
    · obtain ⟨same, -⟩ := returns_unique returned (alloc_inert empty len parent)
      have equal : 0x81000000 + longest = 0x82000000 := BitVec.eq_of_toInt_eq same
      bv_omega
    · obtain ⟨same, -⟩ := returns_unique returned (resize_inert empty memptr newlen)
      have equal : 0x81000000 + longest = 0xfffffff7 := BitVec.eq_of_toInt_eq same
      bv_omega
  have holds := kept_holds kept null
  refine ⟨?_, ?_, ?_⟩
  · intro len parent longest after _ short returned
    exact alloc_refusal_exact holds short returned
  · intro len parent after _ returned
    exact alloc_refusal_none holds returned
  · intro memptr newlen longest after live _ short returned
    obtain ⟨block, member, here⟩ := mem_keys.mp live
    obtain ⟨upper, lower, rfl⟩ := List.append_of_mem member
    exact resize_refusal_exact holds here short returned

/-- In a megabyte with one gap of 0xf7ff0 bytes, 0xffffff bytes are refused and the
reported length is granted. -/
theorem refusal_exact_megabyte : ∃ allocator : Allocator MainMemory.ByteMemory,
    Kept allocator [⟨0x8000, 0, 0x8010⟩] ∧
      Returns (alloc 0xffffff 0x8010) allocator (svalue (0x81000000 + 0xf7fe0)) allocator ∧
      ∃ code last upper block lower, [⟨0x8000, 0, 0x8010⟩] = upper ++ block :: lower ∧
        Returns (alloc 0xf7fe0 0x8010) allocator code last ∧
        Placed allocator last upper block lower 0xf7fe0 0x8010 code := by
  obtain ⟨allocator, -, holds, limit, -⟩ := megabyte_holds megabyte (Nat.le_refl _)
  have kept := holds_kept holds
  have width : widest 0x10 allocator.limit [⟨0x8000, 0, 0x8010⟩] = 0xf7ff0 := by
    rw [limit]
    decide
  have refused := alloc_refuses holds 0xffffff 0x8010 (by rw [width]; decide)
  rw [width] at refused
  exact ⟨allocator, kept, refused, ((refusal_exact kept).1 0xffffff 0x8010 0xf7fe0
    allocator (by decide) (by decide) refused).1⟩

/-- Blocks are reclaimed from a list: those at the addresses meant, and no others. The
rest keep their address, owner, end and order, the last block is the highest of
them, and no byte outside the headers changes. -/
def Reclaims (allocator after : Allocator M) (blocks : List Block) (gone : Uint32 → Prop) : Prop :=
  ∃ others, Kept after others ∧ others.Sublist blocks ∧
    (∀ block ∈ blocks, block ∈ others ↔ ¬ gone block.addr) ∧
    after.lastBlock ∈ keys others ∧
    (∀ other ∈ others, other.addr.toNat ≤ after.lastBlock.toNat) ∧
    Keeps (keys blocks) allocator after

/-- The last block of a list is its highest. -/
theorem lastBlock_highest (holds : Holds allocator blocks) : allocator.lastBlock ∈ keys blocks ∧
    ∀ other ∈ blocks, other.addr.toNat ≤ allocator.lastBlock.toNat := by
  obtain ⟨block, rest, rfl⟩ := holds_block holds
  rw [holds_lastBlock holds, top_cons]
  constructor
  · simp
  · intro other member
    rcases List.mem_cons.mp member with rfl | inRest
    · exact Nat.le_refl _
    · have order := (List.pairwise_cons.mp (stacked_sorted holds.sound.stacked)).1 other inRest
      have proper := (stacked_member holds.sound.stacked member).2.1
      omega

/-- A list that a call leaves out of a held one is what it reclaims. -/
theorem reclaims_filter {gone : Uint32 → Prop} (keep : Block → Bool)
    (held : Holds after (blocks.filter keep)) (frame : Keeps (keys blocks) allocator after)
    (meaning : ∀ block, keep block = true ↔ ¬ gone block.addr) :
    Reclaims allocator after blocks gone := by
  obtain ⟨last, highest⟩ := lastBlock_highest held
  refine ⟨_, holds_kept held, List.filter_sublist, ?_, last, highest, frame⟩
  intro block member
  rw [List.mem_filter, meaning block]
  exact ⟨fun kept => kept.2, fun kept => ⟨member, kept⟩⟩

/-- With the root at the null address the headers are those of the root alone. -/
theorem null_root (kept : Kept allocator blocks) (null : allocator.rootBlock = 0) :
    ∃ only : Block, only.addr = 0 ∧ blocks = [only] := by
  have last := kept.listed.last
  have root := kept.listed.root
  rw [kept.inert null] at last
  rw [null] at root
  cases blocks with
  | nil => cases last
  | cons only rest =>
    have here : only.addr = 0 := Option.some.inj last
    refine ⟨only, here, congrArg (only :: ·) ?_⟩
    by_contra more
    have lowest : (keys rest).getLast? = some 0 := by
      obtain ⟨next, others, rfl⟩ := List.exists_cons_of_ne_nil more
      simpa [keys] using root
    exact (List.nodup_cons.mp (stacked_distinct kept.sound.stacked)).1
      (here ▸ List.mem_of_getLast? lowest)

/-- Nothing descends from anything in it, so nothing is reclaimed. -/
theorem reclaims_root {only : Block} (kept : Kept allocator [only]) (null : allocator.rootBlock = 0)
    (here : only.addr = 0) (parent : Uint32) :
    Reclaims allocator allocator [only] (Descends (Owns allocator.rootBlock [only]) · parent) := by
  have lastBlock := kept.inert null
  refine ⟨[only], kept, List.Sublist.refl _, fun block member => iff_of_true member ?_, ?_, ?_,
    keeps_refl _ _⟩
  · intro descends
    obtain ⟨owner, ⟨child, inside, notRoot, -⟩, -⟩ := Relation.TransGen.head'_iff.mp descends
    rw [List.mem_singleton.mp inside, null] at notRoot
    exact notRoot here
  · simp [keys, lastBlock, here]
  · intro other member
    rw [List.mem_singleton.mp member, here, lastBlock]

/-- `free` of a live block other than the root returns zero and reclaims exactly the
block and what descends from it by the parent fields; `free_by_parent` of a live block
reclaims exactly what descends from it; `free` of anything else changes nothing.

Proof: what the calls leave is the list filtered by descent. -/
theorem free_exact (kept : Kept allocator blocks) (memptr : Uint32) :
    (memptr - 0x10 ∈ keys blocks → memptr ≠ allocator.root →
      ∃ after, Returns (free memptr) allocator 0 after ∧
        Reclaims allocator after blocks (Within allocator.rootBlock blocks (memptr - 0x10))) ∧
    (memptr - 0x10 ∈ keys blocks →
      ∃ after, Returns (freeByParent memptr) allocator () after ∧
        Reclaims allocator after blocks
          (Descends (Owns allocator.rootBlock blocks) · (memptr - 0x10))) ∧
    (memptr - 0x10 ∉ keys blocks → Returns (free memptr) allocator (-9) allocator) := by
  classical
  by_cases null : allocator.rootBlock = 0
  · obtain ⟨only, here, rfl⟩ := null_root kept null
    have empty := kept.inert null
    refine ⟨fun live notRoot => absurd ?_ notRoot, fun _ => ⟨allocator, freeByParent_inert empty memptr,
      reclaims_root kept null here _⟩, fun _ => free_inert empty memptr⟩
    have same : memptr - 0x10 = only.addr := by simpa [keys] using live
    rw [root, null, ← here, ← same, BitVec.sub_add_cancel]
  have holds := kept_holds kept null
  refine ⟨?_, ?_, free_missing blocks memptr holds⟩
  · intro live notRoot
    obtain ⟨block, member, here⟩ := mem_keys.mp live
    obtain ⟨upper, lower, rfl⟩ := List.append_of_mem member
    have other : block.addr ≠ allocator.rootBlock := by
      intro isRoot
      apply notRoot
      rw [root, ← isRoot, here, BitVec.sub_add_cancel]
    obtain ⟨after, returned, held, frame⟩ := free_spec memptr holds here other
    refine ⟨after, returned, reclaims_filter _ held frame fun block => ?_⟩
    simp [Within, here]
  · intro live
    obtain ⟨after, returned, held, frame⟩ := freeByParent_spec blocks memptr holds live
    refine ⟨after, returned, reclaims_filter _ held frame fun block => ?_⟩
    simp

/-- A block of a megabyte is freed and the root is left. -/
theorem free_exact_megabyte : ∃ allocator : Allocator MainMemory.ByteMemory,
    Kept allocator [⟨0x8010, 0x8000, 0xa020⟩, ⟨0x8000, 0, 0x8010⟩] ∧
      ∃ after, Returns (free 0x8020) allocator 0 after ∧
        Reclaims allocator after [⟨0x8010, 0x8000, 0xa020⟩, ⟨0x8000, 0, 0x8010⟩]
          (Within allocator.rootBlock [⟨0x8010, 0x8000, 0xa020⟩, ⟨0x8000, 0, 0x8010⟩]
            (0x8020 - 0x10)) := by
  obtain ⟨made, -, holds, limit, root⟩ := megabyte_holds megabyte (Nat.le_refl _)
  obtain ⟨allocator, returned, held, -⟩ := megabyte_alloc holds limit
  have kept := holds_kept held
  have lowest : allocator.rootBlock = 0x8000 := by
    have last := held.sound.rootLast
    simpa [keys] using last.symm
  exact ⟨allocator, kept, (free_exact kept 0x8020).1 (by decide)
    (by rw [Allocator.root, lowest]; decide)⟩

end Vx68k.Allocator
