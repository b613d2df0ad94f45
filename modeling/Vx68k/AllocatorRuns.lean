import Vx68k.AllocatorCalls

/-!
# Runs of the allocator

A run starts with the constructor and goes on with calls in any order and with
steps of other code, which may change any byte outside the headers of live blocks.
In every state of a run the headers form a sound list, every admissible call
returns, and it changes no byte outside the headers of blocks that are live before
or after it.

An allocator whose root block is at the null address can allocate nothing, since
its walks end before the first block. It keeps the invariant as it is.
-/

namespace Vx68k.Allocator

open Programs ByteStores LinkedLists Forests

variable {M : Type} [Bus M] {allocator after : Allocator M} {blocks : List Block}

/-- The headers form one doubly linked list from the last block to the root block:
the links are each other's inverse and null at the ends, and the other two fields
are the owners and the ends. -/
structure Listed (allocator : Allocator M) (blocks : List Block) : Prop where
  linked : Linked (field allocator · 0) (field allocator · 12) (keys blocks)
  last : (keys blocks).head? = some allocator.lastBlock
  root : (keys blocks).getLast? = some allocator.rootBlock
  noneAbove : field allocator allocator.lastBlock 12 = 0
  noneBelow : field allocator allocator.rootBlock 0 = 0
  owners : ∀ block ∈ blocks, field allocator block.addr 4 = block.parent
  ends : ∀ block ∈ blocks, field allocator block.addr 8 = block.brk

/-- The state of an allocator: a sound list below an aligned limit within memory.
With the root block at the null address there is no last block to start from. -/
structure Kept (allocator : Allocator M) (blocks : List Block) : Prop where
  room : allocator.limit.toNat ≤ Bus.size allocator.as
  limitAligned : Aligned allocator.limit
  listed : Listed allocator blocks
  sound : Sound allocator.limit allocator.rootBlock blocks
  inert : allocator.rootBlock = 0 → allocator.lastBlock = 0

/-- A list that closes into a ring at the null address is a list with null ends. -/
theorem shaped_listed (shaped : Shaped allocator blocks) : Listed allocator blocks := by
  have nonzero : ∀ key ∈ keys blocks, key ≠ 0 := fun key member => shaped_some shaped member
  have inner : Linked allocator.below allocator.above (keys blocks) :=
    (List.IsChain.tail shaped.ring).left_of_append
  obtain ⟨block, rest, rfl⟩ : ∃ block rest, blocks = block :: rest := by
    cases blocks with
    | nil => simpa using shaped.rootLast
    | cons block rest => exact ⟨block, rest, rfl⟩
  obtain ⟨front, lowest, same⟩ := (List.eq_nil_or_concat' (block :: rest)).resolve_left (by simp)
  have last := ring_first 0 (keys (block :: rest)) shaped.ring
  have root : lowest.addr = allocator.rootBlock := by
    have found := shaped.rootLast
    rw [same] at found
    simpa [keys] using found
  have none := ring_up 0 block.addr [] (keys rest) shaped.ring
  have under := ring_down 0 lowest.addr (keys front) [] (by
    have ring := shaped.ring
    rw [same, keys_append] at ring
    exact ring)
  rw [below, if_pos rfl] at last
  rw [above, if_neg (nonzero _ (by simp))] at none
  rw [root, below, if_neg shaped.rootSome] at under
  have last : allocator.lastBlock = block.addr := last
  refine ⟨?_, by simp [last], shaped.rootLast, last ▸ none, under, shaped.owners, shaped.ends⟩
  apply linked_congr _ inner
  · intro key member
    rw [below, if_neg (nonzero key (List.mem_of_mem_dropLast member))]
  · intro key member
    rw [above, if_neg (nonzero key (List.mem_of_mem_tail member))]

/-- A list that is held is kept. -/
theorem holds_kept (holds : Holds allocator blocks) : Kept allocator blocks :=
  ⟨holds.room, holds.limitAligned, shaped_listed (holds_shaped holds), holds.sound,
    fun null => absurd null holds.rootSome⟩

/-- A list that is kept is held, unless the root is at the null address. -/
theorem kept_holds (kept : Kept allocator blocks) (some : allocator.rootBlock ≠ 0) :
    Holds allocator blocks := by
  refine ⟨kept.room, kept.limitAligned, some, kept.sound, ?_, kept.listed.owners, kept.listed.ends⟩
  have nonzero : ∀ key ∈ keys blocks, key ≠ 0 := by
    rintro key member rfl
    obtain ⟨block, inside, null⟩ := mem_keys.mp member
    have lowest := root_lowest kept.sound inside
    rw [null] at lowest
    bv_omega
  have inner : Linked allocator.below allocator.above (keys blocks) := by
    apply linked_congr _ kept.listed.linked
    · intro key member
      rw [below, if_neg (nonzero key (List.mem_of_mem_dropLast member))]
    · intro key member
      rw [above, if_neg (nonzero key (List.mem_of_mem_tail member))]
  refine List.isChain_cons.mpr ⟨?_, List.isChain_append.mpr ⟨inner, List.isChain_singleton 0, ?_⟩⟩
  · intro key first
    have last := kept.listed.last
    cases found : keys blocks with
    | nil => simp [found] at last
    | cons head rest =>
      rw [found] at last first nonzero
      obtain rfl : head = allocator.lastBlock := by simpa using last
      obtain rfl : allocator.lastBlock = key := by simpa using first
      exact ⟨if_pos rfl, (if_neg (nonzero _ (by simp))).trans kept.listed.noneAbove⟩
  · intro key final other isNull
    obtain rfl : 0 = other := by simpa using isNull
    obtain rfl : allocator.rootBlock = key := by
      have root := kept.listed.root
      rw [Option.mem_def.mp final] at root
      exact (Option.some.inj root).symm
    exact ⟨(if_neg some).trans kept.listed.noneBelow, if_pos rfl⟩

/-- The list of a state is determined by the memory. -/
theorem kept_unique {others : List Block} (one : Kept allocator blocks)
    (other : Kept allocator others) : blocks = others := by
  have same : keys blocks = keys others := linked_unique _ _ one.listed.linked other.listed.linked
    (stacked_distinct one.sound.stacked) (stacked_distinct other.sound.stacked)
    (one.listed.last.trans other.listed.last.symm) (one.listed.root.trans other.listed.root.symm)
  have determined (list : List Block) (kept : Kept allocator list) : list =
      (keys list).map fun key => ⟨key, field allocator key 4, field allocator key 8⟩ := by
    rw [keys, List.map_map]
    refine (List.map_id list).symm.trans (List.map_congr_left fun block member => ?_)
    rw [Function.comp_apply, kept.listed.owners block member, kept.listed.ends block member]
    rfl
  rw [determined blocks one, determined others other, same]

/-- The list that the constructor leaves: the root block alone, without room. -/
def rootList (address : Uint32) : List Block :=
  [⟨alignUp address, 0, alignUp address + 0x10⟩]

/-- The root block alone is sound when its header fits below the limit. -/
theorem rootList_sound (address lim : Uint32)
    (fits : (alignUp address).toNat + 0x10 ≤ (alignDown lim).toNat) :
    Sound (alignDown lim) (alignUp address) (rootList address) := by
  have aligned : Aligned (alignUp address) := by
    unfold Aligned
    rw [alignUp, alignDown_toNat]
    omega
  have room : (alignUp address + 0x10).toNat = (alignUp address).toNat + 0x10 := by
    have bound := lim.isLt
    rw [alignDown_toNat] at fits
    bv_omega
  refine ⟨⟨aligned, by simp only [room]; omega, by simp only [room]; exact fits, trivial⟩, rfl,
    ?_, ?_, ?_⟩
  · intro block member _
    obtain rfl := List.mem_singleton.mp member
    rfl
  · intro block member notRoot
    obtain rfl := List.mem_singleton.mp member
    exact absurd rfl notRoot
  · intro key descends
    obtain ⟨parent, ⟨block, member, notRoot, -, -⟩, -⟩ := Relation.TransGen.head'_iff.mp descends
    obtain rfl := List.mem_singleton.mp member
    exact notRoot rfl

/-- The constructor stores the header of the root block and nothing else. -/
theorem construct_stores (as : M) (address lim : Uint32)
    (inside : Inside (blank as lim) (alignUp address)) :
    ∃ stored, Returns (construct address) (blank as lim) ()
        { stored with rootBlock := alignUp address, lastBlock := alignUp address } ∧
      Keeps [alignUp address] (blank as lim) stored ∧
      field stored (alignUp address) 0 = 0 ∧ field stored (alignUp address) 4 = 0 ∧
      field stored (alignUp address) 8 = alignUp address + 0x10 ∧
      field stored (alignUp address) 12 = 0 := by
  have aligned := inside.1
  obtain ⟨one, storedPrev, first⟩ := store_returns (blank as lim) _ 0 0 inside offset_zero
  obtain ⟨two, storedParent, second⟩ :=
    store_returns one _ 4 0 ((inside_keeps first.keeps).mpr inside) offset_four
  have kept := keeps_trans first.keeps second.keeps
  obtain ⟨three, storedBrk, third⟩ := store_returns two _ 8 (alignUp address + 0x10)
    ((inside_keeps kept).mpr inside) offset_eight
  have kept := keeps_trans kept third.keeps
  obtain ⟨four, storedNext, fourth⟩ :=
    store_returns three _ 12 0 ((inside_keeps kept).mpr inside) offset_twelve
  refine ⟨four, ?_, keeps_trans kept fourth.keeps, ?_, ?_, ?_, ?_⟩
  · exact returns_bind.mpr ⟨_, _, storedPrev, returns_bind.mpr ⟨_, _, storedParent,
      returns_bind.mpr ⟨_, _, storedBrk, returns_bind.mpr ⟨_, _, storedNext,
        returns_update.mpr rfl⟩⟩⟩⟩
  · rw [fourth.field _ _ aligned offset_zero, third.field _ _ aligned offset_zero,
      second.field _ _ aligned offset_zero, first.field _ _ aligned offset_zero]
    simp
  · rw [fourth.field _ _ aligned offset_four, third.field _ _ aligned offset_four,
      second.field _ _ aligned offset_four]
    simp
  · rw [fourth.field _ _ aligned offset_eight, third.field _ _ aligned offset_eight]
    simp
  · rw [fourth.field _ _ aligned offset_twelve]
    simp

/-- The constructor makes the root block. -/
theorem construct_kept (as : M) (address lim : Uint32)
    (fits : (alignUp address).toNat + 0x10 ≤ (alignDown lim).toNat)
    (mapped : (alignDown lim).toNat ≤ Bus.size as) :
    ∃ after, Returns (construct address) (blank as lim) () after ∧
      Kept after (rootList address) ∧ after.rootBlock = alignUp address ∧
      Keeps [alignUp address] ({ blank as lim with rootBlock := alignUp address }) after := by
  have sound := rootList_sound address lim fits
  have inside : Inside (blank as lim) (alignUp address) :=
    ⟨sound.stacked.1, Nat.le_trans fits mapped⟩
  obtain ⟨stored, returned, kept, prev, parent, brk, next⟩ := construct_stores as address lim inside
  refine ⟨_, returned, ?_, rfl, ⟨kept.size, kept.limit, rfl, kept.byte⟩⟩
  refine ⟨?_, ?_, ⟨List.isChain_singleton _, rfl, rfl, next, prev, ?_, ?_⟩, ?_, fun null => null⟩
  · simp only [kept.limit, kept.size]
    exact mapped
  · simp only [kept.limit]
    unfold Aligned
    rw [blank, alignDown_toNat]
    omega
  · intro block member
    obtain rfl := List.mem_singleton.mp member
    exact parent
  · intro block member
    obtain rfl := List.mem_singleton.mp member
    exact brk
  · simp only [kept.limit]
    exact sound

/-- A call of a member function. -/
inductive Request where
  | alloc (len parent : Uint32)
  | allocLargest (parent : Uint32)
  | resize (memptr newlen : Uint32)
  | free (memptr : Uint32)
  | freeByParent (parent : Uint32)
deriving DecidableEq

/-- Make a call. `free_by_parent` has no result. -/
def Request.perform : Request → Method M (Option Int)
  | .alloc len parent => do pure (some (← Allocator.alloc len parent))
  | .allocLargest parent => do pure (some (← Allocator.allocLargest parent))
  | .resize memptr newlen => do pure (some (← Allocator.resize memptr newlen))
  | .free memptr => do pure (some (← Allocator.free memptr))
  | .freeByParent parent => do
    Allocator.freeByParent parent
    pure none

/-- A pointer names a live block: the header lies sixteen bytes before it. The root
block's pointer is `root()`. -/
def Live (allocator : Allocator M) (pointer : Uint32) : Prop :=
  ∃ blocks, Kept allocator blocks ∧ ∃ block ∈ blocks, pointer = block.addr + 0x10

/-- The calls that callers make: a parent is `root()` or a live block's pointer,
`root()` is not freed, and lengths do not wrap. -/
def Request.Admissible (allocator : Allocator M) : Request → Prop
  | .alloc len parent => len.toNat + 0x10 < 2 ^ 32 ∧ (parent = allocator.root ∨ Live allocator parent)
  | .allocLargest parent => parent = allocator.root ∨ Live allocator parent
  | .resize memptr newlen => memptr.toNat + newlen.toNat < 2 ^ 32
  | .free memptr => memptr ≠ allocator.root
  | .freeByParent parent => parent = allocator.root ∨ Live allocator parent

/-- The states of runs. Other code may change every byte of memory but those of
the headers of live blocks. -/
inductive Reached : Allocator M → Prop
  | constructed (as : M) (address lim : Uint32) (after : Allocator M)
      (fits : (alignUp address).toNat + 0x10 ≤ (alignDown lim).toNat)
      (mapped : (alignDown lim).toNat ≤ Bus.size as)
      (made : Returns (construct address) (blank as lim) () after) : Reached after
  | called (before after : Allocator M) (request : Request) (result : Option Int)
      (reached : Reached before) (admissible : request.Admissible before)
      (returned : Returns request.perform before result after) : Reached after
  | elsewhere (before : Allocator M) (as : M) (reached : Reached before)
      (size : Bus.size as = Bus.size before.as)
      (headers : ∀ pointer, Live before pointer → ∀ index, pointer.toNat ≤ index + 0x10 →
        index < pointer.toNat → Bus.byte as index = Bus.byte before.as index) :
      Reached { before with as := as }

/-- What a call promises: it returns, not with the code for a broken list, and
leaves a sound list; the bytes outside the headers of both lists stay. -/
def Serves (request : Request) (allocator : Allocator M) (blocks : List Block) : Prop :=
  ∃ result after others, Returns request.perform allocator result after ∧ result ≠ some (-7) ∧
    Kept after others ∧ Keeps (keys (blocks ++ others)) allocator after

/-- An owner that a caller may name is a live block's header. -/
theorem admissible_owner (kept : Kept allocator blocks) {parent : Uint32}
    (owner : parent = allocator.root ∨ Live allocator parent) : parent - 0x10 ∈ keys blocks := by
  rcases owner with rfl | ⟨others, also, block, member, rfl⟩
  · rw [root, BitVec.add_sub_cancel]
    exact root_member kept.sound
  · rw [BitVec.add_sub_cancel, kept_unique kept also]
    exact mem_keys.mpr ⟨block, member, rfl⟩

/-- The codes for a shortage differ from the code for a broken list. -/
theorem shortage_ne (longest : Uint32) (bounded : longest.toNat ≤ 0x1000000) :
    shortage longest ≠ -7 := by
  intro same
  have broken (value : Uint32) (code : svalue value = -7) : value = 0xfffffff9 :=
    BitVec.eq_of_toInt_eq code
  unfold shortage at same
  split at same
  · have := broken _ same
    bv_omega
  · have := broken _ same
    bv_omega

/-- A pointer differs from the code for a broken list. -/
theorem pointer_ne (pointer : Uint32) (bounded : pointer.toNat ≤ 0x2000000) :
    svalue pointer ≠ -7 := by
  intro same
  have broken : pointer = 0xfffffff9 := BitVec.eq_of_toInt_eq same
  bv_omega

/-- A call that returns what an operation does serves the request if that is no broken list and
leaves a sound one. -/
theorem serves_result {request : Request} {others : List Block} {program : Method M Int} {code : Int}
    (performs : request.perform = (do pure (some (← program))))
    (returned : Returns program allocator code after) (healthy : code ≠ -7) (kept : Kept after others)
    (frame : Keeps (keys others) allocator after) : Serves request allocator blocks := by
  refine ⟨some code, after, others, ?_, by simpa using healthy, kept, keeps_mono frame ?_⟩
  · rw [performs]
    exact returns_bind.mpr ⟨_, _, returned, returns_pure.mpr ⟨rfl, rfl⟩⟩
  · intro key member
    rw [keys_append]
    exact List.mem_append_right _ member

/-- A call that changes no block serves the list it had. -/
theorem serves_same {request : Request} {program : Method M Int} (code : Int)
    (performs : request.perform = (do pure (some (← program))))
    (returned : Returns program allocator code allocator) (healthy : code ≠ -7)
    (kept : Kept allocator blocks) : Serves request allocator blocks :=
  serves_result performs returned healthy kept (keeps_refl _ _)

/-- A call that only removes blocks keeps the bytes outside the headers it had. -/
theorem serves_removed {request : Request} {others : List Block} {result : Option Int}
    (returned : Returns request.perform allocator result after) (healthy : result ≠ some (-7))
    (kept : Kept after others) (frame : Keeps (keys blocks) allocator after) :
    Serves request allocator blocks := by
  refine ⟨result, after, others, returned, healthy, kept, keeps_mono frame fun key member => ?_⟩
  rw [keys_append]
  exact List.mem_append_left _ member

/-- The widest gap is within memory. -/
theorem widest_bounded (known : Uint32) (ceiling : Uint32) (low : known.toNat ≤ 0x1000000)
    (high : ceiling.toNat ≤ 0x1000000) (aligned : Aligned ceiling)
    (stacked : Stacked ceiling.toNat blocks) :
    (widest known ceiling blocks).toNat ≤ 0x1000000 := by
  induction blocks generalizing known ceiling with
  | nil => exact low
  | cons block rest inductionHypothesis =>
    obtain ⟨blockAligned, proper, bounded, later⟩ := stacked
    have rounded := alignUp_toNat block.brk (by omega)
    unfold Aligned at aligned
    have below : (alignUp block.brk).toNat ≤ ceiling.toNat := by omega
    refine inductionHypothesis _ _ ?_ (by omega) blockAligned later
    split
    · bv_omega
    · exact low

/-- A pointer returned for a block inside memory is no error code. -/
theorem added_pointer_ne {after : Allocator M} {others : List Block} {added : Block}
    (held : Holds after others) (member : added ∈ others) : svalue (added.addr + 0x10) ≠ -7 := by
  have inside := (holds_inside held member).1.2
  have bound := Bus.size_le after.as
  exact pointer_ne _ (by bv_omega)

/-- Where blocks can be allocated, every admissible call serves. -/
theorem serves_holds (request : Request) (holds : Holds allocator blocks)
    (admissible : request.Admissible allocator) : Serves request allocator blocks := by
  have kept := holds_kept holds
  have bound := Bus.size_le allocator.as
  have room := holds.room
  cases request with
  | alloc len parent =>
    have spec := alloc_spec blocks len parent admissible.1 holds (admissible_owner kept admissible.2)
    cases found : firstFit (len + 0x10) (parent - 0x10) allocator.limit blocks with
    | none =>
      rw [found] at spec
      refine serves_same _ rfl spec (shortage_ne _ ?_) kept
      exact widest_bounded _ _ (by decide) (by omega) holds.limitAligned holds.sound.stacked
    | some result =>
      rw [found] at spec
      obtain ⟨after, returned, held, frame⟩ := spec
      obtain ⟨upper, block, lower, -, same, -⟩ := firstFit_some found
      exact serves_result rfl returned (added_pointer_ne held (by simp [same])) (holds_kept held) frame
  | allocLargest parent =>
    have spec := allocLargest_spec blocks parent holds (admissible_owner kept admissible)
    cases found : fillWidest (parent - 0x10) 0x10 allocator.limit blocks with
    | none =>
      rw [found] at spec
      exact serves_same _ rfl spec (by decide) kept
    | some result =>
      rw [found] at spec
      obtain ⟨after, returned, held, frame⟩ := spec
      obtain ⟨upper, block, lower, -, same, -⟩ := fillWidest_some found
      exact serves_result rfl returned (added_pointer_ne held (by simp [same])) (holds_kept held) frame
  | resize memptr newlen =>
    by_cases present : memptr - 0x10 ∈ keys blocks
    · obtain ⟨block, member, here⟩ := mem_keys.mp present
      obtain ⟨upper, lower, rfl⟩ := List.append_of_mem member
      have spec := resize_spec memptr newlen admissible holds here
      split at spec
      · refine serves_same _ rfl spec (shortage_ne _ ?_) kept
        have inside := (stacked_member holds.sound.stacked List.mem_append_cons_self).2
        have bounds := gap_bounds holds
        bv_omega
      · obtain ⟨after, returned, held, frame⟩ := spec
        exact serves_result rfl returned (by decide) (holds_kept held) (keeps_mono frame (by simp))
    · exact serves_same _ rfl (resize_missing blocks memptr newlen holds present) (by decide) kept
  | free memptr =>
    by_cases present : memptr - 0x10 ∈ keys blocks
    · obtain ⟨block, member, here⟩ := mem_keys.mp present
      obtain ⟨upper, lower, rfl⟩ := List.append_of_mem member
      have notRoot : block.addr ≠ allocator.rootBlock := by
        intro isRoot
        apply admissible
        rw [root, ← isRoot, here, BitVec.sub_add_cancel]
      obtain ⟨after, returned, held, frame⟩ := free_spec memptr holds here notRoot
      have answered : Returns (Request.free memptr).perform allocator (some 0) after :=
        returns_bind.mpr ⟨_, _, returned, returns_pure.mpr ⟨rfl, rfl⟩⟩
      exact serves_removed answered (by decide) (holds_kept held) frame
    · exact serves_same _ rfl (free_missing blocks memptr holds present) (by decide) kept
  | freeByParent parent =>
    obtain ⟨after, returned, held, frame⟩ :=
      freeByParent_spec blocks parent holds (admissible_owner kept admissible)
    have answered : Returns (Request.freeByParent parent).perform allocator none after :=
      returns_bind.mpr ⟨_, _, returned, returns_pure.mpr ⟨rfl, rfl⟩⟩
    exact serves_removed answered (by decide) (holds_kept held) frame

/-- With no last block, `alloc` finds no room. -/
theorem alloc_inert (empty : allocator.lastBlock = 0) (len parent : Uint32) :
    Returns (alloc len parent) allocator (shortage 0x10) allocator := by
  refine returns_bind.mpr ⟨_, _, returns_state.mpr ⟨rfl, rfl⟩, loop_leaves ?_⟩
  simp [allocTurn, empty]

/-- With no last block, `alloc_largest` finds no room. -/
theorem allocLargest_inert (empty : allocator.lastBlock = 0) (parent : Uint32) :
    Returns (allocLargest parent) allocator (svalue 0x82000000) allocator := by
  refine returns_bind.mpr ⟨_, _, returns_state.mpr ⟨rfl, rfl⟩,
    returns_bind.mpr ⟨some ⟨⟨allocator.limit, 0⟩, 0, 0, 0x10⟩, allocator, loop_leaves ?_, ?_⟩⟩
  · simp [allocLargestTurn, empty]
  · simp

/-- With no last block, `resize` finds no block. -/
theorem resize_inert (empty : allocator.lastBlock = 0) (memptr newlen : Uint32) :
    Returns (resize memptr newlen) allocator (-9) allocator := by
  refine returns_bind.mpr ⟨_, _, returns_state.mpr ⟨rfl, rfl⟩, loop_leaves ?_⟩
  simp [resizeTurn, empty]

/-- With no last block, `free` finds no block. -/
theorem free_inert (empty : allocator.lastBlock = 0) (memptr : Uint32) :
    Returns (free memptr) allocator (-9) allocator := by
  refine returns_bind.mpr ⟨_, _, returns_state.mpr ⟨rfl, rfl⟩, loop_leaves ?_⟩
  simp [freeTurn, empty]

/-- With no last block, `free_by_parent` finds no child. -/
theorem freeByParent_inert (empty : allocator.lastBlock = 0) (parent : Uint32) :
    Returns (freeByParent parent) allocator () allocator := by
  refine returns_recursive 1 (returns_bind.mpr ⟨_, _, returns_state.mpr ⟨rfl, rfl⟩, loop_leaves ?_⟩)
  simp [freeByParentTurn, empty]

/-- With no last block, every walk ends at once and every call leaves the state. -/
theorem serves_inert (request : Request) (kept : Kept allocator blocks)
    (empty : allocator.lastBlock = 0) : Serves request allocator blocks := by
  cases request with
  | alloc len parent =>
    exact serves_same _ rfl (alloc_inert empty len parent) (shortage_ne 0x10 (by decide)) kept
  | allocLargest parent =>
    exact serves_same _ rfl (allocLargest_inert empty parent) (by decide) kept
  | resize memptr newlen =>
    exact serves_same (-9) rfl (resize_inert empty memptr newlen) (by decide) kept
  | free memptr => exact serves_same (-9) rfl (free_inert empty memptr) (by decide) kept
  | freeByParent parent =>
    exact ⟨none, allocator, blocks, returns_bind.mpr ⟨_, _, freeByParent_inert empty parent,
      returns_pure.mpr ⟨rfl, rfl⟩⟩, by decide, kept, keeps_refl _ _⟩

/-- Every admissible call serves. -/
theorem serves_kept (request : Request) (kept : Kept allocator blocks)
    (admissible : request.Admissible allocator) : Serves request allocator blocks := by
  by_cases null : allocator.rootBlock = 0
  · exact serves_inert request kept (kept.inert null)
  · exact serves_holds request (kept_holds kept null) admissible

/-- Other code that leaves the headers alone leaves the list alone. -/
theorem kept_elsewhere (as : M) (kept : Kept allocator blocks)
    (size : Bus.size as = Bus.size allocator.as)
    (headers : ∀ block ∈ blocks, ∀ index, block.addr.toNat ≤ index →
      index < block.addr.toNat + 16 → Bus.byte as index = Bus.byte allocator.as index) :
    Kept { allocator with as := as } blocks := by
  have same (key offset : Uint32) (member : key ∈ keys blocks) (placed : Offset offset) :
      field { allocator with as := as } key offset = field allocator key offset := by
    obtain ⟨block, inside, rfl⟩ := mem_keys.mp member
    have proper := stacked_member kept.sound.stacked inside
    have room := kept.room
    have bound := Bus.size_le allocator.as
    obtain ⟨multiple, small⟩ := placed
    apply Bus.word_congr
    intro index low high
    exact headers block inside index (by bv_omega) (by bv_omega)
  refine ⟨size ▸ kept.room, kept.limitAligned, ⟨?_, kept.listed.last, kept.listed.root, ?_, ?_, ?_,
    ?_⟩, kept.sound, kept.inert⟩
  · apply linked_congr _ kept.listed.linked
    · exact fun key member => same key 0 (List.mem_of_mem_dropLast member) offset_zero
    · exact fun key member => same key 12 (List.mem_of_mem_tail member) offset_twelve
  · rw [same _ _ (List.mem_of_mem_head? kept.listed.last) offset_twelve]
    exact kept.listed.noneAbove
  · rw [same _ _ (List.mem_of_getLast? kept.listed.root) offset_zero]
    exact kept.listed.noneBelow
  · intro block member
    rw [same _ _ (mem_keys.mpr ⟨block, member, rfl⟩) offset_four]
    exact kept.listed.owners block member
  · intro block member
    rw [same _ _ (mem_keys.mpr ⟨block, member, rfl⟩) offset_eight]
    exact kept.listed.ends block member

/-- The headers of the list are those in front of live pointers. -/
theorem kept_live (as : M) (kept : Kept allocator blocks) (size : Bus.size as = Bus.size allocator.as)
    (headers : ∀ pointer, Live allocator pointer → ∀ index, pointer.toNat ≤ index + 0x10 →
      index < pointer.toNat → Bus.byte as index = Bus.byte allocator.as index) :
    Kept { allocator with as := as } blocks := by
  refine kept_elsewhere as kept size fun block member index low high => ?_
  have inside := (stacked_member kept.sound.stacked member).2
  have limit := allocator.limit.isLt
  exact headers (block.addr + 0x10) ⟨blocks, kept, block, member, rfl⟩ index (by bv_omega)
    (by bv_omega)

/-- The body of a block is apart from all headers. -/
theorem kept_body (as : M) (kept : Kept allocator blocks) {block : Block} (member : block ∈ blocks)
    (size : Bus.size as = Bus.size allocator.as)
    (bytes : ∀ index, index < block.addr.toNat + 16 ∨ block.brk.toNat ≤ index →
      Bus.byte as index = Bus.byte allocator.as index) :
    Kept { allocator with as := as } blocks := by
  refine kept_elsewhere as kept size fun other inside index low high => bytes index ?_
  have proper := (stacked_member kept.sound.stacked inside).2.1
  rcases stacked_apart kept.sound.stacked member inside with rfl | below | above
  · exact Or.inl high
  · exact Or.inr (by omega)
  · exact Or.inl (by omega)

/-- Every state of a run has a sound list in its headers. -/
theorem reached_kept (reached : Reached allocator) : ∃ blocks, Kept allocator blocks := by
  induction reached with
  | constructed as address lim after fits mapped made =>
    obtain ⟨other, returned, kept, -⟩ := construct_kept as address lim fits mapped
    obtain ⟨-, rfl⟩ := returns_unique made returned
    exact ⟨_, kept⟩
  | called before after request result _ admissible returned inductionHypothesis =>
    obtain ⟨blocks, kept⟩ := inductionHypothesis
    obtain ⟨answer, other, others, performed, -, left, -⟩ := serves_kept request kept admissible
    obtain ⟨-, rfl⟩ := returns_unique returned performed
    exact ⟨others, left⟩
  | elsewhere before as _ size headers inductionHypothesis =>
    obtain ⟨blocks, kept⟩ := inductionHypothesis
    exact ⟨blocks, kept_live as kept size headers⟩

/-- In every state of every run the headers form one doubly linked list of blocks
that are aligned, stacked without overlap below the limit and owned in a forest;
and every admissible call from there returns, with another result than the code
for a broken list, leaving such a list and all bytes outside the headers of both.

Proof: the constructor establishes the list, each call keeps it and other code
does not reach it. -/
theorem runs_keep_list (allocator : Allocator M) (reached : Reached allocator) :
    ∃ blocks, Kept allocator blocks ∧
      ∀ request : Request, request.Admissible allocator → Serves request allocator blocks := by
  obtain ⟨blocks, kept⟩ := reached_kept reached
  exact ⟨blocks, kept, fun request admissible => serves_kept request kept admissible⟩

/-- A megabyte of memory, all zero. -/
def megabyte : MainMemory.ByteMemory := ⟨0x100000, 0, fun _ => 0⟩

/-- The allocator of a machine with a megabyte of memory, as the DOS sets it up, with the
memory above its root block as it was. -/
theorem megabyte_made (as : M) (mapped : 0x100000 ≤ Bus.size as) :
    ∃ allocator : Allocator M, Reached allocator ∧ Holds allocator [⟨0x8000, 0, 0x8010⟩] ∧
      allocator.limit = 0x100000 ∧ allocator.rootBlock = 0x8000 ∧
      ∀ index, 0x8010 ≤ index → Bus.byte allocator.as index = Bus.byte as index := by
  have low : (alignDown 0x100000).toNat ≤ Bus.size as := mapped
  obtain ⟨allocator, constructed, kept, root, frame⟩ :=
    construct_kept as 0x8000 0x100000 (by decide) low
  have list : rootList 0x8000 = [⟨0x8000, 0, 0x8010⟩] := by decide
  have lim : alignDown 0x100000 = 0x100000 := by decide
  have place : alignUp 0x8000 = 0x8000 := by decide
  rw [list] at kept
  refine ⟨allocator, .constructed _ 0x8000 0x100000 allocator (by decide) low constructed,
    kept_holds kept (by rw [root]; decide), frame.limit.trans lim, root.trans place, ?_⟩
  intro index above
  apply frame.byte
  intro key member
  obtain rfl := List.mem_singleton.mp member
  exact Or.inr (by rw [place]; exact above)

/-- In a memory of a megabyte the allocator starts with the root block alone. -/
theorem megabyte_holds (as : M) (mapped : 0x100000 ≤ Bus.size as) :
    ∃ allocator : Allocator M, Reached allocator ∧ Holds allocator [⟨0x8000, 0, 0x8010⟩] ∧
      allocator.limit = 0x100000 ∧ allocator.rootBlock = 0x8000 := by
  obtain ⟨allocator, reached, holds, limit, root, -⟩ := megabyte_made as mapped
  exact ⟨allocator, reached, holds, limit, root⟩

/-- Its first allocation of 0x2000 bytes for the root. -/
theorem megabyte_alloc (holds : Holds allocator [⟨0x8000, 0, 0x8010⟩])
    (limit : allocator.limit = 0x100000) :
    ∃ after, Returns (alloc 0x2000 0x8010) allocator 0x8020 after ∧
      Holds after [⟨0x8010, 0x8000, 0xa020⟩, ⟨0x8000, 0, 0x8010⟩] ∧ after.limit = 0x100000 := by
  have member : (0x8010 : Uint32) - 0x10 ∈ keys [⟨0x8000, 0, 0x8010⟩] := by decide
  have spec := alloc_spec _ 0x2000 0x8010 (by decide) holds member
  have found : firstFit (0x2000 + 0x10) (0x8010 - 0x10) allocator.limit [⟨0x8000, 0, 0x8010⟩] =
      some (⟨0x8010, 0x8000, 0xa020⟩, [⟨0x8010, 0x8000, 0xa020⟩, ⟨0x8000, 0, 0x8010⟩]) := by
    rw [limit]
    decide
  rw [found] at spec
  obtain ⟨after, returned, held, frame⟩ := spec
  exact ⟨after, returned, held, frame.limit.trans limit⟩

/-- Its first allocation of the largest block for the root. -/
theorem megabyte_allocLargest (holds : Holds allocator [⟨0x8000, 0, 0x8010⟩])
    (limit : allocator.limit = 0x100000) :
    ∃ after, Returns (allocLargest 0x8010) allocator 0x8020 after ∧
      Holds after [⟨0x8010, 0x8000, 0x100000⟩, ⟨0x8000, 0, 0x8010⟩] := by
  have member : (0x8010 : Uint32) - 0x10 ∈ keys [⟨0x8000, 0, 0x8010⟩] := by decide
  have spec := allocLargest_spec _ 0x8010 holds member
  have found : fillWidest (0x8010 - 0x10) 0x10 allocator.limit [⟨0x8000, 0, 0x8010⟩] =
      some (⟨0x8010, 0x8000, 0x100000⟩, [⟨0x8010, 0x8000, 0x100000⟩, ⟨0x8000, 0, 0x8010⟩]) := by
    rw [limit]
    decide
  rw [found] at spec
  obtain ⟨after, returned, held, -⟩ := spec
  exact ⟨after, returned, held⟩

/-- In a megabyte a program can come to own 0x2000 bytes. -/
theorem megabyte_allocated : ∃ allocator : Allocator MainMemory.ByteMemory,
    Reached allocator ∧ Holds allocator [⟨0x8010, 0x8000, 0xa020⟩, ⟨0x8000, 0, 0x8010⟩] := by
  obtain ⟨made, reached, holds, limit, root⟩ := megabyte_holds megabyte (Nat.le_refl _)
  obtain ⟨after, returned, held, -⟩ := megabyte_alloc holds limit
  have admissible : (Request.alloc 0x2000 0x8010).Admissible made :=
    ⟨by decide, Or.inl (by rw [Allocator.root, root]; decide)⟩
  exact ⟨after, .called made after (.alloc 0x2000 0x8010) _ reached admissible
    (returns_bind.mpr ⟨_, _, returned, returns_pure.mpr ⟨rfl, rfl⟩⟩), held⟩

/-- A megabyte with the list starting at 0x8000, after 0x2000 bytes have been
allocated for the root. -/
theorem runs_keep_list_megabyte : ∃ allocator : Allocator MainMemory.ByteMemory,
    Kept allocator [⟨0x8010, 0x8000, 0xa020⟩, ⟨0x8000, 0, 0x8010⟩] ∧
    ∀ request : Request, request.Admissible allocator →
      Serves request allocator [⟨0x8010, 0x8000, 0xa020⟩, ⟨0x8000, 0, 0x8010⟩] := by
  obtain ⟨after, later, held⟩ := megabyte_allocated
  obtain ⟨blocks, also, serves⟩ := runs_keep_list after later
  obtain rfl := kept_unique also (holds_kept held)
  exact ⟨after, also, serves⟩

end Vx68k.Allocator
