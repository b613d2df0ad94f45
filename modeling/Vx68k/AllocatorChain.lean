import Vx68k.AllocatorBlocks

/-!
# The allocator keeps a list of blocks

`Holds` says which list of blocks the headers in guest memory form. The functions
that edit headers edit the list; the walks of the calls over the headers are
recursions over the list. Every call from a state that holds a sound list returns,
with the list of `AllocatorBlocks` and without touching a byte outside headers.
-/

namespace Vx68k.Allocator

open Programs LinkedLists Forests

variable {M : Type} [Bus M]

/-- The headers form this sound list of blocks. The root is above the null
address, which serves as the end of the list. -/
structure Holds (allocator : Allocator M) (blocks : List Block) : Prop where
  room : allocator.limit.toNat ≤ Bus.size allocator.as
  limitAligned : Aligned allocator.limit
  rootSome : allocator.rootBlock ≠ 0
  sound : Sound allocator.limit allocator.rootBlock blocks
  ring : Ring allocator.below allocator.above 0 (keys blocks)
  owners : ∀ block ∈ blocks, field allocator block.addr 4 = block.parent
  ends : ∀ block ∈ blocks, field allocator block.addr 8 = block.brk

/-- The headers form this list of blocks stacked down to the root. Who owns them is
read from the headers too, but need not be a forest. -/
structure Shaped (allocator : Allocator M) (blocks : List Block) : Prop where
  room : allocator.limit.toNat ≤ Bus.size allocator.as
  limitAligned : Aligned allocator.limit
  rootSome : allocator.rootBlock ≠ 0
  stacked : Stacked allocator.limit.toNat blocks
  rootLast : (keys blocks).getLast? = some allocator.rootBlock
  ring : Ring allocator.below allocator.above 0 (keys blocks)
  owners : ∀ block ∈ blocks, field allocator block.addr 4 = block.parent
  ends : ∀ block ∈ blocks, field allocator block.addr 8 = block.brk

variable {allocator : Allocator M} {blocks upper lower : List Block} {block : Block}

/-- A sound list has its links. -/
theorem holds_shaped (holds : Holds allocator blocks) : Shaped allocator blocks :=
  ⟨holds.room, holds.limitAligned, holds.rootSome, holds.sound.stacked, holds.sound.rootLast,
    holds.ring, holds.owners, holds.ends⟩

/-- Links between the blocks of a sound list make it one that is held. -/
theorem shaped_holds (shaped : Shaped allocator blocks)
    (sound : Sound allocator.limit allocator.rootBlock blocks) : Holds allocator blocks :=
  ⟨shaped.room, shaped.limitAligned, shaped.rootSome, sound, shaped.ring, shaped.owners, shaped.ends⟩

/-- No block of the list is at the null address. -/
theorem shaped_some (shaped : Shaped allocator blocks) {key : Uint32} (member : key ∈ keys blocks) :
    key ≠ 0 := by
  rintro rfl
  obtain ⟨block, inside, null⟩ := mem_keys.mp member
  have lowest := lowest_last shaped.stacked shaped.rootLast inside
  have some := shaped.rootSome
  rw [null] at lowest
  bv_omega

/-- Every header of a held list can be read and written, and none is at the null
address. -/
theorem holds_inside (holds : Holds allocator blocks) (member : block ∈ blocks) :
    Inside allocator block.addr ∧ block.addr ≠ 0 := by
  obtain ⟨aligned, proper, bounded⟩ := stacked_member holds.sound.stacked member
  have lowest := root_lowest holds.sound member
  have some := holds.rootSome
  have room := holds.room
  exact ⟨⟨aligned, by omega⟩, by rintro null; rw [null] at lowest; bv_omega⟩

/-- The header of every block of the list is in memory, and not at the null address. -/
theorem holds_key_inside (holds : Holds allocator blocks) {key : Uint32} (member : key ∈ keys blocks) :
    Inside allocator key ∧ key ≠ 0 := by
  obtain ⟨block, inside, rfl⟩ := mem_keys.mp member
  exact holds_inside holds inside

/-- The blocks of the list are at different addresses, none of them null. -/
theorem holds_distinct (holds : Holds allocator blocks) : (0 :: keys blocks).Nodup :=
  List.nodup_cons.mpr ⟨fun member => (holds_key_inside holds member).2 rfl,
    stacked_distinct holds.sound.stacked⟩

/-- The first block of a list, or the null address. -/
def top (blocks : List Block) : Uint32 := (keys blocks).headD 0

/-- Without blocks the top is null. -/
@[simp]
theorem top_nil : top [] = 0 := rfl

/-- The first block is the top. -/
@[simp]
theorem top_cons (block : Block) (rest : List Block) : top (block :: rest) = block.addr := rfl

/-- The last block that the allocator knows is the top of the list. -/
theorem holds_lastBlock (holds : Holds allocator blocks) : allocator.lastBlock = top blocks := by
  have first := ring_first 0 (keys blocks) holds.ring
  rwa [below, if_pos rfl] at first

/-- The link of a block leads to the rest of the list. -/
theorem holds_below (holds : Holds allocator (upper ++ block :: lower)) :
    allocator.below block.addr = top lower :=
  ring_down 0 block.addr (keys upper) (keys lower) (by simpa using holds.ring)

/-- The link upwards leads to the next block above, or is null. -/
theorem holds_above (holds : Holds allocator (upper ++ block :: lower)) :
    allocator.above block.addr = (keys upper).getLastD 0 :=
  ring_up 0 block.addr (keys upper) (keys lower) (by simpa using holds.ring)

/-- The neighbour above a block is the null address or a header. -/
theorem upper_inside (holds : Holds allocator (upper ++ lower))
    (some : (keys upper).getLastD 0 ≠ 0) :
    Inside allocator ((keys upper).getLastD 0) ∧ (keys upper).getLastD 0 ∈ keys upper := by
  have member := getLastD_mem 0 (keys upper) []
  rw [List.append_nil] at member
  have inUpper := (List.mem_cons.mp member).resolve_left some
  have inside := holds_key_inside holds (keys_append upper lower ▸ List.mem_append_left _ inUpper)
  exact ⟨inside.1, inUpper⟩

/-- The addresses in the list and null are all that the links have, and they are aligned. -/
theorem holds_known (holds : Holds allocator blocks) {key : Uint32}
    (member : key ∈ 0 :: keys blocks) : key = 0 ∨ Aligned key := by
  rcases List.mem_cons.mp member with null | inside
  · exact Or.inl null
  · exact Or.inr (holds_key_inside holds inside).1.1

/-- An edit of the list writes the neighbour above only where that is a header. -/
theorem next_key (holds : Holds allocator (upper ++ lower)) {key : Uint32}
    (member : key ∈ if (keys upper).getLastD 0 = 0 then [] else [(keys upper).getLastD 0]) :
    key ∈ keys upper := by
  split at member
  · simp at member
  · rename_i some
    rw [List.mem_singleton.mp member]
    exact (upper_inside holds some).2

/-- No other node of the ring is at a block's address. -/
theorem stacked_fresh {ceiling : Nat} (stacked : Stacked ceiling (upper ++ block :: lower))
    (some : block.addr ≠ 0) : ∀ key ∈ 0 :: keys (upper ++ lower), key ≠ block.addr := by
  rintro key member rfl
  exact stacked_alone stacked ((List.mem_cons.mp member).resolve_left some)

section Links

variable {after : Allocator M} {key : Uint32} {owner ends : Uint32 → Uint32}

/-- The links that `makeBlock` writes put a new header on the ring. -/
theorem ring_made (holds : Holds allocator (upper ++ lower)) (aligned : Aligned key)
    (fresh : ∀ other ∈ 0 :: keys (upper ++ lower), other ≠ key)
    (views : Views after
      (setAt true (setAt true allocator.below key (top lower)) ((keys upper).getLastD 0) key)
      (setAt true (setAt true allocator.above key ((keys upper).getLastD 0)) (top lower) key)
      owner ends) :
    Ring after.below after.above 0 (keys upper ++ key :: keys lower) := by
  refine ring_insert 0 key (keys upper) (keys lower) (by simpa using holds_distinct holds)
    (by simpa using holds.ring) ?_ ?_ ?_ ?_
  · intro other member
    rw [← keys_append] at member
    rw [views.below other (holds_known holds member), setAt_true, setAt_true,
      if_neg (fresh other member)]
  · intro other member
    rw [← keys_append] at member
    rw [views.above other (holds_known holds member), setAt_true, setAt_true,
      if_neg (fresh other member)]
    rfl
  · rw [views.below _ (Or.inr aligned), setAt_true, setAt_true, if_pos rfl]
    split
    · rename_i same
      have member := getLastD_mem 0 (keys upper) (keys lower)
      rw [← keys_append] at member
      exact absurd same.symm (fresh _ member)
    · rfl
  · have member : top lower ∈ 0 :: (keys upper ++ keys lower) :=
      headD_mem 0 (keys upper) (keys lower)
    rw [← keys_append] at member
    rw [views.above _ (Or.inr aligned), setAt_true, setAt_true, if_pos rfl,
      if_neg (fresh _ member).symm]

/-- The links that `removeBlock` writes take a header off the ring. -/
theorem ring_removed (holds : Holds allocator (upper ++ block :: lower))
    (views : Views after
      (setAt true allocator.below ((keys upper).getLastD 0) (top lower))
      (setAt true allocator.above (top lower) ((keys upper).getLastD 0)) owner ends) :
    Ring after.below after.above 0 (keys (upper ++ lower)) := by
  have distinct : (0 :: (keys upper ++ block.addr :: keys lower)).Nodup := by
    simpa using holds_distinct holds
  have known : ∀ key ∈ 0 :: (keys upper ++ keys lower), key = 0 ∨ Aligned key := by
    intro key member
    apply holds_known holds
    simp only [keys_append, keys_cons, List.mem_cons, List.mem_append] at member ⊢
    tauto
  rw [keys_append]
  refine ring_remove 0 block.addr (keys upper) (keys lower) (distinct.sublist (by simp))
    (by simpa using holds.ring) ?_ ?_
  · intro other member
    rw [views.below other (known other member), setAt_true]
    rfl
  · intro other member
    rw [views.above other (known other member), setAt_true]
    rfl

/-- Where no link is changed, the ring stays. -/
theorem ring_same (holds : Holds allocator blocks)
    (views : Views after allocator.below allocator.above owner ends) :
    Ring after.below after.above 0 (keys blocks) := by
  refine linked_congr _ holds.ring ?_ ?_
  · intro other member
    have inside := List.mem_of_mem_dropLast member
    exact views.below other (holds_known holds (by
      simp only [List.mem_cons, List.mem_append, List.not_mem_nil, or_false] at inside ⊢
      tauto))
  · intro other member
    have inside := List.mem_of_mem_tail member
    exact views.above other (holds_known holds (by
      simp only [List.mem_cons, List.mem_append, List.not_mem_nil, or_false] at inside ⊢
      tauto))

/-- Headers of another stack with the same root and limit form that stack. -/
theorem shaped_after {changed : List Uint32} {others : List Block} (holds : Holds allocator blocks)
    (kept : Keeps changed allocator after) (stacked : Stacked allocator.limit.toNat others)
    (rootLast : (keys others).getLast? = some allocator.rootBlock)
    (ring : Ring after.below after.above 0 (keys others))
    (owners : ∀ block ∈ others, field after block.addr 4 = block.parent)
    (ends : ∀ block ∈ others, field after block.addr 8 = block.brk) : Shaped after others := by
  refine ⟨?_, kept.limit ▸ holds.limitAligned, kept.rootBlock ▸ holds.rootSome, ?_, ?_, ring, owners,
    ends⟩
  · rw [kept.limit, kept.size]
    exact holds.room
  · rw [kept.limit]
    exact stacked
  · rw [kept.rootBlock]
    exact rootLast

/-- Headers of another sound list with the same root and limit form that list. -/
theorem holds_after {changed : List Uint32} {others : List Block} (holds : Holds allocator blocks)
    (kept : Keeps changed allocator after) (sound : Sound allocator.limit allocator.rootBlock others)
    (ring : Ring after.below after.above 0 (keys others))
    (owners : ∀ block ∈ others, field after block.addr 4 = block.parent)
    (ends : ∀ block ∈ others, field after block.addr 8 = block.brk) : Holds after others := by
  refine shaped_holds (shaped_after holds kept sound.stacked sound.rootLast ring owners ends) ?_
  rw [kept.limit, kept.rootBlock]
  exact sound

end Links

/-- A block is made in the gap above another, whoever its owner is. -/
theorem makeBlock_shaped (holds : Holds allocator (upper ++ block :: lower)) (added : Block)
    (len : Uint32) (aligned : Aligned added.addr) (high : block.brk.toNat ≤ added.addr.toNat)
    (proper : added.addr.toNat + 16 ≤ added.brk.toNat)
    (fits : added.brk.toNat ≤ (floor allocator.limit upper).toNat)
    (ends : added.addr + len = added.brk) :
    ∃ after, Returns (makeBlock added.addr len block.addr added.parent) allocator () after ∧
      Shaped after (upper ++ added :: block :: lower) ∧
      Keeps (keys (upper ++ added :: block :: lower)) allocator after := by
  have stacked := stacked_insert added block holds.sound.stacked aligned high proper fits
  have stackedUpper := ((stacked_append _ _ _).mp holds.sound.stacked).1
  have lowest := floor_le stackedUpper
  have room := holds.room
  obtain ⟨blockInside, blockSome⟩ := holds_inside holds List.mem_append_cons_self
  have insideAdded : Inside allocator added.addr := ⟨aligned, by omega⟩
  have addedSome : added.addr ≠ 0 := by
    have above := (stacked_member holds.sound.stacked List.mem_append_cons_self).2.1
    rintro null
    rw [null] at high
    bv_omega
  have fresh := stacked_fresh stacked addedSome
  have next : allocator.above block.addr = (keys upper).getLastD 0 := holds_above holds
  obtain ⟨after, returned, kept, views⟩ := makeBlock_views (views_self allocator) added.addr len
    block.addr added.parent insideAdded addedSome blockInside blockSome
    (by rw [next]; exact fun some => (upper_inside holds some).1)
  rw [next] at kept views
  refine ⟨after, returned, shaped_after holds kept stacked ?_ ?_ ?_ ?_, ?_⟩
  · simpa [keys, List.getLast?_append] using holds.sound.rootLast
  · rw [keys_append, keys_cons]
    exact ring_made holds aligned fresh views
  · intro other member
    rw [views.owner _ (stacked_member stacked member).1, setAt_true]
    rcases mem_insert.mp member with rfl | old
    · rw [if_pos rfl]
    · rw [if_neg (fresh _ (List.mem_cons_of_mem _ (mem_keys.mpr ⟨other, old, rfl⟩)))]
      exact holds.owners other old
  · intro other member
    rw [views.ends _ (stacked_member stacked member).1, setAt_true]
    rcases mem_insert.mp member with rfl | old
    · rw [if_pos rfl, ends]
    · rw [if_neg (fresh _ (List.mem_cons_of_mem _ (mem_keys.mpr ⟨other, old, rfl⟩)))]
      exact holds.ends other old
  · apply keeps_mono kept
    intro key member
    have cases : key = added.addr ∨ key = block.addr ∨ key ∈ keys upper := by
      simp only [List.mem_cons] at member
      rcases member with isAdded | isBlock | isNext
      · exact Or.inl isAdded
      · exact Or.inr (Or.inl isBlock)
      · exact Or.inr (Or.inr (next_key holds isNext))
    simp only [keys_append, keys_cons, List.mem_append, List.mem_cons]
    tauto

/-- A block is made in the gap above another, for the owner of a live block. -/
theorem makeBlock_holds (holds : Holds allocator (upper ++ block :: lower)) (added : Block)
    (len : Uint32) (aligned : Aligned added.addr) (high : block.brk.toNat ≤ added.addr.toNat)
    (proper : added.addr.toNat + 16 ≤ added.brk.toNat)
    (fits : added.brk.toNat ≤ (floor allocator.limit upper).toNat)
    (ends : added.addr + len = added.brk)
    (owned : added.parent ∈ keys (upper ++ block :: lower)) :
    ∃ after, Returns (makeBlock added.addr len block.addr added.parent) allocator () after ∧
      Holds after (upper ++ added :: block :: lower) ∧
      Keeps (keys (upper ++ added :: block :: lower)) allocator after := by
  obtain ⟨after, made, shaped, kept⟩ := makeBlock_shaped holds added len aligned high proper fits ends
  refine ⟨after, made, shaped_holds shaped ?_, kept⟩
  rw [kept.limit, kept.rootBlock]
  exact sound_insert added block holds.sound aligned high proper fits owned

/-- A block that owns no other is removed. Its own link still leads to the rest. -/
theorem removeBlock_holds (holds : Holds allocator (upper ++ block :: lower))
    (notRoot : block.addr ≠ allocator.rootBlock)
    (unowned : ∀ other ∈ upper ++ lower, other.addr ≠ allocator.rootBlock →
      other.parent ≠ block.addr) :
    ∃ after, Returns (removeBlock block.addr) allocator () after ∧
      Holds after (upper ++ lower) ∧ after.below block.addr = top lower ∧
      Keeps (keys (upper ++ block :: lower)) allocator after := by
  have sound := sound_remove holds.sound notRoot unowned
  obtain ⟨blockInside, blockSome⟩ := holds_inside holds List.mem_append_cons_self
  have rest : lower ≠ [] := by
    rintro rfl
    exact notRoot (by simpa [keys] using holds.sound.rootLast)
  have topMember : top lower ∈ keys lower := by
    cases lower with
    | nil => exact absurd rfl rest
    | cons first others => simp
  have topKey : top lower ∈ keys (upper ++ block :: lower) := by simp [topMember]
  obtain ⟨topInside, topSome⟩ := holds_key_inside holds topKey
  have prev : allocator.below block.addr = top lower := holds_below holds
  have next : allocator.above block.addr = (keys upper).getLastD 0 := holds_above holds
  obtain ⟨after, returned, kept, views⟩ := removeBlock_views (views_self allocator) block.addr
    blockInside blockSome (by rw [prev]; exact topInside) (by rw [prev]; exact topSome)
    (by rw [next]; exact fun some => (upper_inside holds some).1)
  rw [prev, next] at kept views
  have old : ∀ other ∈ upper ++ lower, other ∈ upper ++ block :: lower := by
    intro other member
    simp only [List.mem_append, List.mem_cons] at member ⊢
    tauto
  refine ⟨after, returned, holds_after holds kept sound (ring_removed holds views) ?_ ?_, ?_, ?_⟩
  · intro other member
    rw [views.owner _ (stacked_member sound.stacked member).1]
    exact holds.owners other (old other member)
  · intro other member
    rw [views.ends _ (stacked_member sound.stacked member).1]
    exact holds.ends other (old other member)
  · rw [views.below _ (Or.inr blockInside.1), setAt_true, if_neg, prev]
    have member := getLastD_mem 0 (keys upper) (keys lower)
    rw [← keys_append] at member
    exact (stacked_fresh holds.sound.stacked blockSome _ member).symm
  · apply keeps_mono kept
    intro key member
    have cases : key ∈ keys lower ∨ key ∈ keys upper := by
      rcases List.mem_cons.mp member with isPrev | isNext
      · exact Or.inl (isPrev ▸ topMember)
      · exact Or.inr (next_key holds isNext)
    simp only [keys_append, keys_cons, List.mem_append, List.mem_cons]
    tauto

/-- The end of a block is moved within its room. -/
theorem storeBrk_holds (holds : Holds allocator (upper ++ block :: lower)) (brk : Uint32)
    (proper : block.addr.toNat + 16 ≤ brk.toNat)
    (fits : brk.toNat ≤ (floor allocator.limit upper).toNat) :
    ∃ after, Returns (store (block.addr + 8) brk) allocator () after ∧
      Holds after (upper ++ { block with brk := brk } :: lower) ∧
      Keeps (keys (upper ++ block :: lower)) allocator after := by
  have sound := sound_resize block brk holds.sound proper fits
  have same : keys (upper ++ { block with brk := brk } :: lower) = keys (upper ++ block :: lower) := by
    simp
  obtain ⟨inside, some⟩ := holds_inside holds List.mem_append_cons_self
  obtain ⟨after, returned, kept, views⟩ :=
    store_views (views_self allocator) block.addr 8 brk inside some offset_eight
  have views : Views after allocator.below allocator.above (field allocator · 4)
      (setAt true (field allocator · 8) block.addr brk) := by simpa [setAt] using views
  refine ⟨after, returned, holds_after holds kept sound ?_ ?_ ?_, keeps_mono kept (by simp)⟩
  · rw [same]
    exact ring_same holds views
  · intro other member
    rw [views.owner _ (stacked_member sound.stacked member).1]
    simp only [List.mem_append, List.mem_cons] at member
    rcases member with inUpper | rfl | inLower
    · exact holds.owners other (by simp [inUpper])
    · exact holds.owners block (by simp)
    · exact holds.owners other (by simp [inLower])
  · intro other member
    rw [views.ends _ (stacked_member sound.stacked member).1]
    by_cases here : other.addr = block.addr
    · have unique := block_unique sound.stacked member
        (show { block with brk := brk } ∈ _ by simp) here
      rw [setAt_true, if_pos here, unique]
    · rw [setAt_true, if_neg here]
      simp only [List.mem_append, List.mem_cons] at member
      rcases member with inUpper | rfl | inLower
      · exact holds.ends other (by simp [inUpper])
      · exact absurd rfl here
      · exact holds.ends other (by simp [inLower])

end Vx68k.Allocator
