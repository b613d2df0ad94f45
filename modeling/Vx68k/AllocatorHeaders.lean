import Vx68k.Allocator
import Vx68k.LinkedLists

/-!
# Block headers in guest memory

A header is four long words at a multiple of sixteen, so two fields of two headers
never share a byte. The effect of `remove_block` and `make_block` is stated on the
fields: which links change, that owners and ends do not, and which bytes stay. The
end pointers of the allocator act as the links of the null address, which is the
sentinel of the list.
-/

namespace Vx68k.Allocator

open Programs ByteStores LinkedLists

/-- Rounding down gives the largest multiple of sixteen that is not above. -/
theorem alignDown_toNat (value : Uint32) : (alignDown value).toNat = value.toNat / 16 * 16 :=
  and_mask_toNat value _ 4 (by decide)

/-- Rounding up gives the least multiple of sixteen that is not below. -/
theorem alignUp_toNat (value : Uint32) (bounded : value.toNat + 15 < 2 ^ 32) :
    (alignUp value).toNat = (value.toNat + 15) / 16 * 16 := by
  have sum : (value + 0xf).toNat = value.toNat + 15 := by bv_omega
  rw [alignUp, alignDown_toNat, sum]

/-- A header can start here: a multiple of sixteen. -/
def Aligned (key : Uint32) : Prop := key.toNat % 16 = 0

/-- Alignment is decided by the remainder. -/
instance (key : Uint32) : Decidable (Aligned key) :=
  inferInstanceAs (Decidable (key.toNat % 16 = 0))

/-- A field lies at this offset of a header. -/
def Offset (offset : Uint32) : Prop := offset.toNat % 4 = 0 ∧ offset.toNat < 16

/-- Header fields at different places have different addresses. -/
theorem field_address {key other offset another : Uint32} (aligned : Aligned key)
    (also : Aligned other) (one : Offset offset) (two : Offset another) :
    key + offset = other + another ↔ key = other ∧ offset = another := by
  unfold Aligned at aligned also
  unfold Offset at one two
  constructor
  · intro same
    constructor
    · bv_omega
    · bv_omega
  · rintro ⟨rfl, rfl⟩
    rfl

variable {M : Type} [Bus M]

/-- The long word at an offset of a header. -/
def field (allocator : Allocator M) (key offset : Uint32) : Uint32 :=
  Bus.word allocator.as (key + offset)

/-- A header that can be read and written. -/
def Inside (allocator : Allocator M) (key : Uint32) : Prop :=
  Aligned key ∧ key.toNat + 16 ≤ Bus.size allocator.as

/-- The bytes outside the given headers, the extent of memory and the fixed
members of the allocator are kept. -/
structure Keeps (keys : List Uint32) (before after : Allocator M) : Prop where
  size : Bus.size after.as = Bus.size before.as
  limit : after.limit = before.limit
  rootBlock : after.rootBlock = before.rootBlock
  byte : ∀ index, (∀ key ∈ keys, index < key.toNat ∨ key.toNat + 16 ≤ index) →
    Bus.byte after.as index = Bus.byte before.as index

/-- An allocator that is left alone keeps everything. -/
theorem keeps_refl (keys : List Uint32) (allocator : Allocator M) :
    Keeps keys allocator allocator := ⟨rfl, rfl, rfl, fun _ _ => rfl⟩

/-- One change after another keeps what both keep. -/
theorem keeps_trans {keys : List Uint32} {before middle after : Allocator M}
    (first : Keeps keys before middle) (second : Keeps keys middle after) :
    Keeps keys before after :=
  ⟨second.size.trans first.size, second.limit.trans first.limit,
    second.rootBlock.trans first.rootBlock,
    fun index outside => (second.byte index outside).trans (first.byte index outside)⟩

/-- More headers may have changed. -/
theorem keeps_mono {keys others : List Uint32} {before after : Allocator M}
    (kept : Keeps keys before after) (more : ∀ key ∈ keys, key ∈ others) :
    Keeps others before after :=
  ⟨kept.size, kept.limit, kept.rootBlock,
    fun index outside => kept.byte index fun key member => outside key (more key member)⟩

/-- Headers are in memory before and after alike. -/
theorem inside_keeps {keys : List Uint32} {before after : Allocator M} {key : Uint32}
    (kept : Keeps keys before after) : Inside after key ↔ Inside before key := by
  rw [Inside, Inside, kept.size]

/-- Loading a field of a header inside memory returns it. -/
theorem load_returns (allocator : Allocator M) (key offset : Uint32)
    (inside : Inside allocator key) (placed : Offset offset) :
    Returns (load (key + offset)) allocator (field allocator key offset) allocator := by
  obtain ⟨aligned, room⟩ := inside
  obtain ⟨multiple, small⟩ := placed
  have bounded := Bus.size_le allocator.as
  unfold Aligned at aligned
  have place : (key + offset).toNat = key.toNat + offset.toNat := by bv_omega
  rw [load, returns_atomic, Bus.get32_main _ _ (by omega) (by omega)]
  rfl

/-- The effect of storing one field. -/
structure Stores (before : Allocator M) (key offset value : Uint32) (after : Allocator M) :
    Prop where
  keeps : Keeps [key] before after
  lastBlock : after.lastBlock = before.lastBlock
  field : ∀ other another, Aligned other → Offset another → field after other another =
    if other = key ∧ another = offset then value else field before other another

/-- Storing a field of a header inside memory changes that field only. -/
theorem store_returns (allocator : Allocator M) (key offset value : Uint32)
    (inside : Inside allocator key) (placed : Offset offset) :
    ∃ after, Returns (store (key + offset) value) allocator () after ∧
      Stores allocator key offset value after := by
  obtain ⟨aligned, room⟩ := inside
  have bounded := Bus.size_le allocator.as
  have place : (key + offset).toNat = key.toNat + offset.toNat := by
    unfold Aligned at aligned
    obtain ⟨multiple, small⟩ := placed
    bv_omega
  have multiple : (key + offset).toNat % 4 = 0 := by
    unfold Aligned at aligned
    have := placed.1
    omega
  obtain ⟨after, done, size, same, others, bytes⟩ := Bus.put32_spec (key + offset) value
    allocator.as multiple (by have := placed.2; have := placed.1; unfold Aligned at aligned; omega)
  refine ⟨{ allocator with as := after }, ?_, ⟨size, rfl, rfl, ?_⟩, rfl, ?_⟩
  · rw [store, returns_atomic, done]
  · intro index outside
    have away := outside key (by simp)
    exact bytes index (by have := placed.2; have := placed.1; omega)
  · intro other another otherAligned anotherOffset
    by_cases here : other = key ∧ another = offset
    · obtain ⟨rfl, rfl⟩ := here
      rw [if_pos ⟨rfl, rfl⟩]
      exact same
    · rw [if_neg here]
      refine others _ ?_ fun coincide =>
        here ((field_address otherAligned aligned anotherOffset placed).mp coincide)
      unfold Aligned at otherAligned
      unfold Offset at anotherOffset
      bv_omega

/-- The lower neighbour of a block; below the null address is the last block. -/
def below (allocator : Allocator M) (key : Uint32) : Uint32 :=
  if key = 0 then allocator.lastBlock else field allocator key 0

/-- The upper neighbour of a block; above the null address is the root block. -/
def above (allocator : Allocator M) (key : Uint32) : Uint32 :=
  if key = 0 then allocator.rootBlock else field allocator key 12

/-- The offset of the link to the block below. -/
theorem offset_zero : Offset 0 := by simp [Offset]

/-- The offset of the owner. -/
theorem offset_four : Offset 4 := by simp [Offset]

/-- The offset of the end. -/
theorem offset_eight : Offset 8 := by simp [Offset]

/-- The offset of the link to the block above. -/
theorem offset_twelve : Offset 12 := by simp [Offset]

/-- All header fields at once: the two neighbours, the owners and the ends. -/
structure Views (allocator : Allocator M) (down up owner ends : Uint32 → Uint32) : Prop where
  below : ∀ key, key = 0 ∨ Aligned key → allocator.below key = down key
  above : ∀ key, key = 0 ∨ Aligned key → allocator.above key = up key
  owner : ∀ key, Aligned key → field allocator key 4 = owner key
  ends : ∀ key, Aligned key → field allocator key 8 = ends key

/-- An allocator's own fields are a view of it. -/
theorem views_self (allocator : Allocator M) : Views allocator allocator.below allocator.above
    (field allocator · 4) (field allocator · 8) :=
  ⟨fun _ _ => rfl, fun _ _ => rfl, fun _ _ => rfl, fun _ _ => rfl⟩

/-- The maps of the fields after a store to one field. -/
def setAt (here : Bool) (map : Uint32 → Uint32) (key value : Uint32) : Uint32 → Uint32 :=
  if here then fun other => if other = key then value else map other else map

/-- Other places are left alone. -/
theorem setAt_other (here : Bool) (map : Uint32 → Uint32) {key other : Uint32} (value : Uint32)
    (apart : other ≠ key) : setAt here map key value other = map other := by
  unfold setAt
  split
  · exact if_neg apart
  · rfl

/-- A value is set where the condition holds. -/
@[simp]
theorem setAt_true (map : Uint32 → Uint32) (key value other : Uint32) :
    setAt true map key value other = if other = key then value else map other := rfl

/-- Storing a field changes its own map at its own header. -/
theorem store_views {allocator : Allocator M} {down up owner ends : Uint32 → Uint32}
    (views : Views allocator down up owner ends) (key offset value : Uint32)
    (inside : Inside allocator key) (some : key ≠ 0) (placed : Offset offset) :
    ∃ after, Returns (store (key + offset) value) allocator () after ∧
      Keeps [key] allocator after ∧ Views after (setAt (offset = 0) down key value)
        (setAt (offset = 12) up key value) (setAt (offset = 4) owner key value)
        (setAt (offset = 8) ends key value) := by
  obtain ⟨after, stored, effect⟩ := store_returns allocator key offset value inside placed
  have changed (map : Uint32 → Uint32) (other another : Uint32) (aligned : Aligned other)
      (also : Offset another) (same : field allocator other another = map other) :
      field after other another = setAt (offset = another) map key value other := by
    rw [effect.field other another aligned also, same]
    by_cases here : another = offset
    · simp [setAt, here]
    · simp [setAt, here, Ne.symm here]
  refine ⟨after, stored, effect.keeps, ?_, ?_, ?_, ?_⟩
  · intro other known
    by_cases null : other = 0
    · have same := views.below 0 (Or.inl rfl)
      simp only [below, ↓reduceIte] at same
      rw [null, setAt_other _ _ _ some.symm, below, if_pos rfl, effect.lastBlock, same]
    · have aligned := known.resolve_left null
      have same := views.below other known
      rw [below, if_neg null] at same ⊢
      exact changed down other 0 aligned offset_zero same
  · intro other known
    by_cases null : other = 0
    · have same := views.above 0 (Or.inl rfl)
      simp only [above, ↓reduceIte] at same
      rw [null, setAt_other _ _ _ some.symm, above, if_pos rfl, effect.keeps.rootBlock, same]
    · have aligned := known.resolve_left null
      have same := views.above other known
      rw [above, if_neg null] at same ⊢
      exact changed up other 12 aligned offset_twelve same
  · exact fun other aligned => changed owner other 4 aligned offset_four (views.owner other aligned)
  · exact fun other aligned => changed ends other 8 aligned offset_eight (views.ends other aligned)

/-- Linking the block above, or the last block where there is none, is one change
of the lower neighbours. -/
theorem linkAbove_views {allocator : Allocator M} {down up owner ends : Uint32 → Uint32}
    (views : Views allocator down up owner ends) (next value : Uint32)
    (inside : next ≠ 0 → Inside allocator next) :
    ∃ after, Returns (if next ≠ 0 then store (next + 0) value else setLastBlock value)
        allocator () after ∧
      Keeps (if next = 0 then [] else [next]) allocator after ∧
      Views after (setAt true down next value) up owner ends := by
  by_cases null : next = 0
  · subst null
    refine ⟨{ allocator with lastBlock := value }, by simp [setLastBlock], ⟨rfl, rfl, rfl, ?_⟩,
      ?_, views.above, views.owner, views.ends⟩
    · exact fun _ _ => rfl
    · intro other known
      by_cases here : other = 0
      · simp [below, here, setAt]
      · have same := views.below other known
        simp only [below, here, ↓reduceIte, setAt] at same ⊢
        exact same
  · obtain ⟨after, stored, kept, changed⟩ :=
      store_views views next 0 value (inside null) null offset_zero
    rw [if_pos null, if_neg null]
    exact ⟨after, stored, kept, by simpa [setAt] using changed⟩

/-- `remove_block` links the two neighbours of the block to each other. -/
theorem removeBlock_views {allocator : Allocator M} {down up owner ends : Uint32 → Uint32}
    (views : Views allocator down up owner ends) (block : Uint32)
    (inside : Inside allocator block) (some : block ≠ 0)
    (prevInside : Inside allocator (down block)) (prevSome : down block ≠ 0)
    (nextInside : up block ≠ 0 → Inside allocator (up block)) :
    ∃ after, Returns (removeBlock block) allocator () after ∧
      Keeps (down block :: if up block = 0 then [] else [up block]) allocator after ∧
      Views after (setAt true down (up block) (down block))
        (setAt true up (down block) (up block)) owner ends := by
  have loadPrev := load_returns allocator block 0 inside offset_zero
  have loadNext := load_returns allocator block 12 inside offset_twelve
  have lower := views.below block (Or.inr inside.1)
  have upper := views.above block (Or.inr inside.1)
  rw [below, if_neg some] at lower
  rw [above, if_neg some] at upper
  rw [lower] at loadPrev
  rw [upper] at loadNext
  obtain ⟨middle, stored, first, changed⟩ :=
    store_views views (down block) 12 (up block) prevInside prevSome offset_twelve
  obtain ⟨after, linked, second, final⟩ := linkAbove_views changed (up block) (down block)
    fun above => (inside_keeps first).mpr (nextInside above)
  refine ⟨after, ?_, ?_, by simpa [setAt] using final⟩
  · exact returns_bind.mpr ⟨_, _, loadPrev, returns_bind.mpr ⟨_, _, loadNext,
      returns_bind.mpr ⟨_, _, stored, linked⟩⟩⟩
  · exact keeps_trans (keeps_mono first (by simp))
      (keeps_mono second fun key member => List.mem_cons_of_mem _ member)

/-- `make_block` fills the new header and links its neighbours to it. -/
theorem makeBlock_views {allocator : Allocator M} {down up owner ends : Uint32 → Uint32}
    (views : Views allocator down up owner ends) (block len prev parent : Uint32)
    (inside : Inside allocator block) (some : block ≠ 0) (prevInside : Inside allocator prev)
    (prevSome : prev ≠ 0)
    (nextInside : up prev ≠ 0 → Inside allocator (up prev)) :
    ∃ after, Returns (makeBlock block len prev parent) allocator () after ∧
      Keeps (block :: prev :: if up prev = 0 then [] else [up prev]) allocator after ∧
      Views after (setAt true (setAt true down block prev) (up prev) block)
        (setAt true (setAt true up block (up prev)) prev block)
        (setAt true owner block parent) (setAt true ends block (block + len)) := by
  have loadNext := load_returns allocator prev 12 prevInside offset_twelve
  have upper := views.above prev (Or.inr prevInside.1)
  rw [above, if_neg prevSome] at upper
  rw [upper] at loadNext
  obtain ⟨one, storedPrev, kept, views⟩ := store_views views block 0 prev inside some offset_zero
  have room : Inside one block := (inside_keeps kept).mpr inside
  obtain ⟨two, storedParent, next, views⟩ := store_views views block 4 parent room some offset_four
  have kept := keeps_trans kept next
  have room : Inside two block := (inside_keeps kept).mpr inside
  obtain ⟨three, storedBrk, next, views⟩ :=
    store_views views block 8 (block + len) room some offset_eight
  have kept := keeps_trans kept next
  have room : Inside three block := (inside_keeps kept).mpr inside
  obtain ⟨four, storedNext, next, views⟩ :=
    store_views views block 12 (up prev) room some offset_twelve
  have kept := keeps_trans kept next
  have room : Inside four prev := (inside_keeps kept).mpr prevInside
  obtain ⟨five, storedLink, next, views⟩ :=
    store_views views prev 12 block room prevSome offset_twelve
  have both : Keeps [block, prev] allocator four := keeps_mono kept (by simp)
  have kept := keeps_trans both (keeps_mono next (by simp))
  obtain ⟨after, linked, next, views⟩ := linkAbove_views views (up prev) block
    fun above => (inside_keeps kept).mpr (nextInside above)
  refine ⟨after, ?_, ?_, by simpa [setAt] using views⟩
  · exact returns_bind.mpr ⟨_, _, loadNext, returns_bind.mpr ⟨_, _, storedPrev,
      returns_bind.mpr ⟨_, _, storedParent, returns_bind.mpr ⟨_, _, storedBrk,
        returns_bind.mpr ⟨_, _, storedNext, returns_bind.mpr ⟨_, _, storedLink, linked⟩⟩⟩⟩⟩⟩
  · exact keeps_trans (keeps_mono kept (by simp))
      (keeps_mono next fun key member => List.mem_cons_of_mem _ (List.mem_cons_of_mem _ member))

end Vx68k.Allocator
