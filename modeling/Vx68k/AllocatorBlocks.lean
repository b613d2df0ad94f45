import Vx68k.AllocatorHeaders
import Vx68k.Forests

/-!
# Lists of blocks

What the headers in guest memory stand for: a list of blocks from the highest
address down. The blocks are stacked below the limit without overlap, the lowest
one is the root, and the owners form a forest over the live blocks. Allocation,
resizing and reclamation are edits of the list, and each keeps it sound.

Nothing in this module reads memory; the allocator's functions are connected to
the edits in `AllocatorChain`.
-/

namespace Vx68k.Allocator

open Forests

/-- A block: where its header starts, the block of its parent and its end. -/
structure Block where
  addr : Uint32
  parent : Uint32
  brk : Uint32
deriving DecidableEq

/-- The addresses of the blocks. -/
def keys (blocks : List Block) : List Uint32 := blocks.map Block.addr

/-- No blocks have no addresses. -/
@[simp]
theorem keys_nil : keys [] = [] := rfl

/-- The address of the first block comes first. -/
@[simp]
theorem keys_cons (block : Block) (rest : List Block) : keys (block :: rest) = block.addr :: keys rest :=
  rfl

/-- The addresses of blocks in two parts. -/
@[simp]
theorem keys_append (upper lower : List Block) : keys (upper ++ lower) = keys upper ++ keys lower :=
  List.map_append

/-- An address is one of the list if it is that of a block in it. -/
theorem mem_keys {key : Uint32} {blocks : List Block} :
    key ∈ keys blocks ↔ ∃ block ∈ blocks, block.addr = key := List.mem_map

/-- From the highest down, every block has an aligned header, ends above it and
ends at or below the ceiling, which is the header of the block before. -/
def Stacked (ceiling : Nat) : List Block → Prop
  | [] => True
  | block :: rest => Aligned block.addr ∧ block.addr.toNat + 16 ≤ block.brk.toNat ∧
      block.brk.toNat ≤ ceiling ∧ Stacked block.addr.toNat rest

/-- The lowest address used by blocks stacked below a ceiling. -/
def floor (ceiling : Uint32) (upper : List Block) : Uint32 := (keys upper).getLastD ceiling

/-- Below nothing is the ceiling. -/
@[simp]
theorem floor_nil (ceiling : Uint32) : floor ceiling [] = ceiling := rfl

/-- The floor of more blocks is that below the first of them. -/
@[simp]
theorem floor_cons (ceiling : Uint32) (block : Block) (rest : List Block) :
    floor ceiling (block :: rest) = floor block.addr rest := by
  rw [floor, floor, keys_cons, List.getLastD_cons]

/-- The last of some blocks is their floor. -/
@[simp]
theorem floor_concat (ceiling : Uint32) (upper : List Block) (block : Block) :
    floor ceiling (upper ++ [block]) = block.addr := by
  simp [floor]

/-- A higher ceiling is no obstacle. -/
theorem stacked_mono {ceiling higher : Nat} {blocks : List Block} (stacked : Stacked ceiling blocks)
    (room : ceiling ≤ higher) : Stacked higher blocks := by
  cases blocks with
  | nil => trivial
  | cons block rest => exact ⟨stacked.1, stacked.2.1, Nat.le_trans stacked.2.2.1 room, stacked.2.2.2⟩

/-- The lower part of a stack is stacked below the floor of the upper part. -/
theorem stacked_append (ceiling : Uint32) (upper lower : List Block) :
    Stacked ceiling.toNat (upper ++ lower) ↔
      Stacked ceiling.toNat upper ∧ Stacked (floor ceiling upper).toNat lower := by
  induction upper generalizing ceiling with
  | nil => simp [Stacked]
  | cons block rest inductionHypothesis =>
    rw [List.cons_append, Stacked, Stacked, floor_cons, inductionHypothesis block.addr]
    tauto

/-- Every header is aligned and ends below the ceiling. -/
theorem stacked_member {ceiling : Nat} {blocks : List Block} (stacked : Stacked ceiling blocks)
    {block : Block} (member : block ∈ blocks) : Aligned block.addr ∧
      block.addr.toNat + 16 ≤ block.brk.toNat ∧ block.brk.toNat ≤ ceiling := by
  induction blocks generalizing ceiling with
  | nil => simp at member
  | cons first rest inductionHypothesis =>
    obtain ⟨aligned, proper, bounded, later⟩ := stacked
    rcases List.mem_cons.mp member with rfl | inRest
    · exact ⟨aligned, proper, bounded⟩
    · obtain ⟨restAligned, restProper, restBounded⟩ := inductionHypothesis later inRest
      exact ⟨restAligned, restProper, by omega⟩

/-- Addresses fall along a stack. -/
theorem stacked_sorted {ceiling : Nat} {blocks : List Block} (stacked : Stacked ceiling blocks) :
    blocks.Pairwise fun upper lower => lower.brk.toNat ≤ upper.addr.toNat := by
  induction blocks generalizing ceiling with
  | nil => exact .nil
  | cons first rest inductionHypothesis =>
    obtain ⟨-, -, -, later⟩ := stacked
    exact .cons (fun other member => (stacked_member later member).2.2) (inductionHypothesis later)

/-- No two blocks of a stack have the same address. -/
theorem stacked_distinct {ceiling : Nat} {blocks : List Block} (stacked : Stacked ceiling blocks) :
    (keys blocks).Nodup := by
  refine List.pairwise_map.mpr (List.Pairwise.imp_of_mem ?_ (stacked_sorted stacked))
  intro upper lower _ member order same
  have proper := (stacked_member stacked member).2.1
  rw [same] at order
  omega

/-- No other block of a stack is at a block's address. -/
theorem stacked_alone {ceiling : Nat} {upper lower : List Block} {block : Block}
    (stacked : Stacked ceiling (upper ++ block :: lower)) : block.addr ∉ keys (upper ++ lower) := by
  have distinct := stacked_distinct stacked
  have moved : (keys (upper ++ block :: lower)).Perm (block.addr :: keys (upper ++ lower)) := by
    simp
  exact (List.nodup_cons.mp (moved.nodup_iff.mp distinct)).1

/-- Two blocks of a stack do not overlap. -/
theorem stacked_apart {ceiling : Nat} {blocks : List Block} (stacked : Stacked ceiling blocks)
    {one other : Block} (first : one ∈ blocks) (second : other ∈ blocks) :
    one = other ∨ one.brk.toNat ≤ other.addr.toNat ∨ other.brk.toNat ≤ one.addr.toNat := by
  refine List.Pairwise.forall_of_forall_of_flip (R := fun one other => one = other ∨
    one.brk.toNat ≤ other.addr.toNat ∨ other.brk.toNat ≤ one.addr.toNat) ?_ ?_ ?_ first second
  · exact fun block _ => Or.inl rfl
  · exact (stacked_sorted stacked).imp fun order => Or.inr (Or.inr order)
  · exact (stacked_sorted stacked).imp fun order => Or.inr (Or.inl order)

/-- The floor is not above the ceiling. -/
theorem floor_le {ceiling : Uint32} {upper : List Block} (stacked : Stacked ceiling.toNat upper) :
    (floor ceiling upper).toNat ≤ ceiling.toNat := by
  induction upper generalizing ceiling with
  | nil => exact Nat.le_refl _
  | cons block rest inductionHypothesis =>
    obtain ⟨-, proper, bounded, later⟩ := stacked
    have lower := inductionHypothesis later
    rw [floor_cons]
    omega

/-- Every block of a stack is at or above the floor. -/
theorem floor_le_member {ceiling : Uint32} {upper : List Block}
    (stacked : Stacked ceiling.toNat upper) {block : Block} (member : block ∈ upper) :
    (floor ceiling upper).toNat ≤ block.addr.toNat := by
  induction upper generalizing ceiling with
  | nil => simp at member
  | cons first rest inductionHypothesis =>
    rw [floor_cons]
    rcases List.mem_cons.mp member with rfl | inRest
    · exact floor_le stacked.2.2.2
    · exact inductionHypothesis stacked.2.2.2 inRest

/-- What is left of a stack is a stack. -/
theorem stacked_filter {ceiling : Nat} {blocks : List Block} (stacked : Stacked ceiling blocks)
    (keep : Block → Bool) : Stacked ceiling (blocks.filter keep) := by
  induction blocks generalizing ceiling with
  | nil => trivial
  | cons first rest inductionHypothesis =>
    obtain ⟨aligned, proper, bounded, later⟩ := stacked
    have left := inductionHypothesis later
    rw [List.filter_cons]
    split
    · exact ⟨aligned, proper, bounded, left⟩
    · exact stacked_mono left (by omega)

/-- A block other than the root names its parent. -/
def Owns (root : Uint32) (blocks : List Block) (child parent : Uint32) : Prop :=
  ∃ block ∈ blocks, block.addr ≠ root ∧ block.addr = child ∧ block.parent = parent

/-- A list of blocks as the allocator keeps it. -/
structure Sound (limit root : Uint32) (blocks : List Block) : Prop where
  stacked : Stacked limit.toNat blocks
  rootLast : (keys blocks).getLast? = some root
  rootParent : ∀ block ∈ blocks, block.addr = root → block.parent = 0
  housed : ∀ block ∈ blocks, block.addr ≠ root → block.parent ∈ keys blocks
  acyclic : Acyclic (Owns root blocks)

variable {limit root : Uint32} {blocks upper lower : List Block}

/-- The last block of a stack is the lowest. -/
theorem lowest_last (stacked : Stacked limit.toNat blocks)
    (rootLast : (keys blocks).getLast? = some root) {block : Block} (member : block ∈ blocks) :
    root.toNat ≤ block.addr.toNat := by
  have nonempty : blocks ≠ [] := List.ne_nil_of_mem member
  obtain ⟨front, last, rfl⟩ := (List.eq_nil_or_concat' blocks).resolve_left nonempty
  have lowest : last.addr = root := by simpa [keys] using rootLast
  have sorted := List.pairwise_append.mp (stacked_sorted stacked)
  rcases List.mem_append.mp member with inFront | isLast
  · have order := sorted.2.2 block inFront last (by simp)
    have proper := (stacked_member stacked (List.mem_append_right front (List.mem_singleton_self last))).2.1
    rw [← lowest]
    omega
  · rw [List.mem_singleton.mp isLast, lowest]

/-- The root is the lowest block. -/
theorem root_lowest (sound : Sound limit root blocks) {block : Block} (member : block ∈ blocks) :
    root.toNat ≤ block.addr.toNat := lowest_last sound.stacked sound.rootLast member

/-- The root is one of the blocks of a sound list. -/
theorem root_member (sound : Sound limit root blocks) : root ∈ keys blocks :=
  List.mem_of_getLast? sound.rootLast

/-- Two blocks at one address are one block. -/
theorem block_unique (stacked : Stacked limit.toNat blocks) {one other : Block}
    (first : one ∈ blocks) (second : other ∈ blocks) (same : one.addr = other.addr) : one = other :=
  List.inj_on_of_nodup_map (stacked_distinct stacked) first second same

/-- The part of a list that is kept when every kept block keeps its parent. -/
theorem sound_filter (sound : Sound limit root blocks) (keep : Block → Bool)
    (keepsRoot : ∀ block ∈ blocks, block.addr = root → keep block = true)
    (keepsParents : ∀ block ∈ blocks, keep block = true → block.addr ≠ root →
      ∀ parent ∈ blocks, parent.addr = block.parent → keep parent = true) :
    Sound limit root (blocks.filter keep) where
  stacked := stacked_filter sound.stacked keep
  rootLast := by
    obtain ⟨front, last, rfl⟩ := (List.eq_nil_or_concat' blocks).resolve_left
      (by rintro rfl; simpa using sound.rootLast)
    have lowest : last.addr = root := by simpa [keys] using sound.rootLast
    have kept := keepsRoot last (by simp) lowest
    simp [kept, keys, lowest]
  rootParent block member isRoot := sound.rootParent block (List.mem_of_mem_filter member) isRoot
  housed block member notRoot := by
    obtain ⟨inside, kept⟩ := List.mem_filter.mp member
    obtain ⟨parent, parentInside, same⟩ := mem_keys.mp (sound.housed block inside notRoot)
    exact mem_keys.mpr ⟨parent, List.mem_filter.mpr ⟨parentInside,
      keepsParents block inside kept notRoot parent parentInside same⟩, same⟩
  acyclic := by
    refine acyclic_mono ?_ sound.acyclic
    rintro child parent ⟨block, member, rest⟩
    exact ⟨block, List.mem_of_mem_filter member, rest⟩

/-- A block in a gap keeps the stack. -/
theorem stacked_insert (added below : Block) (stacked : Stacked limit.toNat (upper ++ below :: lower))
    (aligned : Aligned added.addr) (above : below.brk.toNat ≤ added.addr.toNat)
    (proper : added.addr.toNat + 16 ≤ added.brk.toNat)
    (fits : added.brk.toNat ≤ (floor limit upper).toNat) :
    Stacked limit.toNat (upper ++ added :: below :: lower) := by
  obtain ⟨top, belowAligned, belowProper, -, bottom⟩ := (stacked_append _ _ _).mp stacked
  exact (stacked_append _ _ _).mpr
    ⟨top, aligned, proper, fits, belowAligned, belowProper, above, bottom⟩

/-- An added block is the only new one. -/
theorem mem_insert {added other below : Block} :
    other ∈ upper ++ added :: below :: lower ↔ other = added ∨ other ∈ upper ++ below :: lower := by
  simp only [List.mem_append, List.mem_cons]
  tauto

/-- Dropping the one block at an address cuts it out of the list. -/
theorem filter_addr {block : Block} (stacked : Stacked limit.toNat (upper ++ block :: lower)) :
    (upper ++ block :: lower).filter (fun other => other.addr ≠ block.addr) = upper ++ lower := by
  have apart : ∀ other ∈ upper ++ lower, other.addr ≠ block.addr := by
    intro other member same
    exact stacked_alone stacked (mem_keys.mpr ⟨other, member, same⟩)
  have kept : ∀ part : List Block, (∀ other ∈ part, other ∈ upper ++ lower) →
      part.filter (fun other => other.addr ≠ block.addr) = part := by
    intro part inside
    exact List.filter_eq_self.mpr fun other member => by simpa using apart other (inside other member)
  rw [List.filter_append, List.filter_cons, kept upper fun _ => List.mem_append_left _,
    kept lower fun _ => List.mem_append_right _]
  simp

/-- A block that owns no other is cut out. -/
theorem sound_remove {block : Block} (sound : Sound limit root (upper ++ block :: lower))
    (notRoot : block.addr ≠ root)
    (unowned : ∀ other ∈ upper ++ lower, other.addr ≠ root → other.parent ≠ block.addr) :
    Sound limit root (upper ++ lower) := by
  rw [← filter_addr sound.stacked]
  apply sound_filter sound
  · intro other _ isRoot
    simpa [isRoot] using notRoot.symm
  · intro other member kept otherNotRoot parent _ same
    have inside : other ∈ upper ++ lower := by
      rw [← filter_addr sound.stacked]
      exact List.mem_filter.mpr ⟨member, kept⟩
    simpa [same] using unowned other inside otherNotRoot

/-- A block added into a gap, owned by a live block.

Proof: the new block is a leaf of the forest, since its address was no block's and
so no block's owner. -/
theorem sound_insert (added below : Block) (sound : Sound limit root (upper ++ below :: lower))
    (aligned : Aligned added.addr) (above : below.brk.toNat ≤ added.addr.toNat)
    (proper : added.addr.toNat + 16 ≤ added.brk.toNat)
    (fits : added.brk.toNat ≤ (floor limit upper).toNat)
    (owned : added.parent ∈ keys (upper ++ below :: lower)) :
    Sound limit root (upper ++ added :: below :: lower) := by
  have stacked := stacked_insert added below sound.stacked aligned above proper fits
  have fresh := stacked_alone stacked
  have more : ∀ key, key ∈ keys (upper ++ below :: lower) →
      key ∈ keys (upper ++ added :: below :: lower) := by
    intro key member
    obtain ⟨block, inside, same⟩ := mem_keys.mp member
    exact mem_keys.mpr ⟨block, mem_insert.mpr (Or.inr inside), same⟩
  refine ⟨stacked, by simpa [keys, List.getLast?_append] using sound.rootLast, ?_, ?_, ?_⟩
  · intro block member isRoot
    rcases mem_insert.mp member with rfl | old
    · exact absurd (isRoot ▸ root_member sound) fresh
    · exact sound.rootParent block old isRoot
  · intro block member notRoot
    rcases mem_insert.mp member with rfl | old
    · exact more _ owned
    · exact more _ (sound.housed block old notRoot)
  · obtain ⟨rank, ranks⟩ := acyclic_ranks (keys (upper ++ below :: lower))
      (by rintro child parent ⟨block, member, -, same, -⟩; exact mem_keys.mpr ⟨block, member, same⟩)
      sound.acyclic
    refine acyclic_mono ?_ (ranks_acyclic (ranks_leaf added.addr added.parent
      ranks ?_ (by rintro same; exact fresh (same ▸ owned))))
    · rintro child parent ⟨block, member, notRoot, rfl, rfl⟩
      rcases mem_insert.mp member with rfl | old
      · exact Or.inr ⟨rfl, rfl⟩
      · exact Or.inl ⟨block, old, notRoot, rfl, rfl⟩
    · intro other
      constructor
      · rintro ⟨block, member, -, same, -⟩
        exact fresh (mem_keys.mpr ⟨block, member, same⟩)
      · rintro ⟨block, member, notRoot, -, same⟩
        exact fresh (same ▸ sound.housed block member notRoot)

/-- A block whose end is moved within its room. -/
theorem sound_resize (block : Block) (brk : Uint32)
    (sound : Sound limit root (upper ++ block :: lower))
    (proper : block.addr.toNat + 16 ≤ brk.toNat) (fits : brk.toNat ≤ (floor limit upper).toNat) :
    Sound limit root (upper ++ { block with brk := brk } :: lower) := by
  obtain ⟨top, aligned, -, -, bottom⟩ := (stacked_append _ _ _).mp sound.stacked
  have same : keys (upper ++ { block with brk := brk } :: lower) = keys (upper ++ block :: lower) := by
    simp
  have relatives : ∀ other ∈ upper ++ { block with brk := brk } :: lower,
      ∃ old ∈ upper ++ block :: lower, old.addr = other.addr ∧ old.parent = other.parent := by
    intro other member
    simp only [List.mem_append, List.mem_cons] at member
    rcases member with inUpper | rfl | inLower
    · exact ⟨other, by simp [inUpper], rfl, rfl⟩
    · exact ⟨block, by simp, rfl, rfl⟩
    · exact ⟨other, by simp [inLower], rfl, rfl⟩
  refine ⟨(stacked_append _ _ _).mpr ⟨top, aligned, proper, fits, bottom⟩,
    same ▸ sound.rootLast, ?_, ?_, ?_⟩
  · intro other member isRoot
    obtain ⟨old, inside, addr, parent⟩ := relatives other member
    exact parent ▸ sound.rootParent old inside (addr ▸ isRoot)
  · intro other member notRoot
    obtain ⟨old, inside, addr, parent⟩ := relatives other member
    rw [same, ← parent]
    exact sound.housed old inside (addr ▸ notRoot)
  · refine acyclic_mono ?_ sound.acyclic
    rintro child parent ⟨other, member, notRoot, rfl, rfl⟩
    obtain ⟨old, inside, addr, owner⟩ := relatives other member
    exact ⟨old, inside, addr ▸ notRoot, addr, owner⟩

/-- The first gap from above that holds a length, filled with a block of that
length; the new block and the new list. -/
def firstFit (len parent : Uint32) (ceiling : Uint32) : List Block → Option (Block × List Block)
  | [] => none
  | block :: rest =>
    let candidate := alignUp block.brk
    if ceiling - candidate ≥ len then
      let added : Block := ⟨candidate, parent, candidate + len⟩
      some (added, added :: block :: rest)
    else (firstFit len parent block.addr rest).map fun found => (found.1, block :: found.2)

/-- The largest gap, at least as large as the one known. -/
def widest (known : Uint32) (ceiling : Uint32) : List Block → Uint32
  | [] => known
  | block :: rest =>
    let gap := ceiling - alignUp block.brk
    widest (if gap > known then gap else known) block.addr rest

/-- The largest gap above a known length, the first one of that size from above,
filled with one block; the new block and the new list. -/
def fillWidest (parent : Uint32) (known ceiling : Uint32) : List Block → Option (Block × List Block)
  | [] => none
  | block :: rest =>
    let candidate := alignUp block.brk
    let gap := ceiling - candidate
    if gap > known then
      match fillWidest parent gap block.addr rest with
      | some found => some (found.1, block :: found.2)
      | none =>
        let added : Block := ⟨candidate, parent, candidate + gap⟩
        some (added, added :: block :: rest)
    else (fillWidest parent known block.addr rest).map fun found => (found.1, block :: found.2)

/-- The blocks without those that descend from an owner. -/
noncomputable def withoutDescendants (root owner : Uint32) (blocks : List Block) : List Block :=
  open Classical in blocks.filter fun block => ¬ Descends (Owns root blocks) block.addr owner

/-- The blocks without an owner and those that descend from it. -/
noncomputable def withoutSubtree (root owner : Uint32) (blocks : List Block) : List Block :=
  open Classical in blocks.filter fun block =>
    block.addr ≠ owner ∧ ¬ Descends (Owns root blocks) block.addr owner

/-- The root descends from nothing. -/
theorem root_no_descendant (owner : Uint32) : ¬ Descends (Owns root blocks) root owner := by
  intro descends
  obtain ⟨parent, ⟨block, -, notRoot, same, -⟩, -⟩ := Relation.TransGen.head'_iff.mp descends
  exact notRoot same

/-- Reclaiming all descendants of an owner keeps a list sound. -/
theorem sound_withoutDescendants (sound : Sound limit root blocks) (owner : Uint32) :
    Sound limit root (withoutDescendants root owner blocks) := by
  classical
  apply sound_filter sound
  · intro block _ isRoot
    simpa [isRoot] using @root_no_descendant _ blocks owner
  · intro block member kept notRoot parent _ same
    simp only [decide_eq_true_eq] at kept ⊢
    intro descends
    exact kept (.head ⟨block, member, notRoot, rfl, same.symm⟩ descends)

/-- An owner without children has no descendants to lose. -/
theorem withoutDescendants_self {owner : Uint32}
    (unowned : ∀ block ∈ blocks, block.addr ≠ root → block.parent ≠ owner) :
    withoutDescendants root owner blocks = blocks := by
  classical
  apply List.filter_eq_self.mpr
  intro block _
  rw [decide_eq_true_eq]
  apply no_children_descends
  rintro child ⟨other, member, notRoot, -, same⟩
  exact unowned other member notRoot same

/-- A block stays when its descendants go, and so does the order of the others. -/
theorem withoutDescendants_split {block : Block} (acyclic : Acyclic (Owns root (upper ++ block :: lower))) :
    ∃ above below, withoutDescendants root block.addr (upper ++ block :: lower) =
        above ++ block :: below ∧
      (∀ other ∈ above, other ∈ upper) ∧ below.length ≤ lower.length := by
  classical
  refine ⟨upper.filter fun other => ¬ Descends (Owns root (upper ++ block :: lower)) other.addr
      block.addr, lower.filter fun other => ¬ Descends (Owns root (upper ++ block :: lower))
      other.addr block.addr, ?_, fun other member => List.mem_of_mem_filter member,
    List.length_filter_le _ _⟩
  rw [withoutDescendants, List.filter_append, List.filter_cons]
  simp [acyclic block.addr]

/-- Leaving out descendants adds no block. -/
theorem withoutDescendants_keys {owner key : Uint32}
    (member : key ∈ keys (withoutDescendants root owner blocks)) : key ∈ keys blocks := by
  obtain ⟨block, inside, same⟩ := mem_keys.mp member
  exact mem_keys.mpr ⟨block, List.mem_of_mem_filter inside, same⟩

/-- Leaving out a block and its descendants adds none either. -/
theorem withoutSubtree_keys {owner key : Uint32}
    (member : key ∈ keys (withoutSubtree root owner blocks)) : key ∈ keys blocks := by
  obtain ⟨block, inside, same⟩ := mem_keys.mp member
  exact mem_keys.mpr ⟨block, List.mem_of_mem_filter inside, same⟩

/-- In what is left, nobody names the owner. -/
theorem withoutDescendants_unowned {owner : Uint32} {block : Block}
    (member : block ∈ withoutDescendants root owner blocks) (notRoot : block.addr ≠ root) :
    block.parent ≠ owner := by
  classical
  obtain ⟨inside, kept⟩ := List.mem_filter.mp member
  rintro rfl
  simp only [decide_eq_true_eq] at kept
  exact kept (.single ⟨block, inside, notRoot, rfl, rfl⟩)

/-- Losing the descendants of a block and then the block is losing its subtree. -/
theorem withoutSubtree_steps (owner : Uint32) : withoutSubtree root owner blocks =
    (withoutDescendants root owner blocks).filter (fun block => block.addr ≠ owner) := by
  classical
  rw [withoutSubtree, withoutDescendants, List.filter_filter]
  congr 1
  funext block
  by_cases same : block.addr = owner <;> simp [same]

/-- Who owns whom in what is left of a subtree. -/
theorem owns_withoutSubtree (owner child parent : Uint32) :
    Owns root (withoutSubtree root owner blocks) child parent ↔
      Owns root blocks child parent ∧ child ≠ owner ∧ ¬ Descends (Owns root blocks) child owner := by
  classical
  constructor
  · rintro ⟨block, member, notRoot, rfl, rfl⟩
    obtain ⟨inside, kept⟩ := List.mem_filter.mp member
    exact ⟨⟨block, inside, notRoot, rfl, rfl⟩, by simpa using kept⟩
  · rintro ⟨⟨block, inside, notRoot, rfl, rfl⟩, kept⟩
    exact ⟨block, List.mem_filter.mpr ⟨inside, by simpa using kept⟩, notRoot, rfl, rfl⟩

/-- Losing a child's subtree first makes no difference to an owner's descendants. -/
theorem withoutDescendants_child {child owner : Uint32} (owned : Owns root blocks child owner) :
    withoutDescendants root owner (withoutSubtree root child blocks) =
      withoutDescendants root owner blocks := by
  classical
  rw [withoutDescendants, withoutDescendants, withoutSubtree, List.filter_filter]
  apply List.filter_congr
  intro block member
  rw [← withoutSubtree]
  have prune (outside : block.addr ≠ child ∧ ¬ Descends (Owns root blocks) block.addr child) :
      Descends (Owns root (withoutSubtree root child blocks)) block.addr owner ↔
        Descends (Owns root blocks) block.addr owner :=
    descends_prune (fun one other => owns_withoutSubtree child one other) outside
  by_cases outside : block.addr ≠ child ∧ ¬ Descends (Owns root blocks) block.addr child
  · simp [outside, prune outside]
  · have inside : Descends (Owns root blocks) block.addr owner := by
      by_cases same : block.addr = child
      · exact .single (same ▸ owned)
      · exact Relation.TransGen.tail (not_not.mp fun away => outside ⟨same, away⟩) owned
    simp [outside, inside]

/-- No gap of a list is as long as a length. -/
def Full (len : Uint32) (ceiling : Uint32) : List Block → Prop
  | [] => True
  | block :: rest => ceiling - alignUp block.brk < len ∧ Full len block.addr rest

/-- Every gap of a full list is too short. -/
theorem full_iff {len ceiling : Uint32} : Full len ceiling blocks ↔
    ∀ upper block lower, blocks = upper ++ block :: lower →
      floor ceiling upper - alignUp block.brk < len := by
  induction blocks generalizing ceiling with
  | nil =>
    constructor
    · intro _ upper block lower shape
      simp at shape
    · exact fun _ => trivial
  | cons first rest inductionHypothesis =>
    rw [Full, inductionHypothesis]
    constructor
    · rintro ⟨short, others⟩ upper block lower shape
      cases upper with
      | nil =>
        obtain ⟨rfl, rfl⟩ := List.cons.inj shape
        exact short
      | cons above upper =>
        obtain ⟨rfl, rfl⟩ := List.cons.inj shape
        rw [floor_cons]
        exact others upper block lower rfl
    · intro short
      constructor
      · exact short [] first rest rfl
      · intro upper block lower shape
        have later := short (first :: upper) block lower (by rw [shape]; rfl)
        rwa [floor_cons] at later

/-- First fit fails exactly on full lists. -/
theorem firstFit_none {len parent ceiling : Uint32} :
    firstFit len parent ceiling blocks = none ↔ Full len ceiling blocks := by
  induction blocks generalizing ceiling with
  | nil => simp [firstFit, Full]
  | cons block rest inductionHypothesis =>
    rw [firstFit, Full]
    by_cases enough : ceiling - alignUp block.brk ≥ len
    · simp only [enough, ↓reduceIte]
      constructor
      · intro none
        exact absurd none (by simp)
      · rintro ⟨short, -⟩
        exact absurd enough (BitVec.not_le.mpr short)
    · simp only [enough, ↓reduceIte, Option.map_eq_none_iff, inductionHypothesis]
      exact ⟨fun full => ⟨BitVec.not_le.mp enough, full⟩, fun full => full.2⟩

/-- The widest gap falls short of a length exactly when the known one and every gap
do. -/
theorem widest_lt {known len ceiling : Uint32} :
    widest known ceiling blocks < len ↔ known < len ∧ Full len ceiling blocks := by
  induction blocks generalizing known ceiling with
  | nil => simp [widest, Full]
  | cons block rest inductionHypothesis =>
    rw [widest, inductionHypothesis, Full]
    by_cases more : ceiling - alignUp block.brk > known
    · rw [if_pos more]
      exact ⟨fun ⟨short, full⟩ => ⟨BitVec.lt_trans more short, short, full⟩,
        fun ⟨_, short, full⟩ => ⟨short, full⟩⟩
    · rw [if_neg more]
      have less := BitVec.not_lt.mp more
      exact ⟨fun ⟨short, full⟩ => ⟨short, by bv_omega, full⟩,
        fun ⟨short, _, full⟩ => ⟨short, full⟩⟩

/-- The widest gap is as long as the known one. -/
theorem known_le_widest (known ceiling : Uint32) (blocks : List Block) :
    known ≤ widest known ceiling blocks := by
  apply BitVec.not_lt.mp
  intro less
  exact absurd (widest_lt.mp less).1 (BitVec.lt_irrefl _)

/-- A widest gap beyond the known one is found by first fit. -/
theorem firstFit_widest {known ceiling : Uint32} (parent : Uint32)
    (wider : widest known ceiling blocks ≠ known) :
    firstFit (widest known ceiling blocks) parent ceiling blocks ≠ none := by
  rw [Ne, firstFit_none]
  intro full
  have longer : known < widest known ceiling blocks := by
    have least := known_le_widest known ceiling blocks
    bv_omega
  exact BitVec.lt_irrefl _ (widest_lt.mpr ⟨longer, full⟩)

/-- Filling the widest gap is first fit for its length.

Proof: by induction on the list. The search for the widest gap goes on below a gap
wider than all known ones; first fit for the final width passes that gap if a wider
one follows, and takes it otherwise. -/
theorem fillWidest_firstFit (parent known ceiling : Uint32) (blocks : List Block) :
    fillWidest parent known ceiling blocks =
      if widest known ceiling blocks = known then none
      else firstFit (widest known ceiling blocks) parent ceiling blocks := by
  induction blocks generalizing known ceiling with
  | nil => simp [fillWidest, widest]
  | cons block rest inductionHypothesis =>
    rw [fillWidest, widest, firstFit]
    by_cases more : ceiling - alignUp block.brk > known
    · have least := known_le_widest (ceiling - alignUp block.brk) block.addr rest
      have longer : widest (ceiling - alignUp block.brk) block.addr rest ≠ known := by
        intro same
        rw [same] at least
        exact absurd more (BitVec.not_lt.mpr least)
      simp only [more, ↓reduceIte, longer, inductionHypothesis]
      by_cases last : widest (ceiling - alignUp block.brk) block.addr rest =
          ceiling - alignUp block.brk
      · simp [last]
      · have passes : ¬ widest (ceiling - alignUp block.brk) block.addr rest ≤
            ceiling - alignUp block.brk :=
          fun less => last (BitVec.le_antisymm less least)
        have found := firstFit_widest parent last
        simp only [last, ↓reduceIte, passes]
        cases later : firstFit (widest (ceiling - alignUp block.brk) block.addr rest) parent
            block.addr rest with
        | none => exact absurd later found
        | some result => rfl
    · simp only [more, ↓reduceIte, inductionHypothesis]
      by_cases same : widest known block.addr rest = known
      · simp [same]
      · have longer : known < widest known block.addr rest := by
          have least := known_le_widest known block.addr rest
          bv_omega
        have passes : ¬ widest known block.addr rest ≤ ceiling - alignUp block.brk :=
          fun less => more (by bv_omega)
        simp only [same, ↓reduceIte, passes]

/-- What first fit finds: the gap above some block, wide enough. -/
theorem firstFit_some {len parent ceiling : Uint32} {added : Block} {result : List Block}
    (found : firstFit len parent ceiling blocks = some (added, result)) :
    ∃ upper block lower, blocks = upper ++ block :: lower ∧
      result = upper ++ added :: block :: lower ∧
      added = ⟨alignUp block.brk, parent, alignUp block.brk + len⟩ := by
  induction blocks generalizing ceiling result with
  | nil => simp [firstFit] at found
  | cons block rest inductionHypothesis =>
    rw [firstFit] at found
    by_cases enough : ceiling - alignUp block.brk ≥ len
    · simp only [enough, ↓reduceIte, Option.some.injEq, Prod.mk.injEq] at found
      obtain ⟨rfl, rfl⟩ := found
      exact ⟨[], block, rest, rfl, rfl, rfl⟩
    · simp only [enough, ↓reduceIte] at found
      obtain ⟨⟨inner, after⟩, later, same⟩ := Option.map_eq_some_iff.mp found
      obtain ⟨rfl, rfl⟩ := Prod.mk.inj same
      obtain ⟨upper, other, lower, rfl, shape, same⟩ := inductionHypothesis later
      exact ⟨block :: upper, other, lower, rfl, by rw [shape]; rfl, same⟩

/-- What the widest fit finds: all of the gap above some block. -/
theorem fillWidest_some {parent known ceiling : Uint32} {added : Block} {result : List Block}
    (found : fillWidest parent known ceiling blocks = some (added, result)) :
    ∃ upper block lower, blocks = upper ++ block :: lower ∧
      result = upper ++ added :: block :: lower ∧
      added = ⟨alignUp block.brk, parent, floor ceiling upper⟩ ∧
      known < floor ceiling upper - alignUp block.brk := by
  induction blocks generalizing known ceiling result with
  | nil => simp [fillWidest] at found
  | cons block rest inductionHypothesis =>
    rw [fillWidest] at found
    by_cases more : ceiling - alignUp block.brk > known
    · simp only [more, ↓reduceIte] at found
      split at found
      · rename_i inner later
        obtain ⟨rfl, rfl⟩ := Prod.mk.inj (Option.some.inj found)
        obtain ⟨upper, other, lower, rfl, shape, same, wider⟩ := inductionHypothesis later
        exact ⟨block :: upper, other, lower, rfl, by rw [shape]; rfl, by rw [floor_cons]; exact same,
          by rw [floor_cons]; exact BitVec.lt_trans more wider⟩
      · obtain ⟨rfl, rfl⟩ := Prod.mk.inj (Option.some.inj found)
        exact ⟨[], block, rest, rfl, rfl, by rw [floor_nil]; congr 1; bv_omega, more⟩
    · simp only [more, ↓reduceIte] at found
      obtain ⟨⟨inner, after⟩, later, same⟩ := Option.map_eq_some_iff.mp found
      obtain ⟨rfl, rfl⟩ := Prod.mk.inj same
      obtain ⟨upper, other, lower, rfl, shape, same, wider⟩ := inductionHypothesis later
      exact ⟨block :: upper, other, lower, rfl, by rw [shape]; rfl, by rw [floor_cons]; exact same,
        by rw [floor_cons]; exact wider⟩

/-- A block belongs to the subtree of an owner: it is the owner or descends from it. -/
def Within (root : Uint32) (blocks : List Block) (owner key : Uint32) : Prop :=
  key = owner ∨ Descends (Owns root blocks) key owner

/-- What belongs to the subtree of a live block is live. -/
theorem within_keys {owner key : Uint32} (live : owner ∈ keys blocks)
    (within : Within root blocks owner key) : key ∈ keys blocks := by
  rcases within with rfl | descends
  · exact live
  · obtain ⟨parent, ⟨block, member, -, same, -⟩, -⟩ := Relation.TransGen.head'_iff.mp descends
    exact mem_keys.mpr ⟨block, member, same⟩

/-- The owners in a list with an added block. -/
theorem owns_insert (added below : Block) (new : added.addr ≠ root) (child parent : Uint32) :
    Owns root (upper ++ added :: below :: lower) child parent ↔
      Owns root (upper ++ below :: lower) child parent ∨
        child = added.addr ∧ parent = added.parent := by
  constructor
  · rintro ⟨block, member, notRoot, rfl, rfl⟩
    rcases mem_insert.mp member with rfl | old
    · exact Or.inr ⟨rfl, rfl⟩
    · exact Or.inl ⟨block, old, notRoot, rfl, rfl⟩
  · rintro (⟨block, member, rest⟩ | ⟨rfl, rfl⟩)
    · exact ⟨block, mem_insert.mpr (Or.inr member), rest⟩
    · exact ⟨added, by simp, new, rfl, rfl⟩

/-- An added block is at a new address, which is not the root's. -/
theorem insert_fresh (added below : Block) (sound : Sound limit root (upper ++ below :: lower))
    (more : Sound limit root (upper ++ added :: below :: lower)) :
    added.addr ∉ keys (upper ++ below :: lower) ∧ added.addr ≠ root := by
  have fresh := stacked_alone more.stacked
  exact ⟨fresh, fun isRoot => fresh (isRoot ▸ root_member sound)⟩

/-- An added block keeps every other block's place in the forest. -/
theorem descends_insert (added below : Block) (sound : Sound limit root (upper ++ below :: lower))
    (more : Sound limit root (upper ++ added :: below :: lower)) {key owner : Uint32}
    (old : key ≠ added.addr) :
    Descends (Owns root (upper ++ added :: below :: lower)) key owner ↔
      Descends (Owns root (upper ++ below :: lower)) key owner := by
  obtain ⟨fresh, new⟩ := insert_fresh added below sound more
  refine descends_leaf (owns_insert added below new) ?_ old
  rintro other ⟨block, member, notRoot, -, same⟩
  exact fresh (same ▸ sound.housed block member notRoot)

/-- A block added to a subtree leaves the rest as it was. -/
theorem withoutSubtree_insert (added below : Block)
    (sound : Sound limit root (upper ++ below :: lower))
    (more : Sound limit root (upper ++ added :: below :: lower)) {owner : Uint32}
    (within : Within root (upper ++ below :: lower) owner added.parent) :
    withoutSubtree root owner (upper ++ added :: below :: lower) =
      withoutSubtree root owner (upper ++ below :: lower) := by
  classical
  obtain ⟨fresh, new⟩ := insert_fresh added below sound more
  have step : Owns root (upper ++ added :: below :: lower) added.addr added.parent :=
    (owns_insert added below new _ _).mpr (Or.inr ⟨rfl, rfl⟩)
  have inside : Descends (Owns root (upper ++ added :: below :: lower)) added.addr owner := by
    rcases within with same | descends
    · exact .single (same ▸ step)
    · exact .head step (descends_mono (fun child parent old =>
        (owns_insert added below new child parent).mpr (Or.inl old)) descends)
  have same (part : List Block) (old : ∀ block ∈ part, block ∈ upper ++ below :: lower) :
      part.filter (fun block => block.addr ≠ owner ∧
        ¬ Descends (Owns root (upper ++ added :: below :: lower)) block.addr owner) =
      part.filter (fun block => block.addr ≠ owner ∧
        ¬ Descends (Owns root (upper ++ below :: lower)) block.addr owner) := by
    apply List.filter_congr
    intro block member
    have apart : block.addr ≠ added.addr := by
      intro same
      exact fresh (mem_keys.mpr ⟨block, old block member, same⟩)
    rw [descends_insert added below sound more apart]
  rw [withoutSubtree, withoutSubtree, List.filter_append, List.filter_append, List.filter_cons,
    same upper fun _ => List.mem_append_left _, same (below :: lower) fun _ => List.mem_append_right _]
  simp [inside]

/-- A block just added owns nothing, so its subtree is itself. -/
theorem withoutSubtree_added (added below : Block)
    (sound : Sound limit root (upper ++ below :: lower))
    (more : Sound limit root (upper ++ added :: below :: lower)) :
    withoutSubtree root added.addr (upper ++ added :: below :: lower) = upper ++ below :: lower := by
  obtain ⟨fresh, new⟩ := insert_fresh added below sound more
  rw [withoutSubtree_steps, withoutDescendants_self ?_, filter_addr more.stacked]
  intro block member notRoot same
  have other : block ≠ added := by
    rintro rfl
    have step : Owns root (upper ++ block :: below :: lower) block.addr block.addr :=
      ⟨block, member, notRoot, rfl, same⟩
    exact more.acyclic block.addr (.single step)
  exact fresh (same ▸ sound.housed block ((mem_insert.mp member).resolve_left other) notRoot)

/-- Moving the end of a block changes no owner. -/
theorem owns_resize (block : Block) (brk child parent : Uint32) :
    Owns root (upper ++ { block with brk := brk } :: lower) child parent ↔
      Owns root (upper ++ block :: lower) child parent := by
  constructor
  · rintro ⟨other, member, rest⟩
    simp only [List.mem_append, List.mem_cons] at member
    rcases member with inUpper | rfl | inLower
    · exact ⟨other, by simp [inUpper], rest⟩
    · exact ⟨block, by simp, rest⟩
    · exact ⟨other, by simp [inLower], rest⟩
  · rintro ⟨other, member, rest⟩
    simp only [List.mem_append, List.mem_cons] at member
    rcases member with inUpper | rfl | inLower
    · exact ⟨other, by simp [inUpper], rest⟩
    · exact ⟨{ other with brk := brk }, by simp, rest⟩
    · exact ⟨other, by simp [inLower], rest⟩

/-- Moving the end of a block of a subtree leaves the rest as it was. -/
theorem withoutSubtree_resize (block : Block) (brk : Uint32) {owner : Uint32}
    (within : Within root (upper ++ block :: lower) owner block.addr) :
    withoutSubtree root owner (upper ++ { block with brk := brk } :: lower) =
      withoutSubtree root owner (upper ++ block :: lower) := by
  classical
  have relation : Owns root (upper ++ { block with brk := brk } :: lower) =
      Owns root (upper ++ block :: lower) := by
    funext child parent
    exact propext (owns_resize block brk child parent)
  rw [withoutSubtree, withoutSubtree, relation, List.filter_append, List.filter_append,
    List.filter_cons, List.filter_cons]
  rcases within with same | descends
  · simp [same]
  · simp [descends]

end Vx68k.Allocator
