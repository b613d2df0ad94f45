import Vx68k.Allocator
import Vx68k.Orbits

/-!
# Termination over corrupted headers

Guest programs can overwrite block headers, so the links that a walk follows are
arbitrary. The walks of `alloc`, `alloc_largest` and `resize` remember the block
they come from and stop at a link that does not lead below it; they end for every
content of memory. The walk of `free` compares every block with the limit only, so
it ends exactly when the links do not lead into a circle.

The only assumption is that a long word read successfully lies in main memory,
which is below 2^24; without it the address of a block could wrap.
-/

namespace Vx68k.Allocator

open Programs Orbits

variable {M : Type} [Bus M]

/-- Long words are read from main memory only. -/
def ReadsMain (as : M) : Prop :=
  ∀ address value, Bus.get32 as address = .ok value →
    address.toNat % 4 = 0 ∧ address.toNat < Bus.size as

/-- A load halts. -/
theorem halts_load (address : Uint32) (allocator : Allocator M) : Halts (load address) allocator :=
  halts_atomic _ _

/-- So does a store. -/
theorem halts_store (address value : Uint32) (allocator : Allocator M) :
    Halts (store address value) allocator := halts_atomic _ _

omit [Bus M] in
/-- So does a mere answer. -/
theorem halts_pure {α : Type} (value : α) (allocator : Allocator M) :
    Halts (pure value : Method M α) allocator := halts_atomic _ _

/-- `make_block` is a fixed number of accesses. -/
theorem halts_makeBlock (block len prev parent : Uint32) (allocator : Allocator M) :
    Halts (makeBlock block len prev parent) allocator := by
  apply halts_bind (halts_load _ _)
  intro next _ _
  refine halts_bind (halts_store _ _ _) fun _ _ _ => halts_bind (halts_store _ _ _) fun _ _ _ =>
    halts_bind (halts_store _ _ _) fun _ _ _ => halts_bind (halts_store _ _ _) fun _ _ _ =>
    halts_bind (halts_store _ _ _) fun _ _ _ => ?_
  split
  · exact halts_store _ _ _
  · exact halts_atomic _ _

/-- A block that was read lies sixteen bytes or more below what the guard allows. -/
theorem guarded_below {as : M} (reads : ReadsMain as) {block next below : Uint32}
    (guard : ¬ block + 0x10 > next) (read : Bus.get32 as (block + 0) = .ok below) :
    block.toNat < next.toNat := by
  obtain ⟨-, inside⟩ := reads _ _ read
  have bound := Bus.size_le as
  bv_omega

/-- A walk halts when each of its turns halts and either leaves or goes on, in the
same state, from the block it has read the link of. -/
theorem walk_halts {β α : Type} (body : β → Method M (Turn β α)) (walk : β → Walk)
    (allocator : Allocator M) (reads : ReadsMain allocator.as)
    (turnHalts : ∀ position, Halts (body position) allocator)
    (goesOn : ∀ position next after, Returns (body position) allocator (.again next) after →
      allocator = after ∧ ¬ (walk position).block + 0x10 > (walk position).next ∧
        ∃ below, Bus.get32 allocator.as ((walk position).block + 0) = .ok below ∧
          walk next = ⟨(walk position).block, below⟩)
    (position : β) : Halts (.loop body position) allocator := by
  refine loop_halts (fun _ state => allocator = state)
    (fun position _ => (walk position).next.toNat) ?_ ?_ position allocator rfl
  · rintro position state rfl
    exact turnHalts position
  · rintro position state next after rfl returned
    obtain ⟨same, guard, below, read, moved⟩ := goesOn position next after returned
    refine ⟨same, ?_⟩
    rw [moved]
    exact guarded_below reads guard read

/-- `alloc` ends for every content of memory. -/
theorem alloc_halts (allocator : Allocator M) (reads : ReadsMain allocator.as)
    (len parent : Uint32) : Halts (alloc len parent) allocator := by
  apply halts_bind (halts_atomic _ _)
  intro begun state returned
  obtain ⟨rfl, rfl⟩ := returns_state.mp returned
  refine walk_halts _ AllocWalk.toWalk allocator reads ?_ ?_ _
  · intro position
    unfold allocTurn
    split
    · exact halts_pure _ _
    split
    · exact halts_pure _ _
    apply halts_bind (halts_load _ _)
    intro brk middle _
    dsimp only
    split
    · exact halts_bind (halts_makeBlock _ _ _ _ _) fun _ _ _ => halts_pure _ _
    · exact halts_bind (halts_load _ _) fun _ _ _ => halts_pure _ _
  · intro position next after returned
    unfold allocTurn at returned
    split at returned
    · simp at returned
    split at returned
    · simp at returned
    rename_i guard
    obtain ⟨brk, middle, loaded, rest⟩ := returns_bind.mp returned
    obtain ⟨-, rfl⟩ := returns_load.mp loaded
    dsimp only at rest
    split at rest
    · obtain ⟨_, _, _, left⟩ := returns_bind.mp rest
      simp at left
    · obtain ⟨below, _, linked, on⟩ := returns_bind.mp rest
      obtain ⟨read, rfl⟩ := returns_load.mp linked
      obtain ⟨moved, same⟩ := returns_pure.mp on
      obtain rfl := Turn.again.inj moved
      exact ⟨same, guard, below, read, rfl⟩

/-- `alloc_largest` ends for every content of memory. -/
theorem allocLargest_halts (allocator : Allocator M) (reads : ReadsMain allocator.as)
    (parent : Uint32) : Halts (allocLargest parent) allocator := by
  apply halts_bind (halts_atomic _ _)
  intro begun state returned
  obtain ⟨rfl, rfl⟩ := returns_state.mp returned
  refine halts_bind ?_ fun walked after _ => ?_
  · refine walk_halts _ LargestWalk.toWalk allocator reads ?_ ?_ _
    · intro position
      unfold allocLargestTurn
      split
      · exact halts_pure _ _
      split
      · exact halts_pure _ _
      refine halts_bind (halts_load _ _) fun brk middle _ =>
        halts_bind (halts_load _ _) fun below last _ => ?_
      split
      · exact halts_pure _ _
      · exact halts_pure _ _
    · intro position next after returned
      unfold allocLargestTurn at returned
      split at returned
      · simp at returned
      split at returned
      · simp at returned
      rename_i guard
      obtain ⟨brk, middle, loaded, rest⟩ := returns_bind.mp returned
      obtain ⟨-, rfl⟩ := returns_load.mp loaded
      obtain ⟨below, _, linked, on⟩ := returns_bind.mp rest
      obtain ⟨read, rfl⟩ := returns_load.mp linked
      split at on
      · obtain ⟨moved, same⟩ := returns_pure.mp on
        obtain rfl := Turn.again.inj moved
        exact ⟨same, guard, below, read, rfl⟩
      · obtain ⟨moved, same⟩ := returns_pure.mp on
        obtain rfl := Turn.again.inj moved
        exact ⟨same, guard, below, read, rfl⟩
  · cases walked with
    | none => exact halts_pure _ _
    | some walk =>
      dsimp only
      split
      · exact halts_pure _ _
      · exact halts_bind (halts_makeBlock _ _ _ _ _) fun _ _ _ => halts_pure _ _

/-- `resize` ends for every content of memory. -/
theorem resize_halts (allocator : Allocator M) (reads : ReadsMain allocator.as)
    (memptr newlen : Uint32) : Halts (resize memptr newlen) allocator := by
  apply halts_bind (halts_atomic _ _)
  intro begun state returned
  obtain ⟨rfl, rfl⟩ := returns_state.mp returned
  refine walk_halts _ id allocator reads ?_ ?_ _
  · intro position
    unfold resizeTurn
    split
    · exact halts_pure _ _
    split
    · exact halts_pure _ _
    split
    · split
      · exact halts_pure _ _
      · exact halts_bind (halts_store _ _ _) fun _ _ _ => halts_pure _ _
    · exact halts_bind (halts_load _ _) fun _ _ _ => halts_pure _ _
  · intro position next after returned
    unfold resizeTurn at returned
    split at returned
    · simp at returned
    split at returned
    · simp at returned
    rename_i guard
    split at returned
    · split at returned
      · simp at returned
      · obtain ⟨_, _, _, left⟩ := returns_bind.mp returned
        simp at left
    · obtain ⟨below, _, linked, on⟩ := returns_bind.mp returned
      obtain ⟨read, rfl⟩ := returns_load.mp linked
      obtain ⟨moved, same⟩ := returns_pure.mp on
      obtain rfl := Turn.again.inj moved
      exact ⟨same, guard, below, read, rfl⟩

/-- Where the walk of `free` goes from a block that is not the one it looks for:
nowhere from the null address, from a block above the limit and from a block that
cannot be read. -/
def link (allocator : Allocator M) (block : Uint32) : Option Uint32 :=
  if block = 0 ∨ block + 0x10 > allocator.limit then none
  else (Bus.get32 allocator.as (block + 0)).toOption

/-- The blocks that the links lead to from the last block. -/
def OnChain (allocator : Allocator M) (block : Uint32) : Prop :=
  Visits (link allocator) allocator.lastBlock block

/-- The links lead from the last block into a circle. -/
def CircularChain (allocator : Allocator M) : Prop :=
  Circles (link allocator) allocator.lastBlock

/-- A turn of `free` at a block it does not look for follows the link. -/
theorem freeTurn_follows (allocator : Allocator M) (memptr block below : Uint32)
    (different : block ≠ memptr) (follows : link allocator block = some below) :
    Returns (freeTurn memptr ⟨allocator.limit, block⟩) allocator
      (.again ⟨allocator.limit, below⟩) allocator := by
  unfold link at follows
  split at follows
  · simp at follows
  rename_i goes
  obtain ⟨some, guard⟩ := not_or.mp goes
  have turn : freeTurn (M := M) memptr ⟨allocator.limit, block⟩ = _ :=
    (if_neg some).trans ((if_neg guard).trans (if_neg different))
  rw [turn]
  refine returns_bind.mpr ⟨_, _, returns_state.mpr ⟨rfl, rfl⟩, returns_bind.mpr ⟨below, _,
    returns_load.mpr ⟨?_, rfl⟩, returns_pure.mpr ⟨rfl, rfl⟩⟩⟩
  cases read : Bus.get32 allocator.as (block + 0) with
  | error failure =>
    rw [read] at follows
    simp [Except.toOption] at follows
  | ok value =>
    rw [read] at follows
    rw [Option.some.inj follows]

/-- A turn of `free` at a block without a link ends the walk. -/
theorem freeTurn_ends (allocator : Allocator M) (memptr block : Uint32)
    (different : block ≠ memptr) (stuck : link allocator block = none) :
    Halts (.loop (freeTurn memptr) ⟨allocator.limit, block⟩) allocator := by
  apply halts_loop.mpr
  have leaves {code : Int} : Halts ((pure (.leave code) : Method M (Turn Walk Int)) >>=
      afterTurn (freeTurn memptr)) allocator :=
    (halts_after (returns_pure.mpr ⟨rfl, rfl⟩)).mpr (halts_pure _ _)
  by_cases null : block = 0
  · have turn : freeTurn (M := M) memptr ⟨allocator.limit, block⟩ = _ := if_pos null
    rw [turn]
    exact leaves
  by_cases guard : block + 0x10 > allocator.limit
  · have turn : freeTurn (M := M) memptr ⟨allocator.limit, block⟩ = _ :=
      (if_neg null).trans (if_pos guard)
    rw [turn]
    exact leaves
  have turn : freeTurn (M := M) memptr ⟨allocator.limit, block⟩ = _ :=
    (if_neg null).trans ((if_neg guard).trans (if_neg different))
  rw [link, if_neg (not_or.mpr ⟨null, guard⟩)] at stuck
  cases read : Bus.get32 allocator.as (block + 0) with
  | ok value =>
    rw [read] at stuck
    simp [Except.toOption] at stuck
  | error failure =>
    refine halts_iff.mpr (Or.inr ⟨failure, allocator, raises_bind.mpr (Or.inl ?_)⟩)
    rw [turn]
    refine raises_bind.mpr (Or.inr ⟨_, _, returns_state.mpr ⟨rfl, rfl⟩, raises_bind.mpr (Or.inl ?_)⟩)
    rw [load, raises_atomic, read]

/-- There are finitely many addresses, so a walk that does not end repeats itself. -/
instance : Finite Uint32 :=
  Finite.of_injective BitVec.toFin fun _ _ same => BitVec.eq_of_toFin_eq same

/-- A call of `free` for no block on the chain ends exactly when the chain does not
lead into a circle.

Proof: without a circle the links stop somewhere, and the walk takes as many turns
as there are links. On the way to a circle every turn asks for another one. -/
theorem free_halts_iff (allocator : Allocator M) (memptr : Uint32)
    (unmatched : ∀ block, OnChain allocator block → block ≠ memptr - 0x10) :
    Halts (free memptr) allocator ↔ ¬ CircularChain allocator := by
  have begins : Halts (free memptr) allocator ↔
      Halts (.loop (freeTurn (memptr - 0x10)) ⟨allocator.limit, allocator.lastBlock⟩)
        allocator := halts_after (returns_state.mpr ⟨rfl, rfl⟩)
  rw [begins]
  constructor
  · intro halts circles
    refine loop_diverges (fun (walk : Walk) state => allocator = state ∧ walk.next = allocator.limit ∧
      OnChain allocator walk.block ∧ Circles (link allocator) walk.block) ?_
      ⟨allocator.limit, allocator.lastBlock⟩ allocator ⟨rfl, rfl, Relation.ReflTransGen.refl, circles⟩
      halts
    rintro ⟨next, block⟩ state ⟨rfl, rfl, visited, around⟩
    obtain ⟨below, follows, later⟩ := circles_step around
    exact ⟨_, _, freeTurn_follows allocator _ block below (unmatched block visited) follows, rfl, rfl,
      visited.tail follows, later⟩
  · intro straight
    obtain ⟨last, visits, stuck⟩ := stops_of_not_circles straight
    have reaches : OnChain allocator last := visits
    have halts : ∀ block, Visits (link allocator) block last → OnChain allocator block →
        Halts (.loop (freeTurn (memptr - 0x10)) ⟨allocator.limit, block⟩) allocator := by
      intro block path
      induction path using Relation.ReflTransGen.head_induction_on with
      | refl => exact fun visited => freeTurn_ends allocator _ _ (unmatched _ visited) stuck
      | head follows _ inductionHypothesis =>
        intro visited
        apply halts_loop.mpr
        have turn := freeTurn_follows allocator _ _ _ (unmatched _ visited) follows
        exact (halts_after turn).mpr (inductionHypothesis (visited.tail follows))
    exact halts allocator.lastBlock visits .refl

/-- Whatever guest programs have written into the headers, `alloc`, `alloc_largest`
and `resize` end for all arguments, and `free` for no block on the chain ends
exactly when the links do not lead into a circle. -/
theorem calls_end_iff (allocator : Allocator M) (reads : ReadsMain allocator.as) (memptr : Uint32)
    (unmatched : ∀ block, OnChain allocator block → block ≠ memptr - 0x10) :
    (∀ len parent, Halts (alloc len parent) allocator) ∧
      (∀ parent, Halts (allocLargest parent) allocator) ∧
      (∀ pointer newlen, Halts (resize pointer newlen) allocator) ∧
      (Halts (free memptr) allocator ↔ ¬ CircularChain allocator) :=
  ⟨alloc_halts allocator reads, allocLargest_halts allocator reads, resize_halts allocator reads,
    free_halts_iff allocator memptr unmatched⟩

/-- The main memory reads long words from within itself only. -/
theorem mainMemory_readsMain (memory : MainMemory) : ReadsMain memory := by
  intro address value read
  change (if address.toNat + 4 ≤ memory.extent then
    (MainMemory.thrown (settle .assertion (MainMemory.get32 address .superData) memory)).1
    else .error .memoryException) = .ok value at read
  split at read
  · rename_i inside
    refine ⟨?_, show address.toNat < memory.extent by omega⟩
    by_contra misaligned
    have asserted : ¬ address &&& 3 = 0 := by
      intro same
      have low := MainMemory.low_bits address
      rw [same] at low
      exact misaligned low.symm
    have raised : Raises (MainMemory.get32 address .superData) memory .assertion memory :=
      raises_bind.mpr (Or.inl (by
        rw [MainMemory.require, if_neg asserted]
        exact raises_raise.mpr ⟨rfl, rfl⟩))
    rw [settle_ends (MainMemory.immediate_get32 _ _) _ raised] at read
    simp [MainMemory.thrown, Except.mapError] at read
  · simp at read

/-- A megabyte whose one header, at 0x8000, links to itself. -/
def circular : Allocator MainMemory where
  as := MainMemory.construct 0x100000 fun index => if index = 0x4001 then 0x8000 else 0
  limit := 0x100000
  rootBlock := 0x8000
  lastBlock := 0x8000

/-- The memory of the circular list has a megabyte. -/
theorem circular_size : Bus.size circular.as = 0x100000 := by decide

/-- Its one block is linked to itself. -/
theorem circular_link : link circular 0x8000 = some 0x8000 := by
  have byte (index : Nat) (inside : index < 0x100000) := MainMemory.construct_byte 0x100000
    (fun index => if index = 0x4001 then 0x8000 else 0) index inside
  have bytes : ByteStores.slice (Bus.byte circular.as) 0x8000 4 = [0, 0, 0x80, 0] := by
    change [MainMemory.byte _ 0x8000, MainMemory.byte _ 0x8001, MainMemory.byte _ 0x8002,
      MainMemory.byte _ 0x8003] = _
    rw [circular, byte _ (by decide), byte _ (by decide), byte _ (by decide), byte _ (by decide)]
    decide
  have read := Bus.get32_main circular.as 0x8000 (by decide) (by rw [circular_size]; decide)
  rw [show (0x8000 : Uint32).toNat = 0x8000 from rfl, bytes] at read
  rw [link, if_neg (by decide)]
  change (Bus.get32 circular.as 0x8000).toOption = _
  rw [read]
  decide

/-- The chain is the one block, over and over. -/
theorem circular_chain (block : Uint32) (visits : OnChain circular block) : block = 0x8000 := by
  induction visits with
  | refl => rfl
  | tail _ follows inductionHypothesis =>
    subst inductionHypothesis
    exact (Option.some.inj (circular_link.symm.trans follows)).symm

/-- No block of it is the one that is freed. -/
theorem circular_unmatched (block : Uint32) (visits : OnChain circular block) :
    block ≠ 0x9000 - 0x10 := by
  rw [circular_chain block visits]
  decide

/-- From that state `free(0x9000)` matches no block and never ends. -/
theorem free_runs_in_circle : ReadsMain circular.as ∧
    circular.lastBlock.toNat < Bus.size circular.as ∧
    circular.limit.toNat ≤ Bus.size circular.as ∧
    (∀ block, OnChain circular block → block ≠ 0x9000 - 0x10) ∧ ¬ Halts (free 0x9000) circular := by
  refine ⟨mainMemory_readsMain _, by rw [circular_size]; decide, by rw [circular_size]; decide,
    circular_unmatched, ?_⟩
  rw [free_halts_iff circular 0x9000 circular_unmatched, not_not]
  exact ⟨0x8000, .refl, .single circular_link⟩

/-- There the other calls end all the same. -/
theorem calls_end_circular : (∀ len parent, Halts (alloc len parent) circular) ∧
    (∀ parent, Halts (allocLargest parent) circular) ∧
    (∀ pointer newlen, Halts (resize pointer newlen) circular) ∧
    (Halts (free 0x9000) circular ↔ ¬ CircularChain circular) :=
  calls_end_iff circular (mainMemory_readsMain _) 0x9000 circular_unmatched

end Vx68k.Allocator
