import Vx68k.AllocatorChain

/-!
# The calls of the allocator

Each call walks the list from the last block down. A walk stands before a part of
the list, with the lowest address of what it has passed; the induction is on the
part that is left. The results are those of the recursions over the list, so the
walks refine first fit, widest gap and the lookup of one block.

`free_by_parent` removes blocks from the list it walks, and its recursive calls do
so too. The induction is on the rank of the owner and, for one owner, on the part
of the list below the position.
-/

namespace Vx68k.Allocator

open Programs Forests

variable {M : Type} [Bus M] {allocator : Allocator M} {upper lower : List Block} {block : Block}

/-- The floor of stacked blocks is aligned if the ceiling is. -/
theorem floor_aligned {ceiling : Uint32} {upper : List Block} (stacked : Stacked ceiling.toNat upper)
    (aligned : Aligned ceiling) : Aligned (floor ceiling upper) := by
  induction upper generalizing ceiling with
  | nil => exact aligned
  | cons block rest inductionHypothesis =>
    rw [floor_cons]
    exact inductionHypothesis stacked.2.2.2 stacked.1

/-- A walk over a held list never takes it for a broken one. -/
theorem guard_passes (holds : Holds allocator (upper ++ block :: lower)) :
    ¬ block.addr + 0x10 > floor allocator.limit upper := by
  obtain ⟨-, aligned, proper, bounded, -⟩ := (stacked_append _ _ _).mp holds.sound.stacked
  unfold Aligned at aligned
  have room := (floor allocator.limit upper).isLt
  bv_omega

/-- The first field of a header is the address of the block below. -/
theorem load_below (holds : Holds allocator (upper ++ block :: lower)) :
    Returns (load (block.addr + 0)) allocator (top lower) allocator := by
  obtain ⟨inside, some⟩ := holds_inside holds List.mem_append_cons_self
  have loaded := load_returns allocator block.addr 0 inside offset_zero
  have same := holds_below holds
  rw [below, if_neg some] at same
  rwa [same] at loaded

/-- The second field is the owner. -/
theorem load_parent (holds : Holds allocator (upper ++ block :: lower)) :
    Returns (load (block.addr + 4)) allocator block.parent allocator := by
  have inside := (holds_inside holds List.mem_append_cons_self).1
  have loaded := load_returns allocator block.addr 4 inside offset_four
  rwa [holds.owners block (by simp)] at loaded

/-- The third field is the end. -/
theorem load_brk (holds : Holds allocator (upper ++ block :: lower)) :
    Returns (load (block.addr + 8)) allocator block.brk allocator := by
  have inside := (holds_inside holds List.mem_append_cons_self).1
  have loaded := load_returns allocator block.addr 8 inside offset_eight
  rwa [holds.ends block (by simp)] at loaded

/-- No block of the list is at the null address. -/
theorem block_some (holds : Holds allocator (upper ++ block :: lower)) : block.addr ≠ 0 :=
  (holds_inside holds List.mem_append_cons_self).2

/-- The gap above a block starts at its rounded end and ends at the floor of what
lies above; both are aligned and in order. -/
theorem gap_bounds (holds : Holds allocator (upper ++ block :: lower)) :
    Aligned (alignUp block.brk) ∧ block.brk.toNat ≤ (alignUp block.brk).toNat ∧
      (alignUp block.brk).toNat ≤ (floor allocator.limit upper).toNat ∧
      (floor allocator.limit upper).toNat ≤ 0x1000000 := by
  obtain ⟨stacked, -, -, bounded, -⟩ := (stacked_append _ _ _).mp holds.sound.stacked
  have aligned := floor_aligned stacked holds.limitAligned
  have low := floor_le stacked
  have room := holds.room
  have extent := Bus.size_le allocator.as
  have rounded := alignUp_toNat block.brk (by omega)
  unfold Aligned at aligned ⊢
  omega

/-- A call comes down to making one block: it returns exactly as `make_block` does,
with the pointer to the block. -/
def Makes (program : Method M Int) (allocator : Allocator M) (added : Block) (len prev : Uint32) :
    Prop :=
  ∀ code after, Returns program allocator code after ↔
    code = svalue (added.addr + 0x10) ∧
      Returns (makeBlock added.addr len prev added.parent) allocator () after

/-- A turn of `alloc` passes a gap that is too short. -/
theorem allocTurn_passes (len parent known : Uint32)
    (holds : Holds allocator (upper ++ block :: lower))
    (short : ¬ floor allocator.limit upper - alignUp block.brk ≥ len) :
    Returns (allocTurn len parent ⟨⟨floor allocator.limit upper, block.addr⟩, known⟩) allocator
      (.again ⟨⟨block.addr, top lower⟩,
        if floor allocator.limit upper - alignUp block.brk > known then
          floor allocator.limit upper - alignUp block.brk else known⟩) allocator := by
  rw [allocTurn, if_neg (block_some holds), if_neg (guard_passes holds)]
  refine returns_bind.mpr ⟨_, _, load_brk holds, ?_⟩
  simp only [short, ↓reduceIte]
  exact returns_bind.mpr ⟨_, _, load_below holds, returns_pure.mpr ⟨rfl, rfl⟩⟩

/-- From a gap that fits, `alloc` comes down to making a block there. -/
theorem allocTurn_makes (len parent known : Uint32)
    (holds : Holds allocator (upper ++ block :: lower))
    (enough : floor allocator.limit upper - alignUp block.brk ≥ len) :
    Makes (.loop (allocTurn len parent) ⟨⟨floor allocator.limit upper, block.addr⟩, known⟩) allocator
      ⟨alignUp block.brk, parent - 0x10, alignUp block.brk + len⟩ len block.addr := by
  have turn : allocTurn (M := M) len parent ⟨⟨floor allocator.limit upper, block.addr⟩, known⟩ = _ :=
    (if_neg (block_some holds)).trans (if_neg (guard_passes holds))
  intro code after
  constructor
  · intro returned
    obtain ⟨step, middle, turned, rest⟩ := returns_bind.mp (returns_loop.mp returned)
    rw [turn] at turned
    have filled := (ends_after (load_brk holds)).mp turned
    simp only [enough, ↓reduceIte] at filled
    obtain ⟨done, last, made, left⟩ := returns_bind.mp filled
    obtain ⟨rfl, rfl⟩ := returns_pure.mp left
    obtain ⟨rfl, rfl⟩ := returns_pure.mp rest
    exact ⟨rfl, made⟩
  · rintro ⟨rfl, made⟩
    apply loop_leaves
    rw [turn]
    refine returns_bind.mpr ⟨_, _, load_brk holds, ?_⟩
    simp only [enough, ↓reduceIte]
    exact returns_bind.mpr ⟨_, _, made, returns_pure.mpr ⟨rfl, rfl⟩⟩

/-- The walk of `alloc` comes down to making the first block that fits, or reports
the widest gap it has seen. The new block's owner is not looked at. -/
theorem alloc_walk (len parent known : Uint32) (holds : Holds allocator (upper ++ lower)) :
    match firstFit len (parent - 0x10) (floor allocator.limit upper) lower with
    | none => Returns
        (.loop (allocTurn len parent) ⟨⟨floor allocator.limit upper, top lower⟩, known⟩) allocator
        (shortage (widest known (floor allocator.limit upper) lower)) allocator
    | some (added, rest) => ∃ front block back, lower = front ++ block :: back ∧
        rest = front ++ added :: block :: back ∧
        Makes (.loop (allocTurn len parent) ⟨⟨floor allocator.limit upper, top lower⟩, known⟩)
          allocator added len block.addr ∧
        Full len (floor allocator.limit upper) front ∧
        len ≤ floor (floor allocator.limit upper) front - alignUp block.brk ∧
        added = ⟨alignUp block.brk, parent - 0x10, alignUp block.brk + len⟩ := by
  induction lower generalizing upper known with
  | nil =>
    apply loop_leaves
    simp [allocTurn, widest]
  | cons block lower inductionHypothesis =>
    rw [firstFit, top_cons]
    by_cases enough : floor allocator.limit upper - alignUp block.brk ≥ len
    · simp only [enough, ↓reduceIte]
      exact ⟨[], block, lower, rfl, rfl, allocTurn_makes len parent known holds enough, trivial,
        enough, rfl⟩
    · have step := allocTurn_passes len parent known holds enough
      have shape : upper ++ block :: lower = (upper ++ [block]) ++ lower := by simp
      rw [shape] at holds
      have later := inductionHypothesis (if floor allocator.limit upper - alignUp block.brk > known
        then floor allocator.limit upper - alignUp block.brk else known) holds
      rw [floor_concat] at later
      simp only [enough, ↓reduceIte]
      cases found : firstFit len (parent - 0x10) block.addr lower with
      | none =>
        rw [found] at later
        exact loop_continues step later
      | some result =>
        rw [found] at later
        obtain ⟨front, other, back, rfl, same, makes, full, room, shape⟩ := later
        refine ⟨block :: front, other, back, rfl, by rw [same]; rfl, ?_,
          ⟨BitVec.not_le.mp enough, full⟩, by rwa [floor_cons], shape⟩
        exact fun code after => (returns_loop_after step).trans (makes code after)

/-- `alloc` comes down to making the first block that fits, or reports the widest
gap.

Proof: the walk starts before the whole list. -/
theorem alloc_makes (blocks : List Block) (len parent : Uint32) (holds : Holds allocator blocks) :
    match firstFit (len + 0x10) (parent - 0x10) allocator.limit blocks with
    | none => Returns (alloc len parent) allocator
        (shortage (widest 0x10 allocator.limit blocks)) allocator
    | some (added, rest) => ∃ upper block lower, blocks = upper ++ block :: lower ∧
        rest = upper ++ added :: block :: lower ∧
        Makes (alloc len parent) allocator added (len + 0x10) block.addr ∧
        Full (len + 0x10) allocator.limit upper ∧
        len + 0x10 ≤ floor allocator.limit upper - alignUp block.brk ∧
        added = ⟨alignUp block.brk, parent - 0x10, alignUp block.brk + (len + 0x10)⟩ := by
  have walked := @alloc_walk M _ allocator [] blocks (len + 0x10) parent 0x10 holds
  rw [floor_nil, ← holds_lastBlock holds] at walked
  have begins : ∀ code after, Returns (alloc len parent) allocator code after ↔
      Returns (.loop (allocTurn (len + 0x10) parent)
        ⟨⟨allocator.limit, allocator.lastBlock⟩, 0x10⟩) allocator code after :=
    fun code after => ends_after_state
  cases found : firstFit (len + 0x10) (parent - 0x10) allocator.limit blocks with
  | none =>
    rw [found] at walked
    exact (begins _ _).mpr walked
  | some result =>
    rw [found] at walked
    obtain ⟨upper, block, lower, shape, same, makes, rest⟩ := walked
    exact ⟨upper, block, lower, shape, same,
      fun code after => (begins code after).trans (makes code after), rest⟩

/-- `alloc` is first fit from the highest block down. -/
theorem alloc_spec (blocks : List Block) (len parent : Uint32) (fits : len.toNat + 0x10 < 2 ^ 32)
    (holds : Holds allocator blocks) (owned : parent - 0x10 ∈ keys blocks) :
    match firstFit (len + 0x10) (parent - 0x10) allocator.limit blocks with
    | none => Returns (alloc len parent) allocator
        (shortage (widest 0x10 allocator.limit blocks)) allocator
    | some (added, rest) => ∃ after, Returns (alloc len parent) allocator
        (svalue (added.addr + 0x10)) after ∧ Holds after rest ∧ Keeps (keys rest) allocator after := by
  have spec := alloc_makes blocks len parent holds
  cases found : firstFit (len + 0x10) (parent - 0x10) allocator.limit blocks with
  | none =>
    rw [found] at spec
    exact spec
  | some result =>
    rw [found] at spec
    obtain ⟨added, rest⟩ := result
    obtain ⟨upper, block, lower, rfl, rfl, makes, -, room, rfl⟩ := spec
    obtain ⟨aligned, high, fits, small⟩ := gap_bounds holds
    have length : (alignUp block.brk + (len + 0x10)).toNat =
        (alignUp block.brk).toNat + (len + 0x10).toNat := by bv_omega
    have within : (alignUp block.brk).toNat + (len + 0x10).toNat ≤
        (floor allocator.limit upper).toNat := by bv_omega
    have long : 16 ≤ (len + 0x10).toNat := by bv_omega
    obtain ⟨after, made, held, kept⟩ := makeBlock_holds holds
      ⟨alignUp block.brk, parent - 0x10, alignUp block.brk + (len + 0x10)⟩ (len + 0x10) aligned high
      (by simp only [length]; omega) (by simpa only [length] using within) rfl owned
    exact ⟨after, (makes _ _).mpr ⟨rfl, made⟩, held, kept⟩

/-- The variables of `alloc_largest` after a walk over a list. -/
def largestWalk (walk : LargestWalk) : List Block → LargestWalk
  | [] => { walk with block := 0 }
  | block :: rest =>
    let candidate := alignUp block.brk
    let gap := walk.next - candidate
    if gap > walk.maxFreeLen then
      largestWalk ⟨⟨block.addr, top rest⟩, block.addr, candidate, gap⟩ rest
    else
      largestWalk ⟨⟨block.addr, top rest⟩, walk.bestBlock, walk.bestCandidate, walk.maxFreeLen⟩ rest

/-- The walk of `alloc_largest` computes its variables from the list. -/
theorem allocLargest_walk (walk : LargestWalk) (holds : Holds allocator (upper ++ lower))
    (ceiling : walk.next = floor allocator.limit upper) (position : walk.block = top lower) :
    Returns (.loop allocLargestTurn walk) allocator (some (largestWalk walk lower)) allocator := by
  induction lower generalizing upper walk with
  | nil =>
    apply loop_leaves
    obtain ⟨⟨next, _⟩, _⟩ := walk
    obtain rfl : _ = (0 : Uint32) := position
    simp [allocLargestTurn, largestWalk]
  | cons block lower inductionHypothesis =>
    have turn : allocLargestTurn (M := M) walk = _ :=
      (if_neg (by rw [position]; exact block_some holds)).trans
        (if_neg (by rw [position, ceiling]; exact guard_passes holds))
    have shape : upper ++ block :: lower = (upper ++ [block]) ++ lower := by simp
    have rest := shape ▸ holds
    have loadedBrk := load_brk holds
    have loadedBelow := load_below holds
    rw [top_cons] at position
    rw [← position] at loadedBrk loadedBelow
    rw [largestWalk]
    by_cases more : walk.next - alignUp block.brk > walk.maxFreeLen
    · simp only [more, ↓reduceIte]
      refine loop_continues ?_ (inductionHypothesis _ rest (by simp) rfl)
      rw [turn]
      refine returns_bind.mpr ⟨_, _, loadedBrk, returns_bind.mpr ⟨_, _, loadedBelow, ?_⟩⟩
      simp only [more, ↓reduceIte, position]
      exact returns_pure.mpr ⟨rfl, rfl⟩
    · simp only [more, ↓reduceIte]
      refine loop_continues ?_ (inductionHypothesis _ rest (by simp) rfl)
      rw [turn]
      refine returns_bind.mpr ⟨_, _, loadedBrk, returns_bind.mpr ⟨_, _, loadedBelow, ?_⟩⟩
      simp only [more, ↓reduceIte, position]
      exact returns_pure.mpr ⟨rfl, rfl⟩

/-- The variables of the walk describe the widest fit. -/
theorem largestWalk_fills (parent : Uint32) (walk : LargestWalk) (blocks : List Block) :
    match fillWidest parent walk.maxFreeLen walk.next blocks with
    | none => (largestWalk walk blocks).bestBlock = walk.bestBlock ∧
        (largestWalk walk blocks).bestCandidate = walk.bestCandidate ∧
        (largestWalk walk blocks).maxFreeLen = walk.maxFreeLen
    | some (added, result) => ∃ front block back, blocks = front ++ block :: back ∧
        result = front ++ added :: block :: back ∧
        added = ⟨alignUp block.brk, parent, floor walk.next front⟩ ∧
        (largestWalk walk blocks).bestBlock = block.addr ∧
        (largestWalk walk blocks).bestCandidate = added.addr ∧
        added.addr + (largestWalk walk blocks).maxFreeLen = added.brk ∧
        walk.maxFreeLen < (largestWalk walk blocks).maxFreeLen := by
  induction blocks generalizing walk with
  | nil => exact ⟨rfl, rfl, rfl⟩
  | cons block rest inductionHypothesis =>
    rw [fillWidest, largestWalk]
    by_cases more : walk.next - alignUp block.brk > walk.maxFreeLen
    · have later := inductionHypothesis ⟨⟨block.addr, top rest⟩, block.addr, alignUp block.brk,
        walk.next - alignUp block.brk⟩
      simp only [more, ↓reduceIte]
      simp only at later
      cases found : fillWidest parent (walk.next - alignUp block.brk) block.addr rest with
      | none =>
        rw [found] at later
        obtain ⟨best, candidate, length⟩ := later
        have ends : alignUp block.brk + (walk.next - alignUp block.brk) = walk.next := by bv_omega
        refine ⟨[], block, rest, rfl, rfl, by rw [floor_nil, ends], best, candidate, ?_, ?_⟩
        · rw [length]
        · rw [length]
          exact more
      | some result =>
        rw [found] at later
        obtain ⟨front, other, back, rfl, same, made, best, candidate, ends, wider⟩ := later
        exact ⟨block :: front, other, back, rfl, by rw [same]; rfl, by rw [floor_cons, made], best,
          candidate, ends, BitVec.lt_trans more wider⟩
    · have later := inductionHypothesis ⟨⟨block.addr, top rest⟩, walk.bestBlock,
        walk.bestCandidate, walk.maxFreeLen⟩
      simp only [more, ↓reduceIte]
      simp only at later
      cases found : fillWidest parent walk.maxFreeLen block.addr rest with
      | none =>
        rw [found] at later
        exact later
      | some result =>
        rw [found] at later
        obtain ⟨front, other, back, rfl, same, made, best, candidate, ends, wider⟩ := later
        exact ⟨block :: front, other, back, rfl, by rw [same]; rfl, by rw [floor_cons, made], best,
          candidate, ends, wider⟩

/-- `alloc_largest` comes down to filling the widest gap of the list.

Proof: the walk leaves the memory alone, and the block is made where its variables
say. -/
theorem allocLargest_makes (blocks : List Block) (parent : Uint32) (holds : Holds allocator blocks) :
    match fillWidest (parent - 0x10) 0x10 allocator.limit blocks with
    | none => Returns (allocLargest parent) allocator (svalue 0x82000000) allocator
    | some (added, rest) => ∃ upper block lower, blocks = upper ++ block :: lower ∧
        rest = upper ++ added :: block :: lower ∧
        Makes (allocLargest parent) allocator added (floor allocator.limit upper - alignUp block.brk)
          block.addr ∧
        0x10 < floor allocator.limit upper - alignUp block.brk ∧
        added = ⟨alignUp block.brk, parent - 0x10, floor allocator.limit upper⟩ := by
  have walked := @allocLargest_walk M _ allocator [] blocks
    ⟨⟨allocator.limit, allocator.lastBlock⟩, 0, 0, 0x10⟩ holds rfl (holds_lastBlock holds)
  have fills := largestWalk_fills (parent - 0x10)
    ⟨⟨allocator.limit, allocator.lastBlock⟩, 0, 0, 0x10⟩ blocks
  simp only at fills
  cases found : fillWidest (parent - 0x10) 0x10 allocator.limit blocks with
  | none =>
    rw [found] at fills
    refine returns_bind.mpr ⟨_, _, returns_state.mpr ⟨rfl, rfl⟩,
      returns_bind.mpr ⟨_, _, walked, ?_⟩⟩
    simp only [fills.2.2, ↓reduceIte]
    exact returns_pure.mpr ⟨rfl, rfl⟩
  | some result =>
    rw [found] at fills
    obtain ⟨added, rest⟩ := result
    obtain ⟨upper, block, lower, rfl, same, made, best, candidate, ends, wider⟩ := fills
    have length : (largestWalk ⟨⟨allocator.limit, allocator.lastBlock⟩, 0, 0, 0x10⟩
        (upper ++ block :: lower)).maxFreeLen =
        floor allocator.limit upper - alignUp block.brk := by
      rw [made] at ends
      simp only at ends
      bv_omega
    rw [length] at wider
    refine ⟨upper, block, lower, rfl, same, ?_, wider, made⟩
    have longer : floor allocator.limit upper - alignUp block.brk ≠ 0x10 := by
      intro exactly
      rw [exactly] at wider
      exact absurd wider (by decide)
    intro code after
    refine ends_after_state.trans ((ends_after walked).trans ?_)
    simp only [length, longer, ↓reduceIte, best, candidate, made]
    constructor
    · intro returned
      obtain ⟨done, last, filled, left⟩ := returns_bind.mp returned
      obtain ⟨rfl, rfl⟩ := returns_pure.mp left
      exact ⟨rfl, filled⟩
    · rintro ⟨rfl, filled⟩
      exact returns_bind.mpr ⟨_, _, filled, returns_pure.mpr ⟨rfl, rfl⟩⟩

/-- `alloc_largest` fills the widest gap of the list. -/
theorem allocLargest_spec (blocks : List Block) (parent : Uint32)
    (holds : Holds allocator blocks) (owned : parent - 0x10 ∈ keys blocks) :
    match fillWidest (parent - 0x10) 0x10 allocator.limit blocks with
    | none => Returns (allocLargest parent) allocator (svalue 0x82000000) allocator
    | some (added, rest) => ∃ after, Returns (allocLargest parent) allocator
        (svalue (added.addr + 0x10)) after ∧ Holds after rest ∧ Keeps (keys rest) allocator after := by
  have spec := allocLargest_makes blocks parent holds
  cases found : fillWidest (parent - 0x10) 0x10 allocator.limit blocks with
  | none =>
    rw [found] at spec
    exact spec
  | some result =>
    rw [found] at spec
    obtain ⟨added, rest⟩ := result
    obtain ⟨upper, block, lower, rfl, rfl, makes, wider, rfl⟩ := spec
    obtain ⟨aligned, high, fits, small⟩ := gap_bounds holds
    obtain ⟨after, made, held, kept⟩ := makeBlock_holds holds
      ⟨alignUp block.brk, parent - 0x10, floor allocator.limit upper⟩
      (floor allocator.limit upper - alignUp block.brk) aligned high
      (by simp only; bv_omega) (Nat.le_refl _) (by simp only; bv_omega) owned
    exact ⟨after, (makes _ _).mpr ⟨rfl, made⟩, held, kept⟩

/-- A walk that looks for one block passes the others. The lower bound it keeps is
`mark` of what it has passed. -/
theorem walk_to (body : Walk → Method M (Turn Walk Int)) (mark : List Block → Uint32)
    (memptr : Uint32)
    (passes : ∀ (upper : List Block) (block : Block) (lower : List Block),
      Holds allocator (upper ++ block :: lower) → block.addr ≠ memptr →
      Returns (body ⟨mark upper, block.addr⟩) allocator
        (.again ⟨mark (upper ++ [block]), top lower⟩) allocator)
    (upper middle lower : List Block) (holds : Holds allocator (upper ++ middle ++ lower))
    (absent : memptr ∉ keys middle) (code : Int) (after : Allocator M)
    (found : Returns (.loop body ⟨mark (upper ++ middle), top lower⟩) allocator code after) :
    Returns (.loop body ⟨mark upper, top (middle ++ lower)⟩) allocator code after := by
  induction middle generalizing upper with
  | nil => simpa using found
  | cons block rest inductionHypothesis =>
    rw [keys_cons, List.mem_cons, not_or] at absent
    have shape : upper ++ block :: rest = (upper ++ [block]) ++ rest := by simp
    have whole : upper ++ block :: rest ++ lower = upper ++ block :: (rest ++ lower) := by simp
    apply loop_continues (passes upper block (rest ++ lower) (whole ▸ holds) (Ne.symm absent.1))
    rw [shape] at holds found
    exact inductionHypothesis (upper ++ [block]) holds absent.2 found

/-- A turn of `resize` at another block goes on to the one below. -/
theorem resizeTurn_passes (memptr newBrk : Uint32) (holds : Holds allocator (upper ++ block :: lower))
    (different : block.addr ≠ memptr) :
    Returns (resizeTurn memptr newBrk ⟨floor allocator.limit upper, block.addr⟩) allocator
      (.again ⟨floor allocator.limit (upper ++ [block]), top lower⟩) allocator := by
  have turn : resizeTurn (M := M) memptr newBrk ⟨floor allocator.limit upper, block.addr⟩ = _ :=
    (if_neg (block_some holds)).trans ((if_neg (guard_passes holds)).trans (if_neg different))
  rw [turn, floor_concat]
  exact returns_bind.mpr ⟨_, _, load_below holds, returns_pure.mpr ⟨rfl, rfl⟩⟩

/-- A block is not among those above it. -/
theorem absent_above (holds : Holds allocator (upper ++ block :: lower)) :
    block.addr ∉ keys upper := by
  have alone := stacked_alone holds.sound.stacked
  rw [keys_append] at alone
  exact fun member => alone (List.mem_append_left _ member)

/-- `resize` of a block comes down to one comparison with the room of the block, whatever
the new end has wrapped to. -/
theorem resize_stores (memptr newlen : Uint32)
    (holds : Holds allocator (upper ++ block :: lower)) (here : block.addr = memptr - 0x10) :
    if floor allocator.limit upper < memptr + newlen then
      Returns (resize memptr newlen) allocator
        (shortage (floor allocator.limit upper - block.addr)) allocator
    else ∀ after, Returns (store (block.addr + 8) (memptr + newlen)) allocator () after →
      Returns (resize memptr newlen) allocator 0 after := by
  have absent : memptr - 0x10 ∉ keys upper := here ▸ absent_above holds
  have begins {code : Int} {after : Allocator M}
      (returned : Returns (resizeTurn (memptr - 0x10) (memptr + newlen)
        ⟨floor allocator.limit upper, block.addr⟩) allocator (.leave code) after) :
      Returns (resize memptr newlen) allocator code after := by
    have walked := walk_to (resizeTurn (memptr - 0x10) (memptr + newlen)) (floor allocator.limit)
      (memptr - 0x10) (fun _ _ _ held different => resizeTurn_passes _ _ held different)
      [] upper (block :: lower) (by simpa using holds) absent code after (loop_leaves returned)
    rw [floor_nil, ← holds_lastBlock holds] at walked
    exact returns_bind.mpr ⟨_, _, returns_state.mpr ⟨rfl, rfl⟩, walked⟩
  have turn : resizeTurn (M := M) (memptr - 0x10) (memptr + newlen)
      ⟨floor allocator.limit upper, block.addr⟩ = _ :=
    (if_neg (block_some holds)).trans ((if_neg (guard_passes holds)).trans (if_pos here))
  by_cases short : floor allocator.limit upper < memptr + newlen
  · rw [if_pos short]
    apply begins
    rw [turn, if_pos short]
    exact returns_pure.mpr ⟨rfl, rfl⟩
  · rw [if_neg short]
    intro after stored
    apply begins
    rw [turn, if_neg short]
    exact returns_bind.mpr ⟨_, _, stored, returns_pure.mpr ⟨rfl, rfl⟩⟩

/-- `resize` moves the end of a block within its room, and otherwise reports that
room. -/
theorem resize_spec (memptr newlen : Uint32) (fits : memptr.toNat + newlen.toNat < 2 ^ 32)
    (holds : Holds allocator (upper ++ block :: lower)) (here : block.addr = memptr - 0x10) :
    if floor allocator.limit upper < memptr + newlen then
      Returns (resize memptr newlen) allocator
        (shortage (floor allocator.limit upper - block.addr)) allocator
    else ∃ after, Returns (resize memptr newlen) allocator 0 after ∧
      Holds after (upper ++ { block with brk := memptr + newlen } :: lower) ∧
      Keeps (keys (upper ++ block :: lower)) allocator after := by
  have stores := resize_stores memptr newlen holds here
  by_cases short : floor allocator.limit upper < memptr + newlen
  · rw [if_pos short] at stores ⊢
    exact stores
  · rw [if_neg short] at stores ⊢
    have proper := (stacked_member holds.sound.stacked List.mem_append_cons_self).2
    have limit := (gap_bounds holds).2
    obtain ⟨after, stored, held, kept⟩ := storeBrk_holds holds (memptr + newlen)
      (by bv_omega) (by bv_omega)
    exact ⟨after, stores after stored, held, kept⟩

/-- `resize` of no block changes nothing. -/
theorem resize_missing (blocks : List Block) (memptr newlen : Uint32)
    (holds : Holds allocator blocks) (absent : memptr - 0x10 ∉ keys blocks) :
    Returns (resize memptr newlen) allocator (-9) allocator := by
  have walked := walk_to (resizeTurn (memptr - 0x10) (memptr + newlen)) (floor allocator.limit)
    (memptr - 0x10) (fun _ _ _ held different => resizeTurn_passes _ _ held different)
    [] blocks [] (by simpa using holds) absent (-9) allocator
    (loop_leaves (by simp [resizeTurn]))
  rw [floor_nil, List.append_nil, ← holds_lastBlock holds] at walked
  exact returns_bind.mpr ⟨_, _, returns_state.mpr ⟨rfl, rfl⟩, walked⟩

/-- Once the descendants of a block are gone, the block is removed. What was above
it stays above, and its own link leads to what is left below. -/
theorem removeBlock_subtree {middle : Allocator M} (holds : Holds allocator (upper ++ block :: lower))
    (notRoot : block.addr ≠ allocator.rootBlock)
    (freed : Holds middle
      (withoutDescendants allocator.rootBlock block.addr (upper ++ block :: lower)))
    (sameRoot : middle.rootBlock = allocator.rootBlock) :
    ∃ above below after,
      withoutSubtree allocator.rootBlock block.addr (upper ++ block :: lower) = above ++ below ∧
      (∀ other ∈ above, other ∈ upper) ∧ below.length ≤ lower.length ∧
      Returns (removeBlock block.addr) middle () after ∧ Holds after (above ++ below) ∧
      after.below block.addr = top below ∧
      Keeps (keys (upper ++ block :: lower)) middle after := by
  obtain ⟨above, below, split, fromUpper, fewer⟩ := withoutDescendants_split holds.sound.acyclic
  have subtree : withoutSubtree allocator.rootBlock block.addr (upper ++ block :: lower) =
      above ++ below := by
    rw [withoutSubtree_steps, split]
    exact filter_addr (split ▸ (sound_withoutDescendants holds.sound block.addr).stacked)
  have unowned : ∀ other ∈ above ++ below, other.addr ≠ middle.rootBlock →
      other.parent ≠ block.addr := by
    intro other member otherNotRoot
    have left : other ∈ withoutDescendants allocator.rootBlock block.addr
        (upper ++ block :: lower) := by
      rw [split]
      simp only [List.mem_append, List.mem_cons] at member ⊢
      tauto
    exact withoutDescendants_unowned left (sameRoot ▸ otherNotRoot)
  rw [split] at freed
  obtain ⟨after, removed, held, link, kept⟩ := removeBlock_holds freed (sameRoot ▸ notRoot) unowned
  exact ⟨above, below, after, subtree, fromUpper, fewer, removed, held, link,
    keeps_mono kept fun key member =>
      @withoutDescendants_keys allocator.rootBlock _ block.addr key (split ▸ member)⟩

/-- A block of another owner is passed. -/
theorem freeByParentTurn_passes (self : Uint32 → Method M Unit) {owner : Uint32}
    (holds : Holds allocator (upper ++ block :: lower)) (other : block.parent ≠ owner) :
    Returns (freeByParentTurn self (owner + 0x10) block.addr) allocator (.again (top lower))
      allocator := by
  have owned : owner + 0x10 - 0x10 = owner := BitVec.add_sub_cancel _ _
  rw [freeByParentTurn, if_neg (block_some holds)]
  refine returns_bind.mpr ⟨_, _, load_parent holds, ?_⟩
  rw [owned, if_neg other]
  exact returns_bind.mpr ⟨_, _, load_below holds, returns_pure.mpr ⟨rfl, rfl⟩⟩

/-- A child is freed after all it owns, and the walk goes on from the link it keeps. -/
theorem freeByParentTurn_frees {self : Uint32 → Method M Unit} {owner link : Uint32}
    {middle last : Allocator M} (holds : Holds allocator (upper ++ block :: lower))
    (child : block.parent = owner)
    (freed : Returns (self (block.addr + 0x10)) allocator () middle)
    (removed : Returns (removeBlock block.addr) middle () last)
    (loaded : Returns (load (block.addr + 0)) last link last) :
    Returns (freeByParentTurn self (owner + 0x10) block.addr) allocator (.again link) last := by
  have owned : owner + 0x10 - 0x10 = owner := BitVec.add_sub_cancel _ _
  rw [freeByParentTurn, if_neg (block_some holds)]
  refine returns_bind.mpr ⟨_, _, load_parent holds, ?_⟩
  rw [owned, if_pos child]
  exact returns_bind.mpr ⟨_, _, freed, returns_bind.mpr ⟨_, _, removed,
    returns_bind.mpr ⟨_, _, loaded, returns_pure.mpr ⟨rfl, rfl⟩⟩⟩⟩

/-- The walk of `free_by_parent` from a position below which no block of the owner
has been passed, given what the calls for its children do.

Proof: by induction on the number of blocks below the position. A child's
descendants are removed by the recursive call and the child after it; its own link
then leads to what is left below it. -/
theorem freeByParent_walk (depth : Nat) (owner : Uint32) (some : owner ≠ 0) (rank : Uint32 → Nat)
    (bounded : rank owner ≤ depth)
    (children : ∀ (state : Allocator M) (blocks : List Block) (child : Uint32), Holds state blocks →
      Ranks rank (Owns state.rootBlock blocks) → rank child < depth → child ≠ 0 →
      ∃ after, Returns (freeByParentWithin depth (child + 0x10)) state () after ∧
        Holds after (withoutDescendants state.rootBlock child blocks) ∧
        Keeps (keys blocks) state after)
    (count : Nat) (holds : Holds allocator (upper ++ lower)) (size : lower.length ≤ count)
    (ranks : Ranks rank (Owns allocator.rootBlock (upper ++ lower)))
    (passed : ∀ block ∈ upper, block.addr ≠ allocator.rootBlock → block.parent ≠ owner) :
    ∃ after, Returns (.loop (freeByParentTurn (freeByParentWithin depth) (owner + 0x10)) (top lower))
        allocator () after ∧
      Holds after (withoutDescendants allocator.rootBlock owner (upper ++ lower)) ∧
      Keeps (keys (upper ++ lower)) allocator after := by
  induction count generalizing allocator upper lower with
  | zero =>
    obtain rfl : lower = [] := List.length_eq_zero_iff.mp (by omega)
    refine ⟨allocator, loop_leaves (by simp [freeByParentTurn]), ?_, keeps_refl _ _⟩
    rwa [withoutDescendants_self (by simpa using passed)]
  | succ count inductionHypothesis =>
    cases lower with
    | nil =>
      refine ⟨allocator, loop_leaves (by simp [freeByParentTurn]), ?_, keeps_refl _ _⟩
      rwa [withoutDescendants_self (by simpa using passed)]
    | cons block lower =>
      have shape : upper ++ block :: lower = (upper ++ [block]) ++ lower := by simp
      by_cases child : block.parent = owner
      · have notRoot : block.addr ≠ allocator.rootBlock := by
          intro isRoot
          exact some (child ▸ holds.sound.rootParent block (by simp) isRoot)
        have step : Owns allocator.rootBlock (upper ++ block :: lower) block.addr owner :=
          ⟨block, by simp, notRoot, rfl, child⟩
        obtain ⟨middle, freed, heldMiddle, keptMiddle⟩ := children allocator _ block.addr holds ranks
          (Nat.lt_of_lt_of_le (ranks _ _ step) bounded) (block_some holds)
        obtain ⟨above, below, last, subtree, fromUpper, fewer, removed, heldLast, link, keptLast⟩ :=
          removeBlock_subtree holds notRoot heldMiddle keptMiddle.rootBlock
        have kept := keeps_trans keptMiddle keptLast
        have loaded := load_returns last block.addr 0
          ((inside_keeps kept).mpr (holds_inside holds List.mem_append_cons_self).1) offset_zero
        rw [Allocator.below, if_neg (block_some holds)] at link
        rw [link] at loaded
        obtain ⟨after, returned, held, keptRest⟩ := inductionHypothesis heldLast
          (by simp only [List.length_cons] at size; omega) (by
            rw [kept.rootBlock, ← subtree]
            exact fun one other owns => ranks _ _ ((owns_withoutSubtree _ _ _).mp owns).1) (by
            rw [kept.rootBlock]
            exact fun other member => passed other (fromUpper other member))
        rw [kept.rootBlock, ← subtree, withoutDescendants_child step] at held
        refine ⟨after, loop_continues ?_ returned, held, keeps_trans kept
          (keeps_mono keptRest fun key member => ?_)⟩
        · exact freeByParentTurn_frees holds child freed removed loaded
        · rw [← subtree] at member
          exact withoutSubtree_keys member
      · have rest := shape ▸ holds
        obtain ⟨after, returned, held, kept⟩ := inductionHypothesis rest
          (by simpa using size) (shape ▸ ranks) (by
            intro other member
            rcases List.mem_append.mp member with inUpper | isBlock
            · exact passed other inUpper
            · rw [List.mem_singleton.mp isBlock]
              exact fun _ => child)
        have passes := freeByParentTurn_passes (freeByParentWithin depth) holds child
        exact ⟨after, loop_continues passes returned, shape ▸ held, shape ▸ kept⟩

/-- Within a depth above the owner's rank, `free_by_parent` removes exactly the
owner's descendants. -/
theorem freeByParentWithin_spec (rank : Uint32 → Nat) (depth : Nat) (owner : Uint32)
    (blocks : List Block) (holds : Holds allocator blocks)
    (ranks : Ranks rank (Owns allocator.rootBlock blocks)) (deep : rank owner < depth)
    (some : owner ≠ 0) :
    ∃ after, Returns (freeByParentWithin depth (owner + 0x10)) allocator () after ∧
      Holds after (withoutDescendants allocator.rootBlock owner blocks) ∧
      Keeps (keys blocks) allocator after := by
  induction depth generalizing allocator owner blocks with
  | zero => omega
  | succ depth inductionHypothesis =>
    obtain ⟨after, returned, held, kept⟩ := @freeByParent_walk M _ allocator [] blocks depth
      owner some rank (by omega)
      (fun state others child held childRanks lower childSome =>
        inductionHypothesis child others held childRanks lower childSome)
      blocks.length holds (Nat.le_refl _) ranks (by simp)
    rw [← holds_lastBlock holds] at returned
    exact ⟨after, returns_bind.mpr ⟨_, _, returns_state.mpr ⟨rfl, rfl⟩, returned⟩, held, kept⟩

/-- `free_by_parent` removes exactly the descendants of a block. -/
theorem freeByParent_spec (blocks : List Block) (parent : Uint32)
    (holds : Holds allocator blocks) (owned : parent - 0x10 ∈ keys blocks) :
    ∃ after, Returns (freeByParent parent) allocator () after ∧
      Holds after (withoutDescendants allocator.rootBlock (parent - 0x10) blocks) ∧
      Keeps (keys blocks) allocator after := by
  obtain ⟨rank, ranks⟩ := acyclic_ranks (keys blocks)
    (by rintro child owner ⟨block, member, -, same, -⟩; exact mem_keys.mpr ⟨block, member, same⟩)
    holds.sound.acyclic
  obtain ⟨after, returned, held, kept⟩ := freeByParentWithin_spec rank
    (rank (parent - 0x10) + 1) (parent - 0x10) blocks holds ranks (Nat.lt_succ_self _)
    (holds_key_inside holds owned).2
  rw [BitVec.sub_add_cancel] at returned
  exact ⟨after, returns_recursive _ returned, held, kept⟩

/-- A turn of `free` at another block goes on to the one below. -/
theorem freeTurn_passes (memptr : Uint32) (holds : Holds allocator (upper ++ block :: lower))
    (different : block.addr ≠ memptr) :
    Returns (freeTurn memptr ⟨allocator.limit, block.addr⟩) allocator
      (.again ⟨allocator.limit, top lower⟩) allocator := by
  have guard : ¬ block.addr + 0x10 > allocator.limit := by
    have inside := (stacked_member holds.sound.stacked List.mem_append_cons_self).2
    have limit := allocator.limit.isLt
    bv_omega
  have turn : freeTurn (M := M) memptr ⟨allocator.limit, block.addr⟩ = _ :=
    (if_neg (block_some holds)).trans ((if_neg guard).trans (if_neg different))
  rw [turn]
  exact returns_bind.mpr ⟨_, _, returns_state.mpr ⟨rfl, rfl⟩,
    returns_bind.mpr ⟨_, _, load_below holds, returns_pure.mpr ⟨rfl, rfl⟩⟩⟩

/-- `free` removes a block other than the root with all its descendants. -/
theorem free_spec (memptr : Uint32) (holds : Holds allocator (upper ++ block :: lower))
    (here : block.addr = memptr - 0x10) (notRoot : block.addr ≠ allocator.rootBlock) :
    ∃ after, Returns (free memptr) allocator 0 after ∧
      Holds after (withoutSubtree allocator.rootBlock block.addr (upper ++ block :: lower)) ∧
      Keeps (keys (upper ++ block :: lower)) allocator after := by
  have absent : memptr - 0x10 ∉ keys upper := here ▸ absent_above holds
  have guard : ¬ block.addr + 0x10 > allocator.limit := by
    have inside := (stacked_member holds.sound.stacked List.mem_append_cons_self).2
    have limit := allocator.limit.isLt
    bv_omega
  have turn : freeTurn (M := M) (memptr - 0x10) ⟨allocator.limit, block.addr⟩ = _ :=
    (if_neg (block_some holds)).trans ((if_neg guard).trans (if_pos here))
  obtain ⟨middle, freed, heldMiddle, keptMiddle⟩ := freeByParent_spec (upper ++ block :: lower)
    (block.addr + 0x10) holds (by simp)
  rw [BitVec.add_sub_cancel] at heldMiddle
  obtain ⟨above, below, after, subtree, -, -, removed, held, -, kept⟩ :=
    removeBlock_subtree holds notRoot heldMiddle keptMiddle.rootBlock
  have walked := walk_to (freeTurn (memptr - 0x10)) (fun _ => allocator.limit)
    (memptr - 0x10) (fun _ _ _ held different => freeTurn_passes _ held different)
    [] upper (block :: lower) (by simpa using holds) absent 0 after
    (loop_leaves (by
      rw [top_cons, turn]
      exact returns_bind.mpr ⟨_, _, freed, returns_bind.mpr ⟨_, _, removed,
        returns_pure.mpr ⟨rfl, rfl⟩⟩⟩))
  rw [← holds_lastBlock holds] at walked
  exact ⟨after, returns_bind.mpr ⟨_, _, returns_state.mpr ⟨rfl, rfl⟩, walked⟩,
    subtree ▸ held, keeps_trans keptMiddle kept⟩

/-- `free` of no block changes nothing. -/
theorem free_missing (blocks : List Block) (memptr : Uint32)
    (holds : Holds allocator blocks) (absent : memptr - 0x10 ∉ keys blocks) :
    Returns (free memptr) allocator (-9) allocator := by
  have walked := walk_to (freeTurn (memptr - 0x10)) (fun _ => allocator.limit)
    (memptr - 0x10) (fun _ _ _ held different => freeTurn_passes _ held different)
    [] blocks [] (by simpa using holds) absent (-9) allocator
    (loop_leaves (by simp [freeTurn]))
  rw [List.append_nil, ← holds_lastBlock holds] at walked
  exact returns_bind.mpr ⟨_, _, returns_state.mpr ⟨rfl, rfl⟩, walked⟩

end Vx68k.Allocator
