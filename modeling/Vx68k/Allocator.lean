import Vx68k.AddressSpace

/-!
# The memory allocator

The DOS memory allocator keeps its blocks as a doubly linked list in guest memory.
A block starts with a header of sixteen bytes, four long words: the address of the
block below, the block of the parent program, the end of the block and the address
of the block above. Pointers given to programs are sixteen past the header.

The definitions follow the member functions statement by statement; address
arithmetic is modulo 2^32 as in the source. The result of a call is a signed
number: a pointer, zero or an error code. The tracing calls are left out.
-/

namespace Vx68k

open Programs

/-- The members of a `memory_allocator`. -/
structure Allocator (M : Type) where
  as : M
  limit : Uint32
  rootBlock : Uint32
  lastBlock : Uint32

namespace Allocator

/-- A member function of the allocator. -/
abbrev Method (M α : Type) := Program Thrown (Allocator M) α

/-- A 32-bit value read as a signed number. -/
def svalue (value : Uint32) : Int := value.toInt

/-- A pointer that is passed as a signed result comes back. -/
@[simp]
theorem ofInt_svalue (value : Uint32) : BitVec.ofInt 32 (svalue value) = value := BitVec.ofInt_toInt

/-- Round down to a multiple of sixteen. -/
def alignDown (value : Uint32) : Uint32 := value &&& ~~~0xf

/-- Round up to a multiple of sixteen. -/
def alignUp (value : Uint32) : Uint32 := alignDown (value + 0xf)

variable {M : Type} [Bus M]

/-- Read a long word through the allocator's address space. -/
def load (address : Uint32) : Method M Uint32 :=
  .atomic fun allocator => (Bus.get32 allocator.as address, allocator)

/-- Write a long word through the allocator's address space. -/
def store (address value : Uint32) : Method M Unit :=
  .atomic fun allocator =>
    let ending := Bus.put32 address value allocator.as
    (ending.1, { allocator with as := ending.2 })

/-- A load returns what the address space has there and changes nothing. -/
theorem returns_load {allocator after : Allocator M} {address value : Uint32} :
    Returns (load address) allocator value after ↔
      Bus.get32 allocator.as address = .ok value ∧ allocator = after := by
  rw [load, returns_atomic, Prod.mk.injEq]

/-- Assign the member `last_block`. -/
def setLastBlock (block : Uint32) : Method M Unit :=
  .update fun allocator => { allocator with lastBlock := block }

/-- Take a block out of the list: its neighbours are linked to each other, or the one below it
becomes the last block. -/
def removeBlock (block : Uint32) : Method M Unit := do
  let prev ← load (block + 0)
  let next ← load (block + 12)
  store (prev + 12) next
  if next ≠ 0 then store (next + 0) prev else setLastBlock prev

/-- Put a block with a length and an owner into the list, above a given one. -/
def makeBlock (block len prev parent : Uint32) : Method M Unit := do
  let next ← load (prev + 12)
  store (block + 0) prev
  store (block + 4) parent
  store (block + 8) (block + len)
  store (block + 12) next
  store (prev + 12) block
  if next ≠ 0 then store (next + 0) block else setLastBlock block

/-- One turn of `free_by_parent`, with the recursive call as a parameter. -/
def freeByParentTurn (self : Uint32 → Method M Unit) (parent block : Uint32) :
    Method M (Turn Uint32 Unit) :=
  if block = 0 then pure (.leave ())
  else do
    let owner ← load (block + 4)
    if owner = parent - 0x10 then
      self (block + 0x10)
      removeBlock block
    let below ← load (block + 0)
    pure (.again below)

/-- `free_by_parent` with its recursion cut off below a depth. -/
def freeByParentWithin : Nat → Uint32 → Method M Unit
  | 0, _ => .diverge
  | depth + 1, parent => do
    let allocator ← .state
    .loop (freeByParentTurn (freeByParentWithin depth) parent) allocator.lastBlock

/-- A turn is monotone in its recursive call. -/
theorem freeByParentTurn_extends {self longer : Uint32 → Method M Unit}
    (extended : ∀ argument, Extends (self argument) (longer argument)) (parent block : Uint32) :
    Extends (freeByParentTurn self parent block) (freeByParentTurn longer parent block) := by
  unfold freeByParentTurn
  split
  · exact extends_refl _
  · apply extends_bind (extends_refl _)
    intro owner
    dsimp only
    split
    · exact extends_bind (extended _) fun _ => extends_refl _
    · exact extends_refl _

/-- A deeper recursion extends a shallower one. -/
theorem freeByParentWithin_grows (depth : Nat) (parent : Uint32) :
    Extends (freeByParentWithin (M := M) depth parent) (freeByParentWithin (depth + 1) parent) := by
  induction depth generalizing parent with
  | zero =>
    intro fuel state ending ended
    exact absurd ended (by simp [freeByParentWithin, Program.diverge])
  | succ depth inductionHypothesis =>
    exact extends_bind (extends_refl _) fun allocator =>
      extends_loop (fun block => freeByParentTurn_extends inductionHypothesis parent block) _

/-- Free every block that a given block owns, with those that it owns in turn. -/
def freeByParent (parent : Uint32) : Method M Unit :=
  .recursive freeByParentWithin freeByParentWithin_grows parent

/-- The variables of a walk over the list: the lower bound of what has been passed
and the block to look at. -/
structure Walk where
  next : Uint32
  block : Uint32

/-- One turn of `free`; `memptr` is the block's address already. Every turn sets
`next` to the limit. -/
def freeTurn (memptr : Uint32) (walk : Walk) : Method M (Turn Walk Int) :=
  if walk.block = 0 then pure (.leave (-9))
  else if walk.block + 0x10 > walk.next then pure (.leave (-7))
  else if walk.block = memptr then do
    freeByParent (walk.block + 0x10)
    removeBlock walk.block
    pure (.leave 0)
  else do
    let allocator ← .state
    let below ← load (walk.block + 0)
    pure (.again ⟨allocator.limit, below⟩)

/-- Free a block and all that descends from it. -/
def free (memptr : Uint32) : Method M Int := do
  let allocator ← .state
  .loop (freeTurn (memptr - 0x10)) ⟨allocator.limit, allocator.lastBlock⟩

/-- The code for a request that only a smaller length would meet. -/
def shortage (longest : Uint32) : Int :=
  if longest = 0x10 then svalue 0x82000000 else svalue (0x81000000 + (longest - 0x10))

/-- One turn of `resize`; `memptr` is the block's address already. -/
def resizeTurn (memptr newBrk : Uint32) (walk : Walk) : Method M (Turn Walk Int) :=
  if walk.block = 0 then pure (.leave (-9))
  else if walk.block + 0x10 > walk.next then pure (.leave (-7))
  else if walk.block = memptr then
    if walk.next < newBrk then pure (.leave (shortage (walk.next - walk.block)))
    else do
      store (walk.block + 8) newBrk
      pure (.leave 0)
  else do
    let below ← load (walk.block + 0)
    pure (.again ⟨walk.block, below⟩)

/-- Move the end of a block, if the next one leaves room. -/
def resize (memptr newlen : Uint32) : Method M Int := do
  let allocator ← .state
  .loop (resizeTurn (memptr - 0x10) (memptr + newlen)) ⟨allocator.limit, allocator.lastBlock⟩

/-- The variables of the walk of `alloc`. -/
structure AllocWalk extends Walk where
  maxFreeLen : Uint32

/-- One turn of `alloc`; `len` includes the header already. -/
def allocTurn (len parent : Uint32) (walk : AllocWalk) : Method M (Turn AllocWalk Int) :=
  if walk.block = 0 then pure (.leave (shortage walk.maxFreeLen))
  else if walk.block + 0x10 > walk.next then pure (.leave (-7))
  else do
    let brk ← load (walk.block + 8)
    let candidate := alignUp brk
    let freeLen := walk.next - candidate
    if freeLen ≥ len then
      makeBlock candidate len walk.block (parent - 0x10)
      pure (.leave (svalue (candidate + 0x10)))
    else do
      let maxFreeLen := if freeLen > walk.maxFreeLen then freeLen else walk.maxFreeLen
      let below ← load (walk.block + 0)
      pure (.again ⟨⟨walk.block, below⟩, maxFreeLen⟩)

/-- Allocate a block in the first gap from the top that is long enough. -/
def alloc (len parent : Uint32) : Method M Int := do
  let allocator ← .state
  .loop (allocTurn (len + 0x10) parent) ⟨⟨allocator.limit, allocator.lastBlock⟩, 0x10⟩

/-- The variables of the walk of `alloc_largest`. -/
structure LargestWalk extends Walk where
  bestBlock : Uint32
  bestCandidate : Uint32
  maxFreeLen : Uint32

/-- One turn of `alloc_largest`. The walk ends with its variables, or with none
where the source returns from inside the loop. -/
def allocLargestTurn (walk : LargestWalk) : Method M (Turn LargestWalk (Option LargestWalk)) :=
  if walk.block = 0 then pure (.leave (some walk))
  else if walk.block + 0x10 > walk.next then pure (.leave none)
  else do
    let brk ← load (walk.block + 8)
    let candidate := alignUp brk
    let freeLen := walk.next - candidate
    let below ← load (walk.block + 0)
    if freeLen > walk.maxFreeLen then
      pure (.again ⟨⟨walk.block, below⟩, walk.block, candidate, freeLen⟩)
    else pure (.again ⟨⟨walk.block, below⟩, walk.bestBlock, walk.bestCandidate, walk.maxFreeLen⟩)

/-- Allocate a block that takes up the longest gap. -/
def allocLargest (parent : Uint32) : Method M Int := do
  let allocator ← .state
  let walked ← .loop allocLargestTurn ⟨⟨allocator.limit, allocator.lastBlock⟩, 0, 0, 0x10⟩
  match walked with
  | none => pure (-7)
  | some walk =>
    if walk.maxFreeLen = 0x10 then pure (svalue 0x82000000)
    else do
      makeBlock walk.bestCandidate walk.maxFreeLen walk.bestBlock (parent - 0x10)
      pure (svalue (walk.bestCandidate + 0x10))

/-- The members before the constructor's body runs. -/
def blank (as : M) (lim : Uint32) : Allocator M := ⟨as, alignDown lim, 0, 0⟩

/-- The body of the constructor. -/
def construct (address : Uint32) : Method M Unit := do
  store (alignUp address + 0) 0
  store (alignUp address + 4) 0
  store (alignUp address + 8) (alignUp address + 0x10)
  store (alignUp address + 12) 0
  .update fun allocator =>
    { allocator with rootBlock := alignUp address, lastBlock := alignUp address }

/-- The address of the root block's contents. -/
def root (allocator : Allocator M) : Uint32 := allocator.rootBlock + 0x10

end Allocator

end Vx68k
