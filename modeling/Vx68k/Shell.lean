import Vx68k.AllocatorRuns
import Vx68k.DosContext

/-!
# The shell of a host

A shell is a pseudo process that the host runs a DOS program from. Its constructor
allocates a block and becomes the current process, its destructor reads the parent
back from the block's header, makes it current again and frees the block. Nothing
records what a program run by `exec` has allocated. All of it belongs to the
subtree of the shell's block, and freeing that block frees the subtree.

The processor is a parameter. Of the one run that `exec` makes of it, from the state
in which it starts the loaded program, it is assumed that the allocator changes by DOS
calls only. Stores by `exec` and by the guest are assumed to leave the headers of live
blocks alone, since both can write anywhere.
-/

namespace Vx68k.Shell

open Programs ByteStores DosExecContext Forests
open Allocator hiding Method load

variable {M : Type} [Bus M]

/-- What a run of the processor ends with. -/
inductive Stop where
  | quitLoop (status : BitVec 16)
  | illegalInstruction
  | thrown (failure : Thrown)

/-- The processor, from the program counter on and in user state. -/
abbrev Processor (M : Type) := Program Stop (DosExecContext M) Unit

/-- The state in which the processor starts a program at an address. -/
def entered (address : Uint32) (context : DosExecContext M) : DosExecContext M :=
  { context with regs := { context.regs with usp := context.regs.a 7, pc := address } }

/-- `dos_exec_context::start`. A processor that stops without an exception aborts
the emulator, after which nothing else runs. -/
def start (run : Processor M) (address : Uint32) : Method M (BitVec 16) := do
  .update (entered address)
  let stopped ← .attempt run
  match stopped with
  | .ok () => .diverge
  | .error (.quitLoop status) => pure status
  | .error (.thrown (.runtimeError what)) => .raise (.runtimeError what)
  | .error .illegalInstruction | .error (.thrown .memoryException) =>
    let context ← .state
    let _ ← get16 context.regs.pc
    pure 0xff

/-- The size of an environment block: its own size, the strings with their
terminators and one more, and room of at least 0x200, rounded up. -/
def envSize (envp : List (List Byte)) : Nat :=
  (4 + 1 + (envp.map fun entry => entry.length + 1).sum + 0x200 + 0x1ff) / 0x200 * 0x200

/-- Write strings one after the other. -/
def writeStrings : List (List Byte) → Uint32 → Method M Unit
  | [], _ => pure ()
  | entry :: rest, address => do
    write address (entry ++ [0])
    writeStrings rest (address + BitVec.ofNat 32 (entry.length + 1))

/-- The stores of `create_env` into the block it has allocated. -/
def fillEnv (envp : List (List Byte)) (env : Uint32) : Method M Unit := do
  put32 env (BitVec.ofNat 32 (envSize envp))
  writeStrings envp (env + 4)

/-- Allocate a block and fill it with an environment. -/
def createEnv (envp : List (List Byte)) : Method M Uint32 := do
  let env ← malloc (BitVec.ofNat 32 (envSize envp))
  fillEnv envp (BitVec.ofInt 32 env)
  pure (BitVec.ofInt 32 env)

/-- The argument string: the arguments with blanks between them. -/
def argument (argv : List (List Byte)) : List Byte := [0x20].intercalate argv

/-- The stores of `exec` into the shell's block. -/
def putArgument (pdb : Uint32) (arg : List Byte) : Method M Unit := do
  let pdbBase := pdb - 0x10
  put8 (pdbBase + 0x100) (BitVec.ofNat 32 arg.length)
  write (pdbBase + 0x101) (arg ++ [0])

/-- The stretch of stores and register set-up between the two allocations. -/
def prepare (pdb env : Uint32) (argv envp : List (List Byte)) : Method M Unit := do
  fillEnv envp env
  putArgument pdb (argument argv)
  setA 7 (pdb + 0x2000)

/-- Run a program with arguments and an environment in a process of its own. -/
def exec (host : Host) (run : Processor M) (pdb : Uint32) (name : List Byte)
    (argv envp : List (List Byte)) : Method M (BitVec 16) := do
  let env ← createEnv envp
  putArgument pdb (argument argv)
  setA 7 (pdb + 0x2000)
  let childPdb ← load host name (pdb - 0x10 + 0x100) env
  setpdb childPdb
  let context ← .state
  start run (context.regs.a 4)

/-- The destructor. -/
def destruct (pdb : Uint32) : Method M Unit := do
  let pdbBase := pdb - 0x10
  let owner ← get32 (pdbBase + 4)
  setpdb (owner + 0x10)
  let _ ← mfree pdb

/-- The constructor, with the new member `pdb` as its result. -/
def construct : Method M Uint32 := do
  let code ← malloc 0x2000
  let pdb := BitVec.ofInt 32 code
  let pdbBase := pdb - 0x10
  put32 (pdbBase + 0x10) 0
  setpdb pdb
  pure pdb

/-- A stretch that only stores: the allocator's members and the current process
stay, and so do the headers of live blocks. -/
structure Intact (before after : DosExecContext M) : Prop where
  limit : after.allocator.limit = before.allocator.limit
  rootBlock : after.allocator.rootBlock = before.allocator.rootBlock
  lastBlock : after.allocator.lastBlock = before.allocator.lastBlock
  currentPdb : after.currentPdb = before.currentPdb
  size : Bus.size after.allocator.as = Bus.size before.allocator.as
  headers : ∀ pointer, Live before.allocator pointer → ∀ index, pointer.toNat ≤ index + 0x10 →
    index < pointer.toNat →
    Bus.byte after.allocator.as index = Bus.byte before.allocator.as index

/-- What a guest program does to the DOS side: it computes, leaving the headers
alone, calls `_MALLOC` and calls `_SETBLOCK` on the blocks it was given. -/
inductive GuestRun : List Uint32 → DosExecContext M → DosExecContext M → Prop
  | stop (given : List Uint32) (context : DosExecContext M) : GuestRun given context context
  | compute (given : List Uint32) (before middle after : DosExecContext M)
      (intact : Intact before middle) (rest : GuestRun given middle after) :
      GuestRun given before after
  | malloc (given : List Uint32) (before middle after : DosExecContext M) (len : Uint32) (code : Int)
      (fits : len.toNat + 0x10 < 2 ^ 32) (returned : Returns (malloc len) before code middle)
      (rest : GuestRun (if 0 ≤ code then BitVec.ofInt 32 code :: given else given) middle after) :
      GuestRun given before after
  | setblock (given : List Uint32) (before middle after : DosExecContext M)
      (memptr newlen : Uint32) (code : Int) (owned : memptr ∈ given)
      (fits : memptr.toNat + newlen.toNat < 2 ^ 32)
      (returned : Returns (setblock memptr newlen) before code middle)
      (rest : GuestRun given middle after) : GuestRun given before after

/-- A guest program behaves from the state in which it is started to the one in which it stops.
The first block that it was given is its own. -/
def Behaved (started halted : DosExecContext M) : Prop :=
  GuestRun [started.currentPdb] started halted

/-- The runs of `exec`, cut at its two allocations and its stretches of stores.
Each allocation's result satisfies `made`, each stretch of stores `intact`, and the run
of the processor that `exec` comes to `guest`. -/
inductive Execution (made : Int → Prop) (intact guest : DosExecContext M → DosExecContext M → Prop)
    (host : Host) (run : Processor M) (pdb : Uint32) (name : List Byte) (argv envp : List (List Byte))
    (before : DosExecContext M) : Except Thrown (BitVec 16) → DosExecContext M → Prop
  | envRefused (failure : Thrown) (after : DosExecContext M)
      (raised : Raises (malloc (BitVec.ofNat 32 (envSize envp))) before failure after) :
      Execution made intact guest host run pdb name argv envp before (.error failure) after
  | preparation (env : Int) (allocated after : DosExecContext M) (failure : Thrown)
      (returned : Returns (malloc (BitVec.ofNat 32 (envSize envp))) before env allocated)
      (success : made env)
      (raised : Raises (prepare pdb (BitVec.ofInt 32 env) argv envp) allocated failure after)
      (kept : intact allocated after) :
      Execution made intact guest host run pdb name argv envp before (.error failure) after
  | childRefused (env : Int) (allocated prepared after : DosExecContext M) (failure : Thrown)
      (returned : Returns (malloc (BitVec.ofNat 32 (envSize envp))) before env allocated)
      (success : made env)
      (stored : Returns (prepare pdb (BitVec.ofInt 32 env) argv envp) allocated () prepared)
      (kept : intact allocated prepared)
      (raised : Raises mallocLargest prepared failure after) :
      Execution made intact guest host run pdb name argv envp before (.error failure) after
  | loading (env child : Int) (allocated prepared given after : DosExecContext M) (failure : Thrown)
      (returned : Returns (malloc (BitVec.ofNat 32 (envSize envp))) before env allocated)
      (success : made env)
      (stored : Returns (prepare pdb (BitVec.ofInt 32 env) argv envp) allocated () prepared)
      (kept : intact allocated prepared)
      (granted : Returns mallocLargest prepared child given) (more : made child)
      (raised : Raises (loadInto host name (pdb - 0x10 + 0x100) (BitVec.ofInt 32 env)
        (BitVec.ofInt 32 child)) given failure after)
      (left : intact given after) :
      Execution made intact guest host run pdb name argv envp before (.error failure) after
  | running (env child : Int) (allocated prepared given loaded after : DosExecContext M)
      (outcome : Except Thrown (BitVec 16))
      (returned : Returns (malloc (BitVec.ofNat 32 (envSize envp))) before env allocated)
      (success : made env)
      (stored : Returns (prepare pdb (BitVec.ofInt 32 env) argv envp) allocated () prepared)
      (kept : intact allocated prepared)
      (granted : Returns mallocLargest prepared child given) (more : made child)
      (filled : Returns (loadInto host name (pdb - 0x10 + 0x100) (BitVec.ofInt 32 env)
        (BitVec.ofInt 32 child)) given () loaded)
      (left : intact given loaded)
      (behaved : ∀ stopped halted,
        Ends run (entered (loaded.regs.a 4) { loaded with currentPdb := BitVec.ofInt 32 child })
          stopped halted →
        guest (entered (loaded.regs.a 4) { loaded with currentPdb := BitVec.ofInt 32 child }) halted)
      (ended : Ends (start run (loaded.regs.a 4))
        { loaded with currentPdb := BitVec.ofInt 32 child } outcome after) :
      Execution made intact guest host run pdb name argv envp before outcome after

/-- `exec` as its phases, in the order of the source. -/
theorem exec_phases (host : Host) (run : Processor M) (pdb : Uint32) (name : List Byte)
    (argv envp : List (List Byte)) : exec host run pdb name argv envp = (do
      let env ← malloc (BitVec.ofNat 32 (envSize envp))
      prepare pdb (BitVec.ofInt 32 env) argv envp
      let child ← mallocLargest
      loadInto host name (pdb - 0x10 + 0x100) (BitVec.ofInt 32 env) (BitVec.ofInt 32 child)
      setpdb (BitVec.ofInt 32 child)
      let context ← .state
      start run (context.regs.a 4)) := by
  simp only [exec, createEnv, prepare, load, bind_assoc, pure_bind]

/-- The last phase starts the guest under its own process. -/
theorem started_ends (run : Processor M) (child : Uint32) (before after : DosExecContext M)
    (outcome : Except Thrown (BitVec 16)) :
    Ends (do setpdb child; let context ← .state; start run (context.regs.a 4)) before outcome after ↔
      Ends (start run (before.regs.a 4)) { before with currentPdb := child } outcome after :=
  ends_after_update.trans ends_after_state

/-- Without requirements, these are all runs of `exec`. -/
theorem exec_execution (host : Host) (run : Processor M) (pdb : Uint32) (name : List Byte)
    (argv envp : List (List Byte)) (before after : DosExecContext M)
    (outcome : Except Thrown (BitVec 16)) :
    Execution (fun _ => True) (fun _ _ => True) (fun _ _ => True) host run pdb name argv envp before
      outcome after ↔
      Ends (exec host run pdb name argv envp) before outcome after := by
  rw [exec_phases]
  constructor
  · intro execution
    cases execution with
    | envRefused failure after raised => exact ends_bind.mpr (Or.inl ⟨failure, raised, rfl⟩)
    | preparation env allocated after failure returned _ raised _ =>
      exact ends_bind.mpr (Or.inr ⟨env, allocated, returned,
        ends_bind.mpr (Or.inl ⟨failure, raised, rfl⟩)⟩)
    | childRefused env allocated prepared after failure returned _ stored _ raised =>
      exact ends_bind.mpr (Or.inr ⟨env, allocated, returned, ends_bind.mpr (Or.inr ⟨(), prepared,
        stored, ends_bind.mpr (Or.inl ⟨failure, raised, rfl⟩)⟩)⟩)
    | loading env child allocated prepared given after failure returned _ stored _ granted _ raised _ =>
      exact ends_bind.mpr (Or.inr ⟨env, allocated, returned, ends_bind.mpr (Or.inr ⟨(), prepared,
        stored, ends_bind.mpr (Or.inr ⟨child, given, granted,
          ends_bind.mpr (Or.inl ⟨failure, raised, rfl⟩)⟩)⟩)⟩)
    | running env child allocated prepared given loaded after outcome returned _ stored _ granted _
        filled _ _ ended =>
      exact ends_bind.mpr (Or.inr ⟨env, allocated, returned, ends_bind.mpr (Or.inr ⟨(), prepared,
        stored, ends_bind.mpr (Or.inr ⟨child, given, granted, ends_bind.mpr (Or.inr ⟨(), loaded,
          filled, (started_ends run _ loaded after outcome).mpr ended⟩)⟩)⟩)⟩)
  · intro ended
    rcases ends_bind.mp ended with ⟨failure, raised, rfl⟩ | ⟨env, allocated, returned, ended⟩
    · exact .envRefused failure after raised
    rcases ends_bind.mp ended with ⟨failure, raised, rfl⟩ | ⟨_, prepared, stored, ended⟩
    · exact .preparation env allocated after failure returned trivial raised trivial
    rcases ends_bind.mp ended with ⟨failure, raised, rfl⟩ | ⟨child, given, granted, ended⟩
    · exact .childRefused env allocated prepared after failure returned trivial stored trivial raised
    rcases ends_bind.mp ended with ⟨failure, raised, rfl⟩ | ⟨_, loaded, filled, ended⟩
    · exact .loading env child allocated prepared given after failure returned trivial stored trivial
        granted trivial raised trivial
    · exact .running env child allocated prepared given loaded after outcome returned trivial stored
        trivial granted trivial filled trivial (fun _ _ _ => trivial)
        ((started_ends run _ loaded after outcome).mp ended)

/-- What holds between the constructor and the destructor: the shell's block is
live and names its parent, the current process belongs to its subtree, and without
the subtree the list is the one from before. -/
structure Hosting (shell owner : Uint32) (original : List Block) (context : DosExecContext M)
    (blocks : List Block) : Prop where
  holds : Holds context.allocator blocks
  own : ∃ block ∈ blocks, block.addr = shell ∧ block.parent = owner
  notRoot : shell ≠ context.allocator.rootBlock
  rest : withoutSubtree context.allocator.rootBlock shell blocks = original
  current : Within context.allocator.rootBlock blocks shell (context.currentPdb - 0x10)

variable {shell owner : Uint32} {original blocks : List Block} {context after : DosExecContext M}

/-- A block of the shell's subtree. -/
def Hosted (shell : Uint32) (context : DosExecContext M) (blocks : List Block) (pointer : Uint32) :
    Prop := Within context.allocator.rootBlock blocks shell (pointer - 0x10)

/-- The shell's block is live. -/
theorem hosting_live (hosting : Hosting shell owner original context blocks) : shell ∈ keys blocks := by
  obtain ⟨block, member, here, -⟩ := hosting.own
  exact mem_keys.mpr ⟨block, member, here⟩

/-- A block allocated by the current process joins the shell's subtree. -/
theorem hosting_added {allocator : Allocator M} {added below : Block} {upper lower : List Block}
    {others : List Uint32} (hosting : Hosting shell owner original context (upper ++ below :: lower))
    (held : Holds allocator (upper ++ added :: below :: lower))
    (frame : Keeps others context.allocator allocator)
    (owned : added.parent = context.currentPdb - 0x10) :
    Hosting shell owner original { context with allocator := allocator }
        (upper ++ added :: below :: lower) ∧
      Hosted shell { context with allocator := allocator } (upper ++ added :: below :: lower)
        (added.addr + 0x10) ∧
      ∀ pointer, Hosted shell context (upper ++ below :: lower) pointer →
        Hosted shell { context with allocator := allocator } (upper ++ added :: below :: lower)
          pointer := by
  have root := frame.rootBlock
  have sound := hosting.holds.sound
  have more := held.sound
  rw [root, frame.limit] at more
  obtain ⟨fresh, new⟩ := insert_fresh added below sound more
  have grown {key : Uint32} (within : Within context.allocator.rootBlock (upper ++ below :: lower)
      shell key) : Within context.allocator.rootBlock (upper ++ added :: below :: lower) shell key := by
    rcases within with same | descends
    · exact Or.inl same
    · exact Or.inr (descends_mono (fun child parent old =>
        (owns_insert added below new child parent).mpr (Or.inl old)) descends)
  have step : Owns context.allocator.rootBlock (upper ++ added :: below :: lower) added.addr
      (context.currentPdb - 0x10) := owned ▸ (owns_insert added below new _ _).mpr (Or.inr ⟨rfl, rfl⟩)
  refine ⟨⟨held, ?_, ?_, ?_, ?_⟩, ?_, fun pointer hosted => ?_⟩
  · obtain ⟨block, member, rest⟩ := hosting.own
    exact ⟨block, mem_insert.mpr (Or.inr member), rest⟩
  · exact root ▸ hosting.notRoot
  · rw [root, withoutSubtree_insert added below sound more (owned ▸ hosting.current)]
    exact hosting.rest
  · rw [root]
    exact grown hosting.current
  · rw [Hosted, BitVec.add_sub_cancel, root]
    rcases hosting.current with same | descends
    · exact Or.inr (.single (same ▸ step))
    · rcases grown (Or.inr descends) with same | further
      · exact Or.inr (.single (same ▸ step))
      · exact Or.inr (.head step further)
  · rw [Hosted, root]
    exact grown hosted

/-- The code for a shortage of memory is negative, whatever length it tells. -/
theorem shortage_negative (longest : Uint32) (bounded : longest.toNat ≤ 0x1000000) :
    ¬ 0 ≤ shortage longest := by
  have negative (value : Uint32) (high : 2 ^ 31 ≤ value.toNat) : ¬ 0 ≤ svalue value := by
    unfold svalue
    rw [BitVec.toInt_eq_toNat_cond]
    have bound := value.isLt
    split <;> omega
  unfold shortage
  split
  · exact negative _ (by decide)
  · exact negative _ (by bv_omega)

/-- The process keeps hosting across an allocation, whether it succeeds or not. -/
theorem hosting_malloc (len : Uint32) (fits : len.toNat + 0x10 < 2 ^ 32)
    (hosting : Hosting shell owner original context blocks) {code : Int}
    (returned : Returns (malloc len) context code after) :
    ∃ others, Hosting shell owner original after others ∧
      (0 ≤ code → Hosted shell after others (BitVec.ofInt 32 code)) ∧
      (∀ pointer, Hosted shell context blocks pointer → Hosted shell after others pointer) ∧
      after.currentPdb = context.currentPdb := by
  obtain ⟨allocator, called, rfl⟩ := returns_malloc.mp returned
  have spec := alloc_spec blocks len context.currentPdb fits hosting.holds
    (within_keys (hosting_live hosting) hosting.current)
  cases found : firstFit (len + 0x10) (context.currentPdb - 0x10) context.allocator.limit blocks with
  | none =>
    rw [found] at spec
    obtain ⟨rfl, rfl⟩ := returns_unique called spec
    refine ⟨blocks, hosting, fun success => absurd success (shortage_negative _ ?_), fun _ hosted => hosted,
      rfl⟩
    have bound := Bus.size_le context.allocator.as
    have room := hosting.holds.room
    exact widest_bounded _ _ (by decide) (by omega) hosting.holds.limitAligned
      hosting.holds.sound.stacked
  | some result =>
    rw [found] at spec
    obtain ⟨after, other, held, frame⟩ := spec
    obtain ⟨rfl, rfl⟩ := returns_unique called other
    obtain ⟨upper, block, lower, rfl, same, shape⟩ := firstFit_some found
    rw [same] at held
    obtain ⟨kept, hosted, still⟩ := hosting_added hosting held frame (by rw [shape])
    refine ⟨_, kept, fun _ => ?_, still, rfl⟩
    rw [ofInt_svalue]
    exact hosted

/-- The same for the largest block, which `load` allocates. -/
theorem hosting_mallocLargest (hosting : Hosting shell owner original context blocks) {code : Int}
    (returned : Returns mallocLargest context code after) :
    ∃ others, Hosting shell owner original after others ∧
      (0 ≤ code → Hosted shell after others (BitVec.ofInt 32 code)) := by
  obtain ⟨allocator, called, rfl⟩ := returns_mallocLargest.mp returned
  have spec := allocLargest_spec blocks context.currentPdb hosting.holds
    (within_keys (hosting_live hosting) hosting.current)
  cases found : fillWidest (context.currentPdb - 0x10) 0x10 context.allocator.limit blocks with
  | none =>
    rw [found] at spec
    obtain ⟨rfl, rfl⟩ := returns_unique called spec
    exact ⟨blocks, hosting, fun success => absurd success (by decide)⟩
  | some result =>
    rw [found] at spec
    obtain ⟨after, other, held, frame⟩ := spec
    obtain ⟨rfl, rfl⟩ := returns_unique called other
    obtain ⟨upper, block, lower, rfl, same, shape, -⟩ := fillWidest_some found
    rw [same] at held
    obtain ⟨kept, hosted, -⟩ := hosting_added hosting held frame (by rw [shape])
    refine ⟨_, kept, fun _ => ?_⟩
    rw [ofInt_svalue]
    exact hosted

/-- Resizing a block of the subtree changes nothing outside it. -/
theorem hosting_setblock (memptr newlen : Uint32) (fits : memptr.toNat + newlen.toNat < 2 ^ 32)
    (hosting : Hosting shell owner original context blocks)
    (hosted : Hosted shell context blocks memptr) {code : Int}
    (returned : Returns (setblock memptr newlen) context code after) :
    ∃ others, Hosting shell owner original after others ∧
      (∀ pointer, Hosted shell context blocks pointer → Hosted shell after others pointer) ∧
      after.currentPdb = context.currentPdb := by
  obtain ⟨allocator, called, rfl⟩ := returns_setblock.mp returned
  obtain ⟨block, member, here⟩ := mem_keys.mp (within_keys (hosting_live hosting) hosted)
  obtain ⟨upper, lower, rfl⟩ := List.append_of_mem member
  have spec := resize_spec memptr newlen fits hosting.holds here
  split at spec
  · obtain ⟨-, rfl⟩ := returns_unique called spec
    exact ⟨_, hosting, fun _ still => still, rfl⟩
  · obtain ⟨after, other, held, frame⟩ := spec
    obtain ⟨-, rfl⟩ := returns_unique called other
    have root := frame.rootBlock
    have relation : Owns context.allocator.rootBlock
        (upper ++ { block with brk := memptr + newlen } :: lower) =
        Owns context.allocator.rootBlock (upper ++ block :: lower) := by
      funext child parent
      exact propext (owns_resize block _ child parent)
    refine ⟨_, ⟨held, ?_, root ▸ hosting.notRoot, ?_, ?_⟩, fun pointer still => ?_, rfl⟩
    · obtain ⟨other, inside, rest⟩ := hosting.own
      simp only [List.mem_append, List.mem_cons] at inside
      rcases inside with inUpper | rfl | inLower
      · exact ⟨other, by simp [inUpper], rest⟩
      · exact ⟨{ other with brk := memptr + newlen }, by simp, rest⟩
      · exact ⟨other, by simp [inLower], rest⟩
    · rw [root, withoutSubtree_resize block _ (here ▸ hosted)]
      exact hosting.rest
    · rw [root, Within, relation]
      exact hosting.current
    · rw [Hosted, root, Within, relation]
      exact still

/-- Stores that leave the headers alone leave the list alone. -/
theorem holds_intact (holds : Holds context.allocator blocks) (intact : Intact context after) :
    Holds after.allocator blocks := by
  have same : after.allocator = { context.allocator with as := after.allocator.as } := by
    obtain ⟨⟨_, _, _, _⟩, _, _⟩ := after
    simp only [Allocator.mk.injEq, true_and]
    exact ⟨intact.limit, intact.rootBlock, intact.lastBlock⟩
  have left : Kept after.allocator blocks := by
    rw [same]
    exact kept_live _ (holds_kept holds) intact.size intact.headers
  exact kept_holds left (intact.rootBlock ▸ holds.rootSome)

/-- They leave the host's list alone too. -/
theorem hosting_intact (hosting : Hosting shell owner original context blocks)
    (intact : Intact context after) : Hosting shell owner original after blocks := by
  have root := intact.rootBlock
  refine ⟨holds_intact hosting.holds intact, hosting.own, root ▸ hosting.notRoot, ?_, ?_⟩
  · rw [root]
    exact hosting.rest
  · rw [root, intact.currentPdb]
    exact hosting.current

/-- A guest program keeps the host's list, whatever it allocates.

Proof: each step keeps it, and what the guest is given belongs to the subtree. -/
theorem hosting_guest {given : List Uint32} (run : GuestRun given context after)
    (hosting : Hosting shell owner original context blocks)
    (hosted : ∀ pointer ∈ given, Hosted shell context blocks pointer) :
    ∃ others, Hosting shell owner original after others := by
  induction run generalizing blocks with
  | stop given context => exact ⟨blocks, hosting⟩
  | compute given before middle after intact rest inductionHypothesis =>
    apply inductionHypothesis (hosting_intact hosting intact)
    intro pointer member
    rw [Hosted, intact.rootBlock]
    exact hosted pointer member
  | malloc given before middle after len code fits returned rest inductionHypothesis =>
    obtain ⟨others, kept, fresh, still, -⟩ := hosting_malloc len fits hosting returned
    apply inductionHypothesis kept
    intro pointer member
    split at member
    · rename_i success
      rcases List.mem_cons.mp member with rfl | old
      · exact fresh success
      · exact still pointer (hosted pointer old)
    · exact still pointer (hosted pointer member)
  | setblock given before middle after memptr newlen code owned fits returned rest
      inductionHypothesis =>
    obtain ⟨others, kept, still, -⟩ :=
      hosting_setblock memptr newlen fits hosting (hosted memptr owned) returned
    exact inductionHypothesis kept fun pointer member => still pointer (hosted pointer member)

/-- However the guest stops, `start` ends in the state it stopped in. -/
theorem start_ends (run : Processor M) (address : Uint32) {outcome : Except Thrown (BitVec 16)}
    (ended : Ends (start run address) context outcome after) :
    ∃ stopped, Ends run (entered address context) stopped after := by
  rcases ends_bind.mp (ends_after_update.mp ended) with ⟨failure, raised, -⟩ | ⟨stopped, last, returned, rest⟩
  · exact absurd raised not_raises_attempt
  have ran := returns_attempt.mp returned
  refine ⟨stopped, ?_⟩
  have report : Ends (do let context ← .state; let _ ← get16 context.regs.pc; pure 0xff :
      Method M (BitVec 16)) last outcome after → last = after := by
    intro reported
    rcases ends_bind.mp (ends_after_state.mp reported) with ⟨failure, raised, -⟩ | ⟨op, final, got, done⟩
    · rw [get16, raises_atomic] at raised
      exact (Prod.mk.inj raised).2
    · rw [get16, returns_atomic] at got
      exact (Prod.mk.inj got).2.trans (ends_pure.mp done).2
  have same : last = after := by
    rcases stopped with (_ | _ | (_ | what)) | ⟨⟩
    · exact (ends_pure.mp rest).2
    · exact report rest
    · exact report rest
    · exact (ends_raise.mp rest).2
    · exact absurd rest not_ends_diverge
  exact same ▸ ran

/-- The guest runs under its own process and leaves the host's list. -/
theorem hosting_start (run : Processor M) (address : Uint32)
    (behaved : ∀ stopped halted, Ends run (entered address context) stopped halted →
      Behaved (entered address context) halted)
    (hosting : Hosting shell owner original context blocks) {outcome : Except Thrown (BitVec 16)}
    (ended : Ends (start run address) context outcome after) :
    ∃ others, Hosting shell owner original after others := by
  obtain ⟨stopped, ran⟩ := start_ends run address ended
  have started : Hosting shell owner original (entered address context) blocks :=
    ⟨hosting.holds, hosting.own, hosting.notRoot, hosting.rest, hosting.current⟩
  refine hosting_guest (behaved stopped after ran) started fun pointer member => ?_
  rw [List.mem_singleton.mp member]
  exact hosting.current

/-- An allocation by a hosted process returns. -/
theorem malloc_returns (len : Uint32) (fits : len.toNat + 0x10 < 2 ^ 32)
    (hosting : Hosting shell owner original context blocks) :
    ∃ code after, Returns (malloc len) context code after := by
  have spec := alloc_spec blocks len context.currentPdb fits hosting.holds
    (within_keys (hosting_live hosting) hosting.current)
  split at spec
  · exact ⟨_, _, returns_malloc.mpr ⟨_, spec, rfl⟩⟩
  · obtain ⟨allocator, returned, -⟩ := spec
    exact ⟨_, _, returns_malloc.mpr ⟨allocator, returned, rfl⟩⟩

/-- The allocation of the longest gap returns. -/
theorem mallocLargest_returns (hosting : Hosting shell owner original context blocks) :
    ∃ code after, Returns mallocLargest context code after := by
  have spec := allocLargest_spec blocks context.currentPdb hosting.holds
    (within_keys (hosting_live hosting) hosting.current)
  split at spec
  · exact ⟨_, _, returns_mallocLargest.mpr ⟨_, spec, rfl⟩⟩
  · obtain ⟨allocator, returned, -⟩ := spec
    exact ⟨_, _, returns_mallocLargest.mpr ⟨allocator, returned, rfl⟩⟩

/-- The size of an environment's block does not wrap with its header. -/
theorem envSize_fits (envp : List (List Byte)) :
    (BitVec.ofNat 32 (envSize envp)).toNat + 0x10 < 2 ^ 32 := by
  rw [BitVec.toNat_ofNat, envSize]
  omega

/-- Where its allocations succeed, its stores leave the headers alone and the guest behaves, a
run of `exec` leaves the host's list, on normal and exceptional exits alike. -/
theorem hosting_exec (host : Host) (run : Processor M) (pdb : Uint32) (name : List Byte)
    (argv envp : List (List Byte))
    (hosting : Hosting shell owner original context blocks) {outcome : Except Thrown (BitVec 16)}
    (execution : Execution (0 ≤ ·) Intact Behaved host run pdb name argv envp context outcome after) :
    ∃ others, Hosting shell owner original after others := by
  cases execution with
  | envRefused failure after raised =>
    obtain ⟨code, other, returned⟩ := malloc_returns _ (envSize_fits envp) hosting
    exact absurd raised (returns_not_raises returned)
  | preparation env allocated after failure returned _ _ kept =>
    obtain ⟨others, hosting, -⟩ := hosting_malloc _ (envSize_fits envp) hosting returned
    exact ⟨others, hosting_intact hosting kept⟩
  | childRefused env allocated prepared after failure returned _ _ kept raised =>
    obtain ⟨others, hosting, -⟩ := hosting_malloc _ (envSize_fits envp) hosting returned
    obtain ⟨code, other, granted⟩ := mallocLargest_returns (hosting_intact hosting kept)
    exact absurd raised (returns_not_raises granted)
  | loading env child allocated prepared given after failure returned _ _ kept granted _ _ left =>
    obtain ⟨others, hosting, -⟩ := hosting_malloc _ (envSize_fits envp) hosting returned
    obtain ⟨more, hosting, -⟩ := hosting_mallocLargest (hosting_intact hosting kept) granted
    exact ⟨more, hosting_intact hosting left⟩
  | running env child allocated prepared given loaded after outcome returned _ _ kept granted success
      _ left behaved ended =>
    obtain ⟨others, hosting, -⟩ := hosting_malloc _ (envSize_fits envp) hosting returned
    obtain ⟨more, hosting, fresh⟩ := hosting_mallocLargest (hosting_intact hosting kept) granted
    have hosted := fresh success
    rw [Hosted, ← left.rootBlock] at hosted
    have hosting := hosting_intact hosting left
    have started : Hosting shell owner original
        { loaded with currentPdb := BitVec.ofInt 32 child } more :=
      ⟨hosting.holds, hosting.own, hosting.notRoot, hosting.rest, hosted⟩
    exact hosting_start run _ behaved started ended

/-- The destructor frees the shell's subtree and gives the parent its process back. -/
theorem destruct_returns (hosting : Hosting shell owner original context blocks) :
    ∃ after, Returns (destruct (shell + 0x10)) context () after ∧
      Holds after.allocator original ∧ after.currentPdb = owner + 0x10 := by
  obtain ⟨block, member, rfl, rfl⟩ := hosting.own
  obtain ⟨upper, lower, rfl⟩ := List.append_of_mem member
  obtain ⟨allocator, freed, held, -⟩ := free_spec (block.addr + 0x10) hosting.holds
    (BitVec.add_sub_cancel _ _).symm hosting.notRoot
  rw [hosting.rest] at held
  have read := (returns_load.mp (load_parent hosting.holds)).1
  obtain ⟨⟨aligned, room⟩, -⟩ := holds_inside hosting.holds member
  have bound := Bus.size_le context.allocator.as
  have some : block.addr + 0x10 ≠ 0 := by
    intro null
    bv_omega
  refine ⟨⟨allocator, block.parent + 0x10, context.regs⟩, ?_, held, rfl⟩
  refine returns_bind.mpr ⟨block.parent, context, ?_, ?_⟩
  · rw [BitVec.add_sub_cancel, get32, returns_atomic, read]
  refine returns_bind.mpr ⟨(), { context with currentPdb := block.parent + 0x10 },
    returns_update.mpr rfl, returns_bind.mpr ⟨0, _, ?_, returns_pure.mpr ⟨rfl, rfl⟩⟩⟩
  refine returns_bind.mpr ⟨_, _, returns_state.mpr ⟨rfl, rfl⟩, ?_⟩
  rw [if_neg some]
  exact returns_zoom.mpr ⟨allocator, freed, rfl⟩

/-- An allocation that succeeds makes its block in a gap of the list. -/
theorem malloc_made (len : Uint32) (fits : len.toNat + 0x10 < 2 ^ 32)
    (kept : Kept context.allocator blocks) (owned : context.currentPdb - 0x10 ∈ keys blocks) {code : Int}
    (returned : Returns (malloc len) context code after) (success : 0 ≤ code) :
    context.allocator.rootBlock ≠ 0 ∧ ∃ upper below lower added, blocks = upper ++ below :: lower ∧
      code = svalue (added.addr + 0x10) ∧
      after = { context with allocator := after.allocator } ∧
      Holds after.allocator (upper ++ added :: below :: lower) ∧
      Keeps (keys (upper ++ added :: below :: lower)) context.allocator after.allocator ∧
      added = ⟨alignUp below.brk, context.currentPdb - 0x10, alignUp below.brk + (len + 0x10)⟩ := by
  obtain ⟨allocator, called, rfl⟩ := returns_malloc.mp returned
  have some : context.allocator.rootBlock ≠ 0 := by
    intro null
    obtain ⟨rfl, -⟩ := returns_unique called (alloc_inert (kept.inert null) len context.currentPdb)
    exact shortage_negative 0x10 (by decide) success
  have holds := kept_holds kept some
  have spec := alloc_spec blocks len context.currentPdb fits holds owned
  cases found : firstFit (len + 0x10) (context.currentPdb - 0x10) context.allocator.limit blocks with
  | none =>
    rw [found] at spec
    obtain ⟨rfl, rfl⟩ := returns_unique called spec
    have bound := Bus.size_le context.allocator.as
    have room := holds.room
    exact absurd success (shortage_negative _ (widest_bounded _ _ (by decide) (by omega)
      holds.limitAligned holds.sound.stacked))
  | some result =>
    obtain ⟨added, rest⟩ := result
    rw [found] at spec
    obtain ⟨after, other, held, frame⟩ := spec
    obtain ⟨rfl, rfl⟩ := returns_unique called other
    obtain ⟨upper, below, lower, rfl, rfl, shape⟩ := firstFit_some found
    exact ⟨some, upper, below, lower, added, rfl, rfl, rfl, held, frame, shape⟩

/-- The constructor's store lies in the body of the new block, apart from all
headers. -/
theorem construct_hosting (kept : Kept context.allocator blocks)
    (owned : context.currentPdb - 0x10 ∈ keys blocks)
    (made : ∃ code middle, Returns (malloc 0x2000) context code middle ∧ 0 ≤ code) :
    ∃ shell after others, Returns construct context (shell + 0x10) after ∧
      Hosting shell (context.currentPdb - 0x10) blocks after others ∧
      ∃ block ∈ others, block.addr = shell ∧ block.brk = shell + 0x2010 := by
  obtain ⟨code, middle, returned, success⟩ := made
  obtain ⟨some, upper, below, lower, added, rfl, rfl, same, held, frame, shape⟩ :=
    malloc_made 0x2000 (by decide) kept owned returned success
  have member : added ∈ upper ++ added :: below :: lower := List.mem_append_cons_self
  obtain ⟨⟨aligned, room⟩, -⟩ := holds_inside held member
  obtain ⟨-, proper, high⟩ := stacked_member held.sound.stacked member
  have bound := Bus.size_le middle.allocator.as
  have limit := held.room
  have length : added.addr.toNat + 0x2010 = added.brk.toNat := by
    rw [shape] at proper high ⊢
    simp only at proper high ⊢
    bv_omega
  unfold Aligned at aligned
  obtain ⟨memory, stored, size, -, -, bytes⟩ := Bus.put32_spec (added.addr + 0x10) 0
    middle.allocator.as (by bv_omega) (by bv_omega)
  have left : Kept { middle.allocator with as := memory } (upper ++ added :: below :: lower) :=
    kept_body memory (holds_kept held) member size fun index outside => bytes index (by bv_omega)
  have sound := (kept_holds kept some).sound
  have more := held.sound
  rw [frame.rootBlock, frame.limit] at more
  have new := (insert_fresh added below sound more).2
  refine ⟨added.addr, ⟨{ middle.allocator with as := memory }, added.addr + 0x10, context.regs⟩,
    upper ++ added :: below :: lower, ?_, ⟨?_, ⟨added, member, rfl, by rw [shape]⟩, ?_, ?_, ?_⟩,
    added, member, rfl, by bv_omega⟩
  · refine returns_bind.mpr ⟨_, _, returned, ?_⟩
    rw [ofInt_svalue, same]
    refine returns_bind.mpr ⟨(), ⟨{ middle.allocator with as := memory }, context.currentPdb,
      context.regs⟩, ?_, ?_⟩
    · rw [BitVec.sub_add_cancel, put32, access, returns_atomic]
      simp only [stored]
    · exact returns_bind.mpr ⟨(), _, returns_update.mpr rfl, returns_pure.mpr ⟨rfl, rfl⟩⟩
  · exact kept_holds left (by simpa only [frame.rootBlock] using some)
  · simpa only [frame.rootBlock] using new
  · simp only [frame.rootBlock]
    exact withoutSubtree_added added below sound more
  · exact Or.inl (BitVec.add_sub_cancel _ _)

end Vx68k.Shell
