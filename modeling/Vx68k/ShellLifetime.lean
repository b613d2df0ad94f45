import Vx68k.LoadTraces
import Vx68k.Shell

/-!
# The lifetime of a shell

A shell leaves nothing behind, as long as the stores of `exec` and of its guest leave the headers
of live blocks alone and the guest behaves. For a file that fits its block and an argument string
that the shell's block holds, the stores of `exec` do so. A guest that resizes its block and
allocates another one behaves.
-/

namespace Vx68k.Shell

open Programs ByteStores DosExecContext
open Allocator hiding Method load

variable {M : Type} [Bus M] {blocks : List Block} {context after : DosExecContext M}

/-- Stores clear of the headers of a list, by the current process. -/
theorem framed_intact (kept : Kept context.allocator blocks)
    (framed : LoadTraces.Framed blocks context after) (process : after.currentPdb = context.currentPdb) :
    Intact context after where
  limit := by rw [framed.allocator]
  rootBlock := by rw [framed.allocator]
  lastBlock := by rw [framed.allocator]
  currentPdb := process
  size := framed.size
  headers pointer live index low high := by
    obtain ⟨others, also, block, member, rfl⟩ := live
    obtain rfl := kept_unique also kept
    have inside := (stacked_member kept.sound.stacked member).2
    have limit := context.allocator.limit.isLt
    exact framed.headers block member index (by bv_omega) (by bv_omega)

/-- A program that returns in memory of this size and stores clear of the headers. -/
def Storing (room : Nat) (blocks : List Block) (program : Method M Unit) : Prop :=
  ∀ before : DosExecContext M, room ≤ Bus.size before.allocator.as → ∃ after,
    Returns program before () after ∧ LoadTraces.Framed blocks before after ∧
      after.currentPdb = before.currentPdb

/-- A program stores where its parts do. -/
theorem storing_bind {room : Nat} {first : Method M Unit} {next : Unit → Method M Unit}
    (one : Storing room blocks first) (two : Storing room blocks (next ())) :
    Storing room blocks (first >>= next) := by
  intro before enough
  obtain ⟨middle, done, framed, process⟩ := one before enough
  obtain ⟨after, rest, further, still⟩ := two middle (by rw [framed.size]; exact enough)
  refine ⟨after, returns_bind.mpr ⟨(), middle, done, rest⟩, ⟨?_, further.size.trans framed.size, ?_⟩,
    still.trans process⟩
  · rw [further.allocator, framed.allocator]
  · intro block member index low high
    rw [further.headers block member index low high, framed.headers block member index low high]

/-- A register is no memory. -/
theorem storing_setA (room : Nat) (index : Fin 8) (value : Uint32) :
    Storing room blocks (setA index value : Method M Unit) :=
  fun _ _ => ⟨_, returns_update.mpr rfl, ⟨rfl, rfl, fun _ _ _ _ _ => rfl⟩, rfl⟩

/-- A write that is clear of the headers. -/
theorem storing_access {room start : Nat} {bytes : List Byte} {operation : M → Ending Thrown M Unit}
    (clear : LoadTraces.Clear room blocks (start, bytes.length))
    (stores : ∀ memory, room ≤ Bus.size memory → ∃ after, operation memory = (.ok (), after) ∧
      Stored Bus.size Bus.byte memory start bytes after) :
    Storing room blocks (access operation) := by
  intro before enough
  obtain ⟨memory, done, -⟩ := stores before.allocator.as enough
  have returned : Returns (access operation) before ()
      { before with allocator := { before.allocator with as := memory } } := by
    rw [access, returns_atomic]
    simp only [done]
  exact ⟨_, returned, LoadTraces.access_framed clear stores _ _ _ returned enough, rfl⟩

/-- Without an environment, `exec` stores the size of its block, the length of the argument string
and the string. -/
theorem prepare_storing {room : Nat} (pdb env : Uint32) (argv : List (List Byte))
    (aligned : env.toNat % 4 = 0) (size : LoadTraces.Clear room blocks (env.toNat, 4))
    (count : LoadTraces.Clear room blocks ((pdb - 0x10 + 0x100).toNat, 1))
    (text : LoadTraces.Clear room blocks ((pdb - 0x10 + 0x101).toNat, (argument argv).length + 1)) :
    Storing room blocks (prepare pdb env argv [] : Method M Unit) := by
  have sized := size.1
  have counted := count.1
  have ended := text.1
  dsimp only at sized counted ended
  rw [← encode_length 4 (BitVec.ofNat 32 (envSize [])).toNat] at size
  rw [← encode_length 1 (BitVec.ofNat 32 (argument argv).length).toNat] at count
  rw [← List.length_singleton (a := (0 : Byte)), ← List.length_append] at text
  have environment : Storing room blocks (fillEnv [] env : Method M Unit) :=
    storing_bind (storing_access size fun memory enough => Bus.put32_main _ _ _ aligned (by omega))
      fun before _ => ⟨before, returns_pure.mpr ⟨rfl, rfl⟩, ⟨rfl, rfl, fun _ _ _ _ _ => rfl⟩, rfl⟩
  have line : Storing room blocks (putArgument pdb (argument argv) : Method M Unit) :=
    storing_bind (storing_access count fun memory enough => Bus.put8_main _ _ _ (by omega))
      (storing_access text fun memory enough => Bus.write_main _ _ _ (by
        rw [List.length_append, List.length_singleton]
        omega))
  exact storing_bind environment (storing_bind line (storing_setA room 7 _))

/-- A load leaves the current process. -/
theorem kind_process (spans : List ProgramLoad.Span) :
    LoadTraces.Kind (fun before after : DosExecContext M => after.currentPdb = before.currentPdb)
      spans where
  refl _ := rfl
  trans _ _ _ first second := second.trans first
  registers _ _ := carries_atomic fun _ => rfl
  longs _ _ _ _ := carries_atomic fun _ => rfl
  bytes _ _ _ := carries_atomic fun _ => rfl
  strings _ _ _ := carries_atomic fun _ => rfl

/-- Loading a file that fits its block leaves the headers alone. -/
theorem loadInto_intact [EvenBus M] {host : Host} {file name : List Byte} {places : List Uint32}
    {block : Block} (holds : Holds context.allocator blocks) (member : block ∈ blocks)
    (there : host name = some file) (accepted : ProgramLoad.Accepted file (block.addr + 0x100) places)
    (fits : ProgramLoad.Fits block file name places) (arg env : Uint32) :
    ∃ loaded, Returns (loadInto host name arg env (block.addr + 0x10)) context () loaded ∧
      Intact context loaded := by
  obtain ⟨aligned, proper, high⟩ := stacked_member holds.sound.stacked member
  have limit := holds.room
  have bound := Bus.size_le context.allocator.as
  have even : block.addr.toNat % 2 = 0 := by
    unfold Aligned at aligned
    omega
  obtain ⟨done, loaded, returned, -⟩ := ProgramLoad.loadInto_lays (M := M) there accepted arg env
    aligned (by omega) (fun span written => (ProgramLoad.fits_inside fits span written).2) context
    (by omega)
  have straight := LoadTraces.fits_straight holds member there accepted fits
  have framed := LoadTraces.loadInto_carries arg env (LoadTraces.kind_framed straight) even
    (fun _ attempted => attempted) _ _ _ returned (Nat.le_refl _)
  have process := LoadTraces.loadInto_carries arg env (kind_process _) even
    (fun _ attempted => attempted) _ _ _ returned
  exact ⟨loaded, returned, framed_intact (holds_kept holds) framed process⟩

/-- An allocation that the list grants. -/
theorem malloc_granted {added : Block} {others : List Block} {pdb limit : Uint32}
    (holds : Holds context.allocator blocks) (process : context.currentPdb = pdb)
    (limited : context.allocator.limit = limit) (owned : pdb - 0x10 ∈ keys blocks) (len : Uint32)
    (fits : len.toNat + 0x10 < 2 ^ 32)
    (found : firstFit (len + 0x10) (pdb - 0x10) limit blocks = some (added, others)) :
    ∃ allocator : Allocator M,
      Returns (malloc len) context (svalue (added.addr + 0x10)) { context with allocator } ∧
        Holds allocator others ∧ allocator.limit = limit := by
  obtain rfl := process
  obtain rfl := limited
  have spec := alloc_spec blocks len context.currentPdb fits holds owned
  rw [found] at spec
  obtain ⟨allocator, called, held, frame⟩ := spec
  exact ⟨allocator, returns_malloc.mpr ⟨allocator, called, rfl⟩, held, frame.limit⟩

/-- The same for the largest allocation. -/
theorem mallocLargest_fills {added : Block} {others : List Block} {pdb limit : Uint32}
    (holds : Holds context.allocator blocks) (process : context.currentPdb = pdb)
    (limited : context.allocator.limit = limit) (owned : pdb - 0x10 ∈ keys blocks)
    (found : fillWidest (pdb - 0x10) 0x10 limit blocks = some (added, others)) :
    ∃ allocator : Allocator M,
      Returns mallocLargest context (svalue (added.addr + 0x10)) { context with allocator } ∧
        Holds allocator others ∧ allocator.limit = limit := by
  obtain rfl := process
  obtain rfl := limited
  have spec := allocLargest_spec blocks context.currentPdb holds owned
  rw [found] at spec
  obtain ⟨allocator, called, held, frame⟩ := spec
  exact ⟨allocator, returns_mallocLargest.mpr ⟨allocator, called, rfl⟩, held, frame.limit⟩

/-- A guest that exits ends the run with its status. -/
theorem start_quits {run : Processor M} {address : Uint32} {status : BitVec 16}
    (ran : Ends run (entered address context) (.error (.quitLoop status)) after) :
    Ends (start run address) context (.ok status) after :=
  ends_after_update.mpr ((ends_after (returns_attempt.mpr ran)).mpr (ends_pure.mpr ⟨rfl, rfl⟩))

/-- A guest that resizes its block, allocates another one and exits. -/
def resizeAndAllocate (newlen len : Uint32) : Program Stop (DosExecContext M) Unit := do
  let context ← .state
  let _ ← .attempt (setblock context.currentPdb newlen)
  let _ ← .attempt (malloc len)
  .raise (.quitLoop 0)

/-- Where there is room for both, it behaves. -/
theorem resizeAndAllocate_ends {upper lower others : List Block} {block added : Block}
    {newlen len pdb limit : Uint32} (holds : Holds context.allocator (upper ++ block :: lower))
    (process : context.currentPdb = pdb) (limited : context.allocator.limit = limit)
    (here : block.addr = pdb - 0x10) (fits : pdb.toNat + newlen.toNat < 2 ^ 32)
    (more : len.toNat + 0x10 < 2 ^ 32) (room : ¬ floor limit upper < pdb + newlen)
    (found : firstFit (len + 0x10) (pdb - 0x10) limit
      (upper ++ { block with brk := pdb + newlen } :: lower) = some (added, others)) :
    ∃ allocator : Allocator M,
      Ends (resizeAndAllocate newlen len) context (.error (.quitLoop 0)) { context with allocator } ∧
        Behaved context { context with allocator } ∧ Holds allocator others := by
  obtain rfl := process
  obtain rfl := limited
  have spec := resize_spec context.currentPdb newlen fits holds here
  rw [if_neg room] at spec
  obtain ⟨shrunk, resized, held, frame⟩ := spec
  have first : Returns (setblock context.currentPdb newlen) context 0
      { context with allocator := shrunk } := returns_setblock.mpr ⟨shrunk, resized, rfl⟩
  obtain ⟨allocator, second, last, -⟩ := @malloc_granted M _ _ { context with allocator := shrunk } _ _ _ _
    held rfl frame.limit (mem_keys.mpr ⟨_, List.mem_append_cons_self, here⟩) len more found
  refine ⟨allocator, ?_, ?_, last⟩
  · refine ends_after_state.mpr ((ends_after (returns_attempt.mpr first)).mpr
      ((ends_after (returns_attempt.mpr second)).mpr ?_))
    exact ends_raise.mpr ⟨rfl, rfl⟩
  · exact .setblock _ _ _ _ _ _ _ List.mem_cons_self fits first
      (.malloc _ _ _ _ len _ more second (.stop _ _))

/-- A shell on a megabyte: its block comes to lie above the root block. -/
theorem megabyte_shell : ∃ context opened : DosExecContext MainMemory.ByteMemory,
    Kept context.allocator [⟨0x8000, 0, 0x8010⟩] ∧ context.currentPdb = context.allocator.root ∧
      (∃ code middle, Returns (malloc 0x2000) context code middle ∧ 0 ≤ code) ∧
      Returns construct context 0x8020 opened ∧
      Holds opened.allocator [⟨0x8010, 0x8000, 0xa020⟩, ⟨0x8000, 0, 0x8010⟩] ∧
      opened.allocator.limit = 0x100000 ∧ opened.currentPdb = 0x8020 := by
  obtain ⟨allocator, -, fresh, limit, root⟩ := megabyte_holds megabyte (Nat.le_refl _)
  obtain ⟨after, called, holds, still⟩ := megabyte_alloc fresh limit
  have made : Returns (malloc 0x2000) (⟨allocator, 0x8010, ⟨fun _ => 0, 0, 0⟩⟩ : DosExecContext _)
      0x8020 ⟨after, 0x8010, ⟨fun _ => 0, 0, 0⟩⟩ := returns_malloc.mpr ⟨after, called, rfl⟩
  have clear : LoadTraces.Clear 0x100000 [⟨0x8010, 0x8000, 0xa020⟩, ⟨0x8000, 0, 0x8010⟩]
      (0x8020, (encode 4 0).length) := by
    refine ⟨by decide, fun block member => ?_⟩
    rcases List.mem_pair.mp member with rfl | rfl <;> decide
  have room : 0x100000 ≤ Bus.size after.as := by
    have mapped := holds.room
    rw [still] at mapped
    exact mapped
  obtain ⟨stored, done, framed, process⟩ := storing_access (M := MainMemory.ByteMemory) clear
    (fun memory enough => Bus.put32_main 0x8020 0 memory (by decide) (Nat.le_trans (by decide) enough))
    ⟨after, 0x8010, ⟨fun _ => 0, 0, 0⟩⟩ room
  have intact := framed_intact (holds_kept holds) framed process
  have left : Holds stored.allocator _ := holds_intact holds intact
  refine ⟨⟨allocator, 0x8010, ⟨fun _ => 0, 0, 0⟩⟩, { stored with currentPdb := 0x8020 },
    holds_kept fresh, by rw [Allocator.root, root]; rfl, ⟨_, _, made, by decide⟩, ?_, left,
    intact.limit.trans still, rfl⟩
  exact returns_bind.mpr ⟨_, _, made, returns_bind.mpr ⟨(), stored, done,
    returns_bind.mpr ⟨(), _, returns_update.mpr rfl, returns_pure.mpr ⟨rfl, rfl⟩⟩⟩⟩

/-- Two bytes of text that follow the environment there fit the rest of memory. -/
theorem text_fits : ProgramLoad.Fits ⟨0xa430, 0x8010, 0x100000⟩ (ProgramLoad.textFile [0x4e, 0x75] [])
    [0x61] [] := by
  refine ⟨?_, fun place member => absurd member List.not_mem_nil, by decide⟩
  rw [ProgramLoad.textFile_header]
  decide

/-- From there `exec` allocates an empty environment above the shell's block and stores it and one
argument. -/
theorem megabyte_prepare {opened : DosExecContext MainMemory.ByteMemory}
    (holds : Holds opened.allocator [⟨0x8010, 0x8000, 0xa020⟩, ⟨0x8000, 0, 0x8010⟩])
    (limit : opened.allocator.limit = 0x100000) (process : opened.currentPdb = 0x8020) :
    ∃ first prepared, Returns (malloc (BitVec.ofNat 32 (envSize []))) opened (svalue 0xa030) first ∧
      Returns (prepare 0x8020 0xa030 [[0x62]] []) first () prepared ∧ Intact first prepared ∧
      Holds prepared.allocator
        [⟨0xa020, 0x8010, 0xa430⟩, ⟨0x8010, 0x8000, 0xa020⟩, ⟨0x8000, 0, 0x8010⟩] ∧
      prepared.allocator.limit = 0x100000 ∧ prepared.currentPdb = 0x8020 := by
  obtain ⟨first, allocated, holds, limited⟩ := @malloc_granted _ _ _ opened ⟨0xa020, 0x8010, 0xa430⟩
    [⟨0xa020, 0x8010, 0xa430⟩, ⟨0x8010, 0x8000, 0xa020⟩, ⟨0x8000, 0, 0x8010⟩] _ _ holds process limit
    (by decide) (BitVec.ofNat 32 (envSize [])) (by decide) (by decide)
  have room : 0x100000 ≤ Bus.size first.as := by
    have mapped := holds.room
    rw [limited] at mapped
    exact mapped
  have clear : ∀ span ∈ [(0xa030, 4), (0x8110, 1), (0x8111, 2)], LoadTraces.Clear 0x100000
      [⟨0xa020, 0x8010, 0xa430⟩, ⟨0x8010, 0x8000, 0xa020⟩, ⟨0x8000, 0, 0x8010⟩] span := by
    unfold LoadTraces.Clear
    decide
  obtain ⟨prepared, stored, framed, still⟩ := prepare_storing (M := MainMemory.ByteMemory) 0x8020 0xa030
    [[0x62]] (by decide) (clear (0xa030, 4) (by decide)) (clear (0x8110, 1) (by decide))
    (clear (0x8111, 2) (by decide)) { opened with allocator := first } room
  have kept := framed_intact (holds_kept holds) framed still
  exact ⟨_, prepared, allocated, stored, kept, holds_intact holds kept, kept.limit.trans limited,
    still.trans process⟩

/-- Then `exec` loads the text, and the guest shrinks its block, allocates another one and exits. -/
theorem megabyte_exec {opened : DosExecContext MainMemory.ByteMemory}
    (holds : Holds opened.allocator [⟨0x8010, 0x8000, 0xa020⟩, ⟨0x8000, 0, 0x8010⟩])
    (limit : opened.allocator.limit = 0x100000) (process : opened.currentPdb = 0x8020) :
    ∃ last, Execution (0 ≤ ·) Intact Behaved (ProgramLoad.oneFile (ProgramLoad.textFile [0x4e, 0x75] []))
        (resizeAndAllocate 0x1000 0x100) 0x8020 [0x61] [[0x62]] [] opened (.ok 0) last ∧
      Kept last.allocator [⟨0xb440, 0xa430, 0xb550⟩, ⟨0xa430, 0x8010, 0xb440⟩,
        ⟨0xa020, 0x8010, 0xa430⟩, ⟨0x8010, 0x8000, 0xa020⟩, ⟨0x8000, 0, 0x8010⟩] := by
  obtain ⟨first, prepared, allocated, stored, kept, holds, limit, process⟩ :=
    megabyte_prepare holds limit process
  obtain ⟨second, granted, holds, limited⟩ := @mallocLargest_fills _ _ _ prepared
    ⟨0xa430, 0x8010, 0x100000⟩ [⟨0xa430, 0x8010, 0x100000⟩, ⟨0xa020, 0x8010, 0xa430⟩,
      ⟨0x8010, 0x8000, 0xa020⟩, ⟨0x8000, 0, 0x8010⟩] _ _ holds process limit (by decide) (by decide)
  have accepted : ProgramLoad.Accepted (ProgramLoad.textFile [0x4e, 0x75] []) (0xa430 + 0x100) [] :=
    ProgramLoad.textFile_accepted _ _ _ _ (by decide) (by decide) (by decide)
  obtain ⟨loaded, filled, left⟩ := @loadInto_intact _ _ _ { prepared with allocator := second } _
    (ProgramLoad.oneFile (ProgramLoad.textFile [0x4e, 0x75] [])) _ [0x61] _ _ holds List.mem_cons_self rfl
    accepted text_fits (0x8020 - 0x10 + 0x100) 0xa030
  have holds : Holds loaded.allocator _ := holds_intact holds left
  have limit : loaded.allocator.limit = 0x100000 := left.limit.trans limited
  obtain ⟨third, ran, behaved, holds⟩ := @resizeAndAllocate_ends _ _
    (entered (loaded.regs.a 4) { loaded with currentPdb := 0xa440 }) [] _
    [⟨0xb440, 0xa430, 0xb550⟩, ⟨0xa430, 0x8010, 0xb440⟩, ⟨0xa020, 0x8010, 0xa430⟩,
      ⟨0x8010, 0x8000, 0xa020⟩, ⟨0x8000, 0, 0x8010⟩] ⟨0xa430, 0x8010, 0x100000⟩ ⟨0xb440, 0xa430, 0xb550⟩
    0x1000 0x100 0xa440 0x100000 holds rfl limit (by decide) (by decide) (by decide) (by decide) (by decide)
  refine ⟨_, .running _ _ _ prepared _ loaded _ _ allocated (by decide) stored kept granted (by decide)
    filled left (fun stopped halted other => ?_) (start_quits ran), holds_kept holds⟩
  obtain ⟨-, rfl⟩ := ends_unique ran other
  exact behaved

/-- A shell leaves nothing behind. From every state of the allocator and every
current process that is `root()` or a live block, the constructor returns when its
allocation succeeds; and after it, or after any run of `exec` whose own allocations
succeed, whose stores leave the headers alone and in which the guest behaves, the
destructor returns, with the blocks, ends and owners from before and the same current
process.

Proof: everything allocated since joins the subtree of the shell's block, which the
destructor removes. -/
theorem lifetime_leaks_nothing (host : Host) (run : Processor M) (name : List Byte)
    (argv envp : List (List Byte)) (context : DosExecContext M) (blocks : List Block)
    (kept : Kept context.allocator blocks)
    (current : context.currentPdb = context.allocator.root ∨
      Live context.allocator context.currentPdb)
    (made : ∃ code middle, Returns (malloc 0x2000) context code middle ∧ 0 ≤ code) :
    ∃ pdb opened, Returns construct context pdb opened ∧
      ∀ last, (last = opened ∨ ∃ outcome, Execution (0 ≤ ·) Intact Behaved host run pdb name argv envp
          opened outcome last) →
        ∃ closed, Returns (destruct pdb) last () closed ∧ Kept closed.allocator blocks ∧
          closed.currentPdb = context.currentPdb := by
  obtain ⟨shell, opened, others, constructed, hosting, -⟩ :=
    construct_hosting kept (admissible_owner kept current) made
  refine ⟨shell + 0x10, opened, constructed, fun last route => ?_⟩
  obtain ⟨more, hosting⟩ : ∃ more, Hosting shell (context.currentPdb - 0x10) blocks last more := by
    rcases route with rfl | ⟨outcome, execution⟩
    · exact ⟨others, hosting⟩
    · exact hosting_exec host run _ name argv envp hosting execution
  obtain ⟨closed, destructed, held, process⟩ := destruct_returns hosting
  exact ⟨closed, destructed, holds_kept held, by rw [process, BitVec.sub_add_cancel]⟩

/-- A shell on a megabyte, whose guest resizes its block, allocates another one and exits. -/
theorem lifetime_leaks_nothing_megabyte :
    ∃ context opened last closed : DosExecContext MainMemory.ByteMemory,
      Kept context.allocator [⟨0x8000, 0, 0x8010⟩] ∧ Returns construct context 0x8020 opened ∧
      Execution (0 ≤ ·) Intact Behaved (ProgramLoad.oneFile (ProgramLoad.textFile [0x4e, 0x75] []))
        (resizeAndAllocate 0x1000 0x100) 0x8020 [0x61] [[0x62]] [] opened (.ok 0) last ∧
      Kept last.allocator [⟨0xb440, 0xa430, 0xb550⟩, ⟨0xa430, 0x8010, 0xb440⟩,
        ⟨0xa020, 0x8010, 0xa430⟩, ⟨0x8010, 0x8000, 0xa020⟩, ⟨0x8000, 0, 0x8010⟩] ∧
      Returns (destruct 0x8020) last () closed ∧ Kept closed.allocator [⟨0x8000, 0, 0x8010⟩] ∧
      closed.currentPdb = context.currentPdb := by
  obtain ⟨context, opened, kept, current, made, constructed, holds, limit, process⟩ := megabyte_shell
  obtain ⟨last, execution, reached⟩ := megabyte_exec holds limit process
  obtain ⟨pdb, other, also, leaves⟩ := lifetime_leaks_nothing
    (ProgramLoad.oneFile (ProgramLoad.textFile [0x4e, 0x75] [])) (resizeAndAllocate 0x1000 0x100) [0x61]
    [[0x62]] [] context _ kept (Or.inl current) made
  obtain ⟨rfl, rfl⟩ := returns_unique constructed also
  obtain ⟨closed, destructed, left, same⟩ := leaves last (Or.inr ⟨_, execution⟩)
  exact ⟨context, opened, last, closed, kept, constructed, execution, reached, destructed, left, same⟩

end Vx68k.Shell
