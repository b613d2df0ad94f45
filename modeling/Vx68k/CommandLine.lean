import Vx68k.AllocatorRequests
import Vx68k.Environment

/-!
# The command line of a guest

`exec` passes the arguments in the shell's own block: a byte with their length at 0x100
and the text at 0x101. The environment block was allocated just before. Neither the
length byte nor the block bounds the text.
-/

namespace Vx68k.Shell

open Programs ByteStores DosExecContext
open Allocator hiding Method load Block

variable {M : Type} [Bus M] {before allocated filled : DosExecContext M}

/-- The stores of `exec` for its guest: the environment and the command line. -/
def furnish (pdb : Uint32) (argv envp : List (List Byte)) : Method M Uint32 := do
  let env ← createEnv envp
  putArgument pdb (argument argv)
  pure env

/-- They come first, and nothing else of `exec` is about the arguments. -/
theorem exec_furnish (host : Host) (run : Processor M) (pdb : Uint32) (name : List Byte)
    (argv envp : List (List Byte)) : exec host run pdb name argv envp = (do
      let env ← furnish pdb argv envp
      setA 7 (pdb + 0x2000)
      let childPdb ← load host name (pdb - 0x10 + 0x100) env
      setpdb childPdb
      let context ← .state
      start run (context.regs.a 4)) := by
  simp only [exec, furnish, bind_assoc, pure_bind]

/-- The shell's block is in the list, with the 0x2000 bytes that the constructor asks for. -/
def Housed (shell : Uint32) (blocks : List Allocator.Block) : Prop :=
  ∃ block ∈ blocks, block.addr = shell ∧ block.brk = shell + 0x2010

/-- The guest is passed its arguments: their length, the text with its terminator, all of
it in the shell's block, and the environment block as it was before. -/
structure Passed (shell env : Uint32) (argv envp : List (List Byte)) (before after : Store) :
    Prop where
  counted : (after (shell.toNat + 0x100)).toNat = (argument argv).length
  text : slice after (shell.toNat + 0x101) ((argument argv).length + 1) = argument argv ++ [0]
  contained : 0x101 + (argument argv).length + 1 ≤ 0x2010
  environment : ∀ index, env.toNat ≤ index + 0x10 → index < env.toNat + envSize envp →
    after index = before index

/-- The command line goes to 0x100 bytes above the header, as far as main memory reaches. -/
theorem putArgument_stored (shell : Uint32) (arg : List Byte) (context : DosExecContext M)
    (inside : shell.toNat + 0x102 + arg.length ≤ Bus.size context.allocator.as) :
    ∃ after : DosExecContext M, Returns (putArgument (shell + 0x10) arg) context () after ∧
      Stored Bus.size Bus.byte context.allocator.as (shell.toNat + 0x100)
        (BitVec.ofNat 8 arg.length :: (arg ++ [0])) after.allocator.as := by
  have extent := Bus.size_le context.allocator.as
  have first : (shell + 0x100).toNat = shell.toNat + 0x100 := by bv_omega
  have next : (shell + 0x101).toNat = shell.toNat + 0x100 + 1 := by bv_omega
  have count : encode 1 (BitVec.ofNat 32 arg.length).toNat = [BitVec.ofNat 8 arg.length] := by
    rw [BitVec.toNat_ofNat, Nat.mod_eq_of_lt (by omega)]
    simp [encode]
  obtain ⟨memory, done, one⟩ := Bus.put8_main (shell + 0x100) (BitVec.ofNat 32 arg.length)
    context.allocator.as (by omega)
  have size := one.size
  obtain ⟨after, written, two⟩ := write_stored (shell + 0x101) (arg ++ [0])
    { context with allocator := { context.allocator with as := memory } }
    (by simp only [size, next, List.length_append, List.length_singleton]; omega)
  refine ⟨after, ?_, two.size.trans size, ?_⟩
  · rw [putArgument, BitVec.add_sub_cancel]
    refine returns_bind.mpr ⟨(), _, ?_, written⟩
    rw [put8, access, returns_atomic, done]
  · rw [two.byte, one.byte, count, first, next]
    exact (lay_append _ _ [BitVec.ofNat 8 arg.length] (arg ++ [0])).symm

/-- The environment block that is allocated is apart from the shell's block, and its
stores keep the size of memory. -/
theorem createEnv_apart {blocks : List Allocator.Block} {shell : Uint32}
    (holds : Holds before.allocator blocks) (housed : Housed shell blocks)
    (owned : before.currentPdb - 0x10 ∈ keys blocks) {envp : List (List Byte)}
    (fits : envSize envp < 2 ^ 32) {env : Int}
    (granted : Returns (malloc (BitVec.ofNat 32 (envSize envp))) before env allocated)
    (success : 0 ≤ env) :
    ∃ filled, Returns (createEnv envp) before (BitVec.ofInt 32 env) filled ∧
      shell.toNat + 0x2010 ≤ Bus.size filled.allocator.as ∧
      (shell.toNat + 0x2010 + 0x10 ≤ (BitVec.ofInt 32 env).toNat ∨
        (BitVec.ofInt 32 env).toNat + envSize envp ≤ shell.toNat) := by
  have length : (BitVec.ofNat 32 (envSize envp)).toNat = envSize envp := by
    rw [BitVec.toNat_ofNat, Nat.mod_eq_of_lt fits]
  obtain ⟨-, upper, below, lower, added, rfl, rfl, -, held, -, shape⟩ :=
    malloc_made _ (envSize_fits envp) (holds_kept holds) owned granted success
  obtain ⟨block, member, rfl, ends⟩ := housed
  have stacked := held.sound.stacked
  have fresh := stacked_alone stacked
  have here : block ∈ upper ++ added :: below :: lower := mem_insert.mpr (Or.inr member)
  have inside : added ∈ upper ++ added :: below :: lower := List.mem_append_cons_self
  obtain ⟨aligned, proper, bounded⟩ := stacked_member stacked inside
  obtain ⟨-, blockProper, blockBounded⟩ := stacked_member stacked here
  have room := held.room
  have extent := Bus.size_le allocated.allocator.as
  have blockEnd : block.brk.toNat = block.addr.toNat + 0x2010 := by
    rw [ends] at blockProper ⊢
    bv_omega
  have addedEnd : added.brk.toNat = added.addr.toNat + 0x10 + envSize envp := by
    rw [shape] at proper ⊢
    simp only at proper ⊢
    bv_omega
  have pointer : (added.addr + 0x10).toNat = added.addr.toNat + 0x10 := by bv_omega
  obtain ⟨enough, -, -⟩ := envSize_bounds envp
  unfold Aligned at aligned
  obtain ⟨filled, returned, stored⟩ := fillEnv_stored envp (added.addr + 0x10) allocated
    (by omega) (by omega)
  have same : BitVec.ofInt 32 (svalue (added.addr + 0x10)) = added.addr + 0x10 := ofInt_svalue _
  have created := (returns_createEnv granted).mpr (by rw [same]; exact returned)
  rw [same] at created ⊢
  refine ⟨filled, created, by rw [stored.size]; omega, ?_⟩
  · rcases stacked_apart stacked here inside with rfl | below | above
    · exact absurd (mem_keys.mpr ⟨block, member, rfl⟩) fresh
    · exact Or.inl (by omega)
    · exact Or.inr (by omega)

/-- A command line that the shell's block holds is stored there. -/
theorem furnish_stored {blocks : List Allocator.Block} {shell : Uint32}
    (holds : Holds before.allocator blocks) (housed : Housed shell blocks)
    (owned : before.currentPdb - 0x10 ∈ keys blocks) {envp : List (List Byte)}
    (fits : envSize envp < 2 ^ 32) {env : Int}
    (granted : Returns (malloc (BitVec.ofNat 32 (envSize envp))) before env allocated)
    (success : 0 ≤ env) (argv : List (List Byte)) (room : 0x102 + (argument argv).length ≤ 0x2010) :
    ∃ filled after, Returns (createEnv envp) before (BitVec.ofInt 32 env) filled ∧
      Returns (furnish (shell + 0x10) argv envp) before (BitVec.ofInt 32 env) after ∧
      Stored Bus.size Bus.byte filled.allocator.as (shell.toNat + 0x100)
        (BitVec.ofNat 8 (argument argv).length :: (argument argv ++ [0])) after.allocator.as ∧
      (shell.toNat + 0x2010 + 0x10 ≤ (BitVec.ofInt 32 env).toNat ∨
        (BitVec.ofInt 32 env).toNat + envSize envp ≤ shell.toNat) := by
  obtain ⟨filled, created, inside, apart⟩ := createEnv_apart holds housed owned fits granted success
  obtain ⟨after, returned, stored⟩ := putArgument_stored shell (argument argv) filled (by omega)
  exact ⟨filled, after, created, returns_bind.mpr ⟨_, filled, created,
    returns_bind.mpr ⟨(), after, returned, returns_pure.mpr ⟨rfl, rfl⟩⟩⟩, stored, apart⟩

/-- The length byte counts at most 255 bytes. -/
theorem passed_short {shell env : Uint32} {argv envp : List (List Byte)} {before after : Store}
    (passed : Passed shell env argv envp before after) : (argument argv).length ≤ 255 := by
  have bound := (after (shell.toNat + 0x100)).isLt
  rw [passed.counted] at bound
  omega

/-- A guest is passed its arguments exactly if they are at most 255 bytes long. -/
theorem exec_passes_iff {blocks : List Allocator.Block} {shell : Uint32}
    (holds : Holds before.allocator blocks) (housed : Housed shell blocks)
    (owned : before.currentPdb - 0x10 ∈ keys blocks) {envp : List (List Byte)}
    (fits : envSize envp < 2 ^ 32) {env : Int}
    (granted : Returns (malloc (BitVec.ofNat 32 (envSize envp))) before env allocated)
    (success : 0 ≤ env) (argv : List (List Byte)) :
    (∃ filled after, Returns (createEnv envp) before (BitVec.ofInt 32 env) filled ∧
      Returns (furnish (shell + 0x10) argv envp) before (BitVec.ofInt 32 env) after ∧
      Passed shell (BitVec.ofInt 32 env) argv envp (Bus.byte filled.allocator.as)
        (Bus.byte after.allocator.as)) ↔ (argument argv).length ≤ 255 := by
  constructor
  · rintro ⟨filled, after, -, -, passed⟩
    exact passed_short passed
  · intro short
    obtain ⟨filled, after, created, returned, stored, apart⟩ :=
      furnish_stored holds housed owned fits granted success argv (by omega)
    refine ⟨filled, after, created, returned, ?_, ?_, by omega, ?_⟩
    · have first := lay_inside (Bus.byte filled.allocator.as) (shell.toNat + 0x100)
        (BitVec.ofNat 8 (argument argv).length :: (argument argv ++ [0])) 0 (by simp)
      rw [stored.byte, show shell.toNat + 0x100 = shell.toNat + 0x100 + 0 from rfl, first]
      simp only [List.getElem_cons_zero, BitVec.toNat_ofNat]
      omega
    · have whole := slice_lay_same (Bus.byte filled.allocator.as) (shell.toNat + 0x100)
        (BitVec.ofNat 8 (argument argv).length :: (argument argv ++ [0]))
      rw [← stored.byte, List.length_cons, slice, List.cons.injEq, List.length_append] at whole
      exact whole.2
    · intro index low high
      rw [stored.byte]
      refine lay_outside _ _ _ _ ?_
      simp only [List.length_cons, List.length_append, List.length_nil]
      omega

/-- The constructor makes a state that the theorem is about. -/
theorem construct_housed {blocks : List Allocator.Block} (kept : Kept before.allocator blocks)
    (owned : before.currentPdb - 0x10 ∈ keys blocks)
    (made : ∃ code middle, Returns (malloc 0x2000) before code middle ∧ 0 ≤ code) :
    ∃ shell after others, Returns construct before (shell + 0x10) after ∧
      Holds after.allocator others ∧ Housed shell others ∧ after.currentPdb - 0x10 ∈ keys others := by
  obtain ⟨shell, after, others, returned, hosting, housed⟩ := construct_hosting kept owned made
  exact ⟨shell, after, others, returned, hosting.holds, housed,
    within_keys (hosting_live hosting) hosting.current⟩

/-- In a megabyte with a shell at 0x8010 its environment gets the block at 0xa030. -/
theorem megabyte_housed : ∃ before allocated : DosExecContext MainMemory.ByteMemory,
    Holds before.allocator [⟨0x8010, 0x8000, 0xa020⟩, ⟨0x8000, 0, 0x8010⟩] ∧
      before.currentPdb - 0x10 ∈ keys [⟨0x8010, 0x8000, 0xa020⟩, ⟨0x8000, 0, 0x8010⟩] ∧
      Returns (malloc (BitVec.ofNat 32 (envSize []))) before 0xa030 allocated := by
  obtain ⟨made, -, fresh, limit, -⟩ := megabyte_holds megabyte (Nat.le_refl _)
  obtain ⟨allocator, -, holds, still⟩ := megabyte_alloc fresh limit
  have size : BitVec.ofNat 32 (envSize []) = 0x400 := by decide
  have member : (0x8020 : Uint32) - 0x10 ∈ keys [⟨0x8010, 0x8000, 0xa020⟩, ⟨0x8000, 0, 0x8010⟩] := by
    decide
  have spec := alloc_spec _ 0x400 0x8020 (by decide) holds member
  have found : firstFit (0x400 + 0x10) (0x8020 - 0x10) allocator.limit
      [⟨0x8010, 0x8000, 0xa020⟩, ⟨0x8000, 0, 0x8010⟩] = some (⟨0xa020, 0x8010, 0xa430⟩,
        [⟨0xa020, 0x8010, 0xa430⟩, ⟨0x8010, 0x8000, 0xa020⟩, ⟨0x8000, 0, 0x8010⟩]) := by
    rw [still]
    decide
  rw [found] at spec
  obtain ⟨after, returned, -⟩ := spec
  rw [size]
  exact ⟨⟨allocator, 0x8020, ⟨fun _ => 0, 0, 0⟩⟩, _, holds, member,
    returns_malloc.mpr ⟨after, returned, rfl⟩⟩

/-- The arguments `a` and `b` are passed as `a b`. -/
theorem exec_passes_two : ∃ before : DosExecContext MainMemory.ByteMemory,
    ∃ filled after, Returns (createEnv []) before 0xa030 filled ∧
      Returns (furnish 0x8020 [[0x61], [0x62]] []) before 0xa030 after ∧
      Passed 0x8010 0xa030 [[0x61], [0x62]] [] (Bus.byte filled.allocator.as)
        (Bus.byte after.allocator.as) := by
  obtain ⟨before, allocated, holds, owned, granted⟩ := megabyte_housed
  exact ⟨before, (exec_passes_iff holds ⟨_, List.mem_cons_self, rfl, by decide⟩ owned (by decide)
    granted (by decide) [[0x61], [0x62]]).mpr (by decide)⟩

/-- An argument of 256 bytes is stored, with the length byte 0. -/
theorem exec_length_wraps : ∃ before : DosExecContext MainMemory.ByteMemory,
    Holds before.allocator [⟨0x8010, 0x8000, 0xa020⟩, ⟨0x8000, 0, 0x8010⟩] ∧
      ∃ filled after, Returns (createEnv []) before 0xa030 filled ∧
        Returns (furnish 0x8020 [List.replicate 256 0x61] []) before 0xa030 after ∧
        ¬ Passed 0x8010 0xa030 [List.replicate 256 0x61] [] (Bus.byte filled.allocator.as)
          (Bus.byte after.allocator.as) := by
  obtain ⟨before, allocated, holds, owned, granted⟩ := megabyte_housed
  have length : (argument [List.replicate 256 0x61]).length = 256 := by
    rw [argument, List.intercalate_singleton, List.length_replicate]
  obtain ⟨filled, after, created, returned, -⟩ := furnish_stored holds
    ⟨_, List.mem_cons_self, rfl, by decide⟩ owned (by decide) granted (by decide)
    [List.replicate 256 0x61] (by rw [length]; decide)
  refine ⟨before, holds, filled, after, created, returned, fun passed => ?_⟩
  have short := passed_short passed
  rw [length] at short
  exact absurd short (by decide)

end Vx68k.Shell
