import Vx68k.AllocatorGaps
import Vx68k.Shell
import Vx68k.TerminatedStrings

/-!
# The environment block

A guest reads its environment from a block that starts with the size of the block, a
long word, and goes on with strings up to an empty one. `create_env` counts a byte for
the empty string but does not store it. The list ends where memory happened to be zero
before the block was allocated.

The size is computed from the strings and truncated to 32 bits when it is passed on.
The state is one where the allocator's headers form a sound list; the rest of guest
memory is arbitrary.
-/

namespace Vx68k.Shell

open Programs ByteStores DosExecContext TerminatedStrings
open Allocator hiding Method load

variable {M : Type} [Bus M] {before after allocated : DosExecContext M}

/-- The strings that a guest reads in an environment block of a size. -/
def envStrings (memory : M) (env size : Uint32) : Option (List (List Byte)) :=
  strings 0 [] (slice (Bus.byte memory) (env.toNat + 4) (size.toNat - 4))

/-- The bytes of the strings, counted as the source counts them. -/
theorem terminated_length (envp : List (List Byte)) :
    (terminated 0 envp).length = (envp.map fun entry => entry.length + 1).sum := by
  induction envp with
  | nil => rfl
  | cons entry rest inductionHypothesis =>
    simp only [terminated, List.length_append, List.length_cons, inductionHypothesis, List.map_cons,
      List.sum_cons]
    omega

/-- A write within main memory lays down its bytes. -/
theorem write_stored (address : Uint32) (bytes : List Byte) (context : DosExecContext M)
    (inside : address.toNat + bytes.length ≤ Bus.size context.allocator.as) :
    ∃ after : DosExecContext M, Returns (write address bytes) context () after ∧
      Stored Bus.size Bus.byte context.allocator.as address.toNat bytes after.allocator.as := by
  obtain ⟨memory, done, stored⟩ := Bus.write_main address bytes context.allocator.as inside
  refine ⟨{ context with allocator := { context.allocator with as := memory } }, ?_, stored⟩
  rw [write, access, returns_atomic, done]

/-- Strings that fit in main memory are laid down with their terminators. -/
theorem writeStrings_stored (envp : List (List Byte)) (address : Uint32) (context : DosExecContext M)
    (inside : address.toNat + (terminated 0 envp).length ≤ Bus.size context.allocator.as) :
    ∃ after : DosExecContext M, Returns (writeStrings envp address) context () after ∧
      Stored Bus.size Bus.byte context.allocator.as address.toNat (terminated 0 envp)
        after.allocator.as := by
  induction envp generalizing address context with
  | nil =>
    exact ⟨context, returns_pure.mpr ⟨rfl, rfl⟩, rfl, (lay_self _ _ 0).symm⟩
  | cons entry rest inductionHypothesis =>
    have shape : terminated 0 (entry :: rest) = (entry ++ [0]) ++ terminated 0 rest := by
      simp [terminated]
    have extent := Bus.size_le context.allocator.as
    rw [shape, List.length_append, List.length_append, List.length_singleton] at inside
    obtain ⟨middle, written, first⟩ := write_stored address (entry ++ [0]) context
      (by rw [List.length_append, List.length_singleton]; omega)
    have next : (address + BitVec.ofNat 32 (entry.length + 1)).toNat =
        address.toNat + (entry.length + 1) := by bv_omega
    obtain ⟨after, others, second⟩ := inductionHypothesis
      (address + BitVec.ofNat 32 (entry.length + 1)) middle (by rw [next, first.size]; omega)
    refine ⟨after, returns_bind.mpr ⟨(), middle, written, others⟩, second.size.trans first.size, ?_⟩
    rw [second.byte, first.byte, next, shape, lay_append _ _ (entry ++ [0]), List.length_append,
      List.length_singleton]

/-- The stores of `create_env` in a block that holds them. -/
theorem fillEnv_stored (envp : List (List Byte)) (env : Uint32) (context : DosExecContext M)
    (aligned : env.toNat % 4 = 0)
    (inside : env.toNat + 4 + (terminated 0 envp).length ≤ Bus.size context.allocator.as) :
    ∃ after : DosExecContext M, Returns (fillEnv envp env) context () after ∧
      Stored Bus.size Bus.byte context.allocator.as env.toNat
        (encode 4 (BitVec.ofNat 32 (envSize envp)).toNat ++ terminated 0 envp)
        after.allocator.as := by
  have extent := Bus.size_le context.allocator.as
  obtain ⟨memory, done, first⟩ := Bus.put32_main env (BitVec.ofNat 32 (envSize envp))
    context.allocator.as aligned (by omega)
  have next : (env + 4).toNat = env.toNat + 4 := by bv_omega
  obtain ⟨after, written, second⟩ := writeStrings_stored envp (env + 4)
    { context with allocator := { context.allocator with as := memory } }
    (by simp only [first.size]; omega)
  refine ⟨after, returns_bind.mpr ⟨(), _, ?_, written⟩, second.size.trans first.size, ?_⟩
  · rw [put32, access, returns_atomic, done]
  · rw [second.byte, first.byte, next, lay_append, encode_length]

/-- A block that `malloc` returns: it lies in main memory at a multiple of sixteen, and
its bytes are those of memory before the call. -/
structure Block (before allocated : DosExecContext M) (pointer len : Uint32) : Prop where
  aligned : pointer.toNat % 16 = 0
  inside : pointer.toNat + len.toNat ≤ Bus.size allocated.allocator.as
  byte : ∀ index, pointer.toNat ≤ index → index < pointer.toNat + len.toNat →
    Bus.byte allocated.allocator.as index = Bus.byte before.allocator.as index

/-- What `malloc` grants is such a block. -/
theorem malloc_block {blocks : List Allocator.Block} (holds : Holds before.allocator blocks)
    {len : Uint32} {code : Int} (short : len.toNat < 0xfffffff0)
    (granted : Returns (malloc len) before code allocated) (success : 0 ≤ code) :
    Block before allocated (BitVec.ofInt 32 code) len := by
  obtain ⟨allocator, called, rfl⟩ := returns_malloc.mp granted
  obtain ⟨other, last, returned, answer⟩ := answered_short holds before.currentPdb short
  obtain ⟨rfl, rfl⟩ := returns_unique called returned
  rcases answer with ⟨upper, block, lower, rfl, -, -, placed⟩ | ⟨-, refused, -⟩
  · obtain ⟨added, -, -, ends, rfl, -, stacked, frame⟩ := placed
    have member : added ∈ upper ++ added :: block :: lower := by simp
    obtain ⟨aligned, proper, bounded⟩ := stacked_member stacked member
    have room := holds.room
    have extent := Bus.size_le before.allocator.as
    unfold Aligned at aligned
    have pointer : (BitVec.ofInt 32 (svalue (added.addr + 0x10))).toNat = added.addr.toNat + 16 := by
      rw [ofInt_svalue]
      bv_omega
    refine ⟨by rw [pointer]; omega, by rw [pointer, frame.size]; omega, ?_⟩
    rw [pointer]
    intro index low high
    apply frame.byte
    intro key inside
    obtain ⟨other, inList, rfl⟩ := mem_keys.mp inside
    have above := (stacked_member stacked inList).2.1
    rcases stacked_apart stacked inList member with rfl | under | beyond
    · omega
    · omega
    · omega
  · exact absurd (refusal_neg refused) (Int.not_lt.mpr success)

/-- The environment of a call is self-delimiting: the call returns the block that was
allocated, and a guest that reads it finds its size and exactly the strings, without
leaving the block. -/
def Delimited (before : DosExecContext M) (envp : List (List Byte)) (env : Int) : Prop :=
  ∃ after, Returns (createEnv envp) before (BitVec.ofInt 32 env) after ∧
    Bus.get32 after.allocator.as (BitVec.ofInt 32 env) = .ok (BitVec.ofNat 32 (envSize envp)) ∧
    envStrings after.allocator.as (BitVec.ofInt 32 env) (BitVec.ofNat 32 (envSize envp)) = some envp

/-- The size exceeds what is stored, and the truncated size is no length that wraps. -/
theorem envSize_bounds (envp : List (List Byte)) :
    4 + (terminated 0 envp).length + 1 ≤ envSize envp ∧
      envSize envp ≤ 4 + (terminated 0 envp).length + 1 + 0x3ff ∧
      (BitVec.ofNat 32 (envSize envp)).toNat < 0xfffffff0 := by
  rw [BitVec.toNat_ofNat, terminated_length, envSize]
  omega

/-- What a guest reads after the stores: the size, and the strings if the byte after
them is zero. -/
theorem fillEnv_read (envp : List (List Byte)) (proper : ∀ entry ∈ envp, Proper 0 entry)
    (fits : envSize envp < 2 ^ 32) {pointer : Uint32}
    (block : Block before allocated pointer (BitVec.ofNat 32 (envSize envp))) :
    ∃ after : DosExecContext M, Returns (fillEnv envp pointer) allocated () after ∧
      Bus.get32 after.allocator.as pointer = .ok (BitVec.ofNat 32 (envSize envp)) ∧
      (envStrings after.allocator.as pointer (BitVec.ofNat 32 (envSize envp)) = some envp ↔
        Bus.byte before.allocator.as (pointer.toNat + 4 + (terminated 0 envp).length) = 0) := by
  obtain ⟨room, -, -⟩ := envSize_bounds envp
  have size : (BitVec.ofNat 32 (envSize envp)).toNat = envSize envp := by
    rw [BitVec.toNat_ofNat, Nat.mod_eq_of_lt fits]
  have inside := block.inside
  rw [size] at inside
  obtain ⟨after, filled, stored⟩ := fillEnv_stored envp pointer allocated
    (by have := block.aligned; omega) (by omega)
  have laid := stored.byte
  rw [lay_append, encode_length] at laid
  refine ⟨after, filled, ?_, ?_⟩
  · rw [Bus.get32_main after.allocator.as pointer (by have := block.aligned; omega)
      (by rw [stored.size]; omega), laid, slice_lay_disjoint _ _ _ _ _ (by omega), decode_lay_encode,
      size, Nat.mod_eq_of_lt (by omega)]
  · obtain ⟨more, count⟩ : ∃ more, envSize envp - 4 = (terminated 0 envp).length + (more + 1) :=
      ⟨envSize envp - 4 - (terminated 0 envp).length - 1, by omega⟩
    rw [envStrings, size, count, slice_add, laid, slice_lay_same,
      slice_lay_disjoint _ _ _ _ _ (by omega), slice_lay_disjoint _ _ _ _ _ (by rw [encode_length]; omega),
      strings_iff envp _ proper, slice, List.head?_cons, Option.some.injEq,
      block.byte _ (by omega) (by rw [size]; omega)]

/-- After its allocation, the call goes on as its stores do. -/
theorem returns_createEnv {envp : List (List Byte)} {env : Int}
    (granted : Returns (malloc (BitVec.ofNat 32 (envSize envp))) before env allocated) :
    Returns (createEnv envp) before (BitVec.ofInt 32 env) after ↔
      Returns (fillEnv envp (BitVec.ofInt 32 env)) allocated () after := by
  refine (ends_after granted).trans ?_
  constructor
  · intro returned
    obtain ⟨done, last, filled, left⟩ := returns_bind.mp returned
    obtain ⟨-, rfl⟩ := returns_pure.mp left
    exact filled
  · exact fun filled => returns_bind.mpr ⟨(), _, filled, returns_pure.mpr ⟨rfl, rfl⟩⟩

/-- What is self-delimiting has a size that is not truncated and ends in a byte that was
zero before the call.

Proof: reading the strings takes as many bytes as storing them, so a truncated size is
too small for them. The byte after the stores is the first one that they leave as it
was. -/
theorem delimited_zero {blocks : List Allocator.Block} (holds : Holds before.allocator blocks)
    {envp : List (List Byte)} (proper : ∀ entry ∈ envp, Proper 0 entry) {env : Int}
    (granted : Returns (malloc (BitVec.ofNat 32 (envSize envp))) before env allocated)
    (success : 0 ≤ env) (delimited : Delimited before envp env) :
    envSize envp < 2 ^ 32 ∧ Bus.byte before.allocator.as
      ((BitVec.ofInt 32 env).toNat + 4 + (terminated 0 envp).length) = 0 := by
  obtain ⟨room, above, short⟩ := envSize_bounds envp
  obtain ⟨after, returned, -, read⟩ := delimited
  have fits : envSize envp < 2 ^ 32 := by
    have taken := strings_length read
    rw [slice_length, List.length_nil, BitVec.toNat_ofNat] at taken
    omega
  obtain ⟨other, filled, -, reads⟩ :=
    fillEnv_read envp proper fits (malloc_block holds short granted success)
  obtain ⟨-, rfl⟩ := returns_unique ((returns_createEnv granted).mp returned) filled
  exact ⟨fits, reads.mp read⟩

/-- The environment is self-delimiting exactly if its size fits in 32 bits and the byte
after the last string was zero before the call. -/
theorem createEnv_delimited_iff {blocks : List Allocator.Block}
    (kept : Kept before.allocator blocks) (envp : List (List Byte)) (proper : ∀ entry ∈ envp, Proper 0 entry) (env : Int)
    (granted : Returns (malloc (BitVec.ofNat 32 (envSize envp))) before env allocated)
    (success : 0 ≤ env) :
    Delimited before envp env ↔ envSize envp < 2 ^ 32 ∧
      Bus.byte before.allocator.as
        ((BitVec.ofInt 32 env).toNat + 4 + (terminated 0 envp).length) = 0 := by
  have rooted : before.allocator.rootBlock ≠ 0 := by
    intro null
    obtain ⟨allocator, called, -⟩ := returns_malloc.mp granted
    obtain ⟨rfl, -⟩ := returns_unique called (alloc_inert (kept.inert null) _ _)
    exact absurd success (by decide)
  have holds := kept_holds kept rooted
  constructor
  · exact delimited_zero holds proper granted success
  · rintro ⟨fits, zero⟩
    obtain ⟨-, -, short⟩ := envSize_bounds envp
    obtain ⟨after, filled, size, reads⟩ :=
      fillEnv_read envp proper fits (malloc_block holds short granted success)
    exact ⟨after, (returns_createEnv granted).mpr filled, size, reads.mpr zero⟩

/-- The environment with the one string `A=B`. -/
def oneString : List (List Byte) := [[0x41, 0x3d, 0x42]]

/-- The one string of the example is proper. -/
theorem oneString_proper : ∀ entry ∈ oneString, Proper 0 entry := by
  intro entry member
  obtain rfl := List.mem_singleton.mp member
  exact ⟨by decide, by decide⟩

/-- In a fresh megabyte the environment gets the block at 0x8020. -/
theorem megabyte_env {allocator : Allocator M} (holds : Holds allocator [⟨0x8000, 0, 0x8010⟩])
    (limit : allocator.limit = 0x100000) (regs : Registers) :
    ∃ allocated, Returns (malloc (BitVec.ofNat 32 (envSize oneString)))
      (⟨allocator, 0x8010, regs⟩ : DosExecContext M) 0x8020 allocated := by
  have size : BitVec.ofNat 32 (envSize oneString) = 0x400 := by decide
  have member : (0x8010 : Uint32) - 0x10 ∈ keys [⟨0x8000, 0, 0x8010⟩] := by decide
  have spec := alloc_spec _ 0x400 0x8010 (by decide) holds member
  have found : firstFit (0x400 + 0x10) (0x8010 - 0x10) allocator.limit [⟨0x8000, 0, 0x8010⟩] =
      some (⟨0x8010, 0x8000, 0x8420⟩, [⟨0x8010, 0x8000, 0x8420⟩, ⟨0x8000, 0, 0x8010⟩]) := by
    rw [limit]
    decide
  rw [found] at spec
  obtain ⟨after, returned, -⟩ := spec
  rw [size]
  exact ⟨_, returns_malloc.mpr ⟨after, returned, rfl⟩⟩

/-- In a megabyte of zeros the environment is self-delimiting. -/
theorem createEnv_delimited_iff_megabyte : ∃ before : DosExecContext MainMemory.ByteMemory,
    Kept before.allocator [⟨0x8000, 0, 0x8010⟩] ∧ Delimited before oneString 0x8020 := by
  obtain ⟨allocator, -, holds, limit, -, zeros⟩ := megabyte_made megabyte (Nat.le_refl _)
  obtain ⟨allocated, granted⟩ := megabyte_env holds limit ⟨fun _ => 0, 0, 0⟩
  have kept := holds_kept holds
  refine ⟨⟨allocator, 0x8010, ⟨fun _ => 0, 0, 0⟩⟩, kept, (createEnv_delimited_iff kept
    oneString oneString_proper 0x8020 granted (by decide)).mpr ⟨by decide, ?_⟩⟩
  exact zeros _ (by decide)

/-- A megabyte of memory as its constructor leaves it, full of ILLEGAL instructions. -/
def illegals : MainMemory.ByteMemory :=
  ⟨0x100000, 0, fun index => if index % 2 = 0 then 0x4a else 0xfc⟩

/-- In fresh memory full of ILLEGAL instructions the environment does not end. -/
theorem environment_runs_on : ∃ before allocated : DosExecContext MainMemory.ByteMemory,
    Reached before.allocator ∧ Kept before.allocator [⟨0x8000, 0, 0x8010⟩] ∧
      Returns (malloc (BitVec.ofNat 32 (envSize oneString))) before 0x8020 allocated ∧
      ¬ Delimited before oneString 0x8020 := by
  obtain ⟨allocator, reached, holds, limit, -, same⟩ := megabyte_made illegals (Nat.le_refl _)
  obtain ⟨allocated, granted⟩ := megabyte_env holds limit ⟨fun _ => 0, 0, 0⟩
  refine ⟨_, allocated, reached, holds_kept holds, granted, ?_⟩
  intro delimited
  have zero := (delimited_zero holds oneString_proper granted (by decide) delimited).2
  rw [show Bus.byte allocator.as _ = _ from same _ (by decide)] at zero
  exact absurd zero (by decide)

end Vx68k.Shell
