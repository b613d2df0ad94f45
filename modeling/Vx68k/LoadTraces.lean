import Vx68k.FixUps

/-!
# What a load leaves behind

A load allocates the largest free block first and writes into it before it opens the file. No
exception that follows gives the block back, and the code of a failed allocation is taken for a
pointer. So a load leaves no trace just where it succeeds: where there is a free block, and the
host's file is complete and its text and data end in it.

Which runs of bytes a load writes is known from the host's file and the block. Where one of them
touches the header of a live block or leaves main memory, more may go wrong than a block that stays
allocated.
-/

namespace Vx68k.LoadTraces

open Programs ByteStores DosExecContext ProgramLoad FixUps
open Allocator hiding Method load

/-- What `load_executable` writes for a block at a base, in order, as far as it gets with the host's
file. -/
def executableWrites (host : Host) (name : List Byte) (base : Uint32) : List Span :=
  match host name with
  | none => []
  | some file =>
    if file.length < 64 ∨ file.take 2 ≠ [0x48, 0x55] ∨
      (file.drop 64).length < imageSize (header file) then []
    else
      let table := (file.drop 64).drop (imageSize (header file))
      let walked := walk (table.take (header file).relocSize.toNat) (base + 0x100)
      ((base + 0x100).toNat, imageSize (header file)) ::
        if table.length < (header file).relocSize.toNat then []
        else walked.1.map (fun place => (place.toNat, 4)) ++
          if walked.2 = .consumed then
            [((base + 0x80).toNat, 4), ((base + 0xc4).toNat, name.length + 1)]
          else []

/-- What a load writes: the two pointers, and then what the loader does. -/
def attempts (host : Host) (name : List Byte) (base : Uint32) : List Span :=
  [((base + 0x10).toNat, 4), ((base + 0x20).toNat, 4)] ++ executableWrites host name base

/-- A run lies in main memory of a size, clear of the headers of a list. -/
def Clear (size : Nat) (blocks : List Block) (span : Span) : Prop :=
  span.1 + span.2 ≤ size ∧ ∀ block ∈ blocks,
    span.1 + span.2 ≤ block.addr.toNat ∨ block.addr.toNat + 16 ≤ span.1

section Steps

variable {M : Type} [Bus M]

/-- A relation between the states of a context that each step of the loader keeps, as far as what
it writes is among some runs. -/
structure Kind (related : DosExecContext M → DosExecContext M → Prop) (spans : List Span) : Prop where
  refl : ∀ context, related context context
  trans : ∀ one two three, related one two → related two three → related one three
  registers : ∀ index value, Carries related (setA index value)
  longs : ∀ address value, address.toNat % 2 = 0 → (address.toNat, 4) ∈ spans →
    Carries related (put32 address value)
  bytes : ∀ address bytes, (address.toNat, bytes.length) ∈ spans → Carries related (write address bytes)
  strings : ∀ address bytes, (address.toNat, bytes.length + 1) ∈ spans →
    Carries related (putString address bytes)

variable {related : DosExecContext M → DosExecContext M → Prop} {spans : List Span}

/-- A fix-up inside the spans carries the relation. -/
theorem fixUpAt_carries (kind : Kind related spans) (base loadAddress : Uint32) {place : Uint32}
    (even : place.toNat % 2 = 0) (inside : (place.toNat, 4) ∈ spans) :
    Carries related (fixUpAt base loadAddress place) :=
  carries_bind kind.trans (carries_atomic kind.refl) fun _ => kind.longs place _ even inside

/-- So do fix-ups one after the other. -/
theorem fixUpAll_carries (kind : Kind related spans) (base loadAddress : Uint32) (places : List Uint32)
    (even : ∀ place ∈ places, place.toNat % 2 = 0) (inside : ∀ place ∈ places, (place.toNat, 4) ∈ spans) :
    Carries related (fixUpAll base loadAddress places) := by
  induction places with
  | nil => exact carries_pure kind.refl ()
  | cons place rest inductionHypothesis =>
    obtain ⟨evenFirst, evenRest⟩ := List.forall_mem_cons.mp even
    obtain ⟨here, later⟩ := List.forall_mem_cons.mp inside
    exact carries_bind kind.trans (fixUpAt_carries kind base loadAddress evenFirst here) fun _ =>
      inductionHypothesis evenRest later

/-- The last part of the loader keeps it: setting up the process. -/
theorem setUp_carries {name : List Byte} {base : Uint32} (last start : Uint32)
    (kind : Kind related spans) (even : base.toNat % 2 = 0)
    (cleared : ((base + 0x80).toNat, 4) ∈ spans)
    (path : ((base + 0xc4).toNat, name.length + 1) ∈ spans) :
    Carries related (do
      put32 (base + 0x80) 0
      putString (base + 0xc4) name
      setA 0 (base + 0x100 - 0x100)
      setA 1 last
      pure start : DosExecContext.Method M Uint32) := by
  have clears := kind.longs (base + 0x80) 0 (even_add even (by decide)) cleared
  have names := kind.strings (base + 0xc4) name path
  exact carries_bind kind.trans clears fun _ => carries_bind kind.trans names fun _ =>
    carries_bind kind.trans (kind.registers 0 _) fun _ =>
      carries_bind kind.trans (kind.registers 1 _) fun _ => carries_pure kind.refl _

/-- `load_executable` keeps it.

Proof: by the checks of the loader. Where the table is not consumed, nothing comes after it. -/
theorem loadExecutable_carries {host : Host} {name : List Byte} {base : Uint32}
    (kind : Kind related spans) (even : base.toNat % 2 = 0)
    (inside : ∀ span ∈ executableWrites host name base, span ∈ spans) :
    Carries related (loadExecutable host name (base + 0x10)) := by
  have start : base + 0x10 + 0xf0 = base + 0x100 := by bv_omega
  have cleared : base + 0x100 - 0x100 + 0x80 = base + 0x80 := by bv_omega
  have path : base + 0x100 - 0x100 + 0xc4 = base + 0xc4 := by bv_omega
  have even100 : (base + 0x100).toNat % 2 = 0 := even_add even (by decide)
  rw [loadExecutable]
  unfold executableWrites at inside
  cases found : host name with
  | none => exact carries_raise kind.refl _
  | some file =>
    simp only [found] at inside ⊢
    split
    · exact carries_raise kind.refl _
    split
    · exact carries_raise kind.refl _
    rename_i long magic
    simp only [loadImage, start, cleared, path]
    split
    · exact carries_raise kind.refl _
    rename_i complete
    rw [if_neg (by simp only [long, magic, complete, or_self, not_false_iff])] at inside
    obtain ⟨image, inside⟩ := List.forall_mem_cons.mp inside
    refine carries_bind kind.trans (kind.bytes _ _ ?_) fun _ => ?_
    · rw [List.length_take, Nat.min_eq_left (by omega)]
      exact image
    split
    · exact carries_raise kind.refl _
    rename_i whole
    rw [if_neg whole] at inside
    obtain ⟨fixUps, rest⟩ := List.forall_mem_append.mp inside
    rw [fixUp_walk, bind_assoc]
    refine carries_bind kind.trans (fixUpAll_carries kind _ _ _ (walk_even _ _ even100)
      fun place member => fixUps _ (List.mem_map_of_mem member)) fun _ => ?_
    cases last : (walk ((file.drop 64).drop (imageSize (header file)) |>.take
      (header file).relocSize.toNat) (base + 0x100)).2 with
    | odd => exact Program.raise_bind (α := Unit) _ _ ▸ carries_raise kind.refl _
    | cut => exact Program.diverge_bind (α := Unit) _ ▸ carries_diverge
    | consumed =>
      rw [last, if_pos rfl] at rest
      obtain ⟨clears, names⟩ := List.forall_mem_cons.mp rest
      exact carries_bind kind.trans (carries_pure kind.refl ()) fun _ =>
        setUp_carries _ _ kind even clears (names _ (List.mem_singleton.mpr rfl))

/-- The rest of `load_into` keeps it, after the environment pointer is stored. -/
theorem loadRest_carries {host : Host} {name : List Byte} {base : Uint32} (arg env : Uint32)
    (kind : Kind related spans) (even : base.toNat % 2 = 0)
    (inside : ∀ span ∈ ((base + 0x20).toNat, 4) :: executableWrites host name base, span ∈ spans) :
    Carries related (do
      put32 (base + 0x20) arg
      let start ← loadExecutable host name (base + 0x10)
      setA 2 arg
      setA 3 env
      setA 4 start : DosExecContext.Method M Unit) := by
  obtain ⟨pointer, loader⟩ := List.forall_mem_cons.mp inside
  have stores := kind.longs (base + 0x20) arg (even_add even (by decide)) pointer
  exact carries_bind kind.trans stores fun _ =>
    carries_bind kind.trans (loadExecutable_carries kind even loader) fun start =>
      carries_bind kind.trans (kind.registers 2 arg) fun _ =>
        carries_bind kind.trans (kind.registers 3 env) fun _ => kind.registers 4 start

/-- `load_into` keeps it. -/
theorem loadInto_carries {host : Host} {name : List Byte} {base : Uint32} (arg env : Uint32)
    (kind : Kind related spans) (even : base.toNat % 2 = 0)
    (inside : ∀ span ∈ attempts host name base, span ∈ spans) :
    Carries related (loadInto host name arg env (base + 0x10)) := by
  obtain ⟨pointer, rest⟩ := List.forall_mem_cons.mp inside
  rw [loadInto, BitVec.add_sub_cancel]
  exact carries_bind kind.trans (kind.longs _ _ (even_add even (by decide)) pointer) fun _ =>
    loadRest_carries arg env kind even rest

end Steps

section Frames

variable {M : Type} [Bus M] {room : Nat} {blocks : List Block}

/-- The headers of a list are the same, and of the allocator nothing but memory has changed. -/
structure Framed (blocks : List Block) (before after : DosExecContext M) : Prop where
  allocator : after.allocator = { before.allocator with as := after.allocator.as }
  size : Bus.size after.allocator.as = Bus.size before.allocator.as
  headers : ∀ block ∈ blocks, ∀ index, block.addr.toNat ≤ index → index < block.addr.toNat + 16 →
    Bus.byte after.allocator.as index = Bus.byte before.allocator.as index

/-- A write that is clear of the headers leaves them. -/
theorem access_framed {start : Nat} {bytes : List Byte} {operation : M → Ending Thrown M Unit}
    (clear : Clear room blocks (start, bytes.length))
    (stores : ∀ memory, room ≤ Bus.size memory → ∃ after, operation memory = (.ok (), after) ∧
      Stored Bus.size Bus.byte memory start bytes after) :
    Carries (fun before after => room ≤ Bus.size before.allocator.as → Framed blocks before after)
      (access operation) := by
  refine carries_atomic fun before enough => ?_
  obtain ⟨memory, done, stored⟩ := stores before.allocator.as enough
  simp only [done]
  refine ⟨rfl, stored.size, fun block member index low high => ?_⟩
  have apart := clear.2 block member
  dsimp only at apart
  rw [stored.byte, lay_outside _ _ _ _ (by omega)]

/-- A load whose writes are clear of the headers leaves them. -/
theorem kind_framed [EvenBus M] {spans : List Span} (clear : ∀ span ∈ spans, Clear room blocks span) :
    Kind (fun before after : DosExecContext M =>
      room ≤ Bus.size before.allocator.as → Framed blocks before after) spans where
  refl _ _ := ⟨rfl, rfl, fun _ _ _ _ _ => rfl⟩
  trans one two three first second enough := by
    have left := first enough
    have right := second (by rw [left.size]; exact enough)
    refine ⟨?_, right.size.trans left.size, fun block member index low high => ?_⟩
    · rw [right.allocator, left.allocator]
    · rw [right.headers block member index low high, left.headers block member index low high]
  registers _ _ := carries_atomic fun _ _ => ⟨rfl, rfl, fun _ _ _ _ _ => rfl⟩
  longs address value even member := by
    have apart := clear _ member
    have inside : address.toNat + 4 ≤ room := apart.1
    rw [← encode_length 4 value.toNat] at apart
    exact access_framed apart fun memory enough =>
      EvenBus.put32_even address value memory even (Nat.le_trans inside enough)
  bytes address bytes member := by
    have inside := (clear _ member).1
    exact access_framed (clear _ member) fun memory enough =>
      Bus.write_main address bytes memory (Nat.le_trans inside enough)
  strings address bytes member := by
    have apart := clear _ member
    have inside : address.toNat + (bytes.length + 1) ≤ room := apart.1
    rw [← List.length_singleton (a := (0 : Byte)), ← List.length_append] at apart
    exact access_framed apart fun memory enough =>
      Bus.putString_main address bytes memory (Nat.le_trans inside enough)

end Frames

section Images

variable {store other : Store} {kept : Nat → Prop} {base : Uint32} {file name : List Byte}
  {places : List Uint32} {arg env : Uint32}

/-- Fix-ups of bytes that are alike make them alike, if they stay among them. -/
theorem relocate_alike (fileBase loadAddress : Uint32)
    (alike : ∀ index, kept index → store index = other index)
    (inside : ∀ place ∈ places, ∀ index, place.toNat ≤ index → index < place.toNat + 4 → kept index) :
    ∀ index, kept index → relocate fileBase loadAddress places store index =
      relocate fileBase loadAddress places other index := by
  induction places generalizing store other with
  | nil => exact alike
  | cons place rest inductionHypothesis =>
    obtain ⟨here, later⟩ := List.forall_mem_cons.mp inside
    have same : slice store place.toNat 4 = slice other place.toNat 4 :=
      slice_congr _ _ _ _ fun index low high => alike index (here index low high)
    have first : ∀ index, kept index → relocateAt fileBase loadAddress store place index =
        relocateAt fileBase loadAddress other place index := by
      rw [relocateAt, relocateAt, same]
      exact lay_alike alike _ _
    exact inductionHypothesis first later

/-- The relocated image depends on such bytes only. -/
theorem loadedImage_alike (alike : ∀ index, kept index → store index = other index)
    (inside : ∀ place ∈ places, ∀ index, place.toNat ≤ index → index < place.toNat + 4 → kept index) :
    ∀ index, kept index → loadedImage base file places arg env store index =
      loadedImage base file places arg env other index :=
  relocate_alike _ _ (lay_alike (lay_alike (lay_alike alike _ _) _ _) _ _) inside

/-- Where the path name reaches the image, it is what is there. -/
def Intact (base : Uint32) (file name : List Byte) (places : List Uint32) (arg env : Uint32)
    (store : Store) : Prop :=
  ∀ offset < imageSize (header file), ∀ byte, (name ++ [0])[60 + offset]? = some byte →
    loadedImage base file places arg env store (base.toNat + 0x100 + offset) = byte

/-- A short path name does not reach the image. -/
theorem short_intact (short : Short file name) : Intact base file name places arg env store := by
  intro offset inside byte found
  obtain ⟨reached, -⟩ := List.getElem?_eq_some_iff.mp found
  rw [List.length_append, List.length_singleton] at reached
  rcases short with none | short <;> omega

/-- A load leaves the relocated image just if the path name does. -/
theorem loadEffect_image :
    slice (loadEffect base file name places arg env store) (base.toNat + 0x100)
        (imageSize (header file)) =
      slice (loadedImage base file places arg env store) (base.toNat + 0x100)
        (imageSize (header file)) ↔
      Intact base file name places arg env store := by
  have cleared (index : Nat) (high : base.toNat + 0x100 ≤ index) :
      lay (loadedImage base file places arg env store) (base.toNat + 0x80) (encode 4 0) index =
        loadedImage base file places arg env store index :=
    lay_outside _ _ _ _ (Or.inr (by rw [encode_length]; omega))
  have place : base.toNat + 0x100 = base.toNat + 0xc4 + 60 := by omega
  rw [← slice_congr (lay (loadedImage base file places arg env store) (base.toNat + 0x80) (encode 4 0))
    (loadedImage base file places arg env store) _ _ fun index low _ => cleared index low, loadEffect,
    place, slice_lay_iff, ← place]
  refine forall_congr' fun offset => forall_congr' fun inside => ?_
  rw [cleared _ (Nat.le_add_right _ _)]

end Images

section Logs

variable {M : Type} [Bus M]

/-- A load only adds to the log. -/
theorem kind_logged (spans : List Span) :
    Kind (fun before after : DosExecContext (Recording M) => writes before <+: writes after) spans where
  refl _ := List.prefix_rfl
  trans _ _ _ := List.IsPrefix.trans
  registers _ _ := carries_atomic fun _ => List.prefix_rfl
  longs _ _ _ _ := carries_atomic fun _ => List.prefix_append _ _
  bytes _ _ _ := carries_atomic fun _ => List.prefix_append _ _
  strings _ _ _ := carries_atomic fun _ => List.prefix_append _ _

/-- Whatever becomes of a load, it has tried to write. -/
theorem loadInto_logged {host : Host} {name : List Byte} {base arg env : Uint32}
    {context after : DosExecContext (Recording M)} {outcome : Except Thrown Unit}
    (even : base.toNat % 2 = 0)
    (ended : Ends (loadInto host name arg env (base + 0x10)) context outcome after) :
    writes after ≠ writes context := by
  have first : Carries (fun before after : DosExecContext (Recording M) =>
      writes after = writes before ++ [((base + 0x10).toNat, 4)]) (put32 (base + 0x10) env) :=
    carries_atomic fun _ => rfl
  have longer {middle : DosExecContext (Recording M)}
      (one : writes middle = writes context ++ [((base + 0x10).toNat, 4)])
      (more : writes middle <+: writes after) : writes after ≠ writes context := by
    intro same
    have length := more.length_le
    rw [one, same, List.length_append, List.length_singleton] at length
    omega
  rw [loadInto, BitVec.add_sub_cancel] at ended
  rcases ends_bind.mp ended with ⟨failure, raised, -⟩ | ⟨_, middle, returned, rest⟩
  · exact longer (first _ _ _ raised) List.prefix_rfl
  · exact longer (first _ _ _ returned)
      (loadRest_carries arg env (kind_logged _) even (fun _ member => member) _ _ _ rest)

end Logs

section Traces

variable {M : Type} [Bus M] {host : Host} {file name : List Byte} {places : List Uint32}
  {arg env : Uint32} {block : Block} {blocks : List Block}

/-- The block holds the image: text and data lie in it, and they are those of the file,
relocated. -/
structure HoldsImage (block : Block) (file : List Byte) (places : List Uint32) (arg env : Uint32)
    (before after : Store) : Prop where
  region : ∀ offset < imageSize (header file), block.addr.toNat + 0x100 + offset < block.brk.toNat
  image : slice after (block.addr.toNat + 0x100) (imageSize (header file)) =
    slice (loadedImage block.addr file places arg env before) (block.addr.toNat + 0x100)
      (imageSize (header file))

/-- The load returns the pointer of a new live block that holds the image. -/
def Loaded (host : Host) (name : List Byte) (arg env : Uint32) (context : DosExecContext M)
    (blocks : List Block) : Prop :=
  ∃ after block others file places,
    Returns (load host name arg env) context (block.addr + 0x10) after ∧
      Kept after.allocator others ∧ block ∈ others ∧ block.addr ∉ keys blocks ∧
      host name = some file ∧ Accepted file (block.addr + 0x100) places ∧
      HoldsImage block file places arg env (Bus.byte context.allocator.as) (Bus.byte after.allocator.as)

/-- The load raises, the list is as it was, and if the allocation has failed nothing is written. -/
def Untouched (host : Host) (name : List Byte) (arg env : Uint32)
    (context : DosExecContext (Recording M)) (blocks : List Block) : Prop :=
  ∃ failure after, Raises (load host name arg env) context failure after ∧
    Kept after.allocator blocks ∧
    ∀ code given, Returns mallocLargest context code given → code < 0 → writes after = writes context

/-- The load succeeds or leaves no trace. -/
def Traceless (host : Host) (name : List Byte) (arg env : Uint32)
    (context : DosExecContext (Recording M)) (blocks : List Block) : Prop :=
  Loaded host name arg env context blocks ∨ Untouched host name arg env context blocks

/-- What the load writes lies in main memory, clear of the headers. -/
def Straight (size : Nat) (blocks : List Block) (host : Host) (name : List Byte) (block : Block) : Prop :=
  ∀ span ∈ attempts host name block.addr, Clear size blocks span

/-- The host's file is complete, its text and data lie in the block, and the path name does not
change the image. -/
def Complete (store : Store) (host : Host) (name : List Byte) (arg env : Uint32) (block : Block) :
    Prop :=
  ∃ file places, host name = some file ∧ Accepted file (block.addr + 0x100) places ∧
    (∀ offset < imageSize (header file), block.addr.toNat + 0x100 + offset < block.brk.toNat) ∧
    Intact block.addr file name places arg env store

/-- What is written for an accepted file. -/
theorem attempts_accepted {base : Uint32} (found : host name = some file)
    (accepted : Accepted file (base + 0x100) places) (low : base.toNat < 0x1000000) :
    attempts host name base = loadWrites base.toNat file name places := by
  have long := accepted.long
  have image := accepted.image
  have table := accepted.table
  have refused : ¬ (file.length < 64 ∨ file.take 2 ≠ [0x48, 0x55] ∨
      (file.drop 64).length < imageSize (header file)) := by
    rintro (short | magic | short)
    · omega
    · exact magic accepted.magic
    · omega
  rw [attempts, executableWrites, found]
  simp only
  rw [if_neg refused, if_neg (by omega), walk_accepted _ _ _ accepted.fixUps, if_pos rfl,
    address_toNat base 0x10 low (by decide), address_toNat base 0x20 low (by decide),
    address_toNat base 0x80 low (by decide), address_toNat base 0xc4 low (by decide),
    address_toNat base 0x100 low (by decide)]
  simp [loadWrites, pspWrites]

/-- A load that leaves the headers leaves the list. -/
theorem framed_kept {given after : DosExecContext M} (held : Holds given.allocator blocks)
    (framed : Framed blocks given after) : Kept after.allocator blocks := by
  rw [framed.allocator]
  exact kept_elsewhere _ (holds_kept held) framed.size framed.headers

/-- A load raises as its body does. -/
theorem raises_load {context given after : DosExecContext M} {code : Int} {failure : Thrown}
    (allocated : Returns mallocLargest context code given) :
    Raises (load host name arg env) context failure after ↔
      Raises (loadInto host name arg env (BitVec.ofInt 32 code)) given failure after := by
  rw [load, show Raises _ context failure after ↔ _ from ends_after allocated]
  refine raises_bind.trans (or_iff_left ?_)
  rintro ⟨_, middle, -, none⟩
  exact not_raises_pure none

/-- A straight load leaves the list, however it ends. -/
theorem loadInto_kept [EvenBus M] {given after : DosExecContext M} {outcome : Except Thrown Unit}
    (held : Holds given.allocator blocks) (member : block ∈ blocks)
    (straight : Straight (Bus.size given.allocator.as) blocks host name block)
    (ended : Ends (loadInto host name arg env (block.addr + 0x10)) given outcome after) :
    Kept after.allocator blocks := by
  have aligned := (stacked_member held.sound.stacked member).1
  have even : block.addr.toNat % 2 = 0 := by
    unfold Aligned at aligned
    omega
  exact framed_kept held (loadInto_carries arg env (kind_framed straight) even
    (fun _ attempted => attempted) _ _ _ ended (Nat.le_refl _))

/-- A straight load of an accepted file returns, with the relocated image just if the path name does
not change that. -/
theorem accepted_returns [EvenBus M] {given : DosExecContext M} (held : Holds given.allocator blocks)
    (member : block ∈ blocks) (straight : Straight (Bus.size given.allocator.as) blocks host name block)
    (there : host name = some file) (accepted : Accepted file (block.addr + 0x100) places)
    {before : Store} (alike : ∀ index,
      (∀ other ∈ blocks, index < other.addr.toNat ∨ other.addr.toNat + 16 ≤ index) →
        Bus.byte given.allocator.as index = before index) :
    ∃ after, Returns (loadInto host name arg env (block.addr + 0x10)) given () after ∧
      (slice (Bus.byte after.allocator.as) (block.addr.toNat + 0x100) (imageSize (header file)) =
          slice (loadedImage block.addr file places arg env before) (block.addr.toNat + 0x100)
            (imageSize (header file)) ↔
        Intact block.addr file name places arg env before) := by
  obtain ⟨⟨aligned, room⟩, -⟩ := holds_inside held member
  have bound := Bus.size_le given.allocator.as
  have low : block.addr.toNat < 0x1000000 := by omega
  rw [Straight, attempts_accepted there accepted low] at straight
  obtain ⟨done, after, returned, -, bytes⟩ := loadInto_lays (M := M) there accepted arg env aligned low
    (fun span written => (straight span written).1) given (Nat.le_refl _)
  have applied : ∀ place ∈ places, ∀ index, place.toNat ≤ index → index < place.toNat + 4 →
      ∀ other ∈ blocks, index < other.addr.toNat ∨ other.addr.toNat + 16 ≤ index := by
    intro place applies index first last other also
    have apart := (straight _ (fixUp_written block.addr.toNat file name applies)).2 other also
    dsimp only at apart
    omega
  have image : (block.addr.toNat + 0x100, imageSize (header file)) ∈
      loadWrites block.addr.toNat file name places := by simp [loadWrites]
  have same : ∀ index, block.addr.toNat + 0x100 ≤ index →
      index < block.addr.toNat + 0x100 + imageSize (header file) →
        loadedImage block.addr file places arg env (Bus.byte given.allocator.as) index =
          loadedImage block.addr file places arg env before index := by
    intro index first last
    refine loadedImage_alike alike applied index fun other also => ?_
    have apart := (straight _ image).2 other also
    dsimp only at apart
    omega
  refine ⟨after, returned, ?_⟩
  rw [bytes, ← slice_congr _ _ _ _ same, loadEffect_image]
  refine forall_congr' fun offset => forall_congr' fun inside => ?_
  rw [same _ (Nat.le_add_right _ _) (by omega)]

/-- A load that fits its block is straight. -/
theorem fits_straight {given : DosExecContext M} (held : Holds given.allocator blocks)
    (member : block ∈ blocks) (there : host name = some file)
    (accepted : Accepted file (block.addr + 0x100) places) (fits : Fits block file name places) :
    Straight (Bus.size given.allocator.as) blocks host name block := by
  obtain ⟨-, proper, high⟩ := stacked_member held.sound.stacked member
  have limit := held.room
  have bound := Bus.size_le given.allocator.as
  rw [Straight, attempts_accepted there accepted (by omega)]
  intro span written
  have inside := fits_inside fits span written
  refine ⟨by omega, fun other also => ?_⟩
  have properOther := (stacked_member held.sound.stacked also).2.1
  rcases stacked_apart held.sound.stacked member also with rfl | below | above <;> omega

/-- The bytes that the allocation keeps. -/
theorem keeps_alike {allocator after : Allocator M} (frame : Keeps (keys blocks) allocator after)
    (index : Nat) (clear : ∀ block ∈ blocks, index < block.addr.toNat ∨ block.addr.toNat + 16 ≤ index) :
    Bus.byte after.as index = Bus.byte allocator.as index := by
  apply frame.byte
  intro key member
  obtain ⟨block, inside, rfl⟩ := mem_keys.mp member
  exact clear block inside

/-- With a free block and a complete file that ends in it, a straight load succeeds. -/
theorem complete_loaded [EvenBus M] {context : DosExecContext M} {others : List Block}
    (kept : Kept context.allocator blocks) (owned : context.currentPdb - 0x10 ∈ keys blocks)
    (found : granted context blocks = some (block, others))
    (straight : Straight (Bus.size context.allocator.as) others host name block)
    (complete : Complete (Bus.byte context.allocator.as) host name arg env block) :
    Loaded host name arg env context blocks := by
  have spec := mallocLargest_granted kept owned
  rw [found] at spec
  obtain ⟨given, allocated, frame, held, member, fresh⟩ := spec
  obtain ⟨file, places, there, accepted, region, intact⟩ := complete
  rw [← frame.size] at straight
  obtain ⟨after, returned, image⟩ :=
    accepted_returns held member straight there accepted (keeps_alike frame)
  have pointer := ofInt_svalue (block.addr + 0x10)
  exact ⟨after, block, others, file, places,
    (returns_load allocated).mpr ⟨pointer, pointer.symm ▸ returned⟩,
    loadInto_kept held member straight returned, member, fresh, there, accepted, region,
    image.mpr intact⟩

/-- After an allocation that fails, a load leaves a trace. -/
theorem refused_trace {context : DosExecContext (Recording M)} (kept : Kept context.allocator blocks)
    (owned : context.currentPdb - 0x10 ∈ keys blocks) (found : granted context blocks = none) :
    ¬ Traceless host name arg env context blocks := by
  have refused := mallocLargest_granted kept owned
  rw [found] at refused
  have pointer : BitVec.ofInt 32 (svalue 0x82000000) = 0x81fffff0 + 0x10 := by decide
  rintro (loaded | untouched)
  · obtain ⟨after, new, others, -, -, returned, left, member, -⟩ := loaded
    have same := ((returns_load refused).mp returned).1
    rw [pointer] at same
    obtain ⟨-, proper, high⟩ := stacked_member left.sound.stacked member
    have limit := left.room
    have bound := Bus.size_le after.allocator.as
    bv_omega
  · obtain ⟨failure, after, raised, -, unwritten⟩ := untouched
    have body := (raises_load refused).mp raised
    rw [pointer] at body
    exact loadInto_logged (by decide) body (unwritten _ _ refused (by decide))

/-- A straight load that leaves no trace has a complete file that ends in its block. -/
theorem traceless_complete [EvenBus M] {context : DosExecContext (Recording M)} {others : List Block}
    (kept : Kept context.allocator blocks) (owned : context.currentPdb - 0x10 ∈ keys blocks)
    (found : granted context blocks = some (block, others))
    (straight : Straight (Bus.size context.allocator.as) others host name block)
    (traceless : Traceless host name arg env context blocks) :
    Complete (Bus.byte context.allocator.as) host name arg env block := by
  have spec := mallocLargest_granted kept owned
  rw [found] at spec
  obtain ⟨given, allocated, frame, held, member, fresh⟩ := spec
  rw [← frame.size] at straight
  have pointer := ofInt_svalue (block.addr + 0x10)
  rcases traceless with loaded | untouched
  · obtain ⟨after, new, list, file, places, returned, left, inList, -, there, accepted, region, image⟩ :=
      loaded
    obtain ⟨same, body⟩ := (returns_load allocated).mp returned
    rw [pointer] at same body
    obtain rfl := kept_unique left (loadInto_kept held member straight body)
    obtain rfl : new = block := block_unique held.sound.stacked inList member (by bv_omega)
    obtain ⟨other, also, intact⟩ :=
      accepted_returns held member straight there accepted (keeps_alike frame)
    obtain ⟨-, rfl⟩ := returns_unique body also
    exact ⟨file, places, there, accepted, region, intact.mp image⟩
  · obtain ⟨failure, after, raised, left, -⟩ := untouched
    have body := (raises_load allocated).mp raised
    rw [pointer] at body
    obtain rfl := kept_unique left (loadInto_kept held member straight body)
    exact absurd (mem_keys.mpr ⟨block, member, rfl⟩) fresh

/-- For every allocator state with a sound list, every host's file, path name and pair of pointers:
with a free block and a complete file whose text and data lie in it, a load that writes straight
leaves no trace. A load that leaves no trace has a free block, and if it writes straight, such a file.

Proof: what is written is known from the file and the block. Writes that are clear of the headers
leave the list with the new block, on every path by which the load ends. -/
theorem load_traceless_iff [EvenBus M] (host : Host) (name : List Byte) (arg env : Uint32)
    (context : DosExecContext (Recording M)) (blocks : List Block)
    (kept : Kept context.allocator blocks)
    (current : context.currentPdb = context.allocator.root ∨
      Live context.allocator context.currentPdb) :
    ((∃ block others, granted context blocks = some (block, others) ∧
        Straight (Bus.size context.allocator.as) others host name block ∧
        Complete (Bus.byte context.allocator.as) host name arg env block) →
      Traceless host name arg env context blocks) ∧
    (Traceless host name arg env context blocks →
      ∃ block others, granted context blocks = some (block, others) ∧
        (Straight (Bus.size context.allocator.as) others host name block →
          Complete (Bus.byte context.allocator.as) host name arg env block)) := by
  have owned := admissible_owner kept current
  constructor
  · rintro ⟨block, others, found, straight, complete⟩
    exact Or.inl (complete_loaded kept owned found straight complete)
  · intro traceless
    cases found : granted context blocks with
    | none => exact absurd traceless (refused_trace kept owned found)
    | some result =>
      obtain ⟨block, others⟩ := result
      exact ⟨block, others, rfl, fun straight => traceless_complete kept owned found straight traceless⟩

/-- In a megabyte, the first load is granted the rest of it. -/
theorem megabyte_granted {context given : DosExecContext (Recording MainMemory.ByteMemory)}
    (kept : Kept context.allocator [⟨0x8000, 0, 0x8010⟩])
    (current : context.currentPdb = context.allocator.root)
    (allocated : Returns mallocLargest context 0x8020 given)
    (held : Holds given.allocator [⟨0x8010, 0x8000, 0x100000⟩, ⟨0x8000, 0, 0x8010⟩]) :
    granted context [⟨0x8000, 0, 0x8010⟩] = some (⟨0x8010, 0x8000, 0x100000⟩,
        [⟨0x8010, 0x8000, 0x100000⟩, ⟨0x8000, 0, 0x8010⟩]) ∧
      Bus.size given.allocator.as = Bus.size context.allocator.as := by
  have spec := mallocLargest_granted kept (admissible_owner kept (Or.inl current))
  cases found : granted context [⟨0x8000, 0, 0x8010⟩] with
  | none =>
    rw [found] at spec
    exact absurd (returns_unique allocated spec).1 (by decide)
  | some result =>
    obtain ⟨block, others⟩ := result
    rw [found] at spec
    obtain ⟨other, also, frame, holds, member, fresh⟩ := spec
    obtain ⟨-, rfl⟩ := returns_unique allocated also
    obtain rfl := kept_unique (holds_kept holds) (holds_kept held)
    obtain rfl : block = ⟨0x8010, 0x8000, 0x100000⟩ := by
      rcases List.mem_pair.mp member with rfl | rfl
      · rfl
      · exact absurd fresh (by decide)
    exact ⟨rfl, frame.size⟩

/-- Six bytes of text with one fix-up, loaded into a megabyte. -/
theorem load_traceless_iff_megabyte :
    ∃ context : DosExecContext (Recording MainMemory.ByteMemory),
      Traceless (oneFile (textFile [0x4e, 0x71, 0, 0, 0, 8] [0, 2])) [0x61] 0 0 context
        [⟨0x8000, 0, 0x8010⟩] := by
  obtain ⟨context, given, kept, current, allocated, held⟩ := megabyte_context
  obtain ⟨found, size⟩ := megabyte_granted kept current allocated held
  have there : oneFile (textFile [0x4e, 0x71, 0, 0, 0, 8] [0, 2]) [0x61] =
    some (textFile [0x4e, 0x71, 0, 0, 0, 8] [0, 2]) := rfl
  have straight := fits_straight held List.mem_cons_self there patch_accepted patch_fits
  have short : Short (textFile [0x4e, 0x71, 0, 0, 0, 8] [0, 2]) [0x61] := Or.inr (by decide)
  have region := patch_fits.region
  exact ⟨context, (load_traceless_iff _ [0x61] 0 0 context _ kept (Or.inl current)).1
    ⟨_, _, found, size ▸ straight, _, _, there, patch_accepted, fun offset inside => by omega,
      short_intact short⟩⟩

/-- A load of a missing file raises, and the largest block stays allocated. -/
theorem missing_file_keeps_block :
    ∃ context after : DosExecContext (Recording MainMemory.ByteMemory),
      Kept context.allocator [⟨0x8000, 0, 0x8010⟩] ∧ context.currentPdb = context.allocator.root ∧
      Raises (load (fun _ => none) [0x61] 0 0) context (.runtimeError "open error") after ∧
      Kept after.allocator [⟨0x8010, 0x8000, 0x100000⟩, ⟨0x8000, 0, 0x8010⟩] ∧
      ¬ Traceless (fun _ => none) [0x61] 0 0 context [⟨0x8000, 0, 0x8010⟩] := by
  obtain ⟨context, given, kept, current, allocated, held⟩ := megabyte_context
  obtain ⟨found, size⟩ := megabyte_granted kept current allocated held
  have member : (⟨0x8010, 0x8000, 0x100000⟩ : Block) ∈
      [⟨0x8010, 0x8000, 0x100000⟩, ⟨0x8000, 0, 0x8010⟩] := List.mem_cons_self
  have room : 0x100000 ≤ Bus.size given.allocator.as :=
    Nat.le_trans (stacked_member held.sound.stacked member).2.2 held.room
  have straight : Straight (Bus.size given.allocator.as)
      [⟨0x8010, 0x8000, 0x100000⟩, ⟨0x8000, 0, 0x8010⟩] (fun _ => none) [0x61]
      ⟨0x8010, 0x8000, 0x100000⟩ := by
    intro span written
    have pointers : span ∈ [(0x8020, 4), (0x8030, 4)] := written
    refine ⟨?_, fun other also => ?_⟩
    · rcases List.mem_pair.mp pointers with rfl | rfl <;> dsimp only <;> omega
    · rcases List.mem_pair.mp pointers with rfl | rfl <;>
        rcases List.mem_pair.mp also with rfl | rfl <;> decide
  have stores : Lays 0x100000 (do
      put32 (0x8010 + 0x10) 0
      put32 (0x8010 + 0x20) 0 : DosExecContext.Method (Recording MainMemory.ByteMemory) Unit) _ :=
    lays_bind (lays_put32 _ 0 (by decide) (by decide)) fun _ => lays_put32 _ 0 (by decide) (by decide)
  obtain ⟨_, after, stored, -⟩ := stores given room
  obtain ⟨_, middle, first, second⟩ := returns_bind.mp stored
  have opened : Raises (loadExecutable (fun _ => none) [0x61] (0x8010 + 0x10)) after
      (.runtimeError "open error") after := raises_raise.mpr ⟨rfl, rfl⟩
  have body : Raises (loadInto (fun _ => none) [0x61] 0 0 (0x8010 + 0x10)) given
      (.runtimeError "open error") after :=
    raises_bind.mpr (Or.inr ⟨_, middle, first, raises_bind.mpr (Or.inr ⟨_, after, second,
      raises_bind.mpr (Or.inl opened)⟩)⟩)
  refine ⟨context, after, kept, current, (raises_load allocated).mpr body,
    loadInto_kept held member straight body, fun traceless => ?_⟩
  obtain ⟨file, places, there, -⟩ := traceless_complete kept (admissible_owner kept (Or.inl current))
    found (size ▸ straight) traceless
  exact absurd there (by simp)

end Traces

end Vx68k.LoadTraces
