import Vx68k.FileTransfers

/-!
# Descriptors of the host

A host never gives out a descriptor that is in use. So, however contexts are constructed,
used and destroyed, no two open files have the same one, and none that of standard input.
With the counts, this makes the descriptors of all contexts names in one table of open files.
-/

namespace Vx68k.FileTransfers

open Programs ByteStores FileSystem FileHandles OpenFiles PositionedFiles

section Descriptors

variable {around : Surroundings} {fs after : FileSystem}

/-- The objects that are new are the one at the next address, over a descriptor that the host
has given or the console. -/
def Introduces (around : Surroundings) (fs after : FileSystem) : Prop :=
  ∀ f object, after.objects f = some object → fs.objects f = some object ∨
    f = around.address ∧ ∀ fd, object = .regular fd → ∃ name flags, around.hostOpen name flags = .ok fd

/-- A change that adds no object introduces nothing. -/
theorem introduces_fewer (left : ∀ f object, after.objects f = some object → fs.objects f = some object) :
    Introduces around fs after := fun f object here => Or.inl (left f object here)

/-- Nor does no change. -/
theorem introduces_refl (fs : FileSystem) : Introduces around fs fs := introduces_fewer fun _ _ => id

/-- One change after another introduces what either does. -/
theorem introduces_trans {one two three : FileSystem} (first : Introduces around one two)
    (second : Introduces around two three) : Introduces around one three := fun f object here =>
  (second f object here).elim (first f object) Or.inr

section Calls

variable {σ τ α β : Type} {view : σ → FileSystem} {outer : τ → FileSystem}

/-- A program introduces at most the object at the next address. -/
def Introducing (around : Surroundings) (view : σ → FileSystem) (program : Program Stop σ α) : Prop :=
  Carries (fun before after => Introduces around (view before) (view after)) program

/-- An answer introduces nothing. -/
theorem introducing_pure (value : α) : Introducing around view (pure value) :=
  carries_pure (fun state => introduces_refl (view state)) value

/-- Nor does an end by an exception. -/
theorem introducing_raise (stop : Stop) : Introducing around view (Program.raise stop : Program Stop σ α) :=
  carries_raise (fun state => introduces_refl (view state)) stop

/-- A program introduces what its parts do. -/
theorem introducing_bind {first : Program Stop σ α} {next : α → Program Stop σ β}
    (initial : Introducing around view first) (following : ∀ value, Introducing around view (next value)) :
    Introducing around view (first >>= next) := by
  have trans : ∀ one two three : σ, Introduces around (view one) (view two) →
      Introduces around (view two) (view three) → Introduces around (view one) (view three) :=
    fun _ _ _ => introduces_trans
  exact carries_bind trans initial following

/-- Looking at the state introduces nothing. -/
theorem introducing_state : Introducing around view (Program.state : Program Stop σ σ) :=
  carries_atomic fun state => introduces_refl (view state)

/-- A change introduces what it does from every state. -/
theorem introducing_update {change : σ → σ}
    (introduces : ∀ state, Introduces around (view state) (view (change state))) :
    Introducing around view (Program.update change) := carries_atomic introduces

/-- A program on a part of the state introduces what it does there. -/
theorem introducing_zoom {part : τ → σ} {replace : σ → τ → τ} {inner : Program Stop σ α}
    (introducing : Introducing around view inner) (before : ∀ state, view (part state) = outer state)
    (after : ∀ state result, outer (replace result state) = view result) :
    Introducing around outer (inner.zoom part replace) := by
  refine carries_zoom introducing fun state result introduces => ?_
  rw [after, ← before]
  exact introduces

end Calls

/-- Installing a file introduces it, with a descriptor that the host has given. -/
theorem install_introducing {object : File}
    (given : ∀ fd, object = .regular fd → ∃ name flags, around.hostOpen name flags = .ok fd) :
    Introducing around Prod.fst (install around object) := by
  refine introducing_update fun state f other here => ?_
  by_cases new : f = around.address
  · refine Or.inr ⟨new, fun fd regular => ?_⟩
    rw [new] at here
    have same : object = other := by simpa [added, setCount, setObject] using here
    exact given fd (same.trans regular)
  · exact Or.inl (by simpa [added, setCount, setObject, new] using here)

/-- Reading a name introduces nothing. -/
theorem getString_introducing (nameptr : BitVec 32) :
    Introducing around Prod.fst (FileSystem.getString around nameptr) := by
  unfold FileSystem.getString
  split
  · exact introducing_raise _
  · exact introducing_pure _

/-- Nor does converting it. -/
theorem hostName_introducing (name : List Byte) : Introducing around Prod.fst (hostName name) := by
  refine introducing_bind ?_ fun outcome => ?_
  · intro state outcome after ended
    obtain ⟨_, -, rfl⟩ := ends_zoom.mp ended
    exact introduces_refl _
  · cases outcome with
    | ok exported => exact introducing_pure _
    | error failure => exact introducing_raise _

/-- Opening a file of the host introduces only what the host has given. -/
theorem openHost_introducing (name : List Byte) (flags : OpenFlags) (code : Errno → Int) :
    Introducing around Prod.fst (openHost around name flags code) := by
  unfold openHost
  split
  · exact introducing_pure _
  · rename_i fd given
    refine introducing_bind (install_introducing fun other same => ⟨name, flags, ?_⟩) fun _ =>
      introducing_pure 0
    rw [given, File.regular.inj same]

/-- So does opening a name. -/
theorem openName_introducing (name : List Byte) (mode : BitVec 16) :
    Introducing around Prod.fst (openName around name mode) := by
  unfold openName
  split
  · exact introducing_pure _
  · split
    · exact introducing_bind (install_introducing fun fd impossible => by cases impossible) fun _ =>
        introducing_pure 0
    · exact introducing_bind (hostName_introducing name) fun extName =>
        openHost_introducing extName _ _

/-- So does a call whose file goes into a free slot, if the call does. -/
theorem intoFree_introducing {call : SlotMethod Int} (introducing : Introducing around Prod.fst call) :
    Introducing around Prod.fst (intoFree call) := by
  refine introducing_bind introducing_state fun context => ?_
  cases context.2.find with
  | none => exact introducing_pure _
  | some found =>
    exact introducing_bind (introducing_zoom introducing (fun _ => rfl) fun _ _ => rfl) fun _ =>
      introducing_pure _

/-- A change of a count introduces nothing. -/
theorem setCount_introduces (f : FilePtr) (count : Option (BitVec 32)) (fs : FileSystem) :
    Introduces around fs (setCount f count fs) := introduces_fewer fun _ _ => id

/-- Deleting an object introduces nothing. -/
theorem delete_introducing (f : FilePtr) : Introducing around id (FileSystem.delete f) := by
  refine introducing_bind introducing_state fun fs => ?_
  split
  · exact introducing_raise _
  · refine introducing_update fun fs => introduces_fewer fun g object here => ?_
    by_cases gone : g = f
    · simp [setObject, gone] at here
    · simpa [setObject, gone] using here

/-- Nor does giving up a reference. -/
theorem unref_introducing (slot : Option FilePtr) : Introducing around id (unref slot) := by
  cases slot with
  | none => exact introducing_pure _
  | some f =>
    refine introducing_bind introducing_state fun fs => ?_
    cases fs.files f with
    | none => exact introducing_raise _
    | some count =>
      dsimp only
      split
      · exact introducing_raise _
      · split
        · exact introducing_bind (introducing_update fun fs => setCount_introduces f _ fs) fun _ =>
            delete_introducing f
        · exact introducing_update fun fs => setCount_introduces f _ fs

/-- Nor does taking one. -/
theorem ref_introducing (slot : Option FilePtr) : Introducing around id (ref slot) := by
  cases slot with
  | none => exact introducing_pure _
  | some f =>
    refine introducing_bind introducing_state fun fs => ?_
    cases fs.files f with
    | none => exact introducing_raise _
    | some count =>
      refine introducing_bind (introducing_update fun fs => setCount_introduces f _ fs) fun _ => ?_
      split
      · exact introducing_raise _
      · exact introducing_pure _

/-- Nor does a change of a slot. -/
theorem setSlot_introducing (place : Place) (slot : Option FilePtr) :
    Introducing around Prod.fst (setSlot place slot) :=
  introducing_update fun context => introduces_refl context.1

/-- Every call of a context introduces at most one object. -/
theorem perform_introducing (call : Call) :
    Introducing around Prod.fst (OpenFiles.perform around call) := by
  cases call with
  | close fd =>
    refine introducing_bind introducing_state fun context => ?_
    cases lookup context.2 fd with
    | none => exact introducing_pure _
    | some pair =>
      refine introducing_bind (introducing_zoom (unref_introducing _) (fun _ => rfl) fun _ _ => rfl)
        fun _ => ?_
      exact introducing_bind (setSlot_introducing _ _) fun _ => introducing_pure _
  | dup filno =>
    refine introducing_bind introducing_state fun context => ?_
    cases lookup context.2 filno with
    | none => exact introducing_pure _
    | some pair =>
      cases context.2.find with
      | none => exact introducing_pure _
      | some found =>
        refine introducing_bind (introducing_bind introducing_state fun context => ?_) fun _ =>
          introducing_pure _
        exact introducing_bind (introducing_zoom (ref_introducing _) (fun _ => rfl) fun _ _ => rfl)
          fun _ => setSlot_introducing _ _
  | openFile nameptr mode =>
    exact intoFree_introducing (introducing_bind (getString_introducing nameptr) fun name =>
      openName_introducing name mode)
  | create nameptr atr =>
    exact intoFree_introducing (introducing_bind (getString_introducing nameptr) fun name =>
      introducing_bind (hostName_introducing name) fun name => openHost_introducing name _ _)

end Descriptors

/-- The host gives no descriptor that is in use. -/
def GivesNew (around : Surroundings) (fs : FileSystem) : Prop :=
  ∀ name flags fd, around.hostOpen name flags = .ok fd → ∀ key, descriptors fs key ≠ some fd

/-- One event, whatever surrounds it, with a host that gives new descriptors. -/
def Next (before after : System) : Prop :=
  ∃ around event outcome, GivesNew around before.fs ∧ Step around before event outcome after

/-- The systems that some events lead to. -/
def Reached (system : System) : Prop := Relation.ReflTransGen Next ⟨FileSystem.empty, []⟩ system

/-- Every step introduces only descriptors that the host has given. -/
theorem step_introduces {around : Surroundings} {before after : System} {event : Event}
    {outcome : Except Stop Int} (sound : Sound before) (step : Step around before event outcome after) :
    Introduces around before.fs after.fs := by
  cases step with
  | construct fresh made =>
    obtain ⟨_, _, returned, -, objects⟩ := construct_sound sound fresh _
    obtain ⟨-, same⟩ := returns_unique made returned
    obtain ⟨rfl, rfl⟩ := Prod.mk.inj same
    intro f object here
    rw [objects] at here
    by_cases new : f = around.address
    · rw [new, Function.update_self] at here
      obtain rfl := Option.some.inj here
      exact Or.inr ⟨new, fun fd impossible => by cases impossible⟩
    · exact Or.inl (by rwa [Function.update_of_ne new] at here)
  | constructFails fresh failed => exact absurd failed (construct_succeeds sound fresh)
  | call fresh ended => exact perform_introducing _ _ _ _ ended
  | destruct ended =>
    obtain ⟨_, returned, -, objects⟩ := destruct_sound sound
    obtain ⟨-, same⟩ := ends_unique ended returned
    obtain ⟨rfl, rfl⟩ := Prod.mk.inj same
    refine introduces_fewer fun f object here => ?_
    rw [objects, FileCounts.remaining] at here
    split at here
    · exact here
    · cases here

/-- An object that is new has a descriptor that none had. -/
theorem introduces_apart {around : Surroundings} {fs after : FileSystem}
    (apart : Opened.Apart (descriptors fs)) (new : GivesNew around fs)
    (introduces : Introduces around fs after) : Opened.Apart (descriptors after) := by
  have origin : ∀ key fd, descriptors after key = some fd → descriptors fs key = some fd ∨
      key = some around.address ∧ ∀ other, descriptors fs other ≠ some fd := by
    intro key fd here
    cases key with
    | none => exact Or.inl here
    | some f =>
      rcases introduces f _ (descriptors_some.mp here) with old | ⟨place, given⟩
      · exact Or.inl (descriptors_some.mpr old)
      · obtain ⟨name, flags, opened⟩ := given fd rfl
        exact Or.inr ⟨congrArg some place, new name flags fd opened⟩
  intro key other fd here there
  rcases origin key fd here with old | ⟨place, unused⟩
  · rcases origin other fd there with also | ⟨-, unused⟩
    · exact apart key other fd old also
    · exact absurd old (unused key)
  · rcases origin other fd there with also | ⟨same, -⟩
    · exact absurd also (unused other)
    · rw [place, same]

/-- In every system that is reached, the counts are exact and no two open files, and no file and
standard input, have the same descriptor of the host.

Proof: by induction on the events. -/
theorem reached_apart {system : System} (reached : Reached system) :
    Sound system ∧ Opened.Apart (descriptors system.fs) := by
  induction reached with
  | refl =>
    refine ⟨reachable_sound Relation.ReflTransGen.refl, fun key other fd here there => ?_⟩
    cases key with
    | none =>
      cases other with
      | none => rfl
      | some f => cases there
    | some f => cases here
  | tail _ next inductionHypothesis =>
    obtain ⟨sound, apart⟩ := inductionHypothesis
    obtain ⟨around, event, outcome, new, step⟩ := next
    exact ⟨step_sound sound step, introduces_apart apart new (step_introduces sound step)⟩

section Sessions

variable {ι V M : Type}

/-- The table of open files that a world is. -/
def denotes (world : World ι V M) : Table ι V M where
  contexts := world.system.contexts
  console f := decide (world.system.fs.objects f = some .conDevice)
  outside :=
    { host :=
        { content := world.outside.host.content
          opened := fun key => (descriptors world.system.fs key).bind world.outside.host.opened }
      console := world.outside.console
      memory := world.outside.memory }

/-- A world refines the table that it denotes. -/
theorem refines_denotes (world : World ι V M) (sound : Sound world.system)
    (apart : Opened.Apart (descriptors world.system.fs)) : Refines world (denotes world) where
  sound := sound
  contexts := rfl
  apart := apart
  alike := by
    refine ⟨⟨rfl, fun key name here => ?_⟩, rfl, rfl⟩
    simp only [denotes, here, Option.bind_some]
  console f object here := by simp only [denotes, here, Option.some.injEq]

variable [DecidableEq ι] [Video V] [Bus M] [BlockBus M] [StringBus M]

/-- Every request is answered as the table answers it, and what it leaves refines what the table
leaves. -/
theorem perform_simulates (request : Request) (world : World ι V M) (table : Table ι V M)
    (refines : Refines world table) :
    ∃ after, Ends (perform request) world (refer request table).1 after ∧
      Refines after (refer request table).2 := by
  cases request with
  | transfer position fd fails method => exact transfer_simulates refines position fd fails method
  | dup position fd => exact dup_simulates refines position fd
  | close position fd => exact close_simulates refines position fd

/-- In the table a call ends with a code or with an exception of the memory. -/
theorem refer_ends (request : Request) (table : Table ι V M) (stop : Stop)
    (stopped : (refer request table).1 = .error stop) : ∃ failure, stop = .thrown failure := by
  cases request with
  | transfer position fd fails method =>
    simp only [refer] at stopped
    split at stopped
    · cases stopped
    · generalize (_ : Ending Thrown (Outside (Option FilePtr) ι V M) Int).1 = ending at stopped
      cases ending with
      | ok code => cases stopped
      | error failure => exact ⟨failure, (Except.error.inj stopped).symm⟩
  | dup position fd =>
    simp only [refer] at stopped
    split at stopped
    · cases stopped
    · split at stopped <;> cases stopped
  | close position fd =>
    simp only [refer] at stopped
    split at stopped <;> cases stopped

/-- Calls of a world and of its table. -/
theorem session_refines {system : System} (sound : Sound system)
    (apart : Opened.Apart (descriptors system.fs)) (outside : Outside Int ι V M)
    (requests : List Request) :
    ∃ final, Session perform ⟨system, outside⟩
        (replay refer requests (denotes ⟨system, outside⟩)).1 final ∧
      Refines final (replay refer requests (denotes ⟨system, outside⟩)).2 :=
  session_simulates perform refer Refines (fun _ => True)
    (fun request world table _ => perform_simulates request world table) requests ⟨system, outside⟩
    (denotes ⟨system, outside⟩) (refines_denotes ⟨system, outside⟩ sound apart) fun _ _ => trivial

/-- Whatever is called in the table, only exceptions of the memory come out. -/
theorem replay_stops (requests : List Request) (table : Table ι V M) (request : Request) (stop : Stop)
    (stopped : (request, .error stop) ∈ (replay refer requests table).1) :
    ∃ failure, stop = .thrown failure := by
  induction requests generalizing table with
  | nil => cases stopped
  | cons first rest inductionHypothesis =>
    rcases List.mem_cons.mp stopped with here | later
    · obtain ⟨-, same⟩ := Prod.mk.inj here
      exact refer_ends first table stop same.symm
    · exact inductionHypothesis _ later

/-- Descriptors name open files. However contexts have been constructed, used and destroyed, with a
host that gives no descriptor which is in use, from then on every sequence of transfers, duplications
and closings through descriptors of all contexts answers as the table of open files does and leaves
the same files, console and memory; no deleted object is used and no assertion fails. -/
theorem descriptors_name_files {system : System} (reached : Reached system)
    (outside : Outside Int ι V M) (requests : List Request) :
    ∃ final, Session perform ⟨system, outside⟩
        (replay refer requests (denotes ⟨system, outside⟩)).1 final ∧
      Refines final (replay refer requests (denotes ⟨system, outside⟩)).2 ∧
      ∀ request stop, (request, .error stop) ∈ (replay refer requests (denotes ⟨system, outside⟩)).1 →
        ∃ failure, stop = .thrown failure := by
  obtain ⟨sound, apart⟩ := reached_apart reached
  obtain ⟨final, session, refines⟩ := session_refines sound apart outside requests
  exact ⟨final, session, refines, replay_stops requests _⟩

end Sessions

/-- A context is constructed; its standard output is duplicated, closed and written to. -/
theorem descriptors_name_files_constructed : ∃ system : System, system.contexts.length = 1 ∧
    ∃ (answers : List (Request × Except Stop Int)) (final : World Nat TextVideoMemory MainMemory.ByteMemory),
      Session perform ⟨system, ⟨⟨fun _ => [], fun _ => none⟩,
        ⟨0, 0, 0, .construct ⟨fun _ _ => 0, fun _ _ => 0⟩⟩, ⟨0x1000, 0, fun _ => 0⟩⟩⟩ answers final ∧
      answers.map Prod.fst = [.dup 0 1, .close 0 1, .transfer 0 5 false (.fputc 0x41)] := by
  have initial : Reached ⟨FileSystem.empty, []⟩ := Relation.ReflTransGen.refl
  have fresh : FileSystem.empty.objects bare.address = none := rfl
  obtain ⟨after, new, made, -, -⟩ :=
    construct_sound (reachable_sound Relation.ReflTransGen.refl) fresh Handles.vacant
  have gives : GivesNew bare FileSystem.empty := fun _ _ _ given => by cases given
  have step : Next ⟨FileSystem.empty, []⟩ ⟨after, [new]⟩ :=
    ⟨bare, .construct, .ok 0, gives, .construct fresh made⟩
  obtain ⟨final, session, -⟩ := descriptors_name_files (initial.tail step)
    (⟨⟨fun _ => [], fun _ => none⟩, ⟨0, 0, 0, .construct ⟨fun _ _ => 0, fun _ _ => 0⟩⟩,
      ⟨0x1000, 0, fun _ => 0⟩⟩ : Outside Int Nat TextVideoMemory MainMemory.ByteMemory)
    [.dup 0 1, .close 0 1, .transfer 0 5 false (.fputc 0x41)]
  exact ⟨⟨after, [new]⟩, rfl, _, final, session, rfl⟩

end Vx68k.FileTransfers
