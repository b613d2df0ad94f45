import Vx68k.FileCounts
import Mathlib.Logic.Relation

/-!
# Open files are counted exactly

Any number of contexts share one file system. They are constructed and destroyed and
call it in any order, with any descriptors, names and host files. In every state that
this reaches, the file system has the objects that slots of living contexts hold, each
with the number of those slots.

No file object is ever held by two contexts, so each count is about the slots of one
context.
-/

namespace Vx68k

open Programs ByteStores FileNames Holders FileSystem FileHandles FileCounts

namespace OpenFiles

/-- The calls of a context that concern its files. -/
inductive Call where
  | close (fd : BitVec 16)
  | dup (filno : BitVec 16)
  | openFile (nameptr : BitVec 32) (mode : BitVec 16)
  | create (nameptr : BitVec 32) (atr : BitVec 16)
deriving DecidableEq

/-- What each call does. -/
def perform (around : Surroundings) : Call → FileHandles.Method Int
  | .close fd => FileHandles.close fd
  | .dup filno => FileHandles.dup filno
  | .openFile nameptr mode => FileHandles.openFile around nameptr mode
  | .create nameptr atr => FileHandles.create around nameptr atr

/-- A call keeps the counts exact. -/
theorem perform_served {around : Surroundings} {fs after : FileSystem} {handles new : Handles}
    {others : FilePtr → Nat} {call : Call} {outcome : Except Stop Int}
    (exact : Exact fs (both handles others))
    (alone : ∀ f, 0 < handles.slots f → others f = 0) (fresh : fs.objects around.address = none)
    (ended : Ends (perform around call) (fs, handles) outcome (after, new)) :
    Served fs handles others outcome after new := by
  cases call with
  | close fd =>
    obtain ⟨code, final, left, found, served, -⟩ := close_served exact fd
    obtain ⟨rfl, same⟩ := ends_unique ended found
    obtain ⟨rfl, rfl⟩ := Prod.mk.inj same
    exact served
  | dup filno =>
    obtain ⟨code, final, left, found, served⟩ := dup_served exact alone filno
    obtain ⟨rfl, same⟩ := ends_unique ended found
    obtain ⟨rfl, rfl⟩ := Prod.mk.inj same
    exact served
  | openFile nameptr mode =>
    exact intoFree_served (opens_openAt around nameptr mode) exact fresh ended
  | create nameptr atr =>
    exact intoFree_served (opens_create around nameptr atr) exact fresh ended

/-- The conversion of a name halts. -/
theorem halts_hostName {name : List Byte} (short : name.length < 2 ^ 64)
    (state : FileSystem × Option FilePtr) : Halts (hostName name) state := by
  apply halts_bind (halts_zoom.mpr (halts_attempt (export_halts name short)))
  intro outcome _ _
  cases outcome with
  | error failure => exact halts_atomic _ _
  | ok exported => exact halts_atomic _ _

/-- So does reading one. -/
theorem halts_getString (around : Surroundings) (nameptr : BitVec 32)
    (state : FileSystem × Option FilePtr) : Halts (FileSystem.getString around nameptr) state := by
  unfold FileSystem.getString
  split
  · exact halts_atomic _ _
  · exact halts_atomic _ _

/-- So does opening a file of the host. -/
theorem halts_openHost (around : Surroundings) (name : List Byte) (flags : OpenFlags)
    (code : Errno → Int) (state : FileSystem × Option FilePtr) :
    Halts (openHost around name flags code) state := by
  unfold openHost
  split
  · exact halts_atomic _ _
  · exact halts_bind (halts_atomic _ _) fun _ _ _ => halts_atomic _ _

/-- So does opening a name. -/
theorem halts_openName (around : Surroundings) {name : List Byte} (short : name.length < 2 ^ 64)
    (mode : BitVec 16) (state : FileSystem × Option FilePtr) :
    Halts (openName around name mode) state := by
  unfold openName
  split
  · exact halts_atomic _ _
  · split
    · exact halts_bind (halts_atomic _ _) fun _ _ _ => halts_atomic _ _
    · exact halts_bind (halts_hostName short state) fun _ _ _ => halts_openHost _ _ _ _ _

/-- So does a call whose file goes into a free slot, if the call does. -/
theorem halts_intoFree {call : SlotMethod Int} (halts : ∀ state, Halts call state)
    (state : FileSystem × Handles) : Halts (intoFree call) state := by
  apply halts_bind (halts_atomic _ _)
  intro context _ _
  cases search : context.2.find with
  | none =>
    simp only
    exact halts_atomic _ _
  | some free =>
    simp only
    exact halts_bind (halts_zoom.mpr (halts _)) fun _ _ _ => halts_atomic _ _

/-- No call hangs, when strings of the context's memory fit the host's. -/
theorem perform_halts {around : Surroundings} {fs : FileSystem} {handles : Handles}
    {others : FilePtr → Nat} (exact : Exact fs (both handles others))
    (alone : ∀ f, 0 < handles.slots f → others f = 0)
    (short : ∀ nameptr name, around.getString nameptr = .ok name → name.length < 2 ^ 64)
    (call : Call) : Halts (perform around call) (fs, handles) := by
  have shortRead : ∀ nameptr name (state after : FileSystem × Option FilePtr),
      Returns (FileSystem.getString around nameptr) state name after → name.length < 2 ^ 64 := by
    intro nameptr name state after returned
    unfold FileSystem.getString at returned
    split at returned
    · cases (ends_raise.mp returned).1
    · rename_i text read
      obtain ⟨same, -⟩ := returns_pure.mp returned
      exact same ▸ short nameptr text read
  cases call with
  | close fd =>
    obtain ⟨outcome, after, new, ⟨fuel, ended⟩, -⟩ := close_served exact fd
    exact ⟨fuel, _, ended⟩
  | dup filno =>
    obtain ⟨outcome, after, new, ⟨fuel, ended⟩, -⟩ := dup_served exact alone filno
    exact ⟨fuel, _, ended⟩
  | openFile nameptr mode =>
    exact halts_intoFree (fun state => halts_bind (halts_getString around nameptr state)
      fun name _ read => halts_openName around (shortRead nameptr name _ _ read) mode _) _
  | create nameptr atr =>
    exact halts_intoFree (fun state => halts_bind (halts_getString around nameptr state)
      fun name _ read => halts_bind (halts_hostName (shortRead nameptr name _ _ read) _)
        fun _ _ _ => halts_openHost _ _ _ _ _) _

/-- A file system and the living contexts that share it. -/
structure System where
  fs : FileSystem
  contexts : List Handles

/-- What may happen next, to the context at a position. -/
inductive Event where
  | construct
  | call (position : Nat) (call : Call)
  | destruct (position : Nat)
deriving DecidableEq

/-- One event, its outcome and the system after it. The memory of a new context holds
anything before the constructor fills it. -/
inductive Step (around : Surroundings) : System → Event → Except Stop Int → System → Prop where
  | construct {fs after : FileSystem} {contexts : List Handles} {rubbish new : Handles}
      (fresh : fs.objects around.address = none)
      (made : Returns (construct around) (fs, rubbish) () (after, new)) :
      Step around ⟨fs, contexts⟩ .construct (.ok 0) ⟨after, new :: contexts⟩
  | constructFails {fs after : FileSystem} {contexts : List Handles} {rubbish new : Handles}
      {stop : Stop} (fresh : fs.objects around.address = none)
      (failed : Raises (construct around) (fs, rubbish) stop (after, new)) :
      Step around ⟨fs, contexts⟩ .construct (.error stop) ⟨after, contexts⟩
  | call {fs after : FileSystem} {left right : List Handles} {handles new : Handles}
      {call : Call} {outcome : Except Stop Int} (fresh : fs.objects around.address = none)
      (ended : Ends (perform around call) (fs, handles) outcome (after, new)) :
      Step around ⟨fs, left ++ handles :: right⟩ (.call left.length call) outcome
        ⟨after, left ++ new :: right⟩
  | destruct {fs after : FileSystem} {left right : List Handles} {handles new : Handles}
      {outcome : Except Stop Unit}
      (ended : Ends destruct (fs, handles) outcome (after, new)) :
      Step around ⟨fs, left ++ handles :: right⟩ (.destruct left.length)
        (outcome.map fun _ => 0) ⟨after, left ++ right⟩

/-- One event leads from one system to another, whatever surrounds it. -/
def Next (before after : System) : Prop :=
  ∃ around event outcome, Step around before event outcome after

/-- The systems that some events lead to, from a file system without files or contexts. -/
def Reachable (system : System) : Prop :=
  Relation.ReflTransGen Next ⟨FileSystem.empty, []⟩ system

/-- The counts are those of the living contexts, none of which share a file. -/
structure Sound (system : System) : Prop where
  exact : Exact system.fs (total Handles.slots system.contexts)
  apart : Apart Handles.slots system.contexts

/-- One of the living contexts and the others. -/
theorem sound_both {fs : FileSystem} {left right : List Handles} {handles : Handles}
    (sound : Sound ⟨fs, left ++ handles :: right⟩) :
    Exact fs (both handles (total Handles.slots (left ++ right))) :=
  exact_congr sound.exact fun f => total_split Handles.slots left right handles f

/-- What the constructor leaves. -/
theorem construct_sound {around : Surroundings} {fs : FileSystem} {contexts : List Handles}
    (sound : Sound ⟨fs, contexts⟩) (fresh : fs.objects around.address = none)
    (rubbish : Handles) :
    ∃ after new, Returns (construct around) (fs, rubbish) () (after, new) ∧
      Sound ⟨after, new :: contexts⟩ ∧
      after.objects = Function.update fs.objects around.address (some .conDevice) := by
  obtain ⟨after, new, returned, counted, objects, only⟩ :=
    construct_exact sound.exact fresh rubbish
  have joined : Apart Handles.slots ([] ++ new :: contexts) :=
    apart_insert sound.apart fun f positive => by
      rw [only f positive]
      exact exact_fresh sound.exact fresh
  exact ⟨after, new, returned, ⟨counted, joined⟩, objects⟩

/-- What a call of a context leaves. -/
theorem call_sound {around : Surroundings} {fs after : FileSystem} {left right : List Handles}
    {handles new : Handles} {call : Call} {outcome : Except Stop Int}
    (sound : Sound ⟨fs, left ++ handles :: right⟩) (fresh : fs.objects around.address = none)
    (ended : Ends (perform around call) (fs, handles) outcome (after, new)) :
    Served fs handles (total Handles.slots (left ++ right)) outcome after new ∧
      Sound ⟨after, left ++ new :: right⟩ := by
  have served := perform_served (sound_both sound) (fun f => apart_others sound.apart) fresh ended
  refine ⟨served, exact_congr served.exact fun f => ?_, apart_replace sound.apart served.fresh⟩
  exact (total_split Handles.slots left right new f).symm

/-- What the destructor has left when it has released some slots. -/
theorem releases_sound {fs : FileSystem} {left right : List Handles} {handles : Handles}
    (sound : Sound ⟨fs, left ++ handles :: right⟩) {released rest : List (Option FilePtr)}
    (order : handles.releases = released ++ rest) :
    ∃ after, Returns (unrefAll released) fs () after ∧
      Exact after (fun f => rest.count (some f) + total Handles.slots (left ++ right) f) ∧
      after.objects =
        remaining (fun f => rest.count (some f) + total Handles.slots (left ++ right) f) fs := by
  refine unrefAll_exact (exact_congr (sound_both sound) fun f => ?_)
  rw [both, ← Handles.count_releases, order, List.count_append, Nat.add_assoc]

/-- What the destructor leaves. -/
theorem destruct_sound {fs : FileSystem} {left right : List Handles} {handles : Handles}
    (sound : Sound ⟨fs, left ++ handles :: right⟩) :
    ∃ after, Returns destruct (fs, handles) () (after, handles) ∧ Sound ⟨after, left ++ right⟩ ∧
      after.objects = remaining (total Handles.slots (left ++ right)) fs := by
  obtain ⟨after, returned, exact, objects⟩ := releases_sound sound (List.append_nil _).symm
  simp only [List.count_nil, Nat.zero_add] at exact objects
  refine ⟨after, ends_after_state.mpr ?_, ⟨exact, apart_remove sound.apart⟩, objects⟩
  exact returns_zoom.mpr ⟨after, returned, rfl⟩

/-- The constructor's only outcome is success. -/
theorem construct_succeeds {around : Surroundings} {fs after : FileSystem}
    {contexts : List Handles} (sound : Sound ⟨fs, contexts⟩)
    (fresh : fs.objects around.address = none) {rubbish new : Handles} {stop : Stop} :
    ¬ Raises (construct around) (fs, rubbish) stop (after, new) := by
  obtain ⟨_, _, returned, -⟩ := construct_sound sound fresh rubbish
  exact returns_not_raises returned

/-- An event keeps the counts exact. -/
theorem step_sound {around : Surroundings} {before after : System} {event : Event}
    {outcome : Except Stop Int} (sound : Sound before) (step : Step around before event outcome after) :
    Sound after := by
  cases step with
  | construct fresh made =>
    obtain ⟨_, _, returned, kept, -⟩ := construct_sound sound fresh _
    obtain ⟨-, same⟩ := returns_unique made returned
    obtain ⟨rfl, rfl⟩ := Prod.mk.inj same
    exact kept
  | constructFails fresh failed => exact absurd failed (construct_succeeds sound fresh)
  | call fresh ended => exact (call_sound sound fresh ended).2
  | destruct ended =>
    obtain ⟨_, returned, kept, -⟩ := destruct_sound sound
    obtain ⟨-, same⟩ := ends_unique ended returned
    obtain ⟨rfl, rfl⟩ := Prod.mk.inj same
    exact kept

/-- In every reachable system the counts are exact.

Proof: by induction on the events. -/
theorem reachable_sound {system : System} (reached : Reachable system) : Sound system := by
  induction reached with
  | refl =>
    refine ⟨⟨fun f => ?_, fun f => ?_⟩, fun handles member => absurd member List.not_mem_nil⟩
    · simp [total, FileSystem.empty]
    · simp [total, FileSystem.empty]
  | tail _ next inductionHypothesis =>
    obtain ⟨around, event, outcome, step⟩ := next
    exact step_sound inductionHypothesis step

/-- In every reachable system each context can be called, and the call ends. -/
theorem calls_end {system : System} (reached : Reachable system) {around : Surroundings}
    (fresh : system.fs.objects around.address = none)
    (short : ∀ nameptr name, around.getString nameptr = .ok name → name.length < 2 ^ 64)
    {left right : List Handles} {handles : Handles}
    (contexts : system.contexts = left ++ handles :: right) (call : Call) :
    ∃ outcome after, Step around system (.call left.length call) outcome after := by
  obtain ⟨fs, living⟩ := system
  subst contexts
  have sound := reachable_sound reached
  obtain ⟨fuel, ⟨outcome, after, new⟩, ended⟩ :=
    perform_halts (sound_both sound) (fun f => apart_others sound.apart) short call
  exact ⟨outcome, _, .call fresh ⟨fuel, ended⟩⟩

/-- Some slot of a living context holds the object. -/
def Held (contexts : List Handles) (f : FilePtr) : Prop :=
  ∃ handles ∈ contexts, ∃ place, handles.get place = some f

/-- A file is held exactly if some slot refers to it. -/
theorem held_iff {contexts : List Handles} {f : FilePtr} :
    Held contexts f ↔ 0 < total Handles.slots contexts f := by
  rw [total_pos]
  exact exists_congr fun handles => and_congr_right fun _ => Handles.slots_pos.symm

/-- The table has exactly the objects that slots hold, with the numbers of their slots,
and these are the objects that exist. -/
structure ExactlyCounted (system : System) : Prop where
  files : ∀ f, (system.fs.files f).isSome ↔ Held system.contexts f
  counts : ∀ f count, system.fs.files f = some count →
    count.toInt = total Handles.slots system.contexts f
  objects : ∀ f, (system.fs.objects f).isSome ↔ Held system.contexts f

/-- What every event from a system does: no assertion fails and nothing is deleted
twice; an object is deleted when no slot holds it any longer and else stays as it is;
closing a descriptor leaves all other slots as they are; a refused call changes nothing. -/
structure Safe (before : System) (event : Event) (outcome : Except Stop Int)
    (after : System) : Prop where
  asserts : ∀ condition, outcome ≠ .error (.assertion condition)
  deletes : outcome ≠ .error .deadObject
  kept : ∀ f object, before.fs.objects f = some object → Held after.contexts f →
    after.fs.objects f = some object
  deleted : ∀ f, Held before.contexts f → ¬ Held after.contexts f → after.fs.objects f = none
  closes : ∀ left handles right fd, before.contexts = left ++ handles :: right →
    event = .call left.length (.close fd) → ∃ new, after.contexts = left ++ new :: right ∧
      ∀ place, (∀ index, index.val = fd.toNat → place ≠ .file index) →
        new.get place = handles.get place
  refused : (∀ code, outcome = .ok code → code < 0) → after = before

/-- Within the destructor, too, an object exists as long as a slot is left to it: one
that is yet to be released or one of another context. -/
def ReleasedInTurn (system : System) : Prop :=
  ∀ left handles right released rest, system.contexts = left ++ handles :: right →
    handles.releases = released ++ rest →
    ∃ after, Returns (unrefAll released) system.fs () after ∧
      ∀ f, (after.objects f).isSome ↔ some f ∈ rest ∨ Held (left ++ right) f

/-- In a sound system every count is exact. -/
theorem sound_counted {system : System} (sound : Sound system) : ExactlyCounted system where
  files f := by
    rw [held_iff]
    by_cases some : 0 < total Handles.slots system.contexts f
    · obtain ⟨count, entry, -⟩ := counted_some sound.exact.counted some
      simp [entry, some]
    · simp [counted_none sound.exact.counted (Nat.eq_zero_of_not_pos some), some]
  counts f count entry := by
    by_cases some : 0 < total Handles.slots system.contexts f
    · obtain ⟨other, same, number⟩ := counted_some sound.exact.counted some
      rw [entry] at same
      exact Option.some.inj same ▸ number
    · rw [counted_none sound.exact.counted (Nat.eq_zero_of_not_pos some)] at entry
      cases entry
  objects f := (sound.exact.alive f).trans held_iff.symm

/-- In a sound system contexts can be destroyed one after the other, and files are deleted with
their last slots. -/
theorem sound_released {system : System} (sound : Sound system) : ReleasedInTurn system := by
  obtain ⟨fs, contexts⟩ := system
  rintro left handles right released rest rfl order
  obtain ⟨after, returned, exact, -⟩ := releases_sound sound order
  refine ⟨after, returned, fun f => (exact.alive f).trans ?_⟩
  rw [held_iff, Nat.add_pos_iff_pos_or_pos, List.count_pos_iff]

/-- Objects that a call leaves to those with a slot. -/
theorem objects_remaining {fs after : FileSystem} {contexts : List Handles}
    (same : ∀ f, (fs.objects f).isSome →
      after.objects f = remaining (total Handles.slots contexts) fs f) {f : FilePtr} {object : File}
    (present : fs.objects f = some object) (holds : Held contexts f) :
    after.objects f = some object := by
  rw [same f (by rw [present]; rfl), remaining, if_pos (held_iff.mp holds), present]

/-- A construction or destruction is safe when the objects are. -/
theorem safe_lifetime {before after : System} {event : Event}
    (lifetime : ∀ position call, event ≠ .call position call)
    (kept : ∀ f object, before.fs.objects f = some object → Held after.contexts f →
      after.fs.objects f = some object)
    (deleted : ∀ f, Held before.contexts f → ¬ Held after.contexts f → after.fs.objects f = none) :
    Safe before event (.ok 0) after where
  asserts condition same := by cases same
  deletes same := by cases same
  kept := kept
  deleted := deleted
  closes left handles right fd _ same := absurd same (lifetime _ _)
  refused negative := absurd (negative 0 rfl) (by decide)

/-- Every event from a system with exact counts is safe.

Proof: the cases are the kinds of event. -/
theorem step_safe {around : Surroundings} {before after : System} {event : Event}
    {outcome : Except Stop Int} (sound : Sound before)
    (step : Step around before event outcome after) : Safe before event outcome after := by
  have kept := step_sound sound step
  have gone : ∀ f, Held before.contexts f → ¬ Held after.contexts f → after.fs.objects f = none :=
    fun f _ free => exact_dead kept.exact (Nat.eq_zero_of_not_pos (mt held_iff.mpr free))
  cases step with
  | @construct fs after contexts rubbish new fresh made =>
    obtain ⟨_, _, returned, -, objects⟩ := construct_sound sound fresh rubbish
    obtain ⟨-, same⟩ := returns_unique made returned
    obtain ⟨rfl, rfl⟩ := Prod.mk.inj same
    refine safe_lifetime (fun _ _ => by simp) (fun f object here _ => ?_) gone
    have different : f ≠ around.address := fun same => by
      rw [same] at here
      exact absurd (fresh.symm.trans here) (by simp)
    rw [objects, Function.update_of_ne different]
    exact here
  | constructFails fresh failed => exact absurd failed (construct_succeeds sound fresh)
  | @call fs after left right handles new call outcome fresh ended =>
    have served := (call_sound sound fresh ended).1
    have spread := fun f => total_split Handles.slots left right new f
    refine ⟨fun condition same => ?_, fun same => ?_, fun f object here holds => ?_, gone, ?_,
      fun negative => ?_⟩
    · rcases served.ended with refused | ⟨code, -, success⟩
      · exact absurd refused (by simp [same, Refused])
      · exact absurd (same.symm.trans success) (by simp)
    · rcases served.ended with refused | ⟨code, -, success⟩
      · exact absurd refused (by simp [same, Refused])
      · exact absurd (same.symm.trans success) (by simp)
    · refine objects_remaining (fun g lives => ?_) here holds
      rw [served.objects g lives]
      exact congrFun (congrArg (fun slots => remaining slots fs) (funext fun f => (spread f).symm)) g
    · intro left' handles' right' fd contexts event
      obtain ⟨position, rfl⟩ := Event.call.inj event
      obtain ⟨rfl, rest⟩ := List.append_inj contexts position
      obtain ⟨rfl, rfl⟩ := List.cons.inj rest
      refine ⟨new, rfl, ?_⟩
      obtain ⟨_, _, _, found, -, others⟩ := close_served (sound_both sound) fd
      obtain ⟨-, same⟩ := ends_unique ended found
      obtain ⟨rfl, rfl⟩ := Prod.mk.inj same
      exact others
    · have refused : Refused outcome := by
        rcases served.ended with refused | ⟨code, success, same⟩
        · exact refused
        · exact absurd success (not_le.mpr (negative code same))
      obtain ⟨rfl, rfl⟩ := served.refused refused
      rfl
  | @destruct fs after left right handles new outcome ended =>
    obtain ⟨_, returned, -, objects⟩ := destruct_sound sound
    obtain ⟨rfl, same⟩ := ends_unique ended returned
    obtain ⟨rfl, rfl⟩ := Prod.mk.inj same
    refine safe_lifetime (fun _ _ => by simp) (fun f object here holds => ?_) gone
    exact objects_remaining (fun g _ => congrFun objects g) here holds

/-- However contexts are constructed, used and destroyed, the open files are exactly
counted and every event is safe. -/
theorem counts_exact {system : System} (reached : Reachable system) :
    ExactlyCounted system ∧ ReleasedInTurn system ∧
      ∀ around event outcome after, Step around system event outcome after →
        Safe system event outcome after :=
  have sound := reachable_sound reached
  ⟨sound_counted sound, sound_released sound, fun _ _ _ _ step => step_safe sound step⟩

/-- A host without files, memory without names and an address for a new object. -/
def bare : Surroundings :=
  ⟨1, fun _ _ => .error .enoent, fun _ => .error .memoryException⟩

/-- A system with one context, right after its construction. -/
theorem counts_exact_constructed : ∃ system : System, system.contexts.length = 1 ∧
    ExactlyCounted system ∧ ReleasedInTurn system ∧
      ∀ around event outcome after, Step around system event outcome after →
        Safe system event outcome after := by
  have initial : Reachable ⟨FileSystem.empty, []⟩ := Relation.ReflTransGen.refl
  have fresh : FileSystem.empty.objects bare.address = none := rfl
  obtain ⟨after, new, made, -, -⟩ :=
    construct_sound (reachable_sound initial) fresh Handles.vacant
  have step : Next ⟨FileSystem.empty, []⟩ ⟨after, [new]⟩ :=
    ⟨bare, .construct, .ok 0, .construct fresh made⟩
  exact ⟨⟨after, [new]⟩, rfl, counts_exact (initial.tail step)⟩

end OpenFiles

end Vx68k
