import Vx68k.FileSystem
import Vx68k.NameConversion

/-!
# The names that a guest passes

`_OPEN`, `_CREATE` and `_CHMOD` convert the name that they are given, and an exception of
the conversion ends the call. A name is accepted if none of them ends so, whatever the
host, the mode and the file handles are.
-/

namespace Vx68k.PassedNames

open Programs ByteStores FileNames FileSystem FileHandles

/-- The call returns a status. -/
def Answers {σ : Type} (call : Program Stop σ Int) (state : σ) : Prop :=
  ∃ status after, Returns call state status after

/-- Every call that is passed the name returns a status, and the host never sees a
backslash. -/
structure Accepted (name : List Byte) : Prop where
  converts : ∃ hostName, Returns (exportFileName name) () hostName () ∧ backslash ∉ hostName
  opens : ∀ around nameptr mode context, around.getString nameptr = .ok name →
    Answers (openFile around nameptr mode) context
  creates : ∀ around nameptr atr context, around.getString nameptr = .ok name →
    Answers (FileHandles.create around nameptr atr) context
  chmods : ∀ around host nameptr atr fs, around.getString nameptr = .ok name →
    Answers (chmod around host nameptr atr) fs

/-- A call goes on after a part that returns. -/
theorem answers_after {σ α : Type} {first : Program Stop σ α} {next : α → Program Stop σ Int}
    {state middle : σ} {value : α} (returned : Returns first state value middle)
    (rest : Answers (next value) middle) : Answers (first >>= next) state := by
  obtain ⟨status, after, finished⟩ := rest
  exact ⟨status, after, returns_bind.mpr ⟨value, middle, returned, finished⟩⟩

/-- A status is an answer. -/
theorem answers_pure {σ : Type} (status : Int) (state : σ) :
    Answers (pure status : Program Stop σ Int) state := ⟨status, state, returns_pure.mpr ⟨rfl, rfl⟩⟩

/-- The name is in the memory of the context. -/
theorem getString_returns {around : Surroundings} {nameptr : BitVec 32} {name : List Byte}
    (stored : around.getString nameptr = .ok name) (state : FileSystem × Option FilePtr) :
    Returns (FileSystem.getString around nameptr) state name state := by
  rw [FileSystem.getString, stored]
  exact returns_pure.mpr ⟨rfl, rfl⟩

/-- A visible name is converted for the host. -/
theorem hostName_returns {name : List Byte} (short : name.length < 2 ^ 64 - 1)
    (visible : Visible name) (state : FileSystem × Option FilePtr) :
    Returns (hostName name) state (converted name) state := by
  have outcome : Returns (.zoom (fun _ => ()) (fun _ whole => whole) (exportFileName name).attempt :
      SlotMethod _) state (.ok (converted name)) state :=
    returns_zoom.mpr ⟨(), returns_attempt.mpr (export_converted name short visible), rfl⟩
  exact returns_bind.mpr ⟨_, _, outcome, returns_pure.mpr ⟨rfl, rfl⟩⟩

/-- A new file object leaves nothing that could fail. -/
theorem install_answers (around : Surroundings) (object : File)
    (state : FileSystem × Option FilePtr) :
    Answers (install around object >>= fun _ => pure 0) state := by
  have filled : Returns (install around object) state ()
      (added around.address object state.1, some around.address) := returns_update.mpr rfl
  exact answers_after filled (answers_pure _ _)

/-- Opening a file of the host answers. -/
theorem openHost_answers (around : Surroundings) (name : List Byte) (flags : OpenFlags)
    (code : Errno → Int) (state : FileSystem × Option FilePtr) :
    Answers (openHost around name flags code) state := by
  rw [openHost]
  cases around.hostOpen name flags with
  | error reason => exact answers_pure _ _
  | ok fd => exact install_answers around (.regular fd) state

/-- A call that fills a slot answers through a context as it does itself. -/
theorem intoFree_answers {call : SlotMethod Int} (answers : ∀ state, Answers call state)
    (context : FileSystem × Handles) : Answers (intoFree call) context := by
  refine answers_after (returns_state.mpr ⟨rfl, rfl⟩) ?_
  cases context.2.find with
  | none => exact answers_pure _ _
  | some found =>
    obtain ⟨err, after, returned⟩ := answers (context.1, context.2.get (.file found))
    exact answers_after (returns_zoom.mpr ⟨after, returned, rfl⟩) (answers_pure _ _)

variable {around : Surroundings} {nameptr : BitVec 32} {name : List Byte}

/-- So does opening a name of visible characters. -/
theorem openAt_answers (short : name.length < 2 ^ 64 - 1) (visible : Visible name)
    (stored : around.getString nameptr = .ok name) (mode : BitVec 16)
    (state : FileSystem × Option FilePtr) : Answers (openAt around nameptr mode) state := by
  refine answers_after (getString_returns stored state) ?_
  rw [openName]
  split
  · exact answers_pure _ _
  · split
    · exact install_answers around .conDevice state
    · exact answers_after (hostName_returns short visible state) (openHost_answers ..)

/-- So does creating one. -/
theorem create_answers (short : name.length < 2 ^ 64 - 1) (visible : Visible name)
    (stored : around.getString nameptr = .ok name) (atr : BitVec 16)
    (state : FileSystem × Option FilePtr) :
    Answers (FileSystem.create around nameptr atr) state :=
  answers_after (getString_returns stored state)
    (answers_after (hostName_returns short visible state) (openHost_answers ..))

/-- So does a change of its attributes. -/
theorem chmod_answers (short : name.length < 2 ^ 64 - 1) (visible : Visible name)
    (stored : around.getString nameptr = .ok name) (host : HostStatus) (atr : BitVec 16)
    (fs : FileSystem) : Answers (chmod around host nameptr atr) fs := by
  have fetched : Returns (withoutSlot (FileSystem.getString around nameptr)) fs name fs :=
    returns_zoom.mpr ⟨_, getString_returns stored (fs, none), rfl⟩
  have exported : Returns (withoutSlot (hostName name)) fs (converted name) fs :=
    returns_zoom.mpr ⟨_, hostName_returns short visible (fs, none), rfl⟩
  refine answers_after fetched (answers_after exported ?_)
  cases host.stat (converted name) with
  | error reason => exact answers_pure _ _
  | ok directory => exact answers_pure _ _

/-- A name of nothing but spaces ends the call that converts it. -/
theorem create_raises (short : name.length < 2 ^ 64 - 1) (hidden : ¬ Visible name)
    (stored : around.getString nameptr = .ok name) (atr : BitVec 16)
    (state : FileSystem × Option FilePtr) :
    Raises (FileSystem.create around nameptr atr) state .outOfRange state := by
  have outcome : Returns (.zoom (fun _ => ()) (fun _ whole => whole) (exportFileName name).attempt :
      SlotMethod _) state (.error .outOfRange) state :=
    returns_zoom.mpr ⟨(), returns_attempt.mpr (export_raises short hidden), rfl⟩
  have converts : Raises (hostName name) state .outOfRange state :=
    raises_bind.mpr (.inr ⟨_, _, outcome, raises_raise.mpr ⟨rfl, rfl⟩⟩)
  exact raises_bind.mpr
    (.inr ⟨name, state, getString_returns stored state, raises_bind.mpr (.inl converts)⟩)

/-- The names that every call accepts are those with a byte that is no space. -/
theorem accepted_iff (name : List Byte) (short : name.length < 2 ^ 64 - 1) :
    Accepted name ↔ Visible name := by
  constructor
  · exact fun accepted => (export_clean_iff short).mp accepted.converts
  · intro visible
    exact {
      converts := (export_clean_iff short).mpr visible
      opens := fun _ _ mode context stored =>
        intoFree_answers (openAt_answers short visible stored mode) context
      creates := fun _ _ atr context stored =>
        intoFree_answers (create_answers short visible stored atr) context
      chmods := fun _ host _ atr fs stored => chmod_answers short visible stored host atr fs }

/-- A name of spaces and one with a letter. -/
theorem accepted_letter : Accepted [0x20, 0x41] ∧ ¬ Accepted [0x20, 0x20] :=
  ⟨(accepted_iff [0x20, 0x41] (by decide)).mpr (by decide),
    fun accepted => absurd ((accepted_iff [0x20, 0x20] (by decide)).mp accepted) (by decide)⟩

/-- The empty name is not accepted: its conversion throws. -/
theorem empty_not_accepted : ¬ Accepted [] := by
  intro accepted
  obtain ⟨hostName, returned, -⟩ := accepted.converts
  exact returns_not_raises returned (export_raises (by decide) (by decide))

end Vx68k.PassedNames
