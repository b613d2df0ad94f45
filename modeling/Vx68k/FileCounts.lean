import Vx68k.FileSystem

/-!
# The counts of one call

What each call does to exact counts, for the slots of one context and any number of
slots elsewhere. A call for a new file is either refused, with nothing changed, or
puts a new object into a free slot; the calls of the file system that read a name may
only refuse.

The other slots are known to hold no object of the context that is called. Its own
slots bound each count, so none overflows.
-/

namespace Vx68k

open Programs ByteStores FileNames Holders FileSystem FileHandles

namespace FileCounts

/-- The table counts the slots, and the objects that exist are those with slots. -/
structure Exact (fs : FileSystem) (slots : FilePtr → Nat) : Prop where
  counted : Counted BitVec.toInt fs.files slots
  alive : ∀ f, (fs.objects f).isSome ↔ 0 < slots f

/-- An object without slots does not exist. -/
theorem exact_dead {fs : FileSystem} {slots : FilePtr → Nat} (exact : Exact fs slots)
    {f : FilePtr} (free : slots f = 0) : fs.objects f = none := by
  have dead := mt (exact.alive f).mp (by omega)
  simpa using dead

/-- Exactness depends only on the numbers of slots. -/
theorem exact_congr {fs : FileSystem} {slots other : FilePtr → Nat} (exact : Exact fs slots)
    (same : ∀ f, slots f = other f) : Exact fs other :=
  funext same ▸ exact

/-- An object that does not exist has no slots. -/
theorem exact_fresh {fs : FileSystem} {slots : FilePtr → Nat} (exact : Exact fs slots)
    {f : FilePtr} (fresh : fs.objects f = none) : slots f = 0 := by
  by_contra some
  have alive := (exact.alive f).mpr (Nat.pos_of_ne_zero some)
  simp [fresh] at alive

/-- A positive count goes down by one. -/
theorem toInt_pred (count : BitVec 32) (positive : 0 < count.toInt) :
    (count - 1).toInt = count.toInt - 1 := by
  simp only [BitVec.toInt_eq_toNat_cond] at positive ⊢
  split at positive <;> split <;> bv_omega

/-- A count that is not negative and not the largest goes up by one. -/
theorem toInt_succ (count : BitVec 32) (low : 0 ≤ count.toInt) (room : count.toInt + 1 < 2 ^ 31) :
    (count + 1).toInt = count.toInt + 1 := by
  simp only [BitVec.toInt_eq_toNat_cond] at low room ⊢
  split at low <;> split <;> bv_omega

/-- The objects after slots were released: those that still have a slot. -/
def remaining (slots : FilePtr → Nat) (fs : FileSystem) (f : FilePtr) : Option File :=
  if 0 < slots f then fs.objects f else none

/-- When no object has lost its last slot, all remain. -/
theorem remaining_all {fs : FileSystem} {slots : FilePtr → Nat} (exact : Exact fs slots) :
    remaining slots fs = fs.objects := by
  funext f
  by_cases some : 0 < slots f
  · exact if_pos some
  · exact (if_neg some).trans (exact_dead exact (by omega)).symm

/-- Releasing the last slot of an object deletes the object and its entry. -/
theorem unref_last {fs : FileSystem} {f : FilePtr} {slots : FilePtr → Nat}
    (exact : Exact fs fun g => held (some f) g + slots g) (last : slots f = 0) :
    Returns (unref (some f)) fs () (setObject f none (setCount f none fs)) ∧
      Exact (setObject f none (setCount f none fs)) slots := by
  have single : held (some f) f + slots f = 1 := by rw [held_self, last]
  obtain ⟨count, entry, number⟩ :=
    counted_some exact.counted (show 0 < held (some f) f + slots f by omega)
  have lives : fs.objects f ≠ none :=
    Option.isSome_iff_ne_none.mp ((exact.alive f).mpr (by omega))
  have zero : count - 1 = 0 := by
    have pred := toInt_pred count (by omega)
    exact BitVec.toInt_inj.mp (by rw [pred]; simp; omega)
  have elsewhere : ∀ g, g ≠ f → slots g = held (some f) g + slots g := fun g different => by
    rw [held_other different, Nat.zero_add]
  refine ⟨ends_after_state.mpr ?_, counted_update exact.counted f none (by simp [last]) elsewhere,
    fun g => ?_⟩
  · simp only [entry]
    rw [if_neg (by omega), if_pos zero]
    refine ends_after_update.mpr (ends_after_state.mpr ?_)
    rw [if_neg (show (setCount f none fs).objects f ≠ none from lives)]
    exact returns_update.mpr rfl
  · by_cases here : g = f
    · simp [here, setObject, last]
    · rw [elsewhere g here, ← exact.alive g]
      simp [setObject, setCount, here]

/-- Releasing another slot of an object lowers its count. -/
theorem unref_shared {fs : FileSystem} {f : FilePtr} {slots : FilePtr → Nat}
    (exact : Exact fs fun g => held (some f) g + slots g) (shared : 0 < slots f) :
    ∃ count, Returns (unref (some f)) fs () (setCount f (some count) fs) ∧
      Exact (setCount f (some count) fs) slots := by
  have several : held (some f) f + slots f = 1 + slots f := by rw [held_self]
  obtain ⟨count, entry, number⟩ :=
    counted_some exact.counted (show 0 < held (some f) f + slots f by omega)
  have pred := toInt_pred count (by omega)
  have more : count - 1 ≠ 0 := fun zero => by
    rw [zero, show (0 : BitVec 32).toInt = 0 from rfl] at pred
    omega
  have elsewhere : ∀ g, g ≠ f → slots g = held (some f) g + slots g := fun g different => by
    rw [held_other different, Nat.zero_add]
  refine ⟨count - 1, ends_after_state.mpr ?_,
    counted_update exact.counted f _ ?_ elsewhere, fun g => ?_⟩
  · simp only [entry]
    rw [if_neg (by omega), if_neg more]
    exact returns_update.mpr rfl
  · rw [if_neg (by omega)]
    exact ⟨_, rfl, by omega⟩
  · change (fs.objects g).isSome ↔ _
    rw [exact.alive g]
    by_cases here : g = f
    · subst here
      omega
    · rw [← elsewhere g here]

/-- Releasing a slot keeps the counts exact and deletes the object exactly when no
other slot holds it. -/
theorem unref_exact {fs : FileSystem} {slot : Option FilePtr} {slots : FilePtr → Nat}
    (exact : Exact fs fun f => held slot f + slots f) :
    ∃ after, Returns (unref slot) fs () after ∧ Exact after slots ∧
      after.objects = remaining slots fs := by
  cases slot with
  | none =>
    have same : Exact fs slots := exact_congr exact fun f => by rw [held_none, Nat.zero_add]
    exact ⟨fs, returns_pure.mpr ⟨rfl, rfl⟩, same, (remaining_all same).symm⟩
  | some f =>
    by_cases last : slots f = 0
    · obtain ⟨returned, kept⟩ := unref_last exact last
      refine ⟨_, returned, kept, (remaining_all kept).symm.trans (funext fun g => ?_)⟩
      by_cases some : 0 < slots g
      · have different : g ≠ f := fun same => by
          rw [same] at some
          omega
        simp [remaining, some, setObject, setCount, different]
      · simp [remaining, some]
    · obtain ⟨count, returned, kept⟩ := unref_shared exact (Nat.pos_of_ne_zero last)
      exact ⟨_, returned, kept, (remaining_all kept).symm⟩

/-- One more slot for an object that has some. -/
theorem ref_exact {fs : FileSystem} {f : FilePtr} {slots : FilePtr → Nat}
    (exact : Exact fs slots) (holds : 0 < slots f) (room : slots f + 1 < 2 ^ 31) :
    ∃ after, Returns (ref (some f)) fs (some f) after ∧
      Exact after (fun g => held (some f) g + slots g) ∧ after.objects = fs.objects := by
  obtain ⟨count, entry, number⟩ := counted_some exact.counted holds
  have succ := toInt_succ count (by omega) (by omega)
  refine ⟨setCount f (some (count + 1)) fs, ?_, ⟨?_, fun g => ?_⟩, rfl⟩
  · apply ends_after_state.mpr
    simp only [entry]
    apply ends_after_update.mpr
    rw [if_neg (by omega)]
    exact ends_pure.mpr ⟨rfl, rfl⟩
  · refine counted_update exact.counted f _ ?_ fun g different => ?_
    · rw [held_self, if_neg (by omega)]
      exact ⟨_, rfl, by omega⟩
    · rw [held_other different, Nat.zero_add]
  · change (fs.objects g).isSome ↔ _
    rw [exact.alive g]
    by_cases here : g = f
    · subst here
      omega
    · rw [held_other here, Nat.zero_add]

/-- A new object has the slot that it was made for. -/
theorem added_exact {fs : FileSystem} {f : FilePtr} {object : File} {slots : FilePtr → Nat}
    (exact : Exact fs slots) (fresh : fs.objects f = none) :
    Exact (added f object fs) fun g => held (some f) g + slots g := by
  have free := exact_fresh exact fresh
  have absent := counted_none exact.counted free
  constructor
  · refine counted_update exact.counted f _ ?_ fun g different => ?_
    · rw [held_self, free, if_neg (by omega)]
      exact ⟨1, by simp [absent], rfl⟩
    · rw [held_other different, Nat.zero_add]
  · intro g
    by_cases here : g = f
    · simp [here, added, setCount, setObject]
    · rw [held_other here, Nat.zero_add, ← exact.alive g]
      simp [added, setCount, setObject, here]

/-- A call that was refused: by a negative code or by an exception of a memory access
or of the name's conversion. -/
def Refused : Except Stop Int → Prop
  | .ok code => code < 0
  | .error (.thrown _) => True
  | .error .outOfRange => True
  | .error (.assertion _) => False
  | .error .deadObject => False

/-- A part of a call that changes nothing and may only end the call by an exception
that refuses it. -/
def Reads {α : Type} (part : SlotMethod α) : Prop :=
  ∀ state outcome after, Ends part state outcome after →
    after = state ∧ ∀ stop, outcome = .error stop → Refused (.error stop)

/-- A call for a slot: refused with nothing changed, or successful with a new object in
the slot. -/
def Opens (around : Surroundings) (call : SlotMethod Int) : Prop :=
  ∀ fs slot outcome after, Ends call (fs, slot) outcome after →
    (after = (fs, slot) ∧ Refused outcome) ∨
      (outcome = .ok 0 ∧ ∃ object, after = (added around.address object fs, some around.address))

/-- A call opens files if its rest does, after a part that only reads. -/
theorem opens_bind {around : Surroundings} {α : Type} {part : SlotMethod α}
    {next : α → SlotMethod Int} (reads : Reads part) (following : ∀ value, Opens around (next value)) :
    Opens around (part >>= next) := by
  intro fs slot outcome after ended
  rcases ends_bind.mp ended with ⟨stop, raised, rfl⟩ | ⟨value, middle, returned, rest⟩
  · obtain ⟨same, refused⟩ := reads _ _ _ raised
    exact Or.inl ⟨same, refused stop rfl⟩
  · obtain ⟨rfl, -⟩ := reads _ _ _ returned
    exact following value fs slot outcome after rest

/-- A negative code opens nothing. -/
theorem opens_code (around : Surroundings) {code : Int} (negative : code < 0) :
    Opens around (pure code) := by
  intro fs slot outcome after ended
  obtain ⟨rfl, rfl⟩ := ends_pure.mp ended
  exact Or.inl ⟨rfl, negative⟩

/-- Installing a file opens it. -/
theorem opens_install (around : Surroundings) (object : File) :
    Opens around (do install around object; pure 0) := by
  intro fs slot outcome after ended
  have installed : Returns (install around object) (fs, slot) ()
      (added around.address object fs, some around.address) := returns_update.mpr rfl
  have closed := (ends_after installed).mp ended
  obtain ⟨rfl, rfl⟩ := ends_pure.mp closed
  exact Or.inr ⟨rfl, object, rfl⟩

/-- Reading a name changes no count. -/
theorem reads_getString (around : Surroundings) (nameptr : BitVec 32) :
    Reads (FileSystem.getString around nameptr) := by
  intro state outcome after ended
  unfold FileSystem.getString at ended
  split at ended
  · obtain ⟨rfl, rfl⟩ := ends_raise.mp ended
    refine ⟨rfl, fun stop same => ?_⟩
    cases same
    trivial
  · obtain ⟨rfl, rfl⟩ := ends_pure.mp ended
    exact ⟨rfl, fun _ same => by cases same⟩

/-- Converting a name changes none. -/
theorem reads_hostName (name : List Byte) : Reads (hostName name) := by
  intro state outcome after ended
  rcases ends_bind.mp ended with ⟨stop, raised, -⟩ | ⟨value, middle, returned, rest⟩
  · obtain ⟨_, impossible, -⟩ := raises_zoom.mp raised
    exact absurd impossible not_raises_attempt
  · obtain ⟨_, -, rfl⟩ := returns_zoom.mp returned
    cases value with
    | error failure =>
      obtain ⟨rfl, rfl⟩ := ends_raise.mp rest
      refine ⟨rfl, fun stop same => ?_⟩
      cases same
      trivial
    | ok exported =>
      obtain ⟨rfl, rfl⟩ := ends_pure.mp rest
      exact ⟨rfl, fun _ same => by cases same⟩

/-- Opening a file of the host opens it, or answers with a negative code. -/
theorem opens_openHost (around : Surroundings) (name : List Byte) (flags : OpenFlags)
    {code : Errno → Int} (negative : ∀ reason, code reason < 0) :
    Opens around (openHost around name flags code) := by
  unfold openHost
  split
  · exact opens_code around (negative _)
  · exact opens_install around _

/-- So does opening a name, the console's included. -/
theorem opens_openName (around : Surroundings) (name : List Byte) (mode : BitVec 16) :
    Opens around (openName around name mode) := by
  unfold openName
  split
  · exact opens_code around (by decide)
  · split
    · exact opens_install around _
    · exact opens_bind (reads_hostName name) fun _ =>
        opens_openHost around _ _ fun reason => by cases reason <;> decide

/-- So does opening the name at an address. -/
theorem opens_openAt (around : Surroundings) (nameptr : BitVec 32) (mode : BitVec 16) :
    Opens around (openAt around nameptr mode) :=
  opens_bind (reads_getString around nameptr) fun name => opens_openName around name mode

/-- So does creating a file. -/
theorem opens_create (around : Surroundings) (nameptr : BitVec 32) (atr : BitVec 16) :
    Opens around (FileSystem.create around nameptr atr) :=
  opens_bind (reads_getString around nameptr) fun name =>
    opens_bind (reads_hostName name) fun _ =>
      opens_openHost around _ _ fun reason => by cases reason <;> decide

section Contexts

variable {around : Surroundings} {fs after : FileSystem} {handles new : Handles}
  {others : FilePtr → Nat}

/-- The slots of one context and of all others. -/
def both (handles : Handles) (others : FilePtr → Nat) (f : FilePtr) : Nat :=
  handles.slots f + others f

/-- A slot that holds nothing shares what another one holds. -/
theorem share_exact {target source : Place} {f : FilePtr} (exact : Exact fs (both handles others))
    (holds : handles.get source = some f) (free : handles.get target = none)
    (alone : others f = 0) :
    ∃ after, Returns (share target source) (fs, handles) () (after, handles.set (some f) target) ∧
      Exact after (both (handles.set (some f) target) others) ∧ after.objects = fs.objects := by
  have some := Handles.slots_pos.mpr ⟨source, holds⟩
  have bound := handles.slots_le f
  simp only [NFILES] at bound
  obtain ⟨after, returned, counted, same⟩ :=
    ref_exact exact (f := f) (by simp only [both]; omega) (by simp only [both]; omega)
  refine ⟨after, ends_after_state.mpr ?_, exact_congr counted fun g => ?_, same⟩
  · have called : Returns (filing (ref (handles.get source))) (fs, handles) (.some f)
        (after, handles) := returns_zoom.mpr ⟨after, holds ▸ returned, rfl⟩
    exact (ends_after called).mpr (returns_update.mpr rfl)
  · have moved := handles.slots_set (.some f) target g
    rw [free, held_none] at moved
    simp only [both]
    omega

/-- Each source holds the object by its turn, and each target holds nothing. -/
def Fills (f : FilePtr) : Handles → List (Place × Place) → Prop
  | _, [] => True
  | handles, (target, source) :: rest =>
    handles.get source = some f ∧ handles.get target = none ∧
      Fills f (handles.set (some f) target) rest

/-- Slots filled from others of the same object.

Proof: by induction on the slots to fill. -/
theorem shareAll_exact {pairs : List (Place × Place)} {f : FilePtr}
    (exact : Exact fs (both handles others)) (fills : Fills f handles pairs)
    (alone : others f = 0) (only : ∀ g, 0 < handles.slots g → g = f) :
    ∃ after new, Returns (shareAll pairs) (fs, handles) () (after, new) ∧
      Exact after (both new others) ∧ after.objects = fs.objects ∧
        ∀ g, 0 < new.slots g → g = f := by
  induction pairs generalizing fs handles with
  | nil => exact ⟨fs, handles, returns_pure.mpr ⟨rfl, rfl⟩, exact, rfl, only⟩
  | cons pair rest inductionHypothesis =>
    obtain ⟨target, source⟩ := pair
    obtain ⟨holds, free, next⟩ := fills
    obtain ⟨middle, shared, counted, same⟩ := share_exact exact holds free alone
    have onlyStill : ∀ g, 0 < (handles.set (some f) target).slots g → g = f := by
      intro g positive
      by_contra different
      have moved := handles.slots_set (some f) target g
      rw [free, held_none, held_other different] at moved
      exact different (only g (by omega))
    obtain ⟨after, new, returned, final, unchanged, last⟩ :=
      inductionHypothesis counted next onlyStill
    exact ⟨after, new, returns_bind.mpr ⟨_, _, shared, returned⟩, final, unchanged.trans same, last⟩

/-- A new object in a slot that holds nothing. -/
theorem install_exact {place : Place} (object : File) (exact : Exact fs (both handles others))
    (fresh : fs.objects around.address = none) (free : handles.get place = none) :
    Exact (added around.address object fs)
      (both (handles.set (some around.address) place) others) := by
  apply exact_congr (added_exact exact fresh)
  intro g
  have moved := handles.slots_set (some around.address) place g
  rw [free, held_none] at moved
  simp only [both]
  omega

/-- The standard slots can be filled from the first one, in the constructor's order. -/
theorem standard_fills (f : FilePtr) :
    Fills f (Handles.vacant.set (some f) (.std 0)) standard := by
  have vacant : ∀ place, Handles.vacant.get place = none := by
    rintro (index | index) <;> simp [Handles.vacant, Handles.get]
  simp [standard, Fills, Handles.get_set_other, vacant]

/-- The constructor always returns, with exact counts and slots of a single new object. -/
theorem construct_exact (exact : Exact fs others) (fresh : fs.objects around.address = none)
    (rubbish : Handles) :
    ∃ after new, Returns (construct around) (fs, rubbish) () (after, new) ∧
      Exact after (both new others) ∧
      after.objects = Function.update fs.objects around.address (some .conDevice) ∧
      ∀ g, 0 < new.slots g → g = around.address := by
  have none : Exact fs (both Handles.vacant others) := exact_congr exact fun g => by simp [both]
  have vacant : Handles.vacant.get (.std 0) = .none := by simp [Handles.vacant, Handles.get]
  have installed := install_exact .conDevice none fresh vacant
  have alone := exact_fresh exact fresh
  have only : ∀ g, 0 < (Handles.vacant.set (some around.address) (.std 0)).slots g →
      g = around.address := by
    intro g positive
    by_contra different
    have moved := Handles.vacant.slots_set (some around.address) (.std 0) g
    rw [vacant, held_none, held_other different, Handles.slots_vacant] at moved
    omega
  obtain ⟨after, new, returned, counted, same, last⟩ :=
    shareAll_exact installed (standard_fills around.address) alone only
  refine ⟨after, new, ends_after_update.mpr ?_, counted, same, last⟩
  have opened : Returns (intoSlot (.std 0) (openName around [0x63, 0x6f, 0x6e] 2))
      (fs, Handles.vacant) 0 (added around.address .conDevice fs,
        Handles.vacant.set (some around.address) (.std 0)) := by
    refine returns_zoom.mpr ⟨(added around.address .conDevice fs, some around.address), ?_, rfl⟩
    have installs : Returns (install around .conDevice) (fs, Handles.vacant.get (.std 0)) ()
        (added around.address .conDevice fs, some around.address) := returns_update.mpr rfl
    rw [openName, if_neg (by decide), if_pos (by decide)]
    exact (ends_after installs).mpr (ends_pure.mpr ⟨rfl, rfl⟩)
  exact (ends_after opened).mpr returned

/-- Releasing slots one after the other. Each object goes with the last of its slots.

Proof: by induction on the slots to release. -/
theorem unrefAll_exact {released : List (Option FilePtr)} {slots : FilePtr → Nat}
    (exact : Exact fs fun f => released.count (some f) + slots f) :
    ∃ after, Returns (unrefAll released) fs () after ∧ Exact after slots ∧
      after.objects = remaining slots fs := by
  induction released generalizing fs with
  | nil =>
    have same : Exact fs slots := exact_congr exact fun f => by simp
    exact ⟨fs, returns_pure.mpr ⟨rfl, rfl⟩, same, (remaining_all same).symm⟩
  | cons slot rest inductionHypothesis =>
    have one : Exact fs fun f => held slot f + (rest.count (some f) + slots f) :=
      exact_congr exact fun f => by
        rw [List.count_cons]
        simp only [beq_iff_eq, held]
        omega
    obtain ⟨middle, first, counted, objects⟩ := unref_exact one
    obtain ⟨after, returned, final, left⟩ := inductionHypothesis counted
    refine ⟨after, returns_bind.mpr ⟨_, _, first, returned⟩, final, left.trans (funext fun f => ?_)⟩
    by_cases some : 0 < slots f
    · simp only [remaining, if_pos some, objects]
      rw [if_pos (by omega)]
    · simp only [remaining, if_neg some]

/-- What a call of a context does to the shared file system and to the context. -/
structure Served (fs : FileSystem) (handles : Handles) (others : FilePtr → Nat)
    (outcome : Except Stop Int) (after : FileSystem) (new : Handles) : Prop where
  exact : Exact after (both new others)
  fresh : ∀ f, 0 < new.slots f → 0 < handles.slots f ∨ others f = 0
  objects : ∀ f, (fs.objects f).isSome → after.objects f = remaining (both new others) fs f
  ended : Refused outcome ∨ ∃ code, 0 ≤ code ∧ outcome = .ok code
  refused : Refused outcome → after = fs ∧ new = handles

/-- A refused call has done nothing. -/
theorem served_refused {outcome : Except Stop Int} (exact : Exact fs (both handles others))
    (refused : Refused outcome) : Served fs handles others outcome fs handles where
  exact := exact
  fresh _ positive := Or.inl positive
  objects f _ := (congrFun (remaining_all exact) f).symm
  ended := Or.inl refused
  refused _ := ⟨rfl, rfl⟩

/-- A call that filled a free slot, with an object of no other context. -/
theorem served_filled {place : Place} {f : FilePtr} {code : Int}
    (exact : Exact after (both (handles.set (some f) place) others))
    (vacant : handles.get place = none) (alone : others f = 0)
    (same : ∀ g, (fs.objects g).isSome → after.objects g = fs.objects g) (success : 0 ≤ code) :
    Served fs handles others (.ok code) after (handles.set (some f) place) where
  exact := exact
  fresh g positive := by
    by_cases which : g = f
    · exact Or.inr (which ▸ alone)
    · have moved := handles.slots_set (some f) place g
      rw [vacant, held_none, held_other which] at moved
      exact Or.inl (by omega)
  objects g lives := by
    have all := congrFun (remaining_all exact) g
    rw [← all]
    simp only [remaining, same g lives]
  ended := Or.inr ⟨code, success, rfl⟩
  refused refused := absurd success (not_le.mpr refused)

/-- A descriptor that is looked up is that of an ordinary slot. -/
theorem lookup_some {fd : BitVec 16} {index : Fin NFILES} {f : FilePtr}
    (found : lookup handles fd = some (index, f)) :
    index.val = fd.toNat ∧ handles.get (.file index) = some f := by
  unfold lookup at found
  split at found
  · rename_i inRange
    obtain ⟨content, here, same⟩ := Option.map_eq_some_iff.mp found
    obtain ⟨rfl, rfl⟩ := Prod.mk.inj same
    exact ⟨rfl, here⟩
  · cases found

/-- Closing a descriptor clears its slot and no other. -/
theorem close_served (exact : Exact fs (both handles others)) (fd : BitVec 16) :
    ∃ outcome after new, Ends (FileHandles.close fd) (fs, handles) outcome (after, new) ∧
      Served fs handles others outcome after new ∧
        ∀ place, (∀ index, index.val = fd.toNat → place ≠ .file index) →
          new.get place = handles.get place := by
  cases found : lookup handles fd with
  | none =>
    refine ⟨.ok (-6), fs, handles, ends_after_state.mpr ?_, ?_, fun _ _ => rfl⟩
    · simp only [found]
      exact ends_pure.mpr ⟨rfl, rfl⟩
    · exact served_refused exact (by decide : (-6 : Int) < 0)
  | some pair =>
    obtain ⟨index, f⟩ := pair
    obtain ⟨number, here⟩ := lookup_some found
    have moved := handles.slots_set none (.file index)
    have split : Exact fs fun g => held (some f) g + both (handles.set none (.file index)) others g :=
      exact_congr exact fun g => by
        have count := moved g
        rw [here, held_none] at count
        simp only [both]
        omega
    obtain ⟨after, released, counted, objects⟩ := unref_exact split
    refine ⟨.ok 0, after, handles.set none (.file index), ends_after_state.mpr ?_, ?_, ?_⟩
    · simp only [found]
      have called : Returns (filing (unref (some f))) (fs, handles) () (after, handles) :=
        returns_zoom.mpr ⟨after, released, rfl⟩
      refine (ends_after called).mpr (ends_after_update.mpr ?_)
      exact ends_pure.mpr ⟨rfl, rfl⟩
    · refine ⟨counted, fun g positive => Or.inl ?_, fun g _ => congrFun objects g,
        Or.inr ⟨0, le_refl 0, rfl⟩, fun refused => absurd refused (by simp [Refused])⟩
      have count := moved g
      rw [held_none] at count
      omega
    · exact fun place other => handles.get_set_other none (other index number)

/-- Duplicating a descriptor lets the first free slot share its file. -/
theorem dup_served (exact : Exact fs (both handles others))
    (alone : ∀ f, 0 < handles.slots f → others f = 0) (filno : BitVec 16) :
    ∃ outcome after new, Ends (dup filno) (fs, handles) outcome (after, new) ∧
      Served fs handles others outcome after new := by
  cases found : lookup handles filno with
  | none =>
    refine ⟨.ok (-6), fs, handles, ends_after_state.mpr ?_,
      served_refused exact (by decide : (-6 : Int) < 0)⟩
    simp only [found]
    exact ends_pure.mpr ⟨rfl, rfl⟩
  | some pair =>
    obtain ⟨index, f⟩ := pair
    obtain ⟨number, here⟩ := lookup_some found
    cases search : handles.find with
    | none =>
      refine ⟨.ok (-4), fs, handles, ends_after_state.mpr ?_,
        served_refused exact (by decide : (-4 : Int) < 0)⟩
      simp only [found, search]
      exact ends_pure.mpr ⟨rfl, rfl⟩
    | some free =>
      have positive := Handles.slots_pos.mpr ⟨_, here⟩
      have vacant := Handles.get_found search
      obtain ⟨after, shared, counted, same⟩ := share_exact exact here vacant (alone f positive)
      refine ⟨.ok (free : Nat), after, handles.set (some f) (.file free),
        ends_after_state.mpr ?_, ?_⟩
      · simp only [found, search]
        exact (ends_after shared).mpr (ends_pure.mpr ⟨rfl, rfl⟩)
      · exact served_filled counted vacant (alone f positive) (fun g _ => congrFun same g)
          (Int.natCast_nonneg _)

/-- Opening or creating a file fills the first free slot or does nothing. -/
theorem intoFree_served {call : SlotMethod Int} (opens : Opens around call)
    (exact : Exact fs (both handles others)) (fresh : fs.objects around.address = none)
    {outcome : Except Stop Int} (ended : Ends (intoFree call) (fs, handles) outcome (after, new)) :
    Served fs handles others outcome after new := by
  have rest := ends_after_state.mp ended
  cases search : handles.find with
  | none =>
    simp only [search] at rest
    obtain ⟨rfl, same⟩ := ends_pure.mp rest
    obtain ⟨rfl, rfl⟩ := Prod.mk.inj same
    exact served_refused exact (by decide : (-4 : Int) < 0)
  | some free =>
    simp only [search] at rest
    have vacant := Handles.get_found search
    rcases ends_bind.mp rest with ⟨stop, raised, rfl⟩ | ⟨err, middle, returned, final⟩
    · obtain ⟨part, raises, whole⟩ := raises_zoom.mp raised
      rcases opens _ _ _ _ raises with ⟨rfl, refused⟩ | ⟨impossible, -⟩
      · simp only [Handles.set_get_self] at whole
        obtain ⟨rfl, rfl⟩ := Prod.mk.inj whole
        exact served_refused exact refused
      · cases impossible
    · obtain ⟨rfl, rfl⟩ := ends_pure.mp final
      obtain ⟨part, returns, whole⟩ := returns_zoom.mp returned
      rcases opens _ _ _ _ returns with ⟨rfl, refused⟩ | ⟨success, object, rfl⟩
      · simp only [Handles.set_get_self] at whole
        obtain ⟨rfl, rfl⟩ := Prod.mk.inj whole
        rw [if_pos (show err < 0 from refused)]
        exact served_refused exact refused
      · obtain ⟨rfl, rfl⟩ := Prod.mk.inj whole
        obtain rfl := Except.ok.inj success
        have counted := install_exact object exact fresh vacant
        have alone : others around.address = 0 :=
          (Nat.add_eq_zero_iff.mp (exact_fresh exact fresh)).2
        refine served_filled counted vacant alone (fun g lives => ?_) (Int.natCast_nonneg _)
        have different : g ≠ around.address := fun same => by simp [same, fresh] at lives
        simp [added, setCount, setObject, different]

end Contexts

end FileCounts

end Vx68k
