import Vx68k.ProgramLoad

/-!
# The loop over the table of fix-ups

The loop steps through a buffer by a pointer and leaves where the pointer is the end of the
table. An entry has two bytes or six, as its first word says. Here the buffer is as it is in
memory, with other bytes behind it: an entry that is cut off by the end of the table is read
to the end, and the pointer steps over the end.
-/

namespace Vx68k

open Programs ByteStores DosExecContext

namespace FixUps

open ProgramLoad

variable {M : Type} [Bus M]

/-- The distance that an entry has, and its bytes. The word 1 is a prefix for a long one. -/
def entry (heap : Store) (p : Nat) : Uint32 × Nat :=
  let d := BitVec.ofNat 32 (decode (slice heap p 2))
  if d = 1 then (BitVec.ofNat 32 (decode (slice heap (p + 2) 4)), 6) else (d, 2)

/-- One turn, from a pointer and the address of the fix-up before. -/
def fixUpTurn (base loadAddress : Uint32) (heap : Store) (relocSize : Nat)
    (position : Nat × Uint32) : DosExecContext.Method M (Turn (Nat × Uint32) Unit) :=
  let (p, address) := position
  if p = relocSize then pure (.leave ())
  else
    let (d, count) := entry heap p
    if d % 2 ≠ 0 then .raise (.runtimeError "exec format error")
    else do
      fixUpAt base loadAddress (address + d)
      pure (.again (p + count, address + d))

/-- The loop, in a buffer whose first bytes are the table. -/
def fixUpLoop (base loadAddress : Uint32) (heap : Store) (relocSize : Nat) :
    DosExecContext.Method M Unit :=
  Program.loop (fixUpTurn base loadAddress heap relocSize) (0, loadAddress)

/-- From a turn on, every entry that is read lies before the end of the table, and the loop
ends. -/
structure Careful (base loadAddress : Uint32) (heap : Store) (relocSize : Nat)
    (position : Nat × Uint32) (context : DosExecContext M) : Prop where
  inside : ∀ reached state,
    Turns (fixUpTurn base loadAddress heap relocSize) position context reached state →
      reached.1 ≠ relocSize → reached.1 + (entry heap reached.1).2 ≤ relocSize
  halts : Halts (.loop (fixUpTurn base loadAddress heap relocSize) position) context

/-- How the entries of a table come to an end: with the table, with an odd distance, or with an
entry that is cut off. -/
inductive Last where
  | consumed
  | odd
  | cut
deriving DecidableEq

/-- The addresses of the fix-ups in a table up to its last entry, and how that is. -/
def walk : List Byte → Uint32 → List Uint32 × Last
  | [], _ => ([], .consumed)
  | [_], _ => ([], .cut)
  | high :: low :: rest, address =>
    let d := BitVec.ofNat 32 (decode [high, low])
    if d = 1 then
      match rest with
      | first :: second :: third :: fourth :: rest =>
        let d := BitVec.ofNat 32 (decode [first, second, third, fourth])
        if d % 2 ≠ 0 then ([], .odd)
        else ((address + d) :: (walk rest (address + d)).1, (walk rest (address + d)).2)
      | _ => ([], .cut)
    else if d % 2 ≠ 0 then ([], .odd)
    else ((address + d) :: (walk rest (address + d)).1, (walk rest (address + d)).2)

/-- What the loop does at the last entry. -/
def lastTurn : Last → DosExecContext.Method M Unit
  | .consumed => pure ()
  | .odd => .raise (.runtimeError "exec format error")
  | .cut => .diverge

/-- A table is gone through by applying its fix-ups, up to the last entry. -/
theorem fixUp_walk (base loadAddress : Uint32) (table : List Byte) (address : Uint32) :
    (fixUp base loadAddress table address : DosExecContext.Method M Unit) = (do
      fixUpAll base loadAddress (walk table address).1
      lastTurn (walk table address).2) := by
  fun_induction walk table address with
  | case1 address => rfl
  | case2 only address => rfl
  | case3 high low address d isLong first second third fourth rest d' odd =>
    rw [fixUp.eq_def]
    simp only [d, d'] at isLong odd ⊢
    rw [if_pos isLong, if_pos odd]
    rfl
  | case4 high low address d isLong first second third fourth rest d' even inductionHypothesis =>
    rw [fixUp.eq_def]
    simp only [d, d'] at isLong even inductionHypothesis ⊢
    rw [if_pos isLong, if_neg even, inductionHypothesis, fixUpAll, bind_assoc]
  | case5 high low rest address d isLong short =>
    rw [fixUp.eq_def]
    simp only [d] at isLong ⊢
    rw [if_pos isLong]
    rfl
  | case6 high low rest address d short odd =>
    rw [fixUp.eq_def]
    simp only [d] at short odd ⊢
    rw [if_neg short, if_pos odd]
    rfl
  | case7 high low rest address d short even inductionHypothesis =>
    rw [fixUp.eq_def]
    simp only [d] at short even inductionHypothesis ⊢
    rw [if_neg short, if_neg even, inductionHypothesis, fixUpAll, bind_assoc]

/-- An accepted table is gone through to its end. -/
theorem walk_accepted (table : List Byte) (address : Uint32) (places : List Uint32)
    (accepted : fixUpPlaces table address = some places) :
    walk table address = (places, .consumed) := by
  fun_induction fixUpPlaces table address generalizing places with
  | case1 address =>
    obtain rfl : [] = places := Option.some.inj accepted
    rfl
  | case2 only address => exact absurd accepted (by simp)
  | case3 high low address d isLong first second third fourth rest d' odd =>
    exact absurd accepted (by simp)
  | case4 high low address d isLong first second third fourth rest d' even inductionHypothesis =>
    obtain ⟨others, later, rfl⟩ := Option.map_eq_some_iff.mp accepted
    rw [walk.eq_def]
    simp only [d, d'] at isLong even inductionHypothesis later ⊢
    rw [if_pos isLong, if_neg even, inductionHypothesis others later]
  | case5 high low rest address d isLong short => exact absurd accepted (by simp)
  | case6 high low rest address d short odd => exact absurd accepted (by simp)
  | case7 high low rest address d short even inductionHypothesis =>
    obtain ⟨others, later, rfl⟩ := Option.map_eq_some_iff.mp accepted
    rw [walk.eq_def]
    simp only [d] at short even inductionHypothesis later ⊢
    rw [if_neg short, if_neg even, inductionHypothesis others later]

/-- From an even address on, all fix-ups that are applied are at even addresses. -/
theorem walk_even (table : List Byte) (address : Uint32) (even : address.toNat % 2 = 0) :
    ∀ place ∈ (walk table address).1, place.toNat % 2 = 0 := by
  fun_induction walk table address with
  | case4 high low address d isLong first second third fourth rest d' multiple inductionHypothesis =>
    have next := even_add even multiple
    exact List.forall_mem_cons.mpr ⟨next, inductionHypothesis next⟩
  | case7 high low rest address d short multiple inductionHypothesis =>
    have next := even_add even multiple
    exact List.forall_mem_cons.mpr ⟨next, inductionHypothesis next⟩
  | _ => exact fun place member => absurd member List.not_mem_nil

/-- The table is not cut off in an entry, or the fix-ups before cannot all be applied. -/
def Spans (base loadAddress : Uint32) (table : List Byte) (address : Uint32)
    (context : DosExecContext M) : Prop :=
  (walk table address).2 ≠ .cut ∨
    ¬ ∃ after, Returns (fixUpAll base loadAddress (walk table address).1) context () after

section Walks

variable {heap : Store} {p count : Nat} {address : Uint32}

/-- Entries have two bytes or six. -/
theorem entry_count (heap : Store) (p : Nat) :
    (entry heap p).2 = 2 ∧ (entry heap p).1 = BitVec.ofNat 32 (decode (slice heap p 2)) ∧
        (entry heap p).1 ≠ 1 ∨
      (entry heap p).2 = 6 ∧ BitVec.ofNat 32 (decode (slice heap p 2)) = (1 : Uint32) ∧
        (entry heap p).1 = BitVec.ofNat 32 (decode (slice heap (p + 2) 4)) := by
  rw [entry]
  split
  · rename_i long
    exact Or.inr ⟨rfl, long, rfl⟩
  · rename_i short
    exact Or.inl ⟨rfl, rfl, short⟩

/-- What a table comes to when an entry does not fit. -/
theorem walk_cut (some : 0 < count) (short : count < (entry heap p).2) :
    walk (slice heap p count) address = ([], .cut) := by
  rcases entry_count heap p with ⟨two, -, -⟩ | ⟨six, long, -⟩
  · obtain rfl : count = 1 := by omega
    rfl
  · rw [six] at short
    have long : BitVec.ofNat 32 (decode [heap p, heap (p + 1)]) = (1 : Uint32) := long
    match count, some, short with
    | 1, _, _ => rfl
    | 2, _, _ => simp only [slice, walk, long, if_true]
    | 3, _, _ => simp only [slice, walk, long, if_true]
    | 4, _, _ => simp only [slice, walk, long, if_true]
    | 5, _, _ => simp only [slice, walk, long, if_true]

/-- What a table comes to when its first entry fits. -/
theorem walk_entry (fits : (entry heap p).2 ≤ count) :
    walk (slice heap p count) address =
      if (entry heap p).1 % 2 ≠ 0 then ([], .odd)
      else
        let later := walk (slice heap (p + (entry heap p).2) (count - (entry heap p).2))
          (address + (entry heap p).1)
        ((address + (entry heap p).1) :: later.1, later.2) := by
  rcases entry_count heap p with ⟨two, same, short⟩ | ⟨six, long, same⟩
  · rw [two] at fits ⊢
    obtain ⟨rest, rfl⟩ := Nat.exists_eq_add_of_le' fits
    rw [same] at short ⊢
    have short : ¬ BitVec.ofNat 32 (decode [heap p, heap (p + 1)]) = (1 : Uint32) := short
    rw [Nat.add_sub_cancel]
    change walk (heap p :: heap (p + 1) :: slice heap (p + 2) rest) address = _
    rw [walk.eq_def]
    simp only [short, if_false]
    rfl
  · rw [six] at fits ⊢
    obtain ⟨rest, rfl⟩ := Nat.exists_eq_add_of_le' fits
    have long : BitVec.ofNat 32 (decode [heap p, heap (p + 1)]) = (1 : Uint32) := long
    rw [same, Nat.add_sub_cancel]
    simp only [slice, walk, long, if_true]
    rfl

end Walks

section Steps

variable {base loadAddress : Uint32} {heap : Store} {relocSize p : Nat} {address : Uint32}
  {context : DosExecContext M}

/-- Where the loop returns, it has consumed the table. -/
theorem returns_consumed {position : Nat × Uint32} {after : DosExecContext M}
    (returned : Returns (.loop (fixUpTurn base loadAddress heap relocSize) position) context () after) :
    ∃ address, Turns (fixUpTurn base loadAddress heap relocSize) position context
      (relocSize, address) after := by
  obtain ⟨⟨p, address⟩, state, turns, last⟩ := ends_last_turn returned
  have leaves : Returns (fixUpTurn base loadAddress heap relocSize (p, address)) state
      (.leave ()) after := last
  by_cases finished : p = relocSize
  · rw [fixUpTurn, if_pos finished] at leaves
    obtain ⟨-, rfl⟩ := returns_pure.mp leaves
    exact ⟨address, finished ▸ turns⟩
  · simp only [fixUpTurn, if_neg finished] at leaves
    split at leaves
    · exact absurd leaves not_returns_raise
    · obtain ⟨_, middle, -, done⟩ := returns_bind.mp leaves
      exact absurd (returns_pure.mp done).1 (by simp)

/-- At the end of the table the loop leaves. -/
theorem careful_end : Careful base loadAddress heap relocSize (relocSize, address) context := by
  have leaves : Returns (fixUpTurn base loadAddress heap relocSize (relocSize, address)) context
      (.leave ()) context := by
    rw [fixUpTurn, if_pos rfl]
    exact returns_pure.mpr ⟨rfl, rfl⟩
  refine ⟨fun reached state turns past => ?_, halts_iff.mpr (Or.inl ⟨(), context, loop_leaves leaves⟩)⟩
  rcases turns_cases turns with ⟨rfl, -⟩ | ⟨second, middle, again, -⟩
  · exact absurd rfl past
  · exact absurd (returns_unique leaves again).1 (by simp)

/-- An entry that does not fit is read past the end. -/
theorem not_careful (inTable : p ≠ relocSize) (short : relocSize < p + (entry heap p).2) :
    ¬ Careful base loadAddress heap relocSize (p, address) context := by
  intro careful
  have fits := careful.inside (p, address) context .first inTable
  dsimp only at fits
  omega

/-- An entry with an odd distance ends the loop. -/
theorem careful_odd (inTable : p ≠ relocSize) (fits : p + (entry heap p).2 ≤ relocSize)
    (odd : (entry heap p).1 % 2 ≠ 0) :
    Careful base loadAddress heap relocSize (p, address) context := by
  have raises : Raises (fixUpTurn base loadAddress heap relocSize (p, address)) context
      (.runtimeError "exec format error") context := by
    simp only [fixUpTurn, if_neg inTable, if_pos odd]
    exact raises_raise.mpr ⟨rfl, rfl⟩
  refine ⟨fun reached state turns past => ?_, halts_loop.mpr (halts_iff.mpr (Or.inr ⟨_, context,
    raises_bind.mpr (Or.inl raises)⟩))⟩
  rcases turns_cases turns with ⟨rfl, -⟩ | ⟨second, middle, again, -⟩
  · exact fits
  · exact absurd raises (returns_not_raises again)

/-- A fix-up ends. -/
theorem halts_fixUpAt (place : Uint32) : Halts (fixUpAt base loadAddress place) context :=
  halts_bind (halts_atomic _ _) fun _ _ _ => halts_atomic _ _

/-- Any other entry is one fix-up. -/
theorem fixUpTurn_even (inTable : p ≠ relocSize) (even : ¬ (entry heap p).1 % 2 ≠ 0) :
    fixUpTurn base loadAddress heap relocSize (p, address) = (do
      fixUpAt base loadAddress (address + (entry heap p).1)
      pure (.again (p + (entry heap p).2, address + (entry heap p).1)) :
        DosExecContext.Method M (Turn (Nat × Uint32) Unit)) := by
  simp only [fixUpTurn, if_neg inTable, if_neg even]

/-- The loop goes on behind it, if the fix-up can be applied. -/
theorem loop_even (inTable : p ≠ relocSize) (even : ¬ (entry heap p).1 % 2 ≠ 0)
    {outcome : Except Thrown Unit} {after : DosExecContext M} :
    Ends (.loop (fixUpTurn base loadAddress heap relocSize) (p, address)) context outcome after ↔
      Ends (do
        fixUpAt base loadAddress (address + (entry heap p).1)
        .loop (fixUpTurn base loadAddress heap relocSize)
          (p + (entry heap p).2, address + (entry heap p).1)) context outcome after := by
  rw [show Ends _ context outcome after ↔ _ from loop_ends_iff _ _ _ (outcome, after),
    fixUpTurn_even inTable even, bind_assoc]
  simp only [pure_bind, afterTurn]
  exact Iff.rfl

/-- An entry in the table with an even distance is taken with care if its fix-up is followed by
care. -/
theorem careful_even (inTable : p ≠ relocSize) (fits : p + (entry heap p).2 ≤ relocSize)
    (even : ¬ (entry heap p).1 % 2 ≠ 0) :
    Careful base loadAddress heap relocSize (p, address) context ↔
      ∀ middle, Returns (fixUpAt base loadAddress (address + (entry heap p).1)) context () middle →
        Careful base loadAddress heap relocSize
          (p + (entry heap p).2, address + (entry heap p).1) middle := by
  have again (second : Nat × Uint32) (middle : DosExecContext M) :
      Returns (fixUpTurn base loadAddress heap relocSize (p, address)) context (.again second) middle ↔
        second = (p + (entry heap p).2, address + (entry heap p).1) ∧
          Returns (fixUpAt base loadAddress (address + (entry heap p).1)) context () middle := by
    rw [fixUpTurn_even inTable even, returns_bind]
    constructor
    · rintro ⟨_, between, applied, done⟩
      obtain ⟨same, rfl⟩ := returns_pure.mp done
      exact ⟨(Turn.again.inj same).symm, applied⟩
    · rintro ⟨rfl, applied⟩
      exact ⟨(), middle, applied, returns_pure.mpr ⟨rfl, rfl⟩⟩
  constructor
  · intro careful middle applied
    have first := (again _ middle).mpr ⟨rfl, applied⟩
    refine ⟨fun reached state turns => careful.inside reached state (turns_after first turns), ?_⟩
    exact (halts_after first).mp (halts_loop.mp careful.halts)
  · intro later
    refine ⟨fun reached state turns past => ?_, halts_loop.mpr (halts_bind ?_ ?_)⟩
    · rcases turns_cases turns with ⟨rfl, -⟩ | ⟨second, middle, went, rest⟩
      · exact fits
      · obtain ⟨rfl, applied⟩ := (again second middle).mp went
        exact (later middle applied).inside reached state rest past
    · rw [fixUpTurn_even inTable even]
      exact halts_bind (halts_fixUpAt _) fun _ _ _ => halts_atomic _ _
    · intro turn middle returned
      cases turn with
      | leave value => exact halts_atomic _ _
      | again second =>
        obtain ⟨rfl, applied⟩ := (again second middle).mp returned
        exact (later middle applied).halts

/-- Fix-ups of which the first can be applied are those after it, from there. -/
theorem spans_entry (fits : (entry heap p).2 ≤ relocSize) (even : ¬ (entry heap p).1 % 2 ≠ 0) :
    Spans base loadAddress (slice heap p relocSize) address context ↔
      ∀ middle, Returns (fixUpAt base loadAddress (address + (entry heap p).1)) context () middle →
        Spans base loadAddress
          (slice heap (p + (entry heap p).2) (relocSize - (entry heap p).2))
          (address + (entry heap p).1) middle := by
  simp only [Spans, walk_entry fits, if_neg even]
  generalize walk (slice heap (p + (entry heap p).2) (relocSize - (entry heap p).2))
    (address + (entry heap p).1) = later
  constructor
  · rintro (last | refused) middle applied
    · exact Or.inl last
    · refine Or.inr fun ⟨after, rest⟩ => refused ⟨after, returns_bind.mpr ⟨(), middle, applied, rest⟩⟩
  · intro spans
    by_cases last : later.2 = .cut
    · refine Or.inr fun ⟨after, all⟩ => ?_
      obtain ⟨_, middle, applied, rest⟩ := returns_bind.mp all
      rcases spans middle applied with whole | refused
      · exact whole last
      · exact refused ⟨after, rest⟩
    · exact Or.inl last

/-- From any entry on, the loop keeps to the table just if that is not cut off.

Proof: by induction on the bytes that are left, one entry at a time. -/
theorem careful_spans (count : Nat) (whole : p + count = relocSize) :
    Careful base loadAddress heap relocSize (p, address) context ↔
      Spans base loadAddress (slice heap p count) address context := by
  induction count using Nat.strong_induction_on generalizing p address context with
  | h count inductionHypothesis =>
    by_cases none : count = 0
    · subst none
      obtain rfl : p = relocSize := by omega
      exact iff_of_true careful_end (Or.inl (by simp [slice, walk]))
    · have inTable : p ≠ relocSize := by omega
      by_cases short : count < (entry heap p).2
      · refine iff_of_false (not_careful inTable (by omega)) ?_
        rw [Spans, walk_cut (by omega) short]
        exact fun spans => spans.elim (fun last => last rfl)
          fun refused => refused ⟨context, returns_pure.mpr ⟨rfl, rfl⟩⟩
      · have fits : (entry heap p).2 ≤ count := by omega
        by_cases odd : (entry heap p).1 % 2 ≠ 0
        · refine iff_of_true (careful_odd inTable (by omega) odd) (Or.inl ?_)
          rw [walk_entry fits, if_pos odd]
          decide
        · have some : 0 < (entry heap p).2 := by
            rcases entry_count heap p with ⟨two, -⟩ | ⟨six, -⟩ <;> omega
          rw [careful_even inTable (by omega) odd, spans_entry fits odd]
          refine forall_congr' fun middle => imp_congr_right fun _ => ?_
          exact inductionHypothesis _ (by omega) (by omega)

/-- The recursion over the table does what the loop does with an entry. -/
theorem fixUp_entry (fits : (entry heap p).2 ≤ relocSize) :
    (fixUp base loadAddress (slice heap p relocSize) address : DosExecContext.Method M Unit) =
      if (entry heap p).1 % 2 ≠ 0 then .raise (.runtimeError "exec format error")
      else (do
        fixUpAt base loadAddress (address + (entry heap p).1)
        fixUp base loadAddress (slice heap (p + (entry heap p).2) (relocSize - (entry heap p).2))
          (address + (entry heap p).1)) := by
  rw [fixUp_walk, walk_entry fits]
  split
  · rfl
  · rw [fixUp_walk, fixUpAll, bind_assoc]

/-- Over a table that is not cut off, the loop ends as the recursion does. -/
theorem loop_fixUp (count : Nat) (whole : p + count = relocSize)
    (spans : Spans base loadAddress (slice heap p count) address context)
    {outcome : Except Thrown Unit} {after : DosExecContext M} :
    Ends (.loop (fixUpTurn base loadAddress heap relocSize) (p, address)) context outcome after ↔
      Ends (fixUp base loadAddress (slice heap p count) address) context outcome after := by
  induction count using Nat.strong_induction_on generalizing p address context with
  | h count inductionHypothesis =>
    by_cases none : count = 0
    · subst none
      obtain rfl : p = relocSize := by omega
      have leaves : Returns (fixUpTurn base loadAddress heap p (p, address)) context
          (.leave ()) context := by
        rw [fixUpTurn, if_pos rfl]
        exact returns_pure.mpr ⟨rfl, rfl⟩
      rw [show Ends _ context outcome after ↔ _ from loop_ends_iff _ _ _ (outcome, after)]
      exact ends_after leaves
    · have inTable : p ≠ relocSize := by omega
      have fits : (entry heap p).2 ≤ count := by
        by_contra short
        rw [Spans, walk_cut (by omega) (by omega)] at spans
        exact spans.elim (fun last => last rfl)
          fun refused => refused ⟨context, returns_pure.mpr ⟨rfl, rfl⟩⟩
      rw [fixUp_entry fits]
      by_cases odd : (entry heap p).1 % 2 ≠ 0
      · have turn : fixUpTurn base loadAddress heap relocSize (p, address) =
            (.raise (.runtimeError "exec format error") :
              DosExecContext.Method M (Turn (Nat × Uint32) Unit)) := by
          simp only [fixUpTurn, if_neg inTable, if_pos odd]
        rw [if_pos odd, show Ends _ context outcome after ↔ _ from loop_ends_iff _ _ _ (outcome, after),
          turn]
        exact Iff.rfl
      · have some : 0 < (entry heap p).2 := by
          rcases entry_count heap p with ⟨two, -⟩ | ⟨six, -⟩ <;> omega
        rw [if_neg odd, loop_even inTable odd, ends_bind, ends_bind]
        refine or_congr Iff.rfl (exists_congr fun _ => exists_congr fun middle => and_congr_right fun applied => ?_)
        exact inductionHypothesis _ (by omega) (by omega) ((spans_entry fits odd).mp spans middle applied)

end Steps

/-- For every buffer, length of the table, base, load address and state: no byte at the end of the
table or past it is read, and the loop ends, with the table consumed if it returns, if and only if
the table is not cut off in an entry or the fix-ups before that cannot all be applied.

Proof: by induction on the bytes that are left. Where an entry is cut off, it is read past the end
as soon as the loop comes to it. -/
theorem fixUpLoop_careful_iff (base loadAddress : Uint32) (heap : Store) (relocSize : Nat)
    (context : DosExecContext M) :
    (Careful base loadAddress heap relocSize (0, loadAddress) context ∧
        ∀ after, Returns (fixUpLoop base loadAddress heap relocSize) context () after →
          ∃ address, Turns (fixUpTurn base loadAddress heap relocSize) (0, loadAddress) context
            (relocSize, address) after) ↔
      Spans base loadAddress (slice heap 0 relocSize) loadAddress context := by
  rw [← careful_spans relocSize (Nat.zero_add relocSize)]
  exact and_iff_left fun after returned => returns_consumed returned

/-- The loop of an odd table keeps fixing up the load address: the pointer steps over its end. -/
theorem odd_table_runs_on :
    ¬ Careful 0 0x10000 (fun _ => 0) 1 (0, 0x10000)
        (⟨⟨Allocator.megabyte, 0, 0, 0⟩, 0, ⟨fun _ => 0, 0, 0⟩⟩ :
          DosExecContext MainMemory.ByteMemory) ∧
      ¬ Halts (fixUpLoop 0 0x10000 (fun _ => 0) 1)
        (⟨⟨Allocator.megabyte, 0, 0, 0⟩, 0, ⟨fun _ => 0, 0, 0⟩⟩ :
          DosExecContext MainMemory.ByteMemory) := by
  constructor
  · exact not_careful (by decide) (by decide)
  · refine loop_diverges (fun position context => position.1 % 2 = 0 ∧ position.2 = 0x10000 ∧
      Bus.size context.allocator.as = 0x100000) ?_ _ _ ⟨rfl, rfl, rfl⟩
    rintro ⟨p, address⟩ context ⟨even, rfl, size⟩
    have inTable : p ≠ 1 := by
      rintro rfl
      exact absurd even (by decide)
    have zero : entry (fun _ => 0) p = (0, 2) := by simp [entry, slice, decode]
    have fixed : Lays 0x100000 (fixUpAt 0 0x10000 0x10000 : DosExecContext.Method _ Unit) _ :=
      lays_fixUpAt (M := MainMemory.ByteMemory) 0 0x10000 0x10000 (by decide) (by decide)
    obtain ⟨_, after, applied, kept, -⟩ := fixed context (by omega)
    refine ⟨(p + 2, 0x10000), after, ?_, by simpa using even, rfl, kept.trans size⟩
    rw [fixUpTurn_even inTable (by rw [zero]; decide), zero]
    exact returns_bind.mpr ⟨(), after, applied, returns_pure.mpr ⟨rfl, rfl⟩⟩

end FixUps

end Vx68k
