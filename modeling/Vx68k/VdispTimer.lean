import Vx68k.Clocks
import Vx68k.MainMemory

/-!
# The VDISP timer of the CRTC

The CRTC counts periods of its interval by a polled clock of milliseconds that wraps at
2^32. One poll counts at most one period. While a reload value is set, a counter goes
down by one for each period, and at zero an interrupt is requested and the counter
reloaded. Another thread may set the reload value between two polls.

The constructor leaves the start time and the counter undefined; they are parameters
of the model. The registers of the CRTC are left out.
-/

namespace Vx68k

open Clocks

/-- A request for an interrupt. -/
structure Interrupt where
  priority : Nat
  vector : Nat
deriving DecidableEq

/-- The timer's part of a `crtc_memory`. -/
structure CrtcMemory where
  vdispInterval : Uint32
  vdispStartTime : Uint32
  vdispCounterData : Uint32
  vdispCounterValue : Uint32

namespace CrtcMemory

/-- The assertion on the counter fails. -/
inductive Fault where
  | assertion
deriving DecidableEq

/-- The constructor, which leaves the start time and the counter as they are. -/
def construct (startTime counterValue : Uint32) : CrtcMemory where
  vdispInterval := 1000 / 55
  vdispStartTime := startTime
  vdispCounterData := 0
  vdispCounterValue := counterValue

/-- The time of the reset is the start of the interval. -/
def reset (t : Uint32) (crtc : CrtcMemory) : CrtcMemory := { crtc with vdispStartTime := t }

/-- There are interrupts if the counter has data. -/
def vdispInterruptEnabled (crtc : CrtcMemory) : Prop := crtc.vdispCounterData ≠ 0

instance (crtc : CrtcMemory) : Decidable crtc.vdispInterruptEnabled :=
  inferInstanceAs (Decidable (_ ≠ _))

/-- A poll, with the interrupts it requests. -/
def checkTimeouts (t : Uint32) (crtc : CrtcMemory) : Except Fault (CrtcMemory × List Interrupt) :=
  if t - crtc.vdispStartTime ≥ crtc.vdispInterval then
    let crtc := { crtc with vdispStartTime := crtc.vdispStartTime + crtc.vdispInterval }
    if crtc.vdispInterruptEnabled then
      if crtc.vdispCounterValue > 0 then
        let counterValue := crtc.vdispCounterValue - 1
        if counterValue = 0 then
          .ok ({ crtc with vdispCounterValue := crtc.vdispCounterData }, [⟨6, 0x4d⟩])
        else .ok ({ crtc with vdispCounterValue := counterValue }, [])
      else .error .assertion
    else .ok (crtc, [])
  else .ok (crtc, [])

/-- Set the counter's data, and restart the counter if there are interrupts. -/
def setVdispCounterData (value : Uint32) (crtc : CrtcMemory) : CrtcMemory :=
  let crtc := { crtc with vdispCounterData := value }
  if crtc.vdispInterruptEnabled then { crtc with vdispCounterValue := crtc.vdispCounterData }
  else crtc

/-- The states that a CRTC can be in, whatever the clock showed. -/
inductive Reached : CrtcMemory → Prop
  | constructed (startTime counterValue : Uint32) : Reached (construct startTime counterValue)
  | reset (before : CrtcMemory) (t : Uint32) (reached : Reached before) : Reached (before.reset t)
  | checked (before after : CrtcMemory) (t : Uint32) (posted : List Interrupt)
      (reached : Reached before) (done : before.checkTimeouts t = .ok (after, posted)) : Reached after
  | set (before : CrtcMemory) (value : Uint32) (reached : Reached before) :
      Reached (before.setVdispCounterData value)

/-- A poll at a true time, or a call from elsewhere. -/
inductive Event where
  | check (time : Nat)
  | set (value : Uint32)
deriving DecidableEq

/-- What an event did: whether a poll counted a period and what it requested. -/
inductive Entry where
  | checked (time : Nat) (counted : Bool) (posted : List Interrupt)
  | set (value : Uint32)
deriving DecidableEq

/-- The event that an entry of a log is about. -/
def Entry.event : Entry → Event
  | .checked time _ _ => .check time
  | .set value => .set value

/-- Perform an event. A poll counts a period by moving the start time. -/
def perform (crtc : CrtcMemory) : Event → Except Fault (CrtcMemory × Entry)
  | .check time => do
    let (after, posted) ← crtc.checkTimeouts (shown 32 time)
    pure (after, .checked time (after.vdispStartTime ≠ crtc.vdispStartTime) posted)
  | .set value => pure (crtc.setVdispCounterData value, .set value)

/-- Perform events in order, with a log. -/
def run (crtc : CrtcMemory) : List Event → Except Fault (CrtcMemory × List Entry)
  | [] => pure (crtc, [])
  | event :: rest => do
    let (middle, entry) ← crtc.perform event
    let (after, log) ← middle.run rest
    pure (after, entry :: log)

/-- Polls come in order and at most a period apart, from a time on. -/
def Paced (period : Nat) (time : Nat) : List Event → Prop
  | [] => True
  | .check next :: rest => time ≤ next ∧ next ≤ time + period ∧ Paced period next rest
  | .set _ :: rest => Paced period time rest

/-- The periods that a log has counted. -/
def periods : List Entry → Nat
  | [] => 0
  | .checked _ counted _ :: rest => (if counted then 1 else 0) + periods rest
  | .set _ :: rest => periods rest

/-- The value set last in a log and the periods counted since, after what is known. -/
def sinceSet (known : Option (Uint32 × Nat)) : List Entry → Option (Uint32 × Nat)
  | [] => known
  | .checked _ counted _ :: rest =>
    sinceSet (if counted then known.map fun found => (found.1, found.2 + 1) else known) rest
  | .set value :: rest => sinceSet (some (value, 0)) rest

/-- Periods add up. -/
theorem periods_append (first second : List Entry) :
    periods (first ++ second) = periods first + periods second := by
  induction first with
  | nil => simp [periods]
  | cons entry rest inductionHypothesis =>
    cases entry with
    | checked time counted posted =>
      rw [List.cons_append, periods, periods, inductionHypothesis]
      omega
    | set value => exact inductionHypothesis

/-- What is known of the last setting goes on with more entries. -/
theorem sinceSet_append (known : Option (Uint32 × Nat)) (first second : List Entry) :
    sinceSet known (first ++ second) = sinceSet (sinceSet known first) second := by
  induction first generalizing known with
  | nil => rfl
  | cons entry rest inductionHypothesis =>
    cases entry with
    | checked time counted posted => exact inductionHypothesis _
    | set value => exact inductionHypothesis _

/-- A CRTC whose counter is in use has something to count. -/
structure Ready (crtc : CrtcMemory) : Prop where
  interval : crtc.vdispInterval = 18
  counter : crtc.vdispCounterData ≠ 0 → 0 < crtc.vdispCounterValue

/-- What a counted period does to the counter: nothing while interrupts are disabled, a
step down, or an interrupt and a reload. -/
def Counts (before after : CrtcMemory) (posted : List Interrupt) : Prop :=
  (before.vdispCounterData = 0 ∧ posted = []) ∨
    (before.vdispCounterData ≠ 0 ∧ before.vdispCounterValue ≠ 1 ∧
      after.vdispCounterValue = before.vdispCounterValue - 1 ∧ posted = []) ∨
    (before.vdispCounterData ≠ 0 ∧ before.vdispCounterValue = 1 ∧
      after.vdispCounterValue = before.vdispCounterData ∧ posted = [⟨6, 0x4d⟩])

/-- The outcome of a poll: nothing, or a period is counted. -/
theorem checkTimeouts_cases {crtc : CrtcMemory} (ready : Ready crtc) (t : Uint32) :
    ∃ after posted, crtc.checkTimeouts t = .ok (after, posted) ∧
      after.vdispInterval = crtc.vdispInterval ∧ after.vdispCounterData = crtc.vdispCounterData ∧
      ((¬ t - crtc.vdispStartTime ≥ crtc.vdispInterval ∧ after = crtc ∧ posted = []) ∨
        (t - crtc.vdispStartTime ≥ crtc.vdispInterval ∧
          after.vdispStartTime = crtc.vdispStartTime + crtc.vdispInterval ∧
          Counts crtc after posted)) := by
  unfold checkTimeouts vdispInterruptEnabled Counts
  by_cases due : t - crtc.vdispStartTime ≥ crtc.vdispInterval
  · simp only [due, ↓reduceIte]
    by_cases enabled : crtc.vdispCounterData = 0
    · simp [enabled]
    · have positive := ready.counter enabled
      simp only [ne_eq, enabled, not_false_eq_true, ↓reduceIte, gt_iff_lt, positive]
      by_cases last : crtc.vdispCounterValue = 1
      · simp [last]
      · have more : crtc.vdispCounterValue - 1 ≠ 0 := by bv_omega
        rw [if_neg more]
        exact ⟨_, _, rfl, rfl, rfl, Or.inr ⟨trivial, rfl, Or.inr (Or.inl ⟨trivial, last, rfl, rfl⟩)⟩⟩
  · simp [due]

/-- A poll leaves a CRTC ready. -/
theorem ready_checked {crtc after : CrtcMemory} (ready : Ready crtc) {t : Uint32}
    {posted : List Interrupt} (done : crtc.checkTimeouts t = .ok (after, posted)) : Ready after := by
  obtain ⟨other, requested, same, interval, data, cases⟩ := checkTimeouts_cases ready t
  obtain ⟨rfl, rfl⟩ := Prod.mk.inj (Except.ok.inj (done.symm.trans same))
  refine ⟨interval.trans ready.interval, ?_⟩
  rw [data]
  intro enabled
  have positive := ready.counter enabled
  rcases cases with ⟨-, rfl, -⟩ | ⟨-, -, ⟨disabled, -⟩ | ⟨-, more, value, -⟩ | ⟨-, -, value, -⟩⟩
  · exact positive
  · exact absurd disabled enabled
  · rw [value]
    bv_omega
  · rw [value]
    bv_omega

/-- A value that is not zero starts its count. -/
theorem set_starts (crtc : CrtcMemory) {value : Uint32} (enabled : value ≠ 0) :
    crtc.setVdispCounterData value =
      { crtc with vdispCounterData := value, vdispCounterValue := value } := if_pos enabled

/-- The data is what has been set. -/
@[simp]
theorem set_vdispCounterData (crtc : CrtcMemory) (value : Uint32) :
    (crtc.setVdispCounterData value).vdispCounterData = value := by
  by_cases enabled : value = 0
  · subst enabled
    rfl
  · rw [set_starts crtc enabled]

/-- Setting it keeps the start of the interval. -/
@[simp]
theorem set_vdispStartTime (crtc : CrtcMemory) (value : Uint32) :
    (crtc.setVdispCounterData value).vdispStartTime = crtc.vdispStartTime := by
  by_cases enabled : value = 0
  · subst enabled
    rfl
  · rw [set_starts crtc enabled]

/-- Setting the value keeps a CRTC ready. -/
theorem set_ready {crtc : CrtcMemory} (ready : Ready crtc) (value : Uint32) :
    Ready (crtc.setVdispCounterData value) := by
  by_cases enabled : value = 0
  · subst enabled
    exact ⟨ready.interval, fun some => absurd rfl some⟩
  · rw [set_starts crtc enabled]
    exact ⟨ready.interval, fun _ => by simp only; bv_omega⟩

/-- Every reachable CRTC is ready. -/
theorem reached_ready {crtc : CrtcMemory} (reached : Reached crtc) : Ready crtc := by
  induction reached with
  | constructed startTime counterValue => exact ⟨rfl, fun enabled => absurd rfl enabled⟩
  | reset before t _ ready => exact ⟨ready.interval, ready.counter⟩
  | checked before after t posted _ done ready => exact ready_checked ready done
  | set before value _ ready => exact set_ready ready value

/-- A CRTC after a reset at `t0` and a past, with the last poll at a time: it has
counted all whole periods, and since the reload value was set the counter has gone
down by one for each period. -/
structure Tracks (t0 : Nat) (data : Uint32) (past : List Entry) (time : Nat) (crtc : CrtcMemory) :
    Prop where
  ready : Ready crtc
  start : crtc.vdispStartTime = shown 32 (t0 + 18 * periods past)
  behind : t0 + 18 * periods past ≤ time
  near : time < t0 + 18 * (periods past + 1)
  counter : match sinceSet none past with
    | some (value, count) => crtc.vdispCounterData = value ∧
        (value ≠ 0 → crtc.vdispCounterValue.toNat = value.toNat - count % value.toNat)
    | none => crtc.vdispCounterData = data

/-- What is expected of a poll after a past: the periods counted are all whole periods
since `t0`, and an interrupt is requested at every period that completes as many as
the value set last. Before any was set, nothing is requested if none was in use. -/
def Expected (t0 period : Nat) (data : Uint32) (past : List Entry) (time : Nat) (counted : Bool)
    (posted : List Interrupt) : Prop :=
  periods (past ++ [.checked time counted posted]) = (time - t0) / period ∧
    match sinceSet none (past ++ [.checked time counted posted]) with
    | some (value, count) =>
      posted = if counted ∧ value ≠ 0 ∧ value.toNat ∣ count then [⟨6, 0x4d⟩] else []
    | none => data = 0 → posted = []

/-- A countdown reaches one exactly before a multiple. -/
theorem countdown_ends (value count : Nat) (some : value ≠ 0) :
    value - count % value = 1 ↔ value ∣ count + 1 := by
  obtain ⟨less, rfl⟩ : ∃ less, value = less + 1 := ⟨value - 1, by omega⟩
  have small := Nat.mod_lt count (Nat.succ_pos less)
  rw [Nat.dvd_iff_mod_eq_zero, Nat.succ_mod_succ_eq_zero_iff]
  omega

/-- Before its end a countdown goes down by one. -/
theorem countdown_steps (value count : Nat) (more : value - count % value ≠ 1) (some : value ≠ 0) :
    value - (count + 1) % value = value - count % value - 1 := by
  have small := Nat.mod_lt count (Nat.pos_of_ne_zero some)
  by_cases one : value = 1
  · subst one
    omega
  have next : (count + 1) % value = count % value + 1 := by
    have unit : 1 % value = 1 := Nat.mod_eq_of_lt (by omega)
    rw [Nat.add_mod_of_add_mod_lt (by rw [unit]; omega), unit]
  omega

variable {t0 time : Nat} {data : Uint32} {past : List Entry} {crtc : CrtcMemory}

/-- A poll counts one period or none. -/
theorem periods_checked (past : List Entry) (time : Nat) (counted : Bool) (posted : List Interrupt) :
    periods (past ++ [.checked time counted posted]) =
      periods past + if counted then 1 else 0 := by
  rw [periods_append, periods, periods, Nat.add_zero]

/-- A poll that counts is one more since the last setting. -/
theorem sinceSet_checked (past : List Entry) (time : Nat) (counted : Bool) (posted : List Interrupt) :
    sinceSet none (past ++ [.checked time counted posted]) =
      if counted then (sinceSet none past).map fun found => (found.1, found.2 + 1)
      else sinceSet none past := by
  rw [sinceSet_append]
  rfl

/-- Setting the reload value starts a new count. -/
theorem set_tracks (tracks : Tracks t0 data past time crtc) (value : Uint32) :
    Tracks t0 data (past ++ [.set value]) time (crtc.setVdispCounterData value) := by
  have counted : periods (past ++ [.set value]) = periods past := by
    rw [periods_append, periods, periods, Nat.add_zero]
  have last : sinceSet none (past ++ [.set value]) = some (value, 0) := by
    rw [sinceSet_append]
    rfl
  refine ⟨set_ready tracks.ready value, ?_, ?_, ?_, ?_⟩
  · rw [set_vdispStartTime, counted]
    exact tracks.start
  · rw [counted]
    exact tracks.behind
  · rw [counted]
    exact tracks.near
  · rw [last]
    refine ⟨set_vdispCounterData crtc value, fun enabled => ?_⟩
    rw [set_starts crtc enabled]
    simp

/-- A counted period moves a countdown by one, and asks for an interrupt at its end. -/
theorem counts_down {before after : CrtcMemory} {posted : List Interrupt} {value : Uint32}
    {count : Nat} (counts : Counts before after posted) (same : before.vdispCounterData = value)
    (counter : value ≠ 0 →
      before.vdispCounterValue.toNat = value.toNat - count % value.toNat) :
    (value ≠ 0 → after.vdispCounterValue.toNat = value.toNat - (count + 1) % value.toNat) ∧
      posted = if value ≠ 0 ∧ value.toNat ∣ count + 1 then [⟨6, 0x4d⟩] else [] := by
  subst same
  rcases counts with ⟨disabled, rfl⟩ | ⟨enabled, more, down, rfl⟩ | ⟨enabled, last, reload, rfl⟩
  · exact ⟨fun some => absurd disabled some, by simp [disabled]⟩
  · have some : before.vdispCounterData.toNat ≠ 0 := fun null => enabled (BitVec.eq_of_toNat_eq null)
    have left := counter enabled
    have small := Nat.mod_lt count (Nat.pos_of_ne_zero some)
    have notLast : before.vdispCounterData.toNat - count % before.vdispCounterData.toNat ≠ 1 := by
      rw [← left]
      exact fun one => more (BitVec.eq_of_toNat_eq one)
    refine ⟨fun _ => ?_, ?_⟩
    · rw [countdown_steps _ _ notLast some, ← left, down]
      bv_omega
    · rw [if_neg]
      exact fun ended => notLast ((countdown_ends _ _ some).mpr ended.2)
  · have some : before.vdispCounterData.toNat ≠ 0 := fun null => enabled (BitVec.eq_of_toNat_eq null)
    have left := counter enabled
    rw [last] at left
    have multiple := (countdown_ends _ _ some).mp left.symm
    refine ⟨fun _ => ?_, ?_⟩
    · rw [reload, Nat.mod_eq_zero_of_dvd multiple, Nat.sub_zero]
    · rw [if_pos ⟨enabled, multiple⟩]

/-- A poll before the end of the period counts nothing. -/
theorem early_tracks (tracks : Tracks t0 data past time crtc) {next : Nat} (order : time ≤ next)
    (soon : next < t0 + 18 * (periods past + 1)) :
    Tracks t0 data (past ++ [.checked next false []]) next crtc ∧
      Expected t0 18 data past next false [] := by
  have behind := tracks.behind
  have same : periods (past ++ [.checked next false []]) = periods past := by
    rw [periods_checked]
    rfl
  have last : sinceSet none (past ++ [.checked next false []]) = sinceSet none past := by
    rw [sinceSet_checked]
    rfl
  refine ⟨⟨tracks.ready, ?_, ?_, ?_, ?_⟩, ?_, ?_⟩
  · rw [same]
    exact tracks.start
  · omega
  · omega
  · rw [last]
    exact tracks.counter
  · omega
  · rw [last]
    cases sinceSet none past with
    | none => exact fun _ => rfl
    | some found => simp

/-- A poll after the end of the period counts it. -/
theorem late_tracks (tracks : Tracks t0 data past time crtc) {next : Nat} {after : CrtcMemory}
    {posted : List Interrupt} (paced : next ≤ time + 18)
    (passed : t0 + 18 * (periods past + 1) ≤ next) (ready : Ready after)
    (start : after.vdispStartTime = crtc.vdispStartTime + crtc.vdispInterval)
    (kept : after.vdispCounterData = crtc.vdispCounterData) (counts : Counts crtc after posted) :
    Tracks t0 data (past ++ [.checked next true posted]) next after ∧
      Expected t0 18 data past next true posted := by
  have near := tracks.near
  have counter := tracks.counter
  have period : crtc.vdispInterval.toNat = 18 := by
    rw [tracks.ready.interval]
    rfl
  have more : periods (past ++ [.checked next true posted]) = periods past + 1 := by
    rw [periods_checked]
    rfl
  have last : sinceSet none (past ++ [.checked next true posted]) =
      (sinceSet none past).map fun found => (found.1, found.2 + 1) := by
    rw [sinceSet_checked]
    rfl
  have shape : t0 + 18 * periods past + 18 = t0 + 18 * (periods past + 1) := by omega
  refine ⟨⟨ready, ?_, ?_, ?_, ?_⟩, ?_, ?_⟩
  · rw [more, start, tracks.start, shown_add, period, shape]
  · omega
  · omega
  · rw [last]
    cases found : sinceSet none past with
    | none =>
      rw [found] at counter
      exact kept.trans counter
    | some memory =>
      rw [found] at counter
      exact ⟨kept.trans counter.1, (counts_down counts counter.1 counter.2).1⟩
  · omega
  · rw [last]
    cases found : sinceSet none past with
    | none =>
      rw [found] at counter
      intro idle
      rcases counts with ⟨-, none⟩ | ⟨enabled, -⟩ | ⟨enabled, -⟩
      · exact none
      · exact absurd (counter.trans idle) enabled
      · exact absurd (counter.trans idle) enabled
    | some memory =>
      rw [found] at counter
      simpa using (counts_down counts counter.1 counter.2).2

/-- A poll at most a period after the last one does what is expected. -/
theorem check_tracks (tracks : Tracks t0 data past time crtc) {next : Nat} (order : time ≤ next)
    (paced : next ≤ time + 18) : ∃ after counted posted,
      crtc.perform (.check next) = .ok (after, .checked next counted posted) ∧
      Tracks t0 data (past ++ [.checked next counted posted]) next after ∧
      Expected t0 18 data past next counted posted := by
  have behind := tracks.behind
  have near := tracks.near
  obtain ⟨after, posted, done, interval, kept, cases⟩ :=
    checkTimeouts_cases tracks.ready (shown 32 next)
  have period : crtc.vdispInterval.toNat = 18 := by
    rw [tracks.ready.interval]
    rfl
  have due : shown 32 next - crtc.vdispStartTime ≥ crtc.vdispInterval ↔
      t0 + 18 * (periods past + 1) ≤ next := by
    rw [tracks.start, shown_due (by omega) (by omega), period]
    omega
  have performed : crtc.perform (.check next) = .ok (after, .checked next
      (after.vdispStartTime ≠ crtc.vdispStartTime) posted) := by
    rw [perform, done]
    rfl
  rcases cases with ⟨early, rfl, rfl⟩ | ⟨late, start, counts⟩
  · have soon : next < t0 + 18 * (periods past + 1) := Nat.not_le.mp fun passed => early (due.mpr passed)
    have still : decide (after.vdispStartTime ≠ after.vdispStartTime) = false := by simp
    rw [still] at performed
    exact ⟨after, false, [], performed, early_tracks tracks order soon⟩
  · have moved : decide (after.vdispStartTime ≠ crtc.vdispStartTime) = true := by
      rw [decide_eq_true_eq, start]
      apply shown_moves
      rw [tracks.ready.interval]
      decide
    rw [moved] at performed
    exact ⟨after, true, posted, performed,
      late_tracks tracks paced (due.mp late) (ready_checked tracks.ready done) start kept counts⟩

/-- Every poll of a run does what is expected after its past.

Proof: by induction on the events, with the past growing by an entry for each. -/
theorem run_expected (tracks : Tracks t0 data past time crtc) (events : List Event)
    (paced : Paced 18 time events) : ∃ after log,
      crtc.run events = .ok (after, log) ∧ log.map Entry.event = events ∧
      ∀ front next counted posted back, log = front ++ .checked next counted posted :: back →
        Expected t0 18 data (past ++ front) next counted posted := by
  induction events generalizing crtc past time with
  | nil => exact ⟨crtc, [], rfl, rfl, fun front _ _ _ _ shape => absurd shape (by simp)⟩
  | cons event rest inductionHypothesis =>
    cases event with
    | check next =>
      obtain ⟨order, near, later⟩ := paced
      obtain ⟨middle, counted, posted, performed, tracks, expected⟩ := check_tracks tracks order near
      obtain ⟨after, log, ran, same, others⟩ := inductionHypothesis tracks later
      refine ⟨after, .checked next counted posted :: log, ?_, by rw [List.map_cons, same]; rfl, ?_⟩
      · rw [run, performed]
        change (middle.run rest >>= fun _ => _) = _
        rw [ran]
        rfl
      · intro front time also asked back shape
        cases front with
        | nil =>
          obtain ⟨here, -⟩ := List.cons.inj shape
          obtain ⟨rfl, rfl, rfl⟩ := Entry.checked.inj here
          rw [List.append_nil]
          exact expected
        | cons entry front =>
          obtain ⟨rfl, remains⟩ := List.cons.inj shape
          have found := others front time also asked back remains
          rwa [List.append_assoc] at found
    | set value =>
      obtain ⟨after, log, ran, same, others⟩ := inductionHypothesis (set_tracks tracks value) paced
      refine ⟨after, .set value :: log, ?_, by rw [List.map_cons, same]; rfl, ?_⟩
      · change ((crtc.setVdispCounterData value).run rest >>= fun _ => _) = _
        rw [ran]
        rfl
      · intro front time also asked back shape
        cases front with
        | nil => exact absurd (List.cons.inj shape).1 (by simp)
        | cons entry front =>
          obtain ⟨rfl, remains⟩ := List.cons.inj shape
          have found := others front time also asked back remains
          rwa [List.append_assoc] at found

/-- After a reset, polls at most a period apart, with reload values set in between, fail
no assertion, count exactly the whole periods since the reset and request an interrupt
exactly at every period that completes as many as the value set last; none while that
is zero. The clock may wrap at any time.

Proof: a poll leaves less than a period uncounted, so the next one finds less than two
and counts all but less than one. The counter goes down with the periods counted since
the value was set. -/
theorem vdisp_exact (before : CrtcMemory) (reached : Reached before) (t0 : Nat)
    (events : List Event) (paced : Paced before.vdispInterval.toNat t0 events) : ∃ after log,
      (before.reset (shown 32 t0)).run events = .ok (after, log) ∧ log.map Entry.event = events ∧
      ∀ front time counted posted back, log = front ++ .checked time counted posted :: back →
        Expected t0 before.vdispInterval.toNat before.vdispCounterData front time counted posted := by
  have ready := reached_ready reached
  have period : before.vdispInterval.toNat = 18 := by
    rw [ready.interval]
    rfl
  rw [period] at paced ⊢
  have tracks : Tracks t0 before.vdispCounterData [] t0 (before.reset (shown 32 t0)) := by
    refine ⟨⟨ready.interval, ready.counter⟩, ?_, ?_, ?_, rfl⟩
    · rw [periods, Nat.mul_zero, Nat.add_zero]
      rfl
    · rw [periods]
      omega
    · rw [periods]
      omega
  exact run_expected tracks events paced

/-- Two polls across the wrap of the clock while every second period is asked for. -/
theorem vdisp_exact_wrap : ∃ after log,
    ((construct 0 0).reset (shown 32 0xfffffff0)).run
        [.set 2, .check 0x100000002, .check 0x100000014] = .ok (after, log) ∧
      ∀ front time counted posted back, log = front ++ .checked time counted posted :: back →
        Expected 0xfffffff0 18 0 front time counted posted := by
  obtain ⟨after, log, ran, -, expected⟩ := vdisp_exact (construct 0 0) (.constructed 0 0) 0xfffffff0
    [.set 2, .check 0x100000002, .check 0x100000014] ⟨by decide, by decide, by decide, by decide, trivial⟩
  exact ⟨after, log, ran, expected⟩

end CrtcMemory

end Vx68k
