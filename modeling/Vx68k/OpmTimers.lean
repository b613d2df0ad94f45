import Vx68k.VdispTimer

/-!
# The timers of the OPM

The sound chip has two timers, A and B, which are polled by a clock of milliseconds that
wraps at 2^32. A timer is loaded through registers and starts at the time of the last
poll; at its expiry the poll sets a flag of the status and moves the start time.

For timer B the source moves the start time of timer A. Once timer B has expired, it
expires at every poll, and timer A is shifted by the interval of timer B. Up to that
point timer A is a machine of its own, which does not see timer B.

The constructor leaves times and intervals undefined; they are parameters of the model.
The memory interface to the registers is left out.
-/

namespace Vx68k

open Clocks

/-- The timers' part of an `opm_memory`. -/
structure OpmMemory where
  status : Uint32
  regs : BitVec 8 → BitVec 8
  interruptEnabled : Bool
  lastCheckTime : Uint32
  timerAInterval : Uint32
  timerBInterval : Uint32
  timerAStartTime : Uint32
  timerBStartTime : Uint32

namespace OpmMemory

/-- A new object; the times and intervals are what memory happens to hold. -/
def construct (lastCheckTime timerAInterval timerBInterval timerAStartTime timerBStartTime : Uint32) :
    OpmMemory where
  status := 0
  regs _ := 0
  interruptEnabled := false
  lastCheckTime := lastCheckTime
  timerAInterval := timerAInterval
  timerBInterval := timerBInterval
  timerAStartTime := timerAStartTime
  timerBStartTime := timerBStartTime

/-- The time of the reset is that of the last check. -/
def reset (t : Uint32) (opm : OpmMemory) : OpmMemory := { opm with lastCheckTime := t }

/-- The control register of the timers. -/
def tcr (opm : OpmMemory) : Uint32 := (opm.regs 0x14).setWidth 32

/-- A poll takes the expiry branch of timer A. -/
def TimerAExpires (t : Uint32) (opm : OpmMemory) : Prop :=
  opm.tcr &&& 0x1 = 0x1 ∧ t - opm.timerAStartTime ≥ opm.timerAInterval

/-- A poll takes the expiry branch of timer B. -/
def TimerBExpires (t : Uint32) (opm : OpmMemory) : Prop :=
  opm.tcr &&& 0x2 = 0x2 ∧ t - opm.timerBStartTime ≥ opm.timerBInterval

instance (t : Uint32) (opm : OpmMemory) : Decidable (opm.TimerAExpires t) :=
  inferInstanceAs (Decidable (_ ∧ _))

instance (t : Uint32) (opm : OpmMemory) : Decidable (opm.TimerBExpires t) :=
  inferInstanceAs (Decidable (_ ∧ _))

/-- A poll, with the interrupts it requests. The branch of timer B moves the start time of
timer A. -/
def checkTimeouts (t : Uint32) (opm : OpmMemory) : OpmMemory × List Interrupt :=
  let opm := { opm with lastCheckTime := t }
  let oldStatus := opm.status
  let tcr := opm.tcr
  let opm :=
    if opm.TimerAExpires t then
      { opm with
        status := opm.status ||| 0x2, timerAStartTime := opm.timerAStartTime + opm.timerAInterval }
    else opm
  let opm :=
    if opm.TimerBExpires t then
      { opm with
        status := opm.status ||| 0x1, timerAStartTime := opm.timerAStartTime + opm.timerBInterval }
    else opm
  if opm.interruptEnabled then
    let setStatus := opm.status - ~~~oldStatus
    if (tcr &&& 0x4 = 0x4 ∧ setStatus &&& 0x2 = 0x2) ∨
        (tcr &&& 0x8 = 0x8 ∧ setStatus &&& 0x1 = 0x1) then (opm, [⟨6, 0x43⟩])
    else (opm, [])
  else (opm, [])

/-- The cases 0x10 and 0x11 of a write. -/
def loadTimerA (opm : OpmMemory) : OpmMemory :=
  let high : Uint32 := (opm.regs 0x10).setWidth 32
  let low : Uint32 := (opm.regs 0x11).setWidth 32
  let k := high <<< 2 ||| (low &&& 0x3)
  { opm with timerAInterval := (0x400 - k) * 64 / 4000, timerAStartTime := opm.lastCheckTime }

/-- The case 0x12 of a write. -/
def loadTimerB (opm : OpmMemory) : OpmMemory :=
  let k : Uint32 := (opm.regs 0x12).setWidth 32
  { opm with timerBInterval := (0x100 - k) * 1024 / 4000, timerBStartTime := opm.lastCheckTime }

/-- The case 0x14 of a write. -/
def clearFlags (value : BitVec 8) (opm : OpmMemory) : OpmMemory :=
  let opm := if value &&& 0x10 = 0x10 then { opm with status := opm.status &&& ~~~0x2 } else opm
  if value &&& 0x20 = 0x20 then { opm with status := opm.status &&& ~~~0x1 } else opm

/-- A write to a register; the number and the value are cut to bytes first. -/
def setReg (regno value : Uint32) (opm : OpmMemory) : OpmMemory :=
  let regno : BitVec 8 := regno.setWidth 8
  let value : BitVec 8 := value.setWidth 8
  let opm := { opm with regs := fun other => if other = regno then value else opm.regs other }
  if regno = 0x10 ∨ regno = 0x11 then opm.loadTimerA
  else if regno = 0x12 then opm.loadTimerB
  else if regno = 0x14 then opm.clearFlags value
  else opm

/-- A poll at a true time, or a write to a register. -/
inductive Event where
  | check (time : Nat)
  | setReg (regno value : Uint32)
deriving DecidableEq

/-- Polls come in order from a time on and end before another. -/
def Timed (ceiling time : Nat) : List Event → Prop
  | [] => True
  | .check next :: rest => time ≤ next ∧ next < ceiling ∧ Timed ceiling next rest
  | .setReg _ _ :: rest => Timed ceiling time rest

/-- No poll of a run takes the expiry branch of timer B. -/
def Quiet (opm : OpmMemory) : List Event → Prop
  | [] => True
  | .check time :: rest =>
    ¬ opm.TimerBExpires (shown 32 time) ∧ Quiet (opm.checkTimeouts (shown 32 time)).1 rest
  | .setReg regno value :: rest => Quiet (opm.setReg regno value) rest

/-- When a timer was loaded last, and how often it has expired since. -/
structure Load where
  start : Nat
  expirations : Nat

/-- One more expiry. -/
def Load.expire (load : Load) : Load := { load with expirations := load.expirations + 1 }

/-- An object with the time of its last poll and what has been seen of its timers. -/
structure Observed where
  opm : OpmMemory
  time : Nat
  timerA : Option Load
  timerB : Option Load

/-- Perform an event and take note of loads and expiries. -/
def Observed.perform (seen : Observed) : Event → Observed
  | .check time => {
      opm := (seen.opm.checkTimeouts (shown 32 time)).1
      time := time
      timerA :=
        if seen.opm.TimerAExpires (shown 32 time) then seen.timerA.map .expire else seen.timerA
      timerB :=
        if seen.opm.TimerBExpires (shown 32 time) then seen.timerB.map .expire else seen.timerB }
  | .setReg regno value => {
      opm := seen.opm.setReg regno value
      time := seen.time
      timerA :=
        if regno.setWidth 8 = (0x10 : BitVec 8) ∨ regno.setWidth 8 = (0x11 : BitVec 8) then
          some ⟨seen.time, 0⟩
        else seen.timerA
      timerB := if regno.setWidth 8 = (0x12 : BitVec 8) then some ⟨seen.time, 0⟩ else seen.timerB }

/-- Perform events in order. -/
def Observed.run (seen : Observed) (events : List Event) : Observed := events.foldl perform seen

/-- An object that is reset at a time, before anything is seen of it. -/
def observe (start : OpmMemory) (t0 : Nat) : Observed := ⟨start.reset (shown 32 t0), t0, none, none⟩

/-- A timer has not expired more often than its interval has passed since its load. -/
def Load.Bounded (load : Load) (time : Nat) (interval : Uint32) : Prop :=
  load.expirations ≤ (time - load.start) / interval.toNat

instance (load : Load) (time : Nat) (interval : Uint32) :
    Decidable (load.Bounded time interval) := inferInstanceAs (Decidable (_ ≤ _))

/-- Both timers, where loaded with a positive interval, are within their bounds. -/
structure Observed.Bounded (seen : Observed) : Prop where
  timerA : ∀ load, seen.timerA = some load → 0 < seen.opm.timerAInterval →
    load.Bounded seen.time seen.opm.timerAInterval
  timerB : ∀ load, seen.timerB = some load → 0 < seen.opm.timerBInterval →
    load.Bounded seen.time seen.opm.timerBInterval

variable {opm : OpmMemory} {t : Uint32}

/-- The fields after a poll that does not take the branch of timer B. -/
theorem checkTimeouts_quiet (quiet : ¬ opm.TimerBExpires t) :
    (opm.checkTimeouts t).1 = { opm with
      lastCheckTime := t
      status := if opm.TimerAExpires t then opm.status ||| 0x2 else opm.status
      timerAStartTime := if opm.TimerAExpires t then opm.timerAStartTime + opm.timerAInterval
        else opm.timerAStartTime } := by
  have asleep : ¬ ({ opm with lastCheckTime := t } : OpmMemory).TimerBExpires t := quiet
  have alike : ({ opm with lastCheckTime := t } : OpmMemory).TimerAExpires t ↔
      opm.TimerAExpires t := Iff.rfl
  unfold checkTimeouts
  by_cases expires : opm.TimerAExpires t
  · have still : ¬ ({ opm with
        lastCheckTime := t
        status := opm.status ||| 0x2
        timerAStartTime := opm.timerAStartTime + opm.timerAInterval } : OpmMemory).TimerBExpires t :=
      quiet
    simp only [alike, expires, ↓reduceIte, still]
    split
    · split
      · rfl
      · rfl
    · rfl
  · simp only [alike, expires, ↓reduceIte, asleep]
    split
    · split
      · rfl
      · rfl
    · rfl

/-- The registers after a write. -/
def written (regno value : BitVec 8) (opm : OpmMemory) : OpmMemory :=
  { opm with regs := fun other => if other = regno then value else opm.regs other }

/-- A write by cases. -/
theorem setReg_cases (opm : OpmMemory) (regno value : Uint32) :
    ((regno.setWidth 8 = (0x10 : BitVec 8) ∨ regno.setWidth 8 = (0x11 : BitVec 8)) ∧
        opm.setReg regno value = (opm.written (regno.setWidth 8) (value.setWidth 8)).loadTimerA) ∨
      (regno.setWidth 8 = (0x12 : BitVec 8) ∧
        opm.setReg regno value = (opm.written 0x12 (value.setWidth 8)).loadTimerB) ∨
      (regno.setWidth 8 = (0x14 : BitVec 8) ∧ opm.setReg regno value =
        (opm.written 0x14 (value.setWidth 8)).clearFlags (value.setWidth 8)) ∨
      ((¬ (regno.setWidth 8 = (0x10 : BitVec 8) ∨ regno.setWidth 8 = (0x11 : BitVec 8)) ∧
          regno.setWidth 8 ≠ (0x12 : BitVec 8) ∧ regno.setWidth 8 ≠ (0x14 : BitVec 8)) ∧
        opm.setReg regno value = opm.written (regno.setWidth 8) (value.setWidth 8)) := by
  unfold setReg written
  by_cases loadsA : regno.setWidth 8 = (0x10 : BitVec 8) ∨ regno.setWidth 8 = (0x11 : BitVec 8)
  · exact Or.inl ⟨loadsA, if_pos loadsA⟩
  · by_cases loadsB : regno.setWidth 8 = (0x12 : BitVec 8)
    · exact Or.inr (Or.inl ⟨loadsB, (if_neg loadsA).trans (by rw [loadsB]; rfl)⟩)
    · by_cases control : regno.setWidth 8 = (0x14 : BitVec 8)
      · exact Or.inr (Or.inr (Or.inl ⟨control, (if_neg loadsA).trans (by rw [control]; rfl)⟩))
      · exact Or.inr (Or.inr (Or.inr ⟨⟨loadsA, loadsB, control⟩,
          (if_neg loadsA).trans ((if_neg loadsB).trans (if_neg control))⟩))

/-- Clearing flags changes the status alone. -/
theorem clearFlags_status (value : BitVec 8) (opm : OpmMemory) : opm.clearFlags value =
    { opm with status := (opm.clearFlags value).status } := by
  unfold clearFlags
  split
  · split
    · rfl
    · rfl
  · split
    · rfl
    · rfl

/-- What a write does to times and intervals: it loads timer A, loads timer B, or leaves
all of them. -/
theorem setReg_times (opm : OpmMemory) (regno value : Uint32) :
    (opm.setReg regno value).lastCheckTime = opm.lastCheckTime ∧
      (regno.setWidth 8 = (0x10 : BitVec 8) ∨ regno.setWidth 8 = (0x11 : BitVec 8) →
        (opm.setReg regno value).timerAStartTime = opm.lastCheckTime) ∧
      (¬ (regno.setWidth 8 = (0x10 : BitVec 8) ∨ regno.setWidth 8 = (0x11 : BitVec 8)) →
        (opm.setReg regno value).timerAStartTime = opm.timerAStartTime ∧
          (opm.setReg regno value).timerAInterval = opm.timerAInterval) := by
  rcases setReg_cases opm regno value with
    ⟨loads, same⟩ | ⟨loads, same⟩ | ⟨control, same⟩ | ⟨⟨other, -, -⟩, same⟩
  · rw [same]
    exact ⟨rfl, fun _ => rfl, fun other => absurd loads other⟩
  · rw [same, loads]
    exact ⟨rfl, fun wrong => absurd wrong (by decide), fun _ => ⟨rfl, rfl⟩⟩
  · rw [same, control, clearFlags_status]
    exact ⟨rfl, fun wrong => absurd wrong (by decide), fun _ => ⟨rfl, rfl⟩⟩
  · rw [same]
    exact ⟨rfl, fun wrong => absurd wrong other, fun _ => ⟨rfl, rfl⟩⟩

/-- Since its load, timer A has moved by its interval at each expiry and timer B has not
expired. -/
structure Tracks (t0 : Nat) (seen : Observed) : Prop where
  time : seen.opm.lastCheckTime = shown 32 seen.time
  order : t0 ≤ seen.time
  timerA : ∀ load, seen.timerA = some load → t0 ≤ load.start ∧
    seen.opm.timerAStartTime =
      shown 32 (load.start + load.expirations * seen.opm.timerAInterval.toNat) ∧
    load.start + load.expirations * seen.opm.timerAInterval.toNat ≤ seen.time
  timerB : ∀ load, seen.timerB = some load → load.expirations = 0

/-- A write keeps track. -/
theorem setReg_tracks {t0 : Nat} {seen : Observed} (tracks : Tracks t0 seen)
    (regno value : Uint32) : Tracks t0 (seen.perform (.setReg regno value)) := by
  obtain ⟨last, loads, keeps⟩ := setReg_times seen.opm regno value
  refine ⟨last.trans tracks.time, tracks.order, ?_, ?_⟩
  · intro load found
    simp only [Observed.perform] at found ⊢
    split at found
    · rename_i loaded
      obtain rfl := Option.some.inj found
      simp only [Nat.zero_mul, Nat.add_zero]
      exact ⟨tracks.order, (loads loaded).trans tracks.time, Nat.le_refl _⟩
    · rename_i other
      obtain ⟨start, interval⟩ := keeps other
      rw [start, interval]
      exact tracks.timerA load found
  · intro load found
    simp only [Observed.perform] at found
    split at found
    · obtain rfl := Option.some.inj found
      rfl
    · exact tracks.timerB load found

/-- A poll that does not take the branch of timer B keeps track.

Proof: less than a turn of the clock after the reset, a difference of readings is the
time between them, so timer A expires only when its interval has passed. -/
theorem check_tracks {t0 next : Nat} {seen : Observed} (tracks : Tracks t0 seen)
    (order : seen.time ≤ next) (near : next < t0 + 2 ^ 32)
    (quiet : ¬ seen.opm.TimerBExpires (shown 32 next)) :
    Tracks t0 (seen.perform (.check next)) := by
  have fields := checkTimeouts_quiet quiet
  have before := tracks.order
  refine ⟨?_, ?_, ?_, ?_⟩
  · simp only [Observed.perform, fields]
  · exact Nat.le_trans before order
  · intro load found
    simp only [Observed.perform, fields] at found ⊢
    split at found
    · rename_i expires
      obtain ⟨old, kept, rfl⟩ := Option.map_eq_some_iff.mp found
      obtain ⟨begun, start, passed⟩ := tracks.timerA old kept
      have due := expires.2
      rw [start, shown_due (by omega) (by omega)] at due
      simp only [Load.expire, expires, ↓reduceIte, Nat.succ_mul]
      refine ⟨begun, ?_, by omega⟩
      rw [start, shown_add, Nat.add_assoc]
    · rename_i early
      obtain ⟨begun, start, passed⟩ := tracks.timerA load found
      simp only [early, ↓reduceIte]
      exact ⟨begun, start, by omega⟩
  · intro load found
    simp only [Observed.perform, quiet, ↓reduceIte] at found
    exact tracks.timerB load found

/-- A run without the branch of timer B keeps track. -/
theorem run_tracks {t0 : Nat} {seen : Observed} (events : List Event) (tracks : Tracks t0 seen)
    (timed : Timed (t0 + 2 ^ 32) seen.time events) (quiet : Quiet seen.opm events) :
    Tracks t0 (seen.run events) := by
  induction events generalizing seen with
  | nil => exact tracks
  | cons event rest inductionHypothesis =>
    cases event with
    | check next =>
      obtain ⟨order, near, later⟩ := timed
      exact inductionHypothesis (check_tracks tracks order near quiet.1) later quiet.2
    | setReg regno value =>
      exact inductionHypothesis (setReg_tracks tracks regno value) timed quiet

/-- What is tracked is within its bounds. -/
theorem tracks_bounded {t0 : Nat} {seen : Observed} (tracks : Tracks t0 seen) : seen.Bounded := by
  constructor
  · intro load found positive
    obtain ⟨-, -, passed⟩ := tracks.timerA load found
    rw [Load.Bounded, Nat.le_div_iff_mul_le (by bv_omega)]
    omega
  · intro load found _
    rw [Load.Bounded, tracks.timerB load found]
    exact Nat.zero_le _

/-- Timer A alone: the registers and the flag that belong to it. -/
@[ext]
structure TimerA where
  high : BitVec 8
  low : BitVec 8
  running : Bool
  flag : Bool
  lastCheckTime : Uint32
  interval : Uint32
  startTime : Uint32

namespace TimerA

/-- A poll of timer A. -/
def poll (t : Uint32) (timer : TimerA) : TimerA :=
  if timer.running ∧ t - timer.startTime ≥ timer.interval then
    { timer with lastCheckTime := t, flag := true, startTime := timer.startTime + timer.interval }
  else { timer with lastCheckTime := t }

/-- Start timer A with the interval of its registers. -/
def load (timer : TimerA) : TimerA :=
  let high : Uint32 := timer.high.setWidth 32
  let low : Uint32 := timer.low.setWidth 32
  { timer with
    interval := (0x400 - (high <<< 2 ||| (low &&& 0x3))) * 64 / 4000
    startTime := timer.lastCheckTime }

/-- A write, as far as timer A is concerned. -/
def write (regno value : BitVec 8) (timer : TimerA) : TimerA :=
  if regno = 0x10 then { timer with high := value }.load
  else if regno = 0x11 then { timer with low := value }.load
  else if regno = 0x14 then
    { timer with running := value &&& 0x1 = 0x1, flag := timer.flag && value &&& 0x10 ≠ 0x10 }
  else timer

/-- Perform an event. -/
def perform (timer : TimerA) : Event → TimerA
  | .check time => timer.poll (shown 32 time)
  | .setReg regno value => timer.write (regno.setWidth 8) (value.setWidth 8)

/-- For each poll its time, whether timer A expires at it, and the flag after it. -/
def flagEvents (timer : TimerA) : List Event → List (Nat × Bool × Bool)
  | [] => []
  | .check time :: rest =>
    (time, timer.running ∧ shown 32 time - timer.startTime ≥ timer.interval,
      (timer.poll (shown 32 time)).flag) :: flagEvents (timer.poll (shown 32 time)) rest
  | .setReg regno value :: rest => flagEvents (timer.perform (.setReg regno value)) rest

end TimerA

/-- The timer A in an object. -/
def timerA (opm : OpmMemory) : TimerA where
  high := opm.regs 0x10
  low := opm.regs 0x11
  running := opm.tcr &&& 0x1 = 0x1
  flag := opm.status &&& 0x2 = 0x2
  lastCheckTime := opm.lastCheckTime
  interval := opm.timerAInterval
  startTime := opm.timerAStartTime

/-- For each poll its time, whether it takes the expiry branch of timer A, and the flag of
timer A after it. -/
def flagEvents (opm : OpmMemory) : List Event → List (Nat × Bool × Bool)
  | [] => []
  | .check time :: rest =>
    let after := (opm.checkTimeouts (shown 32 time)).1
    (time, opm.TimerAExpires (shown 32 time), after.status &&& 0x2 = 0x2) :: flagEvents after rest
  | .setReg regno value :: rest => flagEvents (opm.setReg regno value) rest

/-- What an event tells timer A: register 0x12 is none of its business, nor are three
bits of register 0x14. -/
def relevant : Event → Option Event
  | .check time => some (.check time)
  | .setReg regno value =>
    if regno.setWidth 8 = (0x12 : BitVec 8) then none
    else if regno.setWidth 8 = (0x14 : BitVec 8) then some (.setReg regno (value &&& ~~~0x2a))
    else some (.setReg regno value)

/-- Setting the flag of timer A sets it. -/
theorem flag_set (status : Uint32) : (status ||| 0x2) &&& 0x2 = 0x2 := by
  apply BitVec.eq_of_getLsbD_eq
  intro index _
  simp only [BitVec.getLsbD_and, BitVec.getLsbD_or]
  cases status.getLsbD index <;> simp

/-- Clearing it clears it. -/
theorem flag_clear (status : Uint32) : ¬ (status &&& ~~~0x2) &&& 0x2 = 0x2 := by
  have none : (status &&& ~~~0x2) &&& 0x2 = 0 := by
    rw [BitVec.and_assoc, show (~~~0x2 : Uint32) &&& 0x2 = 0 by decide]
    exact BitVec.and_zero
  rw [none]
  decide

/-- Clearing the flag of timer B keeps the one of timer A. -/
theorem flag_other (status : Uint32) : (status &&& ~~~0x1) &&& 0x2 = status &&& 0x2 := by
  rw [BitVec.and_assoc, show (~~~0x1 : Uint32) &&& 0x2 = 0x2 by decide]

/-- The control bit of timer A is a bit of its register. -/
theorem running_bit : ∀ value : BitVec 8,
    value.setWidth 32 &&& (0x1 : Uint32) = 0x1 ↔ value &&& 0x1 = 0x1 := by
  decide

/-- A poll that does not take the branch of timer B is a poll of timer A. -/
theorem checkTimeouts_timerA (quiet : ¬ opm.TimerBExpires t) :
    (opm.checkTimeouts t).1.timerA = opm.timerA.poll t := by
  rw [checkTimeouts_quiet quiet, TimerA.poll]
  by_cases expires : opm.TimerAExpires t
  · have due : opm.timerA.running = true ∧ t - opm.timerA.startTime ≥ opm.timerA.interval :=
      ⟨decide_eq_true expires.1, expires.2⟩
    rw [if_pos due]
    simp only [timerA, tcr, expires, ↓reduceIte, flag_set, decide_true]
    rfl
  · have early : ¬ (opm.timerA.running = true ∧
        t - opm.timerA.startTime ≥ opm.timerA.interval) :=
      fun due => expires ⟨of_decide_eq_true due.1, due.2⟩
    rw [if_neg early]
    simp only [timerA, tcr, expires, ↓reduceIte]
    rfl

/-- What clearing flags does to the flag of timer A. -/
theorem clearFlags_flag (value : BitVec 8) (opm : OpmMemory) :
    (opm.clearFlags value).status &&& 0x2 = 0x2 ↔
      opm.status &&& 0x2 = 0x2 ∧ value &&& 0x10 ≠ 0x10 := by
  unfold clearFlags
  by_cases clears : value &&& 0x10 = 0x10
  · simp only [clears, ↓reduceIte, ne_eq, not_true_eq_false, and_false, iff_false]
    split
    · rw [flag_other]
      exact flag_clear _
    · exact flag_clear _
  · simp only [clears, ↓reduceIte, ne_eq, not_false_eq_true, and_true]
    split
    · rw [flag_other]
    · rfl

/-- A write is a write to timer A. -/
theorem setReg_timerA (opm : OpmMemory) (regno value : Uint32) :
    (opm.setReg regno value).timerA =
      opm.timerA.write (regno.setWidth 8) (value.setWidth 8) := by
  rcases setReg_cases opm regno value with
    ⟨loads, same⟩ | ⟨loads, same⟩ | ⟨control, same⟩ | ⟨⟨other, more, last⟩, same⟩
  · rw [same]
    rcases loads with high | low
    · rw [high]
      rfl
    · rw [low]
      rfl
  · rw [same, loads]
    rfl
  · rw [same, control, clearFlags_status]
    have running : decide ((value.setWidth 8).setWidth 32 &&& (0x1 : Uint32) = 0x1) =
        decide (value.setWidth 8 &&& (0x1 : BitVec 8) = 0x1) := decide_eq_decide.mpr (running_bit _)
    have flag : decide (((opm.written 0x14 (value.setWidth 8)).clearFlags
          (value.setWidth 8)).status &&& 0x2 = 0x2) =
        (opm.timerA.flag && decide (value.setWidth 8 &&& (0x10 : BitVec 8) ≠ 0x10)) := by
      rw [timerA, ← Bool.decide_and]
      exact decide_eq_decide.mpr (clearFlags_flag _ _)
    exact TimerA.ext rfl rfl running flag rfl rfl rfl
  · rw [same]
    rw [not_or] at other
    have unseen (place : BitVec 8) (apart : regno.setWidth 8 ≠ place) :
        (opm.written (regno.setWidth 8) (value.setWidth 8)).regs place = opm.regs place :=
      if_neg (Ne.symm apart)
    have ignored : opm.timerA.write (regno.setWidth 8) (value.setWidth 8) = opm.timerA :=
      (if_neg other.1).trans ((if_neg other.2).trans (if_neg last))
    rw [ignored]
    have running : decide ((opm.written (regno.setWidth 8) (value.setWidth 8)).tcr &&& 0x1 = 0x1) =
        decide (opm.tcr &&& 0x1 = 0x1) := by
      rw [tcr, unseen _ last]
      rfl
    exact TimerA.ext (unseen _ other.1) (unseen _ other.2) running rfl rfl rfl rfl

/-- Timer A does not see the bits of the control register that are not its own. -/
theorem write_control (value : Uint32) (timer : TimerA) :
    timer.write 0x14 ((value &&& ~~~0x2a).setWidth 8) = timer.write 0x14 (value.setWidth 8) := by
  have masked : (value &&& ~~~0x2a).setWidth 8 = value.setWidth 8 &&& (~~~0x2a : BitVec 8) := by
    rw [BitVec.setWidth_and]
    rfl
  have first : (value.setWidth 8 &&& (~~~0x2a : BitVec 8)) &&& 0x1 = value.setWidth 8 &&& 0x1 := by
    rw [BitVec.and_assoc, show (~~~0x2a : BitVec 8) &&& 0x1 = 0x1 by decide]
  have second : (value.setWidth 8 &&& (~~~0x2a : BitVec 8)) &&& 0x10 = value.setWidth 8 &&& 0x10 := by
    rw [BitVec.and_assoc, show (~~~0x2a : BitVec 8) &&& 0x10 = 0x10 by decide]
  rw [masked]
  change TimerA.mk _ _ _ _ _ _ _ = TimerA.mk _ _ _ _ _ _ _
  rw [first, second]

/-- Up to the branch of timer B, the object refines timer A alone: its flag events are
those of timer A, which sees of the events only what is relevant to it. -/
theorem flagEvents_refines (events : List Event) (quiet : Quiet opm events) :
    opm.flagEvents events = opm.timerA.flagEvents (events.filterMap relevant) := by
  induction events generalizing opm with
  | nil => rfl
  | cons event rest inductionHypothesis =>
    cases event with
    | check time =>
      obtain ⟨asleep, later⟩ := quiet
      have polled := checkTimeouts_timerA asleep
      have expires : decide (opm.TimerAExpires (shown 32 time)) = decide (opm.timerA.running ∧
          shown 32 time - opm.timerA.startTime ≥ opm.timerA.interval) :=
        decide_eq_decide.mpr ⟨fun due => ⟨decide_eq_true due.1, due.2⟩,
          fun due => ⟨of_decide_eq_true due.1, due.2⟩⟩
      have flag : decide ((opm.checkTimeouts (shown 32 time)).1.status &&& 0x2 = 0x2) =
          (opm.timerA.poll (shown 32 time)).flag := by
        rw [← polled]
        rfl
      have told : relevant (.check time) = some (.check time) := rfl
      rw [List.filterMap_cons_some told, flagEvents, TimerA.flagEvents]
      simp only [expires, flag, inductionHypothesis later, polled]
    | setReg regno value =>
      have written := setReg_timerA opm regno value
      rw [flagEvents, inductionHypothesis quiet, written]
      by_cases other : regno.setWidth 8 = (0x12 : BitVec 8)
      · have dropped : relevant (.setReg regno value) = none := if_pos other
        rw [List.filterMap_cons_none dropped, other]
        rfl
      · by_cases control : regno.setWidth 8 = (0x14 : BitVec 8)
        · have masked : relevant (.setReg regno value) =
              some (.setReg regno (value &&& ~~~0x2a)) := (if_neg other).trans (if_pos control)
          rw [List.filterMap_cons_some masked, TimerA.flagEvents, TimerA.perform, control,
            write_control]
        · have kept : relevant (.setReg regno value) = some (.setReg regno value) :=
            (if_neg other).trans (if_neg control)
          rw [List.filterMap_cons_some kept]
          rfl

/-- Once timer B has expired at a poll, it expires at the next one too, whenever that is:
the poll has left its start time where it was. -/
theorem timer_b_repeats {begun now next : Nat} (start : opm.timerBStartTime = shown 32 begun)
    (order : begun ≤ now) (later : now ≤ next) (near : next < begun + 2 ^ 32)
    (expires : opm.TimerBExpires (shown 32 now)) :
    (opm.checkTimeouts (shown 32 now)).1.TimerBExpires (shown 32 next) := by
  have kept : (opm.checkTimeouts (shown 32 now)).1.timerBStartTime = opm.timerBStartTime ∧
      (opm.checkTimeouts (shown 32 now)).1.timerBInterval = opm.timerBInterval ∧
      (opm.checkTimeouts (shown 32 now)).1.tcr = opm.tcr := by
    unfold checkTimeouts
    dsimp only
    split <;> split <;> split <;> try split
    all_goals exact ⟨rfl, rfl, rfl⟩
  obtain ⟨sameStart, sameInterval, sameControl⟩ := kept
  obtain ⟨enabled, due⟩ := expires
  rw [start, shown_due order (by omega)] at due
  refine ⟨sameControl ▸ enabled, ?_⟩
  rw [sameStart, sameInterval, start, shown_due (by omega) near]
  omega

/-- In runs whose polls never take the expiry branch of timer B, the timers do not
influence each other: neither expires more often than its own interval has passed since
it was loaded, and runs that differ only in what concerns timer B have the same flag
events of timer A.

Proof: the first part is kept by every event; the second holds since the events of each
run are those of timer A alone. -/
theorem timers_independent (start : OpmMemory) (t0 : Nat) :
    (∀ events, Timed (t0 + 2 ^ 32) t0 events → Quiet (start.reset (shown 32 t0)) events →
      ((observe start t0).run events).Bounded) ∧
    (∀ one other, Quiet (start.reset (shown 32 t0)) one →
      Quiet (start.reset (shown 32 t0)) other →
      one.filterMap relevant = other.filterMap relevant →
      (start.reset (shown 32 t0)).flagEvents one = (start.reset (shown 32 t0)).flagEvents other) := by
  constructor
  · intro events timed quiet
    have begun : Tracks t0 (observe start t0) :=
      ⟨rfl, Nat.le_refl _, fun load found => absurd found (by simp [observe]),
        fun load found => absurd found (by simp [observe])⟩
    exact tracks_bounded (run_tracks events begun timed quiet)
  · intro one other quietOne quietOther same
    rw [flagEvents_refines one quietOne, flagEvents_refines other quietOther, same]

/-- Both timers are loaded, timer A runs and expires at two of three polls. In a run that
loads timer B with another interval and turns it on, but is not polled when it expires, the
flag of timer A has the same events. -/
theorem timers_independent_alone :
    ((observe (construct 0 0 0 0 0) 0).run
      [.setReg 0x10 0, .setReg 0x12 0, .setReg 0x14 0x1, .check 16, .check 20, .check 40]).Bounded ∧
    ((construct 0 0 0 0 0).reset (shown 32 0)).flagEvents
        [.setReg 0x10 0, .setReg 0x12 0, .setReg 0x14 0x1, .check 16, .check 20, .check 40] =
      ((construct 0 0 0 0 0).reset (shown 32 0)).flagEvents
        [.setReg 0x10 0, .setReg 0x12 0x40, .setReg 0x14 0x3, .check 16, .check 20, .check 40] := by
  constructor
  · apply (timers_independent (construct 0 0 0 0 0) 0).1
    · refine ⟨by decide, by decide, by decide, by decide, by decide, by decide, trivial⟩
    · refine ⟨by decide, by decide, by decide, trivial⟩
  · apply (timers_independent (construct 0 0 0 0 0) 0).2
    · refine ⟨by decide, by decide, by decide, trivial⟩
    · refine ⟨by decide, by decide, by decide, trivial⟩
    · decide

/-- The writes that load timer A with an interval of 16 and timer B with one of 65 and set
the control register, and a poll at each expiry of timer A and at the next two times. -/
def polledRun (control : Uint32) : List Event :=
  [.setReg 0x10 0, .setReg 0x12 0, .setReg 0x14 control, .check 16, .check 32, .check 48, .check 64,
    .check 65, .check 66]

/-- With timer B on, it expires at both of the last two polls, and timer A expires at the
last one. With timer B off, timer A does not. The two runs differ only in what concerns
timer B. -/
theorem timer_b_shifts_timer_a :
    ¬ ((observe (construct 0 0 0 0 0) 0).run (polledRun 0x3)).Bounded ∧
      (polledRun 0x3).filterMap relevant = (polledRun 0x1).filterMap relevant ∧
      ((construct 0 0 0 0 0).reset (shown 32 0)).flagEvents (polledRun 0x3) ≠
        ((construct 0 0 0 0 0).reset (shown 32 0)).flagEvents (polledRun 0x1) := by
  refine ⟨?_, by decide, by decide⟩
  intro bounded
  have most := bounded.timerB ⟨0, 2⟩ rfl (by decide)
  exact absurd most (by decide)

end OpmMemory

end Vx68k
