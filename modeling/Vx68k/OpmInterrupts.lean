import Vx68k.OpmTimers

/-!
# The interrupts of the OPM

A poll should request an interrupt for a flag that it sets anew, if the control register
asks for interrupts of that timer. The source computes the new flags as the difference of
the new status and the complement of the old one, which is the sum of both and one. Its two
low bits are the new flags only in some cases; which ones is said exactly below.
-/

namespace Vx68k.OpmMemory

/-- Interrupts of timer A are asked for. -/
def AsksA (opm : OpmMemory) : Prop := opm.tcr &&& 0x4 = 0x4

/-- Interrupts of timer B are asked for. -/
def AsksB (opm : OpmMemory) : Prop := opm.tcr &&& 0x8 = 0x8

/-- The flag of timer A. -/
def FlagA (opm : OpmMemory) : Prop := opm.status &&& 0x2 = 0x2

/-- The flag of timer B. -/
def FlagB (opm : OpmMemory) : Prop := opm.status &&& 0x1 = 0x1

instance (opm : OpmMemory) : Decidable opm.AsksA := inferInstanceAs (Decidable (_ = _))

instance (opm : OpmMemory) : Decidable opm.AsksB := inferInstanceAs (Decidable (_ = _))

instance (opm : OpmMemory) : Decidable opm.FlagA := inferInstanceAs (Decidable (_ = _))

instance (opm : OpmMemory) : Decidable opm.FlagB := inferInstanceAs (Decidable (_ = _))

/-- A poll sets a flag anew whose interrupts are asked for. -/
def Due (t : Uint32) (opm : OpmMemory) : Prop :=
  opm.interruptEnabled ∧
    (opm.AsksA ∧ ¬ opm.FlagA ∧ (opm.checkTimeouts t).1.FlagA ∨
      opm.AsksB ∧ ¬ opm.FlagB ∧ (opm.checkTimeouts t).1.FlagB)

instance (t : Uint32) (opm : OpmMemory) : Decidable (opm.Due t) :=
  inferInstanceAs (Decidable (_ ∧ (_ ∧ _ ∧ _ ∨ _ ∧ _ ∧ _)))

/-- A poll requests an interrupt exactly when one is due. -/
def Punctual (t : Uint32) (opm : OpmMemory) : Prop :=
  (opm.checkTimeouts t).2 = if opm.Due t then [⟨6, 0x43⟩] else []

/-- The poll sets one flag anew and not the other. -/
def SetsOne (t : Uint32) (opm : OpmMemory) : Prop :=
  ¬ (¬ opm.FlagA ∧ opm.TimerAExpires t ↔ ¬ opm.FlagB ∧ opm.TimerBExpires t)

/-- The cases in which the source computes the right answer: no interrupts, none asked for,
those of timer A alone while the flag of timer B stays clear, and both when one flag is set
anew. -/
def Discerns (t : Uint32) (opm : OpmMemory) : Prop :=
  opm.interruptEnabled = false ∨ ¬ opm.AsksA ∧ ¬ opm.AsksB ∨
    opm.AsksA ∧ ¬ opm.AsksB ∧ ¬ opm.FlagB ∧ ¬ opm.TimerBExpires t ∨
    opm.AsksA ∧ opm.AsksB ∧ opm.SetsOne t

variable {opm : OpmMemory} {t : Uint32}

/-- Set the flags of the timers that expire. -/
def raise {width : Nat} (expiresA expiresB : Bool) (status : BitVec width) : BitVec width :=
  let status := if expiresA then status ||| 0x2 else status
  if expiresB then status ||| 0x1 else status

/-- The status after a poll. -/
def polledStatus (t : Uint32) (opm : OpmMemory) : Uint32 :=
  raise (opm.TimerAExpires t) (opm.TimerBExpires t) opm.status

/-- Two tests for a request are one. -/
theorem request_once {first : OpmMemory} {posted : List Interrupt} (enabled asks : Prop)
    [Decidable enabled] [Decidable asks] :
    (if enabled then if asks then (first, posted) else (first, []) else (first, [])) =
      (first, if enabled ∧ asks then posted else []) := by
  by_cases on : enabled
  · by_cases asked : asks
    · rw [if_pos on, if_pos asked, if_pos ⟨on, asked⟩]
    · rw [if_pos on, if_neg asked, if_neg fun both => asked both.2]
  · rw [if_neg on, if_neg fun both => on both.1]

/-- A poll leaves this status and decides on an interrupt by the sum of both. -/
theorem checkTimeouts_status (t : Uint32) (opm : OpmMemory) :
    (opm.checkTimeouts t).1.status = opm.polledStatus t ∧
      (opm.checkTimeouts t).2 =
        if opm.interruptEnabled = true ∧
            (opm.AsksA ∧ (opm.polledStatus t - ~~~opm.status) &&& 0x2 = 0x2 ∨
              opm.AsksB ∧ (opm.polledStatus t - ~~~opm.status) &&& 0x1 = 0x1) then
          [⟨6, 0x43⟩] else [] := by
  have alike : ({ opm with lastCheckTime := t } : OpmMemory).TimerAExpires t ↔
      opm.TimerAExpires t := Iff.rfl
  have same (status start : Uint32) : ({ opm with
      lastCheckTime := t, status := status, timerAStartTime := start } : OpmMemory).TimerBExpires t ↔
        opm.TimerBExpires t := Iff.rfl
  have still : ({ opm with lastCheckTime := t } : OpmMemory).TimerBExpires t ↔
      opm.TimerBExpires t := Iff.rfl
  unfold checkTimeouts polledStatus raise AsksA AsksB
  simp only [request_once, decide_eq_true_eq]
  by_cases one : opm.TimerAExpires t
  · by_cases two : opm.TimerBExpires t
    · simp only [alike, one, same, two, ↓reduceIte]
      exact ⟨trivial, rfl⟩
    · simp only [alike, one, same, two, ↓reduceIte]
      exact ⟨trivial, rfl⟩
  · by_cases two : opm.TimerBExpires t
    · simp only [alike, one, still, two, ↓reduceIte]
      exact ⟨trivial, rfl⟩
    · simp only [alike, one, still, two, ↓reduceIte]
      exact ⟨trivial, rfl⟩

/-- The two low bits of a status. -/
def low (status : Uint32) : BitVec 2 := status.setWidth 2

/-- A status has a flag if its two low bits do. -/
theorem low_flag (status : Uint32) :
    (status &&& 0x2 = 0x2 ↔ (low status).getLsbD 1 = true) ∧
      (status &&& 0x1 = 0x1 ↔ (low status).getLsbD 0 = true) := by
  have flag (place : Nat) (small : place < 2) :
      status &&& BitVec.twoPow 32 place = BitVec.twoPow 32 place ↔
        (low status).getLsbD place = true := by
    have some : (0 : Uint32) ≠ BitVec.twoPow 32 place := by
      interval_cases place <;> decide
    rw [BitVec.and_twoPow, low, BitVec.getLsbD_setWidth, decide_eq_true small, Bool.true_and]
    split
    · rename_i set
      simp only [set]
    · rename_i clear
      exact ⟨fun same => absurd same some, fun set => absurd set clear⟩
  exact ⟨flag 1 (by decide), flag 0 (by decide)⟩

/-- The low bits after a poll. -/
theorem low_polledStatus (t : Uint32) (opm : OpmMemory) : low (opm.polledStatus t) =
    raise (opm.TimerAExpires t) (opm.TimerBExpires t) (low opm.status) := by
  unfold polledStatus raise low
  dsimp only
  split
  · split
    · rw [BitVec.setWidth_or, BitVec.setWidth_or]
      rfl
    · rw [BitVec.setWidth_or]
      rfl
  · split
    · rw [BitVec.setWidth_or]
      rfl
    · rfl

/-- The low bits of the sum. -/
theorem low_sum (new old : Uint32) : low (new - ~~~old) = low new - ~~~low old := by
  unfold low
  rw [BitVec.sub_eq_add_neg, BitVec.setWidth_add _ _ (by decide), BitVec.setWidth_neg_of_le (by decide),
    BitVec.setWidth_not (by decide), ← BitVec.sub_eq_add_neg]

/-- Among two flags, two expiries and two requests, the sum has the right bits in exactly
these cases. -/
theorem sum_discerns : ∀ (old : BitVec 2) (expiresA expiresB asksA asksB : Bool),
    (((asksA = true ∧ (raise expiresA expiresB old - ~~~old).getLsbD 1 = true ∨
          asksB = true ∧ (raise expiresA expiresB old - ~~~old).getLsbD 0 = true) ↔
        (asksA = true ∧ ¬ old.getLsbD 1 = true ∧ (raise expiresA expiresB old).getLsbD 1 = true ∨
          asksB = true ∧ ¬ old.getLsbD 0 = true ∧ (raise expiresA expiresB old).getLsbD 0 = true)) ↔
      (¬ asksA = true ∧ ¬ asksB = true ∨
        asksA = true ∧ ¬ asksB = true ∧ ¬ old.getLsbD 0 = true ∧ ¬ expiresB = true ∨
        asksA = true ∧ asksB = true ∧
          ¬ (¬ old.getLsbD 1 = true ∧ expiresA = true ↔
            ¬ old.getLsbD 0 = true ∧ expiresB = true))) := by
  intro old expiresA expiresB asksA asksB
  revert old
  cases expiresA <;> cases expiresB <;> cases asksA <;> cases asksB <;> decide

/-- A poll requests an interrupt exactly when one is due if and only if it is one of the
cases that the source discerns. -/
theorem punctual_discerns (t : Uint32) (opm : OpmMemory) : opm.Punctual t ↔ opm.Discerns t := by
  obtain ⟨status, posted⟩ := checkTimeouts_status t opm
  have cases {first second : Prop} [Decidable first] [Decidable second] :
      (if first then [(⟨6, 0x43⟩ : Interrupt)] else []) = (if second then [⟨6, 0x43⟩] else []) ↔
        (first ↔ second) := by
    by_cases one : first <;> by_cases two : second <;> simp [one, two]
  rw [Punctual, posted, cases]
  unfold Due Discerns
  by_cases enabled : opm.interruptEnabled = true
  · have bits := sum_discerns (low opm.status) (decide (opm.TimerAExpires t))
      (decide (opm.TimerBExpires t)) (decide opm.AsksA) (decide opm.AsksB)
    simp only [decide_eq_true_eq] at bits
    simp only [enabled, true_and, Bool.true_eq_false, false_or]
    unfold SetsOne FlagA FlagB
    rw [status]
    simp only [low_flag, low_sum, low_polledStatus]
    exact bits
  · simp [enabled]

/-- Flags are set by expiries only. -/
theorem raise_bits : ∀ (old : BitVec 2) (expiresA expiresB : Bool),
    (raise expiresA expiresB old).getLsbD 1 = (old.getLsbD 1 || expiresA) ∧
      (raise expiresA expiresB old).getLsbD 0 = (old.getLsbD 0 || expiresB) := by
  decide

/-- A due interrupt is that of a timer that expires while its flag is clear. -/
theorem due_expires (due : opm.Due t) :
    ¬ opm.FlagA ∧ opm.TimerAExpires t ∨ ¬ opm.FlagB ∧ opm.TimerBExpires t := by
  obtain ⟨setA, setB⟩ := raise_bits (low opm.status) (opm.TimerAExpires t) (opm.TimerBExpires t)
  obtain ⟨-, new⟩ := due
  unfold FlagA FlagB at new ⊢
  rw [(checkTimeouts_status t opm).1] at new
  simp only [low_flag, low_polledStatus, setA, setB, Bool.or_eq_true, decide_eq_true_eq] at new ⊢
  tauto

/-- A property of every poll of a run. -/
def Along (holds : Uint32 → OpmMemory → Prop) (opm : OpmMemory) : List Uint32 → Prop
  | [] => True
  | t :: rest => holds t opm ∧ Along holds (opm.checkTimeouts t).1 rest

/-- The interrupts that the polls of a run request. -/
def interrupts (opm : OpmMemory) : List Uint32 → List Interrupt
  | [] => []
  | t :: rest => (opm.checkTimeouts t).2 ++ interrupts (opm.checkTimeouts t).1 rest

/-- The flag of timer A stays set, or timer A never expires. -/
def IdleA (opm : OpmMemory) (times : List Uint32) : Prop :=
  Along (fun _ opm => opm.FlagA) opm times ∨ Along (fun t opm => ¬ opm.TimerAExpires t) opm times

/-- The flag of timer B stays set, or timer B never expires. -/
def IdleB (opm : OpmMemory) (times : List Uint32) : Prop :=
  Along (fun _ opm => opm.FlagB) opm times ∨ Along (fun t opm => ¬ opm.TimerBExpires t) opm times

/-- What is weaker at every poll is weaker along the polls. -/
theorem along_mono {holds other : Uint32 → OpmMemory → Prop}
    (weaker : ∀ t opm, holds t opm → other t opm) (opm : OpmMemory) (times : List Uint32)
    (along : Along holds opm times) : Along other opm times := by
  induction times generalizing opm with
  | nil => trivial
  | cons t rest inductionHypothesis => exact ⟨weaker t opm along.1, inductionHypothesis _ along.2⟩

/-- Of idle timers no interrupt is due, and they stay idle. -/
theorem idle_step {rest : List Uint32} (idleA : opm.IdleA (t :: rest)) (idleB : opm.IdleB (t :: rest)) :
    ¬ opm.Due t ∧ (opm.checkTimeouts t).1.IdleA rest ∧ (opm.checkTimeouts t).1.IdleB rest := by
  refine ⟨fun due => ?_, idleA.imp And.right And.right, idleB.imp And.right And.right⟩
  rcases due_expires due with ⟨clear, expires⟩ | ⟨clear, expires⟩
  · exact idleA.elim (fun set => clear set.1) fun never => never.1 expires
  · exact idleB.elim (fun set => clear set.1) fun never => never.1 expires

/-- Timers that never ask for an interrupt make none. -/
theorem interrupts_idle (times : List Uint32) (punctual : Along Punctual opm times)
    (idleA : opm.IdleA times) (idleB : opm.IdleB times) : opm.interrupts times = [] := by
  induction times generalizing opm with
  | nil => rfl
  | cons t rest inductionHypothesis =>
    obtain ⟨notDue, stillA, stillB⟩ := idle_step idleA idleB
    have first : (opm.checkTimeouts t).2 = [] := punctual.1.trans (if_neg notDue)
    rw [interrupts, first, List.nil_append, inductionHypothesis punctual.2 stillA stillB]

/-- For every state and time, a poll requests an interrupt exactly when it sets a flag anew
whose interrupts are asked for, if and only if it is one of the cases that the source
discerns. In every run of such polls this holds of each poll, and timers whose flag stays
set or that never expire request none.

Proof: only the two low bits of the sum matter, which are those of the sum of low bits;
for these, all cases are checked. -/
theorem interrupts_exact_iff (opm : OpmMemory) :
    (∀ t, opm.Punctual t ↔ opm.Discerns t) ∧
      ∀ times, Along Discerns opm times → Along Punctual opm times ∧
        (opm.IdleA times → opm.IdleB times → opm.interrupts times = []) := by
  refine ⟨fun t => punctual_discerns t opm, fun times discerned => ?_⟩
  have punctual := along_mono (fun t opm => (punctual_discerns t opm).mpr) opm times discerned
  exact ⟨punctual, interrupts_idle times punctual⟩

/-- Interrupts of both timers are asked for and enabled, and timer A expires. -/
theorem interrupts_exact_iff_once :
    ({ (construct 0 0 0 0 0).setReg 0x14 0xd with interruptEnabled := true }).Punctual 5 := by
  apply ((interrupts_exact_iff _).1 5).mpr
  unfold Discerns SetsOne FlagA FlagB AsksA AsksB TimerAExpires TimerBExpires
  decide

/-- With interrupts of timer B asked for, a poll requests one though no timer runs. -/
theorem stopped_timers_interrupt :
    ¬ ({ (construct 0 0 0 0 0).setReg 0x14 0x8 with interruptEnabled := true }).Punctual 5 := by
  unfold Punctual
  decide

end Vx68k.OpmMemory
