import Mathlib.Data.Nat.Basic
import Mathlib.Order.Basic

/-!
# Programs that may raise an exception or never end

A program is given by what it does within each amount of fuel. A run that has
used up its fuel is unfinished; a finished run is an ending, either a value or
an exception, together with the state left behind. More fuel never changes an
ending, and every program carries the proof of that. Non-termination is then the
absence of an ending at every amount of fuel, and no caller mentions fuel.

The relations `Returns` and `Raises` are the meaning of a program. The rules
below compute them for sequencing, state access and loops; the loop rules are
unfolding, termination by a decreasing measure and divergence by a loop
invariant. Nothing here depends on what the state or the exceptions are.
-/

namespace Vx68k.Programs

/-- What a finished run leaves: a value or an exception, and the final state. -/
abbrev Ending (ε σ α : Type) := Except ε α × σ

/-- A program by its finished runs. An ending found within some fuel is found
within any larger amount, so it does not depend on the fuel that found it. -/
structure Program (ε σ α : Type) where
  run : Nat → σ → Option (Ending ε σ α)
  stable : ∀ fuel more state ending, fuel ≤ more →
    run fuel state = some ending → run more state = some ending

variable {ε σ τ α β γ : Type}

namespace Program

/-- End at once with a value or an exception and a new state. -/
def atomic (operation : σ → Ending ε σ α) : Program ε σ α where
  run _ state := some (operation state)
  stable _ _ _ _ _ ended := ended

/-- Run the first program and continue with its value; an exception ends both. -/
def andThen (first : Program ε σ α) (next : α → Program ε σ β) : Program ε σ β where
  run fuel state :=
    match first.run fuel state with
    | none => none
    | some (.error failure, after) => some (.error failure, after)
    | some (.ok value, after) => (next value).run fuel after
  stable fuel more state ending enough ended := by
    cases initial : first.run fuel state with
    | none => simp [initial] at ended
    | some result =>
      obtain ⟨outcome, after⟩ := result
      have same := first.stable fuel more state _ enough initial
      cases outcome with
      | error failure => simpa [initial, same] using ended
      | ok value =>
        simp only [initial] at ended
        simpa only [same] using (next value).stable fuel more after ending enough ended

/-- Programs one after the other. -/
instance : Monad (Program ε σ) where
  pure value := atomic fun state => (.ok value, state)
  bind := andThen

/-- Programs with the same runs are the same program. -/
theorem ext {first second : Program ε σ α} (same : first.run = second.run) : first = second := by
  cases first
  cases second
  congr

/-- Sequencing is associative and values are its units. -/
instance : LawfulMonad (Program ε σ) := by
  refine LawfulMonad.mk' _ (fun program => ext ?_) (fun _ _ => ext rfl)
    (fun program next last => ext ?_)
  · funext fuel state
    change (program.andThen fun value => atomic fun state => (.ok value, state)).run fuel state = _
    simp only [andThen, atomic]
    cases program.run fuel state with
    | none => rfl
    | some result =>
      obtain ⟨outcome, after⟩ := result
      cases outcome <;> rfl
  · funext fuel state
    change ((program.andThen next).andThen last).run fuel state =
      (program.andThen fun value => (next value).andThen last).run fuel state
    simp only [andThen]
    cases program.run fuel state with
    | none => rfl
    | some result =>
      obtain ⟨outcome, after⟩ := result
      cases outcome <;> rfl

/-- Raise an exception in the current state. -/
def raise (failure : ε) : Program ε σ α := atomic fun state => (.error failure, state)

/-- Never end. -/
def diverge : Program ε σ α where
  run _ _ := none
  stable _ _ _ _ _ ended := ended

/-- The current state. -/
def state : Program ε σ σ := atomic fun state => (.ok state, state)

/-- Replace the state. -/
def update (change : σ → σ) : Program ε σ Unit := atomic fun state => (.ok (), change state)

/-- Run a program on a component of a larger state. -/
def zoom (view : τ → σ) (replace : σ → τ → τ) (inner : Program ε σ α) : Program ε τ α where
  run fuel whole := (inner.run fuel (view whole)).map fun ending =>
    (ending.1, replace ending.2 whole)
  stable fuel more whole ending enough ended := by
    obtain ⟨found, finished, same⟩ := Option.map_eq_some_iff.mp ended
    rw [inner.stable fuel more (view whole) found enough finished]
    exact congrArg some same

/-- Run a program and give its outcome as a value, as a handler of every exception
receives it. -/
def attempt {ε' : Type} (inner : Program ε σ α) : Program ε' σ (Except ε α) where
  run fuel state := (inner.run fuel state).map fun ending => (.ok ending.1, ending.2)
  stable fuel more state ending enough ended := by
    obtain ⟨found, finished, same⟩ := Option.map_eq_some_iff.mp ended
    rw [inner.stable fuel more state found enough finished]
    exact congrArg some same

/-- Nothing comes after an exception. -/
theorem raise_bind (failure : ε) (next : α → Program ε σ β) :
    raise failure >>= next = (raise failure : Program ε σ β) := ext rfl

/-- Nothing comes after a program that does not end. -/
theorem diverge_bind (next : α → Program ε σ β) :
    diverge >>= next = (diverge : Program ε σ β) := ext rfl

end Program

/-- One turn of a loop asks for another turn or leaves with the loop's result. -/
inductive Turn (β α : Type) where
  | again : β → Turn β α
  | leave : α → Turn β α
deriving DecidableEq

/-- Repeated turns; each one spends a unit of fuel. -/
def loopRun (body : β → Program ε σ (Turn β α)) : Nat → β → σ → Option (Ending ε σ α)
  | 0, _, _ => none
  | fuel + 1, position, state =>
    match (body position).run fuel state with
    | none => none
    | some (.error failure, after) => some (.error failure, after)
    | some (.ok (.again next), after) => loopRun body fuel next after
    | some (.ok (.leave value), after) => some (.ok value, after)

/-- Fuel that completes a loop is still enough when there is more of it. -/
theorem loop_run_stable (body : β → Program ε σ (Turn β α)) (fuel more : Nat)
    (position : β) (state : σ) (ending : Ending ε σ α) (enough : fuel ≤ more)
    (ended : loopRun body fuel position state = some ending) :
    loopRun body more position state = some ending := by
  induction fuel generalizing more position state with
  | zero => simp [loopRun] at ended
  | succ fuel inductionHypothesis =>
    obtain ⟨rest, rfl⟩ : ∃ rest, more = rest + 1 := ⟨more - 1, by omega⟩
    have less : fuel ≤ rest := Nat.le_of_succ_le_succ enough
    cases turn : (body position).run fuel state with
    | none => simp [loopRun, turn] at ended
    | some result =>
      obtain ⟨outcome, after⟩ := result
      have same := (body position).stable fuel rest state _ less turn
      cases outcome with
      | error failure => simpa [loopRun, turn, same] using ended
      | ok step =>
        cases step with
        | again next =>
          simp only [loopRun, turn] at ended
          simpa only [loopRun, same] using inductionHypothesis rest next after less ended
        | leave value => simpa [loopRun, turn, same] using ended

/-- Take turns from a position until one of them leaves or raises. -/
def Program.loop (body : β → Program ε σ (Turn β α)) (position : β) : Program ε σ α where
  run fuel state := loopRun body fuel position state
  stable fuel more state ending enough ended :=
    loop_run_stable body fuel more position state ending enough ended

/-- The program ends with this outcome and final state. -/
def Ends (program : Program ε σ α) (state : σ) (outcome : Except ε α) (after : σ) : Prop :=
  ∃ fuel, program.run fuel state = some (outcome, after)

/-- The program ends normally with a value. -/
def Returns (program : Program ε σ α) (state : σ) (value : α) (after : σ) : Prop :=
  Ends program state (.ok value) after

/-- The program ends with an exception. -/
def Raises (program : Program ε σ α) (state : σ) (failure : ε) (after : σ) : Prop :=
  Ends program state (.error failure) after

/-- The program ends, one way or the other. -/
def Halts (program : Program ε σ α) (state : σ) : Prop :=
  ∃ fuel ending, program.run fuel state = some ending

/-- Two endings of one program from one state are the same ending. -/
theorem ending_unique (program : Program ε σ α) (state : σ) (first second : Nat)
    (one other : Ending ε σ α) (found : program.run first state = some one)
    (also : program.run second state = some other) : one = other := by
  have left := program.stable first (max first second) state one (Nat.le_max_left _ _) found
  have right := program.stable second (max first second) state other (Nat.le_max_right _ _) also
  exact Option.some.inj (left.symm.trans right)

/-- An outcome and its final state are determined by the initial state. -/
theorem ends_unique {program : Program ε σ α} {state after later : σ}
    {outcome other : Except ε α} (one : Ends program state outcome after)
    (two : Ends program state other later) : outcome = other ∧ after = later := by
  obtain ⟨first, found⟩ := one
  obtain ⟨second, also⟩ := two
  exact Prod.mk.inj (ending_unique program state first second _ _ found also)

/-- A returned value and its final state are determined by the initial state. -/
theorem returns_unique {program : Program ε σ α} {state after later : σ} {value other : α}
    (one : Returns program state value after) (two : Returns program state other later) :
    value = other ∧ after = later := by
  obtain ⟨first, found⟩ := one
  obtain ⟨second, also⟩ := two
  have same := ending_unique program state first second _ _ found also
  simpa using same

/-- A program that returns from a state does not raise from it. -/
theorem returns_not_raises {program : Program ε σ α} {state after later : σ} {value : α}
    {failure : ε} (one : Returns program state value after) :
    ¬ Raises program state failure later := by
  rintro ⟨second, also⟩
  obtain ⟨first, found⟩ := one
  have same := ending_unique program state first second _ _ found also
  simp at same

/-- Halting is returning or raising. -/
theorem halts_iff {program : Program ε σ α} {state : σ} :
    Halts program state ↔ (∃ value after, Returns program state value after) ∨
      ∃ failure after, Raises program state failure after := by
  constructor
  · rintro ⟨fuel, ⟨outcome, after⟩, ended⟩
    cases outcome with
    | ok value => exact Or.inl ⟨value, after, fuel, ended⟩
    | error failure => exact Or.inr ⟨failure, after, fuel, ended⟩
  · rintro (⟨value, after, fuel, ended⟩ | ⟨failure, after, fuel, ended⟩)
    · exact ⟨fuel, _, ended⟩
    · exact ⟨fuel, _, ended⟩

/-- An atomic operation returns exactly what it computes. -/
theorem returns_atomic {operation : σ → Ending ε σ α} {state after : σ} {value : α} :
    Returns (Program.atomic operation) state value after ↔
      operation state = (.ok value, after) := by
  simp [Returns, Ends, Program.atomic]

/-- An atomic operation raises exactly what it computes. -/
theorem raises_atomic {operation : σ → Ending ε σ α} {state after : σ} {failure : ε} :
    Raises (Program.atomic operation : Program ε σ α) state failure after ↔
      operation state = (.error failure, after) := by
  simp [Raises, Ends, Program.atomic]

/-- An atomic operation ends exactly as it computes. -/
theorem ends_atomic {operation : σ → Ending ε σ α} {state after : σ} {outcome : Except ε α} :
    Ends (Program.atomic operation) state outcome after ↔ operation state = (outcome, after) := by
  simp [Ends, Program.atomic]

/-- An answer ends at once with its value. -/
@[simp]
theorem ends_pure {state after : σ} {value : α} {outcome : Except ε α} :
    Ends (pure value : Program ε σ α) state outcome after ↔
      .ok value = outcome ∧ state = after := by
  change Ends (Program.atomic fun state => (.ok value, state)) _ _ _ ↔ _
  simp [ends_atomic]

/-- An exception ends at once. -/
@[simp]
theorem ends_raise {state after : σ} {failure : ε} {outcome : Except ε α} :
    Ends (Program.raise failure : Program ε σ α) state outcome after ↔
      .error failure = outcome ∧ state = after := by
  simp [Program.raise, ends_atomic]

/-- A program that diverges does not end. -/
@[simp]
theorem not_ends_diverge {state after : σ} {outcome : Except ε α} :
    ¬ Ends (Program.diverge : Program ε σ α) state outcome after := by
  simp [Ends, Program.diverge]

/-- An answer returns its value and changes nothing. -/
@[simp]
theorem returns_pure {state after : σ} {value result : α} :
    Returns (pure value : Program ε σ α) state result after ↔
      value = result ∧ state = after := by
  change Returns (Program.atomic fun state => (.ok value, state)) _ _ _ ↔ _
  simp [returns_atomic]

/-- It raises nothing. -/
@[simp]
theorem not_raises_pure {state after : σ} {value : α} {failure : ε} :
    ¬ Raises (pure value : Program ε σ α) state failure after := by
  change ¬ Raises (Program.atomic fun state => (.ok value, state)) _ _ _
  simp [raises_atomic]

/-- An exception returns nothing. -/
@[simp]
theorem not_returns_raise {state after : σ} {failure : ε} {value : α} :
    ¬ Returns (Program.raise failure : Program ε σ α) state value after := by
  simp [Program.raise, returns_atomic]

/-- An exception is raised in the state where it is. -/
@[simp]
theorem raises_raise {state after : σ} {failure other : ε} :
    Raises (Program.raise failure : Program ε σ α) state other after ↔
      failure = other ∧ state = after := by
  simp [Program.raise, raises_atomic]

/-- The state is returned as it is. -/
@[simp]
theorem returns_state {state after result : σ} :
    Returns (Program.state : Program ε σ σ) state result after ↔
      state = result ∧ state = after := by
  simp [Program.state, returns_atomic]

/-- A change returns in the changed state. -/
@[simp]
theorem returns_update {change : σ → σ} {state after : σ} {done : Unit} :
    Returns (Program.update change : Program ε σ Unit) state done after ↔
      change state = after := by
  simp [Program.update, returns_atomic]

/-- A sequence returns exactly when its first program returns and the second,
started with that value and state, returns. -/
theorem returns_bind {first : Program ε σ α} {next : α → Program ε σ β} {state after : σ}
    {result : β} :
    Returns (first >>= next) state result after ↔
      ∃ value middle, Returns first state value middle ∧
        Returns (next value) middle result after := by
  constructor
  · rintro ⟨fuel, ended⟩
    change (first.andThen next).run fuel state = _ at ended
    cases initial : first.run fuel state with
    | none => simp [Program.andThen, initial] at ended
    | some found =>
      obtain ⟨outcome, middle⟩ := found
      cases outcome with
      | error failure => simp [Program.andThen, initial] at ended
      | ok value =>
        simp only [Program.andThen, initial] at ended
        exact ⟨value, middle, ⟨fuel, initial⟩, ⟨fuel, ended⟩⟩
  · rintro ⟨value, middle, ⟨one, initial⟩, ⟨two, following⟩⟩
    refine ⟨max one two, ?_⟩
    change (first.andThen next).run _ state = _
    have started := first.stable one (max one two) state _ (Nat.le_max_left _ _) initial
    have continued := (next value).stable two (max one two) middle _ (Nat.le_max_right _ _)
      following
    simp only [Program.andThen, started, continued]

/-- A sequence raises when its first program raises, or when that returns and
the second raises. -/
theorem raises_bind {first : Program ε σ α} {next : α → Program ε σ β} {state after : σ}
    {failure : ε} :
    Raises (first >>= next) state failure after ↔
      Raises first state failure after ∨
        ∃ value middle, Returns first state value middle ∧
          Raises (next value) middle failure after := by
  constructor
  · rintro ⟨fuel, ended⟩
    change (first.andThen next).run fuel state = _ at ended
    cases initial : first.run fuel state with
    | none => simp [Program.andThen, initial] at ended
    | some found =>
      obtain ⟨outcome, middle⟩ := found
      cases outcome with
      | error problem =>
        simp only [Program.andThen, initial, Option.some.injEq, Prod.mk.injEq,
          Except.error.injEq] at ended
        obtain ⟨rfl, rfl⟩ := ended
        exact Or.inl ⟨fuel, initial⟩
      | ok value =>
        simp only [Program.andThen, initial] at ended
        exact Or.inr ⟨value, middle, ⟨fuel, initial⟩, ⟨fuel, ended⟩⟩
  · rintro (⟨fuel, initial⟩ | ⟨value, middle, ⟨one, initial⟩, ⟨two, following⟩⟩)
    · refine ⟨fuel, ?_⟩
      change (first.andThen next).run _ state = _
      simp only [Program.andThen, initial]
    · refine ⟨max one two, ?_⟩
      change (first.andThen next).run _ state = _
      have started := first.stable one (max one two) state _ (Nat.le_max_left _ _) initial
      have continued := (next value).stable two (max one two) middle _ (Nat.le_max_right _ _)
        following
      simp only [Program.andThen, started, continued]

/-- A sequence ends with the exception of its first program, or as its second does
after the first has returned. -/
theorem ends_bind {first : Program ε σ α} {next : α → Program ε σ β} {state after : σ}
    {outcome : Except ε β} :
    Ends (first >>= next) state outcome after ↔
      (∃ failure, Raises first state failure after ∧ outcome = .error failure) ∨
        ∃ value middle, Returns first state value middle ∧
          Ends (next value) middle outcome after := by
  cases outcome with
  | ok result =>
    refine returns_bind.trans ⟨Or.inr, ?_⟩
    rintro (⟨failure, -, impossible⟩ | rest)
    · cases impossible
    · exact rest
  | error failure =>
    refine raises_bind.trans (or_congr ⟨fun raised => ⟨failure, raised, rfl⟩, ?_⟩ Iff.rfl)
    rintro ⟨other, raised, same⟩
    cases same
    exact raised

/-- Sequencing halts when each part does. -/
theorem halts_bind {first : Program ε σ α} {next : α → Program ε σ β} {state : σ}
    (initial : Halts first state)
    (following : ∀ value middle, Returns first state value middle → Halts (next value) middle) :
    Halts (first >>= next) state := by
  rcases halts_iff.mp initial with ⟨value, middle, returned⟩ | ⟨failure, middle, raised⟩
  · rcases halts_iff.mp (following value middle returned) with
      ⟨result, after, rest⟩ | ⟨failure, after, rest⟩
    · exact halts_iff.mpr (Or.inl ⟨result, after, returns_bind.mpr ⟨_, _, returned, rest⟩⟩)
    · exact halts_iff.mpr (Or.inr ⟨failure, after,
        raises_bind.mpr (Or.inr ⟨_, _, returned, rest⟩)⟩)
  · exact halts_iff.mpr (Or.inr ⟨failure, middle, raises_bind.mpr (Or.inl raised)⟩)

/-- After a program that returns, a sequence ends as its rest does. -/
theorem ends_after {first : Program ε σ α} {next : α → Program ε σ β} {state middle after : σ}
    {value : α} {outcome : Except ε β} (returned : Returns first state value middle) :
    Ends (first >>= next) state outcome after ↔ Ends (next value) middle outcome after := by
  rw [ends_bind]
  constructor
  · rintro (⟨failure, raised, -⟩ | ⟨other, between, initial, rest⟩)
    · exact absurd raised (returns_not_raises returned)
    · obtain ⟨rfl, rfl⟩ := returns_unique returned initial
      exact rest
  · exact fun rest => Or.inr ⟨value, middle, returned, rest⟩

/-- What follows a change ends as it does in the changed state. -/
theorem ends_after_update {change : σ → σ} {next : Unit → Program ε σ β} {state after : σ}
    {outcome : Except ε β} :
    Ends (Program.update change >>= next) state outcome after ↔
      Ends (next ()) (change state) outcome after := by
  have updated : Returns (.update change : Program ε σ Unit) state () (change state) :=
    returns_update.mpr rfl
  exact ends_after updated

/-- What follows a look at the state ends as it does with that state. -/
theorem ends_after_state {next : σ → Program ε σ β} {state after : σ} {outcome : Except ε β} :
    Ends (Program.state >>= next) state outcome after ↔ Ends (next state) state outcome after :=
  ends_after (returns_state.mpr ⟨rfl, rfl⟩)

/-- After a program that returns, a sequence halts exactly when its rest does. -/
theorem halts_after {first : Program ε σ α} {next : α → Program ε σ β} {state middle : σ}
    {value : α} (returned : Returns first state value middle) :
    Halts (first >>= next) state ↔ Halts (next value) middle := by
  constructor
  · rintro ⟨fuel, ⟨outcome, after⟩, ended⟩
    obtain ⟨more, rest⟩ := (ends_after returned).mp ⟨fuel, ended⟩
    exact ⟨more, _, rest⟩
  · rintro ⟨fuel, ⟨outcome, after⟩, ended⟩
    obtain ⟨more, rest⟩ := (ends_after returned).mpr ⟨fuel, ended⟩
    exact ⟨more, _, rest⟩

/-- Atomic operations halt. -/
theorem halts_atomic (operation : σ → Ending ε σ α) (state : σ) :
    Halts (Program.atomic operation) state := ⟨0, _, rfl⟩

/-- The program ends without spending fuel, as every program without a loop does. -/
def Immediate (program : Program ε σ α) : Prop := ∀ state, program.run 0 state ≠ none

/-- An operation calls nothing. -/
theorem immediate_atomic (operation : σ → Ending ε σ α) : Immediate (Program.atomic operation) :=
  fun _ => Option.some_ne_none _

/-- A program calls nothing if its parts do not. -/
theorem immediate_bind {first : Program ε σ α} {next : α → Program ε σ β}
    (initial : Immediate first) (following : ∀ value, Immediate (next value)) :
    Immediate (first >>= next) := by
  intro state
  change (first.andThen next).run 0 state ≠ none
  cases started : first.run 0 state with
  | none => exact absurd started (initial state)
  | some result =>
    obtain ⟨outcome, after⟩ := result
    cases outcome with
    | error failure => simp [Program.andThen, started]
    | ok value => simpa [Program.andThen, started] using following value after

/-- What an immediate program does to a state, read off its run without fuel; a
program that needs fuel counts as ending with the given exception. -/
def settle (unfinished : ε) (program : Program ε σ α) (state : σ) : Ending ε σ α :=
  (program.run 0 state).getD (.error unfinished, state)

/-- Settling an immediate program gives its ending. -/
theorem settle_ends {program : Program ε σ α} (immediate : Immediate program) (unfinished : ε)
    {state after : σ} {outcome : Except ε α} (ended : Ends program state outcome after) :
    settle unfinished program state = (outcome, after) := by
  obtain ⟨ending, found⟩ := Option.ne_none_iff_exists'.mp (immediate state)
  obtain ⟨fuel, also⟩ := ended
  rw [settle, found, ending_unique program state 0 fuel _ _ found also]
  rfl

/-- A component program ends within the larger state as it does alone. -/
theorem ends_zoom {view : τ → σ} {replace : σ → τ → τ} {inner : Program ε σ α}
    {whole after : τ} {outcome : Except ε α} :
    Ends (Program.zoom view replace inner) whole outcome after ↔
      ∃ part, Ends inner (view whole) outcome part ∧ replace part whole = after := by
  constructor
  · rintro ⟨fuel, ended⟩
    obtain ⟨⟨found, part⟩, finished, same⟩ := Option.map_eq_some_iff.mp ended
    obtain ⟨rfl, rfl⟩ := Prod.mk.inj same
    exact ⟨part, ⟨fuel, finished⟩, rfl⟩
  · rintro ⟨part, ⟨fuel, finished⟩, rfl⟩
    exact ⟨fuel, by simp [Program.zoom, finished]⟩

/-- A program on a part returns as it does there. -/
theorem returns_zoom {view : τ → σ} {replace : σ → τ → τ} {inner : Program ε σ α}
    {whole after : τ} {value : α} :
    Returns (Program.zoom view replace inner) whole value after ↔
      ∃ part, Returns inner (view whole) value part ∧ replace part whole = after :=
  ends_zoom

/-- It raises what it does there. -/
theorem raises_zoom {view : τ → σ} {replace : σ → τ → τ} {inner : Program ε σ α}
    {whole after : τ} {failure : ε} :
    Raises (Program.zoom view replace inner) whole failure after ↔
      ∃ part, Raises inner (view whole) failure part ∧ replace part whole = after :=
  ends_zoom

/-- A component program halts within the larger state as it does alone. -/
theorem halts_zoom {view : τ → σ} {replace : σ → τ → τ} {inner : Program ε σ α} {whole : τ} :
    Halts (Program.zoom view replace inner) whole ↔ Halts inner (view whole) := by
  constructor
  · rintro ⟨fuel, ending, ended⟩
    obtain ⟨found, finished, -⟩ := Option.map_eq_some_iff.mp ended
    exact ⟨fuel, found, finished⟩
  · rintro ⟨fuel, ending, finished⟩
    exact ⟨fuel, _, by simp only [Program.zoom, finished, Option.map_some]; rfl⟩

/-- Attempting a program halts when that does. -/
theorem halts_attempt {ε' : Type} {inner : Program ε σ α} {state : σ} (halts : Halts inner state) :
    Halts (Program.attempt inner : Program ε' σ _) state := by
  obtain ⟨fuel, ending, finished⟩ := halts
  exact ⟨fuel, _, by simp only [Program.attempt, finished, Option.map_some]; rfl⟩

/-- Attempting a program returns its outcome. -/
theorem returns_attempt {ε' : Type} {inner : Program ε σ α} {state after : σ}
    {outcome : Except ε α} :
    Returns (Program.attempt inner : Program ε' σ _) state outcome after ↔
      Ends inner state outcome after := by
  constructor
  · rintro ⟨fuel, ended⟩
    obtain ⟨⟨found, final⟩, finished, same⟩ := Option.map_eq_some_iff.mp ended
    obtain ⟨result, rfl⟩ := Prod.mk.inj same
    obtain rfl := Except.ok.inj result
    exact ⟨fuel, finished⟩
  · rintro ⟨fuel, finished⟩
    exact ⟨fuel, by simp [Program.attempt, finished]⟩

/-- An attempt raises nothing. -/
@[simp]
theorem not_raises_attempt {ε' : Type} {inner : Program ε σ α} {state after : σ} {failure : ε'} :
    ¬ Raises (Program.attempt inner : Program ε' σ _) state failure after := by
  rintro ⟨fuel, ended⟩
  obtain ⟨found, -, same⟩ := Option.map_eq_some_iff.mp ended
  exact absurd (Prod.mk.inj same).1 (by simp)

/-- What a loop does after a turn: start the next one, or be finished. -/
def afterTurn (body : β → Program ε σ (Turn β α)) : Turn β α → Program ε σ α
  | .again next => Program.loop body next
  | .leave value => pure value

/-- An answer needs no fuel. -/
theorem run_pure (value : α) (fuel : Nat) (state : σ) :
    (pure value : Program ε σ α).run fuel state = some (.ok value, state) := rfl

/-- A loop ends exactly as one turn followed by what that turn asks for. The
turn's fuel is one less than the loop's, so both directions change the amount. -/
theorem loop_ends_iff (body : β → Program ε σ (Turn β α)) (position : β) (state : σ)
    (ending : Ending ε σ α) :
    (∃ fuel, (Program.loop body position).run fuel state = some ending) ↔
      ∃ fuel, (body position >>= afterTurn body).run fuel state = some ending := by
  constructor
  · rintro ⟨fuel, ended⟩
    cases fuel with
    | zero => simp [Program.loop, loopRun] at ended
    | succ fuel =>
      refine ⟨fuel, ?_⟩
      change ((body position).andThen (afterTurn body)).run fuel state = _
      change loopRun body (fuel + 1) position state = _ at ended
      cases turn : (body position).run fuel state with
      | none => simp [loopRun, turn] at ended
      | some result =>
        obtain ⟨outcome, after⟩ := result
        cases outcome with
        | error failure => simpa [loopRun, turn, Program.andThen] using ended
        | ok step =>
          cases step with
          | again next =>
            simpa [loopRun, turn, Program.andThen, afterTurn, Program.loop] using ended
          | leave value => simpa [loopRun, turn, Program.andThen, afterTurn, run_pure] using ended
  · rintro ⟨fuel, ended⟩
    refine ⟨fuel + 1, ?_⟩
    change ((body position).andThen (afterTurn body)).run fuel state = _ at ended
    change loopRun body (fuel + 1) position state = _
    cases turn : (body position).run fuel state with
    | none => simp [turn, Program.andThen] at ended
    | some result =>
      obtain ⟨outcome, after⟩ := result
      cases outcome with
      | error failure => simpa [loopRun, turn, Program.andThen] using ended
      | ok step =>
        cases step with
        | again next =>
          simpa [loopRun, turn, Program.andThen, afterTurn, Program.loop] using ended
        | leave value => simpa [loopRun, turn, Program.andThen, afterTurn, run_pure] using ended

/-- Unfold a returning loop by one turn. -/
theorem returns_loop {body : β → Program ε σ (Turn β α)} {position : β} {state after : σ}
    {value : α} :
    Returns (Program.loop body position) state value after ↔
      Returns (body position >>= afterTurn body) state value after :=
  loop_ends_iff body position state (.ok value, after)

/-- Unfold a halting loop by one turn. -/
theorem halts_loop {body : β → Program ε σ (Turn β α)} {position : β} {state : σ} :
    Halts (Program.loop body position) state ↔ Halts (body position >>= afterTurn body) state := by
  constructor
  · rintro ⟨fuel, ending, ended⟩
    obtain ⟨more, found⟩ := (loop_ends_iff body position state ending).mp ⟨fuel, ended⟩
    exact ⟨more, ending, found⟩
  · rintro ⟨fuel, ending, ended⟩
    obtain ⟨more, found⟩ := (loop_ends_iff body position state ending).mpr ⟨fuel, ended⟩
    exact ⟨more, ending, found⟩

/-- A turn that leaves makes its loop return. -/
theorem loop_leaves {body : β → Program ε σ (Turn β α)} {position : β} {state after : σ}
    {value : α} (turn : Returns (body position) state (.leave value) after) :
    Returns (Program.loop body position) state value after :=
  returns_loop.mpr (returns_bind.mpr ⟨_, _, turn, returns_pure.mpr ⟨rfl, rfl⟩⟩)

/-- A turn that goes on hands the loop over to its next position. -/
theorem loop_continues {body : β → Program ε σ (Turn β α)} {position next : β}
    {state middle after : σ} {value : α} (turn : Returns (body position) state (.again next) middle)
    (rest : Returns (Program.loop body next) middle value after) :
    Returns (Program.loop body position) state value after :=
  returns_loop.mpr (returns_bind.mpr ⟨_, _, turn, rest⟩)

/-- After a turn that goes on, a loop returns as it does from the next position. -/
theorem returns_loop_after {body : β → Program ε σ (Turn β α)} {position next : β}
    {state middle after : σ} {value : α} (turn : Returns (body position) state (.again next) middle) :
    Returns (Program.loop body position) state value after ↔
      Returns (Program.loop body next) middle value after :=
  returns_loop.trans (ends_after turn)

/-- A loop halts when every turn taken under its invariant halts, keeps the
invariant and decreases a natural number. The invariant relates position and
state, since a turn may change both. -/
theorem loop_halts {body : β → Program ε σ (Turn β α)} (invariant : β → σ → Prop)
    (measure : β → σ → Nat)
    (turnHalts : ∀ position state, invariant position state → Halts (body position) state)
    (decreases : ∀ position state next after, invariant position state →
      Returns (body position) state (.again next) after →
      invariant next after ∧ measure next after < measure position state)
    (position : β) (state : σ) (initial : invariant position state) :
    Halts (Program.loop body position) state := by
  generalize size : measure position state = count
  induction count using Nat.strong_induction_on generalizing position state with
  | h count inductionHypothesis =>
    apply halts_loop.mpr
    apply halts_bind (turnHalts position state initial)
    intro turn middle returned
    cases turn with
    | leave value => exact halts_atomic _ _
    | again next =>
      obtain ⟨kept, smaller⟩ := decreases position state next middle initial returned
      exact inductionHypothesis _ (by omega) next middle kept rfl

/-- A loop never ends when every turn taken under its invariant asks for another
turn and keeps the invariant. -/
theorem loop_diverges {body : β → Program ε σ (Turn β α)} (invariant : β → σ → Prop)
    (goesOn : ∀ position state, invariant position state →
      ∃ next after, Returns (body position) state (.again next) after ∧ invariant next after)
    (position : β) (state : σ) (initial : invariant position state) :
    ¬ Halts (Program.loop body position) state := by
  rintro ⟨fuel, ending, ended⟩
  change loopRun body fuel position state = some ending at ended
  induction fuel generalizing position state with
  | zero => simp [loopRun] at ended
  | succ fuel inductionHypothesis =>
    obtain ⟨next, after, turn, kept⟩ := goesOn position state initial
    cases actual : (body position).run fuel state with
    | none => simp [loopRun, actual] at ended
    | some result =>
      obtain ⟨enough, found⟩ := turn
      have same := ending_unique (body position) state fuel enough _ _ actual found
      subst same
      simp only [loopRun, actual] at ended
      exact inductionHypothesis next after kept ended

/-- Give the position of the next turn another name. -/
def Turn.rename (name : β → γ) : Turn β α → Turn γ α
  | .again next => .again (name next)
  | .leave value => .leave value

/-- Loops whose turns agree up to the names of their positions are one program. -/
theorem loop_rename {body : β → Program ε σ (Turn β α)} {other : γ → Program ε σ (Turn γ α)}
    (name : β → γ) (same : ∀ position, other (name position) =
      body position >>= fun turn => pure (turn.rename name)) (position : β) :
    Program.loop other (name position) = Program.loop body position := by
  refine Program.ext ?_
  funext fuel state
  change loopRun other fuel (name position) state = loopRun body fuel position state
  induction fuel generalizing position state with
  | zero => rfl
  | succ fuel inductionHypothesis =>
    have turn : (other (name position)).run fuel state =
        ((body position).andThen fun turn => pure (turn.rename name)).run fuel state := by
      rw [same]
      rfl
    simp only [loopRun, turn, Program.andThen]
    cases (body position).run fuel state with
    | none => rfl
    | some found =>
      obtain ⟨outcome, after⟩ := found
      cases outcome with
      | error failure => rfl
      | ok step =>
        cases step with
        | again next => exact inductionHypothesis next after
        | leave value => rfl

/-- The turns of a loop, each with the state it starts in: the first one, and the one after
every turn that goes on. -/
inductive Turns (body : β → Program ε σ (Turn β α)) (start : β) (initial : σ) : β → σ → Prop where
  | first : Turns body start initial start initial
  | next {position next : β} {state after : σ} (earlier : Turns body start initial position state)
      (turn : Returns (body position) state (.again next) after) :
      Turns body start initial next after

/-- The turns after one that goes on are turns of the loop. -/
theorem turns_after {body : β → Program ε σ (Turn β α)} {start second position : β}
    {initial middle state : σ} (turn : Returns (body start) initial (.again second) middle)
    (later : Turns body second middle position state) : Turns body start initial position state := by
  induction later with
  | first => exact .next .first turn
  | next _ last inductionHypothesis => exact .next inductionHypothesis last

/-- The turns of a loop are the first one and those from the next one on. -/
theorem turns_cases {body : β → Program ε σ (Turn β α)} {start position : β} {initial state : σ}
    (turns : Turns body start initial position state) :
    position = start ∧ state = initial ∨ ∃ second middle,
      Returns (body start) initial (.again second) middle ∧ Turns body second middle position state := by
  induction turns with
  | first => exact Or.inl ⟨rfl, rfl⟩
  | next _ turn inductionHypothesis =>
    rcases inductionHypothesis with ⟨rfl, rfl⟩ | ⟨second, middle, first, later⟩
    · exact Or.inr ⟨_, _, turn, .first⟩
    · exact Or.inr ⟨second, middle, first, later.next turn⟩

/-- From each of its turns a loop ends as it does from the first. -/
theorem ends_turns {body : β → Program ε σ (Turn β α)} {start position : β} {initial state after : σ}
    {outcome : Except ε α} (turns : Turns body start initial position state) :
    Ends (Program.loop body start) initial outcome after ↔
      Ends (Program.loop body position) state outcome after := by
  induction turns with
  | first => exact Iff.rfl
  | next _ turn inductionHypothesis =>
    rw [inductionHypothesis]
    exact (loop_ends_iff body _ _ (outcome, after)).trans (ends_after turn)

/-- A loop that ends has a last turn, which leaves or raises. -/
theorem ends_last_turn {body : β → Program ε σ (Turn β α)} {start : β} {initial after : σ}
    {outcome : Except ε α} (ended : Ends (Program.loop body start) initial outcome after) :
    ∃ position state, Turns body start initial position state ∧
      Ends (body position) state (outcome.map .leave) after := by
  obtain ⟨fuel, ended⟩ := ended
  change loopRun body fuel start initial = some (outcome, after) at ended
  induction fuel generalizing start initial with
  | zero => simp [loopRun] at ended
  | succ fuel inductionHypothesis =>
    simp only [loopRun] at ended
    cases turn : (body start).run fuel initial with
    | none => simp [turn] at ended
    | some result =>
      obtain ⟨found, middle⟩ := result
      simp only [turn] at ended
      cases found with
      | error failure =>
        obtain ⟨rfl, rfl⟩ := Prod.mk.inj (Option.some.inj ended)
        exact ⟨start, initial, .first, fuel, turn⟩
      | ok step =>
        cases step with
        | again next =>
          obtain ⟨position, state, later, last⟩ := inductionHypothesis ended
          exact ⟨position, state, turns_after ⟨fuel, turn⟩ later, last⟩
        | leave value =>
          obtain ⟨rfl, rfl⟩ := Prod.mk.inj (Option.some.inj ended)
          exact ⟨start, initial, .first, fuel, turn⟩

/-- Every ending of the first program, at any fuel, is the second's at the same
fuel. Recursive calls cut off at some depth are ordered this way by depth. -/
def Extends (first second : Program ε σ α) : Prop :=
  ∀ fuel state ending, first.run fuel state = some ending → second.run fuel state = some ending

/-- Every program extends itself. -/
theorem extends_refl (program : Program ε σ α) : Extends program program :=
  fun _ _ _ ended => ended

/-- Sequencing is monotone in both programs. -/
theorem extends_bind {first longer : Program ε σ α} {next other : α → Program ε σ β}
    (initial : Extends first longer) (following : ∀ value, Extends (next value) (other value)) :
    Extends (first >>= next) (longer >>= other) := by
  intro fuel state ending ended
  change (first.andThen next).run fuel state = _ at ended
  change (longer.andThen other).run fuel state = _
  cases started : first.run fuel state with
  | none => simp [Program.andThen, started] at ended
  | some result =>
    obtain ⟨outcome, after⟩ := result
    have same := initial fuel state _ started
    cases outcome with
    | error failure => simpa [Program.andThen, started, same] using ended
    | ok value =>
      simp only [Program.andThen, started] at ended
      simpa only [Program.andThen, same] using following value fuel after ending ended

/-- Loops are monotone in their bodies. -/
theorem extends_loop {body other : β → Program ε σ (Turn β α)}
    (turns : ∀ position, Extends (body position) (other position)) (position : β) :
    Extends (Program.loop body position) (Program.loop other position) := by
  intro fuel state ending ended
  change loopRun body fuel position state = _ at ended
  change loopRun other fuel position state = _
  induction fuel generalizing position state with
  | zero => simp [loopRun] at ended
  | succ fuel inductionHypothesis =>
    cases turn : (body position).run fuel state with
    | none => simp [loopRun, turn] at ended
    | some result =>
      obtain ⟨outcome, after⟩ := result
      have same := turns position fuel state _ turn
      cases outcome with
      | error failure => simpa [loopRun, turn, same] using ended
      | ok step =>
        cases step with
        | again next =>
          simp only [loopRun, turn] at ended
          simpa only [loopRun, same] using inductionHypothesis next after ended
        | leave value => simpa [loopRun, turn, same] using ended

/-- Recursive calls, given by what they do within each recursion depth. The depth
grows with the fuel, so a call that needs only finitely many levels ends. -/
def Program.recursive (within : Nat → β → Program ε σ α)
    (grows : ∀ depth argument, Extends (within depth argument) (within (depth + 1) argument))
    (argument : β) : Program ε σ α where
  run fuel state := (within fuel argument).run fuel state
  stable fuel more state ending enough ended := by
    have deeper : Extends (within fuel argument) (within more argument) := by
      induction enough with
      | refl => exact extends_refl _
      | step _ inductionHypothesis =>
        intro spent initial result found
        exact grows _ argument spent initial result (inductionHypothesis spent initial result found)
    exact deeper more state ending ((within fuel argument).stable fuel more state ending enough ended)

/-- What a call returns within some recursion depth, it returns. -/
theorem returns_recursive {within : Nat → β → Program ε σ α}
    {grows : ∀ depth argument, Extends (within depth argument) (within (depth + 1) argument)}
    {argument : β} (depth : Nat) {state after : σ} {value : α}
    (returned : Returns (within depth argument) state value after) :
    Returns (Program.recursive within grows argument) state value after := by
  obtain ⟨fuel, ended⟩ := returned
  refine ⟨max depth fuel, ?_⟩
  have enough := (within depth argument).stable fuel (max depth fuel) state _
    (Nat.le_max_right _ _) ended
  have deeper : ∀ extra, Extends (within depth argument) (within (depth + extra) argument) := by
    intro extra
    induction extra with
    | zero => exact extends_refl _
    | succ extra inductionHypothesis =>
      intro spent initial result found
      exact grows _ argument spent initial result (inductionHypothesis spent initial result found)
  have reached := deeper (max depth fuel - depth) _ _ _ enough
  rwa [Nat.add_sub_of_le (Nat.le_max_left depth fuel)] at reached

/-- However the program ends, the state it leaves is related to the one it starts in. -/
def Carries (related : σ → σ → Prop) (program : Program ε σ α) : Prop :=
  ∀ state outcome after, Ends program state outcome after → related state after

section Carrying

variable {related : σ → σ → Prop}

/-- An answer carries every reflexive relation. -/
theorem carries_pure (refl : ∀ state, related state state) (value : α) :
    Carries related (pure value : Program ε σ α) := by
  intro state outcome after ended
  obtain ⟨-, rfl⟩ := ends_pure.mp ended
  exact refl state

/-- So does an exception. -/
theorem carries_raise (refl : ∀ state, related state state) (failure : ε) :
    Carries related (Program.raise failure : Program ε σ α) := by
  intro state outcome after ended
  obtain ⟨-, rfl⟩ := ends_raise.mp ended
  exact refl state

/-- A program that diverges carries everything. -/
theorem carries_diverge : Carries related (Program.diverge : Program ε σ α) :=
  fun _ _ _ ended => absurd ended not_ends_diverge

/-- An operation carries a relation that it keeps from every state. -/
theorem carries_atomic {operation : σ → Ending ε σ α}
    (relates : ∀ state, related state (operation state).2) :
    Carries related (Program.atomic operation) := by
  intro state outcome after ended
  have final := relates state
  rwa [ends_atomic.mp ended] at final

/-- A sequence relates its states by way of the state between its parts. -/
theorem carries_bind
    (trans : ∀ one two three, related one two → related two three → related one three)
    {first : Program ε σ α} {next : α → Program ε σ β} (initial : Carries related first)
    (following : ∀ value, Carries related (next value)) : Carries related (first >>= next) := by
  intro state outcome after ended
  rcases ends_bind.mp ended with ⟨failure, raised, -⟩ | ⟨value, middle, returned, rest⟩
  · exact initial state _ after raised
  · exact trans _ _ _ (initial state _ middle returned) (following value middle outcome after rest)

/-- A part of the state that is related to itself relates the whole. -/
theorem carries_zoom {whole : τ → τ → Prop} {view : τ → σ} {replace : σ → τ → τ}
    {inner : Program ε σ α} (carries : Carries related inner)
    (relates : ∀ state result, related (view state) result → whole state (replace result state)) :
    Carries whole (inner.zoom view replace) := by
  intro state outcome after ended
  obtain ⟨part, inside, rfl⟩ := ends_zoom.mp ended
  exact relates state part (carries _ outcome part inside)

end Carrying

/-- Calls made one after another on one state. An exception ends its own call
only; the caller goes on with the state it left. -/
inductive Session {ι : Type} (semantics : ι → Program ε σ α) :
    σ → List (ι × Except ε α) → σ → Prop
  | done (state : σ) : Session semantics state [] state
  | call (state middle after : σ) (request : ι) (outcome : Except ε α)
      (rest : List (ι × Except ε α)) (ended : Ends (semantics request) state outcome middle)
      (later : Session semantics middle rest after) :
      Session semantics state ((request, outcome) :: rest) after

/-- What a reference answers to the same calls, and the state it ends in. -/
def replay {ι : Type} (reference : ι → τ → Except ε α × τ) :
    List ι → τ → List (ι × Except ε α) × τ
  | [], state => ([], state)
  | request :: rest, state =>
    let answer := reference request state
    let later := replay reference rest answer.2
    ((request, answer.1) :: later.1, later.2)

/-- Calls that each simulate the reference make up a session with exactly the
reference's outcomes, and the final states are related again. -/
theorem session_simulates {ι : Type} (semantics : ι → Program ε σ α)
    (reference : ι → τ → Except ε α × τ) (related : σ → τ → Prop) (admissible : ι → Prop)
    (simulates : ∀ request state abstract, admissible request → related state abstract →
      ∃ after, Ends (semantics request) state (reference request abstract).1 after ∧
        related after (reference request abstract).2)
    (requests : List ι) (state : σ) (abstract : τ) (initial : related state abstract)
    (allowed : ∀ request ∈ requests, admissible request) :
    ∃ final, Session semantics state (replay reference requests abstract).1 final ∧
      related final (replay reference requests abstract).2 := by
  induction requests generalizing state abstract with
  | nil => exact ⟨state, .done state, initial⟩
  | cons request rest inductionHypothesis =>
    obtain ⟨middle, ended, kept⟩ := simulates request state abstract (allowed request (by simp)) initial
    obtain ⟨final, later, last⟩ := inductionHypothesis middle _ kept
      fun other member => allowed other (by simp [member])
    exact ⟨final, .call state middle final request _ _ ended later, last⟩

end Vx68k.Programs
