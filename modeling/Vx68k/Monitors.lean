import Mathlib.Data.List.Basic
import Mathlib.Tactic.Ring

/-!
# Threads that share a state under a lock

Any number of threads call procedures on a shared state. A call first takes the lock; a
thread that holds it works on the state, goes to sleep on the condition, wakes a sleeper
or leaves. A sleeper gives up the lock and takes it again after it has been woken, which
may also happen without a reason. Threads take their steps in any order.

What the procedures do is a parameter, and so are the assertions at their places. There
are three rules. Assertions that every step keeps hold in every run. When the work to
be done is accounted for by threads on their way, no sleeper is left with work to be
done. When every step comes closer to the end of its call, all calls end or sleep.
-/

namespace Vx68k.Monitors

variable {Local Shared : Type}

/-- What a thread that holds the lock does next. A fault is a step that the source gives
no meaning to. -/
inductive Move (Local Shared : Type) where
  | work (next : Local) (shared : Shared)
  | wait (next : Local)
  | signal (next : Local)
  | leave
  | fault
deriving DecidableEq

/-- The places at which calls may start, and what is done at each place. -/
structure Code (Local Shared : Type) where
  entry : Local → Prop
  move : Local → Shared → Move Local Shared

/-- Where a thread stands. -/
inductive Thread (Local : Type) where
  | outside
  | entering (place : Local)
  | holding (place : Local)
  | asleep (place : Local)
deriving DecidableEq

/-- The shared state, the thread that owns the lock and all threads. -/
structure System (Local Shared : Type) where
  shared : Shared
  owner : Option Nat
  threads : List (Thread Local)

/-- Threads that have made no call yet. -/
def System.idle (shared : Shared) (count : Nat) : System Local Shared :=
  ⟨shared, none, List.replicate count .outside⟩

/-- What one thread does: it starts a call, takes the lock, takes a step, ends its call or is
woken. -/
inductive Event (Local : Type) where
  | start (thread : Nat) (place : Local)
  | acquire (thread : Nat)
  | act (thread : Nat)
  | finish (thread : Nat) (place : Local)
  | wake (thread : Nat)
deriving DecidableEq

/-- The places at which calls have been left, in order. -/
def finished (events : List (Event Local)) : List Local :=
  events.filterMap fun
    | .finish _ place => some place
    | _ => none

/-- The places of more events come after the first ones. -/
@[simp]
theorem finished_append (front back : List (Event Local)) :
    finished (front ++ back) = finished front ++ finished back := List.filterMap_append

/-- One step of one thread. A signal wakes one of the sleepers, if there are any. -/
inductive Step (code : Code Local Shared) :
    System Local Shared → Event Local → System Local Shared → Prop where
  | start {s : System Local Shared} {i : Nat} {place : Local}
      (here : s.threads[i]? = some .outside) (begins : code.entry place) :
      Step code s (.start i place) { s with threads := s.threads.set i (.entering place) }
  | acquire {s : System Local Shared} {i : Nat} {place : Local}
      (here : s.threads[i]? = some (.entering place)) (free : s.owner = none) :
      Step code s (.acquire i)
        { s with owner := some i, threads := s.threads.set i (.holding place) }
  | work {s : System Local Shared} {i : Nat} {place next : Local} {shared : Shared}
      (here : s.threads[i]? = some (.holding place))
      (moves : code.move place s.shared = .work next shared) :
      Step code s (.act i)
        { s with shared := shared, threads := s.threads.set i (.holding next) }
  | wait {s : System Local Shared} {i : Nat} {place next : Local}
      (here : s.threads[i]? = some (.holding place)) (moves : code.move place s.shared = .wait next) :
      Step code s (.act i) { s with owner := none, threads := s.threads.set i (.asleep next) }
  | signal {s : System Local Shared} {i j : Nat} {place next sleeper : Local}
      (here : s.threads[i]? = some (.holding place))
      (moves : code.move place s.shared = .signal next)
      (there : s.threads[j]? = some (.asleep sleeper)) :
      Step code s (.act i)
        { s with threads := (s.threads.set i (.holding next)).set j (.entering sleeper) }
  | signalNobody {s : System Local Shared} {i : Nat} {place next : Local}
      (here : s.threads[i]? = some (.holding place))
      (moves : code.move place s.shared = .signal next)
      (nobody : ∀ sleeper, .asleep sleeper ∉ s.threads) :
      Step code s (.act i) { s with threads := s.threads.set i (.holding next) }
  | finish {s : System Local Shared} {i : Nat} {place : Local}
      (here : s.threads[i]? = some (.holding place)) (moves : code.move place s.shared = .leave) :
      Step code s (.finish i place) { s with owner := none, threads := s.threads.set i .outside }
  | wake {s : System Local Shared} {i : Nat} {place : Local}
      (here : s.threads[i]? = some (.asleep place)) :
      Step code s (.wake i) { s with threads := s.threads.set i (.entering place) }

/-- Steps one after the other. -/
inductive Run (code : Code Local Shared) :
    System Local Shared → List (Event Local) → System Local Shared → Prop where
  | stop (s : System Local Shared) : Run code s [] s
  | step {s middle after : System Local Shared} {events : List (Event Local)} {event : Event Local}
      (run : Run code s events middle) (step : Step code middle event after) :
      Run code s (events ++ [event]) after

variable {code : Code Local Shared} {s middle after : System Local Shared} {event : Event Local}

/-- A run goes on with another one. -/
theorem Run.append {events later : List (Event Local)} (first : Run code s events middle)
    (second : Run code middle later after) : Run code s (events ++ later) after := by
  induction second with
  | stop => rwa [List.append_nil]
  | step run step inductionHypothesis =>
    rw [← List.append_assoc]
    exact .step inductionHypothesis step

/-- Threads neither begin nor end. -/
theorem length_run {events : List (Event Local)} (run : Run code s events after) :
    after.threads.length = s.threads.length := by
  induction run with
  | stop => rfl
  | step run step inductionHypothesis =>
    rw [← inductionHypothesis]
    cases step <;> simp only [List.length_set]

/-- A thread stands where it has been put, and the others where they stood. -/
theorem stands_set {threads : List (Thread Local)} {i j : Nat} {old new other : Thread Local}
    (here : threads[i]? = some old) :
    (threads.set i new)[j]? = some other ↔
      j = i ∧ other = new ∨ j ≠ i ∧ threads[j]? = some other := by
  obtain ⟨inside, -⟩ := List.getElem?_eq_some_iff.mp here
  rw [List.getElem?_set]
  by_cases same : i = j
  · subst same
    simp [inside, eq_comm]
  · simp [same, Ne.symm same]

/-- A sleeper is not the thread that holds the lock, and stands where it stood. -/
theorem stands_apart {threads : List (Thread Local)} {i j : Nat} {place sleeper : Local}
    (here : threads[i]? = some (.holding place)) (there : threads[j]? = some (.asleep sleeper))
    (new : Thread Local) :
    j ≠ i ∧ (threads.set i new)[j]? = some (.asleep sleeper) := by
  have apart : j ≠ i := by
    rintro rfl
    cases here.symm.trans there
  exact ⟨apart, (stands_set here).mpr (Or.inr ⟨apart, there⟩)⟩

/-- The lock is owned by the one thread that holds it. -/
def Exclusive (s : System Local Shared) : Prop :=
  ∀ i, (∃ place, s.threads[i]? = some (.holding place)) ↔ s.owner = some i

/-- At first nobody holds the lock. -/
theorem exclusive_idle (shared : Shared) (count : Nat) :
    Exclusive (System.idle shared count : System Local Shared) := by
  refine fun i => iff_of_false ?_ nofun
  rintro ⟨place, here⟩
  cases List.eq_of_mem_replicate (List.mem_of_getElem? here)

/-- The holder of the lock owns it. -/
theorem Exclusive.owns (exclusive : Exclusive s) {i : Nat} {place : Local}
    (here : s.threads[i]? = some (.holding place)) : s.owner = some i := (exclusive i).mp ⟨place, here⟩

/-- Only the holder stands at a place under the lock. -/
theorem Exclusive.alone (exclusive : Exclusive s) {i j : Nat} {place other : Local}
    (here : s.threads[i]? = some (.holding place))
    (there : s.threads[j]? = some (.holding other)) : j = i :=
  Option.some.inj ((exclusive.owns there).symm.trans (exclusive.owns here))

/-- One thread moves, and the lock changes its owner accordingly. -/
theorem exclusive_set (exclusive : Exclusive s) {i : Nat} {old new : Thread Local}
    {owner : Option Nat} (here : s.threads[i]? = some old) (shared : Shared)
    (mine : (∃ place, new = .holding place) ↔ owner = some i)
    (others : ∀ j, j ≠ i → (owner = some j ↔ s.owner = some j)) :
    Exclusive ⟨shared, owner, s.threads.set i new⟩ := by
  intro j
  by_cases same : j = i
  · subst same
    simp only [stands_set here]
    rw [← mine]
    simp [eq_comm]
  · simp only [stands_set here]
    rw [others j same, ← exclusive j]
    simp [same]

/-- Two threads never hold the lock. -/
theorem exclusive_step (exclusive : Exclusive s) (step : Step code s event after) :
    Exclusive after := by
  cases step with
  | start here begins =>
    have unowned := mt (exclusive _).mpr (by rintro ⟨place, held⟩; cases here.symm.trans held)
    exact exclusive_set exclusive here _ (by simp [unowned]) fun j _ => Iff.rfl
  | acquire here free =>
    refine exclusive_set exclusive here _ (by simp) fun j other => ?_
    simp [free, Ne.symm other]
  | work here moves =>
    exact exclusive_set exclusive here _ (by simp [exclusive.owns here]) fun j _ => Iff.rfl
  | wait here moves =>
    refine exclusive_set exclusive here _ (by simp) fun j other => ?_
    simp [exclusive.owns here, Ne.symm other]
  | @signal i j place next sleeper here moves there =>
    obtain ⟨apart, asleep⟩ := stands_apart here there (.holding next)
    have signalled : Exclusive { s with threads := s.threads.set i (.holding next) } :=
      exclusive_set exclusive here s.shared (by simp [exclusive.owns here]) fun j _ => Iff.rfl
    exact exclusive_set signalled asleep _ (by simp [exclusive.owns here, apart.symm]) fun j _ => Iff.rfl
  | signalNobody here moves nobody =>
    exact exclusive_set exclusive here _ (by simp [exclusive.owns here]) fun j _ => Iff.rfl
  | finish here moves =>
    refine exclusive_set exclusive here _ (by simp) fun j other => ?_
    simp [exclusive.owns here, Ne.symm other]
  | wake here =>
    have unowned := mt (exclusive _).mpr (by rintro ⟨place, held⟩; cases here.symm.trans held)
    exact exclusive_set exclusive here _ (by simp [unowned]) fun j _ => Iff.rfl

/-- Assertions about the shared state: one while the lock is free, and one at each place for
the thread that holds it there. They may speak of the calls finished so far. -/
structure Contract (code : Code Local Shared) where
  free : List Local → Shared → Prop
  atPlace : List Local → Local → Shared → Prop
  enters : ∀ history place shared, code.entry place → free history shared →
    atPlace history place shared
  works : ∀ history place shared next changed, atPlace history place shared →
    code.move place shared = .work next changed → atPlace history next changed
  waits : ∀ history place shared next, atPlace history place shared →
    code.move place shared = .wait next →
      free history shared ∧ ∀ later other, free later other → atPlace later next other
  signals : ∀ history place shared next, atPlace history place shared →
    code.move place shared = .signal next → atPlace history next shared
  leaves : ∀ history place shared, atPlace history place shared → code.move place shared = .leave →
    free (history ++ [place]) shared
  faultless : ∀ history place shared, atPlace history place shared → code.move place shared ≠ .fault

namespace Contract

variable (contract : Contract code) {history : List Local}

/-- What the assertions say of a thread. One that waits for the lock may take it as soon as it
is free. -/
def Fits (history : List Local) (shared : Shared) : Thread Local → Prop
  | .outside => True
  | .entering place | .asleep place =>
    ∀ later other, contract.free later other → contract.atPlace later place other
  | .holding place => contract.atPlace history place shared

/-- The assertions hold in a state. -/
structure Holds (history : List Local) (s : System Local Shared) : Prop where
  exclusive : Exclusive s
  free : s.owner = none → contract.free history s.shared
  fits : ∀ (i : Nat) thread, s.threads[i]? = some thread → contract.Fits history s.shared thread

variable {contract}

/-- What is said of threads without the lock does not depend on the state. -/
theorem fits_elsewhere {shared changed : Shared} {later : List Local} {thread : Thread Local}
    (fits : contract.Fits history shared thread) (without : ∀ place, thread ≠ .holding place) :
    contract.Fits later changed thread := by
  cases thread with
  | outside => trivial
  | entering place => exact fits
  | holding place => exact absurd rfl (without place)
  | asleep place => exact fits

/-- The holder of the lock moves; the others keep their assertions. -/
theorem fits_set (holds : contract.Holds history s) {i : Nat} {place : Local}
    {new : Thread Local} {changed : Shared} {later : List Local}
    (here : s.threads[i]? = some (.holding place)) (fits : contract.Fits later changed new) :
    ∀ (j : Nat) thread, (s.threads.set i new)[j]? = some thread → contract.Fits later changed thread := by
  intro j thread there
  rcases (stands_set here).mp there with ⟨-, rfl⟩ | ⟨apart, stood⟩
  · exact fits
  · refine fits_elsewhere (holds.fits j thread stood) ?_
    rintro other rfl
    exact apart (holds.exclusive.alone here stood)

/-- A thread without the lock moves. -/
theorem fits_put (holds : contract.Holds history s) {i : Nat} {old new : Thread Local}
    (here : s.threads[i]? = some old) (fits : contract.Fits history s.shared new) :
    ∀ (j : Nat) thread, (s.threads.set i new)[j]? = some thread →
      contract.Fits history s.shared thread := by
  intro j thread there
  rcases (stands_set here).mp there with ⟨-, rfl⟩ | ⟨-, stood⟩
  · exact fits
  · exact holds.fits j thread stood

/-- Every step keeps the assertions. -/
theorem holds_step (holds : contract.Holds history s) (step : Step code s event after) :
    contract.Holds (history ++ finished [event]) after := by
  have exclusive := exclusive_step holds.exclusive step
  cases step with
  | start here begins =>
    simp only [finished, List.filterMap_cons, List.filterMap_nil, List.append_nil]
    refine ⟨exclusive, holds.free, fits_put holds here fun later other free => ?_⟩
    exact contract.enters later _ other begins free
  | acquire here free =>
    simp only [finished, List.filterMap_cons, List.filterMap_nil, List.append_nil]
    refine ⟨exclusive, nofun, fits_put holds here ?_⟩
    exact holds.fits _ _ here _ _ (holds.free free)
  | work here moves =>
    simp only [finished, List.filterMap_cons, List.filterMap_nil, List.append_nil]
    refine ⟨exclusive, fun unowned => ?_, fits_set holds here ?_⟩
    · cases unowned.symm.trans (holds.exclusive.owns here)
    · exact contract.works _ _ _ _ _ (holds.fits _ _ here) moves
  | wait here moves =>
    simp only [finished, List.filterMap_cons, List.filterMap_nil, List.append_nil]
    obtain ⟨free, again⟩ := contract.waits _ _ _ _ (holds.fits _ _ here) moves
    exact ⟨exclusive, fun _ => free, fits_set holds here again⟩
  | @signal i j place next sleeper here moves there =>
    simp only [finished, List.filterMap_cons, List.filterMap_nil, List.append_nil]
    obtain ⟨apart, asleep⟩ := stands_apart here there (.holding next)
    have signalled : contract.Fits history s.shared (.holding next) :=
      contract.signals _ _ _ _ (holds.fits _ _ here) moves
    have woken : contract.Fits history s.shared (.entering sleeper) :=
      holds.fits j (.asleep sleeper) there
    refine ⟨exclusive, fun unowned => ?_, fun k thread stands => ?_⟩
    · cases unowned.symm.trans (holds.exclusive.owns here)
    · rcases (stands_set asleep).mp stands with ⟨-, rfl⟩ | ⟨-, stood⟩
      · exact woken
      · exact fits_set holds here signalled k thread stood
  | signalNobody here moves nobody =>
    simp only [finished, List.filterMap_cons, List.filterMap_nil, List.append_nil]
    refine ⟨exclusive, fun unowned => ?_, fits_set holds here ?_⟩
    · cases unowned.symm.trans (holds.exclusive.owns here)
    · exact contract.signals _ _ _ _ (holds.fits _ _ here) moves
  | finish here moves =>
    have free := contract.leaves _ _ _ (holds.fits _ _ here) moves
    exact ⟨exclusive, fun _ => free, fits_set holds here trivial⟩
  | @wake i place here =>
    simp only [finished, List.filterMap_cons, List.filterMap_nil, List.append_nil]
    have woken : contract.Fits history s.shared (.entering place) :=
      holds.fits i (.asleep place) here
    exact ⟨exclusive, holds.free, fits_put holds here woken⟩

/-- The assertions hold after every run. -/
theorem holds_run {events : List (Event Local)} (holds : contract.Holds history s)
    (run : Run code s events after) : contract.Holds (history ++ finished events) after := by
  induction run with
  | stop => simpa [finished] using holds
  | step run step inductionHypothesis =>
    rw [finished_append, ← List.append_assoc]
    exact holds_step inductionHypothesis step

/-- In every run from threads outside, the assertions hold, if they hold of the first shared
state with the lock free. -/
theorem holds_idle (contract : Contract code) {shared : Shared} {count : Nat}
    {events : List (Event Local)} (initial : contract.free [] shared)
    (run : Run code (.idle shared count) events s) : contract.Holds (finished events) s := by
  have begins : contract.Holds [] (.idle shared count) := by
    refine ⟨exclusive_idle shared count, fun _ => initial, fun i thread here => ?_⟩
    rw [List.eq_of_mem_replicate (List.mem_of_getElem? here)]
    trivial
  exact holds_run begins run

end Contract

/-- The sum of a cost of every thread. -/
def total (cost : Thread Local → Nat) (threads : List (Thread Local)) : Nat :=
  (threads.map cost).sum

/-- When one thread moves, the total changes by its cost. -/
theorem total_set (cost : Thread Local → Nat) {threads : List (Thread Local)} {i : Nat}
    {old : Thread Local} (here : threads[i]? = some old) (new : Thread Local) :
    total cost (threads.set i new) + cost old = total cost threads + cost new := by
  induction threads generalizing i with
  | nil => simp at here
  | cons thread rest inductionHypothesis =>
    cases i with
    | zero =>
      obtain rfl : thread = old := by simpa using here
      simp only [total, List.set_cons_zero, List.map_cons, List.sum_cons]
      omega
    | succ i =>
      have moved := inductionHypothesis (i := i) (by simpa using here)
      simp only [total, List.set_cons_succ, List.map_cons, List.sum_cons] at moved ⊢
      omega

/-- A bound for one thread bounds the total. -/
theorem total_le {cost : Thread Local → Nat} {bound : Nat} (bounded : ∀ thread, cost thread ≤ bound)
    (threads : List (Thread Local)) : total cost threads ≤ bound * threads.length := by
  induction threads with
  | nil => exact Nat.zero_le _
  | cons thread rest inductionHypothesis =>
    have first := bounded thread
    simp only [total, List.map_cons, List.sum_cons, List.length_cons, Nat.mul_succ] at *
    omega

/-- A sleeper was asleep before one thread has moved, or is that thread. -/
theorem asleep_set {threads : List (Thread Local)} {i : Nat} {new : Thread Local} {place : Local}
    (member : .asleep place ∈ threads.set i new) :
    .asleep place ∈ threads ∨ .asleep place = new := List.mem_or_eq_of_mem_set member

/-- What holds of every place that sleep begins at holds of every sleeper. -/
theorem sleepers_step {good : Local → Prop}
    (waits : ∀ place shared next, code.move place shared = .wait next → good next)
    (sleepers : ∀ place, .asleep place ∈ s.threads → good place) (step : Step code s event after) :
    ∀ place, .asleep place ∈ after.threads → good place := by
  intro sleeping member
  cases step with
  | wait here moves =>
    rcases asleep_set member with before | same
    · exact sleepers sleeping before
    · obtain rfl := Thread.asleep.inj same
      exact waits _ _ _ moves
  | signal here moves there =>
    rcases asleep_set member with before | impossible
    · exact sleepers sleeping ((asleep_set before).resolve_right nofun)
    · cases impossible
  | start here => exact sleepers sleeping ((asleep_set member).resolve_right nofun)
  | acquire here => exact sleepers sleeping ((asleep_set member).resolve_right nofun)
  | work here => exact sleepers sleeping ((asleep_set member).resolve_right nofun)
  | signalNobody here => exact sleepers sleeping ((asleep_set member).resolve_right nofun)
  | finish here => exact sleepers sleeping ((asleep_set member).resolve_right nofun)
  | wake here => exact sleepers sleeping ((asleep_set member).resolve_right nofun)

/-- Threads that have made no call do not sleep. -/
theorem idle_awake {shared : Shared} {count : Nat} (place : Local) :
    .asleep place ∉ (System.idle shared count).threads :=
  fun member => nomatch List.eq_of_mem_replicate member

/-- In every run from threads outside, it holds of the sleepers. -/
theorem sleepers_idle {good : Local → Prop}
    (waits : ∀ place shared next, code.move place shared = .wait next → good next)
    {shared : Shared} {count : Nat} {events : List (Event Local)}
    (run : Run code (.idle shared count) events s) :
    ∀ place, .asleep place ∈ s.threads → good place := by
  generalize begun : System.idle shared count = first at run
  induction run with
  | stop =>
    subst begun
    exact fun place member => absurd member (idle_awake place)
  | step run step inductionHypothesis => exact sleepers_step waits inductionHypothesis step

/-- The work that a thread on its way accounts for. -/
def weigh (weight : Local → Nat) : Thread Local → Nat
  | .entering place | .holding place => weight place
  | .outside | .asleep _ => 0

/-- The work to be done, and how much of it a thread at a place accounts for. A thread that
adds work has to account for it until it has woken a sleeper, which then does. -/
structure Account (contract : Contract code) where
  need : Shared → Nat
  weight : Local → Nat
  woken : Nat
  works : ∀ history place shared next changed, contract.atPlace history place shared →
    code.move place shared = .work next changed →
      need changed + weight place ≤ need shared + weight next
  waits : ∀ place shared next, code.move place shared = .wait next →
    need shared = 0 ∧ woken ≤ weight next
  signals : ∀ place shared next, code.move place shared = .signal next →
    weight place ≤ weight next + woken
  leaves : ∀ place shared, code.move place shared = .leave → weight place = 0

namespace Account

variable {contract : Contract code} (account : Account contract) {history : List Local}

/-- While a thread sleeps, the work to be done is accounted for, and every sleeper will account
for its part once it is woken. -/
structure Covers (s : System Local Shared) : Prop where
  sleepers : ∀ place, .asleep place ∈ s.threads → account.woken ≤ account.weight place
  need : ∀ place, .asleep place ∈ s.threads →
    account.need s.shared ≤ total (weigh account.weight) s.threads

variable {account}

/-- Every step keeps the work accounted for. -/
theorem covers_step (covers : account.Covers s) (holds : contract.Holds history s)
    (step : Step code s event after) : account.Covers after := by
  refine ⟨sleepers_step (fun place shared next moves => (account.waits place shared next moves).2)
    covers.sleepers step, fun sleeping member => ?_⟩
  cases step with
  | @start i place here begins =>
    have before := covers.need sleeping ((asleep_set member).resolve_right nofun)
    have moved := total_set (weigh account.weight) here (.entering place)
    simp only [weigh] at moved ⊢
    omega
  | @acquire i place here free =>
    have before := covers.need sleeping ((asleep_set member).resolve_right nofun)
    have moved := total_set (weigh account.weight) here (.holding place)
    simp only [weigh] at moved ⊢
    omega
  | @work i place next changed here moves =>
    have before := covers.need sleeping ((asleep_set member).resolve_right nofun)
    have moved := total_set (weigh account.weight) here (.holding next)
    have accounted := account.works _ _ _ _ _ (holds.fits _ _ here) moves
    simp only [weigh] at moved ⊢
    omega
  | wait here moves =>
    have nothing := (account.waits _ _ _ moves).1
    simp only
    omega
  | @signal i j place next sleeper here moves there =>
    have asleep := List.mem_of_getElem? there
    have before := covers.need sleeper asleep
    have ready := covers.sleepers sleeper asleep
    have first := total_set (weigh account.weight) here (.holding next)
    have second := total_set (weigh account.weight) (stands_apart here there (.holding next)).2
      (.entering sleeper)
    have handed := account.signals _ _ _ moves
    simp only [weigh] at first second ⊢
    omega
  | signalNobody here moves nobody =>
    exact absurd ((asleep_set member).resolve_right nofun) (nobody sleeping)
  | finish here moves =>
    have before := covers.need sleeping ((asleep_set member).resolve_right nofun)
    have moved := total_set (weigh account.weight) here .outside
    have settled := account.leaves _ _ moves
    simp only [weigh] at moved ⊢
    omega
  | @wake i place here =>
    have before := covers.need place (List.mem_of_getElem? here)
    have moved := total_set (weigh account.weight) here (.entering place)
    simp only [weigh] at moved ⊢
    omega

/-- In every run from threads outside, the work is accounted for while a thread sleeps. -/
theorem covers_idle (account : Account contract) {shared : Shared} {count : Nat}
    {events : List (Event Local)} (initial : contract.free [] shared)
    (run : Run code (.idle shared count) events s) : account.Covers s := by
  generalize begun : System.idle shared count = first at run
  induction run with
  | stop =>
    subst begun
    exact ⟨fun place member => absurd member (idle_awake place),
      fun place member => absurd member (idle_awake place)⟩
  | step run step inductionHypothesis =>
    exact covers_step inductionHypothesis (contract.holds_idle initial (begun ▸ run)) step

end Account

/-- The event is a step of a call that has been made, for which it was ready. -/
def Event.Internal : Event Local → Prop
  | .acquire _ | .act _ | .finish _ _ => True
  | .start _ _ | .wake _ => False

/-- Nobody is on the way any more: the threads are outside or asleep. -/
def Settled (s : System Local Shared) : Prop :=
  ∀ thread ∈ s.threads, thread = .outside ∨ ∃ place, thread = .asleep place

/-- As long as a thread is on its way, one of these can take a step.

Proof: the owner of the lock can, and without an owner whoever waits for the lock can. -/
theorem settled_of_stuck {contract : Contract code} {history : List Local}
    (holds : contract.Holds history s)
    (stuck : ∀ event after, Step code s event after → ¬ event.Internal) : Settled s := by
  have nobody (i : Nat) (place : Local) : s.threads[i]? ≠ some (.holding place) := by
    intro here
    cases moves : code.move place s.shared with
    | work next changed => exact stuck _ _ (.work here moves) trivial
    | wait next => exact stuck _ _ (.wait here moves) trivial
    | signal next =>
      by_cases sleeper : ∃ sleeping, .asleep sleeping ∈ s.threads
      · obtain ⟨sleeping, member⟩ := sleeper
        obtain ⟨j, there⟩ := List.getElem?_of_mem member
        exact stuck _ _ (.signal here moves there) trivial
      · exact stuck _ _ (.signalNobody here moves (not_exists.mp sleeper)) trivial
    | leave => exact stuck _ _ (.finish here moves) trivial
    | fault => exact contract.faultless _ _ _ (holds.fits _ _ here) moves
  intro thread member
  obtain ⟨i, here⟩ := List.getElem?_of_mem member
  cases thread with
  | outside => exact Or.inl rfl
  | entering place =>
    have free : s.owner = none := by
      cases owned : s.owner with
      | none => rfl
      | some j =>
        obtain ⟨held, stands⟩ := (holds.exclusive j).mpr owned
        exact absurd stands (nobody j held)
    exact absurd trivial (stuck _ _ (.acquire here free))
  | holding place => exact absurd here (nobody i place)
  | asleep place => exact Or.inr ⟨place, rfl⟩

/-- When nobody is on the way and a thread sleeps, there is no work to be done. -/
theorem Account.settled {contract : Contract code} {account : Account contract}
    (covers : account.Covers s) (settled : Settled s) {place : Local}
    (asleep : .asleep place ∈ s.threads) : account.need s.shared = 0 := by
  have nothing : total (weigh account.weight) s.threads = 0 := by
    rw [total, List.sum_eq_zero_iff_forall_eq_nat]
    intro cost member
    obtain ⟨thread, among, rfl⟩ := List.mem_map.mp member
    rcases settled thread among with rfl | ⟨place, rfl⟩ <;> rfl
  have need := covers.need place asleep
  omega

/-- A number for every place that each step comes down by. A signal pays for the way of the
sleeper that it wakes. -/
structure Ranking (code : Code Local Shared) where
  rank : Local → Nat
  sleeping : Nat
  works : ∀ place shared next changed, code.move place shared = .work next changed →
    rank next < rank place
  waits : ∀ place shared next, code.move place shared = .wait next → rank next ≤ sleeping
  signals : ∀ place shared next, code.move place shared = .signal next →
    rank next + sleeping + 3 ≤ rank place

namespace Ranking

variable (ranking : Ranking code)

/-- The steps that a thread may still take. -/
def effort : Thread Local → Nat
  | .entering place => ranking.rank place + 2
  | .holding place => ranking.rank place + 1
  | .outside | .asleep _ => 0

variable {ranking}

/-- Every step of a call takes some of the effort that is left. -/
theorem effort_step (sleepers : ∀ place, .asleep place ∈ s.threads →
      ranking.rank place ≤ ranking.sleeping) (step : Step code s event after)
    (internal : event.Internal) :
    total ranking.effort after.threads < total ranking.effort s.threads := by
  cases step with
  | start => exact internal.elim
  | @acquire i place here free =>
    have moved := total_set ranking.effort here (.holding place)
    simp only [effort] at moved ⊢
    omega
  | @work i place next changed here moves =>
    have moved := total_set ranking.effort here (.holding next)
    have down := ranking.works _ _ _ _ moves
    simp only [effort] at moved ⊢
    omega
  | @wait i place next here moves =>
    have moved := total_set ranking.effort here (.asleep next)
    simp only [effort] at moved ⊢
    omega
  | @signal i j place next sleeper here moves there =>
    have first := total_set ranking.effort here (.holding next)
    have second := total_set ranking.effort (stands_apart here there (.holding next)).2
      (.entering sleeper)
    have paid := ranking.signals _ _ _ moves
    have low := sleepers sleeper (List.mem_of_getElem? there)
    simp only [effort] at first second ⊢
    omega
  | @signalNobody i place next here moves nobody =>
    have moved := total_set ranking.effort here (.holding next)
    have paid := ranking.signals _ _ _ moves
    simp only [effort] at moved ⊢
    omega
  | @finish i place here moves =>
    have moved := total_set ranking.effort here .outside
    simp only [effort] at moved ⊢
    omega
  | wake => exact internal.elim

/-- Without new calls and wakings, a run is no longer than the effort that was left.

Proof: each of its steps takes some of the effort. -/
theorem length_le {events : List (Event Local)} (sleepers : ∀ place, .asleep place ∈ s.threads →
      ranking.rank place ≤ ranking.sleeping) (run : Run code s events after)
    (internal : ∀ event ∈ events, event.Internal) :
    events.length + total ranking.effort after.threads ≤ total ranking.effort s.threads := by
  suffices both : events.length + total ranking.effort after.threads ≤ total ranking.effort s.threads ∧
      ∀ place, .asleep place ∈ after.threads → ranking.rank place ≤ ranking.sleeping from both.1
  induction run with
  | stop => exact ⟨Nat.le_of_eq (Nat.zero_add _), sleepers⟩
  | step run step inductionHypothesis =>
    obtain ⟨earlier, still⟩ := inductionHypothesis fun event member =>
      internal event (by simp [member])
    have less := effort_step still step (internal _ (by simp))
    rw [List.length_append, List.length_singleton]
    exact ⟨by omega, sleepers_step ranking.waits still step⟩

end Ranking

end Vx68k.Monitors
