import Vx68k.MainMemory
import Vx68k.Monitors

/-!
# The keys between the window and the guest

The window system's thread queues the keys that the user presses, and the machine's thread
looks at the first one (`_B_KEYSNS`) and takes it (`_B_KEYINP`), waiting while there is none.
A mutex guards the queue; a condition is signalled after every key that is queued.

Any number of threads may make these calls here. `peek_key` first looks at the queue without
the mutex, only to yield the processor when it is empty; this is left out, as are the
cancellation of a thread that waits and what `front` and `pop` of an empty queue do.
-/

namespace Vx68k.Keyboard

open Monitors ByteStores

/-- A key as it is queued, or 0 for none. -/
abbrev Key := BitVec 16

/-- The places in `queue_key`, in `get_key` and in `peek_key`, after the mutex is locked. The
last one of each call is where it is unlocked again. -/
inductive Place where
  | push (key : Key)
  | signal (key : Key)
  | queued (key : Key)
  | test
  | front
  | pop (key : Key)
  | got (key : Key)
  | look
  | peeked (key : Key)
deriving DecidableEq

/-- The places where calls start. -/
def Entry : Place → Prop
  | .push _ | .test | .look => True
  | _ => False

/-- What is done at each place. An empty queue has no first key to look at or to take. -/
def move : Place → List Key → Move Place (List Key)
  | .push key, keyQueue => .work (.signal key) (keyQueue ++ [key])
  | .signal key, _ => .signal (.queued key)
  | .queued _, _ => .leave
  | .test, [] => .wait .test
  | .test, keyQueue => .work .front keyQueue
  | .front, [] => .fault
  | .front, key :: rest => .work (.pop key) (key :: rest)
  | .pop _, [] => .fault
  | .pop key, _ :: rest => .work (.got key) rest
  | .got _, _ => .leave
  | .look, [] => .work (.peeked 0) []
  | .look, key :: rest => .work (.peeked key) (key :: rest)
  | .peeked _, _ => .leave

/-- `queue_key`, `get_key` and `peek_key` on the queue of keys. -/
def code : Code Place (List Key) := ⟨Entry, move⟩

/-- Threads that call these functions. -/
abbrev System := Monitors.System Place (List Key)

/-- The keys of the calls of `queue_key` that are finished. -/
def queuedKeys (history : List Place) : List Key :=
  history.filterMap fun
    | .queued key => some key
    | _ => none

/-- The keys that finished calls of `get_key` have returned. -/
def gotKeys (history : List Place) : List Key :=
  history.filterMap fun
    | .got key => some key
    | _ => none

namespace Place

/-- The key that a call has put into the queue before it is finished. -/
def putting : Place → List Key
  | .signal key | .queued key => [key]
  | _ => []

/-- The key that a call has taken from the queue before it is finished. -/
def getting : Place → List Key
  | .got key => [key]
  | _ => []

/-- What a call has seen of the queue. -/
def Sees : Place → List Key → Prop
  | .front, keyQueue => keyQueue ≠ []
  | .pop key, keyQueue => keyQueue.head? = some key
  | .peeked key, keyQueue => keyQueue.head?.getD 0 = key
  | _, _ => True

end Place

/-- The keys that have been returned, the one about to be, and those in the queue are the keys
that have been queued, in their order. -/
def Balanced (history : List Place) (place : Place) (keyQueue : List Key) : Prop :=
  gotKeys history ++ place.getting ++ keyQueue = queuedKeys history ++ place.putting

variable {place next : Place} {keyQueue changed : List Key} {history : List Place}

/-- The places at which a call works on the queue, and what it does there. -/
theorem move_work (moves : move place keyQueue = .work next changed) :
    (∃ key, place = .push key ∧ next = .signal key ∧ changed = keyQueue ++ [key]) ∨
      (place = .test ∧ next = .front ∧ changed = keyQueue ∧ keyQueue ≠ []) ∨
      (∃ key, place = .front ∧ next = .pop key ∧ changed = keyQueue ∧ keyQueue.head? = some key) ∨
      (∃ key first, place = .pop key ∧ next = .got key ∧ keyQueue = first :: changed) ∨
      (place = .look ∧ next = .peeked (keyQueue.head?.getD 0) ∧ changed = keyQueue) := by
  cases place with
  | push key =>
    obtain ⟨rfl, rfl⟩ := Move.work.inj moves
    exact Or.inl ⟨key, rfl, rfl, rfl⟩
  | test =>
    cases keyQueue with
    | nil => cases moves
    | cons first rest =>
      obtain ⟨rfl, rfl⟩ := Move.work.inj moves
      exact Or.inr (Or.inl ⟨rfl, rfl, rfl, List.cons_ne_nil _ _⟩)
  | front =>
    cases keyQueue with
    | nil => cases moves
    | cons first rest =>
      obtain ⟨rfl, rfl⟩ := Move.work.inj moves
      exact Or.inr (Or.inr (Or.inl ⟨first, rfl, rfl, rfl, rfl⟩))
  | pop key =>
    cases keyQueue with
    | nil => cases moves
    | cons first rest =>
      obtain ⟨rfl, rfl⟩ := Move.work.inj moves
      exact Or.inr (Or.inr (Or.inr (Or.inl ⟨key, first, rfl, rfl, rfl⟩)))
  | look =>
    cases keyQueue with
    | nil =>
      obtain ⟨rfl, rfl⟩ := Move.work.inj moves
      exact Or.inr (Or.inr (Or.inr (Or.inr ⟨rfl, rfl, rfl⟩)))
    | cons first rest =>
      obtain ⟨rfl, rfl⟩ := Move.work.inj moves
      exact Or.inr (Or.inr (Or.inr (Or.inr ⟨rfl, rfl, rfl⟩)))
  | signal key | queued key | got key | peeked key => cases moves

/-- A call waits only for an empty queue in `get_key`. -/
theorem move_wait (moves : move place keyQueue = .wait next) :
    place = .test ∧ keyQueue = [] ∧ next = .test := by
  cases place <;> cases keyQueue <;> simp_all [move]

/-- Only `queue_key` signals, after it has queued its key. -/
theorem move_signal (moves : move place keyQueue = .signal next) :
    ∃ key, place = .signal key ∧ next = .queued key := by
  cases place <;> cases keyQueue <;> simp_all [move]

/-- The places where calls end. -/
theorem move_leave (moves : move place keyQueue = .leave) :
    (∃ key, place = .queued key) ∨ (∃ key, place = .got key) ∨ ∃ key, place = .peeked key := by
  cases place <;> cases keyQueue <;> simp_all [move]

/-- A call that has not touched the queue finds it balanced. -/
theorem entry_balanced (entry : Entry place) (free : gotKeys history ++ keyQueue = queuedKeys history) :
    Balanced history place keyQueue ∧ place.Sees keyQueue := by
  cases place with
  | push key => exact ⟨by simpa [Balanced, Place.getting, Place.putting] using free, trivial⟩
  | test => exact ⟨by simpa [Balanced, Place.getting, Place.putting] using free, trivial⟩
  | look => exact ⟨by simpa [Balanced, Place.getting, Place.putting] using free, trivial⟩
  | _ => exact entry.elim

/-- Work on the queue keeps it balanced. -/
theorem work_balanced (balanced : Balanced history place keyQueue) (sees : place.Sees keyQueue)
    (moves : move place keyQueue = .work next changed) :
    Balanced history next changed ∧ next.Sees changed := by
  simp only [Balanced] at balanced ⊢
  rcases move_work moves with ⟨key, rfl, rfl, rfl⟩ | ⟨rfl, rfl, rfl, some⟩ | ⟨key, rfl, rfl, rfl, first⟩ |
    ⟨key, first, rfl, rfl, rfl⟩ | ⟨rfl, rfl, rfl⟩
  · refine ⟨?_, trivial⟩
    simp only [Place.getting, Place.putting, List.append_nil] at balanced ⊢
    rw [← List.append_assoc, balanced]
  · exact ⟨balanced, some⟩
  · exact ⟨balanced, first⟩
  · obtain rfl : first = key := Option.some.inj sees
    refine ⟨?_, trivial⟩
    simpa [Place.getting, Place.putting] using balanced
  · exact ⟨balanced, rfl⟩

/-- A finished call leaves the queue balanced without it. -/
theorem leave_balanced (balanced : Balanced history place keyQueue)
    (moves : move place keyQueue = .leave) :
    gotKeys (history ++ [place]) ++ keyQueue = queuedKeys (history ++ [place]) := by
  simp only [Balanced] at balanced
  rcases move_leave moves with ⟨key, rfl⟩ | ⟨key, rfl⟩ | ⟨key, rfl⟩
  all_goals
    simpa [gotKeys, queuedKeys, Place.getting, Place.putting] using balanced

/-- The assertions about the queue. -/
def contract : Contract code where
  free history keyQueue := gotKeys history ++ keyQueue = queuedKeys history
  atPlace history place keyQueue := Balanced history place keyQueue ∧ place.Sees keyQueue
  enters _ _ _ entry free := entry_balanced entry free
  works _ _ _ _ _ here moves := work_balanced here.1 here.2 moves
  waits history place keyQueue next here moves := by
    obtain ⟨rfl, rfl, rfl⟩ := move_wait moves
    have free : gotKeys history ++ [] = queuedKeys history := by
      simpa [Balanced, Place.getting, Place.putting] using here.1
    exact ⟨free, fun _ _ later => entry_balanced trivial later⟩
  signals history place keyQueue next here moves := by
    obtain ⟨key, rfl, rfl⟩ := move_signal moves
    exact ⟨here.1, trivial⟩
  leaves _ _ _ here moves := leave_balanced here.1 moves
  faultless history place keyQueue here moves := by
    obtain ⟨-, sees⟩ := here
    cases place <;> cases keyQueue <;> simp_all [code, move, Place.Sees]

/-- At first no key has been queued or returned. -/
theorem free_idle : contract.free [] [] := rfl

/-- Keys come out as they went in. In every state of every run of any number of threads, with
the mutex free, the keys that `get_key` has returned and then those in the queue are the keys
that `queue_key` was given, in their order; while a thread holds the mutex it is the only one,
its own key makes up the difference, and it never looks for a key in an empty queue. -/
theorem keys_in_order {count : Nat} {events : List (Event Place)} {s : System}
    (run : Run code (.idle [] count) events s) :
    (s.owner = none →
      gotKeys (finished events) ++ s.shared = queuedKeys (finished events)) ∧
    ∀ (i : Nat) place, s.threads[i]? = some (.holding place) →
      (∀ (j : Nat) other, s.threads[j]? = some (.holding other) → j = i) ∧
      gotKeys (finished events) ++ place.getting ++ s.shared =
        queuedKeys (finished events) ++ place.putting ∧
      move place s.shared ≠ .fault := by
  have holds := contract.holds_idle free_idle run
  refine ⟨holds.free, fun i place here => ⟨fun j other there => ?_, ?_, ?_⟩⟩
  · exact holds.exclusive.alone here there
  · exact (holds.fits i _ here).1
  · exact contract.faultless _ _ _ (holds.fits i _ here)

/-- Thread 0 goes to sleep in `get_key`. Thread 1 queues two keys, the first of which wakes
thread 0. -/
def queueTwo : List (Event Place) :=
  [.start 0 .test, .acquire 0, .act 0,
    .start 1 (.push 0x41), .acquire 1, .act 1, .act 1, .finish 1 (.queued 0x41),
    .start 1 (.push 0x42), .acquire 1, .act 1, .act 1]

/-- These events are a run. -/
theorem run_queueTwo : Run code (.idle [] 2) queueTwo
    ⟨[0x41, 0x42], some 1, [.entering .test, .holding (.queued 0x42)]⟩ := by
  have asleep : Run code (.idle [] 2) [.start 0 .test, .acquire 0, .act 0]
      ⟨[], none, [.asleep .test, .outside]⟩ :=
    .step (.step (.step (.stop _) (.start rfl trivial)) (.acquire rfl rfl)) (.wait rfl rfl)
  have woken : Run code ⟨[], none, [.asleep .test, .outside]⟩
      [.start 1 (.push 0x41), .acquire 1, .act 1, .act 1, .finish 1 (.queued 0x41)]
      ⟨[0x41], none, [.entering .test, .outside]⟩ :=
    .step (.step (.step (.step (.step (.stop _) (.start rfl trivial)) (.acquire rfl rfl))
      (.work rfl rfl)) (.signal (j := 0) rfl rfl rfl)) (.finish rfl rfl)
  have second : Run code ⟨[0x41], none, [.entering .test, .outside]⟩
      [.start 1 (.push 0x42), .acquire 1, .act 1, .act 1]
      ⟨[0x41, 0x42], some 1, [.entering .test, .holding (.queued 0x42)]⟩ :=
    .step (.step (.step (.step (.stop _) (.start rfl trivial)) (.acquire rfl rfl)) (.work rfl rfl))
      (.signalNobody rfl rfl (by simp))
  exact (asleep.append woken).append second

/-- Thread 1 leaves and thread 0 takes the first of the keys. -/
def takeFirst : List (Event Place) :=
  [.finish 1 (.queued 0x42), .acquire 0, .act 0, .act 0, .act 0, .finish 0 (.got 0x41)]

/-- The run goes on with these events. -/
theorem run_takeFirst : Run code
    ⟨[0x41, 0x42], some 1, [.entering .test, .holding (.queued 0x42)]⟩ takeFirst
    ⟨[0x42], none, [.outside, .outside]⟩ :=
  .step (.step (.step (.step (.step (.step (.stop _) (.finish rfl rfl)) (.acquire rfl rfl))
    (.work rfl rfl)) (.work rfl rfl)) (.work rfl rfl)) (.finish rfl rfl)

/-- Before thread 1 leaves, it alone holds the mutex and its second key is in the queue; in
the end thread 0 has the first key, and the second one is in the queue. -/
theorem keys_in_order_two :
    ((∀ (j : Nat) other, [Thread.entering Place.test, .holding (.queued 0x42)][j]? =
        some (.holding other) → j = 1) ∧
      gotKeys (finished queueTwo) ++ [] ++ [0x41, 0x42] =
        queuedKeys (finished queueTwo) ++ [0x42] ∧
      move (.queued 0x42) [0x41, 0x42] ≠ .fault) ∧
    gotKeys (finished (queueTwo ++ takeFirst)) ++ [0x42] =
      queuedKeys (finished (queueTwo ++ takeFirst)) :=
  ⟨(keys_in_order run_queueTwo).2 1 (.queued 0x42) rfl,
    (keys_in_order (run_queueTwo.append run_takeFirst)).1 rfl⟩

/-- A queued key is accounted for by the call that has queued it and not yet signalled, and
then by a thread on its way through `get_key`. -/
def account : Account contract where
  need := List.length
  weight
    | .signal _ | .test | .front | .pop _ => 1
    | _ => 0
  woken := 1
  works history place keyQueue next changed here moves := by
    rcases move_work moves with ⟨key, rfl, rfl, rfl⟩ | ⟨rfl, rfl, rfl, some⟩ |
      ⟨key, rfl, rfl, rfl, first⟩ | ⟨key, first, rfl, rfl, rfl⟩ | ⟨rfl, rfl, rfl⟩ <;> simp
  waits place keyQueue next moves := by
    obtain ⟨rfl, rfl, rfl⟩ := move_wait moves
    exact ⟨rfl, Nat.le_refl _⟩
  signals place keyQueue next moves := by
    obtain ⟨key, rfl, rfl⟩ := move_signal moves
    exact Nat.le_refl _
  leaves place keyQueue moves := by
    rcases move_leave moves with ⟨key, rfl⟩ | ⟨key, rfl⟩ | ⟨key, rfl⟩ <;> rfl

/-- The steps that are left of a call, with those of a sleeper that it wakes. -/
def ranking : Ranking code where
  rank
    | .push _ => 7
    | .signal _ => 6
    | .test => 3
    | .front => 2
    | .pop _ | .look => 1
    | .queued _ | .got _ | .peeked _ => 0
  sleeping := 3
  works place keyQueue next changed moves := by
    rcases move_work moves with ⟨key, rfl, rfl, rfl⟩ | ⟨rfl, rfl, rfl, some⟩ |
      ⟨key, rfl, rfl, rfl, first⟩ | ⟨key, first, rfl, rfl, rfl⟩ | ⟨rfl, rfl, rfl⟩ <;> simp
  waits place keyQueue next moves := by
    obtain ⟨rfl, rfl, rfl⟩ := move_wait moves
    exact Nat.le_refl _
  signals place keyQueue next moves := by
    obtain ⟨key, rfl, rfl⟩ := move_signal moves
    exact Nat.le_refl _

/-- No thread has more than nine steps before it. -/
theorem effort_le (thread : Thread Place) : ranking.effort thread ≤ 9 := by
  cases thread with
  | outside | asleep place => exact Nat.zero_le _
  | entering place | holding place => cases place <;> simp [Ranking.effort, ranking]

/-- No key is overslept. After any run of any number of threads, without new calls and wakings
for no reason, at most nine steps a thread are left to be taken in whatever order; and when
none can be taken any more, every call has ended but those of `get_key` that sleep, and if one
sleeps, the queue is empty.

Proof: every step comes closer to the end of its call, a queued key is accounted for by a thread
that is on its way, and the owner of the mutex is never stuck. -/
theorem keys_awaken {count : Nat} {events later : List (Event Place)} {s after : System}
    (run : Run code (.idle [] count) events s) (rest : Run code s later after)
    (internal : ∀ event ∈ later, event.Internal) :
    later.length ≤ 9 * count ∧
      ((∀ event last, Step code after event last → ¬ event.Internal) →
        (∀ thread ∈ after.threads, thread = .outside ∨ thread = .asleep .test) ∧
          (.asleep .test ∈ after.threads → after.shared = [])) := by
  have whole := run.append rest
  have holds := contract.holds_idle free_idle whole
  have covers := account.covers_idle free_idle whole
  have sleepers := sleepers_idle ranking.waits run
  have waiting : ∀ place, .asleep place ∈ after.threads → place = .test :=
    sleepers_idle (fun place keyQueue next moves => (move_wait moves).2.2) whole
  constructor
  · have bound := Ranking.length_le sleepers rest internal
    have most := total_le effort_le s.threads
    rw [length_run run, System.idle, List.length_replicate] at most
    omega
  · intro stuck
    have settled := settled_of_stuck holds stuck
    refine ⟨fun thread member => ?_, fun asleep => ?_⟩
    · rcases settled thread member with outside | ⟨place, rfl⟩
      · exact Or.inl outside
      · exact Or.inr (by rw [waiting place member])
    · exact List.length_eq_zero_iff.mp (Account.settled covers settled asleep)

/-- One thread sleeps in `get_key`, and two others are about to queue a key each. -/
theorem run_asleep : Run code (.idle [] 3)
    [.start 0 .test, .acquire 0, .act 0, .start 1 (.push 0x41), .start 2 (.push 0x42)]
    ⟨[], none, [.asleep .test, .entering (.push 0x41), .entering (.push 0x42)]⟩ :=
  .step (.step (.step (.step (.step (.stop _) (.start rfl trivial)) (.acquire rfl rfl))
    (.wait rfl rfl)) (.start rfl trivial)) (.start rfl trivial)

/-- They queue their keys, and the sleeper, woken by the first, takes one. -/
def wakeSleeper : List (Event Place) :=
  [.acquire 1, .act 1, .act 1, .finish 1 (.queued 0x41),
    .acquire 2, .act 2, .act 2, .finish 2 (.queued 0x42),
    .acquire 0, .act 0, .act 0, .act 0, .finish 0 (.got 0x41)]

/-- These events are a run. -/
theorem run_wakeSleeper : Run code
    ⟨[], none, [.asleep .test, .entering (.push 0x41), .entering (.push 0x42)]⟩ wakeSleeper
    ⟨[0x42], none, [.outside, .outside, .outside]⟩ := by
  have first : Run code ⟨[], none, [.asleep .test, .entering (.push 0x41), .entering (.push 0x42)]⟩
      [.acquire 1, .act 1, .act 1, .finish 1 (.queued 0x41)]
      ⟨[0x41], none, [.entering .test, .outside, .entering (.push 0x42)]⟩ :=
    .step (.step (.step (.step (.stop _) (.acquire rfl rfl)) (.work rfl rfl))
      (.signal (j := 0) rfl rfl rfl)) (.finish rfl rfl)
  have second : Run code ⟨[0x41], none, [.entering .test, .outside, .entering (.push 0x42)]⟩
      [.acquire 2, .act 2, .act 2, .finish 2 (.queued 0x42)]
      ⟨[0x41, 0x42], none, [.entering .test, .outside, .outside]⟩ :=
    .step (.step (.step (.step (.stop _) (.acquire rfl rfl)) (.work rfl rfl))
      (.signalNobody rfl rfl (by simp))) (.finish rfl rfl)
  have taken : Run code ⟨[0x41, 0x42], none, [.entering .test, .outside, .outside]⟩
      [.acquire 0, .act 0, .act 0, .act 0, .finish 0 (.got 0x41)]
      ⟨[0x42], none, [.outside, .outside, .outside]⟩ :=
    .step (.step (.step (.step (.step (.stop _) (.acquire rfl rfl)) (.work rfl rfl)) (.work rfl rfl))
      (.work rfl rfl)) (.finish rfl rfl)
  exact (first.append second).append taken

/-- Thirteen steps are within the bound, and at the end no thread sleeps or has a step to
take. -/
theorem keys_awaken_two :
    wakeSleeper.length ≤ 9 * 3 ∧
      (∀ thread ∈ [Thread.outside, .outside, .outside], thread = .outside ∨ thread = .asleep Place.test) ∧
      (Thread.asleep Place.test ∈ [.outside, .outside, .outside] → [(0x42 : Key)] = []) := by
  have awakened := keys_awaken run_asleep run_wakeSleeper (by simp [wakeSleeper, Event.Internal])
  refine ⟨awakened.1, awakened.2 fun event last step => ?_⟩
  cases step with
  | start here begins => simp [Event.Internal]
  | wake here => simp [Event.Internal]
  | acquire here free | work here moves | wait here moves | signal here moves there
  | signalNobody here moves nobody | finish here moves =>
    have idle := List.mem_of_getElem? here
    simp at idle

/-- `_B_KEYINP` after `get_key`; its value is D0. -/
def iocsBKeyinp (key : Key) : Uint32 := key.setWidth 32

/-- `_B_KEYSNS` after `peek_key`; its value is D0. -/
def iocsBKeysns (key : Key) : Uint32 := if key = 0 then 0 else 0x10000 ||| key.setWidth 32

/-- The places in `get_key`. -/
def Place.Gets : Place → Prop
  | .test | .front | .pop _ | .got _ => True
  | _ => False

/-- The place where a thread in a call stands. -/
def placeOf : Thread Place → Option Place
  | .outside => none
  | .entering place | .holding place | .asleep place => some place

/-- Only one thread is in `get_key`. -/
def SoleGetter (t : Nat) (s : System) : Prop :=
  ∀ (j : Nat) thread place, s.threads[j]? = some thread → placeOf thread = some place → place.Gets →
    j = t

/-- A thread that has seen a key is not done with `get_key` yet, and has not met another key. -/
def Promised (key : Key) : Thread Place → Prop
  | .outside | .entering .test | .entering .look => True
  | .holding .test | .holding .front | .holding .look => True
  | .holding (.peeked other) | .holding (.pop other) | .holding (.got other) => other = key
  | _ => False

/-- The key that a thread has seen is the first one, until the thread has taken it. -/
def Keeps (t : Nat) (key : Key) (s : System) : Prop :=
  ∃ thread, s.threads[t]? = some thread ∧ Promised key thread ∧
    (thread = .holding (.got key) ∨ s.shared.head? = some key)

/-- One thread moves, and the calls of `get_key` are still those of one thread. -/
theorem sole_set {t i : Nat} {s : System} {old new : Thread Place} {shared : List Key}
    {owner : Option Nat} (sole : SoleGetter t s) (here : s.threads[i]? = some old)
    (gets : ∀ place, placeOf new = some place → place.Gets →
      i = t ∨ ∃ other, placeOf old = some other ∧ other.Gets) :
    SoleGetter t ⟨shared, owner, s.threads.set i new⟩ := by
  intro j thread place there stands getting
  rcases (stands_set here).mp there with ⟨rfl, rfl⟩ | ⟨-, stood⟩
  · rcases gets place stands getting with mine | ⟨other, was, got⟩
    · exact mine
    · exact sole j old other here was got
  · exact sole j thread place stood stands getting

/-- A step of `get_key` stays in it, and no other call comes into it. -/
theorem work_gets {place next : Place} {keyQueue changed : List Key}
    (moves : move place keyQueue = .work next changed) (gets : next.Gets) : place.Gets := by
  rcases move_work moves with ⟨key, rfl, rfl, rfl⟩ | ⟨rfl, rfl, rfl, some⟩ |
    ⟨key, rfl, rfl, rfl, first⟩ | ⟨key, first, rfl, rfl, rfl⟩ | ⟨rfl, rfl, rfl⟩
  · exact gets.elim
  · trivial
  · trivial
  · trivial
  · exact gets.elim

/-- Where one thread makes all calls of `get_key`, it stays the only one in it. -/
theorem sole_step {t : Nat} {s after : System} {event : Event Place} (sole : SoleGetter t s)
    (step : Step code s event after) (only : ∀ j, event = .start j .test → j = t) :
    SoleGetter t after := by
  cases step with
  | @start i place here begins =>
    refine sole_set sole here fun other stands gets => ?_
    obtain rfl := Option.some.inj stands
    cases place with
    | test => exact Or.inl (only i rfl)
    | push key | look => exact gets.elim
    | _ => exact begins.elim
  | acquire here free =>
    exact sole_set sole here fun other stands gets => Or.inr ⟨other, stands, gets⟩
  | work here moves =>
    refine sole_set sole here fun other stands gets => ?_
    obtain rfl := Option.some.inj stands
    exact Or.inr ⟨_, rfl, work_gets moves gets⟩
  | wait here moves =>
    refine sole_set sole here fun other stands gets => ?_
    exact Or.inr ⟨_, rfl, by rw [(move_wait moves).1]; trivial⟩
  | @signal i j place next sleeper here moves there =>
    obtain ⟨key, rfl, rfl⟩ := move_signal moves
    have signalled : SoleGetter t { s with threads := s.threads.set i (.holding (.queued key)) } := by
      refine sole_set sole here fun other stands gets => ?_
      obtain rfl := Option.some.inj stands
      exact gets.elim
    exact sole_set signalled (stands_apart here there _).2 fun other stands gets =>
      Or.inr ⟨other, stands, gets⟩
  | signalNobody here moves nobody =>
    obtain ⟨key, rfl, rfl⟩ := move_signal moves
    refine sole_set sole here fun other stands gets => ?_
    obtain rfl := Option.some.inj stands
    exact gets.elim
  | finish here moves => exact sole_set sole here fun other stands gets => nomatch stands
  | wake here => exact sole_set sole here fun other stands gets => Or.inr ⟨other, stands, gets⟩

variable {t : Nat} {key : Key} {s after : System} {event : Event Place}

/-- A step of another thread leaves the thread where it stands, and the key in front. -/
theorem keeps_elsewhere (keeps : Keeps t key s) {i : Nat} {old new : Thread Place}
    {shared : List Key} {owner : Option Nat} (here : s.threads[i]? = some old) (other : t ≠ i)
    (front : s.shared.head? = some key → shared.head? = some key) :
    Keeps t key ⟨shared, owner, s.threads.set i new⟩ := by
  obtain ⟨thread, stands, promised, first⟩ := keeps
  exact ⟨thread, (stands_set here).mpr (Or.inr ⟨other, stands⟩), promised, first.imp_right front⟩

/-- A step of the thread itself. -/
theorem keeps_here {old new : Thread Place} {shared : List Key} {owner : Option Nat}
    (here : s.threads[t]? = some old) (promised : Promised key new)
    (first : new = .holding (.got key) ∨ shared.head? = some key) :
    Keeps t key ⟨shared, owner, s.threads.set t new⟩ :=
  ⟨new, (stands_set here).mpr (Or.inl ⟨rfl, rfl⟩), promised, first⟩

/-- What is known of the thread where it stands. -/
theorem keeps_stands (keeps : Keeps t key s) {thread : Thread Place}
    (here : s.threads[t]? = some thread) :
    Promised key thread ∧ (thread = .holding (.got key) ∨ s.shared.head? = some key) := by
  obtain ⟨other, stands, rest⟩ := keeps
  obtain rfl := Option.some.inj (stands.symm.trans here)
  exact rest

/-- The other threads put keys behind it or look at it, and the thread itself takes it.

Proof: the cases are those of the step, each for the thread itself and for another one. -/
theorem keeps_step (sole : SoleGetter t s) (keeps : Keeps t key s) (step : Step code s event after)
    (next : ∀ place, event = .start t place → place = .test ∨ place = .look)
    (pending : ∀ other, event ≠ .finish t (.got other)) : Keeps t key after := by
  cases step with
  | @start i place here begins =>
    by_cases mine : t = i
    · subst mine
      have front := (keeps_stands keeps here).2.resolve_left nofun
      rcases next place rfl with rfl | rfl
      · exact keeps_here here trivial (Or.inr front)
      · exact keeps_here here trivial (Or.inr front)
    · exact keeps_elsewhere keeps here mine id
  | @acquire i place here free =>
    by_cases mine : t = i
    · subst mine
      obtain ⟨promised, first⟩ := keeps_stands keeps here
      cases place with
      | test | look => exact keeps_here here trivial (Or.inr (first.resolve_left nofun))
      | _ => exact promised.elim
    · exact keeps_elsewhere keeps here mine id
  | @work i place into changed here moves =>
    by_cases mine : t = i
    · subst mine
      obtain ⟨promised, first⟩ := keeps_stands keeps here
      rcases move_work moves with ⟨other, rfl, rfl, rfl⟩ | ⟨rfl, rfl, rfl, some⟩ |
        ⟨other, rfl, rfl, rfl, head⟩ | ⟨other, head, rfl, rfl, queue⟩ | ⟨rfl, rfl, rfl⟩
      · exact promised.elim
      · exact keeps_here here trivial (Or.inr (first.resolve_left nofun))
      · have front := first.resolve_left nofun
        exact keeps_here here (Option.some.inj (head.symm.trans front)) (Or.inr front)
      · obtain rfl : other = key := promised
        exact keeps_here here rfl (Or.inl rfl)
      · have front := first.resolve_left nofun
        exact keeps_here here (by rw [front]; rfl) (Or.inr front)
    · refine keeps_elsewhere keeps here mine fun front => ?_
      rcases move_work moves with ⟨other, rfl, rfl, rfl⟩ | ⟨rfl, rfl, rfl, some⟩ |
        ⟨other, rfl, rfl, rfl, head⟩ | ⟨other, head, rfl, rfl, queue⟩ | ⟨rfl, rfl, rfl⟩
      · rw [List.head?_append, front]
        rfl
      · exact front
      · exact front
      · exact absurd (sole i _ _ here rfl trivial) (Ne.symm mine)
      · exact front
  | @wait i place into here moves =>
    obtain ⟨rfl, empty, rfl⟩ := move_wait moves
    obtain rfl := sole i _ _ here rfl trivial
    obtain ⟨-, first⟩ := keeps_stands keeps here
    rw [empty] at first
    exact absurd (first.resolve_left nofun) nofun
  | @signal i j place into sleeper here moves there =>
    obtain ⟨other, rfl, rfl⟩ := move_signal moves
    have mine : t ≠ i := by
      rintro rfl
      exact (keeps_stands keeps here).1
    have awake : t ≠ j := by
      rintro rfl
      exact (keeps_stands keeps there).1
    have signalled : Keeps t key { s with threads := s.threads.set i (.holding (.queued other)) } :=
      keeps_elsewhere keeps here mine id
    exact keeps_elsewhere signalled (stands_apart here there _).2 awake id
  | @signalNobody i place into here moves nobody =>
    obtain ⟨other, rfl, rfl⟩ := move_signal moves
    refine keeps_elsewhere keeps here ?_ id
    rintro rfl
    exact (keeps_stands keeps here).1
  | @finish i place here moves =>
    by_cases mine : t = i
    · subst mine
      obtain ⟨promised, first⟩ := keeps_stands keeps here
      rcases move_leave moves with ⟨other, rfl⟩ | ⟨other, rfl⟩ | ⟨other, rfl⟩
      · exact promised.elim
      · exact absurd rfl (pending other)
      · exact keeps_here here trivial (Or.inr (first.resolve_left nofun))
    · exact keeps_elsewhere keeps here mine id
  | @wake i place here =>
    refine keeps_elsewhere keeps here ?_ id
    rintro rfl
    exact (keeps_stands keeps here).1

/-- At first there is no call of `get_key`. -/
theorem sole_idle (t count : Nat) : SoleGetter t (.idle [] count) := by
  intro j thread place there stands gets
  rw [List.eq_of_mem_replicate (List.mem_of_getElem? there)] at stands
  cases stands

/-- As long as one thread makes the calls, it is the only one in them. -/
theorem sole_run {events : List (Event Place)} (sole : SoleGetter t s) (run : Run code s events after)
    (only : ∀ j, .start j .test ∈ events → j = t) : SoleGetter t after := by
  induction run with
  | stop => exact sole
  | step run step inductionHypothesis =>
    refine sole_step (inductionHypothesis fun j member => only j (by simp [member])) step ?_
    rintro j rfl
    exact only j (by simp)

/-- The first key stays the first until that thread takes it. -/
theorem keeps_run {events : List (Event Place)} (sole : SoleGetter t s) (keeps : Keeps t key s)
    (run : Run code s events after) (only : ∀ j, .start j .test ∈ events → j = t)
    (next : ∀ place, .start t place ∈ events → place = .test ∨ place = .look)
    (pending : ∀ other, .finish t (.got other) ∉ events) : Keeps t key after := by
  induction run with
  | stop => exact keeps
  | step run step inductionHypothesis =>
    have earlier := inductionHypothesis (fun j member => only j (by simp [member]))
      (fun place member => next place (by simp [member]))
      fun other member => pending other (by simp [member])
    have alone := sole_run sole run fun j member => only j (by simp [member])
    refine keeps_step alone earlier step ?_ ?_
    · rintro place rfl
      exact next place (by simp)
    · rintro other rfl
      exact pending other (by simp)

/-- `_B_KEYSNS` shows a key by its code below a bit of its own. -/
theorem iocsBKeyinp_eq (key : Key) : iocsBKeyinp key = iocsBKeysns key &&& 0xffff := by
  by_cases zero : key = 0
  · simp [iocsBKeyinp, iocsBKeysns, zero]
  · apply BitVec.eq_of_toNat_eq
    have flag : (0x10000 : Uint32).toNat % 2 ^ 16 = 0 := rfl
    have small := key.isLt
    simp only [iocsBKeyinp, iocsBKeysns, if_neg zero]
    rw [and_low_toNat _ _ 16 rfl, BitVec.toNat_or, Nat.or_mod_two_pow, flag, Nat.zero_or,
      BitVec.toNat_setWidth]
    omega

/-- A key that has been shown is kept. Where one thread makes all the calls of `get_key` and
`_B_KEYSNS` has shown it a key, then until that thread, which queues none itself, has taken a
key, whatever the other threads do, it never sleeps, each further `_B_KEYSNS` shows the key
again, and `_B_KEYINP` returns it.

Proof: the key stays the first one, as only this thread takes keys out. -/
theorem shown_key_kept {count : Nat} {before later : List (Event Place)}
    (first : Run code (.idle [] count) before s) (rest : Run code s later after)
    (only : ∀ i, .start i .test ∈ before ++ later → i = t)
    (peeked : s.threads[t]? = some (.holding (.peeked key))) (shown : iocsBKeysns key ≠ 0)
    (calls : ∀ place, .start t place ∈ later → place = .test ∨ place = .look)
    (pending : ∀ other, .finish t (.got other) ∉ later) :
    ∃ thread, after.threads[t]? = some thread ∧ (∀ place, thread ≠ .asleep place) ∧
      (∀ other, thread = .holding (.peeked other) → iocsBKeysns other = iocsBKeysns key) ∧
      ∀ other, thread = .holding (.got other) → iocsBKeyinp other = iocsBKeysns key &&& 0xffff := by
  have holds := contract.holds_idle free_idle first
  have sees : s.shared.head?.getD 0 = key := (holds.fits t _ peeked).2
  have front : s.shared.head? = some key := by
    cases queue : s.shared.head? with
    | none =>
      rw [queue] at sees
      exact absurd (by simp [iocsBKeysns, ← sees]) shown
    | some other =>
      rw [queue] at sees
      exact congrArg some sees
  have sole := sole_run (sole_idle t count) first fun j member => only j (by simp [member])
  obtain ⟨thread, stands, promised, -⟩ := keeps_run sole ⟨_, peeked, rfl, Or.inr front⟩ rest
    (fun j member => only j (by simp [member])) calls pending
  refine ⟨thread, stands, ?_, ?_, ?_⟩
  · rintro place rfl
    exact promised
  · rintro other rfl
    exact congrArg iocsBKeysns promised
  · rintro other rfl
    rw [← iocsBKeyinp_eq]
    exact congrArg iocsBKeyinp promised

/-- Thread 0 looks at the first key. -/
def lookFirst : List (Event Place) := [.start 0 .look, .acquire 0, .act 0]

/-- So it does while thread 0 looks. -/
theorem run_lookFirst : Run code ⟨[0x42], none, [.outside, .outside]⟩ lookFirst
    ⟨[0x42], some 0, [.holding (.peeked 0x42), .outside]⟩ :=
  .step (.step (.step (.stop _) (.start rfl trivial)) (.acquire rfl rfl)) (.work rfl rfl)

/-- Thread 0 ends its look, thread 1 queues another key, and thread 0 calls `get_key` up to
where it has taken one. -/
def takeShown : List (Event Place) :=
  [.finish 0 (.peeked 0x42),
    .start 1 (.push 0x43), .acquire 1, .act 1, .act 1, .finish 1 (.queued 0x43),
    .start 0 .test, .acquire 0, .act 0, .act 0, .act 0]

/-- And so it does until thread 0 has taken the key that it was shown. -/
theorem run_takeShown : Run code ⟨[0x42], some 0, [.holding (.peeked 0x42), .outside]⟩ takeShown
    ⟨[0x43], some 0, [.holding (.got 0x42), .outside]⟩ := by
  have queued : Run code ⟨[0x42], some 0, [.holding (.peeked 0x42), .outside]⟩
      [.finish 0 (.peeked 0x42),
        .start 1 (.push 0x43), .acquire 1, .act 1, .act 1, .finish 1 (.queued 0x43)]
      ⟨[0x42, 0x43], none, [.outside, .outside]⟩ :=
    .step (.step (.step (.step (.step (.step (.stop _) (.finish rfl rfl)) (.start rfl trivial))
      (.acquire rfl rfl)) (.work rfl rfl)) (.signalNobody rfl rfl (by simp))) (.finish rfl rfl)
  have taken : Run code ⟨[0x42, 0x43], none, [.outside, .outside]⟩
      [.start 0 .test, .acquire 0, .act 0, .act 0, .act 0]
      ⟨[0x43], some 0, [.holding (.got 0x42), .outside]⟩ :=
    .step (.step (.step (.step (.step (.stop _) (.start rfl trivial)) (.acquire rfl rfl))
      (.work rfl rfl)) (.work rfl rfl)) (.work rfl rfl)
  exact queued.append taken

/-- The key that thread 0 has been shown is the one that it takes, though another thread has
queued a key in between. -/
theorem shown_key_kept_two :
    ∃ thread, [Thread.holding (Place.got 0x42), .outside][0]? = some thread ∧
      (∀ place, thread ≠ .asleep place) ∧
      (∀ other, thread = .holding (.peeked other) → iocsBKeysns other = iocsBKeysns 0x42) ∧
      ∀ other, thread = .holding (.got other) → iocsBKeyinp other = iocsBKeysns 0x42 &&& 0xffff :=
  shown_key_kept ((run_queueTwo.append run_takeFirst).append run_lookFirst) run_takeShown
    (by simp [queueTwo, takeFirst, lookFirst, takeShown]) rfl (by decide) (by simp [takeShown])
    (by simp [takeShown])

end Vx68k.Keyboard
