import Mathlib.Data.List.Forall2
import Mathlib.Data.List.Induction
import Mathlib.Logic.Function.Basic

/-!
# Exchanges in a table

An exchange puts a value into a table and answers the one that was there. For every key,
the answers and then what is in the table are what was there first and then the values that
were given, in their order: one can follow the answers from the last value to the first. To
give the answers back in the reverse order undoes the exchanges.
-/

namespace Vx68k.Exchanges

variable {K V : Type} [DecidableEq K]

/-- A key, the value that is put into the table and the one that was there. -/
structure Exchange (K V : Type) where
  key : K
  given : V
  answered : V
deriving DecidableEq

/-- Exchanges one after the other lead from one table to another. -/
def Leads (table : K → V) : List (Exchange K V) → (K → V) → Prop
  | [], after => after = table
  | exchange :: rest, after => exchange.answered = table exchange.key ∧
    Leads (Function.update table exchange.key exchange.given) rest after

/-- The values that have been given for a key. -/
def givenFor (key : K) (exchanges : List (Exchange K V)) : List V :=
  (exchanges.filter (·.key = key)).map (·.given)

/-- The values that have been answered for a key. -/
def answeredFor (key : K) (exchanges : List (Exchange K V)) : List V :=
  (exchanges.filter (·.key = key)).map (·.answered)

/-- The exchange that gives the answer back. -/
def Undoes (exchange undo : Exchange K V) : Prop :=
  undo.key = exchange.key ∧ undo.given = exchange.answered

variable {table after last : K → V} {exchanges more : List (Exchange K V)}

/-- Exchanges in two parts lead through a table between them. -/
theorem leads_append :
    Leads table (exchanges ++ more) last ↔
      ∃ between, Leads table exchanges between ∧ Leads between more last := by
  induction exchanges generalizing table with
  | nil => simp [Leads]
  | cons exchange rest inductionHypothesis =>
    simp only [List.cons_append, Leads, inductionHypothesis, and_assoc, exists_and_left]

/-- Nothing that has been in the table is lost. -/
theorem answers_follow (leads : Leads table exchanges after) (key : K) :
    answeredFor key exchanges ++ [after key] = table key :: givenFor key exchanges := by
  induction exchanges generalizing table with
  | nil =>
    obtain rfl : after = table := leads
    rfl
  | cons exchange rest inductionHypothesis =>
    obtain ⟨answered, rest_leads⟩ := leads
    have follows := inductionHypothesis rest_leads
    by_cases same : exchange.key = key
    · subst same
      rw [Function.update_self] at follows
      simp only [answeredFor, givenFor, List.filter_cons, decide_true, if_pos] at follows ⊢
      rw [List.map_cons, List.map_cons, List.cons_append, follows, answered]
    · rw [Function.update_of_ne (Ne.symm same)] at follows
      simp only [answeredFor, givenFor, List.filter_cons, same, decide_false] at follows ⊢
      exact follows

/-- One exchange that gives the answer back undoes the exchange. -/
theorem undo_one {exchange undo : Exchange K V} (undoes : Undoes exchange undo)
    (leads : Leads table [exchange, undo] after) : after = table := by
  obtain ⟨answered, -, rfl⟩ := leads
  rw [undoes.1, undoes.2, answered, Function.update_idem, Function.update_eq_self]

/-- Giving the answers back in the reverse order undoes all exchanges.

Proof: the last exchange is undone first, and then those before it. -/
theorem undo_all {undos : List (Exchange K V)} (leads : Leads table exchanges after)
    (undoing : Leads after undos last) (undoes : List.Forall₂ Undoes exchanges.reverse undos) :
    last = table := by
  induction exchanges using List.reverseRecOn generalizing after undos with
  | nil =>
    rw [List.reverse_nil] at undoes
    cases undoes
    obtain rfl : after = table := leads
    exact undoing
  | append_singleton front exchange inductionHypothesis =>
    rw [List.reverse_append, List.reverse_singleton, List.singleton_append] at undoes
    cases undoes with
    | @cons _ undo _ rest first others =>
      obtain ⟨between, before, here⟩ := leads_append.mp leads
      obtain ⟨answered, undone⟩ := undoing
      have back : Leads between [exchange, undo] (Function.update after undo.key undo.given) := by
        obtain ⟨one, rfl⟩ := here
        exact ⟨one, answered, rfl⟩
      rw [undo_one first back] at undone
      exact inductionHypothesis before undone others

end Vx68k.Exchanges
