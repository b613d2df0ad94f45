import Mathlib.Data.List.Basic

/-!
# Sequences cut at separators

A sequence is cut into components, each with the separator that ends it, and a last
component that nothing ends. Joining edited components with edited separators is then
an operation on the whole sequence that treats every component alike, wherever it
starts. The symbols, the separators and the edits are parameters.
-/

namespace Vx68k.Components

variable {α : Type}

/-- The components that a separator ends, each with its separator, and the last one. -/
structure Cut (α : Type) where
  ended : List (List α × α)
  last : List α
deriving DecidableEq

/-- Put a symbol in front of the first component. -/
def Cut.extend (symbol : α) : Cut α → Cut α
  | ⟨[], last⟩ => ⟨[], symbol :: last⟩
  | ⟨(part, ending) :: more, last⟩ => ⟨(symbol :: part, ending) :: more, last⟩

/-- Cut a sequence after every separator. -/
def cut (separator : α → Bool) : List α → Cut α
  | [] => ⟨[], []⟩
  | symbol :: rest =>
    let others := cut separator rest
    if separator symbol then ⟨([], symbol) :: others.ended, others.last⟩
    else others.extend symbol

/-- Edit every component and put the sequence together again. The edit of a component
that is ended sees the separator and replaces it too. -/
def Cut.join (edit : List α → α → List α) (finish : List α → List α) (pieces : Cut α) : List α :=
  (pieces.ended.flatMap fun piece => edit piece.1 piece.2) ++ finish pieces.last

variable {separator : α → Bool}

/-- A sequence without separators is one component. -/
theorem cut_plain {part : List α} (plain : ∀ symbol ∈ part, ¬ separator symbol) :
    cut separator part = ⟨[], part⟩ := by
  induction part with
  | nil => rfl
  | cons symbol part inductionHypothesis =>
    obtain ⟨inside, plain⟩ := List.forall_mem_cons.mp plain
    rw [cut, inductionHypothesis plain, if_neg inside]
    rfl

/-- The first component goes up to the first separator. -/
theorem cut_ended {part rest : List α} {ending : α} (plain : ∀ symbol ∈ part, ¬ separator symbol)
    (ends : separator ending) :
    cut separator (part ++ ending :: rest) =
      ⟨(part, ending) :: (cut separator rest).ended, (cut separator rest).last⟩ := by
  induction part with
  | nil => rw [List.nil_append, cut, if_pos ends]
  | cons symbol part inductionHypothesis =>
    obtain ⟨inside, plain⟩ := List.forall_mem_cons.mp plain
    rw [List.cons_append, cut, inductionHypothesis plain, if_neg inside]
    rfl

/-- A sequence is one component, or a component, its separator and a rest. -/
theorem first_component (separator : α → Bool) (symbols : List α) :
    (∀ symbol ∈ symbols, ¬ separator symbol) ∨
      ∃ part ending rest, symbols = part ++ ending :: rest ∧
        (∀ symbol ∈ part, ¬ separator symbol) ∧ separator ending := by
  induction symbols with
  | nil => exact Or.inl (by simp)
  | cons symbol rest inductionHypothesis =>
    by_cases inside : separator symbol
    · exact Or.inr ⟨[], symbol, rest, rfl, by simp, inside⟩
    · obtain plain | ⟨part, ending, more, rfl, plain, ends⟩ := inductionHypothesis
      · exact Or.inl (List.forall_mem_cons.mpr ⟨inside, plain⟩)
      · exact Or.inr ⟨symbol :: part, ending, more, rfl,
          List.forall_mem_cons.mpr ⟨inside, plain⟩, ends⟩

/-- A sequence of one component is joined by its last edit. -/
theorem join_plain {edit : List α → α → List α} {finish : List α → List α} {part : List α}
    (plain : ∀ symbol ∈ part, ¬ separator symbol) :
    (cut separator part).join edit finish = finish part := by
  rw [cut_plain plain]
  rfl

/-- The first component is edited and the rest joined after it. -/
theorem join_ended {edit : List α → α → List α} {finish : List α → List α} {part rest : List α}
    {ending : α} (plain : ∀ symbol ∈ part, ¬ separator symbol) (ends : separator ending) :
    (cut separator (part ++ ending :: rest)).join edit finish =
      edit part ending ++ (cut separator rest).join edit finish := by
  rw [cut_ended plain ends]
  simp [Cut.join]

/-- Induction over a sequence by its components, from the last one to the first. -/
theorem component_induction (separator : α → Bool) {motive : List α → Prop} (symbols : List α)
    (plain : ∀ part, (∀ symbol ∈ part, ¬ separator symbol) → motive part)
    (ended : ∀ part ending rest, (∀ symbol ∈ part, ¬ separator symbol) → separator ending →
      motive rest → motive (part ++ ending :: rest)) : motive symbols := by
  induction hlength : symbols.length using Nat.strongRecOn generalizing symbols with
  | ind length inductionHypothesis =>
    obtain clean | ⟨part, ending, rest, rfl, clean, ends⟩ := first_component separator symbols
    · exact plain symbols clean
    · have shorter : rest.length < length := by
        rw [← hlength, List.length_append, List.length_cons]
        omega
      exact ended part ending rest clean ends (inductionHypothesis rest.length shorter rest rfl)

/-- Symbols that no edit lets through are not in the joined sequence. -/
theorem not_mem_join {edit : List α → α → List α} {finish : List α → List α} {unwanted : α}
    (symbols : List α)
    (edited : ∀ part ending, (∀ symbol ∈ part, ¬ separator symbol) → separator ending →
      unwanted ∉ edit part ending)
    (finished : ∀ part, (∀ symbol ∈ part, ¬ separator symbol) → unwanted ∉ finish part) :
    unwanted ∉ (cut separator symbols).join edit finish := by
  induction symbols using component_induction separator with
  | plain part clean =>
    rw [join_plain clean]
    exact finished part clean
  | ended part ending rest clean ends inductionHypothesis =>
    rw [join_ended clean ends, List.mem_append]
    exact not_or_intro (edited part ending clean ends) inductionHypothesis

end Vx68k.Components
