import Mathlib.Data.List.Basic

/-!
# Lists of terminated strings

A list of strings is laid out as its strings, each followed by a terminator, and is
ended by an empty string: one more terminator. The reader takes a sequence of symbols
apart up to that empty string and fails if the sequence ends before. The symbols and
the terminator are parameters.
-/

namespace Vx68k.TerminatedStrings

variable {α : Type} [DecidableEq α] (stop : α)

/-- Strings with their terminators, without the final empty string. -/
def terminated : List (List α) → List α
  | [] => []
  | entry :: rest => entry ++ stop :: terminated rest

/-- Read strings up to an empty one; `current` has been read of the first string. -/
def strings (current : List α) : List α → Option (List (List α))
  | [] => none
  | symbol :: rest =>
    if symbol = stop then
      if current = [] then some [] else (strings [] rest).map (current :: ·)
    else strings (current ++ [symbol]) rest

/-- A string that can stand in a list: it is not empty and has no terminator inside. -/
def Proper (entry : List α) : Prop := entry ≠ [] ∧ stop ∉ entry

variable {stop}

/-- Reading goes through a string without terminators to its end. -/
theorem strings_entry (current entry rest : List α) (clean : stop ∉ entry)
    (some : current ++ entry ≠ []) :
    strings stop current (entry ++ stop :: rest) =
      (strings stop [] rest).map ((current ++ entry) :: ·) := by
  induction entry generalizing current with
  | nil =>
    rw [List.append_nil] at some ⊢
    rw [List.nil_append, strings, if_pos rfl, if_neg some]
  | cons symbol entry inductionHypothesis =>
    obtain ⟨different, clean⟩ := List.ne_and_not_mem_of_not_mem_cons clean
    have shape : current ++ symbol :: entry = current ++ [symbol] ++ entry := by simp
    rw [List.cons_append, strings, if_neg different.symm, shape]
    exact inductionHypothesis (current ++ [symbol]) clean (by simp)

/-- Reading goes through a list of proper strings to what follows. -/
theorem strings_terminated (entries : List (List α)) (rest : List α)
    (proper : ∀ entry ∈ entries, Proper stop entry) :
    strings stop [] (terminated stop entries ++ rest) =
      (strings stop [] rest).map (entries ++ ·) := by
  induction entries with
  | nil => simp [terminated]
  | cons entry entries inductionHypothesis =>
    obtain ⟨some, clean⟩ := proper entry List.mem_cons_self
    rw [terminated, List.append_assoc, List.cons_append, strings_entry [] entry _ clean some,
      inductionHypothesis fun other member => proper other (List.mem_cons_of_mem _ member),
      Option.map_map]
    rfl

/-- A string that has begun is read. -/
theorem strings_begun (current symbols : List α) (begun : current ≠ []) :
    strings stop current symbols ≠ some [] := by
  induction symbols generalizing current with
  | nil => simp [strings]
  | cons symbol rest inductionHypothesis =>
    rw [strings]
    split
    · simp
    · exact inductionHypothesis (current ++ [symbol]) (by simp)

/-- No string is read exactly where a terminator comes first. -/
theorem strings_none (symbols : List α) :
    strings stop [] symbols = some [] ↔ symbols.head? = some stop := by
  cases symbols with
  | nil => simp [strings]
  | cons symbol rest =>
    rw [strings, List.head?_cons, Option.some.injEq]
    by_cases final : symbol = stop
    · simp [final]
    · rw [if_neg final]
      constructor
      · intro read
        exact absurd read (strings_begun _ rest (by simp))
      · exact fun same => absurd same final

/-- A list of proper strings is read back exactly when a terminator follows it. -/
theorem strings_iff (entries : List (List α)) (rest : List α)
    (proper : ∀ entry ∈ entries, Proper stop entry) :
    strings stop [] (terminated stop entries ++ rest) = some entries ↔
      rest.head? = some stop := by
  rw [strings_terminated entries rest proper, ← strings_none, Option.map_eq_some_iff]
  constructor
  · rintro ⟨others, read, same⟩
    rw [read, List.append_right_eq_self.mp same]
  · exact fun read => ⟨[], read, List.append_nil entries⟩

/-- The strings that are read take up symbols, and so does the final terminator. -/
theorem strings_length {current symbols : List α} {entries : List (List α)}
    (read : strings stop current symbols = some entries) :
    (terminated stop entries).length + 1 ≤ current.length + symbols.length := by
  induction symbols generalizing current entries with
  | nil => simp [strings] at read
  | cons symbol rest inductionHypothesis =>
    rw [strings] at read
    split at read
    · split at read
      · obtain rfl : [] = entries := Option.some.inj read
        simp only [terminated, List.length_nil, List.length_cons]
        omega
      · obtain ⟨others, later, rfl⟩ := Option.map_eq_some_iff.mp read
        have length := inductionHypothesis later
        simp only [terminated, List.length_append, List.length_cons, List.length_nil] at length ⊢
        omega
    · have length := inductionHypothesis read
      simp only [List.length_append, List.length_cons, List.length_nil] at length ⊢
      omega

end Vx68k.TerminatedStrings
