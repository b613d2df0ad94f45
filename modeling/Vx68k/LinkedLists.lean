import Mathlib.Data.List.Chain
import Mathlib.Data.List.Nodup

/-!
# Doubly linked lists

Two maps give every node its lower and its upper neighbour. A list of nodes is
linked when the maps agree with it on every pair of neighbours. A ring is such a
list closed by a sentinel, which is below the last node and above the first; what
a program keeps as a pair of end pointers are the sentinel's neighbours, so a
node at an end is inserted and removed as one in the middle is.

The edits are described by what they do to the two maps. They hold for any nodes,
however the maps are stored.
-/

namespace Vx68k.LinkedLists

variable {α : Type} {down up down' up' : α → α}

/-- Neighbours in the list are neighbours in both maps. -/
def Linked (down up : α → α) (nodes : List α) : Prop :=
  nodes.IsChain fun upper lower => down upper = lower ∧ up lower = upper

/-- A linked list closed by a sentinel at both ends. -/
def Ring (down up : α → α) (sentinel : α) (nodes : List α) : Prop :=
  Linked down up (sentinel :: (nodes ++ [sentinel]))

/-- Linking reads the lower neighbour of every node but the last and the upper
neighbour of every node but the first. -/
theorem linked_congr (nodes : List α) (linked : Linked down up nodes)
    (downs : ∀ node ∈ nodes.dropLast, down' node = down node)
    (ups : ∀ node ∈ nodes.tail, up' node = up node) : Linked down' up' nodes := by
  induction nodes with
  | nil => exact List.isChain_nil
  | cons first rest inductionHypothesis =>
    cases rest with
    | nil => exact List.isChain_singleton first
    | cons second others =>
      obtain ⟨⟨below, above⟩, later⟩ := List.isChain_cons_cons.mp linked
      refine List.isChain_cons_cons.mpr ⟨⟨?_, ?_⟩, inductionHypothesis later ?_ ?_⟩
      · rw [downs first (by simp), below]
      · rw [ups second (by simp), above]
      · exact fun node member => downs node (by simp [member])
      · exact fun node member => ups node (List.mem_of_mem_tail member)

/-- Linked lists are joined by linking the last node of one to the first of the
other. -/
theorem linked_append (front back : List α) (last first : α) :
    Linked down up (front ++ last :: first :: back) ↔
      Linked down up (front ++ [last]) ∧ (down last = first ∧ up first = last) ∧
        Linked down up (first :: back) :=
  List.isChain_append_cons_cons

/-- A linked list without repetitions is determined by its two ends. -/
theorem linked_unique (nodes others : List α) (one : Linked down up nodes)
    (other : Linked down up others) (distinct : nodes.Nodup) (different : others.Nodup)
    (head : nodes.head? = others.head?) (last : nodes.getLast? = others.getLast?) :
    nodes = others := by
  induction nodes generalizing others with
  | nil => simpa using head.symm
  | cons node rest inductionHypothesis =>
    obtain ⟨remaining, rfl⟩ : ∃ remaining, others = node :: remaining := by
      cases others with
      | nil => simp at head
      | cons first remaining =>
        obtain rfl : node = first := by simpa using head
        exact ⟨remaining, rfl⟩
    have away := (List.nodup_cons.mp distinct).1
    have apart := (List.nodup_cons.mp different).1
    cases rest with
    | nil =>
      cases remaining with
      | nil => rfl
      | cons second others =>
        rw [List.getLast?_cons_cons] at last
        exact absurd (List.mem_of_getLast? last.symm) apart
    | cons second nodes =>
      obtain ⟨⟨below, -⟩, later⟩ := List.isChain_cons_cons.mp one
      cases remaining with
      | nil =>
        rw [List.getLast?_cons_cons] at last
        exact absurd (List.mem_of_getLast? last) away
      | cons third others =>
        obtain ⟨⟨under, -⟩, following⟩ := List.isChain_cons_cons.mp other
        obtain rfl : second = third := below.symm.trans under
        rw [inductionHypothesis (second :: others) later following (List.nodup_cons.mp distinct).2
          (List.nodup_cons.mp different).2 rfl (by simpa [List.getLast?_cons_cons] using last)]

/-- Below a position in a ring comes the rest of the list, then the sentinel. -/
theorem ring_down (sentinel node : α) (upper lower : List α)
    (ring : Ring down up sentinel (upper ++ node :: lower)) :
    down node = lower.headD sentinel := by
  have parts : Linked down up ((sentinel :: upper) ++ node :: (lower ++ [sentinel])) := by
    simpa [Ring] using ring
  have rest : Linked down up (node :: (lower ++ [sentinel])) := parts.right_of_append
  cases lower with
  | nil => exact (List.isChain_cons_cons.mp rest).1.1
  | cons below others => exact (List.isChain_cons_cons.mp rest).1.1

/-- Above a position in a ring is the node before it, or the sentinel. -/
theorem ring_up (sentinel node : α) (upper lower : List α)
    (ring : Ring down up sentinel (upper ++ node :: lower)) :
    up node = upper.getLastD sentinel := by
  have parts : Linked down up ((sentinel :: upper) ++ node :: (lower ++ [sentinel])) := by
    simpa [Ring] using ring
  cases upper using List.reverseRecOn with
  | nil => exact (List.isChain_cons_cons.mp parts).1.2
  | append_singleton front last =>
    have shape : (sentinel :: (front ++ [last])) ++ node :: (lower ++ [sentinel]) =
        (sentinel :: front) ++ last :: node :: (lower ++ [sentinel]) := by simp
    rw [shape] at parts
    rw [List.getLastD_concat]
    exact ((linked_append _ _ _ _).mp parts).2.1.2

/-- Below the sentinel is the first node. -/
theorem ring_first (sentinel : α) (nodes : List α) (ring : Ring down up sentinel nodes) :
    down sentinel = nodes.headD sentinel := by
  cases nodes with
  | nil => exact (List.isChain_cons_cons.mp ring).1.1
  | cons node rest => exact (List.isChain_cons_cons.mp ring).1.1

/-- A list with the sentinel before it ends in its last node or the sentinel. -/
theorem cons_getLastD (sentinel : α) (upper : List α) :
    ∃ front, sentinel :: upper = front ++ [upper.getLastD sentinel] := by
  cases upper using List.reverseRecOn with
  | nil => exact ⟨[], rfl⟩
  | append_singleton front last => exact ⟨sentinel :: front, by simp⟩

/-- A list with the sentinel after it begins with its first node or the sentinel. -/
theorem append_headD (sentinel : α) (lower : List α) :
    ∃ back, lower ++ [sentinel] = lower.headD sentinel :: back := by
  cases lower with
  | nil => exact ⟨[], rfl⟩
  | cons node rest => exact ⟨rest ++ [sentinel], rfl⟩

/-- The neighbour on one side is in the list, or the sentinel. -/
theorem getLastD_mem (sentinel : α) (upper lower : List α) :
    upper.getLastD sentinel ∈ sentinel :: (upper ++ lower) := by
  obtain ⟨front, above⟩ := cons_getLastD sentinel upper
  rw [← List.cons_append, above]
  simp

/-- So is the neighbour on the other side. -/
theorem headD_mem (sentinel : α) (upper lower : List α) :
    lower.headD sentinel ∈ sentinel :: (upper ++ lower) := by
  cases lower with
  | nil => simp
  | cons node rest => simp

/-- A ring is cut between any two of its neighbours. -/
theorem ring_cut (sentinel : α) (upper lower : List α) :
    Ring down up sentinel (upper ++ lower) ↔
      Linked down up (sentinel :: upper) ∧
        (down (upper.getLastD sentinel) = lower.headD sentinel ∧
          up (lower.headD sentinel) = upper.getLastD sentinel) ∧
        Linked down up (lower ++ [sentinel]) := by
  obtain ⟨front, high⟩ := cons_getLastD sentinel upper
  obtain ⟨back, low⟩ := append_headD sentinel lower
  have shape : sentinel :: ((upper ++ lower) ++ [sentinel]) =
      front ++ upper.getLastD sentinel :: lower.headD sentinel :: back := by
    rw [List.append_assoc, ← List.cons_append, high, low, List.append_assoc]
    rfl
  rw [Ring, shape, linked_append, high, low]

/-- The node below a cut is not one of those above it. -/
theorem head_apart {sentinel : α} {upper lower : List α}
    (distinct : (sentinel :: (upper ++ lower)).Nodup) :
    ∀ node ∈ upper, node ≠ lower.headD sentinel := by
  rintro node member rfl
  have parts := List.nodup_cons.mp distinct
  cases lower with
  | nil => exact parts.1 (by simpa using member)
  | cons head rest =>
    exact (List.nodup_append.mp parts.2).2.2 _ member head (by simp) (by simp)

/-- The node above a cut is not one of those below it. -/
theorem last_apart {sentinel : α} {upper lower : List α}
    (distinct : (sentinel :: (upper ++ lower)).Nodup) :
    ∀ node ∈ lower, node ≠ upper.getLastD sentinel := by
  rintro node member rfl
  have parts := List.nodup_cons.mp distinct
  rcases List.mem_cons.mp (getLastD_mem sentinel upper []) with same | inUpper
  · exact parts.1 (same ▸ List.mem_append_right upper member)
  · exact (List.nodup_append.mp parts.2).2.2 _ (by simpa using inUpper) _ member rfl

/-- The two halves of a ring do not notice a change of the links between them. -/
theorem halves_congr [DecidableEq α] (sentinel high low : α) (upper lower : List α)
    (distinct : (sentinel :: (upper ++ lower)).Nodup)
    (downs : ∀ node ∈ sentinel :: (upper ++ lower),
      down' node = if node = upper.getLastD sentinel then high else down node)
    (ups : ∀ node ∈ sentinel :: (upper ++ lower),
      up' node = if node = lower.headD sentinel then low else up node)
    (top : Linked down up (sentinel :: upper)) (bottom : Linked down up (lower ++ [sentinel])) :
    Linked down' up' (sentinel :: upper) ∧ Linked down' up' (lower ++ [sentinel]) := by
  obtain ⟨front, above⟩ := cons_getLastD sentinel upper
  obtain ⟨back, below⟩ := append_headD sentinel lower
  have topDistinct : (front ++ [upper.getLastD sentinel]).Nodup := by
    rw [← above]
    exact distinct.sublist (by simp)
  have bottomDistinct : (lower.headD sentinel :: back).Nodup := by
    rw [← below]
    have parts := List.nodup_cons.mp distinct
    have lowerDistinct : lower.Nodup := (List.nodup_append.mp parts.2).2.1
    exact List.nodup_append.mpr ⟨lowerDistinct, by simp, by
      rintro node member other same rfl
      rw [List.mem_singleton] at same
      exact parts.1 (by simp [← same, member])⟩
  constructor
  · apply linked_congr _ top
    · intro node member
      rw [above, List.dropLast_concat] at member
      have different : node ≠ upper.getLastD sentinel :=
        (List.nodup_append.mp topDistinct).2.2 node member _ (by simp)
      have inTop : node ∈ sentinel :: upper := by rw [above]; simp [member]
      rw [downs node (by simp at inTop ⊢; tauto), if_neg different]
    · intro node member
      rw [ups node (by simp at member ⊢; tauto), if_neg (head_apart distinct node member)]
  · apply linked_congr _ bottom
    · intro node member
      rw [List.dropLast_concat] at member
      rw [downs node (by simp [member]), if_neg (last_apart distinct node member)]
    · intro node member
      rw [below, List.tail_cons] at member
      have different : node ≠ lower.headD sentinel := by
        rintro rfl
        exact (List.nodup_cons.mp bottomDistinct).1 member
      have inBottom : node ∈ lower ++ [sentinel] := by rw [below]; simp [member]
      rw [ups node (by simp at inBottom ⊢; tauto), if_neg different]

/-- Insert a node: its neighbours are linked to it and it to them. -/
theorem ring_insert [DecidableEq α] (sentinel node : α) (upper lower : List α)
    (distinct : (sentinel :: (upper ++ lower)).Nodup)
    (ring : Ring down up sentinel (upper ++ lower))
    (downs : ∀ other ∈ sentinel :: (upper ++ lower),
      down' other = if other = upper.getLastD sentinel then node else down other)
    (ups : ∀ other ∈ sentinel :: (upper ++ lower),
      up' other = if other = lower.headD sentinel then node else up other)
    (nodeDown : down' node = lower.headD sentinel) (nodeUp : up' node = upper.getLastD sentinel) :
    Ring down' up' sentinel (upper ++ node :: lower) := by
  obtain ⟨top, -, bottom⟩ := (ring_cut sentinel upper lower).mp ring
  obtain ⟨top, bottom⟩ := halves_congr sentinel node node upper lower distinct downs ups top bottom
  obtain ⟨back, below⟩ := append_headD sentinel lower
  have high := downs _ (getLastD_mem sentinel upper lower)
  have low := ups _ (headD_mem sentinel upper lower)
  refine (ring_cut sentinel upper (node :: lower)).mpr ⟨top, ⟨?_, nodeUp⟩, ?_⟩
  · rw [high, if_pos rfl, List.headD_cons]
  · rw [List.cons_append, below]
    exact List.isChain_cons_cons.mpr ⟨⟨nodeDown, by rw [low, if_pos rfl]⟩, below ▸ bottom⟩

/-- Remove a node: its neighbours are linked to each other. -/
theorem ring_remove [DecidableEq α] (sentinel node : α) (upper lower : List α)
    (distinct : (sentinel :: (upper ++ lower)).Nodup)
    (ring : Ring down up sentinel (upper ++ node :: lower))
    (downs : ∀ other ∈ sentinel :: (upper ++ lower), down' other =
      if other = upper.getLastD sentinel then lower.headD sentinel else down other)
    (ups : ∀ other ∈ sentinel :: (upper ++ lower), up' other =
      if other = lower.headD sentinel then upper.getLastD sentinel else up other) :
    Ring down' up' sentinel (upper ++ lower) := by
  obtain ⟨top, -, bottom⟩ := (ring_cut sentinel upper (node :: lower)).mp ring
  obtain ⟨top, bottom⟩ := halves_congr sentinel _ _ upper lower distinct downs ups top bottom.tail
  have high := downs _ (getLastD_mem sentinel upper lower)
  have low := ups _ (headD_mem sentinel upper lower)
  rw [if_pos rfl] at high low
  exact (ring_cut sentinel upper lower).mpr ⟨top, ⟨high, low⟩, bottom⟩

end Vx68k.LinkedLists
