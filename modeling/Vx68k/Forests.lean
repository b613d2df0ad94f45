import Mathlib.Data.Finset.Card
import Mathlib.Logic.Relation

/-!
# Forests given by a parent relation

`kin child parent` relates a node to its parents. A node descends from another
when a non-empty path of parents leads there. A relation without cycles on
finitely many children has a rank that grows towards the parents, which is what
a recursion over descendants decreases. Subtrees are pruned and leaves are added;
the lemmas say what becomes of descent.
-/

namespace Vx68k.Forests

variable {α : Type} {kin pruned : α → α → Prop}

/-- A path of one or more parents leads from the first node to the second. -/
def Descends (kin : α → α → Prop) : α → α → Prop := Relation.TransGen kin

/-- No node descends from itself. -/
def Acyclic (kin : α → α → Prop) : Prop := ∀ node, ¬ Descends kin node node

/-- A rank grows from every child to its parents. -/
def Ranks (rank : α → Nat) (kin : α → α → Prop) : Prop :=
  ∀ child parent, kin child parent → rank child < rank parent

/-- A rank grows along every path of parents. -/
theorem ranks_descends {rank : α → Nat} (ranks : Ranks rank kin) {node ancestor : α}
    (descends : Descends kin node ancestor) : rank node < rank ancestor := by
  induction descends with
  | single step => exact ranks _ _ step
  | tail _ step inductionHypothesis => exact Nat.lt_trans inductionHypothesis (ranks _ _ step)

/-- Owners of higher rank make no circle. -/
theorem ranks_acyclic {rank : α → Nat} (ranks : Ranks rank kin) : Acyclic kin :=
  fun _ descends => Nat.lt_irrefl _ (ranks_descends ranks descends)

/-- Without cycles, the number of descendants is a rank.

Proof: the descendants of a child descend from its parent too, and the child
itself is one more. -/
theorem acyclic_ranks (nodes : List α) (listed : ∀ child parent, kin child parent → child ∈ nodes)
    (acyclic : Acyclic kin) : ∃ rank, Ranks rank kin := by
  classical
  refine ⟨fun ancestor => (nodes.toFinset.filter fun node => Descends kin node ancestor).card, ?_⟩
  intro child parent step
  apply Finset.card_lt_card
  refine Finset.ssubset_iff_subset_ne.mpr ⟨?_, ?_⟩
  · intro node member
    obtain ⟨inside, descends⟩ := Finset.mem_filter.mp member
    exact Finset.mem_filter.mpr ⟨inside, descends.tail step⟩
  · intro same
    have inParent : child ∈ nodes.toFinset.filter fun node => Descends kin node parent :=
      Finset.mem_filter.mpr ⟨List.mem_toFinset.mpr (listed _ _ step), .single step⟩
    rw [← same] at inParent
    exact acyclic child (Finset.mem_filter.mp inParent).2

/-- Descent grows with the relation. -/
theorem descends_mono {other : α → α → Prop} (more : ∀ child parent, kin child parent → other child parent)
    {node ancestor : α} (descends : Descends kin node ancestor) : Descends other node ancestor :=
  Relation.TransGen.mono more _ _ descends

/-- A relation below an acyclic one is acyclic. -/
theorem acyclic_mono {other : α → α → Prop} (less : ∀ child parent, other child parent → kin child parent)
    (acyclic : Acyclic kin) : Acyclic other :=
  fun node descends => acyclic node (descends_mono less descends)

/-- Below a node whose children are all gone there is nothing. -/
theorem no_children_descends {ancestor : α} (none : ∀ child, ¬ kin child ancestor) (node : α) :
    ¬ Descends kin node ancestor := by
  intro descends
  obtain ⟨child, -, step⟩ := Relation.TransGen.tail'_iff.mp descends
  exact none child step

/-- When the subtree of a node is pruned, the other nodes keep their ancestors.

Proof: a path that met the subtree would put its start into the subtree. -/
theorem descends_prune {top : α}
    (kept : ∀ child parent, pruned child parent ↔
      kin child parent ∧ child ≠ top ∧ ¬ Descends kin child top)
    {node ancestor : α} (outside : node ≠ top ∧ ¬ Descends kin node top) :
    Descends pruned node ancestor ↔ Descends kin node ancestor := by
  constructor
  · exact descends_mono fun child parent step => ((kept child parent).mp step).1
  · intro descends
    induction descends using Relation.TransGen.head_induction_on with
    | single step => exact .single ((kept _ _).mpr ⟨step, outside⟩)
    | @head start middle step rest inductionHypothesis =>
      have beyond : middle ≠ top ∧ ¬ Descends kin middle top := by
        refine ⟨?_, fun inside => outside.2 (.head step inside)⟩
        rintro rfl
        exact outside.2 (.single step)
      exact .head ((kept _ _).mpr ⟨step, outside⟩) (inductionHypothesis beyond)

/-- A new leaf keeps a forest acyclic.

Proof: give the leaf rank zero and raise every other rank by one. -/
theorem ranks_leaf {rank : α → Nat} [DecidableEq α] (leaf under : α) (ranks : Ranks rank kin)
    (unrelated : ∀ other, ¬ kin leaf other ∧ ¬ kin other leaf) (different : under ≠ leaf) :
    Ranks (fun node => if node = leaf then 0 else rank node + 1)
      (fun child parent => kin child parent ∨ child = leaf ∧ parent = under) := by
  rintro child parent (step | ⟨rfl, rfl⟩)
  · have childOld : child ≠ leaf := by
      rintro rfl
      exact (unrelated parent).1 step
    have parentOld : parent ≠ leaf := by
      rintro rfl
      exact (unrelated child).2 step
    simpa [childOld, parentOld] using ranks child parent step
  · simp [different]

/-- A new leaf changes no other node's ancestors. -/
theorem descends_leaf {grown : α → α → Prop} {leaf under : α}
    (added : ∀ child parent, grown child parent ↔ kin child parent ∨ child = leaf ∧ parent = under)
    (childless : ∀ other, ¬ kin other leaf) {node ancestor : α} (old : node ≠ leaf) :
    Descends grown node ancestor ↔ Descends kin node ancestor := by
  constructor
  · intro descends
    induction descends using Relation.TransGen.head_induction_on with
    | single step =>
      exact .single (((added _ _).mp step).resolve_right fun new => old new.1)
    | @head start middle step rest inductionHypothesis =>
      have kept := ((added _ _).mp step).resolve_right fun new => old new.1
      refine .head kept (inductionHypothesis ?_)
      rintro rfl
      exact childless _ kept
  · exact descends_mono fun child parent step => (added child parent).mpr (Or.inl step)

end Vx68k.Forests
