import Mathlib.Algebra.BigOperators.Group.Finset.Basic
import Salsa.Lib.Visit

/-!
# Salsa.Lib.Subtree — sums and induction over the nodes below a node

Over a finite set of nodes that is closed under parents: a property that a node has when
its children have it holds everywhere (`Forest.up_induction`), and a sum over a subtree is
the node's own value and the sums over the subtrees of its children (`Forest.sum_subtree`).
-/

namespace Forest

open Relation Finset

variable {κ : Type} {F : Forest κ} {nodes : Finset κ} {k c x : κ}

open Classical in
/-- The nodes of the set below `k`. -/
noncomputable def subtree (F : Forest κ) (nodes : Finset κ) (k : κ) : Finset κ :=
  nodes.filter (F.Below k)

theorem mem_subtree : x ∈ F.subtree nodes k ↔ x ∈ nodes ∧ F.Below k x := by
  classical
  rw [subtree, mem_filter]

theorem not_below_of_parent (hc : F.parent c = some k) : ¬ F.Below c k := by
  intro hb
  have hle := Below.rank_le hb
  have hlt := F.rank_lt hc
  omega

theorem subtree_ssubset (hk : k ∈ nodes) (hc : F.parent c = some k) :
    F.subtree nodes c ⊂ F.subtree nodes k := by
  rw [ssubset_iff_of_subset]
  · refine ⟨k, mem_subtree.mpr ⟨hk, .refl k⟩, ?_⟩
    intro hmem
    exact not_below_of_parent hc (mem_subtree.mp hmem).2
  · intro x hx
    obtain ⟨hx, hb⟩ := mem_subtree.mp hx
    exact mem_subtree.mpr ⟨hx, ReflTransGen.head hc hb⟩

/-- From the children to their parents. -/
theorem up_induction {P : κ → Prop}
    (step : ∀ k ∈ nodes, (∀ c ∈ nodes, F.parent c = some k → P c) → P k) : ∀ k ∈ nodes, P k := by
  intro k hk
  induction hn : (F.subtree nodes k).card using Nat.strong_induction_on generalizing k with
  | _ n ih =>
    apply step k hk
    intro c hc hpar
    exact ih _ (hn ▸ card_lt_card (subtree_ssubset hk hpar)) c hc rfl

variable (hup : ∀ {k p}, k ∈ nodes → F.parent k = some p → p ∈ nodes)
include hup

/-- A node of a subtree is its root or below one child. -/
theorem mem_subtree_iff (hk : k ∈ nodes) : x ∈ F.subtree nodes k ↔
      x = k ∨ ∃ c ∈ nodes, F.parent c = some k ∧ x ∈ F.subtree nodes c := by
  rw [mem_subtree]
  constructor
  · rintro ⟨hx, hb⟩
    rcases ReflTransGen.cases_head hb with rfl | ⟨c, hc, hcx⟩
    · exact Or.inl rfl
    · -- every node above a node of the set is in the set
      have hmem : c ∈ nodes := by
        clear hb hc
        induction hcx using ReflTransGen.head_induction_on with
        | refl => exact hx
        | head hpar _ ih => exact hup ih hpar
      exact Or.inr ⟨c, hmem, hc, mem_subtree.mpr ⟨hx, hcx⟩⟩
  · rintro (rfl | ⟨c, -, hc, hx⟩)
    · exact ⟨hk, .refl x⟩
    · obtain ⟨hx, hb⟩ := mem_subtree.mp hx
      exact ⟨hx, ReflTransGen.head hc hb⟩

/-- The sum over a subtree, child by child. -/
theorem sum_subtree (hk : k ∈ nodes) {children : Finset κ}
    (hchildren : ∀ c, c ∈ children ↔ c ∈ nodes ∧ F.parent c = some k) (value : κ → ℕ) :
    ∑ x ∈ F.subtree nodes k, value x =
      value k + ∑ c ∈ children, ∑ x ∈ F.subtree nodes c, value x := by
  classical
  have hsplit : F.subtree nodes k = insert k (children.biUnion (F.subtree nodes)) := by
    ext x
    rw [mem_subtree_iff hup hk, mem_insert, mem_biUnion]
    refine or_congr_right (exists_congr fun c => ?_)
    rw [hchildren, and_assoc]
  have hroot : k ∉ children.biUnion (F.subtree nodes) := by
    rw [mem_biUnion]
    rintro ⟨c, hc, hmem⟩
    exact not_below_of_parent ((hchildren c).mp hc).2 (mem_subtree.mp hmem).2
  have hdisjoint : (children : Set κ).PairwiseDisjoint (F.subtree nodes) := by
    intro a ha b hb hne
    apply disjoint_left.mpr
    intro x hxa hxb
    exact hne (Below.child_unique ((hchildren a).mp ha).2 ((hchildren b).mp hb).2
      (mem_subtree.mp hxa).2 (mem_subtree.mp hxb).2)
  rw [hsplit, sum_insert hroot, sum_biUnion hdisjoint]

end Forest
