import Mathlib.Logic.Relation
import Mathlib.Tactic.Common

/-!
# Salsa.Lib.Forest — nodes with parents, and their ancestors

A forest is given by the parent of each node, with a rank that grows from parents
to children. The ancestors of a node are computed by following the parents, which
takes at most as many steps as the rank of the node.

Over an arbitrary type of nodes.
-/

/-- Nodes with a parent of smaller rank, or none. -/
structure Forest (κ : Type*) where
  parent : κ → Option κ
  rank : κ → ℕ
  rank_lt : ∀ {k p : κ}, parent k = some p → rank p < rank k

namespace Forest

open Relation

variable {κ : Type*} (F : Forest κ)

/-- `a` is an ancestor of `b`, other than `b` itself. -/
def Ancestor : κ → κ → Prop := Relation.TransGen fun a b => F.parent b = some a

/-- The nearest ancestors first, at most `n` of them. -/
def ancestorsWithin : ℕ → κ → List κ
  | 0, _ => []
  | n + 1, k => (F.parent k).elim [] fun p => p :: ancestorsWithin n p

def ancestors (k : κ) : List κ := F.ancestorsWithin (F.rank k) k

variable {F}

theorem Ancestor.trans {a b c : κ} (h : F.Ancestor a b) (h' : F.Ancestor b c) : F.Ancestor a c :=
  TransGen.trans h h'

theorem Ancestor.rank_lt {a b : κ} (h : F.Ancestor a b) : F.rank a < F.rank b := by
  induction h with
  | single h => exact F.rank_lt h
  | tail _ h ih => exact Nat.lt_trans ih (F.rank_lt h)

theorem ancestor_iff {a b : κ} :
    F.Ancestor a b ↔ ∃ p, F.parent b = some p ∧ (a = p ∨ F.Ancestor a p) := by
  constructor
  · intro h
    obtain ⟨p, hap, hpb⟩ := TransGen.tail'_iff.mp h
    exact ⟨p, hpb, (Relation.reflTransGen_iff_eq_or_transGen.mp hap).imp_left Eq.symm⟩
  · rintro ⟨p, hpb, rfl | hap⟩
    · exact .single hpb
    · exact .tail hap hpb

theorem mem_ancestorsWithin {n : ℕ} {a k : κ} (hn : F.rank k ≤ n) :
    a ∈ F.ancestorsWithin n k ↔ F.Ancestor a k := by
  induction n generalizing k with
  | zero =>
    constructor
    · intro h
      cases h
    · intro h
      have hlt := h.rank_lt
      omega
  | succ n ih =>
    rw [ancestor_iff, ancestorsWithin]
    cases hp : F.parent k with
    | none =>
      constructor
      · intro h
        cases h
      · rintro ⟨p, hp, -⟩
        cases hp
    | some p =>
      have hlt := F.rank_lt hp
      rw [Option.elim_some, List.mem_cons, ih (by omega)]
      constructor
      · intro h
        exact ⟨p, rfl, h⟩
      · rintro ⟨p', hp', h⟩
        cases hp'
        exact h

theorem mem_ancestors {a k : κ} : a ∈ F.ancestors k ↔ F.Ancestor a k :=
  mem_ancestorsWithin (Nat.le_refl _)

end Forest
