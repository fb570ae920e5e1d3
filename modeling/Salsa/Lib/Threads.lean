import Mathlib.Algebra.Order.BigOperators.Group.Finset

/-!
# Salsa.Lib.Threads — weighing the program counters of finitely many threads

`weight w pcs` sums a weight over the program counters of all threads: how many
threads are at some points of their code, how much they hold between two of
them. One thread moves at a time, so `weight_update` is all that a step lemma
needs.
-/

namespace Threads

open Function Finset

variable {Tid Pc : Type} [Fintype Tid] [DecidableEq Tid]

/-- The sum of a weight over all threads. -/
def weight (w : Pc → ℕ) (pcs : Tid → Pc) : ℕ := ∑ t, w (pcs t)

/-- Moving one thread exchanges its weight. -/
theorem weight_update (w : Pc → ℕ) (pcs : Tid → Pc) (t : Tid) (pc : Pc) :
    weight w (update pcs t pc) + w (pcs t) = weight w pcs + w pc := by
  unfold weight
  rw [← add_sum_erase _ _ (mem_univ t), ← add_sum_erase univ (fun t => w (pcs t)) (mem_univ t)]
  have hrest : ∑ x ∈ univ.erase t, w (update pcs t pc x) = ∑ x ∈ univ.erase t, w (pcs x) := by
    refine sum_congr rfl fun x hx => ?_
    rw [update_of_ne (ne_of_mem_erase hx)]
  rw [hrest, update_self]
  omega

section

omit [DecidableEq Tid]

/-- One thread's weight is part of the sum. -/
theorem le_weight (w : Pc → ℕ) (pcs : Tid → Pc) (t : Tid) : w (pcs t) ≤ weight w pcs :=
  single_le_sum (f := fun t => w (pcs t)) (fun _ _ => Nat.zero_le _) (mem_univ t)

variable {w v : Pc → ℕ} {pcs : Tid → Pc}

theorem weight_mono (h : ∀ pc, w pc ≤ v pc) (pcs : Tid → Pc) :
    weight w pcs ≤ weight v pcs :=
  sum_le_sum fun t _ => h (pcs t)

theorem weight_eq_zero {w : Pc → ℕ} (h : ∀ t, w (pcs t) = 0) : weight w pcs = 0 :=
  sum_eq_zero fun t _ => h t

/-- A weight that only threads of another weight have is zero with it. -/
theorem weight_eq_zero_of_le (hle : ∀ pc, w pc ≠ 0 → v pc ≠ 0)
    (h : weight v pcs = 0) : weight w pcs = 0 := by
  refine weight_eq_zero fun t => ?_
  by_contra hne
  have := le_weight v pcs t
  have := hle _ hne
  omega

end

end Threads
