import Mathlib.Algebra.GroupWithZero.Nat
import Mathlib.Data.List.Nodup
import Mathlib.Data.List.Perm.Basic
import Mathlib.Data.List.Range

/-!
# Salsa.Lib.BitSet — sets of small numbers in one machine word

A bit vector as the set of the positions of its one bits, `s.getLsbD i` being
membership. `only` and `below` build sets, `countOnes` and `trailingZeros` are the
machine's operations, and `onlyOne` names the one member of a set with one member
(`onlyOne_eq_some_iff`).
-/

namespace BitSet

open List BitVec

variable {w : ℕ} {s : BitVec w}

def only (i : ℕ) : BitVec w := BitVec.twoPow w i

/-- The numbers below `n`: all ones, or a flag minus one. -/
def below (n : ℕ) : BitVec w := if n = w then BitVec.allOnes w else only n - 1

def countOnes (s : BitVec w) : ℕ := (List.range w).countP s.getLsbD

/-- The lowest member, or the width. -/
def trailingZeros (s : BitVec w) : ℕ := ((List.range w).find? s.getLsbD).getD w

/-- The member of a set that has one member. -/
def onlyOne (s : BitVec w) : Option ℕ :=
  if countOnes s = 1 then some (trailingZeros s) else none

theorem eq_zero_iff : s = 0 ↔ ∀ i, s.getLsbD i = false := by
  constructor
  · rintro rfl i
    simp
  · intro h
    apply eq_of_getLsbD_eq
    intro i _
    simp [h i]

theorem getLsbD_trailingZeros (h : s ≠ 0) : s.getLsbD (trailingZeros s) = true := by
  rw [Ne, eq_zero_iff, not_forall] at h
  obtain ⟨i, hi⟩ := h
  have hsome : ((range w).find? s.getLsbD).isSome = true := by
    rw [find?_isSome]
    have hi' : s.getLsbD i = true := by simpa using hi
    exact ⟨i, mem_range.mpr (lt_of_getLsbD hi'), hi'⟩
  obtain ⟨j, hj⟩ := Option.isSome_iff_exists.mp hsome
  rw [trailingZeros, hj]
  exact find?_some hj

@[simp] theorem getLsbD_only (i j : ℕ) : (only i : BitVec w).getLsbD j = decide
    (j < w ∧ i = j) := by
  rw [only, getLsbD_twoPow]
  by_cases h : i < w <;> by_cases hij : i = j <;> simp [*]

theorem getLsbD_below {n : ℕ} (h : n ≤ w) (i : ℕ) :
    (below n : BitVec w).getLsbD i = decide (i < n) := by
  unfold below
  split
  · rename_i heq
    subst heq
    simp
  · have hlt : n < w := by omega
    have hone : (1#w).toNat = 1 := toNat_one (by omega)
    have hflag : (only n : BitVec w).toNat = 2 ^ n := by
      rw [only, toNat_twoPow]
      exact Nat.mod_eq_of_lt (Nat.pow_lt_pow_right (by omega) hlt)
    have hle : (1#w).toNat ≤ (only n : BitVec w).toNat := by
      rw [hone, hflag]
      exact Nat.one_le_two_pow
    have hsub : (only n - 1#w : BitVec w).toNat = 2 ^ n - 1 := by
      rw [toNat_sub_of_le (le_def.mpr hle), hflag, hone]
    change (only n - 1#w : BitVec w).toNat.testBit i = _
    rw [hsub, Nat.testBit_two_pow_sub_one]

/-- Counting to one is having one member. -/
theorem onlyOne_eq_some_iff {i : ℕ} : onlyOne s = some i ↔ ∀ j, s.getLsbD j = true ↔ j = i := by
  have hmem : ∀ j, j ∈ (range w).filter s.getLsbD ↔ s.getLsbD j = true := by
    intro j
    rw [mem_filter, mem_range]
    exact ⟨fun h => h.2, fun h => ⟨lt_of_getLsbD h, h⟩⟩
  have hnodup : ((range w).filter s.getLsbD).Nodup := nodup_range.filter _
  have hfind : (range w).find? s.getLsbD = ((range w).filter s.getLsbD).head? := head?_filter.symm
  unfold onlyOne countOnes trailingZeros
  rw [countP_eq_length_filter, hfind]
  constructor
  · intro h j
    split_ifs at h with hone
    obtain ⟨a, ha⟩ := length_eq_one_iff.mp hone
    cases h
    rw [← hmem, ha, mem_singleton]
    rfl
  · intro h
    have hperm : ((range w).filter s.getLsbD).Perm [i] := by
      refine (perm_ext_iff_of_nodup hnodup (nodup_singleton i)).mpr fun j => ?_
      rw [hmem, h, mem_singleton]
    rw [perm_singleton.mp hperm]
    rfl

end BitSet
