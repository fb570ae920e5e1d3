import Mathlib.Algebra.BigOperators.Group.List.Basic
import Mathlib.Algebra.GroupWithZero.Nat

/-!
# Salsa.Lib.Saturating — unsigned machine arithmetic that stops at the top

`saturatingAdd` and `saturatingMul` on bit vectors of any width, and what a
counter is after a list of additions: with saturation the true sum capped once
at the end (`toNat_foldl_saturatingAdd`), with wrapping the true sum modulo the
range (`toNat_foldl_add`), and subtracting the same values again undoes them
(`foldl_sub_foldl_add`). `toNat_counter_saturatingAdd` and `toNat_counter_add`
say the same of one counter of a larger state.
-/

namespace Saturating

open List BitVec

variable {w : ℕ}

/-- The largest value of the width. -/
def top (w : ℕ) : ℕ := 2 ^ w - 1

/-- The number, or the largest value if it does not fit. -/
def clamp (w n : ℕ) : BitVec w := BitVec.ofNat w (min (top w) n)

def saturatingAdd (a b : BitVec w) : BitVec w := clamp w (a.toNat + b.toNat)

def saturatingMul (a b : BitVec w) : BitVec w := clamp w (a.toNat * b.toNat)

def saturatingSub (a b : BitVec w) : BitVec w := BitVec.ofNat w (a.toNat - b.toNat)

@[simp] theorem toNat_clamp (n : ℕ) : (clamp w n).toNat = min (top w) n := by
  have hpos : 0 < 2 ^ w := Nat.two_pow_pos w
  rw [clamp, BitVec.toNat_ofNat, Nat.mod_eq_of_lt]
  unfold top
  omega

variable (a : BitVec w)

theorem toNat_le_top : a.toNat ≤ top w := Nat.le_pred_of_lt a.isLt

@[simp] theorem toNat_saturatingAdd (a b : BitVec w) :
    (saturatingAdd a b).toNat = min (top w) (a.toNat + b.toNat) :=
  toNat_clamp _

@[simp] theorem toNat_saturatingMul (a b : BitVec w) :
    (saturatingMul a b).toNat = min (top w) (a.toNat * b.toNat) :=
  toNat_clamp _

@[simp] theorem toNat_saturatingSub (a b : BitVec w) :
    (saturatingSub a b).toNat = a.toNat - b.toNat := by
  rw [saturatingSub, BitVec.toNat_ofNat, Nat.mod_eq_of_lt]
  omega

@[simp] theorem saturatingAdd_zero : saturatingAdd a 0#w = a := by
  apply eq_of_toNat_eq
  have := toNat_le_top a
  rw [toNat_saturatingAdd, toNat_ofNat, Nat.zero_mod, Nat.add_zero]
  omega

/-- The sum of two capped numbers is their sum, capped. -/
theorem toNat_saturatingAdd_of_eq_min {a b : BitVec w} {m n : ℕ} (ha : a.toNat = min (top w) m)
    (hb : b.toNat = min (top w) n) : (saturatingAdd a b).toNat = min (top w) (m + n) := by
  rw [toNat_saturatingAdd, ha, hb]
  omega

/-- The true sum of some values. -/
def total (xs : List (BitVec w)) : ℕ := (xs.map BitVec.toNat).sum

@[simp] theorem total_nil : total ([] : List (BitVec w)) = 0 := rfl

@[simp] theorem total_cons (x : BitVec w) (xs : List (BitVec w)) :
    total (x :: xs) = x.toNat + total xs := by
  simp [total]

theorem total_map {α : Type} (f : α → BitVec w) (l : List α) :
    total (l.map f) = (l.map fun x => (f x).toNat).sum := by
  rw [total, map_map]
  rfl

/-- Saturating along the way is capping at the end. -/
theorem toNat_foldl_saturatingAdd (xs : List (BitVec w)) :
    (xs.foldl saturatingAdd a).toNat = min (top w) (a.toNat + total xs) := by
  induction xs generalizing a with
  | nil =>
    have := toNat_le_top a
    simp [this]
  | cons x xs ih =>
    rw [foldl_cons, ih, toNat_saturatingAdd, total_cons]
    omega

/-- Wrapping along the way is reducing at the end. -/
theorem toNat_foldl_add (xs : List (BitVec w)) :
    (xs.foldl (· + ·) a).toNat = (a.toNat + total xs) % 2 ^ w := by
  induction xs generalizing a with
  | nil => simp [Nat.mod_eq_of_lt a.isLt]
  | cons x xs ih =>
    rw [foldl_cons, ih, toNat_add, total_cons, Nat.mod_add_mod, Nat.add_assoc]

/-- Wrapping there and back. -/
theorem foldl_sub_foldl_add (xs : List (BitVec w)) : xs.foldl (· - ·) (xs.foldl (· + ·) a) = a := by
  have hshift : ∀ (xs : List (BitVec w)) (a b : BitVec w),
      xs.foldl (· + ·) (a + b) = xs.foldl (· + ·) a + b := by
    intro xs
    induction xs with
    | nil =>
      intro a b
      rfl
    | cons x xs ih =>
      intro a b
      rw [foldl_cons, foldl_cons, BitVec.add_assoc, BitVec.add_comm b x, ← BitVec.add_assoc, ih]
  induction xs generalizing a with
  | nil => rfl
  | cons x xs ih => rw [foldl_cons, foldl_cons, hshift, BitVec.add_sub_cancel, ih]

section Counter

variable {σ α : Type} (counter : σ → BitVec w) {step : σ → α → σ} {amount : α → BitVec w}

/-- A counter of a state that every step of a fold adds to, with saturation. -/
theorem toNat_counter_saturatingAdd
    (h : ∀ s a, counter (step s a) = saturatingAdd (counter s) (amount a)) (s : σ) (l : List α) :
    (counter (l.foldl step s)).toNat = min (top w) ((counter s).toNat + total (l.map amount)) := by
  rw [← toNat_foldl_saturatingAdd, foldl_map]
  exact congrArg _ (foldl_hom counter fun s a => (h s a).symm).symm

/-- The same with wrapping. -/
theorem toNat_counter_add (h : ∀ s a, counter (step s a) = counter s + amount a) (s : σ)
    (l : List α) :
    (counter (l.foldl step s)).toNat = ((counter s).toNat + total (l.map amount)) % 2 ^ w := by
  rw [← toNat_foldl_add, foldl_map]
  exact congrArg _ (foldl_hom counter fun s a => (h s a).symm).symm

end Counter

end Saturating
