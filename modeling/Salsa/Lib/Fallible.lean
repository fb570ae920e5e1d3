import Mathlib.Tactic.Common

/-!
# Salsa.Lib.Fallible — when a fallible computation succeeds

A chain of checks in `Except` succeeds exactly if each of them does, and so does a list of lookups
in `Option`.
-/

namespace Fallible

open List

universe u

variable {ε : Type*} {α β : Type u}

theorem error_ne_ok {e : ε} {a : α} : (.error e : Except ε α) ≠ .ok a := by
  intro h
  cases h

variable {x : Except ε α} {b : β}

theorem bind_eq_ok_iff {f : α → Except ε β} : (x >>= f) = .ok b ↔ ∃ a, x = .ok a ∧ f a = .ok b := by
  cases x with
  | error e =>
    constructor
    · intro h
      cases h
    · rintro ⟨a, h, -⟩
      cases h
  | ok a =>
    constructor
    · intro h
      exact ⟨a, rfl, h⟩
    · rintro ⟨a', h, hb⟩
      cases h
      exact hb

/-- A check and what follows it. -/
theorem check_bind_eq_ok_iff {x : Except ε PUnit} {f : PUnit → Except ε β} :
    (x >>= f) = .ok b ↔ x = .ok ⟨⟩ ∧ f ⟨⟩ = .ok b := by
  rw [bind_eq_ok_iff]
  constructor
  · rintro ⟨⟨⟩, hx, hb⟩
    exact ⟨hx, hb⟩
  · rintro ⟨hx, hb⟩
    exact ⟨_, hx, hb⟩

theorem map_eq_ok_iff {f : α → β} : (f <$> x) = .ok b ↔ ∃ a, x = .ok a ∧ f a = b := by
  cases x with
  | error e =>
    constructor
    · intro h
      cases h
    · rintro ⟨a, h, -⟩
      cases h
  | ok a =>
    constructor
    · intro h
      cases h
      exact ⟨a, rfl, rfl⟩
    · rintro ⟨a', h, hb⟩
      cases h
      exact congrArg _ hb

theorem exists_map_eq_ok_iff {f : α → β} : (∃ b, (f <$> x) = .ok b) ↔ ∃ a, x = .ok a := by
  constructor
  · rintro ⟨b, hb⟩
    obtain ⟨a, ha, -⟩ := map_eq_ok_iff.mp hb
    exact ⟨a, ha⟩
  · rintro ⟨a, ha⟩
    exact ⟨f a, map_eq_ok_iff.mpr ⟨a, ha, rfl⟩⟩

theorem guard_eq_ok_iff {p : Prop} [Decidable p] {e : ε} {a : α} :
    (if p then .error e else x) = .ok a ↔ ¬ p ∧ x = .ok a := by
  by_cases hp : p
  · rw [if_pos hp]
    constructor
    · intro h
      cases h
    · intro h
      exact absurd hp h.1
  · rw [if_neg hp]
    exact (and_iff_right hp).symm

variable {f : α → Option β} {l : List α}

/-- `mapM` of a function that gives a value everywhere. -/
theorem mapM_eq_some {g : α → β} (h : ∀ a ∈ l, f a = some (g a)) : l.mapM f = some (l.map g) := by
  induction l with
  | nil => rfl
  | cons a l ih =>
    rw [mapM_cons, h a mem_cons_self, ih fun a' ha' => h a' (mem_cons_of_mem a ha')]
    rfl

theorem mapM_eq_some_filterMap (h : ∀ a ∈ l, ∃ b, f a = some b) :
    l.mapM f = some (l.filterMap f) ∧ (l.filterMap f).length = l.length := by
  induction l with
  | nil => exact ⟨rfl, rfl⟩
  | cons a l ih =>
    obtain ⟨b, hb⟩ := h a mem_cons_self
    obtain ⟨hmap, hlen⟩ := ih fun a' ha' => h a' (mem_cons_of_mem a ha')
    simp [hb, hmap, hlen]

theorem exists_mapM_eq_some (h : ∀ a ∈ l, ∃ b, f a = some b) :
    ∃ l', l.mapM f = some l' := ⟨_, (mapM_eq_some_filterMap h).1⟩

end Fallible
