import Mathlib.Data.Finset.Card

/-!
# Salsa.Lib.Slab — stores that choose their keys

A slab by what it promises: it stores values under keys of its own choice, gives each
new value a key that is not in use, and fails to remove what is not there. Which
vacant key it takes is left open.

`Slab.ofList` is a slab kept as a list of entries, that takes the first vacant one.
-/

/-- A store that chooses its keys; `occupied` are the keys in use. -/
structure Slab (α : Type) where
  Carrier : Type
  withCapacity : ℕ → Carrier
  capacity : Carrier → ℕ
  get : Carrier → ℕ → Option α
  vacantKey : Carrier → ℕ
  insert : Carrier → α → Carrier
  modify : Carrier → ℕ → (α → α) → Carrier
  remove : Carrier → ℕ → Option Carrier
  occupied : Carrier → Finset ℕ
  mem_occupied : ∀ {s k}, k ∈ occupied s ↔ (get s k).isSome
  occupied_withCapacity : ∀ n, occupied (withCapacity n) = ∅
  le_capacity : ∀ n, n ≤ capacity (withCapacity n)
  vacantKey_notMem : ∀ s, vacantKey s ∉ occupied s
  get_insert : ∀ s a k, get (insert s a) k = if k = vacantKey s then some a else get s k
  capacity_insert : ∀ s a, capacity s ≤ capacity (insert s a)
  get_modify : ∀ s k f j, get (modify s k f) j = if j = k then (get s j).map f else get s j
  capacity_modify : ∀ s k f, capacity (modify s k f) = capacity s
  remove_isSome : ∀ {s k}, (remove s k).isSome ↔ k ∈ occupied s
  get_remove : ∀ {s k s'}, remove s k = some s' → ∀ j, get s' j = if j = k then none else get s j
  capacity_remove : ∀ {s k s'}, remove s k = some s' → capacity s' = capacity s

namespace Slab

open List Finset

variable {α : Type} (S : Slab α) {k : ℕ}

def len (s : S.Carrier) : ℕ := (S.occupied s).card

theorem occupied_insert (s : S.Carrier) (a : α) :
    S.occupied (S.insert s a) = Insert.insert (S.vacantKey s) (S.occupied s) := by
  ext k
  rw [mem_insert, S.mem_occupied, S.mem_occupied, S.get_insert]
  by_cases hk : k = S.vacantKey s
  · simp [hk]
  · simp [hk]

theorem occupied_modify (s : S.Carrier) (k : ℕ) (f : α → α) :
    S.occupied (S.modify s k f) = S.occupied s := by
  ext j
  rw [S.mem_occupied, S.mem_occupied, S.get_modify]
  by_cases hj : j = k
  · simp [hj]
  · simp [hj]

theorem occupied_remove {s s' : S.Carrier} (h : S.remove s k = some s') :
    S.occupied s' = (S.occupied s).erase k := by
  ext j
  rw [mem_erase, S.mem_occupied, S.mem_occupied, S.get_remove h]
  by_cases hj : j = k
  · simp [hj]
  · simp [hj]

theorem len_insert (s : S.Carrier) (a : α) : S.len (S.insert s a) = S.len s + 1 := by
  rw [len, occupied_insert, card_insert_of_notMem (S.vacantKey_notMem s)]
  rfl

/-! ## A slab as a list -/

/-- The entries of a list slab, with its capacity. -/
structure Entries (α : Type) where
  capacity : ℕ
  entries : List (Option α)
deriving DecidableEq, Repr

def Entries.get (s : Entries α) (k : ℕ) : Option α := s.entries[k]?.join

/-- The first vacant entry, or the end of the list. -/
def Entries.vacantKey (s : Entries α) : ℕ := s.entries.findIdx (·.isNone)

def Entries.insert (s : Entries α) (a : α) : Entries α :=
  if s.vacantKey < s.entries.length then
    { s with entries := s.entries.set s.vacantKey (some a) }
  else ⟨max s.capacity (s.entries.length + 1), s.entries ++ [some a]⟩

def Entries.modify (s : Entries α) (k : ℕ) (f : α → α) : Entries α :=
  { s with entries := s.entries.modify k (Option.map f) }

/-- A vacant entry instead of the value under a key. -/
def Entries.remove (s : Entries α) (k : ℕ) : Option (Entries α) :=
  if (s.get k).isSome then some { s with entries := s.entries.set k none } else none

variable (s : Entries α)

open Entries

theorem Entries.get_vacantKey : s.get s.vacantKey = none := by
  by_cases hlt : s.vacantKey < s.entries.length
  · have hnone := findIdx_getElem (w := hlt)
    rw [get, getElem?_eq_getElem hlt]
    exact Option.isNone_iff_eq_none.mp hnone
  · rw [get, getElem?_eq_none (by omega)]
    rfl

theorem Entries.get_set (hk : k < s.entries.length) (a : Option α) (j : ℕ) :
    get { s with entries := s.entries.set k a } j = if j = k then a else s.get j := by
  unfold get
  by_cases hj : j = k
  · rw [if_pos hj, hj, getElem?_set_self hk]
    rfl
  · rw [if_neg hj, getElem?_set_ne (Ne.symm hj)]

theorem Entries.lt_of_isSome {s : Entries α} (h : (s.get k).isSome) : k < s.entries.length := by
  by_contra hlt
  rw [get, getElem?_eq_none (by omega)] at h
  cases h

theorem Entries.get_insert (a : α) (k : ℕ) :
    (s.insert a).get k = if k = s.vacantKey then some a else s.get k := by
  unfold insert
  split_ifs with hlt hk hk
  · rw [get_set s hlt, if_pos hk]
  · rw [get_set s hlt, if_neg hk]
  · have hlen : s.vacantKey = s.entries.length :=
      Nat.le_antisymm findIdx_le_length (Nat.le_of_not_lt hlt)
    rw [get, hk, hlen, getElem?_concat_length]
    rfl
  · have hlen : s.vacantKey = s.entries.length :=
      Nat.le_antisymm findIdx_le_length (Nat.le_of_not_lt hlt)
    rw [get, get]
    by_cases hkl : k < s.entries.length
    · rw [getElem?_append_left hkl]
    · have hgt : s.entries.length < k := by omega
      rw [getElem?_eq_none hgt.le, getElem?_eq_none]
      rw [length_append]
      exact hgt

theorem Entries.get_modify (k : ℕ) (f : α → α) (j : ℕ) :
    (s.modify k f).get j = if j = k then (s.get j).map f else s.get j := by
  unfold modify get
  rw [getElem?_modify]
  by_cases hj : j = k
  · rw [if_pos hj, hj]
    cases s.entries[k]? with
    | none => simp
    | some a => simp
  · rw [if_neg hj]
    cases s.entries[j]? with
    | none => simp
    | some a => simp [Ne.symm hj]

/-- A slab that takes the first vacant entry. -/
def ofList (α : Type) : Slab α where
  Carrier := Entries α
  withCapacity n := ⟨n, []⟩
  capacity := Entries.capacity
  get := Entries.get
  vacantKey := Entries.vacantKey
  insert := Entries.insert
  modify := Entries.modify
  remove := Entries.remove
  occupied s := (Finset.range s.entries.length).filter fun k => (s.get k).isSome
  mem_occupied := by
    intro s k
    rw [Finset.mem_filter, Finset.mem_range, and_iff_right_iff_imp]
    exact Entries.lt_of_isSome
  occupied_withCapacity n := rfl
  le_capacity n := Nat.le_refl n
  vacantKey_notMem := by
    intro s hmem
    rw [Finset.mem_filter, s.get_vacantKey] at hmem
    exact Bool.false_ne_true hmem.2
  get_insert := Entries.get_insert
  capacity_insert := by
    intro s a
    unfold Entries.insert
    split_ifs
    · exact Nat.le_refl _
    · exact Nat.le_max_left _ _
  get_modify := Entries.get_modify
  capacity_modify s k f := rfl
  remove_isSome := by
    intro s k
    rw [Finset.mem_filter, Finset.mem_range, and_iff_right_of_imp Entries.lt_of_isSome]
    unfold Entries.remove
    split_ifs with h
    · exact iff_of_true rfl h
    · exact iff_of_false Bool.false_ne_true h
  get_remove := by
    intro s k s' h j
    unfold Entries.remove at h
    split_ifs at h with hk
    cases h
    exact Entries.get_set s (Entries.lt_of_isSome hk) none j
  capacity_remove := by
    intro s k s' h
    unfold Entries.remove at h
    split_ifs at h
    cases h
    rfl

end Slab
