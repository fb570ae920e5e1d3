import Mathlib.Data.List.Nodup

/-!
# Salsa.Lib.IndexMap — maps with positions

A map whose entries have positions: a new key comes last, a new value for a key stays in its
place, and removing an entry moves the last one into its place. The entries are a list with
distinct keys.
-/

/-- A map from keys to values with positions. -/
structure IndexMap (κ ν : Type) where
  entries : List (κ × ν)
  nodup : (entries.map Prod.fst).Nodup

namespace IndexMap

open List

/-! ## Lists -/

section Lists

variable {α β : Type} {l : List α} {i : ℕ}

/-- The last element moves to position `i`. -/
def swapRemove (l : List α) (i : ℕ) : List α :=
  match l.getLast? with
  | some last => (l.set i last).dropLast
  | none => []

theorem getElem?_swapRemove (hi : i < l.length) (j : ℕ) :
    (swapRemove l i)[j]? = if j + 1 < l.length then (if j = i then l[l.length - 1]? else l[j]?)
      else none := by
  have hne : l ≠ [] := by grind
  rw [swapRemove, getLast?_eq_some_getLast hne]
  grind

theorem length_swapRemove (hi : i < l.length) : (swapRemove l i).length = l.length - 1 := by
  unfold swapRemove
  grind

theorem map_swapRemove (f : α → β) (l : List α) (i : ℕ) :
    (swapRemove l i).map f = swapRemove (l.map f) i := by
  unfold swapRemove
  cases h : l.getLast? <;> simp [h]

theorem nodup_swapRemove (hi : i < l.length) (hl : l.Nodup) : (swapRemove l i).Nodup := by
  rw [nodup_iff_getElem?_ne_getElem?] at hl ⊢
  intro j k hjk hk
  rw [length_swapRemove hi] at hk
  rw [getElem?_swapRemove hi, getElem?_swapRemove hi]
  -- each position is filled from one of its own
  grind

end Lists

/-! ## Positions and keys -/

variable {κ ν : Type} {m : IndexMap κ ν} {k k' : κ} {v v' : ν} {i j : ℕ}

def empty : IndexMap κ ν := ⟨[], List.nodup_nil⟩

def nth (m : IndexMap κ ν) (i : ℕ) : Option (κ × ν) := m.entries[i]?

def size (m : IndexMap κ ν) : ℕ := m.entries.length

@[simp] theorem nth_empty (i : ℕ) : (empty : IndexMap κ ν).nth i = none := rfl

@[simp] theorem size_empty : (empty : IndexMap κ ν).size = 0 := rfl

@[grind →] theorem lt_size {e : κ × ν} (h : m.nth i = some e) : i < m.size :=
  (List.getElem?_eq_some_iff.mp h).1

theorem nth_eq_none_iff : m.nth i = none ↔ m.size ≤ i := List.getElem?_eq_none_iff

/-- A key has one position. -/
theorem nth_inj (h : m.nth i = some (k, v)) (h' : m.nth j = some (k, v')) : i = j := by
  have hnd := m.nodup
  rw [nodup_iff_getElem?_ne_getElem?] at hnd
  grind [nth]

/-- `swap_remove_index` for a position of the map. -/
def removeAt (m : IndexMap κ ν) (i : ℕ) : IndexMap κ ν :=
  if h : i < m.size then
    ⟨swapRemove m.entries i, by
      rw [map_swapRemove]
      exact nodup_swapRemove (lt_of_lt_of_eq h (List.length_map Prod.fst).symm) m.nodup⟩
  else m

theorem nth_removeAt (hi : i < m.size) (j : ℕ) :
    (m.removeAt i).nth j = if j + 1 < m.size then (if j = i then m.nth (m.size - 1) else m.nth j)
      else none := by
  rw [removeAt, dif_pos hi]
  exact getElem?_swapRemove hi j

theorem size_removeAt (hi : i < m.size) : (m.removeAt i).size = m.size - 1 := by
  rw [removeAt, dif_pos hi]
  exact length_swapRemove hi

variable [DecidableEq κ]

def indexOf (m : IndexMap κ ν) (k : κ) : Option ℕ := m.entries.findIdx? fun e => e.1 = k

def get (m : IndexMap κ ν) (k : κ) : Option ν := (m.indexOf k).bind fun i => (m.nth i).map Prod.snd

theorem indexOf_eq_some_iff : m.indexOf k = some i ↔ ∃ v, m.nth i = some (k, v) := by
  constructor
  · intro h
    obtain ⟨hi, hk, -⟩ := findIdx?_eq_some_iff_getElem.mp h
    exact ⟨m.entries[i].2, by grind [nth]⟩
  · rintro ⟨v, h⟩
    obtain ⟨hi, he⟩ := List.getElem?_eq_some_iff.mp h
    refine findIdx?_eq_some_iff_getElem.mpr ⟨hi, by rw [he, decide_eq_true_eq], ?_⟩
    intro j hj hcon
    exact Nat.ne_of_lt hj (nth_inj (v := m.entries[j].2) (by grind [nth]) h)

theorem indexOf_eq_none_iff : m.indexOf k = none ↔ ∀ i v, m.nth i ≠ some (k, v) := by
  rw [Option.eq_none_iff_forall_ne_some]
  simp only [ne_eq, indexOf_eq_some_iff, not_exists]

theorem get_eq_some_iff : m.get k = some v ↔ ∃ i, m.nth i = some (k, v) := by
  rw [get, Option.bind_eq_some_iff]
  simp only [indexOf_eq_some_iff]
  grind

theorem get_eq_none_iff : m.get k = none ↔ m.indexOf k = none := by
  rw [indexOf_eq_none_iff, Option.eq_none_iff_forall_ne_some]
  simp only [ne_eq, get_eq_some_iff, not_exists]
  exact forall_comm

@[simp] theorem get_empty (k : κ) : (empty : IndexMap κ ν).get k = none := rfl

/-! ## Changes -/

/-- `insert`: a new key comes last. -/
def insert (m : IndexMap κ ν) (k : κ) (v : ν) : IndexMap κ ν :=
  match h : m.indexOf k with
  | some i => ⟨m.entries.set i (k, v), by
      obtain ⟨w, hw⟩ := indexOf_eq_some_iff.mp h
      have hkeys : (m.entries.set i (k, v)).map Prod.fst = m.entries.map Prod.fst := by
        refine List.ext_getElem? fun j => ?_
        grind [nth]
      rw [hkeys]
      exact m.nodup⟩
  | none => ⟨m.entries ++ [(k, v)], by
      have hnew := indexOf_eq_none_iff.mp h
      rw [List.map_append, List.map_singleton]
      refine List.Nodup.append m.nodup (List.nodup_singleton k) (List.disjoint_singleton.mpr ?_)
      intro hmem
      obtain ⟨e, he, rfl⟩ := List.mem_map.mp hmem
      obtain ⟨i, hi⟩ := List.getElem?_of_mem he
      exact hnew i e.2 hi⟩

theorem nth_insert_new (h : m.indexOf k = none) (v : ν) (j : ℕ) :
    (m.insert k v).nth j = if j = m.size then some (k, v) else m.nth j := by
  have hentries : (m.insert k v).entries = m.entries ++ [(k, v)] := by
    unfold insert
    split <;> grind
  grind [nth, size]

theorem nth_insert_old (h : m.indexOf k = some i) (v : ν) (j : ℕ) :
    (m.insert k v).nth j = if j = i then some (k, v) else m.nth j := by
  obtain ⟨w, hw⟩ := indexOf_eq_some_iff.mp h
  have hentries : (m.insert k v).entries = m.entries.set i (k, v) := by
    unfold insert
    split <;> grind
  grind [nth]

theorem get_insert (m : IndexMap κ ν) (k k' : κ) (v : ν) :
    (m.insert k v).get k' = if k' = k then some v else m.get k' := by
  refine Option.ext fun w => ?_
  rw [get_eq_some_iff]
  cases hk : m.indexOf k with
  | none =>
    have hnew := indexOf_eq_none_iff.mp hk
    simp only [nth_insert_new hk]
    have hpos : ∀ j, m.nth j = some (k', w) → j ≠ m.size := by grind
    grind [get_eq_some_iff]
  | some i =>
    obtain ⟨u, hu⟩ := indexOf_eq_some_iff.mp hk
    simp only [nth_insert_old hk]
    have hkey : ∀ j u', m.nth j = some (k, u') → j = i := fun j u' hj => nth_inj hj hu
    grind [get_eq_some_iff]

def erase (m : IndexMap κ ν) (k : κ) : IndexMap κ ν :=
  match m.indexOf k with
  | some i => m.removeAt i
  | none => m

omit [DecidableEq κ] in
/-- The entries of the smaller map are those of the other positions. -/
theorem exists_nth_removeAt (hi : i < m.size) {e : κ × ν} :
    (∃ j, (m.removeAt i).nth j = some e) ↔ ∃ j, j ≠ i ∧ m.nth j = some e := by
  simp only [nth_removeAt hi]
  constructor
  · rintro ⟨j, hj⟩
    split_ifs at hj with hlt hji
    · exact ⟨m.size - 1, by omega, hj⟩
    · exact ⟨j, hji, hj⟩
  · rintro ⟨j, hji, hj⟩
    by_cases hlast : j = m.size - 1
    · exact ⟨i, by grind⟩
    · exact ⟨j, by grind⟩

theorem get_erase (m : IndexMap κ ν) (k k' : κ) :
    (m.erase k).get k' = if k' = k then none else m.get k' := by
  cases hk : m.indexOf k with
  | none => grind [erase, get_eq_none_iff]
  | some i =>
    obtain ⟨w, hw⟩ := indexOf_eq_some_iff.mp hk
    refine Option.ext fun u => ?_
    simp only [erase, hk, get_eq_some_iff, exists_nth_removeAt (lt_size hw)]
    have hkey : ∀ j u', m.nth j = some (k, u') → j = i := fun j u' hj => nth_inj hj hw
    grind [get_eq_some_iff]

/-- `swap_remove_full`: the position and the value that went, and the rest. -/
def removeFull (m : IndexMap κ ν) (k : κ) : Option (ℕ × ν × IndexMap κ ν) :=
  (m.indexOf k).bind fun i => (m.nth i).map fun e => (i, e.2, m.removeAt i)

theorem removeFull_eq_some {m' : IndexMap κ ν} (h : m.removeFull k = some (i, v, m')) :
    m.nth i = some (k, v) ∧ m' = m.removeAt i := by
  rw [removeFull, Option.bind_eq_some_iff] at h
  obtain ⟨j, hj, h⟩ := h
  obtain ⟨w, hw⟩ := indexOf_eq_some_iff.mp hj
  rw [hw] at h
  cases h
  exact ⟨hw, rfl⟩

/-- The entries are the graph of `get`. -/
theorem mem_entries_iff : (k, v) ∈ m.entries ↔ m.get k = some v := by
  rw [get_eq_some_iff, mem_iff_getElem?]
  rfl

theorem size_ne_zero_of_get (h : m.get k = some v) : m.size ≠ 0 := by
  have := length_pos_of_mem (mem_entries_iff.mpr h)
  grind [size]

/-! ## Secondary indices -/

section Indices

variable {κ ν ι : Type} {m : IndexMap κ ν} {k : κ} {v v' : ν} {i i₀ : ℕ} {q : ν → ι → Prop}
  {R R' : ι → ℕ → Prop}

/-- `R` gives, for a property of values with a parameter, the positions of the values that have
it. -/
def Indexed (m : IndexMap κ ν) (q : ν → ι → Prop) (R : ι → ℕ → Prop) : Prop :=
  ∀ x i, R x i ↔ ∃ k v, m.nth i = some (k, v) ∧ q v x

theorem Indexed.empty (hR : ∀ x i, ¬ R x i) : (empty : IndexMap κ ν).Indexed q R := by
  intro x i
  simp [hR]

theorem Indexed.iff (h : m.Indexed q R) (hi : m.nth i = some (k, v)) (x : ι) : R x i ↔ q v x := by
  rw [h]
  grind

theorem Indexed.lt_size (h : m.Indexed q R) {x : ι} (hR : R x i) : i < m.size := by
  obtain ⟨k, v, hi, -⟩ := (h x i).mp hR
  exact IndexMap.lt_size hi

/-- The row of a position is emptied. -/
def Cleared (R : ι → ℕ → Prop) (i₀ : ℕ) (R' : ι → ℕ → Prop) : Prop :=
  ∀ x i, R' x i ↔ i ≠ i₀ ∧ R x i

/-- The row of a position is written. -/
def Put (row : ι → Prop) (i₀ : ℕ) (R R' : ι → ℕ → Prop) : Prop :=
  ∀ x i, R' x i ↔ if i = i₀ then row x else R x i

theorem Put.of_cleared {row : ι → Prop} {R₁ : ι → ℕ → Prop} (hc : Cleared R i₀ R₁)
    (hp : Put row i₀ R₁ R') : Put row i₀ R R' := by
  intro x i
  grind [hp x i, hc x i]

variable (h : m.Indexed q R)
include h

/-- Rewriting a row with what it has changes nothing. -/
theorem Indexed.put_self (hi : m.nth i₀ = some (k, v))
    (hq : ∀ x, q v' x ↔ q v x) : Put (q v') i₀ R R := by
  intro x i
  grind [h.iff hi x]

theorem Indexed.write {m' : IndexMap κ ν}
    (hnth : ∀ j, m'.nth j = if j = i₀ then some (k, v) else m.nth j) (hput : Put (q v) i₀ R R') :
    m'.Indexed q R' := by
  intro x i
  rw [hput, hnth]
  by_cases hi : i = i₀
  · simp [hi]
  · rw [if_neg hi, if_neg hi]
    exact h x i

theorem Indexed.removeAt_last (hlast : i₀ + 1 = m.size)
    (hc : Cleared R i₀ R') : (m.removeAt i₀).Indexed q R' := by
  intro x i
  rw [hc, nth_removeAt (by omega)]
  grind [h x i]

/-- The last entry moves: its row is emptied and written at its new position. -/
theorem Indexed.removeAt_moved {last : ℕ} {R₁ R₂ : ι → ℕ → Prop}
    (hlast : last + 1 = m.size) (hw : m.nth last = some (k, v)) (hi₀ : i₀ < last)
    (hc : Cleared R i₀ R₁) (hc' : Cleared R₁ last R₂) (hput : Put (q v) i₀ R₂ R') :
    (m.removeAt i₀).Indexed q R' := by
  intro x i
  have hsize : m.size - 1 = last := by omega
  rw [hput, hc', hc, nth_removeAt (by omega), hsize]
  grind [h x i]

end Indices

end IndexMap

abbrev IndexSet (κ : Type) : Type := IndexMap κ Unit
