import Mathlib.Data.List.Sort

/-!
# Salsa.Lib.OrdMap — ordered maps

A map as the list of its entries with strictly increasing keys. Everything about a map
follows from `get`, of which `get_insert` and `get_erase` are the equations; the entries
are the graph of `get` (`mem_entries`), in the order of the keys.
-/

/-- A map with its entries in increasing order of the keys. -/
structure OrdMap (κ ν : Type) [LinearOrder κ] where
  entries : List (κ × ν)
  sorted : entries.Pairwise fun a b => a.1 < b.1
deriving DecidableEq

namespace OrdMap

open List

variable {κ ν : Type} [LinearOrder κ]

def empty : OrdMap κ ν := ⟨[], List.Pairwise.nil⟩

/-! ## Lists of entries -/

def lookup (k : κ) : List (κ × ν) → Option ν
  | [] => none
  | e :: l => if e.1 = k then some e.2 else lookup k l

/-- The entries with a value set under the key. -/
def insertEntry (k : κ) (v : ν) : List (κ × ν) → List (κ × ν)
  | [] => [(k, v)]
  | e :: l =>
      if k < e.1 then (k, v) :: e :: l
      else if k = e.1 then (k, v) :: l
      else e :: insertEntry k v l

variable {k : κ} {v : ν} {l : List (κ × ν)} {p : κ → ν → Bool}

theorem mem_insertEntry {e : κ × ν} (h : e ∈ insertEntry k v l) : e = (k, v) ∨ e ∈ l := by
  induction l with
  | nil => exact Or.inl (mem_singleton.mp h)
  | cons a l ih =>
    unfold insertEntry at h
    split_ifs at h
    · exact mem_cons.mp h
    · rcases mem_cons.mp h with h | h
      · exact Or.inl h
      · exact Or.inr (mem_cons_of_mem a h)
    · rcases mem_cons.mp h with rfl | h
      · exact Or.inr mem_cons_self
      · exact (ih h).imp_right (mem_cons_of_mem a)

theorem sorted_insertEntry (hl : l.Pairwise fun a b => a.1 < b.1) :
    (insertEntry k v l).Pairwise fun a b => a.1 < b.1 := by
  induction l with
  | nil => exact pairwise_singleton _ _
  | cons a l ih =>
    obtain ⟨ha, hl'⟩ := pairwise_cons.mp hl
    unfold insertEntry
    split_ifs with hlt heq
    · apply pairwise_cons.mpr
      refine ⟨?_, hl⟩
      intro e he
      rcases mem_cons.mp he with rfl | he
      · exact hlt
      · exact hlt.trans (ha e he)
    · apply pairwise_cons.mpr
      refine ⟨?_, hl'⟩
      intro e he
      exact heq ▸ ha e he
    · apply pairwise_cons.mpr
      refine ⟨?_, ih hl'⟩
      intro e he
      rcases mem_insertEntry he with rfl | he
      · exact lt_of_le_of_ne (not_lt.mp hlt) (Ne.symm heq)
      · exact ha e he

theorem lookup_insertEntry (k : κ) (v : ν) (l : List (κ × ν)) (j : κ) :
    lookup j (insertEntry k v l) = if j = k then some v else lookup j l := by
  have hcons : ∀ l : List (κ × ν), lookup j ((k, v) :: l) =
      if j = k then some v else lookup j l := by
    intro l
    rw [lookup]
    by_cases hj : j = k
    · rw [if_pos hj, if_pos hj.symm]
    · rw [if_neg hj, if_neg (Ne.symm hj)]
  induction l with
  | nil => exact hcons []
  | cons a l ih =>
    unfold insertEntry
    by_cases hlt : k < a.1
    · rw [if_pos hlt]
      exact hcons (a :: l)
    rw [if_neg hlt]
    by_cases heq : k = a.1
    · rw [if_pos heq, hcons]
      by_cases hj : j = k
      · rw [if_pos hj, if_pos hj]
      · rw [if_neg hj, if_neg hj, lookup, if_neg (heq ▸ Ne.symm hj)]
    · rw [if_neg heq, lookup, ih, lookup]
      by_cases ha : a.1 = j
      · rw [if_pos ha, if_pos ha, if_neg fun hj => heq (hj.symm.trans ha.symm)]
      · rw [if_neg ha, if_neg ha]

theorem mem_of_lookup (h : lookup k l = some v) : (k, v) ∈ l := by
  induction l with
  | nil => cases h
  | cons a l ih =>
    unfold lookup at h
    split_ifs at h with ha
    · cases h
      rw [← ha]
      exact mem_cons_self
    · exact mem_cons_of_mem a (ih h)

theorem lookup_of_mem (hl : l.Pairwise fun a b => a.1 < b.1)
    (h : (k, v) ∈ l) : lookup k l = some v := by
  induction l with
  | nil => cases h
  | cons a l ih =>
    obtain ⟨ha, hl'⟩ := pairwise_cons.mp hl
    unfold lookup
    rcases mem_cons.mp h with rfl | h
    · rw [if_pos rfl]
    · rw [if_neg (ha _ h).ne, ih hl' h]

/-! ## Maps -/

variable (m : OrdMap κ ν)

def get (k : κ) : Option ν := lookup k m.entries

def insert (k : κ) (v : ν) : OrdMap κ ν := ⟨insertEntry k v m.entries, sorted_insertEntry m.sorted⟩

def filter (p : κ → ν → Bool) : OrdMap κ ν :=
  ⟨m.entries.filter fun e => p e.1 e.2, m.sorted.filter _⟩

def erase (k : κ) : OrdMap κ ν := m.filter fun j _ => j ≠ k

def contains (k : κ) : Bool := (m.get k).isSome

def keys : List κ := m.entries.map Prod.fst

variable {m} {k j : κ}

theorem mem_entries : (k, v) ∈ m.entries ↔ m.get k = some v :=
  ⟨lookup_of_mem m.sorted, mem_of_lookup⟩

@[simp] theorem get_empty (k : κ) : (empty : OrdMap κ ν).get k = none := rfl

theorem get_insert (k : κ) (v : ν) (j : κ) :
    (m.insert k v).get j = if j = k then some v else m.get j :=
  lookup_insertEntry k v m.entries j

@[simp] theorem get_insert_self (k : κ) (v : ν) : (m.insert k v).get k = some v := by
  rw [get_insert, if_pos rfl]

theorem get_insert_of_ne (v : ν) (h : j ≠ k) : (m.insert k v).get j = m.get j := by
  rw [get_insert, if_neg h]

theorem get_insert_eq_update (k : κ) (v : ν) :
    (m.insert k v).get = Function.update m.get k (some v) := by
  funext j
  rw [get_insert, Function.update_apply]

theorem get_filter_eq_some : (m.filter p).get k = some v ↔ m.get k = some v ∧ p k v := by
  rw [← mem_entries, ← mem_entries]
  exact mem_filter

theorem get_filter_of_pos (h : ∀ v, p k v) : (m.filter p).get k = m.get k := by
  cases hget : m.get k with
  | none =>
    apply Option.eq_none_iff_forall_ne_some.mpr
    intro v hv
    rw [(get_filter_eq_some.mp hv).1] at hget
    cases hget
  | some v => exact get_filter_eq_some.mpr ⟨hget, h v⟩

theorem get_filter_of_neg (h : ∀ v, ¬ p k v) : (m.filter p).get k = none := by
  apply Option.eq_none_iff_forall_ne_some.mpr
  intro v hv
  exact h v (get_filter_eq_some.mp hv).2

theorem get_erase (k j : κ) : (m.erase k).get j = if j = k then none else m.get j := by
  by_cases hj : j = k
  · rw [if_pos hj]
    exact get_filter_of_neg fun v => by simp [hj]
  · rw [if_neg hj]
    exact get_filter_of_pos fun v => by simp [hj]

theorem mem_keys : k ∈ m.keys ↔ (m.get k).isSome := by
  constructor
  · intro h
    obtain ⟨⟨j, v⟩, he, rfl⟩ := mem_map.mp h
    rw [mem_entries.mp he]
    rfl
  · intro h
    obtain ⟨v, hv⟩ := Option.isSome_iff_exists.mp h
    exact mem_map.mpr ⟨(k, v), mem_entries.mpr hv, rfl⟩

theorem contains_iff : m.contains k ↔ ∃ v, m.get k = some v := Option.isSome_iff_exists

theorem keys_sorted : m.keys.Pairwise (· < ·) := pairwise_map.mpr m.sorted

theorem keys_nodup : m.keys.Nodup := keys_sorted.imp ne_of_lt

/-! ## Sets -/

theorem mem_keys_insert : j ∈ (m.insert k v).keys ↔ j = k ∨ j ∈ m.keys := by
  rw [mem_keys, mem_keys, get_insert]
  by_cases hj : j = k
  · rw [if_pos hj]
    exact ⟨fun _ => Or.inl hj, fun _ => rfl⟩
  · rw [if_neg hj, or_iff_right hj]

theorem erase_erase (k : κ) : (m.erase k).erase k = m.erase k := by
  unfold erase filter
  congr 1
  exact filter_filter.trans (filter_congr fun e _ => Bool.and_self _)

theorem keys_insert_perm (hk : k ∉ m.keys) : (m.insert k v).keys.Perm (k :: m.keys) := by
  apply (perm_ext_iff_of_nodup keys_nodup (nodup_cons.mpr ⟨hk, keys_nodup⟩)).mpr
  intro j
  rw [mem_keys_insert, mem_cons]

theorem mem_keys_erase : j ∈ (m.erase k).keys ↔ j ≠ k ∧ j ∈ m.keys := by
  rw [mem_keys, mem_keys, get_erase]
  by_cases hj : j = k
  · rw [if_pos hj]
    exact ⟨fun h => (Bool.false_ne_true h).elim, fun h => (h.1 hj).elim⟩
  · rw [if_neg hj]
    exact ⟨fun h => ⟨hj, h⟩, And.right⟩

end OrdMap

/-- An ordered set: its elements are the keys. -/
abbrev OrdSet (κ : Type) [LinearOrder κ] : Type := OrdMap κ Unit
