import Mathlib.Data.List.Sort

/-!
# Salsa.Lib.KeyedMap — ordered maps whose values know their key

A map from keys to values in which the key of a value is a function of it, kept as
the list of its values in strictly increasing key order. Inserting under a key that
is present and removing under one that is absent fail, as for a map whose user
unwraps the answers.
-/

/-- A map with the values' keys in increasing order. -/
structure KeyedMap {α κ : Type} [LinearOrder κ] (key : α → κ) where
  toList : List α
  sorted : toList.Pairwise fun a b => key a < key b

namespace KeyedMap

open List

variable {α κ : Type} [LinearOrder κ] {key : α → κ}

instance : Membership α (KeyedMap key) := ⟨fun m a => a ∈ m.toList⟩

variable {a : α} {m m' : KeyedMap key}

theorem mem_iff : a ∈ m ↔ a ∈ m.toList := Iff.rfl

def empty : KeyedMap key := ⟨[], List.Pairwise.nil⟩

def single (a : α) : KeyedMap key := ⟨[a], List.pairwise_singleton _ a⟩

def isEmpty (m : KeyedMap key) : Bool := m.toList.isEmpty

theorem sorted_orderedInsert {l : List α} (hl : l.Pairwise fun x y => key x < key y)
    (ha : ∀ x ∈ l, key x ≠ key a) :
    (l.orderedInsert (fun x y => key x ≤ key y) a).Pairwise fun x y => key x < key y := by
  induction l with
  | nil => exact pairwise_singleton _ a
  | cons b l ih =>
    obtain ⟨hb, hl'⟩ := pairwise_cons.mp hl
    have hne : key b ≠ key a := ha b mem_cons_self
    rw [orderedInsert_cons]
    split_ifs with hle
    · have hlt : key a < key b := lt_of_le_of_ne hle hne.symm
      refine pairwise_cons.mpr ⟨?_, hl⟩
      intro x hx
      rcases mem_cons.mp hx with rfl | hx
      · exact hlt
      · exact hlt.trans (hb x hx)
    · refine pairwise_cons.mpr ⟨?_, ih hl' fun x hx => ha x (mem_cons_of_mem b hx)⟩
      intro x hx
      rcases (mem_orderedInsert _).mp hx with rfl | hx
      · exact lt_of_not_ge hle
      · exact hb x hx

def insert? (m : KeyedMap key) (a : α) : Option (KeyedMap key) :=
  if h : ∀ x ∈ m.toList, key x ≠ key a then
    some ⟨m.toList.orderedInsert (fun x y => key x ≤ key y) a, sorted_orderedInsert m.sorted h⟩
  else none

def remove? (m : KeyedMap key) (k : κ) : Option (α × KeyedMap key) :=
  (m.toList.find? fun x => key x = k).map fun a =>
    (a, ⟨m.toList.filter fun x => key x ≠ k, m.sorted.filter _⟩)

def first? (m : KeyedMap key) : Option α := m.toList.head?

def popFirst? (m : KeyedMap key) : Option (α × KeyedMap key) :=
  match m with
  | ⟨[], _⟩ => none
  | ⟨a :: l, h⟩ => some (a, ⟨l, (List.pairwise_cons.mp h).2⟩)

/-- The values with keys from `k` on. -/
def atLeast (m : KeyedMap key) (k : κ) : List α := m.toList.filter fun x => k ≤ key x

@[simp] theorem mem_single {a b : α} : b ∈ (single a : KeyedMap key) ↔ b = a := mem_singleton

@[simp] theorem not_mem_empty : a ∉ (empty : KeyedMap key) := not_mem_nil

theorem mem_atLeast {k : κ} : a ∈ m.atLeast k ↔ a ∈ m ∧ k ≤ key a := by
  rw [atLeast, mem_filter, decide_eq_true_eq, mem_iff]

theorem isEmpty_iff : m.isEmpty = true ↔ ∀ a, a ∉ m := by
  rw [isEmpty, List.isEmpty_iff]
  exact eq_nil_iff_forall_not_mem

theorem exists_mem_of_isEmpty (h : m.isEmpty = false) : ∃ a, a ∈ m := by
  by_contra hnone
  rw [isEmpty_iff.mpr (not_exists.mp hnone)] at h
  cases h

theorem nodup (m : KeyedMap key) : m.toList.Nodup :=
  m.sorted.imp fun hlt heq => absurd (congrArg key heq) (ne_of_lt hlt)

/-- A key has one value. -/
theorem eq_of_key {a b : α} (ha : a ∈ m) (hb : b ∈ m) (h : key a = key b) : a = b := by
  by_contra hne
  have hlt : key a < key b ∨ key b < key a := by
    refine List.Pairwise.forall_of_forall_of_flip
      (R := fun x y => x ≠ y → key x < key y ∨ key y < key x)
      ?_ ?_ ?_ ha hb hne
    · intro x _ hx
      exact absurd rfl hx
    · exact m.sorted.imp fun hxy _ => Or.inl hxy
    · exact m.sorted.imp fun hxy _ => Or.inr hxy
  rcases hlt with hlt | hlt
  · exact absurd h (ne_of_lt hlt)
  · exact absurd h (ne_of_gt hlt)

theorem insert?_spec (h : ∀ x ∈ m, key x ≠ key a) :
    ∃ m', m.insert? a = some m' ∧ ∀ x, x ∈ m' ↔ x = a ∨ x ∈ m := by
  refine ⟨_, dif_pos h, ?_⟩
  intro x
  exact mem_orderedInsert _

theorem orderedInsert_last {l : List α} (h : ∀ x ∈ l, key x < key a) :
    l.orderedInsert (fun x y => key x ≤ key y) a = l ++ [a] := by
  induction l with
  | nil => rfl
  | cons b l ih =>
    rw [orderedInsert_cons, if_neg (not_le_of_gt (h b mem_cons_self)),
      ih fun x hx => h x (mem_cons_of_mem b hx)]
    rfl

/-- A value with the largest key comes last. -/
theorem insert?_last (h : ∀ x ∈ m, key x < key a) :
    ∃ m', m.insert? a = some m' ∧ m'.toList = m.toList ++ [a] := by
  refine ⟨_, dif_pos fun x hx => ne_of_lt (h x hx), ?_⟩
  exact orderedInsert_last h

theorem remove?_spec (ha : a ∈ m) :
    ∃ m', m.remove? (key a) = some (a, m') ∧ (∀ x, x ∈ m' ↔ x ∈ m ∧ x ≠ a) ∧
      m'.toList.length + 1 = m.toList.length := by
  have hsome : (m.toList.find? fun x => key x = key a).isSome = true := by
    rw [find?_isSome]
    exact ⟨a, ha, decide_eq_true rfl⟩
  obtain ⟨b, hb⟩ := Option.isSome_iff_exists.mp hsome
  have hkey := find?_some hb
  have hba : b = a := eq_of_key (mem_of_find?_eq_some hb) ha (of_decide_eq_true hkey)
  subst hba
  have hfilter : ∀ x ∈ m.toList, (key x ≠ key b ↔ x ≠ b) := by
    intro x hx
    constructor
    · rintro hne rfl
      exact hne rfl
    · intro hne heq
      exact hne (eq_of_key hx ha heq)
  refine ⟨⟨m.toList.filter fun x => key x ≠ key b, m.sorted.filter _⟩, ?_, ?_, ?_⟩
  · rw [remove?, hb]
    rfl
  · intro x
    rw [mem_iff, mem_filter, decide_eq_true_eq, mem_iff]
    constructor
    · rintro ⟨hx, hne⟩
      exact ⟨hx, (hfilter x hx).mp hne⟩
    · rintro ⟨hx, hne⟩
      exact ⟨hx, (hfilter x hx).mpr hne⟩
  · -- Split the list at the value: nothing else is filtered out.
    obtain ⟨s, t, hst⟩ := append_of_mem ha
    have hsorted := m.sorted
    rw [hst, pairwise_append, pairwise_cons] at hsorted
    obtain ⟨-, ⟨ht, -⟩, hs⟩ := hsorted
    have hs' : s.filter (fun x => key x ≠ key b) = s := by
      refine filter_eq_self.mpr fun x hx => decide_eq_true ?_
      exact ne_of_lt (hs x hx b mem_cons_self)
    have ht' : t.filter (fun x => key x ≠ key b) = t := by
      refine filter_eq_self.mpr fun x hx => decide_eq_true ?_
      exact ne_of_gt (ht x hx)
    change (m.toList.filter fun x => key x ≠ key b).length + 1 = m.toList.length
    rw [hst, filter_append, filter_cons_of_neg (by simp), hs', ht']
    simp only [length_append, length_cons]
    omega

theorem length_of_insert? (h : m.insert? a = some m') : m'.toList.length = m.toList.length + 1 := by
  rw [insert?] at h
  split_ifs at h
  cases h
  exact orderedInsert_length _ _ _

theorem length_of_remove? {k : κ} (h : m.remove? k = some (a, m')) :
    m'.toList.length + 1 = m.toList.length := by
  obtain ⟨b, hb, heq⟩ := Option.map_eq_some_iff.mp h
  have hfound := find?_some hb
  have hkey : key b = k := of_decide_eq_true hfound
  subst hkey
  obtain ⟨m₁, hremove, -, hlength⟩ := remove?_spec (mem_of_find?_eq_some hb : b ∈ m)
  rw [hremove] at h
  cases h
  exact hlength

end KeyedMap
