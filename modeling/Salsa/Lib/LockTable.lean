import Mathlib.Algebra.GroupWithZero.Nat
import Mathlib.Algebra.Order.BigOperators.Group.List
import Mathlib.Algebra.Order.Group.Nat

/-!
# Salsa.Lib.LockTable — counting reader–writer locks in one number per key

A table `v : Key → ℕ` of locks with a top value `top`: a write lock is the
value `top`, read locks are counted below it. The two updates are `acquire`
(a writer stores `top`, a reader adds with saturation) and `release` (a writer
stores 0, a reader subtracts with saturation).

* `Covers top v hs` — every access list of `hs` is visible in the table. Kept by
  `acquire`; enough to see that a list that is not `Blocked` conflicts with
  none of `hs`.
* `Represents top v hs` — the table is exactly the locks of `hs`, which do not
  conflict with each other. Kept by `acquire` of a list that is not blocked and
  whose reads fit below `top`, and by `release` of a member.
* `Bounded v hs` — the table claims no more than `hs` hold; kept by both with no
  bound on the reads, so an empty `hs` means an empty table.
-/

namespace LockTable

open List

variable {Key : Type}

/-- The accesses of one holder: keys, each with whether it is written. -/
abbrev Access (Key : Type) := List (Key × Bool)

def Writes (a : Access Key) (k : Key) : Prop := (k, true) ∈ a

def Touches (a : Access Key) (k : Key) : Prop := ∃ w, (k, w) ∈ a

/-- A key that both name and one of them writes. -/
def Conflict (a b : Access Key) : Prop :=
  ∃ k, Touches a k ∧ Touches b k ∧ (Writes a k ∨ Writes b k)

theorem Conflict.symm {a b : Access Key} (h : Conflict a b) : Conflict b a := by
  obtain ⟨k, ha, hb, hw⟩ := h
  exact ⟨k, hb, ha, hw.symm⟩

variable {a : Access Key} {k : Key} {top : ℕ} {v : Key → ℕ} {hs hs' : List (Access Key)}

theorem Writes.touches (h : Writes a k) : Touches a k := ⟨true, h⟩

theorem writes_cons {e : Key × Bool} : Writes (e :: a) k ↔ (e.1 = k ∧ e.2 = true) ∨ Writes a k := by
  rw [Writes, mem_cons, Prod.mk.injEq, eq_comm, @eq_comm _ true]
  rfl

/-! ## Covering tables -/

/-- The table denies the accesses. -/
def Blocked (top : ℕ) (v : Key → ℕ) (a : Access Key) : Prop :=
  ∃ e ∈ a, v e.1 = top ∨ (v e.1 ≠ 0 ∧ e.2 = true)

/-- Every access of `hs` shows in the table. -/
def Covers (top : ℕ) (v : Key → ℕ) (hs : List (Access Key)) : Prop :=
  ∀ h ∈ hs, ∀ k, Touches h k → v k ≠ 0 ∧ (Writes h k → v k = top)

theorem covers_nil : Covers top v [] := by
  intro h hmem
  exact absurd hmem not_mem_nil

/-- What a covering table lets through conflicts with nothing it covers. -/
theorem Covers.not_conflict {a h : Access Key} (hc : Covers top v hs) (hmem : h ∈ hs)
    (ha : ¬ Blocked top v a) : ¬ Conflict h a := by
  rintro ⟨k, hh, ⟨w, hak⟩, hw⟩
  obtain ⟨hne, htop⟩ := hc h hmem k hh
  rcases hw with hw | hw
  · exact ha ⟨(k, w), hak, Or.inl (htop hw)⟩
  · exact ha ⟨(k, true), hw, Or.inr ⟨hne, rfl⟩⟩

/-- An empty table blocks nothing. -/
theorem not_blocked_of_zero (htop : top ≠ 0) (hz : ∀ k, v k = 0) : ¬ Blocked top v a := by
  rintro ⟨e, -, h | ⟨h, -⟩⟩
  · rw [hz] at h
    exact htop h.symm
  · exact h (hz e.1)

/-! ## The operations -/

variable [DecidableEq Key] {h : Access Key}

/-- How often the holder names `k` for reading. -/
def reads (a : Access Key) (k : Key) : ℕ := a.count (k, false)

instance (a : Access Key) (k : Key) : Decidable (Writes a k) :=
  inferInstanceAs (Decidable ((k, true) ∈ a))

theorem touches_iff : Touches a k ↔ Writes a k ∨ 0 < reads a k := by
  rw [reads, count_pos_iff]
  constructor
  · rintro ⟨w, hw⟩
    cases w with
    | true => exact Or.inl hw
    | false => exact Or.inr hw
  · rintro (h | h)
    · exact ⟨true, h⟩
    · exact ⟨false, h⟩

theorem reads_cons (e : Key × Bool) (a : Access Key) (k : Key) :
    reads (e :: a) k = reads a k + if e.1 = k ∧ e.2 = false then 1 else 0 := by
  obtain ⟨k', w⟩ := e
  simp [reads, count_cons]

theorem reads_eq_zero_of_not_touches (h : ¬ Touches a k) : reads a k = 0 := by
  by_contra hne
  exact h (touches_iff.mpr (Or.inr (Nat.pos_of_ne_zero hne)))

/-- The table after taking the locks of `a`. -/
def acquire (top : ℕ) (a : Access Key) (v : Key → ℕ) (k : Key) : ℕ :=
  if Writes a k then top else min top (v k + reads a k)

/-- The table after giving the locks of `a` back. -/
def release (a : Access Key) (v : Key → ℕ) (k : Key) : ℕ :=
  if Writes a k then 0 else v k - reads a k

theorem acquire_of_not_touches (h : ¬ Touches a k) (hv : v k ≤ top) : acquire top a v k = v k := by
  rw [acquire, if_neg fun hw => h hw.touches, reads_eq_zero_of_not_touches h]
  omega

theorem release_of_not_touches (h : ¬ Touches a k) : release a v k = v k := by
  rw [release, if_neg fun hw => h hw.touches, reads_eq_zero_of_not_touches h]
  omega

theorem Covers.acquire (htop : top ≠ 0)
    (hc : Covers top v hs) : Covers top (acquire top a v) (hs ++ [a]) := by
  intro h hmem k hk
  rw [LockTable.acquire]
  rcases mem_append.mp hmem with hmem | hmem
  · obtain ⟨hne, hw⟩ := hc h hmem k hk
    split_ifs
    · exact ⟨htop, fun _ => rfl⟩
    · exact ⟨by omega, fun hwk => by rw [hw hwk]; omega⟩
  · obtain rfl := mem_singleton.mp hmem
    split_ifs with hwk
    · exact ⟨htop, fun _ => rfl⟩
    · rcases touches_iff.mp hk with hw | hr
      · exact absurd hw hwk
      · exact ⟨by omega, fun hw => absurd hw hwk⟩

/-! ## Exact tables -/

/-- All read accesses of `hs` to `k`. -/
def totalReads (hs : List (Access Key)) (k : Key) : ℕ := (hs.map (reads · k)).sum

@[simp] theorem totalReads_nil (k : Key) : totalReads [] k = 0 := rfl

@[simp] theorem totalReads_cons (h : Access Key) (hs : List (Access Key)) (k : Key) :
    totalReads (h :: hs) k = reads h k + totalReads hs k := by
  simp [totalReads]

@[simp] theorem totalReads_append (hs hs' : List (Access Key)) (k : Key) :
    totalReads (hs ++ hs') k = totalReads hs k + totalReads hs' k := by
  simp [totalReads]

theorem totalReads_perm (h : hs.Perm hs') (k : Key) : totalReads hs k = totalReads hs' k :=
  (h.map _).sum_eq

theorem reads_le_totalReads (hmem : h ∈ hs) (k : Key) :
    reads h k ≤ totalReads hs k :=
  single_le_sum (fun _ _ => Nat.zero_le _) _ (mem_map_of_mem hmem)

/-- The table holds exactly the locks of `hs`. -/
structure Represents (top : ℕ) (v : Key → ℕ) (hs : List (Access Key)) : Prop where
  apart : hs.Pairwise fun a b => ¬ Conflict a b
  write : ∀ h ∈ hs, ∀ k, Writes h k → v k = top
  read : ∀ k, (∀ h ∈ hs, ¬ Writes h k) → v k = totalReads hs k
  le_top : ∀ k, v k ≤ top

theorem represents_nil (top : ℕ) : Represents top (fun _ : Key => 0) [] where
  apart := List.Pairwise.nil
  write := fun _ hmem => absurd hmem not_mem_nil
  read := fun _ _ => rfl
  le_top := fun _ => Nat.zero_le _

theorem Represents.perm (hr : Represents top v hs) (hp : hs.Perm hs') : Represents top v hs' where
  apart := (hp.pairwise_iff fun hab hba => hab hba.symm).mp hr.apart
  write := fun h hmem => hr.write h (hp.mem_iff.mpr hmem)
  read := by
    intro k hk
    rw [← totalReads_perm hp k]
    exact hr.read k fun h hmem => hk h (hp.mem_iff.mp hmem)
  le_top := hr.le_top

theorem Represents.covers (htop : top ≠ 0) (hr : Represents top v hs) : Covers top v hs := by
  intro h hmem k hk
  refine ⟨?_, hr.write h hmem k⟩
  by_cases hex : ∃ g ∈ hs, Writes g k
  · obtain ⟨g, hg, hw⟩ := hex
    rw [hr.write g hg k hw]
    exact htop
  · push Not at hex
    rw [hr.read k hex]
    -- nobody writes `k`, so `h` itself is one of the counted readers
    have hpos : 0 < reads h k := (touches_iff.mp hk).resolve_left (hex h hmem)
    have := reads_le_totalReads hmem k
    omega

/-- Taking the locks of a list that is not blocked, when its reads fit. -/
theorem Represents.acquire (htop : top ≠ 0) (hr : Represents top v hs) (ha : ¬ Blocked top v a)
    (hfit : ∀ k, totalReads hs k + reads a k ≤ top) :
    Represents top (acquire top a v) (hs ++ [a]) := by
  have hnot : ∀ h ∈ hs, ¬ Conflict h a := fun h hmem => (hr.covers htop).not_conflict hmem ha
  refine ⟨?_, ?_, ?_, ?_⟩
  · refine pairwise_append.mpr ⟨hr.apart, pairwise_singleton _ _, ?_⟩
    intro h hmem b hb
    rw [mem_singleton.mp hb]
    exact hnot h hmem
  · intro h hmem k hw
    rcases mem_append.mp hmem with hmem | hmem
    · have hnt : ¬ Touches a k := fun ht => hnot h hmem ⟨k, hw.touches, ht, Or.inl hw⟩
      rw [acquire_of_not_touches hnt (hr.le_top k)]
      exact hr.write h hmem k hw
    · rw [mem_singleton.mp hmem] at hw
      rw [LockTable.acquire, if_pos hw]
  · intro k hk
    have hka : ¬ Writes a k := hk a (by simp)
    have hv := hr.read k fun h hmem => hk h (by simp [hmem])
    rw [LockTable.acquire, if_neg hka, hv, totalReads_append, totalReads_cons, totalReads_nil]
    have := hfit k
    omega
  · intro k
    rw [LockTable.acquire]
    split_ifs <;> omega

/-- A list that names `k` at most once for reading does not push its reads over
the top: a key whose value is already `top` denies the next reader. -/
theorem Represents.totalReads_le (hr : Represents top v hs) (ha : ¬ Blocked top v a)
    (hle : totalReads hs k ≤ top) (honce : reads a k ≤ 1) : totalReads hs k + reads a k ≤ top := by
  rcases Nat.eq_zero_or_pos (reads a k) with hzero | hpos
  · rw [hzero]
    exact hle
  · have hmem : (k, false) ∈ a := count_pos_iff.mp hpos
    have hfree : v k ≠ top := fun hv => ha ⟨(k, false), hmem, Or.inl hv⟩
    have hv := hr.read k fun h hh hw => hfree (hr.write h hh k hw)
    omega

/-- Giving back the locks of one holder. -/
theorem Represents.release (hr : Represents top v (h :: hs)) : Represents top (release h v) hs := by
  obtain ⟨hhead, htail⟩ := pairwise_cons.mp hr.apart
  refine ⟨htail, ?_, ?_, ?_⟩
  · intro g hg k hw
    have hnt : ¬ Touches h k := fun ht => hhead g hg ⟨k, ht, hw.touches, Or.inr hw⟩
    rw [release_of_not_touches hnt]
    exact hr.write g (by simp [hg]) k hw
  · intro k hk
    rw [LockTable.release]
    split_ifs with hw
    · -- `h` wrote `k`, so no other holder names it
      symm
      apply sum_eq_zero
      intro n hn
      obtain ⟨g, hg, rfl⟩ := mem_map.mp hn
      exact reads_eq_zero_of_not_touches fun ht => hhead g hg ⟨k, hw.touches, ht, Or.inl hw⟩
    · have hv := hr.read k fun g hg => by
        rcases mem_cons.mp hg with rfl | hg
        · exact hw
        · exact hk g hg
      rw [hv, totalReads_cons]
      omega
  · intro k
    have := hr.le_top k
    rw [LockTable.release]
    split_ifs <;> omega

theorem Represents.releaseAll (as : List (Access Key)) (hr : Represents top v (as ++ hs)) :
    Represents top (as.foldl (fun v a => LockTable.release a v) v) hs := by
  induction as generalizing v with
  | nil => exact hr
  | cons a as ih => exact ih hr.release

/-! ## Tables that claim no more than is held -/

/-- Without a writer, the value is at most the number of reads. -/
def Bounded (v : Key → ℕ) (hs : List (Access Key)) : Prop :=
  ∀ k, v k ≤ totalReads hs k ∨ ∃ h ∈ hs, Writes h k

theorem bounded_zero (hs : List (Access Key)) : Bounded (fun _ => 0) hs :=
  fun _ => Or.inl (Nat.zero_le _)

theorem Bounded.perm (hb : Bounded v hs) (hp : hs.Perm hs') : Bounded v hs' := by
  intro k
  rcases hb k with h | ⟨h, hmem, hw⟩
  · exact Or.inl (by rwa [← totalReads_perm hp k])
  · exact Or.inr ⟨h, hp.mem_iff.mp hmem, hw⟩

theorem Bounded.acquire (a : Access Key)
    (hb : Bounded v hs) : Bounded (acquire top a v) (hs ++ [a]) := by
  intro k
  by_cases hw : Writes a k
  · exact Or.inr ⟨a, by simp, hw⟩
  · rcases hb k with h | ⟨h, hmem, hwk⟩
    · left
      rw [LockTable.acquire, if_neg hw, totalReads_append, totalReads_cons, totalReads_nil]
      omega
    · exact Or.inr ⟨h, by simp [hmem], hwk⟩

theorem Bounded.release (hb : Bounded v (h :: hs)) : Bounded (release h v) hs := by
  intro k
  rw [LockTable.release]
  split_ifs with hw
  · exact Or.inl (Nat.zero_le _)
  · rcases hb k with hle | ⟨g, hg, hwk⟩
    · rw [totalReads_cons] at hle
      exact Or.inl (by omega)
    · rcases mem_cons.mp hg with rfl | hg
      · exact absurd hwk hw
      · exact Or.inr ⟨g, hg, hwk⟩

theorem Bounded.releaseAll (as : List (Access Key)) (hb : Bounded v (as ++ hs)) :
    Bounded (as.foldl (fun v a => LockTable.release a v) v) hs := by
  induction as generalizing v with
  | nil => exact hb
  | cons a as ih => exact ih hb.release

/-- With nobody holding, the table is empty. -/
theorem Bounded.eq_zero (hb : Bounded v []) (k : Key) : v k = 0 := by
  rcases hb k with h | ⟨h, hmem, -⟩
  · simpa using h
  · exact absurd hmem not_mem_nil

end LockTable
