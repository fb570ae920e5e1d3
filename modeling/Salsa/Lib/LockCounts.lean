import Salsa.Lib.LockTable

/-!
# Salsa.Lib.LockCounts — reader–writer locks as two maps of counts

A lock manager that keeps, for every key, how often it is locked for writing and
how often for reading, and drops the entry with its last count.

* `ofCount n` — the map of the counts `n`, without entries for zero.
* `lock`, `unlock` — the locks of one holder, access by access; `unlockChecked`
  fails where there is no count to give back.
* `ofHolders hs` — the maps that count exactly the accesses of `hs`. Locking adds
  a holder (`lock_ofHolders`), unlocking one of them takes it out
  (`unlock_ofHolders`, `unlockChecked_ofHolders`).
* `not_conflict_of_free` — an access that the maps leave free conflicts with no
  holder.
-/

variable {Key : Type}

namespace LockCounts

open LockTable Function

variable [DecidableEq Key] {n : Key → ℕ}

/-! ## Maps of counts -/

/-- The counts as a map, without entries for zero. -/
def ofCount (n : Key → ℕ) (k : Key) : Option ℕ := if n k = 0 then none else some (n k)

/-- `entry(k).or_insert(0) += 1`. -/
def inc (m : Key → Option ℕ) (k : Key) : Key → Option ℕ :=
  Function.update m k (some ((m k).getD 0 + 1))

/-- One less, if there is an entry; the entry goes with its last count. -/
def dec (m : Key → Option ℕ) (k : Key) : Key → Option ℕ :=
  match m k with
  | none => m
  | some count => Function.update m k (if count - 1 = 0 then none else some (count - 1))

omit [DecidableEq Key] in
theorem ofCount_eq_none_iff {k : Key} : ofCount n k = none ↔ n k = 0 := by
  unfold ofCount
  split <;> simp_all

omit [DecidableEq Key] in
theorem ofCount_of_pos {k : Key} (h : 0 < n k) : ofCount n k = some (n k) := if_neg (Nat.ne_of_gt h)

variable (n : Key → ℕ)

omit [DecidableEq Key] in
theorem getD_ofCount (k : Key) : (ofCount n k).getD 0 = n k := by
  unfold ofCount
  split
  · rename_i h
    exact h.symm
  · rfl

theorem ofCount_update (k : Key) (c : ℕ) :
    ofCount (update n k c) = update (ofCount n) k (if c = 0 then none else some c) := by
  funext k'
  by_cases hk : k' = k
  · subst hk
    simp [ofCount]
  · simp [ofCount, hk]

theorem inc_ofCount (k : Key) : inc (ofCount n) k = ofCount (update n k (n k + 1)) := by
  rw [inc, getD_ofCount, ofCount_update, if_neg (Nat.succ_ne_zero _)]

theorem dec_ofCount (k : Key) : dec (ofCount n) k = ofCount (update n k (n k - 1)) := by
  rw [ofCount_update, dec]
  rcases Nat.eq_zero_or_pos (n k) with h | h
  · rw [ofCount_eq_none_iff.mpr h, h, if_pos rfl]
    exact (update_eq_self_iff.mpr (ofCount_eq_none_iff.mpr h).symm).symm
  · rw [ofCount_of_pos h]

end LockCounts

open LockTable LockCounts

structure LockCounts (Key : Type) where
  writeLocks : Key → Option ℕ
  readLocks : Key → Option ℕ

namespace LockCounts

variable [DecidableEq Key] {hs hs' : List (Access Key)}

/-! ## Locking and unlocking -/

def empty : LockCounts Key := ⟨fun _ => none, fun _ => none⟩

/-- One more lock of the kind of the access. -/
def lockOne (m : LockCounts Key) (e : Key × Bool) : LockCounts Key :=
  if e.2 then { m with writeLocks := inc m.writeLocks e.1 }
  else { m with readLocks := inc m.readLocks e.1 }

def unlockOne (m : LockCounts Key) (e : Key × Bool) : LockCounts Key :=
  if e.2 then { m with writeLocks := dec m.writeLocks e.1 }
  else { m with readLocks := dec m.readLocks e.1 }

/-- What is stored for an access: the count of its key in its kind. -/
def entry (m : LockCounts Key) (e : Key × Bool) : Option ℕ :=
  (if e.2 then m.writeLocks else m.readLocks) e.1

def lock (m : LockCounts Key) (a : Access Key) : LockCounts Key := a.foldl lockOne m

def unlock (m : LockCounts Key) (a : Access Key) : LockCounts Key := a.foldl unlockOne m

/-- `unlock`, failing where there is nothing to give back. -/
def unlockChecked : LockCounts Key → Access Key → Option (LockCounts Key)
  | m, [] => some m
  | m, e :: a => if (m.entry e).getD 0 = 0 then none else unlockChecked (m.unlockOne e) a

omit [DecidableEq Key] in
theorem ext_entry {m m' : LockCounts Key} (h : m.entry = m'.entry) : m = m' := by
  obtain ⟨w, r⟩ := m
  obtain ⟨w', r'⟩ := m'
  have hw : w = w' := funext fun k => congrFun h (k, true)
  have hr : r = r' := funext fun k => congrFun h (k, false)
  rw [hw, hr]

theorem entry_lockOne (m : LockCounts Key) (e : Key × Bool) :
    (m.lockOne e).entry = inc m.entry e := by
  obtain ⟨k, w⟩ := e
  funext ⟨k', w'⟩
  cases w <;> cases w' <;> by_cases hk : k' = k <;> simp [entry, lockOne, inc, hk]

theorem entry_unlockOne (m : LockCounts Key) (e : Key × Bool) :
    (m.unlockOne e).entry = dec m.entry e := by
  obtain ⟨k, w⟩ := e
  funext ⟨k', w'⟩
  cases w with
  | true =>
    cases hm : m.writeLocks k <;> cases w' <;> by_cases hk : k' = k <;>
      simp [entry, unlockOne, dec, hk, hm]
  | false =>
    cases hm : m.readLocks k <;> cases w' <;> by_cases hk : k' = k <;>
      simp [entry, unlockOne, dec, hk, hm]

/-! ## Counting holders -/

/-- How often some holders name the key of the access in its kind. -/
def total (hs : List (Access Key)) (e : Key × Bool) : ℕ := (hs.map (List.count e)).sum

/-- The maps that count the accesses of `hs`. -/
def ofHolders (hs : List (Access Key)) : LockCounts Key where
  writeLocks := ofCount fun k => total hs (k, true)
  readLocks := ofCount fun k => total hs (k, false)

@[simp] theorem total_nil (e : Key × Bool) : total [] e = 0 := rfl

@[simp] theorem total_cons (h : Access Key) (hs : List (Access Key)) (e : Key × Bool) :
    total (h :: hs) e = h.count e + total hs e := by
  simp [total]

@[simp] theorem total_append (hs hs' : List (Access Key)) (e : Key × Bool) :
    total (hs ++ hs') e = total hs e + total hs' e := by
  simp [total]

/-- Someone names the access. -/
theorem total_pos_iff {e : Key × Bool} : 0 < total hs e ↔ ∃ h ∈ hs, e ∈ h := by
  induction hs with
  | nil => simp
  | cons h hs ih =>
    rw [total_cons, Nat.add_pos_iff_pos_or_pos, ih, List.count_pos_iff]
    simp

@[simp] theorem entry_ofHolders (hs : List (Access Key)) :
    (ofHolders hs).entry = ofCount (total hs) := by
  funext ⟨k, w⟩
  cases w with
  | true => rfl
  | false => rfl

theorem ofHolders_congr (h : ∀ e, total hs e = total hs' e) : ofHolders hs = ofHolders hs' := by
  simp only [ofHolders, h]

theorem ofHolders_perm (h : hs.Perm hs') :
    ofHolders hs = ofHolders hs' :=
  ofHolders_congr fun _ => (h.map _).sum_eq

theorem ofHolders_nil : ofHolders ([] : List (Access Key)) = empty := rfl

/-- One access more of the last holder. -/
theorem lockOne_ofHolders (hs : List (Access Key)) (a : Access Key) (e : Key × Bool) :
    (ofHolders (hs ++ [a])).lockOne e = ofHolders (hs ++ [a ++ [e]]) := by
  apply ext_entry
  rw [entry_lockOne, entry_ofHolders, entry_ofHolders, inc_ofCount]
  congr 1
  funext e'
  by_cases he : e' = e
  · subst he
    simp [Nat.add_assoc]
  · simp [he, Ne.symm he]

/-- Locking adds a holder. -/
theorem lock_ofHolders (hs : List (Access Key)) (a : Access Key) :
    (ofHolders hs).lock a = ofHolders (hs ++ [a]) := by
  have hfold : ∀ (a b : Access Key), (ofHolders (hs ++ [b])).lock a =
      ofHolders (hs ++ [b ++ a]) := by
    intro a
    induction a with
    | nil =>
      intro b
      rw [List.append_nil]
      rfl
    | cons e a ih =>
      intro b
      rw [lock, List.foldl_cons, lockOne_ofHolders, ← lock, ih, List.append_assoc,
        List.singleton_append]
  have hnil : ofHolders hs = ofHolders (hs ++ [[]]) := ofHolders_congr fun e => by simp
  rw [hnil, hfold, List.nil_append]

/-- One access less of the first. -/
theorem unlockOne_ofHolders (e : Key × Bool) (a : Access Key) (hs : List (Access Key)) :
    (ofHolders ((e :: a) :: hs)).unlockOne e = ofHolders (a :: hs) := by
  apply ext_entry
  rw [entry_unlockOne, entry_ofHolders, entry_ofHolders, dec_ofCount]
  congr 1
  funext e'
  by_cases he : e' = e
  · subst he
    rw [Function.update_self, total_cons, total_cons, List.count_cons_self]
    omega
  · rw [Function.update_of_ne he, total_cons, total_cons, List.count_cons_of_ne (Ne.symm he)]

/-- Unlocking takes a holder out, and finds every count. -/
theorem unlockChecked_ofHolders (a : Access Key) (hs : List (Access Key)) :
    (ofHolders (a :: hs)).unlockChecked a = some (ofHolders hs) := by
  induction a with
  | nil => exact congrArg some (ofHolders_congr fun e => by simp)
  | cons e a ih =>
    rw [unlockChecked, entry_ofHolders, getD_ofCount, total_cons, List.count_cons_self,
      if_neg (by omega), unlockOne_ofHolders, ih]

theorem unlock_ofHolders (a : Access Key) (hs : List (Access Key)) :
    (ofHolders (a :: hs)).unlock a = ofHolders hs := by
  induction a with
  | nil => exact ofHolders_congr fun e => by simp
  | cons e a ih => rw [unlock, List.foldl_cons, unlockOne_ofHolders, ← unlock, ih]

/-! ## Free accesses -/

/-- The maps leave the access free: no writer, and no reader either if it writes. -/
def Free (m : LockCounts Key) (e : Key × Bool) : Prop :=
  m.writeLocks e.1 = none ∧ (e.2 = true → m.readLocks e.1 = none)

/-- Then it conflicts with no holder. -/
theorem not_conflict_of_free {a h : Access Key}
    (hfree : ∀ e ∈ a, (ofHolders hs).Free e) (hh : h ∈ hs) : ¬ Conflict h a := by
  rintro ⟨k, ⟨w, hk⟩, ⟨w', ha⟩, hw⟩
  obtain ⟨hwrite, hread⟩ := hfree (k, w') ha
  have hnone : ∀ v, ofCount (total hs) (k, v) = none → (k, v) ∉ h := by
    intro v hv hmem
    have := total_pos_iff.mpr ⟨h, hh, hmem⟩
    have := ofCount_eq_none_iff.mp hv
    omega
  have hnw : (k, true) ∉ h := hnone true hwrite
  rcases hw with hw | hw
  · exact hnw hw
  · cases w with
    | true => exact hnw hk
    | false => exact hnone false ((hfree (k, true) hw).2 rfl) hk

end LockCounts
