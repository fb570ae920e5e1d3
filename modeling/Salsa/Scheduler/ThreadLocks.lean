import Mathlib.Data.List.Count
import Salsa.Lib.BitSet
import Salsa.Lib.LockTable
import Salsa.Lib.Lts

/-!
# Salsa.Scheduler.ThreadLocks — account locks that know their thread

`thread_aware_account_locks.rs`: a scheduler may lock an account again for the
thread that holds it already. An account has at most one entry, with the thread
and the number of its write locks and, for each thread, the number of read locks.

The counts are `u32` and wrap, so all of this is about fewer than `2 ^ 32` locks
of one account by one thread; `entry_lost` is what happens beyond.
-/

namespace Salsa.ThreadLocks

open LockTable Function Option BitSet

variable {Key : Type} [DecidableEq Key]

/-! ## `ThreadSet` -/

def maxThreads : ℕ := 64

abbrev ThreadId := ℕ

abbrev LockCount := BitVec 32

abbrev ThreadSet := BitVec 64

namespace ThreadSet

def none : ThreadSet := 0

def any (numThreads : ℕ) : ThreadSet := BitSet.below numThreads

def only (threadId : ThreadId) : ThreadSet := BitSet.only threadId

def onlyOneContained (self : ThreadSet) : Option ThreadId := BitSet.onlyOne self

def isEmpty (self : ThreadSet) : Bool := self = none

def contains (self : ThreadSet) (threadId : ThreadId) : Bool := self &&& only threadId ≠ 0

def insert (self : ThreadSet) (threadId : ThreadId) : ThreadSet := self ||| only threadId

def remove (self : ThreadSet) (threadId : ThreadId) : ThreadSet := self &&& ~~~ only threadId

end ThreadSet

/-! ## `AccountLocks` -/

structure AccountWriteLocks where
  threadId : ThreadId
  lockCount : LockCount

structure AccountReadLocks where
  threadSet : ThreadSet
  lockCounts : ThreadId → LockCount

structure AccountLocks where
  writeLocks : Option AccountWriteLocks
  readLocks : Option AccountReadLocks

def AccountLocks.default : AccountLocks := ⟨none, none⟩

inductive TryLockError where
  | multipleConflicts
  | threadNotAllowed
deriving DecidableEq, Repr

/-- The body of `schedulable_threads` for the entry of an account; `none` is the
failed assertion or `unreachable!`. -/
def schedulableThreads (numThreads : ℕ) (write : Bool) : Option AccountLocks → Option ThreadSet
  | none => some (ThreadSet.any numThreads)
  | some ⟨none, some readLocks⟩ =>
      if write then
        some (((ThreadSet.onlyOneContained readLocks.threadSet).map ThreadSet.only).getD
          ThreadSet.none)
      else some (ThreadSet.any numThreads)
  | some ⟨some writeLocks, none⟩ => some (ThreadSet.only writeLocks.threadId)
  | some ⟨some writeLocks, some readLocks⟩ =>
      if ThreadSet.onlyOneContained readLocks.threadSet = some writeLocks.threadId then
        some readLocks.threadSet
      else none
  | some ⟨none, none⟩ => none

/-- The body of `write_lock_account`; `none` is a failed assertion. -/
def writeLockEntry (threadId : ThreadId) (entry : Option AccountLocks) :
    Option (Option AccountLocks) :=
  let locks := entry.getD .default
  if locks.readLocks.any fun l => ThreadSet.onlyOneContained l.threadSet ≠ some threadId then none
  else
    match locks.writeLocks with
    | some writeLocks =>
        if writeLocks.threadId ≠ threadId then none
        else
          some (some { locks with
            writeLocks := some { writeLocks with lockCount := writeLocks.lockCount + 1 } })
    | none => some (some { locks with writeLocks := some ⟨threadId, 1⟩ })

/-- The body of `write_unlock_account`; an empty entry is removed. -/
def writeUnlockEntry (threadId : ThreadId) (entry : Option AccountLocks) :
    Option (Option AccountLocks) :=
  match entry with
  | none => none
  | some ⟨none, _⟩ => none
  | some ⟨some writeLocks, readLocks⟩ =>
      if writeLocks.threadId ≠ threadId then none
      else
        let lockCount := writeLocks.lockCount - 1
        if lockCount = 0 then
          if readLocks.isNone then some none else some (some ⟨none, readLocks⟩)
        else some (some ⟨some { writeLocks with lockCount := lockCount }, readLocks⟩)

/-- The body of `read_lock_account`; `none` is a failed assertion. -/
def readLockEntry (threadId : ThreadId) (entry : Option AccountLocks) :
    Option (Option AccountLocks) :=
  let locks := entry.getD .default
  if locks.writeLocks.any fun l => l.threadId ≠ threadId then none
  else
    match locks.readLocks with
    | some readLocks =>
        some (some { locks with
          readLocks := some
            { threadSet := ThreadSet.insert readLocks.threadSet threadId
              lockCounts := Function.update readLocks.lockCounts threadId
                (readLocks.lockCounts threadId + 1) } })
    | none =>
        some (some { locks with
          readLocks := some
            { threadSet := ThreadSet.only threadId
              lockCounts := Function.update (fun _ => 0) threadId 1 } })

/-- The body of `read_unlock_account`; an empty entry is removed. -/
def readUnlockEntry (threadId : ThreadId) (entry : Option AccountLocks) :
    Option (Option AccountLocks) :=
  match entry with
  | none => none
  | some ⟨_, none⟩ => none
  | some ⟨writeLocks, some readLocks⟩ =>
      if !ThreadSet.contains readLocks.threadSet threadId then none
      else
        let lockCount := readLocks.lockCounts threadId - 1
        let lockCounts := Function.update readLocks.lockCounts threadId lockCount
        if lockCount = 0 then
          let threadSet := ThreadSet.remove readLocks.threadSet threadId
          if ThreadSet.isEmpty threadSet then
            if writeLocks.isNone then some none else some (some ⟨writeLocks, none⟩)
          else some (some ⟨writeLocks, some ⟨threadSet, lockCounts⟩⟩)
        else some (some ⟨writeLocks, some ⟨readLocks.threadSet, lockCounts⟩⟩)

/-! ## `ThreadAwareAccountLocks` -/

/-- The map of `ThreadAwareAccountLocks`. -/
abbrev Locks (Key : Type) := Key → Option AccountLocks

/-- An operation on the entries of some accounts, one after the other. -/
def forEach (f : Option AccountLocks → Option (Option AccountLocks)) :
    List Key → Locks Key → Option (Locks Key)
  | [], locks => some locks
  | account :: rest, locks =>
      (f (locks account)).bind fun entry => forEach f rest (Function.update locks account entry)

def lockAccounts (numThreads : ℕ) (locks : Locks Key)
    (writeAccountLocks readAccountLocks : List Key)
    (threadId : ThreadId) : Option (Locks Key) :=
  if threadId < numThreads then
    (forEach (writeLockEntry threadId) writeAccountLocks locks).bind
      (forEach (readLockEntry threadId) readAccountLocks)
  else none

def unlockAccounts (locks : Locks Key) (writeAccountLocks readAccountLocks : List Key)
    (threadId : ThreadId) : Option (Locks Key) :=
  (forEach (writeUnlockEntry threadId) writeAccountLocks locks).bind
    (forEach (readUnlockEntry threadId) readAccountLocks)

/-- A loop of `accounts_schedulable_threads`; the inner `none` is its early return. -/
def restrictTo (schedulable : Key → Option ThreadSet) :
    List Key → ThreadSet → Option (Option ThreadSet)
  | [], set => some (some set)
  | account :: rest, set =>
      (schedulable account).bind fun threads =>
        let set := set &&& threads
        if ThreadSet.isEmpty set then some none else restrictTo schedulable rest set

def accountsSchedulableThreads (numThreads : ℕ) (locks : Locks Key)
    (writeAccountLocks readAccountLocks : List Key) : Option (Option ThreadSet) :=
  (restrictTo (fun account => schedulableThreads numThreads true (locks account))
    writeAccountLocks (ThreadSet.any numThreads)).bind fun
    | none => some none
    | some set =>
        restrictTo (fun account => schedulableThreads numThreads false (locks account))
          readAccountLocks set

/-- `try_lock_accounts`; the outer `none` is a panic. -/
def tryLockAccounts (numThreads : ℕ) (locks : Locks Key)
    (writeAccountLocks readAccountLocks : List Key) (allowedThreads : ThreadSet)
    (threadSelector : ThreadSet → ThreadId) :
    Option (Except TryLockError ThreadId × Locks Key) :=
  (accountsSchedulableThreads numThreads locks writeAccountLocks readAccountLocks).bind fun
    | none => some (.error .multipleConflicts, locks)
    | some schedulable =>
        let schedulable := schedulable &&& allowedThreads
        if ThreadSet.isEmpty schedulable then some (.error .threadNotAllowed, locks)
        else
          let threadId := threadSelector schedulable
          (lockAccounts numThreads locks writeAccountLocks readAccountLocks threadId).map
            fun locks => (.ok threadId, locks)

/-! ## Thread sets -/

theorem eq_none_iff {s : ThreadSet} : s = ThreadSet.none ↔ ∀ t, s.getLsbD t = false := eq_zero_iff

theorem contains_eq (s : ThreadSet) (t : ThreadId) : ThreadSet.contains s t = s.getLsbD t := by
  rw [Bool.eq_iff_iff, ThreadSet.contains, decide_eq_true_eq, Ne, eq_zero_iff, not_forall]
  simp only [ThreadSet.only, BitVec.getLsbD_and, getLsbD_only, Bool.not_eq_false,
    Bool.and_eq_true, decide_eq_true_eq]
  constructor
  · rintro ⟨u, hu, -, rfl⟩
    exact hu
  · intro h
    exact ⟨t, h, BitVec.lt_of_getLsbD h, rfl⟩

variable {t : ThreadId}

theorem getLsbD_insert (s : ThreadSet) (ht : t < maxThreads) (u : ThreadId) :
    (ThreadSet.insert s t).getLsbD u = (s.getLsbD u || decide (u = t)) := by
  rw [ThreadSet.insert, ThreadSet.only, BitVec.getLsbD_or, getLsbD_only]
  by_cases h : t = u
  · subst h
    simp [show t < 64 from ht]
  · simp [h, Ne.symm h]

theorem getLsbD_remove (s : ThreadSet) (t u : ThreadId) :
    (ThreadSet.remove s t).getLsbD u = (s.getLsbD u && decide (u ≠ t)) := by
  rw [ThreadSet.remove, ThreadSet.only, BitVec.getLsbD_and, BitVec.getLsbD_not, getLsbD_only]
  by_cases hu : u < 64
  · simp [hu, eq_comm]
  · simp [hu, BitVec.getLsbD_of_ge s u (Nat.le_of_not_lt hu)]

/-! ## Entries -/

/-- The write locks that the threads hold on an account. -/
def RepWrite (wr : ThreadId → ℕ) : Option AccountWriteLocks → Prop
  | none => ∀ t, wr t = 0
  | some l => l.lockCount.toNat = wr l.threadId ∧ 0 < wr l.threadId ∧ ∀ t, 0 < wr t → t = l.threadId

def RepRead (rd : ThreadId → ℕ) : Option AccountReadLocks → Prop
  | none => ∀ t, rd t = 0
  | some l => (∃ t, 0 < rd t) ∧ (∀ t, l.threadSet.getLsbD t = decide (0 < rd t)) ∧
      ∀ t, (l.lockCounts t).toNat = rd t

/-- The entry of an account on which thread `t` holds `wr t` write locks and `rd t`
read locks; there is none without locks. -/
structure Rep (wr rd : ThreadId → ℕ) (entry : Option AccountLocks) : Prop where
  write : RepWrite wr (entry.getD .default).writeLocks
  read : RepRead rd (entry.getD .default).readLocks
  present : entry.isSome → ∃ t, 0 < wr t ∨ 0 < rd t

/-- One lock more for thread `t`. -/
def bump (t : ThreadId) (n : ThreadId → ℕ) (u : ThreadId) : ℕ := n u + if u = t then 1 else 0

@[simp] theorem bump_same (t : ThreadId) (n : ThreadId → ℕ) : bump t n t = n t + 1 := by
  simp [bump]

@[simp] theorem bump_of_ne {t u : ThreadId} (h : u ≠ t) (n : ThreadId → ℕ) : bump t n u = n u := by
  simp [bump, h]

/-- Only thread `t` holds any lock of the kind. -/
def OnlyBy (t : ThreadId) (n : ThreadId → ℕ) : Prop := ∀ u, 0 < n u → u = t

theorem onlyOneContained_iff {rd : ThreadId → ℕ} {l : AccountReadLocks} (h : RepRead rd (some l)) :
    ThreadSet.onlyOneContained l.threadSet = some t ↔ OnlyBy t rd := by
  obtain ⟨⟨u, hu⟩, hset, -⟩ := h
  rw [ThreadSet.onlyOneContained, onlyOne_eq_some_iff]
  simp only [hset, decide_eq_true_eq]
  constructor
  · intro h v hv
    exact (h v).mp hv
  · intro h v
    refine ⟨h v, ?_⟩
    rintro rfl
    rwa [← h u hu]

theorem toNat_add_one {c : LockCount} (h : c.toNat + 1 < 2 ^ 32) : (c + 1).toNat = c.toNat + 1 := by
  exact Nat.mod_eq_of_lt h

theorem toNat_sub_one {c : LockCount} {n : ℕ} (h : c.toNat = n + 1) : (c - 1).toNat = n := by
  rw [BitVec.toNat_sub_of_le (BitVec.le_def.mpr (by rw [h]; exact Nat.le_add_left _ _)), h]
  rfl

variable {n : ThreadId → ℕ}

theorem OnlyBy.bump (h : OnlyBy t n) : OnlyBy t (bump t n) := by
  intro u hu
  by_contra hne
  rw [bump_of_ne hne] at hu
  exact hne (h u hu)

theorem eq_zero_of_onlyBy (h : OnlyBy t n) (ht : n t = 0) (u : ThreadId) : n u = 0 := by
  by_contra hne
  rw [h u (Nat.pos_of_ne_zero hne)] at hne
  exact hne ht

theorem onlyBy_of_bump {t u : ThreadId} (h : OnlyBy u (bump t n)) : OnlyBy u n := by
  intro v hv
  exact h v (Nat.lt_of_lt_of_le hv (Nat.le_add_right _ _))

variable {wr rd : ThreadId → ℕ} {entry : Option AccountLocks}

/-- A writer of `t` comes when no other thread holds a lock. -/
theorem Rep.writeLock (h : Rep wr rd entry) (hw : OnlyBy t wr) (hr : OnlyBy t rd) :
    ∃ entry', writeLockEntry t entry = some entry' ∧
      (wr t + 1 < 2 ^ 32 → Rep (bump t wr) rd entry') := by
  obtain ⟨hwrite, hread, -⟩ := h
  unfold writeLockEntry
  revert hwrite hread
  generalize entry.getD .default = locks
  obtain ⟨w, r⟩ := locks
  intro hwrite hread
  have hassert : (r.any fun l => ThreadSet.onlyOneContained l.threadSet ≠ some t) = false := by
    cases r with
    | none => rfl
    | some l =>
      rw [any_some, decide_eq_false_iff_not, not_not]
      exact (onlyOneContained_iff hread).mpr hr
  have hpresent : ∃ u, 0 < bump t wr u ∨ 0 < rd u := ⟨t, Or.inl (by simp)⟩
  simp only [hassert]
  cases w with
  | none =>
    have hzero : wr t = 0 := hwrite t
    refine ⟨_, rfl, fun _ => ⟨⟨?_, by simp, hw.bump⟩, hread, fun _ => hpresent⟩⟩
    rw [bump_same, hzero]
    rfl
  | some l =>
    obtain ⟨hcount, hpos, honly⟩ := hwrite
    have hthread : l.threadId = t := hw _ hpos
    subst hthread
    refine ⟨_, if_neg (not_not.mpr rfl), fun hlt => ?_⟩
    refine ⟨⟨?_, by simp, hw.bump⟩, hread, fun _ => hpresent⟩
    rw [← hcount] at hlt
    rw [bump_same, ← hcount]
    exact toNat_add_one hlt

/-- A reader of `t` comes when no other thread writes. -/
theorem Rep.readLock (h : Rep wr rd entry) (hw : OnlyBy t wr) (ht : t < maxThreads) :
    ∃ entry', readLockEntry t entry = some entry' ∧
      (rd t + 1 < 2 ^ 32 → Rep wr (bump t rd) entry') := by
  obtain ⟨hwrite, hread, -⟩ := h
  unfold readLockEntry
  revert hwrite hread
  generalize entry.getD .default = locks
  obtain ⟨w, r⟩ := locks
  intro hwrite hread
  have hassert : (w.any fun l => l.threadId ≠ t) = false := by
    cases w with
    | none => rfl
    | some l =>
      rw [any_some, decide_eq_false_iff_not, not_not]
      exact hw _ hwrite.2.1
  have hmem : ∃ u, 0 < bump t rd u := ⟨t, by simp⟩
  have hpresent : ∃ u, 0 < wr u ∨ 0 < bump t rd u := ⟨t, Or.inr (by simp)⟩
  simp only [hassert]
  cases r with
  | none =>
    have hzero : ∀ u, rd u = 0 := hread
    refine ⟨_, rfl, fun _ => ⟨hwrite, ⟨hmem, ?_, ?_⟩, fun _ => hpresent⟩⟩
    · intro u
      rw [ThreadSet.only, getLsbD_only, decide_eq_decide]
      simp only [bump, hzero]
      constructor
      · rintro ⟨-, rfl⟩
        simp
      · intro hu
        have heq : u = t := by
          by_contra hne
          simp [hne] at hu
        exact ⟨heq ▸ ht, heq.symm⟩
    · intro u
      by_cases hu : u = t
      · subst hu
        simp [hzero]
      · simp [hu, hzero]
  | some l =>
    obtain ⟨-, hset, hcounts⟩ := hread
    refine ⟨_, rfl, fun hlt => ⟨hwrite, ⟨hmem, ?_, ?_⟩, fun _ => hpresent⟩⟩
    · intro u
      by_cases hu : u = t
      · subst hu
        simp [getLsbD_insert _ ht]
      · simp [getLsbD_insert _ ht, hset, hu]
    · intro u
      by_cases hu : u = t
      · subst hu
        have hsucc := toNat_add_one (c := l.lockCounts u) (by rw [hcounts]; exact hlt)
        rw [hcounts] at hsucc
        simpa using hsucc
      · simpa [hu] using hcounts u

theorem Rep.writeUnlock (h : Rep (bump t wr) rd entry) :
    ∃ entry', writeUnlockEntry t entry = some entry' ∧ Rep wr rd entry' := by
  obtain ⟨hwrite, hread, -⟩ := h
  rcases entry with _ | ⟨_ | ⟨threadId, count⟩, r⟩
  · have hzero : bump t wr t = 0 := hwrite t
    simp at hzero
  · have hzero : bump t wr t = 0 := hwrite t
    simp at hzero
  obtain ⟨hcount, -, honly⟩ := hwrite
  have hthread : t = threadId := honly t (by simp)
  subst hthread
  have hlast : (count - 1).toNat = wr t := toNat_sub_one (by simpa using hcount)
  simp only [writeUnlockEntry, ne_eq, not_true_eq_false, if_false]
  by_cases hzero : count - 1 = 0
  · -- The last write lock goes, and the entry with it unless there are read locks.
    have hnone : ∀ u, wr u = 0 := by
      refine eq_zero_of_onlyBy (onlyBy_of_bump honly) ?_
      rw [← hlast, hzero]
      rfl
    rw [if_pos hzero]
    cases r with
    | none => exact ⟨_, rfl, hnone, hread, nofun⟩
    | some l =>
      refine ⟨_, rfl, hnone, hread, fun _ => ?_⟩
      obtain ⟨u, hu⟩ := hread.1
      exact ⟨u, Or.inr hu⟩
  · rw [if_neg hzero]
    have hpos : 0 < wr t :=
      Nat.pos_of_ne_zero fun h => hzero (BitVec.eq_of_toNat_eq (hlast.trans h))
    exact ⟨_, rfl, ⟨hlast, hpos, onlyBy_of_bump honly⟩, hread, fun _ => ⟨t, Or.inl hpos⟩⟩

/-- A reader of thread `t` leaves. -/
theorem Rep.readUnlock (h : Rep wr (bump t rd) entry) :
    ∃ entry', readUnlockEntry t entry = some entry' ∧ Rep wr rd entry' := by
  obtain ⟨hwrite, hread, -⟩ := h
  rcases entry with _ | ⟨w, _ | ⟨set, counts⟩⟩
  · have hzero : bump t rd t = 0 := hread t
    simp at hzero
  · have hzero : bump t rd t = 0 := hread t
    simp at hzero
  obtain ⟨-, hset, hcounts⟩ := hread
  have hcontains : ThreadSet.contains set t = true := by
    rw [contains_eq]
    exact (hset t).trans (by simp)
  have hlast : (counts t - 1).toNat = rd t := toNat_sub_one (by simpa using hcounts t)
  have hcounts' : ∀ u, (update counts t (counts t - 1) u).toNat = rd u := by
    intro u
    by_cases hu : u = t
    · subst hu
      simpa using hlast
    · simpa [hu] using hcounts u
  simp only [readUnlockEntry, hcontains, Bool.not_true, Bool.false_eq_true, if_false]
  by_cases hzero : counts t - 1 = 0
  · have hrt : rd t = 0 := by
      rw [← hlast, hzero]
      rfl
    have hset' : ∀ u, (ThreadSet.remove set t).getLsbD u = decide (0 < rd u) := by
      intro u
      by_cases hu : u = t
      · subst hu
        simp [getLsbD_remove, hrt]
      · simpa [getLsbD_remove, hu] using hset u
    rw [if_pos hzero]
    by_cases hempty : ThreadSet.remove set t = ThreadSet.none
    · have hnone : ∀ u, rd u = 0 := by
        intro u
        have hu := eq_none_iff.mp hempty u
        rw [hset', decide_eq_false_iff_not] at hu
        exact Nat.eq_zero_of_not_pos hu
      rw [ThreadSet.isEmpty, decide_eq_true hempty, if_pos rfl]
      cases w with
      | none => exact ⟨_, rfl, hwrite, hnone, nofun⟩
      | some l => exact ⟨_, rfl, hwrite, hnone, fun _ => ⟨_, Or.inl hwrite.2.1⟩⟩
    · have hmem : ∃ u, 0 < rd u := by
        rw [eq_none_iff, not_forall] at hempty
        obtain ⟨u, hu⟩ := hempty
        rw [hset', Bool.not_eq_false, decide_eq_true_eq] at hu
        exact ⟨u, hu⟩
      rw [ThreadSet.isEmpty, decide_eq_false hempty]
      refine ⟨_, rfl, hwrite, ⟨hmem, hset', hcounts'⟩, fun _ => ?_⟩
      obtain ⟨u, hu⟩ := hmem
      exact ⟨u, Or.inr hu⟩
  · rw [if_neg hzero]
    have hpos : 0 < rd t :=
      Nat.pos_of_ne_zero fun h => hzero (BitVec.eq_of_toNat_eq (hlast.trans h))
    refine ⟨_, rfl, hwrite, ⟨⟨t, hpos⟩, ?_, hcounts'⟩, fun _ => ⟨t, Or.inr hpos⟩⟩
    intro u
    refine (hset u).trans (decide_eq_decide.mpr ?_)
    by_cases hu : u = t
    · subst hu
      simp [hpos]
    · simp [hu]

variable {numThreads : ℕ}

theorem getLsbD_any (hn : numThreads ≤ maxThreads) (t : ThreadId) :
    (ThreadSet.any numThreads).getLsbD t = true ↔ t < numThreads := by
  rw [ThreadSet.any, getLsbD_below (w := 64) hn, decide_eq_true_eq]

theorem getLsbD_only (hn : numThreads ≤ maxThreads) {u : ThreadId} (hu : u < numThreads)
    (t : ThreadId) : (ThreadSet.only u).getLsbD t = true ↔ t = u := by
  rw [ThreadSet.only, BitSet.getLsbD_only, decide_eq_true_eq]
  constructor
  · rintro ⟨-, rfl⟩
    rfl
  · rintro rfl
    exact ⟨Nat.lt_of_lt_of_le hu hn, rfl⟩

theorem onlyBy_of_zero (h : ∀ u, n u = 0) (t : ThreadId) : OnlyBy t n := by
  intro u hu
  rw [h u] at hu
  exact absurd hu (Nat.lt_irrefl 0)

/-- The threads on which an account can be locked once more: those that hold every
conflicting lock. -/
theorem Rep.schedulable (h : Rep wr rd entry) (hn : numThreads ≤ maxThreads)
    (hmix : ∀ t, 0 < wr t → OnlyBy t rd) (hwn : ∀ t, 0 < wr t → t < numThreads)
    (hrn : ∀ t, 0 < rd t → t < numThreads) (write : Bool) :
    ∃ set, schedulableThreads numThreads write entry = some set ∧
      ∀ t, set.getLsbD t = true ↔ t < numThreads ∧ OnlyBy t wr ∧ (write = true → OnlyBy t rd) := by
  obtain ⟨hwrite, hread, hpresent⟩ := h
  rcases entry with _ | ⟨_ | w, _ | r⟩
  · -- No entry: no locks.
    refine ⟨_, rfl, fun t => ?_⟩
    rw [getLsbD_any hn]
    exact ⟨fun ht => ⟨ht, onlyBy_of_zero hwrite t, fun _ => onlyBy_of_zero hread t⟩, fun ht => ht.1⟩
  · rcases hpresent rfl with ⟨u, hu | hu⟩
    · exact absurd (hwrite u) (Nat.ne_of_gt hu)
    · exact absurd (hread u) (Nat.ne_of_gt hu)
  · -- Read locks only.
    obtain ⟨v, hv⟩ := hread.1
    cases write with
    | false =>
      refine ⟨_, rfl, fun t => ?_⟩
      rw [getLsbD_any hn]
      exact ⟨fun ht => ⟨ht, onlyBy_of_zero hwrite t, nofun⟩, fun ht => ht.1⟩
    | true =>
      refine ⟨_, rfl, fun t => ?_⟩
      cases hone : ThreadSet.onlyOneContained r.threadSet with
      | none =>
        refine ⟨fun ht => by simp [ThreadSet.none] at ht, fun ht => ?_⟩
        rw [(onlyOneContained_iff hread).mpr (ht.2.2 rfl)] at hone
        cases hone
      | some u =>
        have honly : OnlyBy u rd := (onlyOneContained_iff hread).mp hone
        have huv : v = u := honly v hv
        subst huv
        change (ThreadSet.only v).getLsbD t = true ↔ _
        rw [getLsbD_only hn (hrn v hv)]
        constructor
        · rintro rfl
          exact ⟨hrn t hv, onlyBy_of_zero hwrite t, fun _ => honly⟩
        · intro ht
          exact (ht.2.2 rfl v hv).symm
  · -- Write locks only.
    obtain ⟨-, hpos, honly⟩ := hwrite
    refine ⟨_, rfl, fun t => ?_⟩
    rw [getLsbD_only hn (hwn _ hpos)]
    constructor
    · rintro rfl
      exact ⟨hwn _ hpos, honly, fun _ => onlyBy_of_zero hread _⟩
    · intro ht
      exact (ht.2.1 _ hpos).symm
  · -- Both, on one thread.
    obtain ⟨-, hpos, honly⟩ := hwrite
    have hone := (onlyOneContained_iff hread).mpr (hmix _ hpos)
    refine ⟨_, if_pos hone, fun t => ?_⟩
    rw [ThreadSet.onlyOneContained, onlyOne_eq_some_iff] at hone
    rw [hone]
    constructor
    · rintro rfl
      exact ⟨hwn _ hpos, honly, fun _ => hmix _ hpos⟩
    · intro ht
      exact (ht.2.1 _ hpos).symm

/-! ## Loops over accounts -/

/-- A loop over distinct accounts changes each of them once and no other. -/
theorem forEach_spec {f : Option AccountLocks → Option (Option AccountLocks)}
    {P : Key → Option AccountLocks → Prop} {accounts : List Key} (locks : Locks Key)
    (hnodup : accounts.Nodup) (hf : ∀ k ∈ accounts, ∃ entry, f (locks k) = some entry ∧ P k entry) :
    ∃ locks', forEach f accounts locks = some locks' ∧ (∀ k ∈ accounts, P k (locks' k)) ∧
      ∀ k, k ∉ accounts → locks' k = locks k := by
  induction accounts generalizing locks with
  | nil => exact ⟨locks, rfl, nofun, fun _ _ => rfl⟩
  | cons account rest ih =>
    obtain ⟨hnot, hrest⟩ := List.nodup_cons.mp hnodup
    obtain ⟨entry, hentry, hP⟩ := hf account List.mem_cons_self
    have hother : ∀ k ∈ rest, update locks account entry k = locks k := by
      intro k hk
      exact update_of_ne (fun (h : k = account) => hnot (h ▸ hk)) _ _
    rcases ih (update locks account entry) hrest (by
      intro k hk
      rw [hother k hk]
      exact hf k (List.mem_cons_of_mem _ hk)) with ⟨locks', hrun, hin, hout⟩
    refine ⟨locks', ?_, ?_, ?_⟩
    · rw [forEach, hentry]
      exact hrun
    · intro k hk
      rcases List.mem_cons.mp hk with rfl | hk
      · rw [hout k hnot, update_self]
        exact hP
      · exact hin k hk
    · intro k hk
      rw [List.mem_cons, not_or] at hk
      rw [hout k hk.2, update_of_ne hk.1]

/-- A result of `accounts_schedulable_threads` for the threads with `P`: `none` stands
for no thread at all. -/
def Selects (P : ThreadId → Prop) : Option ThreadSet → Prop
  | none => ∀ t, ¬ P t
  | some set => (∃ t, P t) ∧ ∀ t, set.getLsbD t = true ↔ P t

theorem Selects.congr {P Q : ThreadId → Prop} {result : Option ThreadSet} (h : Selects P result)
    (hPQ : ∀ t, P t ↔ Q t) : Selects Q result := by
  have heq : P = Q := funext fun t => propext (hPQ t)
  exact heq ▸ h

omit [DecidableEq Key] in
/-- The loop intersects, and stops early only at the empty set. -/
theorem restrictTo_spec {schedulable : Key → Option ThreadSet} {C : Key → ThreadId → Prop}
    (accounts : List Key) {P : ThreadId → Prop} {set : ThreadSet} (hset : Selects P (some set))
    (hs : ∀ k ∈ accounts, ∃ threads, schedulable k = some threads ∧
      ∀ t, threads.getLsbD t = true ↔ C k t) :
    ∃ result, restrictTo schedulable accounts set = some result ∧
      Selects (fun t => P t ∧ ∀ k ∈ accounts, C k t) result := by
  induction accounts generalizing P set with
  | nil => exact ⟨some set, rfl, hset.congr fun t => by simp⟩
  | cons account rest ih =>
    obtain ⟨threads, hthreads, hC⟩ := hs account List.mem_cons_self
    have hand : ∀ t, (set &&& threads).getLsbD t = true ↔ P t ∧ C account t := by
      intro t
      rw [BitVec.getLsbD_and, Bool.and_eq_true, hset.2, hC]
    have hcons : ∀ t, ((P t ∧ C account t) ∧ ∀ k ∈ rest, C k t) ↔
        P t ∧ ∀ k ∈ account :: rest, C k t := by
      intro t
      rw [List.forall_mem_cons, and_assoc]
    rw [restrictTo, hthreads, bind_some]
    by_cases hempty : set &&& threads = ThreadSet.none
    · simp only [ThreadSet.isEmpty, decide_eq_true hempty, if_true]
      refine ⟨none, rfl, fun t ht => ?_⟩
      have hno := eq_none_iff.mp hempty t
      rw [(hand t).mpr ((hcons t).mpr ht).1] at hno
      cases hno
    · have hne : ∃ t, P t ∧ C account t := by
        rw [eq_none_iff, not_forall] at hempty
        obtain ⟨t, ht⟩ := hempty
        exact ⟨t, (hand t).mp (by simpa using ht)⟩
      rcases ih ⟨hne, hand⟩ fun k hk => hs k (List.mem_cons_of_mem _ hk) with
        ⟨result, hrun, hsel⟩
      simp only [ThreadSet.isEmpty, decide_eq_false hempty]
      exact ⟨result, hrun, hsel.congr hcons⟩

/-! ## Calls and outstanding locks -/

/-- A transaction that holds its locks on a thread. -/
structure Locked (Key : Type) where
  writes : List Key
  reads : List Key
  threadId : ThreadId

def access (writes reads : List Key) : Access Key :=
  writes.map (fun k => (k, true)) ++ reads.map (fun k => (k, false))

def Locked.access (tx : Locked Key) : Access Key := ThreadLocks.access tx.writes tx.reads

structure Call (Key : Type) where
  writes : List Key
  reads : List Key
  allowedThreads : ThreadSet
  threadSelector : ThreadSet → ThreadId
  /-- No key occurs twice. -/
  nodup : (writes ++ reads).Nodup
  /-- The selector returns a member of the set it is given. -/
  selects : ∀ set, ThreadSet.isEmpty set = false →
    ThreadSet.contains set (threadSelector set) = true

structure LocksSt (Key : Type) where
  locks : Locks Key
  outstanding : List (Locked Key)

inductive LocksAct (Key : Type) where
  | tryLock (call : Call Key) (result : Except TryLockError ThreadId)
  | unlock (tx : Locked Key)

/-- `try_lock_accounts` with its arguments. -/
def Call.run (numThreads : ℕ) (locks : Locks Key) (call : Call Key) :
    Option (Except TryLockError ThreadId × Locks Key) :=
  tryLockAccounts numThreads locks call.writes call.reads call.allowedThreads call.threadSelector

/-- What a result of `try_lock_accounts` adds to the outstanding locks. -/
def Call.granted (call : Call Key) : Except TryLockError ThreadId → List (Locked Key)
  | .ok threadId => [⟨call.writes, call.reads, threadId⟩]
  | .error _ => []

inductive LocksStep (numThreads : ℕ) : LocksSt Key → LocksAct Key → LocksSt Key → Prop where
  | tryLock {s : LocksSt Key} {call : Call Key} {result : Except TryLockError ThreadId}
      {locks : Locks Key} :
      call.run numThreads s.locks = some (result, locks) →
      LocksStep numThreads s (.tryLock call result) ⟨locks, s.outstanding ++ call.granted result⟩
  | unlock {locks locks' : Locks Key} {tx : Locked Key} {before after : List (Locked Key)} :
      unlockAccounts locks tx.writes tx.reads tx.threadId = some locks' →
      LocksStep numThreads ⟨locks, before ++ tx :: after⟩ (.unlock tx) ⟨locks', before ++ after⟩

/-- One `ThreadAwareAccountLocks` under any calls, unlocks matching earlier locks. -/
def sys (Key : Type) [DecidableEq Key] (numThreads : ℕ) : Lts (LocksSt Key) (LocksAct Key) where
  Init s := s = ⟨fun _ => none, []⟩
  Step := LocksStep numThreads

/-- How many outstanding locks of one kind `t` holds on `k`. -/
def lockCount (kind : Locked Key → List Key) (outstanding : List (Locked Key)) (k : Key)
    (t : ThreadId) : ℕ :=
  outstanding.countP fun tx => tx.threadId = t ∧ k ∈ kind tx

abbrev writeCount (outstanding : List (Locked Key)) (k : Key) : ThreadId → ℕ :=
  lockCount Locked.writes outstanding k

abbrev readCount (outstanding : List (Locked Key)) (k : Key) : ThreadId → ℕ :=
  lockCount Locked.reads outstanding k

/-- No lock count reaches `2 ^ 32`. -/
def Below (s : LocksSt Key) : Prop :=
  ∀ k t, writeCount s.outstanding k t < 2 ^ 32 ∧ readCount s.outstanding k t < 2 ^ 32

/-- A thread that holds every outstanding lock in conflict with the accounts. -/
def Compatible (outstanding : List (Locked Key)) (writes reads : List Key) (t : ThreadId) : Prop :=
  ∀ tx ∈ outstanding, Conflict tx.access (access writes reads) → tx.threadId = t

variable {writes reads : List Key} {k : Key}

omit [DecidableEq Key] in
@[simp] theorem writes_access : Writes (access writes reads) k ↔ k ∈ writes := by
  simp [Writes, access]

omit [DecidableEq Key] in
@[simp] theorem touches_access :
    Touches (access writes reads) k ↔ k ∈ writes ∨ k ∈ reads := by
  simp [Touches, access, or_comm]

variable {outstanding : List (Locked Key)} {kind : Locked Key → List Key} {locks : Locks Key}
  {tx : Locked Key}

theorem lockCount_pos :
    0 < lockCount kind outstanding k t ↔ ∃ tx ∈ outstanding, tx.threadId = t ∧ k ∈ kind tx := by
  simp [lockCount]

theorem onlyBy_lockCount :
    OnlyBy t (lockCount kind outstanding k) ↔
      ∀ tx ∈ outstanding, k ∈ kind tx → tx.threadId = t := by
  constructor
  · intro h tx htx hk
    exact h _ (lockCount_pos.mpr ⟨tx, htx, rfl, hk⟩)
  · intro h u hu
    obtain ⟨tx, htx, rfl, hk⟩ := lockCount_pos.mp hu
    exact h tx htx hk

theorem lockCount_insert (kind : Locked Key → List Key) (before after : List (Locked Key))
    (tx : Locked Key) (k : Key) :
    lockCount kind (before ++ tx :: after) k =
      if k ∈ kind tx then bump tx.threadId (lockCount kind (before ++ after) k)
      else lockCount kind (before ++ after) k := by
  funext u
  split_ifs with hk
  · simp only [lockCount, bump, List.countP_append, List.countP_cons, hk, and_true,
      decide_eq_true_eq, @eq_comm _ u]
    omega
  · simp [lockCount, hk]

/-- Compatible, account by account. -/
theorem compatible_iff :
    Compatible outstanding writes reads t ↔
      (∀ k ∈ writes, OnlyBy t (writeCount outstanding k) ∧ OnlyBy t (readCount outstanding k)) ∧
      ∀ k ∈ reads, OnlyBy t (writeCount outstanding k) := by
  simp only [onlyBy_lockCount]
  constructor
  · intro h
    have hconflict : ∀ k, ∀ tx ∈ outstanding, k ∈ tx.writes ∨ k ∈ tx.reads →
        k ∈ writes ∨ k ∈ reads → k ∈ tx.writes ∨ k ∈ writes → tx.threadId = t := by
      intro k tx htx h₁ h₂ h₃
      exact h tx htx ⟨k, touches_access.mpr h₁, touches_access.mpr h₂,
        h₃.imp writes_access.mpr writes_access.mpr⟩
    refine ⟨fun k hk => ⟨fun tx htx hmem => ?_, fun tx htx hmem => ?_⟩, fun k hk tx htx hmem => ?_⟩
    · exact hconflict k tx htx (Or.inl hmem) (Or.inl hk) (Or.inl hmem)
    · exact hconflict k tx htx (Or.inr hmem) (Or.inl hk) (Or.inr hk)
    · exact hconflict k tx htx (Or.inl hmem) (Or.inr hk) (Or.inl hmem)
  · rintro ⟨hw, hr⟩ tx htx ⟨k, ht, hc, htk | hck⟩
    · have hmem := writes_access.mp htk
      rcases touches_access.mp hc with hk | hk
      · exact (hw k hk).1 tx htx hmem
      · exact hr k hk tx htx hmem
    · have hk := hw k (writes_access.mp hck)
      rcases touches_access.mp ht with hmem | hmem
      · exact hk.1 tx htx hmem
      · exact hk.2 tx htx hmem

/-! ## One call -/

/-- Every entry represents the outstanding locks of its account. -/
def RepAll (locks : Locks Key) (outstanding : List (Locked Key)) : Prop :=
  ∀ k, Rep (writeCount outstanding k) (readCount outstanding k) (locks k)

/-- `lock_accounts` on a compatible thread. -/
theorem lockAccounts_spec (tx : Locked Key) (hrep : RepAll locks outstanding)
    (hn : numThreads ≤ maxThreads) (hnodup : (tx.writes ++ tx.reads).Nodup)
    (ht : tx.threadId < numThreads)
    (hcomp : Compatible outstanding tx.writes tx.reads tx.threadId) :
    ∃ locks', lockAccounts numThreads locks tx.writes tx.reads tx.threadId = some locks' ∧
      (Below ⟨locks', outstanding ++ [tx]⟩ → RepAll locks' (outstanding ++ [tx])) := by
  obtain ⟨hw, hr⟩ := compatible_iff.mp hcomp
  obtain ⟨hwn, hrn, hdisj⟩ := List.nodup_append.mp hnodup
  rcases forEach_spec locks hwn (fun k hk => (hrep k).writeLock (hw k hk).1 (hw k hk).2) with
    ⟨locks₁, hrun₁, hin₁, hout₁⟩
  have hread : ∀ k ∈ tx.reads, k ∉ tx.writes := fun k hk hk' => hdisj k hk' k hk rfl
  rcases forEach_spec locks₁ hrn (fun k hk => by
    rw [hout₁ k (hread k hk)]
    exact (hrep k).readLock (hr k hk) (Nat.lt_of_lt_of_le ht hn)) with ⟨locks₂, hrun₂, hin₂, hout₂⟩
  refine ⟨locks₂, ?_, fun hbelow k => ?_⟩
  · rw [lockAccounts, if_pos ht, hrun₁]
    exact hrun₂
  have hbound := hbelow k tx.threadId
  have hkinds : ∀ kind, lockCount kind (outstanding ++ [tx]) k =
      if k ∈ kind tx then bump tx.threadId (lockCount kind outstanding k)
      else lockCount kind outstanding k := by
    intro kind
    simpa using lockCount_insert kind outstanding [] tx k
  simp only [writeCount, readCount, hkinds] at hbound ⊢
  by_cases hkw : k ∈ tx.writes
  · have hkr : k ∉ tx.reads := fun hk => hread k hk hkw
    rw [if_pos hkw, if_neg hkr] at hbound ⊢
    rw [hout₂ k hkr]
    exact hin₁ k hkw (by simpa using hbound.1)
  · rw [if_neg hkw] at hbound ⊢
    by_cases hkr : k ∈ tx.reads
    · rw [if_pos hkr] at hbound ⊢
      exact hin₂ k hkr (by simpa using hbound.2)
    · rw [if_neg hkr, hout₂ k hkr, hout₁ k hkw]
      exact hrep k

/-- An unlock takes out one holder. -/
theorem unlockAccounts_spec {before after : List (Locked Key)}
    (hrep : RepAll locks (before ++ tx :: after)) (hnodup : (tx.writes ++ tx.reads).Nodup) :
    ∃ locks', unlockAccounts locks tx.writes tx.reads tx.threadId = some locks' ∧
      RepAll locks' (before ++ after) := by
  obtain ⟨hwn, hrn, hdisj⟩ := List.nodup_append.mp hnodup
  have hread : ∀ k ∈ tx.reads, k ∉ tx.writes := fun k hk hk' => hdisj k hk' k hk rfl
  have hrep' : ∀ k, Rep
      (if k ∈ tx.writes then bump tx.threadId (writeCount (before ++ after) k)
        else writeCount (before ++ after) k)
      (if k ∈ tx.reads then bump tx.threadId (readCount (before ++ after) k)
        else readCount (before ++ after) k) (locks k) := by
    intro k
    rw [← lockCount_insert, ← lockCount_insert]
    exact hrep k
  rcases forEach_spec locks hwn (fun k hk => by
    have hk' := hrep' k
    rw [if_pos hk, if_neg fun hkr => hread k hkr hk] at hk'
    exact hk'.writeUnlock) with ⟨locks₁, hrun₁, hin₁, hout₁⟩
  rcases forEach_spec locks₁ hrn (fun k hk => by
    have hk' := hrep' k
    rw [if_pos hk, if_neg (hread k hk)] at hk'
    rw [hout₁ k (hread k hk)]
    exact hk'.readUnlock) with ⟨locks₂, hrun₂, hin₂, hout₂⟩
  refine ⟨locks₂, ?_, fun k => ?_⟩
  · rw [unlockAccounts, hrun₁]
    exact hrun₂
  by_cases hkr : k ∈ tx.reads
  · exact hin₂ k hkr
  rw [hout₂ k hkr]
  by_cases hkw : k ∈ tx.writes
  · exact hin₁ k hkw
  have hk' := hrep' k
  rw [if_neg hkr, if_neg hkw] at hk'
  rwa [hout₁ k hkw]

/-- The entries represent the outstanding locks, and threads do not conflict. -/
structure Inv (numThreads : ℕ) (s : LocksSt Key) : Prop where
  rep : RepAll s.locks s.outstanding
  nodup : ∀ tx ∈ s.outstanding, (tx.writes ++ tx.reads).Nodup
  thread : ∀ tx ∈ s.outstanding, tx.threadId < numThreads
  apart : ∀ a ∈ s.outstanding, ∀ b ∈ s.outstanding, Conflict a.access b.access →
    a.threadId = b.threadId

variable {s : LocksSt Key}

/-- The threads without a conflict. -/
theorem accountsSchedulableThreads_spec (hinv : Inv numThreads s) (hpos : 0 < numThreads)
    (hn : numThreads ≤ maxThreads) (writes reads : List Key) :
    ∃ result, accountsSchedulableThreads numThreads s.locks writes reads = some result ∧
      Selects (fun t => t < numThreads ∧ Compatible s.outstanding writes reads t) result := by
  have hsched : ∀ (write : Bool) (k : Key), ∃ threads,
      schedulableThreads numThreads write (s.locks k) = some threads ∧
      ∀ t, threads.getLsbD t = true ↔ t < numThreads ∧ OnlyBy t (writeCount s.outstanding k) ∧
        (write = true → OnlyBy t (readCount s.outstanding k)) := by
    intro write k
    have hthread : ∀ kind t, 0 < lockCount kind s.outstanding k t → t < numThreads := by
      intro kind t ht
      obtain ⟨a, ha, rfl, -⟩ := lockCount_pos.mp ht
      exact hinv.thread a ha
    refine (hinv.rep k).schedulable hn ?_ (hthread _) (hthread _) write
    intro t ht
    obtain ⟨a, ha, rfl, hka⟩ := lockCount_pos.mp ht
    refine onlyBy_lockCount.mpr fun b hb hkb => ?_
    exact hinv.apart b hb a ha ⟨k, touches_access.mpr (Or.inr hkb),
      touches_access.mpr (Or.inl hka), Or.inr (writes_access.mpr hka)⟩
  have hany : Selects (fun t => t < numThreads) (some (ThreadSet.any numThreads)) :=
    ⟨⟨0, hpos⟩, getLsbD_any hn⟩
  rcases restrictTo_spec writes hany (fun k _ => hsched true k) with
    ⟨first, hrun₁, hsel₁⟩
  rw [accountsSchedulableThreads, hrun₁, bind_some]
  cases first with
  | none =>
    refine ⟨none, rfl, fun t ht => hsel₁ t ⟨ht.1, fun k hk => ⟨ht.1, ?_⟩⟩⟩
    have hk' := (compatible_iff.mp ht.2).1 k hk
    exact ⟨hk'.1, fun _ => hk'.2⟩
  | some set =>
    rcases restrictTo_spec reads hsel₁ (fun k _ => hsched false k) with
      ⟨result, hrun₂, hsel₂⟩
    refine ⟨result, hrun₂, hsel₂.congr fun t => ?_⟩
    rw [compatible_iff]
    constructor
    · rintro ⟨⟨ht, hw⟩, hr⟩
      exact ⟨ht, fun k hk => ⟨(hw k hk).2.1, (hw k hk).2.2 rfl⟩, fun k hk => (hr k hk).2.1⟩
    · rintro ⟨ht, hw, hr⟩
      exact ⟨⟨ht, fun k hk => ⟨ht, (hw k hk).1, fun _ => (hw k hk).2⟩⟩,
        fun k hk => ⟨ht, hr k hk, nofun⟩⟩

/-- What the answer of `try_lock_accounts` says. -/
structure Answers (numThreads : ℕ) (outstanding : List (Locked Key)) (call : Call Key)
    (result : Except TryLockError ThreadId) : Prop where
  ok_iff : (∃ t, result = .ok t) ↔ ∃ t, t < numThreads ∧
    ThreadSet.contains call.allowedThreads t = true ∧
      Compatible outstanding call.writes call.reads t
  multiple_iff : result = .error .multipleConflicts ↔
    ∀ t, t < numThreads → ¬ Compatible outstanding call.writes call.reads t
  chosen : ∀ t, result = .ok t → t < numThreads ∧
    ThreadSet.contains call.allowedThreads t = true ∧
      Compatible outstanding call.writes call.reads t

open Call

/-- `try_lock_accounts` returns, and its answer is right. -/
theorem tryLock_spec (hinv : Inv numThreads s) (hpos : 0 < numThreads)
    (hn : numThreads ≤ maxThreads) (call : Call Key) :
    ∃ result locks', call.run numThreads s.locks = some (result, locks') ∧
      Answers numThreads s.outstanding call result ∧
      (Below ⟨locks', s.outstanding ++ call.granted result⟩ →
        RepAll locks' (s.outstanding ++ call.granted result)) := by
  rcases accountsSchedulableThreads_spec hinv hpos hn call.writes call.reads with
    ⟨schedulable, hrun, hsel⟩
  rw [run, tryLockAccounts, hrun, bind_some]
  cases schedulable with
  | none =>
    refine ⟨_, _, rfl, ⟨⟨nofun, ?_⟩, ⟨fun _ t ht hc => hsel t ⟨ht, hc⟩, fun _ => rfl⟩, nofun⟩, ?_⟩
    · rintro ⟨t, ht, -, hc⟩
      exact absurd ⟨ht, hc⟩ (hsel t)
    · intro _
      simpa [granted] using hinv.rep
  | some set =>
    have hand : ∀ t, (set &&& call.allowedThreads).getLsbD t = true ↔
        (t < numThreads ∧ Compatible s.outstanding call.writes call.reads t) ∧
          ThreadSet.contains call.allowedThreads t = true := by
      intro t
      rw [BitVec.getLsbD_and, Bool.and_eq_true, hsel.2, contains_eq]
    obtain ⟨u, hu⟩ := hsel.1
    by_cases hempty : set &&& call.allowedThreads = ThreadSet.none
    · simp only [ThreadSet.isEmpty, decide_eq_true hempty, if_true]
      refine ⟨_, _, rfl, ⟨⟨nofun, ?_⟩, ⟨nofun, fun h => absurd hu.2 (h u hu.1)⟩, nofun⟩, ?_⟩
      · rintro ⟨t, ht, hallowed, hc⟩
        have hno := eq_none_iff.mp hempty t
        rw [(hand t).mpr ⟨⟨ht, hc⟩, hallowed⟩] at hno
        cases hno
      · intro _
        simpa [granted] using hinv.rep
    · simp only [ThreadSet.isEmpty, decide_eq_false hempty]
      have hmem := call.selects (set &&& call.allowedThreads) (decide_eq_false hempty)
      rw [contains_eq, hand] at hmem
      generalize call.threadSelector (set &&& call.allowedThreads) = t at hmem
      obtain ⟨⟨ht, hc⟩, hallowed⟩ := hmem
      rcases lockAccounts_spec ⟨call.writes, call.reads, t⟩ hinv.rep hn call.nodup ht hc
        with ⟨locks', hlock, hrep⟩
      refine ⟨.ok t, locks', ?_, ⟨⟨fun _ => ⟨t, ht, hallowed, hc⟩, fun _ => ⟨t, rfl⟩⟩,
        ⟨nofun, fun h => absurd hu.2 (h u hu.1)⟩, ?_⟩, hrep⟩
      · rw [hlock]
        rfl
      · rintro t' heq
        cases heq
        exact ⟨ht, hallowed, hc⟩

/-! ## Runs -/

omit [DecidableEq Key] in
theorem mem_granted {call : Call Key} {result : Except TryLockError ThreadId} :
    tx ∈ call.granted result ↔ ∃ t, result = .ok t ∧ tx = ⟨call.writes, call.reads, t⟩ := by
  cases result <;> simp [granted]

theorem inv_step (hpos : 0 < numThreads) (hn : numThreads ≤ maxThreads) {s s' : LocksSt Key}
    {a : LocksAct Key} (hstep : ((sys Key numThreads).confine Below).Step s a s')
    (hinv : Inv numThreads s) : Inv numThreads s' := by
  obtain ⟨hstep, hbelow⟩ := hstep
  cases hstep with
  | @tryLock _ call result locks hrun =>
    obtain ⟨result', locks', hrun', hans, hrep⟩ := tryLock_spec hinv hpos hn call
    rw [hrun] at hrun'
    cases hrun'
    refine ⟨hrep hbelow, ?_, ?_, ?_⟩
    · refine List.forall_mem_append.mpr ⟨hinv.nodup, fun tx htx => ?_⟩
      obtain ⟨t, -, rfl⟩ := mem_granted.mp htx
      exact call.nodup
    · refine List.forall_mem_append.mpr ⟨hinv.thread, fun tx htx => ?_⟩
      obtain ⟨t, hok, rfl⟩ := mem_granted.mp htx
      exact (hans.chosen t hok).1
    · -- The new locks are on a thread that holds everything they conflict with.
      intro a ha b hb hconflict
      rcases List.mem_append.mp ha with ha | ha <;> rcases List.mem_append.mp hb with hb | hb
      · exact hinv.apart a ha b hb hconflict
      · obtain ⟨t, hok, rfl⟩ := mem_granted.mp hb
        exact (hans.chosen t hok).2.2 a ha hconflict
      · obtain ⟨t, hok, rfl⟩ := mem_granted.mp ha
        exact ((hans.chosen t hok).2.2 b hb hconflict.symm).symm
      · obtain ⟨t, hok, rfl⟩ := mem_granted.mp ha
        obtain ⟨t', hok', rfl⟩ := mem_granted.mp hb
        rw [hok] at hok'
        cases hok'
        rfl
  | @unlock locks locks' tx before after hrun =>
    have hmem : ∀ x ∈ before ++ after, x ∈ before ++ tx :: after := by
      intro x hx
      simp only [List.mem_append, List.mem_cons] at hx ⊢
      exact hx.imp_right Or.inr
    have htx : tx ∈ before ++ tx :: after := by simp
    obtain ⟨locks'', hrun', hrep⟩ := unlockAccounts_spec hinv.rep (hinv.nodup tx htx)
    rw [hrun] at hrun'
    cases hrun'
    exact ⟨hrep, fun x hx => hinv.nodup x (hmem x hx), fun x hx => hinv.thread x (hmem x hx),
      fun x hx y hy => hinv.apart x (hmem x hx) y (hmem y hy)⟩

theorem inv_of_reachable (hpos : 0 < numThreads) (hn : numThreads ≤ maxThreads)
    (h : ((sys Key numThreads).confine Below).Reachable s) : Inv numThreads s := by
  refine h.inv (Inv numThreads) ?_ fun _ _ _ hstep => inv_step hpos hn hstep
  rintro _ rfl
  exact ⟨fun k => ⟨fun _ => rfl, fun _ => rfl, nofun⟩, nofun, nofun, nofun⟩

/-! ## What the entries say -/

def writeLockCount (entry : Option AccountLocks) (t : ThreadId) : ℕ :=
  match (entry.getD .default).writeLocks with
  | none => 0
  | some l => if l.threadId = t then l.lockCount.toNat else 0

def readThreads (entry : Option AccountLocks) : ThreadSet :=
  match (entry.getD .default).readLocks with
  | none => ThreadSet.none
  | some l => l.threadSet

def readLockCount (entry : Option AccountLocks) (t : ThreadId) : ℕ :=
  match (entry.getD .default).readLocks with
  | none => 0
  | some l => (l.lockCounts t).toNat

/-- The entries are exactly the outstanding locks. -/
structure Exact (s : LocksSt Key) : Prop where
  present_iff : ∀ k, (s.locks k).isSome = true ↔ ∃ tx ∈ s.outstanding, Touches tx.access k
  write_eq : ∀ k t, writeLockCount (s.locks k) t = writeCount s.outstanding k t
  read_eq : ∀ k t, readLockCount (s.locks k) t = readCount s.outstanding k t
  mem_readThreads_iff : ∀ k t,
    ThreadSet.contains (readThreads (s.locks k)) t = true ↔ 0 < readCount s.outstanding k t

theorem Rep.writeLockCount_eq (h : Rep wr rd entry)
    (t : ThreadId) : writeLockCount entry t = wr t := by
  have hwrite := h.write
  unfold writeLockCount
  generalize (entry.getD .default).writeLocks = w at hwrite ⊢
  cases w with
  | none => exact (hwrite t).symm
  | some l =>
    obtain ⟨hcount, -, honly⟩ := hwrite
    simp only
    split_ifs with ht
    · rw [hcount, ht]
    · by_contra hne
      exact ht (honly t (Nat.pos_of_ne_zero (Ne.symm hne))).symm

theorem Rep.readLockCount_eq (h : Rep wr rd entry)
    (t : ThreadId) : readLockCount entry t = rd t := by
  have hread := h.read
  unfold readLockCount
  generalize (entry.getD .default).readLocks = r at hread ⊢
  cases r with
  | none => exact (hread t).symm
  | some l => exact hread.2.2 t

theorem Rep.contains_readThreads (h : Rep wr rd entry) (t : ThreadId) :
    ThreadSet.contains (readThreads entry) t = true ↔ 0 < rd t := by
  have hread := h.read
  rw [contains_eq]
  unfold readThreads
  generalize (entry.getD .default).readLocks = r at hread ⊢
  cases r with
  | none => simp [ThreadSet.none, hread t]
  | some l => exact (Bool.eq_iff_iff.mp (hread.2.1 t)).trans decide_eq_true_iff

/-- Without an entry there are no locks. -/
theorem Rep.isSome_iff (h : Rep wr rd entry) : entry.isSome = true ↔ ∃ t, 0 < wr t ∨ 0 < rd t := by
  refine ⟨h.present, ?_⟩
  rintro ⟨t, ht⟩
  cases entry with
  | some locks => rfl
  | none =>
    rcases ht with ht | ht
    · exact absurd (h.write t) (Nat.ne_of_gt ht)
    · exact absurd (h.read t) (Nat.ne_of_gt ht)

theorem Inv.exact (hinv : Inv numThreads s) : Exact s := by
  refine ⟨fun k => (hinv.rep k).isSome_iff.trans ?_, fun k => (hinv.rep k).writeLockCount_eq,
    fun k => (hinv.rep k).readLockCount_eq, fun k => (hinv.rep k).contains_readThreads⟩
  constructor
  · rintro ⟨t, ht | ht⟩ <;> obtain ⟨tx, htx, -, hk⟩ := lockCount_pos.mp ht
    · exact ⟨tx, htx, touches_access.mpr (Or.inl hk)⟩
    · exact ⟨tx, htx, touches_access.mpr (Or.inr hk)⟩
  · rintro ⟨tx, htx, hk⟩
    refine ⟨tx.threadId, (touches_access.mp hk).imp ?_ ?_⟩ <;> intro hk
    · exact lockCount_pos.mpr ⟨tx, htx, rfl, hk⟩
    · exact lockCount_pos.mpr ⟨tx, htx, rfl, hk⟩

/-- After any calls with fewer than `2 ^ 32` outstanding locks of each account and
thread: no call panics and `try_lock_accounts` answers as it should, a write-locked
account is locked by one thread, threads do not conflict, and the entries are the
outstanding locks. -/
theorem thread_locks_exact {numThreads : ℕ} (hpos : 0 < numThreads) (hn : numThreads ≤ maxThreads)
    {s : LocksSt Key} (h : ((sys Key numThreads).confine Below).Reachable s) :
    (∀ call : Call Key, ∃ result locks', call.run numThreads s.locks = some (result, locks') ∧
      Answers numThreads s.outstanding call result) ∧
    (∀ tx ∈ s.outstanding, (unlockAccounts s.locks tx.writes tx.reads tx.threadId).isSome = true) ∧
    (∀ k, (∃ tx ∈ s.outstanding, Writes tx.access k) →
      ∃! t, ∃ tx ∈ s.outstanding, tx.threadId = t ∧ Touches tx.access k) ∧
    (∀ a ∈ s.outstanding, ∀ b ∈ s.outstanding, a.threadId ≠ b.threadId →
      ¬ Conflict a.access b.access) ∧
    Exact s := by
  have hinv := inv_of_reachable hpos hn h
  refine ⟨?_, ?_, ?_, ?_, hinv.exact⟩
  · intro call
    obtain ⟨result, locks', hrun, hans, -⟩ := tryLock_spec hinv hpos hn call
    exact ⟨result, locks', hrun, hans⟩
  · intro tx htx
    obtain ⟨before, after, heq⟩ := List.append_of_mem htx
    have hrep := hinv.rep
    rw [heq] at hrep
    obtain ⟨locks', hrun, -⟩ := unlockAccounts_spec hrep (hinv.nodup tx htx)
    rw [hrun]
    rfl
  · rintro k ⟨tx, htx, hk⟩
    refine ⟨tx.threadId, ⟨tx, htx, rfl, hk.touches⟩, ?_⟩
    rintro t ⟨tx', htx', rfl, hk'⟩
    exact hinv.apart tx' htx' tx htx ⟨k, hk', hk.touches, Or.inr hk⟩
  · intro a ha b hb hne hconflict
    exact hne (hinv.apart a ha b hb hconflict)

/-- A call that locks one account for writing, on the first schedulable thread. -/
def Call.write (k : Key) : Call Key where
  writes := [k]
  reads := []
  allowedThreads := ThreadSet.any maxThreads
  threadSelector := BitSet.trailingZeros
  nodup := List.nodup_singleton k
  selects := by
    intro set h
    rw [contains_eq]
    exact BitSet.getLsbD_trailingZeros (of_decide_eq_false h)

/-- The map after `n` write locks of `k` on thread 0. -/
def writeLocked (k : Key) (n : ℕ) : Locks Key :=
  Function.update (fun _ => none) k (some ⟨some ⟨0, BitVec.ofNat 32 n⟩, none⟩)

theorem run_write_first (k : Key) (hpos : 0 < numThreads)
    (hne : ThreadSet.isEmpty (ThreadSet.any numThreads &&& ThreadSet.any numThreads) = false)
    (hne' : ThreadSet.isEmpty (ThreadSet.any numThreads &&& ThreadSet.any numThreads &&&
      ThreadSet.any maxThreads) = false)
    (hsel : trailingZeros (ThreadSet.any numThreads &&& ThreadSet.any numThreads &&&
      ThreadSet.any maxThreads) = 0) :
    (write k).run numThreads (fun _ => none) = some (.ok 0, writeLocked k 1) := by
  simp only [run, write, tryLockAccounts, accountsSchedulableThreads, restrictTo,
    schedulableThreads, bind_some, hne, hne', hsel, Bool.false_eq_true, if_false,
    lockAccounts, if_pos hpos, forEach]
  rfl

theorem run_write (k : Key) (n : ℕ) :
    (write k).run 1 (writeLocked k n) = some (.ok 0, writeLocked k (n + 1)) := by
  have hsched : schedulableThreads 1 true (writeLocked k n k) = some (ThreadSet.only 0) := by
    simp [writeLocked, schedulableThreads]
  have hlock : writeLockEntry 0 (writeLocked k n k) =
      some (some ⟨some ⟨0, BitVec.ofNat 32 (n + 1)⟩, none⟩) := by
    rw [BitVec.ofNat_add]
    simp [writeLocked, writeLockEntry]
  have hset : ThreadSet.any 1 &&& ThreadSet.only 0 = ThreadSet.only 0 := by decide
  have hset' : ThreadSet.only 0 &&& ThreadSet.any maxThreads = ThreadSet.only 0 := by decide
  have hne : ThreadSet.isEmpty (ThreadSet.only 0) = false := by decide
  have hsel : trailingZeros (ThreadSet.only 0) = 0 := by decide
  simp only [run, write, tryLockAccounts, accountsSchedulableThreads, restrictTo, hsched,
    bind_some, hset, hset', hne, Bool.false_eq_true, if_false, hsel, lockAccounts,
    Nat.one_pos, if_true, forEach, hlock, map_some]
  rw [writeLocked, update_idem]
  rfl

theorem reachable_writeLocked (k : Key) (n : ℕ) :
    (sys Key 1).Reachable ⟨writeLocked k (n + 1), List.replicate (n + 1) ⟨[k], [], 0⟩⟩ := by
  induction n with
  | zero =>
    have hstep : (sys Key 1).Step ⟨fun _ => none, []⟩ (.tryLock (write k) (.ok 0))
        ⟨writeLocked k 1, [⟨[k], [], 0⟩]⟩ :=
      LocksStep.tryLock (run_write_first k Nat.one_pos (by decide) (by decide) (by decide))
    exact ⟨_, _, rfl, Lts.Run.single hstep⟩
  | succ n ih =>
    have hstep : (sys Key 1).Step ⟨writeLocked k (n + 1), List.replicate (n + 1) ⟨[k], [], 0⟩⟩
        (.tryLock (write k) (.ok 0))
        ⟨writeLocked k (n + 1 + 1), List.replicate (n + 1) ⟨[k], [], 0⟩ ++ [⟨[k], [], 0⟩]⟩ :=
      LocksStep.tryLock (run_write k (n + 1))
    rw [← List.replicate_succ'] at hstep
    exact ih.step hstep

/-- Beyond `2 ^ 32` locks the count wraps: an unlock removes the entry while locks are
outstanding, and the next one panics. -/
theorem entry_lost : ∃ s : LocksSt ℕ, (sys ℕ 1).Reachable s ∧
    s.outstanding = List.replicate (2 ^ 32) ⟨[7], [], 0⟩ ∧ s.locks 7 = none ∧
    unlockAccounts s.locks [7] [] 0 = none := by
  have hunlock : unlockAccounts (writeLocked 7 (2 ^ 32 + 1)) [7] [] 0 =
      some (update (writeLocked 7 (2 ^ 32 + 1)) 7 none) := by
    have hone : BitVec.ofNat 32 (2 ^ 32 + 1) = 1 := by decide
    rw [writeLocked, hone]
    simp [unlockAccounts, forEach, writeUnlockEntry]
  have hreach := reachable_writeLocked (7 : ℕ) (2 ^ 32)
  have hstep : (sys ℕ 1).Step
      ⟨writeLocked 7 (2 ^ 32 + 1), [] ++ ⟨[7], [], 0⟩ :: List.replicate (2 ^ 32) ⟨[7], [], 0⟩⟩
      (.unlock ⟨[7], [], 0⟩)
      ⟨update (writeLocked 7 (2 ^ 32 + 1)) 7 none,
        [] ++ List.replicate (2 ^ 32) ⟨[7], [], 0⟩⟩ := LocksStep.unlock hunlock
  refine ⟨_, hreach.step hstep, rfl, by simp, ?_⟩
  simp [unlockAccounts, forEach, writeUnlockEntry]

theorem thread_locks_exact_write :
    ∃ s : LocksSt ℕ, ((sys ℕ 2).confine Below).Reachable s ∧ s.outstanding = [⟨[7], [], 0⟩] ∧
      Exact s := by
  have hstep : ((sys ℕ 2).confine Below).Step ⟨fun _ => none, []⟩ (.tryLock (write 7) (.ok 0))
      ⟨writeLocked 7 1, [⟨[7], [], 0⟩]⟩ := by
    refine ⟨LocksStep.tryLock (run_write_first 7 (by decide) (by decide) (by decide) (by decide)),
      ?_⟩
    intro k t
    have hlen : ∀ kind, lockCount kind ([⟨[7], [], 0⟩] : List (Locked ℕ)) k t ≤ 1 :=
      fun kind => List.countP_le_length
    exact ⟨Nat.lt_of_le_of_lt (hlen _) (by decide), Nat.lt_of_le_of_lt (hlen _) (by decide)⟩
  have hreach : ((sys ℕ 2).confine Below).Reachable ⟨writeLocked 7 1, [⟨[7], [], 0⟩]⟩ :=
    ⟨_, _, rfl, Lts.Run.single hstep⟩
  exact ⟨_, hreach, rfl, (thread_locks_exact (by decide) (by decide) hreach).2.2.2.2⟩

end Salsa.ThreadLocks
