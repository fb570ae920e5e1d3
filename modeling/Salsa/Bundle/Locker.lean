import Salsa.Accounts.Locks

/-!
# Salsa.Bundle.Locker — bundles keep BankingStage away from their accounts

`bundle_account_locker.rs` and the part of BankingStage's `consumer.rs` that looks
at it. The locks of all bundles are two maps of counts behind a mutex. A consumer
holds the mutex while it checks its transactions against the maps and takes the
account locks of the bank.

Every session of `lock_bundle` and `unlock_bundle` has a program counter of its
own, and so has every consumer; nobody else is delayed by them outside the mutex.
Other users of the bank's locks, and the ends of batches, come in between at any
time. `outstanding` records the bundles that are in the maps.
-/

namespace Salsa.Bundle.Locker

open LockTable LockCounts Accounts List Function Bool

variable {Key P C : Type} [DecidableEq Key] [DecidableEq P] [DecidableEq C]

/-! ## `BundleAccountLocker` -/

/-- `BundleAccountLocks`: `read_locks` and `write_locks`. -/
abbrev BundleAccountLocks (Key : Type) := LockCounts Key

def lockAccounts (self : BundleAccountLocks Key) (transactionLocks : List (Access Key)) :
    BundleAccountLocks Key :=
  transactionLocks.foldl LockCounts.lock self

/-- `BundleAccountLocks::unlock_accounts`: saturating, and silent about a key that
is not there. -/
def unlockAccounts (self : BundleAccountLocks Key) (transactionLocks : List (Access Key)) :
    BundleAccountLocks Key :=
  transactionLocks.foldl LockCounts.unlock self

inductive BundleAccountLockerError where
  | lockingError
deriving DecidableEq, Repr

def getTransactionLocks (transactions : List (Access Key)) (txAccountLockLimit : ℕ) :
    Except BundleAccountLockerError (List (Access Key)) :=
  let transactionLocks := transactions.filter fun tx =>
    (validateAccountLocks (tx.map Prod.fst) txAccountLockLimit).isOk
  if transactionLocks.length ≠ transactions.length then .error .lockingError
  else .ok transactionLocks

/-! ## The consumer -/

/-- The consumer's test of one account. -/
def isConflict (locks : BundleAccountLocks Key) (e : Key × Bool) : Bool :=
  (e.2 && ((locks.writeLocks e.1).isSome || (locks.readLocks e.1).isSome)) ||
    (!e.2 && (locks.writeLocks e.1).isSome)

/-- What the consumer passes on for a transaction, from its cost result. -/
def checkBundleLocks (locks : BundleAccountLocks Key) (tx : Access Key) (costResult : LockResult) :
    LockResult :=
  match costResult with
  | .ok () => if tx.any (isConflict locks) then .error .accountInUse else .ok ()
  | .error err => .error err

/-! ## The system -/

inductive LockerPc (Key : Type) where
  | idle
  /-- in `lock_bundle`, waiting for the mutex -/
  | toLock (transactionLocks : List (Access Key))
  | locking (transactionLocks : List (Access Key))
  /-- the maps are updated -/
  | lockDone (transactionLocks : List (Access Key))
  /-- `lock_bundle` has returned -/
  | locked (transactionLocks : List (Access Key))
  /-- in `unlock_bundle`, waiting for the mutex -/
  | toUnlock (transactionLocks : List (Access Key))
  | unlocking (transactionLocks : List (Access Key))
  | unlockDone

/-- Where a consumer is. Transactions come with their results so far. -/
inductive ConsumerPc (Key : Type) where
  | idle
  /-- waiting for the mutex -/
  | ready (todo : List (Access Key × LockResult))
  | checking (checked todo : List (Access Key × LockResult))
  /-- the accounts are locked in the bank -/
  | lockDone

def LockerPc.critical : LockerPc Key → Prop
  | locking _ | lockDone _ | unlocking _ | unlockDone => True
  | _ => False

/-- The session's bundle is in the maps. -/
def LockerPc.holds : LockerPc Key → Option (List (Access Key))
  | lockDone ts | locked ts | toUnlock ts | unlocking ts => some ts
  | _ => none

def ConsumerPc.critical : ConsumerPc Key → Prop
  | checking _ _ | lockDone => True
  | _ => False

/-- Program counters, the mutex with its holder, the maps, and the bank. -/
structure St (Key P C : Type) where
  mutex : Option (P ⊕ C)
  locks : BundleAccountLocks Key
  lockers : P → LockerPc Key
  consumers : C → ConsumerPc Key
  bank : Accounts.St Key
  /-- the bundles in the maps -/
  outstanding : List (P × List (Access Key))

inductive Act (Key P C : Type) where
  | lockBundle (p : P) (transactions : List (Access Key)) (limit : ℕ)
  | lockError (p : P) (transactions : List (Access Key)) (limit : ℕ)
  | unlockBundle (p : P) (limit : ℕ)
  | unlockError (p : P) (limit : ℕ)
  | acquire (p : P)
  | update (p : P)
  | finish (p : P)
  | consume (c : C) (todo : List (Access Key × LockResult))
  | guard (c : C)
  | check (c : C)
  | bankLock (c : C) (limit : ℕ) (relax : Bool)
  | unguard (c : C)
  | bank (a : Accounts.Act Key)

def St.setLocker (s : St Key P C) (p : P) (pc : LockerPc Key) : St Key P C :=
  { s with lockers := Function.update s.lockers p pc }

def St.setConsumer (s : St Key P C) (c : C) (pc : ConsumerPc Key) : St Key P C :=
  { s with consumers := Function.update s.consumers c pc }

inductive Step : St Key P C → Act Key P C → St Key P C → Prop where
  | lockBundle {s : St Key P C} {p ts} (transactions : List (Access Key))
      (limit : ℕ) (hpc : s.lockers p = .idle)
      (hlocks : getTransactionLocks transactions limit = .ok ts) :
      Step s (.lockBundle p transactions limit) (s.setLocker p (.toLock ts))
  | lockError {s : St Key P C} {p} (transactions : List (Access Key)) (limit : ℕ)
      (hpc : s.lockers p = .idle)
      (hlocks : getTransactionLocks transactions limit = .error .lockingError) :
      Step s (.lockError p transactions limit) s
  | acquireLock {s : St Key P C} {p ts} (hpc : s.lockers p = .toLock ts)
      (hmutex : s.mutex = none) :
      Step s (.acquire p) { s.setLocker p (.locking ts) with mutex := some (.inl p) }
  | updateLock {s : St Key P C} {p ts} (hpc : s.lockers p = .locking ts) :
      Step s (.update p)
        { s.setLocker p (.lockDone ts) with
          locks := lockAccounts s.locks ts
          outstanding := s.outstanding ++ [(p, ts)] }
  | returnLock {s : St Key P C} {p ts} (hpc : s.lockers p = .lockDone ts) :
      Step s (.finish p) { s.setLocker p (.locked ts) with mutex := none }
  | unlockBundle {s : St Key P C} {p ts ts'} (limit : ℕ)
      (hpc : s.lockers p = .locked ts) (hlocks : getTransactionLocks ts limit = .ok ts') :
      Step s (.unlockBundle p limit) (s.setLocker p (.toUnlock ts'))
  | unlockError {s : St Key P C} {p ts} (limit : ℕ)
      (hpc : s.lockers p = .locked ts)
      (hlocks : getTransactionLocks ts limit = .error .lockingError) :
      Step s (.unlockError p limit) s
  | acquireUnlock {s : St Key P C} {p ts}
      (hpc : s.lockers p = .toUnlock ts) (hmutex : s.mutex = none) :
      Step s (.acquire p) { s.setLocker p (.unlocking ts) with mutex := some (.inl p) }
  | updateUnlock {s : St Key P C} {p ts} (hpc : s.lockers p = .unlocking ts) :
      Step s (.update p)
        { s.setLocker p .unlockDone with
          locks := unlockAccounts s.locks ts
          outstanding := s.outstanding.filter (·.1 ≠ p) }
  | returnUnlock {s : St Key P C} {p} (hpc : s.lockers p = .unlockDone) :
      Step s (.finish p) { s.setLocker p .idle with mutex := none }
  | consume {s : St Key P C} {c} (todo : List (Access Key × LockResult))
      (hpc : s.consumers c = .idle) : Step s (.consume c todo) (s.setConsumer c (.ready todo))
  | guard {s : St Key P C} {c todo} (hpc : s.consumers c = .ready todo) (hmutex : s.mutex = none) :
      Step s (.guard c) { s.setConsumer c (.checking [] todo) with mutex := some (.inr c) }
  | check {s : St Key P C} {c checked todo tx costResult}
      (hpc : s.consumers c = .checking checked ((tx, costResult) :: todo)) :
      Step s (.check c)
        (s.setConsumer c
          (.checking (checked ++ [(tx, checkBundleLocks s.locks tx costResult)]) todo))
  | bankLock {s : St Key P C} {c checked bank'} (limit : ℕ) (relax : Bool)
      (hpc : s.consumers c = .checking checked [])
      (hlock : (Accounts.sys Key).Step s.bank
        (.lock (checked.map Prod.fst) (checked.map Prod.snd) limit relax) bank') :
      Step s (.bankLock c limit relax) { s.setConsumer c .lockDone with bank := bank' }
  | unguard {s : St Key P C} {c} (hpc : s.consumers c = .lockDone) :
      Step s (.unguard c) { s.setConsumer c .idle with mutex := none }
  | bank {s : St Key P C} {bank'} (a : Accounts.Act Key)
      (hstep : (Accounts.sys Key).Step s.bank a bank') : Step s (.bank a) { s with bank := bank' }

def start : St Key P C where
  mutex := none
  locks := LockCounts.empty
  lockers := fun _ => .idle
  consumers := fun _ => .idle
  bank := ⟨LockCounts.empty, []⟩
  outstanding := []

def sys (Key P C : Type) [DecidableEq Key] [DecidableEq P] [DecidableEq C] :
    Lts (St Key P C) (Act Key P C) where
  Init s := s = start
  Step := Step

/-! ## The mutex -/

/-- Who is in a section that needs the mutex. -/
def St.critical (s : St Key P C) : P ⊕ C → Prop
  | .inl p => (s.lockers p).critical
  | .inr c => (s.consumers c).critical

/-- Only its holder is. -/
def MutexInv (s : St Key P C) : Prop := ∀ o, s.critical o → s.mutex = some o

variable {s s' : St Key P C} {a : Act Key P C} {mutex : Option (P ⊕ C)}
  {locks : BundleAccountLocks Key} {bank : Accounts.St Key} {ts : List (Access Key)} {p : P}
  {pc : ConsumerPc Key}

omit [DecidableEq Key] [DecidableEq P] [DecidableEq C] in
/-- One participant moves, and takes the mutex only when it is free. -/
theorem MutexInv.move (hs : MutexInv s) (owner : P ⊕ C)
    (hothers : ∀ o, o ≠ owner → s'.critical o → s.critical o)
    (hown : s'.critical owner → s'.mutex = some owner)
    (hmutex : s'.mutex = s.mutex ∨ s.mutex = none ∨ s.mutex = some owner) : MutexInv s' := by
  intro o ho
  by_cases heq : o = owner
  · subst heq
    exact hown ho
  · have hold := hs o (hothers o heq ho)
    rcases hmutex with h | h | h
    · rw [h, hold]
    · rw [h] at hold
      cases hold
    · rw [h] at hold
      exact absurd (Option.some.inj hold).symm heq

section Move

variable {outstanding : List (P × List (Access Key))}

omit [DecidableEq Key] [DecidableEq C] in
/-- A session moves. -/
theorem MutexInv.locker (hs : MutexInv s) {pc : LockerPc Key}
    (hown : pc.critical → mutex = some (.inl p))
    (hmutex : mutex = s.mutex ∨ s.mutex = none ∨ s.mutex = some (.inl p)) :
    MutexInv ⟨mutex, locks, update s.lockers p pc, s.consumers, bank, outstanding⟩ := by
  refine hs.move (.inl p) (fun o ho hcrit => ?_) (fun hcrit => hown ?_) hmutex
  · cases o with
    | inl q =>
      have hq : q ≠ p := fun h => ho (by rw [h])
      simpa [St.critical, hq] using hcrit
    | inr c => exact hcrit
  · simpa [St.critical] using hcrit

omit [DecidableEq Key] [DecidableEq P] in
/-- A consumer moves. -/
theorem MutexInv.consumer (hs : MutexInv s) {c : C} (hown : pc.critical → mutex = some (.inr c))
    (hmutex : mutex = s.mutex ∨ s.mutex = none ∨ s.mutex = some (.inr c)) :
    MutexInv ⟨mutex, locks, s.lockers, update s.consumers c pc, bank, outstanding⟩ := by
  refine hs.move (.inr c) (fun o ho hcrit => ?_) (fun hcrit => hown ?_) hmutex
  · cases o with
    | inl p => exact hcrit
    | inr d =>
      have hd : d ≠ c := fun h => ho (by rw [h])
      simpa [St.critical, hd] using hcrit
  · simpa [St.critical] using hcrit

end Move

theorem Step.mutexInv (h : Step s a s') (hs : MutexInv s) : MutexInv s' := by
  -- a session that leaves a critical section held the mutex
  have hheld : ∀ {p pc}, s.lockers p = pc → pc.critical → s.mutex = some (.inl p) := by
    rintro p _ rfl hcrit
    exact hs (.inl p) hcrit
  have hguard : ∀ {c pc}, s.consumers c = pc → pc.critical → s.mutex = some (.inr c) := by
    rintro c _ rfl hcrit
    exact hs (.inr c) hcrit
  cases h with
  | lockBundle | unlockBundle => exact hs.locker nofun (.inl rfl)
  | acquireLock _ hmutex | acquireUnlock _ hmutex =>
    exact hs.locker (fun _ => rfl) (.inr (.inl hmutex))
  | updateLock hpc | updateUnlock hpc =>
    exact hs.locker (fun _ => hheld hpc trivial) (.inl rfl)
  | returnLock hpc | returnUnlock hpc =>
    exact hs.locker nofun (.inr (.inr (hheld hpc trivial)))
  | consume todo hpc => exact hs.consumer nofun (.inl rfl)
  | guard hpc hmutex => exact hs.consumer (fun _ => rfl) (.inr (.inl hmutex))
  | check hpc | bankLock _ _ hpc =>
    exact hs.consumer (fun _ => hguard hpc trivial) (.inl rfl)
  | unguard hpc => exact hs.consumer nofun (.inr (.inr (hguard hpc trivial)))
  | _ => exact hs

/-! ## The maps -/

def St.accesses (s : St Key P C) : List (Access Key) := s.outstanding.flatMap (·.2)

/-- The maps count the outstanding bundles, which are those of the sessions. -/
structure MapInv (s : St Key P C) : Prop where
  counts : s.locks = ofHolders s.accesses
  mem : ∀ p ts, (p, ts) ∈ s.outstanding ↔ (s.lockers p).holds = some ts
  nodup : (s.outstanding.map Prod.fst).Nodup

theorem lockAccounts_ofHolders (hs ts : List (Access Key)) :
    lockAccounts (ofHolders hs) ts = ofHolders (hs ++ ts) := by
  induction ts generalizing hs with
  | nil => rw [append_nil]; rfl
  | cons t ts ih =>
    rw [lockAccounts, foldl_cons, lock_ofHolders, ← lockAccounts, ih, append_assoc,
      singleton_append]

theorem unlockAccounts_ofHolders (ts hs : List (Access Key)) :
    unlockAccounts (ofHolders (ts ++ hs)) ts = ofHolders hs ∧
      ts.foldlM LockCounts.unlockChecked (ofHolders (ts ++ hs)) = some (ofHolders hs) := by
  induction ts with
  | nil => exact ⟨rfl, rfl⟩
  | cons t ts ih =>
    rw [cons_append]
    refine ⟨?_, ?_⟩
    · rw [unlockAccounts, foldl_cons, unlock_ofHolders, ← unlockAccounts, ih.1]
    · rw [foldlM_cons, unlockChecked_ofHolders]
      exact ih.2

/-- Validation keeps or rejects the whole bundle. -/
theorem getTransactionLocks_ok {transactions ts : List (Access Key)} {limit : ℕ}
    (h : getTransactionLocks transactions limit = .ok ts) : ts = transactions := by
  simp only [getTransactionLocks] at h
  split_ifs at h with hlen
  cases h
  exact filter_sublist.eq_of_length (not_not.mp hlen)

omit [DecidableEq Key] in
/-- The bundle of a session, in front of the others. -/
theorem outstanding_perm {l : List (P × List (Access Key))}
    (hmem : (p, ts) ∈ l) (hnodup : (l.map Prod.fst).Nodup) :
    l.Perm ((p, ts) :: l.filter (·.1 ≠ p)) := by
  induction l with
  | nil => cases hmem
  | cons b l ih =>
    obtain ⟨hnot, hnodup⟩ := nodup_cons.mp hnodup
    rcases mem_cons.mp hmem with rfl | hmem
    · have hkeep : l.filter (·.1 ≠ p) = l := by
        refine filter_eq_self.mpr fun q hq => decide_eq_true fun h => ?_
        exact hnot (mem_map.mpr ⟨q, hq, h⟩)
      rw [filter_cons_of_neg (by simp), hkeep]
    · have hne : b.1 ≠ p := fun h => hnot (mem_map.mpr ⟨_, hmem, h.symm⟩)
      rw [filter_cons_of_pos (by simpa using hne)]
      exact ((ih hmem hnodup).cons b).trans (.swap _ _ _)

omit [DecidableEq C] in
/-- A session moves without changing the maps. -/
theorem MapInv.move (hs : MapInv s) {pc : LockerPc Key} (hholds : pc.holds = (s.lockers p).holds) :
    MapInv { s.setLocker p pc with mutex } := by
  refine ⟨hs.counts, fun q ts => ?_, hs.nodup⟩
  by_cases hq : q = p
  · subst hq
    simp [St.setLocker, hs.mem, hholds]
  · simp [St.setLocker, hs.mem, hq]

omit [DecidableEq C] in
/-- The maps with the bundle of a session in front. -/
theorem MapInv.locks_eq (hs : MapInv s) (hholds : (s.lockers p).holds = some ts) :
    s.locks = ofHolders (ts ++ (s.outstanding.filter (·.1 ≠ p)).flatMap (·.2)) := by
  rw [hs.counts, St.accesses]
  exact ofHolders_perm ((outstanding_perm ((hs.mem p ts).mpr hholds) hs.nodup).flatMap_right _)

theorem Step.mapInv (h : Step s a s') (hs : MapInv s) : MapInv s' := by
  cases h with
  | @lockBundle p _ _ _ hpc | @acquireLock p _ hpc | @returnLock p _ hpc | @acquireUnlock p _ hpc
  | @returnUnlock p hpc =>
    exact hs.move (by rw [hpc]; rfl)
  | @updateLock p ts hpc =>
    have hnot : ∀ ts', (p, ts') ∉ s.outstanding := by
      intro ts' hmem
      have := (hs.mem p ts').mp hmem
      rw [hpc] at this
      cases this
    refine ⟨?_, ?_, ?_⟩
    · rw [hs.counts, lockAccounts_ofHolders]
      simp [St.accesses]
    · intro q ts'
      change (q, ts') ∈ s.outstanding ++ [(p, ts)] ↔
        (update s.lockers p (.lockDone ts) q).holds = some ts'
      by_cases hq : q = p
      · subst hq
        simp [hnot, LockerPc.holds, eq_comm]
      · simp [hq, hs.mem]
    · rw [map_append, nodup_append]
      refine ⟨hs.nodup, nodup_singleton _, ?_⟩
      intro q hq r hr hqr
      obtain ⟨⟨_, ts'⟩, hmem, rfl⟩ := mem_map.mp hq
      simp only [map_cons, map_nil, mem_singleton] at hr
      subst hr hqr
      exact hnot ts' hmem
  | @unlockBundle p ts ts' limit hpc hlocks =>
    refine hs.move ?_
    rw [getTransactionLocks_ok hlocks, hpc]
    rfl
  | @updateUnlock p ts hpc =>
    refine ⟨?_, ?_, ?_⟩
    · change unlockAccounts s.locks ts = ofHolders ((s.outstanding.filter (·.1 ≠ p)).flatMap (·.2))
      rw [hs.locks_eq (by rw [hpc]; rfl), (unlockAccounts_ofHolders _ _).1]
    · intro q ts'
      change (q, ts') ∈ s.outstanding.filter (·.1 ≠ p) ↔
        (update s.lockers p .unlockDone q).holds = some ts'
      by_cases hq : q = p
      · subst hq
        simp [LockerPc.holds]
      · simp [hq, hs.mem]
    · exact hs.nodup.sublist (filter_sublist.map _)
  | lockError | unlockError => exact hs
  -- the others are steps of consumers and of the bank
  | _ => exact ⟨hs.counts, hs.mem, hs.nodup⟩

/-! ## Checked transactions -/

/-- What a consumer has found to be free conflicts with no outstanding bundle. -/
def CheckInv (s : St Key P C) : Prop :=
  ∀ c checked todo, s.consumers c = .checking checked todo →
    ∀ q ∈ checked, q.2.isOk → ∀ t ∈ s.accesses, ¬ Conflict t q.1

omit [DecidableEq Key] in
theorem free_of_not_isConflict {e : Key × Bool}
    (h : isConflict locks e = false) : locks.Free e := by
  obtain ⟨k, w⟩ := e
  cases w with
  | true =>
    simp only [isConflict, Bool.true_and, Bool.not_true, Bool.false_and, Bool.or_false,
      Bool.or_eq_false_iff, Option.isSome_eq_false_iff, Option.isNone_iff_eq_none] at h
    exact ⟨h.1, fun _ => h.2⟩
  | false =>
    simp only [isConflict, Bool.false_and, Bool.not_false, Bool.true_and, Bool.false_or,
      Option.isSome_eq_false_iff, Option.isNone_iff_eq_none] at h
    exact ⟨h, fun hw => by cases hw⟩

/-- A transaction passes the check only if no bundle in the maps conflicts. -/
theorem checkBundleLocks_ok {hs : List (Access Key)} {tx : Access Key} {costResult : LockResult}
    (h : (checkBundleLocks (ofHolders hs) tx costResult).isOk) : ∀ t ∈ hs, ¬ Conflict t tx := by
  unfold checkBundleLocks at h
  split at h
  · split at h
    · cases h
    · rename_i hany
      rw [not_eq_true, any_eq_false] at hany
      intro t ht
      refine not_conflict_of_free (fun e he => ?_) ht
      exact free_of_not_isConflict (not_eq_true _ ▸ hany e he)
  · cases h

omit [DecidableEq Key] [DecidableEq P] in
/-- A consumer moves: only what it has checked now has to be looked at. -/
theorem CheckInv.consumer (hs : CheckInv s) {c : C}
    (hnew : ∀ checked todo, pc = .checking checked todo →
      ∀ q ∈ checked, q.2.isOk → ∀ t ∈ s.accesses, ¬ Conflict t q.1) :
    CheckInv { s.setConsumer c pc with mutex, bank } := by
  intro d checked todo hd
  by_cases h : d = c
  · subst h
    exact hnew checked todo (by simpa [St.setConsumer] using hd)
  · exact hs d checked todo (by simpa [St.setConsumer, h] using hd)

theorem Step.checkInv (h : Step s a s') (hm : MutexInv s)
    (hmap : MapInv s) (hs : CheckInv s) : CheckInv s' := by
  cases h with
  | @updateLock p ts hpc =>
    -- the session holds the mutex, so no consumer is checking
    intro c checked todo hc
    have hp : s.mutex = some (.inl p) := hm (.inl p) (by simp [St.critical, hpc, LockerPc.critical])
    have hcon : s.mutex = some (.inr c) := by
      refine hm (.inr c) ?_
      change (s.consumers c).critical
      rw [show s.consumers c = .checking checked todo from hc]
      trivial
    rw [hp] at hcon
    cases hcon
  | @updateUnlock p ts hpc =>
    intro c checked todo hc q hq hok t ht
    refine hs c checked todo hc q hq hok t ?_
    obtain ⟨b, hb, htb⟩ := mem_flatMap.mp ht
    exact mem_flatMap.mpr ⟨b, (mem_filter.mp hb).1, htb⟩
  | consume todo hpc => exact hs.consumer nofun
  | guard hpc hmutex =>
    refine hs.consumer fun checked todo heq q hq => ?_
    cases heq
    cases hq
  | @check c checked todo tx costResult hpc =>
    refine hs.consumer fun checked' todo' heq q hq hok => ?_
    cases heq
    rcases mem_append.mp hq with hq | hq
    · exact hs c checked _ hpc q hq hok
    · rw [mem_singleton.mp hq] at hok ⊢
      rw [hmap.counts] at hok
      exact checkBundleLocks_ok hok
  | bankLock limit relax hpc hlock => exact hs.consumer nofun
  | unguard hpc => exact hs.consumer nofun
  | _ => exact hs

/-! ## Exclusion -/

structure Inv (s : St Key P C) : Prop where
  mutex : MutexInv s
  map : MapInv s
  check : CheckInv s
  bank : (Accounts.sys Key).Reachable s.bank

theorem Step.bankReachable (h : Step s a s')
    (hs : (Accounts.sys Key).Reachable s.bank) : (Accounts.sys Key).Reachable s'.bank := by
  cases h with
  | bankLock limit relax hpc hlock => exact hs.step hlock
  | bank a hstep => exact hs.step hstep
  | _ => exact hs

theorem inv_of_reachable (h : (sys Key P C).Reachable s) : Inv s := by
  refine h.inv Inv ?_ ?_
  · rintro s rfl
    refine ⟨?_, ⟨ofHolders_nil.symm, ?_, .nil⟩, ?_, ⟨_, _, rfl, .nil⟩⟩
    · intro o ho
      cases o with
      | inl p => cases ho
      | inr c => cases ho
    · intro p ts
      constructor
      · intro hmem
        cases hmem
      · intro hholds
        cases hholds
    · intro c checked todo hc
      cases hc
  · intro s a s' hstep hs
    exact ⟨hstep.mutexInv hs.mutex, hstep.mapInv hs.map, hstep.checkInv hs.mutex hs.map hs.check,
      hstep.bankReachable hs.bank⟩

/-- A consumer takes bank locks only for what it has checked. -/
theorem held_of_bankLock {c : C} {limit : ℕ} {relax : Bool}
    (h : Step s (.bankLock c limit relax) s') (hs : (Accounts.sys Key).Reachable s.bank) :
    ∃ checked batch, s.consumers c = .checking checked [] ∧
      s'.bank.batches = s.bank.batches ++ [batch] ∧
      ∀ tx ∈ batch.held, ∃ q ∈ checked, q.1 = tx ∧ q.2.isOk := by
  cases h with
  | @bankLock _ checked bank' _ _ hpc hlock =>
    cases hlock with
    | @lock batch _ _ _ _ hnew =>
      refine ⟨checked, batch, hpc, rfl, ?_⟩
      have hcounts := (Accounts.inv_of_reachable hs).counts
      rcases lockAccounts_spec (allHeld s.bank.batches) (checked.map Prod.fst)
        (checked.map Prod.snd) limit relax with ⟨rs, heq, hheld⟩
      rw [hcounts, heq] at hnew
      rw [(TransactionBatch.held_of_new hnew).1]
      intro tx htx
      have hmem := (hheld tx htx).2
      rw [heldOf, zip_map'] at hmem
      obtain ⟨r, hr, rfl⟩ := mem_map.mp hmem
      obtain ⟨hr, hok⟩ := mem_filter.mp hr
      obtain ⟨q, hq, rfl⟩ := mem_map.mp hr
      exact ⟨q, hq, rfl, hok⟩

/-- Over every interleaving: the maps count the accesses of the outstanding
bundles, without entries for zero, and unlocking finds every count; and while a
bundle is outstanding, no consumer takes bank locks for a transaction that
conflicts with it. -/
theorem bundle_locks_exclude {s : St Key P C} (h : (sys Key P C).Reachable s) :
    (∀ k, s.locks.writeLocks k = ofCount (fun k => total s.accesses (k, true)) k ∧
      s.locks.readLocks k = ofCount (fun k => total s.accesses (k, false)) k) ∧
    ((s.outstanding.map Prod.fst).Nodup ∧
      ∀ p ts, (p, ts) ∈ s.outstanding ↔ (s.lockers p).holds = some ts) ∧
    (∀ p ts, s.lockers p = .unlocking ts →
      ts.foldlM LockCounts.unlockChecked s.locks = some (unlockAccounts s.locks ts)) ∧
    (∀ p ts, (s.lockers p).holds = some ts →
      ∀ c limit relax s', (sys Key P C).Step s (.bankLock c limit relax) s' →
        ∃ batch, s'.bank.batches = s.bank.batches ++ [batch] ∧
          ∀ t ∈ ts, ∀ tx ∈ batch.held, ¬ Conflict t tx) := by
  have hs := inv_of_reachable h
  refine ⟨?_, ⟨hs.map.nodup, hs.map.mem⟩, ?_, ?_⟩
  · intro k
    rw [hs.map.counts]
    exact ⟨rfl, rfl⟩
  · intro p ts hpc
    rw [hs.map.locks_eq (by rw [hpc]; rfl), (unlockAccounts_ofHolders _ _).1,
      (unlockAccounts_ofHolders _ _).2]
  · intro p ts hholds c limit relax s' hstep
    obtain ⟨checked, batch, hpc, hbatches, hheld⟩ := held_of_bankLock hstep hs.bank
    refine ⟨batch, hbatches, ?_⟩
    intro t ht tx htx
    obtain ⟨q, hq, rfl, hok⟩ := hheld tx htx
    refine hs.check c checked [] hpc q hq hok t ?_
    exact mem_flatMap.mpr ⟨(p, ts), (hs.map.mem p ts).mpr hholds, ht⟩

/-! ## A bundle against a consumer -/

/-- A bundle that writes account 0 is locked. A consumer that wants the accounts 0 and 1 then
gets account 1 only. -/
theorem bundle_locks_exclude_writer :
    ∃ (s s' : St ℕ Unit Unit) (batch : Accounts.TransactionBatch ℕ),
      (sys ℕ Unit Unit).Reachable s ∧ (s.lockers ()).holds = some [[(0, true)]] ∧
      (sys ℕ Unit Unit).Step s (.bankLock () 64 false) s' ∧
      s'.bank.batches = s.bank.batches ++ [batch] ∧ batch.held = [[(1, true)]] ∧
      ∀ tx ∈ batch.held, ¬ Conflict [(0, true)] tx := by
  have hrun : (sys ℕ Unit Unit).Run start [] start := .nil
  have hlock := hrun.snoc (.lockBundle (p := ()) [[(0, true)]] 64 rfl rfl)
  have hacquire := hlock.snoc (.acquireLock (p := ()) rfl rfl)
  have hupdate := hacquire.snoc (.updateLock (p := ()) rfl)
  have hreturn := hupdate.snoc (.returnLock (p := ()) rfl)
  have hconsume := hreturn.snoc
    (.consume (c := ()) [([(0, true)], .ok ()), ([(1, true)], .ok ())] rfl)
  have hguard := hconsume.snoc (.guard (c := ()) rfl rfl)
  have hcheck := (hguard.snoc (.check (c := ()) rfl)).snoc (.check (c := ()) rfl)
  obtain ⟨batch, hbatches, hexclude⟩ :=
    (bundle_locks_exclude ⟨start, _, rfl, hcheck⟩).2.2.2 () [[(0, true)]] rfl () 64 false _
      (.bankLock (c := ()) 64 false rfl (.lock _ _ 64 false rfl))
  refine ⟨_, _, batch, ⟨start, _, rfl, hcheck⟩, rfl,
    .bankLock (c := ()) 64 false rfl (.lock _ _ 64 false rfl), hbatches, ?_,
    hexclude _ (mem_singleton_self _)⟩
  cases hbatches
  rfl

end Salsa.Bundle.Locker
