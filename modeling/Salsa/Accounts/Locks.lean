import Salsa.Block.Execute
import Salsa.Lib.LockCounts
import Salsa.Lib.Lts

/-!
# Salsa.Accounts.Locks — the account locks of a bank

`account_locks.rs`, the locking part of `accounts.rs`, and `transaction_batch.rs`.
A batch locks the accounts of its transactions, those that fail keep their error
as lock result; transactions may fail later and give their locks back early
(`unlock_failures`), and the rest is unlocked when the batch is dropped.

With relaxed intra-batch locks every transaction is checked against the locks of
earlier batches only. So what holds in both modes is exclusion between batches
(`lockAccounts_spec`), and the maps count the locked transactions of all batches
(`LockCounts.ofHolders`).

The counts are `u64`, one for each locked transaction; they are numbers here.
-/

namespace Salsa.Accounts

open LockTable LockCounts List Bool
open Block (TransactionError)

variable {Key : Type} [DecidableEq Key]

/-! ## `AccountLocks` -/

/-- `AccountLocks`: `write_locks` and `readonly_locks`. -/
abbrev AccountLocks (Key : Type) := LockCounts Key

abbrev LockResult := Except TransactionError Unit

namespace AccountLocks

variable (self : AccountLocks Key)

def isLockedReadonly (key : Key) : Bool :=
  (self.readLocks key).any (0 < ·)

def isLockedWrite (key : Key) : Bool :=
  (self.writeLocks key).any (0 < ·)

def canReadLock (key : Key) : Bool := !isLockedWrite self key

def canWriteLock (key : Key) : Bool :=
  !isLockedReadonly self key && !isLockedWrite self key

def canLockAccounts : Access Key → LockResult
  | [] => .ok ()
  | (key, writable) :: keys =>
      if writable then
        if canWriteLock self key then canLockAccounts keys else .error .accountInUse
      else if canReadLock self key then canLockAccounts keys
      else .error .accountInUse

def lockAccounts (keys : Access Key) : AccountLocks Key :=
  LockCounts.lock self keys

/-- `unlock_accounts`; `none` is a failed debug assertion or an underflow. -/
def unlockAccounts (keys : Access Key) : Option (AccountLocks Key) :=
  LockCounts.unlockChecked self keys

def tryLockAccounts (keys : Access Key) : AccountLocks Key × LockResult :=
  match canLockAccounts self keys with
  | .error e => (self, .error e)
  | .ok () => (lockAccounts self keys, .ok ())

/-- The first pass of `try_lock_transaction_batch`. -/
def available (validatedKeys : Except TransactionError (Access Key)) :
    Except TransactionError (Access Key) :=
  match validatedKeys with
  | .error e => .error e
  | .ok keys =>
      match canLockAccounts self keys with
      | .error e => .error e
      | .ok () => .ok keys

/-- The second pass of `try_lock_transaction_batch`. -/
def lockAvailable : AccountLocks Key → List (Except TransactionError (Access Key)) →
    AccountLocks Key × List LockResult
  | self, [] => (self, [])
  | self, .error e :: rest =>
      let (self, results) := lockAvailable self rest
      (self, .error e :: results)
  | self, .ok keys :: rest =>
      let (self, results) := lockAvailable (lockAccounts self keys) rest
      (self, .ok () :: results)

def tryLockTransactionBatch (validatedBatchKeys : List (Except TransactionError (Access Key))) :
    AccountLocks Key × List LockResult :=
  lockAvailable self (validatedBatchKeys.map (available self))

/-- The loop of `Accounts::lock_accounts` without relaxed locks. -/
def tryLockEach : AccountLocks Key → List (Except TransactionError (Access Key)) →
    AccountLocks Key × List LockResult
  | self, [] => (self, [])
  | self, .error e :: rest =>
      let (self, results) := tryLockEach self rest
      (self, .error e :: results)
  | self, .ok keys :: rest =>
      let (self, result) := tryLockAccounts self keys
      let (self, results) := tryLockEach self rest
      (self, result :: results)

end AccountLocks

open AccountLocks

/-! ## `Accounts` -/

def validateAccountLocks (keys : List Key) (txAccountLockLimit : ℕ) : LockResult :=
  if txAccountLockLimit < keys.length then .error .tooManyAccountLocks
  else if ¬ keys.Nodup then .error .accountLoadedTwice
  else .ok ()

/-- The keys to lock for a transaction, unless an earlier result or the validation
is an error. -/
def validatedKeys (txAccountLockLimit : ℕ) (tx : Access Key) (result : LockResult) :
    Except TransactionError (Access Key) :=
  match result with
  | .error e => .error e
  | .ok () =>
      match validateAccountLocks (tx.map Prod.fst) txAccountLockLimit with
      | .error e => .error e
      | .ok () => .ok tx

def lockAccounts (accountLocks : AccountLocks Key) (txs : List (Access Key))
    (results : List LockResult) (txAccountLockLimit : ℕ) (relaxIntrabatchAccountLocks : Bool) :
    AccountLocks Key × List LockResult :=
  let validatedBatchKeys := List.zipWith (validatedKeys txAccountLockLimit) txs results
  if relaxIntrabatchAccountLocks then
    AccountLocks.tryLockTransactionBatch accountLocks validatedBatchKeys
  else AccountLocks.tryLockEach accountLocks validatedBatchKeys

/-- The loop of `Accounts::unlock_accounts`. -/
def unlockLoop : AccountLocks Key → List (Access Key × LockResult) → Option (AccountLocks Key)
  | accountLocks, [] => some accountLocks
  | accountLocks, (tx, res) :: rest =>
      if res.isOk then
        (AccountLocks.unlockAccounts accountLocks tx).bind (unlockLoop · rest)
      else unlockLoop accountLocks rest

def unlockAccounts (accountLocks : AccountLocks Key)
    (txsAndResults : List (Access Key × LockResult)) : Option (AccountLocks Key) :=
  if !txsAndResults.any (·.2.isOk) then some accountLocks
  else unlockLoop accountLocks txsAndResults

/-! ## `TransactionBatch` -/

/-- `TransactionBatch`; its constructor asserts equal lengths. -/
structure TransactionBatch (Key : Type) where
  lockResults : List LockResult
  sanitizedTxs : List (Access Key)
  needsUnlock : Bool
  length_eq : lockResults.length = sanitizedTxs.length

namespace TransactionBatch

/-- `TransactionBatch::new`; `none` is the failed assertion. -/
def new (lockResults : List LockResult) (sanitizedTxs : List (Access Key)) :
    Option (TransactionBatch Key) :=
  if h : lockResults.length = sanitizedTxs.length then some ⟨lockResults, sanitizedTxs, true, h⟩
  else none

/-- The transactions to unlock in `unlock_failures`. -/
def newFailures (self : TransactionBatch Key) (transactionResults : List LockResult) :
    List (Access Key × LockResult) :=
  ((self.sanitizedTxs.zip (self.lockResults.zip transactionResults)).filter
    fun (_, old, new) => !new.isOk && old.isOk).map fun (tx, old, _) => (tx, old)

/-- `unlock_failures`; `none` is a failed assertion. -/
def unlockFailures (self : TransactionBatch Key) (accountLocks : AccountLocks Key)
    (transactionResults : List LockResult) : Option (TransactionBatch Key × AccountLocks Key) :=
  if h : self.lockResults.length = transactionResults.length then
    if !self.needsUnlock then some (self, accountLocks)
    else if (self.lockResults.zip transactionResults).any
        fun (old, new) => new.isOk && !old.isOk then
      none
    else
      (unlockAccounts accountLocks (self.newFailures transactionResults)).map fun accountLocks =>
        (⟨transactionResults, self.sanitizedTxs, self.needsUnlock, h ▸ self.length_eq⟩,
         accountLocks)
  else none

def drop (self : TransactionBatch Key) (accountLocks : AccountLocks Key) :
    Option (AccountLocks Key) :=
  if self.needsUnlock then unlockAccounts accountLocks (self.sanitizedTxs.zip self.lockResults)
  else some accountLocks

end TransactionBatch

/-! ## The system -/

/-- The locks of a bank and the batches that were not dropped yet. -/
structure St (Key : Type) where
  accountLocks : AccountLocks Key
  batches : List (TransactionBatch Key)

/-- The operations on batches. -/
inductive Act (Key : Type) where
  | lock (txs : List (Access Key)) (results : List LockResult) (limit : ℕ) (relax : Bool)
  | unlockFailures (results : List LockResult)
  | drop

inductive Step : St Key → Act Key → St Key → Prop where
  | lock {s : St Key} {batch} (txs : List (Access Key))
      (results : List LockResult) (limit : ℕ) (relax : Bool)
      (hnew : TransactionBatch.new (lockAccounts s.accountLocks txs results limit relax).2 txs =
        some batch) :
      Step s (.lock txs results limit relax)
        ⟨(lockAccounts s.accountLocks txs results limit relax).1, s.batches ++ [batch]⟩
  | unlockFailures {s : St Key} {before after batch batch' accountLocks'}
      (results : List LockResult) (hbatches : s.batches = before ++ batch :: after)
      (hunlock : batch.unlockFailures s.accountLocks results = some (batch', accountLocks')) :
      Step s (.unlockFailures results) ⟨accountLocks', before ++ batch' :: after⟩
  | drop {s : St Key} {before after batch accountLocks'}
      (hbatches : s.batches = before ++ batch :: after)
      (hdrop : batch.drop s.accountLocks = some accountLocks') :
      Step s .drop ⟨accountLocks', before ++ after⟩

/-- The table starts empty, without batches. -/
def sys (Key : Type) [DecidableEq Key] : Lts (St Key) (Act Key) where
  Init s := s = ⟨LockCounts.empty, []⟩
  Step := Step

/-! ## Locking a batch -/

def heldOf (txs : List (Access Key)) (results : List LockResult) : List (Access Key) :=
  ((txs.zip results).filter (·.2.isOk)).map (·.1)

omit [DecidableEq Key] in
@[simp] theorem heldOf_ok (tx : Access Key) (txs : List (Access Key)) (results : List LockResult) :
    heldOf (tx :: txs) (.ok () :: results) = tx :: heldOf txs results := rfl

variable {results : List LockResult} {txs : List (Access Key)} {hs : List (Access Key)}
  {result : LockResult}

omit [DecidableEq Key] in
theorem mem_heldOf_cons {tx tx' : Access Key}
    (h : tx' ∈ heldOf txs results) : tx' ∈ heldOf (tx :: txs) (result :: results) := by
  cases result with
  | error e => exact h
  | ok _ => exact mem_cons_of_mem _ h

/-- A transaction that may be locked beside `hs`. -/
def Apart (hs : List (Access Key)) (tx : Access Key) : Prop :=
  (tx.map Prod.fst).Nodup ∧ ∀ h ∈ hs, ¬ Conflict h tx

theorem canLockAccounts_ok {keys : Access Key} (h : canLockAccounts (ofHolders hs) keys = .ok ()) :
    ∀ e ∈ keys, (ofHolders hs).Free e := by
  have hcount : ∀ (n : Key → ℕ) (k : Key),
      (ofCount n k).any (0 < ·) = false → ofCount n k = none := by
    intro n k hany
    rcases Nat.eq_zero_or_pos (n k) with hz | hpos
    · exact ofCount_eq_none_iff.mpr hz
    · rw [ofCount_of_pos hpos, Option.any_some] at hany
      exact absurd hpos (of_decide_eq_false hany)
  induction keys with
  | nil =>
    intro e he
    cases he
  | cons e keys ih =>
    obtain ⟨k, w⟩ := e
    intro e he
    cases w with
    | true =>
      simp only [canLockAccounts, if_true] at h
      split at h
      · rename_i hcan
        rcases mem_cons.mp he with rfl | he
        · simp only [canWriteLock, and_eq_true, not_eq_true'] at hcan
          exact ⟨hcount (fun k => total hs (k, true)) k hcan.2,
            fun _ => hcount (fun k => total hs (k, false)) k hcan.1⟩
        · exact ih h e he
      · cases h
    | false =>
      simp only [canLockAccounts, false_eq_true, if_false] at h
      split at h
      · rename_i hcan
        rcases mem_cons.mp he with rfl | he
        · simp only [canReadLock, not_eq_true'] at hcan
          exact ⟨hcount (fun k => total hs (k, true)) k hcan, fun hw => by cases hw⟩
        · exact ih h e he
      · cases h

/-- What is validated is the transaction itself, without duplicates. -/
theorem validatedKeys_ok {limit : ℕ} {tx keys : Access Key}
    (h : validatedKeys limit tx result = .ok keys) :
    result = .ok () ∧ keys = tx ∧ (tx.map Prod.fst).Nodup := by
  unfold validatedKeys validateAccountLocks at h
  split at h
  · cases h
  · split at h
    · cases h
    · rename_i hvalid
      cases h
      split_ifs at hvalid with hlen hdup
      exact ⟨rfl, rfl, hdup⟩

/-- What gets locked is apart from the holders before it. -/
theorem tryLockEach_spec (limit : ℕ) (txs : List (Access Key)) (results : List LockResult)
    (hs : List (Access Key)) :
    ∃ rs, tryLockEach (ofHolders hs) (zipWith (validatedKeys limit) txs results) =
        (ofHolders (hs ++ heldOf txs rs), rs) ∧
      ∀ tx ∈ heldOf txs rs, Apart hs tx ∧ tx ∈ heldOf txs results := by
  induction txs generalizing results hs with
  | nil => exact ⟨[], by simp [tryLockEach, heldOf], by simp [heldOf]⟩
  | cons tx txs ih =>
    cases results with
    | nil => exact ⟨[], by simp [tryLockEach, heldOf], by simp [heldOf]⟩
    | cons result results =>
      rw [zipWith_cons_cons]
      cases hv : validatedKeys limit tx result with
      | error e =>
        obtain ⟨rs, heq, hheld⟩ := ih results hs
        refine ⟨.error e :: rs, ?_, fun tx htx => ?_⟩
        · rw [tryLockEach, heq]
          rfl
        · exact ⟨(hheld tx htx).1, mem_heldOf_cons (hheld tx htx).2⟩
      | ok keys =>
        obtain ⟨rfl, rfl, hnodup⟩ := validatedKeys_ok hv
        rw [tryLockEach, tryLockAccounts]
        cases hcan : canLockAccounts (ofHolders hs) keys with
        | error e =>
          obtain ⟨rs, heq, hheld⟩ := ih results hs
          refine ⟨.error e :: rs, ?_, fun tx htx => ?_⟩
          · simp only [heq]
            rfl
          · exact ⟨(hheld tx htx).1, mem_heldOf_cons (hheld tx htx).2⟩
        | ok _ =>
          have hfree := canLockAccounts_ok hcan
          obtain ⟨rs, heq, hheld⟩ := ih results (hs ++ [keys])
          refine ⟨.ok () :: rs, ?_, ?_⟩
          · simp [AccountLocks.lockAccounts, lock_ofHolders, heq]
          · intro tx htx
            rcases mem_cons.mp htx with rfl | htx
            · exact ⟨⟨hnodup, fun h hh => not_conflict_of_free hfree hh⟩, mem_cons_self⟩
            · obtain ⟨⟨hnd, hnc⟩, hmem⟩ := hheld tx htx
              exact ⟨⟨hnd, fun h hh => hnc h (by simp [hh])⟩, mem_cons_of_mem _ hmem⟩

/-- In the second pass the table already has transactions `hs'` of the batch. -/
theorem lockAvailable_spec (limit : ℕ) (txs : List (Access Key)) (results : List LockResult)
    (hs hs' : List (Access Key)) :
    ∃ rs, lockAvailable (ofHolders (hs ++ hs'))
        ((zipWith (validatedKeys limit) txs results).map
          (available (ofHolders hs))) =
          (ofHolders (hs ++ hs' ++ heldOf txs rs), rs) ∧
      ∀ tx ∈ heldOf txs rs, Apart hs tx ∧ tx ∈ heldOf txs results := by
  induction txs generalizing results hs' with
  | nil => exact ⟨[], by simp [lockAvailable, heldOf], by simp [heldOf]⟩
  | cons tx txs ih =>
    cases results with
    | nil => exact ⟨[], by simp [lockAvailable, heldOf], by simp [heldOf]⟩
    | cons result results =>
      rw [zipWith_cons_cons, map_cons]
      cases hav : available (ofHolders hs) (validatedKeys limit tx result) with
      | error e =>
        obtain ⟨rs, heq, hheld⟩ := ih results hs'
        refine ⟨.error e :: rs, ?_, fun tx htx => ?_⟩
        · rw [lockAvailable, heq]
          rfl
        · exact ⟨(hheld tx htx).1, mem_heldOf_cons (hheld tx htx).2⟩
      | ok keys =>
        have hkeys : result = .ok () ∧ keys = tx ∧ Apart hs tx := by
          unfold available at hav
          split at hav
          · cases hav
          · rename_i hv
            split at hav
            · cases hav
            · rename_i hcan
              cases hav
              obtain ⟨rfl, rfl, hnodup⟩ := validatedKeys_ok hv
              exact ⟨rfl, rfl, hnodup,
                fun h hh => not_conflict_of_free (canLockAccounts_ok hcan) hh⟩
        obtain ⟨rfl, rfl, htx⟩ := hkeys
        obtain ⟨rs, heq, hheld⟩ := ih results (hs' ++ [keys])
        refine ⟨.ok () :: rs, ?_, ?_⟩
        · rw [← append_assoc hs hs' [keys]] at heq
          rw [AccountLocks.lockAvailable, AccountLocks.lockAccounts, lock_ofHolders, heq,
            heldOf_ok, append_assoc _ [keys], singleton_append]
        · intro tx htx'
          rcases mem_cons.mp htx' with rfl | htx'
          · exact ⟨htx, mem_cons_self⟩
          · exact ⟨(hheld tx htx').1, mem_cons_of_mem _ (hheld tx htx').2⟩

/-- Locking a batch, in both modes: the transactions that got their locks are
counted, conflict with nobody who held locks before, and were not in error. -/
theorem lockAccounts_spec (hs txs : List (Access Key)) (results : List LockResult) (limit : ℕ)
    (relax : Bool) :
    ∃ rs, lockAccounts (ofHolders hs) txs results limit relax =
        (ofHolders (hs ++ heldOf txs rs), rs) ∧
      ∀ tx ∈ heldOf txs rs, Apart hs tx ∧ tx ∈ heldOf txs results := by
  cases relax with
  | true =>
    have h := lockAvailable_spec limit txs results hs []
    simp only [append_nil] at h
    exact h
  | false => exact tryLockEach_spec limit txs results hs

/-! ## Unlocking -/

/-- The transactions among some pairs that are to be unlocked. -/
def locked (txsAndResults : List (Access Key × LockResult)) : List (Access Key) :=
  (txsAndResults.filter (·.2.isOk)).map (·.1)

variable (txsAndResults : List (Access Key × LockResult)) {batch : TransactionBatch Key}

theorem unlockLoop_spec (hs : List (Access Key)) :
    unlockLoop (ofHolders (locked txsAndResults ++ hs)) txsAndResults = some (ofHolders hs) := by
  induction txsAndResults with
  | nil => rfl
  | cons p rest ih =>
    obtain ⟨tx, res⟩ := p
    cases res with
    | error e => exact ih
    | ok _ =>
      have hunlock : AccountLocks.unlockAccounts (ofHolders (tx :: (locked rest ++ hs))) tx =
          some (ofHolders (locked rest ++ hs)) := unlockChecked_ofHolders _ _
      change (AccountLocks.unlockAccounts (ofHolders (tx :: (locked rest ++ hs))) tx).bind _ = _
      rw [hunlock, Option.bind_some, ih]

/-- Unlocking takes the transactions out of the counts. -/
theorem unlockAccounts_spec (hs : List (Access Key)) :
    unlockAccounts (ofHolders (locked txsAndResults ++ hs)) txsAndResults =
      some (ofHolders hs) := by
  unfold unlockAccounts
  split
  · -- nothing is locked, so nothing is to be done
    rename_i hany
    have hnil : locked txsAndResults = [] := by
      rw [locked, map_eq_nil_iff, filter_eq_nil_iff]
      intro p hp hok
      simp only [not_eq_true', any_eq_false] at hany
      exact hany p hp hok
    rw [hnil, nil_append]
  · exact unlockLoop_spec txsAndResults hs

namespace TransactionBatch

/-- The transactions of the batch that hold their locks. -/
def held (self : TransactionBatch Key) : List (Access Key) :=
  heldOf self.sanitizedTxs self.lockResults

omit [DecidableEq Key] in
theorem held_of_new {lockResults : List LockResult} (h : new lockResults txs = some batch) :
    batch.held = heldOf txs lockResults ∧ batch.needsUnlock = true := by
  unfold new at h
  split at h
  · cases h
    exact ⟨rfl, rfl⟩
  · cases h

/-- The results only turn `Ok` into an error. -/
def OnlyFails (self : TransactionBatch Key) (results : List LockResult) : Prop :=
  self.lockResults.length = results.length ∧ ∀ p ∈ self.lockResults.zip results, p.2.isOk → p.1.isOk

end TransactionBatch

omit [DecidableEq Key] in
/-- What was held is what fails now and what is still held. -/
theorem heldOf_perm_failures (txs : List (Access Key)) (old new : List LockResult)
    (hlen : old.length = new.length) (honly : ∀ p ∈ old.zip new, p.2.isOk → p.1.isOk) :
    (heldOf txs old).Perm
      (locked (((txs.zip (old.zip new)).filter fun (_, old, new) => !new.isOk && old.isOk).map
        fun (tx, old, _) => (tx, old)) ++ heldOf txs new) := by
  induction txs generalizing old new with
  | nil => exact .refl _
  | cons tx txs ih =>
    cases old with
    | nil =>
      cases new with
      | nil => exact .refl _
      | cons r new => cases hlen
    | cons r old =>
      cases new with
      | nil => cases hlen
      | cons r' new =>
        have hp := ih old new (Nat.succ.inj hlen) fun p hp => honly p (by simp [hp])
        have hr := honly (r, r') (by simp)
        cases r with
        | error e =>
          cases r' with
          | error e' => exact hp
          | ok _ => exact absurd (hr rfl) false_ne_true
        | ok _ =>
          cases r' with
          | error e' => exact hp.cons tx
          | ok _ => exact (hp.cons tx).trans perm_middle.symm

/-- The locks go back for the transactions that fail now. -/
theorem unlockFailures_spec (hneeds : batch.needsUnlock = true) (honly : batch.OnlyFails results)
    (hs : List (Access Key)) :
    ∃ batch' : TransactionBatch Key,
      batch.unlockFailures (ofHolders (batch.held ++ hs)) results =
        some (batch', ofHolders (batch'.held ++ hs)) ∧
      batch'.needsUnlock = true ∧ ∀ tx ∈ batch'.held, tx ∈ batch.held := by
  obtain ⟨hlen, hfails⟩ := honly
  have hperm := heldOf_perm_failures batch.sanitizedTxs batch.lockResults results hlen hfails
  have hassert : ((batch.lockResults.zip results).any fun (old, new) => new.isOk && !old.isOk) =
      false := by
    rw [any_eq_false]
    rintro ⟨old, new⟩ hp
    have := hfails (old, new) hp
    cases hnew : new.isOk with
    | false => simp [hnew]
    | true => simp [hnew, this hnew]
  have hlocks : ofHolders (batch.held ++ hs) =
      ofHolders (locked (batch.newFailures results) ++
        (heldOf batch.sanitizedTxs results ++ hs)) := by
    rw [← append_assoc]
    exact ofHolders_perm (hperm.append_right hs)
  refine ⟨⟨results, batch.sanitizedTxs, batch.needsUnlock, hlen ▸ batch.length_eq⟩, ?_, hneeds, ?_⟩
  · rw [TransactionBatch.unlockFailures, dif_pos hlen, hneeds, hassert, hlocks, unlockAccounts_spec]
    rfl
  · intro tx htx
    exact hperm.mem_iff.mpr (mem_append_right _ htx)

/-- The assertions of `unlock_failures` pass only for results that fail more. -/
theorem onlyFails_of_unlockFailures {accountLocks : AccountLocks Key}
    {p : TransactionBatch Key × AccountLocks Key} (hneeds : batch.needsUnlock = true)
    (h : batch.unlockFailures accountLocks results = some p) : batch.OnlyFails results := by
  unfold TransactionBatch.unlockFailures at h
  split at h
  · rename_i hlen
    refine ⟨hlen, ?_⟩
    rw [hneeds] at h
    split at h
    · cases ‹(!true) = true›
    · split at h
      · cases h
      · rename_i hany
        rw [not_eq_true, any_eq_false] at hany
        intro q hq hok
        by_contra hnot
        exact hany q hq (by simp [hok, hnot])
  · cases h

/-- Dropping a batch gives back what is still held. -/
theorem drop_spec (hneeds : batch.needsUnlock = true) (hs : List (Access Key)) :
    batch.drop (ofHolders (batch.held ++ hs)) = some (ofHolders hs) := by
  rw [TransactionBatch.drop, if_pos hneeds]
  exact unlockAccounts_spec _ hs

/-! ## The invariant -/

def allHeld (batches : List (TransactionBatch Key)) : List (Access Key) :=
  batches.flatMap TransactionBatch.held

/-- No transaction of one batch conflicts with one of the other. -/
def BatchesApart (b b' : TransactionBatch Key) : Prop :=
  ∀ tx ∈ b.held, ∀ tx' ∈ b'.held, ¬ Conflict tx tx'

structure Inv (s : St Key) : Prop where
  counts : s.accountLocks = ofHolders (allHeld s.batches)
  nodup : ∀ tx ∈ allHeld s.batches, (tx.map Prod.fst).Nodup
  apart : s.batches.Pairwise BatchesApart
  needsUnlock : ∀ b ∈ s.batches, b.needsUnlock = true

omit [DecidableEq Key] in
/-- One batch in front of the others. -/
theorem allHeld_perm (before after : List (TransactionBatch Key)) (batch : TransactionBatch Key) :
    (allHeld (before ++ batch :: after)).Perm (batch.held ++ allHeld (before ++ after)) := by
  simp only [allHeld, flatMap_append, flatMap_cons, ← append_assoc]
  exact perm_append_comm.append_right _

/-- One case per call of the lock table. -/
theorem Step.inv {s s' : St Key} {a : Act Key} (h : Step s a s') (hs : Inv s) : Inv s' := by
  cases h with
  | @lock batch txs results limit relax hnew =>
    obtain ⟨rs, heq, hheld⟩ := lockAccounts_spec (allHeld s.batches) txs results limit relax
    rw [hs.counts, heq] at hnew
    rw [hs.counts, heq]
    have hbatch := TransactionBatch.held_of_new hnew
    have hall : allHeld (s.batches ++ [batch]) = allHeld s.batches ++ heldOf txs rs := by
      simp [allHeld, hbatch.1]
    refine ⟨?_, ?_, ?_, ?_⟩
    · rw [hall]
    · rw [hall]
      exact forall_mem_append.mpr ⟨hs.nodup, fun tx htx => (hheld tx htx).1.1⟩
    · refine pairwise_append.mpr ⟨hs.apart, pairwise_singleton _ _, ?_⟩
      intro b hb b' hb' tx htx tx' htx'
      rw [mem_singleton.mp hb', hbatch.1] at htx'
      exact (hheld tx' htx').1.2 tx (mem_flatMap.mpr ⟨b, hb, htx⟩)
    · exact forall_mem_append.mpr ⟨hs.needsUnlock, forall_mem_singleton.mpr hbatch.2⟩
  | @unlockFailures before after batch batch' accountLocks' results hbatches hunlock =>
    have hneeds : batch.needsUnlock = true := hs.needsUnlock batch (by rw [hbatches]; simp)
    have honly := onlyFails_of_unlockFailures hneeds hunlock
    rcases unlockFailures_spec hneeds honly (allHeld (before ++ after)) with
      ⟨new, hnew, hneeds', hsub⟩
    rw [hs.counts, hbatches, ofHolders_perm (allHeld_perm before after batch), hnew] at hunlock
    cases hunlock
    have hmem : ∀ tx ∈ allHeld (before ++ batch' :: after), tx ∈ allHeld s.batches := by
      intro tx htx
      rw [hbatches, (allHeld_perm before after batch).mem_iff]
      rcases mem_append.mp ((allHeld_perm before after batch').mem_iff.mp htx) with htx | htx
      · exact mem_append_left _ (hsub tx htx)
      · exact mem_append_right _ htx
    refine ⟨?_, fun tx htx => hs.nodup tx (hmem tx htx), ?_, ?_⟩
    · exact (ofHolders_perm (allHeld_perm before after batch')).symm
    · have hapart := hs.apart
      rw [hbatches, pairwise_append, pairwise_cons] at hapart
      obtain ⟨hbefore, ⟨hbatch, hafter⟩, hcross⟩ := hapart
      refine pairwise_append.mpr ⟨hbefore, pairwise_cons.mpr ⟨?_, hafter⟩, ?_⟩
      · intro b hb tx htx
        exact hbatch b hb tx (hsub tx htx)
      · intro b hb b' hb'
        rcases mem_cons.mp hb' with rfl | hb'
        · intro tx htx tx' htx'
          exact hcross b hb batch (by simp) tx htx tx' (hsub tx' htx')
        · exact hcross b hb b' (by simp [hb'])
    · intro b hb
      rcases mem_append.mp hb with hb | hb
      · exact hs.needsUnlock b (by rw [hbatches]; simp [hb])
      · rcases mem_cons.mp hb with rfl | hb
        · exact hneeds'
        · exact hs.needsUnlock b (by rw [hbatches]; simp [hb])
  | @drop before after batch accountLocks' hbatches hdrop =>
    have hneeds : batch.needsUnlock = true := hs.needsUnlock batch (by rw [hbatches]; simp)
    rw [hs.counts, hbatches, ofHolders_perm (allHeld_perm before after batch),
      drop_spec hneeds] at hdrop
    cases hdrop
    have hsublist : (before ++ after).Sublist s.batches := by
      rw [hbatches]
      exact (sublist_cons_self batch after).append_left before
    refine ⟨rfl, ?_, hs.apart.sublist hsublist, fun b hb => hs.needsUnlock b (hsublist.subset hb)⟩
    intro tx htx
    refine hs.nodup tx ?_
    rw [hbatches, (allHeld_perm before after batch).mem_iff]
    exact mem_append_right _ htx

theorem inv_of_reachable {s : St Key} (h : (sys Key).Reachable s) : Inv s := by
  refine h.inv Inv ?_ fun s a s' hstep hs => hstep.inv hs
  rintro s rfl
  refine ⟨ofHolders_nil.symm, ?_, .nil, ?_⟩
  · intro tx htx
    cases htx
  · intro b hb
    cases hb

/-- Without duplicate keys, the counts are numbers of transactions. -/
theorem total_eq_countP (h : ∀ tx ∈ hs, (tx.map Prod.fst).Nodup)
    (e : Key × Bool) : total hs e = hs.countP (e ∈ ·) := by
  induction hs with
  | nil => rfl
  | cons tx hs ih =>
    have hnodup : tx.Nodup := (h tx (by simp)).of_map _
    rw [total_cons, countP_cons, ih fun tx htx => h tx (by simp [htx]), hnodup.count, Nat.add_comm]
    simp

/-- The account locks, over every sequence of batch operations: batches exclude
each other, the maps count the locked transactions, unlocking finds every lock it
gives back, and without batches the maps are empty. -/
theorem account_locks_exact {s : St Key} (h : (sys Key).Reachable s) :
    s.batches.Pairwise BatchesApart ∧
    (∀ k, s.accountLocks.writeLocks k =
        ofCount (fun k => (allHeld s.batches).countP ((k, true) ∈ ·)) k ∧
      s.accountLocks.readLocks k =
        ofCount (fun k => (allHeld s.batches).countP ((k, false) ∈ ·)) k) ∧
    (∀ batch ∈ s.batches, (batch.drop s.accountLocks).isSome ∧
      ∀ results, batch.OnlyFails results → (batch.unlockFailures s.accountLocks results).isSome) ∧
    (s.batches = [] → s.accountLocks = LockCounts.empty) := by
  have hs := inv_of_reachable h
  refine ⟨hs.apart, ?_, ?_, ?_⟩
  · intro k
    rw [hs.counts]
    simp [ofHolders, total_eq_countP hs.nodup]
  · intro batch hbatch
    have hneeds := hs.needsUnlock batch hbatch
    obtain ⟨before, after, hbatches⟩ := append_of_mem hbatch
    rw [hs.counts, hbatches, ofHolders_perm (allHeld_perm before after batch)]
    refine ⟨?_, ?_⟩
    · rw [drop_spec hneeds]
      rfl
    · intro results honly
      obtain ⟨new, hnew, -⟩ := unlockFailures_spec hneeds honly (allHeld (before ++ after))
      rw [hnew]
      rfl
  · intro hnil
    rw [hs.counts, hnil]
    rfl

/-! ## A relaxed batch -/

/-- Two transactions that write account 0. -/
def writers : List (Access ℕ) := [[(0, true)], [(0, true), (1, false)]]

/-- The bank after one batch locked both. -/
def relaxedState : St ℕ :=
  ⟨(lockAccounts LockCounts.empty writers [.ok (), .ok ()] 64 true).1,
    [⟨[.ok (), .ok ()], writers, true, rfl⟩]⟩

theorem relaxedState_reachable : (sys ℕ).Reachable relaxedState :=
  ⟨⟨LockCounts.empty, []⟩, _, rfl, .single (.lock writers [.ok (), .ok ()] 64 true rfl)⟩

theorem account_locks_exact_relaxed :
    relaxedState.accountLocks.writeLocks 0 = some 2 ∧
      relaxedState.accountLocks.writeLocks 0 =
        ofCount (fun k => (allHeld relaxedState.batches).countP ((k, true) ∈ ·)) 0 :=
  ⟨by decide, ((account_locks_exact relaxedState_reachable).2.1 0).1⟩

end Salsa.Accounts
