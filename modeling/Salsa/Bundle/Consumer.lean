import Salsa.Cost.Qos

/-!
# Salsa.Bundle.Consumer — a bundle is committed as a whole or not at all

`bundle_consumer.rs`. The bundle passes through the age and status checks, the
cost reservation, the account locks, execution, recording and the commit, and may
fail at each of them. What the bank, the SVM and the recorder answer is arbitrary
(`Outcomes`); a recorded transaction is committed.
-/

namespace Salsa.Bundle

open Saturating Cost

variable {Key : Type} [DecidableEq Key]

/-! ## The consumer -/

structure MaxAge where
  sanitizedEpoch : ℕ
  altInvalidationSlot : ℕ

inductive RecordSenderError where
  | full
  | shutdown
  | inactiveBankId
  | disconnected
deriving DecidableEq, Repr

inductive PohRecorderError where
  | maxHeightReached
  | channelFull
  | channelDisconnected
deriving DecidableEq, Repr

/-- What the consumer reads of a `ProcessedTransaction`. -/
structure ProcessedTransaction where
  status : Except TransactionError Unit
  executedUnits : U64
  loadedAccountsDataSize : BitVec 32
  feePayerPostBalance : U64

abbrev TransactionProcessingResult := Except TransactionError ProcessedTransaction

/-- What the bank knows of its slot and of the transactions. -/
structure Context (Key : Type) where
  env : Env
  epoch : ℕ
  slot : ℕ
  /-- What the compute budget instructions of a transaction ask for. -/
  limits : Tx Key → Option (BitVec 32 × BitVec 32)
  checkReservedKeys : Tx Key → Except TransactionError Unit
  loadAddressesFromRef : Tx Key → Except TransactionError Unit

/-- The answers for a bundle of `n` transactions. -/
structure Outcomes (n : ℕ) where
  /-- `check_transactions`, from the results of the earlier checks. -/
  checkTransactions : List (Except TransactionError Unit) → Vector (Except TransactionError Unit) n
  /-- The lock results of the attempts until the time is up. -/
  lockAttempts : List (Vector (Except TransactionError Unit) n)
  /-- The lock results of the attempt after it. -/
  lastLockAttempt : Vector (Except TransactionError Unit) n
  processingResults : Vector TransactionProcessingResult n
  record : Except RecordSenderError (Option ℕ)

/-- The bank, with the transactions recorded and committed so far. -/
structure Bank (Key : Type) where
  costTracker : CostTracker Key
  recorded : List (Tx Key)
  committed : List (Tx Key)

structure RetryableIndex where
  index : ℕ
  immediatelyRetryable : Bool
deriving DecidableEq, Repr

structure LeaderProcessedTransactionCounts where
  attemptedProcessingCount : ℕ
  processedCount : ℕ
  processedWithSuccessfulResultCount : ℕ
deriving DecidableEq, Repr

structure ExecuteAndCommitTransactionsOutput where
  transactionCounts : LeaderProcessedTransactionCounts
  retryableTransactionIndexes : List RetryableIndex
  commitTransactionsResult : Except PohRecorderError (List CommitTransactionDetails)

structure ProcessTransactionBatchOutput where
  costModelThrottledTransactionsCount : ℕ
  executeAndCommitTransactionsOutput : ExecuteAndCommitTransactionsOutput

def findErr {α : Type} : List (Except TransactionError α) → Option (ℕ × TransactionError)
  | [] => none
  | .error e :: _ => some (0, e)
  | .ok _ :: rest => (findErr rest).map fun (index, e) => (index + 1, e)

/-- All transactions of a bundle, to be tried again. -/
def allRetryable (n : ℕ) (immediatelyRetryable : Bool) : List RetryableIndex :=
  (List.range n).map fun index => ⟨index, immediatelyRetryable⟩

/-- The checks of a transaction that was sanitized earlier. -/
def preResult (ctx : Context Key) (tx : Tx Key) (maxAge : MaxAge) : Except TransactionError Unit :=
  do
    if ctx.epoch ≠ maxAge.sanitizedEpoch then ctx.checkReservedKeys tx
    if maxAge.altInvalidationSlot < ctx.slot then ctx.loadAddressesFromRef tx

/-- The loop of `try_lock_batch`: one attempt after the other while an account is
in use. -/
def tryLockBatch {n : ℕ} (last : Vector (Except TransactionError Unit) n) :
    List (Vector (Except TransactionError Unit) n) → Vector (Except TransactionError Unit) n
  | [] => last
  | batch :: rest =>
      match findErr batch.toList with
      | some (_, err) => if err = .accountInUse then tryLockBatch last rest else batch
      | none => batch

def recordBundle (record : Except RecordSenderError (Option ℕ)) (transactions : List (Tx Key)) :
    Except PohRecorderError (Option ℕ) :=
  if transactions.isEmpty then .ok none
  else
    match record with
    | .ok startingIndex => .ok startingIndex
    | .error .inactiveBankId | .error .shutdown => .error .maxHeightReached
    | .error .full => .error .channelFull
    | .error .disconnected => .error .channelDisconnected

def failed : TransactionProcessingResult → Bool
  | .error _ => true
  | .ok executedTx => !executedTx.status.isOk

/-- The status of a transaction in a bundle that failed. -/
def notCommittedError : TransactionProcessingResult → TransactionError
  | .error err => err
  | .ok executedTx =>
      match executedTx.status with
      | .error e => e
      | .ok () => .commitCancelled

/-- `commit_transactions`: what was processed is committed. -/
def commitTransactions (processingResults : List TransactionProcessingResult) :
    List CommitTransactionDetails :=
  processingResults.map fun
    | .ok tx =>
        .committed tx.executedUnits tx.loadedAccountsDataSize tx.feePayerPostBalance tx.status
    | .error err => .notCommitted err

/-- The status of a transaction when none was processed; `none` is `unreachable!`. -/
def unprocessedStatus : TransactionProcessingResult → Option CommitTransactionDetails
  | .ok _ => none
  | .error err => some (.notCommitted err)

/-- `execute_and_commit_transactions_locked`; `none` is its `unreachable!`. -/
def executeAndCommitTransactionsLocked (bank : Bank Key) (txs : List (Tx Key))
    (outcomes : Outcomes txs.length) :
    Option (ExecuteAndCommitTransactionsOutput × Bank Key) :=
  let processingResults := outcomes.processingResults.toList
  if processingResults.any failed then
    some (⟨⟨txs.length, 0, 0⟩, [],
      .ok (processingResults.map fun r => .notCommitted (notCommittedError r))⟩, bank)
  else
    let processedCount := processingResults.countP Except.isOk
    let transactionCounts : LeaderProcessedTransactionCounts :=
      ⟨processingResults.length, processedCount, processingResults.countP (!failed ·)⟩
    let processed := (processingResults.zip txs).filter fun (r, _) => r.isOk
    let processedTransactions := processed.map (·.2)
    match recordBundle outcomes.record processedTransactions with
    | .error recorderErr =>
        some (⟨transactionCounts, allRetryable txs.length true, .error recorderErr⟩, bank)
    | .ok _ =>
        let bank := { bank with recorded := bank.recorded ++ processedTransactions }
        if processedCount ≠ 0 then
          some (⟨transactionCounts, [], .ok (commitTransactions processingResults)⟩,
            { bank with committed := bank.committed ++ processedTransactions })
        else
          (processingResults.mapM unprocessedStatus).map fun statuses =>
            (⟨transactionCounts, [], .ok statuses⟩, bank)

/-- The reservation of a bundle: `select_and_accumulate_transaction_costs` with
nothing held back. -/
def reserve (ctx : Context Key) (costTracker : CostTracker Key) (txs : List (Tx Key)) :
    CostTracker Key × List (CostResult Key) × ℕ :=
  selectAndAccumulateTransactionCosts ctx.env ctx.limits costTracker txs
    (List.replicate txs.length (.ok ())) 0

def processAndRecordTransactionsWithPreResults (ctx : Context Key) (bank : Bank Key)
    (txs : List (Tx Key)) (outcomes : Outcomes txs.length) :
    Option (ProcessTransactionBatchOutput × Bank Key) :=
  let (costTracker, costResults, throttledCount) := reserve ctx bank.costTracker txs
  let bank := { bank with costTracker := costTracker }
  let release (statuses : Option (List CommitTransactionDetails)) (bank : Bank Key) : Bank Key :=
    { bank with
      costTracker := removeOrUpdateCosts ctx.env bank.costTracker costResults statuses }
  match findErr costResults with
  | some (index, err) =>
      some (⟨throttledCount, ⟨⟨0, 0, 0⟩, allRetryable txs.length false,
        .ok ((List.replicate txs.length (.notCommitted .commitCancelled)).set index
          (.notCommitted err))⟩⟩, release none bank)
  | none =>
      match findErr (tryLockBatch outcomes.lastLockAttempt outcomes.lockAttempts).toList with
      | some (_, err) =>
          some (⟨0, ⟨⟨0, 0, 0⟩,
            if err = .accountInUse then allRetryable txs.length true else [],
            .ok (List.replicate txs.length (.notCommitted err))⟩⟩, release none bank)
      | none =>
          (executeAndCommitTransactionsLocked bank txs outcomes).map fun (output, bank) =>
            (⟨throttledCount, output⟩, release output.commitTransactionsResult.toOption bank)

def processAndRecordAgedTransactions (ctx : Context Key) (bank : Bank Key) (txs : List (Tx Key))
    (maxAges : List MaxAge) (outcomes : Outcomes txs.length) :
    Option (ProcessTransactionBatchOutput × Bank Key) :=
  let preResults := (txs.zip maxAges).map fun (tx, maxAge) => preResult ctx tx maxAge
  match findErr (outcomes.checkTransactions preResults).toList with
  | some (index, err) =>
      some (⟨0, ⟨⟨0, 0, 0⟩, [],
        .ok ((List.replicate txs.length (.notCommitted .commitCancelled)).set index
          (.notCommitted err))⟩⟩, bank)
  | none => processAndRecordTransactionsWithPreResults ctx bank txs outcomes

/-! ## All or nothing -/

def IsCommitted : CommitTransactionDetails → Prop
  | .committed .. => True
  | .notCommitted _ => False

/-- Everything was recorded, committed and reported so. -/
structure All (bank : Bank Key) (txs : List (Tx Key))
    (result : Except PohRecorderError (List CommitTransactionDetails))
    (bank' : Bank Key) : Prop where
  recorded : bank'.recorded = bank.recorded ++ txs
  committed : bank'.committed = bank.committed ++ txs
  reported : ∃ statuses, result = .ok statuses ∧ statuses.length = txs.length ∧
    ∀ s ∈ statuses, IsCommitted s

/-- Nothing was. -/
structure Nothing (bank : Bank Key)
    (result : Except PohRecorderError (List CommitTransactionDetails))
    (bank' : Bank Key) : Prop where
  recorded : bank'.recorded = bank.recorded
  committed : bank'.committed = bank.committed
  reported : ∀ statuses, result = .ok statuses → ∀ s ∈ statuses, ¬ IsCommitted s

open List

/-- A list of statuses that some errors were put into. -/
theorem not_isCommitted_set {n index : ℕ} {e err : TransactionError} :
    ∀ s ∈ (replicate n (.notCommitted e)).set index (.notCommitted err), ¬ IsCommitted s := by
  intro s hs
  rcases mem_or_eq_of_mem_set hs with hs | rfl
  · rw [eq_of_mem_replicate hs]
    exact id
  · exact id

omit [DecidableEq Key] in
/-- With the locks taken: all, or the bank is left alone. -/
theorem executeAndCommitTransactionsLocked_cases (bank : Bank Key) (txs : List (Tx Key))
    (outcomes : Outcomes txs.length) :
    ∃ output bank', executeAndCommitTransactionsLocked bank txs outcomes = some (output, bank') ∧
      (All bank txs output.commitTransactionsResult bank' ∨
        bank' = bank ∧ (output.commitTransactionsResult.toOption = none ∨
          ∃ errs : List TransactionError, errs.length = txs.length ∧
            output.commitTransactionsResult = .ok (errs.map .notCommitted))) := by
  have hlen : outcomes.processingResults.toList.length = txs.length := Vector.length_toList
  unfold executeAndCommitTransactionsLocked
  generalize outcomes.processingResults.toList = results at hlen ⊢
  by_cases hany : results.any failed
  · -- a transaction failed: all are cancelled
    rw [if_pos hany]
    refine ⟨_, _, rfl, .inr ⟨rfl, .inr ⟨results.map notCommittedError, ?_, ?_⟩⟩⟩
    · rw [length_map, hlen]
    · rw [map_map]
      rfl
  · rw [if_neg hany]
    have hok : ∀ r ∈ results, ∃ tx, r = .ok tx := by
      intro r hr
      cases r with
      | error e => exact absurd (any_eq_true.mpr ⟨_, hr, rfl⟩) hany
      | ok tx => exact ⟨tx, rfl⟩
    have hprocessed : ((results.zip txs).filter fun (r, _) => r.isOk).map (·.2) = txs := by
      rw [filter_eq_self.mpr, map_snd_zip (Nat.le_of_eq hlen.symm)]
      rintro ⟨r, tx⟩ hr
      obtain ⟨tx, rfl⟩ := hok r (of_mem_zip hr).1
      rfl
    simp only [hprocessed]
    cases recordBundle outcomes.record txs with
    | error e => exact ⟨_, _, rfl, .inr ⟨rfl, .inl rfl⟩⟩
    | ok startingIndex =>
      by_cases hcount : results.countP Except.isOk = 0
      · -- only an empty bundle has nothing processed
        have hnil : results = [] := by
          rw [eq_nil_iff_forall_not_mem]
          intro r hr
          obtain ⟨tx, rfl⟩ := hok r hr
          exact countP_eq_zero.mp hcount _ hr rfl
        subst hnil
        have htxs : txs = [] := eq_nil_of_length_eq_zero hlen.symm
        subst htxs
        refine ⟨_, _, rfl, .inl ⟨rfl, (append_nil _).symm, [], rfl, rfl, ?_⟩⟩
        intro s hs
        cases hs
      · simp only [ne_eq, hcount, not_false_eq_true, if_true]
        refine ⟨_, _, rfl, .inl ⟨rfl, rfl, _, rfl, ?_, ?_⟩⟩
        · rw [commitTransactions, length_map, hlen]
        · intro s hs
          obtain ⟨r, hr, rfl⟩ := mem_map.mp hs
          obtain ⟨tx, rfl⟩ := hok r hr
          trivial

/-- The bundle was committed, or its reservation was taken back. -/
def AllOrNothing (bank : Bank Key) (txs : List (Tx Key)) (output : ProcessTransactionBatchOutput)
    (bank' : Bank Key) : Prop :=
  All bank txs output.executeAndCommitTransactionsOutput.commitTransactionsResult bank' ∨
    Nothing bank output.executeAndCommitTransactionsOutput.commitTransactionsResult bank' ∧
      bank'.costTracker.ReadsAs bank.costTracker

section Processing

variable (ctx : Context Key) (bank : Bank Key) (txs : List (Tx Key))
  (outcomes : Outcomes txs.length)

/-- What the reservation leaves: the accepted costs, added and announced. -/
theorem reserve_spec :
    ∃ results, reserve ctx bank.costTracker txs =
        (addTransactionsInFlight (addAll bank.costTracker (accepted results))
          (accepted results).length, results, txs.length - (accepted results).length) ∧
      results.length = txs.length := by
  rcases selectLoop_spec 0 bank.costTracker
    (computeTransactionCosts ctx.env ctx.limits txs (replicate txs.length (.ok ())))
    with ⟨results, hselect, hlen⟩
  refine ⟨results, ?_, ?_⟩
  · rw [reserve, selectAndAccumulateTransactionCosts, selectTransactionsPerCost, hselect]
  · rw [hlen, computeTransactionCosts, length_map, length_zip, length_replicate, Nat.min_self]

/-- After the checks: all, or nothing and then the reservation is removed, which restores
the tracker where the counters had room for it. -/
theorem processAndRecordTransactionsWithPreResults_cases :
    ∃ output bank',
      processAndRecordTransactionsWithPreResults ctx bank txs outcomes = some (output, bank') ∧
        (All bank txs output.executeAndCommitTransactionsOutput.commitTransactionsResult bank' ∨
          Nothing bank output.executeAndCommitTransactionsOutput.commitTransactionsResult bank' ∧
            (bank.costTracker.HasRoom (accepted (reserve ctx bank.costTracker txs).2.1) →
              bank'.costTracker.ReadsAs bank.costTracker)) := by
  obtain ⟨results, hreserve, hlen⟩ := reserve_spec ctx bank txs
  -- removing all costs restores the tracker
  have hrestored : bank.costTracker.HasRoom (accepted results) →
      (removeOrUpdateCosts ctx.env (addTransactionsInFlight (addAll bank.costTracker
        (accepted results)) (accepted results).length) results none).ReadsAs bank.costTracker := by
    intro hroom
    rw [removeOrUpdateCosts_none]
    exact readsAs_release hroom
  simp only [processAndRecordTransactionsWithPreResults, hreserve]
  split
  · -- the block has no room for one of the transactions
    refine ⟨_, _, rfl, .inr ⟨⟨rfl, rfl, ?_⟩, hrestored⟩⟩
    rintro statuses ⟨⟩
    exact not_isCommitted_set
  · split
    · -- an account stays locked
      refine ⟨_, _, rfl, .inr ⟨⟨rfl, rfl, ?_⟩, hrestored⟩⟩
      rintro statuses ⟨⟩ s hs
      rw [eq_of_mem_replicate hs]
      exact id
    · let reserved : Bank Key :=
        { bank with
          costTracker := addTransactionsInFlight (addAll bank.costTracker (accepted results))
            (accepted results).length }
      rcases executeAndCommitTransactionsLocked_cases reserved txs outcomes with
        ⟨output, bank', heq, hall | ⟨rfl, hnone | ⟨errs, herrs, hstatuses⟩⟩⟩
      · refine ⟨_, _, congrArg _ heq, .inl ?_⟩
        exact ⟨hall.recorded, hall.committed, hall.reported⟩
      · -- not recorded
        refine ⟨_, _, congrArg _ heq, .inr ⟨⟨rfl, rfl, ?_⟩, ?_⟩⟩
        · intro statuses hok
          rw [hok] at hnone
          cases hnone
        · rw [hnone]
          exact hrestored
      · -- a transaction failed
        refine ⟨_, _, congrArg _ heq, .inr ⟨⟨rfl, rfl, ?_⟩, ?_⟩⟩
        · intro statuses hok s hs
          rw [hstatuses] at hok
          cases hok
          obtain ⟨e, -, rfl⟩ := mem_map.mp hs
          exact id
        · rw [hstatuses, Except.toOption,
            removeOrUpdateCosts_notCommitted _ _ _ _ (herrs.trans hlen.symm)]
          exact hrestored

/-- For every outcome of every stage a bundle is committed as a whole or not at
all. In the second case the cost tracker reads as before, provided that no
saturating counter overflowed while the bundle was reserved. -/
theorem bundle_all_or_nothing (maxAges : List MaxAge) :
    ∃ output bank',
      processAndRecordAgedTransactions ctx bank txs maxAges outcomes = some (output, bank') ∧
        (All bank txs output.executeAndCommitTransactionsOutput.commitTransactionsResult bank' ∨
          Nothing bank output.executeAndCommitTransactionsOutput.commitTransactionsResult bank') ∧
        (bank.costTracker.HasRoom (accepted (reserve ctx bank.costTracker txs).2.1) →
          AllOrNothing bank txs output bank') := by
  simp only [processAndRecordAgedTransactions]
  split
  · -- a check failed: nothing was reserved
    refine ⟨_, _, rfl, .inr ⟨rfl, rfl, ?_⟩, fun _ =>
      .inr ⟨⟨rfl, rfl, ?_⟩, fun _ => rfl, rfl, rfl, rfl, rfl, rfl⟩⟩ <;>
    · rintro statuses ⟨⟩
      exact not_isCommitted_set
  · rcases processAndRecordTransactionsWithPreResults_cases ctx bank txs outcomes with
      ⟨output, bank', heq, hall | ⟨hnothing, hrestored⟩⟩
    · exact ⟨output, bank', heq, .inl hall, fun _ => .inl hall⟩
    · exact ⟨output, bank', heq, .inr hnothing, fun hroom => .inr ⟨hnothing, hrestored hroom⟩⟩

end Processing

/-! ## Bundles of transfers -/

/-- No address table, no reserved key, the default compute budget. -/
def plainContext : Context ℕ where
  env := defaultEnv
  epoch := 0
  slot := 0
  limits := fun _ => some (3000, 65536)
  checkReservedKeys := fun _ => .ok ()
  loadAddressesFromRef := fun _ => .ok ()

/-- The transfer is locked, and fails in execution. -/
def failingOutcomes : Outcomes 1 where
  checkTransactions := fun _ => #v[.ok ()]
  lockAttempts := []
  lastLockAttempt := #v[.ok ()]
  processingResults := #v[.ok ⟨.error (.other 0), 150, 300, 0⟩]
  record := .ok none

def emptyBank : Bank ℕ := ⟨defaultTracker, [], []⟩

/-- The same with its transaction counter at the top. -/
def fullBank : Bank ℕ := ⟨{ defaultTracker with transactionCount := -1 }, [], []⟩

/-- Two transfers are locked, and the second one fails in execution. -/
def secondFails : Outcomes 2 where
  checkTransactions := fun _ => #v[.ok (), .ok ()]
  lockAttempts := []
  lastLockAttempt := #v[.ok (), .ok ()]
  processingResults := #v[.ok ⟨.ok (), 150, 300, 0⟩, .ok ⟨.error (.other 0), 150, 300, 0⟩]
  record := .ok none

/-- The first transfer is not committed either. -/
theorem bundle_all_or_nothing_transfer :
    ∃ output bank',
      processAndRecordAgedTransactions plainContext emptyBank [transfer.tx, transfer.tx]
          [⟨0, 0⟩, ⟨0, 0⟩] secondFails = some (output, bank') ∧
        bank'.committed = [] ∧ bank'.costTracker.ReadsAs defaultTracker := by
  obtain ⟨output, bank', heq, -, hrestored⟩ := bundle_all_or_nothing plainContext emptyBank
    [transfer.tx, transfer.tx] secondFails [⟨0, 0⟩, ⟨0, 0⟩]
  have hroom : emptyBank.costTracker.HasRoom
      (accepted (reserve plainContext emptyBank.costTracker [transfer.tx, transfer.tx]).2.1) := by
    constructor
    · intro x hx
      cases x with
      | blockCost => exact absurd rfl hx
      | accountCost key =>
        have hcount : ([0, 1] : List ℕ).count key ≤ 2 := count_le_length
        change 0 + (([0, 1] : List ℕ).count key * 4339 + 0 +
          (([0, 1] : List ℕ).count key * 4339 + 0 + 0)) ≤ top 64
        unfold top
        omega
      | _ => decide
    · decide
  rcases hrestored hroom with hall | ⟨hnothing, hreads⟩
  · cases heq
    exact absurd (congrArg length hall.recorded) (by decide)
  · exact ⟨output, bank', heq, hnothing.committed, hreads⟩

/-- A saturated counter is not restored: one transfer was not counted, but is
taken out. -/
theorem bundle_not_restored :
    ¬ ∀ (bank : Bank ℕ) (txs : List (Tx ℕ)) (outcomes : Outcomes txs.length)
        (output : ProcessTransactionBatchOutput) (bank' : Bank ℕ),
      processAndRecordAgedTransactions plainContext bank txs [⟨0, 0⟩] outcomes =
          some (output, bank') →
        AllOrNothing bank txs output bank' := by
  intro h
  rcases h fullBank [transfer.tx] failingOutcomes _ _ rfl with hall | ⟨-, hreads⟩
  · exact absurd (congrArg length hall.recorded) (by decide)
  · exact absurd (hreads.counters .transactionCount) (by decide)

end Salsa.Bundle
