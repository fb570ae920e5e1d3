import Salsa.Cost.Reserve

/-!
# Salsa.Cost.Qos — reserving for a batch

`qos_service.rs`: a batch reserves block space for its transactions one by one,
under one lock of the cost tracker, and later settles what it reserved: the cost
of a committed transaction is updated, that of any other one is removed.
-/

namespace Salsa.Cost

open Saturating List

variable {Key : Type} [DecidableEq Key]

/-! ## `QosService` -/

/-- `TransactionError`: the errors this code names, and all others by a number. -/
inductive TransactionError where
  | accountInUse
  | commitCancelled
  | wouldExceedMaxBlockCostLimit
  | wouldExceedMaxVoteCostLimit
  | wouldExceedMaxAccountCostLimit
  | wouldExceedAccountDataBlockLimit
  | wouldExceedAccountDataTotalLimit
  | other (code : ℕ)
deriving DecidableEq, Repr

/-- `impl From<CostTrackerError> for TransactionError`. -/
def TransactionError.ofCostTrackerError : CostTrackerError → TransactionError
  | .wouldExceedBlockMaxLimit => .wouldExceedMaxBlockCostLimit
  | .wouldExceedVoteMaxLimit => .wouldExceedMaxVoteCostLimit
  | .wouldExceedAccountMaxLimit => .wouldExceedMaxAccountCostLimit
  | .wouldExceedAccountDataBlockLimit => .wouldExceedAccountDataBlockLimit
  | .wouldExceedAccountDataTotalLimit => .wouldExceedAccountDataTotalLimit

/-- The cost of a transaction, or why it is left out. -/
abbrev CostResult (Key : Type) := Except TransactionError (TransactionCost Key)

inductive CommitTransactionDetails where
  | committed (computeUnits : U64) (loadedAccountsDataSize : BitVec 32)
      (feePayerPostBalance : U64) (result : Except TransactionError Unit)
  | notCommitted (err : TransactionError)

/-- `compute_transaction_costs`; `limits` reads the compute budget instructions. -/
def computeTransactionCosts (env : Env) (limits : Tx Key → Option (BitVec 32 × BitVec 32))
    (transactions : List (Tx Key)) (preResults : List (Except TransactionError Unit)) :
    List (CostResult Key) :=
  (transactions.zip preResults).map fun (tx, preResult) =>
    preResult.map fun () => calculateCost env (limits tx) tx

/-- The loop of `select_transactions_per_cost`, with the number it included. -/
def selectLoop (reservationAmount : U64) :
    CostTracker Key → List (CostResult Key) → CostTracker Key × List (CostResult Key) × ℕ
  | costTracker, [] => (costTracker, [], 0)
  | costTracker, .error e :: rest =>
      let (costTracker, results, numIncluded) := selectLoop reservationAmount costTracker rest
      (costTracker, .error e :: results, numIncluded)
  | costTracker, .ok cost :: rest =>
      match tryAdd costTracker cost reservationAmount with
      | .ok (_, costTracker) =>
          let (costTracker, results, numIncluded) := selectLoop reservationAmount costTracker rest
          (costTracker, .ok cost :: results, numIncluded + 1)
      | .error e =>
          let (costTracker, results, numIncluded) := selectLoop reservationAmount costTracker rest
          (costTracker, .error (.ofCostTrackerError e) :: results, numIncluded)

def selectTransactionsPerCost (costTracker : CostTracker Key)
    (transactionsCosts : List (CostResult Key)) (reservationAmount : U64) :
    CostTracker Key × List (CostResult Key) × ℕ :=
  let (costTracker, selectResults, numIncluded) :=
    selectLoop reservationAmount costTracker transactionsCosts
  (addTransactionsInFlight costTracker numIncluded, selectResults, numIncluded)

/-- `select_and_accumulate_transaction_costs`, with the number of transactions
that were not selected. -/
def selectAndAccumulateTransactionCosts (env : Env)
    (limits : Tx Key → Option (BitVec 32 × BitVec 32)) (costTracker : CostTracker Key)
    (transactions : List (Tx Key)) (preResults : List (Except TransactionError Unit))
    (reservationAmount : U64) : CostTracker Key × List (CostResult Key) × ℕ :=
  let (costTracker, results, numIncluded) := selectTransactionsPerCost costTracker
    (computeTransactionCosts env limits transactions preResults) reservationAmount
  (costTracker, results, transactions.length - numIncluded)

/-- What is done with the reservation of one transaction. -/
def settle (env : Env) (costTracker : CostTracker Key) (txCost : TransactionCost Key) :
    CommitTransactionDetails → CostTracker Key
  | .committed computeUnits loadedAccountsDataSize _ _ =>
      updateExecutionCost costTracker txCost computeUnits
        (calculateLoadedAccountsDataSizeCost env loadedAccountsDataSize)
  | .notCommitted _ => remove costTracker txCost

/-- One round of `remove_or_update_recorded_transaction_costs`. -/
def settleResult (env : Env) :
    CostTracker Key × ℕ → CostResult Key × CommitTransactionDetails → CostTracker Key × ℕ
  | (costTracker, numIncluded), (.ok txCost, details) =>
      (settle env costTracker txCost details, numIncluded + 1)
  | (costTracker, numIncluded), (.error _, _) => (costTracker, numIncluded)

def removeOrUpdateRecordedTransactionCosts (env : Env) (costTracker : CostTracker Key)
    (transactionCostResults : List (CostResult Key))
    (transactionCommittedStatus : List CommitTransactionDetails) : CostTracker Key :=
  let (costTracker, numIncluded) :=
    (transactionCostResults.zip transactionCommittedStatus).foldl (settleResult env)
      (costTracker, 0)
  subTransactionsInFlight costTracker numIncluded

/-- One round of `remove_unrecorded_transaction_costs`. -/
def removeResult : CostTracker Key × ℕ → CostResult Key → CostTracker Key × ℕ
  | (costTracker, numIncluded), .ok txCost => (remove costTracker txCost, numIncluded + 1)
  | (costTracker, numIncluded), .error _ => (costTracker, numIncluded)

def removeUnrecordedTransactionCosts (costTracker : CostTracker Key)
    (transactionCostResults : List (CostResult Key)) : CostTracker Key :=
  let (costTracker, numIncluded) := transactionCostResults.foldl removeResult (costTracker, 0)
  subTransactionsInFlight costTracker numIncluded

def removeOrUpdateCosts (env : Env) (costTracker : CostTracker Key)
    (transactionCostResults : List (CostResult Key))
    (transactionCommittedStatus : Option (List CommitTransactionDetails)) : CostTracker Key :=
  match transactionCommittedStatus with
  | some transactionCommittedStatus =>
      removeOrUpdateRecordedTransactionCosts env costTracker transactionCostResults
        transactionCommittedStatus
  | none => removeUnrecordedTransactionCosts costTracker transactionCostResults

/-! ## What a batch adds and removes -/

def accepted (results : List (CostResult Key)) : List (TransactionCost Key) :=
  results.filterMap Except.toOption

omit [DecidableEq Key] in
@[simp] theorem accepted_ok (cost : TransactionCost Key) (results : List (CostResult Key)) :
    accepted (.ok cost :: results) = cost :: accepted results := rfl

def addAll (costTracker : CostTracker Key) (costs : List (TransactionCost Key)) : CostTracker Key :=
  costs.foldl (fun tracker cost => (addTransactionCost tracker cost).1) costTracker

def removeAll (costTracker : CostTracker Key) (costs : List (TransactionCost Key)) :
    CostTracker Key :=
  costs.foldl remove costTracker

/-- The loop adds what it accepts. -/
theorem selectLoop_spec (reservationAmount : U64) (costTracker : CostTracker Key)
    (costs : List (CostResult Key)) :
    ∃ results, selectLoop reservationAmount costTracker costs =
        (addAll costTracker (accepted results), results, (accepted results).length) ∧
      results.length = costs.length := by
  induction costs generalizing costTracker with
  | nil => exact ⟨[], rfl, rfl⟩
  | cons c costs ih =>
    cases c with
    | error e =>
      obtain ⟨results, heq, hlen⟩ := ih costTracker
      refine ⟨.error e :: results, ?_, congrArg (· + 1) hlen⟩
      rw [selectLoop, heq]
      rfl
    | ok cost =>
      rw [selectLoop, tryAdd]
      cases wouldFit costTracker cost reservationAmount with
      | error e =>
        obtain ⟨results, heq, hlen⟩ := ih costTracker
        refine ⟨.error (.ofCostTrackerError e) :: results, ?_, congrArg (· + 1) hlen⟩
        simp only [heq]
        rfl
      | ok _ =>
        obtain ⟨results, heq, hlen⟩ := ih (addTransactionCost costTracker cost).1
        refine ⟨.ok cost :: results, ?_, congrArg (· + 1) hlen⟩
        simp only [heq]
        rfl

/-- Without statuses all accepted costs are removed. -/
theorem removeOrUpdateCosts_none (env : Env) (costTracker : CostTracker Key)
    (results : List (CostResult Key)) :
    removeOrUpdateCosts env costTracker results none =
      subTransactionsInFlight (removeAll costTracker (accepted results))
        (accepted results).length := by
  have hfold : ∀ (results : List (CostResult Key)) (tracker : CostTracker Key) (n : ℕ),
      results.foldl removeResult (tracker, n) =
        (removeAll tracker (accepted results), n + (accepted results).length) := by
    intro results
    induction results with
    | nil =>
      intro tracker n
      rfl
    | cons r results ih =>
      intro tracker n
      cases r with
      | error e => exact ih tracker n
      | ok cost =>
        rw [foldl_cons, removeResult, ih, accepted_ok, length_cons,
          Nat.add_right_comm, Nat.add_assoc]
        rfl
  rw [removeOrUpdateCosts, removeUnrecordedTransactionCosts, hfold, Nat.zero_add]

/-- Neither are they kept if no status says that a transaction was committed. -/
theorem removeOrUpdateCosts_notCommitted (env : Env) (costTracker : CostTracker Key)
    (results : List (CostResult Key)) (errs : List TransactionError)
    (hlen : errs.length = results.length) :
    removeOrUpdateCosts env costTracker results (some (errs.map .notCommitted)) =
      removeOrUpdateCosts env costTracker results none := by
  have hfold : ∀ (results : List (CostResult Key)) (errs : List TransactionError)
      (acc : CostTracker Key × ℕ), errs.length = results.length →
      (results.zip (errs.map .notCommitted)).foldl (settleResult env) acc =
        results.foldl removeResult acc := by
    intro results
    induction results with
    | nil =>
      intro errs acc hlen
      rfl
    | cons r results ih =>
      intro errs acc hlen
      cases errs with
      | nil => cases hlen
      | cons e errs =>
        rw [map_cons, zip_cons_cons, foldl_cons, foldl_cons, ih errs _ (Nat.succ.inj hlen)]
        cases r with
        | ok cost => rfl
        | error e => rfl
  rw [removeOrUpdateCosts, removeOrUpdateCosts, removeOrUpdateRecordedTransactionCosts,
    removeUnrecordedTransactionCosts, hfold results errs _ hlen]

/-! ## Restoring the tracker -/

/-- Two trackers with the same limits and the same readings; an account without
an entry reads as zero. -/
structure CostTracker.ReadsAs (costTracker other : CostTracker Key) : Prop where
  counters : ∀ x, costTracker.read x = other.read x
  inFlight : costTracker.inFlightTransactionCount = other.inFlightTransactionCount
  accountCostLimit : costTracker.accountCostLimit = other.accountCostLimit
  blockCostLimit : costTracker.blockCostLimit = other.blockCostLimit
  voteCostLimit : costTracker.voteCostLimit = other.voteCostLimit
  originalVoteCostLimit : costTracker.originalVoteCostLimit = other.originalVoteCostLimit

/-- What some costs add to a counter. -/
def chargeSum (costs : List (TransactionCost Key)) (x : Counter Key) : ℕ :=
  (costs.map fun c => c.charge c.sum.toNat x).sum

@[simp] theorem chargeSum_cons (c : TransactionCost Key) (costs : List (TransactionCost Key))
    (x : Counter Key) : chargeSum (c :: costs) x = c.charge c.sum.toNat x + chargeSum costs x := by
  simp [chargeSum]

/-- The saturating counters have room for some costs. The block cost is not one
of them: it wraps. -/
structure CostTracker.HasRoom (costTracker : CostTracker Key)
    (costs : List (TransactionCost Key)) : Prop where
  counters : ∀ x, x ≠ .blockCost → costTracker.read x + chargeSum costs x ≤ top 64
  inFlight : costTracker.inFlightTransactionCount.toNat + costs.length ≤ top 64

variable {self : CostTracker Key} {costs : List (TransactionCost Key)} {x : Counter Key}

theorem read_addAll (h : self.read x + chargeSum costs x ≤ top 64) :
    (addAll self costs).read x = self.read x + chargeSum costs x := by
  induction costs generalizing self with
  | nil => rfl
  | cons c costs ih =>
    rw [chargeSum_cons] at h ⊢
    have hadd : (addTransactionCost self c).1.read x = self.read x + c.charge c.sum.toNat x :=
      read_addTransactionCost (by omega)
    change (addAll (addTransactionCost self c).1 costs).read x = _
    rw [ih (by omega), hadd]
    omega

theorem read_removeAll (h : chargeSum costs x ≤ self.read x) :
    (removeAll self costs).read x = self.read x - chargeSum costs x := by
  induction costs generalizing self with
  | nil => rfl
  | cons c costs ih =>
    rw [chargeSum_cons] at h ⊢
    have hremove : (remove self c).read x = self.read x - c.charge c.sum.toNat x :=
      read_remove (by omega)
    change (removeAll (remove self c) costs).read x = _
    rw [ih (by omega), hremove]
    omega

variable (self : CostTracker Key)

/-- The block cost wraps there and back. -/
theorem blockCost_removeAll_addAll (costs : List (TransactionCost Key)) :
    (removeAll (addAll self costs) costs).blockCost = self.blockCost := by
  have hadd : (addAll self costs).blockCost =
      (costs.map TransactionCost.sum).foldl (· + ·) self.blockCost := by
    rw [foldl_map]
    exact (foldl_hom CostTracker.blockCost fun _ _ => rfl).symm
  have hremove : (removeAll (addAll self costs) costs).blockCost =
      (costs.map TransactionCost.sum).foldl (· - ·) (addAll self costs).blockCost := by
    rw [foldl_map]
    exact (foldl_hom CostTracker.blockCost fun _ _ => rfl).symm
  rw [hremove, hadd, foldl_sub_foldl_add]

omit [DecidableEq Key] in
/-- What no single operation changes stays over all of them. -/
theorem foldl_preserves {β : Type} (φ : CostTracker Key → β)
    {f : CostTracker Key → TransactionCost Key → CostTracker Key} (hf : ∀ t c, φ (f t c) = φ t)
    (costs : List (TransactionCost Key)) : φ (costs.foldl f self) = φ self := by
  induction costs generalizing self with
  | nil => rfl
  | cons c costs ih => exact (ih (f self c)).trans (hf self c)

variable {self} in
/-- Adding, announcing, removing and releasing leaves the readings as they were. -/
theorem readsAs_release (h : self.HasRoom costs) :
    (subTransactionsInFlight
      (removeAll (addTransactionsInFlight (addAll self costs) costs.length) costs)
      costs.length).ReadsAs self := by
  -- The announcement commutes with everything but itself.
  have hcomm : ∀ (costs : List (TransactionCost Key)) (tracker : CostTracker Key) (n : U64),
      removeAll { tracker with inFlightTransactionCount := n } costs =
        { removeAll tracker costs with inFlightTransactionCount := n } := by
    intro costs
    induction costs with
    | nil =>
      intro tracker n
      rfl
    | cons c costs ih =>
      intro tracker n
      exact ih (remove tracker c) n
  have hadd₅ : (addAll self costs).inFlightTransactionCount = self.inFlightTransactionCount :=
    foldl_preserves self (·.inFlightTransactionCount)
      (f := fun t c => (addTransactionCost t c).1) (fun _ _ => rfl) costs
  have hsame : ∀ φ : CostTracker Key → U64, (∀ t c, φ (addTransactionCost t c).1 = φ t) →
      (∀ t c, φ (remove t c) = φ t) → φ (removeAll (addAll self costs) costs) = φ self :=
    fun φ ha hr => (foldl_preserves _ φ hr costs).trans (foldl_preserves self φ ha costs)
  rw [addTransactionsInFlight, hcomm]
  constructor
  case counters =>
    intro x
    change (removeAll (addAll self costs) costs).read x = self.read x
    by_cases hx : x = .blockCost
    · subst hx
      exact congrArg BitVec.toNat (blockCost_removeAll_addAll self costs)
    · have hadd := read_addAll (h.counters x hx)
      rw [read_removeAll (by omega), hadd, Nat.add_sub_cancel]
  case inFlight =>
    apply BitVec.eq_of_toNat_eq
    have hroom := h.inFlight
    have hlt := self.inFlightTransactionCount.isLt
    simp only [subTransactionsInFlight, hadd₅, toNat_clamp, Nat.min_eq_right hroom,
      BitVec.toNat_ofNat, Nat.add_sub_cancel]
    exact Nat.mod_eq_of_lt hlt
  case accountCostLimit => exact hsame (·.accountCostLimit) (fun _ _ => rfl) fun _ _ => rfl
  case blockCostLimit => exact hsame (·.blockCostLimit) (fun _ _ => rfl) fun _ _ => rfl
  case voteCostLimit => exact hsame (·.voteCostLimit) (fun _ _ => rfl) fun _ _ => rfl
  case originalVoteCostLimit =>
    exact hsame (·.originalVoteCostLimit) (fun _ _ => rfl) fun _ _ => rfl

end Salsa.Cost
