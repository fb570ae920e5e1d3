import Mathlib.Algebra.Order.BigOperators.Group.List
import Mathlib.Algebra.Order.Group.Nat
import Mathlib.Data.List.Count
import Salsa.Cost.Model

/-!
# Salsa.Cost.Tracker — the block's cost counters, by the leader and by replay

`cost_tracker.rs`. Two paths fill the same counters for the transactions of a
recorded block: the leader calls `add_executed_transaction_costs` after
executing it, every other validator replays it and adds each transaction's
`TransactionCost` (`check_block_cost_limits`).

* `checkBlockCostLimits_eq` — when replay accepts the block, it has added every
  transaction cost, so `replayCosts` is what it accounts.
* `executedCosts_agree_iff` — short of overflow the two paths agree exactly when no
  transaction but a vote is charged for anything beside its executed units, the
  votes use 3428 units on average, also those that write one account, and the
  loaded sizes add up to the allocated ones (`Alike`).
* `leader_undercounts` — short of overflow they do not: every non-vote
  transaction costs replay at least its signatures more.
-/

namespace Salsa.Cost

open Saturating List Function

variable {Key : Type} [DecidableEq Key]

/-! ## The tracker -/

structure CostTracker (Key : Type) where
  accountCostLimit : U64
  blockCostLimit : U64
  voteCostLimit : U64
  originalVoteCostLimit : U64
  costByWritableAccounts : Key → Option U64
  /-- an atomic, added to with `fetch_add` -/
  blockCost : U64
  voteCost : U64
  transactionCount : U64
  allocatedAccountsDataSize : U64
  transactionSignatureCount : U64
  secp256k1InstructionSignatureCount : U64
  ed25519InstructionSignatureCount : U64
  secp256r1InstructionSignatureCount : U64
  inFlightTransactionCount : U64

inductive CostTrackerError where
  | wouldExceedBlockMaxLimit
  | wouldExceedVoteMaxLimit
  | wouldExceedAccountMaxLimit
  | wouldExceedAccountDataBlockLimit
  | wouldExceedAccountDataTotalLimit
deriving DecidableEq, Repr

structure UpdatedCosts where
  updatedBlockCost : U64
  updatedCostliestAccountCost : U64
deriving DecidableEq, Repr

/-- `entry(key).or_insert(0)`, then a saturating addition. -/
def addAccountCost (costs : Key → Option U64) (key : Key) (cost : U64) : Key → Option U64 :=
  Function.update costs key (some (saturatingAdd ((costs key).getD 0) cost))

/-- `add_transaction_execution_cost`, with the costliest account it updated. -/
def addTransactionExecutionCost (self : CostTracker Key) (txCost : TransactionCost Key)
    (adjustment : U64) : CostTracker Key × U64 :=
  let accounts := txCost.writableAccounts.foldl
    (fun (costs, costliest) key =>
      let accountCost := saturatingAdd ((costs key).getD 0) adjustment
      (addAccountCost costs key adjustment,
        if costliest < accountCost then accountCost else costliest))
    (self.costByWritableAccounts, (0 : U64))
  ({ self with
      costByWritableAccounts := accounts.1
      blockCost := self.blockCost + adjustment
      voteCost :=
        if txCost.isSimpleVote then saturatingAdd self.voteCost adjustment else self.voteCost },
    accounts.2)

def addTransactionCost (self : CostTracker Key) (txCost : TransactionCost Key) :
    CostTracker Key × U64 :=
  addTransactionExecutionCost { self with
    allocatedAccountsDataSize :=
      saturatingAdd self.allocatedAccountsDataSize txCost.allocatedAccountsDataSize
    transactionCount := saturatingAdd self.transactionCount 1
    transactionSignatureCount :=
      saturatingAdd self.transactionSignatureCount txCost.numTransactionSignatures
    secp256k1InstructionSignatureCount :=
      saturatingAdd self.secp256k1InstructionSignatureCount txCost.numSecp256k1InstructionSignatures
    ed25519InstructionSignatureCount :=
      saturatingAdd self.ed25519InstructionSignatureCount txCost.numEd25519InstructionSignatures
    secp256r1InstructionSignatureCount :=
      saturatingAdd self.secp256r1InstructionSignatureCount
        txCost.numSecp256r1InstructionSignatures } txCost txCost.sum

/-- `would_fit`, the checks in the source's order. -/
def wouldFit (self : CostTracker Key) (txCost : TransactionCost Key)
    (blockCostLimitReservation : U64) : Except CostTrackerError Unit :=
  let cost := txCost.sum
  if txCost.isSimpleVote ∧ self.voteCostLimit < saturatingAdd self.voteCost cost then
    .error .wouldExceedVoteMaxLimit
  else if saturatingSub self.blockCostLimit blockCostLimitReservation <
      saturatingAdd self.blockCost cost then
    .error .wouldExceedBlockMaxLimit
  else if self.accountCostLimit < cost then
    .error .wouldExceedAccountMaxLimit
  else if maxBlockAccountsDataSizeDelta <
      saturatingAdd self.allocatedAccountsDataSize txCost.allocatedAccountsDataSize then
    .error .wouldExceedAccountDataBlockLimit
  else if txCost.writableAccounts.any fun key =>
      (self.costByWritableAccounts key).any fun chainedCost =>
        self.accountCostLimit < saturatingAdd chainedCost cost then
    .error .wouldExceedAccountMaxLimit
  else .ok ()

def tryAdd (self : CostTracker Key) (txCost : TransactionCost Key)
    (blockCostLimitReservation : U64) :
    Except CostTrackerError (UpdatedCosts × CostTracker Key) :=
  match wouldFit self txCost blockCostLimitReservation with
  | .error e => .error e
  | .ok () =>
      let (tracker, costliest) := addTransactionCost self txCost
      .ok (⟨tracker.blockCost, costliest⟩, tracker)

def checkBlockCostLimits : CostTracker Key → List (TransactionCost Key) →
    Except CostTrackerError (CostTracker Key)
  | tracker, [] => .ok tracker
  | tracker, txCost :: rest =>
      match tryAdd tracker txCost 0 with
      | .error e => .error e
      | .ok (_, tracker) => checkBlockCostLimits tracker rest

/-! ## The two paths -/

/-- A committed transaction with its executed units and its loaded size. -/
structure Executed (Key : Type) where
  tx : Tx Key
  computeUnits : U64
  loadedAccountsDataSize : BitVec 32

/-- One round of `add_executed_transaction_costs`. -/
def addExecutedTransactionCost (self : CostTracker Key) (e : Executed Key) : CostTracker Key :=
  { self with
    transactionCount := saturatingAdd self.transactionCount 1
    allocatedAccountsDataSize :=
      saturatingAdd self.allocatedAccountsDataSize (e.loadedAccountsDataSize.zeroExtend 64)
    blockCost := self.blockCost + e.computeUnits
    transactionSignatureCount :=
      saturatingAdd self.transactionSignatureCount e.tx.numTransactionSignatures
    secp256k1InstructionSignatureCount :=
      saturatingAdd self.secp256k1InstructionSignatureCount
        e.tx.signatureDetails.numSecp256k1InstructionSignatures
    ed25519InstructionSignatureCount :=
      saturatingAdd self.ed25519InstructionSignatureCount
        e.tx.signatureDetails.numEd25519InstructionSignatures
    secp256r1InstructionSignatureCount :=
      saturatingAdd self.secp256r1InstructionSignatureCount
        e.tx.signatureDetails.numSecp256r1InstructionSignatures
    voteCost :=
      if e.tx.isSimpleVoteTransaction then saturatingAdd self.voteCost e.computeUnits
      else self.voteCost
    costByWritableAccounts := e.tx.accountKeys.foldl
      (fun costs (key, writable) =>
        if writable then addAccountCost costs key e.computeUnits else costs)
      self.costByWritableAccounts }

/-- `add_executed_transaction_costs`: the leader's path. -/
def addExecutedTransactionCosts (self : CostTracker Key) (executed : List (Executed Key)) :
    CostTracker Key :=
  executed.foldl addExecutedTransactionCost self

/-- The `TransactionCost` that replay computes (`get_transaction_costs`). -/
def Executed.cost (env : Env) (e : Executed Key) : TransactionCost Key :=
  calculateCostForExecutedTransaction env e.tx e.computeUnits e.loadedAccountsDataSize

/-- Replay's path, limits ignored. -/
def replayCosts (env : Env) (self : CostTracker Key) (executed : List (Executed Key)) :
    CostTracker Key :=
  executed.foldl (fun tracker e => (addTransactionCost tracker (e.cost env)).1) self

/-- A block that replay accepts is accounted by `replayCosts`, and it never costs more
than the limit. -/
theorem checkBlockCostLimits_eq {env : Env} {t t' : CostTracker Key} {l : List (Executed Key)}
    (h : checkBlockCostLimits t (l.map (Executed.cost env)) = .ok t') :
    t' = replayCosts env t l ∧
      (t.blockCost ≤ t.blockCostLimit → t'.blockCost ≤ t.blockCostLimit) := by
  induction l generalizing t with
  | nil =>
    cases h
    exact ⟨rfl, id⟩
  | cons e l ih =>
    rw [map_cons, checkBlockCostLimits, tryAdd] at h
    cases hfit : wouldFit t (e.cost env) 0 with
    | error err =>
      rw [hfit] at h
      cases h
    | ok _ =>
      rw [hfit] at h
      obtain ⟨heq, hle⟩ := ih h
      refine ⟨heq, fun _ => hle ?_⟩
      simp only [wouldFit] at hfit
      split_ifs at hfit with _ hblock
      change t.blockCost + (e.cost env).sum ≤ t.blockCostLimit
      -- the sum wraps where the check saturates
      have hzero : (0 : U64).toNat = 0 := rfl
      rw [BitVec.lt_def, toNat_saturatingSub, toNat_saturatingAdd, top] at hblock
      rw [BitVec.le_def, BitVec.toNat_add]
      omega

/-! ## What the paths add -/

def chargeAll (costs : Key → Option U64) (charges : List (Key × U64)) : Key → Option U64 :=
  charges.foldl (fun costs c => addAccountCost costs c.1 c.2) costs

/-- The charges of one transaction: an amount for every writable occurrence. -/
def charges (tx : Tx Key) (amount : U64) : List (Key × U64) :=
  (tx.accountKeys.filter (·.2)).map fun e => (e.1, amount)

def amounts (k : Key) (cs : List (Key × U64)) : List U64 :=
  (cs.filter (·.1 = k)).map (·.2)

theorem chargeAll_apply (costs : Key → Option U64) (cs : List (Key × U64)) (k : Key) :
    chargeAll costs cs k =
      if amounts k cs = [] then costs k
      else some ((amounts k cs).foldl saturatingAdd ((costs k).getD 0)) := by
  induction cs generalizing costs with
  | nil => rfl
  | cons c cs ih =>
    obtain ⟨key, amount⟩ := c
    rw [chargeAll, foldl_cons]
    rw [← chargeAll, ih]
    by_cases hk : key = k
    · subst hk
      have hcons : amounts key ((key, amount) :: cs) = amount :: amounts key cs := by
        simp [amounts]
      rw [hcons, addAccountCost, update_self]
      by_cases hnil : amounts key cs = []
      · simp [hnil]
      · simp [hnil]
    · have hcons : amounts k ((key, amount) :: cs) = amounts k cs := by
        simp [amounts, hk]
      rw [hcons, addAccountCost, update_of_ne (Ne.symm hk)]

/-- The leader charges the executed units. -/
theorem leader_accounts_step (t : CostTracker Key) (e : Executed Key) :
    (addExecutedTransactionCost t e).costByWritableAccounts =
      chargeAll t.costByWritableAccounts (charges e.tx e.computeUnits) := by
  simp only [addExecutedTransactionCost, chargeAll, charges]
  generalize t.costByWritableAccounts = costs
  induction e.tx.accountKeys generalizing costs with
  | nil => rfl
  | cons a rest ih =>
    obtain ⟨key, writable⟩ := a
    cases writable with
    | false => simpa using ih costs
    | true => simpa using ih (addAccountCost costs key e.computeUnits)

/-- Replay charges the whole cost. -/
theorem replay_accounts_step (t : CostTracker Key) (c : TransactionCost Key) :
    (addTransactionCost t c).1.costByWritableAccounts =
      chargeAll t.costByWritableAccounts (charges c.tx c.sum) := by
  simp only [addTransactionCost, addTransactionExecutionCost, TransactionCost.writableAccounts,
    chargeAll, charges, foldl_map]
  exact (foldl_hom Prod.fst fun _ _ => rfl).symm

/-- Charging one list after the other. -/
theorem foldl_chargeAll {α : Type} (f : α → List (Key × U64)) (costs : Key → Option U64)
    (l : List α) :
    l.foldl (fun costs e => chargeAll costs (f e)) costs = chargeAll costs (l.flatMap f) := by
  induction l generalizing costs with
  | nil => rfl
  | cons e l ih => rw [foldl_cons, ih, flatMap_cons, chargeAll, chargeAll, chargeAll, foldl_append]

/-- The amounts for `k` sum up to its writable occurrences times the amount. -/
theorem total_amounts (f : Executed Key → U64) (k : Key) (l : List (Executed Key)) :
    total (amounts k (l.flatMap fun e => charges e.tx (f e))) =
      (l.map fun e => e.tx.accountKeys.count (k, true) * (f e).toNat).sum := by
  have hone : ∀ (keys : List (Key × Bool)) (amount : U64),
      total (amounts k ((keys.filter (·.2)).map fun e => (e.1, amount))) =
        keys.count (k, true) * amount.toNat := by
    intro keys amount
    induction keys with
    | nil => simp [amounts]
    | cons a keys ih =>
      obtain ⟨key, writable⟩ := a
      cases writable with
      | false => simpa using ih
      | true =>
        by_cases hk : key = k
        · subst hk
          simp only [amounts] at ih
          simp [amounts, ih, Nat.add_mul, Nat.add_comm]
        · simpa [amounts, hk] using ih
  induction l with
  | nil => simp [amounts]
  | cons e l ih =>
    have happ : amounts k ((e :: l).flatMap fun e => charges e.tx (f e)) =
        amounts k (charges e.tx (f e)) ++ amounts k (l.flatMap fun e => charges e.tx (f e)) := by
      simp [amounts]
    rw [happ, map_cons, sum_cons, ← ih, ← hone]
    simp [total, charges]

/-- Who is charged does not depend on the amounts. -/
theorem amounts_eq_nil_iff (f : Executed Key → U64) (k : Key) (l : List (Executed Key)) :
    amounts k (l.flatMap fun e => charges e.tx (f e)) = [] ↔
      ∀ e ∈ l, (k, true) ∉ e.tx.accountKeys := by
  simp only [amounts, charges, map_eq_nil_iff, filter_eq_nil_iff, mem_flatMap,
    mem_map, mem_filter, decide_eq_true_eq]
  constructor
  · intro h e he hk
    exact h (k, f e) ⟨e, he, (k, true), ⟨hk, rfl⟩, rfl⟩ rfl
  · rintro h c ⟨e, he, ⟨key, writable⟩, ⟨hk, rfl⟩, rfl⟩ rfl
    exact h e he hk

/-! ## Counter by counter -/

/-- What the leader adds to the vote cost. -/
def Executed.voteUnits (e : Executed Key) : U64 :=
  if e.tx.isSimpleVoteTransaction then e.computeUnits else 0

/-- What replay adds to the vote cost. -/
def Executed.voteCost (e : Executed Key) : U64 :=
  if e.tx.isSimpleVoteTransaction then simpleVoteUsageCost else 0

/-- All charges to `k`, one for each writable occurrence. -/
def accountTotal (f : Executed Key → U64) (k : Key) (l : List (Executed Key)) : ℕ :=
  (l.map fun e => e.tx.accountKeys.count (k, true) * (f e).toNat).sum

section Counters

variable (env : Env) (t : CostTracker Key) (l : List (Executed Key))

open CostTracker

theorem leader_blockCost : (addExecutedTransactionCosts t l).blockCost.toNat =
    (t.blockCost.toNat + total (l.map Executed.computeUnits)) % 2 ^ 64 :=
  toNat_counter_add blockCost (fun _ _ => rfl) t l

theorem replay_blockCost : (replayCosts env t l).blockCost.toNat =
    (t.blockCost.toNat + total (l.map fun e => (e.cost env).sum)) % 2 ^ 64 :=
  toNat_counter_add blockCost (fun _ _ => rfl) t l

theorem leader_voteCost : (addExecutedTransactionCosts t l).voteCost.toNat =
    min (top 64) (t.voteCost.toNat + total (l.map Executed.voteUnits)) := by
  refine toNat_counter_saturatingAdd voteCost (fun t e => ?_) t l
  unfold Executed.voteUnits addExecutedTransactionCost
  cases e.tx.isSimpleVoteTransaction <;> simp

theorem replay_voteCost : (replayCosts env t l).voteCost.toNat =
    min (top 64) (t.voteCost.toNat + total (l.map Executed.voteCost)) := by
  refine toNat_counter_saturatingAdd voteCost (fun t e => ?_) t l
  unfold Executed.voteCost Executed.cost addTransactionCost addTransactionExecutionCost
  cases h : e.tx.isSimpleVoteTransaction with
  | false => simp [h]
  | true => simp [h, calculateCostForExecutedTransaction, TransactionCost.sum,
      TransactionCost.isSimpleVote]

theorem leader_allocated : (addExecutedTransactionCosts t l).allocatedAccountsDataSize.toNat =
    min (top 64) (t.allocatedAccountsDataSize.toNat +
      total (l.map fun e => e.loadedAccountsDataSize.zeroExtend 64)) :=
  toNat_counter_saturatingAdd allocatedAccountsDataSize (fun _ _ => rfl) t l

theorem replay_allocated : (replayCosts env t l).allocatedAccountsDataSize.toNat =
    min (top 64) (t.allocatedAccountsDataSize.toNat +
      total (l.map fun e => (e.cost env).allocatedAccountsDataSize)) :=
  toNat_counter_saturatingAdd allocatedAccountsDataSize (fun _ _ => rfl) t l

theorem leader_accounts : (addExecutedTransactionCosts t l).costByWritableAccounts =
    chargeAll t.costByWritableAccounts (l.flatMap fun e => charges e.tx e.computeUnits) := by
  rw [← foldl_chargeAll]
  exact (foldl_hom costByWritableAccounts fun t e => (leader_accounts_step t e).symm).symm

theorem replay_accounts : (replayCosts env t l).costByWritableAccounts =
    chargeAll t.costByWritableAccounts (l.flatMap fun e => charges e.tx (e.cost env).sum) := by
  rw [← foldl_chargeAll]
  refine (foldl_hom costByWritableAccounts fun t e => ?_).symm
  rw [replay_accounts_step, Executed.cost, calculateCost_tx]

/-- Charging two amounts leaves the same maps when every account's capped total
is the same. -/
theorem chargeAll_eq_iff (costs : Key → Option U64) (f g : Executed Key → U64) :
    chargeAll costs (l.flatMap fun e => charges e.tx (f e)) =
        chargeAll costs (l.flatMap fun e => charges e.tx (g e)) ↔
      ∀ k, min (top 64) (((costs k).getD 0).toNat + accountTotal f k l) =
        min (top 64) (((costs k).getD 0).toNat + accountTotal g k l) := by
  rw [funext_iff]
  refine forall_congr' fun k => ?_
  rw [chargeAll_apply, chargeAll_apply]
  unfold accountTotal
  rw [← total_amounts f, ← total_amounts g]
  by_cases hnil : ∀ e ∈ l, (k, true) ∉ e.tx.accountKeys
  · -- nobody writes `k`: both totals are empty
    rw [(amounts_eq_nil_iff f k l).mpr hnil, (amounts_eq_nil_iff g k l).mpr hnil]
    simp
  · rw [if_neg (mt (amounts_eq_nil_iff f k l).mp hnil),
      if_neg (mt (amounts_eq_nil_iff g k l).mp hnil), Option.some_inj, ← BitVec.toNat_inj,
      toNat_foldl_saturatingAdd, toNat_foldl_saturatingAdd]

end Counters

/-! ## When they agree -/

/-- What replay charges for beside the executed units. -/
def Executed.surcharge (env : Env) (e : Executed Key) : ℕ :=
  let details := e.tx.signatureDetails
  details.numTransactionSignatures.toNat * 720 +
    details.numSecp256k1InstructionSignatures.toNat * 6690 +
    details.numEd25519InstructionSignatures.toNat *
      (if env.ed25519PrecompileVerifyStrict then 2400 else 2280) +
    details.numSecp256r1InstructionSignatures.toNat *
      (if env.enableSecp256r1Precompile then 4800 else 0) +
    300 * e.tx.numWriteLocks.toNat + e.tx.instructionDataLen.toNat / 4 +
    (env.memoryUsageCost e.loadedAccountsDataSize).toNat

/-- What replay charges for a transaction. -/
def Executed.price (env : Env) (e : Executed Key) : ℕ :=
  if e.tx.isSimpleVoteTransaction then 3428 else e.surcharge env + e.computeUnits.toNat

/-- The size that a transaction allocates, for replay; a vote allocates nothing. -/
def Executed.allocated (env : Env) (e : Executed Key) : ℕ :=
  if e.tx.isSimpleVoteTransaction then 0
  else (calculateAllocatedAccountsDataSize env e.tx.programInstructions).toNat

/-- Replay charges a transaction for nothing but its executed units. -/
structure Bare (env : Env) (e : Executed Key) : Prop where
  signatures : e.tx.signatureDetails.numTransactionSignatures = 0
  secp256k1 : e.tx.signatureDetails.numSecp256k1InstructionSignatures = 0
  ed25519 : e.tx.signatureDetails.numEd25519InstructionSignatures = 0
  secp256r1 : env.enableSecp256r1Precompile →
    e.tx.signatureDetails.numSecp256r1InstructionSignatures = 0
  writeLocks : e.tx.numWriteLocks = 0
  data : e.tx.instructionDataLen < 4
  loaded : env.memoryUsageCost e.loadedAccountsDataSize = 0

/-- The transactions for which both paths add the same. -/
structure Alike (env : Env) (l : List (Executed Key)) : Prop where
  bare : ∀ e ∈ l, e.tx.isSimpleVoteTransaction = false → Bare env e
  votes : total (l.map Executed.voteUnits) = total (l.map Executed.voteCost)
  accounts : ∀ k, accountTotal Executed.voteUnits k l = accountTotal Executed.voteCost k l
  sizes : (l.map fun e => e.loadedAccountsDataSize.toNat).sum = (l.map (Executed.allocated env)).sum

/-- No cost counter overflows when `amount` is charged for every transaction. -/
structure InRange (t : CostTracker Key) (l : List (Executed Key)) (amount : Executed Key → ℕ) :
    Prop where
  block : t.blockCost.toNat + (l.map amount).sum < 2 ^ 64
  votes : t.voteCost.toNat +
    (l.map fun e => if e.tx.isSimpleVoteTransaction then amount e else 0).sum < 2 ^ 64
  accounts : ∀ k, ((t.costByWritableAccounts k).getD 0).toNat +
    (l.map fun e => e.tx.accountKeys.count (k, true) * amount e).sum < 2 ^ 64

section Amounts

omit [DecidableEq Key]

variable (env : Env) {l : List (Executed Key)} (e : Executed Key)

/-- Capping every step of the sum is capping the sum. -/
theorem Executed.toNat_cost_sum : (e.cost env).sum.toNat = min (top 64) (e.price env) := by
  rw [TransactionCost.toNat_sum]
  unfold Executed.cost Executed.price calculateCostForExecutedTransaction
  split_ifs
  · rfl
  have hsignatures := toNat_getSignatureCost env e.tx
  have hlocks := toNat_saturatingMul writeLockUnits e.tx.numWriteLocks
  have hdata := toNat_getInstructionsDataCost e.tx
  have hlock : writeLockUnits.toNat = 300 := rfl
  show min (top 64) ((getSignatureCost env e.tx).toNat +
    (saturatingMul writeLockUnits e.tx.numWriteLocks).toNat + (getInstructionsDataCost e.tx).toNat +
    e.computeUnits.toNat + (env.memoryUsageCost e.loadedAccountsDataSize).toNat) = _
  rw [hsignatures, hlocks, hdata, hlock, Executed.surcharge]
  omega

theorem surcharge_eq_zero_iff : e.surcharge env = 0 ↔ Bare env e := by
  have hzero : ∀ {w} {x : BitVec w}, x.toNat = 0 ↔ x = 0 := by
    intro w x
    rw [← BitVec.toNat_inj]
    rfl
  have hdata : e.tx.instructionDataLen.toNat / 4 = 0 ↔ e.tx.instructionDataLen < 4 := by
    rw [BitVec.lt_def]
    exact Nat.div_eq_zero_iff_lt (by decide)
  have hed : (if env.ed25519PrecompileVerifyStrict then 2400 else 2280) ≠ 0 := by
    split_ifs <;> decide
  simp only [Executed.surcharge, Nat.add_eq_zero_iff, Nat.mul_eq_zero, hzero, hdata, hed]
  constructor
  · rintro ⟨⟨⟨⟨⟨⟨h₁, h₂⟩, h₃⟩, h₄⟩, h₅⟩, h₆⟩, h₇⟩
    exact ⟨by simpa using h₁, by simpa using h₂, by simpa using h₃,
      fun h => by simpa [h] using h₄, by simpa using h₅, h₆, h₇⟩
  · rintro ⟨h₁, h₂, h₃, h₄, h₅, h₆, h₇⟩
    exact ⟨⟨⟨⟨⟨⟨.inl h₁, .inl h₂⟩, .inl h₃⟩, by
      by_cases h : env.enableSecp256r1Precompile <;> simp [h, h₄]⟩, .inr h₅⟩, h₆⟩, h₇⟩

/-- A vote is charged 3428 for its units, any other transaction its surcharge on top of them. -/
theorem price_add_voteUnits : e.price env + e.voteUnits.toNat =
    e.computeUnits.toNat + e.voteCost.toNat +
      if e.tx.isSimpleVoteTransaction then 0 else e.surcharge env := by
  have hvote : simpleVoteUsageCost.toNat = 3428 := rfl
  have hzero : (0 : U64).toNat = 0 := rfl
  unfold Executed.price Executed.voteUnits Executed.voteCost
  split_ifs <;> omega

/-- The same of the sums, each transaction counted `w` times. -/
theorem sum_price (w : Executed Key → ℕ) :
    (l.map fun e => w e * e.price env).sum + (l.map fun e => w e * e.voteUnits.toNat).sum =
      (l.map fun e => w e * e.computeUnits.toNat).sum +
        (l.map fun e => w e * e.voteCost.toNat).sum +
        (l.map fun e => w e * if e.tx.isSimpleVoteTransaction then 0 else e.surcharge env).sum := by
  simp only [← sum_map_add, ← Nat.mul_add, price_add_voteUnits]

theorem voteUnits_toNat : e.voteUnits.toNat =
    if e.tx.isSimpleVoteTransaction then e.computeUnits.toNat else 0 := by
  unfold Executed.voteUnits
  split_ifs <;> rfl

theorem voteCost_toNat : e.voteCost.toNat =
    if e.tx.isSimpleVoteTransaction then e.price env else 0 := by
  unfold Executed.voteCost Executed.price
  split_ifs <;> rfl

theorem allocated_toNat : (e.cost env).allocatedAccountsDataSize.toNat = e.allocated env := by
  unfold Executed.cost Executed.allocated calculateCostForExecutedTransaction
  split_ifs <;> rfl

theorem loaded_toNat :
    (e.loadedAccountsDataSize.zeroExtend 64 : U64).toNat = e.loadedAccountsDataSize.toNat := by
  have hlt := e.loadedAccountsDataSize.isLt
  rw [BitVec.zeroExtend_eq_setWidth, BitVec.toNat_setWidth]
  omega

/-- In sums that charge the votes alike, the rest is alike without surcharges. -/
theorem sum_price_eq_iff {w : Executed Key → ℕ}
    (hbare : ∀ e ∈ l, e.tx.isSimpleVoteTransaction = false → Bare env e) :
    (l.map fun e => w e * e.computeUnits.toNat).sum = (l.map fun e => w e * e.price env).sum ↔
      (l.map fun e => w e * e.voteUnits.toNat).sum =
        (l.map fun e => w e * e.voteCost.toNat).sum := by
  have hsum := sum_price env w (l := l)
  have hzero : (l.map fun e => w e *
      if e.tx.isSimpleVoteTransaction then 0 else e.surcharge env).sum = 0 := by
    rw [sum_eq_zero_iff]
    rintro _ hx
    obtain ⟨e, he, rfl⟩ := mem_map.mp hx
    split_ifs with hvote
    · rfl
    · rw [(surcharge_eq_zero_iff env e).mpr (hbare e he (by simpa using hvote)), Nat.mul_zero]
  omega

/-- Where the votes are charged alike, all of them are without surcharges only. -/
theorem bare_of_sum_price (hblock : (l.map fun e => e.computeUnits.toNat).sum =
      (l.map (Executed.price env)).sum)
    (hvotes : (l.map fun e => e.voteUnits.toNat).sum = (l.map fun e => e.voteCost.toNat).sum) :
    ∀ e ∈ l, e.tx.isSimpleVoteTransaction = false → Bare env e := by
  intro e he hvote
  have hsum := sum_price env (fun _ => 1) (l := l)
  simp only [Nat.one_mul] at hsum
  have hzero : (l.map fun e =>
      if e.tx.isSimpleVoteTransaction then 0 else e.surcharge env).sum = 0 := by
    have hprice : (l.map fun e => e.price env) = l.map (Executed.price env) := rfl
    rw [hprice] at hsum
    omega
  rw [sum_eq_zero_iff] at hzero
  have hthis := hzero _ (mem_map_of_mem he)
  rw [if_neg (by simp [hvote])] at hthis
  exact (surcharge_eq_zero_iff env e).mp hthis

end Amounts

section Agreement

variable {env : Env} {t : CostTracker Key} {l : List (Executed Key)}

/-- Two sums that both fit are equal if they are as counters. -/
theorem min_add_eq_iff {c m n : ℕ} (hm : c + m < 2 ^ 64) (hn : c + n < 2 ^ 64) :
    min (top 64) (c + m) = min (top 64) (c + n) ↔ m = n := by
  unfold top
  omega

/-- Short of overflow the leader's accounting of a block equals replay's exactly for the
transactions that both charge alike. -/
theorem executedCosts_agree_iff (hunits : InRange t l fun e => e.computeUnits.toNat)
    (hprice : InRange t l (Executed.price env))
    (hloaded : t.allocatedAccountsDataSize.toNat +
      (l.map fun e => e.loadedAccountsDataSize.toNat).sum < 2 ^ 64)
    (hallocated : t.allocatedAccountsDataSize.toNat +
      (l.map (Executed.allocated env)).sum < 2 ^ 64) :
    ((addExecutedTransactionCosts t l).blockCost = (replayCosts env t l).blockCost ∧
      (addExecutedTransactionCosts t l).voteCost = (replayCosts env t l).voteCost ∧
      (addExecutedTransactionCosts t l).costByWritableAccounts =
        (replayCosts env t l).costByWritableAccounts ∧
      (addExecutedTransactionCosts t l).allocatedAccountsDataSize =
        (replayCosts env t l).allocatedAccountsDataSize) ↔ Alike env l := by
  have hcost : ∀ e ∈ l, (e.cost env).sum.toNat = e.price env := by
    intro e he
    have hle := le_sum_of_mem (mem_map_of_mem (f := Executed.price env) he)
    have hblock := hprice.block
    rw [Executed.toNat_cost_sum, top]
    omega
  have hblock : (addExecutedTransactionCosts t l).blockCost = (replayCosts env t l).blockCost ↔
      (l.map fun e => e.computeUnits.toNat).sum = (l.map (Executed.price env)).sum := by
    rw [← BitVec.toNat_inj, leader_blockCost, replay_blockCost, total_map, total_map,
      map_congr_left hcost, Nat.mod_eq_of_lt hunits.block, Nat.mod_eq_of_lt hprice.block,
      Nat.add_left_cancel_iff]
  have hvotes : (addExecutedTransactionCosts t l).voteCost = (replayCosts env t l).voteCost ↔
      (l.map fun e => e.voteUnits.toNat).sum = (l.map fun e => e.voteCost.toNat).sum := by
    rw [← BitVec.toNat_inj, leader_voteCost, replay_voteCost, total_map, total_map]
    apply min_add_eq_iff
    · simpa only [voteUnits_toNat] using hunits.votes
    · simpa only [voteCost_toNat env] using hprice.votes
  have haccounts : (addExecutedTransactionCosts t l).costByWritableAccounts =
        (replayCosts env t l).costByWritableAccounts ↔
      ∀ k, (l.map fun e => e.tx.accountKeys.count (k, true) * e.computeUnits.toNat).sum =
        (l.map fun e => e.tx.accountKeys.count (k, true) * e.price env).sum := by
    rw [leader_accounts, replay_accounts, chargeAll_eq_iff]
    refine forall_congr' fun k => ?_
    rw [accountTotal, accountTotal, map_congr_left fun e he => congrArg _ (hcost e he)]
    exact min_add_eq_iff (hunits.accounts k) (hprice.accounts k)
  have hsizes : (addExecutedTransactionCosts t l).allocatedAccountsDataSize =
        (replayCosts env t l).allocatedAccountsDataSize ↔
      (l.map fun e => e.loadedAccountsDataSize.toNat).sum =
        (l.map (Executed.allocated env)).sum := by
    rw [← BitVec.toNat_inj, leader_allocated, replay_allocated, total_map, total_map]
    simp only [loaded_toNat, allocated_toNat]
    exact min_add_eq_iff hloaded hallocated
  rw [hblock, hvotes, haccounts, hsizes]
  constructor
  · rintro ⟨hblock, hvotes, haccounts, hsizes⟩
    have hbare := bare_of_sum_price env hblock hvotes
    refine ⟨hbare, ?_, fun k => (sum_price_eq_iff env hbare).mp (haccounts k), hsizes⟩
    rwa [total_map, total_map]
  · rintro ⟨hbare, hvotes, haccounts, hsizes⟩
    rw [total_map, total_map] at hvotes
    refine ⟨?_, hvotes, fun k => (sum_price_eq_iff env hbare).mpr (haccounts k), hsizes⟩
    have hone := sum_price_eq_iff env (w := fun _ => 1) hbare
    simp only [Nat.one_mul] at hone
    exact hone.mpr hvotes

end Agreement

/-! ## How far apart they are -/

/-- Features active, 8 units for each started page of 32 KiB, and the limits of
10 and 20 MiB. -/
def defaultEnv : Env where
  ed25519PrecompileVerifyStrict := true
  enableSecp256r1Precompile := true
  memoryUsageCost := fun size => (size.zeroExtend 64 + 32767) / 32768 * 8
  maxPermittedDataLength := 10485760
  maxPermittedAllocations := 20971520

def defaultTracker : CostTracker Key where
  accountCostLimit := 12000000
  blockCostLimit := 60000000
  voteCostLimit := 36000000
  originalVoteCostLimit := 0
  costByWritableAccounts := fun _ => none
  blockCost := 0
  voteCost := 0
  transactionCount := 0
  allocatedAccountsDataSize := 0
  transactionSignatureCount := 0
  secp256k1InstructionSignatureCount := 0
  ed25519InstructionSignatureCount := 0
  secp256r1InstructionSignatureCount := 0
  inFlightTransactionCount := 0

/-- A system transfer: one signature, two write locks, 12 bytes of data, 150
units executed, 300 bytes loaded. -/
def transfer : Executed ℕ where
  tx :=
    { isSimpleVoteTransaction := false
      accountKeys := [(0, true), (1, true), (2, false)]
      numWriteLocks := 2
      signatureDetails := ⟨1, 0, 0, 0⟩
      numTransactionSignatures := 1
      instructionDataLen := 12
      programInstructions := [.system (some .other)] }
  computeUnits := 150
  loadedAccountsDataSize := 300

/-- A simple vote: 2100 units executed, 4000 bytes loaded. -/
def vote : Executed ℕ where
  tx :=
    { isSimpleVoteTransaction := true
      accountKeys := [(3, true), (4, true), (5, false)]
      numWriteLocks := 2
      signatureDetails := ⟨1, 0, 0, 0⟩
      numTransactionSignatures := 1
      instructionDataLen := 100
      programInstructions := [.other] }
  computeUnits := 2100
  loadedAccountsDataSize := 4000

/-- An unsigned transaction that allocates 200 bytes, and loads none. -/
def allocation : Executed ℕ where
  tx :=
    { isSimpleVoteTransaction := false
      accountKeys := [(6, true)]
      numWriteLocks := 0
      signatureDetails := ⟨0, 0, 0, 0⟩
      numTransactionSignatures := 0
      instructionDataLen := 3
      programInstructions := [.system (some (.allocate 200))] }
  computeUnits := 150
  loadedAccountsDataSize := 0

/-- A vote that uses and loads as much as replay charges for it and for the allocation. -/
theorem executedCosts_agree_vote :
    let l := [allocation, ⟨vote.tx, 3428, 200⟩]
    (addExecutedTransactionCosts defaultTracker l).costByWritableAccounts =
      (replayCosts defaultEnv defaultTracker l).costByWritableAccounts := by
  intro l
  have hrange : ∀ amount : Executed ℕ → ℕ, (∀ e ∈ l, amount e ≤ 3428) →
      InRange defaultTracker l amount := by
    intro amount hle
    have hle₁ := hle _ mem_cons_self
    have hle₂ := hle _ (mem_cons_of_mem _ mem_cons_self)
    have hcount : ∀ (k : ℕ) (keys : List (ℕ × Bool)) {n : ℕ}, keys.length ≤ 3 → n ≤ 3428 →
        keys.count (k, true) * n ≤ 3 * 3428 := fun k keys n hkeys hn =>
      Nat.mul_le_mul (count_le_length.trans hkeys) hn
    have hzero : (0 : U64).toNat = 0 := rfl
    refine ⟨?_, ?_, fun k => ?_⟩
    · simp only [l, map_cons, map_nil, sum_cons, sum_nil, defaultTracker]
      omega
    · simp only [l, map_cons, map_nil, sum_cons, sum_nil, defaultTracker]
      split_ifs <;> omega
    · have hfirst := hcount k allocation.tx.accountKeys (by decide) hle₁
      have hsecond := hcount k vote.tx.accountKeys (by decide) hle₂
      simp only [l, map_cons, map_nil, sum_cons, sum_nil, defaultTracker, Option.getD_none]
      omega
  refine ((executedCosts_agree_iff (hrange _ ?_) (hrange _ ?_) ?_ ?_).mpr ⟨?_, ?_, ?_, ?_⟩).2.2.1
  · decide
  · decide
  · decide
  · decide
  · intro e he hvote
    rcases mem_pair.mp he with rfl | rfl
    · exact ⟨rfl, rfl, rfl, fun _ => rfl, rfl, by decide, rfl⟩
    · cases hvote
  · rfl
  · exact fun _ => rfl
  · decide

/-- A transfer and a vote in an empty block: every counter differs. -/
theorem executedCosts_differ :
    let leader := addExecutedTransactionCosts defaultTracker [transfer, vote]
    let replay := replayCosts defaultEnv defaultTracker [transfer, vote]
    (leader.blockCost = 2250 ∧ replay.blockCost = 4909) ∧
    (leader.voteCost = 2100 ∧ replay.voteCost = 3428) ∧
    (leader.costByWritableAccounts 0 = some 150 ∧ replay.costByWritableAccounts 0 = some 1481) ∧
    (leader.allocatedAccountsDataSize = 4300 ∧ replay.allocatedAccountsDataSize = 0) := by
  decide

/-- Short of overflow the leader misses at least the signatures: for a block of
signed transactions without votes its block cost is at least 720 units per
transaction below replay's. -/
theorem leader_undercounts (env : Env) (t : CostTracker Key) (l : List (Executed Key))
    (hvote : ∀ e ∈ l, e.tx.isSimpleVoteTransaction = false)
    (hsigned : ∀ e ∈ l, 1 ≤ e.tx.signatureDetails.numTransactionSignatures.toNat)
    (hfit : t.blockCost.toNat + total (l.map fun e => (e.cost env).sum) < top 64) :
    (addExecutedTransactionCosts t l).blockCost.toNat + 720 * l.length ≤
      (replayCosts env t l).blockCost.toNat := by
  have hsum : total (l.map Executed.computeUnits) + 720 * l.length ≤
      total (l.map fun e => (e.cost env).sum) := by
    have hlt : total (l.map fun e => (e.cost env).sum) < top 64 := by omega
    clear hfit
    induction l with
    | nil => simp
    | cons e l ih =>
      simp only [map_cons, total_cons, length_cons] at hlt ⊢
      have he : min (top 64)
          (e.tx.signatureDetails.numTransactionSignatures.toNat * 720 + e.computeUnits.toNat) ≤
          (e.cost env).sum.toNat := by
        rw [Executed.toNat_cost_sum, Executed.price, if_neg (by simp [hvote e]), Executed.surcharge]
        omega
      have hs := hsigned e (by simp)
      have hl := ih (fun e he => hvote e (by simp [he])) (fun e he => hsigned e (by simp [he]))
        (by omega)
      omega
  rw [leader_blockCost, replay_blockCost, Nat.mod_eq_of_lt, Nat.mod_eq_of_lt]
  · omega
  · unfold top at hfit
    omega
  · unfold top at hfit
    omega

theorem leader_undercounts_transfer :
    (addExecutedTransactionCosts defaultTracker [transfer]).blockCost.toNat + 720 ≤
      (replayCosts defaultEnv defaultTracker [transfer]).blockCost.toNat :=
  leader_undercounts _ _ _ (by decide) (by decide) (by decide)

theorem checkBlockCostLimits_transfer :
    (replayCosts defaultEnv defaultTracker [transfer]).blockCost ≤ 60000000 :=
  (@checkBlockCostLimits_eq ℕ _ defaultEnv defaultTracker _ [transfer] rfl).2 (by decide)

end Salsa.Cost
