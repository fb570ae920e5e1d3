import Salsa.Cost.Tracker

/-!
# Salsa.Cost.Reserve — reserving block space and giving it back

Before a transaction runs, `try_add` reserves its estimated cost in the cost
tracker; afterwards `update_execution_cost` replaces the estimate by what was
used, or `remove` takes the reservation back.
-/

namespace Salsa.Cost

open Saturating List Function TransactionCost BitVec

variable {Key : Type} [DecidableEq Key] {c : TransactionCost Key} {self : CostTracker Key}

/-! ## Giving back -/

/-- `entry(key).or_insert(0)`, then a saturating subtraction. -/
def subAccountCost (costs : Key → Option U64) (key : Key) (cost : U64) : Key → Option U64 :=
  Function.update costs key (some (saturatingSub ((costs key).getD 0) cost))

def subTransactionExecutionCost (self : CostTracker Key) (txCost : TransactionCost Key)
    (adjustment : U64) : CostTracker Key :=
  { self with
    costByWritableAccounts := txCost.writableAccounts.foldl
      (fun costs key => subAccountCost costs key adjustment) self.costByWritableAccounts
    blockCost := self.blockCost - adjustment
    voteCost :=
      if txCost.isSimpleVote then saturatingSub self.voteCost adjustment else self.voteCost }

def removeTransactionCost (self : CostTracker Key) (txCost : TransactionCost Key) :
    CostTracker Key :=
  let self := subTransactionExecutionCost self txCost txCost.sum
  { self with
    allocatedAccountsDataSize :=
      saturatingSub self.allocatedAccountsDataSize txCost.allocatedAccountsDataSize
    transactionCount := saturatingSub self.transactionCount 1
    transactionSignatureCount :=
      saturatingSub self.transactionSignatureCount txCost.numTransactionSignatures
    secp256k1InstructionSignatureCount :=
      saturatingSub self.secp256k1InstructionSignatureCount txCost.numSecp256k1InstructionSignatures
    ed25519InstructionSignatureCount :=
      saturatingSub self.ed25519InstructionSignatureCount txCost.numEd25519InstructionSignatures
    secp256r1InstructionSignatureCount :=
      saturatingSub self.secp256r1InstructionSignatureCount
        txCost.numSecp256r1InstructionSignatures }

def remove (self : CostTracker Key) (txCost : TransactionCost Key) : CostTracker Key :=
  removeTransactionCost self txCost

def updateExecutionCost (self : CostTracker Key) (estimatedTxCost : TransactionCost Key)
    (actualExecutionUnits actualLoadedAccountsDataSizeCost : U64) : CostTracker Key :=
  let actual := saturatingAdd actualExecutionUnits actualLoadedAccountsDataSizeCost
  let estimated := saturatingAdd estimatedTxCost.programsExecutionCost
    estimatedTxCost.loadedAccountsDataSizeCost
  if actual = estimated then self
  else if estimated < actual then
    (addTransactionExecutionCost self estimatedTxCost (actual - estimated)).1
  else subTransactionExecutionCost self estimatedTxCost (estimated - actual)

def addTransactionsInFlight (self : CostTracker Key) (count : ℕ) : CostTracker Key :=
  { self with inFlightTransactionCount := clamp 64 (self.inFlightTransactionCount.toNat + count) }

def subTransactionsInFlight (self : CostTracker Key) (count : ℕ) : CostTracker Key :=
  { self with
    inFlightTransactionCount := BitVec.ofNat 64 (self.inFlightTransactionCount.toNat - count) }

/-! ## Counters -/

inductive Counter (Key : Type) where
  | blockCost
  | voteCost
  | accountCost (key : Key)
  | allocatedAccountsDataSize
  | transactionCount
  | transactionSignatureCount
  | secp256k1InstructionSignatureCount
  | ed25519InstructionSignatureCount
  | secp256r1InstructionSignatureCount
deriving DecidableEq

def CostTracker.read (self : CostTracker Key) : Counter Key → ℕ
  | .blockCost => self.blockCost.toNat
  | .voteCost => self.voteCost.toNat
  | .accountCost key => ((self.costByWritableAccounts key).getD 0).toNat
  | .allocatedAccountsDataSize => self.allocatedAccountsDataSize.toNat
  | .transactionCount => self.transactionCount.toNat
  | .transactionSignatureCount => self.transactionSignatureCount.toNat
  | .secp256k1InstructionSignatureCount => self.secp256k1InstructionSignatureCount.toNat
  | .ed25519InstructionSignatureCount => self.ed25519InstructionSignatureCount.toNat
  | .secp256r1InstructionSignatureCount => self.secp256r1InstructionSignatureCount.toNat

namespace TransactionCost

/-- How often execution units count. -/
def weight (c : TransactionCost Key) : Counter Key → ℕ
  | .blockCost => 1
  | .voteCost => if c.isSimpleVote then 1 else 0
  | .accountCost key => c.writableAccounts.count key
  | _ => 0

/-- What is added whatever the transaction executes. -/
def fixed (c : TransactionCost Key) : Counter Key → ℕ
  | .blockCost | .voteCost | .accountCost _ => 0
  | .allocatedAccountsDataSize => c.allocatedAccountsDataSize.toNat
  | .transactionCount => 1
  | .transactionSignatureCount => c.numTransactionSignatures.toNat
  | .secp256k1InstructionSignatureCount => c.numSecp256k1InstructionSignatures.toNat
  | .ed25519InstructionSignatureCount => c.numEd25519InstructionSignatures.toNat
  | .secp256r1InstructionSignatureCount => c.numSecp256r1InstructionSignatures.toNat

/-- What the transaction adds to a counter when its cost is `units`. -/
def charge (c : TransactionCost Key) (units : ℕ) (x : Counter Key) : ℕ :=
  c.weight x * units + c.fixed x

end TransactionCost

/-! ## Execution units -/

/-- Adding the same amount to a list of accounts. -/
theorem toNat_foldl_addAccountCost (keys : List Key) (costs : Key → Option U64) (amount : U64)
    (k : Key) :
    (((keys.foldl (fun costs key => addAccountCost costs key amount) costs) k).getD 0).toNat =
      min (top 64) (((costs k).getD 0).toNat + keys.count k * amount.toNat) := by
  induction keys generalizing costs with
  | nil =>
    have := toNat_le_top ((costs k).getD 0)
    rw [foldl_nil, count_nil, Nat.zero_mul, Nat.add_zero]
    omega
  | cons key keys ih =>
    rw [foldl_cons, ih, addAccountCost]
    by_cases hk : key = k
    · subst hk
      rw [update_self, Option.getD_some, toNat_saturatingAdd, count_cons_self, Nat.add_mul]
      omega
    · rw [update_of_ne (Ne.symm hk), count_cons_of_ne hk]

/-- Subtracting the same amount from a list of accounts. -/
theorem toNat_foldl_subAccountCost (keys : List Key) (costs : Key → Option U64) (amount : U64)
    (k : Key) :
    (((keys.foldl (fun costs key => subAccountCost costs key amount) costs) k).getD 0).toNat =
      ((costs k).getD 0).toNat - keys.count k * amount.toNat := by
  induction keys generalizing costs with
  | nil => simp
  | cons key keys ih =>
    rw [foldl_cons, ih, subAccountCost]
    by_cases hk : key = k
    · subst hk
      rw [update_self, Option.getD_some, toNat_saturatingSub, count_cons_self, Nat.add_mul]
      omega
    · rw [update_of_ne (Ne.symm hk), count_cons_of_ne hk]

theorem accounts_addTransactionExecutionCost (self : CostTracker Key) (c : TransactionCost Key)
    (adjustment : U64) :
    (addTransactionExecutionCost self c adjustment).1.costByWritableAccounts =
      c.writableAccounts.foldl (fun costs key => addAccountCost costs key adjustment)
        self.costByWritableAccounts :=
  (foldl_hom Prod.fst fun _ _ => rfl).symm

section Execution

variable {adjustment : U64} {x : Counter Key}

/-- A counter that does not overflow grows by the weighted units. -/
theorem read_addTransactionExecutionCost
    (h : self.read x + c.weight x * adjustment.toNat ≤ top 64) :
    (addTransactionExecutionCost self c adjustment).1.read x =
      self.read x + c.weight x * adjustment.toNat := by
  cases x with
  | blockCost =>
    simp only [CostTracker.read, weight, Nat.one_mul] at h ⊢
    have hlt : self.blockCost.toNat + adjustment.toNat < 2 ^ 64 := by
      unfold top at h
      omega
    exact (toNat_add _ _).trans (Nat.mod_eq_of_lt hlt)
  | voteCost =>
    simp only [CostTracker.read, weight, addTransactionExecutionCost] at h ⊢
    split_ifs at h ⊢
    · rw [toNat_saturatingAdd]
      omega
    · omega
  | accountCost key =>
    simp only [CostTracker.read, weight] at h ⊢
    rw [accounts_addTransactionExecutionCost, toNat_foldl_addAccountCost]
    omega
  | _ => simp [CostTracker.read, weight, addTransactionExecutionCost]

/-- A counter that holds the weighted units shrinks by them. -/
theorem read_subTransactionExecutionCost (h : c.weight x * adjustment.toNat ≤ self.read x) :
    (subTransactionExecutionCost self c adjustment).read x =
      self.read x - c.weight x * adjustment.toNat := by
  cases x with
  | blockCost =>
    simp only [CostTracker.read, weight, Nat.one_mul] at h ⊢
    exact toNat_sub_of_le (le_def.mpr h)
  | voteCost =>
    simp only [CostTracker.read, weight, subTransactionExecutionCost] at h ⊢
    split_ifs
    · rw [toNat_saturatingSub, Nat.one_mul]
    · omega
  | accountCost key => exact toNat_foldl_subAccountCost _ _ _ _
  | _ => simp [CostTracker.read, weight, subTransactionExecutionCost]

end Execution

/-! ## Whole reservations -/

namespace TransactionCost

/-- The cost with what was used in place of the estimate, not capped. -/
def actualCost (c : TransactionCost Key) (units loadedCost : U64) : ℕ :=
  c.baseCost + units.toNat + loadedCost.toNat

end TransactionCost

section Reservation

variable {x : Counter Key}

/-- A reservation adds its charge to a counter that does not overflow. -/
theorem read_addTransactionCost (h : self.read x + c.charge c.sum.toNat x ≤ top 64) :
    (addTransactionCost self c).1.read x = self.read x + c.charge c.sum.toNat x := by
  have hexec : ∀ self' : CostTracker Key, self'.read x = self.read x + c.fixed x →
      (addTransactionExecutionCost self' c c.sum).1.read x =
        self.read x + c.charge c.sum.toNat x := by
    intro self' hself
    unfold charge at h ⊢
    rw [read_addTransactionExecutionCost (by rw [hself]; omega), hself]
    omega
  refine hexec _ ?_
  cases x with
  | blockCost | voteCost | accountCost => rfl
  | _ =>
    simp only [charge, weight, fixed, Nat.zero_mul, Nat.zero_add, CostTracker.read] at h ⊢
    exact (toNat_saturatingAdd _ _).trans (Nat.min_eq_right h)

/-- Removing takes the charge out of a counter that holds it. -/
theorem read_remove (h : c.charge c.sum.toNat x ≤ self.read x) :
    (remove self c).read x = self.read x - c.charge c.sum.toNat x := by
  unfold charge at h ⊢
  have hsub : (subTransactionExecutionCost self c c.sum).read x =
      self.read x - c.weight x * c.sum.toNat := read_subTransactionExecutionCost (by omega)
  cases x with
  | blockCost | voteCost | accountCost => exact hsub
  | _ =>
    simp only [weight, fixed, Nat.zero_mul, Nat.zero_add]
    exact toNat_saturatingSub _ _

omit [DecidableEq Key] in
/-- The part of the estimate that execution replaces. -/
theorem TransactionCost.toNat_estimatedUnits (h : c.estimatedCost ≤ top 64) :
    c.baseCost + (saturatingAdd c.programsExecutionCost c.loadedAccountsDataSizeCost).toNat =
      c.estimatedCost := by
  unfold estimatedCost at h ⊢
  rw [toNat_saturatingAdd]
  omega

/-- Updating exchanges the charge of the estimate for the charge of what was used. -/
theorem read_updateExecutionCost {units loadedCost : U64}
    (hest : c.estimatedCost ≤ top 64) (hact : c.actualCost units loadedCost ≤ top 64)
    (hheld : c.charge c.estimatedCost x ≤ self.read x)
    (hfits : self.read x + c.charge (c.actualCost units loadedCost) x ≤
      top 64 + c.charge c.estimatedCost x) :
    (updateExecutionCost self c units loadedCost).read x + c.charge c.estimatedCost x =
      self.read x + c.charge (c.actualCost units loadedCost) x := by
  have hestimated := c.toNat_estimatedUnits hest
  have hactual : c.baseCost + (saturatingAdd units loadedCost).toNat =
      c.actualCost units loadedCost := by
    unfold actualCost at hact ⊢
    rw [toNat_saturatingAdd]
    omega
  rw [← hestimated] at hheld hfits ⊢
  rw [← hactual] at hfits ⊢
  unfold updateExecutionCost
  generalize saturatingAdd units loadedCost = actual at hfits ⊢
  generalize saturatingAdd c.programsExecutionCost c.loadedAccountsDataSizeCost = estimated
    at hheld hfits ⊢
  simp only [charge, Nat.mul_add] at hheld hfits ⊢
  split_ifs with heq hlt
  · rw [heq]
  · -- More was used than estimated: the difference is added.
    have hdiff : (actual - estimated).toNat = actual.toNat - estimated.toNat :=
      BitVec.toNat_sub_of_le (BitVec.le_of_lt hlt)
    have hmul : c.weight x * estimated.toNat ≤ c.weight x * actual.toNat :=
      Nat.mul_le_mul_left _ (Nat.le_of_lt hlt)
    rw [read_addTransactionExecutionCost] <;> rw [hdiff, Nat.mul_sub] <;> omega
  · -- Less was used: the difference is given back.
    have hle : actual.toNat ≤ estimated.toNat := Nat.le_of_not_lt hlt
    have hdiff : (estimated - actual).toNat = estimated.toNat - actual.toNat :=
      toNat_sub_of_le (le_def.mpr hle)
    have hmul : c.weight x * actual.toNat ≤ c.weight x * estimated.toNat :=
      Nat.mul_le_mul_left _ hle
    rw [read_subTransactionExecutionCost] <;> rw [hdiff, Nat.mul_sub] <;> omega

end Reservation

end Salsa.Cost
