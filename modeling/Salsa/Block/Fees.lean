import Mathlib.Logic.Function.Basic
import Salsa.Lib.Saturating

/-!
# Salsa.Block.Fees — the fees of a block at its end

`distribute_transaction_fee_details` pays the collector and burns the rest. Fees are conserved
by every block (`distributeTransactionFeeDetails_conserves`) but one that collected priority
fees only: its fees are neither paid nor burned.
-/

namespace Salsa.Fees

open Saturating BitVec

abbrev U64 := BitVec 64

/-- `Pubkey::default()` is also the id of the system program. -/
structure Account (Pubkey : Type) where
  lamports : U64
  dataLen : ℕ
  owner : Pubkey

structure CollectorFeeDetails where
  transactionFee : U64
  priorityFee : U64

structure FeeDistribution where
  deposit : U64
  burn : U64

namespace CollectorFeeDetails

variable (fees : CollectorFeeDetails)

def totalTransactionFee : U64 := saturatingAdd fees.transactionFee fees.priorityFee

def burnPercent : U64 := 50#64

/-- The product wraps, as it does in a release build. -/
def calculateRewardAndBurnFeeDetails : FeeDistribution :=
  if fees.transactionFee = 0 then ⟨0, 0⟩
  else
    let burn := fees.transactionFee * burnPercent / 100#64
    ⟨saturatingAdd fees.priorityFee (saturatingSub fees.transactionFee burn), burn⟩

def total : ℕ := fees.transactionFee.toNat + fees.priorityFee.toNat

variable {fees}

theorem totalTransactionFee_ne_zero (hfee : fees.transactionFee ≠ 0) :
    fees.totalTransactionFee ≠ 0 := by
  rw [Ne, toNat_eq] at hfee ⊢
  rw [totalTransactionFee, toNat_saturatingAdd]
  unfold top
  simp only [ofNat_eq_ofNat, toNat_ofNat] at hfee ⊢
  omega

/-- Burning takes no more than there is, even where its product wraps. -/
theorem calculateRewardAndBurnFeeDetails_total (hfits : fees.total < 2 ^ 64)
    (hfee : fees.transactionFee ≠ 0) :
    fees.calculateRewardAndBurnFeeDetails.deposit.toNat +
      fees.calculateRewardAndBurnFeeDetails.burn.toNat = fees.total := by
  have hwrapped := Nat.mod_le (fees.transactionFee.toNat * 50) (2 ^ 64)
  rw [calculateRewardAndBurnFeeDetails, if_neg hfee]
  unfold total at *
  simp only [toNat_saturatingAdd, toNat_saturatingSub, toNat_udiv, toNat_mul,
    burnPercent, toNat_ofNat, top, Nat.reducePow, Nat.reduceMod]
  omega

end CollectorFeeDetails

inductive DepositFeeError where
  | invalidRentPayingAccount
  | lamportOverflow
  | invalidAccountOwner

inductive RentState where
  | uninitialized
  | rentPaying (lamports : U64) (dataSize : ℕ)
  | rentExempt

def transitionAllowed (pre : RentState) : RentState → Bool
  | .uninitialized | .rentExempt => true
  | .rentPaying postLamports postSize =>
    match pre with
    | .uninitialized | .rentExempt => false
    -- no growth, and no credit either
    | .rentPaying preLamports preSize => postSize == preSize && postLamports ≤ preLamports

/-- What the end of a block reads and writes of the bank. A reward is its key, lamports (`as
i64`) and the balance after it. -/
structure Bank (Pubkey : Type) where
  accounts : Pubkey → Option (Account Pubkey)
  isExempt : U64 → ℕ → Bool
  collectorId : Pubkey
  collectorFeeDetails : CollectorFeeDetails
  capitalization : U64
  rewards : List (Pubkey × ℤ × U64)

namespace Bank

variable {Pubkey : Type} [DecidableEq Pubkey] [Inhabited Pubkey] (bank : Bank Pubkey)

def getAccount (pubkey : Pubkey) : Account Pubkey :=
  (bank.accounts pubkey).getD ⟨0, 0, default⟩

def getAccountRentState (account : Account Pubkey) : RentState :=
  if account.lamports = 0 then .uninitialized
  else if bank.isExempt account.lamports account.dataLen then .rentExempt
  else .rentPaying account.lamports account.dataLen

def depositFees (pubkey : Pubkey) (fees : U64) : Except DepositFeeError (U64 × Bank Pubkey) :=
  let account := bank.getAccount pubkey
  if account.owner ≠ default then .error .invalidAccountOwner
  else if top 64 < account.lamports.toNat + fees.toNat then .error .lamportOverflow
  else
    let credited := { account with lamports := account.lamports + fees }
    if transitionAllowed (bank.getAccountRentState account) (bank.getAccountRentState credited) then
      .ok (credited.lamports,
        { bank with accounts := Function.update bank.accounts pubkey (some credited) })
    else .error .invalidRentPayingAccount

/-- The bank after the deposit, and what is left to burn. -/
def depositOrBurnFee (deposit : U64) : Bank Pubkey × U64 :=
  if deposit = 0 then (bank, 0)
  else
    match bank.depositFees bank.collectorId deposit with
    | .ok (postBalance, bank) =>
      ({ bank with rewards := bank.rewards ++ [(bank.collectorId, deposit.toInt, postBalance)] }, 0)
    | .error _ => (bank, deposit)

def distributeTransactionFeeDetails : Bank Pubkey :=
  if bank.collectorFeeDetails.totalTransactionFee = 0 then bank
  else
    let ⟨deposit, burn⟩ := bank.collectorFeeDetails.calculateRewardAndBurnFeeDetails
    let (bank, burned) := bank.depositOrBurnFee deposit
    { bank with capitalization := bank.capitalization - saturatingAdd burned burn }

def collectorBalance : ℕ := (bank.getAccount bank.collectorId).lamports.toNat

variable {bank} {deposit : U64}

theorem depositFees_ok {bank' : Bank Pubkey} {pubkey : Pubkey} {fees post : U64}
    (h : bank.depositFees pubkey fees = .ok (post, bank')) :
    (bank'.getAccount pubkey).lamports.toNat =
        (bank.getAccount pubkey).lamports.toNat + fees.toNat ∧
      bank'.collectorId = bank.collectorId ∧ bank'.capitalization = bank.capitalization := by
  unfold depositFees at h
  dsimp only at h
  split_ifs at h with howner hover hrent
  cases h
  have hcredited : ((bank.getAccount pubkey).lamports + fees).toNat =
      (bank.getAccount pubkey).lamports.toNat + fees.toNat := by
    unfold top at hover
    rw [toNat_add, Nat.mod_eq_of_lt]
    omega
  refine ⟨?_, rfl, rfl⟩
  simpa [getAccount] using hcredited

/-- What the collector does not get is burned, and a refusal stores nothing. -/
theorem depositOrBurnFee_spec {after : Bank Pubkey} {burned : U64}
    (h : bank.depositOrBurnFee deposit = (after, burned)) :
    after.collectorBalance + burned.toNat = bank.collectorBalance + deposit.toNat ∧
      burned ≤ deposit ∧ after.capitalization = bank.capitalization ∧
      ∀ e, bank.depositFees bank.collectorId deposit = .error e → after = bank := by
  unfold depositOrBurnFee at h
  split_ifs at h with hzero
  · cases h
    exact ⟨hzero ▸ rfl, le_def.2 (Nat.zero_le _), rfl, fun _ _ => rfl⟩
  · cases hdeposit : bank.depositFees bank.collectorId deposit with
    | error e =>
      rw [hdeposit] at h
      cases h
      exact ⟨rfl, BitVec.le_refl _, rfl, fun _ _ => rfl⟩
    | ok r =>
      rw [hdeposit] at h
      cases h
      obtain ⟨hbalance, hcollector, hcap⟩ := depositFees_ok hdeposit
      refine ⟨?_, le_def.2 (Nat.zero_le _), hcap, nofun⟩
      simpa [collectorBalance, getAccount, hcollector] using hbalance

/-- The lamports credited and those taken off the capitalization (a counter modulo `2 ^ 64`) are
the fees collected, unless these are priority fees alone. A refused deposit stores nothing. -/
theorem distributeTransactionFeeDetails_conserves
    (hfits : bank.collectorFeeDetails.total < 2 ^ 64) :
    let after := bank.distributeTransactionFeeDetails
    (after.collectorBalance + (bank.capitalization - after.capitalization).toNat =
        bank.collectorBalance + bank.collectorFeeDetails.total ↔
      (bank.collectorFeeDetails.transactionFee = 0 → bank.collectorFeeDetails.priorityFee = 0)) ∧
    ∀ e, bank.depositFees bank.collectorId
        bank.collectorFeeDetails.calculateRewardAndBurnFeeDetails.deposit = .error e →
      after.accounts = bank.accounts := by
  unfold distributeTransactionFeeDetails
  by_cases hfee : bank.collectorFeeDetails.transactionFee = 0
  · -- the split is empty, so the fees are gone
    have hsplit : bank.collectorFeeDetails.calculateRewardAndBurnFeeDetails = ⟨0, 0⟩ := if_pos hfee
    simp [hsplit, depositOrBurnFee, CollectorFeeDetails.total, hfee, toNat_eq, eq_comm]
  have hsum := CollectorFeeDetails.calculateRewardAndBurnFeeDetails_total hfits hfee
  rcases hpaid : bank.depositOrBurnFee
    bank.collectorFeeDetails.calculateRewardAndBurnFeeDetails.deposit with ⟨after, burned⟩
  obtain ⟨hbalance, hle, hcap, hrefused⟩ := depositOrBurnFee_spec hpaid
  simp only [if_neg (CollectorFeeDetails.totalTransactionFee_ne_zero hfee),
    hpaid, hfee, false_implies, iff_true]
  refine ⟨?_, fun e herror => congrArg accounts (hrefused e herror)⟩
  have hdecrease : ∀ x : U64, bank.capitalization - (bank.capitalization - x) = x := by
    intro x
    bv_omega
  rw [hcap, hdecrease, toNat_saturatingAdd, Nat.min_eq_right]
  · show after.collectorBalance + _ = _
    omega
  · have := le_def.1 hle
    unfold top
    omega

/-- A bank with these fees and an empty collector account. -/
def ofFees (fees : CollectorFeeDetails) : Bank ℕ :=
  ⟨fun _ => none, fun _ _ => true, 1, fees, 100, []⟩

/-- Of priority fees alone nothing is paid or burned. -/
theorem distributeTransactionFeeDetails_priority_only :
    let after := (ofFees ⟨0, 7⟩).distributeTransactionFeeDetails
    after.collectorBalance + (100 - after.capitalization).toNat = 0 ∧
      (ofFees ⟨0, 7⟩).collectorFeeDetails.total = 7 := by
  decide

theorem distributeTransactionFeeDetails_conserves_both :
    let after := (ofFees ⟨11, 7⟩).distributeTransactionFeeDetails
    after.collectorBalance = 13 ∧
      after.collectorBalance + (100 - after.capitalization).toNat = 18 :=
  ⟨by decide, (distributeTransactionFeeDetails_conserves (by decide)).1.2 nofun⟩

end Bank

end Salsa.Fees
