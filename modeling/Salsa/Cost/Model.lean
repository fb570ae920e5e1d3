import Salsa.Lib.Saturating

/-!
# Salsa.Cost.Model — what a transaction costs

`cost_model.rs`, `transaction_cost.rs` and `block_cost_limits.rs`: the cost of
a transaction from its signatures, write locks, instruction data, executed
compute units and loaded account data, and the account data it allocates.

Values of other crates are parameters (`Env`): the activation of two features,
the memory price of the fee structure, and the allocation limits of the system
program interface. Decoding a system instruction is the source's
`limited_deserialize`; the model takes its outcome.
-/

namespace Salsa.Cost

open Saturating

abbrev U64 := BitVec 64

/-- The features and the constants of other crates that the cost model reads. -/
structure Env where
  ed25519PrecompileVerifyStrict : Bool
  enableSecp256r1Precompile : Bool
  /-- `FeeStructure::calculate_memory_usage_cost(_, DEFAULT_HEAP_COST)`. -/
  memoryUsageCost : BitVec 32 → U64
  maxPermittedDataLength : U64
  /-- `MAX_PERMITTED_ACCOUNTS_DATA_ALLOCATIONS_PER_TRANSACTION`. -/
  maxPermittedAllocations : U64

/-! ## `block_cost_limits.rs` -/

def computeUnitToUsRatio : U64 := 30
def signatureCost : U64 := computeUnitToUsRatio * 24
def secp256k1VerifyCost : U64 := computeUnitToUsRatio * 223
def ed25519VerifyCost : U64 := computeUnitToUsRatio * 76
def ed25519VerifyStrictCost : U64 := computeUnitToUsRatio * 80
def secp256r1VerifyCost : U64 := computeUnitToUsRatio * 160
def writeLockUnits : U64 := computeUnitToUsRatio * 10
def instructionDataBytesCost : U64 := 140 / computeUnitToUsRatio
def maxBlockAccountsDataSizeDelta : U64 := 100000000

/-- `SIMPLE_VOTE_USAGE_COST`: the static cost of a simple vote. -/
def simpleVoteUsageCost : U64 := 3428

/-! ## Transactions -/

/-- The system instructions that allocate, each with its `space`; every other
one is `other`. -/
inductive SystemInstruction where
  | createAccount (space : U64)
  | createAccountWithSeed (space : U64)
  | allocate (space : U64)
  | allocateWithSeed (space : U64)
  | other
deriving DecidableEq, Repr

/-- An instruction with its program: of the system program, as decoded, or of
another program. -/
inductive ProgramInstruction where
  | system (decoded : Option SystemInstruction)
  | other
deriving DecidableEq, Repr

structure SignatureDetails where
  numTransactionSignatures : U64
  numSecp256k1InstructionSignatures : U64
  numEd25519InstructionSignatures : U64
  numSecp256r1InstructionSignatures : U64
deriving DecidableEq, Repr

/-- What the cost model and the tracker read of a transaction. -/
structure Tx (Key : Type) where
  isSimpleVoteTransaction : Bool
  /-- `account_keys()` in order, each with `is_writable(i)`. -/
  accountKeys : List (Key × Bool)
  /-- `num_write_locks()`: the requested write locks, demoted ones included. -/
  numWriteLocks : U64
  signatureDetails : SignatureDetails
  numTransactionSignatures : U64
  instructionDataLen : BitVec 16
  programInstructions : List ProgramInstruction
deriving DecidableEq, Repr

/-! ## `CostModel` -/

structure UsageCostDetails (Key : Type) where
  transaction : Tx Key
  signatureCost : U64
  writeLockCost : U64
  dataBytesCost : BitVec 16
  programsExecutionCost : U64
  loadedAccountsDataSizeCost : U64
  allocatedAccountsDataSize : U64

inductive TransactionCost (Key : Type) where
  | simpleVote (transaction : Tx Key)
  | transaction (usageCost : UsageCostDetails Key)

variable {Key : Type}

variable (env : Env)

def getSignatureCost (tx : Tx Key) : U64 :=
  let details := tx.signatureDetails
  let ed25519Cost :=
    if env.ed25519PrecompileVerifyStrict then ed25519VerifyStrictCost else ed25519VerifyCost
  let secp256r1Cost := if env.enableSecp256r1Precompile then secp256r1VerifyCost else 0
  saturatingAdd
    (saturatingAdd
      (saturatingAdd (saturatingMul details.numTransactionSignatures signatureCost)
        (saturatingMul details.numSecp256k1InstructionSignatures secp256k1VerifyCost))
      (saturatingMul details.numEd25519InstructionSignatures ed25519Cost))
    (saturatingMul details.numSecp256r1InstructionSignatures secp256r1Cost)

def getWriteLockCost (numWriteLocks : U64) : U64 := saturatingMul writeLockUnits numWriteLocks

/-- `get_instructions_data_cost`: a `u16` division. -/
def getInstructionsDataCost (tx : Tx Key) : BitVec 16 :=
  tx.instructionDataLen / instructionDataBytesCost.truncate 16

def calculateLoadedAccountsDataSizeCost (size : BitVec 32) : U64 :=
  env.memoryUsageCost size

inductive SystemProgramAccountAllocation where
  | none
  | some (space : U64)
  | failed
deriving DecidableEq, Repr

/-- `calculate_account_data_size_on_deserialized_system_instruction`. -/
def accountDataSizeOnSystemInstruction :
    SystemInstruction → SystemProgramAccountAllocation
  | .createAccount space | .createAccountWithSeed space | .allocate space
  | .allocateWithSeed space =>
      if env.maxPermittedDataLength < space then .failed else .some space
  | .other => .none

def accountDataSizeOnInstruction : ProgramInstruction → SystemProgramAccountAllocation
  | .system (Option.some instruction) => accountDataSizeOnSystemInstruction env instruction
  | .system Option.none => .failed
  | .other => .none

/-- The loop of `calculate_allocated_accounts_data_size`; `none` is the early
return of 0. -/
def attemptedAllocationSize : List ProgramInstruction → U64 → Option U64
  | [], size => some size
  | instruction :: rest, size =>
      match accountDataSizeOnInstruction env instruction with
      | .failed => none
      | .none => attemptedAllocationSize rest size
      | .some space => attemptedAllocationSize rest (saturatingAdd size space)

def calculateAllocatedAccountsDataSize (instructions : List ProgramInstruction) : U64 :=
  match attemptedAllocationSize env instructions 0 with
  | none => 0
  | some size => if env.maxPermittedAllocations < size then env.maxPermittedAllocations else size

def calculateNonVoteTransactionCost (tx : Tx Key) (programsExecutionCost : U64)
    (loadedAccountsDataSizeCost : U64) (dataBytesCost : BitVec 16) : TransactionCost Key :=
  .transaction {
    transaction := tx
    signatureCost := getSignatureCost env tx
    writeLockCost := getWriteLockCost tx.numWriteLocks
    dataBytesCost := dataBytesCost
    programsExecutionCost := programsExecutionCost
    loadedAccountsDataSizeCost := loadedAccountsDataSizeCost
    allocatedAccountsDataSize := calculateAllocatedAccountsDataSize env tx.programInstructions }

/-- `get_estimated_execution_cost`; `limits` is the unit limit and the loaded size
that the transaction asks for, if its compute budget instructions are valid. -/
def getEstimatedExecutionCost (limits : Option (BitVec 32 × BitVec 32)) : U64 × U64 :=
  match limits with
  | some (computeUnitLimit, loadedAccountsBytes) =>
      (computeUnitLimit.zeroExtend 64, calculateLoadedAccountsDataSizeCost env loadedAccountsBytes)
  | none => (0, 0)

/-- `calculate_cost`: the estimate before execution. -/
def calculateCost (limits : Option (BitVec 32 × BitVec 32)) (tx : Tx Key) :
    TransactionCost Key :=
  if tx.isSimpleVoteTransaction then .simpleVote tx
  else
    let (programsExecutionCost, loadedAccountsDataSizeCost) := getEstimatedExecutionCost env limits
    calculateNonVoteTransactionCost env tx programsExecutionCost loadedAccountsDataSizeCost
      (getInstructionsDataCost tx)

def calculateCostForExecutedTransaction (tx : Tx Key)
    (actualProgramsExecutionCost : U64) (actualLoadedAccountsDataSizeBytes : BitVec 32) :
    TransactionCost Key :=
  if tx.isSimpleVoteTransaction then .simpleVote tx
  else
    calculateNonVoteTransactionCost env tx actualProgramsExecutionCost
      (calculateLoadedAccountsDataSizeCost env actualLoadedAccountsDataSizeBytes)
      (getInstructionsDataCost tx)

/-! ## `TransactionCost` -/

def UsageCostDetails.sum (c : UsageCostDetails Key) : U64 :=
  saturatingAdd
    (saturatingAdd
      (saturatingAdd (saturatingAdd c.signatureCost c.writeLockCost)
        (c.dataBytesCost.zeroExtend 64))
      c.programsExecutionCost)
    c.loadedAccountsDataSizeCost

namespace TransactionCost

def sum : TransactionCost Key → U64
  | simpleVote _ => simpleVoteUsageCost
  | transaction usageCost => usageCost.sum

/-- For a vote `vote_processor::DEFAULT_COMPUTE_UNITS`. -/
def programsExecutionCost : TransactionCost Key → U64
  | simpleVote _ => 2100
  | transaction usageCost => usageCost.programsExecutionCost

/-- A vote loads one page. -/
def loadedAccountsDataSizeCost : TransactionCost Key → U64
  | simpleVote _ => 8
  | transaction usageCost => usageCost.loadedAccountsDataSizeCost

def dataBytesCost : TransactionCost Key → BitVec 16
  | simpleVote _ => 0
  | transaction usageCost => usageCost.dataBytesCost

def signatureCost : TransactionCost Key → U64
  | simpleVote _ => Cost.signatureCost
  | transaction usageCost => usageCost.signatureCost

def writeLockCost : TransactionCost Key → U64
  | simpleVote _ => saturatingMul writeLockUnits 2
  | transaction usageCost => usageCost.writeLockCost

def isSimpleVote : TransactionCost Key → Bool
  | simpleVote _ => true
  | transaction _ => false

def allocatedAccountsDataSize : TransactionCost Key → U64
  | simpleVote _ => 0
  | transaction usageCost => usageCost.allocatedAccountsDataSize

def tx : TransactionCost Key → Tx Key
  | simpleVote vote => vote
  | transaction usageCost => usageCost.transaction

/-- `writable_accounts`: every writable occurrence, in order. -/
def writableAccounts (c : TransactionCost Key) : List Key :=
  (c.tx.accountKeys.filter (·.2)).map (·.1)

def numTransactionSignatures : TransactionCost Key → U64
  | simpleVote _ => 1
  | transaction usageCost => usageCost.transaction.signatureDetails.numTransactionSignatures

def numSecp256k1InstructionSignatures : TransactionCost Key → U64
  | simpleVote _ => 0
  | transaction usageCost =>
      usageCost.transaction.signatureDetails.numSecp256k1InstructionSignatures

def numEd25519InstructionSignatures : TransactionCost Key → U64
  | simpleVote _ => 0
  | transaction usageCost =>
      usageCost.transaction.signatureDetails.numEd25519InstructionSignatures

def numSecp256r1InstructionSignatures : TransactionCost Key → U64
  | simpleVote _ => 0
  | transaction usageCost =>
      usageCost.transaction.signatureDetails.numSecp256r1InstructionSignatures

end TransactionCost

/-! ## Facts about the cost -/

section Facts

variable (tx : Tx Key) (units : U64) (loaded : BitVec 32)

/-- Both branches keep the transaction and its vote flag. -/
@[simp] theorem calculateCost_tx :
    (calculateCostForExecutedTransaction env tx units loaded).tx = tx := by
  unfold calculateCostForExecutedTransaction calculateNonVoteTransactionCost
  split <;> rfl

@[simp] theorem calculateCost_isSimpleVote :
    (calculateCostForExecutedTransaction env tx units loaded).isSimpleVote =
      tx.isSimpleVoteTransaction := by
  unfold calculateCostForExecutedTransaction calculateNonVoteTransactionCost
  cases h : tx.isSimpleVoteTransaction <;> rfl

/-- Capping every step of the sum is capping the sum. -/
theorem toNat_getSignatureCost : (getSignatureCost env tx).toNat =
    min (top 64) (tx.signatureDetails.numTransactionSignatures.toNat * 720 +
      tx.signatureDetails.numSecp256k1InstructionSignatures.toNat * 6690 +
      tx.signatureDetails.numEd25519InstructionSignatures.toNat *
        (if env.ed25519PrecompileVerifyStrict then 2400 else 2280) +
      tx.signatureDetails.numSecp256r1InstructionSignatures.toNat *
        (if env.enableSecp256r1Precompile then 4800 else 0)) := by
  have hed : (if env.ed25519PrecompileVerifyStrict then 2400 else 2280) =
      (if env.ed25519PrecompileVerifyStrict then ed25519VerifyStrictCost
        else ed25519VerifyCost : U64).toNat := by
    split_ifs <;> rfl
  have hr1 : (if env.enableSecp256r1Precompile then 4800 else 0) =
      (if env.enableSecp256r1Precompile then secp256r1VerifyCost else 0 : U64).toNat := by
    split_ifs <;> rfl
  rw [hed, hr1]
  exact toNat_saturatingAdd_of_eq_min (toNat_saturatingAdd_of_eq_min
    (toNat_saturatingAdd_of_eq_min (toNat_saturatingMul _ _) (toNat_saturatingMul _ _))
    (toNat_saturatingMul _ _)) (toNat_saturatingMul _ _)

/-- The division is one of numbers. -/
theorem toNat_getInstructionsDataCost :
    (getInstructionsDataCost tx).toNat = tx.instructionDataLen.toNat / 4 := by
  have hfour : (instructionDataBytesCost.truncate 16 : BitVec 16).toNat = 4 := rfl
  rw [getInstructionsDataCost, BitVec.toNat_udiv, hfour]

end Facts

namespace TransactionCost

variable {Key : Type}

/-- What a transaction costs apart from executing and loading. -/
def baseCost (c : TransactionCost Key) : ℕ :=
  c.signatureCost.toNat + c.writeLockCost.toNat + c.dataBytesCost.toNat

/-- The estimated cost, not capped. -/
def estimatedCost (c : TransactionCost Key) : ℕ :=
  c.baseCost + c.programsExecutionCost.toNat + c.loadedAccountsDataSizeCost.toNat

/-- The static cost of a vote is the sum of its parts, too. -/
theorem toNat_sum (c : TransactionCost Key) : c.sum.toNat = min (top 64) c.estimatedCost := by
  cases c with
  | simpleVote vote =>
    have hsum : (simpleVote vote).sum.toNat = 3428 := rfl
    have hestimated : (simpleVote vote).estimatedCost = 3428 := rfl
    have htop : 3428 ≤ top 64 := by decide
    rw [hsum, hestimated, Nat.min_eq_right htop]
  | transaction usageCost =>
    simp only [sum, UsageCostDetails.sum, toNat_saturatingAdd, estimatedCost, baseCost,
      signatureCost, writeLockCost, dataBytesCost, programsExecutionCost,
      loadedAccountsDataSizeCost]
    have hdata : (usageCost.dataBytesCost.zeroExtend 64).toNat = usageCost.dataBytesCost.toNat := by
      rw [BitVec.zeroExtend_eq_setWidth, BitVec.toNat_setWidth]
      omega
    rw [hdata]
    omega

end TransactionCost

end Salsa.Cost
