import Salsa.Votor.ParentReady

/-!
# Salsa.Votor.Pool — votes in, certificates out

`consensus_pool.rs` with its vote pools, certificate builder and stake counters. A vote is
looked up by rank, checked against the votes its validator cast before, and put into the pool
of its slot and type; then every certificate it counts for is checked. A failed assertion,
`unwrap` or `expect` is `none`, an error the caller sees is an `Except`.

Ratios of stakes are compared as fractions. The BLS library and the bitmap encoding are a
parameter, `Bls`. Metrics are left out.
-/

namespace Salsa.Votor

/-! ## `common.rs` -/

inductive VoteType where
  | finalize
  | notarize
  | notarizeFallback
  | skip
  | skipFallback
deriving DecidableEq, Repr

inductive CertificateType (Hash : Type) where
  | finalize (slot : ℕ)
  | finalizeFast (slot : ℕ) (blockId : Hash)
  | notarize (slot : ℕ) (blockId : Hash)
  | notarizeFallback (slot : ℕ) (blockId : Hash)
  | skip (slot : ℕ)
deriving Repr

variable {Hash : Type}

section Types

def Vote.blockId : Vote Hash → Option Hash
  | notarize _ blockId | notarizeFallback _ blockId => some blockId
  | finalize _ | skip _ | skipFallback _ => none

def VoteType.getType : Vote Hash → VoteType
  | .notarize _ _ => notarize
  | .notarizeFallback _ _ => notarizeFallback
  | .skip _ => skip
  | .skipFallback _ => skipFallback
  | .finalize _ => finalize

def conflictingTypes : VoteType → List VoteType
  | .finalize => [.notarizeFallback, .skip]
  | .notarize => [.skip, .notarizeFallback]
  | .notarizeFallback => [.finalize, .notarize]
  | .skip => [.finalize, .notarize, .skipFallback]
  | .skipFallback => [.skip]

namespace CertificateType

def slot : CertificateType Hash → ℕ
  | finalize slot | finalizeFast slot _ | notarize slot _ | notarizeFallback slot _ | skip slot =>
    slot

def blockId : CertificateType Hash → Option Hash
  | finalize _ | skip _ => none
  | finalizeFast _ blockId | notarize _ blockId | notarizeFallback _ blockId => some blockId

/-- The position in the order the source derives: the variant, the slot, the block. -/
def position : CertificateType Hash → ℕ ×ₗ ℕ ×ₗ WithBot Hash
  | finalize slot => toLex (0, toLex (slot, ⊥))
  | finalizeFast slot blockId => toLex (1, toLex (slot, WithBot.some blockId))
  | notarize slot blockId => toLex (2, toLex (slot, WithBot.some blockId))
  | notarizeFallback slot blockId => toLex (3, toLex (slot, WithBot.some blockId))
  | skip slot => toLex (4, toLex (slot, ⊥))

theorem position_injective : (position : CertificateType Hash → _).Injective := by
  intro a b h
  cases a <;> cases b <;> cases h <;> rfl

instance [LinearOrder Hash] : LinearOrder (CertificateType Hash) :=
  LinearOrder.lift' position position_injective

end CertificateType

/-- A stake fraction: numerator and denominator. -/
abbrev Limit := ℕ × ℕ

def Limit.above (limit : Limit) (stake total : ℕ) : Prop := stake * limit.2 < limit.1 * total

instance (limit : Limit) (stake total : ℕ) : Decidable (limit.above stake total) :=
  inferInstanceAs (Decidable (_ < _))

def certificateLimitsAndVoteTypes : CertificateType Hash → Limit × List VoteType
  | .notarize _ _ => ((3, 5), [.notarize])
  | .notarizeFallback _ _ => ((3, 5), [.notarize, .notarizeFallback])
  | .finalizeFast _ _ => ((4, 5), [.notarize])
  | .finalize _ => ((3, 5), [.finalize])
  | .skip _ => ((3, 5), [.skip, .skipFallback])

def voteToCertificateIds : Vote Hash → List (CertificateType Hash)
  | .notarize slot blockId =>
      [.notarize slot blockId, .notarizeFallback slot blockId, .finalizeFast slot blockId]
  | .notarizeFallback slot blockId => [.notarizeFallback slot blockId]
  | .finalize slot => [.finalize slot]
  | .skip slot => [.skip slot]
  | .skipFallback slot => [.skip slot]

end Types

def maxEntriesPerPubkeyForOtherTypes : ℕ := 1

def maxStake : ℕ := 18446744073709551615

def saturatingAdd (a b : ℕ) : ℕ := min maxStake (a + b)

/-! ## Messages and epoch stakes -/

structure VoteMessage (Hash Sig : Type) where
  vote : Vote Hash
  signature : Sig
  rank : ℕ

/-- What the pool reads of `VersionedEpochStakes`: the vote accounts by rank, their stakes and
the total. Only accounts with stake have a rank. -/
structure EpochStakes (Pubkey : Type) where
  sortedPubkeys : List Pubkey
  voteAccountStake : Pubkey → ℕ
  totalStake : ℕ
  nodup : sortedPubkeys.Nodup
  stake_pos : ∀ key ∈ sortedPubkeys, 0 < voteAccountStake key
  sum_le : (sortedPubkeys.map voteAccountStake).sum ≤ totalStake
  total_le : totalStake ≤ maxStake

/-- The epoch schedule and the epoch stakes. -/
structure Epochs (Pubkey : Type) where
  getEpoch : ℕ → ℕ
  epochStakesMap : ℕ → Option (EpochStakes Pubkey)

/-- What the pool uses of `solana_bls_signatures` and `solana_signer_store`. A bitmap is its
length and the set of its ones; `none` is an error. -/
class Bls (Sig : Type) where
  SignatureProjective : Type
  identity : SignatureProjective
  aggregateWith : SignatureProjective → List Sig → Option SignatureProjective
  toSignature : SignatureProjective → Sig
  encodeBase2 : ℕ → Finset ℕ → Option (List UInt8)
  encodeBase3 : ℕ → Finset ℕ → Finset ℕ → Option (List UInt8)

def maximumValidators : ℕ := 4096

/-- The documented behaviour of the two libraries: points of the curve can be added up, a bitmap
within the limit can be encoded, and so can two of them with no position in common. -/
structure Bls.Lawful (Sig : Type) [Bls Sig] (onCurve : Sig → Prop) : Prop where
  aggregateWith : ∀ (p : SignatureProjective Sig) (signatures : List Sig),
    (∀ s ∈ signatures, onCurve s) → ∃ p', Bls.aggregateWith p signatures = some p'
  encodeBase2 : ∀ length ≤ maximumValidators, ∀ ones,
    ∃ bytes, Bls.encodeBase2 Sig length ones = some bytes
  encodeBase3 : ∀ length ≤ maximumValidators, ∀ ones twos : Finset ℕ, Disjoint ones twos →
    ∃ bytes, Bls.encodeBase3 Sig length ones twos = some bytes

/-! ## `vote_pool.rs` -/

variable {Pubkey Hash Sig : Type}

section Pools

variable [DecidableEq Pubkey] [DecidableEq Hash]

structure SimpleVotePool (Pubkey Hash Sig : Type) where
  votes : List (VoteMessage Hash Sig) := []
  totalStake : ℕ := 0
  prevVotedValidators : Finset Pubkey := ∅

namespace SimpleVotePool

/-- `add_vote`: the new total if the validator had not voted. -/
def addVote (p : SimpleVotePool Pubkey Hash Sig) (validatorVoteKey : Pubkey)
    (validatorStake : ℕ) (vote : VoteMessage Hash Sig) :
    SimpleVotePool Pubkey Hash Sig × Option ℕ :=
  if validatorVoteKey ∈ p.prevVotedValidators then (p, none)
  else
    let totalStake := saturatingAdd p.totalStake validatorStake
    ({ votes := p.votes ++ [vote], totalStake := totalStake,
       prevVotedValidators := insert validatorVoteKey p.prevVotedValidators }, some totalStake)

def hasPrevValidatorVote (p : SimpleVotePool Pubkey Hash Sig) (validatorVoteKey : Pubkey) : Bool :=
  validatorVoteKey ∈ p.prevVotedValidators

end SimpleVotePool

structure VoteEntry (Hash Sig : Type) where
  votes : List (VoteMessage Hash Sig) := []
  totalStakeByKey : ℕ := 0

structure DuplicateBlockVotePool (Pubkey Hash Sig : Type) where
  maxEntriesPerPubkey : ℕ
  voteEntries : Hash → Option (VoteEntry Hash Sig)
  prevVotedBlockIds : Pubkey → Option (Finset Hash)

namespace DuplicateBlockVotePool

def new (maxEntriesPerPubkey : ℕ) : DuplicateBlockVotePool Pubkey Hash Sig where
  maxEntriesPerPubkey := maxEntriesPerPubkey
  voteEntries _ := none
  prevVotedBlockIds _ := none

variable (p : DuplicateBlockVotePool Pubkey Hash Sig)

/-- `add_vote`: the new total of the block if the validator had room for it; `none` for a vote
without a block. -/
def addVote (validatorVoteKey : Pubkey) (validatorStake : ℕ) (vote : VoteMessage Hash Sig) :
    Option (DuplicateBlockVotePool Pubkey Hash Sig × Option ℕ) :=
  vote.vote.blockId.map fun blockId =>
    let prevVotedBlockIds := (p.prevVotedBlockIds validatorVoteKey).getD ∅
    if blockId ∈ prevVotedBlockIds ∨ p.maxEntriesPerPubkey ≤ prevVotedBlockIds.card then
      ({ p with prevVotedBlockIds :=
          Function.update p.prevVotedBlockIds validatorVoteKey (some prevVotedBlockIds) }, none)
    else
      let voteEntry := (p.voteEntries blockId).getD {}
      let totalStake := saturatingAdd voteEntry.totalStakeByKey validatorStake
      ({ p with
          prevVotedBlockIds := Function.update p.prevVotedBlockIds validatorVoteKey
            (some (insert blockId prevVotedBlockIds))
          voteEntries := Function.update p.voteEntries blockId
            (some ⟨voteEntry.votes ++ [vote], totalStake⟩) }, some totalStake)

def totalStakeByBlockId (blockId : Hash) : ℕ :=
  (p.voteEntries blockId).elim 0 VoteEntry.totalStakeByKey

def votes (blockId : Hash) : Option (List (VoteMessage Hash Sig)) :=
  (p.voteEntries blockId).map VoteEntry.votes

def hasPrevValidatorVoteForBlock (validatorVoteKey : Pubkey) (blockId : Hash) : Bool :=
  (p.prevVotedBlockIds validatorVoteKey).any (blockId ∈ ·)

def hasPrevValidatorVote (validatorVoteKey : Pubkey) : Bool :=
  (p.prevVotedBlockIds validatorVoteKey).isSome

end DuplicateBlockVotePool

inductive VotePool (Pubkey Hash Sig : Type) where
  | simpleVotePool (pool : SimpleVotePool Pubkey Hash Sig)
  | duplicateBlockVotePool (pool : DuplicateBlockVotePool Pubkey Hash Sig)

def VotePool.addVote (pool : VotePool Pubkey Hash Sig) (validatorVoteKey : Pubkey)
    (validatorStake : ℕ) (vote : VoteMessage Hash Sig) :
    Option (VotePool Pubkey Hash Sig × Option ℕ) :=
  match pool with
  | .simpleVotePool pool =>
      let (pool, entryStake) := pool.addVote validatorVoteKey validatorStake vote
      some (.simpleVotePool pool, entryStake)
  | .duplicateBlockVotePool pool =>
      (pool.addVote validatorVoteKey validatorStake vote).map fun (pool, entryStake) =>
        (.duplicateBlockVotePool pool, entryStake)

end Pools

/-! ## `certificate_builder.rs` -/

inductive AggregateError where
  | bls
  | invalidRank (rank : ℕ)
  | validatorAlreadyIncluded
deriving DecidableEq

inductive BuildError where
  | encode
  | invalidRank (rank : ℕ)

structure Certificate (Hash Sig : Type) where
  certType : CertificateType Hash
  signature : Sig
  bitmap : List UInt8

/-- `CertificateBuilder`. A bitmap of `MAXIMUM_VALIDATORS` bits is the set of its ones. -/
structure CertificateBuilder (Hash Sig : Type) [Bls Sig] where
  certType : CertificateType Hash
  signature : Bls.SignatureProjective Sig
  inputBitmap1 : Finset ℕ
  inputBitmap2 : Finset ℕ

def trySetBitmap (bitmap : Finset ℕ) (rank : ℕ) : Except AggregateError (Finset ℕ) :=
  if maximumValidators ≤ rank then .error (.invalidRank rank)
  else if rank ∈ bitmap then .error .validatorAlreadyIncluded
  else .ok (insert rank bitmap)

namespace CertificateBuilder

variable {Hash Sig : Type} [Bls Sig]

def new (certType : CertificateType Hash) : CertificateBuilder Hash Sig where
  certType := certType
  signature := Bls.identity
  inputBitmap1 := ∅
  inputBitmap2 := ∅

/-- One message of `aggregate`: its rank goes into the bitmap of its type. -/
def setRank (voteTypes : List VoteType) (builder : CertificateBuilder Hash Sig)
    (message : VoteMessage Hash Sig) :
    Except AggregateError (CertificateBuilder Hash Sig) :=
  let currentVoteType := VoteType.getType message.vote
  if voteTypes[0]? = some currentVoteType then
    (trySetBitmap builder.inputBitmap1 message.rank).map ({ builder with inputBitmap1 := · })
  else if voteTypes.length = 2 ∧ voteTypes[1]? = some currentVoteType then
    (trySetBitmap builder.inputBitmap2 message.rank).map ({ builder with inputBitmap2 := · })
  else .ok builder

/-- The signatures of the messages are added. -/
def addSignatures (messages : List (VoteMessage Hash Sig)) (builder : CertificateBuilder Hash Sig) :
    Except AggregateError (CertificateBuilder Hash Sig) :=
  match Bls.aggregateWith builder.signature (messages.map VoteMessage.signature) with
  | some signature => .ok { builder with signature := signature }
  | none => .error .bls

def aggregate (builder : CertificateBuilder Hash Sig) (messages : List (VoteMessage Hash Sig)) :
    Except AggregateError (CertificateBuilder Hash Sig) :=
  let voteTypes := (certificateLimitsAndVoteTypes builder.certType).2
  (messages.foldlM (setRank voteTypes) builder).bind (addSignatures messages)

/-- One past the last one of a bitmap. -/
def lastOne (bitmap : Finset ℕ) : ℕ := bitmap.sup (· + 1)

def build (builder : CertificateBuilder Hash Sig) : Except BuildError (Certificate Hash Sig) :=
  let newLength := max (lastOne builder.inputBitmap1) (lastOne builder.inputBitmap2)
  if maximumValidators < newLength then .error (.invalidRank newLength)
  else
    let encoded :=
      if 0 < builder.inputBitmap2.card then
        Bls.encodeBase3 Sig newLength builder.inputBitmap1 builder.inputBitmap2
      else Bls.encodeBase2 Sig newLength builder.inputBitmap1
    match encoded with
    | some bitmap => .ok ⟨builder.certType, Bls.toSignature builder.signature, bitmap⟩
    | none => .error .encode

end CertificateBuilder

/-! ## `slot_stake_counters.rs` -/

section Counters

variable [LinearOrder Hash]

structure SlotStakeCounters (Hash : Type) [LinearOrder Hash] where
  myFirstVote : Option (Vote Hash) := none
  totalStake : ℕ
  skipTotal : ℕ := 0
  notarizeTotal : ℕ := 0
  notarizeEntryTotal : OrdMap Hash ℕ := OrdMap.empty
  topNotarizedStake : ℕ := 0
  safeToNotarSent : List Hash := []
  safeToSkipSent : Bool := false

namespace SlotStakeCounters

variable (self : SlotStakeCounters Hash)

/-- The stake of the vote is counted; `none` for the types that are of no interest. -/
def count (vote : Vote Hash) (entryStake : ℕ) : Option (SlotStakeCounters Hash) :=
  match vote with
  | .skip _ => some { self with skipTotal := entryStake }
  | .notarize _ blockId =>
      let oldEntryStake := (self.notarizeEntryTotal.get blockId).getD 0
      some { self with
        notarizeEntryTotal := self.notarizeEntryTotal.insert blockId entryStake
        notarizeTotal := saturatingAdd (self.notarizeTotal - oldEntryStake) entryStake
        topNotarizedStake := max self.topNotarizedStake entryStake }
  | _ => none

/-- `is_safe_to_notar`: 40% notarized, or 20% notarized and 60% notarized or skipped. -/
def isSafeToNotar (blockId : Hash) (stake : ℕ) : Bool :=
  if self.myFirstVote.any fun vote =>
      VoteType.getType vote = .notarize ∧ vote.blockId = some blockId then false
  else
    ¬ Limit.above (2, 5) stake self.totalStake ∨
      (¬ Limit.above (1, 5) stake self.totalStake ∧
        ¬ Limit.above (3, 5) (stake + self.skipTotal) self.totalStake)

/-- `is_safe_to_skip`: 40% of the stake is not behind the block with the most. -/
def isSafeToSkip : Bool :=
  if self.myFirstVote.any fun vote => VoteType.getType vote = .notarize then
    ¬ Limit.above (2, 5)
      (saturatingAdd self.skipTotal (self.notarizeTotal - self.topNotarizedStake)) self.totalStake
  else false

/-- One block of the loop that reports blocks safe to notarize. -/
def checkSafeToNotar (slot : ℕ) (state : SlotStakeCounters Hash × List (Event Hash))
    (entry : Hash × ℕ) : SlotStakeCounters Hash × List (Event Hash) :=
  let (self, events) := state
  if entry.1 ∉ self.safeToNotarSent ∧ self.isSafeToNotar entry.1 entry.2 then
    ({ self with safeToNotarSent := self.safeToNotarSent ++ [entry.1] },
      events ++ [.safeToNotar (slot, entry.1)])
  else (self, events)

def addVote (vote : Vote Hash) (entryStake : ℕ) (isMyOwnVote : Bool) (events : List (Event Hash)) :
    SlotStakeCounters Hash × List (Event Hash) :=
  match self.count vote entryStake with
  | none => (self, events)
  | some self =>
      let self := if self.myFirstVote.isNone ∧ isMyOwnVote then
        { self with myFirstVote := some vote } else self
      if self.myFirstVote.isNone then (self, events)
      else
        let slot := vote.slot
        let (self, events) :=
          self.notarizeEntryTotal.entries.foldl (checkSafeToNotar slot) (self, events)
        if ¬ self.safeToSkipSent ∧ self.isSafeToSkip then
          ({ self with safeToSkipSent := true }, events ++ [.safeToSkip slot])
        else (self, events)

end SlotStakeCounters

end Counters

/-! ## `consensus_pool.rs` -/

/-- `AddVoteError`, as far as the pool itself returns it. -/
inductive AddVoteError (Pubkey : Type) where
  | conflictingVoteType (voteType conflictingType : VoteType) (slot : ℕ) (pubkey : Pubkey)
  | epochStakesNotFound (epoch : ℕ)
  | unrootedSlot
  | certificateBuilder (error : BuildError)
  | invalidRank (rank : ℕ)

namespace Epochs

variable {Pubkey : Type}

/-- The epoch stakes that count in a slot. -/
def stakesAt (epochs : Epochs Pubkey) (slot : ℕ) : Option (EpochStakes Pubkey) :=
  epochs.epochStakesMap (epochs.getEpoch slot)

/-- `get_key_and_stakes`: the key, its stake and the total. -/
def getKeyAndStakes (epochs : Epochs Pubkey) (slot rank : ℕ) :
    Option (Except (AddVoteError Pubkey) (Pubkey × ℕ × ℕ)) :=
  match epochs.stakesAt slot with
  | none => some (.error (.epochStakesNotFound (epochs.getEpoch slot)))
  | some stakes =>
      match stakes.sortedPubkeys[rank]? with
      | none => some (.error (.invalidRank rank))
      | some voteKey =>
          if stakes.voteAccountStake voteKey = 0 then none
          else some (.ok (voteKey, stakes.voteAccountStake voteKey, stakes.totalStake))

end Epochs

structure ConsensusPool (Pubkey Hash Sig : Type) [LinearOrder Hash] where
  votePools : ℕ × VoteType → Option (VotePool Pubkey Hash Sig)
  completedCertificates : OrdMap (CertificateType Hash) (Certificate Hash Sig)
  parentReadyTracker : ParentReadyTracker Hash
  highestFinalizedSlot : Option ℕ
  highestFinalizedWithNotarize : Option (ℕ × Bool)
  slotStakeCountersMap : ℕ → Option (SlotStakeCounters Hash)

namespace ConsensusPool

variable [DecidableEq Pubkey] [LinearOrder Hash] [LeaderWindow]

def newFromRootBank (rootBlock : Block Hash) : ConsensusPool Pubkey Hash Sig where
  votePools _ := none
  completedCertificates := OrdMap.empty
  parentReadyTracker := ParentReadyTracker.new rootBlock
  highestFinalizedSlot := none
  highestFinalizedWithNotarize := none
  slotStakeCountersMap _ := none

def newVotePool : VoteType → VotePool Pubkey Hash Sig
  | .notarizeFallback =>
      .duplicateBlockVotePool (DuplicateBlockVotePool.new maxEntriesPerPubkeyForNotarizeLite)
  | .notarize =>
      .duplicateBlockVotePool (DuplicateBlockVotePool.new maxEntriesPerPubkeyForOtherTypes)
  | _ => .simpleVotePool {}

variable (self : ConsensusPool Pubkey Hash Sig)

def updateVotePool (vote : VoteMessage Hash Sig) (validatorVoteKey : Pubkey) (validatorStake : ℕ) :
    Option (ConsensusPool Pubkey Hash Sig × Option ℕ) := do
  let voteType := VoteType.getType vote.vote
  let poolId := (vote.vote.slot, voteType)
  let (pool, entryStake) ← ((self.votePools poolId).getD (newVotePool voteType)).addVote
    validatorVoteKey validatorStake vote
  some ({ self with votePools := Function.update self.votePools poolId (some pool) }, entryStake)

/-- Whether a pool holds a vote of the validator that a vote for `blockId` conflicts with. -/
def isConflicting (pool : VotePool Pubkey Hash Sig) (validatorVoteKey : Pubkey)
    (blockId : Option Hash) : Bool :=
  match pool with
  | .simpleVotePool pool => pool.hasPrevValidatorVote validatorVoteKey
  | .duplicateBlockVotePool pool =>
      match blockId with
      | some blockId => pool.hasPrevValidatorVoteForBlock validatorVoteKey blockId
      | none => pool.hasPrevValidatorVote validatorVoteKey

def hasConflictingVote (slot : ℕ)
    (voteType : VoteType) (validatorVoteKey : Pubkey) (blockId : Option Hash) :
    Option VoteType :=
  (conflictingTypes voteType).find? fun conflictingType =>
    (self.votePools (slot, conflictingType)).any (isConflicting · validatorVoteKey blockId)

def getNotarizedBlock (slot : ℕ) : Option (Block Hash) :=
  self.completedCertificates.keys.findSome? fun certType =>
    match certType with
    | .notarize s blockId => if slot = s then some (s, blockId) else none
    | _ => none

def isFinalized (slot : ℕ) : Bool :=
  self.completedCertificates.keys.any fun certType =>
    match certType with
    | .finalize s | .finalizeFast s _ => s = slot
    | _ => false

/-- The pool with the events so far. -/
abbrev WithEvents (Pubkey Hash Sig : Type) [LinearOrder Hash] :=
  ConsensusPool Pubkey Hash Sig × List (Event Hash)

def track (state : WithEvents Pubkey Hash Sig)
    (update : ParentReadyTracker Hash → List (ℕ × Block Hash) →
      Option (ParentReadyTracker Hash × List (ℕ × Block Hash))) :
    Option (WithEvents Pubkey Hash Sig) := do
  let (tracker, ready) ← update state.1.parentReadyTracker []
  some ({ state.1 with parentReadyTracker := tracker },
    state.2 ++ ready.map fun (slot, parentBlock) => .parentReady slot parentBlock)

def addNewNotarFallbackOrStronger (state : WithEvents Pubkey Hash Sig)
    (block : Block Hash) : Option (WithEvents Pubkey Hash Sig) :=
  track state fun tracker events => tracker.addNewNotarFallbackOrStronger events block

/-- The block of a finalized slot is reported, and the slot remembered if it is the highest. -/
def reportFinalized (state : WithEvents Pubkey Hash Sig) (block : Block Hash) :
    WithEvents Pubkey Hash Sig :=
  let (self, events) := state
  (if self.highestFinalizedWithNotarize.all (·.1 < block.1) then
      { self with highestFinalizedWithNotarize := some (block.1, false) } else self,
    events ++ [.finalized block false])

def raiseFinalizedSlot (slot : ℕ) : ConsensusPool Pubkey Hash Sig :=
  if self.highestFinalizedSlot.all (· < slot) then
    { self with highestFinalizedSlot := some slot } else self

def complete (certType : CertificateType Hash)
    (cert : Certificate Hash Sig) : ConsensusPool Pubkey Hash Sig :=
  { self with completedCertificates := self.completedCertificates.insert certType cert }

def insertCertificate (certType : CertificateType Hash) (cert : Certificate Hash Sig)
    (events : List (Event Hash)) : Option (WithEvents Pubkey Hash Sig) :=
  let self := self.complete certType cert
  match certType with
  | .notarizeFallback slot blockId => addNewNotarFallbackOrStronger (self, events) (slot, blockId)
  | .skip slot => track (self, events) fun tracker events => tracker.addNewSkip events slot
  | .notarize slot blockId => do
      let state ← addNewNotarFallbackOrStronger (self, events ++ [.blockNotarized (slot, blockId)])
        (slot, blockId)
      some (if state.1.isFinalized slot then reportFinalized state (slot, blockId) else state)
  | .finalize slot =>
      let (self, events) := match self.getNotarizedBlock slot with
        | some block => reportFinalized (self, events) block
        | none => (self, events)
      some (self.raiseFinalizedSlot slot, events)
  | .finalizeFast slot blockId => do
      let (self, events) ← addNewNotarFallbackOrStronger
        (self, events ++ [.finalized (slot, blockId) true]) (slot, blockId)
      let self := self.raiseFinalizedSlot slot
      some (if self.highestFinalizedWithNotarize.all (·.1 ≤ slot) then
        { self with highestFinalizedWithNotarize := some (slot, true) } else self, events)

/-- The stake a pool has for the block; `none` if a block is needed and there is none. -/
def poolStake (slot : ℕ) (blockId : Option Hash) (voteType : VoteType) : Option ℕ :=
  match self.votePools (slot, voteType) with
  | none => some 0
  | some (.simpleVotePool pool) => some pool.totalStake
  | some (.duplicateBlockVotePool pool) => blockId.map pool.totalStakeByBlockId

/-- The sum over the vote types, in 64 bits. -/
def accumulatedStake (slot : ℕ) (blockId : Option Hash) (voteTypes : List VoteType) : Option ℕ :=
  (voteTypes.mapM (self.poolStake slot blockId)).map fun stakes => stakes.sum % (maxStake + 1)

/-- The votes a pool has for the block, if it has any. -/
def poolVotes (slot : ℕ) (blockId : Option Hash)
    (voteType : VoteType) : Option (Option (List (VoteMessage Hash Sig))) :=
  match self.votePools (slot, voteType) with
  | none => some none
  | some (.simpleVotePool pool) => some (some pool.votes)
  | some (.duplicateBlockVotePool pool) => blockId.map pool.votes

variable [Bls Sig]

/-- The votes of all contributing pools go into a builder. -/
def aggregateVotes (certType : CertificateType Hash)
    (slot : ℕ) (blockId : Option Hash) (voteTypes : List VoteType) :
    Option (Except AggregateError (CertificateBuilder Hash Sig)) :=
  (voteTypes.mapM (self.poolVotes slot blockId)).map fun votes =>
    votes.reduceOption.foldlM CertificateBuilder.aggregate (CertificateBuilder.new certType)

/-- What a call returns, with the pool and the events after it. -/
abbrev Outcome (Pubkey Hash Sig : Type) [LinearOrder Hash] :=
  Except (AddVoteError Pubkey) (List (Certificate Hash Sig)) ×
    WithEvents Pubkey Hash Sig

/-- The loop of `update_certificates`. -/
def checkCertificates (slot : ℕ) (blockId : Option Hash) (totalStake : ℕ) :
    List (CertificateType Hash) → List (Certificate Hash Sig) →
      WithEvents Pubkey Hash Sig → Option (Outcome Pubkey Hash Sig)
  | [], newCertificatesToSend, state => some (.ok newCertificatesToSend, state)
  | certType :: rest, newCertificatesToSend, (self, events) =>
      if self.completedCertificates.contains certType then
        checkCertificates slot blockId totalStake rest newCertificatesToSend (self, events)
      else do
        let (limit, voteTypes) := certificateLimitsAndVoteTypes certType
        let stake ← self.accumulatedStake slot blockId voteTypes
        if limit.above stake totalStake then
          checkCertificates slot blockId totalStake rest newCertificatesToSend (self, events)
        else
          match ← self.aggregateVotes certType slot blockId voteTypes with
          | .error _ => none
          | .ok builder =>
              match builder.build with
              | .error error => some (.error (.certificateBuilder error), self, events)
              | .ok newCert => do
                  let state ← self.insertCertificate certType newCert events
                  checkCertificates slot blockId totalStake rest
                    (newCertificatesToSend ++ [newCert]) state

def updateCertificates (vote : Vote Hash)
    (blockId : Option Hash) (events : List (Event Hash)) (totalStake : ℕ) :
    Option (Outcome Pubkey Hash Sig) :=
  checkCertificates vote.slot blockId totalStake (voteToCertificateIds vote) [] (self, events)

/-- `fallback_vote_counters.add_vote` on the counters of the slot. -/
def countVote (vote : Vote Hash) (entryStake : ℕ)
    (isMyOwnVote : Bool) (events : List (Event Hash)) (totalStake : ℕ) :
    WithEvents Pubkey Hash Sig :=
  let counters := (self.slotStakeCountersMap vote.slot).getD { totalStake := totalStake }
  let (counters, events) := counters.addVote vote entryStake isMyOwnVote events
  ({ self with slotStakeCountersMap :=
      Function.update self.slotStakeCountersMap vote.slot (some counters) }, events)

def addVote (epochs : Epochs Pubkey) (myVotePubkey : Pubkey)
    (state : WithEvents Pubkey Hash Sig) (rootSlot : ℕ)
    (message : VoteMessage Hash Sig) : Option (Outcome Pubkey Hash Sig) := do
  let (self, events) := state
  let vote := message.vote
  match ← epochs.getKeyAndStakes vote.slot message.rank with
  | .error error => some (.error error, state)
  | .ok (validatorVoteKey, validatorStake, totalStake) =>
      if vote.slot < rootSlot then some (.error .unrootedSlot, state)
      else
        let voteType := VoteType.getType vote
        match self.hasConflictingVote vote.slot voteType validatorVoteKey vote.blockId with
        | some conflictingType =>
            some (.error (.conflictingVoteType voteType conflictingType vote.slot
              validatorVoteKey), state)
        | none => do
            match ← self.updateVotePool message validatorVoteKey validatorStake with
            | (self, none) => some (.ok [], self, events)
            | (self, some entryStake) =>
                let (self, events) := self.countVote vote entryStake
                  (myVotePubkey = validatorVoteKey) events totalStake
                self.updateCertificates vote vote.blockId events totalStake

end ConsensusPool

end Salsa.Votor
