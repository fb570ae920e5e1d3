import Salsa.Lib.Fallible
import Salsa.Votor.Ballots

/-!
# Salsa.Votor.Certificates — certificates count every validator once

The vote pools hold the accepted votes (`poolsOf`). What `update_certificates` adds up is the
stake of distinct validators, the ranks that go into the two bitmaps are distinct, and so the
certificate is there from the first vote on that takes it to its limit. The parent-ready tracker
behind the pool takes three blocks of a slot, which bounds the runs that are covered.
-/

namespace Salsa.Votor

open DuplicateBlockVotePool VoteType Finset Ballot Function CertificateBuilder Option

/-! ## Lists -/

/-- Grouping a list by a key that takes each of the given values. -/
theorem flatMap_filter_perm {α β : Type} [DecidableEq β] (f : α → β) {values : List β}
    (hnodup : values.Nodup) {l : List α} (hmem : ∀ a ∈ l, f a ∈ values) :
    (values.flatMap fun b => l.filter fun a => f a = b).Perm l := by
  induction values generalizing l with
  | nil =>
    rw [List.eq_nil_iff_forall_not_mem.mpr fun a ha => List.not_mem_nil (hmem a ha)]
    exact List.Perm.nil
  | cons b values ih =>
    rw [List.nodup_cons] at hnodup
    have hrest : (values.flatMap fun b' => l.filter fun a => f a = b').Perm
        (l.filter fun a => ! decide (f a = b)) := by
      refine List.Perm.trans (List.Perm.of_eq ?_) (ih hnodup.2 (l := l.filter _) ?_)
      · refine List.flatMap_congr fun b' hb' => ?_
        rw [List.filter_filter]
        refine List.filter_congr fun a _ => ?_
        have hne : b' ≠ b := fun h => hnodup.1 (h ▸ hb')
        by_cases ha : f a = b'
        · simp [ha, hne]
        · simp [ha]
      · intro a ha
        rw [List.mem_filter] at ha
        exact (List.mem_cons.mp (hmem a ha.1)).resolve_left (by simpa using ha.2)
    exact (hrest.append_left _).trans (List.filter_append_perm _ l)

/-! ## The votes of a certificate by type -/

variable {Pubkey Hash Sig : Type} {epochs : Epochs Pubkey}
  {log l : List (Ballot Pubkey Hash Sig)} {slot : ℕ} {voteType : VoteType}
  {c : CertificateType Hash} {init : Block Hash} {e : Ballot Pubkey Hash Sig}

section Types

/-- The types of the votes that a certificate takes. -/
abbrev CertificateType.voteTypes (c : CertificateType Hash) : List VoteType :=
  (certificateLimitsAndVoteTypes c).2

/-- A certificate for a block takes votes for blocks, another one does not. -/
theorem blockId_isSome_of_mem (hT : voteType ∈ c.voteTypes) :
    c.blockId.isSome ↔ voteType = .notarize ∨ voteType = .notarizeFallback := by
  cases c <;> cases voteType <;>
    simp_all [CertificateType.voteTypes, certificateLimitsAndVoteTypes, CertificateType.blockId]

def poolLog (log : List (Ballot Pubkey Hash Sig)) (id : ℕ × VoteType) :
    List (Ballot Pubkey Hash Sig) :=
  log.filter fun e => Ballot.poolId e = id

theorem mem_poolLog {id : ℕ × VoteType} : e ∈ poolLog log id ↔ e ∈ log ∧ poolId e = id := by
  rw [poolLog, List.mem_filter, decide_eq_true_eq]

variable [DecidableEq Hash]

/-- The contributing votes of one type. -/
def ofType (log : List (Ballot Pubkey Hash Sig)) (c : CertificateType Hash)
    (voteType : VoteType) : List (Ballot Pubkey Hash Sig) :=
  (contributing log c).filter fun e => VoteType.getType e.2.vote = voteType

theorem ofType_of_simple (hT : voteType ∈ c.voteTypes)
    (hc : c.blockId = none) : ofType log c voteType = poolLog log (c.slot, voteType) := by
  rw [ofType, contributing, List.filter_filter, poolLog]
  refine List.filter_congr fun e _ => ?_
  rw [← Bool.decide_and, decide_eq_decide, poolId, Prod.mk.injEq]
  constructor
  · rintro ⟨htype, hslot, -⟩
    exact ⟨hslot, htype⟩
  · rintro ⟨hslot, htype⟩
    exact ⟨htype, hslot, htype ▸ hT, Or.inl hc⟩

theorem ofType_of_block (hT : voteType ∈ c.voteTypes) {b : Hash} (hc : c.blockId = some b) :
    ofType log c voteType = forBlock (poolLog log (c.slot, voteType)) b := by
  rw [ofType, contributing, List.filter_filter, forBlock, poolLog, List.filter_filter]
  refine List.filter_congr fun e _ => ?_
  rw [← Bool.decide_and, ← Bool.decide_and, decide_eq_decide, poolId, Prod.mk.injEq]
  constructor
  · rintro ⟨htype, hslot, -, hblock⟩
    exact ⟨(hblock.resolve_left (hc ▸ some_ne_none b)).trans hc, hslot, htype⟩
  · rintro ⟨hblock, hslot, htype⟩
    exact ⟨htype, hslot, htype ▸ hT, Or.inr (hblock.trans hc.symm)⟩

theorem flatMap_ofType_perm (log : List (Ballot Pubkey Hash Sig)) (c : CertificateType Hash) :
    (c.voteTypes.flatMap (ofType log c)).Perm (contributing log c) := by
  refine flatMap_filter_perm _ ?_ fun e he => ?_
  · cases c <;> simp [CertificateType.voteTypes, certificateLimitsAndVoteTypes]
  · exact (mem_contributing.mp he).2.2.1

end Types

/-! ## The vote pools -/

section VotePools

variable {key : Pubkey} {message : VoteMessage Hash Sig}

theorem Sound.poolLog_nodup (hs : Sound epochs log) (id : ℕ × VoteType) :
    ((poolLog log id).map Ballot.cast).Nodup :=
  hs.nodup.sublist (List.filter_sublist.map _)

/-- The stakes of distinct validators fit into 64 bits. -/
theorem Sound.stakeSum_add_le (hs : Sound epochs log) {rank : ℕ}
    (hkey : epochs.keyOf slot rank = some key) (hl : ∀ e ∈ l, e ∈ log ∧ e.2.vote.slot = slot)
    (hnodup : (l.map Prod.fst).Nodup) (hnew : key ∉ l.map Prod.fst) :
    stakeSum (epochs.stake slot) l + epochs.stake slot key ≤ maxStake := by
  obtain ⟨stakes, hstakes, hrank⟩ := Epochs.keyOf_eq_some.mp hkey
  have hmem : ∀ k ∈ key :: l.map Prod.fst, k ∈ stakes.sortedPubkeys := by
    intro k hk
    rcases List.mem_cons.mp hk with rfl | hk
    · exact List.mem_of_getElem? hrank
    · obtain ⟨e, he, rfl⟩ := List.mem_map.mp hk
      exact hs.mem_sortedPubkeys (hl e he).1 ((hl e he).2 ▸ hstakes)
  have hsum := stakes.sum_le_total (List.nodup_cons.mpr ⟨hnew, hnodup⟩) hmem
  rw [List.map_cons, List.sum_cons, List.map_map, add_comm] at hsum
  rw [stakeSum, Epochs.stake_eq hstakes]
  exact hsum.trans stakes.total_le

variable [DecidableEq Pubkey]

/-- Room in the pool, in terms of the whole log. -/
theorem room_poolLog {v : Vote Hash} :
    Room (poolLog log (v.slot, getType v)) key v ↔ (key, v) ∉ log.map Ballot.cast ∧
      (log.filter fun e => e.1 = key ∧ poolId e = (v.slot, getType v)).length <
        (getType v).maxEntries := by
  have hcast : (key, v) ∈ (poolLog log (v.slot, getType v)).map Ballot.cast ↔
      (key, v) ∈ log.map Ballot.cast := by
    rw [List.mem_map, List.mem_map]
    refine exists_congr fun e => ?_
    rw [mem_poolLog, and_assoc]
    refine and_congr_right fun _ => and_iff_right_of_imp fun h => ?_
    cases h
    rfl
  have hfilter : ofKey (poolLog log (v.slot, getType v)) key =
      log.filter fun e => e.1 = key ∧ poolId e = (v.slot, getType v) := by
    rw [ofKey, poolLog, List.filter_filter]
    simp only [Bool.decide_and]
  rw [Room, hcast, hfilter]

variable [LinearOrder Hash]

/-- The vote pools that hold a log. -/
def poolsOf (epochs : Epochs Pubkey) (log : List (Ballot Pubkey Hash Sig))
    (id : ℕ × VoteType) : Option (VotePool Pubkey Hash Sig) :=
  if poolLog log id = [] then none
  else some (poolOf (epochs.stake id.1) id.2 (poolLog log id))

open ConsensusPool

theorem getD_poolsOf (id : ℕ × VoteType) :
    (poolsOf epochs log id).getD (newVotePool id.2) =
      poolOf (epochs.stake id.1) id.2 (poolLog log id) := by
  by_cases hnil : poolLog log id = []
  · rw [poolsOf, if_pos hnil, hnil, getD_none, newVotePool_eq]
  · rw [poolsOf, if_neg hnil, getD_some]

theorem poolsOf_append (epochs : Epochs Pubkey) (log : List (Ballot Pubkey Hash Sig))
    (e : Ballot Pubkey Hash Sig) :
    poolsOf epochs (log ++ [e]) = update (poolsOf epochs log) (poolId e)
      (some (poolOf (epochs.stake e.2.vote.slot) (getType e.2.vote)
        (poolLog log (poolId e) ++ [e]))) := by
  have hlog : ∀ id, poolLog (log ++ [e]) id =
      if id = poolId e then poolLog log (poolId e) ++ [e] else poolLog log id := by
    intro id
    by_cases hid : id = poolId e
    · rw [if_pos hid, hid]
      simp [poolLog]
    · rw [if_neg hid]
      simp [poolLog, Ne.symm hid]
  funext id
  by_cases hid : id = poolId e
  · rw [hid, update_self, poolsOf, hlog, if_pos rfl, if_neg (by simp)]
    rfl
  · rw [update_of_ne hid, poolsOf, poolsOf, hlog, if_neg hid]

variable (blockId : Option Hash) {stake : Pubkey → ℕ}

theorem isConflicting_simple :
    isConflicting (.simpleVotePool (.ofLog stake l)) key blockId = true ↔ ∃ e ∈ l, e.1 = key := by
  rw [isConflicting, SimpleVotePool.hasPrevValidatorVote, decide_eq_true_eq,
    SimpleVotePool.ofLog, List.mem_toFinset, List.mem_map]

theorem isConflicting_duplicateBlock {n : ℕ} :
    isConflicting (.duplicateBlockVotePool (.ofLog stake n l)) key blockId = true ↔
      ∃ e ∈ l, e.1 = key ∧ (blockId = none ∨ e.2.vote.blockId = blockId) := by
  cases blockId with
  | none =>
    rw [isConflicting, hasPrevValidatorVote, prevVotedBlockIds_ofLog]
    simp only [true_or, and_true]
    split_ifs with hnil
    · rw [ofKey_eq_nil] at hnil
      exact iff_of_false Bool.false_ne_true (by grind)
    · rw [ofKey_eq_nil] at hnil
      push Not at hnil
      exact ⟨fun _ => hnil, fun _ => rfl⟩
  | some b =>
    rw [isConflicting, hasPrevValidatorVoteForBlock, prevVotedBlockIds_ofLog]
    have hmem : (∃ e ∈ l, e.1 = key ∧ (some b = none ∨ e.2.vote.blockId = some b)) ↔
        b ∈ blocksOf l key := by
      rw [mem_blocksOf]
      simp only [reduceCtorEq, false_or]
    rw [hmem]
    split_ifs with hnil
    · rw [blocksOf, hnil]
      simp
    · rw [any_some, decide_eq_true_eq]

/-- A pool holds a vote of the validator that conflicts. -/
theorem any_isConflicting :
    (poolsOf epochs log (slot, voteType)).any
        (isConflicting · key blockId) = true ↔
      ∃ e ∈ log, poolId e = (slot, voteType) ∧ e.1 = key ∧
        (blockId = none ∨ e.2.vote.blockId = none ∨ e.2.vote.blockId = blockId) := by
  have hlog : ∀ {Q : Ballot Pubkey Hash Sig → Prop},
      (∃ e ∈ log, poolId e = (slot, voteType) ∧ Q e) ↔ ∃ e ∈ poolLog log (slot, voteType), Q e := by
    intro Q
    simp only [mem_poolLog, and_assoc]
  have htype : ∀ e ∈ poolLog log (slot, voteType),
      (e.2.vote.blockId = none ↔ ¬ (voteType = .notarize ∨ voteType = .notarizeFallback)) := by
    intro e he
    rw [← not_isSome_iff_eq_none, Vote.blockId_isSome, show getType e.2.vote =
      voteType from congrArg Prod.snd (mem_poolLog.mp he).2]
  rw [hlog]
  by_cases hnil : poolLog log (slot, voteType) = []
  · rw [poolsOf, if_pos hnil, hnil]
    refine ⟨nofun, ?_⟩
    rintro ⟨e, he, -⟩
    exact (List.not_mem_nil he).elim
  rw [poolsOf, if_neg hnil, any_some]
  cases voteType with
  | notarize | notarizeFallback =>
    refine (isConflicting_duplicateBlock blockId).trans ?_
    refine exists_congr fun e => and_congr_right fun he => and_congr_right fun _ => ?_
    rw [or_iff_right (a := e.2.vote.blockId = none) fun hnone => (htype e he).mp hnone (by decide)]
  | finalize | skip | skipFallback =>
    refine (isConflicting_simple blockId).trans (exists_congr fun e => and_congr_right fun he => ?_)
    exact (and_iff_left (Or.inr (Or.inl ((htype e he).mpr (by decide))))).symm

/-! ## Adding a vote -/

variable {self : ConsensusPool Pubkey Hash Sig}

theorem hasConflictingVote_eq_none (hpools : self.votePools = poolsOf epochs log) (key : Pubkey)
    (v : Vote Hash) :
    self.hasConflictingVote v.slot (getType v) key v.blockId = none ↔
      ∀ e ∈ log, e.1 = key → ¬ v.Conflicts e.2.vote := by
  rw [hasConflictingVote, List.find?_eq_none, hpools]
  constructor
  · intro h e he hkey hconf
    refine h _ hconf.2.1 ((any_isConflicting v.blockId).mpr ?_)
    exact ⟨e, he, Prod.ext hconf.1 rfl, hkey, hconf.2.2⟩
  · intro h T hT hany
    obtain ⟨e, he, hid, hkey, hblock⟩ := (any_isConflicting v.blockId).mp hany
    have htype : getType e.2.vote = T := congrArg Prod.snd hid
    exact h e he hkey ⟨congrArg Prod.fst hid, htype ▸ hT, hblock⟩

section Update

variable (hs : Sound epochs log) (hpools : self.votePools = poolsOf epochs log)

include hs hpools in
theorem updateVotePool_of_room (hkey : epochs.keyOf message.vote.slot message.rank = some key)
    (hroom : Room (poolLog log (message.vote.slot, getType message.vote)) key message.vote) :
    ∃ n, self.updateVotePool message key (epochs.stake message.vote.slot key) =
      some ({ self with votePools := poolsOf epochs (log ++ [(key, message)]) }, some n) := by
  obtain ⟨n, hadd⟩ := poolOf_addVote (epochs.stake message.vote.slot)
    (fun e he => (mem_poolLog.mp he).2) (hs.poolLog_nodup _) (fun l' hsub hnodup hnew => by
      refine hs.stakeSum_add_le hkey (fun e he => ?_) hnodup hnew
      have hin := mem_poolLog.mp (hsub.subset he)
      exact ⟨hin.1, congrArg Prod.fst hin.2⟩) hroom
  refine ⟨n, ?_⟩
  rw [updateVotePool, hpools, getD_poolsOf, hadd, poolsOf_append]
  rfl

include hs hpools in
theorem updateVotePool_of_full
    (hfull : ¬ Room (poolLog log (message.vote.slot, getType message.vote)) key message.vote) :
    self.updateVotePool message key (epochs.stake message.vote.slot key) = some (self, none) := by
  have hadd := poolOf_addVote_of_not_room (epochs.stake message.vote.slot)
    (fun e he => (mem_poolLog.mp he).2) (hs.poolLog_nodup _) hfull
  -- the pool is there, since an empty one has room
  have hnil : poolLog log (message.vote.slot, getType message.vote) ≠ [] := by
    intro hnil
    rw [hnil] at hfull
    exact hfull ⟨List.not_mem_nil, maxEntries_pos _⟩
  have hself : update (poolsOf epochs log)
      (message.vote.slot, getType message.vote)
      (some (poolOf (epochs.stake message.vote.slot) (getType message.vote)
        (poolLog log (message.vote.slot, getType message.vote)))) = poolsOf epochs log := by
    refine update_eq_self_iff.mpr ?_
    rw [poolsOf, if_neg hnil]
  rw [updateVotePool, hpools, getD_poolsOf, hadd]
  show some ({ self with votePools := update _ _ _ }, none) = _
  rw [hself, ← hpools]

end Update

/-! ## The stakes and votes of a certificate -/

/-- Stake and votes read from the pools are those of the log. -/
theorem pool_eq (hpools : self.votePools = poolsOf epochs log) (hT : voteType ∈ c.voteTypes) :
    self.poolStake c.slot c.blockId voteType =
        some (stakeSum (epochs.stake c.slot) (ofType log c voteType)) ∧
      self.poolVotes c.slot c.blockId voteType =
        some (if ofType log c voteType = [] then none
          else some ((ofType log c voteType).map Prod.snd)) := by
  rw [poolStake, poolVotes, hpools, poolsOf]
  cases hc : c.blockId with
  | none =>
    have hsimple := hc ▸ blockId_isSome_of_mem hT
    rw [ofType_of_simple hT hc]
    split_ifs with hnil
    · rw [hnil]
      exact ⟨rfl, rfl⟩
    · constructor
      · cases voteType <;> simp_all <;> rfl
      · cases voteType <;> simp_all <;> rfl
  | some b =>
    have hblock := hc ▸ blockId_isSome_of_mem hT
    rw [ofType_of_block hT hc]
    by_cases hnil : poolLog log (c.slot, voteType) = []
    · rw [if_pos hnil, hnil]
      exact ⟨rfl, rfl⟩
    · rw [if_neg hnil]
      have hstake : (ofLog (epochs.stake c.slot) voteType.maxEntries
          (poolLog log (c.slot, voteType))).totalStakeByBlockId b =
            stakeSum (epochs.stake c.slot) (forBlock (poolLog log (c.slot, voteType)) b) := by
        rw [totalStakeByBlockId, voteEntries_ofLog]
        split_ifs with hempty
        · rw [hempty]
          rfl
        · rfl
      have hvotes : (ofLog (epochs.stake c.slot) voteType.maxEntries
          (poolLog log (c.slot, voteType))).votes b =
            if forBlock (poolLog log (c.slot, voteType)) b = [] then none
            else some ((forBlock (poolLog log (c.slot, voteType)) b).map Prod.snd) := by
        rw [votes, voteEntries_ofLog]
        split_ifs <;> rfl
      rcases hblock.mp rfl with rfl | rfl
      · exact ⟨congrArg some hstake, congrArg some hvotes⟩
      · exact ⟨congrArg some hstake, congrArg some hvotes⟩

/-- The stake that is added up is the stake of the voters. -/
theorem accumulatedStake_eq (hs : Sound epochs log) (hpools : self.votePools = poolsOf epochs log)
    {stakes : EpochStakes Pubkey} (hstakes : epochs.stakesAt c.slot = some stakes) :
    self.accumulatedStake c.slot c.blockId c.voteTypes =
      some (∑ key ∈ voters log c, epochs.stake c.slot key) := by
  have hsum : (c.voteTypes.map fun T =>
      stakeSum (epochs.stake c.slot) (ofType log c T)).sum =
        ∑ key ∈ voters log c, epochs.stake c.slot key := by
    rw [← hs.stakeSum_contributing, ← stakeSum_flatMap]
    exact ((flatMap_ofType_perm log c).map _).sum_eq
  have hle := hs.stakeSum_le (fun e he => (mem_contributing.mp he).imp_right And.left)
    (hs.keys_nodup c) hstakes
  rw [hs.stakeSum_contributing] at hle
  rw [accumulatedStake, Fallible.mapM_eq_some fun T hT => (pool_eq hpools hT).1,
    map_some, hsum, Nat.mod_eq_of_lt (Nat.lt_succ_of_le (hle.trans stakes.total_le))]

end VotePools

/-! ## The builder -/

section Builder

variable [Bls Sig] {done : List (Ballot Pubkey Hash Sig)}
  {builder : CertificateBuilder Hash Sig}

/-- The builder has the ranks of a list of ballots in the bitmaps of their types. -/
structure Builds (c : CertificateType Hash) (done : List (Ballot Pubkey Hash Sig))
    (builder : CertificateBuilder Hash Sig) : Prop where
  certType : builder.certType = c
  first : ∀ r, r ∈ builder.inputBitmap1 ↔ ∃ e ∈ done,
    (certificateLimitsAndVoteTypes c).2[0]? = some (VoteType.getType e.2.vote) ∧ e.2.rank = r
  second : ∀ r, r ∈ builder.inputBitmap2 ↔ ∃ e ∈ done,
    (certificateLimitsAndVoteTypes c).2[1]? = some (VoteType.getType e.2.vote) ∧ e.2.rank = r

theorem Builds.new (c : CertificateType Hash) :
    Builds c ([] : List (Ballot Pubkey Hash Sig))
      (new c : CertificateBuilder Hash Sig) := by
  constructor
  · rfl
  · exact fun r => ⟨fun h => (notMem_empty r h).elim, nofun⟩
  · exact fun r => ⟨fun h => (notMem_empty r h).elim, nofun⟩

theorem Builds.perm (h : Builds c done builder) (hperm : done.Perm l) : Builds c l builder := by
  refine ⟨h.certType, fun r => (h.first r).trans ?_, fun r => (h.second r).trans ?_⟩
  · exact exists_congr fun e => and_congr_left fun _ => hperm.mem_iff
  · exact exists_congr fun e => and_congr_left fun _ => hperm.mem_iff

/-- A type is at the first or, of two, at the second place, not at both. -/
theorem voteTypes_getElem (hT : voteType ∈ c.voteTypes) :
    (c.voteTypes[0]? = some voteType ∧ c.voteTypes[1]? ≠ some voteType) ∨
    (c.voteTypes[0]? ≠ some voteType ∧ c.voteTypes.length = 2 ∧
      c.voteTypes[1]? = some voteType) := by
  cases c <;> cases voteType <;> simp_all [CertificateType.voteTypes, certificateLimitsAndVoteTypes]

/-- A rank that is not there yet is set, if the bitmap is long enough. -/
theorem trySetBitmap_of_notMem {bitmap : Finset ℕ} {rank : ℕ} (h : rank ∉ bitmap) :
    trySetBitmap bitmap rank = if maximumValidators ≤ rank then .error (.invalidRank rank)
      else .ok (insert rank bitmap) := by
  rw [trySetBitmap, if_neg h]

theorem exists_mem_append_singleton {α : Type} {l : List α} {a : α} {p : α → Prop} :
    (∃ x ∈ l ++ [a], p x) ↔ p a ∨ ∃ x ∈ l, p x := by
  simp only [List.mem_append, List.mem_singleton, or_and_right, exists_or, exists_eq_left]
  exact or_comm

/-- What is known of an attempt to add ballots: it does not meet a validator that is included
already, it adds all of them, and it succeeds for ranks within the bitmap and good signatures. -/
structure Aggregates (c : CertificateType Hash) (onCurve : Sig → Prop)
    (done l : List (Ballot Pubkey Hash Sig))
    (result : Except AggregateError (CertificateBuilder Hash Sig)) : Prop where
  fresh : result ≠ .error .validatorAlreadyIncluded
  builds : ∀ b, result = .ok b → Builds c (done ++ l) b
  succeeds : (∀ e ∈ l, e.2.rank < maximumValidators ∧ onCurve e.2.signature) → ∃ b, result = .ok b

variable {onCurve : Sig → Prop}
  {result : Except AggregateError (CertificateBuilder Hash Sig)}
  {l' : List (Ballot Pubkey Hash Sig)}

theorem Builds.aggregates_nil (h : Builds c done builder) :
    Aggregates c onCurve done [] (.ok builder) := by
  refine ⟨nofun, fun b hb => ?_, fun _ => ⟨builder, rfl⟩⟩
  cases hb
  rwa [List.append_nil]

/-- One attempt after the other. -/
theorem Aggregates.bind {f : CertificateBuilder Hash Sig → Except AggregateError _}
    (h : Aggregates c onCurve done l result)
    (hf : ∀ b, Builds c (done ++ l) b → Aggregates c onCurve (done ++ l) l' (f b)) :
    Aggregates c onCurve done (l ++ l') (result >>= f) := by
  cases result with
  | error e =>
    refine ⟨fun hcon => h.fresh hcon, nofun, fun hgood => ?_⟩
    obtain ⟨b, hb⟩ := h.succeeds fun e he => hgood e (List.mem_append_left _ he)
    cases hb
  | ok b =>
    have hrest := hf b (h.builds b rfl)
    refine ⟨hrest.fresh, fun b' hb' => ?_, fun hgood => ?_⟩
    · rw [← List.append_assoc]
      exact hrest.builds b' hb'
    · exact hrest.succeeds fun e he => hgood e (List.mem_append_right _ he)

/-- One more message. -/
theorem Builds.setRank (h : Builds c done builder) (hT : getType e.2.vote ∈ c.voteTypes)
    (hnew : e.2.rank ∉ done.map fun e => e.2.rank) :
    Aggregates c onCurve done [e] (setRank c.voteTypes builder e.2) := by
  have hfresh : ∀ p : Ballot Pubkey Hash Sig → Prop,
      ¬ ∃ e' ∈ done, p e' ∧ e'.2.rank = e.2.rank := by
    rintro p ⟨e', he', -, heq⟩
    exact hnew (List.mem_map.mpr ⟨e', he', heq⟩)
  have hlarge : maximumValidators ≤ e.2.rank → Aggregates c onCurve done [e]
      (.error (.invalidRank e.2.rank)) := fun hrank =>
    ⟨nofun, nofun, fun hgood => absurd (hgood e (List.mem_singleton_self e)).1 (not_lt.mpr hrank)⟩
  rcases voteTypes_getElem hT with ⟨hfirst, hnot⟩ | ⟨hnot, hlen, hsecond⟩
  · rw [CertificateBuilder.setRank, if_pos hfirst,
      trySetBitmap_of_notMem fun hin => hfresh _ ((h.first _).mp hin)]
    split_ifs with hrank
    · exact hlarge hrank
    refine ⟨nofun, fun b hb => ?_, fun _ => ⟨_, rfl⟩⟩
    cases hb
    refine ⟨h.certType, fun r => ?_, fun r => ?_⟩
    · rw [mem_insert, h.first, exists_mem_append_singleton, and_iff_right hfirst, eq_comm]
    · rw [h.second, exists_mem_append_singleton]
      exact (or_iff_right fun hcon => hnot hcon.1).symm
  · rw [CertificateBuilder.setRank, if_neg hnot, if_pos ⟨hlen, hsecond⟩,
      trySetBitmap_of_notMem fun hin => hfresh _ ((h.second _).mp hin)]
    split_ifs with hrank
    · exact hlarge hrank
    refine ⟨nofun, fun b hb => ?_, fun _ => ⟨_, rfl⟩⟩
    cases hb
    refine ⟨h.certType, fun r => ?_, fun r => ?_⟩
    · rw [h.first, exists_mem_append_singleton]
      exact (or_iff_right fun hcon => hnot hcon.1).symm
    · rw [mem_insert, h.second, exists_mem_append_singleton, and_iff_right hsecond, eq_comm]

theorem Builds.setRanks (h : Builds c done builder) (hT : ∀ e ∈ l, getType e.2.vote ∈ c.voteTypes)
    (hnodup : ((done ++ l).map fun e => e.2.rank).Nodup) :
    Aggregates c onCurve done l ((l.map Prod.snd).foldlM
      (CertificateBuilder.setRank c.voteTypes) builder) := by
  induction l generalizing done builder with
  | nil => exact h.aggregates_nil
  | cons e l ih =>
    rw [List.append_cons] at hnodup
    have hnew : e.2.rank ∉ done.map fun e => e.2.rank := by
      rw [List.map_append, List.map_append, List.map_singleton] at hnodup
      have hdisj := List.nodup_append.mp (List.nodup_append.mp hnodup).1
      exact fun hin => hdisj.2.2 _ hin _ (List.mem_singleton_self _) rfl
    rw [List.map_cons, List.foldlM_cons]
    exact (h.setRank (hT e List.mem_cons_self) hnew).bind fun b hb =>
      ih hb (fun e' he' => hT e' (List.mem_cons_of_mem e he')) hnodup

theorem Builds.addSignatures (hlawful : Bls.Lawful Sig onCurve) (h : Builds c (done ++ l) builder) :
    Aggregates c onCurve done l (builder.addSignatures (l.map Prod.snd)) := by
  unfold CertificateBuilder.addSignatures
  cases hsig : Bls.aggregateWith builder.signature ((l.map Prod.snd).map VoteMessage.signature) with
  | none =>
    refine ⟨nofun, nofun, fun hgood => ?_⟩
    obtain ⟨p, hp⟩ := hlawful.aggregateWith builder.signature
      ((l.map Prod.snd).map VoteMessage.signature) (fun s hs => by
        obtain ⟨m, hm, rfl⟩ := List.mem_map.mp hs
        obtain ⟨e, he, rfl⟩ := List.mem_map.mp hm
        exact (hgood e he).2)
    cases hsig.symm.trans hp
  | some p =>
    refine ⟨nofun, fun b hb => ?_, fun _ => ⟨_, rfl⟩⟩
    cases hb
    exact ⟨h.certType, h.first, h.second⟩

section

variable (h : Builds c done builder)
include h

theorem Builds.aggregate (hlawful : Bls.Lawful Sig onCurve)
    (hT : ∀ e ∈ l, getType e.2.vote ∈ c.voteTypes)
    (hnodup : ((done ++ l).map fun e => e.2.rank).Nodup) :
    Aggregates c onCurve done l (builder.aggregate (l.map Prod.snd)) := by
  have hranks : Aggregates c onCurve done l _ := h.setRanks hT hnodup
  rw [CertificateBuilder.aggregate, h.certType]
  cases hfold : (l.map Prod.snd).foldlM (CertificateBuilder.setRank c.voteTypes) builder with
  | error e =>
    rw [hfold] at hranks
    refine ⟨fun hcon => hranks.fresh hcon, nofun, fun hgood => ?_⟩
    obtain ⟨b, hb⟩ := hranks.succeeds hgood
    cases hb
  | ok b => exact (hranks.builds b hfold).addSignatures hlawful

/-- The votes of several pools, one pool after the other. -/
theorem Builds.aggregateAll (hlawful : Bls.Lawful Sig onCurve)
    {ls : List (List (Ballot Pubkey Hash Sig))}
    (hT : ∀ e ∈ ls.flatten, getType e.2.vote ∈ c.voteTypes)
    (hnodup : ((done ++ ls.flatten).map fun e => e.2.rank).Nodup) :
    Aggregates c onCurve done ls.flatten
      ((ls.map (List.map Prod.snd)).foldlM CertificateBuilder.aggregate builder) := by
  induction ls generalizing done builder with
  | nil => exact h.aggregates_nil
  | cons l ls ih =>
    rw [List.flatten_cons] at hT hnodup ⊢
    rw [← List.append_assoc] at hnodup
    have hl := h.aggregate hlawful (l := l) (fun e he => hT e (List.mem_append_left _ he))
      (hnodup.sublist ((List.sublist_append_left _ _).map _))
    rw [List.map_cons, List.foldlM_cons]
    exact hl.bind fun b hb => ih hb (fun e he => hT e (List.mem_append_right _ he)) hnodup

/-- The two bitmaps of a builder that holds each rank once have nothing in common. -/
theorem Builds.disjoint (hnodup : (done.map fun e => e.2.rank).Nodup) :
    Disjoint builder.inputBitmap1 builder.inputBitmap2 := by
  rw [disjoint_left]
  intro r h1 h2
  obtain ⟨e, he, hfirst, hr⟩ := (h.first r).mp h1
  obtain ⟨e', he', hsecond, hr'⟩ := (h.second r).mp h2
  cases List.inj_on_of_nodup_map hnodup he he' (hr.trans hr'.symm)
  have hT := List.mem_of_getElem? hfirst
  rcases voteTypes_getElem hT with ⟨-, hnot⟩ | ⟨hnot, -⟩
  · exact hnot hsecond
  · exact hnot hfirst

theorem Builds.mem_union (hT : ∀ e ∈ done, getType e.2.vote ∈ c.voteTypes) (r : ℕ) :
    r ∈ builder.inputBitmap1 ∪ builder.inputBitmap2 ↔ r ∈ done.map fun e => e.2.rank := by
  rw [Finset.mem_union, h.first, h.second, List.mem_map]
  constructor
  · rintro (⟨e, he, -, hr⟩ | ⟨e, he, -, hr⟩)
    · exact ⟨e, he, hr⟩
    · exact ⟨e, he, hr⟩
  · rintro ⟨e, he, hr⟩
    rcases voteTypes_getElem (hT e he) with ⟨hfirst, -⟩ | ⟨-, -, hsecond⟩
    · exact Or.inl ⟨e, he, hfirst, hr⟩
    · exact Or.inr ⟨e, he, hsecond, hr⟩

theorem Builds.build (hlawful : Bls.Lawful Sig onCurve)
    (hT : ∀ e ∈ done, getType e.2.vote ∈ c.voteTypes)
    (hnodup : (done.map fun e => e.2.rank).Nodup)
    (hrank : ∀ e ∈ done, e.2.rank < maximumValidators) :
    ∃ cert, builder.build = .ok cert ∧ cert.certType = c := by
  have hsmall : ∀ r ∈ builder.inputBitmap1 ∪ builder.inputBitmap2, r + 1 ≤ maximumValidators := by
    intro r hr
    obtain ⟨e, he, rfl⟩ := List.mem_map.mp ((h.mem_union hT r).mp hr)
    exact hrank e he
  have hlength : max (lastOne builder.inputBitmap1)
      (lastOne builder.inputBitmap2) ≤ maximumValidators :=
    max_le (Finset.sup_le fun r hr => hsmall r (mem_union_left _ hr))
      (Finset.sup_le fun r hr => hsmall r (mem_union_right _ hr))
  rw [CertificateBuilder.build]
  rw [if_neg (not_lt.mpr hlength)]
  split_ifs
  · obtain ⟨bytes, hbytes⟩ := hlawful.encodeBase3 _ hlength _ _ (h.disjoint hnodup)
    rw [hbytes]
    exact ⟨_, rfl, h.certType⟩
  · obtain ⟨bytes, hbytes⟩ := hlawful.encodeBase2 _ hlength builder.inputBitmap1
    rw [hbytes]
    exact ⟨_, rfl, h.certType⟩

end

theorem Aggregates.perm (h : Aggregates c onCurve done l result)
    (hperm : l.Perm l') : Aggregates c onCurve done l' result := by
  refine ⟨h.fresh, fun b hb => (h.builds b hb).perm (hperm.append_left done), fun hgood => ?_⟩
  exact h.succeeds fun e he => hgood e (hperm.mem_iff.mp he)

theorem reduceOption_map_nonempty {α β : Type} (f : α → β) (ls : List (List α)) :
    (ls.map fun l => if l = [] then none else some (l.map f)).reduceOption =
      (ls.filter (· ≠ [])).map (List.map f) := by
  induction ls with
  | nil => rfl
  | cons l ls ih =>
    by_cases hnil : l = []
    · rw [List.map_cons, if_pos hnil, List.reduceOption_cons_of_none, ih,
        List.filter_cons_of_neg (by simpa using hnil)]
    · rw [List.map_cons, if_neg hnil, List.reduceOption_cons_of_some, ih,
        List.filter_cons_of_pos (by simpa using hnil), List.map_cons]

/-- All contributing votes of the pools go into the builder, each rank once. -/
theorem aggregateVotes_spec [DecidableEq Pubkey] [LinearOrder Hash]
    {self : ConsensusPool Pubkey Hash Sig}
    (hlawful : Bls.Lawful Sig onCurve) (hs : Sound epochs log)
    (hpools : self.votePools = poolsOf epochs log) (c : CertificateType Hash) :
    ∃ result, self.aggregateVotes c c.slot c.blockId c.voteTypes =
        some result ∧ Aggregates c onCurve [] (contributing log c) result := by
  have hvotes : c.voteTypes.mapM (self.poolVotes c.slot c.blockId) =
      some ((c.voteTypes.map (ofType log c)).map fun l =>
        if l = [] then none else some (l.map Prod.snd)) := by
    rw [List.map_map]
    exact Fallible.mapM_eq_some fun T hT => (pool_eq hpools hT).2
  rw [ConsensusPool.aggregateVotes, hvotes, map_some, reduceOption_map_nonempty]
  refine ⟨_, rfl, ?_⟩
  have hflat : ((c.voteTypes.map (ofType log c)).filter
      (· ≠ [])).flatten.Perm (contributing log c) := by
    rw [List.flatten_filter_ne_nil, ← List.flatMap_def]
    exact flatMap_ofType_perm log c
  refine ((Builds.new c).aggregateAll hlawful (fun e he => ?_) ?_).perm hflat
  · exact (mem_contributing.mp (hflat.mem_iff.mp he)).2.2.1
  · exact (hflat.map _).nodup_iff.mpr (hs.ranks_nodup c)

end Builder

/-! ## The tracker -/

section Tracker

open ParentReadyTracker

variable {α β : Type} (events : List β)

/-- The events that are there stay in front. -/
abbrev after (state : α × List β) : α × List β :=
  (state.1, events ++ state.2)

/-- A loop that leaves the events in front at each step leaves them there. -/
theorem foldl_after {γ : Type} {f : α × List β → γ → α × List β}
    (h : ∀ state c, f (after events state) c = after events (f state c)) (l : List γ)
    (state : α × List β) : l.foldl f (after events state) = after events (l.foldl f state) := by
  induction l generalizing state with
  | nil => rfl
  | cons c l ih => rw [List.foldl_cons, List.foldl_cons, h, ih]

variable [LeaderWindow] [DecidableEq Hash] {t : ParentReadyTracker Hash}
  {events events' : List (ℕ × Block Hash)} {b : Block Hash}

theorem pushParent_append :
    t.pushParent (events ++ events') slot b = after events (t.pushParent events' slot b) := by
  unfold pushParent
  dsimp only
  split_ifs
  · rfl
  · rw [List.append_assoc]
  · rfl

theorem addToConnected_append (n : ℕ) :
    addToConnected b n slot t (events ++ events') =
      (addToConnected b n slot t events').map (after events) := by
  induction n generalizing slot t events' with
  | zero => rfl
  | succ n ih =>
    rw [addToConnected, addToConnected, pushParent_append]
    dsimp only
    by_cases hskip : (t.status slot).skip
    · rw [if_pos hskip, if_pos hskip]
      exact ih
    · rw [if_neg hskip, if_neg hskip]
      rfl

theorem addNewNotarFallbackOrStronger_append :
    t.addNewNotarFallbackOrStronger (events ++ events') b =
      (t.addNewNotarFallbackOrStronger events' b).map (after events) := by
  unfold addNewNotarFallbackOrStronger
  dsimp only
  split_ifs
  · rfl
  · rfl
  · exact addToConnected_append _
  · rfl

theorem addParents_append (parents : List (Block Hash))
    (state : ParentReadyTracker Hash × List (ℕ × Block Hash)) :
    addParents parents (after events state) slot =
      after events (addParents parents state slot) := by
  have hfold := foldl_after events (f := fun s b => pushParent s.1 s.2 slot b)
    (fun _ _ => pushParent_append) parents state
  unfold addParents
  rw [hfold]

theorem addNewSkip_append :
    t.addNewSkip (events ++ events') slot = (t.addNewSkip events' slot).map (after events) := by
  unfold addNewSkip
  by_cases hroot : slot ≤ t.root
  · rw [if_pos hroot, if_pos hroot]
    rfl
  rw [if_neg hroot, if_neg hroot]
  dsimp only
  cases (t.setStatus slot { t.status slot with skip := true }).futureSlots
      ((t.setStatus slot { t.status slot with skip := true }).slotStatuses.keys.length + 1)
      (slot + 1) with
  | none => rfl
  | some future =>
    cases (t.setStatus slot { t.status slot with skip := true }).slotStatuses.get (slot - 1) with
    | none => rfl
    | some status =>
      dsimp only
      split_ifs
      · rfl
      · exact congrArg some (foldl_after events (fun s _ => addParents_append _ s) future
          (_, events'))

/-- The tracker holds blocks with a property, above the root it started from. -/
def Follows (init : Block Hash) (t : ParentReadyTracker Hash) (P : Block Hash → Prop) : Prop :=
  ∃ r events, Tracks init t events r (fun s b => r.Ready b s) ∧ r.root = init.1 ∧
    ∀ b ∈ r.blocks, b = init ∨ (init.1 < b.1 ∧ P b)

variable {P Q : Block Hash → Prop}

theorem Follows.new (init : Block Hash) : Follows init (ParentReadyTracker.new init) P :=
  ⟨_, _, Tracks.new init, rfl, fun _ hb => Or.inl (mem_singleton.mp hb)⟩

omit [DecidableEq Hash] in
theorem Follows.mono (h : Follows init t P) (himp : ∀ b, P b → Q b) : Follows init t Q := by
  obtain ⟨r, events, htracks, hroot, hblocks⟩ := h
  exact ⟨r, events, htracks, hroot, fun b hb => (hblocks b hb).imp_right fun hP =>
    ⟨hP.1, himp b hP.2⟩⟩

/-- The tracker takes a block if no slot above its root gets more than three. -/
theorem Follows.notar (h : Follows init t P) (hb : P b)
    (hthree : ∀ s, init.1 < s → ∀ bs : Finset Hash, (∀ x ∈ bs, P (s, x)) → bs.card ≤ 3) :
    ∃ t' ready, t.addNewNotarFallbackOrStronger [] b = some (t', ready) ∧ Follows init t' P := by
  obtain ⟨r, events, htracks, hroot, hblocks⟩ := h
  have hadd : ∀ x ∈ (r.add (.notarFallbackOrStronger b)).blocks,
      x = init ∨ (init.1 < x.1 ∧ P x) := by
    intro x hx
    rw [Recorded.add] at hx
    split_ifs at hx with habove
    · rcases mem_insert.mp hx with rfl | hx
      · exact Or.inr ⟨hroot ▸ habove, hb⟩
      · exact hblocks x hx
    · exact hblocks x hx
  have hallows : r.Allows (.notarFallbackOrStronger b) := by
    rw [Recorded.Allows]
    by_cases habove : init.1 < b.1
    · have hinj : Set.InjOn Prod.snd (((r.add (.notarFallbackOrStronger b)).blocks.filter
          fun x => x.1 = b.1 : Finset (Block Hash)) : Set (Block Hash)) := by
        intro x hx y hy hxy
        rw [mem_coe, mem_filter] at hx hy
        exact Prod.ext (hx.2.trans hy.2.symm) hxy
      rw [← card_image_of_injOn hinj]
      refine hthree b.1 habove _ fun y hy => ?_
      obtain ⟨x, hx, rfl⟩ := mem_image.mp hy
      rw [mem_filter] at hx
      rw [← hx.2]
      rcases hadd x hx.1 with rfl | hP
      · exact absurd hx.2 habove.ne
      · exact hP.2
    · -- at or below the root there is the root block only
      refine (card_le_one.mpr fun x hx y hy => ?_).trans (by decide)
      rw [mem_filter] at hx hy
      rcases hadd x hx.1 with rfl | hP
      · rcases hadd y hy.1 with rfl | hP
        · rfl
        · exact absurd (hy.2 ▸ hP.1) habove
      · exact absurd (hx.2 ▸ hP.1) habove
  obtain ⟨t', events', hrun, htracks'⟩ := htracks.notar_op hallows
  rw [← List.append_nil events, addNewNotarFallbackOrStronger_append, map_eq_some_iff] at hrun
  obtain ⟨⟨t₁, ready⟩, hrun, heq⟩ := hrun
  cases heq
  refine ⟨t₁, ready, hrun, _, _, htracks', ?_, hadd⟩
  rw [← hroot, Recorded.add]
  split_ifs <;> rfl

theorem Follows.skip (h : Follows init t P) (slot : ℕ) :
    ∃ t' ready, t.addNewSkip [] slot = some (t', ready) ∧ Follows init t' P := by
  obtain ⟨r, events, htracks, hroot, hblocks⟩ := h
  obtain ⟨t', events', hrun, htracks'⟩ := htracks.skip_op slot
  rw [← List.append_nil events, addNewSkip_append, map_eq_some_iff] at hrun
  obtain ⟨⟨t₁, ready⟩, hrun, heq⟩ := hrun
  cases heq
  refine ⟨t₁, ready, hrun, _, _, htracks', ?_, fun b hb => hblocks b ?_⟩
  · rw [← hroot, Recorded.add]
    split_ifs <;> rfl
  · rw [Recorded.add] at hb
    split_ifs at hb <;> exact hb

end Tracker

/-! ## New certificates -/

section Insert

variable [DecidableEq Pubkey] [LinearOrder Hash]
  {self : ConsensusPool Pubkey Hash Sig} {events : List (Event Hash)} {block : Block Hash}
  (state : ConsensusPool.WithEvents Pubkey Hash Sig)

section

omit [DecidableEq Pubkey]

/-- A report leaves the pools, the certificates and the tracker. -/
theorem reportFinalized_same
    (block : Block Hash) : (ConsensusPool.reportFinalized state block).1.votePools =
      state.1.votePools ∧
    (ConsensusPool.reportFinalized state block).1.completedCertificates =
      state.1.completedCertificates ∧
    (ConsensusPool.reportFinalized state block).1.parentReadyTracker =
      state.1.parentReadyTracker := by
  unfold ConsensusPool.reportFinalized
  dsimp only
  split_ifs <;> exact ⟨rfl, rfl, rfl⟩

theorem raiseFinalizedSlot_same (self : ConsensusPool Pubkey Hash Sig) (slot : ℕ) :
    (self.raiseFinalizedSlot slot).votePools = self.votePools ∧
    (self.raiseFinalizedSlot slot).completedCertificates = self.completedCertificates ∧
    (self.raiseFinalizedSlot slot).parentReadyTracker = self.parentReadyTracker := by
  unfold ConsensusPool.raiseFinalizedSlot
  split_ifs <;> exact ⟨rfl, rfl, rfl⟩

end

variable [LeaderWindow]

/-- The block has the stake for a fallback certificate. -/
def Certified (epochs : Epochs Pubkey) (log : List (Ballot Pubkey Hash Sig))
    (b : Block Hash) : Prop :=
  Reached epochs log (.notarizeFallback b.1 b.2)

/-- Of a slot above the root, at most three blocks have the stake for a fallback certificate. -/
def ThreeBlocks (epochs : Epochs Pubkey) (init : Block Hash)
    (log : List (Ballot Pubkey Hash Sig)) : Prop :=
  ∀ slot, init.1 < slot → ∀ blocks : Finset Hash,
    (∀ b ∈ blocks, Certified epochs log (slot, b)) → blocks.card ≤ 3

theorem addNewNotarFallbackOrStronger_spec (hthree : ThreeBlocks epochs init log)
    (hfollows : Follows init state.1.parentReadyTracker (Certified epochs log))
    (hblock : Certified epochs log block) :
    ∃ t events', ConsensusPool.addNewNotarFallbackOrStronger state block =
        some ({ state.1 with parentReadyTracker := t }, events') ∧
      Follows init t (Certified epochs log) := by
  obtain ⟨t, ready, hadd, ht⟩ := hfollows.notar hblock hthree
  refine ⟨t, state.2 ++ ready.map fun e => .parentReady e.1 e.2, ?_, ht⟩
  rw [ConsensusPool.addNewNotarFallbackOrStronger, ConsensusPool.track, hadd]
  rfl

/-- A certificate whose limit is reached goes in. -/
theorem insertCertificate_spec (hthree : ThreeBlocks epochs init log)
    (hfollows : Follows init self.parentReadyTracker (Certified epochs log))
    (hreached : Reached epochs log c) (cert : Certificate Hash Sig)
    (events : List (Event Hash)) :
    ∃ self' events', self.insertCertificate c cert events = some (self', events') ∧
      self'.votePools = self.votePools ∧
      self'.completedCertificates = self.completedCertificates.insert c cert ∧
      Follows init self'.parentReadyTracker (Certified epochs log) := by
  have hdone : ∀ state : ConsensusPool.WithEvents Pubkey Hash Sig,
      state.1.votePools = self.votePools →
      state.1.completedCertificates = self.completedCertificates.insert c cert →
      Follows init state.1.parentReadyTracker (Certified epochs log) →
      ∃ self' events', some state = some (self', events') ∧
        self'.votePools = self.votePools ∧
        self'.completedCertificates = self.completedCertificates.insert c cert ∧
        Follows init self'.parentReadyTracker (Certified epochs log) :=
    fun state h1 h2 h3 => ⟨state.1, state.2, rfl, h1, h2, h3⟩
  cases c with
  | notarizeFallback slot b =>
    obtain ⟨t, events', hadd, ht⟩ := addNewNotarFallbackOrStronger_spec
      (self.complete (.notarizeFallback slot b) cert, events) hthree hfollows
      (show Certified epochs log (slot, b) from hreached)
    rw [ConsensusPool.insertCertificate, hadd]
    exact hdone _ rfl rfl ht
  | skip slot =>
    obtain ⟨t, ready, hadd, ht⟩ := hfollows.skip slot
    rw [ConsensusPool.insertCertificate, ConsensusPool.track]
    dsimp only [ConsensusPool.complete]
    rw [hadd]
    exact hdone _ rfl rfl ht
  | notarize slot b =>
    obtain ⟨t, events', hadd, ht⟩ := addNewNotarFallbackOrStronger_spec
      (self.complete (.notarize slot b) cert, events ++ [.blockNotarized (slot, b)]) hthree
      hfollows (show Certified epochs log (slot, b) from .notarizeFallback (Or.inl hreached))
    rw [ConsensusPool.insertCertificate, hadd, bind_eq_bind, bind_some]
    split_ifs
    · obtain ⟨h1, h2, h3⟩ := reportFinalized_same
        ({ self.complete (.notarize slot b) cert with parentReadyTracker := t }, events') (slot, b)
      exact hdone _ h1 h2 (h3 ▸ ht)
    · exact hdone _ rfl rfl ht
  | finalize slot =>
    rw [ConsensusPool.insertCertificate]
    cases (self.complete (.finalize slot) cert).getNotarizedBlock slot with
    | none =>
      obtain ⟨h1, h2, h3⟩ := raiseFinalizedSlot_same (self.complete (.finalize slot) cert) slot
      exact hdone (_, events) h1 h2 (h3 ▸ hfollows)
    | some block =>
      obtain ⟨h1, h2, h3⟩ := reportFinalized_same
        (self.complete (.finalize slot) cert, events) block
      dsimp only
      generalize ConsensusPool.reportFinalized
        (self.complete (.finalize slot) cert, events) block = state at h1 h2 h3 ⊢
      obtain ⟨pool, events'⟩ := state
      obtain ⟨h1', h2', h3'⟩ := raiseFinalizedSlot_same pool slot
      refine hdone (_, _) (h1'.trans h1) (h2'.trans h2) ?_
      rw [h3', h3]
      exact hfollows
  | finalizeFast slot b =>
    obtain ⟨t, events', hadd, ht⟩ := addNewNotarFallbackOrStronger_spec
      (self.complete (.finalizeFast slot b) cert, events ++ [.finalized (slot, b) true]) hthree
      hfollows (show Certified epochs log (slot, b) from .notarizeFallback (Or.inr hreached))
    obtain ⟨h1, h2, h3⟩ := raiseFinalizedSlot_same
      { self.complete (.finalizeFast slot b) cert with parentReadyTracker := t } slot
    rw [ConsensusPool.insertCertificate, hadd, bind_eq_bind, bind_some]
    dsimp only
    split_ifs
    · exact hdone (_, events') h1 h2 (h3 ▸ ht)
    · exact hdone (_, events') h1 h2 (h3 ▸ ht)

end Insert

end Salsa.Votor
