import Salsa.Votor.Pool

/-!
# Salsa.Votor.Ballots — the votes that a pool accepts

The votes that were accepted form a log (`accepted`): a vote joins it if its validator has no
conflicting vote in it and has room left for votes of its type. A vote pool is a function of the
ballots it holds (`poolOf`), and the conflict table keeps the voters of a certificate apart
(`Vote.eq_of_counts`): their keys and ranks are distinct, and their stakes fit into the total.
-/

namespace Salsa.Votor

open List VoteType Function DuplicateBlockVotePool VotePool Salsa.Votor.Vote

/-! ## The accepted votes -/

variable {Pubkey Hash Sig : Type} {c : CertificateType Hash} {key : Pubkey} {b : Hash}

section Rules

/-- Two votes that one validator may not cast both: of conflicting types, and for one block if
both are for a block. -/
def Vote.Conflicts (v w : Vote Hash) : Prop :=
  w.slot = v.slot ∧ VoteType.getType w ∈ conflictingTypes (VoteType.getType v) ∧
    (v.blockId = none ∨ w.blockId = none ∨ w.blockId = v.blockId)

/-- How many votes of a type the pool takes of one validator in a slot. -/
def VoteType.maxEntries : VoteType → ℕ
  | notarizeFallback => maxEntriesPerPubkeyForNotarizeLite
  | _ => maxEntriesPerPubkeyForOtherTypes

/-- An accepted vote with the key of its validator. -/
abbrev Ballot (Pubkey Hash Sig : Type) := Pubkey × VoteMessage Hash Sig

def Ballot.poolId (e : Ballot Pubkey Hash Sig) : ℕ × VoteType :=
  (e.2.vote.slot, VoteType.getType e.2.vote)

def Ballot.cast (e : Ballot Pubkey Hash Sig) : Pubkey × Vote Hash := (e.1, e.2.vote)

/-- A vote message and the root slot at its arrival. -/
structure Call (Hash Sig : Type) where
  rootSlot : ℕ
  message : VoteMessage Hash Sig

/-- The key that signs with a rank. -/
def Epochs.keyOf (epochs : Epochs Pubkey) (slot rank : ℕ) : Option Pubkey :=
  (epochs.stakesAt slot).bind fun stakes => stakes.sortedPubkeys[rank]?

def Epochs.stake (epochs : Epochs Pubkey) (slot : ℕ) (key : Pubkey) : ℕ :=
  (epochs.stakesAt slot).elim 0 (·.voteAccountStake key)

/-- The vote is of a type of the certificate, for its slot and its block if it has one. -/
def CertificateType.Counts (c : CertificateType Hash) (v : Vote Hash) : Prop :=
  v.slot = c.slot ∧ VoteType.getType v ∈ (certificateLimitsAndVoteTypes c).2 ∧
    (c.blockId = none ∨ v.blockId = c.blockId)

variable [DecidableEq Hash]

instance (v w : Vote Hash) : Decidable (v.Conflicts w) :=
  inferInstanceAs (Decidable (_ ∧ _ ∧ _))

instance (c : CertificateType Hash) (v : Vote Hash) : Decidable (c.Counts v) :=
  inferInstanceAs (Decidable (_ ∧ _ ∧ _))

variable [DecidableEq Pubkey]

/-- The validator has no vote that conflicts, has not cast this one, and has room. -/
def Accepts (log : List (Ballot Pubkey Hash Sig)) (key : Pubkey) (v : Vote Hash) : Prop :=
  (∀ e ∈ log, e.1 = key → ¬ v.Conflicts e.2.vote) ∧
    (key, v) ∉ log.map Ballot.cast ∧
    (log.filter fun e => e.1 = key ∧ Ballot.poolId e = (v.slot, VoteType.getType v)).length <
      (VoteType.getType v).maxEntries

instance (log : List (Ballot Pubkey Hash Sig)) (key : Pubkey) (v : Vote Hash) :
    Decidable (Accepts log key v) :=
  inferInstanceAs (Decidable (_ ∧ _ ∧ _))

def tally (epochs : Epochs Pubkey) (log : List (Ballot Pubkey Hash Sig))
    (call : Call Hash Sig) : List (Ballot Pubkey Hash Sig) :=
  match epochs.keyOf call.message.vote.slot call.message.rank with
  | some key =>
      if call.rootSlot ≤ call.message.vote.slot ∧ Accepts log key call.message.vote then
        log ++ [(key, call.message)]
      else log
  | none => log

def accepted (epochs : Epochs Pubkey) (calls : List (Call Hash Sig)) :
    List (Ballot Pubkey Hash Sig) :=
  calls.foldl (tally epochs) []

/-- The accepted votes that count for a certificate. -/
def contributing (log : List (Ballot Pubkey Hash Sig)) (c : CertificateType Hash) :
    List (Ballot Pubkey Hash Sig) :=
  log.filter fun e => c.Counts e.2.vote

/-- The validators with an accepted vote for the certificate. -/
def voters (log : List (Ballot Pubkey Hash Sig)) (c : CertificateType Hash) : Finset Pubkey :=
  ((contributing log c).map Prod.fst).toFinset

/-- The stake of the voters is at or above the limit of the certificate. -/
def Reached (epochs : Epochs Pubkey) (log : List (Ballot Pubkey Hash Sig))
    (c : CertificateType Hash) : Prop :=
  ∃ stakes, epochs.stakesAt c.slot = some stakes ∧
    ¬ (certificateLimitsAndVoteTypes c).1.above (∑ key ∈ voters log c, epochs.stake c.slot key)
      stakes.totalStake

end Rules

/-! ## The conflict table -/

section Table

variable {v w : Vote Hash}

theorem Vote.Conflicts.symm (h : v.Conflicts w) : w.Conflicts v := by
  obtain ⟨hslot, htype, hblock⟩ := h
  refine ⟨hslot.symm, ?_, ?_⟩
  · revert htype
    generalize getType v = a
    generalize getType w = b
    cases a <;> cases b <;> decide
  · rcases hblock with h | h | h
    · exact Or.inr (Or.inl h)
    · exact Or.inl h
    · exact Or.inr (Or.inr h.symm)

theorem Vote.not_conflicts_self (v : Vote Hash) : ¬ v.Conflicts v := by
  rintro ⟨-, htype, -⟩
  revert htype
  generalize getType v = a
  cases a <;> decide

/-- The lookup from votes to certificates is in sync with the one back. -/
theorem mem_voteToCertificateIds : c ∈ voteToCertificateIds v ↔ c.Counts v := by
  cases v <;> cases c <;>
    simp [voteToCertificateIds, CertificateType.Counts, certificateLimitsAndVoteTypes, getType,
      slot, CertificateType.slot, blockId, CertificateType.blockId, eq_comm]

/-- Two votes that count for one certificate are one vote, or they conflict. -/
theorem Vote.eq_of_counts (hv : c.Counts v) (hw : c.Counts w) (hno : ¬ v.Conflicts w) : v = w := by
  rw [← mem_voteToCertificateIds] at hv hw
  cases c <;> cases v <;> simp [voteToCertificateIds] at hv <;>
    cases w <;> simp [voteToCertificateIds] at hw <;>
    simp_all [Vote.Conflicts, conflictingTypes, getType, slot, blockId]

/-- A vote of a simple pool has no block, one of a duplicate block pool has one. -/
theorem Vote.blockId_isSome : v.blockId.isSome ↔
    getType v = .notarize ∨ getType v = .notarizeFallback := by
  cases v <;> simp [blockId, getType]

/-- Slot, type and block determine a vote. -/
theorem Vote.eq_of_blockId (hslot : v.slot = w.slot)
    (htype : getType v = getType w) (hblock : v.blockId = w.blockId) : v = w := by
  cases v <;> cases w <;> simp_all [slot, getType, blockId]

end Table

/-! ## The pools of a log -/

section PoolsOf

/-- The stakes of ballots, added up. -/
def stakeSum (stake : Pubkey → ℕ) (l : List (Ballot Pubkey Hash Sig)) : ℕ :=
  (l.map fun e => stake e.1).sum

variable (stake : Pubkey → ℕ)

theorem stakeSum_append (l l' : List (Ballot Pubkey Hash Sig)) :
    stakeSum stake (l ++ l') = stakeSum stake l + stakeSum stake l' := by
  rw [stakeSum, map_append, sum_append]
  rfl

theorem stakeSum_single (e : Ballot Pubkey Hash Sig) : stakeSum stake [e] = stake e.1 := by
  rw [stakeSum, map_singleton, sum_singleton]

theorem stakeSum_flatMap {β : Type} (values : List β) (f : β → List (Ballot Pubkey Hash Sig)) :
    stakeSum stake (values.flatMap f) = (values.map fun b => stakeSum stake (f b)).sum := by
  induction values with
  | nil => rfl
  | cons b values ih =>
    rw [flatMap_cons, stakeSum_append, ih, map_cons, sum_cons]

variable {l : List (Ballot Pubkey Hash Sig)} {message : VoteMessage Hash Sig}

section Ballots

variable (hpool : ∀ e ∈ l, Ballot.poolId e = (message.vote.slot, VoteType.getType message.vote))
include hpool

theorem mem_cast_iff :
    (key, message.vote) ∈ l.map Ballot.cast ↔
      ∃ e ∈ l, e.1 = key ∧ e.2.vote.blockId = message.vote.blockId := by
  rw [mem_map]
  refine exists_congr fun e => and_congr_right fun he => ?_
  have hid := hpool e he
  rw [Ballot.cast, Prod.mk.injEq]
  refine and_congr_right fun _ => ⟨fun h => by rw [h], fun h => ?_⟩
  exact eq_of_blockId (congrArg Prod.fst hid) (congrArg Prod.snd hid) h

/-- The ballots of a pool for one block are of distinct validators. -/
theorem keys_nodup_of_block [DecidableEq Hash] (hnodup : (l.map Ballot.cast).Nodup)
    (b : Option Hash) : ((l.filter fun e => e.2.vote.blockId = b).map Prod.fst).Nodup := by
  have hpairs : (l.filter fun e => e.2.vote.blockId = b).Pairwise
      fun e e' => Ballot.cast e ≠ Ballot.cast e' :=
    List.Pairwise.sublist filter_sublist (pairwise_map.mp hnodup)
  rw [Nodup, pairwise_map]
  refine hpairs.imp_of_mem fun {e e'} he he' hne heq => hne ?_
  rw [mem_filter, decide_eq_true_eq] at he he'
  have hid := (hpool e he.1).trans (hpool e' he'.1).symm
  refine Prod.ext heq ?_
  exact eq_of_blockId (congrArg Prod.fst hid) (congrArg Prod.snd hid) (he.2.trans he'.2.symm)

end Ballots

variable [DecidableEq Pubkey] {stake : Pubkey → ℕ}

def SimpleVotePool.ofLog (stake : Pubkey → ℕ) (l : List (Ballot Pubkey Hash Sig)) :
    SimpleVotePool Pubkey Hash Sig where
  votes := l.map Prod.snd
  totalStake := stakeSum stake l
  prevVotedValidators := (l.map Prod.fst).toFinset

theorem SimpleVotePool.ofLog_addVote (hkey : key ∉ l.map Prod.fst)
    (hsum : stakeSum stake l + stake key ≤ maxStake) :
    (ofLog stake l).addVote key (stake key) message =
      (ofLog stake (l ++ [(key, message)]), some (stakeSum stake (l ++ [(key, message)]))) := by
  have htotal : saturatingAdd (stakeSum stake l) (stake key) =
      stakeSum stake (l ++ [(key, message)]) := by
    rw [saturatingAdd, min_eq_right hsum, stakeSum_append, stakeSum_single]
  have hvoters : insert key (l.map Prod.fst).toFinset =
      ((l ++ [(key, message)]).map Prod.fst).toFinset := by
    simp
  have hvotes : l.map Prod.snd ++ [message] = (l ++ [(key, message)]).map Prod.snd := by
    rw [map_append, map_singleton]
  unfold addVote
  rw [if_neg (by rwa [ofLog, mem_toFinset])]
  dsimp only [ofLog]
  rw [htotal, hvoters, hvotes]

def ofKey (l : List (Ballot Pubkey Hash Sig)) (key : Pubkey) : List (Ballot Pubkey Hash Sig) :=
  l.filter fun e => e.1 = key

theorem ofKey_eq_nil : ofKey l key = [] ↔ ∀ e ∈ l, e.1 ≠ key := by
  simp [ofKey]

variable [DecidableEq Hash]

def forBlock (l : List (Ballot Pubkey Hash Sig)) (b : Hash) : List (Ballot Pubkey Hash Sig) :=
  l.filter fun e => e.2.vote.blockId = some b

def blocksOf (l : List (Ballot Pubkey Hash Sig)) (key : Pubkey) : Finset Hash :=
  ((ofKey l key).filterMap fun e => e.2.vote.blockId).toFinset

def DuplicateBlockVotePool.ofLog (stake : Pubkey → ℕ) (maxEntries : ℕ)
    (l : List (Ballot Pubkey Hash Sig)) : DuplicateBlockVotePool Pubkey Hash Sig where
  maxEntriesPerPubkey := maxEntries
  voteEntries b := if forBlock l b = [] then none
    else some ⟨(forBlock l b).map Prod.snd, stakeSum stake (forBlock l b)⟩
  prevVotedBlockIds key := if ofKey l key = [] then none else some (blocksOf l key)

theorem mem_blocksOf : b ∈ blocksOf l key ↔ ∃ e ∈ l, e.1 = key ∧ e.2.vote.blockId = some b := by
  rw [blocksOf, mem_toFinset, mem_filterMap]
  simp [ofKey, and_assoc]

variable {maxEntries : ℕ}

theorem DuplicateBlockVotePool.prevVotedBlockIds_ofLog :
    (ofLog stake maxEntries l).prevVotedBlockIds key =
      if ofKey l key = [] then none else some (blocksOf l key) :=
  rfl

theorem DuplicateBlockVotePool.voteEntries_ofLog (b : Hash) :
    (ofLog stake maxEntries l).voteEntries b = if forBlock l b = [] then none
      else some ⟨(forBlock l b).map Prod.snd, stakeSum stake (forBlock l b)⟩ :=
  rfl

theorem DuplicateBlockVotePool.getD_prevVotedBlockIds :
    ((ofLog stake maxEntries l).prevVotedBlockIds key).getD ∅ = blocksOf l key := by
  by_cases hnil : ofKey l key = []
  · rw [prevVotedBlockIds_ofLog, if_pos hnil, blocksOf, hnil]
    rfl
  · rw [prevVotedBlockIds_ofLog, if_neg hnil]
    rfl

theorem DuplicateBlockVotePool.getD_voteEntries (b : Hash) :
    ((ofLog stake maxEntries l).voteEntries b).getD {} =
      ⟨(forBlock l b).map Prod.snd, stakeSum stake (forBlock l b)⟩ := by
  by_cases hnil : forBlock l b = []
  · rw [voteEntries_ofLog, if_pos hnil, hnil]
    rfl
  · rw [voteEntries_ofLog, if_neg hnil]
    rfl

/-- A validator has as many blocks as ballots in one pool. -/
theorem card_blocksOf {id : ℕ × VoteType} (hpool : ∀ e ∈ l, Ballot.poolId e = id)
    (hblock : ∀ e ∈ l, e.2.vote.blockId.isSome) (hnodup : (l.map Ballot.cast).Nodup) :
    (blocksOf l key).card = (ofKey l key).length := by
  have hlength : ∀ l' : List (Ballot Pubkey Hash Sig),
      (∀ e ∈ l', e.2.vote.blockId.isSome) →
        (l'.filterMap fun e => e.2.vote.blockId).length = l'.length := by
    intro l' h
    induction l' with
    | nil => rfl
    | cons e l' ih =>
      obtain ⟨b, hb⟩ := Option.isSome_iff_exists.mp (h e mem_cons_self)
      rw [filterMap_cons, hb]
      exact congrArg (· + 1) (ih fun e' he' => h e' (mem_cons_of_mem e he'))
  have hmem : ∀ e ∈ ofKey l key, e ∈ l ∧ e.1 = key := by
    intro e he
    simpa [ofKey] using he
  rw [blocksOf, toFinset_card_of_nodup, hlength _ fun e he => hblock e (hmem e he).1]
  have hpairs : (ofKey l key).Pairwise fun e e' => Ballot.cast e ≠ Ballot.cast e' :=
    List.Pairwise.sublist filter_sublist (pairwise_map.mp hnodup)
  -- two ballots of the validator for one block would be one ballot
  have hblocks : (ofKey l key).Pairwise fun e e' => e.2.vote.blockId ≠ e'.2.vote.blockId := by
    refine hpairs.imp_of_mem fun {e e'} he he' hne heq => hne ?_
    have hid := (hpool e (hmem e he).1).trans (hpool e' (hmem e' he').1).symm
    refine Prod.ext ((hmem e he).2.trans (hmem e' he').2.symm) ?_
    exact eq_of_blockId (congrArg Prod.fst hid) (congrArg Prod.snd hid) heq
  refine List.Pairwise.filterMap _ (fun e e' hne b hb b' hb' heq => hne ?_) hblocks
  rw [hb, hb', heq]

/-- A new block of `key` joins the pool of the log. -/
theorem DuplicateBlockVotePool.ofLog_addVote
    (hb : message.vote.blockId = some b) (hnew : b ∉ blocksOf l key)
    (hroom : (blocksOf l key).card < maxEntries)
    (hsum : stakeSum stake (forBlock l b) + stake key ≤ maxStake) :
    (ofLog stake maxEntries l).addVote key (stake key) message =
      some (ofLog stake maxEntries (l ++ [(key, message)]),
        some (stakeSum stake (forBlock (l ++ [(key, message)]) b))) := by
  have hfor : ∀ b', forBlock (l ++ [(key, message)]) b' =
      if b' = b then forBlock l b ++ [(key, message)] else forBlock l b' := by
    intro b'
    rw [forBlock, filter_append]
    by_cases heq : b' = b
    · rw [if_pos heq, heq, filter_singleton, hb]
      simp [forBlock]
    · rw [if_neg heq, filter_singleton, hb]
      simp [forBlock, Ne.symm heq]
  have hof : ∀ k, ofKey (l ++ [(key, message)]) k =
      if k = key then ofKey l key ++ [(key, message)] else ofKey l k := by
    intro k
    rw [ofKey, filter_append]
    by_cases heq : k = key
    · rw [if_pos heq, heq, filter_singleton]
      simp [ofKey]
    · rw [if_neg heq, filter_singleton]
      simp [ofKey, Ne.symm heq]
  have hblocks : blocksOf (l ++ [(key, message)]) key = insert b (blocksOf l key) := by
    ext b'
    rw [Finset.mem_insert, mem_blocksOf, mem_blocksOf]
    simp only [mem_append, mem_singleton, or_and_right, exists_or, exists_eq_left, hb,
      true_and, Option.some.injEq]
    rw [or_comm, eq_comm]
  have htotal : saturatingAdd (stakeSum stake (forBlock l b)) (stake key) =
      stakeSum stake (forBlock l b ++ [(key, message)]) := by
    rw [saturatingAdd, min_eq_right hsum, stakeSum_append, stakeSum_single]
  have hprev : update (ofLog stake maxEntries l).prevVotedBlockIds key
      (some (insert b (blocksOf l key))) =
        (ofLog stake maxEntries (l ++ [(key, message)])).prevVotedBlockIds := by
    funext k
    by_cases heq : k = key
    · cases heq
      rw [update_self, prevVotedBlockIds_ofLog, hof, if_pos rfl, if_neg (by simp), hblocks]
    · rw [update_of_ne heq, prevVotedBlockIds_ofLog, prevVotedBlockIds_ofLog, blocksOf,
        blocksOf, hof, if_neg heq]
  have hentries : update (ofLog stake maxEntries l).voteEntries b
      (some ⟨(forBlock l b).map Prod.snd ++ [message],
        stakeSum stake (forBlock l b ++ [(key, message)])⟩) =
        (ofLog stake maxEntries (l ++ [(key, message)])).voteEntries := by
    funext b'
    by_cases heq : b' = b
    · cases heq
      rw [update_self, voteEntries_ofLog, hfor, if_pos rfl, if_neg (by simp),
        map_append, map_singleton]
    · rw [update_of_ne heq, voteEntries_ofLog, voteEntries_ofLog, hfor, if_neg heq]
  unfold addVote
  rw [hb, Option.map_some]
  rw [getD_prevVotedBlockIds, if_neg (by
    rintro (hin | hfull)
    · exact hnew hin
    · exact absurd hroom (not_lt.mpr hfull)), getD_voteEntries]
  dsimp only
  rw [htotal, hprev, hentries, hfor, if_pos rfl]
  rfl

/-- A vote without room changes nothing. -/
theorem DuplicateBlockVotePool.ofLog_addVote_of_full
    (hb : message.vote.blockId = some b) (hpos : 0 < maxEntries)
    (hfull : b ∈ blocksOf l key ∨ maxEntries ≤ (blocksOf l key).card) :
    (ofLog stake maxEntries l).addVote key (stake key) message =
      some (ofLog stake maxEntries l, none) := by
  have hkey : ofKey l key ≠ [] := by
    intro hnil
    have hempty : blocksOf l key = ∅ := by rw [blocksOf, hnil]; rfl
    rw [hempty] at hfull
    rcases hfull with h | h
    · exact Finset.notMem_empty b h
    · exact absurd hpos (not_lt.mpr h)
  have hprev : update (ofLog stake maxEntries l).prevVotedBlockIds key
      (some (blocksOf l key)) = (ofLog stake maxEntries l).prevVotedBlockIds := by
    refine update_eq_self_iff.mpr ?_
    rw [prevVotedBlockIds_ofLog, if_neg hkey]
  unfold addVote
  rw [hb, Option.map_some]
  rw [getD_prevVotedBlockIds, if_pos (show _ ∨ (ofLog stake maxEntries l).maxEntriesPerPubkey ≤ _
    from hfull), hprev]

/-- The pool of a vote type that holds a list of ballots. -/
def poolOf (stake : Pubkey → ℕ) (voteType : VoteType) (l : List (Ballot Pubkey Hash Sig)) :
    VotePool Pubkey Hash Sig :=
  match voteType with
  | .notarize | .notarizeFallback =>
      .duplicateBlockVotePool (.ofLog stake voteType.maxEntries l)
  | .finalize | .skip | .skipFallback => .simpleVotePool (.ofLog stake l)

theorem newVotePool_eq (voteType : VoteType) :
    (ConsensusPool.newVotePool voteType : VotePool Pubkey Hash Sig) =
      poolOf stake voteType [] := by
  cases voteType <;> rfl

/-- The vote is new to its validator in the pool, which has room for it. -/
def Room (l : List (Ballot Pubkey Hash Sig)) (key : Pubkey) (v : Vote Hash) : Prop :=
  (key, v) ∉ l.map Ballot.cast ∧ (ofKey l key).length < (VoteType.getType v).maxEntries

theorem VoteType.maxEntries_pos (voteType : VoteType) : 0 < voteType.maxEntries := by
  cases voteType <;> decide

section Pool

variable (hpool : ∀ e ∈ l, Ballot.poolId e = (message.vote.slot, VoteType.getType message.vote))
include hpool

variable (hnodup : (l.map Ballot.cast).Nodup)
  (hsum : ∀ l' : List (Ballot Pubkey Hash Sig), l'.Sublist l →
    (l'.map Prod.fst).Nodup → key ∉ l'.map Prod.fst → stakeSum stake l' + stake key ≤ maxStake)

include hnodup in
theorem room_iff_of_block (hb : message.vote.blockId = some b) :
    Room l key message.vote ↔ b ∉ blocksOf l key ∧
      (blocksOf l key).card < (getType message.vote).maxEntries := by
  have hsome : ∀ e ∈ l, e.2.vote.blockId.isSome := by
    intro e he
    have htype : getType e.2.vote = getType message.vote := congrArg Prod.snd (hpool e he)
    rw [blockId_isSome, htype, ← blockId_isSome, hb]
    rfl
  rw [Room, mem_cast_iff hpool, hb, mem_blocksOf, card_blocksOf hpool hsome hnodup]

omit [DecidableEq Hash] hpool in
theorem room_iff_of_simple (hmax : (getType message.vote).maxEntries = 1) :
    Room l key message.vote ↔ key ∉ l.map Prod.fst := by
  rw [Room, hmax, Nat.lt_one_iff, length_eq_zero_iff, ofKey_eq_nil, mem_map, mem_map]
  constructor
  · rintro ⟨-, hno⟩ ⟨e, he, hkey⟩
    exact hno e he hkey
  · intro hno
    refine ⟨?_, fun e he hkey => hno ⟨e, he, hkey⟩⟩
    rintro ⟨e, he, hcast⟩
    exact hno ⟨e, he, congrArg Prod.fst hcast⟩

include hnodup hsum in
theorem addVote_of_block (hb : message.vote.blockId = some b) (hroom : Room l key message.vote) :
    ∃ n, (VotePool.duplicateBlockVotePool (.ofLog stake (getType
      message.vote).maxEntries l)).addVote key (stake key) message =
        some (.duplicateBlockVotePool (.ofLog stake (getType message.vote).maxEntries
          (l ++ [(key, message)])), some n) := by
  rw [room_iff_of_block hpool hnodup hb] at hroom
  have hfits : stakeSum stake (forBlock l b) + stake key ≤ maxStake := by
    refine hsum _ filter_sublist (keys_nodup_of_block hpool hnodup (some b)) fun hkey => ?_
    obtain ⟨e, he, hkey⟩ := mem_map.mp hkey
    rw [forBlock, mem_filter, decide_eq_true_eq] at he
    exact hroom.1 (mem_blocksOf.mpr ⟨e, he.1, hkey, he.2⟩)
  refine ⟨stakeSum stake (forBlock (l ++ [(key, message)]) b), ?_⟩
  rw [VotePool.addVote, ofLog_addVote hb hroom.1 hroom.2 hfits]
  rfl

include hnodup hsum in
theorem addVote_of_simple (hnone : message.vote.blockId = none) (hnew : key ∉ l.map Prod.fst) :
    ∃ n, (VotePool.simpleVotePool (.ofLog stake l)).addVote key (stake key) message =
      some (.simpleVotePool (.ofLog stake (l ++ [(key, message)])), some n) := by
  have hall : (l.filter fun e => e.2.vote.blockId = none) = l := by
    refine filter_eq_self.mpr fun e he => ?_
    have htype : getType e.2.vote = getType message.vote := congrArg Prod.snd (hpool e he)
    rw [decide_eq_true_eq, ← Option.not_isSome_iff_eq_none, blockId_isSome, htype,
      ← blockId_isSome, hnone]
    exact Bool.false_ne_true
  have hkeys := keys_nodup_of_block hpool hnodup none
  rw [hall] at hkeys
  refine ⟨stakeSum stake (l ++ [(key, message)]), ?_⟩
  rw [VotePool.addVote, SimpleVotePool.ofLog_addVote hnew (hsum l (List.Sublist.refl l) hkeys hnew)]

variable (stake) in
include hnodup hsum in
/-- A pool takes a vote if there is room. The stakes of distinct validators are assumed to fit
into 64 bits. -/
theorem poolOf_addVote (hroom : Room l key message.vote) :
    ∃ n, (poolOf stake (getType message.vote) l).addVote key (stake key) message =
      some (poolOf stake (getType message.vote) (l ++ [(key, message)]), some n) := by
  have hdup := fun b hb => addVote_of_block hpool hnodup hsum (b := b) hb hroom
  have hsimple := fun hnone hmax =>
    addVote_of_simple hpool hnodup hsum hnone ((room_iff_of_simple hmax).mp hroom)
  cases hv : message.vote with
  | notarize slot b | notarizeFallback slot b =>
    rw [hv] at hdup
    exact hdup b rfl
  | finalize | skip | skipFallback =>
    rw [hv] at hsimple
    exact hsimple rfl rfl

variable (stake) in
include hnodup in
theorem poolOf_addVote_of_not_room (hfull : ¬ Room l key message.vote) :
    (poolOf stake (getType message.vote) l).addVote key (stake key) message =
      some (poolOf stake (getType message.vote) l, none) := by
  have hdup : ∀ b, message.vote.blockId = some b →
      (duplicateBlockVotePool (.ofLog stake (getType message.vote).maxEntries
        l)).addVote key (stake key) message = some (.duplicateBlockVotePool (.ofLog stake
          (getType message.vote).maxEntries l), none) := by
    intro b hb
    rw [room_iff_of_block hpool hnodup hb, not_and_or, not_not, not_lt] at hfull
    rw [VotePool.addVote, ofLog_addVote_of_full hb (maxEntries_pos _) hfull]
    rfl
  have hsimple : (getType message.vote).maxEntries = 1 →
      (simpleVotePool (.ofLog stake l)).addVote key (stake key) message =
        some (.simpleVotePool (.ofLog stake l), none) := by
    intro hmax
    rw [room_iff_of_simple hmax, not_not] at hfull
    rw [VotePool.addVote, SimpleVotePool.addVote,
      if_pos (by rwa [SimpleVotePool.ofLog, mem_toFinset])]
  cases hv : message.vote with
  | notarize slot b | notarizeFallback slot b =>
    rw [hv] at hdup
    exact hdup b rfl
  | finalize | skip | skipFallback =>
    rw [hv] at hsimple
    exact hsimple rfl

end Pool

end PoolsOf

/-! ## The log -/

section Log

variable {epochs : Epochs Pubkey} {log log' : List (Ballot Pubkey Hash Sig)}
  {stakes : EpochStakes Pubkey} {e : Ballot Pubkey Hash Sig} {slot : ℕ}

/-- What the rules keep of a log: every ballot is of the validator with its rank, no ballot is
there twice, and no two ballots of a validator conflict. -/
structure Sound (epochs : Epochs Pubkey) (log : List (Ballot Pubkey Hash Sig)) : Prop where
  ranked : ∀ e ∈ log, epochs.keyOf e.2.vote.slot e.2.rank = some e.1
  nodup : (log.map Ballot.cast).Nodup
  noConflict : ∀ e ∈ log, ∀ e' ∈ log, e.1 = e'.1 → ¬ e.2.vote.Conflicts e'.2.vote

theorem Sound.nil : Sound epochs ([] : List (Ballot Pubkey Hash Sig)) :=
  ⟨fun _ h => (not_mem_nil h).elim, nodup_nil, fun _ h => (not_mem_nil h).elim⟩

theorem Epochs.keyOf_eq_some {slot rank : ℕ} : epochs.keyOf slot rank = some key ↔
    ∃ stakes, epochs.stakesAt slot = some stakes ∧ stakes.sortedPubkeys[rank]? = some key := by
  rw [keyOf, Option.bind_eq_some_iff]

theorem Epochs.stake_eq (hstakes : epochs.stakesAt slot = some stakes) :
    epochs.stake slot = stakes.voteAccountStake := by
  funext k
  rw [stake, hstakes]
  rfl

/-- The stakes of distinct validators fit into the total. -/
theorem EpochStakes.sum_le_total (stakes : EpochStakes Pubkey) {keys : List Pubkey}
    (hnodup : keys.Nodup) (hmem : ∀ k ∈ keys, k ∈ stakes.sortedPubkeys) :
    (keys.map stakes.voteAccountStake).sum ≤ stakes.totalStake := by
  obtain ⟨l, hperm, hsublist⟩ := hnodup.subperm hmem
  rw [← (hperm.map stakes.voteAccountStake).sum_eq]
  exact ((hsublist.map _).sum_le_sum fun _ _ => Nat.zero_le _).trans stakes.sum_le

theorem Sound.mem_sortedPubkeys (h : Sound epochs log) (he : e ∈ log)
    (hstakes : epochs.stakesAt e.2.vote.slot = some stakes) : e.1 ∈ stakes.sortedPubkeys := by
  obtain ⟨stakes', hstakes', hkey⟩ := Epochs.keyOf_eq_some.mp (h.ranked e he)
  cases hstakes.symm.trans hstakes'
  exact mem_of_getElem? hkey

/-- The stakes of ballots of one slot that are of distinct validators fit into the total. -/
theorem Sound.stakeSum_le (h : Sound epochs log) {l : List (Ballot Pubkey Hash Sig)}
    (hl : ∀ e ∈ l, e ∈ log ∧ e.2.vote.slot = slot) (hkeys : (l.map Prod.fst).Nodup)
    (hstakes : epochs.stakesAt slot = some stakes) :
    stakeSum (epochs.stake slot) l ≤ stakes.totalStake := by
  have hsum := stakes.sum_le_total hkeys (by
    intro k hk
    obtain ⟨e, he, rfl⟩ := mem_map.mp hk
    exact h.mem_sortedPubkeys (hl e he).1 ((hl e he).2 ▸ hstakes))
  rw [map_map] at hsum
  rw [stakeSum, Epochs.stake_eq hstakes]
  exact hsum

variable [DecidableEq Hash]

theorem mem_contributing : e ∈ contributing log c ↔ e ∈ log ∧ c.Counts e.2.vote := by
  rw [contributing, mem_filter, decide_eq_true_eq]

/-- The voters of a certificate are distinct. -/
theorem Sound.keys_nodup (h : Sound epochs log) (c : CertificateType Hash) :
    ((contributing log c).map Prod.fst).Nodup := by
  have hpairs : (contributing log c).Pairwise fun e e' => Ballot.cast e ≠ Ballot.cast e' :=
    List.Pairwise.sublist filter_sublist (pairwise_map.mp h.nodup)
  rw [Nodup, pairwise_map]
  refine hpairs.imp_of_mem fun {e e'} he he' hne heq => hne ?_
  rw [mem_contributing] at he he'
  exact Prod.ext heq (eq_of_counts he.2 he'.2 (h.noConflict e he.1 e' he'.1 heq))

/-- So are their ranks. -/
theorem Sound.ranks_nodup (h : Sound epochs log) (c : CertificateType Hash) :
    ((contributing log c).map fun e => e.2.rank).Nodup := by
  have hpairs := pairwise_map.mp (h.keys_nodup c)
  rw [Nodup, pairwise_map]
  refine hpairs.imp_of_mem fun {e e'} he he' hne heq => hne ?_
  rw [mem_contributing] at he he'
  have hkey := h.ranked e he.1
  have hkey' := h.ranked e' he'.1
  rw [he.2.1, heq] at hkey
  rw [he'.2.1] at hkey'
  exact Option.some_injective _ (hkey.symm.trans hkey')

variable [DecidableEq Pubkey]

theorem mem_voters : key ∈ voters log c ↔ ∃ v, c.Counts v ∧ (key, v) ∈ log.map Ballot.cast := by
  rw [voters, mem_toFinset, mem_map]
  constructor
  · rintro ⟨e, he, rfl⟩
    rw [mem_contributing] at he
    exact ⟨e.2.vote, he.2, mem_map.mpr ⟨e, he.1, rfl⟩⟩
  · rintro ⟨v, hv, hmem⟩
    obtain ⟨e, he, hcast⟩ := mem_map.mp hmem
    cases hcast
    exact ⟨e, mem_contributing.mpr ⟨he, hv⟩, rfl⟩

theorem Sound.stakeSum_contributing (h : Sound epochs log) (c : CertificateType Hash)
    (stake : Pubkey → ℕ) : stakeSum stake
    (contributing log c) = ∑ key ∈ voters log c, stake key := by
  rw [voters, sum_toFinset stake (h.keys_nodup c), map_map]
  rfl

/-- The limits are reached for good. -/
theorem Reached.mono (h : Reached epochs log c)
    (hsub : ∀ x ∈ log.map Ballot.cast, x ∈ log'.map Ballot.cast) : Reached epochs log' c := by
  obtain ⟨stakes, hstakes, hlimit⟩ := h
  refine ⟨stakes, hstakes, fun habove => hlimit (lt_of_le_of_lt ?_ habove)⟩
  refine Nat.mul_le_mul_right _ (Finset.sum_le_sum_of_subset fun key hkey => ?_)
  obtain ⟨v, hv, hmem⟩ := mem_voters.mp hkey
  exact mem_voters.mpr ⟨v, hv, hsub _ hmem⟩

/-- A stronger certificate for a block comes with the fallback one. -/
theorem Reached.notarizeFallback
    (h : Reached epochs log (.notarize slot b) ∨ Reached epochs log (.finalizeFast slot b)) :
    Reached epochs log (.notarizeFallback slot b) := by
  have hvoters : voters log (.notarize slot b) ⊆ voters log (.notarizeFallback slot b) := by
    intro key hkey
    obtain ⟨v, ⟨hslot, htype, hblock⟩, hmem⟩ := mem_voters.mp hkey
    refine mem_voters.mpr ⟨v, ⟨hslot, ?_, hblock⟩, hmem⟩
    exact mem_cons.mpr (Or.inl (mem_singleton.mp htype))
  have hsum := Finset.sum_le_sum_of_subset (f := epochs.stake slot) hvoters
  rcases h with ⟨stakes, hstakes, hlimit⟩ | ⟨stakes, hstakes, hlimit⟩
  · refine ⟨stakes, hstakes, fun habove => hlimit (lt_of_le_of_lt ?_ habove)⟩
    exact Nat.mul_le_mul_right _ hsum
  · refine ⟨stakes, hstakes, fun habove => hlimit ?_⟩
    have hfast : (∑ key ∈ voters log (.finalizeFast slot b), epochs.stake slot key) ≤
        ∑ key ∈ voters log (.notarizeFallback slot b), epochs.stake slot key := hsum
    have hbelow : (∑ key ∈ voters log (.notarizeFallback slot b), epochs.stake slot key) * 5 <
        3 * stakes.totalStake := habove
    show (∑ key ∈ voters log (.finalizeFast slot b), epochs.stake slot key) * 5 <
        4 * stakes.totalStake
    omega

end Log

end Salsa.Votor
