import Salsa.Votor.Certificates

/-!
# Salsa.Votor.CertificateRuns — the certificates of a sequence of votes

`Serves` relates a pool to the log of accepted votes: the vote pools hold them, and a
certificate is completed exactly if its limit is reached. One call of `add_vote` keeps it and
generates the certificates whose limit the new vote reaches (`Serves.addVote`), so a run
generates every certificate at the first vote that reaches its limit. For votes without
conflicts the log holds all of them whatever the order, and so do the certificates.
-/

namespace Salsa.Votor

open List hiding Disjoint

open VoteType

section Runs

variable {Pubkey Hash Sig : Type} {epochs : Epochs Pubkey} {v : Vote Hash}
  {c : CertificateType Hash} {slot rank : ℕ}

/-- A certificate that a vote counts for has the slot and the block of the vote. -/
theorem slot_blockId_of_mem
    (h : c ∈ voteToCertificateIds v) : c.slot = v.slot ∧ c.blockId = v.blockId := by
  cases v <;> simp only [voteToCertificateIds, mem_cons, not_mem_nil, or_false] at h
  · rcases h with rfl | rfl | rfl <;> exact ⟨rfl, rfl⟩
  all_goals
    cases h
    exact ⟨rfl, rfl⟩

theorem getKeyAndStakes_of_keyOf {key : Pubkey} (hkey : epochs.keyOf slot rank = some key) :
    ∃ stakes, epochs.stakesAt slot = some stakes ∧ epochs.getKeyAndStakes slot rank =
      some (.ok (key, epochs.stake slot key, stakes.totalStake)) := by
  obtain ⟨stakes, hstakes, hrank⟩ := Epochs.keyOf_eq_some.mp hkey
  have hpos := stakes.stake_pos key (mem_of_getElem? hrank)
  refine ⟨stakes, hstakes, ?_⟩
  rw [Epochs.getKeyAndStakes, hstakes]
  dsimp only
  rw [hrank]
  dsimp only
  rw [if_neg hpos.ne', Epochs.stake, hstakes]
  rfl

theorem getKeyAndStakes_of_none (hkey : epochs.keyOf slot rank = none) :
    ∃ error, epochs.getKeyAndStakes slot rank = some (.error error) := by
  rw [Epochs.keyOf] at hkey
  rw [Epochs.getKeyAndStakes]
  cases hstakes : epochs.stakesAt slot with
  | none => exact ⟨_, rfl⟩
  | some stakes =>
    rw [hstakes, Option.bind_some] at hkey
    dsimp only
    rw [hkey]
    exact ⟨_, rfl⟩

variable [DecidableEq Pubkey] {log : List (Ballot Pubkey Hash Sig)} {key : Pubkey}
  {message : VoteMessage Hash Sig} {call : Call Hash Sig}

/-! ## The log after one call -/

/-- An accepted vote keeps the log sound. -/
theorem Sound.append (hs : Sound epochs log)
    (hkey : epochs.keyOf message.vote.slot message.rank = some key)
    (haccepts : Accepts log key message.vote) : Sound epochs (log ++ [(key, message)]) := by
  constructor
  · exact forall_mem_append.mpr ⟨hs.ranked, forall_mem_singleton.mpr hkey⟩
  · rw [map_append, map_singleton]
    exact List.Nodup.append hs.nodup (nodup_singleton _) (disjoint_singleton.mpr haccepts.2.1)
  · intro e he e' he' heq
    rcases mem_append.mp he with he | he <;> rcases mem_append.mp he' with he' | he'
    · exact hs.noConflict e he e' he' heq
    · cases mem_singleton.mp he'
      exact fun hconf => haccepts.1 e he heq hconf.symm
    · cases mem_singleton.mp he
      exact haccepts.1 e' he' heq.symm
    · cases mem_singleton.mp he
      cases mem_singleton.mp he'
      exact Vote.not_conflicts_self _

variable [LinearOrder Hash] {stakes : EpochStakes Pubkey}

theorem reached_iff (hstakes : epochs.stakesAt c.slot = some stakes) :
    Reached epochs log c ↔ ¬ (certificateLimitsAndVoteTypes c).1.above
      (∑ key ∈ voters log c, epochs.stake c.slot key) stakes.totalStake := by
  constructor
  · rintro ⟨stakes', hstakes', hlimit⟩
    cases hstakes.symm.trans hstakes'
    exact hlimit
  · exact fun hlimit => ⟨stakes, hstakes, hlimit⟩

/-- A vote that does not count leaves the voters of a certificate. -/
theorem voters_append_of_not_counts (h : ¬ c.Counts message.vote) :
    voters (log ++ [(key, message)]) c = voters log c := by
  have hsame : contributing (log ++ [(key, message)]) c = contributing log c := by
    rw [contributing, filter_append, filter_singleton, decide_eq_false h]
    exact append_nil _
  rw [voters, hsame, voters]

theorem mem_voters_append (h : c.Counts message.vote) : key ∈ voters (log ++ [(key, message)]) c :=
  mem_voters.mpr ⟨message.vote, h, mem_map.mpr
    ⟨(key, message), mem_append_right _ (mem_singleton_self _), rfl⟩⟩

theorem Reached.append (h : Reached epochs log c) (e : Ballot Pubkey Hash Sig) :
    Reached epochs (log ++ [e]) c :=
  h.mono fun x hx => by
    rw [map_append]
    exact mem_append_left _ hx

/-- Without votes a limit of a slot with a validator is not reached. -/
theorem Reached.voters_nonempty {rank : ℕ} (hkey : epochs.keyOf c.slot rank = some key)
    (h : Reached epochs log c) : voters log c ≠ ∅ := by
  intro hempty
  obtain ⟨stakes, hstakes, hrank⟩ := Epochs.keyOf_eq_some.mp hkey
  rw [reached_iff hstakes, hempty, Finset.sum_empty] at h
  refine h ?_
  have hin := mem_of_getElem? hrank
  have hpos : 0 < stakes.totalStake :=
    (stakes.stake_pos key hin).trans_le ((single_le_sum (fun _ _ => Nat.zero_le _) _
      (mem_map_of_mem hin)).trans stakes.sum_le)
  have hlimit : 0 < (certificateLimitsAndVoteTypes c).1.1 := by
    cases c <;> exact Nat.succ_pos _
  rw [Limit.above, Nat.zero_mul]
  exact Nat.mul_pos hlimit hpos

/-! ## The loop over the certificates of a vote -/

variable [Bls Sig]

/-- A certificate counts the voters of its type: the ranks of their votes are in the two bitmaps,
each in one of them. -/
def Certifies (log : List (Ballot Pubkey Hash Sig)) (cert : Certificate Hash Sig) : Prop :=
  ∃ builder : CertificateBuilder Hash Sig, builder.build = .ok cert ∧
    Disjoint builder.inputBitmap1 builder.inputBitmap2 ∧
    builder.inputBitmap1 ∪ builder.inputBitmap2 =
      ((contributing log cert.certType).map fun e => e.2.rank).toFinset ∧
    (builder.inputBitmap1 ∪ builder.inputBitmap2).card = (voters log cert.certType).card

variable {cert : Certificate Hash Sig}

theorem Builds.certifies (hs : Sound epochs log) {builder : CertificateBuilder Hash Sig}
    (h : Builds c (contributing log c) builder)
    (hbuild : builder.build = .ok cert) (hcert : cert.certType = c) : Certifies log cert := by
  have hT : ∀ e ∈ contributing log c, getType e.2.vote ∈ c.voteTypes :=
    fun e he => (mem_contributing.mp he).2.2.1
  have hunion : builder.inputBitmap1 ∪ builder.inputBitmap2 =
      ((contributing log c).map fun e => e.2.rank).toFinset := by
    ext r
    rw [h.mem_union hT, mem_toFinset]
  rw [Certifies, hcert]
  refine ⟨builder, hbuild, h.disjoint (hs.ranks_nodup c), hunion, ?_⟩
  rw [hunion, toFinset_card_of_nodup (hs.ranks_nodup c), voters,
    toFinset_card_of_nodup (hs.keys_nodup c), length_map, length_map]

variable {onCurve : Sig → Prop} {init : Block Hash}

/-- What the pool needs to build certificates from a log: ranks within the bitmaps, signatures
that can be added up, and no more blocks than the tracker takes. -/
structure Feasible (epochs : Epochs Pubkey) (onCurve : Sig → Prop) (init : Block Hash)
    (log : List (Ballot Pubkey Hash Sig)) : Prop where
  ranks : ∀ e ∈ log, e.2.rank < maximumValidators
  signatures : ∀ e ∈ log, onCurve e.2.signature
  threeBlocks : ThreeBlocks epochs init log

omit [Bls Sig] in
theorem Feasible.of_subset {log' : List (Ballot Pubkey Hash Sig)}
    (h : Feasible epochs onCurve init log') (hsub : log ⊆ log') :
    Feasible epochs onCurve init log := by
  refine ⟨fun e he => h.ranks e (hsub he), fun e he => h.signatures e (hsub he), ?_⟩
  intro slot hslot blocks hblocks
  exact h.threeBlocks slot hslot blocks fun b hb =>
    (hblocks b hb).mono (map_subset Ballot.cast hsub)

variable {self : ConsensusPool Pubkey Hash Sig}

/-- One certificate type in the loop whose limit is reached. -/
theorem newCertificate_spec (hlawful : Bls.Lawful Sig onCurve) (hs : Sound epochs log)
    (hlog : Feasible epochs onCurve init log) (hpools : self.votePools = poolsOf epochs log)
    (c : CertificateType Hash) :
    ∃ builder cert, self.aggregateVotes c c.slot c.blockId c.voteTypes =
      some (.ok builder) ∧ builder.build = .ok cert ∧ cert.certType = c ∧
      Certifies log cert := by
  obtain ⟨result, haggregate, hresult⟩ := aggregateVotes_spec hlawful hs hpools c
  have hmem : ∀ e ∈ contributing log c, e ∈ log := fun e he => (mem_contributing.mp he).1
  obtain ⟨builder, rfl⟩ := hresult.succeeds fun e he =>
    ⟨hlog.ranks e (hmem e he), hlog.signatures e (hmem e he)⟩
  have hbuilds := hresult.builds builder rfl
  obtain ⟨cert, hbuild, hcert⟩ := hbuilds.build hlawful
    (fun e he => (mem_contributing.mp he).2.2.1) (hs.ranks_nodup c)
    fun e he => hlog.ranks e (hmem e he)
  exact ⟨builder, cert, haggregate, hbuild, hcert, hbuilds.certifies hs hbuild hcert⟩

variable [LeaderWindow]

/-- The certificates that are completed are those of the list whose limit is reached and that
were not there, each one once. -/
structure Completes (epochs : Epochs Pubkey) (init : Block Hash)
    (log : List (Ballot Pubkey Hash Sig)) (ids : List (CertificateType Hash))
    (pool pool' : ConsensusPool Pubkey Hash Sig)
    (certs : List (Certificate Hash Sig)) : Prop where
  votePools : pool'.votePools = poolsOf epochs log
  follows : Follows init pool'.parentReadyTracker (Certified epochs log)
  nodup : (certs.map Certificate.certType).Nodup
  mem : ∀ c, c ∈ certs.map Certificate.certType ↔
    c ∈ ids ∧ ¬ pool.completedCertificates.contains c ∧ Reached epochs log c
  contains : ∀ c, pool'.completedCertificates.contains c ↔
    pool.completedCertificates.contains c ∨ c ∈ certs.map Certificate.certType
  certifies : ∀ cert ∈ certs, Certifies log cert

variable {ids : List (CertificateType Hash)} {certs : List (Certificate Hash Sig)}

/-- A certificate that is there or not due changes nothing. -/
theorem Completes.skip {self' : ConsensusPool Pubkey Hash Sig}
    (h : Completes epochs init log ids self self' certs)
    (hnot : self.completedCertificates.contains c ∨ ¬ Reached epochs log c) :
    Completes epochs init log (c :: ids) self self' certs := by
  refine { h with mem := fun c' => (h.mem c').trans ?_ }
  rw [mem_cons, or_and_right]
  refine (or_iff_right ?_).symm
  rintro ⟨rfl, hfresh, hreached⟩
  exact hnot.elim hfresh fun h => h hreached

/-- A new certificate comes first. -/
theorem Completes.cons {self₁ self' : ConsensusPool Pubkey Hash Sig}
    (h : Completes epochs init log ids self₁ self' certs)
    (hinsert : self₁.completedCertificates = self.completedCertificates.insert cert.certType cert)
    (hold : ¬ self.completedCertificates.contains cert.certType)
    (hreached : Reached epochs log cert.certType) (hcert : Certifies log cert) :
    Completes epochs init log (cert.certType :: ids) self self' (cert :: certs) := by
  have hcontains : ∀ c', self₁.completedCertificates.contains c' ↔
      c' = cert.certType ∨ self.completedCertificates.contains c' := by
    intro c'
    rw [hinsert, OrdMap.contains, OrdMap.get_insert]
    by_cases heq : c' = cert.certType
    · rw [if_pos heq]
      exact iff_of_true rfl (Or.inl heq)
    · rw [if_neg heq, or_iff_right heq]
      rfl
  constructor
  · exact h.votePools
  · exact h.follows
  · rw [map_cons, nodup_cons]
    refine ⟨fun hin => ?_, h.nodup⟩
    exact ((h.mem _).mp hin).2.1 ((hcontains _).mpr (Or.inl rfl))
  · intro c'
    rw [map_cons, mem_cons, h.mem, hcontains, mem_cons]
    by_cases heq : c' = cert.certType
    · rw [heq]
      exact iff_of_true (Or.inl rfl) ⟨Or.inl rfl, hold, hreached⟩
    · simp only [heq, false_or]
  · intro c'
    rw [h.contains, hcontains, map_cons, mem_cons]
    tauto
  · intro cert' hcert'
    rcases mem_cons.mp hcert' with rfl | hcert'
    · exact hcert
    · exact h.certifies cert' hcert'

open ConsensusPool

/-- By induction on the certificate types; each new one changes the pool. -/
theorem checkCertificates_spec (hlawful : Bls.Lawful Sig onCurve) (hs : Sound epochs log)
    (hlog : Feasible epochs onCurve init log) {slot : ℕ} {blockId : Option Hash}
    (hstakes : epochs.stakesAt slot = some stakes)
    (hids : ∀ c ∈ ids, c.slot = slot ∧ c.blockId = blockId)
    (new : List (Certificate Hash Sig)) (events : List (Event Hash))
    (hpools : self.votePools = poolsOf epochs log)
    (hfollows : Follows init self.parentReadyTracker (Certified epochs log)) :
    ∃ certs self' events', checkCertificates slot blockId stakes.totalStake ids new
        (self, events) = some (.ok (new ++ certs), self', events') ∧
      Completes epochs init log ids self self' certs := by
  induction ids generalizing new self events with
  | nil =>
    refine ⟨[], self, events, ?_, hpools, hfollows, nodup_nil, fun c => ?_, fun c => ?_, nofun⟩
    · rw [append_nil]
      rfl
    · exact iff_of_false not_mem_nil fun h => not_mem_nil h.1
    · exact (or_iff_left not_mem_nil).symm
  | cons c ids ih =>
    have hrest := fun c' hc' => hids c' (mem_cons_of_mem c hc')
    obtain ⟨rfl, rfl⟩ := hids c mem_cons_self
    rw [checkCertificates]
    by_cases hold : self.completedCertificates.contains c
    · rw [if_pos hold]
      obtain ⟨certs, self', events', hrun, h⟩ := ih hrest new events hpools hfollows
      exact ⟨certs, self', events', hrun, h.skip (Or.inl hold)⟩
    rw [if_neg hold]
    dsimp only
    rw [accumulatedStake_eq hs hpools hstakes, Option.bind_eq_bind, Option.bind_some]
    by_cases hlimit : (certificateLimitsAndVoteTypes c).1.above
        (∑ key ∈ voters log c, epochs.stake c.slot key) stakes.totalStake
    · rw [if_pos hlimit]
      obtain ⟨certs, self', events', hrun, h⟩ := ih hrest new events hpools hfollows
      exact ⟨certs, self', events', hrun,
        h.skip (Or.inr fun h => (reached_iff hstakes).mp h hlimit)⟩
    rw [if_neg hlimit]
    have hreached : Reached epochs log c := (reached_iff hstakes).mpr hlimit
    obtain ⟨builder, cert, haggregate, hbuild, rfl, hcert⟩ :=
      newCertificate_spec hlawful hs hlog hpools c
    obtain ⟨self₁, events₁, hinsert, hpools₁, hcompleted₁, hfollows₁⟩ :=
      insertCertificate_spec hlog.threeBlocks hfollows hreached cert events
    obtain ⟨certs, self', events', hrun, h⟩ :=
      ih hrest (new ++ [cert]) events₁ (hpools₁.trans hpools) hfollows₁
    rw [haggregate, Option.bind_eq_bind, Option.bind_some]
    dsimp only
    rw [hbuild]
    dsimp only
    rw [hinsert, Option.bind_eq_bind, Option.bind_some, hrun, append_assoc]
    exact ⟨cert :: certs, self', events', rfl, h.cons hcompleted₁ hold hreached hcert⟩

/-! ## One call -/

def newCertificates (result : Except (AddVoteError Pubkey) (List (Certificate Hash Sig))) :
    List (Certificate Hash Sig) :=
  result.toOption.getD []

/-- The pool holds the accepted votes and the certificates whose limit is reached. -/
structure Serves (epochs : Epochs Pubkey) (init : Block Hash)
    (log : List (Ballot Pubkey Hash Sig)) (pool : ConsensusPool Pubkey Hash Sig) :
    Prop where
  sound : Sound epochs log
  votePools : pool.votePools = poolsOf epochs log
  follows : Follows init pool.parentReadyTracker (Certified epochs log)
  completed : ∀ c, pool.completedCertificates.contains c ↔ Reached epochs log c ∧ voters log c ≠ ∅

/-- The certificates of a call are those whose limit it reaches. -/
structure Generates (epochs : Epochs Pubkey) (log log' : List (Ballot Pubkey Hash Sig))
    (certs : List (Certificate Hash Sig)) : Prop where
  nodup : (certs.map Certificate.certType).Nodup
  mem : ∀ c, c ∈ certs.map Certificate.certType ↔ Reached epochs log' c ∧ ¬ Reached epochs log c
  certifies : ∀ cert ∈ certs, Certifies log' cert

omit [LeaderWindow] in
theorem Generates.none : Generates epochs log log ([] : List (Certificate Hash Sig)) :=
  ⟨nodup_nil, fun _ => iff_of_false not_mem_nil fun h => h.2 h.1, nofun⟩

omit [Bls Sig] in
theorem Serves.new (epochs : Epochs Pubkey) (init : Block Hash) :
    Serves epochs init [] (newFromRootBank init : ConsensusPool Pubkey Hash Sig) := by
  refine ⟨Sound.nil, rfl, Follows.new init, fun c => ?_⟩
  exact iff_of_false Bool.false_ne_true fun h => h.2 rfl

/-- An accepted vote: the certificates it counts for are checked. -/
theorem Serves.accept (h : Serves epochs init log self) (hlawful : Bls.Lawful Sig onCurve)
    (hkey : epochs.keyOf message.vote.slot message.rank = some key)
    (haccepts : Accepts log key message.vote)
    (hlog : Feasible epochs onCurve init (log ++ [(key, message)]))
    (hstakes : epochs.stakesAt message.vote.slot = some stakes) (entryStake : ℕ) (own : Bool)
    (events : List (Event Hash)) {pool : ConsensusPool Pubkey Hash Sig}
    (hpool : pool = { self with votePools := poolsOf epochs (log ++ [(key, message)]) }) :
    ∃ certs self' events', (pool.countVote message.vote entryStake own events
        stakes.totalStake).1.updateCertificates message.vote message.vote.blockId
        (pool.countVote message.vote entryStake own events stakes.totalStake).2
        stakes.totalStake = some (.ok certs, self', events') ∧
      Serves epochs init (log ++ [(key, message)]) self' ∧
      Generates epochs log (log ++ [(key, message)]) certs := by
  have hs := h.sound.append hkey haccepts
  subst hpool
  have hpools : (countVote { self with
      votePools := poolsOf epochs (log ++ [(key, message)]) } message.vote entryStake own events
        stakes.totalStake).1.votePools = poolsOf epochs (log ++ [(key, message)]) := rfl
  obtain ⟨certs, self', events', hrun, hc⟩ := checkCertificates_spec hlawful hs hlog hstakes
    (fun c hc => slot_blockId_of_mem hc) [] _ hpools (h.follows.mono fun b hb => hb.append _)
  have hsame : ∀ c : CertificateType Hash, ¬ c.Counts message.vote →
      (Reached epochs (log ++ [(key, message)]) c ↔ Reached epochs log c) := by
    intro c hnot
    rw [Reached, voters_append_of_not_counts hnot, Reached]
  -- a certificate that the vote counts for was due before exactly if it was there
  have hdue : ∀ c : CertificateType Hash, c.Counts message.vote →
      (self.completedCertificates.contains c ↔ Reached epochs log c) := by
    intro c hcounts
    rw [h.completed]
    exact and_iff_left_of_imp fun hr => hr.voters_nonempty (hcounts.1 ▸ hkey)
  have hmem : ∀ c, c ∈ certs.map Certificate.certType ↔
      Reached epochs (log ++ [(key, message)]) c ∧ ¬ Reached epochs log c := by
    intro c
    rw [hc.mem, mem_voteToCertificateIds]
    by_cases hcounts : c.Counts message.vote
    · rw [and_iff_right hcounts, and_comm]
      exact and_congr_right fun _ => not_congr (hdue c hcounts)
    · rw [hsame c hcounts]
      exact iff_of_false (fun hcon => hcounts hcon.1) fun hcon => hcon.2 hcon.1
  refine ⟨certs, self', events', hrun, ⟨hs, hc.votePools, hc.follows, fun c => ?_⟩,
    hc.nodup, hmem, hc.certifies⟩
  have hcontains := hc.contains c
  rw [hmem] at hcontains
  by_cases hcounts : c.Counts message.vote
  · have hvoters : voters (log ++ [(key, message)]) c ≠ ∅ :=
      Finset.ne_empty_of_mem (mem_voters_append hcounts)
    rw [and_iff_left hvoters, hcontains]
    constructor
    · rintro (hold | hnew)
      · exact ((hdue c hcounts).mp hold).append _
      · exact hnew.1
    · intro hr
      by_cases hold : Reached epochs log c
      · exact Or.inl ((hdue c hcounts).mpr hold)
      · exact Or.inr ⟨hr, hold⟩
  · rw [hcontains, hsame c hcounts, voters_append_of_not_counts hcounts]
    exact (or_iff_left fun hcon => hcon.2 hcon.1).trans (h.completed c)

/-- One call of `add_vote` serves the log that the rules give. -/
theorem Serves.addVote (h : Serves epochs init log self) (hlawful : Bls.Lawful Sig onCurve)
    (call : Call Hash Sig) (hlog : Feasible epochs onCurve init (tally epochs log call))
    (myVotePubkey : Pubkey) (events : List (Event Hash)) :
    ∃ result self' events', addVote epochs myVotePubkey (self, events)
        call.rootSlot call.message = some (result, self', events') ∧
      Serves epochs init (tally epochs log call) self' ∧
      Generates epochs log (tally epochs log call) (newCertificates result) := by
  obtain ⟨rootSlot, message⟩ := call
  rw [tally] at hlog ⊢
  rw [ConsensusPool.addVote]
  cases hkey : epochs.keyOf message.vote.slot message.rank with
  | none =>
    obtain ⟨error, herror⟩ := getKeyAndStakes_of_none hkey
    rw [herror]
    exact ⟨.error error, self, events, rfl, h, Generates.none⟩
  | some key =>
    obtain ⟨stakes, hstakes, hok⟩ := getKeyAndStakes_of_keyOf hkey
    rw [hkey] at hlog
    rw [hok, Option.bind_eq_bind, Option.bind_some]
    dsimp only at hlog ⊢
    by_cases hroot : message.vote.slot < rootSlot
    · rw [if_pos hroot, if_neg fun hcon => absurd hroot (not_lt.mpr hcon.1)]
      exact ⟨_, self, events, rfl, h, Generates.none⟩
    rw [if_neg hroot]
    cases hconf : self.hasConflictingVote message.vote.slot (getType message.vote) key
        message.vote.blockId with
    | some conflictingType =>
      have hnot : ¬ (rootSlot ≤ message.vote.slot ∧ Accepts log key message.vote) := by
        rintro ⟨-, haccepts⟩
        rw [(hasConflictingVote_eq_none h.votePools key message.vote).mpr haccepts.1] at hconf
        cases hconf
      rw [if_neg hnot]
      exact ⟨_, self, events, rfl, h, Generates.none⟩
    | none =>
      have hfree := (hasConflictingVote_eq_none h.votePools key message.vote).mp hconf
      by_cases hroom : Room (poolLog log (message.vote.slot, getType message.vote)) key message.vote
      · have haccepts : Accepts log key message.vote := ⟨hfree, room_poolLog.mp hroom⟩
        rw [if_pos ⟨not_lt.mp hroot, haccepts⟩] at hlog ⊢
        obtain ⟨n, hupdate⟩ := updateVotePool_of_room h.sound h.votePools hkey hroom
        obtain ⟨certs, self', events', hrun, hserves, hgen⟩ :=
          h.accept hlawful hkey haccepts hlog hstakes n (decide (myVotePubkey = key)) events rfl
        rw [hupdate]
        exact ⟨.ok certs, self', events', hrun, hserves, hgen⟩
      · have hnot : ¬ (rootSlot ≤ message.vote.slot ∧ Accepts log key message.vote) :=
          fun hcon => hroom (room_poolLog.mpr hcon.2.2)
        rw [if_neg hnot, updateVotePool_of_full h.sound h.votePools hroom]
        exact ⟨.ok [], self, events, rfl, h, Generates.none⟩

/-! ## Runs -/

section

omit [LeaderWindow] [Bls Sig]

theorem Sound.tally (hs : Sound epochs log) (call : Call Hash Sig) :
    Sound epochs (tally epochs log call) := by
  rw [Votor.tally]
  cases hkey : epochs.keyOf call.message.vote.slot call.message.rank with
  | none => exact hs
  | some key =>
    dsimp only
    split_ifs with haccepts
    · exact hs.append hkey haccepts.2
    · exact hs

theorem Sound.foldl_tally (hs : Sound epochs log) (calls : List (Call Hash Sig)) :
    Sound epochs (calls.foldl (Votor.tally epochs) log) := by
  induction calls generalizing log with
  | nil => exact hs
  | cons call calls ih => exact ih (hs.tally call)

open List.Subset

theorem subset_foldl_tally (calls : List (Call Hash Sig)) :
    log ⊆ calls.foldl (tally epochs) log := by
  induction calls generalizing log with
  | nil => exact List.Subset.refl log
  | cons call calls ih =>
    refine List.Subset.trans ?_ ih
    rw [tally]
    split
    · split_ifs
      · exact subset_append_left _ _
      · exact refl log
    · exact refl log

/-- Accepted votes come from the calls. -/
theorem mem_foldl_tally {calls : List (Call Hash Sig)} {e : Ballot Pubkey Hash Sig}
    (he : e ∈ calls.foldl (tally epochs) log) : e ∈ log ∨ ∃ call ∈ calls, call.message = e.2 := by
  induction calls generalizing log with
  | nil => exact Or.inl he
  | cons call calls ih =>
    rcases ih he with he | ⟨call', hcall', heq⟩
    · rw [tally] at he
      split at he
      · split_ifs at he
        · rcases mem_append.mp he with he | he
          · exact Or.inl he
          · cases mem_singleton.mp he
            exact Or.inr ⟨call, mem_cons_self, rfl⟩
        · exact Or.inl he
      · exact Or.inl he
    · exact Or.inr ⟨call', mem_cons_of_mem call hcall', heq⟩

end

/-- The calls of a sequence one after the other; the results of all of them. -/
def ConsensusPool.addVotes (epochs : Epochs Pubkey) (myVotePubkey : Pubkey) :
    List (Call Hash Sig) → WithEvents Pubkey Hash Sig →
      Option (List (Except (AddVoteError Pubkey) (List (Certificate Hash Sig))) ×
        WithEvents Pubkey Hash Sig)
  | [], state => some ([], state)
  | call :: calls, state => do
      let (result, state) ← addVote epochs myVotePubkey state call.rootSlot call.message
      let (results, state) ← addVotes epochs myVotePubkey calls state
      some (result :: results, state)

/-- The types of all certificates that a run generated. -/
def allGenerated (results : List (Except (AddVoteError Pubkey) (List (Certificate Hash Sig)))) :
    List (CertificateType Hash) :=
  results.flatMap fun result => (newCertificates result).map Certificate.certType

/-- A run from a pool that serves a log. -/
theorem Serves.addVotes (h : Serves epochs init log self) (hlawful : Bls.Lawful Sig onCurve)
    (calls : List (Call Hash Sig))
    (hlog : Feasible epochs onCurve init (calls.foldl (tally epochs) log)) (myVotePubkey : Pubkey)
    (events : List (Event Hash)) :
    ∃ results self' events', addVotes epochs myVotePubkey calls (self, events) =
        some (results, self', events') ∧ results.length = calls.length ∧
      Serves epochs init (calls.foldl (tally epochs) log) self' ∧
      (∀ i result, results[i]? = some result →
        Generates epochs ((calls.take i).foldl (tally epochs) log)
          ((calls.take (i + 1)).foldl (tally epochs) log) (newCertificates result)) ∧
      (allGenerated results).Nodup ∧
      ∀ c, c ∈ allGenerated results ↔
        Reached epochs (calls.foldl (tally epochs) log) c ∧ ¬ Reached epochs log c := by
  induction calls generalizing log self events with
  | nil =>
    refine ⟨[], self, events, rfl, rfl, h, nofun, nodup_nil, fun c => ?_⟩
    exact iff_of_false not_mem_nil fun hcon => hcon.2 hcon.1
  | cons call calls ih =>
    have hfirst : Feasible epochs onCurve init (tally epochs log call) :=
      hlog.of_subset (subset_foldl_tally calls)
    obtain ⟨result, self₁, events₁, hcall, hserves, hgen⟩ :=
      h.addVote hlawful call hfirst myVotePubkey events
    obtain ⟨results, self', events', hrun, hlength, hserves', hrest, hnodup, hmem⟩ :=
      ih hserves hlog events₁
    have hall : allGenerated (result :: results) =
        (newCertificates result).map Certificate.certType ++ allGenerated results := by
      rw [allGenerated, flatMap_cons, allGenerated]
    -- what the first call reaches stays reached
    have hlater : ∀ c, Reached epochs (tally epochs log call) c →
        Reached epochs (calls.foldl (tally epochs) (tally epochs log call)) c := fun c hr =>
      hr.mono (map_subset Ballot.cast (subset_foldl_tally calls))
    have hbefore : ∀ c, Reached epochs log c → Reached epochs (tally epochs log call) c :=
      fun c hr => hr.mono (map_subset Ballot.cast (subset_foldl_tally [call]))
    refine ⟨result :: results, self', events', ?_, ?_, hserves', ?_, ?_, fun c => ?_⟩
    · rw [addVotes, hcall, Option.bind_eq_bind, Option.bind_some]
      dsimp only
      rw [hrun]
      rfl
    · rw [length_cons, length_cons, hlength]
    · intro i result' hi
      cases i with
      | zero =>
        cases Option.some.inj hi
        exact hgen
      | succ i => exact hrest i result' hi
    · refine List.Nodup.append hgen.nodup hnodup fun c hc hc' => ?_
      exact ((hmem c).mp hc').2 ((hgen.mem c).mp hc).1
    · rw [hall, mem_append, hgen.mem, hmem]
      constructor
      · rintro (⟨h1, h2⟩ | ⟨h1, h2⟩)
        · exact ⟨hlater c h1, h2⟩
        · exact ⟨h1, fun hr => h2 (hbefore c hr)⟩
      · rintro ⟨h1, h2⟩
        by_cases hr : Reached epochs (tally epochs log call) c
        · exact Or.inl ⟨hr, h2⟩
        · exact Or.inr ⟨h1, hr⟩

/-! ## Order -/

/-- The validator that a vote message is from. -/
def Call.voter (epochs : Epochs Pubkey) (call : Call Hash Sig) : Option Pubkey :=
  epochs.keyOf call.message.vote.slot call.message.rank

/-- Votes without conflicts: no validator casts two votes of conflicting types or two different
ones of a type that allows one, nor more than three fallback votes in a slot. -/
structure Compatible (epochs : Epochs Pubkey) (calls : List (Call Hash Sig)) : Prop where
  noConflict : ∀ x ∈ calls, ∀ y ∈ calls, ∀ key, x.voter epochs = some key →
    y.voter epochs = some key → ¬ x.message.vote.Conflicts y.message.vote
  oneVote : ∀ x ∈ calls, ∀ y ∈ calls, ∀ key, x.voter epochs = some key →
    y.voter epochs = some key → x.message.vote.slot = y.message.vote.slot →
    VoteType.getType x.message.vote = VoteType.getType y.message.vote →
    VoteType.getType x.message.vote ≠ .notarizeFallback → x.message.vote = y.message.vote
  threeFallbacks : ∀ key slot (blocks : Finset Hash), (∀ b ∈ blocks, ∃ x ∈ calls,
    x.voter epochs = some key ∧ x.message.vote = .notarizeFallback slot b) → blocks.card ≤ 3

variable {all : List (Call Hash Sig)}

section

omit [LeaderWindow] [Bls Sig]

variable {x : Call Hash Sig}

/-- Every vote of a compatible set that its validator has not cast is accepted. -/
theorem Compatible.accepts (hall : Compatible epochs all) (hs : Sound epochs log)
    (hlog : ∀ e ∈ log, ∃ x ∈ all, x.voter epochs = some e.1 ∧ x.message.vote = e.2.vote)
    (hx : x ∈ all) (hkey : x.voter epochs = some key)
    (hnew : (key, x.message.vote) ∉ log.map Ballot.cast) : Accepts log key x.message.vote := by
  refine ⟨fun e he heq => ?_, ?_⟩
  · obtain ⟨y, hy, hvoter, hvote⟩ := hlog e he
    rw [← hvote]
    exact hall.noConflict x hx y hy key hkey (heq ▸ hvoter)
  rw [← room_poolLog]
  have hpool : ∀ e ∈ poolLog log (x.message.vote.slot, getType x.message.vote),
      Ballot.poolId e = (x.message.vote.slot, getType x.message.vote) :=
    fun e he => (mem_poolLog.mp he).2
  -- of a type that allows one vote it would be this one
  have hone : getType x.message.vote ≠ .notarizeFallback →
      ∀ e ∈ poolLog log (x.message.vote.slot, getType x.message.vote), e.1 ≠ key := by
    intro htype e he heq
    obtain ⟨y, hy, hvoter, hvote⟩ := hlog e (mem_poolLog.mp he).1
    have hid := hpool e he
    refine hnew (mem_map.mpr ⟨e, (mem_poolLog.mp he).1, Prod.ext heq ?_⟩)
    refine hvote.symm.trans (hall.oneVote x hx y hy key hkey (heq ▸ hvoter) ?_ ?_ htype).symm
    · rw [hvote]
      exact (congrArg Prod.fst hid).symm
    · rw [hvote]
      exact (congrArg Prod.snd hid).symm
  cases hb : x.message.vote.blockId with
  | none =>
    have hmax : (getType x.message.vote).maxEntries = 1 := by
      revert hb
      cases x.message.vote <;> simp [Vote.blockId, getType, maxEntries,
        maxEntriesPerPubkeyForOtherTypes]
    rw [room_iff_of_simple hmax]
    intro hin
    obtain ⟨e, he, heq⟩ := mem_map.mp hin
    refine hone (fun hcon => ?_) e he heq
    rw [hcon] at hmax
    exact absurd hmax (by decide)
  | some b =>
    rw [room_iff_of_block hpool (hs.poolLog_nodup _) hb]
    have hfresh : b ∉ blocksOf (poolLog log (x.message.vote.slot, getType x.message.vote)) key := by
      intro hin
      obtain ⟨e, he, heq, hblock⟩ := mem_blocksOf.mp hin
      have hid := hpool e he
      refine hnew (mem_map.mpr ⟨e, (mem_poolLog.mp he).1, Prod.ext heq ?_⟩)
      exact Vote.eq_of_blockId (congrArg Prod.fst hid) (congrArg Prod.snd hid)
        (hblock.trans hb.symm)
    refine ⟨hfresh, ?_⟩
    by_cases htype : getType x.message.vote = .notarizeFallback
    · -- with this vote the validator has one block more, and no more than three
      have hcard := hall.threeFallbacks key x.message.vote.slot
        (insert b (blocksOf (poolLog log (x.message.vote.slot,
          getType x.message.vote)) key)) (by
          intro b' hb'
          rcases Finset.mem_insert.mp hb' with rfl | hb'
          · exact ⟨x, hx, hkey, Vote.eq_of_blockId rfl htype hb⟩
          · obtain ⟨e, he, heq, hblock⟩ := mem_blocksOf.mp hb'
            obtain ⟨y, hy, hvoter, hy'⟩ := hlog e (mem_poolLog.mp he).1
            have hid := hpool e he
            refine ⟨y, hy, heq ▸ hvoter, hy'.trans ?_⟩
            exact Vote.eq_of_blockId (congrArg Prod.fst hid)
              ((congrArg Prod.snd hid).trans htype) hblock)
      rw [Finset.card_insert_of_notMem hfresh] at hcard
      have hmax : (getType x.message.vote).maxEntries = 3 := by
        rw [htype]
        rfl
      rw [hmax]
      exact hcard
    · -- the validator has no vote of the type yet
      rw [Finset.card_eq_zero.mpr]
      · exact maxEntries_pos _
      refine Finset.eq_empty_of_forall_notMem fun b' hb' => ?_
      obtain ⟨e, he, heq, -⟩ := mem_blocksOf.mp hb'
      exact hone htype e he heq

theorem Compatible.mem_tally (hall : Compatible epochs all) (hs : Sound epochs log)
    (hlog : ∀ e ∈ log, ∃ x ∈ all, x.voter epochs = some e.1 ∧ x.message.vote = e.2.vote)
    (hx : x ∈ all) :
    (key, v) ∈ (tally epochs log x).map Ballot.cast ↔ (key, v) ∈ log.map Ballot.cast ∨
      (x.voter epochs = some key ∧ x.rootSlot ≤ v.slot ∧ x.message.vote = v) := by
  rw [tally]
  cases hvoter : epochs.keyOf x.message.vote.slot x.message.rank with
  | none =>
    refine (or_iff_left ?_).symm
    rintro ⟨hcon, -⟩
    cases hvoter.symm.trans hcon
  | some k =>
    dsimp only
    have hx' : (x.voter epochs = some key ∧ x.rootSlot ≤ v.slot ∧ x.message.vote = v) ↔
        (key, v) = (k, x.message.vote) ∧ x.rootSlot ≤ x.message.vote.slot := by
      rw [Call.voter, hvoter, Option.some.injEq, Prod.mk.injEq]
      constructor
      · rintro ⟨rfl, hroot, rfl⟩
        exact ⟨⟨rfl, rfl⟩, hroot⟩
      · rintro ⟨⟨rfl, rfl⟩, hroot⟩
        exact ⟨rfl, hroot, rfl⟩
    rw [hx']
    split_ifs with haccepts
    · rw [map_append, mem_append, map_singleton, mem_singleton]
      exact or_congr_right (and_iff_left haccepts.1).symm
    · refine (or_iff_left_of_imp ?_).symm
      rintro ⟨heq, hroot⟩
      by_contra hnew
      rw [heq] at hnew
      exact haccepts ⟨hroot, hall.accepts hs hlog hx hvoter hnew⟩

/-- All votes of a compatible set are accepted, in any order. -/
theorem Compatible.mem_accepted (hall : Compatible epochs all) :
    (key, v) ∈ (accepted epochs all).map Ballot.cast ↔
      ∃ x ∈ all, x.voter epochs = some key ∧ x.rootSlot ≤ v.slot ∧ x.message.vote = v := by
  have hfold : ∀ (calls : List (Call Hash Sig)) log, calls ⊆ all → Sound epochs log →
      (∀ e ∈ log, ∃ x ∈ all, x.voter epochs = some e.1 ∧ x.message.vote = e.2.vote) →
      ∀ key v, (key, v) ∈ (calls.foldl (tally epochs) log).map Ballot.cast ↔
        (key, v) ∈ log.map Ballot.cast ∨ ∃ x ∈ calls, x.voter epochs = some key ∧
          x.rootSlot ≤ v.slot ∧ x.message.vote = v := by
    intro calls
    induction calls with
    | nil => exact fun log _ _ _ key v => (or_iff_left fun ⟨x, hx, _⟩ => not_mem_nil hx).symm
    | cons x calls ih =>
      intro log hsub hs hlog key v
      have hx : x ∈ all := hsub mem_cons_self
      have hstep : ∀ k w, (k, w) ∈ (tally epochs log x).map Ballot.cast ↔
          (k, w) ∈ log.map Ballot.cast ∨
            (x.voter epochs = some k ∧ x.rootSlot ≤ w.slot ∧ x.message.vote = w) :=
        fun k w => hall.mem_tally hs hlog hx
      have hlog' : ∀ e ∈ tally epochs log x, ∃ y ∈ all, y.voter epochs = some e.1 ∧
          y.message.vote = e.2.vote := by
        intro e he
        rcases (hstep e.1 e.2.vote).mp (mem_map.mpr ⟨e, he, rfl⟩) with hold | hnew
        · obtain ⟨e', he', hcast⟩ := mem_map.mp hold
          obtain ⟨y, hy, hvoter, hvote⟩ := hlog e' he'
          exact ⟨y, hy, hvoter.trans (congrArg (some ·.1) hcast),
            hvote.trans (congrArg (·.2) hcast)⟩
        · exact ⟨x, hx, hnew.1, hnew.2.2⟩
      have hsub' : calls ⊆ all := List.Subset.trans (subset_cons_self x calls) hsub
      rw [foldl_cons, ih (tally epochs log x) hsub' (hs.tally x) hlog', hstep, or_assoc]
      refine or_congr_right ?_
      simp [or_and_right, exists_or]
  rw [accepted, hfold all [] (List.Subset.refl all) Sound.nil (fun e he => by cases he)]
  exact or_iff_right not_mem_nil

theorem Compatible.reached_iff {calls calls' : List (Call Hash Sig)}
    (hcalls : Compatible epochs calls) (hsame : ∀ call, call ∈ calls' ↔ call ∈ calls)
    (c : CertificateType Hash) :
    Reached epochs (accepted epochs calls') c ↔ Reached epochs (accepted epochs calls) c := by
  have hcalls' : Compatible epochs calls' := by
    refine ⟨fun x hx y hy => hcalls.noConflict x ((hsame x).mp hx) y ((hsame y).mp hy),
      fun x hx y hy => hcalls.oneVote x ((hsame x).mp hx) y ((hsame y).mp hy), ?_⟩
    intro key slot blocks hblocks
    refine hcalls.threeFallbacks key slot blocks fun b hb => ?_
    obtain ⟨x, hx, hvote⟩ := hblocks b hb
    exact ⟨x, (hsame x).mp hx, hvote⟩
  have hmem : ∀ x : Pubkey × Vote Hash, x ∈ (accepted epochs calls').map Ballot.cast ↔
      x ∈ (accepted epochs calls).map Ballot.cast := by
    rintro ⟨key, v⟩
    rw [hcalls'.mem_accepted, hcalls.mem_accepted]
    exact exists_congr fun x => and_congr_left fun _ => hsame x
  exact ⟨fun h => h.mono fun x => (hmem x).mp, fun h => h.mono fun x => (hmem x).mpr⟩

end

/-- Soundness and completeness of the certificates: in every run of votes a call generates
exactly the certificates whose limit the stake of distinct validators with an accepted vote
reaches with it, no certificate comes twice, a certificate has the rank of each of its voters in
one of its bitmaps, no vote of the pools is included twice, and the certificates of votes that do
not conflict do not depend on the order. The epochs have no more ranks than a bitmap, the
signatures are verified, and no slot above the root has more than three blocks with the stake for
a fallback certificate. -/
theorem certificates_exact (hlawful : Bls.Lawful Sig onCurve) (epochs : Epochs Pubkey)
    (init : Block Hash) (myVotePubkey : Pubkey) (calls : List (Call Hash Sig))
    (hranks : ∀ slot stakes, epochs.stakesAt slot = some stakes →
      stakes.sortedPubkeys.length ≤ maximumValidators)
    (hsignatures : ∀ call ∈ calls, onCurve call.message.signature)
    (hthree : ThreeBlocks epochs init (accepted epochs calls)) :
    ∃ results pool events, ConsensusPool.addVotes epochs myVotePubkey calls
        (ConsensusPool.newFromRootBank init, []) = some (results, pool, events) ∧
      results.length = calls.length ∧
      pool.votePools = poolsOf epochs (accepted epochs calls) ∧
      (∀ i result, results[i]? = some result →
        Generates epochs (accepted epochs (calls.take i)) (accepted epochs (calls.take (i + 1)))
          (newCertificates result)) ∧
      (allGenerated results).Nodup ∧
      (∀ (calls : List (Call Hash Sig)) (pool : ConsensusPool Pubkey Hash Sig) c,
        pool.votePools = poolsOf epochs (accepted epochs calls) →
        pool.aggregateVotes c c.slot c.blockId (certificateLimitsAndVoteTypes c).2 ≠
          some (.error .validatorAlreadyIncluded)) ∧
      (Compatible epochs calls → ∀ calls', (∀ call, call ∈ calls' ↔ call ∈ calls) →
        ∃ results' state, ConsensusPool.addVotes epochs myVotePubkey calls'
            (ConsensusPool.newFromRootBank init, []) = some (results', state) ∧
          ∀ c, c ∈ allGenerated results' ↔ c ∈ allGenerated results) := by
  have hfeasible : ∀ calls' : List (Call Hash Sig),
      (∀ call ∈ calls', onCurve call.message.signature) →
      ThreeBlocks epochs init (accepted epochs calls') →
      Feasible epochs onCurve init (accepted epochs calls') := by
    intro calls' hsig hthree'
    refine ⟨fun e he => ?_, fun e he => ?_, hthree'⟩
    · have hkey := (Sound.nil.foldl_tally calls').ranked e he
      obtain ⟨stakes, hstakes, hrank⟩ := Epochs.keyOf_eq_some.mp hkey
      obtain ⟨hlt, -⟩ := List.getElem?_eq_some_iff.mp hrank
      exact hlt.trans_le (hranks _ _ hstakes)
    · obtain ⟨call, hcall, hmessage⟩ := (mem_foldl_tally he).resolve_left not_mem_nil
      rw [← hmessage]
      exact hsig call hcall
  obtain ⟨results, pool, events, hrun, hlength, hserves, hgen, hnodup, hmem⟩ :=
    (Serves.new epochs init).addVotes hlawful calls (hfeasible calls hsignatures hthree)
      myVotePubkey []
  refine ⟨results, pool, events, hrun, hlength, hserves.votePools, hgen, hnodup, ?_, ?_⟩
  · intro calls' pool' c hpools hcon
    obtain ⟨result, haggregate, hresult⟩ :=
      aggregateVotes_spec hlawful (Sound.nil.foldl_tally calls') hpools c
    exact hresult.fresh (Option.some.inj (haggregate.symm.trans hcon))
  · intro hcalls calls' hsame
    have hreached := hcalls.reached_iff hsame
    have hthree' : ThreeBlocks epochs init (accepted epochs calls') :=
      fun slot hslot blocks hblocks => hthree slot hslot blocks fun b hb =>
        (hreached _).mp (hblocks b hb)
    obtain ⟨results', pool', events', hrun', -, -, -, -, hmem'⟩ :=
      (Serves.new epochs init).addVotes hlawful calls'
        (hfeasible calls' (fun call hc => hsignatures call ((hsame call).mp hc)) hthree')
        myVotePubkey []
    refine ⟨results', (pool', events'), hrun', fun c => ?_⟩
    rw [hmem', hmem]
    exact and_congr_left fun _ => hreached c

end Runs

/-! ## One validator -/

/-- Signatures without content. -/
instance trivialBls : Bls Unit where
  SignatureProjective := Unit
  identity := ()
  aggregateWith _ _ := some ()
  toSignature := id
  encodeBase2 _ _ := some []
  encodeBase3 _ _ _ := some []

theorem trivialBls_lawful : Bls.Lawful Unit fun _ => True :=
  ⟨fun _ _ _ => ⟨(), rfl⟩, fun _ _ _ => ⟨[], rfl⟩, fun _ _ _ _ _ => ⟨[], rfl⟩⟩

/-- All stake is with one validator. -/
def oneValidator : Epochs ℕ where
  getEpoch _ := 0
  epochStakesMap _ := some ⟨[7], fun _ => 1, 1, List.nodup_singleton 7, fun _ _ => Nat.one_pos,
    Nat.le_refl 1, by decide⟩

def oneValidatorCalls (votes : List (Vote ℕ)) : List (Call ℕ Unit) :=
  votes.map fun vote => ⟨0, vote, (), 0⟩

/-- The certificates its votes generate, from the root block at slot 0. -/
def oneValidatorRun (votes : List (Vote ℕ)) : Option (List (CertificateType ℕ)) :=
  (@ConsensusPool.addVotes ℕ ℕ Unit _ _ _ fourSlotWindow oneValidator 7 (oneValidatorCalls votes)
    (ConsensusPool.newFromRootBank (0, 0), [])).map fun outcome => allGenerated outcome.1

/-- Each of two skip votes has all the stake. -/
theorem certificates_exact_skip :
    ∃ results pool events, @ConsensusPool.addVotes ℕ ℕ Unit _ _ _ fourSlotWindow oneValidator 7
        (oneValidatorCalls [.skip 1, .skip 2]) (ConsensusPool.newFromRootBank (0, 0), []) =
          some (results, pool, events) ∧
      allGenerated results = [.skip 1, .skip 2] ∧
      ∀ result, results[1]? = some result →
        Generates oneValidator (accepted oneValidator (oneValidatorCalls [.skip 1]))
          (accepted oneValidator (oneValidatorCalls [.skip 1, .skip 2]))
          (newCertificates result) := by
  -- no vote is for a block
  have hthree : ThreeBlocks oneValidator (0, 0)
      (accepted oneValidator (oneValidatorCalls [.skip 1, .skip 2])) := by
    intro slot _ blocks hblocks
    rw [Finset.card_eq_zero.mpr]
    · exact Nat.zero_le 3
    refine Finset.eq_empty_of_forall_notMem fun b hb => ?_
    refine Reached.voters_nonempty (show oneValidator.keyOf slot 0 = some 7 from rfl)
      (hblocks b hb) ?_
    refine Finset.eq_empty_of_forall_notMem fun key hkey => ?_
    obtain ⟨v, hv, hmem⟩ := mem_voters.mp hkey
    have htype : VoteType.skip ∈ [VoteType.notarize, VoteType.notarizeFallback] := by
      rcases mem_pair.mp hmem with hmem | hmem
      · cases hmem
        exact hv.2.1
      · cases hmem
        exact hv.2.1
    exact absurd htype (by decide)
  obtain ⟨results, pool, events, hrun, -, -, hgenerates, -⟩ :=
    @certificates_exact ℕ ℕ Unit _ _ _ _ fourSlotWindow trivialBls_lawful oneValidator (0, 0) 7
      (oneValidatorCalls [.skip 1, .skip 2])
      (by
        intro slot stakes hstakes
        cases hstakes
        decide)
      (fun _ _ => trivial) hthree
  have hall : oneValidatorRun [.skip 1, .skip 2] = some [.skip 1, .skip 2] := by decide +kernel
  rw [oneValidatorRun, hrun] at hall
  exact ⟨results, pool, events, hrun, Option.some.inj hall, hgenerates 1⟩

/-- The validator votes for four blocks of a slot. The first run stops at the assertion of the
tracker with a certificate due. In the others no two votes conflict, and the fallback certificates
are those of the first three. A rank beyond the bitmap is an error that the caller unwraps. -/
theorem not_certificates_exact :
    oneValidatorRun [.notarize 1 0, .notarizeFallback 1 1, .notarizeFallback 1 2,
      .notarizeFallback 1 3] = none ∧
    (∀ b ∈ [1, 2, 3, 4], ∀ b' ∈ [1, 2, 3, 4],
      ¬ (Vote.notarizeFallback 1 b).Conflicts (Vote.notarizeFallback 1 b')) ∧
    oneValidatorRun ([1, 2, 3, 4].map (.notarizeFallback 1)) =
      some ([1, 2, 3].map (.notarizeFallback 1)) ∧
    oneValidatorRun ([4, 3, 2, 1].map (.notarizeFallback 1)) =
      some ([4, 3, 2].map (.notarizeFallback 1)) ∧
    (CertificateBuilder.new (.skip 1) : CertificateBuilder ℕ Unit).aggregate
      [⟨.skip 1, (), 4096⟩] = .error (.invalidRank 4096) := by
  refine ⟨?_, ?_, ?_, ?_, rfl⟩ <;> decide +kernel

end Salsa.Votor
