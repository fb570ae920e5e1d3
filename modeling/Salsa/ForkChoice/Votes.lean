import Salsa.ForkChoice.Batches

/-!
# Salsa.ForkChoice.Votes — the batch of a set of votes

A vote moves the stake of its validator from the block of the recorded vote to the new
one. `Accounts` is the balance of a batch: what it adds to and subtracts from a block makes
up for the change of the recorded votes, and it subtracts only what the votes recorded
before it put there.
-/

namespace Salsa.ForkChoice

open OrdMap UpdateOperation Option Finset

variable {Hash Pubkey : Type}

/-! ## One vote -/

/-- The preference among the votes of a validator: the later slot, then the smaller hash. -/
def preference (key : SlotHashKey Hash) : ℕ ×ₗ Hashᵒᵈ := toLex (key.slot, OrderDual.toDual key.hash)

theorem preference_injective : Function.Injective (@preference Hash) := by
  intro a b hab
  ext
  · exact congrArg (fun p => (ofLex p).1) hab
  · exact OrderDual.toDual.injective (congrArg (fun p => (ofLex p).2) hab)

variable [LinearOrder Hash] {E : Epochs Pubkey} {v : Pubkey} {key new : SlotHashKey Hash}
  {infos : ForkInfos Hash}

theorem preference_lt {a b : SlotHashKey Hash} :
    preference a < preference b ↔ a.slot < b.slot ∨ (a.slot = b.slot ∧ b.hash < a.hash) :=
  Prod.Lex.toLex_lt_toLex

/-- What a validator adds to a block. -/
def stakeFor (E : Epochs Pubkey) (v : Pubkey) (vote : Option (SlotHashKey Hash))
    (key : SlotHashKey Hash) : ℕ :=
  if vote = some key then E.stake key.slot v else 0

theorem stakeFor_some (v : Pubkey) (old k : SlotHashKey Hash) :
    stakeFor E v (some old) k = if k = old then E.stake old.slot v else 0 := by
  rw [stakeFor]
  by_cases hk : k = old
  · rw [if_pos (by rw [hk]), if_pos hk, hk]
  · rw [if_neg fun heq => hk (some.inj heq).symm, if_neg hk]

/-! ## Amounts in a batch -/

def UpdateOperation.amount : UpdateOperation → ℕ
  | .add stake => stake
  | .subtract stake => stake
  | _ => 0

def amountAt (ops : UpdateOperations Hash) (label : UpdateLabel) (key : SlotHashKey Hash) : ℕ :=
  (ops.get (toLex (key, label))).elim 0 UpdateOperation.amount

/-- The stake moved under a label. -/
def UpdateOperation.amountUnder (label : UpdateLabel) (op : UpdateOperation) : ℕ :=
  if op.label = label then op.amount else 0

section Amounts

variable {f : Entries Hash} {ops : UpdateOperations Hash}

theorem Batch.sum_amountUnder (hb : Batch f ops) (label : UpdateLabel) (key : SlotHashKey Hash) :
    ((opsAt ops key).map (amountUnder label)).sum = amountAt ops label key := by
  have hnodup : (opsAt ops key).Nodup := by
    apply hb.opsAt_sorted.imp
    intro a b hlt heq
    rw [heq] at hlt
    exact lt_irrefl _ hlt
  rw [← List.sum_toFinset _ hnodup, amountAt]
  cases hget : ops.get (toLex (key, label)) with
  | none =>
    apply sum_eq_zero
    intro op hop
    obtain ⟨l, hl⟩ := mem_opsAt.mp (List.mem_toFinset.mp hop)
    rw [amountUnder, if_neg]
    intro hlabel
    rw [← hb.labelled hl, hlabel, hget] at hl
    cases hl
  | some op =>
    rw [sum_eq_single op]
    · rw [amountUnder, if_pos (hb.labelled hget)]
      rfl
    · intro op' hop' hne
      obtain ⟨l, hl⟩ := mem_opsAt.mp (List.mem_toFinset.mp hop')
      rw [amountUnder, if_neg]
      intro hlabel
      rw [← hb.labelled hl, hlabel, hget] at hl
      exact hne (some.inj hl).symm
    · intro hop
      exact (hop (List.mem_toFinset.mpr (mem_opsAt.mpr ⟨label, hget⟩))).elim

variable {i j : ForkInfo Hash} {op : ℕ → UpdateOperation} {g : Entries Hash}

theorem effect_stakeVotedAt {op : UpdateOperation} (hk : key ∉ i.children.keys)
    (h : op.effect g key i = some j) :
    j.stakeVotedAt + op.amountUnder .subtract = i.stakeVotedAt + op.amountUnder .add := by
  cases op with
  | add stake =>
    cases h
    rfl
  | subtract stake =>
    rw [effect] at h
    split_ifs at h with hs
    cases h
    exact Nat.sub_add_cancel hs.1
  | markValid slot =>
    rw [effect, updateWithNewlyValidAncestor_eq] at h
    cases h
    split_ifs <;> rfl
  | markInvalid slot =>
    rw [effect, updateWithNewlyInvalidAncestor_eq slot
      (confirmed_of_updateWithNewlyInvalidAncestor h)] at h
    cases h
    rfl
  | aggregate => exact (aggregateInfo_spec hk h).2.2.2.2.1

theorem foldlM_stakeVotedAt {l : List UpdateOperation}
    (hk : key ∉ i.children.keys) (h : l.foldlM (fun i op => op.effect g key i) i = some j) :
    j.stakeVotedAt + (l.map (amountUnder .subtract)).sum =
      i.stakeVotedAt + (l.map (amountUnder .add)).sum := by
  induction l generalizing i with
  | nil =>
    cases h
    rfl
  | cons op l ih =>
    obtain ⟨i', hi', hrest⟩ := bind_eq_some_iff.mp h
    have hfirst := effect_stakeVotedAt hk hi'
    have hlast := ih ((effect_kept hi').children ▸ hk) hrest
    rw [List.map_cons, List.map_cons, List.sum_cons, List.sum_cons]
    omega

/-- The stake of a block after a batch. -/
theorem process_stakeVotedAt {infos' : ForkInfos Hash}
    (h : processUpdateOperations infos ops = some infos') (habove : ChildrenAbove infos.get)
    (hb : Batch f ops) (hi : infos.get key = some i) (hj : infos'.get key = some j) :
    j.stakeVotedAt + amountAt ops .subtract key = i.stakeVotedAt + amountAt ops .add key := by
  obtain ⟨j', hj', hfold⟩ := process_at h habove hi
  cases hj.symm.trans hj'
  rw [← hb.sum_amountUnder, ← hb.sum_amountUnder]
  refine foldlM_stakeVotedAt ?_ hfold
  rw [← childrenOf_of_some hi]
  exact fun hk => lt_irrefl _ (habove _ _ hk).1

/-! ## The operations of a vote -/

/-- An operation that moves stake is queued. -/
structure Queues (ops ops' : UpdateOperations Hash) (key : SlotHashKey Hash)
    (op : ℕ → UpdateOperation) (stake : ℕ) : Prop where
  amount : ∀ {label k}, label ≠ .aggregate → amountAt ops' label k =
    amountAt ops label k + if label = (op stake).label ∧ k = key then stake else 0
  unmarked : (∀ {k l o}, ops.get (toLex (k, l)) = some o → ¬ o.IsMark) →
    ∀ {k l o}, ops'.get (toLex (k, l)) = some o → ¬ o.IsMark

theorem updateEntry_spec (hop : op = .add ∨ op = .subtract) (hb : Batch f ops) (stake : ℕ) :
    updateEntry ops key (op stake).label stake (op stake) =
      some (ops.insert (toLex (key, (op stake).label))
        (op (amountAt ops (op stake).label key + stake))) := by
  unfold updateEntry amountAt
  cases hget : ops.get (toLex (key, (op stake).label)) with
  | none =>
    rw [elim_none, Nat.zero_add]
  | some o =>
    have hlabel := hb.labelled hget
    -- only an operation of the same kind has the label
    obtain ⟨s, rfl⟩ : ∃ s, o = op s := by
      rcases hop with rfl | rfl <;> cases o <;> first | exact ⟨_, rfl⟩ | cases hlabel
    rcases hop with rfl | rfl <;> rfl

/-- The stake goes to the operation queued at `key`, if there is one. -/
theorem queue_spec (h : Wf infos.get) (hop : op = .add ∨ op = .subtract)
    (hb : Batch infos.get ops) (stake : ℕ) :
    ∃ ops', (updateEntry ops key (op stake).label stake (op stake)).map
        (fun ops => insertAggregateOperations infos ops key) = some ops' ∧
      Batch infos.get ops' ∧ Queues ops ops' key op stake := by
  rw [updateEntry_spec hop hb]
  have hlabel : ∀ s, (op s).label = (op stake).label := by
    intro s
    rcases hop with rfl | rfl <;> rfl
  have hamount : ∀ s, (op s).amount = s := by
    intro s
    rcases hop with rfl | rfl <;> rfl
  have hbut : BatchBut infos.get (ops.insert (toLex (key, (op stake).label))
      (op (amountAt ops (op stake).label key + stake))) key := by
    constructor
    · intro k l o ho
      rw [get_insert] at ho
      split_ifs at ho with heq
      · cases ho
        exact (hlabel _).trans (congrArg (fun x => (ofLex x).2) heq).symm
      · exact hb.labelled ho
    · intro k l o p hk ho hp
      rw [get_insert_of_ne _ fun heq => hk (congrArg (fun x => (ofLex x).1) heq)] at ho
      have hclosed := hb.closed ho hp
      rw [get_insert, if_neg]
      · exact hclosed
      · intro heq
        have heq' := congrArg (fun x => (ofLex x).2) heq
        rcases hop with rfl | rfl <;> cases heq'
  have hadds := insertAggregateOperations_spec h hbut
  refine ⟨_, rfl, hadds.batch hbut, ?_⟩
  constructor
  · intro label k hne
    rw [amountAt, hadds.other fun hl => (hne hl).elim, get_insert]
    by_cases heq : label = (op stake).label ∧ k = key
    · obtain ⟨rfl, rfl⟩ := heq
      rw [if_pos rfl, if_pos ⟨rfl, rfl⟩]
      exact hamount _
    · rw [if_neg heq, Nat.add_zero, if_neg, amountAt]
      intro hkey
      exact heq ⟨congrArg (fun x => (ofLex x).2) hkey, congrArg (fun x => (ofLex x).1) hkey⟩
  · intro hold k l o ho
    by_cases hnew : l = .aggregate ∧ Ancestor infos.get k key
    · obtain ⟨rfl, hanc⟩ := hnew
      rw [hadds.ancestor hanc] at ho
      cases ho
      rintro ⟨slot, hs | hs⟩ <;> cases hs
    · rw [hadds.other fun hl hanc => hnew ⟨hl, hanc⟩, get_insert] at ho
      split_ifs at ho
      · cases ho
        rintro ⟨slot, hs | hs⟩ <;> rcases hop with rfl | rfl <;> cases hs
      · exact hold ho

theorem recordVote_spec (h : Wf infos.get) (hb : Batch infos.get ops)
    (v : Pubkey) (new : SlotHashKey Hash) :
    ∃ ops', recordVote E infos ops v new = some ops' ∧ Batch infos.get ops' ∧
      Queues ops ops' new .add (E.stake new.slot v) :=
  queue_spec h (Or.inl rfl) hb (E.stake new.slot v)

end Amounts

/-! ## Recorded votes and stake -/

variable [LinearOrder Pubkey]

/-- The validators whose recorded vote is a block. -/
def voters (votes : OrdMap Pubkey (SlotHashKey Hash)) (key : SlotHashKey Hash) : Finset Pubkey :=
  votes.keys.toFinset.filter fun v => votes.get v = some key

def votedStake (E : Epochs Pubkey) (votes : OrdMap Pubkey (SlotHashKey Hash))
    (key : SlotHashKey Hash) : ℕ :=
  ∑ v ∈ voters votes key, E.stake key.slot v

variable {votes : OrdMap Pubkey (SlotHashKey Hash)}

theorem mem_voters : v ∈ voters votes key ↔ votes.get v = some key := by
  rw [voters, mem_filter, List.mem_toFinset, mem_keys]
  constructor
  · exact And.right
  · intro h
    exact ⟨by rw [h]; rfl, h⟩

/-- The stake of the others. -/
theorem votedStake_erase (E : Epochs Pubkey) (votes : OrdMap Pubkey (SlotHashKey Hash)) (v : Pubkey)
    (key : SlotHashKey Hash) :
    votedStake E votes key =
      (∑ w ∈ (voters votes key).erase v, E.stake key.slot w) + stakeFor E v (votes.get v) key := by
  rw [votedStake, stakeFor]
  by_cases hv : votes.get v = some key
  · rw [if_pos hv, sum_erase_add _ _ (mem_voters.mpr hv)]
  · rw [if_neg hv, Nat.add_zero, erase_eq_of_notMem fun h => hv (mem_voters.mp h)]

/-- A vote moves the stake of its validator. -/
theorem votedStake_insert (E : Epochs Pubkey) (votes : OrdMap Pubkey (SlotHashKey Hash))
    (v : Pubkey) (new key : SlotHashKey Hash) :
    votedStake E (votes.insert v new) key + stakeFor E v (votes.get v) key =
      votedStake E votes key + stakeFor E v (some new) key := by
  have hothers : (voters (votes.insert v new) key).erase v = (voters votes key).erase v := by
    ext w
    rw [mem_erase, mem_erase, mem_voters, mem_voters]
    exact and_congr_right fun hw => by rw [get_insert_of_ne new hw]
  rw [votedStake_erase E (votes.insert v new) v, votedStake_erase E votes v, hothers,
    get_insert_self]
  omega

section Generate

variable {treeRoot : SlotHashKey Hash} {batch batch' : VoteBatch Hash Pubkey}

/-- The vote is recorded: `ops` is the batch with its operations. -/
structure Records (E : Epochs Pubkey) (infos : ForkInfos Hash) (batch : VoteBatch Hash Pubkey)
    (v : Pubkey) (new : SlotHashKey Hash) (ops : UpdateOperations Hash) : Prop where
  newer : ∀ {old}, batch.latestVotes.get v = some old → preference old < preference new
  isBatch : Batch infos.get ops
  unmarked : (∀ {k l o}, batch.updateOperations.get (toLex (k, l)) = some o → ¬ o.IsMark) →
    ∀ {k l o}, ops.get (toLex (k, l)) = some o → ¬ o.IsMark
  subtract : ∀ k, amountAt ops .subtract k =
    amountAt batch.updateOperations .subtract k + stakeFor E v (batch.latestVotes.get v) k
  add : ∀ k, amountAt ops .add k =
    amountAt batch.updateOperations .add k + stakeFor E v (some new) k

/-- The old vote is taken back and the new one recorded. -/
theorem moveVote_spec (h : Wf infos.get) (hb : Batch infos.get batch.updateOperations)
    {old : SlotHashKey Hash} (hold : batch.latestVotes.get v = some old)
    (hnew : preference old < preference new) :
    ∃ ops ops', removeVote E infos batch.updateOperations v old = some ops ∧
      recordVote E infos ops v new = some ops' ∧ Records E infos batch v new ops' := by
  have hremove : ∃ ops, removeVote E infos batch.updateOperations v old = some ops ∧
      Batch infos.get ops ∧
      Queues batch.updateOperations ops old .subtract (E.stake old.slot v) := by
    unfold removeVote
    by_cases hpos : 0 < E.stake old.slot v
    · rw [if_pos hpos]
      exact queue_spec h (Or.inr rfl) hb (E.stake old.slot v)
    · rw [if_neg hpos, Nat.eq_zero_of_not_pos hpos]
      refine ⟨_, rfl, hb, ?_, fun hm => hm⟩
      intro label k _
      rw [ite_self, Nat.add_zero]
  obtain ⟨ops, hops, hb', hq⟩ := hremove
  obtain ⟨ops', hops', hb'', hq'⟩ := recordVote_spec h hb' v new
  refine ⟨ops, ops', hops, hops', ?_⟩
  constructor
  · intro old' hold'
    cases hold.symm.trans hold'
    exact hnew
  · exact hb''
  · exact fun hm => hq'.unmarked (hq.unmarked hm)
  · intro k
    rw [hq'.amount (by decide), hq.amount (by decide), hold, stakeFor_some]
    simp [UpdateOperation.label]
  · intro k
    rw [hq'.amount (by decide), hq.amount (by decide), stakeFor_some]
    simp [UpdateOperation.label]

theorem firstVote_spec (h : Wf infos.get) (hb : Batch infos.get batch.updateOperations)
    (new : SlotHashKey Hash) (hnone : batch.latestVotes.get v = none) :
    ∃ ops, recordVote E infos batch.updateOperations v new = some ops ∧
      Records E infos batch v new ops := by
  obtain ⟨ops, hops, hb', hq⟩ := recordVote_spec h hb v new
  refine ⟨ops, hops, ?_, hb', hq.unmarked, ?_, ?_⟩
  · intro old hold
    cases hnone.symm.trans hold
  · intro k
    rw [hq.amount (by decide), hnone]
    simp [UpdateOperation.label, stakeFor]
  · intro k
    rw [hq.amount (by decide), stakeFor_some]
    simp [UpdateOperation.label]

/-- What one round of `generate_update_operations` can do. -/
inductive Voted (E : Epochs Pubkey) (infos : ForkInfos Hash) (treeRoot : SlotHashKey Hash)
    (batch : VoteBatch Hash Pubkey) (v : Pubkey) (new : SlotHashKey Hash) :
    VoteBatch Hash Pubkey → Prop
  | ignored (h : new.slot < treeRoot.slot) : Voted E infos treeRoot batch v new batch
  | outdated (h : treeRoot.slot ≤ new.slot) (hv : batch.observedPubkeys.get v = none)
      {old : SlotHashKey Hash} (hold : batch.latestVotes.get v = some old)
      (hle : preference new ≤ preference old) :
      Voted E infos treeRoot batch v new
        { batch with observedPubkeys := batch.observedPubkeys.insert v new.slot }
  | recorded (h : treeRoot.slot ≤ new.slot) (hv : batch.observedPubkeys.get v = none)
      {ops : UpdateOperations Hash} (hops : Records E infos batch v new ops) :
      Voted E infos treeRoot batch v new
        ⟨batch.latestVotes.insert v new, ops, batch.observedPubkeys.insert v new.slot⟩

/-- One round panics only for a second vote of a validator. -/
theorem generateVote_spec (h : Wf infos.get) (hb : Batch infos.get batch.updateOperations)
    (v : Pubkey) (new : SlotHashKey Hash) :
    (∃ batch', generateVote E infos treeRoot batch (v, new) = some batch' ∧
        Voted E infos treeRoot batch v new batch') ∨
      (generateVote E infos treeRoot batch (v, new) = none ∧ treeRoot.slot ≤ new.slot ∧
        batch.observedPubkeys.contains v = true) := by
  unfold generateVote
  dsimp only
  by_cases hroot : new.slot < treeRoot.slot
  · rw [if_pos hroot]
    exact Or.inl ⟨batch, rfl, .ignored hroot⟩
  rw [if_neg hroot]
  by_cases hseen : batch.observedPubkeys.contains v = true
  · rw [if_pos hseen]
    exact Or.inr ⟨rfl, not_lt.mp hroot, hseen⟩
  rw [if_neg hseen]
  have hv : batch.observedPubkeys.get v = none := by
    rw [contains, isSome_iff_ne_none] at hseen
    exact not_not.mp hseen
  left
  cases hold : batch.latestVotes.get v with
  | none =>
    obtain ⟨ops, hops, hrec⟩ := firstVote_spec h hb new hold
    refine ⟨_, ?_, .recorded (not_lt.mp hroot) hv hrec⟩
    rw [hops]
    rfl
  | some old =>
    dsimp only
    by_cases hpref : preference old < preference new
    · have hlt := preference_lt.mp hpref
      have hkeep : ¬ (new.slot < old.slot ∨ (new.slot = old.slot ∧ old.hash ≤ new.hash)) := by
        rintro (hs | ⟨hs, hh⟩)
        · rcases hlt with hlt | ⟨heq, -⟩ <;> omega
        · rcases hlt with hlt | ⟨-, hlt⟩
          · omega
          · exact hlt.not_ge hh
      have hassert : if new.slot = old.slot then new.hash < old.hash else old.slot < new.slot := by
        split_ifs with hs
        · rcases hlt with hlt | ⟨-, hlt⟩
          · omega
          · exact hlt
        · rcases hlt with hlt | ⟨heq, -⟩
          · exact hlt
          · exact (hs heq.symm).elim
      obtain ⟨ops, ops', hops, hops', hrec⟩ := moveVote_spec h hb hold hpref
      refine ⟨_, ?_, .recorded (not_lt.mp hroot) hv hrec⟩
      rw [if_neg hkeep, if_pos hassert]
      rw [hops]
      show (recordVote E infos ops v new).bind _ = _
      rw [hops']
      rfl
    · have hdrop : new.slot < old.slot ∨ (new.slot = old.slot ∧ old.hash ≤ new.hash) := by
        rw [preference_lt, not_or, not_and, not_lt, not_lt] at hpref
        rcases hpref.1.lt_or_eq with hs | hs
        · exact Or.inl hs
        · exact Or.inr ⟨hs, hpref.2 hs.symm⟩
      refine ⟨_, ?_, .outdated (not_lt.mp hroot) hv hold (not_lt.mp hpref)⟩
      rw [if_pos hdrop]

/-! ## A batch of votes -/

/-- The balance of a batch, against the votes recorded before it. -/
structure Accounts (E : Epochs Pubkey) (infos : ForkInfos Hash)
    (votes : OrdMap Pubkey (SlotHashKey Hash)) (batch : VoteBatch Hash Pubkey) : Prop where
  isBatch : Batch infos.get batch.updateOperations
  unmarked : ∀ {k l o}, batch.updateOperations.get (toLex (k, l)) = some o → ¬ o.IsMark
  unseen : ∀ {v}, batch.observedPubkeys.get v = none → batch.latestVotes.get v = votes.get v
  balance : ∀ k, votedStake E votes k + amountAt batch.updateOperations .add k =
    votedStake E batch.latestVotes k + amountAt batch.updateOperations .subtract k
  covered : ∀ k, amountAt batch.updateOperations .subtract k ≤
    ∑ v ∈ (voters votes k).filter fun v => (batch.observedPubkeys.get v).isSome, E.stake k.slot v

theorem Accounts.start : Accounts E infos votes { latestVotes := votes } where
  isBatch := batch_empty infos.get
  unmarked h := by cases h
  unseen _ := rfl
  balance _ := rfl
  covered _ := Nat.zero_le _

/-- The stake of the validators that have been observed, with one more. -/
theorem sum_observed_insert (observed : OrdMap Pubkey ℕ) (hv : observed.get v = none) (slot : ℕ)
    (k : SlotHashKey Hash) :
    (∑ w ∈ (voters votes k).filter fun w => ((observed.insert v slot).get w).isSome,
        E.stake k.slot w) =
      (∑ w ∈ (voters votes k).filter fun w => (observed.get w).isSome, E.stake k.slot w) +
        stakeFor E v (votes.get v) k := by
  have hsplit : ((voters votes k).filter fun w => ((observed.insert v slot).get w).isSome).erase v =
      (voters votes k).filter fun w => (observed.get w).isSome := by
    ext w
    rw [mem_erase, mem_filter, mem_filter]
    by_cases hw : w = v
    · rw [hw, hv]
      simp
    · rw [get_insert_of_ne slot hw, and_iff_right hw]
  rw [stakeFor]
  by_cases hvk : votes.get v = some k
  · rw [if_pos hvk, ← hsplit, sum_erase_add]
    rw [mem_filter, get_insert_self]
    exact ⟨mem_voters.mpr hvk, rfl⟩
  · rw [if_neg hvk, Nat.add_zero, ← hsplit, erase_eq_of_notMem]
    exact fun hmem => hvk (mem_voters.mp (mem_filter.mp hmem).1)

theorem Accounts.next (ha : Accounts E infos votes batch)
    (h : Voted E infos treeRoot batch v new batch') : Accounts E infos votes batch' := by
  have hunseen : ∀ {slot w}, (batch.observedPubkeys.insert v slot).get w = none →
      w ≠ v ∧ batch.latestVotes.get w = votes.get w := by
    intro slot w hw
    have hne : w ≠ v := by
      rintro rfl
      rw [get_insert_self] at hw
      cases hw
    rw [get_insert_of_ne slot hne] at hw
    exact ⟨hne, ha.unseen hw⟩
  cases h with
  | ignored _ => exact ha
  | outdated _ hv hold _ =>
    refine ⟨ha.isBatch, ha.unmarked, fun hw => (hunseen hw).2, ha.balance, ?_⟩
    intro k
    rw [sum_observed_insert _ hv]
    exact (ha.covered k).trans (Nat.le_add_right _ _)
  | recorded _ hv hops =>
    refine ⟨hops.isBatch, hops.unmarked ha.unmarked, ?_, ?_, ?_⟩
    · intro w hw
      obtain ⟨hne, hvotes⟩ := hunseen hw
      exact (get_insert_of_ne new hne).trans hvotes
    · intro k
      have hbalance := ha.balance k
      have hmove := votedStake_insert E batch.latestVotes v new k
      dsimp only
      rw [hops.add, hops.subtract]
      omega
    · intro k
      rw [sum_observed_insert _ hv, hops.subtract, ha.unseen hv]
      exact Nat.add_le_add_right (ha.covered k) _

variable {pubkeyVotes : List (Pubkey × SlotHashKey Hash)}

/-- Votes of different validators do not panic. -/
theorem Accounts.isSome (hwf : Wf infos.get) (ha : Accounts E infos votes batch)
    (hnodup : (pubkeyVotes.map Prod.fst).Nodup)
    (hfresh : ∀ v ∈ pubkeyVotes.map Prod.fst, batch.observedPubkeys.get v = none) :
    ∃ batch', pubkeyVotes.foldlM (generateVote E infos treeRoot) batch = some batch' := by
  induction pubkeyVotes generalizing batch with
  | nil => exact ⟨batch, rfl⟩
  | cons vote rest ih =>
    obtain ⟨hnot, hnodup'⟩ := List.nodup_cons.mp hnodup
    rcases generateVote_spec hwf ha.isBatch vote.1 vote.2 with ⟨b, hb, hvoted⟩ | ⟨-, -, hseen⟩
    · have hrest : ∀ v ∈ rest.map Prod.fst, b.observedPubkeys.get v = none := by
        intro v hv
        have hold := hfresh v (List.mem_cons_of_mem _ hv)
        have hne : v ≠ vote.1 := fun heq => hnot (heq ▸ hv)
        cases hvoted with
        | ignored _ => exact hold
        | outdated | recorded => exact (get_insert_of_ne _ hne).trans hold
      obtain ⟨batch', hbatch'⟩ := ih (ha.next hvoted) hnodup' hrest
      refine ⟨batch', ?_⟩
      rw [List.foldlM_cons, hb]
      exact hbatch'
    · rw [contains, hfresh _ List.mem_cons_self] at hseen
      cases hseen

/-! ## The vote that is recorded -/

/-- The vote of the greatest preference. -/
def IsPreferred (S : SlotHashKey Hash → Prop) (key : SlotHashKey Hash) : Prop :=
  S key ∧ ∀ k, S k → preference k ≤ preference key

theorem isPreferred_congr {S T : SlotHashKey Hash → Prop} (hsub : ∀ k, S k → T k)
    (hdom : ∀ k, T k → ∃ j, S j ∧ preference k ≤ preference j) :
    IsPreferred S key ↔ IsPreferred T key := by
  constructor
  · rintro ⟨hkey, hmax⟩
    refine ⟨hsub key hkey, ?_⟩
    intro k hk
    obtain ⟨j, hj, hle⟩ := hdom k hk
    exact hle.trans (hmax j hj)
  · rintro ⟨hkey, hmax⟩
    obtain ⟨j, hj, hle⟩ := hdom key hkey
    have heq := preference_injective (le_antisymm hle (hmax j (hsub j hj)))
    exact ⟨heq ▸ hj, fun k hk => hmax k (hsub k hk)⟩

/-- The votes of a validator to choose from. -/
def Choices (treeRoot : SlotHashKey Hash) (votes : OrdMap Pubkey (SlotHashKey Hash))
    (pubkeyVotes : List (Pubkey × SlotHashKey Hash)) (v : Pubkey) (key : SlotHashKey Hash) : Prop :=
  votes.get v = some key ∨ ((v, key) ∈ pubkeyVotes ∧ treeRoot.slot ≤ key.slot)

/-- A recorded vote is preferred to the one before and to the new one. -/
theorem Voted.choices {rest : List (Pubkey × SlotHashKey Hash)} {w : Pubkey}
    (h : Voted E infos treeRoot batch v new batch') :
    IsPreferred (Choices treeRoot batch'.latestVotes rest w) key ↔
      IsPreferred (Choices treeRoot batch.latestVotes ((v, new) :: rest) w) key := by
  apply isPreferred_congr
  · rintro k (hk | ⟨hk, hroot⟩)
    · cases h with
      | ignored _ => exact Or.inl hk
      | outdated _ _ _ _ => exact Or.inl hk
      | recorded hroot _ _ =>
        rw [get_insert] at hk
        split_ifs at hk with hw
        · cases hk
          exact Or.inr ⟨hw ▸ List.mem_cons_self, hroot⟩
        · exact Or.inl hk
    · exact Or.inr ⟨List.mem_cons_of_mem _ hk, hroot⟩
  · rintro k (hk | ⟨hk, hroot⟩)
    · cases h with
      | ignored _ => exact ⟨k, Or.inl hk, le_refl _⟩
      | outdated _ _ _ _ => exact ⟨k, Or.inl hk, le_refl _⟩
      | recorded _ _ hops =>
        by_cases hw : w = v
        · rw [hw] at hk ⊢
          exact ⟨new, Or.inl (get_insert_self _ _), (hops.newer hk).le⟩
        · exact ⟨k, Or.inl ((get_insert_of_ne new hw).trans hk), le_refl _⟩
    · rcases List.mem_cons.mp hk with heq | hk
      · cases heq
        cases h with
        | ignored hlt => exact (hlt.not_ge hroot).elim
        | outdated _ _ hold hle => exact ⟨_, Or.inl hold, hle⟩
        | recorded _ _ _ => exact ⟨new, Or.inl (get_insert_self _ _), le_refl _⟩
      · exact ⟨k, Or.inr ⟨hk, hroot⟩, le_refl _⟩

theorem isPreferred_nil {w : Pubkey} : votes.get w = some key ↔
    IsPreferred (Choices treeRoot votes [] w) key := by
  constructor
  · intro hkey
    refine ⟨Or.inl hkey, ?_⟩
    rintro k (hk | ⟨hk, -⟩)
    · cases hkey.symm.trans hk
      exact le_refl _
    · cases hk
  · rintro ⟨hkey | ⟨hkey, -⟩, -⟩
    · exact hkey
    · cases hkey

/-- After a batch the preferred one of old and new votes is recorded. -/
theorem Accounts.run (hwf : Wf infos.get) (ha : Accounts E infos votes batch)
    (h : pubkeyVotes.foldlM (generateVote E infos treeRoot) batch = some batch') :
    Accounts E infos votes batch' ∧ ∀ w key, batch'.latestVotes.get w = some key ↔
      IsPreferred (Choices treeRoot batch.latestVotes pubkeyVotes w) key := by
  induction pubkeyVotes generalizing batch with
  | nil =>
    cases h
    exact ⟨ha, fun _ _ => isPreferred_nil⟩
  | cons vote rest ih =>
    obtain ⟨batch₁, h₁, hrest⟩ := bind_eq_some_iff.mp h
    rcases generateVote_spec hwf ha.isBatch vote.1 vote.2 with ⟨b, hb, hvoted⟩ | ⟨hnone, -⟩
    · cases hb.symm.trans h₁
      obtain ⟨hrun, hlatest⟩ := ih (ha.next hvoted) hrest
      exact ⟨hrun, fun w key => (hlatest w key).trans hvoted.choices⟩
    · cases hnone.symm.trans h₁

end Generate

end Salsa.ForkChoice
