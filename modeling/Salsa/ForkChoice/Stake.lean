import Salsa.ForkChoice.Runs
import Salsa.Lib.Fallible

/-!
# Salsa.ForkChoice.Stake — the stake of a block

`stake_voted_at` is the stake of the validators whose recorded vote is the block, and
`stake_voted_subtree` its sum over the subtree, in every tree where no block is added that
is already some validator's recorded vote (`Unvoted`). Then no operation panics
(`Works`), and the stakes after a set of votes do not depend on the batches they came in.

A root that is set drops blocks and keeps the recorded votes for them, so a block that is
dropped and added again is one that is voted for already.
-/

namespace Salsa.ForkChoice

open List Relation HeaviestSubtreeForkChoice OrdMap

variable {Hash Pubkey : Type} [LinearOrder Hash] [LinearOrder Pubkey] {E : Epochs Pubkey}
  {t t' other : HeaviestSubtreeForkChoice Hash Pubkey} {key p k newRoot : SlotHashKey Hash}

/-- Nobody's recorded vote is the new leaf. -/
def Unvoted (t : HeaviestSubtreeForkChoice Hash Pubkey) (key _p : SlotHashKey Hash) : Prop :=
  ∀ v, t.latestVotes.get v ≠ some key

/-- The stake at every block is that of the recorded votes for it. -/
def StakesRight (E : Epochs Pubkey) (t : HeaviestSubtreeForkChoice Hash Pubkey) : Prop :=
  ∀ ⦃k i⦄, t.forkInfos.get k = some i → i.stakeVotedAt = votedStake E t.latestVotes k

variable {votes : OrdMap Pubkey (SlotHashKey Hash)}

theorem votedStake_eq_zero (h : ∀ v, votes.get v ≠ some k) : votedStake E votes k = 0 := by
  rw [votedStake, Finset.sum_eq_zero]
  intro v hv
  exact (h v (mem_voters.mp hv)).elim

variable {votes votes' : OrdMap Pubkey (SlotHashKey Hash)}

theorem votedStake_congr (h : ∀ v, votes.get v = some k ↔ votes'.get v = some k) :
    votedStake E votes k = votedStake E votes' k := by
  have hvoters : voters votes k = voters votes' k := by
    ext v
    rw [mem_voters, mem_voters, h]
  rw [votedStake, hvoters, votedStake]

/-- Votes for other blocks do not matter. -/
theorem votedStake_filter {keep : SlotHashKey Hash → Bool} (hk : keep k = true) :
    votedStake E (votes.filter fun _ node => keep node) k = votedStake E votes k := by
  have hvoters : voters (votes.filter fun _ node => keep node) k = voters votes k := by
    ext v
    rw [mem_voters, mem_voters, get_filter_eq_some]
    exact and_iff_left hk
  rw [votedStake, hvoters, votedStake]

variable {f : Entries Hash} {ops : UpdateOperations Hash}

theorem amountAt_eq_zero (hb : Batch f ops)
    (h : ∀ op ∈ opsAt ops k, op.amount = 0) (label : UpdateLabel) : amountAt ops label k = 0 := by
  rw [← hb.sum_amountUnder, sum_eq_zero]
  intro n hn
  obtain ⟨op, hop, rfl⟩ := mem_map.mp hn
  rw [UpdateOperation.amountUnder, h op hop, ite_self]

variable {infos infos' : ForkInfos Hash} {i j : ForkInfo Hash}

/-- A batch that moves no stake. -/
theorem process_keeps_stakeVotedAt (hproc : processUpdateOperations infos ops = some infos')
    (habove : ChildrenAbove infos.get) (hb : Batch f ops) (h : ∀ op ∈ opsAt ops k, op.amount = 0)
    (hi : infos.get k = some i) (hj : infos'.get k = some j) : j.stakeVotedAt = i.stakeVotedAt := by
  have heq := process_stakeVotedAt hproc habove hb hi hj
  rw [amountAt_eq_zero hb h, amountAt_eq_zero hb h] at heq
  exact heq

/-! ## Each operation keeps the stakes right -/

theorem StakesRight.leafStep (hs : LeafStep Unvoted t t') (h : TreeOk t) (hr : StakesRight E t) :
    StakesRight E t' := by
  obtain ⟨key, p, infos, hun, hl, hprop, hvotes, -⟩ := hs
  have hfr := propagateNewLeaf_frame (hl.wf h.wf) hl.parentOf_key hprop
  obtain ⟨ip, hf, hg, hkey⟩ := hl.parent
  intro k j hj
  obtain ⟨i, hi, b, n, d, rfl⟩ := hfr.of_some hj
  rw [hvotes]
  by_cases hk : k = key
  · rw [hk, hkey] at hi
    cases hi
    rw [hk]
    exact (votedStake_eq_zero hun).symm
  · by_cases hkp : k = p
    · rw [hkp, hg] at hi
      cases hi
      rw [hkp]
      exact (hr hf :)
    · rw [hl.other hk hkp] at hi
      exact (hr hi :)

theorem StakesRight.leaves (hs : ReflTransGen (LeafStep Unvoted) t t') (h : TreeOk t)
    (hr : StakesRight E t) : StakesRight E t' := by
  induction hs with
  | refl => exact hr
  | tail hsteps hstep ih => exact StakesRight.leafStep hstep (LeafStep.run_treeOk hsteps h) ih

theorem StakesRight.addVotes (hr : StakesRight E t) (h : TreeOk t)
    {votes : List (Pubkey × SlotHashKey Hash)} {best : SlotHashKey Hash}
    (hadd : t.addVotes E votes = some (best, t')) : StakesRight E t' := by
  obtain ⟨batch, -, hacc, hproc, hvotes, -⟩ := addVotes_spec h hadd
  intro k j hj
  obtain ⟨i, hi, -⟩ := (process_keeps hproc).of_some hj
  have hmove := process_stakeVotedAt hproc h.wf.childrenAbove hacc.isBatch hi hj
  have hbalance := hacc.balance k
  have hold := hr hi
  rw [hvotes]
  omega

theorem StakesRight.subtree (hr : StakesRight E t)
    (hs : IsSubtree t.forkInfos.get t'.forkInfos.get newRoot)
    (hvotes : ∀ k, t'.containsBlock k = true →
      votedStake E t'.latestVotes k = votedStake E t.latestVotes k) : StakesRight E t' := by
  intro k j hj
  rw [hvotes k (contains_iff.mpr ⟨j, hj⟩)]
  by_cases hk : k = newRoot
  · obtain ⟨i, hi, hg⟩ := hs.root
    rw [hk, hg] at hj
    cases hj
    rw [hk]
    exact (hr hi :)
  · rw [hs.below (hs.below_of_some hj) hk] at hj
    exact hr hj

theorem StakesRight.rest (hr : StakesRight E t) (h : TreeOk t) {infos₁ infos₂ : ForkInfos Hash}
    {split rest : HeaviestSubtreeForkChoice Hash Pubkey} (hinto : SplitInto t key infos₂ split rest)
    (hg : LetsGo t.forkInfos.get infos₁.get key p)
    (hproc : processUpdateOperations infos₁ (insertAggregateOperations t.forkInfos .empty key) =
      some infos₂) : StakesRight E rest := by
  obtain ⟨hbatch, hops⟩ := splitOperations_spec h.wf key
  have hrest := isRest_of_process hg h.wf (process_keeps hproc) hinto.below hinto.other
  intro k j hj
  rw [hinto.rest_votes, votedStake_filter (contains_iff.mpr ⟨j, hj⟩)]
  rw [hinto.other (hrest.not_below_of_some hj)] at hj
  obtain ⟨i, hi, -⟩ := (process_keeps hproc).of_some hj
  have hsame : j.stakeVotedAt = i.stakeVotedAt := by
    refine process_keeps_stakeVotedAt hproc (hg.childrenAbove h.wf) hbatch ?_ hi hj
    intro op hop
    rw [(hops k).2.2 op hop]
    rfl
  rw [hsame]
  by_cases hkp : k = p
  · obtain ⟨ip, hf, hgp⟩ := hg.entry
    rw [hkp, hgp] at hi
    cases hi
    rw [hkp]
    exact (hr hf :)
  · rw [hg.other hkp] at hi
    exact hr hi

/-! ## The stake of a subtree -/

def stakeAt (f : Entries Hash) (key : SlotHashKey Hash) : ℕ := (f key).elim 0 ForkInfo.stakeVotedAt

open Classical in
/-- The blocks of the subtree of a block. -/
noncomputable def blocksBelow (infos : ForkInfos Hash) (key : SlotHashKey Hash) :
    Finset (SlotHashKey Hash) :=
  infos.keys.toFinset.filter (Below infos.get key)

theorem mem_blocksBelow {x : SlotHashKey Hash} :
    x ∈ blocksBelow infos k ↔ (∃ i, infos.get x = some i) ∧ Below infos.get k x := by
  classical
  rw [blocksBelow, Finset.mem_filter, mem_keys_iff]

/-- What is up to date with the children is the sum over the subtree. -/
theorem Wf.sum_stakeAt (h : Wf infos.get)
    (hs : Everywhere StakeOk infos.get) (hi : infos.get k = some i) :
    i.stakeVotedSubtree = ∑ x ∈ blocksBelow infos k, stakeAt infos.get x := by
  suffices hall : ∀ k i, infos.get k = some i → stakeOf infos.get k =
      ∑ x ∈ h.forest.subtree infos.keys.toFinset k, stakeAt infos.get x by
    have hk := hall k i hi
    rw [stakeOf, hi] at hk
    exact hk
  refine h.up_induction ?_
  intro k i hi ih
  have hchildren : ∀ c, c ∈ i.children.keys.toFinset ↔
      c ∈ infos.keys.toFinset ∧ h.forest.parent c = some k := by
    intro c
    rw [mem_toFinset, ← childrenOf_of_some hi, mem_childrenOf_iff h]
    refine ⟨fun hc => ⟨?_, hc⟩, And.right⟩
    obtain ⟨j, hj, -⟩ := parentOf_eq_some.mp hc
    exact mem_keys_iff.mpr ⟨j, hj⟩
  rw [Forest.sum_subtree (fun _ hp => mem_keys_iff.mpr (h.parent_some hp))
    (mem_keys_iff.mpr ⟨i, hi⟩) hchildren]
  have hown := hs hi
  rw [StakeOk, ← sum_toFinset _ keys_nodup] at hown
  rw [stakeOf, hi, stakeAt, hi]
  refine hown.trans (congrArg _ (Finset.sum_congr rfl ?_))
  exact fun c hc => ih c (mem_toFinset.mp hc)

variable {C : HeaviestSubtreeForkChoice Hash Pubkey → SlotHashKey Hash → SlotHashKey Hash → Prop}

theorem LeafStep.stakeOk (hstep : LeafStep C t t') (h : TreeOk t)
    (hs : Everywhere StakeOk t.forkInfos.get) : Everywhere StakeOk t'.forkInfos.get := by
  obtain ⟨key, p, infos, -, hl, hprop, -, -⟩ := hstep
  have hfr := propagateNewLeaf_frame (hl.wf h.wf) hl.parentOf_key hprop
  exact hfr.stakeOk (hl.stakeOk h.wf hs)

theorem LeafStep.run_stakeOk (hs : ReflTransGen (LeafStep C) t t') (h : TreeOk t)
    (hok : Everywhere StakeOk t.forkInfos.get) : Everywhere StakeOk t'.forkInfos.get := by
  induction hs with
  | refl => exact hok
  | tail hsteps hstep ih => exact hstep.stakeOk (LeafStep.run_treeOk hsteps h) ih

/-! ## No operation panics -/

theorem StakeOk.le (h : StakeOk f k i) : i.stakeVotedAt ≤ i.stakeVotedSubtree := by
  rw [StakeOk] at h
  omega

theorem Accounts.ready {batch : VoteBatch Hash Pubkey}
    (ha : Accounts E t.forkInfos t.latestVotes batch) (hs : Everywhere StakeOk t.forkInfos.get)
    (hr : StakesRight E t) :
    Ready t.forkInfos.get batch.updateOperations fun _ => False where
  closed h := h.elim
  unconfirmed h := h.elim
  valid h := h.elim
  invalid {k s i} hop _ := by
    obtain ⟨l, hl⟩ := mem_opsAt.mp hop
    exact ha.unmarked hl ⟨s, Or.inr rfl⟩
  subtract {k s i} hop hi := by
    -- what is taken back was put there by votes recorded before
    obtain ⟨l, hl⟩ := mem_opsAt.mp hop
    rw [← ha.isBatch.labelled hl] at hl
    have hamount : amountAt batch.updateOperations .subtract k = s := by
      rw [amountAt, show (UpdateLabel.subtract : UpdateLabel) =
        (UpdateOperation.subtract s).label from rfl, hl]
      rfl
    calc s = amountAt batch.updateOperations .subtract k := hamount.symm
      _ ≤ _ := ha.covered k
      _ ≤ votedStake E t.latestVotes k := Finset.sum_le_sum_of_subset (Finset.filter_subset _ _)
      _ = i.stakeVotedAt := (hr hi).symm
  stake hi := (hs hi).le

theorem addVotes_isSome (h : TreeOk t) (hs : Everywhere StakeOk t.forkInfos.get)
    (hr : StakesRight E t) {votes : List (Pubkey × SlotHashKey Hash)}
    (hnodup : (votes.map Prod.fst).Nodup) : ∃ best t', t.addVotes E votes = some (best, t') := by
  obtain ⟨batch, hbatch⟩ : ∃ batch, t.generateUpdateOperations E votes = some batch :=
    Accounts.start.isSome h.wf hnodup fun v _ => rfl
  have hacc := (Accounts.start.run h.wf hbatch).1
  obtain ⟨infos, hproc⟩ := process_isSome h.wf.childrenAbove hacc.isBatch (hacc.ready hs hr)
  obtain ⟨i, hi⟩ := h.rooted.root_mem
  obtain ⟨j, hj, -⟩ := (process_keeps hproc).to_some hi
  refine ⟨j.bestSlot, { t with forkInfos := infos, latestVotes := batch.latestVotes }, ?_⟩
  unfold addVotes
  rw [hbatch]
  show (processUpdateOperations _ _).bind _ = _
  rw [hproc]
  show ((infos.get t.treeRoot).map ForkInfo.bestSlot).bind _ = _
  rw [hj]
  rfl

theorem splitOff_isSome (h : TreeOk t) (hs : Everywhere StakeOk t.forkInfos.get)
    (hkey : t.containsBlock key = true) (hroot : key ≠ t.treeRoot) :
    ∃ split rest, t.splitOff key = some (split, rest) := by
  obtain ⟨i, hi⟩ := contains_iff.mp hkey
  obtain ⟨p, hp⟩ := Option.ne_none_iff_exists'.mp fun hn => hroot ((h.rooted.parent_none hi).mp hn)
  have hpar : parentOf t.forkInfos.get key = some p := (parentOf_of_some hi).trans hp
  obtain ⟨ip, hip⟩ := h.wf.parent_some hpar
  obtain ⟨hbatch, hops⟩ := splitOperations_spec h.wf key
  have hg : LetsGo t.forkInfos.get
      (t.forkInfos.insert p { ip with children := ip.children.erase key }).get key p :=
    ⟨hpar, ⟨ip, hip, get_insert_self _ _⟩, fun hx => get_insert_of_ne _ hx⟩
  have hready : Ready (t.forkInfos.insert p { ip with children := ip.children.erase key }).get
      (insertAggregateOperations t.forkInfos .empty key) fun _ => False := by
    refine ⟨fun hU => hU.elim, fun hU => hU.elim, fun hU => hU.elim, ?_, ?_, ?_⟩
    · intro k s i hop
      cases (hops k).2.2 _ hop
    · intro k s i hop
      cases (hops k).2.2 _ hop
    · intro k j hj
      by_cases hk : k = p
      · rw [hk, get_insert_self] at hj
        cases hj
        exact ((hs hip).le :)
      · rw [get_insert_of_ne _ hk] at hj
        exact (hs hj).le
  obtain ⟨infos, hproc⟩ := process_isSome (hg.childrenAbove h.wf) hbatch hready
  obtain ⟨split, rest, hsplit, -⟩ := splitOff_of_process h hi hp (Ne.symm hroot) hip hproc
  exact ⟨split, rest, hsplit⟩

/-- Below an unconfirmed block no block is confirmed. -/
theorem TreeOk.unconfirmed_below (h : TreeOk t)
    (hi : t.forkInfos.get key = some i) (hconf : i.isDuplicateConfirmed = false)
    (hb : Below t.forkInfos.get key k) (hj : t.forkInfos.get k = some j) :
    j.isDuplicateConfirmed = false := by
  induction hb generalizing j with
  | refl =>
    cases hi.symm.trans hj
    exact hconf
  | @tail x y _ hxy ih =>
    obtain ⟨l, hl⟩ := h.wf.parent_some hxy
    have hmem := h.wf.parent_mem hxy
    rw [childrenOf_of_some hl] at hmem
    rw [Bool.eq_false_iff]
    intro hy
    have hx := h.confirmed hl y hmem (by rw [confirmedOf, hj]; exact hy)
    rw [ih hl] at hx
    cases hx

/-! ## Order and batches of votes -/

def addBatches (E : Epochs Pubkey) (t : HeaviestSubtreeForkChoice Hash Pubkey)
    (batches : List (List (Pubkey × SlotHashKey Hash))) :
    Option (HeaviestSubtreeForkChoice Hash Pubkey) :=
  batches.foldlM (fun t votes => (t.addVotes E votes).map Prod.snd) t

theorem exists_isPreferred {v : Pubkey} {pubkeyVotes : List (Pubkey × SlotHashKey Hash)}
    (h : Choices newRoot votes pubkeyVotes v key) :
    ∃ k, IsPreferred (Choices newRoot votes pubkeyVotes v) k := by
  let choices := (votes.get v).toList ++
    (pubkeyVotes.filter fun vote => vote.1 = v ∧ newRoot.slot ≤ vote.2.slot).map Prod.snd
  have hmem : ∀ k, k ∈ choices ↔ Choices newRoot votes pubkeyVotes v k := by
    intro k
    rw [mem_append, Option.mem_toList, mem_map]
    refine or_congr Iff.rfl ?_
    constructor
    · rintro ⟨⟨w, k'⟩, hvote, rfl⟩
      obtain ⟨hin, hcond⟩ := mem_filter.mp hvote
      obtain ⟨rfl, hslot⟩ := of_decide_eq_true hcond
      exact ⟨hin, hslot⟩
    · rintro ⟨hin, hslot⟩
      exact ⟨(v, k), mem_filter.mpr ⟨hin, decide_eq_true ⟨rfl, hslot⟩⟩, rfl⟩
  cases hmax : choices.argmax preference with
  | none =>
    rw [argmax_eq_none] at hmax
    have hkey := (hmem key).mpr h
    rw [hmax] at hkey
    cases hkey
  | some k =>
    refine ⟨k, (hmem k).mp (argmax_mem hmax), ?_⟩
    exact fun j hj => le_of_mem_argmax ((hmem j).mpr hj) hmax

/-- One batch, then the rest. -/
theorem isPreferred_batch {v : Pubkey} {batch rest : List (Pubkey × SlotHashKey Hash)}
    (h : ∀ k, votes'.get v = some k ↔ IsPreferred (Choices newRoot votes batch v) k) :
    IsPreferred (Choices newRoot votes' rest v) key ↔
      IsPreferred (Choices newRoot votes (batch ++ rest) v) key := by
  apply isPreferred_congr
  · rintro k (hk | ⟨hk, hslot⟩)
    · rcases ((h k).mp hk).1 with hk | ⟨hk, hslot⟩
      · exact Or.inl hk
      · exact Or.inr ⟨mem_append_left _ hk, hslot⟩
    · exact Or.inr ⟨mem_append_right _ hk, hslot⟩
  · intro k hk
    by_cases hrest : (v, k) ∈ rest ∧ newRoot.slot ≤ k.slot
    · exact ⟨k, Or.inr hrest, le_refl _⟩
    · have hfirst : Choices newRoot votes batch v k := by
        rcases hk with hk | ⟨hk, hslot⟩
        · exact Or.inl hk
        · exact Or.inr ⟨(mem_append.mp hk).resolve_right fun hin => hrest ⟨hin, hslot⟩, hslot⟩
      obtain ⟨j, hj⟩ := exists_isPreferred hfirst
      exact ⟨j, Or.inl ((h j).mpr hj), hj.2 k hfirst⟩

/-- What batches of votes come to. -/
theorem addBatches_spec (h : TreeOk t) (hs : Everywhere StakeOk t.forkInfos.get)
    (hr : StakesRight E t) {batches : List (List (Pubkey × SlotHashKey Hash))}
    (hnodup : ∀ votes ∈ batches, (votes.map Prod.fst).Nodup) :
    ∃ t', addBatches E t batches = some t' ∧ TreeOk t' ∧ Everywhere StakeOk t'.forkInfos.get ∧
      StakesRight E t' ∧ Keeps t.forkInfos.get t'.forkInfos.get ∧
      ∀ v key, t'.latestVotes.get v = some key ↔
        IsPreferred (Choices t.treeRoot t.latestVotes batches.flatten v) key := by
  induction batches generalizing t with
  | nil =>
    exact ⟨t, rfl, h, hs, hr, .refl _, fun v key => isPreferred_nil⟩
  | cons votes batches ih =>
    obtain ⟨best, t₁, hadd⟩ := addVotes_isSome h hs hr (hnodup votes mem_cons_self)
    obtain ⟨batch, hbatch, hacc, hproc, hvotes, hroot⟩ := addVotes_spec h hadd
    obtain ⟨t₂, hrest, h₂, hs₂, hr₂, hkeeps, hlatest⟩ := ih (h.addVotes hadd)
      (h.addVotes_everywhere (stakeOk_local Hash) hadd hs) (hr.addVotes h hadd)
      fun votes' hmem => hnodup votes' (mem_cons_of_mem votes hmem)
    refine ⟨t₂, ?_, h₂, hs₂, hr₂, (process_keeps hproc).trans hkeeps, fun v key => ?_⟩
    · show ((t.addVotes E votes).map Prod.snd).bind _ = _
      rw [hadd]
      exact hrest
    · rw [hlatest, hroot, flatten_cons]
      apply isPreferred_batch
      intro k
      rw [hvotes]
      exact (Accounts.start.run h.wf hbatch).2 v k

theorem Keeps.blocksBelow_eq (hkeeps : Keeps infos.get infos'.get) :
    blocksBelow infos' k = blocksBelow infos k := by
  ext x
  rw [mem_blocksBelow, mem_blocksBelow, hkeeps.below_iff]
  exact and_congr_left fun _ => hkeeps.some_iff

/-- Trees that differ in their votes only by how these came in have the same stakes. -/
theorem stakes_eq {t₁ t₂ : HeaviestSubtreeForkChoice Hash Pubkey}
    (h₁ : Keeps t.forkInfos.get t₁.forkInfos.get) (h₂ : Keeps t.forkInfos.get t₂.forkInfos.get)
    (ok₁ : TreeOk t₁) (ok₂ : TreeOk t₂) (hs₁ : Everywhere StakeOk t₁.forkInfos.get)
    (hs₂ : Everywhere StakeOk t₂.forkInfos.get) (hr₁ : StakesRight E t₁) (hr₂ : StakesRight E t₂)
    (hvotes : ∀ v k, t₁.latestVotes.get v = some k ↔ t₂.latestVotes.get v = some k)
    (k : SlotHashKey Hash) :
    stakeAt t₁.forkInfos.get k = stakeAt t₂.forkInfos.get k ∧
      stakeOf t₁.forkInfos.get k = stakeOf t₂.forkInfos.get k := by
  have hat : ∀ k, stakeAt t₁.forkInfos.get k = stakeAt t₂.forkInfos.get k := by
    intro k
    cases hi : t.forkInfos.get k with
    | none => rw [stakeAt, stakeAt, h₁.eq_none hi, h₂.eq_none hi]
    | some i =>
      obtain ⟨j₁, hj₁, -⟩ := h₁.to_some hi
      obtain ⟨j₂, hj₂, -⟩ := h₂.to_some hi
      rw [stakeAt, stakeAt, hj₁, hj₂]
      exact ((hr₁ hj₁).trans (votedStake_congr fun v => hvotes v k)).trans (hr₂ hj₂).symm
  refine ⟨hat k, ?_⟩
  cases hi : t.forkInfos.get k with
  | none => rw [stakeOf, stakeOf, h₁.eq_none hi, h₂.eq_none hi]
  | some i =>
    obtain ⟨j₁, hj₁, -⟩ := h₁.to_some hi
    obtain ⟨j₂, hj₂, -⟩ := h₂.to_some hi
    rw [stakeOf, stakeOf, hj₁, hj₂]
    refine (ok₁.wf.sum_stakeAt hs₁ hj₁).trans (Eq.trans ?_ (ok₂.wf.sum_stakeAt hs₂ hj₂).symm)
    rw [h₁.blocksBelow_eq, h₂.blocksBelow_eq]
    exact Finset.sum_congr rfl fun x _ => hat x

/-! ## Marks -/

variable [Inhabited Hash] {mark : UpdateOperation} {R : OrdSet (SlotHashKey Hash)}

theorem Marked.amount (hm : Marked t mark key R t') (h : TreeOk t) (hmark : mark.IsMark) :
    ∀ op ∈ opsAt (t.markOperations mark key R) k, op.amount = 0 := by
  obtain ⟨hin, hanc, hout⟩ := markOperations_opsAt h.wf hmark hm.notified.hangs k
  have hzero : mark.amount = 0 := by
    obtain ⟨slot, rfl | rfl⟩ := hmark <;> rfl
  intro op hop
  by_cases hk : k ∈ R.keys
  · rw [hin hk] at hop
    rcases mem_pair.mp hop with rfl | rfl
    · exact hzero
    · rfl
  · by_cases ha : Ancestor t.forkInfos.get k key
    · rw [hanc hk ha] at hop
      rw [mem_singleton.mp hop]
      rfl
    · rw [hout hk ha] at hop
      cases hop

theorem StakesRight.marked (hr : StakesRight E t) (hm : Marked t mark key R t') (h : TreeOk t)
    (hmark : mark.IsMark) : StakesRight E t' := by
  intro k j hj
  obtain ⟨i, hi, -⟩ := (process_keeps hm.process).of_some hj
  rw [hm.votes, process_keeps_stakeVotedAt hm.process h.wf.childrenAbove (hm.batch h hmark)
    (hm.amount h hmark) hi hj]
  exact hr hi

/-- A batch of marks does not panic. -/
theorem markOperations_ready (h : TreeOk t) (hs : Everywhere StakeOk t.forkInfos.get)
    (hmark : mark.IsMark) (hR : Notified t.forkInfos.get key default R)
    (hkey : mark = .markInvalid key.slot → ∃ i, t.forkInfos.get key = some i ∧
      i.isDuplicateConfirmed = false)
    (hone : mark = .markInvalid key.slot ∨ mark = .markValid key.slot) :
    Ready t.forkInfos.get (t.markOperations mark key R)
      fun k => mark = .markInvalid key.slot ∧ Below t.forkInfos.get key k := by
  have hops : ∀ {k op}, op ∈ opsAt (t.markOperations mark key R) k →
      op = .aggregate ∨ (op = mark ∧ k ∈ R.keys) := by
    intro k op hop
    obtain ⟨hin, hanc, hout⟩ := markOperations_opsAt h.wf hmark hR.hangs k
    by_cases hk : k ∈ R.keys
    · rw [hin hk] at hop
      exact (mem_pair.mp hop).symm.imp_right fun heq => ⟨heq, hk⟩
    · by_cases ha : Ancestor t.forkInfos.get k key
      · rw [hanc hk ha] at hop
        exact Or.inl (mem_singleton.mp hop)
      · rw [hout hk ha] at hop
        cases hop
  constructor
  · rintro k c ⟨hm, hb⟩ hc
    exact ⟨hm, .tail hb (h.wf.child_mem hc)⟩
  · rintro k j ⟨hm, hb⟩ hj
    obtain ⟨i, hi, hconf⟩ := hkey hm
    exact h.unconfirmed_below hi hconf hb hj
  · rintro k s ⟨hm, -⟩ hop
    rcases hops hop with heq | ⟨heq, -⟩
    · cases heq
    · cases heq.trans hm
  · intro k s i hop _
    rcases hops hop with heq | ⟨heq, hk⟩
    · cases heq
    · refine ⟨?_, hR.below k hk⟩
      rcases hone with hone | hone
      · exact hone
      · cases heq.trans hone
  · intro k s i hop
    rcases hops hop with heq | ⟨heq, -⟩
    · cases heq
    · rcases hone with hone | hone <;> cases heq.trans hone
  · exact fun hi => (hs hi).le

theorem markForkInvalidCandidate_isSome (h : TreeOk t) (hs : Everywhere StakeOk t.forkInfos.get)
    (hkey : ∀ i, t.forkInfos.get key = some i → i.isDuplicateConfirmed = false) :
    ∃ t', t.markForkInvalidCandidate key = some t' := by
  unfold markForkInvalidCandidate
  cases hi : t.forkInfos.get key with
  | none => exact ⟨t, rfl⟩
  | some i =>
    obtain ⟨R, hR, hnot⟩ := subtreeDiff_notified h.wf ⟨i, hi⟩ (default : SlotHashKey Hash)
    have hmark : (UpdateOperation.markInvalid key.slot).IsMark := ⟨_, Or.inr rfl⟩
    obtain ⟨infos, hproc⟩ := process_isSome h.wf.childrenAbove
      (markOperations_spec h.wf hmark hnot.hangs).1
      (markOperations_ready h hs hmark hnot (fun _ => ⟨i, hi, hkey i hi⟩) (Or.inl rfl))
    refine ⟨{ t with forkInfos := infos }, ?_⟩
    dsimp only
    rw [if_neg (Bool.eq_false_iff.mp (hkey i hi)), hR]
    show (processUpdateOperations _ _).bind _ = _
    rw [hproc]
    rfl

theorem markForkValidCandidate_isSome (h : TreeOk t) (hs : Everywhere StakeOk t.forkInfos.get)
    (hkey : t.containsBlock key = true) :
    ∃ newly t', t.markForkValidCandidate key = some (newly, t') := by
  obtain ⟨R, hR, hnot⟩ := subtreeDiff_notified h.wf (contains_iff.mp hkey)
    (default : SlotHashKey Hash)
  have hmark : (UpdateOperation.markValid key.slot).IsMark := ⟨_, Or.inl rfl⟩
  obtain ⟨infos, hproc⟩ := process_isSome h.wf.childrenAbove
    (markOperations_spec h.wf hmark hnot.hangs).1
    (markOperations_ready h hs hmark hnot (fun heq => by cases heq) (Or.inr rfl))
  -- every ancestor has an entry
  have hpath : ∃ path, (key :: ancestorIterator t.forkInfos key).mapM (fun ancestor =>
      (t.forkInfos.get ancestor).map fun info => (ancestor, info.isDuplicateConfirmed)) =
        some path := by
    apply Fallible.exists_mapM_eq_some
    intro ancestor hmem
    have hentry : ∃ i, t.forkInfos.get ancestor = some i := by
      rcases mem_cons.mp hmem with rfl | hanc
      · exact contains_iff.mp hkey
      · obtain ⟨c, hc, -⟩ := TransGen.head'_iff.mp ((mem_ancestorIterator h.wf).mp hanc)
        exact h.wf.parent_some hc
    obtain ⟨i, hi⟩ := hentry
    exact ⟨_, by rw [hi]; rfl⟩
  obtain ⟨path, hpath⟩ := hpath
  unfold markForkValidCandidate
  rw [hpath]
  rw [hR]
  show ∃ newly t', (processUpdateOperations _ _).bind _ = _
  rw [hproc]
  exact ⟨_, _, rfl⟩

/-! ## Every tree in use -/

theorem Reachable.stakesRight (hr : Reachable E Unvoted t) : StakesRight E t := by
  refine (hr.of_steps (fun h k i hi => ?_) fun h hs hright => ?_).2
  · obtain ⟨hvotes, -, -, honly⟩ := new_spec h
    obtain ⟨rfl, rfl⟩ := honly hi
    rw [hvotes, votedStake_eq_zero fun v hv => by cases hv]
    rfl
  · cases hs with
    | leaf hs => exact StakesRight.leafStep hs h hright
    | votes hadd => exact StakesRight.addVotes hright h hadd
    | subtree hs hvotes =>
      exact StakesRight.subtree hright hs fun k hk => votedStake_congr (hvotes k hk)
    | rest hg hproc hinto => exact StakesRight.rest hright h hinto hg hproc
    | marked hmark hm => exact StakesRight.marked hright hm h ⟨_, hmark⟩

theorem Reachable.stakeOk (hr : Reachable E C t) : Everywhere StakeOk t.forkInfos.get := by
  apply hr.everywhere (stakeOk_local Hash)
  · intro f root
    rfl
  · exact fun h hstep hs => hstep.stakeOk h hs

/-- No operation panics. -/
structure Works (E : Epochs Pubkey) (t : HeaviestSubtreeForkChoice Hash Pubkey) : Prop where
  addNewLeafSlot : ∀ {key p}, AddsLeaf Unvoted t key p →
    ∃ t', t.addNewLeafSlot key (some p) = some t'
  addVotes : ∀ {votes : List (Pubkey × SlotHashKey Hash)}, (votes.map Prod.fst).Nodup →
    ∃ best t', t.addVotes E votes = some (best, t')
  setTreeRoot : ∀ {newRoot}, t.containsBlock newRoot = true → ∃ t', t.setTreeRoot newRoot = some t'
  splitOff : ∀ {key}, t.containsBlock key = true → key ≠ t.treeRoot →
    ∃ split rest, t.splitOff key = some (split, rest)
  merge : ∀ {other : HeaviestSubtreeForkChoice Hash Pubkey} {mergeLeaf}
    {votes : List (Pubkey × SlotHashKey Hash)}, Reachable E Unvoted other →
    t.containsBlock mergeLeaf = true → mergeLeaf.slot < other.treeRoot.slot →
    LeavesMeet Unvoted t (other.slotsNodes mergeLeaf) → votes.Perm other.latestVotes.entries →
    ∃ t', t.merge other mergeLeaf E votes = some t'
  markForkInvalidCandidate : ∀ {key},
    (∀ i, t.forkInfos.get key = some i → i.isDuplicateConfirmed = false) →
    ∃ t', t.markForkInvalidCandidate key = some t'
  markForkValidCandidate : ∀ {key}, t.containsBlock key = true →
    ∃ newly t', t.markForkValidCandidate key = some (newly, t')

theorem Reachable.works (hr : Reachable E Unvoted t) : Works E t where
  addNewLeafSlot hadd := by
    obtain ⟨t', h, -⟩ := addNewLeafSlot_step hr.treeOk hadd
    exact ⟨t', h⟩
  addVotes hnodup := addVotes_isSome hr.treeOk hr.stakeOk hr.stakesRight hnodup
  setTreeRoot hroot := by
    obtain ⟨t', h, -⟩ := setTreeRoot_spec hr.treeOk hroot
    exact ⟨t', h⟩
  splitOff hkey hne := splitOff_isSome hr.treeOk hr.stakeOk hkey hne
  merge {other mergeLeaf votes} hother hleaf hslot hmeet hvotes := by
    obtain ⟨t₁, hadd, hsteps, -⟩ :=
      addLeaves_spec hr.treeOk (slotsNodes_hangs hother.treeOk hslot hleaf) hmeet
    have hnodup : (votes.map Prod.fst).Nodup := (hvotes.map Prod.fst).nodup_iff.mpr keys_nodup
    obtain ⟨best, t₂, hadd'⟩ := addVotes_isSome (LeafStep.run_treeOk hsteps hr.treeOk)
      (LeafStep.run_stakeOk hsteps hr.treeOk hr.stakeOk)
      (StakesRight.leaves hsteps hr.treeOk hr.stakesRight) hnodup
    refine ⟨t₂, ?_⟩
    unfold HeaviestSubtreeForkChoice.merge
    rw [if_pos hleaf, hadd]
    show (t₁.addVotes E votes).bind _ = _
    rw [hadd']
    rfl
  markForkInvalidCandidate hkey := markForkInvalidCandidate_isSome hr.treeOk hr.stakeOk hkey
  markForkValidCandidate hkey := markForkValidCandidate_isSome hr.treeOk hr.stakeOk hkey

/-- Stake accounting: every block has the stake of the recorded votes for it and its subtree
their sum, no operation panics, and the batches of a set of votes do not matter. -/
theorem stake_accounting (hr : Reachable E Unvoted t) :
    (∀ k i, t.forkInfos.get k = some i →
      i.stakeVotedAt = ∑ v ∈ voters t.latestVotes k, E.stake k.slot v ∧
      i.stakeVotedSubtree = ∑ x ∈ blocksBelow t.forkInfos k, stakeAt t.forkInfos.get x) ∧
    Works E t ∧
    ∀ batches batches' : List (List (Pubkey × SlotHashKey Hash)),
      (∀ votes ∈ batches, (votes.map Prod.fst).Nodup) →
      (∀ votes ∈ batches', (votes.map Prod.fst).Nodup) →
      (∀ vote, vote ∈ batches.flatten ↔ vote ∈ batches'.flatten) →
      ∃ t₁ t₂, addBatches E t batches = some t₁ ∧ addBatches E t batches' = some t₂ ∧
        (∀ v key, t₁.latestVotes.get v = some key ↔
          IsPreferred (Choices t.treeRoot t.latestVotes batches.flatten v) key) ∧
        (∀ v key, t₁.latestVotes.get v = some key ↔ t₂.latestVotes.get v = some key) ∧
        ∀ k, stakeAt t₁.forkInfos.get k = stakeAt t₂.forkInfos.get k ∧
          stakeOf t₁.forkInfos.get k = stakeOf t₂.forkInfos.get k := by
  refine ⟨fun k i hi => ⟨hr.stakesRight hi, hr.treeOk.wf.sum_stakeAt hr.stakeOk hi⟩, hr.works, ?_⟩
  intro batches batches' hnodup hnodup' hsame
  obtain ⟨t₁, hadd₁, ok₁, hs₁, hr₁, hk₁, hlatest₁⟩ :=
    addBatches_spec hr.treeOk hr.stakeOk hr.stakesRight hnodup
  obtain ⟨t₂, hadd₂, ok₂, hs₂, hr₂, hk₂, hlatest₂⟩ :=
    addBatches_spec hr.treeOk hr.stakeOk hr.stakesRight hnodup'
  have hvotes : ∀ v key, t₁.latestVotes.get v = some key ↔ t₂.latestVotes.get v = some key := by
    intro v key
    have hchoices : ∀ k, Choices t.treeRoot t.latestVotes batches.flatten v k ↔
        Choices t.treeRoot t.latestVotes batches'.flatten v k :=
      fun k => or_congr_right (and_congr_left fun _ => hsame (v, k))
    rw [hlatest₁, hlatest₂, IsPreferred, IsPreferred, hchoices]
    exact and_congr_right fun _ => forall_congr' fun k => imp_congr_left (hchoices k)
  exact ⟨t₁, t₂, hadd₁, hadd₂, hlatest₁, hvotes, stakes_eq hk₁ hk₂ ok₁ ok₂ hs₁ hs₂ hr₁ hr₂ hvotes⟩

/-- One epoch, in which every validator has stake 100. -/
def evenStakes : Epochs ℕ where
  epochStakes _ := some fun _ => 100
  getEpoch _ := 0

/-- A validator votes for a block that a new root drops and that is added again: its stake
is not at the block, and the validator's next vote takes it away from there. -/
theorem not_stake_accounting :
    (do
      let t ← HeaviestSubtreeForkChoice.new (⟨0, 0⟩ : SlotHashKey ℕ)
      let t ← t.addNewLeafSlot ⟨1, 0⟩ (some ⟨0, 0⟩)
      let t ← t.addNewLeafSlot ⟨2, 0⟩ (some ⟨0, 0⟩)
      let (_, t) ← t.addVotes evenStakes [(7, ⟨2, 0⟩)]
      let t ← t.setTreeRoot ⟨1, 0⟩
      let t ← t.addNewLeafSlot ⟨2, 0⟩ (some ⟨1, 0⟩)
      let t ← t.addNewLeafSlot ⟨3, 0⟩ (some ⟨1, 0⟩)
      let next := t.addVotes evenStakes [(7, ⟨3, 0⟩)]
      some (stakeAt t.forkInfos.get ⟨2, 0⟩, votedStake evenStakes t.latestVotes ⟨2, 0⟩,
        next.isSome)) = some (0, 100, false) := by
  decide +kernel

/-- Validator 7 votes for block 1 and then for its sibling 2, validator 8 for block 1: in
whatever batches the votes come, 7's stake ends at block 2. -/
theorem stake_accounting_moved :
    ∃ t t₁ t₂ : HeaviestSubtreeForkChoice ℕ ℕ, Reachable evenStakes Unvoted t ∧
      addBatches evenStakes t [[(7, ⟨1, 0⟩), (8, ⟨1, 0⟩)], [(7, ⟨2, 0⟩)]] = some t₁ ∧
      addBatches evenStakes t [[(7, ⟨2, 0⟩)], [(8, ⟨1, 0⟩)], [(7, ⟨1, 0⟩)]] = some t₂ ∧
      stakeAt t₂.forkInfos.get ⟨1, 0⟩ = 100 ∧ stakeAt t₂.forkInfos.get ⟨2, 0⟩ = 100 := by
  have hchain : (do
      let t₀ : HeaviestSubtreeForkChoice ℕ ℕ ← HeaviestSubtreeForkChoice.new ⟨0, 0⟩
      let t₁ ← t₀.addNewLeafSlot ⟨1, 0⟩ (some ⟨0, 0⟩)
      let t ← t₁.addNewLeafSlot ⟨2, 0⟩ (some ⟨0, 0⟩)
      let t' ← addBatches evenStakes t [[(7, ⟨1, 0⟩), (8, ⟨1, 0⟩)], [(7, ⟨2, 0⟩)]]
      some (t₀.containsBlock ⟨0, 0⟩, t₁.containsBlock ⟨0, 0⟩, t₀.latestVotes.keys,
        t₁.latestVotes.keys, stakeAt t'.forkInfos.get ⟨1, 0⟩, stakeAt t'.forkInfos.get ⟨2, 0⟩)) =
      some (true, true, [], [], 100, 100) := by
    decide +kernel
  simp only [Option.bind_eq_bind, Option.bind_eq_some_iff, Option.some_inj, Prod.mk.injEq] at hchain
  obtain ⟨t₀, hnew, t₁, hadd₁, t, hadd₂, t', hbatches, hroot₀, hroot₁, hvotes₀, hvotes₁, hone,
    htwo⟩ := hchain
  have hunvoted : ∀ (u : HeaviestSubtreeForkChoice ℕ ℕ) (key p : SlotHashKey ℕ),
      u.latestVotes.keys = [] → Unvoted u key p := by
    intro u key p hkeys v hv
    have hmem : v ∈ u.latestVotes.keys := OrdMap.mem_keys.mpr (by rw [hv]; rfl)
    rw [hkeys] at hmem
    cases hmem
  have hreach : Reachable evenStakes Unvoted t :=
    .addNewLeafSlot (.addNewLeafSlot (.new hnew)
      (fun _ => ⟨hroot₀, by decide, hunvoted _ _ _ hvotes₀⟩) hadd₁)
      (fun _ => ⟨hroot₁, by decide, hunvoted _ _ _ hvotes₁⟩) hadd₂
  obtain ⟨u₁, u₂, h₁, h₂, -, -, hsame⟩ := (stake_accounting hreach).2.2
    [[(7, ⟨1, 0⟩), (8, ⟨1, 0⟩)], [(7, ⟨2, 0⟩)]] [[(7, ⟨2, 0⟩)], [(8, ⟨1, 0⟩)], [(7, ⟨1, 0⟩)]]
    (by decide) (by decide) (by intro vote; simp; tauto)
  cases h₁.symm.trans hbatches
  exact ⟨t, t', u₂, hreach, h₁, h₂, (hsame _).1.symm.trans hone, (hsame _).1.symm.trans htwo⟩

end Salsa.ForkChoice
