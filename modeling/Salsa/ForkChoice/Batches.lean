import Salsa.ForkChoice.Aggregate

/-!
# Salsa.ForkChoice.Batches — the batches of votes and marks

The walk that queues aggregates stops at the first ancestor that has one. In a batch where
every operation comes with an aggregate of the parent this misses nothing
(`insertAggregateOperations_spec`), and all batches of the source are of that kind.
-/

namespace Salsa.ForkChoice

open List Function OrdMap Option UpdateOperation

variable {Hash : Type} [LinearOrder Hash] {f : Entries Hash} {infos infos' : ForkInfos Hash}
  {ops ops' : UpdateOperations Hash} {key : SlotHashKey Hash} {a k : SlotHashKey Hash}

/-! ## Aggregates up to the root -/

/-- A batch but for the parent of one block. -/
structure BatchBut (f : Entries Hash) (ops : UpdateOperations Hash) (key : SlotHashKey Hash) :
    Prop where
  labelled : ∀ {k l op}, ops.get (toLex (k, l)) = some op → op.label = l
  closed : ∀ {k l op p}, k ≠ key → ops.get (toLex (k, l)) = some op → parentOf f k = some p →
    ops.get (toLex (p, .aggregate)) = some .aggregate

/-- The aggregates of the ancestors are added. -/
structure AddsAggregates (f : Entries Hash) (ops ops' : UpdateOperations Hash)
    (key : SlotHashKey Hash) : Prop where
  ancestor : ∀ {a}, Ancestor f a key → ops'.get (toLex (a, .aggregate)) = some .aggregate
  other : ∀ {k l}, (l = .aggregate → ¬ Ancestor f k key) →
    ops'.get (toLex (k, l)) = ops.get (toLex (k, l))

theorem ancestor_iff_parent :
    Ancestor f a k ↔ ∃ p, parentOf f k = some p ∧ (a = p ∨ Ancestor f a p) := by
  constructor
  · intro h
    obtain ⟨p, hap, hp⟩ := Relation.TransGen.tail'_iff.mp h
    exact ⟨p, hp, (Relation.reflTransGen_iff_eq_or_transGen.mp hap).imp_left Eq.symm⟩
  · rintro ⟨p, hp, rfl | hap⟩
    · exact .single hp
    · exact .tail hap hp

theorem Wf.ancestor_slot (h : Wf f) (ha : Ancestor f a k) :
    a.slot < k.slot := Forest.Ancestor.rank_lt (F := h.forest) ha

/-- If an ancestor has its aggregate, so do all above it. -/
theorem BatchBut.ancestors (hb : BatchBut f ops key) (h : Wf f) {x : SlotHashKey Hash}
    (hx : x.slot < key.slot) (hagg : ops.get (toLex (x, .aggregate)) = some .aggregate)
    {a : SlotHashKey Hash} (ha : Ancestor f a x) :
    ops.get (toLex (a, .aggregate)) = some .aggregate := by
  induction ha using Relation.TransGen.head_induction_on with
  | single hp =>
    refine hb.closed ?_ hagg hp
    rintro rfl
    exact lt_irrefl _ hx
  | head hp hc ih =>
    refine hb.closed ?_ ih hp
    rintro rfl
    exact lt_asymm hx (h.ancestor_slot hc)

theorem doInsertAcross_cons (p : SlotHashKey Hash) (keys : List (SlotHashKey Hash)) :
    doInsertAcross none ops (p :: keys) = if ops.contains (toLex (p, .aggregate)) then ops
      else doInsertAcross none (ops.insert (toLex (p, .aggregate)) .aggregate) keys := by
  have hone : doInsertAggregateOperation ops none p =
      if ops.contains (toLex (p, .aggregate)) then (ops, false)
      else (ops.insert (toLex (p, .aggregate)) .aggregate, true) := rfl
  rw [doInsertAcross, hone]
  by_cases hmem : ops.contains (toLex (p, .aggregate)) = true
  · rw [if_pos hmem, if_pos hmem]
  · rw [if_neg hmem, if_neg hmem]

theorem doInsertAcross_spec (h : Wf infos.get) {n : ℕ} (hn : key.slot ≤ n)
    (hb : BatchBut infos.get ops key) :
    AddsAggregates infos.get ops (doInsertAcross none ops (ancestorsWithin infos n key)) key := by
  -- up from the block: one ancestor after the other gets its aggregate
  induction n generalizing key ops with
  | zero =>
    constructor
    · intro a ha
      have hlt := h.ancestor_slot ha
      omega
    · exact fun _ => rfl
  | succ n ih =>
    rw [ancestorsWithin]
    cases hp : parent infos key with
    | none =>
      constructor
      · intro a ha
        obtain ⟨p, hp', -⟩ := ancestor_iff_parent.mp ha
        cases hp.symm.trans hp'
      · exact fun _ => rfl
    | some p =>
      have hslot : p.slot < key.slot := h.slot_lt hp
      have hanc : ∀ a, Ancestor infos.get a key ↔ a = p ∨ Ancestor infos.get a p := by
        intro a
        rw [ancestor_iff_parent]
        constructor
        · rintro ⟨p', hp', ha⟩
          cases hp.symm.trans hp'
          exact ha
        · exact fun ha => ⟨p, hp, ha⟩
      rw [elim_some, doInsertAcross_cons]
      by_cases hmem : ops.contains (toLex (p, .aggregate)) = true
      · rw [if_pos hmem]
        obtain ⟨op, hop⟩ := contains_iff.mp hmem
        rw [label_eq_aggregate (hb.labelled hop)] at hop
        constructor
        · intro a ha
          rcases (hanc a).mp ha with rfl | ha
          · exact hop
          · exact hb.ancestors h hslot hop ha
        · exact fun _ => rfl
      · rw [if_neg hmem]
        have hb' : BatchBut infos.get (ops.insert (toLex (p, .aggregate)) .aggregate) p := by
          constructor
          · intro k l op hop
            rw [get_insert] at hop
            split_ifs at hop with heq
            · cases heq
              cases hop
              rfl
            · exact hb.labelled hop
          · intro k l op q hk hop hq
            rw [get_insert_of_ne _ fun heq => hk (congrArg (fun x => (ofLex x).1) heq)]
              at hop
            by_cases hkey : k = key
            · rw [hkey] at hq
              cases hp.symm.trans hq
              exact get_insert_self _ _
            · rw [get_insert]
              split_ifs
              · rfl
              · exact hb.closed hkey hop hq
        have hrest := ih (Nat.le_of_lt_succ (hslot.trans_le hn)) hb'
        constructor
        · intro a ha
          rcases (hanc a).mp ha with rfl | ha
          · rw [hrest.other fun _ hself => lt_irrefl _ (h.ancestor_slot hself)]
            exact get_insert_self _ _
          · exact hrest.ancestor ha
        · intro k l hkl
          rw [hrest.other fun hl ha => hkl hl ((hanc k).mpr (Or.inr ha)), get_insert_of_ne]
          intro heq
          have hkp := congrArg (fun x => (ofLex x).1) heq
          have hl := congrArg (fun x => (ofLex x).2) heq
          exact hkl hl ((hanc k).mpr (Or.inl hkp))

/-- `insert_aggregate_operations` queues the aggregates of all ancestors. -/
theorem insertAggregateOperations_spec (h : Wf infos.get) (hb : BatchBut infos.get ops key) :
    AddsAggregates infos.get ops (insertAggregateOperations infos ops key) key :=
  doInsertAcross_spec h (Nat.le_refl _) hb

theorem AddsAggregates.batch (ha : AddsAggregates f ops ops' key) (hb : BatchBut f ops key) :
    Batch f ops' := by
  -- an operation is one of before or a new aggregate
  have hcases : ∀ {k l op}, ops'.get (toLex (k, l)) = some op →
      ops.get (toLex (k, l)) = some op ∨ (l = .aggregate ∧ op = .aggregate ∧ Ancestor f k key) := by
    intro k l op hop
    by_cases hnew : l = .aggregate ∧ Ancestor f k key
    · obtain ⟨rfl, hanc⟩ := hnew
      rw [ha.ancestor hanc] at hop
      cases hop
      exact Or.inr ⟨rfl, rfl, hanc⟩
    · rw [ha.other fun hl hanc => hnew ⟨hl, hanc⟩] at hop
      exact Or.inl hop
  constructor
  · intro k l op hop
    rcases hcases hop with hold | ⟨rfl, rfl, -⟩
    · exact hb.labelled hold
    · rfl
  · intro k l op p hop hp
    by_cases hpa : Ancestor f p key
    · exact ha.ancestor hpa
    · rw [ha.other fun _ => hpa]
      rcases hcases hop with hold | ⟨-, -, hk⟩
      · refine hb.closed ?_ hold hp
        rintro rfl
        exact hpa (.single hp)
      · exact (hpa (.head hp hk)).elim

theorem Batch.but (hb : Batch f ops) (key : SlotHashKey Hash) : BatchBut f ops key :=
  ⟨hb.labelled, fun _ => hb.closed⟩

theorem batch_empty (f : Entries Hash) : Batch f (.empty : UpdateOperations Hash) := by
  constructor
  · intro k l op hop
    cases hop
  · intro k l op p hop
    cases hop

/-! ## Marks -/

def UpdateOperation.IsMark (op : UpdateOperation) : Prop :=
  ∃ slot, op = .markValid slot ∨ op = .markInvalid slot

section Marks

variable {mark : UpdateOperation}

theorem UpdateOperation.IsMark.label_ne (hm : mark.IsMark) : mark.label ≠ .aggregate := by
  obtain ⟨slot, rfl | rfl⟩ := hm <;> exact fun h => by cases h

/-- The operations of a mark on one block. -/
def markAt (mark : UpdateOperation) (label : UpdateLabel) : Option UpdateOperation :=
  if label = .aggregate then some .aggregate else if label = mark.label then some mark else none

theorem doInsertAggregateOperation_mark (hm : mark.IsMark)
    (hfresh : ops.get (toLex (key, .aggregate)) = none) :
    (doInsertAggregateOperation ops (some mark) key).1 =
      (ops.insert (toLex (key, mark.label)) mark).insert (toLex (key, .aggregate)) .aggregate := by
  have hmem : ¬ ops.contains (toLex (key, .aggregate)) = true := by
    rw [OrdMap.contains, hfresh]
    exact Bool.false_ne_true
  obtain ⟨slot, rfl | rfl⟩ := hm <;> rw [doInsertAggregateOperation, if_neg hmem] <;> rfl

theorem foldl_mark (ops : UpdateOperations Hash) (hm : mark.IsMark) {keys : List (SlotHashKey Hash)}
    (hnodup : keys.Nodup) (hfresh : ∀ k ∈ keys, ∀ l, ops.get (toLex (k, l)) = none)
    (k : SlotHashKey Hash) (l : UpdateLabel) :
    (keys.foldl (fun ops child => (doInsertAggregateOperation ops (some mark) child).1) ops).get
      (toLex (k, l)) = if k ∈ keys then markAt mark l else ops.get (toLex (k, l)) := by
  induction keys generalizing ops with
  | nil => rw [if_neg not_mem_nil, foldl_nil]
  | cons c keys ih =>
    obtain ⟨hc, hnodup'⟩ := nodup_cons.mp hnodup
    rw [foldl_cons, doInsertAggregateOperation_mark hm (hfresh c mem_cons_self _)]
    -- the operations on the first block
    have hget : ∀ j l, ((ops.insert (toLex (c, mark.label)) mark).insert
        (toLex (c, .aggregate)) .aggregate).get (toLex (j, l)) =
          if j = c then markAt mark l else ops.get (toLex (j, l)) := by
      intro j l
      rw [get_insert, get_insert, markAt]
      by_cases hj : j = c
      · rw [hj, if_pos rfl, hfresh c mem_cons_self]
        exact if_congr (by simp) rfl (if_congr (by simp) rfl rfl)
      · have hne : ∀ l', toLex (j, l) ≠ toLex (c, l') :=
          fun l' heq => hj (congrArg (fun x => (ofLex x).1) heq)
        rw [if_neg hj, if_neg (hne _), if_neg (hne _)]
    rw [ih _ hnodup' fun j hj l => by
      rw [hget, if_neg fun hjc : j = c => hc (hjc ▸ hj)]
      exact hfresh j (mem_cons_of_mem c hj) l]
    rw [hget]
    by_cases hk : k = c
    · rw [if_neg (hk ▸ hc), if_pos hk, if_pos (mem_cons.mpr (Or.inl hk))]
    · rw [if_neg hk]
      exact if_congr (mem_cons.trans (or_iff_right hk)).symm rfl rfl

/-- A strictly ordered list with one element. -/
theorem eq_singleton_of_pairwise {α : Type} {r : α → α → Prop} {a : α} {l : List α}
    (hl : l.Pairwise r) (hirr : ¬ r a a) (hmem : a ∈ l) (hall : ∀ b ∈ l, b = a) : l = [a] := by
  cases l with
  | nil => cases hmem
  | cons b l =>
    have hb := hall b mem_cons_self
    cases l with
    | nil => rw [hb]
    | cons c l =>
      have hc := hall c (mem_cons_of_mem b mem_cons_self)
      have hbc := (pairwise_cons.mp hl).1 c mem_cons_self
      rw [hb, hc] at hbc
      exact (hirr hbc).elim

variable {Pubkey : Type} [LinearOrder Pubkey] {t : HeaviestSubtreeForkChoice Hash Pubkey}
  {R : OrdSet (SlotHashKey Hash)}

/-- The batch of a mark on the blocks of `R`, which hangs together from `key` on. -/
theorem markOperations_spec (h : Wf t.forkInfos.get) (hm : mark.IsMark)
    (hR : ∀ x ∈ R.keys, x ≠ key → ∃ p ∈ R.keys, parentOf t.forkInfos.get x = some p) :
    Batch t.forkInfos.get (t.markOperations mark key R) ∧
      AddsAggregates t.forkInfos.get
        (R.keys.foldl (fun ops child => (doInsertAggregateOperation ops (some mark) child).1)
          .empty)
        (t.markOperations mark key R) key := by
  have hget := foldl_mark .empty hm (keys_nodup (m := R)) fun k _ l => rfl
  have hbut : BatchBut t.forkInfos.get
      (R.keys.foldl (fun ops child => (doInsertAggregateOperation ops (some mark) child).1) .empty)
      key := by
    constructor
    · intro k l op hop
      rw [hget] at hop
      split_ifs at hop with hk
      · unfold markAt at hop
        split_ifs at hop with hagg hlabel
        · cases hop
          exact hagg.symm
        · cases hop
          exact hlabel.symm
      · cases hop
    · intro k l op p hk hop hp
      rw [hget] at hop
      split_ifs at hop with hmem
      · obtain ⟨p', hp', hpar⟩ := hR k hmem hk
        cases hp.symm.trans hpar
        rw [hget, if_pos hp', markAt, if_pos rfl]
      · cases hop
  have hadds := insertAggregateOperations_spec h hbut
  exact ⟨hadds.batch hbut, hadds⟩

/-- The operations of a mark: the mark and an aggregate on the blocks of `R`, an aggregate
on their ancestors, and none elsewhere. -/
theorem markOperations_opsAt (h : Wf t.forkInfos.get) (hm : mark.IsMark)
    (hR : ∀ x ∈ R.keys, x ≠ key → ∃ p ∈ R.keys, parentOf t.forkInfos.get x = some p)
    (k : SlotHashKey Hash) :
    (k ∈ R.keys → opsAt (t.markOperations mark key R) k = [mark, .aggregate]) ∧
      (k ∉ R.keys → Ancestor t.forkInfos.get k key →
        opsAt (t.markOperations mark key R) k = [.aggregate]) ∧
      (k ∉ R.keys → ¬ Ancestor t.forkInfos.get k key →
        opsAt (t.markOperations mark key R) k = []) := by
  obtain ⟨hbatch, hadds⟩ := markOperations_spec h hm hR
  have hget := foldl_mark .empty hm (keys_nodup (m := R)) fun k _ l => rfl
  have hsorted := hbatch.opsAt_sorted (k := k)
  have hirr : ∀ op : UpdateOperation, ¬ op.label < op.label := fun op => lt_irrefl _
  refine ⟨?_, ?_, ?_⟩
  · intro hk
    have hmark : ∀ l, (t.markOperations mark key R).get (toLex (k, l)) = markAt mark l := by
      intro l
      by_cases hnew : l = .aggregate ∧ Ancestor t.forkInfos.get k key
      · rw [hnew.1, hadds.ancestor hnew.2, markAt, if_pos rfl]
      · rw [hadds.other fun hl hanc => hnew ⟨hl, hanc⟩, hget, if_pos hk]
    have hmem : ∀ op, op ∈ opsAt (t.markOperations mark key R) k ↔ op = .aggregate ∨ op = mark := by
      intro op
      rw [mem_opsAt]
      constructor
      · rintro ⟨l, hl⟩
        rw [hmark, markAt] at hl
        split_ifs at hl
        · exact Or.inl (some.inj hl).symm
        · exact Or.inr (some.inj hl).symm
      · rintro (rfl | rfl)
        · exact ⟨.aggregate, by rw [hmark, markAt, if_pos rfl]⟩
        · exact ⟨op.label, by rw [hmark, markAt, if_neg hm.label_ne, if_pos rfl]⟩
    obtain ⟨l, hl, hne⟩ := hbatch.opsAt_aggregate ((hmem _).mpr (Or.inl rfl))
    rw [hl] at hsorted hmem
    have hmarkmem : mark ∈ l := by
      rcases mem_append.mp ((hmem mark).mpr (Or.inr rfl)) with hmem' | hmem'
      · exact hmem'
      · exact (hm.label_ne (congrArg label (mem_singleton.mp hmem'))).elim
    rw [hl, eq_singleton_of_pairwise (pairwise_append.mp hsorted).1 (hirr mark) hmarkmem
      fun op hop => ((hmem op).mp (mem_append_left _ hop)).resolve_left (hne op hop)]
    rfl
  · intro hk hanc
    have hmem : ∀ op ∈ opsAt (t.markOperations mark key R) k, op = .aggregate := by
      intro op hop
      obtain ⟨l, hl⟩ := mem_opsAt.mp hop
      by_cases hagg : l = .aggregate
      · rw [hagg, hadds.ancestor hanc] at hl
        exact (some.inj hl).symm
      · rw [hadds.other fun heq => (hagg heq).elim, hget, if_neg hk] at hl
        cases hl
    exact eq_singleton_of_pairwise hsorted (hirr .aggregate)
      (mem_opsAt.mpr ⟨_, hadds.ancestor hanc⟩) hmem
  · intro hk hanc
    apply eq_nil_iff_forall_not_mem.mpr
    intro op hop
    obtain ⟨l, hl⟩ := mem_opsAt.mp hop
    rw [hadds.other fun _ => hanc, hget, if_neg hk] at hl
    cases hl

end Marks

/-! ## No panic -/

/-- What a batch needs not to panic: nothing is subtracted that is not there, and the blocks
that are marked invalid are not duplicate confirmed, nor become so (`U`). -/
structure Ready (f : Entries Hash) (ops : UpdateOperations Hash) (U : SlotHashKey Hash → Prop) :
    Prop where
  closed : ∀ {k c}, U k → c ∈ childrenOf f k → U c
  unconfirmed : ∀ {k i}, U k → f k = some i → i.isDuplicateConfirmed = false
  valid : ∀ {k s}, U k → .markValid s ∉ opsAt ops k
  invalid : ∀ {k s i}, .markInvalid s ∈ opsAt ops k → f k = some i → U k
  subtract : ∀ {k s i}, .subtract s ∈ opsAt ops k → f k = some i → s ≤ i.stakeVotedAt
  stake : ∀ {k i}, f k = some i → i.stakeVotedAt ≤ i.stakeVotedSubtree

/-- The entries during the batch. -/
structure Meanwhile (f : Entries Hash) (U : SlotHashKey Hash → Prop) (g : Entries Hash) : Prop where
  keeps : Keeps f g
  unconfirmed : ∀ {k j}, U k → g k = some j → j.isDuplicateConfirmed = false

section Progress

variable {U : SlotHashKey Hash → Prop} {g : Entries Hash} {k : SlotHashKey Hash}
  {i j : ForkInfo Hash} {op : UpdateOperation} {i₀ : ForkInfo Hash}

theorem label_le_subtract (label : UpdateLabel) : label ≤ .subtract := by
  cases label with
  | subtract => exact le_refl _
  | _ => exact Prod.Lex.toLex_le_toLex.mpr (Or.inl (by simp))

theorem effect_unconfirmed (hop : ∀ s, op ≠ .markValid s) (hk : k ∉ i.children.keys)
    (hchildren : ∀ c ∈ i.children.keys, confirmedOf g c = false) (h : op.effect g k i = some j)
    (hi : i.isDuplicateConfirmed = false) : j.isDuplicateConfirmed = false := by
  cases op with
  | add stake =>
    cases h
    exact hi
  | markValid s => exact (hop s rfl).elim
  | markInvalid s =>
    rw [effect, updateWithNewlyInvalidAncestor_eq s hi] at h
    cases h
    exact hi
  | subtract stake =>
    rw [effect] at h
    split_ifs at h
    cases h
    exact hi
  | aggregate =>
    rw [(aggregateInfo_spec hk h).2.2.2.2.2.1, hi, Bool.false_or]
    exact any_eq_false.mpr fun c hc => Bool.eq_false_iff.mp (hchildren c hc)

theorem Meanwhile.children (hm : Meanwhile f U g) (hr : Ready f ops U) (hk : U k)
    (hi : f k = some i) : ∀ c ∈ i.children.keys, confirmedOf g c = false := by
  intro c hc
  rw [← childrenOf_of_some hi] at hc
  cases hg : g c with
  | none => rw [confirmedOf, hg]; rfl
  | some j =>
    rw [confirmedOf, hg]
    exact hm.unconfirmed (hr.closed hk hc) hg

/-- An operation that is due does not panic. -/
theorem effect_isSome (habove : ChildrenAbove f) (hr : Ready f ops U) (hm : Meanwhile f U g)
    (hi₀ : f k = some i₀) (hkept : Kept i₀ i) (hop : op ∈ opsAt ops k)
    (hsub : ∀ s, op = .subtract s → s ≤ i.stakeVotedAt) (hle : i.stakeVotedAt ≤ i.stakeVotedSubtree)
    (hconf : U k → i.isDuplicateConfirmed = false) : ∃ j, op.effect g k i = some j := by
  cases op with
  | add stake => exact ⟨_, rfl⟩
  | markValid s => exact ⟨_, rfl⟩
  | markInvalid s =>
    exact ⟨_, updateWithNewlyInvalidAncestor_eq s (hconf (hr.invalid hop hi₀))⟩
  | subtract stake =>
    have hs := hsub stake rfl
    rw [effect, if_pos ⟨hs, hs.trans hle⟩]
    exact ⟨_, rfl⟩
  | aggregate =>
    have hmem : ∀ c ∈ i.children.keys, ∃ j, g c = some j := by
      intro c hc
      rw [hkept.children, ← childrenOf_of_some hi₀] at hc
      obtain ⟨l, hl⟩ := (habove k c hc).2
      obtain ⟨j, hj, -⟩ := hm.keeps.to_some hl
      exact ⟨j, hj⟩
    obtain ⟨a, ha⟩ := Aggregation.loop_isSome hmem (Aggregation.start k i)
    exact ⟨_, map_eq_some_iff.mpr ⟨a, ha, rfl⟩⟩

theorem effect_stake_le (hk : k ∉ i.children.keys) (h : op.effect g k i = some j)
    (hle : i.stakeVotedAt ≤ i.stakeVotedSubtree) : j.stakeVotedAt ≤ j.stakeVotedSubtree := by
  by_cases hop : op = .aggregate
  · rw [hop] at h
    have hstake := (aggregateInfo_spec hk h).1
    rw [StakeOk] at hstake
    omega
  · exact ((effect_fields hop h).2.2.2 hle).1

theorem succeeds_at (habove : ChildrenAbove f) (hr : Ready f ops U)
    (hi₀ : f k = some i₀) {l : List ((SlotHashKey Hash ×ₗ UpdateLabel) × UpdateOperation)}
    (hl : ∀ e ∈ l, opKey e = k ∧ e.2 ∈ opsAt ops k)
    (hsorted : (l.map Prod.snd).Pairwise fun a b => b.label < a.label) (hkept : Kept i₀ i)
    (hsub : ∀ s, .subtract s ∈ l.map Prod.snd → s ≤ i.stakeVotedAt)
    (hle : i.stakeVotedAt ≤ i.stakeVotedSubtree) (hconf : U k → i.isDuplicateConfirmed = false) :
    Sweep.Succeeds opEffect (Meanwhile f U) l (some i) := by
  induction l generalizing i with
  | nil => trivial
  | cons e l ih =>
    intro g hg
    obtain ⟨hkey, hop⟩ := hl e mem_cons_self
    obtain ⟨hfirst, hrest⟩ := pairwise_cons.mp hsorted
    obtain ⟨j, hj⟩ := effect_isSome habove hr hg hi₀ hkept hop
      (fun s hs => hsub s (hs ▸ mem_cons_self)) hle hconf
    have hk : k ∉ i.children.keys := by
      rw [hkept.children, ← childrenOf_of_some hi₀]
      exact fun hk => lt_irrefl k (habove k k hk).1
    refine ⟨some j, ?_, ?_⟩
    · rw [opEffect, hkey, hj]
      rfl
    · apply ih (fun e' he' => hl e' (mem_cons_of_mem e he')) hrest (hkept.trans (effect_kept hj))
      · -- a subtraction comes first
        intro s hs
        exact absurd (hfirst _ hs) (label_le_subtract _).not_gt
      · exact effect_stake_le hk hj hle
      · intro hUk
        refine effect_unconfirmed ?_ hk ?_ hj (hconf hUk)
        · rintro s hs
          exact hr.valid hUk (hs ▸ hop)
        · rw [hkept.children]
          exact hg.children hr hUk hi₀

/-- A batch that is ready does not panic. -/
theorem process_isSome (habove : ChildrenAbove infos.get) (hb : Batch f ops)
    (hr : Ready infos.get ops U) : ∃ infos', processUpdateOperations infos ops = some infos' := by
  have hstart : Meanwhile infos.get U infos.get := ⟨.refl _, hr.unconfirmed⟩
  have hkeep : ∀ e ∈ ops.entries.reverse, ∀ g v, Meanwhile infos.get U g →
      opEffect e g (g (opKey e)) = some v →
      Meanwhile infos.get U (update g (opKey e) v) := by
    intro e he g v hg hv
    refine ⟨opEffect_keeps hg.keeps hv, ?_⟩
    intro k j hUk hj
    by_cases hk : k = opKey e
    · rw [hk, update_self] at hj
      rw [hj] at hv
      cases hgk : g (opKey e) with
      | none =>
        rw [hgk] at hv
        cases hv
      | some i =>
        rw [hgk] at hv
        obtain ⟨j', hj', heq⟩ := map_eq_some_iff.mp hv
        cases heq
        obtain ⟨i₀, hi₀, hkept⟩ := hg.keeps.of_some hgk
        rw [hk] at hUk
        have hop : e.2 ∈ opsAt ops (opKey e) :=
          mem_opsAt.mpr ⟨(ofLex e.1).2, mem_entries.mp (mem_reverse.mp he)⟩
        refine effect_unconfirmed ?_ ?_ ?_ hj' (hg.unconfirmed hUk hgk)
        · intro s hs
          exact hr.valid hUk (hs ▸ hop)
        · rw [hkept.children, ← childrenOf_of_some hi₀]
          exact fun hmem => lt_irrefl _ (habove _ _ hmem).1
        · rw [hkept.children]
          exact hg.children hr hUk hi₀
    · rw [update_of_ne hk] at hj
      exact hg.unconfirmed hUk hj
  obtain ⟨g, hg⟩ := Sweep.run_isSome hstart hkeep fun k => by
    cases hk : infos.get k with
    | none =>
      -- operations on a block that is not there
      generalize Sweep.at_ opKey k ops.entries.reverse = l
      induction l with
      | nil => trivial
      | cons e l ih => exact fun g hg => ⟨none, rfl, ih⟩
    | some i =>
      apply succeeds_at habove hr hk
      · intro e he
        exact ⟨(mem_at_iff.mp he).1, mem_map_of_mem he⟩
      · exact hb.opsAt_sorted
      · exact .refl i
      · exact fun s hs => hr.subtract hs hk
      · exact hr.stake hk
      · exact fun hUk => hr.unconfirmed hUk hk
  have hrun := processUpdateOperations_run infos ops
  rw [hg] at hrun
  obtain ⟨infos', hinfos', -⟩ := map_eq_some_iff.mp hrun
  exact ⟨infos', hinfos'⟩

end Progress

end Salsa.ForkChoice
