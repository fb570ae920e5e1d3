import Salsa.Lib.Sweep
import Salsa.ForkChoice.Structure

/-!
# Salsa.ForkChoice.Process — what a batch of update operations does

`process_update_operations` is a sweep from the greatest block down: an operation changes
its own block and reads the blocks above it, so the entry of a block is that of its own
operations, run on the entries of the outcome (`process_at`).

`Local`: a property of an entry and those of its children that an `Aggregate` establishes
and no other operation breaks. A batch in which every operation comes with an `Aggregate`
of the parent keeps such a property (`process_local`).
-/

namespace Salsa.ForkChoice

open List Function OrdMap Option

variable {Hash : Type} [LinearOrder Hash]

/-! ## Operations as effects on one entry -/

/-- The label under which an operation is filed. -/
def UpdateOperation.label : UpdateOperation → UpdateLabel
  | add _ => .add
  | markValid slot => .markValid slot
  | markInvalid slot => .markInvalid slot
  | subtract _ => .subtract
  | aggregate => .aggregate

/-- What an operation does to the entry of its block. -/
def UpdateOperation.effect (get : Entries Hash) (key : SlotHashKey Hash) (info : ForkInfo Hash) :
    UpdateOperation → Option (ForkInfo Hash)
  | markValid validSlot =>
      let info := info.updateWithNewlyValidAncestor validSlot
      some (if key.slot = validSlot then { info with isDuplicateConfirmed := true } else info)
  | markInvalid invalidSlot => info.updateWithNewlyInvalidAncestor invalidSlot
  | aggregate => aggregateInfo get key info
  | add stake => some { info with
      stakeVotedAt := info.stakeVotedAt + stake
      stakeVotedSubtree := info.stakeVotedSubtree + stake }
  | subtract stake =>
      if stake ≤ info.stakeVotedAt ∧ stake ≤ info.stakeVotedSubtree then
        some { info with
          stakeVotedAt := info.stakeVotedAt - stake
          stakeVotedSubtree := info.stakeVotedSubtree - stake }
      else none

variable (infos : ForkInfos Hash)

theorem processUpdateOperation_eq (key : SlotHashKey Hash) (op : UpdateOperation) :
    processUpdateOperation infos key op = updateInfo infos key fun info =>
      op.effect infos.get key info := by
  cases op <;> rfl

theorem updateWithNewlyValidAncestor_eq (info : ForkInfo Hash) (slot : ℕ) :
    info.updateWithNewlyValidAncestor slot = { info with
      latestInvalidAncestor := info.latestInvalidAncestor.filter fun latest => slot < latest } := by
  unfold ForkInfo.updateWithNewlyValidAncestor
  rcases info with ⟨_, _, _, _, _, _, _, _ | latest, _⟩
  · rfl
  · dsimp only
    by_cases hle : latest ≤ slot
    · rw [if_pos hle, filter_some, if_neg (by simpa using hle)]
    · rw [if_neg hle, filter_some, if_pos (by simpa using hle)]

variable {info info' : ForkInfo Hash}

theorem updateWithNewlyInvalidAncestor_eq (slot : ℕ) (h : info.isDuplicateConfirmed = false) :
    info.updateWithNewlyInvalidAncestor slot = some { info with
      latestInvalidAncestor := some (info.latestInvalidAncestor.elim slot (max slot)) } := by
  unfold ForkInfo.updateWithNewlyInvalidAncestor
  rw [if_neg (Bool.eq_false_iff.mp h)]
  rcases info with ⟨_, _, _, _, _, _, _, _ | latest, _⟩
  · rfl
  · show (if decide (latest < slot) = true then _ else _) = _
    by_cases hlt : latest < slot
    · rw [if_pos (decide_eq_true hlt), elim_some, max_eq_left hlt.le]
    · rw [if_neg (by simpa using hlt), elim_some, max_eq_right (not_lt.mp hlt)]

/-- A mark of a duplicate confirmed block as invalid is the panic. -/
theorem confirmed_of_updateWithNewlyInvalidAncestor {slot : ℕ}
    (h : info.updateWithNewlyInvalidAncestor slot = some info') :
    info.isDuplicateConfirmed = false := by
  unfold ForkInfo.updateWithNewlyInvalidAncestor at h
  by_contra hconf
  rw [if_pos (Bool.not_eq_false _ ▸ hconf)] at h
  cases h

theorem finish_kept (a : Aggregation Hash) (info : ForkInfo Hash) : Kept info (a.finish info) := by
  unfold Aggregation.finish
  by_cases ha : a.isDuplicateConfirmed = true
  · rw [if_pos ha]
    exact ⟨rfl, rfl, fun _ => rfl⟩
  · rw [if_neg ha]
    exact ⟨rfl, rfl, id⟩

variable {key k : SlotHashKey Hash} {op : UpdateOperation} {ops : UpdateOperations Hash}
  {entry : (SlotHashKey Hash ×ₗ UpdateLabel) × UpdateOperation} {f g : Entries Hash}
  {l : List UpdateOperation} {i j : ForkInfo Hash}

theorem effect_kept {get : Entries Hash}
    (h : op.effect get key info = some info') : Kept info info' := by
  cases op with
  | add stake =>
    cases h
    exact ⟨rfl, rfl, id⟩
  | markValid slot =>
    rw [UpdateOperation.effect, updateWithNewlyValidAncestor_eq] at h
    cases h
    split_ifs
    · exact ⟨rfl, rfl, fun _ => rfl⟩
    · exact ⟨rfl, rfl, id⟩
  | markInvalid slot =>
    have hconf := confirmed_of_updateWithNewlyInvalidAncestor h
    rw [UpdateOperation.effect, updateWithNewlyInvalidAncestor_eq slot hconf] at h
    cases h
    exact ⟨rfl, rfl, id⟩
  | subtract stake =>
    rw [UpdateOperation.effect] at h
    split_ifs at h
    cases h
    exact ⟨rfl, rfl, id⟩
  | aggregate =>
    obtain ⟨a, -, rfl⟩ := map_eq_some_iff.mp h
    exact finish_kept a info

/-- An `Aggregate` reads the children only. -/
theorem aggregateInfo_congr (h : ∀ c ∈ info.children.keys, f c = g c) :
    aggregateInfo f key info = aggregateInfo g key info := by
  have hloop : ∀ (l : List (SlotHashKey Hash)) (a : Aggregation Hash), (∀ c ∈ l, f c = g c) →
      Aggregation.loop f key l a = Aggregation.loop g key l a := by
    intro l
    induction l with
    | nil => exact fun _ _ => rfl
    | cons c l ih =>
      intro a hl
      unfold Aggregation.loop at ih ⊢
      rw [foldlM_cons, foldlM_cons, hl c mem_cons_self]
      congr 1
      funext a'
      exact ih a' fun c' hc' => hl c' (mem_cons_of_mem c hc')
  rw [aggregateInfo, aggregateInfo, hloop _ _ h]

theorem effect_congr (op : UpdateOperation)
    (h : ∀ c ∈ info.children.keys, f c = g c) : op.effect f key info = op.effect g key info := by
  cases op with
  | aggregate => exact aggregateInfo_congr h
  | _ => rfl

/-! ## A batch as a sweep -/

def opKey (entry : (SlotHashKey Hash ×ₗ UpdateLabel) × UpdateOperation) : SlotHashKey Hash :=
  (ofLex entry.1).1

/-- An operation on a block without an entry does nothing. -/
def opEffect (entry : (SlotHashKey Hash ×ₗ UpdateLabel) × UpdateOperation) (get : Entries Hash) :
    Option (ForkInfo Hash) → Option (Option (ForkInfo Hash))
  | none => some none
  | some info => (entry.2.effect get (opKey entry) info).map some

theorem updateInfo_get (entry : (SlotHashKey Hash ×ₗ UpdateLabel) × UpdateOperation) :
    (processUpdateOperation infos (opKey entry) entry.2).map get =
      (opEffect entry infos.get (infos.get (opKey entry))).map
        (update infos.get (opKey entry)) := by
  rw [processUpdateOperation_eq, updateInfo]
  cases hget : infos.get (opKey entry) with
  | none =>
    show some infos.get = some (update infos.get (opKey entry) none)
    rw [← hget, update_eq_self]
  | some info =>
    show ((entry.2.effect infos.get (opKey entry) info).map (infos.insert (opKey entry))).map
      get = ((entry.2.effect infos.get (opKey entry) info).map some).map _
    rw [Option.map_map, Option.map_map]
    congr 1
    funext info'
    exact get_insert_eq_update (opKey entry) info'

theorem processUpdateOperations_run (ops : UpdateOperations Hash) :
    (processUpdateOperations infos ops).map get =
      Sweep.run opKey opEffect ops.entries.reverse infos.get := by
  unfold processUpdateOperations
  generalize ops.entries.reverse = l
  induction l generalizing infos with
  | nil => rfl
  | cons e l ih =>
    have hstep := updateInfo_get infos e
    show (bind (processUpdateOperation infos (opKey e) e.2) _).map get = bind _ _
    cases hop : processUpdateOperation infos (opKey e) e.2 with
    | none =>
      rw [hop] at hstep
      rw [map_eq_none_iff.mp hstep.symm]
      rfl
    | some infos' =>
      rw [hop] at hstep
      obtain ⟨v, hv, hupd⟩ := map_eq_some_iff.mp hstep.symm
      rw [hv]
      show Option.map get (foldlM _ infos' l) = Sweep.run opKey opEffect l _
      rw [hupd]
      exact ih infos'

/-- The operations on a block, in the order in which they are processed. -/
def opsAt (ops : UpdateOperations Hash) (key : SlotHashKey Hash) : List UpdateOperation :=
  (Sweep.at_ opKey key ops.entries.reverse).map Prod.snd

theorem mem_at_iff
    :
    entry ∈ Sweep.at_ opKey key ops.entries.reverse ↔
      opKey entry = key ∧ ops.get entry.1 = some entry.2 := by
  rw [Sweep.at_, mem_filter, mem_reverse, decide_eq_true_iff, and_comm]
  exact and_congr_right fun _ => mem_entries

theorem mem_opsAt : op ∈ opsAt ops key ↔ ∃ label, ops.get (toLex (key, label)) = some op := by
  constructor
  · intro h
    obtain ⟨entry, hentry, rfl⟩ := mem_map.mp h
    obtain ⟨rfl, hget⟩ := mem_at_iff.mp hentry
    exact ⟨(ofLex entry.1).2, hget⟩
  · rintro ⟨label, hget⟩
    exact mem_map.mpr ⟨(toLex (key, label), op), mem_at_iff.mpr ⟨rfl, hget⟩, rfl⟩

/-- The entries grow upwards: a child is above its parent. -/
def ChildrenAbove (f : Entries Hash) : Prop :=
  ∀ k c, c ∈ childrenOf f k → k < c ∧ ∃ i, f c = some i

theorem Wf.childrenAbove (h : Wf f) : ChildrenAbove f := by
  intro k c hc
  obtain ⟨i, hi, -⟩ := parentOf_eq_some.mp (h.child_mem hc)
  exact ⟨h.child_lt hc, i, hi⟩

section Sweep

variable {infos infos' : ForkInfos Hash}

theorem entries_sorted (ops : UpdateOperations Hash) :
    ops.entries.reverse.Pairwise fun a b => opKey b ≤ opKey a := by
  apply pairwise_reverse.mpr
  apply ops.sorted.imp
  intro a b hab
  rcases Prod.Lex.lt_iff.mp hab with hlt | heq
  · exact hlt.le
  · exact heq.1.le

theorem opEffect_keeps (hfg : Keeps f g) {v : Option (ForkInfo Hash)}
    (hv : opEffect entry g (g (opKey entry)) = some v) :
    Keeps f (update g (opKey entry) v) := by
  cases hg : g (opKey entry) with
  | none =>
    rw [hg] at hv
    cases hv
    rw [← hg, update_eq_self]
    exact hfg
  | some i =>
    rw [hg] at hv
    obtain ⟨j, hj, rfl⟩ := map_eq_some_iff.mp hv
    exact hfg.update hg (effect_kept hj)

section

variable (h : processUpdateOperations infos ops = some infos')
include h

theorem process_keeps : Keeps infos.get infos'.get := by
  have hrun := processUpdateOperations_run infos ops
  rw [h] at hrun
  exact Sweep.run_inv (.refl _) (fun _ _ g _ hg hv => opEffect_keeps hg hv) hrun.symm

/-- The entry of a block after a batch: its own operations, run on the outcome. -/
theorem process_at (habove : ChildrenAbove infos.get) {i : ForkInfo Hash}
    (hk : infos.get k = some i) :
    ∃ j, infos'.get k = some j ∧
      (opsAt ops k).foldlM (fun i op => op.effect infos'.get k i) i = some j := by
  have hrun := processUpdateOperations_run infos ops
  rw [h] at hrun
  have hat := Sweep.run_eq (E := Keeps infos.get) (.refl _)
    (fun _ _ g _ hg hv => opEffect_keeps hg hv) hrun.symm (entries_sorted ops) (by
      intro entry _ f g hf hfg
      cases hkey : f (opKey entry) with
      | none => rfl
      | some j =>
        have hchildren : ∀ c ∈ j.children.keys, f c = g c := by
          intro c hc
          apply hfg
          apply (habove _ c _).1
          rw [← hf.childrenOf_eq, childrenOf_of_some hkey]
          exact hc
        show (entry.2.effect f _ j).map some = (entry.2.effect g _ j).map some
        rw [effect_congr entry.2 hchildren]) k
  obtain ⟨j, hj, -⟩ := (process_keeps h).to_some hk
  refine ⟨j, hj, ?_⟩
  rw [hk, hj] at hat
  -- the same fold, over the operations of the block
  have hfold : ∀ (l : List ((SlotHashKey Hash ×ₗ UpdateLabel) × UpdateOperation))
      (i : ForkInfo Hash), (∀ e ∈ l, opKey e = k) →
      l.foldlM (fun v o => opEffect o infos'.get v) (some i) =
        ((l.map Prod.snd).foldlM (fun i (op : UpdateOperation) => op.effect infos'.get k i) i).map
          some := by
    intro l
    induction l with
    | nil => exact fun _ _ => rfl
    | cons e l ih =>
      intro i hl
      have he := hl e mem_cons_self
      rw [foldlM_cons, map_cons, foldlM_cons]
      show bind ((e.2.effect infos'.get (opKey e) i).map some) _ = Option.map some (Option.bind _ _)
      rw [he]
      cases e.2.effect infos'.get k i with
      | none => rfl
      | some i' => exact ih i' fun e' he' => hl e' (mem_cons_of_mem e he')
  rw [hfold _ i fun e he => (mem_at_iff.mp he).1] at hat
  obtain ⟨j', hj', heq⟩ := map_eq_some_iff.mp hat
  cases heq
  exact hj'

theorem process_unchanged (habove : ChildrenAbove infos.get)
    (hk : opsAt ops k = []) : infos'.get k = infos.get k := by
  cases hget : infos.get k with
  | none => exact (process_keeps h).eq_none hget
  | some i =>
    obtain ⟨j, hj, hfold⟩ := process_at h habove hget
    rw [hk] at hfold
    cases hfold
    exact hj

end

end Sweep

/-! ## Batches -/

/-- Every operation is filed under its label, and comes with an `Aggregate` of the parent
of its block. -/
structure Batch (f : Entries Hash) (ops : UpdateOperations Hash) : Prop where
  labelled : ∀ {k l op}, ops.get (toLex (k, l)) = some op → op.label = l
  closed : ∀ {k l op p}, ops.get (toLex (k, l)) = some op → parentOf f k = some p →
    ops.get (toLex (p, .aggregate)) = some .aggregate

theorem UpdateOperation.label_eq_aggregate (h : op.label = .aggregate) : op = .aggregate := by
  cases op <;> first | rfl | cases h

namespace Batch

theorem aggregate_mem (hb : Batch f ops) :
    .aggregate ∈ opsAt ops k ↔ ops.get (toLex (k, .aggregate)) = some .aggregate := by
  rw [mem_opsAt]
  constructor
  · rintro ⟨label, hget⟩
    have hlabel := hb.labelled hget
    rw [← hlabel] at hget
    exact hget
  · exact fun hget => ⟨_, hget⟩

/-- The greatest label first. -/
theorem opsAt_sorted (hb : Batch f ops) : (opsAt ops k).Pairwise fun a b => b.label < a.label := by
  apply pairwise_map.mpr
  have hsorted : (Sweep.at_ opKey k ops.entries.reverse).Pairwise fun a b => b.1 < a.1 :=
    (pairwise_reverse.mpr ops.sorted).filter _
  apply hsorted.imp_of_mem
  intro a b ha hb' hab
  obtain ⟨hak, hag⟩ := mem_at_iff.mp ha
  obtain ⟨hbk, hbg⟩ := mem_at_iff.mp hb'
  rw [hb.labelled (l := (ofLex a.1).2) hag, hb.labelled (l := (ofLex b.1).2) hbg]
  rcases Prod.Lex.lt_iff.mp hab with hlt | heq
  · exact absurd (hbk.trans hak.symm) hlt.ne
  · exact heq.2

theorem label_aggregate_le (label : UpdateLabel) : UpdateLabel.aggregate ≤ label := by
  cases label with
  | aggregate => exact le_refl _
  | _ => exact Prod.Lex.toLex_le_toLex.mpr (Or.inl (Nat.succ_pos _))

/-- An `Aggregate` is processed last. -/
theorem opsAt_aggregate (hb : Batch f ops) (h : .aggregate ∈ opsAt ops k) :
    ∃ l, opsAt ops k = l ++ [.aggregate] ∧ ∀ op ∈ l, op ≠ .aggregate := by
  obtain ⟨l, l', hl⟩ := append_of_mem h
  have hsorted := hb.opsAt_sorted (k := k)
  rw [hl] at hsorted
  obtain ⟨-, hright, hcross⟩ := pairwise_append.mp hsorted
  cases l' with
  | nil =>
    refine ⟨l, hl, ?_⟩
    rintro op hop rfl
    exact lt_irrefl _ (hcross _ hop _ mem_cons_self)
  | cons op l' =>
    have hlt := (pairwise_cons.mp hright).1 op mem_cons_self
    exact absurd hlt (label_aggregate_le _).not_gt

end Batch

/-! ## Local properties -/

/-- A property of an entry and those of its children. -/
structure Local (P : Entries Hash → SlotHashKey Hash → ForkInfo Hash → Prop) : Prop where
  congr : ∀ {f g k i}, (∀ c ∈ i.children.keys, f c = g c) → P f k i → P g k i
  aggregate : ∀ {f k i j}, k ∉ i.children.keys → aggregateInfo f k i = some j → P f k j
  effect : ∀ {f k i j} {op : UpdateOperation}, op ≠ .aggregate → op.effect f k i = some j →
    P f k i → P f k j
  parent : ∀ {f k i}, P f k i → P f k { i with parent := none }

/-- The property of every block. -/
def Everywhere (P : Entries Hash → SlotHashKey Hash → ForkInfo Hash → Prop) (f : Entries Hash) :
    Prop := ∀ ⦃k i⦄, f k = some i → P f k i

theorem foldlM_effect_kept (h : l.foldlM (fun i op => op.effect g k i) i = some j) : Kept i j := by
  induction l generalizing i with
  | nil =>
    cases h
    exact .refl _
  | cons op l ih =>
    obtain ⟨i', hi', hrest⟩ := bind_eq_some_iff.mp h
    exact (effect_kept hi').trans (ih hrest)

section Local

variable {P : Entries Hash → SlotHashKey Hash → ForkInfo Hash → Prop}
  {infos infos' : ForkInfos Hash}

theorem Local.foldlM (hP : Local P) (hl : ∀ op ∈ l, op ≠ .aggregate)
    (h : l.foldlM (fun i op => op.effect g k i) i = some j) (hi : P g k i) : P g k j := by
  induction l generalizing i with
  | nil =>
    cases h
    exact hi
  | cons op l ih =>
    obtain ⟨i', hi', hrest⟩ := bind_eq_some_iff.mp h
    apply ih (fun op' hop' => hl op' (mem_cons_of_mem op hop')) hrest
    exact hP.effect (hl op mem_cons_self) hi' hi

/-- A batch establishes a local property, if it held where there is no `Aggregate`. -/
theorem process_local (hP : Local P) (h : processUpdateOperations infos ops = some infos')
    (habove : ChildrenAbove infos.get) (hb : Batch f ops)
    (hchild : ∀ k c, c ∈ childrenOf infos.get k → parentOf f c = some k)
    (hbefore : ∀ k i, infos.get k = some i → .aggregate ∉ opsAt ops k → P infos.get k i) :
    Everywhere P infos'.get := by
  intro k j hj
  obtain ⟨i, hi, -⟩ := (process_keeps h).of_some hj
  obtain ⟨j', hj', hfold⟩ := process_at h habove hi
  cases hj.symm.trans hj'
  by_cases hagg : .aggregate ∈ opsAt ops k
  · obtain ⟨l, hl, -⟩ := hb.opsAt_aggregate hagg
    rw [hl, foldlM_append] at hfold
    obtain ⟨i', hi', hlast⟩ := bind_eq_some_iff.mp hfold
    obtain ⟨j'', hj'', hnil⟩ := bind_eq_some_iff.mp hlast
    cases hnil
    refine hP.aggregate ?_ hj''
    rw [(foldlM_effect_kept hi').children, ← childrenOf_of_some hi]
    exact fun hk => lt_irrefl k (habove k k hk).1
  · -- no operation on a child either, so the children are as before
    have hsame : ∀ c ∈ i.children.keys, infos.get c = infos'.get c := by
      intro c hc
      rw [← childrenOf_of_some hi] at hc
      refine (process_unchanged h habove ?_).symm
      apply eq_nil_iff_forall_not_mem.mpr
      intro op hop
      obtain ⟨label, hget⟩ := mem_opsAt.mp hop
      exact hagg (hb.aggregate_mem.mpr (hb.closed hget (hchild k c hc)))
    refine hP.foldlM ?_ hfold (hP.congr hsame (hbefore k i hi hagg))
    rintro op hop rfl
    exact hagg hop

end Local

end Salsa.ForkChoice
