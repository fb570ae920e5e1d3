import Mathlib.Algebra.Order.Sub.Basic
import Mathlib.Data.Multiset.OrderedMonoid
import Mathlib.Tactic.Abel
import Salsa.Lib.Lts
import Salsa.Scheduler.Container

/-!
# Salsa.Scheduler.ContainerRuns — what the callers owe the container

The container with the ids that its callers have: popped, or in the map and not yet
pushed. The callers give back what they were handed, and insert at most
`EXTRA_CAPACITY` transactions before they push the ones that survive.

A push of other ids while new ones wait for theirs may have to drop more than the queue
has (`queue_runs_empty`), so `Roomy` asks that it does not.
-/

namespace Salsa.Container

open Multiset TransactionStateContainer Option

variable {Tx : Type} {Q : MinMaxQueue TransactionPriorityId} {S : Slab (TransactionState Tx)}
  {ps : Multiset TransactionPriorityId} {p : TransactionPriorityId}

/-! ## The callers -/

variable (Q S) in
/-- The container with what its callers hold: ids popped, and ids of transactions that
are in the map and not yet pushed. -/
structure Buffer where
  container : TransactionStateContainer Q S
  out : Multiset TransactionPriorityId
  fresh : Multiset TransactionPriorityId

inductive Call (Tx : Type) where
  | insert (f : Option (TransactionState Tx))
  | pushNew (ids : List TransactionPriorityId)
  | pop
  | take (id : ℕ)
  | retry (id : ℕ) (transaction : Tx) (immediatelyRetryable : Bool)
  | pushBack (ids : List TransactionPriorityId)
  | flush
  | remove (id : ℕ)

def without (id : ℕ) (ps : Multiset TransactionPriorityId) : Multiset TransactionPriorityId :=
  ps.filter (·.id ≠ id)

namespace Buffer

variable (b : Buffer Q S)

/-- A call and what its caller makes of it; `none` is a panic. -/
def perform : Call Tx → Option (Buffer Q S)
  | .insert f => do
      let (id, c) ← b.container.tryInsertMapOnlyWithData f
      match id with
      | none => return { b with container := c }
      | some id =>
          let state ← S.get c.idToTransactionState id
          return { b with container := c, fresh := ⟨state.priority, id⟩ ::ₘ b.fresh }
  | .pushNew ids => do
      let (_, c) ← b.container.pushIdsIntoQueue ids
      return { b with container := c, fresh := b.fresh - ids }
  | .pop =>
      match b.container.pop with
      | (none, c) => some { b with container := c }
      | (some p, c) => some { b with container := c, out := p ::ₘ b.out }
  | .take id => do
      let (_, c) ← b.container.takeTransaction id
      return { b with container := c }
  | .retry id transaction immediatelyRetryable => do
      let c ← b.container.retryTransaction id transaction immediatelyRetryable
      return { b with container := c, out := without id b.out }
  | .pushBack ids => do
      let (_, c) ← b.container.pushIdsIntoQueue ids
      return { b with container := c, out := b.out - ids }
  | .flush => do
      let c ← b.container.flushHeldTransactions
      return { b with container := c }
  | .remove id => do
      let c ← b.container.removeById id
      return { b with container := c, out := without id b.out, fresh := without id b.fresh }

/-- The transaction of an id is there. -/
def Ready (id : ℕ) : Prop :=
  ∀ state ∈ S.get b.container.idToTransactionState id, state.transaction.isSome

/-- The transaction of an id is being worked on. -/
def Pending (id : ℕ) : Prop :=
  ∀ state ∈ S.get b.container.idToTransactionState id, state.transaction.isNone

/-- The discipline of the callers: at most `EXTRA_CAPACITY` transactions are inserted
before the surviving ones are pushed, and an id is given back by who holds it. -/
def Allowed : Call Tx → Prop
  | .insert _ => b.fresh.card < extraCapacity
  | .pushNew ids => (ids : Multiset _) = b.fresh
  | .pop => True
  | .take id => id ∈ b.out.map (·.id) ∧ b.Ready id
  | .retry id _ _ => id ∈ b.out.map (·.id) ∧ b.Pending id
  | .pushBack ids => (ids : Multiset _) ≤ b.out
  | .flush => True
  | .remove id => id ∈ (b.out + b.fresh).map (·.id)

instance (id : ℕ) : Decidable (b.Ready id) :=
  inferInstanceAs (Decidable (∀ state ∈ S.get _ id, state.transaction.isSome))

instance (id : ℕ) : Decidable (b.Pending id) :=
  inferInstanceAs (Decidable (∀ state ∈ S.get _ id, state.transaction.isNone))

instance : (call : Call Tx) → Decidable (b.Allowed call)
  | .insert _ => inferInstanceAs (Decidable (_ < _))
  | .pushNew ids => inferInstanceAs (Decidable ((ids : Multiset _) = b.fresh))
  | .pop => inferInstanceAs (Decidable True)
  | .take id => inferInstanceAs (Decidable (id ∈ b.out.map (·.id) ∧ b.Ready id))
  | .retry id _ _ => inferInstanceAs (Decidable (id ∈ b.out.map (·.id) ∧ b.Pending id))
  | .pushBack ids => inferInstanceAs (Decidable ((ids : Multiset _) ≤ b.out))
  | .flush => inferInstanceAs (Decidable True)
  | .remove id => inferInstanceAs (Decidable (id ∈ (b.out + b.fresh).map (·.id)))

def pushed : Call Tx → Option (List TransactionPriorityId)
  | .pushNew ids => some ids
  | .retry id _ true =>
      (S.get b.container.idToTransactionState id).map fun state => [⟨state.priority, id⟩]
  | .pushBack ids => some ids
  | .flush => some b.container.heldTransactions
  | _ => none

/-- A push of ids that are not new finds enough of them in the queue. -/
def Roomy : Call Tx → Prop
  | .pushNew _ => True
  | call => ∀ ids ∈ b.pushed call,
      b.container.excess ≤ (Q.elems b.container.priorityQueue).card + ids.length

/-- Every id that queue, container and callers know of. -/
def ids : Multiset TransactionPriorityId :=
  Q.elems b.container.priorityQueue + (b.container.heldTransactions + b.out + b.fresh)

end Buffer

variable (Q S) in
/-- The runs of a container of a given capacity. -/
def system (capacity : ℕ) : Lts (Buffer Q S) (Call Tx) where
  Init b := b = ⟨TransactionStateContainer.withCapacity Q S capacity, 0, 0⟩
  Step b call b' := b.Allowed call ∧ b.perform call = some b'

/-! ## The invariant -/

/-- Every id is known once and is occupied, with its priority; the map is over capacity
by new transactions alone. -/
structure Inv (b : Buffer Q S) : Prop where
  covers : Covers (Q.elems b.container.priorityQueue)
    (b.container.heldTransactions + b.out + b.fresh) b.container.idToTransactionState
  priority : ∀ p ∈ b.ids, ∀ state ∈ S.get b.container.idToTransactionState p.id,
    state.priority = p.priority
  len_le : S.len b.container.idToTransactionState ≤ b.container.capacity + b.fresh.card
  fresh_le : b.fresh.card ≤ extraCapacity
  slab : b.container.capacity + extraCapacity ≤ S.capacity b.container.idToTransactionState

namespace Inv

variable {b : Buffer Q S}

theorem mem_occupied (h : Inv b) (hp : p ∈ b.ids) :
    p.id ∈ S.occupied b.container.idToTransactionState := by
  rw [← Finset.mem_val, ← h.covers]
  exact mem_map_of_mem _ hp

/-- Different places have different ids. -/
theorem nodup_of_le (h : Inv b) (hle : ps ≤ b.ids) : (ps.map (·.id)).Nodup := by
  apply Multiset.nodup_of_le (map_le_map hle)
  show (map _ (_ + _)).Nodup
  rw [h.covers]
  exact (S.occupied _).nodup

theorem get_of_mem (h : Inv b) (hp : p ∈ b.ids) :
    ∃ state, S.get b.container.idToTransactionState p.id = some state ∧
      state.priority = p.priority := by
  obtain ⟨state, hget⟩ := isSome_iff_exists.mp (S.mem_occupied.mp (h.mem_occupied hp))
  exact ⟨state, hget, h.priority p hp state hget⟩

theorem out_le_ids (b : Buffer Q S) : b.out + b.fresh ≤ b.ids := by
  unfold Buffer.ids
  rw [add_assoc]
  exact (le_add_left _ _).trans (le_add_left _ _)

end Inv

theorem Covers.congr {queue rest queue' rest' : Multiset TransactionPriorityId}
    {states : S.Carrier} (h : Covers queue rest states) (heq : queue' + rest' = queue + rest) :
    Covers queue' rest' states := by
  unfold Covers at h ⊢
  rw [heq, h]

theorem eq_cons_without
    (hnodup : (ps.map (·.id)).Nodup) (hp : p ∈ ps) : ps = p ::ₘ without p.id ps := by
  obtain ⟨qs, rfl⟩ := exists_cons_of_mem hp
  rw [map_cons, nodup_cons] at hnodup
  have hqs : without p.id qs = qs := by
    apply filter_eq_self.mpr
    intro q hq heq
    exact hnodup.1 (heq ▸ mem_map_of_mem _ hq)
  rw [without, filter_cons_of_neg _ (by simp)]
  exact congrArg _ hqs.symm

/-- The least of queue and newcomers are dropped, they alone leave the map, and the map
is within capacity. -/
def DropsLeast (b b' : Buffer Q S) (ids : List TransactionPriorityId) : Prop :=
  S.len b'.container.idToTransactionState ≤ b.container.capacity ∧
    ∃ dropped : Multiset TransactionPriorityId,
      Q.elems b.container.priorityQueue + ids = dropped + Q.elems b'.container.priorityQueue ∧
      (∀ p ∈ dropped, ∀ q ∈ Q.elems b'.container.priorityQueue, p.priority ≤ q.priority) ∧
      (S.occupied b.container.idToTransactionState).val =
        dropped.map (·.id) + (S.occupied b'.container.idToTransactionState).val

/-- A call goes through, and what it pushes takes the place of the least. -/
def GoesThrough (b : Buffer Q S) (call : Call Tx) : Prop :=
  ∃ b', b.perform call = some b' ∧ Inv b' ∧ b'.container.capacity = b.container.capacity ∧
    ∀ ids ∈ b.pushed call, DropsLeast b b' ids

theorem goesThrough_of_not_pushed {b b' : Buffer Q S} {call : Call Tx}
    (hperform : b.perform call = some b') (h : Inv b')
    (hcapacity : b'.container.capacity = b.container.capacity) (hnone : b.pushed call = none) :
    GoesThrough b call := by
  refine ⟨b', hperform, h, hcapacity, ?_⟩
  intro ids hids
  rw [hnone] at hids
  cases hids

/-- A push of `ids`, when `held`, `out` and `fresh` are what is kept elsewhere. -/
theorem Inv.push {b : Buffer Q S} (h : Inv b) (ids held : List TransactionPriorityId)
    (out fresh : Multiset TransactionPriorityId)
    (hids : Q.elems b.container.priorityQueue + ids + (held + out + fresh) = b.ids)
    (hfresh : fresh.card ≤ extraCapacity)
    (hroom : b.container.excess ≤ (Q.elems b.container.priorityQueue).card + ids.length) :
    ∃ c', (⟨b.container.capacity, b.container.priorityQueue, b.container.idToTransactionState,
        held⟩ : TransactionStateContainer Q S).pushIdsIntoQueue ids =
          some (b.container.excess, c') ∧
      Inv ⟨c', out, fresh⟩ ∧ c'.capacity = b.container.capacity ∧
      DropsLeast b ⟨c', out, fresh⟩ ids := by
  have hcovers := h.covers.congr hids
  obtain ⟨c', dropped, hpush, hcard, hdrops⟩ :=
    pushIdsIntoQueue_spec (c := { b.container with heldTransactions := held }) hcovers hroom
  have hlen := hdrops.len_le hcard
  have hcapacity : c'.capacity = b.container.capacity := hdrops.capacity
  refine ⟨c', hpush, ?_, hcapacity, ?_⟩
  · constructor
    · rw [hdrops.held]
      exact hdrops.covers hcovers
    · intro p hp state hstate
      have hocc := S.mem_occupied.mpr (isSome_of_mem hstate)
      apply h.priority p
      · unfold Buffer.ids at hp
        rw [hdrops.held] at hp
        rw [← hids, hdrops.queue, add_assoc]
        exact mem_add.mpr (Or.inr hp)
      · exact hdrops.get p.id hocc ▸ hstate
    · exact hlen.trans (Nat.le_add_right _ _)
    · exact hfresh
    · rw [hcapacity, hdrops.slab]
      exact h.slab
  · refine ⟨hcapacity ▸ hlen, dropped, hdrops.queue, ?_, hdrops.occupied⟩
    intro p hp q hq
    exact TransactionPriorityId.priority_le (hdrops.least p hp q hq)

/-! ## Every call goes through -/

section Calls

variable {b : Buffer Q S} (h : Inv b)
include h

theorem Inv.insert (state : TransactionState Tx) (hfresh : b.fresh.card < extraCapacity) :
    Inv { b with
      container := { b.container with
        idToTransactionState := S.insert b.container.idToTransactionState state }
      fresh := ⟨state.priority, S.vacantKey b.container.idToTransactionState⟩ ::ₘ b.fresh } := by
  have hnotMem := S.vacantKey_notMem b.container.idToTransactionState
  constructor
  · show map _ _ = (S.occupied (S.insert _ _)).val
    rw [S.occupied_insert, Finset.insert_val_of_notMem hnotMem, ← h.covers,
      add_cons, add_cons, map_cons]
  · intro p hp st hst
    rw [S.get_insert] at hst
    unfold Buffer.ids at hp
    rw [add_cons, add_cons] at hp
    rcases mem_cons.mp hp with rfl | hp
    · rw [if_pos rfl] at hst
      cases hst
      rfl
    · have hne : p.id ≠ S.vacantKey b.container.idToTransactionState := by
        intro heq
        exact hnotMem (heq ▸ h.mem_occupied hp)
      rw [if_neg hne] at hst
      exact h.priority p hp st hst
  · rw [S.len_insert, card_cons]
    exact Nat.succ_le_succ h.len_le
  · rw [card_cons]
    exact hfresh
  · exact h.slab.trans (S.capacity_insert _ _)

theorem goesThrough_insert {f : Option (TransactionState Tx)}
    (hallowed : b.Allowed (.insert f)) : GoesThrough b (.insert f) := by
  have hfresh : b.fresh.card < extraCapacity := hallowed
  have hvacant : b.container.getVacantMapEntry =
      some (S.vacantKey b.container.idToTransactionState) := by
    unfold getVacantMapEntry
    rw [if_pos]
    have hlen := h.len_le
    have hslab := h.slab
    omega
  cases f with
  | none =>
    refine goesThrough_of_not_pushed ?_ h rfl rfl
    simp [Buffer.perform, tryInsertMapOnlyWithData, hvacant]
  | some state =>
    refine goesThrough_of_not_pushed ?_ (h.insert state hfresh) rfl rfl
    simp [Buffer.perform, tryInsertMapOnlyWithData, hvacant, S.get_insert]

theorem goesThrough_pop : GoesThrough b .pop := by
  cases hpop : Q.popMax b.container.priorityQueue with
  | none =>
    refine goesThrough_of_not_pushed ?_ h rfl rfl
    simp [Buffer.perform, TransactionStateContainer.pop, hpop]
  | some out =>
    obtain ⟨p, queue⟩ := out
    have hids : Q.elems queue + (b.container.heldTransactions + (p ::ₘ b.out) + b.fresh) =
        b.ids := by
      unfold Buffer.ids
      rw [(Q.popMax_some hpop).1, add_cons, cons_add, add_cons, cons_add]
    have hinv : Inv { b with
        container := { b.container with priorityQueue := queue }, out := p ::ₘ b.out } := by
      constructor
      · exact h.covers.congr hids
      · intro q hq
        unfold Buffer.ids at hq
        rw [hids] at hq
        exact h.priority q hq
      · exact h.len_le
      · exact h.fresh_le
      · exact h.slab
    refine goesThrough_of_not_pushed ?_ hinv rfl rfl
    simp [Buffer.perform, TransactionStateContainer.pop, hpop]

variable {id : ℕ}

/-- A new state with the old priority under an id. -/
theorem Inv.modify {old : TransactionState Tx} (new : TransactionState Tx)
    (hget : S.get b.container.idToTransactionState id = some old)
    (hpriority : new.priority = old.priority) :
    Inv { b with container := { b.container with
      idToTransactionState := S.modify b.container.idToTransactionState id fun _ => new } } := by
  constructor
  · unfold Covers
    rw [S.occupied_modify]
    exact h.covers
  · intro p hp st hst
    rw [S.get_modify] at hst
    by_cases hid : p.id = id
    · rw [if_pos hid, hid, hget] at hst
      cases hst
      rw [hpriority]
      exact h.priority p hp old (by rw [hid]; exact hget)
    · rw [if_neg hid] at hst
      exact h.priority p hp st hst
  · rw [Slab.len, S.occupied_modify]
    exact h.len_le
  · exact h.fresh_le
  · rw [S.capacity_modify]
    exact h.slab

theorem Inv.hold (p : TransactionPriorityId) (out : Multiset TransactionPriorityId)
    (hout : b.out = {p} + out) :
    Inv { b with container := b.container.holdTransaction p, out := out } := by
  have hids : Q.elems b.container.priorityQueue +
      ((b.container.heldTransactions ++ [p] : List _) + out + b.fresh) = b.ids := by
    unfold Buffer.ids
    rw [← coe_add, coe_singleton, hout]
    abel
  constructor
  · exact h.covers.congr hids
  · intro q hq
    apply h.priority q
    rw [← hids]
    exact hq
  · exact h.len_le
  · exact h.fresh_le
  · exact h.slab

theorem goesThrough_take (hallowed : b.Allowed (.take id)) : GoesThrough b (.take id) := by
  obtain ⟨hid, hready⟩ := hallowed
  obtain ⟨p, hp, rfl⟩ := mem_map.mp hid
  have hmem := mem_of_le (Inv.out_le_ids b) (mem_add.mpr (Or.inl hp))
  obtain ⟨state, hget, -⟩ := h.get_of_mem hmem
  obtain ⟨tx, htx⟩ := isSome_iff_exists.mp (hready state hget)
  have hinv := h.modify { state with transaction := none } hget rfl
  refine goesThrough_of_not_pushed ?_ hinv rfl rfl
  simp [Buffer.perform, takeTransaction, hget, TransactionState.takeTransactionForScheduling, htx]

variable {ids : List TransactionPriorityId}

theorem goesThrough_pushNew
    (hallowed : b.Allowed (.pushNew ids)) : GoesThrough b (.pushNew ids) := by
  have hfresh : (ids : Multiset _) = b.fresh := hallowed
  -- new ids are at least as many as the map is over capacity
  have hroom : b.container.excess ≤ (Q.elems b.container.priorityQueue).card + ids.length := by
    have hlen := h.len_le
    rw [← hfresh, coe_card] at hlen
    unfold excess
    omega
  have hrest : b.fresh - ids = 0 := by
    rw [hfresh]
    exact tsub_self b.fresh
  obtain ⟨c', hpush, hinv, hcapacity, hleast⟩ :=
    h.push ids b.container.heldTransactions b.out (b.fresh - ids)
      (by rw [hrest, hfresh, add_zero]; unfold Buffer.ids; abel)
      (by rw [hrest]; exact Nat.zero_le _) hroom
  refine ⟨_, ?_, hinv, hcapacity, ?_⟩
  · show (b.container.pushIdsIntoQueue ids >>= _) = _
    rw [hpush]
    rfl
  · intro ids' hids'
    cases hids'
    exact hleast

theorem goesThrough_pushBack
    (hallowed : b.Allowed (.pushBack ids)) (hroomy : b.Roomy (.pushBack ids)) :
    GoesThrough b (.pushBack ids) := by
  obtain ⟨rest, hrest⟩ := Multiset.le_iff_exists_add.mp hallowed
  have hsub : b.out - ids = rest := by rw [hrest, add_tsub_cancel_left]
  have hids : Q.elems b.container.priorityQueue + ids +
      (b.container.heldTransactions + (b.out - ids) + b.fresh) = b.ids := by
    unfold Buffer.ids
    rw [hsub, hrest]
    abel
  obtain ⟨c', hpush, hinv, hcapacity, hleast⟩ :=
    h.push ids b.container.heldTransactions (b.out - ids) b.fresh hids h.fresh_le (hroomy ids rfl)
  refine ⟨_, ?_, hinv, hcapacity, ?_⟩
  · show (b.container.pushIdsIntoQueue ids >>= _) = _
    rw [hpush]
    rfl
  · intro ids' hids'
    cases hids'
    exact hleast

theorem goesThrough_flush (hroomy : b.Roomy (.flush)) : GoesThrough b .flush := by
  obtain ⟨c', hpush, hinv, hcapacity, hleast⟩ :=
    h.push b.container.heldTransactions [] b.out b.fresh
      (by unfold Buffer.ids; rw [coe_nil, zero_add]; abel)
      h.fresh_le (hroomy _ rfl)
  refine ⟨_, ?_, hinv, hcapacity, ?_⟩
  · simp only [Buffer.perform, flushHeldTransactions, hpush]
    rfl
  · intro ids hids
    cases hids
    exact hleast

/-- The id leaves those handed out, for the queue or for those held. -/
theorem goesThrough_retry {tx : Tx} {immediatelyRetryable : Bool}
    (hallowed : b.Allowed (.retry id tx immediatelyRetryable))
    (hroomy : b.Roomy (.retry id tx immediatelyRetryable)) :
    GoesThrough b (.retry id tx immediatelyRetryable) := by
  obtain ⟨hid, hpending⟩ := hallowed
  obtain ⟨p, hp, rfl⟩ := mem_map.mp hid
  have hmem := mem_of_le (Inv.out_le_ids b) (mem_add.mpr (Or.inl hp))
  obtain ⟨state, hget, hpriority⟩ := h.get_of_mem hmem
  have hretry : state.retryTransaction tx = some { state with transaction := some tx } :=
    if_pos (hpending state hget)
  have hmodify := h.modify { state with transaction := some tx } hget rfl
  have hnodup := h.nodup_of_le ((le_add_right _ _).trans (Inv.out_le_ids b))
  have hout := eq_cons_without hnodup hp
  rw [← singleton_add] at hout
  have hid : (⟨state.priority, p.id⟩ : TransactionPriorityId) = p := by rw [hpriority]
  cases immediatelyRetryable with
  | false =>
    have hinv := hmodify.hold p (without p.id b.out) hout
    refine goesThrough_of_not_pushed ?_ hinv rfl rfl
    simp [Buffer.perform, retryTransaction, hget, hretry, hid]
  | true =>
    have hpushed : b.pushed (.retry p.id tx true) = some [p] := by
      show (S.get b.container.idToTransactionState p.id).map _ = _
      rw [hget]
      exact congrArg (fun q => some [q]) hid
    have hexcess := hroomy [p] hpushed
    unfold excess Slab.len at hexcess
    rw [← S.occupied_modify _ p.id fun _ => { state with transaction := some tx }] at hexcess
    have hids : Q.elems b.container.priorityQueue + ([p] : List TransactionPriorityId) +
        (b.container.heldTransactions + without p.id b.out + b.fresh) = b.ids := by
      unfold Buffer.ids
      nth_rewrite 2 [hout]
      rw [coe_singleton]
      abel
    obtain ⟨c', hpush, hinv, hcapacity, hlen, dropped, hleast⟩ :=
      hmodify.push [p] b.container.heldTransactions (without p.id b.out) b.fresh hids
        h.fresh_le hexcess
    refine ⟨_, ?_, hinv, hcapacity, ?_⟩
    · simp only [Buffer.perform, retryTransaction, hget, hretry, hid,
        hpush, bind_eq_bind, bind_some, if_pos]
      rfl
    · intro ids hids
      rw [hpushed] at hids
      cases hids
      rw [S.occupied_modify] at hleast
      exact ⟨hlen, dropped, hleast⟩

/-- Only transactions taken out are removed. -/
theorem goesThrough_remove (hallowed : b.Allowed (.remove id)) : GoesThrough b (.remove id) := by
  obtain ⟨p, hp, rfl⟩ := mem_map.mp hallowed
  have hout := eq_cons_without (h.nodup_of_le (Inv.out_le_ids b)) hp
  have hfilter : without p.id (b.out + b.fresh) = without p.id b.out + without p.id b.fresh :=
    filter_add _ _ _
  have hids : b.ids = p ::ₘ (Q.elems b.container.priorityQueue +
      (b.container.heldTransactions + without p.id b.out + without p.id b.fresh)) := by
    unfold Buffer.ids
    rw [add_assoc, hout, hfilter, ← singleton_add, ← singleton_add]
    abel
  have hcovers := h.covers.congr (cons_add _ _ _ ▸ hids.symm)
  obtain ⟨states, hremove, hcovers, hoccupied⟩ := hcovers.cons_remove
  have hfresh : (without p.id b.fresh).card ≤ b.fresh.card := card_le_card (filter_le _ _)
  have hinv : Inv { b with
      container := { b.container with idToTransactionState := states }
      out := without p.id b.out, fresh := without p.id b.fresh } := by
    constructor
    · exact hcovers
    · intro q hq st hst
      have hget := S.get_remove hremove q.id
      rw [hget] at hst
      split_ifs at hst with hne
      · cases hst
      · apply h.priority q _ st hst
        rw [hids]
        exact mem_cons_of_mem hq
    · have hlen := h.len_le
      have hcard := congrArg card hoccupied
      have hsum := congrArg card hout
      rw [card_cons] at hcard
      rw [hfilter, card_cons, card_add, card_add] at hsum
      have hle : (without p.id b.out).card ≤ b.out.card := card_le_card (filter_le _ _)
      have hpre : S.len b.container.idToTransactionState =
        (S.occupied b.container.idToTransactionState).val.card := rfl
      have hpost : S.len states = (S.occupied states).val.card := rfl
      show S.len states ≤ b.container.capacity + (without p.id b.fresh).card
      omega
    · exact hfresh.trans h.fresh_le
    · rw [S.capacity_remove hremove]
      exact h.slab
  refine goesThrough_of_not_pushed ?_ hinv rfl rfl
  simp [Buffer.perform, removeById, hremove]

/-- Every call of the discipline that finds room goes through. -/
theorem progress {call : Call Tx} (hallowed : b.Allowed call) (hroomy : b.Roomy call) :
    GoesThrough b call := by
  cases call with
  | insert f => exact goesThrough_insert h hallowed
  | pushNew ids => exact goesThrough_pushNew h hallowed
  | pop => exact goesThrough_pop h
  | take id => exact goesThrough_take h hallowed
  | retry id tx immediatelyRetryable => exact goesThrough_retry h hallowed hroomy
  | pushBack ids => exact goesThrough_pushBack h hallowed hroomy
  | flush => exact goesThrough_flush h hroomy
  | remove id => exact goesThrough_remove h hallowed

/-- There is room for every push while no new transaction waits for its own. -/
theorem roomy_of_fresh_eq_zero (hfresh : b.fresh = 0) (call : Call Tx) : b.Roomy call := by
  have hexcess : b.container.excess = 0 := by
    have hlen := h.len_le
    rw [hfresh, card_zero] at hlen
    exact Nat.sub_eq_zero_of_le hlen
  cases call
  case pushNew => exact trivial
  all_goals
    intro ids _
    rw [hexcess]
    exact Nat.zero_le _

end Calls

/-! ## Whole runs -/

theorem inv_init (capacity : ℕ) : Inv (⟨withCapacity Q S capacity, 0, 0⟩ : Buffer Q S) := by
  have hocc := S.occupied_withCapacity (capacity + extraCapacity)
  constructor
  · show map _ (Q.elems Q.empty + 0) = (S.occupied (S.withCapacity _)).val
    rw [hocc, Q.elems_empty]
    rfl
  · intro p hp
    unfold Buffer.ids at hp
    rw [show (⟨withCapacity Q S capacity, 0, 0⟩ :
      Buffer Q S).container.priorityQueue = Q.empty from rfl, Q.elems_empty] at hp
    cases hp
  · show (S.occupied (S.withCapacity _)).card ≤ _
    rw [hocc]
    exact Nat.zero_le _
  · exact Nat.zero_le _
  · exact S.le_capacity _

/-- `Inv` holds in every run whose pushes find room. -/
theorem inv_of_reachable {capacity : ℕ} {b : Buffer Q S}
    (h : ((system Q S capacity).restrict Buffer.Roomy).Reachable b) :
    Inv b ∧ b.container.capacity = capacity := by
  apply h.inv
  · intro b₀ hinit
    rw [hinit]
    exact ⟨inv_init capacity, rfl⟩
  · intro b call b' hstep hinv
    obtain ⟨hroomy, hallowed, hperform⟩ := hstep
    obtain ⟨b₁, hperform₁, hinv₁, hcapacity, -⟩ := progress hinv.1 hallowed hroomy
    rw [hperform] at hperform₁
    cases hperform₁
    exact ⟨hinv₁, hcapacity.trans hinv.2⟩

/-- In every run whose pushes find room, the occupied ids are those in the queue, held,
handed out and not yet pushed, each in one place and with its priority; a call does not
panic, and a push drops the least of queue and newcomers down to the capacity. There is
room whenever no new transaction waits for its push. -/
theorem container_consistent {capacity : ℕ} {b : Buffer Q S}
    (h : ((system Q S capacity).restrict Buffer.Roomy).Reachable b) :
    (b.ids.map (·.id)).Nodup ∧
    (∀ id, id ∈ b.ids.map (·.id) ↔ id ∈ S.occupied b.container.idToTransactionState) ∧
    (∀ p ∈ b.ids, ∃ state, S.get b.container.idToTransactionState p.id = some state ∧
      state.priority = p.priority) ∧
    b.container.capacity = capacity ∧
    (b.fresh = 0 → ∀ call, b.Roomy call) ∧
    ∀ call, b.Allowed call → b.Roomy call →
      ∃ b', b.perform call = some b' ∧ ∀ ids ∈ b.pushed call, DropsLeast b b' ids := by
  obtain ⟨hinv, hcapacity⟩ := inv_of_reachable h
  refine ⟨hinv.nodup_of_le le_rfl, ?_, ?_, hcapacity, roomy_of_fresh_eq_zero hinv, ?_⟩
  · intro id
    rw [← Finset.mem_val, ← hinv.covers]
    rfl
  · intro p hp
    exact hinv.get_of_mem hp
  · intro call hallowed hroomy
    obtain ⟨b', hperform, -, -, hpushed⟩ := progress hinv hallowed hroomy
    exact ⟨b', hperform, hpushed⟩

/-! ## Runs of a container for one transaction -/

section One

abbrev listQueue : MinMaxQueue TransactionPriorityId := MinMaxQueue.ofList _

abbrev listSlab : Slab (TransactionState Unit) := Slab.ofList _

def twoNew : Buffer listQueue listSlab where
  container := ⟨1, [], ⟨65, [some ⟨some (), 5⟩, some ⟨some (), 3⟩]⟩, []⟩
  out := 0
  fresh := {⟨3, 1⟩, ⟨5, 0⟩}

/-- A transaction is being worked on, and there are two new ones. -/
def oneOutTwoNew : Buffer listQueue listSlab where
  container := ⟨1, [], ⟨65, [some ⟨none, 1⟩, some ⟨some (), 5⟩, some ⟨some (), 3⟩]⟩, []⟩
  out := {⟨1, 0⟩}
  fresh := {⟨3, 2⟩, ⟨5, 1⟩}

theorem container_consistent_two :
    ∃ b', twoNew.perform (.pushNew [⟨5, 0⟩, ⟨3, 1⟩]) = some b' ∧
      DropsLeast twoNew b' [⟨5, 0⟩, ⟨3, 1⟩] := by
  have h₀ : ((system listQueue listSlab 1).restrict Buffer.Roomy).Reachable
      ⟨⟨1, [], ⟨65, []⟩, []⟩, 0, 0⟩ := ⟨_, [], rfl, Lts.Run.nil⟩
  have h₁ : ((system listQueue listSlab 1).restrict Buffer.Roomy).Reachable
      ⟨⟨1, [], ⟨65, [some ⟨some (), 5⟩]⟩, []⟩, 0, {⟨5, 0⟩}⟩ :=
    h₀.step (a := .insert (some ⟨some (), 5⟩)) ⟨by rintro _ ⟨⟩, by decide, rfl⟩
  have h₂ : ((system listQueue listSlab 1).restrict Buffer.Roomy).Reachable twoNew :=
    h₁.step (a := .insert (some ⟨some (), 3⟩)) ⟨by rintro _ ⟨⟩, by decide, rfl⟩
  obtain ⟨b', hperform, hleast⟩ := (container_consistent h₂).2.2.2.2.2
    (.pushNew [⟨5, 0⟩, ⟨3, 1⟩]) (by decide) trivial
  exact ⟨b', hperform, hleast _ rfl⟩

/-- An immediate retry between the insertion of new transactions and their push panics. -/
theorem queue_runs_empty :
    ¬ ∀ (capacity : ℕ) (b : Buffer listQueue listSlab),
      (system listQueue listSlab capacity).Reachable b →
      ∀ call, b.Allowed call → (b.perform call).isSome := by
  intro hall
  have h₀ : (system listQueue listSlab 1).Reachable ⟨⟨1, [], ⟨65, []⟩, []⟩, 0, 0⟩ :=
    ⟨_, [], rfl, Lts.Run.nil⟩
  have h₁ : (system listQueue listSlab 1).Reachable
      ⟨⟨1, [], ⟨65, [some ⟨some (), 1⟩]⟩, []⟩, 0, {⟨1, 0⟩}⟩ :=
    h₀.step (a := .insert (some ⟨some (), 1⟩)) ⟨by decide, rfl⟩
  have h₂ : (system listQueue listSlab 1).Reachable
      ⟨⟨1, [⟨1, 0⟩], ⟨65, [some ⟨some (), 1⟩]⟩, []⟩, 0, 0⟩ :=
    h₁.step (a := .pushNew [⟨1, 0⟩]) ⟨by decide, rfl⟩
  have h₃ : (system listQueue listSlab 1).Reachable
      ⟨⟨1, [], ⟨65, [some ⟨some (), 1⟩]⟩, []⟩, {⟨1, 0⟩}, 0⟩ :=
    h₂.step (a := .pop) ⟨by decide, rfl⟩
  have h₄ : (system listQueue listSlab 1).Reachable
      ⟨⟨1, [], ⟨65, [some ⟨none, 1⟩]⟩, []⟩, {⟨1, 0⟩}, 0⟩ :=
    h₃.step (a := .take 0) ⟨by decide, rfl⟩
  have h₅ : (system listQueue listSlab 1).Reachable
      ⟨⟨1, [], ⟨65, [some ⟨none, 1⟩, some ⟨some (), 5⟩]⟩, []⟩, {⟨1, 0⟩}, {⟨5, 1⟩}⟩ :=
    h₄.step (a := .insert (some ⟨some (), 5⟩)) ⟨by decide, rfl⟩
  have h₆ : (system listQueue listSlab 1).Reachable oneOutTwoNew :=
    h₅.step (a := .insert (some ⟨some (), 3⟩)) ⟨by decide, rfl⟩
  exact absurd (hall 1 oneOutTwoNew h₆ (.retry 0 () true) (by decide)) (by decide)

end One

end Salsa.Container
