import Mathlib.Data.Prod.Lex
import Salsa.Lib.MinMaxQueue
import Salsa.Lib.Slab

/-!
# Salsa.Scheduler.Container — the transactions of a scheduler

`transaction_state_container.rs`: a slab of transaction states and a queue of ids by
priority. An id leaves the queue while its transaction is worked on, and a new
transaction is in the slab before its id is in the queue, so the two agree only as
long as the callers give back what they were handed.

`Drops` is what a push does: the least of queue and newcomers go, from the queue and
from the slab. It panics when the queue has fewer than have to go
(`pushIdsIntoQueue_spec`).
-/

namespace Salsa.Container

open Multiset

/-! ## Priority ids and transaction states -/

structure TransactionPriorityId where
  priority : ℕ
  id : ℕ
deriving DecidableEq, Repr

theorem TransactionPriorityId.toLex_injective :
    Function.Injective fun p : TransactionPriorityId => toLex (p.priority, p.id) := by
  intro p q h
  cases q
  cases h
  rfl

/-- The derived order: by priority, then by id. -/
instance : LinearOrder TransactionPriorityId :=
  LinearOrder.lift' _ TransactionPriorityId.toLex_injective

variable {p q : TransactionPriorityId}

theorem TransactionPriorityId.priority_le (h : p ≤ q) : p.priority ≤ q.priority := by
  rcases (Prod.Lex.toLex_le_toLex).mp h with hlt | heq
  · exact hlt.le
  · exact heq.1.le

/-- `TransactionState`; the transaction is gone while it is scheduled. -/
structure TransactionState (Tx : Type) where
  transaction : Option Tx
  priority : ℕ

variable {Tx : Type}

namespace TransactionState

/-- `take_transaction_for_scheduling`; `none` is its panic. -/
def takeTransactionForScheduling (state : TransactionState Tx) :
    Option (Tx × TransactionState Tx) :=
  state.transaction.map fun tx => (tx, { state with transaction := none })

/-- `retry_transaction`; `none` is its panic. -/
def retryTransaction (state : TransactionState Tx) (transaction : Tx) :
    Option (TransactionState Tx) :=
  if state.transaction.isNone then some { state with transaction := some transaction } else none

end TransactionState

/-! ## `TransactionStateContainer` -/

variable (Q : MinMaxQueue TransactionPriorityId) (S : Slab (TransactionState Tx))

structure TransactionStateContainer where
  capacity : ℕ
  priorityQueue : Q.Carrier
  idToTransactionState : S.Carrier
  heldTransactions : List TransactionPriorityId

def extraCapacity : ℕ := 64

variable {Q S} {states : S.Carrier}

namespace TransactionStateContainer

variable (Q S) in
def withCapacity (capacity : ℕ) : TransactionStateContainer Q S where
  capacity := capacity
  priorityQueue := Q.empty
  idToTransactionState := S.withCapacity (capacity + extraCapacity)
  heldTransactions := []

variable (c : TransactionStateContainer Q S)

def pop : Option TransactionPriorityId × TransactionStateContainer Q S :=
  match Q.popMax c.priorityQueue with
  | none => (none, c)
  | some (p, queue) => (some p, { c with priorityQueue := queue })

/-- The loop of `push_ids_into_queue` that drops `n` transactions; `none` is a panic,
of the queue that is empty or of the slab that has no such key. -/
def dropLowest : ℕ → TransactionStateContainer Q S → Option (TransactionStateContainer Q S)
  | 0, c => some c
  | n + 1, c => do
      let (p, queue) ← Q.popMin c.priorityQueue
      let states ← S.remove c.idToTransactionState p.id
      dropLowest n { c with priorityQueue := queue, idToTransactionState := states }

/-- By how much the map is over capacity. -/
def excess : ℕ := S.len c.idToTransactionState - c.capacity

/-- `push_ids_into_queue`, with the number of dropped transactions. -/
def pushIdsIntoQueue (ids : List TransactionPriorityId) :
    Option (ℕ × TransactionStateContainer Q S) := do
  let c := { c with priorityQueue := Q.pushAll c.priorityQueue ids }
  let numDropped := c.excess
  let c ← dropLowest numDropped c
  return (numDropped, c)

def holdTransaction (p : TransactionPriorityId) : TransactionStateContainer Q S :=
  { c with heldTransactions := c.heldTransactions ++ [p] }

/-- `remove_by_id`; the slab panics when there is no such key. -/
def removeById (id : ℕ) : Option (TransactionStateContainer Q S) := do
  let states ← S.remove c.idToTransactionState id
  return { c with idToTransactionState := states }

def flushHeldTransactions : Option (TransactionStateContainer Q S) := do
  let held := c.heldTransactions
  let (_, c) ← { c with heldTransactions := [] }.pushIdsIntoQueue held
  return c

/-- `get_vacant_map_entry`, by the key of the entry; `none` is its assertion. -/
def getVacantMapEntry : Option ℕ :=
  if S.len c.idToTransactionState < S.capacity c.idToTransactionState then
    some (S.vacantKey c.idToTransactionState)
  else none

/-- `try_insert_map_only_with_data`, where `f` is what became of the packet. -/
def tryInsertMapOnlyWithData
    (f : Option (TransactionState Tx)) : Option (Option ℕ × TransactionStateContainer Q S) := do
  let id ← c.getVacantMapEntry
  match f with
  | some state =>
      return (some id, { c with idToTransactionState := S.insert c.idToTransactionState state })
  | none => return (none, c)

/-- The scheduler takes a transaction out of its state. -/
def takeTransaction (id : ℕ) : Option (Tx × TransactionStateContainer Q S) := do
  let state ← S.get c.idToTransactionState id
  let (tx, state) ← state.takeTransactionForScheduling
  return (tx, { c with
    idToTransactionState := S.modify c.idToTransactionState id fun _ => state })

def retryTransaction (id : ℕ) (transaction : Tx)
    (immediatelyRetryable : Bool) : Option (TransactionStateContainer Q S) := do
  let state ← S.get c.idToTransactionState id
  let p : TransactionPriorityId := ⟨state.priority, id⟩
  let state ← state.retryTransaction transaction
  let c := { c with idToTransactionState := S.modify c.idToTransactionState id fun _ => state }
  if immediatelyRetryable then
    let (_, c) ← c.pushIdsIntoQueue [p]
    return c
  else
    return c.holdTransaction p

end TransactionStateContainer

/-! ## What a push does -/

/-- Of the ids `total` the least are `dropped`, from the queue and from the map. -/
structure Drops (total dropped : Multiset TransactionPriorityId)
    (c c' : TransactionStateContainer Q S) : Prop where
  queue : total = dropped + Q.elems c'.priorityQueue
  least : ∀ p ∈ dropped, ∀ q ∈ Q.elems c'.priorityQueue, p ≤ q
  occupied : (S.occupied c.idToTransactionState).val =
    dropped.map (·.id) + (S.occupied c'.idToTransactionState).val
  get : ∀ id ∈ S.occupied c'.idToTransactionState,
    S.get c'.idToTransactionState id = S.get c.idToTransactionState id
  capacity : c'.capacity = c.capacity
  held : c'.heldTransactions = c.heldTransactions
  slab : S.capacity c'.idToTransactionState = S.capacity c.idToTransactionState

/-- The queue and `rest` have the occupied ids, each once. -/
def Covers (queue rest : Multiset TransactionPriorityId) (states : S.Carrier) : Prop :=
  (queue + rest).map (·.id) = (S.occupied states).val

theorem Covers.cons_remove {queue rest : Multiset TransactionPriorityId}
    (h : Covers (p ::ₘ queue) rest states) :
    ∃ states', S.remove states p.id = some states' ∧ Covers queue rest states' ∧
      (S.occupied states).val = p.id ::ₘ (S.occupied states').val := by
  unfold Covers at h
  rw [cons_add, map_cons] at h
  have hmem : p.id ∈ S.occupied states := by
    rw [← Finset.mem_val, ← h]
    exact mem_cons_self _ _
  obtain ⟨states', hremove⟩ := Option.isSome_iff_exists.mp (S.remove_isSome.mpr hmem)
  have hval : (S.occupied states').val = (queue + rest).map (·.id) := by
    rw [S.occupied_remove hremove, Finset.erase_val, ← h, erase_cons_head]
  refine ⟨states', hremove, hval.symm, ?_⟩
  rw [hval, h]

theorem Drops.refl (c : TransactionStateContainer Q S) :
    Drops (Q.elems c.priorityQueue) 0 c c where
  queue := (Multiset.zero_add _).symm
  least p hp := absurd hp (notMem_zero p)
  occupied := by rw [Multiset.map_zero, Multiset.zero_add]
  get _ _ := rfl
  capacity := rfl
  held := rfl
  slab := rfl

variable {c c' : TransactionStateContainer Q S}

/-- A further drop before those of `h`. -/
theorem Drops.cons {dropped : Multiset TransactionPriorityId}
    {queue : Q.Carrier} (hpop : Q.popMin c.priorityQueue = some (p, queue))
    (hremove : S.remove c.idToTransactionState p.id = some states)
    (hoccupied : (S.occupied c.idToTransactionState).val = p.id ::ₘ (S.occupied states).val)
    (h : Drops (Q.elems queue) dropped
      { c with priorityQueue := queue, idToTransactionState := states } c') :
    Drops (Q.elems c.priorityQueue) (p ::ₘ dropped) c c' := by
  obtain ⟨helems, hmin⟩ := Q.popMin_some hpop
  have hocc := h.occupied
  constructor
  · rw [helems, h.queue, cons_add]
  · intro q hq r hr
    rcases mem_cons.mp hq with rfl | hq
    · apply hmin
      rw [helems, h.queue]
      exact mem_cons_of_mem (mem_add.mpr (Or.inr hr))
    · exact h.least q hq r hr
  · rw [hoccupied, hocc, map_cons, cons_add]
  · intro id hid
    rw [h.get id hid]
    have hne : id ≠ p.id := by
      rintro rfl
      have hnodup := (S.occupied c.idToTransactionState).nodup
      rw [hoccupied, nodup_cons, hocc] at hnodup
      exact hnodup.1 (mem_add.mpr (Or.inr hid))
    rw [S.get_remove hremove, if_neg hne]
  · exact h.capacity
  · exact h.held
  · rw [h.slab]
    exact S.capacity_remove hremove

variable {rest : Multiset TransactionPriorityId} {c : TransactionStateContainer Q S}

/-- The loop does not panic when the queue is long enough. -/
theorem dropLowest_spec {n : ℕ} (h : Covers (Q.elems c.priorityQueue) rest c.idToTransactionState)
    (hn : n ≤ (Q.elems c.priorityQueue).card) :
    ∃ c' dropped, c.dropLowest n = some c' ∧ dropped.card = n ∧
      Drops (Q.elems c.priorityQueue) dropped c c' := by
  induction n generalizing c with
  | zero => exact ⟨c, 0, rfl, rfl, Drops.refl c⟩
  | succ n ih =>
    cases hpop : Q.popMin c.priorityQueue with
    | none =>
      rw [Q.popMin_none hpop] at hn
      cases hn
    | some out =>
      obtain ⟨p, queue⟩ := out
      have helems := (Q.popMin_some hpop).1
      rw [helems] at h hn
      obtain ⟨states, hremove, hcovers, hoccupied⟩ := h.cons_remove
      rw [card_cons] at hn
      obtain ⟨c', dropped, hloop, hcard, hdrops⟩ :=
        ih (c := { c with priorityQueue := queue, idToTransactionState := states })
          hcovers (Nat.le_of_succ_le_succ hn)
      refine ⟨c', p ::ₘ dropped, ?_, ?_, hdrops.cons hpop hremove hoccupied⟩
      · rw [TransactionStateContainer.dropLowest, hpop]
        show (S.remove c.idToTransactionState p.id >>= _) = _
        rw [hremove]
        exact hloop
      · rw [card_cons, hcard]

/-- A push does not panic when queue and newcomers are as many as the map is over
capacity. -/
theorem pushIdsIntoQueue_spec {ids : List TransactionPriorityId}
    (h : Covers (Q.elems c.priorityQueue + ids) rest c.idToTransactionState)
    (hn : c.excess ≤ (Q.elems c.priorityQueue).card + ids.length) :
    ∃ c' dropped, c.pushIdsIntoQueue ids = some (c.excess, c') ∧ dropped.card = c.excess ∧
      Drops (Q.elems c.priorityQueue + ids) dropped c c' := by
  have helems := Q.elems_pushAll c.priorityQueue ids
  have hcovers : Covers (Q.elems (Q.pushAll c.priorityQueue ids)) rest c.idToTransactionState := by
    rw [helems]
    exact h
  have hcard : c.excess ≤ (Q.elems (Q.pushAll c.priorityQueue ids)).card := by
    rw [helems, card_add, coe_card]
    exact hn
  obtain ⟨c', dropped, hloop, hcard, hdrops⟩ :=
    dropLowest_spec (c := { c with priorityQueue := Q.pushAll c.priorityQueue ids }) hcovers hcard
  refine ⟨c', dropped, ?_, hcard, ?_⟩
  · show (TransactionStateContainer.dropLowest c.excess _ >>= fun c' => some (c.excess, c')) = _
    rw [hloop]
    rfl
  · rw [helems] at hdrops
    exact ⟨hdrops.queue, hdrops.least, hdrops.occupied, hdrops.get, hdrops.capacity, hdrops.held,
      hdrops.slab⟩

theorem Drops.covers {total dropped rest : Multiset TransactionPriorityId}
    (h : Drops total dropped c c') (hc : Covers total rest c.idToTransactionState) :
    Covers (Q.elems c'.priorityQueue) rest c'.idToTransactionState := by
  unfold Covers at hc ⊢
  rw [h.queue, h.occupied, Multiset.add_assoc, Multiset.map_add] at hc
  exact Multiset.add_right_inj.mp hc

/-- After a push the map is within capacity. -/
theorem Drops.len_le {total dropped : Multiset TransactionPriorityId} (h : Drops total dropped c c')
    (hcard : dropped.card = c.excess) : S.len c'.idToTransactionState ≤ c'.capacity := by
  have hlen := congrArg card h.occupied
  rw [card_add, card_map, hcard] at hlen
  have hex : c.excess = S.len c.idToTransactionState - c.capacity := rfl
  have hc : (S.occupied c.idToTransactionState).val.card = S.len c.idToTransactionState := rfl
  have hc' : (S.occupied c'.idToTransactionState).val.card = S.len c'.idToTransactionState := rfl
  rw [h.capacity]
  omega

end Salsa.Container
