import Salsa.Bundle.Consumer

/-!
# Salsa.Block.Crank — the crank transactions in front of a block

`maybe_prepend_crank` serialises the crank transactions of a block into buffers that it uses again
for the next block, and makes views of what the buffers hold. A crank that serialises is lost
where it comes after one that does not (`not_prepends_cranks`).

Transactions, bytes and views are arbitrary; the views of a block are values and not borrows.
-/

namespace Salsa.Block

open List

open Salsa.Bundle (MaxAge)
open Cost (U64)

def maxCrankTxns : ℕ := 3

def maxTxnSize : ℕ := 1232

/-- `crank_buffer` and `crank_lens`. -/
structure CrankBuffers (Byte : Type) where
  crankBuffer : ℕ → List Byte
  crankLens : ℕ → ℕ

/-- What `maybe_prepend_crank` gets for a block. -/
structure CrankBlock (Tx Byte View : Type) where
  /-- `get_tip_programs_crank_bundle`, none for an error -/
  crankTxns : Option (List Tx)
  lamportsPerSignature : U64
  rentExemptAmount : U64
  payerBalance : U64
  translate : List Byte → Option View
  epoch : ℕ
  slot : ℕ
  transactions : List View
  maxAges : List MaxAge

variable {Tx Byte View : Type} (encode : Tx → List Byte)

/-- The bytes of the transaction fit into a buffer. -/
def fits (tx : Tx) : Bool := (encode tx).length ≤ maxTxnSize

/-- `bincode::serialize_into` a cursor over the buffer, with the position it reaches: it fails if
the bytes do not fit, but the first of them are written. -/
def serializeInto (tx : Tx) (buffer : List Byte) : Option ℕ × List Byte :=
  (if fits encode tx then some (encode tx).length else none,
    (encode tx ++ buffer.drop (encode tx).length).take maxTxnSize)

def CrankBuffers.data (self : CrankBuffers Byte) (i : ℕ) : List Byte :=
  (self.crankBuffer i).take (self.crankLens i)

/-- Buffer `i` after serialising into it; a failure leaves the old length. -/
def CrankBuffers.write (self : CrankBuffers Byte) (i : ℕ) (len : Option ℕ) (buffer : List Byte) :
    CrankBuffers Byte :=
  ⟨Function.update self.crankBuffer i buffer,
    Function.update self.crankLens i (len.getD (self.crankLens i))⟩

/-- The first loop: the cranks are serialised into the buffers from `i` on, and those that succeed
are counted. -/
def serializeCranks : List Tx → ℕ → CrankBuffers Byte → ℕ × CrankBuffers Byte
  | [], _, buffers => (0, buffers)
  | tx :: txs, i, buffers =>
      let (len, buffer) := serializeInto encode tx (buffers.crankBuffer i)
      let (crankCount, buffers) := serializeCranks txs (i + 1) (buffers.write i len buffer)
      (if len.isSome then crankCount + 1 else crankCount, buffers)

namespace CrankBlock

variable (block : CrankBlock Tx Byte View)

def crankMaxAge : MaxAge := ⟨block.epoch, block.slot⟩

/-- The payer can pay for the cranks; `u64` arithmetic wraps. -/
def funded (txns : List Tx) : Bool :=
  block.rentExemptAmount + BitVec.ofNat 64 txns.length * block.lamportsPerSignature ≤
    block.payerBalance

def maybePrependCrank (buffers : CrankBuffers Byte) :
    (List View × List MaxAge) × CrankBuffers Byte :=
  match block.crankTxns with
  | none => ((block.transactions, block.maxAges), buffers)
  | some txns =>
      if txns.isEmpty || !block.funded txns then ((block.transactions, block.maxAges), buffers)
      else
        let (crankCount, buffers) := serializeCranks encode (txns.take maxCrankTxns) 0 buffers
        let crankViews := (List.range crankCount).filterMap fun i =>
          block.translate (buffers.data i)
        -- the last view goes in first; without views nothing changes
        (crankViews.reverse.foldl (fun b view => (view :: b.1, block.crankMaxAge :: b.2))
          (block.transactions, block.maxAges), buffers)

/-- The cranks that are serialised: none without the funds for all. -/
def tried : List Tx :=
  match block.crankTxns with
  | none => []
  | some txns => if txns.isEmpty || !block.funded txns then [] else txns.take maxCrankTxns

def cranks : List View :=
  (block.tried.filter (fits encode)).filterMap (block.translate ∘ encode)

def withCranks : List View × List MaxAge :=
  (block.cranks encode ++ block.transactions,
    List.replicate (block.cranks encode).length block.crankMaxAge ++ block.maxAges)

/-- No crank that serialises comes after one that does not. -/
def FailuresLast : Prop := block.tried.Pairwise fun a b => fits encode b → fits encode a

end CrankBlock

/-- The blocks of `process_loop`, one after the other with the same buffers. -/
def crankLoop : List (CrankBlock Tx Byte View) → CrankBuffers Byte → List (List View × List MaxAge)
  | [], _ => []
  | block :: blocks, buffers =>
      let (output, buffers) := block.maybePrependCrank encode buffers
      output :: crankLoop blocks buffers

variable {encode} {txs : List Tx} {i : ℕ}

/-- The cranks from `i` on leave the buffers before. -/
theorem data_serializeCranks {j : ℕ} (hj : j < i) (buffers : CrankBuffers Byte) :
    (serializeCranks encode txs i buffers).2.data j = buffers.data j := by
  induction txs generalizing i buffers with
  | nil => rfl
  | cons tx txs ih =>
    exact (ih (Nat.lt_succ_of_lt hj) _).trans
      (by simp [CrankBuffers.data, CrankBuffers.write, Nat.ne_of_lt hj])

/-- Where none serialises, none is counted. -/
theorem serializeCranks_of_not_fits (h : ∀ tx ∈ txs, ¬ fits encode tx)
    (buffers : CrankBuffers Byte) : (serializeCranks encode txs i buffers).1 = 0 := by
  induction txs generalizing i buffers with
  | nil => rfl
  | cons tx txs ih =>
    rw [serializeCranks, serializeInto, if_neg (h tx mem_cons_self)]
    exact ih (fun tx htx => h tx (mem_cons_of_mem _ htx)) _

/-- The buffers below the crank count hold the cranks that serialise. -/
theorem map_data_serializeCranks (h : txs.Pairwise fun a b => fits encode b → fits encode a)
    (buffers : CrankBuffers Byte) :
    (range' i (serializeCranks encode txs i buffers).1).map
      (serializeCranks encode txs i buffers).2.data = (txs.filter (fits encode)).map encode := by
  induction txs generalizing i buffers with
  | nil => rfl
  | cons tx txs ih =>
    obtain ⟨hlater, htxs⟩ := pairwise_cons.mp h
    by_cases hfits : fits encode tx
    · have hlen : (encode tx).length ≤ maxTxnSize := of_decide_eq_true hfits
      rw [serializeCranks, serializeInto, if_pos hfits, filter_cons_of_pos hfits, map_cons]
      dsimp only
      rw [Option.isSome_some, if_pos rfl, range'_succ, map_cons, ih htxs,
        data_serializeCranks (Nat.lt_succ_self i)]
      simp [CrankBuffers.data, CrankBuffers.write, take_take, Nat.min_eq_left hlen]
    · have hnone : ∀ t ∈ tx :: txs, ¬ fits encode t := by
        intro t ht
        rcases mem_cons.mp ht with rfl | ht
        · exact hfits
        · exact fun h => hfits (hlater t ht h)
      rw [serializeCranks_of_not_fits hnone, filter_eq_nil_iff.mpr hnone]
      rfl

/-- Inserting at the front from the last to the first is prepending. -/
theorem foldl_insert_front {α β : Type} (views : List α) (age : β) (transactions : List α)
    (maxAges : List β) :
    views.reverse.foldl (fun b view => (view :: b.1, age :: b.2)) (transactions, maxAges) =
    (views ++ transactions, replicate views.length age ++ maxAges) := by
  rw [foldl_reverse]
  induction views with
  | nil => rfl
  | cons v vs ih => rw [foldr_cons, ih]; rfl

variable {block : CrankBlock Tx Byte View}

/-- One block, whatever an earlier one has left in the buffers. -/
theorem maybePrependCrank_eq (h : block.FailuresLast encode) (buffers : CrankBuffers Byte) :
    (block.maybePrependCrank encode buffers).1 = block.withCranks encode := by
  unfold CrankBlock.maybePrependCrank CrankBlock.withCranks CrankBlock.cranks
  unfold CrankBlock.FailuresLast at h
  unfold CrankBlock.tried at h ⊢
  cases hcranks : block.crankTxns with
  | none => rfl
  | some txns =>
    rw [hcranks] at h
    dsimp only at h ⊢
    split_ifs at h ⊢
    · rfl
    · have hviews := congrArg (filterMap block.translate)
        (map_data_serializeCranks (i := 0) h buffers)
      rw [filterMap_map, filterMap_map, ← range_eq_range'] at hviews
      rw [foldl_insert_front, ← hviews]
      rfl

/-- Over any run of blocks exactly the cranks that serialise and translate are prepended. -/
theorem prepends_cranks {blocks : List (CrankBlock Tx Byte View)}
    (h : ∀ block ∈ blocks, block.FailuresLast encode) (buffers : CrankBuffers Byte) :
    crankLoop encode blocks buffers = blocks.map (CrankBlock.withCranks encode) := by
  induction blocks generalizing buffers with
  | nil => rfl
  | cons block blocks ih =>
    rw [crankLoop, map_cons]
    dsimp only
    rw [maybePrependCrank_eq (h block mem_cons_self), ih fun b hb => h b (mem_cons_of_mem _ hb)]

/-- A block of one transaction with the cranks `txns`. A transaction begins with its length. -/
def blockWith (txns : List (List ℕ)) : CrankBlock (List ℕ) ℕ (List ℕ) :=
  ⟨some txns, 1, 0, 10, fun bytes => if bytes.head? = some bytes.length then some bytes else none,
    0, 0, [[1]], [⟨0, 0⟩]⟩

def tooLong : List ℕ := 1233 :: range 1232

theorem prepends_cranks_two :
    crankLoop id [blockWith [[2, 1], [2, 2]], blockWith [[2, 3], tooLong]]
        ⟨fun _ => [], fun _ => 0⟩ =
      [([[2, 1], [2, 2], [1]], [⟨0, 0⟩, ⟨0, 0⟩, ⟨0, 0⟩]), ([[2, 3], [1]], [⟨0, 0⟩, ⟨0, 0⟩])] := by
  refine (prepends_cranks ?_ _).trans ?_
  · simp [blockWith, CrankBlock.FailuresLast, CrankBlock.tried, CrankBlock.funded, fits, tooLong,
      maxCrankTxns, maxTxnSize]
  · simp [blockWith, CrankBlock.withCranks, CrankBlock.cranks, CrankBlock.tried,
      CrankBlock.funded, CrankBlock.crankMaxAge, fits, tooLong, maxCrankTxns, maxTxnSize]

/-- The first crank of the second block is too long: its first bytes are read instead of the
second crank, which is lost. -/
theorem not_prepends_cranks :
    let blocks := [blockWith [[2, 1], [2, 2]], blockWith [tooLong, [2, 3]]]
    (crankLoop id blocks ⟨fun _ => [], fun _ => 0⟩).map Prod.fst = [[[2, 1], [2, 2], [1]], [[1]]] ∧
    blocks.map (fun b => (b.withCranks id).1) = [[[2, 1], [2, 2], [1]], [[2, 3], [1]]] := by
  have hone : List.range 1 = [0] := rfl
  have htwo : List.range 2 = [0, 1] := rfl
  constructor
  · simp [blockWith, crankLoop, CrankBlock.maybePrependCrank, CrankBlock.funded, serializeCranks,
      serializeInto, CrankBuffers.write, CrankBuffers.data, fits, tooLong, maxCrankTxns, maxTxnSize,
      hone, htwo]
  · simp [blockWith, CrankBlock.withCranks, CrankBlock.cranks, CrankBlock.tried,
      CrankBlock.funded, fits, tooLong, maxCrankTxns, maxTxnSize]

end Salsa.Block
