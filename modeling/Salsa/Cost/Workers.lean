import Salsa.Cost.Qos
import Salsa.Lib.Lts

/-!
# Salsa.Cost.Workers — many workers on one cost tracker

Any number of workers reserve block space, announce the transactions they
accepted, update or remove the cost of each, and take them out of flight again.
The batch functions of `QosService` hold the lock of the tracker for a whole
batch; here other workers may come in between any two calls of the tracker, and
`run_selectTransactionsPerCost`, `run_removeOrUpdateCosts` show the batches to be
runs of this system.

The ledger lists the transactions that were accepted and not removed. It is what
the tracker has to account for (`reservation_exact`): the estimate of a
transaction until it is updated, then what it used.
-/

namespace Salsa.Cost

open Saturating List TransactionCost

variable {Key Wid : Type} [DecidableEq Key] [DecidableEq Wid]

/-! ## The system -/

/-- How far an accepted transaction is. -/
inductive Phase (Wid : Type) where
  /-- accepted, the batch not yet announced -/
  | selecting (w : Wid)
  | holding (w : Wid)
  | updated (units loadedCost : U64)
deriving DecidableEq

/-- A transaction that was accepted and not removed. -/
structure Entry (Key Wid : Type) where
  cost : TransactionCost Key
  phase : Phase Wid

namespace Entry

/-- What the transaction costs by now. -/
def amount (e : Entry Key Wid) : ℕ :=
  match e.phase with
  | .updated units loadedCost => e.cost.actualCost units loadedCost
  | _ => e.cost.estimatedCost

def charge (e : Entry Key Wid) (x : Counter Key) : ℕ := e.cost.charge e.amount x

/-- In the batch that `w` selects. -/
def isSelecting (w : Wid) (e : Entry Key Wid) : Bool := e.phase = .selecting w

def isHolding (e : Entry Key Wid) : Bool :=
  match e.phase with
  | .holding _ => true
  | _ => false

def announce (w : Wid) (e : Entry Key Wid) : Entry Key Wid :=
  if e.isSelecting w then { e with phase := .holding w } else e

end Entry

/-- The tracker, the ledger, and for every transaction that was settled and is
still counted in flight the worker that will release it. -/
structure WorkersSt (Key Wid : Type) where
  tracker : CostTracker Key
  ledger : List (Entry Key Wid)
  settled : List Wid

inductive WorkersAct (Key Wid : Type) where
  | reserve (w : Wid) (cost : TransactionCost Key) (reservation : U64)
  | reject (w : Wid) (cost : TransactionCost Key) (reservation : U64) (err : CostTrackerError)
  | announce (w : Wid)
  | update (w : Wid) (cost : TransactionCost Key) (units loadedCost : U64)
  | remove (w : Wid) (cost : TransactionCost Key)
  | release (w : Wid)

inductive WorkersStep :
    WorkersSt Key Wid → WorkersAct Key Wid → WorkersSt Key Wid → Prop where
  | reserve {s : WorkersSt Key Wid} {tracker' costs} (w : Wid)
      (cost : TransactionCost Key) (reservation : U64)
      (hadd : tryAdd s.tracker cost reservation = .ok (costs, tracker')) :
      WorkersStep s (.reserve w cost reservation)
        { s with tracker := tracker', ledger := s.ledger ++ [⟨cost, .selecting w⟩] }
  | reject {s : WorkersSt Key Wid} {err} (w : Wid)
      (cost : TransactionCost Key) (reservation : U64)
      (hadd : tryAdd s.tracker cost reservation = .error err) :
      WorkersStep s (.reject w cost reservation err) s
  | announce {s : WorkersSt Key Wid} (w : Wid) :
      WorkersStep s (.announce w)
        { s with
          tracker := addTransactionsInFlight s.tracker (s.ledger.countP (Entry.isSelecting w))
          ledger := s.ledger.map (Entry.announce w) }
  | update {s : WorkersSt Key Wid} {before after} (w : Wid)
      (cost : TransactionCost Key) (units loadedCost : U64)
      (hledger : s.ledger = before ++ ⟨cost, .holding w⟩ :: after) :
      WorkersStep s (.update w cost units loadedCost)
        { tracker := updateExecutionCost s.tracker cost units loadedCost
          ledger := before ++ ⟨cost, .updated units loadedCost⟩ :: after
          settled := w :: s.settled }
  | remove {s : WorkersSt Key Wid} {before after} (w : Wid)
      (cost : TransactionCost Key) (hledger : s.ledger = before ++ ⟨cost, .holding w⟩ :: after) :
      WorkersStep s (.remove w cost)
        { tracker := remove s.tracker cost
          ledger := before ++ after
          settled := w :: s.settled }
  | release {s : WorkersSt Key Wid} (w : Wid) :
      WorkersStep s (.release w)
        { s with
          tracker := subTransactionsInFlight s.tracker (s.settled.count w)
          settled := s.settled.filter (· ≠ w) }

/-- A tracker without costs, whatever its limits. -/
structure Fresh (tracker : CostTracker Key) : Prop where
  counters : ∀ x, tracker.read x = 0
  inFlight : tracker.inFlightTransactionCount = 0

/-- The workers start with a fresh tracker. -/
def workers (Key Wid : Type) [DecidableEq Key] [DecidableEq Wid] :
    Lts (WorkersSt Key Wid) (WorkersAct Key Wid) where
  Init s := Fresh s.tracker ∧ s.ledger = [] ∧ s.settled = []
  Step := WorkersStep

/-! ## What the tracker accounts for -/

/-- What some entries add to a counter. -/
def ledgerSum (ledger : List (Entry Key Wid)) (x : Counter Key) : ℕ :=
  (ledger.map fun e => e.charge x).sum

def inFlight (s : WorkersSt Key Wid) : ℕ := s.ledger.countP Entry.isHolding + s.settled.length

/-- All sums fit in 64 bits. -/
structure Below (s : WorkersSt Key Wid) : Prop where
  counters : ∀ x, ledgerSum s.ledger x ≤ top 64
  inFlight : inFlight s ≤ top 64

/-- The tracker agrees with the ledger. -/
structure Balanced (s : WorkersSt Key Wid) : Prop where
  counters : ∀ x, s.tracker.read x = ledgerSum s.ledger x
  inFlight : s.tracker.inFlightTransactionCount.toNat = inFlight s

section

omit [DecidableEq Wid]

@[simp] theorem ledgerSum_append (l l' : List (Entry Key Wid)) (x : Counter Key) :
    ledgerSum (l ++ l') x = ledgerSum l x + ledgerSum l' x := by
  simp [ledgerSum]

@[simp] theorem ledgerSum_cons (e : Entry Key Wid) (l : List (Entry Key Wid)) (x : Counter Key) :
    ledgerSum (e :: l) x = e.charge x + ledgerSum l x := by
  simp [ledgerSum]

@[simp] theorem ledgerSum_nil (x : Counter Key) : ledgerSum ([] : List (Entry Key Wid)) x = 0 := rfl

end

variable (w : Wid)

/-- Announcing changes no cost. -/
@[simp] theorem Entry.charge_announce (e : Entry Key Wid) (x : Counter Key) :
    (e.announce w).charge x = e.charge x := by
  unfold announce isSelecting
  split
  · rename_i h
    rw [decide_eq_true_eq] at h
    simp [charge, amount, h]
  · rfl

@[simp] theorem ledgerSum_announce (l : List (Entry Key Wid)) (x : Counter Key) :
    ledgerSum (l.map (Entry.announce w)) x = ledgerSum l x := by
  simp [ledgerSum, Function.comp_def]

omit [DecidableEq Key] in
/-- It puts the batch in flight. -/
theorem countP_isHolding_announce (l : List (Entry Key Wid)) :
    (l.map (Entry.announce w)).countP Entry.isHolding =
      l.countP Entry.isHolding + l.countP (Entry.isSelecting w) := by
  induction l with
  | nil => rfl
  | cons e l ih =>
    obtain ⟨cost, phase⟩ := e
    rw [map_cons, countP_cons, countP_cons, countP_cons, ih]
    by_cases h : phase = .selecting w
    · subst h
      simp only [Entry.announce, Entry.isSelecting, Entry.isHolding, decide_true, if_true]
      simp only [Bool.false_eq_true, if_false]
      omega
    · simp only [Entry.announce, Entry.isSelecting, h, decide_false, Bool.false_eq_true, if_false]
      omega

omit [DecidableEq Wid] in
/-- The entry's own share of the block cost is its amount. -/
theorem amount_le_top {l before after : List (Entry Key Wid)} {e : Entry Key Wid}
    (hl : l = before ++ e :: after) (h : ∀ x, ledgerSum l x ≤ top 64) : e.amount ≤ top 64 := by
  have hcharge : e.charge .blockCost = e.amount := by
    simp [Entry.charge, charge, weight, fixed]
  have hblock := h .blockCost
  rw [hl, ledgerSum_append, ledgerSum_cons] at hblock
  omega

omit [DecidableEq Key] in
/-- An estimate that fits is not capped. -/
theorem toNat_sum_eq {c : TransactionCost Key} (h : c.estimatedCost ≤ top 64) :
    c.sum.toNat = c.estimatedCost := by
  rw [c.toNat_sum, Nat.min_eq_right h]

variable {cost : TransactionCost Key} {reservation : U64}

theorem tryAdd_ok {tracker tracker' : CostTracker Key} {costs : UpdatedCosts}
    (h : tryAdd tracker cost reservation = .ok (costs, tracker')) :
    wouldFit tracker cost reservation = .ok () ∧
      tracker' = (addTransactionCost tracker cost).1 := by
  unfold tryAdd at h
  split at h
  · cases h
  · rename_i hfit
    cases h
    exact ⟨hfit, rfl⟩

/-- Every call keeps the tracker in balance, short of overflow. -/
theorem WorkersStep.balanced {s s' : WorkersSt Key Wid} {a : WorkersAct Key Wid}
    (h : WorkersStep s a s') (hbelow : Below s) (hbelow' : Below s') (hs : Balanced s) :
    Balanced s' := by
  cases h with
  | reserve w cost reservation hadd =>
    obtain ⟨-, rfl⟩ := tryAdd_ok hadd
    have hest : cost.estimatedCost ≤ top 64 := amount_le_top rfl hbelow'.counters
    constructor
    · intro x
      have hx := hbelow'.counters x
      simp only [ledgerSum_append, ledgerSum_cons, ledgerSum_nil, Nat.add_zero] at hx ⊢
      rw [read_addTransactionCost, toNat_sum_eq hest, hs.counters]
      · rfl
      · rw [toNat_sum_eq hest, hs.counters]
        exact hx
    · simp only [inFlight, countP_append, countP_cons, countP_nil]
      exact hs.inFlight
  | reject w cost reservation hadd => exact hs
  | announce w =>
    constructor
    · intro x
      rw [ledgerSum_announce]
      exact (by cases x <;> rfl : _ = s.tracker.read x).trans (hs.counters x)
    · have hroom := hbelow'.inFlight
      have hcount := hs.inFlight
      simp only [inFlight, countP_isHolding_announce] at hroom hcount ⊢
      simp only [addTransactionsInFlight, toNat_clamp]
      omega
  | update w cost units loadedCost hledger =>
    have hest : cost.estimatedCost ≤ top 64 := amount_le_top hledger hbelow.counters
    have hact : cost.actualCost units loadedCost ≤ top 64 := amount_le_top rfl hbelow'.counters
    constructor
    · intro x
      have hx := hbelow'.counters x
      have hread := hs.counters x
      rw [hledger] at hread
      simp only [ledgerSum_append, ledgerSum_cons] at hx hread ⊢
      simp only [Entry.charge, Entry.amount] at hx hread ⊢
      have hupdate : (updateExecutionCost s.tracker cost units loadedCost).read x +
          cost.charge cost.estimatedCost x =
          s.tracker.read x + cost.charge (cost.actualCost units loadedCost) x :=
        read_updateExecutionCost hest hact (by omega) (by omega)
      omega
    · have hcount := hs.inFlight
      simp only [inFlight, hledger, countP_append, countP_cons, Entry.isHolding,
        length_cons] at hcount ⊢
      refine Eq.trans ?_ (hcount.trans ?_)
      · -- only announcing and releasing touch the transactions in flight
        simp only [updateExecutionCost]
        split_ifs <;> rfl
      · simp only [if_true, Bool.false_eq_true, if_false]
        omega
  | remove w cost hledger =>
    have hest : cost.estimatedCost ≤ top 64 := amount_le_top hledger hbelow.counters
    constructor
    · intro x
      have hread := hs.counters x
      rw [hledger] at hread
      simp only [ledgerSum_append, ledgerSum_cons] at hread ⊢
      simp only [Entry.charge, Entry.amount, ← toNat_sum_eq hest] at hread ⊢
      rw [read_remove (by omega)]
      omega
    · have hcount := hs.inFlight
      simp only [inFlight, hledger, countP_append, countP_cons, Entry.isHolding,
        length_cons] at hcount ⊢
      refine hcount.trans ?_
      simp only [if_true]
      omega
  | release w =>
    constructor
    · intro x
      exact (by cases x <;> rfl : _ = s.tracker.read x).trans (hs.counters x)
    · have hcount := hs.inFlight
      have hlength : (s.settled.filter (· ≠ w)).length + s.settled.count w = s.settled.length := by
        have hsplit := length_eq_countP_add_countP (· == w) (l := s.settled)
        simp only [beq_iff_eq, ← ne_eq] at hsplit
        rw [← countP_eq_length_filter, count]
        omega
      simp only [inFlight] at hcount ⊢
      simp only [subTransactionsInFlight, BitVec.toNat_ofNat]
      omega

variable {s : WorkersSt Key Wid}

/-- In every run within the bounds the tracker stays in balance. -/
theorem balanced_of_reachable
    (h : ((workers Key Wid).confine Below).Reachable s) : Below s ∧ Balanced s := by
  refine h.inv (fun s => Below s ∧ Balanced s) ?_ ?_
  · rintro ⟨tracker, ledger, settled⟩ ⟨hfresh, rfl, rfl⟩
    refine ⟨⟨fun x => Nat.zero_le _, Nat.zero_le _⟩, ⟨hfresh.counters, ?_⟩⟩
    exact congrArg BitVec.toNat hfresh.inFlight
  · rintro s a s' ⟨hstep, hbelow'⟩ ⟨hbelow, hs⟩
    exact ⟨hbelow', hstep.balanced hbelow hbelow' hs⟩

/-! ## Exactness -/

/-- The counters are the sums over the accepted and not removed transactions. An
account is charged for every writable occurrence of it, so once by a transaction
that does not repeat it. -/
structure Exact (s : WorkersSt Key Wid) : Prop where
  blockCost : s.tracker.blockCost.toNat = (s.ledger.map Entry.amount).sum
  voteCost : s.tracker.voteCost.toNat =
    ((s.ledger.filter (·.cost.isSimpleVote)).map Entry.amount).sum
  allocated : s.tracker.allocatedAccountsDataSize.toNat =
    (s.ledger.map fun e => e.cost.allocatedAccountsDataSize.toNat).sum
  accountCost : ∀ key, ((s.tracker.costByWritableAccounts key).getD 0).toNat =
    (s.ledger.map fun e => e.cost.writableAccounts.count key * e.amount).sum
  accountCost_once : ∀ key, (∀ e ∈ s.ledger, e.cost.writableAccounts.count key ≤ 1) →
    ((s.tracker.costByWritableAccounts key).getD 0).toNat =
      ((s.ledger.filter (key ∈ ·.cost.writableAccounts)).map Entry.amount).sum
  inFlight : s.tracker.inFlightTransactionCount.toNat = inFlight s

/-- A weighted sum whose weights are zero or one. -/
theorem sum_map_filter {α : Type} (l : List α) (p : α → Bool) (weight amount : α → ℕ)
    (h : ∀ a ∈ l, weight a = if p a then 1 else 0) :
    (l.map fun a => weight a * amount a).sum = ((l.filter p).map amount).sum := by
  induction l with
  | nil => rfl
  | cons a l ih =>
    have ha := h a (by simp)
    have hl := ih fun b hb => h b (by simp [hb])
    rw [map_cons, sum_cons, hl, ha]
    cases hp : p a with
    | false => simp [hp]
    | true => simp [hp]

omit [DecidableEq Wid] in
theorem Balanced.exact (h : Balanced s) : Exact s := by
  have haccount : ∀ key, ((s.tracker.costByWritableAccounts key).getD 0).toNat =
      (s.ledger.map fun e => e.cost.writableAccounts.count key * e.amount).sum :=
    fun key => h.counters (.accountCost key)
  constructor
  case blockCost =>
    refine (h.counters .blockCost).trans ?_
    simp [ledgerSum, Entry.charge, charge, weight, fixed]
  case voteCost =>
    refine (h.counters .voteCost).trans ?_
    exact sum_map_filter s.ledger _ _ _ fun e _ => rfl
  case allocated =>
    refine (h.counters .allocatedAccountsDataSize).trans ?_
    simp [ledgerSum, Entry.charge, charge, weight, fixed]
  case accountCost => exact haccount
  case accountCost_once =>
    intro key honce
    rw [haccount key]
    refine sum_map_filter s.ledger _ _ _ fun e he => ?_
    have hle := honce e he
    by_cases hmem : key ∈ e.cost.writableAccounts
    · have hpos := count_pos_iff.mpr hmem
      simp only [hmem, decide_true, if_true]
      omega
    · simp [hmem, count_eq_zero_of_not_mem]
  case inFlight => exact h.inFlight

/-- What `try_add` checked stays within the limits. -/
structure WithinLimits (tracker : CostTracker Key) (cost : TransactionCost Key) (reservation : U64)
    (tracker' : CostTracker Key) : Prop where
  block : tracker'.blockCost.toNat ≤ tracker.blockCostLimit.toNat - reservation.toNat
  vote : cost.isSimpleVote → tracker'.voteCost.toNat ≤ tracker.voteCostLimit.toNat
  account : ∀ key ∈ cost.writableAccounts,
    ((tracker.costByWritableAccounts key).getD 0).toNat + cost.estimatedCost ≤
      tracker.accountCostLimit.toNat
  allocated : tracker'.allocatedAccountsDataSize.toNat ≤ maxBlockAccountsDataSizeDelta.toNat

omit [DecidableEq Wid] in
/-- The sums of the checks are the sums of the ledger after the reservation. -/
theorem withinLimits_of_wouldFit {w : Wid} {tracker' : CostTracker Key}
    (hfit : wouldFit s.tracker cost reservation = .ok ()) (hs : Balanced s)
    (hs' : Balanced { s with tracker := tracker', ledger := s.ledger ++ [⟨cost, .selecting w⟩] })
    (hbelow' : Below { s with tracker := tracker', ledger := s.ledger ++ [⟨cost, .selecting w⟩] }) :
    WithinLimits s.tracker cost reservation tracker' := by
  have hest : cost.estimatedCost ≤ top 64 := amount_le_top rfl hbelow'.counters
  have hread : ∀ x, tracker'.read x = s.tracker.read x + cost.charge cost.estimatedCost x := by
    intro x
    have hx := hs'.counters x
    simp only [ledgerSum_append, ledgerSum_cons, ledgerSum_nil, Nat.add_zero] at hx
    rw [hx, hs.counters]
    rfl
  have htop : ∀ x, s.tracker.read x + cost.charge cost.estimatedCost x ≤ top 64 := by
    intro x
    rw [← hread, hs'.counters]
    exact hbelow'.counters x
  simp only [wouldFit] at hfit
  split_ifs at hfit with hvote hblock hcost hdata haccount
  simp only [BitVec.lt_def, toNat_saturatingAdd, toNat_saturatingSub, toNat_sum_eq hest, not_and,
    Nat.not_lt] at hvote hblock hcost hdata
  constructor
  case block =>
    have hr : tracker'.blockCost.toNat =
      s.tracker.blockCost.toNat + (1 * cost.estimatedCost + 0) := hread .blockCost
    have := toNat_le_top tracker'.blockCost
    omega
  case vote =>
    intro hsimple
    have hr : tracker'.voteCost.toNat = s.tracker.voteCost.toNat +
      ((if cost.isSimpleVote then 1 else 0) * cost.estimatedCost + 0) := hread .voteCost
    rw [if_pos hsimple] at hr
    have := toNat_le_top tracker'.voteCost
    have := hvote hsimple
    omega
  case account =>
    intro key hkey
    have hr : ((s.tracker.costByWritableAccounts key).getD 0).toNat +
      (cost.writableAccounts.count key * cost.estimatedCost + 0) ≤ top 64 := htop (.accountCost key)
    have hmul : cost.estimatedCost ≤ cost.writableAccounts.count key * cost.estimatedCost :=
      Nat.le_mul_of_pos_left _ (count_pos_iff.mpr hkey)
    cases hentry : s.tracker.costByWritableAccounts key with
    | none =>
      change 0 + cost.estimatedCost ≤ _
      omega
    | some chainedCost =>
      rw [hentry, Option.getD_some] at hr
      rw [Option.getD_some]
      by_contra hlt
      refine haccount (any_eq_true.mpr ⟨key, hkey, ?_⟩)
      rw [hentry, Option.any_some, decide_eq_true_iff, BitVec.lt_def, toNat_saturatingAdd,
        toNat_sum_eq hest]
      omega
  case allocated =>
    have hr : tracker'.allocatedAccountsDataSize.toNat =
      s.tracker.allocatedAccountsDataSize.toNat +
        (0 * cost.estimatedCost + cost.allocatedAccountsDataSize.toNat) :=
      hread .allocatedAccountsDataSize
    have := toNat_le_top tracker'.allocatedAccountsDataSize
    omega

/-- Whatever the workers do, the tracker is exact; a successful `try_add` leaves
the sums it checked within the limits; and when all transactions have been removed
it reads as empty. -/
theorem reservation_exact {s : WorkersSt Key Wid}
    (h : ((workers Key Wid).confine Below).Reachable s) :
    Exact s ∧
    (∀ w cost reservation s', ((workers Key Wid).confine Below).Step s
        (.reserve w cost reservation) s' →
      WithinLimits s.tracker cost reservation s'.tracker) ∧
    (s.ledger = [] → (∀ x, s.tracker.read x = 0) ∧
      s.tracker.inFlightTransactionCount.toNat = s.settled.length) := by
  obtain ⟨hbelow, hs⟩ := balanced_of_reachable h
  refine ⟨hs.exact, ?_, ?_⟩
  · rintro w cost reservation s' ⟨hstep, hbelow'⟩
    have hs' := hstep.balanced hbelow hbelow' hs
    cases hstep with
    | reserve _ _ _ hadd =>
      obtain ⟨hfit, rfl⟩ := tryAdd_ok hadd
      exact withinLimits_of_wouldFit hfit hs hs' hbelow'
  · intro hnil
    refine ⟨fun x => ?_, ?_⟩
    · rw [hs.counters, hnil]
      rfl
    · rw [hs.inFlight, inFlight, hnil]
      exact Nat.zero_add _

/-! ## Batches are runs -/

/-- The selection loop is a run that reserves for the accepted costs. -/
theorem run_selectLoop (reservation : U64) (costs : List (CostResult Key)) (s : WorkersSt Key Wid) :
    ∃ tr s', (workers Key Wid).Run s tr s' ∧
      s'.tracker = (selectLoop reservation s.tracker costs).1 ∧
      s'.ledger = s.ledger ++
        (accepted (selectLoop reservation s.tracker costs).2.1).map (⟨·, .selecting w⟩) ∧
      s'.settled = s.settled := by
  induction costs generalizing s with
  | nil => exact ⟨[], s, .nil, rfl, (append_nil _).symm, rfl⟩
  | cons c costs ih =>
    cases c with
    | error e => exact ih s
    | ok cost =>
      rw [selectLoop]
      cases hadd : tryAdd s.tracker cost reservation with
      | error err =>
        obtain ⟨tr, s', hrun, htracker, hledger, hsettled⟩ := ih s
        exact ⟨_, s', .cons (.reject w cost reservation hadd) hrun, htracker, hledger, hsettled⟩
      | ok result =>
        obtain ⟨updated, tracker'⟩ := result
        have hstep := WorkersStep.reserve w cost reservation hadd
        rcases ih { s with tracker := tracker', ledger := s.ledger ++ [⟨cost, .selecting w⟩] }
          with ⟨tr, s', hrun, htracker, hledger, hsettled⟩
        refine ⟨_, s', .cons hstep hrun, htracker, ?_, hsettled⟩
        rw [hledger, append_assoc]
        rfl

/-- So a whole selection is a run, if the worker has no batch open. -/
theorem run_selectTransactionsPerCost (reservation : U64) (costs : List (CostResult Key))
    (s : WorkersSt Key Wid) (hidle : ∀ e ∈ s.ledger, e.isSelecting w = false) :
    ∃ tr s', (workers Key Wid).Run s tr s' ∧
      s'.tracker = (selectTransactionsPerCost s.tracker costs reservation).1 ∧
      s'.ledger = s.ledger ++
        (accepted (selectTransactionsPerCost s.tracker costs reservation).2.1).map
          (⟨·, .holding w⟩) ∧
      s'.settled = s.settled := by
  obtain ⟨tr, s₁, hrun, htracker, hledger, hsettled⟩ := run_selectLoop w reservation costs s
  obtain ⟨results, hselect, -⟩ := selectLoop_spec reservation s.tracker costs
  rw [hselect] at htracker hledger
  refine ⟨_, _, hrun.snoc (.announce w), ?_, ?_, hsettled⟩
  · have hcount : s₁.ledger.countP (Entry.isSelecting w) = (accepted results).length := by
      rw [hledger, countP_append, countP_eq_zero.mpr (by simpa using hidle),
        countP_map, Nat.zero_add]
      exact countP_eq_length.mpr fun c _ => by simp [Entry.isSelecting]
    simp [selectTransactionsPerCost, hselect, hcount, htracker]
  · have hkeep : s.ledger.map (Entry.announce w) = s.ledger := by
      refine (map_congr_left fun e he => ?_).trans (map_id _)
      rw [Entry.announce, hidle e he]
      rfl
    simp only [selectTransactionsPerCost, hselect, hledger, map_append, hkeep, map_map]
    congr 2
    funext c
    simp [Entry.announce, Entry.isSelecting]

/-- What the ledger keeps of an accepted transaction: its entry with what it used, if committed. -/
def settledEntry (env : Env) : CostResult Key × CommitTransactionDetails → Option (Entry Key Wid)
  | (.ok cost, .committed units loaded _ _) =>
      some ⟨cost, .updated units (calculateLoadedAccountsDataSizeCost env loaded)⟩
  | _ => none

/-- What it keeps of a batch. -/
def settledEntries (env : Env) (results : List (CostResult Key)) :
    Option (List CommitTransactionDetails) → List (Entry Key Wid)
  | some statuses => (results.zip statuses).filterMap (settledEntry env)
  | none => []

/-- An entry of a ledger, wherever it stands. -/
theorem exists_entry {α : Type} {l rest : List α} {e : α} (h : l ~ e :: rest) :
    ∃ before after, l = before ++ e :: after ∧ before ++ after ~ rest := by
  obtain ⟨before, after, rfl⟩ := append_of_mem (h.mem_iff.mpr mem_cons_self)
  exact ⟨before, after, rfl, (perm_middle.symm.trans h).cons_inv⟩

/-- The settling loop is a run that updates or removes every accepted cost. -/
theorem run_settleResult (env : Env) (w : Wid) (results : List (CostResult Key))
    (statuses : List CommitTransactionDetails) (n : ℕ) (s : WorkersSt Key Wid)
    (rest : List (Entry Key Wid)) (hlen : results.length ≤ statuses.length)
    (hledger : s.ledger ~ (accepted results).map (⟨·, .holding w⟩) ++ rest) :
    ∃ tr s', (workers Key Wid).Run s tr s' ∧
      (s'.tracker, n + (accepted results).length) =
        (results.zip statuses).foldl (settleResult env) (s.tracker, n) ∧
      s'.ledger ~ settledEntries env results (some statuses) ++ rest ∧
      s'.settled = replicate (accepted results).length w ++ s.settled := by
  induction results generalizing statuses n s rest with
  | nil => exact ⟨[], s, .nil, rfl, hledger, rfl⟩
  | cons r results ih =>
    cases statuses with
    | nil => cases hlen
    | cons details statuses =>
      have hlen' : results.length ≤ statuses.length := Nat.le_of_succ_le_succ hlen
      cases r with
      | error e => exact ih statuses n s rest hlen' hledger
      | ok cost =>
        rw [accepted_ok, length_cons, replicate_succ', append_assoc,
          Nat.add_comm (accepted results).length, ← Nat.add_assoc]
        obtain ⟨before, after, hbefore, hrest⟩ := exists_entry hledger
        cases details with
        | committed units loaded balance result =>
          let loadedCost := calculateLoadedAccountsDataSizeCost env loaded
          let entry : Entry Key Wid := ⟨cost, .updated units loadedCost⟩
          have hnext : before ++ entry :: after ~
              (accepted results).map (⟨·, .holding w⟩) ++ entry :: rest :=
            perm_middle.trans ((hrest.cons entry).trans perm_middle.symm)
          obtain ⟨tr, s', hrun, htracker, hkept, hsettled⟩ := ih statuses (n + 1)
            { tracker := updateExecutionCost s.tracker cost units loadedCost
              ledger := before ++ entry :: after
              settled := w :: s.settled } (entry :: rest) hlen' hnext
          exact ⟨_, s', .cons (.update w cost units loadedCost hbefore) hrun, htracker,
            hkept.trans perm_middle, hsettled⟩
        | notCommitted err =>
          obtain ⟨tr, s', hrun, htracker, hkept, hsettled⟩ := ih statuses (n + 1)
            { tracker := remove s.tracker cost
              ledger := before ++ after
              settled := w :: s.settled } rest hlen' hrest
          exact ⟨_, s', .cons (.remove w cost hbefore) hrun, htracker, hkept, hsettled⟩

/-- So is settling a whole batch, whether it was recorded or not: of the ledger it changes the
entries of the batch, wherever they stand, and no others. -/
theorem run_removeOrUpdateCosts (env : Env) (w : Wid) (results : List (CostResult Key))
    (statuses : Option (List CommitTransactionDetails)) (s : WorkersSt Key Wid)
    (rest : List (Entry Key Wid))
    (hlen : ∀ l, statuses = some l → results.length ≤ l.length)
    (hledger : s.ledger ~ (accepted results).map (⟨·, .holding w⟩) ++ rest)
    (hsettled : w ∉ s.settled) :
    ∃ tr s', (workers Key Wid).Run s tr s' ∧
      s'.tracker = removeOrUpdateCosts env s.tracker results statuses ∧
      s'.ledger ~ settledEntries env results statuses ++ rest ∧
      s'.settled = s.settled := by
  -- without statuses everything is removed, as if nothing had been committed
  have hsome : ∀ l : List CommitTransactionDetails, results.length ≤ l.length →
      ∃ tr s', (workers Key Wid).Run s tr s' ∧
        s'.tracker = removeOrUpdateCosts env s.tracker results (some l) ∧
        s'.ledger ~ settledEntries env results (some l) ++ rest ∧
        s'.settled = s.settled := by
    intro l hl
    obtain ⟨tr, s₁, hrun, htracker, hkept, hsettled₁⟩ :=
      run_settleResult env w results l 0 s rest hl hledger
    refine ⟨_, _, hrun.snoc (.release w), ?_, hkept, ?_⟩
    · have hcount : s₁.settled.count w = (accepted results).length := by
        rw [hsettled₁, count_append, count_replicate_self,
          count_eq_zero_of_not_mem hsettled, Nat.add_zero]
      rw [removeOrUpdateCosts, removeOrUpdateRecordedTransactionCosts, ← htracker, Nat.zero_add,
        hcount]
    · have hkeep : s.settled.filter (· ≠ w) = s.settled :=
        filter_eq_self.mpr fun v hv => decide_eq_true fun h => hsettled (h ▸ hv)
      simp only [hsettled₁, filter_append, hkeep]
      simp
  cases statuses with
  | some l => exact hsome l (hlen l rfl)
  | none =>
    let errs := replicate results.length TransactionError.commitCancelled
    obtain ⟨tr, s', hrun, htracker, hkept, hs'⟩ := hsome (errs.map .notCommitted) (by simp [errs])
    refine ⟨tr, s', hrun, htracker.trans ?_, ?_, hs'⟩
    · exact removeOrUpdateCosts_notCommitted env s.tracker results errs length_replicate
    · have hnil : (settledEntries env results (some (errs.map .notCommitted)) :
          List (Entry Key Wid)) = [] := by
        apply filterMap_eq_nil_iff.mpr
        rintro ⟨r, details⟩ hmem
        obtain ⟨err, -, rfl⟩ := mem_map.mp (of_mem_zip hmem).2
        cases r with
        | error e => rfl
        | ok cost => rfl
      rw [hnil] at hkept
      exact hkept

/-! ## One reservation -/

/-- One worker has reserved for one transaction. -/
def oneReserved (cost : TransactionCost ℕ) : WorkersSt ℕ ℕ where
  tracker := (addTransactionCost defaultTracker cost).1
  ledger := [⟨cost, .selecting 0⟩]
  settled := []

theorem oneReserved_reachable {cost : TransactionCost ℕ}
    (hfit : wouldFit defaultTracker cost 0 = .ok ())
    (hcost : (cost.writableAccounts.length + 1) * cost.estimatedCost ≤ top 64) :
    ((workers ℕ ℕ).confine Below).Reachable (oneReserved cost) := by
  refine ⟨⟨defaultTracker, [], []⟩, [.reserve 0 cost 0], ?_, .single ⟨?_, ?_⟩⟩
  · refine ⟨⟨fun x => ?_, rfl⟩, rfl, rfl⟩
    cases x <;> rfl
  · have hadd : tryAdd defaultTracker cost 0 =
        .ok (⟨(addTransactionCost defaultTracker cost).1.blockCost,
          (addTransactionCost defaultTracker cost).2⟩,
           (addTransactionCost defaultTracker cost).1) := by
      rw [tryAdd, hfit]
    exact WorkersStep.reserve 0 cost 0 hadd
  · constructor
    · intro x
      change cost.weight x * cost.estimatedCost + cost.fixed x + 0 ≤ top 64
      rw [Nat.add_mul, Nat.one_mul] at hcost
      cases x with
      | accountCost key =>
        have hcount : cost.writableAccounts.count key * cost.estimatedCost ≤
            cost.writableAccounts.length * cost.estimatedCost :=
          Nat.mul_le_mul_right _ count_le_length
        simp only [weight, fixed]
        omega
      | blockCost =>
        simp only [weight, fixed]
        omega
      | voteCost =>
        simp only [weight, fixed]
        split <;> omega
      | transactionCount =>
        simp only [weight, fixed, top]
        omega
      | _ =>
        simp only [weight, fixed, Nat.zero_mul, Nat.zero_add, Nat.add_zero]
        exact toNat_le_top _
    · exact Nat.zero_le _

/-- The transfer, with the estimate of the default compute budget. -/
def transferCost : TransactionCost ℕ := calculateCost defaultEnv (some (3000, 65536)) transfer.tx

theorem reservation_exact_transfer :
    Exact (oneReserved transferCost) ∧ (oneReserved transferCost).tracker.blockCost = 4339 :=
  ⟨(reservation_exact (oneReserved_reachable (by decide) (by decide))).1, by decide⟩

/-- Worker 0 selects the transfer. -/
theorem run_selectTransactionsPerCost_transfer : ∃ tr s', (workers ℕ ℕ).Run
    ⟨defaultTracker, [], []⟩ tr s' ∧ s'.ledger = [⟨transferCost, .holding 0⟩] := by
  obtain ⟨tr, s', hrun, -, hledger, -⟩ :=
    run_selectTransactionsPerCost 0 0 [.ok transferCost] ⟨defaultTracker, [], []⟩ nofun
  exact ⟨tr, s', hrun, hledger⟩

/-- Worker 0 settles two transfers with one of worker 1 between them; the first is committed. -/
theorem run_removeOrUpdateCosts_transfer :
    let s : WorkersSt ℕ ℕ := { oneReserved transferCost with
      ledger :=
        [⟨transferCost, .holding 0⟩, ⟨transferCost, .holding 1⟩, ⟨transferCost, .holding 0⟩] }
    ∃ tr s', (workers ℕ ℕ).Run s tr s' ∧
      s'.ledger ~ [⟨transferCost, .updated 150 8⟩, ⟨transferCost, .holding 1⟩] := by
  intro s
  obtain ⟨tr, s', hrun, -, hledger, -⟩ := run_removeOrUpdateCosts defaultEnv 0
    [.ok transferCost, .ok transferCost]
    (some [.committed 150 1 0 (.ok ()), .notCommitted .commitCancelled]) s
    [⟨transferCost, .holding 1⟩] (by rintro _ ⟨⟩; exact le_rfl) (Perm.cons _ (Perm.swap _ _ []))
    not_mem_nil
  exact ⟨tr, s', hrun, hledger⟩

/-- A transaction that lists account 0 twice as writable. -/
def repeatedCost : TransactionCost ℕ :=
  calculateCost defaultEnv (some (3000, 65536))
    { transfer.tx with accountKeys := [(0, true), (0, true), (2, false)] }

/-- It is charged to the account twice. -/
theorem repeated_account_charged_twice :
    ∃ s : WorkersSt ℕ ℕ, ((workers ℕ ℕ).confine Below).Reachable s ∧
      ((s.tracker.costByWritableAccounts 0).getD 0).toNat ≠
        ((s.ledger.filter (0 ∈ ·.cost.writableAccounts)).map Entry.amount).sum :=
  ⟨oneReserved repeatedCost, oneReserved_reachable (by decide) (by decide), by decide⟩

end Salsa.Cost
