import Salsa.Lib.LockTable

/-!
# Salsa.Scheduler.Devin — the block scheduler, function by function

`devin_scheduler.rs`. The scheduler hands out contiguous ranges of the
recorded transactions. Two lock maps decide what may run: `running_locks` for
popped and unfinished transactions, `skipped_locks` for the transactions a
search has stepped over. The indexing, the `unwrap` and the `drain` of the
source can panic, so `pop` and `finish` are in `Except Panic`.
-/

namespace Salsa.Devin

open LockTable List

/-- What the scheduler asks of a transaction: its account keys in order, each
with `is_writable`, and `CostModel::calculate_cost(tx, feature_set).sum()`. -/
class TransactionWithMeta (T : Type) (Key : outParam Type) where
  accounts : T → Access Key
  cost : T → ℕ

open TransactionWithMeta

abbrev U32 := Fin (2 ^ 32)

namespace U32

/-- `u32::MAX`, the value of a write lock. -/
def max : U32 := ⟨2 ^ 32 - 1, by decide⟩

def saturatingAdd (v : U32) (n : ℕ) : U32 :=
  ⟨min max.val (v.val + n), lt_of_le_of_lt (Nat.min_le_left _ _) max.isLt⟩

def saturatingSub (v : U32) (n : ℕ) : U32 := ⟨v.val - n, by omega⟩

end U32

/-- `AHashMap<[u8; 32], u32>`. -/
abbrev Locks (Key : Type) := Key → Option U32

structure Range where
  start : ℕ
  stop : ℕ
deriving DecidableEq, Repr

variable {i : ℕ}

namespace Range

def len (r : Range) : ℕ := r.stop - r.start

/-- The indices of the range, in order. -/
def toList (r : Range) : List ℕ := List.range' r.start r.len

instance : Membership ℕ Range := ⟨fun r i => r.start ≤ i ∧ i < r.stop⟩

instance (i : ℕ) (r : Range) : Decidable (i ∈ r) :=
  inferInstanceAs (Decidable (r.start ≤ i ∧ i < r.stop))

@[simp] theorem mem_toList {r : Range} : i ∈ r.toList ↔ i ∈ r := by
  show i ∈ range' r.start (r.stop - r.start) ↔ r.start ≤ i ∧ i < r.stop
  rw [mem_range'_1]
  omega

@[simp] theorem length_toList (r : Range) : r.toList.length = r.len := by
  simp [toList]

end Range

/-- How a call can abort. -/
inductive Panic where
  | indexOutOfBounds
  | unwrapNone
  | drainOutOfBounds
deriving DecidableEq, Repr

structure DevinScheduler (Key : Type) where
  runningLocks : Locks Key
  skippedLocks : Locks Key
  indices : List ℕ
  next : ℕ
  completed : ℕ
  finished : Bool

/-- `MAX_COST`: the cost at which a range is cut. -/
def maxCost : ℕ := 1400000

/-- `MAX_RANGE`: how many transactions one `pop` looks at. -/
def maxRange : ℕ := 64

variable {T Key : Type} [DecidableEq Key] [TransactionWithMeta T Key]

/-! ## Locks -/

def isBlocked (accounts : Access Key) (locks : Locks Key) : Bool :=
  accounts.any fun e =>
    match locks e.1 with
    | some lock => lock == U32.max || (lock != 0 && e.2)
    | none => false

/-- One round of `lock_accounts`: `and_modify` or `or_insert`. -/
def lockAccount (locks : Locks Key) (e : Key × Bool) : Locks Key :=
  Function.update locks e.1 <| some <|
    match locks e.1 with
    | some v => if e.2 then U32.max else v.saturatingAdd 1
    | none => if e.2 then U32.max else 1

def lockAccounts (accounts : Access Key) (locks : Locks Key) : Locks Key :=
  accounts.foldl lockAccount locks

/-- One round of `unlock_accounts`: `and_modify` alone. -/
def unlockAccount (locks : Locks Key) (e : Key × Bool) : Locks Key :=
  Function.update locks e.1 ((locks e.1).map fun v => if e.2 then 0 else v.saturatingSub 1)

def unlockAccounts (accounts : Access Key) (locks : Locks Key) : Locks Key :=
  accounts.foldl unlockAccount locks

/-! ## The scheduler -/

/-- `init`: every field is assigned. -/
def init (transactions : List T) : DevinScheduler Key where
  runningLocks := fun _ => none
  skippedLocks := fun _ => none
  indices := List.range transactions.length
  next := 0
  completed := 0
  finished := false

/-- Take index `i` into the range under construction. -/
def extend : Option Range → ℕ → Range
  | some range, _ => { range with stop := range.stop + 1 }
  | none, i => ⟨i, i + 1⟩

/-- The loop of `pop` over the indices it looks at. The cost is a `u64` that
wraps. -/
def popLoop (transactions : List T) : List ℕ → Option Range → ℕ → DevinScheduler Key →
      Except Panic (Option Range × DevinScheduler Key)
  | [], value, _, self => .ok (value, self)
  | i :: rest, value, total, self =>
      -- only contiguous ranges: stop at the first gap
      if ∃ range ∈ value, i ≠ range.stop then .ok (value, self)
      else
        match transactions[i]? with
        | none => .error .indexOutOfBounds
        | some tx =>
            if isBlocked (accounts tx) self.runningLocks ||
                isBlocked (accounts tx) self.skippedLocks then
              .ok (value, { self with
                next := self.next + 1
                skippedLocks := lockAccounts (accounts tx) self.skippedLocks })
            else
              let self := { self with
                runningLocks := lockAccounts (accounts tx) self.runningLocks }
              let value := some (extend value i)
              let total := (total + cost tx) % 2 ^ 64
              if maxCost < total then .ok (value, self)
              else popLoop transactions rest value total self

/-- `VecDeque::drain(start..start + len)`. -/
def drain (indices : List ℕ) (start len : ℕ) : Except Panic (List ℕ) :=
  if start + len ≤ indices.length then .ok (indices.take start ++ indices.drop (start + len))
  else .error .drainOutOfBounds

def pop (transactions : List T) (self : DevinScheduler Key) :
    Except Panic (Option Range × DevinScheduler Key) :=
  match popLoop transactions ((self.indices.drop self.next).take maxRange) none 0 self with
  | .error p => .error p
  | .ok (none, self) => .ok (none, self)
  | .ok (some range, self) =>
      match self.indices.findIdx? (· == range.start) with
      | none => .error .unwrapNone
      | some start =>
          match drain self.indices start range.len with
          | .error p => .error p
          | .ok indices => .ok (some range, { self with indices := indices })

def unlockRange (transactions : List T) : List ℕ → Locks Key → Except Panic (Locks Key)
  | [], locks => .ok locks
  | i :: rest, locks =>
      match transactions[i]? with
      | none => .error .indexOutOfBounds
      | some tx => unlockRange transactions rest (unlockAccounts (accounts tx) locks)

def finish (transactions : List T) (range : Range) (self : DevinScheduler Key) :
    Except Panic (DevinScheduler Key) :=
  match unlockRange transactions range.toList self.runningLocks with
  | .error p => .error p
  | .ok locks =>
      .ok { self with
        completed := self.completed + range.len
        runningLocks := locks
        skippedLocks := fun _ => none
        next := 0
        finished := self.completed + range.len == transactions.length }

/-! ## The lock maps as tables -/

/-- A key without an entry counts as unlocked. -/
def val (locks : Locks Key) (k : Key) : ℕ :=
  match locks k with
  | some v => v.val
  | none => 0

def u32Max : ℕ := U32.max.val

omit [DecidableEq Key] in
@[simp] theorem val_none : (val fun _ : Key => none) = fun _ => 0 := rfl

variable (locks : Locks Key) {hs : List (Access Key)} {taken : List ℕ}

omit [DecidableEq Key] in
theorem val_le (k : Key) : val locks k ≤ u32Max := by
  unfold val
  cases locks k with
  | none => exact Nat.zero_le _
  | some v => exact Nat.le_pred_of_lt v.isLt

theorem u32Max_ne_zero : u32Max ≠ 0 := by decide

omit [DecidableEq Key] in
theorem isBlocked_iff {a : Access Key} {locks : Locks Key} :
    isBlocked a locks = true ↔ Blocked u32Max (val locks) a := by
  simp only [isBlocked, any_eq_true, Blocked, val]
  refine exists_congr fun e => and_congr_right fun _ => ?_
  cases locks e.1 with
  | none =>
    constructor
    · simp
    · rintro (h | ⟨h, -⟩)
      · exact absurd h.symm u32Max_ne_zero
      · exact absurd rfl h
  | some lock =>
    simp only [Bool.or_eq_true, beq_iff_eq, Bool.and_eq_true, bne_iff_ne, ne_eq, Fin.ext_iff]
    rfl

theorem val_lockAccount (e : Key × Bool) (k : Key) :
    val (lockAccount locks e) k = if e.1 = k then
      (if e.2 then u32Max else min u32Max (val locks k + 1)) else val locks k := by
  unfold val lockAccount
  by_cases h : e.1 = k
  · subst h
    cases hl : locks e.1 with
    | none => cases e.2 <;> simp <;> decide
    | some v => cases e.2 <;> simp [u32Max, U32.saturatingAdd]
  · simp [h, Ne.symm h]

/-- `lock_accounts` takes the locks. -/
theorem lockAccounts_val (a : Access Key) :
    val (lockAccounts a locks) = acquire u32Max a (val locks) := by
  funext k
  unfold lockAccounts
  induction a generalizing locks with
  | nil =>
    have := val_le locks k
    simp [acquire, Writes, reads, this]
  | cons e a ih =>
    rw [foldl_cons, ih]
    -- one entry more: a write, a read of `k`, or another key
    rw [acquire, acquire, val_lockAccount, reads_cons]
    by_cases hk : e.1 = k <;> by_cases hw : Writes a k <;> cases hw' : e.2 <;>
      simp [writes_cons, hk, hw, hw']
    omega

theorem val_unlockAccount (e : Key × Bool) (k : Key) :
    val (unlockAccount locks e) k = if e.1 = k then
      (if e.2 then 0 else val locks k - 1) else val locks k := by
  unfold val unlockAccount
  by_cases h : e.1 = k
  · subst h
    cases hl : locks e.1 with
    | none => cases e.2 <;> simp
    | some v => cases e.2 <;> simp [U32.saturatingSub]
  · simp [h, Ne.symm h]

/-- `unlock_accounts` gives the locks back. -/
theorem unlockAccounts_val (a : Access Key) :
    val (unlockAccounts a locks) = release a (val locks) := by
  funext k
  unfold unlockAccounts
  induction a generalizing locks with
  | nil => simp [release, Writes, reads]
  | cons e a ih =>
    rw [foldl_cons, ih, release, release, val_unlockAccount, reads_cons]
    by_cases hk : e.1 = k <;> by_cases hw : Writes a k <;> cases hw' : e.2 <;>
      simp [writes_cons, hk, hw, hw']
    omega

/-! ## What the loop of `pop` accepts -/

/-- `Accepts transactions skipped value locks taken value' locks'`: one after
the other the indices `taken` continue the range `value` without a gap, are
blocked neither by `skipped` nor by the running locks of that moment, and are
locked; the range and the running locks become `value'` and `locks'`. -/
inductive Accepts (transactions : List T) (skipped : Locks Key) :
    Option Range → Locks Key → List ℕ → Option Range → Locks Key → Prop where
  | nil {value : Option Range} {locks : Locks Key} :
      Accepts transactions skipped value locks [] value locks
  | cons {value value' : Option Range} {locks locks' : Locks Key} {i : ℕ} {taken : List ℕ} {tx : T}
      (hgap : ∀ range ∈ value, i = range.stop) (htx : transactions[i]? = some tx)
      (hrun : isBlocked (accounts tx) locks = false)
      (hskip : isBlocked (accounts tx) skipped = false)
      (htail : Accepts transactions skipped (some (extend value i))
        (lockAccounts (accounts tx) locks)
        taken value' locks') :
      Accepts transactions skipped value locks (i :: taken) value' locks'

def accessAt (transactions : List T) (i : ℕ) : Access Key :=
  (transactions[i]?).elim [] accounts

omit [DecidableEq Key] in
theorem append_accessAt {txs : List T} {tx : T} (htx : txs[i]? = some tx) :
    hs ++ (i :: taken).map (accessAt txs) = (hs ++ [accounts tx]) ++ taken.map (accessAt txs) := by
  simp [accessAt, htx]

namespace Accepts

variable {txs : List T} {skipped locks locks' : Locks Key} {value value' : Option Range}

/-- A range under construction grows by the accepted indices. -/
theorem range_some {r : Range} (h : Accepts txs skipped (some r) locks taken value' locks') :
    taken = range' r.stop taken.length ∧ value' = some ⟨r.start, r.stop + taken.length⟩ := by
  generalize hv : some r = value at h
  induction h generalizing r with
  | nil =>
    subst hv
    exact ⟨rfl, rfl⟩
  | @cons value value' locks locks' i taken tx hgap htx hrun hskip htail ih =>
    subst hv
    obtain rfl : i = r.stop := hgap r rfl
    obtain ⟨h₁, h₂⟩ := ih rfl
    refine ⟨?_, ?_⟩
    · exact congrArg _ h₁
    · rw [h₂, length_cons]
      simp only [extend]
      congr 2
      omega

/-- The accepted indices are the range that `pop` returns. -/
theorem range_none (h : Accepts txs skipped none locks taken value' locks') :
    (taken = [] ∧ value' = none) ∨
      ∃ r : Range, value' = some r ∧ taken = r.toList ∧ r.start < r.stop := by
  cases h with
  | nil => exact Or.inl ⟨rfl, rfl⟩
  | @cons _ _ _ _ i taken tx hgap htx hrun hskip htail =>
    obtain ⟨h₁, h₂⟩ := htail.range_some
    simp only [extend] at h₁ h₂
    refine Or.inr ⟨_, h₂, ?_, by simp only; omega⟩
    have hlen : i + 1 + taken.length - i = taken.length + 1 := by omega
    rw [Range.toList, Range.len, hlen, range'_succ]
    exact congrArg _ h₁

/-- None of the accepted transactions is blocked by what was stepped over. -/
theorem free (h : Accepts txs skipped value locks taken value' locks') :
    ∀ j ∈ taken, isBlocked (accessAt txs j) skipped = false := by
  induction h with
  | nil => simp
  | cons hgap htx hrun hskip htail ih =>
    intro j hj
    rcases mem_cons.mp hj with rfl | hj
    · simpa [accessAt, htx] using hskip
    · exact ih j hj

section

variable (h : Accepts txs skipped value locks taken value' locks')
include h

/-- The running locks are exact again after the accepted transactions, which
therefore conflict neither with what runs nor with each other. -/
theorem represents (hr : Represents u32Max (val locks) hs)
    (hfit : ∀ k, totalReads (hs ++ taken.map (accessAt txs)) k ≤ u32Max) :
    Represents u32Max (val locks') (hs ++ taken.map (accessAt txs)) := by
  induction h generalizing hs with
  | nil => simpa using hr
  | @cons value value' locks locks' i taken tx hgap htx hrun hskip htail ih =>
    rw [append_accessAt htx] at hfit ⊢
    refine ih ?_ hfit
    rw [lockAccounts_val]
    refine hr.acquire u32Max_ne_zero (by rw [← isBlocked_iff, hrun]; simp) fun k => ?_
    have := hfit k
    simp only [totalReads_append, totalReads_cons, totalReads_nil] at this
    omega

/-- The reads of a key stay within a `u32` when no transaction names it for
reading twice, as when they all fit from the start. -/
theorem totalReads_le (hr : Represents u32Max (val locks) hs) (hle : ∀ k, totalReads hs k ≤ u32Max)
    (hreads : ∀ k, (∀ i, reads (accessAt txs i) k ≤ 1) ∨
      totalReads (hs ++ taken.map (accessAt txs)) k ≤ u32Max) :
    ∀ k, totalReads (hs ++ taken.map (accessAt txs)) k ≤ u32Max := by
  induction h generalizing hs with
  | nil => simpa using hle
  | @cons value value' locks locks' i taken tx hgap htx hrun hskip htail ih =>
    have hacc : accessAt txs i = accounts tx := by simp [accessAt, htx]
    have hfree : ¬ Blocked u32Max (val locks) (accounts tx) := by
      rw [← isBlocked_iff, hrun]
      simp
    rw [append_accessAt htx] at hreads ⊢
    have hfit : ∀ k, totalReads hs k + reads (accounts tx) k ≤ u32Max := by
      intro k
      rcases hreads k with honce | hall
      · exact hr.totalReads_le hfree (hle k) (hacc ▸ honce i)
      · simp only [totalReads_append, totalReads_cons, totalReads_nil] at hall
        omega
    refine ih ?_ ?_ hreads
    · rw [lockAccounts_val]
      exact hr.acquire u32Max_ne_zero hfree hfit
    · intro k
      simpa using hfit k

/-- With no bound on the reads, the running locks still claim no more than is
held. -/
theorem bounded (hb : Bounded (val locks) hs) :
    Bounded (val locks') (hs ++ taken.map (accessAt txs)) := by
  induction h generalizing hs with
  | nil => simpa using hb
  | @cons value value' locks locks' i taken tx hgap htx hrun hskip htail ih =>
    rw [append_accessAt htx]
    refine ih ?_
    rw [lockAccounts_val]
    exact hb.acquire _

end

end Accepts

/-- A step over a blocked transaction `b`, or none. -/
def Skips (transactions : List T) (self self' : DevinScheduler Key) (rest : List ℕ) : Prop :=
  (self'.next = self.next ∧ self'.skippedLocks = self.skippedLocks) ∨
  ∃ b rest', rest = b :: rest' ∧ self'.next = self.next + 1 ∧
    self'.skippedLocks = lockAccounts (accessAt transactions b) self.skippedLocks ∧
    (isBlocked (accessAt transactions b) self'.runningLocks = true ∨
      isBlocked (accessAt transactions b) self.skippedLocks = true)

variable (txs : List T)

/-- The loop does not index out of bounds; it accepts a beginning of its list
and steps over at most the index after it; it comes back empty-handed only from
an empty list or after a step over. -/
theorem popLoop_spec (l : List ℕ) (value : Option Range) (total : ℕ) (self : DevinScheduler Key)
    (hl : ∀ i ∈ l, i < txs.length) :
    ∃ value' self' taken rest, popLoop txs l value total self = .ok (value', self') ∧
      l = taken ++ rest ∧
      Accepts txs self.skippedLocks value self.runningLocks taken value' self'.runningLocks ∧
      Skips txs self self' rest ∧
      (value' = none → l = [] ∨ self'.next = self.next + 1) ∧
      self' = { self with runningLocks := self'.runningLocks, skippedLocks := self'.skippedLocks,
                          next := self'.next } := by
  induction l generalizing value total self with
  | nil => exact ⟨value, self, [], [], rfl, rfl, .nil, Or.inl ⟨rfl, rfl⟩, fun _ => Or.inl rfl, rfl⟩
  | cons i l ih =>
    unfold popLoop
    by_cases hgap : ∃ range ∈ value, i ≠ range.stop
    · rw [if_pos hgap]
      refine ⟨value, self, [], i :: l, rfl, rfl, .nil, Or.inl ⟨rfl, rfl⟩, ?_, rfl⟩
      rintro rfl
      simp at hgap
    rw [if_neg hgap]
    have hgap' : ∀ range ∈ value, i = range.stop := by
      intro range hr
      by_contra hne
      exact hgap ⟨range, hr, hne⟩
    obtain ⟨tx, htx⟩ : ∃ tx, txs[i]? = some tx := ⟨_, getElem?_eq_getElem (hl i (by simp))⟩
    have hacc : accessAt txs i = accounts tx := by simp [accessAt, htx]
    simp only [htx]
    by_cases hb : (isBlocked (accounts tx) self.runningLocks ||
        isBlocked (accounts tx) self.skippedLocks) = true
    · rw [if_pos hb]
      refine ⟨value, _, [], i :: l, rfl, rfl, .nil, Or.inr ⟨i, l, rfl, rfl, ?_, ?_⟩,
        fun _ => Or.inr rfl, rfl⟩
      · rw [hacc]
      · rw [hacc]
        simpa using hb
    rw [if_neg hb]
    have hfree : isBlocked (accounts tx) self.runningLocks = false ∧
        isBlocked (accounts tx) self.skippedLocks = false := by simpa using hb
    by_cases hcost : maxCost < (total + cost tx) % 2 ^ 64
    · rw [if_pos hcost]
      exact ⟨_, _, [i], l, rfl, rfl, .cons hgap' htx hfree.1 hfree.2 .nil, Or.inl ⟨rfl, rfl⟩,
        fun h => by simp at h, rfl⟩
    · rw [if_neg hcost]
      obtain ⟨value', self', taken, rest, h₁, rfl, h₂, h₃, -, h₄⟩ :=
        ih (some (extend value i)) ((total + cost tx) % 2 ^ 64)
          { self with runningLocks := lockAccounts (accounts tx) self.runningLocks }
          fun j hj => hl j (by simp [hj])
      refine ⟨value', self', i :: taken, rest, h₁, rfl, .cons hgap' htx hfree.1 hfree.2 h₂, h₃,
        ?_, h₄⟩
      rw [h₂.range_some.2]
      simp

/-! ## `pop` and `finish` -/

/-- `drain` of a middle part. -/
theorem drain_middle (a b c : List ℕ) : drain (a ++ b ++ c) a.length b.length = .ok (a ++ c) := by
  have hle : a.length + b.length ≤ (a ++ b ++ c).length := by simp
  rw [drain, if_pos hle, ← length_append, drop_left, append_assoc, take_left]

/-- In a sorted queue the start of the middle part is found where it is. -/
theorem position_middle {a b : List ℕ} (h : (a ++ i :: b).Pairwise (· < ·)) :
    (a ++ i :: b).findIdx? (· == i) = some a.length := by
  have hlt : ∀ x ∈ a, x < i := fun x hx => (pairwise_append.mp h).2.2 x hx i (by simp)
  have hnone : a.findIdx? (· == i) = none := by
    rw [findIdx?_eq_none_iff]
    intro x hx
    have := hlt x hx
    simp only [beq_eq_false_iff_ne]
    omega
  rw [findIdx?_append, hnone]
  simp [findIdx?_cons]

/-- `pop` on a sorted queue of indices in bounds. -/
theorem pop_spec (self : DevinScheduler Key) (hsorted : self.indices.Pairwise (· < ·))
    (hlt : ∀ i ∈ self.indices, i < txs.length) :
    ∃ value self' taken rest, pop txs self = .ok (value, self') ∧
      self.indices.drop self.next = taken ++ rest ∧
      Accepts txs self.skippedLocks none self.runningLocks taken value self'.runningLocks ∧
      Skips txs self self' rest ∧
      (value = none → self.indices.drop self.next = [] ∨ self'.next = self.next + 1) ∧
      self'.indices = self.indices.take self.next ++ rest ∧
      self'.completed = self.completed ∧ self'.finished = self.finished := by
  obtain ⟨value, self', taken, rest, hloop, hl, hacc, hskip, hstuck, hself⟩ :=
    popLoop_spec txs ((self.indices.drop self.next).take maxRange) none 0 self
      fun i hi => hlt i (mem_of_mem_drop (mem_of_mem_take hi))
  have hidx : self'.indices = self.indices := by rw [hself]
  obtain ⟨rest', hdrop, hskip'⟩ : ∃ rest', self.indices.drop self.next = taken ++ rest' ∧
      Skips txs self self' rest' := by
    refine ⟨rest ++ (self.indices.drop self.next).drop maxRange, ?_, ?_⟩
    · rw [← append_assoc, ← hl, take_append_drop]
    · rcases hskip with h | ⟨b, rest', rfl, h⟩
      · exact Or.inl h
      · exact Or.inr ⟨b, _, rfl, h⟩
  have hstuck' : value = none → self.indices.drop self.next = [] ∨ self'.next = self.next + 1 := by
    intro hv
    refine (hstuck hv).imp_left fun h => ?_
    exact (take_eq_nil_iff.mp h).resolve_left (by decide)
  have hsplit := take_append_drop self.next self.indices
  unfold pop
  rw [hloop]
  rcases hacc.range_none with ⟨rfl, rfl⟩ | ⟨r, rfl, rfl, hlt'⟩
  · -- nothing accepted: the queue stays as it is
    refine ⟨none, self', [], _, rfl, hdrop, hacc, hskip', hstuck', ?_, by rw [hself],
      by rw [hself]⟩
    rw [hidx]
    rw [hdrop, nil_append] at hsplit
    exact hsplit.symm
  · -- the accepted range stands right behind the skipped indices
    rw [hdrop, ← append_assoc] at hsplit
    have hcons : r.toList = r.start :: range' (r.start + 1) (r.len - 1) := by
      have hlen : r.len = (r.len - 1) + 1 := by unfold Range.len; omega
      rw [Range.toList, hlen, range'_succ]
      simp
    have hpos : self.indices.findIdx? (· == r.start) =
        some (self.indices.take self.next).length := by
      rw [← hsplit, hcons, append_assoc] at hsorted
      conv_lhs => rw [← hsplit, hcons, append_assoc]
      exact position_middle hsorted
    have hdrain : drain self.indices (self.indices.take self.next).length r.len =
        .ok (self.indices.take self.next ++ rest') := by
      have := drain_middle (self.indices.take self.next) r.toList rest'
      rwa [hsplit, Range.length_toList] at this
    simp only [hidx, hpos, hdrain]
    exact ⟨some r, _, r.toList, _, rfl, hdrop, hacc, hskip', fun h => by simp at h, rfl,
      by rw [hself], by rw [hself]⟩

/-- The loop of `finish` gives back the locks of its transactions in turn. -/
theorem unlockRange_spec (l : List ℕ) (locks : Locks Key) (hl : ∀ i ∈ l, i < txs.length) :
    ∃ locks', unlockRange txs l locks = .ok locks' ∧
      val locks' = (l.map (accessAt txs)).foldl (fun v a => release a v) (val locks) := by
  induction l generalizing locks with
  | nil => exact ⟨locks, rfl, rfl⟩
  | cons i l ih =>
    obtain ⟨tx, htx⟩ : ∃ tx, txs[i]? = some tx := ⟨_, getElem?_eq_getElem (hl i (by simp))⟩
    have hacc : accessAt txs i = accounts tx := by simp [accessAt, htx]
    obtain ⟨locks', h₁, h₂⟩ :=
      ih (unlockAccounts (accounts tx) locks) fun j hj => hl j (by simp [hj])
    refine ⟨locks', by simpa [unlockRange, htx] using h₁, ?_⟩
    rw [h₂, map_cons, foldl_cons, unlockAccounts_val, hacc]

end Salsa.Devin
