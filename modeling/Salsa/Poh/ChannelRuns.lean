import Salsa.Poh.Channel

/-!
# Salsa.Poh.ChannelRuns — the record channel over whole runs

What is *pending* is reserved by a sender and not yet pushed, queued, or popped
and not yet credited. Records become pending in one place (the successful
exchange) and stop being pending in one place (the delivery), whatever weight
they are counted with: `pending_step`. Everything else follows from it.
-/

namespace Salsa.Poh

open Threads List Function SenderPc

variable {Tid : Type} {tracking : Bool}

/-! ## Pending records -/

def amount (v : Record → ℕ) (r : Option Record) : ℕ := (r.map v).getD 0

/-- The record for which a sender has reserved space without having pushed it. -/
def SenderPc.reserved? : SenderPc → Option Record
  | .push r => some r
  | _ => none

/-- The record the receiver has popped without having credited it. -/
def ReceiverPc.popped? : ReceiverPc → Option Record
  | .credit r => some r
  | _ => none

def Act.reserved? : Act Tid → Option Record
  | .reserve _ r => some r
  | _ => none

def Act.delivered? : Act Tid → Option Record
  | .deliver r => some r
  | _ => none

attribute [simp] SenderPc.reserved? ReceiverPc.popped? Act.reserved? Act.delivered?

variable (v : Record → ℕ)

@[simp] theorem amount_none : amount v none = 0 := rfl

@[simp] theorem amount_some (r : Record) : amount v (some r) = v r := rfl

@[simp] theorem afterLoad_reserved? (current : U64) (r : Record) :
    (afterLoad current r).reserved? = none := by
  unfold afterLoad
  split_ifs <;> rfl

variable {t : Tid} {m m' : Mem Tid} {pc pc' : SenderPc} {a : Act Tid} {r r' : Receiver}
  {s s' : St Tid} {tr : List (Act Tid)} {bank : U64}

/-- What a sender's step does to its reservation and to the queue. -/
theorem SenderStep.pending (h : SenderStep tracking t m pc a m' pc')
    (hroom : ∀ r, pc = .push r → m.queue.length < maxAllowedInsertions) :
    amount v pc'.reserved? + (m'.queue.map v).sum =
      amount v pc.reserved? + (m.queue.map v).sum + amount v a.reserved? ∧
    a.delivered? = none := by
  cases h with
  | load r =>
    rw [afterLoad_reserved?]
    simp
  | exchange | push => simp [Nat.add_comm]
  | pushFull r hfull =>
    -- the panic would lose the reservation
    have := hroom r rfl
    omega
  | _ => simp

/-- What a receiver's step does to the queue and to its popped record. -/
theorem ReceiverStep.pending (h : ReceiverStep tracking m r a m' r') :
    (m'.queue.map v).sum + amount v r'.pc.popped? + amount v a.delivered? =
      (m.queue.map v).sum + amount v r.pc.popped? ∧
    a.reserved? = none := by
  cases h with
  | recvPop _ _ _ hqueue | recvTimeout _ _ hqueue => simp [hqueue, Nat.add_comm]
  | recvEmpty active hqueue => cases active <;> simp
  | restartCheck bank => split_ifs <;> simp
  | _ => simp

section Pending

variable [Fintype Tid]

def reservedWeight (v : Record → ℕ) (s : St Tid) : ℕ :=
  weight (fun pc : SenderPc => amount v pc.reserved?) s.senders

def pending (v : Record → ℕ) (s : St Tid) : ℕ :=
  reservedWeight v s + (s.mem.queue.map v).sum + amount v s.receiver.pc.popped?

theorem le_reservedWeight {v : Record → ℕ} {r : Record}
    (h : s.senders t = .push r) : v r ≤ reservedWeight v s := by
  have := le_weight (fun pc : SenderPc => amount v pc.reserved?) s.senders t
  simpa [h, reservedWeight] using this

variable [DecidableEq Tid]

/-- Nobody is about to push into a full channel. -/
def Room (s : St Tid) : Prop :=
  ∀ t r, s.senders t = .push r → s.mem.queue.length < maxAllowedInsertions

/-- Records become pending by a reservation and stop being pending by a
delivery. -/
theorem pending_step (h : Step tracking s a s') (hroom : Room s) :
    pending v s' + amount v a.delivered? = pending v s + amount v a.reserved? := by
  cases h with
  | @sender t _ m pc h =>
    obtain ⟨hp, hd⟩ := h.pending v (hroom t)
    have hw := weight_update (fun pc : SenderPc => amount v pc.reserved?) s.senders t pc
    simp only [Poh.pending, reservedWeight, hd, amount_none]
    omega
  | receiver h =>
    obtain ⟨hp, hr⟩ := h.pending v
    simp only [Poh.pending, reservedWeight, hr, amount_none]
    omega

omit [DecidableEq Tid] in
/-- Where nothing is pending for one weight, nothing is for a weight that is
positive on no more records. -/
theorem pending_eq_zero {u v : Record → ℕ} (huv : ∀ r, v r ≠ 0 → u r ≠ 0)
    (h : pending u s = 0) : pending v s = 0 := by
  have hle : ∀ o : Option Record, amount v o ≠ 0 → amount u o ≠ 0 := by
    rintro (_ | r) hv
    · exact hv
    · exact huv r hv
  unfold pending at h ⊢
  have hres : reservedWeight v s = 0 :=
    weight_eq_zero_of_le (fun pc => hle pc.reserved?) (by unfold reservedWeight at h; omega)
  have hqueue : (s.mem.queue.map v).sum = 0 := by
    have hu : (s.mem.queue.map u).sum = 0 := by omega
    rw [sum_eq_zero_iff] at hu ⊢
    intro n hn
    obtain ⟨r, hr, rfl⟩ := mem_map.mp hn
    by_contra hne
    exact huv r hne (hu (u r) (mem_map_of_mem hr))
  have hpop : amount v s.receiver.pc.popped? = 0 := by
    by_contra hne
    have := hle _ hne
    omega
  omega

end Pending

/-! ## What a step does to the word -/

/-- Only the exchange of a sender changes the word. -/
theorem SenderStep.word_cases (h : SenderStep tracking t m pc a m' pc') :
    (m'.word = m.word ∧ a.reserved? = none ∧ a.delivered? = none ∧ ∀ b, a ≠ .restart b) ∨
    ∃ r, a = .reserve t r ∧ pc = .compareExchange r m.word ∧
      m'.word = encodedValue (bankId m.word) (allowedInsertions m.word - r.numBatches) := by
  cases h with
  | exchange r current heq =>
    subst heq
    exact Or.inr ⟨r, rfl, rfl, rfl⟩
  | _ => exact Or.inl ⟨rfl, rfl, rfl, nofun⟩

/-- The receiver credits, shuts down or restarts. -/
theorem ReceiverStep.word_cases (h : ReceiverStep tracking m r a m' r') :
    (m'.word = m.word ∧ r'.down = r.down ∧ a.reserved? = none ∧ a.delivered? = none ∧
      ∀ b, a ≠ .restart b) ∨
    (∃ rec, a = .deliver rec ∧ r.pc = .credit rec ∧ r'.down = r.down ∧
      m'.word = m.word + BitVec.ofNat 64 rec.numBatches) ∨
    (a = .shutdown ∧ r'.down = true ∧ m'.word = shutdownValue) ∨
    (∃ bank, a = .restart bank ∧ r.pc = .restartStore bank ∧ r'.down = false ∧
      m'.word = encodedValue bank maxAllowedInsertions) := by
  cases h with
  | credit rec => exact Or.inr (Or.inl ⟨rec, rfl, rfl, rfl, rfl⟩)
  | shutdown => exact Or.inr (Or.inr (Or.inl ⟨rfl, rfl, rfl⟩))
  | restartStore bank => exact Or.inr (Or.inr (Or.inr ⟨bank, rfl, rfl, rfl, rfl⟩))
  | _ => exact Or.inl ⟨rfl, rfl, rfl, rfl, nofun⟩

/-! ## The invariant -/

/-- 1 between the increment and the decrement of `active_senders`. -/
def SenderPc.activity : SenderPc → ℕ
  | .compareExchange _ _ | .retry _ | .push _ | .decrement _ => 1
  | _ => 0

/-- What a sender has checked so far. -/
def SenderPc.Checked : SenderPc → Prop
  | .idle => True
  | .lock r | .load r | .retry r | .push r | .decrement r | .takeIndex r | .unlockRetry r
  | .unlockReturn r _ => 0 < r.numBatches
  | .increment r current | .compareExchange r current =>
      0 < r.numBatches ∧ bankId current = r.bankId ∧ bankId current ≠ disabledBankId ∧
        r.numBatches ≤ allowedInsertions current
  | .panicked => False

/-- The bank of the `restart` the receiver is in, before its store. -/
def ReceiverPc.restarting? : ReceiverPc → Option U64
  | .restart bank | .restartLock bank | .restartStore bank => some bank
  | _ => none

/-- 1 for a record without batches. -/
def withoutBatches (r : Record) : ℕ := if r.numBatches = 0 then 1 else 0

def one (_ : Record) : ℕ := 1

structure Inv [Fintype Tid] (s : St Tid) : Prop where
  counted : s.mem.active = weight SenderPc.activity s.senders
  checked : ∀ t, (s.senders t).Checked
  mode : s.receiver.down = true ↔ bankId s.mem.word = disabledBankId
  budget : allowedInsertions s.mem.word + pending Record.numBatches s ≤ maxAllowedInsertions
  exact : s.receiver.down = false →
    allowedInsertions s.mem.word + pending Record.numBatches s = maxAllowedInsertions
  valid : pending withoutBatches s = 0
  checking : s.receiver.pc = .safeEmpty → s.receiver.down = true → reservedWeight one s = 0
  drained : s.receiver.safe = true → s.receiver.down = true ∧ pending one s = 0
  restarting : ∀ bank, s.receiver.pc.restarting? = some bank →
    s.receiver.safe = true ∧ bank ≤ maxBankId
  alive : s.receiver.pc ≠ .panicked

section

variable (h : SenderStep tracking t m pc a m' pc')
include h

/-- A sender counts itself in and out of `active_senders`. -/
theorem SenderStep.counted (hroom : ∀ r, pc = .push r →
      m.queue.length < maxAllowedInsertions) (hle : pc.activity ≤ m.active) :
    m'.active + pc.activity = m.active + pc'.activity := by
  cases h with
  | load r =>
    have hload : (afterLoad m.word r).activity = 0 := by
      unfold afterLoad
      split_ifs <;> rfl
    rw [hload]
    rfl
  | pushFull r hfull =>
    have := hroom r rfl
    omega
  | increment r current => rfl
  | retry r => exact Nat.sub_add_cancel hle
  | decrement r => exact Nat.sub_add_cancel hle
  | _ => rfl

/-- The checks of a sender hold until it gives up the word it made them on. -/
theorem SenderStep.checked (hroom : ∀ r, pc = .push r →
      m.queue.length < maxAllowedInsertions) (hc : pc.Checked) : pc'.Checked := by
  cases h with
  | call r hr => exact Record.numBatches_pos hr
  | load r =>
    unfold afterLoad
    split_ifs with h1 h2 h3
    · exact hc
    · exact hc
    · exact hc
    · exact ⟨hc, not_not.mp h2, h1, Nat.le_of_not_lt h3⟩
  | exchange r current heq => exact hc.1
  | exchangeFailed r current hne => exact hc.1
  | pushFull r hfull =>
    have := hroom r rfl
    omega
  | unlockReturn r result => trivial
  | _ => exact hc

/-- A sender holds a reservation right after it made it. -/
theorem SenderStep.reserved : pc'.reserved? = a.reserved? := by
  cases h with
  | load r => exact afterLoad_reserved? m.word r
  | _ => rfl

end

/-- A reserved record is one that an active sender holds. -/
theorem SenderPc.activity_of_reserved {v : Record → ℕ} (pc : SenderPc)
    (h : amount v pc.reserved? ≠ 0) : pc.activity ≠ 0 := by
  cases pc with
  | push r => exact Nat.one_ne_zero
  | _ => exact absurd rfl h

section

variable (h : ReceiverStep tracking m r a m' r')
include h

/-- The answer of `is_safe_to_restart` is remembered until the restart. -/
theorem ReceiverStep.safe_cases (hsafe : r'.safe = true) :
    (r.safe = true ∧ (r.down = true → r'.down = true)) ∨
    (r.pc = .safeEmpty ∧ r.down = true ∧ r'.down = true ∧ m.queue = []) := by
  cases h with
  -- remembered from an earlier answer, or true now
  | safeEmpty =>
    rcases Bool.or_eq_true_iff.mp hsafe with hs | hs
    · exact Or.inl ⟨hs, id⟩
    · obtain ⟨hempty, hdown⟩ := Bool.and_eq_true_iff.mp hs
      exact Or.inr ⟨rfl, hdown, hdown, List.isEmpty_iff.mp hempty⟩
  | shutdown => exact Or.inl ⟨hsafe, fun _ => rfl⟩
  | restartStore bank => exact absurd hsafe Bool.false_ne_true
  | restart bank hbank => exact Or.inl ⟨rfl, id⟩
  | _ => exact Or.inl ⟨hsafe, id⟩

/-- A restart in progress was asked for after a true answer. -/
theorem ReceiverStep.restarting_cases (hb : r'.pc.restarting? = some bank) :
    r'.safe = r.safe ∧ (r.pc.restarting? = some bank ∨ (r.safe = true ∧ bank ≤ maxBankId)) := by
  cases h with
  | restart b hbank =>
    cases hb
    exact ⟨rfl, Or.inr ⟨rfl, hbank⟩⟩
  | restartCheck b =>
    split_ifs at hb with hq
    · exact ⟨rfl, Or.inl hb⟩
    · cases hb
  | restartLock b hfree => exact ⟨rfl, Or.inl hb⟩
  | recvEmpty active hq => cases active <;> cases hb
  | _ => cases hb

/-- Only the assertion of `restart` can fail. -/
theorem ReceiverStep.panicked (hp : r'.pc = .panicked) :
    ∃ bank, r.pc = .restart bank ∧ m.queue ≠ [] := by
  cases h with
  | restartCheck bank =>
    refine ⟨bank, rfl, fun hq => ?_⟩
    simp [hq] at hp
  | recvEmpty active hq => cases active <;> cases hp
  | _ => cases hp

/-- The queue is looked at when no sender was active. -/
theorem ReceiverStep.safeEmpty_pc (hp : r'.pc = .safeEmpty) : m.active = 0 := by
  cases h with
  | safeLoad hactive => exact hactive
  | restartCheck bank => split_ifs at hp
  | recvEmpty active hq => cases active <;> cases hp
  | _ => cases hp

theorem ReceiverStep.active_eq : m'.active = m.active := by
  cases h <;> rfl

end

/-- `is_safe_to_restart` answers true when it finds the queue empty. -/
theorem ReceiverStep.safe_true
    (h : ReceiverStep tracking m r (.safe true) m' r') : r.pc = .safeEmpty ∧ m.queue = [] := by
  generalize ha : (Act.safe true : Act Tid) = a at h
  cases h with
  | safeEmpty =>
    injection ha with hempty
    exact ⟨rfl, List.isEmpty_iff.mp hempty.symm⟩
  | safeBusy hactive => cases ha
  | _ => cases ha

section Invariant

variable [Fintype Tid]

/-- Nothing is pending in the beginning. -/
theorem pending_start : pending v (start : St Tid) = 0 := by
  have hres : reservedWeight v (start : St Tid) = 0 := weight_eq_zero fun _ => rfl
  rw [pending, hres]
  rfl

theorem inv_start : Inv (start : St Tid) where
  counted := (weight_eq_zero fun _ => rfl).symm
  checked := fun _ => trivial
  mode := by simp [start]
  budget := by
    rw [pending_start]
    simp [start]
  exact := by simp [start]
  valid := pending_start _
  checking := by simp [start]
  drained := by simp [start]
  restarting := by simp [start, ReceiverPc.restarting?]
  alive := by simp [start]

/-- Each queued record has a batch, and so has the record about to be pushed. -/
theorem Inv.room (hi : Inv s) : Room s := by
  intro t r ht
  have hr : 0 < r.numBatches := by simpa [ht, SenderPc.Checked] using hi.checked t
  have hres := le_reservedWeight (v := Record.numBatches) ht
  have hqueue : s.mem.queue.length ≤ (s.mem.queue.map Record.numBatches).sum := by
    have hvalid := hi.valid
    simp only [pending, Nat.add_eq_zero_iff, sum_eq_zero_iff] at hvalid
    rw [← length_map]
    refine length_le_sum_of_one_le _ fun n hn => ?_
    obtain ⟨q, hq, rfl⟩ := mem_map.mp hn
    have hzero := hvalid.1.2 _ (mem_map_of_mem hq)
    unfold withoutBatches at hzero
    split_ifs at hzero
    omega
  have hbudget := hi.budget
  unfold pending at hbudget
  omega

theorem Inv.pending_of_checking (hi : Inv s) (hpc : s.receiver.pc = .safeEmpty)
    (hdown : s.receiver.down = true) (hq : s.mem.queue = []) : pending one s = 0 := by
  rw [pending, hi.checking hpc hdown, hq, hpc]
  rfl

variable [DecidableEq Tid]

/-- The kinds of step, with what each does to the word and to the pending records. -/
theorem Inv.step_cases (hi : Inv s) (h : Step tracking s a s') :
    (s'.mem.word = s.mem.word ∧ s'.receiver.down = s.receiver.down ∧
      (∀ v, pending v s' = pending v s) ∧ a.reserved? = none ∧ a.delivered? = none ∧
      ∀ b, a ≠ .restart b) ∨
    (∃ t r, a = .reserve t r ∧ (compareExchange r s.mem.word).Checked ∧
      s'.receiver.down = s.receiver.down ∧ (∀ v, pending v s' = pending v s + v r) ∧
      bankId s'.mem.word = bankId s.mem.word ∧
      allowedInsertions s'.mem.word + r.numBatches = allowedInsertions s.mem.word) ∨
    (∃ r, a = .deliver r ∧ s'.receiver.down = s.receiver.down ∧
      (∀ v, pending v s' + v r = pending v s) ∧ bankId s'.mem.word = bankId s.mem.word ∧
      allowedInsertions s'.mem.word = allowedInsertions s.mem.word + r.numBatches) ∨
    (a = .shutdown ∧ s'.receiver.down = true ∧ (∀ v, pending v s' = pending v s) ∧
      s'.mem.word = shutdownValue) ∨
    (∃ bank, a = .restart bank ∧ bank ≠ disabledBankId ∧ s'.receiver.down = false ∧
      (∀ v, pending v s' = 0) ∧ bankId s'.mem.word = bank ∧
      allowedInsertions s'.mem.word = maxAllowedInsertions) := by
  have hp := fun v => pending_step v h hi.room
  cases h with
  | sender t h =>
    rcases h.word_cases with ⟨hw, hr, hdel, hno⟩ | ⟨r, rfl, ht, hw⟩
    · rw [hr, hdel] at hp
      exact Or.inl ⟨hw, rfl, hp, hr, hdel, hno⟩
    · -- the exchange moves batches from the budget to the pending ones
      have hchecked := ht ▸ hi.checked t
      have hfits := hchecked.2.2.2
      have hle := allowedInsertions_le s.mem.word
      have hlt := bankId_lt s.mem.word
      refine Or.inr (Or.inl ⟨t, r, rfl, hchecked, rfl, hp, ?_, ?_⟩)
      · rw [hw, bankId_encodedValue hlt (by omega)]
      · rw [hw, allowedInsertions_encodedValue hlt (by omega), Nat.sub_add_cancel hfits]
  | @receiver _ m r' h =>
    rcases h.word_cases with ⟨hw, hd, hr, hdel, hno⟩ | ⟨r, rfl, hpc, hd, hw⟩ | ⟨rfl, hd, hw⟩ |
      ⟨bank, rfl, hpc, hd, hw⟩
    · rw [hr, hdel] at hp
      exact Or.inl ⟨hw, hd, hp, hr, hdel, hno⟩
    · -- the credit moves them back, and fits the budget bits
      have hbatches := hp Record.numBatches
      simp only [Act.reserved?, Act.delivered?, amount_none, amount_some] at hbatches
      have hbudget := hi.budget
      refine Or.inr (Or.inr (Or.inl ⟨r, rfl, hd, hp, ?_⟩))
      rw [hw]
      exact fetchAdd_of_fits (by omega)
    · exact Or.inr (Or.inr (Or.inr (Or.inl ⟨rfl, hd, hp, hw⟩)))
    · -- the restart begins with nothing pending
      obtain ⟨hsafe, hbank⟩ := hi.restarting bank (by rw [hpc]; rfl)
      have hlt := toNat_lt_of_le_maxBankId hbank
      refine Or.inr (Or.inr (Or.inr (Or.inr ⟨bank, rfl, ?_, hd, fun v => ?_, ?_, ?_⟩)))
      · rintro rfl
        exact absurd hbank (by decide)
      · exact (hp v).trans (pending_eq_zero (fun _ _ => Nat.one_ne_zero) (hi.drained hsafe).2)
      · rw [hw, bankId_encodedValue hlt le_rfl]
      · rw [hw, allowedInsertions_encodedValue hlt le_rfl]

/-- While the channel is shut down no exchange succeeds. -/
theorem Inv.not_reserve (hi : Inv s) (h : Step tracking s a s')
    (hdown : s.receiver.down = true) : a.reserved? = none := by
  rcases hi.step_cases h with ⟨-, -, -, hr, -⟩ | ⟨t, r, -, hchecked, -⟩ | ⟨r, rfl, -⟩ | ⟨rfl, -⟩ |
    ⟨_, rfl, -⟩
  · exact hr
  · exact absurd (hi.mode.mp hdown) hchecked.2.2.1
  · rfl
  · rfl
  · rfl

/-- The `fetch_add` of a credit fits the budget bits. -/
theorem Inv.credit {r : Record} (hi : Inv s) (h : Step tracking s (.deliver r) s') :
    bankId s'.mem.word = bankId s.mem.word ∧
      allowedInsertions s'.mem.word = allowedInsertions s.mem.word + r.numBatches := by
  rcases hi.step_cases h with ⟨-, -, -, -, hdel, -⟩ | ⟨_, _, ha, -⟩ | ⟨_, ha, -, -, hw⟩ | ⟨ha, -⟩ |
    ⟨_, ha, -⟩
  · cases hdel
  · cases ha
  · cases ha
    exact hw
  · cases ha
  · cases ha

/-- The word, the mode and the pending batches move together. -/
theorem inv_budget (hi : Inv s) (h : Step tracking s a s') :
    (s'.receiver.down = true ↔ bankId s'.mem.word = disabledBankId) ∧
    allowedInsertions s'.mem.word + pending Record.numBatches s' ≤ maxAllowedInsertions ∧
    (s'.receiver.down = false →
      allowedInsertions s'.mem.word + pending Record.numBatches s' = maxAllowedInsertions) := by
  have hbudget := hi.budget
  have hexact := hi.exact
  rcases hi.step_cases h with ⟨hw, hd, hp, -⟩ | ⟨t, r, -, -, hd, hp, hbank, hw⟩ |
    ⟨r, -, hd, hp, hbank, hw⟩ | ⟨-, hd, hp, hw⟩ | ⟨bank, -, hbank, hd, hp, rfl, hw⟩
  · rw [hw, hd, hp]
    exact ⟨hi.mode, hbudget, hexact⟩
  · rw [hd, hbank, hp]
    refine ⟨hi.mode, by omega, fun hup => ?_⟩
    have := hexact hup
    omega
  · rw [hd, hbank, hw]
    have hp := hp Record.numBatches
    refine ⟨hi.mode, by omega, fun hup => ?_⟩
    have := hexact hup
    omega
  · rw [hw, hd, hp, bankId_shutdownValue, allowedInsertions_shutdownValue]
    exact ⟨by simp, by omega, by simp⟩
  · rw [hd, hp, hw]
    simp [hbank]

/-- Every record that becomes pending has passed the checks. -/
theorem inv_valid (hi : Inv s) (h : Step tracking s a s') : pending withoutBatches s' = 0 := by
  have hvalid := hi.valid
  rcases hi.step_cases h with ⟨-, -, hp, -⟩ | ⟨t, r, -, hchecked, -, hp, -⟩ | ⟨r, -, -, hp, -⟩ |
    ⟨-, -, hp, -⟩ | ⟨_, -, -, -, hp, -⟩
  · rw [hp, hvalid]
  · rw [hp, hvalid, withoutBatches, if_neg (Nat.ne_of_gt hchecked.1)]
  · have := hp withoutBatches
    omega
  · rw [hp, hvalid]
  · rw [hp]

/-- Once drained, a channel stays drained until it is restarted. -/
theorem Inv.pending_one (hi : Inv s) (h : Step tracking s a s') (hdown : s.receiver.down = true)
    (hzero : pending one s = 0) : pending one s' = 0 := by
  have hp := pending_step one h hi.room
  rw [hi.not_reserve h hdown, hzero] at hp
  simp only [amount_none] at hp
  omega

omit [DecidableEq Tid] in
theorem queue_eq_nil (h : pending one s = 0) : s.mem.queue = [] := by
  simp only [pending, Nat.add_eq_zero_iff, sum_eq_zero_iff] at h
  refine eq_nil_iff_forall_not_mem.mpr fun q hmem => ?_
  exact Nat.one_ne_zero (h.1.2 _ (mem_map_of_mem hmem))

theorem inv_sender (hi : Inv s) (h : SenderStep tracking t s.mem (s.senders t) a m pc) :
    Inv { s with mem := m, senders := update s.senders t pc } := by
  have hstep : Step tracking s a { s with mem := m, senders := update s.senders t pc } :=
    .sender t h
  obtain ⟨hmode, hbudget, hexact⟩ := inv_budget hi hstep
  have hroom := hi.room t
  refine ⟨?_, ?_, hmode, hbudget, hexact, inv_valid hi hstep, ?_, ?_, hi.restarting, hi.alive⟩
  · have hle := le_weight activity s.senders t
    have hw := weight_update activity s.senders t pc
    have hcount := h.counted hroom (hi.counted ▸ hle)
    have := hi.counted
    show m.active = weight activity (update s.senders t pc)
    omega
  · intro t'
    by_cases heq : t' = t
    · subst heq
      simpa using h.checked hroom (hi.checked t')
    · simpa [heq] using hi.checked t'
  · -- the channel is shut down, so the sender's step reserves nothing
    intro hpc hdown
    have hzero := hi.checking hpc hdown
    have hw := weight_update (fun pc : SenderPc => amount one pc.reserved?) s.senders t pc
    rw [h.reserved, hi.not_reserve hstep hdown] at hw
    simp only [amount_none] at hw
    unfold reservedWeight at hzero
    show weight _ (update s.senders t pc) = 0
    omega
  · intro hsafe
    obtain ⟨hdown, hzero⟩ := hi.drained hsafe
    exact ⟨hdown, hi.pending_one hstep hdown hzero⟩

theorem inv_receiver (hi : Inv s) (h : ReceiverStep tracking s.mem s.receiver a m r) :
    Inv { s with mem := m, receiver := r } := by
  have hstep : Step tracking s a { s with mem := m, receiver := r } := .receiver h
  obtain ⟨hmode, hbudget, hexact⟩ := inv_budget hi hstep
  refine ⟨h.active_eq.trans hi.counted, hi.checked, hmode, hbudget, hexact, inv_valid hi hstep,
    ?_, ?_, ?_, ?_⟩
  · -- no active sender, so no reservation
    intro hpc _
    have hzero : weight activity s.senders = 0 := hi.counted ▸ h.safeEmpty_pc hpc
    exact weight_eq_zero_of_le activity_of_reserved hzero
  · intro hsafe
    rcases h.safe_cases hsafe with ⟨hs, hd⟩ | ⟨hpc, hd, hd', hq⟩
    · obtain ⟨hdown, hzero⟩ := hi.drained hs
      exact ⟨hd hdown, hi.pending_one hstep hdown hzero⟩
    · exact ⟨hd', hi.pending_one hstep hd (hi.pending_of_checking hpc hd hq)⟩
  · intro bank hb
    obtain ⟨hs, hcase⟩ := h.restarting_cases hb
    rw [hs]
    rcases hcase with hcase | hcase
    · exact hi.restarting bank hcase
    · exact hcase
  · intro hp
    obtain ⟨bank, hpc, hq⟩ := h.panicked hp
    obtain ⟨hsafe, -⟩ := hi.restarting bank (by rw [hpc]; rfl)
    exact hq (queue_eq_nil (hi.drained hsafe).2)

theorem inv_step (hi : Inv s) (h : Step tracking s a s') : Inv s' := by
  cases h with
  | sender t h => exact inv_sender hi h
  | receiver h => exact inv_receiver hi h

theorem inv_run (h : (sys tracking Tid).Run start tr s) : Inv s :=
  h.inv Inv inv_start fun _ _ _ hs hi => inv_step hi hs

end Invariant

/-! ## Traces -/

/-- The record that a successful `try_send` returns from. -/
def Act.accepted? : Act Tid → Option Record
  | .sent _ r (.ok _) => some r
  | _ => none

/-- The record that a sender has pushed without having returned. -/
def SenderPc.pushed? : SenderPc → Option Record
  | .decrement r | .takeIndex r | .unlockReturn r (.ok _) => some r
  | _ => none

/-- The weight of the records that `f` picks from a trace. -/
def traceWeight (f : Act Tid → Option Record) (v : Record → ℕ) (tr : List (Act Tid)) : ℕ :=
  ((tr.filterMap f).map v).sum

theorem traceWeight_snoc (f : Act Tid → Option Record) (v : Record → ℕ) (tr : List (Act Tid))
    (a : Act Tid) : traceWeight f v (tr ++ [a]) = traceWeight f v tr + amount v (f a) := by
  unfold traceWeight
  cases h : f a with
  | none => simp [h]
  | some r => simp [h]

/-- Weighing with the indicator of one record counts it. -/
theorem traceWeight_indicator (f : Act Tid → Option Record) (r : Record) (tr : List (Act Tid)) :
    traceWeight f (fun q => if q = r then 1 else 0) tr = (tr.filterMap f).count r := by
  unfold traceWeight
  induction tr.filterMap f with
  | nil => rfl
  | cons q l ih =>
    rw [map_cons, sum_cons, ih, count_cons, Nat.add_comm]
    simp

/-- A sender returns success with the record it reserved space for. -/
theorem SenderStep.accepted (h : SenderStep tracking t m pc a m' pc')
    (hroom : ∀ r, pc = .push r → m.queue.length < maxAllowedInsertions) :
    amount v pc'.pushed? + amount v pc'.reserved? + amount v a.accepted? =
      amount v pc.pushed? + amount v pc.reserved? + amount v a.reserved? := by
  cases h with
  | load r =>
    have hload : (afterLoad m.word r).pushed? = none := by
      unfold afterLoad
      split_ifs <;> rfl
    rw [hload, afterLoad_reserved?]
    rfl
  | exchange | push => simp [pushed?, Act.accepted?]
  | pushFull r hfull =>
    have := hroom r rfl
    omega
  | unlockReturn r result =>
    cases result <;> simp [pushed?, Act.accepted?]
  | _ => rfl

theorem ReceiverStep.accepted
    (h : ReceiverStep tracking m r a m' r') : a.accepted? = none ∧ a.reserved? = none := by
  cases h <;> exact ⟨rfl, rfl⟩

theorem SenderStep.not_safe (h : SenderStep tracking t m pc a m' pc')
    (answer : Bool) : a ≠ .safe answer := by
  cases h <;> nofun

theorem Step.safe_true [DecidableEq Tid] (h : Step tracking s (.safe true) s') :
    s.receiver.pc = .safeEmpty ∧ s.mem.queue = [] := by
  generalize ha : (Act.safe true : Act Tid) = a at h
  cases h with
  | sender t h => exact absurd ha.symm (h.not_safe true)
  | receiver h => exact (ha ▸ h).safe_true

section Traces

variable [Fintype Tid] [DecidableEq Tid]

/-- What was reserved was delivered or is pending. -/
theorem reserved_run (h : (sys tracking Tid).Run start tr s) :
    traceWeight Act.reserved? v tr = traceWeight Act.delivered? v tr + pending v s := by
  induction h with
  | nil =>
    have hzero : pending v (start : St Tid) = 0 := pending_start v
    rw [hzero]
    rfl
  | snoc hrun hstep ih =>
    have hp := pending_step v hstep (inv_run hrun).room
    rw [traceWeight_snoc, traceWeight_snoc]
    omega

/-- What was reserved was returned from or is still with its sender. -/
theorem accepted_run (h : (sys tracking Tid).Run start tr s) :
    traceWeight Act.reserved? v tr = traceWeight Act.accepted? v tr +
      weight (fun pc : SenderPc => amount v pc.pushed? + amount v pc.reserved?) s.senders := by
  induction h with
  | nil =>
    have hzero : weight (fun pc : SenderPc => amount v pc.pushed? + amount v pc.reserved?)
        (start : St Tid).senders = 0 := weight_eq_zero fun _ => rfl
    rw [hzero]
    rfl
  | @snoc tr s s' a hrun hstep ih =>
    rw [traceWeight_snoc, traceWeight_snoc]
    cases hstep with
    | @sender t _ m pc h =>
      have hloc := h.accepted v ((inv_run hrun).room t)
      have hw := weight_update
        (fun pc : SenderPc => amount v pc.pushed? + amount v pc.reserved?) s.senders t pc
      simp only at hw ⊢
      omega
    | receiver h =>
      rw [h.accepted.1, h.accepted.2]
      exact ih

/-- 1 for a record of another bank. -/
def foreign (bank : U64) (r : Record) : ℕ := if r.bankId = bank then 0 else 1

/-- The channel serves one bank: the word holds it or is shut down, and only its
records are pending. -/
structure Serves (bank : U64) (s : St Tid) : Prop where
  word : bankId s.mem.word = bank ∨ bankId s.mem.word = disabledBankId
  pending : pending (foreign bank) s = 0

/-- A channel serves its bank until it is restarted. -/
theorem serves_step (hi : Inv s)
    (h : Step tracking s a s') (ha : ∀ b, a ≠ .restart b) (hs : Serves bank s) :
    Serves bank s' := by
  have hzero := hs.pending
  rcases hi.step_cases h with ⟨hw, -, hp, -⟩ | ⟨t, r, -, hchecked, -, hp, hw, -⟩ |
    ⟨r, -, -, hp, hw, -⟩ | ⟨-, -, hp, hw⟩ | ⟨b, rfl, -⟩
  · exact ⟨hw ▸ hs.word, (hp _).trans hzero⟩
  · -- the sender compared the bank of its record with the bank of the word
    obtain ⟨-, hbank, hne, -⟩ := hchecked
    have hrec : foreign bank r = 0 := if_pos (hbank.symm.trans (hs.word.resolve_right hne))
    refine ⟨hw ▸ hs.word, ?_⟩
    rw [hp, hzero, hrec]
  · have := hp (foreign bank)
    exact ⟨hw ▸ hs.word, by omega⟩
  · refine ⟨Or.inr ?_, (hp _).trans hzero⟩
    rw [hw, bankId_shutdownValue]
  · exact absurd rfl (ha b)

/-- A restart makes the channel serve the new bank. -/
theorem serves_restart (hi : Inv s) (h : Step tracking s (.restart bank) s') : Serves bank s' := by
  rcases hi.step_cases h with ⟨-, -, -, -, -, hno⟩ | ⟨_, _, ha, -⟩ | ⟨_, ha, -⟩ | ⟨ha, -⟩ |
    ⟨b, ha, -, -, hp, hw, -⟩
  · exact absurd rfl (hno bank)
  · cases ha
  · cases ha
  · cases ha
  · cases ha
    exact ⟨Or.inl hw, hp _⟩

theorem serves_run (hi : Inv s) (h : (sys tracking Tid).Run s tr s')
    (hno : ∀ b, Act.restart b ∉ tr) (hs : Serves bank s) : Serves bank s' := by
  refine (h.inv_of_mem (fun s => Inv s ∧ Serves bank s) (fun a => ∀ b, a ≠ .restart b) ?_ ⟨hi, hs⟩
    fun s a s' ha hstep hinv => ?_).2
  · rintro a ha b rfl
    exact hno b ha
  · exact ⟨inv_step hinv.1 hstep, serves_step hinv.1 hstep ha hinv.2⟩

/-! ## The main results -/

/-- In every run of any number of senders with a receiver that restarts only
after a shutdown and a true `is_safe_to_restart`:

* a record delivered after `restart b` and before the next restart carries `b`;
* when `is_safe_to_restart` answers true, every record that a `try_send`
  returned success for has been delivered, as often as it was sent;
* when it does so after a shutdown, what was delivered is exactly what space was
  ever reserved for, so nothing is left behind for the next bank. -/
theorem delivered_and_kept {tr : List (Act Tid)} {s s' : St Tid} {a : Act Tid}
    (hrun : (sys tracking Tid).Run start tr s) (hstep : Step tracking s a s') :
    (∀ pre b post r, tr = pre ++ .restart b :: post → (∀ b', Act.restart b' ∉ post) →
      a = .deliver r → r.bankId = b) ∧
    (a = .safe true → (tr.filterMap Act.accepted?).Subperm (tr.filterMap Act.delivered?)) ∧
    (a = .safe true → s.receiver.down = true →
      (tr.filterMap Act.reserved?).Perm (tr.filterMap Act.delivered?)) := by
  have hi := inv_run hrun
  refine ⟨?_, ?_, ?_⟩
  · rintro pre b post r rfl hno rfl
    obtain ⟨m, m', hpre, hrestart, hpost⟩ := hrun.split_cons
    have him := inv_run hpre
    have hserves := serves_run (inv_step him hrestart) hpost hno (serves_restart him hrestart)
    have hp := pending_step (foreign b) hstep hi.room
    simp only [Act.reserved?, Act.delivered?, amount_none, amount_some, hserves.pending] at hp
    by_contra hne
    rw [show foreign b r = 1 from if_neg hne] at hp
    omega
  · rintro rfl
    obtain ⟨hpc, hqueue⟩ := hstep.safe_true
    refine subperm_ext_iff.mpr fun r _ => ?_
    rw [← traceWeight_indicator, ← traceWeight_indicator]
    have hres := reserved_run (fun q => if q = r then 1 else 0) hrun
    have hacc := accepted_run (fun q => if q = r then 1 else 0) hrun
    have hmono := weight_mono (fun pc : SenderPc => Nat.le_add_left
      (amount (fun q => if q = r then 1 else 0) pc.reserved?)
      (amount (fun q => if q = r then 1 else 0) pc.pushed?)) s.senders
    -- with the queue empty and nothing popped, only reservations are pending
    rw [pending, hqueue, hpc, reservedWeight] at hres
    simp only [map_nil, sum_nil, ReceiverPc.popped?, amount_none] at hres
    omega
  · rintro rfl hdown
    obtain ⟨hpc, hqueue⟩ := hstep.safe_true
    have hzero := hi.pending_of_checking hpc hdown hqueue
    refine perm_iff_count.mpr fun r => ?_
    rw [← traceWeight_indicator, ← traceWeight_indicator, reserved_run _ hrun,
      pending_eq_zero (fun _ _ => Nat.one_ne_zero) hzero, Nat.add_zero]

/-- A record of two batches for bank 7. -/
def twoBatches : Record := ⟨7, [0, 1], [[[]], [[], []]]⟩

/-- A lone sender that has reserved space for `twoBatches`. -/
def loneReservation : St Unit where
  mem :=
    { word := encodedValue 7 (maxAllowedInsertions - 2)
      active := 1
      queue := []
      mutex := some (.sender ())
      index := 0 }
  senders := fun _ => .push twoBatches
  receiver := ⟨.idle, false, false⟩

theorem loneReservation_run :
    (sys true Unit).Run start [.tau, .tau, .safe true, .tau, .tau, .tau, .restart 7, .tau,
      .call () twoBatches, .tau, .tau, .tau, .reserve () twoBatches] loneReservation :=
  .cons (.receiver .isSafe)
    (.cons (.receiver (.safeLoad rfl))
    (.cons (.receiver .safeEmpty)
    (.cons (.receiver (.restart 7 (by decide)))
    (.cons (.receiver (.restartCheck 7))
    (.cons (.receiver (.restartLock 7 fun _ => rfl))
    (.cons (.receiver (.restartStore 7))
    (.cons (.receiver .restartUnlock)
    (.cons (.sender () (.call twoBatches (by decide)))
    (.cons (.sender () (.lock twoBatches fun _ => rfl))
    (.cons (.sender () (.load twoBatches))
    (.cons (.sender () (.increment twoBatches (encodedValue 7 maxAllowedInsertions)))
    (.single (.sender () (.exchange twoBatches _ rfl))))))))))))))

/-- A restart, one send, its delivery and a shutdown, up to the next true answer. -/
theorem delivered_and_kept_once :
    ∃ (tr : List (Act Unit)) (s s' : St Unit), (sys true Unit).Run start tr s ∧
      Step true s (.safe true) s' ∧ s.receiver.down = true ∧
      tr.filterMap Act.accepted? = [twoBatches] ∧
      (tr.filterMap Act.reserved?).Perm (tr.filterMap Act.delivered?) := by
  have hrun := loneReservation_run.append
    (.cons (.sender () (.push twoBatches (by decide)))
    (.cons (.sender () (.decrement twoBatches))
    (.cons (.sender () (.takeIndex twoBatches))
    (.cons (.sender () (.unlockReturn twoBatches (.ok (some 0))))
    (.cons (.receiver (.recvTimeout twoBatches [] rfl))
    (.cons (.receiver (.credit twoBatches))
    (.cons (.receiver .shutdown)
    (.cons (.receiver .isSafe)
    (.single (.receiver (.safeLoad rfl)))))))))))
  refine ⟨_, _, _, hrun, .receiver .safeEmpty, rfl, rfl, ?_⟩
  exact (delivered_and_kept hrun (.receiver .safeEmpty)).2.2 rfl rfl

/-- In every reachable state: while the channel is enabled its budget and the
batches of the pending records add up to the capacity, and while it is shut down
they are at most the capacity. So the `fetch_add` of a received record changes
the budget only, a channel that has been shut down does not appear enabled, and
a push after a reservation finds room. -/
theorem budget_conserved {s : St Tid} (h : (sys tracking Tid).Reachable s) :
    (bankId s.mem.word ≠ disabledBankId →
      allowedInsertions s.mem.word + pending Record.numBatches s = maxAllowedInsertions) ∧
    (bankId s.mem.word = disabledBankId →
      allowedInsertions s.mem.word + pending Record.numBatches s ≤ maxAllowedInsertions) ∧
    (∀ r s', Step tracking s (.deliver r) s' → bankId s'.mem.word = bankId s.mem.word ∧
      allowedInsertions s'.mem.word = allowedInsertions s.mem.word + r.numBatches) ∧
    (s.receiver.down = true ↔ bankId s.mem.word = disabledBankId) ∧
    (∀ t r, s.senders t = .push r → s.mem.queue.length < maxAllowedInsertions) ∧
    ∀ t, s.senders t ≠ .panicked := by
  obtain ⟨s₀, tr, rfl, hrun⟩ := h
  have hi := inv_run hrun
  refine ⟨fun hup => ?_, fun _ => hi.budget, fun r s' hs => hi.credit hs, hi.mode, hi.room, ?_⟩
  · refine hi.exact ?_
    rw [← Bool.not_eq_true]
    exact fun hdown => hup (hi.mode.mp hdown)
  · intro t hpanic
    have hchecked := hi.checked t
    rw [hpanic] at hchecked
    exact hchecked

/-- With two batches reserved the budget is short of the capacity by two. -/
theorem budget_conserved_reserved :
    (sys true Unit).Reachable loneReservation ∧
    allowedInsertions loneReservation.mem.word + pending Record.numBatches loneReservation =
      maxAllowedInsertions := by
  have hreach : (sys true Unit).Reachable loneReservation := ⟨start, _, rfl, loneReservation_run⟩
  exact ⟨hreach, (budget_conserved hreach).1 (by decide)⟩

end Traces

end Salsa.Poh
