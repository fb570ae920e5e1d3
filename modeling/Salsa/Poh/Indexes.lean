import Salsa.Poh.ChannelRuns

/-!
# Salsa.Poh.Indexes — starting indexes in the order of the channel

With indexes tracked, `try_send` and `restart` hold the lock of `transaction_indexes`. So
between taking the lock and dropping it a sender is alone with the index, and its record is the
last one of the channel.
-/

namespace Salsa.Poh

open List Function

variable {Tid : Type}

/-- The records that `f` picks from the part of a trace after its last restart. -/
def sinceRestart (f : Act Tid → Option Record) (tr : List (Act Tid)) : List Record :=
  tr.foldl (fun picked a =>
    match a with
    | .restart _ => []
    | a => picked ++ (f a).toList) []

def totalTransactions (records : List Record) : ℕ := (records.map Record.numTransactions).sum

/-- Between taking and dropping the lock. -/
def SenderPc.critical : SenderPc → Bool
  | .idle | .lock _ => false
  | _ => true

/-- The part of `restart` between taking and dropping the lock. -/
def ReceiverPc.critical : ReceiverPc → Bool
  | .restartStore _ | .restartUnlock => true
  | _ => false

/-- The index is the total of what was sent, with the sender's own record from the moment it
has taken its starting index. -/
def SenderPc.Indexes (index total : ℕ) : SenderPc → Prop
  | .unlockReturn r (.ok start) => start = some total ∧ index = total + r.numTransactions
  | _ => index = total

/-- Where the sender that holds the lock is. -/
def St.holder (s : St Tid) : SenderPc :=
  match s.mem.mutex with
  | some (.sender t) => s.senders t
  | _ => .idle

/-- The lock is held by whom it protects. -/
structure Locked (s : St Tid) : Prop where
  sender : ∀ t, (s.senders t).critical = true → s.mem.mutex = some (.sender t)
  receiver : s.receiver.pc.critical = true → s.mem.mutex = some .receiver

/-- The channel since its last restart: the records went in in the order of their indexes. -/
structure Indexed (tr : List (Act Tid)) (s : St Tid) : Prop where
  order : sinceRestart Act.delivered? tr ++ (s.receiver.pc.popped?.toList ++ s.mem.queue) =
    sinceRestart Act.accepted? tr ++ s.holder.pushed?.toList
  index : (∀ bank, s.receiver.pc ≠ .restartStore bank) →
    s.holder.Indexes s.mem.index (totalTransactions (sinceRestart Act.accepted? tr))
  reset : ∀ bank, s.receiver.pc = .restartStore bank → s.mem.index = 0

variable {t : Tid} {m m' : Mem Tid} {pc pc' : SenderPc} {a : Act Tid} {tr : List (Act Tid)}

theorem sinceRestart_snoc (f : Act Tid → Option Record) (ha : ∀ bank, a ≠ .restart bank) :
    sinceRestart f (tr ++ [a]) = sinceRestart f tr ++ (f a).toList := by
  rw [sinceRestart, foldl_append]
  cases a with
  | restart bank => exact absurd rfl (ha bank)
  | _ => rfl

theorem sinceRestart_restart (f : Act Tid → Option Record) (bank : U64) :
    sinceRestart f (tr ++ [.restart bank]) = [] := by
  rw [sinceRestart, foldl_append]
  rfl

/-! ## Senders -/

/-- The lock is held by `t`, in its critical section, or by nobody. -/
def Owns (t : Tid) (m : Mem Tid) (pc : SenderPc) : Prop :=
  m.mutex = if pc.critical then some (.sender t) else none

theorem Owns.not_receiver (h : Owns t m pc) : m.mutex ≠ some .receiver := by
  rw [h]
  split_ifs <;> simp

/-- The sender that has the lock is the holder, as far as the channel knows. -/
theorem Owns.holder {s : St Tid} (hpc : s.senders t = pc) (h : Owns t s.mem pc) :
    s.holder.pushed? = pc.pushed? ∧
      ∀ index total, s.holder.Indexes index total ↔ pc.Indexes index total := by
  rw [St.holder, h]
  cases pc with
  | idle | lock => exact ⟨rfl, fun _ _ => Iff.rfl⟩
  | _ => simp [SenderPc.critical, hpc]

/-- After its call a sender works with the lock up to its return. -/
theorem SenderStep.owns (h : SenderStep true t m pc a m' pc')
    (hold : pc.critical = true → m.mutex = some (.sender t)) :
    (m' = m ∧ pc = .idle ∧ ∃ r, pc' = .lock r ∧ a = .call t r) ∨ Owns t m pc ∧ Owns t m' pc' := by
  cases h with
  | call r hr => exact Or.inl ⟨rfl, rfl, r, rfl, rfl⟩
  | lock r hfree => exact Or.inr ⟨hfree rfl, rfl⟩
  | unlockRetry | unlockReturn => exact Or.inr ⟨hold rfl, rfl⟩
  | load r =>
    refine Or.inr ⟨hold rfl, ?_⟩
    unfold afterLoad
    split_ifs <;> exact hold rfl
  | _ => exact Or.inr ⟨hold rfl, hold rfl⟩

/-- What a sender does to the queue and the index. -/
theorem SenderStep.indexed (h : SenderStep true t m pc a m' pc') :
    (∃ pushed, m'.queue = m.queue ++ pushed ∧
      a.accepted?.toList ++ pc'.pushed?.toList = pc.pushed?.toList ++ pushed) ∧
    (∀ total, pc.Indexes m.index total →
      pc'.Indexes m'.index (total + totalTransactions a.accepted?.toList)) ∧
    a.delivered? = none ∧ ∀ bank, a ≠ .restart bank := by
  cases h with
  | load r =>
    refine ⟨⟨[], (append_nil _).symm, ?_⟩, fun total hindex => ?_, rfl, nofun⟩
    · unfold afterLoad
      split_ifs <;> rfl
    · unfold afterLoad
      split_ifs <;> exact hindex
  | push r hroom => exact ⟨⟨[r], rfl, rfl⟩, fun _ hindex => hindex, rfl, nofun⟩
  | takeIndex r =>
    refine ⟨⟨[], (append_nil _).symm, rfl⟩, fun total hindex => ?_, rfl, nofun⟩
    cases hindex
    exact ⟨rfl, rfl⟩
  | unlockReturn r result =>
    refine ⟨⟨[], (append_nil _).symm, ?_⟩, fun _ hindex => ?_, rfl, nofun⟩
    · cases result <;> rfl
    · cases result with
      | error e => exact hindex
      | ok start => exact hindex.2
  | _ => exact ⟨⟨[], (append_nil _).symm, rfl⟩, fun _ hindex => hindex, rfl, nofun⟩

/-! ## Steps -/

variable {s s' : St Tid} {r r' : Receiver}

/-- A step that is not a restart moves records on in their order. -/
theorem Indexed.next (hi : Indexed tr s) (hno : ∀ bank, a ≠ .restart bank) (pushed : List Record)
    (hqueue : a.delivered?.toList ++ (s'.receiver.pc.popped?.toList ++ s'.mem.queue) =
      s.receiver.pc.popped?.toList ++ s.mem.queue ++ pushed)
    (hpushed : a.accepted?.toList ++ s'.holder.pushed?.toList = s.holder.pushed?.toList ++ pushed)
    (hindex : (∀ bank, s'.receiver.pc ≠ .restartStore bank) →
      (∀ bank, s.receiver.pc ≠ .restartStore bank) ∧
      ∀ total, s.holder.Indexes s.mem.index total →
        s'.holder.Indexes s'.mem.index (total + totalTransactions a.accepted?.toList))
    (hreset : ∀ bank, s'.receiver.pc = .restartStore bank → s'.mem.index = 0) :
    Indexed (tr ++ [a]) s' := by
  refine ⟨?_, ?_, hreset⟩
  · rw [sinceRestart_snoc _ hno, sinceRestart_snoc _ hno, append_assoc, hqueue, ← append_assoc,
      hi.order, append_assoc, ← hpushed, append_assoc]
  · intro hpc
    obtain ⟨hpc, hindex⟩ := hindex hpc
    rw [sinceRestart_snoc _ hno, totalTransactions, map_append, sum_append]
    exact hindex _ (hi.index hpc)

/-- What the receiver does to the lock. -/
theorem ReceiverStep.mutex (h : ReceiverStep true m r a m' r')
    (hlocked : r.pc.critical = true → m.mutex = some .receiver) :
    (m'.mutex = m.mutex ∨ m.mutex = none ∧ m'.mutex = some .receiver ∨
      m.mutex = some .receiver ∧ m'.mutex = none) ∧
    (r'.pc.critical = true → m'.mutex = some .receiver) := by
  cases h with
  | restartLock bank hfree => exact ⟨Or.inr (Or.inl ⟨hfree rfl, rfl⟩), fun _ => rfl⟩
  | restartStore bank => exact ⟨Or.inl rfl, fun _ => hlocked rfl⟩
  | restartUnlock => exact ⟨Or.inr (Or.inr ⟨hlocked rfl, rfl⟩), nofun⟩
  | restartCheck bank => exact ⟨Or.inl rfl, by split_ifs <;> nofun⟩
  | recvEmpty active hqueue => exact ⟨Or.inl rfl, by cases active <;> nofun⟩
  | _ => exact ⟨Or.inl rfl, nofun⟩

/-- What the receiver does to the queue and the index. -/
theorem ReceiverStep.indexed (h : ReceiverStep true m r a m' r') :
    (∃ bank, a = .restart bank ∧ r.pc = .restartStore bank ∧ r'.pc = .restartUnlock ∧
      m'.queue = m.queue ∧ m'.index = m.index) ∨
    (∀ bank, a ≠ .restart bank) ∧ a.accepted? = none ∧
    a.delivered?.toList ++ (r'.pc.popped?.toList ++ m'.queue) = r.pc.popped?.toList ++ m.queue ∧
    ((∀ bank, r'.pc ≠ .restartStore bank) →
      (∀ bank, r.pc ≠ .restartStore bank) ∧ m'.index = m.index) ∧
    (∀ bank, r'.pc = .restartStore bank → m'.index = 0) := by
  cases h with
  | restartStore bank => exact Or.inl ⟨bank, rfl, rfl, rfl, rfl, rfl⟩
  | recvPop _ _ _ hqueue | recvTimeout _ _ hqueue =>
    rw [hqueue]
    exact Or.inr ⟨nofun, rfl, rfl, fun _ => ⟨nofun, rfl⟩, nofun⟩
  | restartLock bank hfree =>
    exact Or.inr ⟨nofun, rfl, rfl, fun h => absurd rfl (h bank), fun _ _ => rfl⟩
  | restartCheck bank =>
    refine Or.inr ⟨nofun, rfl, ?_, fun _ => ⟨nofun, rfl⟩, ?_⟩
    · split_ifs <;> rfl
    · split_ifs <;> nofun
  | recvEmpty active hqueue =>
    refine Or.inr ⟨nofun, rfl, ?_, fun _ => ⟨nofun, rfl⟩, ?_⟩
    · cases active <;> rfl
    · cases active <;> nofun
  | _ => exact Or.inr ⟨nofun, rfl, rfl, fun _ => ⟨nofun, rfl⟩, nofun⟩

variable [DecidableEq Tid]

theorem Locked.step (hl : Locked s) (h : Step true s a s') : Locked s' := by
  cases h with
  | @sender t a m pc h =>
    rcases h.owns (hl.sender t) with ⟨rfl, hidle, r, rfl, rfl⟩ | ⟨hown, hown'⟩
    · refine ⟨fun t' hc => ?_, hl.receiver⟩
      by_cases heq : t' = t
      · simp [heq, SenderPc.critical] at hc
      · exact hl.sender t' (by simpa [heq] using hc)
    · refine ⟨fun t' hc => ?_, fun hc => absurd (hl.receiver hc) hown.not_receiver⟩
      by_cases heq : t' = t
      · subst heq
        exact hown'.trans (if_pos (by simpa using hc))
      · have hmutex := hl.sender t' (by simpa [heq] using hc)
        rw [hown] at hmutex
        split_ifs at hmutex
        cases hmutex
        exact absurd rfl heq
  | receiver h =>
    obtain ⟨hmutex, hlocked⟩ := h.mutex hl.receiver
    refine ⟨fun t hc => ?_, hlocked⟩
    have hsender := hl.sender t hc
    rcases hmutex with hsame | ⟨hfree, -⟩ | ⟨hheld, -⟩
    · exact hsame.trans hsender
    · cases hfree.symm.trans hsender
    · cases hheld.symm.trans hsender

theorem Indexed.sender (hl : Locked s) (hx : Indexed tr s)
    (h : SenderStep true t s.mem (s.senders t) a m pc) :
    Indexed (tr ++ [a]) { s with mem := m, senders := update s.senders t pc } := by
  obtain ⟨⟨pushed, hqueue, hpushed⟩, hindex, hdel, hno⟩ := h.indexed
  rcases h.owns (hl.sender t) with ⟨rfl, hidle, r, rfl, rfl⟩ | ⟨hown, hown'⟩
  · -- a call changes at most an idle holder
    obtain ⟨hlast, hlast'⟩ :
        (St.holder { s with senders := update s.senders t (.lock r) }).pushed? =
          s.holder.pushed? ∧ ∀ index total,
        (St.holder { s with senders := update s.senders t (.lock r) }).Indexes index total ↔
          s.holder.Indexes index total := by
      simp only [St.holder]
      rcases s.mem.mutex with _ | t' | _
      · exact ⟨rfl, fun _ _ => Iff.rfl⟩
      · by_cases heq : t' = t
        · simp [heq, hidle, SenderPc.pushed?, SenderPc.Indexes]
        · simp [heq]
      · exact ⟨rfl, fun _ _ => Iff.rfl⟩
    refine hx.next hno [] (append_nil _).symm ?_ (fun hpc => ⟨hpc, fun _ => (hlast' _ _).mpr⟩)
      hx.reset
    rw [hlast, append_nil]
    rfl
  · have hstore : ∀ bank, s.receiver.pc ≠ .restartStore bank := by
      intro bank hpc
      exact hown.not_receiver (hl.receiver (by rw [hpc]; rfl))
    obtain ⟨hlast, hlast'⟩ := hown.holder rfl
    obtain ⟨hnext, hnext'⟩ := Owns.holder
      (s := { s with mem := m, senders := update s.senders t pc })
      (update_self ..) hown'
    apply hx.next hno pushed
    · rw [hdel, hqueue, Option.toList_none, nil_append, append_assoc]
    · rw [hnext, hlast, hpushed]
    · refine fun _ => ⟨hstore, fun total htotal => ?_⟩
      rw [hnext']
      exact hindex total ((hlast' _ _).mp htotal)
    · exact fun bank hpc => absurd hpc (hstore bank)

variable [Fintype Tid]

theorem Indexed.step (hi : Inv s) (hl : Locked s) (hx : Indexed tr s) (h : Step true s a s') :
    Indexed (tr ++ [a]) s' := by
  cases h with
  | sender t h => exact hx.sender hl h
  | @receiver a m r h =>
    have hholder : St.holder { s with mem := m, receiver := r } = s.holder := by
      unfold St.holder
      rcases (h.mutex hl.receiver).1 with hsame | ⟨hfree, hheld⟩ | ⟨hheld, hfree⟩
      · rw [hsame]
      · rw [hfree, hheld]
      · rw [hfree, hheld]
    rcases h.indexed with ⟨bank, rfl, hpc, hpc', hqueue, hindex⟩ |
      ⟨hno, hacc, hqueue, hindex, hreset⟩
    · -- nothing is pending at a restart, and no sender has the lock
      have hidle : s.holder = .idle := by
        rw [St.holder, hl.receiver (by rw [hpc]; rfl)]
      have hempty := queue_eq_nil (hi.drained (hi.restarting bank (by rw [hpc]; rfl)).1).2
      rw [hidle] at hholder
      refine ⟨?_, fun _ => ?_, fun bank hstore => ?_⟩
      · rw [sinceRestart_restart, sinceRestart_restart, hholder, hpc', hqueue, hempty]
        rfl
      · rw [sinceRestart_restart, hholder]
        exact hindex.trans (hx.reset bank hpc)
      · rw [hpc'] at hstore
        cases hstore
    · apply hx.next hno []
      · rw [hqueue, append_nil]
      · rw [hacc, hholder, append_nil]
        rfl
      · intro hpc
        rw [hholder, hacc, (hindex hpc).2]
        exact ⟨(hindex hpc).1, fun total htotal => htotal⟩
      · exact hreset

/-- Indexes are given out in the order of the channel: with indexes tracked, whatever the
senders and the receiver do, a successful `try_send` returns the number of the transactions
accepted since the last restart, and the records of that time went through the channel in the
order in which they were accepted. -/
theorem starting_indexes (hrun : (sys true Tid).Run start tr s) :
    (∀ t r index s', Step true s (.sent t r (.ok index)) s' →
      index = some (totalTransactions (sinceRestart Act.accepted? tr))) ∧
    sinceRestart Act.delivered? tr ++ (s.receiver.pc.popped?.toList ++ s.mem.queue) =
      sinceRestart Act.accepted? tr ++ s.holder.pushed?.toList := by
  obtain ⟨hl, hx⟩ : Locked s ∧ Indexed tr s := by
    induction hrun with
    | nil => exact ⟨⟨nofun, nofun⟩, rfl, fun _ => rfl, nofun⟩
    | snoc hrun hstep ih => exact ⟨ih.1.step hstep, ih.2.step (inv_run hrun) ih.1 hstep⟩
  refine ⟨?_, hx.order⟩
  intro u r index s' hstep
  generalize ha : Act.sent u r (.ok index) = a at hstep
  cases hstep with
  | sender t h =>
    generalize hpc : s.senders t = pc at h
    cases h with
    | unlockReturn r' result =>
      cases ha
      have hlock := hl.sender u (by rw [hpc]; rfl)
      have hindex := hx.index fun bank hstore => by
        cases hlock.symm.trans (hl.receiver (by rw [hstore]; rfl))
      simp only [St.holder, hlock, hpc] at hindex
      exact hindex.1
    | _ => cases ha
  | receiver h =>
    have hacc := h.accepted.1
    rw [← ha] at hacc
    cases hacc

/-- Two sends of `twoBatches`, of three transactions: the second one starts at index 3. -/
theorem starting_indexes_second :
    ∃ (tr : List (Act Unit)) (s s' : St Unit), (sys true Unit).Run start tr s ∧
      Step true s (.sent () twoBatches (.ok (some 3))) s' ∧
      totalTransactions (sinceRestart Act.accepted? tr) = 3 ∧
      s.mem.queue = sinceRestart Act.accepted? tr ++ [twoBatches] := by
  have hrun := loneReservation_run.append
    (.cons (.sender () (.push twoBatches (by decide)))
    (.cons (.sender () (.decrement twoBatches))
    (.cons (.sender () (.takeIndex twoBatches))
    (.cons (.sender () (.unlockReturn twoBatches (.ok (some 0))))
    (.cons (.sender () (.call twoBatches (by decide)))
    (.cons (.sender () (.lock twoBatches fun _ => rfl))
    (.cons (.sender () (.load twoBatches))
    (.cons (.sender () (.increment twoBatches (encodedValue 7 (maxAllowedInsertions - 2))))
    (.cons (.sender () (.exchange twoBatches _ rfl))
    (.cons (.sender () (.push twoBatches (by decide)))
    (.cons (.sender () (.decrement twoBatches))
    (.single (.sender () (.takeIndex twoBatches))))))))))))))
  obtain ⟨hindex, horder⟩ := starting_indexes hrun
  refine ⟨_, _, _, hrun, .sender () (.unlockReturn twoBatches _), ?_, horder⟩
  exact Option.some.inj (hindex () _ _ _ (.sender () (.unlockReturn twoBatches _))).symm

end Salsa.Poh
