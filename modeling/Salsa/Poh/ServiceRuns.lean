import Salsa.Poh.Service

/-!
# Salsa.Poh.ServiceRuns — what was sent is recorded, while it fits

`accepted v s` weighs the records that a sender got accepted and that are not
recorded yet: pending in the channel, or held by the service. One equation says
what every step does to it (`accepted_step`).
-/

namespace Salsa.Poh

open Salsa.Stream List Function Service Label PohRecorder
open Threads

variable {Tid : Type} {cfg : Config} {tracking : Bool}

/-! ## The channel under the service -/

variable {a : Act Tid}

/-- The service uses the channel as the channel allows. -/
theorem Service.Step.chan [DecidableEq Tid] {s s' : State Tid}
    (h : Service.Step cfg tracking s (.chan a) s') : Poh.Step tracking s.chan a s'.chan := by
  cases h with
  | sender t h => exact Poh.Step.sender t h
  | sync h hs => exact Poh.Step.receiver h

/-! ## Accepted records -/

def Service.held (s : Service) : Option Record :=
  match s.pc with
  | .record r => some r
  | _ => s.nextRecord

/-- The record that a step of the service disposes of. -/
def OwnAct.disposed? : OwnAct → Option Record
  | .recorded r | .failed r _ | .aborted r => some r
  | .tau | .hash => none

def Label.reserved? : Label Tid → Option Record
  | .chan a => a.reserved?
  | .own _ => none

def Label.disposed? : Label Tid → Option Record
  | .chan _ => none
  | .own a => a.disposed?

/-- Where `next_record` may be set. -/
def Service.Clear (s : Service) : Prop :=
  s.nextRecord ≠ none → s.pc = .check ∨ s.pc = .select

theorem Service.Clear.eq_none {s : Service} {pc : ServicePc} (hc : s.Clear) (hpc : s.pc = pc)
    (h : pc ≠ .check ∧ pc ≠ .select) : s.nextRecord = none := by
  by_contra hne
  rw [Service.Clear, hpc] at hc
  exact (hc hne).elim h.1 h.2

theorem Service.held_of_ne {s : Service} (h : ∀ r, s.pc ≠ .record r) : s.held = s.nextRecord := by
  unfold held
  split
  · rename_i r hpc
    exact absurd hpc (h r)
  · rfl

theorem Service.afterHash_ne_record (due : Bool) (r : Record) : afterHash due ≠ .record r := by
  cases due <;> nofun

theorem Service.afterSetBank_ne_record (d : PohRecorder) (bank : Bank) (r : Record) :
    afterSetBank d bank ≠ .record r := by
  unfold afterSetBank
  split_ifs <;> nofun

variable {s s' : Service}

/-- The service drops the record it holds when it has disposed of it. -/
theorem OwnStep.held {a : OwnAct} (h : OwnStep cfg s a s') (hc : s.Clear) (v : Record → ℕ) :
    amount v s'.held + amount v a.disposed? = amount v s.held := by
  cases h with
  | selectRecord r hpc hnext =>
    simp [held, hpc, hnext, OwnAct.disposed?]
  | record _ _ _ hpc | recordFailed _ _ _ hpc | recordAborted _ hpc =>
    have hnone := hc.eq_none hpc ⟨nofun, nofun⟩
    simp [held, hpc, hnone, OwnAct.disposed?]
  | hashedKeep due hpc hkeep =>
    rw [held_of_ne (afterHash_ne_record due), held_of_ne (by rw [hpc]; nofun)]
    rfl
  | handleSetBank bank d hpc hexit hmessage hset =>
    rw [held_of_ne (afterSetBank_ne_record d bank), held_of_ne (by rw [hpc]; nofun)]
    rfl
  | noExit hpc | noMessage hpc | selectHash hpc | recordedKeep _ hpc | hash hpc | waitOver hpc
  | waitPoll hpc | tick hpc | checkRecord hpc | checkFree hpc | checkAsk hpc | handleNone hpc
  | handleReset _ _ _ hpc | handleAborted hpc | restartAborted _ hpc | goOn hpc | askExit hpc =>
    simp [held, hpc, OwnAct.disposed?]

variable {r r' : Receiver}

/-- The service holds the record it has received. -/
theorem SyncStep.held (h : SyncStep cfg s r a r' s') (hc : s.Clear) (v : Record → ℕ) :
    amount v s'.held = amount v s.held + amount v a.delivered? := by
  cases h with
  | recvEmpty site pc hpc hbusy hidle hnext =>
    cases hnext <;> simp [Service.held, hpc]
  | received site rec hpc =>
    have hnone := hc.eq_none hpc (by simp)
    cases site <;> simp [Service.held, Service.received, hpc, hnone]
  | hashedShutdown due hpc hdown =>
    rw [held_of_ne (afterHash_ne_record due), held_of_ne (by simp [hpc])]
    rfl
  | answer site answer hpc =>
    rw [held_of_ne (fun r => by cases site <;> cases answer <;> rintro ⟨⟩),
      held_of_ne (by simp [hpc])]
    rfl
  | recv | ask | restart | restartStore => rfl
  | exitShutdown hpc | messageShutdown _ hpc | recordedShutdown _ hpc | restartDone _ hpc =>
    simp [held, hpc]

theorem Service.Clear.of_none (h : s.nextRecord = none) : s.Clear := fun hne => absurd h hne

theorem OwnStep.clear {a : OwnAct} (h : OwnStep cfg s a s') (hc : s.Clear) : s'.Clear := by
  cases h with
  | noMessage hpc => exact fun _ => Or.inr rfl
  | waitOver hpc => exact fun _ => Or.inl rfl
  | tick hpc => exact fun _ => Or.inl rfl
  | checkRecord hpc hnext => exact fun _ => Or.inr rfl
  | selectRecord r hpc hnext => exact .of_none rfl
  | selectHash hpc hnext => exact .of_none hnext
  | checkFree hpc hnext hmessage => exact .of_none hnext
  | checkAsk hpc hnext hmessage => exact .of_none hnext
  | noExit hpc | record _ _ _ hpc | recordFailed _ _ _ hpc | recordAborted _ hpc
  | recordedKeep _ hpc | hash hpc | hashedKeep _ hpc | waitPoll hpc | handleNone hpc
  | handleReset _ _ _ hpc | handleSetBank _ _ hpc | handleAborted hpc | restartAborted _ hpc
  | goOn hpc | askExit hpc =>
    exact .of_none (hc.eq_none hpc ⟨nofun, nofun⟩)

theorem SyncStep.clear (h : SyncStep cfg s r a r' s') (hc : s.Clear) : s'.Clear := by
  cases h with
  | messageShutdown message hpc => exact fun _ => Or.inr rfl
  | received site rec hpc =>
    have hnone := hc.eq_none hpc ⟨nofun, nofun⟩
    cases site with
    | record => exact .of_none hnone
    | hash => exact fun _ => Or.inl rfl
    | wait => exact fun _ => Or.inl rfl
  | recv | ask | restart | restartStore => exact hc
  | exitShutdown hpc | recordedShutdown _ hpc | hashedShutdown _ hpc | recvEmpty _ _ hpc
  | answer _ _ hpc | restartDone _ hpc =>
    exact .of_none (hc.eq_none hpc ⟨nofun, nofun⟩)

variable {m m' : Mem Tid} {service : Service} {tr : List (Label Tid)}

theorem SenderStep.not_restart {t : Tid} {pc pc' : SenderPc}
    (h : SenderStep tracking t m pc a m' pc') (bank : U64) : a ≠ .restart bank := by
  cases h <;> nofun

section Accepted

variable [Fintype Tid]

/-- The accepted and unrecorded records, weighed. -/
def accepted (v : Record → ℕ) (s : State Tid) : ℕ :=
  pending v s.chan + amount v s.service.held

variable [DecidableEq Tid]

/-- Records become accepted by a reservation and stop being so when the service
has called `record`. -/
theorem accepted_step (v : Record → ℕ) {s s' : State Tid} {a : Label Tid}
    (h : Service.Step cfg tracking s a s') (hroom : Room s.chan) (hc : s.service.Clear) :
    accepted v s' + amount v a.disposed? = accepted v s + amount v a.reserved? := by
  cases h with
  | @sender t a m pc h =>
    have hp := pending_step v (Poh.Step.sender t h) hroom
    rw [(h.pending v (hroom t)).2] at hp
    simp only [accepted, disposed?, reserved?, amount_none] at hp ⊢
    omega
  | sync h hs =>
    have hp := pending_step v (Poh.Step.receiver h) hroom
    have hh := hs.held hc v
    simp only [accepted, disposed?, reserved?, amount_none] at hp hh ⊢
    omega
  | own h =>
    have hh := h.held hc v
    simp only [accepted, disposed?, reserved?, amount_none] at hh ⊢
    omega

end Accepted

/-! ## Control -/

/-- The program counters at which a tick is due. -/
def ServicePc.Due (pc : ServicePc) : Prop := pc = .tick ∨ pc = .hashed true

/-- Which fields go with which program counters. -/
structure Control (s : Service) (r : Receiver) : Prop where
  clear : s.Clear
  quiet : s.message ≠ none → r.down = true
  due : s.pc.Due → s.recorder.poh.remainingHashesUntilTick = 1
  handling : s.pc = .handle → s.message ≠ none → r.safe = true
  restarting : ∀ bank, s.pc = .restart bank → s.message = none ∧
    (r.pc = .idle → r.safe = true) ∧
    ∀ wb, s.recorder.workingBank = some wb → wb.bank.bankId = bank

theorem ServicePc.due_afterHash {due : Bool} : (afterHash due).Due ↔ due = true := by
  cases due <;> simp [Due, afterHash]

theorem OwnStep.due {a : OwnAct} (h : OwnStep cfg s a s')
    (hdue : s.pc.Due → s.recorder.poh.remainingHashesUntilTick = 1) (hd : s'.pc.Due) :
    s'.recorder.poh.remainingHashesUntilTick = 1 := by
  cases h with
  | hash hpc =>
    rcases hd with hd | hd
    · cases hd
    · injection hd with hd
      exact beq_iff_eq.mp hd
  | hashedKeep due hpc hkeep =>
    refine hdue (Or.inr ?_)
    rw [hpc, ServicePc.due_afterHash.mp hd]
  | handleSetBank bank d hpc hexit hmessage hset =>
    unfold afterSetBank at hd
    split_ifs at hd <;> rcases hd with hd | hd <;> cases hd
  | _ => rcases hd with hd | hd <;> cases hd

theorem SyncStep.due (h : SyncStep cfg s r a r' s')
    (hdue : s.pc.Due → s.recorder.poh.remainingHashesUntilTick = 1) (hd : s'.pc.Due) :
    s'.recorder.poh.remainingHashesUntilTick = 1 := by
  cases h with
  | hashedShutdown due hpc hdown =>
    refine hdue (Or.inr ?_)
    rw [hpc, ServicePc.due_afterHash.mp hd]
  | recvEmpty site pc hpc hbusy hidle hnext => cases hnext <;> rcases hd with hd | hd <;> cases hd
  | received site rec hpc => cases site <;> rcases hd with hd | hd <;> cases hd
  | answer site answer hpc =>
    cases site <;> cases answer <;> rcases hd with hd | hd <;> cases hd
  | recv | ask | restart | restartStore => exact hdue hd
  | _ => rcases hd with hd | hd <;> cases hd

theorem OwnStep.message {a : OwnAct} (h : OwnStep cfg s a s')
    (hm : s'.message ≠ none) : s.message ≠ none := by
  cases h with
  | noMessage | handleNone | handleReset | handleSetBank => exact absurd rfl hm
  | _ => exact hm

/-- The working bank after `set_bank` is the new bank. -/
theorem PohRecorder.setBank_workingBank {env : Env} {d d' : PohRecorder} {bank : Bank}
    (h : d.setBank env bank = some d') {wb : WorkingBank} (hwb : d'.workingBank = some wb) :
    wb.bank = bank := by
  unfold setBank at h
  split_ifs at h with h₁ h₂
  obtain ⟨x, -, rfl⟩ := Option.map_eq_some_iff.mp h
  rcases flushCache_cases env { x.2 with
      tickHeight := x.1
      workingBank := some ⟨bank, bank.tickHeight, bank.maxTickHeight, rfl⟩ } false with
    ⟨e, heq⟩ | ⟨wb', d', heq, hwb', -, -, -, -, ⟨-, hkept⟩ | ⟨-, hcleared⟩⟩
  · rw [heq] at hwb
    cases hwb
    rfl
  · rw [heq] at hwb
    cases hwb'
    cases hkept.symm.trans hwb
    rfl
  · rw [heq] at hwb
    cases hcleared.symm.trans hwb

theorem control_own {a : OwnAct} (h : OwnStep cfg s a s') (hc : Control s r) : Control s' r := by
  refine ⟨h.clear hc.clear, fun hm => hc.quiet (h.message hm), h.due hc.due, ?_, ?_⟩
  · -- only `check` without a message leads to `handle`
    intro hpc' hm
    cases h with
    | checkFree hpc hnext hmessage => exact absurd hmessage hm
    | hashedKeep due hpc hkeep => cases due <;> cases hpc'
    | handleSetBank bank d hpc hexit hmessage hset =>
      unfold afterSetBank at hpc'
      split_ifs at hpc'
    | _ => cases hpc'
  · -- only the handling of `SetBank` leads to `restart`
    intro b hpc'
    cases h with
    | handleSetBank bank d hpc hexit hmessage hset =>
      have hsafe := hc.handling hpc (by rw [hmessage]; nofun)
      refine ⟨rfl, fun _ => hsafe, fun wb hwb => ?_⟩
      rw [setBank_workingBank hset hwb]
      unfold afterSetBank at hpc'
      split_ifs at hpc'
      cases hpc'
      rfl
    | hashedKeep due hpc hkeep => cases due <;> cases hpc'
    | _ => cases hpc'

/-! ### The receiver's flags -/

theorem ReceiverStep.down_of_shutdown
    (h : ReceiverStep tracking m r .shutdown m' r') : r'.down = true := by
  generalize ha : (Act.shutdown : Act Tid) = a at h
  cases h with
  | shutdown => rfl
  | _ => cases ha

/-- A true answer after a shutdown is remembered. -/
theorem ReceiverStep.safe_of_answer (h : ReceiverStep tracking m r (.safe true) m' r')
    (hdown : r.down = true) : r'.safe = true := by
  generalize ha : (Act.safe true : Act Tid) = a at h
  cases h with
  | @safeEmpty down safe =>
    injection ha with hempty
    have hd : down = true := hdown
    rw [← hempty, hd]
    exact Bool.or_true _
  | _ => cases ha

theorem ReceiverStep.restart_pc {bank : U64}
    (h : ReceiverStep tracking m r (.restart bank) m' r') : r'.pc = .restartUnlock := by
  generalize ha : (Act.restart bank : Act Tid) = a at h
  cases h with
  | restartStore b => rfl
  | _ => cases ha

/-- Only a restart ends a shutdown. -/
theorem ReceiverStep.down_mono (h : ReceiverStep tracking m r a m' r') (ha : ∀ b, a ≠ .restart b)
    (hdown : r.down = true) : r'.down = true := by
  rcases h.word_cases with ⟨-, hd, -⟩ | ⟨_, -, -, hd, -⟩ | ⟨-, hd, -⟩ | ⟨b, hb, -⟩
  · exact hd.trans hdown
  · exact hd.trans hdown
  · exact hd
  · exact absurd hb (ha b)

theorem control_sync (hr : ReceiverStep tracking m r a m' r') (h : SyncStep cfg s r a r' s')
    (hc : Control s r) : Control s' r' := by
  refine ⟨h.clear hc.clear, ?_, h.due hc.due, ?_, ?_⟩
  -- with a message pending the channel is down: only a restart would end that
  · intro hm
    cases h with
    | messageShutdown message hpc => exact hr.down_of_shutdown
    | restartStore bank hpc => exact absurd (hc.restarting bank hpc).1 hm
    | received site rec hpc =>
      have hm' : s.message ≠ none := by cases site <;> exact hm
      exact hr.down_mono nofun (hc.quiet hm')
    | _ => exact hr.down_mono nofun (hc.quiet hm)
  · -- only a true answer leads to `handle`
    intro hpc' hm
    cases h with
    | answer site answer hpc =>
      cases site with
      | exit => cases answer <;> cases hpc'
      | message =>
        cases answer with
        | false => cases hpc'
        | true => exact hr.safe_of_answer (hc.quiet hm)
    | hashedShutdown due hpc hdown => cases due <;> cases hpc'
    | recvEmpty site pc hpc hbusy hidle hnext => cases hnext <;> cases hpc'
    | received site rec hpc => cases site <;> cases hpc'
    | recv site hpc | ask site hpc | restart _ hpc | restartStore _ hpc =>
      cases hpc.symm.trans hpc'
    | _ => cases hpc'
  -- once the restart has begun the receiver is not idle, and no answer is needed
  · intro b hpc'
    cases h with
    | restart bank hpc hstart hbusy =>
      obtain ⟨hm, -, hwb⟩ := hc.restarting b hpc'
      exact ⟨hm, fun hidle => absurd hidle hbusy, hwb⟩
    | restartStore bank hpc =>
      obtain ⟨hm, -, hwb⟩ := hc.restarting b hpc'
      refine ⟨hm, fun hidle => ?_, hwb⟩
      rw [hr.restart_pc] at hidle
      cases hidle
    | hashedShutdown due hpc hdown => cases due <;> cases hpc'
    | recvEmpty site pc hpc hbusy hidle hnext => cases hnext <;> cases hpc'
    | received site rec hpc => cases site <;> cases hpc'
    | answer site answer hpc => cases site <;> cases answer <;> cases hpc'
    | recv site hpc | ask site hpc => cases hpc.symm.trans hpc'
    | _ => cases hpc'

/-! ## The invariant -/

/-- What the assertions of `record` ask of a record. -/
def Record.WellFormed (r : Record) : Prop :=
  r.mixins.length = r.transactionBatches.length ∧ ∀ batch ∈ r.transactionBatches, batch ≠ []

instance (r : Record) : Decidable r.WellFormed :=
  inferInstanceAs (Decidable (_ ∧ _))

/-- 0 for a record with a number of batches that `try_send` lets through. -/
def missized (r : Record) : ℕ :=
  if 0 < r.numBatches ∧ r.numBatches ≤ maxAllowedInsertions then 0 else 1

/-- 0 for a well-formed record of the bank. -/
def unfit (bank : U64) (r : Record) : ℕ := if r.bankId = bank ∧ r.WellFormed then 0 else 1

theorem SyncStep.recorder (h : SyncStep cfg s r a r' s') : s'.recorder = s.recorder := by
  cases h with
  | received site rec hpc => cases site <;> rfl
  | _ => rfl

section Invariant

variable [Fintype Tid]

structure Service.Inv (s : State Tid) : Prop where
  chan : Poh.Inv s.chan
  control : Control s.service s.chan.receiver
  fits : accepted Record.numBatches s ≤ s.service.recorder.room
  sized : accepted missized s = 0
  fit : ∀ wb, s.service.recorder.workingBank = some wb → accepted (unfit wb.bank.bankId) s = 0
  bank : ∀ wb, s.service.recorder.workingBank = some wb → s.chan.receiver.down = false →
    bankId s.chan.mem.word = wb.bank.bankId

/-- The side condition on a run: a reservation fits into the room beside what is
accepted, and a batch of hashes leaves that much room. -/
def Fits (cfg : Config) (s : State Tid) : Label Tid → Prop
  | .chan (.reserve _ r) =>
      r.WellFormed ∧ accepted Record.numBatches s + r.numBatches ≤ s.service.recorder.room
  | .own .hash =>
      accepted Record.numBatches s ≤ (Service.hash cfg s.service.recorder).2.room
  | _ => True

variable {s : State Tid}

theorem accepted_init (h : Service.Init s) (v : Record → ℕ) : accepted v s = 0 := by
  have hheld : s.service.held = none := by
    rw [held_of_ne (by rw [h.pc]; nofun), h.nextRecord]
  rw [accepted, h.chan, pending_start, hheld]
  rfl

theorem Service.inv_init (h : Service.Init s) : Service.Inv s where
  chan := by
    rw [h.chan]
    exact inv_start
  control :=
    { clear := .of_none h.nextRecord
      quiet := fun hm => absurd h.message hm
      due := by
        rw [h.pc]
        rintro (hd | hd) <;> cases hd
      handling := by
        rw [h.pc]
        nofun
      restarting := by
        rw [h.pc]
        nofun }
  fits := by
    rw [accepted_init h]
    exact Nat.zero_le _
  sized := accepted_init h _
  fit := fun _ _ => accepted_init h _
  bank := by
    rw [h.workingBank]
    nofun

/-- Nothing is accepted when a message is handled. -/
theorem Service.Inv.drained (hi : Service.Inv s) (hpc : s.service.pc = .handle)
    (hm : s.service.message ≠ none) (v : Record → ℕ) : accepted v s = 0 := by
  have hsafe := hi.control.handling hpc hm
  have hpending : pending v s.chan = 0 :=
    pending_eq_zero (fun _ _ => Nat.one_ne_zero) (hi.chan.drained hsafe).2
  have hnone := hi.control.clear.eq_none hpc ⟨nofun, nofun⟩
  rw [accepted, hpending, held_of_ne (by rw [hpc]; nofun), hnone]
  rfl

/-- A held record is one that `record` takes. -/
theorem Service.Inv.record (hi : Service.Inv s) (cfg : Config) {r : Record}
    (hpc : s.service.pc = .record r) :
    ∃ remaining d wb, s.service.recorder.record cfg.env r.bankId r.mixins r.transactionBatches =
        some (.ok remaining, d) ∧ s.service.recorder.workingBank = some wb ∧
      d.workingBank = some wb ∧ s.service.recorder.room ≤ d.room + r.numBatches := by
  have hheld : s.service.held = some r := by
    unfold held
    rw [hpc]
  have hle : ∀ v : Record → ℕ, v r ≤ accepted v s := by
    intro v
    rw [accepted, hheld, amount_some]
    exact Nat.le_add_left _ _
  -- the record is one of the accepted ones, so every bound on those holds for it
  have hfits := (hle Record.numBatches).trans hi.fits
  have hsized := hle missized
  rw [hi.sized, missized] at hsized
  split_ifs at hsized with hsize
  · obtain ⟨wb, hwb, -⟩ := open_of_room_pos (hsize.1.trans_le hfits)
    have hfit := hle (unfit wb.bank.bankId)
    rw [hi.fit wb hwb, unfit] at hfit
    split_ifs at hfit with hbank
    · obtain ⟨hbank, hlen, hne⟩ := hbank
      have hmix : r.mixins.length = r.numBatches := hlen
      have hsmall : maxAllowedInsertions ≤ u64Max := by decide
      rcases record_of_le_room cfg.env hlen hne (by omega) (by omega) (by omega) hwb
        hbank with ⟨remaining, d, hrec, hkept, hroom⟩
      exact ⟨remaining, d, wb, hrec, hwb, hkept, by omega⟩
    · omega
  · omega

variable [DecidableEq Tid]

/-- The bank of an enabled channel changes only by a restart. -/
theorem Inv.bankId_step {s s' : St Tid} (hi : Poh.Inv s)
    (h : Poh.Step tracking s a s') (ha : ∀ b, a ≠ .restart b) (hup : s'.receiver.down = false) :
    bankId s'.mem.word = bankId s.mem.word ∧ s.receiver.down = false := by
  rcases hi.step_cases h with ⟨hw, hd, -⟩ | ⟨t, r, -, -, hd, -, hw, -⟩ | ⟨r, -, hd, -, hw, -⟩ |
    ⟨-, hd, -⟩ | ⟨b, hb, -⟩
  · exact ⟨by rw [hw], hd.symm.trans hup⟩
  · exact ⟨hw, hd.symm.trans hup⟩
  · exact ⟨hw, hd.symm.trans hup⟩
  · rw [hd] at hup
    cases hup
  · exact absurd hb (ha b)

/-- What a step of the service alone has to keep. -/
theorem Service.Inv.of_own {a : OwnAct} (hi : Service.Inv s) (h : OwnStep cfg s.service a service)
    (hfits : accepted Record.numBatches { s with service } ≤ service.recorder.room)
    (hwb : ∀ wb, service.recorder.workingBank = some wb →
      s.service.recorder.workingBank = some wb ∨
      (s.chan.receiver.down = true ∧ ∀ v, accepted v s = 0)) : Service.Inv { s with service } := by
  have hle : ∀ v, accepted v { s with service } ≤ accepted v s := by
    intro v
    have hstep : Service.Step cfg true s (.own a) { s with service } := .own h
    have hacc := accepted_step v hstep hi.chan.room hi.control.clear
    simp only [reserved?, amount_none] at hacc
    omega
  refine ⟨hi.chan, control_own h hi.control, hfits, ?_, ?_, ?_⟩
  · exact Nat.le_zero.mp (hi.sized ▸ hle missized)
  · intro wb hsome
    rcases hwb wb hsome with hold | ⟨-, hzero⟩
    · exact Nat.le_zero.mp (hi.fit wb hold ▸ hle _)
    · exact Nat.le_zero.mp (hzero (unfit wb.bank.bankId) ▸ hle _)
  · intro wb hsome hup
    rcases hwb wb hsome with hold | ⟨hdown, -⟩
    · exact hi.bank wb hold hup
    · rw [hdown] at hup
      cases hup

/-- The service alone keeps the invariant; `record` does not fail. -/
theorem Service.inv_own {a : OwnAct} (hi : Service.Inv s) (hfits : Fits cfg s (.own a))
    (h : OwnStep cfg s.service a service) :
    Service.Inv { s with service } ∧ ∀ r e, a ≠ .failed r e := by
  have hstep : Service.Step cfg true s (.own a) { s with service } := .own h
  have hacc := accepted_step Record.numBatches hstep hi.chan.room hi.control.clear
  simp only [reserved?, disposed?, amount_none] at hacc
  have hsame := hi.fits
  have hown := h
  cases h with
  | record r remaining d hpc hrec =>
    -- what is recorded leaves the room by as much as it leaves the accepted
    obtain ⟨remaining', d', wb, hrec', hwb, hkept, hroom⟩ := hi.record cfg hpc
    rw [hrec] at hrec'
    cases hrec'
    refine ⟨hi.of_own hown ?_ ?_, nofun⟩
    · simp only [OwnAct.disposed?, amount_some] at hacc
      show _ ≤ d.room
      omega
    · intro wb' hwb'
      left
      rw [hwb, ← hkept]
      exact hwb'
  -- `record` takes what it holds, so neither failure can happen
  | recordFailed _ _ _ hpc hrec | recordAborted _ hpc hrec =>
    obtain ⟨remaining', d', wb, hrec', -⟩ := hi.record cfg hpc
    rw [hrec] at hrec'
    cases hrec'
  -- the side condition on hashes is needed here only
  | hash hpc =>
    refine ⟨hi.of_own hown ?_ fun wb hwb => Or.inl hwb, nofun⟩
    rw [show accepted Record.numBatches _ = accepted Record.numBatches s from hacc]
    exact hfits
  | tick hpc =>
    refine ⟨hi.of_own hown ?_ fun wb hwb => Or.inl (workingBank_of_tick hwb), nofun⟩
    have hmono := room_le_tick cfg.env (hi.control.due (Or.inl hpc))
    show _ ≤ (s.service.recorder.tick cfg.env).room
    omega
  -- a message is handled on a drained channel: no room is needed
  | handleReset _ _ _ hpc _ hmessage | handleSetBank _ _ hpc _ hmessage =>
    have hm : s.service.message ≠ none := by rw [hmessage]; nofun
    refine ⟨hi.of_own hown ?_ fun wb _ => Or.inr ⟨hi.control.quiet hm, hi.drained hpc hm⟩, nofun⟩
    rw [hi.drained hpc hm] at hacc
    omega
  | _ => exact ⟨hi.of_own hown (hacc.trans_le hsame) fun wb hwb => Or.inl hwb, nofun⟩

/-- The senders keep the invariant. -/
theorem Service.inv_sender {t : Tid} {pc : SenderPc}
    (hi : Service.Inv s) (hfits : Fits cfg s (.chan a))
    (h : SenderStep tracking t s.chan.mem (s.chan.senders t) a m pc) :
    Service.Inv { s with
      chan := { s.chan with mem := m, senders := update s.chan.senders t pc } } := by
  have hstep : Service.Step cfg tracking s (.chan a) { s with
      chan := { s.chan with mem := m, senders := update s.chan.senders t pc } } :=
    .sender t h
  have hacc := fun v => accepted_step v hstep hi.chan.room hi.control.clear
  simp only [reserved?, disposed?, amount_none] at hacc
  have hchan := inv_step hi.chan hstep.chan
  have hbank : ∀ wb, s.service.recorder.workingBank = some wb → s.chan.receiver.down = false →
      bankId m.word = wb.bank.bankId := by
    intro wb hwb hup
    rw [← hi.bank wb hwb hup]
    exact (hi.chan.bankId_step hstep.chan h.not_restart hup).1
  rcases h.word_cases with ⟨-, hr, -⟩ | ⟨r, rfl, hpc, -⟩
  · rw [hr] at hacc
    refine ⟨hchan, hi.control, (hacc _).trans_le hi.fits, (hacc _).trans hi.sized,
      fun wb hwb => (hacc _).trans (hi.fit wb hwb), hbank⟩
  · -- a reservation: the sender has made its checks on the current word
    obtain ⟨hformed, hroom⟩ := hfits
    have hchecked := hi.chan.checked t
    rw [hpc] at hchecked
    obtain ⟨hpos, hbankId, hne, hallowed⟩ := hchecked
    have hle := allowedInsertions_le s.chan.mem.word
    simp only [Act.reserved?, amount_some] at hacc
    refine ⟨hchan, hi.control, ?_, ?_, fun wb hwb => ?_, hbank⟩
    · rw [show accepted Record.numBatches _ = _ from hacc Record.numBatches]
      exact hroom
    · have hzero : missized r = 0 := if_pos ⟨hpos, hallowed.trans hle⟩
      rw [show accepted missized _ = _ from hacc missized, hi.sized, hzero]
    · have hup : s.chan.receiver.down = false := by
        rw [← Bool.not_eq_true]
        exact fun hdown => hne (hi.chan.mode.mp hdown)
      have hzero : unfit wb.bank.bankId r = 0 :=
        if_pos ⟨hbankId.symm.trans (hi.bank wb hwb hup), hformed⟩
      rw [show accepted (unfit wb.bank.bankId) _ = _ from hacc _, hi.fit wb hwb, hzero]

/-- The service with its receiver keeps the invariant. -/
theorem Service.inv_sync (hi : Service.Inv s)
    (h : ReceiverStep tracking s.chan.mem s.chan.receiver a m r)
    (hs : SyncStep cfg s.service s.chan.receiver a r service) :
    Service.Inv ⟨{ s.chan with mem := m, receiver := r }, service⟩ := by
  have hstep : Service.Step cfg tracking s (.chan a)
      ⟨{ s.chan with mem := m, receiver := r }, service⟩ := .sync h hs
  have hacc := fun v => accepted_step v hstep hi.chan.room hi.control.clear
  simp only [reserved?, disposed?, amount_none, h.accepted.2] at hacc
  have hrec := hs.recorder
  refine ⟨inv_step hi.chan hstep.chan, control_sync h hs hi.control, ?_, (hacc _).trans hi.sized,
    ?_, ?_⟩
  · rw [hrec]
    exact (hacc _).trans_le hi.fits
  · intro wb hwb
    exact (hacc _).trans (hi.fit wb (hrec ▸ hwb))
  · intro wb hwb hup
    rw [show service.recorder.workingBank = _ from congrArg _ hrec] at hwb
    by_cases hrestart : ∃ b, a = .restart b
    · -- the restart is for the working bank
      obtain ⟨b, rfl⟩ := hrestart
      have hserves := serves_restart hi.chan hstep.chan
      have hmode := (inv_step hi.chan hstep.chan).mode
      cases hs with
      | restartStore bank hpc =>
        rw [(hi.control.restarting b hpc).2.2 wb hwb]
        rcases hserves.word with hword | hword
        · exact hword
        · rw [hmode.mpr hword] at hup
          cases hup
    · have hkeep := hi.chan.bankId_step hstep.chan (fun b hb => hrestart ⟨b, hb⟩) hup
      rw [← hi.bank wb hwb hkeep.2]
      exact hkeep.1

/-- Every step that meets the side condition keeps the invariant and is not a
failed record. -/
theorem Service.inv_step {s s' : State Tid} {a : Label Tid} (hi : Service.Inv s)
    (hfits : Fits cfg s a) (h : Service.Step cfg tracking s a s') :
    Service.Inv s' ∧ ∀ r e, a ≠ .own (.failed r e) := by
  cases h with
  | sender t h => exact ⟨inv_sender hi hfits h, nofun⟩
  | sync h hs => exact ⟨inv_sync hi h hs, nofun⟩
  | own h =>
    obtain ⟨hinv, hne⟩ := inv_own hi hfits h
    refine ⟨hinv, fun r e heq => ?_⟩
    injection heq with heq
    exact hne r e heq

theorem Service.inv_run {s₀ s : State Tid} (h₀ : Service.Init s₀)
    (h : ((sys cfg tracking Tid).restrict (Fits cfg)).Run s₀ tr s) : Service.Inv s :=
  h.inv Service.Inv (inv_init h₀) fun _ _ _ hs hi => (inv_step hi hs.1 hs.2).1

end Invariant

/-! ## The main results -/

section Main

variable [Fintype Tid] [DecidableEq Tid]

/-- In every run of the tick producer with its senders in which every
reservation fits into the room of the working bank beside the records accepted
already, and every batch of hashes leaves room for what is accepted, `record`
never returns an error, and where it is about to be called it returns `Ok`. -/
theorem record_never_fails {s₀ s : State Tid} {tr : List (Label Tid)} (h₀ : Service.Init s₀)
    (h : ((Service.sys cfg tracking Tid).restrict (Fits cfg)).Run s₀ tr s) :
    (∀ r e, .own (.failed r e) ∉ tr) ∧
    ∀ r, s.service.pc = .record r → ∃ remaining d,
      s.service.recorder.record cfg.env r.bankId r.mixins r.transactionBatches =
        some (.ok remaining, d) := by
  constructor
  · induction h with
    | nil => exact fun _ _ => not_mem_nil
    | snoc hrun hstep ih =>
      intro r e hmem
      rcases mem_append.mp hmem with hmem | hmem
      · exact ih r e hmem
      · rw [mem_singleton] at hmem
        exact (Service.inv_step (Service.inv_run h₀ hrun) hstep.1 hstep.2).2 r e hmem.symm
  · intro r hpc
    obtain ⟨remaining, d, -, hrec, -⟩ := (Service.inv_run h₀ h).record cfg hpc
    exact ⟨remaining, d, hrec⟩

end Main

/-! ### A slot of two ticks with four hashes each -/

/-- Some hash functions, one hash per batch, two ticks per slot. -/
def smallConfig : Config where
  env :=
    { hasher := { hash := id, hashv := fun x _ => x }
      nextLeaderSlot := fun _ => none }
  hashesPerBatch := 1
  ticksPerSlot := 2

def smallBank : Bank where
  bankId := 1
  slot := 1
  tickHeight := 2
  maxTickHeight := 4
  ticksPerSlot := 2
  hashesPerTick := some 4
  lastBlockhash := 0

/-- A generator with four hashes per tick. -/
def smallPoh (numHashes remaining : ℕ) (hpos : 0 < remaining) (hle : remaining ≤ 4) :
    Stream.Poh where
  hash := 0
  numHashes := numHashes
  hashesPerTick := 4
  remainingHashesUntilTick := remaining
  tickNumber := 0
  one_lt_hashesPerTick := by decide
  remaining_pos := hpos
  remaining_le := hle

/-- A recorder at the end of slot 0. -/
def smallRecorder (poh : Stream.Poh) (workingBank : Option WorkingBank) : PohRecorder where
  poh := poh
  startSlot := 0
  tickCache := []
  workingBank := workingBank
  tickHeight := 2
  leaderFirstTickHeight := some 3
  ticksPerSlot := 2
  sent := []

def smallService (pc : ServicePc) (recorder : PohRecorder) : Service where
  pc := pc
  recorder := recorder
  nextRecord := none
  message := none
  shouldExit := false

def smallStart : State Unit where
  chan := start
  service := smallService .head (smallRecorder (smallPoh 0 4 (by decide) (by decide)) none)

/-- The recorder with `smallBank`, three hashes before the first tick. -/
def bankedRecorder : PohRecorder :=
  smallRecorder (smallPoh 1 3 (by decide) (by decide)) (some ⟨smallBank, 2, 4, rfl⟩)

/-- The channel after its restart for `smallBank`. -/
def restartedState : State Unit where
  chan :=
    { mem :=
        { word := encodedValue 1 maxAllowedInsertions
          active := 0
          queue := []
          mutex := none
          index := 0 }
      senders := fun _ => .idle
      receiver := ⟨.idle, false, false⟩ }
  service := smallService .head bankedRecorder

section

variable {s : State Unit} {m : Mem Unit} {a : Act Unit}

theorem fits_own {a : OwnAct} (h : OwnStep smallConfig s.service a service)
    (hfits : Fits smallConfig s (.own a)) :
    ((Service.sys smallConfig false Unit).restrict (Fits smallConfig)).Step s (.own a)
      { s with service } :=
  Lts.restrict_step (Service.Step.own h) hfits

theorem fits_sync (h : ReceiverStep false s.chan.mem s.chan.receiver a m r)
    (hs : SyncStep smallConfig s.service s.chan.receiver a r service)
    (hfits : Fits smallConfig s (.chan a)) :
    ((Service.sys smallConfig false Unit).restrict (Fits smallConfig)).Step s (.chan a)
      ⟨{ s.chan with mem := m, receiver := r }, service⟩ :=
  Lts.restrict_step (Service.Step.sync h hs) hfits

theorem fits_sender (t : Unit) {pc : SenderPc}
    (h : SenderStep false t s.chan.mem (s.chan.senders t) a m pc)
    (hfits : Fits smallConfig s (.chan a)) :
    ((Service.sys smallConfig false Unit).restrict (Fits smallConfig)).Step s (.chan a)
      { s with chan := { s.chan with mem := m, senders := update s.chan.senders t pc } } :=
  Lts.restrict_step (Service.Step.sender t h) hfits

end

theorem restartedState_run : ∃ tr, ((Service.sys smallConfig false Unit).restrict
    (Fits smallConfig)).Run smallStart tr restartedState := by
  have hrun : ((Service.sys smallConfig false Unit).restrict (Fits smallConfig)).Run smallStart _
      restartedState :=
    .cons (fits_own (.noExit rfl rfl) trivial) <|
    .cons (fits_sync .shutdown (.messageShutdown (.setBank smallBank) rfl) trivial) <|
    .cons (fits_own (.selectHash rfl rfl) trivial) <|
    .cons (fits_own (.hash rfl) (by unfold Fits; decide)) <|
    .cons (fits_sync .shutdown (.hashedShutdown false rfl (by decide)) trivial) <|
    .cons (fits_sync .recv (.recv .hash rfl (fun _ => rfl) nofun) trivial) <|
    .cons (fits_sync .recvLoad (.recv .hash rfl nofun nofun) trivial) <|
    .cons (fits_sync (.recvEmpty false rfl) (.recvEmpty .hash .wait rfl nofun rfl .hashWait)
      trivial) <|
    .cons (fits_own (.waitOver rfl) trivial) <|
    .cons (fits_own (.checkAsk rfl rfl nofun) trivial) <|
    .cons (fits_sync .isSafe (.ask .message rfl fun _ => rfl) trivial) <|
    .cons (fits_sync (.safeLoad rfl) (.ask .message rfl nofun) trivial) <|
    .cons (fits_sync .safeEmpty (.answer .message true rfl) trivial) <|
    .cons (fits_own (.handleSetBank smallBank bankedRecorder rfl rfl rfl rfl) trivial) <|
    .cons (fits_sync (.restart 1 (by decide)) (.restart 1 rfl (fun _ => rfl) nofun) trivial) <|
    .cons (fits_sync (.restartCheck 1) (.restart 1 rfl nofun nofun) trivial) <|
    .cons (fits_sync (.restartLock 1 nofun) (.restart 1 rfl nofun nofun) trivial) <|
    .cons (fits_sync (.restartStore 1) (.restartStore 1 rfl) trivial) <|
    .cons (fits_sync .restartUnlock (.restartDone 1 rfl nofun rfl) trivial) <|
    .single (fits_own (.goOn rfl rfl) trivial)
  exact ⟨_, hrun⟩

/-- A record of two batches for `smallBank`. -/
def pair : Record := ⟨1, [0, 1], [[[]], [[]]]⟩

/-- A record of two batches is accepted after the restart, and the service is
about to record it. -/
theorem record_never_fails_pair :
    ∃ (tr : List (Label Unit)) (s : State Unit), Service.Init smallStart ∧
      ((Service.sys smallConfig false Unit).restrict (Fits smallConfig)).Run smallStart tr s ∧
      s.service.pc = .record pair ∧ ∃ remaining d,
        s.service.recorder.record smallConfig.env pair.bankId pair.mixins
          pair.transactionBatches = some (.ok remaining, d) := by
  obtain ⟨tr, hrun⟩ := restartedState_run
  have hsend : ((Service.sys smallConfig false Unit).restrict (Fits smallConfig)).Run
      restartedState _ _ :=
    .cons (fits_sender () (.call pair (by decide)) trivial) <|
    .cons (fits_sender () (.lock pair nofun) trivial) <|
    .cons (fits_sender () (.load pair) trivial) <|
    .cons (fits_sender () (.increment pair (encodedValue 1 maxAllowedInsertions)) trivial) <|
    .cons (fits_sender () (.exchange pair _ rfl) (by unfold Fits; decide)) <|
    .cons (fits_sender () (.push pair (by decide)) trivial) <|
    .cons (fits_sender () (.decrement pair) trivial) <|
    .cons (fits_own (.noExit rfl rfl) trivial) <|
    .cons (fits_own (.noMessage rfl) trivial) <|
    .cons (fits_own (.selectHash rfl rfl) trivial) <|
    .cons (fits_own (.hash rfl) (by unfold Fits; decide)) <|
    .cons (fits_sync .shutdown (.hashedShutdown false rfl (by decide)) trivial) <|
    .cons (fits_sync .recv (.recv .hash rfl (fun _ => rfl) nofun) trivial) <|
    .cons (fits_sync .recvLoad (.recv .hash rfl nofun nofun) trivial) <|
    .cons (fits_sync (.recvPop false pair [] rfl) (.recv .hash rfl nofun nofun) trivial) <|
    .cons (fits_sync (.credit pair) (.received .hash pair rfl) trivial) <|
    .cons (fits_own (.checkRecord rfl nofun) trivial) <|
    .single (fits_own (.selectRecord pair rfl rfl) trivial)
  have hinit : Service.Init smallStart := ⟨rfl, rfl, rfl, rfl, rfl, rfl⟩
  have hall := hrun.append hsend
  exact ⟨_, _, hinit, hall, rfl, (record_never_fails hinit hall).2 pair rfl⟩

/-- A record of six batches: more than the five hashes left for them. -/
def sixBatches : Record := ⟨1, [0, 1, 2, 3, 4, 5], List.replicate 6 [[]]⟩

/-- With only five hashes left for batches after the restart, the channel accepts
a record of six, and `record` returns an error. -/
theorem record_fails :
    ∃ (tr : List (Label Unit)) (s : State Unit), Service.Init smallStart ∧
      (Service.sys smallConfig false Unit).Run smallStart tr s ∧
      .own (.failed sixBatches .maxHeightReached) ∈ tr ∧
      .chan (.sent () sixBatches (.ok none)) ∈ tr := by
  obtain ⟨tr, hrun⟩ := restartedState_run
  have hsend : (Service.sys smallConfig false Unit).Run restartedState _ _ :=
    .cons (.sender () (.call sixBatches (by decide))) <|
    .cons (.sender () (.lock sixBatches nofun)) <|
    .cons (.sender () (.load sixBatches)) <|
    .cons (.sender () (.increment sixBatches (encodedValue 1 maxAllowedInsertions))) <|
    .cons (.sender () (.exchange sixBatches _ rfl)) <|
    .cons (.sender () (.push sixBatches (by decide))) <|
    .cons (.sender () (.decrement sixBatches)) <|
    .cons (.sender () (.takeIndex sixBatches)) <|
    .cons (.sender () (.unlockReturn sixBatches (.ok none))) <|
    .cons (.own (.noExit rfl rfl)) <|
    .cons (.own (.noMessage rfl)) <|
    .cons (.own (.selectHash rfl rfl)) <|
    .cons (.own (.hash rfl)) <|
    .cons (.sync .shutdown (.hashedShutdown false rfl (by decide))) <|
    .cons (.sync .recv (.recv .hash rfl (fun _ => rfl) nofun)) <|
    .cons (.sync .recvLoad (.recv .hash rfl nofun nofun)) <|
    .cons (.sync (.recvPop false sixBatches [] rfl) (.recv .hash rfl nofun nofun)) <|
    .cons (.sync (.credit sixBatches) (.received .hash sixBatches rfl)) <|
    .cons (.own (.checkRecord rfl nofun)) <|
    .cons (.own (.selectRecord sixBatches rfl rfl)) <|
    .single (.own (.recordFailed sixBatches .maxHeightReached _ rfl rfl))
  have hinit : Service.Init smallStart := ⟨rfl, rfl, rfl, rfl, rfl, rfl⟩
  refine ⟨_, _, hinit, hrun.of_restrict.append hsend, ?_, ?_⟩ <;> simp

end Salsa.Poh
