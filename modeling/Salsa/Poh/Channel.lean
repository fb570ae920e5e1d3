import Mathlib.Data.Nat.Bitwise
import Salsa.Lib.Lts
import Salsa.Lib.Threads
import Salsa.Stream.Poh

/-!
# Salsa.Poh.Channel — the record channel, one step per atomic operation

`record_channels.rs`: any number of `RecordSender` threads in `try_send`, one
`RecordReceiver`. They share

* `word` — `BankIdAllowedInsertions`, the bank id in the upper 47 bits and the
  budget of batches in the lower 17 (`encodedValue`);
* `active` — `active_senders`;
* `queue` — the bounded channel;
* `mutex` and `index` — `transaction_indexes`, when they are tracked.

The receiver may do its operations in any order, with one rule: `restart` only
after a shutdown followed by `is_safe_to_restart` returning true. `down` and
`safe` of the receiver record how far that rule is met.

The receiver is not dropped, so a push fails only on a full channel, which is
the failed assertion of `try_send` (`SenderPc.panicked`).
-/

namespace Salsa.Poh

open Salsa.Stream BitVec

abbrev U64 := BitVec 64

/-! ## The packed word -/

def allowedInsertionsBits : ℕ := 17

def disabledBankId : U64 := BitVec.ofNat 64 (2 ^ 47 - 1)

def maxBankId : U64 := disabledBankId - 1

/-- `MAX_ALLOWED_INSERTIONS`, also the capacity of the channel. -/
def maxAllowedInsertions : ℕ := 2 ^ 17 - 1

def encodedValue (bankId : U64) (allowedInsertions : ℕ) : U64 :=
  (bankId <<< allowedInsertionsBits) ||| BitVec.ofNat 64 allowedInsertions

def shutdownValue : U64 := encodedValue disabledBankId 0

def bankId (value : U64) : U64 := (value >>> allowedInsertionsBits) &&& disabledBankId

def allowedInsertions (value : U64) : ℕ :=
  (value &&& BitVec.ofNat 64 maxAllowedInsertions).toNat

variable (value : U64)

theorem bankId_toNat : (bankId value).toNat = value.toNat / 2 ^ 17 := by
  have hmask : disabledBankId.toNat = 2 ^ 47 - 1 := by decide
  rw [bankId, toNat_and, hmask, Nat.and_two_pow_sub_one_eq_mod, toNat_ushiftRight,
    Nat.shiftRight_eq_div_pow, allowedInsertionsBits]
  omega

theorem allowedInsertions_eq : allowedInsertions value = value.toNat % 2 ^ 17 := by
  have hmask : (BitVec.ofNat 64 maxAllowedInsertions).toNat = 2 ^ 17 - 1 := by decide
  rw [allowedInsertions, toNat_and, hmask, Nat.and_two_pow_sub_one_eq_mod]

theorem allowedInsertions_le : allowedInsertions value ≤ maxAllowedInsertions := by
  rw [allowedInsertions_eq, maxAllowedInsertions]
  omega

variable {bank : U64} {allowed : ℕ}

theorem encodedValue_toNat (hbank : bank.toNat < 2 ^ 47)
    (hallowed : allowed ≤ maxAllowedInsertions) :
    (encodedValue bank allowed).toNat = bank.toNat * 2 ^ 17 + allowed := by
  rw [maxAllowedInsertions] at hallowed
  have hsmall : allowed < 2 ^ 17 := by omega
  rw [encodedValue, toNat_or, toNat_shiftLeft, toNat_ofNat,
    allowedInsertionsBits, Nat.mod_eq_of_lt (by omega : allowed < 2 ^ 64),
    Nat.mod_eq_of_lt (by rw [Nat.shiftLeft_eq]; omega), ← Nat.shiftLeft_add_eq_or_of_lt hsmall,
    Nat.shiftLeft_eq]

theorem bankId_lt : (bankId value).toNat < 2 ^ 47 := by
  rw [bankId_toNat]
  omega

theorem toNat_lt_of_le_maxBankId (h : bank ≤ maxBankId) : bank.toNat < 2 ^ 47 := by
  have hmax : maxBankId.toNat = 2 ^ 47 - 2 := by decide
  have := le_def.mp h
  omega

theorem bankId_encodedValue (hbank : bank.toNat < 2 ^ 47)
    (hallowed : allowed ≤ maxAllowedInsertions) : bankId (encodedValue bank allowed) = bank := by
  apply eq_of_toNat_eq
  rw [bankId_toNat, encodedValue_toNat hbank hallowed]
  rw [maxAllowedInsertions] at hallowed
  omega

theorem allowedInsertions_encodedValue (hbank : bank.toNat < 2 ^ 47)
    (hallowed : allowed ≤ maxAllowedInsertions) :
    allowedInsertions (encodedValue bank allowed) = allowed := by
  rw [allowedInsertions_eq, encodedValue_toNat hbank hallowed]
  rw [maxAllowedInsertions] at hallowed
  omega

/-- A `fetch_add` that fits the lower bits leaves the bank id alone. -/
theorem fetchAdd_of_fits {value : U64} {n : ℕ}
    (h : allowedInsertions value + n ≤ maxAllowedInsertions) :
    bankId (value + BitVec.ofNat 64 n) = bankId value ∧
      allowedInsertions (value + BitVec.ofNat 64 n) = allowedInsertions value + n := by
  have hbank := bankId_toNat (value + BitVec.ofNat 64 n)
  have hbank' := bankId_toNat value
  rw [allowedInsertions_eq] at h ⊢
  rw [allowedInsertions_eq]
  rw [maxAllowedInsertions] at h
  have hsum : (value + BitVec.ofNat 64 n).toNat = value.toNat + n := by
    rw [toNat_add, toNat_ofNat]
    omega
  refine ⟨eq_of_toNat_eq ?_, ?_⟩ <;> omega

@[simp] theorem bankId_shutdownValue : bankId shutdownValue = disabledBankId := by decide

@[simp] theorem allowedInsertions_shutdownValue : allowedInsertions shutdownValue = 0 := by decide

/-! ## Records and threads -/

/-- `Record`, without its pacing hint. -/
structure Record where
  bankId : U64
  mixins : List Hash
  transactionBatches : List (List Transaction)
deriving DecidableEq, Repr

namespace Record

def numBatches (r : Record) : ℕ := r.transactionBatches.length

def numTransactions (r : Record) : ℕ := (r.transactionBatches.map List.length).sum

theorem numBatches_pos {r : Record} (h : 0 < r.numTransactions) : 0 < r.numBatches := by
  rw [numBatches, List.length_pos_iff]
  rintro hnil
  simp [numTransactions, hnil] at h

end Record

/-- `RecordSenderError`, without the disconnected case. -/
inductive RecordSenderError where
  | full
  | shutdown
  | inactiveBankId
deriving DecidableEq, Repr

abbrev SendResult := Except RecordSenderError (Option ℕ)

inductive SenderPc where
  | idle
  /-- at the head of the loop, about to lock `transaction_indexes` -/
  | lock (r : Record)
  | load (r : Record)
  /-- checks passed on `current`, about to increment `active_senders` -/
  | increment (r : Record) (current : U64)
  | compareExchange (r : Record) (current : U64)
  /-- the exchange failed, about to decrement -/
  | retry (r : Record)
  /-- space is reserved, about to push -/
  | push (r : Record)
  | decrement (r : Record)
  | takeIndex (r : Record)
  /-- about to drop the lock and go round the loop -/
  | unlockRetry (r : Record)
  /-- about to drop the lock and return -/
  | unlockReturn (r : Record) (result : SendResult)
  /-- the channel was full after the reservation -/
  | panicked
deriving DecidableEq

inductive ReceiverPc where
  | idle
  /-- `try_recv`, about to load `active_senders` -/
  | recvLoad
  | recvPop (senderActive : Bool)
  /-- popped, about to give the budget back -/
  | credit (r : Record)
  /-- `is_safe_to_restart`, about to load `active_senders` -/
  | safeLoad
  /-- no active sender, about to look at the queue -/
  | safeEmpty
  /-- `restart`, about to check that the queue is empty -/
  | restart (bank : U64)
  | restartLock (bank : U64)
  | restartStore (bank : U64)
  | restartUnlock
  | panicked
deriving DecidableEq

inductive Holder (Tid : Type) where
  | sender (t : Tid)
  | receiver
deriving DecidableEq

structure Mem (Tid : Type) where
  word : U64
  active : ℕ
  queue : List Record
  mutex : Option (Holder Tid)
  index : ℕ

/-- The receiver: where it is, whether it has shut the channel down since the
last restart, and whether `is_safe_to_restart` has answered true since then. -/
structure Receiver where
  pc : ReceiverPc
  down : Bool
  safe : Bool

/-- The steps, labelled with what the statements about traces mention. -/
inductive Act (Tid : Type) where
  /-- a step nobody mentions -/
  | tau
  | call (t : Tid) (r : Record)
  /-- the exchange of `t` succeeded -/
  | reserve (t : Tid) (r : Record)
  | sent (t : Tid) (r : Record) (result : SendResult)
  /-- the receiver returns a record -/
  | deliver (r : Record)
  | shutdown
  | safe (answer : Bool)
  | restart (bank : U64)
deriving DecidableEq

variable {Tid : Type}

/-- The checks of `try_send` on the loaded word. -/
def afterLoad (current : U64) (r : Record) : SenderPc :=
  if bankId current = disabledBankId then .unlockReturn r (.error .shutdown)
  else if bankId current ≠ r.bankId then .unlockReturn r (.error .inactiveBankId)
  else if allowedInsertions current < r.numBatches then .unlockReturn r (.error .full)
  else .increment r current

variable (tracking : Bool) (t : Tid)

/-- One atomic operation of the sender `t`; `tracking` says whether there is a
`transaction_indexes` lock. -/
inductive SenderStep : Mem Tid → SenderPc → Act Tid → Mem Tid → SenderPc → Prop where
  | call {m} (r : Record) (hr : 0 < r.numTransactions) : SenderStep m .idle (.call t r) m (.lock r)
  | lock {m} (r : Record) (hfree : tracking = true → m.mutex = none) : SenderStep m (.lock r) .tau
        { m with mutex := if tracking then some (.sender t) else m.mutex } (.load r)
  | load {m} (r : Record) : SenderStep m (.load r) .tau m (afterLoad m.word r)
  | increment {m} (r : Record) (current : U64) : SenderStep m (.increment r current) .tau
        { m with active := m.active + 1 } (.compareExchange r current)
  | exchange {m} (r : Record) (current : U64) (heq : m.word = current) :
      SenderStep m (.compareExchange r current) (.reserve t r)
        { m with
          word := encodedValue (bankId current) (allowedInsertions current - r.numBatches) }
        (.push r)
  | exchangeFailed {m} (r : Record) (current : U64) (hne : m.word ≠ current) :
      SenderStep m (.compareExchange r current) .tau m (.retry r)
  | retry {m} (r : Record) :
      SenderStep m (.retry r) .tau { m with active := m.active - 1 } (.unlockRetry r)
  | push {m} (r : Record) (hroom : m.queue.length < maxAllowedInsertions) :
      SenderStep m (.push r) .tau { m with queue := m.queue ++ [r] } (.decrement r)
  | pushFull {m} (r : Record) (hfull : maxAllowedInsertions ≤ m.queue.length) :
      SenderStep m (.push r) .tau m .panicked
  | decrement {m} (r : Record) :
      SenderStep m (.decrement r) .tau { m with active := m.active - 1 } (.takeIndex r)
  | takeIndex {m} (r : Record) : SenderStep m (.takeIndex r) .tau
        { m with index := if tracking then m.index + r.numTransactions else m.index }
        (.unlockReturn r (.ok (if tracking then some m.index else none)))
  | unlockRetry {m} (r : Record) : SenderStep m (.unlockRetry r) .tau
        { m with mutex := if tracking then none else m.mutex } (.lock r)
  | unlockReturn {m} (r : Record) (result : SendResult) :
      SenderStep m (.unlockReturn r result) (.sent t r result)
        { m with mutex := if tracking then none else m.mutex } .idle

/-- One atomic operation of the receiver. -/
inductive ReceiverStep : Mem Tid → Receiver → Act Tid → Mem Tid → Receiver → Prop where
  | recv {m down safe} : ReceiverStep m ⟨.idle, down, safe⟩ .tau m ⟨.recvLoad, down, safe⟩
  | recvLoad {m down safe} :
      ReceiverStep m ⟨.recvLoad, down, safe⟩ .tau m ⟨.recvPop (0 < m.active), down, safe⟩
  | recvPop {m down safe} (active : Bool) (r : Record) (rest : List Record)
      (hqueue : m.queue = r :: rest) :
      ReceiverStep m ⟨.recvPop active, down, safe⟩ .tau
        { m with queue := rest } ⟨.credit r, down, safe⟩
  | recvEmpty {m down safe} (active : Bool) (hqueue : m.queue = []) :
      ReceiverStep m ⟨.recvPop active, down, safe⟩ .tau m
        ⟨if active then .recvLoad else .idle, down, safe⟩
  | recvTimeout {m down safe} (r : Record) (rest : List Record)
      (hqueue : m.queue = r :: rest) :
      ReceiverStep m ⟨.idle, down, safe⟩ .tau
        { m with queue := rest } ⟨.credit r, down, safe⟩
  | credit {m down safe} (r : Record) : ReceiverStep m ⟨.credit r, down, safe⟩ (.deliver r)
        { m with word := m.word + BitVec.ofNat 64 r.numBatches } ⟨.idle, down, safe⟩
  | shutdown {m down safe} : ReceiverStep m ⟨.idle, down, safe⟩ .shutdown
        { m with word := shutdownValue } ⟨.idle, true, safe⟩
  | isSafe {m down safe} : ReceiverStep m ⟨.idle, down, safe⟩ .tau m ⟨.safeLoad, down, safe⟩
  | safeBusy {m down safe} (hactive : m.active ≠ 0) :
      ReceiverStep m ⟨.safeLoad, down, safe⟩ (.safe false) m ⟨.idle, down, safe⟩
  | safeLoad {m down safe} (hactive : m.active = 0) :
      ReceiverStep m ⟨.safeLoad, down, safe⟩ .tau m ⟨.safeEmpty, down, safe⟩
  | safeEmpty {m down safe} : ReceiverStep m ⟨.safeEmpty, down, safe⟩ (.safe m.queue.isEmpty) m
        ⟨.idle, down, safe || (m.queue.isEmpty && down)⟩
  -- the rule: a restart only after a shutdown and a true answer
  | restart {m down} (bank : U64) (hbank : bank ≤ maxBankId) :
      ReceiverStep m ⟨.idle, down, true⟩ .tau m ⟨.restart bank, down, true⟩
  | restartCheck {m down safe} (bank : U64) : ReceiverStep m ⟨.restart bank, down, safe⟩ .tau m
        ⟨if m.queue = [] then .restartLock bank else .panicked, down, safe⟩
  | restartLock {m down safe} (bank : U64)
      (hfree : tracking = true → m.mutex = none) :
      ReceiverStep m ⟨.restartLock bank, down, safe⟩ .tau
        { m with mutex := if tracking then some .receiver else m.mutex
                 index := if tracking then 0 else m.index }
        ⟨.restartStore bank, down, safe⟩
  | restartStore {m down safe} (bank : U64) :
      ReceiverStep m ⟨.restartStore bank, down, safe⟩ (.restart bank)
        { m with word := encodedValue bank maxAllowedInsertions } ⟨.restartUnlock, false, false⟩
  | restartUnlock {m down safe} : ReceiverStep m ⟨.restartUnlock, down, safe⟩ .tau
        { m with mutex := if tracking then none else m.mutex } ⟨.idle, down, safe⟩

structure St (Tid : Type) where
  mem : Mem Tid
  senders : Tid → SenderPc
  receiver : Receiver

/-- One sender or the receiver moves. -/
inductive Step [DecidableEq Tid] : St Tid → Act Tid → St Tid → Prop where
  | sender {s : St Tid} (t : Tid) {a : Act Tid} {m : Mem Tid} {pc : SenderPc}
      (h : SenderStep tracking t s.mem (s.senders t) a m pc) :
      Step s a { s with mem := m, senders := Function.update s.senders t pc }
  | receiver {s : St Tid} {a m r} (h : ReceiverStep tracking s.mem s.receiver a m r) :
      Step s a { s with mem := m, receiver := r }

/-- `record_channels`: the channel begins shut down. -/
def start : St Tid where
  mem :=
    { word := shutdownValue
      active := 0
      queue := []
      mutex := none
      index := 0 }
  senders := fun _ => .idle
  receiver := ⟨.idle, true, false⟩

def sys (tracking : Bool) (Tid : Type) [DecidableEq Tid] : Lts (St Tid) (Act Tid) where
  Init := fun s => s = start
  Step := Step tracking

end Salsa.Poh
