import Salsa.Poh.ChannelRuns
import Salsa.Poh.Recorder

/-!
# Salsa.Poh.Service — the tick producer on top of channel and recorder

The loop of `PohService::tick_producer` as the receiver of the record channel.
The service moves in three ways:

* `OwnStep` — on its own: hashing, ticking, recording, handling a message;
* `SyncStep` — together with the receiver of the channel, one atomic operation
  at a time: `shutdown`, `try_recv`, `is_safe_to_restart`, `restart`;
* and the senders move in between (`Step.sender`).

Time is left open: how long the busy wait lasts, when a service message or the
exit signal arrives. So are the pacing of the slot and the metrics.
-/

namespace Salsa.Poh

open Salsa.Stream

inductive Message where
  | reset (resetBank : Bank) (nextLeaderSlot : Option (ℕ × ℕ))
  | setBank (bank : Bank)

/-- The three calls of `try_recv` in `record_or_hash`. -/
inductive RecvSite where
  | record
  | hash
  | wait
deriving DecidableEq

/-- The two questions `is_safe_to_restart`. -/
inductive AskSite where
  | message
  | exit
deriving DecidableEq

inductive ServicePc where
  /-- the head of the outer loop, looking at the exit signal -/
  | head
  | message
  /-- the start of `record_or_hash` -/
  | select
  | record (r : Record)
  | recorded (remainingHashesInSlot : ℕ)
  | hash
  /-- hashed, about to decide on a shutdown -/
  | hashed (shouldTick : Bool)
  | recv (site : RecvSite)
  | wait
  | tick
  /-- the end of the inner loop -/
  | check
  | ask (site : AskSite)
  | handle
  | restart (bank : U64)
  | exit
  | exited
  | failed (error : PohRecorderError)
  | aborted

structure Service where
  pc : ServicePc
  recorder : PohRecorder
  nextRecord : Option Record
  message : Option Message
  shouldExit : Bool

/-- What is fixed while the service runs. -/
structure Config where
  env : Env
  hashesPerBatch : ℕ
  ticksPerSlot : ℕ

def shouldShutdown (remainingHashesInSlot ticksPerSlot : ℕ) : Bool :=
  remainingHashesInSlot - ticksPerSlot ≤ maxAllowedInsertions

/-- The steps of the service on its own, as far as statements mention them. -/
inductive OwnAct where
  | tau
  | hash
  | recorded (r : Record)
  | failed (r : Record) (error : PohRecorderError)
  | aborted (r : Record)

namespace Service

def hash (cfg : Config) (d : PohRecorder) : Bool × PohRecorder :=
  let hashed := d.poh.hashN cfg.env.hasher cfg.hashesPerBatch
  (hashed.1, { d with poh := hashed.2 })

/-- The hashes left in the slot after another batch of them. -/
def remainingAfterNextBatch (cfg : Config) (d : PohRecorder) : ℕ :=
  d.poh.remainingHashesInSlot cfg.ticksPerSlot - cfg.hashesPerBatch

/-- Where `record_or_hash` goes after the decision on a shutdown. -/
def afterHash (shouldTick : Bool) : ServicePc := if shouldTick then .tick else .recv .hash

/-- Whether `set_bank` is followed by a restart of the channel. -/
def afterSetBank (d : PohRecorder) (bank : Bank) : ServicePc :=
  if d.tickHeight < bank.maxTickHeight - 1 then .restart bank.bankId else .exit

end Service

/-- One step of the service on its own. -/
inductive OwnStep (cfg : Config) : Service → OwnAct → Service → Prop where
  -- the outer loop
  | noExit {s : Service} (hpc : s.pc = .head) (hexit : s.shouldExit = false) :
      OwnStep cfg s .tau { s with pc := .message }
  | noMessage {s : Service} (hpc : s.pc = .message) :
      OwnStep cfg s .tau { s with pc := .select, message := none }
  -- record_or_hash
  | selectRecord {s : Service} (r : Record) (hpc : s.pc = .select) (hnext : s.nextRecord = some r) :
      OwnStep cfg s .tau { s with pc := .record r, nextRecord := none }
  | selectHash {s : Service} (hpc : s.pc = .select) (hnext : s.nextRecord = none) :
      OwnStep cfg s .tau { s with pc := .hash }
  | record {s : Service} (r : Record) (remaining : ℕ) (d : PohRecorder) (hpc : s.pc = .record r)
      (hrec : s.recorder.record cfg.env r.bankId r.mixins r.transactionBatches =
        some (.ok remaining, d)) :
      OwnStep cfg s (.recorded r) { s with pc := .recorded remaining, recorder := d }
  | recordFailed {s : Service} (r : Record) (e : PohRecorderError) (d : PohRecorder)
      (hpc : s.pc = .record r)
      (hrec : s.recorder.record cfg.env r.bankId r.mixins r.transactionBatches =
        some (.error e, d)) :
      OwnStep cfg s (.failed r e) { s with pc := .failed e, recorder := d }
  | recordAborted {s : Service} (r : Record) (hpc : s.pc = .record r)
      (hrec : s.recorder.record cfg.env r.bankId r.mixins r.transactionBatches = none) :
      OwnStep cfg s (.aborted r) { s with pc := .aborted }
  | recordedKeep {s : Service} (remaining : ℕ) (hpc : s.pc = .recorded remaining)
      (hkeep : shouldShutdown remaining cfg.ticksPerSlot = false) :
      OwnStep cfg s .tau { s with pc := .recv .record }
  | hash {s : Service} (hpc : s.pc = .hash) :
      OwnStep cfg s .hash
        { s with
          pc := .hashed (Service.hash cfg s.recorder).1
          recorder := (Service.hash cfg s.recorder).2 }
  | hashedKeep {s : Service} (shouldTick : Bool) (hpc : s.pc = .hashed shouldTick)
      (hkeep : shouldShutdown (Service.remainingAfterNextBatch cfg s.recorder)
        cfg.ticksPerSlot = false) :
      OwnStep cfg s .tau { s with pc := Service.afterHash shouldTick }
  | waitOver {s : Service} (hpc : s.pc = .wait) : OwnStep cfg s .tau { s with pc := .check }
  | waitPoll {s : Service} (hpc : s.pc = .wait) : OwnStep cfg s .tau { s with pc := .recv .wait }
  -- the rest of the inner loop
  | tick {s : Service} (hpc : s.pc = .tick) :
      OwnStep cfg s .tau { s with pc := .check, recorder := s.recorder.tick cfg.env }
  | checkRecord {s : Service} (hpc : s.pc = .check) (hnext : s.nextRecord ≠ none) :
      OwnStep cfg s .tau { s with pc := .select }
  | checkFree {s : Service} (hpc : s.pc = .check) (hnext : s.nextRecord = none)
      (hmessage : s.message = none) : OwnStep cfg s .tau { s with pc := .handle }
  | checkAsk {s : Service} (hpc : s.pc = .check) (hnext : s.nextRecord = none)
      (hmessage : s.message ≠ none) : OwnStep cfg s .tau { s with pc := .ask .message }
  -- handle_service_message
  | handleNone {s : Service} (hpc : s.pc = .handle)
      (hnone : s.message = none ∨ s.shouldExit = true) :
      OwnStep cfg s .tau { s with pc := .exit, message := none }
  | handleReset {s : Service} (bank : Bank) (next : Option (ℕ × ℕ)) (d : PohRecorder)
      (hpc : s.pc = .handle) (hexit : s.shouldExit = false)
      (hmessage : s.message = some (.reset bank next))
      (hreset : s.recorder.reset cfg.env bank next = some d) :
      OwnStep cfg s .tau { s with pc := .exit, message := none, recorder := d }
  | handleSetBank {s : Service} (bank : Bank) (d : PohRecorder) (hpc : s.pc = .handle)
      (hexit : s.shouldExit = false) (hmessage : s.message = some (.setBank bank))
      (hset : s.recorder.setBank cfg.env bank = some d) :
      OwnStep cfg s .tau
        { s with pc := Service.afterSetBank d bank, message := none, recorder := d }
  | handleAborted {s : Service} (hpc : s.pc = .handle) (hexit : s.shouldExit = false)
      (hfail : (∃ bank next, s.message = some (.reset bank next) ∧
          s.recorder.reset cfg.env bank next = none) ∨
        ∃ bank, s.message = some (.setBank bank) ∧ s.recorder.setBank cfg.env bank = none) :
      OwnStep cfg s .tau { s with pc := .aborted }
  | restartAborted {s : Service} (bank : U64) (hpc : s.pc = .restart bank)
      (hbank : ¬ bank ≤ maxBankId) : OwnStep cfg s .tau { s with pc := .aborted }
  | goOn {s : Service} (hpc : s.pc = .exit) (hexit : s.shouldExit = false) :
      OwnStep cfg s .tau { s with pc := .head }
  | askExit {s : Service} (hpc : s.pc = .exit) (hexit : s.shouldExit = true) :
      OwnStep cfg s .tau { s with pc := .ask .exit }

namespace Service

/-- Where `record_or_hash` goes when `try_recv` finds nothing. After a batch of
hashes it goes on hashing or waits for the ideal time. -/
inductive AfterEmpty : RecvSite → ServicePc → Prop where
  | record : AfterEmpty .record .check
  | hash : AfterEmpty .hash .hash
  | hashWait : AfterEmpty .hash .wait
  | wait : AfterEmpty .wait .wait

/-- What `record_or_hash` does with a received record. -/
def received (s : Service) (r : Record) : RecvSite → Service
  | .record => { s with pc := .record r }
  | .hash | .wait => { s with pc := .check, nextRecord := some r }

/-- Where the answer of `is_safe_to_restart` leads. -/
def afterAnswer : AskSite → Bool → ServicePc
  | .message, true => .handle
  | .message, false => .select
  | .exit, true => .exited
  | .exit, false => .head

end Service

variable {Tid : Type}

/-- One step of the service together with the receiver of the channel, which
goes from `r` to `r'` by `a`. -/
inductive SyncStep (cfg : Config) :
    Service → Receiver → Act Tid → Receiver → Service → Prop where
  | exitShutdown {s : Service} {r r'} (hpc : s.pc = .head) :
      SyncStep cfg s r .shutdown r' { s with pc := .message, shouldExit := true }
  | messageShutdown {s : Service} {r r'} (message : Message) (hpc : s.pc = .message) :
      SyncStep cfg s r .shutdown r' { s with pc := .select, message := some message }
  | recordedShutdown {s : Service} {r r'} (remaining : ℕ)
      (hpc : s.pc = .recorded remaining)
      (hdown : shouldShutdown remaining cfg.ticksPerSlot = true) :
      SyncStep cfg s r .shutdown r' { s with pc := .recv .record }
  | hashedShutdown {s : Service} {r r'} (shouldTick : Bool)
      (hpc : s.pc = .hashed shouldTick)
      (hdown : shouldShutdown (Service.remainingAfterNextBatch cfg s.recorder)
        cfg.ticksPerSlot = true) :
      SyncStep cfg s r .shutdown r' { s with pc := Service.afterHash shouldTick }
  -- try_recv
  | recv {s : Service} {r r'} (site : RecvSite) (hpc : s.pc = .recv site)
      (hstart : r.pc = .idle → r'.pc = .recvLoad) (hbusy : r'.pc ≠ .idle) :
      SyncStep cfg s r .tau r' s
  | recvEmpty {s : Service} {r r'} (site : RecvSite) (pc : ServicePc)
      (hpc : s.pc = .recv site) (hbusy : r.pc ≠ .idle) (hidle : r'.pc = .idle)
      (hnext : Service.AfterEmpty site pc) : SyncStep cfg s r .tau r' { s with pc }
  | received {s : Service} {r r'} (site : RecvSite) (rec : Record)
      (hpc : s.pc = .recv site) : SyncStep cfg s r (.deliver rec) r' (s.received rec site)
  -- is_safe_to_restart
  | ask {s : Service} {r r'} (site : AskSite) (hpc : s.pc = .ask site)
      (hstart : r.pc = .idle → r'.pc = .safeLoad) : SyncStep cfg s r .tau r' s
  | answer {s : Service} {r r'} (site : AskSite) (answer : Bool)
      (hpc : s.pc = .ask site) :
      SyncStep cfg s r (.safe answer) r' { s with pc := Service.afterAnswer site answer }
  -- restart
  | restart {s : Service} {r r'} (bank : U64) (hpc : s.pc = .restart bank)
      (hstart : r.pc = .idle → r'.pc = .restart bank) (hbusy : r'.pc ≠ .idle) :
      SyncStep cfg s r .tau r' s
  | restartStore {s : Service} {r r'} (bank : U64) (hpc : s.pc = .restart bank) :
      SyncStep cfg s r (.restart bank) r' s
  | restartDone {s : Service} {r r'} (bank : U64) (hpc : s.pc = .restart bank)
      (hbusy : r.pc ≠ .idle) (hidle : r'.pc = .idle) :
      SyncStep cfg s r .tau r' { s with pc := .exit }

structure State (Tid : Type) where
  chan : St Tid
  service : Service

inductive Label (Tid : Type) where
  | chan (a : Act Tid)
  | own (a : OwnAct)

namespace Service

/-- A sender, the service, or the service with its receiver moves. -/
inductive Step [DecidableEq Tid] (cfg : Config) (tracking : Bool) :
    State Tid → Label Tid → State Tid → Prop where
  | sender {s : State Tid} (t : Tid) {a : Act Tid} {m : Mem Tid} {pc : SenderPc}
      (h : SenderStep tracking t s.chan.mem (s.chan.senders t) a m pc) :
      Step cfg tracking s (.chan a)
        { s with
          chan := { s.chan with mem := m, senders := Function.update s.chan.senders t pc } }
  | sync {s : State Tid} {a m r service}
      (h : ReceiverStep tracking s.chan.mem s.chan.receiver a m r)
      (hs : SyncStep cfg s.service s.chan.receiver a r service) :
      Step cfg tracking s (.chan a) ⟨{ s.chan with mem := m, receiver := r }, service⟩
  | own {s : State Tid} {a service} (h : OwnStep cfg s.service a service) :
      Step cfg tracking s (.own a) { s with service }

/-- The service starts with a recorder that has no working bank. -/
structure Init (s : State Tid) : Prop where
  chan : s.chan = start
  pc : s.service.pc = .head
  workingBank : s.service.recorder.workingBank = none
  nextRecord : s.service.nextRecord = none
  message : s.service.message = none
  shouldExit : s.service.shouldExit = false

def sys (cfg : Config) (tracking : Bool) (Tid : Type) [DecidableEq Tid] :
    Lts (State Tid) (Label Tid) where
  Init := Init
  Step := Step cfg tracking

end Service

end Salsa.Poh
