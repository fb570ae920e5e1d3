import Salsa.Block.Execute
import Salsa.Scheduler.Runs

/-!
# Salsa.Block.Parallel — `execute_and_commit_parallel`

The scheduling loop and the worker threads, every access to shared state a step
of its own.

* The loop pops ranges from the scheduler, sends them to the workers in turn,
  and takes finished ranges off the finish channel.
* A worker serves its channel in order. A chunk goes through `Pc`: the checks of
  all its transactions against the bank, the copy of the account overrides into
  the loader, the transactions one after the other through that loader, then its
  accounts into the overrides and into the bank, and the report.
* `WorkStep` is one step of a chunk on the shared `Memory`, `Step` one of the
  system. An attempt that met locked accounts starts over at any point.
* `executeInOrder` is what it is compared with: one transaction at a time.
-/

namespace Salsa.Block

open LockTable Serial Devin Function

def numThreads : ℕ := 8

/-! ## The shared memory -/

/-- What the workers share: the account overrides and the bank's accounts. -/
structure Memory (Key : Type) where
  overrides : Accounts Key
  bank : Accounts Key

/-- The two places a chunk's accounts are written to. -/
inductive Place where
  | overrides
  | bank
deriving DecidableEq

variable {Key Body : Type}

namespace Memory

def get (memory : Memory Key) : Place → Accounts Key
  | .overrides => memory.overrides
  | .bank => memory.bank

/-- An account as it is written: an override without lamports is the default
account. -/
def entry [Inhabited Key] : Place → Account Key → Account Key
  | .overrides, account => if account.lamports = 0 then default else account
  | .bank, account => account

/-- `AccountOverrides::set_account`, or the storing of one account. -/
def put [DecidableEq Key] [Inhabited Key] (memory : Memory Key) (place : Place) (k : Key)
    (account : Account Key) : Memory Key :=
  let accounts := Function.update (memory.get place) k (some (entry place account))
  match place with
  | .overrides => { memory with overrides := accounts }
  | .bank => { memory with bank := accounts }

variable [DecidableEq Key] [Inhabited Key]

theorem get_put_self (memory : Memory Key) (place : Place) (k : Key) (account : Account Key) :
    (memory.put place k account).get place =
      update (memory.get place) k (some (entry place account)) := by
  cases place <;> rfl

theorem get_put_of_ne (memory : Memory Key) {place place' : Place} (hne : place' ≠ place) (k : Key)
    (account : Account Key) : (memory.put place k account).get place' = memory.get place' := by
  cases place <;> cases place' <;> first | rfl | exact absurd rfl hne

omit [DecidableEq Key] in
/-- Either way the account loads as the one that was stored. -/
theorem live_entry (place : Place) (account : Account Key) :
    (entry place account).live = account.live := by
  cases place with
  | bank => rfl
  | overrides =>
    by_cases hzero : account.lamports = 0
    · rw [entry, if_pos hzero, live_default, Account.live, if_pos hzero]
    · rw [entry, if_neg hzero]

end Memory

/-! ## Chunks -/

variable [DecidableEq Key] [Inhabited Key] (engine : Engine Key Body)
  (transactions : List (Transaction Key Body))

inductive Pc where
  | queued
  | checking (checks : List (Except TransactionError engine.Checked))
      (t : Reader Key (Option (Account Key)) (Except TransactionError engine.Checked))
  | copying (checks : List (Except TransactionError engine.Checked)) (loaded : Accounts Key)
  | processing (checks : List (Except TransactionError engine.Checked)) (loaded : Accounts Key)
      (results : List (TransactionProcessingResult Key))
      (t : Reader (Query Key) (Option (Account Key)) (Outcome Key))
  | writing (place : Place) (results : List (TransactionProcessingResult Key))
      (todo : List (Key × Account Key))
  | reporting (statuses : List CommitTransactionDetails)

/-- In `execute_chunk`, or before it. -/
def Pc.executing {engine : Engine Key Body} : Pc engine → Bool
  | queued | checking _ _ | copying _ _ | processing _ _ _ _ => true
  | writing _ _ _ | reporting _ => false

structure Chunk where
  range : Range
  worker : ℕ
  pc : Pc engine

/-- `&transactions[range]`. -/
def chunkOf (range : Range) : List (Transaction Key Body) :=
  (transactions.drop range.start).take range.len

inductive WorkStep (range : Range) : Memory Key → Pc engine → Memory Key → Pc engine → Prop where
  /-- The batch is prepared, for the first time or after `AccountInUse`. -/
  | prepare {memory pc tx}
      (hpc : pc.executing = true) (htx : transactions[range.start]? = some tx) :
      WorkStep range memory pc
        memory (.checking [] (engine.checkTransaction tx))
  | check {memory checks k next} :
      WorkStep range memory (.checking checks (.read k next))
        memory (.checking checks (next (getAccountSharedData memory.bank k)))
  | checkNext {memory checks checked tx} (hlt : range.start + checks.length + 1 < range.stop)
      (htx : transactions[range.start + checks.length + 1]? = some tx) :
      WorkStep range memory (.checking checks (.done checked))
        memory (.checking (checks ++ [checked]) (engine.checkTransaction tx))
  /-- The loader is created. -/
  | checkLast {memory checks checked} (hlast : range.start + checks.length + 1 = range.stop) :
      WorkStep range memory (.checking checks (.done checked))
        memory (.copying (checks ++ [checked]) fun _ => none)
  /-- The overrides are copied while others write them. -/
  | copy {memory checks loaded} (k : Key) (account : Account Key)
      (h : memory.overrides k = some account) :
      WorkStep range memory (.copying checks loaded)
        memory (.copying checks (Function.update loaded k (some account)))
  | copied {memory checks loaded tx checked}
      (htx : transactions[range.start]? = some tx) (hchecked : checks[0]? = some checked) :
      WorkStep range memory (.copying checks loaded)
        memory (.processing checks loaded [] (engine.processTransaction tx checked))
  | load {memory checks loaded results q next} :
      WorkStep range memory (.processing checks loaded results (.read q next))
        memory (.processing checks (answer memory.bank loaded q).2 results
          (next (answer memory.bank loaded q).1))
  /-- The balance collector loads an account; its value goes to the status
  service. -/
  | collect {memory checks loaded results t} (k : Key) :
      WorkStep range memory (.processing checks loaded results t)
        memory (.processing checks (loadAccount memory.bank loaded k).2 results t)
  /-- A transaction is processed; the loader takes over what it changed. -/
  | processNext {memory checks loaded results outcome tx tx' checked}
      (hlt : range.start + results.length + 1 < range.stop)
      (htx : transactions[range.start + results.length]? = some tx)
      (htx' : transactions[range.start + results.length + 1]? = some tx')
      (hchecked : checks[results.length + 1]? = some checked) :
      WorkStep range memory (.processing checks loaded results (.done outcome))
        memory (.processing checks
          (insertAll loaded (collectAccounts tx (processingResult tx outcome)))
          (results ++ [processingResult tx outcome]) (engine.processTransaction tx' checked))
  /-- The chunk is executed, and no result is `AccountInUse`. -/
  | processLast {memory checks loaded results results' outcome tx}
      (hlast : range.start + results.length + 1 = range.stop)
      (htx : transactions[range.start + results.length]? = some tx)
      (hresults : results' = results ++ [processingResult tx outcome])
      (hunused : ∀ result ∈ results', result ≠ .error .accountInUse) :
      WorkStep range memory (.processing checks loaded results (.done outcome))
        memory (.writing .overrides results'
          (collectAccountsToStore (chunkOf transactions range) results'))
  | write {memory place results k account todo} :
      WorkStep range memory (.writing place results ((k, account) :: todo))
        (memory.put place k account) (.writing place results todo)
  /-- The overrides are written; the commit begins. -/
  | commit {memory results} :
      WorkStep range memory (.writing .overrides results [])
        memory (.writing .bank results (accountsToCommit (chunkOf transactions range) results))
  | committed {memory results statuses} (h : commitTransactionStatuses results = some statuses) :
      WorkStep range memory (.writing .bank results [])
        memory (.reporting statuses)

/-! ## The system -/

/-- The whole state. A range is in `chunks` from its `pop` to its report, in the
order of the pops, and then in the finish channel. -/
structure St where
  sched : Devin.St Key
  nextWorker : ℕ
  chunks : List (Chunk engine)
  finishes : List (Range × List CommitTransactionDetails)
  memory : Memory Key
  details : List CommitTransactionDetails

inductive Act where
  | pop (value : Option Range)
  | work (range : Range)
  | report (range : Range)
  | finish (range : Range)
deriving DecidableEq

/-- `for (i, status) in commit_details.into_iter().enumerate()`. -/
def storeDetails (details : List CommitTransactionDetails) (i : ℕ) :
    List CommitTransactionDetails → List CommitTransactionDetails
  | [] => details
  | status :: statuses => storeDetails (details.set i status) (i + 1) statuses

/-- One step. A worker is at the first chunk of its channel, so a chunk moves when
no earlier one is with the same worker. -/
inductive Step : St engine → Act → St engine → Prop where
  | pop {s : St engine} {range sched'} (hloop : s.sched.sched.finished = false)
      (h : Devin.Step transactions s.sched (.pop (some range)) sched') :
      Step s (.pop (some range)) { s with
        sched := sched'
        nextWorker := (s.nextWorker + 1) % numThreads
        chunks := s.chunks ++ [⟨range, s.nextWorker, .queued⟩] }
  | popNone {s : St engine} {sched'} (hloop : s.sched.sched.finished = false)
      (h : Devin.Step transactions s.sched (.pop none) sched') :
      Step s (.pop none) { s with sched := sched' }
  | work {s : St engine} {pre post chunk pc' memory'} (hchunks : s.chunks = pre ++ chunk :: post)
      (hworker : ∀ c ∈ pre, c.worker ≠ chunk.worker)
      (h : WorkStep engine transactions chunk.range s.memory chunk.pc memory' pc') :
      Step s (.work chunk.range) { s with
        chunks := pre ++ { chunk with pc := pc' } :: post
        memory := memory' }
  | report {s : St engine} {pre post chunk statuses} (hchunks : s.chunks = pre ++ chunk :: post)
      (hworker : ∀ c ∈ pre, c.worker ≠ chunk.worker) (hpc : chunk.pc = .reporting statuses) :
      Step s (.report chunk.range) { s with
        chunks := pre ++ post
        finishes := s.finishes ++ [(chunk.range, statuses)] }
  | finish {s : St engine} {range statuses rest sched'}
      (hloop : s.sched.sched.finished = false) (hhead : s.finishes = (range, statuses) :: rest)
      (h : Devin.Step transactions s.sched (.finish range) sched') :
      Step s (.finish range) { s with
        sched := sched'
        finishes := rest
        details := storeDetails s.details range.start statuses }

/-- The loop before its first turn. -/
def start (bank : Accounts Key) : St engine where
  sched := Devin.start transactions
  nextWorker := 0
  chunks := []
  finishes := []
  memory := ⟨fun _ => none, bank⟩
  details := List.replicate transactions.length (.notCommitted .accountNotFound)

def sys (bank : Accounts Key) : Lts (St engine) Act where
  Init := fun s => s = start engine transactions bank
  Step := Step engine transactions

/-! ## One transaction at a time -/

/-- Executing and committing in block order: the bank afterwards, and what is
reported of each transaction. -/
def executeInOrder (bank : Accounts Key) :
    List (Transaction Key Body) → Accounts Key × List CommitTransactionDetails
  | [] => (bank, [])
  | tx :: txs =>
      let after := executeInOrder (executeAndCommit engine bank tx) txs
      (after.1, commitDetails (executeTransaction engine bank tx) :: after.2)

/-- The accounts a transaction finds in block order. -/
def viewAt (bank : Accounts Key) (i : ℕ) : Key → Option (Account Key) :=
  getAccountSharedData (executeInOrder engine bank (transactions.take i)).1

/-- The transaction names the account, or no transaction of the block writes it. -/
def Covered (i : ℕ) (k : Key) : Prop :=
  Touches (accessAt transactions i) k ∨ ∀ j, ¬ Writes (accessAt transactions j) k

/-- Every account that a transaction loads in block order is covered. -/
def LoadsCovered (bank : Accounts Key) : Prop :=
  ∀ i tx, transactions[i]? = some tx →
    (∀ k ∈ (engine.checkTransaction tx).asked (viewAt engine transactions bank i),
      Covered transactions i k) ∧
    ∀ q ∈ (engine.processTransaction tx
        ((engine.checkTransaction tx).eval (viewAt engine transactions bank i))).asked
          (fun q => viewAt engine transactions bank i q.key),
      Covered transactions i q.key

end Salsa.Block
