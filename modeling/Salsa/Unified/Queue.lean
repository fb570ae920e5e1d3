import Mathlib.Algebra.GroupWithZero.Nat
import Salsa.Lib.KeyedMap

/-!
# Salsa.Unified.Queue — tasks and usage queues of the unified scheduler

`TaskInner` and `UsageQueueInner` of `unified-scheduler-logic`. Every address has a
usage queue with the usage it is in and the tasks that are blocked on it, in one of
two forms: first in, first out with a bare count of the readers, or by priority with
the tasks themselves, so that a lock can be taken back from a task that is still
blocked elsewhere.

A task is its number in the order of arrival (the identity of its `Arc`), `tasks`
gives the parts of it that do not change, and `Counts` has the counters of its
blocked usages. A panic of the source is an error.
-/

namespace Salsa.Unified

/-! ## Counters and panics -/

inductive Panic where
  | totalTaskCount
  | unblockedTaskCount
  /-- Another counter of the state machine overflows or underflows. -/
  | counter
  /-- An `unwrap`, assertion, unreachable branch or counter of a usage queue or task. -/
  | queue
deriving DecidableEq, Repr

namespace ShortCounter

/-- `ShortCounter::increment`, a `checked_add` on a `u32`. -/
def increment (panic : Panic) (count : ℕ) : Except Panic ℕ :=
  if count + 1 < 2 ^ 32 then .ok (count + 1) else .error panic

def decrement (panic : Panic) (count : ℕ) : Except Panic ℕ :=
  if count = 0 then .error panic else .ok (count - 1)

end ShortCounter

/-- `Option::unwrap` and the like. -/
def unwrap {α : Type} : Option α → Except Panic α
  | some a => .ok a
  | none => .error .queue

theorem unwrap_eq_ok {α : Type} {x : Option α} {a : α} (h : unwrap x = .ok a) : x = some a := by
  cases x with
  | none => cases h
  | some b =>
    cases h
    rfl

/-! ## Tasks -/

inductive RequestedUsage where
  | readonly
  | writable
deriving DecidableEq, Repr

inductive Usage (R W : Type) where
  | readonly (r : R)
  | writable (w : W)
deriving DecidableEq, Repr

def Usage.requestedUsage {R W : Type} : Usage R W → RequestedUsage
  | .readonly _ => .readonly
  | .writable _ => .writable

/-- `LockContext`; a usage queue is named by its address. -/
structure LockContext (Key : Type) where
  usageQueue : Key
  requestedUsage : RequestedUsage
deriving DecidableEq, Repr

/-- `TaskInner` without the transaction and the counter. -/
structure TaskInner (Key Id : Type) where
  taskId : Id
  lockContexts : List (LockContext Key)
  /-- No duplicate accounts. -/
  nodup : (lockContexts.map LockContext.usageQueue).Nodup
  /-- No more than the `u32` that counts the blocked usages can hold. -/
  short : lockContexts.length < 2 ^ 32

/-- A task that uses one queue. -/
def TaskInner.single {Key Id : Type} (taskId : Id) (key : Key) (usage : RequestedUsage) :
    TaskInner Key Id :=
  ⟨taskId, [⟨key, usage⟩], List.nodup_singleton _, Nat.one_lt_two_pow (by decide)⟩

/-- A task, by its place in the order of arrival. -/
abbrev Task := ℕ

abbrev UsageFromTask := RequestedUsage × Task

/-- The counters `blocked_usage_count`. -/
abbrev Counts := Task → ℕ

/-- `TaskInner::try_unblock`; the answer is whether the task is unblocked. -/
def tryUnblock (counts : Counts) (task : Task) : Except Panic (Bool × Counts) := do
  let count ← ShortCounter.decrement .queue (counts task)
  return (count = 0, Function.update counts task count)

def tryReblock (counts : Counts) (task : Task) : Except Panic (Bool × Counts) :=
  if counts task = 0 then .ok (false, counts)
  else do
    let count ← ShortCounter.increment .queue (counts task)
    return (true, Function.update counts task count)

variable {Key Id : Type} [LinearOrder Id] (tasks : Task → TaskInner Key Id)

def isHigherPriority (task other : Task) : Except Panic Bool :=
  if (tasks task).taskId < (tasks other).taskId then .ok true
  else if (tasks other).taskId < (tasks task).taskId then .ok false
  else .error .queue

/-! ## Usage queues -/

inductive Capability where
  | fifoQueueing
  | priorityQueueing
deriving DecidableEq, Repr

abbrev FifoUsage := Usage ℕ Unit

abbrev TaskMap := KeyedMap fun task : Task => (tasks task).taskId

abbrev PriorityUsage := Usage (TaskMap tasks) Task

/-- `PriorityUsageQueue`, a `BTreeMap<OrderedTaskId, UsageFromTask>`. -/
abbrev PriorityUsageQueue := KeyedMap fun usage : UsageFromTask => (tasks usage.2).taskId

inductive UsageQueueInner where
  | fifo (currentUsage : Option FifoUsage) (blockedUsagesFromTasks : List UsageFromTask)
  | priority (currentUsage : Option (PriorityUsage tasks))
      (blockedUsagesFromTasks : PriorityUsageQueue tasks)

def FifoUsage.ofRequested : RequestedUsage → FifoUsage
  | .readonly => .readonly 1
  | .writable => .writable ()

def PriorityUsage.ofTask (task : Task) : RequestedUsage → PriorityUsage tasks
  | .readonly => .readonly (.single task)
  | .writable => .writable task

namespace UsageQueueInner

variable {tasks}

def new : Capability → UsageQueueInner tasks
  | .fifoQueueing => .fifo none []
  | .priorityQueueing => .priority none .empty

def currentUsage : UsageQueueInner tasks → Option RequestedUsage
  | .fifo currentUsage _ => currentUsage.map Usage.requestedUsage
  | .priority currentUsage _ => currentUsage.map Usage.requestedUsage

def pop : UsageQueueInner tasks → Option UsageFromTask × UsageQueueInner tasks
  | .fifo currentUsage [] => (none, .fifo currentUsage [])
  | .fifo currentUsage (usage :: blocked) => (some usage, .fifo currentUsage blocked)
  | .priority currentUsage blocked =>
      match blocked.popFirst? with
      | none => (none, .priority currentUsage blocked)
      | some (usage, blocked) => (some usage, .priority currentUsage blocked)

variable (queue : UsageQueueInner tasks)

def push (usageFromTask : UsageFromTask) : Except Panic (UsageQueueInner tasks) :=
  match queue with
  | .fifo currentUsage blocked => .ok (.fifo currentUsage (blocked ++ [usageFromTask]))
  | .priority currentUsage blocked => do
      let blocked ← unwrap (blocked.insert? usageFromTask)
      return .priority currentUsage blocked

def peekBlocked : UsageQueueInner tasks → Option UsageFromTask
  | .fifo _ blocked => blocked.head?
  | .priority _ blocked => blocked.first?

/-- `UsageQueueInner::try_lock`; the answer is whether the lock was taken. -/
def tryLock (newTask : Task) (requestedUsage : RequestedUsage) :
    Except Panic (Bool × UsageQueueInner tasks) :=
  match queue with
  | .fifo currentUsage blocked =>
      match currentUsage, requestedUsage with
      | none, _ => .ok (true, .fifo (some (FifoUsage.ofRequested requestedUsage)) blocked)
      | some (.readonly count), .readonly => do
          let count ← ShortCounter.increment .queue count
          return (true, .fifo (some (.readonly count)) blocked)
      | some (.readonly _), .writable => .ok (false, queue)
      | some (.writable _), _ => .ok (false, queue)
  | .priority currentUsage blocked =>
      match currentUsage, requestedUsage with
      | some (.readonly current), .readonly => do
          let current ← unwrap (current.insert? newTask)
          return (true, .priority (some (.readonly current)) blocked)
      | some (.readonly _), .writable => .ok (false, queue)
      | some (.writable _), _ => .ok (false, queue)
      -- `prepare_lock` may have left the queue without a usage while tasks are blocked on it.
      | none, _ =>
          .ok (true, .priority (some (PriorityUsage.ofTask tasks newTask requestedUsage)) blocked)

/-- The first part of `UsageQueueInner::unlock`, up to whether the queue is newly
lockable. -/
def releaseUsage (task : Task) (requestedUsage : RequestedUsage) :
    Except Panic (Bool × UsageQueueInner tasks) :=
  match queue with
  | .fifo currentUsage blocked =>
      match currentUsage, requestedUsage with
      | some (.readonly count), .readonly =>
          if count = 1 then .ok (true, .fifo none blocked)
          else do
            let count ← ShortCounter.decrement .queue count
            return (false, .fifo (some (.readonly count)) blocked)
      | some (.writable _), .writable => .ok (true, .fifo none blocked)
      | _, _ => .error .queue
  | .priority currentUsage blocked =>
      match currentUsage, requestedUsage with
      | some (.readonly current), .readonly => do
          -- The source unwraps to assert that the task was among the readers.
          let (_, current) ← unwrap (current.remove? (tasks task).taskId)
          if current.isEmpty then return (true, .priority none blocked)
          else return (false, .priority (some (.readonly current)) blocked)
      | some (.writable _), .writable => .ok (true, .priority none blocked)
      | _, _ => .error .queue

def unlock (task : Task) (requestedUsage : RequestedUsage) :
    Except Panic (Option UsageFromTask × UsageQueueInner tasks) := do
  let (isNewlyLockable, queue) ← queue.releaseUsage task requestedUsage
  if isNewlyLockable then return queue.pop else return (none, queue)

def pushBlocked (usageFromTask : UsageFromTask) : Except Panic (UsageQueueInner tasks) :=
  if queue.currentUsage.isSome then queue.push usageFromTask else .error .queue

def popLockableReadonly : Except Panic (Option UsageFromTask × UsageQueueInner tasks) :=
  match queue.peekBlocked with
  | some (.readonly, _) =>
      if queue.currentUsage = some .readonly then .ok queue.pop else .error .queue
  | _ => .ok (none, queue)

/-- The `filter_map` of `prepare_lock`: the tasks that could be reblocked. -/
def reblockAll (counts : Counts) : List Task → Except Panic (List Task × Counts)
  | [] => .ok ([], counts)
  | task :: rest => do
      let (reblocked, counts) ← tryReblock counts task
      let (tasks, counts) ← reblockAll counts rest
      return (if reblocked then task :: tasks else tasks, counts)

/-- The `for` loop of `prepare_lock`: the reblocked readers become blocked usages. -/
def moveAll (current : TaskMap tasks) (blocked : PriorityUsageQueue tasks) :
    List Task → Except Panic (TaskMap tasks × PriorityUsageQueue tasks)
  | [] => .ok (current, blocked)
  | task :: rest => do
      let (reblockedTask, current) ← unwrap (current.remove? (tasks task).taskId)
      let blocked ← unwrap (blocked.insert? (.readonly, reblockedTask))
      moveAll current blocked rest

/-- `UsageQueueInner::prepare_lock`; the answer is whether to go on and lock. -/
def prepareLock (counts : Counts) (queue : UsageQueueInner tasks) (newTask : Task)
    (requestedUsage : RequestedUsage) : Except Panic (Bool × Counts × UsageQueueInner tasks) :=
  match queue with
  -- Nobody overtakes in a FIFO queue.
  | .fifo _ blocked => .ok (blocked.isEmpty, counts, queue)
  | .priority currentUsage blocked =>
      match currentUsage, requestedUsage with
      | none, _ => if blocked.isEmpty then .ok (true, counts, queue) else .error .queue
      | some (.writable currentTask), _ => do
          let higher ← isHigherPriority tasks newTask currentTask
          if higher then
            -- Only a holder that is blocked elsewhere can be made to give the lock back.
            let (reblocked, counts) ← tryReblock counts currentTask
            if reblocked then
              let blocked ← unwrap (blocked.insert? (.writable, currentTask))
              return (true, counts, .priority none blocked)
            else return (false, counts, queue)
          else return (false, counts, queue)
      | some (.readonly _), .readonly =>
          match queue.peekBlocked with
          | none => .ok (true, counts, queue)
          -- The source asserts that the first blocked usage is a writer.
          | some (.readonly, _) => .error .queue
          | some (.writable, peekedTask) => do
              let higher ← isHigherPriority tasks newTask peekedTask
              return (higher, counts, queue)
      | some (.readonly current), .writable => do
          -- The readers of lower priority, one by one; the others go on reading.
          let (reblocked, counts) ← reblockAll counts (current.atLeast (tasks newTask).taskId)
          let (current, blocked) ← moveAll current blocked reblocked
          if current.isEmpty then return (true, counts, .priority none blocked)
          else return (false, counts, .priority (some (.readonly current)) blocked)

def blockedCount : UsageQueueInner tasks → ℕ
  | .fifo _ blocked => blocked.length
  | .priority _ blocked => blocked.toList.length

end UsageQueueInner

end Salsa.Unified
