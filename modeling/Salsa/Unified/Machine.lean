import Salsa.Lib.Lts
import Salsa.Unified.Queue

/-!
# Salsa.Unified.Machine — the scheduling state machine

`SchedulingStateMachine` of `unified-scheduler-logic` over the usage queues of all
addresses: a task that arrives tries to lock each of its queues, and a task that is
descheduled unlocks them and unblocks others.

`sys` is the machine under any calls. Tasks arrive in the order of their numbers, and
a task is descheduled only after it was handed out. The state remembers the tasks
that are handed out now and those that were descheduled.
-/

namespace Salsa.Unified

open Function

variable {Key Id : Type} [DecidableEq Key] [LinearOrder Id] (tasks : Task → TaskInner Key Id)

/-- The usage queues of all addresses. -/
abbrev Queues := Key → UsageQueueInner tasks

/-- `SchedulingStateMachine`, with the usage queues and the counters of the tasks that
its tokens give access to. -/
structure SchedulingStateMachine where
  queues : Queues tasks
  counts : Counts
  unblockedTaskQueue : List Task
  activeTaskCount : ℕ
  runningTaskCount : ℕ
  maxRunningTaskCount : ℕ
  handledTaskCount : ℕ
  unblockedTaskCount : ℕ
  totalTaskCount : ℕ

/-- `exclusively_initialize_current_thread_for_scheduling`. -/
def SchedulingStateMachine.new (capability : Capability) (maxRunningTaskCount : ℕ) :
    SchedulingStateMachine tasks where
  queues _ := .new capability
  counts _ := 0
  unblockedTaskQueue := []
  activeTaskCount := 0
  runningTaskCount := 0
  maxRunningTaskCount := maxRunningTaskCount
  handledTaskCount := 0
  unblockedTaskCount := 0
  totalTaskCount := 0

variable {tasks}

/-! ## Locking -/

/-- The closure of `try_lock_usage_queues`. -/
def lockUsageQueue (counts : Counts) (queue : UsageQueueInner tasks) (blockedUsageCount : ℕ)
    (task : Task) (requestedUsage : RequestedUsage) :
    Except Panic (Counts × UsageQueueInner tasks × ℕ) := do
  let (prepared, counts, queue) ← queue.prepareLock counts task requestedUsage
  -- `prepare_lock(..).and_then(try_lock)`
  let (locked, queue) ← if prepared then queue.tryLock task requestedUsage else .ok (false, queue)
  if locked then return (counts, queue, blockedUsageCount)
  else
    let blockedUsageCount ← ShortCounter.increment .queue blockedUsageCount
    let queue ← queue.pushBlocked (requestedUsage, task)
    return (counts, queue, blockedUsageCount)

def lockContexts (task : Task) :
    List (LockContext Key) → Queues tasks → Counts → ℕ → Except Panic (Queues tasks × Counts × ℕ)
  | [], queues, counts, blockedUsageCount => .ok (queues, counts, blockedUsageCount)
  | context :: rest, queues, counts, blockedUsageCount => do
      let (counts, queue, blockedUsageCount) ← lockUsageQueue counts (queues context.usageQueue)
        blockedUsageCount task context.requestedUsage
      lockContexts task rest (Function.update queues context.usageQueue queue) counts
        blockedUsageCount

/-- `try_lock_usage_queues`; the answer is whether the task is not blocked. -/
def tryLockUsageQueues (queues : Queues tasks) (counts : Counts) (task : Task) :
    Except Panic (Bool × Queues tasks × Counts) := do
  let (queues, counts, blockedUsageCount) ←
    lockContexts task (tasks task).lockContexts queues counts 0
  -- The count of the task is set only now; `try_reblock` of the loop is for other tasks.
  if blockedUsageCount = 0 then return (true, queues, counts)
  else return (false, queues, Function.update counts task blockedUsageCount)

/-! ## Unlocking -/

/-- The `while` loop of `unlock_usage_queues`. Every round takes a blocked usage out of
the queue, so more rounds than blocked usages are not needed. -/
def unlockLoop : ℕ → Option UsageFromTask → Counts → UsageQueueInner tasks → List Task →
    Except Panic (Counts × UsageQueueInner tasks × List Task)
  | _, none, counts, queue, unblocked => .ok (counts, queue, unblocked)
  | 0, some _, _, _, _ => .error .queue
  | fuel + 1, some (lockableUsage, lockableTask), counts, queue, unblocked => do
      let (locked, queue) ← queue.tryLock lockableTask lockableUsage
      if locked then
        let (didUnblock, counts) ← tryUnblock counts lockableTask
        let unblocked := if didUnblock then unblocked ++ [lockableTask] else unblocked
        -- Readers let further readers in, a writer nobody.
        let (newlyLockable, queue) ←
          if lockableUsage = .readonly then queue.popLockableReadonly else .ok (none, queue)
        unlockLoop fuel newlyLockable counts queue unblocked
      else .error .queue

/-- The closure of `unlock_usage_queues`. -/
def unlockUsageQueue (counts : Counts) (queue : UsageQueueInner tasks) (unblocked : List Task)
    (task : Task) (requestedUsage : RequestedUsage) :
    Except Panic (Counts × UsageQueueInner tasks × List Task) := do
  let (newlyLockable, queue') ← queue.unlock task requestedUsage
  unlockLoop queue.blockedCount newlyLockable counts queue' unblocked

def unlockContexts (task : Task) : List (LockContext Key) → Queues tasks → Counts → List Task →
      Except Panic (Queues tasks × Counts × List Task)
  | [], queues, counts, unblocked => .ok (queues, counts, unblocked)
  | context :: rest, queues, counts, unblocked => do
      let (counts, queue, unblocked) ← unlockUsageQueue counts (queues context.usageQueue)
        unblocked task context.requestedUsage
      unlockContexts task rest (Function.update queues context.usageQueue queue) counts unblocked

/-! ## Calls -/

namespace SchedulingStateMachine

variable (machine : SchedulingStateMachine tasks)

def isTaskRunnable : Bool :=
  machine.runningTaskCount < machine.maxRunningTaskCount

/-- The closure of `schedule_or_buffer_task`: the task is not blocked, and it is buffered
or returned. -/
def bufferOrReturn (task : Task) (forceBuffering : Bool) :
    Except Panic (Option Task × SchedulingStateMachine tasks) :=
  if !machine.isTaskRunnable || forceBuffering then do
    let unblockedTaskCount ← ShortCounter.increment .unblockedTaskCount machine.unblockedTaskCount
    return (none, { machine with
      unblockedTaskCount, unblockedTaskQueue := machine.unblockedTaskQueue ++ [task] })
  else do
    let runningTaskCount ← ShortCounter.increment .counter machine.runningTaskCount
    return (some task, { machine with runningTaskCount })

/-- `schedule_or_buffer_task`; `schedule_task` is the case without forced buffering. -/
def scheduleOrBufferTask (task : Task)
    (forceBuffering : Bool) : Except Panic (Option Task × SchedulingStateMachine tasks) := do
  let totalTaskCount ← ShortCounter.increment .totalTaskCount machine.totalTaskCount
  let activeTaskCount ← ShortCounter.increment .counter machine.activeTaskCount
  let (locked, queues, counts) ← tryLockUsageQueues machine.queues machine.counts task
  let machine := { machine with queues, counts, activeTaskCount, totalTaskCount }
  if locked then machine.bufferOrReturn task forceBuffering else return (none, machine)

def scheduleNextUnblockedTask : Except Panic (Option Task × SchedulingStateMachine tasks) :=
  if machine.isTaskRunnable then
    match machine.unblockedTaskQueue with
    | [] => .ok (none, machine)
    | task :: rest => do
        let runningTaskCount ← ShortCounter.increment .counter machine.runningTaskCount
        -- A task that was buffered by `schedule_or_buffer_task` is counted a second time here.
        let unblockedTaskCount ←
          ShortCounter.increment .unblockedTaskCount machine.unblockedTaskCount
        return (some task, { machine with
          runningTaskCount, unblockedTaskCount, unblockedTaskQueue := rest })
  else .ok (none, machine)

def descheduleTask (task : Task) : Except Panic (SchedulingStateMachine tasks) := do
  let runningTaskCount ← ShortCounter.decrement .counter machine.runningTaskCount
  let activeTaskCount ← ShortCounter.decrement .counter machine.activeTaskCount
  let handledTaskCount ← ShortCounter.increment .counter machine.handledTaskCount
  let (queues, counts, unblockedTaskQueue) ← unlockContexts task (tasks task).lockContexts
    machine.queues machine.counts machine.unblockedTaskQueue
  return { machine with
    queues, counts, unblockedTaskQueue, runningTaskCount, activeTaskCount, handledTaskCount }

end SchedulingStateMachine

/-! ## The system -/

variable (tasks) in
/-- The machine and what its caller knows: how many tasks were scheduled, which of them
are handed out, which were descheduled. -/
structure SchedulerSt where
  machine : SchedulingStateMachine tasks
  scheduled : ℕ
  handedOut : List Task
  descheduled : List Task

inductive Op where
  | schedule (forceBuffering : Bool)
  | next
  | deschedule (task : Task)
deriving DecidableEq, Repr

/-- A call that keeps to the rules: only a task that is handed out is descheduled. -/
def Op.Allowed (s : SchedulerSt tasks) : Op → Prop
  | .deschedule task => task ∈ s.handedOut
  | _ => True

instance (s : SchedulerSt tasks) : (op : Op) → Decidable (op.Allowed s)
  | .schedule _ => inferInstanceAs (Decidable True)
  | .next => inferInstanceAs (Decidable True)
  | .deschedule task => inferInstanceAs (Decidable (task ∈ s.handedOut))

/-- A call: what it returns and the state after it. -/
def perform (s : SchedulerSt tasks) : Op → Except Panic (Option Task × SchedulerSt tasks)
  | .schedule forceBuffering => do
      let (task, machine) ← s.machine.scheduleOrBufferTask s.scheduled forceBuffering
      return (task, { s with
        machine, scheduled := s.scheduled + 1, handedOut := s.handedOut ++ task.toList })
  | .next => do
      let (task, machine) ← s.machine.scheduleNextUnblockedTask
      return (task, { s with machine, handedOut := s.handedOut ++ task.toList })
  | .deschedule task => do
      let machine ← s.machine.descheduleTask task
      return (none, { s with
        machine, handedOut := s.handedOut.erase task, descheduled := s.descheduled ++ [task] })

/-- How many tasks a call schedules. -/
def Op.arrivals : Op → ℕ
  | .schedule _ => 1
  | _ => 0

theorem bind_eq_ok {α β : Type} {x : Except Panic α} {f : α → Except Panic β} {b : β}
    (h : x >>= f = .ok b) : ∃ a, x = .ok a ∧ f a = .ok b := by
  cases x with
  | error e => cases h
  | ok a => exact ⟨a, rfl, h⟩

variable {s s' : SchedulerSt tasks} {capability : Capability} {limit : ℕ}
  {a : Op × Option Task} {task : Option Task}

/-- What a call that returns does to the tasks: it schedules the next task or none and
hands out what it returns, or it deschedules a task. -/
theorem perform_cases {op : Op}
    (h : perform s op = .ok (task, s')) : s'.scheduled = s.scheduled + op.arrivals ∧
      ((s'.descheduled = s.descheduled ∧ s'.handedOut = s.handedOut ++ task.toList ∧
          ∀ t, op ≠ .deschedule t) ∨
        ∃ t, op = .deschedule t ∧ task = none ∧ s'.descheduled = s.descheduled ++ [t] ∧
          s'.handedOut = s.handedOut.erase t) := by
  cases op with
  | schedule | next =>
    obtain ⟨_, _, heq⟩ := bind_eq_ok h
    cases heq
    exact ⟨rfl, Or.inl ⟨rfl, rfl, fun _ => Op.noConfusion⟩⟩
  | deschedule t =>
    obtain ⟨_, _, heq⟩ := bind_eq_ok h
    cases heq
    exact ⟨rfl, Or.inr ⟨t, rfl, rfl, rfl, rfl⟩⟩

/-- No call changes the limit of running tasks. -/
theorem perform_max {op : Op} (h : perform s op = .ok (task, s')) :
    s'.machine.maxRunningTaskCount = s.machine.maxRunningTaskCount := by
  cases op with
  | schedule forceBuffering =>
    obtain ⟨result, hcall, heq⟩ := bind_eq_ok h
    cases heq
    obtain ⟨total, _, hcall⟩ := bind_eq_ok hcall
    obtain ⟨active, _, hcall⟩ := bind_eq_ok hcall
    obtain ⟨⟨locked, queues, counts⟩, _, hcall⟩ := bind_eq_ok hcall
    cases locked with
    | false =>
      cases hcall
      rfl
    | true =>
      simp only [if_true, SchedulingStateMachine.bufferOrReturn] at hcall
      split_ifs at hcall
      · obtain ⟨count, _, hcall⟩ := bind_eq_ok hcall
        cases hcall
        rfl
      · obtain ⟨count, _, hcall⟩ := bind_eq_ok hcall
        cases hcall
        rfl
  | next =>
    obtain ⟨result, hcall, heq⟩ := bind_eq_ok h
    cases heq
    rw [SchedulingStateMachine.scheduleNextUnblockedTask] at hcall
    split_ifs at hcall
    · cases hqueue : s.machine.unblockedTaskQueue with
      | nil =>
        rw [hqueue] at hcall
        cases hcall
        rfl
      | cons t rest =>
        rw [hqueue] at hcall
        obtain ⟨running, _, hcall⟩ := bind_eq_ok hcall
        obtain ⟨count, _, hcall⟩ := bind_eq_ok hcall
        cases hcall
        rfl
    · cases hcall
      rfl
  | deschedule t =>
    obtain ⟨machine, hcall, heq⟩ := bind_eq_ok h
    cases heq
    obtain ⟨running, _, hcall⟩ := bind_eq_ok hcall
    obtain ⟨active, _, hcall⟩ := bind_eq_ok hcall
    obtain ⟨handled, _, hcall⟩ := bind_eq_ok hcall
    obtain ⟨⟨queues, counts, unblocked⟩, _, hcall⟩ := bind_eq_ok hcall
    cases hcall
    rfl

variable (tasks) in
def SchedulerSt.new (capability : Capability) (maxRunningTaskCount : ℕ) : SchedulerSt tasks where
  machine := .new tasks capability maxRunningTaskCount
  scheduled := 0
  handedOut := []
  descheduled := []

variable (tasks) in
/-- The machine under any calls, each with what it returned. -/
def sys (capability : Capability) (maxRunningTaskCount : ℕ) :
    Lts (SchedulerSt tasks) (Op × Option Task) where
  Init s := s = .new tasks capability maxRunningTaskCount
  Step s a s' := a.1.Allowed s ∧ perform s a.1 = .ok (a.2, s')

/-- The calls one after the other, while they keep to the rules and return. -/
def performAll (s : SchedulerSt tasks) : List Op →
    Option (List (Op × Option Task) × SchedulerSt tasks)
  | [] => some ([], s)
  | op :: ops =>
      if op.Allowed s then
        match perform s op with
        | .ok (task, s') => (performAll s' ops).map fun (tr, s'') => ((op, task) :: tr, s'')
        | .error _ => none
      else none

theorem run_of_performAll (ops : List Op) {tr : List (Op × Option Task)}
    (h : performAll s ops = some (tr, s')) :
    (sys tasks capability limit).Run s tr s' := by
  induction ops generalizing s tr with
  | nil =>
    cases h
    exact Lts.Run.nil
  | cons op ops ih =>
    rw [performAll] at h
    by_cases hallowed : op.Allowed s
    swap
    · rw [if_neg hallowed] at h
      cases h
    rw [if_pos hallowed] at h
    cases hperform : perform s op with
    | error e =>
      rw [hperform] at h
      cases h
    | ok result =>
      rw [hperform] at h
      obtain ⟨⟨tr₁, s₂⟩, hrest, heq⟩ := Option.map_eq_some_iff.mp h
      cases heq
      exact Lts.Run.cons ⟨hallowed, hperform⟩ (ih hrest)

variable (tasks) in
def stateAfter (capability : Capability) (maxRunningTaskCount : ℕ) (ops : List Op) :
    SchedulerSt tasks :=
  match performAll (.new tasks capability maxRunningTaskCount) ops with
  | some (_, s) => s
  | none => .new tasks capability maxRunningTaskCount

theorem reachable_stateAfter (capability : Capability) (limit : ℕ) (ops : List Op) :
    (sys tasks capability limit).Reachable (stateAfter tasks capability limit ops) := by
  rw [stateAfter]
  cases hops : performAll (.new tasks capability limit) ops with
  | none => exact ⟨_, [], rfl, Lts.Run.nil⟩
  | some result => exact ⟨_, result.1, rfl, run_of_performAll ops hops⟩

/-- A step never takes back what was scheduled or descheduled. -/
theorem step_mono (hstep : (sys tasks capability limit).Step s a s') :
    s.scheduled ≤ s'.scheduled ∧ s.descheduled ⊆ s'.descheduled := by
  rcases perform_cases hstep.2 with ⟨hscheduled, ⟨hdone, -⟩ | ⟨t, -, -, hdone, -⟩⟩
  · rw [hscheduled, hdone]
    exact ⟨Nat.le_add_right _ _, List.Subset.refl _⟩
  · rw [hscheduled, hdone]
    exact ⟨Nat.le_add_right _ _, List.subset_append_left _ _⟩

/-! ## Active, runnable and conflicting tasks -/

/-- Scheduled and not descheduled. -/
def SchedulerSt.Active (s : SchedulerSt tasks) (task : Task) : Prop :=
  task < s.scheduled ∧ task ∉ s.descheduled

/-- Returned to the caller or in the unblocked queue, and not descheduled. -/
def SchedulerSt.Runnable (s : SchedulerSt tasks) (task : Task) : Prop :=
  task ∈ s.handedOut ∨ task ∈ s.machine.unblockedTaskQueue

/-- Active and not runnable. -/
def SchedulerSt.Waiting (s : SchedulerSt tasks) (task : Task) : Prop :=
  s.Active task ∧ ¬ s.Runnable task

/-- Only a task that is handed out can stop to be active. -/
theorem active_step (hstep : (sys tasks capability limit).Step s a s') {task : Task}
    (hactive : s.Active task) (hnot : task ∉ s.handedOut) : s'.Active task := by
  refine ⟨hactive.1.trans_le (step_mono hstep).1, ?_⟩
  obtain ⟨op, result⟩ := a
  obtain ⟨hallowed, hperform⟩ := hstep
  rcases perform_cases hperform with ⟨-, ⟨hdone, -⟩ | ⟨t, rfl, -, hdone, -⟩⟩
  · rw [hdone]
    exact hactive.2
  · rw [hdone, List.mem_append, List.mem_singleton, not_or]
    exact ⟨hactive.2, fun heq => hnot (heq ▸ hallowed)⟩

instance (s : SchedulerSt tasks) (task : Task) : Decidable (s.Active task) :=
  inferInstanceAs (Decidable (_ ∧ _))

instance (s : SchedulerSt tasks) (task : Task) : Decidable (s.Runnable task) :=
  inferInstanceAs (Decidable (_ ∨ _))

instance (s : SchedulerSt tasks) (task : Task) : Decidable (s.Waiting task) :=
  inferInstanceAs (Decidable (_ ∧ _))

variable (tasks) in
/-- Two tasks use the same queue and one of them for writing. -/
def Conflict (a b : Task) : Prop :=
  ∃ key u v, ⟨key, u⟩ ∈ (tasks a).lockContexts ∧ ⟨key, v⟩ ∈ (tasks b).lockContexts ∧
    (u = .writable ∨ v = .writable)

variable (tasks) in
/-- The first `n` tasks have different ids. -/
def DistinctIds (n : ℕ) : Prop :=
  ∀ i j, i < n → j < n → (tasks i).taskId = (tasks j).taskId → i = j

variable (tasks) in
/-- The ids of the first `n` tasks increase in the order of arrival. -/
def IncreasingIds (n : ℕ) : Prop :=
  ∀ i j, i < j → j < n → (tasks i).taskId < (tasks j).taskId

instance (n : ℕ) : Decidable (DistinctIds tasks n) :=
  decidable_of_iff (∀ i < n, ∀ j < n, (tasks i).taskId = (tasks j).taskId → i = j)
    ⟨fun h i j hi hj => h i hi j hj, fun h i hi j hj => h i j hi hj⟩

instance (n : ℕ) : Decidable (IncreasingIds tasks n) :=
  decidable_of_iff (∀ j < n, ∀ i < j, (tasks i).taskId < (tasks j).taskId)
    ⟨fun h i j hij hj => h j hj i hij, fun h j hj i hij => h i j hij hj⟩

end Salsa.Unified
