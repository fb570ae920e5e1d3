import Salsa.Unified.Priority

/-!
# Salsa.Unified.Sim — the FIFO machine next to the priority machine

The two machines on the same tasks, where on the priority side the ids increase in
the order of arrival. The tasks of the two sides may differ in their ids, so that the
FIFO machine, which does not look at ids, can be compared with a priority machine
whose ids are the numbers of arrival.
-/

namespace Salsa.Unified

open UsageQueueInner Function List KeyedMap

variable {Key Id Id' : Type} [LinearOrder Id] [LinearOrder Id'] {tasks : Task → TaskInner Key Id}
  {tasks' : Task → TaskInner Key Id'} {blocked : PriorityUsageQueue tasks'} {task : Task}
  {late : Task → Prop} {u : RequestedUsage} {counts : Counts} {q : UsageQueueInner tasks}
  {current : Option (PriorityUsage tasks')} {queues' : Queues tasks'} {queues : Queues tasks}

/-- Current usages of the same kind, with as many readers. -/
inductive UsageSim : Option FifoUsage → Option (PriorityUsage tasks') → Prop where
  | free : UsageSim none none
  | read (readers : TaskMap tasks') :
      UsageSim (some (.readonly readers.toList.length)) (some (.readonly readers))
  | write (task : Task) : UsageSim (some (.writable ())) (some (.writable task))

/-- A FIFO queue and a priority queue in corresponding states. -/
inductive QueueSim : UsageQueueInner tasks → UsageQueueInner tasks' → Prop where
  | mk {usage : Option FifoUsage} {usage' : Option (PriorityUsage tasks')}
      (husage : UsageSim usage usage') (blocked : PriorityUsageQueue tasks') :
      QueueSim (.fifo usage blocked.toList) (.priority usage' blocked)

theorem UsageSim.ofTask (task : Task) (u : RequestedUsage) :
    UsageSim (some (FifoUsage.ofRequested u)) (some (PriorityUsage.ofTask tasks' task u)) := by
  cases u with
  | readonly => exact .read (.single task)
  | writable => exact .write task

/-! ## Locking -/

section Lock

variable {n : ℕ} {usage : FifoUsage}

/-- A FIFO queue takes a task only if nobody is blocked and both sides read. -/
theorem fifo_push {blocked : List UsageFromTask} (hn : n + 1 < 2 ^ 32)
    (h : blocked ≠ [] ∨ usage.requestedUsage = .writable ∨ u = .writable) :
    lockUsageQueue counts (.fifo (some usage) blocked : UsageQueueInner tasks) n task u =
      .ok (counts, .fifo (some usage) (blocked ++ [(u, task)]), n + 1) := by
  cases blocked with
  | cons x l =>
    simp [lockUsageQueue, prepareLock, increment_of_lt hn, pushBlocked, currentUsage, push]
  | nil =>
    have hlocked : (fifo (some usage) [] : UsageQueueInner tasks).tryLock task u =
        .ok (false, .fifo (some usage) []) := by
      rcases h with h | h | rfl
      · exact absurd rfl h
      · cases usage with
        | readonly count => cases h
        | writable w => rfl
      · cases usage <;> rfl
    simp [lockUsageQueue, prepareLock, hlocked, increment_of_lt hn, pushBlocked, currentUsage, push]

/-- Both queues block the task that arrives. -/
theorem QueueSim.push {usage' : PriorityUsage tasks'} (husage : UsageSim (some usage) (some usage'))
    (hprepare : (priority (some usage') blocked).prepareLock counts task u =
      .ok (false, counts, .priority (some usage') blocked))
    (hlast : ∀ y ∈ blocked, idOf tasks' y < (tasks' task).taskId) (hn : n + 1 < 2 ^ 32)
    (h : blocked.toList ≠ [] ∨ usage.requestedUsage = .writable ∨ u = .writable) :
    ∃ (q₁ : UsageQueueInner tasks) (q₁' : UsageQueueInner tasks') (n₁ : ℕ),
      lockUsageQueue counts (.fifo (some usage) blocked.toList) n task u = .ok (counts, q₁, n₁) ∧
      lockUsageQueue counts (.priority (some usage') blocked) n task u = .ok (counts, q₁', n₁) ∧
      QueueSim q₁ q₁' := by
  obtain ⟨blocked', hinsert, hlist⟩ := insert?_last (m := blocked) (a := (u, task)) hlast
  refine ⟨_, _, _, fifo_push hn h, lockUsageQueue_push hprepare hinsert hn, ?_⟩
  rw [← hlist]
  exact .mk husage blocked'

open QueueSim

/-- The last to arrive: nothing is taken back, and both queues grant the lock or both block
the task. -/
theorem QueueSim.lock (counts : Counts) (u : RequestedUsage)
    (hsim : QueueSim q (.priority current blocked)) (hinv : QueueInv late current blocked)
    (hlast : ∀ y, y ∈ holders current ∨ y ∈ blocked → idOf tasks' y < (tasks' task).taskId)
    (hlength : (holders current).length + 1 < 2 ^ 32) (hn : n + 1 < 2 ^ 32) :
    ∃ (q₁ : UsageQueueInner tasks) (q₁' : UsageQueueInner tasks') (n₁ : ℕ),
      lockUsageQueue counts q n task u = .ok (counts, q₁, n₁) ∧
      lockUsageQueue counts (.priority current blocked) n task u = .ok (counts, q₁', n₁) ∧
      QueueSim q₁ q₁' := by
  have hlast' : ∀ y ∈ blocked, idOf tasks' y < (tasks' task).taskId := fun y hy =>
    hlast y (Or.inr hy)
  obtain ⟨husage, blocked⟩ := hsim
  cases husage with
  | free =>
    have hnil := hinv.blocked_eq_nil
    have hprepare : (priority none blocked).prepareLock counts task u =
        .ok (true, counts, .priority none blocked) := by
      simp [prepareLock, KeyedMap.isEmpty, hnil]
    refine ⟨_, _, n, ?_, lockUsageQueue_free hprepare, .mk (.ofTask task u) blocked⟩
    rw [hnil]
    rfl
  | write holder =>
    -- The holder came earlier, so the task has no higher priority.
    have hlt : (tasks' holder).taskId < (tasks' task).taskId :=
      hlast (.writable, holder) (Or.inl (mem_holders_writable.mpr rfl))
    refine push (.write holder) ?_ hlast' hn (Or.inr (Or.inl rfl))
    simp [prepareLock, isHigherPriority_of_ne (ne_of_lt hlt), decide_eq_false (not_lt_of_gt hlt)]
  | read readers =>
    have hreaders : ∀ t ∈ readers, (tasks' t).taskId < (tasks' task).taskId := fun t ht =>
      hlast (.readonly, t) (Or.inl (mem_holders_readonly.mpr ⟨rfl, ht⟩))
    cases u with
    | writable =>
      -- All readers came earlier: none is in the range to be put back.
      have hnone : readers.atLeast (tasks' task).taskId = [] := by
        refine eq_nil_iff_forall_not_mem.mpr fun t ht => ?_
        obtain ⟨hr, hle⟩ := mem_atLeast.mp ht
        exact absurd (hreaders t hr) (not_lt_of_ge hle)
      have hfilled : readers.isEmpty = false := by
        obtain ⟨t, ht⟩ := hinv.filled readers rfl
        rw [← Bool.not_eq_true]
        exact fun hempty => isEmpty_iff.mp hempty t ht
      refine push (.read readers) ?_ hlast' hn (Or.inr (Or.inr rfl))
      simp [prepareLock, hnone, reblockAll, moveAll, hfilled]
    | readonly =>
      have hprepare : (priority (some (.readonly readers)) blocked).prepareLock
          counts task .readonly = _ :=
        prepareLock_readonly _ hinv fun y hy => ne_of_lt (hlast' y hy)
      -- A blocked usage came earlier, so a reader is let in only if there is none.
      by_cases hnil : blocked.toList = []
      · have hfirst : ∀ y ∈ blocked.toList, (tasks' task).taskId < idOf tasks' y := by
          rw [hnil]
          exact forall_mem_nil _
        rw [decide_eq_true hfirst] at hprepare
        rcases insert?_last (m := readers) (a := task) hreaders with
          ⟨readers', hinsert, -⟩
        have hcount : readers.toList.length + 1 < 2 ^ 32 := by
          rwa [holders, length_map] at hlength
        refine ⟨.fifo (some (.readonly readers'.toList.length)) blocked.toList,
          .priority (some (.readonly readers')) blocked, n, ?_, ?_, .mk (.read readers') blocked⟩
        · rw [length_of_insert? hinsert, hnil]
          simp [lockUsageQueue, prepareLock, tryLock, increment_of_lt hcount]
        · simp [lockUsageQueue, hprepare, tryLock, hinsert, unwrap]
      · have hfirst : ¬ ∀ y ∈ blocked.toList, (tasks' task).taskId < idOf tasks' y := by
          intro hall
          obtain ⟨y, hy⟩ := exists_mem_of_ne_nil _ hnil
          exact lt_asymm (hall y hy) (hlast' y hy)
        rw [decide_eq_false hfirst] at hprepare
        exact push (.read readers) hprepare hlast' hn (Or.inl hnil)

end Lock

/-! ## Unlocking -/

section Unlock

variable {counts counts₁ : Counts} {q' q₁' : UsageQueueInner tasks'}

/-- The readers that a FIFO queue counts. -/
def readerCount : Option FifoUsage → ℕ
  | some (.readonly count) => count
  | _ => 0

/-- How many readers a FIFO queue can have before further tasks arrive. -/
def load : UsageQueueInner tasks → ℕ
  | .fifo usage blocked => readerCount usage + blocked.length
  | .priority _ blocked => blocked.toList.length

section

variable (hsim : QueueSim q q')
include hsim

/-- Both queues answer alike. -/
theorem QueueSim.tryLock {locked : Bool} (h : q'.tryLock task u = .ok (locked, q₁'))
    (hload : load q + 1 < 2 ^ 32) :
    ∃ q₁, q.tryLock task u = .ok (locked, q₁) ∧ QueueSim q₁ q₁' ∧ load q₁ ≤ load q + 1 := by
  obtain ⟨husage, blocked⟩ := hsim
  cases husage with
  | free =>
    cases h
    refine ⟨_, rfl, .mk (.ofTask task u) blocked, ?_⟩
    cases u <;> simp [load, readerCount, FifoUsage.ofRequested, Nat.add_comm]
  | write holder =>
    cases h
    exact ⟨_, rfl, .mk (.write holder) blocked, Nat.le_succ _⟩
  | read readers =>
    cases u with
    | writable =>
      cases h
      exact ⟨_, rfl, .mk (.read readers) blocked, Nat.le_succ _⟩
    | readonly =>
      obtain ⟨readers', hinsert, heq⟩ := bind_eq_ok h
      cases heq
      have hlength := length_of_insert? (unwrap_eq_ok hinsert)
      have hcount : readers.toList.length + 1 < 2 ^ 32 := by
        simp only [load, readerCount] at hload
        omega
      refine ⟨.fifo (some (.readonly readers'.toList.length)) blocked.toList, ?_,
        .mk (.read readers') blocked, ?_⟩
      · rw [hlength]
        simp [tryLock, increment_of_lt hcount]
      · simp only [load, readerCount]
        omega

theorem QueueSim.releaseUsage {newly : Bool} (h : q'.releaseUsage task u = .ok (newly, q₁')) :
    ∃ q₁, q.releaseUsage task u = .ok (newly, q₁) ∧ QueueSim q₁ q₁' ∧ load q₁ ≤ load q := by
  obtain ⟨husage, blocked⟩ := hsim
  cases husage with
  | free => cases h
  | write holder =>
    cases u with
    | readonly => cases h
    | writable =>
      cases h
      exact ⟨_, rfl, .mk .free blocked, Nat.le_refl _⟩
  | read readers =>
    cases u with
    | writable => cases h
    | readonly =>
      obtain ⟨⟨removed, current⟩, hremove, hrest⟩ := bind_eq_ok h
      have hlength := length_of_remove? (unwrap_eq_ok hremove)
      cases hempty : current.isEmpty with
      | true =>
        -- The last reader leaves: the count was one.
        have hone : readers.toList.length = 1 := by
          rw [KeyedMap.isEmpty, List.isEmpty_iff] at hempty
          rw [← hlength, hempty]
          rfl
        simp only [hempty, if_true, pure_eq_ok] at hrest
        cases hrest
        refine ⟨.fifo none blocked.toList, ?_, .mk .free blocked, ?_⟩
        · simp [releaseUsage, hone]
        · simp only [load, readerCount]
          omega
      | false =>
        have hpos : current.toList.length ≠ 0 := by
          intro hzero
          rw [KeyedMap.isEmpty, length_eq_zero_iff.mp hzero] at hempty
          cases hempty
        simp only [hempty, Bool.false_eq_true, if_false, pure_eq_ok] at hrest
        cases hrest
        refine ⟨.fifo (some (.readonly current.toList.length)) blocked.toList, ?_,
          .mk (.read current) blocked, ?_⟩
        · have hne : readers.toList.length ≠ 1 := by omega
          have hcount : readers.toList.length - 1 = current.toList.length := by omega
          simp [releaseUsage, hne, decrement_of_pos (Nat.pos_of_ne_zero (by omega :
            readers.toList.length ≠ 0)), hcount]
        · simp only [load, readerCount]
          omega

theorem QueueSim.pop :
    q.pop.1 = q'.pop.1 ∧ QueueSim q.pop.2 q'.pop.2 ∧
      load q.pop.2 + q.pop.1.toList.length = load q := by
  obtain ⟨husage, ⟨l, hl⟩⟩ := hsim
  cases l with
  | nil => exact ⟨rfl, .mk husage ⟨[], hl⟩, rfl⟩
  | cons x l =>
    refine ⟨rfl, .mk husage ⟨l, (pairwise_cons.mp hl).2⟩, ?_⟩
    simp [load, pop, Nat.add_assoc]

variable {next : Option UsageFromTask} {unblocked unblocked₁ : List Task}

theorem QueueSim.popLockableReadonly (h : q'.popLockableReadonly = .ok (next, q₁')) :
    ∃ q₁, q.popLockableReadonly = .ok (next, q₁) ∧ QueueSim q₁ q₁' ∧
      load q₁ + next.toList.length = load q := by
  obtain ⟨hfirst, hrest, hload⟩ := hsim.pop
  obtain ⟨husage, ⟨l, hl⟩⟩ := hsim
  cases l with
  | nil =>
    cases h
    exact ⟨_, rfl, .mk husage ⟨[], hl⟩, rfl⟩
  | cons x l =>
    obtain ⟨v, t⟩ := x
    cases v with
    | writable =>
      cases h
      exact ⟨_, rfl, .mk husage ⟨_, hl⟩, rfl⟩
    | readonly =>
      cases husage with
      | free => cases h
      | write holder => cases h
      | read readers =>
        cases h
        exact ⟨_, rfl, hrest, hload⟩

/-- The loop lets the same usages in. -/
theorem QueueSim.unlockLoop {fuel : ℕ}
    (h : unlockLoop fuel next counts q' unblocked = .ok (counts₁, q₁', unblocked₁))
    (hload : load q + next.toList.length < 2 ^ 32) :
    ∃ q₁, unlockLoop fuel next counts q unblocked = .ok (counts₁, q₁, unblocked₁) ∧
      QueueSim q₁ q₁' := by
  -- `next` was taken from the queue already, so it counts for the load.
  induction fuel generalizing next counts q q' unblocked with
  | zero =>
    cases next with
    | none =>
      cases h
      exact ⟨q, rfl, hsim⟩
    | some x => cases h
  | succ fuel ih =>
    rcases next with _ | ⟨v, t⟩
    · cases h
      exact ⟨q, rfl, hsim⟩
    · obtain ⟨⟨locked, q₂'⟩, hlock, hrest⟩ := bind_eq_ok h
      obtain ⟨q₂, hlock₂, hsim₂, hload₂⟩ := hsim.tryLock hlock hload
      have hload' : load q + 1 < 2 ^ 32 := hload
      cases locked with
      | false => cases hrest
      | true =>
        obtain ⟨⟨did, counts₂⟩, hunblock, hrest⟩ := bind_eq_ok hrest
        cases v with
        | writable =>
          obtain ⟨q₁, hrun, hsim₁⟩ := ih hsim₂ hrest (lt_of_le_of_lt hload₂ hload')
          refine ⟨q₁, ?_, hsim₁⟩
          rw [Unified.unlockLoop, hlock₂, ok_bind]
          simp only [if_true, hunblock, ok_bind]
          exact hrun
        | readonly =>
          obtain ⟨⟨next₃, q₃'⟩, hpop, hrest⟩ := bind_eq_ok hrest
          obtain ⟨q₃, hpop₃, hsim₃, hload₃⟩ := hsim₂.popLockableReadonly hpop
          obtain ⟨q₁, hrun, hsim₁⟩ := ih hsim₃ hrest (by omega)
          refine ⟨q₁, ?_, hsim₁⟩
          rw [Unified.unlockLoop, hlock₂, ok_bind]
          simp only [if_true, hunblock, ok_bind, hpop₃]
          exact hrun

theorem QueueSim.blockedCount_eq : q.blockedCount = q'.blockedCount := by
  obtain ⟨_, _⟩ := hsim
  rfl

/-- A task leaves both queues, and both pass the lock on to the same usages. -/
theorem QueueSim.unlock
    (h : unlockUsageQueue counts q' unblocked task u = .ok (counts₁, q₁', unblocked₁))
    (hload : load q < 2 ^ 32) :
    ∃ q₁, unlockUsageQueue counts q unblocked task u = .ok (counts₁, q₁, unblocked₁) ∧
      QueueSim q₁ q₁' := by
  obtain ⟨⟨next, q₂'⟩, hunlock, hloop⟩ := bind_eq_ok h
  obtain ⟨⟨newly, q₃'⟩, hrelease, hnext⟩ := bind_eq_ok hunlock
  obtain ⟨q₃, hrelease₃, hsim₃, hload₃⟩ := hsim.releaseUsage hrelease
  -- Both queues are newly lockable or neither is.
  have hunlock₂ : ∃ q₂, q.unlock task u = .ok (next, q₂) ∧ QueueSim q₂ q₂' ∧
      load q₂ + next.toList.length ≤ load q₃ := by
    cases newly with
    | false =>
      cases hnext
      refine ⟨q₃, ?_, hsim₃, Nat.le_refl _⟩
      rw [UsageQueueInner.unlock, hrelease₃]
      rfl
    | true =>
      obtain ⟨hfirst, hrest, hpop⟩ := hsim₃.pop
      have heq : q₃'.pop = (next, q₂') := Except.ok.inj hnext
      rw [heq] at hfirst hrest
      subst hfirst
      refine ⟨q₃.pop.2, ?_, hrest, hpop.le⟩
      rw [UsageQueueInner.unlock, hrelease₃]
      rfl
  obtain ⟨q₂, hq₂, hsim₂, hload₂⟩ := hunlock₂
  rw [← hsim.blockedCount_eq] at hloop
  obtain ⟨q₁, hrun, hsim₁⟩ := hsim₂.unlockLoop hloop (by omega)
  refine ⟨q₁, ?_, hsim₁⟩
  rw [unlockUsageQueue, hq₂]
  exact hrun

end

end Unlock

/-! ## All queues -/

def QueuesSim (queues : Queues tasks) (queues' : Queues tasks') : Prop :=
  ∀ key, QueueSim (queues key) (queues' key)

theorem QueuesSim.update [DecidableEq Key]
    (hsim : QueuesSim queues queues') {q' : UsageQueueInner tasks'}
    (hq : QueueSim q q') (key : Key) :
    QueuesSim (Function.update queues key q) (Function.update queues' key q') := by
  intro k
  by_cases hk : k = key
  · subst hk
    rw [update_self, update_self]
    exact hq
  · rw [update_of_ne hk, update_of_ne hk]
    exact hsim k

theorem nodup_holders (current : Option (PriorityUsage tasks')) : (holders current).Nodup := by
  rcases current with _ | readers | holder
  · exact nodup_nil
  · exact readers.nodup.map fun a b heq => congrArg Prod.snd heq
  · exact nodup_singleton _

variable {contexts : Task → List (LockContext Key)}

/-- A queue has no more usages than there are tasks. -/
theorem SysInv.length_le
    {queues : Queues tasks'} (h : SysInv contexts late queues counts) {key : Key}
    (hinv : QueueInv late current blocked)
    (hmem : ∀ x, x ∈ holders current ∨ x ∈ blocked ↔ ⟨key, x.1⟩ ∈ contexts x.2) {bound : ℕ}
    (hlt : ∀ x, x ∈ holders current ∨ x ∈ blocked → x.2 < bound) :
    (holders current).length + blocked.toList.length ≤ bound := by
  have hnodup : (holders current ++ blocked.toList).Nodup := by
    refine nodup_append.mpr ⟨nodup_holders current, blocked.nodup, ?_⟩
    intro x hx y hy heq
    subst heq
    exact hinv.orderly.disjoint x hx hy
  have htasks : ((holders current ++ blocked.toList).map Prod.snd).Nodup := by
    refine hnodup.map_on fun x hx y hy heq => ?_
    exact h.usage_eq ((hmem x).mp (mem_append.mp hx)) ((hmem y).mp (mem_append.mp hy)) heq
  have hle := length_le_of_lt htasks (n := bound) fun t ht => by
    obtain ⟨x, hx, rfl⟩ := mem_map.mp ht
    exact hlt x (mem_append.mp hx)
  rwa [length_map, length_append] at hle

theorem QueueSim.load_le (hsim : QueueSim q (.priority current blocked)) :
    load q ≤ (holders current).length + blocked.toList.length := by
  obtain ⟨husage, blocked⟩ := hsim
  cases husage with
  | free => exact Nat.le_refl _
  | read readers => simp [load, readerCount, holders]
  | write holder => simp [load, readerCount]

section Loops

variable [DecidableEq Key] {n bound : ℕ}

theorem lockContexts_sim (rest : List (LockContext Key)) (hsim : QueuesSim queues queues')
    (h : SysInv contexts late queues' (update counts task n))
    (hnodup : ((contexts task ++ rest).map LockContext.usageQueue).Nodup)
    (hshort : (contexts task ++ rest).length < 2 ^ 32)
    (hlast : ∀ t, t ≠ task → contexts t ≠ [] → (tasks' t).taskId < (tasks' task).taskId)
    (hids : ∀ t t', t ≠ task → t' ≠ task → contexts t ≠ [] → contexts t' ≠ [] →
      (tasks' t).taskId = (tasks' t').taskId → t = t')
    (hlt : ∀ t, t ≠ task → contexts t ≠ [] → t < bound) (hbound : bound + 1 < 2 ^ 32) :
    ∃ queues₁ queues₁' counts₁ n₁,
      lockContexts task rest queues counts n = .ok (queues₁, counts₁, n₁) ∧
      lockContexts task rest queues' counts n = .ok (queues₁', counts₁, n₁) ∧
      QueuesSim queues₁ queues₁' := by
  induction rest generalizing contexts queues queues' counts n with
  | nil => exact ⟨queues, queues', counts, n, rfl, rfl, hsim⟩
  | cons c rest ih =>
    obtain ⟨hc, hlen⟩ := next_context hnodup hshort
    -- The priority side, by its own invariant.
    rcases h.lock (fun t ht hne => ne_of_lt (hlast t ht hne)) hids
      (fun t ht hne hgt => absurd hgt (lt_asymm (hlast t ht hne))) hc hlen with
      ⟨counts₁, queue₁', n₁, hrun₁', hinv₁, -, -⟩
    obtain ⟨current, blocked, hq, hinv, hmem⟩ := h.queue c.usageQueue
    have hused : ∀ y, y ∈ holders current ∨ y ∈ blocked → y.2 ≠ task ∧ contexts y.2 ≠ [] :=
      fun _ => used_of_not_mem hmem hc
    have hlength := h.length_le hinv hmem fun x hx => hlt x.2 (hused x hx).1 (hused x hx).2
    have hsim₀ := hsim c.usageQueue
    rw [hq] at hsim₀ hrun₁'
    rcases hsim₀.lock counts c.requestedUsage hinv
      (fun y hy => hlast y.2 (hused y hy).1 (hused y hy).2) (by omega) (h.local_lt hlen) with
      ⟨queue₁, queue₂', n₂, hrun₁, hrun₂, hsim₁⟩
    rw [hrun₂] at hrun₁'
    cases hrun₁'
    have hself : addContext contexts task c task = contexts task ++ [c] := update_self ..
    have hother : ∀ t, t ≠ task → addContext contexts task c t = contexts t := fun t ht =>
      update_of_ne ht _ _
    have happend : contexts task ++ [c] ++ rest = contexts task ++ c :: rest := by simp
    rcases ih (hsim.update hsim₁ c.usageQueue) hinv₁ (by rwa [hself, happend])
      (by rwa [hself, happend]) (fun t ht hne => hlast t ht (hother t ht ▸ hne))
      (fun t t' ht ht' hne hne' => hids t t' ht ht' (hother t ht ▸ hne) (hother t' ht' ▸ hne'))
      (fun t ht hne => hlt t ht (hother t ht ▸ hne)) with
      ⟨queues₃, queues₃', counts₃, n₃, hrun, hrun', hsim₃⟩
    refine ⟨queues₃, queues₃', counts₃, n₃, ?_, ?_, hsim₃⟩
    · rw [lockContexts, hrun₁]
      exact hrun
    · rw [lockContexts, hq, hrun₂]
      exact hrun'

theorem unlockContexts_sim {rest : List (LockContext Key)} (hsim : QueuesSim queues queues')
    (h : SysInv contexts late queues' counts) (hctx : contexts task = rest)
    (hzero : counts task = 0) (hlt : ∀ t, contexts t ≠ [] → t < bound) (hbound : bound < 2 ^ 32)
    (unblocked : List Task) :
    ∃ queues₁ queues₁' counts₁ unblocked₁,
      unlockContexts task rest queues counts unblocked = .ok (queues₁, counts₁, unblocked₁) ∧
      unlockContexts task rest queues' counts unblocked = .ok (queues₁', counts₁, unblocked₁) ∧
      QueuesSim queues₁ queues₁' := by
  induction rest generalizing contexts queues queues' counts unblocked with
  | nil => exact ⟨queues, queues', counts, unblocked, rfl, rfl, hsim⟩
  | cons c rest ih =>
    rcases h.unlock hctx hzero unblocked with
      ⟨counts₁, queue₁', newly₁, hrun₁', hinv₁, -, -, -, hzero₁⟩
    obtain ⟨current, blocked, hq, hinv, hmem⟩ := h.queue c.usageQueue
    -- The FIFO side counts readers in a `u32`: there are no more than tasks.
    have hlength := h.length_le hinv hmem fun x hx => hlt x.2 (ne_nil_of_mem ((hmem x).mp hx))
    have hload := (hq ▸ hsim c.usageQueue : QueueSim _ (.priority current blocked)).load_le
    obtain ⟨queue₁, hrun₁, hsim₁⟩ := (hsim c.usageQueue).unlock hrun₁' (by omega)
    have hlt₁ : ∀ t, update contexts task rest t ≠ [] → t < bound := by
      intro t hne
      by_cases ht : t = task
      · subst ht
        refine hlt t ?_
        rw [hctx]
        exact cons_ne_nil _ _
      · rw [update_of_ne ht] at hne
        exact hlt t hne
    rcases ih (hsim.update hsim₁ c.usageQueue) hinv₁ (update_self ..) hzero₁ hlt₁
      (unblocked ++ newly₁) with ⟨queues₂, queues₂', counts₂, unblocked₂, hrun, hrun', hsim₂⟩
    refine ⟨queues₂, queues₂', counts₂, unblocked₂, ?_, ?_, hsim₂⟩
    · rw [unlockContexts, hrun₁]
      exact hrun
    · rw [unlockContexts, hrun₁']
      exact hrun'

end Loops

/-! ## Calls -/

/-- Both sides return with related results, or both panic the same way. -/
inductive ResultSim {α β : Type} (R : α → β → Prop) : Except Panic α → Except Panic β → Prop where
  | ok {a : α} {b : β} (h : R a b) : ResultSim R (.ok a) (.ok b)
  | error (e : Panic) : ResultSim R (.error e) (.error e)

namespace ResultSim

variable {α β γ δ : Type} {R : α → β → Prop} {S : γ → δ → Prop} {x : Except Panic α}
  {y : Except Panic β} {g : β → Except Panic δ}

theorem bind {f : α → Except Panic γ} (h : ResultSim R x y)
    (hfg : ∀ a b, R a b → ResultSim S (f a) (g b)) : ResultSim S (x >>= f) (y >>= g) := by
  cases h with
  | ok h => exact hfg _ _ h
  | error e => exact .error e

/-- Both sides start with the same call. -/
theorem same {f : β → Except Panic γ} (h : ∀ b, ResultSim S (f b) (g b)) :
    ResultSim S (y >>= f) (y >>= g) := by
  cases y with
  | error e => exact .error e
  | ok b => exact h b

theorem eq_error {e : Panic} (h : ResultSim R x (.error e)) : x = .error e := by
  cases h
  rfl

theorem of_ok_left {a : α} (h : ResultSim R (.ok a) y) : ∃ b, y = .ok b ∧ R a b := by
  cases h with
  | ok h => exact ⟨_, rfl, h⟩

theorem of_ok_right {b : β} (h : ResultSim R x (.ok b)) : ∃ a, x = .ok a ∧ R a b := by
  cases h with
  | ok h => exact ⟨_, rfl, h⟩

end ResultSim

/-- Corresponding machines: all but the queues is the same. -/
structure MachineSim (m : SchedulingStateMachine tasks) (m' : SchedulingStateMachine tasks') :
    Prop where
  queues : QueuesSim m.queues m'.queues
  counts : m.counts = m'.counts
  unblockedTaskQueue : m.unblockedTaskQueue = m'.unblockedTaskQueue
  activeTaskCount : m.activeTaskCount = m'.activeTaskCount
  runningTaskCount : m.runningTaskCount = m'.runningTaskCount
  maxRunningTaskCount : m.maxRunningTaskCount = m'.maxRunningTaskCount
  handledTaskCount : m.handledTaskCount = m'.handledTaskCount
  unblockedTaskCount : m.unblockedTaskCount = m'.unblockedTaskCount
  totalTaskCount : m.totalTaskCount = m'.totalTaskCount

structure Sim (s : SchedulerSt tasks) (p : SchedulerSt tasks') : Prop where
  machine : MachineSim s.machine p.machine
  scheduled : s.scheduled = p.scheduled
  handedOut : s.handedOut = p.handedOut
  descheduled : s.descheduled = p.descheduled

section Calls

variable {m : SchedulingStateMachine tasks} {m' : SchedulingStateMachine tasks'}
  {s : SchedulerSt tasks} {p : SchedulerSt tasks'}

/-- The same task, and corresponding machines. -/
def ReturnSim (a : Option Task × SchedulingStateMachine tasks)
    (b : Option Task × SchedulingStateMachine tasks') : Prop :=
  a.1 = b.1 ∧ MachineSim a.2 b.2

theorem MachineSim.isTaskRunnable (h : MachineSim m m') : m.isTaskRunnable = m'.isTaskRunnable := by
  rw [SchedulingStateMachine.isTaskRunnable, SchedulingStateMachine.isTaskRunnable,
    h.runningTaskCount, h.maxRunningTaskCount]

theorem MachineSim.bufferOrReturn (h : MachineSim m m') (task : Task) (forceBuffering : Bool) :
    ResultSim ReturnSim (m.bufferOrReturn task forceBuffering)
      (m'.bufferOrReturn task forceBuffering) := by
  rw [SchedulingStateMachine.bufferOrReturn, SchedulingStateMachine.bufferOrReturn,
    h.isTaskRunnable, h.unblockedTaskCount, h.runningTaskCount]
  split_ifs
  · refine .same fun count => ?_
    exact .ok ⟨rfl, { h with
      unblockedTaskQueue := congrArg (· ++ [task]) h.unblockedTaskQueue
      runningTaskCount := rfl
      unblockedTaskCount := rfl }⟩
  · refine .same fun count => ?_
    exact .ok ⟨rfl, { h with runningTaskCount := rfl, unblockedTaskCount := rfl }⟩

theorem MachineSim.scheduleNextUnblockedTask (h : MachineSim m m') :
    ResultSim ReturnSim m.scheduleNextUnblockedTask m'.scheduleNextUnblockedTask := by
  rw [SchedulingStateMachine.scheduleNextUnblockedTask,
    SchedulingStateMachine.scheduleNextUnblockedTask, h.isTaskRunnable, h.unblockedTaskQueue,
    h.runningTaskCount, h.unblockedTaskCount]
  cases m'.isTaskRunnable with
  | false => exact .ok ⟨rfl, h⟩
  | true =>
    cases m'.unblockedTaskQueue with
    | nil => exact .ok ⟨rfl, h⟩
    | cons task rest =>
      refine .same fun running => ?_
      refine .same fun count => ?_
      exact .ok ⟨rfl, { h with
        unblockedTaskQueue := rfl, runningTaskCount := rfl, unblockedTaskCount := rfl }⟩

variable [DecidableEq Key] (hsame : ∀ t, (tasks' t).lockContexts = (tasks t).lockContexts)
  (hsim : Sim s p) (hinv : Inv True p)
include hsame hsim hinv

/-- The next task on both sides: its ids are the largest so far. -/
theorem Sim.tryLockUsageQueues (hids : Ids tasks' True (p.scheduled + 1))
    (hbound : p.scheduled + 1 < 2 ^ 32) :
    ResultSim (fun a b => a.1 = b.1 ∧ QueuesSim a.2.1 b.2.1 ∧ a.2.2 = b.2.2)
      (tryLockUsageQueues s.machine.queues s.machine.counts s.scheduled)
      (tryLockUsageQueues p.machine.queues p.machine.counts p.scheduled) := by
  have hnot : ¬ p.Active p.scheduled := fun hactive => absurd hactive.1 (Nat.lt_irrefl _)
  have hempty : contextsOf p p.scheduled = [] := contextsOf_of_not_active hnot
  have hlt : ∀ t, contextsOf p t ≠ [] → t < p.scheduled := fun t ht => (active_of_contextsOf ht).1
  have hself : update p.machine.counts p.scheduled 0 = p.machine.counts := by
    conv_rhs => rw [← update_eq_self p.scheduled p.machine.counts, hinv.counts_eq_zero hnot]
  have hsys := hinv.sys
  rw [← hself] at hsys
  rcases lockContexts_sim (tasks' p.scheduled).lockContexts hsim.machine.queues hsys
    (by rw [hempty]; exact (tasks' p.scheduled).nodup)
    (by rw [hempty]; exact (tasks' p.scheduled).short)
    (fun t _ hctx => hids.2 trivial t _ (hlt t hctx) (Nat.lt_succ_self _))
    (fun t t' _ _ hctx hctx' => hids.1 t t' (Nat.lt_succ_of_lt (hlt t hctx))
      (Nat.lt_succ_of_lt (hlt t' hctx')))
    (fun t _ => hlt t) hbound with ⟨queues₁, queues₁', counts₁, n₁, hrun, hrun', hsim₁⟩
  rw [Unified.tryLockUsageQueues, Unified.tryLockUsageQueues, hsim.machine.counts, hsim.scheduled,
    ← hsame, hrun, hrun', ok_bind, ok_bind]
  by_cases hn : n₁ = 0
  · simp only [hn, if_true, pure_eq_ok]
    exact .ok ⟨rfl, hsim₁, rfl⟩
  · simp only [hn, if_false, pure_eq_ok]
    exact .ok ⟨rfl, hsim₁, rfl⟩

theorem Sim.scheduleOrBufferTask (hids : Ids tasks' True (p.scheduled + 1))
    (forceBuffering : Bool) :
    ResultSim ReturnSim (s.machine.scheduleOrBufferTask s.scheduled forceBuffering)
      (p.machine.scheduleOrBufferTask p.scheduled forceBuffering) := by
  have hm := hsim.machine
  rw [SchedulingStateMachine.scheduleOrBufferTask, SchedulingStateMachine.scheduleOrBufferTask,
    hm.totalTaskCount, hm.activeTaskCount]
  by_cases hbound : p.scheduled + 1 < 2 ^ 32
  · refine .same fun total => ?_
    refine .same fun active => ?_
    refine (hsim.tryLockUsageQueues hsame hinv hids hbound).bind ?_
    rintro ⟨locked, queues, counts⟩ ⟨_, queues', _⟩ ⟨rfl, hqueues, rfl⟩
    have hmachine : MachineSim
        { s.machine with queues, counts, activeTaskCount := active, totalTaskCount := total }
        { p.machine with
          queues := queues', counts, activeTaskCount := active, totalTaskCount := total } :=
      { hm with queues := hqueues, counts := rfl, activeTaskCount := rfl, totalTaskCount := rfl }
    cases locked with
    | true =>
      rw [← hsim.scheduled] at *
      exact hmachine.bufferOrReturn _ forceBuffering
    | false => exact .ok ⟨rfl, hmachine⟩
  · -- Both sides panic on the first counter.
    have htotal : ShortCounter.increment .totalTaskCount p.machine.totalTaskCount =
        .error .totalTaskCount := by
      rw [hinv.total]
      exact if_neg hbound
    rw [htotal]
    exact .error _

theorem Sim.descheduleTask (htask : task ∈ p.handedOut) :
    ResultSim MachineSim (s.machine.descheduleTask task) (p.machine.descheduleTask task) := by
  have hm := hsim.machine
  have hruns := (hinv.runnable_iff task).mp (Or.inl htask)
  rcases unlockContexts_sim hm.queues hinv.sys (contextsOf_of_active hruns.1) hruns.2
    (fun t ht => (active_of_contextsOf ht).1) hinv.bound p.machine.unblockedTaskQueue with
    ⟨queues₁, queues₁', counts₁, unblocked₁, hrun, hrun', hsim₁⟩
  rw [SchedulingStateMachine.descheduleTask, SchedulingStateMachine.descheduleTask,
    hm.runningTaskCount, hm.activeTaskCount, hm.handledTaskCount, hm.counts, hm.unblockedTaskQueue,
    ← hsame, hrun, hrun']
  refine .same fun running => ?_
  refine .same fun active => ?_
  refine .same fun handled => ?_
  exact .ok { hm with
    queues := hsim₁, counts := rfl, unblockedTaskQueue := rfl, activeTaskCount := rfl,
    runningTaskCount := rfl, handledTaskCount := rfl }

/-- A call does the same on both sides. -/
theorem perform_sim {op : Op} (hids : Ids tasks' True (p.scheduled + op.arrivals))
    (hallowed : op.Allowed p) :
    ResultSim (fun a b => a.1 = b.1 ∧ Sim a.2 b.2) (perform s op) (perform p op) := by
  cases op with
  | schedule forceBuffering =>
    refine (hsim.scheduleOrBufferTask hsame hinv hids forceBuffering).bind ?_
    rintro ⟨task, m⟩ ⟨_, m'⟩ ⟨rfl, hm⟩
    exact .ok ⟨rfl, hm, congrArg (· + 1) hsim.scheduled, congrArg (· ++ task.toList) hsim.handedOut,
      hsim.descheduled⟩
  | next =>
    refine hsim.machine.scheduleNextUnblockedTask.bind ?_
    rintro ⟨task, m⟩ ⟨_, m'⟩ ⟨rfl, hm⟩
    exact .ok ⟨rfl, hm, hsim.scheduled, congrArg (· ++ task.toList) hsim.handedOut,
      hsim.descheduled⟩
  | deschedule task =>
    refine (hsim.descheduleTask hsame hinv hallowed).bind ?_
    rintro m m' hm
    exact .ok ⟨rfl, hm, hsim.scheduled, congrArg (·.erase task) hsim.handedOut,
      congrArg (· ++ [task]) hsim.descheduled⟩

end Calls

/-! ## Runs -/

section Runs

variable {limit : ℕ} {s s' : SchedulerSt tasks} {p p' : SchedulerSt tasks'} {a : Op × Option Task}

theorem ids_of_increasing {n : ℕ} (h : IncreasingIds tasks n) : Ids tasks True n := by
  refine ⟨fun i j hi hj heq => ?_, fun _ => h⟩
  rcases Nat.lt_trichotomy i j with hlt | rfl | hgt
  · exact absurd heq (ne_of_lt (h i j hlt hj))
  · rfl
  · exact absurd heq.symm (ne_of_lt (h j i hgt hi))

variable (tasks tasks') in
theorem sim_new : Sim (SchedulerSt.new tasks .fifoQueueing limit)
    (SchedulerSt.new tasks' .priorityQueueing limit) :=
  ⟨⟨fun _ => .mk .free .empty, rfl, rfl, rfl, rfl, rfl, rfl, rfl, rfl⟩, rfl, rfl, rfl⟩

theorem Sim.allowed_iff (hsim : Sim s p) (op : Op) : op.Allowed s ↔ op.Allowed p := by
  cases op with
  | schedule forceBuffering => exact Iff.rfl
  | next => exact Iff.rfl
  | deschedule task =>
    change task ∈ s.handedOut ↔ task ∈ p.handedOut
    rw [hsim.handedOut]

theorem Sim.active_iff (hsim : Sim s p) (t : Task) : s.Active t ↔ p.Active t := by
  rw [SchedulerSt.Active, hsim.scheduled, hsim.descheduled]
  rfl

theorem Sim.runnable_iff (hsim : Sim s p) (t : Task) : s.Runnable t ↔ p.Runnable t := by
  rw [SchedulerSt.Runnable, hsim.handedOut, hsim.machine.unblockedTaskQueue]
  rfl

variable [DecidableEq Key] (hsame : ∀ t, (tasks' t).lockContexts = (tasks t).lockContexts)
include hsame

/-- A step of the FIFO machine is one of the priority machine. -/
theorem Sim.step (hsim : Sim s p) (hinv : Inv True p) (hids : IncreasingIds tasks' s'.scheduled)
    (hstep : (sys tasks .fifoQueueing limit).Step s a s') :
    ∃ p', (sys tasks' .priorityQueueing limit).Step p a p' ∧ Sim s' p' := by
  obtain ⟨op, task⟩ := a
  obtain ⟨hallowed, hperform⟩ := hstep
  have hallowed' := (hsim.allowed_iff op).mp hallowed
  rw [(perform_cases hperform).1, hsim.scheduled] at hids
  have hresult := perform_sim hsame hsim hinv (ids_of_increasing hids) hallowed'
  rw [show perform s op = .ok (task, s') from hperform] at hresult
  obtain ⟨⟨_, p'⟩, hp, rfl, hsim'⟩ := hresult.of_ok_left
  exact ⟨p', ⟨hallowed', hp⟩, hsim'⟩

/-- A step of the priority machine is one of the FIFO machine. -/
theorem Sim.step_back (hsim : Sim s p) (hinv : Inv True p)
    (hids : IncreasingIds tasks' p'.scheduled)
    (hstep : (sys tasks' .priorityQueueing limit).Step p a p') :
    ∃ s', (sys tasks .fifoQueueing limit).Step s a s' ∧ Sim s' p' := by
  obtain ⟨op, task⟩ := a
  obtain ⟨hallowed, hperform⟩ := hstep
  rw [(perform_cases hperform).1] at hids
  have hresult := perform_sim hsame hsim hinv (ids_of_increasing hids) hallowed
  rw [show perform p op = .ok (task, p') from hperform] at hresult
  obtain ⟨⟨_, s'⟩, hs, rfl, hsim'⟩ := hresult.of_ok_right
  exact ⟨s', ⟨(hsim.allowed_iff op).mpr hallowed, hs⟩, hsim'⟩

variable {tr : List (Op × Option Task)}

theorem sim_run (hrun : (sys tasks .fifoQueueing limit).Run (.new tasks .fifoQueueing limit) tr s)
    (hids : IncreasingIds tasks' s.scheduled) :
    ∃ p, (sys tasks' .priorityQueueing limit).Run
      (.new tasks' .priorityQueueing limit) tr p ∧ Sim s p := by
  induction hrun with
  | nil => exact ⟨_, Lts.Run.nil, sim_new tasks tasks'⟩
  | @snoc tr t u a _ hstep ih =>
    have hids' : IncreasingIds tasks' t.scheduled :=
      ((ids_of_increasing hids).mono (step_mono hstep).1).2 trivial
    obtain ⟨p, hp, hsim⟩ := ih hids'
    have hinv : Inv True p := by
      refine inv_of_reachable ⟨_, tr, rfl, hp⟩ (ids_of_increasing ?_)
      rwa [← hsim.scheduled]
    obtain ⟨p', hstep', hsim'⟩ := hsim.step hsame hinv hids hstep
    exact ⟨p', hp.snoc hstep', hsim'⟩

theorem sim_run_back
    (hrun : (sys tasks' .priorityQueueing limit).Run (.new tasks' .priorityQueueing limit) tr p)
    (hids : IncreasingIds tasks' p.scheduled) :
    ∃ s, (sys tasks .fifoQueueing limit).Run (.new tasks .fifoQueueing limit) tr s ∧ Sim s p := by
  induction hrun with
  | nil => exact ⟨_, Lts.Run.nil, sim_new tasks tasks'⟩
  | @snoc tr t u a hrun hstep ih =>
    have hids' : IncreasingIds tasks' t.scheduled :=
      ((ids_of_increasing hids).mono (step_mono hstep).1).2 trivial
    obtain ⟨s, hs, hsim⟩ := ih hids'
    have hinv : Inv True t := inv_of_reachable ⟨_, tr, rfl, hrun⟩ (ids_of_increasing hids')
    obtain ⟨s', hstep', hsim'⟩ := hsim.step_back hsame hinv hids hstep
    exact ⟨s', hs.snoc hstep', hsim'⟩

end Runs

end Salsa.Unified
