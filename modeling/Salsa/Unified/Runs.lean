import Salsa.Unified.Invariant

/-!
# Salsa.Unified.Runs — the priority scheduler under any calls

The invariant between calls, and what one call does to it. A call panics only when
`total_task_count` or `unblocked_task_count` overflows. `Keeps` also says that the queues are
orderly when those are late who were not runnable before the call, which is what makes a task
run in its turn.

`strict` runs are those where the ids increase in the order of arrival: every holder
then comes before the clashing usages that are blocked, runnable or not.
-/

namespace Salsa.Unified

open LockQueue List SchedulingStateMachine SchedulerSt Function ShortCounter

variable {Key Id : Type} [LinearOrder Id] {tasks : Task → TaskInner Key Id}

def contextsOf (s : SchedulerSt tasks) (task : Task) : List (LockContext Key) :=
  if task < s.scheduled ∧ task ∉ s.descheduled then (tasks task).lockContexts else []

variable {s s' : SchedulerSt tasks} {strict : Prop} {limit : ℕ} {t : Task}
  {queues : Queues tasks} {counts : Counts}

theorem contextsOf_of_active (h : s.Active t) :
    contextsOf s t = (tasks t).lockContexts :=
  if_pos h

theorem contextsOf_of_not_active (h : ¬ s.Active t) : contextsOf s t = [] := if_neg h

theorem active_of_contextsOf (h : contextsOf s t ≠ []) : s.Active t := by
  by_contra hnot
  exact h (contextsOf_of_not_active hnot)

structure Inv (strict : Prop) (s : SchedulerSt tasks) : Prop where
  sys : SysInv (contextsOf s) (fun t => strict ∨ s.machine.counts t ≠ 0) s.machine.queues
    s.machine.counts
  runnable_iff : ∀ t, s.Runnable t ↔ s.Active t ∧ s.machine.counts t = 0
  nodup : (s.handedOut ++ s.machine.unblockedTaskQueue).Nodup
  descheduled_nodup : s.descheduled.Nodup
  descheduled_lt : ∀ t ∈ s.descheduled, t < s.scheduled
  total : s.machine.totalTaskCount = s.scheduled
  active : s.machine.activeTaskCount + s.descheduled.length = s.scheduled
  running : s.machine.runningTaskCount = s.handedOut.length
  handled : s.machine.handledTaskCount = s.descheduled.length
  /-- A task is counted when it is buffered and when it is taken out of the buffer. -/
  unblocked : s.machine.unblockedTaskCount ≤
    2 * (s.handedOut.length + s.descheduled.length) + s.machine.unblockedTaskQueue.length
  bound : s.scheduled < 2 ^ 32

variable (tasks) in
/-- The ids of the first `n` tasks, for strict runs in the order of arrival. -/
def Ids (strict : Prop) (n : ℕ) : Prop := DistinctIds tasks n ∧ (strict → IncreasingIds tasks n)

/-- The invariant after a call, with the turn of those who were not runnable before. -/
structure Keeps (strict : Prop) (s s' : SchedulerSt tasks) : Prop where
  inv : Inv strict s'
  turn : SysInv (contextsOf s') (fun t => strict ∨ ¬ s.Runnable t) s'.machine.queues
    s'.machine.counts

theorem SysInv.mono {contexts : Task → List (LockContext Key)} {late late' : Task → Prop}
    (h : SysInv contexts late queues counts)
    (hlate : ∀ t, contexts t ≠ [] → late' t → late t) : SysInv contexts late' queues counts := by
  refine ⟨h.nodup, h.short, fun key => ?_, h.counts_eq⟩
  obtain ⟨current, blocked, hq, hinv, hmem⟩ := h.queue key
  refine ⟨current, blocked, hq, ⟨hinv.filled, hinv.orderly.mono ?_⟩, hmem⟩
  intro x hx
  exact hlate x.2 (ne_nil_of_mem ((hmem x).mp (Or.inl hx)))

theorem length_le_of_lt {l : List ℕ} {n : ℕ} (hnodup : l.Nodup) (hlt : ∀ t ∈ l, t < n) :
    l.length ≤ n := by
  have hsub : l ⊆ range n := fun t ht => mem_range.mpr (hlt t ht)
  have hle := (subperm_of_subset hnodup hsub).length_le
  rwa [length_range] at hle

section Facts

variable (h : Inv strict s)
include h

theorem Inv.runnable_lt (ht : s.Runnable t) : t < s.scheduled := ((h.runnable_iff t).mp ht).1.1

/-- Tasks that are handed out, unblocked or descheduled are no more than those scheduled. -/
theorem Inv.runnable_length :
    s.handedOut.length + s.machine.unblockedTaskQueue.length + s.descheduled.length ≤
      s.scheduled := by
  rw [← length_append, ← length_append]
  refine length_le_of_lt (nodup_append.mpr ⟨h.nodup, h.descheduled_nodup, ?_⟩) fun t ht => ?_
  · intro a ha b hb heq
    subst heq
    exact ((h.runnable_iff a).mp (mem_append.mp ha)).1.2 hb
  · rcases mem_append.mp ht with ht | ht
    · exact h.runnable_lt (mem_append.mp ht)
    · exact h.descheduled_lt t ht

/-- The counter of a task that is not active is zero. -/
theorem Inv.counts_eq_zero (ht : ¬ s.Active t) : s.machine.counts t = 0 := by
  rw [h.sys.counts_eq, contextsOf_of_not_active ht]
  rfl

/-- Among the active tasks the late ones are those that are not runnable. -/
theorem Inv.late_iff (ht : s.Active t) : ¬ s.Runnable t ↔ s.machine.counts t ≠ 0 := by
  rw [h.runnable_iff, not_and]
  exact ⟨fun hnot => hnot ht, fun hne _ => hne⟩

/-! ## The state after a call -/

variable {unblockedTaskQueue handedOut : List Task} {runningTaskCount unblockedTaskCount : ℕ}

/-- The next task becomes active and the others stay as they are. -/
theorem active_schedule (t : Task) :
    t < s.scheduled + 1 ∧ t ∉ s.descheduled ↔ s.Active t ∨ t = s.scheduled := by
  have hnot : s.scheduled ∉ s.descheduled := fun hmem =>
    absurd (h.descheduled_lt _ hmem) (Nat.lt_irrefl _)
  rw [Active, Nat.lt_succ_iff_lt_or_eq, or_and_right]
  exact or_congr_right (and_iff_left_of_imp fun heq => heq ▸ hnot)

/-- The state after a task was scheduled: its locks are `queues` and `counts`, and it is
runnable if it joined the tasks handed out or the unblocked queue. -/
theorem keeps_schedule {locked : Bool}
    (hsys : SysInv (update (contextsOf s) s.scheduled (tasks s.scheduled).lockContexts)
      (fun t => strict ∨ t = s.scheduled ∨ s.machine.counts t ≠ 0) queues counts)
    (hlocked : locked = true ↔ counts s.scheduled = 0)
    (hcounts : ∀ t, t ≠ s.scheduled → (counts t ≠ 0 ↔ s.machine.counts t ≠ 0))
    (hrunnable : (handedOut ++ unblockedTaskQueue).Perm
      (s.handedOut ++ s.machine.unblockedTaskQueue ++ if locked then [s.scheduled] else []))
    (hrunning : runningTaskCount = handedOut.length)
    (hcount : unblockedTaskCount ≤
      2 * (handedOut.length + s.descheduled.length) + unblockedTaskQueue.length)
    (hbound : s.scheduled + 1 < 2 ^ 32) :
    Keeps strict s { s with
      machine := { s.machine with
        queues, counts, unblockedTaskQueue, runningTaskCount, unblockedTaskCount
        activeTaskCount := s.machine.activeTaskCount + 1
        totalTaskCount := s.machine.totalTaskCount + 1 }
      scheduled := s.scheduled + 1, handedOut } := by
  have hnew : ¬ s.Runnable s.scheduled := fun hr => absurd (h.runnable_lt hr) (Nat.lt_irrefl _)
  have hact := active_schedule h
  have hctx : (fun t => if t < s.scheduled + 1 ∧ t ∉ s.descheduled then (tasks t).lockContexts
      else []) = update (contextsOf s) s.scheduled (tasks s.scheduled).lockContexts := by
    funext t
    by_cases ht : t = s.scheduled
    · subst ht
      rw [update_self]
      exact if_pos ((hact _).mpr (Or.inr rfl))
    · rw [update_of_ne ht]
      exact if_congr ((hact t).trans (or_iff_left ht)) rfl rfl
  rw [← hctx] at hsys
  refine ⟨⟨hsys.mono fun t _ => ?_, fun t => ?_, ?_, h.descheduled_nodup, fun t ht => ?_, ?_, ?_,
    hrunning, h.handled, hcount, hbound⟩, hsys.mono fun t ht => ?_⟩
  · -- No task has become late but the new one.
    rintro (hs | hne)
    · exact Or.inl hs
    · by_cases ht : t = s.scheduled
      · exact Or.inr (Or.inl ht)
      · exact Or.inr (Or.inr ((hcounts t ht).mp hne))
  · have hmem : t ∈ handedOut ∨ t ∈ unblockedTaskQueue ↔
        s.Runnable t ∨ locked = true ∧ t = s.scheduled := by
      have hperm := hrunnable.mem_iff (a := t)
      cases locked <;> simpa [Runnable, or_assoc] using hperm
    refine hmem.trans (Iff.trans ?_ (and_congr_left' (hact t).symm))
    rw [h.runnable_iff]
    by_cases ht : t = s.scheduled
    · subst ht
      have hnot : ¬ s.Active s.scheduled := fun hactive => absurd hactive.1 (Nat.lt_irrefl _)
      simp [hnot, hlocked]
    · have hzero : counts t = 0 ↔ s.machine.counts t = 0 := not_iff_not.mp (hcounts t ht)
      simp [ht, hzero]
  · rw [hrunnable.nodup_iff, nodup_append]
    refine ⟨h.nodup, by cases locked <;> simp, ?_⟩
    intro a ha b hb heq
    subst heq
    cases locked with
    | false => simp at hb
    | true =>
      rw [if_pos rfl, mem_singleton] at hb
      subst hb
      exact hnew (mem_append.mp ha)
  · exact Nat.lt_succ_of_lt (h.descheduled_lt t ht)
  · exact congrArg (· + 1) h.total
  · have hold := h.active
    simp only
    omega
  · rintro (hs | hne)
    · exact Or.inl hs
    · rcases (hact t).mp (ite_ne_right_iff.mp ht).1 with hta | heq
      · exact Or.inr (Or.inr ((h.late_iff hta).mp hne))
      · exact Or.inr (Or.inl heq)

/-- A call that changes neither the locks nor who is runnable. -/
theorem keeps_of_runnable
    (hrunnable : handedOut ++ unblockedTaskQueue = s.handedOut ++ s.machine.unblockedTaskQueue)
    (hrunning : runningTaskCount = handedOut.length)
    (hcount : unblockedTaskCount ≤
      2 * (handedOut.length + s.descheduled.length) + unblockedTaskQueue.length) :
    Keeps strict s { s with
      machine := { s.machine with unblockedTaskQueue, runningTaskCount, unblockedTaskCount }
      handedOut } := by
  refine ⟨⟨h.sys, fun t => ?_, hrunnable ▸ h.nodup, h.descheduled_nodup, h.descheduled_lt, h.total,
    h.active, hrunning, h.handled, hcount, h.bound⟩, h.sys.mono fun t ht => ?_⟩
  · rw [Runnable, ← mem_append, hrunnable, mem_append]
    exact h.runnable_iff t
  · rintro (hs | hne)
    · exact Or.inl hs
    · exact Or.inr ((h.late_iff (active_of_contextsOf ht)).mp hne)

/-- The state after a task was descheduled: the tasks `newly` became runnable. -/
theorem keeps_deschedule {task : Task} {newly : List Task} (htask : task ∈ s.handedOut)
    (hsys : SysInv (update (contextsOf s) task [])
      (fun t => strict ∨ s.machine.counts t ≠ 0) queues counts)
    (hnodup : newly.Nodup) (hnewly : ∀ t, t ∈ newly ↔ s.machine.counts t ≠ 0 ∧ counts t = 0)
    (hle : ∀ t, counts t ≤ s.machine.counts t) (hdone : (s.descheduled ++ [task]).Nodup)
    (hlt : ∀ t ∈ s.descheduled ++ [task], t < s.scheduled) (hpos : 0 < s.machine.activeTaskCount) :
    Keeps strict s { s with
      machine := { s.machine with
        queues, counts, unblockedTaskQueue := s.machine.unblockedTaskQueue ++ newly
        runningTaskCount := s.machine.runningTaskCount - 1
        activeTaskCount := s.machine.activeTaskCount - 1
        handledTaskCount := s.machine.handledTaskCount + 1 }
      handedOut := s.handedOut.erase task
      descheduled := s.descheduled ++ [task] } := by
  have hruns := (h.runnable_iff task).mp (Or.inl htask)
  have hnodup' := nodup_append.mp h.nodup
  have hlength := length_erase_of_mem htask
  have hhanded := length_pos_of_mem htask
  have hact : ∀ t, t < s.scheduled ∧ t ∉ s.descheduled ++ [task] ↔ s.Active t ∧ t ≠ task := by
    intro t
    rw [mem_append, mem_singleton, not_or, ← and_assoc]
    rfl
  have hctx : (fun t => if t < s.scheduled ∧ t ∉ s.descheduled ++ [task] then
      (tasks t).lockContexts else []) = update (contextsOf s) task [] := by
    funext t
    by_cases ht : t = task
    · subst ht
      rw [update_self]
      exact if_neg fun hactive => ((hact t).mp hactive).2 rfl
    · rw [update_of_ne ht]
      exact if_congr ((hact t).trans (and_iff_left ht)) rfl rfl
  rw [← hctx] at hsys
  -- A task with a counter above zero is active.
  have hlate : ∀ t, s.machine.counts t ≠ 0 → s.Active t := by
    intro t ht
    by_contra hnot
    exact ht (h.counts_eq_zero hnot)
  refine ⟨⟨hsys.mono fun t _ => ?_, fun t => ?_, ?_, hdone, hlt, h.total, ?_, ?_, ?_, ?_, h.bound⟩,
    hsys.mono fun t ht => ?_⟩
  · -- Unlocking only lowers counters, so nobody becomes late.
    rintro (hs | hne)
    · exact Or.inl hs
    · exact Or.inr fun hzero => hne (Nat.le_zero.mp (hzero ▸ hle t))
  · have hmem : t ∈ s.handedOut.erase task ∨ t ∈ s.machine.unblockedTaskQueue ++ newly ↔
        (s.Runnable t ∧ t ≠ task) ∨ t ∈ newly := by
      rw [hnodup'.1.mem_erase_iff, and_comm, mem_append, ← or_assoc]
      refine or_congr_left ?_
      rw [Runnable, or_and_right]
      refine or_congr_right (iff_self_and.mpr fun ht heq => ?_)
      exact hnodup'.2.2 task htask task (heq ▸ ht) rfl
    refine hmem.trans (Iff.trans ?_ (and_congr_left' (hact t).symm))
    rw [hnewly]
    constructor
    · rintro (⟨ht, hne⟩ | ⟨hcount, hzero⟩)
      · obtain ⟨hta, htz⟩ := (h.runnable_iff t).mp ht
        exact ⟨⟨hta, hne⟩, Nat.le_zero.mp (htz ▸ hle t)⟩
      · refine ⟨⟨hlate t hcount, ?_⟩, hzero⟩
        rintro rfl
        exact hcount hruns.2
    · -- A counter that is zero now was zero before or has just reached it.
      rintro ⟨⟨hta, hne⟩, hzero⟩
      by_cases hcount : s.machine.counts t = 0
      · exact Or.inl ⟨(h.runnable_iff t).mpr ⟨hta, hcount⟩, hne⟩
      · exact Or.inr ⟨hcount, hzero⟩
  · rw [← append_assoc, nodup_append]
    refine ⟨?_, hnodup, ?_⟩
    · exact h.nodup.sublist (erase_sublist.append_right _)
    · -- The newly runnable tasks were not runnable before.
      intro a ha b hb heq
      subst heq
      have hra : s.Runnable a := (mem_append.mp ha).imp_left mem_of_mem_erase
      exact ((hnewly a).mp hb).1 ((h.runnable_iff a).mp hra).2
  · have hold := h.active
    simp only [length_append, length_singleton]
    omega
  · rw [hlength, h.running]
  · rw [length_append, length_singleton, h.handled]
  · have hunblocked := h.unblocked
    simp only [length_append, length_singleton, hlength]
    omega
  · rintro (hs | hne)
    · exact Or.inl hs
    · have hta := ((hact t).mp (ite_ne_right_iff.mp ht).1).1
      exact Or.inr ((h.late_iff hta).mp hne)

end Facts

theorem Ids.mono {m n : ℕ} (h : Ids tasks strict n) (hmn : m ≤ n) : Ids tasks strict m := by
  refine ⟨fun i j hi hj => h.1 i j (hi.trans_le hmn) (hj.trans_le hmn), fun hs i j hij hj => ?_⟩
  exact h.2 hs i j hij (hj.trans_le hmn)

theorem ids_of_distinct {n : ℕ} (h : DistinctIds tasks n) : Ids tasks False n := ⟨h, False.elim⟩

variable (tasks) in
theorem inv_new : Inv strict (SchedulerSt.new tasks .priorityQueueing limit) := by
  have hctx : ∀ t, contextsOf (SchedulerSt.new tasks .priorityQueueing limit) t = [] := by
    intro t
    exact contextsOf_of_not_active fun hactive => absurd hactive.1 (Nat.not_lt_zero t)
  refine ⟨⟨?_, ?_, ?_, ?_⟩, ?_, nodup_nil, nodup_nil, forall_mem_nil _,
    rfl, rfl, rfl, rfl,
    le_rfl, Nat.two_pow_pos 32⟩
  · intro t
    exact nodup_nil
  · intro t
    exact Nat.two_pow_pos 32
  · intro key
    refine ⟨none, .empty, rfl, queueInv_empty, fun x => ?_⟩
    rw [hctx]
    simp
  · intro t
    rfl
  · intro t
    constructor
    · rintro (ht | ht) <;> exact absurd ht not_mem_nil
    · rintro ⟨hactive, -⟩
      exact absurd hactive.1 (Nat.not_lt_zero t)

/-! ## The calls -/

section Calls

variable [DecidableEq Key] (h : Inv strict s)
include h

/-- `try_lock_usage_queues` for the next task. -/
theorem tryLockUsageQueues_spec (hids : Ids tasks strict (s.scheduled + 1)) :
    ∃ locked queues' counts',
      tryLockUsageQueues s.machine.queues s.machine.counts s.scheduled =
        .ok (locked, queues', counts') ∧
      SysInv (update (contextsOf s) s.scheduled (tasks s.scheduled).lockContexts)
        (fun t => strict ∨ t = s.scheduled ∨ s.machine.counts t ≠ 0) queues' counts' ∧
      (locked = true ↔ counts' s.scheduled = 0) ∧
      ∀ t, t ≠ s.scheduled → (counts' t ≠ 0 ↔ s.machine.counts t ≠ 0) := by
  have hnot : ¬ s.Active s.scheduled := fun hactive => absurd hactive.1 (Nat.lt_irrefl _)
  have hempty : contextsOf s s.scheduled = [] := contextsOf_of_not_active hnot
  have hzero : s.machine.counts s.scheduled = 0 := h.counts_eq_zero hnot
  have hlt : ∀ t, contextsOf s t ≠ [] → t < s.scheduled := fun t ht => (active_of_contextsOf ht).1
  have hself : update s.machine.counts s.scheduled 0 = s.machine.counts := by
    conv_rhs => rw [← update_eq_self s.scheduled s.machine.counts, hzero]
  -- The new task counts as late; it uses no queue yet.
  have hstart : SysInv (contextsOf s) (fun t => strict ∨ t = s.scheduled ∨ s.machine.counts t ≠ 0)
      s.machine.queues (update s.machine.counts s.scheduled 0) := by
    rw [hself]
    refine h.sys.mono fun t ht => ?_
    rintro (hs | rfl | hne)
    · exact Or.inl hs
    · exact absurd hempty ht
    · exact Or.inr hne
  have hne : ∀ t, t ≠ s.scheduled → contextsOf s t ≠ [] →
      (tasks t).taskId ≠ (tasks s.scheduled).taskId := by
    intro t ht hctx heq
    exact ht (hids.1 t _ (Nat.lt_succ_of_lt (hlt t hctx)) (Nat.lt_succ_self _) heq)
  have hinj : ∀ t t', t ≠ s.scheduled → t' ≠ s.scheduled → contextsOf s t ≠ [] →
      contextsOf s t' ≠ [] → (tasks t).taskId = (tasks t').taskId → t = t' := by
    intro t t' _ _ hctx hctx' heq
    exact hids.1 t t' (Nat.lt_succ_of_lt (hlt t hctx)) (Nat.lt_succ_of_lt (hlt t' hctx')) heq
  have hlate : ∀ t, t ≠ s.scheduled → contextsOf s t ≠ [] →
      (tasks s.scheduled).taskId < (tasks t).taskId →
      (strict ∨ t = s.scheduled ∨ s.machine.counts t ≠ 0 ↔ s.machine.counts t ≠ 0) := by
    intro t ht hctx hgt
    constructor
    · rintro (hs | heq | hne)
      · exact absurd (hids.2 hs t _ (hlt t hctx) (Nat.lt_succ_self _)) (not_lt_of_gt hgt)
      · exact absurd heq ht
      · exact hne
    · exact fun hne => Or.inr (Or.inr hne)
  rcases lockContexts_spec hstart hne hinj hlate (tasks s.scheduled).lockContexts
    (by rw [hempty]; exact (tasks s.scheduled).nodup)
    (by rw [hempty]; exact (tasks s.scheduled).short) with
    ⟨queues', counts', n, hrun, hinv, hcounts, htask⟩
  rw [hempty, nil_append] at hinv
  rw [hzero] at htask
  by_cases hn : n = 0
  · subst hn
    have hself' : update counts' s.scheduled 0 = counts' := by
      conv_rhs => rw [← update_eq_self s.scheduled counts', htask]
    refine ⟨true, queues', counts', ?_, ?_, ?_, fun t _ => hcounts t⟩
    · rw [tryLockUsageQueues, hrun]
      rfl
    · rwa [hself'] at hinv
    · simp [htask]
  · refine ⟨false, queues', update counts' s.scheduled n, ?_, hinv, ?_, fun t ht => ?_⟩
    · rw [tryLockUsageQueues, hrun, ok_bind]
      simp only [hn, if_false, pure_eq_ok]
    · simp [hn]
    · rw [update_of_ne ht]
      exact hcounts t

/-- What a call may do: keep the invariant, or overflow one of two counters of the session
when very many tasks have been scheduled. -/
def CallSpec (strict : Prop) (s : SchedulerSt tasks) (op : Op) : Prop :=
  (2 ^ 31 ≤ s.scheduled ∧
    (perform s op = .error .totalTaskCount ∨ perform s op = .error .unblockedTaskCount)) ∨
  ∃ task s', perform s op = .ok (task, s') ∧ Keeps strict s s'

/-- `schedule_or_buffer_task` for the next task. -/
theorem schedule_spec (hids : Ids tasks strict (s.scheduled + 1))
    (forceBuffering : Bool) : CallSpec strict s (.schedule forceBuffering) := by
  -- `total_task_count` is increased first, so no other counter can overflow before it does.
  by_cases hbound : s.scheduled + 1 < 2 ^ 32
  swap
  · refine Or.inl ⟨by omega, Or.inl ?_⟩
    have htotal : increment .totalTaskCount s.machine.totalTaskCount = .error .totalTaskCount := by
      rw [h.total]
      exact if_neg hbound
    rw [perform, scheduleOrBufferTask, htotal]
    rfl
  have hactive := h.active
  have hlength := h.runnable_length
  have hunblocked := h.unblocked
  have htotal : increment .totalTaskCount s.machine.totalTaskCount =
      .ok (s.machine.totalTaskCount + 1) := increment_of_lt (by rw [h.total]; exact hbound)
  have hactive' : increment .counter s.machine.activeTaskCount =
      .ok (s.machine.activeTaskCount + 1) := increment_of_lt (by omega)
  obtain ⟨locked, queues', counts', hrun, hsys, hlocked, hcounts⟩ := tryLockUsageQueues_spec h hids
  -- The machine when `and_then` is reached.
  generalize hmachine : ({ s.machine with
    queues := queues'
    counts := counts'
    activeTaskCount := s.machine.activeTaskCount + 1
    totalTaskCount := s.machine.totalTaskCount + 1 } : SchedulingStateMachine tasks) = machine
  have hcall : s.machine.scheduleOrBufferTask s.scheduled forceBuffering =
      if locked then machine.bufferOrReturn s.scheduled forceBuffering
        else .ok (none, machine) := by
    rw [scheduleOrBufferTask, htotal, hactive', hrun, ← hmachine]
    rfl
  have hrunning : machine.runningTaskCount = s.handedOut.length := by
    rw [← hmachine]
    exact h.running
  have hmachineCount : machine.unblockedTaskCount = s.machine.unblockedTaskCount := by
    rw [← hmachine]
  rw [CallSpec, perform, hcall]
  cases locked with
  | false =>
    refine Or.inr ⟨none, _, rfl, ?_⟩
    subst hmachine
    exact keeps_schedule h hsys hlocked hcounts (by simp) (by simp [h.running])
      (by simpa using hunblocked) hbound
  | true =>
    simp only [if_true, bufferOrReturn]
    cases hbuffer : !machine.isTaskRunnable || forceBuffering with
    | true =>
      by_cases hcount : machine.unblockedTaskCount + 1 < 2 ^ 32
      · refine Or.inr ?_
        simp only [if_true, increment_of_lt hcount]
        refine ⟨none, _, rfl, ?_⟩
        subst hmachine
        refine keeps_schedule h hsys hlocked hcounts (by simp) (by simp [h.running]) ?_ hbound
        simp only [Option.toList_none, append_nil, length_append, length_singleton]
        omega
      · refine Or.inl ⟨by omega, Or.inr ?_⟩
        simp only [if_true, increment, hcount, if_false]
        rfl
    | false =>
      refine Or.inr ?_
      have hcount : machine.runningTaskCount + 1 < 2 ^ 32 := by omega
      simp only [Bool.false_eq_true, if_false, increment_of_lt hcount]
      refine ⟨some s.scheduled, _, rfl, ?_⟩
      subst hmachine
      refine keeps_schedule h hsys hlocked hcounts ?_ (by simp [h.running]) ?_ hbound
      · simp only [Option.toList_some, if_true, append_assoc]
        exact perm_append_comm.append_left _
      · simp only [Option.toList_some, length_append, length_singleton]
        omega

/-- `schedule_next_unblocked_task`. -/
theorem next_spec : CallSpec strict s .next := by
  have hsame : Keeps strict s { s with handedOut := s.handedOut ++ (none : Option Task).toList } :=
    keeps_of_runnable h (by simp) (by simp [h.running]) (by simpa using h.unblocked)
  rw [CallSpec, perform, scheduleNextUnblockedTask]
  cases hrunnable : s.machine.isTaskRunnable with
  | false => exact Or.inr ⟨none, _, rfl, hsame⟩
  | true =>
    cases hqueue : s.machine.unblockedTaskQueue with
    | nil => exact Or.inr ⟨none, _, rfl, hsame⟩
    | cons task rest =>
      have hlength := h.runnable_length
      have hbound := h.bound
      have hunblocked := h.unblocked
      rw [hqueue, length_cons] at hlength hunblocked
      have hhanded := h.running
      have hrunning : s.machine.runningTaskCount + 1 < 2 ^ 32 := by omega
      simp only [if_true, increment_of_lt hrunning, ok_bind]
      by_cases hcount : s.machine.unblockedTaskCount + 1 < 2 ^ 32
      · refine Or.inr ?_
        rw [increment_of_lt hcount]
        refine ⟨some task, _, rfl, ?_⟩
        refine keeps_of_runnable h (by simp [hqueue]) (by simp [h.running]) ?_
        simp only [Option.toList_some, length_append, length_singleton]
        omega
      · refine Or.inl ⟨by omega, Or.inr ?_⟩
        rw [increment, if_neg hcount]
        rfl

/-- `deschedule_task`. -/
theorem deschedule_spec {task : Task} (htask : task ∈ s.handedOut) :
    CallSpec strict s (.deschedule task) := by
  have hruns := (h.runnable_iff task).mp (Or.inl htask)
  rcases unlockContexts_spec h.sys (contextsOf_of_active hruns.1) hruns.2
    s.machine.unblockedTaskQueue with
    ⟨queues', counts', newly, hrun, hsys, hnodup, hnewly, hle, hzero⟩
  have hdone : (s.descheduled ++ [task]).Nodup := by
    rw [nodup_append]
    refine ⟨h.descheduled_nodup, by simp, ?_⟩
    intro a ha b hb heq
    rw [mem_singleton.mp hb] at heq
    exact hruns.1.2 (heq ▸ ha)
  have hdoneLt : ∀ t ∈ s.descheduled ++ [task], t < s.scheduled :=
    forall_mem_append.mpr ⟨h.descheduled_lt, forall_mem_singleton.mpr hruns.1.1⟩
  have hlength := length_le_of_lt hdone hdoneLt
  rw [length_append, length_singleton] at hlength
  have hactive := h.active
  have hhandled := h.handled
  have hbound := h.bound
  -- The task is among those running, so no counter underflows.
  have hpos : 0 < s.machine.runningTaskCount := by
    rw [h.running]
    exact length_pos_of_mem htask
  refine Or.inr ⟨none, _, ?_, keeps_deschedule h htask hsys hnodup hnewly hle hdone hdoneLt
    (by omega)⟩
  rw [perform, descheduleTask, decrement_of_pos hpos, decrement_of_pos (by omega),
    increment_of_lt (by omega), hrun]
  rfl

/-- Every call that keeps to the rules. -/
theorem perform_spec {op : Op} (hallowed : op.Allowed s)
    (hids : Ids tasks strict (s.scheduled + op.arrivals)) : CallSpec strict s op := by
  cases op with
  | schedule forceBuffering => exact schedule_spec h hids forceBuffering
  | next => exact next_spec h
  | deschedule task => exact deschedule_spec h hallowed

end Calls

/-! ## Runs -/

variable [DecidableEq Key] {a : Op × Option Task}

theorem keeps_of_step (h : Inv strict s) (hids : Ids tasks strict s'.scheduled)
    (hstep : (sys tasks .priorityQueueing limit).Step s a s') : Keeps strict s s' := by
  obtain ⟨hallowed, hperform⟩ := hstep
  rw [(perform_cases hperform).1] at hids
  rcases perform_spec h hallowed hids with ⟨-, herr | herr⟩ | ⟨task, t, hok, hkeeps⟩
  · rw [hperform] at herr
    cases herr
  · rw [hperform] at herr
    cases herr
  · rw [hperform] at hok
    cases hok
    exact hkeeps

theorem inv_of_reachable (h : (sys tasks .priorityQueueing limit).Reachable s)
    (hids : Ids tasks strict s.scheduled) : Inv strict s := by
  refine h.inv (fun s => Ids tasks strict s.scheduled → Inv strict s) ?_ ?_ hids
  · rintro _ rfl _
    exact inv_new tasks
  · intro s a s' hstep ih hids
    exact (keeps_of_step (ih (hids.mono (step_mono hstep).1)) hids hstep).inv

end Salsa.Unified
