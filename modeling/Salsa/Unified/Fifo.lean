import Salsa.Unified.Sim

/-!
# Salsa.Unified.Fifo — what the FIFO scheduler guarantees

The FIFO machine does not look at ids, so it runs like a priority machine whose ids
are the numbers of arrival (`exists_sim`), and the invariant of strict runs says who
is runnable.
-/

namespace Salsa.Unified

open List

variable {Key Id : Type} [DecidableEq Key] [LinearOrder Id] {tasks : Task → TaskInner Key Id}

/-- The tasks with their numbers of arrival as ids. -/
def byArrival (tasks : Task → TaskInner Key Id) (task : Task) : TaskInner Key ℕ :=
  { tasks task with taskId := task }

omit [DecidableEq Key] [LinearOrder Id] in
variable (tasks) in
theorem increasing_byArrival (n : ℕ) : IncreasingIds (byArrival tasks) n := fun _ _ hlt _ => hlt

variable {capability : Capability} {limit : ℕ} {s s' : SchedulerSt tasks} {t e : Task}
  {a : Op × Option Task}

section States

variable (hreach : (sys tasks .fifoQueueing limit).Reachable s)
include hreach

theorem exists_sim : ∃ p : SchedulerSt (byArrival tasks), Sim s p ∧ Inv True p := by
  obtain ⟨_, tr, rfl, hrun⟩ := hreach
  have hsame : ∀ t, (byArrival tasks t).lockContexts = (tasks t).lockContexts := fun _ => rfl
  obtain ⟨p, hp, hsim⟩ := sim_run hsame hrun (increasing_byArrival tasks _)
  exact ⟨p, hsim, inv_of_reachable ⟨_, tr, rfl, hp⟩
    (ids_of_increasing (increasing_byArrival tasks _))⟩

/-- An active task is runnable exactly when the earlier tasks that it conflicts with have been
descheduled. -/
theorem fifo_runnable_iff :
    s.Runnable t ↔ s.Active t ∧ ∀ e < t, Conflict tasks e t → e ∈ s.descheduled := by
  obtain ⟨p, hsim, hinv⟩ := exists_sim hreach
  constructor
  · intro ht
    have ht' : p.Runnable t := (hsim.runnable_iff t).mp ht
    have hactive : p.Active t := ((hinv.runnable_iff t).mp ht').1
    refine ⟨(hsim.active_iff t).mpr hactive, fun e he hconflict => ?_⟩
    by_contra hnot
    -- An earlier task that is active would have to come later.
    have hea : p.Active e := by
      refine ⟨he.trans hactive.1, ?_⟩
      rwa [← hsim.descheduled]
    exact lt_asymm he (hinv.lt_of_conflict hinv.sys (Or.inl trivial) ht' hea (ne_of_lt he)
      hconflict)
  · rintro ⟨hactive, hdone⟩
    have hactive' : p.Active t := (hsim.active_iff t).mp hactive
    by_contra hnot
    have hwaits : p.Waiting t := ⟨hactive', fun ht => hnot ((hsim.runnable_iff t).mpr ht)⟩
    obtain ⟨e, hea, hconflict, hlt⟩ := hinv.exists_before trivial hwaits
    refine hea.2 ?_
    rw [← hsim.descheduled]
    exact hdone e hlt hconflict

theorem fifo_exists_runnable (hactive : ∃ t, s.Active t) : ∃ t, s.Runnable t := by
  obtain ⟨p, hsim, hinv⟩ := exists_sim hreach
  obtain ⟨t, ht⟩ := hactive
  obtain ⟨e, he⟩ := hinv.exists_runnable ⟨t, (hsim.active_iff t).mp ht⟩
  exact ⟨e, (hsim.runnable_iff e).mpr he⟩

end States

/-! ## The order of the runs -/

theorem mem_of_descheduled {tr : List (Op × Option Task)}
    (hrun : (sys tasks capability limit).Run (.new tasks capability limit) tr s)
    (he : e ∈ s.descheduled) : (.deschedule e, none) ∈ tr := by
  induction hrun with
  | nil => exact absurd he not_mem_nil
  | @snoc tr u u' a _ hstep ih =>
    rw [mem_append, mem_singleton]
    rcases perform_cases hstep.2 with ⟨-, ⟨hdone, -⟩ | ⟨task, hop, hresult, hdone, -⟩⟩
    · rw [hdone] at he
      exact Or.inl (ih he)
    · rw [hdone, mem_append, mem_singleton] at he
      rcases he with he | rfl
      · exact Or.inl (ih he)
      · exact Or.inr (Prod.ext hop.symm hresult.symm)

/-- Before a task is handed out the earlier tasks that it conflicts with have been
descheduled. -/
theorem fifo_handed_out {pre post : List (Op × Option Task)} {op : Op}
    (hrun : (sys tasks .fifoQueueing limit).Run
      (.new tasks .fifoQueueing limit) (pre ++ (op, some t) :: post) s) (hlt : e < t)
    (hconflict : Conflict tasks e t) : (.deschedule e, none) ∈ pre := by
  -- The call that returns the task deschedules none, so they were descheduled before it.
  obtain ⟨u, u', hpre, hstep, -⟩ := hrun.split_cons
  rcases perform_cases hstep.2 with ⟨-, ⟨hdone, hout, -⟩ | ⟨task, -, hresult, -⟩⟩
  · have hreach : (sys tasks .fifoQueueing limit).Reachable u' := ⟨_, _, rfl, hpre.snoc hstep⟩
    have ht : u'.Runnable t := by
      refine Or.inl ?_
      rw [hout]
      exact mem_append_right _ (mem_singleton.mpr rfl)
    refine mem_of_descheduled hpre ?_
    rw [← hdone]
    exact ((fifo_runnable_iff hreach).mp ht).2 e hlt hconflict
  · cases hresult

/-! ## Liveness -/

/-- A task that never becomes runnable stays active. -/
theorem active_from (ρ : (sys tasks capability limit).Path) {n : ℕ} (hactive : (ρ.state n).Active t)
    (hnever : ∀ m, n ≤ m → ¬ (ρ.state m).Runnable t) {m : ℕ}
    (hm : n ≤ m) : (ρ.state m).Active t := by
  refine ρ.inv_from (fun s => s.Active t) hactive (fun m hm hact => ?_) hm
  exact active_step (ρ.step m) hact fun hmem => hnever m hm (Or.inl hmem)

/-- If every runnable task is descheduled in the end, every task becomes runnable. -/
theorem fifo_live (ρ : (sys tasks .fifoQueueing limit).Path)
    (hfair : ∀ n t, (ρ.state n).Runnable t → ∃ m, n ≤ m ∧ t ∈ (ρ.state m).descheduled) {t n : ℕ}
    (hactive : (ρ.state n).Active t) : ∃ m, n ≤ m ∧ (ρ.state m).Runnable t := by
  induction t using Nat.strong_induction_on generalizing n with
  | h t ih =>
    by_contra hnever
    have hnever' : ∀ m, n ≤ m → ¬ (ρ.state m).Runnable t := fun m hm hr => hnever ⟨m, hm, hr⟩
    -- From some time on the first `k` tasks are descheduled as far as they conflict.
    have hdone : ∀ k ≤ t, ∃ M, n ≤ M ∧ ∀ e < k, Conflict tasks e t →
        e ∈ (ρ.state M).descheduled := by
      intro k
      induction k with
      | zero => exact fun _ => ⟨n, Nat.le_refl n, fun e he => absurd he (Nat.not_lt_zero e)⟩
      | succ k ihk =>
        intro hk
        obtain ⟨M, hM, hprev⟩ := ihk (Nat.le_of_succ_le hk)
        have hlast : ∃ M', M ≤ M' ∧ k ∈ (ρ.state M').descheduled := by
          by_cases hmem : k ∈ (ρ.state M).descheduled
          · exact ⟨M, Nat.le_refl M, hmem⟩
          · have hlt : k < (ρ.state M).scheduled :=
              lt_of_lt_of_le hk (active_from ρ hactive hnever' hM).1.le
            obtain ⟨m, hm, hr⟩ := ih k hk ⟨hlt, hmem⟩
            obtain ⟨m', hm', hd⟩ := hfair m k hr
            exact ⟨m', hm.trans hm', hd⟩
        obtain ⟨M', hM', hk'⟩ := hlast
        refine ⟨M', hM.trans hM', fun e he hconflict => ?_⟩
        rcases Nat.lt_succ_iff_lt_or_eq.mp he with he | rfl
        · exact ρ.inv_from (fun s => e ∈ s.descheduled) (hprev e he hconflict)
            (fun m _ hmem => (step_mono (ρ.step m)).2 hmem) hM'
        · exact hk'
    obtain ⟨M, hM, hall⟩ := hdone t (Nat.le_refl t)
    refine hnever' M hM ((fifo_runnable_iff (ρ.reachable M)).mpr ⟨?_, hall⟩)
    exact active_from ρ hactive hnever' hM

/-- The calls other than handing out tasks are bounded: `total_task_count` bounds the tasks
that are scheduled, and each is descheduled at most once. -/
def remaining (s : SchedulerSt tasks) : ℕ :=
  2 ^ 32 - s.scheduled + (2 ^ 32 - s.descheduled.length)

theorem remaining_step (hstep : (sys tasks capability limit).Step s a s') :
    remaining s' ≤ remaining s := by
  rcases perform_cases hstep.2 with ⟨hscheduled, ⟨hdone, -⟩ | ⟨t, -, -, hdone, -⟩⟩
  · rw [remaining, remaining, hscheduled, hdone]
    omega
  · rw [remaining, remaining, hscheduled, hdone, length_append]
    omega

/-- A call that leaves `remaining` as it is hands out tasks only. -/
theorem next_of_remaining (hreach : (sys tasks .fifoQueueing limit).Reachable s')
    (hstep : (sys tasks .fifoQueueing limit).Step s a s')
    (heq : remaining s' = remaining s) : a.1 = .next := by
  obtain ⟨p, hsim, hinv⟩ := exists_sim hreach
  have hbound : s'.scheduled < 2 ^ 32 := by
    rw [hsim.scheduled]
    exact hinv.bound
  have hlength : s'.descheduled.length < 2 ^ 32 := by
    have hactive := hinv.active
    have hbound' := hinv.bound
    rw [hsim.descheduled]
    omega
  obtain ⟨op, result⟩ := a
  rcases perform_cases hstep.2 with ⟨hscheduled, ⟨hdone, -, hop⟩ | ⟨t, -, -, hdone, -⟩⟩
  · cases op with
    | next => rfl
    | schedule forceBuffering =>
      have hscheduled' : s'.scheduled = s.scheduled + 1 := hscheduled
      rw [remaining, remaining, hdone] at heq
      omega
    | deschedule t => exact absurd rfl (hop t)
  · rw [remaining, remaining] at heq
    rw [hdone, length_append, length_singleton] at heq hlength
    omega

theorem max_eq (hreach : (sys tasks capability limit).Reachable s) :
    s.machine.maxRunningTaskCount = limit := by
  refine hreach.inv (fun s => s.machine.maxRunningTaskCount = limit) ?_ ?_
  · rintro _ rfl
    rfl
  · intro s a s' hstep ih
    rw [perform_max hstep.2, ih]

/-- With no task running, `schedule_next_unblocked_task` hands one out if it can. -/
theorem handedOut_next {result : Option Task} (hrunnable : s.machine.isTaskRunnable = true)
    (hqueue : s.machine.unblockedTaskQueue ≠ [])
    (hnext : perform s .next = .ok (result, s')) : s'.handedOut ≠ [] := by
  obtain ⟨call, hcall, heq⟩ := bind_eq_ok hnext
  cases heq
  rw [SchedulingStateMachine.scheduleNextUnblockedTask, if_pos hrunnable] at hcall
  cases hq : s.machine.unblockedTaskQueue with
  | nil => exact absurd hq hqueue
  | cons t rest =>
    rw [hq] at hcall
    obtain ⟨running, _, hcall⟩ := bind_eq_ok hcall
    obtain ⟨count, _, hcall⟩ := bind_eq_ok hcall
    cases hcall
    exact append_ne_nil_of_right_ne_nil _ (cons_ne_nil _ _)

/-- A machine that may run a task (block verification sets no limit): if every task that is
handed out is descheduled in the end, every task becomes runnable. -/
theorem fifo_live_limited (hmax : 0 < limit) (ρ : (sys tasks .fifoQueueing limit).Path)
    (hfair : ∀ n t, t ∈ (ρ.state n).handedOut → ∃ m, n ≤ m ∧ t ∈ (ρ.state m).descheduled) {t n : ℕ}
    (hactive : (ρ.state n).Active t) : ∃ m, n ≤ m ∧ (ρ.state m).Runnable t := by
  -- From some time on the machine is only asked for tasks.
  obtain ⟨N, hN⟩ := ρ.exists_constant remaining fun n => remaining_step (ρ.step n)
  have hnext : ∀ m, N ≤ m → (ρ.label m).1 = .next := by
    intro m hm
    refine next_of_remaining (ρ.reachable (m + 1)) (ρ.step m) ?_
    rw [hN m hm, hN (m + 1) (Nat.le_succ_of_le hm)]
  -- What is handed out then is never descheduled, so nothing is.
  have hout : ∀ m, N ≤ m → (ρ.state m).handedOut = [] := by
    intro m hm
    by_contra hne
    obtain ⟨e, he⟩ := exists_mem_of_ne_nil _ hne
    obtain ⟨k, hk, hdone⟩ := hfair m e he
    have hkeep : e ∈ (ρ.state k).handedOut := by
      refine ρ.inv_from (fun s => e ∈ s.handedOut) he (fun j hj hmem => ?_) hk
      rcases perform_cases (ρ.step j).2 with ⟨-, ⟨-, hout, -⟩ | ⟨task, hop, -⟩⟩
      · rw [hout]
        exact mem_append_left _ hmem
      · rw [hnext j (hm.trans hj)] at hop
        cases hop
    exact ((fifo_runnable_iff (ρ.reachable k)).mp (Or.inl hkeep)).1.2 hdone
  -- A task in the unblocked queue would be handed out.
  have hqueue : ∀ m, N ≤ m → (ρ.state m).machine.unblockedTaskQueue = [] := by
    intro m hm
    by_contra hne
    obtain ⟨p, hsim, hinv⟩ := exists_sim (ρ.reachable m)
    have hrunning : (ρ.state m).machine.runningTaskCount = 0 := by
      rw [hsim.machine.runningTaskCount, hinv.running, ← hsim.handedOut, hout m hm]
      rfl
    have hrunnable : (ρ.state m).machine.isTaskRunnable = true := by
      rw [SchedulingStateMachine.isTaskRunnable, hrunning, max_eq (ρ.reachable m)]
      exact decide_eq_true hmax
    have hstep := (ρ.step m).2
    rw [hnext m hm] at hstep
    exact handedOut_next hrunnable hne hstep (hout (m + 1) (Nat.le_succ_of_le hm))
  -- So nobody is runnable, and then nobody is active.
  by_contra hnever
  have hnever' : ∀ m, n ≤ m → ¬ (ρ.state m).Runnable t := fun m hm hr => hnever ⟨m, hm, hr⟩
  have hactive' := active_from ρ hactive hnever' (Nat.le_max_left n N)
  rcases fifo_exists_runnable (ρ.reachable _) ⟨t, hactive'⟩ with ⟨e, he | he⟩
  · rw [hout _ (Nat.le_max_right n N)] at he
    exact absurd he not_mem_nil
  · rw [hqueue _ (Nat.le_max_right n N)] at he
    exact absurd he not_mem_nil

/-! ## All together -/

variable (tasks) in
/-- A task is runnable exactly while it is active and every earlier task that it conflicts
with has been descheduled. So conflicting tasks are handed out in the order of arrival, the
earlier descheduled before the later is handed out. Every task becomes runnable if all
runnable tasks are descheduled in the end, and on a machine that may run a task, if all
tasks that are handed out are. -/
theorem fifo_order (limit : ℕ) :
    (∀ s, (sys tasks .fifoQueueing limit).Reachable s → ∀ t, s.Runnable t ↔
      s.Active t ∧ ∀ e < t, Conflict tasks e t → e ∈ s.descheduled) ∧
    (∀ pre op t post s, (sys tasks .fifoQueueing limit).Run
        (.new tasks .fifoQueueing limit) (pre ++ (op, some t) :: post) s →
      ∀ e < t, Conflict tasks e t → (.deschedule e, none) ∈ pre) ∧
    (∀ ρ : (sys tasks .fifoQueueing limit).Path,
      (∀ n t, (ρ.state n).Runnable t → ∃ m, n ≤ m ∧ t ∈ (ρ.state m).descheduled) →
      ∀ n t, (ρ.state n).Active t → ∃ m, n ≤ m ∧ (ρ.state m).Runnable t) ∧
    (0 < limit → ∀ ρ : (sys tasks .fifoQueueing limit).Path,
      (∀ n t, t ∈ (ρ.state n).handedOut → ∃ m, n ≤ m ∧ t ∈ (ρ.state m).descheduled) →
      ∀ n t, (ρ.state n).Active t → ∃ m, n ≤ m ∧ (ρ.state m).Runnable t) := by
  refine ⟨?_, ?_, ?_, ?_⟩
  · intro s hreach t
    exact fifo_runnable_iff hreach
  · intro pre op t post s hrun e hlt hconflict
    exact fifo_handed_out hrun hlt hconflict
  · intro ρ hfair n t hactive
    exact fifo_live ρ hfair hactive
  · intro hmax ρ hfair n t hactive
    exact fifo_live_limited hmax ρ hfair hactive

def writers (task : Task) : TaskInner ℕ ℕ := .single task 0 .writable

/-- Two writers run one after the other, then the machine is asked for tasks for ever. -/
def writersPath : (sys writers .fifoQueueing 1).Path where
  state
    | 0 => .new writers .fifoQueueing 1
    | 1 => stateAfter writers .fifoQueueing 1 [.schedule false]
    | 2 => stateAfter writers .fifoQueueing 1 [.schedule false, .schedule false]
    | 3 => stateAfter writers .fifoQueueing 1 [.schedule false, .schedule false, .deschedule 0]
    | 4 => stateAfter writers .fifoQueueing 1
      [.schedule false, .schedule false, .deschedule 0, .next]
    | _ + 5 => stateAfter writers .fifoQueueing 1
        [.schedule false, .schedule false, .deschedule 0, .next, .deschedule 1]
  label
    | 0 => (.schedule false, some 0)
    | 1 => (.schedule false, none)
    | 2 => (.deschedule 0, none)
    | 3 => (.next, some 1)
    | 4 => (.deschedule 1, none)
    | _ + 5 => (.next, none)
  init := rfl
  step
    | 0 => ⟨trivial, rfl⟩
    | 1 => ⟨trivial, rfl⟩
    | 2 => ⟨by decide, rfl⟩
    | 3 => ⟨trivial, rfl⟩
    | 4 => ⟨by decide, rfl⟩
    | _ + 5 => ⟨trivial, rfl⟩

/-- The second writer waits for the first, is handed out after it was descheduled, and
becomes runnable. -/
theorem fifo_order_writers :
    (¬ (writersPath.state 2).Runnable 1 ∧ (writersPath.state 3).Runnable 1) ∧
      (.deschedule 0, none) ∈ [writersPath.label 0, writersPath.label 1, writersPath.label 2] ∧
      ∃ m, 2 ≤ m ∧ (writersPath.state m).Runnable 1 := by
  have hconflict : Conflict writers 0 1 :=
    ⟨0, .writable, .writable, by decide, by decide, Or.inl rfl⟩
  have hused : ∀ n, ∀ t ∈ (writersPath.state n).handedOut, t ∈ [0, 1] := by
    have hlast : ∀ t ∈ (writersPath.state 5).handedOut, t ∈ [0, 1] := by decide
    rintro (_ | _ | _ | _ | _ | n)
    · decide
    · decide
    · decide
    · decide
    · decide
    · exact hlast
  have hdone : ∀ t ∈ [0, 1], t ∈ (writersPath.state 5).descheduled := by decide
  have hfair : ∀ n t, t ∈ (writersPath.state n).handedOut →
      ∃ m, n ≤ m ∧ t ∈ (writersPath.state m).descheduled :=
    fun n t ht => ⟨n + 5, Nat.le_add_right n 5, hdone t (hused n t ht)⟩
  have hreach := writersPath.reachable
  have hrun : (sys writers .fifoQueueing 1).Run (.new writers .fifoQueueing 1)
      ([writersPath.label 0, writersPath.label 1, writersPath.label 2] ++ (.next, some 1) :: [])
      (writersPath.state 4) :=
    .cons (writersPath.step 0) (.cons (writersPath.step 1) (.cons (writersPath.step 2)
      (.single (writersPath.step 3))))
  obtain ⟨hiff, horder, -, hlimited⟩ := fifo_order writers 1
  refine ⟨⟨?_, ?_⟩, horder _ _ _ _ _ hrun 0 (by decide) hconflict,
    hlimited (by decide) writersPath hfair 2 1 (by decide)⟩
  · intro hr
    exact absurd (((hiff _ (hreach 2) 1).mp hr).2 0 (by decide) hconflict) (by decide)
  · refine (hiff _ (hreach 3) 1).mpr ⟨by decide, fun e he _ => ?_⟩
    rw [Nat.lt_one_iff.mp he]
    decide

end Salsa.Unified
