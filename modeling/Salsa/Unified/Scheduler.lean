import Salsa.Unified.Fifo

/-!
# Salsa.Unified.Scheduler — what both capabilities guarantee

The results about the priority machine and about the FIFO machine, side by side.
-/

namespace Salsa.Unified

variable {Key Id : Type} [DecidableEq Key] [LinearOrder Id] {tasks : Task → TaskInner Key Id}
  {capability : Capability} {limit : ℕ} {s : SchedulerSt tasks}

/-! ## Exclusion -/

/-- Two tasks that are handed out or unblocked, and not descheduled, do not conflict. -/
theorem runnable_exclusive (hreach : (sys tasks capability limit).Reachable s)
    (hids : DistinctIds tasks s.scheduled) {a b : Task} (ha : s.Runnable a) (hb : s.Runnable b)
    (hne : a ≠ b) : ¬ Conflict tasks a b := by
  cases capability with
  | priorityQueueing =>
    exact (inv_of_reachable hreach (ids_of_distinct hids)).not_conflict ha hb hne
  | fifoQueueing =>
    obtain ⟨p, hsim, hinv⟩ := exists_sim hreach
    exact hinv.not_conflict ((hsim.runnable_iff a).mp ha) ((hsim.runnable_iff b).mp hb) hne

/-- A writer of account 0, a writer of accounts 0 and 1, and a writer of account 1 that
comes last with a smaller id than the second. -/
def takenBack : Task → TaskInner ℕ ℕ
  | 0 => .single 5 0 .writable
  | 1 => ⟨9, [⟨0, .writable⟩, ⟨1, .writable⟩], by decide, by decide⟩
  | _ => .single 7 1 .writable

/-- The second writer had account 1 and waited for account 0; the third took account 1 from
it, so the second waits for both while the first and the third are runnable. -/
theorem runnable_exclusive_takenBack :
    let s := stateAfter takenBack .priorityQueueing 2
      [.schedule false, .schedule false, .schedule false]
    s.machine.counts 1 = 2 ∧ s.Runnable 0 ∧ s.Runnable 2 ∧ ¬ Conflict takenBack 0 2 := by
  intro s
  have hreach : (sys takenBack .priorityQueueing 2).Reachable s := reachable_stateAfter _ _ _
  refine ⟨by decide, by decide, by decide, ?_⟩
  exact runnable_exclusive hreach (by decide) (by decide) (by decide) (by decide)

/-! ## Progress and panics -/

theorem fifo_never_stuck (hreach : (sys tasks .fifoQueueing limit).Reachable s) :
    ((∃ t, s.Active t) → ∃ t, s.Runnable t) ∧
    ((∀ t, ¬ s.Active t) → ∀ key, s.machine.queues key = .new .fifoQueueing) ∧
    ∀ op : Op, op.Allowed s →
      (∃ result, perform s op = .ok result) ∨ 2 ^ 31 ≤ s.scheduled ∧
        (perform s op = .error .totalTaskCount ∨ perform s op = .error .unblockedTaskCount) := by
  obtain ⟨p, hsim, hinv⟩ := exists_sim hreach
  refine ⟨fifo_exists_runnable hreach, fun hnone key => ?_, fun op hallowed => ?_⟩
  · have hnew := hinv.queue_eq_new (fun t ht => hnone t ((hsim.active_iff t).mpr ht)) key
    have hqueue := hsim.machine.queues key
    rw [hnew] at hqueue
    generalize s.machine.queues key = q at hqueue
    cases hqueue with
    | mk husage blocked =>
      cases husage
      rfl
  · have hallowed' := (hsim.allowed_iff op).mp hallowed
    have hids := ids_of_increasing (increasing_byArrival tasks (p.scheduled + op.arrivals))
    have hsame : ∀ t, (byArrival tasks t).lockContexts = (tasks t).lockContexts := fun _ => rfl
    have hresult := perform_sim hsame hsim hinv hids hallowed'
    rw [hsim.scheduled]
    -- Whatever the priority machine does, the FIFO machine does too.
    rcases perform_spec hinv hallowed' hids with ⟨hbound, herr | herr⟩ | ⟨task, p', hok, -⟩
    · rw [herr] at hresult
      exact Or.inr ⟨hbound, Or.inl hresult.eq_error⟩
    · rw [herr] at hresult
      exact Or.inr ⟨hbound, Or.inr hresult.eq_error⟩
    · rw [hok] at hresult
      obtain ⟨result, hresult', -⟩ := hresult.of_ok_right
      exact Or.inl ⟨result, hresult'⟩

/-- While tasks are active one of them is handed out or unblocked; when none is active
every queue is as new; and every call returns, except that after `2 ^ 31` tasks it may
overflow one of the two counters of the session. No panic is one of a usage queue or of
the counter of a task. -/
theorem never_stuck (hreach : (sys tasks capability limit).Reachable s)
    (hids : DistinctIds tasks s.scheduled) :
    ((∃ t, s.Active t) → ∃ t, s.Runnable t) ∧
    ((∀ t, ¬ s.Active t) → ∀ key, s.machine.queues key = .new capability) ∧
    ∀ op : Op, op.Allowed s → DistinctIds tasks (s.scheduled + op.arrivals) →
      (∃ result, perform s op = .ok result) ∨ 2 ^ 31 ≤ s.scheduled ∧
        (perform s op = .error .totalTaskCount ∨ perform s op = .error .unblockedTaskCount) := by
  cases capability with
  | priorityQueueing =>
    have hinv : Inv False s := inv_of_reachable hreach (ids_of_distinct hids)
    refine ⟨hinv.exists_runnable, hinv.queue_eq_new, fun op hallowed hids' => ?_⟩
    rcases perform_spec hinv hallowed (ids_of_distinct hids') with herr | ⟨task, s', hok, -⟩
    · exact Or.inr herr
    · exact Or.inl ⟨_, hok⟩
  | fifoQueueing =>
    obtain ⟨hprogress, hempty, hperform⟩ := fifo_never_stuck hreach
    exact ⟨hprogress, hempty, fun op hallowed _ => hperform op hallowed⟩

/-- With three writers, two of which share the account of the first, a task is runnable; the
next call returns; and once all have been descheduled the queues are as new. -/
theorem never_stuck_takenBack :
    let s := stateAfter takenBack .priorityQueueing 2
      [.schedule false, .schedule false, .schedule false]
    let s' := stateAfter takenBack .priorityQueueing 2
      [.schedule false, .schedule false, .schedule false, .deschedule 0, .deschedule 2, .next,
        .deschedule 1]
    (∃ t, s.Runnable t) ∧ (∀ key, s'.machine.queues key = .new .priorityQueueing) ∧
      ∃ result, perform s (.deschedule 2) = .ok result := by
  intro s s'
  have hreach : (sys takenBack .priorityQueueing 2).Reachable s := reachable_stateAfter _ _ _
  have hreach' : (sys takenBack .priorityQueueing 2).Reachable s' := reachable_stateAfter _ _ _
  have hids : DistinctIds takenBack 3 := by decide
  refine ⟨(never_stuck hreach hids).1 ⟨1, by decide⟩, (never_stuck hreach' hids).2.1 ?_, ?_⟩
  · rintro t ⟨hlt, hnot⟩
    have hall : ∀ t < 3, t ∈ s'.descheduled := by decide
    exact hnot (hall t hlt)
  · rcases (never_stuck hreach hids).2.2 (.deschedule 2) (by decide) hids with h | ⟨hbound, -⟩
    · exact h
    · exact absurd hbound (by decide)

/-! ## The capabilities compared -/

/-- How many tasks are scheduled along a trace. -/
def arrivals (tr : List (Op × Option Task)) : ℕ := (tr.map fun a => a.1.arrivals).sum

theorem scheduled_of_run {tr : List (Op × Option Task)} (hrun : (sys tasks capability limit).Run
      (.new tasks capability limit) tr s) : s.scheduled = arrivals tr := by
  induction hrun with
  | nil => rfl
  | snoc _ hstep ih =>
    rw [(perform_cases hstep.2).1, ih]
    simp [arrivals]

/-- With ids that increase in the order of arrival the two machines have the same traces of
calls and results, after each of them the same tasks handed out, unblocked, runnable and
waiting, and every further call is allowed in both or neither and returns the same or panics
the same way. -/
theorem fifo_eq_priority (tr : List (Op × Option Task)) (hids : IncreasingIds tasks (arrivals tr)) :
    ((∃ s, (sys tasks .fifoQueueing limit).Run
        (.new tasks .fifoQueueing limit) tr s) ↔
      ∃ p, (sys tasks .priorityQueueing limit).Run (.new tasks .priorityQueueing limit) tr p) ∧
    ∀ s p, (sys tasks .fifoQueueing limit).Run
        (.new tasks .fifoQueueing limit) tr s →
      (sys tasks .priorityQueueing limit).Run (.new tasks .priorityQueueing limit) tr p →
      s.handedOut = p.handedOut ∧ s.machine.unblockedTaskQueue = p.machine.unblockedTaskQueue ∧
      (∀ t, s.Runnable t ↔ p.Runnable t) ∧ (∀ t, s.Waiting t ↔ p.Waiting t) ∧
      ∀ op : Op, (op.Allowed s ↔ op.Allowed p) ∧
        (op.Allowed s → IncreasingIds tasks (arrivals tr + op.arrivals) →
          (perform s op).map Prod.fst = (perform p op).map Prod.fst) := by
  have hsame : ∀ t, (tasks t).lockContexts = (tasks t).lockContexts := fun _ => rfl
  constructor
  · constructor
    · rintro ⟨s, hs⟩
      obtain ⟨p, hp, -⟩ := sim_run hsame hs (by rwa [scheduled_of_run hs])
      exact ⟨p, hp⟩
    · rintro ⟨p, hp⟩
      obtain ⟨s, hs, -⟩ := sim_run_back hsame hp (by rwa [scheduled_of_run hp])
      exact ⟨s, hs⟩
  · intro s p hs hp
    obtain ⟨p', hp', hsim⟩ := sim_run hsame hs (by rwa [scheduled_of_run hs])
    cases hp.unique (fun _ _ _ _ h₁ h₂ => by cases h₁.2.symm.trans h₂.2; rfl) hp'
    have hscheduled : p.scheduled = arrivals tr := scheduled_of_run hp
    have hinv : Inv True p := by
      refine inv_of_reachable ⟨_, tr, rfl, hp⟩ (ids_of_increasing ?_)
      rwa [hscheduled]
    refine ⟨hsim.handedOut, hsim.machine.unblockedTaskQueue, hsim.runnable_iff, fun t => ?_,
      fun op => ⟨hsim.allowed_iff op, fun hallowed hids' => ?_⟩⟩
    · exact and_congr (hsim.active_iff t) (not_congr (hsim.runnable_iff t))
    · have hresult := perform_sim hsame hsim hinv (ids_of_increasing (by rwa [hscheduled]))
        ((hsim.allowed_iff op).mp hallowed)
      generalize perform s op = x at hresult
      generalize perform p op = y at hresult
      cases hresult with
      | ok h => exact congrArg Except.ok h.1
      | error e => rfl

/-- Two writers of one account: both machines put the second into the unblocked queue when
the first is descheduled, and hand it out next. -/
theorem fifo_eq_priority_writers :
    let s := stateAfter writers .fifoQueueing 1 [.schedule false, .schedule false, .deschedule 0]
    let p := stateAfter writers .priorityQueueing 1
      [.schedule false, .schedule false, .deschedule 0]
    s.machine.unblockedTaskQueue = p.machine.unblockedTaskQueue ∧ s.Runnable 1 ∧
      (s.Waiting 1 ↔ p.Waiting 1) ∧
      (perform s .next).map Prod.fst = (perform p .next).map Prod.fst := by
  intro s p
  have hs : (sys writers .fifoQueueing 1).Run (.new writers .fifoQueueing 1)
      [(.schedule false, some 0), (.schedule false, none), (.deschedule 0, none)] s :=
    run_of_performAll [.schedule false, .schedule false, .deschedule 0] rfl
  have hp : (sys writers .priorityQueueing 1).Run (.new writers .priorityQueueing 1)
      [(.schedule false, some 0), (.schedule false, none), (.deschedule 0, none)] p :=
    run_of_performAll [.schedule false, .schedule false, .deschedule 0] rfl
  obtain ⟨-, hqueue, -, hwaiting, hcalls⟩ := (fifo_eq_priority _ (by decide)).2 s p hs hp
  exact ⟨hqueue, by decide, hwaiting 1, (hcalls .next).2 trivial (by decide)⟩

end Salsa.Unified
