import Salsa.Unified.Runs

/-!
# Salsa.Unified.Priority — what the priority scheduler guarantees

Read off the invariant of the runs.
-/

namespace Salsa.Unified

open LockQueue List

variable {Key Id : Type} [DecidableEq Key] [LinearOrder Id] {tasks : Task → TaskInner Key Id}
  {s s' : SchedulerSt tasks} {t e : Task} {late : Task → Prop}

omit [DecidableEq Key] [LinearOrder Id] in
theorem Conflict.symm {a b : Task} (h : Conflict tasks a b) : Conflict tasks b a := by
  obtain ⟨key, u, v, hu, hv, hw⟩ := h
  exact ⟨key, v, u, hv, hu, hw.symm⟩

section Queues

variable {contexts : Task → List (LockContext Key)} {queues : Queues tasks} {counts : Counts}
  {key : Key} {u v : RequestedUsage}

section

omit [DecidableEq Key]

variable (h : SysInv contexts late queues counts)
include h

/-- A task with counter zero holds every queue it uses. -/
theorem SysInv.holds (hzero : counts t = 0)
    (hu : ⟨key, u⟩ ∈ contexts t) {current : Option (PriorityUsage tasks)}
    {blocked : PriorityUsageQueue tasks} (hq : queues key = .priority current blocked)
    (hmem : ∀ x, x ∈ holders current ∨ x ∈ blocked ↔ ⟨key, x.1⟩ ∈ contexts x.2) :
    (u, t) ∈ holders current := by
  rcases (hmem (u, t)).mpr hu with hy | hy
  · exact hy
  · have hnot := h.not_blocked hzero hu
    rw [hq] at hnot
    exact absurd hy hnot

/-- A late task with counter zero comes before the others on its queues. -/
theorem SysInv.lt_of_late (ht : counts t = 0)
    (hlate : late t) (hne : e ≠ t) (hu : ⟨key, u⟩ ∈ contexts t) (hv : ⟨key, v⟩ ∈ contexts e)
    (hclash : u = .writable ∨ v = .writable) : (tasks t).taskId < (tasks e).taskId := by
  obtain ⟨current, blocked, hq, hinv, hmem⟩ := h.queue key
  have hholds : (u, t) ∈ holders current := h.holds ht hu hq hmem
  rcases (hmem (v, e)).mpr hv with hy | hy
  · refine absurd hclash (hinv.orderly.exclusive (u, t) hholds (v, e) hy ?_)
    exact fun heq => hne (congrArg Prod.snd heq).symm
  · exact hinv.orderly.ordered (u, t) hholds hlate (v, e) hy hclash

/-- A task with a counter above zero is blocked on a queue. -/
theorem SysInv.exists_blocked (ht : counts t ≠ 0) :
    ∃ c ∈ contexts t, (c.requestedUsage, t) ∈ blockedOf (queues c.usageQueue) := by
  by_contra hnone
  rw [not_exists] at hnone
  refine ht ?_
  rw [h.counts_eq, waits_eq_zero]
  intro c hc hmem
  exact hnone c ⟨hc, hmem⟩

end

end Queues

section States

variable {strict : Prop}

section

omit [DecidableEq Key]

/-- Runnable tasks do not conflict. -/
theorem Inv.not_conflict (h : Inv strict s) (ht : s.Runnable t) (he : s.Runnable e) (hne : t ≠ e) :
    ¬ Conflict tasks t e := by
  rintro ⟨key, u, v, hu, hv, hclash⟩
  obtain ⟨hta, htz⟩ := (h.runnable_iff t).mp ht
  obtain ⟨hea, hez⟩ := (h.runnable_iff e).mp he
  rw [← contextsOf_of_active hta] at hu
  rw [← contextsOf_of_active hea] at hv
  obtain ⟨current, blocked, hq, hinv, hmem⟩ := h.sys.queue key
  refine hinv.orderly.exclusive (u, t) (h.sys.holds htz hu hq hmem) (v, e)
    (h.sys.holds hez hv hq hmem) ?_ hclash
  exact fun heq => hne (congrArg Prod.snd heq)

/-- A late runnable task comes before the active tasks that it conflicts with. -/
theorem Inv.lt_of_conflict (h : Inv strict s)
    (hsys : SysInv (contextsOf s) late s.machine.queues s.machine.counts) (hlate : late t)
    (ht : s.Runnable t) (he : s.Active e) (hne : e ≠ t) (hconflict : Conflict tasks e t) :
    (tasks t).taskId < (tasks e).taskId := by
  obtain ⟨key, v, u, hv, hu, hclash⟩ := hconflict
  obtain ⟨hta, htz⟩ := (h.runnable_iff t).mp ht
  rw [← contextsOf_of_active hta] at hu
  rw [← contextsOf_of_active he] at hv
  exact hsys.lt_of_late htz hlate hne hu hv hclash.symm

theorem Keeps.lt_of_conflict (h : Keeps strict s s') (hbefore : ¬ s.Runnable t)
    (hafter : s'.Runnable t) (he : s'.Active e) (hne : e ≠ t) (hconflict : Conflict tasks e t) :
    (tasks t).taskId < (tasks e).taskId :=
  h.inv.lt_of_conflict h.turn (Or.inr hbefore) hafter he hne hconflict

/-- In a strict run a task waits only for an active task with a smaller id. -/
theorem Inv.exists_before (h : Inv strict s) (hstrict : strict) (ht : s.Waiting t) :
    ∃ e, s.Active e ∧ Conflict tasks e t ∧ (tasks e).taskId < (tasks t).taskId := by
  obtain ⟨c, hc, hblocked⟩ := h.sys.exists_blocked ((h.late_iff ht.1).mp ht.2)
  obtain ⟨current, blocked, hq, hinv, hmem⟩ := h.sys.queue c.usageQueue
  rw [hq] at hblocked
  -- Somebody holds the queue or is blocked on it before the task.
  obtain ⟨x, hclash, hx⟩ := hinv.orderly.blocked _ hblocked
  have hx' : ⟨c.usageQueue, x.1⟩ ∈ contextsOf s x.2 := by
    rcases hx with hx | ⟨hx, -⟩
    · exact (hmem x).mp (Or.inl hx)
    · exact (hmem x).mp (Or.inr hx)
  have hactive : s.Active x.2 := active_of_contextsOf (ne_nil_of_mem hx')
  rw [contextsOf_of_active hactive] at hx'
  rw [contextsOf_of_active ht.1] at hc
  refine ⟨x.2, hactive, ⟨c.usageQueue, x.1, c.requestedUsage, hx', hc, hclash⟩, ?_⟩
  rcases hx with hx | ⟨-, hlt⟩
  · exact hinv.orderly.ordered x hx (Or.inl hstrict) _ hblocked hclash
  · exact hlt

/-- While there are active tasks one of them is runnable. -/
theorem Inv.exists_runnable (h : Inv strict s) (hactive : ∃ t, s.Active t) : ∃ t, s.Runnable t := by
  choose current blocked hq hinv hmem using h.sys.queue
  have howner : ∀ key, ∀ x : UsageFromTask, x ∈ holders (current key) ∨ x ∈ blocked key →
      s.Active x.2 := by
    intro key x hx
    exact active_of_contextsOf (ne_nil_of_mem ((hmem key x).mp hx))
  have hfinite : {t | s.Active t}.Finite := (Set.finite_lt_nat s.scheduled).subset fun t ht => ht.1
  have horderly : ∀ key, Orderly (fun x : UsageFromTask => (tasks x.2).taskId) Clash
      (fun x => s.machine.counts x.2 ≠ 0) {x | x ∈ holders (current key)} {x | x ∈ blocked key} :=
    fun key => (hinv key).orderly.mono fun x _ => Or.inr
  have hlate : ∀ t ∈ {t | s.Active t}, s.machine.counts t ≠ 0 →
      ∃ key, ∃ x ∈ {x | x ∈ blocked key}, Prod.snd x = t := by
    intro t _ hcount
    obtain ⟨c, -, hc⟩ := h.sys.exists_blocked hcount
    rw [hq] at hc
    exact ⟨c.usageQueue, _, hc, rfl⟩
  rcases exists_not_late Prod.snd (fun t => (tasks t).taskId) (fun t => s.machine.counts t ≠ 0)
    horderly hfinite hactive howner hlate with ⟨t, ht, hzero⟩
  exact ⟨t, (h.runnable_iff t).mpr ⟨ht, not_not.mp hzero⟩⟩

/-- Without active tasks every queue is as new. -/
theorem Inv.queue_eq_new (h : Inv strict s) (hnone : ∀ t, ¬ s.Active t) (key : Key) :
    s.machine.queues key = .new .priorityQueueing := by
  obtain ⟨current, blocked, hq, hinv, hmem⟩ := h.sys.queue key
  have hempty : ∀ x, ¬ (x ∈ holders current ∨ x ∈ blocked) := by
    intro x hx
    exact hnone x.2 (active_of_contextsOf (ne_nil_of_mem ((hmem x).mp hx)))
  -- A read usage without readers would be left over otherwise.
  have hcurrent : current = none := by
    rcases current with _ | readers | holder
    · rfl
    · obtain ⟨t, ht⟩ := hinv.filled readers rfl
      exact absurd (Or.inl (mem_holders_readonly.mpr ⟨rfl, ht⟩)) (hempty (.readonly, t))
    · exact absurd (Or.inl (mem_holders_writable.mpr rfl)) (hempty (.writable, holder))
  have hblocked : blocked = .empty := by
    obtain ⟨l, hl⟩ := blocked
    cases l with
    | nil => rfl
    | cons x l => exact absurd (Or.inr mem_cons_self) (hempty x)
  rw [hq, hcurrent, hblocked]
  rfl

end

end States

/-! ## Runs -/

section Runs

variable {limit : ℕ} {a : Op × Option Task}

section

variable (hreach : (sys tasks .priorityQueueing limit).Reachable s)
include hreach

theorem keeps_of_distinct (hstep : (sys tasks .priorityQueueing limit).Step s a s')
    (hids : DistinctIds tasks s'.scheduled) : Keeps False s s' := by
  have hids' : Ids tasks False s'.scheduled := ids_of_distinct hids
  exact keeps_of_step (inv_of_reachable hreach (hids'.mono (step_mono hstep).1)) hids' hstep

/-- While a task waits, an active task of higher priority that it conflicts with can only
leave by being descheduled, and the task goes on waiting until then. -/
theorem waiting_step (hstep : (sys tasks .priorityQueueing limit).Step s a s')
    (hids : DistinctIds tasks s'.scheduled) (hconflict : Conflict tasks e t)
    (hlt : (tasks e).taskId < (tasks t).taskId) (he : e < s.scheduled) (ht : s.Waiting t) :
    s'.Waiting t ∨ e ∈ s'.descheduled := by
  have hactive : s'.Active t := active_step hstep ht.1 fun hmem => ht.2 (Or.inl hmem)
  have hne : e ≠ t := fun heq => lt_irrefl _ (heq ▸ hlt)
  by_cases hafter : s'.Runnable t
  · refine Or.inr ?_
    by_contra hnot
    -- Otherwise `e` would still be active, with the smaller id.
    have he' : s'.Active e := ⟨he.trans_le (step_mono hstep).1, hnot⟩
    exact lt_asymm hlt
      ((keeps_of_distinct hreach hstep hids).lt_of_conflict ht.2 hafter he' hne hconflict)
  · exact Or.inl ⟨hactive, hafter⟩

theorem waiting_run {tr : List (Op × Option Task)}
    (hrun : (sys tasks .priorityQueueing limit).Run s tr s')
    (hids : DistinctIds tasks s'.scheduled) (hconflict : Conflict tasks e t)
    (hlt : (tasks e).taskId < (tasks t).taskId) (he : s.Active e) (ht : s.Waiting t) :
    s'.Waiting t ∨ e ∈ s'.descheduled := by
  -- The ids are distinct for the tasks up to the end of the run, so for those before.
  refine (hrun.inv (fun u => (sys tasks .priorityQueueing limit).Reachable u ∧
    e < u.scheduled ∧ (DistinctIds tasks u.scheduled → u.Waiting t ∨ e ∈ u.descheduled)) ?_ ?_).2.2
    hids
  · exact ⟨hreach, he.1, fun _ => Or.inl ht⟩
  · rintro u a u' hstep ⟨hu, heu, ih⟩
    refine ⟨hu.step hstep, heu.trans_le (step_mono hstep).1, fun hids => ?_⟩
    rcases ih ((ids_of_distinct hids).mono (step_mono hstep).1).1 with hw | hdone
    · exact waiting_step hu hstep hids hconflict hlt heu hw
    · exact Or.inr ((step_mono hstep).2 hdone)

end

/-- A task becomes runnable only when every active task that it conflicts with has a larger
id. A task that waits goes on waiting until the conflicting active tasks with smaller ids
have been descheduled, so conflicting tasks that wait at the same time run in the order of
their ids. -/
theorem priority_order (hreach : (sys tasks .priorityQueueing limit).Reachable s) :
    (∀ a s' t e, (sys tasks .priorityQueueing limit).Step s a s' →
      DistinctIds tasks s'.scheduled → ¬ s.Runnable t → s'.Runnable t → s'.Active e → e ≠ t →
      Conflict tasks e t → (tasks t).taskId < (tasks e).taskId) ∧
    ∀ tr s' t e, (sys tasks .priorityQueueing limit).Run s tr s' →
      DistinctIds tasks s'.scheduled → s.Waiting t → s.Active e → Conflict tasks e t →
      (tasks e).taskId < (tasks t).taskId → s'.Waiting t ∨ e ∈ s'.descheduled := by
  constructor
  · intro a s' t e hstep hids hbefore hafter he hne hconflict
    exact (keeps_of_distinct hreach hstep hids).lt_of_conflict hbefore hafter he hne hconflict
  · intro tr s' t e hrun hids ht he hconflict hlt
    exact waiting_run hreach hrun hids hconflict hlt he ht

/-- Writers of one account; the third to arrive has the second smallest id. -/
def lateWriter (task : Task) : TaskInner ℕ ℕ := .single ([5, 9, 7].getD task task) 0 .writable

/-- While the first writer runs the other two wait, and the later one runs before the
earlier one. -/
theorem priority_order_late_writer :
    let s₁ := stateAfter lateWriter .priorityQueueing 2
      [.schedule false, .schedule false, .schedule false]
    let s₂ := stateAfter lateWriter .priorityQueueing 2
      [.schedule false, .schedule false, .schedule false, .deschedule 0]
    (¬ s₁.Runnable 2 ∧ s₂.Runnable 2 ∧ s₂.Active 1 ∧
      (lateWriter 2).taskId < (lateWriter 1).taskId) ∧
      (s₁.Waiting 1 ∧ s₁.Active 2) ∧ (s₂.Waiting 1 ∨ 2 ∈ s₂.descheduled) := by
  intro s₁ s₂
  have hreach : (sys lateWriter .priorityQueueing 2).Reachable s₁ := reachable_stateAfter _ _ _
  have hstep : (sys lateWriter .priorityQueueing 2).Step s₁ (.deschedule 0, none) s₂ :=
    ⟨by decide, rfl⟩
  have hids : DistinctIds lateWriter s₂.scheduled := by decide
  have hconflict : Conflict lateWriter 1 2 :=
    ⟨0, .writable, .writable, by decide, by decide, Or.inl rfl⟩
  refine ⟨⟨by decide, by decide, by decide, ?_⟩, ⟨by decide, by decide⟩, ?_⟩
  · exact (priority_order hreach).1 _ s₂ 2 1 hstep hids (by decide) (by decide) (by decide)
      (by decide) hconflict
  · exact (priority_order hreach).2 _ s₂ 1 2 (Lts.Run.single hstep) hids (by decide) (by decide)
      hconflict.symm (by decide)

end Runs

end Salsa.Unified
