import Salsa.Unified.QueueSpec

/-!
# Salsa.Unified.Invariant — all priority queues together

What holds of the queues and counters while a task locks or unlocks its queues one
after the other, and between calls.
-/

namespace Salsa.Unified

open LockQueue Function List LockContext

variable {Key Id : Type} [LinearOrder Id] {tasks : Task → TaskInner Key Id}

def blockedOf : UsageQueueInner tasks → List UsageFromTask
  | .fifo _ blocked => blocked
  | .priority _ blocked => blocked.toList

/-- On how many of the queues the task is blocked. -/
def waits (queues : Queues tasks) (task : Task) (contexts : List (LockContext Key)) : ℕ :=
  contexts.countP fun c => (c.requestedUsage, task) ∈ blockedOf (queues c.usageQueue)

theorem waits_le (queues : Queues tasks) (task : Task) (contexts : List (LockContext Key)) :
    waits queues task contexts ≤ contexts.length :=
  countP_le_length

variable {queues : Queues tasks} {contexts : List (LockContext Key)} {task : Task} {key : Key}
  {queue : UsageQueueInner tasks} {late : Task → Prop} {y : UsageFromTask} {counts : Counts}

theorem waits_eq_zero :
    waits queues task contexts = 0 ↔
      ∀ c ∈ contexts, (c.requestedUsage, task) ∉ blockedOf (queues c.usageQueue) := by
  simp [waits]

theorem waits_append (queues : Queues tasks) (task : Task) (l l' : List (LockContext Key)) :
    waits queues task (l ++ l') = waits queues task l + waits queues task l' :=
  countP_append

theorem mem_blockedOf {current : Option (PriorityUsage tasks)} {blocked : PriorityUsageQueue tasks}
    (hq : queues key = .priority current blocked) :
    y ∈ blockedOf (queues key) ↔ y ∈ blocked := by
  rw [hq]
  rfl

/-- A queue that the task does not use. -/
theorem waits_update_of_not_mem [DecidableEq Key] (queue : UsageQueueInner tasks)
    (h : key ∉ contexts.map usageQueue) :
    waits (update queues key queue) task contexts = waits queues task contexts := by
  refine countP_congr fun c hc => ?_
  have hne : c.usageQueue ≠ key := fun heq => h (heq ▸ mem_map_of_mem hc)
  rw [update_of_ne hne]

/-- A queue that the task uses, where it is blocked before if `p` and after if `q`. -/
theorem waits_update [DecidableEq Key] {u : RequestedUsage}
    {p q : Prop} [Decidable p] [Decidable q] (hnodup : (contexts.map usageQueue).Nodup)
    (hmem : ⟨key, u⟩ ∈ contexts) (hp : (u, task) ∈ blockedOf (queues key) ↔ p)
    (hq : (u, task) ∈ blockedOf queue ↔ q) :
    waits (update queues key queue) task contexts + (if p then 1 else 0) =
      waits queues task contexts + if q then 1 else 0 := by
  obtain ⟨before, after, heq⟩ := append_of_mem hmem
  rw [heq, map_append, map_cons, nodup_append, nodup_cons] at hnodup
  obtain ⟨-, ⟨hafter, -⟩, hbefore⟩ := hnodup
  have hbefore' : key ∉ before.map usageQueue := fun hk => hbefore key hk key mem_cons_self rfl
  have hparts : ∀ queues : Queues tasks, waits queues task contexts =
      waits queues task before + (waits queues task after +
        if (u, task) ∈ blockedOf (queues key) then 1 else 0) := by
    intro queues
    simp [waits, heq, countP_cons]
  rw [hparts, hparts, waits_update_of_not_mem queue hbefore', waits_update_of_not_mem queue hafter,
    update_self, if_congr hp rfl rfl, if_congr hq rfl rfl]
  omega

/-- The state of all queues between the calls and in the loops; `contexts` are the usages
that were requested so far. -/
structure SysInv (contexts : Task → List (LockContext Key)) (late : Task → Prop)
    (queues : Queues tasks) (counts : Counts) : Prop where
  nodup : ∀ t, ((contexts t).map LockContext.usageQueue).Nodup
  short : ∀ t, (contexts t).length < 2 ^ 32
  queue : ∀ key, ∃ current blocked, queues key = .priority current blocked ∧
    QueueInv late current blocked ∧
    ∀ x, x ∈ holders current ∨ x ∈ blocked ↔ ⟨key, x.1⟩ ∈ contexts x.2
  counts_eq : ∀ t, counts t = waits queues t (contexts t)

theorem mem_keys : key ∈ contexts.map usageQueue ↔ ∃ u, ⟨key, u⟩ ∈ contexts := by
  constructor
  · intro hmem
    obtain ⟨⟨key', u⟩, hu, heq⟩ := mem_map.mp hmem
    have hkey : key' = key := heq
    subst hkey
    exact ⟨u, hu⟩
  · rintro ⟨u, hu⟩
    exact mem_map.mpr ⟨_, hu, rfl⟩

theorem eq_of_mem_contexts (hnodup : (contexts.map usageQueue).Nodup)
    {u v : RequestedUsage} (hu : ⟨key, u⟩ ∈ contexts) (hv : ⟨key, v⟩ ∈ contexts) : u = v := by
  have heq := inj_on_of_nodup_map hnodup hu hv rfl
  cases heq
  rfl

/-- Two usages of one queue with the same task are the same. -/
theorem SysInv.usage_eq {contexts : Task → List (LockContext Key)}
    (h : SysInv contexts late queues counts) {x y : UsageFromTask}
    (hx : ⟨key, x.1⟩ ∈ contexts x.2) (hy : ⟨key, y.1⟩ ∈ contexts y.2)
    (heq : x.2 = y.2) : x = y := by
  obtain ⟨u, t⟩ := x
  obtain ⟨v, t'⟩ := y
  have ht : t = t' := heq
  subst ht
  exact congrArg (·, t) (eq_of_mem_contexts (h.nodup t) hx hy)

/-- What holds of every task's usages still holds when one of them changes. -/
theorem forall_update {P : List (LockContext Key) → Prop} {l : List (LockContext Key)}
    {contexts : Task → List (LockContext Key)}
    (h : ∀ t, P (contexts t)) (hl : P l) : ∀ t, P (update contexts task l t) :=
  forall_update_iff contexts (fun _ => P) |>.mpr ⟨hl, fun t _ => h t⟩

/-- The task is blocked on one queue more if it `moved`. -/
theorem waits_moved [DecidableEq Key] {moved : Prop}
    [Decidable moved] (hnodup : (contexts.map usageQueue).Nodup)
    (hmoved : moved → ∃ u, ⟨key, u⟩ ∈ contexts ∧ (u, task) ∉ blockedOf (queues key) ∧
      (u, task) ∈ blockedOf queue)
    (hsame : ¬ moved → ∀ u, ⟨key, u⟩ ∈ contexts →
      ((u, task) ∈ blockedOf queue ↔ (u, task) ∈ blockedOf (queues key))) :
    waits (update queues key queue) task contexts =
      waits queues task contexts + if moved then 1 else 0 := by
  by_cases hm : moved
  · obtain ⟨u, hu, hold, hnew⟩ := hmoved hm
    rw [if_pos hm]
    exact waits_update (p := False) (q := True) hnodup hu (iff_false_intro hold)
      (iff_true_intro hnew)
  · rw [if_neg hm, Nat.add_zero]
    by_cases hkey : key ∈ contexts.map usageQueue
    · obtain ⟨u, hu⟩ := mem_keys.mp hkey
      exact Nat.add_right_cancel (waits_update hnodup hu Iff.rfl (hsame hm u hu))
    · exact waits_update_of_not_mem queue hkey

variable {contexts : Task → List (LockContext Key)} {n : ℕ} {t : Task}

/-- The usages with one more for `task`. -/
def addContext (contexts : Task → List (LockContext Key)) (task : Task) (c : LockContext Key) :
    Task → List (LockContext Key) :=
  Function.update contexts task (contexts task ++ [c])

theorem mem_addContext_of_ne {c d : LockContext Key} (hne : d.usageQueue ≠ c.usageQueue) :
    d ∈ addContext contexts task c t ↔ d ∈ contexts t := by
  unfold addContext
  by_cases ht : t = task
  · subst ht
    rw [update_self, mem_append, mem_singleton, or_iff_left_iff_imp]
    rintro rfl
    exact absurd rfl hne
  · rw [update_of_ne ht]

variable {c : LockContext Key} {x : UsageFromTask}

/-- The usages of the queue that was locked. -/
theorem mem_addContext :
    ⟨c.usageQueue, x.1⟩ ∈ addContext contexts task c x.2 ↔
      ⟨c.usageQueue, x.1⟩ ∈ contexts x.2 ∨ x = (c.requestedUsage, task) := by
  obtain ⟨u, t⟩ := x
  obtain ⟨key, v⟩ := c
  unfold addContext
  by_cases ht : t = task
  · subst ht
    simp
  · simp [ht]

variable {current current' : Option (PriorityUsage tasks)}
  {blocked blocked' : PriorityUsageQueue tasks} {counts' : Counts} {granted : Bool}
  {back : List Task}

/-- A lock attempt adds one usage to the queue and takes none away. -/
theorem LockEffect.mem_iff
    (e : LockEffect counts counts' current current' blocked blocked' x granted back)
    (y : UsageFromTask) :
    y ∈ holders current' ∨ y ∈ blocked' ↔ (y ∈ holders current ∨ y ∈ blocked) ∨ y = x := by
  rw [e.mem_holders, e.mem_blocked]
  constructor
  · rintro ((hy | hy) | hy | hy | hy)
    · exact Or.inl (Or.inl hy.1)
    · exact Or.inr hy.2
    · exact Or.inl (Or.inr hy)
    · exact Or.inl (Or.inl hy.1)
    · exact Or.inr hy.2
  · rintro ((hy | hy) | hy)
    · by_cases hback : y.2 ∈ back
      · exact Or.inr (Or.inr (Or.inl ⟨hy, hback⟩))
      · exact Or.inl (Or.inl ⟨hy, hback⟩)
    · exact Or.inr (Or.inl hy)
    · cases granted with
      | true => exact Or.inl (Or.inr ⟨rfl, hy⟩)
      | false => exact Or.inr (Or.inr (Or.inr ⟨rfl, hy⟩))

/-- The usages of a queue that the task has not requested are those of other tasks. -/
theorem used_of_not_mem (hmem : ∀ x, x ∈ holders current ∨ x ∈ blocked ↔ ⟨key, x.1⟩ ∈ contexts x.2)
    (hkey : key ∉ (contexts task).map usageQueue)
    (hy : y ∈ holders current ∨ y ∈ blocked) : y.2 ≠ task ∧ contexts y.2 ≠ [] := by
  have hy' : ⟨key, y.1⟩ ∈ contexts y.2 := (hmem y).mp hy
  refine ⟨?_, ne_nil_of_mem hy'⟩
  intro heq
  rw [heq] at hy'
  exact hkey (mem_keys.mpr ⟨y.1, hy'⟩)

/-- The local counter of the task that is locking has room for one more. -/
theorem SysInv.local_lt (h : SysInv contexts late queues (update counts task n))
    (hshort : (contexts task).length + 1 < 2 ^ 32) : n + 1 < 2 ^ 32 := by
  have hcount := h.counts_eq task
  rw [update_self] at hcount
  have hle := waits_le queues task (contexts task)
  omega

/-- The next of the contexts that are left. -/
theorem next_context {before rest : List (LockContext Key)}
    (hnodup : ((before ++ c :: rest).map usageQueue).Nodup)
    (hshort : (before ++ c :: rest).length < 2 ^ 32) :
    c.usageQueue ∉ before.map usageQueue ∧ before.length + 1 < 2 ^ 32 := by
  rw [map_append, nodup_append] at hnodup
  rw [length_append, length_cons] at hshort
  exact ⟨fun hmem => hnodup.2.2 _ hmem _ mem_cons_self rfl, by omega⟩

variable {passed : List UsageFromTask}

/-- A task with counter zero is blocked nowhere. -/
theorem SysInv.not_blocked (h : SysInv contexts late queues counts)
    (hzero : counts t = 0) (hc : c ∈ contexts t) :
    (c.requestedUsage, t) ∉ blockedOf (queues c.usageQueue) := by
  rw [h.counts_eq, waits_eq_zero] at hzero
  exact hzero c hc

/-- Unlocking takes one usage from the queue. -/
theorem UnlockEffect.mem_iff
    (e : UnlockEffect current current' blocked blocked' x passed) (hx : x ∉ blocked)
    (y : UsageFromTask) :
    y ∈ holders current' ∨ y ∈ blocked' ↔ (y ∈ holders current ∨ y ∈ blocked) ∧ y ≠ x := by
  rw [e.mem_holders, e.mem_blocked]
  constructor
  · -- What is passed on was blocked, and what left was not.
    rintro ((hy | hy) | hy)
    · exact ⟨Or.inl hy.1, hy.2⟩
    · exact ⟨Or.inr (e.passed_blocked y hy), fun heq => hx (heq ▸ e.passed_blocked y hy)⟩
    · exact ⟨Or.inr hy.1, fun heq => hx (heq ▸ hy.1)⟩
  · rintro ⟨hy | hy, hne⟩
    · exact Or.inl (Or.inl ⟨hy, hne⟩)
    · by_cases hpassed : y ∈ passed
      · exact Or.inl (Or.inr hpassed)
      · exact Or.inr ⟨hy, hpassed⟩

variable [DecidableEq Key]

/-- How the effect of a lock shows in the queues that other tasks are blocked on. -/
theorem LockEffect.waits_eq
    (e : LockEffect counts counts' current current' blocked blocked' x granted back)
    (hq : queues key = .priority current blocked)
    (hmem : ∀ y, y ∈ holders current ∨ y ∈ blocked ↔ ⟨key, y.1⟩ ∈ contexts y.2)
    (hdisjoint : ∀ y ∈ holders current, y ∉ blocked) (ht : t ≠ x.2)
    (hnodup : ((contexts t).map usageQueue).Nodup) :
    waits (update queues key (.priority current' blocked')) t (contexts t) =
      waits queues t (contexts t) + if t ∈ back then 1 else 0 := by
  refine waits_moved hnodup (fun hback => ?_) fun hback u _ => ?_
  · -- The task held the queue and is blocked on it now.
    obtain ⟨⟨v, t'⟩, hy, rfl⟩ := e.back_holds t hback
    exact ⟨v, (hmem _).mp (Or.inl hy), fun hy' => hdisjoint _ hy ((mem_blockedOf hq).mp hy'),
      (e.mem_blocked _).mpr (Or.inr (Or.inl ⟨hy, hback⟩))⟩
  · rw [mem_blockedOf hq]
    refine (e.mem_blocked _).trans ⟨?_, Or.inl⟩
    rintro (hy | ⟨-, hy⟩ | ⟨-, hy⟩)
    · exact hy
    · exact absurd hy hback
    · exact absurd (congrArg Prod.snd hy) ht

/-- The task that locks is blocked on the queue unless it was granted. -/
theorem LockEffect.waits_self
    (e : LockEffect counts counts' current current' blocked blocked' (c.requestedUsage, task)
      granted back)
    (hblocked : (c.requestedUsage, task) ∉ blocked) (hback : task ∉ back)
    (hc : c.usageQueue ∉ (contexts task).map usageQueue) :
    waits (update queues c.usageQueue (.priority current' blocked')) task (contexts task ++ [c]) =
      if granted then waits queues task (contexts task)
      else waits queues task (contexts task) + 1 := by
  have hiff : (c.requestedUsage, task) ∈ blockedOf
      (update queues c.usageQueue (.priority current' blocked') c.usageQueue) ↔
      granted = false := by
    rw [update_self]
    refine (e.mem_blocked _).trans ⟨?_, fun hgranted => Or.inr (Or.inr ⟨hgranted, rfl⟩)⟩
    rintro (hy | hy | hy)
    · exact absurd hy hblocked
    · exact absurd hy.2 hback
    · exact hy.1
  rw [waits_append, waits_update_of_not_mem _ hc]
  simp only [waits, countP_cons, countP_nil, decide_eq_true_eq, hiff]
  cases granted <;> rfl

/-- One queue changes, and the usages of the others are the same. -/
theorem SysInv.queue_update (h : SysInv contexts late queues counts)
    {contexts' : Task → List (LockContext Key)} (hinv : QueueInv late current' blocked')
    (hmem : ∀ x, x ∈ holders current' ∨ x ∈ blocked' ↔ ⟨key, x.1⟩ ∈ contexts' x.2)
    (hother : ∀ t (d : LockContext Key), d.usageQueue ≠ key → (d ∈ contexts' t ↔ d ∈ contexts t))
    (key' : Key) :
    ∃ current blocked, update queues key (.priority current' blocked') key' =
        .priority current blocked ∧ QueueInv late current blocked ∧
      ∀ x, x ∈ holders current ∨ x ∈ blocked ↔ ⟨key', x.1⟩ ∈ contexts' x.2 := by
  by_cases hkey : key' = key
  · subst hkey
    exact ⟨current', blocked', update_self .., hinv, hmem⟩
  · obtain ⟨current, blocked, hq, hinv, hmem⟩ := h.queue key'
    refine ⟨current, blocked, (update_of_ne hkey _ _).trans hq, hinv, fun x => ?_⟩
    rw [hmem, hother x.2 ⟨key', x.1⟩ hkey]

section Lock

variable (h : SysInv contexts late queues (update counts task n))
  (hids : ∀ t, t ≠ task → contexts t ≠ [] → (tasks t).taskId ≠ (tasks task).taskId)
  (hids' : ∀ t t', t ≠ task → t' ≠ task → contexts t ≠ [] → contexts t' ≠ [] →
    (tasks t).taskId = (tasks t').taskId → t = t')
  (hlate : ∀ t, t ≠ task → contexts t ≠ [] → (tasks task).taskId < (tasks t).taskId →
    (late t ↔ counts t ≠ 0))
include h hids hids' hlate

omit [DecidableEq Key] in
/-- The task comes to a queue that it has not requested yet. No other task of this queue is
`task`, so its counter is the one in `counts`. -/
theorem SysInv.arrives (hq : queues key = .priority current blocked)
    (hinv : QueueInv late current blocked)
    (hmem : ∀ x, x ∈ holders current ∨ x ∈ blocked ↔ ⟨key, x.1⟩ ∈ contexts x.2)
    (hkey : key ∉ (contexts task).map usageQueue)
    (hshort : (contexts task).length + 1 < 2 ^ 32) :
    Arrives late counts current blocked n task := by
  have hused : ∀ y, y ∈ holders current ∨ y ∈ blocked → y.2 ≠ task ∧ contexts y.2 ≠ [] :=
    fun _ => used_of_not_mem hmem hkey
  refine ⟨hinv, ?_, ?_, ?_, ?_, h.local_lt hshort⟩
  · intro y hy
    exact hids y.2 (hused y hy).1 (hused y hy).2
  · intro y hy z hz heq
    have hy' := hused y (Or.inl hy)
    have hz' := hused z (Or.inr hz)
    have hsame : z = y := h.usage_eq ((hmem z).mp (Or.inr hz)) ((hmem y).mp (Or.inl hy))
      (hids' z.2 y.2 hz'.1 hy'.1 hz'.2 hy'.2 heq)
    subst hsame
    exact hinv.orderly.disjoint z hy hz
  · intro y hy
    exact hlate y.2 (hused y (Or.inl hy)).1 (hused y (Or.inl hy)).2
  · intro y hy
    -- A holder is not blocked on this queue, so its counter has room for it.
    have hfree : y ∉ blockedOf (queues key) := fun hy' =>
      hinv.orderly.disjoint y hy ((mem_blockedOf hq).mp hy')
    have hlt := lt_of_le_of_ne (waits_le queues y.2 (contexts y.2)) fun heq => hfree
      (of_decide_eq_true (countP_eq_length.mp heq _ ((hmem y).mp (Or.inl hy))))
    have hlen := h.short y.2
    have hcount := h.counts_eq y.2
    rw [update_of_ne (hused y (Or.inl hy)).1] at hcount
    omega

/-- The task locks one more queue. The counter of the task itself is still in the local
`n`, and it counts as late. -/
theorem SysInv.lock (hc : c.usageQueue ∉ (contexts task).map usageQueue)
    (hshort : (contexts task).length + 1 < 2 ^ 32) :
    ∃ counts' queue' n', lockUsageQueue counts (queues c.usageQueue) n task c.requestedUsage =
        .ok (counts', queue', n') ∧
      SysInv (addContext contexts task c) late (update queues c.usageQueue queue')
        (update counts' task n') ∧
      (∀ t, counts' t ≠ 0 ↔ counts t ≠ 0) ∧ counts' task = counts task := by
  obtain ⟨current, blocked, hq, hinv, hmem⟩ := h.queue c.usageQueue
  obtain ⟨counts', current', blocked', granted, back, hrun, heffect, hinv'⟩ :=
    lockUsageQueue_spec (u := c.requestedUsage) (h.arrives hids hids' hlate hq hinv hmem hc hshort)
  have hother : ∀ y, y ∈ holders current ∨ y ∈ blocked → y.2 ≠ task :=
    fun _ hy => (used_of_not_mem hmem hc hy).1
  have hback : task ∉ back := by
    intro hback
    obtain ⟨y, hy, heq⟩ := heffect.back_holds task hback
    exact hother y (Or.inl hy) heq
  refine ⟨counts', .priority current' blocked', if granted then n else n + 1, ?_,
    ⟨?_, ?_, h.queue_update hinv' (fun x => ?_) fun _ _ => mem_addContext_of_ne, ?_⟩, ?_, ?_⟩
  · rw [hq]
    exact hrun
  · refine forall_update (P := fun l => (l.map usageQueue).Nodup) h.nodup ?_
    rw [map_append, nodup_append]
    refine ⟨h.nodup task, by simp, ?_⟩
    intro a ha b hb heq
    rw [mem_singleton.mp hb] at heq
    exact hc (heq ▸ ha)
  · refine forall_update (P := fun l => l.length < 2 ^ 32) h.short ?_
    rw [length_append]
    exact hshort
  · rw [mem_addContext, ← hmem, heffect.mem_iff]
  · intro t
    have hcount := h.counts_eq t
    by_cases ht : t = task
    · subst ht
      rw [update_self] at hcount
      rw [update_self, addContext, update_self, hcount,
        heffect.waits_self (fun hy => hother _ (Or.inr hy) rfl) hback hc]
    · rw [update_of_ne ht] at hcount
      rw [update_of_ne ht, addContext, update_of_ne ht, heffect.counts_eq, hcount]
      exact (heffect.waits_eq hq hmem hinv.orderly.disjoint ht (h.nodup t)).symm
  · intro t
    rw [heffect.counts_eq]
    by_cases hback : t ∈ back
    · simp [hback, heffect.back_late t hback]
    · simp [hback]
  · rw [heffect.counts_eq, if_neg hback, Nat.add_zero]

/-- `try_lock_usage_queues` up to the end of its loop. -/
theorem lockContexts_spec (rest : List (LockContext Key))
    (hnodup : ((contexts task ++ rest).map usageQueue).Nodup)
    (hshort : (contexts task ++ rest).length < 2 ^ 32) :
    ∃ queues' counts' n', lockContexts task rest queues counts n = .ok (queues', counts', n') ∧
      SysInv (update contexts task (contexts task ++ rest)) late queues' (update counts' task n') ∧
      (∀ t, counts' t ≠ 0 ↔ counts t ≠ 0) ∧ counts' task = counts task := by
  -- Induction on the contexts that are left; `contexts task` has those already locked.
  induction rest generalizing contexts queues counts n with
  | nil =>
    refine ⟨queues, counts, n, rfl, ?_, fun _ => Iff.rfl, rfl⟩
    rwa [append_nil, update_eq_self]
  | cons c rest ih =>
    obtain ⟨hc, hlen⟩ := next_context hnodup hshort
    obtain ⟨counts₁, queue₁, n₁, hrun₁, hinv₁, hzero₁, htask₁⟩ := h.lock hids hids' hlate hc hlen
    have hself : addContext contexts task c task = contexts task ++ [c] := update_self ..
    have hother : ∀ t, t ≠ task → addContext contexts task c t = contexts t := fun t ht =>
      update_of_ne ht _ _
    have happend : contexts task ++ [c] ++ rest = contexts task ++ c :: rest := by simp
    rcases ih hinv₁ (fun t ht hne => hids t ht (hother t ht ▸ hne))
      (fun t t' ht ht' hne hne' => hids' t t' ht ht' (hother t ht ▸ hne) (hother t' ht' ▸ hne'))
      (fun t ht hne hlt => (hlate t ht (hother t ht ▸ hne) hlt).trans (hzero₁ t).symm)
      (by rwa [hself, happend]) (by rwa [hself, happend]) with
      ⟨queues', counts', n', hrun, hinv, hzero, htask⟩
    refine ⟨queues', counts', n', ?_, ?_, fun t => (hzero t).trans (hzero₁ t), htask.trans htask₁⟩
    · rw [lockContexts, hrun₁]
      exact hrun
    · rwa [hself, happend, addContext, update_idem] at hinv

end Lock

/-- How the effect of an unlock shows in the queues that other tasks are blocked on. -/
theorem UnlockEffect.waits_eq (e : UnlockEffect current current' blocked blocked' x passed)
    (hq : queues key = .priority current blocked)
    (hmem : ∀ y, y ∈ holders current ∨ y ∈ blocked ↔ ⟨key, y.1⟩ ∈ contexts y.2)
    (hnodup : ((contexts t).map usageQueue).Nodup) :
    waits (update queues key (.priority current' blocked')) t (contexts t) +
      (if t ∈ passed.map Prod.snd then 1 else 0) = waits queues t (contexts t) := by
  -- Backwards: without the unlock the tasks that were let in are blocked once more.
  have hback : update (update queues key (.priority current' blocked')) key (queues key) =
      queues := by
    rw [update_idem, update_eq_self]
  conv_rhs => rw [← hback]
  refine (waits_moved hnodup (fun hpassed => ?_) fun hpassed u _ => ?_).symm <;> rw [update_self]
  · obtain ⟨⟨v, t'⟩, hy, rfl⟩ := mem_map.mp hpassed
    have hblocked := e.passed_blocked _ hy
    exact ⟨v, (hmem _).mp (Or.inr hblocked), fun hy' => ((e.mem_blocked _).mp hy').2 hy,
      (mem_blockedOf hq).mpr hblocked⟩
  · rw [mem_blockedOf hq]
    exact ((e.mem_blocked _).trans (and_iff_left fun hy => hpassed (mem_map_of_mem hy))).symm

variable {rest : List (LockContext Key)}

/-- A task that is not blocked unlocks one of its queues. -/
theorem SysInv.unlock (h : SysInv contexts late queues counts) (hctx : contexts task = c :: rest)
    (hzero : counts task = 0) (unblocked : List Task) :
    ∃ counts' queue' newly,
      unlockUsageQueue counts (queues c.usageQueue) unblocked task c.requestedUsage =
        .ok (counts', queue', unblocked ++ newly) ∧
      SysInv (update contexts task rest) late (update queues c.usageQueue queue') counts' ∧
      newly.Nodup ∧ (∀ t, t ∈ newly ↔ counts t ≠ 0 ∧ counts' t = 0) ∧
      (∀ t, counts' t ≤ counts t) ∧ counts' task = 0 := by
  obtain ⟨current, blocked, hq, hinv, hmem⟩ := h.queue c.usageQueue
  have hc : c ∈ contexts task := by
    rw [hctx]
    exact mem_cons_self
  have hkeys := h.nodup task
  rw [hctx, map_cons, nodup_cons] at hkeys
  have hcount : ∀ y ∈ blocked, counts y.2 ≠ 0 := by
    intro y hy hzero
    exact h.not_blocked hzero ((hmem y).mp (Or.inr hy)) ((mem_blockedOf hq).mpr hy)
  have hfree : ∀ u, (u, task) ∉ blocked := fun u hu => hcount _ hu hzero
  -- The task uses the queue and is not blocked on it, so it holds it.
  have hx : (c.requestedUsage, task) ∈ holders current := ((hmem _).mpr hc).resolve_right (hfree _)
  rcases unlockUsageQueue_spec unblocked hinv hx hcount with
    ⟨current', blocked', passed, hrun, heffect, hinv'⟩
  have hnotPassed : task ∉ passed.map Prod.snd := by
    intro hpassed
    obtain ⟨⟨u, t⟩, hy, heq⟩ := mem_map.mp hpassed
    have ht : t = task := heq
    subst ht
    exact hfree u (heffect.passed_blocked _ hy)
  have hpassedCount : ∀ t ∈ passed.map Prod.snd, counts t ≠ 0 := by
    intro t ht
    obtain ⟨y, hy, rfl⟩ := mem_map.mp ht
    exact hcount y (heffect.passed_blocked y hy)
  refine ⟨unblockAll counts passed, .priority current' blocked', runnableOf counts passed, ?_,
    ⟨?_, ?_, h.queue_update hinv' (fun x => ?_) fun t d hne => ?_, ?_⟩, heffect.nodup.filter _,
    ?_, ?_, ?_⟩
  · rw [hq]
    exact hrun
  · exact forall_update (P := fun l => (l.map usageQueue).Nodup) h.nodup hkeys.2
  · have hlen := h.short task
    rw [hctx, length_cons] at hlen
    exact forall_update (P := fun l => l.length < 2 ^ 32) h.short (Nat.lt_of_succ_lt hlen)
  · rw [heffect.mem_iff (hfree _), hmem]
    obtain ⟨u, t⟩ := x
    by_cases ht : t = task
    · subst ht
      rw [update_self, hctx]
      constructor
      · rintro ⟨hu, hne⟩
        rcases mem_cons.mp hu with heq | hu
        · exact absurd (congrArg (fun d : LockContext Key => (d.requestedUsage, t)) heq) hne
        · exact hu
      · intro hu
        exact absurd (mem_keys.mpr ⟨u, hu⟩) hkeys.1
    · rw [update_of_ne ht]
      exact and_iff_left fun heq => ht (congrArg Prod.snd heq)
  · by_cases ht : t = task
    · rw [ht, update_self, hctx, mem_cons, or_iff_right]
      rintro rfl
      exact hne rfl
    · rw [update_of_ne ht]
  · intro t
    by_cases ht : t = task
    · subst ht
      have hwaits := h.counts_eq t
      rw [hzero, hctx, ← singleton_append, waits_append] at hwaits
      rw [unblockAll, if_neg hnotPassed, update_self, waits_update_of_not_mem _ hkeys.1, hzero]
      omega
    · have hwaits := heffect.waits_eq hq hmem (h.nodup t)
      rw [update_of_ne ht, unblockAll]
      have hold := h.counts_eq t
      split_ifs at hwaits ⊢ <;> omega
  · intro t
    rw [runnableOf, mem_filter, decide_eq_true_eq, unblockAll]
    by_cases ht : t ∈ passed.map Prod.snd
    · simp only [ht, true_and, if_true]
      omega
    · simp only [ht, false_and, if_false, false_iff, not_and]
      exact fun hne => hne
  · intro t
    rw [unblockAll]
    split_ifs <;> omega
  · rw [unblockAll, if_neg hnotPassed, hzero]

/-- `unlock_usage_queues`. -/
theorem unlockContexts_spec (h : SysInv contexts late queues counts)
    (hctx : contexts task = rest) (hzero : counts task = 0) (unblocked : List Task) :
    ∃ queues' counts' newly,
      unlockContexts task rest queues counts unblocked =
          .ok (queues', counts', unblocked ++ newly) ∧
      SysInv (update contexts task []) late queues' counts' ∧
      newly.Nodup ∧ (∀ t, t ∈ newly ↔ counts t ≠ 0 ∧ counts' t = 0) ∧
      (∀ t, counts' t ≤ counts t) ∧ counts' task = 0 := by
  induction rest generalizing contexts queues counts unblocked with
  | nil =>
    refine ⟨queues, counts, [], ?_, ?_, nodup_nil, ?_, fun _ => Nat.le_refl _, hzero⟩
    · rw [append_nil]
      rfl
    · rwa [← hctx, update_eq_self]
    · intro t
      simp
  | cons c rest ih =>
    rcases h.unlock hctx hzero unblocked with
      ⟨counts₁, queue₁, newly₁, hrun₁, hinv₁, hnodup₁, hnewly₁, hle₁, hzero₁⟩
    rcases ih hinv₁ (update_self ..) hzero₁ (unblocked ++ newly₁) with
      ⟨queues', counts', newly, hrun, hinv, hnodup, hnewly, hle, hzero'⟩
    refine ⟨queues', counts', newly₁ ++ newly, ?_, ?_, ?_, ?_, fun t => (hle t).trans (hle₁ t),
      hzero'⟩
    · rw [unlockContexts, hrun₁, ← append_assoc]
      exact hrun
    · rwa [update_idem] at hinv
    · rw [nodup_append]
      refine ⟨hnodup₁, hnodup, ?_⟩
      intro a ha b hb heq
      subst heq
      exact ((hnewly a).mp hb).1 ((hnewly₁ a).mp ha).2
    · intro t
      have hle' := hle t
      have hle₁' := hle₁ t
      rw [mem_append, hnewly₁, hnewly]
      omega

end Salsa.Unified
