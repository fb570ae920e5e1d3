import Salsa.Lib.LockQueue
import Salsa.Unified.Machine

/-!
# Salsa.Unified.QueueSpec — one priority queue under locks and unlocks

A priority queue as an orderly lock: the tasks of the current usage hold it, the
blocked usages wait.
-/

namespace Salsa.Unified

open LockQueue List UsageQueueInner KeyedMap PriorityUsage Function

variable {Key Id : Type} [LinearOrder Id] {tasks : Task → TaskInner Key Id}

@[simp] theorem ok_bind {α β : Type} (a : α) (f : α → Except Panic β) :
    (Except.ok a >>= f) = f a := rfl

@[simp] theorem pure_eq_ok {α : Type} (a : α) : (pure a : Except Panic α) = .ok a := rfl

theorem increment_of_lt {panic : Panic} {count : ℕ} (h : count + 1 < 2 ^ 32) :
    ShortCounter.increment panic count = .ok (count + 1) :=
  if_pos h

theorem decrement_of_pos {panic : Panic} {count : ℕ} (h : 0 < count) :
    ShortCounter.decrement panic count = .ok (count - 1) :=
  if_neg (Nat.ne_of_gt h)

/-- The usages that hold a queue. -/
def holders : Option (PriorityUsage tasks) → List UsageFromTask
  | none => []
  | some (.readonly current) => current.toList.map fun task => (.readonly, task)
  | some (.writable task) => [(.writable, task)]

/-- Two usages of one queue exclude each other. -/
def Clash (x y : UsageFromTask) : Prop := x.1 = .writable ∨ y.1 = .writable

theorem Clash.symm {x y : UsageFromTask} (h : Clash x y) : Clash y x := Or.symm h

theorem not_clash_readonly {a b : Task} : ¬ Clash (.readonly, a) (.readonly, b) := by
  rintro (h | h) <;> cases h

variable (tasks) in
def idOf (x : UsageFromTask) : Id := (tasks x.2).taskId

/-- A priority queue that is orderly; `late` tasks are blocked somewhere. -/
structure QueueInv (late : Task → Prop) (current : Option (PriorityUsage tasks))
    (blocked : PriorityUsageQueue tasks) : Prop where
  filled : ∀ readers, current = some (.readonly readers) → ∃ task, task ∈ readers
  orderly : Orderly (idOf tasks) Clash (fun x => late x.2) {x | x ∈ holders current}
    {x | x ∈ blocked}

variable {x : UsageFromTask}

@[simp] theorem not_mem_holders_none : x ∉ holders (none : Option (PriorityUsage tasks)) :=
  not_mem_nil

@[simp] theorem mem_holders_readonly {readers : TaskMap tasks} :
    x ∈ holders (some (.readonly readers)) ↔ x.1 = .readonly ∧ x.2 ∈ readers := by
  obtain ⟨u, task⟩ := x
  rw [holders, mem_map]
  constructor
  · rintro ⟨t, ht, heq⟩
    cases heq
    exact ⟨rfl, ht⟩
  · rintro ⟨rfl, ht⟩
    exact ⟨task, ht, rfl⟩

variable {task : Task} {u : RequestedUsage}

@[simp] theorem mem_holders_writable :
    x ∈ holders (some (.writable task) : Option (PriorityUsage tasks)) ↔ x = (.writable, task) :=
  mem_singleton

@[simp] theorem mem_holders_ofTask :
    x ∈ holders (some (ofTask tasks task u)) ↔ x = (u, task) := by
  cases u with
  | readonly =>
    obtain ⟨v, t⟩ := x
    simp [ofTask]
  | writable => exact mem_holders_writable

variable {late : Task → Prop}

/-- A new queue. -/
theorem queueInv_empty : QueueInv late (none : Option (PriorityUsage tasks)) .empty where
  filled _ heq := absurd heq.symm (Option.some_ne_none _)
  orderly :=
    { disjoint := forall_mem_nil _
      exclusive := forall_mem_nil _
      blocked := forall_mem_nil _
      ordered := forall_mem_nil _ }

variable {current : Option (PriorityUsage tasks)} {blocked : PriorityUsageQueue tasks}
  {l : List UsageFromTask} {blocked' : PriorityUsageQueue tasks}

theorem mem_of_first (hx : blocked.toList = x :: l) : x ∈ blocked := by
  rw [mem_iff, hx]
  exact mem_cons_self

/-- The first blocked usage has the smallest id. -/
theorem le_of_first {x w : UsageFromTask} (hx : blocked.toList = x :: l) (hw : w ∈ blocked) :
    idOf tasks x ≤ idOf tasks w := by
  have hsorted := blocked.sorted
  have hw' : w ∈ blocked.toList := hw
  rw [hx] at hsorted hw'
  rcases mem_cons.mp hw' with rfl | hw'
  · exact le_refl _
  · exact le_of_lt ((pairwise_cons.mp hsorted).1 w hw')

/-- Somebody holds the queue against the first blocked usage. -/
theorem QueueInv.first (h : QueueInv late current blocked)
    (hx : blocked.toList = x :: l) : ∃ y ∈ holders current, Clash y x := by
  rcases h.orderly.blocked x (mem_of_first hx) with ⟨y, hclash, hy | ⟨hy, hlt⟩⟩
  · exact ⟨y, hy, hclash⟩
  · exact absurd hlt (not_lt_of_ge (le_of_first hx hy))

theorem QueueInv.blocked_eq_nil (h : QueueInv late none blocked) : blocked.toList = [] := by
  cases hx : blocked.toList with
  | nil => rfl
  | cons x l =>
    obtain ⟨y, hy, -⟩ := h.first hx
    exact absurd hy not_mem_holders_none

theorem QueueInv.first_writable {readers : TaskMap tasks}
    (h : QueueInv late (some (.readonly readers)) blocked) (hx : blocked.toList = x :: l) :
    x.1 = .writable := by
  rcases h.first hx with ⟨y, hy, hy' | hx'⟩
  · rw [(mem_holders_readonly.mp hy).1] at hy'
    cases hy'
  · exact hx'

/-! ## Locking -/

/-- What a lock attempt by `x` does: `back` are the holders that are put back among the
blocked, and `x` joins the holders or the blocked. -/
structure LockEffect (counts counts' : Counts) (current current' : Option (PriorityUsage tasks))
    (blocked blocked' : PriorityUsageQueue tasks) (x : UsageFromTask) (granted : Bool)
    (back : List Task) : Prop where
  back_holds : ∀ t ∈ back, ∃ y ∈ holders current, y.2 = t
  back_late : ∀ t ∈ back, counts t ≠ 0
  counts_eq : ∀ t, counts' t = counts t + if t ∈ back then 1 else 0
  mem_holders : ∀ y, y ∈ holders current' ↔
    y ∈ holders current ∧ y.2 ∉ back ∨ granted = true ∧ y = x
  mem_blocked : ∀ y, y ∈ blocked' ↔
    y ∈ blocked ∨ y ∈ holders current ∧ y.2 ∈ back ∨ granted = false ∧ y = x

section Effect

variable {counts counts' : Counts} {current' : Option (PriorityUsage tasks)} {back : List Task}

section

variable (h : QueueInv late current blocked)
  (hfilled : ∀ readers, current' = some (.readonly readers) → ∃ task, task ∈ readers)
  (hlate : ∀ t ∈ back, late t)
include h hfilled hlate

/-- The queue stays orderly when the new usage is granted. -/
theorem LockEffect.inv_of_granted
    (e : LockEffect counts counts' current current' blocked blocked' x true back)
    (hx : ∀ y, y ∈ holders current ∨ y ∈ blocked → idOf tasks y ≠ idOf tasks x)
    (hclear : ∀ y ∈ holders current, y.2 ∉ back → ¬ Clash x y)
    (hclash : ∀ y ∈ holders current, y.2 ∈ back → Clash x y)
    (hfirst : ∀ y, y ∈ blocked ∨ y ∈ holders current ∧ y.2 ∈ back → Clash x y →
      idOf tasks x < idOf tasks y) : QueueInv late current' blocked' := by
  refine ⟨hfilled, ?_⟩
  have hH : {y | y ∈ holders current'} =
      insert x ({y | y ∈ holders current} \ {y | y ∈ holders current ∧ y.2 ∈ back}) := by
    ext y
    simp only [Set.mem_ofPred_eq, e.mem_holders y, Set.mem_insert_iff, Set.mem_sdiff, not_and,
      true_and]
    constructor
    · rintro (hy | rfl)
      · exact Or.inr ⟨hy.1, fun _ => hy.2⟩
      · exact Or.inl rfl
    · rintro (rfl | hy)
      · exact Or.inr rfl
      · exact Or.inl ⟨hy.1, hy.2 hy.1⟩
  have hB : {y | y ∈ blocked'} = {y | y ∈ blocked} ∪ {y | y ∈ holders current ∧ y.2 ∈ back} := by
    ext y
    simp [e.mem_blocked y]
  rw [hH, hB]
  refine h.orderly.grant (fun _ _ => Clash.symm) ?_ ?_ ?_ ?_ ?_ ?_ ?_
  · intro hmem
    exact hx x (Or.inr hmem) rfl
  · intro hmem
    exact hx x (Or.inl hmem.1) rfl
  · intro y hy
    exact hy.1
  · intro y hy
    exact hlate y.2 hy.2
  · intro y hy
    exact hclear y hy.1 fun hmem => hy.2 ⟨hy.1, hmem⟩
  · intro y hy
    exact hclash y hy.1 hy.2
  · intro y hy
    exact hfirst y hy

/-- The queue stays orderly when the new usage is blocked. -/
theorem LockEffect.inv_of_blocked
    (e : LockEffect counts counts' current current' blocked blocked' x false back)
    (hx : ∀ y, y ∈ holders current ∨ y ∈ blocked → idOf tasks y ≠ idOf tasks x)
    (hbehind : ∀ y ∈ holders current, y.2 ∈ back → Clash x y ∧ idOf tasks x < idOf tasks y)
    (hblocked : ∃ y, Clash y x ∧ (y ∈ holders current ∧ y.2 ∉ back ∨
      y ∈ blocked ∧ idOf tasks y < idOf tasks x))
    (hordered : ∀ y ∈ holders current, y.2 ∉ back → late y.2 → Clash y x →
      idOf tasks y < idOf tasks x) : QueueInv late current' blocked' := by
  refine ⟨hfilled, ?_⟩
  have hH : {y | y ∈ holders current'} =
      {y | y ∈ holders current} \ {y | y ∈ holders current ∧ y.2 ∈ back} := by
    ext y
    simp only [Set.mem_ofPred_eq, e.mem_holders y, Set.mem_sdiff, not_and, Bool.false_eq_true,
      false_and, or_false]
    exact and_congr_right fun hy => ⟨fun hnot _ => hnot, fun hnot => hnot hy⟩
  have hB : {y | y ∈ blocked'} =
      insert x ({y | y ∈ blocked} ∪ {y | y ∈ holders current ∧ y.2 ∈ back}) := by
    ext y
    simp only [Set.mem_ofPred_eq, e.mem_blocked y, Set.mem_insert_iff, Set.mem_union, true_and]
    rw [← or_assoc, or_comm]
  rw [hH, hB]
  refine h.orderly.wait ?_ ?_ ?_ ?_ ?_ ?_
  · intro hmem
    exact hx x (Or.inl hmem) rfl
  · intro y hy
    exact hy.1
  · intro y hy
    exact hlate y.2 hy.2
  · intro y hy
    exact hbehind y hy.1 hy.2
  · rcases hblocked with ⟨y, hy, ⟨hmem, hnot⟩ | hmem⟩
    · exact ⟨y, hy, Or.inl ⟨hmem, fun hback => hnot hback.2⟩⟩
    · exact ⟨y, hy, Or.inr hmem⟩
  · intro y hy
    exact hordered y hy.1 fun hback => hy.2 ⟨hy.1, hback⟩

end

/-- No holder is put back. -/
theorem LockEffect.of_stay {granted : Bool}
    (hholders : ∀ y, y ∈ holders current' ↔ y ∈ holders current ∨ granted = true ∧ y = x)
    (hblocked : ∀ y, y ∈ blocked' ↔ y ∈ blocked ∨ granted = false ∧ y = x) :
    LockEffect counts counts current current' blocked blocked' x granted [] where
  back_holds := forall_mem_nil _
  back_late := forall_mem_nil _
  counts_eq t := by simp
  mem_holders y := by simp [hholders]
  mem_blocked y := by simp [hblocked]

end Effect

theorem isHigherPriority_of_ne {task other : Task}
    (h : (tasks other).taskId ≠ (tasks task).taskId) :
    isHigherPriority tasks task other =
      .ok (decide ((tasks task).taskId < (tasks other).taskId)) := by
  unfold isHigherPriority
  split_ifs with hlt hgt
  · rw [decide_eq_true hlt]
  · rw [decide_eq_false hlt]
  · exact absurd (le_antisymm (not_lt.mp hlt) (not_lt.mp hgt)) h

variable {counts : Counts}

theorem tryReblock_of_lt (h : counts task + 1 < 2 ^ 32) :
    tryReblock counts task = .ok (decide (counts task ≠ 0),
      fun t => counts t + if t = task ∧ counts task ≠ 0 then 1 else 0) := by
  unfold tryReblock
  split_ifs with hzero
  · simp [hzero]
  · rw [increment_of_lt h]
    simp only [ok_bind, pure_eq_ok, ne_eq, hzero, not_false_eq_true, and_true, decide_true]
    congr 2
    funext t
    by_cases ht : t = task
    · subst ht
      simp
    · simp [ht]

theorem reblockAll_of_lt {l : List Task} (hnodup : l.Nodup) (h : ∀ t ∈ l, counts t + 1 < 2 ^ 32) :
    reblockAll counts l = .ok (l.filter fun t => counts t ≠ 0,
      fun t => counts t + if t ∈ l.filter (fun t => counts t ≠ 0) then 1 else 0) := by
  induction l generalizing counts with
  | nil => rfl
  | cons task rest ih =>
    obtain ⟨hnot, hrest⟩ := nodup_cons.mp hnodup
    have hsame : ∀ t ∈ rest,
        (counts t + if t = task ∧ counts task ≠ 0 then 1 else 0) = counts t := by
      intro t ht
      have hne : t ≠ task := fun heq => hnot (heq ▸ ht)
      simp [hne]
    have hfilter : rest.filter (fun t =>
        (counts t + if t = task ∧ counts task ≠ 0 then 1 else 0) ≠ 0) =
        rest.filter fun t => counts t ≠ 0 :=
      filter_congr fun t ht => by rw [hsame t ht]
    -- The counter of `task` does not matter to the rest, where it does not occur.
    have hrun := @ih (fun t => counts t + if t = task ∧ counts task ≠ 0 then 1 else 0)
      hrest fun t ht => by
        rw [hsame t ht]
        exact h t (mem_cons_of_mem _ ht)
    rw [reblockAll, tryReblock_of_lt (h task mem_cons_self), ok_bind]
    simp only [hrun, hfilter, ok_bind, pure_eq_ok]
    by_cases hzero : counts task = 0
    · simp [hzero]
    · simp only [hzero, ne_eq, not_false_eq_true, decide_true, if_true, and_true,
        filter_cons_of_pos, mem_cons]
      congr 2
      funext t
      by_cases ht : t = task
      · subst ht
        simp [hnot]
      · simp [ht]

theorem moveAll_spec {readers : TaskMap tasks} {l : List Task} (hnodup : l.Nodup)
    (hmem : ∀ t ∈ l, t ∈ readers) (hids : ∀ t ∈ l, ∀ y ∈ blocked, idOf tasks y ≠ (tasks t).taskId) :
    ∃ readers' blocked', moveAll readers blocked l = .ok (readers', blocked') ∧
      (∀ t, t ∈ readers' ↔ t ∈ readers ∧ t ∉ l) ∧
      ∀ y, y ∈ blocked' ↔ y ∈ blocked ∨ y.1 = .readonly ∧ y.2 ∈ l := by
  induction l generalizing readers blocked with
  | nil => exact ⟨readers, blocked, rfl, by simp, by simp⟩
  | cons task rest ih =>
    obtain ⟨hnot, hrest⟩ := nodup_cons.mp hnodup
    have htask : task ∈ readers := hmem task mem_cons_self
    obtain ⟨readers₁, hremove, hreaders₁, -⟩ := remove?_spec htask
    rcases insert?_spec (m := blocked) (a := (.readonly, task))
      (hids task mem_cons_self) with ⟨blocked₁, hinsert, hblocked₁⟩
    have hne : ∀ t ∈ rest, t ≠ task := fun t ht heq => hnot (heq ▸ ht)
    have hmem₁ : ∀ t ∈ rest, t ∈ readers₁ := by
      intro t ht
      exact (hreaders₁ t).mpr ⟨hmem t (mem_cons_of_mem _ ht), hne t ht⟩
    -- The reader that was moved has another id than those still to move.
    have hids₁ : ∀ t ∈ rest, ∀ y ∈ blocked₁, idOf tasks y ≠ (tasks t).taskId := by
      intro t ht y hy
      rcases (hblocked₁ y).mp hy with rfl | hy
      · intro heq
        exact hne t ht (eq_of_key (hmem t (mem_cons_of_mem _ ht)) htask heq.symm)
      · exact hids t (mem_cons_of_mem _ ht) y hy
    obtain ⟨readers', blocked', hrun, hreaders', hblocked'⟩ := ih hrest hmem₁ hids₁
    refine ⟨readers', blocked', ?_, fun t => ?_, fun y => ?_⟩
    · rw [moveAll, hremove]
      simp only [unwrap, ok_bind, hinsert]
      exact hrun
    · rw [hreaders', hreaders₁, mem_cons, not_or, and_assoc]
    · rw [hblocked', hblocked₁, mem_cons]
      obtain ⟨u, t⟩ := y
      rw [Prod.mk.injEq, and_or_left, or_comm (b := (u, t) ∈ blocked), or_assoc]

section Lock

variable {counts' : Counts} {queue : UsageQueueInner tasks} {n : ℕ} {usage : PriorityUsage tasks}

/-- When `prepare_lock` says no, the task is pushed to the blocked usages. -/
theorem lockUsageQueue_push (hprepare : queue.prepareLock counts task u =
      .ok (false, counts', .priority (some usage) blocked))
    (hinsert : blocked.insert? (u, task) = some blocked') (hn : n + 1 < 2 ^ 32) :
    lockUsageQueue counts queue n task u =
      .ok (counts', .priority (some usage) blocked', n + 1) := by
  rw [lockUsageQueue, hprepare, ok_bind]
  simp [increment_of_lt hn, pushBlocked, currentUsage, push, hinsert, unwrap]

theorem lockUsageQueue_refused (hprepare : queue.prepareLock counts task u =
      .ok (false, counts', .priority (some usage) blocked))
    (hx : ∀ y ∈ blocked, idOf tasks y ≠ (tasks task).taskId) (hn : n + 1 < 2 ^ 32) :
    ∃ blocked', lockUsageQueue counts queue n task u =
        .ok (counts', .priority (some usage) blocked', n + 1) ∧
      ∀ y, y ∈ blocked' ↔ y = (u, task) ∨ y ∈ blocked := by
  obtain ⟨blocked', hinsert, hmem⟩ := insert?_spec (m := blocked) (a := (u, task)) hx
  exact ⟨blocked', lockUsageQueue_push hprepare hinsert hn, hmem⟩

/-- When `prepare_lock` leaves the queue without a usage, the task takes it. -/
theorem lockUsageQueue_free
    (hprepare : queue.prepareLock counts task u = .ok (true, counts', .priority none blocked)) :
    lockUsageQueue counts queue n task u =
      .ok (counts', .priority (some (ofTask tasks task u)) blocked, n) := by
  rw [lockUsageQueue, hprepare]
  rfl

theorem filled_of_mem {readers : TaskMap tasks} (h : ∃ t, t ∈ readers) (readers' : TaskMap tasks)
    (heq : some (Usage.readonly readers : PriorityUsage tasks) = some (.readonly readers')) :
    ∃ t, t ∈ readers' := by
  cases heq
  exact h

theorem filled_ofTask (readers : TaskMap tasks)
    (h : some (ofTask tasks task u) = some (.readonly readers)) : ∃ t, t ∈ readers := by
  cases u with
  | readonly => exact filled_of_mem ⟨task, mem_single.mpr rfl⟩ readers h
  | writable => cases h

/-- A task comes to a queue. Holders of lower priority than the task matter only as far as they
are late, which is when their counter is not zero. -/
structure Arrives (late : Task → Prop) (counts : Counts) (current : Option (PriorityUsage tasks))
    (blocked : PriorityUsageQueue tasks) (n : ℕ) (task : Task) : Prop where
  inv : QueueInv late current blocked
  ne : ∀ y, y ∈ holders current ∨ y ∈ blocked → idOf tasks y ≠ (tasks task).taskId
  ids : ∀ y ∈ holders current, ∀ z ∈ blocked, idOf tasks z ≠ idOf tasks y
  late_iff : ∀ y ∈ holders current, (tasks task).taskId < idOf tasks y → (late y.2 ↔ counts y.2 ≠ 0)
  bound : ∀ y ∈ holders current, counts y.2 + 1 < 2 ^ 32
  room : n + 1 < 2 ^ 32

theorem Arrives.blocked_ne (h : Arrives late counts current blocked n task) :
    ∀ y ∈ blocked, idOf tasks y ≠ (tasks task).taskId :=
  fun y hy => h.ne y (Or.inr hy)

/-- What `lockUsageQueue_spec` says of one attempt. -/
def LockSpec (late : Task → Prop) (counts : Counts) (current : Option (PriorityUsage tasks))
    (blocked : PriorityUsageQueue tasks) (n : ℕ) (task : Task) (u : RequestedUsage) : Prop :=
  ∃ counts' current' blocked' granted back,
    lockUsageQueue counts (.priority current blocked) n task u =
      .ok (counts', .priority current' blocked', if granted then n else n + 1) ∧
    LockEffect counts counts' current current' blocked blocked' (u, task) granted back ∧
    QueueInv late current' blocked'

/-- Where `prepare_lock` says no at once, the task is blocked and the holders stay. -/
theorem Arrives.refused (h : Arrives late counts (some usage) blocked n task)
    (hprepare : (priority (some usage) blocked).prepareLock counts task u =
      .ok (false, counts, .priority (some usage) blocked))
    (hblocked : ∃ y, Clash y (u, task) ∧ (y ∈ holders (some usage) ∨
      y ∈ blocked ∧ idOf tasks y < (tasks task).taskId))
    (hordered : ∀ y ∈ holders (some usage), late y.2 → Clash y (u, task) →
      idOf tasks y < (tasks task).taskId) : LockSpec late counts (some usage) blocked n task u := by
  obtain ⟨blocked', hrun, hmem⟩ := lockUsageQueue_refused hprepare h.blocked_ne h.room
  have heffect : LockEffect counts counts (some usage) (some usage) blocked blocked' (u, task)
      false [] := by
    refine .of_stay (fun y => by simp) fun y => ?_
    simp [hmem, or_comm]
  refine ⟨_, _, _, false, [], hrun, heffect, heffect.inv_of_blocked h.inv h.inv.filled
    (forall_mem_nil _) h.ne (fun _ _ hy => absurd hy not_mem_nil) ?_
    fun y hy _ => hordered y hy⟩
  rcases hblocked with ⟨y, hclash, hy | hy⟩
  · exact ⟨y, hclash, Or.inl ⟨hy, not_mem_nil⟩⟩
  · exact ⟨y, hclash, Or.inr hy⟩

theorem lockSpec_none
    (h : QueueInv late none blocked) : LockSpec late counts none blocked n task u := by
  have hnil := h.blocked_eq_nil
  have hempty : ∀ y, y ∉ blocked := by
    intro y hy
    rw [mem_iff, hnil] at hy
    exact absurd hy not_mem_nil
  have hprepare : (priority none blocked).prepareLock counts task u =
      .ok (true, counts, .priority none blocked) := by
    simp [prepareLock, KeyedMap.isEmpty, hnil]
  have heffect : LockEffect counts counts none (some (ofTask tasks task u)) blocked
      blocked (u, task) true [] := by
    exact .of_stay (fun y => by simp) (fun y => by simp)
  refine ⟨_, _, _, true, [], lockUsageQueue_free hprepare, heffect, ?_⟩
  refine heffect.inv_of_granted h filled_ofTask (forall_mem_nil _) ?_ (forall_mem_nil _)
    (forall_mem_nil _) ?_
  · rintro y (hy | hy)
    · exact absurd hy not_mem_nil
    · exact absurd hy (hempty y)
  · rintro y (hy | hy)
    · exact absurd hy (hempty y)
    · exact absurd hy.1 not_mem_nil

theorem lockSpec_writable {holder : Task}
    (h : Arrives late counts (some (.writable holder)) blocked n task) :
    LockSpec late counts (some (.writable holder)) blocked n task u := by
  have hholds : (.writable, holder) ∈ holders (some (.writable holder) :
      Option (PriorityUsage tasks)) := mem_holders_writable.mpr rfl
  have hx : (tasks holder).taskId ≠ (tasks task).taskId := h.ne _ (Or.inl hholds)
  by_cases hback : (tasks task).taskId < (tasks holder).taskId ∧ counts holder ≠ 0
  · -- The holder is put back, and the task takes its place.
    rcases insert?_spec (m := blocked) (a := (.writable, holder)) (h.ids _ hholds) with
      ⟨blocked', hinsert, hmem⟩
    have hprepare : (priority (some (.writable holder)) blocked).prepareLock counts
        task u = .ok (true, fun t => counts t + if t = holder ∧ counts holder ≠ 0 then 1 else 0,
          .priority none blocked') := by
      simp [prepareLock, isHigherPriority_of_ne hx, decide_eq_true hback.1, tryReblock_of_lt
        (h.bound _ hholds), decide_eq_true hback.2, hinsert, unwrap]
    have heffect : LockEffect counts
        (fun t => counts t + if t = holder ∧ counts holder ≠ 0 then 1 else 0)
        (some (.writable holder)) (some (ofTask tasks task u)) blocked blocked'
        (u, task) true [holder] := by
      refine ⟨?_, ?_, ?_, ?_, ?_⟩
      · intro t ht
        exact ⟨(.writable, holder), by simp, (mem_singleton.mp ht).symm⟩
      · intro t ht
        rw [mem_singleton.mp ht]
        exact hback.2
      · intro t
        simp [hback.2]
      · intro y
        obtain ⟨v, t⟩ := y
        simp only [mem_holders_ofTask, mem_holders_writable, Prod.mk.injEq, mem_singleton, true_and]
        refine ⟨Or.inr, ?_⟩
        rintro (⟨⟨-, ht⟩, hnot⟩ | heq)
        · exact absurd ht hnot
        · exact heq
      · intro y
        obtain ⟨v, t⟩ := y
        simp only [hmem, mem_holders_writable, Prod.mk.injEq, mem_singleton,
          Bool.true_eq_false, false_and, or_false]
        rw [or_comm, and_iff_left_of_imp And.right]
    have hholder : late holder := (h.late_iff _ hholds hback.1).mpr hback.2
    refine ⟨_, _, _, true, [holder], lockUsageQueue_free hprepare, heffect, ?_⟩
    refine heffect.inv_of_granted h.inv filled_ofTask ?_ h.ne ?_ ?_ ?_
    · intro t ht
      rwa [mem_singleton.mp ht]
    · intro y hy hnot
      rw [mem_holders_writable.mp hy] at hnot
      exact absurd (mem_singleton.mpr rfl) hnot
    · intro y hy _
      rw [mem_holders_writable.mp hy]
      exact Or.inr rfl
    · rintro y (hy | ⟨hy, -⟩) _
      · have hlt : (tasks holder).taskId < idOf tasks y :=
          h.inv.orderly.ordered (.writable, holder) hholds hholder y hy (Or.inl rfl)
        exact hback.1.trans hlt
      · rw [mem_holders_writable.mp hy]
        exact hback.1
  · -- The holder comes first or may be running: the task is blocked.
    have hprepare : (priority (some (.writable holder)) blocked).prepareLock counts
        task u = .ok (false, counts, .priority (some (.writable holder)) blocked) := by
      simp only [prepareLock, isHigherPriority_of_ne hx, ok_bind]
      by_cases hlt : (tasks task).taskId < (tasks holder).taskId
      · have hzero : counts holder = 0 := not_not.mp fun hne => hback ⟨hlt, hne⟩
        simp [hlt, tryReblock, hzero]
      · simp [hlt]
    refine h.refused hprepare ⟨(.writable, holder), Or.inl rfl, Or.inl hholds⟩ fun y hy hy' _ => ?_
    rw [mem_holders_writable.mp hy] at hy' ⊢
    rcases lt_or_gt_of_ne hx with hlt | hgt
    · exact hlt
    · exact absurd ⟨hgt, (h.late_iff _ hholds hgt).mp hy'⟩ hback

variable {readers : TaskMap tasks}

/-- A reader goes on to join the readers when it comes before every blocked usage. -/
theorem prepareLock_readonly (counts : Counts)
    (h : QueueInv late (some (.readonly readers)) blocked)
    (hx : ∀ y ∈ blocked, idOf tasks y ≠ (tasks task).taskId) :
    (priority (some (.readonly readers)) blocked).prepareLock counts task .readonly =
      .ok (decide (∀ y ∈ blocked.toList, (tasks task).taskId < idOf tasks y), counts,
        .priority (some (.readonly readers)) blocked) := by
  simp only [prepareLock, peekBlocked, first?]
  cases hl : blocked.toList with
  | nil => simp
  | cons y l =>
    obtain ⟨v, t⟩ := y
    have hv : v = .writable := h.first_writable hl
    subst hv
    have hiff : (tasks task).taskId < (tasks t).taskId ↔
        ∀ y ∈ (RequestedUsage.writable, t) :: l, (tasks task).taskId < idOf tasks y := by
      constructor
      · intro hlt y hy
        rw [← hl] at hy
        exact lt_of_lt_of_le hlt (le_of_first hl hy)
      · intro hall
        exact hall (.writable, t) mem_cons_self
    have hne : (tasks t).taskId ≠ (tasks task).taskId := hx _ (mem_of_first hl)
    simp [isHigherPriority_of_ne hne, decide_eq_decide.mpr hiff]

variable (h : Arrives late counts (some (.readonly readers)) blocked n task)
include h

theorem Arrives.readers_ne :
    ∀ t ∈ readers, (tasks t).taskId ≠ (tasks task).taskId :=
  fun t ht => h.ne (.readonly, t) (Or.inl (mem_holders_readonly.mpr ⟨rfl, ht⟩))

theorem lockSpec_readonly :
    LockSpec late counts (some (.readonly readers)) blocked n task .readonly := by
  have hprepare := prepareLock_readonly counts h.inv h.blocked_ne
  -- The task is let in when no blocked usage comes before it.
  by_cases hfirst : ∀ y ∈ blocked.toList, (tasks task).taskId < idOf tasks y
  · rw [decide_eq_true hfirst] at hprepare
    obtain ⟨readers', hinsert, hmem⟩ := insert?_spec (m := readers) (a := task) h.readers_ne
    have hrun : lockUsageQueue counts (.priority (some (.readonly readers)) blocked) n task
        .readonly = .ok (counts, .priority (some (.readonly readers')) blocked, n) := by
      rw [lockUsageQueue, hprepare, ok_bind]
      simp [tryLock, hinsert, unwrap]
    have heffect : LockEffect counts counts (some (.readonly readers)) (some (.readonly readers'))
        blocked blocked (.readonly, task) true [] := by
      refine .of_stay (fun y => ?_) (fun y => by simp)
      obtain ⟨v, t⟩ := y
      simp only [mem_holders_readonly, hmem, true_and, Prod.mk.injEq]
      rw [and_or_left, or_comm]
    refine ⟨_, _, _, true, [], hrun, heffect, heffect.inv_of_granted h.inv ?_
      (forall_mem_nil _) h.ne ?_ (fun _ _ hy => absurd hy not_mem_nil) ?_⟩
    · exact filled_of_mem ⟨task, (hmem task).mpr (Or.inl rfl)⟩
    · rintro ⟨v, t⟩ hy _
      rw [show v = .readonly from (mem_holders_readonly.mp hy).1]
      exact not_clash_readonly
    · rintro y (hy | ⟨-, hy⟩) _
      · exact hfirst y hy
      · exact absurd hy not_mem_nil
  · rw [decide_eq_false hfirst] at hprepare
    refine h.refused hprepare ?_ ?_
    · -- The first blocked usage is a writer that comes before the task.
      rw [not_forall] at hfirst
      obtain ⟨y, hy⟩ := hfirst
      rw [Classical.not_imp, not_lt] at hy
      cases hl : blocked.toList with
      | nil =>
        rw [hl] at hy
        exact absurd hy.1 not_mem_nil
      | cons z l =>
        have hz := mem_of_first hl
        have hle : idOf tasks z ≤ (tasks task).taskId := (le_of_first hl hy.1).trans hy.2
        exact ⟨z, Or.inl (h.inv.first_writable hl),
          Or.inr ⟨hz, lt_of_le_of_ne hle (h.blocked_ne z hz)⟩⟩
    · rintro ⟨v, t⟩ hy _ hclash
      rw [show v = .readonly from (mem_holders_readonly.mp hy).1] at hclash
      exact absurd hclash not_clash_readonly

/-- The readers `back`, late and of lower priority than the task, are put back. -/
structure PutBack (counts : Counts) (readers readers' : TaskMap tasks)
    (blocked blocked' : PriorityUsageQueue tasks) (task : Task) (back : List Task) : Prop where
  mem : ∀ t, t ∈ back ↔ t ∈ readers ∧ (tasks task).taskId < (tasks t).taskId ∧ counts t ≠ 0
  mem_readers : ∀ t, t ∈ readers' ↔ t ∈ readers ∧ t ∉ back
  mem_blocked : ∀ y, y ∈ blocked' ↔ y ∈ blocked ∨ y.1 = .readonly ∧ y.2 ∈ back

/-- `prepare_lock` for a writer: the queue is free if no reader is left. -/
theorem Arrives.putBack :
    ∃ readers' blocked' back, PutBack counts readers readers' blocked blocked' task back ∧
      (priority (some (.readonly readers)) blocked).prepareLock counts task .writable =
        .ok (readers'.isEmpty, fun t => counts t + if t ∈ back then 1 else 0,
          .priority (if readers'.isEmpty then none else some (.readonly readers')) blocked') := by
  have hholds : ∀ t ∈ readers, (.readonly, t) ∈ holders (some (.readonly readers)) :=
    fun t ht => mem_holders_readonly.mpr ⟨rfl, ht⟩
  -- `back` are the readers that `try_reblock` gets back from.
  generalize hback : (readers.atLeast (tasks task).taskId).filter (fun t => counts t ≠ 0) = back
  have hmem : ∀ t, t ∈ back ↔
      t ∈ readers ∧ (tasks task).taskId < (tasks t).taskId ∧ counts t ≠ 0 := by
    intro t
    rw [← hback, mem_filter, mem_atLeast, decide_eq_true_eq, and_assoc]
    refine and_congr_right fun ht => and_congr_left fun _ => ?_
    exact ⟨fun hle => lt_of_le_of_ne hle (h.readers_ne t ht).symm, le_of_lt⟩
  have hnodup : (readers.atLeast (tasks task).taskId).Nodup := readers.nodup.filter _
  have hreblock : reblockAll counts (readers.atLeast (tasks task).taskId) =
      .ok (back, fun t => counts t + if t ∈ back then 1 else 0) := by
    rw [← hback]
    exact reblockAll_of_lt hnodup fun t ht => h.bound _ (hholds t (mem_atLeast.mp ht).1)
  obtain ⟨readers', blocked', hmove, hreaders', hblocked'⟩ := moveAll_spec (l := back)
    (hback ▸ hnodup.filter _) (fun t ht => ((hmem t).mp ht).1)
    fun t ht => h.ids _ (hholds t ((hmem t).mp ht).1)
  refine ⟨readers', blocked', back, ⟨hmem, hreaders', hblocked'⟩, ?_⟩
  cases hempty : readers'.isEmpty <;> simp [prepareLock, hreblock, hmove, hempty]

section

variable {readers' : TaskMap tasks} {back : List Task}
  (p : PutBack counts readers readers' blocked blocked' task back)
include p

omit h in
theorem PutBack.effect {current' : Option (PriorityUsage tasks)}
    {blocked₁ : PriorityUsageQueue tasks} {granted : Bool}
    (hholders : ∀ y, y ∈ holders current' ↔
      (y.1 = .readonly ∧ y.2 ∈ readers') ∨ granted = true ∧ y = x)
    (hblocked : ∀ y, y ∈ blocked₁ ↔ y ∈ blocked' ∨ granted = false ∧ y = x) :
    LockEffect counts (fun t => counts t + if t ∈ back then 1 else 0) (some (.readonly readers))
      current' blocked blocked₁ x granted back := by
  refine ⟨fun t ht => ?_, fun t ht => ((p.mem t).mp ht).2.2, fun _ => rfl, fun y => ?_, fun y => ?_⟩
  · exact ⟨(.readonly, t), mem_holders_readonly.mpr ⟨rfl, ((p.mem t).mp ht).1⟩, rfl⟩
  · rw [hholders, p.mem_readers, mem_holders_readonly, and_assoc]
  · rw [hblocked, p.mem_blocked, mem_holders_readonly, and_assoc,
      and_iff_right_of_imp fun hy => ((p.mem y.2).mp hy).1, or_assoc]

theorem PutBack.all_late : ∀ t ∈ back, late t := by
  intro t ht
  obtain ⟨hr, hlt, hcount⟩ := (p.mem t).mp ht
  exact (h.late_iff (.readonly, t) (mem_holders_readonly.mpr ⟨rfl, hr⟩) hlt).mpr hcount

/-- Every reader was put back, and the task takes the queue. -/
theorem PutBack.granted (hempty : readers'.isEmpty = true)
    (hprepare : (priority (some (.readonly readers)) blocked).prepareLock counts task .writable =
      .ok (true, fun t => counts t + if t ∈ back then 1 else 0, .priority none blocked')) :
    LockSpec late counts (some (.readonly readers)) blocked n task .writable := by
  have hall : ∀ t ∈ readers, t ∈ back := by
    intro t ht
    by_contra hnot
    exact isEmpty_iff.mp hempty t ((p.mem_readers t).mpr ⟨ht, hnot⟩)
  have heffect : LockEffect counts _ (some (.readonly readers))
      (some (ofTask tasks task .writable)) blocked blocked' (.writable, task) true back :=
    p.effect (fun y => by simp [isEmpty_iff.mp hempty y.2]) fun y => by simp
  refine ⟨_, _, _, true, back, lockUsageQueue_free hprepare, heffect, ?_⟩
  refine heffect.inv_of_granted h.inv filled_ofTask (p.all_late h) h.ne ?_ ?_ ?_
  · intro y hy hnot
    exact absurd (hall y.2 (mem_holders_readonly.mp hy).2) hnot
  · exact fun y _ _ => Or.inl rfl
  · rintro y (hy | hy) _
    · -- A reader that was put back comes before the first blocked writer.
      obtain ⟨r, hr⟩ := h.inv.filled readers rfl
      obtain ⟨-, hlt, -⟩ := (p.mem r).mp (hall r hr)
      cases hl : blocked.toList with
      | nil =>
        rw [mem_iff, hl] at hy
        exact absurd hy not_mem_nil
      | cons z l =>
        have hrz : (tasks r).taskId < idOf tasks z :=
          h.inv.orderly.ordered (.readonly, r) (mem_holders_readonly.mpr ⟨rfl, hr⟩)
            (p.all_late h r (hall r hr)) z (mem_of_first hl) (Or.inr (h.inv.first_writable hl))
        exact (hlt.trans hrz).trans_le (le_of_first hl hy)
    · exact ((p.mem y.2).mp hy.2).2.1

/-- Some readers stay: the task is blocked, in front of those that were put back. -/
theorem PutBack.refused (hleft : ∃ t, t ∈ readers')
    (hprepare : (priority (some (.readonly readers)) blocked).prepareLock counts task .writable =
      .ok (false, fun t => counts t + if t ∈ back then 1 else 0,
        .priority (some (.readonly readers')) blocked')) :
    LockSpec late counts (some (.readonly readers)) blocked n task .writable := by
  have hx : ∀ y ∈ blocked', idOf tasks y ≠ (tasks task).taskId := by
    intro y hy
    rcases (p.mem_blocked y).mp hy with hy | ⟨-, hy⟩
    · exact h.blocked_ne y hy
    · exact h.readers_ne y.2 ((p.mem y.2).mp hy).1
  obtain ⟨blocked₁, hrun, hmem⟩ := lockUsageQueue_refused hprepare hx h.room
  have heffect : LockEffect counts _ (some (.readonly readers)) (some (.readonly readers'))
      blocked blocked₁ (.writable, task) false back :=
    p.effect (fun y => by simp) fun y => by simp [hmem, or_comm]
  refine ⟨_, _, _, false, back, hrun, heffect, ?_⟩
  refine heffect.inv_of_blocked h.inv (filled_of_mem hleft) (p.all_late h) h.ne ?_ ?_ ?_
  · exact fun y _ hy => ⟨Or.inl rfl, ((p.mem y.2).mp hy).2.1⟩
  · obtain ⟨t, ht⟩ := hleft
    obtain ⟨hr, hnot⟩ := (p.mem_readers t).mp ht
    exact ⟨(.readonly, t), Or.inr rfl, Or.inl ⟨mem_holders_readonly.mpr ⟨rfl, hr⟩, hnot⟩⟩
  · -- A late reader of lower priority would have been put back.
    intro y hy hnot hy' _
    have hr : y.2 ∈ readers := (mem_holders_readonly.mp hy).2
    rcases lt_or_gt_of_ne (h.readers_ne y.2 hr) with hlt | hgt
    · exact hlt
    · exact absurd ((p.mem y.2).mpr ⟨hr, hgt, (h.late_iff y hy hgt).mp hy'⟩) hnot

end

theorem lockSpec_readers :
    LockSpec late counts (some (.readonly readers)) blocked n task .writable := by
  obtain ⟨readers', blocked', back, p, hprepare⟩ := h.putBack
  cases hempty : readers'.isEmpty with
  | true =>
    rw [hempty] at hprepare
    exact p.granted h hempty hprepare
  | false =>
    rw [hempty] at hprepare
    exact p.refused h (exists_mem_of_isEmpty hempty) hprepare

end Lock

/-- A lock attempt on a priority queue. -/
theorem lockUsageQueue_spec {n : ℕ} (h : Arrives late counts current blocked n task) :
    LockSpec late counts current blocked n task u := by
  rcases current with _ | readers | holder
  · exact lockSpec_none h.inv
  · cases u with
    | readonly => exact lockSpec_readonly h
    | writable => exact lockSpec_readers h
  · exact lockSpec_writable h

/-! ## Unlocking -/

/-- The blocked usages to which a free queue is passed on: the first one if it writes,
or all readers before the first writer. -/
structure Batch (l passed rest : List UsageFromTask) : Prop where
  eq_append : l = passed ++ rest
  rest_eq_nil : passed = [] → rest = []
  kind : (∃ t, passed = [(.writable, t)]) ∨
    (∀ y ∈ passed, y.1 = .readonly) ∧ ∀ z r, rest = z :: r → z.1 = .writable

variable {passed : List UsageFromTask}

/-- A queue that was passed on is orderly, whoever is late. -/
theorem Batch.orderly {l rest : List UsageFromTask} (b : Batch l passed rest)
    (hl : l.Pairwise fun x y => idOf tasks x < idOf tasks y) (late : UsageFromTask → Prop) :
    LockQueue.Orderly (idOf tasks) Clash late {x | x ∈ passed} {x | x ∈ rest} := by
  rw [b.eq_append, pairwise_append] at hl
  obtain ⟨-, hrest, hlt⟩ := hl
  refine ⟨?_, ?_, ?_, ?_⟩
  · intro x hx hx'
    exact absurd (hlt x hx x hx') (lt_irrefl _)
  · -- A single writer, or readers only.
    intro x hx y hy hne hclash
    have hx' : x ∈ passed := hx
    have hy' : y ∈ passed := hy
    rcases b.kind with ⟨t, ht⟩ | ⟨hread, -⟩
    · rw [ht, mem_singleton] at hx' hy'
      exact hne (hx'.trans hy'.symm)
    · rcases hclash with hw | hw
      · rw [hread x hx'] at hw
        cases hw
      · rw [hread y hy'] at hw
        cases hw
  · intro w hw
    have hw' : w ∈ rest := hw
    rcases b.kind with ⟨t, ht⟩ | ⟨hread, hfirst⟩
    · refine ⟨(.writable, t), Or.inl rfl, Or.inl ?_⟩
      rw [ht]
      exact mem_singleton.mpr rfl
    · -- A writer waits for the readers, a reader for the first writer.
      cases hpassed : passed with
      | nil =>
        rw [b.rest_eq_nil hpassed] at hw'
        exact absurd hw' not_mem_nil
      | cons y l' =>
        cases hr : rest with
        | nil =>
          rw [hr] at hw'
          exact absurd hw' not_mem_nil
        | cons z r =>
          have hz : z.1 = .writable := hfirst z r hr
          rw [hr] at hw' hrest
          rcases mem_cons.mp hw' with rfl | hwr
          · exact ⟨y, Or.inr hz, Or.inl mem_cons_self⟩
          · exact ⟨z, Or.inl hz, Or.inr ⟨mem_cons_self, (pairwise_cons.mp hrest).1 w hwr⟩⟩
  · intro x hx _ w hw _
    exact hlt x hx w hw

/-- The counters after the usages `passed` were unblocked. -/
def unblockAll (counts : Counts) (passed : List UsageFromTask) : Counts := fun t =>
  if t ∈ passed.map Prod.snd then counts t - 1 else counts t

/-- The tasks that are unblocked for good by it. -/
def runnableOf (counts : Counts) (passed : List UsageFromTask) : List Task :=
  (passed.map Prod.snd).filter fun t => counts t = 1

@[simp] theorem unblockAll_nil (counts : Counts) : unblockAll counts [] = counts := rfl

@[simp] theorem runnableOf_nil (counts : Counts) : runnableOf counts [] = [] := rfl

variable {y : UsageFromTask}

theorem unblockAll_cons (hy : y.2 ∉ passed.map Prod.snd) :
    unblockAll (update counts y.2 (counts y.2 - 1)) passed = unblockAll counts (y :: passed) := by
  funext t
  simp only [unblockAll, map_cons, mem_cons]
  by_cases ht : t = y.2
  · subst ht
    simp [hy]
  · simp only [update_of_ne ht, or_iff_right ht]

theorem runnableOf_cons (hy : y.2 ∉ passed.map Prod.snd) :
    runnableOf counts (y :: passed) = (if counts y.2 = 1 then [y.2] else []) ++
      runnableOf (update counts y.2 (counts y.2 - 1)) passed := by
  have hrest : (passed.map Prod.snd).filter
      (fun t => update counts y.2 (counts y.2 - 1) t = 1) =
      (passed.map Prod.snd).filter fun t => counts t = 1 := by
    refine filter_congr fun t ht => ?_
    have hne : t ≠ y.2 := fun heq => hy (heq ▸ ht)
    rw [update_of_ne hne]
  rw [runnableOf, runnableOf, hrest, map_cons, filter_cons]
  by_cases hone : counts y.2 = 1 <;> simp [hone]

@[simp] theorem unlockLoop_none (fuel : ℕ) (counts : Counts) (queue : UsageQueueInner tasks)
    (unblocked : List Task) :
    unlockLoop fuel none counts queue unblocked = .ok (counts, queue, unblocked) := by
  cases fuel <;> rfl

theorem tryUnblock_of_pos (h : counts task ≠ 0) :
    tryUnblock counts task =
      .ok (decide (counts task = 1), update counts task (counts task - 1)) := by
  rw [tryUnblock, decrement_of_pos (Nat.pos_of_ne_zero h)]
  have hone : counts task - 1 = 0 ↔ counts task = 1 := by omega
  simp only [ok_bind, pure_eq_ok, hone]

/-- One round of the loop, on a queue that the usage can lock. -/
theorem unlockLoop_succ {fuel : ℕ} {queue queue' : UsageQueueInner tasks} {unblocked : List Task}
    (hlock : queue.tryLock y.2 y.1 = .ok (true, queue')) (hcount : counts y.2 ≠ 0) :
    unlockLoop (fuel + 1) (some y) counts queue unblocked = (do
      let (newlyLockable, queue) ←
        if y.1 = .readonly then queue'.popLockableReadonly else .ok (none, queue')
      unlockLoop fuel newlyLockable (update counts y.2 (counts y.2 - 1)) queue
        (unblocked ++ if counts y.2 = 1 then [y.2] else [])) := by
  obtain ⟨u, t⟩ := y
  simp only [unlockLoop, hlock, ok_bind, if_true, tryUnblock_of_pos hcount]
  by_cases hone : counts t = 1 <;> simp [hone]

section First

variable {t : Task} (hfirst : ∀ y ∈ l, (tasks t).taskId < (tasks y.2).taskId)
include hfirst

/-- The tasks after the first one keep their counters. -/
theorem update_first_ne_zero (hcount : ∀ y ∈ (u, t) :: l, counts y.2 ≠ 0) :
    ∀ y ∈ l, update counts t (counts t - 1) y.2 ≠ 0 := by
  intro y hy
  have hne : y.2 ≠ t := fun heq => absurd (hfirst y hy) (heq ▸ lt_irrefl _)
  rw [update_of_ne hne]
  exact hcount y (mem_cons_of_mem _ hy)

theorem first_not_mem {rest : List UsageFromTask} (heq : l = passed ++ rest) :
    t ∉ passed.map Prod.snd := by
  intro hmem
  obtain ⟨y, hy, rfl⟩ := mem_map.mp hmem
  rw [heq] at hfirst
  exact absurd (hfirst y (mem_append_left _ hy)) (lt_irrefl _)

end First

/-- Readers are let in one after the other up to the first writer. -/
theorem passOn_readers {readers : TaskMap tasks} {fuel : ℕ} {unblocked : List Task}
    (hl : l.Pairwise fun x y => (tasks x.2).taskId < (tasks y.2).taskId) (hfuel : l.length ≤ fuel)
    (hcount : ∀ y ∈ l, counts y.2 ≠ 0)
    (hlt : ∀ t ∈ readers, ∀ y ∈ l, (tasks t).taskId < (tasks y.2).taskId) :
    ∃ (readers' : TaskMap tasks) (rest : PriorityUsageQueue tasks) (passed : List UsageFromTask),
      (do
        let (newlyLockable, queue) ←
          (priority (some (.readonly readers)) ⟨l, hl⟩).popLockableReadonly
        unlockLoop fuel newlyLockable counts queue unblocked) =
        .ok (unblockAll counts passed, .priority (some (.readonly readers')) rest,
          unblocked ++ runnableOf counts passed) ∧
      l = passed ++ rest.toList ∧ (∀ y ∈ passed, y.1 = .readonly) ∧
      (∀ z r, rest.toList = z :: r → z.1 = .writable) ∧
      ∀ t, t ∈ readers' ↔ t ∈ readers ∨ (.readonly, t) ∈ passed := by
  -- Induction on the blocked usages; the readers so far have smaller ids than all of them.
  induction l generalizing counts readers fuel unblocked with
  | nil =>
    refine ⟨readers, ⟨[], hl⟩, [], ?_, rfl, forall_mem_nil _,
      fun z r heq => absurd heq.symm (cons_ne_nil z r), by simp⟩
    simp [popLockableReadonly, peekBlocked, first?]
  | cons y l ih =>
    obtain ⟨u, t⟩ := y
    cases u with
    | writable =>
      refine ⟨readers, ⟨(.writable, t) :: l, hl⟩, [], ?_, rfl, forall_mem_nil _, ?_,
        by simp⟩
      · simp [popLockableReadonly, peekBlocked, first?]
      · intro z r heq
        cases heq
        rfl
    | readonly =>
      obtain ⟨hfirst, hl'⟩ := pairwise_cons.mp hl
      cases fuel with
      | zero => simp at hfuel
      | succ fuel =>
        rcases insert?_last (m := readers) (a := t)
          fun r hr => hlt r hr _ mem_cons_self with ⟨readers₁, hinsert, hlist⟩
        have hmem₁ : ∀ r, r ∈ readers₁ ↔ r ∈ readers ∨ r = t := by
          intro r
          rw [mem_iff, hlist, mem_append, mem_singleton, mem_iff]
        have hpop : (priority (some (.readonly readers))
            ⟨(.readonly, t) :: l, hl⟩).popLockableReadonly =
            .ok (some (.readonly, t), .priority (some (.readonly readers)) ⟨l, hl'⟩) := rfl
        have hlock : (priority (some (.readonly readers))
            ⟨l, hl'⟩).tryLock t .readonly =
            .ok (true, .priority (some (.readonly readers₁)) ⟨l, hl'⟩) := by
          simp [tryLock, hinsert, unwrap]
        have hlt₁ : ∀ r ∈ readers₁, ∀ y ∈ l, (tasks r).taskId < (tasks y.2).taskId := by
          intro r hr y hy
          rcases (hmem₁ r).mp hr with hr | rfl
          · exact hlt r hr y (mem_cons_of_mem _ hy)
          · exact hfirst y hy
        rcases @ih _ readers₁ fuel (unblocked ++ if counts t = 1 then [t] else []) hl'
          (Nat.le_of_succ_le_succ hfuel) (update_first_ne_zero hfirst hcount) hlt₁ with
          ⟨readers', rest, passed, hrun, heq, hread, hfirst', hmem'⟩
        have hnot := first_not_mem hfirst heq
        refine ⟨readers', rest, (.readonly, t) :: passed, ?_, ?_, ?_, hfirst', ?_⟩
        · rw [hpop, ok_bind]
          simp only
          rw [unlockLoop_succ hlock (hcount _ mem_cons_self), ← unblockAll_cons hnot,
            runnableOf_cons hnot, ← append_assoc]
          exact hrun
        · rw [cons_append, ← heq]
        · intro y hy
          rcases mem_cons.mp hy with rfl | hy
          · rfl
          · exact hread y hy
        · intro r
          rw [hmem', hmem₁, mem_cons, Prod.mk.injEq, or_assoc]
          simp

/-- A free queue is passed on to the first blocked usages. -/
theorem passOn {unblocked : List Task} (hcount : ∀ y ∈ blocked, counts y.2 ≠ 0) :
    ∃ (current' : Option (PriorityUsage tasks)) (rest : PriorityUsageQueue tasks)
      (passed : List UsageFromTask),
      unlockLoop blocked.toList.length (priority none blocked).pop.1 counts
        (priority none blocked).pop.2 unblocked =
        .ok (unblockAll counts passed, .priority current' rest,
          unblocked ++ runnableOf counts passed) ∧
      Batch blocked.toList passed rest.toList ∧ (∀ y, y ∈ holders current' ↔ y ∈ passed) ∧
      ∀ readers, current' = some (.readonly readers) → ∃ task, task ∈ readers := by
  obtain ⟨l, hl⟩ := blocked
  cases l with
  | nil =>
    refine ⟨none, ⟨[], hl⟩, [], ?_, ⟨rfl, fun _ => rfl, Or.inr ⟨forall_mem_nil _,
      fun z r heq => absurd heq.symm (cons_ne_nil z r)⟩⟩, by simp,
      fun _ heq => absurd heq.symm (Option.some_ne_none _)⟩
    simp [pop, popFirst?]
  | cons y l =>
    obtain ⟨hfirst, hl'⟩ := pairwise_cons.mp hl
    have hy : counts y.2 ≠ 0 := hcount y mem_cons_self
    have hlock : (priority none ⟨l, hl'⟩).tryLock y.2 y.1 =
        .ok (true, .priority (some (ofTask tasks y.2 y.1)) ⟨l, hl'⟩) := rfl
    have hpop : (priority none ⟨y :: l, hl⟩).pop = (some y, .priority none ⟨l, hl'⟩) := rfl
    rw [hpop]
    simp only [length_cons, unlockLoop_succ hlock hy]
    obtain ⟨u, t⟩ := y
    cases u with
    | writable =>
      refine ⟨some (.writable t), ⟨l, hl'⟩, [(.writable, t)], ?_,
        ⟨rfl, fun heq => absurd heq (cons_ne_nil _ _), Or.inl ⟨t, rfl⟩⟩, by simp,
        fun _ heq => by cases heq⟩
      have hnot : t ∉ ([] : List UsageFromTask).map Prod.snd := not_mem_nil
      rw [← unblockAll_cons hnot, runnableOf_cons hnot]
      simp [ofTask]
    | readonly =>
      have hlt : ∀ r ∈ (.single t : TaskMap tasks), ∀ y ∈ l,
          (tasks r).taskId < (tasks y.2).taskId := by
        intro r hr y hy
        rw [mem_single.mp hr]
        exact hfirst y hy
      rcases @passOn_readers _ _ _ _ l _ _ l.length
        (unblocked ++ if counts t = 1 then [t] else []) hl' (Nat.le_refl _)
        (update_first_ne_zero hfirst hcount) hlt with
        ⟨readers', rest, passed, hrun, heq, hread, hfirst', hmem'⟩
      have hnot := first_not_mem hfirst heq
      refine ⟨some (.readonly readers'), rest, (.readonly, t) :: passed, ?_,
        ⟨?_, fun heq => absurd heq (cons_ne_nil _ _), Or.inr ⟨?_, hfirst'⟩⟩, ?_, ?_⟩
      · rw [← unblockAll_cons hnot, runnableOf_cons hnot, ← append_assoc]
        exact hrun
      · rw [cons_append, ← heq]
      · intro y hy
        rcases mem_cons.mp hy with rfl | hy
        · rfl
        · exact hread y hy
      · rintro ⟨v, r⟩
        rw [mem_holders_readonly, hmem', mem_single, mem_cons, Prod.mk.injEq]
        constructor
        · rintro ⟨rfl, hr | hr⟩
          · exact Or.inl ⟨rfl, hr⟩
          · exact Or.inr hr
        · rintro (⟨rfl, hr⟩ | hr)
          · exact ⟨rfl, Or.inl hr⟩
          · have hv : v = .readonly := hread _ hr
            subst hv
            exact ⟨rfl, Or.inr hr⟩
      · exact filled_of_mem ⟨t, (hmem' t).mpr (Or.inl (mem_single.mpr rfl))⟩

/-- What the unlock by `x` does: the usages `passed` go from the blocked to the holders. -/
structure UnlockEffect (current current' : Option (PriorityUsage tasks))
    (blocked blocked' : PriorityUsageQueue tasks) (x : UsageFromTask)
    (passed : List UsageFromTask) : Prop where
  passed_blocked : ∀ y ∈ passed, y ∈ blocked
  nodup : (passed.map Prod.snd).Nodup
  mem_holders : ∀ y, y ∈ holders current' ↔ y ∈ holders current ∧ y ≠ x ∨ y ∈ passed
  mem_blocked : ∀ y, y ∈ blocked' ↔ y ∈ blocked ∧ y ∉ passed

/-- The last holder leaves. -/
theorem unlockUsageQueue_last {unblocked : List Task} (hcount : ∀ y ∈ blocked, counts y.2 ≠ 0)
    (hlast : ∀ y, y ∈ holders current ↔ y = x)
    (hrelease : (priority current blocked).releaseUsage x.2 x.1 =
      .ok (true, .priority none blocked)) :
    ∃ current' blocked' passed,
      unlockUsageQueue counts (.priority current blocked) unblocked x.2 x.1 =
        .ok (unblockAll counts passed, .priority current' blocked',
          unblocked ++ runnableOf counts passed) ∧
      UnlockEffect current current' blocked blocked' x passed ∧
        QueueInv late current' blocked' := by
  rcases @passOn _ _ _ _ blocked counts unblocked hcount with
    ⟨current', rest, passed, hrun, hbatch, hholders, hfilled⟩
  have happend := hbatch.eq_append
  have hsorted := blocked.sorted
  rw [happend, pairwise_append] at hsorted
  refine ⟨current', rest, passed, ?_, ⟨?_, ?_, ?_, ?_⟩, hfilled, ?_⟩
  · rw [unlockUsageQueue, unlock, hrelease]
    exact hrun
  · intro y hy
    rw [mem_iff, happend]
    exact mem_append_left _ hy
  · refine pairwise_map.mpr (hsorted.1.imp fun hlt heq => ?_)
    rw [heq] at hlt
    exact absurd hlt (lt_irrefl _)
  · intro y
    rw [hholders, hlast]
    constructor
    · exact Or.inr
    · rintro (hy | hy)
      · exact absurd hy.1 hy.2
      · exact hy
  · intro y
    rw [mem_iff, mem_iff, happend, mem_append]
    constructor
    · intro hy
      exact ⟨Or.inr hy, fun hy' => absurd (hsorted.2.2 y hy' y hy) (lt_irrefl _)⟩
    · rintro ⟨hy | hy, hnot⟩
      · exact absurd hy hnot
      · exact hy
  · have horderly : LockQueue.Orderly (idOf tasks) Clash (fun x => late x.2) {x | x ∈ passed}
        {x | x ∈ rest.toList} := hbatch.orderly blocked.sorted _
    have hset : {y | y ∈ holders current'} = {y | y ∈ passed} := Set.ext hholders
    rw [hset]
    exact horderly

/-- A holder leaves the queue. -/
theorem unlockUsageQueue_spec (unblocked : List Task) (h : QueueInv late current blocked)
    (hx : x ∈ holders current) (hcount : ∀ y ∈ blocked, counts y.2 ≠ 0) :
    ∃ current' blocked' passed,
      unlockUsageQueue counts (.priority current blocked) unblocked x.2 x.1 =
        .ok (unblockAll counts passed, .priority current' blocked',
          unblocked ++ runnableOf counts passed) ∧
      UnlockEffect current current' blocked blocked' x passed ∧
        QueueInv late current' blocked' := by
  rcases current with _ | readers | holder
  · exact absurd hx not_mem_holders_none
  · obtain ⟨u, t⟩ := x
    obtain ⟨hu, ht⟩ := mem_holders_readonly.mp hx
    have hu' : u = .readonly := hu
    subst hu'
    obtain ⟨readers', hremove, hreaders', -⟩ := remove?_spec ht
    cases hempty : readers'.isEmpty with
    | true =>
      refine unlockUsageQueue_last hcount ?_ ?_
      · rintro ⟨v, r⟩
        rw [mem_holders_readonly, Prod.mk.injEq]
        refine and_congr_right fun _ => ⟨fun hr => ?_, ?_⟩
        · by_contra hne
          exact isEmpty_iff.mp hempty r ((hreaders' r).mpr ⟨hr, hne⟩)
        · rintro rfl
          exact ht
      · simp [releaseUsage, hremove, unwrap, hempty]
    | false =>
      -- Other readers stay, and a blocked writer waits for them.
      have hrelease : (priority (some (.readonly readers)) blocked).releaseUsage t
          .readonly = .ok (false, .priority (some (.readonly readers')) blocked) := by
        simp [releaseUsage, hremove, unwrap, hempty]
      have hleft := exists_mem_of_isEmpty hempty
      have hholders : ∀ y, y ∈ holders (some (.readonly readers')) ↔
          y ∈ holders (some (.readonly readers)) ∧ y ≠ (.readonly, t) := by
        rintro ⟨v, r⟩
        rw [mem_holders_readonly, mem_holders_readonly, hreaders']
        simp only [ne_eq, Prod.mk.injEq]
        constructor
        · rintro ⟨hv, hr, hne⟩
          exact ⟨⟨hv, hr⟩, fun heq => hne heq.2⟩
        · rintro ⟨⟨hv, hr⟩, hne⟩
          exact ⟨hv, hr, fun heq => hne ⟨hv, heq⟩⟩
      refine ⟨some (.readonly readers'), blocked, [], ?_,
        ⟨forall_mem_nil _, nodup_nil, ?_, ?_⟩, filled_of_mem hleft, ?_⟩
      · rw [unlockUsageQueue, unlock, hrelease]
        simp
      · intro y
        rw [hholders]
        simp
      · intro y
        simp
      · have hset : {y | y ∈ holders (some (.readonly readers'))} =
            {y | y ∈ holders (some (.readonly readers))} \ {(.readonly, t)} := Set.ext hholders
        rw [hset]
        refine h.orderly.leave ?_
        rintro w hw (hclash | hclash)
        · cases hclash
        · obtain ⟨r, hr⟩ := hleft
          obtain ⟨hr', hne⟩ := (hholders (.readonly, r)).mp (mem_holders_readonly.mpr ⟨rfl, hr⟩)
          exact ⟨(.readonly, r), hr', hne, Or.inr hclash⟩
  · have hx' : x = (.writable, holder) := mem_holders_writable.mp hx
    subst hx'
    exact unlockUsageQueue_last hcount (fun y => mem_holders_writable) rfl

end Salsa.Unified
