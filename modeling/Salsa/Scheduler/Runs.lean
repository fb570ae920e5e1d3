import Mathlib.Data.List.Pairwise
import Salsa.Lib.Lts
import Salsa.Scheduler.Devin

/-!
# Salsa.Scheduler.Runs — the block scheduler over whole runs

The scheduler as `execute_and_commit_parallel` drives it: `init`, then any
interleaving of `pop` with `finish` of a range that was popped and is not yet
finished. The lock maps are `Exact` as long as the simultaneous reads of a key fit a `u32`.
-/

namespace Salsa.Devin

open LockTable TransactionWithMeta List

variable {T Key : Type} [DecidableEq Key] [TransactionWithMeta T Key]

/-! ## The system -/

/-- The scheduler, the ranges handed out and not yet finished, and the finished
ones. -/
structure St (Key : Type) where
  sched : DevinScheduler Key
  outstanding : List Range
  done : List Range

/-- A call of the driving loop, with what it returns or is given. -/
inductive Act where
  | pop (value : Option Range)
  | finish (range : Range)
deriving DecidableEq

inductive Step (txs : List T) : St Key → Act → St Key → Prop where
  | pop {s : St Key} (value : Option Range) (sched' : DevinScheduler Key)
      (h : Devin.pop txs s.sched = .ok (value, sched')) :
      Step txs s (.pop value)
        { s with sched := sched', outstanding := s.outstanding ++ value.toList }
  | finish {s : St Key} (range : Range) (sched' : DevinScheduler Key)
      (hmem : range ∈ s.outstanding)
      (h : Devin.finish txs range s.sched = .ok sched') :
      Step txs s (.finish range) ⟨sched', s.outstanding.erase range, s.done ++ [range]⟩

def start (txs : List T) : St Key := ⟨init txs, [], []⟩

def sys (txs : List T) : Lts (St Key) Act where
  Init := fun s => s = start txs
  Step := Step txs

def flat (ranges : List Range) : List ℕ := ranges.flatMap Range.toList

/-- The accesses of the popped and unfinished transactions. -/
def held (txs : List T) (s : St Key) : List (Access Key) :=
  (flat s.outstanding).map (accessAt txs)

@[simp] theorem flat_nil : flat [] = [] := rfl

@[simp] theorem flat_append (rs rs' : List Range) : flat (rs ++ rs') = flat rs ++ flat rs' := by
  simp [flat]

@[simp] theorem flat_singleton (r : Range) : flat [r] = r.toList := by
  simp [flat]

theorem mem_flat {rs : List Range} {i : ℕ} : i ∈ flat rs ↔ ∃ r ∈ rs, i ∈ r := by
  simp [flat]

theorem flat_perm {rs rs' : List Range} (h : rs.Perm rs') : (flat rs).Perm (flat rs') :=
  h.flatMap_right _

/-! ## The invariant -/

structure Inv (txs : List T) (s : St Key) : Prop where
  sorted : s.sched.indices.Pairwise (· < ·)
  partition : (s.sched.indices ++ flat s.outstanding ++ flat s.done).Perm (List.range txs.length)
  nonempty : ∀ r ∈ s.outstanding ++ s.done, r.start < r.stop
  next_le : s.sched.next ≤ s.sched.indices.length
  skipped : Covers u32Max (val s.sched.skippedLocks)
    ((s.sched.indices.take s.sched.next).map (accessAt txs))
  idle : s.outstanding = [] → s.sched.next = 0 ∧ ∀ k, val s.sched.skippedLocks k = 0
  bounded : Bounded (val s.sched.runningLocks) (held txs s)
  completed : s.sched.completed = (flat s.done).length
  finished : s.sched.finished = true ↔ s.done ≠ [] ∧ s.sched.completed = txs.length

theorem inv_start (txs : List T) : Inv txs (start txs : St Key) where
  sorted := pairwise_lt_range
  partition := by simp [start, init]
  nonempty := by simp [start]
  next_le := Nat.zero_le _
  skipped := covers_nil
  idle := fun _ => ⟨rfl, fun _ => rfl⟩
  bounded := bounded_zero _
  completed := rfl
  finished := by simp [start, init]

variable {txs : List T} {s s' : St Key}

theorem Inv.lt_length (hi : Inv txs s) : ∀ i ∈ s.sched.indices, i < txs.length := by
  intro i hmem
  exact mem_range.mp (hi.partition.mem_iff.mp (by simp [hmem]))

theorem Inv.flat_lt_length (hi : Inv txs s) : ∀ i ∈ flat s.outstanding, i < txs.length := by
  intro i hmem
  exact mem_range.mp (hi.partition.mem_iff.mp (by simp [hmem]))

/-- What a `pop` does to the scheduler, in an invariant state. -/
structure Popped (txs : List T) (d : DevinScheduler Key) (value : Option Range)
    (d' : DevinScheduler Key) (taken rest : List ℕ) : Prop where
  split : d.indices = d.indices.take d.next ++ taken ++ rest
  accepts : Accepts txs d.skippedLocks none d.runningLocks taken value d'.runningLocks
  skips : Skips txs d d' rest
  stuck : value = none → d.indices.drop d.next = [] ∨ d'.next = d.next + 1
  indices : d'.indices = d.indices.take d.next ++ rest
  completed : d'.completed = d.completed
  finished : d'.finished = d.finished

/-- `pop` does not panic in an invariant state. -/
theorem Inv.pop_ok (hi : Inv txs s) :
    ∃ value self', Devin.pop txs s.sched = .ok (value, self') := by
  obtain ⟨value, self', _, _, h, -⟩ := pop_spec txs s.sched hi.sorted hi.lt_length
  exact ⟨value, self', h⟩

variable {value : Option Range} {d d' : DevinScheduler Key} {taken rest : List ℕ}

theorem Inv.popped (hi : Inv txs s) {self' : DevinScheduler Key}
    (h : Devin.pop txs s.sched = .ok (value, self')) :
    ∃ taken rest, Popped txs s.sched value self' taken rest := by
  obtain ⟨value₀, self₀, taken, rest, h₀, hdrop, hacc, hskip, hstuck, hidx, hc, hf⟩ :=
    pop_spec txs s.sched hi.sorted hi.lt_length
  rw [h₀] at h
  cases h
  refine ⟨taken, rest, ?_, hacc, hskip, hstuck, hidx, hc, hf⟩
  rw [append_assoc, ← hdrop, take_append_drop]

namespace Popped

section

variable (hp : Popped txs d value d' taken rest)
include hp

/-- The indices of the returned range are the accepted ones. -/
theorem flat_value : flat value.toList = taken := by
  rcases hp.accepts.range_none with ⟨rfl, rfl⟩ | ⟨r, rfl, rfl, -⟩
  · rfl
  · simp

theorem value_nonempty : ∀ r ∈ value.toList, r.start < r.stop := by
  intro r hr
  rcases hp.accepts.range_none with ⟨-, rfl⟩ | ⟨r', rfl, -, hlt⟩
  · simp at hr
  · obtain rfl : r = r' := by simpa using hr
    exact hlt

/-- The accesses held after a `pop` are the old ones and the accepted ones. -/
theorem held_eq (s : St Key) :
    held txs { s with sched := d', outstanding := s.outstanding ++ value.toList } =
      held txs s ++ taken.map (accessAt txs) := by
  simp [held, hp.flat_value]

/-- The remaining queue is a subsequence of the old one. -/
theorem sublist : d'.indices.Sublist d.indices := by
  rw [hp.indices]
  conv_rhs => rw [hp.split, append_assoc]
  exact (List.Sublist.refl _).append (sublist_append_right _ _)

/-- Old queue = new queue and accepted indices. -/
theorem perm : (d'.indices ++ taken).Perm d.indices := by
  rw [hp.indices]
  conv_rhs => rw [hp.split]
  rw [append_assoc, append_assoc]
  exact List.Perm.append_left _ perm_append_comm

/-- The search position stays behind the stepped-over entries, and the skipped
locks cover them. -/
theorem skipped (hle : d.next ≤ d.indices.length)
    (hc : Covers u32Max (val d.skippedLocks) ((d.indices.take d.next).map (accessAt txs))) :
    d'.next ≤ d'.indices.length ∧ Covers u32Max (val d'.skippedLocks)
      ((d'.indices.take d'.next).map (accessAt txs)) := by
  have hlen : (d.indices.take d.next).length = d.next := by simpa using hle
  rw [hp.indices]
  rcases hp.skips with ⟨hn, hs⟩ | ⟨b, rest', hrest, hn, hs, -⟩
  -- nothing was stepped over
  · rw [hn, hs]
    refine ⟨by rw [length_append]; omega, ?_⟩
    rw [take_left' hlen]
    exact hc
  -- `b` was blocked: it is stepped over, and its locks are added
  · rw [hn, hs, hrest]
    refine ⟨by rw [length_append, length_cons]; omega, ?_⟩
    have htake : (d.indices.take d.next ++ b :: rest').take (d.next + 1) =
        d.indices.take d.next ++ [b] := by
      rw [← singleton_append, ← append_assoc]
      exact take_left' (by simp [hlen])
    rw [htake, map_append, lockAccounts_val]
    exact hc.acquire u32Max_ne_zero

/-- With nothing running and nothing skipped, nothing is stepped over. -/
theorem next_eq_of_idle (hrun : ∀ k, val d'.runningLocks k = 0)
    (hskip : ∀ k, val d.skippedLocks k = 0) :
    d'.next = d.next ∧ d'.skippedLocks = d.skippedLocks := by
  rcases hp.skips with h | ⟨b, rest', -, -, -, hb | hb⟩
  · exact h
  · exact absurd (isBlocked_iff.mp hb) (not_blocked_of_zero u32Max_ne_zero hrun)
  · exact absurd (isBlocked_iff.mp hb) (not_blocked_of_zero u32Max_ne_zero hskip)

end

end Popped

variable {sched' : DevinScheduler Key}

theorem inv_pop (hi : Inv txs s) (h : Devin.pop txs s.sched = .ok (value, sched')) :
    Inv txs { s with sched := sched', outstanding := s.outstanding ++ value.toList } := by
  obtain ⟨taken, rest, hp⟩ := hi.popped h
  have hheld := hp.held_eq s
  have hbounded : Bounded (val sched'.runningLocks)
      (held txs s ++ taken.map (accessAt txs)) := hp.accepts.bounded hi.bounded
  obtain ⟨hnext, hcover⟩ := hp.skipped hi.next_le hi.skipped
  refine ⟨hi.sorted.sublist hp.sublist, ?_, ?_, hnext, hcover, ?_, ?_, ?_, ?_⟩
  -- what is taken out of the queue is now outstanding
  · simp only [flat_append, hp.flat_value]
    have hmove : (sched'.indices ++ (flat s.outstanding ++ taken)).Perm
        (sched'.indices ++ taken ++ flat s.outstanding) := by
      rw [append_assoc]
      exact List.Perm.append_left _ perm_append_comm
    have hqueue := hmove.trans (hp.perm.append_right (flat s.outstanding))
    exact (hqueue.append_right (flat s.done)).trans hi.partition
  · intro r hr
    simp only [mem_append] at hr
    rcases hr with (hr | hr) | hr
    · exact hi.nonempty r (by simp [hr])
    · exact hp.value_nonempty r hr
    · exact hi.nonempty r (by simp [hr])
  · -- nothing outstanding afterwards: nothing was, and nothing was popped
    intro hout
    obtain ⟨hout, hval⟩ := append_eq_nil_iff.mp hout
    have htaken : taken = [] := by rw [← hp.flat_value, hval]; rfl
    obtain ⟨hn, hz⟩ := hi.idle hout
    have hzero : ∀ k, val sched'.runningLocks k = 0 := by
      simp only [held, hout, htaken, flat_nil, map_nil, append_nil] at hbounded
      exact hbounded.eq_zero
    obtain ⟨hn', hs'⟩ := hp.next_eq_of_idle hzero hz
    exact ⟨hn'.trans hn, by rw [hs']; exact hz⟩
  · rw [hheld]
    exact hbounded
  · exact hp.completed.trans hi.completed
  · rw [hp.finished, hp.completed]
    exact hi.finished

variable {range : Range}

/-- What a `finish` of an outstanding range does to the scheduler. -/
theorem Inv.finish_spec (hi : Inv txs s) (hmem : range ∈ s.outstanding) :
    ∃ locks, Devin.finish txs range s.sched = .ok { s.sched with
        completed := s.sched.completed + range.len
        runningLocks := locks
        skippedLocks := fun _ => none
        next := 0
        finished := s.sched.completed + range.len == txs.length } ∧
      val locks = (range.toList.map (accessAt txs)).foldl
        (fun v a => release a v) (val s.sched.runningLocks) := by
  obtain ⟨locks, hu, hv⟩ := unlockRange_spec txs range.toList s.sched.runningLocks
    fun i hr => hi.flat_lt_length i (mem_flat.mpr ⟨range, hmem, Range.mem_toList.mp hr⟩)
  exact ⟨locks, by rw [Devin.finish, hu], hv⟩

omit [DecidableEq Key] in
/-- Finishing a range moves its accesses out of the held ones. -/
theorem held_erase (hmem : range ∈ s.outstanding) :
    (held txs s).Perm (range.toList.map (accessAt txs) ++
      (flat (s.outstanding.erase range)).map (accessAt txs)) := by
  rw [← map_append]
  exact (flat_perm (perm_cons_erase hmem)).map _

theorem inv_finish (hi : Inv txs s)
    (hmem : range ∈ s.outstanding) (h : Devin.finish txs range s.sched = .ok sched') :
    Inv txs ⟨sched', s.outstanding.erase range, s.done ++ [range]⟩ := by
  obtain ⟨locks, hf, hv⟩ := hi.finish_spec hmem
  cases h.symm.trans hf
  refine ⟨hi.sorted, ?_, ?_, Nat.zero_le _, covers_nil, fun _ => ⟨rfl, fun _ => rfl⟩, ?_, ?_, ?_⟩
  · -- the finished indices move from the outstanding to the done ones
    have hout : (flat s.outstanding).Perm (flat (s.outstanding.erase range) ++ range.toList) :=
      (flat_perm (perm_cons_erase hmem)).trans perm_append_comm
    have hdone : (range.toList ++ flat s.done).Perm (flat (s.done ++ [range])) := by
      rw [flat_append, flat_singleton]
      exact perm_append_comm
    have hmove := (hout.append_right (flat s.done)).append_left s.sched.indices
    rw [append_assoc] at hmove
    have hall := hmove.trans ((hdone.append_left _).append_left _)
    simp only [append_assoc]
    refine hall.symm.trans ?_
    simpa only [append_assoc] using hi.partition
  · intro r hr
    apply hi.nonempty r
    simp only [mem_append, mem_singleton] at hr ⊢
    rcases hr with hr | hr | rfl
    · exact Or.inl (mem_of_mem_erase hr)
    · exact Or.inr hr
    · exact Or.inl hmem
  · rw [hv]
    exact (hi.bounded.perm (held_erase hmem)).releaseAll _
  · rw [hi.completed]
    simp
  · simp

variable {a : Act}

theorem inv_step (h : Step txs s a s') (hi : Inv txs s) : Inv txs s' := by
  cases h with
  | pop value sched' h => exact inv_pop hi h
  | finish range sched' hmem h => exact inv_finish hi hmem h

variable {tr : List Act}

theorem inv_run (h : (sys txs).Run (start txs) tr s) : Inv txs s :=
  h.inv (Inv txs) (inv_start txs) fun _ _ _ => inv_step

/-! ## The trace -/

def Act.popped? : Act → Option Range
  | .pop value => value
  | .finish _ => none

def Act.finished? : Act → Option Range
  | .pop _ => none
  | .finish range => some range

section

variable (h : (sys txs).Run (start txs) tr s)
include h

/-- The finished ranges are those of the `finish` calls. -/
theorem done_eq : s.done = tr.filterMap Act.finished? := by
  induction h with
  | nil => rfl
  | snoc _ hstep ih =>
    rw [filterMap_append, ← ih]
    cases hstep with
    | pop value sched' h => simp [Act.finished?]
    | finish range sched' hmem h => simp [Act.finished?]

/-- What was popped is outstanding or done, each range once. -/
theorem popped_perm : (tr.filterMap Act.popped?).Perm (s.outstanding ++ s.done) := by
  induction h with
  | nil => exact List.Perm.refl _
  | @snoc tr m u a hrun hstep ih =>
    rw [filterMap_append]
    cases hstep with
    | pop value sched' h =>
      have hval : [Act.pop value].filterMap Act.popped? = value.toList := by
        cases value <;> simp [Act.popped?]
      rw [hval, append_assoc]
      refine (ih.append_right _).trans ?_
      rw [append_assoc]
      exact List.Perm.append_left _ perm_append_comm
    | finish range sched' hmem h =>
      have hval : [Act.finish range].filterMap Act.popped? = [] := rfl
      rw [hval, append_nil]
      refine ih.trans (((perm_cons_erase hmem).append_right m.done).trans ?_)
      rw [← append_assoc]
      exact (perm_append_comm : ([range] ++ (m.outstanding.erase range ++ m.done)).Perm _)

theorem mem_done_iff {r : Range} : r ∈ s.done ↔ .finish r ∈ tr := by
  rw [done_eq h, mem_filterMap]
  constructor
  · rintro ⟨a, ha, hr⟩
    cases a with
    | pop value => simp [Act.finished?] at hr
    | finish range =>
      obtain rfl : range = r := by simpa [Act.finished?] using hr
      exact ha
  · intro ha
    exact ⟨_, ha, rfl⟩

end

/-! ## Conflicts -/

/-- Some key is in both transactions and written by one of them. -/
def ConflictAt (txs : List T) (i j : ℕ) : Prop :=
  Conflict (accessAt txs i) (accessAt txs j)

/-- Fewer than `u32::MAX` simultaneous read locks on every key. -/
def ReadsFit (txs : List T) (s : St Key) : Prop :=
  ∀ k, totalReads (held txs s) k < u32Max

/-- The running locks are exactly those of the outstanding transactions. -/
def Exact (txs : List T) (s : St Key) : Prop :=
  Represents u32Max (val s.sched.runningLocks) (held txs s)

theorem exact_start (txs : List T) : Exact txs (start txs : St Key) := represents_nil u32Max

theorem exact_step (h : Step txs s a s')
    (hfit : ∀ k, totalReads (held txs s') k ≤ u32Max) (hi : Inv txs s)
    (he : Exact txs s) : Exact txs s' := by
  cases h with
  | pop value sched' h =>
    obtain ⟨taken, rest, hp⟩ := hi.popped h
    rw [hp.held_eq] at hfit
    rw [Exact, hp.held_eq]
    exact hp.accepts.represents he hfit
  | finish range sched' hmem h =>
    obtain ⟨locks, hf, hv⟩ := hi.finish_spec hmem
    cases h.symm.trans hf
    show Represents u32Max (val locks) _
    rw [hv]
    exact (he.perm (held_erase hmem)).releaseAll _

/-- Outstanding transactions do not conflict. -/
theorem not_conflictAt_of_outstanding (he : Exact txs s) {i j : ℕ}
    (hi : i ∈ flat s.outstanding) (hj : j ∈ flat s.outstanding) (hne : i ≠ j) :
    ¬ ConflictAt txs i j := by
  have hpair := pairwise_map.mp he.apart
  have : Std.Symm fun a b => ¬ Conflict (accessAt txs a) (accessAt txs b) :=
    ⟨fun _ _ hab hba => hab hba.symm⟩
  exact hpair.forall hi hj hne

/-- A popped transaction's earlier conflicting transactions are all done. -/
theorem mem_done_of_conflictAt (hi : Inv txs s) {r : Range}
    (h : Step txs s (.pop (some r)) s') (he' : Exact txs s') {i j : ℕ}
    (hij : i < j) (hj : j ∈ r) (hc : ConflictAt txs i j) : i ∈ flat s.done := by
  cases h with
  | pop _ sched' h =>
    obtain ⟨taken, rest, hp⟩ := hi.popped h
    have htaken : r.toList = taken := by simpa using hp.flat_value
    have hj' : j ∈ taken := by rw [← htaken]; simpa using hj
    have hout : ∀ l, l ∈ flat s.outstanding ∨ l ∈ taken →
        l ∈ flat (s.outstanding ++ (some r).toList) := by
      intro l hl
      rw [flat_append, hp.flat_value]
      exact mem_append.mpr hl
    -- outstanding after the pop, `i` would conflict with `j` there
    have hapart : ∀ l, l ∈ flat s.outstanding ∨ l ∈ taken → l ≠ i := by
      rintro l hl rfl
      exact not_conflictAt_of_outstanding he' (hout l hl) (hout j (Or.inr hj')) hij.ne hc
    -- `i` is in the block: queued, outstanding or done
    have hjlt : j < txs.length := by
      apply hi.lt_length
      rw [hp.split]
      simp [hj']
    have hmem := hi.partition.mem_iff.mpr (mem_range.mpr (hij.trans hjlt))
    rw [hp.split] at hmem
    simp only [mem_append] at hmem
    rcases hmem with (((hskip | htk) | hrest) | ho) | hd
    · -- stepped over: its locks would have blocked `j`
      have hfree := hp.accepts.free j hj'
      have hnb : ¬ Blocked u32Max (val s.sched.skippedLocks) (accessAt txs j) := by
        rw [← isBlocked_iff, hfree]
        simp
      exact absurd hc (hi.skipped.not_conflict (mem_map_of_mem hskip) hnb)
    · exact absurd rfl (hapart i (Or.inr htk))
    · -- behind `j` in the sorted queue, so not before it in the block
      have hsorted := hi.sorted
      rw [hp.split] at hsorted
      have := (pairwise_append.mp hsorted).2.2 j (by simp [hj']) i hrest
      omega
    · exact absurd rfl (hapart i (Or.inl ho))
    · exact hd

theorem exact_run (h : ((sys txs).confine (ReadsFit txs)).Run (start txs) tr s) :
    Inv txs s ∧ Exact txs s :=
  h.inv (fun s => Inv txs s ∧ Exact txs s)
    ⟨inv_start txs, exact_start txs⟩ fun _ _ _ hstep hs =>
      ⟨inv_step hstep.1 hs.1, exact_step hstep.1 (fun k => (hstep.2 k).le) hs.1 hs.2⟩

/-- In every run with fewer than `u32::MAX` simultaneous read locks on a key:
a transaction is popped only after the ranges of all earlier conflicting
transactions are finished; so neither a popped range nor two outstanding ranges
hold a conflict. -/
theorem conflict_order {tr : List Act} {u : St Key}
    (hrun : ((sys txs).confine (ReadsFit txs)).Run (start txs) tr u) :
    (∀ pre post r i j, tr = pre ++ .pop (some r) :: post → i < j → j ∈ r →
      ConflictAt txs i j → ∃ r', i ∈ r' ∧ .finish r' ∈ pre) ∧
    (∀ r i j, .pop (some r) ∈ tr → i ∈ r → j ∈ r → i ≠ j → ¬ ConflictAt txs i j) ∧
    (∀ r r' i j, r ∈ u.outstanding → r' ∈ u.outstanding → i ∈ r → j ∈ r' → i ≠ j →
      ¬ ConflictAt txs i j) := by
  refine ⟨?_, ?_, ?_⟩
  · rintro pre post r i j rfl hij hj hc
    obtain ⟨m, m', hpre, hstep, -⟩ := hrun.split_cons
    obtain ⟨hi, he⟩ := exact_run hpre
    have he' := exact_step hstep.1 (fun k => (hstep.2 k).le) hi he
    obtain ⟨r', hr', hir'⟩ := mem_flat.mp (mem_done_of_conflictAt hi hstep.1 he' hij hj hc)
    exact ⟨r', hir', (mem_done_iff hpre.of_confine).mp hr'⟩
  · intro r i j hmem hi hj hne
    obtain ⟨pre, post, rfl⟩ := append_of_mem hmem
    obtain ⟨m, m', hpre, hstep, -⟩ := hrun.split_cons
    obtain ⟨him, he⟩ := exact_run hpre
    have he' := exact_step hstep.1 (fun k => (hstep.2 k).le) him he
    -- right after the `pop` the whole range is outstanding
    have hout : ∀ l ∈ r, l ∈ flat m'.outstanding := by
      intro l hl
      cases hstep.1 with
      | pop _ sched' h => exact mem_flat.mpr ⟨r, by simp, hl⟩
    exact not_conflictAt_of_outstanding he' (hout i hi) (hout j hj) hne
  · intro r r' i j hr hr' hi hj hne
    exact not_conflictAt_of_outstanding (exact_run hrun).2 (mem_flat.mpr ⟨r, hr, hi⟩)
      (mem_flat.mpr ⟨r', hr', hj⟩) hne

/-! ## Blocks whose reads can be counted -/

/-- For every key: no transaction names it for reading more than once, or all its
reads in the block together fit a `u32`. -/
def ReadsCount (txs : List T) : Prop :=
  ∀ k, (∀ i, reads (accessAt txs i) k ≤ 1) ∨
    totalReads ((List.range txs.length).map (accessAt txs)) k ≤ u32Max

/-- What holds in every state of every run of such a block: the locks are exact
and cannot overflow, and what was popped has its earlier conflicting
transactions behind it. -/
structure Ordered (txs : List T) (s : St Key) : Prop where
  inv : Inv txs s
  locks : Exact txs s
  fits : ∀ k, totalReads (held txs s) k ≤ u32Max
  order : ∀ i j, i < j → j ∈ flat s.outstanding ++ flat s.done → ConflictAt txs i j →
    i ∈ flat s.done

theorem ordered_start (txs : List T) :
    Ordered txs (start txs : St Key) where
  inv := inv_start txs
  locks := exact_start txs
  fits := by simp [held, start]
  order := by simp [start]

theorem fits_step (h : Step txs s a s') (hreads : ReadsCount txs)
    (ho : Ordered txs s) : ∀ k, totalReads (held txs s') k ≤ u32Max := by
  have hi' := inv_step h ho.inv
  cases h with
  | pop value sched' h =>
    obtain ⟨taken, rest, hp⟩ := ho.inv.popped h
    rw [hp.held_eq]
    refine hp.accepts.totalReads_le ho.locks ho.fits fun k => ?_
    rcases hreads k with honce | hall
    · exact Or.inl honce
    · right
      -- what is held is part of the block
      rw [← hp.held_eq]
      refine le_trans ?_ hall
      rw [← totalReads_perm (hi'.partition.map (accessAt txs)) k]
      simp only [map_append, totalReads_append, held]
      omega
  | finish range sched' hmem h =>
    intro k
    have hfit := ho.fits k
    rw [totalReads_perm (held_erase hmem) k, totalReads_append] at hfit
    exact (Nat.le_add_left _ _).trans hfit

theorem ordered_step (h : Step txs s a s') (hreads : ReadsCount txs)
    (ho : Ordered txs s) : Ordered txs s' := by
  have hfits := fits_step h hreads ho
  have hexact := exact_step h hfits ho.inv ho.locks
  refine ⟨inv_step h ho.inv, hexact, hfits, ?_⟩
  have hstep := h
  cases h with
  | pop value sched' h =>
    intro i j hij hj hc
    simp only [flat_append, mem_append] at hj
    rcases hj with (hj | hj) | hj
    · exact ho.order i j hij (mem_append_left _ hj) hc
    · -- popped just now
      obtain ⟨r, hr, hjr⟩ := mem_flat.mp hj
      obtain rfl : value = some r := by simpa using hr
      exact mem_done_of_conflictAt ho.inv hstep hexact hij hjr hc
    · exact ho.order i j hij (mem_append_right _ hj) hc
  | finish range sched' hmem h =>
    intro i j hij hj hc
    rw [flat_append, flat_singleton] at hj ⊢
    have hj' : j ∈ flat s.outstanding ++ flat s.done := by
      simp only [mem_append, Range.mem_toList] at hj ⊢
      rcases hj with hj | hj | hj
      · obtain ⟨r, hr, hjr⟩ := mem_flat.mp hj
        exact Or.inl (mem_flat.mpr ⟨r, mem_of_mem_erase hr, hjr⟩)
      · exact Or.inr hj
      · exact Or.inl (mem_flat.mpr ⟨range, hmem, hj⟩)
    exact mem_append_left _ (ho.order i j hij hj' hc)

/-- What is outstanding is not done. -/
theorem Inv.not_mem_done (hi : Inv txs s) {i : ℕ} (hout : i ∈ flat s.outstanding) :
    i ∉ flat s.done := by
  intro hdone
  have hnodup := hi.partition.nodup_iff.mpr nodup_range
  exact (nodup_append.mp hnodup).2.2 i (mem_append_right _ hout) i hdone rfl

/-! ## A small block -/

/-- A transaction that is only its accesses and its cost. -/
structure BareTx where
  accesses : Access ℕ
  units : ℕ

instance : TransactionWithMeta BareTx ℕ where
  accounts := BareTx.accesses
  cost := BareTx.units

/-- The last transaction writes what the first one writes. -/
def rewriteBlock : List BareTx := [⟨[(1, true)], 10⟩, ⟨[(2, true)], 10⟩, ⟨[(1, true)], 10⟩]

/-- Nothing in the block is read. -/
theorem readsFit_rewriteBlock (s : St ℕ) : ReadsFit rewriteBlock s := by
  intro k
  have hzero : totalReads (held rewriteBlock s) k = 0 := by
    apply sum_eq_zero
    intro n hn
    obtain ⟨a, ha, rfl⟩ := mem_map.mp hn
    obtain ⟨i, -, rfl⟩ := mem_map.mp ha
    match i with
    | 0 | 1 | 2 => simp [accessAt, rewriteBlock, accounts, reads]
    | i + 3 => simp [accessAt, rewriteBlock, reads]
  rw [hzero]
  decide

/-- The last transaction is popped after the first two are finished. -/
theorem conflict_order_rewriteBlock :
    ∃ (tr : List Act) (u : St ℕ),
      ((sys rewriteBlock).confine (ReadsFit rewriteBlock)).Run (start rewriteBlock) tr u ∧
      tr = [.pop (some ⟨0, 2⟩), .finish ⟨0, 2⟩] ++ .pop (some ⟨2, 3⟩) :: [] ∧
      ConflictAt rewriteBlock 0 2 ∧
      ∃ r' : Range, 0 ∈ r' ∧ .finish r' ∈ [Act.pop (some ⟨0, 2⟩), .finish ⟨0, 2⟩] := by
  have hfit := readsFit_rewriteBlock
  have hrun := Lts.Run.cons (L := (sys rewriteBlock).confine (ReadsFit rewriteBlock))
    ⟨Step.pop (s := start rewriteBlock) (some ⟨0, 2⟩) _ rfl, hfit _⟩
    (.cons ⟨.finish ⟨0, 2⟩ _ (by decide) rfl, hfit _⟩
    (.cons ⟨.pop (some ⟨2, 3⟩) _ rfl, hfit _⟩ .nil))
  have hconflict : ConflictAt rewriteBlock 0 2 :=
    ⟨1, ⟨true, by decide⟩, ⟨true, by decide⟩, Or.inl (by decide)⟩
  exact ⟨_, _, hrun, rfl, hconflict,
    (conflict_order hrun).1 _ _ ⟨2, 3⟩ 0 2 rfl (by decide) (by decide) hconflict⟩

/-! ## Completeness and progress -/

/-- Everything is completed when every index of the block is done. -/
theorem Inv.completed_iff (hi : Inv txs s) :
    s.sched.completed = txs.length ↔ ∀ i < txs.length, i ∈ flat s.done := by
  have hlen := hi.partition.length_eq
  simp only [length_append, length_range] at hlen
  rw [hi.completed]
  constructor
  · intro hc i hlt
    have hmem := hi.partition.mem_iff.mpr (mem_range.mpr hlt)
    have hnil : s.sched.indices ++ flat s.outstanding = [] := by
      apply eq_nil_of_length_eq_zero
      rw [length_append]
      omega
    rw [hnil] at hmem
    exact hmem
  · intro hall
    have hnodup := hi.partition.nodup_iff.mpr nodup_range
    have hnil : s.sched.indices ++ flat s.outstanding = [] := by
      apply eq_nil_iff_forall_not_mem.mpr
      intro i hmem
      have hlt : i < txs.length := mem_range.mp (hi.partition.mem_iff.mp (mem_append_left _ hmem))
      exact (nodup_append.mp hnodup).2.2 i hmem i (hall i hlt) rfl
    have := congrArg length hnil
    rw [length_append, length_nil] at this
    omega

/-- `drain` removes exactly the popped indices. -/
theorem Popped.indices_eq_filter
    (hp : Popped txs d value d' taken rest) (hsorted : d.indices.Pairwise (· < ·)) :
    d'.indices = d.indices.filter fun i => i ∉ flat value.toList := by
  rw [hp.split] at hsorted
  obtain ⟨hleft, -, hright⟩ := pairwise_append.mp hsorted
  have hbefore : ∀ i ∈ d.indices.take d.next, i ∉ taken := by
    intro i hi ht
    exact lt_irrefl i ((pairwise_append.mp hleft).2.2 i hi i ht)
  have hafter : ∀ i ∈ rest, i ∉ taken := by
    intro i hi ht
    exact lt_irrefl i (hright i (mem_append_right _ ht) i hi)
  have hgone : (taken.filter fun i => decide (i ∉ taken)) = [] := filter_eq_nil_iff.mpr (by simp)
  have hkeep : (rest.filter fun i => decide (i ∉ taken)) = rest :=
    filter_eq_self.mpr (by simpa using hafter)
  rw [hp.indices, hp.flat_value]
  conv_rhs => rw [hp.split, filter_append, filter_append, hgone, hkeep]
  rw [filter_eq_self.mpr (by simpa using hbefore), append_nil]

/-- With nothing outstanding and the block not completed, `pop` finds work. -/
theorem Inv.pop_isSome (hi : Inv txs s) (hc : s.sched.completed < txs.length)
    (hout : s.outstanding = []) : ∃ r d', Devin.pop txs s.sched = .ok (some r, d') := by
  obtain ⟨value, d', hpop⟩ := hi.pop_ok
  cases value with
  | some r => exact ⟨r, d', hpop⟩
  | none =>
    obtain ⟨taken, rest, hp⟩ := hi.popped hpop
    have htaken : taken = [] := hp.flat_value.symm
    have hbounded := hp.accepts.bounded hi.bounded
    simp only [held, hout, htaken, flat_nil, map_nil, append_nil] at hbounded
    obtain ⟨hnext, hz⟩ := hi.idle hout
    rcases hp.stuck rfl with hnil | hstep
    · -- the queue is not empty: something is not yet completed
      have hlen := hi.partition.length_eq
      rw [hnext, drop_zero] at hnil
      rw [hi.completed] at hc
      simp only [hnil, hout, flat_nil, nil_append, length_range] at hlen
      omega
    · have := (hp.next_eq_of_idle hbounded.eq_zero hz).1
      omega

/-- A call that hands out or takes back a range. -/
def Act.productive : Act → Bool
  | .pop none => false
  | .pop (some _) => true
  | .finish _ => true

/-- Every productive call uses up the block. -/
theorem productive_le (h : (sys txs).Run (start txs) tr s) :
    tr.countP Act.productive + 2 * s.sched.indices.length + s.outstanding.length ≤
      2 * txs.length := by
  induction h with
  | nil => simp [start, init]
  | @snoc tr m u a hrun hstep ih =>
    have hi := inv_run hrun
    cases hstep with
    | pop value d' h =>
      obtain ⟨taken, rest, hp⟩ := hi.popped h
      have hlen := hp.perm.length_eq
      rw [length_append] at hlen
      cases value with
      | none => simp [Act.productive]; omega
      | some r =>
        have hpos : 0 < taken.length := by
          have hlt := hp.value_nonempty r (by simp)
          rw [← hp.flat_value]
          simp [Range.len]
          omega
        simp [Act.productive]
        omega
    | finish range d' hmem h =>
      have hlen := length_erase_of_mem hmem
      have hpos := length_pos_of_mem hmem
      obtain ⟨locks, hf, -⟩ := hi.finish_spec hmem
      cases h.symm.trans hf
      simp [Act.productive, hlen]
      omega

/-- In every run over a non-empty block:

* no popped range is empty; the queue and the popped ranges together hold every
  index exactly once; `finished` is set exactly when every index is in a
  finished range, and then every index has been popped exactly once; at most
  `2 n` calls hand out or take back a range;
* with nothing outstanding and `completed < n`, the next `pop` returns `Some`;
* `pop` never panics, and its lookup and `drain` remove exactly the popped
  indices; neither does `finish` of an outstanding range. -/
theorem complete_once (hne : txs ≠ []) {tr : List Act} {u : St Key}
    (hrun : (sys txs).Run (start txs) tr u) :
    ((∀ r, .pop (some r) ∈ tr → r.start < r.stop) ∧
      (u.sched.indices ++ flat (tr.filterMap Act.popped?)).Perm (List.range txs.length) ∧
      (u.sched.finished = true ↔ ∀ i < txs.length, ∃ r, i ∈ r ∧ .finish r ∈ tr) ∧
      (u.sched.finished = true → (flat (tr.filterMap Act.popped?)).Perm (List.range txs.length)) ∧
      tr.countP Act.productive ≤ 2 * txs.length) ∧
    (u.sched.completed < txs.length → u.outstanding = [] →
      ∃ r d', Devin.pop txs u.sched = .ok (some r, d')) ∧
    (∃ value d', Devin.pop txs u.sched = .ok (value, d') ∧
      (∀ i ∈ flat value.toList, i ∈ u.sched.indices) ∧
      d'.indices = u.sched.indices.filter fun i => i ∉ flat value.toList) ∧
    (∀ r ∈ u.outstanding, ∃ d', Devin.finish txs r u.sched = .ok d') := by
  have hi := inv_run hrun
  have hpopped := popped_perm hrun
  have hflat : (flat (tr.filterMap Act.popped?)).Perm (flat u.outstanding ++ flat u.done) := by
    rw [← flat_append]
    exact flat_perm hpopped
  have hall : (u.sched.indices ++ flat (tr.filterMap Act.popped?)).Perm
      (List.range txs.length) := by
    refine (hflat.append_left _).trans ?_
    rw [← append_assoc]
    exact hi.partition
  have hfin : u.sched.finished = true ↔ ∀ i < txs.length, ∃ r, i ∈ r ∧ .finish r ∈ tr := by
    have hdone : ∀ i, i ∈ flat u.done ↔ ∃ r, i ∈ r ∧ .finish r ∈ tr := by
      intro i
      simp only [mem_flat, mem_done_iff hrun, and_comm]
    have hpos := length_pos_iff.mpr hne
    simp only [hi.finished, hi.completed_iff, ← hdone, and_iff_right_iff_imp]
    rintro h hnil
    have := h 0 hpos
    simp [hnil] at this
  refine ⟨⟨?_, hall, hfin, ?_, ?_⟩, hi.pop_isSome, ?_, ?_⟩
  · intro r hr
    exact hi.nonempty r (hpopped.mem_iff.mp (mem_filterMap.mpr ⟨_, hr, rfl⟩))
  · intro h
    have hc := (hi.finished.mp h).2
    have hlen := hi.partition.length_eq
    rw [hi.completed] at hc
    simp only [length_append, length_range] at hlen
    have hnil : u.sched.indices = [] := eq_nil_of_length_eq_zero (by omega)
    rwa [hnil, nil_append] at hall
  · have := productive_le hrun
    omega
  · obtain ⟨value, d', hpop⟩ := hi.pop_ok
    obtain ⟨taken, rest, hp⟩ := hi.popped hpop
    refine ⟨value, d', hpop, ?_, hp.indices_eq_filter hi.sorted⟩
    intro i hmem
    rw [hp.flat_value] at hmem
    rw [hp.split]
    simp [hmem]
  · intro r hr
    obtain ⟨locks, hf, -⟩ := hi.finish_spec hr
    exact ⟨_, hf⟩

theorem complete_once_rewriteBlock :
    ∃ u : St ℕ, (sys rewriteBlock).Run (start rewriteBlock)
        [.pop (some ⟨0, 2⟩), .finish ⟨0, 2⟩] u ∧
      ∃ r d', Devin.pop rewriteBlock u.sched = .ok (some r, d') := by
  have hrun := Lts.Run.cons (L := sys rewriteBlock)
    (Step.pop (s := start rewriteBlock) (some ⟨0, 2⟩) _ rfl)
    (.cons (.finish ⟨0, 2⟩ _ (by decide) rfl) .nil)
  exact ⟨_, hrun, (complete_once (by decide) hrun).2.1 (by decide) rfl⟩

end Salsa.Devin
