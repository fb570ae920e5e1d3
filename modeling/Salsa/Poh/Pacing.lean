import Mathlib.Tactic

/-!
# Salsa.Poh.Pacing — when consecutive leader slots start

A bank stores when its slot is expected to end (`cavey_next_time`).  The next slot of the same
leader starts there: PoH takes that time in `set_bank`, moved up when the slot before ran long, and
the replay stage announces it to the block auction, with a clamp of its own.  The two agree except
when the slot before finished early: only the announced start is clamped from above.
-/

namespace Salsa.Pacing

/-- One time on the monotonic and on the wall clock, in nanoseconds. -/
structure ClockTime where
  instant : ℤ
  system : ℤ
deriving DecidableEq

/-- `ms` milliseconds later. -/
def ClockTime.plus (c : ClockTime) (ms : ℤ) : ClockTime :=
  ⟨c.instant + ms * 1000000, c.system + ms * 1000000⟩

/-- What the pacing reads of a bank. -/
structure Bank (Id : Type) where
  slot : ℕ
  collectorId : Id
  caveyNextTime : ClockTime

variable {Id : Type} [DecidableEq Id]

def Bank.isConsecutiveLeader (parent : Bank Id) (collectorId : Id) (slot : ℕ) : Bool :=
  parent.collectorId = collectorId ∧ parent.slot + 1 = slot

def Bank.newFromParent (parent : Bank Id) (collectorId : Id) (slot : ℕ) (now : ClockTime) :
    Bank Id where
  slot := slot
  collectorId := collectorId
  caveyNextTime :=
    if parent.isConsecutiveLeader collectorId slot then parent.caveyNextTime.plus 400
    else now.plus 400

/-- `PohRecorder::set_bank`: the parent, the bank and the start time of PoH after it. -/
def setBank (parent bank : Bank Id) (startTime : ℤ) (now : ClockTime) : Bank Id × Bank Id × ℤ :=
  if parent.isConsecutiveLeader bank.collectorId bank.slot then
    let minStartTime := now.plus (-200)
    if parent.caveyNextTime.instant < minStartTime.instant then
      ({ parent with caveyNextTime := minStartTime },
        { bank with caveyNextTime := minStartTime.plus 400 }, minStartTime.instant)
    else (parent, bank, parent.caveyNextTime.instant)
  else (parent, bank, startTime)

/-- The window start that `maybe_start_leader` announces. -/
def windowStartTime (parent : Bank Id) (collectorId : Id) (slot : ℕ) (now : ClockTime) : ℤ :=
  if parent.isConsecutiveLeader collectorId slot then
    min (max parent.caveyNextTime.system (now.plus (-200)).system) now.system
  else now.system

/-- One leader slot: the clock reading, the end expected of the slot before, and what is made of
them. -/
structure Slot (Id : Type) where
  now : ClockTime
  parentNextTime : ClockTime
  bank : Bank Id
  startTime : ℤ
  windowStart : ℤ

/-- The leader starts the slot after `parent`.  The PoH service takes the bank from a channel, so
the replay stage may read the parent before or after `set_bank` has rewritten it. -/
def Slot.next (parent : Bank Id) (startTime : ℤ) (now : ClockTime) (announcedFirst : Bool) :
    Slot Id :=
  let bank := parent.newFromParent parent.collectorId (parent.slot + 1) now
  let set := setBank parent bank startTime now
  { now, parentNextTime := parent.caveyNextTime, bank := set.2.1, startTime := set.2.2
    windowStart := windowStartTime (if announcedFirst then parent else set.1)
      bank.collectorId bank.slot now }

/-- Consecutive slots of one leader, at the given clock readings; the wall clock is `offset` ahead
of the monotonic one. -/
def leaderSlots (offset : ℤ) : Bank Id → ℤ → List (ℤ × Bool) → List (Slot Id)
  | _, _, [] => []
  | parent, startTime, (t, announcedFirst) :: readings =>
    let slot := Slot.next parent startTime ⟨t, t + offset⟩ announcedFirst
    slot :: leaderSlots offset slot.bank slot.startTime readings

/-- PoH and the auction agree on the start, it lies in the 200 ms before the reading, and the slot
is expected to end 400 ms after it. -/
def Slot.Paced (offset : ℤ) (s : Slot Id) : Prop :=
  s.windowStart = s.startTime + offset ∧
    (s.now.plus (-200)).instant ≤ s.startTime ∧ s.startTime ≤ s.now.instant ∧
    s.bank.caveyNextTime = ClockTime.plus ⟨s.startTime, s.startTime + offset⟩ 400
deriving Decidable

variable {offset : ℤ} {parent : Bank Id}

/-- While the clocks are in step, PoH clamps from below only and the announcement on both sides. -/
theorem Slot.next_eq {e : ℤ} (he : parent.caveyNextTime = ⟨e, e + offset⟩)
    (startTime t : ℤ) (announcedFirst : Bool) :
    Slot.next parent startTime ⟨t, t + offset⟩ announcedFirst =
      { now := ⟨t, t + offset⟩, parentNextTime := ⟨e, e + offset⟩
        bank := ⟨parent.slot + 1, parent.collectorId,
          ClockTime.plus ⟨max e (t - 200000000), max e (t - 200000000) + offset⟩ 400⟩
        startTime := max e (t - 200000000)
        windowStart := min (max e (t - 200000000)) t + offset } := by
  by_cases hlate : e + 200000000 < t
  · have hmax : max e (t - 200000000) = t + -200000000 := by omega
    cases announcedFirst <;> simp [Slot.next, setBank, Bank.newFromParent,
      Bank.isConsecutiveLeader, he, ClockTime.plus, windowStartTime, hlate, hmax] <;> omega
  · have hmax : max e (t - 200000000) = e := by omega
    simp [Slot.next, setBank, Bank.newFromParent, Bank.isConsecutiveLeader, he, ClockTime.plus,
      windowStartTime, hlate, hmax]
    omega

/-- Over consecutive leader slots from one whose end is expected at `e`: the later slots that are
paced are exactly those whose slot before was not expected to end after the reading. -/
theorem leaderSlots_paced {parent : Bank Id} {e : ℤ}
    (he : parent.caveyNextTime = ⟨e, e + offset⟩) (startTime : ℤ) (readings : List (ℤ × Bool)) :
    ∀ s ∈ leaderSlots offset parent startTime readings,
      s.Paced offset ↔ s.parentNextTime.instant ≤ s.now.instant := by
  induction readings generalizing parent e startTime with
  | nil => simp [leaderSlots]
  | cons r readings ih =>
    rw [leaderSlots, List.forall_mem_cons, Slot.next_eq he]
    refine ⟨?_, ih (e := max e (r.1 - 200000000) + 400000000) ?_ _⟩
    · simp [Slot.Paced, ClockTime.plus]
    · simp [ClockTime.plus, add_right_comm]

/-- A slot that starts late and one that starts on time. -/
theorem leaderSlots_paced_late :
    ((leaderSlots 7 (Bank.newFromParent ⟨3, 1, ⟨0, 7⟩⟩ 2 4 ⟨0, 7⟩) 0
      [(900000000, true), (1200000000, false)]).all fun s => s.Paced 7) = true := by
  rw [List.all_eq_true]
  intro s hs
  rw [decide_eq_true_eq, leaderSlots_paced (e := 400000000) rfl 0 _ s hs]
  revert s
  decide

/-- The first slot finishes 100 ms early: PoH starts the second at its expected end, 100 ms after
the reading that is announced. -/
theorem leaderSlots_early :
    (leaderSlots 7 (Bank.newFromParent ⟨3, 1, ⟨0, 7⟩⟩ 2 4 ⟨0, 7⟩) 0 [(300000000, true)]).map
      (fun s => (s.startTime, s.windowStart)) = [(400000000, 300000007)] := by
  decide

end Salsa.Pacing
