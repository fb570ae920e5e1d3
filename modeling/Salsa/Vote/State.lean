import Mathlib.Data.List.Nodup
import Salsa.Lib.Fallible
import Salsa.Vote.Tower

/-!
# Salsa.Vote.State — the vote account and its next state

`process_new_vote_state` of `programs/vote/src/vote_state/mod.rs`: the vote program
replaces the votes and the root of a vote account by proposed ones, after it has
checked that the proposal is well formed and takes no lockout back. The lockouts
are checked in one pass over both lists of votes, with a cursor in each.

Earned credits and timestamps are in the model; authorities, commission and the
account's other fields are not.
-/

namespace Salsa.Vote

open Fallible List Option

/-! ## The account -/

structure LandedVote where
  latency : ℕ
  lockout : Lockout
deriving DecidableEq, Repr

def LandedVote.slot (self : LandedVote) : ℕ := self.lockout.slot

def LandedVote.confirmationCount (self : LandedVote) : ℕ := self.lockout.confirmationCount

structure BlockTimestamp where
  slot : ℕ
  timestamp : ℤ
deriving DecidableEq, Repr

/-- What the vote program reads and writes of a vote account; a credits entry is an
epoch, the credits at its end and those at its start. -/
structure VoteState where
  votes : List LandedVote
  rootSlot : Option ℕ
  epochCredits : List (ℕ × ℕ × ℕ)
  lastTimestamp : BlockTimestamp
deriving DecidableEq, Repr

inductive VoteError where
  | voteTooOld | slotsMismatch | slotHashMismatch | emptySlots | timestampTooOld
  | lockoutConflict | newVoteStateLockoutMismatch | slotsNotOrdered | confirmationsNotOrdered
  | zeroConfirmations | confirmationTooLarge | rootRollBack | confirmationRollBack
  | slotSmallerThanRoot | tooManyVotes | rootOnDifferentFork | assertionFailed
deriving DecidableEq, Repr

def voteCreditsGraceSlots : ℕ := 2

def voteCreditsMaximumPerSlot : ℕ := 16

def maxEpochCreditsHistory : ℕ := 64

def computeVoteLatency (votedForSlot currentSlot : ℕ) : ℕ := min (currentSlot - votedForSlot) 255

namespace VoteState

def lockouts (self : VoteState) : List Lockout := self.votes.map LandedVote.lockout

def creditsForVoteAtIndex (self : VoteState) (index : ℕ) : ℕ :=
  let latency := self.votes[index]?.elim 0 LandedVote.latency
  if latency = 0 then 1
  else if latency ≤ voteCreditsGraceSlots then voteCreditsMaximumPerSlot
  else
    let diff := latency - voteCreditsGraceSlots
    if voteCreditsMaximumPerSlot ≤ diff then 1 else voteCreditsMaximumPerSlot - diff

def incrementCredits (self : VoteState) (epoch credits : ℕ) : VoteState :=
  let epochCredits : List (ℕ × ℕ × ℕ) :=
    match self.epochCredits.getLast? with
    | none => [(epoch, 0, 0)]
    | some (lastEpoch, lastCredits, prevCredits) =>
        if epoch = lastEpoch then self.epochCredits
        else
          let epochCredits :=
            if lastCredits ≠ prevCredits then
              self.epochCredits ++ [(epoch, lastCredits, lastCredits)]
            else self.epochCredits.dropLast ++ [(epoch, lastCredits, prevCredits)]
          if maxEpochCreditsHistory < epochCredits.length then epochCredits.tail
          else epochCredits
  { self with
    epochCredits := epochCredits.modifyLast fun (epoch, total, prev) =>
      (epoch, min (total + credits) (2 ^ 64 - 1), prev) }

/-- The check of `process_timestamp`. -/
def timestampTooOld (self : VoteState) (slot : ℕ) (timestamp : ℤ) : Bool :=
  let last := self.lastTimestamp
  (slot < last.slot || timestamp < last.timestamp) ||
    (slot == last.slot && BlockTimestamp.mk slot timestamp != last && last.slot != 0)

def processTimestamp (self : VoteState) (slot : ℕ) (timestamp : ℤ) : Except VoteError VoteState :=
  if self.timestampTooOld slot timestamp then .error .timestampTooOld
  else .ok { self with lastTimestamp := ⟨slot, timestamp⟩ }

end VoteState

/-! ## The checks of a proposal -/

section Checks

variable (L : LockoutRule)

/-- The root may not go back. -/
def checkRoot : Option ℕ → Option ℕ → Except VoteError Unit
  | some newRoot, some currentRoot => if newRoot < currentRoot then .error .rootRollBack else .ok ()
  | none, some _ => .error .rootRollBack
  | _, none => .ok ()

/-- A proposed vote, after the one before it. -/
def checkVote (newRoot : Option ℕ) (previousVote : Option LandedVote) (vote : LandedVote) :
    Except VoteError Unit :=
  if vote.confirmationCount = 0 then .error .zeroConfirmations
  else if maxLockoutHistory < vote.confirmationCount then .error .confirmationTooLarge
  -- a tower that has no root yet has root 0
  else if newRoot.any fun r => vote.slot ≤ r ∧ r ≠ 0 then .error .slotSmallerThanRoot
  else
    match previousVote with
    | none => .ok ()
    | some previousVote =>
        if vote.slot ≤ previousVote.slot then .error .slotsNotOrdered
        else if previousVote.confirmationCount ≤ vote.confirmationCount then
          .error .confirmationsNotOrdered
        else if L.lastLockedOutSlot previousVote.lockout < vote.slot then
          .error .newVoteStateLockoutMismatch
        else .ok ()

def checkVotes (newRoot : Option ℕ) : Option LandedVote → List LandedVote → Except VoteError Unit
  | _, [] => .ok ()
  | previousVote, vote :: votes => do
      checkVote L newRoot previousVote vote
      checkVotes newRoot (some vote) votes

/-- The current votes that the new root covers: the index of the first one above it, and
the credits earned by those below. -/
def rootedLoop (self : VoteState) (newRoot : ℕ) : List LandedVote → ℕ → ℕ → ℕ × ℕ
  | [], index, earnedCredits => (index, earnedCredits)
  | vote :: votes, index, earnedCredits =>
      if vote.slot ≤ newRoot then
        rootedLoop self newRoot votes (index + 1) (earnedCredits + self.creditsForVoteAtIndex index)
      else (index, earnedCredits)

/-- The pass over the current and the proposed votes, from the two cursors on. A vote in both
keeps its latency. -/
def lockoutLoop : List LandedVote → List LandedVote → Except VoteError (List LandedVote)
  | [], newVotes => .ok newVotes
  | _ :: _, [] => .ok []
  | currentVote :: currentVotes, newVote :: newVotes =>
      if currentVote.slot < newVote.slot then
        -- the new vote must have popped the current one
        if newVote.slot ≤ L.lastLockedOutSlot currentVote.lockout then .error .lockoutConflict
        else lockoutLoop currentVotes (newVote :: newVotes)
      else if currentVote.slot = newVote.slot then
        if newVote.confirmationCount < currentVote.confirmationCount then
          .error .confirmationRollBack
        else
          (({ newVote with latency := currentVote.latency }) :: ·) <$>
            lockoutLoop currentVotes newVotes
      else (newVote :: ·) <$> lockoutLoop (currentVote :: currentVotes) newVotes
termination_by currentVotes newVotes => currentVotes.length + newVotes.length

/-- The latency of a vote that is new. -/
def LandedVote.landed (currentSlot : ℕ) (self : LandedVote) : LandedVote :=
  if self.latency = 0 then { self with latency := computeVoteLatency self.slot currentSlot }
  else self

namespace VoteState

/-- The part of `process_new_vote_state` that only checks: the votes to store and the credits
earned. -/
def checkNewState (self : VoteState) (newState : List LandedVote) (newRoot : Option ℕ)
    (currentSlot : ℕ) : Except VoteError (List LandedVote × ℕ) :=
  if maxLockoutHistory < newState.length then .error .tooManyVotes
  else do
    checkRoot newRoot self.rootSlot
    checkVotes L newRoot none newState
    -- the index of the first current vote above the new root, and the credits of those below
    let rooted := newRoot.elim (0, 0) fun r => rootedLoop self r self.votes 0 0
    let newState ← lockoutLoop L (self.votes.drop rooted.1) newState
    return (newState.map (LandedVote.landed currentSlot), rooted.2)

/-- The part of `process_new_vote_state` that rewrites the account; none where the last
proposed vote is missing. An old timestamp stops it after the credits. -/
def storeNewState (self : VoteState) (newState : List LandedVote) (earnedCredits : ℕ)
    (newRoot : Option ℕ) (timestamp : Option ℤ) (epoch : ℕ) :
    Option (Except VoteError Unit × VoteState) := do
  let self := if self.rootSlot ≠ newRoot then self.incrementCredits epoch earnedCredits else self
  let stamped ←
    match timestamp with
    | none => some (.ok self)
    | some timestamp => newState.getLast?.map fun last => self.processTimestamp last.slot timestamp
  match stamped with
  | .error e => return (.error e, self)
  | .ok self => return (.ok (), { self with rootSlot := newRoot, votes := newState })

/-- `process_new_vote_state`, with the account it leaves; none where its assertion fails. -/
def processNewVoteState (self : VoteState) (newState : List LandedVote) (newRoot : Option ℕ)
    (timestamp : Option ℤ) (epoch currentSlot : ℕ) : Option (Except VoteError Unit × VoteState) :=
  if newState.isEmpty then none
  else
    match self.checkNewState L newState newRoot currentSlot with
    | .error e => some (.error e, self)
    | .ok (newState, earnedCredits) =>
        self.storeNewState newState earnedCredits newRoot timestamp epoch

end VoteState

end Checks

/-! ## What the checks accept -/

section Accepted

variable (L : LockoutRule)

/-- Votes and root as an account may hold them. -/
structure WellFormed (votes : List Lockout) (root : Option ℕ) : Prop where
  length_le : votes.length ≤ maxLockoutHistory
  count_pos : ∀ v ∈ votes, 1 ≤ v.confirmationCount
  count_le : ∀ v ∈ votes, v.confirmationCount ≤ maxLockoutHistory
  chain : votes.IsChain (Follows L)
  root_lt : ∀ r ∈ root, r ≠ 0 → ∀ v ∈ votes, r < v.slot

/-- The new root is not behind the current one. -/
def NoRollback (newRoot currentRoot : Option ℕ) : Prop :=
  ∀ r ∈ currentRoot, ∃ r' ∈ newRoot, r ≤ r'

/-- The first proposed vote at the slot of `vote` or above: it confirms `vote`, or has
expired it. -/
def Upheld (newState : List LandedVote) (vote : LandedVote) : Prop :=
  ∀ n ∈ newState.find? (vote.slot ≤ ·.slot),
    (vote.slot = n.slot → vote.confirmationCount ≤ n.confirmationCount) ∧
    (vote.slot < n.slot → L.lastLockedOutSlot vote.lockout < n.slot)

variable {L} {newRoot : Option ℕ}

theorem checkRoot_ok_iff {currentRoot : Option ℕ} :
    checkRoot newRoot currentRoot = .ok () ↔ NoRollback newRoot currentRoot := by
  unfold NoRollback
  cases newRoot <;> cases currentRoot <;> simp [checkRoot]

variable {previousVote : Option LandedVote}

theorem checkVote_ok_iff {vote : LandedVote} :
    checkVote L newRoot previousVote vote = .ok () ↔
      1 ≤ vote.confirmationCount ∧ vote.confirmationCount ≤ maxLockoutHistory ∧
      (∀ r ∈ newRoot, r ≠ 0 → r < vote.slot) ∧
      ∀ p ∈ previousVote, Follows L p.lockout vote.lockout := by
  have hroot : ¬ (newRoot.any fun r => vote.slot ≤ r ∧ r ≠ 0) = true ↔
      ∀ r ∈ newRoot, r ≠ 0 → r < vote.slot := by
    cases newRoot with
    | none => simp
    | some r =>
      simp only [any_some, decide_eq_true_eq, mem_def, some_inj, forall_eq']
      omega
  unfold checkVote
  rw [guard_eq_ok_iff, guard_eq_ok_iff, guard_eq_ok_iff, hroot, not_lt, Nat.one_le_iff_ne_zero]
  refine and_congr_right' (and_congr_right' (and_congr_right' ?_))
  cases previousVote with
  | none => simp
  | some p =>
    simp only [guard_eq_ok_iff, and_true, not_le, not_lt, mem_def, some_inj, forall_eq']
    constructor
    · rintro ⟨hslot, hcount, hlocked⟩
      exact ⟨hslot, hcount, hlocked⟩
    · intro h
      exact ⟨h.slot_lt, h.count_lt, h.le_lastLockedOut⟩

variable {votes : List LandedVote} {newState : List LandedVote} {newVotes : List LandedVote}
  {c n : LandedVote} {self : VoteState}

open LandedVote

theorem checkVotes_ok_iff :
    checkVotes L newRoot previousVote votes = .ok () ↔
      (∀ v ∈ votes, 1 ≤ v.confirmationCount ∧ v.confirmationCount ≤ maxLockoutHistory ∧
        ∀ r ∈ newRoot, r ≠ 0 → r < v.slot) ∧
      ((previousVote.toList ++ votes).map lockout).IsChain (Follows L) := by
  induction votes generalizing previousVote with
  | nil =>
    cases previousVote with
    | none => simp [checkVotes]
    | some p => simp [checkVotes]
  | cons vote votes ih =>
    rw [checkVotes, check_bind_eq_ok_iff, checkVote_ok_iff, ih, forall_mem_cons]
    cases previousVote with
    | none =>
      simp
      tauto
    | some p =>
      simp
      tauto

/-- The loop stops at the first vote above the new root. -/
theorem mem_drop_rootedLoop (self : VoteState) (r : ℕ)
    (hslots : votes.Pairwise fun v w => v.slot < w.slot) (n c : ℕ) :
    ∃ k, (rootedLoop self r votes n c).1 = n + k ∧
      ∀ v, v ∈ votes.drop k ↔ v ∈ votes ∧ r < v.slot := by
  induction votes generalizing n c with
  | nil => exact ⟨0, rfl, by simp⟩
  | cons vote votes ih =>
    rw [rootedLoop]
    by_cases hle : vote.slot ≤ r
    · obtain ⟨k, hk, hmem⟩ := ih hslots.of_cons (n + 1) (c + self.creditsForVoteAtIndex n)
      rw [if_pos hle, hk]
      refine ⟨k + 1, by omega, fun v => ?_⟩
      rw [drop_succ_cons, hmem, mem_cons]
      constructor
      · rintro ⟨hv, hlt⟩
        exact ⟨Or.inr hv, hlt⟩
      · rintro ⟨rfl | hv, hlt⟩
        · omega
        · exact ⟨hv, hlt⟩
    · have hlt := Nat.lt_of_not_le hle
      rw [if_neg hle]
      refine ⟨0, rfl, fun v => ?_⟩
      rw [drop_zero, iff_self_and, mem_cons]
      rintro (rfl | hv)
      · exact hlt
      · exact hlt.trans (rel_of_pairwise_cons hslots hv)

theorem upheld_cons_of_lt (h : n.slot < c.slot) :
    Upheld L (n :: newVotes) c ↔ Upheld L newVotes c := by
  unfold Upheld
  rw [find?_cons_of_neg]
  simpa using h

theorem upheld_cons_of_le (h : c.slot ≤ n.slot) :
    Upheld L (n :: newVotes) c ↔
      (c.slot = n.slot → c.confirmationCount ≤ n.confirmationCount) ∧
      (c.slot < n.slot → L.lastLockedOutSlot c.lockout < n.slot) := by
  unfold Upheld
  rw [find?_cons_of_pos]
  · simp only [mem_def, some_inj, forall_eq']
  · exact decide_eq_true h

/-- The pass, vote by vote: every current vote is compared with the first proposed vote at its slot
or above. -/
theorem lockoutLoop_ok_iff {current : List LandedVote} (newState : List LandedVote)
    (hcurrent : current.Pairwise fun v w => v.slot < w.slot) :
    (∃ stored, lockoutLoop L current newState = .ok stored) ↔
      ∀ c ∈ current, Upheld L newState c := by
  fun_induction lockoutLoop L current newState with
  | case1 newVotes => simp
  | case2 c current => simp [Upheld]
  | case3 c current n newVotes hlt hlocked =>
    -- the current vote still locks out the proposed one
    rw [forall_mem_cons, upheld_cons_of_le hlt.le]
    constructor
    · rintro ⟨stored, hstored⟩
      cases hstored
    · intro h
      omega
  | case4 c current n newVotes hlt hlocked ih =>
    rw [ih hcurrent.of_cons, forall_mem_cons, upheld_cons_of_le hlt.le, iff_and_self]
    intro _
    exact ⟨fun heq => absurd heq (Nat.ne_of_lt hlt), fun _ => by omega⟩
  | case5 c current n newVotes hlt heq hcount =>
    rw [forall_mem_cons, upheld_cons_of_le heq.le]
    constructor
    · rintro ⟨stored, hstored⟩
      cases hstored
    · intro h
      omega
  | case6 c current n newVotes hlt heq hcount ih =>
    -- the later current votes look past the matched one
    have hskip : ∀ c' ∈ current, (Upheld L (n :: newVotes) c' ↔ Upheld L newVotes c') := by
      intro c' hc'
      apply upheld_cons_of_lt
      rw [← heq]
      exact rel_of_pairwise_cons hcurrent hc'
    rw [exists_map_eq_ok_iff, ih hcurrent.of_cons, forall_mem_cons,
      upheld_cons_of_le heq.le, forall₂_congr hskip, iff_and_self]
    intro _
    exact ⟨fun _ => Nat.le_of_not_lt hcount, fun hgt => absurd hgt hlt⟩
  | case7 c current n newVotes hlt heq ih =>
    have hskip : ∀ c' ∈ c :: current, (Upheld L (n :: newVotes) c' ↔ Upheld L newVotes c') := by
      intro c' hc'
      apply upheld_cons_of_lt
      rcases mem_cons.mp hc' with rfl | hc'
      · omega
      · have hle := rel_of_pairwise_cons hcurrent hc'
        omega
    rw [exists_map_eq_ok_iff, ih hcurrent, forall₂_congr hskip]

theorem lockouts_of_lockoutLoop {current newState stored : List LandedVote}
    (h : lockoutLoop L current newState = .ok stored) :
    stored.map lockout = newState.map lockout := by
  fun_induction lockoutLoop L current newState generalizing stored with
  | case1 newVotes =>
    cases h
    rfl
  | case2 c current =>
    cases h
    rfl
  | case3 c current n newVotes hlt hlocked => cases h
  | case4 c current n newVotes hlt hlocked ih => exact ih h
  | case5 c current n newVotes hlt heq hcount => cases h
  | case6 c current n newVotes hlt heq hcount ih | case7 c current n newVotes hlt heq ih =>
    obtain ⟨rest, hrest, rfl⟩ := map_eq_ok_iff.mp h
    rw [map_cons, map_cons, ih hrest]

namespace VoteState

/-- What `process_new_vote_state` asks of a proposal, a current vote at a time. -/
structure Acceptable (L : LockoutRule) (account : VoteState) (newState : List LandedVote)
    (newRoot : Option ℕ) : Prop where
  wellFormed : WellFormed L (newState.map LandedVote.lockout) newRoot
  noRollback : NoRollback newRoot account.rootSlot
  upheld : ∀ c ∈ account.votes, (∀ r ∈ newRoot, r < c.slot) → Upheld L newState c

/-- The current votes from the cursor on are those above the new root. -/
theorem mem_drop_rooted {c : LandedVote} (hslots : self.votes.Pairwise fun v w => v.slot < w.slot) :
    c ∈ self.votes.drop (newRoot.elim (0, 0) fun r => rootedLoop self r self.votes 0 0).1 ↔
      c ∈ self.votes ∧ ∀ r ∈ newRoot, r < c.slot := by
  cases newRoot with
  | none => simp
  | some r =>
    obtain ⟨k, hk, hmem⟩ := mem_drop_rootedLoop self r hslots 0 0
    rw [elim_some, hk, Nat.zero_add, hmem]
    simp only [mem_def, some_inj, forall_eq']

/-- The checks pass exactly for acceptable states. -/
theorem checkNewState_ok_iff (currentSlot : ℕ)
    (hslots : self.votes.Pairwise fun v w => v.slot < w.slot) :
    (∃ out, self.checkNewState L newState newRoot currentSlot = .ok out) ↔
      Acceptable L self newState newRoot := by
  have hdrop : (self.votes.drop
      (newRoot.elim (0, 0) fun r => rootedLoop self r self.votes 0 0).1).Pairwise
        fun v w => v.slot < w.slot := hslots.sublist (drop_sublist _ _)
  unfold checkNewState
  constructor
  · rintro ⟨out, hout⟩
    rw [guard_eq_ok_iff, check_bind_eq_ok_iff, check_bind_eq_ok_iff, bind_eq_ok_iff] at hout
    obtain ⟨hlen, hroot, hvotes, stored, hstored, -⟩ := hout
    rw [checkVotes_ok_iff] at hvotes
    refine ⟨⟨?_, ?_, ?_, hvotes.2, ?_⟩, checkRoot_ok_iff.mp hroot, ?_⟩
    · rw [length_map]
      exact Nat.le_of_not_lt hlen
    · rw [List.forall_mem_map]
      intro v hv
      exact (hvotes.1 v hv).1
    · rw [List.forall_mem_map]
      intro v hv
      exact (hvotes.1 v hv).2.1
    · intro r hr hzero
      rw [List.forall_mem_map]
      intro v hv
      exact (hvotes.1 v hv).2.2 r hr hzero
    · intro c hc habove
      exact (lockoutLoop_ok_iff newState hdrop).mp ⟨stored, hstored⟩ c
        ((mem_drop_rooted hslots).mpr ⟨hc, habove⟩)
  · intro h
    have hwf := h.wellFormed
    have hloop := (lockoutLoop_ok_iff (L := L) newState hdrop).mpr fun c hc =>
      h.upheld c ((mem_drop_rooted hslots).mp hc).1 ((mem_drop_rooted hslots).mp hc).2
    obtain ⟨stored, hstored⟩ := hloop
    apply Exists.intro
    rw [guard_eq_ok_iff, check_bind_eq_ok_iff, check_bind_eq_ok_iff, bind_eq_ok_iff]
    refine ⟨?_, checkRoot_ok_iff.mpr h.noRollback, checkVotes_ok_iff.mpr ⟨?_, hwf.chain⟩,
      stored, hstored, rfl⟩
    · have hlen := hwf.length_le
      rw [length_map] at hlen
      exact Nat.not_lt.mpr hlen
    · intro v hv
      have hmem : v.lockout ∈ newState.map lockout := mem_map_of_mem hv
      exact ⟨hwf.count_pos _ hmem, hwf.count_le _ hmem,
        fun r hr hzero => hwf.root_lt r hr hzero _ hmem⟩

theorem lockouts_of_checkNewState {newState stored : List LandedVote} {currentSlot credits : ℕ}
    (h : self.checkNewState L newState newRoot currentSlot = .ok (stored, credits)) :
    stored.map lockout = newState.map lockout := by
  rw [checkNewState, guard_eq_ok_iff, check_bind_eq_ok_iff, check_bind_eq_ok_iff,
    bind_eq_ok_iff] at h
  obtain ⟨-, -, -, votes, hvotes, hout⟩ := h
  cases hout
  rw [← lockouts_of_lockoutLoop hvotes, List.map_map]
  congr 1
  funext v
  show (v.landed currentSlot).lockout = v.lockout
  unfold landed
  split_ifs <;> rfl

/-- The timestamp, if there is one, is not behind the last one. -/
def TimestampAccepted (self : VoteState) (newState : List LandedVote) (timestamp : Option ℤ) :
    Prop :=
  ∀ t ∈ timestamp, ∀ v ∈ (newState.map LandedVote.lockout).getLast?,
    self.timestampTooOld v.slot t = false

theorem not_timestampAccepted (self : VoteState) {last : LandedVote} (t : ℤ)
    (hlast : newState.getLast? = some last) :
    ¬ self.TimestampAccepted newState (some t) ↔ self.timestampTooOld last.slot t = true := by
  unfold TimestampAccepted
  rw [getLast?_map, hlast]
  simp only [map_some, mem_def, some_inj, forall_eq', Bool.not_eq_false]
  rfl

/-- An accepted proposal is written to the account, unless its timestamp is old. -/
theorem storeNewState_cases (self : VoteState) (hne : newState ≠ []) (earnedCredits : ℕ)
    (newRoot : Option ℕ) (timestamp : Option ℤ) (epoch : ℕ) :
    ∃ result self', self.storeNewState newState earnedCredits newRoot timestamp epoch =
        some (result, self') ∧
      (self.TimestampAccepted newState timestamp ∧ result = .ok () ∧ self'.votes = newState ∧
        self'.rootSlot = newRoot ∨
      ¬ self.TimestampAccepted newState timestamp ∧ result = .error .timestampTooOld ∧
        self'.votes = self.votes ∧ self'.rootSlot = self.rootSlot) := by
  -- the credits are all that changes before the timestamp is looked at
  have hcredited : ∃ credited : VoteState,
      (if self.rootSlot ≠ newRoot then self.incrementCredits epoch earnedCredits else self) =
        credited ∧ credited.votes = self.votes ∧ credited.rootSlot = self.rootSlot ∧
      credited.lastTimestamp = self.lastTimestamp := by
    refine ⟨_, rfl, ?_⟩
    split_ifs <;> exact ⟨rfl, rfl, rfl⟩
  obtain ⟨credited, hcredited, hvotes, hroot, hstamp⟩ := hcredited
  unfold storeNewState
  rw [hcredited]
  cases timestamp with
  | none =>
    refine ⟨.ok (), _, rfl, Or.inl ⟨?_, rfl, rfl, rfl⟩⟩
    intro t ht
    cases ht
  | some t =>
    rcases ne_none_iff_exists'.mp (mt getLast?_eq_none_iff.mp hne) with
      ⟨last, hlast⟩
    have hold : credited.timestampTooOld last.slot t = self.timestampTooOld last.slot t := by
      unfold timestampTooOld
      rw [hstamp]
    have haccepted := not_timestampAccepted self t hlast
    rw [hlast]
    unfold processTimestamp
    by_cases htoo : self.timestampTooOld last.slot t = true
    · refine ⟨.error .timestampTooOld, credited, ?_,
        Or.inr ⟨haccepted.mpr htoo, rfl, hvotes, hroot⟩⟩
      simp only [map_some, hold, htoo, if_true]
      rfl
    · refine ⟨.ok (), ⟨newState, newRoot, credited.epochCredits, ⟨last.slot, t⟩⟩, ?_,
        Or.inl ⟨not_not.mp (mt haccepted.mp htoo), rfl, rfl, rfl⟩⟩
      simp only [map_some, hold, htoo]
      rfl

/-- An acceptable proposal is stored; only an old timestamp can still stop it. -/
theorem processNewVoteState_ok (hslots : self.votes.Pairwise fun v w => v.slot < w.slot)
    (hne : newState ≠ []) (h : Acceptable L self newState newRoot) (timestamp : Option ℤ)
    (epoch currentSlot : ℕ) :
    ∃ result self',
      self.processNewVoteState L newState newRoot timestamp epoch currentSlot =
        some (result, self') ∧
      (self.TimestampAccepted newState timestamp ∧ result = .ok () ∧
        self'.lockouts = newState.map lockout ∧ self'.rootSlot = newRoot ∨
      ¬ self.TimestampAccepted newState timestamp ∧ result = .error .timestampTooOld ∧
        self'.votes = self.votes ∧ self'.rootSlot = self.rootSlot) := by
  have hempty : ¬ newState.isEmpty = true := mt isEmpty_iff.mp hne
  rcases (checkNewState_ok_iff currentSlot hslots).mpr h with
    ⟨⟨stored, credits⟩, hcheck⟩
  have hlockouts := lockouts_of_checkNewState hcheck
  have hstored : stored ≠ [] := by
    intro hnil
    rw [hnil, map_nil] at hlockouts
    exact hne (map_eq_nil_iff.mp hlockouts.symm)
  have haccepted : self.TimestampAccepted stored timestamp ↔
      self.TimestampAccepted newState timestamp := by
    unfold TimestampAccepted
    rw [hlockouts]
  rcases storeNewState_cases self hstored credits newRoot timestamp epoch with
    ⟨result, self', hstore, hcases⟩
  rw [haccepted] at hcases
  refine ⟨result, self', ?_, ?_⟩
  · rw [processNewVoteState, if_neg hempty, hcheck]
    exact hstore
  · rcases hcases with ⟨hts, hresult, hvotes, hroot⟩ | hold
    · refine Or.inl ⟨hts, hresult, ?_, hroot⟩
      rw [lockouts, hvotes, hlockouts]
    · exact Or.inr hold

end VoteState

/-- The first vote at a slot or above is the least such vote. -/
theorem least_of_find? {slot : ℕ} {t : LandedVote}
    (hslots : votes.Pairwise fun v w => v.slot < w.slot)
    (h : votes.find? (slot ≤ ·.slot) = some t) :
    t ∈ votes ∧ slot ≤ t.slot ∧ ∀ u ∈ votes, slot ≤ u.slot → t.slot ≤ u.slot := by
  obtain ⟨hle, before, after, rfl, hbefore⟩ := find?_eq_some_iff_append.mp h
  refine ⟨mem_append_right _ mem_cons_self, of_decide_eq_true hle, ?_⟩
  intro u hu hslot
  rcases mem_append.mp hu with hu | hu
  · have hnot := hbefore u hu
    rw [decide_eq_true hslot] at hnot
    cases hnot
  · rcases mem_cons.mp hu with rfl | hu
    · exact Nat.le_refl _
    · have hafter := (pairwise_append.mp hslots).2.1
      exact (rel_of_pairwise_cons hafter hu).le

theorem eq_of_slot_eq (hslots : votes.Pairwise fun v w => v.slot < w.slot) {v w : LandedVote}
    (hv : v ∈ votes) (hw : w ∈ votes) (h : v.slot = w.slot) : v = w := by
  have hnodup : (votes.map slot).Nodup := (pairwise_map.mpr hslots).imp Nat.ne_of_lt
  exact inj_on_of_nodup_map hnodup hv hw h

theorem pairwise_slot_of_wellFormed {root : Option ℕ} (h : WellFormed L (votes.map lockout) root) :
    votes.Pairwise fun v w => v.slot < w.slot := by
  have hslots := pairwise_slot_of_chain h.chain
  rw [pairwise_map] at hslots
  exact hslots

end Accepted

end Salsa.Vote
