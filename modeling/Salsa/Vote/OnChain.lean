import Salsa.Vote.State

/-!
# Salsa.Vote.OnChain — the vote program accepts the local tower

A validator votes with its local tower; the vote program compares the tower it is
sent with the one the vote account holds, which may be any number of votes behind.
The two are written independently of each other.
-/

namespace Salsa.Vote

open List LandedVote TowerVoteState

namespace VoteState

variable (L : LockoutRule)

def lastVotedSlot (self : VoteState) : Option ℕ := self.votes.getLast?.map LandedVote.slot

def popExpiredVotes (self : VoteState) (nextVoteSlot : ℕ) : VoteState :=
  { self with votes := self.votes.rdropWhile fun v => !L.isLockedOutAtSlot v.lockout nextVoteSlot }

def doubleLockouts (self : VoteState) : VoteState :=
  let stackDepth := self.votes.length
  { self with
    votes := self.votes.mapIdx fun i v =>
      if i + v.confirmationCount < stackDepth then
        { v with lockout := v.lockout.increaseConfirmationCount 1 }
      else v }

def processNextVoteSlot (self : VoteState) (nextVoteSlot epoch currentSlot : ℕ) : VoteState :=
  if self.lastVotedSlot.any (nextVoteSlot ≤ ·) then self
  else
    let self := self.popExpiredVotes L nextVoteSlot
    let landedVote := ⟨computeVoteLatency nextVoteSlot currentSlot, Lockout.new nextVoteSlot⟩
    let self :=
      match self.votes with
      | [] => self
      | rootedVote :: votes =>
          if self.votes.length = maxLockoutHistory then
            let credits := self.creditsForVoteAtIndex 0
            incrementCredits { self with votes, rootSlot := some rootedVote.slot } epoch credits
          else self
    doubleLockouts { self with votes := self.votes ++ [landedVote] }

/-- The local tower with the votes and the root of an account. -/
def toTower (self : VoteState) : TowerVoteState := ⟨self.lockouts, self.rootSlot⟩

variable (self : VoteState)

theorem toTower_popExpiredVotes (next : ℕ) :
    (self.popExpiredVotes L next).toTower = self.toTower.popExpiredVotes L next := by
  simp only [toTower, popExpiredVotes, TowerVoteState.popExpiredVotes, lockouts, rdropWhile,
    map_reverse, TowerVoteState.mk.injEq, and_true, reverse_inj]
  rw [← map_reverse, dropWhile_map]
  rfl

theorem toTower_doubleLockouts : self.doubleLockouts.toTower = self.toTower.doubleLockouts := by
  simp only [toTower, doubleLockouts, TowerVoteState.doubleLockouts, lockouts, length_map]
  congr 1
  apply ext_getElem?
  intro i
  simp only [List.getElem?_map, List.getElem?_mapIdx, Option.map_map]
  congr 1
  funext v
  exact apply_ite lockout _ _ _

/-- One vote changes the account as it changes the local tower. -/
theorem toTower_processNextVoteSlot (next epoch currentSlot : ℕ) :
    (self.processNextVoteSlot L next epoch currentSlot).toTower =
      self.toTower.processNextVoteSlot L next := by
  have hlast : self.toTower.lastVotedSlot = self.lastVotedSlot := by
    rw [TowerVoteState.lastVotedSlot, toTower, lockouts, getLast?_map, Option.map_map]
    rfl
  rw [processNextVoteSlot, TowerVoteState.processNextVoteSlot, hlast]
  split_ifs
  · rfl
  rw [toTower_doubleLockouts, ← toTower_popExpiredVotes]
  generalize self.popExpiredVotes L next = popped
  rcases popped with ⟨_ | ⟨rooted, votes⟩, root, credits, stamp⟩
  · rfl
  · simp only [toTower, lockouts, map_cons, length_cons, length_map]
    split_ifs <;> simp [incrementCredits, slot]

/-- Whatever slots are voted on, in whatever epochs and at whatever slots the votes land, the
account and the local tower keep the same votes and the same root. -/
theorem tower_agrees (tower : TowerVoteState) (hvotes : self.lockouts = tower.votes)
    (hroot : self.rootSlot = tower.rootSlot) (calls : List (ℕ × ℕ × ℕ)) :
    (calls.foldl (fun s call => s.processNextVoteSlot L call.1 call.2.1 call.2.2) self).lockouts =
      (tower.processSlots L (calls.map Prod.fst)).votes ∧
    (calls.foldl (fun s call => s.processNextVoteSlot L call.1 call.2.1 call.2.2) self).rootSlot =
      (tower.processSlots L (calls.map Prod.fst)).rootSlot := by
  induction calls generalizing self tower with
  | nil => exact ⟨hvotes, hroot⟩
  | cons call calls ih =>
    have hstep := self.toTower_processNextVoteSlot L call.1 call.2.1 call.2.2
    rw [show self.toTower = tower by rw [toTower, hvotes, hroot]] at hstep
    exact ih _ _ (congrArg TowerVoteState.votes hstep) (congrArg TowerVoteState.rootSlot hstep)

theorem tower_agrees_two :
    let calls := [(0, 0, 1), (1, 0, 2)]
    let account : VoteState := ⟨[], none, [], ⟨0, 0⟩⟩
    (calls.foldl (fun s call => s.processNextVoteSlot doubling call.1 call.2.1 call.2.2)
      account).lockouts = [⟨0, 2⟩, ⟨1, 1⟩] :=
  (tower_agrees doubling ⟨[], none, [], ⟨0, 0⟩⟩ .empty rfl rfl [(0, 0, 1), (1, 0, 2)]).1

end VoteState

variable {s t : TowerVoteState}

section Succeeds

variable (L : LockoutRule)

/-- What has become of the vote `c` in a later tower. -/
inductive Became (c : Lockout) (t : TowerVoteState) : Prop where
  | kept (w : Lockout) : w ∈ t.votes → w.slot = c.slot →
      c.confirmationCount ≤ w.confirmationCount → Became c t
  | expired (last : ℕ) : t.lastVotedSlot = some last → c.slot < last →
      L.lastLockedOutSlot c < last →
      (∀ w ∈ t.votes, w.slot < c.slot ∨ c.slot < w.slot ∧ L.lastLockedOutSlot c < w.slot) →
      Became c t
  | rooted (r : ℕ) : t.rootSlot = some r → c.slot ≤ r → Became c t

/-- A tower reached from another one. -/
structure Succeeds (s t : TowerVoteState) : Prop where
  noRollback : NoRollback t.rootSlot s.rootSlot
  became : ∀ c ∈ s.votes, Became L c t

variable {L} {next : ℕ}

theorem noRollback_step (h : TowerInv L t) (next : ℕ) :
    NoRollback (t.processNextVoteSlot L next).rootSlot t.rootSlot := by
  intro r hr
  rcases old_or_new t next with ⟨v, hv, hle⟩ | hnext
  · rw [processNextVoteSlot_of_le hv hle]
    exact ⟨r, hr, Nat.le_refl r⟩
  · rcases processNextVoteSlot_cases (L := L) hnext with
      ⟨locked, expired, hsplit, ⟨-, hstep⟩ | ⟨rooted, rest, rfl, -, hstep⟩⟩
    · rw [hstep]
      exact ⟨r, hr, Nat.le_refl r⟩
    · rw [hstep]
      refine ⟨rooted.slot, rfl, ?_⟩
      apply (h.root_lt r hr rooted _).le
      rw [hsplit.eq]
      exact mem_append_left _ mem_cons_self

/-- What became of a lockout after one more vote. -/
theorem Became.step {c : Lockout} (h : Became L c t) (ht : TowerInv L t) (next : ℕ) :
    Became L c (t.processNextVoteSlot L next) := by
  rcases old_or_new t next with ⟨v, hv, hle⟩ | hnext
  · rw [processNextVoteSlot_of_le hv hle]
    exact h
  have hslots := pairwise_slot_of_chain ht.chain
  have hlast := getLast_processNextVoteSlot (L := L) hnext
  cases h with
  | kept w hw hslot hcount =>
    have hlt := slot_lt_of_last_lt hslots hnext w hw
    cases fate_of_mem (L := L) hslots hnext hw with
    | kept w' hw' hslot' hcount' => exact .kept w' hw' (hslot'.trans hslot) (hcount.trans hcount')
    | expired hfree hothers =>
      have hmono := L.mono hslot.symm hcount
      apply Became.expired next hlast
      · omega
      · omega
      · intro u hu
        rcases hothers u hu with hu | hu
        · left
          omega
        · right
          omega
    | rooted hroot => exact .rooted w.slot hroot hslot.ge
  | expired last hvoted hclast hfree hothers =>
    obtain ⟨v, hv, rfl⟩ := Option.map_eq_some_iff.mp hvoted
    have hlt := hnext v hv
    apply Became.expired next hlast
    · omega
    · omega
    · intro w hw
      obtain ⟨locked, expired, hsplit, hmem, -⟩ := mem_processNextVoteSlot (L := L) hnext
      rcases hmem w hw with hw | ⟨v, hv, hslot⟩
      · right
        omega
      · rw [← hslot]
        apply hothers v
        rw [hsplit.eq]
        exact mem_append_left _ hv
  | rooted r hr hle =>
    obtain ⟨r', hr', hle'⟩ := noRollback_step ht next r hr
    exact .rooted r' hr' (hle.trans hle')

theorem succeeds_refl (s : TowerVoteState) : Succeeds L s s where
  noRollback := fun r hr => ⟨r, hr, Nat.le_refl r⟩
  became := fun c hc => .kept c hc rfl (Nat.le_refl _)

theorem Succeeds.step (h : Succeeds L s t) (ht : TowerInv L t) (next : ℕ) :
    Succeeds L s (t.processNextVoteSlot L next) where
  noRollback := by
    intro r hr
    obtain ⟨r', hr', hle⟩ := h.noRollback r hr
    obtain ⟨r'', hr'', hle'⟩ := noRollback_step ht next r' hr'
    exact ⟨r'', hr'', hle.trans hle'⟩
  became := fun c hc => (h.became c hc).step ht next

theorem Succeeds.run (h : Succeeds L s t) (ht : TowerInv L t) (slots : List ℕ) :
    Succeeds L s (t.processSlots L slots) := by
  induction slots generalizing t with
  | nil => exact h
  | cons next slots ih => exact ih (h.step ht next) (ht.step next)

end Succeeds

/-! ## Acceptance -/

section Acceptance

variable {L : LockoutRule} {newState : List LandedVote}

theorem TowerInv.wellFormed (h : TowerInv L t) : WellFormed L t.votes t.rootSlot where
  length_le := h.length_le
  count_pos := by
    have hdeep := h.deep
    generalize t.votes = votes at hdeep
    induction votes with
    | nil =>
      intro v hv
      cases hv
    | cons v votes ih =>
      rw [forall_mem_cons]
      exact ⟨Nat.one_le_of_lt hdeep.1, ih hdeep.2⟩
  count_le := h.count_le
  chain := h.chain
  root_lt := fun r hr _ => h.root_lt r hr

/-- A vote that has been kept or has expired is upheld by the later tower. -/
theorem upheld_of_became {c : LandedVote} (ht : TowerInv L t)
    (hnew : newState.map lockout = t.votes) (h : Became L c.lockout t)
    (hroot : ∀ r ∈ t.rootSlot, r < c.slot) : Upheld L newState c := by
  have hwf : WellFormed L (newState.map lockout) t.rootSlot := by
    rw [hnew]
    exact ht.wellFormed
  have hslots := pairwise_slot_of_wellFormed hwf
  intro n hn
  obtain ⟨hmem, hle, hleast⟩ := least_of_find? hslots hn
  have hnt : n.lockout ∈ t.votes := by
    rw [← hnew]
    exact mem_map_of_mem hmem
  cases h with
  | kept w hw hslot hcount =>
    rw [← hnew] at hw
    obtain ⟨u, hu, rfl⟩ := mem_map.mp hw
    have hun := hleast u hu hslot.ge
    have hsame : n.slot = u.slot := by
      have hslot' : u.slot = c.slot := hslot
      omega
    have heq := eq_of_slot_eq hslots hmem hu hsame
    subst heq
    refine ⟨fun _ => hcount, ?_⟩
    intro hlt
    have hslot' : n.slot = c.slot := hslot
    omega
  | expired last hlast hclast hfree hothers =>
    have hn := hothers n.lockout hnt
    have hn : n.slot < c.slot ∨ c.slot < n.slot ∧ L.lastLockedOutSlot c.lockout < n.slot := hn
    refine ⟨fun heq => ?_, fun hlt => ?_⟩
    · omega
    · omega
  | rooted r hr hle =>
    have hlt := hroot r hr
    have hle : c.slot ≤ r := hle
    omega

theorem votes_ne_nil_of_step (s : TowerVoteState) (next : ℕ) :
    (s.processNextVoteSlot L next).votes ≠ [] := by
  intro hnil
  rcases old_or_new s next with ⟨v, hv, hle⟩ | hnext
  · rw [processNextVoteSlot_of_le hv hle] at hnil
    rw [hnil] at hv
    cases hv
  · have hlast := getLast_processNextVoteSlot (L := L) hnext
    rw [lastVotedSlot, hnil] at hlast
    cases hlast

theorem votes_ne_nil_of_run (s : TowerVoteState) (next : ℕ) (slots : List ℕ) :
    (s.processSlots L (next :: slots)).votes ≠ [] := by
  induction slots generalizing s next with
  | nil => exact votes_ne_nil_of_step s next
  | cons next' slots ih => exact ih (s.processNextVoteSlot L next) next'

/-- Grow a tower from an empty one, and grow it further by at least one call. A vote account
that holds the earlier tower takes the later one over; nothing but an old timestamp can stop
it. The tower itself is ordered by slots and, the other way, by confirmations, each vote
still locks out the next one, and the root never goes back. -/
theorem tower_accepted (L : LockoutRule) {s t : TowerVoteState} {slots later : List ℕ} {next : ℕ}
    (hs : s = TowerVoteState.empty.processSlots L slots) (ht : t = s.processSlots L (next :: later))
    {account : VoteState} (hvotes : account.lockouts = s.votes)
    (hroot : account.rootSlot = s.rootSlot) {newState : List LandedVote}
    (hnew : newState.map LandedVote.lockout = t.votes) (timestamp : Option ℤ)
    (epoch currentSlot : ℕ) :
    (∃ result account',
      account.processNewVoteState L newState t.rootSlot timestamp epoch currentSlot =
        some (result, account') ∧
      (account.TimestampAccepted newState timestamp ∧ result = .ok () ∧
        account'.lockouts = t.votes ∧ account'.rootSlot = t.rootSlot ∨
      ¬ account.TimestampAccepted newState timestamp ∧ result = .error .timestampTooOld)) ∧
    s.votes.Pairwise (fun v w => v.slot < w.slot) ∧
    s.votes.Pairwise (fun v w => w.confirmationCount < v.confirmationCount) ∧
    s.votes.IsChain (fun v w => w.slot ≤ L.lastLockedOutSlot v) ∧
    s.votes.length ≤ maxLockoutHistory ∧
    NoRollback t.rootSlot s.rootSlot := by
  have hsinv : TowerInv L s := by
    rw [hs]
    exact TowerInv.empty.run slots
  have htinv : TowerInv L t := by
    rw [ht]
    exact hsinv.run _
  have hsucceeds : Succeeds L s t := by
    rw [ht]
    exact (succeeds_refl s).run hsinv _
  have hheld : WellFormed L (account.votes.map lockout) s.rootSlot := by
    rw [show account.votes.map lockout = s.votes from hvotes]
    exact hsinv.wellFormed
  have hslots := pairwise_slot_of_wellFormed hheld
  have hne : newState ≠ [] := by
    intro hnil
    rw [hnil, ht] at hnew
    exact votes_ne_nil_of_run s next later hnew.symm
  have hacceptable : VoteState.Acceptable L account newState t.rootSlot := by
    refine ⟨hnew ▸ htinv.wellFormed, hroot ▸ hsucceeds.noRollback, fun c hc hcroot => ?_⟩
    refine upheld_of_became htinv hnew (hsucceeds.became _ ?_) hcroot
    exact hvotes ▸ mem_map_of_mem hc
  refine ⟨?_, pairwise_slot_of_chain hsinv.chain, ?_, ?_, hsinv.length_le, hsucceeds.noRollback⟩
  · rcases VoteState.processNewVoteState_ok hslots hne hacceptable timestamp epoch currentSlot with
      ⟨result, account', hprocess, ⟨hts, hok, hstored, hstoredRoot⟩ | ⟨hts, herr, -⟩⟩
    · refine ⟨result, account', hprocess, Or.inl ⟨hts, hok, ?_, hstoredRoot⟩⟩
      rw [hstored, hnew]
    · exact ⟨result, account', hprocess, Or.inr ⟨hts, herr⟩⟩
  · exact pairwise_count_of_chain hsinv.chain
  · exact hsinv.chain.imp fun _ _ h => h.le_lastLockedOut

end Acceptance

/-- The account of a tower that has voted on the slots 1 and 2. -/
def votedTwice : VoteState := ⟨[⟨1, 1, 2⟩, ⟨1, 2, 1⟩], none, [], ⟨0, 0⟩⟩

/-- It takes over the tower that has also voted on 3 and, when 2 and 3 had expired, on 8. -/
theorem tower_accepted_pair :
    ∃ result account',
      votedTwice.processNewVoteState doubling [⟨0, 1, 3⟩, ⟨0, 8, 1⟩] none none 0 9 =
        some (result, account') := by
  have hs : mk [⟨1, 2⟩, ⟨2, 1⟩] none = empty.processSlots doubling [1, 2] := by decide +kernel
  have ht : mk [⟨1, 3⟩, ⟨8, 1⟩] none =
      (mk [⟨1, 2⟩, ⟨2, 1⟩] none).processSlots doubling [3, 8] := by decide +kernel
  have hvotes : votedTwice.lockouts = [⟨1, 2⟩, ⟨2, 1⟩] := rfl
  have hroot : votedTwice.rootSlot = none := rfl
  have hnew : [mk 0 ⟨1, 3⟩, mk 0 ⟨8, 1⟩].map lockout = [⟨1, 3⟩, ⟨8, 1⟩] := rfl
  rcases (tower_accepted doubling hs ht hvotes hroot hnew none 0 9).1 with
    ⟨result, account', hprocess, -⟩
  exact ⟨result, account', hprocess⟩

end Salsa.Vote
