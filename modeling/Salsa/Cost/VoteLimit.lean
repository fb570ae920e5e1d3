import Salsa.Cost.Tracker

/-!
# Salsa.Cost.VoteLimit — the vote limit of a proposer

While the validator leads a slot its bank takes fewer votes: `set_proposer_vote_limit` keeps the
protocol's limit aside for `restore_vote_limit`, and 0 says that nothing is kept. A bank made by
`Bank::new_from_parent` takes both limits over from its parent and restores the kept one.
-/

namespace Salsa.Cost

variable {Key : Type}

namespace CostTracker

variable (self : CostTracker Key)

def newFromParentLimits : CostTracker Key :=
  { defaultTracker with
    originalVoteCostLimit := self.originalVoteCostLimit
    accountCostLimit := self.accountCostLimit
    blockCostLimit := self.blockCostLimit
    voteCostLimit := self.voteCostLimit }

def setProposerVoteLimit : CostTracker Key :=
  { self with originalVoteCostLimit := self.voteCostLimit, voteCostLimit := 4000000 }

def restoreVoteLimit : CostTracker Key :=
  if 0 < self.originalVoteCostLimit then
    { self with voteCostLimit := self.originalVoteCostLimit, originalVoteCostLimit := 0 }
  else self

/-- The cost tracker in `Bank::new_from_parent`. -/
def newFromParent : CostTracker Key := self.newFromParentLimits.restoreVoteLimit

/-- The tracker has the limit in use, or keeps it. -/
def HasLimit (limit : U64) : Prop :=
  self.voteCostLimit = limit ∧ self.originalVoteCostLimit = 0 ∨ self.originalVoteCostLimit = limit

variable {self} {limit : U64}

theorem HasLimit.restore (hpos : 0 < limit) (h : self.HasLimit limit) :
    self.restoreVoteLimit.voteCostLimit = limit ∧
      self.restoreVoteLimit.originalVoteCostLimit = 0 := by
  unfold restoreVoteLimit
  rcases h with ⟨hlimit, hnone⟩ | hkept
  · rw [hnone, if_neg (by decide)]
    exact ⟨hlimit, hnone⟩
  · rw [hkept, if_pos hpos]
    exact ⟨rfl, rfl⟩

theorem HasLimit.new (hpos : 0 < limit) (h : self.HasLimit limit) :
    self.newFromParent.voteCostLimit = limit ∧ self.newFromParent.originalVoteCostLimit = 0 :=
  have hlimits : self.newFromParentLimits.HasLimit limit := h
  hlimits.restore hpos

end CostTracker

open CostTracker

/-- The trackers of a tree of banks with their calls. A tracker that keeps a limit is not set. -/
inductive Banks (limit : U64) : List (CostTracker Key) → Prop where
  | root {t : CostTracker Key} (hlimit : t.voteCostLimit = limit)
      (hnone : t.originalVoteCostLimit = 0) : Banks limit [t]
  | newFromParent {banks : List (CostTracker Key)} {parent : CostTracker Key}
      (h : Banks limit banks) (hparent : parent ∈ banks) :
      Banks limit (banks ++ [parent.newFromParent])
  | setProposerVoteLimit {before after : List (CostTracker Key)} {t : CostTracker Key}
      (h : Banks limit (before ++ t :: after)) (hnone : t.originalVoteCostLimit = 0) :
      Banks limit (before ++ t.setProposerVoteLimit :: after)
  | restoreVoteLimit {before after : List (CostTracker Key)} {t : CostTracker Key}
      (h : Banks limit (before ++ t :: after)) :
      Banks limit (before ++ t.restoreVoteLimit :: after)

variable {limit : U64} {banks : List (CostTracker Key)}

/-- Every tracker of a tree of banks has the protocol's limit, in use or kept, if none is set again
before it was restored. -/
theorem Banks.hasLimit (hpos : 0 < limit) (h : Banks limit banks) :
    ∀ t ∈ banks, t.HasLimit limit := by
  induction h with
  | root hlimit hnone =>
    intro t ht
    rw [List.mem_singleton.mp ht]
    exact Or.inl ⟨hlimit, hnone⟩
  | newFromParent h hparent ih =>
    intro t ht
    rcases List.mem_append.mp ht with ht | ht
    · exact ih t ht
    · rw [List.mem_singleton.mp ht]
      exact Or.inl ((ih _ hparent).new hpos)
  | setProposerVoteLimit h hnone ih =>
    rw [List.forall_mem_append, List.forall_mem_cons] at ih ⊢
    refine ⟨ih.1, Or.inr ?_, ih.2.2⟩
    rcases ih.2.1 with hlimit | hkept
    · exact hlimit.1
    · -- the limit is not 0, so it is not the mark that says that nothing is kept
      rw [← hkept, hnone] at hpos
      exact absurd hpos (by decide)
  | restoreVoteLimit h ih =>
    rw [List.forall_mem_append, List.forall_mem_cons] at ih ⊢
    exact ⟨ih.1, Or.inl (ih.2.1.restore hpos), ih.2.2⟩

/-- A new bank has the protocol's limit, and so has every bank after a restore. -/
theorem banks_voteLimit (hpos : 0 < limit) (h : Banks limit banks) (t : CostTracker Key)
    (ht : t ∈ banks) :
    t.newFromParent.voteCostLimit = limit ∧ t.restoreVoteLimit.voteCostLimit = limit := by
  have hlimit := h.hasLimit hpos t ht
  exact ⟨(hlimit.new hpos).1, (hlimit.restore hpos).1⟩

/-- A child of a bank in its leader slot. -/
theorem banks_voteLimit_leader :
    (defaultTracker : CostTracker ℕ).setProposerVoteLimit.newFromParent.voteCostLimit = 36000000 :=
  (banks_voteLimit (by decide) (@Banks.setProposerVoteLimit _ _ [] [] _ (.root rfl rfl) rfl) _
    List.mem_cons_self).1

/-- Set twice, the proposer's own limit is kept in the place of the protocol's. -/
theorem voteLimit_set_twice :
    let t := (defaultTracker : CostTracker ℕ).setProposerVoteLimit.setProposerVoteLimit
    t.restoreVoteLimit.voteCostLimit = 4000000 ∧ t.newFromParent.voteCostLimit = 4000000 :=
  ⟨rfl, rfl⟩

end Salsa.Cost
