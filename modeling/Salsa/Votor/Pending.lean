import Salsa.Votor.Handler

/-!
# Salsa.Votor.Pending — blocks that wait for their parent

A replayed block is voted for, or it is pending until a vote or a ready parent makes it
eligible. `Eligible` is the condition of `try_notar` on the vote history. A vote makes blocks
eligible in the slot after it only (`eligible_addVote`), and a new root or a ready parent inside
a window makes none eligible.
-/

namespace Salsa.Votor

open List VoteHistory

variable {Hash : Type} {h h' : VoteHistory Hash} {s t u : State Hash}
  {entry : Block Hash × Block Hash} {parentBlock : Block Hash} {slot : ℕ}

/-! ## In slot order -/

theorem mem_pushPending {pending : List (Block Hash × Block Hash)}
    {entry x : Block Hash × Block Hash} :
    x ∈ pushPending pending entry ↔ x = entry ∨ x ∈ pending := by
  unfold pushPending
  rw [mem_append, mem_cons, or_left_comm, ← mem_append, takeWhile_append_dropWhile]

def Sorted (s : State Hash) : Prop := s.pendingBlocks.Pairwise (·.1.1 ≤ ·.1.1)

theorem lt_of_mem_dropWhile {pending : List (Block Hash × Block Hash)}
    (hs : pending.Pairwise (·.1.1 ≤ ·.1.1)) :
    ∀ x ∈ pending.dropWhile (·.1.1 ≤ slot), slot < x.1.1 := by
  induction pending with
  | nil =>
    intro x hx
    cases hx
  | cons y pending ih =>
    rw [pairwise_cons] at hs
    intro x hx
    rw [dropWhile_cons] at hx
    split_ifs at hx with hy
    · exact ih hs.2 x hx
    · have hlt : slot < y.1.1 := by simpa using hy
      rcases mem_cons.mp hx with rfl | hx
      · exact hlt
      · exact hlt.trans_le (hs.1 x hx)

theorem Sorted.push (hs : Sorted s) (entry : Block Hash × Block Hash) :
    (pushPending s.pendingBlocks entry).Pairwise (·.1.1 ≤ ·.1.1) := by
  have hlow : ∀ x ∈ s.pendingBlocks.takeWhile (·.1.1 ≤ entry.1.1), x.1.1 ≤ entry.1.1 := by
    intro x hx
    exact of_decide_eq_true (all_eq_true.mp all_takeWhile x hx)
  have hhigh : ∀ x ∈ s.pendingBlocks.dropWhile (·.1.1 ≤ entry.1.1), entry.1.1 < x.1.1 :=
    lt_of_mem_dropWhile hs
  unfold pushPending
  rw [pairwise_append, pairwise_cons]
  refine ⟨hs.sublist (takeWhile_sublist _), ⟨fun x hx => (hhigh x hx).le,
    hs.sublist (dropWhile_sublist _)⟩, fun x hx y hy => ?_⟩
  rcases mem_cons.mp hy with rfl | hy
  · exact hlow x hx
  · exact (hlow x hx).trans (hhigh y hy).le

/-! ## Eligible blocks -/

variable [LeaderWindow]

/-- The conditions of `try_notar` beside not having voted, on the history. -/
def CanNotar (h : VoteHistory Hash) (block parentBlock : Block Hash) : Prop :=
  if leaderSlotIndex block.1 = 0 ∨ block.1 = 1 then (block.1, parentBlock) ∈ h.parentReadySlots
  else parentBlock.1 + 1 = block.1 ∧ h.votedNotarBlocks parentBlock.1 = some parentBlock.2

/-- `try_notar` would vote for the block. -/
def Eligible (h : VoteHistory Hash) (entry : Block Hash × Block Hash) : Prop :=
  entry.1.1 ∉ h.votedSlots ∧ CanNotar h entry.1 entry.2

/-- A history with more votes in the slots, or with fewer parents, has no more blocks eligible. -/
theorem Eligible.mono (hvoted : entry.1.1 ∉ h'.votedSlots → entry.1.1 ∉ h.votedSlots)
    (hready : leaderSlotIndex entry.1.1 = 0 ∨ entry.1.1 = 1 →
      (entry.1.1, entry.2) ∈ h'.parentReadySlots → (entry.1.1, entry.2) ∈ h.parentReadySlots)
    (hnotar : entry.2.1 + 1 = entry.1.1 → h'.votedNotarBlocks entry.2.1 = some entry.2.2 →
      h.votedNotarBlocks entry.2.1 = some entry.2.2)
    (he : Eligible h' entry) : Eligible h entry := by
  refine ⟨hvoted he.1, ?_⟩
  have hcan := he.2
  unfold CanNotar at hcan ⊢
  split_ifs at hcan ⊢ with hfirst
  · exact hready hfirst hcan
  · exact ⟨hcan.1, hnotar hcan.1 hcan.2⟩

theorem Eligible.of_setRoot {root : ℕ} (he : Eligible (h.setRoot root) entry) :
    Eligible h entry := by
  by_cases hroot : root ≤ entry.1.1
  · apply he.mono
    · intro hvoted hmem
      exact hvoted (Finset.mem_filter.mpr ⟨hmem, hroot⟩)
    · intro _ hmem
      exact (Finset.mem_filter.mp hmem).1
    · intro _ hnotar
      simp only [VoteHistory.setRoot] at hnotar
      split_ifs at hnotar
      exact hnotar
  · -- below the root the history has neither ready parents nor votes
    exfalso
    have hcan := he.2
    unfold CanNotar at hcan
    split_ifs at hcan
    · exact hroot (Finset.mem_filter.mp hcan).2
    · obtain ⟨hparent, hnotar⟩ := hcan
      simp only [VoteHistory.setRoot] at hnotar
      rw [if_neg (by omega)] at hnotar
      cases hnotar

/-- No block became pending or eligible. -/
structure Quiet (s t : State Hash) : Prop where
  pending : t.pendingBlocks <+ s.pendingBlocks
  eligible : ∀ entry, Eligible t.history entry → Eligible s.history entry

theorem Quiet.refl (s : State Hash) : Quiet s s := ⟨Sublist.refl _, fun _ => id⟩

theorem Quiet.trans (h : Quiet s t) (h' : Quiet t u) : Quiet s u :=
  ⟨h'.pending.trans h.pending, fun entry he => h.eligible entry (h'.eligible entry he)⟩

variable [DecidableEq Hash]

omit [LeaderWindow] in
/-- What a vote changes of what eligibility depends on. -/
theorem VoteHistory.addVote_changes {vote : Vote Hash} (hadd : h.addVote vote = some h') :
    h.votedSlots ⊆ h'.votedSlots ∧ h'.parentReadySlots = h.parentReadySlots ∧
      ∀ slot, h'.votedNotarBlocks slot = h.votedNotarBlocks slot ∨
        ∃ blockId, vote = .notarize slot blockId := by
  unfold addVote at hadd
  cases vote with
  | notarize slot blockId =>
    simp only [Option.bind_eq_bind, Option.bind_eq_some_iff, Option.pure_def,
      Option.some_inj] at hadd
    obtain ⟨-, -, -, -, -, -, -, rfl, rfl⟩ := hadd
    refine ⟨Finset.subset_insert _ _, rfl, fun x => ?_⟩
    by_cases hx : x = slot
    · exact Or.inr ⟨blockId, by rw [hx]⟩
    · exact Or.inl (Function.update_of_ne hx _ _)
  | finalize slot =>
    simp only [Option.bind_eq_bind, Option.bind_eq_some_iff, Option.pure_def,
      Option.some_inj] at hadd
    obtain ⟨-, -, -, -, -, rfl, rfl⟩ := hadd
    exact ⟨fun _ hx => hx, rfl, fun _ => Or.inl rfl⟩
  | skip slot =>
    simp only [Option.bind_eq_bind, Option.bind_eq_some_iff, Option.pure_def,
      Option.some_inj] at hadd
    obtain ⟨-, -, -, rfl, rfl⟩ := hadd
    exact ⟨Finset.subset_insert _ _, rfl, fun _ => Or.inl rfl⟩
  | notarizeFallback | skipFallback =>
    simp only [Option.bind_eq_bind, Option.bind_eq_some_iff, Option.pure_def,
      Option.some_inj] at hadd
    obtain ⟨-, -, -, -, -, -, -, rfl, rfl⟩ := hadd
    exact ⟨fun _ hx => hx, rfl, fun _ => Or.inl rfl⟩

/-- A vote makes blocks eligible only in the slot after a `Notarize` vote. -/
theorem eligible_addVote {vote : Vote Hash} (hadd : h.addVote vote = some h')
    (he : Eligible h' entry) :
    Eligible h entry ∨ ∃ slot blockId, vote = .notarize slot blockId ∧ entry.1.1 = slot + 1 := by
  obtain ⟨hvoted, hready, hnotar⟩ := addVote_changes hadd
  by_cases hnext : ∃ slot blockId, vote = .notarize slot blockId ∧ entry.1.1 = slot + 1
  · exact Or.inr hnext
  · left
    apply he.mono
    · exact fun hnot hmem => hnot (hvoted hmem)
    · rw [hready]
      exact fun _ => id
    · intro heq hnew
      rcases hnotar entry.2.1 with hsame | ⟨blockId, hvote⟩
      · rw [← hsame]
        exact hnew
      · exact absurd ⟨_, blockId, hvote, heq.symm⟩ hnext

/-- The state with a ready parent recorded. -/
def State.ready (slot : ℕ) (parentBlock : Block Hash) (s : State Hash) : State Hash :=
  { s with history :=
    { s.history with parentReadySlots := insert (slot, parentBlock) s.history.parentReadySlots } }

end Salsa.Votor
