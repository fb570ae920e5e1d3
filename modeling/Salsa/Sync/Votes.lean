import Salsa.Sync.Claims

/-!
# Salsa.Sync.Votes — votes and block execution exclude each other

The handshake between the vote worker and the block stage: the worker stores
its flag and then looks at the claim, the block stage stores its claim and then
looks at the flag.

The claim is visible to the worker only below slot `2 ^ 63 - 1`: at that slot
the block claim is the sentinel (`votes_overlap_at_sentinel`).
-/

namespace Salsa.Sync

open Lts.Run

variable {Tid : Type} [DecidableEq Tid]

/-- A successful claim, by either scheduler, of a slot after `slot`. -/
def Act.ClaimsAfter (slot : Word) (a : Act Tid) : Prop :=
  ∃ later : Word, slot < later ∧
    ((∃ t, a = .vanillaClaim t later true) ∨ a = .blockClaim later true)

/-- The block stage lets go of its claim. -/
def Act.Releases (slot : Word) (a : Act Tid) : Prop :=
  ∃ ok, a = .blockFinished slot ok ∨ a = .blockFailed slot ok

/-! ## The flag -/

/-- The flag is up exactly while the worker is past its store. -/
def FlagInv (s : St Tid) : Prop := s.voteProcessing = true ↔ s.vote ≠ .idle

omit [DecidableEq Tid] in
theorem flagInv_start : FlagInv (start : St Tid) := by
  simp [FlagInv, start]

variable {s s' : St Tid} {a : Act Tid} {tr : List (Act Tid)} {slot : Word}

theorem flagInv_step (h : Step s a s') (hi : FlagInv s) : FlagInv s' := by
  cases h with
  | voteCheck slot hpc =>
    have hup : s.voteProcessing = true := hi.mpr (by simp [hpc])
    by_cases he : isBlockExecuting s.word slot = true <;> simp [FlagInv, hup, he]
  | voteBegin | voteBackoff | voteEnd => simp [FlagInv]
  | _ => exact hi

theorem flagInv_run (h : (sys Tid).Run s tr s') (hi : FlagInv s) : FlagInv s' :=
  h.inv FlagInv hi fun _ _ _ => flagInv_step

/-! ## The two critical sections -/

/-- The claim is in place while it is held, and execution excludes the batch. -/
structure Excluded (slot : Word) (s : St Tid) : Prop where
  claimed : Holds s slot → s.word = blockClaim slot
  apart : s.block = .executing slot → s.vote ≠ .processing slot

/-- Releasing a claim ends in the idle block stage. -/
theorem Step.not_holds_of_releases {slot held : Word} (h : Step s a s')
    (ha : a.Releases slot) : ¬ Holds s' held := by
  obtain ⟨ok, rfl | rfl⟩ := ha
  · cases h with
    | blockFinished => simp [Holds]
  · cases h with
    | blockFailed => simp [Holds]

/-- The claim in the word survives every step but a release and a later claim. -/
theorem claimed_step (hb : SlotBelow slot) (h : Step s a s') (hlater : ¬ a.ClaimsAfter slot)
    (hi : Holds s slot → s.word = blockClaim slot) (hh : Holds s' slot) :
    s'.word = blockClaim slot := by
  rcases h.holds_cases hh with hold | ⟨-, -, -, hw⟩
  swap
  · exact hw
  have hword : s.word = blockClaim slot := hi hold
  -- a claim that succeeds over `blockClaim slot` is one of a later slot
  have hlast : ∀ next : Word, (s.word = sentinel ∨ slotOf s.word < next.toNat) → slot < next := by
    intro next hc
    rw [hword, slotOf_blockClaim_of_below hb] at hc
    rcases hc with hc | hc
    · exact absurd hc (blockClaim_ne_sentinel hb)
    · exact hc
  rcases h.word_cases with hw | ⟨t, next, rfl, -, hc, -⟩ | ⟨next, rfl, -, hc, -⟩ |
    ⟨rel, rfl, -⟩ | ⟨rel, rfl, -⟩
  · rw [hw]
    exact hword
  · exact absurd ⟨next, hlast next hc, Or.inl ⟨t, rfl⟩⟩ hlater
  · exact absurd ⟨next, hlast next hc, Or.inr rfl⟩ hlater
  · exact absurd hh (h.not_holds_of_releases ⟨true, Or.inl rfl⟩)
  · exact absurd hh (h.not_holds_of_releases ⟨true, Or.inr rfl⟩)

/-- Each side looks at the other's announcement after its own: the block stage
starts to execute only with the flag down, the worker starts its batch only
with no claim in the word. -/
theorem apart_step (hb : SlotBelow slot) (h : Step s a s') (hf : FlagInv s) (hi : Excluded slot s)
    (hx : s'.block = .executing slot) : s'.vote ≠ .processing slot := by
  cases h with
  -- the wait ends with the flag down, and a worker in a batch has it up
  | blockWait slot' hpc =>
    intro hv
    cases hflag : s.voteProcessing with
    | true => simp [hflag] at hx
    | false =>
      have hidle : s.vote ≠ .idle := by
        rw [show s.vote = .processing slot from hv]
        simp
      have := hf.mpr hidle
      simp [hflag] at this
  -- the worker goes on only without a claim of its slot in the word
  | voteCheck slot' hpc =>
    intro hv
    have hword : s.word = blockClaim slot := hi.claimed (Or.inr (Or.inr hx))
    cases hex : isBlockExecuting s.word slot' with
    | true => simp [hex] at hv
    | false =>
      have hslot : slot' = slot := by simpa [hex] using hv
      have : isBlockExecuting s.word slot' = true := by
        rw [hslot, hword]
        exact isBlockExecuting_eq_true.mpr
          ⟨slotOf_blockClaim_of_below hb, isBlockClaim_blockClaim hb⟩
      simp [hex] at this
  | blockClaim slot' ok w hpc hupd => simp at hx
  | blockRet slot' a hpc => split_ifs at hx
  | blockCall | blockSkip | blockFinished | blockFailed => simp at hx
  | voteBegin | voteBackoff | voteEnd => simp
  | _ => exact hi.apart hx

theorem excluded_step (hb : SlotBelow slot) (h : Step s a s') (hlater : ¬ a.ClaimsAfter slot)
    (hf : FlagInv s) (hi : Excluded slot s) :
    Excluded slot s' where
  claimed := claimed_step hb h hlater hi.claimed
  apart := apart_step hb h hf hi

/-- The state right after the block stage's claim. -/
theorem excluded_of_claim (h : Step s (.blockClaim slot true) s') : Excluded slot s' := by
  cases h with
  | blockClaim _ _ w hpc hupd =>
    have hw := (blockUpdate_eq_some.mp (fetchUpdate_eq_true.mp hupd)).2
    exact ⟨fun _ => hw, fun hx => by simp at hx⟩

theorem excluded_run (hb : SlotBelow slot) (h : (sys Tid).Run s tr s')
    (hlater : ∀ a ∈ tr, ¬ a.ClaimsAfter slot) (hf : FlagInv s)
    (hi : Excluded slot s) : Excluded slot s' := by
  have both := h.inv_of_mem (fun s => FlagInv s ∧ Excluded slot s)
    (fun a => ¬ a.ClaimsAfter slot) hlater ⟨hf, hi⟩
    fun s a s' ha hstep hs => ⟨flagInv_step hstep hs.1, excluded_step hb hstep ha hs.1 hs.2⟩
  exact both.2

/-- A held slot was claimed, and not released since. -/
theorem exists_claim_of_holds {u : St Tid} (h : (sys Tid).Run start tr u) (hh : Holds u slot) :
    ∃ pre mid, tr = pre ++ .blockClaim slot true :: mid ∧ ∀ a ∈ mid, ¬ a.Releases slot := by
  induction h with
  | nil => simp [Holds, start] at hh
  | @snoc tr m u a hrun hstep ih =>
    -- either the claim was made earlier and this step is no release, or it is made here
    rcases Step.holds_cases hstep hh with hold | ⟨rfl, -⟩
    · obtain ⟨pre, mid, rfl, hmid⟩ := ih hold
      refine ⟨pre, mid ++ [a], by simp, ?_⟩
      intro b hb hrel
      rcases List.mem_append.mp hb with hb | hb
      · exact hmid b hb hrel
      · obtain rfl := List.mem_singleton.mp hb
        exact Step.not_holds_of_releases hstep hrel hh
    · exact ⟨tr, [], rfl, by simp⟩

/-- In every run, while the block stage is between `wait_for_votes_to_finish`
and the release of its claim on `slot`, the vote worker is not processing a
batch for `slot`, provided no later slot has been claimed since the claim. -/
theorem votes_excluded {u : St Tid} {tr : List (Act Tid)} {slot : Word}
    (hrun : (sys Tid).Run start tr u) (hb : SlotBelow slot) (hx : u.block = .executing slot) :
    ∃ pre mid, tr = pre ++ .blockClaim slot true :: mid ∧
      (∀ a ∈ mid, ¬ a.Releases slot) ∧
      ((∀ a ∈ mid, ¬ a.ClaimsAfter slot) → u.vote ≠ .processing slot) := by
  obtain ⟨pre, mid, rfl, hmid⟩ := exists_claim_of_holds hrun (Or.inr (Or.inr hx))
  refine ⟨pre, mid, rfl, hmid, fun hlater => ?_⟩
  obtain ⟨m, m', hpre, hstep, hpost⟩ := hrun.split_cons
  have hf : FlagInv m' := flagInv_step hstep (flagInv_run hpre flagInv_start)
  exact (excluded_run hb hpost hlater hf (excluded_of_claim hstep)).apart hx

/-- A worker that raises its flag between the claim and the wait backs off, and
the block stage then executes alone. -/
theorem votes_excluded_five :
    ∃ (tr : List (Act Unit)) (u : St Unit), (sys Unit).Run start tr u ∧ SlotBelow 5 ∧
      Act.voteBackoff 5 ∈ tr ∧ u.block = .executing 5 ∧
      ∃ pre mid, tr = pre ++ .blockClaim 5 true :: mid ∧ (∀ a ∈ mid, ¬ a.Releases 5) ∧
        ((∀ a ∈ mid, ¬ a.ClaimsAfter 5) → u.vote ≠ .processing 5) := by
  have hrun := cons (L := sys Unit) (Step.blockCall (s := start) 5 true rfl)
    (.cons (.blockClaim 5 true (blockClaim 5) rfl (by decide))
    (.cons (.voteBegin 5 rfl)
    (.cons (.blockRet 5 (some true) rfl)
    (.cons (.voteCheck 5 rfl)
    (.cons (.voteBackoff 5 rfl)
    (.cons (.blockWait 5 rfl) .nil))))))
  have hb : SlotBelow 5 := by unfold SlotBelow; decide
  exact ⟨_, _, hrun, hb, by simp, rfl, votes_excluded hrun hb rfl⟩

/-- At slot `2 ^ 63 - 1`, which is `slotMask`, the block claim is the sentinel,
the worker does not see it, and both critical sections are entered. -/
theorem votes_overlap_at_sentinel :
    ∃ (tr : List (Act Unit)) (u : St Unit), (sys Unit).Run start tr u ∧
      (∀ a ∈ tr, ¬ a.ClaimsAfter slotMask) ∧
      u.block = .executing slotMask ∧ u.vote = .processing slotMask := by
  have hrun := cons (L := sys Unit) (Step.blockCall (s := start) slotMask true rfl)
    (.cons (.blockClaim slotMask true sentinel rfl (by decide))
    (.cons (.blockRet slotMask (some true) rfl)
    (.cons (.blockWait slotMask rfl)
    (.cons (.voteBegin slotMask rfl)
    (.cons (.voteCheck slotMask rfl) .nil)))))
  refine ⟨_, _, hrun, ?_, rfl, rfl⟩
  rintro a ha ⟨later, hlt, ⟨t, rfl⟩ | rfl⟩
  · simp at ha
  · obtain rfl : later = slotMask := by simpa using ha
    exact BitVec.lt_irrefl _ hlt

end Salsa.Sync
