import Salsa.Lib.Lts
import Salsa.Sync.State

/-!
# Salsa.Sync.System — the threads around the scheduler word

The concurrent system of `scheduler_synchronization.rs`, one step per atomic
operation, under sequentially consistent interleaving:

* any number of threads (`Tid`) inside `vanilla_should_schedule`: the first
  load, the `fetch_update`, the re-check load;
* the one block-stage thread of `BlockStage::process_loop`:
  `block_should_schedule`, then — after `Some(true)` — the spin in
  `wait_for_votes_to_finish`, the execution, and exactly one of
  `block_execution_finished` and `block_failed`;
* the vote worker of `VoteWorker::process_packets`, looping
  `begin_vote_processing`, the batch, `end_vote_processing`.

Two atomics are shared: `SCHEDULER_STATE` (`word`) and `VOTE_PROCESSING`
(`voteProcessing`). `Step.word_cases` and its companions say once what a step
can do; the invariants of `Salsa.Sync.Claims` and `Salsa.Sync.Votes` are
derived from them.
-/

namespace Salsa.Sync

/-- Where a thread is inside `vanilla_should_schedule`. -/
inductive VanillaPc where
  | idle
  /-- about to load the state for the first check -/
  | load (slot : Word) (inDelegationPeriod : Bool)
  | claim (slot : Word)
  /-- the `fetch_update` failed, about to load again -/
  | recheck (slot : Word)
  | ret (slot : Word) (answer : Option Bool)
deriving DecidableEq, Repr

/-- Where the block stage is in its claim section. -/
inductive BlockPc where
  | idle
  | call (slot : Word) (inDelegationPeriod : Bool)
  | ret (slot : Word) (answer : Option Bool)
  /-- claimed, spinning in `wait_for_votes_to_finish` -/
  | waiting (slot : Word)
  /-- between `wait_for_votes_to_finish` and the release -/
  | executing (slot : Word)
deriving DecidableEq, Repr

/-- Where the vote worker is in its loop. -/
inductive VotePc where
  | idle
  /-- flag stored, about to call `is_block_executing` -/
  | check (slot : Word)
  /-- a block is executing, about to clear the flag -/
  | backoff (slot : Word)
  | processing (slot : Word)
deriving DecidableEq, Repr

/-- The shared atomics and the program counters. -/
structure St (Tid : Type) where
  word : Word
  voteProcessing : Bool
  vanilla : Tid → VanillaPc
  block : BlockPc
  vote : VotePc

/-- The atomic actions, labelled with the arguments and outcomes that the
statements about traces mention. -/
inductive Act (Tid : Type) where
  | vanillaCall (t : Tid) (slot : Word) (inDelegationPeriod : Bool)
  | vanillaLoad (t : Tid)
  | vanillaClaim (t : Tid) (slot : Word) (ok : Bool)
  | vanillaRecheck (t : Tid)
  | vanillaRet (t : Tid) (slot : Word) (answer : Option Bool)
  | blockCall (slot : Word) (inDelegationPeriod : Bool)
  | blockSkip (slot : Word)
  | blockClaim (slot : Word) (ok : Bool)
  | blockRet (slot : Word) (answer : Option Bool)
  | blockWait (slot : Word)
  | blockFinished (slot : Word) (ok : Bool)
  | blockFailed (slot : Word) (ok : Bool)
  | voteBegin (slot : Word)
  | voteCheck (slot : Word)
  | voteBackoff (slot : Word)
  | voteEnd (slot : Word)
deriving DecidableEq

variable {Tid : Type} [DecidableEq Tid] {s s' : St Tid} {a : Act Tid}

def St.setVanilla (s : St Tid) (t : Tid) (pc : VanillaPc) : St Tid :=
  { s with vanilla := Function.update s.vanilla t pc }

/-- After the first load: answer at once, give up, or try to claim. -/
def afterLoad (word slot : Word) (inDelegationPeriod : Bool) : VanillaPc :=
  match claimedAnswer word slot with
  | some answer => .ret slot (some answer)
  | none => if inDelegationPeriod then .ret slot none else .claim slot

/-- One atomic action of one thread. -/
inductive Step : St Tid → Act Tid → St Tid → Prop where
  | vanillaCall {s : St Tid} (t : Tid) (slot : Word) (d : Bool) (hpc : s.vanilla t = .idle) :
      Step s (.vanillaCall t slot d) (s.setVanilla t (.load slot d))
  | vanillaLoad {s : St Tid} (t : Tid) (slot : Word) (d : Bool)
      (hpc : s.vanilla t = .load slot d) :
      Step s (.vanillaLoad t) (s.setVanilla t (afterLoad s.word slot d))
  | vanillaClaim {s : St Tid} (t : Tid) (slot : Word) (ok : Bool) (w : Word)
      (hpc : s.vanilla t = .claim slot)
      (hupd : fetchUpdate (vanillaUpdate slot) s.word = (ok, w)) :
      Step s (.vanillaClaim t slot ok)
        ({ s with word := w }.setVanilla t (if ok then .ret slot (some true) else .recheck slot))
  | vanillaRecheck {s : St Tid} (t : Tid) (slot : Word) (hpc : s.vanilla t = .recheck slot) :
      Step s (.vanillaRecheck t)
        (s.setVanilla t (.ret slot (some ((claimedAnswer s.word slot).getD false))))
  | vanillaRet {s : St Tid} (t : Tid) (slot : Word) (a : Option Bool)
      (hpc : s.vanilla t = .ret slot a) :
      Step s (.vanillaRet t slot a) (s.setVanilla t .idle)
  | blockCall {s : St Tid} (slot : Word) (d : Bool) (hpc : s.block = .idle) :
      Step s (.blockCall slot d) { s with block := .call slot d }
  | blockSkip {s : St Tid} (slot : Word) (hpc : s.block = .call slot false) :
      Step s (.blockSkip slot) { s with block := .ret slot none }
  | blockClaim {s : St Tid} (slot : Word) (ok : Bool) (w : Word) (hpc : s.block = .call slot true)
      (hupd : fetchUpdate (blockUpdate slot) s.word = (ok, w)) :
      Step s (.blockClaim slot ok) { s with word := w, block := .ret slot (some ok) }
  | blockRet {s : St Tid} (slot : Word) (a : Option Bool) (hpc : s.block = .ret slot a) :
      Step s (.blockRet slot a) { s with block := if a = some true then .waiting slot else .idle }
  | blockWait {s : St Tid} (slot : Word) (hpc : s.block = .waiting slot) :
      Step s (.blockWait slot)
        { s with block := if s.voteProcessing then .waiting slot else .executing slot }
  | blockFinished {s : St Tid} (slot : Word) (ok : Bool) (w : Word)
      (hpc : s.block = .executing slot)
      (hupd : fetchUpdate (finishedUpdate slot) s.word = (ok, w)) :
      Step s (.blockFinished slot ok) { s with word := w, block := .idle }
  | blockFailed {s : St Tid} (slot : Word) (ok : Bool) (w : Word)
      (hpc : s.block = .executing slot)
      (hupd : fetchUpdate (failedUpdate slot) s.word = (ok, w)) :
      Step s (.blockFailed slot ok) { s with word := w, block := .idle }
  | voteBegin {s : St Tid} (slot : Word) (hpc : s.vote = .idle) :
      Step s (.voteBegin slot) { s with voteProcessing := true, vote := .check slot }
  | voteCheck {s : St Tid} (slot : Word) (hpc : s.vote = .check slot) :
      Step s (.voteCheck slot)
        { s with vote := if isBlockExecuting s.word slot then .backoff slot else .processing slot }
  | voteBackoff {s : St Tid} (slot : Word) (hpc : s.vote = .backoff slot) :
      Step s (.voteBackoff slot) { s with voteProcessing := false, vote := .idle }
  | voteEnd {s : St Tid} (slot : Word) (hpc : s.vote = .processing slot) :
      Step s (.voteEnd slot) { s with voteProcessing := false, vote := .idle }

/-- Nothing scheduled, no flag, every thread outside. -/
def start : St Tid where
  word := sentinel
  voteProcessing := false
  vanilla := fun _ => .idle
  block := .idle
  vote := .idle

def sys (Tid : Type) [DecidableEq Tid] : Lts (St Tid) (Act Tid) where
  Init := fun s => s = start
  Step := Step

/-- The block stage holds its claim on `slot`: from the successful
`fetch_update` of `block_should_schedule` to the one of its release. -/
def Holds (s : St Tid) (slot : Word) : Prop :=
  s.block = .ret slot (some true) ∨ s.block = .waiting slot ∨ s.block = .executing slot

/-! ## What a step can do -/

omit [DecidableEq Tid] in
@[simp] theorem start_word : (start : St Tid).word = sentinel := rfl

@[simp] theorem setVanilla_word (s : St Tid) (t : Tid) (pc : VanillaPc) :
    (s.setVanilla t pc).word = s.word := rfl

@[simp] theorem setVanilla_block (s : St Tid) (t : Tid) (pc : VanillaPc) :
    (s.setVanilla t pc).block = s.block := rfl

@[simp] theorem setVanilla_self (s : St Tid) (t : Tid) (pc : VanillaPc) :
    (s.setVanilla t pc).vanilla t = pc := by
  simp [St.setVanilla]

@[simp] theorem setVanilla_ne (s : St Tid) {t t' : Tid} (pc : VanillaPc) (h : t' ≠ t) :
    (s.setVanilla t pc).vanilla t' = s.vanilla t' := by
  simp [St.setVanilla, h]

@[simp] theorem setVanilla_setVanilla (s : St Tid) (t : Tid) (pc pc' : VanillaPc) :
    (s.setVanilla t pc).setVanilla t pc' = s.setVanilla t pc' := by
  simp [St.setVanilla]

/-- The four kinds of step that change the word. -/
theorem Step.word_cases (h : Step s a s') :
    s'.word = s.word ∨
    (∃ t slot, a = .vanillaClaim t slot true ∧ s.vanilla t = .claim slot ∧
      (s.word = sentinel ∨ slotOf s.word < slot.toNat) ∧ s'.word = Sync.vanillaClaim slot) ∨
    (∃ slot, a = .blockClaim slot true ∧ s.block = .call slot true ∧
      (s.word = sentinel ∨ slotOf s.word < slot.toNat) ∧ s'.word = Sync.blockClaim slot) ∨
    (∃ slot, a = .blockFinished slot true ∧ s.block = .executing slot ∧
      slotOf s.word = slot.toNat ∧ isBlockClaim s.word = true ∧
      s'.word = Sync.vanillaClaim slot) ∨
    (∃ slot, a = .blockFailed slot true ∧ s.block = .executing slot ∧
      slotOf s.word = slot.toNat ∧ isBlockClaim s.word = true ∧
      s'.word = Sync.vanillaClaim (slot - 1)) := by
  cases h with
  | @vanillaClaim t slot ok w hpc hupd =>
    cases ok
    · exact Or.inl (fetchUpdate_eq_false.mp hupd).2
    · have hw := vanillaUpdate_eq_some.mp (fetchUpdate_eq_true.mp hupd)
      exact Or.inr (Or.inl ⟨t, slot, rfl, hpc, hw.1, hw.2⟩)
  | @blockClaim slot ok w hpc hupd =>
    cases ok
    · exact Or.inl (fetchUpdate_eq_false.mp hupd).2
    · have hw := blockUpdate_eq_some.mp (fetchUpdate_eq_true.mp hupd)
      exact Or.inr (Or.inr (Or.inl ⟨slot, rfl, hpc, hw.1, hw.2⟩))
  | @blockFinished slot ok w hpc hupd =>
    cases ok
    · exact Or.inl (fetchUpdate_eq_false.mp hupd).2
    · have hw := releaseUpdate_eq_some.mp (fetchUpdate_eq_true.mp hupd)
      exact Or.inr (Or.inr (Or.inr (Or.inl ⟨slot, rfl, hpc, hw.1, hw.2.1, hw.2.2⟩)))
  | @blockFailed slot ok w hpc hupd =>
    cases ok
    · exact Or.inl (fetchUpdate_eq_false.mp hupd).2
    · have hw := failedUpdate_eq_some.mp (fetchUpdate_eq_true.mp hupd)
      exact Or.inr (Or.inr (Or.inr (Or.inr ⟨slot, rfl, hpc, hw.1, hw.2.1, hw.2.2⟩)))
  | _ => exact Or.inl rfl

/-- The block stage comes to hold a slot only by a successful claim. -/
theorem Step.holds_cases {slot : Word} (h : Step s a s') (hh : Holds s' slot) :
    Holds s slot ∨
    (a = .blockClaim slot true ∧ (s.word = sentinel ∨ slotOf s.word < slot.toNat) ∧
      s.block = .call slot true ∧ s'.word = Sync.blockClaim slot) := by
  cases h with
  | @blockClaim slot' ok w hpc hupd =>
    simp only [Holds, BlockPc.ret.injEq, Option.some.injEq, reduceCtorEq, or_false] at hh
    obtain ⟨rfl, rfl⟩ := hh
    have hw := blockUpdate_eq_some.mp (fetchUpdate_eq_true.mp hupd)
    exact Or.inr ⟨rfl, hw.1, hpc, hw.2⟩
  | @blockRet slot' a hpc =>
    left
    by_cases ha : a = some true
    · subst ha
      simp only [Holds, if_true, BlockPc.waiting.injEq, reduceCtorEq, or_false, false_or] at hh
      subst hh
      exact Or.inl hpc
    · simp [Holds, ha] at hh
  | @blockWait slot' hpc =>
    left
    have : slot' = slot := by
      by_cases hv : s.voteProcessing = true <;> simpa [Holds, hv] using hh
    subst this
    exact Or.inr (Or.inl hpc)
  | blockCall | blockSkip | blockFinished | blockFailed => simp [Holds] at hh
  | _ => exact Or.inl hh

/-- A vanilla thread comes to answer `Some(true)` only when the word it saw, or
stored, is a vanilla claim of its slot. -/
theorem Step.pending_cases {t : Tid} {slot : Word}
    (h : Step s a s') (hp : s'.vanilla t = .ret slot (some true)) :
    s.vanilla t = .ret slot (some true) ∨
    (s'.word = s.word ∧ s'.block = s.block ∧ s.word ≠ sentinel ∧
      slotOf s.word = slot.toNat ∧ isBlockClaim s.word = false) ∨
    (s.vanilla t = .claim slot ∧ s'.block = s.block ∧
      (s.word = sentinel ∨ slotOf s.word < slot.toNat) ∧ s'.word = Sync.vanillaClaim slot) := by
  cases h with
  | @vanillaCall t' | @vanillaRet t' =>
    by_cases ht : t = t'
    · subst ht
      simp at hp
    · exact Or.inl (by simpa [ht] using hp)
  | @vanillaLoad t' slot' d hpc =>
    by_cases ht : t = t'
    · subst ht
      rw [setVanilla_self, afterLoad] at hp
      cases hans : claimedAnswer s.word slot' with
      | none =>
        rw [hans] at hp
        cases d <;> simp at hp
      | some answer =>
        rw [hans] at hp
        obtain ⟨rfl, rfl⟩ := hp
        obtain ⟨h₁, h₂, h₃⟩ := claimedAnswer_eq_some.mp hans
        exact Or.inr (Or.inl ⟨rfl, rfl, h₁, h₂, by simpa using h₃⟩)
    · exact Or.inl (by simpa [ht] using hp)
  | @vanillaClaim t' slot' ok w hpc hupd =>
    by_cases ht : t = t'
    · subst ht
      cases ok
      · simp at hp
      · simp only [if_true, setVanilla_self, VanillaPc.ret.injEq, and_true] at hp
        subst hp
        have hw := vanillaUpdate_eq_some.mp (fetchUpdate_eq_true.mp hupd)
        exact Or.inr (Or.inr ⟨hpc, rfl, hw.1, hw.2⟩)
    · exact Or.inl (by simpa [ht] using hp)
  | @vanillaRecheck t' slot' hpc =>
    by_cases ht : t = t'
    · subst ht
      rw [setVanilla_self] at hp
      simp only [VanillaPc.ret.injEq, Option.some.injEq] at hp
      obtain ⟨rfl, hans⟩ := hp
      cases hc : claimedAnswer s.word slot' with
      | none => simp [hc] at hans
      | some answer =>
        rw [hc] at hans
        obtain ⟨h₁, h₂, h₃⟩ := claimedAnswer_eq_some.mp hc
        have hb : isBlockClaim s.word = false := by
          rw [Option.getD_some] at hans
          simpa [hans] using h₃.symm
        exact Or.inr (Or.inl ⟨rfl, rfl, h₁, h₂, hb⟩)
    · exact Or.inl (by simpa [ht] using hp)
  | _ => exact Or.inl hp

end Salsa.Sync
