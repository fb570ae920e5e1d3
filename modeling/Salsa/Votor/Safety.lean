import Salsa.Lib.Lts
import Salsa.Votor.Pending

/-!
# Salsa.Votor.Safety — a validator does not contradict its votes

Every event keeps the invariant `Inv`: the vote history tells the log for the slots from
its root on, the log follows the rules of voting, what may still be voted on lies at or above
the root of the history (`Coherent`), and no pending block is eligible. Below the root the history
knows nothing, and nothing is voted there.

Most helpers of the handler are `Calm` from a fixed state on: `Coherent` is kept, the roots are the
same, the log is longer, and no block became pending or eligible. Only a `Notarize` vote, a ready
parent or a new root leaves that relation.
-/

namespace Salsa.Votor

open Program List Triple

variable {Hash : Type} {slot : ℕ}

/-! ## The invariant -/

/-- A block that may be voted on: at or above the root of the history, and voted on
already if at the root. -/
def Votable (s : State Hash) (block : Block Hash) : Prop :=
  s.history.root ≤ block.1 ∧ (block.1 = s.history.root → Voted s.log block.1)

/-- The history tells the log, and the log is safe. -/
structure Coherent (s : State Hash) : Prop where
  faithful : Faithful s.history s.log
  safe : Safe s.log
  root_le : s.history.root ≤ s.bankRoot
  pending : ∀ entry ∈ s.pendingBlocks, Votable s entry.1

/-- The roots of a state are those of an earlier one, and its log continues that one's. -/
structure Grows (s₀ s : State Hash) : Prop where
  root : s.history.root = s₀.history.root
  bankRoot : s.bankRoot = s₀.bankRoot
  log : s₀.log ⊆ s.log

theorem Grows.refl (s : State Hash) : Grows s s := ⟨rfl, rfl, fun _ h => h⟩

theorem Grows.trans {s₀ s₁ s₂ : State Hash} (h : Grows s₀ s₁) (h' : Grows s₁ s₂) : Grows s₀ s₂ :=
  ⟨h'.root.trans h.root, h'.bankRoot.trans h.bankRoot, fun _ hx => h'.log (h.log hx)⟩

theorem Voted.mono {log log' : List (Entry Hash)} (hsub : log ⊆ log')
    (h : Voted log slot) : Voted log' slot := by
  rcases h with ⟨blockId, hmem⟩ | hmem
  · exact Or.inl ⟨blockId, hsub hmem⟩
  · exact Or.inr (hsub hmem)

variable {s₀ s : State Hash} {block : Block Hash}

theorem Votable.grows (h : Votable s₀ block) (hg : Grows s₀ s) : Votable s block := by
  constructor
  · rw [hg.root]
    exact h.1
  · intro heq
    exact (h.2 (heq.trans hg.root)).mono hg.log

/-- A block above the root of bank forks may be voted on. -/
theorem Coherent.votable (hs : Coherent s) (hlt : s.bankRoot < block.1) : Votable s block := by
  have hroot := hs.root_le
  exact ⟨by omega, fun heq => by omega⟩

/-- `Coherent`, and what has happened since `s₀`. -/
def Since (s₀ s : State Hash) : Prop := Coherent s ∧ Grows s₀ s

theorem Coherent.since (h : Coherent s) : Since s s := ⟨h, Grows.refl s⟩

theorem Since.trans {t : State Hash} (h : Since s₀ s) (h' : Since s t) : Since s₀ t :=
  ⟨h'.1, h.2.trans h'.2⟩

theorem Since.votes (h : Since s₀ s) (votes : List (Vote Hash)) :
    Since s₀ { s with votes := votes } :=
  ⟨⟨h.1.faithful, h.1.safe, h.1.root_le, h.1.pending⟩, h.2.root, h.2.bankRoot, h.2.log⟩

/-- An entry that the log allows, with a history that tells it. -/
theorem Since.snoc (h : Since s₀ s) {history : VoteHistory Hash} {entry : Entry Hash}
    (hroot : history.root = s.history.root) (hf : Faithful history (s.log ++ [entry]))
    (hallows : Allows s.log entry) :
    Since s₀ { s with history := history, log := s.log ++ [entry] } := by
  have hgrows : Grows s { s with history := history, log := s.log ++ [entry] } :=
    ⟨hroot, rfl, subset_append_left _ _⟩
  refine ⟨⟨hf, h.1.safe.snoc hallows, ?_, ?_⟩, h.2.trans hgrows⟩
  · rw [hroot]
    exact h.1.root_le
  · intro entry hentry
    exact (h.1.pending entry hentry).grows hgrows

theorem Since.pending (h : Since s₀ s) {pending : List (Block Hash × Block Hash)}
    (hp : ∀ entry ∈ pending, Votable s entry.1) : Since s₀ { s with pendingBlocks := pending } :=
  ⟨⟨h.1.faithful, h.1.safe, h.1.root_le, hp⟩, h.2.root, h.2.bankRoot, h.2.log⟩

/-- The loop ends for an error, never for an assertion. -/
def Ends (stop : Stop) (s : State Hash) : Prop := stop = .error ∧ Safe s.log

/-! ## Queries -/

/-- A query gives what the history has, or panics below the root. -/
theorem ask_bind_of {α β : Type} {E : Stop → State Hash → Prop}
    {answer : VoteHistory Hash → α} {f : α → Handler Hash β} {Q : β → State Hash → Prop}
    (hroot : s.history.root ≤ slot ∨ E .panic s)
    (h : Triple (fun t => t = s) (f (answer s.history)) Q E) :
    Triple (fun t => t = s) ((ask fun h => h.query slot (answer h)) >>= f) Q E := by
  apply bind (R := fun a t => t = s ∧ a = answer s.history)
  · apply get_bind
    rintro t rfl
    by_cases hle : t.history.root ≤ slot
    · apply orStop (VoteHistory.query_eq hle)
      rintro t rfl
      exact ⟨rfl, rfl⟩
    · dsimp only
      rw [VoteHistory.query, if_neg hle]
      apply Triple.throw
      rintro u rfl
      exact hroot.resolve_left hle
  · intro a
    apply pin
    rintro t ⟨rfl, rfl⟩
    exact h

/-- A query of a slot from the root on. -/
theorem ask_bind {α β : Type} {E : Stop → State Hash → Prop}
    {answer : VoteHistory Hash → α} {f : α → Handler Hash β} {Q : β → State Hash → Prop}
    (hroot : s.history.root ≤ slot) (h : Triple (fun t => t = s) (f (answer s.history)) Q E) :
    Triple (fun t => t = s) ((ask fun h => h.query slot (answer h)) >>= f) Q E :=
  ask_bind_of (Or.inl hroot) h

theorem triple_pushMessage (env : Env Hash) {P : State Hash → Prop} (vote : Vote Hash)
    (hsafe : ∀ s, P s → Safe s.log) (hvotes : ∀ s votes, P s → P { s with votes := votes }) :
    Triple P (match env.message vote with
      | .pushed => modify fun s => { s with votes := s.votes ++ [vote] }
      | .skipped => pure ()
      | .failed => throw .error) (fun _ => P) Ends := by
  cases env.message vote with
  | pushed => exact modify fun s hs => hvotes s _ hs
  | skipped => exact pure fun s hs => hs
  | failed => exact throw fun s hs => ⟨rfl, hsafe s hs⟩

/-! ## Calm programs -/

section Runs

variable [LeaderWindow] {t : State Hash}

structure Inv (s : State Hash) : Prop extends Coherent s where
  sorted : Sorted s
  waits : ∀ entry ∈ s.pendingBlocks, ¬ Eligible s.history entry

theorem inv_new {root bankRoot : ℕ} (h : root ≤ bankRoot) :
    Inv (State.new root bankRoot : State Hash) := by
  refine ⟨⟨faithful_new root, safe_nil, h, ?_⟩, Pairwise.nil, ?_⟩
  · intro entry hentry
    cases hentry
  · intro entry hentry
    cases hentry

theorem Inv.quiet (hs : Inv s) (ht : Coherent t) (h : Quiet s t) : Inv t :=
  ⟨ht, hs.sorted.sublist h.pending, fun entry hentry he =>
    hs.waits entry (h.pending.subset hentry) (h.eligible entry he)⟩

/-- Since `s₀` no block became pending or eligible. -/
def Calm (s₀ s : State Hash) : Prop := Since s₀ s ∧ Quiet s₀ s

theorem Coherent.calm (h : Coherent s) : Calm s s := ⟨h.since, Quiet.refl s⟩

theorem Calm.trans (h : Calm s₀ s) (h' : Calm s t) : Calm s₀ t := ⟨h.1.trans h'.1, h.2.trans h'.2⟩

/-- What is calm keeps the invariant. -/
theorem Inv.of_calm (hs : Inv s) (h : Calm s t) : Inv t := hs.quiet h.1.1 h.2

def Keeps {α : Type} (m : Handler Hash α) : Prop :=
  ∀ s₀, Triple (Calm s₀) m (fun _ => Calm s₀) Ends

theorem Keeps.inv {α : Type} {m : Handler Hash α} (h : Keeps m) :
    Triple Inv m (fun _ => Inv) Ends := by
  apply pin
  intro s hs
  apply (h s).weaken
  · rintro t rfl
    exact hs.calm
  · exact fun _ t ht => hs.of_calm ht

/-! ## Votes -/

/-- `set_root` to a new slot that is voted on. -/
theorem triple_setRoot (env : Env Hash) (hs : Inv s) {newRoot : ℕ} (hlt : s.bankRoot < newRoot)
    (hvoted : Voted s.log newRoot) :
    Triple (fun t => t = s) (setRoot env newRoot) (fun _ => Inv) Ends := by
  have hroot : s.history.root ≤ newRoot := hs.root_le.trans hlt.le
  apply bind (R := fun _ t => Faithful t.history t.log ∧ Safe t.log ∧ t.history.root = newRoot ∧
    (∀ entry ∈ t.pendingBlocks, Votable t entry.1) ∧ Quiet s t)
  · apply Triple.modify
    rintro t rfl
    refine ⟨hs.faithful.setRoot hroot, hs.safe, rfl, ?_, filter_sublist, fun _ he => he.of_setRoot⟩
    intro entry hentry
    refine ⟨of_decide_eq_true (mem_filter.mp hentry).2, ?_⟩
    intro (heq : entry.1.1 = newRoot)
    rw [heq]
    exact hvoted
  intro _
  apply Triple.ite
  · intro _
    exact throw_bind fun t ht => ⟨rfl, ht.2.1⟩
  · intro _
    apply Triple.modify
    rintro t ⟨hf, hsafe, hroot, hpending, hquiet⟩
    exact hs.quiet ⟨hf, hsafe, hroot.le, hpending⟩ ⟨hquiet.pending, hquiet.eligible⟩

variable [DecidableEq Hash] (env : Env Hash)

/-- A vote that the log allows passes the assertions and is in the log after. It makes blocks
eligible only if it is a `Notarize` vote. -/
theorem triple_generateVoteMessage (hs : Coherent s) (vote : Vote Hash)
    (hroot : s.history.root ≤ vote.slot) (hallows : Allows s.log (.vote vote)) :
    Triple (fun t => t = s) (generateVoteMessage env vote false)
      (fun _ t => Since s t ∧ .vote vote ∈ t.log ∧ t.pendingBlocks = s.pendingBlocks ∧
        ∀ entry, Eligible t.history entry → Eligible s.history entry ∨
          ∃ slot blockId, vote = .notarize slot blockId ∧ entry.1.1 = slot + 1) Ends := by
  obtain ⟨history, hadd, hroot', hf⟩ := hs.faithful.addVote hroot hallows
  apply bind (R := fun h t => t = s ∧ h = history)
  · apply get_bind
    rintro t rfl
    exact orStop hadd fun u hu => ⟨hu, rfl⟩
  intro history'
  apply pin
  rintro t ⟨rfl, rfl⟩
  apply bind (R := fun _ u => u = { t with history := history', log := t.log ++ [.vote vote] })
  · apply Triple.modify
    rintro u rfl
    rfl
  intro _
  apply (triple_pushMessage env vote ?_ ?_).pre
  · rintro u rfl
    exact ⟨hs.since.snoc hroot' hf hallows, mem_append_right _ mem_cons_self, rfl,
      fun _ he => eligible_addVote hadd he⟩
  · exact fun u hu => hu.1.1.safe
  · exact fun u votes hu => ⟨hu.1.votes votes, hu.2⟩

/-- The other votes are calm. -/
theorem triple_vote (hs : Coherent s) (vote : Vote Hash) (hroot : s.history.root ≤ vote.slot)
    (hallows : Allows s.log (.vote vote)) (hvote : ∀ slot blockId, vote ≠ .notarize slot blockId) :
    Triple (fun t => t = s) (generateVoteMessage env vote false)
      (fun _ t => Calm s t ∧ .vote vote ∈ t.log) Ends := by
  apply (triple_generateVoteMessage env hs vote hroot hallows).post
  rintro _ t ⟨ht, hmem, hpending, heligible⟩
  refine ⟨⟨ht, hpending ▸ Sublist.refl _, fun entry he => (heligible entry he).resolve_right ?_⟩,
    hmem⟩
  rintro ⟨slot, blockId, heq, -⟩
  exact hvote slot blockId heq

theorem keeps_refresh (vote : Vote Hash) : Keeps (generateVoteMessage env vote true) := by
  intro s₀
  apply triple_pushMessage
  · intro s hs
    exact hs.1.1.safe
  · intro s votes hs
    exact ⟨hs.1.votes votes, hs.2.pending, hs.2.eligible⟩

/-- `try_final` at a slot from the root on. -/
theorem triple_tryFinal (hroot : s₀.history.root ≤ block.1) :
    Triple (Calm s₀) (tryFinal env block) (fun _ => Calm s₀) Ends := by
  apply get_bind
  intro s hs
  have hsroot : s.history.root ≤ block.1 := hs.1.2.root.trans_le hroot
  have hstay : ∀ t, t = s → Calm s₀ t := fun t ht => ht ▸ hs
  refine ite_pure hstay ?_
  intro hnotarized
  apply ask_bind hsroot
  refine ite_pure hstay ?_
  intro _
  apply ask_bind hsroot
  refine ite_pure hstay ?_
  intro hbad
  apply ask_bind hsroot
  refine ite_pure hstay ?_
  intro hnotar
  have hcoherent := hs.1.1
  have hallows : Allows s.log (.vote (.finalize block.1)) := by
    refine ⟨⟨block.2, ?_, ?_⟩, ?_⟩
    · exact (hcoherent.faithful.votedNotar _ _ hsroot).mp (not_not.mp hnotar)
    · apply hcoherent.faithful.notarized
      simpa [VoteHistory.isBlockNotarized] using hnotarized
    · rw [← hcoherent.faithful.skipped _ hsroot]
      intro hskipped
      exact hbad (decide_eq_true (Or.inl hskipped))
  have hvote := triple_vote env hcoherent (.finalize block.1) hsroot hallows fun _ _ h => by cases h
  apply Triple.bind hvote
  exact fun _ => Triple.pure fun t ht => hs.trans ht.1

/-! ## Skip votes -/

/-- A slot that is not voted on yet. -/
theorem triple_skip (hroot : s₀.history.root ≤ slot) :
    Triple (Calm s₀) (do if !(← ask (·.voted slot)) then generateVoteMessage env (.skip slot) false)
      (fun _ s => Calm s₀ s ∧ Voted s.log slot) Ends := by
  apply pin
  intro s hs
  have hcoherent := hs.1.1
  have hsroot : s.history.root ≤ slot := hs.1.2.root.trans_le hroot
  have hiff := hcoherent.faithful.voted slot hsroot
  apply ask_bind hsroot
  apply Triple.ite
  · intro hvoted
    have hnot : ¬ Voted s.log slot := by
      rw [← hiff]
      simpa using hvoted
    have hallows : Allows s.log (.vote (.skip slot)) :=
      ⟨fun blockId hmem => hnot (Or.inl ⟨blockId, hmem⟩),
        fun hfinal => hnot (Or.inl (hcoherent.safe.notarize_of_finalize hfinal))⟩
    apply (triple_vote env hcoherent (.skip slot) hsroot hallows fun _ _ h => by cases h).post
    exact fun _ t ht => ⟨hs.trans ht.1, Or.inr ht.2⟩
  · intro hvoted
    apply Triple.pure
    rintro t rfl
    refine ⟨hs, hiff.mp ?_⟩
    simpa using hvoted

theorem triple_refreshVotes (highestFinalizedSlot : ℕ) :
    Triple Inv (refreshVotes env highestFinalizedSlot) (fun _ => Inv) Ends := by
  apply get_bind
  intro s hs
  apply forM_keep (P := Inv) _ |>.pre
  · rintro t rfl
    exact hs
  · exact fun vote _ => (keeps_refresh env vote).inv

/-! ## A new root -/

theorem triple_isRootable (hs : Inv s) (block : Block Hash) :
    Triple (fun t => t = s) (isRootable env block)
      (fun rootable t => t = s ∧
        (rootable = true → s.bankRoot < block.1 ∧ Voted s.log block.1)) Ends := by
  apply get_bind
  rintro t rfl
  cases env.forks block.1 with
  | none => exact pure fun u hu => ⟨hu, fun h => by cases h⟩
  | some bank =>
    apply Triple.ite
    · intro hlt
      have hroot : t.history.root ≤ block.1 := hs.root_le.trans hlt.le
      apply ask_bind hroot
      apply Triple.pure
      intro u hu
      refine ⟨hu, fun h => ⟨hlt, ?_⟩⟩
      rw [← hs.faithful.voted _ hroot]
      simp only [Bool.and_eq_true, decide_eq_true_eq] at h
      exact h.1.1
    · exact fun _ => pure fun u hu => ⟨hu, fun h => by cases h⟩

/-- A root that may be set is new and voted on. -/
theorem triple_highestRootable (hs : Inv s) (blocks : List (Block Hash)) :
    Triple (fun t => t = s) (highestRootable env blocks)
      (fun root t => t = s ∧ ∀ slot ∈ root, s.bankRoot < slot ∧ Voted s.log slot) Ends := by
  induction blocks with
  | nil => exact pure fun t ht => ⟨ht, fun slot h => by cases h⟩
  | cons block blocks ih =>
    apply bind ih
    intro rest
    apply pin
    rintro t ⟨rfl, hrest⟩
    apply bind (triple_isRootable env hs block)
    intro rootable
    apply Triple.ite
    · intro hrootable
      apply Triple.pure
      rintro u ⟨rfl, hblock⟩
      refine ⟨rfl, ?_⟩
      rintro slot ⟨⟩
      cases rest with
      | none =>
        rw [Option.getD_none, Nat.max_zero]
        exact hblock hrootable
      | some other =>
        rw [Option.getD_some]
        rcases max_choice block.1 other with hmax | hmax
        · rw [hmax]
          exact hblock hrootable
        · rw [hmax]
          exact hrest other rfl
    · intro _
      apply Triple.pure
      rintro u ⟨rfl, -⟩
      exact ⟨rfl, hrest⟩

theorem triple_checkRootableBlocks : Triple Inv (checkRootableBlocks env) (fun _ => Inv) Ends := by
  apply get_bind
  intro s hs
  apply bind (triple_highestRootable env hs _)
  intro root
  apply pin
  rintro t ⟨rfl, hroot⟩
  cases root with
  | none => exact pure fun u hu => hu ▸ hs
  | some newRoot =>
    obtain ⟨hlt, hvoted⟩ := hroot newRoot rfl
    exact triple_setRoot env hs hlt hvoted

theorem triple_handleFinalized (hs : Inv s) (block : Block Hash) :
    Triple (fun t => t = s) (handleFinalized env block) (fun _ => Inv) Ends := by
  apply bind (R := fun _ => Inv)
  · apply Triple.modify
    rintro t rfl
    exact hs.quiet ⟨hs.faithful, hs.safe, hs.root_le, hs.pending⟩ ⟨Sublist.refl _, fun _ => id⟩
  · exact fun _ => triple_checkRootableBlocks env

/-! ## Windows -/

/-- After `try_skip_window` every slot of the window from the root on is voted on. -/
theorem triple_trySkipWindow (s₀ : State Hash) (slot : ℕ) :
    Triple (Calm s₀) (trySkipWindow env slot)
      (fun _ s => Calm s₀ s ∧ (s₀.bankRoot < slot → Voted s.log slot)) Ends := by
  apply get_bind
  intro s hs
  have hfirst := first_le slot
  have hlast := le_last slot
  generalize hstart : max (max (firstOfConsecutiveLeaderSlots slot) s.bankRoot) 1 = start
  apply weaken (P := fun t => Calm s₀ t ∧ ∀ x ∈ ([] : List ℕ), Voted t.log x)
    (forM (I := fun done t => Calm s₀ t ∧ ∀ x ∈ done, Voted t.log x) ?_)
  · rintro t rfl
    exact ⟨hs, fun x hx => by cases hx⟩
  · rintro _ t ⟨ht, hvoted⟩
    refine ⟨ht, fun hlt => hvoted slot ?_⟩
    have hbank := hs.1.2.bankRoot
    rw [mem_range'_1]
    omega
  · intro done x rest hl
    have hx : start ≤ x := by
      have hmem : x ∈ done ++ x :: rest := mem_append_right _ mem_cons_self
      rw [← hl, mem_range'_1] at hmem
      exact hmem.1
    apply pin
    rintro t ⟨ht, hvoted⟩
    have hroot : t.history.root ≤ x := by
      have hle := ht.1.1.root_le
      have hbank := ht.1.2.bankRoot
      have hbank' := hs.1.2.bankRoot
      omega
    apply (triple_skip env hroot).weaken
    · rintro u rfl
      exact ht.1.1.calm
    · rintro _ u ⟨hu, hxu⟩
      refine ⟨ht.trans hu, ?_⟩
      intro y hy
      rcases mem_append.mp hy with hy | hy
      · exact (hvoted y hy).mono hu.1.2.log
      · rw [mem_singleton.mp hy]
        exact hxu

/-! ## Notarize votes -/

/-- The parent of a block above the root is not below it, so its query does not panic. -/
theorem triple_canNotar {E : Stop → State Hash → Prop} (parentBlock : Block Hash)
    (hroot : s.history.root < block.1 ∨ E .panic s) :
    Triple (fun t => t = s) (canNotar block parentBlock)
      (fun ready t => t = s ∧ (ready = true ↔ CanNotar s.history block parentBlock)) E := by
  apply get_bind
  rintro t rfl
  unfold CanNotar
  apply Triple.ite
  · intro hfirst
    apply Triple.pure
    rintro u rfl
    rw [if_pos hfirst]
    exact ⟨rfl, decide_eq_true_iff⟩
  intro hfirst
  rw [if_neg hfirst]
  apply Triple.ite
  · intro hparent
    apply Triple.pure
    rintro u rfl
    exact ⟨rfl, by simp [hparent]⟩
  intro hparent
  have hle : t.history.root ≤ parentBlock.1 ∨ E .panic t := by
    rcases hroot with hroot | hE
    · left
      omega
    · exact Or.inr hE
  apply ask_bind_of hle
  apply Triple.pure
  rintro u rfl
  exact ⟨rfl, by simp [not_not.mp hparent]⟩

/-- `try_notar` on a block that may be voted on: a vote, with the slot taken from the pending
blocks, or the block is not eligible. -/
theorem triple_tryNotar (hs : Coherent s) (hblock : Votable s block) (parentBlock : Block Hash) :
    Triple (fun t => t = s) (tryNotar env block parentBlock)
      (fun voted t => Since s t ∧
        if voted then t.pendingBlocks <+ s.pendingBlocks.filter (·.1.1 ≠ block.1) ∧
          ∀ entry, Eligible t.history entry → Eligible s.history entry ∨ entry.1.1 = block.1 + 1
        else t = s ∧ ¬ Eligible s.history (block, parentBlock)) Ends := by
  apply ask_bind hblock.1
  refine Triple.ite (fun hvoted => Triple.pure ?_) fun hvoted => ?_
  · rintro t rfl
    exact ⟨hs.since, rfl, fun he => he.1 (of_decide_eq_true hvoted)⟩
  have hnot : ¬ Voted s.log block.1 := by
    rw [← hs.faithful.voted _ hblock.1]
    exact fun hmem => hvoted (decide_eq_true hmem)
  have hlt : s.history.root < block.1 := lt_of_le_of_ne hblock.1 fun heq => hnot (hblock.2 heq.symm)
  apply bind (triple_canNotar parentBlock (Or.inl hlt))
  intro ready
  apply pin
  rintro t ⟨rfl, hready⟩
  refine Triple.ite (fun hfalse => Triple.pure ?_) fun _ => ?_
  · rintro u rfl
    refine ⟨hs.since, rfl, fun he => ?_⟩
    rw [hready.mpr he.2] at hfalse
    cases hfalse
  apply bind (triple_generateVoteMessage env hs (.notarize block.1 block.2) hblock.1 hnot)
  intro _
  apply pin
  rintro u ⟨hu, -, hpending, heligible⟩
  refine Triple.ite (fun _ => throw_bind fun v hv => ⟨rfl, hv ▸ hu.1.safe⟩) fun _ => ?_
  let v := { u with pendingBlocks := u.pendingBlocks.filter (·.1.1 ≠ block.1) }
  have hv : Since t v := hu.pending fun entry hentry => hu.1.pending entry (mem_filter.mp hentry).1
  apply bind (R := fun _ w => w = v)
  · apply Triple.modify
    rintro w rfl
    rfl
  intro _
  apply bind (R := fun _ => Calm v)
  · apply (triple_tryFinal env (hv.2.root.trans_le hblock.1)).pre
    rintro w rfl
    exact hv.1.calm
  intro _
  apply Triple.pure
  intro w hw
  refine ⟨hv.trans hw.1, hpending ▸ hw.2.pending, fun entry he => ?_⟩
  rcases heligible entry (hw.2.eligible entry he) with he | ⟨slot, blockId, heq, hnext⟩
  · exact Or.inl he
  · cases heq
    exact Or.inr hnext

/-- One pass in slot order is enough: a vote opens the next slot, which is still to come. -/
theorem triple_checkPendingBlocks :
    Triple (fun s => Coherent s ∧ Sorted s) (checkPendingBlocks env) (fun _ => Inv) Ends := by
  apply get_bind
  rintro s ⟨hs, hsorted⟩
  apply weaken (P := fun t => Since s t ∧ t.pendingBlocks <+ s.pendingBlocks ∧
      ∀ entry ∈ ([] : List (Block Hash × Block Hash)), entry ∈ t.pendingBlocks →
        ¬ Eligible t.history entry)
    (forM (I := fun done (t : State Hash) => Since s t ∧ t.pendingBlocks <+ s.pendingBlocks ∧
      ∀ entry ∈ done, entry ∈ t.pendingBlocks → ¬ Eligible t.history entry) ?_)
  · rintro t rfl
    exact ⟨hs.since, Sublist.refl _, fun entry hentry => by cases hentry⟩
  · rintro _ t ⟨ht, hsub, hdone⟩
    exact ⟨ht.1, hsorted.sublist hsub, fun entry hentry => hdone entry (hsub.subset hentry) hentry⟩
  intro done entry rest hl
  apply pin
  rintro t ⟨ht, hsub, hdone⟩
  have hmem : entry ∈ s.pendingBlocks := by
    rw [hl]
    exact mem_append_right _ mem_cons_self
  apply bind (triple_tryNotar env ht.1 ((hs.pending entry hmem).grows ht.2) entry.2)
  rintro (_ | _)
  · apply Triple.pure
    rintro u ⟨-, rfl, hnot⟩
    refine ⟨ht, hsub, fun x hx hpending => ?_⟩
    rcases mem_append.mp hx with hx | hx
    · exact hdone x hx hpending
    · rw [mem_singleton.mp hx]
      exact hnot
  · apply Triple.pure
    rintro u ⟨hu, htaken, heligible⟩
    refine ⟨ht.trans hu, htaken.trans (filter_sublist.trans hsub), fun x hx hpending he => ?_⟩
    obtain ⟨hmem, hne⟩ := mem_filter.mp (htaken.subset hpending)
    have hbefore : x ∈ done := by
      rcases mem_append.mp hx with hx | hx
      · exact hx
      · rw [mem_singleton.mp hx] at hne
        simp at hne
    rcases heligible x he with he | hnext
    · exact hdone x hbefore hmem he
    · -- the blocks before the entry are in no later slot
      unfold Sorted at hsorted
      rw [hl, pairwise_append] at hsorted
      have hle := hsorted.2.2 x hbefore entry mem_cons_self
      omega

/-! ## Events -/

theorem triple_handleParentReadyEvent (slot : ℕ) (parentBlock : Block Hash) :
    Triple Inv (handleParentReadyEvent env slot parentBlock) (fun _ => Inv) Ends := by
  apply bind (R := fun _ s => Coherent s ∧ Sorted s)
  · apply Triple.modify
    intro s hs
    unfold VoteHistory.addParentReady
    split_ifs
    · exact ⟨hs.toCoherent, hs.sorted⟩
    · exact ⟨⟨⟨hs.faithful.voted, hs.faithful.votedNotar, hs.faithful.skipped, hs.faithful.itsOver,
        hs.faithful.notarized⟩, hs.safe, hs.root_le, hs.pending⟩, hs.sorted⟩
  · exact fun _ => triple_checkPendingBlocks env

theorem triple_repairParentReady (block : Block Hash) :
    Triple Inv (repairParentReady env block) (fun _ => Inv) Ends := by
  apply bind (R := fun _ => Inv)
  · apply get_bind
    intro s hs
    refine ite_pure (fun t ht => ht ▸ hs) ?_
    intro _
    refine ite_pure (fun t ht => ht ▸ hs) ?_
    intro _
    exact pure fun t ht => ht ▸ hs
  · rintro (_ | ⟨slot, parentBlock⟩)
    · exact pure fun t ht => ht
    · exact triple_handleParentReadyEvent env slot parentBlock

section Events

variable (hs : Inv s)
include hs

/-- A block that is not voted for is not eligible when it becomes pending. -/
theorem triple_handleBlock (parentBlock : Block Hash) (hlt : s.bankRoot < block.1) :
    Triple (fun t => t = s) (handleBlock env block parentBlock) (fun _ => Inv) Ends := by
  have hvotable : Votable s block := hs.votable hlt
  apply bind (triple_tryNotar env hs.toCoherent hvotable parentBlock)
  rintro (_ | _)
  · apply pin
    rintro t ⟨-, rfl, hnot⟩
    apply ask_bind hvotable.1
    apply Triple.ite
    · intro _
      apply bind (R := fun _ => Inv)
      · apply Triple.modify
        rintro u rfl
        refine ⟨⟨hs.faithful, hs.safe, hs.root_le, ?_⟩, hs.sorted.push _, ?_⟩
        · intro entry hentry
          rcases mem_pushPending.mp hentry with rfl | hentry
          · exact hvotable
          · exact hs.pending entry hentry
        · intro entry hentry
          rcases mem_pushPending.mp hentry with rfl | hentry
          · exact hnot
          · exact hs.waits entry hentry
      · exact fun _ => triple_checkRootableBlocks env
    · intro _
      exact (triple_checkRootableBlocks env).pre fun u hu => hu ▸ hs
  · apply bind ((triple_checkPendingBlocks env).pre ?_)
    · exact fun _ => triple_checkRootableBlocks env
    · rintro t ⟨ht, htaken, -⟩
      exact ⟨ht.1, (hs.sorted.sublist filter_sublist).sublist htaken⟩

theorem triple_blockNotarized [Inhabited Hash] (hlt : s.bankRoot < block.1) :
    Triple (fun t => t = s) (handleEvent env (.blockNotarized block)) (fun _ => Inv) Ends := by
  apply bind (R := fun _ => Calm s)
  · apply Triple.modify
    rintro t rfl
    refine ⟨hs.since.snoc (VoteHistory.root_addBlockNotarized _ _)
      (hs.faithful.addBlockNotarized block) trivial, Sublist.refl _, fun entry he => ?_⟩
    dsimp only [VoteHistory.addBlockNotarized] at he
    split_ifs at he
    · exact he
    · exact he
  · intro _
    apply bind (triple_tryFinal env (hs.votable hlt).1)
    exact fun _ => pure fun t ht => hs.of_calm ht

theorem triple_skipEvent (slot : ℕ) :
    Triple (fun t => t = s) (trySkipWindow env slot) (fun _ => Inv) Ends := by
  apply (triple_trySkipWindow env s slot).weaken
  · rintro _ rfl
    exact hs.calm
  · exact fun _ t ht => hs.of_calm ht.1

/-- A fallback vote comes after the window is voted on. -/
theorem triple_fallback (hlt : s.bankRoot < slot) {vote : Vote Hash}
    {again : VoteHistory Hash → Bool} (hslot : vote.slot = slot)
    (hvote : ∀ slot blockId, vote ≠ .notarize slot blockId)
    (hallows : ∀ log, Voted log slot → .vote (.finalize slot) ∉ log → Allows log (.vote vote)) :
    Triple (fun t => t = s) (do
        trySkipWindow env slot
        if ← ask (·.itsOver slot) then return
        if ← ask (fun h => h.query slot (again h)) then return
        generateVoteMessage env vote false)
      (fun _ => Inv) Ends := by
  apply bind ((triple_trySkipWindow env s slot).pre ?_)
  · intro _
    apply pin
    rintro t ⟨ht, hvoted⟩
    have hcoherent := ht.1.1
    have hroot : t.history.root ≤ slot := by
      rw [ht.1.2.root]
      exact hs.root_le.trans hlt.le
    apply ask_bind hroot
    refine ite_pure (fun u hu => hu ▸ hs.of_calm ht) ?_
    intro hover
    apply ask_bind hroot
    refine ite_pure (fun u hu => hu ▸ hs.of_calm ht) ?_
    intro _
    have hallowed : Allows t.log (.vote vote) := by
      apply hallows _ (hvoted hlt)
      rw [← hcoherent.faithful.itsOver _ hroot]
      exact fun hmem => hover (decide_eq_true hmem)
    apply (triple_vote env hcoherent vote (hslot ▸ hroot) hallowed hvote).post
    exact fun _ u hu => hs.of_calm (ht.trans hu.1)
  · rintro _ rfl
    exact hs.calm

end Events

/-- The handler keeps the invariant at an event that is not ignored, and stops for an
error alone. -/
theorem triple_handleEvent [Inhabited Hash] (event : Event Hash) :
    Triple (fun s => Inv s ∧ event.shouldIgnore s.bankRoot = false) (handleEvent env event)
      (fun _ => Inv) Ends := by
  apply pin
  rintro s ⟨hs, hignore⟩
  cases event with
  | block slot blockId parentSlot parentBlockId =>
    have hlt : s.bankRoot < (slot, blockId).1 := not_le.mp (of_decide_eq_false hignore)
    apply bind (triple_handleBlock env hs _ hlt)
    exact fun _ => triple_repairParentReady env _
  | blockNotarized block =>
    exact triple_blockNotarized env hs (not_le.mp (of_decide_eq_false hignore))
  | firstShred slot =>
    apply Triple.modify
    rintro t rfl
    exact hs.quiet ⟨hs.faithful, hs.safe, hs.root_le, hs.pending⟩ ⟨Sublist.refl _, fun _ => id⟩
  | parentReady slot parentBlock =>
    exact (triple_handleParentReadyEvent env slot parentBlock).pre fun t ht => ht ▸ hs
  | timeoutCrashedLeader slot =>
    have hlt : s.bankRoot < slot := not_le.mp (of_decide_eq_false hignore)
    apply ask_bind (hs.root_le.trans hlt.le)
    refine ite_pure (fun t ht => ht ▸ hs) ?_
    intro _
    apply get_bind
    rintro t rfl
    refine ite_pure (fun t ht => ht ▸ hs) ?_
    exact fun _ => triple_skipEvent env hs slot
  | timeout slot =>
    have hlt : s.bankRoot < slot := not_le.mp (of_decide_eq_false hignore)
    apply ask_bind (hs.root_le.trans hlt.le)
    refine ite_pure (fun t ht => ht ▸ hs) ?_
    exact fun _ => triple_skipEvent env hs slot
  | safeToNotar | safeToSkip =>
    exact triple_fallback env hs (not_le.mp (of_decide_eq_false hignore)) rfl
      (fun _ _ h => by cases h) fun log hvoted hover => ⟨hvoted, hover⟩
  | produceWindow => exact pure fun t ht => ht ▸ hs
  | finalized block isFastFinalization =>
    apply bind (triple_handleFinalized env hs block)
    exact fun _ => triple_repairParentReady env block
  | standstill highestFinalizedSlot =>
    exact (triple_refreshVotes env highestFinalizedSlot).pre fun t ht => ht ▸ hs
  | setIdentity => exact pure fun t ht => ht ▸ hs

/-! ## Whole runs -/

/-- The event loop, as long as it runs. -/
inductive Node (Hash : Type) where
  | running (s : State Hash)
  | stopped (s : State Hash)
  | panicked

/-- An event with what it finds outside, or a new root of bank forks set elsewhere. -/
inductive Label (Hash : Type) where
  | event (env : Env Hash) (event : Event Hash)
  | newRoot (root : ℕ)

def Node.log : Node Hash → List (Entry Hash)
  | running s | stopped s => s.log
  | panicked => []

/-- Where a round of the loop leads. -/
def Node.after : EStateM.Result Stop (State Hash) Unit → Node Hash
  | .ok _ s => running s
  | .error .error s => stopped s
  | .error .panic _ => panicked

variable (Hash) in
def system [Inhabited Hash] : Lts (Node Hash) (Label Hash) where
  Init n := ∃ root bankRoot, root ≤ bankRoot ∧ n = .running (.new root bankRoot)
  Step n label n' := match n, label with
    | .running s, .event env event => n' = .after (eventLoop env event s)
    | .running s, .newRoot root => s.bankRoot ≤ root ∧ n' = .running { s with bankRoot := root }
    | _, _ => False

theorem triple_eventLoop [Inhabited Hash] (event : Event Hash) :
    Triple Inv (eventLoop env event) (fun _ => Inv) Ends := by
  apply bind (R := fun _ => Inv)
  · apply Triple.modify
    intro s hs
    exact hs.quiet (hs.since.votes []).1 ⟨Sublist.refl _, fun _ => id⟩
  intro _
  apply get_bind
  intro s hs
  refine ite_pure (fun t ht => ht ▸ hs) ?_
  · intro hignore
    apply (triple_handleEvent env event).pre
    rintro t rfl
    exact ⟨hs, by simpa using hignore⟩

theorem reachable_after [Inhabited Hash] (h : (system Hash).Reachable (.running s))
    (env : Env Hash) (event : Event Hash) :
    (system Hash).Reachable (.after (eventLoop env event s)) := by
  have hstep : (system Hash).Step (.running s) (.event env event)
    (.after (eventLoop env event s)) := rfl
  exact h.step hstep

/-- A node of a run has not panicked, and keeps the invariant while it runs. -/
def Good : Node Hash → Prop
  | .running s => Inv s
  | .stopped s => Safe s.log
  | .panicked => False

theorem good_of_reachable [Inhabited Hash] {n : Node Hash} (h : (system Hash).Reachable n) :
    Good n := by
  apply h.inv Good
  · rintro n ⟨root, bankRoot, hle, rfl⟩
    exact inv_new hle
  · intro n label n' hstep hgood
    cases n with
    | running s =>
      cases label with
      | event env event =>
        have hend := triple_eventLoop env event s hgood
        rw [hstep]
        cases hrun : eventLoop env event s with
        | ok a t =>
          rw [hrun] at hend
          exact hend
        | error stop t =>
          rw [hrun] at hend
          obtain ⟨rfl, hsafe⟩ := hend
          exact hsafe
      | newRoot root =>
        obtain ⟨hle, rfl⟩ := hstep
        exact hgood.quiet ⟨hgood.faithful, hgood.safe, hgood.root_le.trans hle, hgood.pending⟩
          ⟨Sublist.refl _, fun _ => id⟩
    | stopped s => cases hstep
    | panicked => cases hstep

/-- In every run no assertion of the vote history fails, and every vote follows the
rules: it is allowed by the votes and certificates before it. -/
theorem votor_safe [Inhabited Hash] {n : Node Hash} (h : (system Hash).Reachable n) :
    n ≠ .panicked ∧
      ∀ before entry after, n.log = before ++ entry :: after → Allows before entry := by
  have hgood := good_of_reachable h
  cases n with
  | running s => exact ⟨nofun, hgood.safe⟩
  | stopped s => exact ⟨nofun, hgood⟩
  | panicked => cases hgood

end Runs

section Example

/-- No banks, and every message goes through. -/
def connected : Env ℕ :=
  ⟨fun _ => none, fun _ => none, fun _ => .pushed, fun _ => true, fun _ => true⟩

/-- The block of slot 1 is notarized and finalized. -/
theorem votor_safe_one :
    letI := fourSlotWindow
    ∃ n : Node ℕ, n.log = [.vote (.notarize 1 7), .notarized (1, 7), .vote (.finalize 1)] ∧
      n ≠ .panicked ∧ Allows [.vote (.notarize 1 7), .notarized (1, 7)] (.vote (.finalize 1)) := by
  have h₀ : (@system ℕ fourSlotWindow _ _).Reachable (.running (.new 0 0)) :=
    ⟨_, [], ⟨0, 0, le_rfl, rfl⟩, Lts.Run.nil⟩
  have h₁ : (@system ℕ fourSlotWindow _ _).Reachable (.running _) :=
    @reachable_after ℕ _ fourSlotWindow _ _ h₀ connected (.parentReady 1 (0, 0))
  have h₂ : (@system ℕ fourSlotWindow _ _).Reachable (.running _) :=
    @reachable_after ℕ _ fourSlotWindow _ _ h₁ connected (.block 1 7 0 none)
  have h₃ := @reachable_after ℕ _ fourSlotWindow _ _ h₂ connected (.blockNotarized (1, 7))
  have hsafe := @votor_safe ℕ fourSlotWindow _ _ _ h₃
  exact ⟨_, rfl, hsafe.1, hsafe.2 _ _ [] rfl⟩

end Example

end Salsa.Votor
