import Salsa.Sync.System

/-!
# Salsa.Sync.Claims — one scheduler per slot

The claim protocol on the packed word, over every interleaving. That a slot is `Lost` to the
block stage is *stable*: no step brings it back (`lost_step`).
-/

namespace Salsa.Sync

open BitVec

variable {Tid : Type} [DecidableEq Tid]

/-! ## Slots in range

The sentinel reads as a block claim of slot `2 ^ 63 - 1`, so real slots stay
below it. -/

/-- A slot number the encoding can hold. -/
def SlotBelow (slot : Word) : Prop := slot.toNat < 2 ^ 63 - 1

/-- The slot an action introduces into the system is in range. -/
def Act.Below : Act Tid → Prop
  | .vanillaCall _ slot _ => SlotBelow slot
  | .blockCall slot _ => SlotBelow slot
  | _ => True

/-- The slot argument of the call a vanilla thread is in. -/
def VanillaPc.slot? : VanillaPc → Option Word
  | .idle => none
  | .load slot _ => some slot
  | .claim slot => some slot
  | .recheck slot => some slot
  | .ret slot _ => some slot

/-- The slot argument of the call the block stage is in. -/
def BlockPc.slot? : BlockPc → Option Word
  | .idle => none
  | .call slot _ => some slot
  | .ret slot _ => some slot
  | .waiting slot => some slot
  | .executing slot => some slot

/-- Every call in progress has a slot in range. -/
structure CallsBelow (s : St Tid) : Prop where
  vanilla : ∀ t slot, (s.vanilla t).slot? = some slot → SlotBelow slot
  block : ∀ slot, s.block.slot? = some slot → SlotBelow slot

theorem afterLoad_slot? (word slot : Word) (d : Bool) :
    (afterLoad word slot d).slot? = some slot := by
  unfold afterLoad
  cases claimedAnswer word slot with
  | some answer => rfl
  | none => cases d <;> rfl

/-- Moving one thread within its call, or out of it, introduces no new slot. -/
theorem CallsBelow.setVanilla {s : St Tid} (h : CallsBelow s) (t : Tid) (pc : VanillaPc)
    (hpc : ∀ slot, pc.slot? = some slot → SlotBelow slot) : CallsBelow (s.setVanilla t pc) where
  vanilla := by
    intro t' slot hslot
    by_cases ht : t' = t
    · subst ht
      rw [setVanilla_self] at hslot
      exact hpc slot hslot
    · rw [setVanilla_ne _ _ ht] at hslot
      exact h.vanilla t' slot hslot
  block := h.block

variable {s s' u : St Tid} {a : Act Tid} {word slot : Word} {tr : List (Act Tid)}

/-- Calls keep to the slots in range. -/
theorem callsBelow_step (ha : a.Below) (h : Step s a s') (hb : CallsBelow s) : CallsBelow s' := by
  cases h with
  | @vanillaCall t slot d hpc =>
    apply hb.setVanilla
    rintro _ ⟨⟩
    exact ha
  | @vanillaLoad t slot d hpc =>
    apply hb.setVanilla
    intro slot' hslot
    rw [afterLoad_slot?] at hslot
    exact hb.vanilla t slot' (by rw [hpc]; exact hslot)
  | @vanillaClaim t slot ok w hpc hupd =>
    have hb' : CallsBelow { s with word := w } := ⟨hb.vanilla, hb.block⟩
    apply hb'.setVanilla
    intro slot' hslot
    have hs : slot = slot' := by cases ok <;> simpa [VanillaPc.slot?] using hslot
    exact hb.vanilla t slot' (by rw [hpc, hs]; rfl)
  | @vanillaRecheck t slot hpc =>
    apply hb.setVanilla
    intro slot' hslot
    exact hb.vanilla t slot' (by rw [hpc]; exact hslot)
  | @vanillaRet t slot ans hpc =>
    apply hb.setVanilla
    intro slot' hslot
    cases hslot
  | @blockCall slot d hpc =>
    refine ⟨hb.vanilla, ?_⟩
    rintro _ ⟨⟩
    exact ha
  | @blockSkip _ hpc | @blockClaim _ _ _ hpc =>
    refine ⟨hb.vanilla, ?_⟩
    intro slot' hslot
    exact hb.block slot' (by rw [hpc]; exact hslot)
  | @blockRet slot ans hpc =>
    refine ⟨hb.vanilla, ?_⟩
    intro slot' hslot
    have hs : slot = slot' := by
      by_cases hans : ans = some true <;> simp_all [BlockPc.slot?]
    exact hb.block slot' (by rw [hpc, hs]; rfl)
  | @blockWait slot hpc =>
    refine ⟨hb.vanilla, ?_⟩
    intro slot' hslot
    have hs : slot = slot' := by
      by_cases hv : s.voteProcessing = true <;> simpa [BlockPc.slot?, hv] using hslot
    exact hb.block slot' (by rw [hpc, hs]; rfl)
  | blockFinished | blockFailed =>
    refine ⟨hb.vanilla, ?_⟩
    rintro _ ⟨⟩
  | _ => exact ⟨hb.vanilla, hb.block⟩

section

variable (h : SlotBelow slot)
include h

theorem slotOf_vanillaClaim_of_below : slotOf (vanillaClaim slot) = slot.toNat := by
  unfold SlotBelow at h
  rw [slotOf_vanillaClaim]
  omega

theorem slotOf_blockClaim_of_below : slotOf (blockClaim slot) = slot.toNat := by
  unfold SlotBelow at h
  rw [slotOf_blockClaim]
  omega

theorem blockClaim_ne_sentinel : blockClaim slot ≠ sentinel := by
  intro he
  have he' := congrArg slotOf he
  rw [slotOf_blockClaim_of_below h] at he'
  have hs : slotOf sentinel = 2 ^ 63 - 1 := by decide
  unfold SlotBelow at h
  omega

theorem isBlockClaim_blockClaim : isBlockClaim (blockClaim slot) = true := by
  rw [isBlockClaim_iff]
  refine ⟨blockClaim_ne_sentinel h, ?_⟩
  rw [blockClaim_toNat]
  omega

/-- The slot `block_failed` stores: the previous one, except at slot 0. -/
theorem slotOf_vanillaClaim_pred :
    slotOf (vanillaClaim (slot - 1)) = if slot.toNat = 0 then 2 ^ 63 - 1 else slot.toNat - 1 := by
  unfold SlotBelow at h
  rw [slotOf_vanillaClaim, toNat_sub]
  split_ifs with h0
  · rw [h0]
    rfl
  · have h1 : (1 : Word).toNat = 1 := rfl
    omega

end

/-! ## The inductive invariant -/

/-- The word has reached `slot`, and at `slot` it is not a block claim. -/
def Past (word slot : Word) : Prop :=
  word ≠ sentinel ∧ slot.toNat ≤ slotOf word ∧
    (slotOf word = slot.toNat → isBlockClaim word = false)

/-- `slot` is out of the block stage's reach. -/
def Lost (s : St Tid) (slot : Word) : Prop := Past s.word slot ∧ ¬ Holds s slot

structure Inv (s : St Tid) : Prop where
  below : CallsBelow s
  /-- A held slot is at or below the stored one, and block-claimed at it. -/
  held : ∀ slot, Holds s slot → s.word ≠ sentinel ∧ slot.toNat ≤ slotOf s.word ∧
    (slotOf s.word = slot.toNat → isBlockClaim s.word = true)
  /-- Whoever is about to answer `Some(true)` has lost the slot to vanilla. -/
  pending : ∀ t slot, s.vanilla t = .ret slot (some true) → Lost s slot

omit [DecidableEq Tid] in
theorem inv_start : Inv (start : St Tid) where
  below := by
    constructor
    · intro t slot h
      cases h
    · intro slot h
      cases h
  held := by
    intro slot h
    simp [Holds, start] at h
  pending := by
    intro t slot h
    cases h

/-- What a step does to the stored slot: a claim moves it up, a release keeps it or reverts it. -/
theorem Inv.slot_cases (hi : Inv s) (h : Step s a s') :
    s'.word = s.word ∨ s'.word ≠ sentinel ∧
      ((∃ slot : Word, (s.word = sentinel ∨ slotOf s.word < slot.toNat) ∧
        slotOf s'.word = slot.toNat) ∨
      isBlockClaim s'.word = false ∧ (slotOf s'.word = slotOf s.word ∨
        ∃ slot, a = .blockFailed slot true ∧ slotOf s.word = slot.toNat ∧
          isBlockClaim s.word = true ∧
          slotOf s'.word = if slot.toNat = 0 then 2 ^ 63 - 1 else slot.toNat - 1)) := by
  rcases h.word_cases with hw | ⟨t, slot, -, hpc, hc, hw⟩ | ⟨slot, -, hpc, hc, hw⟩ |
    ⟨slot, -, hpc, hs, -, hw⟩ | ⟨slot, ha, hpc, hs, hb, hw⟩
  · exact Or.inl hw
  · have hbelow := hi.below.vanilla t slot (by rw [hpc]; rfl)
    rw [hw]
    exact Or.inr ⟨vanillaClaim_ne_sentinel _,
      Or.inl ⟨slot, hc, slotOf_vanillaClaim_of_below hbelow⟩⟩
  all_goals
    have hbelow := hi.below.block slot (by rw [hpc]; rfl)
    rw [hw]
  · exact Or.inr ⟨blockClaim_ne_sentinel hbelow,
      Or.inl ⟨slot, hc, slotOf_blockClaim_of_below hbelow⟩⟩
  · exact Or.inr ⟨vanillaClaim_ne_sentinel _, Or.inr ⟨isBlockClaim_vanillaClaim _,
      Or.inl ((slotOf_vanillaClaim_of_below hbelow).trans hs.symm)⟩⟩
  · exact Or.inr ⟨vanillaClaim_ne_sentinel _, Or.inr ⟨isBlockClaim_vanillaClaim _,
      Or.inr ⟨slot, ha, hs, hb, slotOf_vanillaClaim_pred hbelow⟩⟩⟩

/-- A lost slot stays lost. -/
theorem lost_step (hi : Inv s) (h : Step s a s') (hl : Lost s slot) : Lost s' slot := by
  obtain ⟨hp, hh⟩ := hl
  constructor
  · rcases hi.slot_cases h with hw | ⟨hne, ⟨slot', hc, hw⟩ | ⟨hv, hw | ⟨slot', -, hs, hb, hw⟩⟩⟩
    · rw [hw]
      exact hp
    · have hlt := hc.resolve_left hp.1
      have hle := hp.2.1
      exact ⟨hne, by omega, fun h => by omega⟩
    · exact ⟨hne, hw ▸ hp.2.1, fun _ => hv⟩
    · -- the revert leaves the word at `slot' - 1`, and `slot < slot'` since
      -- the word is a block claim of `slot'`
      have hlt : slotOf s.word ≠ slot.toNat := by
        intro he
        rw [hp.2.2 he] at hb
        cases hb
      have hle := hp.2.1
      refine ⟨hne, ?_, fun _ => hv⟩
      rw [hw]
      split_ifs <;> omega
  · intro hh'
    -- to hold `slot` again the block stage would have to claim a word already past it
    rcases h.holds_cases hh' with hh'' | ⟨-, hc, -, -⟩
    · exact hh hh''
    · rcases hc with hc | hc
      · exact hp.1 hc
      · have := hp.2.1
        omega

theorem held_step (hi : Inv s) (h : Step s a s') (slot : Word)
    (hh' : Holds s' slot) : s'.word ≠ sentinel ∧ slot.toNat ≤ slotOf s'.word ∧
      (slotOf s'.word = slot.toNat → isBlockClaim s'.word = true) := by
  rcases h.holds_cases hh' with hh | ⟨-, -, hpc, hw⟩
  · obtain ⟨h₁, h₂, h₃⟩ := hi.held slot hh
    rcases h.word_cases with hw | ⟨t, slot', -, hpc, hc, hw⟩ | ⟨slot', -, hpc, -, -⟩ |
      ⟨slot', rfl, hpc, -, -, -⟩ | ⟨slot', rfl, hpc, -, -, -⟩
    · rw [hw]
      exact ⟨h₁, h₂, h₃⟩
    · have hbelow := hi.below.vanilla t slot' (by rw [hpc]; rfl)
      have hlt : slotOf s.word < slot'.toNat := hc.resolve_left h₁
      rw [hw, slotOf_vanillaClaim_of_below hbelow]
      exact ⟨vanillaClaim_ne_sentinel _, by omega, fun he => by omega⟩
    -- a claim of the block stage starts from not holding, a release ends in it
    · simp [Holds, hpc] at hh
    · cases h
      simp [Holds] at hh'
    · cases h
      simp [Holds] at hh'
  · have hbelow := hi.below.block slot (by rw [hpc]; rfl)
    rw [hw, slotOf_blockClaim_of_below hbelow]
    exact ⟨blockClaim_ne_sentinel hbelow, le_refl _, fun _ => isBlockClaim_blockClaim hbelow⟩

theorem pending_step (hi : Inv s) (h : Step s a s') (t : Tid) (slot : Word)
    (hp : s'.vanilla t = .ret slot (some true)) : Lost s' slot := by
  rcases h.pending_cases hp with hp | ⟨hw, hb, h₁, h₂, h₃⟩ | ⟨hpc, hb, hc, hw⟩
  · exact lost_step hi h (hi.pending t slot hp)
  -- the answer was read off the word
  · refine ⟨?_, ?_⟩
    · rw [hw]
      exact ⟨h₁, h₂.ge, fun _ => h₃⟩
    · intro hh
      have hh' : Holds s slot := by simpa [Holds, hb] using hh
      have := (hi.held slot hh').2.2 h₂
      rw [h₃] at this
      cases this
  -- the thread has just claimed
  · have hbelow := hi.below.vanilla t slot (by rw [hpc]; rfl)
    refine ⟨?_, ?_⟩
    · rw [hw]
      exact ⟨vanillaClaim_ne_sentinel _, (slotOf_vanillaClaim_of_below hbelow).ge,
        fun _ => isBlockClaim_vanillaClaim _⟩
    · intro hh
      have hh' : Holds s slot := by simpa [Holds, hb] using hh
      obtain ⟨h₁, h₂, -⟩ := hi.held slot hh'
      rcases hc with hc | hc
      · exact h₁ hc
      · omega

theorem inv_step (ha : a.Below) (h : Step s a s') (hi : Inv s) :
    Inv s' where
  below := callsBelow_step ha h hi.below
  held := held_step hi h
  pending := pending_step hi h

theorem inv_run (hrun : (sys Tid).Run start tr s) (hbelow : ∀ a ∈ tr, a.Below) : Inv s :=
  hrun.inv_of_mem Inv Act.Below hbelow inv_start fun _ _ _ ha h hi => inv_step ha h hi

/-! ## The protocol over whole runs -/

/-- A slot stays lost along a run. -/
theorem lost_run {s u : St Tid} (hrun : (sys Tid).Run s tr u) (hbelow : ∀ a ∈ tr, a.Below)
    (hi : Inv s) (hl : Lost s slot) : Lost u slot :=
  (hrun.inv_of_mem (fun s => Inv s ∧ Lost s slot) Act.Below hbelow ⟨hi, hl⟩
    fun _ _ _ ha h hs => ⟨inv_step ha h hs.1, lost_step hs.1 h hs.2⟩).2

/-- A vanilla answer `Some(true)` for `slot` in the trace has lost `slot`. -/
theorem lost_of_vanillaRet_mem {t : Tid} (hrun : (sys Tid).Run start tr u)
    (hbelow : ∀ a ∈ tr, a.Below) (hmem : .vanillaRet t slot (some true) ∈ tr) : Lost u slot := by
  obtain ⟨pre, post, rfl⟩ := List.append_of_mem hmem
  obtain ⟨m, m', hpre, hstep, hpost⟩ := hrun.split_cons
  have hi : Inv m := inv_run hpre fun a ha => hbelow a (by simp [ha])
  have hl : Lost m slot := by
    cases hstep with
    | vanillaRet _ _ _ hpc => exact hi.pending t slot hpc
  have hi' : Inv m' := inv_step (hbelow _ hmem) hstep hi
  exact lost_run hpost (fun a ha => hbelow a (by simp [ha])) hi' (lost_step hi hstep hl)

def Reached (slot : Word) (s : St Tid) : Prop := s.word ≠ sentinel ∧ slot.toNat ≤ slotOf s.word

/-- Only the revert of `slot` itself takes the word back below `slot`. -/
theorem failed_of_break (hi : Inv s) (h : Step s a s') (hr : Reached slot s)
    (hr' : ¬ Reached slot s') : a = .blockFailed slot true := by
  obtain ⟨h₁, h₂⟩ := hr
  rcases hi.slot_cases h with hw | ⟨hne, ⟨slot', hc, hw⟩ | ⟨-, hw | ⟨slot', rfl, hs, -, hw⟩⟩⟩
  · rw [Reached, hw] at hr'
    exact absurd ⟨h₁, h₂⟩ hr'
  · have hlt := hc.resolve_left h₁
    exact absurd ⟨hne, by omega⟩ hr'
  · exact absurd ⟨hne, hw ▸ h₂⟩ hr'
  · -- the revert stores `slot' - 1`, so only `slot' = slot` crosses `slot`
    rw [Reached, hw, not_and_or] at hr'
    have hlt := hr'.resolve_left (not_not.mpr hne)
    have heq : slot'.toNat = slot.toNat := by
      split_ifs at hlt <;> omega
    rw [toNat_inj.mp heq]

/-- Between two block claims of `slot` there is a revert of `slot`. -/
theorem failed_mem_between {m u : St Tid} {mid : List (Act Tid)} {w : Word} (hi : Inv m)
    (hrun : (sys Tid).Run m mid u) (hbelow : ∀ a ∈ mid, a.Below) (hr : Reached slot m)
    (hupd : fetchUpdate (blockUpdate slot) u.word = (true, w)) : .blockFailed slot true ∈ mid := by
  have hu : ¬ Reached slot u := by
    rintro ⟨h₁, h₂⟩
    rcases (blockUpdate_eq_some.mp (fetchUpdate_eq_true.mp hupd)).1 with h | h
    · exact h₁ h
    · omega
  obtain ⟨pre, a, post, v, v', rfl, hpre, hstep, hv, hv'⟩ := hrun.exists_break _ hr hu
  have hiv : Inv v := hpre.inv_of_mem Inv Act.Below (fun a ha => hbelow a (by simp [ha])) hi
    fun _ _ _ ha h hi => inv_step ha h hi
  rw [failed_of_break hiv hstep hv hv']
  simp

/-- The stored slot never falls, except by one in a reverting `block_failed`. -/
theorem slot_step (hi : Inv s) (h : Step s a s') (hne : s.word ≠ sentinel) :
    s'.word ≠ sentinel ∧
      (slotOf s.word ≤ slotOf s'.word ∨
        ∃ slot, a = .blockFailed slot true ∧ slotOf s'.word + 1 = slotOf s.word) := by
  rcases hi.slot_cases h with hw | ⟨hne', ⟨slot', hc, hw⟩ | ⟨-, hw | ⟨slot', rfl, hs, -, hw⟩⟩⟩
  · rw [hw]
    exact ⟨hne, Or.inl (le_refl _)⟩
  · have hlt := hc.resolve_left hne
    exact ⟨hne', Or.inl (by omega)⟩
  · exact ⟨hne', Or.inl hw.ge⟩
  · refine ⟨hne', ?_⟩
    rw [hw, hs]
    -- at slot 0 the subtraction wraps and the masked word moves up, not down
    split_ifs with h0
    · exact Or.inl (by omega)
    · exact Or.inr ⟨slot', rfl, by omega⟩

/-- The claim protocol, over every interleaving with slots in range. At the end
`u` of any run:

* a vanilla call for `slot` does not return `Some(true)` while the block stage
  holds `slot`;
* once a vanilla call for `slot` has returned `Some(true)`, the block stage
  does not return `Some(true)` for it (whether or not a claim preceded);
* between two successful block claims of `slot` there is a reverting
  `block_failed` of it;
* the stored slot never decreases, except by exactly one in a reverting
  `block_failed`. -/
theorem claim_protocol {u : St Tid} {tr : List (Act Tid)} (hrun : (sys Tid).Run start tr u)
    (hbelow : ∀ a ∈ tr, a.Below) :
    (∀ t slot u', Step u (.vanillaRet t slot (some true)) u' → ¬ Holds u slot) ∧
    (∀ t slot u', .vanillaRet t slot (some true) ∈ tr → ¬ Step u (.blockRet slot (some true)) u') ∧
    (∀ pre mid slot u', tr = pre ++ .blockClaim slot true :: mid →
      Step u (.blockClaim slot true) u' → .blockFailed slot true ∈ mid) ∧
    (∀ a u', Step u a u' → u.word ≠ sentinel →
      u'.word ≠ sentinel ∧
        (slotOf u.word ≤ slotOf u'.word ∨
          ∃ slot, a = .blockFailed slot true ∧ slotOf u'.word + 1 = slotOf u.word)) := by
  have hi : Inv u := inv_run hrun hbelow
  refine ⟨?_, ?_, ?_, fun a u' h hne => slot_step hi h hne⟩
  · intro t slot u' h
    cases h with
    | vanillaRet _ _ _ hpc => exact (hi.pending t slot hpc).2
  · intro t slot u' hmem h
    have hl := lost_of_vanillaRet_mem hrun hbelow hmem
    cases h with
    | blockRet _ _ hpc => exact hl.2 (Or.inl hpc)
  · rintro pre mid slot u' rfl h
    obtain ⟨m, m', hpre, hstep, hmid⟩ := hrun.split_cons
    have him : Inv m := inv_run hpre fun a ha => hbelow a (by simp [ha])
    have him' : Inv m' := inv_step (hbelow _ (by simp)) hstep him
    have hr : Reached slot m' := by
      cases hstep with
      | @blockClaim _ _ w hpc hupd =>
        have hb := him.below.block slot (by rw [hpc]; rfl)
        have hw := (blockUpdate_eq_some.mp (fetchUpdate_eq_true.mp hupd)).2
        subst hw
        exact ⟨blockClaim_ne_sentinel hb, (slotOf_blockClaim_of_below hb).ge⟩
    cases h with
    | blockClaim _ _ _ hpc hupd =>
      exact failed_mem_between him' hmid (fun a ha => hbelow a (by simp [ha])) hr hupd

/-- A run through a claim, its revert and a second claim of slot 5. -/
theorem claim_protocol_reclaim :
    ∃ (tr : List (Act Unit)) (u u' : St Unit), (sys Unit).Run start tr u ∧
      (∀ a ∈ tr, a.Below) ∧ Step u (.blockClaim 5 true) u' ∧
      tr = [.blockCall 5 true] ++ .blockClaim 5 true ::
        [.blockRet 5 (some true), .blockWait 5, .blockFailed 5 true, .blockCall 5 true] ∧
      .blockFailed 5 true ∈ [(Act.blockRet 5 (some true) : Act Unit), .blockWait 5,
        .blockFailed 5 true, .blockCall 5 true] := by
  have hrun := Lts.Run.cons (L := sys Unit) (Step.blockCall (s := start) 5 true rfl)
    (.cons (.blockClaim 5 true (blockClaim 5) rfl (by decide))
    (.cons (.blockRet 5 (some true) rfl)
    (.cons (.blockWait 5 rfl)
    (.cons (.blockFailed 5 true (vanillaClaim 4) rfl (by decide))
    (.cons (.blockCall 5 true rfl) .nil)))))
  have hbelow : ∀ a ∈ [(Act.blockCall 5 true : Act Unit), .blockClaim 5 true,
      .blockRet 5 (some true), .blockWait 5, .blockFailed 5 true, .blockCall 5 true],
      a.Below := by
    simp [Act.Below, SlotBelow]
  refine ⟨_, _, _, hrun, hbelow, Step.blockClaim 5 true (blockClaim 5) rfl (by decide), rfl, ?_⟩
  exact (claim_protocol hrun hbelow).2.2.1 [.blockCall 5 true] _ 5 _ rfl
    (Step.blockClaim 5 true (blockClaim 5) rfl (by decide))

/-! ## Fallback after a failed block -/

/-- A step of the vanilla thread `t`. -/
def Act.IsVanilla (t : Tid) : Act Tid → Prop
  | .vanillaCall t' _ _ | .vanillaLoad t' | .vanillaClaim t' _ _ | .vanillaRecheck t'
  | .vanillaRet t' _ _ => t' = t
  | _ => False

/-- A call of `vanilla_should_schedule` that nobody interrupts is the function
of the word: the thread's own steps lead to the point where it returns that
answer, with that word in place and everything else as before. -/
theorem vanilla_solo (s : St Tid) (t : Tid) (slot : Word) (d : Bool) (hpc : s.vanilla t = .idle) :
    ∃ tr, (∀ a ∈ tr, a.IsVanilla t) ∧
      (sys Tid).Run s tr ({ s with word := (vanillaShouldSchedule s.word slot d).2 }.setVanilla t
        (.ret slot (vanillaShouldSchedule s.word slot d).1)) := by
  have h₁ : (sys Tid).Step s (.vanillaCall t slot d) (s.setVanilla t (.load slot d)) :=
    Step.vanillaCall t slot d hpc
  have h₂ : (sys Tid).Step (s.setVanilla t (.load slot d)) (.vanillaLoad t)
      ((s.setVanilla t (.load slot d)).setVanilla t (afterLoad s.word slot d)) :=
    Step.vanillaLoad t slot d (setVanilla_self s t _)
  rw [setVanilla_setVanilla] at h₂
  have hload := (Lts.Run.single h₁).snoc h₂
  unfold vanillaShouldSchedule
  unfold afterLoad at hload
  cases hans : claimedAnswer s.word slot with
  | some answer =>
    rw [hans] at hload
    exact ⟨_, by simp [Act.IsVanilla], hload⟩
  | none =>
    rw [hans] at hload
    cases d with
    | true => exact ⟨_, by simp [Act.IsVanilla], hload⟩
    | false =>
      cases hupd : fetchUpdate (vanillaUpdate slot) s.word with
      | mk ok w =>
        have h₃ : (sys Tid).Step (s.setVanilla t (.claim slot)) (.vanillaClaim t slot ok)
            ({ s with word := w }.setVanilla t
              (if ok then .ret slot (some true) else .recheck slot)) := by
          rw [← setVanilla_setVanilla { s with word := w } t (.claim slot)]
          exact Step.vanillaClaim t slot ok w (setVanilla_self s t _) hupd
        have hclaim := hload.snoc h₃
        cases ok with
        | true => exact ⟨_, by simp [Act.IsVanilla], hclaim⟩
        | false =>
          have h₄ := hclaim.snoc (Step.vanillaRecheck t slot (setVanilla_self _ t _))
          rw [setVanilla_setVanilla] at h₄
          dsimp only [Bool.false_eq_true, if_false]
          cases hans' : claimedAnswer w slot with
          | none =>
            simp only [setVanilla_word, hans'] at h₄
            exact ⟨_, by simp [Act.IsVanilla], h₄⟩
          | some answer =>
            simp only [setVanilla_word, hans'] at h₄
            exact ⟨_, by simp [Act.IsVanilla], h₄⟩

theorem vanilla_solo_start : ∃ tr, (∀ a ∈ tr, a.IsVanilla ()) ∧ (sys Unit).Run start tr
      ({ start with word := vanillaClaim 5 }.setVanilla () (.ret 5 (some true))) :=
  vanilla_solo start () 5 false rfl

/-- A word with a smaller slot can be claimed by vanilla. -/
theorem vanillaShouldSchedule_of_lt (h : slotOf word < slot.toNat) :
    (vanillaShouldSchedule word slot false).1 = some true := by
  have hans : claimedAnswer word slot = none := by
    cases hc : claimedAnswer word slot with
    | none => rfl
    | some answer =>
      have := (claimedAnswer_eq_some.mp hc).2.1
      omega
  have hupd : fetchUpdate (vanillaUpdate slot) word = (true, vanillaClaim slot) :=
    fetchUpdate_eq_true.mpr (vanillaUpdate_eq_some.mpr ⟨Or.inr h, rfl⟩)
  simp [vanillaShouldSchedule, hans, hupd]

/-- A word with a smaller slot can be claimed by block. -/
theorem blockShouldSchedule_of_lt (h : slotOf word < slot.toNat) :
    (blockShouldSchedule word slot true).1 = some true := by
  have hupd : fetchUpdate (blockUpdate slot) word = (true, blockClaim slot) :=
    fetchUpdate_eq_true.mpr (blockUpdate_eq_some.mpr ⟨Or.inr h, rfl⟩)
  simp [blockShouldSchedule, hupd]

/-- A successful revert of `slot` leaves a vanilla claim of `slot - 1`, and
`slot` is in range: larger numbers do not survive the mask. -/
theorem blockFailed_eq_true {word slot w : Word} (h : blockFailed word slot = (some true, w)) :
    w = vanillaClaim (slot - 1) ∧ SlotBelow slot := by
  unfold blockFailed at h
  cases hupd : fetchUpdate (failedUpdate slot) word with
  | mk ok w' =>
    rw [hupd] at h
    obtain ⟨rfl, rfl⟩ := h
    obtain ⟨hs, hb, hw⟩ := failedUpdate_eq_some.mp (fetchUpdate_eq_true.mp hupd)
    refine ⟨hw, ?_⟩
    obtain ⟨hne, htop⟩ := (isBlockClaim_iff _).mp hb
    have hne' : word.toNat ≠ sentinel.toNat := fun he => hne (toNat_inj.mp he)
    rw [sentinel_toNat] at hne'
    rw [slotOf, getSlot_toNat] at hs
    unfold SlotBelow
    omega

/-- After `block_failed(slot)` has reverted, with no other claim in between,
vanilla can claim `slot` again and both schedulers can claim every later slot,
exactly when `slot` is not 0. -/
theorem fallback_kept_iff {u : St Tid} {slot w : Word} (_hreach : (sys Tid).Reachable u)
    (_hheld : Holds u slot) (hfail : blockFailed u.word slot = (some true, w)) :
    ((vanillaShouldSchedule w slot false).1 = some true ∧
      ∀ later : Word, slot < later →
        (vanillaShouldSchedule w later false).1 = some true ∧
        (blockShouldSchedule w later true).1 = some true) ↔ slot ≠ 0 := by
  obtain ⟨rfl, hbelow⟩ := blockFailed_eq_true hfail
  have hslot := slotOf_vanillaClaim_pred hbelow
  constructor
  · rintro ⟨h, -⟩ rfl
    revert h
    decide
  · intro hne
    have hne' : slot.toNat ≠ 0 := fun h => hne (toNat_inj.mp h)
    rw [if_neg hne'] at hslot
    refine ⟨vanillaShouldSchedule_of_lt (by omega), ?_⟩
    intro later hlater
    rw [lt_def] at hlater
    exact ⟨vanillaShouldSchedule_of_lt (by omega), blockShouldSchedule_of_lt (by omega)⟩

/-- The block stage, executing its claimed slot on its own. -/
theorem reachable_executing (slot : Word) :
    (sys Unit).Reachable
    { (start : St Unit) with word := blockClaim slot, block := .executing slot } := by
  have hupd : fetchUpdate (blockUpdate slot) sentinel = (true, blockClaim slot) :=
    fetchUpdate_eq_true.mpr (blockUpdate_eq_some.mpr ⟨Or.inl rfl, rfl⟩)
  exact ⟨start, _, rfl, .cons (.blockCall slot true rfl)
    (.cons (.blockClaim slot true _ rfl hupd) (.cons (.blockRet slot _ rfl)
    (.cons (.blockWait slot rfl) .nil)))⟩

theorem fallback_kept_hundred : (vanillaShouldSchedule (vanillaClaim 99) 100 false).1 = some true :=
  ((fallback_kept_iff (reachable_executing 100) (Or.inr (Or.inr rfl)) (by decide)).mpr
    (by decide)).1

/-- At slot 0 the fallback is lost: after the revert neither vanilla gets slot
0 nor anybody slot 1. -/
theorem fallback_lost_at_zero :
    ∃ u : St Unit, ∃ w : Word, (sys Unit).Reachable u ∧ Holds u 0 ∧
      blockFailed u.word 0 = (some true, w) ∧
      (vanillaShouldSchedule w 0 false).1 = some false ∧
      (vanillaShouldSchedule w 1 false).1 = some false ∧
      (blockShouldSchedule w 1 true).1 = some false :=
  ⟨_, vanillaClaim (0 - 1), reachable_executing 0, Or.inr (Or.inr rfl), by decide, by decide,
    by decide, by decide⟩

end Salsa.Sync
