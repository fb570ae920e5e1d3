import Salsa.Lib.Forest
import Salsa.Lib.Lts
import Salsa.Vote.Tower

/-!
# Salsa.Vote.Safety — the tower never breaks its own lockouts

`Tower::is_locked_out` of `core/src/consensus.rs` simulates a vote and looks at the
votes that are left: a slot may be voted on if they are all among its ancestors.
A validator that only votes on such slots keeps its root and its votes on one chain
of the block tree, and leaves a fork only for slots that its votes there do not
lock out any more.
-/

namespace Salsa.Vote

open List Option TowerVoteState Lockout

/-! ## The tower's checks -/

/-- The tree of blocks, each with an earlier parent or none. -/
structure BlockTree where
  parent : ℕ → Option ℕ
  parent_lt : ∀ {slot p : ℕ}, parent slot = some p → p < slot

/-- Slots rank themselves. -/
def BlockTree.forest (tree : BlockTree) : Forest ℕ := ⟨tree.parent, id, tree.parent_lt⟩

namespace TowerVoteState

variable (L : LockoutRule)

def isRecent (self : TowerVoteState) (slot : ℕ) : Bool :=
  match self.lastVotedSlot with
  | some lastVotedSlot => lastVotedSlot < slot
  | none => self.rootSlot.all (· < slot)

/-- `Tower::is_locked_out`; none where its assertion fails. -/
def isLockedOut (self : TowerVoteState) (slot : ℕ) (ancestors : List ℕ) : Option Bool :=
  if !self.isRecent slot then some true
  else
    let voteState := self.processNextVoteSlot L slot
    if voteState.votes.any fun vote => slot ≠ vote.slot ∧ vote.slot ∉ ancestors then some true
    else if voteState.rootSlot.any fun rootSlot => slot ≠ rootSlot ∧ rootSlot ∉ ancestors then none
    else some false

/-- `Tower::record_bank_vote_and_update_lockouts`, with the new root it returns; none where it
panics. -/
def recordBankVoteAndUpdateLockouts (self : TowerVoteState) (voteSlot : ℕ) :
    Option (Option ℕ × TowerVoteState) :=
  if self.lastVotedSlot.any (voteSlot ≤ ·) then none
  else do
    let oldRoot ← self.rootSlot
    let self := self.processNextVoteSlot L voteSlot
    let newRoot ← self.rootSlot
    return (if oldRoot ≠ newRoot then some newRoot else none, self)

end TowerVoteState

/-- A validator whose tower starts at `root` and that votes on slots it is not locked out of. -/
def voting (L : LockoutRule) (tree : BlockTree) (root : ℕ) : Lts TowerVoteState ℕ where
  Init s := s = ⟨[], some root⟩
  Step s slot s' :=
    tree.forest.Ancestor root slot ∧
    s.isLockedOut L slot (tree.forest.ancestors slot) = some false ∧
    ∃ newRoot, s.recordBankVoteAndUpdateLockouts L slot = some (newRoot, s')

/-! ## One vote -/

variable {tree : BlockTree} {L : LockoutRule} {r : ℕ} {v : Lockout}

section Step

variable {s s' : TowerVoteState} {slot : ℕ}

/-- Root and votes, from the root up. -/
def TowerVoteState.path (s : TowerVoteState) : List ℕ :=
  s.rootSlot.toList ++ s.votes.map Lockout.slot

/-- The root and the votes form a chain of the tree. -/
structure Chained (tree : BlockTree) (s : TowerVoteState) : Prop where
  rooted : s.rootSlot ≠ none
  chain : s.path.Pairwise tree.forest.Ancestor

theorem Chained.slots (h : Chained tree s) : s.votes.Pairwise fun v w => v.slot < w.slot := by
  have hvotes := (pairwise_append.mp h.chain).2.1
  rw [pairwise_map] at hvotes
  exact hvotes.imp fun hvw => hvw.rank_lt

theorem Chained.root_ancestor (h : Chained tree s) (hr : s.rootSlot = some r)
    (hv : v ∈ s.votes) : tree.forest.Ancestor r v.slot := by
  apply (pairwise_append.mp h.chain).2.2
  · rw [hr]
    exact mem_cons_self
  · exact mem_map_of_mem hv

/-- A recent slot is above the root and all the votes. -/
theorem lt_of_isRecent (h : Chained tree s) (hrecent : s.isRecent slot = true) :
    (∀ v ∈ s.votes.getLast?, v.slot < slot) ∧ ∀ x ∈ s.path, x < slot := by
  have hlast : ∀ v ∈ s.votes.getLast?, v.slot < slot := by
    intro v hv
    rw [isRecent, lastVotedSlot, mem_def.mp hv, map_some] at hrecent
    exact of_decide_eq_true hrecent
  have hvotes := slot_lt_of_last_lt h.slots hlast
  refine ⟨hlast, ?_⟩
  intro x hx
  rcases mem_append.mp hx with hx | hx
  · have hroot : s.rootSlot = some x := mem_toList.mp hx
    cases hlast? : s.votes.getLast? with
    | none =>
      rw [isRecent, lastVotedSlot, hlast?, hroot] at hrecent
      exact of_decide_eq_true hrecent
    | some v =>
      have hv := mem_of_getLast? hlast?
      have hrv : x < v.slot := (h.root_ancestor hroot hv).rank_lt
      exact hrv.trans (hvotes v hv)
  · obtain ⟨v, hv, rfl⟩ := mem_map.mp hx
    exact hvotes v hv

/-- What `is_locked_out` has checked where it answers no. -/
theorem isLockedOut_eq_false (h : s.isLockedOut L slot (tree.forest.ancestors slot) = some false) :
    s.isRecent slot = true ∧
    ∀ x ∈ (s.processNextVoteSlot L slot).path, x ≠ slot → tree.forest.Ancestor x slot := by
  unfold isLockedOut at h
  dsimp only at h
  split_ifs at h with hold hvotes hroot
  · cases h
  · cases h
  · refine ⟨by simpa using hold, ?_⟩
    intro x hx hne
    rw [← Forest.mem_ancestors]
    by_contra hnot
    rcases mem_append.mp hx with hx | hx
    · apply hroot
      rw [mem_toList.mp hx, any_some]
      exact decide_eq_true ⟨hne.symm, hnot⟩
    · obtain ⟨v, hv, rfl⟩ := mem_map.mp hx
      apply hvotes
      rw [List.any_eq_true]
      exact ⟨v, hv, decide_eq_true ⟨hne.symm, hnot⟩⟩

/-- A vote puts its slot at the end of the path and takes some of the path away. -/
theorem path_step (hnext : ∀ v ∈ s.votes.getLast?, v.slot < slot) :
    ∃ front, front.Sublist s.path ∧ (s.processNextVoteSlot L slot).path = front ++ [slot] := by
  have hpush : ∀ (root : Option ℕ) (base : List Lockout),
      path ⟨doubled (base ++ [new slot]), root⟩ =
        root.toList ++ base.map Lockout.slot ++ [slot] := by
    intro root base
    rw [path, map_slot_doubled, map_append, append_assoc]
    rfl
  rcases processNextVoteSlot_cases (L := L) hnext with
    ⟨locked, expired, hsplit, ⟨-, hstep⟩ | ⟨rooted, rest, rfl, -, hstep⟩⟩
  · rw [hstep, hpush]
    refine ⟨_, ?_, rfl⟩
    rw [path, hsplit.eq, map_append]
    exact (List.Sublist.refl _).append (sublist_append_left _ _)
  · rw [hstep, hpush]
    refine ⟨_, ?_, rfl⟩
    rw [path, hsplit.eq, map_append]
    exact (sublist_append_left _ _).trans (sublist_append_right _ _)

/-- The root stays or moves up the chain. -/
theorem Chained.root_cases (h : Chained tree s) (hr : s.rootSlot = some r)
    (hnext : ∀ v ∈ s.votes.getLast?, v.slot < slot) :
    ∃ r' ∈ s.path, (s.processNextVoteSlot L slot).rootSlot = some r' ∧
      (r = r' ∨ tree.forest.Ancestor r r') := by
  rcases processNextVoteSlot_cases (L := L) hnext with
    ⟨locked, expired, hsplit, ⟨-, hstep⟩ | ⟨rooted, rest, rfl, -, hstep⟩⟩
  · rw [hstep]
    exact ⟨r, mem_append_left _ (mem_toList.mpr hr), hr, Or.inl rfl⟩
  · have hrooted : rooted ∈ s.votes := by
      rw [hsplit.eq]
      exact mem_append_left _ mem_cons_self
    rw [hstep]
    exact ⟨rooted.slot, mem_append_right _ (mem_map_of_mem hrooted), rfl,
      Or.inr (h.root_ancestor hr hrooted)⟩

theorem rooted_step (h : s.rootSlot ≠ none) : (s.processNextVoteSlot L slot).rootSlot ≠ none := by
  rcases old_or_new s slot with ⟨v, hv, hle⟩ | hnext
  · rw [processNextVoteSlot_of_le hv hle]
    exact h
  · rcases processNextVoteSlot_cases (L := L) hnext with
      ⟨locked, expired, -, ⟨-, hstep⟩ | ⟨rooted, rest, -, -, hstep⟩⟩
    · rw [hstep]
      exact h
    · rw [hstep]
      exact some_ne_none _

/-- After a vote, its slot is the end of the chain. -/
theorem Chained.step (h : Chained tree s)
    (hfree : s.isLockedOut L slot (tree.forest.ancestors slot) = some false) :
    Chained tree (s.processNextVoteSlot L slot) ∧
      ∀ x ∈ (s.processNextVoteSlot L slot).path, x ≠ slot → tree.forest.Ancestor x slot := by
  obtain ⟨hrecent, hpath⟩ := isLockedOut_eq_false hfree
  obtain ⟨hnext, hlt⟩ := lt_of_isRecent h hrecent
  obtain ⟨front, hsub, hfront⟩ := path_step (L := L) hnext
  refine ⟨⟨rooted_step h.rooted, ?_⟩, hpath⟩
  rw [hfront] at hpath ⊢
  refine pairwise_append.mpr ⟨h.chain.sublist hsub, pairwise_singleton _ _, ?_⟩
  intro x hx y hy
  rw [mem_singleton.mp hy]
  exact hpath x (mem_append_left _ hx) (hlt x (hsub.subset hx)).ne

/-- A recorded vote is a call of `process_next_vote_slot`. -/
theorem eq_of_record {newRoot : Option ℕ}
    (h : s.recordBankVoteAndUpdateLockouts L slot = some (newRoot, s')) :
    s' = s.processNextVoteSlot L slot := by
  unfold recordBankVoteAndUpdateLockouts at h
  split_ifs at h
  obtain ⟨oldRoot, -, h⟩ := bind_eq_some_iff.mp h
  obtain ⟨root, -, h⟩ := bind_eq_some_iff.mp h
  cases h
  rfl

end Step

/-! ## Runs of votes -/

section Runs

variable {root : ℕ} {s s' t : TowerVoteState} {slot : ℕ} {slots : List ℕ}

theorem Chained.voting_step (h : Chained tree s) (hstep : (voting L tree root).Step s slot s') :
    Chained tree s' ∧ ∀ x ∈ s'.path, x ≠ slot → tree.forest.Ancestor x slot := by
  obtain ⟨-, hfree, newRoot, hrecord⟩ := hstep
  rw [eq_of_record hrecord]
  exact h.step hfree

theorem Chained.voting_run (h : Chained tree s) (hrun : (voting L tree root).Run s slots t) :
    Chained tree t :=
  hrun.inv (Chained tree) h fun _ _ _ hstep h => (h.voting_step hstep).1

theorem chained_start (root : ℕ) : Chained tree ⟨[], some root⟩ :=
  ⟨some_ne_none _, pairwise_singleton _ _⟩

section

variable (h : Chained tree s)
include h

/-- A root is an ancestor of what is voted on while it is the root, and of the next root. -/
theorem root_step (hr : s.rootSlot = some r) (hstep : (voting L tree root).Step s slot s') :
    tree.forest.Ancestor r slot ∧
      ∃ r', s'.rootSlot = some r' ∧ (r = r' ∨ tree.forest.Ancestor r r') := by
  obtain ⟨hnext, hlt⟩ := lt_of_isRecent h (isLockedOut_eq_false hstep.2.1).1
  obtain ⟨r', hpath, hr', hrr'⟩ := h.root_cases (L := L) hr hnext
  have hchained := h.voting_step hstep
  obtain ⟨-, -, newRoot, hrecord⟩ := hstep
  rw [← eq_of_record hrecord] at hr'
  have hr'slot : tree.forest.Ancestor r' slot :=
    hchained.2 r' (mem_append_left _ (mem_toList.mpr hr')) (hlt r' hpath).ne
  refine ⟨?_, r', hr', hrr'⟩
  rcases hrr' with rfl | hrr'
  · exact hr'slot
  · exact hrr'.trans hr'slot

theorem root_run {r b : ℕ} (hr : s.rootSlot = some r)
    (hrun : (voting L tree root).Run s (slots ++ [b]) t) : tree.forest.Ancestor r b := by
  obtain ⟨u, hrun, hstep⟩ := hrun.snoc_inv
  -- the root has moved up the chain
  have hroot : ∃ r', u.rootSlot = some r' ∧ (r = r' ∨ tree.forest.Ancestor r r') := by
    have hinv := hrun.inv (fun u => Chained tree u ∧
      ∃ r', u.rootSlot = some r' ∧ (r = r' ∨ tree.forest.Ancestor r r')) ⟨h, r, hr, Or.inl rfl⟩
    apply (hinv _).2
    rintro u a u' hstep ⟨hu, r', hr', hrr'⟩
    obtain ⟨-, r'', hr'', hr'r''⟩ := root_step hu hr' hstep
    refine ⟨(hu.voting_step hstep).1, r'', hr'', ?_⟩
    rcases hrr' with rfl | hrr'
    · exact hr'r''
    · rcases hr'r'' with rfl | hr'r''
      · exact Or.inr hrr'
      · exact Or.inr (hrr'.trans hr'r'')
  obtain ⟨r', hr', hrr'⟩ := hroot
  have hb := (root_step (h.voting_run hrun) hr' hstep).1
  rcases hrr' with rfl | hrr'
  · exact hb
  · exact hrr'.trans hb

theorem lastVotedSlot_step (hstep : (voting L tree root).Step s slot s') :
    s'.lastVotedSlot = some slot := by
  have hnext := (lt_of_isRecent h (isLockedOut_eq_false hstep.2.1).1).1
  obtain ⟨-, -, newRoot, hrecord⟩ := hstep
  rw [eq_of_record hrecord]
  exact getLast_processNextVoteSlot hnext

/-- The voted slots increase. -/
theorem lt_of_run {a b : ℕ} (ha : s.lastVotedSlot = some a)
    (hrun : (voting L tree root).Run s (slots ++ [b]) t) : a < b := by
  obtain ⟨u, hrun, hstep⟩ := hrun.snoc_inv
  have hlt : ∀ {u u' : TowerVoteState} {x y : ℕ}, Chained tree u → u.lastVotedSlot = some x →
      (voting L tree root).Step u y u' → x < y := by
    intro u u' x y hu hx hstep
    obtain ⟨v, hv, rfl⟩ := map_eq_some_iff.mp hx
    exact (lt_of_isRecent hu (isLockedOut_eq_false hstep.2.1).1).1 v hv
  have hlast : ∃ x, u.lastVotedSlot = some x ∧ a ≤ x := by
    have hinv := hrun.inv (fun u => Chained tree u ∧ ∃ x, u.lastVotedSlot = some x ∧ a ≤ x)
      ⟨h, a, ha, Nat.le_refl a⟩
    apply (hinv _).2
    rintro u y u' hstep ⟨hu, x, hx, hax⟩
    have hxy := hlt hu hx hstep
    exact ⟨(hu.voting_step hstep).1, y, lastVotedSlot_step hu hstep, by omega⟩
  obtain ⟨x, hx, hax⟩ := hlast
  have hxb := hlt (h.voting_run hrun) hx hstep
  omega

/-- The fate of a vote in a step. -/
theorem fate_of_step (hv : v ∈ s.votes)
    (hstep : (voting L tree root).Step s slot s') : Fate L v slot s' := by
  have hnext := (lt_of_isRecent h (isLockedOut_eq_false hstep.2.1).1).1
  obtain ⟨-, -, newRoot, hrecord⟩ := hstep
  rw [eq_of_record hrecord]
  exact fate_of_mem h.slots hnext hv

/-- A vote's lockout, at any time it was in the tower, has ended where the tower votes on
another fork. -/
theorem lockout_run {b : ℕ} (hv : v ∈ s.votes) (hrun : (voting L tree root).Run s (slots ++ [b]) t)
    (hfork : ¬ tree.forest.Ancestor v.slot b) : L.lastLockedOutSlot v < b := by
  induction slots generalizing s v with
  | nil =>
    obtain ⟨u, hnil, hstep⟩ := hrun.snoc_inv
    rw [hnil.nil_inv] at hstep
    have hlt : v.slot < b := (lt_of_isRecent h (isLockedOut_eq_false hstep.2.1).1).2 _
      (mem_append_right _ (mem_map_of_mem hv))
    have hchained := h.voting_step hstep
    cases fate_of_step h hv hstep with
    | kept w hw hslot _ =>
      apply absurd _ hfork
      rw [← hslot]
      exact hchained.2 _ (mem_append_right _ (mem_map_of_mem hw)) (by omega)
    | expired hfree _ => exact hfree
    | rooted hr =>
      apply absurd _ hfork
      exact hchained.2 _ (mem_append_left _ (mem_toList.mpr hr)) (by omega)
  | cons a slots ih =>
    have hrun : (voting L tree root).Run s ([] ++ a :: (slots ++ [b])) t := hrun
    obtain ⟨u, u', hnil, hstep, hrest⟩ := hrun.split_cons
    rw [hnil.nil_inv] at hstep
    have hchained := (h.voting_step hstep).1
    cases fate_of_step h hv hstep with
    | kept w hw hslot hcount =>
      have hw := ih hchained hw hrest (hslot ▸ hfork)
      have hmono := L.mono hslot.symm hcount
      omega
    | expired hfree _ =>
      have hab := lt_of_run hchained (lastVotedSlot_step h hstep) hrest
      omega
    | rooted hr => exact absurd (root_run hchained hr hrest) hfork

/-- A simulated vote that moves the root leaves votes above it, so if these are among the
ancestors of the slot then so is the new root. -/
theorem root_mem_ancestors {r r' : ℕ} (hr : s.rootSlot = some r)
    (hslot : tree.forest.Ancestor r slot) (hrecent : s.isRecent slot = true)
    (hvotes : ∀ v ∈ (s.processNextVoteSlot L slot).votes, v.slot ≠ slot →
      tree.forest.Ancestor v.slot slot)
    (hr' : (s.processNextVoteSlot L slot).rootSlot = some r') : tree.forest.Ancestor r' slot := by
  obtain ⟨hnext, hlt⟩ := lt_of_isRecent h hrecent
  rcases processNextVoteSlot_cases (L := L) hnext with
    ⟨locked, expired, hsplit, ⟨-, hstep⟩ | ⟨rooted, rest, rfl, hfull, hstep⟩⟩
  · rw [hstep, hr] at hr'
    cases hr'
    exact hslot
  · rw [hstep] at hr' hvotes
    cases hr'
    cases rest with
    | nil =>
      cases hfull
    | cons u rest =>
      have hchain := (pairwise_append.mp h.chain).2.1
      rw [hsplit.eq, cons_append, cons_append, map_cons, map_cons] at hchain
      have hu : u.slot < slot := by
        apply hlt
        rw [path, hsplit.eq]
        simp
      have hmem : u ∈ u :: rest ++ [Lockout.new slot] := mem_cons_self
      obtain ⟨w, hw, hslot', -⟩ := mem_doubled_of_mem hmem
      have hwslot := hvotes w hw (by omega)
      rw [hslot'] at hwslot
      exact (rel_of_pairwise_cons hchain mem_cons_self).trans hwslot

/-- Below the current root's descendants the assertion cannot fail. -/
theorem isLockedOut_ne_none (hr : s.rootSlot = some r) (hslot : tree.forest.Ancestor r slot) :
    s.isLockedOut L slot (tree.forest.ancestors slot) ≠ none := by
  unfold isLockedOut
  dsimp only
  split_ifs with hold hvotes hroot
  · exact some_ne_none _
  · exact some_ne_none _
  · cases hr' : (s.processNextVoteSlot L slot).rootSlot with
    | none =>
      rw [hr'] at hroot
      cases hroot
    | some r' =>
      rw [hr', any_some, decide_eq_true_eq, Forest.mem_ancestors] at hroot
      apply absurd _ hroot.2
      apply root_mem_ancestors h hr hslot (by simpa using hold) _ hr'
      intro v hv hne
      by_contra hnot
      apply hvotes
      rw [← Forest.mem_ancestors] at hnot
      exact any_eq_true.mpr ⟨v, hv, decide_eq_true ⟨hne.symm, hnot⟩⟩
  · exact some_ne_none _

end

theorem voting_unique {s t t' : TowerVoteState} (h : (voting L tree root).Step s slot t)
    (h' : (voting L tree root).Step s slot t') : t = t' := by
  obtain ⟨-, -, newRoot, hrecord⟩ := h
  obtain ⟨-, -, newRoot', hrecord'⟩ := h'
  rw [eq_of_record hrecord, eq_of_record hrecord']

/-- Whatever is voted on, as long as the tower is not locked out of it: root and votes are a
chain of the tree; at a vote `b`, every lockout that an earlier vote on another fork had in
the tower has ended; every root is an ancestor of all later votes; and the assertion in
`is_locked_out` holds for every descendant of the root. -/
theorem tower_safe (L : LockoutRule) (tree : BlockTree) (root : ℕ) {slots : List ℕ}
    {s : TowerVoteState} (hrun : (voting L tree root).Run ⟨[], some root⟩ slots s) :
    (∃ r, s.rootSlot = some r ∧ (r :: s.votes.map Lockout.slot).Pairwise tree.forest.Ancestor) ∧
    (∀ before between b after t v, slots = before ++ (between ++ b :: after) →
      (voting L tree root).Run ⟨[], some root⟩ before t → v ∈ t.votes →
      ¬ tree.forest.Ancestor v.slot b → L.lastLockedOutSlot v < b) ∧
    (∀ before between b after t r, slots = before ++ (between ++ b :: after) →
      (voting L tree root).Run ⟨[], some root⟩ before t → t.rootSlot = some r →
      tree.forest.Ancestor r b) ∧
    ∀ slot r, s.rootSlot = some r → tree.forest.Ancestor r slot →
      s.isLockedOut L slot (tree.forest.ancestors slot) ≠ none := by
  have hstart : Chained tree ⟨[], some root⟩ := chained_start root
  have hs := hstart.voting_run hrun
  -- the tower between two votes of the run
  have hcut : ∀ {before between after : List ℕ} {b : ℕ} {t : TowerVoteState},
      slots = before ++ (between ++ b :: after) →
      (voting L tree root).Run ⟨[], some root⟩ before t →
      ∃ u, (voting L tree root).Run t (between ++ [b]) u := by
    intro before between after b t hslots ht
    rw [hslots] at hrun
    obtain ⟨t', ht', hrest⟩ := hrun.split
    rw [ht.unique (fun _ _ _ _ => voting_unique) ht']
    obtain ⟨u, u', hbetween, hstep, -⟩ := hrest.split_cons
    exact ⟨u', hbetween.snoc hstep⟩
  refine ⟨?_, ?_, ?_, ?_⟩
  · obtain ⟨r, hr⟩ := ne_none_iff_exists'.mp hs.rooted
    have hchain := hs.chain
    rw [path, hr] at hchain
    exact ⟨r, hr, hchain⟩
  · intro before between b after t v hslots ht hv hfork
    obtain ⟨u, hu⟩ := hcut hslots ht
    exact lockout_run (hstart.voting_run ht) hv hu hfork
  · intro before between b after t r hslots ht hr
    obtain ⟨u, hu⟩ := hcut hslots ht
    exact root_run (hstart.voting_run ht) hr hu
  · intro slot r hr hslot
    exact isLockedOut_ne_none hs hr hslot

end Runs

/-! ## Off the root -/

/-- A chain of slots, and one late slot that branches off at slot 0. -/
def lateFork : BlockTree where
  parent slot := if slot = 0 then none else if slot = 2 ^ 33 then some 0 else some (slot - 1)
  parent_lt := by
    intro slot p h
    split_ifs at h with hzero hlate
    · cases h
      omega
    · cases h
      omega

def voteAll (L : LockoutRule) (tree : BlockTree) (root : ℕ) :
    List ℕ → TowerVoteState → Option TowerVoteState
  | [], s => some s
  | slot :: slots, s =>
      if root ∈ tree.forest.ancestors slot ∧
          s.isLockedOut L slot (tree.forest.ancestors slot) = some false then
        (s.recordBankVoteAndUpdateLockouts L slot).bind fun (_, s') => voteAll L tree root slots s'
      else none

theorem run_of_voteAll {root : ℕ} {slots : List ℕ}
    {s t : TowerVoteState} (h : voteAll L tree root slots s = some t) :
    (voting L tree root).Run s slots t := by
  induction slots generalizing s with
  | nil =>
    cases h
    exact .nil
  | cons slot slots ih =>
    unfold voteAll at h
    split_ifs at h with hfree
    obtain ⟨⟨newRoot, s'⟩, hrecord, hrest⟩ := bind_eq_some_iff.mp h
    exact (ih hrest).cons ⟨Forest.mem_ancestors.mp hfree.1, hfree.2, newRoot, hrecord⟩

/-- Votes on two slots of the chain. -/
theorem tower_safe_pair :
    ∃ s, (voting doubling lateFork 0).Run ⟨[], some 0⟩ [1, 2] s ∧
      ∃ r, s.rootSlot = some r ∧
        (r :: s.votes.map Lockout.slot).Pairwise lateFork.forest.Ancestor := by
  have hvotes : voteAll doubling lateFork 0 [1, 2] ⟨[], some 0⟩ =
      some ⟨[⟨1, 2⟩, ⟨2, 1⟩], some 0⟩ := by decide +kernel
  have hrun := run_of_voteAll hvotes
  exact ⟨_, hrun, (tower_safe doubling lateFork 0 hrun).1⟩

/-- After 32 votes slot 1 is the root. When all the others have expired, the slot that
branches off below the root passes the votes and runs into the assertion. -/
theorem assertion_fires :
    ∃ s, (voting doubling lateFork 0).Run ⟨[], some 0⟩ (List.range' 1 32) s ∧
      lateFork.forest.Ancestor 0 (2 ^ 33) ∧
      s.isLockedOut doubling (2 ^ 33) (lateFork.forest.ancestors (2 ^ 33)) = none := by
  have hvotes : ((voteAll doubling lateFork 0 (range' 1 32) ⟨[], some 0⟩).map fun s =>
      s.isLockedOut doubling (2 ^ 33) (lateFork.forest.ancestors (2 ^ 33))) = some none := by
    decide +kernel
  obtain ⟨s, hs, hnone⟩ := map_eq_some_iff.mp hvotes
  refine ⟨s, run_of_voteAll hs, ?_, hnone⟩
  exact .single rfl

end Salsa.Vote
