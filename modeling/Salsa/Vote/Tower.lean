import Mathlib.Algebra.GroupWithZero.Nat
import Mathlib.Data.List.Chain
import Mathlib.Data.List.DropRight

/-!
# Salsa.Vote.Tower — the local tower of votes

`TowerVoteState` of `core/src/consensus/tower_vote_state.rs`: a stack of votes, oldest
first, each with the number of votes that have confirmed it. A new vote pops the
expired ones off the top, roots the oldest vote of a full stack, is pushed, and
raises the confirmations of every vote that is now deeper than ever before.

How long a vote locks out comes with the vote interface, `LockoutRule`; all that is
used of it is that more confirmations never shorten a lockout.
-/

namespace Salsa.Vote

open List Option

/-! ## Lockouts -/

/-- `Lockout`: a voted slot and its confirmations. -/
structure Lockout where
  slot : ℕ
  confirmationCount : ℕ
deriving DecidableEq, Repr

def Lockout.new (slot : ℕ) : Lockout := ⟨slot, 1⟩

def Lockout.increaseConfirmationCount (self : Lockout) (n : ℕ) : Lockout :=
  { self with confirmationCount := self.confirmationCount + n }

/-- `Lockout::last_locked_out_slot` of the vote interface. -/
structure LockoutRule where
  lastLockedOutSlot : Lockout → ℕ
  mono : ∀ {v w : Lockout}, v.slot = w.slot → v.confirmationCount ≤ w.confirmationCount →
    lastLockedOutSlot v ≤ lastLockedOutSlot w

def LockoutRule.isLockedOutAtSlot (L : LockoutRule) (v : Lockout) (slot : ℕ) : Bool :=
  decide (slot ≤ L.lastLockedOutSlot v)

def maxLockoutHistory : ℕ := 31

/-- A lockout that doubles with every confirmation. -/
def doubling : LockoutRule where
  lastLockedOutSlot v := v.slot + 2 ^ min v.confirmationCount maxLockoutHistory
  mono := by
    intro v w hslot hcount
    rw [hslot]
    apply Nat.add_le_add_left
    apply Nat.pow_le_pow_right Nat.zero_lt_two
    omega

/-! ## The tower -/

/-- `TowerVoteState`, the oldest vote first. -/
structure TowerVoteState where
  votes : List Lockout
  rootSlot : Option ℕ
deriving DecidableEq, Repr

namespace TowerVoteState

def empty : TowerVoteState := ⟨[], none⟩

variable (L : LockoutRule) (self : TowerVoteState)

def lastVotedSlot : Option ℕ := self.votes.getLast?.map Lockout.slot

def popExpiredVotes (nextVoteSlot : ℕ) : TowerVoteState :=
  { self with votes := self.votes.rdropWhile fun v => !L.isLockedOutAtSlot v nextVoteSlot }

def doubleLockouts : TowerVoteState :=
  let stackDepth := self.votes.length
  { self with
    votes := self.votes.mapIdx fun i v =>
      if i + v.confirmationCount < stackDepth then v.increaseConfirmationCount 1 else v }

def processNextVoteSlot (nextVoteSlot : ℕ) : TowerVoteState :=
  if self.lastVotedSlot.any (nextVoteSlot ≤ ·) then self
  else
    let self := self.popExpiredVotes L nextVoteSlot
    let self : TowerVoteState :=
      match self.votes with
      | [] => self
      | rootedVote :: votes =>
          if self.votes.length = maxLockoutHistory then ⟨votes, some rootedVote.slot⟩ else self
    doubleLockouts { self with votes := self.votes ++ [Lockout.new nextVoteSlot] }

def processSlots (slots : List ℕ) : TowerVoteState :=
  slots.foldl (processNextVoteSlot L) self

end TowerVoteState

/-! ## Doubling -/

/-- A vote at the given depth of the stack. -/
def Lockout.atDepth (v : Lockout) (depth : ℕ) : Lockout :=
  if v.confirmationCount < depth then v.increaseConfirmationCount 1 else v

variable {s : TowerVoteState} {next : ℕ} {v : Lockout} {votes : List Lockout}

open Lockout

@[simp] theorem Lockout.atDepth_slot (depth : ℕ) : (v.atDepth depth).slot = v.slot := by
  unfold atDepth
  split_ifs <;> rfl

theorem Lockout.atDepth_count (depth : ℕ) :
    (v.atDepth depth).confirmationCount =
      if v.confirmationCount < depth then v.confirmationCount + 1 else v.confirmationCount :=
  apply_ite confirmationCount _ _ _

theorem Lockout.count_le_atDepth (depth : ℕ) :
    v.confirmationCount ≤ (v.atDepth depth).confirmationCount := by
  rw [atDepth_count]
  split_ifs <;> omega

def doubled (votes : List Lockout) : List Lockout :=
  (TowerVoteState.doubleLockouts ⟨votes, none⟩).votes

/-- The depth of a vote is the number of votes from it to the top. -/
theorem doubled_cons (votes : List Lockout) :
    doubled (v :: votes) = v.atDepth (votes.length + 1) :: doubled votes := by
  show mapIdx _ (v :: votes) = _ :: mapIdx _ votes
  rw [mapIdx_cons]
  congr 1
  · rw [Nat.zero_add]
    rfl
  · congr 1
    funext i w
    apply if_congr _ rfl rfl
    show i + 1 + w.confirmationCount < votes.length + 1 ↔ i + w.confirmationCount < votes.length
    omega

theorem length_doubled (votes : List Lockout) : (doubled votes).length = votes.length :=
  length_mapIdx

/-- A doubled vote keeps its slot, and its confirmations do not go down. -/
theorem mem_doubled_of_mem (h : v ∈ votes) :
    ∃ w ∈ doubled votes, w.slot = v.slot ∧ v.confirmationCount ≤ w.confirmationCount := by
  induction votes with
  | nil => cases h
  | cons u votes ih =>
    rw [doubled_cons]
    rcases mem_cons.mp h with rfl | h
    · exact ⟨_, mem_cons_self, v.atDepth_slot _, v.count_le_atDepth _⟩
    · obtain ⟨w, hw, hslot, hcount⟩ := ih h
      exact ⟨w, mem_cons_of_mem _ hw, hslot, hcount⟩

theorem map_slot_doubled (votes : List Lockout) : (doubled votes).map slot = votes.map slot := by
  induction votes with
  | nil => rfl
  | cons v votes ih =>
    rw [doubled_cons, map_cons, map_cons, ih, atDepth_slot]

theorem exists_of_mem_doubled {w : Lockout} (h : w ∈ doubled votes) :
    ∃ v ∈ votes, v.slot = w.slot := by
  have hslot : w.slot ∈ (doubled votes).map slot := mem_map_of_mem h
  rw [map_slot_doubled] at hslot
  exact mem_map.mp hslot

/-! ## One vote -/

section Step

variable {L : LockoutRule}

/-- The votes that stay locked out at `next`, and the expired ones above them. -/
structure Split (L : LockoutRule) (votes : List Lockout) (next : ℕ)
    (locked expired : List Lockout) : Prop where
  eq : votes = locked ++ expired
  expired_lt : ∀ v ∈ expired, L.lastLockedOutSlot v < next
  le_last : ∀ v ∈ locked.getLast?, next ≤ L.lastLockedOutSlot v

theorem split_rdropWhile (L : LockoutRule) (votes : List Lockout) (next : ℕ) :
    Split L votes next (votes.rdropWhile fun v => !L.isLockedOutAtSlot v next)
      (votes.rtakeWhile fun v => !L.isLockedOutAtSlot v next) where
  eq := rdropWhile_append_rtakeWhile.symm
  expired_lt := by
    intro v hv
    have hfree := mem_rtakeWhile_imp hv
    simp only [LockoutRule.isLockedOutAtSlot, Bool.not_eq_true', decide_eq_false_iff_not,
      not_le] at hfree
    exact hfree
  le_last := by
    intro v hv
    obtain ⟨hne, rfl⟩ := List.mem_getLast?_eq_getLast hv
    have hlocked := rdropWhile_last_not _ _ hne
    rw [Bool.not_eq_true', Bool.not_eq_false] at hlocked
    exact of_decide_eq_true hlocked

open TowerVoteState

/-- A vote that is not too old: the stack is what stays locked out, without the oldest
vote if it is full, and the new vote, doubled. -/
theorem processNextVoteSlot_cases (hnext : ∀ v ∈ s.votes.getLast?, v.slot < next) :
    ∃ locked expired, Split L s.votes next locked expired ∧
      (locked.length ≠ maxLockoutHistory ∧
        s.processNextVoteSlot L next = ⟨doubled (locked ++ [new next]), s.rootSlot⟩ ∨
      ∃ rooted rest, locked = rooted :: rest ∧ locked.length = maxLockoutHistory ∧
        s.processNextVoteSlot L next = ⟨doubled (rest ++ [new next]), some rooted.slot⟩) := by
  refine ⟨_, _, split_rdropWhile L s.votes next, ?_⟩
  have hnew : ¬ s.lastVotedSlot.any (next ≤ ·) = true := by
    rw [lastVotedSlot]
    cases hlast : s.votes.getLast? with
    | none => exact Bool.false_ne_true
    | some v =>
      have hlt := hnext v hlast
      rw [map_some, any_some, decide_eq_true_eq]
      omega
  rw [processNextVoteSlot, if_neg hnew]
  unfold popExpiredVotes
  cases hlocked : s.votes.rdropWhile fun v => !L.isLockedOutAtSlot v next with
  | nil => exact Or.inl ⟨by decide, rfl⟩
  | cons rooted rest =>
    by_cases hfull : (rooted :: rest).length = maxLockoutHistory
    · right
      refine ⟨rooted, rest, rfl, hfull, ?_⟩
      simp only [if_pos hfull]
      rfl
    · left
      refine ⟨hfull, ?_⟩
      simp only [if_neg hfull]
      rfl

/-- A vote not above the last one is ignored. -/
theorem processNextVoteSlot_of_le (hv : v ∈ s.votes.getLast?)
    (hle : next ≤ v.slot) : s.processNextVoteSlot L next = s := by
  rw [processNextVoteSlot, if_pos]
  rw [lastVotedSlot, mem_def.mp hv, map_some, any_some]
  exact decide_eq_true hle

/-- What becomes of the vote `v` when the tower votes on `next`. -/
inductive Fate (L : LockoutRule) (v : Lockout) (next : ℕ) (s' : TowerVoteState) : Prop where
  | kept (w : Lockout) : w ∈ s'.votes → w.slot = v.slot →
      v.confirmationCount ≤ w.confirmationCount → Fate L v next s'
  -- the votes above it have expired with it
  | expired : L.lastLockedOutSlot v < next →
      (∀ w ∈ s'.votes, w.slot < v.slot ∨ w.slot = next) → Fate L v next s'
  | rooted : s'.rootSlot = some v.slot → Fate L v next s'

theorem mem_doubled_push {w : Lockout} {base : List Lockout}
    (h : w ∈ doubled (base ++ [new next])) :
    w.slot = next ∨ ∃ v ∈ base, v.slot = w.slot := by
  obtain ⟨v, hv, hslot⟩ := exists_of_mem_doubled h
  rcases mem_append.mp hv with hv | hv
  · exact Or.inr ⟨v, hv, hslot⟩
  · left
    rw [← hslot, mem_singleton.mp hv]
    rfl

/-- The votes after a step are the new one and those that stay locked out. -/
theorem mem_processNextVoteSlot (hnext : ∀ v ∈ s.votes.getLast?, v.slot < next) :
    ∃ locked expired, Split L s.votes next locked expired ∧
      (∀ w ∈ (s.processNextVoteSlot L next).votes, w.slot = next ∨ ∃ v ∈ locked, v.slot = w.slot) ∧
      ∀ v ∈ locked, Fate L v next (s.processNextVoteSlot L next) := by
  obtain ⟨locked, expired, hsplit, hstep⟩ := processNextVoteSlot_cases (L := L) hnext
  have hkept : ∀ (base : List Lockout) (root : Option ℕ), ∀ v ∈ base,
      Fate L v next ⟨doubled (base ++ [new next]), root⟩ := by
    intro base root v hv
    rcases mem_doubled_of_mem (mem_append_left [new next] hv) with
      ⟨w, hw, hslot, hcount⟩
    exact .kept w hw hslot hcount
  refine ⟨locked, expired, hsplit, ?_⟩
  rcases hstep with ⟨-, hstep⟩ | ⟨rooted, rest, rfl, -, hstep⟩
  · rw [hstep]
    exact ⟨fun w hw => mem_doubled_push hw, hkept locked _⟩
  · rw [hstep]
    constructor
    · intro w hw
      rcases mem_doubled_push hw with hw | ⟨v, hv, hslot⟩
      · exact Or.inl hw
      · exact Or.inr ⟨v, mem_cons_of_mem _ hv, hslot⟩
    · intro v hv
      rcases mem_cons.mp hv with rfl | hv
      · exact .rooted rfl
      · exact hkept rest _ v hv

theorem fate_of_mem (hslots : s.votes.Pairwise fun v w => v.slot < w.slot)
    (hnext : ∀ v ∈ s.votes.getLast?, v.slot < next) (hv : v ∈ s.votes) :
    Fate L v next (s.processNextVoteSlot L next) := by
  obtain ⟨locked, expired, hsplit, hmem, hlocked⟩ := mem_processNextVoteSlot (L := L) hnext
  rw [hsplit.eq] at hv hslots
  rcases mem_append.mp hv with hv | hv
  · exact hlocked v hv
  · -- what stays below an expired vote is older than it
    apply Fate.expired (hsplit.expired_lt v hv)
    intro w hw
    rcases hmem w hw with hw | ⟨u, hu, hslot⟩
    · exact Or.inr hw
    · left
      rw [← hslot]
      exact (pairwise_append.mp hslots).2.2 u hu v hv

theorem getLast_processNextVoteSlot (hnext : ∀ v ∈ s.votes.getLast?, v.slot < next) :
    (s.processNextVoteSlot L next).lastVotedSlot = some next := by
  have hpush : ∀ (base : List Lockout) (root : Option ℕ),
      lastVotedSlot ⟨doubled (base ++ [new next]), root⟩ = some next := by
    intro base root
    rw [lastVotedSlot, ← getLast?_map, map_slot_doubled, map_append, getLast?_append]
    rfl
  rcases processNextVoteSlot_cases (L := L) hnext with
    ⟨locked, expired, -, ⟨-, hstep⟩ | ⟨rooted, rest, -, -, hstep⟩⟩
  · rw [hstep, hpush]
  · rw [hstep, hpush]

end Step

/-! ## The shape of a tower -/

section Shape

variable (L : LockoutRule)

/-- Two adjacent votes: the older one has more confirmations, and still locks out the
slot of the newer one. -/
structure Follows (v w : Lockout) : Prop where
  slot_lt : v.slot < w.slot
  count_lt : w.confirmationCount < v.confirmationCount
  le_lastLockedOut : w.slot ≤ L.lastLockedOutSlot v

/-- Every vote has been confirmed by itself and all the votes above it. -/
def Deep : List Lockout → Prop
  | [] => True
  | v :: votes => votes.length < v.confirmationCount ∧ Deep votes

/-- A tower grown from an empty one. -/
structure TowerInv (s : TowerVoteState) : Prop where
  chain : s.votes.IsChain (Follows L)
  deep : Deep s.votes
  count_le : ∀ v ∈ s.votes, v.confirmationCount ≤ maxLockoutHistory
  length_le : s.votes.length ≤ maxLockoutHistory
  rooted_ne : s.rootSlot ≠ none → s.votes ≠ []
  root_lt : ∀ r ∈ s.rootSlot, ∀ v ∈ s.votes, r < v.slot

variable {L} {votes locked : List Lockout}

theorem pairwise_slot_of_chain (h : votes.IsChain (Follows L)) :
    votes.Pairwise fun v w => v.slot < w.slot := by
  have hslots : (votes.map slot).IsChain (· < ·) :=
    (isChain_map slot).mpr (h.imp fun _ _ hvw => hvw.slot_lt)
  exact pairwise_map.mp (isChain_iff_pairwise.mp hslots)

theorem pairwise_count_of_chain (h : votes.IsChain (Follows L)) :
    votes.Pairwise fun v w => w.confirmationCount < v.confirmationCount := by
  have hcounts : (votes.map confirmationCount).IsChain (· > ·) :=
    (isChain_map confirmationCount).mpr (h.imp fun _ _ hvw => hvw.count_lt)
  exact pairwise_map.mp (isChain_iff_pairwise.mp hcounts)

theorem Deep.left_of_append {expired : List Lockout} (h : Deep (locked ++ expired)) :
    Deep locked := by
  induction locked with
  | nil => trivial
  | cons v locked ih =>
    refine ⟨?_, ih h.2⟩
    have hlt : (locked ++ expired).length < v.confirmationCount := h.1
    rw [length_append] at hlt
    omega

/-- One vote more on top: the older vote stays ahead of the newer one. -/
theorem Follows.atDepth {v w : Lockout} {n : ℕ} (h : Follows L v w) (hv : n ≤ v.confirmationCount) :
    Follows L (v.atDepth (n + 1)) (w.atDepth n) where
  slot_lt := by
    rw [atDepth_slot, atDepth_slot]
    exact h.slot_lt
  count_lt := by
    have hlt := h.count_lt
    rw [atDepth_count, atDepth_count]
    split_ifs <;> omega
  le_lastLockedOut := by
    rw [atDepth_slot]
    exact h.le_lastLockedOut.trans (L.mono (v.atDepth_slot _).symm (v.count_le_atDepth _))

/-- Doubling after a push keeps the chain. -/
theorem chain_doubled_push (hchain : locked.IsChain (Follows L)) (hdeep : Deep locked)
    (hlast : ∀ v ∈ locked.getLast?, v.slot < next ∧ next ≤ L.lastLockedOutSlot v) :
    (doubled (locked ++ [new next])).IsChain (Follows L) ∧
      Deep (doubled (locked ++ [new next])) := by
  induction locked with
  | nil => exact ⟨isChain_singleton _, Nat.zero_lt_one, trivial⟩
  | cons v rest ih =>
    have hlen : (rest ++ [new next]).length = rest.length + 1 := length_append
    have hv : rest.length < v.confirmationCount := hdeep.1
    rw [cons_append, doubled_cons, hlen]
    have hrest : ∀ u ∈ rest.getLast?, u.slot < next ∧ next ≤ L.lastLockedOutSlot u := by
      intro u hu
      apply hlast
      rw [mem_def, getLast?_cons, mem_def.mp hu]
      rfl
    obtain ⟨ihchain, ihdeep⟩ := ih (isChain_cons.mp hchain).2 hdeep.2 hrest
    constructor
    · apply ihchain.cons
      intro w hw
      cases rest with
      | nil =>
        obtain ⟨hslot, hlocked⟩ := hlast v rfl
        have hw : new next = w := some_inj.mp hw
        rw [← hw]
        refine ⟨?_, ?_, ?_⟩
        · rw [atDepth_slot]
          exact hslot
        · show 1 < (v.atDepth 2).confirmationCount
          rw [atDepth_count]
          split_ifs <;> omega
        · exact hlocked.trans (L.mono (v.atDepth_slot _).symm (v.count_le_atDepth _))
      | cons u rest =>
        rw [cons_append, doubled_cons, head?_cons, mem_some_iff] at hw
        have hfollows := (isChain_cons_cons.mp hchain).1
        rw [← hw, length_append]
        exact hfollows.atDepth hv
    · refine ⟨?_, ihdeep⟩
      rw [length_doubled, hlen, atDepth_count]
      split_ifs <;> omega

theorem count_doubled_le {n : ℕ} (hcount : ∀ v ∈ votes, v.confirmationCount ≤ n)
    (hlen : votes.length ≤ n) : ∀ w ∈ doubled votes, w.confirmationCount ≤ n := by
  induction votes with
  | nil =>
    intro w hw
    cases hw
  | cons v votes ih =>
    rw [length_cons] at hlen
    rw [doubled_cons, forall_mem_cons]
    rw [forall_mem_cons] at hcount
    refine ⟨?_, ih hcount.2 (by omega)⟩
    rw [atDepth_count]
    split_ifs <;> omega

theorem slot_lt_of_last_lt (hslots : votes.Pairwise fun v w => v.slot < w.slot)
    (hnext : ∀ v ∈ votes.getLast?, v.slot < next) : ∀ v ∈ votes, v.slot < next := by
  intro v hv
  rcases eq_nil_or_concat votes with rfl | ⟨front, last, rfl⟩
  · cases hv
  · rw [concat_eq_append] at hv hslots hnext
    have hlast : last.slot < next := hnext last getLast?_concat
    rcases mem_append.mp hv with hv | hv
    · have hlt := (pairwise_append.mp hslots).2.2 v hv last mem_cons_self
      exact hlt.trans hlast
    · rw [mem_singleton.mp hv]
      exact hlast

/-- The invariant, from what stays in the stack below the new vote. -/
theorem TowerInv.push {root : Option ℕ} (hchain : locked.IsChain (Follows L)) (hdeep : Deep locked)
    (hcount : ∀ v ∈ locked, v.confirmationCount ≤ maxLockoutHistory)
    (hlen : locked.length < maxLockoutHistory)
    (hlast : ∀ v ∈ locked.getLast?, v.slot < next ∧ next ≤ L.lastLockedOutSlot v)
    (hroot : ∀ r ∈ root, r < next ∧ ∀ v ∈ locked, r < v.slot) :
    TowerInv L ⟨doubled (locked ++ [new next]), root⟩ := by
  obtain ⟨hchain, hdeep⟩ := chain_doubled_push hchain hdeep hlast
  have hlength : (locked ++ [new next]).length ≤ maxLockoutHistory := by
    rw [length_append]
    exact hlen
  refine ⟨hchain, hdeep, ?_, ?_, ?_, ?_⟩
  · apply count_doubled_le _ hlength
    refine forall_mem_append.mpr ⟨hcount, forall_mem_singleton.mpr ?_⟩
    show 1 ≤ 31
    omega
  · rw [length_doubled]
    exact hlength
  · intro _ hnil
    have hzero := congrArg length hnil
    rw [length_doubled, length_append] at hzero
    exact Nat.succ_ne_zero _ hzero
  · intro r hr w hw
    obtain ⟨hlt, hvotes⟩ := hroot r hr
    rcases mem_doubled_push hw with hw | ⟨v, hv, hslot⟩
    · rw [hw]
      exact hlt
    · rw [← hslot]
      exact hvotes v hv

/-- A vote is too old or above all the votes. -/
theorem old_or_new (s : TowerVoteState) (next : ℕ) :
    (∃ v ∈ s.votes.getLast?, next ≤ v.slot) ∨ ∀ v ∈ s.votes.getLast?, v.slot < next := by
  by_cases h : ∀ v ∈ s.votes.getLast?, v.slot < next
  · exact Or.inr h
  · left
    push Not at h
    exact h

/-- Every vote keeps the tower invariant. -/
theorem TowerInv.step (h : TowerInv L s) (next : ℕ) : TowerInv L
    (s.processNextVoteSlot L next) := by
  rcases old_or_new s next with ⟨v, hv, hle⟩ | hnext
  · rw [processNextVoteSlot_of_le hv hle]
    exact h
  have hslots := pairwise_slot_of_chain h.chain
  have hlt := slot_lt_of_last_lt hslots hnext
  have hrootLt : ∀ r ∈ s.rootSlot, r < next := by
    intro r hr
    have hne : s.votes ≠ [] := h.rooted_ne (ne_none_iff_exists'.mpr ⟨r, hr⟩)
    have hmem := getLast_mem hne
    exact (h.root_lt r hr _ hmem).trans (hlt _ hmem)
  have hlen := h.length_le
  obtain ⟨locked, expired, hsplit, hstep⟩ := processNextVoteSlot_cases (L := L) hnext
  have hchain := h.chain
  have hdeep := h.deep
  have hcount := h.count_le
  rw [hsplit.eq] at hchain hdeep hcount hlen hlt hslots
  rw [length_append] at hlen
  rcases hstep with ⟨hfull, hstep⟩ | ⟨rooted, rest, rfl, hfull, hstep⟩
  · rw [hstep]
    apply TowerInv.push hchain.left_of_append hdeep.left_of_append
    · intro v hv
      exact hcount v (mem_append_left _ hv)
    · omega
    · intro v hv
      exact ⟨hlt v (mem_append_left _ (List.mem_of_getLast? hv)), hsplit.le_last v hv⟩
    · intro r hr
      refine ⟨hrootLt r hr, ?_⟩
      intro v hv
      apply h.root_lt r hr
      rw [hsplit.eq]
      exact mem_append_left _ hv
  · rw [hstep]
    have hrest := (isChain_cons.mp hchain.left_of_append).2
    apply TowerInv.push hrest hdeep.left_of_append.2
    · intro v hv
      exact hcount v (mem_append_left _ (mem_cons_of_mem _ hv))
    · rw [length_cons] at hfull
      omega
    · intro v hv
      have hmem : v ∈ (rooted :: rest).getLast? := by
        rw [mem_def, getLast?_cons, mem_def.mp hv]
        rfl
      exact ⟨hlt v (mem_append_left _ (List.mem_of_getLast? hmem)), hsplit.le_last v hmem⟩
    · intro r hr
      rw [← mem_some_iff.mp hr]
      refine ⟨hlt _ (mem_append_left _ mem_cons_self), ?_⟩
      intro v hv
      exact rel_of_pairwise_cons hslots (mem_append_left _ hv)

theorem TowerInv.empty : TowerInv L .empty := by
  refine ⟨isChain_nil, trivial, ?_, Nat.zero_le _, ?_, ?_⟩
  · intro v hv
    cases hv
  · intro h
    exact absurd rfl h
  · intro r hr
    cases hr

theorem TowerInv.run (h : TowerInv L s) (slots : List ℕ) : TowerInv L (s.processSlots L slots) := by
  induction slots generalizing s with
  | nil => exact h
  | cons next slots ih => exact ih (h.step next)

end Shape

end Salsa.Vote
