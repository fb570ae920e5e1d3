import Mathlib.Data.Finset.Max
import Mathlib.Data.Finset.Prod

/-!
# Salsa.Votor.History — the votes a validator has cast

`vote_history.rs`: for each slot from the root on, what the validator voted and which
certificates and ready parents it has seen. A query for a slot below the root and a
vote that contradicts an earlier one are assertions, `none` here.

The history forgets what is below its root, so what it means is said against the log of
all votes and notarization certificates: `Faithful` for the slots it still covers, and
`Safe` for the whole log.
-/

namespace Salsa.Votor

open List Finset

abbrev Block (Hash : Type) := ℕ × Hash

inductive Vote (Hash : Type) where
  | notarize (slot : ℕ) (blockId : Hash)
  | finalize (slot : ℕ)
  | skip (slot : ℕ)
  | notarizeFallback (slot : ℕ) (blockId : Hash)
  | skipFallback (slot : ℕ)
deriving DecidableEq, Repr

variable {Hash : Type}

def Vote.slot : Vote Hash → ℕ
  | notarize slot _ | finalize slot | skip slot | notarizeFallback slot _
  | skipFallback slot => slot

/-! ## `VoteHistory` -/

/-- `VoteHistory`. A map of sets is the set of its pairs. -/
structure VoteHistory (Hash : Type) where
  votedSlots : Finset ℕ
  votedNotarBlocks : ℕ → Option Hash
  votedNotarFallbackBlocks : Finset (Block Hash)
  votedSkipFallbackSlots : Finset ℕ
  skippedSlots : Finset ℕ
  itsOverSlots : Finset ℕ
  votesCast : List (Vote Hash)
  notarizedBlocks : Finset (Block Hash)
  parentReadySlots : Finset (ℕ × Block Hash)
  root : ℕ

namespace VoteHistory

def new (root : ℕ) : VoteHistory Hash where
  votedSlots := ∅
  votedNotarBlocks _ := none
  votedNotarFallbackBlocks := ∅
  votedSkipFallbackSlots := ∅
  skippedSlots := ∅
  itsOverSlots := ∅
  votesCast := []
  notarizedBlocks := ∅
  parentReadySlots := ∅
  root := root

variable [DecidableEq Hash] (h : VoteHistory Hash)

/-- A query that asserts `slot >= self.root`. -/
def query {α : Type} (slot : ℕ) (answer : α) : Option α :=
  if h.root ≤ slot then some answer else none

def voted (slot : ℕ) : Option Bool := h.query slot (slot ∈ h.votedSlots)

def votedNotar (slot : ℕ) : Option (Option Hash) := h.query slot (h.votedNotarBlocks slot)

def votedNotarFallback (slot : ℕ) (blockId : Hash) : Option Bool :=
  h.query slot ((slot, blockId) ∈ h.votedNotarFallbackBlocks)

def votedSkipFallback (slot : ℕ) : Option Bool := h.query slot (slot ∈ h.votedSkipFallbackSlots)

def skipped (slot : ℕ) : Option Bool := h.query slot (slot ∈ h.skippedSlots)

def itsOver (slot : ℕ) : Option Bool := h.query slot (slot ∈ h.itsOverSlots)

def votesCastSince (slot : ℕ) : List (Vote Hash) := h.votesCast.filter fun vote => slot < vote.slot

def badWindow (slot : ℕ) : Option Bool :=
  h.query slot (slot ∈ h.skippedSlots ∨ (∃ block ∈ h.votedNotarFallbackBlocks, block.1 = slot) ∨
    slot ∈ h.votedSkipFallbackSlots)

def isBlockNotarized (block : Block Hash) : Bool := block ∈ h.notarizedBlocks

def isParentReady (slot : ℕ) (parent : Block Hash) : Bool := (slot, parent) ∈ h.parentReadySlots

/-- `assert!` on the answer of a query. -/
def require (answer : Option Bool) (expected : Bool) : Option Unit :=
  if answer = some expected then some () else none

def addVote (vote : Vote Hash) : Option (VoteHistory Hash) := do
  guard (h.root ≤ vote.slot)
  let h ← match vote with
    | .notarize slot blockId => do
        guard (slot ∉ h.votedSlots)
        guard (h.votedNotarBlocks slot = none)
        pure { h with
          votedSlots := insert slot h.votedSlots
          votedNotarBlocks := Function.update h.votedNotarBlocks slot (some blockId) }
    | .finalize slot => do
        require (h.skipped slot) false
        pure { h with itsOverSlots := insert slot h.itsOverSlots }
    | .skip slot =>
        pure { h with
          votedSlots := insert slot h.votedSlots
          skippedSlots := insert slot h.skippedSlots }
    | .notarizeFallback slot blockId => do
        require (h.voted slot) true
        require (h.itsOver slot) false
        pure { h with
          skippedSlots := insert slot h.skippedSlots
          votedNotarFallbackBlocks := insert (slot, blockId) h.votedNotarFallbackBlocks }
    | .skipFallback slot => do
        require (h.voted slot) true
        require (h.itsOver slot) false
        pure { h with
          skippedSlots := insert slot h.skippedSlots
          votedSkipFallbackSlots := insert slot h.votedSkipFallbackSlots }
  return { h with votesCast := h.votesCast ++ [vote] }

def addBlockNotarized (block : Block Hash) : VoteHistory Hash :=
  if block.1 < h.root then h
  else { h with notarizedBlocks := insert block h.notarizedBlocks }

/-- `add_parent_ready`, with whether this is the first ready parent of the slot. -/
def addParentReady (slot : ℕ) (parent : Block Hash) : Bool × VoteHistory Hash :=
  if slot < h.root then (false, h)
  else (decide (∀ ready ∈ h.parentReadySlots, ready.1 ≠ slot),
    { h with parentReadySlots := insert (slot, parent) h.parentReadySlots })

def highestParentReadySlot : WithBot ℕ := (h.parentReadySlots.image Prod.fst).max

def setRoot (root : ℕ) : VoteHistory Hash where
  root := root
  votedSlots := h.votedSlots.filter (root ≤ ·)
  votedNotarBlocks slot := if root ≤ slot then h.votedNotarBlocks slot else none
  votedNotarFallbackBlocks := h.votedNotarFallbackBlocks.filter (root ≤ ·.1)
  votedSkipFallbackSlots := h.votedSkipFallbackSlots.filter (root ≤ ·)
  skippedSlots := h.skippedSlots.filter (root ≤ ·)
  itsOverSlots := h.itsOverSlots.filter (root ≤ ·)
  votesCast := h.votesCast.filter (root ≤ ·.slot)
  notarizedBlocks := h.notarizedBlocks.filter (root ≤ ·.1)
  parentReadySlots := h.parentReadySlots.filter (root ≤ ·.1)

end VoteHistory

open VoteHistory

/-! ## The log -/

/-- A vote cast, or a notarization certificate seen. -/
inductive Entry (Hash : Type) where
  | vote (vote : Vote Hash)
  | notarized (block : Block Hash)
deriving DecidableEq, Repr

variable {log : List (Entry Hash)} {slot : ℕ} {entry : Entry Hash}

/-- A `Notarize` or `Skip` vote in the slot. -/
def Voted (log : List (Entry Hash)) (slot : ℕ) : Prop :=
  (∃ blockId, .vote (.notarize slot blockId) ∈ log) ∨ .vote (.skip slot) ∈ log

/-- A `Skip` or fallback vote in the slot. -/
def Skipped (log : List (Entry Hash)) (slot : ℕ) : Prop :=
  .vote (.skip slot) ∈ log ∨ (∃ blockId, .vote (.notarizeFallback slot blockId) ∈ log) ∨
    .vote (.skipFallback slot) ∈ log

/-- The rules of voting: what may follow a log. -/
def Allows (log : List (Entry Hash)) : Entry Hash → Prop
  | .notarized _ => True
  | .vote (.notarize slot _) => ¬ Voted log slot
  | .vote (.skip slot) =>
      (∀ blockId, .vote (.notarize slot blockId) ∉ log) ∧ .vote (.finalize slot) ∉ log
  | .vote (.finalize slot) =>
      (∃ blockId, .vote (.notarize slot blockId) ∈ log ∧ .notarized (slot, blockId) ∈ log) ∧
        ¬ Skipped log slot
  | .vote (.notarizeFallback slot _) | .vote (.skipFallback slot) =>
      Voted log slot ∧ .vote (.finalize slot) ∉ log

/-- Every entry is allowed by those before it. -/
def Safe (log : List (Entry Hash)) : Prop :=
  ∀ before entry after, log = before ++ entry :: after → Allows before entry

theorem safe_nil : Safe ([] : List (Entry Hash)) := by
  intro before entry after h
  cases before with
  | nil => cases h
  | cons e before => cases h

theorem Safe.snoc (h : Safe log) (hentry : Allows log entry) : Safe (log ++ [entry]) := by
  intro before e after heq
  rcases eq_nil_or_concat after with rfl | ⟨after', e', rfl⟩
  · obtain ⟨rfl, hlast⟩ := append_inj' heq rfl
    cases hlast
    exact hentry
  · apply h before e after'
    rw [concat_eq_append, ← cons_append, ← append_assoc] at heq
    exact (append_inj' heq rfl).1

/-- A slot with a `Finalize` vote has a `Notarize` vote. -/
theorem Safe.notarize_of_finalize (h : Safe log) (hfinal : .vote (.finalize slot) ∈ log) :
    ∃ blockId, .vote (.notarize slot blockId) ∈ log := by
  obtain ⟨before, after, heq⟩ := append_of_mem hfinal
  obtain ⟨⟨blockId, hmem, -⟩, -⟩ := h before _ after heq
  refine ⟨blockId, ?_⟩
  rw [heq]
  exact mem_append_left _ hmem

/-! ## What a history means -/

/-- The history tells what the log has for the slots from its root on. -/
structure Faithful (h : VoteHistory Hash) (log : List (Entry Hash)) : Prop where
  voted : ∀ slot, h.root ≤ slot → (slot ∈ h.votedSlots ↔ Voted log slot)
  votedNotar : ∀ slot blockId, h.root ≤ slot →
    (h.votedNotarBlocks slot = some blockId ↔ .vote (.notarize slot blockId) ∈ log)
  skipped : ∀ slot, h.root ≤ slot → (slot ∈ h.skippedSlots ↔ Skipped log slot)
  itsOver : ∀ slot, h.root ≤ slot → (slot ∈ h.itsOverSlots ↔ .vote (.finalize slot) ∈ log)
  notarized : ∀ block ∈ h.notarizedBlocks, .notarized block ∈ log

theorem faithful_new (root : ℕ) : Faithful (new root : VoteHistory Hash) [] := by
  constructor
  all_goals simp [new, Voted, Skipped]

variable {h : VoteHistory Hash} {log' : List (Entry Hash)} {vote : Vote Hash}

theorem Faithful.setRoot (hf : Faithful h log) {root : ℕ}
    (hroot : h.root ≤ root) : Faithful (h.setRoot root) log := by
  constructor
  · intro slot (hslot : root ≤ slot)
    show slot ∈ h.votedSlots.filter _ ↔ _
    rw [Finset.mem_filter, hf.voted slot (hroot.trans hslot)]
    exact and_iff_left hslot
  · intro slot blockId (hslot : root ≤ slot)
    show (if root ≤ slot then _ else none) = _ ↔ _
    rw [if_pos hslot]
    exact hf.votedNotar slot blockId (hroot.trans hslot)
  · intro slot (hslot : root ≤ slot)
    show slot ∈ h.skippedSlots.filter _ ↔ _
    rw [Finset.mem_filter, hf.skipped slot (hroot.trans hslot)]
    exact and_iff_left hslot
  · intro slot (hslot : root ≤ slot)
    show slot ∈ h.itsOverSlots.filter _ ↔ _
    rw [Finset.mem_filter, hf.itsOver slot (hroot.trans hslot)]
    exact and_iff_left hslot
  · intro block hblock
    exact hf.notarized block (mem_filter.mp hblock).1

theorem voted_append : Voted (log ++ log') slot ↔ Voted log slot ∨ Voted log' slot := by
  simp only [Voted, mem_append, exists_or]
  tauto

theorem skipped_append : Skipped (log ++ log') slot ↔ Skipped log slot ∨ Skipped log' slot := by
  simp only [Skipped, mem_append, exists_or]
  tauto

/-- A history that gained what the entry says. -/
theorem Faithful.snoc {h h' : VoteHistory Hash} (hf : Faithful h log) (hroot : h'.root = h.root)
    (hvoted : ∀ slot, slot ∈ h'.votedSlots ↔ slot ∈ h.votedSlots ∨ Voted [entry] slot)
    (hnotar : ∀ slot blockId, h'.votedNotarBlocks slot = some blockId ↔
      h.votedNotarBlocks slot = some blockId ∨ .vote (.notarize slot blockId) ∈ [entry])
    (hskipped : ∀ slot, slot ∈ h'.skippedSlots ↔ slot ∈ h.skippedSlots ∨ Skipped [entry] slot)
    (hover : ∀ slot, slot ∈ h'.itsOverSlots ↔
      slot ∈ h.itsOverSlots ∨ .vote (.finalize slot) ∈ [entry])
    (hnotarized : ∀ block ∈ h'.notarizedBlocks,
      block ∈ h.notarizedBlocks ∨ .notarized block ∈ [entry]) : Faithful h' (log ++ [entry]) := by
  constructor
  · intro slot hslot
    rw [hroot] at hslot
    rw [hvoted, voted_append, hf.voted slot hslot]
  · intro slot blockId hslot
    rw [hroot] at hslot
    rw [hnotar, mem_append, hf.votedNotar slot blockId hslot]
  · intro slot hslot
    rw [hroot] at hslot
    rw [hskipped, skipped_append, hf.skipped slot hslot]
  · intro slot hslot
    rw [hroot] at hslot
    rw [hover, mem_append, hf.itsOver slot hslot]
  · intro block hblock
    rw [mem_append]
    exact (hnotarized block hblock).imp_left (hf.notarized block)

theorem guard_pos {p : Prop} [Decidable p] (hp : p) : (guard p : Option Unit) = some () := if_pos hp

section AddVote

theorem VoteHistory.query_eq {α : Type} {answer : α} (hroot : h.root ≤ slot) :
    h.query slot answer = some answer :=
  if_pos hroot

/-- An assertion on a query that has the expected answer. -/
theorem VoteHistory.require_query {p : Prop} [Decidable p] {expected : Bool} (hroot : h.root ≤ slot)
    (hp : decide p = expected) :
    require (h.query slot (decide p)) expected = some () := by
  rw [query_eq hroot, hp]
  exact if_pos rfl

variable (hf : Faithful h log) (hroot : h.root ≤ slot)
include hf hroot

/-- The assertions of both fallback votes. -/
theorem Faithful.require_fallback (hvoted : Voted log slot) (hover : .vote (.finalize slot) ∉ log) :
    require (h.voted slot) true = some () ∧ require (h.itsOver slot) false = some () := by
  constructor
  · apply require_query hroot
    rw [decide_eq_true_iff, hf.voted slot hroot]
    exact hvoted
  · apply require_query hroot
    rw [decide_eq_false_iff_not, hf.itsOver slot hroot]
    exact hover

variable [DecidableEq Hash]

theorem Faithful.addVote_notarize (blockId : Hash) (hvoted : ¬ Voted log slot) :
    ∃ h', h.addVote (.notarize slot blockId) = some h' ∧ h'.root = h.root ∧
      Faithful h' (log ++ [.vote (.notarize slot blockId)]) := by
  have hmem : slot ∉ h.votedSlots := by
    rw [hf.voted slot hroot]
    exact hvoted
  have hnone : h.votedNotarBlocks slot = none := by
    apply Option.eq_none_iff_forall_ne_some.mpr
    intro b hb
    exact hvoted (Or.inl ⟨b, (hf.votedNotar slot b hroot).mp hb⟩)
  unfold addVote
  rw [guard_pos]
  · dsimp only
    rw [guard_pos hmem, guard_pos hnone]
    refine ⟨_, rfl, rfl, hf.snoc rfl ?_ ?_ ?_ ?_ ?_⟩
    · intro s
      simp [Voted, or_comm, eq_comm]
    · intro s b
      by_cases hs : s = slot
      · simp [hs, hnone, eq_comm]
      · simp [hs]
    · simp [Skipped]
    · simp
    · simp
  · exact hroot

theorem Faithful.addVote_finalize (hskipped : ¬ Skipped log slot) :
    ∃ h', h.addVote (.finalize slot) = some h' ∧ h'.root = h.root ∧
      Faithful h' (log ++ [.vote (.finalize slot)]) := by
  have hmem : decide (slot ∈ h.skippedSlots) = false := by
    rw [decide_eq_false_iff_not, hf.skipped slot hroot]
    exact hskipped
  unfold addVote
  rw [guard_pos]
  · dsimp only
    unfold VoteHistory.skipped
    rw [require_query hroot hmem]
    refine ⟨_, rfl, rfl, hf.snoc rfl ?_ ?_ ?_ ?_ ?_⟩
    · simp [Voted]
    · simp
    · simp [Skipped]
    · intro s
      simp [or_comm, eq_comm]
    · simp
  · exact hroot

theorem Faithful.addVote_skip :
    ∃ h', h.addVote (.skip slot) = some h' ∧ h'.root = h.root ∧
      Faithful h' (log ++ [.vote (.skip slot)]) := by
  unfold addVote
  rw [guard_pos]
  · refine ⟨_, rfl, rfl, hf.snoc rfl ?_ ?_ ?_ ?_ ?_⟩
    · intro s
      simp [Voted, or_comm, eq_comm]
    · simp
    · intro s
      simp [Skipped, or_comm, eq_comm]
    · simp
    · simp
  · exact hroot

theorem Faithful.addVote_fallback
    (hvote : (∃ blockId, vote = .notarizeFallback slot blockId) ∨ vote = .skipFallback slot)
    (hvoted : Voted log slot) (hover : .vote (.finalize slot) ∉ log) :
    ∃ h', h.addVote vote = some h' ∧ h'.root = h.root ∧ Faithful h' (log ++ [.vote vote]) := by
  obtain ⟨hrequire, hrequire'⟩ := hf.require_fallback hroot hvoted hover
  rcases hvote with ⟨blockId, rfl⟩ | rfl
  all_goals
    unfold addVote
    rw [guard_pos]
    · dsimp only
      rw [hrequire, hrequire']
      refine ⟨_, rfl, rfl, hf.snoc rfl ?_ ?_ ?_ ?_ ?_⟩
      · simp [Voted]
      · simp
      · intro s
        simp [Skipped, or_comm, eq_comm]
      · simp
      · simp
    · exact hroot

end AddVote

/-- A vote that the log allows passes the assertions of `add_vote`. -/
theorem Faithful.addVote [DecidableEq Hash] (hf : Faithful h log)
    (hroot : h.root ≤ vote.slot) (hallows : Allows log (.vote vote)) :
    ∃ h', h.addVote vote = some h' ∧ h'.root = h.root ∧ Faithful h' (log ++ [.vote vote]) := by
  cases vote with
  | notarize slot blockId => exact hf.addVote_notarize hroot blockId hallows
  | finalize slot => exact hf.addVote_finalize hroot hallows.2
  | skip slot => exact hf.addVote_skip hroot
  | notarizeFallback slot blockId =>
    exact hf.addVote_fallback hroot (Or.inl ⟨blockId, rfl⟩) hallows.1 hallows.2
  | skipFallback slot => exact hf.addVote_fallback hroot (Or.inr rfl) hallows.1 hallows.2

theorem VoteHistory.root_addBlockNotarized [DecidableEq Hash] (h : VoteHistory Hash)
    (block : Block Hash) : (h.addBlockNotarized block).root = h.root := by
  unfold addBlockNotarized
  split_ifs
  · rfl
  · rfl

/-- A certificate for a slot from the root on. -/
theorem Faithful.addBlockNotarized [DecidableEq Hash] (hf : Faithful h log)
    (block : Block Hash) : Faithful (h.addBlockNotarized block) (log ++ [.notarized block]) := by
  unfold VoteHistory.addBlockNotarized
  split_ifs
  · apply hf.snoc
    case hnotarized => exact fun _ hblock => Or.inl hblock
    all_goals simp [Voted, Skipped]
  · apply hf.snoc
    case hnotarized =>
      intro b hb
      rcases mem_insert.mp hb with rfl | hb
      · exact Or.inr mem_cons_self
      · exact Or.inl hb
    all_goals simp [Voted, Skipped]

end Salsa.Votor
