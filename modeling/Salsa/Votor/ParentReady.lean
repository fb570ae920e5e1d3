import Mathlib
import Salsa.Lib.OrdMap
import Salsa.Votor.Handler

/-!
# Salsa.Votor.ParentReady — the parents a leader may build on

`parent_ready_tracker.rs`: certificates arrive in any order, and each one extends the lists
of ready parents of the slots after it. `Recorded` is what the certificates say, `Ready` the
condition of the module documentation: the block is notarized or notarized-fallback, and the
slots between it and the slot are skip-certified. The lists are exact (`Tracks`), and so are
the events, but for the root block in the first slot, which is a ready parent from the start.
-/

namespace Salsa.Votor

open List OrdMap

open LeaderWindow (numConsecutiveLeaderSlots)

/-! ## The tracker -/

def maxEntriesPerPubkeyForNotarizeLite : ℕ := 3

structure ParentReadyStatus (Hash : Type) where
  skip : Bool := false
  notarFallbacks : List (Block Hash) := []
  parentsReady : List (Block Hash) := []

structure ParentReadyTracker (Hash : Type) where
  slotStatuses : OrdMap ℕ (ParentReadyStatus Hash)
  root : ℕ
  highestWithParentReady : ℕ

inductive BlockProductionParent (Hash : Type) where
  | missedWindow
  | parentNotReady
  | parent (block : Block Hash)

variable {Hash : Type}

namespace ParentReadyTracker

def new (rootBlock : Block Hash) : ParentReadyTracker Hash where
  slotStatuses := (empty.insert rootBlock.1 { notarFallbacks := [rootBlock] }).insert
    (rootBlock.1 + 1) { parentsReady := [rootBlock] }
  root := rootBlock.1
  highestWithParentReady := rootBlock.1 + 1

variable (t : ParentReadyTracker Hash)

/-- `slot_statuses.entry(slot).or_default()`. -/
def status (slot : ℕ) : ParentReadyStatus Hash :=
  (t.slotStatuses.get slot).getD {}

def setStatus (slot : ℕ) (status : ParentReadyStatus Hash) : ParentReadyTracker Hash :=
  { t with slotStatuses := t.slotStatuses.insert slot status }

def setRoot (root : ℕ) : ParentReadyTracker Hash :=
  { t with root := root, slotStatuses := t.slotStatuses.filter fun slot _ => root ≤ slot }

def blockProductionParent [LinearOrder Hash] (t : ParentReadyTracker Hash) (slot : ℕ) :
    BlockProductionParent Hash :=
  if slot < t.highestWithParentReady then .missedWindow
  else
    match ((t.slotStatuses.get slot).bind fun status =>
      status.parentsReady.argmin (toLex : Block Hash → ℕ ×ₗ Hash)) with
    | some parent => .parent parent
    | none => .parentNotReady

/-- Blocks are compared by slot and hash. -/
instance lawfulBEqBlock [DecidableEq Hash] : LawfulBEq (Block Hash) := Prod.instLawfulBEq

variable [LeaderWindow] [DecidableEq Hash]

/-- A parent becomes ready in a slot, with an event in the first slot of a leader window. -/
def pushParent (events : List (ℕ × Block Hash)) (slot : ℕ)
    (block : Block Hash) : ParentReadyTracker Hash × List (ℕ × Block Hash) :=
  let status := t.status slot
  if block ∈ status.parentsReady then (t.setStatus slot status, events)
  else
    (t.setStatus slot { status with parentsReady := status.parentsReady ++ [block] },
      if slot % numConsecutiveLeaderSlots = 0 then events ++ [(slot, block)] else events)

/-- The loop of `add_new_notar_fallback_or_stronger` over the slots that the block is connected
to by skips. The fuel bounds the number of slots. -/
def addToConnected (block : Block Hash) : ℕ → ℕ → ParentReadyTracker Hash →
    List (ℕ × Block Hash) → Option (ParentReadyTracker Hash × List (ℕ × Block Hash))
  | 0, _, _, _ => none
  | n + 1, slot, t, events =>
      let status := t.status slot
      let highest := if block ∈ status.parentsReady then t.highestWithParentReady
        else max slot t.highestWithParentReady
      let (t, events) := t.pushParent events slot block
      let t := { t with highestWithParentReady := highest }
      if status.skip then addToConnected block n (slot + 1) t events else some (t, events)

/-- `add_new_notar_fallback_or_stronger`; `none` if the assertion on the number of blocks of a
slot fails. -/
def addNewNotarFallbackOrStronger (events : List (ℕ × Block Hash))
    (block : Block Hash) : Option (ParentReadyTracker Hash × List (ℕ × Block Hash)) :=
  let slot := block.1
  if slot ≤ t.root then some (t, events)
  else
    let status := t.status slot
    if block ∈ status.notarFallbacks then some (t.setStatus slot status, events)
    else
      let status := { status with notarFallbacks := status.notarFallbacks ++ [block] }
      if status.notarFallbacks.length ≤ maxEntriesPerPubkeyForNotarizeLite then
        let t := t.setStatus slot status
        addToConnected block (t.slotStatuses.keys.length + 1) (slot + 1) t events
      else none

/-- The slots from `slot` to the next one that is not skipped. -/
def futureSlots : ℕ → ℕ → Option (List ℕ)
  | 0, _ => none
  | n + 1, slot =>
      if (t.status slot).skip then (futureSlots n (slot + 1)).map (slot :: ·) else some [slot]

/-- What the slot before a skipped one offers as parents. -/
def potentialParents (status : ParentReadyStatus Hash) : List (Block Hash) :=
  status.notarFallbacks ++ if status.skip then status.parentsReady else []

/-- Parents become ready in one slot. -/
def addParents (parents : List (Block Hash))
    (state : ParentReadyTracker Hash × List (ℕ × Block Hash)) (slot : ℕ) :
    ParentReadyTracker Hash × List (ℕ × Block Hash) :=
  let (t, events) := parents.foldl
    (fun (t, events) block => t.pushParent events slot block) (state.1, state.2)
  ({ t with highestWithParentReady := max slot t.highestWithParentReady }, events)

def addNewSkip (events : List (ℕ × Block Hash)) (slot : ℕ) :
    Option (ParentReadyTracker Hash × List (ℕ × Block Hash)) :=
  if slot ≤ t.root then some (t, events)
  else do
    let t := t.setStatus slot { t.status slot with skip := true }
    let future ← t.futureSlots (t.slotStatuses.keys.length + 1) (slot + 1)
    match t.slotStatuses.get (slot - 1) with
    | none => some (t, events)
    | some status =>
        let parents := potentialParents status
        if parents = [] then some (t, events)
        else some (future.foldl (addParents parents) (t, events))

end ParentReadyTracker

/-! ## Certificates -/

inductive TrackerOp (Hash : Type) where
  | notarFallbackOrStronger (block : Block Hash)
  | skip (slot : ℕ)
  | setRoot (root : ℕ)

/-- The certificates that were above the root when they came. -/
structure Recorded (Hash : Type) where
  root : ℕ
  blocks : Finset (Block Hash)
  skips : Finset ℕ

namespace Recorded

variable [DecidableEq Hash]

def new (rootBlock : Block Hash) : Recorded Hash := ⟨rootBlock.1, {rootBlock}, ∅⟩

def add (r : Recorded Hash) : TrackerOp Hash → Recorded Hash
  | .notarFallbackOrStronger block =>
      if r.root < block.1 then { r with blocks := insert block r.blocks } else r
  | .skip slot => if r.root < slot then { r with skips := insert slot r.skips } else r
  | .setRoot root => { r with root := root }

/-- Block `b` is recorded, and so are skips for all slots between it and `slot`. -/
def Ready (r : Recorded Hash) (b : Block Hash) (slot : ℕ) : Prop :=
  b ∈ r.blocks ∧ b.1 < slot ∧ ∀ x, b.1 < x → x < slot → x ∈ r.skips

/-- At most three blocks are recorded for a slot, and roots do not go back. -/
def Allows (r : Recorded Hash) : TrackerOp Hash → Prop
  | .notarFallbackOrStronger block =>
      ((r.add (.notarFallbackOrStronger block)).blocks.filter fun b => b.1 = block.1).card ≤ 3
  | .skip _ => True
  | .setRoot root => r.root ≤ root

def AllowsAll (r : Recorded Hash) : List (TrackerOp Hash) → Prop
  | [] => True
  | op :: ops => r.Allows op ∧ (r.add op).AllowsAll ops

open Finset

/-- Without a new root the recorded certificates do not depend on the order. -/
theorem foldl_add_perm {ops ops' : List (TrackerOp Hash)} (hperm : ops.Perm ops')
    (hroot : ∀ root, .setRoot root ∉ ops) (r : Recorded Hash) :
    ops'.foldl add r = ops.foldl add r := by
  refine (hperm.foldl_eq' ?_ r).symm
  intro x hx y hy z
  cases x with
  | setRoot root => exact (hroot root hx).elim
  | notarFallbackOrStronger b =>
    cases y with
    | setRoot root => exact (hroot root hy).elim
    | notarFallbackOrStronger c =>
      simp only [add]
      split_ifs <;> first | rfl | simp [insert_comm]
    | skip slot =>
      simp only [add]
      split_ifs <;> rfl
  | skip slot =>
    cases y with
    | setRoot root => exact (hroot root hy).elim
    | notarFallbackOrStronger c =>
      simp only [add]
      split_ifs <;> rfl
    | skip slot' =>
      simp only [add]
      split_ifs <;> first | rfl | simp [insert_comm]

end Recorded

open Recorded

namespace ParentReadyTracker

variable [LeaderWindow] [DecidableEq Hash]

/-- One operation, with the events so far. -/
def exec (state : ParentReadyTracker Hash × List (ℕ × Block Hash)) :
    TrackerOp Hash → Option (ParentReadyTracker Hash × List (ℕ × Block Hash))
  | .notarFallbackOrStronger block => state.1.addNewNotarFallbackOrStronger state.2 block
  | .skip slot => state.1.addNewSkip state.2 slot
  | .setRoot root => some (state.1.setRoot root, state.2)

end ParentReadyTracker

/-! ## Exactness -/

section Exact

open ParentReadyTracker

variable {init b : Block Hash} {t t' : ParentReadyTracker Hash} {events : List (ℕ × Block Hash)}
  {r : Recorded Hash} {P Q : ℕ → Block Hash → Prop} {s slot gap n : ℕ}

theorem status_setStatus (status : ParentReadyStatus Hash) :
    (t.setStatus slot status).status s = if s = slot then status else t.status s := by
  rw [ParentReadyTracker.status, setStatus, get_insert]
  split_ifs <;> rfl

theorem setStatus_self (s : ℕ) : (t.setStatus slot (t.status slot)).status s = t.status s := by
  rw [status_setStatus]
  split_ifs with h
  · rw [h]
  · rfl

/-- The first slot from `s` on that is not skipped is no further than the statuses are many. -/
theorem exists_gap (t : ParentReadyTracker Hash) (s : ℕ) :
    ∃ gap ≥ s, gap ≤ s + t.slotStatuses.keys.length ∧
      (∀ x ≥ s, x < gap → (t.status x).skip = true) ∧ (t.status gap).skip = false := by
  have hkey : ∀ x, (t.status x).skip = true → x ∈ t.slotStatuses.keys := by
    intro x hx
    rw [OrdMap.mem_keys]
    cases hget : t.slotStatuses.get x with
    | none =>
      rw [status, hget] at hx
      cases hx
    | some _ => rfl
  have hgap : ∃ gap, s ≤ gap ∧ gap ≤ s + t.slotStatuses.keys.length ∧
      (t.status gap).skip = false := by
    by_contra hno
    push Not at hno
    have hsub : (range' s (t.slotStatuses.keys.length + 1)) ⊆ t.slotStatuses.keys := by
      intro x hx
      rw [mem_range'_1] at hx
      exact hkey _ (Bool.not_eq_false _ ▸ hno x hx.1 (by omega))
    have hle := (nodup_range').subperm hsub |>.length_le
    rw [length_range'] at hle
    omega
  obtain ⟨hs, hle, hskip⟩ := Nat.find_spec hgap
  refine ⟨Nat.find hgap, hs, hle, fun x h1 h2 => ?_, hskip⟩
  rw [← Bool.not_eq_false]
  exact fun hfalse => Nat.find_min hgap h2 ⟨h1, by omega, hfalse⟩

theorem futureSlots_spec (hs : s ≤ gap) (hskip : ∀ x ≥ s, x < gap → (t.status x).skip = true)
    (hgap : (t.status gap).skip = false) (hn : gap < s + n) :
    ∃ slots, t.futureSlots n s = some slots ∧ ∀ x, x ∈ slots ↔ s ≤ x ∧ x ≤ gap := by
  induction n generalizing s with
  | zero => omega
  | succ n ih =>
    rw [futureSlots]
    rcases Nat.eq_or_lt_of_le hs with rfl | hlt
    · rw [if_neg (Bool.eq_false_iff.mp hgap)]
      refine ⟨[s], rfl, fun x => ?_⟩
      rw [mem_singleton]
      omega
    · obtain ⟨slots, hslots, hmem⟩ := ih hlt (fun x hx => hskip x (by omega)) (by omega)
      rw [if_pos (hskip s le_rfl hlt), hslots]
      refine ⟨s :: slots, rfl, fun x => ?_⟩
      rw [mem_cons, hmem]
      omega

theorem Recorded.ready_mono {r' : Recorded Hash} (hblocks : r.blocks ⊆ r'.blocks)
    (hskips : r.skips ⊆ r'.skips) (h : r.Ready b s) : r'.Ready b s :=
  ⟨hblocks h.1, h.2.1, fun x h1 h2 => hskips (h.2.2 x h1 h2)⟩

/-- What a skip makes ready: what was ready at the slot, in the slots up to the gap. -/
theorem Recorded.ready_skip {x : ℕ}
    (hskip : ∀ x ≥ slot + 1, x < gap → x ∈ insert slot r.skips) (hs : slot + 1 ≤ gap)
    (hgap : gap ∉ insert slot r.skips) :
    ({ r with skips := insert slot r.skips } : Recorded Hash).Ready b x ↔
      r.Ready b x ∨ ((slot + 1 ≤ x ∧ x ≤ gap) ∧ r.Ready b slot) := by
  constructor
  · rintro ⟨hb, hlt, hbetween⟩
    by_cases hover : b.1 < slot ∧ slot < x
    · have hold : ∀ y, b.1 < y → y < slot → y ∈ r.skips := fun y h1 h2 =>
        (Finset.mem_insert.mp (hbetween y h1 (by omega))).resolve_left (by omega)
      refine Or.inr ⟨⟨hover.2, ?_⟩, hb, hover.1, hold⟩
      by_contra hfar
      exact hgap (hbetween _ (by omega) (by omega))
    · refine Or.inl ⟨hb, hlt, fun y h1 h2 => ?_⟩
      exact (Finset.mem_insert.mp (hbetween y h1 h2)).resolve_left (by omega)
  · rintro (hold | ⟨⟨h1, h2⟩, hb, hlt, hbetween⟩)
    · exact ready_mono (r := r) (Finset.Subset.refl _) (Finset.subset_insert slot r.skips) hold
    · refine ⟨hb, by omega, fun y hy1 hy2 => ?_⟩
      rcases Nat.lt_trichotomy y slot with hy | rfl | hy
      · exact Finset.mem_insert_of_mem (hbetween y hy1 hy)
      · exact Finset.mem_insert_self _ _
      · exact hskip y hy (by omega)

/-- A slot joins the slots with a ready parent. -/
theorem isGreatest_push {highest : ℕ} (h : IsGreatest {s | ∃ b, P s b} highest)
    (hQ : ∀ x, (∃ c, Q x c) ↔ x = slot ∨ ∃ c, P x c) :
    IsGreatest {s | ∃ b, Q s b} (max slot highest) := by
  have heq : {s | ∃ b, Q s b} = insert slot {s | ∃ b, P s b} := by
    ext x
    exact hQ x
  rw [heq]
  exact h.insert slot

/-- The status of a slot from the root on is that of the recorded certificates, and the ready
parents are those of `P`. -/
structure Shows (r : Recorded Hash) (P : ℕ → Block Hash → Prop) (s : ℕ)
    (status : ParentReadyStatus Hash) : Prop where
  skip : r.root ≤ s → (status.skip = true ↔ s ∈ r.skips)
  notar : r.root ≤ s → ∀ b, b ∈ status.notarFallbacks ↔ b ∈ r.blocks ∧ b.1 = s
  notar_nodup : status.notarFallbacks.Nodup
  ready : r.root ≤ s → ∀ b, b ∈ status.parentsReady ↔ P s b
  ready_nodup : status.parentsReady.Nodup

theorem shows_setStatus {status : ParentReadyStatus Hash}
    (hother : ∀ x, x ≠ slot → Shows r P x (t.status x)) (hslot : Shows r P slot status) (x : ℕ) :
    Shows r P x ((t.setStatus slot status).status x) := by
  rw [status_setStatus]
  split_ifs with hx
  · exact hx ▸ hslot
  · exact hother x hx

variable [LeaderWindow]

/-- The statuses are those of the recorded certificates, the lists of ready parents are `P`, and
so are the events, but for the root block in the first slot. -/
structure Lists (init : Block Hash) (t : ParentReadyTracker Hash) (events : List (ℕ × Block Hash))
    (r : Recorded Hash) (P : ℕ → Block Hash → Prop) : Prop where
  root : t.root = r.root
  shows : ∀ s, Shows r P s (t.status s)
  events_nodup : events.Nodup
  events_mem : ∀ s b, (s, b) ∈ events ↔
    s % numConsecutiveLeaderSlots = 0 ∧ P s b ∧ ¬ (s = init.1 + 1 ∧ b = init)
  start : P (init.1 + 1) init

/-- The tracker also knows the highest slot with a ready parent. -/
structure Tracks (init : Block Hash) (t : ParentReadyTracker Hash) (events : List (ℕ × Block Hash))
    (r : Recorded Hash) (P : ℕ → Block Hash → Prop) : Prop extends Lists init t events r P where
  highest : IsGreatest {s | ∃ b, P s b} t.highestWithParentReady

theorem Tracks.congr (h : Tracks init t events r P) (hPQ : ∀ s b, P s b ↔ Q s b) :
    Tracks init t events r Q := by
  have heq : P = Q := by
    funext s b
    exact propext (hPQ s b)
  exact heq ▸ h

section

variable (h : Lists init t events r P)
include h

/-- Only the root and the statuses matter. -/
theorem Lists.of_status (u : ParentReadyTracker Hash) (hroot : u.root = t.root)
    (hstatus : ∀ s, u.status s = t.status s) : Lists init u events r P :=
  { h with root := hroot.trans h.root, shows := fun s => hstatus s ▸ h.shows s }

theorem Lists.congr (hPQ : ∀ s b, P s b ↔ Q s b) : Lists init t events r Q := by
  have heq : P = Q := by
    funext s b
    exact propext (hPQ s b)
  exact heq ▸ h

/-- The gap after a slot, in terms of the recorded skips. -/
theorem Lists.exists_gap (hs : r.root ≤ s) :
    ∃ gap ≥ s, gap < s + (t.slotStatuses.keys.length + 1) ∧ (∀ x ≥ s, x < gap → x ∈ r.skips) ∧
      gap ∉ r.skips := by
  obtain ⟨gap, hge, hle, hskip, hgap⟩ := Votor.exists_gap t s
  refine ⟨gap, hge, by omega, fun x h1 h2 => ?_, fun hmem => ?_⟩
  · exact ((h.shows x).skip (hs.trans h1)).mp (hskip x h1 h2)
  · rw [((h.shows gap).skip (hs.trans hge)).mpr hmem] at hgap
    cases hgap

/-- The slot is skipped. -/
theorem Lists.recordSkip (slot : ℕ) :
    Lists init (t.setStatus slot { t.status slot with skip := true }) events
      { r with skips := insert slot r.skips } P := by
  refine { h with shows := shows_setStatus (fun x hx => ?_) ?_ }
  · refine { h.shows x with skip := fun hroot => ((h.shows x).skip hroot).trans ?_ }
    exact (Finset.mem_insert.trans (or_iff_right hx)).symm
  · exact { h.shows slot with skip := fun _ => iff_of_true rfl (Finset.mem_insert_self _ _) }

end

/-- The slot before offers the ready parents of a slot. -/
theorem Lists.mem_potentialParents (h : Lists init t events r fun s b => r.Ready b s)
    (hroot : r.root ≤ slot) : b ∈ potentialParents (t.status slot) ↔ r.Ready b (slot + 1) := by
  have hparents : b ∈ (if (t.status slot).skip = true then (t.status slot).parentsReady else []) ↔
      slot ∈ r.skips ∧ r.Ready b slot := by
    rw [← (h.shows slot).skip hroot, ← (h.shows slot).ready hroot]
    split_ifs with hsk
    · exact (and_iff_right hsk).symm
    · exact ⟨nofun, fun hc => (hsk hc.1).elim⟩
  rw [potentialParents, mem_append, (h.shows slot).notar hroot, hparents]
  constructor
  · rintro (⟨hb, hslot⟩ | ⟨hsk, hb, hlt, hbetween⟩)
    · exact ⟨hb, by omega, fun x h1 h2 => by omega⟩
    · refine ⟨hb, by omega, fun x h1 h2 => ?_⟩
      rcases Nat.lt_succ_iff_lt_or_eq.mp h2 with hx | rfl
      · exact hbetween x h1 hx
      · exact hsk
  · rintro ⟨hb, hlt, hbetween⟩
    rcases Nat.lt_succ_iff_lt_or_eq.mp hlt with hx | heq
    · exact Or.inr ⟨hbetween slot hx (by omega), hb, hx, fun x h1 h2 => hbetween x h1 (by omega)⟩
    · exact Or.inl ⟨hb, heq⟩

theorem Tracks.setRoot_op (h : Tracks init t events r P) {root : ℕ} (hroot : r.root ≤ root) :
    Tracks init (t.setRoot root) events { r with root := root } P := by
  refine { h with root := rfl, shows := fun x => ?_ }
  unfold ParentReadyTracker.status ParentReadyTracker.setRoot
  by_cases hx : root ≤ x
  · have hshows := h.shows x
    rw [get_filter_of_pos (p := fun slot _ => decide (root ≤ slot)) fun _ => decide_eq_true hx]
    exact { hshows with
      skip := fun hx => hshows.skip (hroot.trans hx)
      notar := fun hx => hshows.notar (hroot.trans hx)
      ready := fun hx => hshows.ready (hroot.trans hx) }
  · rw [get_filter_of_neg (p := fun slot _ => decide (root ≤ slot)) fun _ => by simpa using hx]
    exact ⟨fun h => absurd h hx, fun h => absurd h hx, nodup_nil, fun h => absurd h hx, nodup_nil⟩

variable [DecidableEq Hash]

section

variable (h : Lists init t events r P)
include h

/-- One more ready parent. -/
theorem Lists.pushParent (hs : r.root ≤ slot) (b : Block Hash) :
    Lists init (t.pushParent events slot b).1 (t.pushParent events slot b).2 r
      fun x c => P x c ∨ (x = slot ∧ c = b) := by
  unfold ParentReadyTracker.pushParent
  by_cases hmem : b ∈ (t.status slot).parentsReady
  · rw [if_pos hmem]
    refine (h.of_status (t.setStatus slot (t.status slot)) rfl setStatus_self).congr ?_
    intro x c
    refine (or_iff_left_of_imp ?_).symm
    rintro ⟨rfl, rfl⟩
    exact ((h.shows x).ready hs c).mp hmem
  rw [if_neg hmem]
  have hnew : ¬ P slot b := fun hP => hmem (((h.shows slot).ready hs b).mpr hP)
  have hfresh : (slot, b) ∉ events := fun hin => hnew ((h.events_mem slot b).mp hin).2.1
  have hinit : ¬ (slot = init.1 + 1 ∧ b = init) := by
    rintro ⟨rfl, rfl⟩
    exact hnew h.start
  refine ⟨h.root, shows_setStatus (fun x hx => ?_) ?_, ?_, ?_, Or.inl h.start⟩
  · refine { h.shows x with ready := fun hroot c => ((h.shows x).ready hroot c).trans ?_ }
    exact (or_iff_left fun hc => hx hc.1).symm
  · refine { h.shows slot with ready := fun _ c => ?_, ready_nodup := ?_ }
    · rw [mem_append, mem_singleton, (h.shows slot).ready hs]
      exact or_congr_right (and_iff_right rfl).symm
    · exact List.Nodup.append (h.shows slot).ready_nodup (nodup_singleton b)
        (disjoint_singleton.mpr hmem)
  · split_ifs
    · exact List.Nodup.append h.events_nodup (nodup_singleton _) (disjoint_singleton.mpr hfresh)
    · exact h.events_nodup
  · intro x c
    split_ifs with hfirst
    · rw [mem_append, mem_singleton, h.events_mem]
      constructor
      · rintro (⟨h1, h2, h3⟩ | heq)
        · exact ⟨h1, Or.inl h2, h3⟩
        · cases heq
          exact ⟨hfirst, Or.inr ⟨rfl, rfl⟩, hinit⟩
      · rintro ⟨h1, h2 | ⟨rfl, rfl⟩, h3⟩
        · exact Or.inl ⟨h1, h2, h3⟩
        · exact Or.inr rfl
    · rw [h.events_mem]
      constructor
      · rintro ⟨h1, h2, h3⟩
        exact ⟨h1, Or.inl h2, h3⟩
      · rintro ⟨h1, h2 | ⟨rfl, rfl⟩, h3⟩
        · exact ⟨h1, h2, h3⟩
        · exact (hfirst h1).elim

end

section

variable (h : Tracks init t events r P)
include h

/-- A round of the loop over the slots that a block is connected to. -/
theorem Tracks.connect (hs : r.root ≤ s) (b : Block Hash) :
    Tracks init { (t.pushParent events s b).1 with
      highestWithParentReady := if b ∈ (t.status s).parentsReady then t.highestWithParentReady
        else max s t.highestWithParentReady } (t.pushParent events s b).2 r
      fun x c => P x c ∨ (x = s ∧ c = b) := by
  refine ⟨(h.toLists.pushParent hs b).of_status _ rfl fun _ => rfl, ?_⟩
  have hpush : IsGreatest {x | ∃ c, P x c ∨ (x = s ∧ c = b)} (max s t.highestWithParentReady) := by
    apply isGreatest_push h.highest
    intro x
    rw [exists_or, or_comm]
    simp
  split_ifs with hmem
  · -- the slot has the block already, and is no higher
    have hle := h.highest.2 ⟨b, ((h.shows s).ready hs b).mp hmem⟩
    rwa [max_eq_right hle] at hpush
  · exact hpush

/-- The block becomes a ready parent up to the first slot that is not skipped. -/
theorem Tracks.addToConnected (hroot : r.root ≤ s) (hs : s ≤ gap)
    (hskip : ∀ x ≥ s, x < gap → x ∈ r.skips) (hgap : gap ∉ r.skips) (hn : gap < s + n) :
    ∃ t' events', addToConnected b n s t events = some (t', events') ∧
      Tracks init t' events' r fun x c => P x c ∨ (c = b ∧ s ≤ x ∧ x ≤ gap) := by
  induction n generalizing s t events P with
  | zero => omega
  | succ n ih =>
    have hone := h.connect hroot b
    rcases Nat.eq_or_lt_of_le hs with rfl | hlt
    · have hstop : ¬ (t.status s).skip = true := fun hsk => hgap (((h.shows s).skip hroot).mp hsk)
      refine ⟨_, _, if_neg hstop, hone.congr fun x c => or_congr_right ?_⟩
      rw [and_comm, ← le_antisymm_iff, eq_comm (a := s)]
    · have hgo : (t.status s).skip = true := ((h.shows s).skip hroot).mpr (hskip s le_rfl hlt)
      obtain ⟨t', events', hrun, htracks⟩ := ih hone (hroot.trans (Nat.le_succ s)) hlt
        (fun x hx => hskip x (by omega)) (by omega)
      refine ⟨t', events', (if_pos hgo).trans hrun, htracks.congr fun x c => ?_⟩
      rw [or_assoc]
      refine or_congr_right ⟨?_, ?_⟩
      · rintro (⟨rfl, rfl⟩ | ⟨rfl, h1, h2⟩)
        · exact ⟨rfl, le_rfl, hs⟩
        · exact ⟨rfl, by omega, h2⟩
      · rintro ⟨rfl, h1, h2⟩
        rcases Nat.eq_or_lt_of_le h1 with heq | hlt
        · exact Or.inl ⟨heq.symm, rfl⟩
        · exact Or.inr ⟨rfl, hlt, h2⟩

/-- All of `parents` become ready in `slot`. -/
theorem Tracks.addParents (hs : r.root ≤ slot) {parents : List (Block Hash)} (hne : parents ≠ []) :
    Tracks init (addParents parents (t, events) slot).1 (addParents parents (t, events) slot).2 r
      fun x c => P x c ∨ (x = slot ∧ c ∈ parents) := by
  have hfold : ∀ (parents : List (Block Hash)) (t : ParentReadyTracker Hash) events P,
      Lists init t events r P →
      Lists init (parents.foldl (fun (t, events) block => t.pushParent events slot block)
          (t, events)).1
        (parents.foldl (fun (t, events) block => t.pushParent events slot block) (t, events)).2 r
        (fun x c => P x c ∨ (x = slot ∧ c ∈ parents)) ∧
      (parents.foldl (fun (t, events) block => t.pushParent events slot block)
        (t, events)).1.highestWithParentReady = t.highestWithParentReady := by
    intro parents
    induction parents with
    | nil =>
      intro t events P h
      exact ⟨h.congr fun x c => (or_iff_left fun hc => not_mem_nil hc.2).symm, rfl⟩
    | cons b parents ih =>
      intro t events P h
      obtain ⟨hlists, hhighest⟩ := ih _ _ _ (h.pushParent hs b)
      refine ⟨hlists.congr fun x c => ?_, hhighest.trans ?_⟩
      · rw [or_assoc, ← and_or_left, mem_cons]
      · unfold ParentReadyTracker.pushParent
        dsimp only
        split_ifs <;> rfl
  obtain ⟨hlists, hhighest⟩ := hfold parents t events P h.toLists
  refine ⟨hlists.of_status _ rfl fun _ => rfl, ?_⟩
  show IsGreatest _ (max slot _)
  rw [hhighest]
  apply isGreatest_push h.highest
  obtain ⟨b, hb⟩ := exists_mem_of_ne_nil parents hne
  intro x
  constructor
  · rintro ⟨c, hc | hc⟩
    · exact Or.inr ⟨c, hc⟩
    · exact Or.inl hc.1
  · rintro (rfl | ⟨c, hc⟩)
    · exact ⟨b, Or.inr ⟨rfl, hb⟩⟩
    · exact ⟨c, Or.inl hc⟩

theorem Tracks.foldl_addParents {parents : List (Block Hash)} (hne : parents ≠ []) {slots : List ℕ}
    (hs : ∀ s ∈ slots, r.root ≤ s) :
    Tracks init (slots.foldl (ParentReadyTracker.addParents parents) (t, events)).1
      (slots.foldl (ParentReadyTracker.addParents parents) (t, events)).2 r
      fun x c => P x c ∨ (x ∈ slots ∧ c ∈ parents) := by
  induction slots generalizing t events P with
  | nil => exact h.congr fun x c => (or_iff_left fun hc => not_mem_nil hc.1).symm
  | cons s slots ih =>
    have hone := h.addParents (hs s mem_cons_self) hne
    refine (ih hone fun x hx => hs x (mem_cons_of_mem s hx)).congr fun x c => ?_
    rw [or_assoc, ← or_and_right, mem_cons]

end

/-! ## The operations -/

section

variable (h : Lists init t events r P)
include h

/-- The new block goes into the status of its slot. -/
theorem Lists.recordBlock (hroot : r.root < b.1) (hb : b ∉ (t.status b.1).notarFallbacks) :
    Lists init (t.setStatus b.1 { t.status b.1 with
      notarFallbacks := (t.status b.1).notarFallbacks ++ [b] }) events
      { r with blocks := insert b r.blocks } P := by
  refine { h with shows := shows_setStatus (fun x hx => ?_) ?_ }
  · refine { h.shows x with notar := fun hroot c => ((h.shows x).notar hroot c).trans ?_ }
    refine and_congr_left fun hc => (Finset.mem_insert.trans (or_iff_right ?_)).symm
    rintro rfl
    exact hx hc.symm
  · refine { h.shows b.1 with notar := fun _ c => ?_, notar_nodup := ?_ }
    · rw [mem_append, mem_singleton, (h.shows b.1).notar hroot.le, Finset.mem_insert]
      constructor
      · rintro (⟨hc, hslot⟩ | rfl)
        · exact ⟨Or.inr hc, hslot⟩
        · exact ⟨Or.inl rfl, rfl⟩
      · rintro ⟨hc | hc, hslot⟩
        · exact Or.inr hc
        · exact Or.inl ⟨hc, hslot⟩
    · exact List.Nodup.append (h.shows b.1).notar_nodup (nodup_singleton b)
        (disjoint_singleton.mpr hb)

/-- The blocks of a slot are as many as its list is long. -/
theorem Lists.length_notarFallbacks (hs : r.root ≤ s) :
    (t.status s).notarFallbacks.length = (r.blocks.filter fun b => b.1 = s).card := by
  rw [← toFinset_card_of_nodup (h.shows s).notar_nodup]
  congr 1
  ext b
  rw [mem_toFinset, (h.shows s).notar hs, Finset.mem_filter]

end

/-- The block becomes a parent up to the first slot that is not skipped. -/
theorem Tracks.notar_op (h : Tracks init t events r fun s b => r.Ready b s)
    (hallows : r.Allows (.notarFallbackOrStronger b)) :
    ∃ t' events', t.addNewNotarFallbackOrStronger events b = some (t', events') ∧
      Tracks init t' events' (r.add (.notarFallbackOrStronger b))
        fun s c => (r.add (.notarFallbackOrStronger b)).Ready c s := by
  unfold addNewNotarFallbackOrStronger
  rw [h.root]
  by_cases hroot : b.1 ≤ r.root
  · rw [if_pos hroot, add, if_neg (not_lt.mpr hroot)]
    exact ⟨t, events, rfl, h⟩
  rw [if_neg hroot]
  have hlt : r.root < b.1 := not_le.mp hroot
  have hadd : r.add (.notarFallbackOrStronger b) = { r with blocks := insert b r.blocks } := by
    rw [add, if_pos hlt]
  rw [hadd]
  by_cases hmem : b ∈ (t.status b.1).notarFallbacks
  · rw [if_pos hmem, Finset.insert_eq_of_mem (((h.shows b.1).notar hlt.le b).mp hmem).1]
    exact ⟨_, events, rfl, h.toLists.of_status (t.setStatus b.1 (t.status b.1)) rfl setStatus_self,
      h.highest⟩
  rw [if_neg hmem]
  have hnew : Tracks init _ events { r with blocks := insert b r.blocks } fun s b => r.Ready b s :=
    ⟨h.toLists.recordBlock hlt hmem, h.highest⟩
  have hlen : ((t.status b.1).notarFallbacks ++ [b]).length ≤
      maxEntriesPerPubkeyForNotarizeLite := by
    have hcard := hnew.toLists.length_notarFallbacks hlt.le
    rw [status_setStatus, if_pos rfl] at hcard
    rw [Recorded.Allows, hadd] at hallows
    exact hcard.le.trans hallows
  rw [if_pos hlen]
  have hle : r.root ≤ b.1 + 1 := hlt.le.trans (Nat.le_succ _)
  obtain ⟨gap, hs, hn, hskip, hgap⟩ := hnew.toLists.exists_gap hle
  obtain ⟨t', events', hrun, htracks⟩ := hnew.addToConnected (b := b) hle hs hskip hgap hn
  refine ⟨t', events', hrun, htracks.congr fun x c => ?_⟩
  constructor
  · rintro (hold | ⟨rfl, h1, h2⟩)
    · exact ready_mono (Finset.subset_insert b r.blocks) (Finset.Subset.refl _) hold
    · exact ⟨Finset.mem_insert_self c r.blocks, h1, fun y hy1 hy2 => hskip y hy1 (by omega)⟩
  · rintro ⟨hc, hcx, hbetween⟩
    rcases Finset.mem_insert.mp hc with rfl | hc
    · refine Or.inr ⟨rfl, hcx, ?_⟩
      by_contra hfar
      exact hgap (hbetween _ hs (by omega))
    · exact Or.inl ⟨hc, hcx, hbetween⟩

theorem Tracks.skip_op (h : Tracks init t events r fun s b => r.Ready b s) (slot : ℕ) :
    ∃ t' events', t.addNewSkip events slot = some (t', events') ∧
      Tracks init t' events' (r.add (.skip slot)) fun s c => (r.add (.skip slot)).Ready c s := by
  unfold addNewSkip
  rw [h.root]
  by_cases hroot : slot ≤ r.root
  · rw [if_pos hroot, add, if_neg (not_lt.mpr hroot)]
    exact ⟨t, events, rfl, h⟩
  have hlt : r.root < slot := not_le.mp hroot
  rw [if_neg hroot, add, if_pos hlt]
  have hnew : Tracks init _ events { r with skips := insert slot r.skips } fun s b => r.Ready b s :=
    ⟨h.toLists.recordSkip slot, h.highest⟩
  -- the parents come from the status of the slot before, which is not the one that changed
  have hbefore : (t.setStatus slot { t.status slot with skip := true }).status (slot - 1) =
      t.status (slot - 1) := by
    rw [status_setStatus, if_neg (by omega)]
  dsimp only
  generalize t.setStatus slot { t.status slot with skip := true } = t₁ at hnew hbefore ⊢
  have hle : r.root ≤ slot + 1 := hlt.le.trans (Nat.le_succ _)
  obtain ⟨gap, hs, hn, hskip, hgap⟩ := hnew.toLists.exists_gap hle
  obtain ⟨future, hfuture, hmem⟩ := futureSlots_spec (t := t₁) hs (fun x h1 h2 =>
    ((hnew.shows x).skip (hle.trans h1)).mpr (hskip x h1 h2)) (by
      rw [Bool.eq_false_iff]
      exact fun hsk => hgap (((hnew.shows gap).skip (hle.trans hs)).mp hsk)) hn
  have hparents : ∀ c, c ∈ potentialParents (t.status (slot - 1)) ↔ r.Ready c slot := by
    intro c
    rw [h.toLists.mem_potentialParents (by omega), show slot - 1 + 1 = slot by omega]
  have hready : ∀ x c, (r.Ready c x ∨ (x ∈ future ∧ c ∈ potentialParents (t.status (slot - 1)))) ↔
      ({ r with skips := insert slot r.skips } : Recorded Hash).Ready c x := by
    intro x c
    rw [ready_skip hskip hs hgap, hparents, hmem]
  rw [hfuture, Option.bind_eq_bind, Option.bind_some]
  have hget : ∀ status, t₁.slotStatuses.get (slot - 1) = some status →
      status = t.status (slot - 1) := by
    intro status hsome
    rw [← hbefore, ParentReadyTracker.status, hsome]
    rfl
  cases hcase : t₁.slotStatuses.get (slot - 1) with
  | none =>
    have hnone : potentialParents (t.status (slot - 1)) = [] := by
      rw [← hbefore, status, hcase]
      rfl
    refine ⟨_, events, rfl, hnew.congr fun x c => ?_⟩
    rw [← hready, hnone]
    exact (or_iff_left fun hc => not_mem_nil hc.2).symm
  | some status =>
    rw [hget status hcase]
    dsimp only
    by_cases hnone : potentialParents (t.status (slot - 1)) = []
    · rw [if_pos hnone]
      refine ⟨_, events, rfl, hnew.congr fun x c => ?_⟩
      rw [← hready, hnone]
      exact (or_iff_left fun hc => not_mem_nil hc.2).symm
    · rw [if_neg hnone]
      exact ⟨_, _, rfl, (hnew.foldl_addParents hnone fun x hx =>
        hle.trans ((hmem x).mp hx).1).congr hready⟩

/-- At first only the root block is a parent. -/
theorem Tracks.new (init : Block Hash) :
    Tracks init (ParentReadyTracker.new init) [] (new init)
      fun s b => (Recorded.new init).Ready b s := by
  have hready : ∀ s b, (Recorded.new init).Ready b s ↔ s = init.1 + 1 ∧ b = init := by
    intro s b
    constructor
    · rintro ⟨hb, hlt, hbetween⟩
      cases mem_singleton.mp hb
      refine ⟨?_, rfl⟩
      by_contra hne
      exact Finset.notMem_empty _ (hbetween (init.1 + 1) (by omega) (by omega))
    · rintro ⟨hs, hb⟩
      rw [hs, hb]
      exact ⟨mem_singleton_self init, Nat.lt_succ_self _, fun x h1 h2 => by omega⟩
  have hstatus : ∀ s, (ParentReadyTracker.new init).status s =
      if s = init.1 + 1 then { parentsReady := [init] }
      else if s = init.1 then { notarFallbacks := [init] } else {} := by
    intro s
    rw [ParentReadyTracker.status, ParentReadyTracker.new, get_insert, get_insert]
    split_ifs <;> rfl
  refine ⟨⟨rfl, fun s => ?_, nodup_nil, fun s b => ?_, (hready _ _).mpr ⟨rfl, rfl⟩⟩,
    ⟨init, (hready _ _).mpr ⟨rfl, rfl⟩⟩, ?_⟩
  · have hskip : false = true ↔ s ∈ (∅ : Finset ℕ) := by simp
    have hnone : s ≠ init.1 + 1 → ∀ b, b ∈ [] ↔ (Recorded.new init).Ready b s :=
      fun hs b => ⟨nofun, fun h => (hs ((hready s b).mp h).1).elim⟩
    rw [hstatus]
    split_ifs with h1 h2
    · refine ⟨fun _ => hskip, fun _ b => ⟨nofun, ?_⟩, nodup_nil, fun _ b => ?_, nodup_singleton _⟩
      · rintro ⟨hb, rfl⟩
        rw [Finset.mem_singleton.mp hb] at h1
        omega
      · rw [hready, mem_singleton, and_iff_right h1]
    · refine ⟨fun _ => hskip, fun _ b => ?_, nodup_singleton _, fun _ => hnone h1, nodup_nil⟩
      show _ ↔ b ∈ ({init} : Finset (Block Hash)) ∧ b.1 = s
      rw [mem_singleton, Finset.mem_singleton]
      exact (and_iff_left_of_imp fun hb => by rw [hb, h2]).symm
    · refine ⟨fun _ => hskip, fun _ b => ⟨nofun, ?_⟩, nodup_nil, fun _ => hnone h1, nodup_nil⟩
      rintro ⟨hb, rfl⟩
      exact (h2 (congrArg Prod.fst (Finset.mem_singleton.mp hb))).elim
  · rw [hready]
    exact ⟨nofun, fun h => (h.2.2 h.2.1).elim⟩
  · rintro s ⟨b, hb⟩
    exact ((hready s b).mp hb).1.le

/-! ## Sequences -/

theorem Tracks.exec (h : Tracks init t events r fun s b => r.Ready b s) {op : TrackerOp Hash}
    (hallows : r.Allows op) :
    ∃ t' events', exec (t, events) op = some (t', events') ∧
      Tracks init t' events' (r.add op) fun s b => (r.add op).Ready b s := by
  cases op with
  | notarFallbackOrStronger block => exact h.notar_op hallows
  | skip slot => exact h.skip_op slot
  | setRoot root => exact ⟨_, events, rfl, h.setRoot_op hallows⟩

theorem Tracks.run (h : Tracks init t events r fun s b => r.Ready b s) {ops : List (TrackerOp Hash)}
    (hallows : r.AllowsAll ops) :
    ∃ t' events', ops.foldlM ParentReadyTracker.exec (t, events) = some (t', events') ∧
      Tracks init t' events' (ops.foldl add r) fun s b => (ops.foldl add r).Ready b s := by
  induction ops generalizing t events r with
  | nil => exact ⟨t, events, rfl, h⟩
  | cons op ops ih =>
    obtain ⟨t₁, events₁, hop, h₁⟩ := h.exec hallows.1
    obtain ⟨t₂, events₂, hrest, h₂⟩ := ih h₁ hallows.2
    refine ⟨t₂, events₂, ?_, h₂⟩
    rw [foldlM_cons, hop]
    exact hrest

/-- Exactness of the tracker: after any sequence of certificates and roots the lists of ready
parents above the root are those of the recorded certificates, every pair in the first slot of
a leader window had one event but for the root block in the first slot, and the lists depend
on the recorded certificates only. -/
theorem parent_ready_exact (init : Block Hash) (ops : List (TrackerOp Hash))
    (hallows : (Recorded.new init).AllowsAll ops) :
    ∃ t events, ops.foldlM ParentReadyTracker.exec (ParentReadyTracker.new init, []) =
        some (t, events) ∧
      (∀ s b, (ops.foldl Recorded.add (Recorded.new init)).root < s →
        (b ∈ (t.status s).parentsReady ↔ (ops.foldl Recorded.add (Recorded.new init)).Ready b s)) ∧
      events.Nodup ∧
      (∀ s b, (s, b) ∈ events ↔ s % numConsecutiveLeaderSlots = 0 ∧
        (ops.foldl Recorded.add (Recorded.new init)).Ready b s ∧
        ¬ (s = init.1 + 1 ∧ b = init)) ∧
      (∀ ops', ops.Perm ops' → (∀ root, .setRoot root ∉ ops) →
        ops'.foldl Recorded.add (Recorded.new init) = ops.foldl Recorded.add (Recorded.new init)) ∧
      ∀ ops' t' events', (Recorded.new init).AllowsAll ops' →
        ops'.foldl Recorded.add (Recorded.new init) = ops.foldl Recorded.add (Recorded.new init) →
        ops'.foldlM ParentReadyTracker.exec (ParentReadyTracker.new init, []) = some (t', events') →
        ∀ s, (ops.foldl Recorded.add (Recorded.new init)).root < s →
          (t'.status s).parentsReady.Perm (t.status s).parentsReady := by
  obtain ⟨t, events, hrun, h⟩ := (Tracks.new init).run hallows
  refine ⟨t, events, hrun, fun s b hs => (h.shows s).ready hs.le b, h.events_nodup, h.events_mem,
    fun ops' hperm hroot => Recorded.foldl_add_perm hperm hroot _, ?_⟩
  intro ops' t' events' hallows' hsame hrun' s hs
  obtain ⟨t₂, events₂, hrun₂, h₂⟩ := (Tracks.new init).run hallows'
  cases hrun'.symm.trans hrun₂
  refine (perm_ext_iff_of_nodup (h₂.shows s).ready_nodup (h.shows s).ready_nodup).mpr fun b => ?_
  rw [(h.shows s).ready hs.le, (h₂.shows s).ready (hsame ▸ hs.le), hsame]

/-- After any sequence of certificates and roots a leader has missed its window exactly if a
later slot has a ready parent, and otherwise gets the least ready one, if there is any. -/
theorem production_parent_exact [LinearOrder Hash] {ops : List (TrackerOp Hash)}
    (hallows : (Recorded.new init).AllowsAll ops)
    (hrun : ops.foldlM ParentReadyTracker.exec (ParentReadyTracker.new init, []) = some (t, events))
    (hr : ops.foldl Recorded.add (Recorded.new init) = r) (hslot : r.root ≤ slot) :
    (t.blockProductionParent slot = .missedWindow ↔ ∃ later > slot, ∃ b, r.Ready b later) ∧
    (∀ b, t.blockProductionParent slot = .parent b ↔ (∀ later > slot, ∀ c, ¬ r.Ready c later) ∧
      r.Ready b slot ∧ ∀ c, r.Ready c slot → toLex b ≤ toLex c) ∧
    (t.blockProductionParent slot = .parentNotReady ↔ ∀ later ≥ slot, ∀ b, ¬ r.Ready b later) := by
  obtain ⟨t', events', hrun', h⟩ := (Tracks.new init).run hallows
  rw [hr] at h
  cases hrun.symm.trans hrun'
  have hready := (h.shows slot).ready hslot
  have hlater : slot < t.highestWithParentReady ↔ ∃ later > slot, ∃ b, r.Ready b later :=
    ⟨fun hlt => ⟨_, hlt, h.highest.1⟩, fun ⟨later, hlt, hb⟩ => hlt.trans_le (h.highest.2 hb)⟩
  have hmin : ∀ order : Block Hash → ℕ ×ₗ Hash,
      ((t.slotStatuses.get slot).bind (·.parentsReady.argmin order)) =
        (t.status slot).parentsReady.argmin order := by
    cases hget : t.slotStatuses.get slot <;> simp [ParentReadyTracker.status, hget]
  unfold ParentReadyTracker.blockProductionParent
  rw [hmin]
  split_ifs with hlt
  · obtain ⟨later, hgt, b, hb⟩ := hlater.mp hlt
    refine ⟨iff_of_true rfl ⟨later, hgt, b, hb⟩, fun c => iff_of_false nofun ?_,
      iff_of_false nofun fun hnone => hnone later hgt.le b hb⟩
    exact fun hnone => hnone.1 later hgt b hb
  have hnone : ∀ later > slot, ∀ c, ¬ r.Ready c later :=
    fun later hgt c hc => hlt (hlater.mpr ⟨later, hgt, c, hc⟩)
  cases hargmin : (t.status slot).parentsReady.argmin (toLex : Block Hash → ℕ ×ₗ Hash) with
  | none =>
    have hnot : ∀ b, ¬ r.Ready b slot := by
      intro b hb
      have hmem := (hready b).mpr hb
      rw [argmin_eq_none.mp hargmin] at hmem
      cases hmem
    refine ⟨iff_of_false nofun (hlater.not.mp hlt), fun b => iff_of_false nofun fun hb =>
      hnot b hb.2.1, iff_of_true rfl fun later hge b => ?_⟩
    rcases Nat.eq_or_lt_of_le hge with rfl | hgt
    · exact hnot b
    · exact hnone later hgt b
  | some b =>
    have hb := (hready b).mp (argmin_mem hargmin)
    have hleast : ∀ c, r.Ready c slot → toLex b ≤ toLex c :=
      fun c hc => le_of_mem_argmin ((hready c).mpr hc) hargmin
    refine ⟨iff_of_false nofun (hlater.not.mp hlt), fun c => ⟨?_, ?_⟩,
      iff_of_false nofun fun hno => hno slot le_rfl b hb⟩
    · rintro ⟨⟩
      exact ⟨hnone, hb, hleast⟩
    · rintro ⟨-, hc, hcleast⟩
      rw [toLex_inj.mp (le_antisymm (hleast c hc) (hcleast b hb))]

end Exact

/-- A certificate for block 1 at slot 6 and a skip of slot 7 make the block a ready parent of
slot 8, and there is an event, as slot 8 is the first one of a leader window. -/
theorem parent_ready_exact_skip :
    ∃ t events, [TrackerOp.notarFallbackOrStronger (6, 1), .skip 7].foldlM
        (@ParentReadyTracker.exec ℕ fourSlotWindow _) (ParentReadyTracker.new (3, 0), []) =
        some (t, events) ∧
      (6, 1) ∈ (t.status 8).parentsReady ∧ (8, (6, 1)) ∈ events := by
  obtain ⟨t, events, hrun, hready, -, hevents, -⟩ := @parent_ready_exact ℕ fourSlotWindow _ (3, 0)
    [.notarFallbackOrStronger (6, 1), .skip 7] ⟨by unfold Recorded.Allows; decide, trivial, trivial⟩
  have h : ([TrackerOp.notarFallbackOrStronger (6, 1), .skip 7].foldl Recorded.add
      (Recorded.new (3, 0))).Ready (6, 1) 8 := by
    refine ⟨by decide, by decide, fun x h1 h2 => ?_⟩
    rw [show x = 7 by omega]
    decide
  exact ⟨t, events, hrun, (hready 8 _ (by decide)).mpr h, (hevents 8 _).mpr ⟨rfl, h, by decide⟩⟩

/-- The root block at slot 3 is a ready parent of slot 4, the first one of a leader window, and
there is no event for it. -/
theorem not_parent_ready_event :
    ∃ t events, [].foldlM (@ParentReadyTracker.exec ℕ fourSlotWindow _)
        (ParentReadyTracker.new (3, 0), []) = some (t, events) ∧
      (3, 0) ∈ (t.status 4).parentsReady ∧ 4 % fourSlotWindow.numConsecutiveLeaderSlots = 0 ∧
      (4, (3, 0)) ∉ events :=
  ⟨_, _, rfl, by decide, rfl, not_mem_nil⟩

/-- After a skip of slot 4, the leader of slot 4 has missed its window and that of slot 5 builds
on the root block. -/
theorem production_parent_exact_skip :
    ∃ t events, [TrackerOp.skip 4].foldlM (@ParentReadyTracker.exec ℕ fourSlotWindow _)
        (ParentReadyTracker.new (3, 0), []) = some (t, events) ∧
      t.blockProductionParent 4 = .missedWindow ∧ t.blockProductionParent 5 = .parent (3, 0) ∧
      ([TrackerOp.skip 4].foldl Recorded.add (Recorded.new (3, 0))).Ready (3, 0) 5 :=
  ⟨_, _, rfl, rfl, rfl, (((@production_parent_exact ℕ (3, 0) _ _ _ 5 fourSlotWindow _ _
    [TrackerOp.skip 4] ⟨trivial, trivial⟩ rfl rfl (by decide)).2.1 _).mp rfl).2.1⟩

end Salsa.Votor
