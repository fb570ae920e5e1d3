import Mathlib.Data.Nat.Bitwise

/-!
# Salsa.Sync.State — the packed scheduler word

A model of the private state of `core/src/scheduler_synchronization.rs`. Once
per slot the block scheduler and the vanilla schedulers decide who writes the
block; the decision lives in one `u64`:

* bit 63 set — claimed by the block stage, clear — claimed by vanilla;
* the lower 63 bits — the slot;
* `u64::MAX` — no slot has been scheduled yet.

The closures handed to `fetch_update` are `Word → Option Word` functions, and
the public operations are written over them twice: here as functions of the
word (a call that nobody interrupts), and in `Salsa.Sync.System` as the atomic
steps of threads.

The `_eq_some` lemmas say once what each closure can do; nothing downstream
unfolds one.
-/

namespace Salsa.Sync

/-- A `u64`: the packed scheduler word, and also a slot number. -/
abbrev Word := BitVec 64

/-- Top bit: block claimed (1) or vanilla claimed (0). -/
def blockClaimedBit : Word := 1#64 <<< 63

/-- Mask of the slot number, the lower 63 bits. -/
def slotMask : Word := ~~~ blockClaimedBit

/-- No slot scheduled yet: `u64::MAX`. -/
def sentinel : Word := BitVec.allOnes 64

def getSlot (value : Word) : Word := value &&& slotMask

def isBlockClaim (value : Word) : Bool :=
  value != sentinel && (value &&& blockClaimedBit) != 0

def vanillaClaim (slot : Word) : Word := slot &&& slotMask

def blockClaim (slot : Word) : Word := (slot &&& slotMask) ||| blockClaimedBit

/-! ## The closures of `fetch_update` -/

/-- `AtomicU64::fetch_update`: store what the closure returns, or fail and
leave the word. The flag is `is_ok()`. -/
def fetchUpdate (f : Word → Option Word) (word : Word) : Bool × Word :=
  match f word with
  | some new => (true, new)
  | none => (false, word)

/-- The claim closure, shared by both schedulers up to the value they store. -/
def claimUpdate (newState currentSlot oldState : Word) : Option Word :=
  if oldState = sentinel then some newState
  -- last slot scheduled was in the past => update
  else if getSlot oldState < currentSlot then some newState
  -- something has been scheduled for this slot => no update
  else if getSlot oldState = currentSlot then none
  -- slot went backwards => don't schedule
  else none

/-- The closure of `vanilla_should_schedule`. -/
def vanillaUpdate (currentSlot : Word) : Word → Option Word :=
  claimUpdate (vanillaClaim currentSlot) currentSlot

/-- The closure of `block_should_schedule`. -/
def blockUpdate (currentSlot : Word) : Word → Option Word :=
  claimUpdate (blockClaim currentSlot) currentSlot

/-- The release closure, shared by success and failure up to the value stored. -/
def releaseUpdate (newState currentSlot oldState : Word) : Option Word :=
  if oldState = sentinel then none
  else if getSlot oldState ≠ currentSlot then none
  else if !isBlockClaim oldState then none
  else some newState

/-- The closure of `block_execution_finished`: a vanilla claim of the same slot. -/
def finishedUpdate (currentSlot : Word) : Word → Option Word :=
  releaseUpdate (vanillaClaim currentSlot) currentSlot

/-- The closure of `block_failed`: a vanilla claim of the previous slot, by
`wrapping_sub`. -/
def failedUpdate (currentSlot : Word) : Word → Option Word :=
  releaseUpdate (vanillaClaim (currentSlot - 1)) currentSlot

/-! ## The operations, uninterrupted -/

variable (word currentSlot : Word)

/-- The answer of both checks of `vanilla_should_schedule`, if the slot is
already claimed. -/
def claimedAnswer : Option Bool :=
  if word ≠ sentinel ∧ getSlot word = currentSlot then some (!isBlockClaim word) else none

/-- `vanilla_should_schedule`: the answer and the word left behind. -/
def vanillaShouldSchedule (inDelegationPeriod : Bool) :
    Option Bool × Word :=
  match claimedAnswer word currentSlot with
  | some answer => (some answer, word)
  | none =>
    if inDelegationPeriod then (none, word)
    else
      match fetchUpdate (vanillaUpdate currentSlot) word with
      | (true, word') => (some true, word')
      | (false, word') =>
        -- re-check: another vanilla thread may have claimed in between
        match claimedAnswer word' currentSlot with
        | some answer => (some answer, word')
        | none => (some false, word')

def blockShouldSchedule (inDelegationPeriod : Bool) :
    Option Bool × Word :=
  if !inDelegationPeriod then (none, word)
  else
    let (didClaim, word') := fetchUpdate (blockUpdate currentSlot) word
    (some didClaim, word')

def isBlockExecuting : Bool :=
  if word = sentinel then false
  else getSlot word == currentSlot && isBlockClaim word

def blockFailed : Option Bool × Word :=
  let (didRevert, word') := fetchUpdate (failedUpdate currentSlot) word
  (some didRevert, word')

/-! ## The encoding as arithmetic -/

theorem slotMask_toNat : slotMask.toNat = 2 ^ 63 - 1 := by decide

theorem blockClaimedBit_toNat : blockClaimedBit.toNat = 2 ^ 63 := by decide

theorem sentinel_toNat : sentinel.toNat = 2 ^ 64 - 1 := by decide

@[simp] theorem getSlot_toNat (value : Word) : (getSlot value).toNat = value.toNat % 2 ^ 63 := by
  rw [getSlot, BitVec.toNat_and, slotMask_toNat, Nat.and_two_pow_sub_one_eq_mod]

variable (slot : Word)

@[simp] theorem vanillaClaim_toNat : (vanillaClaim slot).toNat = slot.toNat % 2 ^ 63 :=
  getSlot_toNat slot

@[simp] theorem blockClaim_toNat : (blockClaim slot).toNat = slot.toNat % 2 ^ 63 + 2 ^ 63 := by
  have hlt : slot.toNat % 2 ^ 63 < 2 ^ 63 := Nat.mod_lt _ (by decide)
  have hor := Nat.two_pow_add_eq_or_of_lt hlt 1
  rw [blockClaim, BitVec.toNat_or, blockClaimedBit_toNat, ← vanillaClaim, vanillaClaim_toNat,
    Nat.or_comm, Nat.add_comm]
  simpa using hor.symm

/-- The top bit is set from `2 ^ 63` on. -/
theorem and_blockClaimedBit_eq_zero_iff (value : Word) :
    value &&& blockClaimedBit = 0 ↔ value.toNat < 2 ^ 63 := by
  have hzero : (0 : Word).toNat = 0 := rfl
  rw [← BitVec.toNat_inj, BitVec.toNat_and, blockClaimedBit_toNat, Nat.and_two_pow, hzero,
    Nat.mul_eq_zero, Nat.testBit_eq_decide_div_mod_eq]
  simp only [Bool.toNat_eq_zero, decide_eq_false_iff_not]
  omega

theorem isBlockClaim_iff (value : Word) :
    isBlockClaim value = true ↔ value ≠ sentinel ∧ 2 ^ 63 ≤ value.toNat := by
  have h := and_blockClaimedBit_eq_zero_iff value
  simp only [isBlockClaim, Bool.and_eq_true, bne_iff_ne, ne_eq, h, not_lt]

theorem vanillaClaim_ne_sentinel : vanillaClaim slot ≠ sentinel := by
  intro h
  have h' := congrArg BitVec.toNat h
  rw [vanillaClaim_toNat, sentinel_toNat] at h'
  omega

theorem isBlockClaim_vanillaClaim : isBlockClaim (vanillaClaim slot) = false := by
  rw [Bool.eq_false_iff]
  intro h
  have h' := ((isBlockClaim_iff _).mp h).2
  rw [vanillaClaim_toNat] at h'
  omega

/-- The slot stored in a word, as a number. -/
def slotOf (word : Word) : ℕ := (getSlot word).toNat

@[simp] theorem slotOf_vanillaClaim : slotOf (vanillaClaim slot) = slot.toNat % 2 ^ 63 := by
  simp [slotOf]

@[simp] theorem slotOf_blockClaim : slotOf (blockClaim slot) = slot.toNat % 2 ^ 63 := by
  simp [slotOf]

theorem getSlot_eq_iff (word slot : Word) : getSlot word = slot ↔ slotOf word = slot.toNat := by
  rw [slotOf, BitVec.toNat_inj]

/-! ## What each closure can do -/

theorem claimUpdate_eq_some {new slot old w : Word} :
    claimUpdate new slot old = some w ↔ (old = sentinel ∨ slotOf old < slot.toNat) ∧ w = new := by
  have hlt : getSlot old < slot ↔ slotOf old < slot.toNat := BitVec.lt_def
  unfold claimUpdate
  split_ifs with h₁ h₂ h₃
  · simp [h₁, eq_comm]
  · simp [hlt.mp h₂, eq_comm]
  · simp [h₁, ← hlt, h₂]
  · simp [h₁, ← hlt, h₂]

variable {slot old w : Word}

theorem vanillaUpdate_eq_some :
    vanillaUpdate slot old = some w ↔
      (old = sentinel ∨ slotOf old < slot.toNat) ∧ w = vanillaClaim slot :=
  claimUpdate_eq_some

theorem blockUpdate_eq_some :
    blockUpdate slot old = some w ↔
      (old = sentinel ∨ slotOf old < slot.toNat) ∧ w = blockClaim slot :=
  claimUpdate_eq_some

theorem releaseUpdate_eq_some {new slot old w : Word} :
    releaseUpdate new slot old = some w ↔
      slotOf old = slot.toNat ∧ isBlockClaim old = true ∧ w = new := by
  unfold releaseUpdate
  by_cases h₁ : old = sentinel
  · have hno : isBlockClaim sentinel = false := by decide
    simp [h₁, hno]
  · by_cases h₂ : getSlot old = slot
    · cases h₃ : isBlockClaim old
      · simp [h₁, h₂]
      · simp [h₁, h₂, (getSlot_eq_iff old slot).mp h₂, eq_comm]
    · have : slotOf old ≠ slot.toNat := fun h => h₂ ((getSlot_eq_iff old slot).mpr h)
      simp [h₁, h₂, this]

theorem failedUpdate_eq_some :
    failedUpdate slot old = some w ↔
      slotOf old = slot.toNat ∧ isBlockClaim old = true ∧ w = vanillaClaim (slot - 1) :=
  releaseUpdate_eq_some

theorem fetchUpdate_eq_true {f : Word → Option Word} {word w : Word} :
    fetchUpdate f word = (true, w) ↔ f word = some w := by
  unfold fetchUpdate
  cases h : f word <;> simp

theorem fetchUpdate_eq_false {f : Word → Option Word} {word w : Word} :
    fetchUpdate f word = (false, w) ↔ f word = none ∧ w = word := by
  unfold fetchUpdate
  cases h : f word <;> simp [eq_comm]

theorem claimedAnswer_eq_some {word slot : Word} {answer : Bool} :
    claimedAnswer word slot = some answer ↔
      word ≠ sentinel ∧ slotOf word = slot.toNat ∧ answer = !isBlockClaim word := by
  have hslot := getSlot_eq_iff word slot
  unfold claimedAnswer
  by_cases h : word ≠ sentinel ∧ getSlot word = slot
  · rw [if_pos h]
    simp [h.1, hslot.mp h.2, eq_comm]
  · rw [if_neg h]
    simp only [reduceCtorEq, false_iff]
    rintro ⟨h₁, h₂, -⟩
    exact h ⟨h₁, hslot.mpr h₂⟩

theorem isBlockExecuting_eq_true {word slot : Word} :
    isBlockExecuting word slot = true ↔ slotOf word = slot.toNat ∧ isBlockClaim word = true := by
  unfold isBlockExecuting
  split_ifs with h
  · simp [h, isBlockClaim]
  · simp [getSlot_eq_iff]

end Salsa.Sync
