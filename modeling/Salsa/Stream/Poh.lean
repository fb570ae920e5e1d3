import Mathlib.Tactic.Common
import Mathlib.Algebra.GroupWithZero.Nat
import Mathlib.Algebra.Order.Sub.Basic

/-!
# Salsa.Stream.Poh — the proof-of-history generator

`Poh` of `entry/src/poh.rs`: a running hash, the hashes since the last entry,
and how many hashes are left until the next tick. The last hash before a tick is
reserved for the tick itself, so `hash`, `record` and `record_batches` stop at
one remaining hash; that the remaining hashes stay between one and
`hashes_per_tick` is part of the type.

SHA-256 is an arbitrary pair of functions, `Hasher`. Machine words are natural
numbers, with the wrap-around of `remaining_hashes_in_slot` written out; times
are left out.
-/

namespace Salsa.Stream

abbrev Hash := BitVec 256

/-- A transaction, as its bytes. -/
abbrev Transaction := List (BitVec 8)

def u64Max : ℕ := 2 ^ 64 - 1

/-- The two uses of SHA-256: of one hash, and of a hash followed by a mixin. -/
structure Hasher where
  hash : Hash → Hash
  hashv : Hash → Hash → Hash

structure PohEntry where
  numHashes : ℕ
  hash : Hash
deriving DecidableEq, Repr

/-- `Entry`; a tick is an entry without transactions. -/
structure Entry where
  numHashes : ℕ
  hash : Hash
  transactions : List Transaction
deriving DecidableEq, Repr

/-- `LOW_POWER_MODE`: every call of `tick` yields a tick. -/
def lowPowerMode : ℕ := u64Max

/-- The generator, with the range of its remaining hashes. -/
structure Poh where
  hash : Hash
  numHashes : ℕ
  hashesPerTick : ℕ
  remainingHashesUntilTick : ℕ
  tickNumber : ℕ
  one_lt_hashesPerTick : 1 < hashesPerTick
  remaining_pos : 0 < remainingHashesUntilTick
  remaining_le : remainingHashesUntilTick ≤ hashesPerTick

namespace Poh

variable (H : Hasher)

/-- `Poh::new_with_slot_info`; none where its assertion fails. -/
def newWithSlotInfo (hash : Hash) (hashesPerTick : Option ℕ) (tickNumber : ℕ) : Option Poh :=
  if h : 1 < hashesPerTick.getD lowPowerMode then
    some
      { hash
        numHashes := 0
        hashesPerTick := hashesPerTick.getD lowPowerMode
        remainingHashesUntilTick := hashesPerTick.getD lowPowerMode
        tickNumber
        one_lt_hashesPerTick := h
        remaining_pos := by omega
        remaining_le := Nat.le_refl _ }
  else none

def reset (hash : Hash) (hashesPerTick : Option ℕ) : Option Poh :=
  newWithSlotInfo hash hashesPerTick 0

def remainingHashes (p : Poh) : ℕ := p.remainingHashesUntilTick

/-- `Poh::hash`: at most `maxNumHashes` hashes, with the answer whether a tick is
due. -/
def hashN (p : Poh) (maxNumHashes : ℕ) : Bool × Poh :=
  let numHashes := min (p.remainingHashesUntilTick - 1) maxNumHashes
  let remaining := p.remainingHashesUntilTick - numHashes
  (remaining == 1,
    { p with
      hash := H.hash^[numHashes] p.hash
      numHashes := p.numHashes + numHashes
      remainingHashesUntilTick := remaining
      remaining_pos := by have := p.remaining_pos; omega
      remaining_le := by have := p.remaining_le; omega })

def record (p : Poh) (mixin : Hash) : Option PohEntry × Poh :=
  if h : p.remainingHashesUntilTick = 1 then (none, p)
  else
    let hash := H.hashv p.hash mixin
    (some ⟨p.numHashes + 1, hash⟩,
      { p with
        hash
        numHashes := 0
        remainingHashesUntilTick := p.remainingHashesUntilTick - 1
        remaining_pos := by have := p.remaining_pos; omega
        remaining_le := by have := p.remaining_le; omega })

/-- The entries of successive mixins: the first has `numHashes` hashes, the
others one. -/
def mixinEntries (numHashes : ℕ) (hash : Hash) : List Hash → List PohEntry
  | [] => []
  | mixin :: mixins =>
      ⟨numHashes, H.hashv hash mixin⟩ :: mixinEntries 1 (H.hashv hash mixin) mixins

/-- `Poh::record_batches`: all the mixins or none. -/
def recordBatches (p : Poh) (mixins : List Hash) : Option (List PohEntry) × Poh :=
  if h : p.remainingHashesUntilTick < mixins.length + 1 then (none, p)
  else
    (some (mixinEntries H (p.numHashes + 1) p.hash mixins),
      { p with
        hash := mixins.foldl H.hashv p.hash
        numHashes := 0
        remainingHashesUntilTick := p.remainingHashesUntilTick - mixins.length
        remaining_pos := by omega
        remaining_le := by have := p.remaining_le; omega })

def tick (p : Poh) : Option PohEntry × Poh :=
  let hash := H.hash p.hash
  let numHashes := p.numHashes + 1
  if h : p.hashesPerTick ≠ lowPowerMode ∧ p.remainingHashesUntilTick - 1 ≠ 0 then
    (none,
      { p with
        hash
        numHashes
        remainingHashesUntilTick := p.remainingHashesUntilTick - 1
        remaining_pos := by omega
        remaining_le := by have := p.remaining_le; omega })
  else
    (some ⟨numHashes, hash⟩,
      { p with
        hash
        numHashes := 0
        remainingHashesUntilTick := p.hashesPerTick
        tickNumber := p.tickNumber + 1
        remaining_pos := by have := p.one_lt_hashesPerTick; omega
        remaining_le := Nat.le_refl _ })

/-- `Poh::remaining_hashes_in_slot`, in wrapping arithmetic. -/
def remainingHashesInSlot (p : Poh) (ticksPerSlot : ℕ) : ℕ :=
  ((ticksPerSlot - ((p.tickNumber &&& (ticksPerSlot - 1)) + 1)) * p.hashesPerTick +
    p.remainingHashesUntilTick) % 2 ^ 64

/-! ## What each operation does to the remaining hashes -/

variable {H}

theorem recordBatches_of_fits {p : Poh} {mixins : List Hash}
    (h : mixins.length + 1 ≤ p.remainingHashesUntilTick) :
    ∃ entries p', p.recordBatches H mixins = (some entries, p') ∧
      entries.length = mixins.length ∧ p'.hashesPerTick = p.hashesPerTick ∧
      p'.tickNumber = p.tickNumber ∧
      p'.remainingHashesUntilTick + mixins.length = p.remainingHashesUntilTick := by
  have hlen : ∀ (l : List Hash) (n : ℕ) (x : Hash), (mixinEntries H n x l).length = l.length := by
    intro l
    induction l with
    | nil =>
      intro n x
      rfl
    | cons m l ih =>
      intro n x
      rw [mixinEntries, List.length_cons, List.length_cons, ih]
  rw [recordBatches, dif_neg (by omega)]
  refine ⟨_, _, rfl, hlen mixins _ _, rfl, rfl, ?_⟩
  show p.remainingHashesUntilTick - mixins.length + mixins.length = p.remainingHashesUntilTick
  omega

/-- At one remaining hash a tick is emitted. -/
theorem tick_of_due {p : Poh} (h : p.remainingHashesUntilTick = 1) :
    ∃ entry p', p.tick H = (some entry, p') ∧ p'.hashesPerTick = p.hashesPerTick ∧
      p'.tickNumber = p.tickNumber + 1 ∧ p'.remainingHashesUntilTick = p.hashesPerTick := by
  rw [tick, dif_neg (by omega)]
  exact ⟨_, _, rfl, rfl, rfl, rfl⟩

/-- Where no tick is emitted, one remaining hash is used up. -/
theorem tick_eq_none {p p' : Poh} (h : p.tick H = (none, p')) :
    p'.remainingHashesUntilTick < p.remainingHashesUntilTick := by
  unfold tick at h
  split_ifs at h with hd
  · cases h
    show p.remainingHashesUntilTick - 1 < p.remainingHashesUntilTick
    omega
  · cases congrArg Prod.fst h

end Poh

end Salsa.Stream
