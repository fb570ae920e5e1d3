import Mathlib.Data.List.Lex
import Mathlib.Data.Fintype.Basic

/-!
# Salsa.Gossip.Value — the values of the gossip table

`crds_data.rs`, `crds_value.rs`: what nodes tell each other, under which label a value is kept,
and which of two values under one label stays (`crds.rs`, `overrides`).
-/

namespace Salsa.Gossip

/-! ## Hashes -/

/-- A hash: its 32 bytes, compared in their order. -/
structure Hash where
  bytes : List (Fin 256)
  length_eq : bytes.length = 32
deriving DecidableEq

theorem Hash.bytes_injective : Function.Injective Hash.bytes := by
  rintro ⟨a, ha⟩ ⟨b, hb⟩ (rfl : a = b)
  rfl

instance : LinearOrder Hash := LinearOrder.lift' Hash.bytes Hash.bytes_injective

/-- `CrdsFilter::hash_as_u64`: the first eight bytes, the first one lowest. -/
def Hash.asU64 (h : Hash) : BitVec 64 :=
  BitVec.ofNat 64 ((h.bytes.take 8).foldr (fun b n => b.val + 256 * n) 0)

/-! ## Data -/

/-- What is read of a `ContactInfo`. -/
structure ContactInfo (Pubkey : Type) where
  pubkey : Pubkey
  wallclock : ℕ
  outset : ℕ
  shredVersion : BitVec 16
deriving DecidableEq

/-- `CrdsData`: the kinds of values with what is read of each, its origin and its wallclock. -/
inductive CrdsData (Pubkey : Type) where
  | legacyContactInfo (pubkey : Pubkey) (wallclock : ℕ)
  | vote (ix : BitVec 8) (from_ : Pubkey) (wallclock : ℕ)
  | lowestSlot (ix : BitVec 8) (from_ : Pubkey) (wallclock : ℕ)
  | legacySnapshotHashes (from_ : Pubkey) (wallclock : ℕ)
  | accountsHashes (from_ : Pubkey) (wallclock : ℕ)
  | epochSlots (ix : BitVec 8) (from_ : Pubkey) (wallclock : ℕ)
  | legacyVersion (from_ : Pubkey) (wallclock : ℕ)
  | version (from_ : Pubkey) (wallclock : ℕ)
  | nodeInstance (from_ : Pubkey) (wallclock : ℕ)
  | duplicateShred (ix : BitVec 16) (from_ : Pubkey) (wallclock : ℕ)
  | snapshotHashes (from_ : Pubkey) (wallclock : ℕ)
  | contactInfo (node : ContactInfo Pubkey)
  | restartLastVotedForkSlots (from_ : Pubkey) (wallclock : ℕ)
  | restartHeaviestFork (from_ : Pubkey) (wallclock : ℕ)
deriving DecidableEq

/-- `CrdsValueLabel`: one value is kept for each. -/
inductive CrdsValueLabel (Pubkey : Type) where
  | legacyContactInfo (pubkey : Pubkey)
  | vote (ix : BitVec 8) (pubkey : Pubkey)
  | lowestSlot (pubkey : Pubkey)
  | legacySnapshotHashes (pubkey : Pubkey)
  | epochSlots (ix : BitVec 8) (pubkey : Pubkey)
  | accountsHashes (pubkey : Pubkey)
  | legacyVersion (pubkey : Pubkey)
  | version (pubkey : Pubkey)
  | nodeInstance (pubkey : Pubkey)
  | duplicateShred (ix : BitVec 16) (pubkey : Pubkey)
  | snapshotHashes (pubkey : Pubkey)
  | contactInfo (pubkey : Pubkey)
  | restartLastVotedForkSlots (pubkey : Pubkey)
  | restartHeaviestFork (pubkey : Pubkey)
deriving DecidableEq

namespace CrdsData

variable {Pubkey : Type}

def wallclock : CrdsData Pubkey → ℕ
  | .legacyContactInfo _ w => w
  | .vote _ _ w => w
  | .lowestSlot _ _ w => w
  | .legacySnapshotHashes _ w => w
  | .accountsHashes _ w => w
  | .epochSlots _ _ w => w
  | .legacyVersion _ w => w
  | .version _ w => w
  | .nodeInstance _ w => w
  | .duplicateShred _ _ w => w
  | .snapshotHashes _ w => w
  | .contactInfo node => node.wallclock
  | .restartLastVotedForkSlots _ w => w
  | .restartHeaviestFork _ w => w

def pubkey : CrdsData Pubkey → Pubkey
  | .legacyContactInfo p _ => p
  | .vote _ p _ => p
  | .lowestSlot _ p _ => p
  | .legacySnapshotHashes p _ => p
  | .accountsHashes p _ => p
  | .epochSlots _ p _ => p
  | .legacyVersion p _ => p
  | .version p _ => p
  | .nodeInstance p _ => p
  | .duplicateShred _ p _ => p
  | .snapshotHashes p _ => p
  | .contactInfo node => node.pubkey
  | .restartLastVotedForkSlots p _ => p
  | .restartHeaviestFork p _ => p

/-- `CrdsValue::label`: the index of a `LowestSlot` is not part of it. -/
def label : CrdsData Pubkey → CrdsValueLabel Pubkey
  | .legacyContactInfo p _ => .legacyContactInfo p
  | .vote ix p _ => .vote ix p
  | .lowestSlot _ p _ => .lowestSlot p
  | .legacySnapshotHashes p _ => .legacySnapshotHashes p
  | .accountsHashes p _ => .accountsHashes p
  | .epochSlots ix p _ => .epochSlots ix p
  | .legacyVersion p _ => .legacyVersion p
  | .version p _ => .version p
  | .nodeInstance p _ => .nodeInstance p
  | .duplicateShred ix p _ => .duplicateShred ix p
  | .snapshotHashes p _ => .snapshotHashes p
  | .contactInfo node => .contactInfo node.pubkey
  | .restartLastVotedForkSlots p _ => .restartLastVotedForkSlots p
  | .restartHeaviestFork p _ => .restartHeaviestFork p

end CrdsData

def CrdsValueLabel.pubkey {Pubkey : Type} : CrdsValueLabel Pubkey → Pubkey
  | .legacyContactInfo p => p
  | .vote _ p => p
  | .lowestSlot p => p
  | .legacySnapshotHashes p => p
  | .epochSlots _ p => p
  | .accountsHashes p => p
  | .legacyVersion p => p
  | .version p => p
  | .nodeInstance p => p
  | .duplicateShred _ p => p
  | .snapshotHashes p => p
  | .contactInfo p => p
  | .restartLastVotedForkSlots p => p
  | .restartHeaviestFork p => p

@[simp] theorem CrdsData.pubkey_label {Pubkey : Type} (d : CrdsData Pubkey) :
    d.label.pubkey = d.pubkey := by
  cases d <;> rfl

/-! ## Feeds -/

/-- What a reader can follow in the order of insertion: one kind of values, or all. -/
inductive Feed where
  | votes
  | epochSlots
  | duplicateShreds
  | entries
deriving DecidableEq

/-- The values with the label are part of the feed. -/
def Feed.carries {Pubkey : Type} : Feed → CrdsValueLabel Pubkey → Bool
  | .votes, .vote _ _ => true
  | .epochSlots, .epochSlots _ _ => true
  | .duplicateShreds, .duplicateShred _ _ => true
  | .entries, _ => true
  | _, _ => false

def CrdsValueLabel.isContactInfo {Pubkey : Type} : CrdsValueLabel Pubkey → Bool
  | .contactInfo _ => true
  | _ => false

/-! ## Values -/

/-- `CrdsValue`: `Body` is what no function of the table reads, the signature and the rest of
the data. -/
structure CrdsValue (Pubkey Body : Type) where
  data : CrdsData Pubkey
  body : Body
  hash : Hash
deriving DecidableEq

variable {Pubkey Body : Type}

namespace CrdsValue

def label (v : CrdsValue Pubkey Body) : CrdsValueLabel Pubkey := v.data.label

def pubkey (v : CrdsValue Pubkey Body) : Pubkey := v.data.pubkey

def wallclock (v : CrdsValue Pubkey Body) : ℕ := v.data.wallclock

theorem pubkey_of_label {a b : CrdsValue Pubkey Body} (h : a.label = b.label) :
    a.pubkey = b.pubkey := by
  have := congrArg CrdsValueLabel.pubkey h
  rwa [label, label, CrdsData.pubkey_label, CrdsData.pubkey_label] at this

end CrdsValue

/-- `ContactInfo::overrides`: no answer for different nodes or equal times. -/
def ContactInfo.overrides {Pubkey : Type} [DecidableEq Pubkey] (a b : ContactInfo Pubkey) :
    Option Bool :=
  if a.pubkey ≠ b.pubkey then none
  else
    match compareLex (compareOn (·.1)) (compareOn (·.2)) (a.outset, a.wallclock)
      (b.outset, b.wallclock) with
    | .lt => some false
    | .gt => some true
    | .eq => none

/-- The comparison of wallclocks, then of hashes. -/
def CrdsValue.newer {Pubkey Body : Type} (value other : CrdsValue Pubkey Body) : Bool :=
  match compare value.wallclock other.wallclock with
  | .lt => false
  | .gt => true
  -- ties are broken in the same way across the cluster
  | .eq => other.hash < value.hash

/-- `overrides`: the first value updates the second. `none` is the failed assertion on the
labels. -/
def overrides {Pubkey Body : Type} [DecidableEq Pubkey] (value other : CrdsValue Pubkey Body) :
    Option Bool :=
  if value.label ≠ other.label then none
  else
    match value.data, other.data with
    | .contactInfo a, .contactInfo b =>
        match a.overrides b with
        | some out => some out
        | none => some (value.newer other)
    | _, _ => some (value.newer other)

theorem exists_overrides [DecidableEq Pubkey]
    {value other : CrdsValue Pubkey Body} (h : value.label = other.label) :
    ∃ b, overrides value other = some b := by
  rw [overrides, if_neg (not_not.mpr h)]
  split
  · split <;> exact ⟨_, rfl⟩
  · exact ⟨_, rfl⟩

end Salsa.Gossip
