import Mathlib.Algebra.GroupWithZero.Nat
import Salsa.Lib.IndexMap
import Salsa.Gossip.Value

/-!
# Salsa.Gossip.Shards — the shards of the gossip table

`crds_shards.rs`: the positions of the table by the first bits of the hashes of their values.
-/

namespace Salsa.Gossip

open Function

def checkedShr (x : BitVec 64) (n : ℕ) : Option (BitVec 64) :=
  if n < 64 then some (x >>> n) else none

def shardBits : ℕ := 12

/-- The hashes of a shard under the positions in the table. -/
abbrev Shard : Type := IndexMap ℕ (BitVec 64)

/-- `CrdsShards`: shard `k` has the values whose hashes begin with the bits of `k`. -/
structure CrdsShards where
  shards : Fin (2 ^ shardBits) → Shard

/-- The first bits of a hash are the number of a shard. -/
theorem checkedShr_lt_shards (hash : BitVec 64) :
    ((checkedShr hash (64 - shardBits)).getD 0).toNat < 2 ^ shardBits := by
  have hlt : hash.toNat < 2 ^ (64 - shardBits) * 2 ^ shardBits := by
    exact hash.isLt
  rw [checkedShr, if_pos (by decide), Option.getD_some, BitVec.toNat_ushiftRight,
    Nat.shiftRight_eq_div_pow]
  exact Nat.div_lt_of_lt_mul hlt

def shardIndex (hash : BitVec 64) : Fin (2 ^ shardBits) :=
  ⟨((checkedShr hash (64 - shardBits)).getD 0).toNat, checkedShr_lt_shards hash⟩

namespace CrdsShards

def new : CrdsShards := ⟨fun _ => IndexMap.empty⟩

def shard (s : CrdsShards) (hash : BitVec 64) : Shard := s.shards (shardIndex hash)

def setShard (s : CrdsShards) (hash : BitVec 64) (shard : Shard) : CrdsShards :=
  ⟨Function.update s.shards (shardIndex hash) shard⟩

def insert (s : CrdsShards) (index : ℕ) (hash : BitVec 64) : CrdsShards :=
  s.setShard hash ((s.shard hash).insert index hash)

def remove (s : CrdsShards) (index : ℕ) (hash : BitVec 64) : CrdsShards :=
  s.setShard hash ((s.shard hash).erase index)

/-- A hash is in a shard at a position. -/
def Has (s : CrdsShards) (k : Fin (2 ^ shardBits)) (index : ℕ) (hash : BitVec 64) : Prop :=
  (s.shards k).get index = some hash

@[simp] theorem not_has_new (k : Fin (2 ^ shardBits)) (i : ℕ) (h : BitVec 64) :
    ¬ new.Has k i h := by
  intro hcon
  cases hcon

theorem has_insert (s : CrdsShards) (index : ℕ) (hash : BitVec 64) (k : Fin (2 ^ shardBits)) (i : ℕ)
    (h : BitVec 64) :
    (s.insert index hash).Has k i h ↔
      if k = shardIndex hash ∧ i = index then h = hash else s.Has k i h := by
  rw [Has, insert, setShard]
  dsimp only
  by_cases hk : k = shardIndex hash
  · rw [hk, update_self, IndexMap.get_insert]
    by_cases hi : i = index
    · rw [if_pos hi, if_pos ⟨rfl, hi⟩]
      exact ⟨fun heq => (Option.some.inj heq).symm, fun heq => congrArg some heq.symm⟩
    · rw [if_neg hi, if_neg (fun hcon => hi hcon.2)]
      rfl
  · rw [update_of_ne hk, if_neg (fun hcon => hk hcon.1)]
    rfl

theorem has_remove (s : CrdsShards) (index : ℕ) (hash : BitVec 64) (k : Fin (2 ^ shardBits)) (i : ℕ)
    (h : BitVec 64) :
    (s.remove index hash).Has k i h ↔ ¬ (k = shardIndex hash ∧ i = index) ∧ s.Has k i h := by
  rw [Has, remove, setShard]
  dsimp only
  by_cases hk : k = shardIndex hash
  · rw [hk, update_self, IndexMap.get_erase]
    by_cases hi : i = index
    · rw [if_pos hi]
      exact iff_of_false (Option.some_ne_none h).symm (fun hcon => hcon.1 ⟨rfl, hi⟩)
    · rw [if_neg hi, and_iff_right (fun hcon => hi hcon.2)]
      rfl
  · rw [update_of_ne hk, and_iff_right (fun hcon => hk hcon.1)]
    rfl

end CrdsShards

end Salsa.Gossip
