import Salsa.Gossip.Crds

/-!
# Salsa.Gossip.Indices — the indices describe the table

`Consistent` says of each index of the gossip table that it has exactly the positions of the
values it is for. An insertion writes the row of one position and a removal empties one and
moves another; each index does this in its own way (`put_*`, `cleared_*`), and the table follows
by the rules of `IndexMap.Indexed`.
-/

namespace Salsa.Gossip

open IndexMap Option Feed

variable {Pubkey Body : Type} {label : CrdsValueLabel Pubkey} {i₀ : ℕ}

/-! ## What each index is for -/

namespace VersionedCrdsValue

/-- The value belongs to the feed under its ordinal. -/
def InFeed (f : Feed) (v : VersionedCrdsValue Pubkey Body) (ordinal : ℕ) : Prop :=
  f.carries v.value.label ∧ v.ordinal = ordinal

/-- The value belongs to the shard under its hash. -/
def InShard (v : VersionedCrdsValue Pubkey Body) (x : Fin (2 ^ shardBits) × BitVec 64) : Prop :=
  v.hash64 = x.2 ∧ shardIndex x.2 = x.1

def IsNode (v : VersionedCrdsValue Pubkey Body) (_ : Unit) : Prop := v.value.label.isContactInfo

def IsOf (v : VersionedCrdsValue Pubkey Body) (pubkey : Pubkey) : Prop := v.value.pubkey = pubkey

end VersionedCrdsValue

def InSet (s : IndexSet ℕ) (i : ℕ) : Prop := s.get i = some ()

section Rows

variable {m : IndexMap (CrdsValueLabel Pubkey) (VersionedCrdsValue Pubkey Body)} {f : Feed}
  {index : OrdMap ℕ ℕ} {v : VersionedCrdsValue Pubkey Body} {nodes : IndexSet ℕ}
  {shards : CrdsShards}

/-! ## Feeds -/

/-- The ordinal of a value with the label is dropped if the feed has it. -/
def Feed.drop (f : Feed) (index : OrdMap ℕ ℕ) (label : CrdsValueLabel Pubkey) (ordinal : ℕ) :
    OrdMap ℕ ℕ :=
  if f.carries label then index.erase ordinal else index

/-- The ordinal leads to the position if the feed has it. -/
def Feed.put (f : Feed) (index : OrdMap ℕ ℕ) (v : VersionedCrdsValue Pubkey Body) (i : ℕ) :
    OrdMap ℕ ℕ :=
  if f.carries v.value.label then index.insert v.ordinal i else index

theorem cleared_drop (h : m.Indexed (VersionedCrdsValue.InFeed f) fun o i => index.get o = some i)
    (hv : m.nth i₀ = some (label, v)) :
    Cleared (fun o i => index.get o = some i) i₀ fun o i =>
      (f.drop index v.value.label v.ordinal).get o = some i := by
  intro o i
  -- only the ordinal of `v` leads to its position
  have hrow : ∀ o, index.get o = some i₀ ↔ v.InFeed f o := h.iff hv
  grind [drop, VersionedCrdsValue.InFeed, OrdMap.get_erase]

/-- Putting an ordinal takes it from where it led. -/
theorem put_feed {S : ℕ → ℕ → Prop} (hS : ∀ o i, S o i ↔ ¬ v.InFeed f o ∧ index.get o = some i)
    (hrow : ∀ o, ¬ S o i₀) :
    Put (v.InFeed f) i₀ S fun o i => (f.put index v i₀).get o = some i := by
  intro o i
  have hempty := hrow o
  grind [put, VersionedCrdsValue.InFeed, OrdMap.get_insert]

/-! ## Nodes -/

theorem inSet_insert (s : IndexSet ℕ) (i j : ℕ) : InSet (s.insert i ()) j ↔ j = i ∨ InSet s j := by
  grind [InSet, IndexMap.get_insert]

theorem inSet_erase (s : IndexSet ℕ) (i j : ℕ) : InSet (s.erase i) j ↔ j ≠ i ∧ InSet s j := by
  grind [InSet, IndexMap.get_erase]

/-- The position is dropped if a contact-info is there. -/
def dropNode (s : IndexSet ℕ) (v : VersionedCrdsValue Pubkey Body) (i : ℕ) : IndexSet ℕ :=
  if v.value.label.isContactInfo then s.erase i else s

def putNode (s : IndexSet ℕ) (v : VersionedCrdsValue Pubkey Body) (i : ℕ) : IndexSet ℕ :=
  if v.value.label.isContactInfo then s.insert i () else s

theorem cleared_dropNode (hrow : InSet nodes i₀ → v.IsNode ()) :
    Cleared (fun (_ : Unit) i => InSet nodes i) i₀ fun _ i => InSet (dropNode nodes v i₀) i := by
  intro x i
  grind [dropNode, VersionedCrdsValue.IsNode, inSet_erase]

theorem put_putNode (hrow : ¬ InSet nodes i₀) :
    Put v.IsNode i₀ (fun (_ : Unit) i => InSet nodes i)
      fun _ i => InSet (putNode nodes v i₀) i := by
  intro x i
  grind [putNode, VersionedCrdsValue.IsNode, inSet_insert]

/-! ## Shards -/

theorem cleared_shards (hrow : ∀ x : Fin (2 ^ shardBits) × BitVec 64,
      shards.Has x.1 i₀ x.2 → v.InShard x) :
    Cleared (fun (x : Fin (2 ^ shardBits) × BitVec 64) i => shards.Has x.1 i x.2) i₀
      fun x i => (shards.remove i₀ v.hash64).Has x.1 i x.2 := by
  intro x i
  grind [VersionedCrdsValue.InShard, CrdsShards.has_remove]

theorem put_shards (hrow : ∀ x : Fin (2 ^ shardBits) × BitVec 64, ¬ shards.Has x.1 i₀ x.2) :
    Put v.InShard i₀ (fun x i => shards.Has x.1 i x.2)
      fun x i => (shards.insert i₀ v.hash64).Has x.1 i x.2 := by
  intro x i
  grind [VersionedCrdsValue.InShard, CrdsShards.has_insert]

end Rows

/-! ## Records -/

variable [LinearOrder Pubkey]

section Records

variable {records : OrdMap Pubkey (IndexSet ℕ)} {pubkey : Pubkey} {s : IndexSet ℕ}

def Recorded (records : OrdMap Pubkey (IndexSet ℕ)) (pubkey : Pubkey) (i : ℕ) : Prop :=
  ∃ s, records.get pubkey = some s ∧ InSet s i

theorem recorded_iff (h : records.get pubkey = some s) (i : ℕ) :
    Recorded records pubkey i ↔ InSet s i := by
  grind [Recorded]

theorem recorded_insert (p : Pubkey) (i : ℕ) :
    Recorded (records.insert pubkey s) p i ↔
      if p = pubkey then InSet s i else Recorded records p i := by
  grind [Recorded, OrdMap.get_insert]

theorem recorded_iff_getD (p : Pubkey) (i : ℕ) :
    Recorded records p i ↔ InSet ((records.get p).getD IndexMap.empty) i := by
  cases h : records.get p with
  | none => simp [Recorded, h, InSet]
  | some s => exact recorded_iff h i

theorem put_records (hrow : ∀ p, ¬ Recorded records p i₀) :
    Put (fun p => pubkey = p) i₀ (Recorded records)
      (Recorded (records.insert pubkey
        (((records.get pubkey).getD IndexMap.empty).insert i₀ ()))) := by
  intro p i
  rw [recorded_insert, inSet_insert, ← recorded_iff_getD]
  grind

/-- A node without values has no record. -/
def Occupied (records : OrdMap Pubkey (IndexSet ℕ)) : Prop :=
  ∀ p s, records.get p = some s → s.size ≠ 0

theorem Occupied.insert (h : Occupied records) (hs : s.size ≠ 0) :
    Occupied (records.insert pubkey s) := by
  grind [Occupied, OrdMap.get_insert]

theorem dropRecord_spec (c : Crds Pubkey Body) (pubkey : Pubkey) (i₀ : ℕ) (hoc : Occupied c.records)
    (h : Recorded c.records pubkey i₀) (hrow : ∀ p, Recorded c.records p i₀ → p = pubkey) :
    ∃ records shredVersions,
      c.dropRecord pubkey i₀ = some { c with records := records, shredVersions := shredVersions } ∧
      Cleared (Recorded c.records) i₀ (Recorded records) ∧ Occupied records := by
  obtain ⟨s, hs, hi₀⟩ := h
  by_cases hz : (s.erase i₀).size = 0
  · refine ⟨c.records.erase pubkey, c.shredVersions.erase pubkey, ?_, ?_, ?_⟩
    · simp [Crds.dropRecord, hs, hz]
    · -- nothing of the node is left
      have hgone : ∀ i, InSet s i → i = i₀ := by
        intro i hi
        by_contra hne
        exact size_ne_zero_of_get ((inSet_erase s i₀ i).mpr ⟨hne, hi⟩) hz
      intro p i
      grind [Recorded, OrdMap.get_erase]
    · grind [Occupied, OrdMap.get_erase]
  · refine ⟨c.records.insert pubkey (s.erase i₀), c.shredVersions, ?_, ?_, hoc.insert hz⟩
    · simp [Crds.dropRecord, hs, hz]
    · intro p i
      have := recorded_iff hs i
      grind [recorded_insert, inSet_erase]

theorem moveRecord_spec (c : Crds Pubkey Body) (pubkey : Pubkey) (last i₀ : ℕ)
    (hoc : Occupied c.records) (h : Recorded c.records pubkey last)
    (hlast : ∀ p, Recorded c.records p last → p = pubkey) (hrow : ∀ p, ¬ Recorded c.records p i₀) :
    ∃ records, c.moveRecord pubkey last i₀ = some { c with records := records } ∧
      Put (fun p => pubkey = p) i₀ (fun p i => i ≠ last ∧ Recorded c.records p i)
        (Recorded records) ∧ Occupied records := by
  obtain ⟨s, hs, -⟩ := h
  have hi₀ : InSet ((s.erase last).insert i₀ ()) i₀ := (inSet_insert _ _ _).mpr (Or.inl rfl)
  refine ⟨c.records.insert pubkey ((s.erase last).insert i₀ ()), ?_, ?_,
    hoc.insert (size_ne_zero_of_get hi₀)⟩
  · simp [Crds.moveRecord, hs]
  · intro p i
    have := recorded_iff hs i
    grind [recorded_insert, inSet_insert, inSet_erase]

end Records

/-! ## The invariant -/

/-- The indices describe the table. -/
structure Consistent (c : Crds Pubkey Body) : Prop where
  /-- A value is under its own label. -/
  labels : ∀ i label v, c.table.nth i = some (label, v) → v.value.label = label
  /-- Ordinals were given out. -/
  ordinals : ∀ i label v, c.table.nth i = some (label, v) → v.ordinal < c.cursor
  feeds : ∀ f, c.table.Indexed (VersionedCrdsValue.InFeed f) fun o i => (c.index f).get o = some i
  shards : c.table.Indexed VersionedCrdsValue.InShard fun x i => c.shards.Has x.1 i x.2
  nodes : c.table.Indexed VersionedCrdsValue.IsNode fun _ i => InSet c.nodes i
  records : c.table.Indexed VersionedCrdsValue.IsOf (Recorded c.records)
  occupied : Occupied c.records

theorem Consistent.new : Consistent (Crds.new : Crds Pubkey Body) where
  labels i label v h := by cases h
  ordinals i label v h := by cases h
  feeds f := Indexed.empty fun o i h => by cases f <;> cases h
  shards := Indexed.empty fun x i => CrdsShards.not_has_new x.1 i x.2
  nodes := Indexed.empty fun x i h => by cases h
  records := Indexed.empty fun p i ⟨s, hs, _⟩ => by cases hs
  occupied p s h := by cases h

/-! ## What each change writes -/

section Changes

variable (c : Crds Pubkey Body) (index : ℕ) (old v : VersionedCrdsValue Pubkey Body) (now : ℕ)

theorem insertVacant_eq : ∃ shredVersions,
    c.insertVacant v = { c with
      table := c.table.insert v.value.label v
      cursor := consume c.cursor v.ordinal
      shards := c.shards.insert c.table.size v.hash64
      nodes := putNode c.nodes v c.table.size
      votes := votes.put c.votes v c.table.size
      epochSlots := epochSlots.put c.epochSlots v c.table.size
      duplicateShreds := duplicateShreds.put c.duplicateShreds v c.table.size
      entries := entries.put c.entries v c.table.size
      records := c.records.insert v.value.pubkey
        ((c.recordsOf v.value.pubkey).insert c.table.size ())
      shredVersions := shredVersions } := by
  obtain ⟨o, ⟨data, body, hash⟩, t, n⟩ := v
  cases data <;> exact ⟨_, rfl⟩

theorem insertOver_eq : ∃ shredVersions,
    c.insertOver index old v now = { c with
      table := c.table.insert v.value.label v
      cursor := consume c.cursor v.ordinal
      shards := (c.shards.remove index old.hash64).insert index v.hash64
      votes := votes.put (votes.drop c.votes v.value.label old.ordinal) v index
      epochSlots := epochSlots.put (epochSlots.drop c.epochSlots v.value.label old.ordinal) v index
      duplicateShreds := duplicateShreds.put
        (duplicateShreds.drop c.duplicateShreds v.value.label old.ordinal) v index
      entries := entries.put (entries.drop c.entries v.value.label old.ordinal) v index
      purged := c.purged ++ [(old.value.hash, now)]
      shredVersions := shredVersions } := by
  obtain ⟨o, ⟨data, body, hash⟩, t, n⟩ := v
  cases data <;> exact ⟨_, rfl⟩

theorem unindex_eq : c.unindex index v now = { c with
    shards := c.shards.remove index v.hash64
    nodes := dropNode c.nodes v index
    votes := votes.drop c.votes v.value.label v.ordinal
    epochSlots := epochSlots.drop c.epochSlots v.value.label v.ordinal
    duplicateShreds := duplicateShreds.drop c.duplicateShreds v.value.label v.ordinal
    entries := entries.drop c.entries v.value.label v.ordinal
    purged := c.purged ++ [(v.value.hash, now)] } := by
  obtain ⟨o, ⟨data, body, hash⟩, t, n⟩ := v
  cases data <;> rfl

theorem reindex_eq (size : ℕ) : c.reindex size index v = { c with
    shards := (c.shards.remove size v.hash64).insert index v.hash64
    nodes := putNode (dropNode c.nodes v size) v index
    votes := votes.put c.votes v index
    epochSlots := epochSlots.put c.epochSlots v index
    duplicateShreds := duplicateShreds.put c.duplicateShreds v index
    entries := entries.put c.entries v index } := by
  obtain ⟨o, ⟨data, body, hash⟩, t, n⟩ := v
  cases data <;> rfl

end Changes

/-! ## Insertion -/

section Insertion

variable {c : Crds Pubkey Body} {i : ℕ} {old v : VersionedCrdsValue Pubkey Body}

variable (h : Consistent c)
include h

theorem Consistent.fresh (f : Feed) {o : ℕ} (ho : c.cursor ≤ o) (i : ℕ) :
    (c.index f).get o ≠ some i := by
  intro hcon
  obtain ⟨label, v, hv, -, rfl⟩ := (h.feeds f o i).mp hcon
  exact absurd (h.ordinals i label v hv) (not_lt.mpr ho)

theorem Consistent.insertVacant (hk : c.table.indexOf v.value.label = none)
    (ho : v.ordinal = c.cursor) : Consistent (c.insertVacant v) := by
  obtain ⟨shredVersions, heq⟩ := insertVacant_eq c v
  have hnth := nth_insert_new hk v
  have hempty : ∀ {ι : Type} {q : VersionedCrdsValue Pubkey Body → ι → Prop} {R : ι → ℕ → Prop},
      c.table.Indexed q R → ∀ x, ¬ R x c.table.size :=
    fun hix x hcon => lt_irrefl _ (hix.lt_size hcon)
  have hfeed : ∀ f, (c.insertVacant v).index f = f.put (c.index f) v c.table.size := by
    intro f
    rw [heq]
    cases f <;> rfl
  rw [heq] at hfeed ⊢
  refine ⟨?_, ?_, fun f => ?_, h.shards.write hnth (put_shards (hempty h.shards)),
    h.nodes.write hnth (put_putNode (hempty h.nodes ())),
    h.records.write hnth (put_records (hempty h.records)),
    h.occupied.insert (size_ne_zero_of_get ((inSet_insert _ _ _).mpr (Or.inl rfl)))⟩
  · grind [Consistent]
  · grind [Consistent, consume]
  · rw [hfeed]
    refine (h.feeds f).write hnth (put_feed (fun o i => ?_) (hempty (h.feeds f)))
    refine (and_iff_right_of_imp fun hi hin => ?_).symm
    exact h.fresh f (ho ▸ hin.2.le) i hi

/-- A value over the one under its label, where the other indices have only its position. -/
theorem Consistent.insertOver (hi : c.table.nth i = some (v.value.label, old))
    (ho : v.ordinal = c.cursor) (now : ℕ) : Consistent (c.insertOver i old v now) := by
  obtain ⟨shredVersions, heq⟩ := insertOver_eq c i old v now
  have hlabel : old.value.label = v.value.label := h.labels i _ old hi
  have hnth := nth_insert_old (indexOf_eq_some_iff.mpr ⟨old, hi⟩) v
  have hfeed : ∀ f, (c.insertOver i old v now).index f =
      f.put (f.drop (c.index f) old.value.label old.ordinal) v i := by
    intro f
    rw [heq, hlabel]
    cases f <;> rfl
  rw [heq] at hfeed ⊢
  refine ⟨?_, ?_, fun f => ?_, ?_, h.nodes.write hnth (h.nodes.put_self hi fun x => ?_),
    h.records.write hnth (h.records.put_self hi fun x => ?_), h.occupied⟩
  · grind [Consistent]
  · grind [Consistent, consume]
  · rw [hfeed]
    have hc := cleared_drop (h.feeds f) hi
    refine (h.feeds f).write hnth (Put.of_cleared hc (put_feed (fun o j => ?_) ?_))
    · refine (and_iff_right_of_imp fun hj hin => ?_).symm
      exact h.fresh f (ho ▸ hin.2.le) j ((hc o j).mp hj).2
    · exact fun o hcon => ((hc o i).mp hcon).1 rfl
  · have hc := cleared_shards fun x => (h.shards.iff hi x).mp
    exact h.shards.write hnth
      (Put.of_cleared hc (put_shards fun x hcon => ((hc x i).mp hcon).1 rfl))
  · rw [VersionedCrdsValue.IsNode, VersionedCrdsValue.IsNode, hlabel]
  · rw [VersionedCrdsValue.IsOf, VersionedCrdsValue.IsOf, CrdsValue.pubkey_of_label hlabel]

/-- An entry with the same value and ordinal, under another time or count. -/
theorem Consistent.rewrite (hi : c.table.nth i = some (label, old))
    (hvalue : v.value = old.value) (ho : v.ordinal = old.ordinal) :
    Consistent { c with table := c.table.insert label v } := by
  have hnth := nth_insert_old (indexOf_eq_some_iff.mpr ⟨old, hi⟩) v
  have hsame : ∀ {ι : Type} {q : VersionedCrdsValue Pubkey Body → ι → Prop} {R : ι → ℕ → Prop},
      c.table.Indexed q R → (∀ x, q v x ↔ q old x) → (c.table.insert label v).Indexed q R :=
    fun hix hq => hix.write hnth (hix.put_self hi hq)
  refine ⟨?_, ?_, fun f => hsame (h.feeds f) fun x => ?_, hsame h.shards fun x => ?_,
    hsame h.nodes fun x => ?_, hsame h.records fun x => ?_, h.occupied⟩
  · grind [Consistent]
  · grind [Consistent]
  all_goals simp only [VersionedCrdsValue.InFeed, VersionedCrdsValue.InShard,
    VersionedCrdsValue.hash64, VersionedCrdsValue.IsNode, VersionedCrdsValue.IsOf, hvalue, ho]

theorem Consistent.purged (purged : List (Hash × ℕ)) :
    Consistent { c with purged := purged } :=
  ⟨h.labels, h.ordinals, fun f => by cases f <;> exact h.feeds _, h.shards, h.nodes, h.records,
    h.occupied⟩

end Insertion

/-! ## Removal -/

/-- Nothing is new: each entry was there, up to its local time and its count. -/
structure Shrinks (c c' : Crds Pubkey Body) : Prop where
  consistent : Consistent c'
  cursor : c'.cursor = c.cursor
  kept : ∀ i label v, c'.table.nth i = some (label, v) →
    ∃ j w, c.table.nth j = some (label, w) ∧ w.ordinal = v.ordinal ∧ w.value = v.value

section Removal

variable {c c₁ : Crds Pubkey Body} {i last : ℕ} {v w : VersionedCrdsValue Pubkey Body}

/-- What the indices are between the two halves of a removal: those of the old table without the
row of the removed value. -/
structure Detached (c c₁ : Crds Pubkey Body) (i : ℕ) : Prop where
  table : c₁.table = c.table.removeAt i
  cursor : c₁.cursor = c.cursor
  feeds : ∀ f, Cleared (fun o j => (c.index f).get o = some j) i
    fun o j => (c₁.index f).get o = some j
  shards : Cleared (fun (x : Fin (2 ^ shardBits) × BitVec 64) j => c.shards.Has x.1 j x.2) i
    fun x j => c₁.shards.Has x.1 j x.2
  nodes : Cleared (fun (_ : Unit) j => InSet c.nodes j) i fun _ j => InSet c₁.nodes j
  records : Cleared (Recorded c.records) i (Recorded c₁.records)
  occupied : Occupied c₁.records

theorem detach_spec (h : Consistent c) (hi : c.table.nth i = some (label, v)) (now : ℕ) :
    ∃ c₁, { c with table := c.table.removeAt i }.detach i v now = some c₁ ∧ Detached c c₁ i := by
  have hown : ∀ p, Recorded c.records p i ↔ v.value.pubkey = p := h.records.iff hi
  obtain ⟨records, shredVersions, hdrop, hclear, hoc⟩ := dropRecord_spec
    ({ c with table := c.table.removeAt i }.unindex i v now) v.value.pubkey i
    (by rw [unindex_eq]; exact h.occupied) (by rw [unindex_eq]; exact (hown _).mpr rfl)
    (by rw [unindex_eq]; exact fun p hp => ((hown p).mp hp).symm)
  refine ⟨_, hdrop, ?_⟩
  rw [unindex_eq] at hclear ⊢
  refine ⟨rfl, rfl, fun f => ?_, cleared_shards fun x => (h.shards.iff hi x).mp,
    cleared_dropNode (h.nodes.iff hi ()).mp, hclear, hoc⟩
  have hc := cleared_drop (h.feeds f) hi
  cases f <;> exact hc

/-- The entries that are left were there. -/
theorem Detached.sub (hd : Detached c c₁ i) (hi : i < c.table.size) {j : ℕ}
    {e : CrdsValueLabel Pubkey × VersionedCrdsValue Pubkey Body} (hj : c₁.table.nth j = some e) :
    ∃ j', c.table.nth j' = some e := by
  rw [hd.table] at hj
  obtain ⟨j', -, hj'⟩ := (exists_nth_removeAt hi).mp ⟨j, hj⟩
  exact ⟨j', hj'⟩

/-- The removed value was the last one: nothing moves. -/
theorem Detached.consistent_last (h : Consistent c) (hd : Detached c c₁ i)
    (hlast : i + 1 = c.table.size) : Consistent c₁ := by
  have hsub := fun {j e} => hd.sub (j := j) (e := e) (by omega)
  refine ⟨?_, ?_, fun f => ?_, ?_, ?_, ?_, hd.occupied⟩
  · grind [Consistent]
  · grind [Consistent, Detached]
  all_goals rw [hd.table]
  exacts [(h.feeds f).removeAt_last hlast (hd.feeds f), h.shards.removeAt_last hlast hd.shards,
    h.nodes.removeAt_last hlast hd.nodes, h.records.removeAt_last hlast hd.records]

/-- The last value moves to the removed position. -/
theorem follow_spec (h : Consistent c) (hd : Detached c c₁ i) (hlast : last + 1 = c.table.size)
    (hw : c.table.nth last = some (label, w)) (hi : i < last) :
    ∃ c₂, c₁.follow last i w = some c₂ ∧ Consistent c₂ ∧ c₂.table = c₁.table ∧
      c₂.cursor = c₁.cursor := by
  -- the row of the last position is still that of the value there
  have hself : ∀ {ι : Type} {q : VersionedCrdsValue Pubkey Body → ι → Prop} {R R₁ : ι → ℕ → Prop},
      c.table.Indexed q R → Cleared R i R₁ → ∀ x, R₁ x last ↔ q w x := by
    intro ι q R R₁ hix hc x
    rw [hc, and_iff_right hi.ne', hix.iff hw]
  have hempty : ∀ {ι : Type} {R R₁ : ι → ℕ → Prop}, Cleared R i R₁ → ∀ x, ¬ R₁ x i :=
    fun hc x hcon => ((hc x i).mp hcon).1 rfl
  have hown : ∀ p, Recorded c₁.records p last ↔ w.value.pubkey = p := hself h.records hd.records
  obtain ⟨records, hmove, hput, hoc⟩ := moveRecord_spec (c₁.reindex last i w) w.value.pubkey last i
    (by rw [reindex_eq]; exact hd.occupied) (by rw [reindex_eq]; exact (hown _).mpr rfl)
    (by rw [reindex_eq]; exact fun p hp => ((hown p).mp hp).symm)
    (by rw [reindex_eq]; exact hempty hd.records)
  refine ⟨_, hmove, ?_, by rw [reindex_eq], by rw [reindex_eq]⟩
  rw [reindex_eq] at hput ⊢
  have hsub := fun {j e} => hd.sub (j := j) (e := e) (by omega)
  refine ⟨?_, ?_, fun f => ?_, ?_, ?_, ?_, hoc⟩
  · grind [Consistent]
  · grind [Consistent, Detached]
  all_goals
    rw [hd.table]
  · have hrow := hself (h.feeds f) (hd.feeds f)
    have hput : Put (w.InFeed f) i (fun o j => j ≠ last ∧ (c₁.index f).get o = some j)
        fun o j => (f.put (c₁.index f) w i).get o = some j := by
      refine put_feed (fun o j => ?_) fun o hcon => hempty (hd.feeds f) o hcon.2
      grind
    refine (h.feeds f).removeAt_moved hlast hw hi (hd.feeds f) (fun o j => Iff.rfl) ?_
    cases f <;> exact hput
  · have hc := cleared_shards fun x => (hself h.shards hd.shards x).mp
    refine h.shards.removeAt_moved hlast hw hi hd.shards hc (put_shards fun x hcon => ?_)
    exact hempty hd.shards x ((hc x i).mp hcon).2
  · have hc := cleared_dropNode (hself h.nodes hd.nodes ()).mp
    refine h.nodes.removeAt_moved hlast hw hi hd.nodes hc (put_putNode fun hcon => ?_)
    exact hempty hd.nodes () ((hc () i).mp hcon).2
  · exact h.records.removeAt_moved hlast hw hi hd.records (fun p j => Iff.rfl) hput

theorem Shrinks.refl (h : Consistent c) : Shrinks c c :=
  ⟨h, rfl, fun i _ v hi => ⟨i, v, hi, rfl, rfl⟩⟩

theorem Consistent.remove (h : Consistent c) (key : CrdsValueLabel Pubkey) (now : ℕ) :
    ∃ c', c.remove key now = some c' ∧ Shrinks c c' := by
  cases hfull : c.table.removeFull key with
  | none => exact ⟨c, by rw [Crds.remove, hfull], .refl h⟩
  | some found =>
    obtain ⟨i, v, table⟩ := found
    obtain ⟨hi, rfl⟩ := removeFull_eq_some hfull
    have hlt : i < c.table.size := lt_size hi
    obtain ⟨c₁, hdetach, hd⟩ := detach_spec h hi now
    have hkept : ∀ j label u, c₁.table.nth j = some (label, u) →
        ∃ k w, c.table.nth k = some (label, w) ∧ w.ordinal = u.ordinal ∧ w.value = u.value := by
      intro j label u hj
      obtain ⟨k, hk⟩ := hd.sub hlt hj
      exact ⟨k, u, hk, rfl, rfl⟩
    have hsize : c₁.table.size + 1 = c.table.size := by
      rw [hd.table, size_removeAt hlt]
      omega
    rw [Crds.remove, hfull]
    dsimp only
    rw [hdetach, bind_eq_bind, bind_some]
    by_cases hlast : i < c₁.table.size
    · -- the last entry has moved to the position
      have hmoved : c₁.table.nth i = c.table.nth c₁.table.size := by
        rw [hd.table, nth_removeAt hlt, ← hd.table, if_pos (by omega), if_pos rfl]
        grind
      obtain ⟨⟨label, w⟩, hw⟩ : ∃ e, c.table.nth c₁.table.size = some e := by
        rw [← isSome_iff_exists, isSome_iff_ne_none, Ne, nth_eq_none_iff]
        omega
      obtain ⟨c₂, hfollow, h₂, htable, hcursor⟩ := follow_spec h hd hsize hw hlast
      refine ⟨c₂, ?_, h₂, hcursor.trans hd.cursor, htable ▸ hkept⟩
      rw [if_pos hlast, hmoved, hw, bind_eq_bind, bind_some, hfollow]
    · rw [if_neg hlast]
      exact ⟨c₁, rfl, hd.consistent_last h (by omega), hd.cursor, hkept⟩

end Removal

end Salsa.Gossip
