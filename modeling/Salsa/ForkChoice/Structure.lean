import Salsa.ForkChoice.Ops
import Salsa.Lib.Subtree

/-!
# Salsa.ForkChoice.Structure — the blocks form a tree

`Wf`: parents and children agree, and the slot of a block is above that of its parent.
So the entries are a forest (`Wf.forest`), and the walks of the source go over whole
subtrees: `subtreeDiff_spec`, `moveSubtree_spec`. `Rooted`: the root is the only block
without a parent, so every block is below it.
-/

namespace Salsa.ForkChoice

open OrdMap List Function Relation Option Forest

variable {Hash : Type} [LinearOrder Hash]

abbrev Entries (Hash : Type) [LinearOrder Hash] : Type :=
  SlotHashKey Hash → Option (ForkInfo Hash)

def parentOf (f : Entries Hash) (key : SlotHashKey Hash) : Option (SlotHashKey Hash) :=
  (f key).bind ForkInfo.parent

def childrenOf (f : Entries Hash) (key : SlotHashKey Hash) : List (SlotHashKey Hash) :=
  (f key).elim [] fun info => info.children.keys

variable {f g : Entries Hash} {k p c root : SlotHashKey Hash} {i j : ForkInfo Hash}
  {a b : SlotHashKey Hash}

theorem parentOf_of_some (h : f k = some i) : parentOf f k = i.parent := by
  rw [parentOf, h]
  rfl

theorem parentOf_eq_some : parentOf f k = some p ↔ ∃ i, f k = some i ∧ i.parent = some p :=
  bind_eq_some_iff

theorem childrenOf_of_some (h : f k = some i) : childrenOf f k = i.children.keys := by
  rw [childrenOf, h]
  rfl

theorem mem_childrenOf : c ∈ childrenOf f k ↔ ∃ i, f k = some i ∧ c ∈ i.children.keys := by
  constructor
  · intro h
    cases hk : f k with
    | none =>
      rw [childrenOf, hk] at h
      cases h
    | some i => exact ⟨i, rfl, childrenOf_of_some hk ▸ h⟩
  · rintro ⟨i, hk, hc⟩
    rw [childrenOf_of_some hk]
    exact hc

/-! ## Well-formed entries -/

/-- Parents and children agree, and slots grow from parents to children. Blocks at slot
zero are roots, and roots are duplicate confirmed when they are added. -/
structure Wf (f : Entries Hash) : Prop where
  parent_mem : ∀ {k p}, parentOf f k = some p → k ∈ childrenOf f p
  child_mem : ∀ {k c}, c ∈ childrenOf f k → parentOf f c = some k
  slot_lt : ∀ {k p}, parentOf f k = some p → p.slot < k.slot
  zero : ∀ {k i}, f k = some i → k.slot = 0 → i.isDuplicateConfirmed = true

/-- The root is the only block without a parent. -/
structure Rooted (f : Entries Hash) (root : SlotHashKey Hash) : Prop where
  root_mem : ∃ i, f root = some i
  parent_none : ∀ {k i}, f k = some i → (i.parent = none ↔ k = root)

theorem mem_childrenOf_iff (h : Wf f) : c ∈ childrenOf f k ↔ parentOf f c = some k :=
  ⟨h.child_mem, h.parent_mem⟩

theorem Wf.child_lt (h : Wf f) (hc : c ∈ childrenOf f k) : k < c :=
  SlotHashKey.lt_of_slot (h.slot_lt (h.child_mem hc))

/-- A parent has an entry. -/
theorem Wf.parent_some (h : Wf f) (hp : parentOf f k = some p) : ∃ j, f p = some j := by
  obtain ⟨j, hj, -⟩ := mem_childrenOf.mp (h.parent_mem hp)
  exact ⟨j, hj⟩

/-- The blocks with their parents as a forest. -/
def Wf.forest (h : Wf f) : Forest (SlotHashKey Hash) where
  parent := parentOf f
  rank := SlotHashKey.slot
  rank_lt := h.slot_lt

/-- The block is on the path to `k`, and not `k` itself. -/
def Ancestor (f : Entries Hash) : SlotHashKey Hash → SlotHashKey Hash → Prop :=
  Relation.TransGen fun a b => parentOf f b = some a

/-- `b` is in the subtree of `a`. -/
def Below (f : Entries Hash) : SlotHashKey Hash → SlotHashKey Hash → Prop :=
  Relation.ReflTransGen fun a b => parentOf f b = some a

/-- Every block is below the root. -/
theorem Rooted.below (hr : Rooted f root) (h : Wf f) (hk : f k = some i) : Below f root k := by
  -- up from the block: the slots decrease
  induction hn : k.slot using Nat.strong_induction_on generalizing k i with
  | _ n ih =>
    cases hp : i.parent with
    | none =>
      rw [(hr.parent_none hk).mp hp]
      exact .refl
    | some p =>
      have hpar : parentOf f k = some p := (parentOf_of_some hk).trans hp
      obtain ⟨j, hj⟩ := h.parent_some hpar
      exact .tail (ih p.slot (hn ▸ h.slot_lt hpar) hj rfl) hpar

/-- A block below another has an entry if that has one. -/
theorem below_some (h : Below f a b) (ha : ∃ i, f a = some i) : ∃ i, f b = some i := by
  rcases ReflTransGen.cases_tail h with rfl | ⟨x, -, hx⟩
  · exact ha
  · obtain ⟨i, hi, -⟩ := parentOf_eq_some.mp hx
    exact ⟨i, hi⟩

variable {infos : ForkInfos Hash} {key x p : SlotHashKey Hash}

theorem mem_keys_iff : k ∈ infos.keys.toFinset ↔ ∃ i, infos.get k = some i := by
  rw [List.mem_toFinset, OrdMap.mem_keys, isSome_iff_exists]

/-- From the children to their parents. -/
theorem Wf.up_induction (h : Wf infos.get) {P : SlotHashKey Hash → Prop}
    (step : ∀ k i, infos.get k = some i → (∀ c ∈ i.children.keys, P c) → P k) :
    ∀ k i, infos.get k = some i → P k := by
  intro k i hi
  refine Forest.up_induction (F := h.forest) ?_ k (mem_keys_iff.mpr ⟨i, hi⟩)
  intro k hk ih
  obtain ⟨i, hi⟩ := mem_keys_iff.mp hk
  apply step k i hi
  intro c hc
  rw [← childrenOf_of_some hi] at hc
  obtain ⟨j, hj, -⟩ := parentOf_eq_some.mp (h.child_mem hc)
  exact ih c (mem_keys_iff.mpr ⟨j, hj⟩) (h.child_mem hc)

/-! ## The ancestors -/

theorem ancestorsWithin_eq (h : Wf infos.get) (n : ℕ)
    (key : SlotHashKey Hash) : ancestorsWithin infos n key = h.forest.ancestorsWithin n key := by
  induction n generalizing key with
  | zero => rfl
  | succ n ih =>
    rw [ancestorsWithin, Forest.ancestorsWithin]
    congr 1
    funext p
    rw [ih]

theorem mem_ancestorIterator (h : Wf infos.get)
    {a key : SlotHashKey Hash} : a ∈ ancestorIterator infos key ↔ Ancestor infos.get a key := by
  rw [ancestorIterator, ancestorsWithin_eq h]
  exact mem_ancestorsWithin (Nat.le_refl _)

/-! ## Walks -/

theorem card_nodes : infos.keys.toFinset.card = infos.keys.length :=
  toFinset_card_of_nodup keys_nodup

theorem childrenOf_nodup (f : Entries Hash) (key : SlotHashKey Hash) :
    (childrenOf f key).Nodup := by
  unfold childrenOf
  cases f key with
  | none => exact nodup_nil
  | some i => exact keys_nodup

/-- `subtree_diff` reaches the blocks from `root1` on, not past `root2`. -/
theorem subtreeDiff_spec (h : Wf infos.get) {root1 : SlotHashKey Hash} (root2 : SlotHashKey Hash)
    (h1 : ∃ i, infos.get root1 = some i) :
    ∃ R, subtreeDiff infos root1 root2 = some R ∧
      ∀ x, x ∈ R.keys ↔ (h.forest.cut root2).Below root1 x ∧ x ≠ root2 := by
  have hcovers : Visit.Covers (h.forest.cut root2) infos.keys.toFinset
      fun k => if k = root2 then [] else childrenOf infos.get k := by
    constructor
    · intro k _
      split_ifs
      · exact nodup_nil
      · exact childrenOf_nodup _ k
    · intro k _ c
      rw [cut_parent]
      split_ifs with hk
      · exact ⟨fun hc => (not_mem_nil hc).elim, fun hc => (hc.2 hk).elim⟩
      · rw [mem_childrenOf_iff h, and_iff_left hk]
        rfl
    · intro k c _ hc
      obtain ⟨i, hi, -⟩ := parentOf_eq_some.mp (cut_parent.mp hc).1
      exact mem_keys_iff.mpr ⟨i, hi⟩
  obtain ⟨R, seen, hloop, hrel, hseen⟩ := Visit.loop_spec
    (fun reachable key =>
      if key = root2 then some ([], reachable)
      else (infos.get key).map fun info => (info.children.keys, reachable.insert key ()))
    (fun seen (R : OrdSet (SlotHashKey Hash)) => ∀ x, x ∈ R.keys ↔ x ∈ seen ∧ x ≠ root2)
    (s := .empty) (mem_keys_iff.mpr h1) (by intro x; simp [OrdMap.mem_keys]) hcovers (by
      intro seen R k hR hk _
      obtain ⟨i, hi⟩ := mem_keys_iff.mp hk
      by_cases hk2 : k = root2
      · refine ⟨R, by rw [if_pos hk2, if_pos hk2], ?_⟩
        intro x
        rw [hR, Finset.mem_insert]
        constructor
        · exact fun hx => ⟨Or.inr hx.1, hx.2⟩
        · exact fun hx => ⟨hx.1.resolve_left fun hxk => hx.2 (hxk.trans hk2), hx.2⟩
      · refine ⟨R.insert k (), by rw [if_neg hk2, if_neg hk2, hi, childrenOf_of_some hi]; rfl, ?_⟩
        intro x
        rw [mem_keys_insert, hR, Finset.mem_insert, or_and_right]
        constructor
        · exact Or.imp_left fun hx => ⟨hx, hx ▸ hk2⟩
        · exact Or.imp_left And.left)
  refine ⟨R, ?_, fun x => (hrel x).trans (and_congr_left fun _ => hseen x)⟩
  rw [subtreeDiff, if_pos (OrdMap.contains_iff.mpr h1), ← card_nodes]
  exact hloop

/-- With the root of the tree as `root1`: the blocks that are not below `root2`. -/
theorem subtreeDiff_rooted (h : Wf infos.get) (hr : Rooted infos.get root)
    (newRoot : SlotHashKey Hash) :
    ∃ R, subtreeDiff infos root newRoot = some R ∧
      ∀ x, x ∈ R.keys ↔ (∃ i, infos.get x = some i) ∧ ¬ Below infos.get newRoot x := by
  obtain ⟨R, hR, hmem⟩ := subtreeDiff_spec h newRoot hr.root_mem
  refine ⟨R, hR, ?_⟩
  -- down from the root: a block is met, or it is below the new root
  have hmet : ∀ x, Below infos.get root x → x ∈ R.keys ∨ Below infos.get newRoot x := by
    intro x hx
    induction hx with
    | refl =>
      by_cases hroot : root = newRoot
      · exact Or.inr (hroot ▸ .refl)
      · exact Or.inl ((hmem root).mpr ⟨.refl root, hroot⟩)
    | @tail y x _ hx ih =>
      rcases ih with hy | hy
      · obtain ⟨hbelow, hne⟩ := (hmem y).mp hy
        by_cases hxn : x = newRoot
        · exact Or.inr (hxn ▸ .refl)
        · exact Or.inl ((hmem x).mpr ⟨hbelow.child (cut_parent.mpr ⟨hx, hne⟩), hxn⟩)
      · exact Or.inr (.tail hy hx)
  -- and not both: the way down stops at the new root
  have hnot : ∀ x, (h.forest.cut newRoot).Below root x → x ≠ newRoot →
      ¬ Below infos.get newRoot x := by
    intro x hx
    induction hx with
    | refl =>
      intro hne hbelow
      rcases ReflTransGen.cases_tail hbelow with heq | ⟨y, -, hy⟩
      · exact hne heq
      · obtain ⟨i, hi, hp⟩ := parentOf_eq_some.mp hy
        rw [(hr.parent_none hi).mpr rfl] at hp
        cases hp
    | @tail y x _ hx ih =>
      intro hne hbelow
      obtain ⟨hyx, hy⟩ := cut_parent.mp hx
      rcases ReflTransGen.cases_tail hbelow with heq | ⟨z, hz, hzx⟩
      · exact hne heq
      · have hyz : some y = some z := Eq.trans (Eq.symm hyx) hzx
        cases hyz
        exact ih hy hz
  intro x
  constructor
  · intro hx
    obtain ⟨hbelow, hne⟩ := (hmem x).mp hx
    exact ⟨below_some (below_of_cut hbelow) hr.root_mem, hnot x hbelow hne⟩
  · rintro ⟨⟨i, hi⟩, hx⟩
    exact (hmet x (hr.below h hi)).resolve_right hx

/-- Removing distinct blocks that are there. -/
theorem foldlM_remove (infos : ForkInfos Hash) {keys : List (SlotHashKey Hash)}
    (hnodup : keys.Nodup) (hmem : ∀ k ∈ keys, ∃ i, infos.get k = some i) :
    ∃ infos', keys.foldlM remove infos = some infos' ∧
      ∀ x, infos'.get x = if x ∈ keys then none else infos.get x := by
  induction keys generalizing infos with
  | nil => exact ⟨infos, rfl, fun x => (if_neg not_mem_nil).symm⟩
  | cons k keys ih =>
    obtain ⟨hk, hnodup'⟩ := nodup_cons.mp hnodup
    have hrest : ∀ j ∈ keys, ∃ i, (infos.erase k).get j = some i := by
      intro j hj
      rw [get_erase, if_neg fun hjk : j = k => hk (hjk ▸ hj)]
      exact hmem j (mem_cons_of_mem k hj)
    obtain ⟨infos', hfold, hget⟩ := ih (infos.erase k) hnodup' hrest
    refine ⟨infos', ?_, ?_⟩
    · rw [foldlM_cons, remove, if_pos (OrdMap.contains_iff.mpr (hmem k mem_cons_self))]
      exact hfold
    · intro x
      rw [hget, get_erase]
      by_cases hxk : x = k
      · rw [if_pos hxk, if_pos (mem_cons.mpr (Or.inl hxk)), ite_self]
      · rw [if_neg hxk]
        exact if_congr (mem_cons.trans (or_iff_right hxk)).symm rfl rfl

/-- The loop of `split_off` moves the subtree of the block, whose parent has let go of it. -/
theorem moveSubtree_spec (infos : ForkInfos Hash) (h : Wf f)
    (hkey : ∃ i, f key = some i) (hdom : ∀ x, (∃ i, infos.get x = some i) ↔ ∃ i, f x = some i)
    (hkids : ∀ x c, c ∈ childrenOf infos.get x ↔ c ∈ childrenOf f x ∧ c ≠ key) :
    ∃ rest split, HeaviestSubtreeForkChoice.moveSubtree infos key = some (rest, split) ∧
      ∀ x, (Below f key x → rest.get x = none ∧ split.get x = infos.get x) ∧
        (¬ Below f key x → rest.get x = infos.get x ∧ split.get x = none) := by
  have hcovers : Visit.Covers (h.forest.detach key) infos.keys.toFinset (childrenOf infos.get) := by
    constructor
    · exact fun k _ => childrenOf_nodup _ k
    · intro k _ c
      rw [hkids, detach_parent, mem_childrenOf_iff h, and_comm]
      rfl
    · intro k c _ hc
      obtain ⟨i, hi, -⟩ := parentOf_eq_some.mp (detach_parent.mp hc).2
      exact mem_keys_iff.mpr ((hdom c).mpr ⟨i, hi⟩)
  obtain ⟨⟨rest, split⟩, seen, hloop, hrel, hseen⟩ := Visit.loop_spec
    (fun m current => do
      let info ← m.1.get current
      some (info.children.keys, m.1.erase current, m.2.insert current info))
    (fun seen (m : ForkInfos Hash × ForkInfos Hash) =>
      ∀ x, (x ∈ seen → m.1.get x = none ∧ m.2.get x = infos.get x) ∧
        (x ∉ seen → m.1.get x = infos.get x ∧ m.2.get x = none))
    (s := (infos, .empty)) (mem_keys_iff.mpr ((hdom key).mpr hkey)) (by simp) hcovers (by
      rintro seen ⟨m, m'⟩ k hm hk hnot
      obtain ⟨i, hi⟩ := mem_keys_iff.mp hk
      refine ⟨(m.erase k, m'.insert k i), ?_, ?_⟩
      · rw [((hm k).2 hnot).1, hi, childrenOf_of_some hi]
        rfl
      · intro x
        rw [get_erase, get_insert, Finset.mem_insert]
        by_cases hx : x = k
        · rw [if_pos hx, if_pos hx, hx, hi]
          exact ⟨fun _ => ⟨rfl, rfl⟩, fun hxk => (hxk (Or.inl rfl)).elim⟩
        · rw [if_neg hx, if_neg hx, or_iff_right hx]
          exact hm x)
  refine ⟨rest, split, ?_, ?_⟩
  · rw [HeaviestSubtreeForkChoice.moveSubtree, ← card_nodes]
    exact hloop
  · intro x
    rw [← show x ∈ seen ↔ Below f key x from (hseen x).trans detach_below]
    exact hrel x

/-! ## Parts of a tree -/

/-- The subtree of a block, with the block as its root. -/
structure IsSubtree (f g : Entries Hash) (key : SlotHashKey Hash) : Prop where
  root : ∃ i, f key = some i ∧ g key = some { i with parent := none }
  below : ∀ {x}, Below f key x → x ≠ key → g x = f x
  other : ∀ {x}, ¬ Below f key x → g x = none

/-- What is left without the subtree of a block. -/
structure IsRest (f g : Entries Hash) (key : SlotHashKey Hash) : Prop where
  below : ∀ {x}, Below f key x → g x = none
  mem : ∀ {x}, ¬ Below f key x → ((∃ i, g x = some i) ↔ ∃ i, f x = some i)
  parent : ∀ {x}, ¬ Below f key x → parentOf g x = parentOf f x
  children : ∀ {x c}, ¬ Below f key x → (c ∈ childrenOf g x ↔ c ∈ childrenOf f x ∧ c ≠ key)
  confirmed : ∀ {x i j}, f x = some i → g x = some j → i.isDuplicateConfirmed = true →
    j.isDuplicateConfirmed = true

/-- A block is not below its own child. -/
theorem Wf.not_below_parent (h : Wf f) (hc : parentOf f c = some p) : ¬ Below f c p := by
  intro hbelow
  have hle := Forest.Below.rank_le (F := h.forest) hbelow
  have hlt := h.slot_lt hc
  exact absurd (show c.slot ≤ p.slot from hle) (Nat.not_le.mpr hlt)

/-- A block below another, but not that block, has its parent there. -/
theorem below_parent (h : Below f a b) (hne : b ≠ a) :
    ∃ p, parentOf f b = some p ∧ Below f a p := by
  rcases ReflTransGen.cases_tail h with heq | ⟨p, hp, hb⟩
  · exact (hne heq).elim
  · exact ⟨p, hb, hp⟩

namespace IsSubtree

section

variable (hs : IsSubtree f g key)
include hs

theorem parentOf_iff : parentOf g x = some p ↔ Below f key x ∧ x ≠ key ∧ parentOf f x = some p := by
  by_cases hx : x = key
  · obtain ⟨i, -, hg⟩ := hs.root
    rw [hx, parentOf_of_some hg]
    exact ⟨fun h => Option.noConfusion rfl (heq_of_eq h), fun h => (h.2.1 rfl).elim⟩
  · by_cases hb : Below f key x
    · rw [parentOf, hs.below hb hx, and_iff_right hb, and_iff_right hx]
      rfl
    · rw [parentOf, hs.other hb]
      exact ⟨fun h => Option.noConfusion rfl (heq_of_eq h), fun h => (hb h.1).elim⟩

theorem childrenOf_eq (hx : Below f key x) : childrenOf g x = childrenOf f x := by
  by_cases hkey : x = key
  · obtain ⟨i, hf, hg⟩ := hs.root
    rw [hkey, childrenOf_of_some hf, childrenOf_of_some hg]
  · rw [childrenOf, hs.below hx hkey]
    rfl

theorem below_of_some (hx : g x = some i) : Below f key x := by
  by_contra hb
  rw [hs.other hb] at hx
  cases hx

theorem wf (h : Wf f) : Wf g := by
  constructor
  case parent_mem =>
    intro k p hp
    obtain ⟨hb, hne, hf⟩ := hs.parentOf_iff.mp hp
    obtain ⟨p', hp', hbelow⟩ := below_parent hb hne
    rw [hf] at hp'
    cases hp'
    rw [hs.childrenOf_eq hbelow]
    exact h.parent_mem hf
  case child_mem =>
    intro k c hc
    obtain ⟨i, hi, -⟩ := mem_childrenOf.mp hc
    have hb := hs.below_of_some hi
    rw [hs.childrenOf_eq hb] at hc
    have hf := h.child_mem hc
    refine hs.parentOf_iff.mpr ⟨.tail hb hf, ?_, hf⟩
    rintro rfl
    exact h.not_below_parent hf hb
  case slot_lt =>
    intro k p hp
    exact h.slot_lt (hs.parentOf_iff.mp hp).2.2
  case zero =>
    intro k i hi hk
    by_cases hkey : k = key
    · obtain ⟨j, hf, hg⟩ := hs.root
      rw [hkey, hg] at hi
      cases hi
      exact (h.zero hf (hkey ▸ hk) :)
    · exact h.zero ((hs.below (hs.below_of_some hi) hkey) ▸ hi) hk

theorem rooted : Rooted g key := by
  constructor
  · obtain ⟨i, -, hg⟩ := hs.root
    exact ⟨_, hg⟩
  · intro k i hi
    constructor
    · intro hp
      by_contra hkey
      obtain ⟨p, hf, -⟩ := below_parent (hs.below_of_some hi) hkey
      rw [parentOf, ← hs.below (hs.below_of_some hi) hkey, hi] at hf
      cases hp.symm.trans hf
    · rintro rfl
      obtain ⟨j, -, hg⟩ := hs.root
      rw [hg] at hi
      cases hi
      rfl

end

end IsSubtree

namespace IsRest

variable (hs : IsRest f g key)
include hs

theorem not_below_of_some (hx : g x = some i) : ¬ Below f key x := by
  intro hb
  rw [hs.below hb] at hx
  cases hx

theorem parentOf_iff : parentOf g x = some p ↔ ¬ Below f key x ∧ parentOf f x = some p := by
  constructor
  · intro hp
    obtain ⟨i, hi, -⟩ := parentOf_eq_some.mp hp
    have hx := hs.not_below_of_some hi
    exact ⟨hx, hs.parent hx ▸ hp⟩
  · rintro ⟨hx, hp⟩
    exact (hs.parent hx).trans hp

theorem wf (h : Wf f) : Wf g := by
  constructor
  case parent_mem =>
    intro k p hp
    obtain ⟨hb, hf⟩ := hs.parentOf_iff.mp hp
    apply (hs.children fun hbp => hb (.tail hbp hf)).mpr
    refine ⟨h.parent_mem hf, ?_⟩
    rintro rfl
    exact hb .refl
  case child_mem =>
    intro k c hc
    obtain ⟨i, hi, -⟩ := mem_childrenOf.mp hc
    have hb := hs.not_below_of_some hi
    obtain ⟨hcf, hne⟩ := (hs.children hb).mp hc
    have hf := h.child_mem hcf
    refine hs.parentOf_iff.mpr ⟨?_, hf⟩
    intro hbc
    obtain ⟨p, hp, hbp⟩ := below_parent hbc hne
    rw [hf] at hp
    cases hp
    exact hb hbp
  case slot_lt =>
    intro k p hp
    exact h.slot_lt (hs.parentOf_iff.mp hp).2
  case zero =>
    intro k j hj hk
    obtain ⟨i, hi⟩ := (hs.mem (hs.not_below_of_some hj)).mp ⟨j, hj⟩
    exact hs.confirmed hi hj (h.zero hi hk)

theorem rooted (hr : Rooted f root) (hne : key ≠ root) : Rooted g root := by
  have hroot : ¬ Below f key root := by
    intro hb
    obtain ⟨p, hp, -⟩ := below_parent hb (Ne.symm hne)
    obtain ⟨i, hi, hip⟩ := parentOf_eq_some.mp hp
    cases ((hr.parent_none hi).mpr rfl).symm.trans hip
  constructor
  · exact (hs.mem hroot).mpr hr.root_mem
  · intro k j hj
    have hk := hs.not_below_of_some hj
    obtain ⟨i, hi⟩ := (hs.mem hk).mp ⟨j, hj⟩
    rw [← parentOf_of_some hj, hs.parent hk, parentOf_of_some hi]
    exact hr.parent_none hi

end IsRest

/-! ## Changes that keep the tree -/

/-- The entry of the same block, with the same place in the tree. -/
structure Kept (i j : ForkInfo Hash) : Prop where
  parent : j.parent = i.parent
  children : j.children = i.children
  confirmed : i.isDuplicateConfirmed = true → j.isDuplicateConfirmed = true

theorem Kept.refl (i : ForkInfo Hash) : Kept i i := ⟨rfl, rfl, id⟩

theorem Kept.trans {i j l : ForkInfo Hash} (h : Kept i j) (h' : Kept j l) : Kept i l :=
  ⟨h'.parent.trans h.parent, h'.children.trans h.children, h'.confirmed ∘ h.confirmed⟩

/-- The same blocks, with the same tree. -/
structure Keeps (f g : Entries Hash) : Prop where
  to_some : ∀ {k i}, f k = some i → ∃ j, g k = some j ∧ Kept i j
  of_some : ∀ {k j}, g k = some j → ∃ i, f k = some i ∧ Kept i j

namespace Keeps

theorem refl (f : Entries Hash) : Keeps f f := ⟨fun h => ⟨_, h, .refl _⟩, fun h => ⟨_, h, .refl _⟩⟩

section

variable (h : Keeps f g)
include h

theorem trans {l : Entries Hash} (h' : Keeps g l) : Keeps f l := by
  constructor
  · intro k i hi
    obtain ⟨j, hj, hij⟩ := h.to_some hi
    obtain ⟨m, hm, hjm⟩ := h'.to_some hj
    exact ⟨m, hm, hij.trans hjm⟩
  · intro k m hm
    obtain ⟨j, hj, hjm⟩ := h'.of_some hm
    obtain ⟨i, hi, hij⟩ := h.of_some hj
    exact ⟨i, hi, hij.trans hjm⟩

theorem eq_none (hk : f k = none) : g k = none := by
  apply eq_none_iff_forall_ne_some.mpr
  intro j hj
  obtain ⟨i, hi, -⟩ := h.of_some hj
  cases hk.symm.trans hi

theorem some_iff : (∃ j, g k = some j) ↔ ∃ i, f k = some i := by
  constructor
  · rintro ⟨j, hj⟩
    obtain ⟨i, hi, -⟩ := h.of_some hj
    exact ⟨i, hi⟩
  · rintro ⟨i, hi⟩
    obtain ⟨j, hj, -⟩ := h.to_some hi
    exact ⟨j, hj⟩

theorem update (hk : g k = some i) (hij : Kept i j) : Keeps f (update g k (some j)) := by
  apply h.trans
  constructor
  · intro x l hl
    by_cases hx : x = k
    · rw [hx, hk] at hl
      cases hl
      exact ⟨j, hx ▸ update_self k _ g, hij⟩
    · exact ⟨l, (update_of_ne hx _ g).trans hl, .refl l⟩
  · intro x l hl
    by_cases hx : x = k
    · rw [hx, update_self] at hl
      cases hl
      exact ⟨i, hx ▸ hk, hij⟩
    · rw [update_of_ne hx] at hl
      exact ⟨l, hl, .refl l⟩

theorem parentOf_eq (k : SlotHashKey Hash) : parentOf g k = parentOf f k := by
  cases hf : f k with
  | none => rw [parentOf, parentOf, hf, h.eq_none hf]
  | some i =>
    obtain ⟨j, hj, hij⟩ := h.to_some hf
    rw [parentOf_of_some hf, parentOf_of_some hj, hij.parent]

theorem childrenOf_eq (k : SlotHashKey Hash) : childrenOf g k = childrenOf f k := by
  cases hf : f k with
  | none => rw [childrenOf, childrenOf, hf, h.eq_none hf]
  | some i =>
    obtain ⟨j, hj, hij⟩ := h.to_some hf
    rw [childrenOf_of_some hf, childrenOf_of_some hj, hij.children]

theorem below_iff (a b : SlotHashKey Hash) : Below g a b ↔ Below f a b := by
  unfold Below
  rw [funext h.parentOf_eq]

theorem wf (hf : Wf f) : Wf g := by
  constructor
  case parent_mem =>
    intro k p hp
    rw [h.parentOf_eq] at hp
    rw [h.childrenOf_eq]
    exact hf.parent_mem hp
  case child_mem =>
    intro k c hc
    rw [h.childrenOf_eq] at hc
    rw [h.parentOf_eq]
    exact hf.child_mem hc
  case slot_lt =>
    intro k p hp
    rw [h.parentOf_eq] at hp
    exact hf.slot_lt hp
  case zero =>
    intro k j hj hk
    obtain ⟨i, hi, hij⟩ := h.of_some hj
    exact hij.confirmed (hf.zero hi hk)

theorem rooted (hr : Rooted f root) : Rooted g root := by
  constructor
  · obtain ⟨i, hi⟩ := hr.root_mem
    obtain ⟨j, hj, -⟩ := h.to_some hi
    exact ⟨j, hj⟩
  · intro k j hj
    obtain ⟨i, hi, hij⟩ := h.of_some hj
    rw [hij.parent]
    exact hr.parent_none hi

end

end Keeps

end Salsa.ForkChoice
