import Salsa.ForkChoice.Batches

/-!
# Salsa.ForkChoice.Leaf — adding a leaf

A leaf is added without update operations: two walks from its parent towards the root
correct the best slots and the heights. What they may change is `Frame`
(`propagateNewLeaf_frame`).
-/

namespace Salsa.ForkChoice

open OrdMap List Option

variable {Hash : Type} [LinearOrder Hash] {f g : Entries Hash} {k c : SlotHashKey Hash}
  {i j : ForkInfo Hash} {infos infos' : ForkInfos Hash}

/-! ## What the walks change -/

/-- Best slots, heights and deepest slots may differ. -/
def Frame (f g : Entries Hash) : Prop :=
  ∀ k, ∃ b h d, g k = (f k).map fun i => { i with bestSlot := b, height := h, deepestSlot := d }

/-- Best slots may differ. -/
def BestFrame (f g : Entries Hash) : Prop :=
  ∀ k, ∃ b, g k = (f k).map fun i => { i with bestSlot := b }

/-- Heights and deepest slots may differ. -/
def DepthFrame (f g : Entries Hash) : Prop :=
  ∀ k, ∃ h d, g k = (f k).map fun i => { i with height := h, deepestSlot := d }

theorem Frame.of_some (hfr : Frame f g) (hj : g k = some j) :
    ∃ i, f k = some i ∧ ∃ b h d, j = { i with bestSlot := b, height := h, deepestSlot := d } := by
  obtain ⟨b, h, d, hg⟩ := hfr k
  rw [hj] at hg
  obtain ⟨i, hi, rfl⟩ := map_eq_some_iff.mp hg.symm
  exact ⟨i, hi, b, h, d, rfl⟩

theorem Frame.to_some (hfr : Frame f g) (hi : f k = some i) :
    ∃ b h d, g k = some { i with bestSlot := b, height := h, deepestSlot := d } := by
  obtain ⟨b, h, d, hg⟩ := hfr k
  rw [hi] at hg
  exact ⟨b, h, d, hg⟩

theorem Frame.keeps (hfr : Frame f g) : Keeps f g := by
  constructor
  · intro k i hi
    obtain ⟨b, h, d, hg⟩ := hfr.to_some hi
    exact ⟨_, hg, rfl, rfl, id⟩
  · intro k j hj
    obtain ⟨i, hi, b, h, d, rfl⟩ := hfr.of_some hj
    exact ⟨i, hi, rfl, rfl, id⟩

theorem Frame.trans {l : Entries Hash} (h : Frame f g) (h' : Frame g l) : Frame f l := by
  intro k
  obtain ⟨b, h, d, hg⟩ := h k
  obtain ⟨b', h', d', hl⟩ := h' k
  refine ⟨b', h', d', ?_⟩
  rw [hl, hg, Option.map_map]
  rfl

/-- A field that the walks leave alone. -/
theorem Frame.field {β : Type} (hfr : Frame f g) (φ : ForkInfo Hash → β) (default : β)
    (hφ : ∀ i b h d, φ { i with bestSlot := b, height := h, deepestSlot := d } = φ i)
    (k : SlotHashKey Hash) : (g k).elim default φ = (f k).elim default φ := by
  obtain ⟨b, h, d, hg⟩ := hfr k
  rw [hg]
  cases f k with
  | none => rfl
  | some i => exact hφ i b h d

theorem Frame.stakeOf (hfr : Frame f g) (k : SlotHashKey Hash) :
    stakeOf g k = ForkChoice.stakeOf f k := hfr.field _ _ (fun _ _ _ _ => rfl) k

theorem Frame.candidateOf (hfr : Frame f g) (k : SlotHashKey Hash) :
    candidateOf g k = ForkChoice.candidateOf f k := hfr.field _ _ (fun _ _ _ _ => rfl) k

theorem Frame.confirmedOf (hfr : Frame f g) (k : SlotHashKey Hash) :
    confirmedOf g k = ForkChoice.confirmedOf f k := hfr.field _ _ (fun _ _ _ _ => rfl) k

theorem BestFrame.frame (hfr : BestFrame f g) : Frame f g := by
  intro k
  obtain ⟨b, hg⟩ := hfr k
  cases hf : f k with
  | none => exact ⟨k, 0, k, by rw [hg, hf]; rfl⟩
  | some i => exact ⟨b, i.height, i.deepestSlot, by rw [hg, hf]; rfl⟩

theorem DepthFrame.frame (hfr : DepthFrame f g) : Frame f g := by
  intro k
  obtain ⟨h, d, hg⟩ := hfr k
  cases hf : f k with
  | none => exact ⟨k, 0, k, by rw [hg, hf]; rfl⟩
  | some i => exact ⟨i.bestSlot, h, d, by rw [hg, hf]; rfl⟩

theorem BestFrame.refl (f : Entries Hash) : BestFrame f f := by
  intro k
  cases hf : f k with
  | none => exact ⟨k, rfl⟩
  | some i => exact ⟨i.bestSlot, rfl⟩

theorem DepthFrame.refl (f : Entries Hash) : DepthFrame f f := by
  intro k
  cases hf : f k with
  | none => exact ⟨0, k, rfl⟩
  | some i => exact ⟨i.height, i.deepestSlot, rfl⟩

theorem BestFrame.insert {b : SlotHashKey Hash} (hk : infos.get k = some i)
    (h : BestFrame (infos.insert k { i with bestSlot := b }).get infos'.get) :
    BestFrame infos.get infos'.get := by
  intro x
  obtain ⟨b', hx⟩ := h x
  refine ⟨b', ?_⟩
  rw [hx, get_insert]
  by_cases hxk : x = k
  · rw [if_pos hxk, hxk, hk]
    rfl
  · rw [if_neg hxk]

theorem DepthFrame.insert {h : ℕ} {d : SlotHashKey Hash} (hk : infos.get k = some i)
    (hfr : DepthFrame (infos.insert k { i with height := h, deepestSlot := d }).get infos'.get) :
    DepthFrame infos.get infos'.get := by
  intro x
  obtain ⟨h', d', hx⟩ := hfr x
  refine ⟨h', d', ?_⟩
  rw [hx, get_insert]
  by_cases hxk : x = k
  · rw [if_pos hxk, hxk, hk]
    rfl
  · rw [if_neg hxk]

/-- Heights do not matter to best slots. -/
theorem DepthFrame.bestOk (hfr : DepthFrame f g) (hb : Everywhere BestOk f) :
    Everywhere BestOk g := by
  have hfields : ∀ k, bestOf g k = bestOf f k := by
    intro k
    obtain ⟨h, d, hg⟩ := hfr k
    rw [bestOf, bestOf, hg]
    cases f k with
    | none => rfl
    | some i => rfl
  intro k j hj
  obtain ⟨h, d, hg⟩ := hfr k
  rw [hj] at hg
  obtain ⟨i, hi, rfl⟩ := map_eq_some_iff.mp hg.symm
  have hok := hb hi
  have hbest : bestChild g i.children.keys = bestChild f i.children.keys :=
    bestChild_congr (fun c _ => hfr.frame.stakeOf c) fun c _ => hfr.frame.candidateOf c
  rw [BestOk] at hok ⊢
  rw [hbest, funext hfields]
  exact hok

/-! ## The tests of the walks -/

theorem allM_map {α β : Type} {p : α → β → Bool} {get : α → Option β} {Q : α → Prop} {l : List α}
    (h : ∀ a ∈ l, ∃ b, get a = some b ∧ (p a b = true ↔ Q a)) :
    ∃ r, l.allM (fun a => (get a).map (p a)) = some r ∧ (r = true ↔ ∀ a ∈ l, Q a) := by
  induction l with
  | nil => exact ⟨true, rfl, fun _ a ha => (not_mem_nil ha).elim, fun _ => rfl⟩
  | cons a l ih =>
    obtain ⟨b, hb, hQ⟩ := h a mem_cons_self
    obtain ⟨r, hr, hiff⟩ := ih fun a' ha' => h a' (mem_cons_of_mem a ha')
    rw [allM, hb]
    cases hp : p a b with
    | false =>
      refine ⟨false, by simp [hp], fun h => (Bool.false_ne_true h).elim, fun h => ?_⟩
      rw [hQ.mpr (h a mem_cons_self)] at hp
      cases hp
    | true =>
      refine ⟨r, by simpa [hp] using hr, ?_⟩
      rw [hiff, forall_mem_cons, and_iff_right (hQ.mp hp)]

section Tests

variable {x p : SlotHashKey Hash}

theorem Wf.children_some (h : Wf infos.get) (hc : c ∈ childrenOf infos.get k) :
    ∃ i, infos.get c = some i := by
  obtain ⟨i, hi, -⟩ := parentOf_eq_some.mp (h.child_mem hc)
  exact ⟨i, hi⟩

/-- A test of a block against each of its siblings. -/
theorem siblings_spec {test : ForkInfo Hash → SlotHashKey Hash → ForkInfo Hash → Bool}
    {Q : SlotHashKey Hash → Prop} (h : Wf infos.get) (hp : parentOf infos.get x = some p)
    (hQ : ∀ {i c ic}, infos.get x = some i → infos.get c = some ic → (test i c ic = true ↔ Q c)) :
    ∃ r, (infos.get x).bind (fun info =>
        match info.parent with
        | none => some true
        | some parent => (infos.get parent).bind fun parentInfo =>
            parentInfo.children.keys.allM fun child => (infos.get child).map (test info child)) =
          some r ∧ (r = true ↔ ∀ c ∈ childrenOf infos.get p, Q c) := by
  obtain ⟨i, hi, hip⟩ := parentOf_eq_some.mp hp
  obtain ⟨ip, hip'⟩ := h.parent_some hp
  obtain ⟨r, hr, hiff⟩ := allM_map (Q := Q)
    fun c hc => by
      obtain ⟨ic, hic⟩ := h.children_some hc
      exact ⟨ic, hic, hQ hi hic⟩
  refine ⟨r, ?_, hiff⟩
  rw [hi, bind_some, hip]
  show (infos.get p).bind _ = _
  rw [hip', ← hr, childrenOf_of_some hip']
  rfl

/-- `is_best_child`: no candidate among the siblings is heavier. -/
theorem isBestChild_spec (h : Wf infos.get) (hp : parentOf infos.get x = some p) :
    ∃ r, isBestChild infos x = some r ∧
      (r = true ↔ ∀ c ∈ childrenOf infos.get p, candidateOf infos.get c = true →
        ¬ weight infos.get x < weight infos.get c) := by
  refine siblings_spec h hp fun {i c ic} hi hic => ?_
  rw [weight_lt, stakeOf, stakeOf, candidateOf, hi, hic]
  simp only [elim_some, Bool.not_eq_true', ← Bool.not_eq_true, Bool.and_eq_true,
    Bool.or_eq_true, decide_eq_true_eq, not_and]

/-- `is_deepest_child`: no sibling is deeper. -/
theorem isDeepestChild_spec (h : Wf infos.get) (hp : parentOf infos.get x = some p) :
    ∃ r, isDeepestChild infos x = some r ∧
      (r = true ↔ ∀ c ∈ childrenOf infos.get p, ¬ depth infos.get x < depth infos.get c) := by
  refine siblings_spec h hp fun {i c ic} hi hic => ?_
  rw [depth_lt, weight_lt, stakeOf, stakeOf, heightOf, heightOf, hi, hic]
  simp only [elim_some, Bool.not_eq_true', ← Bool.not_eq_true, Bool.and_eq_true,
    Bool.or_eq_true, decide_eq_true_eq, eq_comm (a := i.height),
    eq_comm (a := i.stakeVotedSubtree)]

end Tests

/-! ## The walks end -/

section Walks

variable {infos : ForkInfos Hash} {leaf oldBest : SlotHashKey Hash} {n : ℕ}

theorem propagateBest_isSome (ancestor : Option (SlotHashKey Hash)) (h : Wf infos.get)
    (hn : ∀ a, ancestor = some a → a.slot < n ∧ ∃ i, infos.get a = some i) :
    ∃ infos', propagateBest leaf oldBest n infos ancestor = some infos' ∧
      BestFrame infos.get infos'.get := by
  induction n generalizing infos ancestor with
  | zero =>
    cases ancestor with
    | none => exact ⟨infos, rfl, .refl _⟩
    | some a => exact absurd (hn a rfl).1 (Nat.not_lt_zero _)
  | succ n ih =>
    cases ancestor with
    | none => exact ⟨infos, rfl, .refl _⟩
    | some a =>
      obtain ⟨hslot, i, hi⟩ := hn a rfl
      rw [propagateBest, hi]
      show ∃ infos', (if i.bestSlot = oldBest then _ else _) = some infos' ∧ _
      by_cases hbest : i.bestSlot = oldBest
      · rw [if_pos hbest]
        have hfr : BestFrame infos.get (infos.insert a { i with bestSlot := leaf }).get :=
          .insert hi (.refl _)
        have hwf := hfr.frame.keeps.wf h
        obtain ⟨infos', hinfos', hfr'⟩ := ih i.parent hwf (by
          intro q hq
          have hpar := (hfr.frame.keeps.parentOf_eq a).trans ((parentOf_of_some hi).trans hq)
          have hlt := hwf.slot_lt hpar
          exact ⟨by omega, hwf.parent_some hpar⟩)
        exact ⟨infos', hinfos', .insert hi hfr'⟩
      · rw [if_neg hbest]
        exact ⟨infos, rfl, .refl _⟩

/-- The loop returns: slots fall on the way up. -/
theorem propagateDeepest_isSome (ancestor : Option (SlotHashKey Hash)) (x : SlotHashKey Hash)
    (height : ℕ) (h : Wf infos.get)
    (hn : ∀ a, ancestor = some a → a.slot < n ∧ parentOf infos.get x = some a) :
    ∃ infos', propagateDeepest leaf n infos ancestor x height = some infos' ∧
      DepthFrame infos.get infos'.get := by
  induction n generalizing infos ancestor x height with
  | zero =>
    cases ancestor with
    | none => exact ⟨infos, rfl, .refl _⟩
    | some a => exact absurd (hn a rfl).1 (Nat.not_lt_zero _)
  | succ n ih =>
    cases ancestor with
    | none => exact ⟨infos, rfl, .refl _⟩
    | some a =>
      obtain ⟨hslot, hpar⟩ := hn a rfl
      obtain ⟨i, hi⟩ := h.parent_some hpar
      obtain ⟨r, hr, -⟩ := isDeepestChild_spec h hpar
      rw [propagateDeepest, hr]
      show ∃ infos', (if r = true then _ else _) = some infos' ∧ _
      by_cases hdeep : r = true
      · rw [if_pos hdeep, hi]
        have hfr : DepthFrame infos.get (infos.insert a
            { i with height := height + 1, deepestSlot := leaf }).get := .insert hi (.refl _)
        have hwf := hfr.frame.keeps.wf h
        obtain ⟨infos', hinfos', hfr'⟩ := ih i.parent a (height + 1) hwf (by
          intro q hq
          have hpar' := (hfr.frame.keeps.parentOf_eq a).trans ((parentOf_of_some hi).trans hq)
          have hlt := hwf.slot_lt hpar'
          exact ⟨by omega, hpar'⟩)
        exact ⟨infos', hinfos', .insert hi hfr'⟩
      · rw [if_neg hdeep]
        exact ⟨infos, rfl, .refl _⟩

/-- The two walks of `propagate_new_leaf`. -/
theorem propagateNewLeaf_spec {p : SlotHashKey Hash} (h : Wf infos.get)
    (hpar : parentOf infos.get leaf = some p) :
    ∃ ip best mid infos', infos.get p = some ip ∧ isBestChild infos leaf = some best ∧
      (if best then propagateBest leaf ip.bestSlot leaf.slot infos (some p) else some infos) =
        some mid ∧ BestFrame infos.get mid.get ∧
      propagateDeepest leaf leaf.slot mid (some p) leaf 1 = some infos' ∧
      DepthFrame mid.get infos'.get ∧ propagateNewLeaf infos leaf p = some infos' := by
  obtain ⟨ip, hip⟩ := h.parent_some hpar
  obtain ⟨best, hbest, -⟩ := isBestChild_spec h hpar
  have hslot := h.slot_lt hpar
  obtain ⟨mid, hmid, hfr⟩ : ∃ mid, (if best then
      propagateBest leaf ip.bestSlot leaf.slot infos (some p) else some infos) = some mid ∧
        BestFrame infos.get mid.get := by
    cases best with
    | false => exact ⟨infos, rfl, .refl _⟩
    | true =>
      apply propagateBest_isSome (some p) h
      intro a ha
      cases ha
      exact ⟨hslot, ip, hip⟩
  obtain ⟨infos', hinfos', hfr'⟩ : ∃ infos', propagateDeepest leaf leaf.slot mid (some p) leaf 1 =
      some infos' ∧ DepthFrame mid.get infos'.get := by
    apply propagateDeepest_isSome (some p) leaf 1 (hfr.frame.keeps.wf h)
    intro a ha
    cases ha
    exact ⟨hslot, (hfr.frame.keeps.parentOf_eq leaf).trans hpar⟩
  refine ⟨ip, best, mid, infos', hip, hbest, hmid, hfr, hinfos', hfr', ?_⟩
  unfold propagateNewLeaf
  rw [hip, hbest]
  cases best with
  | false =>
    cases hmid
    exact hinfos'
  | true =>
    show (propagateBest leaf ip.bestSlot leaf.slot infos (some p)).bind _ = _
    rw [show propagateBest leaf ip.bestSlot leaf.slot infos (some p) = some mid from hmid]
    exact hinfos'

end Walks

/-! ## The tree with a leaf -/

/-- The entries with a new leaf, before the walks. -/
structure WithLeaf (f g : Entries Hash) (key p : SlotHashKey Hash) : Prop where
  fresh : f key = none
  slot : p.slot < key.slot
  parent : ∃ i, f p = some i ∧ g p = some { i with children := i.children.insert key () } ∧
    g key = some (leafInfo key (some p) i.latestInvalidAncestor)
  other : ∀ {x}, x ≠ key → x ≠ p → g x = f x

namespace WithLeaf

variable {key p x : SlotHashKey Hash}

section

variable (hl : WithLeaf f g key p)
include hl

theorem ne : p ≠ key := by
  rintro rfl
  exact lt_irrefl _ hl.slot

/-- The entries of the other blocks keep everything but the children. -/
theorem field {β : Type} (φ : ForkInfo Hash → β) (default : β)
    (hφ : ∀ i cs, φ { i with children := cs } = φ i) (hx : x ≠ key) :
    (g x).elim default φ = (f x).elim default φ := by
  by_cases hxp : x = p
  · obtain ⟨i, hf, hg, -⟩ := hl.parent
    rw [hxp, hf, hg]
    exact hφ i _
  · rw [hl.other hx hxp]

theorem parentOf_eq : parentOf g x = if x = key then some p else parentOf f x := by
  obtain ⟨i, hf, hg, hkey⟩ := hl.parent
  by_cases hx : x = key
  · rw [if_pos hx, hx, parentOf_of_some hkey]
    rfl
  · rw [if_neg hx]
    by_cases hxp : x = p
    · rw [hxp, parentOf_of_some hf, parentOf_of_some hg]
    · rw [parentOf, hl.other hx hxp]
      rfl

theorem childrenOf_key : childrenOf g key = [] := by
  obtain ⟨i, -, -, hkey⟩ := hl.parent
  rw [childrenOf_of_some hkey]
  rfl

theorem mem_childrenOf : c ∈ childrenOf g x ↔ c ∈ childrenOf f x ∨ (x = p ∧ c = key) := by
  obtain ⟨i, hf, hg, -⟩ := hl.parent
  by_cases hx : x = key
  · rw [hx, hl.childrenOf_key, childrenOf, hl.fresh]
    constructor
    · intro hc
      cases hc
    · rintro (hc | ⟨hp, -⟩)
      · cases hc
      · exact (hl.ne hp.symm).elim
  · by_cases hxp : x = p
    · rw [hxp, childrenOf_of_some hf, childrenOf_of_some hg, mem_keys_insert,
        and_iff_right rfl, or_comm]
    · rw [childrenOf, hl.other hx hxp]
      exact (or_iff_left fun hc => hxp hc.1).symm

theorem some_iff : (∃ i, g x = some i) ↔ x = key ∨ ∃ i, f x = some i := by
  obtain ⟨i, hf, hg, hkey⟩ := hl.parent
  by_cases hx : x = key
  · exact ⟨fun _ => Or.inl hx, fun _ => ⟨_, hx ▸ hkey⟩⟩
  · by_cases hxp : x = p
    · exact ⟨fun _ => Or.inr ⟨i, hxp ▸ hf⟩, fun _ => ⟨_, hxp ▸ hg⟩⟩
    · rw [hl.other hx hxp]
      exact (or_iff_right hx).symm

/-- The leaf was nobody's child. -/
theorem not_child (h : Wf f) : key ∉ childrenOf f x := by
  intro hc
  obtain ⟨i, hi, -⟩ := parentOf_eq_some.mp (h.child_mem hc)
  cases hl.fresh.symm.trans hi

theorem below {u v : SlotHashKey Hash} (hb : Below f u v) : Below g u v := by
  refine Relation.ReflTransGen.mono ?_ _ _ hb
  intro a b hab
  rw [hl.parentOf_eq, if_neg]
  · exact hab
  · rintro rfl
    rw [parentOf, hl.fresh] at hab
    cases hab

theorem below_iff (h : Wf f) {a : SlotHashKey Hash} (hk : k ≠ key) : Below g a k ↔ Below f a k := by
  refine ⟨fun hb => ?_, hl.below⟩
  induction hb with
  | refl => exact .refl
  | @tail x y _ hxy ih =>
    rw [hl.parentOf_eq, if_neg hk] at hxy
    refine .tail (ih ?_) hxy
    -- the leaf is nobody's parent
    rintro rfl
    obtain ⟨i, hi⟩ := h.parent_some hxy
    cases hl.fresh.symm.trans hi

theorem wf (h : Wf f) : Wf g := by
  constructor
  case parent_mem =>
    intro k q hq
    rw [hl.parentOf_eq] at hq
    rw [hl.mem_childrenOf]
    split_ifs at hq with hk
    · cases hq
      exact Or.inr ⟨rfl, hk⟩
    · exact Or.inl (h.parent_mem hq)
  case child_mem =>
    intro k c hc
    rw [hl.parentOf_eq]
    rcases hl.mem_childrenOf.mp hc with hc | ⟨rfl, rfl⟩
    · rw [if_neg fun heq : c = key => hl.not_child h (heq ▸ hc)]
      exact h.child_mem hc
    · rw [if_pos rfl]
  case slot_lt =>
    intro k q hq
    rw [hl.parentOf_eq] at hq
    split_ifs at hq with hk
    · cases hq
      rw [hk]
      exact hl.slot
    · exact h.slot_lt hq
  case zero =>
    intro k i hi hk
    have hkey : k ≠ key := by
      rintro rfl
      have hslot := hl.slot
      omega
    by_cases hkp : k = p
    · obtain ⟨j, hf, hg, -⟩ := hl.parent
      rw [hkp, hg] at hi
      cases hi
      exact (h.zero hf (hkp ▸ hk) :)
    · exact h.zero ((hl.other hkey hkp) ▸ hi) hk

theorem rooted {root : SlotHashKey Hash} (hr : Rooted f root) : Rooted g root := by
  obtain ⟨ip, hf, hg, hkey⟩ := hl.parent
  obtain ⟨ir, hir⟩ := hr.root_mem
  have hroot : root ≠ key := by
    rintro rfl
    cases hl.fresh.symm.trans hir
  constructor
  · by_cases hrp : root = p
    · exact ⟨_, hrp ▸ hg⟩
    · exact ⟨ir, (hl.other hroot hrp).trans hir⟩
  · intro k i hi
    by_cases hk : k = key
    · rw [hk, hkey] at hi
      cases hi
      exact ⟨fun hp => (some_ne_none p hp).elim, fun hkr => (hroot (hkr.symm.trans hk)).elim⟩
    · by_cases hkp : k = p
      · rw [hkp, hg] at hi
        cases hi
        rw [hkp]
        exact (hr.parent_none hf :)
      · rw [hl.other hk hkp] at hi
        exact hr.parent_none hi

theorem stakeOk (h : Wf f) (hs : Everywhere StakeOk f) : Everywhere StakeOk g := by
  obtain ⟨i, hf, hg, hkey⟩ := hl.parent
  have hstake : ∀ x, x ≠ key → stakeOf g x = stakeOf f x :=
    fun x hx => hl.field _ _ (fun _ _ => rfl) hx
  -- the children of before have the stake of before
  have hsum : ∀ {x i}, f x = some i →
      i.children.keys.map (stakeOf g) = i.children.keys.map (stakeOf f) := by
    intro x i hi
    apply map_congr_left
    intro c hc
    rw [← childrenOf_of_some hi] at hc
    exact hstake c fun heq => hl.not_child h (heq ▸ hc)
  intro x j hj
  by_cases hx : x = key
  · rw [hx, hkey] at hj
    cases hj
    rfl
  by_cases hxp : x = p
  · rw [hxp, hg] at hj
    cases hj
    have hfresh : key ∉ i.children.keys := childrenOf_of_some hf ▸ hl.not_child h
    have hzero : stakeOf g key = 0 := by rw [stakeOf, hkey]; rfl
    have hok := hs hf
    rw [StakeOk] at hok ⊢
    rw [((keys_insert_perm hfresh).map (stakeOf g)).sum_eq, map_cons, sum_cons,
      hzero, Nat.zero_add, hsum hf]
    exact hok
  · rw [hl.other hx hxp] at hj
    rw [StakeOk, hsum hj]
    exact hs hj

theorem confirmedOk (h : Wf f) (hc : Everywhere ConfirmedOk f) : Everywhere ConfirmedOk g := by
  obtain ⟨i, hf, hg, hkey⟩ := hl.parent
  intro x j hj c hcx hconf
  rw [← childrenOf_of_some hj] at hcx
  rcases hl.mem_childrenOf.mp hcx with hold | ⟨-, rfl⟩
  · have hck : c ≠ key := fun heq => hl.not_child h (heq ▸ hold)
    rw [confirmedOf, hl.field _ _ (fun _ _ => rfl) hck, ← confirmedOf] at hconf
    obtain ⟨l, hl', hmem⟩ := ForkChoice.mem_childrenOf.mp hold
    have hflag := hc hl' c hmem hconf
    have hx : x ≠ key := by
      rintro rfl
      cases hl.fresh.symm.trans hl'
    by_cases hxp : x = p
    · rw [hxp] at hj hl'
      cases hg.symm.trans hj
      cases hf.symm.trans hl'
      exact hflag
    · rw [hl.other hx hxp, hl'] at hj
      cases hj
      exact hflag
  · rw [confirmedOf, hkey] at hconf
    cases hconf

end

end WithLeaf

theorem Frame.stakeOk (hfr : Frame f g) (hs : Everywhere StakeOk f) : Everywhere StakeOk g := by
  intro k j hj
  obtain ⟨i, hi, b, h, d, rfl⟩ := hfr.of_some hj
  have hok := hs hi
  rw [StakeOk] at hok ⊢
  rw [funext hfr.stakeOf]
  exact hok

theorem Frame.confirmedOk (hfr : Frame f g) (hc : Everywhere ConfirmedOk f) :
    Everywhere ConfirmedOk g := by
  intro k j hj
  obtain ⟨i, hi, b, h, d, rfl⟩ := hfr.of_some hj
  intro c hcc hconf
  rw [hfr.confirmedOf] at hconf
  exact (hc hi c hcc hconf :)

/-! ## `add_new_leaf_slot` -/

section AddLeaf

variable {Pubkey : Type} [LinearOrder Pubkey] {t t' : HeaviestSubtreeForkChoice Hash Pubkey}
  {key p : SlotHashKey Hash}

/-- Adding a leaf that is not there. -/
theorem addNewLeafSlot_spec (h : Wf t.forkInfos.get) (hkey : t.containsBlock key = false)
    (hp : t.containsBlock p = true) (hslot : p.slot < key.slot) :
    ∃ infos infos', WithLeaf t.forkInfos.get infos.get key p ∧
      propagateNewLeaf infos key p = some infos' ∧
      t.addNewLeafSlot key (some p) = some { t with forkInfos := infos' } := by
  obtain ⟨i, hi⟩ := OrdMap.contains_iff.mp hp
  have hfresh : t.forkInfos.get key = none := by
    rw [← not_isSome_iff_eq_none]
    exact Bool.eq_false_iff.mp hkey
  have hne : p ≠ key := by
    rintro rfl
    exact lt_irrefl _ hslot
  have hlatest : (some p).bind t.latestInvalidAncestor = i.latestInvalidAncestor := by
    rw [bind_some, HeaviestSubtreeForkChoice.latestInvalidAncestor, hi]
    rfl
  have hpi : (t.forkInfos.insert key (leafInfo key (some p) i.latestInvalidAncestor)).get p =
      some i := (get_insert_of_ne _ hne).trans hi
  have hleaf : WithLeaf t.forkInfos.get
      ((t.forkInfos.insert key (leafInfo key (some p) i.latestInvalidAncestor)).insert p
        { i with children := i.children.insert key () }).get key p := by
    refine ⟨hfresh, hslot, ⟨i, hi, get_insert_self _ _, ?_⟩, ?_⟩
    · rw [get_insert_of_ne _ (Ne.symm hne), get_insert_self]
    · intro x hx hxp
      rw [get_insert_of_ne _ hxp, get_insert_of_ne _ hx]
  have hpar := hleaf.parentOf_eq (x := key)
  rw [if_pos rfl] at hpar
  obtain ⟨-, -, -, infos', -, -, -, -, -, -, hprop⟩ := propagateNewLeaf_spec (hleaf.wf h) hpar
  refine ⟨_, infos', hleaf, hprop, ?_⟩
  unfold HeaviestSubtreeForkChoice.addNewLeafSlot
  rw [if_neg (Bool.eq_false_iff.mp hkey), hlatest]
  show ((t.forkInfos.insert key (leafInfo key (some p) i.latestInvalidAncestor)).get p).bind _ = _
  rw [hpi]
  show (propagateNewLeaf _ key p).bind _ = _
  rw [hprop]
  rfl

/-- The structure of the tree with a leaf, after the walks. -/
theorem propagateNewLeaf_frame (h : Wf infos.get)
    (hpar : parentOf infos.get key = some p) (hprop : propagateNewLeaf infos key p = some infos') :
    Frame infos.get infos'.get := by
  obtain ⟨-, -, mid, infos'', -, -, -, hfr, -, hfr', hprop'⟩ := propagateNewLeaf_spec h hpar
  cases hprop.symm.trans hprop'
  exact hfr.frame.trans hfr'.frame

end AddLeaf

end Salsa.ForkChoice
