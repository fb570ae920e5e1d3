import Salsa.ForkChoice.Runs

/-!
# Salsa.ForkChoice.Best — new leaves and the best and deepest slots

Votes and marks go through `aggregate_slot`, which computes an entry from its children;
a new leaf walks up and changes the entries in place. `Fits`: the parent of every new leaf is
a candidate, or a candidate child of it outweighs the leaf. Then both ways agree, and the best
slot of every block is the end of the descent by candidate children.
-/

namespace Salsa.ForkChoice

open Option HeaviestSubtreeForkChoice

variable {Hash : Type} [LinearOrder Hash] {f g : Entries Hash} {k c : SlotHashKey Hash}

/-! ## Entries by their fields -/

/-- The best slot of `k` is that of its best child. -/
def BestAt (f : Entries Hash) (k : SlotHashKey Hash) : Prop :=
  bestOf f k = (bestChild f (childrenOf f k)).elim k (bestOf f)

/-- Height and deepest slot of `k` are by its deepest child. -/
def DepthAt (f : Entries Hash) (k : SlotHashKey Hash) : Prop :=
  heightOf f k = (deepestChild f (childrenOf f k)).elim 0 (heightOf f) + 1 ∧
    deepestOf f k = (deepestChild f (childrenOf f k)).elim k (deepestOf f)

theorem bestOk_iff : Everywhere BestOk f ↔ ∀ k, BestAt f k := by
  constructor
  · intro h k
    cases hk : f k with
    | none =>
      rw [BestAt, childrenOf, bestOf, hk]
      rfl
    | some i =>
      have hi := h hk
      rw [BestAt, childrenOf_of_some hk, ← hi, bestOf, hk]
      rfl
  · intro h k i hi
    have hk := h k
    rw [BestAt, childrenOf_of_some hi, bestOf, hi] at hk
    exact hk

theorem depthOk_iff : Everywhere DepthOk f ↔ ∀ k i, f k = some i → DepthAt f k := by
  have hone : ∀ {k i}, f k = some i → (DepthOk f k i ↔ DepthAt f k) := by
    intro k i hi
    rw [DepthOk, DepthAt, childrenOf_of_some hi, heightOf, deepestOf, hi]
    rfl
  exact ⟨fun h k i hi => (hone hi).mp (h hi), fun h k i hi => (hone hi).mpr (h k i hi)⟩

section

variable (hchildren : childrenOf g k = childrenOf f k)
  (hstake : ∀ c ∈ childrenOf f k, stakeOf g c = stakeOf f c)
include hchildren hstake

theorem BestAt.congr (hat : BestAt f k) (hk : bestOf g k = bestOf f k)
    (hcand : ∀ c ∈ childrenOf f k, candidateOf g c = candidateOf f c)
    (hbest : ∀ c ∈ childrenOf f k, bestOf g c = bestOf f c) : BestAt g k := by
  rw [BestAt, hk, hat, hchildren, bestChild_congr hstake hcand]
  cases hc : bestChild f (childrenOf f k) with
  | none => rfl
  | some c => exact (hbest c (bestChild_eq_some.mp hc).1.1).symm

theorem DepthAt.congr (hat : DepthAt f k) (hk : heightOf g k = heightOf f k)
    (hk' : deepestOf g k = deepestOf f k)
    (hheight : ∀ c ∈ childrenOf f k, heightOf g c = heightOf f c)
    (hdeepest : ∀ c ∈ childrenOf f k, deepestOf g c = deepestOf f c) : DepthAt g k := by
  rw [DepthAt, hk, hk', hat.1, hat.2, hchildren, deepestChild_congr hstake hheight]
  cases hc : deepestChild f (childrenOf f k) with
  | none => exact ⟨rfl, rfl⟩
  | some c =>
    have hmem := (deepestChild_eq_some.mp hc).1
    exact ⟨congrArg (· + 1) (hheight c hmem).symm, (hdeepest c hmem).symm⟩

end

/-- Best slots are below their blocks. -/
theorem below_bestOf {infos : ForkInfos Hash} (h : Wf infos.get) (hb : ∀ k, BestAt infos.get k)
    (k : SlotHashKey Hash) : Below infos.get k (bestOf infos.get k) := by
  cases hk : infos.get k with
  | none =>
    rw [bestOf, hk]
    exact .refl
  | some i =>
    refine h.up_induction (P := fun k => Below infos.get k (bestOf infos.get k)) ?_ k i hk
    intro k i hi ih
    have hown := hb k
    rw [BestAt, childrenOf_of_some hi] at hown
    rw [hown]
    cases hbest : bestChild infos.get i.children.keys with
    | none => exact .refl
    | some c =>
      have hc := (bestChild_eq_some.mp hbest).1.1
      exact .head (h.child_mem (childrenOf_of_some hi ▸ hc)) (ih c hc)

/-! ## The walk of the best slot -/

/-- The walk is at `ancestor`, the parent of `x`: `x` has the leaf as its best slot, and the
entry of `ancestor` is the one for when that was still `old`. -/
structure BestLoop (f : Entries Hash) (ancestor : Option (SlotHashKey Hash))
    (x old leaf : SlotHashKey Hash) : Prop where
  parent : parentOf f x = ancestor
  off : ∀ k, ancestor ≠ some k → BestAt f k
  child : bestOf f x = leaf
  stale : ∀ a, ancestor = some a → bestOf f a =
    (bestChild f (childrenOf f a)).elim a fun c => if c = x then old else bestOf f c
  below : ∀ k, Below f k (bestOf f k)
  old_below : Below f x old

variable {infos infos' : ForkInfos Hash} {a x old leaf : SlotHashKey Hash} {i : ForkInfo Hash}

theorem bestOf_insert (b : SlotHashKey Hash) :
    bestOf (infos.insert a { i with bestSlot := b }).get k =
      if k = a then b else bestOf infos.get k := by
  rw [bestOf, OrdMap.get_insert]
  split_ifs <;> rfl

/-- The walk goes on after it wrote the leaf at `a`, whose best child is `x`. -/
theorem BestLoop.enter (h : Wf f) (hfr : BestFrame f g)
    (hwrite : ∀ k, bestOf g k = if k = a then leaf else bestOf f k)
    (hbest : bestChild f (childrenOf f a) = some x) (hx : bestOf f x = leaf)
    (hoff : ∀ k, k ≠ a → BestAt f k) (hbelow : ∀ k, Below f k (bestOf f k)) :
    BestLoop g (parentOf f a) a (bestOf f a) leaf := by
  have hchild : ∀ k, bestChild g (childrenOf g k) = bestChild f (childrenOf f k) := by
    intro k
    rw [hfr.frame.keeps.childrenOf_eq]
    exact bestChild_congr (fun c _ => hfr.frame.stakeOf c) fun c _ => hfr.frame.candidateOf c
  constructor
  · exact hfr.frame.keeps.parentOf_eq a
  · intro k hk
    have hne : ∀ c ∈ childrenOf f k, bestOf g c = bestOf f c := by
      intro c hc
      rw [hwrite, if_neg]
      rintro rfl
      exact hk (h.child_mem hc)
    by_cases hka : k = a
    · subst hka
      rw [BestAt, hwrite, if_pos rfl, hchild, hbest, elim_some,
        hne x (bestChild_eq_some.mp hbest).1.1, hx]
    · exact (hoff k hka).congr (hfr.frame.keeps.childrenOf_eq k) (fun c _ => hfr.frame.stakeOf c)
        ((hwrite k).trans (if_neg hka)) (fun c _ => hfr.frame.candidateOf c) hne
  · rw [hwrite, if_pos rfl]
  · intro b hb
    have hba : b ≠ a := by
      rintro rfl
      exact lt_irrefl _ (h.slot_lt hb)
    have hown := hoff b hba
    rw [hwrite, if_neg hba, hown, hchild]
    cases bestChild f (childrenOf f b) with
    | none => rfl
    | some c =>
      rw [elim_some, elim_some, hwrite]
      by_cases hca : c = a
      · rw [if_pos hca, hca]
      · rw [if_neg hca, if_neg hca]
  · intro k
    rw [hfr.frame.keeps.below_iff, hwrite]
    by_cases hk : k = a
    · rw [if_pos hk, hk, ← hx]
      exact .head (h.child_mem (bestChild_eq_some.mp hbest).1.1) (hbelow x)
    · rw [if_neg hk]
      exact hbelow k
  · exact (hfr.frame.keeps.below_iff _ _).mpr (hbelow a)

section

variable (hl : BestLoop f (some a) x old leaf)
include hl

/-- The ancestor has the old best slot only if `x` is its best child. -/
theorem BestLoop.best_child (h : Wf f) (hold : bestOf f a = old) :
    bestChild f (childrenOf f a) = some x := by
  have hpar := hl.parent
  have hstale := hl.stale a rfl
  rw [hold] at hstale
  cases hbest : bestChild f (childrenOf f a) with
  | none =>
    rw [hbest] at hstale
    have hb := hl.old_below
    rw [hstale] at hb
    exact (h.not_below_parent hpar hb).elim
  | some c =>
    rw [hbest, elim_some] at hstale
    by_cases hc : c = x
    · rw [hc]
    · rw [if_neg hc] at hstale
      -- two children of `a` above one block
      have hcpar := h.child_mem (bestChild_eq_some.mp hbest).1.1
      have hcb := hl.below c
      rw [← hstale] at hcb
      exact (hc (Forest.Below.child_unique (F := h.forest) hcpar hpar hcb hl.old_below)).elim

theorem BestLoop.next (h : Wf f) (hfr : BestFrame f g)
    (hwrite : ∀ k, bestOf g k = if k = a then leaf else bestOf f k) (hold : bestOf f a = old) :
    BestLoop g (parentOf f a) a old leaf := by
  rw [← hold]
  exact .enter h hfr hwrite (hl.best_child h hold) hl.child
    (fun k hk => hl.off k fun heq => hk (some.inj heq).symm) hl.below

theorem BestLoop.stop (hold : bestOf f a ≠ old) (k : SlotHashKey Hash) : BestAt f k := by
  by_cases hk : k = a
  · rw [hk, BestAt]
    have hstale := hl.stale a rfl
    cases hbest : bestChild f (childrenOf f a) with
    | none =>
      rw [hbest] at hstale
      exact hstale
    | some c =>
      rw [hbest, elim_some] at hstale
      by_cases hc : c = x
      · rw [if_pos hc] at hstale
        exact (hold hstale).elim
      · rw [if_neg hc] at hstale
        exact hstale
  · exact hl.off k fun heq => hk (some.inj heq).symm

end

theorem propagateBest_ok {n : ℕ} (ancestor : Option (SlotHashKey Hash)) (h : Wf infos.get)
    (hl : BestLoop infos.get ancestor x old leaf)
    (hrun : propagateBest leaf old n infos ancestor = some infos') (k : SlotHashKey Hash) :
    BestAt infos'.get k := by
  induction n generalizing infos ancestor x with
  | zero =>
    cases ancestor with
    | none =>
      cases hrun
      exact hl.off k nofun
    | some a => cases hrun
  | succ n ih =>
    cases ancestor with
    | none =>
      cases hrun
      exact hl.off k nofun
    | some a =>
      obtain ⟨i, hi, hrest⟩ := bind_eq_some_iff.mp hrun
      have hbest : bestOf infos.get a = i.bestSlot := by
        rw [bestOf, hi]
        rfl
      by_cases hold : i.bestSlot = old
      · rw [if_pos hold] at hrest
        have hfr : BestFrame infos.get (infos.insert a { i with bestSlot := leaf }).get :=
          .insert hi (.refl _)
        have hnext := hl.next h hfr (fun _ => bestOf_insert leaf) (hbest.trans hold)
        rw [parentOf_of_some hi] at hnext
        exact ih i.parent (hfr.frame.keeps.wf h) hnext hrest
      · rw [if_neg hold] at hrest
        cases hrest
        exact hl.stop (fun heq => hold (hbest.symm.trans heq)) k

/-! ## The walk of the deepest slot -/

/-- The walk is at `ancestor`, the parent of `x`: `x` has the leaf as its deepest slot. If `x`
is not the deepest child, the entry of `ancestor` is right as it is. -/
structure DepthLoop (f : Entries Hash) (ancestor : Option (SlotHashKey Hash))
    (x leaf : SlotHashKey Hash) (height : ℕ) : Prop where
  parent : parentOf f x = ancestor
  off : ∀ k i, f k = some i → ancestor ≠ some k → DepthAt f k
  child_height : heightOf f x = height
  child_deepest : deepestOf f x = leaf
  stale : ∀ a, ancestor = some a → (∃ c ∈ childrenOf f a, depth f x < depth f c) → DepthAt f a
  grows : ∀ a, ancestor = some a →
    heightOf f a ≤ (deepestChild f (childrenOf f a)).elim 0 (heightOf f) + 1

variable {n height : ℕ}

theorem heightOf_insert (n : ℕ) (d : SlotHashKey Hash) :
    heightOf (infos.insert a { i with height := n, deepestSlot := d }).get k =
      if k = a then n else heightOf infos.get k := by
  rw [heightOf, OrdMap.get_insert]
  split_ifs <;> rfl

theorem deepestOf_insert (n : ℕ) (d : SlotHashKey Hash) :
    deepestOf (infos.insert a { i with height := n, deepestSlot := d }).get k =
      if k = a then d else deepestOf infos.get k := by
  rw [deepestOf, OrdMap.get_insert]
  split_ifs <;> rfl

/-- The parent's entry is right when the child grows, or is new, but another child is deeper. -/
theorem DepthAt.of_deeper (hat : DepthAt f a) (hsub : ∀ c ∈ childrenOf f a, c ∈ childrenOf g a)
    (hold : ∀ c ∈ childrenOf g a, c ≠ x → c ∈ childrenOf f a)
    (hheight : heightOf g a = heightOf f a) (hdeepest : deepestOf g a = deepestOf f a)
    (hothers : ∀ c ∈ childrenOf f a, c ≠ x → depth g c = depth f c ∧ deepestOf g c = deepestOf f c)
    (hx : x ∈ childrenOf f a → depth f x ≤ depth g x)
    (hdeeper : ∃ c ∈ childrenOf g a, depth g x < depth g c) : DepthAt g a := by
  have hmono : ∀ c ∈ childrenOf f a, depth f c ≤ depth g c := by
    intro c hc
    by_cases hcx : c = x
    · rw [hcx] at hc ⊢
      exact hx hc
    · rw [(hothers c hc hcx).1]
  cases hd : deepestChild g (childrenOf g a) with
  | none =>
    obtain ⟨c, hc, -⟩ := hdeeper
    rw [deepestChild_eq_none.mp hd] at hc
    cases hc
  | some d =>
    obtain ⟨hdmem, hdmax⟩ := deepestChild_eq_some.mp hd
    have hdx : d ≠ x := by
      rintro rfl
      obtain ⟨c, hc, hlt⟩ := hdeeper
      exact (hdmax c hc).not_gt hlt
    have hdf := hold d hdmem hdx
    obtain ⟨hdepth, hdd⟩ := hothers d hdf hdx
    have hd' : deepestChild f (childrenOf f a) = some d :=
      deepestChild_eq_some.mpr
        ⟨hdf, fun c hc => (hmono c hc).trans ((hdmax c (hsub c hc)).trans hdepth.le)⟩
    have hh : heightOf g d = heightOf f d := congrArg (fun p => (ofLex p).1) hdepth
    rw [DepthAt, hd'] at hat
    rw [DepthAt, hd, hheight, hdeepest]
    show _ = heightOf g d + 1 ∧ _ = deepestOf g d
    rw [hh, hdd]
    exact hat

/-- The height by the deepest child grows with the heights of the children. -/
theorem deepestChild_height_mono {children children' : List (SlotHashKey Hash)}
    (hsub : ∀ c ∈ children, c ∈ children') (hle : ∀ c ∈ children, heightOf f c ≤ heightOf g c) :
    (deepestChild f children).elim 0 (heightOf f) ≤
      (deepestChild g children').elim 0 (heightOf g) := by
  cases hd : deepestChild f children with
  | none => exact Nat.zero_le _
  | some d =>
    have hdmem := (deepestChild_eq_some.mp hd).1
    cases he : deepestChild g children' with
    | none =>
      have hmem := hsub d hdmem
      rw [deepestChild_eq_none.mp he] at hmem
      cases hmem
    | some e =>
      have hmax := (deepestChild_eq_some.mp he).2 d (hsub d hdmem)
      refine (hle d hdmem).trans ?_
      by_contra hlt
      exact hmax.not_gt (depth_lt.mpr (Or.inl (not_le.mp hlt)))

/-- The invariant after one ancestor. -/
theorem DepthLoop.next (hl : DepthLoop f (some a) x leaf height) (h : Wf f) (hfr : DepthFrame f g)
    (hheights : ∀ k, heightOf g k = if k = a then height + 1 else heightOf f k)
    (hdeepests : ∀ k, deepestOf g k = if k = a then leaf else deepestOf f k)
    (hdeep : ∀ c ∈ childrenOf f a, ¬ depth f x < depth f c) :
    DepthLoop g (parentOf f a) a leaf (height + 1) := by
  have hxmem : x ∈ childrenOf f a := h.parent_mem hl.parent
  have hbest : deepestChild f (childrenOf f a) = some x :=
    deepestChild_eq_some.mpr ⟨hxmem, fun c hc => not_lt.mp (hdeep c hc)⟩
  have hgrow : heightOf f a ≤ height + 1 := by
    have hgrows := hl.grows a rfl
    rw [hbest, elim_some, hl.child_height] at hgrows
    exact hgrows
  have hheight : ∀ c, c ≠ a → heightOf g c = heightOf f c := fun c hc =>
    (hheights c).trans (if_neg hc)
  have hdeepest : ∀ c, c ≠ a → deepestOf g c = deepestOf f c := fun c hc =>
    (hdeepests c).trans (if_neg hc)
  have hdepth : ∀ c, c ≠ a → depth g c = depth f c := by
    intro c hc
    rw [depth, weight, hfr.frame.stakeOf, hheight c hc, depth, weight]
  have hparent : ∀ b, parentOf f a = some b → b ≠ a ∧ DepthAt f b := by
    intro b hb
    have hba : b ≠ a := by
      rintro rfl
      exact lt_irrefl _ (h.slot_lt hb)
    obtain ⟨ib, hib⟩ := h.parent_some hb
    exact ⟨hba, hl.off b ib hib fun heq => hba (some.inj heq).symm⟩
  constructor
  · exact hfr.frame.keeps.parentOf_eq a
  · intro k j hj hk
    have hne : ∀ c ∈ childrenOf f k, c ≠ a := by
      rintro c hc rfl
      exact hk (h.child_mem hc)
    by_cases hkeq : k = a
    · subst hkeq
      have hxk := hne x hxmem
      rw [DepthAt, hfr.frame.keeps.childrenOf_eq, deepestChild_congr
        (fun c _ => hfr.frame.stakeOf c) fun c hc => hheight c (hne c hc), hbest, hheights,
        hdeepests, if_pos rfl, if_pos rfl, elim_some, elim_some, hheight x hxk, hdeepest x hxk,
        hl.child_height, hl.child_deepest]
      exact ⟨rfl, rfl⟩
    · obtain ⟨j', hj', -⟩ := hfr.frame.of_some hj
      exact (hl.off k j' hj' fun heq => hkeq (some.inj heq).symm).congr
        (hfr.frame.keeps.childrenOf_eq k) (fun c _ => hfr.frame.stakeOf c) (hheight k hkeq)
        (hdeepest k hkeq) (fun c hc => hheight c (hne c hc)) fun c hc => hdeepest c (hne c hc)
  · rw [hheights, if_pos rfl]
  · rw [hdeepests, if_pos rfl]
  · intro b hb hdeeper
    obtain ⟨hba, hat⟩ := hparent b hb
    have hkept := hfr.frame.keeps.childrenOf_eq b
    refine hat.of_deeper (fun c hc => hkept ▸ hc) (fun c hc _ => hkept ▸ hc) (hheight b hba)
      (hdeepest b hba) (fun c _ hc => ⟨hdepth c hc, hdeepest c hc⟩) (fun _ => ?_) hdeeper
    rw [depth, depth, Prod.Lex.toLex_le_toLex, hheights, if_pos rfl, weight, weight,
      hfr.frame.stakeOf]
    rcases hgrow.lt_or_eq with hlt | heq
    · exact Or.inl hlt
    · exact Or.inr ⟨heq, le_refl _⟩
  · intro b hb
    obtain ⟨hba, hat⟩ := hparent b hb
    rw [hheight b hba, hat.1, hfr.frame.keeps.childrenOf_eq]
    refine Nat.succ_le_succ (deepestChild_height_mono (fun c hc => hc) fun c _ => ?_)
    by_cases hc : c = a
    · rw [hc, hheights, if_pos rfl]
      exact hgrow
    · rw [hheight c hc]

/-- Depths are right again after the loop. -/
theorem propagateDeepest_ok (ancestor : Option (SlotHashKey Hash)) (h : Wf infos.get)
    (hl : DepthLoop infos.get ancestor x leaf height)
    (hrun : propagateDeepest leaf n infos ancestor x height = some infos') :
    ∀ k j, infos'.get k = some j → DepthAt infos'.get k := by
  induction n generalizing infos ancestor x height with
  | zero =>
    cases ancestor with
    | none =>
      cases hrun
      exact fun k j hj => hl.off k j hj nofun
    | some a => cases hrun
  | succ n ih =>
    cases ancestor with
    | none =>
      cases hrun
      exact fun k j hj => hl.off k j hj nofun
    | some a =>
      rw [propagateDeepest] at hrun
      obtain ⟨r, hr, hiff⟩ := isDeepestChild_spec h hl.parent
      rw [hr] at hrun
      cases r with
      | true =>
        have hstep : (infos.get a).bind (fun i => propagateDeepest leaf n
            (infos.insert a { i with height := height + 1, deepestSlot := leaf }) i.parent a
            (height + 1)) = some infos' := hrun
        obtain ⟨i, hi, hrest⟩ := bind_eq_some_iff.mp hstep
        have hfr : DepthFrame infos.get (infos.insert a
            { i with height := height + 1, deepestSlot := leaf }).get := .insert hi (.refl _)
        have hnext := hl.next h hfr (fun _ => heightOf_insert _ _) (fun _ => deepestOf_insert _ _)
          (hiff.mp rfl)
        rw [parentOf_of_some hi] at hnext
        exact ih i.parent (hfr.frame.keeps.wf h) hnext hrest
      | false =>
        cases hrun
        intro k j hj
        by_cases hk : k = a
        · rw [hk]
          apply hl.stale a rfl
          by_contra hno
          push Not at hno
          exact Bool.false_ne_true (hiff.mpr fun c hc => not_lt.mpr (hno c hc))
        · exact hl.off k j hj fun heq => hk (some.inj heq).symm

/-! ## A new leaf -/

section NewLeaf

variable {key p : SlotHashKey Hash}

section

variable (hl : WithLeaf f g key p)
include hl

theorem WithLeaf.childrenOf_of_ne (hk : k ≠ key) (hkp : k ≠ p) :
    childrenOf g k = childrenOf f k := by
  rw [childrenOf, hl.other hk hkp, childrenOf]

theorem WithLeaf.ne_key (h : Wf f) (hc : c ∈ childrenOf f k) : c ≠ key := by
  rintro rfl
  exact hl.not_child h hc

/-- The other blocks are up to date with their children. -/
theorem WithLeaf.bestAt (h : Wf f) (hb : ∀ k, BestAt f k) (hkp : k ≠ p) : BestAt g k := by
  obtain ⟨ip, -, -, hkey⟩ := hl.parent
  by_cases hk : k = key
  · rw [hk, BestAt, hl.childrenOf_key, bestOf, hkey]
    rfl
  · exact (hb k).congr (hl.childrenOf_of_ne hk hkp)
      (fun c hc => hl.field _ _ (fun _ _ => rfl) (hl.ne_key h hc))
      (hl.field _ _ (fun _ _ => rfl) hk)
      (fun c hc => hl.field _ _ (fun _ _ => rfl) (hl.ne_key h hc))
      fun c hc => hl.field _ _ (fun _ _ => rfl) (hl.ne_key h hc)

/-- A leaf that is outweighed changes nothing for its parent. -/
theorem WithLeaf.bestAt_parent (h : Wf f) (hb : BestAt f p)
    (hheavier : ∃ c ∈ childrenOf g p, candidateOf g c = true ∧ weight g key < weight g c) :
    BestAt g p := by
  have hfield : ∀ {β : Type} (φ : ForkInfo Hash → β) (d : β),
      (∀ i cs, φ { i with children := cs } = φ i) → ∀ c ∈ childrenOf f p,
      (g c).elim d φ = (f c).elim d φ := fun φ d hφ c hc => hl.field φ d hφ (hl.ne_key h hc)
  cases hbest : bestChild g (childrenOf g p) with
  | none =>
    obtain ⟨c, hc, hcand, -⟩ := hheavier
    rw [bestChild_eq_none.mp hbest c hc] at hcand
    cases hcand
  | some d =>
    obtain ⟨⟨hdmem, hdcand⟩, hdmax⟩ := bestChild_eq_some.mp hbest
    have hdkey : d ≠ key := by
      rintro rfl
      obtain ⟨c, hc, hcand, hlt⟩ := hheavier
      exact (hdmax c hc hcand).not_gt hlt
    have hdf : d ∈ childrenOf f p :=
      (hl.mem_childrenOf.mp hdmem).resolve_right fun heq => hdkey heq.2
    have hweight : ∀ c ∈ childrenOf f p, weight g c = weight f c := by
      intro c hc
      rw [weight, stakeOf, hfield _ _ (fun _ _ => rfl) c hc, weight, stakeOf]
    have hd : bestChild f (childrenOf f p) = some d := by
      refine bestChild_eq_some.mpr ⟨⟨hdf, ?_⟩, ?_⟩
      · rw [candidateOf, ← hfield _ _ (fun _ _ => rfl) d hdf]
        exact hdcand
      · intro c hc hcand
        rw [← hweight c hc, ← hweight d hdf]
        apply hdmax c (hl.mem_childrenOf.mpr (Or.inl hc))
        rw [candidateOf, hfield _ _ (fun _ _ => rfl) c hc]
        exact hcand
    rw [BestAt, hd] at hb
    rw [BestAt, hbest, bestOf, hl.field _ _ (fun _ _ => rfl) hl.ne, ← bestOf, hb]
    exact (hfield _ _ (fun _ _ => rfl) d hdf).symm

end

/-- The best slots after the first walk. -/
theorem WithLeaf.propagateBest (hl : WithLeaf f infos.get key p) (h : Wf f) (hf : ∀ k, BestAt f k)
    (hfb : ∀ k, Below f k (bestOf f k))
    (hkey : bestChild infos.get (childrenOf infos.get p) = some key) {ip : ForkInfo Hash}
    (hip : infos.get p = some ip)
    (hrun : propagateBest key ip.bestSlot key.slot infos (some p) = some infos')
    (k : SlotHashKey Hash) : BestAt infos'.get k := by
  have hwf := hl.wf h
  obtain ⟨m, hm⟩ := Nat.exists_eq_succ_of_ne_zero (Nat.ne_zero_of_lt hl.slot)
  rw [hm, ForkChoice.propagateBest, hip] at hrun
  have hrest : ForkChoice.propagateBest key ip.bestSlot m
      (infos.insert p { ip with bestSlot := key }) ip.parent = some infos' := by
    rw [← hrun]
    exact (if_pos rfl).symm
  have hfr : BestFrame infos.get (infos.insert p { ip with bestSlot := key }).get :=
    .insert hip (.refl _)
  have hbestp : bestOf infos.get p = ip.bestSlot := by
    rw [bestOf, hip]
    rfl
  have hbestkey : bestOf infos.get key = key := by
    obtain ⟨j, -, -, hj⟩ := hl.parent
    rw [bestOf, hj]
    rfl
  have hbelow : ∀ k, Below infos.get k (bestOf infos.get k) := by
    intro k
    by_cases hk : k = key
    · rw [hk, hbestkey]
      exact .refl
    · rw [bestOf, hl.field _ _ (fun _ _ => rfl) hk]
      exact hl.below (hfb k)
  have henter := BestLoop.enter hwf hfr (fun _ => bestOf_insert key) hkey hbestkey
    (fun k hkp => hl.bestAt h hf hkp) hbelow
  rw [parentOf_of_some hip, hbestp] at henter
  exact propagateBest_ok ip.parent (hfr.frame.keeps.wf hwf) henter hrest k

section

variable (hfr : BestFrame f g)
include hfr

theorem BestFrame.heightOf_eq : heightOf g = heightOf f := by
  funext k
  obtain ⟨b, hg⟩ := hfr k
  rw [heightOf, heightOf, hg]
  cases f k <;> rfl

theorem BestFrame.deepestOf_eq : deepestOf g = deepestOf f := by
  funext k
  obtain ⟨b, hg⟩ := hfr k
  rw [deepestOf, deepestOf, hg]
  cases f k <;> rfl

theorem BestFrame.depth_eq : depth g = depth f := by
  funext k
  rw [depth, weight, hfr.heightOf_eq, hfr.frame.stakeOf, depth, weight]

theorem BestFrame.depthAt_iff : DepthAt g k ↔ DepthAt f k := by
  rw [DepthAt, deepestChild, hfr.depth_eq, hfr.heightOf_eq, hfr.deepestOf_eq,
    hfr.frame.keeps.childrenOf_eq]
  rfl

/-- The first walk does not matter to the second. -/
theorem BestFrame.depthLoop {ancestor : Option (SlotHashKey Hash)}
    (hl : DepthLoop f ancestor x leaf height) : DepthLoop g ancestor x leaf height where
  parent := (hfr.frame.keeps.parentOf_eq x).trans hl.parent
  off k j hj hk := by
    obtain ⟨i, hi, -⟩ := hfr.frame.of_some hj
    exact hfr.depthAt_iff.mpr (hl.off k i hi hk)
  child_height := by rw [hfr.heightOf_eq, hl.child_height]
  child_deepest := by rw [hfr.deepestOf_eq, hl.child_deepest]
  stale a ha hdeeper := by
    rw [hfr.frame.keeps.childrenOf_eq, hfr.depth_eq] at hdeeper
    exact hfr.depthAt_iff.mpr (hl.stale a ha hdeeper)
  grows a ha := by
    rw [deepestChild, hfr.depth_eq, hfr.heightOf_eq, hfr.frame.keeps.childrenOf_eq]
    exact hl.grows a ha

end

/-- Heights and deepest slots with a leaf, before the walks. -/
theorem WithLeaf.depthLoop (hl : WithLeaf f g key p) (h : Wf f)
    (hd : ∀ k i, f k = some i → DepthAt f k) : DepthLoop g (some p) key key 1 := by
  obtain ⟨ip, hip, hgp, hkey⟩ := hl.parent
  have hheight : ∀ k, k ≠ key → heightOf g k = heightOf f k := fun k hk =>
    hl.field _ _ (fun _ _ => rfl) hk
  have hdeepest : ∀ k, k ≠ key → deepestOf g k = deepestOf f k := fun k hk =>
    hl.field _ _ (fun _ _ => rfl) hk
  have hdepth : ∀ k, k ≠ key → depth g k = depth f k := by
    intro k hk
    rw [depth, weight, hheight k hk, stakeOf, hl.field _ _ (fun _ _ => rfl) hk, depth, weight,
      stakeOf]
  constructor
  · exact hl.parentOf_key
  · intro k j hj hkp
    by_cases hk : k = key
    · rw [hk, DepthAt, hl.childrenOf_key, heightOf, deepestOf, hkey]
      exact ⟨rfl, rfl⟩
    · have hkp' : k ≠ p := fun heq => hkp (congrArg some heq.symm)
      exact (hd k j (hl.other hk hkp' ▸ hj)).congr (hl.childrenOf_of_ne hk hkp')
        (fun c hc => hl.field _ _ (fun _ _ => rfl) (hl.ne_key h hc)) (hheight k hk) (hdeepest k hk)
        (fun c hc => hheight c (hl.ne_key h hc)) fun c hc => hdeepest c (hl.ne_key h hc)
  · rw [heightOf, hkey]
    rfl
  · rw [deepestOf, hkey]
    rfl
  · -- another child is deeper than the leaf: the deepest child is the one of before
    intro a ha hdeeper
    cases ha
    exact (hd p ip hip).of_deeper (fun c hc => hl.mem_childrenOf.mpr (Or.inl hc))
      (fun c hc hck => (hl.mem_childrenOf.mp hc).resolve_right fun heq => hck heq.2)
      (hheight p hl.ne) (hdeepest p hl.ne) (fun c _ hc => ⟨hdepth c hc, hdeepest c hc⟩)
      (fun hk => (hl.not_child h hk).elim) hdeeper
  · intro a ha
    cases ha
    rw [hheight p hl.ne, (hd p ip hip).1]
    exact Nat.succ_le_succ (deepestChild_height_mono
      (fun c hc => hl.mem_childrenOf.mpr (Or.inl hc)) fun c hc => (hheight c (hl.ne_key h hc)).ge)

end NewLeaf

/-! ## Recomputation -/

/-- The end of a descent by `next`. -/
inductive Descent (next : SlotHashKey Hash → Option (SlotHashKey Hash)) :
    SlotHashKey Hash → SlotHashKey Hash → Prop
  | stop {k : SlotHashKey Hash} (h : next k = none) : Descent next k k
  | step {k c e : SlotHashKey Hash} (h : next k = some c) (hd : Descent next c e) : Descent next k e

/-- A way down that visits `n` blocks. -/
inductive PathDown (f : Entries Hash) : SlotHashKey Hash → ℕ → Prop
  | one (k : SlotHashKey Hash) : PathDown f k 1
  | more {k c : SlotHashKey Hash} {n : ℕ} (hc : c ∈ childrenOf f k) (h : PathDown f c n) :
    PathDown f k (n + 1)

theorem Wf.descent (h : Wf infos.get) {next : List (SlotHashKey Hash) → Option (SlotHashKey Hash)}
    {last : SlotHashKey Hash → SlotHashKey Hash} (hnext : ∀ {l c}, next l = some c → c ∈ l)
    (hlast : ∀ k i, infos.get k = some i → last k = (next (childrenOf infos.get k)).elim k last)
    (hi : infos.get k = some i) : Descent (fun k => next (childrenOf infos.get k)) k (last k) := by
  refine h.up_induction
    (P := fun k => Descent (fun k => next (childrenOf infos.get k)) k (last k)) ?_ k i hi
  intro k i hi ih
  rw [hlast k i hi]
  cases hc : next (childrenOf infos.get k) with
  | none => exact .stop hc
  | some c => exact .step hc (ih c (childrenOf_of_some hi ▸ hnext hc))

/-- The height is that of the longest path down. -/
theorem Wf.height_isGreatest (h : Wf infos.get)
    (hd : ∀ k i, infos.get k = some i → DepthAt infos.get k) (hi : infos.get k = some i) :
    IsGreatest { n | PathDown infos.get k n } (heightOf infos.get k) := by
  refine h.up_induction
    (P := fun k => IsGreatest { n | PathDown infos.get k n } (heightOf infos.get k)) ?_ k i hi
  intro k i hi ih
  have hown := (hd k i hi).1
  have hmem : ∀ {c}, c ∈ childrenOf infos.get k → c ∈ i.children.keys :=
    fun hc => childrenOf_of_some hi ▸ hc
  rw [hown]
  cases hdeep : deepestChild infos.get (childrenOf infos.get k) with
  | none =>
    refine ⟨.one k, fun n hn => ?_⟩
    cases hn with
    | one => exact Nat.le_refl _
    | more hc _ =>
      rw [deepestChild_eq_none.mp hdeep] at hc
      cases hc
  | some d =>
    obtain ⟨hdmem, hdmax⟩ := deepestChild_eq_some.mp hdeep
    refine ⟨.more hdmem (ih d (hmem hdmem)).1, fun n hn => ?_⟩
    cases hn with
    | one => exact Nat.le_add_left _ _
    | @more _ c n hc hpath =>
      have hle : heightOf infos.get c ≤ heightOf infos.get d := by
        by_contra hlt
        exact (hdmax c hc).not_gt (depth_lt.mpr (Or.inl (not_le.mp hlt)))
      exact Nat.succ_le_succ (((ih c (hmem hc)).2 hpath).trans hle)

/-! ## Trees in use -/

variable {Pubkey : Type} [LinearOrder Pubkey] {E : Epochs Pubkey}
  {t t' : HeaviestSubtreeForkChoice Hash Pubkey}
  {C : HeaviestSubtreeForkChoice Hash Pubkey → SlotHashKey Hash → SlotHashKey Hash → Prop}

/-- The parent of the new leaf is a candidate, or a candidate child of it outweighs the leaf. -/
def Fits (t : HeaviestSubtreeForkChoice Hash Pubkey) (key p : SlotHashKey Hash) : Prop :=
  candidateOf t.forkInfos.get p = true ∨
    ∃ c ∈ childrenOf t.forkInfos.get p, candidateOf t.forkInfos.get c = true ∧
      (0 < stakeOf t.forkInfos.get c ∨ c < key)

theorem LeafStep.depthOk (hs : LeafStep C t t') (h : TreeOk t)
    (hd : Everywhere DepthOk t.forkInfos.get) : Everywhere DepthOk t'.forkInfos.get := by
  obtain ⟨key, p, infos, -, hl, hprop, -, -⟩ := hs
  have hwf := hl.wf h.wf
  obtain ⟨ip, best, mid, infos', -, -, -, hfr, hdeep, -, hprop'⟩ :=
    propagateNewLeaf_spec hwf hl.parentOf_key
  cases hprop.symm.trans hprop'
  rw [depthOk_iff]
  exact propagateDeepest_ok (some p) (hfr.frame.keeps.wf hwf)
    (hfr.depthLoop (hl.depthLoop h.wf (depthOk_iff.mp hd))) hdeep

theorem LeafStep.bestOk (hs : LeafStep Fits t t') (h : TreeOk t)
    (hb : Everywhere BestOk t.forkInfos.get) : Everywhere BestOk t'.forkInfos.get := by
  obtain ⟨key, p, infos, hfits, hl, hprop, -, -⟩ := hs
  have hwf := hl.wf h.wf
  rw [bestOk_iff] at hb
  obtain ⟨ip, best, mid, infos', hip, hbest, hrun, -, -, hfr', hprop'⟩ :=
    propagateNewLeaf_spec hwf hl.parentOf_key
  cases hprop.symm.trans hprop'
  refine hfr'.bestOk (bestOk_iff.mpr ?_)
  obtain ⟨r, hr, hiff⟩ := isBestChild_spec hwf hl.parentOf_key
  cases hbest.symm.trans hr
  obtain ⟨i, hfi, -, hkey⟩ := hl.parent
  have hstake : stakeOf infos.get key = 0 := by
    rw [stakeOf, hkey]
    rfl
  cases best with
  | false =>
    cases hrun
    have hheavier : ∃ c ∈ childrenOf infos.get p, candidateOf infos.get c = true ∧
        weight infos.get key < weight infos.get c := by
      by_contra hno
      push Not at hno
      exact Bool.false_ne_true (hiff.mpr fun c hc hcand => not_lt.mpr (hno c hc hcand))
    intro k
    by_cases hk : k = p
    · rw [hk]
      exact hl.bestAt_parent h.wf (hb p) hheavier
    · exact hl.bestAt h.wf hb hk
  | true =>
    have hmax := hiff.mp rfl
    -- no candidate outweighs the leaf, so its parent is a candidate and so is the leaf
    have hcand : candidateOf infos.get key = true := by
      rcases hfits with hp | ⟨c, hc, hcc, hheavy⟩
      · rw [candidateOf, hfi] at hp
        rw [candidateOf, hkey]
        exact hp
      · have hck := hl.ne_key h.wf hc
        have hstakec : stakeOf infos.get c = stakeOf t.forkInfos.get c :=
          hl.field _ _ (fun _ _ => rfl) hck
        have hcandc : candidateOf infos.get c = candidateOf t.forkInfos.get c :=
          hl.field _ _ (fun _ _ => rfl) hck
        refine (hmax c (hl.mem_childrenOf.mpr (Or.inl hc)) (hcandc.trans hcc) ?_).elim
        rw [weight_lt, hstake, hstakec]
        rcases Nat.eq_zero_or_pos (stakeOf t.forkInfos.get c) with hz | hpos
        · exact Or.inr ⟨hz.symm, hheavy.resolve_left (by omega)⟩
        · exact Or.inl hpos
    have hkeybest : bestChild infos.get (childrenOf infos.get p) = some key :=
      bestChild_eq_some.mpr ⟨⟨hl.mem_childrenOf.mpr (Or.inr ⟨rfl, rfl⟩), hcand⟩,
        fun c hc hcc => not_lt.mp (hmax c hc hcc)⟩
    exact hl.propagateBest h.wf hb (below_bestOf h.wf hb) hkeybest hip hrun

variable [Inhabited Hash]

theorem Reachable.depthOk (hr : Reachable E C t) : Everywhere DepthOk t.forkInfos.get :=
  hr.everywhere (depthOk_local Hash) (fun _ _ => ⟨rfl, rfl⟩) fun h hs hd => hs.depthOk h hd

theorem Reachable.bestOk (hr : Reachable E Fits t) : Everywhere BestOk t.forkInfos.get :=
  hr.everywhere (bestOk_local Hash) (fun _ _ => rfl) fun h hs hb => hs.bestOk h hb

/-- In every tree whose leaves fit, the stored best and deepest slots and heights are those
of a recomputation. -/
theorem incremental_eq_recomputed (hr : Reachable E Fits t) {k : SlotHashKey Hash}
    {i : ForkInfo Hash} (hi : t.forkInfos.get k = some i) :
    Descent (fun k => bestChild t.forkInfos.get (childrenOf t.forkInfos.get k)) k i.bestSlot ∧
      IsGreatest { n | PathDown t.forkInfos.get k n } i.height ∧
      Descent (fun k => deepestChild t.forkInfos.get (childrenOf t.forkInfos.get k)) k
        i.deepestSlot := by
  have hwf := hr.treeOk.wf
  have hdepth := depthOk_iff.mp hr.depthOk
  have hbest := hwf.descent (fun hc => (bestChild_eq_some.mp hc).1.1)
    (fun k _ _ => bestOk_iff.mp hr.bestOk k) hi
  have hheight := hwf.height_isGreatest hdepth hi
  have hdeepest := hwf.descent (fun hc => (deepestChild_eq_some.mp hc).1)
    (fun k i hi => (hdepth k i hi).2) hi
  rw [bestOf, hi] at hbest
  rw [heightOf, hi] at hheight
  rw [deepestOf, hi] at hdeepest
  exact ⟨hbest, hheight, hdeepest⟩

/-- A leaf below a root. -/
theorem incremental_eq_recomputed_leaf :
    ∃ t t' : HeaviestSubtreeForkChoice ℕ ℕ, HeaviestSubtreeForkChoice.new ⟨0, 0⟩ = some t ∧
      t.addNewLeafSlot ⟨1, 0⟩ (some ⟨0, 0⟩) = some t' ∧
      ∃ i, t'.forkInfos.get ⟨0, 0⟩ = some i ∧
        Descent (fun k => bestChild t'.forkInfos.get (childrenOf t'.forkInfos.get k)) ⟨0, 0⟩
          i.bestSlot := by
  obtain ⟨t, hnew⟩ : ∃ t : HeaviestSubtreeForkChoice ℕ ℕ, new ⟨0, 0⟩ = some t := ⟨_, rfl⟩
  obtain ⟨-, -, hroot, -⟩ := new_spec hnew
  have hcont : t.containsBlock ⟨0, 0⟩ = true := contains_iff.mpr ⟨_, hroot⟩
  have hadds : AddsLeaf Fits t ⟨1, 0⟩ ⟨0, 0⟩ := by
    refine fun _ => ⟨hcont, by decide, Or.inl ?_⟩
    rw [candidateOf, hroot]
    rfl
  obtain ⟨t', hadd, -, hmem⟩ := addNewLeafSlot_step (new_treeOk hnew) hadds
  obtain ⟨i, hi⟩ := contains_iff.mp ((hmem ⟨0, 0⟩).mpr (Or.inr hcont))
  exact ⟨t, t', hnew, hadd, i, hi, (incremental_eq_recomputed (E := ⟨fun _ => none, fun _ => 0⟩)
    (.addNewLeafSlot (.new hnew) hadds hadd) hi).1⟩

/-- A leaf in a fork that is marked invalid becomes the best slot of its parent, which has no
candidate child. -/
theorem not_incremental_eq_recomputed :
    (do
      let t : HeaviestSubtreeForkChoice ℕ ℕ ← HeaviestSubtreeForkChoice.new ⟨0, 0⟩
      let t ← t.addNewLeafSlot ⟨1, 0⟩ (some ⟨0, 0⟩)
      let t ← t.markForkInvalidCandidate ⟨1, 0⟩
      let t ← t.addNewLeafSlot ⟨2, 0⟩ (some ⟨1, 0⟩)
      some (bestOf t.forkInfos.get ⟨1, 0⟩,
        bestChild t.forkInfos.get (childrenOf t.forkInfos.get ⟨1, 0⟩))) =
      some (⟨2, 0⟩, none) := by
  decide +kernel

end Salsa.ForkChoice
