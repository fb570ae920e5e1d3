import Mathlib
import Salsa.ForkChoice.Process

/-!
# Salsa.ForkChoice.Aggregate — what `aggregate_slot` computes

The best child is the candidate of greatest stake and the deepest child the one of
greatest height, then stake; the smaller key wins a tie. The loop over the children
finds both (`loop_spec`).

So an entry is up to date with its children in four respects, each a local property:
the stake of the subtree (`StakeOk`), the best slot (`BestOk`), height and deepest slot
(`DepthOk`), and that a parent of a duplicate confirmed block is one (`ConfirmedOk`).
-/

namespace Salsa.ForkChoice

open List

variable {Hash : Type} [LinearOrder Hash]

/-! ## Fields of entries -/

variable (f : Entries Hash) (key : SlotHashKey Hash)

def stakeOf : ℕ :=
  (f key).elim 0 ForkInfo.stakeVotedSubtree

def heightOf : ℕ := (f key).elim 0 ForkInfo.height

def candidateOf : Bool :=
  (f key).elim false ForkInfo.isCandidate

def confirmedOf : Bool :=
  (f key).elim false ForkInfo.isDuplicateConfirmed

def bestOf : SlotHashKey Hash :=
  (f key).elim key ForkInfo.bestSlot

def deepestOf : SlotHashKey Hash :=
  (f key).elim key ForkInfo.deepestSlot

/-! ## The best and the deepest child -/

/-- The stake of a block, a smaller key counting for more. -/
def weight : ℕ ×ₗ (SlotHashKey Hash)ᵒᵈ :=
  toLex (stakeOf f key, OrderDual.toDual key)

/-- The height of a block, then its weight. -/
def depth : ℕ ×ₗ (ℕ ×ₗ (SlotHashKey Hash)ᵒᵈ) :=
  toLex (heightOf f key, weight f key)

def bestChild (children : List (SlotHashKey Hash)) : Option (SlotHashKey Hash) :=
  (children.filter (candidateOf f)).argmax (weight f)

def deepestChild (children : List (SlotHashKey Hash)) : Option (SlotHashKey Hash) :=
  children.argmax (depth f)

variable {f} {g : Entries Hash} {k c : SlotHashKey Hash} {children : List (SlotHashKey Hash)}
  {a b : SlotHashKey Hash}

theorem weight_injective (f : Entries Hash) : Function.Injective (weight f) := by
  intro a b hab
  exact OrderDual.toDual.injective (congrArg (fun p => (ofLex p).2) hab)

theorem depth_injective (f : Entries Hash) : Function.Injective (depth f) := by
  intro a b hab
  exact weight_injective f (congrArg (fun p => (ofLex p).2) hab)

theorem weight_lt :
    weight f a < weight f b ↔ stakeOf f a < stakeOf f b ∨ (stakeOf f a = stakeOf f b ∧ b < a) :=
  Prod.Lex.toLex_lt_toLex

theorem depth_lt :
    depth f a < depth f b ↔
      heightOf f a < heightOf f b ∨ (heightOf f a = heightOf f b ∧ weight f a < weight f b) :=
  Prod.Lex.toLex_lt_toLex

/-- With distinct values the greatest element is the only one. -/
theorem argmax_eq_some_iff {β : Type} [LinearOrder β] {φ : SlotHashKey Hash → β}
    (hφ : Function.Injective φ) :
    children.argmax φ = some c ↔ c ∈ children ∧ ∀ a ∈ children, φ a ≤ φ c := by
  rw [List.argmax_eq_some_iff]
  constructor
  · exact fun h => ⟨h.1, h.2.1⟩
  · rintro ⟨hc, hmax⟩
    refine ⟨hc, hmax, ?_⟩
    intro a ha hle
    rw [hφ (le_antisymm hle (hmax a ha))]

theorem argmax_congr {β : Type} [LinearOrder β] {φ ψ : SlotHashKey Hash → β}
    (hφ : Function.Injective φ) (hψ : Function.Injective ψ) (h : ∀ c ∈ children, φ c = ψ c) :
    children.argmax φ = children.argmax ψ := by
  ext c
  rw [argmax_eq_some_iff hφ, argmax_eq_some_iff hψ]
  exact and_congr_right fun hc => forall₂_congr fun a ha => by rw [h a ha, h c hc]

theorem bestChild_congr (hstake : ∀ c ∈ children, stakeOf f c = stakeOf g c)
    (hcand : ∀ c ∈ children, candidateOf f c = candidateOf g c) :
    bestChild f children = bestChild g children := by
  rw [bestChild, bestChild, filter_congr hcand]
  apply argmax_congr (weight_injective f) (weight_injective g)
  intro c hc
  rw [weight, hstake c (mem_filter.mp hc).1, weight]

theorem deepestChild_congr (hstake : ∀ c ∈ children, stakeOf f c = stakeOf g c)
    (hheight : ∀ c ∈ children, heightOf f c = heightOf g c) :
    deepestChild f children = deepestChild g children := by
  apply argmax_congr (depth_injective f) (depth_injective g)
  intro c hc
  rw [depth, weight, hheight c hc, hstake c hc, depth, weight]

theorem bestChild_eq_some :
    bestChild f children = some c ↔ (c ∈ children ∧ candidateOf f c = true) ∧
      ∀ a ∈ children, candidateOf f a = true → weight f a ≤ weight f c := by
  rw [bestChild, argmax_eq_some_iff (weight_injective f), mem_filter]
  exact and_congr_right fun _ =>
    ⟨fun h a ha hcand => h a (mem_filter.mpr ⟨ha, hcand⟩),
      fun h a ha => h a (mem_filter.mp ha).1 (mem_filter.mp ha).2⟩

theorem bestChild_eq_none :
    bestChild f children = none ↔ ∀ a ∈ children, candidateOf f a = false := by
  rw [bestChild, argmax_eq_none, filter_eq_nil_iff]
  exact forall₂_congr fun a _ => (Bool.not_eq_true _).to_iff

theorem deepestChild_eq_some :
    deepestChild f children = some c ↔ c ∈ children ∧ ∀ a ∈ children, depth f a ≤ depth f c :=
  argmax_eq_some_iff (depth_injective f)

theorem deepestChild_eq_none : deepestChild f children = none ↔ children = [] := argmax_eq_none

/-! ## The loop -/

namespace Aggregation

def BestIs (f : Entries Hash) (key : SlotHashKey Hash) (a : Aggregation Hash) :
    Option (SlotHashKey Hash) → Prop
  | none => a.bestChildSlotKey = key ∧ a.bestSlotHashKey = key
  | some c => a.bestChildSlotKey = c ∧ a.bestChildStakeVotedSubtree = stakeOf f c ∧
      a.bestSlotHashKey = bestOf f c

def DeepestIs (f : Entries Hash) (key : SlotHashKey Hash) (a : Aggregation Hash) :
    Option (SlotHashKey Hash) → Prop
  | none => a.deepestChildSlotKey = key ∧ a.deepestSlotHashKey = key ∧ a.deepestChildHeight = 0
  | some c => a.deepestChildSlotKey = c ∧ a.deepestChildHeight = heightOf f c ∧
      a.deepestChildStakeVotedSubtree = stakeOf f c ∧ a.deepestSlotHashKey = deepestOf f c

variable {a : Aggregation Hash} {child : ForkInfo Hash}

/-- The best child once `c` is looked at too. -/
theorem addChild_best (hc : f c = some child) (hk : k ∉ children)
    (ha : BestIs f k a (bestChild f children)) :
    BestIs f k (a.addChild k c child) (bestChild f (children ++ [c])) := by
  have hstake : stakeOf f c = child.stakeVotedSubtree := by rw [stakeOf, hc]; rfl
  have hbest : bestOf f c = child.bestSlot := by rw [bestOf, hc]; rfl
  have hcand : candidateOf f c = child.isCandidate := by rw [candidateOf, hc]; rfl
  rw [bestChild, filter_append]
  by_cases hcandidate : child.isCandidate = true
  · rw [filter_cons_of_pos (by rw [hcand]; exact hcandidate), filter_nil,
      argmax_concat, ← bestChild]
    cases hold : bestChild f children with
    | none =>
      rw [hold] at ha
      have hbetter : a.isBetter k c child = true := by
        simp [isBetter, hcandidate, ha.1]
      unfold BestIs addChild
      simp [hbetter, hstake, hbest]
    | some b =>
      rw [hold] at ha
      obtain ⟨hkey, hbs, hslot⟩ := ha
      have hbk : b ≠ k := fun h => hk (h ▸ (bestChild_eq_some.mp hold).1.1)
      have hiff : a.isBetter k c child = true ↔ weight f b < weight f c := by
        rw [weight_lt, hstake, ← hbs]
        simp only [isBetter, hcandidate, hkey, hbk, Bool.true_and, Bool.or_eq_true,
          Bool.and_eq_true, decide_eq_true_eq, decide_false, Bool.false_eq_true, false_or]
        rw [eq_comm]
      dsimp only
      by_cases hlt : weight f b < weight f c
      · rw [if_pos hlt]
        unfold BestIs addChild
        simp [hiff.mpr hlt, hstake, hbest]
      · rw [if_neg hlt]
        have hnot : a.isBetter k c child = false := Bool.eq_false_iff.mpr fun h => hlt (hiff.mp h)
        unfold BestIs addChild
        simp [hnot, hkey, hbs, hslot]
  · rw [filter_cons_of_neg (by rw [hcand]; exact hcandidate), filter_nil, append_nil, ← bestChild]
    have hnot : a.isBetter k c child = false := by simp [isBetter, hcandidate]
    have hsame : a.addChild k c child = { a.addChild k c child with
        bestChildStakeVotedSubtree := a.bestChildStakeVotedSubtree
        bestChildSlotKey := a.bestChildSlotKey
        bestSlotHashKey := a.bestSlotHashKey } := by
      simp [addChild, hnot]
    rw [hsame]
    cases hold : bestChild f children with
    | none => exact hold ▸ ha
    | some b => exact hold ▸ ha

theorem addChild_deepest (hc : f c = some child) (hk : k ∉ children)
    (ha : DeepestIs f k a (deepestChild f children)) :
    DeepestIs f k (a.addChild k c child) (deepestChild f (children ++ [c])) := by
  have hstake : stakeOf f c = child.stakeVotedSubtree := by rw [stakeOf, hc]; rfl
  have hheight : heightOf f c = child.height := by rw [heightOf, hc]; rfl
  have hdeepest : deepestOf f c = child.deepestSlot := by rw [deepestOf, hc]; rfl
  rw [deepestChild, argmax_concat, ← deepestChild]
  cases hold : deepestChild f children with
  | none =>
    rw [hold] at ha
    have hdeeper : a.isDeeper k c child = true := by simp [isDeeper, ha.1]
    unfold DeepestIs addChild
    simp [hdeeper, hstake, hheight, hdeepest]
  | some b =>
    rw [hold] at ha
    obtain ⟨hkey, hbh, hbs, hslot⟩ := ha
    have hbk : b ≠ k := fun h => hk (h ▸ (deepestChild_eq_some.mp hold).1)
    have hiff : a.isDeeper k c child = true ↔ depth f b < depth f c := by
      rw [depth_lt, weight_lt, hstake, hheight, ← hbs, ← hbh]
      simp only [isDeeper, hkey, hbk, Bool.or_eq_true, Bool.and_eq_true, decide_eq_true_eq,
        decide_false, Bool.false_eq_true, false_or]
      rw [eq_comm (a := child.stakeVotedSubtree), eq_comm]
    dsimp only
    by_cases hlt : depth f b < depth f c
    · rw [if_pos hlt]
      unfold DeepestIs addChild
      simp [hiff.mpr hlt, hstake, hheight, hdeepest]
    · rw [if_neg hlt]
      have hnot : a.isDeeper k c child = false := Bool.eq_false_iff.mpr fun h => hlt (hiff.mp h)
      unfold DeepestIs addChild
      simp [hnot, hkey, hbs, hbh, hslot]

/-- What the loop over the children finds. -/
theorem loop_spec {info : ForkInfo Hash} (hk : k ∉ children)
    (h : loop f k children (start k info) = some a) :
    a.stakeVotedSubtree = info.stakeVotedAt + (children.map (stakeOf f)).sum ∧
      a.isDuplicateConfirmed = children.any (confirmedOf f) ∧
      BestIs f k a (bestChild f children) ∧ DeepestIs f k a (deepestChild f children) := by
  -- from the first child on: the loop has seen a prefix
  induction children using reverseRecOn generalizing a with
  | nil =>
    cases h
    exact ⟨rfl, rfl, ⟨rfl, rfl⟩, rfl, rfl, rfl⟩
  | append_singleton children c ih =>
    unfold loop at h ih
    rw [foldlM_append] at h
    obtain ⟨b, hb, hlast⟩ := Option.bind_eq_some_iff.mp h
    obtain ⟨a', ha', hnil⟩ := Option.bind_eq_some_iff.mp hlast
    cases hnil
    obtain ⟨child, hchild, rfl⟩ := Option.map_eq_some_iff.mp ha'
    have hk' : k ∉ children := fun hmem => hk (mem_append_left _ hmem)
    obtain ⟨hstake, hconf, hbest, hdeep⟩ := ih hk' hb
    have hc : stakeOf f c = child.stakeVotedSubtree := by rw [stakeOf, hchild]; rfl
    have hcc : confirmedOf f c = child.isDuplicateConfirmed := by rw [confirmedOf, hchild]; rfl
    refine ⟨?_, ?_, addChild_best hchild hk' hbest, addChild_deepest hchild hk' hdeep⟩
    · show b.stakeVotedSubtree + child.stakeVotedSubtree = _
      rw [hstake, map_append, sum_append, map_singleton, sum_singleton, hc, Nat.add_assoc]
    · show (b.isDuplicateConfirmed || child.isDuplicateConfirmed) = _
      rw [hconf, any_append, any_cons, any_nil, Bool.or_false, hcc]

/-- The loop needs the entries of the children. -/
theorem loop_isSome (hmem : ∀ c ∈ children, ∃ i, f c = some i) (a : Aggregation Hash) :
    ∃ a', loop f k children a = some a' := by
  induction children generalizing a with
  | nil => exact ⟨a, rfl⟩
  | cons c children ih =>
    obtain ⟨i, hi⟩ := hmem c mem_cons_self
    obtain ⟨a', ha'⟩ := ih (fun c' hc' => hmem c' (mem_cons_of_mem c hc')) (a.addChild k c i)
    refine ⟨a', ?_⟩
    unfold loop at ha' ⊢
    rw [foldlM_cons, hi]
    exact ha'

end Aggregation

/-! ## Entries up to date with their children -/

/-- The stake of the subtree is that of the block and of the children's subtrees. -/
def StakeOk (f : Entries Hash) (_ : SlotHashKey Hash) (info : ForkInfo Hash) : Prop :=
  info.stakeVotedSubtree = info.stakeVotedAt + (info.children.keys.map (stakeOf f)).sum

/-- The best slot is that of the best child. -/
def BestOk (f : Entries Hash) (key : SlotHashKey Hash) (info : ForkInfo Hash) : Prop :=
  info.bestSlot = (bestChild f info.children.keys).elim key (bestOf f)

/-- Height and deepest slot are by the deepest child. -/
def DepthOk (f : Entries Hash) (key : SlotHashKey Hash) (info : ForkInfo Hash) : Prop :=
  info.height = (deepestChild f info.children.keys).elim 0 (heightOf f) + 1 ∧
    info.deepestSlot = (deepestChild f info.children.keys).elim key (deepestOf f)

/-- Below a block that is not duplicate confirmed there is none that is. -/
def ConfirmedOk (f : Entries Hash) (_ : SlotHashKey Hash) (info : ForkInfo Hash) : Prop :=
  ∀ c ∈ info.children.keys, confirmedOf f c = true → info.isDuplicateConfirmed = true

section Aggregate

variable {info info' : ForkInfo Hash} {op : UpdateOperation}

/-- The entry after `aggregate_slot`. -/
theorem aggregateInfo_spec (hk : k ∉ info.children.keys) (h : aggregateInfo f k info = some info') :
    StakeOk f k info' ∧ BestOk f k info' ∧ DepthOk f k info' ∧ ConfirmedOk f k info' ∧
      info'.stakeVotedAt = info.stakeVotedAt ∧
      info'.isDuplicateConfirmed =
        (info.isDuplicateConfirmed || info.children.keys.any (confirmedOf f)) ∧
      info'.latestInvalidAncestor =
        if info.children.keys.any (confirmedOf f) then none else info.latestInvalidAncestor := by
  obtain ⟨a, ha, rfl⟩ := Option.map_eq_some_iff.mp h
  obtain ⟨hstake, hconf, hbest, hdeep⟩ := Aggregation.loop_spec hk ha
  have hchildren := (finish_kept a info).children
  have hat : (a.finish info).stakeVotedAt = info.stakeVotedAt := by
    unfold Aggregation.finish
    split_ifs <;> rfl
  have hflag : (a.finish info).isDuplicateConfirmed =
      (info.isDuplicateConfirmed || info.children.keys.any (confirmedOf f)) := by
    rw [← hconf]
    unfold Aggregation.finish
    split_ifs with hc
    · rw [hc, Bool.or_true]
      rfl
    · rw [Bool.eq_false_iff.mpr hc, Bool.or_false]
  refine ⟨?_, ?_, ?_, ?_, hat, hflag, ?_⟩
  · rw [StakeOk, hchildren, hat]
    exact hstake
  · rw [BestOk, hchildren]
    cases hb : bestChild f info.children.keys with
    | none => exact (hb ▸ hbest :).2
    | some b => exact (hb ▸ hbest :).2.2
  · rw [DepthOk, hchildren]
    cases hd : deepestChild f info.children.keys with
    | none =>
      have hnone : Aggregation.DeepestIs f k a none := hd ▸ hdeep
      exact ⟨congrArg (· + 1) hnone.2.2, hnone.2.1⟩
    | some d =>
      have hsome : Aggregation.DeepestIs f k a (some d) := hd ▸ hdeep
      exact ⟨congrArg (· + 1) hsome.2.1, hsome.2.2.2⟩
  · intro c hc hcc
    rw [hchildren] at hc
    rw [hflag, any_eq_true.mpr ⟨c, hc, hcc⟩, Bool.or_true]
  · rw [← hconf]
    unfold Aggregation.finish
    split_ifs <;> rfl

/-- What an operation other than an `Aggregate` leaves alone, and what it does to the stake. -/
theorem effect_fields (hop : op ≠ .aggregate) (h : op.effect f k info = some info') :
    info'.bestSlot = info.bestSlot ∧ info'.height = info.height ∧
      info'.deepestSlot = info.deepestSlot ∧
      (info.stakeVotedAt ≤ info.stakeVotedSubtree → info'.stakeVotedAt ≤ info'.stakeVotedSubtree ∧
        info'.stakeVotedSubtree - info'.stakeVotedAt =
          info.stakeVotedSubtree - info.stakeVotedAt) := by
  cases op with
  | aggregate => exact (hop rfl).elim
  | add stake =>
    cases h
    exact ⟨rfl, rfl, rfl, fun hle => by dsimp only; omega⟩
  | subtract stake =>
    rw [UpdateOperation.effect] at h
    split_ifs at h with hs
    cases h
    exact ⟨rfl, rfl, rfl, fun hle => by dsimp only; omega⟩
  | markValid slot =>
    rw [UpdateOperation.effect, updateWithNewlyValidAncestor_eq] at h
    cases h
    split_ifs <;> exact ⟨rfl, rfl, rfl, fun hle => ⟨hle, rfl⟩⟩
  | markInvalid slot =>
    have hconf := confirmed_of_updateWithNewlyInvalidAncestor h
    rw [UpdateOperation.effect, updateWithNewlyInvalidAncestor_eq slot hconf] at h
    cases h
    exact ⟨rfl, rfl, rfl, fun hle => ⟨hle, rfl⟩⟩

variable (Hash)

theorem stakeOk_local : Local (@StakeOk Hash _) where
  congr {f g k i} hsame h := by
    rw [StakeOk, h]
    congr 2
    apply map_congr_left
    intro c hc
    rw [stakeOf, hsame c hc, stakeOf]
  aggregate hk h := (aggregateInfo_spec hk h).1
  effect {f k i j op} hop h hi := by
    rw [StakeOk] at hi ⊢
    obtain ⟨hle, hdiff⟩ := (effect_fields hop h).2.2.2 (by omega)
    rw [(effect_kept h).children]
    omega
  parent h := h

theorem bestOk_local : Local (@BestOk Hash _) where
  congr {f g k i} hsame h := by
    have hbest : bestChild f i.children.keys = bestChild g i.children.keys :=
      bestChild_congr (fun c hc => by rw [stakeOf, hsame c hc, stakeOf])
        fun c hc => by rw [candidateOf, hsame c hc, candidateOf]
    rw [BestOk, h, hbest]
    cases hb : bestChild g i.children.keys with
    | none => rfl
    | some b =>
      show bestOf f b = bestOf g b
      rw [bestOf, hsame b (bestChild_eq_some.mp hb).1.1, bestOf]
  aggregate hk h := (aggregateInfo_spec hk h).2.1
  effect {f k i j op} hop h hi := by
    rw [BestOk, (effect_fields hop h).1, (effect_kept h).children]
    exact hi
  parent h := h

theorem depthOk_local : Local (@DepthOk Hash _) where
  congr {f g k i} hsame h := by
    have hdeep : deepestChild f i.children.keys = deepestChild g i.children.keys :=
      deepestChild_congr (fun c hc => by rw [stakeOf, hsame c hc, stakeOf])
        fun c hc => by rw [heightOf, hsame c hc, heightOf]
    rw [DepthOk, h.1, h.2, hdeep]
    cases hd : deepestChild g i.children.keys with
    | none => exact ⟨rfl, rfl⟩
    | some d =>
      have hsamed := hsame d (deepestChild_eq_some.mp hd).1
      show heightOf f d + 1 = heightOf g d + 1 ∧ deepestOf f d = deepestOf g d
      rw [heightOf, deepestOf, hsamed, heightOf, deepestOf]
      exact ⟨rfl, rfl⟩
  aggregate hk h := (aggregateInfo_spec hk h).2.2.1
  effect {f k i j op} hop h hi := by
    rw [DepthOk, (effect_fields hop h).2.1, (effect_fields hop h).2.2.1, (effect_kept h).children]
    exact hi
  parent h := h

theorem confirmedOk_local : Local (@ConfirmedOk Hash _) where
  congr {f g k i} hsame h := by
    intro c hc hconf
    apply h c hc
    rw [confirmedOf, hsame c hc]
    exact hconf
  aggregate hk h := (aggregateInfo_spec hk h).2.2.2.1
  effect {f k i j op} hop h hi := by
    intro c hc hconf
    rw [(effect_kept h).children] at hc
    exact (effect_kept h).confirmed (hi c hc hconf)
  parent h := h

end Aggregate

end Salsa.ForkChoice
