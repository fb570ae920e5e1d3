import Salsa.ForkChoice.Stake

/-!
# Salsa.ForkChoice.Duplicates — marks of duplicate blocks

A run of leaves and marks, with the blocks that are marked invalid and not confirmed since
(`I`) and the blocks that are duplicate confirmed (`D`). `latest_invalid_ancestor` is the
greatest slot of `I` on the path to a block, as long as no mark of a valid block leaves a
block beside its path that has its latest invalid ancestor on that path (`Clean`).
-/

namespace Salsa.ForkChoice

open UpdateOperation List Relation HeaviestSubtreeForkChoice Option Forest.Below

variable {Hash Pubkey : Type} [LinearOrder Hash] [LinearOrder Pubkey]
  {t t' : HeaviestSubtreeForkChoice Hash Pubkey} {key p k v : SlotHashKey Hash}
  {I D : Set (SlotHashKey Hash)}

/-! ## Confirmed blocks -/

variable {f : Entries Hash} {i j : ForkInfo Hash} {R : OrdSet (SlotHashKey Hash)}
  {C : HeaviestSubtreeForkChoice Hash Pubkey → SlotHashKey Hash → Prop}

theorem confirmedOf_iff :
    confirmedOf f k = true ↔ ∃ i, f k = some i ∧ i.isDuplicateConfirmed = true := by
  cases hk : f k with
  | none =>
    rw [confirmedOf, hk]
    simp
  | some i =>
    rw [confirmedOf, hk]
    simp

/-- What `aggregate_slot` does to the fields of duplicates. -/
theorem aggregateInfo_duplicates (h : aggregateInfo f k i = some j) (hk : k ∉ i.children.keys) :
    j.isDuplicateConfirmed = (i.isDuplicateConfirmed || i.children.keys.any (confirmedOf f)) ∧
      j.latestInvalidAncestor =
        if i.children.keys.any (confirmedOf f) then none else i.latestInvalidAncestor :=
  (aggregateInfo_spec hk h).2.2.2.2.2

theorem Wf.self_notMem (h : Wf f) (hi : f k = some i) : k ∉ i.children.keys := by
  intro hmem
  rw [← childrenOf_of_some hi] at hmem
  exact (h.child_lt hmem).false

/-- The blocks above a confirmed block are confirmed. -/
theorem TreeOk.confirmed_above (h : TreeOk t) {a : SlotHashKey Hash}
    (hb : Below t.forkInfos.get a k) (hk : confirmedOf t.forkInfos.get k = true) :
    confirmedOf t.forkInfos.get a = true := by
  induction hb with
  | refl => exact hk
  | @tail x y _ hxy ih =>
    apply ih
    obtain ⟨i, hi⟩ := h.wf.parent_some hxy
    have hmem := h.wf.parent_mem hxy
    rw [childrenOf_of_some hi] at hmem
    rw [confirmedOf, hi]
    exact h.confirmed hi y hmem hk

theorem effect_markValid {slot : ℕ} (h : (UpdateOperation.markValid slot).effect f k i = some j) :
    j.children = i.children ∧
      j.latestInvalidAncestor = i.latestInvalidAncestor.filter fun latest => slot < latest := by
  rw [effect, updateWithNewlyValidAncestor_eq] at h
  cases h
  split_ifs <;> exact ⟨rfl, rfl⟩

/-! ## What is marked and confirmed -/

def LatestIs (S : Set ℕ) : Option ℕ → Prop
  | none => S = ∅
  | some s => IsGreatest S s

/-- The slots of the blocks of `I` on the path to a block. -/
def invalidSlots (f : Entries Hash) (I : Set (SlotHashKey Hash)) (k : SlotHashKey Hash) : Set ℕ :=
  { s | ∃ a ∈ I, Below f a k ∧ a.slot = s }

/-- No condition on a leaf. -/
def AnyLeaf (_ : HeaviestSubtreeForkChoice Hash Pubkey) (_ _ : SlotHashKey Hash) : Prop := True

/-- The confirmed blocks are those of `D`, and those of `I` are other blocks of the tree. -/
structure MarksOk (t : HeaviestSubtreeForkChoice Hash Pubkey) (I D : Set (SlotHashKey Hash)) :
    Prop where
  confirmed : ∀ {k i}, t.forkInfos.get k = some i → (i.isDuplicateConfirmed = true ↔ k ∈ D)
  confirmed_mem : ∀ k ∈ D, ∃ i, t.forkInfos.get k = some i
  invalid_mem : ∀ k ∈ I, ∃ i, t.forkInfos.get k = some i
  apart : ∀ k ∈ I, k ∉ D

section

variable (hm : MarksOk t I D)
include hm

theorem MarksOk.confirmedOf_iff : confirmedOf t.forkInfos.get k = true ↔ k ∈ D := by
  rw [ForkChoice.confirmedOf_iff]
  constructor
  · rintro ⟨i, hi, hconf⟩
    exact (hm.confirmed hi).mp hconf
  · intro hk
    obtain ⟨i, hi⟩ := hm.confirmed_mem k hk
    exact ⟨i, hi, (hm.confirmed hi).mpr hk⟩

variable (h : TreeOk t)
include h

/-- Nothing on the path to a confirmed block is marked invalid. -/
theorem MarksOk.path (hk : k ∈ D) : invalidSlots t.forkInfos.get I k = ∅ := by
  apply Set.eq_empty_of_forall_notMem
  rintro s ⟨a, ha, hb, -⟩
  exact hm.apart a ha (hm.confirmedOf_iff.mp (h.confirmed_above hb (hm.confirmedOf_iff.mpr hk)))

/-- The parent of a confirmed block is confirmed. -/
theorem MarksOk.parent {c : SlotHashKey Hash}
    (hpar : parentOf t.forkInfos.get c = some k) (hc : c ∈ D) : k ∈ D :=
  hm.confirmedOf_iff.mp (h.confirmed_above (.single hpar) (hm.confirmedOf_iff.mpr hc))

theorem MarksOk.slot_ne_zero (hk : k ∈ I) : k.slot ≠ 0 := by
  intro hslot
  obtain ⟨i, hi⟩ := hm.invalid_mem k hk
  exact hm.apart k hk ((hm.confirmed hi).mp (h.wf.zero hi hslot))

theorem MarksOk.leaf (hs : LeafStep AnyLeaf t t') : MarksOk t' I D := by
  obtain ⟨key, p, infos, -, hl, hprop, -, -⟩ := hs
  have hfr := propagateNewLeaf_frame (hl.wf h.wf) hl.parentOf_key hprop
  have hmem : ∀ {k}, (∃ i, t.forkInfos.get k = some i) → ∃ j, t'.forkInfos.get k = some j :=
    fun hk => hfr.keeps.some_iff.mpr (hl.some_iff.mpr (Or.inr hk))
  refine ⟨?_, fun k hk => hmem (hm.confirmed_mem k hk), fun k hk => hmem (hm.invalid_mem k hk),
    hm.apart⟩
  intro k j hj
  obtain ⟨i, hi, b, n, d, rfl⟩ := hfr.of_some hj
  obtain ⟨ip, hf, hg, hkey⟩ := hl.parent
  by_cases hk : k = key
  · rw [hk, hkey] at hi
    cases hi
    constructor
    · intro hfalse
      cases hfalse
    · intro hD
      obtain ⟨i, hi⟩ := hm.confirmed_mem k hD
      rw [hk, hl.fresh] at hi
      cases hi
  · by_cases hkp : k = p
    · rw [hkp, hg] at hi
      cases hi
      rw [hkp]
      exact (hm.confirmed hf :)
    · rw [hl.other hk hkp] at hi
      exact (hm.confirmed hi :)

theorem MarksOk.leaves (hs : ReflTransGen (LeafStep AnyLeaf) t t') : MarksOk t' I D := by
  induction hs with
  | refl => exact hm
  | tail hsteps hstep ih => exact ih.leaf (LeafStep.run_treeOk hsteps h) hstep

end

/-! ## The latest invalid ancestor -/

variable {o : Option ℕ} {S : Set ℕ}

theorem LatestIs.insert (h : LatestIs S o) (s : ℕ) :
    LatestIs (insert s S) (some (o.elim s (max s))) := by
  cases o with
  | none =>
    rw [show S = ∅ from h, insert_empty_eq]
    exact isGreatest_singleton
  | some latest => exact IsGreatest.insert s h

theorem LatestIs.filter (h : LatestIs S o) (n : ℕ) :
    LatestIs { s ∈ S | n < s } (o.filter fun s => n < s) := by
  cases o with
  | none =>
    apply Set.eq_empty_of_forall_notMem
    rintro s ⟨hs, -⟩
    rw [show S = ∅ from h] at hs
    exact hs
  | some latest =>
    have hmax : IsGreatest S latest := h
    by_cases hlt : n < latest
    · rw [filter_some, if_pos (decide_eq_true hlt)]
      exact ⟨⟨hmax.1, hlt⟩, fun s hs => hmax.2 hs.1⟩
    · rw [filter_some, if_neg (by simpa using hlt)]
      apply Set.eq_empty_of_forall_notMem
      rintro s ⟨hs, hn⟩
      exact hlt (hn.trans_le (hmax.2 hs))

/-- `latest_invalid_ancestor` is right everywhere. -/
def LatestRight (t : HeaviestSubtreeForkChoice Hash Pubkey) (I : Set (SlotHashKey Hash)) : Prop :=
  ∀ ⦃k i⦄, t.forkInfos.get k = some i →
    LatestIs (invalidSlots t.forkInfos.get I k) i.latestInvalidAncestor

theorem Keeps.invalidSlots_eq {f g : Entries Hash} (hk : Keeps f g) (I : Set (SlotHashKey Hash))
    (k : SlotHashKey Hash) : invalidSlots g I k = invalidSlots f I k := by
  ext s
  exact exists_congr fun a => and_congr_right fun _ => and_congr_left fun _ => hk.below_iff a k

/-- A leaf takes over its parent's latest invalid ancestor. -/
theorem LatestRight.leaf (hr : LatestRight t I) (hm : MarksOk t I D) (h : TreeOk t)
    (hs : LeafStep AnyLeaf t t') : LatestRight t' I := by
  obtain ⟨key, p, infos, -, hl, hprop, -, -⟩ := hs
  have hfr := propagateNewLeaf_frame (hl.wf h.wf) hl.parentOf_key hprop
  obtain ⟨ip, hf, hg, hkey⟩ := hl.parent
  have hI : ∀ a ∈ I, a ≠ key := by
    rintro a ha rfl
    obtain ⟨i, hi⟩ := hm.invalid_mem a ha
    cases hl.fresh.symm.trans hi
  have hold : ∀ {x}, x ≠ key → invalidSlots infos.get I x = invalidSlots t.forkInfos.get I x := by
    intro x hx
    ext s
    exact exists_congr fun a => and_congr_right fun _ => and_congr_left fun _ =>
      hl.below_iff h.wf hx
  intro k j hj
  obtain ⟨i, hi, b, n, d, rfl⟩ := hfr.of_some hj
  rw [hfr.keeps.invalidSlots_eq]
  by_cases hk : k = key
  · rw [hk, hkey] at hi
    cases hi
    have hnew : invalidSlots infos.get I k = invalidSlots t.forkInfos.get I p := by
      rw [← hold hl.ne, hk]
      ext s
      refine exists_congr fun a => and_congr_right fun ha => and_congr_left fun _ => ?_
      constructor
      · intro hb
        obtain ⟨q, hq, hbq⟩ := below_parent hb fun heq => hI a ha heq.symm
        rw [hl.parentOf_key] at hq
        cases hq
        exact hbq
      · exact fun hb => .tail hb hl.parentOf_key
    rw [hnew]
    exact (hr hf :)
  · rw [hold hk]
    by_cases hkp : k = p
    · rw [hkp, hg] at hi
      cases hi
      rw [hkp]
      exact (hr hf :)
    · rw [hl.other hk hkp] at hi
      exact (hr hi :)

theorem LatestRight.leaves (hr : LatestRight t I) (hm : MarksOk t I D) (h : TreeOk t)
    (hs : ReflTransGen (LeafStep AnyLeaf) t t') : LatestRight t' I := by
  induction hs with
  | refl => exact hr
  | tail hsteps hstep ih =>
    exact ih.leaf (hm.leaves h hsteps) (LeafStep.run_treeOk hsteps h) hstep

/-! ## Marks -/

/-- The block and its ancestors. -/
def pathTo (t : HeaviestSubtreeForkChoice Hash Pubkey) (key : SlotHashKey Hash) :
    Set (SlotHashKey Hash) := { a | Below t.forkInfos.get a key }

/-- No block beside the path to `key` has its latest invalid ancestor on that path. -/
def Clean (t : HeaviestSubtreeForkChoice Hash Pubkey) (key : SlotHashKey Hash) : Prop :=
  ∀ x i, t.forkInfos.get x = some i → ¬ Below t.forkInfos.get key x →
    ¬ Below t.forkInfos.get x key → ∀ a, Below t.forkInfos.get a x → Below t.forkInfos.get a key →
      i.latestInvalidAncestor ≠ some a.slot

variable [Inhabited Hash] {mark : UpdateOperation}

/-- The entry of a block after a mark. -/
theorem Marked.entry (hm : Marked t mark key R t') (h : TreeOk t)
    (hmark : mark.IsMark) (hi : t.forkInfos.get k = some i) (hj : t'.forkInfos.get k = some j) :
    (k ∈ R.keys → ∃ i', mark.effect t'.forkInfos.get k i = some i' ∧
      aggregateInfo t'.forkInfos.get k i' = some j) ∧
    (k ∉ R.keys → Ancestor t.forkInfos.get k key → aggregateInfo t'.forkInfos.get k i = some j) ∧
    (k ∉ R.keys → ¬ Ancestor t.forkInfos.get k key → j = i) := by
  obtain ⟨hin, hanc, hout⟩ := markOperations_opsAt h.wf hmark hm.notified.hangs k
  obtain ⟨j', hj', hfold⟩ := process_at hm.process h.wf.childrenAbove hi
  cases hj.symm.trans hj'
  refine ⟨fun hk => ?_, fun hk ha => ?_, fun hk ha => ?_⟩
  · rw [hin hk, foldlM_cons] at hfold
    obtain ⟨i', hi', hrest⟩ := bind_eq_some_iff.mp hfold
    obtain ⟨j', hj', hnil⟩ := bind_eq_some_iff.mp hrest
    cases hnil
    exact ⟨i', hi', hj'⟩
  · rw [hanc hk ha, foldlM_cons] at hfold
    obtain ⟨j', hj', hnil⟩ := bind_eq_some_iff.mp hfold
    cases hnil
    exact hj'
  · rw [hout hk ha] at hfold
    cases hfold
    rfl

theorem Notified.mem_of_below (h : TreeOk t) (hn : Notified t.forkInfos.get key default R)
    (hslot : key.slot ≠ 0) (hb : Below t.forkInfos.get key k) : k ∈ R.keys := by
  refine hn.all ?_ k hb
  intro hb'
  have hle : key.slot ≤ (default : SlotHashKey Hash).slot := rank_le (F := h.wf.forest) hb'
  exact hslot (Nat.le_zero.mp hle)

/-- What a mark confirms: blocks with `P`, if it has them from the mark itself or from a child. -/
theorem Marked.confirmed_of (hm : Marked t mark key R t') (h : TreeOk t)
    (hmark : mark.IsMark) {P : SlotHashKey Hash → Prop}
    (hP : ∀ {k c}, parentOf t.forkInfos.get c = some k → P c → P k)
    (heffect : ∀ {k i i'}, k ∈ R.keys → mark.effect t'.forkInfos.get k i = some i' →
      i'.children = i.children ∧
        (i'.isDuplicateConfirmed = true → i.isDuplicateConfirmed = true ∨ P k))
    (hi : t.forkInfos.get k = some i) (hj : t'.forkInfos.get k = some j) :
    j.isDuplicateConfirmed = true → i.isDuplicateConfirmed = true ∨ P k := by
  have hkeeps := process_keeps hm.process
  refine (hkeeps.wf h.wf).up_induction (P := fun k => ∀ i j, t.forkInfos.get k = some i →
    t'.forkInfos.get k = some j → j.isDuplicateConfirmed = true →
    i.isDuplicateConfirmed = true ∨ P k) ?_ k j hj i j hi hj
  intro k j hj ih i j' hi hj'
  cases hj.symm.trans hj'
  obtain ⟨i₀, hi₀, hkept⟩ := hkeeps.of_some hj
  cases hi.symm.trans hi₀
  have hself := h.wf.self_notMem hi
  have hany : i.children.keys.any (confirmedOf t'.forkInfos.get) = true →
      i.isDuplicateConfirmed = true ∨ P k := by
    intro hany
    obtain ⟨c, hc, hconf⟩ := any_eq_true.mp hany
    obtain ⟨jc, hjc, hconf⟩ := confirmedOf_iff.mp hconf
    obtain ⟨ic, hic, -⟩ := hkeeps.of_some hjc
    rcases ih c (hkept.children ▸ hc) ic jc hic hjc hconf with hold | hb
    · exact Or.inl (h.confirmed hi c hc (confirmedOf_iff.mpr ⟨ic, hic, hold⟩))
    · exact Or.inr (hP (h.wf.child_mem (childrenOf_of_some hi ▸ hc)) hb)
  have hagg : ∀ {i' : ForkInfo Hash}, i'.children = i.children →
      (i'.isDuplicateConfirmed = true → i.isDuplicateConfirmed = true ∨ P k) →
      aggregateInfo t'.forkInfos.get k i' = some j → j.isDuplicateConfirmed = true →
      i.isDuplicateConfirmed = true ∨ P k := by
    intro i' hchildren hflag hi' hjc
    rw [(aggregateInfo_duplicates hi' (hchildren ▸ hself)).1, hchildren, Bool.or_eq_true] at hjc
    rcases hjc with hjc | hjc
    · exact hflag hjc
    · exact hany hjc
  obtain ⟨hin, hanc, hout⟩ := hm.entry h hmark hi hj
  by_cases hk : k ∈ R.keys
  · obtain ⟨i', hi', hrest⟩ := hin hk
    obtain ⟨hchildren, hflag⟩ := heffect hk hi'
    exact hagg hchildren hflag hrest
  · by_cases ha : Ancestor t.forkInfos.get k key
    · exact hagg rfl Or.inl (hanc hk ha)
    · rw [hout hk ha]
      exact Or.inl

/-- A mark as invalid confirms nothing. -/
theorem Marked.confirmed_invalid (hm : Marked t (.markInvalid key.slot) key R t') (h : TreeOk t)
    (hi : t.forkInfos.get k = some i) (hj : t'.forkInfos.get k = some j) :
    j.isDuplicateConfirmed = i.isDuplicateConfirmed := by
  rw [Bool.eq_iff_iff]
  constructor
  · intro hjc
    refine (hm.confirmed_of h ⟨_, Or.inr rfl⟩ (P := fun _ => False) (fun _ => id) ?_ hi hj hjc).elim
      id False.elim
    intro k i i' _ hi'
    rw [effect, updateWithNewlyInvalidAncestor_eq key.slot
      (confirmed_of_updateWithNewlyInvalidAncestor hi')] at hi'
    cases hi'
    exact ⟨rfl, Or.inl⟩
  · obtain ⟨i₀, hi₀, hkept⟩ := (process_keeps hm.process).of_some hj
    cases hi.symm.trans hi₀
    exact hkept.confirmed

/-- A mark as valid confirms the path to the block. -/
theorem Marked.confirmed_valid (hm : Marked t (.markValid key.slot) key R t') (h : TreeOk t)
    (hi : t.forkInfos.get k = some i) (hj : t'.forkInfos.get k = some j) :
    j.isDuplicateConfirmed = true ↔
      i.isDuplicateConfirmed = true ∨ Below t.forkInfos.get k key := by
  have hkeeps := process_keeps hm.process
  have h' : TreeOk t' := hm.treeOk h ⟨_, Or.inl rfl⟩
  constructor
  · refine hm.confirmed_of h ⟨_, Or.inl rfl⟩ (P := fun k => Below t.forkInfos.get k key)
      (fun hc hb => .head hc hb) ?_ hi hj
    intro k i i' hk hi'
    refine ⟨(effect_markValid hi').1, ?_⟩
    rw [effect, updateWithNewlyValidAncestor_eq] at hi'
    cases hi'
    by_cases hslot : k.slot = key.slot
    · -- the only block of the subtree at the slot is its root
      intro _
      right
      rcases ReflTransGen.cases_tail (hm.notified.below k hk) with heq | ⟨x, hx, hxk⟩
      · rw [heq]
        exact .refl
      · have hle : key.slot ≤ x.slot := rank_le (F := h.wf.forest) hx
        have hlt := h.wf.slot_lt hxk
        omega
    · rw [if_neg hslot]
      exact Or.inl
  · rintro (hold | hb)
    · obtain ⟨i₀, hi₀, hkept⟩ := hkeeps.of_some hj
      cases hi.symm.trans hi₀
      exact hkept.confirmed hold
    · -- the block itself is confirmed, and so is everything above it
      obtain ⟨iv, hiv⟩ := hm.mem
      obtain ⟨jv, hjv, hkeptv⟩ := hkeeps.to_some hiv
      have hconf : confirmedOf t'.forkInfos.get key = true := by
        rw [confirmedOf, hjv]
        by_cases hslot : key.slot = 0
        · exact hkeptv.confirmed (h.wf.zero hiv hslot)
        · have hmem := Notified.mem_of_below h hm.notified hslot .refl
          obtain ⟨i', hi', hrest⟩ := (hm.entry h ⟨_, Or.inl rfl⟩ hiv hjv).1 hmem
          rw [effect, if_pos rfl] at hi'
          cases hi'
          have hself := h.wf.self_notMem hiv
          have hagg := (aggregateInfo_duplicates hrest
            (by rw [updateWithNewlyValidAncestor_eq]; exact hself)).1
          exact hagg
      have habove := h'.confirmed_above ((hkeeps.below_iff k key).mpr hb) hconf
      rw [confirmedOf, hj] at habove
      exact habove

/-! ## What the marks do -/

theorem MarksOk.invalid (hm : MarksOk t I D) (h : TreeOk t)
    (hmark : Marked t (.markInvalid key.slot) key R t') (hD : key ∉ D) :
    MarksOk t' (insert key I) D := by
  have hkeeps := process_keeps hmark.process
  refine ⟨?_, fun k hk => hkeeps.some_iff.mpr (hm.confirmed_mem k hk), ?_, ?_⟩
  · intro k j hj
    obtain ⟨i, hi, -⟩ := hkeeps.of_some hj
    rw [hmark.confirmed_invalid h hi hj]
    exact hm.confirmed hi
  · rintro k (rfl | hk)
    · exact hkeeps.some_iff.mpr hmark.mem
    · exact hkeeps.some_iff.mpr (hm.invalid_mem k hk)
  · rintro k (rfl | hk)
    · exact hD
    · exact hm.apart k hk

theorem MarksOk.valid (hm : MarksOk t I D) (h : TreeOk t)
    (hmark : Marked t (.markValid key.slot) key R t') :
    MarksOk t' (I \ pathTo t key) (D ∪ pathTo t key) := by
  have hkeeps := process_keeps hmark.process
  refine ⟨?_, fun k hk => hkeeps.some_iff.mpr ?_,
    fun k hk => hkeeps.some_iff.mpr (hm.invalid_mem k hk.1), ?_⟩
  · intro k j hj
    obtain ⟨i, hi, -⟩ := hkeeps.of_some hj
    rw [hmark.confirmed_valid h hi hj, hm.confirmed hi]
    rfl
  · rcases hk with hk | hk
    · exact hm.confirmed_mem k hk
    · -- everything above a block of the tree is in the tree
      rcases ReflTransGen.cases_head hk with rfl | ⟨c, hc, -⟩
      · exact hmark.mem
      · exact h.wf.parent_some hc
  · rintro k ⟨hk, hpath⟩ (hD | hD)
    · exact hm.apart k hk hD
    · exact hpath hD

/-- A mark as invalid goes to the whole subtree. -/
theorem LatestRight.invalid (hr : LatestRight t I) (hm : MarksOk t I D) (h : TreeOk t)
    (hmark : Marked t (.markInvalid key.slot) key R t')
    (hD : key ∉ D) : LatestRight t' (insert key I) := by
  have hkeeps := process_keeps hmark.process
  have hm' := hm.invalid h hmark hD
  have hslot := hm'.slot_ne_zero (hmark.treeOk h ⟨_, Or.inr rfl⟩) (Set.mem_insert key I)
  intro k j hj
  obtain ⟨i, hi, -⟩ := hkeeps.of_some hj
  obtain ⟨hin, hanc, hout⟩ := hmark.entry h ⟨_, Or.inr rfl⟩ hi hj
  have hself := h.wf.self_notMem hi
  rw [hkeeps.invalidSlots_eq]
  by_cases hb : Below t.forkInfos.get key k
  · have hslots : invalidSlots t.forkInfos.get (insert key I) k =
        insert key.slot (invalidSlots t.forkInfos.get I k) := by
      ext s
      constructor
      · rintro ⟨a, rfl | ha, hak, rfl⟩
        · exact Or.inl rfl
        · exact Or.inr ⟨a, ha, hak, rfl⟩
      · rintro (rfl | ⟨a, ha, hak, rfl⟩)
        · exact ⟨key, Or.inl rfl, hb, rfl⟩
        · exact ⟨a, Or.inr ha, hak, rfl⟩
    obtain ⟨i', hi', hrest⟩ := hin (Notified.mem_of_below h hmark.notified hslot hb)
    have hflag := confirmed_of_updateWithNewlyInvalidAncestor hi'
    rw [effect, updateWithNewlyInvalidAncestor_eq key.slot hflag] at hi'
    cases hi'
    have hlatest := (aggregateInfo_duplicates hrest hself).2
    have hany : i.children.keys.any (confirmedOf t'.forkInfos.get) ≠ true := by
      intro hany
      obtain ⟨c, hc, hconf⟩ := any_eq_true.mp hany
      have hpar := h.wf.child_mem (childrenOf_of_some hi ▸ hc)
      have hkD := hm.parent h hpar (hm'.confirmedOf_iff.mp hconf)
      rw [(hm.confirmed hi).mpr hkD] at hflag
      cases hflag
    rw [hlatest, if_neg hany, hslots]
    exact (hr hi).insert key.slot
  · have hslots : invalidSlots t.forkInfos.get (insert key I) k =
        invalidSlots t.forkInfos.get I k := by
      ext s
      constructor
      · rintro ⟨a, rfl | ha, hak, rfl⟩
        · exact (hb hak).elim
        · exact ⟨a, ha, hak, rfl⟩
      · rintro ⟨a, ha, hak, rfl⟩
        exact ⟨a, Or.inr ha, hak, rfl⟩
    have hk : k ∉ R.keys := fun hk => hb (hmark.notified.below k hk)
    rw [hslots]
    by_cases ha : Ancestor t.forkInfos.get k key
    · have hlatest := (aggregateInfo_duplicates (hanc hk ha) hself).2
      rw [hlatest]
      by_cases hany : i.children.keys.any (confirmedOf t'.forkInfos.get) = true
      · -- a confirmed child: the block was confirmed, and nothing invalid is above it
        obtain ⟨c, hc, hconf⟩ := any_eq_true.mp hany
        have hpar := h.wf.child_mem (childrenOf_of_some hi ▸ hc)
        have hkD := hm.parent h hpar (hm'.confirmedOf_iff.mp hconf)
        rw [if_pos hany, hm.path h hkD]
        rfl
      · rw [if_neg hany]
        exact hr hi
    · rw [hout hk ha]
      exact hr hi

/-- A mark as valid takes the path to the block out of the invalid ones. -/
theorem LatestRight.valid (hr : LatestRight t I) (hm : MarksOk t I D) (h : TreeOk t)
    (hmark : Marked t (.markValid key.slot) key R t')
    (hclean : Clean t key) : LatestRight t' (I \ pathTo t key) := by
  have hkeeps := process_keeps hmark.process
  have hm' := hm.valid h hmark
  intro k j hj
  obtain ⟨i, hi, -⟩ := hkeeps.of_some hj
  obtain ⟨hin, hanc, hout⟩ := hmark.entry h ⟨_, Or.inl rfl⟩ hi hj
  have hself := h.wf.self_notMem hi
  rw [hkeeps.invalidSlots_eq]
  by_cases hb : Below t.forkInfos.get key k
  · have hslots : invalidSlots t.forkInfos.get (I \ pathTo t key) k =
        { s ∈ invalidSlots t.forkInfos.get I k | key.slot < s } := by
      ext s
      constructor
      · rintro ⟨a, ⟨ha, hpath⟩, hak, rfl⟩
        refine ⟨⟨a, ha, hak, rfl⟩, ?_⟩
        have hka := (total (F := h.wf.forest) hb hak).resolve_right hpath
        rcases ReflTransGen.cases_tail hka with heq | ⟨x, hx, hxa⟩
        · exact (hpath (heq ▸ .refl)).elim
        · exact (rank_le hx).trans_lt (h.wf.slot_lt hxa)
      · rintro ⟨⟨a, ha, hak, rfl⟩, hlt⟩
        refine ⟨a, ⟨ha, fun hpath => ?_⟩, hak, rfl⟩
        exact (rank_le (F := h.wf.forest) hpath).not_gt hlt
    rw [hslots]
    by_cases hk : k ∈ R.keys
    · obtain ⟨i', hi', hrest⟩ := hin hk
      obtain ⟨hchildren, hfiltered⟩ := effect_markValid hi'
      have hlatest := (aggregateInfo_duplicates hrest (hchildren ▸ hself)).2
      rw [hlatest, hchildren, hfiltered]
      by_cases hany : i.children.keys.any (confirmedOf t'.forkInfos.get) = true
      · -- a confirmed child is not on the path, so the block was confirmed before
        obtain ⟨c, hc, hconf⟩ := any_eq_true.mp hany
        have hpar := h.wf.child_mem (childrenOf_of_some hi ▸ hc)
        have hcD : c ∈ D := by
          refine (hm'.confirmedOf_iff.mp hconf).resolve_right fun hck => ?_
          have hle : c.slot ≤ key.slot := rank_le (F := h.wf.forest) hck
          have hle' : key.slot ≤ k.slot := rank_le (F := h.wf.forest) hb
          have hlt := h.wf.slot_lt hpar
          omega
        rw [if_pos hany, hm.path h (hm.parent h hpar hcD)]
        exact Set.sep_empty _
      · rw [if_neg hany]
        exact (hr hi).filter key.slot
    · -- only the subtree of slot zero is not notified, and no block there is invalid
      have hslot : key.slot = 0 := by
        by_contra hslot
        exact hk (Notified.mem_of_below h hmark.notified hslot hb)
      have hall : { s ∈ invalidSlots t.forkInfos.get I k | key.slot < s } =
          invalidSlots t.forkInfos.get I k := by
        apply Set.sep_eq_self_iff_mem_true.mpr
        rintro s ⟨a, ha, -, rfl⟩
        have hne := hm.slot_ne_zero h ha
        omega
      rw [hout hk (ancestor_not_below h.wf hb), hall]
      exact hr hi
  · have hk : k ∉ R.keys := fun hk => hb (hmark.notified.below k hk)
    by_cases ha : Ancestor t.forkInfos.get k key
    · -- the child towards the block is confirmed
      obtain ⟨c, hc, hck⟩ := TransGen.head'_iff.mp ha
      have hmem := h.wf.parent_mem hc
      rw [childrenOf_of_some hi] at hmem
      have hany : i.children.keys.any (confirmedOf t'.forkInfos.get) = true :=
        any_eq_true.mpr ⟨c, hmem, hm'.confirmedOf_iff.mpr (Or.inr hck)⟩
      rw [(aggregateInfo_duplicates (hanc hk ha) hself).2, if_pos hany]
      apply Set.eq_empty_of_forall_notMem
      rintro s ⟨a, ⟨-, hpath⟩, hak, -⟩
      exact hpath (hak.trans ha.to_reflTransGen)
    · rw [hout hk ha]
      have hnot : ¬ Below t.forkInfos.get k key := by
        intro hkk
        rcases Relation.reflTransGen_iff_eq_or_transGen.mp hkk with heq | hanc'
        · exact hb (heq ▸ .refl)
        · exact ha hanc'
      have hsub : ∀ s ∈ invalidSlots t.forkInfos.get (I \ pathTo t key) k,
          s ∈ invalidSlots t.forkInfos.get I k := by
        rintro s ⟨a, ⟨haI, -⟩, hak, rfl⟩
        exact ⟨a, haI, hak, rfl⟩
      have hold := hr hi
      cases hlatest : i.latestInvalidAncestor with
      | none =>
        rw [hlatest] at hold
        apply Set.eq_empty_of_forall_notMem
        intro s hs
        have hs' := hsub s hs
        rw [show invalidSlots t.forkInfos.get I k = ∅ from hold] at hs'
        exact hs'
      | some s =>
        rw [hlatest] at hold
        obtain ⟨⟨a, haI, hak, rfl⟩, hmax⟩ : IsGreatest _ s := hold
        refine ⟨⟨a, ⟨haI, fun hpath => ?_⟩, hak, rfl⟩, fun s hs => hmax (hsub s hs)⟩
        exact hclean k i hi hb hnot a hak hpath hlatest

/-! ## Runs -/

/-- Runs of leaves and marks in which every mark of a valid block meets `C`. -/
inductive MarkRun (C : HeaviestSubtreeForkChoice Hash Pubkey → SlotHashKey Hash → Prop) :
    HeaviestSubtreeForkChoice Hash Pubkey → Set (SlotHashKey Hash) → Set (SlotHashKey Hash) → Prop
  | new {t root : _} (h : HeaviestSubtreeForkChoice.new root = some t) : MarkRun C t ∅ {root}
  | addNewLeafSlot {t t' key p I D : _} (ht : MarkRun C t I D) (hadd : AddsLeaf AnyLeaf t key p)
      (h : t.addNewLeafSlot key (some p) = some t') : MarkRun C t' I D
  | markForkInvalidCandidate {t t' key I D : _} (ht : MarkRun C t I D)
      (hkey : t.containsBlock key = true) (hD : key ∉ D)
      (h : t.markForkInvalidCandidate key = some t') : MarkRun C t' (insert key I) D
  | markMissing {t t' key I D : _} (ht : MarkRun C t I D) (hkey : t.containsBlock key = false)
      (h : t.markForkInvalidCandidate key = some t') : MarkRun C t' I D
  | markForkValidCandidate {t t' key I D newly : _} (ht : MarkRun C t I D)
      (hC : C t key) (h : t.markForkValidCandidate key = some (newly, t')) :
      MarkRun C t' (I \ pathTo t key) (D ∪ pathTo t key)

theorem MarkRun.reachable (hr : MarkRun C t I D) (E : Epochs Pubkey) : Reachable E AnyLeaf t := by
  induction hr with
  | new h => exact .new h
  | addNewLeafSlot _ hadd h ih => exact .addNewLeafSlot ih hadd h
  | markForkInvalidCandidate _ _ _ h ih => exact .markForkInvalidCandidate ih h
  | markMissing _ _ h ih => exact .markForkInvalidCandidate ih h
  | markForkValidCandidate _ _ h ih => exact .markForkValidCandidate ih h

theorem MarkRun.treeOk
    (hr : MarkRun C t I D) : TreeOk t := (hr.reachable ⟨fun _ => none, fun _ => 0⟩).treeOk

/-- The marks are in the entries, and where all marks are clean so are the latest ones. -/
theorem MarkRun.ok (hr : MarkRun C t I D) :
    MarksOk t I D ∧ ((∀ t key, C t key → Clean t key) → LatestRight t I) := by
  induction hr with
  | @new t root h =>
    obtain ⟨-, -, hget, honly⟩ := new_spec h
    refine ⟨⟨?_, ?_, nofun, nofun⟩, fun _ k i hi => ?_⟩
    · intro k i hi
      obtain ⟨hk, rfl⟩ := honly hi
      exact ⟨fun _ => hk, fun _ => rfl⟩
    · rintro k rfl
      exact ⟨_, hget⟩
    · obtain ⟨-, rfl⟩ := honly hi
      apply Set.eq_empty_of_forall_notMem
      rintro s ⟨a, ha, -⟩
      exact ha
  | addNewLeafSlot ht hadd h ih =>
    obtain ⟨t', h', hsteps, -⟩ := addNewLeafSlot_step ht.treeOk hadd
    cases h.symm.trans h'
    exact ⟨ih.1.leaves ht.treeOk hsteps, fun hC => (ih.2 hC).leaves ih.1 ht.treeOk hsteps⟩
  | markForkInvalidCandidate ht hkey hD h ih =>
    obtain ⟨i, hi⟩ := contains_iff.mp hkey
    rcases markForkInvalidCandidate_spec ht.treeOk h with ⟨hnone, -⟩ | ⟨i, R, -, -, hm⟩
    · cases hnone.symm.trans hi
    · exact ⟨ih.1.invalid ht.treeOk hm hD, fun hC => (ih.2 hC).invalid ih.1 ht.treeOk hm hD⟩
  | markMissing ht hkey h ih =>
    rcases markForkInvalidCandidate_spec ht.treeOk h with ⟨-, rfl⟩ | ⟨i, R, hi, -, -⟩
    · exact ih
    · rw [contains_iff.mpr ⟨i, hi⟩] at hkey
      cases hkey
  | markForkValidCandidate ht hc h ih =>
    obtain ⟨R, hm⟩ := markForkValidCandidate_spec ht.treeOk h
    exact ⟨ih.1.valid ht.treeOk hm, fun hC => (ih.2 hC).valid ih.1 ht.treeOk hm (hC _ _ hc)⟩

theorem LatestIs.isNone_iff (h : LatestIs S o) : o.isNone = false ↔ S.Nonempty := by
  cases o with
  | none =>
    rw [show S = ∅ from h]
    exact ⟨nofun, fun hne => (Set.not_nonempty_empty hne).elim⟩
  | some s => exact ⟨fun _ => ⟨s, h.1⟩, fun _ => rfl⟩

/-- Marks of duplicates: in runs whose marks are clean the latest invalid ancestor is the
greatest slot that is marked and not confirmed since, and in no run does a mark panic. -/
theorem duplicate_marking (Hash Pubkey : Type) [LinearOrder Hash] [LinearOrder Pubkey]
    [Inhabited Hash] :
    (∀ (t : HeaviestSubtreeForkChoice Hash Pubkey) (I D : Set (SlotHashKey Hash)),
      MarkRun Clean t I D → ∀ k i, t.forkInfos.get k = some i →
        LatestIs { s | ∃ a ∈ I, Below t.forkInfos.get a k ∧ a.slot = s } i.latestInvalidAncestor ∧
        (i.isCandidate = false ↔ ∃ a ∈ I, Below t.forkInfos.get a k)) ∧
    ∀ (t : HeaviestSubtreeForkChoice Hash Pubkey) (I D : Set (SlotHashKey Hash)),
      MarkRun (fun _ _ => True) t I D →
        (∀ k i, t.forkInfos.get k = some i → (i.isDuplicateConfirmed = true ↔ k ∈ D)) ∧
        (∀ key, key ∉ D → ∃ t', t.markForkInvalidCandidate key = some t') ∧
        ∀ key, t.containsBlock key = true →
          ∃ newly t', t.markForkValidCandidate key = some (newly, t') := by
  refine ⟨?_, ?_⟩
  · intro t I D hr k i hi
    have hlatest := hr.ok.2 (fun _ _ h => h) hi
    refine ⟨hlatest, hlatest.isNone_iff.trans ⟨?_, ?_⟩⟩
    · rintro ⟨s, a, ha, hak, -⟩
      exact ⟨a, ha, hak⟩
    · rintro ⟨a, ha, hak⟩
      exact ⟨a.slot, a, ha, hak, rfl⟩
  · intro t I D hr
    have hstake := (hr.reachable ⟨fun _ => none, fun _ => 0⟩).stakeOk
    refine ⟨fun k i hi => hr.ok.1.confirmed hi, fun key hD => ?_, fun key hkey => ?_⟩
    · apply markForkInvalidCandidate_isSome hr.treeOk hstake
      intro i hi
      rw [Bool.eq_false_iff]
      exact fun hconf => hD ((hr.ok.1.confirmed hi).mp hconf)
    · exact markForkValidCandidate_isSome hr.treeOk hstake hkey

/-- Block 1 is marked invalid, and its child 2 is not a candidate until it is marked valid: the
mark is clean, since block 3 beside it is not below block 1. -/
theorem duplicate_marking_cleared :
    ∃ (t t' : HeaviestSubtreeForkChoice ℕ ℕ) (newly : List (SlotHashKey ℕ)) (i i' : ForkInfo ℕ),
      MarkRun Clean t (insert ⟨1, 0⟩ ∅) {⟨0, 0⟩} ∧
      t.forkInfos.get ⟨2, 0⟩ = some i ∧ i.isCandidate = false ∧
      t.markForkValidCandidate ⟨2, 0⟩ = some (newly, t') ∧ Clean t ⟨2, 0⟩ ∧
      t'.forkInfos.get ⟨2, 0⟩ = some i' ∧ i'.isCandidate = true := by
  have hchain : (do
      let t₀ : HeaviestSubtreeForkChoice ℕ ℕ ← HeaviestSubtreeForkChoice.new ⟨0, 0⟩
      let t₁ ← t₀.addNewLeafSlot ⟨1, 0⟩ (some ⟨0, 0⟩)
      let t₂ ← t₁.addNewLeafSlot ⟨2, 0⟩ (some ⟨1, 0⟩)
      let t₃ ← t₂.addNewLeafSlot ⟨3, 0⟩ (some ⟨0, 0⟩)
      let t ← t₃.markForkInvalidCandidate ⟨1, 0⟩
      let marked ← t.markForkValidCandidate ⟨2, 0⟩
      some (decide (t₀.containsBlock ⟨0, 0⟩ ∧ t₁.containsBlock ⟨1, 0⟩ ∧ t₂.containsBlock ⟨0, 0⟩ ∧
        t₃.containsBlock ⟨1, 0⟩ ∧ t.forkInfos.keys = [⟨0, 0⟩, ⟨1, 0⟩, ⟨2, 0⟩, ⟨3, 0⟩] ∧
        parentOf t.forkInfos.get ⟨2, 0⟩ = some ⟨1, 0⟩ ∧
        parentOf t.forkInfos.get ⟨1, 0⟩ = some ⟨0, 0⟩ ∧ t.latestInvalidAncestor ⟨3, 0⟩ = none ∧
        marked.2.containsBlock ⟨2, 0⟩))) = some true := by
    decide +kernel
  simp only [Option.bind_eq_bind, Option.bind_eq_some_iff, Option.some_inj,
    decide_eq_true_eq] at hchain
  obtain ⟨t₀, hnew, t₁, hadd₁, t₂, hadd₂, t₃, hadd₃, t, hinvalid, ⟨newly, t'⟩, hvalid, hroot₀,
    hblock₁, hroot₂, hblock₃, hkeys, hparent₂, hparent₁, hlatest₃, hblock⟩ := hchain
  have hrun : MarkRun Clean t (insert ⟨1, 0⟩ ∅) {⟨0, 0⟩} :=
    .markForkInvalidCandidate (.addNewLeafSlot (.addNewLeafSlot (.addNewLeafSlot (.new hnew)
      (fun _ => ⟨hroot₀, by decide, trivial⟩) hadd₁) (fun _ => ⟨hblock₁, by decide, trivial⟩) hadd₂)
      (fun _ => ⟨hroot₂, by decide, trivial⟩) hadd₃) hblock₃ (by simp) hinvalid
  have hone : Below t.forkInfos.get ⟨1, 0⟩ ⟨2, 0⟩ := .single hparent₂
  have hzero : Below t.forkInfos.get ⟨0, 0⟩ ⟨2, 0⟩ := .head hparent₁ hone
  have hclean : Clean t ⟨2, 0⟩ := by
    intro x i hx _ hnot a _ _ hlatest
    have hmem : x ∈ t.forkInfos.keys := OrdMap.mem_keys.mpr (by rw [hx]; rfl)
    rw [hkeys] at hmem
    simp only [List.mem_cons, List.not_mem_nil, or_false] at hmem
    rcases hmem with rfl | rfl | rfl | rfl
    · exact hnot hzero
    · exact hnot hone
    · exact hnot .refl
    · rw [latestInvalidAncestor, hx] at hlatest₃
      exact absurd (hlatest₃.symm.trans hlatest) (by simp)
  have hrun' := hrun.markForkValidCandidate hclean hvalid
  have hmem : t.containsBlock ⟨2, 0⟩ = true := OrdMap.contains_iff.mpr <| by
    have hmem : (⟨2, 0⟩ : SlotHashKey ℕ) ∈ t.forkInfos.keys := by rw [hkeys]; decide
    exact Option.isSome_iff_exists.mp (OrdMap.mem_keys.mp hmem)
  obtain ⟨i, hi⟩ := contains_iff.mp hmem
  obtain ⟨i', hi'⟩ := contains_iff.mp hblock
  have hmarking := (duplicate_marking ℕ ℕ).1
  refine ⟨t, t', newly, i, i', hrun, hi, ?_, hvalid, hclean, hi', ?_⟩
  · exact (hmarking t _ _ hrun _ i hi).2.mpr ⟨⟨1, 0⟩, Set.mem_insert _ _, hone⟩
  · rw [← Bool.not_eq_false, (hmarking t' _ _ hrun' _ i' hi').2]
    rintro ⟨a, ⟨ha, hnot⟩, -⟩
    rw [(Set.mem_insert_iff.mp ha).resolve_right (Set.notMem_empty a)] at hnot
    exact hnot hone

/-- Block 1 is marked invalid, and confirmed with block 3; block 4, a sibling of 3, keeps it
as its latest invalid ancestor. -/
theorem not_duplicate_marking :
    (do
      let t : HeaviestSubtreeForkChoice ℕ ℕ ← HeaviestSubtreeForkChoice.new ⟨0, 0⟩
      let t ← t.addNewLeafSlot ⟨1, 0⟩ (some ⟨0, 0⟩)
      let t ← t.addNewLeafSlot ⟨2, 0⟩ (some ⟨1, 0⟩)
      let t ← t.addNewLeafSlot ⟨3, 0⟩ (some ⟨2, 0⟩)
      let t ← t.addNewLeafSlot ⟨4, 0⟩ (some ⟨2, 0⟩)
      let t ← t.markForkInvalidCandidate ⟨1, 0⟩
      let (_, t) ← t.markForkValidCandidate ⟨3, 0⟩
      some (confirmedOf t.forkInfos.get ⟨1, 0⟩, t.latestInvalidAncestor ⟨4, 0⟩)) =
      some (true, some 1) := by
  decide +kernel

end Salsa.ForkChoice
