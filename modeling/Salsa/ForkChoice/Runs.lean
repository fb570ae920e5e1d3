import Salsa.ForkChoice.Leaf
import Salsa.ForkChoice.Votes

/-!
# Salsa.ForkChoice.Runs — the trees that the operations make

`TreeOk` holds of every tree that is built from a root by leaves, votes, new roots, splits,
merges and marks, and with it every local property that adding a leaf keeps
(`Reachable.everywhere`). What each operation does to the entries is said once, by its
`_spec` lemma.
-/

namespace Salsa.ForkChoice

open OrdMap Relation HeaviestSubtreeForkChoice

variable {Hash Pubkey : Type} [LinearOrder Hash] [LinearOrder Pubkey]

/-- The blocks form a tree below the root, and the parent of a duplicate confirmed block is
duplicate confirmed. -/
structure TreeOk (t : HeaviestSubtreeForkChoice Hash Pubkey) : Prop where
  wf : Wf t.forkInfos.get
  rooted : Rooted t.forkInfos.get t.treeRoot
  confirmed : Everywhere ConfirmedOk t.forkInfos.get

variable {E : Epochs Pubkey} {t t' other : HeaviestSubtreeForkChoice Hash Pubkey}
  {key p newRoot : SlotHashKey Hash} {P : Entries Hash → SlotHashKey Hash → ForkInfo Hash → Prop}
  {f g : Entries Hash}

theorem contains_iff {k : SlotHashKey Hash} :
    t.containsBlock k = true ↔ ∃ i, t.forkInfos.get k = some i := OrdMap.contains_iff

/-! ## Parts of a tree -/

theorem IsSubtree.everywhere (hs : IsSubtree f g key) (h : Wf f) (hP : Local P)
    (hf : Everywhere P f) : Everywhere P g := by
  intro x j hj
  have hb := hs.below_of_some hj
  have hsame : ∀ c ∈ j.children.keys, f c = g c := by
    intro c hc
    rw [← childrenOf_of_some hj, hs.childrenOf_eq hb] at hc
    have hpar := h.child_mem hc
    refine (hs.below (.tail hb hpar) ?_).symm
    rintro rfl
    exact h.not_below_parent hpar hb
  by_cases hx : x = key
  · obtain ⟨i, hi, hg⟩ := hs.root
    rw [hx, hg] at hj
    cases hj
    rw [hx]
    exact hP.congr hsame (hP.parent (hf hi))
  · rw [hs.below hb hx] at hj
    exact hP.congr hsame (hf hj)

/-! ## New roots -/

/-- What is not below the new root goes. -/
theorem setTreeRoot_spec (h : TreeOk t) (hroot : t.containsBlock newRoot = true) :
    ∃ t', t.setTreeRoot newRoot = some t' ∧
      IsSubtree t.forkInfos.get t'.forkInfos.get newRoot ∧ t'.treeRoot = newRoot ∧
      t'.latestVotes = t.latestVotes := by
  obtain ⟨i, hi⟩ := contains_iff.mp hroot
  obtain ⟨R, hR, hmem⟩ := subtreeDiff_rooted h.wf h.rooted newRoot
  obtain ⟨infos, hinfos, hget⟩ := foldlM_remove t.forkInfos
    (keys_nodup) fun k hk => ((hmem k).mp hk).1
  have hnew : infos.get newRoot = some i := by
    rw [hget, if_neg fun hk => ((hmem newRoot).mp hk).2 .refl, hi]
  refine ⟨{ t with
    forkInfos := infos.insert newRoot { i with parent := none }, treeRoot := newRoot }, ?_,
    ⟨⟨i, hi, get_insert_self _ _⟩, ?_, ?_⟩, rfl, rfl⟩
  · unfold setTreeRoot
    rw [hR]
    show (R.keys.foldlM remove t.forkInfos).bind _ = _
    rw [hinfos]
    show (infos.get newRoot).bind _ = _
    rw [hnew]
    rfl
  · intro x hb hx
    rw [get_insert_of_ne _ hx, hget, if_neg fun hk => ((hmem x).mp hk).2 hb]
  · intro x hb
    have hx : x ≠ newRoot := by
      rintro rfl
      exact hb .refl
    rw [get_insert_of_ne _ hx, hget]
    split_ifs with hk
    · rfl
    · cases hf : t.forkInfos.get x with
      | none => rfl
      | some j => exact (hk ((hmem x).mpr ⟨⟨j, hf⟩, hb⟩)).elim

theorem TreeOk.setTreeRoot (h : TreeOk t) (hs : IsSubtree t.forkInfos.get t'.forkInfos.get newRoot)
    (hroot : t'.treeRoot = newRoot) : TreeOk t' :=
  ⟨hs.wf h.wf, hroot ▸ hs.rooted, hs.everywhere h.wf (confirmedOk_local Hash) h.confirmed⟩

/-! ## Votes -/

variable {votes : List (Pubkey × SlotHashKey Hash)} {best : SlotHashKey Hash}

/-- What `add_votes` does. -/
theorem addVotes_spec (h : TreeOk t) (hadd : t.addVotes E votes = some (best, t')) :
    ∃ batch, t.generateUpdateOperations E votes = some batch ∧
      Accounts E t.forkInfos t.latestVotes batch ∧
      processUpdateOperations t.forkInfos batch.updateOperations = some t'.forkInfos ∧
      t'.latestVotes = batch.latestVotes ∧ t'.treeRoot = t.treeRoot := by
  obtain ⟨batch, hbatch, hrest⟩ := Option.bind_eq_some_iff.mp hadd
  obtain ⟨infos, hinfos, hrest⟩ := Option.bind_eq_some_iff.mp hrest
  obtain ⟨b, -, hlast⟩ := Option.bind_eq_some_iff.mp hrest
  cases hlast
  exact ⟨batch, hbatch, (Accounts.start.run h.wf hbatch).1, hinfos, rfl, rfl⟩

variable {ops : UpdateOperations Hash} {infos₁ infos₂ : ForkInfos Hash} {infos : ForkInfos Hash}

theorem TreeOk.process_everywhere (h : TreeOk t) (hP : Local P)
    (hb : Batch t.forkInfos.get ops) {infos' : ForkInfos Hash}
    (hproc : processUpdateOperations t.forkInfos ops = some infos')
    (hf : Everywhere P t.forkInfos.get) : Everywhere P infos'.get :=
  process_local hP hproc h.wf.childrenAbove hb (fun _ _ => h.wf.child_mem) fun _ _ hi _ => hf hi

/-- A batch on a tree. -/
theorem TreeOk.process (h : TreeOk t) (hb : Batch t.forkInfos.get ops)
    (hproc : processUpdateOperations t.forkInfos ops = some t'.forkInfos)
    (hroot : t'.treeRoot = t.treeRoot) : TreeOk t' :=
  ⟨(process_keeps hproc).wf h.wf, hroot ▸ (process_keeps hproc).rooted h.rooted,
    h.process_everywhere (confirmedOk_local Hash) hb hproc h.confirmed⟩

/-! ## Splits -/

/-- The operations of a split: aggregates of the ancestors. -/
theorem splitOperations_spec (h : Wf t.forkInfos.get) (key : SlotHashKey Hash) :
    Batch t.forkInfos.get (insertAggregateOperations t.forkInfos .empty key) ∧
      ∀ k, (Ancestor t.forkInfos.get k key →
          .aggregate ∈ opsAt (insertAggregateOperations t.forkInfos .empty key) k) ∧
        (¬ Ancestor t.forkInfos.get k key →
          opsAt (insertAggregateOperations t.forkInfos .empty key) k = []) ∧
        ∀ op ∈ opsAt (insertAggregateOperations t.forkInfos .empty key) k, op = .aggregate := by
  have hbut := (batch_empty t.forkInfos.get).but key
  have hadds := insertAggregateOperations_spec h hbut
  refine ⟨hadds.batch hbut, fun k => ⟨?_, ?_, ?_⟩⟩
  · intro hanc
    exact mem_opsAt.mpr ⟨_, hadds.ancestor hanc⟩
  · intro hanc
    apply List.eq_nil_iff_forall_not_mem.mpr
    intro op hop
    obtain ⟨l, hl⟩ := mem_opsAt.mp hop
    rw [hadds.other fun _ => hanc] at hl
    cases hl
  · intro op hop
    obtain ⟨l, hl⟩ := mem_opsAt.mp hop
    by_cases hnew : l = .aggregate ∧ Ancestor t.forkInfos.get k key
    · rw [hnew.1, hadds.ancestor hnew.2] at hl
      exact (Option.some.inj hl).symm
    · rw [hadds.other fun hl' hanc => hnew ⟨hl', hanc⟩] at hl
      cases hl

/-- The entries of a split before its batch: the parent lets go of the block. -/
structure LetsGo (f g : Entries Hash) (key p : SlotHashKey Hash) : Prop where
  parent : parentOf f key = some p
  entry : ∃ i, f p = some i ∧ g p = some { i with children := i.children.erase key }
  other : ∀ {x}, x ≠ p → g x = f x

namespace LetsGo

variable {x c : SlotHashKey Hash}

variable (hg : LetsGo f g key p)
include hg

theorem mem_childrenOf (h : Wf f) : c ∈ childrenOf g x ↔ c ∈ childrenOf f x ∧ c ≠ key := by
  obtain ⟨i, hf, hgp⟩ := hg.entry
  by_cases hx : x = p
  · rw [hx, childrenOf_of_some hf, childrenOf_of_some hgp, mem_keys_erase, and_comm]
  · rw [childrenOf, hg.other hx]
    refine (and_iff_left_of_imp ?_).symm
    rintro hc rfl
    have hpar := h.child_mem hc
    rw [hg.parent] at hpar
    exact hx (Option.some.inj hpar).symm

theorem some_iff : (∃ i, g x = some i) ↔ ∃ i, f x = some i := by
  obtain ⟨i, hf, hgp⟩ := hg.entry
  by_cases hx : x = p
  · rw [hx]
    exact ⟨fun _ => ⟨i, hf⟩, fun _ => ⟨_, hgp⟩⟩
  · rw [hg.other hx]

theorem childrenAbove (h : Wf f) : ChildrenAbove g := by
  intro k c hc
  obtain ⟨hlt, hsome⟩ := h.childrenAbove k c ((hg.mem_childrenOf h).mp hc).1
  exact ⟨hlt, hg.some_iff.mpr hsome⟩

theorem parentOf_eq : parentOf g x = parentOf f x := by
  obtain ⟨i, hf, hgp⟩ := hg.entry
  by_cases hx : x = p
  · rw [hx, parentOf_of_some hf, parentOf_of_some hgp]
  · rw [parentOf, hg.other hx]
    rfl

end LetsGo

/-- What is left after a split. -/
theorem isRest_of_process {rest : Entries Hash}
    (hg : LetsGo t.forkInfos.get infos₁.get key p) (h : Wf t.forkInfos.get)
    (hkeeps : Keeps infos₁.get infos₂.get)
    (hbelow : ∀ {x}, Below t.forkInfos.get key x → rest x = none)
    (hother : ∀ {x}, ¬ Below t.forkInfos.get key x → rest x = infos₂.get x) :
    IsRest t.forkInfos.get rest key := by
  constructor
  · exact hbelow
  · intro x hx
    rw [hother hx, ← hg.some_iff]
    exact hkeeps.some_iff
  · intro x hx
    rw [parentOf, hother hx, ← parentOf, hkeeps.parentOf_eq, hg.parentOf_eq]
  · intro x c hx
    rw [childrenOf, hother hx, ← childrenOf, hkeeps.childrenOf_eq, hg.mem_childrenOf h]
  · intro x i j hi hj hconf
    have hx : ¬ Below t.forkInfos.get key x := by
      intro hb
      rw [hbelow hb] at hj
      cases hj
    rw [hother hx] at hj
    obtain ⟨i', hi', hkept⟩ := hkeeps.of_some hj
    apply hkept.confirmed
    by_cases hxp : x = p
    · obtain ⟨l, hl, hl'⟩ := hg.entry
      rw [hxp] at hi hi'
      cases hl.symm.trans hi
      cases hl'.symm.trans hi'
      exact hconf
    · rw [hg.other hxp, hi] at hi'
      cases hi'
      exact hconf

/-- The parts of a split: the subtree, and the rest after the batch. -/
structure SplitInto (t : HeaviestSubtreeForkChoice Hash Pubkey) (key : SlotHashKey Hash)
    (infos : ForkInfos Hash) (split rest : HeaviestSubtreeForkChoice Hash Pubkey) : Prop where
  subtree : IsSubtree t.forkInfos.get split.forkInfos.get key
  below : ∀ {x}, Below t.forkInfos.get key x → rest.forkInfos.get x = none
  other : ∀ {x}, ¬ Below t.forkInfos.get key x → rest.forkInfos.get x = infos.get x
  split_root : split.treeRoot = key
  rest_root : rest.treeRoot = t.treeRoot
  split_votes : split.latestVotes = t.latestVotes.filter fun _ node => split.containsBlock node
  rest_votes : rest.latestVotes = t.latestVotes.filter fun _ node => rest.containsBlock node

theorem ancestor_not_below {f : Entries Hash} (h : Wf f) {x : SlotHashKey Hash}
    (hb : Below f key x) : ¬ Ancestor f x key := by
  intro hanc
  have hle : key.slot ≤ x.slot := Forest.Below.rank_le (F := h.forest) hb
  exact absurd (h.ancestor_slot hanc) (Nat.not_lt.mpr hle)

/-- What `split_off` does, when its batch does not panic. -/
theorem splitOff_of_process (h : TreeOk t) {i : ForkInfo Hash} (hi : t.forkInfos.get key = some i)
    (hp : i.parent = some p) (hne : t.treeRoot ≠ key) {ip : ForkInfo Hash}
    (hip : t.forkInfos.get p = some ip)
    (hproc : processUpdateOperations
      (t.forkInfos.insert p { ip with children := ip.children.erase key })
      (insertAggregateOperations t.forkInfos .empty key) = some infos) :
    ∃ split rest, t.splitOff key = some (split, rest) ∧ SplitInto t key infos split rest ∧
      LetsGo t.forkInfos.get
        (t.forkInfos.insert p { ip with children := ip.children.erase key }).get key p := by
  have hpar : parentOf t.forkInfos.get key = some p := (parentOf_of_some hi).trans hp
  have hg : LetsGo t.forkInfos.get
      (t.forkInfos.insert p { ip with children := ip.children.erase key }).get key p :=
    ⟨hpar, ⟨ip, hip, get_insert_self _ _⟩, fun hx => get_insert_of_ne _ hx⟩
  have hkeeps := process_keeps hproc
  have hnotp : ¬ Below t.forkInfos.get key p := h.wf.not_below_parent hpar
  -- the batch does not touch the subtree
  have hsame : ∀ x, Below t.forkInfos.get key x → infos.get x = t.forkInfos.get x := by
    intro x hx
    have hxp : x ≠ p := by
      rintro rfl
      exact hnotp hx
    rw [process_unchanged hproc (hg.childrenAbove h.wf)
      (((splitOperations_spec h.wf key).2 x).2.1 (ancestor_not_below h.wf hx)), hg.other hxp]
  obtain ⟨rest, split, hmove, hparts⟩ := moveSubtree_spec infos h.wf ⟨i, hi⟩
    (fun x => hkeeps.some_iff.trans hg.some_iff)
    fun x c => by rw [hkeeps.childrenOf_eq, hg.mem_childrenOf h.wf]
  obtain ⟨jp, hjp, hkept⟩ := hkeeps.to_some (get_insert_self p _)
  have hrestp : rest.get p = some jp := ((hparts p).2 hnotp).1.trans hjp
  have herase : ({ jp with children := jp.children.erase key } : ForkInfo Hash) = jp := by
    have hchildren : jp.children = ip.children.erase key := hkept.children
    rw [hchildren, erase_erase, ← hchildren]
  have hrest : ∀ x, (rest.insert p { jp with children := jp.children.erase key }).get x =
      rest.get x := by
    intro x
    rw [herase, get_insert]
    split_ifs with hx
    · rw [hx, hrestp]
    · rfl
  have hmem : ip.children.contains key = true := by
    rw [contains, ← mem_keys, ← childrenOf_of_some hip]
    exact h.wf.parent_mem hpar
  refine ⟨⟨split.insert key { i with parent := none }, t.latestVotes.filter fun _ node =>
      (split.insert key { i with parent := none }).contains node, key⟩,
    ⟨rest.insert p { jp with children := jp.children.erase key }, t.latestVotes.filter
      fun _ node => (rest.insert p { jp with children := jp.children.erase key }).contains node,
      t.treeRoot⟩,
    ?_, ⟨⟨⟨i, hi, get_insert_self _ _⟩, ?_, ?_⟩, ?_, ?_, rfl, rfl, rfl, rfl⟩, hg⟩
  · unfold splitOff
    rw [if_neg hne, hi]
    show i.parent.bind _ = _
    rw [hp]
    show (t.forkInfos.get p).bind _ = _
    rw [hip]
    show (if ip.children.contains key = true then _ else _) = _
    rw [if_pos hmem]
    rw [hproc]
    show (moveSubtree infos key).bind _ = _
    rw [hmove]
    show (rest.get p).bind _ = _
    rw [hrestp]
    rfl
  · intro x hb hx
    rw [get_insert_of_ne _ hx, ((hparts x).1 hb).2, hsame x hb]
  · intro x hb
    have hx : x ≠ key := by
      rintro rfl
      exact hb .refl
    rw [get_insert_of_ne _ hx, ((hparts x).2 hb).2]
  · intro x hb
    exact (hrest x).trans ((hparts x).1 hb).1
  · intro x hb
    exact (hrest x).trans ((hparts x).2 hb).1

variable {split rest : HeaviestSubtreeForkChoice Hash Pubkey}

/-- `split_off` returns the parts of a split. -/
theorem splitOff_spec (h : TreeOk t) (hsplit : t.splitOff key = some (split, rest)) :
    ∃ p infos₁ infos₂, LetsGo t.forkInfos.get infos₁.get key p ∧ key ≠ t.treeRoot ∧
      processUpdateOperations infos₁ (insertAggregateOperations t.forkInfos .empty key) =
        some infos₂ ∧ SplitInto t key infos₂ split rest := by
  have hsplit' := hsplit
  unfold splitOff at hsplit
  by_cases hne : t.treeRoot = key
  · rw [if_pos hne] at hsplit
    cases hsplit
  rw [if_neg hne] at hsplit
  obtain ⟨i, hi, hsplit⟩ := Option.bind_eq_some_iff.mp hsplit
  obtain ⟨p, hp, hsplit⟩ := Option.bind_eq_some_iff.mp hsplit
  obtain ⟨ip, hip, hsplit⟩ := Option.bind_eq_some_iff.mp hsplit
  by_cases hmem : ip.children.contains key = true
  · rw [if_pos hmem] at hsplit
    obtain ⟨infos, hproc, -⟩ := Option.bind_eq_some_iff.mp hsplit
    obtain ⟨split', rest', heq, hinto, hg⟩ := splitOff_of_process h hi hp hne hip hproc
    cases hsplit'.symm.trans heq
    exact ⟨p, _, infos, hg, Ne.symm hne, hproc, hinto⟩
  · rw [if_neg hmem] at hsplit
    cases hsplit

/-- The rest of a split is up to date. -/
theorem SplitInto.rest_everywhere
    (hinto : SplitInto t key infos₂ split rest) (h : TreeOk t) (hP : Local P)
    (hf : Everywhere P t.forkInfos.get) (hg : LetsGo t.forkInfos.get infos₁.get key p)
    (hproc : processUpdateOperations infos₁ (insertAggregateOperations t.forkInfos .empty key) =
      some infos₂) : Everywhere P rest.forkInfos.get := by
  obtain ⟨hbatch, hops⟩ := splitOperations_spec h.wf key
  have hkeeps := process_keeps hproc
  have hall : Everywhere P infos₂.get := by
    apply process_local hP hproc (hg.childrenAbove h.wf) hbatch
    · exact fun k c hc => h.wf.child_mem ((hg.mem_childrenOf h.wf).mp hc).1
    · -- a block without an aggregate is not an ancestor, so it has not lost a child
      intro k i hi hagg
      have hanc : ¬ Ancestor t.forkInfos.get k key := fun hanc => hagg ((hops k).1 hanc)
      have hkp : k ≠ p := by
        rintro rfl
        exact hanc (.single hg.parent)
      rw [hg.other hkp] at hi
      apply hP.congr _ (hf hi)
      intro c hc
      rw [← childrenOf_of_some hi] at hc
      refine (hg.other ?_).symm
      rintro rfl
      exact hanc (.head (h.wf.child_mem hc) (.single hg.parent))
  have hrest : IsRest t.forkInfos.get rest.forkInfos.get key :=
    isRest_of_process hg h.wf hkeeps hinto.below hinto.other
  intro x j hj
  have hx := hrest.not_below_of_some hj
  rw [hinto.other hx] at hj
  apply hP.congr _ (hall hj)
  intro c hc
  rw [← childrenOf_of_some hj, hkeeps.childrenOf_eq, hg.mem_childrenOf h.wf] at hc
  refine (hinto.other ?_).symm
  intro hb
  obtain ⟨q, hq, hbq⟩ := below_parent hb hc.2
  rw [h.wf.child_mem hc.1] at hq
  cases hq
  exact hx hbq

/-- Both parts of a split are trees. -/
theorem TreeOk.splitOff (h : TreeOk t)
    (hsplit : t.splitOff key = some (split, rest)) : TreeOk split ∧ TreeOk rest := by
  obtain ⟨p, infos₁, infos₂, hg, hne, hproc, hinto⟩ := splitOff_spec h hsplit
  have hrest := isRest_of_process hg h.wf (process_keeps hproc) hinto.below hinto.other
  constructor
  · refine ⟨hinto.subtree.wf h.wf, hinto.split_root ▸ hinto.subtree.rooted, ?_⟩
    exact hinto.subtree.everywhere h.wf (confirmedOk_local Hash) h.confirmed
  · refine ⟨hrest.wf h.wf, hinto.rest_root ▸ hrest.rooted h.rooted hne, ?_⟩
    exact hinto.rest_everywhere h (confirmedOk_local Hash) h.confirmed hg hproc

/-! ## Leaves -/

variable (C : HeaviestSubtreeForkChoice Hash Pubkey → SlotHashKey Hash → SlotHashKey Hash → Prop)

/-- A leaf goes in under a condition on the tree, the leaf and its parent. -/
def LeafStep (t t' : HeaviestSubtreeForkChoice Hash Pubkey) : Prop :=
  ∃ (key p : SlotHashKey Hash) (infos : ForkInfos Hash), C t key p ∧
    WithLeaf t.forkInfos.get infos.get key p ∧
    propagateNewLeaf infos key p = some t'.forkInfos ∧
    t'.latestVotes = t.latestVotes ∧ t'.treeRoot = t.treeRoot

variable {C}

theorem WithLeaf.parentOf_key (hl : WithLeaf f g key p) : parentOf g key = some p := by
  rw [hl.parentOf_eq, if_pos rfl]

theorem LeafStep.treeOk (hs : LeafStep C t t') (h : TreeOk t) : TreeOk t' := by
  obtain ⟨key, p, infos, -, hl, hprop, -, hroot⟩ := hs
  have hfr := propagateNewLeaf_frame (hl.wf h.wf) hl.parentOf_key hprop
  exact ⟨hfr.keeps.wf (hl.wf h.wf), hroot ▸ hfr.keeps.rooted (hl.rooted h.rooted),
    hfr.confirmedOk (hl.confirmedOk h.wf h.confirmed)⟩

theorem LeafStep.run_treeOk (hs : ReflTransGen (LeafStep C) t t') (h : TreeOk t) : TreeOk t' := by
  induction hs with
  | refl => exact h
  | tail _ hstep ih => exact hstep.treeOk ih

variable (C) in
/-- What `add_new_leaf_slot` is called with: the parent is in the tree, at an earlier slot. -/
def AddsLeaf (t : HeaviestSubtreeForkChoice Hash Pubkey) (key p : SlotHashKey Hash) : Prop :=
  t.containsBlock key = false → t.containsBlock p = true ∧ p.slot < key.slot ∧ C t key p

theorem addNewLeafSlot_step (h : TreeOk t) (hadd : AddsLeaf C t key p) :
    ∃ t', t.addNewLeafSlot key (some p) = some t' ∧
      ReflTransGen (LeafStep C) t t' ∧
      ∀ x, t'.containsBlock x = true ↔ x = key ∨ t.containsBlock x = true := by
  cases hkey : t.containsBlock key with
  | true =>
    refine ⟨t, if_pos hkey, .refl, fun x => ?_⟩
    exact (or_iff_right_of_imp fun hx => hx ▸ hkey).symm
  | false =>
    obtain ⟨hp, hslot, hC⟩ := hadd hkey
    obtain ⟨infos, infos', hl, hprop, hadd'⟩ := addNewLeafSlot_spec h.wf hkey hp hslot
    refine ⟨_, hadd', .single ⟨key, p, infos, hC, hl, hprop, rfl, rfl⟩, fun x => ?_⟩
    have hkeeps := (propagateNewLeaf_frame (hl.wf h.wf) hl.parentOf_key hprop).keeps
    rw [contains_iff, contains_iff, ← hl.some_iff]
    exact hkeeps.some_iff

/-- A list of leaves with their parents, each parent known or earlier in the list. -/
def Hangs (known : SlotHashKey Hash → Prop) : List (SlotHashKey Hash × SlotHashKey Hash) → Prop
  | [] => True
  | (key, p) :: nodes => known p ∧ p.slot < key.slot ∧ Hangs (fun x => x = key ∨ known x) nodes

variable (C) in
/-- The condition at every leaf of a list that is not there yet. -/
def LeavesMeet :
    HeaviestSubtreeForkChoice Hash Pubkey → List (SlotHashKey Hash × SlotHashKey Hash) → Prop
  | _, [] => True
  | t, (key, p) :: nodes => (t.containsBlock key = false → C t key p) ∧
      ∀ t', t.addNewLeafSlot key (some p) = some t' → LeavesMeet t' nodes

theorem Hangs.imp {Hash : Type} {known known' : SlotHashKey Hash → Prop}
    {nodes : List (SlotHashKey Hash × SlotHashKey Hash)} (h : Hangs known nodes)
    (himp : ∀ x, known x → known' x) : Hangs known' nodes := by
  induction nodes generalizing known known' with
  | nil => trivial
  | cons node nodes ih =>
    exact ⟨himp _ h.1, h.2.1, ih h.2.2 fun x hx => hx.imp_right (himp x)⟩

theorem addLeaves_spec {nodes : List (SlotHashKey Hash × SlotHashKey Hash)} (h : TreeOk t)
    (hhangs : Hangs (fun x => t.containsBlock x = true) nodes) (hmeet : LeavesMeet C t nodes) :
    ∃ t', t.addLeaves nodes = some t' ∧ ReflTransGen (LeafStep C) t t' ∧
      ∀ x, t'.containsBlock x = true ↔ x ∈ nodes.map Prod.fst ∨ t.containsBlock x = true := by
  induction nodes generalizing t with
  | nil => exact ⟨t, rfl, .refl, fun x => (or_iff_right List.not_mem_nil).symm⟩
  | cons node nodes ih =>
    obtain ⟨key, p⟩ := node
    obtain ⟨t₁, hadd, hsteps, hcont⟩ := addNewLeafSlot_step h
      (fun hkey => ⟨hhangs.1, hhangs.2.1, hmeet.1 hkey⟩ : AddsLeaf C t key p)
    obtain ⟨t₂, hrest, hsteps', hcont'⟩ := ih (LeafStep.run_treeOk hsteps h)
      (hhangs.2.2.imp fun x hx => (hcont x).mpr hx) (hmeet.2 t₁ hadd)
    refine ⟨t₂, ?_, hsteps.trans hsteps', fun x => ?_⟩
    · show (t.addNewLeafSlot key (some p)).bind _ = _
      rw [hadd]
      exact hrest
    · rw [hcont', hcont, List.map_cons, List.mem_cons, ← or_assoc, or_comm (a := _ ∈ _)]

variable {mergeLeaf : SlotHashKey Hash} {root : SlotHashKey Hash}

/-- The blocks of a tree come after their parents. -/
theorem slotsNodes_hangs (h : TreeOk other)
    (hslot : mergeLeaf.slot < other.treeRoot.slot) {known : SlotHashKey Hash → Prop}
    (hknown : known mergeLeaf) : Hangs known (other.slotsNodes mergeLeaf) := by
  -- induction on what is left of the entries, with the ones that were there
  suffices hsuffix : ∀ done left, other.forkInfos.entries = done ++ left →
      Hangs (fun x => x ∈ done.map Prod.fst ∨ known x)
        (left.map fun e => (e.1, e.2.parent.getD mergeLeaf)) by
    exact (hsuffix [] _ rfl).imp fun x hx => hx.resolve_left List.not_mem_nil
  intro done left
  induction left generalizing done with
  | nil => exact fun _ => trivial
  | cons entry left ih =>
    intro hentries
    obtain ⟨key, info⟩ := entry
    have hkey : other.forkInfos.get key = some info := by
      rw [← mem_entries, hentries]
      exact List.mem_append_right _ List.mem_cons_self
    have hnext : Hangs (fun x => x = key ∨ x ∈ done.map Prod.fst ∨ known x)
        (left.map fun e => (e.1, e.2.parent.getD mergeLeaf)) := by
      refine (ih (done ++ [(key, info)]) (by rw [hentries, List.append_cons])).imp fun x hx => ?_
      rw [List.map_append, List.mem_append] at hx
      rcases hx with (hx | hx) | hx
      · exact Or.inr (Or.inl hx)
      · exact Or.inl (List.mem_singleton.mp hx)
      · exact Or.inr (Or.inr hx)
    cases hpar : info.parent with
    | none =>
      have hroot : key = other.treeRoot := (h.rooted.parent_none hkey).mp hpar
      refine ⟨?_, ?_, hnext⟩
      · rw [hpar]
        exact Or.inr hknown
      · rw [hpar, hroot]
        exact hslot
    | some p =>
      have hlt : p.slot < key.slot := h.wf.slot_lt ((parentOf_of_some hkey).trans hpar)
      obtain ⟨ip, hip⟩ := h.wf.parent_some ((parentOf_of_some hkey).trans hpar)
      refine ⟨?_, ?_, hnext⟩
      · rw [hpar]
        left
        rw [← mem_entries, hentries, List.mem_append] at hip
        rcases hip with hip | hip
        · exact List.mem_map_of_mem hip
        · -- the entries are in order
          have hsorted := other.forkInfos.sorted
          rw [hentries] at hsorted
          have hle := (List.pairwise_cons.mp (List.pairwise_append.mp hsorted).2.1).1
          rcases List.mem_cons.mp hip with heq | hip
          · cases heq
            exact (lt_irrefl _ hlt).elim
          · exact absurd (SlotHashKey.slot_le (hle _ hip).le) (Nat.not_le.mpr hlt)
      · rw [hpar]
        exact hlt

/-! ## One block, votes and merges -/

/-- What `merge` does: leaves, then votes. -/
theorem merge_spec (h : TreeOk t) (hother : TreeOk other)
    (hslot : mergeLeaf.slot < other.treeRoot.slot)
    (hmeet : LeavesMeet C t (other.slotsNodes mergeLeaf))
    (hmerge : t.merge other mergeLeaf E votes = some t') :
    ∃ t₁ best, ReflTransGen (LeafStep C) t t₁ ∧ t₁.addVotes E votes = some (best, t') := by
  unfold merge at hmerge
  split_ifs at hmerge with hleaf
  obtain ⟨t₁, hadd, hsteps, -⟩ := addLeaves_spec h (slotsNodes_hangs hother hslot hleaf) hmeet
  obtain ⟨t₂, hadd', hrest⟩ := Option.bind_eq_some_iff.mp hmerge
  cases hadd.symm.trans hadd'
  obtain ⟨⟨best, t₃⟩, hvotes, hlast⟩ := Option.bind_eq_some_iff.mp hrest
  cases hlast
  exact ⟨t₁, best, hsteps, hvotes⟩

/-- The tree of one block. -/
theorem new_spec (h : new root = some t) :
    t.latestVotes = .empty ∧ t.treeRoot = root ∧
      t.forkInfos.get root = some (leafInfo root none none) ∧
      ∀ {x i}, t.forkInfos.get x = some i → x = root ∧ i = leafInfo root none none := by
  cases h
  refine ⟨rfl, rfl, get_insert_self _ _, fun {x i} hi => ?_⟩
  by_cases hx : x = root
  · rw [hx, get_insert_self] at hi
    exact ⟨hx, (Option.some.inj hi).symm⟩
  · rw [get_insert_of_ne _ hx] at hi
    cases hi

theorem new_treeOk (h : new root = some t) : TreeOk t := by
  obtain ⟨-, hroot, hget, honly⟩ := new_spec h
  have hparent : ∀ x, parentOf t.forkInfos.get x = none := by
    intro x
    rw [← Option.not_isSome_iff_eq_none, Option.isSome_iff_exists]
    rintro ⟨p, hp⟩
    obtain ⟨i, hi, hip⟩ := parentOf_eq_some.mp hp
    obtain ⟨-, rfl⟩ := honly hi
    cases hip
  have hchildren : ∀ x, childrenOf t.forkInfos.get x = [] := by
    intro x
    apply List.eq_nil_iff_forall_not_mem.mpr
    intro c hc
    obtain ⟨i, hi, hic⟩ := mem_childrenOf.mp hc
    obtain ⟨-, rfl⟩ := honly hi
    cases hic
  refine ⟨⟨?_, ?_, ?_, ?_⟩, ⟨⟨_, hroot ▸ hget⟩, ?_⟩, ?_⟩
  · intro k p hp
    cases (hparent k).symm.trans hp
  · intro k c hc
    rw [hchildren] at hc
    cases hc
  · intro k p hp
    cases (hparent k).symm.trans hp
  · intro k i hi _
    obtain ⟨-, rfl⟩ := honly hi
    rfl
  · intro k i hi
    obtain ⟨rfl, rfl⟩ := honly hi
    exact ⟨fun _ => hroot.symm, fun _ => rfl⟩
  · intro k i hi c hc
    obtain ⟨-, rfl⟩ := honly hi
    cases hc

theorem TreeOk.addVotes (h : TreeOk t)
    (hadd : t.addVotes E votes = some (best, t')) : TreeOk t' := by
  obtain ⟨batch, -, hacc, hproc, -, hroot⟩ := addVotes_spec h hadd
  exact h.process hacc.isBatch hproc hroot

theorem TreeOk.addVotes_everywhere (h : TreeOk t) (hP : Local P)
    (hadd : t.addVotes E votes = some (best, t')) (hf : Everywhere P t.forkInfos.get) :
    Everywhere P t'.forkInfos.get := by
  obtain ⟨batch, -, hacc, hproc, -, -⟩ := addVotes_spec h hadd
  exact h.process_everywhere hP hacc.isBatch hproc hf

/-! ## Marks -/

/-- The blocks that a mark notifies. -/
structure Notified (f : Entries Hash) (key stop : SlotHashKey Hash)
    (R : OrdSet (SlotHashKey Hash)) : Prop where
  hangs : ∀ x ∈ R.keys, x ≠ key → ∃ p ∈ R.keys, parentOf f x = some p
  below : ∀ x ∈ R.keys, Below f key x
  all : ¬ Below f key stop → ∀ x, Below f key x → x ∈ R.keys

theorem subtreeDiff_notified (h : Wf infos.get)
    (hkey : ∃ i, infos.get key = some i) (stop : SlotHashKey Hash) :
    ∃ R, subtreeDiff infos key stop = some R ∧ Notified infos.get key stop R := by
  obtain ⟨R, hR, hmem⟩ := subtreeDiff_spec h stop hkey
  refine ⟨R, hR, ?_, ?_, ?_⟩
  · intro x hx hne
    obtain ⟨hb, -⟩ := (hmem x).mp hx
    rcases ReflTransGen.cases_tail hb with heq | ⟨q, hq, hqx⟩
    · exact (hne heq).elim
    · obtain ⟨hpar, hstop⟩ := Forest.cut_parent.mp hqx
      exact ⟨q, (hmem q).mpr ⟨hq, hstop⟩, hpar⟩
  · exact fun x hx => Forest.below_of_cut ((hmem x).mp hx).1
  · intro hstop x hx
    refine (hmem x).mpr ⟨Forest.Below.cut hx hstop, ?_⟩
    rintro rfl
    exact hstop hx

variable [Inhabited Hash]

structure Marked (t : HeaviestSubtreeForkChoice Hash Pubkey) (mark : UpdateOperation)
    (key : SlotHashKey Hash) (R : OrdSet (SlotHashKey Hash))
    (t' : HeaviestSubtreeForkChoice Hash Pubkey) : Prop where
  mem : ∃ i, t.forkInfos.get key = some i
  notified : Notified t.forkInfos.get key default R
  process : processUpdateOperations t.forkInfos (t.markOperations mark key R) = some t'.forkInfos
  votes : t'.latestVotes = t.latestVotes
  root : t'.treeRoot = t.treeRoot

theorem markForkInvalidCandidate_spec (h : TreeOk t)
    (hmark : t.markForkInvalidCandidate key = some t') :
    (t.forkInfos.get key = none ∧ t' = t) ∨
      ∃ i R, t.forkInfos.get key = some i ∧ i.isDuplicateConfirmed = false ∧
        Marked t (.markInvalid key.slot) key R t' := by
  unfold markForkInvalidCandidate at hmark
  cases hi : t.forkInfos.get key with
  | none =>
    rw [hi] at hmark
    cases hmark
    exact Or.inl ⟨rfl, rfl⟩
  | some i =>
    rw [hi] at hmark
    dsimp only at hmark
    by_cases hconf : i.isDuplicateConfirmed = true
    · rw [if_pos hconf] at hmark
      cases hmark
    · rw [if_neg hconf] at hmark
      obtain ⟨R, hR, hrest⟩ := Option.bind_eq_some_iff.mp hmark
      obtain ⟨infos, hinfos, hlast⟩ := Option.bind_eq_some_iff.mp hrest
      cases hlast
      obtain ⟨R', hR', hnot⟩ := subtreeDiff_notified h.wf ⟨i, hi⟩ (default : SlotHashKey Hash)
      cases hR.symm.trans hR'
      exact Or.inr ⟨i, R, rfl, Bool.eq_false_iff.mpr hconf, ⟨i, hi⟩, hnot, hinfos, rfl, rfl⟩

theorem markForkValidCandidate_spec (h : TreeOk t) {newly : List (SlotHashKey Hash)}
    (hmark : t.markForkValidCandidate key = some (newly, t')) :
    ∃ R, Marked t (.markValid key.slot) key R t' := by
  obtain ⟨path, hpath, hrest⟩ := Option.bind_eq_some_iff.mp hmark
  obtain ⟨R, hR, hrest⟩ := Option.bind_eq_some_iff.mp hrest
  obtain ⟨infos, hinfos, hlast⟩ := Option.bind_eq_some_iff.mp hrest
  cases hlast
  -- the first thing that is looked up is the block itself
  have hkey : ∃ i, t.forkInfos.get key = some i := by
    obtain ⟨b, hb, -⟩ := Option.bind_eq_some_iff.mp hpath
    obtain ⟨i, hi, -⟩ := Option.map_eq_some_iff.mp hb
    exact ⟨i, hi⟩
  obtain ⟨R', hR', hnot⟩ := subtreeDiff_notified h.wf hkey (default : SlotHashKey Hash)
  cases hR.symm.trans hR'
  exact ⟨R, hkey, hnot, hinfos, rfl, rfl⟩

variable {R : OrdSet (SlotHashKey Hash)} {mark : UpdateOperation}

theorem Marked.batch (hm : Marked t mark key R t') (h : TreeOk t) (hmark : mark.IsMark) :
    Batch t.forkInfos.get (t.markOperations mark key R) :=
  (markOperations_spec h.wf hmark hm.notified.hangs).1

/-! ## Trees in use -/

/-- The trees that are made with stakes `E` when every leaf meets `C`. -/
inductive Reachable (E : Epochs Pubkey)
    (C : HeaviestSubtreeForkChoice Hash Pubkey → SlotHashKey Hash → SlotHashKey Hash → Prop) :
    HeaviestSubtreeForkChoice Hash Pubkey → Prop
  | new {root t : _} (h : HeaviestSubtreeForkChoice.new root = some t) : Reachable E C t
  | addNewLeafSlot {t t' key p : _} (ht : Reachable E C t) (hadd : AddsLeaf C t key p)
      (h : t.addNewLeafSlot key (some p) = some t') : Reachable E C t'
  | addVotes {t t' votes best : _} (ht : Reachable E C t)
      (h : t.addVotes E votes = some (best, t')) : Reachable E C t'
  | setTreeRoot {t t' newRoot : _} (ht : Reachable E C t) (hroot : t.containsBlock newRoot = true)
      (h : t.setTreeRoot newRoot = some t') : Reachable E C t'
  | splitOff {t split rest key : _} (ht : Reachable E C t)
      (h : t.splitOff key = some (split, rest)) : Reachable E C split
  | splitRest {t split rest key : _} (ht : Reachable E C t)
      (h : t.splitOff key = some (split, rest)) : Reachable E C rest
  | merge {t t' other mergeLeaf votes : _} (ht : Reachable E C t) (hother : Reachable E C other)
      (hslot : mergeLeaf.slot < other.treeRoot.slot)
      (hmeet : LeavesMeet C t (other.slotsNodes mergeLeaf))
      (hvotes : votes.Perm other.latestVotes.entries)
      (h : t.merge other mergeLeaf E votes = some t') : Reachable E C t'
  | markForkInvalidCandidate {t t' key : _} (ht : Reachable E C t)
      (h : t.markForkInvalidCandidate key = some t') : Reachable E C t'
  | markForkValidCandidate {t t' key newly : _} (ht : Reachable E C t)
      (h : t.markForkValidCandidate key = some (newly, t')) : Reachable E C t'

theorem Marked.treeOk
    (hm : Marked t mark key R t') (h : TreeOk t) (hmark : mark.IsMark) : TreeOk t' :=
  h.process (hm.batch h hmark) hm.process hm.root

/-- The ways in which a tree comes from another one. -/
inductive TreeStep (E : Epochs Pubkey)
    (C : HeaviestSubtreeForkChoice Hash Pubkey → SlotHashKey Hash → SlotHashKey Hash → Prop)
    (t t' : HeaviestSubtreeForkChoice Hash Pubkey) : Prop
  | leaf (hs : LeafStep C t t')
  | votes {votes : List (Pubkey × SlotHashKey Hash)} {best : SlotHashKey Hash}
      (h : t.addVotes E votes = some (best, t'))
  | subtree {key : SlotHashKey Hash} (hs : IsSubtree t.forkInfos.get t'.forkInfos.get key)
      (hvotes : ∀ k, t'.containsBlock k = true → ∀ v,
        t'.latestVotes.get v = some k ↔ t.latestVotes.get v = some k)
  | rest {key p : SlotHashKey Hash} {infos₁ infos₂ : ForkInfos Hash}
      {split : HeaviestSubtreeForkChoice Hash Pubkey}
      (hg : LetsGo t.forkInfos.get infos₁.get key p)
      (hproc : processUpdateOperations infos₁ (insertAggregateOperations t.forkInfos .empty key) =
        some infos₂) (hinto : SplitInto t key infos₂ split t')
  | marked {mark : UpdateOperation} {key : SlotHashKey Hash} {R : OrdSet (SlotHashKey Hash)}
      (hmark : mark = .markValid key.slot ∨ mark = .markInvalid key.slot)
      (hm : Marked t mark key R t')

/-- What holds of the tree of one block, and is kept by every step, holds of every tree. -/
theorem Reachable.of_steps {Q : HeaviestSubtreeForkChoice Hash Pubkey → Prop}
    (hr : Reachable E C t) (hnew : ∀ {root t}, HeaviestSubtreeForkChoice.new root = some t → Q t)
    (hstep : ∀ {t t'}, TreeOk t → TreeStep E C t t' → Q t → Q t') : TreeOk t ∧ Q t := by
  have hleaves : ∀ {t t'}, ReflTransGen (LeafStep C) t t' → TreeOk t ∧ Q t → TreeOk t' ∧ Q t' := by
    intro t t' hsteps ih
    induction hsteps with
    | refl => exact ih
    | tail _ hs ih => exact ⟨hs.treeOk ih.1, hstep ih.1 (.leaf hs) ih.2⟩
  induction hr with
  | new h => exact ⟨new_treeOk h, hnew h⟩
  | addNewLeafSlot _ hadd h ih =>
    obtain ⟨t', h', hsteps, -⟩ := addNewLeafSlot_step ih.1 hadd
    cases h.symm.trans h'
    exact hleaves hsteps ih
  | addVotes _ h ih => exact ⟨ih.1.addVotes h, hstep ih.1 (.votes h) ih.2⟩
  | setTreeRoot _ hroot h ih =>
    obtain ⟨t', h', hs, hroot', hvotes⟩ := setTreeRoot_spec ih.1 hroot
    cases h.symm.trans h'
    exact ⟨ih.1.setTreeRoot hs hroot', hstep ih.1 (.subtree hs fun k _ v => by rw [hvotes]) ih.2⟩
  | splitOff _ h ih =>
    obtain ⟨p, infos₁, infos₂, -, -, -, hinto⟩ := splitOff_spec ih.1 h
    refine ⟨(ih.1.splitOff h).1, hstep ih.1 (.subtree hinto.subtree fun k hk v => ?_) ih.2⟩
    rw [hinto.split_votes, get_filter_eq_some]
    exact and_iff_left hk
  | splitRest _ h ih =>
    obtain ⟨p, infos₁, infos₂, hg, -, hproc, hinto⟩ := splitOff_spec ih.1 h
    exact ⟨(ih.1.splitOff h).2, hstep ih.1 (.rest hg hproc hinto) ih.2⟩
  | merge _ _ hslot hmeet _ h ih iho =>
    obtain ⟨t₁, best, hsteps, hvotes⟩ := merge_spec ih.1 iho.1 hslot hmeet h
    have h₁ := hleaves hsteps ih
    exact ⟨h₁.1.addVotes hvotes, hstep h₁.1 (.votes hvotes) h₁.2⟩
  | markForkInvalidCandidate _ h ih =>
    rcases markForkInvalidCandidate_spec ih.1 h with ⟨-, rfl⟩ | ⟨i, R, -, -, hm⟩
    · exact ih
    · exact ⟨hm.treeOk ih.1 ⟨_, Or.inr rfl⟩, hstep ih.1 (.marked (Or.inr rfl) hm) ih.2⟩
  | markForkValidCandidate _ h ih =>
    obtain ⟨R, hm⟩ := markForkValidCandidate_spec ih.1 h
    exact ⟨hm.treeOk ih.1 ⟨_, Or.inl rfl⟩, hstep ih.1 (.marked (Or.inl rfl) hm) ih.2⟩

theorem Reachable.treeOk (hr : Reachable E C t) : TreeOk t :=
  (hr.of_steps (Q := fun _ => True) (fun _ => trivial) fun _ _ _ => trivial).1

/-- A local property that holds of one block, and that leaves keep, holds in every tree. -/
theorem Reachable.everywhere (hr : Reachable E C t) (hP : Local P)
    (hnew : ∀ (f : Entries Hash) (root : SlotHashKey Hash), P f root (leafInfo root none none))
    (hleaf : ∀ {t t'}, TreeOk t → LeafStep C t t' → Everywhere P t.forkInfos.get →
      Everywhere P t'.forkInfos.get) : Everywhere P t.forkInfos.get := by
  refine (hr.of_steps (Q := fun t => Everywhere P t.forkInfos.get) (fun h k i hi => ?_)
    fun h hs hf => ?_).2
  · obtain ⟨rfl, rfl⟩ := (new_spec h).2.2.2 hi
    exact hnew _ _
  · cases hs with
    | leaf hs => exact hleaf h hs hf
    | votes hadd => exact h.addVotes_everywhere hP hadd hf
    | subtree hs _ => exact hs.everywhere h.wf hP hf
    | rest hg hproc hinto => exact hinto.rest_everywhere h hP hf hg hproc
    | marked hmark hm => exact h.process_everywhere hP (hm.batch h ⟨_, hmark⟩) hm.process hf

end Salsa.ForkChoice
