import Mathlib.Data.Finset.Card
import Salsa.Lib.Forest

/-!
# Salsa.Lib.Visit — walking a subtree with a stack

`loop` takes a node from the stack, handles it and puts its children on the stack, until
the stack is empty. In a forest no node is put on the stack twice, so as many steps as
there are nodes are enough, and the nodes handled are those of the subtree (`loop_spec`):
what a step keeps of the nodes handled so far holds of the whole subtree in the end.
-/

namespace Visit

variable {κ σ : Type}

/-- Handle the nodes of the stack and below, in at most the given number of steps. -/
def loop (step : σ → κ → Option (List κ × σ)) : ℕ → List κ → σ → Option σ
  | _, [], s => some s
  | 0, _ :: _, _ => none
  | n + 1, k :: stack, s => do
      let (kids, s) ← step s k
      loop step n (kids.reverse ++ stack) s

end Visit

variable {κ : Type}

namespace Forest

variable (F : Forest κ)

/-- `b` is `a` or a descendant of it. -/
def Below : κ → κ → Prop := Relation.ReflTransGen fun a b => F.parent b = some a

variable {F} {a b : κ}

open Relation.ReflTransGen

theorem Below.refl (a : κ) : F.Below a a := Relation.ReflTransGen.refl

theorem Below.child {a b c : κ} (h : F.Below a b) (hc : F.parent c = some b) : F.Below a c :=
  tail h hc

theorem Below.rank_le (h : F.Below a b) : F.rank a ≤ F.rank b := by
  induction h with
  | refl => exact Nat.le_refl _
  | tail _ hc ih => exact ih.trans (F.rank_lt hc).le

/-- Of two nodes above a third one is below the other. -/
theorem Below.total {a b c : κ} (ha : F.Below a c) (hb : F.Below b c) :
    F.Below a b ∨ F.Below b a := by
  induction ha with
  | refl => exact Or.inr hb
  | tail hax hxc ih =>
    rcases cases_tail hb with rfl | ⟨y, hby, hyc⟩
    · exact Or.inl (tail hax hxc)
    · rw [hxc] at hyc
      cases hyc
      exact ih hby

/-- Two children of a node with a common node below them are the same. -/
theorem Below.child_unique {p a b c : κ} (hap : F.parent a = some p) (hbp : F.parent b = some p)
    (ha : F.Below a c) (hb : F.Below b c) : a = b := by
  -- one is below the other, and not strictly: their parents are the same
  have hup : ∀ x y, F.parent x = some p → F.parent y = some p → F.Below x y → x = y := by
    intro x y hx hy hxy
    rcases cases_tail hxy with heq | ⟨z, hxz, hzy⟩
    · exact heq.symm
    · rw [hy] at hzy
      cases hzy
      have hle := Below.rank_le hxz
      have hlt := F.rank_lt hx
      omega
  rcases ha.total hb with hab | hba
  · exact hup a b hap hbp hab
  · exact (hup b a hbp hap hba).symm

/-- The forest without the edges to the children of `r`. -/
def cut [DecidableEq κ] (F : Forest κ) (r : κ) : Forest κ where
  parent k := (F.parent k).filter fun p => p ≠ r
  rank := F.rank
  rank_lt h := F.rank_lt (Option.filter_eq_some_iff.mp h).1

section Cut

variable [DecidableEq κ] {r : κ}

theorem cut_parent {k p : κ} : (F.cut r).parent k = some p ↔ F.parent k = some p ∧ p ≠ r := by
  unfold cut
  rw [Option.filter_eq_some_iff, decide_eq_true_iff]

theorem below_of_cut (h : (F.cut r).Below a b) : F.Below a b := by
  induction h with
  | refl => exact .refl a
  | tail _ hc ih => exact ih.child (cut_parent.mp hc).1

theorem Below.cut (h : F.Below a b) (hr : ¬ F.Below a r) : (F.cut r).Below a b := by
  induction h with
  | refl => exact .refl a
  | tail hax hc ih =>
    refine ih.child (cut_parent.mpr ⟨hc, ?_⟩)
    rintro rfl
    exact hr hax

/-- The forest without the edge above `r`. -/
def detach (F : Forest κ) (r : κ) : Forest κ where
  parent k := if k = r then none else F.parent k
  rank := F.rank
  rank_lt {k p} h := by
    split_ifs at h
    exact F.rank_lt h

theorem detach_parent {k p : κ} : (F.detach r).parent k = some p ↔ k ≠ r ∧ F.parent k = some p := by
  show (if k = r then none else F.parent k) = some p ↔ _
  by_cases hk : k = r
  · rw [if_pos hk]
    constructor
    · intro h
      cases h
    · intro h
      exact (h.1 hk).elim
  · rw [if_neg hk, and_iff_right hk]

/-- The subtree of `r` is untouched. -/
theorem detach_below {a : κ} : (F.detach r).Below r a ↔ F.Below r a := by
  constructor
  · intro h
    induction h with
    | refl => exact .refl r
    | tail _ hc ih => exact ih.child (detach_parent.mp hc).2
  · intro h
    induction h with
    | refl => exact .refl r
    | tail hrx hc ih =>
      refine ih.child (detach_parent.mpr ⟨?_, hc⟩)
      rintro rfl
      have hle := Below.rank_le hrx
      have hlt := F.rank_lt hc
      omega

end Cut

end Forest

namespace Visit

variable {F : Forest κ} {nodes : Finset κ} {kids : κ → List κ} {root : κ} {seen : Finset κ}

/-- `kids` lists the children of the nodes, once each, all of them nodes. -/
structure Covers (F : Forest κ) (nodes : Finset κ) (kids : κ → List κ) : Prop where
  nodup : ∀ k ∈ nodes, (kids k).Nodup
  mem_kids : ∀ k ∈ nodes, ∀ c, c ∈ kids k ↔ F.parent c = some k
  closed : ∀ k c, k ∈ nodes → F.parent c = some k → c ∈ nodes

/-- The nodes handled so far and the stack, in a walk from `root`. -/
structure Partial (F : Forest κ) (nodes : Finset κ) (kids : κ → List κ) (root : κ)
    (seen : Finset κ) (stack : List κ) : Prop where
  seen_mem : ∀ k ∈ seen, k ∈ nodes ∧ F.Below root k
  stack_mem : ∀ k ∈ stack, k ∈ nodes ∧ F.Below root k
  nodup : stack.Nodup
  fresh : ∀ k ∈ stack, k ∉ seen
  kids_mem : ∀ k ∈ seen, ∀ c ∈ kids k, c ∈ seen ∨ c ∈ stack
  root_mem : root ∈ seen ∨ root ∈ stack
  parent_mem : ∀ k, k ∈ seen ∨ k ∈ stack → k = root ∨ ∃ p ∈ seen, F.parent k = some p

open List

theorem Partial.init (hroot : root ∈ nodes) : Partial F nodes kids root ∅ [root] where
  seen_mem := by simp
  stack_mem := by
    intro k hk
    rw [mem_singleton.mp hk]
    exact ⟨hroot, .refl root⟩
  nodup := nodup_singleton root
  fresh := by simp
  kids_mem := by simp
  root_mem := Or.inr mem_cons_self
  parent_mem := by simp

/-- With an empty stack the whole subtree has been handled. -/
theorem Partial.done (h : Partial F nodes kids root seen [])
    (hkids : Covers F nodes kids) (k : κ) : k ∈ seen ↔ F.Below root k := by
  constructor
  · intro hk
    exact (h.seen_mem k hk).2
  · intro hbelow
    induction hbelow with
    | refl => exact h.root_mem.resolve_right not_mem_nil
    | @tail p c _ hc ih =>
      have hp := (h.seen_mem p ih).1
      exact (h.kids_mem p ih c ((hkids.mem_kids p hp c).mpr hc)).resolve_right not_mem_nil

variable [DecidableEq κ] {stack : List κ}

open Finset

theorem Partial.next {k : κ}
    (h : Partial F nodes kids root seen (k :: stack)) (hkids : Covers F nodes kids) :
    Partial F nodes kids root (insert k seen) ((kids k).reverse ++ stack) := by
  obtain ⟨hk, hbelow⟩ := h.stack_mem k mem_cons_self
  have hkid := hkids.mem_kids k hk
  obtain ⟨hnot, hstack⟩ := nodup_cons.mp h.nodup
  have hunseen := h.fresh k mem_cons_self
  -- a child of `k` has not been met before: its parent would have been handled
  have hnew : ∀ c ∈ kids k, ¬ (c ∈ seen ∨ c ∈ k :: stack) := by
    intro c hc hmet
    have hp := (hkid c).mp hc
    rcases h.parent_mem c hmet with rfl | ⟨p, hpseen, hp'⟩
    · have hle := hbelow.rank_le
      have hlt := F.rank_lt hp
      omega
    · rw [hp] at hp'
      cases hp'
      exact hunseen hpseen
  constructor
  case seen_mem =>
    intro j hj
    rcases mem_insert.mp hj with rfl | hj
    · exact ⟨hk, hbelow⟩
    · exact h.seen_mem j hj
  case stack_mem =>
    intro j hj
    rcases mem_append.mp hj with hj | hj
    · have hp := (hkid j).mp (mem_reverse.mp hj)
      exact ⟨hkids.closed k j hk hp, hbelow.child hp⟩
    · exact h.stack_mem j (mem_cons_of_mem k hj)
  case nodup =>
    apply nodup_append.mpr
    refine ⟨nodup_reverse.mpr (hkids.nodup k hk), hstack, ?_⟩
    rintro c hc j hj rfl
    exact hnew c (mem_reverse.mp hc) (Or.inr (mem_cons_of_mem k hj))
  case fresh =>
    intro j hj hseen
    rcases mem_insert.mp hseen with rfl | hseen
    · rcases mem_append.mp hj with hj | hj
      · exact hnew j (mem_reverse.mp hj) (Or.inr mem_cons_self)
      · exact hnot hj
    · rcases mem_append.mp hj with hj | hj
      · exact hnew j (mem_reverse.mp hj) (Or.inl hseen)
      · exact h.fresh j (mem_cons_of_mem k hj) hseen
  case kids_mem =>
    intro j hj c hc
    rcases mem_insert.mp hj with rfl | hj
    · exact Or.inr (mem_append_left stack (mem_reverse.mpr hc))
    · rcases h.kids_mem j hj c hc with hc | hc
      · exact Or.inl (mem_insert_of_mem hc)
      · rcases mem_cons.mp hc with rfl | hc
        · exact Or.inl (mem_insert_self c seen)
        · exact Or.inr (mem_append_right _ hc)
  case root_mem =>
    rcases h.root_mem with hr | hr
    · exact Or.inl (mem_insert_of_mem hr)
    · rcases mem_cons.mp hr with rfl | hr
      · exact Or.inl (mem_insert_self root seen)
      · exact Or.inr (mem_append_right _ hr)
  case parent_mem =>
    intro j hj
    have hcase : j ∈ kids k ∨ j ∈ seen ∨ j ∈ k :: stack := by
      rcases hj with hj | hj
      · rcases mem_insert.mp hj with rfl | hj
        · exact Or.inr (Or.inr mem_cons_self)
        · exact Or.inr (Or.inl hj)
      · rcases mem_append.mp hj with hj | hj
        · exact Or.inl (mem_reverse.mp hj)
        · exact Or.inr (Or.inr (mem_cons_of_mem k hj))
    rcases hcase with hj | hj
    · exact Or.inr ⟨k, mem_insert_self k seen, (hkid j).mp hj⟩
    · rcases h.parent_mem j hj with hroot | ⟨p, hp, hpar⟩
      · exact Or.inl hroot
      · exact Or.inr ⟨p, mem_insert_of_mem hp, hpar⟩

variable {σ : Type} {step : σ → κ → Option (List κ × σ)} {Rel : Finset κ → σ → Prop}

theorem loop_partial {n : ℕ} {s : σ}
    (hpart : Partial F nodes kids root seen stack) (hrel : Rel seen s) (hkids : Covers F nodes kids)
    (hstep : ∀ seen s k, Rel seen s → k ∈ nodes → k ∉ seen →
      ∃ s', step s k = some (kids k, s') ∧ Rel (insert k seen) s')
    (hn : nodes.card ≤ n + seen.card) :
    ∃ s' seen', loop step n stack s = some s' ∧ Rel seen' s' ∧ ∀ k, k ∈ seen' ↔ F.Below root k := by
  induction n generalizing stack seen s with
  | zero =>
    cases stack with
    | nil => exact ⟨s, seen, rfl, hrel, hpart.done hkids⟩
    | cons k stack =>
      -- all nodes have been handled, so the stack cannot hold one
      have hsub : seen ⊆ nodes := fun j hj => (hpart.seen_mem j hj).1
      have heq := eq_of_subset_of_card_le hsub (by omega)
      have hk := (hpart.stack_mem k mem_cons_self).1
      exact (hpart.fresh k mem_cons_self (heq ▸ hk)).elim
  | succ n ih =>
    cases stack with
    | nil => exact ⟨s, seen, rfl, hrel, hpart.done hkids⟩
    | cons k stack =>
      have hunseen := hpart.fresh k mem_cons_self
      obtain ⟨s', hs', hrel'⟩ := hstep seen s k hrel (hpart.stack_mem k mem_cons_self).1 hunseen
      have hcard := card_insert_of_notMem hunseen
      obtain ⟨s'', seen'', hloop, hrest⟩ := ih (hpart.next hkids) hrel' (by omega)
      refine ⟨s'', seen'', ?_, hrest⟩
      rw [loop, hs']
      exact hloop

/-- A walk from a node handles its subtree. -/
theorem loop_spec (step : σ → κ → Option (List κ × σ)) (Rel : Finset κ → σ → Prop) {s : σ}
    (hroot : root ∈ nodes) (hrel : Rel ∅ s) (hkids : Covers F nodes kids)
    (hstep : ∀ seen s k, Rel seen s → k ∈ nodes → k ∉ seen →
      ∃ s', step s k = some (kids k, s') ∧ Rel (insert k seen) s') :
    ∃ s' seen', loop step nodes.card [root] s = some s' ∧ Rel seen' s' ∧
      ∀ k, k ∈ seen' ↔ F.Below root k :=
  loop_partial (Partial.init hroot) hrel hkids hstep (Nat.le_refl _)

end Visit
