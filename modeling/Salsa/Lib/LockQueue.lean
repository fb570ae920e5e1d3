import Mathlib.Data.Set.Finite.Lemmas

/-!
# Salsa.Lib.LockQueue — locks that are granted in the order of a key

One lock with the requests that hold it and those that wait for it. A request has
a key, and a late request belongs to somebody who still waits for another lock.
-/

namespace LockQueue

variable {ι κ : Type} [LinearOrder κ] {key : ι → κ} {clash : ι → ι → Prop} {late : ι → Prop}
  {holders waiting : Set ι}

/-- The holders and the waiting requests of a lock. -/
structure Orderly (key : ι → κ) (clash : ι → ι → Prop) (late : ι → Prop)
    (holders waiting : Set ι) : Prop where
  disjoint : ∀ x ∈ holders, x ∉ waiting
  exclusive : ∀ x ∈ holders, ∀ y ∈ holders, x ≠ y → ¬ clash x y
  blocked : ∀ w ∈ waiting, ∃ x, clash x w ∧ (x ∈ holders ∨ x ∈ waiting ∧ key x < key w)
  ordered : ∀ x ∈ holders, late x → ∀ w ∈ waiting, clash x w → key x < key w

theorem Orderly.mono {late' : ι → Prop} (h : Orderly key clash late holders waiting)
    (hlate : ∀ x ∈ holders, late' x → late x) : Orderly key clash late' holders waiting where
  disjoint := h.disjoint
  exclusive := h.exclusive
  blocked := h.blocked
  ordered x hx hx' := h.ordered x hx (hlate x hx hx')

variable {back : Set ι}

section

variable (h : Orderly key clash late holders waiting) {n : ι}
include h

/-- Whoever a request waited for is still there when late holders are put back. -/
theorem Orderly.blocked_back (hlate : ∀ r ∈ back, late r) {w : ι} (hw : w ∈ waiting) :
    ∃ x, clash x w ∧ (x ∈ holders \ back ∨ x ∈ waiting ∪ back ∧ key x < key w) := by
  rcases h.blocked w hw with ⟨x, hclash, hx | ⟨hx, hlt⟩⟩
  · by_cases hback : x ∈ back
    · exact ⟨x, hclash, Or.inr ⟨Or.inr hback, h.ordered x hx (hlate x hback) w hw hclash⟩⟩
    · exact ⟨x, hclash, Or.inl ⟨hx, hback⟩⟩
  · exact ⟨x, hclash, Or.inr ⟨Or.inl hx, hlt⟩⟩

/-- Holders that stay come before the waiting, those put back included. -/
theorem Orderly.ordered_back (hback : back ⊆ holders) {x w : ι} (hx : x ∈ holders \ back)
    (hlate : late x) (hw : w ∈ waiting ∪ back) (hclash : clash x w) : key x < key w := by
  rcases hw with hw | hw
  · exact h.ordered x hx.1 hlate w hw hclash
  · have hne : x ≠ w := fun heq => hx.2 (heq ▸ hw)
    exact absurd hclash (h.exclusive x hx.1 w (hback hw) hne)

/-- A new request takes the lock from the late holders `back`. -/
theorem Orderly.grant (hsymm : ∀ x y, clash x y → clash y x) (hn : n ∉ waiting)
    (hn' : n ∉ back) (hback : back ⊆ holders) (hlate : ∀ r ∈ back, late r)
    (hclear : ∀ x ∈ holders \ back, ¬ clash n x) (hclash : ∀ r ∈ back, clash n r)
    (hfirst : ∀ w ∈ waiting ∪ back, clash n w → key n < key w) :
    Orderly key clash late (insert n (holders \ back)) (waiting ∪ back) where
  disjoint := by
    rintro x (rfl | hx) (hw | hw)
    · exact hn hw
    · exact hn' hw
    · exact h.disjoint x hx.1 hw
    · exact hx.2 hw
  exclusive := by
    rintro x (rfl | hx) y (rfl | hy) hne
    · exact absurd rfl hne
    · exact hclear y hy
    · exact fun hxy => hclear x hx (hsymm _ _ hxy)
    · exact h.exclusive x hx.1 y hy.1 hne
  blocked := by
    rintro w (hw | hw)
    · rcases h.blocked_back hlate hw with ⟨x, hx, hx' | hx'⟩
      · exact ⟨x, hx, Or.inl (Or.inr hx')⟩
      · exact ⟨x, hx, Or.inr hx'⟩
    · exact ⟨n, hclash w hw, Or.inl (Or.inl rfl)⟩
  ordered := by
    rintro x (rfl | hx) hx' w hw hxw
    · exact hfirst w hw hxw
    · exact h.ordered_back hback hx hx' hw hxw

/-- A new request waits; the late holders `back` wait behind it. -/
theorem Orderly.wait (hn : n ∉ holders) (hback : back ⊆ holders)
    (hlate : ∀ r ∈ back, late r) (hbehind : ∀ r ∈ back, clash n r ∧ key n < key r)
    (hblocked : ∃ x, clash x n ∧ (x ∈ holders \ back ∨ x ∈ waiting ∧ key x < key n))
    (hordered : ∀ x ∈ holders \ back, late x → clash x n → key x < key n) :
    Orderly key clash late (holders \ back) (insert n (waiting ∪ back)) where
  disjoint := by
    rintro x hx (rfl | hw | hw)
    · exact hn hx.1
    · exact h.disjoint x hx.1 hw
    · exact hx.2 hw
  exclusive x hx y hy := h.exclusive x hx.1 y hy.1
  blocked := by
    rintro w (rfl | hw | hw)
    · rcases hblocked with ⟨x, hx, hx' | ⟨hx', hlt⟩⟩
      · exact ⟨x, hx, Or.inl hx'⟩
      · exact ⟨x, hx, Or.inr ⟨Or.inr (Or.inl hx'), hlt⟩⟩
    · rcases h.blocked_back hlate hw with ⟨x, hx, hx' | ⟨hx', hlt⟩⟩
      · exact ⟨x, hx, Or.inl hx'⟩
      · exact ⟨x, hx, Or.inr ⟨Or.inr hx', hlt⟩⟩
    · exact ⟨n, (hbehind w hw).1, Or.inr ⟨Or.inl rfl, (hbehind w hw).2⟩⟩
  ordered := by
    rintro x hx hx' w (rfl | hw) hxw
    · exact hordered x hx hx' hxw
    · exact h.ordered_back hback hx hx' hw hxw

/-- A holder leaves, and whoever waited for it waits for another holder. -/
theorem Orderly.leave (hstay : ∀ w ∈ waiting, clash n w → ∃ x ∈ holders, x ≠ n ∧ clash x w) :
    Orderly key clash late (holders \ {n}) waiting where
  disjoint x hx := h.disjoint x hx.1
  exclusive x hx y hy := h.exclusive x hx.1 y hy.1
  blocked := by
    intro w hw
    rcases h.blocked w hw with ⟨x, hclash, hx | hx⟩
    · by_cases heq : x = n
      · obtain ⟨y, hy, hne, hyw⟩ := hstay w hw (heq ▸ hclash)
        exact ⟨y, hyw, Or.inl ⟨hy, hne⟩⟩
      · exact ⟨x, hclash, Or.inl ⟨hx, heq⟩⟩
    · exact ⟨x, hclash, Or.inr hx⟩
  ordered x hx := h.ordered x hx.1

end

/-! ## Many locks -/

section System

variable {σ τ : Type} (owner : ι → τ) (prio : τ → κ) (lateOwner : τ → Prop)
  {held wanted : σ → Set ι}

/-- Of finitely many owners one waits nowhere: the one with the smallest key, or
somebody it waits for. -/
theorem exists_not_late
    (h : ∀ q, Orderly (fun x => prio (owner x)) clash (fun x => lateOwner (owner x)) (held q)
      (wanted q)) {active : Set τ} (hfin : active.Finite) (hne : active.Nonempty)
    (howner : ∀ q, ∀ x, x ∈ held q ∨ x ∈ wanted q → owner x ∈ active)
    (hlate : ∀ t ∈ active, lateOwner t → ∃ q, ∃ x ∈ wanted q, owner x = t) :
    ∃ t ∈ active, ¬ lateOwner t := by
  obtain ⟨t, ht, hmin⟩ := Set.exists_min_image active prio hfin hne
  by_cases htl : lateOwner t
  · obtain ⟨q, w, hw, rfl⟩ := hlate t ht htl
    rcases (h q).blocked w hw with ⟨x, hclash, hx | ⟨hx, hlt⟩⟩
    · have hxa : owner x ∈ active := howner q x (Or.inl hx)
      refine ⟨owner x, hxa, fun hxl => ?_⟩
      exact absurd ((h q).ordered x hx hxl w hw hclash) (not_lt_of_ge (hmin _ hxa))
    · exact absurd hlt (not_lt_of_ge (hmin _ (howner q x (Or.inr hx))))
  · exact ⟨t, ht, htl⟩

end System

end LockQueue
