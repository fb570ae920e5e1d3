import Mathlib.Data.List.MinMax
import Mathlib.Data.Multiset.MapFold

/-!
# Salsa.Lib.MinMaxQueue — queues that give up either end

A double-ended priority queue by what it promises: a multiset of elements of which
the least and the greatest can be taken out. How it is laid out is left open.

`MinMaxQueue.ofList` is a queue kept as a list.
-/

/-- A double-ended priority queue. -/
structure MinMaxQueue (α : Type) [LinearOrder α] where
  Carrier : Type
  empty : Carrier
  push : Carrier → α → Carrier
  popMin : Carrier → Option (α × Carrier)
  popMax : Carrier → Option (α × Carrier)
  elems : Carrier → Multiset α
  elems_empty : elems empty = 0
  elems_push : ∀ h a, elems (push h a) = a ::ₘ elems h
  popMin_none : ∀ {h}, popMin h = none → elems h = 0
  popMin_some : ∀ {h a h'}, popMin h = some (a, h') →
    elems h = a ::ₘ elems h' ∧ ∀ b ∈ elems h, a ≤ b
  popMax_none : ∀ {h}, popMax h = none → elems h = 0
  popMax_some : ∀ {h a h'}, popMax h = some (a, h') →
    elems h = a ::ₘ elems h' ∧ ∀ b ∈ elems h, b ≤ a

namespace MinMaxQueue

open List Multiset

variable {α : Type} [LinearOrder α] (Q : MinMaxQueue α)

def pushAll (h : Q.Carrier) (l : List α) : Q.Carrier := l.foldl Q.push h

theorem elems_pushAll (h : Q.Carrier) (l : List α) :
    Q.elems (Q.pushAll h l) = Q.elems h + (l : Multiset α) := by
  induction l generalizing h with
  | nil => exact (Multiset.add_zero _).symm
  | cons a l ih =>
    show Q.elems (Q.pushAll (Q.push h a) l) = _
    rw [ih, Q.elems_push, cons_add, ← add_cons, cons_coe]

def ofList (α : Type) [LinearOrder α] : MinMaxQueue α where
  Carrier := List α
  empty := []
  push h a := a :: h
  popMin h := (h.argmin id).map fun a => (a, h.erase a)
  popMax h := (h.argmax id).map fun a => (a, h.erase a)
  elems h := h
  elems_empty := rfl
  elems_push _ _ := rfl
  popMin_none := by
    intro h hpop
    rw [List.argmin_eq_none.mp (Option.map_eq_none_iff.mp hpop)]
    rfl
  popMin_some := by
    intro h a h' hpop
    obtain ⟨b, hb, heq⟩ := Option.map_eq_some_iff.mp hpop
    cases heq
    have hmem := List.argmin_mem hb
    refine ⟨(Multiset.cons_erase (Multiset.mem_coe.mpr hmem)).symm, ?_⟩
    intro c hc
    exact List.le_of_mem_argmin (f := id) hc hb
  popMax_none := by
    intro h hpop
    rw [List.argmax_eq_none.mp (Option.map_eq_none_iff.mp hpop)]
    rfl
  popMax_some := by
    intro h a h' hpop
    obtain ⟨b, hb, heq⟩ := Option.map_eq_some_iff.mp hpop
    cases heq
    have hmem := List.argmax_mem hb
    refine ⟨(Multiset.cons_erase (Multiset.mem_coe.mpr hmem)).symm, ?_⟩
    intro c hc
    exact List.le_of_mem_argmax (f := id) hc hb

end MinMaxQueue
