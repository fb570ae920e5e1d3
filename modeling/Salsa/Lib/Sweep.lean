import Mathlib.Data.List.Sort

/-!
# Salsa.Lib.Sweep — one pass over keyed operations from the greatest key down

Every operation belongs to a key, changes the value of that key and may read the values
of greater keys. When the operations are sorted by key, greatest first, what an
operation reads is final. So the outcome is determined key by key: the value of a key is
that of its own operations, run on the values of the outcome (`run_eq`).

A pass fails as soon as an operation does. It does not if at each key the operations
succeed one after the other, whatever they read (`run_isSome`).

Over arbitrary keys, values and operations, with `E` an invariant of the values that
operations may rely on and keep.
-/

namespace Sweep

open Function List

variable {κ ν ο : Type} [LinearOrder κ] (key : ο → κ) (eff : ο → (κ → ν) → ν → Option ν)

/-- The operations one after the other; `none` is a failure. -/
def run : List ο → (κ → ν) → Option (κ → ν)
  | [], f => some f
  | o :: l, f => do
      let v ← eff o f (f (key o))
      run l (Function.update f (key o) v)

def at_ (k : κ) (l : List ο) : List ο := l.filter fun o => key o = k

variable {key eff} {E : (κ → ν) → Prop}

theorem at_cons_self (o : ο) (l : List ο) : at_ key (key o) (o :: l) = o :: at_ key (key o) l :=
  filter_cons_of_pos (decide_eq_true rfl)

theorem at_cons_of_ne {o : ο} {k : κ} (h : key o ≠ k) (l : List ο) :
    at_ key k (o :: l) = at_ key k l :=
  filter_cons_of_neg fun hk => h (of_decide_eq_true hk)

variable {l : List ο} {f g : κ → ν}

/-- No operation of a key means no change. -/
theorem run_of_notMem {k : κ} (h : run key eff l f = some g)
    (hk : ∀ o ∈ l, key o ≠ k) : g k = f k := by
  induction l generalizing f with
  | nil =>
    cases h
    rfl
  | cons o l ih =>
    obtain ⟨v, -, hrun⟩ := Option.bind_eq_some_iff.mp h
    rw [ih hrun fun o' ho' => hk o' (mem_cons_of_mem o ho')]
    exact update_of_ne (Ne.symm (hk o mem_cons_self)) v f

section

variable (hE : E f)
  (hkeep : ∀ o ∈ l, ∀ f v, E f → eff o f (f (key o)) = some v → E (Function.update f (key o) v))
include hE hkeep

/-- What holds of the values and is kept by every operation holds in the end. -/
theorem run_inv (h : run key eff l f = some g) : E g := by
  induction l generalizing f with
  | nil =>
    cases h
    exact hE
  | cons o l ih =>
    obtain ⟨v, hv, hrun⟩ := Option.bind_eq_some_iff.mp h
    exact ih (hkeep o mem_cons_self f v hE hv) (fun o' ho' => hkeep o' (mem_cons_of_mem o ho')) hrun

/-- The outcome at a key: its own operations, on the values of the outcome. -/
theorem run_eq (h : run key eff l f = some g) (hsorted : l.Pairwise fun a b => key b ≤ key a)
    (hlocal : ∀ o ∈ l, ∀ f g, E f → (∀ k, key o < k → f k = g k) →
      eff o f (f (key o)) = eff o g (f (key o))) (k : κ) :
    (at_ key k l).foldlM (fun v o => eff o g v) (f k) = some (g k) := by
  induction l generalizing f with
  | nil =>
    cases h
    rfl
  | cons o l ih =>
    obtain ⟨v, hv, hrun⟩ := Option.bind_eq_some_iff.mp h
    obtain ⟨hle, hsorted'⟩ := pairwise_cons.mp hsorted
    have hrest := ih (hkeep o mem_cons_self f v hE hv)
      (fun o' ho' => hkeep o' (mem_cons_of_mem o ho')) hrun hsorted'
      fun o' ho' => hlocal o' (mem_cons_of_mem o ho')
    by_cases hk : key o = k
    · -- the values above the key are final
      have hfinal : ∀ j, key o < j → f j = g j := by
        intro j hj
        rw [run_of_notMem h]
        intro o' ho'
        rcases mem_cons.mp ho' with rfl | ho'
        · exact hj.ne
        · exact ((hle o' ho').trans_lt hj).ne
      rw [← hk, at_cons_self, foldlM_cons, ← hlocal o mem_cons_self f g hE hfinal, hv]
      rw [← hk, update_self] at hrest
      exact hrest
    · rw [update_of_ne (Ne.symm hk)] at hrest
      rw [at_cons_of_ne hk]
      exact hrest

variable (eff E) in
/-- The operations succeed one after the other, whatever they read. -/
def Succeeds : List ο → ν → Prop
  | [], _ => True
  | o :: l, v => ∀ f, E f → ∃ v', eff o f v = some v' ∧ Succeeds l v'

theorem run_isSome (hsucc : ∀ k, Succeeds eff E (at_ key k l) (f k)) :
    ∃ g, run key eff l f = some g := by
  induction l generalizing f with
  | nil => exact ⟨f, rfl⟩
  | cons o l ih =>
    have hhead := hsucc (key o)
    rw [at_cons_self] at hhead
    obtain ⟨v, hv, hrest⟩ := hhead f hE
    have hnext : ∀ k, Succeeds eff E (at_ key k l) (update f (key o) v k) := by
      intro k
      by_cases hk : k = key o
      · rw [hk, update_self]
        exact hrest
      · rw [update_of_ne hk, ← at_cons_of_ne (Ne.symm hk) l]
        exact hsucc k
    obtain ⟨g, hg⟩ := ih (hkeep o mem_cons_self f v hE hv)
      (fun o' ho' => hkeep o' (mem_cons_of_mem o ho')) hnext
    refine ⟨g, ?_⟩
    rw [run, hv]
    exact hg

end

end Sweep
