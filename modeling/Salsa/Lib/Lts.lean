import Mathlib.Data.List.Induction
import Mathlib.Order.WellFounded

/-!
# Salsa.Lib.Lts — labelled transition systems and their finite runs

The proof engine of the concurrent components. A component is an `Lts`: an
initial predicate and a labelled step relation. A `Run` is a finite sequence
of steps together with its trace of labels, so both state properties ("in
every reachable state …") and trace properties ("between two such steps there
is …") are statements about `Run`. A `Path` is an infinite run.
-/

universe u v

structure Lts (σ : Type u) (α : Type v) where
  Init : σ → Prop
  /-- `Step s a s'`: from `s` the action `a` leads to `s'`. -/
  Step : σ → α → σ → Prop

namespace Lts

open List

variable {σ : Type u} {α : Type v} {L : Lts σ α}

/-- A finite run from `s`, growing at its end, with the trace of its labels. -/
inductive Run (L : Lts σ α) (s : σ) : List α → σ → Prop where
  | nil : Run L s [] s
  | snoc {tr : List α} {t u : σ} {a : α} : Run L s tr t → L.Step t a u → Run L s (tr ++ [a]) u

/-- The states some run from an initial state ends in. -/
def Reachable (L : Lts σ α) (s : σ) : Prop :=
  ∃ s₀ tr, L.Init s₀ ∧ L.Run s₀ tr s

/-! ## Cutting and joining runs -/

variable {s t : σ} {a : α} {tr tr' : List α}

open Run

theorem Run.single (h : L.Step s a t) : L.Run s [a] t := (nil : L.Run s [] s).snoc h

theorem Run.append {s t u : σ} (h : L.Run s tr t) (h' : L.Run t tr' u) : L.Run s (tr ++ tr') u := by
  induction h' with
  | nil => simpa using h
  | snoc _ hstep ih =>
    rw [← append_assoc]
    exact snoc ih hstep

variable {tr : List α} {s u : σ}

theorem Run.cons {s t u : σ} (h : L.Step s a t) (h' : L.Run t tr u) : L.Run s (a :: tr) u :=
  (single h).append h'

/-- The last step of a run. -/
theorem Run.snoc_inv (h : L.Run s (tr ++ [a]) u) : ∃ t, L.Run s tr t ∧ L.Step t a u := by
  generalize htr : tr ++ [a] = tr' at h
  cases h with
  | nil => simp at htr
  | snoc hrun hstep =>
    obtain ⟨rfl, hab⟩ := append_inj' htr rfl
    cases hab
    exact ⟨_, hrun, hstep⟩

theorem Run.nil_inv (h : L.Run s [] t) : t = s := by
  generalize htr : [] = tr at h
  cases h with
  | nil => rfl
  | snoc _ _ => simp at htr

/-- Where the steps are deterministic the trace determines where a run ends. -/
theorem Run.unique (hdet : ∀ s a t t', L.Step s a t → L.Step s a t' → t = t') {s t t' : σ}
    (h : L.Run s tr t) (h' : L.Run s tr t') : t = t' := by
  induction h generalizing t' with
  | nil => exact h'.nil_inv.symm
  | snoc _ hstep ih =>
    obtain ⟨u, hu, hstep'⟩ := h'.snoc_inv
    cases ih hu
    exact hdet _ _ _ _ hstep hstep'

/-- A run over a joined trace passes through a state between the parts. -/
theorem Run.split (h : L.Run s (tr ++ tr') u) : ∃ t, L.Run s tr t ∧ L.Run t tr' u := by
  induction tr' using reverseRecOn generalizing u with
  | nil => exact ⟨u, by simpa using h, nil⟩
  | append_singleton tr' a ih =>
    rw [← append_assoc] at h
    obtain ⟨t, hrun, hstep⟩ := h.snoc_inv
    obtain ⟨m, h₁, h₂⟩ := ih hrun
    exact ⟨m, h₁, h₂.snoc hstep⟩

/-- A run over `pre ++ a :: post` takes the step `a` between its parts. -/
theorem Run.split_cons {pre post : List α} (h : L.Run s (pre ++ a :: post) u) :
    ∃ t t', L.Run s pre t ∧ L.Step t a t' ∧ L.Run t' post u := by
  have h' : L.Run s ((pre ++ [a]) ++ post) u := by simpa using h
  obtain ⟨t', h₁, h₂⟩ := h'.split
  obtain ⟨t, hpre, hstep⟩ := h₁.snoc_inv
  exact ⟨t, t', hpre, hstep, h₂⟩

/-! ## Invariants -/

variable (P : σ → Prop) {C : σ → α → Prop}

/-- Inductive invariance: what holds at the start and is kept by every step
holds at the end of every run. -/
theorem Run.inv (h : L.Run s tr t) (h₀ : P s)
    (hstep : ∀ s a s', L.Step s a s' → P s → P s') : P t := by
  induction h with
  | nil => exact h₀
  | snoc _ hs ih => exact hstep _ _ _ hs ih

/-- Inductive invariance where each step may use what is known of its label. -/
theorem Run.inv_of_mem (C : α → Prop) (h : L.Run s tr t) (hC : ∀ a ∈ tr, C a) (h₀ : P s)
    (hstep : ∀ s a s', C a → L.Step s a s' → P s → P s') : P t := by
  induction h with
  | nil => exact h₀
  | snoc _ hs ih =>
    refine hstep _ _ _ (hC _ (by simp)) hs (ih ?_)
    intro a ha
    exact hC a (by simp [ha])

/-- Invariance over the reachable states. -/
theorem Reachable.inv (h : L.Reachable s) (hinit : ∀ s, L.Init s → P s)
    (hstep : ∀ s a s', L.Step s a s' → P s → P s') : P s := by
  obtain ⟨s₀, tr, h₀, hrun⟩ := h
  exact hrun.inv P (hinit s₀ h₀) hstep

theorem Reachable.step {s s' : σ} (h : L.Reachable s) (hs : L.Step s a s') : L.Reachable s' := by
  obtain ⟨s₀, tr, h₀, hrun⟩ := h
  exact ⟨s₀, tr ++ [a], h₀, hrun.snoc hs⟩

/-- If `P` held at the start of a run and fails at its end, one of the steps
took a `P` state to a state without `P`. -/
theorem Run.exists_break (h : L.Run s tr t) (hs : P s) (ht : ¬ P t) :
    ∃ pre a post u u', tr = pre ++ a :: post ∧ L.Run s pre u ∧ L.Step u a u' ∧ P u ∧ ¬ P u' := by
  induction h with
  | nil => exact absurd hs ht
  | @snoc tr m u a hrun hstep ih =>
    by_cases hm : P m
    · exact ⟨tr, a, [], m, u, rfl, hrun, hstep, hm, ht⟩
    · obtain ⟨pre, b, post, v, v', htr, h₁, h₂, h₃, h₄⟩ := ih hm
      exact ⟨pre, b, post ++ [a], v, v', by rw [htr]; simp, h₁, h₂, h₃, h₄⟩

/-! ## Runs under a side condition -/

/-- The system with only those steps that meet `C` in the state before them. -/
def restrict (L : Lts σ α) (C : σ → α → Prop) : Lts σ α where
  Init := L.Init
  Step s a s' := C s a ∧ L.Step s a s'

theorem restrict_step (h : L.Step s a t) (hC : C s a) :
    (L.restrict C).Step s a t :=
  ⟨hC, h⟩

theorem Run.of_restrict (h : (L.restrict C).Run s tr t) : L.Run s tr t := by
  induction h with
  | nil => exact nil
  | snoc _ hs ih => exact ih.snoc hs.2

/-- The system with only those steps that end in a state with `P`. -/
def confine (L : Lts σ α) (P : σ → Prop) : Lts σ α where
  Init := L.Init
  Step s a s' := L.Step s a s' ∧ P s'

theorem Run.of_confine {P : σ → Prop} (h : (L.confine P).Run s tr t) : L.Run s tr t := by
  induction h with
  | nil => exact nil
  | snoc _ hs ih => exact ih.snoc hs.1

/-! ## Infinite runs -/

/-- An infinite run from an initial state. -/
structure Path (L : Lts σ α) where
  state : ℕ → σ
  label : ℕ → α
  init : L.Init (state 0)
  step : ∀ n, L.Step (state n) (label n) (state (n + 1))

theorem Path.reachable (ρ : L.Path) (n : ℕ) : L.Reachable (ρ.state n) := by
  induction n with
  | zero => exact ⟨_, [], ρ.init, nil⟩
  | succ n ih => exact ih.step (ρ.step n)

/-- What holds at one time and is kept from then on holds ever after. -/
theorem Path.inv_from (ρ : L.Path) (P : σ → Prop) {n : ℕ} (hn : P (ρ.state n))
    (hstep : ∀ m, n ≤ m → P (ρ.state m) → P (ρ.state (m + 1))) {m : ℕ} (hm : n ≤ m) :
    P (ρ.state m) := by
  induction m, hm using Nat.le_induction with
  | base => exact hn
  | succ m hm ih => exact hstep m hm ih

/-- A measure that never grows is constant from some time on. -/
theorem Path.exists_constant (ρ : L.Path) (μ : σ → ℕ)
    (hμ : ∀ n, μ (ρ.state (n + 1)) ≤ μ (ρ.state n)) :
    ∃ N, ∀ n, N ≤ n → μ (ρ.state n) = μ (ρ.state N) := by
  rcases WellFounded.has_min Nat.lt_wfRel.wf (Set.range fun n => μ (ρ.state n)) ⟨_, 0, rfl⟩ with
    ⟨_, ⟨N, rfl⟩, hmin⟩
  refine ⟨N, fun n hn => Nat.le_antisymm ?_ (not_lt.mp (hmin _ ⟨n, rfl⟩))⟩
  exact ρ.inv_from (fun s => μ s ≤ μ (ρ.state N)) (Nat.le_refl _)
    (fun m _ hle => (hμ m).trans hle) hn

end Lts
