import Mathlib.Tactic.Common

/-!
# Salsa.Lib.Program — pre- and postconditions of programs that may stop

Programs over a state that end with a value or stop early, keeping the state they
stopped in. `Triple P m Q E` is the judgement: from a state with `P`, the program `m`
ends in `Q` or stops in `E`. There is one rule for each way to build a program, and
`Triple.forM` for a loop over a list, whose invariant may speak of the part done.
-/

namespace Program

open List

variable {ε σ α β : Type} {m m' : EStateM ε σ α} {f : α → EStateM ε σ β} {c : Prop}

/-- From a state with `P`, the program ends in `Q` or stops in `E`. -/
def Triple (P : σ → Prop) (m : EStateM ε σ α) (Q : α → σ → Prop) (E : ε → σ → Prop) : Prop :=
  ∀ s, P s → match m s with
    | .ok a s' => Q a s'
    | .error e s' => E e s'

/-- The value of an option, or a stop. -/
def orStop (e : ε) : Option α → EStateM ε σ α
  | some a => pure a
  | none => throw e

namespace Triple

variable {P P' : σ → Prop} {Q Q' : α → σ → Prop} {E : ε → σ → Prop} {a : α} {e : ε}

theorem weaken (h : Triple P m Q E) (hP : ∀ s, P' s → P s) (hQ : ∀ a s, Q a s → Q' a s) :
    Triple P' m Q' E := by
  intro s hs
  have hm := h s (hP s hs)
  cases hrun : m s with
  | ok a s' =>
    rw [hrun] at hm
    exact hQ a s' hm
  | error e s' =>
    rw [hrun] at hm
    exact hm

/-- What holds where a run ends. -/
theorem ok {s s' : σ} (h : Triple P m Q E) (hs : P s) (hrun : m s = .ok a s') : Q a s' := by
  have hm := h s hs
  rw [hrun] at hm
  exact hm

/-- A program that does not stop ends. -/
theorem total {s : σ} (h : Triple P m Q fun _ _ => False) (hs : P s) :
    ∃ a s', m s = .ok a s' ∧ Q a s' := by
  have hm := h s hs
  cases hrun : m s with
  | ok a s' => exact ⟨a, s', rfl, h.ok hs hrun⟩
  | error e s' =>
    rw [hrun] at hm
    cases hm

theorem pre (h : Triple P m Q E) (hP : ∀ s, P' s → P s) : Triple P' m Q E :=
  h.weaken hP fun _ _ hQ => hQ

theorem post (h : Triple P m Q E) (hQ : ∀ a s, Q a s → Q' a s) : Triple P m Q' E :=
  h.weaken (fun _ hP => hP) hQ

theorem pure (h : ∀ s, P s → Q a s) : Triple P (pure a) Q E := h

theorem throw (h : ∀ s, P s → E e s) : Triple P (throw e : EStateM ε σ α) Q E := h

theorem bind {R : α → σ → Prop} {Q : β → σ → Prop}
    (hm : Triple P m R E) (hf : ∀ a, Triple (R a) (f a) Q E) : Triple P (m >>= f) Q E := by
  intro s hs
  have hR := hm s hs
  show match EStateM.bind m f s with
    | .ok a s' => Q a s'
    | .error e s' => E e s'
  unfold EStateM.bind
  cases hrun : m s with
  | ok a s' =>
    rw [hrun] at hR
    exact hf a s' hR
  | error e s' =>
    rw [hrun] at hR
    exact hR

/-- Nothing runs after a stop. -/
theorem throw_bind {Q : β → σ → Prop} (h : ∀ s, P s → E e s) :
    Triple P (throwThe ε e >>= f) Q E :=
  h

/-- A program from each of the states one by one. -/
theorem pin (h : ∀ s, P s → Triple (fun t => t = s) m Q E) : Triple P m Q E := by
  intro s hs
  exact h s hs s rfl

/-- Reading the state fixes it for what follows. -/
theorem get_bind {f : σ → EStateM ε σ β} {Q : β → σ → Prop}
    (h : ∀ s, P s → Triple (fun t => t = s) (f s) Q E) : Triple P (get >>= f) Q E := by
  intro s hs
  exact h s hs s rfl

theorem modify {f : σ → σ} {Q : PUnit → σ → Prop} (h : ∀ s, P s → Q ⟨⟩ (f s)) :
    Triple P (modify f) Q E :=
  h

theorem ite [Decidable c] (ht : c → Triple P m Q E) (hf : ¬ c → Triple P m' Q E) :
    Triple P (if c then m else m') Q E := by
  by_cases hc : c
  · rw [if_pos hc]
    exact ht hc
  · rw [if_neg hc]
    exact hf hc

/-- An early return. -/
theorem ite_pure [Decidable c] (ht : ∀ s, P s → Q a s)
    (hf : ¬ c → Triple P m Q E) : Triple P (if c then Pure.pure a else m) Q E :=
  ite (fun _ => pure ht) hf

/-- A value that is there. -/
theorem orStop {x : Option α} (hx : x = some a) (h : ∀ s, P s → Q a s) :
    Triple P (orStop e x) Q E := by
  rw [hx]
  exact h

variable {f : β → EStateM ε σ PUnit}

/-- A loop over a list, by an invariant that may speak of the elements done. -/
theorem forM {l : List β} {I : List β → σ → Prop} (h : ∀ done b rest, l = done ++ b :: rest →
      Triple (I done) (f b) (fun _ => I (done ++ [b])) E) :
    Triple (I []) (l.forM f) (fun _ => I l) E := by
  -- the elements before the rest still to do are fixed by the list
  have hloop : ∀ rest done, l = done ++ rest → Triple (I done) (rest.forM f) (fun _ => I l) E := by
    intro rest
    induction rest with
    | nil =>
      intro done hl
      rw [append_nil] at hl
      rw [hl]
      exact fun s hs => hs
    | cons b rest ih =>
      intro done hl
      apply Triple.bind (h done b rest hl)
      intro _
      exact ih (done ++ [b]) (by rw [hl, append_assoc]; rfl)
  exact hloop l [] rfl

/-- A loop whose body keeps `P`. -/
theorem forM_keep {l : List β}
    (h : ∀ b ∈ l, Triple P (f b) (fun _ => P) E) : Triple P (l.forM f) (fun _ => P) E := by
  apply Triple.forM (I := fun _ => P)
  intro done b rest hl
  apply h
  rw [hl]
  exact mem_append_right _ mem_cons_self

end Triple

end Program
