import Mathlib.Order.Nat
import Mathlib.Tactic.Common

/-!
# Salsa.Lib.Serial — serial execution, and memories that agree with it

Numbered transactions act on a memory `Key → Val`, one after the other; `serial`
is the memory before each of them. A concurrent implementation keeps a memory of
its own in which the effects of the transactions appear key by key, in an order
that is the serial one only where it matters.

* `Reader` — a computation that asks a memory, each question depending on the
  answers so far; `Follows` says of a reader in mid-course where it will end and
  what it will still ask.
* `At W applied n k` — as far as key `k` goes, exactly the transactions before
  `n` have been applied: the earlier writers of `k` all are, the others not.
* `Agrees` — wherever `At` places a key, the memory shows the serial value.
  Kept by every step that moves each key by one writer or not at all
  (`Agrees.step`).

Everything is over arbitrary types of keys, values, questions and results.
-/

namespace Serial

/-! ## Readers -/

/-- A computation that asks questions and ends with a result. -/
inductive Reader (Q V R : Type) where
  | done (r : R)
  | read (q : Q) (next : V → Reader Q V R)

namespace Reader

variable {Q V R : Type}

/-- The result when every question is answered by `ask`. -/
def eval (ask : Q → V) : Reader Q V R → R
  | done r => r
  | read q next => (next (ask q)).eval ask

/-- The questions asked on the way. -/
def asked (ask : Q → V) : Reader Q V R → List Q
  | done _ => []
  | read q next => q :: (next (ask q)).asked ask

/-- Under the answers `ask` the reader ends with `r` and asks only `P`. -/
def Follows (ask : Q → V) (r : R) (P : Q → Prop) (t : Reader Q V R) : Prop :=
  t.eval ask = r ∧ ∀ q ∈ t.asked ask, P q

variable {ask : Q → V} {r : R} {P : Q → Prop} {next : V → Reader Q V R}

theorem Follows.result {r' : R} (h : (done r' : Reader Q V R).Follows ask r P) : r' = r := h.1

theorem Follows.asks {q : Q} (h : (read q next).Follows ask r P) : P q := h.2 q (by simp [asked])

/-- Given the right answer, the reader stays on its way. -/
theorem Follows.answer {q : Q} {v : V}
    (h : (read q next).Follows ask r P) (hv : v = ask q) : (next v).Follows ask r P := by
  subst hv
  refine ⟨h.1, fun q' hq' => h.2 q' ?_⟩
  exact List.mem_cons_of_mem _ hq'

end Reader

/-! ## The serial memories -/

variable {Key Val Val' : Type}

/-- The memory before each transaction. -/
def serial (apply : ℕ → (Key → Val) → Key → Val) (start : Key → Val) : ℕ → Key → Val
  | 0 => start
  | n + 1 => apply n (serial apply start n)

/-- A transaction changes only what it writes. -/
def Frame (apply : ℕ → (Key → Val) → Key → Val) (W : ℕ → Key → Prop) : Prop :=
  ∀ n σ k, ¬ W n k → apply n σ k = σ k

section

variable {apply : ℕ → (Key → Val) → Key → Val} {start : Key → Val} {W : ℕ → Key → Prop}

/-- Between two transactions with no writer of `k` from one to the other, `k`
does not change. -/
theorem serial_eq_of_not_writes (hframe : Frame apply W) {m n : ℕ} {k : Key} (hmn : m ≤ n)
    (hnone : ∀ j, m ≤ j → j < n → ¬ W j k) : serial apply start n k = serial apply start m k := by
  induction n, hmn using Nat.le_induction with
  | base => rfl
  | succ n hmn ih =>
    rw [serial, hframe n _ k (hnone n hmn (Nat.lt_succ_self n))]
    exact ih fun j hmj hjn => hnone j hmj (hjn.trans (Nat.lt_succ_self n))

/-! ## Agreement -/

/-- Of the writers of `k`, exactly those before `n` have been applied. -/
structure At (W applied : ℕ → Key → Prop) (n : ℕ) (k : Key) : Prop where
  before : ∀ j, j < n → W j k → applied j k
  after : ∀ j, n ≤ j → W j k → ¬ applied j k

variable {applied applied' : ℕ → Key → Prop}

/-- Two places at which a key stands have the same serial value. -/
theorem serial_eq_of_at (hframe : Frame apply W) {m n : ℕ} {k : Key} (hm : At W applied m k)
    (hn : At W applied n k) : serial apply start m k = serial apply start n k := by
  rcases le_total m n with hmn | hnm
  · refine (serial_eq_of_not_writes hframe hmn ?_).symm
    intro j hmj hjn hw
    exact hm.after j hmj hw (hn.before j hjn hw)
  · refine serial_eq_of_not_writes hframe hnm ?_
    intro j hnj hjm hw
    exact hn.after j hnj hw (hm.before j hjm hw)

/-- Wherever a key stands, the memory is related to the serial value there. -/
def Agrees (apply : ℕ → (Key → Val) → Key → Val) (start : Key → Val) (W : ℕ → Key → Prop)
    (rel : Val' → Val → Prop) (mem : Key → Val') (applied : ℕ → Key → Prop) : Prop :=
  ∀ k n, At W applied n k → rel (mem k) (serial apply start n k)

variable {rel : Val' → Val → Prop} {mem mem' : Key → Val'}

/-- With nothing applied, every key stands before the first transaction. -/
theorem agrees_start (hframe : Frame apply W) (hrel : ∀ k, rel (mem k) (start k))
    (hnone : ∀ j k, ¬ applied j k) : Agrees apply start W rel mem applied := by
  intro k n hat
  have hzero : At W applied 0 k :=
    ⟨fun j hj => absurd hj (Nat.not_lt_zero j), fun j _ _ => hnone j k⟩
  rw [serial_eq_of_at hframe hat hzero]
  exact hrel k

/-- A key that a step leaves alone. -/
def Stays (W : ℕ → Key → Prop) (mem mem' : Key → Val') (applied applied' : ℕ → Key → Prop)
    (k : Key) : Prop :=
  mem' k = mem k ∧ ∀ j, W j k → (applied' j k ↔ applied j k)

/-- A key that a step takes past one more writer. -/
def Moves (apply : ℕ → (Key → Val) → Key → Val) (start : Key → Val) (W : ℕ → Key → Prop)
    (rel : Val' → Val → Prop) (mem mem' : Key → Val') (applied applied' : ℕ → Key → Prop)
    (k : Key) : Prop :=
  ∃ j, At W applied j k ∧ At W applied' (j + 1) k ∧
    (rel (mem k) (serial apply start j k) → rel (mem' k) (serial apply start (j + 1) k))

theorem Agrees.step (hframe : Frame apply W) (h : Agrees apply start W rel mem applied)
    (hstep : ∀ k, Stays W mem mem' applied applied' k ∨
      Moves apply start W rel mem mem' applied applied' k) :
    Agrees apply start W rel mem' applied' := by
  intro k n hat
  rcases hstep k with ⟨hmem, happ⟩ | ⟨j, hj, hj', hrel⟩
  · rw [hmem]
    refine h k n ⟨fun j hjn hw => (happ j hw).mp (hat.before j hjn hw), ?_⟩
    intro j hnj hw ha
    exact hat.after j hnj hw ((happ j hw).mpr ha)
  · rw [serial_eq_of_at hframe hat hj']
    exact hrel (h k j hj)

/-- A step that changes neither the memory nor what is applied. -/
theorem Agrees.congr (h : Agrees apply start W rel mem applied)
    (happ : ∀ j k, applied' j k ↔ applied j k) : Agrees apply start W rel mem applied' := by
  have heq : applied' = applied := by
    funext j k
    exact propext (happ j k)
  rw [heq]
  exact h

end

end Serial
