import Mathlib.Algebra.GroupWithZero.Nat
import Mathlib.Data.List.TakeWhile

/-!
# Salsa.Stream.Missing — the search for missing shreds

`find_missing_data_indexes` of `ledger/src/blockstore.rs`. The column of data shreds is
ordered by slot and index; the search moves a cursor over it and reports the indexes
that it jumps over, until it meets a shred that has not timed out yet.

* `Search.missing` — what is asked for: the holes of the range, up to the first one whose
  following shred of the slot is still waited for.
* `missingLoop_eq` — what the loop finds, from the cursor on.
* `findMissingDataIndexes_exact_iff` — the two agree exactly if the loop gets to every hole that
  is asked for. An entry of a later slot that is waited for stops it too, and so does a shred of
  the slot that follows no hole.
-/

namespace Salsa.Repair

open List

/-- An entry of the column: its key, and the reference tick in its value, of six bits. -/
structure DataShred where
  slot : ℕ
  index : ℕ
  referenceTick : Fin 64
deriving DecidableEq, Repr

def DataShred.Before (s t : DataShred) : Prop :=
  s.slot < t.slot ∨ s.slot = t.slot ∧ s.index < t.index

instance : DecidableRel DataShred.Before := fun _ _ => instDecidableOr

/-- What a search asks for, and the time at which it does. -/
structure Search where
  slot : ℕ
  firstTimestamp : ℕ
  deferThresholdTicks : ℕ
  startIndex : ℕ
  endIndex : ℕ
  maxMissing : ℕ
  timestamp : ℕ

namespace Search

variable (q : Search)

/-- With `DEFAULT_TICKS_PER_SECOND`. -/
def ticksSinceFirstInsert : ℕ := 160 * (q.timestamp - q.firstTimestamp) % 2 ^ 64 / 1000

/-- The shred is not waited for any more. -/
def timedOut (shred : DataShred) : Bool :=
  (shred.referenceTick + q.deferThresholdTicks) % 2 ^ 64 ≤ q.ticksSinceFirstInsert

/-- The loop of `find_missing_indexes`, over the entries from the cursor on. -/
def missingLoop : List DataShred → ℕ → List ℕ → List ℕ
  | [], prevIndex, missing =>
      missing ++ (range' prevIndex (q.endIndex - prevIndex)).take (q.maxMissing - missing.length)
  | shred :: rest, prevIndex, missing =>
      let currentIndex := if q.slot < shred.slot then q.endIndex else shred.index
      let upperIndex := min currentIndex q.endIndex
      if ¬ q.timedOut shred then missing
      else
        let missing := missing ++
          (range' prevIndex (upperIndex - prevIndex)).take (q.maxMissing - missing.length)
        if missing.length = q.maxMissing ∨ q.slot < shred.slot ∨ q.endIndex ≤ currentIndex then
          missing
        else missingLoop rest (currentIndex + 1) missing

/-- The entry is at the key of index `i` of the slot, or behind it. -/
def after (i : ℕ) (s : DataShred) : Bool := q.slot < s.slot ∨ q.slot = s.slot ∧ i ≤ s.index

/-- `find_missing_data_indexes`, over a column in the order of its keys. -/
def findMissingDataIndexes (column : List DataShred) : List ℕ :=
  if q.endIndex ≤ q.startIndex ∨ q.maxMissing = 0 then []
  else q.missingLoop (column.filter (q.after q.startIndex)) q.startIndex []

variable (column : List DataShred)

/-- The indexes of the range that are not stored for the slot. -/
def holes : List ℕ :=
  (range' q.startIndex (q.endIndex - q.startIndex)).filter fun i =>
    ∀ s ∈ column, s.slot = q.slot → s.index ≠ i

/-- The stored shred of the slot that follows hole `i` has not timed out. -/
def waits (i : ℕ) : Bool :=
  ∃ s ∈ column, s.slot = q.slot ∧ i < s.index ∧
    (∀ t ∈ column, t.slot = q.slot → i < t.index → s.index ≤ t.index) ∧ ¬ q.timedOut s

def missing : List ℕ := ((q.holes column).takeWhile (!q.waits column ·)).take q.maxMissing

/-- All entries from the cursor up to the first one behind index `i` have timed out, whatever
their slot. -/
def reaches (i : ℕ) : Bool :=
  ∀ s ∈ column, q.after q.startIndex s →
    (∀ t ∈ column, q.after (i + 1) t → ¬ t.Before s) → q.timedOut s

/-! ## The loop -/

/-- Index `i` is not among the entries, and all of them up to the first one behind it have timed
out. -/
def finds (entries : List DataShred) (i : ℕ) : Bool :=
  ∀ s ∈ entries, (s.slot = q.slot → s.index ≠ i) ∧
    ((∀ t ∈ entries, q.after (i + 1) t → ¬ t.Before s) → q.timedOut s)

variable {q column} {shred : DataShred} {rest : List DataShred} {prev : ℕ}

theorem after_iff {i : ℕ} {s : DataShred} :
    q.after i s = true ↔ q.slot < s.slot ∨ q.slot = s.slot ∧ i ≤ s.index :=
  decide_eq_true_iff

theorem finds_iff {entries : List DataShred} {i : ℕ} : q.finds entries i = true ↔
    ∀ s ∈ entries, (s.slot = q.slot → s.index ≠ i) ∧
      ((∀ t ∈ entries, q.after (i + 1) t → ¬ t.Before s) → q.timedOut s) :=
  decide_eq_true_iff

/-- Nothing is found from an entry on that is still waited for. -/
theorem not_finds (hlater : ∀ s ∈ rest, shred.Before s) (hyoung : ¬ q.timedOut shred) (i : ℕ) :
    ¬ q.finds (shred :: rest) i = true := by
  intro h
  apply hyoung
  refine (finds_iff.mp h shred mem_cons_self).2 fun t ht _ hbefore => ?_
  unfold DataShred.Before at hlater hbefore
  rcases mem_cons.mp ht with rfl | ht
  · omega
  · have hle := hlater t ht
    omega

/-- The holes in front of the next entry are found if that has timed out. -/
theorem finds_of_lt {i : ℕ} (htimed : q.timedOut shred) (hlater : ∀ s ∈ rest, shred.Before s)
    (hbehind : q.after (i + 1) shred) : q.finds (shred :: rest) i = true := by
  rw [finds_iff, forall_mem_cons]
  rw [after_iff] at hbehind
  refine ⟨⟨fun _ => by omega, fun _ => htimed⟩, fun s hs => ⟨fun _ => ?_, fun hnext => ?_⟩⟩
  · have hle := hlater s hs
    unfold DataShred.Before at hle
    omega
  · exact absurd (hlater s hs) (hnext shred mem_cons_self (after_iff.mpr hbehind))

/-- Behind a shred of the slot that has timed out, the rest decides. -/
theorem finds_cons {i : ℕ} (htimed : q.timedOut shred) (hslot : shred.slot = q.slot)
    (hlt : shred.index < i) : q.finds (shred :: rest) i = q.finds rest i := by
  have hnot : ¬ q.after (i + 1) shred = true := by
    rw [after_iff]
    omega
  rw [Bool.eq_iff_iff, finds_iff, finds_iff]
  simp [htimed, hnot, Nat.ne_of_lt hlt]

/-- The holes around the next shred of the slot, if that has timed out. -/
theorem filter_finds_cons (htimed : q.timedOut shred) (hslot : shred.slot = q.slot)
    (hprev : prev ≤ shred.index) (hlater : ∀ s ∈ rest, shred.Before s) :
    (range' prev (q.endIndex - prev)).filter (q.finds (shred :: rest)) =
      range' prev (min shred.index q.endIndex - prev) ++
        (range' (shred.index + 1) (q.endIndex - (shred.index + 1))).filter (q.finds rest) := by
  have hbelow : ∀ i ∈ range' prev (min shred.index q.endIndex - prev),
      q.finds (shred :: rest) i = true := by
    intro i hi
    rw [mem_range'_1] at hi
    apply finds_of_lt htimed hlater
    rw [after_iff]
    omega
  by_cases hlt : shred.index < q.endIndex
  · have hat : ¬ q.finds (shred :: rest) shred.index = true := by
      rw [finds_iff]
      exact fun h => (h shred mem_cons_self).1 hslot rfl
    have habove : ∀ i ∈ range' (shred.index + 1) (q.endIndex - (shred.index + 1)),
        q.finds (shred :: rest) i = q.finds rest i := by
      intro i hi
      rw [mem_range'_1] at hi
      exact finds_cons htimed hslot (by omega)
    rw [Nat.min_eq_left (by omega)] at hbelow ⊢
    rw [show q.endIndex - prev = shred.index - prev + (q.endIndex - (shred.index + 1) + 1) by omega,
      ← range'_append_1, filter_append, filter_eq_self.mpr hbelow, Nat.add_sub_cancel' hprev,
      range'_succ, filter_cons_of_neg hat, filter_congr habove]
  · rw [Nat.min_eq_right (by omega)] at hbelow ⊢
    rw [filter_eq_self.mpr hbelow, Nat.sub_eq_zero_of_le (m := shred.index + 1) (by omega)]
    simp

/-- What the loop adds to the indexes it has: those that it finds among the entries left. -/
theorem missingLoop_eq (hsorted : rest.Pairwise DataShred.Before)
    (hcursor : ∀ s ∈ rest, q.slot < s.slot ∨ q.slot = s.slot ∧ prev ≤ s.index)
    (found : List ℕ) :
    q.missingLoop rest prev found = found ++
      ((range' prev (q.endIndex - prev)).filter (q.finds rest)).take
        (q.maxMissing - found.length) := by
  induction rest generalizing prev found with
  | nil => rw [missingLoop, filter_eq_self.mpr (by simp [finds])]
  | cons shred rest ih =>
    rw [pairwise_cons] at hsorted
    rw [forall_mem_cons] at hcursor
    rw [missingLoop]
    by_cases hyoung : ¬ q.timedOut shred = true
    · rw [filter_eq_nil_iff.mpr fun i _ => not_finds hsorted.1 hyoung i]
      simp [hyoung]
    have htimed := Classical.not_not.mp hyoung
    by_cases hslot : q.slot < shred.slot
    · -- the cursor has left the slot
      rw [filter_eq_self.mpr fun i _ => finds_of_lt htimed hsorted.1 (after_iff.mpr (.inl hslot))]
      simp [hslot, htimed]
    rw [filter_finds_cons htimed (by omega) (by omega) hsorted.1, take_append, length_range',
      ← append_assoc]
    simp only [if_neg hslot, htimed, not_true_eq_false, if_false]
    generalize hfound : found ++ (range' prev _).take _ = found'
    have hlen : found'.length = found.length +
        min (q.maxMissing - found.length) (min shred.index q.endIndex - prev) := by
      simp [← hfound]
    split_ifs with hstop
    · rcases hstop with hfull | hleft | hlast
      · rw [show q.maxMissing - found.length - (min shred.index q.endIndex - prev) = 0 by omega]
        simp
      · exact absurd hleft hslot
      · rw [Nat.sub_eq_zero_of_le (show q.endIndex ≤ shred.index + 1 by omega)]
        simp
    · have hcursor' : ∀ s ∈ rest,
          q.slot < s.slot ∨ q.slot = s.slot ∧ shred.index + 1 ≤ s.index := by
        intro s hs
        have hle := hsorted.1 s hs
        unfold DataShred.Before at hle
        omega
      rw [ih hsorted.2 hcursor', hlen]
      congr 2
      omega

/-! ## The search -/

/-- The search finds the holes it gets to. -/
theorem findMissingDataIndexes_eq (hsorted : column.Pairwise DataShred.Before) :
    q.findMissingDataIndexes column =
      ((q.holes column).filter (q.reaches column)).take q.maxMissing := by
  unfold findMissingDataIndexes holes
  split_ifs with hempty
  · rcases hempty with hrange | hmax
    · simp [Nat.sub_eq_zero_of_le hrange]
    · simp [hmax]
  rw [missingLoop_eq (hsorted.filter _) fun s hs => after_iff.mp (mem_filter.mp hs).2,
    filter_filter, nil_append, length_nil, Nat.sub_zero]
  congr 1
  refine filter_congr fun i hi => ?_
  rw [mem_range'_1] at hi
  rw [Bool.eq_iff_iff, finds_iff, Bool.and_eq_true, reaches, decide_eq_true_iff, decide_eq_true_iff]
  have hmem : ∀ {P : DataShred → Prop}, (∀ t ∈ column.filter (q.after q.startIndex), P t) ↔
      ∀ t ∈ column, q.after q.startIndex t → P t := by
    simp [mem_filter]
  have hfrom : ∀ {t}, q.after (i + 1) t = true → q.after q.startIndex t = true := by
    simp only [after_iff]
    omega
  simp only [hmem]
  constructor
  · refine fun h => ⟨fun s hs hstart hnext => ?_, fun s hs hslot => ?_⟩
    · exact (h s hs hstart).2 fun t ht _ hbehind => hnext t ht hbehind
    · by_cases hlt : s.index < q.startIndex
      · omega
      · exact (h s hs (after_iff.mpr (by omega))).1 hslot
  · refine fun h s hs hstart => ⟨h.2 s hs, fun hnext => ?_⟩
    exact h.1 s hs hstart fun t ht hbehind => hnext t ht (hfrom hbehind) hbehind

/-- The search gets to the holes in their order. -/
theorem reaches_of_le {i j : ℕ} (hle : i ≤ j) (h : q.reaches column j = true) :
    q.reaches column i = true := by
  rw [reaches, decide_eq_true_iff] at h ⊢
  refine fun s hs hstart hnext => h s hs hstart fun t ht hbehind => hnext t ht ?_
  rw [after_iff] at hbehind ⊢
  omega

/-- It does not get to a hole that is waited for. -/
theorem not_waits_of_reaches {i : ℕ} (hstart : q.startIndex ≤ i)
    (h : q.reaches column i = true) : q.waits column i = false := by
  rw [reaches, decide_eq_true_iff] at h
  rw [waits, decide_eq_false_iff_not]
  rintro ⟨s, hs, hslot, hlt, hnext, hyoung⟩
  apply hyoung
  refine h s hs (after_iff.mpr (by omega)) fun t ht hbehind hbefore => ?_
  rw [after_iff] at hbehind
  unfold DataShred.Before at hbefore
  have hle := hnext t ht
  omega

/-- The first elements with a property are all of them, if none comes after one without it. -/
theorem filter_eq_takeWhile {α : Type} {P : α → Bool} {l : List α}
    (h : l.Pairwise fun a b => P b → P a) : l.filter P = l.takeWhile P := by
  induction l with
  | nil => rfl
  | cons a l ih =>
    obtain ⟨ha, hl⟩ := pairwise_cons.mp h
    by_cases hpa : P a
    · rw [filter_cons_of_pos hpa, takeWhile_cons_of_pos hpa, ih hl]
    · rw [takeWhile_cons_of_neg hpa, filter_eq_nil_iff, forall_mem_cons]
      exact ⟨hpa, fun b hb hpb => hpa (ha b hb hpb)⟩

/-- The search gives what is asked for, whatever is stored for other slots, exactly if it gets to
every hole that is asked for. -/
theorem findMissingDataIndexes_exact_iff (q : Search) {column : List DataShred}
    (hsorted : column.Pairwise DataShred.Before) :
    q.findMissingDataIndexes column = q.missing column ↔
      ∀ i ∈ q.missing column, q.reaches column i := by
  have hreach : ∀ i ∈ q.holes column,
      q.reaches column i = decide (q.reaches column i = true ∧ (!q.waits column i) = true) := by
    intro i hi
    have hrange := mem_range'_1.mp (mem_filter.mp hi).1
    cases h : q.reaches column i with
    | false => simp
    | true => simp [not_waits_of_reaches hrange.1 h]
  have hholes : (q.holes column).Pairwise fun i j => q.reaches column j → q.reaches column i :=
    ((pairwise_lt_range' 1 (by decide)).imp fun hlt => reaches_of_le (Nat.le_of_lt hlt)).filter _
  rw [findMissingDataIndexes_eq hsorted, filter_congr hreach, filter_eq_takeWhile,
    ← takeWhile_takeWhile, take_takeWhile, ← missing, takeWhile_eq_self_iff]
  exact hholes.imp_of_mem fun hi hj h => by rwa [← hreach _ hi, ← hreach _ hj] at *

/-- A shred of the slot is waited for, and so is one of a later slot, which does not matter. -/
theorem findMissingDataIndexes_exact_two :
    (⟨1, 0, 0, 0, 6, 3, 100⟩ : Search).findMissingDataIndexes
      [⟨1, 1, 0⟩, ⟨1, 3, 60⟩, ⟨2, 0, 60⟩] = [0] := by
  rw [(findMissingDataIndexes_exact_iff _ (by simp [DataShred.Before])).mpr (by decide)]
  decide

end Search

/-- A shred of slot 2 that is waited for hides the holes of slot 1, and so does one of slot 1 that
follows no hole. -/
theorem later_slot_hides_holes :
    let q : Search := ⟨1, 0, 0, 0, 3, 3, 100⟩
    q.findMissingDataIndexes [⟨1, 0, 0⟩] = [1, 2] ∧
    (q.findMissingDataIndexes [⟨1, 0, 0⟩, ⟨2, 0, 60⟩] = [] ∧
      q.missing [⟨1, 0, 0⟩, ⟨2, 0, 60⟩] = [1, 2]) ∧
    (q.findMissingDataIndexes [⟨1, 0, 60⟩, ⟨1, 2, 0⟩] = [] ∧
      q.missing [⟨1, 0, 60⟩, ⟨1, 2, 0⟩] = [1]) := by
  decide

end Salsa.Repair
