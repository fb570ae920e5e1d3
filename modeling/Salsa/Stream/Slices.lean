import Salsa.Stream.Verify

/-!
# Salsa.Stream.Slices — the tick checks of a block that arrives in slices

Replay verifies a block in whatever slices it has received, and carries the hashes since the last
tick from one slice to the next.
-/

namespace Salsa.Stream

open List Option

inductive BlockError where
  | tooManyTicks
  | tooFewTicks
  | trailingEntry
  | invalidLastTick
  | invalidTickHashCount
deriving DecidableEq, Repr

/-- What `verify_ticks` reads of a bank. -/
structure TickBank where
  tickHeight : ℕ
  maxTickHeight : ℕ
  hashesPerTick : Option ℕ
  hashesPerTick_le : ∀ n ∈ hashesPerTick, n ≤ u64Max

def tickCount (entries : List Entry) : ℕ := entries.countP Entry.isTick

/-- The last entry is a tick, or there is none. -/
def endsInTick (entries : List Entry) : Bool := (entries.getLast?.map Entry.isTick).getD true

/-- `verify_ticks` before Alpenglow, with the count it leaves. -/
def verifyTicks (bank : TickBank) (entries : List Entry) (slotFull : Bool) (tickHashCount : ℕ) :
    Except BlockError ℕ :=
  let nextBankTickHeight := bank.tickHeight + tickCount entries
  if bank.maxTickHeight < nextBankTickHeight then .error .tooManyTicks
  else if nextBankTickHeight < bank.maxTickHeight ∧ slotFull then .error .tooFewTicks
  else if nextBankTickHeight = bank.maxTickHeight ∧ !endsInTick entries then .error .trailingEntry
  else if nextBankTickHeight = bank.maxTickHeight ∧ !slotFull then .error .invalidLastTick
  else
    match verifyTickHashCount entries tickHashCount (bank.hashesPerTick.getD 0) with
    | (false, _) => .error .invalidTickHashCount
    | (true, tickHashCount) => .ok tickHashCount

/-- The slices of a block as `confirm_slot_entries` verifies them, the last one as the full slot. -/
def acceptsSlices (bank : TickBank) : List (List Entry) → ℕ → Bool
  | [], _ => true
  | slice :: slices, tickHashCount =>
      match verifyTicks bank slice slices.isEmpty tickHashCount with
      | .error _ => false
      | .ok tickHashCount =>
          acceptsSlices { bank with tickHeight := bank.tickHeight + tickCount slice } slices
            tickHashCount

variable (n : ℕ)

/-- Every tick completes its hashes, and at every cut there are hashes left for the tick. -/
def Passes : List (List Entry) → ℕ → Prop
  | [], _ => True
  | slice :: slices, count => ∃ c, slice.foldlM (openTick n) count = some c ∧
      (slices ≠ [] → c < n) ∧ Passes slices c

/-- At every tick there are hashes left to complete. -/
def TicksDue : List Entry → ℕ → Prop
  | [], _ => True
  | entry :: entries, count =>
      (entry.isTick → count < n) ∧ ∀ c ∈ openTick n count entry, TicksDue entries c

variable {n} {count c : ℕ} {entries : List Entry}

theorem endsInTick_append (a : List Entry) {b : List Entry} (hb : b ≠ []) :
    endsInTick (a ++ b) = endsInTick b := by
  rw [endsInTick, endsInTick, getLast?_append, getLast?_eq_some_getLast hb, some_or]

/-- A block that ends in a tick is some entries and the tick. -/
theorem exists_append_tick (hlast : endsInTick entries) (hne : entries ≠ []) :
    ∃ l e, entries = l ++ [e] ∧ e.isTick := by
  obtain ⟨l, e, rfl⟩ := (eq_nil_or_concat entries).resolve_left hne
  refine ⟨l, e, concat_eq_append, ?_⟩
  rwa [concat_eq_append, endsInTick_append l (cons_ne_nil e [])] at hlast

/-- After a tick the count starts again. -/
theorem eq_zero_of_endsInTick (h : entries.foldlM (openTick n) count = some c)
    (hlast : endsInTick entries) (hne : entries ≠ []) : c = 0 := by
  obtain ⟨l, e, rfl, he⟩ := exists_append_tick hlast hne
  rw [foldlM_append] at h
  obtain ⟨d, -, hd⟩ := bind_eq_some_iff.mp h
  simp only [foldlM_cons, foldlM_nil, openTick, he, if_true] at hd
  split_ifs at hd
  · exact (some.inj hd).symm
  · cases hd

theorem tickCount_pos (hlast : endsInTick entries) (hne : entries ≠ []) :
    0 < tickCount entries := by
  obtain ⟨l, e, rfl, he⟩ := exists_append_tick hlast hne
  exact countP_pos_iff.mpr ⟨e, by simp, he⟩

/-- What is due at the end of a block was due in it. -/
theorem TicksDue.of_append {a b : List Entry} (h : TicksDue n (a ++ b) count)
    (ha : a.foldlM (openTick n) count = some c) : TicksDue n b c := by
  induction a generalizing count with
  | nil =>
    cases ha
    exact h
  | cons e es ih =>
    obtain ⟨d, hd, hes⟩ := bind_eq_some_iff.mp ha
    exact ih (h.2 d hd) hes

/-- Up to the next tick the count only grows: it is below wherever that tick is due. -/
theorem TicksDue.lt (hdue : TicksDue n entries count) (hle : n ≤ u64Max)
    (hlast : endsInTick entries) (hne : entries ≠ []) : count < n := by
  induction entries generalizing count with
  | nil => exact absurd rfl hne
  | cons e es ih =>
    by_cases he : e.isTick
    · exact hdue.1 he
    · have hes : es ≠ [] := by
        rintro rfl
        exact he hlast
      rw [← singleton_append, endsInTick_append [e] hes] at hlast
      have hlt := ih (hdue.2 _ (if_neg he)) hlast hes
      omega

/-! ## What the verdict depends on -/

variable {bank : TickBank} {slices : List (List Entry)}

theorem verifyTicks_eq_ok {slotFull : Bool} (hn : bank.hashesPerTick = some n)
    (hpos : 0 < n) : verifyTicks bank entries slotFull count = .ok c ↔
      (if slotFull then
        bank.tickHeight + tickCount entries = bank.maxTickHeight ∧ endsInTick entries
      else bank.tickHeight + tickCount entries < bank.maxTickHeight) ∧
      entries.foldlM (openTick n) count = some c ∧ c < n := by
  rw [← tickHashCountLoop_eq_true, verifyTicks, hn, verifyTickHashCount, getD_some,
    if_neg (Nat.ne_of_gt hpos)]
  generalize bank.tickHeight + tickCount entries = height
  have hloop : (match tickHashCountLoop n entries count with
      | (false, _) => Except.error BlockError.invalidTickHashCount
      | (true, tickHashCount) => .ok tickHashCount) = .ok c ↔
      tickHashCountLoop n entries count = (true, c) := by
    rcases tickHashCountLoop n entries count with ⟨_ | _, d⟩ <;> simp
  rcases lt_trichotomy height bank.maxTickHeight with h | h | h
  · cases slotFull <;> simp [h, h.ne, h.not_gt, hloop]
  · cases slotFull <;> cases endsInTick entries <;> simp [h, hloop]
  · cases slotFull <;> simp [h, h.ne', h.le]

theorem flatten_ne_nil (hne : slices ≠ []) (hnil : [] ∉ slices) : slices.flatten ≠ [] := by
  obtain ⟨t, ts, rfl⟩ := exists_cons_of_ne_nil hne
  exact fun h => hnil ((append_eq_nil_iff.mp h).1 ▸ mem_cons_self)

/-- A block in slices is accepted if its ticks are right and every cut is open. -/
theorem acceptsSlices_iff (hn : bank.hashesPerTick = some n) (hpos : 0 < n) (hne : slices ≠ [])
    (hnil : [] ∉ slices) : acceptsSlices bank slices count ↔
      bank.tickHeight + tickCount slices.flatten = bank.maxTickHeight ∧
        endsInTick slices.flatten ∧ Passes n slices count := by
  induction slices generalizing bank count with
  | nil => exact absurd rfl hne
  | cons s rest ih =>
    have hrest : [] ∉ rest := fun h => hnil (mem_cons_of_mem s h)
    have hstep : acceptsSlices bank (s :: rest) count ↔ ∃ c,
        verifyTicks bank s rest.isEmpty count = .ok c ∧
          acceptsSlices { bank with tickHeight := bank.tickHeight + tickCount s } rest c := by
      rw [acceptsSlices]
      cases verifyTicks bank s rest.isEmpty count <;> simp
    simp only [hstep, verifyTicks_eq_ok hn hpos, flatten_cons, Passes]
    by_cases hlast : rest = []
    · subst hlast
      have hs : s ≠ [] := fun h => hnil (h ▸ mem_cons_self)
      simp only [isEmpty_nil, if_true, acceptsSlices, flatten_nil, append_nil]
      constructor
      · rintro ⟨c, ⟨⟨hticks, hend⟩, hrun, -⟩, -⟩
        exact ⟨hticks, hend, c, hrun, fun h => absurd rfl h, trivial⟩
      · rintro ⟨hticks, hend, c, hrun, -⟩
        exact ⟨c, ⟨⟨hticks, hend⟩, hrun, eq_zero_of_endsInTick hrun hend hs ▸ hpos⟩, trivial⟩
    · have hflat := flatten_ne_nil hlast hrest
      have hcount : tickCount (s ++ rest.flatten) = tickCount s + tickCount rest.flatten :=
        countP_append
      have hnext := fun c =>
        @ih c { bank with tickHeight := bank.tickHeight + tickCount s } hn hlast hrest
      simp only [hnext, endsInTick_append s hflat, hcount, Nat.add_assoc,
        isEmpty_eq_false_iff.mpr hlast, Bool.false_eq_true, if_false]
      constructor
      · rintro ⟨c, ⟨-, hrun, hopen⟩, hticks, hend, hpass⟩
        exact ⟨hticks, hend, c, hrun, fun _ => hopen, hpass⟩
      · rintro ⟨hticks, hend, c, hrun, hopen, hpass⟩
        have := tickCount_pos hend hflat
        exact ⟨c, ⟨by omega, hrun, hopen hlast⟩, hticks, hend, hpass⟩

/-- A block that passes in slices passes as a whole. -/
theorem Passes.whole (h : Passes n slices count) : Passes n [slices.flatten] count := by
  induction slices generalizing count with
  | nil => exact ⟨count, rfl, fun h => absurd rfl h, trivial⟩
  | cons s rest ih =>
    obtain ⟨c, hrun, -, hrest⟩ := h
    obtain ⟨d, hd, -⟩ := ih hrest
    refine ⟨d, ?_, fun h => absurd rfl h, trivial⟩
    rw [flatten_cons, foldlM_append, hrun]
    exact hd

/-- Where all ticks are due every cut is open. -/
theorem Passes.cut (h : Passes n [slices.flatten] count) (hle : n ≤ u64Max) (hnil : [] ∉ slices)
    (hdue : TicksDue n slices.flatten count) (hend : endsInTick slices.flatten) :
    Passes n slices count := by
  induction slices generalizing count with
  | nil => trivial
  | cons s rest ih =>
    obtain ⟨d, hd, -⟩ := h
    rw [flatten_cons, foldlM_append] at hd
    obtain ⟨c, hrun, hd⟩ := bind_eq_some_iff.mp hd
    have hrest : [] ∉ rest := fun h => hnil (mem_cons_of_mem s h)
    have hdue' := hdue.of_append hrun
    by_cases hlast : rest = []
    · subst hlast
      exact ⟨c, hrun, fun h => absurd rfl h, trivial⟩
    · have hflat := flatten_ne_nil hlast hrest
      rw [flatten_cons, endsInTick_append s hflat] at hend
      exact ⟨c, hrun, fun _ => hdue'.lt hle hend hflat,
        ih ⟨d, hd, fun h => absurd rfl h, trivial⟩ hrest hdue' hend⟩

/-- Cut at every entry. -/
theorem Passes.ticksDue (h : Passes n (entries.map ([·])) count) (hlt : count < n) :
    TicksDue n entries count := by
  induction entries generalizing count with
  | nil => trivial
  | cons e es ih =>
    obtain ⟨d, hrun, hopen, hrest⟩ := h
    refine ⟨fun _ => hlt, fun c hc => ?_⟩
    rw [foldlM_cons, hc] at hrun
    cases hrun
    cases es with
    | nil => trivial
    | cons e' es => exact ih hrest (hopen (cons_ne_nil _ _))

/-- All ways of cutting a block into slices get one verdict. -/
def SlicesAgree (bank : TickBank) (entries : List Entry) : Prop :=
  ∀ a b : List (List Entry), a.flatten = entries → b.flatten = entries → [] ∉ a → [] ∉ b →
    (acceptsSlices bank a 0 ↔ acceptsSlices bank b 0)

/-- All ways of cutting a block agree just if it is rejected as a whole or all its ticks are due. -/
theorem slices_agree_iff (hn : bank.hashesPerTick = some n) (hpos : 0 < n) :
    SlicesAgree bank entries ↔ (acceptsSlices bank [entries] 0 → TicksDue n entries 0) := by
  by_cases hne : entries = []
  · subst hne
    have hempty : ∀ a : List (List Entry), a.flatten = [] → [] ∉ a → a = [] :=
      fun a ha hnil => not_not.mp fun h => flatten_ne_nil h hnil ha
    refine iff_of_true (fun a b ha hb hna hnb => ?_) fun _ => trivial
    rw [hempty a ha hna, hempty b hb hnb]
  have hiff : ∀ a : List (List Entry), a.flatten = entries → [] ∉ a →
      (acceptsSlices bank a 0 ↔ bank.tickHeight + tickCount entries = bank.maxTickHeight ∧
        endsInTick entries ∧ Passes n a 0) := by
    rintro a rfl hnil
    exact acceptsSlices_iff hn hpos (fun h => hne (h ▸ rfl)) hnil
  have hwhole := hiff [entries] (by simp) (by simpa using Ne.symm hne)
  constructor
  · intro h haccepted
    have hcut : (entries.map ([·])).flatten = entries := by
      rw [← flatMap_def, flatMap_singleton']
    have heach := (h [entries] (entries.map ([·])) (by simp) hcut
      (by simpa using Ne.symm hne) (by simp)).mp haccepted
    exact ((hiff _ hcut (by simp)).mp heach).2.2.ticksDue hpos
  · intro h a b ha hb hna hnb
    have hsame : ∀ a : List (List Entry), a.flatten = entries → [] ∉ a →
        (acceptsSlices bank a 0 ↔ acceptsSlices bank [entries] 0) := by
      rintro a rfl hnil
      rw [hiff a rfl hnil, hwhole]
      refine and_congr_right fun hticks => and_congr_right fun hend => ⟨Passes.whole, fun hp => ?_⟩
      exact hp.cut (bank.hashesPerTick_le n hn) hnil (h (hwhole.mpr ⟨hticks, hend, hp⟩)) hend
    rw [hsame a ha hna, hsame b hb hnb]

def oneTick : TickBank := ⟨0, 1, some 2, by simp [u64Max]⟩

theorem slices_agree_iff_one : SlicesAgree oneTick [⟨1, 0, [[]]⟩, ⟨1, 0, []⟩] ∧
    acceptsSlices oneTick [[⟨1, 0, [[]]⟩, ⟨1, 0, []⟩]] 0 := by
  refine ⟨(slices_agree_iff rfl (by decide)).mpr fun _ => ?_, by decide⟩
  simp [TicksDue, openTick, Entry.isTick]

/-- All the hashes of a tick in an entry of transactions, then a tick without hashes: accepted at
once, and rejected if the two arrive one after the other. -/
theorem not_slices_agree : ¬ ∀ (bank : TickBank) (n : ℕ) (entries : List Entry),
    bank.hashesPerTick = some n → 0 < n → SlicesAgree bank entries := by
  intro h
  have hcut := h oneTick 2 [⟨2, 0, [[]]⟩, ⟨0, 0, []⟩] rfl (by decide)
    [[⟨2, 0, [[]]⟩, ⟨0, 0, []⟩]] [[⟨2, 0, [[]]⟩], [⟨0, 0, []⟩]] rfl rfl (by decide) (by decide)
  revert hcut
  decide

end Salsa.Stream
