import Salsa.Stream.Poh

/-!
# Salsa.Stream.Verify — what the generator emits can be verified

The producer counts down the hashes until the next tick; the verifier of
`entry/src/entry.rs` replays every entry from the hash of the one before and adds
up the hashes between two ticks. Any calls of the generator give a stream that
passes both checks.

An empty batch of mixins forgets the hashes counted so far, and in low power mode
every call of `tick` emits: `poh_stream_fails`.
-/

namespace Salsa.Stream

open List Function Option Salsa.Stream.Poh

/-! ## The verifier -/

def Entry.isTick (self : Entry) : Bool := self.transactions.isEmpty

section Verifier

variable (H : Hasher) (hashTransactions : List Transaction → Hash)

def Poh.new (hash : Hash) (hashesPerTick : Option ℕ) : Option Poh :=
  newWithSlotInfo hash hashesPerTick 0

/-- `next_hash`; none where an `unwrap` fails. -/
def nextHash (startHash : Hash) (numHashes : ℕ) (transactions : List Transaction) : Option Hash :=
  if numHashes = 0 ∧ transactions.isEmpty then some startHash
  else do
    let poh ← Poh.new startHash none
    let poh := (poh.hashN H (numHashes - 1)).2
    let entry ←
      if transactions.isEmpty then (poh.tick H).1
      else (poh.record H (hashTransactions transactions)).1
    return entry.hash

def Entry.verify (self : Entry) (startHash : Hash) : Option Bool :=
  (nextHash H hashTransactions startHash self.numHashes self.transactions).map (self.hash = ·)

/-- Verify the entries one after the other, each from the hash of the one before. -/
def verifyEntries (startHash : Hash) : List Entry → Option Bool
  | [] => some true
  | entry :: entries => do
      if ← entry.verify H hashTransactions startHash then verifyEntries entry.hash entries
      else return false

def tickHashCountLoop (hashesPerTick : ℕ) : List Entry → ℕ → Bool × ℕ
  | [], tickHashCount => (tickHashCount < hashesPerTick, tickHashCount)
  | entry :: entries, tickHashCount =>
      let tickHashCount := min (tickHashCount + entry.numHashes) u64Max
      if entry.isTick then
        if tickHashCount ≠ hashesPerTick then (false, tickHashCount)
        else tickHashCountLoop hashesPerTick entries 0
      else tickHashCountLoop hashesPerTick entries tickHashCount

/-- `verify_tick_hash_count`, with the count it leaves. -/
def verifyTickHashCount (entries : List Entry) (tickHashCount hashesPerTick : ℕ) : Bool × ℕ :=
  -- hashing is disabled
  if hashesPerTick = 0 then (true, tickHashCount)
  else tickHashCountLoop hashesPerTick entries tickHashCount

end Verifier

/-! ## The producer -/

/-- The transactions of one entry; a tick has none. -/
structure Batch where
  transactions : List Transaction
  nonempty : transactions ≠ []

inductive PohOp where
  | hash (maxNumHashes : ℕ)
  | record (batch : Batch)
  | recordBatches (batches : List Batch)
  | tick

namespace Poh

variable (H : Hasher) (hashTransactions : List Transaction → Hash)

def withTransactions (entry : PohEntry) (transactions : List Transaction) : Entry :=
  ⟨entry.numHashes, entry.hash, transactions⟩

def mixin (batch : Batch) : Hash := hashTransactions batch.transactions

/-- One call, with the entries it emits; a refused one emits none. -/
def perform (p : Poh) : PohOp → List Entry × Poh
  | .hash maxNumHashes => ([], (p.hashN H maxNumHashes).2)
  | .record batch =>
      let (entry, p) := p.record H (mixin hashTransactions batch)
      ((entry.map fun e => withTransactions e batch.transactions).toList, p)
  | .recordBatches batches =>
      let (entries, p) := p.recordBatches H (batches.map (mixin hashTransactions))
      (List.zipWith (fun e batch => withTransactions e batch.transactions)
        (entries.getD []) batches, p)
  | .tick =>
      let (entry, p) := p.tick H
      ((entry.map fun e => withTransactions e []).toList, p)

/-- A sequence of calls, with all the entries they emit. -/
def run (p : Poh) : List PohOp → List Entry × Poh
  | [] => ([], p)
  | op :: ops =>
      let (entries, p) := p.perform H hashTransactions op
      let (later, p) := p.run ops
      (entries ++ later, p)

def recordEach (p : Poh) : List Hash → List (Option PohEntry) × Poh
  | [] => ([], p)
  | m :: mixins =>
      let (entry, p) := p.record H m
      let (entries, p) := p.recordEach mixins
      (entry :: entries, p)

end Poh

/-! ## What the verifier computes -/

variable {entries : List Entry} {H : Hasher} {hashesPerTick : ℕ} {ops : List PohOp}

section Replay

variable {hashTransactions : List Transaction → Hash} {n : ℕ}

/-- The generator that `next_hash` starts, after its hashes. -/
theorem hashN_new_lowPower (H : Hasher) (startHash : Hash) (h : n < u64Max) :
    ∃ poh, new startHash none = some poh ∧ poh.hashesPerTick = lowPowerMode ∧
      (poh.hashN H n).2.hash = H.hash^[n] startHash ∧
      (poh.hashN H n).2.remainingHashesUntilTick = u64Max - n := by
  have hmin : min (u64Max - 1) n = n := by omega
  have hone : 1 < (none : Option ℕ).getD lowPowerMode := by decide
  refine ⟨_, (dif_pos hone : newWithSlotInfo startHash none 0 = _), rfl, ?_, ?_⟩
  · show H.hash^[min (u64Max - 1) n] startHash = _
    rw [hmin]
  · show u64Max - min (u64Max - 1) n = _
    rw [hmin]

theorem nextHash_tick (startHash : Hash) (hn : 0 < n) (hmax : n ≤ u64Max) :
    nextHash H hashTransactions startHash n [] = some (H.hash^[n] startHash) := by
  have hlt : n - 1 < u64Max := by omega
  obtain ⟨poh, hnew, hlow, hhash, -⟩ := hashN_new_lowPower H startHash hlt
  have hticks : ¬ ((poh.hashN H (n - 1)).2.hashesPerTick ≠ lowPowerMode ∧
      (poh.hashN H (n - 1)).2.remainingHashesUntilTick - 1 ≠ 0) := fun h => h.1 hlow
  rw [nextHash, if_neg (by omega), hnew]
  simp only [bind_eq_bind, bind_some, isEmpty_nil, if_true, tick, dif_neg hticks, hhash]
  rw [← iterate_succ_apply' H.hash, Nat.succ_eq_add_one, Nat.sub_add_cancel hn]
  rfl

theorem nextHash_record (startHash : Hash) {transactions : List Transaction}
    (hmax : n < u64Max) (htxs : transactions ≠ []) :
    nextHash H hashTransactions startHash n transactions =
      some (H.hashv (H.hash^[n - 1] startHash) (hashTransactions transactions)) := by
  have hlt : n - 1 < u64Max - 1 := by
    have : 1 < u64Max := by decide
    omega
  rcases hashN_new_lowPower H startHash (hlt.trans_le (Nat.sub_le _ _)) with
    ⟨poh, hnew, -, hhash, hremaining⟩
  have hroom : (poh.hashN H (n - 1)).2.remainingHashesUntilTick ≠ 1 := by omega
  have hempty : transactions.isEmpty = false := isEmpty_eq_false_iff.mpr htxs
  rw [nextHash, if_neg (by simp [hempty]), hnew]
  simp only [bind_eq_bind, bind_some, hempty, Bool.false_eq_true, if_false,
    record, dif_neg hroom, hhash]
  rfl

def lastHash (startHash : Hash) (entries : List Entry) : Hash :=
  entries.foldl (fun _ entry => entry.hash) startHash

variable {entry : Entry}

theorem verifyEntries_concat {startHash : Hash}
    (hentries : verifyEntries H hashTransactions startHash entries = some true)
    (hentry : entry.verify H hashTransactions (lastHash startHash entries) = some true) :
    verifyEntries H hashTransactions startHash (entries ++ [entry]) = some true := by
  induction entries generalizing startHash with
  | nil =>
    show (entry.verify H hashTransactions startHash).bind _ = _
    rw [show entry.verify H hashTransactions startHash = some true from hentry]
    rfl
  | cons e entries ih =>
    obtain ⟨ok, hok, hrest⟩ := bind_eq_some_iff.mp hentries
    cases ok with
    | false => cases hrest
    | true =>
      show (e.verify H hashTransactions startHash).bind _ = _
      rw [hok]
      exact ih hrest hentry

/-- The hashes since the last tick, one entry further; none at a tick that comes at
the wrong time. -/
def openTick (hashesPerTick : ℕ) (tickHashCount : ℕ) (entry : Entry) : Option ℕ :=
  let tickHashCount := min (tickHashCount + entry.numHashes) u64Max
  if entry.isTick then if tickHashCount = hashesPerTick then some 0 else none
  else some tickHashCount

theorem tickHashCountLoop_eq_true {hashesPerTick c c' : ℕ} :
    tickHashCountLoop hashesPerTick entries c = (true, c') ↔
      entries.foldlM (openTick hashesPerTick) c = some c' ∧ c' < hashesPerTick := by
  induction entries generalizing c with
  | nil =>
    rw [tickHashCountLoop, foldlM_nil, Prod.mk.injEq, decide_eq_true_eq]
    grind
  | cons e entries ih =>
    rw [tickHashCountLoop, foldlM_cons, openTick]
    by_cases htick : e.isTick
    · by_cases hc : min (c + e.numHashes) u64Max = hashesPerTick
      · simp [htick, hc, ih]
      · simp [htick, hc]
    · simp [htick, ih]

end Replay

/-! ## One by one -/

namespace Poh

/-- A mixin that is not refused. -/
theorem record_of_room {p : Poh} (h : p.remainingHashesUntilTick ≠ 1) (m : Hash) :
    ∃ q, p.record H m = (some ⟨p.numHashes + 1, H.hashv p.hash m⟩, q) ∧
      q.hash = H.hashv p.hash m ∧ q.numHashes = 0 ∧ q.hashesPerTick = p.hashesPerTick ∧
      q.tickNumber = p.tickNumber ∧
      q.remainingHashesUntilTick = p.remainingHashesUntilTick - 1 := by
  rw [record, dif_neg h]
  exact ⟨_, rfl, rfl, rfl, rfl, rfl, rfl⟩

/-- A tick is emitted with the last hash, and always in low power mode. -/
theorem tick_cases (p : Poh) :
    (p.hashesPerTick ≠ lowPowerMode ∧ p.remainingHashesUntilTick ≠ 1 ∧
      ∃ q, p.tick H = (none, q) ∧ q.hash = H.hash p.hash ∧ q.numHashes = p.numHashes + 1 ∧
        q.hashesPerTick = p.hashesPerTick ∧
        q.remainingHashesUntilTick = p.remainingHashesUntilTick - 1) ∨
    ((p.hashesPerTick = lowPowerMode ∨ p.remainingHashesUntilTick = 1) ∧
      ∃ q, p.tick H = (some ⟨p.numHashes + 1, H.hash p.hash⟩, q) ∧ q.hash = H.hash p.hash ∧
        q.numHashes = 0 ∧ q.hashesPerTick = p.hashesPerTick ∧
        q.remainingHashesUntilTick = p.hashesPerTick) := by
  have hpos := p.remaining_pos
  by_cases h : p.hashesPerTick ≠ lowPowerMode ∧ p.remainingHashesUntilTick - 1 ≠ 0
  · left
    rw [tick, dif_pos h]
    refine ⟨h.1, ?_, _, rfl, rfl, rfl, rfl, rfl⟩
    intro hone
    apply h.2
    rw [hone]
  · right
    rw [tick, dif_neg h]
    refine ⟨?_, _, rfl, rfl, rfl, rfl, rfl⟩
    by_cases hlow : p.hashesPerTick = lowPowerMode
    · exact Or.inl hlow
    · right
      by_contra hone
      apply h
      exact ⟨hlow, by omega⟩

variable {mixins : List Hash}

/-- After a mixin the generator counts anew, so that all further ones have one hash. -/
theorem recordEach_of_fits {p : Poh} (h : mixins.length + 1 ≤ p.remainingHashesUntilTick) :
    ∃ q, p.recordEach H mixins = ((mixinEntries H (p.numHashes + 1) p.hash mixins).map some, q) ∧
      q.hash = mixins.foldl H.hashv p.hash ∧
      q.numHashes = (if mixins = [] then p.numHashes else 0) ∧
      q.hashesPerTick = p.hashesPerTick ∧ q.tickNumber = p.tickNumber ∧
      q.remainingHashesUntilTick = p.remainingHashesUntilTick - mixins.length := by
  induction mixins generalizing p with
  | nil => exact ⟨p, rfl, rfl, rfl, rfl, rfl, rfl⟩
  | cons m mixins ih =>
    rw [length_cons] at h
    have hroom : p.remainingHashesUntilTick ≠ 1 := by omega
    obtain ⟨r, hr, hrhash, hrnum, hrtick, hrnumber, hrem⟩ := record_of_room (H := H) hroom m
    have hfits : mixins.length + 1 ≤ r.remainingHashesUntilTick := by omega
    obtain ⟨q, hq, hhash, hnum, htick, hnumber, hremaining⟩ := ih hfits
    rw [hrnum, hrhash] at hq
    refine ⟨q, ?_, ?_, ?_, htick.trans hrtick, hnumber.trans hrnumber, ?_⟩
    · rw [recordEach, hr]
      simp only [hq]
      rfl
    · rw [hhash, hrhash]
      rfl
    · rw [hnum, hrnum, if_neg (cons_ne_nil m mixins)]
      exact ite_self 0
    · rw [hremaining, hrem, length_cons]
      omega

/-- Accepted mixins are recorded as they would be one by one. -/
theorem recordBatches_eq_recordEach {p q : Poh} {entries : List PohEntry}
    (hne : mixins ≠ []) (h : p.recordBatches H mixins = (some entries, q)) :
    p.recordEach H mixins = (entries.map some, q) := by
  unfold recordBatches at h
  split_ifs at h with hfits
  · cases h
  · rcases recordEach_of_fits (Nat.le_of_not_lt hfits) with
      ⟨q', hq, hhash, hnum, htick, hnumber, hremaining⟩
    rw [if_neg hne] at hnum
    cases h
    rw [hq]
    congr 1
    cases q'
    simp only at hhash hnum htick hnumber hremaining
    simp only [hhash, hnum, htick, hnumber, hremaining]

end Poh

/-! ## The invariant -/

section Invariant

variable (H : Hasher) (hashTransactions : List Transaction → Hash)

/-- The generator after it has emitted `entries` from `seed`. -/
structure Emitted (seed : Hash) (entries : List Entry) (p : Poh) : Prop where
  verified : verifyEntries H hashTransactions seed entries = some true
  one_le : ∀ e ∈ entries, 1 ≤ e.numHashes
  hash_eq : p.hash = H.hash^[p.numHashes] (lastHash seed entries)
  counted : p.numHashes + p.remainingHashesUntilTick ≤ p.hashesPerTick
  le_max : p.hashesPerTick ≤ u64Max
  -- in low power mode ticks come at any time
  ticks : p.hashesPerTick ≠ lowPowerMode →
    ∃ c, entries.foldlM (openTick p.hashesPerTick) 0 = some c ∧
      c + p.numHashes + p.remainingHashesUntilTick = p.hashesPerTick

variable {H hashTransactions} {seed : Hash} {p p' : Poh}

section

variable (h : Emitted H hashTransactions seed entries p)
include h

/-- One more entry, after which the generator starts to count anew. -/
theorem Emitted.emit {entry : Entry}
    (hverify : nextHash H hashTransactions (lastHash seed entries) entry.numHashes
      entry.transactions = some entry.hash) (hone : 1 ≤ entry.numHashes)
    (hhash : p'.hash = entry.hash) (hnum : p'.numHashes = 0)
    (hper : p'.hashesPerTick = p.hashesPerTick)
    (hticks : p.hashesPerTick ≠ lowPowerMode →
      ∀ c, c + p.numHashes + p.remainingHashesUntilTick = p.hashesPerTick →
        ∃ c', openTick p.hashesPerTick c entry = some c' ∧
          c' + p'.remainingHashesUntilTick = p.hashesPerTick) :
    Emitted H hashTransactions seed (entries ++ [entry]) p' where
  verified := by
    apply verifyEntries_concat h.verified
    rw [Entry.verify, hverify, map_some, decide_eq_true rfl]
  one_le := forall_mem_append.mpr ⟨h.one_le, forall_mem_singleton.mpr hone⟩
  hash_eq := by
    rw [lastHash, foldl_append, hnum, hhash]
    rfl
  counted := by
    rw [hnum, Nat.zero_add]
    exact p'.remaining_le
  le_max := by
    rw [hper]
    exact h.le_max
  ticks := by
    rw [hper, hnum]
    intro hlow
    obtain ⟨c, hfold, hc⟩ := h.ticks hlow
    obtain ⟨c', hopen, hc'⟩ := hticks hlow c hc
    refine ⟨c', ?_, hc'⟩
    rw [foldlM_append, hfold]
    show (openTick p.hashesPerTick c entry).bind pure = _
    rw [hopen]
    rfl

theorem Emitted.hashN (n : ℕ) : Emitted H hashTransactions seed entries (p.hashN H n).2 := by
  have hcounted := h.counted
  refine ⟨h.verified, h.one_le, ?_, ?_, h.le_max, ?_⟩
  · show H.hash^[min (p.remainingHashesUntilTick - 1) n] p.hash = _
    rw [h.hash_eq, ← iterate_add_apply, Nat.add_comm]
    rfl
  · show p.numHashes + min (p.remainingHashesUntilTick - 1) n +
      (p.remainingHashesUntilTick - min (p.remainingHashesUntilTick - 1) n) ≤ p.hashesPerTick
    omega
  · intro hlow
    obtain ⟨c, hfold, hc⟩ := h.ticks hlow
    refine ⟨c, hfold, ?_⟩
    show c + (p.numHashes + min (p.remainingHashesUntilTick - 1) n) +
      (p.remainingHashesUntilTick - min (p.remainingHashesUntilTick - 1) n) = p.hashesPerTick
    omega

/-- A recorded mixin. The last hash of a tick is left over for the tick, so the entry
stays below a whole one. -/
theorem Emitted.mixin {batch : Batch} {entry : PohEntry}
    (hrecord : p.record H (mixin hashTransactions batch) = (some entry, p')) :
    Emitted H hashTransactions seed
      (entries ++ [withTransactions entry batch.transactions]) p' := by
  have hpos := p.remaining_pos
  have hcounted := h.counted
  have hmax := h.le_max
  have hroom : p.remainingHashesUntilTick ≠ 1 := by
    intro hone
    rw [record, dif_pos hone] at hrecord
    cases hrecord
  rcases Poh.record_of_room hroom (Poh.mixin hashTransactions batch) with
    ⟨q, hq, hhash, hnum, hper, -, hremaining⟩
  rw [hq] at hrecord
  cases hrecord
  have hmixin : (withTransactions ⟨p.numHashes + 1, H.hashv p.hash
      (Poh.mixin hashTransactions batch)⟩ batch.transactions).isTick = false :=
    isEmpty_eq_false_iff.mpr batch.nonempty
  have hlt : p.numHashes + 1 < u64Max := by omega
  have hone : 1 ≤ p.numHashes + 1 := Nat.succ_pos _
  refine h.emit ?_ hone hhash hnum hper ?_
  · show nextHash H hashTransactions _ (p.numHashes + 1) batch.transactions = _
    rw [nextHash_record _ hlt batch.nonempty, Nat.add_sub_cancel, ← h.hash_eq]
    rfl
  · intro _ c hc
    have hle : c + (p.numHashes + 1) ≤ u64Max := by omega
    refine ⟨c + (p.numHashes + 1), ?_, by omega⟩
    exact (if_neg (Bool.eq_false_iff.mp hmixin)).trans (congrArg some (Nat.min_eq_left hle))

theorem Emitted.tick :
    Emitted H hashTransactions seed
      (entries ++ ((p.tick H).1.map fun e => withTransactions e []).toList) (p.tick H).2 := by
  have hpos := p.remaining_pos
  have hcounted := h.counted
  have hmax := h.le_max
  have hsucc : H.hash p.hash = H.hash^[p.numHashes + 1] (lastHash seed entries) := by
    rw [iterate_succ_apply', ← h.hash_eq]
  rcases tick_cases (H := H) p with ⟨-, hroom, q, hq, hhash, hnum, hper, hremaining⟩ |
    ⟨hdue, q, hq, hhash, hnum, hper, hremaining⟩
  · -- one hash further
    rw [hq, map_none, toList_none, append_nil]
    refine ⟨h.verified, h.one_le, ?_, ?_, ?_, ?_⟩
    · rw [hhash, hnum, hsucc]
    · rw [hnum, hremaining, hper]
      omega
    · rw [hper]
      exact hmax
    · rw [hper, hnum, hremaining]
      intro hlow
      obtain ⟨c, hfold, hc⟩ := h.ticks hlow
      exact ⟨c, hfold, by omega⟩
  · rw [hq]
    have hone : 1 ≤ p.numHashes + 1 := Nat.succ_pos _
    have hle : p.numHashes + 1 ≤ u64Max := by omega
    refine h.emit ?_ hone hhash hnum hper ?_
    · show nextHash H hashTransactions _ (p.numHashes + 1) [] = _
      rw [nextHash_tick _ hone hle, ← hsucc]
      rfl
    · intro hlow c hc
      have hfull : min (c + (p.numHashes + 1)) u64Max = p.hashesPerTick := by omega
      exact ⟨0, if_pos hfull, by rw [hremaining, Nat.zero_add]⟩

theorem Emitted.recordEach {batches : List Batch} {pohEntries : List PohEntry}
    (hrecord : p.recordEach H (batches.map (Poh.mixin hashTransactions)) =
      (pohEntries.map some, p')) :
    Emitted H hashTransactions seed
      (entries ++ zipWith (fun e batch => withTransactions e batch.transactions)
        pohEntries batches) p' := by
  induction batches generalizing p entries pohEntries with
  | nil =>
    have hsame : p = p' := congrArg Prod.snd hrecord
    rw [zipWith_nil_right, append_nil, ← hsame]
    exact h
  | cons batch batches ih =>
    rcases hstep : p.record H (Poh.mixin hashTransactions batch) with ⟨entry, q⟩
    rcases hrest : q.recordEach H (batches.map (Poh.mixin hashTransactions)) with ⟨later, r⟩
    rw [map_cons, recordEach, hstep] at hrecord
    simp only [hrest] at hrecord
    cases pohEntries with
    | nil => cases hrecord
    | cons e pohEntries =>
      cases hrecord
      have hrec := ih (h.mixin hstep) hrest
      rw [append_assoc] at hrec
      exact hrec

end

theorem Emitted.start (H : Hasher) (hashTransactions : List Transaction → Hash) (seed : Hash)
    (hone : 1 < hashesPerTick) (hmax : hashesPerTick ≤ u64Max) :
    ∃ p, new seed (some hashesPerTick) = some p ∧ p.hashesPerTick = hashesPerTick ∧
      Emitted H hashTransactions seed [] p := by
  refine ⟨_, dif_pos hone, rfl, rfl, ?_, rfl, ?_, hmax, ?_⟩
  · intro e he
    exact absurd he not_mem_nil
  · show 0 + hashesPerTick ≤ hashesPerTick
    omega
  · intro _
    refine ⟨0, rfl, ?_⟩
    show 0 + 0 + hashesPerTick = hashesPerTick
    omega

/-- One call, an empty batch of mixins apart. -/
theorem Emitted.perform (h : Emitted H hashTransactions seed entries p) {op : PohOp}
    (hop : op ≠ .recordBatches []) :
    Emitted H hashTransactions seed (entries ++ (p.perform H hashTransactions op).1)
      (p.perform H hashTransactions op).2 := by
  cases op with
  | hash n =>
    show Emitted H hashTransactions seed (entries ++ []) (p.hashN H n).2
    rw [append_nil]
    exact h.hashN n
  | record batch =>
    rw [Poh.perform]
    rcases hrecord : p.record H (Poh.mixin hashTransactions batch) with ⟨entry, q⟩
    cases entry with
    | none =>
      -- refused
      unfold Poh.record at hrecord
      split_ifs at hrecord
      · cases hrecord
        show Emitted H hashTransactions seed (entries ++ []) p
        rw [append_nil]
        exact h
      · cases hrecord
    | some entry => exact h.mixin hrecord
  | recordBatches batches =>
    rw [Poh.perform]
    rcases hrecord : p.recordBatches H (batches.map (Poh.mixin hashTransactions)) with
      ⟨pohEntries, q⟩
    cases pohEntries with
    | none =>
      unfold recordBatches at hrecord
      split_ifs at hrecord
      · cases hrecord
        show Emitted H hashTransactions seed (entries ++ zipWith
          (fun e batch => withTransactions e batch.transactions) [] batches) p
        rw [zipWith_nil_left, append_nil]
        exact h
      · cases hrecord
    | some pohEntries =>
      have hne : batches.map (Poh.mixin hashTransactions) ≠ [] := by
        intro hnil
        apply hop
        rw [map_eq_nil_iff.mp hnil]
      exact h.recordEach (recordBatches_eq_recordEach hne hrecord)
  | tick => exact h.tick

theorem Emitted.run (h : Emitted H hashTransactions seed entries p)
    (hops : .recordBatches [] ∉ ops) :
    Emitted H hashTransactions seed (entries ++ (p.run H hashTransactions ops).1)
      (p.run H hashTransactions ops).2 := by
  induction ops generalizing p entries with
  | nil =>
    show Emitted H hashTransactions seed (entries ++ []) p
    rw [append_nil]
    exact h
  | cons op ops ih =>
    have hop : op ≠ .recordBatches [] := by
      intro hempty
      apply hops
      rw [hempty]
      exact mem_cons_self
    have hrest := ih (h.perform hop) fun hmem => hops (mem_cons_of_mem op hmem)
    rw [append_assoc] at hrest
    exact hrest

end Invariant

/-! ## All calls -/

theorem Poh.perform_hashesPerTick (H : Hasher) (hashTransactions : List Transaction → Hash)
    (p : Poh) (op : PohOp) :
    (p.perform H hashTransactions op).2.hashesPerTick = p.hashesPerTick := by
  cases op with
  | hash n => rfl
  | record batch =>
    show (p.record H _).2.hashesPerTick = _
    unfold record
    split_ifs <;> rfl
  | recordBatches batches =>
    show (p.recordBatches H _).2.hashesPerTick = _
    unfold recordBatches
    split_ifs <;> rfl
  | tick =>
    show (p.tick H).2.hashesPerTick = _
    rcases tick_cases (H := H) p with ⟨-, -, q, hq, -, -, hper, -⟩ | ⟨-, q, hq, -, -, hper, -⟩
    · rw [hq, hper]
    · rw [hq, hper]

theorem Poh.run_hashesPerTick (H : Hasher) (hashTransactions : List Transaction → Hash) (p : Poh)
    (ops : List PohOp) : (p.run H hashTransactions ops).2.hashesPerTick = p.hashesPerTick := by
  induction ops generalizing p with
  | nil => rfl
  | cons op ops ih =>
    show ((p.perform H hashTransactions op).2.run H hashTransactions ops).2.hashesPerTick = _
    rw [ih, perform_hashesPerTick]

/-- Whatever the calls, as long as no batch of mixins is empty: the entries verify one
after the other from the seed, each has a hash, and the hashes between the ticks add up,
unless the generator is in low power mode. The remaining hashes stay in their range, and
accepted mixins give the entries they would give one by one. -/
theorem poh_stream_verifies (H : Hasher) (hashTransactions : List Transaction → Hash) (seed : Hash)
    {hashesPerTick : ℕ} (hone : 1 < hashesPerTick) (hmax : hashesPerTick ≤ u64Max)
    {ops : List PohOp} (hops : .recordBatches [] ∉ ops) :
    ∃ p entries q, Poh.new seed (some hashesPerTick) = some p ∧
      p.run H hashTransactions ops = (entries, q) ∧
      verifyEntries H hashTransactions seed entries = some true ∧
      (∀ e ∈ entries, 1 ≤ e.numHashes) ∧
      (hashesPerTick ≠ lowPowerMode → (verifyTickHashCount entries 0 hashesPerTick).1 = true) ∧
      1 ≤ q.remainingHashesUntilTick ∧ q.remainingHashesUntilTick ≤ hashesPerTick ∧
      ∀ mixins pohEntries r, mixins ≠ [] → q.recordBatches H mixins = (some pohEntries, r) →
        q.recordEach H mixins = (pohEntries.map some, r) := by
  obtain ⟨p, hnew, hper, hstart⟩ := Emitted.start H hashTransactions seed hone hmax
  have hrun := hstart.run hops
  rw [nil_append] at hrun
  have hperRun := run_hashesPerTick H hashTransactions p ops
  rw [hper] at hperRun
  refine ⟨p, _, _, hnew, rfl, hrun.verified, hrun.one_le, ?_, remaining_pos _, ?_, ?_⟩
  · intro hlow
    rw [← hperRun] at hlow
    obtain ⟨c, hfold, hc⟩ := hrun.ticks hlow
    have hpos := ((p.run H hashTransactions ops).2).remaining_pos
    rw [hperRun] at hfold hc
    have hzero : hashesPerTick ≠ 0 := by omega
    have hopen : c < hashesPerTick := by omega
    rw [verifyTickHashCount, if_neg hzero, tickHashCountLoop_eq_true.mpr ⟨hfold, hopen⟩]
  · rw [← hperRun]
    exact remaining_le _
  · intro mixins pohEntries r hne hrecord
    exact recordBatches_eq_recordEach hne hrecord

/-- A hasher small enough to compute with. -/
def addingHasher : Hasher := ⟨(· + 1), (· + ·)⟩

def oneTransaction : Batch := ⟨[[]], List.cons_ne_nil _ _⟩

theorem poh_stream_verifies_three :
    ∃ p entries q, Poh.new 5 (some 3) = some p ∧
      p.run addingHasher (fun _ => 7)
        [.hash 1, .record oneTransaction, .recordBatches [oneTransaction], .tick] = (entries, q) ∧
      verifyEntries addingHasher (fun _ => 7) 5 entries = some true := by
  have hops : PohOp.recordBatches [] ∉
      [PohOp.hash 1, .record oneTransaction, .recordBatches [oneTransaction], .tick] := by simp
  rcases poh_stream_verifies addingHasher (fun _ => 7) 5 (by decide : 1 < 3) (by decide) hops
    with ⟨p, entries, q, hnew, hrun, hverify, -⟩
  exact ⟨p, entries, q, hnew, hrun, hverify⟩

/-- In low power mode the first tick has one hash instead of `u64::MAX`. And an empty batch
of mixins drops the hash before it: the verifier, which starts from the seed, computes
another hash for the next entry. A batch that is refused emits nothing, though two of its three
mixins are accepted one by one. -/
theorem poh_stream_fails :
    ((Poh.new 0 (some u64Max)).map fun p =>
      (verifyTickHashCount (p.run addingHasher (fun _ => 0) [.tick]).1 0 u64Max).1) = some false ∧
    ((Poh.new 0 (some 4)).bind fun p =>
      verifyEntries addingHasher (fun _ => 0) 0
        (p.run addingHasher (fun _ => 0)
          [.hash 1, .recordBatches [], .record oneTransaction]).1) = some false ∧
    (Poh.new 0 (some 3)).map (fun p =>
      [[.recordBatches (replicate 3 oneTransaction)], replicate 3 (.record oneTransaction)].map
        fun ops => (p.run addingHasher (fun _ => 0) ops).1.length) = some [0, 2] := by
  refine ⟨?_, ?_, ?_⟩ <;> decide

end Salsa.Stream
