import Salsa.Poh.Channel

/-!
# Salsa.Poh.Recorder — the recorder that puts records into the PoH stream

`poh_recorder.rs`: `record`, `tick`, `set_bank` and `reset`, with the cache of
ticks that is flushed to the working bank. `record` takes what fits into the `room` of the
working bank and uses up exactly that much (`record_of_le_room`).

A failed assertion of the source is `none`. Metrics and times are left out, and
so are the fields that only `reached_leader_slot` reads.
-/

namespace Salsa.Poh

open Salsa.Stream List Stream.Poh

structure Bank where
  bankId : U64
  slot : ℕ
  tickHeight : ℕ
  maxTickHeight : ℕ
  ticksPerSlot : ℕ
  hashesPerTick : Option ℕ
  lastBlockhash : Hash
deriving DecidableEq, Repr

/-- `WorkingBank`; its last tick is that of its bank. -/
structure WorkingBank where
  bank : Bank
  minTickHeight : ℕ
  maxTickHeight : ℕ
  maxTickHeight_eq : maxTickHeight = bank.maxTickHeight

/-- The errors that `PohRecorder` raises itself while its sender is connected. -/
inductive PohRecorderError where
  | maxHeightReached
  | minHeightNotReached
deriving DecidableEq, Repr

/-- What the recorder asks others. -/
structure Env where
  hasher : Hasher
  nextLeaderSlot : Bank → Option (ℕ × ℕ)

structure PohRecorder where
  poh : Stream.Poh
  startSlot : ℕ
  tickCache : List (Entry × ℕ)
  workingBank : Option WorkingBank
  tickHeight : ℕ
  leaderFirstTickHeight : Option ℕ
  ticksPerSlot : ℕ
  sent : List (U64 × Entry × ℕ)

namespace PohRecorder

variable (env : Env)

/-- The first component of `compute_leader_slot_tick_heights`. -/
def computeLeaderFirstTickHeight (nextLeaderSlot : Option (ℕ × ℕ)) (ticksPerSlot : ℕ) : Option ℕ :=
  nextLeaderSlot.map fun slots => slots.1 * ticksPerSlot + 1

variable (d : PohRecorder)

def clearBank (setSharedState : Bool) : PohRecorder :=
  match d.workingBank with
  | none => d
  | some wb =>
      { d with
        workingBank := none
        leaderFirstTickHeight :=
          if setSharedState then
            computeLeaderFirstTickHeight (env.nextLeaderSlot wb.bank) d.ticksPerSlot
          else d.leaderFirstTickHeight }

/-- The ticks of the cache go to the working bank, up to its last one. -/
def flushTicks (wb : WorkingBank) : PohRecorder :=
  let ticks := d.tickCache.takeWhile fun x => x.2 ≤ wb.maxTickHeight
  { d with
    sent := d.sent ++ ticks.map fun x => (wb.bank.bankId, x)
    tickCache := d.tickCache.drop ticks.length }

def flushCache (tick : Bool) : Except PohRecorderError Unit × PohRecorder :=
  match d.workingBank with
  | none => (.error .maxHeightReached, d)
  | some wb =>
      if d.tickHeight < wb.minTickHeight then (.error .minHeightNotReached, d)
      else if tick ∧ d.tickHeight = wb.minTickHeight then (.error .minHeightNotReached, d)
      else if wb.maxTickHeight ≤ d.tickHeight then
        (.ok (), clearBank env { d.flushTicks wb with startSlot := wb.bank.slot } true)
      else (.ok (), d.flushTicks wb)

def tick : PohRecorder :=
  match d.poh.tick env.hasher with
  | (none, poh) => { d with poh }
  | (some entry, poh) =>
      let d := { d with poh, tickHeight := d.tickHeight + 1 }
      -- without a leader slot to come nobody wants the tick
      if d.leaderFirstTickHeight.isNone then d
      else
        (flushCache env
          { d with
            tickCache := d.tickCache ++ [(⟨entry.numHashes, entry.hash, []⟩, d.tickHeight)] }
          true).2

/-- `reset_poh`, with the tick height it returns. -/
def resetPoh (bank : Bank) (resetStartBank : Bool) : Option (ℕ × PohRecorder) :=
  (Stream.Poh.reset bank.lastBlockhash bank.hashesPerTick).map fun poh =>
    let startSlot := if resetStartBank then bank.slot else d.startSlot
    ((startSlot + 1) * d.ticksPerSlot, { d with poh, tickCache := [], startSlot })

/-- The tick height and the recorder after the check for changed hashes per
tick in `set_bank`. -/
def matchHashesPerTick (bank : Bank) : Option (ℕ × PohRecorder) :=
  match bank.hashesPerTick with
  | none => some (d.tickHeight, d)
  | some n => if d.poh.hashesPerTick ≠ n then d.resetPoh bank false else some (d.tickHeight, d)

def setBank (bank : Bank) : Option PohRecorder :=
  if d.workingBank.isSome then none
  else if bank.ticksPerSlot ≠ d.ticksPerSlot then none
  else
    (d.matchHashesPerTick bank).map fun x =>
      (flushCache env
        { x.2 with
          tickHeight := x.1
          workingBank := some ⟨bank, bank.tickHeight, bank.maxTickHeight, rfl⟩ }
        false).2

def reset (resetBank : Bank) (nextLeaderSlot : Option (ℕ × ℕ)) : Option PohRecorder :=
  ((d.clearBank env false).resetPoh resetBank true).map fun x =>
    { x.2 with
      tickHeight := x.1
      leaderFirstTickHeight := computeLeaderFirstTickHeight nextLeaderSlot d.ticksPerSlot }

/-! ## What flushing and ticking change -/

/-- A flush fails and does nothing, or keeps the working bank, or clears it
because its last tick is reached. -/
theorem flushCache_cases (tick : Bool) :
    (∃ e, flushCache env d tick = (.error e, d)) ∨
    ∃ wb d', flushCache env d tick = (.ok (), d') ∧ d.workingBank = some wb ∧
      wb.minTickHeight ≤ d.tickHeight ∧ d'.poh = d.poh ∧ d'.tickHeight = d.tickHeight ∧
      d'.ticksPerSlot = d.ticksPerSlot ∧
      ((d.tickHeight < wb.maxTickHeight ∧ d'.workingBank = some wb) ∨
        (wb.maxTickHeight ≤ d.tickHeight ∧ d'.workingBank = none)) := by
  unfold flushCache
  cases hwb : d.workingBank with
  | none => exact Or.inl ⟨_, rfl⟩
  | some wb =>
    simp only
    split_ifs with hmin htick hmax
    · exact Or.inl ⟨_, rfl⟩
    · exact Or.inl ⟨_, rfl⟩
    · -- the last tick of the bank: it is cleared
      refine Or.inr ⟨wb, _, rfl, rfl, Nat.le_of_not_lt hmin, ?_, ?_, ?_, Or.inr ⟨hmax, ?_⟩⟩ <;>
        simp [clearBank, flushTicks, hwb]
    · exact Or.inr ⟨wb, _, rfl, rfl, Nat.le_of_not_lt hmin, rfl, rfl, rfl,
        Or.inl ⟨Nat.lt_of_not_le hmax, hwb⟩⟩

variable {env d} {wb : WorkingBank} {poh : Stream.Poh}

/-- A tick that the generator does not emit only uses up a hash. -/
theorem tick_of_none (h : d.poh.tick env.hasher = (none, poh)) : tick env d = { d with poh } := by
  rw [tick, h]

/-- An emitted tick raises the tick height; it may be the last one of the
working bank. -/
theorem tick_of_some {entry : PohEntry} (h : d.poh.tick env.hasher = (some entry, poh)) :
    (tick env d).poh = poh ∧ (tick env d).tickHeight = d.tickHeight + 1 ∧
    (tick env d).ticksPerSlot = d.ticksPerSlot ∧
    ((tick env d).workingBank = d.workingBank ∨
      ∃ wb, d.workingBank = some wb ∧ wb.maxTickHeight ≤ d.tickHeight + 1 ∧
        (tick env d).workingBank = none) := by
  rw [tick, h]
  simp only
  split_ifs with hleader
  · exact ⟨rfl, rfl, rfl, Or.inl rfl⟩
  · rcases flushCache_cases env { d with
        poh := poh
        tickHeight := d.tickHeight + 1
        tickCache := d.tickCache ++
          [(⟨entry.numHashes, entry.hash, []⟩, d.tickHeight + 1)] } true with
      ⟨e, heq⟩ | ⟨wb, d', heq, hwb, -, hpoh, hheight, htps, hcase⟩
    · rw [heq]
      exact ⟨rfl, rfl, rfl, Or.inl rfl⟩
    · rw [heq]
      refine ⟨hpoh, hheight, htps, ?_⟩
      rcases hcase with ⟨-, hkept⟩ | ⟨hmax, hcleared⟩
      · exact Or.inl (hkept.trans hwb.symm)
      · exact Or.inr ⟨wb, hwb, hmax, hcleared⟩

/-! ## Recording -/

variable (env)

/-- What one round of the loop of `record` leads to. -/
inductive Round where
  | done (result : Except PohRecorderError ℕ) (d : PohRecorder)
  | again (d : PohRecorder) (mixins : List Hash) (batches : List (List Transaction))

/-- The entries of recorded mixins go to the working bank, one per batch. -/
def sendEntries (d : PohRecorder) (wb : WorkingBank) (poh : Stream.Poh) (entries : List PohEntry)
    (batches : List (List Transaction)) : PohRecorder :=
  { d with
    poh
    sent := d.sent ++ (entries.zip batches).map fun x =>
      (wb.bank.bankId, ⟨x.1.numHashes, x.1.hash, x.2⟩, d.tickHeight) }

/-- The first `batchLen` mixins are recorded, unless the next hash is a tick. -/
def recordFitting (d : PohRecorder) (mixins : List Hash) (batchLen : ℕ) :
    Option (List PohEntry) × Stream.Poh :=
  if batchLen = 0 then (none, d.poh) else d.poh.recordBatches env.hasher (mixins.take batchLen)

/-- What a round does once the working bank is the one recorded for. -/
def recordInto (d : PohRecorder) (wb : WorkingBank) (mixins : List Hash)
    (batches : List (List Transaction)) : Round :=
  let batchLen := min (d.poh.remainingHashes - 1) mixins.length
  match recordFitting env d mixins batchLen with
  | (some entries, poh) =>
      let d := d.sendEntries wb poh entries (batches.take batchLen)
      if mixins.drop batchLen = [] then
        .done (.ok (poh.remainingHashesInSlot wb.bank.ticksPerSlot)) d
      else .again (d.tick env) (mixins.drop batchLen) (batches.drop batchLen)
  -- on the tick boundary: just tick
  | (none, poh) => .again ({ d with poh }.tick env) mixins batches

def recordRound (bankId : U64) (d : PohRecorder) (mixins : List Hash)
    (batches : List (List Transaction)) : Round :=
  match flushCache env d false with
  | (.error e, d) => .done (.error e) d
  | (.ok (), d) =>
      match d.workingBank with
      | none => .done (.error .maxHeightReached) d
      | some wb =>
          if bankId ≠ wb.bank.bankId then .done (.error .maxHeightReached) d
          else recordInto env d wb mixins batches

variable {env}

/-- How many ticks the working bank can still see. -/
def ticksLeft (d : PohRecorder) : ℕ :=
  match d.workingBank with
  | none => 0
  | some wb => wb.maxTickHeight - d.tickHeight + 1

/-- A tick before the end of the bank brings its end or the next tick nearer. -/
theorem tick_decreases (hwb : d.workingBank = some wb) (hmax : d.tickHeight < wb.maxTickHeight) :
    (tick env d).ticksLeft < d.ticksLeft ∨
    ((tick env d).ticksLeft = d.ticksLeft ∧
      (tick env d).poh.remainingHashesUntilTick < d.poh.remainingHashesUntilTick) := by
  cases hpoh : d.poh.tick env.hasher with
  | mk emitted poh =>
    cases emitted with
    | none =>
      rw [tick_of_none hpoh]
      exact Or.inr ⟨rfl, tick_eq_none hpoh⟩
    | some entry =>
      left
      rcases tick_of_some hpoh with ⟨-, hheight, -, hkept | ⟨_, -, -, hcleared⟩⟩
      · rw [ticksLeft, ticksLeft, hkept, hwb, hheight]
        simp only
        omega
      · rw [ticksLeft, ticksLeft, hcleared, hwb]
        simp only
        omega

/-- A round of recording: on the tick boundary it ticks; otherwise it records
what fits before the tick and then is done or ticks. -/
theorem recordInto_cases (d : PohRecorder) (wb : WorkingBank) (mixins : List Hash)
    (batches : List (List Transaction)) :
    ((d.poh.remainingHashesUntilTick = 1 ∨ mixins = []) ∧
      recordInto env d wb mixins batches = .again (d.tick env) mixins batches) ∨
    ∃ n entries poh, 0 < n ∧ n ≤ mixins.length ∧ entries.length = n ∧
      poh.hashesPerTick = d.poh.hashesPerTick ∧
      poh.remainingHashesUntilTick + n = d.poh.remainingHashesUntilTick ∧
      ((n = mixins.length ∧ recordInto env d wb mixins batches =
          .done (.ok (poh.remainingHashesInSlot wb.bank.ticksPerSlot))
            (d.sendEntries wb poh entries (batches.take n))) ∨
        (n < mixins.length ∧ poh.remainingHashesUntilTick = 1 ∧
          recordInto env d wb mixins batches =
            .again ((d.sendEntries wb poh entries (batches.take n)).tick env) (mixins.drop n)
              (batches.drop n))) := by
  have hpos := d.poh.remaining_pos
  unfold recordInto remainingHashes
  generalize hn : min (d.poh.remainingHashesUntilTick - 1) mixins.length = n
  by_cases hzero : n = 0
  · left
    refine ⟨?_, ?_⟩
    · rcases Nat.min_eq_zero_iff.mp (hn.trans hzero) with h | h
      · exact Or.inl (by omega)
      · exact Or.inr (length_eq_zero_iff.mp h)
    · simp only [recordFitting, if_pos hzero]
  · right
    have hfits : (mixins.take n).length + 1 ≤ d.poh.remainingHashesUntilTick := by
      rw [length_take]
      omega
    rcases recordBatches_of_fits (H := env.hasher) hfits with
      ⟨entries, poh, heq, hlen, hper, -, hrem⟩
    rw [length_take] at hlen hrem
    refine ⟨n, entries, poh, by omega, by omega, by omega, hper, by omega, ?_⟩
    simp only [recordFitting, if_neg hzero, heq, drop_eq_nil_iff]
    by_cases hall : mixins.length ≤ n
    · left
      rw [if_pos hall]
      exact ⟨by omega, rfl⟩
    · right
      rw [if_neg hall]
      exact ⟨by omega, by omega, rfl⟩

variable {bankId : U64} {batches batches' : List (List Transaction)}

/-- The working bank is the one recorded for and has ticks to come. -/
structure Open (d : PohRecorder) (bankId : U64) (wb : WorkingBank) : Prop where
  bank : d.workingBank = some wb
  min : wb.minTickHeight ≤ d.tickHeight
  max : d.tickHeight < wb.maxTickHeight
  id : bankId = wb.bank.bankId

/-- A round records into an open working bank and fails without one. -/
theorem recordRound_cases (env : Env) (bankId : U64) (d : PohRecorder) (mixins : List Hash)
    (batches : List (List Transaction)) :
    (∃ wb, d.Open bankId wb ∧ recordRound env bankId d mixins batches =
      recordInto env (d.flushTicks wb) wb mixins batches) ∨
    (∀ wb, ¬ d.Open bankId wb) ∧ ∃ e, recordRound env bankId d mixins batches =
      .done (.error e) (flushCache env d false).2 := by
  unfold recordRound flushCache
  cases hwb : d.workingBank with
  | none => exact Or.inr ⟨fun wb h => (by cases hwb.symm.trans h.bank), _, rfl⟩
  | some wb =>
    have hunique : ∀ {wb'}, d.Open bankId wb' → wb = wb' :=
      fun h => Option.some.inj (hwb.symm.trans h.bank)
    have hkept : (d.flushTicks wb).workingBank = some wb := hwb
    simp only [Bool.false_eq_true, false_and, if_false]
    split_ifs with hmin hmax
    · exact Or.inr ⟨fun wb' h => hmin.not_ge (hunique h ▸ h.min), _, rfl⟩
    · refine Or.inr ⟨fun wb' h => hmax.not_gt (hunique h ▸ h.max), ?_⟩
      simp only [clearBank, hkept]
      exact ⟨_, rfl⟩
    · simp only [hkept]
      by_cases hid : bankId = wb.bank.bankId
      · rw [if_neg (not_not.mpr hid)]
        exact Or.inl ⟨wb, ⟨hwb, Nat.le_of_not_lt hmin, Nat.lt_of_not_le hmax, hid⟩, rfl⟩
      · rw [if_pos hid]
        exact Or.inr ⟨fun wb' h => hid (hunique h ▸ h.id), _, rfl⟩

/-- Every round that goes on has less to do. -/
theorem recordRound_decreases {d d' : PohRecorder} {mixins mixins' : List Hash}
    (h : recordRound env bankId d mixins batches = .again d' mixins' batches') :
    mixins'.length < mixins.length ∨
    (mixins'.length = mixins.length ∧ (d'.ticksLeft < d.ticksLeft ∨
      (d'.ticksLeft = d.ticksLeft ∧
        d'.poh.remainingHashesUntilTick < d.poh.remainingHashesUntilTick))) := by
  rcases recordRound_cases env bankId d mixins batches with ⟨wb, hopen, heq⟩ | ⟨-, e, heq⟩
  · rcases recordInto_cases (d.flushTicks wb) wb mixins batches with ⟨-, hagain⟩ |
      ⟨n, entries, poh, hpos, hle, -, -, -, ⟨-, hdone⟩ | ⟨-, -, hagain⟩⟩
    · -- nothing fits: the tick brings the end of the bank or the next tick nearer
      cases h.symm.trans (heq.trans hagain)
      exact Or.inr ⟨rfl, tick_decreases hopen.bank hopen.max⟩
    · cases h.symm.trans (heq.trans hdone)
    · cases h.symm.trans (heq.trans hagain)
      left
      rw [length_drop]
      omega
  · cases h.symm.trans heq

variable (env)

def recordLoop (bankId : U64) (d : PohRecorder) (mixins : List Hash)
    (batches : List (List Transaction)) : Except PohRecorderError ℕ × PohRecorder :=
  match _hround : recordRound env bankId d mixins batches with
  | .done result d => (result, d)
  | .again d mixins batches => recordLoop bankId d mixins batches
termination_by (mixins.length, d.ticksLeft, d.poh.remainingHashesUntilTick)
decreasing_by
  rcases recordRound_decreases _hround with hlt | ⟨heq, hlt | ⟨heq', hlt⟩⟩
  · exact Prod.Lex.left _ _ hlt
  · rw [heq]
    exact Prod.Lex.right _ (Prod.Lex.left _ _ hlt)
  · rw [heq, heq']
    exact Prod.Lex.right _ (Prod.Lex.right _ hlt)

/-- The check of `record` before it records anything: the hashes left for
mixins until the end of the bank. -/
def totalRemainingHashes (d : PohRecorder) (wb : WorkingBank) : ℕ :=
  let remainingTicks := wb.bank.maxTickHeight - (d.tickHeight + 1)
  let tickRemainingHashes := d.poh.remainingHashes - 1
  min u64Max (tickRemainingHashes + min u64Max (remainingTicks * (d.poh.hashesPerTick - 1)))

/-- `record`; none where one of its assertions fails. -/
def record (d : PohRecorder) (bankId : U64) (mixins : List Hash)
    (batches : List (List Transaction)) : Option (Except PohRecorderError ℕ × PohRecorder) :=
  if mixins.length ≠ batches.length then none
  else if batches.any List.isEmpty then none
  else
    some <|
      match d.workingBank with
      | none => (.error .maxHeightReached, d)
      | some wb =>
          if d.totalRemainingHashes wb < mixins.length then (.error .maxHeightReached, d)
          else recordLoop env bankId d mixins batches

/-! ## Room -/

variable {env}

/-- The hashes left for mixins when the working bank's last tick is `ticks` ticks
after the current one. -/
def hashesLeft (poh : Stream.Poh) (ticks : ℕ) : ℕ :=
  poh.remainingHashesUntilTick - 1 + ticks * (poh.hashesPerTick - 1)

/-- How many batches `record` can still put into the working bank. -/
def room (d : PohRecorder) : ℕ :=
  match d.workingBank with
  | none => 0
  | some wb =>
      if wb.minTickHeight ≤ d.tickHeight ∧ d.tickHeight < wb.maxTickHeight then
        hashesLeft d.poh (wb.maxTickHeight - (d.tickHeight + 1))
      else 0

theorem room_of_open (hwb : d.workingBank = some wb) (hmin : wb.minTickHeight ≤ d.tickHeight)
    (hmax : d.tickHeight < wb.maxTickHeight) :
    d.room = hashesLeft d.poh (wb.maxTickHeight - (d.tickHeight + 1)) := by
  rw [room, hwb]
  exact if_pos ⟨hmin, hmax⟩

/-- Where there is room there is an open working bank. -/
theorem open_of_room_pos (h : 0 < d.room) :
    ∃ wb, d.workingBank = some wb ∧ wb.minTickHeight ≤ d.tickHeight ∧
      d.tickHeight < wb.maxTickHeight := by
  unfold room at h
  cases hwb : d.workingBank with
  | none =>
    rw [hwb] at h
    exact absurd h (Nat.lt_irrefl 0)
  | some wb =>
    rw [hwb] at h
    simp only at h
    split_ifs at h with hopen
    · exact ⟨wb, rfl, hopen.1, hopen.2⟩
    · exact absurd h (Nat.lt_irrefl 0)

/-- A due tick costs no room: the hash it takes was reserved for it. -/
theorem room_le_tick (env : Env) (hdue : d.poh.remainingHashesUntilTick = 1) :
    d.room ≤ (d.tick env).room := by
  rcases Nat.eq_zero_or_pos d.room with hzero | hpos
  · omega
  · obtain ⟨wb, hwb, hmin, hmax⟩ := open_of_room_pos hpos
    obtain ⟨entry, poh, hpoh, hper, -, hrem⟩ := tick_of_due hdue
    obtain ⟨hpoh', hheight, -, hcase⟩ := tick_of_some hpoh
    rw [room_of_open hwb hmin hmax, hashesLeft, hdue] at hpos ⊢
    have hnext : d.tickHeight + 1 < wb.maxTickHeight := by
      by_contra hlast
      rw [show wb.maxTickHeight - (d.tickHeight + 1) = 0 by omega] at hpos
      omega
    rcases hcase with hkept | ⟨wb', hwb', hover, -⟩
    · rw [room_of_open (hkept.trans hwb) (by omega) (by omega), hashesLeft, hpoh', hheight, hrem,
        hper, show wb.maxTickHeight - (d.tickHeight + 1) = wb.maxTickHeight - (d.tickHeight + 1 + 1)
        + 1 by omega, Nat.succ_mul]
      omega
    · rw [hwb] at hwb'
      cases hwb'
      omega

/-- Recording `n` mixins before the next tick takes `n` of the room. -/
theorem room_sendEntries {n : ℕ} (entries : List PohEntry)
    (batches : List (List Transaction)) (hwb : d.workingBank = some wb)
    (hmin : wb.minTickHeight ≤ d.tickHeight) (hmax : d.tickHeight < wb.maxTickHeight)
    (hper : poh.hashesPerTick = d.poh.hashesPerTick)
    (hrem : poh.remainingHashesUntilTick + n = d.poh.remainingHashesUntilTick) :
    (d.sendEntries wb poh entries batches).room + n = d.room := by
  have hpos := poh.remaining_pos
  rw [room_of_open hwb hmin hmax, room_of_open (d := d.sendEntries wb poh entries batches) hwb hmin
    hmax, hashesLeft, hashesLeft]
  show poh.remainingHashesUntilTick - 1 + _ * (poh.hashesPerTick - 1) + n = _
  rw [hper]
  show poh.remainingHashesUntilTick - 1 + (wb.maxTickHeight - (d.tickHeight + 1)) *
    (d.poh.hashesPerTick - 1) + n = _
  omega

/-- The working bank after a tick was there before. -/
theorem workingBank_of_tick
    (hwb : (d.tick env).workingBank = some wb) : d.workingBank = some wb := by
  cases hpoh : d.poh.tick env.hasher with
  | mk emitted poh =>
    cases emitted with
    | none =>
      rw [tick_of_none hpoh] at hwb
      exact hwb
    | some entry =>
      rcases tick_of_some hpoh with ⟨-, -, -, hkept | ⟨_, -, -, hcleared⟩⟩
      · exact hkept.symm.trans hwb
      · rw [hcleared] at hwb
        cases hwb

/-- A tick that leaves room leaves the working bank. -/
theorem tick_keeps (hwb : d.workingBank = some wb)
    (hpos : 0 < (d.tick env).room) : (d.tick env).workingBank = some wb := by
  obtain ⟨wb', hwb', -⟩ := open_of_room_pos hpos
  rw [hwb', ← workingBank_of_tick hwb', hwb]

variable {mixins : List Hash}

/-- A round with room for all mixins ends well, or goes on with room for the
rest. -/
theorem recordRound_of_le_room (hpos : 0 < mixins.length)
    (hroom : mixins.length ≤ d.room) (hwb : d.workingBank = some wb)
    (hbank : bankId = wb.bank.bankId) :
    (∃ remaining d', recordRound env bankId d mixins batches = .done (.ok remaining) d' ∧
      d'.workingBank = some wb ∧ d.room ≤ d'.room + mixins.length) ∨
    ∃ d' mixins' batches', recordRound env bankId d mixins batches = .again d' mixins' batches' ∧
      d'.workingBank = some wb ∧ 0 < mixins'.length ∧ mixins'.length ≤ d'.room ∧
      d.room + mixins'.length ≤ d'.room + mixins.length := by
  obtain ⟨wb', hwb', hmin, hmax⟩ := open_of_room_pos (hpos.trans_le hroom)
  cases hwb.symm.trans hwb'
  rcases recordRound_cases env bankId d mixins batches with ⟨wb', hopen, heq⟩ | ⟨hclosed, -⟩
  swap
  · exact absurd ⟨hwb, hmin, hmax, hbank⟩ (hclosed wb)
  cases hwb.symm.trans hopen.bank
  rw [heq]
  -- the flush of the round changes neither the bank nor the room
  generalize hd₁ : d.flushTicks wb = d₁
  have hkept : d₁.workingBank = some wb := by rw [← hd₁]; exact hwb
  have hroom₁ : d.room = d₁.room := by rw [← hd₁]; rfl
  have hheight : d.tickHeight = d₁.tickHeight := by rw [← hd₁]; rfl
  rw [hheight] at hmin hmax
  rcases recordInto_cases d₁ wb mixins batches with ⟨hdue, hagain⟩ |
    ⟨n, entries, poh, hn, hle, -, hper, hrem, ⟨hall, hdone⟩ | ⟨hlt, hone, hagain⟩⟩
  · -- only the tick fits
    right
    rcases hdue with hdue | hnil
    · have hmono := room_le_tick env hdue
      exact ⟨_, _, _, hagain, tick_keeps hkept (by omega), hpos, by omega, by omega⟩
    · rw [hnil] at hpos
      exact absurd hpos (Nat.lt_irrefl 0)
  · left
    have hsent := room_sendEntries entries (batches.take n) hkept hmin hmax hper hrem
    exact ⟨_, _, hdone, hkept, by omega⟩
  · right
    have hsent := room_sendEntries entries (batches.take n) hkept hmin hmax hper hrem
    have hmono := room_le_tick env (d := d₁.sendEntries wb poh entries (batches.take n)) hone
    refine ⟨_, _, _, hagain, tick_keeps hkept (by omega), ?_, ?_, ?_⟩ <;> rw [length_drop] <;> omega

/-- The loop of `record` takes what fits. -/
theorem recordLoop_of_le_room (batches : List (List Transaction)) (hpos : 0 < mixins.length)
    (hroom : mixins.length ≤ d.room) (hwb : d.workingBank = some wb)
    (hbank : bankId = wb.bank.bankId) :
    ∃ remaining d', recordLoop env bankId d mixins batches = (.ok remaining, d') ∧
      d'.workingBank = some wb ∧ d.room ≤ d'.room + mixins.length := by
  fun_induction recordLoop env bankId d mixins batches with
  | case1 d mixins batches result d' hround =>
    rcases recordRound_of_le_room hpos hroom hwb hbank with ⟨r, e, hr, hkept, hle⟩ |
      ⟨e, m, b, hr, -⟩
    · rw [hround] at hr
      cases hr
      exact ⟨_, _, rfl, hkept, hle⟩
    · rw [hround] at hr
      cases hr
  | case2 d mixins batches d' mixins' batches' hround ih =>
    rcases recordRound_of_le_room hpos hroom hwb hbank with ⟨r, e, hr, -⟩ |
      ⟨e, m, b, hr, hkept, hpos', hle', hle⟩
    · rw [hround] at hr
      cases hr
    · rw [hround] at hr
      cases hr
      obtain ⟨remaining, d'', heq, hwb'', hroom''⟩ := ih hpos' hle' hkept
      exact ⟨remaining, d'', heq, hwb'', by omega⟩

theorem not_any_isEmpty (hne : ∀ batch ∈ batches, batch ≠ []) : ¬ batches.any isEmpty := by
  rw [Bool.not_eq_true, any_eq_false]
  intro batch hmem
  simpa using hne batch hmem

/-- `record` takes every record of the working bank that fits, and no more of
the room than it has batches. -/
theorem record_of_le_room (env : Env)
    (hlen : mixins.length = batches.length) (hne : ∀ batch ∈ batches, batch ≠ [])
    (hpos : 0 < mixins.length) (hsmall : mixins.length ≤ u64Max) (hroom : mixins.length ≤ d.room)
    (hwb : d.workingBank = some wb) (hbank : bankId = wb.bank.bankId) :
    ∃ remaining d', record env d bankId mixins batches = some (.ok remaining, d') ∧
      d'.workingBank = some wb ∧ d.room ≤ d'.room + mixins.length := by
  obtain ⟨wb', hwb', hmin', hmax'⟩ := open_of_room_pos (hpos.trans_le hroom)
  obtain rfl : wb = wb' := Option.some.inj (hwb.symm.trans hwb')
  have htotal : ¬ d.totalRemainingHashes wb < mixins.length := by
    rw [room_of_open hwb hmin' hmax', hashesLeft] at hroom
    rw [totalRemainingHashes, remainingHashes, ← wb.maxTickHeight_eq]
    generalize (wb.maxTickHeight - (d.tickHeight + 1)) * (d.poh.hashesPerTick - 1) =
      later at hroom ⊢
    omega
  rw [record, if_neg (not_not.mpr hlen), if_neg (not_any_isEmpty hne), hwb]
  simp only [if_neg htotal]
  rcases recordLoop_of_le_room batches hpos hroom hwb hbank with
    ⟨remaining, d', heq, hkept, hle⟩
  exact ⟨remaining, d', congrArg some heq, hkept, hle⟩

/-! ## All or nothing -/

/-- The batches that were sent; ticks have none. -/
def sentBatches (d : PohRecorder) : List (List Transaction) :=
  (d.sent.map fun x => x.2.1.transactions).filter (· ≠ [])

/-- The cache has ticks only. -/
def TicksOnly (d : PohRecorder) : Prop := ∀ x ∈ d.tickCache, x.1.transactions = []

theorem flushTicks_sent (h : d.TicksOnly) (wb : WorkingBank) :
    (d.flushTicks wb).sentBatches = d.sentBatches ∧ (d.flushTicks wb).TicksOnly := by
  constructor
  · have hnone : (((d.tickCache.takeWhile fun x => x.2 ≤ wb.maxTickHeight).map
        fun x => (wb.bank.bankId, x)).map fun x => x.2.1.transactions).filter (· ≠ []) = [] := by
      simp only [map_map, filter_eq_nil_iff, mem_map]
      rintro _ ⟨x, hx, rfl⟩
      simpa using h x ((takeWhile_sublist _).subset hx)
    rw [sentBatches, flushTicks, map_append, filter_append, hnone, append_nil, sentBatches]
  · exact fun x hx => h x (mem_of_mem_drop hx)

theorem flushCache_sent (env : Env) (h : d.TicksOnly) (tick : Bool) :
    (flushCache env d tick).2.sentBatches = d.sentBatches ∧
      (flushCache env d tick).2.TicksOnly := by
  unfold flushCache
  cases hwb : d.workingBank with
  | none => exact ⟨rfl, h⟩
  | some wb =>
    dsimp only
    split_ifs
    · exact ⟨rfl, h⟩
    · exact ⟨rfl, h⟩
    · simp only [show (d.flushTicks wb).workingBank = some wb from hwb]
      exact flushTicks_sent h wb
    · exact flushTicks_sent h wb

theorem tick_sent (env : Env) (h : d.TicksOnly) :
    (d.tick env).sentBatches = d.sentBatches ∧ (d.tick env).TicksOnly := by
  unfold tick
  rcases d.poh.tick env.hasher with ⟨_ | entry, poh⟩
  · exact ⟨rfl, h⟩
  · dsimp only
    split_ifs
    · exact ⟨rfl, h⟩
    · refine flushCache_sent env (fun x hx => ?_) true
      rcases mem_append.mp hx with hx | hx
      · exact h x hx
      · rw [mem_singleton.mp hx]

theorem sendEntries_sent {n : ℕ} {entries : List PohEntry} (hne : ∀ batch ∈ batches, batch ≠ [])
    (hlen : entries.length = n) (hle : n ≤ batches.length) :
    (d.sendEntries wb poh entries (batches.take n)).sentBatches =
      d.sentBatches ++ batches.take n := by
  have hzip : ((entries.zip (batches.take n)).map fun x => x.2) = batches.take n :=
    map_snd_zip (by rw [length_take]; omega)
  rw [sentBatches, sendEntries, map_append, filter_append, map_map]
  refine congrArg (d.sentBatches ++ ·) ?_
  refine Eq.trans (congrArg _ hzip) (filter_eq_self.mpr fun batch hmem => ?_)
  simpa using hne batch (mem_of_mem_take hmem)

/-- A round ends with all batches sent or with an error and none, or sends some and goes on with
the others. -/
theorem recordRound_sent (h : d.TicksOnly) (hne : ∀ batch ∈ batches, batch ≠ [])
    (hlen : mixins.length = batches.length) :
    (∃ n d', recordRound env bankId d mixins batches = .done (.ok n) d' ∧ mixins ≠ [] ∧
      d'.sentBatches = d.sentBatches ++ batches) ∨
    (∃ e d', recordRound env bankId d mixins batches = .done (.error e) d' ∧
      d'.sentBatches = d.sentBatches) ∨
    ∃ k d', recordRound env bankId d mixins batches =
        .again d' (mixins.drop k) (batches.drop k) ∧
      d'.TicksOnly ∧ d'.sentBatches = d.sentBatches ++ batches.take k := by
  rcases recordRound_cases env bankId d mixins batches with ⟨wb, -, heq⟩ | ⟨-, e, heq⟩
  swap
  · exact Or.inr (Or.inl ⟨e, _, heq, (flushCache_sent env h false).1⟩)
  rw [heq]
  obtain ⟨hsent, hticks⟩ := flushTicks_sent h wb
  rcases recordInto_cases (d.flushTicks wb) wb mixins batches with ⟨-, hagain⟩ |
    ⟨n, entries, poh, hpos, hle, hcount, -, -, ⟨hall, hdone⟩ | ⟨-, -, hagain⟩⟩
  · obtain ⟨htick, hticks'⟩ := tick_sent env hticks
    exact Or.inr (Or.inr ⟨0, _, hagain, hticks', by simp [htick, hsent]⟩)
  · refine Or.inl ⟨_, _, hdone, ne_nil_of_length_pos (hpos.trans_le hle), ?_⟩
    rw [sendEntries_sent hne hcount (hlen ▸ hle), hsent, hall, hlen, take_length]
  · obtain ⟨htick, hticks'⟩ :=
      @tick_sent ((d.flushTicks wb).sendEntries wb poh entries (batches.take n)) env hticks
    refine Or.inr (Or.inr ⟨n, _, hagain, hticks', ?_⟩)
    rw [htick, sendEntries_sent hne hcount (hlen ▸ hle), hsent]

/-- The loop sends the batches in order; if it ends well it sends them all, and there are some. -/
theorem recordLoop_sent (h : d.TicksOnly) (hne : ∀ batch ∈ batches, batch ≠ [])
    (hlen : mixins.length = batches.length) :
    ∃ k, (recordLoop env bankId d mixins batches).2.sentBatches =
        d.sentBatches ++ batches.take k ∧
      ∀ n, (recordLoop env bankId d mixins batches).1 = .ok n →
        mixins ≠ [] ∧ batches.length ≤ k := by
  fun_induction recordLoop env bankId d mixins batches with
  | case1 d mixins batches result d' hround =>
    rcases recordRound_sent h hne hlen with ⟨n, e, hr, hmixins, hsent⟩ |
      ⟨err, e, hr, hsent⟩ | ⟨k, e, hr, -⟩
    · cases hround.symm.trans hr
      exact ⟨batches.length, by rw [hsent, take_length], fun _ _ => ⟨hmixins, le_rfl⟩⟩
    · cases hround.symm.trans hr
      exact ⟨0, by rw [hsent, take_zero, append_nil], fun _ h => by cases h⟩
    · cases hround.symm.trans hr
  | case2 d mixins batches d' mixins' batches' hround ih =>
    rcases recordRound_sent h hne hlen with ⟨n, e, hr, -⟩ | ⟨err, e, hr, -⟩ |
      ⟨k, e, hr, hticks, hsent⟩
    · cases hround.symm.trans hr
    · cases hround.symm.trans hr
    · cases hround.symm.trans hr
      obtain ⟨k', hsent', hall⟩ := ih hticks (fun b hb => hne b (mem_of_mem_drop hb))
        (by rw [length_drop, length_drop, hlen])
      refine ⟨k + k', ?_, fun n hn => ?_⟩
      · rw [hsent', hsent, append_assoc, ← take_add]
      · obtain ⟨hmixins, hle⟩ := hall n hn
        rw [length_drop] at hle
        exact ⟨fun h => hmixins (by rw [h, drop_nil]), by omega⟩

/-- `record` sends all batches, one entry each and in order, or returns an error and sends none. -/
theorem record_all_or_nothing (env : Env) (hticks : d.TicksOnly)
    (hlen : mixins.length = batches.length) (hne : ∀ batch ∈ batches, batch ≠ []) :
    ∃ r d', record env d bankId mixins batches = some (r, d') ∧
      ((∃ n, r = .ok n ∧ d'.workingBank = d.workingBank ∧
        d'.sentBatches = d.sentBatches ++ batches) ∨
      ∃ e, r = .error e ∧ d'.sentBatches = d.sentBatches) := by
  rw [record, if_neg (not_not.mpr hlen), if_neg (not_any_isEmpty hne)]
  refine ⟨_, _, rfl, ?_⟩
  cases hwb : d.workingBank with
  | none => exact Or.inr ⟨_, rfl, rfl⟩
  | some wb =>
    dsimp only
    split_ifs with htotal
    · exact Or.inr ⟨_, rfl, rfl⟩
    obtain ⟨k, hsent, hall⟩ := @recordLoop_sent env d bankId batches mixins hticks hne hlen
    by_cases hnil : mixins = []
    · -- nothing to record: the loop ticks until the bank is over
      have hbatches : batches = [] := length_eq_zero_iff.mp (by rw [← hlen, hnil]; rfl)
      cases hr : (recordLoop env bankId d mixins batches).1 with
      | ok n => exact absurd hnil (hall n hr).1
      | error e => exact Or.inr ⟨e, rfl, by rw [hsent, hbatches, take_nil, append_nil]⟩
    rcases recordRound_cases env bankId d mixins batches with ⟨wb', hopen, -⟩ | ⟨-, e, heq⟩
    · cases hwb.symm.trans hopen.bank
      have hroom : mixins.length ≤ d.room := by
        rw [room_of_open hwb hopen.min hopen.max, hashesLeft]
        rw [totalRemainingHashes, remainingHashes, ← wb.maxTickHeight_eq] at htotal
        omega
      obtain ⟨remaining, d', heq, hkept, -⟩ := recordLoop_of_le_room batches
        (length_pos_iff.mpr hnil) hroom hwb hopen.id
      rw [heq] at hsent hall ⊢
      exact Or.inl ⟨remaining, rfl, hkept, by rw [hsent, take_of_length_le (hall _ rfl).2]⟩
    · -- the first round fails
      have hloop : recordLoop env bankId d mixins batches =
          (.error e, (flushCache env d false).2) := by
        rw [recordLoop]
        split <;> rename_i hround <;> cases heq.symm.trans hround
        rfl
      rw [hloop]
      exact Or.inr ⟨e, rfl, (flushCache_sent env hticks false).1⟩

/-- A recorder with four ticks of two hashes to come. -/
def fourTicks : PohRecorder where
  poh := ⟨0, 0, 2, 2, 0, by decide, by decide, by decide⟩
  startSlot := 0
  tickCache := []
  workingBank := some ⟨⟨0, 1, 4, 8, 4, some 2, 0⟩, 4, 8, rfl⟩
  tickHeight := 4
  leaderFirstTickHeight := some 5
  ticksPerSlot := 4
  sent := []

/-- Two batches on both sides of a tick. -/
theorem record_all_or_nothing_two :
    ∃ r d', record ⟨⟨id, fun a _ => a⟩, fun _ => none⟩ fourTicks 0 [0, 0] [[[]], [[]]] =
        some (r, d') ∧
      ((∃ n, r = .ok n ∧ d'.workingBank = fourTicks.workingBank ∧
        d'.sentBatches = [[[]], [[]]]) ∨ ∃ e, r = .error e ∧ d'.sentBatches = []) :=
  record_all_or_nothing _ (forall_mem_nil _) rfl (by simp)

end PohRecorder

end Salsa.Poh
