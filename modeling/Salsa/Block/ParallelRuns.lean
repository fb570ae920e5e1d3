import Salsa.Block.InOrder

/-!
# Salsa.Block.ParallelRuns — the workers and the block order

The invariant of `execute_and_commit_parallel`: both memories agree with the serial execution
wherever an account stands. An account that a running transaction names stands exactly before
that transaction (`Flight.at_of_covered`).
-/

namespace Salsa.Block

open LockTable Serial Devin List

variable {Key Body : Type} [DecidableEq Key] {engine : Engine Key Body}
  {txs : List (Transaction Key Body)}

/-! ## Where the ranges are -/

/-- The scheduler is in order, and every outstanding range is with one worker or
in the finish channel. -/
structure Flight (txs : List (Transaction Key Body)) (s : St engine) : Prop where
  sched : Ordered txs s.sched
  places : (s.chunks.map Chunk.range ++ s.finishes.map Prod.fst).Perm s.sched.outstanding

/-- The chunk's effect on the account is at the place. -/
def Pc.Wrote : Place → Pc engine → Key → Prop
  | .overrides, .writing .overrides _ todo, k => k ∉ todo.map Prod.fst
  | .overrides, .writing .bank _ _, _ => True
  | .bank, .writing .bank _ todo, k => k ∉ todo.map Prod.fst
  | _, .reporting _, _ => True
  | _, _, _ => False

omit [DecidableEq Key] in
theorem Pc.not_wrote_of_executing {pc : Pc engine} (h : pc.executing = true) (place : Place)
    (k : Key) : ¬ pc.Wrote place k := by
  cases pc with
  | writing _ _ _ => cases h
  | reporting _ => cases h
  | _ => cases place <;> exact id

/-- The transaction's effect on the account is at the place. -/
def Applied (s : St engine) (place : Place) (j : ℕ) (k : Key) : Prop :=
  j ∈ flat s.sched.done ∨ (∃ f ∈ s.finishes, j ∈ f.1) ∨
    ∃ c ∈ s.chunks, j ∈ c.range ∧ c.pc.Wrote place k

variable {s s' : St engine} {pre post : List (Chunk engine)} {chunk : Chunk engine} {place : Place}
  {k : Key} {j : ℕ}

namespace Flight

theorem mem_outstanding_of_chunk (hf : Flight txs s) {c : Chunk engine}
    (hc : c ∈ s.chunks) : c.range ∈ s.sched.outstanding :=
  hf.places.mem_iff.mp (mem_append_left _ (mem_map_of_mem hc))

theorem mem_outstanding_of_finish (hf : Flight txs s)
    {f : Range × List CommitTransactionDetails} (h : f ∈ s.finishes) : f.1 ∈ s.sched.outstanding :=
  hf.places.mem_iff.mp (mem_append_right _ (mem_map_of_mem h))

section

variable (hf : Flight txs s)
include hf

theorem popped_of_applied
    (h : Applied s place j k) : j ∈ flat s.sched.outstanding ++ flat s.sched.done := by
  rw [mem_append]
  rcases h with hdone | ⟨f, hmem, hj⟩ | ⟨c, hmem, hj, -⟩
  · exact Or.inr hdone
  · exact Or.inl (mem_flat.mpr ⟨f.1, hf.mem_outstanding_of_finish hmem, hj⟩)
  · exact Or.inl (mem_flat.mpr ⟨c.range, hf.mem_outstanding_of_chunk hmem, hj⟩)

section

variable (hchunks : s.chunks = pre ++ chunk :: post) {i : ℕ}
include hchunks

theorem places_cons :
    (chunk.range :: ((pre ++ post).map Chunk.range ++ s.finishes.map Prod.fst)).Perm
      s.sched.outstanding := by
  refine List.Perm.trans ?_ hf.places
  rw [hchunks, map_append, map_append, map_cons, append_assoc, append_assoc]
  exact perm_middle.symm

/-- A transaction of a chunk is in no other chunk and in no finished range. -/
theorem alone (hj : j ∈ chunk.range) :
    (∀ c ∈ pre ++ post, j ∉ c.range) ∧ ∀ f ∈ s.finishes, j ∉ f.1 := by
  have hnodup : (flat s.sched.outstanding).Nodup := by
    have hall := hf.sched.inv.partition.nodup_iff.mpr nodup_range
    exact (nodup_append.mp (nodup_append.mp hall).1).2.1
  rw [← (flat_perm (hf.places_cons hchunks)).nodup_iff] at hnodup
  have hapart := (nodup_append.mp hnodup).2.2 j (Range.mem_toList.mpr hj)
  refine ⟨fun c hc hjc => hapart j ?_ rfl, fun f hfin hjf => hapart j ?_ rfl⟩
  · exact mem_flat.mpr ⟨c.range, mem_append_left _ (mem_map_of_mem hc), hjc⟩
  · exact mem_flat.mpr ⟨f.1, mem_append_right _ (mem_map_of_mem hfin), hjf⟩

theorem mem_flat_outstanding (hi : i ∈ chunk.range) : i ∈ flat s.sched.outstanding :=
  mem_flat.mpr ⟨chunk.range, hf.mem_outstanding_of_chunk (by simp [hchunks]), hi⟩

/-- For a transaction of a chunk, the chunk alone decides what is applied. -/
theorem applied_iff (hj : j ∈ chunk.range) : Applied s place j k ↔ chunk.pc.Wrote place k := by
  obtain ⟨hother, hfinish⟩ := hf.alone hchunks hj
  constructor
  · rintro (hdone | ⟨f, hmem, hjf⟩ | ⟨c, hmem, hjc, hw⟩)
    · exact absurd hdone (hf.sched.inv.not_mem_done (hf.mem_flat_outstanding hchunks hj))
    · exact absurd hjf (hfinish f hmem)
    · rw [hchunks, mem_append, mem_cons] at hmem
      rcases hmem with hmem | rfl | hmem
      · exact absurd hjc (hother c (mem_append_left _ hmem))
      · exact hw
      · exact absurd hjc (hother c (mem_append_right _ hmem))
  · intro hw
    exact Or.inr (Or.inr ⟨chunk, by simp [hchunks], hj, hw⟩)

theorem apart : Apart txs chunk.range := by
  intro i hi j hj hne
  exact not_conflictAt_of_outstanding hf.sched.locks (hf.mem_flat_outstanding hchunks hi)
    (hf.mem_flat_outstanding hchunks hj) hne

/-! ## Where the accounts stand -/

/-- The earlier writers of an account that a running transaction names are done. -/
theorem applied_of_lt {i j : ℕ} (hi : i ∈ chunk.range) (hcov : Covered txs i k)
    (hji : j < i) (hw : WritesAt txs j k) : Applied s place j k := by
  rcases hcov with ht | hnone
  · refine Or.inl (hf.sched.order j i hji ?_ ⟨k, hw.touches, ht, Or.inl hw⟩)
    exact mem_append_left _ (hf.mem_flat_outstanding hchunks hi)
  · exact absurd hw (hnone j)

/-- The later ones have not been popped. -/
theorem not_applied_of_lt {i j : ℕ} (hi : i ∈ chunk.range) (hcov : Covered txs i k)
    (hij : i < j) (hw : WritesAt txs j k) : ¬ Applied s place j k := by
  rcases hcov with ht | hnone
  · intro happ
    exact hf.sched.inv.not_mem_done (hf.mem_flat_outstanding hchunks hi)
      (hf.sched.order i j hij (hf.popped_of_applied happ) ⟨k, ht, hw.touches, Or.inr hw⟩)
  · exact absurd hw (hnone j)

/-- Until its chunk writes it, an account stands before the transaction. -/
theorem at_of_covered (hi : i ∈ chunk.range) (hcov : Covered txs i k)
    (hnot : ¬ chunk.pc.Wrote place k) : At (WritesAt txs) (Applied s place) i k := by
  refine ⟨fun j hji hw => hf.applied_of_lt hchunks hi hcov hji hw, fun j hij hw => ?_⟩
  rcases Nat.eq_or_lt_of_le hij with rfl | hlt
  · rw [hf.applied_iff hchunks hi]
    exact hnot
  · exact hf.not_applied_of_lt hchunks hi hcov hlt hw

/-- From then on it stands behind it. -/
theorem at_succ (hi : i ∈ chunk.range) (hw : WritesAt txs i k)
    (hwrote : chunk.pc.Wrote place k) : At (WritesAt txs) (Applied s place) (i + 1) k := by
  have hcov : Covered txs i k := Or.inl hw.touches
  refine ⟨fun j hji hwj => ?_, fun j hij hwj => hf.not_applied_of_lt hchunks hi hcov hij hwj⟩
  rcases Nat.eq_or_lt_of_le (Nat.lt_succ_iff.mp hji) with rfl | hlt
  · exact (hf.applied_iff hchunks hi).mpr hwrote
  · exact hf.applied_of_lt hchunks hi hcov hlt hwj

end

end

end Flight

/-! ## What a worker's step does to an account -/

variable [Inhabited Key] {bank : Accounts Key}

/-- How an account at a place shows the account of the serial bank. -/
def Shows : Place → Option (Account Key) → Option (Account Key) → Prop
  | .bank, mine, serial => mine = serial
  | .overrides, mine, serial => ∀ account, mine = some account →
      account.live = serial.bind Account.live

omit [DecidableEq Key] in
theorem shows_entry (place : Place) (account : Account Key) :
    Shows place (some (Memory.entry place account)) (some account) := by
  cases place with
  | bank => rfl
  | overrides =>
    intro written h
    obtain rfl := Option.some.inj h
    exact Memory.live_entry .overrides account

section

variable (engine txs bank)

/-- The account goes past the transaction of the range that writes it; where none
does, it stays. -/
def Advances (range : Range) (place : Place) (k : Key) (mine mine' : Option (Account Key)) : Prop :=
  (∃ i ∈ range, WritesAt txs i k ∧
    (Shows place mine (bankAt engine txs bank i k) →
      Shows place mine' (bankAt engine txs bank (i + 1) k))) ∨
  (mine' = mine ∧ ∀ i ∈ range, ¬ WritesAt txs i k)

end

variable {range : Range} {memory memory' : Memory Key} {pc pc' : Pc engine}
  {mine : Option (Account Key)}

/-- When a chunk starts to write at a place, only the accounts it stores are
left to do. -/
theorem start_writing {results : List (TransactionProcessingResult Key)}
    (hlen : range.start + results.length = range.stop)
    (hresults : Tracks (resultAt engine txs bank) range.start results) (place : Place)
    (k : Key) (mine : Option (Account Key)) :
    (mine = mine ∧ (k ∉ (collectAccountsToStore (chunkOf txs range) results).map
      Prod.fst ↔ False)) ∨
    (¬ False ∧ k ∉ (collectAccountsToStore (chunkOf txs range) results).map Prod.fst ∧
      Advances engine txs bank range place k mine mine) := by
  by_cases hk : k ∈ (collectAccountsToStore (chunkOf txs range) results).map Prod.fst
  · exact Or.inl ⟨rfl, iff_of_false (fun hw => hw hk) id⟩
  · refine Or.inr ⟨id, hk, ?_⟩
    by_cases hex : ∃ i ∈ range, WritesAt txs i k
    · obtain ⟨i, hi, hw⟩ := hex
      refine Or.inl ⟨i, hi, hw, ?_⟩
      rw [bankAt_succ_of_not_stores fun account hstores => hk (mem_map_of_mem
        ((mem_collectAccountsToStore hlen hresults).mpr ⟨i, hi, hstores⟩))]
      exact id
    · push Not at hex
      exact Or.inr ⟨rfl, hex⟩

/-- A step leaves an account alone at a place, or brings the chunk's effect on it
there. -/
theorem WorkStep.effect (h : WorkStep engine txs range memory pc memory' pc')
    (hok : PcOk engine txs bank range pc) (hok' : PcOk engine txs bank range pc')
    (place : Place) (k : Key) :
    (memory'.get place k = memory.get place k ∧ (pc'.Wrote place k ↔ pc.Wrote place k)) ∨
    (¬ pc.Wrote place k ∧ pc'.Wrote place k ∧
      Advances engine txs bank range place k (memory.get place k) (memory'.get place k)) := by
  cases h with
  -- a retry throws away what was computed, and nothing was written yet
  | prepare hpc htx =>
    refine Or.inl ⟨rfl, ?_⟩
    exact iff_of_false (Pc.not_wrote_of_executing rfl place k)
      (Pc.not_wrote_of_executing hpc place k)
  -- from here on the accounts the chunk does not store count as written
  | processLast hlast htx hsnoc hunused =>
    obtain ⟨hlen, hresults, -, -⟩ := hok'
    cases place with
    | bank => exact Or.inl ⟨rfl, Iff.rfl⟩
    | overrides => exact start_writing hlen hresults .overrides k _
  | @write place₀ results k₀ account todo =>
    obtain ⟨-, -, hnodup, hstores⟩ := hok
    rw [map_cons, nodup_cons] at hnodup
    -- the account leaves the list of one place; at the other nothing happens
    by_cases hplace : place = place₀
    · subst hplace
      rw [Memory.get_put_self, Function.update_apply]
      split
      · rename_i hk
        subst hk
        obtain ⟨i, hi, hstored⟩ := hstores _ mem_cons_self
        refine Or.inr ⟨?_, ?_, Or.inl ⟨i, hi, hstored.writesAt, ?_⟩⟩
        · cases place <;> exact fun hw => hw mem_cons_self
        · cases place <;> exact hnodup.1
        · rw [hstored.bankAt_succ]
          exact fun _ => shows_entry place account
      · rename_i hk
        refine Or.inl ⟨rfl, ?_⟩
        have hiff : k ∉ todo.map Prod.fst ↔ k ∉ ((k₀, account) :: todo).map Prod.fst := by
          simp [hk]
        cases place <;> exact hiff
    · refine Or.inl ⟨by rw [Memory.get_put_of_ne _ hplace], ?_⟩
      cases place <;> cases place₀ <;> first | exact Iff.rfl | exact absurd rfl hplace
  -- the overrides are complete, the bank is started
  | commit =>
    obtain ⟨hlen, hresults, -, -⟩ := hok
    cases place with
    | overrides => exact Or.inl ⟨rfl, iff_of_true trivial not_mem_nil⟩
    | bank =>
      rw [accountsToCommit_eq]
      exact start_writing hlen hresults .bank k _
  | committed hstatuses =>
    refine Or.inl ⟨rfl, iff_of_true ?_ ?_⟩
    · cases place <;> exact trivial
    · cases place with
      | overrides => exact trivial
      | bank => exact not_mem_nil
  | _ => exact Or.inl ⟨rfl, by cases place <;> exact Iff.rfl⟩

/-! ## The invariant -/

/-- The joint invariant of the loop, the workers and the shared memory. -/
structure Inv (engine : Engine Key Body) (txs : List (Transaction Key Body))
    (bank : Accounts Key) (s : St engine) : Prop where
  flight : Flight txs s
  chunks : ∀ c ∈ s.chunks, PcOk engine txs bank c.range c.pc
  finishes : ∀ f ∈ s.finishes, f.1.start + f.2.length = f.1.stop ∧
    Tracks (detailAt engine txs bank) f.1.start f.2
  length : s.details.length = txs.length
  details : ∀ i ∈ flat s.sched.done, s.details[i]? = detailAt engine txs bank i
  memory : ∀ place, Agrees (applyAt engine txs) bank (WritesAt txs)
    (Shows place) (s.memory.get place) (Applied s place)

theorem inv_start : Inv engine txs bank (start engine txs bank) where
  flight := ⟨ordered_start txs, List.Perm.refl _⟩
  chunks := fun _ hc => absurd hc not_mem_nil
  finishes := fun _ hf => absurd hf not_mem_nil
  length := length_replicate
  details := fun _ hi => absurd hi not_mem_nil
  memory := by
    intro place
    refine agrees_start frame ?_ ?_
    · intro k
      cases place with
      | bank => rfl
      | overrides =>
        intro account h
        cases h
    · rintro j k (h | ⟨f, h, -⟩ | ⟨c, h, -⟩) <;> exact absurd h not_mem_nil

/-- While a chunk executes, the shared memory shows its transactions what they
find in block order. -/
theorem Inv.finds (hi : Inv engine txs bank s) (hchunks : s.chunks = pre ++ chunk :: post)
    (hexec : chunk.pc.executing = true) : Finds engine txs bank chunk.range s.memory := by
  intro i hmem k hcov
  have hat : ∀ place, At (WritesAt txs) (Applied s place) i k := fun place =>
    hi.flight.at_of_covered hchunks hmem hcov (Pc.not_wrote_of_executing hexec place k)
  rw [viewAt_eq]
  constructor
  · have hbank : s.memory.bank k = bankAt engine txs bank i k := hi.memory .bank k i (hat .bank)
    rw [getAccountSharedData, hbank]
    rfl
  · exact hi.memory .overrides k i (hat .overrides)

/-! ### The steps of the loop -/

variable {sched' : Devin.St Key}

theorem inv_pop (hi : Inv engine txs bank s) (hreads : ReadsCount txs)
    (h : Devin.Step txs s.sched (.pop (some range)) sched') :
    Inv engine txs bank { s with
      sched := sched'
      nextWorker := (s.nextWorker + 1) % numThreads
      chunks := s.chunks ++ [⟨range, s.nextWorker, .queued⟩] } := by
  have hordered := ordered_step h hreads hi.flight.sched
  cases h with
  | pop _ d' hpop =>
    refine ⟨⟨hordered, ?_⟩, ?_, hi.finishes, hi.length, hi.details, fun place => ?_⟩
    -- the new range is outstanding, and at a worker
    · show (map Chunk.range (s.chunks ++ [⟨range, s.nextWorker, .queued⟩]) ++ _).Perm
        (s.sched.outstanding ++ [range])
      rw [map_append, append_assoc]
      refine (List.Perm.append_left _ perm_append_comm).trans ?_
      rw [← append_assoc]
      exact hi.flight.places.append_right _
    · exact forall_mem_append.mpr ⟨hi.chunks, forall_mem_singleton.mpr trivial⟩
    · refine (hi.memory place).congr fun j k => ?_
      simp only [Applied, mem_append, mem_singleton]
      constructor
      · rintro (hd | hf | ⟨c, hc | rfl, hj, hw⟩)
        · exact Or.inl hd
        · exact Or.inr (Or.inl hf)
        · exact Or.inr (Or.inr ⟨c, hc, hj, hw⟩)
        -- the new chunk has written nothing
        · exact absurd hw (Pc.not_wrote_of_executing rfl place k)
      · rintro (hd | hf | ⟨c, hc, hj, hw⟩)
        · exact Or.inl hd
        · exact Or.inr (Or.inl hf)
        · exact Or.inr (Or.inr ⟨c, Or.inl hc, hj, hw⟩)

theorem inv_popNone (hi : Inv engine txs bank s) (hreads : ReadsCount txs)
    (h : Devin.Step txs s.sched (.pop none) sched') :
    Inv engine txs bank { s with sched := sched' } := by
  have hordered := ordered_step h hreads hi.flight.sched
  cases h with
  | pop _ d' hpop =>
    refine ⟨⟨hordered, ?_⟩, hi.chunks, hi.finishes, hi.length, hi.details, hi.memory⟩
    show (_ : List Range).Perm (s.sched.outstanding ++ [])
    rw [append_nil]
    exact hi.flight.places

theorem length_storeDetails (details statuses : List CommitTransactionDetails) (i : ℕ) :
    (storeDetails details i statuses).length = details.length := by
  induction statuses generalizing details i with
  | nil => rfl
  | cons status statuses ih => rw [storeDetails, ih, length_set]

variable {statuses : List CommitTransactionDetails}

/-- Outside the range the reports stay. -/
theorem getElem?_storeDetails_of_not_mem (details : List CommitTransactionDetails) {start i : ℕ}
    (h : i < start ∨ start + statuses.length ≤ i) :
    (storeDetails details start statuses)[i]? = details[i]? := by
  induction statuses generalizing details start with
  | nil => rfl
  | cons status statuses ih =>
    rw [length_cons] at h
    rw [storeDetails, ih _ (by omega), getElem?_set_ne (by omega)]

/-- Inside it they are the ones sent. -/
theorem getElem?_storeDetails_of_lt {details statuses : List CommitTransactionDetails} {start n : ℕ}
    (hn : n < statuses.length) (hlen : start + statuses.length ≤ details.length) :
    (storeDetails details start statuses)[start + n]? = statuses[n]? := by
  induction statuses generalizing details start n with
  | nil => exact absurd hn (Nat.not_lt_zero n)
  | cons status statuses ih =>
    rw [length_cons] at hn hlen
    rw [storeDetails]
    cases n with
    | zero =>
      show (storeDetails (details.set start status) (start + 1) statuses)[start]? = some status
      rw [getElem?_storeDetails_of_not_mem _ (Or.inl (Nat.lt_add_one start)),
        getElem?_set_self (by omega)]
    | succ n =>
      have hplace : start + (n + 1) = start + 1 + n := by omega
      rw [hplace, ih (by omega) (by rw [length_set]; omega), getElem?_cons_succ]

/-- The reports of a finished range are stored at its places, and no other range
has those places. -/
theorem Inv.details_finish (hi : Inv engine txs bank s) (hmem : (range, statuses) ∈ s.finishes) :
    ∀ i ∈ flat (s.sched.done ++ [range]),
      (storeDetails s.details range.start statuses)[i]? = detailAt engine txs bank i := by
  obtain ⟨hlen, hstatuses⟩ := hi.finishes (range, statuses) hmem
  simp only at hlen hstatuses
  have hout : ∀ i ∈ range, i ∈ flat s.sched.outstanding := fun i hir =>
    mem_flat.mpr ⟨range, hi.flight.mem_outstanding_of_finish hmem, hir⟩
  intro i hdone
  rw [flat_append, flat_singleton, mem_append, Range.mem_toList] at hdone
  rcases hdone with hdone | ⟨hlo, hhi⟩
  · -- finished before: not in this range
    have hnot : i ∉ range := fun hir => hi.flight.sched.inv.not_mem_done (hout i hir) hdone
    rw [getElem?_storeDetails_of_not_mem]
    · exact hi.details i hdone
    · by_contra hin
      exact hnot ⟨by omega, by omega⟩
  · obtain ⟨n, rfl⟩ := Nat.exists_eq_add_of_le hlo
    have hlast := hi.flight.sched.inv.flat_lt_length (range.stop - 1) (hout _ ⟨by omega, by omega⟩)
    have hn : n < statuses.length := by omega
    rw [getElem?_storeDetails_of_lt hn (by rw [hi.length]; omega),
      getElem?_eq_getElem hn, hstatuses n _ (getElem?_eq_getElem hn)]

theorem inv_finish {rest : List (Range × List CommitTransactionDetails)}
    (hi : Inv engine txs bank s) (hreads : ReadsCount txs)
    (hhead : s.finishes = (range, statuses) :: rest)
    (h : Devin.Step txs s.sched (.finish range) sched') :
    Inv engine txs bank { s with
      sched := sched'
      finishes := rest
      details := storeDetails s.details range.start statuses } := by
  have hordered := ordered_step h hreads hi.flight.sched
  cases h with
  | finish _ d' hmem hfin =>
    refine ⟨⟨hordered, ?_⟩, hi.chunks, fun f hf => hi.finishes f (by simp [hhead, hf]),
      (length_storeDetails _ _ _).trans hi.length, hi.details_finish (by simp [hhead]),
      fun place => ?_⟩
    -- one occurrence of the range leaves both sides
    · have hcons : (range :: (s.chunks.map Chunk.range ++ rest.map Prod.fst)).Perm
          s.sched.outstanding := by
        refine List.Perm.trans ?_ hi.flight.places
        rw [hhead, map_cons]
        exact perm_middle.symm
      have herase := hcons.erase range
      rw [erase_cons_head] at herase
      exact herase
    -- a range moves from the channel to the done ones: applied before and after
    · refine (hi.memory place).congr fun j k => ?_
      simp only [Applied, hhead, flat_append, flat_singleton, mem_append,
        Range.mem_toList, mem_cons]
      constructor
      · rintro ((hd | hj) | ⟨f, hf, hj⟩ | hc)
        · exact Or.inl hd
        · exact Or.inr (Or.inl ⟨(range, statuses), Or.inl rfl, hj⟩)
        · exact Or.inr (Or.inl ⟨f, Or.inr hf, hj⟩)
        · exact Or.inr (Or.inr hc)
      · rintro (hd | ⟨f, rfl | hf, hj⟩ | hc)
        · exact Or.inl (Or.inl hd)
        · exact Or.inl (Or.inr hj)
        · exact Or.inr (Or.inl ⟨f, hf, hj⟩)
        · exact Or.inr (Or.inr hc)

/-! ### The steps of the workers -/

theorem inv_report (hi : Inv engine txs bank s) (hchunks : s.chunks = pre ++ chunk :: post)
    (hpc : chunk.pc = .reporting statuses) :
    Inv engine txs bank { s with
      chunks := pre ++ post
      finishes := s.finishes ++ [(chunk.range, statuses)] } := by
  have hmem : chunk ∈ s.chunks := by simp [hchunks]
  refine ⟨⟨hi.flight.sched, ?_⟩, ?_, ?_, hi.length, hi.details, fun place => ?_⟩
  · refine List.Perm.trans ?_ (hi.flight.places_cons hchunks)
    have hsent : (s.finishes ++ [(chunk.range, statuses)]).map Prod.fst =
        s.finishes.map Prod.fst ++ [chunk.range] := map_append
    rw [hsent, ← append_assoc]
    exact perm_append_comm
  · intro c hc
    refine hi.chunks c ?_
    rw [hchunks]
    rcases mem_append.mp hc with hc | hc
    · exact mem_append_left _ hc
    · exact mem_append_right _ (mem_cons_of_mem _ hc)
  · refine forall_mem_append.mpr ⟨hi.finishes, forall_mem_singleton.mpr ?_⟩
    have hok := hi.chunks chunk hmem
    rw [hpc] at hok
    exact hok
  -- the chunk had written everything, as a range in the channel has
  · refine (hi.memory place).congr fun j k => ?_
    have hwrote : chunk.pc.Wrote place k := by
      rw [hpc]
      cases place <;> exact trivial
    simp only [Applied, hchunks, mem_append, mem_cons, not_mem_nil, or_false]
    constructor
    · rintro (hd | ⟨f, hf | rfl, hj⟩ | ⟨c, hc, hj, hw⟩)
      · exact Or.inl hd
      · exact Or.inr (Or.inl ⟨f, hf, hj⟩)
      · exact Or.inr (Or.inr ⟨chunk, Or.inr (Or.inl rfl), hj, hwrote⟩)
      · exact Or.inr (Or.inr ⟨c, by tauto, hj, hw⟩)
    · rintro (hd | ⟨f, hf, hj⟩ | ⟨c, hc | rfl | hc, hj, hw⟩)
      · exact Or.inl hd
      · exact Or.inr (Or.inl ⟨f, Or.inl hf, hj⟩)
      · exact Or.inr (Or.inr ⟨c, Or.inl hc, hj, hw⟩)
      · exact Or.inr (Or.inl ⟨_, Or.inr rfl, hj⟩)
      · exact Or.inr (Or.inr ⟨c, Or.inr hc, hj, hw⟩)

omit [DecidableEq Key] [Inhabited Key] in
/-- A worker's step changes what is applied for the transactions of its chunk
only. -/
theorem applied_work (hchunks : s.chunks = pre ++ chunk :: post)
    (hwrote : j ∈ chunk.range → (pc'.Wrote place k ↔ chunk.pc.Wrote place k)) :
    Applied { s with chunks := pre ++ { chunk with pc := pc' } :: post, memory := memory' }
      place j k ↔ Applied s place j k := by
  simp only [Applied, hchunks, mem_append, mem_cons]
  constructor
  · rintro (hd | hfin | ⟨c, hc | rfl | hc, hj, hw⟩)
    · exact Or.inl hd
    · exact Or.inr (Or.inl hfin)
    · exact Or.inr (Or.inr ⟨c, Or.inl hc, hj, hw⟩)
    · exact Or.inr (Or.inr ⟨chunk, Or.inr (Or.inl rfl), hj, (hwrote hj).mp hw⟩)
    · exact Or.inr (Or.inr ⟨c, Or.inr (Or.inr hc), hj, hw⟩)
  · rintro (hd | hfin | ⟨c, hc | rfl | hc, hj, hw⟩)
    · exact Or.inl hd
    · exact Or.inr (Or.inl hfin)
    · exact Or.inr (Or.inr ⟨c, Or.inl hc, hj, hw⟩)
    · exact Or.inr (Or.inr ⟨_, Or.inr (Or.inl rfl), hj, (hwrote hj).mpr hw⟩)
    · exact Or.inr (Or.inr ⟨c, Or.inr (Or.inr hc), hj, hw⟩)

theorem inv_work (hi : Inv engine txs bank s)
    (hcov : LoadsCovered engine txs bank) (hchunks : s.chunks = pre ++ chunk :: post)
    (h : WorkStep engine txs chunk.range s.memory chunk.pc memory' pc') :
    Inv engine txs bank { s with
      chunks := pre ++ { chunk with pc := pc' } :: post
      memory := memory' } := by
  have hmem : chunk ∈ s.chunks := by simp [hchunks]
  have hok := hi.chunks chunk hmem
  have hne : chunk.range.start < chunk.range.stop := hi.flight.sched.inv.nonempty _
    (mem_append_left _ (hi.flight.mem_outstanding_of_chunk hmem))
  have hok' : PcOk engine txs bank chunk.range pc' :=
    h.pcOk hcov hne (hi.flight.apart hchunks) (hi.finds hchunks) hok
  have hflight : Flight txs { s with
      chunks := pre ++ { chunk with pc := pc' } :: post
      memory := memory' } := by
    refine ⟨hi.flight.sched, ?_⟩
    have hplaces := hi.flight.places
    simp only [hchunks, map_append, map_cons] at hplaces ⊢
    exact hplaces
  refine ⟨hflight, ?_, hi.finishes, hi.length, hi.details, fun place => ?_⟩
  · intro c hc
    rcases mem_append.mp hc with hc | hc
    · exact hi.chunks c (by simp [hchunks, hc])
    · rcases mem_cons.mp hc with rfl | hc
      · exact hok'
      · exact hi.chunks c (by simp [hchunks, hc])
  · refine (hi.memory place).step frame fun k => ?_
    rcases h.effect hok hok' place k with ⟨hget, hwrote⟩ | ⟨hnot, hwrote, hadv⟩
    · exact Or.inl ⟨hget, fun j _ => applied_work hchunks fun _ => hwrote⟩
    · rcases hadv with ⟨i, hir, hw, hshows⟩ | ⟨hget, hnone⟩
      · -- the account goes past transaction `i`
        exact Or.inr ⟨i, hi.flight.at_of_covered hchunks hir (Or.inl hw.touches) hnot,
          hflight.at_succ rfl hir hw hwrote, hshows⟩
      · refine Or.inl ⟨hget, fun j hw => applied_work hchunks fun hj => ?_⟩
        exact absurd hw (hnone j hj)

/-! ### Runs -/

theorem inv_step {a : Act} (h : Step engine txs s a s') (hreads : ReadsCount txs)
    (hcov : LoadsCovered engine txs bank) (hi : Inv engine txs bank s) :
    Inv engine txs bank s' := by
  cases h with
  | pop hloop h => exact inv_pop hi hreads h
  | popNone hloop h => exact inv_popNone hi hreads h
  | work hchunks hworker h => exact inv_work hi hcov hchunks h
  | report hchunks hworker hpc => exact inv_report hi hchunks hpc
  | finish hloop hhead h => exact inv_finish hi hreads hhead h

theorem inv_run {tr : List Act} (hreads : ReadsCount txs) (hcov : LoadsCovered engine txs bank)
    (h : (sys engine txs bank).Run (start engine txs bank) tr s) :
    Inv engine txs bank s :=
  h.inv (Inv engine txs bank) inv_start fun _ _ _ hstep => inv_step hstep hreads hcov

end Salsa.Block
