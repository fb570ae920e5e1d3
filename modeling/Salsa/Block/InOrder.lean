import Salsa.Block.Parallel

/-!
# Salsa.Block.InOrder — the block in order, transaction by transaction

The serial side of the comparison, an instance of `Serial.serial`, and what a chunk in
mid-course has to do with it (`PcOk`).
-/

namespace Salsa.Block

open LockTable Serial Devin List Option

variable {Key Body : Type} [DecidableEq Key] [Inhabited Key]

/-! ## The serial execution by index -/

def applyAt (engine : Engine Key Body) (txs : List (Transaction Key Body)) (i : ℕ)
    (bank : Accounts Key) : Accounts Key :=
  (txs[i]?).elim bank (executeAndCommit engine bank)

/-- The transaction at an index names the account as writable. -/
def WritesAt (txs : List (Transaction Key Body)) (i : ℕ) (k : Key) : Prop :=
  Writes (accessAt txs i) k

section

variable (engine : Engine Key Body) (txs : List (Transaction Key Body)) (bank : Accounts Key)

def bankAt (i : ℕ) : Accounts Key := serial (applyAt engine txs) bank i

/-- What the check of a transaction gives in block order. -/
def checkAt (i : ℕ) : Option (Except TransactionError engine.Checked) :=
  (txs[i]?).map fun tx => (engine.checkTransaction tx).eval (viewAt engine txs bank i)

/-- What a transaction's processing gives in block order. -/
def resultAt (i : ℕ) : Option (TransactionProcessingResult Key) :=
  (txs[i]?).map (executeTransaction engine (bankAt engine txs bank i))

/-- What is reported of a transaction in block order. -/
def detailAt (i : ℕ) : Option CommitTransactionDetails :=
  (resultAt engine txs bank i).map commitDetails

def StoresAt (i : ℕ) (e : Key × Account Key) : Prop :=
  ∃ tx, txs[i]? = some tx ∧
    e ∈ collectAccounts tx (executeTransaction engine (bankAt engine txs bank i) tx)

end

variable {engine : Engine Key Body} {txs : List (Transaction Key Body)} {bank : Accounts Key}
  {i : ℕ} {tx : Transaction Key Body} {range : Range}
  {results : List (TransactionProcessingResult Key)} {k : Key} {entries : List (Key × Account Key)}
  {e : Key × Account Key} {account : Account Key} {n : ℕ}

omit [DecidableEq Key] [Inhabited Key] in
theorem accessAt_of_getElem? (h : txs[i]? = some tx) : accessAt txs i = tx.accounts := by
  simp [accessAt, h, TransactionWithMeta.accounts]

theorem frame : Frame (applyAt engine txs) (WritesAt txs) := by
  intro i σ k hw
  unfold applyAt
  cases htx : txs[i]? with
  | none => rfl
  | some tx =>
    rw [WritesAt, accessAt_of_getElem? htx] at hw
    exact executeAndCommit_of_not_writes engine σ tx hw

theorem bankAt_succ (h : txs[i]? = some tx) :
    bankAt engine txs bank (i + 1) = executeAndCommit engine (bankAt engine txs bank i) tx := by
  simp [bankAt, serial, applyAt, h]

/-- A stored account is the account of the next bank. -/
theorem StoresAt.bankAt_succ (h : StoresAt engine txs bank i (k, account)) :
    bankAt engine txs bank (i + 1) k = some account := by
  obtain ⟨tx, htx, hmem⟩ := h
  rw [Block.bankAt_succ htx]
  exact insertAll_of_mem (executeTransaction_nodup engine _ tx) hmem

theorem StoresAt.writesAt (h : StoresAt engine txs bank i e) : WritesAt txs i e.1 := by
  obtain ⟨tx, htx, hmem⟩ := h
  rw [WritesAt, accessAt_of_getElem? htx]
  exact executeTransaction_writes engine _ tx e hmem

/-- An account that is not stored stays. -/
theorem bankAt_succ_of_not_stores (h : ∀ account, ¬ StoresAt engine txs bank i (k, account)) :
    bankAt engine txs bank (i + 1) k = bankAt engine txs bank i k := by
  cases htx : txs[i]? with
  | none => simp only [bankAt, serial, applyAt, htx, elim_none]
  | some tx =>
    rw [bankAt_succ htx]
    refine insertAll_of_not_mem ?_
    intro hmem
    obtain ⟨⟨k', account⟩, he, rfl⟩ := mem_map.mp hmem
    exact h account ⟨tx, htx, he⟩

/-! ## `executeInOrder` -/

theorem executeInOrder_append (txs txs' : List (Transaction Key Body)) :
    (executeInOrder engine bank (txs ++ txs')).1 =
      (executeInOrder engine (executeInOrder engine bank txs).1 txs').1 := by
  induction txs generalizing bank with
  | nil => rfl
  | cons tx txs ih => exact ih

/-- The bank before a transaction is that of the block up to it. -/
theorem executeInOrder_take (i : ℕ) :
    (executeInOrder engine bank (txs.take i)).1 = bankAt engine txs bank i := by
  induction i with
  | zero => rfl
  | succ i ih =>
    rw [take_add_one, executeInOrder_append, ih]
    cases htx : txs[i]? with
    | none =>
      simp only [bankAt, serial, applyAt, htx, elim_none]
      rfl
    | some tx =>
      rw [bankAt_succ htx]
      rfl

theorem viewAt_eq (i : ℕ) :
    viewAt engine txs bank i = getAccountSharedData (bankAt engine txs bank i) := by
  rw [viewAt, executeInOrder_take]

theorem executeInOrder_fst :
    (executeInOrder engine bank txs).1 = bankAt engine txs bank txs.length := by
  rw [← executeInOrder_take, take_length]

/-- The reports are those of the transactions, in order. -/
theorem executeInOrder_snd (i : ℕ) :
    (executeInOrder engine bank txs).2[i]? = detailAt engine txs bank i := by
  unfold detailAt resultAt
  rw [← executeInOrder_take]
  induction txs generalizing bank i with
  | nil => rfl
  | cons tx txs ih =>
    cases i with
    | zero => rfl
    | succ i => exact ih i

/-! ## What a chunk stores -/

/-- The list holds the values of `f` from `start` on. -/
def Tracks {α : Type} (f : ℕ → Option α) (start : ℕ) (l : List α) : Prop :=
  ∀ n a, l[n]? = some a → f (start + n) = some a

theorem tracks_nil {α : Type} (f : ℕ → Option α) (start : ℕ) : Tracks f start [] := by
  intro n a h
  simp at h

theorem Tracks.snoc {α : Type} {f : ℕ → Option α} {start : ℕ} {l : List α} {a : α}
    (h : Tracks f start l) (ha : f (start + l.length) = some a) : Tracks f start (l ++ [a]) := by
  intro n b hb
  rcases Nat.lt_trichotomy n l.length with hlt | rfl | hgt
  · rw [getElem?_append_left hlt] at hb
    exact h n b hb
  · rw [getElem?_concat_length] at hb
    rw [ha, hb]
  · rw [getElem?_eq_none (by simp; omega)] at hb
    cases hb

/-- No two transactions of a range conflict. -/
def Apart (txs : List (Transaction Key Body)) (range : Range) : Prop :=
  ∀ i ∈ range, ∀ j ∈ range, i ≠ j → ¬ ConflictAt txs i j

section

omit [DecidableEq Key] [Inhabited Key]

/-- So no two of them name an account that one of them writes. -/
theorem Apart.eq_of_writesAt (h : Apart txs range) {i j : ℕ}
    (hi : i ∈ range) (hj : j ∈ range) (hw : WritesAt txs i k)
    (ht : Touches (accessAt txs j) k) : i = j := by
  by_contra hne
  exact h i hi j hj hne ⟨k, hw.touches, ht, Or.inl hw⟩

theorem getElem?_chunkOf (h : n < range.len) : (chunkOf txs range)[n]? = txs[range.start + n]? := by
  rw [chunkOf, getElem?_take_of_lt h, getElem?_drop]

end

section

variable (hlen : range.start + results.length = range.stop)
  (hresults : Tracks (resultAt engine txs bank) range.start results)
include hlen hresults

/-- The entries of the chunk by the place of their transaction. -/
theorem getElem?_collect
    (h : (zipWith collectAccounts (chunkOf txs range) results)[n]? = some entries) :
    range.start + n ∈ range ∧ ∃ tx, txs[range.start + n]? = some tx ∧
      entries = collectAccounts tx
        (executeTransaction engine (bankAt engine txs bank (range.start + n)) tx) := by
  obtain ⟨tx, result, htx, hresult, rfl⟩ := getElem?_zipWith_eq_some.mp h
  have hlt : n < results.length := (List.getElem?_eq_some_iff.mp hresult).1
  rw [getElem?_chunkOf (by rw [Range.len]; omega)] at htx
  have hsame := hresults n result hresult
  rw [resultAt, htx, map_some, some.injEq] at hsame
  refine ⟨⟨Nat.le_add_right _ _, by omega⟩, tx, htx, ?_⟩
  rw [hsame]

/-- With the serial results, a chunk stores what its transactions store. -/
theorem mem_collectAccountsToStore :
    e ∈ collectAccountsToStore (chunkOf txs range) results ↔
      ∃ i ∈ range, StoresAt engine txs bank i e := by
  rw [collectAccountsToStore, mem_flatten]
  constructor
  · rintro ⟨entries, hmem, he⟩
    obtain ⟨n, hn⟩ := mem_iff_getElem?.mp hmem
    obtain ⟨hi, tx, htx, rfl⟩ := getElem?_collect hlen hresults hn
    exact ⟨range.start + n, hi, tx, htx, he⟩
  · rintro ⟨i, ⟨hlo, hhi⟩, tx, htx, he⟩
    -- the place of the transaction in the chunk
    obtain ⟨n, rfl⟩ := Nat.exists_eq_add_of_le hlo
    have hlt : n < results.length := by omega
    have hresult := hresults n _ (getElem?_eq_getElem hlt)
    rw [resultAt, htx, map_some, some.injEq] at hresult
    refine ⟨_, mem_of_getElem? (i := n) ?_, he⟩
    refine getElem?_zipWith_eq_some.mpr
      ⟨tx, results[n], ?_, getElem?_eq_getElem hlt, by rw [hresult]⟩
    rw [getElem?_chunkOf (by rw [Range.len]; omega)]
    exact htx

/-- Each account is stored once in a chunk without conflicts. -/
theorem nodup_collectAccountsToStore (hapart : Apart txs range) :
    ((collectAccountsToStore (chunkOf txs range) results).map Prod.fst).Nodup := by
  rw [collectAccountsToStore, map_flatten, nodup_flatten]
  constructor
  -- one transaction stores an account once
  · intro keys hkeys
    obtain ⟨entries, hmem, rfl⟩ := mem_map.mp hkeys
    obtain ⟨n, hn⟩ := mem_iff_getElem?.mp hmem
    obtain ⟨-, tx, -, rfl⟩ := getElem?_collect hlen hresults hn
    exact executeTransaction_nodup engine _ tx
  · rw [pairwise_map, pairwise_iff_getElem]
    intro m n hm hn hmn k hkm hkn
    -- two txs of the chunk that store `k` would conflict
    have hwrites : ∀ l (hl : l < (zipWith collectAccounts (chunkOf txs range)
        results).length), k ∈ ((zipWith collectAccounts (chunkOf txs range)
        results)[l]).map Prod.fst →
        range.start + l ∈ range ∧ WritesAt txs (range.start + l) k := by
      intro l hl hk
      obtain ⟨hi, tx, htx, heq⟩ := getElem?_collect hlen hresults (getElem?_eq_getElem hl)
      rw [heq] at hk
      obtain ⟨e, he, rfl⟩ := mem_map.mp hk
      exact ⟨hi, StoresAt.writesAt ⟨tx, htx, he⟩⟩
    obtain ⟨him, hwm⟩ := hwrites m hm hkm
    obtain ⟨hin, hwn⟩ := hwrites n hn hkn
    have := hapart.eq_of_writesAt him hin hwm hwn.touches
    omega

end

/-! ## Chunks in mid-course -/

section

variable (engine txs bank)

/-- To the transactions of the range from place `n` on, what is loaded shows what
they find in block order. -/
def LoadedOk (range : Range) (n : ℕ) (loaded : Accounts Key) : Prop :=
  ∀ i ∈ range, range.start + n ≤ i → ∀ k account, Covered txs i k →
    loaded k = some account → account.live = viewAt engine txs bank i k

/-- The shared memory shows the transactions of the range what they find in block
order. -/
def Finds (range : Range) (memory : Memory Key) : Prop :=
  ∀ i ∈ range, ∀ k, Covered txs i k →
    getAccountSharedData memory.bank k = viewAt engine txs bank i k ∧
    ∀ account, memory.overrides k = some account → account.live = viewAt engine txs bank i k

/-- What a chunk has computed so far is what block order gives, and the reader it
is in will end with what block order gives. -/
def PcOk (range : Range) : Pc engine → Prop
  | .queued => True
  | .checking checks t =>
      range.start + checks.length < range.stop ∧
      Tracks (checkAt engine txs bank) range.start checks ∧
      ∃ checked, checkAt engine txs bank (range.start + checks.length) = some checked ∧
        t.Follows (viewAt engine txs bank (range.start + checks.length)) checked
          (Covered txs (range.start + checks.length))
  | .copying checks loaded =>
      range.start + checks.length = range.stop ∧
      Tracks (checkAt engine txs bank) range.start checks ∧
      LoadedOk engine txs bank range 0 loaded
  | .processing checks loaded results t =>
      range.start + checks.length = range.stop ∧
      Tracks (checkAt engine txs bank) range.start checks ∧
      LoadedOk engine txs bank range results.length loaded ∧
      range.start + results.length < range.stop ∧
      Tracks (resultAt engine txs bank) range.start results ∧
      ∃ tx outcome, txs[range.start + results.length]? = some tx ∧
        resultAt engine txs bank (range.start + results.length) =
          some (processingResult tx outcome) ∧
        t.Follows (fun q => viewAt engine txs bank (range.start + results.length) q.key)
          outcome (fun q => Covered txs (range.start + results.length) q.key)
  | .writing _ results todo =>
      range.start + results.length = range.stop ∧
      Tracks (resultAt engine txs bank) range.start results ∧
      (todo.map Prod.fst).Nodup ∧
      ∀ e ∈ todo, ∃ i ∈ range, StoresAt engine txs bank i e
  | .reporting statuses =>
      range.start + statuses.length = range.stop ∧
      Tracks (detailAt engine txs bank) range.start statuses

end

/-- A check at its beginning. -/
theorem follows_check (hcov : LoadsCovered engine txs bank) (htx : txs[i]? = some tx) :
    ∃ checked, checkAt engine txs bank i = some checked ∧
      (engine.checkTransaction tx).Follows (viewAt engine txs bank i) checked (Covered txs i) := by
  refine ⟨_, ?_, rfl, (hcov i tx htx).1⟩
  rw [checkAt, htx, map_some]

/-- A transaction's processing at its beginning. -/
theorem follows_process (hcov : LoadsCovered engine txs bank)
    (htx : txs[i]? = some tx) {checked : Except TransactionError engine.Checked}
    (hchecked : checkAt engine txs bank i = some checked) :
    ∃ tx' outcome, txs[i]? = some tx' ∧
      resultAt engine txs bank i = some (processingResult tx' outcome) ∧
      (engine.processTransaction tx checked).Follows
        (fun q => viewAt engine txs bank i q.key) outcome
        (fun q => Covered txs i q.key) := by
  rw [checkAt, htx, map_some, some.injEq] at hchecked
  subst hchecked
  refine ⟨tx, _, htx, ?_, rfl, (hcov i tx htx).2⟩
  rw [resultAt, htx, map_some, executeTransaction_eq, ← viewAt_eq]

section

variable {memory memory' : Memory Key} {pc pc' : Pc engine} {loaded : Accounts Key}

section

variable (hfinds : Finds engine txs bank range memory)
  (hloaded : LoadedOk engine txs bank range n loaded)
include hfinds hloaded

/-- A load keeps the loader right: it adds at most what the bank shows. -/
theorem LoadedOk.load {loaded' : Accounts Key} {q : Key}
    (h : ∀ k account, loaded' k = some account → loaded k = some account ∨
      (k = q ∧ account.live = getAccountSharedData memory.bank q)) :
    LoadedOk engine txs bank range n loaded' := by
  intro i hi hle k account hcov hk
  rcases h k account hk with hk | ⟨rfl, hlive⟩
  · exact hloaded i hi hle k account hcov hk
  · rw [hlive]
    exact (hfinds i hi k hcov).1

/-- An override that is copied shows what the transactions find. -/
theorem LoadedOk.copy (h : memory.overrides k = some account) :
    LoadedOk engine txs bank range n (Function.update loaded k (some account)) := by
  intro i hi hle k' account' hcov hk'
  rw [Function.update_apply] at hk'
  split at hk'
  · obtain rfl := some.inj hk'
    rename_i heq
    subst heq
    exact (hfinds i hi k' hcov).2 account h
  · exact hloaded i hi hle k' account' hcov hk'

end

/-- What a transaction of the chunk stores, no later one of the chunk looks at. -/
theorem LoadedOk.insertAll (hapart : Apart txs range)
    (hloaded : LoadedOk engine txs bank range n loaded)
    (hn : range.start + n ∈ range)
    (hentries : ∀ e ∈ entries, WritesAt txs (range.start + n) e.1) :
    LoadedOk engine txs bank range (n + 1) (insertAll loaded entries) := by
  intro i hi hle k account hcov hk
  rcases mem_of_insertAll hk with hk | hmem
  · exact hloaded i hi (by omega) k account hcov hk
  · obtain ⟨e, he, rfl⟩ := mem_map.mp hmem
    have hw := hentries e he
    -- a later transaction that names `k` would conflict with this one;
    -- an account that nobody writes is not among the entries
    rcases hcov with ht | hnone
    · have := hapart.eq_of_writesAt hn hi hw ht
      omega
    · exact absurd hw (hnone _)

variable {checks : List (Except TransactionError engine.Checked)}

/-- A check is answered as in block order. -/
theorem PcOk.check_eq (hfinds : Finds engine txs bank range memory) {next : Option (Account Key) →
      Reader Key (Option (Account Key)) (Except TransactionError engine.Checked)}
    (hok : PcOk engine txs bank range (.checking checks (.read k next))) :
    getAccountSharedData memory.bank k =
      viewAt engine txs bank (range.start + checks.length) k := by
  obtain ⟨hlt, -, _, -, hfollows⟩ := hok
  exact (hfinds _ ⟨Nat.le_add_right _ _, hlt⟩ k hfollows.asks).1

/-- A load is answered as in block order. -/
theorem PcOk.answer_eq (hfinds : Finds engine txs bank range memory) {q : Query Key}
    {next : Option (Account Key) → Reader (Query Key) (Option (Account Key)) (Outcome Key)}
    (hok : PcOk engine txs bank range (.processing checks loaded results (.read q next))) :
    (answer memory.bank loaded q).1 =
      viewAt engine txs bank (range.start + results.length) q.key := by
  obtain ⟨-, -, hloaded, hlt, -, _, _, -, -, hfollows⟩ := hok
  have hi : range.start + results.length ∈ range := ⟨Nat.le_add_right _ _, hlt⟩
  rw [answer_fst]
  refine doLoad_eq ?_ (hfinds _ hi q.key hfollows.asks).1
  exact fun account => hloaded _ hi (Nat.le_refl _) q.key account hfollows.asks

theorem PcOk.checked {checked : Except TransactionError engine.Checked}
    (hok : PcOk engine txs bank range (.checking checks (.done checked))) :
    Tracks (checkAt engine txs bank) range.start (checks ++ [checked]) := by
  obtain ⟨-, hchecks, _, hchecked, hfollows⟩ := hok
  obtain rfl := hfollows.result
  exact hchecks.snoc hchecked

theorem PcOk.processed {outcome : Outcome Key}
    (hok : PcOk engine txs bank range (.processing checks loaded results (.done outcome)))
    (htx : txs[range.start + results.length]? = some tx) :
    Tracks (resultAt engine txs bank) range.start (results ++ [processingResult tx outcome]) := by
  obtain ⟨-, -, -, -, hresults, tx₀, _, htx₀, hresult, hfollows⟩ := hok
  obtain rfl := hfollows.result
  obtain rfl : tx₀ = tx := some.inj (htx₀.symm.trans htx)
  exact hresults.snoc hresult

/-- A chunk that has its results and starts to write. -/
theorem pcOk_writing (hapart : Apart txs range) (hlen : range.start + results.length = range.stop)
    (hresults : Tracks (resultAt engine txs bank) range.start results) (place : Place) :
    PcOk engine txs bank range (.writing place results
      (collectAccountsToStore (chunkOf txs range) results)) :=
  ⟨hlen, hresults, nodup_collectAccountsToStore hlen hresults hapart,
    fun _ he => (mem_collectAccountsToStore hlen hresults).mp he⟩

/-- The reports of a chunk are those of its results. -/
theorem Tracks.commitDetails (h : Tracks (resultAt engine txs bank) n results) :
    Tracks (detailAt engine txs bank) n (results.map commitDetails) := by
  intro m status hm
  rw [getElem?_map] at hm
  obtain ⟨result, hresult, rfl⟩ := map_eq_some_iff.mp hm
  rw [detailAt, h m result hresult, map_some]

/-- Every step of a worker keeps what its chunk has computed right. -/
theorem WorkStep.pcOk (h : WorkStep engine txs range memory pc memory' pc')
    (hcov : LoadsCovered engine txs bank) (hne : range.start < range.stop)
    (hapart : Apart txs range)
    (hfinds : pc.executing = true → Finds engine txs bank range memory)
    (hok : PcOk engine txs bank range pc) : PcOk engine txs bank range pc' := by
  cases h with
  | prepare hpc htx => exact ⟨hne, tracks_nil _ _, follows_check hcov htx⟩
  | check =>
    have hanswer := hok.check_eq (hfinds rfl)
    obtain ⟨hlt, hchecks, checked, hchecked, hfollows⟩ := hok
    exact ⟨hlt, hchecks, checked, hchecked, hfollows.answer hanswer⟩
  | checkNext hlt htx =>
    refine ⟨?_, hok.checked, ?_⟩ <;> rw [length_append, length_singleton, ← Nat.add_assoc]
    · exact hlt
    · exact follows_check hcov htx
  | checkLast hlast =>
    refine ⟨?_, hok.checked, fun i _ _ k account _ hk => nomatch hk⟩
    rw [length_append, length_singleton, ← Nat.add_assoc]
    exact hlast
  | copy k account hk =>
    obtain ⟨hlen, hchecks, hloaded⟩ := hok
    exact ⟨hlen, hchecks, hloaded.copy (hfinds rfl) hk⟩
  | copied htx hchecked =>
    obtain ⟨hlen, hchecks, hloaded⟩ := hok
    exact ⟨hlen, hchecks, hloaded, hne, tracks_nil _ _,
      follows_process hcov htx (hchecks 0 _ hchecked)⟩
  | load =>
    have hanswer := hok.answer_eq (hfinds rfl)
    obtain ⟨hlen, hchecks, hloaded, hlt, hresults, tx, outcome, htx, hresult, hfollows⟩ := hok
    exact ⟨hlen, hchecks, hloaded.load (hfinds rfl) fun k account => answer_snd, hlt, hresults,
      tx, outcome, htx, hresult, hfollows.answer hanswer⟩
  | collect k =>
    obtain ⟨hlen, hchecks, hloaded, hrest⟩ := hok
    exact ⟨hlen, hchecks, hloaded.load (hfinds rfl) fun k account => loadAccount_snd, hrest⟩
  | processNext hlt htx htx' hchecked =>
    refine ⟨hok.1, hok.2.1, ?_, ?_, hok.processed htx, ?_⟩ <;> rw [length_append, length_singleton]
    · obtain ⟨-, -, hloaded, hlt', -⟩ := hok
      refine hloaded.insertAll hapart ⟨Nat.le_add_right _ _, hlt'⟩ fun e he => ?_
      rw [WritesAt, accessAt_of_getElem? htx]
      exact collectAccounts_writes _ _ e he
    · exact hlt
    · exact follows_process hcov htx' (hok.2.1 _ _ hchecked)
  | processLast hlast htx hsnoc hunused =>
    subst hsnoc
    refine pcOk_writing hapart ?_ (hok.processed htx) .overrides
    rw [length_append, length_singleton, ← Nat.add_assoc]
    exact hlast
  | write =>
    obtain ⟨hlen, hresults, hnodup, hstores⟩ := hok
    rw [map_cons, nodup_cons] at hnodup
    exact ⟨hlen, hresults, hnodup.2, fun e he => hstores e (mem_cons_of_mem _ he)⟩
  | commit =>
    rw [accountsToCommit_eq]
    exact pcOk_writing hapart hok.1 hok.2.1 .bank
  | committed hstatuses =>
    rw [commitTransactionStatuses_eq] at hstatuses
    obtain rfl := some.inj hstatuses
    exact ⟨by rw [length_map]; exact hok.1, hok.2.1.commitDetails⟩

end

end Salsa.Block
