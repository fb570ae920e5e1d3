import Mathlib.Data.List.Nodup
import Salsa.Lib.Serial
import Salsa.Scheduler.Devin

/-!
# Salsa.Block.Execute — executing one transaction of a recorded block

The parts of the runtime that `execute_and_commit_parallel` calls for each
transaction, around an arbitrary execution engine. For a transaction alone on a bank the
loader's cache is invisible (`runLoader_eq`), what it stores is writable in it
(`collectAccounts_writes`), and each account is stored once (`executeTransaction_nodup`).
-/

namespace Salsa.Block

open LockTable Serial List Function Option

/-! ## Accounts -/

/-- `TransactionError`: the errors this code names, and all others by a number. -/
inductive TransactionError where
  | accountInUse
  | accountLoadedTwice
  | accountNotFound
  | tooManyAccountLocks
  | other (code : ℕ)
deriving DecidableEq, Repr

structure Account (Key : Type) where
  lamports : ℕ
  data : List (BitVec 8)
  owner : Key
  executable : Bool
  rentEpoch : ℕ
deriving DecidableEq

/-- `AccountSharedData::default()`. -/
instance {Key : Type} [Inhabited Key] : Inhabited (Account Key) := ⟨⟨0, [], default, false, 0⟩⟩

abbrev Accounts (Key : Type) := Key → Option (Account Key)

variable {Key Body : Type}

/-- An account without lamports does not exist. -/
def Account.live (account : Account Key) : Option (Account Key) :=
  if account.lamports = 0 then none else some account

/-- `Bank::get_account_shared_data`: accounts-db leaves accounts without
lamports out. -/
def getAccountSharedData (bank : Accounts Key) (k : Key) : Option (Account Key) :=
  (bank k).bind Account.live

@[simp] theorem live_default [Inhabited Key] : (default : Account Key).live = none := rfl

variable {k : Key} {account : Account Key}

theorem live_of_getAccountSharedData {bank : Accounts Key}
    (h : getAccountSharedData bank k = some account) : account.live = some account := by
  obtain ⟨stored, -, hlive⟩ := bind_eq_some_iff.mp h
  have hsame : stored = account := by
    unfold Account.live at hlive
    split at hlive
    · cases hlive
    · exact some.inj hlive
  rw [← hsame] at hlive ⊢
  exact hlive

/-! ## Transactions -/

/-- A transaction: its account keys, the fee payer first, each of the others with
`is_writable`; its durable nonce account, which has to be writable; and what the
engine reads of it, `body`. -/
structure Transaction (Key Body : Type) where
  feePayer : Key
  others : Access Key
  nonce : Option Key
  isInvoked : ℕ → Bool
  isInstructionAccount : ℕ → Bool
  cost : ℕ
  body : Body
  nonce_writable : ∀ k ∈ nonce, k = feePayer ∨ (k, true) ∈ others

namespace Transaction

/-- `account_keys` with `is_writable`. The fee payer is always writable. -/
def accounts (tx : Transaction Key Body) : Access Key := (tx.feePayer, true) :: tx.others

def accountKeys (tx : Transaction Key Body) : List Key := tx.accounts.map Prod.fst

def isWritable (tx : Transaction Key Body) (i : ℕ) : Bool :=
  (tx.accounts[i]?).elim false Prod.snd

instance : Devin.TransactionWithMeta (Transaction Key Body) Key where
  accounts := accounts
  cost := cost

theorem writes_feePayer (tx : Transaction Key Body) : Writes tx.accounts tx.feePayer :=
  mem_cons_self

theorem writes_nonce (tx : Transaction Key Body) (h : k ∈ tx.nonce) : Writes tx.accounts k := by
  rcases tx.nonce_writable k h with rfl | hmem
  · exact tx.writes_feePayer
  · exact mem_cons_of_mem _ hmem

end Transaction

def validateAccountLocks [DecidableEq Key] (limit : ℕ) (tx : Transaction Key Body) :
    Except TransactionError Unit :=
  if limit < tx.accountKeys.length then .error .tooManyAccountLocks
  else if ¬ tx.accountKeys.Nodup then .error .accountLoadedTwice
  else .ok ()

/-! ## Results -/

inductive RollbackAccounts (Key : Type) where
  | feePayerOnly (feePayer : Key × Account Key)
  | sameNonceAndFeePayer (nonce : Key × Account Key)
  | separateNonceAndFeePayer (nonce feePayer : Key × Account Key)

namespace RollbackAccounts

def new [DecidableEq Key] (nonce : Option (Key × Account Key)) (feePayerAddress : Key)
    (feePayerAccount : Account Key) (feePayerLoadedRentEpoch : ℕ) : RollbackAccounts Key :=
  match nonce with
  | some nonce =>
      if feePayerAddress = nonce.1 then
        .sameNonceAndFeePayer (feePayerAddress, { feePayerAccount with data := nonce.2.data })
      else .separateNonceAndFeePayer nonce (feePayerAddress, feePayerAccount)
  | none =>
      .feePayerOnly (feePayerAddress, { feePayerAccount with rentEpoch := feePayerLoadedRentEpoch })

def feePayer : RollbackAccounts Key → Key × Account Key
  | feePayerOnly feePayer => feePayer
  | sameNonceAndFeePayer nonce => nonce
  | separateNonceAndFeePayer _ feePayer => feePayer

/-- The fee payer, then the nonce. -/
def iter : RollbackAccounts Key → List (Key × Account Key)
  | feePayerOnly feePayer => [feePayer]
  | sameNonceAndFeePayer nonce => [nonce]
  | separateNonceAndFeePayer nonce feePayer => [feePayer, nonce]

/-- A saturating sum of `usize`. -/
def dataSize (self : RollbackAccounts Key) : ℕ :=
  min (2 ^ 64 - 1) (self.iter.map fun e => e.2.data.length).sum

end RollbackAccounts

inductive ProcessedTransaction (Key : Type) where
  | executed (status : Except TransactionError Unit) (accounts : List (Key × Account Key))
      (rollbackAccounts : RollbackAccounts Key) (executedUnits loadedAccountsDataSize : ℕ)
  | feesOnly (loadError : TransactionError) (rollbackAccounts : RollbackAccounts Key)

abbrev TransactionProcessingResult (Key : Type) :=
  Except TransactionError (ProcessedTransaction Key)

/-- What validating the fee payer and the nonce leaves: the fee payer after the
fee with the rent epoch it was loaded with, and the advanced nonce. -/
structure ValidatedPayer (Key : Type) where
  account : Account Key
  loadedRentEpoch : ℕ
  nonce : Option (Account Key)

/-- What the engine makes of a transaction: `TransactionLoadResult`, and for a
loaded one what its execution did to its accounts. -/
inductive Outcome (Key : Type) where
  | notLoaded (err : TransactionError)
  | feesOnly (loadError : TransactionError) (payer : ValidatedPayer Key)
  | loaded (payer : ValidatedPayer Key) (status : Except TransactionError Unit)
      (accounts : List (Account Key)) (executedUnits loadedAccountsDataSize : ℕ)

section

variable [DecidableEq Key]

/-- The rollback accounts of a validated transaction. -/
def rollbackAccounts (tx : Transaction Key Body) (payer : ValidatedPayer Key) :
    RollbackAccounts Key :=
  .new (payer.nonce.bind fun account => tx.nonce.map fun k => (k, account)) tx.feePayer
    payer.account payer.loadedRentEpoch

/-- The `match load_result` of `load_and_execute_sanitized_transactions`. -/
def processingResult (tx : Transaction Key Body) : Outcome Key → TransactionProcessingResult Key
  | .notLoaded err => .error err
  | .feesOnly loadError payer => .ok (.feesOnly loadError (rollbackAccounts tx payer))
  | .loaded payer status accounts executedUnits loadedAccountsDataSize =>
      .ok (.executed status (tx.accountKeys.zip accounts) (rollbackAccounts tx payer)
        executedUnits loadedAccountsDataSize)

end

/-! ## What is stored and reported -/

/-- `collect_accounts_for_successful_tx`, and the same filter in
`update_accounts_for_successful_tx`: writable, and not invoked without being an
instruction account. -/
def collectAccountsForSuccessfulTx (tx : Transaction Key Body)
    (accounts : List (Key × Account Key)) : List (Key × Account Key) :=
  (((List.range tx.accountKeys.length).zip accounts).filter fun e =>
    tx.isWritable e.1 && !(tx.isInvoked e.1 && !tx.isInstructionAccount e.1)).map Prod.snd

/-- `collect_accounts_to_store` for one transaction. -/
def collectAccounts (tx : Transaction Key Body) :
    TransactionProcessingResult Key → List (Key × Account Key)
  | .error _ => []
  | .ok (.executed status accounts rollbackAccounts _ _) =>
      if status.isOk then collectAccountsForSuccessfulTx tx accounts else rollbackAccounts.iter
  | .ok (.feesOnly _ rollbackAccounts) => rollbackAccounts.iter

def collectAccountsToStore (txs : List (Transaction Key Body))
    (processingResults : List (TransactionProcessingResult Key)) : List (Key × Account Key) :=
  (List.zipWith collectAccounts txs processingResults).flatten

inductive CommitTransactionDetails where
  | committed (computeUnits loadedAccountsDataSize feePayerPostBalance : ℕ)
      (result : Except TransactionError Unit)
  | notCommitted (err : TransactionError)

/-- `create_commit_results` and the conversion in `Committer::commit_transactions`,
for one transaction. -/
def commitDetails : TransactionProcessingResult Key → CommitTransactionDetails
  | .error err => .notCommitted err
  | .ok (.executed status accounts rollbackAccounts executedUnits loadedAccountsDataSize) =>
      .committed executedUnits loadedAccountsDataSize
        (if status.isOk then (accounts.head?.map fun e => e.2.lamports).getD 0
          else rollbackAccounts.feePayer.2.lamports) status
  | .ok (.feesOnly loadError rollbackAccounts) =>
      .committed 0 (rollbackAccounts.dataSize % 2 ^ 32) rollbackAccounts.feePayer.2.lamports
        (.error loadError)

/-- `processed_counts.processed_transactions_count`. -/
def processedTransactionsCount (results : List (TransactionProcessingResult Key)) : ℕ :=
  (results.filter Except.isOk).length

/-- The worker's `commit_transaction_statuses`; `none` is its `unreachable!`. -/
def commitTransactionStatuses (results : List (TransactionProcessingResult Key)) :
    Option (List CommitTransactionDetails) :=
  if processedTransactionsCount results ≠ 0 then some (results.map commitDetails)
  else results.mapM fun
    | .ok _ => none
    | .error err => some (.notCommitted err)

/-- The accounts that the worker's commit writes to the bank. -/
def accountsToCommit (txs : List (Transaction Key Body))
    (results : List (TransactionProcessingResult Key)) : List (Key × Account Key) :=
  if processedTransactionsCount results ≠ 0 then collectAccountsToStore txs results else []

/-! ## The account loader -/

/-- `AccountLoader::do_load`: what was loaded before, and otherwise the bank, with
whether the bank was asked. -/
def doLoad (bank loadedAccounts : Accounts Key) (k : Key) : Option (Account Key) × Bool :=
  match loadedAccounts k with
  | some account => (if account.lamports = 0 then none else some account, false)
  | none => (getAccountSharedData bank k, true)

section

variable [DecidableEq Key] [Inhabited Key]

/-- `AccountLoader::load_account`: what the bank answered is kept, a missing
account as the default one. -/
def loadAccount (bank loadedAccounts : Accounts Key) (k : Key) :
    Option (Account Key) × Accounts Key :=
  match doLoad bank loadedAccounts k with
  | (account, false) => (account, loadedAccounts)
  | (some account, true) => (some account, Function.update loadedAccounts k (some account))
  | (none, true) => (none, Function.update loadedAccounts k (some default))

/-- A load by the engine: through `load_account`, or through the loader's
`get_account_shared_data`, which keeps nothing. -/
structure Query (Key : Type) where
  key : Key
  keep : Bool

/-- What the loader answers, and its accounts afterwards. -/
def answer (bank loadedAccounts : Accounts Key) (q : Query Key) :
    Option (Account Key) × Accounts Key :=
  if q.keep then loadAccount bank loadedAccounts q.key
  else ((doLoad bank loadedAccounts q.key).1, loadedAccounts)

/-- `update_accounts_for_executed_tx` and `update_accounts_for_failed_tx`, and the
storing of accounts in the bank: insertion in order. -/
def insertAll (accounts : Accounts Key) (entries : List (Key × Account Key)) : Accounts Key :=
  entries.foldl (fun accounts e => Function.update accounts e.1 (some e.2)) accounts

/-! ## Executing a transaction alone -/

/-- A deterministic execution engine: what it does with a transaction depends on
the accounts it loads, and which ones it loads on those loaded before. `check` is
the part of `check_transactions` that asks the bank (the nonce account),
`process` validates the fee payer, loads and executes. -/
structure Engine (Key Body : Type) where
  Checked : Type
  accountLockLimit : ℕ
  check : Transaction Key Body → Reader Key (Option (Account Key)) (Except TransactionError Checked)
  process : Transaction Key Body → Checked → Reader (Query Key) (Option (Account Key)) (Outcome Key)

namespace Engine

variable (engine : Engine Key Body)

/-- The lock result of `prepare_sanitized_batch`, then the check. -/
def checkTransaction (tx : Transaction Key Body) :
    Reader Key (Option (Account Key)) (Except TransactionError engine.Checked) :=
  match validateAccountLocks engine.accountLockLimit tx with
  | .error err => .done (.error err)
  | .ok () => engine.check tx

/-- A failed check is the result. -/
def processTransaction (tx : Transaction Key Body) :
    Except TransactionError engine.Checked → Reader (Query Key) (Option (Account Key)) (Outcome Key)
  | .error err => .done (.notLoaded err)
  | .ok checked => engine.process tx checked

end Engine

/-- A reader run to its end against one loader on an unchanging bank. -/
def runLoader {R : Type} (bank : Accounts Key) :
    Reader (Query Key) (Option (Account Key)) R → Accounts Key → R
  | .done r, _ => r
  | .read q next, loadedAccounts =>
      runLoader bank (next (answer bank loadedAccounts q).1) (answer bank loadedAccounts q).2

variable (engine : Engine Key Body)

/-- One transaction through `load_and_execute_transactions`, as a batch of its
own. -/
def executeTransaction (bank : Accounts Key) (tx : Transaction Key Body) :
    TransactionProcessingResult Key :=
  let checked := (engine.checkTransaction tx).eval (getAccountSharedData bank)
  processingResult tx (runLoader bank (engine.processTransaction tx checked) fun _ => none)

/-- The bank after a transaction was executed and committed on it. -/
def executeAndCommit (bank : Accounts Key) (tx : Transaction Key Body) : Accounts Key :=
  insertAll bank (collectAccounts tx (executeTransaction engine bank tx))

end

/-! ## Lemmas on the loader -/

variable {bank loadedAccounts : Accounts Key}

theorem doLoad_of_some (h : loadedAccounts k = some account) :
    doLoad bank loadedAccounts k = (account.live, false) := by
  simp only [doLoad, h, Account.live]

theorem doLoad_of_none (h : loadedAccounts k = none) :
    doLoad bank loadedAccounts k = (getAccountSharedData bank k, true) := by
  simp only [doLoad, h]

/-- A load shows `view` when what was loaded before does, and the bank does. -/
theorem doLoad_eq {view : Option (Account Key)}
    (hloaded : ∀ account, loadedAccounts k = some account → account.live = view)
    (hbank : getAccountSharedData bank k = view) : (doLoad bank loadedAccounts k).1 = view := by
  cases h : loadedAccounts k with
  | some account =>
    rw [doLoad_of_some h]
    exact hloaded account h
  | none =>
    rw [doLoad_of_none h]
    exact hbank

section

variable [DecidableEq Key] [Inhabited Key]

theorem loadAccount_fst (bank loadedAccounts : Accounts Key) (k : Key) :
    (loadAccount bank loadedAccounts k).1 = (doLoad bank loadedAccounts k).1 := by
  unfold loadAccount
  rcases doLoad bank loadedAccounts k with ⟨account | account, asked | asked⟩ <;> rfl

theorem answer_fst (bank loadedAccounts : Accounts Key) (q : Query Key) :
    (answer bank loadedAccounts q).1 = (doLoad bank loadedAccounts q.key).1 := by
  unfold answer
  split
  · exact loadAccount_fst bank loadedAccounts q.key
  · rfl

variable {loadedAccounts bank : Accounts Key}

/-- What is loaded after `load_account` was loaded before, or shows the bank. -/
theorem loadAccount_snd {k k' : Key} (h : (loadAccount bank loadedAccounts k).2 k' = some account) :
    loadedAccounts k' = some account ∨ (k' = k ∧ account.live = getAccountSharedData bank k) := by
  unfold loadAccount at h
  cases hk : loadedAccounts k with
  | some found =>
    rw [doLoad_of_some hk] at h
    exact Or.inl h
  | none =>
    rw [doLoad_of_none hk] at h
    cases hbank : getAccountSharedData bank k with
    | some stored =>
      simp only [hbank, update_apply] at h
      split at h
      · obtain rfl := some.inj h
        exact Or.inr ⟨‹_›, live_of_getAccountSharedData hbank⟩
      · exact Or.inl h
    | none =>
      simp only [hbank, update_apply] at h
      split at h
      · obtain rfl := some.inj h
        exact Or.inr ⟨‹_›, live_default⟩
      · exact Or.inl h

theorem answer_snd {q : Query Key} (h : (answer bank loadedAccounts q).2 k = some account) :
    loadedAccounts k = some account ∨
      (k = q.key ∧ account.live = getAccountSharedData bank q.key) := by
  unfold answer at h
  split at h
  · exact loadAccount_snd h
  · exact Or.inl h

/-- On an unchanging bank the loader's cache is invisible. -/
theorem runLoader_eq {R : Type} (t : Reader (Query Key) (Option (Account Key)) R)
    (hloaded : ∀ k account, loadedAccounts k = some account →
      account.live = getAccountSharedData bank k) :
    runLoader bank t loadedAccounts = t.eval fun q => getAccountSharedData bank q.key := by
  induction t generalizing loadedAccounts with
  | done r => rfl
  | read q next ih =>
    have hanswer : (answer bank loadedAccounts q).1 = getAccountSharedData bank q.key := by
      rw [answer_fst]
      exact doLoad_eq (hloaded q.key) rfl
    rw [runLoader, Reader.eval, ih, hanswer]
    intro k account h
    rcases answer_snd h with h | ⟨rfl, hlive⟩
    · exact hloaded k account h
    · exact hlive

end

/-! ## Lemmas on what is stored -/

section

variable [DecidableEq Key] {entries : List (Key × Account Key)} {accounts : Accounts Key}

theorem insertAll_of_not_mem
    (h : k ∉ entries.map Prod.fst) : insertAll accounts entries k = accounts k := by
  induction entries generalizing accounts with
  | nil => rfl
  | cons e entries ih =>
    rw [map_cons, mem_cons, not_or] at h
    rw [insertAll, foldl_cons]
    refine (ih h.2).trans ?_
    rw [update_apply, if_neg h.1]

theorem insertAll_of_mem (hnodup : (entries.map Prod.fst).Nodup)
    (h : (k, account) ∈ entries) : insertAll accounts entries k = some account := by
  induction entries generalizing accounts with
  | nil => exact absurd h not_mem_nil
  | cons e entries ih =>
    rw [map_cons, nodup_cons] at hnodup
    rw [insertAll, foldl_cons]
    rcases mem_cons.mp h with rfl | h
    · refine (insertAll_of_not_mem hnodup.1).trans ?_
      rw [update_apply, if_pos rfl]
    · exact ih hnodup.2 h

/-- What is inserted was there before or is one of the entries. -/
theorem mem_of_insertAll (h : insertAll accounts entries k = some account) :
    accounts k = some account ∨ k ∈ entries.map Prod.fst := by
  by_cases hmem : k ∈ entries.map Prod.fst
  · exact Or.inr hmem
  · rw [insertAll_of_not_mem hmem] at h
    exact Or.inl h

variable (tx : Transaction Key Body)

/-- Rollback accounts are the fee payer and the nonce, two different accounts. -/
theorem rollbackAccounts_iter (payer : ValidatedPayer Key) :
    (((rollbackAccounts tx payer).iter).map Prod.fst).Nodup ∧
      ∀ e ∈ (rollbackAccounts tx payer).iter, Writes tx.accounts e.1 := by
  have hpayer := tx.writes_feePayer
  unfold rollbackAccounts RollbackAccounts.new
  split
  · rename_i nonce hnonce
    obtain ⟨account, -, hmap⟩ := bind_eq_some_iff.mp hnonce
    obtain ⟨k, hk, rfl⟩ := map_eq_some_iff.mp hmap
    split
    · simp [RollbackAccounts.iter, hpayer]
    · rename_i hne
      simp [RollbackAccounts.iter, hpayer, hne, tx.writes_nonce hk]
  · simp [RollbackAccounts.iter, hpayer]

section

omit [DecidableEq Key]

theorem map_fst_zip_sublist (keys : List Key) (accounts : List (Account Key)) :
    ((keys.zip accounts).map Prod.fst).Sublist keys := by
  induction keys generalizing accounts with
  | nil => simp
  | cons k keys ih =>
    cases accounts with
    | nil => simp
    | cons account accounts => exact (ih accounts).cons_cons k

/-- What a successful transaction stores is some of its accounts, in order. -/
theorem collectAccountsForSuccessfulTx_sublist (accounts : List (Account Key)) :
    ((collectAccountsForSuccessfulTx tx (tx.accountKeys.zip accounts)).map Prod.fst).Sublist
      tx.accountKeys := by
  have hkept := (filter_sublist (p := fun e : ℕ × Key × Account Key =>
    tx.isWritable e.1 && !(tx.isInvoked e.1 && !tx.isInstructionAccount e.1))
    (l := (range tx.accountKeys.length).zip (tx.accountKeys.zip accounts))).map Prod.snd
  rw [map_snd_zip (by simp)] at hkept
  exact (hkept.map Prod.fst).trans (map_fst_zip_sublist _ _)

theorem collectAccountsForSuccessfulTx_writes (accounts : List (Account Key)) :
    ∀ e ∈ collectAccountsForSuccessfulTx tx (tx.accountKeys.zip accounts),
      Writes tx.accounts e.1 := by
  intro e he
  obtain ⟨⟨i, e'⟩, hmem, rfl⟩ := mem_map.mp he
  obtain ⟨hzip, hkept⟩ := mem_filter.mp hmem
  have hwritable : tx.isWritable i = true := by
    simp only [Bool.and_eq_true] at hkept
    exact hkept.1
  obtain ⟨n, hn⟩ := mem_iff_getElem?.mp hzip
  obtain ⟨hi, hentry⟩ := getElem?_zip_eq_some.mp hn
  obtain ⟨hkey, -⟩ := getElem?_zip_eq_some.mp hentry
  -- the entry at place `n` has the index `n` and the key at that index
  obtain rfl : n = i := by
    rw [getElem?_eq_some_iff] at hi
    obtain ⟨hlt, hi⟩ := hi
    simpa using hi
  rw [Transaction.accountKeys, getElem?_map] at hkey
  obtain ⟨⟨k, w⟩, hget, hk⟩ := map_eq_some_iff.mp hkey
  have hw : w = true := by
    simpa [Transaction.isWritable, hget] using hwritable
  subst hw
  rw [← hk]
  exact mem_of_getElem? hget

end

/-- Whatever is stored of a transaction is writable in it. -/
theorem collectAccounts_writes (outcome : Outcome Key) :
    ∀ e ∈ collectAccounts tx (processingResult tx outcome), Writes tx.accounts e.1 := by
  cases outcome with
  | notLoaded err => simp [processingResult, collectAccounts]
  | feesOnly loadError payer => exact (rollbackAccounts_iter tx payer).2
  | loaded payer status accounts executedUnits size =>
    simp only [processingResult, collectAccounts]
    split
    · exact collectAccountsForSuccessfulTx_writes tx accounts
    · exact (rollbackAccounts_iter tx payer).2

theorem collectAccounts_nodup (outcome : Outcome Key) (h : tx.accountKeys.Nodup) :
    ((collectAccounts tx (processingResult tx outcome)).map Prod.fst).Nodup := by
  cases outcome with
  | notLoaded err => simp [processingResult, collectAccounts]
  | feesOnly loadError payer => exact (rollbackAccounts_iter tx payer).1
  | loaded payer status accounts executedUnits size =>
    simp only [processingResult, collectAccounts]
    split
    · exact h.sublist (collectAccountsForSuccessfulTx_sublist tx accounts)
    · exact (rollbackAccounts_iter tx payer).1

variable [Inhabited Key] (engine : Engine Key Body)

variable (bank : Accounts Key)

/-- Executed alone, a transaction sees the bank and nothing else. -/
theorem executeTransaction_eq (tx : Transaction Key Body) :
    executeTransaction engine bank tx = processingResult tx
      ((engine.processTransaction tx
        ((engine.checkTransaction tx).eval (getAccountSharedData bank))).eval
          fun q => getAccountSharedData bank q.key) := by
  rw [executeTransaction, runLoader_eq]
  simp

theorem executeTransaction_writes (tx : Transaction Key Body) :
    ∀ e ∈ collectAccounts tx (executeTransaction engine bank tx), Writes tx.accounts e.1 :=
  collectAccounts_writes tx _

/-- Each account is stored at most once: a transaction that names an account
twice is not loaded. -/
theorem executeTransaction_nodup (tx : Transaction Key Body) :
    ((collectAccounts tx (executeTransaction engine bank tx)).map Prod.fst).Nodup := by
  by_cases hnodup : tx.accountKeys.Nodup
  · exact collectAccounts_nodup tx _ hnodup
  · have hinvalid : ∃ err, validateAccountLocks engine.accountLockLimit tx = .error err := by
      rw [validateAccountLocks, if_pos hnodup]
      split
      · exact ⟨_, rfl⟩
      · exact ⟨_, rfl⟩
    obtain ⟨err, herr⟩ := hinvalid
    have hresult : executeTransaction engine bank tx = .error err := by
      rw [executeTransaction_eq, Engine.checkTransaction, herr]
      rfl
    rw [hresult]
    simp [collectAccounts]

/-- A transaction changes only what it may write. -/
theorem executeAndCommit_of_not_writes (tx : Transaction Key Body)
    (h : ¬ Writes tx.accounts k) : executeAndCommit engine bank tx k = bank k := by
  refine insertAll_of_not_mem ?_
  intro hmem
  obtain ⟨e, he, rfl⟩ := mem_map.mp hmem
  exact h (executeTransaction_writes engine bank tx e he)

end

/-! ## Lemmas on what is reported -/

/-- The `unreachable!` is not reached, and both branches report the same. -/
theorem commitTransactionStatuses_eq (results : List (TransactionProcessingResult Key)) :
    commitTransactionStatuses results = some (results.map commitDetails) := by
  unfold commitTransactionStatuses
  split
  · rfl
  · rename_i hcount
    rw [not_not, processedTransactionsCount, length_eq_zero_iff, filter_eq_nil_iff] at hcount
    induction results with
    | nil => rfl
    | cons result results ih =>
      have hhead := hcount result mem_cons_self
      have htail := ih fun r hr => hcount r (mem_cons_of_mem _ hr)
      cases result with
      | ok tx => exact absurd rfl hhead
      | error err =>
        rw [mapM_cons, htail]
        rfl

/-- With nothing processed there is nothing to store. -/
theorem accountsToCommit_eq (txs : List (Transaction Key Body))
    (results : List (TransactionProcessingResult Key)) :
    accountsToCommit txs results = collectAccountsToStore txs results := by
  unfold accountsToCommit
  split
  · rfl
  · rename_i hcount
    rw [not_not, processedTransactionsCount, length_eq_zero_iff, filter_eq_nil_iff] at hcount
    symm
    apply flatten_eq_nil_iff.mpr
    intro entries hmem
    obtain ⟨n, hn⟩ := mem_iff_getElem?.mp hmem
    obtain ⟨tx, result, -, hresult, rfl⟩ := getElem?_zipWith_eq_some.mp hn
    cases result with
    | ok processed => exact absurd rfl (hcount _ (mem_of_getElem? hresult))
    | error err => rfl

end Salsa.Block
