import Salsa.Block.ParallelRuns

/-!
# Salsa.Block.Refine — parallel execution equals block order

Every chunk can come to its report, so a run can go on to the end of the block
(`exists_finished`), where the bank and the reports are those of block order
(`parallel_eq_inOrder`).
-/

namespace Salsa.Block

open LockTable Serial Devin List

variable {Key Body : Type} [DecidableEq Key] [Inhabited Key]
  {engine : Engine Key Body} {txs : List (Transaction Key Body)} {bank : Accounts Key}

/-! ## A chunk can be completed -/

/-- The worker can take the chunk from here to its report. -/
inductive Completes (engine : Engine Key Body) (txs : List (Transaction Key Body))
    (range : Range) : Memory Key → Pc engine → Prop where
  | report {memory : Memory Key} {statuses : List CommitTransactionDetails} :
      Completes engine txs range memory (.reporting statuses)
  | step {memory memory' : Memory Key} {pc pc' : Pc engine}
      (h : WorkStep engine txs range memory pc memory' pc')
      (hrest : Completes engine txs range memory' pc') :
      Completes engine txs range memory pc

/-- No result in block order is `AccountInUse`, the error of the account locks. -/
def NeverInUse (engine : Engine Key Body) (txs : List (Transaction Key Body))
    (bank : Accounts Key) : Prop :=
  ∀ i tx, txs[i]? = some tx →
    executeTransaction engine (executeInOrder engine bank (txs.take i)).1 tx ≠ .error .accountInUse

variable {range : Range} {memory : Memory Key}

theorem completes_writing_bank (results : List (TransactionProcessingResult Key))
    (todo : List (Key × Account Key)) (memory : Memory Key) :
    Completes engine txs range memory (.writing .bank results todo) := by
  induction todo generalizing memory with
  | nil => exact .step (.committed (commitTransactionStatuses_eq results)) .report
  | cons e todo ih => exact .step .write (ih _)

theorem completes_writing (place : Place) (results : List (TransactionProcessingResult Key))
    (todo : List (Key × Account Key)) (memory : Memory Key) :
    Completes engine txs range memory (.writing place results todo) := by
  cases place with
  | bank => exact completes_writing_bank results todo memory
  | overrides =>
    induction todo generalizing memory with
    | nil => exact .step .commit (completes_writing_bank results _ memory)
    | cons e todo ih => exact .step .write (ih _)

/-- What is the same for all steps of a chunk that executes: the block, the range
in it, and a memory that shows block order. -/
structure Ready (engine : Engine Key Body) (txs : List (Transaction Key Body))
    (bank : Accounts Key) (range : Range) (memory : Memory Key) : Prop where
  covered : LoadsCovered engine txs bank
  unused : NeverInUse engine txs bank
  nonempty : range.start < range.stop
  bounded : range.stop ≤ txs.length
  apart : Apart txs range
  finds : Finds engine txs bank range memory

namespace Ready

variable (hr : Ready engine txs bank range memory)

include hr

theorem pcOk {pc pc' : Pc engine} (h : WorkStep engine txs range memory pc memory pc')
    (hok : PcOk engine txs bank range pc) : PcOk engine txs bank range pc' :=
  h.pcOk hr.covered hr.nonempty hr.apart (fun _ => hr.finds) hok

theorem exists_tx {i : ℕ} (hi : i < range.stop) : ∃ tx, txs[i]? = some tx := by
  have hlt : i < txs.length := Nat.lt_of_lt_of_le hi hr.bounded
  exact ⟨txs[i], getElem?_eq_getElem hlt⟩

variable {results : List (TransactionProcessingResult Key)}
  {checks : List (Except TransactionError engine.Checked)} {loaded : Accounts Key}

theorem results_unused (hresults : Tracks (resultAt engine txs bank) range.start results) :
    ∀ result ∈ results, result ≠ .error .accountInUse := by
  intro result hmem
  obtain ⟨n, hn⟩ := mem_iff_getElem?.mp hmem
  have hresult := hresults n result hn
  obtain ⟨tx, htx, rfl⟩ := Option.map_eq_some_iff.mp hresult
  have hunused := hr.unused _ tx htx
  rw [executeInOrder_take] at hunused
  exact hunused

/-- A transaction's loads come to an end. -/
theorem completes_loads (hdone : ∀ loaded outcome,
      PcOk engine txs bank range (.processing checks loaded results (.done outcome)) →
      Completes engine txs range memory (.processing checks loaded results (.done outcome)))
    (t : Reader (Query Key) (Option (Account Key)) (Outcome Key)) (loaded : Accounts Key)
    (hok : PcOk engine txs bank range (.processing checks loaded results t)) :
    Completes engine txs range memory (.processing checks loaded results t) := by
  induction t generalizing loaded with
  | done outcome => exact hdone loaded outcome hok
  | read q next ih => exact .step .load (ih _ _ (hr.pcOk .load hok))

/-- With `m` more transactions to go after this one. -/
theorem completes_processing (m : ℕ) {t : Reader (Query Key) (Option (Account Key)) (Outcome Key)}
    (hm : range.start + results.length + 1 + m = range.stop)
    (hok : PcOk engine txs bank range (.processing checks loaded results t)) :
    Completes engine txs range memory (.processing checks loaded results t) := by
  -- on the txs left; the loads of each are an induction of their own
  induction m generalizing results loaded t with
  | zero =>
    refine hr.completes_loads (fun loaded outcome hok => ?_) t loaded hok
    obtain ⟨tx, htx⟩ := hr.exists_tx hok.2.2.2.1
    refine .step (.processLast hm htx rfl ?_) (completes_writing _ _ _ _)
    exact hr.results_unused (hok.processed htx)
  | succ m ih =>
    refine hr.completes_loads (fun loaded outcome hok => ?_) t loaded hok
    obtain ⟨tx, htx⟩ := hr.exists_tx hok.2.2.2.1
    have hlt : range.start + results.length + 1 < range.stop := by omega
    obtain ⟨tx', htx'⟩ := hr.exists_tx hlt
    have hchecks : results.length + 1 < checks.length := by
      have := hok.1
      omega
    have hstep : WorkStep engine txs range memory
        (.processing checks loaded results (.done outcome)) memory _ :=
      .processNext hlt htx htx' (getElem?_eq_getElem hchecks)
    refine .step hstep (ih ?_ (hr.pcOk hstep hok))
    rw [length_append, length_singleton]
    omega

theorem completes_copying (hok : PcOk engine txs bank range (.copying checks loaded)) :
    Completes engine txs range memory (.copying checks loaded) := by
  obtain ⟨tx, htx⟩ := hr.exists_tx hr.nonempty
  have hlen := hok.1
  have hne := hr.nonempty
  have hstep : WorkStep engine txs range memory (.copying checks loaded) memory _ :=
    .copied htx (getElem?_eq_getElem (by omega))
  have hcount : range.start + 0 + 1 + (checks.length - 1) = range.stop := by omega
  exact .step hstep (hr.completes_processing _ hcount (hr.pcOk hstep hok))

/-- A check's questions come to an end. -/
theorem completes_check
    (hdone : ∀ checked, PcOk engine txs bank range (.checking checks (.done checked)) →
      Completes engine txs range memory (.checking checks (.done checked)))
    (t : Reader Key (Option (Account Key)) (Except TransactionError engine.Checked))
    (hok : PcOk engine txs bank range (.checking checks t)) :
    Completes engine txs range memory (.checking checks t) := by
  induction t with
  | done checked => exact hdone checked hok
  | read k next ih => exact .step .check (ih _ (hr.pcOk .check hok))

theorem completes_checking (m : ℕ)
    {t : Reader Key (Option (Account Key)) (Except TransactionError engine.Checked)}
    (hm : range.start + checks.length + 1 + m = range.stop)
    (hok : PcOk engine txs bank range (.checking checks t)) :
    Completes engine txs range memory (.checking checks t) := by
  induction m generalizing checks t with
  | zero =>
    refine hr.completes_check (fun checked hok => ?_) t hok
    have hstep : WorkStep engine txs range memory
        (.checking checks (.done checked)) memory _ := .checkLast hm
    exact .step hstep (hr.completes_copying (hr.pcOk hstep hok))
  | succ m ih =>
    refine hr.completes_check (fun checked hok => ?_) t hok
    have hlt : range.start + checks.length + 1 < range.stop := by omega
    obtain ⟨tx, htx⟩ := hr.exists_tx hlt
    have hstep : WorkStep engine txs range memory
        (.checking checks (.done checked)) memory _ := .checkNext hlt htx
    refine .step hstep (ih ?_ (hr.pcOk hstep hok))
    rw [length_append, length_singleton]
    omega

/-- From any point of its execution. -/
theorem completes {pc : Pc engine} (hexec : pc.executing = true) :
    Completes engine txs range memory pc := by
  -- an attempt can always start over
  obtain ⟨tx, htx⟩ := hr.exists_tx hr.nonempty
  have hne := hr.nonempty
  have hcount : range.start + 0 + 1 + (range.stop - range.start - 1) = range.stop := by omega
  exact .step (.prepare hexec htx) (hr.completes_checking _ hcount
    ⟨hr.nonempty, tracks_nil _ _, follows_check hr.covered htx⟩)

end Ready

variable {s s' : St engine} {chunk : Chunk engine} {post : List (Chunk engine)}
  {memory' : Memory Key} {c : Chunk engine} {pc' : Pc engine}

theorem Inv.completes (hi : Inv engine txs bank s)
    (hcov : LoadsCovered engine txs bank) (hunused : NeverInUse engine txs bank)
    (hchunks : s.chunks = chunk :: post) :
    Completes engine txs chunk.range s.memory chunk.pc := by
  have hmem : chunk ∈ s.chunks := by simp [hchunks]
  have hout := hi.flight.mem_outstanding_of_chunk hmem
  have hne := hi.flight.sched.inv.nonempty _ (mem_append_left _ hout)
  have hlast := hi.flight.sched.inv.flat_lt_length (chunk.range.stop - 1)
    (mem_flat.mpr ⟨chunk.range, hout, by omega, by omega⟩)
  have hfirst : s.chunks = [] ++ chunk :: post := hchunks
  cases hpc : chunk.pc with
  | writing place results todo => exact completes_writing place results todo s.memory
  | reporting statuses => exact .report
  | _ =>
    rw [← hpc]
    have hexec : chunk.pc.executing = true := by rw [hpc]; rfl
    exact Ready.completes ⟨hcov, hunused, hne, by omega, hi.flight.apart hfirst,
      hi.finds hfirst hexec⟩ hexec

/-! ## The block can be completed -/

/-- No chunk is before the first one, so its worker is at it. -/
theorem step_work_first (hchunks : s.chunks = c :: post)
    (h : WorkStep engine txs c.range s.memory c.pc memory' pc') :
    Step engine txs s (.work c.range)
      { s with chunks := { c with pc := pc' } :: post, memory := memory' } := by
  have hfirst : s.chunks = [] ++ c :: post := hchunks
  exact Step.work hfirst (fun _ hc => absurd hc not_mem_nil) h

theorem step_report_first {statuses : List CommitTransactionDetails}
    (hchunks : s.chunks = c :: post) (hpc : c.pc = .reporting statuses) :
    Step engine txs s (.report c.range)
      { s with chunks := post, finishes := s.finishes ++ [(c.range, statuses)] } := by
  have hfirst : s.chunks = [] ++ c :: post := hchunks
  exact Step.report hfirst (fun _ hc => absurd hc not_mem_nil) hpc

/-- The worker of the first chunk takes it to the finish channel. -/
theorem exists_report {pc : Pc engine} (h : Completes engine txs range memory pc)
    (hchunks : s.chunks = chunk :: post) (hrange : chunk.range = range) (hpc : chunk.pc = pc)
    (hmemory : s.memory = memory) :
    ∃ tr t, (sys engine txs bank).Run s tr t ∧ t.sched = s.sched ∧
      ∃ statuses, t.finishes = s.finishes ++ [(range, statuses)] := by
  -- the steps of the chunk are steps of the system, as its worker is at it
  induction h generalizing s chunk with
  | report =>
    subst hrange
    exact ⟨_, _, Lts.Run.single (step_report_first hchunks hpc), rfl, _, rfl⟩
  | @step _ memory' _ pc' hwork hrest ih =>
    subst hrange hpc hmemory
    obtain ⟨tr, t, hrun, hsched, hfin⟩ := ih (s := { s with
      chunks := { chunk with pc := pc' } :: post
      memory := memory' }) rfl rfl rfl rfl
    exact ⟨_, t, hrun.cons (step_work_first hchunks hwork), hsched, hfin⟩

/-- The next finished range is taken off the channel: more is done. -/
theorem exists_finish (hi : Inv engine txs bank s) (hreads : ReadsCount txs)
    (hcov : LoadsCovered engine txs bank) (hloop : s.sched.sched.finished = false)
    (hsome : s.finishes ≠ []) :
    ∃ a t, Step engine txs s a t ∧ Inv engine txs bank t ∧
      (flat s.sched.done).length < (flat t.sched.done).length := by
  obtain ⟨⟨range, statuses⟩, rest, hhead⟩ := exists_cons_of_ne_nil hsome
  have hout : range ∈ s.sched.outstanding :=
    hi.flight.mem_outstanding_of_finish (f := (range, statuses)) (by simp [hhead])
  have hne := hi.flight.sched.inv.nonempty _ (mem_append_left _ hout)
  obtain ⟨locks, hok, -⟩ := hi.flight.sched.inv.finish_spec hout
  have hstep := Step.finish hloop hhead (Devin.Step.finish range _ hout hok)
  refine ⟨_, _, hstep, inv_step hstep hreads hcov hi, ?_⟩
  rw [flat_append, length_append, flat_singleton, Range.length_toList, Range.len]
  omega

/-- With nothing in flight, the scheduler has work as long as the block is not
complete. -/
theorem exists_pop (hi : Inv engine txs bank s) (hne : txs ≠ [])
    (hloop : s.sched.sched.finished = false) (hchunks : s.chunks = []) (hfin : s.finishes = []) :
    ∃ a t, Step engine txs s a t ∧ t.chunks ≠ [] ∧
      t.sched.sched.finished = false ∧ t.sched.done = s.sched.done := by
  have hsched := hi.flight.sched.inv
  -- what is outstanding is at a worker or in the channel
  have hout : s.sched.outstanding = [] := by
    have hplaces := hi.flight.places
    rw [hchunks, hfin] at hplaces
    exact hplaces.symm.eq_nil
  have hlen : (flat s.sched.done).length ≤ txs.length := by
    have := hsched.partition.length_eq
    simp only [length_append, length_range] at this
    omega
  have hlt : s.sched.sched.completed < txs.length := by
    rcases Nat.lt_or_ge s.sched.sched.completed txs.length with hlt | hge
    · exact hlt
    · -- everything completed: then the scheduler is finished
      have hall : s.sched.sched.completed = txs.length := by
        rw [hsched.completed] at hge ⊢
        omega
      have hdone : s.sched.done ≠ [] := by
        intro hnil
        rw [hsched.completed, hnil] at hall
        exact hne (eq_nil_of_length_eq_zero hall.symm)
      rw [hsched.finished.mpr ⟨hdone, hall⟩] at hloop
      cases hloop
  obtain ⟨r, d', hpop⟩ := hsched.pop_isSome hlt hout
  obtain ⟨taken, rest, hp⟩ := hsched.popped hpop
  refine ⟨_, _, Step.pop hloop (Devin.Step.pop (some r) d' hpop), ?_, ?_, rfl⟩
  · simp
  · exact hp.finished.trans hloop

/-- From every reachable state of a non-empty block the loop can come to its
end. -/
theorem exists_finished (hreads : ReadsCount txs)
    (hcov : LoadsCovered engine txs bank) (hunused : NeverInUse engine txs bank)
    (hne : txs ≠ []) (hi : Inv engine txs bank s) :
    ∃ tr t, (sys engine txs bank).Run s tr t ∧ t.sched.sched.finished = true := by
  -- on the number of txs that are not done
  generalize hm : txs.length - (flat s.sched.done).length = m
  induction m using Nat.strongRecOn generalizing s with
  | ind m ih =>
    -- with a report in the channel, the loop takes it and has less left
    have hreport : ∀ u : St engine, Inv engine txs bank u →
        u.sched.sched.finished = false → u.sched.done = s.sched.done → u.finishes ≠ [] →
        ∃ tr t, (sys engine txs bank).Run u tr t ∧ t.sched.sched.finished = true := by
      intro u hu hloop hdone hsome
      obtain ⟨a, t, hstep, ht, hmore⟩ := exists_finish hu hreads hcov hloop hsome
      have hle : (flat t.sched.done).length ≤ txs.length := by
        have := ht.flight.sched.inv.partition.length_eq
        simp only [length_append, length_range] at this
        omega
      rw [hdone] at hmore
      obtain ⟨tr, v, hrun, hfin⟩ := ih _ (by omega) ht rfl
      exact ⟨_, v, hrun.cons hstep, hfin⟩
    -- with a chunk at a worker, that chunk gets there
    have hchunk : ∀ u : St engine, Inv engine txs bank u →
        u.sched.sched.finished = false → u.sched.done = s.sched.done → u.chunks ≠ [] →
        ∃ tr t, (sys engine txs bank).Run u tr t ∧ t.sched.sched.finished = true := by
      intro u hu hloop hdone hsome
      obtain ⟨c, post, hchunks⟩ := exists_cons_of_ne_nil hsome
      obtain ⟨tr, t, hrun, hsched, statuses, hfin⟩ :=
        exists_report (hu.completes hcov hunused hchunks) hchunks rfl rfl rfl
      have ht : Inv engine txs bank t :=
        hrun.inv (Inv engine txs bank) hu fun _ _ _ h => inv_step h hreads hcov
      obtain ⟨tr', v, hrun', hend⟩ := hreport t ht (by rw [hsched]; exact hloop)
        (by rw [hsched]; exact hdone) (by rw [hfin]; simp)
      exact ⟨_, v, hrun.append hrun', hend⟩
    by_cases hloop : s.sched.sched.finished = true
    · exact ⟨[], s, Lts.Run.nil, hloop⟩
    · rw [Bool.not_eq_true] at hloop
      by_cases hfin : s.finishes = []
      · by_cases hchunks : s.chunks = []
        · obtain ⟨a, t, hstep, hsome, hloop', hdone⟩ := exists_pop hi hne hloop hchunks hfin
          obtain ⟨tr, v, hrun, hend⟩ := hchunk t (inv_step hstep hreads hcov hi) hloop' hdone hsome
          exact ⟨_, v, hrun.cons hstep, hend⟩
        · exact hchunk s hi hloop rfl hchunks
      · exact hreport s hi hloop rfl hfin

/-! ## Parallel execution equals block order -/

/-- Whatever a chunk is about to ask, of the bank for a check or of its loader for
a transaction, is answered as in block order. -/
def LoadsInOrder (engine : Engine Key Body) (txs : List (Transaction Key Body))
    (bank : Accounts Key) (s : St engine) : Prop :=
  ∀ chunk ∈ s.chunks,
    (∀ checks k next, chunk.pc = .checking checks (.read k next) →
      getAccountSharedData s.memory.bank k =
        viewAt engine txs bank (chunk.range.start + checks.length) k) ∧
    ∀ checks loaded results q next, chunk.pc = .processing checks loaded results (.read q next) →
      (answer s.memory.bank loaded q).1 =
        viewAt engine txs bank (chunk.range.start + results.length) q.key

theorem Inv.loadsInOrder (hi : Inv engine txs bank s) : LoadsInOrder engine txs bank s := by
  intro chunk hmem
  obtain ⟨pre, post, hchunks⟩ := append_of_mem hmem
  have hok := hi.chunks chunk hmem
  constructor
  · intro checks k next hpc
    have hfinds := hi.finds hchunks (by rw [hpc]; rfl)
    rw [hpc] at hok
    exact hok.check_eq hfinds
  · intro checks loaded results q next hpc
    have hfinds := hi.finds hchunks (by rw [hpc]; rfl)
    rw [hpc] at hok
    exact hok.answer_eq hfinds

/-- When the scheduler is finished, everything is applied. -/
theorem Inv.eq_inOrder (hi : Inv engine txs bank s) (hfin : s.sched.sched.finished = true) :
    s.memory.bank = (executeInOrder engine bank txs).1 ∧
      s.details = (executeInOrder engine bank txs).2 := by
  have hsched := hi.flight.sched.inv
  have hall : ∀ i < txs.length, i ∈ flat s.sched.done :=
    hsched.completed_iff.mp (hsched.finished.mp hfin).2
  constructor
  · funext k
    rw [executeInOrder_fst]
    refine hi.memory .bank k txs.length ⟨fun j hj _ => Or.inl (hall j hj), ?_⟩
    intro j hj hw
    simp [WritesAt, accessAt, getElem?_eq_none hj, Writes] at hw
  · apply ext_getElem?
    intro i
    rw [executeInOrder_snd]
    rcases Nat.lt_or_ge i txs.length with hlt | hge
    · exact hi.details i (hall i hlt)
    · rw [getElem?_eq_none (by rw [hi.length]; exact hge), detailAt, resultAt, getElem?_eq_none hge]
      rfl

omit [Inhabited Key] in
/-- The reads of a block can be counted when no transaction names an account
twice. -/
theorem readsCount_of_nodup (h : ∀ tx ∈ txs, tx.accountKeys.Nodup) : ReadsCount txs := by
  intro k
  left
  intro i
  cases htx : txs[i]? with
  | none => simp [accessAt, htx, reads]
  | some tx =>
    rw [accessAt_of_getElem? htx]
    have hnodup := List.Nodup.of_map _ (h tx (mem_of_getElem? htx))
    exact nodup_iff_count_le_one.mp hnodup (k, false)

/-- For every block whose reads can be counted, every bank and every engine that
loads no account which it does not name and another transaction writes: in every
interleaving each load is answered as in block order; when the loop ends, the
bank and the commit details are those of executing and committing one at a time;
and the loop can end from wherever it is. -/
theorem parallel_eq_inOrder (hreads : ReadsCount txs)
    (hcov : LoadsCovered engine txs bank) {tr : List Act} {s : St engine}
    (hrun : (sys engine txs bank).Run (start engine txs bank) tr s) :
    LoadsInOrder engine txs bank s ∧
    (s.sched.sched.finished = true →
      s.memory.bank = (executeInOrder engine bank txs).1 ∧
        s.details = (executeInOrder engine bank txs).2) ∧
    (txs ≠ [] → NeverInUse engine txs bank →
      ∃ tr' t, (sys engine txs bank).Run s tr' t ∧ t.sched.sched.finished = true) := by
  have hi := inv_run hreads hcov hrun
  exact ⟨hi.loadsInOrder, hi.eq_inOrder, fun hne hunused =>
    exists_finished hreads hcov hunused hne hi⟩

/-! ## Two small blocks -/

inductive Instruction where
  | transfer (lamports : ℕ)
  | call

/-- `TRANSACTION_ACCOUNT_BASE_SIZE` and the data, for an account that exists. -/
def loadedSize (account : Option (Account ℕ)) : ℕ :=
  account.elim 0 fun account => 64 + account.data.length

def transferOutcome (payer : Account ℕ) (recipient : Option (Account ℕ)) (lamports : ℕ) :
    Outcome ℕ :=
  let credited := recipient.getD default
  .loaded ⟨payer, payer.rentEpoch, none⟩
    (if lamports ≤ payer.lamports then .ok () else .error (.other 1))
    [{ payer with lamports := payer.lamports - lamports },
      { credited with lamports := credited.lamports + lamports }] 150
    (loadedSize (some payer) + loadedSize recipient)

/-- An engine that moves lamports and calls programs. As in
`load_transaction_accounts_simd186`, a program's data names its programdata
account, which is loaded without being an account of the transaction and counts
towards the loaded size when it exists. -/
def programEngine : Engine ℕ Instruction where
  Checked := Unit
  accountLockLimit := 64
  check := fun _ => .done (.ok ())
  process := fun tx _ =>
    .read ⟨tx.feePayer, true⟩ fun payer =>
      match payer, tx.others with
      | some payer, (k, _) :: _ =>
          .read ⟨k, true⟩ fun account =>
            match tx.body, account with
            | .transfer lamports, recipient => .done (transferOutcome payer recipient lamports)
            | .call, none => .done (.notLoaded (.other 2))
            | .call, some program =>
                .read ⟨(program.data.head?.map BitVec.toNat).getD 0, true⟩ fun programdata =>
                  .done (.loaded ⟨payer, payer.rentEpoch, none⟩ (.ok ()) [payer, program] 150
                    (loadedSize (some payer) + loadedSize (some program) + loadedSize programdata))
      | _, _ => .done (.notLoaded .accountNotFound)

/-- A transaction on the fee payer and one more account. -/
def onTwo (feePayer account : ℕ) (writable : Bool) (cost : ℕ) (body : Instruction) :
    Transaction ℕ Instruction where
  feePayer := feePayer
  others := [(account, writable)]
  nonce := none
  isInvoked := fun _ => false
  isInstructionAccount := fun _ => true
  cost := cost
  body := body
  nonce_writable := by simp

/-- An account with lamports and data and nothing else. -/
def plainAccount (lamports : ℕ) (data : List (BitVec 8)) : Account ℕ :=
  ⟨lamports, data, 0, false, 0⟩

/-- Account 1 gives away all it has, and then has to pay for another
transaction. -/
def drainBlock : List (Transaction ℕ Instruction) :=
  [onTwo 1 2 true 10 (.transfer 10), onTwo 1 3 true 10 (.transfer 5)]

/-- The only account is account 1. -/
def drainBank : Accounts ℕ := fun k => if k = 1 then some (plainAccount 10 []) else none

/-- Both load only what they name. -/
theorem loadsCovered_drainBlock : LoadsCovered programEngine drainBlock drainBank := by
  intro i tx htx
  match i, htx with
  | 0, htx =>
    obtain rfl := Option.some.inj htx
    refine ⟨fun k hk => absurd hk not_mem_nil, fun q hq => ?_⟩
    have hasked : q ∈ [⟨1, true⟩, ⟨2, true⟩] := hq
    rcases mem_pair.mp hasked with rfl | rfl
    · exact Or.inl ⟨true, by decide⟩
    · exact Or.inl ⟨true, by decide⟩
  | 1, htx =>
    obtain rfl := Option.some.inj htx
    refine ⟨fun k hk => absurd hk not_mem_nil, fun q hq => ?_⟩
    -- the fee payer is gone, so nothing else is loaded
    have hasked : q ∈ [⟨1, true⟩] := hq
    obtain rfl := mem_singleton.mp hasked
    exact Or.inl ⟨true, by decide⟩
  | i + 2, htx => simp [drainBlock] at htx

/-- A run to the end of the block, whose second transaction finds its fee payer gone: as in block
order the first is committed and leaves nothing, the second is not committed. -/
theorem parallel_eq_inOrder_drain : ∃ tr s, (sys programEngine drainBlock drainBank).Run
      (start programEngine drainBlock drainBank) tr s ∧
    s.memory.bank = (executeInOrder programEngine drainBank drainBlock).1 ∧
    s.details = [.committed 150 64 0 (.ok ()), .notCommitted .accountNotFound] := by
  have hreads : ReadsCount drainBlock := readsCount_of_nodup (by decide)
  have hunused : NeverInUse programEngine drainBlock drainBank := by
    intro i tx htx
    match i, htx with
    | 0, htx | 1, htx =>
      obtain rfl := Option.some.inj htx
      exact fun h => by cases h
    | i + 2, htx => simp [drainBlock] at htx
  obtain ⟨-, -, hends⟩ := parallel_eq_inOrder hreads loadsCovered_drainBlock Lts.Run.nil
  obtain ⟨tr, s, hrun, hfin⟩ := hends (cons_ne_nil _ _) hunused
  obtain ⟨-, hend, -⟩ := parallel_eq_inOrder hreads loadsCovered_drainBlock hrun
  exact ⟨tr, s, hrun, (hend hfin).1, (hend hfin).2⟩

/-- Account 4 is a program whose programdata account 3 does not exist. -/
def programBank : Accounts ℕ := fun k =>
  if k = 1 ∨ k = 2 then some (plainAccount 10 [])
  else if k = 4 then some (plainAccount 1 [3])
  else none

/-- The first transaction brings account 3 into existence, the second calls the
program. They name no account in common, and the first fills a range. -/
def programBlock : List (Transaction ℕ Instruction) :=
  [onTwo 1 3 true 1400001 (.transfer 5), onTwo 2 4 false 10 .call]

/-- A worker may be at its chunk while the chunk before it is with another
worker. -/
theorem step_work_second {c₀ c : Chunk engine}
    (hchunks : s.chunks = c₀ :: c :: post) (hworker : c₀.worker ≠ c.worker)
    (h : WorkStep engine txs c.range s.memory c.pc memory' pc') :
    Step engine txs s (.work c.range)
      { s with chunks := c₀ :: { c with pc := pc' } :: post, memory := memory' } := by
  have hsecond : s.chunks = [c₀] ++ c :: post := hchunks
  refine Step.work hsecond (fun c' hc' => ?_) h
  rw [mem_singleton.mp hc']
  exact hworker

omit [DecidableEq Key] [Inhabited Key] in
theorem ne_of_mem_singleton {result : TransactionProcessingResult Key}
    (h : result ≠ .error .accountInUse) : ∀ r ∈ [] ++ [result], r ≠ .error .accountInUse := by
  intro r hr
  rw [mem_singleton.mp hr]
  exact h

/-- The second transaction loads before the first one has written anything, and
is committed after it. -/
theorem program_run : ∃ tr s, (sys programEngine programBlock programBank).Run
      (start programEngine programBlock programBank) tr s ∧ s.sched.sched.finished = true ∧
    s.details[1]? = some (.committed 150 129 10 (.ok ())) := by
  have hrun : (sys programEngine programBlock programBank).Run
      (start programEngine programBlock programBank) _ _ :=
    .cons (.pop rfl (.pop (some ⟨0, 1⟩) _ rfl)) <|
    .cons (.pop rfl (.pop (some ⟨1, 2⟩) _ rfl)) <|
    .cons (step_work_second rfl nofun (.prepare rfl rfl)) <|
    .cons (step_work_second rfl nofun (.checkLast rfl)) <|
    .cons (step_work_second rfl nofun (.copied rfl rfl)) <|
    .cons (step_work_second rfl nofun .load) <|
    .cons (step_work_second rfl nofun .load) <|
    .cons (step_work_second rfl nofun .load) <|
    .cons (step_work_first rfl (.prepare rfl rfl)) <|
    .cons (step_work_first rfl (.checkLast rfl)) <|
    .cons (step_work_first rfl (.copied rfl rfl)) <|
    .cons (step_work_first rfl .load) <|
    .cons (step_work_first rfl .load) <|
    .cons (step_work_first rfl (.processLast rfl rfl rfl (ne_of_mem_singleton nofun))) <|
    .cons (step_work_first rfl .write) <|
    .cons (step_work_first rfl .write) <|
    .cons (step_work_first rfl .commit) <|
    .cons (step_work_first rfl .write) <|
    .cons (step_work_first rfl .write) <|
    .cons (step_work_first rfl (.committed rfl)) <|
    .cons (step_report_first rfl rfl) <|
    .cons (.finish rfl rfl (.finish ⟨0, 1⟩ _ (by decide) rfl)) <|
    .cons (step_work_first rfl (.processLast rfl rfl rfl (ne_of_mem_singleton nofun))) <|
    .cons (step_work_first rfl .write) <|
    .cons (step_work_first rfl .commit) <|
    .cons (step_work_first rfl .write) <|
    .cons (step_work_first rfl (.committed rfl)) <|
    .cons (step_report_first rfl rfl) <|
    .cons (.finish rfl rfl (.finish ⟨1, 2⟩ _ (by decide) rfl)) .nil
  exact ⟨_, _, hrun, rfl, rfl⟩

/-- The loaded size of the second transaction leaves out the programdata account
that it finds in block order, though nothing that the two name conflicts. And two reads of one
transaction that saturate the count take out one more than they put in. -/
theorem parallel_ne_inOrder : ReadsCount programBlock ∧ ¬ ConflictAt programBlock 0 1 ∧
    ∃ tr s, (sys programEngine programBlock programBank).Run
        (start programEngine programBlock programBank) tr s ∧
      s.sched.sched.finished = true ∧
      s.details[1]? = some (.committed 150 129 10 (.ok ())) ∧
      (executeInOrder programEngine programBank programBlock).2[1]? =
        some (.committed 150 193 10 (.ok ())) ∧
      s.details ≠ (executeInOrder programEngine programBank programBlock).2 ∧
      let reads := [(0, false), (0, false)]
      let locks : Devin.Locks ℕ := fun _ => some (Devin.U32.max - 1)
      Devin.isBlocked reads locks = false ∧
      Devin.unlockAccounts reads (Devin.lockAccounts reads locks) 0 =
        some (Devin.U32.max - 2) := by
  refine ⟨readsCount_of_nodup (by decide), ?_, ?_⟩
  · rintro ⟨k, ⟨w, hw⟩, ⟨w', hw'⟩, -⟩
    replace hw : (k, w) ∈ [(1, true), (3, true)] := hw
    replace hw' : (k, w') ∈ [(2, true), (4, false)] := hw'
    simp only [mem_cons, Prod.mk.injEq, not_mem_nil, or_false] at hw hw'
    omega
  · obtain ⟨tr, s, hrun, hfin, hdetail⟩ := program_run
    have horder : (executeInOrder programEngine programBank programBlock).2[1]? =
        some (.committed 150 193 10 (.ok ())) := rfl
    refine ⟨tr, s, hrun, hfin, hdetail, horder, fun hsame => ?_, by decide, by decide⟩
    rw [hsame, horder] at hdetail
    simp at hdetail

end Salsa.Block
