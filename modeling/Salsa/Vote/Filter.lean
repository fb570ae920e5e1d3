import Salsa.Vote.State

/-!
# Salsa.Vote.Filter — the proposed votes against the slot hashes

`check_and_filter_proposed_vote_state` of `programs/vote/src/vote_state/mod.rs`: the
proposed votes must lie on this fork, which is known only for the slots in the slot
hashes, newest first. Votes older than all slot hashes are dropped unless the account
holds them; a root that old is replaced by what the account has.

One loop walks the proposed root and votes upwards and the slot hashes backwards. The
loop's body is `filterBody`, a step of the two cursors; a failed index, `expect` or
`assert` is none.
-/

namespace Salsa.Vote

open Fallible List Option

variable {Hash : Type}

/-- `contains_slot`, by the binary search over the ordered votes. -/
def VoteState.containsSlot (self : VoteState) (candidateSlot : ℕ) : Bool :=
  self.votes.any (·.slot = candidateSlot)

/-- The variables of the loop: the root, until it is checked, the index of the next proposed
vote, one more than the index of the next slot hash, and the indices of the votes to drop. -/
structure Cursor where
  rootToCheck : Option ℕ
  lockoutsIndex : ℕ
  hashesIndex : ℕ
  toFilter : List ℕ
deriving DecidableEq, Repr

/-- The slot to check next. -/
def Cursor.proposedVoteSlot (c : Cursor) (proposedLockouts : List Lockout) : Option ℕ :=
  c.rootToCheck.or (proposedLockouts[c.lockoutsIndex]?.map Lockout.slot)

/-- Whether a vote is not above the one before it. -/
def Cursor.outOfOrder (c : Cursor) (proposedLockouts : List Lockout) (slot : ℕ) : Option Bool :=
  if c.rootToCheck.isNone ∧ 0 < c.lockoutsIndex then
    proposedLockouts[c.lockoutsIndex - 1]?.map fun previous => decide (slot ≤ previous.slot)
  else some false

variable (self : VoteState) (proposedLockouts : List Lockout) (slotHashes : List (ℕ × Hash))
  (earliest : ℕ) (c : Cursor)

/-- A slot that is older than the slot hash it is compared with. -/
def filterOlder (slot : ℕ) : Option (Except VoteError Cursor) :=
  if c.hashesIndex = slotHashes.length then
    -- older than all slot hashes
    if earliest ≤ slot then some (.error .assertionFailed)
    else
      let toFilter :=
        if !self.containsSlot slot ∧ c.rootToCheck.isNone then c.toFilter ++ [c.lockoutsIndex]
        else c.toFilter
      match c.rootToCheck with
      | some newRoot =>
          if newRoot ≠ slot then none
          else if earliest ≤ newRoot then some (.error .assertionFailed)
          else some (.ok { c with rootToCheck := none, toFilter })
      | none => some (.ok { c with lockoutsIndex := c.lockoutsIndex + 1, toFilter })
  else if c.rootToCheck.isSome then some (.error .rootOnDifferentFork)
  else some (.error .slotsMismatch)

def filterBody : Option (Except VoteError Cursor) :=
  (c.proposedVoteSlot proposedLockouts).bind fun slot =>
  (c.outOfOrder proposedLockouts slot).bind fun outOfOrder =>
  if outOfOrder then some (.error .slotsNotOrdered)
  else
    slotHashes[c.hashesIndex - 1]?.bind fun ancestor =>
    if slot < ancestor.1 then filterOlder self slotHashes earliest c slot
    else if ancestor.1 < slot then some (.ok { c with hashesIndex := c.hashesIndex - 1 })
    else if c.rootToCheck.isSome then some (.ok { c with rootToCheck := none })
    else
      some (.ok { c with
        lockoutsIndex := c.lockoutsIndex + 1, hashesIndex := c.hashesIndex - 1 })

def Cursor.goesOn (c : Cursor) (proposedLockouts : List Lockout) : Prop :=
  c.lockoutsIndex < proposedLockouts.length ∧ 0 < c.hashesIndex

/-- What is left to check; every step takes some of it. -/
def Cursor.left (c : Cursor) (proposedLockouts : List Lockout) : ℕ :=
  c.rootToCheck.elim 0 (fun _ => 1) + (proposedLockouts.length - c.lockoutsIndex) + c.hashesIndex

instance (c : Cursor) (proposedLockouts : List Lockout) : Decidable (c.goesOn proposedLockouts) :=
  inferInstanceAs (Decidable (_ ∧ _))

/-- The ways the cursors move. -/
inductive BodyStep : Cursor → Prop where
  /-- the root is found or too old -/
  | root : c.rootToCheck ≠ none → BodyStep { c with rootToCheck := none }
  /-- the slot hash is too old -/
  | hash : BodyStep { c with hashesIndex := c.hashesIndex - 1 }
  /-- the vote is older than all slot hashes -/
  | older (l : Lockout) : c.rootToCheck = none → proposedLockouts[c.lockoutsIndex]? = some l →
      c.outOfOrder proposedLockouts l.slot = some false → l.slot < earliest →
      BodyStep { c with
        lockoutsIndex := c.lockoutsIndex + 1
        toFilter :=
          if self.containsSlot l.slot then c.toFilter else c.toFilter ++ [c.lockoutsIndex] }
  | found (l : Lockout) (hash : Hash) : c.rootToCheck = none →
      proposedLockouts[c.lockoutsIndex]? = some l →
      c.outOfOrder proposedLockouts l.slot = some false →
      slotHashes[c.hashesIndex - 1]? = some (l.slot, hash) →
      BodyStep { c with lockoutsIndex := c.lockoutsIndex + 1, hashesIndex := c.hashesIndex - 1 }

variable {self proposedLockouts slotHashes earliest c} {c' : Cursor} {hash : Hash} {slot : ℕ}
  {toFilter : List ℕ}

theorem filterOlder_root {r slot : ℕ} (hroot : c.rootToCheck = some r)
    (h : filterOlder self slotHashes earliest c slot = some (.ok c')) :
    c' = { c with rootToCheck := none } := by
  unfold filterOlder at h
  rw [hroot] at h
  simp only [isNone_some, Bool.false_eq_true, and_false, if_false] at h
  split_ifs at h
  all_goals cases h
  rfl

theorem filterOlder_vote (hroot : c.rootToCheck = none)
    (h : filterOlder self slotHashes earliest c slot = some (.ok c')) :
    slot < earliest ∧ c' = { c with
      lockoutsIndex := c.lockoutsIndex + 1
      toFilter :=
        if self.containsSlot slot then c.toFilter else c.toFilter ++ [c.lockoutsIndex] } := by
  unfold filterOlder at h
  rw [hroot] at h
  simp only [isNone_none, and_true] at h
  split_ifs at h with hall hold hnot hsome
  · cases h
  · cases h
    refine ⟨by omega, ?_⟩
    rw [if_neg (by simpa using hnot), hroot]
  · cases h
    refine ⟨by omega, ?_⟩
    rw [if_pos (by simpa using hnot), hroot]
  all_goals cases h

/-- A turn of the loop that goes on is one of the steps. -/
theorem bodyStep_of_ok
    (h : filterBody self proposedLockouts slotHashes earliest c = some (.ok c')) :
    BodyStep self proposedLockouts slotHashes earliest c c' := by
  obtain ⟨slot, hslot, h⟩ := bind_eq_some_iff.mp h
  obtain ⟨outOfOrder, horder, h⟩ := bind_eq_some_iff.mp h
  cases outOfOrder with
  | true => cases h
  | false =>
    obtain ⟨⟨ancestor, hash⟩, hancestor, h⟩ := bind_eq_some_iff.mp h
    cases hroot : c.rootToCheck with
    | some r =>
      have hroot' : c.rootToCheck ≠ none := by
        rw [hroot]
        exact some_ne_none r
      split_ifs at h with hlt hgt hsome
      · rw [filterOlder_root hroot h]
        exact .root hroot'
      · cases h
        exact .hash
      · cases h
        exact .root hroot'
      · rw [hroot] at hsome
        exact absurd rfl hsome
    | none =>
      rw [Cursor.proposedVoteSlot, hroot, none_or] at hslot
      obtain ⟨l, hl, rfl⟩ := map_eq_some_iff.mp hslot
      split_ifs at h with hlt hgt hsome
      · obtain ⟨hold, hc'⟩ := filterOlder_vote hroot h
        rw [hc']
        exact .older l hroot hl horder hold
      · cases h
        exact .hash
      · rw [hroot] at hsome
        cases hsome
      · cases h
        have heq : ancestor = l.slot := by omega
        rw [heq] at hancestor
        exact .found l hash hroot hl horder hancestor

theorem BodyStep.left_lt (h : BodyStep self proposedLockouts slotHashes earliest c c')
    (hc : c.goesOn proposedLockouts) : c'.left proposedLockouts < c.left proposedLockouts := by
  have hlt := hc.1
  have hpos := hc.2
  unfold Cursor.left
  cases h with
  | root hroot =>
    obtain ⟨r, hr⟩ := ne_none_iff_exists'.mp hroot
    rw [hr, elim_none, elim_some]
    dsimp only
    omega
  | hash =>
    dsimp only
    omega
  | older l hroot hl horder hold =>
    dsimp only
    omega
  | found l hash hroot hl horder hfound =>
    dsimp only
    omega

def filterLoop (self : VoteState) (proposedLockouts : List Lockout) (slotHashes : List (ℕ × Hash))
    (earliest : ℕ) (c : Cursor) : Option (Except VoteError Cursor) :=
  if _hc : c.goesOn proposedLockouts then
    match _h : filterBody self proposedLockouts slotHashes earliest c with
    | none => none
    | some (.error e) => some (.error e)
    | some (.ok c') => filterLoop self proposedLockouts slotHashes earliest c'
  else some (.ok c)
termination_by c.left proposedLockouts
decreasing_by exact (bodyStep_of_ok _h).left_lt _hc

/-- The votes that are kept, with the two counters of the closure. -/
def retain (toFilter : List ℕ) : List Lockout → ℕ → ℕ → List Lockout
  | [], _, _ => []
  | lockout :: lockouts, lockoutsIndex, filterIndex =>
      if filterIndex = toFilter.length then
        lockout :: retain toFilter lockouts (lockoutsIndex + 1) filterIndex
      else if toFilter[filterIndex]? = some lockoutsIndex then
        retain toFilter lockouts (lockoutsIndex + 1) (filterIndex + 1)
      else lockout :: retain toFilter lockouts (lockoutsIndex + 1) filterIndex

/-- The root to check: one older than all slot hashes gives way to the latest vote of the
account that is not above it, or to the account's root. -/
def adjustRoot (self : VoteState) (earliest : ℕ) (proposedRoot : Option ℕ) : Option ℕ :=
  match proposedRoot with
  | none => none
  | some root =>
      if root < earliest then
        ((self.votes.reverse.find? (·.slot ≤ root)).map LandedVote.slot).or self.rootSlot
      else some root

/-- `check_and_filter_proposed_vote_state`, with the votes and the root it leaves. -/
def checkAndFilterProposedVoteState [DecidableEq Hash] (self : VoteState)
    (proposedLockouts : List Lockout)
    (proposedRoot : Option ℕ) (proposedHash : Hash) (slotHashes : List (ℕ × Hash)) :
    Option (Except VoteError (List Lockout × Option ℕ)) :=
  match proposedLockouts.getLast?, slotHashes.getLast? with
  | none, _ => some (.error .emptySlots)
  | some last, oldest =>
      if self.votes.getLast?.any (last.slot ≤ ·.slot) then some (.error .voteTooOld)
      else
        match oldest with
        | none => some (.error .slotsMismatch)
        | some (earliest, _) =>
            if last.slot < earliest then some (.error .voteTooOld)
            else
              let root := adjustRoot self earliest proposedRoot
              match filterLoop self proposedLockouts slotHashes earliest
                ⟨root, 0, slotHashes.length, []⟩ with
              | none => none
              | some (.error e) => some (.error e)
              | some (.ok c) =>
                  if c.lockoutsIndex ≠ proposedLockouts.length then some (.error .slotsMismatch)
                  else
                    slotHashes[c.hashesIndex]?.bind fun (slot, hash) =>
                    if last.slot ≠ slot then none
                    else if hash ≠ proposedHash then some (.error .slotHashMismatch)
                    else some (.ok (retain c.toFilter proposedLockouts 0 0, root))

/-! ## What the loop has checked -/

def dropped (self : VoteState) (earliest : ℕ) (l : Lockout) : Bool :=
  l.slot < earliest ∧ self.containsSlot l.slot = false

/-- The votes behind the cursor are in order, each is old or among the slot hashes, and the
old ones that the account does not hold are to be dropped. -/
structure FilterInv (state : VoteState) (proposedLockouts : List Lockout)
    (slotHashes : List (ℕ × Hash)) (earliest : ℕ) (c : Cursor) : Prop where
  hashes_le : c.hashesIndex ≤ slotHashes.length
  ordered : (proposedLockouts.take c.lockoutsIndex).IsChain fun v w => v.slot < w.slot
  known : ∀ l ∈ proposedLockouts.take c.lockoutsIndex,
    l.slot < earliest ∨ l.slot ∈ slotHashes.map Prod.fst
  filtered : c.toFilter =
    ((proposedLockouts.take c.lockoutsIndex).zipIdx.filter (dropped state earliest ·.1)).map
      Prod.snd
  -- the last vote, if it is not old, has just been found
  last : c.lockoutsIndex = proposedLockouts.length →
    ∀ l ∈ proposedLockouts.getLast?, l.slot < earliest ∨
      ∃ hash, slotHashes[c.hashesIndex]? = some (l.slot, hash)

theorem take_succ_eq {l : Lockout} (hl : proposedLockouts[c.lockoutsIndex]? = some l) :
    proposedLockouts.take (c.lockoutsIndex + 1) = proposedLockouts.take c.lockoutsIndex ++ [l] := by
  rw [take_add_one, hl]
  rfl

/-- The order check compares with the vote before. -/
theorem slot_lt_of_outOfOrder {l v : Lockout} (hroot : c.rootToCheck = none)
    (horder : c.outOfOrder proposedLockouts l.slot = some false)
    (hv : v ∈ (proposedLockouts.take c.lockoutsIndex).getLast?) : v.slot < l.slot := by
  rw [mem_def, getLast?_take] at hv
  split_ifs at hv with hzero
  have hpos : c.rootToCheck.isNone ∧ 0 < c.lockoutsIndex := by
    rw [hroot]
    exact ⟨rfl, Nat.pos_of_ne_zero hzero⟩
  rw [Cursor.outOfOrder, if_pos hpos] at horder
  obtain ⟨previous, hprevious, hle⟩ := map_eq_some_iff.mp horder
  rw [hprevious, some_or] at hv
  cases hv
  exact Nat.lt_of_not_le (of_decide_eq_false hle)

/-- The invariant past one lockout. -/
theorem FilterInv.advance (h : FilterInv self proposedLockouts slotHashes earliest c) {l : Lockout}
    {hashesIndex : ℕ} {rootToCheck : Option ℕ} (hroot : c.rootToCheck = none)
    (hl : proposedLockouts[c.lockoutsIndex]? = some l)
    (horder : c.outOfOrder proposedLockouts l.slot = some false)
    (hhashes : hashesIndex ≤ slotHashes.length)
    (hknown : l.slot < earliest ∨ ∃ hash, slotHashes[hashesIndex]? = some (l.slot, hash))
    (hfilter : toFilter =
      if dropped self earliest l then c.toFilter ++ [c.lockoutsIndex] else c.toFilter) :
    FilterInv self proposedLockouts slotHashes earliest
      ⟨rootToCheck, c.lockoutsIndex + 1, hashesIndex, toFilter⟩ := by
  have htake := take_succ_eq hl
  have hlt : c.lockoutsIndex < proposedLockouts.length := (List.getElem?_eq_some_iff.mp hl).1
  refine ⟨hhashes, ?_, ?_, ?_, ?_⟩
  · rw [htake]
    refine h.ordered.append (isChain_singleton l) ?_
    intro v hv w hw
    cases hw
    exact slot_lt_of_outOfOrder hroot horder hv
  · rw [htake]
    refine forall_mem_append.mpr ⟨h.known, forall_mem_singleton.mpr (hknown.imp_right ?_)⟩
    rintro ⟨hash, hhash⟩
    exact mem_map_of_mem (mem_of_getElem? hhash)
  · rw [htake, zipIdx_append, filter_append, map_append, ← h.filtered, hfilter,
      length_take_of_le hlt.le, Nat.zero_add, zipIdx_singleton]
    by_cases hdropped : dropped self earliest l = true
    · simp [hdropped]
    · simp [hdropped]
  · intro hlen v hv
    have hlast : proposedLockouts.getLast? = some l := by
      rw [getLast?_eq_getElem?, ← hlen]
      exact hl
    rw [hlast] at hv
    cases hv
    exact hknown

theorem FilterInv.step (hearliest : ∀ h ∈ slotHashes, earliest ≤ h.1)
    (h : FilterInv self proposedLockouts slotHashes earliest c) (hc : c.goesOn proposedLockouts)
    (hstep : BodyStep self proposedLockouts slotHashes earliest c c') :
    FilterInv self proposedLockouts slotHashes earliest c' := by
  have hle := h.hashes_le
  cases hstep with
  | root hroot => exact ⟨h.hashes_le, h.ordered, h.known, h.filtered, h.last⟩
  | hash =>
    refine ⟨?_, h.ordered, h.known, h.filtered, ?_⟩
    · show c.hashesIndex - 1 ≤ slotHashes.length
      omega
    · intro hlen
      exact absurd hlen hc.1.ne
  | older l hroot hl horder hold =>
    apply h.advance hroot hl horder h.hashes_le (Or.inl hold)
    unfold dropped
    cases hcontains : self.containsSlot l.slot with
    | true => simp
    | false => simp [hold]
  | found l hash hroot hl horder hfound =>
    have hnot : earliest ≤ l.slot := hearliest _ (mem_of_getElem? hfound)
    apply h.advance hroot hl horder (by omega) (Or.inr ⟨hash, hfound⟩)
    unfold dropped
    simp
    omega

theorem filterOlder_total (hroot : ∀ r ∈ c.rootToCheck, r = slot)
    (hold : c.hashesIndex = slotHashes.length → slot < earliest) :
    ∃ result, filterOlder self slotHashes earliest c slot = some result ∧
      result ≠ .error .assertionFailed := by
  unfold filterOlder
  by_cases hall : c.hashesIndex = slotHashes.length
  · have hlt := hold hall
    rw [if_pos hall, if_neg (Nat.not_le.mpr hlt)]
    cases hcheck : c.rootToCheck with
    | none => exact ⟨_, rfl, error_ne_ok.symm⟩
    | some r =>
      have hr : r = slot := hroot r hcheck
      simp only [hr, ne_eq, not_true_eq_false, if_false, if_neg (Nat.not_le.mpr hlt)]
      exact ⟨_, rfl, error_ne_ok.symm⟩
  · split_ifs
    · exact ⟨_, rfl, by simp⟩
    · exact ⟨_, rfl, by simp⟩

/-- No index of the body is out of range, and a slot older than the oldest slot hash is
older than the earliest slot. -/
theorem filterBody_total (hhashes : c.hashesIndex ≤ slotHashes.length)
    (holdest : ∃ hash, slotHashes[slotHashes.length - 1]? = some (earliest, hash))
    (hc : c.goesOn proposedLockouts) :
    ∃ result, filterBody self proposedLockouts slotHashes earliest c = some result ∧
      result ≠ .error .assertionFailed := by
  have hlt := hc.1
  have hpos := hc.2
  have hslot : ∃ slot, c.proposedVoteSlot proposedLockouts = some slot ∧
      ∀ r ∈ c.rootToCheck, r = slot := by
    unfold Cursor.proposedVoteSlot
    rw [getElem?_eq_getElem hlt]
    cases c.rootToCheck with
    | none => exact ⟨_, rfl, fun r hr => by cases hr⟩
    | some r => exact ⟨r, rfl, fun r' hr' => (mem_some_iff.mp hr').symm⟩
  have horder : ∀ slot, ∃ b, c.outOfOrder proposedLockouts slot = some b := by
    intro slot
    unfold Cursor.outOfOrder
    split_ifs
    · rw [getElem?_eq_getElem (by omega)]
      exact ⟨_, rfl⟩
    · exact ⟨false, rfl⟩
  have hancestor : ∃ ancestor, slotHashes[c.hashesIndex - 1]? = some ancestor :=
    ⟨_, getElem?_eq_getElem (by omega)⟩
  obtain ⟨slot, hslot, hroot⟩ := hslot
  obtain ⟨b, horder⟩ := horder slot
  obtain ⟨ancestor, hancestor⟩ := hancestor
  unfold filterBody
  rw [hslot, bind_some, horder, bind_some, hancestor, bind_some]
  split_ifs with hb hold hnew hsome
  · exact ⟨_, rfl, by simp⟩
  · apply filterOlder_total hroot
    intro hall
    obtain ⟨hash, holdest⟩ := holdest
    rw [hall, holdest] at hancestor
    cases hancestor
    exact hold
  · exact ⟨_, rfl, error_ne_ok.symm⟩
  · exact ⟨_, rfl, error_ne_ok.symm⟩
  · exact ⟨_, rfl, error_ne_ok.symm⟩

/-- The loop ends without a panic, and with the invariant. -/
theorem filterLoop_total (hearliest : ∀ h ∈ slotHashes, earliest ≤ h.1)
    (holdest : ∃ hash, slotHashes[slotHashes.length - 1]? = some (earliest, hash))
    (h : FilterInv self proposedLockouts slotHashes earliest c) :
    ∃ result, filterLoop self proposedLockouts slotHashes earliest c = some result ∧
      result ≠ .error .assertionFailed ∧
      ∀ c', result = .ok c' → FilterInv self proposedLockouts slotHashes earliest c' := by
  fun_induction filterLoop self proposedLockouts slotHashes earliest c with
  | case1 c hc hbody =>
    obtain ⟨result, hresult, -⟩ := filterBody_total h.hashes_le holdest hc
    rw [hbody] at hresult
    cases hresult
  | case2 c hc e hbody =>
    obtain ⟨result, hresult, hne⟩ := filterBody_total h.hashes_le holdest hc
    rw [hbody] at hresult
    cases hresult
    exact ⟨_, rfl, hne, fun c' hc' => absurd hc' error_ne_ok⟩
  | case3 c hc c' hbody ih => exact ih (h.step hearliest hc (bodyStep_of_ok hbody))
  | case4 c hc =>
    refine ⟨_, rfl, error_ne_ok.symm, ?_⟩
    intro c' hc'
    cases hc'
    exact h

/-- The closure of `retain` drops the votes at the given indices. -/
theorem retain_eq (p : Lockout → Bool) {lockouts : List Lockout} {n k : ℕ}
    (h : toFilter.drop k = ((lockouts.zipIdx n).filter (p ·.1)).map Prod.snd)
    (hk : k ≤ toFilter.length) : retain toFilter lockouts n k = lockouts.filter fun l => !p l := by
  induction lockouts generalizing n k with
  | nil => rfl
  | cons l lockouts ih =>
    rw [zipIdx_cons, filter_cons] at h
    unfold retain
    by_cases hp : p l = true
    · -- the next index to drop is this one
      rw [if_pos hp, map_cons] at h
      have hlt : k < toFilter.length := by
        by_contra hge
        rw [drop_eq_nil_of_le (by omega)] at h
        cases h
      rw [drop_eq_getElem_cons hlt] at h
      obtain ⟨hhead, htail⟩ := cons.inj h
      have hget : toFilter[k]? = some n := by
        rw [getElem?_eq_getElem hlt, hhead]
      rw [if_neg (by omega), if_pos hget, ih htail hlt, filter_cons_of_neg (by simp [hp])]
    · rw [if_neg hp] at h
      rw [filter_cons_of_pos (by simp [hp])]
      split_ifs with hend hget
      · rw [ih h hk]
      · -- the indices to drop come later
        have hmem : n ∈ toFilter.drop k := by
          apply mem_of_getElem? (i := 0)
          rw [getElem?_drop]
          exact hget
        rw [h] at hmem
        obtain ⟨⟨l', n'⟩, hl', rfl⟩ := mem_map.mp hmem
        have hle := le_snd_of_mem_zipIdx (mem_filter.mp hl').1
        exact absurd hle (Nat.not_succ_le_self n')
      · rw [ih h hk]

/-! ## What the function guarantees -/

/-- The oldest slot hash is the last one. -/
theorem earliest_le (hhashes : slotHashes.Pairwise fun a b => b.1 < a.1)
    (hlast : slotHashes.getLast? = some (earliest, hash)) : ∀ h ∈ slotHashes, earliest ≤ h.1 := by
  rcases eq_nil_or_concat slotHashes with rfl | ⟨front, last, rfl⟩
  · cases hlast
  · rw [concat_eq_append] at hhashes hlast ⊢
    rw [getLast?_concat] at hlast
    cases hlast
    intro h hh
    rcases mem_append.mp hh with hh | hh
    · exact ((pairwise_append.mp hhashes).2.2 h hh _ mem_cons_self).le
    · rw [mem_singleton.mp hh]

/-- The vote that replaces an old root is the greatest one not above it. -/
theorem adjustRoot_of_lt {root : ℕ}
    (hslots : self.votes.Pairwise fun v w => v.slot < w.slot) (hlt : root < earliest) :
    (∃ c ∈ self.votes, c.slot ≤ root ∧ (∀ d ∈ self.votes, d.slot ≤ root → d.slot ≤ c.slot) ∧
      adjustRoot self earliest (some root) = some c.slot) ∨
    (∀ c ∈ self.votes, root < c.slot) ∧ adjustRoot self earliest (some root) = self.rootSlot := by
  unfold adjustRoot
  dsimp only
  rw [if_pos hlt]
  cases hfind : self.votes.reverse.find? (·.slot ≤ root) with
  | none =>
    refine Or.inr ⟨?_, rfl⟩
    intro c hc
    have hnot := find?_eq_none.mp hfind c (mem_reverse.mpr hc)
    simpa using hnot
  | some c =>
    obtain ⟨hle, newer, older, hvotes, hnewer⟩ := find?_eq_some_iff_append.mp hfind
    have hreverse := pairwise_reverse.mpr hslots
    rw [hvotes] at hreverse
    have hmem : ∀ d, d ∈ self.votes ↔ d ∈ newer ++ c :: older := by
      intro d
      rw [← hvotes, mem_reverse]
    refine Or.inl ⟨c, (hmem c).mpr (by simp), of_decide_eq_true hle, ?_, rfl⟩
    intro d hd hdle
    rcases mem_append.mp ((hmem d).mp hd) with hd | hd
    · have hnot := hnewer d hd
      rw [decide_eq_true hdle] at hnot
      cases hnot
    · rcases mem_cons.mp hd with rfl | hd
      · exact Nat.le_refl _
      · exact (rel_of_pairwise_cons (pairwise_append.mp hreverse).2.1 hd).le

/-- The votes and the root that are left of a proposal. -/
structure Filtered (account : VoteState) (proposedLockouts : List Lockout) (proposedRoot : Option ℕ)
    (proposedHash : Hash) (slotHashes : List (ℕ × Hash)) (lockouts : List Lockout)
    (root : Option ℕ) : Prop where
  /-- the proposed slots are in order -/
  ordered : proposedLockouts.Pairwise fun v w => v.slot < w.slot
  /-- votes among the slot hashes are kept, and older ones that the account holds -/
  retained : lockouts = proposedLockouts.filter fun l =>
    l.slot ∈ slotHashes.map Prod.fst ∨
      (∀ h ∈ slotHashes, l.slot < h.1) ∧ l.slot ∈ account.votes.map LandedVote.slot
  removed : ∀ l ∈ proposedLockouts, l ∉ lockouts →
    (∀ h ∈ slotHashes, l.slot < h.1) ∧ l.slot ∉ account.votes.map LandedVote.slot
  /-- the last vote is kept, and has the proposed hash -/
  last : ∃ l, proposedLockouts.getLast? = some l ∧ l ∈ lockouts ∧
    (l.slot, proposedHash) ∈ slotHashes
  root_known : ∀ r, proposedRoot = some r → r ∈ slotHashes.map Prod.fst → root = some r
  root_old : ∀ r, proposedRoot = some r → (∀ h ∈ slotHashes, r < h.1) →
    (∃ c ∈ account.votes, c.slot ≤ r ∧ (∀ d ∈ account.votes, d.slot ≤ r → d.slot ≤ c.slot) ∧
      root = some c.slot) ∨
    (∀ c ∈ account.votes, r < c.slot) ∧ root = account.rootSlot

theorem containsSlot_iff :
    self.containsSlot slot = true ↔ slot ∈ self.votes.map LandedVote.slot := by
  unfold VoteState.containsSlot
  rw [List.any_eq_true, List.mem_map]
  simp only [decide_eq_true_eq]

/-- Older than the oldest slot hash is older than all of them. -/
theorem lt_earliest_iff (slot : ℕ) (hearliest : ∀ h ∈ slotHashes, earliest ≤ h.1)
    (hlast : slotHashes.getLast? = some (earliest, hash)) :
    slot < earliest ↔ ∀ h ∈ slotHashes, slot < h.1 := by
  constructor
  · intro hlt h hh
    exact hlt.trans_le (hearliest h hh)
  · intro h
    exact h _ (mem_of_getLast? hlast)

theorem dropped_iff (self : VoteState) (hearliest : ∀ h ∈ slotHashes, earliest ≤ h.1)
    (hlast : slotHashes.getLast? = some (earliest, hash)) (l : Lockout) :
    dropped self earliest l = true ↔
      (∀ h ∈ slotHashes, l.slot < h.1) ∧ l.slot ∉ self.votes.map LandedVote.slot := by
  unfold dropped
  rw [decide_eq_true_eq, lt_earliest_iff l.slot hearliest hlast, ← containsSlot_iff,
    Bool.not_eq_true]

/-- What is let through when the loop has reached the end of the proposed votes. -/
theorem filtered_of_inv {proposedRoot : Option ℕ} {proposedHash hash : Hash} {last : Lockout}
    (hslots : self.votes.Pairwise fun v w => v.slot < w.slot)
    (hearliest : ∀ h ∈ slotHashes, earliest ≤ h.1)
    (holdest : slotHashes.getLast? = some (earliest, hash))
    (h : FilterInv self proposedLockouts slotHashes earliest c)
    (hend : c.lockoutsIndex = proposedLockouts.length)
    (hlast : proposedLockouts.getLast? = some last)
    (hfound : slotHashes[c.hashesIndex]? = some (last.slot, proposedHash)) :
    Filtered self proposedLockouts proposedRoot proposedHash slotHashes
      (retain c.toFilter proposedLockouts 0 0) (adjustRoot self earliest proposedRoot) := by
  have hknown := h.known
  have hordered := h.ordered
  have hfiltered := h.filtered
  rw [hend, take_length] at hknown hordered hfiltered
  have hretain : retain c.toFilter proposedLockouts 0 0 =
      proposedLockouts.filter fun l => !dropped self earliest l := by
    apply retain_eq
    · exact hfiltered
    · exact Nat.zero_le _
  have hfoundMem := mem_of_getElem? hfound
  have hnotDropped : ∀ l, earliest ≤ l.slot → ¬ dropped self earliest l = true := by
    intro l hle hdropped
    unfold dropped at hdropped
    rw [decide_eq_true_eq] at hdropped
    omega
  refine ⟨?_, ?_, ?_, ⟨last, hlast, ?_, hfoundMem⟩, ?_, ?_⟩
  · have hslots : (proposedLockouts.map Lockout.slot).IsChain (· < ·) :=
      (isChain_map Lockout.slot).mpr hordered
    exact pairwise_map.mp (isChain_iff_pairwise.mp hslots)
  · rw [hretain]
    apply filter_congr
    intro l hl
    have holder := lt_earliest_iff l.slot hearliest holdest
    have hnew : l.slot ∈ slotHashes.map Prod.fst → ¬ ∀ h ∈ slotHashes, l.slot < h.1 := by
      intro hmem hall
      obtain ⟨h, hh, heq⟩ := mem_map.mp hmem
      exact (hall h hh).ne heq.symm
    have hl := hknown l hl
    rw [Bool.eq_iff_iff, decide_eq_true_eq, Bool.not_eq_true', ← Bool.not_eq_true,
      dropped_iff self hearliest holdest]
    tauto
  · intro l hl hnot
    rw [← dropped_iff self hearliest holdest]
    by_contra hkept
    apply hnot
    rw [hretain]
    exact mem_filter.mpr ⟨hl, by simpa using hkept⟩
  · rw [hretain]
    refine mem_filter.mpr ⟨mem_of_getLast? hlast, ?_⟩
    simpa using hnotDropped last (hearliest _ hfoundMem)
  · rintro r rfl hr
    obtain ⟨h, hh, rfl⟩ := mem_map.mp hr
    exact if_neg (Nat.not_lt.mpr (hearliest h hh))
  · rintro r rfl hr
    exact adjustRoot_of_lt hslots ((lt_earliest_iff r hearliest holdest).mpr hr)

/-- Never a panic and never `AssertionFailed`; and what is let through is as documented. -/
theorem checkAndFilter_spec [DecidableEq Hash] (self : VoteState) (proposedLockouts : List Lockout)
    (proposedRoot : Option ℕ) (proposedHash : Hash)
    (hslots : self.votes.Pairwise fun v w => v.slot < w.slot)
    (hhashes : slotHashes.Pairwise fun a b => b.1 < a.1) :
    ∃ result,
      checkAndFilterProposedVoteState self proposedLockouts proposedRoot proposedHash slotHashes =
        some result ∧
      result ≠ .error .assertionFailed ∧
      ∀ lockouts root, result = .ok (lockouts, root) →
        Filtered self proposedLockouts proposedRoot proposedHash slotHashes lockouts root := by
  have herror : ∀ {e : VoteError} (_ : e ≠ .assertionFailed), ∃ result,
      some (.error e : Except VoteError (List Lockout × Option ℕ)) = some result ∧
      result ≠ .error .assertionFailed ∧ ∀ lockouts root, result = .ok (lockouts, root) →
        Filtered self proposedLockouts proposedRoot proposedHash slotHashes lockouts root := by
    intro e he
    refine ⟨_, rfl, ?_, fun lockouts root h => absurd h error_ne_ok⟩
    intro h
    exact he (Except.error.inj h)
  unfold checkAndFilterProposedVoteState
  cases hlast : proposedLockouts.getLast? with
  | none => exact herror (by decide)
  | some last =>
    dsimp only
    split_ifs with hvoted
    · exact herror (by decide)
    cases holdest : slotHashes.getLast? with
    | none => exact herror (by decide)
    | some oldest =>
      obtain ⟨earliest, hash⟩ := oldest
      dsimp only
      split_ifs with hold
      · exact herror (by decide)
      have hearliest := earliest_le hhashes holdest
      have hindex : ∃ hash, slotHashes[slotHashes.length - 1]? = some (earliest, hash) :=
        ⟨hash, getLast?_eq_getElem? ▸ holdest⟩
      have hstart : FilterInv self proposedLockouts slotHashes earliest
          ⟨adjustRoot self earliest proposedRoot, 0, slotHashes.length, []⟩ := by
        refine ⟨Nat.le_refl _, isChain_nil, ?_, rfl, ?_⟩
        · intro l hl
          cases hl
        intro hnil
        rw [eq_nil_of_length_eq_zero hnil.symm] at hlast
        cases hlast
      obtain ⟨result, hloop, hne, hinv⟩ := filterLoop_total hearliest hindex hstart
      rw [hloop]
      cases result with
      | error e => exact herror fun he => hne (congrArg _ he)
      | ok c =>
        have hinv := hinv c rfl
        dsimp only
        split_ifs with hend
        · exact herror (by decide)
        rcases hinv.last (not_not.mp hend) last hlast with hlt | ⟨hash', hfound⟩
        · exact absurd hlt hold
        rw [hfound, bind_some]
        dsimp only
        rw [if_neg (not_not.mpr rfl)]
        split_ifs with hhash
        · exact herror (by decide)
        · rw [not_not.mp hhash] at hfound
          refine ⟨_, rfl, error_ne_ok.symm, ?_⟩
          intro lockouts root hok
          cases hok
          exact filtered_of_inv hslots hearliest holdest hinv (not_not.mp hend) hlast hfound

/-- An account with votes on the slots 4 and 7 and root 3. -/
def votedOnSeven : VoteState := ⟨[⟨1, 4, 2⟩, ⟨1, 7, 1⟩], some 3, [], ⟨0, 0⟩⟩

/-- Too old and not held by the account, the vote on slot 5 is removed; root 6 becomes 4. -/
theorem checkAndFilter_spec_ten :
    let proposed : List Lockout := [⟨4, 4⟩, ⟨5, 3⟩, ⟨8, 2⟩, ⟨10, 1⟩]
    let kept : List Lockout := [⟨4, 4⟩, ⟨8, 2⟩, ⟨10, 1⟩]
    let slotHashes := [(10, true), (9, true), (8, false)]
    checkAndFilterProposedVoteState votedOnSeven proposed (some 6) true slotHashes =
        some (.ok (kept, some 4)) ∧
      Filtered votedOnSeven proposed (some 6) true slotHashes kept (some 4) := by
  intro proposed kept slotHashes
  have hrun : checkAndFilterProposedVoteState votedOnSeven proposed (some 6) true slotHashes =
      some (.ok (kept, some 4)) := by
    decide +kernel
  have hhashes : slotHashes.Pairwise fun a b => b.1 < a.1 := by decide
  obtain ⟨result, hresult, -, hfiltered⟩ :=
    checkAndFilter_spec votedOnSeven proposed (some 6) true (by decide) hhashes
  cases hrun.symm.trans hresult
  exact ⟨hrun, hfiltered _ _ rfl⟩

end Salsa.Vote
