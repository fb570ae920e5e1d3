import Salsa.Gossip.Runs

/-!
# Salsa.Gossip.Convergence — nodes that were told the same agree

`overrides` compares the values of one label by their `rank`. A table that only inserts holds the
greatest value it was told under each label, whatever the order, the repetitions, the routes and
the times (`insertAll_spec`).
-/

namespace Salsa.Gossip

open IndexMap CrdsValue List Option

variable {Pubkey Body : Type}

/-! ## The order of values -/

section Order

variable {a b : CrdsValue Pubkey Body} {d e : CrdsData Pubkey}

def CrdsData.outset : CrdsData Pubkey → ℕ
  | .contactInfo node => node.outset
  | _ => 0

/-- The start time of a contact-info, then the wallclock, then the hash. -/
def CrdsValue.rank (v : CrdsValue Pubkey Body) : ℕ ×ₗ ℕ ×ₗ Hash :=
  toLex (v.data.outset, toLex (v.wallclock, v.hash))

theorem CrdsValue.hash_of_rank (h : a.rank = b.rank) : a.hash = b.hash :=
  congrArg (fun r => (ofLex (ofLex r).2).2) h

theorem outset_eq_zero (h : ∀ node, d ≠ .contactInfo node) : d.outset = 0 := by
  cases d with
  | contactInfo node => exact absurd rfl (h node)
  | _ => rfl

/-- Of two values under one label, both are contact-infos or none is. -/
theorem exists_contactInfo (h : d.label = e.label) {node : ContactInfo Pubkey}
    (hd : d = .contactInfo node) : ∃ node', e = .contactInfo node' := by
  subst hd
  cases e with
  | contactInfo node' => exact ⟨node', rfl⟩
  | _ => cases h

theorem newer_eq :
    a.newer b = decide (toLex (b.wallclock, b.hash) < toLex (a.wallclock, a.hash)) := by
  rw [newer, Bool.eq_iff_iff, decide_eq_true_eq, Prod.Lex.toLex_lt_toLex]
  rcases lt_trichotomy a.wallclock b.wallclock with hlt | heq | hgt
  · simp [compare_lt_iff_lt.mpr hlt, hlt.not_gt, hlt.ne']
  · simp [heq]
  · simp [compare_gt_iff_gt.mpr hgt, hgt]

theorem overrides_eq [DecidableEq Pubkey] (h : a.label = b.label) :
    overrides a b = some (decide (b.rank < a.rank)) := by
  rw [overrides, if_neg (not_not.mpr h)]
  split
  · next x y hx hy =>
      have hp : x.pubkey = y.pubkey := by
        simpa [CrdsValue.label, CrdsData.label, hx, hy] using h
      have hwx : a.wallclock = x.wallclock := by rw [wallclock, hx]; rfl
      have hwy : b.wallclock = y.wallclock := by rw [wallclock, hy]; rfl
      simp only [ContactInfo.overrides, hp, ne_eq, not_true_eq_false, if_false, compareLex,
        compareOn, newer_eq, rank, hx, hy, CrdsData.outset, hwx, hwy, Prod.Lex.toLex_lt_toLex]
      -- the start times decide, or the wallclocks, or the general rule is left
      rcases lt_trichotomy x.outset y.outset with ho | ho | ho
      · simp [compare_lt_iff_lt.mpr ho, ho.not_gt, ho.ne', Ordering.then]
      · rcases lt_trichotomy x.wallclock y.wallclock with hw | hw | hw
        · simp [ho, compare_lt_iff_lt.mpr hw, hw.not_gt, hw.ne', Ordering.then]
        · simp [ho, hw, Ordering.then]
        · simp [ho, compare_gt_iff_gt.mpr hw, hw, Ordering.then]
      · simp [compare_gt_iff_gt.mpr ho, ho, Ordering.then]
  · next hno =>
      have ha : ∀ node, a.data ≠ .contactInfo node := fun node ha =>
        (exists_contactInfo h ha).elim fun node' hb => hno node node' ha hb
      have hb : ∀ node, b.data ≠ .contactInfo node := fun node hb =>
        (exists_contactInfo h.symm hb).elim fun node' ha => hno node' node ha hb
      simp [rank, outset_eq_zero ha, outset_eq_zero hb, newer_eq, Prod.Lex.toLex_lt_toLex]

end Order

/-! ## Insertions -/

section Insertions

variable [LinearOrder Pubkey] {c : Crds Pubkey Body} {label : CrdsValueLabel Pubkey}

def Crds.valueOf (c : Crds Pubkey Body) (label : CrdsValueLabel Pubkey) :
    Option (CrdsValue Pubkey Body) := (c.table.get label).map (·.value)

/-- A value replaces those it outranks. -/
theorem Consistent.valueOf_insert (h : Consistent c) (value : CrdsValue Pubkey Body) (now : ℕ)
    (route : GossipRoute Pubkey) :
    ∃ r c', c.insert value now route = some (r, c') ∧ Consistent c' ∧
      ∀ label, c'.valueOf label =
        if label = value.label ∧ ∀ o ∈ c.valueOf label, o.rank < value.rank then some value
        else c.valueOf label := by
  obtain ⟨r, c', hins, hc⟩ := h.insert value now route
  refine ⟨r, c', hins, hc.elim (fun ⟨_, _, hs⟩ => hs.consistent) (·.2.consistent), fun label => ?_⟩
  obtain ⟨v, hv⟩ : ∃ v, VersionedCrdsValue.new value c.cursor now route = v := ⟨_, rfl⟩
  have hvalue : v.value = value := by rw [← hv]; rfl
  have hlabel : v.value.label = value.label := by rw [hvalue]
  cases hk : c.table.indexOf value.label with
  | none =>
    obtain ⟨_, heq⟩ := insertVacant_eq c v
    have hnone := get_eq_none_iff.mpr hk
    simp only [Crds.insert, hv, hk, some.injEq, Prod.mk.injEq] at hins
    simp only [← hins.2, heq, Crds.valueOf, get_insert, hlabel]
    by_cases hl : label = value.label <;> simp [hl, hnone, hvalue]
  | some i =>
    obtain ⟨old, hi⟩ := indexOf_eq_some_iff.mp hk
    have hget := get_eq_some_iff.mpr ⟨i, hi⟩
    have hrank := overrides_eq (h.labels i _ old hi).symm
    obtain ⟨_, heq⟩ := insertOver_eq c i old v now
    by_cases hlt : old.value.rank < value.rank
    · simp only [Crds.insert, hv, hk, hi, hrank, hlt, decide_true, some.injEq,
        Prod.mk.injEq] at hins
      simp only [← hins.2, heq, Crds.valueOf, get_insert, hlabel]
      by_cases hl : label = value.label <;> simp [hl, hget, hlt, hvalue]
    · simp only [Crds.insert, hv, hk, hi, hrank, hlt, decide_false, some.injEq,
        Prod.mk.injEq] at hins
      have hkept : (c.insertFails old v now route).2.valueOf label = c.valueOf label := by
        unfold Crds.insertFails Crds.valueOf
        by_cases hl : label = value.label <;> split <;> try split
        all_goals simp [get_insert, hlabel, hl, hget]
      rw [← hins.2, hkept]
      by_cases hl : label = value.label <;> simp [hl, Crds.valueOf, hget, hlt]

/-- Values that are inserted one after the other, each with its time and route. -/
def Crds.insertAll (c : Crds Pubkey Body)
    (told : List (CrdsValue Pubkey Body × ℕ × GossipRoute Pubkey)) : Option (Crds Pubkey Body) :=
  told.foldlM (fun c t => (c.insert t.1 t.2.1 t.2.2).map Prod.snd) c

/-- The value outranks all others under the label. -/
def Greatest (told : List (CrdsValue Pubkey Body)) (label : CrdsValueLabel Pubkey)
    (v : CrdsValue Pubkey Body) : Prop :=
  v ∈ told ∧ v.label = label ∧ ∀ u ∈ told, u.label = label → u = v ∨ u.rank < v.rank

/-- The table ends with the greatest value of each label. -/
theorem insertAll_spec (told : List (CrdsValue Pubkey Body × ℕ × GossipRoute Pubkey))
    (hdistinct : ∀ u ∈ told.map Prod.fst, ∀ v ∈ told.map Prod.fst, u.hash = v.hash → u = v) :
    ∃ c, Crds.new.insertAll told = some c ∧ Consistent c ∧
      (∀ u ∈ told.map Prod.fst, ∃ o, c.valueOf u.label = some o) ∧
      ∀ label v, c.valueOf label = some v → Greatest (told.map Prod.fst) label v := by
  induction told using reverseRecOn with
  | nil => exact ⟨.new, rfl, .new, by simp, fun label v hv => by cases hv⟩
  | append_singleton told t ih =>
    simp only [map_append, map_cons, map_nil, mem_append, mem_singleton] at hdistinct ⊢
    obtain ⟨c, hall, h, hsome, hgreatest⟩ := ih fun u hu v hv =>
      hdistinct u (Or.inl hu) v (Or.inl hv)
    obtain ⟨r, c', hins, h', hvalue⟩ := h.valueOf_insert t.1 t.2.1 t.2.2
    have hinj : ∀ o ∈ told.map Prod.fst, ¬ o.rank < t.1.rank → o = t.1 ∨ t.1.rank < o.rank :=
      fun o ho hlt => (not_lt.mp hlt).eq_or_lt.imp_left fun heq =>
        hdistinct o (Or.inl ho) t.1 (Or.inr rfl) (hash_of_rank heq.symm)
    refine ⟨c', ?_, h', ?_, ?_⟩
    · unfold Crds.insertAll at hall ⊢
      rw [foldlM_append, hall]
      simp [hins]
    · intro u hu
      rw [hvalue]
      split_ifs with hif
      · exact ⟨_, rfl⟩
      rcases hu with hu | rfl
      · exact hsome u hu
      cases ho : c.valueOf t.1.label with
      | none => exact absurd ⟨rfl, by simp [ho]⟩ hif
      | some o => exact ⟨o, rfl⟩
    · intro label v hv
      have := hvalue label
      unfold Greatest at hgreatest ⊢
      grind

/-- Under one label `overrides` is a strict total order, and two nodes that were told the same
values hold the greatest of each label. -/
theorem tables_converge {told told' : List (CrdsValue Pubkey Body × ℕ × GossipRoute Pubkey)}
    (hdistinct : ∀ u ∈ told.map Prod.fst, ∀ v ∈ told.map Prod.fst, u.hash = v.hash → u = v)
    (hsame : ∀ v, v ∈ told'.map Prod.fst ↔ v ∈ told.map Prod.fst) :
    (∃ c c', Crds.new.insertAll told = some c ∧ Crds.new.insertAll told' = some c' ∧
      ∀ label, c'.valueOf label = c.valueOf label ∧
        ∀ v, c.valueOf label = some v ↔ Greatest (told.map Prod.fst) label v) ∧
    (∀ u v : CrdsValue Pubkey Body, u.label = v.label →
      (overrides u v = some true ↔ v.rank < u.rank)) ∧
    ∀ u ∈ told.map Prod.fst, ∀ v ∈ told.map Prod.fst, u.label = v.label → u ≠ v →
      overrides u v = some true ∨ overrides v u = some true := by
  have hiff : ∀ u v : CrdsValue Pubkey Body, u.label = v.label →
      (overrides u v = some true ↔ v.rank < u.rank) := by
    intro u v h
    rw [overrides_eq h, some.injEq, decide_eq_true_eq]
  refine ⟨?_, hiff, fun u hu v hv h hne => ?_⟩
  · obtain ⟨c, hall, -, hsome, hgreatest⟩ := insertAll_spec told hdistinct
    obtain ⟨c', hall', -, hsome', hgreatest'⟩ := insertAll_spec told' (by simpa only [hsame])
    refine ⟨c, c', hall, hall', fun label => ?_⟩
    have hunique : ∀ v w, Greatest (told.map Prod.fst) label v →
        Greatest (told.map Prod.fst) label w → v = w := by
      rintro v w ⟨hv, hvl, hvg⟩ ⟨hw, hwl, hwg⟩
      exact (hwg v hv hvl).elim id fun hlt =>
        (hvg w hw hwl).elim Eq.symm fun hlt' => absurd hlt hlt'.not_gt
    unfold Greatest at hgreatest hgreatest' hunique ⊢
    refine ⟨ext fun v => ?_, fun v => ?_⟩
    · grind
    · grind
  · rw [hiff u v h, hiff v u h.symm]
    exact (lt_or_gt_of_ne fun heq => hne (hdistinct u hu v hv (hash_of_rank heq))).symm

/-- Two votes of one label, told in both orders. -/
theorem tables_converge_votes : ∃ c c', (Crds.new : Crds ℕ Unit).insertAll
      [(firstVote, 0, .localMessage), (laterVote, 1, .pullResponse)] = some c ∧
    (Crds.new : Crds ℕ Unit).insertAll
      [(laterVote, 1, .pullResponse), (firstVote, 2, .pushMessage 3)] = some c' ∧
    c.valueOf firstVote.label = some laterVote ∧ c'.valueOf firstVote.label = some laterVote := by
  obtain ⟨⟨c, c', h, h', hvalue⟩, -⟩ := @tables_converge ℕ Unit _
    [(firstVote, 0, .localMessage), (laterVote, 1, .pullResponse)]
    [(laterVote, 1, .pullResponse), (firstVote, 2, .pushMessage 3)] (by decide) (by simp [or_comm])
  obtain ⟨hsame, hgreatest⟩ := hvalue firstVote.label
  have hlater := (hgreatest laterVote).mpr (by unfold Greatest; decide)
  exact ⟨c, c', h, h', hlater, hsame.trans hlater⟩

end Insertions

end Salsa.Gossip
