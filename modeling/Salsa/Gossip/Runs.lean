import Salsa.Lib.Fallible
import Salsa.Lib.Lts
import Salsa.Gossip.Indices

/-!
# Salsa.Gossip.Runs — every run of the gossip table

The table under any sequence of insertions, removals, trims and purges, with one reader that
follows a feed with its own cursor (`Node.Good`).
-/

namespace Salsa.Gossip

open IndexMap List Option

variable {Pubkey Body : Type} [LinearOrder Pubkey] {c : Crds Pubkey Body} {f : Feed}

/-! ## Steps that remove -/

section Shrinking

variable {c c' c'' : Crds Pubkey Body} {keys : List Pubkey}

theorem Shrinks.trans (h : Shrinks c c') (h' : Shrinks c' c'') : Shrinks c c'' := by
  refine ⟨h'.consistent, h'.cursor.trans h.cursor, fun i label v hi => ?_⟩
  obtain ⟨j, w, hj, ho, hv⟩ := h'.kept i label v hi
  obtain ⟨k, u, hk, ho', hv'⟩ := h.kept j label w hj
  exact ⟨k, u, hk, ho'.trans ho, hv'.trans hv⟩

theorem shrinks_removeAll (keys : List (CrdsValueLabel Pubkey)) (now : ℕ) (h : Consistent c) :
    ∃ c', c.removeAll keys now = some c' ∧ Shrinks c c' := by
  induction keys generalizing c with
  | nil => exact ⟨c, rfl, .refl h⟩
  | cons key keys ih =>
    obtain ⟨c₁, hremove, hone⟩ := h.remove key now
    obtain ⟨c₂, hall, h₂⟩ := ih hone.consistent
    refine ⟨c₂, ?_, hone.trans h₂⟩
    rw [Crds.removeAll, foldlM_cons, hremove]
    exact hall

/-- The positions of a node are positions of the table. -/
theorem Consistent.entriesAt (h : Consistent c) {p : Pubkey} (hp : p ∈ c.records.keys) :
    ∃ s found, c.records.get p = some s ∧ c.entriesAt s = some found := by
  obtain ⟨s, hs⟩ := isSome_iff_exists.mp (OrdMap.mem_keys.mp hp)
  have hall : ∀ e ∈ s.entries, ∃ b, c.table.nth e.1 = some b := by
    intro e he
    have hrec : Recorded c.records p e.1 := ⟨s, hs, mem_entries_iff.mp he⟩
    obtain ⟨label, v, hv, -⟩ := (h.records p e.1).mp hrec
    exact ⟨_, hv⟩
  obtain ⟨found, hfound⟩ := Fallible.exists_mapM_eq_some hall
  exact ⟨s, found, hs, hfound⟩

theorem shrinks_trim (h : Consistent c) (cap : ℕ) (keep : List Pubkey) (stakes : OrdMap Pubkey ℕ)
    (now : ℕ) (hkeys : ∀ k ∈ keys, k ∈ c.records.keys) :
    ∃ r c', c.trim cap keep stakes now keys = some (r, c') ∧ Shrinks c c' := by
  unfold Crds.trim Crds.drop
  split
  · split
    · exact ⟨_, c, rfl, .refl h⟩
    · obtain ⟨found, hfound⟩ := Fallible.exists_mapM_eq_some
        (f := fun k => (c.records.get k).bind c.entriesAt)
        (l := (keys.take (c.records.entries.length - cap)).filter fun k => !keep.contains k) (by
          intro k hk
          obtain ⟨s, found, hs, hfound⟩ :=
            h.entriesAt (hkeys k (mem_of_mem_take (mem_of_mem_filter hk)))
          exact ⟨found, by rw [hs]; exact hfound⟩)
      obtain ⟨c', hall, hc'⟩ := shrinks_removeAll (found.flatten.map Prod.fst) now h
      refine ⟨.ok (found.flatten.map Prod.fst).length, c', ?_, hc'⟩
      simp only [bind_eq_bind] at hfound ⊢
      rw [hfound, bind_some, hall]
      rfl
  · exact ⟨_, c, rfl, .refl h⟩

theorem shrinks_purge (h : Consistent c) (now crdsTimeout : ℕ) (timeouts : Pubkey → ℕ)
    (hkeys : ∀ k ∈ keys, k ∈ c.records.keys) :
    ∃ c', c.purge now crdsTimeout timeouts keys = some c' ∧ Shrinks c c' := by
  obtain ⟨found, hfound⟩ := Fallible.exists_mapM_eq_some
    (f := fun k => (c.records.get k).bind (c.evict now (timeouts k) k)) (by
      intro k hk
      obtain ⟨s, found, hs, hfound⟩ := h.entriesAt (hkeys k hk)
      rw [hs, bind_some, Crds.evict, hfound]
      split_ifs <;> exact ⟨_, rfl⟩)
  obtain ⟨c', hall, hc'⟩ := shrinks_removeAll found.flatten now h
  refine ⟨_, ?_, hc'.consistent.purged
    (c'.purged.dropWhile fun e => e.2 < now - 5 * crdsTimeout), hc'.cursor, hc'.kept⟩
  rw [Crds.purge, Crds.findOldLabels]
  simp only [bind_eq_bind] at hfound ⊢
  rw [hfound, map_some, bind_some, hall]
  rfl

end Shrinking

/-! ## Insertion -/

section Insertion

variable {i : ℕ} {old v : VersionedCrdsValue Pubkey Body}

theorem shrinks_insertFails (h : Consistent c) (hi : c.table.nth i = some (v.value.label, old))
    (now : ℕ) (route : GossipRoute Pubkey) : Shrinks c (c.insertFails old v now route).2 := by
  unfold Crds.insertFails
  split
  · exact ⟨h.purged _, rfl, (Shrinks.refl h).kept⟩
  · cases route with
    | pushMessage p =>
      refine ⟨h.rewrite hi rfl rfl, rfl, fun j label' u hj => ?_⟩
      rw [nth_insert_old (indexOf_eq_some_iff.mpr ⟨old, hi⟩)] at hj
      grind
    | _ => exact .refl h

/-- The entry under the label is the new version, the others are the old ones. -/
structure Extends (c c' : Crds Pubkey Body) (value : CrdsValue Pubkey Body) : Prop where
  consistent : Consistent c'
  cursor : c'.cursor = c.cursor + 1
  new : ∃ i v, c'.table.nth i = some (value.label, v) ∧ v.ordinal = c.cursor ∧ v.value = value
  entries : ∀ i label v, c'.table.nth i = some (label, v) →
    (label = value.label ∧ v.ordinal = c.cursor ∧ v.value = value) ∨
      label ≠ value.label ∧ ∃ j, c.table.nth j = some (label, v)

/-- An insertion never panics: it fails or extends the table. -/
theorem Consistent.insert (h : Consistent c) (value : CrdsValue Pubkey Body) (now : ℕ)
    (route : GossipRoute Pubkey) : ∃ r c', c.insert value now route = some (r, c') ∧
      ((∃ e, r = .error e ∧ Shrinks c c') ∨ (r = .ok () ∧ Extends c c' value)) := by
  obtain ⟨v, hv⟩ : ∃ v, VersionedCrdsValue.new value c.cursor now route = v := ⟨_, rfl⟩
  have hvalue : v.value = value := by rw [← hv]; rfl
  have ho : v.ordinal = c.cursor := by rw [← hv]; rfl
  have hconsume : consume c.cursor v.ordinal = c.cursor + 1 := by simp [consume, ho]
  have hlabel : v.value.label = value.label := by rw [hvalue]
  cases hk : c.table.indexOf value.label with
  | none =>
    obtain ⟨_, heq⟩ := insertVacant_eq c v
    have hnew := indexOf_eq_none_iff.mp hk
    refine ⟨.ok (), c.insertVacant v, by simp [Crds.insert, hv, hk], Or.inr ⟨rfl,
      h.insertVacant (hlabel ▸ hk) ho, by rw [heq]; exact hconsume,
      ⟨c.table.size, v, by simp only [heq, hlabel, nth_insert_new hk, if_true], ho, hvalue⟩,
      fun i label w hi => ?_⟩⟩
    simp only [heq, hlabel, nth_insert_new hk] at hi
    grind
  | some i =>
    obtain ⟨old, hi⟩ := indexOf_eq_some_iff.mp hk
    obtain ⟨b, hb⟩ := exists_overrides (h.labels i _ old hi).symm
    cases b with
    | true =>
      obtain ⟨_, heq⟩ := insertOver_eq c i old v now
      refine ⟨.ok (), c.insertOver i old v now, by simp [Crds.insert, hv, hk, hi, hb],
        Or.inr ⟨rfl, h.insertOver (hlabel ▸ hi) ho now, by rw [heq]; exact hconsume,
          ⟨i, v, by simp only [heq, hlabel, nth_insert_old hk, if_true], ho, hvalue⟩,
          fun j label w hj => ?_⟩⟩
      have hkey : ∀ j u, c.table.nth j = some (value.label, u) → j = i :=
        fun j u hj => nth_inj hj hi
      simp only [heq, hlabel, nth_insert_old hk] at hj
      grind
    | false =>
      exact ⟨.error (c.insertFails old v now route).1, _,
        by simp [Crds.insert, hv, hk, hi, hb],
        Or.inl ⟨_, rfl, shrinks_insertFails h (hlabel ▸ hi) now route⟩⟩

end Insertion

/-! ## Reading -/

theorem foldl_consume_le {l : List (ℕ × ℕ)} {cursor n : ℕ} :
    l.foldl (fun cursor e => consume cursor e.1) cursor ≤ n ↔ cursor ≤ n ∧ ∀ e ∈ l, e.1 < n := by
  induction l generalizing cursor with
  | nil => simp
  | cons e l ih =>
    rw [foldl_cons, ih, forall_mem_cons, ← and_assoc]
    exact and_congr_left fun _ => max_le_iff

/-- The values read are those of the feed from the cursor on, in order, up to the new cursor. -/
structure Reads (c : Crds Pubkey Body) (f : Feed) (cursor limit : ℕ)
    (found : List (VersionedCrdsValue Pubkey Body)) (cursor' : ℕ) : Prop where
  sorted : found.Pairwise fun v w => v.ordinal < w.ordinal
  table : ∀ v ∈ found, f.carries v.value.label ∧ cursor ≤ v.ordinal ∧
    ∃ i, c.table.nth i = some (v.value.label, v)
  cursor_le : ∀ n, cursor' ≤ n ↔ cursor ≤ n ∧ ∀ v ∈ found, v.ordinal < n
  complete : ∀ i label v, c.table.nth i = some (label, v) → f.carries label →
    cursor ≤ v.ordinal → v.ordinal < cursor' ∨ found.length < limit → v ∈ found

theorem Consistent.read (h : Consistent c) (f : Feed) (cursor limit : ℕ) :
    ∃ found cursor', c.read f cursor limit = some (found, cursor') ∧
      Reads c f cursor limit found cursor' := by
  obtain ⟨all, hall⟩ : ∃ all, (c.index f).entries.filter (fun e => cursor ≤ e.1) = all := ⟨_, rfl⟩
  have hmem : ∀ e, e ∈ all ↔ (c.index f).get e.1 = some e.2 ∧ cursor ≤ e.1 := by
    intro e
    rw [← hall, mem_filter, decide_eq_true_eq, ← OrdMap.mem_entries]
  have hsorted : all.Pairwise fun a b => a.1 < b.1 := hall ▸ (c.index f).sorted.filter _
  have hentry : ∀ e ∈ all.take limit, ∃ b : CrdsValueLabel Pubkey × VersionedCrdsValue Pubkey Body,
      c.table.nth e.2 = some b ∧ f.carries b.2.value.label ∧ b.2.ordinal = e.1 := by
    intro e he
    obtain ⟨label, v, hv, hfeed⟩ := (h.feeds f e.1 e.2).mp ((hmem e).mp (mem_of_mem_take he)).1
    exact ⟨_, hv, hfeed⟩
  obtain ⟨hfound, hlen⟩ := Fallible.mapM_eq_some_filterMap
    fun e he => (hentry e he).imp fun _ hb => hb.1
  obtain ⟨found, heq⟩ : ∃ found, (all.take limit).filterMap (fun e => c.table.nth e.2) = found :=
    ⟨_, rfl⟩
  have hin : ∀ b, b ∈ found ↔ ∃ e ∈ all.take limit, c.table.nth e.2 = some b := by
    intro b
    rw [← heq, mem_filterMap]
  rw [heq] at hfound hlen
  refine ⟨found.map Prod.snd, _, ?_, ?_, ?_, fun n => (foldl_consume_le (l := all.take limit)).trans
    (and_congr_right fun _ => ?_), ?_⟩
  · have hread : c.read f cursor limit = c.readFrom (c.index f) cursor limit := by cases f <;> rfl
    rw [hread, Crds.readFrom, hall, hfound]
    rfl
  · rw [pairwise_map, ← heq, pairwise_filterMap]
    refine (hsorted.take).imp_of_mem fun {a b} ha hb hab v hv w hw => ?_
    grind
  · grind [Consistent]
  · grind
  · intro i label v hi hf hcursor hbelow
    have hall' : (v.ordinal, i) ∈ all :=
      (hmem _).mpr ⟨(h.feeds f _ i).mpr ⟨label, v, hi, h.labels i label v hi ▸ hf, rfl⟩, hcursor⟩
    refine mem_map.mpr ⟨(label, v), (hin _).mpr ⟨(v.ordinal, i), ?_, hi⟩, rfl⟩
    rcases hbelow with hbelow | hshort
    · by_contra hnot
      -- the entries taken come before
      rw [← take_append_drop limit all] at hall' hsorted
      have hdrop := (mem_append.mp hall').resolve_left hnot
      refine absurd ((foldl_consume_le).mpr ⟨hcursor, fun e he => ?_⟩) (not_le.mpr hbelow)
      exact (pairwise_append.mp hsorted).2.2 e he _ hdrop
    · rwa [take_of_length_le]
      rw [length_map, hlen, length_take] at hshort
      omega

/-! ## Runs -/

/-- The table with the values it accepted so far, and a reader with what it received. -/
structure Node (Pubkey Body : Type) [LinearOrder Pubkey] where
  crds : Crds Pubkey Body
  accepted : List (CrdsValue Pubkey Body)
  cursor : ℕ
  received : List (VersionedCrdsValue Pubkey Body)

inductive Op (Pubkey Body : Type) [LinearOrder Pubkey] where
  | insert (value : CrdsValue Pubkey Body) (now : ℕ) (route : GossipRoute Pubkey)
  | remove (key : CrdsValueLabel Pubkey) (now : ℕ)
  | trim (cap : ℕ) (keep : List Pubkey) (stakes : OrdMap Pubkey ℕ) (now : ℕ) (keys : List Pubkey)
  | purge (now crdsTimeout : ℕ) (timeouts : Pubkey → ℕ) (keys : List Pubkey)
  | read (limit : ℕ)

namespace Node

def new : Node Pubkey Body := ⟨Crds.new, [], 0, []⟩

def step (f : Feed) (s : Node Pubkey Body) : Op Pubkey Body → Option (Node Pubkey Body)
  | .insert value now route => (s.crds.insert value now route).map fun r =>
      { s with crds := r.2, accepted := if r.1.isOk then s.accepted ++ [value] else s.accepted }
  | .remove key now => (s.crds.remove key now).map fun c => { s with crds := c }
  | .trim cap keep stakes now keys =>
      (s.crds.trim cap keep stakes now keys).map fun r => { s with crds := r.2 }
  | .purge now crdsTimeout timeouts keys =>
      (s.crds.purge now crdsTimeout timeouts keys).map fun c => { s with crds := c }
  | .read limit => (s.crds.read f s.cursor limit).map fun r =>
      { s with received := s.received ++ r.1, cursor := r.2 }

/-- The orders of keys a hash map and a selection can give. -/
def Valid (s : Node Pubkey Body) : Op Pubkey Body → Prop
  | .trim cap _ stakes _ keys =>
      s.crds.Selected (s.crds.records.entries.length - cap) stakes keys
  | .purge _ _ _ keys => keys.Perm s.crds.records.keys
  | _ => True

/-- The table is consistent, its ordinals count the accepted values, and the reader has what is
in the table below its cursor, each once and in order. -/
structure Good (f : Feed) (s : Node Pubkey Body) : Prop where
  consistent : Consistent s.crds
  length : s.crds.cursor = s.accepted.length
  logged : ∀ i label v, s.crds.table.nth i = some (label, v) → s.accepted[v.ordinal]? = some v.value
  behind : s.cursor ≤ s.crds.cursor
  sorted : s.received.Pairwise fun v w => v.ordinal < w.ordinal
  received : ∀ v ∈ s.received, v.ordinal < s.cursor ∧ s.accepted[v.ordinal]? = some v.value ∧
    f.carries v.value.label
  complete : ∀ i label v, s.crds.table.nth i = some (label, v) → f.carries label →
    v.ordinal < s.cursor → ∃ w ∈ s.received, w.ordinal = v.ordinal ∧ w.value = v.value

variable {s : Node Pubkey Body}

theorem Good.shrinks (h : s.Good f) (hc : Shrinks s.crds c) : Good f { s with crds := c } := by
  have hkept := hc.kept
  refine ⟨hc.consistent, hc.cursor.trans h.length, ?_, hc.cursor ▸ h.behind,
    h.sorted, h.received, ?_⟩
  · intro i label v hi
    obtain ⟨j, w, hj, ho, hv⟩ := hkept i label v hi
    rw [← ho, ← hv]
    exact h.logged j label w hj
  · intro i label v hi hf hlt
    obtain ⟨j, w, hj, ho, hv⟩ := hkept i label v hi
    rw [← ho, ← hv]
    exact h.complete j label w hj hf (ho ▸ hlt)

theorem Good.extends {value : CrdsValue Pubkey Body} (h : s.Good f) (hc : Extends s.crds c value) :
    Good f { s with crds := c, accepted := s.accepted ++ [value] } := by
  have hlt : ∀ {o : ℕ} {x}, s.accepted[o]? = some x →
      (s.accepted ++ [value])[o]? = some x := by grind
  refine ⟨hc.consistent, by simp [hc.cursor, h.length], ?_,
    h.behind.trans (hc.cursor ▸ Nat.le_succ _), h.sorted,
    fun v hv => (h.received v hv).imp_right (And.imp_left hlt), ?_⟩
  · intro i label v hi
    rcases hc.entries i label v hi with ⟨-, ho, rfl⟩ | ⟨-, j, hj⟩
    · simp [ho, h.length]
    · exact hlt (h.logged j label v hj)
  · intro i label v hi hf hbelow
    rcases hc.entries i label v hi with ⟨-, ho, -⟩ | ⟨-, j, hj⟩
    · exact absurd hbelow (not_lt.mpr (ho ▸ h.behind))
    · exact h.complete j label v hj hf hbelow

theorem Good.read (h : s.Good f) {limit cursor' : ℕ} {found : List (VersionedCrdsValue Pubkey Body)}
    (hr : Reads s.crds f s.cursor limit found cursor') :
    Good f { s with received := s.received ++ found, cursor := cursor' } := by
  have hcursor := (hr.cursor_le cursor').mp le_rfl
  refine ⟨h.consistent, h.length, h.logged, (hr.cursor_le _).mpr ⟨h.behind, fun v hv => ?_⟩,
    pairwise_append.mpr ⟨h.sorted, hr.sorted, fun v hv w hw => ?_⟩, fun v hv => ?_, ?_⟩
  · obtain ⟨-, -, i, hi⟩ := hr.table v hv
    exact h.consistent.ordinals i _ v hi
  · exact (h.received v hv).1.trans_le (hr.table w hw).2.1
  · rcases mem_append.mp hv with hv | hv
    · exact (h.received v hv).imp_left fun hlt => hlt.trans_le hcursor.1
    · obtain ⟨hf, -, i, hi⟩ := hr.table v hv
      exact ⟨hcursor.2 v hv, h.logged i _ v hi, hf⟩
  · intro i label v hi hf hlt
    by_cases hold : v.ordinal < s.cursor
    · obtain ⟨w, hw, hsame⟩ := h.complete i label v hi hf hold
      exact ⟨w, mem_append_left _ hw, hsame⟩
    · exact ⟨v, mem_append_right _ (hr.complete i label v hi hf (not_lt.mp hold) (Or.inl hlt)),
        rfl, rfl⟩

/-- One step: nothing panics, and the state stays good. -/
theorem Good.step (h : s.Good f) {op : Op Pubkey Body} (hv : s.Valid op) :
    ∃ s', s.step f op = some s' ∧ s'.Good f := by
  cases op with
  | insert value now route =>
    obtain ⟨r, c', hins, ⟨e, rfl, hc⟩ | ⟨rfl, hc⟩⟩ := h.consistent.insert value now route
    · exact ⟨_, by rw [Node.step, hins]; rfl, h.shrinks hc⟩
    · exact ⟨_, by rw [Node.step, hins]; rfl, h.extends hc⟩
  | remove key now =>
    obtain ⟨c', hall, hc⟩ := h.consistent.remove key now
    exact ⟨_, by rw [Node.step, hall]; rfl, h.shrinks hc⟩
  | trim cap keep stakes now keys =>
    obtain ⟨r, c', hall, hc⟩ :=
      shrinks_trim h.consistent cap keep stakes now fun k hk => hv.1.mem_iff.mp hk
    exact ⟨_, by rw [Node.step, hall]; rfl, h.shrinks hc⟩
  | purge now crdsTimeout timeouts keys =>
    obtain ⟨c', hall, hc⟩ :=
      shrinks_purge h.consistent now crdsTimeout timeouts fun k hk => hv.mem_iff.mp hk
    exact ⟨_, by rw [Node.step, hall]; rfl, h.shrinks hc⟩
  | read limit =>
    obtain ⟨found, cursor', hread, hr⟩ := h.consistent.read f s.cursor limit
    exact ⟨_, by rw [Node.step, hread]; rfl, h.read hr⟩

end Node

/-- The gossip table with a reader of a feed. -/
def system (Pubkey Body : Type) [LinearOrder Pubkey] (f : Feed) :
    Lts (Node Pubkey Body) (Op Pubkey Body) where
  Init s := s = Node.new
  Step s op s' := s.Valid op ∧ s.step f op = some s'

theorem good_of_run {ops : List (Op Pubkey Body)} {s : Node Pubkey Body}
    (hrun : (system Pubkey Body f).Run Node.new ops s) : s.Good f := by
  refine hrun.inv (Node.Good f) ?_ ?_
  · exact ⟨.new, rfl, nofun, le_rfl, .nil, nofun, nofun⟩
  · rintro s op s' ⟨hv, hstep⟩ h
    obtain ⟨s'', hstep', hgood⟩ := h.step hv
    cases hstep.symm.trans hstep'
    exact hgood

/-- At every moment the indices describe the table, nothing panics, an accepted value gets the
next ordinal, no two entries have one ordinal, and a reader that is not cut short has received
all that its feed carries, each version once and in the order of insertion. -/
theorem indices_exact {f : Feed} {ops : List (Op Pubkey Body)} {s : Node Pubkey Body}
    (hrun : (system Pubkey Body f).Run Node.new ops s) :
    s.Good f ∧ (∀ op, s.Valid op → ∃ s', s.step f op = some s') ∧
    (∀ i j label label' v w, s.crds.table.nth i = some (label, v) →
      s.crds.table.nth j = some (label', w) → v.ordinal = w.ordinal → i = j) ∧
    (∀ value now route s', s.step f (.insert value now route) = some s' →
      s'.accepted = s.accepted ∨ s'.accepted = s.accepted ++ [value] ∧
        ∃ i v, s'.crds.table.nth i = some (value.label, v) ∧ v.value = value ∧
          v.ordinal = s.accepted.length) ∧
    ∀ limit s', s.step f (.read limit) = some s' →
      s'.received.length < s.received.length + limit →
      ∀ i label v, s.crds.table.nth i = some (label, v) → f.carries label →
        ∃ w ∈ s'.received, w.ordinal = v.ordinal ∧ w.value = v.value := by
  have h := good_of_run hrun
  refine ⟨h, fun op hv => (h.step hv).imp fun _ => And.left, ?_, ?_, ?_⟩
  · intro i j label label' v w hi hj ho
    have hfeed := h.consistent.feeds .entries v.ordinal
    have hvi := (hfeed i).mpr ⟨label, v, hi, rfl, rfl⟩
    have hwj := (hfeed j).mpr ⟨label', w, hj, rfl, ho.symm⟩
    exact some.inj (hvi.symm.trans hwj)
  · intro value now route s' hstep
    obtain ⟨r, c', hins, hc⟩ := h.consistent.insert value now route
    rw [Node.step, hins] at hstep
    cases hstep
    rcases hc with ⟨e, rfl, -⟩ | ⟨rfl, hc⟩
    · exact Or.inl rfl
    · obtain ⟨i, v, hi, ho, hv⟩ := hc.new
      exact Or.inr ⟨rfl, i, v, hi, hv, ho.trans h.length⟩
  · intro limit s' hstep hshort i label v hi hf
    obtain ⟨found, cursor', hread, hr⟩ := h.consistent.read f s.cursor limit
    rw [Node.step, hread] at hstep
    cases hstep
    by_cases hold : v.ordinal < s.cursor
    · obtain ⟨w, hw, hsame⟩ := h.complete i label v hi hf hold
      exact ⟨w, mem_append_left _ hw, hsame⟩
    · refine ⟨v, mem_append_right _ (hr.complete i label v hi hf (not_lt.mp hold) (Or.inr ?_)),
        rfl, rfl⟩
      simpa using hshort

def firstVote : CrdsValue ℕ Unit := ⟨.vote 0 0 0, (), ⟨List.replicate 32 0, rfl⟩⟩

/-- Under the label of `firstVote`. -/
def laterVote : CrdsValue ℕ Unit := ⟨.vote 0 0 1, (), ⟨List.replicate 32 1, rfl⟩⟩

/-- The later vote overrides the first; it is read, and then removed. -/
theorem indices_exact_override :
    ∃ s₁ s₂ s, (system ℕ Unit .entries).Run Node.new
        [.insert firstVote 0 .localMessage, .insert laterVote 1 .pullResponse] s₁ ∧
      (∃ i v, s₁.crds.table.nth i = some (laterVote.label, v) ∧ v.value = laterVote ∧
        v.ordinal = 1) ∧
      s₁.step .entries (.read 2) = some s₂ ∧
      (∃ w ∈ s₂.received, w.ordinal = 1 ∧ w.value = laterVote) ∧
      s₂.step .entries (.remove firstVote.label 2) = some s ∧
      s.crds.table.nth 0 = none ∧ s.Good .entries := by
  have hchain : (do
      let s₀ ← Node.new.step .entries (.insert firstVote 0 .localMessage)
      let s₁ ← s₀.step .entries (.insert laterVote 1 .pullResponse)
      let s₂ ← s₁.step .entries (.read 2)
      let s ← s₂.step .entries (.remove firstVote.label 2)
      some (decide (s₀.accepted.length = 1 ∧ s₁.accepted.length = 2 ∧
        s₂.received.length < s₁.received.length + 2 ∧ (s.crds.table.nth 0).isNone))) =
      some true := by
    decide +kernel
  simp only [bind_eq_bind, bind_eq_some_iff, some_inj, decide_eq_true_eq] at hchain
  obtain ⟨s₀, h₀, s₁, h₁, s₂, h₂, s, h₃, hone, htwo, hshort, hnone⟩ := hchain
  have hrun₀ : (system ℕ Unit .entries).Run Node.new _ s₀ := .single ⟨by trivial, h₀⟩
  have hrun₁ := hrun₀.snoc ⟨by trivial, h₁⟩
  have hrun := (hrun₁.snoc ⟨by trivial, h₂⟩).snoc ⟨by trivial, h₃⟩
  obtain ⟨i, v, hi, hv, ho⟩ : ∃ i v, s₁.crds.table.nth i = some (laterVote.label, v) ∧
      v.value = laterVote ∧ v.ordinal = s₀.accepted.length := by
    rcases (indices_exact hrun₀).2.2.2.1 _ _ _ _ h₁ with hsame | ⟨-, hnew⟩
    · rw [hsame] at htwo
      omega
    · exact hnew
  obtain ⟨w, hw, hwo, hwv⟩ := (indices_exact hrun₁).2.2.2.2 _ _ h₂ hshort i _ v hi rfl
  exact ⟨s₁, s₂, s, hrun₁, ⟨i, v, hi, hv, ho.trans hone⟩, h₂,
    ⟨w, hw, hwo.trans (ho.trans hone), hwv.trans hv⟩, h₃, isNone_iff_eq_none.mp hnone,
    (indices_exact hrun).1⟩

end Salsa.Gossip
