import Mathlib.Data.Prod.Lex
import Salsa.Lib.OrdMap
import Salsa.Lib.Saturating
import Salsa.Gossip.Shards

/-!
# Salsa.Gossip.Crds — the gossip table

`crds.rs`: the replicated table of gossip values with its indices. Positions of the table move
when a value is removed (`swap_remove`), so each index is repaired by hand; a panic is `none`.
-/

namespace Salsa.Gossip

/-- How a value came. -/
inductive GossipRoute (Pubkey : Type) where
  | localMessage
  | pullRequest
  | pullResponse
  | pushMessage (from_ : Pubkey)

inductive CrdsError where
  | duplicatePush (numDups : BitVec 8)
  | insertFailed
  | unknownStakes
deriving DecidableEq

/-- A value with what this node knows of it. -/
structure VersionedCrdsValue (Pubkey Body : Type) where
  /-- When it was inserted, in insertions. -/
  ordinal : ℕ
  value : CrdsValue Pubkey Body
  localTimestamp : ℕ
  numPushRecv : Option (BitVec 8)

def consume (cursor ordinal : ℕ) : ℕ := max cursor (ordinal + 1)

def VersionedCrdsValue.new {Pubkey Body : Type} (value : CrdsValue Pubkey Body)
    (cursor localTimestamp : ℕ) (route : GossipRoute Pubkey) : VersionedCrdsValue Pubkey Body where
  ordinal := cursor
  value := value
  localTimestamp := localTimestamp
  numPushRecv :=
    match route with
    | .localMessage => none
    | .pullRequest => none
    | .pullResponse => some 0
    | .pushMessage _ => some 1

/-- The hash by which the shards know the value. -/
def VersionedCrdsValue.hash64 {Pubkey Body : Type} (v : VersionedCrdsValue Pubkey Body) :
    BitVec 64 := v.value.hash.asU64

structure Crds (Pubkey Body : Type) [LinearOrder Pubkey] where
  table : IndexMap (CrdsValueLabel Pubkey) (VersionedCrdsValue Pubkey Body)
  cursor : ℕ
  shards : CrdsShards
  /-- The positions of contact-infos. -/
  nodes : IndexSet ℕ
  /-- The positions of votes, by ordinal. -/
  votes : OrdMap ℕ ℕ
  epochSlots : OrdMap ℕ ℕ
  duplicateShreds : OrdMap ℕ ℕ
  /-- The positions of the values of a node. -/
  records : OrdMap Pubkey (IndexSet ℕ)
  /-- The positions of all values, by ordinal. -/
  entries : OrdMap ℕ ℕ
  purged : List (Hash × ℕ)
  shredVersions : OrdMap Pubkey (BitVec 16)

namespace Crds

variable {Pubkey Body : Type} [LinearOrder Pubkey]

def new : Crds Pubkey Body where
  table := IndexMap.empty
  cursor := 0
  shards := CrdsShards.new
  nodes := IndexMap.empty
  votes := OrdMap.empty
  epochSlots := OrdMap.empty
  duplicateShreds := OrdMap.empty
  records := OrdMap.empty
  entries := OrdMap.empty
  purged := []
  shredVersions := OrdMap.empty

/-! ## Insertion -/

variable (c : Crds Pubkey Body)

def indexNew (index : ℕ) (v : VersionedCrdsValue Pubkey Body) : Crds Pubkey Body :=
  match v.value.data with
  | .contactInfo node =>
      { c with
        nodes := c.nodes.insert index ()
        shredVersions := c.shredVersions.insert v.value.pubkey node.shredVersion }
  | .vote _ _ _ => { c with votes := c.votes.insert v.ordinal index }
  | .epochSlots _ _ _ => { c with epochSlots := c.epochSlots.insert v.ordinal index }
  | .duplicateShred _ _ _ => { c with duplicateShreds := c.duplicateShreds.insert v.ordinal index }
  | _ => c

def recordsOf (pubkey : Pubkey) : IndexSet ℕ :=
  (c.records.get pubkey).getD IndexMap.empty

/-- `insert` where there is no value under the label. -/
def insertVacant (v : VersionedCrdsValue Pubkey Body) : Crds Pubkey Body :=
  let index := c.table.size
  let c := { c with shards := c.shards.insert index v.hash64 }
  let c := c.indexNew index v
  { c with
    entries := c.entries.insert v.ordinal index
    records := c.records.insert v.value.pubkey ((c.recordsOf v.value.pubkey).insert index ())
    cursor := consume c.cursor v.ordinal
    table := c.table.insert v.value.label v }

/-- The index of the value's kind has it in the place of the old one. A contact-info stays one,
so `nodes` does not change. -/
def indexOver (index : ℕ) (old v : VersionedCrdsValue Pubkey Body) : Crds Pubkey Body :=
  match v.value.data with
  | .contactInfo node =>
      { c with shredVersions := c.shredVersions.insert v.value.pubkey node.shredVersion }
  | .vote _ _ _ => { c with votes := (c.votes.erase old.ordinal).insert v.ordinal index }
  | .epochSlots _ _ _ =>
      { c with epochSlots := (c.epochSlots.erase old.ordinal).insert v.ordinal index }
  | .duplicateShred _ _ _ =>
      { c with duplicateShreds := (c.duplicateShreds.erase old.ordinal).insert v.ordinal index }
  | _ => c

/-- `insert` where the value updates the old one. -/
def insertOver (index : ℕ) (old v : VersionedCrdsValue Pubkey Body) (now : ℕ) : Crds Pubkey Body :=
  let c := { c with shards := (c.shards.remove index old.hash64).insert index v.hash64 }
  let c := c.indexOver index old v
  { c with
    entries := (c.entries.erase old.ordinal).insert v.ordinal index
    cursor := consume c.cursor v.ordinal
    purged := c.purged ++ [(old.value.hash, now)]
    table := c.table.insert v.value.label v }

/-- `insert` where the value does not update the old one: it is outdated, or the same again. -/
def insertFails (old v : VersionedCrdsValue Pubkey Body) (now : ℕ)
    (route : GossipRoute Pubkey) : CrdsError × Crds Pubkey Body :=
  if old.value.hash ≠ v.value.hash then
    (.insertFailed, { c with purged := c.purged ++ [(v.value.hash, now)] })
  else
    match route with
    | .pushMessage _ =>
        let numPushDups := old.numPushRecv.getD 0
        let entry := { old with numPushRecv := some (Saturating.saturatingAdd numPushDups 1) }
        (.duplicatePush numPushDups, { c with table := c.table.insert v.value.label entry })
    | _ => (.insertFailed, c)

def insert (value : CrdsValue Pubkey Body) (now : ℕ)
    (route : GossipRoute Pubkey) : Option (Except CrdsError Unit × Crds Pubkey Body) :=
  let label := value.label
  let v := VersionedCrdsValue.new value c.cursor now route
  match c.table.indexOf label with
  | none => some (.ok (), c.insertVacant v)
  | some index =>
      match c.table.nth index with
      | none => none
      | some (_, old) =>
          match overrides value old.value with
          | none => none
          | some true => some (.ok (), c.insertOver index old v now)
          | some false =>
              let out := c.insertFails old v now route
              some (.error out.1, out.2)

/-! ## Removal -/

def indexDrop (index : ℕ) (v : VersionedCrdsValue Pubkey Body) : Crds Pubkey Body :=
  match v.value.data with
  | .contactInfo _ => { c with nodes := c.nodes.erase index }
  | .vote _ _ _ => { c with votes := c.votes.erase v.ordinal }
  | .epochSlots _ _ _ => { c with epochSlots := c.epochSlots.erase v.ordinal }
  | .duplicateShred _ _ _ => { c with duplicateShreds := c.duplicateShreds.erase v.ordinal }
  | _ => c

/-- The index of the value's kind has it at another position. -/
def indexMove (size index : ℕ) (v : VersionedCrdsValue Pubkey Body) : Crds Pubkey Body :=
  match v.value.data with
  | .contactInfo _ => { c with nodes := (c.nodes.erase size).insert index () }
  | .vote _ _ _ => { c with votes := c.votes.insert v.ordinal index }
  | .epochSlots _ _ _ => { c with epochSlots := c.epochSlots.insert v.ordinal index }
  | .duplicateShred _ _ _ => { c with duplicateShreds := c.duplicateShreds.insert v.ordinal index }
  | _ => c

/-- The positions of a node without one; a node without values goes. -/
def dropRecord (pubkey : Pubkey) (index : ℕ) : Option (Crds Pubkey Body) :=
  match c.records.get pubkey with
  -- "this should not happen!"
  | none => none
  | some records =>
      let records := records.erase index
      if records.size = 0 then
        some { c with
          records := c.records.erase pubkey
          shredVersions := c.shredVersions.erase pubkey }
      else some { c with records := c.records.insert pubkey records }

/-- The indices but `records` drop the removed value. -/
def unindex (index : ℕ) (v : VersionedCrdsValue Pubkey Body) (now : ℕ) : Crds Pubkey Body :=
  let c := { c with
    purged := c.purged ++ [(v.value.hash, now)]
    shards := c.shards.remove index v.hash64 }
  let c := c.indexDrop index v
  { c with entries := c.entries.erase v.ordinal }

/-- The first half of `remove`: the indices drop the removed value. -/
def detach (index : ℕ) (v : VersionedCrdsValue Pubkey Body) (now : ℕ) :
    Option (Crds Pubkey Body) := (c.unindex index v now).dropRecord v.value.pubkey index

/-- The indices but `records` follow the value that was at position `size` and is now at
`index`. -/
def reindex (size index : ℕ) (v : VersionedCrdsValue Pubkey Body) : Crds Pubkey Body :=
  let c := { c with shards := (c.shards.remove size v.hash64).insert index v.hash64 }
  let c := c.indexMove size index v
  { c with entries := c.entries.insert v.ordinal index }

def moveRecord (pubkey : Pubkey) (size index : ℕ) : Option (Crds Pubkey Body) :=
  (c.records.get pubkey).map fun records =>
    { c with records := c.records.insert pubkey ((records.erase size).insert index ()) }

/-- The second half of `remove`: the indices follow the value that moved. -/
def follow (size index : ℕ) (v : VersionedCrdsValue Pubkey Body) :
    Option (Crds Pubkey Body) := (c.reindex size index v).moveRecord v.value.pubkey size index

def remove (key : CrdsValueLabel Pubkey) (now : ℕ) : Option (Crds Pubkey Body) :=
  match c.table.removeFull key with
  | none => some c
  | some (index, v, table) => do
      let c ← { c with table := table }.detach index v now
      let size := c.table.size
      if index < size then
        let e ← c.table.nth index
        c.follow size index e.2
      else return c

def removeAll (keys : List (CrdsValueLabel Pubkey)) (now : ℕ) :
    Option (Crds Pubkey Body) := keys.foldlM (fun c key => c.remove key now) c

/-- The table's entries at the positions of a set. -/
def entriesAt (indices : IndexSet ℕ) :
    Option (List (CrdsValueLabel Pubkey × VersionedCrdsValue Pubkey Body)) :=
  indices.entries.mapM fun e => c.table.nth e.1

/-! ## Trimming -/

def shouldTrim (cap : ℕ) : Bool := 10 * c.records.entries.length > 11 * cap

/-- What `select_nth_unstable` leaves of the keys of `records`, in whatever order they came: the
ones with the lowest stakes first. -/
def Selected (size : ℕ) (stakes : OrdMap Pubkey ℕ) (keys : List Pubkey) : Prop :=
  keys.Perm c.records.keys ∧
    (size < keys.length → ∀ a ∈ keys.take size, ∀ b ∈ keys.drop size,
      toLex ((stakes.get a).getD 0, a) ≤ toLex ((stakes.get b).getD 0, b))

/-- `drop`: the number of values removed. -/
def drop (size : ℕ) (keep : List Pubkey) (stakes : OrdMap Pubkey ℕ)
    (now : ℕ) (keys : List Pubkey) : Option (Except CrdsError ℕ × Crds Pubkey Body) :=
  if stakes.entries.all fun e => e.2 = 0 then some (.error .unknownStakes, c)
  else do
    let found ← ((keys.take size).filter fun k => !keep.contains k).mapM fun k => do
      let records ← c.records.get k
      c.entriesAt records
    let keys := found.flatten.map Prod.fst
    let c ← c.removeAll keys now
    return (.ok keys.length, c)

def trim (cap : ℕ) (keep : List Pubkey) (stakes : OrdMap Pubkey ℕ) (now : ℕ)
    (keys : List Pubkey) : Option (Except CrdsError ℕ × Crds Pubkey Body) :=
  if c.shouldTrim cap then
    c.drop (c.records.entries.length - cap) keep stakes now keys
  else some (.ok 0, c)

/-! ## Purging -/

def u64Max : ℕ := 2 ^ 64 - 1

/-- When a value times out. -/
def expiry (v : VersionedCrdsValue Pubkey Body) (timeout : ℕ) : ℕ :=
  min u64Max (min v.value.wallclock v.localTimestamp + timeout)

/-- The labels of the old values of one node: none while its contact-info is fresh. -/
def evict (now timeout : ℕ) (pubkey : Pubkey) (indices : IndexSet ℕ) :
    Option (List (CrdsValueLabel Pubkey)) :=
  if (c.table.get (.contactInfo pubkey)).any fun origin => expiry origin timeout > now then some []
  else (c.entriesAt indices).map fun found =>
    (found.filter fun e => expiry e.2 timeout ≤ now).map Prod.fst

/-- `find_old_labels`, with the nodes in the order `keys`. -/
def findOldLabels (now : ℕ) (timeouts : Pubkey → ℕ) (keys : List Pubkey) :
    Option (List (CrdsValueLabel Pubkey)) :=
  (keys.mapM fun k => do
    let records ← c.records.get k
    c.evict now (timeouts k) k records).map List.flatten

def trimPurged (timestamp : ℕ) : Crds Pubkey Body :=
  { c with purged := c.purged.dropWhile fun e => e.2 < timestamp }

/-- `CrdsGossip::purge`: `purge_active` and the old hashes of what was purged. -/
def purge (now crdsTimeout : ℕ) (timeouts : Pubkey → ℕ)
    (keys : List Pubkey) : Option (Crds Pubkey Body) := do
  let labels ← c.findOldLabels now timeouts keys
  let c ← c.removeAll labels now
  return c.trimPurged (now - 5 * crdsTimeout)

/-! ## Reading -/

/-- The first `limit` values an index has from the cursor on, and where the cursor then is. -/
def readFrom (index : OrdMap ℕ ℕ) (cursor limit : ℕ) :
    Option (List (VersionedCrdsValue Pubkey Body) × ℕ) := do
  let range := (index.entries.filter fun e => cursor ≤ e.1).take limit
  let found ← range.mapM fun e => c.table.nth e.2
  return (found.map Prod.snd, range.foldl (fun cursor e => consume cursor e.1) cursor)

def getVotes (cursor limit : ℕ) := c.readFrom c.votes cursor limit

def getEpochSlots (cursor limit : ℕ) := c.readFrom c.epochSlots cursor limit

def getDuplicateShreds (cursor limit : ℕ) :=
  c.readFrom c.duplicateShreds cursor limit

def getEntries (cursor limit : ℕ) := c.readFrom c.entries cursor limit

/-- The index a reader follows. -/
def index : Feed → OrdMap ℕ ℕ
  | .votes => c.votes
  | .epochSlots => c.epochSlots
  | .duplicateShreds => c.duplicateShreds
  | .entries => c.entries

/-- What a reader of a feed calls. -/
def read : Feed → (cursor limit : ℕ) → Option (List (VersionedCrdsValue Pubkey Body) × ℕ)
  | .votes => c.getVotes
  | .epochSlots => c.getEpochSlots
  | .duplicateShreds => c.getDuplicateShreds
  | .entries => c.getEntries

end Crds

end Salsa.Gossip
