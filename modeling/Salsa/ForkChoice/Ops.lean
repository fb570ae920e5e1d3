import Salsa.ForkChoice.Tree

/-!
# Salsa.ForkChoice.Ops — the operations of the fork choice

The methods of `HeaviestSubtreeForkChoice`: leaves, votes, a new root, splitting a
subtree off and merging one in, and the marks of duplicate blocks.
-/

namespace Salsa.ForkChoice

variable {Hash Pubkey : Type} [LinearOrder Hash] [LinearOrder Pubkey]

structure HeaviestSubtreeForkChoice (Hash Pubkey : Type) [LinearOrder Hash]
    [LinearOrder Pubkey] where
  forkInfos : ForkInfos Hash
  latestVotes : OrdMap Pubkey (SlotHashKey Hash)
  treeRoot : SlotHashKey Hash

/-- `bank.epoch_stakes_map()` and `bank.epoch_schedule()`, with the `vote_account_stake` of
an epoch as a function. -/
structure Epochs (Pubkey : Type) where
  epochStakes : ℕ → Option (Pubkey → ℕ)
  getEpoch : ℕ → ℕ

def Epochs.stake (E : Epochs Pubkey) (slot : ℕ) (pubkey : Pubkey) : ℕ :=
  ((E.epochStakes (E.getEpoch slot)).map fun stakes => stakes pubkey).getD 0

/-! ## Leaves -/

def isBestChild (infos : ForkInfos Hash) (maybeBestChild : SlotHashKey Hash) : Option Bool := do
  let info ← infos.get maybeBestChild
  match info.parent with
  | none => some true
  | some parent =>
      let parentInfo ← infos.get parent
      parentInfo.children.keys.allM fun child =>
        (infos.get child).map fun childInfo =>
          !(childInfo.isCandidate &&
            (info.stakeVotedSubtree < childInfo.stakeVotedSubtree ||
              (info.stakeVotedSubtree = childInfo.stakeVotedSubtree && child < maybeBestChild)))

def isDeepestChild (infos : ForkInfos Hash) (maybeDeepestChild : SlotHashKey Hash) :
    Option Bool := do
  let info ← infos.get maybeDeepestChild
  match info.parent with
  | none => some true
  | some parent =>
      let parentInfo ← infos.get parent
      parentInfo.children.keys.allM fun child =>
        (infos.get child).map fun childInfo =>
          !(info.height < childInfo.height ||
            (childInfo.height = info.height &&
              (info.stakeVotedSubtree < childInfo.stakeVotedSubtree ||
                (childInfo.stakeVotedSubtree = info.stakeVotedSubtree &&
                  child < maybeDeepestChild))))

/-- The first loop of `propagate_new_leaf`: the leaf takes the place of the best slot of
the parent as long as an ancestor has it. -/
def propagateBest (leaf oldBest : SlotHashKey Hash) :
    ℕ → ForkInfos Hash → Option (SlotHashKey Hash) → Option (ForkInfos Hash)
  | _, infos, none => some infos
  | 0, _, some _ => none
  | n + 1, infos, some ancestor => do
      let info ← infos.get ancestor
      if info.bestSlot = oldBest then
        propagateBest leaf oldBest n (infos.insert ancestor { info with bestSlot := leaf })
          info.parent
      else some infos

/-- The second loop: the leaf is the deepest slot as long as the way to it is by the
deepest child. -/
def propagateDeepest (leaf : SlotHashKey Hash) :
    ℕ → ForkInfos Hash → Option (SlotHashKey Hash) → SlotHashKey Hash → ℕ → Option (ForkInfos Hash)
  | _, infos, none, _, _ => some infos
  | 0, _, some _, _, _ => none
  | n + 1, infos, some ancestor, currentChild, currentHeight => do
      if ← isDeepestChild infos currentChild then
        let info ← infos.get ancestor
        propagateDeepest leaf n
          (infos.insert ancestor { info with deepestSlot := leaf, height := currentHeight + 1 })
          info.parent ancestor (currentHeight + 1)
      else some infos

/-- `propagate_new_leaf`; the slot of the leaf bounds the number of its ancestors. -/
def propagateNewLeaf (infos : ForkInfos Hash) (leaf parent : SlotHashKey Hash) :
    Option (ForkInfos Hash) := do
  let parentInfo ← infos.get parent
  let infos ←
    if ← isBestChild infos leaf then
      propagateBest leaf parentInfo.bestSlot leaf.slot infos (some parent)
    else some infos
  propagateDeepest leaf leaf.slot infos (some parent) leaf 1

def leafInfo (key : SlotHashKey Hash) (parent : Option (SlotHashKey Hash))
    (latestInvalidAncestor : Option ℕ) : ForkInfo Hash where
  stakeVotedAt := 0
  stakeVotedSubtree := 0
  height := 1
  bestSlot := key
  deepestSlot := key
  children := .empty
  parent := parent
  latestInvalidAncestor := latestInvalidAncestor
  isDuplicateConfirmed := parent.isNone

namespace HeaviestSubtreeForkChoice

variable (t : HeaviestSubtreeForkChoice Hash Pubkey)

def containsBlock (key : SlotHashKey Hash) : Bool := t.forkInfos.contains key

def latestInvalidAncestor (key : SlotHashKey Hash) : Option ℕ :=
  (t.forkInfos.get key).bind ForkInfo.latestInvalidAncestor

def bestOverallSlot : Option (SlotHashKey Hash) :=
  (t.forkInfos.get t.treeRoot).map ForkInfo.bestSlot

def addNewLeafSlot (key : SlotHashKey Hash) (parent : Option (SlotHashKey Hash)) :
    Option (HeaviestSubtreeForkChoice Hash Pubkey) :=
  if t.containsBlock key then some t
  else
    let infos := t.forkInfos.insert key (leafInfo key parent (parent.bind t.latestInvalidAncestor))
    match parent with
    | none => some { t with forkInfos := infos }
    | some parent => do
        let parentInfo ← infos.get parent
        let infos ← propagateNewLeaf
          (infos.insert parent { parentInfo with children := parentInfo.children.insert key () })
          key parent
        some { t with forkInfos := infos }

def new (treeRoot : SlotHashKey Hash) : Option (HeaviestSubtreeForkChoice Hash Pubkey) :=
  addNewLeafSlot { forkInfos := .empty, latestVotes := .empty, treeRoot := treeRoot } treeRoot none

end HeaviestSubtreeForkChoice

/-! ## Votes -/

/-- What `generate_update_operations` changes. -/
structure VoteBatch (Hash Pubkey : Type) [LinearOrder Hash] [LinearOrder Pubkey] where
  latestVotes : OrdMap Pubkey (SlotHashKey Hash)
  updateOperations : UpdateOperations Hash := .empty
  observedPubkeys : OrdMap Pubkey ℕ := .empty

/-- `entry(..).and_modify(update_stake).or_insert(..)`. -/
def updateEntry (ops : UpdateOperations Hash) (key : SlotHashKey Hash) (label : UpdateLabel)
    (stake : ℕ) (fresh : UpdateOperation) : Option (UpdateOperations Hash) :=
  match ops.get (toLex (key, label)) with
  | some op => (op.updateStake stake).map (ops.insert (toLex (key, label)))
  | none => some (ops.insert (toLex (key, label)) fresh)

/-- The stake leaves the block of the old vote. -/
def removeVote (E : Epochs Pubkey) (infos : ForkInfos Hash) (ops : UpdateOperations Hash)
    (pubkey : Pubkey) (oldVote : SlotHashKey Hash) : Option (UpdateOperations Hash) :=
  let stake := E.stake oldVote.slot pubkey
  if 0 < stake then
    (updateEntry ops oldVote .subtract stake (.subtract stake)).map fun ops =>
      insertAggregateOperations infos ops oldVote
  else some ops

/-- The stake goes to the block of the new vote. -/
def recordVote (E : Epochs Pubkey) (infos : ForkInfos Hash) (ops : UpdateOperations Hash)
    (pubkey : Pubkey) (newVote : SlotHashKey Hash) : Option (UpdateOperations Hash) :=
  let stake := E.stake newVote.slot pubkey
  (updateEntry ops newVote .add stake (.add stake)).map fun ops =>
    insertAggregateOperations infos ops newVote

/-- One round of `generate_update_operations`. -/
def generateVote (E : Epochs Pubkey) (infos : ForkInfos Hash) (treeRoot : SlotHashKey Hash)
    (batch : VoteBatch Hash Pubkey) (vote : Pubkey × SlotHashKey Hash) :
    Option (VoteBatch Hash Pubkey) :=
  let (pubkey, newVote) := vote
  if newVote.slot < treeRoot.slot then some batch
  else if batch.observedPubkeys.contains pubkey then none
  else
    let observed := batch.observedPubkeys.insert pubkey newVote.slot
    let latest := batch.latestVotes.insert pubkey newVote
    match batch.latestVotes.get pubkey with
    | some oldVote =>
        if newVote.slot < oldVote.slot ∨ (newVote.slot = oldVote.slot ∧ oldVote.hash ≤ newVote.hash)
        then some { batch with observedPubkeys := observed }
        else if (if newVote.slot = oldVote.slot then newVote.hash < oldVote.hash
            else oldVote.slot < newVote.slot) then do
          let ops ← removeVote E infos batch.updateOperations pubkey oldVote
          let ops ← recordVote E infos ops pubkey newVote
          some ⟨latest, ops, observed⟩
        else none
    | none => do
        let ops ← recordVote E infos batch.updateOperations pubkey newVote
        some ⟨latest, ops, observed⟩

namespace HeaviestSubtreeForkChoice

variable (t : HeaviestSubtreeForkChoice Hash Pubkey)

def generateUpdateOperations (E : Epochs Pubkey) (votes : List (Pubkey × SlotHashKey Hash)) :
    Option (VoteBatch Hash Pubkey) :=
  votes.foldlM (generateVote E t.forkInfos t.treeRoot) { latestVotes := t.latestVotes }

/-- `add_votes`; returns the best slot. -/
def addVotes (E : Epochs Pubkey) (votes : List (Pubkey × SlotHashKey Hash)) :
    Option (SlotHashKey Hash × HeaviestSubtreeForkChoice Hash Pubkey) := do
  let batch ← t.generateUpdateOperations E votes
  let infos ← processUpdateOperations t.forkInfos batch.updateOperations
  let t := { t with forkInfos := infos, latestVotes := batch.latestVotes }
  let best ← t.bestOverallSlot
  some (best, t)

/-! ## Roots, splits and merges -/

def setTreeRoot (newRoot : SlotHashKey Hash) : Option (HeaviestSubtreeForkChoice Hash Pubkey) := do
  let removeSet ← subtreeDiff t.forkInfos t.treeRoot newRoot
  let infos ← removeSet.keys.foldlM remove t.forkInfos
  let rootInfo ← infos.get newRoot
  some { t with
    forkInfos := infos.insert newRoot { rootInfo with parent := none }
    treeRoot := newRoot }

/-- The loop of `split_off`: the entries of the subtree go from the one map to the other. -/
def moveSubtree (infos : ForkInfos Hash) (key : SlotHashKey Hash) :
    Option (ForkInfos Hash × ForkInfos Hash) :=
  Visit.loop (fun (infos, split) current => do
      let info ← infos.get current
      some (info.children.keys, infos.erase current, split.insert current info))
    infos.keys.length [key] (infos, .empty)

/-- `split_off`; returns the subtree and what is left. -/
def splitOff (key : SlotHashKey Hash) :
    Option (HeaviestSubtreeForkChoice Hash Pubkey × HeaviestSubtreeForkChoice Hash Pubkey) :=
  if t.treeRoot = key then none
  else do
    let splitTreeRoot ← t.forkInfos.get key
    let parent ← splitTreeRoot.parent
    let ops := insertAggregateOperations t.forkInfos .empty key
    let parentInfo ← t.forkInfos.get parent
    if parentInfo.children.contains key then
      let infos ← processUpdateOperations (t.forkInfos.insert parent
        { parentInfo with children := parentInfo.children.erase key }) ops
      let (infos, split) ← moveSubtree infos key
      let parentInfo ← infos.get parent
      let infos := infos.insert parent { parentInfo with children := parentInfo.children.erase key }
      let split := split.insert key { splitTreeRoot with parent := none }
      some ({ forkInfos := split
              latestVotes := t.latestVotes.filter fun _ node => split.contains node
              treeRoot := key },
            { t with
              forkInfos := infos
              latestVotes := t.latestVotes.filter fun _ node => infos.contains node })
    else none

/-- The blocks of a tree in order, with their parents; `mergeLeaf` for its root. -/
def slotsNodes (mergeLeaf : SlotHashKey Hash) : List (SlotHashKey Hash × SlotHashKey Hash) :=
  t.forkInfos.entries.map fun (key, info) => (key, info.parent.getD mergeLeaf)

def addLeaves (nodes : List (SlotHashKey Hash × SlotHashKey Hash)) :
    Option (HeaviestSubtreeForkChoice Hash Pubkey) :=
  nodes.foldlM (fun t (key, parent) => t.addNewLeafSlot key (some parent)) t

/-- `merge`, with the votes of the other tree in some order. -/
def merge (other : HeaviestSubtreeForkChoice Hash Pubkey) (mergeLeaf : SlotHashKey Hash)
    (E : Epochs Pubkey) (votes : List (Pubkey × SlotHashKey Hash)) :
    Option (HeaviestSubtreeForkChoice Hash Pubkey) :=
  if t.containsBlock mergeLeaf then do
    let t ← t.addLeaves (other.slotsNodes mergeLeaf)
    let (_, t) ← t.addVotes E votes
    some t
  else none

/-! ## Duplicate blocks -/

/-- The operations of a mark: on every block of the subtree, and aggregates up to the root. -/
def markOperations (mark : UpdateOperation) (key : SlotHashKey Hash)
    (subtree : OrdSet (SlotHashKey Hash)) : UpdateOperations Hash :=
  insertAggregateOperations t.forkInfos
    (subtree.keys.foldl (fun ops child => (doInsertAggregateOperation ops (some mark) child).1)
      .empty) key

variable [Inhabited Hash]

def markForkInvalidCandidate (key : SlotHashKey Hash) :
    Option (HeaviestSubtreeForkChoice Hash Pubkey) :=
  match t.forkInfos.get key with
  | none => some t
  | some info =>
      if info.isDuplicateConfirmed then none
      else do
        let subtree ← subtreeDiff t.forkInfos key default
        let infos ← processUpdateOperations t.forkInfos
          (t.markOperations (.markInvalid key.slot) key subtree)
        some { t with forkInfos := infos }

/-- `mark_fork_valid_candidate`; returns the blocks that become duplicate confirmed. -/
def markForkValidCandidate (key : SlotHashKey Hash) :
    Option (List (SlotHashKey Hash) × HeaviestSubtreeForkChoice Hash Pubkey) := do
  let path ← (key :: ancestorIterator t.forkInfos key).mapM fun ancestor =>
    (t.forkInfos.get ancestor).map fun info => (ancestor, info.isDuplicateConfirmed)
  let newlyConfirmed := (path.filter fun (_, confirmed) => !confirmed).map Prod.fst
  let subtree ← subtreeDiff t.forkInfos key default
  let infos ← processUpdateOperations t.forkInfos
    (t.markOperations (.markValid key.slot) key subtree)
  some (newlyConfirmed, { t with forkInfos := infos })

end HeaviestSubtreeForkChoice

end Salsa.ForkChoice
