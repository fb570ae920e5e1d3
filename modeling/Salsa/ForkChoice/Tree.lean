import Mathlib.Data.Prod.Lex
import Salsa.Lib.OrdMap
import Salsa.Lib.Visit

/-!
# Salsa.ForkChoice.Tree — the tree of forks and its update operations

`heaviest_subtree_fork_choice.rs`: the blocks above the root with the stake that voted
for each, and for each block the heaviest and the deepest block below it.

A change is compiled into update operations, a map ordered by block and kind of
operation, which is processed from its greatest entry to its least. Every operation
changes the entry of its own block only, and an `Aggregate` recomputes it from the
entries of the children. Leaves are the exception: they are added without operations,
by two walks towards the root (`propagateNewLeaf`).

`none` is a panic: a missing entry, a failed assertion or a subtraction below zero. The
hash maps and sets of the source are ordered here; where the source walks over one of
the maps, the order is a parameter.
-/

namespace Salsa.ForkChoice

/-! ## Blocks -/

@[ext] structure SlotHashKey (Hash : Type) where
  slot : ℕ
  hash : Hash
deriving Repr

variable {Hash : Type}

theorem SlotHashKey.toLex_injective :
    Function.Injective fun k : SlotHashKey Hash => toLex (k.slot, k.hash) := by
  intro k j h
  cases j
  cases h
  rfl

variable [LinearOrder Hash] {k j : SlotHashKey Hash}

/-- The order of pairs: by slot, then by hash. -/
instance : LinearOrder (SlotHashKey Hash) := LinearOrder.lift' _ SlotHashKey.toLex_injective

/-- `SlotHashKey::default()`. -/
instance [Inhabited Hash] : Inhabited (SlotHashKey Hash) := ⟨⟨0, default⟩⟩

theorem SlotHashKey.slot_le (h : k ≤ j) : k.slot ≤ j.slot := by
  rcases Prod.Lex.toLex_le_toLex.mp h with hlt | heq
  · exact hlt.le
  · exact heq.1.le

theorem SlotHashKey.lt_of_slot (h : k.slot < j.slot) : k < j :=
  Prod.Lex.toLex_lt_toLex.mpr (Or.inl h)

/-! ## Update operations -/

/-- `UpdateLabel`, by which the operations on one block are ordered. -/
inductive UpdateLabel where
  | aggregate
  | add
  | markValid (slot : ℕ)
  | markInvalid (slot : ℕ)
  | subtract
deriving Repr

/-- The derived order, as a pair of variant and field. -/
def UpdateLabel.rank : UpdateLabel → ℕ ×ₗ ℕ
  | aggregate => toLex (0, 0)
  | add => toLex (1, 0)
  | markValid slot => toLex (2, slot)
  | markInvalid slot => toLex (3, slot)
  | subtract => toLex (4, 0)

theorem UpdateLabel.rank_injective : Function.Injective UpdateLabel.rank := by
  intro a b h
  cases a <;> cases b <;> cases h <;> rfl

instance : LinearOrder UpdateLabel := LinearOrder.lift' _ UpdateLabel.rank_injective

inductive UpdateOperation where
  | add (stake : ℕ)
  | markValid (slot : ℕ)
  | markInvalid (slot : ℕ)
  | subtract (stake : ℕ)
  | aggregate
deriving DecidableEq, Repr

/-- `update_stake`; `none` is its panic. -/
def UpdateOperation.updateStake (newStake : ℕ) : UpdateOperation → Option UpdateOperation
  | add stake => some (add (stake + newStake))
  | subtract stake => some (subtract (stake + newStake))
  | _ => none

abbrev UpdateOperations (Hash : Type) [LinearOrder Hash] : Type :=
  OrdMap (SlotHashKey Hash ×ₗ UpdateLabel) UpdateOperation

/-! ## The entry of a block -/

structure ForkInfo (Hash : Type) [LinearOrder Hash] where
  stakeVotedAt : ℕ
  stakeVotedSubtree : ℕ
  height : ℕ
  bestSlot : SlotHashKey Hash
  deepestSlot : SlotHashKey Hash
  parent : Option (SlotHashKey Hash)
  children : OrdSet (SlotHashKey Hash)
  latestInvalidAncestor : Option ℕ
  isDuplicateConfirmed : Bool

namespace ForkInfo

def isCandidate (info : ForkInfo Hash) : Bool := info.latestInvalidAncestor.isNone

def setDuplicateConfirmed (info : ForkInfo Hash) : ForkInfo Hash :=
  { info with isDuplicateConfirmed := true, latestInvalidAncestor := none }

def updateWithNewlyValidAncestor (newlyValidAncestor : ℕ) (info : ForkInfo Hash) : ForkInfo Hash :=
  match info.latestInvalidAncestor with
  | some latest =>
      if latest ≤ newlyValidAncestor then { info with latestInvalidAncestor := none } else info
  | none => info

/-- `update_with_newly_invalid_ancestor`; `none` is its assertion. -/
def updateWithNewlyInvalidAncestor (newlyInvalidAncestor : ℕ) (info : ForkInfo Hash) :
    Option (ForkInfo Hash) :=
  if info.isDuplicateConfirmed then none
  else if (info.latestInvalidAncestor.map fun latest => decide (latest < newlyInvalidAncestor)).getD
      true then
    some { info with latestInvalidAncestor := some newlyInvalidAncestor }
  else some info

end ForkInfo

abbrev ForkInfos (Hash : Type) [LinearOrder Hash] : Type :=
  OrdMap (SlotHashKey Hash) (ForkInfo Hash)

variable (infos : ForkInfos Hash) (key : SlotHashKey Hash)

def parent : Option (SlotHashKey Hash) :=
  (infos.get key).bind ForkInfo.parent

/-- Change the entry of a block, if there is one. -/
def updateInfo (f : ForkInfo Hash → Option (ForkInfo Hash)) : Option (ForkInfos Hash) :=
  match infos.get key with
  | some info => (f info).map (infos.insert key)
  | none => some infos

/-! ## Aggregation -/

/-- The variables of the loop in `aggregate_slot`. -/
structure Aggregation (Hash : Type) where
  stakeVotedSubtree : ℕ
  deepestChildHeight : ℕ := 0
  bestSlotHashKey : SlotHashKey Hash
  deepestSlotHashKey : SlotHashKey Hash
  isDuplicateConfirmed : Bool := false
  bestChildStakeVotedSubtree : ℕ := 0
  bestChildSlotKey : SlotHashKey Hash
  deepestChildStakeVotedSubtree : ℕ := 0
  deepestChildSlotKey : SlotHashKey Hash

namespace Aggregation

def isBetter (a : Aggregation Hash) (key childKey : SlotHashKey Hash) (child : ForkInfo Hash) :
    Bool :=
  child.isCandidate &&
    (a.bestChildSlotKey = key || a.bestChildStakeVotedSubtree < child.stakeVotedSubtree ||
      (child.stakeVotedSubtree = a.bestChildStakeVotedSubtree && childKey < a.bestChildSlotKey))

def isDeeper (a : Aggregation Hash) (key childKey : SlotHashKey Hash) (child : ForkInfo Hash) :
    Bool :=
  a.deepestChildSlotKey = key || a.deepestChildHeight < child.height ||
    (child.height = a.deepestChildHeight &&
      (a.deepestChildStakeVotedSubtree < child.stakeVotedSubtree ||
        (child.stakeVotedSubtree = a.deepestChildStakeVotedSubtree &&
          childKey < a.deepestChildSlotKey)))

def addChild (a : Aggregation Hash) (childKey : SlotHashKey Hash)
    (child : ForkInfo Hash) : Aggregation Hash :=
  let better := a.isBetter key childKey child
  let deeper := a.isDeeper key childKey child
  { stakeVotedSubtree := a.stakeVotedSubtree + child.stakeVotedSubtree
    isDuplicateConfirmed := a.isDuplicateConfirmed || child.isDuplicateConfirmed
    bestChildStakeVotedSubtree :=
      if better then child.stakeVotedSubtree else a.bestChildStakeVotedSubtree
    bestChildSlotKey := if better then childKey else a.bestChildSlotKey
    bestSlotHashKey := if better then child.bestSlot else a.bestSlotHashKey
    deepestChildHeight := if deeper then child.height else a.deepestChildHeight
    deepestChildStakeVotedSubtree :=
      if deeper then child.stakeVotedSubtree else a.deepestChildStakeVotedSubtree
    deepestChildSlotKey := if deeper then childKey else a.deepestChildSlotKey
    deepestSlotHashKey := if deeper then child.deepestSlot else a.deepestSlotHashKey }

def start (info : ForkInfo Hash) : Aggregation Hash where
  stakeVotedSubtree := info.stakeVotedAt
  bestSlotHashKey := key
  deepestSlotHashKey := key
  bestChildSlotKey := key
  deepestChildSlotKey := key

def loop (get : SlotHashKey Hash → Option (ForkInfo Hash)) (key : SlotHashKey Hash)
    (children : List (SlotHashKey Hash)) (a : Aggregation Hash) : Option (Aggregation Hash) :=
  children.foldlM (fun a childKey => (get childKey).map (a.addChild key childKey)) a

def finish (a : Aggregation Hash) (info : ForkInfo Hash) : ForkInfo Hash :=
  { (if a.isDuplicateConfirmed then info.setDuplicateConfirmed else info) with
    stakeVotedSubtree := a.stakeVotedSubtree
    height := a.deepestChildHeight + 1
    bestSlot := a.bestSlotHashKey
    deepestSlot := a.deepestSlotHashKey }

end Aggregation

/-- The entry of a block recomputed from those of its children. -/
def aggregateInfo (get : SlotHashKey Hash → Option (ForkInfo Hash)) (key : SlotHashKey Hash)
    (info : ForkInfo Hash) : Option (ForkInfo Hash) :=
  (Aggregation.loop get key info.children.keys (Aggregation.start key info)).map
    fun a => a.finish info

def aggregateSlot : Option (ForkInfos Hash) :=
  updateInfo infos key (aggregateInfo infos.get key)

/-! ## Processing -/

def markForkValid (validSlot : ℕ) : Option (ForkInfos Hash) :=
  updateInfo infos key fun info =>
    let info := info.updateWithNewlyValidAncestor validSlot
    some (if key.slot = validSlot then { info with isDuplicateConfirmed := true } else info)

def markForkInvalid (invalidSlot : ℕ) : Option (ForkInfos Hash) :=
  updateInfo infos key (ForkInfo.updateWithNewlyInvalidAncestor invalidSlot)

def addSlotStake (stake : ℕ) : Option (ForkInfos Hash) :=
  updateInfo infos key fun info =>
    some { info with
      stakeVotedAt := info.stakeVotedAt + stake
      stakeVotedSubtree := info.stakeVotedSubtree + stake }

/-- `subtract_slot_stake`; `none` is an underflow. -/
def subtractSlotStake (stake : ℕ) : Option (ForkInfos Hash) :=
  updateInfo infos key fun info =>
    if stake ≤ info.stakeVotedAt ∧ stake ≤ info.stakeVotedSubtree then
      some { info with
        stakeVotedAt := info.stakeVotedAt - stake
        stakeVotedSubtree := info.stakeVotedSubtree - stake }
    else none

/-- One round of `process_update_operations`. -/
def processUpdateOperation : UpdateOperation → Option (ForkInfos Hash)
  | .markValid validSlot => markForkValid infos key validSlot
  | .markInvalid invalidSlot => markForkInvalid infos key invalidSlot
  | .aggregate => aggregateSlot infos key
  | .add stake => addSlotStake infos key stake
  | .subtract stake => subtractSlotStake infos key stake

/-- `process_update_operations`: the greatest block first. -/
def processUpdateOperations (ops : UpdateOperations Hash) : Option (ForkInfos Hash) :=
  ops.entries.reverse.foldlM
    (fun infos entry => processUpdateOperation infos (ofLex entry.1).1 entry.2) infos

/-! ## Aggregates up to the root -/

/-- At most the given number of ancestors, the nearest first. -/
def ancestorsWithin : ℕ → SlotHashKey Hash → List (SlotHashKey Hash)
  | 0, _ => []
  | n + 1, key => (parent infos key).elim [] fun p => p :: ancestorsWithin n p

/-- `ancestor_iterator`: the slot of a parent is smaller, so the slot of the block bounds
the number of steps. -/
def ancestorIterator : List (SlotHashKey Hash) :=
  ancestorsWithin infos key.slot key

/-- `do_insert_aggregate_operation`: false if the block has its `Aggregate` already. -/
def doInsertAggregateOperation (ops : UpdateOperations Hash)
    (modifyForkValidity : Option UpdateOperation) (key : SlotHashKey Hash) :
    UpdateOperations Hash × Bool :=
  if ops.contains (toLex (key, .aggregate)) then (ops, false)
  else
    let ops := match modifyForkValidity with
      | some (.markValid slot) => ops.insert (toLex (key, .markValid slot)) (.markValid slot)
      | some (.markInvalid slot) => ops.insert (toLex (key, .markInvalid slot)) (.markInvalid slot)
      | _ => ops
    (ops.insert (toLex (key, .aggregate)) .aggregate, true)

/-- `do_insert_aggregate_operations_across_ancestors`: stops at the first ancestor that
has its `Aggregate` already. -/
def doInsertAcross (modifyForkValidity : Option UpdateOperation) :
    UpdateOperations Hash → List (SlotHashKey Hash) → UpdateOperations Hash
  | ops, [] => ops
  | ops, key :: keys =>
      match doInsertAggregateOperation ops modifyForkValidity key with
      | (ops, true) => doInsertAcross modifyForkValidity ops keys
      | (ops, false) => ops

def insertAggregateOperations (ops : UpdateOperations Hash)
    (key : SlotHashKey Hash) : UpdateOperations Hash :=
  doInsertAcross none ops (ancestorIterator infos key)

/-! ## Subtrees -/

/-- `subtree_diff`: the blocks from `root1` on without those from `root2` on. -/
def subtreeDiff (root1 root2 : SlotHashKey Hash) : Option (OrdSet (SlotHashKey Hash)) :=
  if infos.contains root1 then
    Visit.loop (fun reachable key =>
        if key = root2 then some ([], reachable)
        else (infos.get key).map fun info => (info.children.keys, reachable.insert key ()))
      infos.keys.length [root1] .empty
  else some .empty

def remove : Option (ForkInfos Hash) :=
  if infos.contains key then some (infos.erase key) else none

end Salsa.ForkChoice
