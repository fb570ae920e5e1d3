import Salsa.Lib.Program
import Salsa.Votor.History

/-!
# Salsa.Votor.Handler — events that make a validator vote

`event_handler.rs`: one event at a time, each behind `should_ignore`. The handler is a
program over the voting state that stops when an assertion of the vote history fails or
when an error ends the event loop.

What the handler takes from elsewhere is `Env`, and may be different for every event:
the banks in bank forks, what becomes of a vote message and whether the channels are
connected. A vote is in the history before its message is made, so it stays there
whatever becomes of the message.
-/

namespace Salsa.Votor

open Program

/-! ## Leader windows -/

/-- `NUM_CONSECUTIVE_LEADER_SLOTS`, a constant of the clock crate. -/
class LeaderWindow where
  numConsecutiveLeaderSlots : ℕ
  pos : 0 < numConsecutiveLeaderSlots

open LeaderWindow (numConsecutiveLeaderSlots)

abbrev fourSlotWindow : LeaderWindow := ⟨4, Nat.succ_pos 3⟩

section Window

variable [LeaderWindow]

def firstOfConsecutiveLeaderSlots (slot : ℕ) : ℕ :=
  slot / numConsecutiveLeaderSlots * numConsecutiveLeaderSlots

def lastOfConsecutiveLeaderSlots (slot : ℕ) : ℕ :=
  firstOfConsecutiveLeaderSlots slot + numConsecutiveLeaderSlots - 1

def leaderSlotIndex (slot : ℕ) : ℕ := slot % numConsecutiveLeaderSlots

theorem first_le (slot : ℕ) : firstOfConsecutiveLeaderSlots slot ≤ slot := Nat.div_mul_le_self _ _

theorem le_last (slot : ℕ) : slot ≤ lastOfConsecutiveLeaderSlots slot := by
  have hdiv := Nat.div_add_mod' slot numConsecutiveLeaderSlots
  have hmod := Nat.mod_lt slot LeaderWindow.pos
  unfold lastOfConsecutiveLeaderSlots firstOfConsecutiveLeaderSlots
  omega

end Window

/-! ## Events and state -/

/-- `VotorEvent`. A block comes with its parent, whose id may be unknown. -/
inductive Event (Hash : Type) where
  | block (slot : ℕ) (blockId : Hash) (parentSlot : ℕ) (parentBlockId : Option Hash)
  | blockNotarized (block : Block Hash)
  | firstShred (slot : ℕ)
  | parentReady (slot : ℕ) (parentBlock : Block Hash)
  | timeoutCrashedLeader (slot : ℕ)
  | timeout (slot : ℕ)
  | safeToNotar (block : Block Hash)
  | safeToSkip (slot : ℕ)
  | produceWindow
  | finalized (block : Block Hash) (isFastFinalization : Bool)
  | standstill (highestFinalizedSlot : ℕ)
  | setIdentity
deriving Repr

def Event.shouldIgnore {Hash : Type} (root : ℕ) : Event Hash → Bool
  | block slot _ _ _ | blockNotarized (slot, _) | firstShred slot | parentReady slot _
  | timeoutCrashedLeader slot | timeout slot | safeToNotar (slot, _) | safeToSkip slot
  | finalized (slot, _) _ => slot ≤ root
  | produceWindow | standstill _ | setIdentity => false

/-- A bank in bank forks, with the slot and id of its parent. -/
structure Bank (Hash : Type) where
  isFrozen : Bool
  blockId : Option Hash
  parent : Option (ℕ × Option Hash)

/-- What becomes of a vote message: pushed, not made for a transient or configuration
error, or an error that ends the loop. -/
inductive Message where
  | pushed
  | skipped
  | failed
deriving DecidableEq, Repr

/-- What an event finds outside: bank forks before and after a new root, the fate of
vote messages, whether the commitment channel is connected and whether a root is set. -/
structure Env (Hash : Type) where
  forks : ℕ → Option (Bank Hash)
  forksRooted : ℕ → Option (Bank Hash)
  message : Vote Hash → Message
  commitment : ℕ → Bool
  setRoot : ℕ → Bool

/-- The voting state: vote history, the root of bank forks, the local context and the
votes of the current event. The log is every vote and certificate so far. -/
structure State (Hash : Type) where
  history : VoteHistory Hash
  bankRoot : ℕ
  pendingBlocks : List (Block Hash × Block Hash)
  finalizedBlocks : List (Block Hash)
  receivedShred : Finset ℕ
  votes : List (Vote Hash)
  log : List (Entry Hash)

/-- An empty history from a root that bank forks have reached. -/
def State.new {Hash : Type} (root bankRoot : ℕ) : State Hash where
  history := .new root
  bankRoot := bankRoot
  pendingBlocks := []
  finalizedBlocks := []
  receivedShred := ∅
  votes := []
  log := []

/-- Why the event loop ends. -/
inductive Stop where
  | panic
  | error
deriving DecidableEq, Repr

abbrev Handler (Hash : Type) := EStateM Stop (State Hash)

variable [LeaderWindow] {Hash : Type} [DecidableEq Hash] [Inhabited Hash] (env : Env Hash)

/-! ## The handler -/

/-- A query of the vote history, whose assertion panics. -/
def ask {α : Type} (query : VoteHistory Hash → Option α) : Handler Hash α := do
  let s ← get
  orStop .panic (query s.history)

/-- `generate_vote_message`, and the push of what it returns. -/
def generateVoteMessage (vote : Vote Hash) (isRefresh : Bool) : Handler Hash Unit := do
  if !isRefresh then
    let history ← ask (·.addVote vote)
    modify fun s => { s with history := history, log := s.log ++ [.vote vote] }
  match env.message vote with
  | .pushed => modify fun s => { s with votes := s.votes ++ [vote] }
  | .skipped => pure ()
  | .failed => throw .error

def tryFinal (block : Block Hash) : Handler Hash Bool := do
  let s ← get
  if !s.history.isBlockNotarized block then return false
  if ← ask (·.itsOver block.1) then return false
  if ← ask (·.badWindow block.1) then return false
  if (← ask (·.votedNotar block.1)) ≠ some block.2 then return false
  generateVoteMessage env (.finalize block.1) false
  return true

/-- The conditions of `try_notar` beside not having voted. -/
def canNotar (block parentBlock : Block Hash) : Handler Hash Bool := do
  let s ← get
  if leaderSlotIndex block.1 = 0 ∨ block.1 = 1 then
    return s.history.isParentReady block.1 parentBlock
  else if parentBlock.1 + 1 ≠ block.1 then
    return false
  else
    return (← ask (·.votedNotar parentBlock.1)) = some parentBlock.2

def tryNotar (block parentBlock : Block Hash) : Handler Hash Bool := do
  if ← ask (·.voted block.1) then return false
  if !(← canNotar block parentBlock) then return false
  generateVoteMessage env (.notarize block.1 block.2) false
  if !env.commitment block.1 then throw .error
  modify fun s => { s with pendingBlocks := s.pendingBlocks.filter (·.1.1 ≠ block.1) }
  let _ ← tryFinal env block
  return true

def checkPendingBlocks : Handler Hash Unit := do
  let s ← get
  s.pendingBlocks.forM fun (block, parentBlock) => do
    let _ ← tryNotar env block parentBlock

def trySkipWindow (slot : ℕ) : Handler Hash Unit := do
  let s ← get
  let start := max (max (firstOfConsecutiveLeaderSlots slot) s.bankRoot) 1
  (List.range' start (lastOfConsecutiveLeaderSlots slot + 1 - start)).forM fun s => do
    if !(← ask (·.voted s)) then
      generateVoteMessage env (.skip s) false

def refreshVotes (highestFinalizedSlot : ℕ) : Handler Hash Unit := do
  let s ← get
  (s.history.votesCastSince highestFinalizedSlot).forM fun vote => generateVoteMessage env vote true

/-- Whether `check_rootable_blocks` may set the root on a finalized block. -/
def isRootable (block : Block Hash) : Handler Hash Bool := do
  let s ← get
  match env.forks block.1 with
  | none => return false
  | some bank =>
      if s.bankRoot < block.1 then
        return (← ask (·.voted block.1)) && bank.isFrozen && bank.blockId = some block.2
      else return false

/-- `set_root`; an error after the history is pruned leaves bank forks as they were. -/
def setRoot (newRoot : ℕ) : Handler Hash Unit := do
  modify fun s => { s with
    history := s.history.setRoot newRoot
    pendingBlocks := s.pendingBlocks.filter (newRoot ≤ ·.1.1)
    finalizedBlocks := s.finalizedBlocks.filter (newRoot ≤ ·.1)
    receivedShred := s.receivedShred.filter (newRoot ≤ ·) }
  if !env.setRoot newRoot then throw .error
  modify fun s => { s with bankRoot := newRoot }

def highestRootable : List (Block Hash) → Handler Hash (Option ℕ)
  | [] => return none
  | block :: blocks => do
      let rest ← highestRootable blocks
      if ← isRootable env block then return some (max block.1 (rest.getD 0)) else return rest

def checkRootableBlocks : Handler Hash Unit := do
  let s ← get
  match ← highestRootable env s.finalizedBlocks with
  | none => pure ()
  | some newRoot => setRoot env newRoot

def addMissingParentReady (finalizedBlock : Block Hash) :
    Handler Hash (Option (ℕ × Block Hash)) := do
  let s ← get
  let first := firstOfConsecutiveLeaderSlots finalizedBlock.1
  if first = finalizedBlock.1 ∨ first = 0 then return none
  if WithBot.some first ≤ s.history.highestParentReadySlot ∨
      finalizedBlock ∉ s.finalizedBlocks then return none
  return do
    let bank ← env.forksRooted finalizedBlock.1
    guard bank.isFrozen
    guard (bank.blockId = some finalizedBlock.2)
    let (parentSlot, parentBlockId) ← bank.parent
    return (finalizedBlock.1, (parentSlot, ← parentBlockId))

def handleParentReadyEvent (slot : ℕ) (parentBlock : Block Hash) : Handler Hash Unit := do
  modify fun s => { s with history := (s.history.addParentReady slot parentBlock).2 }
  checkPendingBlocks env

/-- A finalized or replayed block may be the first of its window that was seen. -/
def repairParentReady (block : Block Hash) : Handler Hash Unit := do
  match ← addMissingParentReady env block with
  | none => pure ()
  | some (slot, parentBlock) => handleParentReadyEvent env slot parentBlock

/-- `pending_blocks.entry(slot).or_default().push(..)`, on the blocks in slot order. -/
def pushPending (pending : List (Block Hash × Block Hash)) (entry : Block Hash × Block Hash) :
    List (Block Hash × Block Hash) :=
  pending.takeWhile (·.1.1 ≤ entry.1.1) ++ entry :: pending.dropWhile (·.1.1 ≤ entry.1.1)

/-- The event of a replayed block, up to the repair: a vote, or a place among the pending. -/
def handleBlock (block parentBlock : Block Hash) : Handler Hash Unit := do
  if ← tryNotar env block parentBlock then
    checkPendingBlocks env
  else if !(← ask (·.voted block.1)) then
    modify fun s => { s with pendingBlocks := pushPending s.pendingBlocks (block, parentBlock) }
  checkRootableBlocks env

/-- The event of a finalized block, up to the repair. -/
def handleFinalized (block : Block Hash) : Handler Hash Unit := do
  modify fun s => { s with finalizedBlocks := s.finalizedBlocks.insert block }
  checkRootableBlocks env

def handleEvent : Event Hash → Handler Hash Unit
  | .block slot blockId parentSlot parentBlockId => do
      handleBlock env (slot, blockId) (parentSlot, parentBlockId.getD default)
      repairParentReady env (slot, blockId)
  | .blockNotarized block => do
      modify fun s => { s with
        history := s.history.addBlockNotarized block, log := s.log ++ [.notarized block] }
      let _ ← tryFinal env block
  | .firstShred slot => modify fun s => { s with receivedShred := insert slot s.receivedShred }
  | .parentReady slot parentBlock => handleParentReadyEvent env slot parentBlock
  | .timeoutCrashedLeader slot => do
      if ← ask (·.voted slot) then return
      let s ← get
      if slot ∈ s.receivedShred then return
      trySkipWindow env slot
  | .timeout slot => do
      if ← ask (·.voted slot) then return
      trySkipWindow env slot
  | .safeToNotar (slot, blockId) => do
      trySkipWindow env slot
      if ← ask (·.itsOver slot) then return
      if ← ask (·.votedNotarFallback slot blockId) then return
      generateVoteMessage env (.notarizeFallback slot blockId) false
  | .safeToSkip slot => do
      trySkipWindow env slot
      if ← ask (·.itsOver slot) then return
      if ← ask (·.votedSkipFallback slot) then return
      generateVoteMessage env (.skipFallback slot) false
  | .produceWindow => pure ()
  | .finalized block _ => do
      handleFinalized env block
      repairParentReady env block
  | .standstill highestFinalizedSlot => refreshVotes env highestFinalizedSlot
  -- the identity is unchanged
  | .setIdentity => pure ()

/-- One round of `event_loop`. -/
def eventLoop (event : Event Hash) : Handler Hash Unit := do
  modify fun s => { s with votes := [] }
  let s ← get
  if event.shouldIgnore s.bankRoot then return
  handleEvent env event

end Salsa.Votor
