import CilCore.Node.BlockProcessor

/-!
# The queue of blocks to execute

`_blockProcessor`, `_handleArrivedBlock` and the `commitBlock` handler of a witness, taking
turns at their `await`s. Whoever calls `_processBlock` is suspended several times in it: it
looks for unknown parents one by one, reads a body, waits for the lock for executing, and
accepts the block effect by effect. The entry that `_blockProcessor` works on is deleted
from the queue when `_processBlock` is done with it.
-/

namespace CilCore

/-- Who awaits `_processBlock`. -/
inductive Caller where
  | blockProcessor
  | handleBlockMessage
  | commitBlock
deriving DecidableEq

/-- Why a block is accepted: it was executed on behalf of a caller, or its witnesses have
agreed on its patch. -/
inductive Accepted where
  | executed (caller : Caller)
  | committed
deriving DecidableEq

/-- What goes on after an `await`. -/
inductive Suspended where
  /-- `_handleArrivedBlock` waits for its lock. -/
  | arrived (caller : Caller) (block : Block)
  /-- A block that is queued but not in the main graph is read from disk. -/
  | loading (hash : Hash)
  /-- The block is in the main graph, and `_processBlock` is called next. -/
  | inFlight (caller : Caller) (block : Block)
  /-- `_blockProcessorProcessParents` was told whether a parent is known. -/
  | parents (caller : Caller) (blockInfo : BlockInfo) (parentHash : Hash) (bKnown : Bool)
      (rest arrToRequest arrToExec : List Hash)
  /-- The body of a queued block is read. -/
  | reading (blockInfo : BlockInfo)
  /-- The block waits for the lock for executing. -/
  | locked (caller : Caller) (block : Block)
  | executing (caller : Caller) (block : Block)
  /-- A block whose witnesses have agreed on its patch waits for its lock. -/
  | committing (block : Block) (patch : PatchDB)
  /-- `_acceptBlock` adds the block to the pending ones. -/
  | adding (how : Accepted) (block : Block) (patchState : PatchDB)
  /-- It goes on with its effects. -/
  | accepting (how : Accepted) (acceptance : Acceptance)
  /-- The `finally` of `_blockProcessor`. -/
  | removing (hash : Hash)

namespace Suspended

/-- The task is a turn of `_blockProcessor`. -/
def isTurn : Suspended → Bool
  | loading _ | reading _ | removing _ => true
  | arrived caller _ | inFlight caller _ | parents caller _ _ _ _ _ _ | locked caller _
  | executing caller _ | adding (.executed caller) _ _ | accepting (.executed caller) _ =>
      caller = .blockProcessor
  | committing _ _ | adding .committed _ _ | accepting .committed _ => false

/-- The task holds the lock for executing. -/
def isExecuting : Suspended → Bool
  | executing _ _ | adding (.executed _) _ _ | accepting (.executed _) _ => true
  | _ => false

end Suspended

namespace BlockNode

variable (F : Factory) (J : Dagjs) (s : BlockNode)

/-- What a caller does after `_processBlock`. -/
def returned (caller : Caller) (hash : Hash) : Option Suspended :=
  if caller = .blockProcessor then some (.removing hash) else none

/-- What a caller does when `_processBlock` throws. A commit only logs the exception. -/
def thrown (caller : Caller) (blockInfo : BlockInfo) : BlockNode × Option Suspended :=
  if caller = .commitBlock then (s, none)
  else (s.blockBad F blockInfo, returned caller (blockInfo.getHash F))

/-- `_blockProcessorProcessParents`, as far as it gets, and the end of `_processBlock`. -/
def processParents (caller : Caller) (blockInfo : BlockInfo) :
    List Hash → List Hash → List Hash → BlockNode × Option Suspended
  | [], arrToRequest, arrToExec =>
      (arrToExec.foldl (fun s hash => s.queueBlockExec hash)
        { s with
          mapUnknownBlocks := s.mapUnknownBlocks ∪
            arrToRequest.filter fun hash => hash ∉ s.disk.setBlocksBad },
        returned caller (blockInfo.getHash F))
  | parentHash :: rest, arrToRequest, arrToExec =>
      if parentHash ∈ s.mapBlocksToExec then
        processParents caller blockInfo rest arrToRequest
          (if s.isBlockExecuted parentHash then arrToExec else arrToExec ++ [parentHash])
      else
        (s, some (.parents caller blockInfo parentHash (s.isBlockKnown parentHash) rest
          arrToRequest arrToExec))

/-- `_processBlock` up to its first `await`. -/
def beginProcessBlock (caller : Caller) (blockInfo : BlockInfo) (block : Option Block) :
    BlockNode × Option Suspended :=
  match s.canExecuteBlock F (blockInfo.getHash F) blockInfo.header.parentHashes with
  | .error _ => s.thrown F caller blockInfo
  | .ok true =>
      if s.isBlockExecuted (blockInfo.getHash F) then
        (s, returned caller (blockInfo.getHash F))
      else (s, some ((block.map (Suspended.locked caller)).getD (.reading blockInfo)))
  | .ok false =>
      (s.queueBlockExec (blockInfo.getHash F)).processParents F caller blockInfo
        blockInfo.header.parentHashes [] []

/-- The end of `_processBlock` for a block that was executed. -/
def endProcessBlock (caller : Caller) (hash : Hash) : BlockNode × Option Suspended :=
  (s.queueChildren hash, returned caller hash)

/-- The `catch` of `_blockProcessorExecBlock`. A commit has no peer to blame, so the `catch`
throws itself. -/
def catchExec (caller : Caller) (block : Block) : BlockNode × Option Suspended :=
  if caller = .commitBlock then (s.blockBad F (block.info F), none)
  else (s.blockBad F (block.info F)).endProcessBlock caller (block.hash F)

/-- A task goes on to its next `await`. Only one task executes at a time; the outcome of
`_execBlock`, which is suspended itself while other tasks go on, is left open. -/
def runTask (bLocked : Bool) (outcome : Except String PatchDB) : Suspended → BlockNode × Option Suspended
  | .arrived caller block =>
      match s.verifyBlock F block false with
      | .error _ =>
          if caller = .commitBlock then (s, none) else (s.blockBad F (block.info F), none)
      | .ok () =>
          ({ s.blockInFlight F block false with
            requestCache := s.requestCache.filter (· ≠ block.hash F)
            mapUnknownBlocks := s.mapUnknownBlocks.filter (· ≠ block.hash F) },
            some (.inFlight caller block))
  | .loading hash =>
      match s.disk.getBlock hash with
      | .error _ => (s, some (.removing hash))
      | .ok block => (s.blockInFlight F block true, some (.inFlight .blockProcessor block))
  | .inFlight caller block => s.beginProcessBlock F caller (block.info F) (some block)
  | .parents caller blockInfo parentHash bKnown rest arrToRequest arrToExec =>
      if bKnown then
        s.processParents F caller blockInfo rest arrToRequest
          (if s.isBlockExecuted parentHash then arrToExec else arrToExec ++ [parentHash])
      else s.processParents F caller blockInfo rest (arrToRequest ++ [parentHash]) arrToExec
  | .reading blockInfo =>
      match s.disk.getBlock (blockInfo.getHash F) with
      | .error _ => s.thrown F .blockProcessor blockInfo
      | .ok block => (s, some (.locked .blockProcessor block))
  | .locked caller block =>
      if bLocked then (s, some (.locked caller block))
      else if s.isBlockExecuted (block.hash F) then s.endProcessBlock caller (block.hash F)
      else (s, some (.executing caller block))
  | .executing caller block =>
      match outcome with
      | .error _ => s.catchExec F caller block
      | .ok patchState =>
          if s.isBlockExecuted (block.hash F) then s.endProcessBlock caller (block.hash F)
          else (s, some (.adding (.executed caller) block patchState))
  | .committing block patch =>
      if s.isBlockExecuted (block.hash F) then (s, none)
      else (s.storeBlockAndInfo F (some block) (block.info F) false,
        some (.adding .committed block patch))
  | .adding how block patchState =>
      ({ s with pendingBlocks := s.pendingBlocks.addBlock F block patchState },
        some (.accepting how { block, effects := [.checkFinality, .updatePendingBlocks] }))
  | .accepting how acceptance =>
      match acceptance.effects, how with
      | [], .executed caller => s.endProcessBlock caller (acceptance.block.hash F)
      | [], .committed => (s, none)
      | effect :: rest, _ =>
          match s.runEffect F J acceptance rest effect, how with
          | .ok s, _ => ({ s with accepting := none }, s.accepting.map (Suspended.accepting how))
          | .error _, .executed caller => s.catchExec F caller acceptance.block
          | .error _, .committed => (s, none)
  | .removing hash => ({ s with mapBlocksToExec := s.mapBlocksToExec.filter (· ≠ hash) }, none)

end BlockNode

/-- A node, and what is under way in it. -/
structure BusyNode where
  node : BlockNode
  tasks : List Suspended

namespace BusyNode

variable (F : Factory) (J : Dagjs) (s : BusyNode)

/-- What may happen. -/
inductive Event where
  /-- `_handleBlockMessage` calls `_handleArrivedBlock`. -/
  | receive (block : Block)
  /-- The witnesses have agreed on a block. -/
  | commitBlock (block : Block) (patch : PatchDB)
  /-- `_blockProcessor` goes on with an entry of the queue. -/
  | take (hash : Hash)
  /-- A task goes on. -/
  | resume (n : Nat) (outcome : Except String PatchDB)

/-- The first part of a turn of `_blockProcessor`. -/
def beginTurn (hash : Hash) : BlockNode × Option Suspended :=
  match s.node.mainDag.getBlockInfo hash with
  | none => (s.node, some (.loading hash))
  | some blockInfo =>
      if blockInfo.isBad then (s.node.blockBad F blockInfo, some (.removing hash))
      else s.node.beginProcessBlock F .blockProcessor blockInfo none

/-- One step. Nothing happens where the event is not possible. -/
def step : Event → BusyNode
  | .receive block => { s with tasks := s.tasks ++ [.arrived .handleBlockMessage block] }
  | .commitBlock block patch =>
      if patch.mapContractStates ≠ ∅ then
        -- the block is executed again to have the contracts' variables
        { s with tasks := s.tasks ++ [.arrived .commitBlock block] }
      else if s.node.isBlockExecuted (block.hash F) then s
      else { s with tasks := s.tasks ++ [.committing block patch] }
  | .take hash =>
      if hash ∈ s.node.mapBlocksToExec ∧ ¬ s.tasks.any Suspended.isTurn then
        ⟨(s.beginTurn F hash).1, s.tasks ++ (s.beginTurn F hash).2.toList⟩
      else s
  | .resume n outcome =>
      match s.tasks[n]? with
      | none => s
      | some task =>
          let rest := s.tasks.eraseIdx n
          let r := s.node.runTask F J (rest.any Suspended.isExecuting) outcome task
          ⟨r.1, rest ++ r.2.toList⟩

/-- The states that are reached by steps that all meet a condition. -/
inductive RunWhile (condition : BusyNode → Event → Prop) (start : BusyNode) : BusyNode → Prop
  | start : RunWhile condition start start
  | step {s : BusyNode} {event : Event} : RunWhile condition start s → condition s event →
      RunWhile condition start (s.step F J event)

end BusyNode

end CilCore
