import CilCore.Node.CreateBlock
import CilCore.Node.LostWakeups
import CilCore.Node.RebuildPending

/-!
# What happens to the main graph

All ways in which blocks get into the main graph of a node, and out of it: they arrive, are
executed or created, accepted, committed and rolled back, and the graph is built again when
the node is restarted, or its chain state is rebuilt.
-/

namespace CilCore

namespace BlockStore

variable (F : Factory) (disk : BlockStore)

/-- The loop of `_buildMainDag` over the hashes of a level: the graph, and the parents that are
not in it. The hash that was added first comes last. -/
def buildLevel : List Hash → MainDag → List Hash → Except String (MainDag × List Hash)
  | [], mainDag, setNextLevel => .ok (mainDag, setNextLevel)
  | hash :: rest, mainDag, setNextLevel =>
      if (mainDag.getBlockInfo hash).isSome then buildLevel rest mainDag setNextLevel
      else
        match disk.infos.lookup hash with
        | none => .error "Storage: No blockInfo found by hash"
        | some bi =>
            if bi.isBad then .error "_buildMainDag: found bad block in final DAG!"
            else
              let mainDag := mainDag.addBlock F bi
              buildLevel rest mainDag <|
                (bi.header.parentHashes.filter fun parentHash =>
                  (mainDag.getBlockInfo parentHash).isNone).foldl
                    (fun setNextLevel hash => setNextLevel.insert hash) setNextLevel

/-- `_buildMainDag`. `none` when there are more levels than fuel. -/
def buildMainDag : Nat → List Hash → MainDag → Option (Except String MainDag)
  | 0, _, _ => none
  | fuel + 1, arrCurrentLevel, mainDag =>
      if arrCurrentLevel = [] then some (.ok mainDag)
      else
        match disk.buildLevel F arrCurrentLevel mainDag [] with
        | .error error => some (.error error)
        | .ok (mainDag, setNextLevel) =>
            if arrCurrentLevel = [F.constants.GENESIS_BLOCK] then some (.ok mainDag)
            else buildMainDag fuel setNextLevel.reverse mainDag

/-- `_rebuildBlockDb`: the node that is started with what is on disk. -/
def rebuildBlockDb (vm : Block → Transaction → Behaviour) (fuel : Nat) :
    Option (Except String BlockNode) :=
  match disk.buildMainDag F fuel
      (if disk.arrPending = [] then disk.arrLastApplied else disk.arrPending) .empty with
  | none => none
  | some (.error error) => some (.error error)
  | some (.ok mainDag) =>
      let node := { BlockNode.empty with disk, mainDag, pendingBlocks := ⟨.empty, disk.arrLastApplied⟩ }
      match node.rebuildPending F vm fuel disk.arrLastApplied disk.arrPending with
      | none => none
      | some (.error error) => some (.error error)
      | some (.ok p) => some (.ok { node with pendingBlocks := p.state })

/-- The node that `rebuildDb` starts with: only the bodies of the blocks are left on disk. -/
def dropped (arrBlocks : List Block) : BlockNode :=
  { BlockNode.empty with
    disk := { BlockStore.empty with blocks := disk.blocks }
    mainDag := arrBlocks.foldl (fun mainDag block => mainDag.addBlock F { header := block.header })
      .empty
    mapBlocksToExec := [F.constants.GENESIS_BLOCK] }

end BlockStore

/-- A node with all that is under way in it, and the blocks that `_execBlock` was called with
or `_createBlock` has created, each with its patch. -/
structure DagNode where
  busy : BusyNode
  executed : List (Block × PatchDB)

namespace DagNode

section

variable (F : Factory) (J : Dagjs)

/-- A node that has no block yet. -/
def empty : DagNode := ⟨⟨.empty, []⟩, []⟩

/-- What may happen. -/
inductive Event where
  | receive (block : Block)
  | take (hash : Hash)
  /-- The task that executes its block has executed it. -/
  | exec (n : Nat) (vm : Transaction → Behaviour)
  /-- A witness executes a block that was proposed to it. -/
  | vote (block : Block) (vm : Transaction → Behaviour)
  | create (witness : Witness) (vm : Transaction → Behaviour) (conciliumId : Nat)
  /-- The witnesses have agreed on a block that was executed or created. -/
  | commitBlock (k : Nat)
  /-- A task goes on, one that executes its block with the outcome that this has had. -/
  | resume (n : Nat) (k : Option Nat)
  /-- `_queueBlockExec`, as `rebuildDb` overrides it, saves the info of a block. -/
  | saveBlockInfo (hash : Hash)
  /-- The node is stopped and started again. -/
  | restart (vm : Block → Transaction → Behaviour) (fuel : Nat)
  /-- The node is stopped, and `rebuildDb` reads these blocks. -/
  | rebuildDb (arrBlocks : List Block)

/-- What the execution that a task waits for has come to. -/
def outcome (s : DagNode) (n : Nat) (k : Option Nat) : Except String PatchDB :=
  match s.busy.tasks[n]?, k.bind (s.executed[·]?) with
  | some (.executing _ block), some (executed, patch) =>
      if executed = block then .ok patch else .error "Failed to execute"
  | _, _ => .error "Failed to execute"

/-- The block is executed, and kept with its patch. -/
def execute (s : DagNode) (block : Block) (vm : Transaction → Behaviour) : DagNode :=
  match s.busy.node.chain.execBlock F (some block.getHeight) vm block with
  | .ok (some patchState) => { s with executed := s.executed ++ [(block, patchState)] }
  | _ => s

/-- One step. Nothing happens where the event is not possible. -/
def step (s : DagNode) : Event → DagNode
  | .receive block => { s with busy := s.busy.step F J (.receive block) }
  | .take hash => { s with busy := s.busy.step F J (.take hash) }
  | .exec n vm =>
      match s.busy.tasks[n]? with
      | some (.executing _ block) => s.execute F block vm
      | _ => s
  | .vote block vm =>
      match s.busy.node.verifyBlock F block false,
        s.busy.node.canExecuteBlock F (block.hash F) block.parentHashes with
      | .ok (), .ok true => s.execute F block vm
      | _, _ => s
  | .create witness vm conciliumId =>
      match witness.createBlock F J s.busy.node.chain vm conciliumId with
      | .error _ => s
      | .ok (block, patch) =>
          if block.parentHashes = [] then s
          else { s with executed := s.executed ++ [(block, patch)] }
  | .commitBlock k =>
      match s.executed[k]? with
      | none => s
      | some (block, patch) => { s with busy := s.busy.step F J (.commitBlock block patch) }
  | .resume n k => { s with busy := s.busy.step F J (.resume n (s.outcome n k)) }
  | .saveBlockInfo hash =>
      match s.busy.node.mainDag.getBlockInfo hash with
      | none => s
      | some blockInfo =>
          let disk := s.busy.node.disk.saveBlockInfo F blockInfo
          { s with busy := { s.busy with node := { s.busy.node with disk } } }
  | .restart vm fuel =>
      match s.busy.node.disk.rebuildBlockDb F vm fuel with
      | some (.ok node) => ⟨⟨node, []⟩, []⟩
      | _ => s
  | .rebuildDb arrBlocks => ⟨⟨s.busy.node.disk.dropped F arrBlocks, []⟩, []⟩

/-- The states that are reached by events that all meet a condition. -/
inductive RunWhile (condition : DagNode → Event → Prop) (start : DagNode) : DagNode → Prop
  | start : RunWhile condition start start
  | step {s : DagNode} {event : Event} : RunWhile condition start s → condition s event →
      RunWhile condition start (s.step F J event)

/-- The events all meet a condition, one after another. -/
def MeetsAll (condition : DagNode → Event → Prop) : DagNode → List Event → Prop
  | _, [] => True
  | s, event :: rest => condition s event ∧ MeetsAll condition (s.step F J event) rest

/-- The events happen one after another. -/
def steps (s : DagNode) (events : List Event) : DagNode :=
  events.foldl (fun s event => s.step F J event) s

end

variable {F : Factory} {J : Dagjs} {condition : DagNode → Event → Prop} {start s : DagNode}

theorem RunWhile.steps (hrun : RunWhile F J condition start s) {events : List Event}
    (h : MeetsAll F J condition s events) : RunWhile F J condition start (s.steps F J events) := by
  induction events generalizing s with
  | nil => exact hrun
  | cons event rest ih => exact ih (hrun.step h.1) h.2

end DagNode

end CilCore
