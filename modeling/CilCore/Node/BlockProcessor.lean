import CilCore.Node.ExecBlock
import CilCore.Node.VerifyBlock

/-!
# Receiving, queueing and processing blocks

`_handleBlockMessage`, `_blockProcessor`, `_processBlock`, `_blockProcessorExecBlock` and
`_acceptBlock` of `node/node.js`, with what they write to disk. Handlers of blocks take
turns at their `await`s. Executions follow one another, since they hold a lock; accepting
a block is a row of effects, and an exception between them is caught.
-/

namespace CilCore

/-- What the node has on disk: the stable state, the bodies and the infos of blocks, the
last stable blocks and the pending ones, and the hashes of blocks that are banned. -/
structure BlockStore where
  storage : Storage
  blocks : FinMap Hash Block
  infos : FinMap Hash BlockInfo
  arrLastApplied : List Hash
  arrPending : List Hash
  setBlocksBad : List Hash

namespace BlockStore

/-- A fresh disk. -/
def empty : BlockStore := ⟨.empty, ∅, ∅, [], [], []⟩

/-- `hasBlock`, which looks for the info. -/
def hasBlock (disk : BlockStore) (hash : Hash) : Bool := (disk.infos.lookup hash).isSome

/-- `getBlock`. -/
def getBlock (disk : BlockStore) (hash : Hash) : Except String Block :=
  match disk.blocks.lookup hash with
  | some block => .ok block
  | none => .error "Storage: No block found by hash"

theorem lookup_of_getBlock {disk : BlockStore} {hash : Hash} {block : Block}
    (h : disk.getBlock hash = .ok block) : disk.blocks.lookup hash = some block := by
  unfold getBlock at h
  split at h
  next hlookup =>
    cases h
    exact hlookup
  next => cases h

/-- `saveBlockInfo`. -/
def saveBlockInfo (F : Factory) (blockInfo : BlockInfo) (disk : BlockStore) : BlockStore :=
  { disk with infos := disk.infos.insert (blockInfo.getHash F) blockInfo }

/-- `saveBlock`. -/
def saveBlock (F : Factory) (block : Block) (blockInfo : BlockInfo) (disk : BlockStore) :
    Except String BlockStore :=
  if disk.hasBlock (block.hash F) then .error "Storage: Block already saved!"
  else .ok ({ disk with blocks := disk.blocks.insert (block.hash F) block }.saveBlockInfo F blockInfo)

/-- `removeBlock`, which keeps the info. -/
def removeBlock (hash : Hash) (disk : BlockStore) : BlockStore :=
  { disk with blocks := disk.blocks.erase hash }

end BlockStore

/-- What accepting a block does, one `await` after another. -/
inductive AcceptEffect where
  | checkFinality
  | updateLastAppliedBlocks (arrTopStable : List Hash)
  | markAsFinal (hash : Hash)
  | applyPatch (patchToApply : PatchDB)
  | unwindBlock (hash : Hash)
  /-- The first half of `removeBadBlocks`, for one block. -/
  | saveBadInfo (hash : Hash)
  /-- The second half. -/
  | removeBlock (hash : Hash)
  | updatePendingBlocks
deriving DecidableEq

/-- The effects of `_processFinalityResults`. -/
def FinalityResult.effects (r : FinalityResult) : List AcceptEffect :=
  .updateLastAppliedBlocks r.arrTopStable :: (r.setStableBlocks.map .markAsFinal ++
    .applyPatch r.patchToApply :: (r.setBlocksToRollback.map .unwindBlock ++
      r.setBlocksToRollback.flatMap fun hash => [.saveBadInfo hash, .removeBlock hash]))

/-- A block that is being accepted, with the effects that are still to come. -/
structure Acceptance where
  block : Block
  nHeightMax : Nat := 0
  effects : List AcceptEffect

/-- A node, as far as it processes blocks: what it has on disk and in memory, the handlers
of received blocks that wait for their lock, and the blocks that wait for being executed. -/
structure BlockNode where
  disk : BlockStore
  pendingBlocks : PendingBlocksManager
  mainDag : MainDag
  requestCache : List Hash
  mapUnknownBlocks : List Hash
  mapBlocksToExec : List Hash
  arrived : List Block
  waiting : List Block
  accepting : Option Acceptance

namespace BlockNode

/-- A node that has no block yet. -/
def empty : BlockNode := ⟨.empty, ⟨.empty, []⟩, .empty, [], [], [], [], [], none⟩

section

variable (F : Factory) (J : Dagjs) (s : BlockNode)

/-- What execution reads of the node. -/
def chain : ChainState := ⟨s.disk.storage, s.pendingBlocks, s.mainDag⟩

/-- `_isBlockExecuted`. -/
def isBlockExecuted (hash : Hash) : Bool := s.chain.isBlockExecuted hash

/-- `_isBlockKnown`. -/
def isBlockKnown (hash : Hash) : Bool :=
  (s.mainDag.getBlockInfo hash).isSome || s.disk.hasBlock hash

/-- `_storeBlockAndInfo`. -/
def storeBlockAndInfo (block : Option Block) (blockInfo : BlockInfo) (bOnlyDag : Bool) :
    BlockNode :=
  let s := { s with mainDag := s.mainDag.addBlock F blockInfo }
  if bOnlyDag then s
  else if blockInfo.isBad then
    let disk := s.disk.saveBlockInfo F blockInfo
    { s with
      disk :=
        if (s.disk.infos.lookup (blockInfo.getHash F)).any fun storedBI => !storedBI.isBad then
          disk.removeBlock (blockInfo.getHash F)
        else disk }
  else
    match block with
    | none => s
    | some block =>
        match s.disk.saveBlock F block blockInfo with
        | .error _ => s
        | .ok disk => { s with disk }

/-- `_blockBad`. -/
def blockBad (blockInfo : BlockInfo) : BlockNode :=
  s.storeBlockAndInfo F none blockInfo.markAsBad false

/-- `_blockInFlight`. -/
def blockInFlight (block : Block) (bOnlyDag : Bool) : BlockNode :=
  s.storeBlockAndInfo F (some block) (block.info F).markAsInFlight bOnlyDag

/-- `_verifyBlockSignatures`. -/
def verifySignatures (block : Block) : Except String Unit :=
  match s.disk.storage.getConciliumById F block.conciliumId with
  | .error error => .error error
  | .ok definition => verifyBlockSignatures F definition block

/-- `_verifyBlock`. -/
def verifyBlock (block : Block) (checkSignatures : Bool) : Except String Unit :=
  if ChainState.isGenesisBlock F block then .ok ()
  else
    match block.verify F checkSignatures with
    | .error error => .error error
    | .ok () =>
        match if checkSignatures then s.verifySignatures F block else .ok () with
        | .error error => .error error
        | .ok () => s.disk.storage.checkTxCollision (block.getTxHashes F)

/-! ### The queue -/

/-- `_queueBlockExec`. -/
def queueBlockExec (hash : Hash) : BlockNode :=
  if (s.mainDag.getBlockInfo hash).any (·.isBad) then s
  else { s with mapBlocksToExec := s.mapBlocksToExec.insert hash }

/-- The loop of `_canExecuteBlock`. -/
def canExecuteFrom : List Hash → Except String Bool
  | [] => .ok true
  | hash :: rest =>
      if (s.mainDag.getBlockInfo hash).any (·.isBad) then .error "Block refer to bad parent"
      else if s.isBlockExecuted hash then canExecuteFrom rest
      else .ok false

/-- `_canExecuteBlock`. -/
def canExecuteBlock (hash : Hash) (parentHashes : List Hash) : Except String Bool :=
  if hash = F.constants.GENESIS_BLOCK then .ok true else s.canExecuteFrom parentHashes

/-- The parents that `_blockProcessorProcessParents` wants to be requested. -/
def parentsToRequest (parentHashes : List Hash) : List Hash :=
  parentHashes.filter fun hash => hash ∉ s.mapBlocksToExec ∧ !s.isBlockKnown hash

/-- The parents that it wants to be executed. -/
def parentsToExec (parentHashes : List Hash) : List Hash :=
  parentHashes.filter fun hash =>
    ¬ (hash ∉ s.mapBlocksToExec ∧ !s.isBlockKnown hash) ∧ !s.isBlockExecuted hash

/-- `_processBlock` up to the lock for executing, given the block or how to read it. -/
def processBlock (hash : Hash) (parentHashes : List Hash) (block : Except String Block) :
    Except String BlockNode :=
  match s.canExecuteBlock F hash parentHashes with
  | .error error => .error error
  | .ok true =>
      if s.isBlockExecuted hash then .ok s
      else
        match block with
        | .error error => .error error
        | .ok block => .ok { s with waiting := s.waiting ++ [block] }
  | .ok false =>
      let s := s.queueBlockExec hash
      let arrToRequest := (s.parentsToRequest parentHashes).filter fun hash =>
        hash ∉ s.disk.setBlocksBad
      let s' := { s with mapUnknownBlocks := s.mapUnknownBlocks ∪ arrToRequest }
      .ok ((s.parentsToExec parentHashes).foldl (fun s hash => s.queueBlockExec hash) s')

/-- The children of a block are queued when it was processed. -/
def queueChildren (hash : Hash) : BlockNode :=
  (s.mainDag.getChildren hash).foldl (fun s hash => s.queueBlockExec hash) s

/-! ### Handlers -/

/-- `_handleBlockMessage` up to the lock. -/
def receive (block : Block) : BlockNode :=
  if block.hash F ∈ s.requestCache ∧ block.hash F ∉ s.disk.setBlocksBad ∧
      ¬ s.isBlockKnown (block.hash F) then
    { s with arrived := s.arrived ++ [block] }
  else s

/-- `_processBlock`, with the `catch` that its callers have. -/
def tryProcessBlock (blockInfo : BlockInfo) (block : Except String Block) : BlockNode :=
  match s.processBlock F (blockInfo.getHash F) blockInfo.header.parentHashes block with
  | .error _ => s.blockBad F blockInfo
  | .ok s => s

/-- `_handleArrivedBlock`, with the `catch` of `_handleBlockMessage`. -/
def handle (block : Block) : BlockNode :=
  match s.verifyBlock F block false with
  | .error _ => s.blockBad F (block.info F)
  | .ok () =>
      { s.blockInFlight F block false with
        requestCache := s.requestCache.filter (· ≠ block.hash F)
        mapUnknownBlocks := s.mapUnknownBlocks.filter (· ≠ block.hash F) }.tryProcessBlock
          F (block.info F) (.ok block)

/-- One turn of the loop of `_blockProcessor`. -/
def take (hash : Hash) : BlockNode :=
  match s.mainDag.getBlockInfo hash with
  | some blockInfo =>
      if blockInfo.isBad then s.blockBad F blockInfo
      else s.tryProcessBlock F blockInfo (s.disk.getBlock (blockInfo.getHash F))
  | none =>
      match s.disk.getBlock hash with
      | .error _ => s
      | .ok block => (s.blockInFlight F block true).tryProcessBlock F (block.info F) (.ok block)

/-- The `catch` of `_blockProcessorExecBlock`, and what `_processBlock` does then. -/
def catchError (block : Block) : BlockNode :=
  ({ s with accepting := none }.blockBad F (block.info F)).queueChildren (block.hash F)

/-- `_blockProcessorExecBlock` up to `addBlock`. -/
def exec (vm : Transaction → Behaviour) (block : Block) : BlockNode :=
  match s.chain.execBlock F (some block.getHeight) vm block with
  | .error _ => s.catchError F block
  | .ok none => s.queueChildren (block.hash F)
  | .ok (some patchState) =>
      { s with
        pendingBlocks := s.pendingBlocks.addBlock F block patchState
        accepting := some { block, effects := [.checkFinality, .updatePendingBlocks] } }

/-! ### Effects -/

/-- The last of the given blocks of each concilium. Reading the concilium of an unknown
block throws. -/
def mapConciliumIdHash (mainDag : MainDag) :
    List Hash → FinMap Nat Hash → Except String (FinMap Nat Hash)
  | [], mapHashes => .ok mapHashes
  | hash :: rest, mapHashes =>
      match mainDag.getBlockInfo hash with
      | none => .error "Cannot read properties of undefined (reading 'getConciliumId')"
      | some cBlockInfo =>
          mapConciliumIdHash mainDag rest (mapHashes.insert cBlockInfo.header.conciliumId hash)

/-- The hashes that `_updateLastAppliedBlocks` stores. -/
def newLastApplied (arrTopStable : List Hash) : Except String (List Hash) :=
  match mapConciliumIdHash s.mainDag s.disk.arrLastApplied ∅ with
  | .error error => .error error
  | .ok mapPrevConciliumIdHash =>
      match mapConciliumIdHash s.mainDag arrTopStable ∅ with
      | .error error => .error error
      | .ok mapNewConciliumIdHash => .ok
          ((List.range (s.disk.storage.getConciliumsCount F + 1)).filterMap fun i =>
            (mapNewConciliumIdHash.lookup i).or (mapPrevConciliumIdHash.lookup i))

/-- One effect of accepting a block. -/
def runEffect (accepting : Acceptance) (rest : List AcceptEffect) : AcceptEffect → Except String BlockNode
  | .checkFinality =>
      match s.pendingBlocks.checkFinality F J (accepting.block.hash F)
          (s.disk.storage.getConciliumsCount F) with
      | .error error => .error error
      | .ok (result, pendingBlocks) => .ok
          { s with
            pendingBlocks
            accepting := some { accepting with
              effects := (result.elim [] FinalityResult.effects) ++ rest } }
  | .updateLastAppliedBlocks arrTopStable =>
      match s.newLastApplied F arrTopStable with
      | .error error => .error error
      | .ok arrLastApplied => .ok
          { s with
            disk := { s.disk with arrLastApplied }
            accepting := some { accepting with effects := rest } }
  | .markAsFinal hash =>
      match s.mainDag.getBlockInfo hash with
      | none => .error "Cannot read properties of undefined (reading 'getHeight')"
      | some bi => .ok
          { s with
            mainDag := s.mainDag.setBlockInfo F bi.markAsFinal
            disk := s.disk.saveBlockInfo F bi.markAsFinal
            accepting := some { accepting with
              nHeightMax := max accepting.nHeightMax bi.header.height, effects := rest } }
  | .applyPatch patchToApply => .ok
      { s with
        disk := { s.disk with
          storage := s.disk.storage.applyPatch F patchToApply accepting.nHeightMax }
        accepting := some { accepting with effects := rest } }
  | .unwindBlock hash =>
      match s.disk.getBlock hash with
      | .error error => .error error
      | .ok _ => .ok
          { s with
            pendingBlocks := s.pendingBlocks.removeBlock hash
            mainDag := s.mainDag.removeBlock hash
            accepting := some { accepting with effects := rest } }
  | .saveBadInfo hash =>
      match s.disk.infos.lookup hash with
      | none => .error "Storage: No blockInfo found by hash"
      | some bi => .ok
          { s with
            disk := s.disk.saveBlockInfo F bi.markAsBad
            accepting := some { accepting with effects := rest } }
  | .removeBlock hash => .ok
      { s with
        disk := s.disk.removeBlock hash
        accepting := some { accepting with effects := rest } }
  | .updatePendingBlocks => .ok
      { s with
        disk := { s.disk with arrPending := s.pendingBlocks.getAllHashes }
        accepting := some { accepting with effects := rest } }

/-- What a node does next. -/
inductive Action where
  /-- A block is requested from a peer. -/
  | request (hash : Hash)
  | receive (block : Block)
  /-- The handler of a received block goes on. -/
  | handle (n : Nat)
  | take (hash : Hash)
  /-- A block that waits is executed. -/
  | exec (n : Nat) (vm : Transaction → Behaviour)
  /-- Executing it throws, whatever the reason. -/
  | failExec (n : Nat)
  /-- Accepting the executed block goes on. -/
  | effect
  /-- Accepting it, or the work after that, throws. -/
  | throw

/-- One step. Nothing happens where the action is not possible. -/
def step : Action → BlockNode
  | .request hash => { s with requestCache := s.requestCache.insert hash }
  | .receive block => s.receive F block
  | .handle n =>
      match s.arrived[n]? with
      | none => s
      | some block => { s with arrived := s.arrived.eraseIdx n }.handle F block
  | .take hash =>
      if hash ∈ s.mapBlocksToExec then
        { s with mapBlocksToExec := s.mapBlocksToExec.filter (· ≠ hash) }.take F hash
      else s
  | .exec n vm =>
      match s.accepting, s.waiting[n]? with
      | none, some block => { s with waiting := s.waiting.eraseIdx n }.exec F vm block
      | _, _ => s
  | .failExec n =>
      match s.accepting, s.waiting[n]? with
      | none, some block =>
          -- a block that was executed before is left at once
          if s.isBlockExecuted (block.hash F) then s
          else { s with waiting := s.waiting.eraseIdx n }.catchError F block
      | _, _ => s
  | .effect =>
      match s.accepting with
      | none => s
      | some accepting =>
          match accepting.effects with
          | [] => { s with accepting := none }.queueChildren (accepting.block.hash F)
          | effect :: rest =>
              match s.runEffect F J accepting rest effect with
              | .error _ => s.catchError F accepting.block
              | .ok s => s
  | .throw =>
      match s.accepting with
      | none => s
      | some accepting => s.catchError F accepting.block

/-- The states that are reached by actions that all meet a condition. -/
inductive RunWhile (condition : BlockNode → Action → Prop) (start : BlockNode) : BlockNode → Prop
  | start : RunWhile condition start start
  | step {s : BlockNode} {action : Action} : RunWhile condition start s → condition s action →
      RunWhile condition start (s.step F J action)

end

variable {F : Factory} {J : Dagjs} {s s' : BlockNode} {hash : Hash} {blockInfo : BlockInfo}
  {block : Block}

/-! ### What the parts of a step change -/

theorem queueBlockExec_eq (s : BlockNode) (hash : Hash) :
    ∃ queue, s.queueBlockExec hash = { s with mapBlocksToExec := queue } := by
  unfold queueBlockExec
  split
  next => exact ⟨_, rfl⟩
  next => exact ⟨_, rfl⟩

theorem foldl_queueBlockExec_eq (hashes : List Hash) :
    ∀ s : BlockNode, ∃ queue, hashes.foldl (fun s hash => s.queueBlockExec hash) s =
      { s with mapBlocksToExec := queue } := by
  induction hashes with
  | nil => exact fun s => ⟨_, rfl⟩
  | cons hash rest ih =>
      intro s
      obtain ⟨queue, hqueue⟩ := queueBlockExec_eq s hash
      obtain ⟨queue', hqueue'⟩ := ih (s.queueBlockExec hash)
      refine ⟨queue', ?_⟩
      rw [List.foldl_cons, hqueue', hqueue]

theorem queueChildren_eq (s : BlockNode) (hash : Hash) :
    ∃ queue, s.queueChildren hash = { s with mapBlocksToExec := queue } :=
  foldl_queueBlockExec_eq _ s

/-- `_processBlock` changes the queues, or has the block wait for its execution. -/
theorem processBlock_ok {parentHashes : List Hash} {read : Except String Block}
    (h : s.processBlock F hash parentHashes read = .ok s') :
    (∃ queue unknown, s' = { s with mapBlocksToExec := queue, mapUnknownBlocks := unknown }) ∨
      ∃ block, read = .ok block ∧ s.canExecuteBlock F hash parentHashes = .ok true ∧
        s.isBlockExecuted hash = false ∧ s' = { s with waiting := s.waiting ++ [block] } := by
  unfold processBlock at h
  split at h
  next => cases h
  next hcan =>
    split at h
    next =>
      cases h
      exact .inl ⟨_, _, rfl⟩
    next hexecuted =>
      split at h
      next => cases h
      next block =>
        cases h
        exact .inr ⟨block, rfl, hcan, by simpa using hexecuted, rfl⟩
  next =>
    cases h
    obtain ⟨queue, hqueue⟩ := queueBlockExec_eq s hash
    rw [hqueue]
    obtain ⟨queue', hqueue'⟩ := foldl_queueBlockExec_eq
      (({ s with mapBlocksToExec := queue } : BlockNode).parentsToExec parentHashes)
      { s with
        mapBlocksToExec := queue
        mapUnknownBlocks := s.mapUnknownBlocks ∪
          (({ s with mapBlocksToExec := queue } : BlockNode).parentsToRequest parentHashes).filter
            fun hash => hash ∉ s.disk.setBlocksBad }
    exact .inl ⟨queue', _, hqueue'⟩

/-- When `_processBlock` throws. -/
theorem processBlock_error {parentHashes : List Hash} {read : Except String Block}
    {error : String} (h : s.processBlock F hash parentHashes read = .error error) :
    s.canExecuteBlock F hash parentHashes = .error error ∨
      s.canExecuteBlock F hash parentHashes = .ok true ∧ s.isBlockExecuted hash = false ∧
        read = .error error := by
  unfold processBlock at h
  split at h
  next hcan =>
    cases h
    exact .inl hcan
  next hcan =>
    split at h
    next => cases h
    next hexecuted =>
      split at h
      next =>
        cases h
        exact .inr ⟨hcan, by simpa using hexecuted, rfl⟩
      next => cases h
  next => cases h

theorem blockBad_eq (F : Factory) (s : BlockNode) (blockInfo : BlockInfo) :
    ∃ disk, s.blockBad F blockInfo =
        { s with mainDag := s.mainDag.addBlock F blockInfo.markAsBad, disk } ∧
      (∀ hash, disk.infos.lookup hash =
        if hash = blockInfo.getHash F then some blockInfo.markAsBad
        else s.disk.infos.lookup hash) ∧
      (∀ hash, disk.blocks.lookup hash =
        if hash = blockInfo.getHash F ∧ (s.disk.infos.lookup hash).any (fun bi => !bi.isBad) then
          none
        else s.disk.blocks.lookup hash) ∧
      disk.storage = s.disk.storage := by
  unfold blockBad storeBlockAndInfo
  have hbad : blockInfo.markAsBad.isBad = true := rfl
  have hhash : blockInfo.markAsBad.getHash F = blockInfo.getHash F := rfl
  dsimp only
  rw [if_neg (by simp), if_pos hbad, hhash]
  by_cases hgood : (s.disk.infos.lookup (blockInfo.getHash F)).any (fun bi => !bi.isBad) = true
  · rw [if_pos hgood]
    refine ⟨_, rfl, fun hash => FinMap.lookup_insert_ite _ _ _ _, fun hash => ?_, rfl⟩
    refine (FinMap.lookup_erase_ite _ _ _).trans ?_
    by_cases hsame : hash = blockInfo.getHash F
    · rw [if_pos hsame, if_pos ⟨hsame, hsame ▸ hgood⟩]
    · rw [if_neg hsame, if_neg fun h => hsame h.1]
      rfl
  · rw [if_neg hgood]
    refine ⟨_, rfl, fun hash => FinMap.lookup_insert_ite _ _ _ _, fun hash => ?_, rfl⟩
    have hnot : ¬ (hash = blockInfo.getHash F ∧
        (s.disk.infos.lookup hash).any (fun bi => !bi.isBad) = true) := by
      rintro ⟨rfl, hany⟩
      exact hgood hany
    rw [if_neg hnot]
    rfl

/-- A block in flight is saved unless it was known. -/
theorem blockInFlight_eq (F : Factory) (s : BlockNode) (block : Block) :
    ∃ disk, s.blockInFlight F block false =
        { s with mainDag := s.mainDag.addBlock F (block.info F).markAsInFlight, disk } ∧
      (disk = s.disk ∧ s.disk.hasBlock (block.hash F) = true ∨
        disk = ({ s.disk with blocks := s.disk.blocks.insert (block.hash F) block }.saveBlockInfo F
          (block.info F).markAsInFlight) ∧ s.disk.hasBlock (block.hash F) = false) := by
  unfold blockInFlight storeBlockAndInfo
  have hbad : (block.info F).markAsInFlight.isBad = false := rfl
  dsimp only
  rw [if_neg (by simp), if_neg (by simp [hbad]), BlockStore.saveBlock]
  cases hknown : s.disk.hasBlock (block.hash F) with
  | true => exact ⟨_, rfl, .inl ⟨rfl, rfl⟩⟩
  | false => exact ⟨_, rfl, .inr ⟨rfl, rfl⟩⟩

end BlockNode

end CilCore
