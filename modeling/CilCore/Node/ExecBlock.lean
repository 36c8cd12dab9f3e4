import CilCore.Node.Finality
import CilCore.Node.MainDag
import CilCore.Node.ProcessTx

/-!
# Executing and accepting blocks

`_execBlock` and `_acceptBlock` of `node/node.js`: a block is executed in the view
that the patches of its pending parents give over the stable storage; its own patch
joins the pending ones, and what it makes stable is written to storage.
-/

namespace CilCore

/-- What executing and accepting blocks reads and writes of a node. -/
structure ChainState where
  storage : Storage
  pendingBlocks : PendingBlocksManager
  mainDag : MainDag

namespace ChainState

section

variable (F : Factory) (J : Dagjs)

/-- `isGenesisBlock`. -/
def isGenesisBlock (block : Block) : Bool := block.hash F = F.constants.GENESIS_BLOCK

/-- `_isBlockExecuted`. -/
def isBlockExecuted (s : ChainState) (hash : Hash) : Bool :=
  (s.mainDag.getBlockInfo hash).any (·.isFinal) || s.pendingBlocks.hasBlock hash

/-- The fold of `_calcHeight`. Reading the height of an unknown block throws. -/
def maxHeight (s : ChainState) : List Hash → Nat → Except String Nat
  | [], nMaxHeight => .ok nMaxHeight
  | hash :: rest, nMaxHeight =>
      match s.mainDag.getBlockInfo hash with
      | none => .error "Cannot read properties of undefined (reading 'getHeight')"
      | some blockInfo => maxHeight s rest (max nMaxHeight blockInfo.header.height)

/-- `_calcHeight`. -/
def calcHeight (s : ChainState) (arrParentHashes : List Hash) : Except String Nat :=
  (s.maxHeight arrParentHashes 0).map (· + 1)

/-- `_checkHeight`. -/
def checkHeight (s : ChainState) (block : Block) : Except String Unit :=
  match s.calcHeight block.parentHashes with
  | .error error => .error error
  | .ok calculatedHeight =>
      if calculatedHeight = block.getHeight then .ok () else .error "Incorrect height"

/-- The loop of `_execBlock` over the transactions after the coinbase: the patch of
the block and its fees. -/
def execTxns (node : NodeView) (isGenesis : Bool) (conciliumId : Nat)
    (vm : Transaction → Behaviour) : List Transaction → PatchDB → Amount →
    Except String (PatchDB × Amount)
  | [], patchState, blockFees => .ok (patchState, blockFees)
  | tx :: rest, patchState, blockFees =>
      if tx.conciliumId ≠ conciliumId then .error "Tx conciliumId differ from block's one"
      else
        match processTx F node (some patchState) isGenesis tx (vm tx) with
        | .error error => .error error
        | .ok (fee, patchThisTx) =>
            match patchState.merge F patchThisTx true with
            | .error error => .error error
            | .ok patchState =>
                execTxns node isGenesis conciliumId vm rest patchState (blockFees + fee)

/-- `_processBlockCoinbaseTX`. The outputs that are not zero are created as the payments
of a transaction are. -/
def processBlockCoinbaseTX (block : Block) (blockFees : Amount) (patchState : PatchDB) :
    Except String PatchDB :=
  match block.coinbase.verifyCoinbase blockFees with
  | .error error => .error error
  | .ok () =>
      (App.processPaymentsFrom (block.coinbase.hash F) 0 block.coinbase.getOutCoins patchState
        0).map (·.1)

/-- `_execBlock`: `none` for a block that was executed before. The height of the block
being processed decides which forks are in force. -/
def execBlock (s : ChainState) (processedHeight : Option Nat) (vm : Transaction → Behaviour)
    (block : Block) : Except String (Option PatchDB) :=
  if s.isBlockExecuted (block.hash F) then .ok none
  else
    match if isGenesisBlock F block then .ok () else s.checkHeight block with
    | .error error => .error error
    | .ok () =>
        match s.pendingBlocks.mergePatches F block.parentHashes with
        | .error error => .error error
        | .ok patchMerged =>
            match patchMerged.setConciliumId block.conciliumId with
            | .error error => .error error
            | .ok patchState =>
                match execTxns F ⟨s.storage, processedHeight⟩ (isGenesisBlock F block)
                    block.conciliumId vm block.txns.tail patchState 0 with
                | .error error => .error error
                | .ok (patchState, blockFees) =>
                    if isGenesisBlock F block then .ok (some patchState)
                    else (processBlockCoinbaseTX F block blockFees patchState).map some

/-- What `_processFinalityResults` does to a new stable block: its info is flagged, and
the greatest height is kept for `applyPatch`. -/
def markStable : List Hash → MainDag → Nat → Except String (MainDag × Nat)
  | [], mainDag, nHeightMax => .ok (mainDag, nHeightMax)
  | hash :: rest, mainDag, nHeightMax =>
      match mainDag.getBlockInfo hash with
      | none => .error "Cannot read properties of undefined (reading 'getHeight')"
      | some bi =>
          markStable rest (mainDag.setBlockInfo F bi.markAsFinal) (max nHeightMax bi.header.height)

/-- `_processFinalityResults`: storage takes the stable patch over, and the blocks that
are rolled back are forgotten. -/
def processFinalityResults (result : Option FinalityResult) (s : ChainState) :
    Except String ChainState :=
  match result with
  | none => .ok s
  | some r =>
      match markStable F r.setStableBlocks s.mainDag 0 with
      | .error error => .error error
      | .ok (mainDag, nHeightMax) => .ok
          { storage := s.storage.applyPatch F r.patchToApply nHeightMax
            pendingBlocks := s.pendingBlocks
            mainDag := r.setBlocksToRollback.foldl (fun mainDag hash => mainDag.removeBlock hash)
              mainDag }

/-- `_acceptBlock`. -/
def acceptBlock (block : Block) (patchState : PatchDB) (s : ChainState) :
    Except String ChainState :=
  match (s.pendingBlocks.addBlock F block patchState).checkFinality F J (block.hash F)
      (s.storage.getConciliumsCount F) with
  | .error error => .error error
  | .ok (result, pendingBlocks) => processFinalityResults F result { s with pendingBlocks }

/-- A block that arrives is put into the main graph, executed, and accepted unless it was
executed before. -/
def processBlock (vm : Transaction → Behaviour) (block : Block) (s : ChainState) :
    Except String ChainState :=
  let s := { s with mainDag := s.mainDag.addBlock F (block.info F).markAsInFlight }
  match s.execBlock F (some block.getHeight) vm block with
  | .error error => .error error
  | .ok none => .ok s
  | .ok (some patchState) => s.acceptBlock F J block patchState

end

variable {F : Factory} {J : Dagjs} {s s' : ChainState} {vm : Transaction → Behaviour}
  {block : Block}

/-- What the execution of a block needs and does. -/
theorem execBlock_ok {processedHeight : Option Nat} {patchState : PatchDB}
    (h : s.execBlock F processedHeight vm block = .ok (some patchState)) :
    s.isBlockExecuted (block.hash F) = false ∧
      (isGenesisBlock F block = false → s.checkHeight block = .ok ()) ∧
      ∃ patchMerged patchStart patchTxns blockFees,
        s.pendingBlocks.mergePatches F block.parentHashes = .ok patchMerged ∧
        patchMerged.setConciliumId block.conciliumId = .ok patchStart ∧
        execTxns F ⟨s.storage, processedHeight⟩ (isGenesisBlock F block) block.conciliumId vm
          block.txns.tail patchStart 0 = .ok (patchTxns, blockFees) ∧
        (isGenesisBlock F block = true ∧ patchState = patchTxns ∨
          isGenesisBlock F block = false ∧
            processBlockCoinbaseTX F block blockFees patchTxns = .ok patchState) := by
  unfold execBlock at h
  split at h
  next => cases h
  next hexecuted =>
    split at h
    next => cases h
    next hheight =>
      split at h
      next => cases h
      next patchMerged hmerged =>
        split at h
        next => cases h
        next patchStart hstart =>
          split at h
          next => cases h
          next patchTxns blockFees htxns =>
            refine ⟨by simpa using hexecuted, fun hgenesis => ?_,
              patchMerged, patchStart, patchTxns, blockFees, hmerged, hstart, htxns, ?_⟩
            · simpa [hgenesis] using hheight
            · split at h
              next hgenesis =>
                cases h
                exact .inl ⟨hgenesis, rfl⟩
              next hgenesis =>
                refine .inr ⟨by simpa using hgenesis, ?_⟩
                cases hcoinbase : processBlockCoinbaseTX F block blockFees patchTxns with
                | error error => simp [hcoinbase, Except.map] at h
                | ok patch => simpa [hcoinbase, Except.map] using h

/-- The execution of one transaction of a block. -/
theorem execTxns_cons_ok {node : NodeView} {isGenesis : Bool} {conciliumId : Nat}
    {tx : Transaction} {rest : List Transaction} {start result : PatchDB} {fees fees' : Amount}
    (h : execTxns F node isGenesis conciliumId vm (tx :: rest) start fees = .ok (result, fees')) :
    tx.conciliumId = conciliumId ∧ ∃ fee patchThisTx merged,
      processTx F node (some start) isGenesis tx (vm tx) = .ok (fee, patchThisTx) ∧
      start.merge F patchThisTx true = .ok merged ∧
      execTxns F node isGenesis conciliumId vm rest merged (fees + fee) = .ok (result, fees') := by
  rw [execTxns] at h
  split at h
  next => cases h
  next hconcilium =>
    split at h
    next => cases h
    next fee patchThisTx hok =>
      split at h
      next => cases h
      next merged hmerge =>
        exact ⟨not_not.mp hconcilium, fee, patchThisTx, merged, hok, hmerge, h⟩

/-- A block that is executed was not pending. -/
theorem notMem_of_execBlock {processedHeight : Option Nat} {patchState : PatchDB}
    (h : s.execBlock F processedHeight vm block = .ok (some patchState)) :
    block.hash F ∉ s.pendingBlocks.dag := by
  have hexecuted := (execBlock_ok h).1
  simp only [isBlockExecuted, PendingBlocksManager.hasBlock, Bool.or_eq_false_iff,
    decide_eq_false_iff_not] at hexecuted
  exact hexecuted.2

/-- A block that was not executed before is executed, or refused. -/
theorem execBlock_ne_none {processedHeight : Option Nat}
    (hnot : s.isBlockExecuted (block.hash F) = false) :
    s.execBlock F processedHeight vm block ≠ .ok none := by
  intro h
  unfold execBlock at h
  rw [hnot, if_neg Bool.false_ne_true] at h
  split at h
  next => cases h
  next =>
    split at h
    next => cases h
    next =>
      split at h
      next => cases h
      next =>
        split at h
        next => cases h
        next patchTxns blockFees _ =>
          split at h
          next => cases h
          next =>
            cases hcoinbase : processBlockCoinbaseTX F block blockFees patchTxns with
            | error error => simp [hcoinbase, Except.map] at h
            | ok patch => simp [hcoinbase, Except.map] at h

/-- A block that was processed was either executed before, or its patch was accepted. -/
theorem processBlock_ok (h : s.processBlock F J vm block = .ok s') :
    ({ s with mainDag := s.mainDag.addBlock F (block.info F).markAsInFlight } : ChainState).execBlock
        F (some block.getHeight) vm block = .ok none ∧
      s' = { s with mainDag := s.mainDag.addBlock F (block.info F).markAsInFlight } ∨
    ∃ patchState,
      ({ s with mainDag := s.mainDag.addBlock F (block.info F).markAsInFlight } :
        ChainState).execBlock F (some block.getHeight) vm block = .ok (some patchState) ∧
      ({ s with mainDag := s.mainDag.addBlock F (block.info F).markAsInFlight } :
        ChainState).acceptBlock F J block patchState = .ok s' := by
  unfold processBlock at h
  dsimp only at h
  split at h
  next => cases h
  next hexec =>
    injection h with h
    exact .inl ⟨hexec, h.symm⟩
  next patchState hexec => exact .inr ⟨patchState, hexec, h⟩

/-- What accepting a block does to the pending blocks. -/
theorem acceptBlock_ok {patchState : PatchDB}
    (h : s.acceptBlock F J block patchState = .ok s') :
    ∃ result, (s.pendingBlocks.addBlock F block patchState).checkFinality F J (block.hash F)
        (s.storage.getConciliumsCount F) = .ok (result, s'.pendingBlocks) ∧
      processFinalityResults F result { s with pendingBlocks := s'.pendingBlocks } = .ok s' := by
  unfold acceptBlock at h
  split at h
  next => cases h
  next result pendingBlocks hcheck =>
    have hpending : s'.pendingBlocks = pendingBlocks := by
      unfold processFinalityResults at h
      split at h
      next =>
        cases h
        rfl
      next =>
        split at h
        next => cases h
        next =>
          cases h
          rfl
    rw [hpending]
    exact ⟨result, hcheck, h⟩

/-- The states that a node goes through by processing blocks, each of which meets a
condition in the state it is processed in. -/
inductive RunWhile (F : Factory) (J : Dagjs) (condition : ChainState → Block → Prop)
    (start : ChainState) : ChainState → Prop
  | start : RunWhile F J condition start start
  | step {s s' : ChainState} {vm : Transaction → Behaviour} {block : Block}
      (hrun : RunWhile F J condition start s) (hcondition : condition s block)
      (hstep : s.processBlock F J vm block = .ok s') : RunWhile F J condition start s'

end ChainState

end CilCore
