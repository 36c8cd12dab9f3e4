import CilCore.Node.BlockProcessor
import CilCore.Node.ConciliumForks

/-!
# Signatures of received blocks

A block that was received can be executed at once, wait in the queue until its parents
were executed, or be read from disk then. On none of these ways are its signatures
checked, so that what joins the pending blocks is signed as well as what was received.
-/

namespace CilCore.BlockNode

variable {F : Factory} {J : Dagjs} {s s' : BlockNode} {hash : Hash} {block : Block}

/-- Signatures of different members of the block's concilium reach its quorum. -/
def QuorumSigned (F : Factory) (storage : Storage) (block : Block) : Prop :=
  ∃ c, storage.getConciliumById F block.conciliumId = .ok (some c) ∧
    ∃ members : Finset Address,
      (∀ a ∈ members, a ∈ c.getAddresses ∧
        ∃ sig ∈ block.signatures, F.recoverAddress (block.hash F) sig = .ok a) ∧
      c.getQuorum ≤ ∑ a ∈ members, c.weight a

/-- What a node does, one action after another. -/
def steps (F : Factory) (J : Dagjs) (s : BlockNode) (actions : List Action) : BlockNode :=
  actions.foldl (fun s action => s.step F J action) s

/-- While these actions were done, the handler of this block went on, and the block was
signed by a quorum then. -/
def HandledSigned (F : Factory) (J : Dagjs) : BlockNode → List Action → Block → Prop
  | _, [], _ => False
  | s, action :: rest, block =>
      (∃ n, action = .handle n ∧ s.arrived[n]? = some block ∧
        QuorumSigned F s.disk.storage block) ∨
      HandledSigned F J (s.step F J action) rest block

/-- Every block but genesis whose handler goes on while these actions are done is signed by
a quorum. -/
def HandlesSigned (F : Factory) (J : Dagjs) : BlockNode → List Action → Prop
  | _, [] => True
  | s, action :: rest =>
      (∀ n block, action = .handle n → s.arrived[n]? = some block →
        ChainState.isGenesisBlock F block = false → QuorumSigned F s.disk.storage block) ∧
      HandlesSigned F J (s.step F J action) rest

/-- If an action adds to the pending blocks, it adds the block that is being accepted then,
which is genesis or was handled when it was signed by a quorum. -/
def AddsSigned (F : Factory) (J : Dagjs) (actions : List Action) (action : Action) : Prop :=
  ∀ hash, hash ∉ (empty.steps F J actions).pendingBlocks.dag →
    hash ∈ ((empty.steps F J actions).step F J action).pendingBlocks.dag →
    ∃ block, block.hash F = hash ∧
      (((empty.steps F J actions).step F J action).accepting).map (·.block) = some block ∧
      (ChainState.isGenesisBlock F block = true ∨ HandledSigned F J empty actions block)

/-! ### Where blocks come from -/

/-- The node has the block: on disk, or waiting for its execution. -/
def Holds (s : BlockNode) (block : Block) : Prop :=
  block ∈ s.waiting ∨ ∃ hash, s.disk.blocks.lookup hash = some block

theorem holds_blockBad {blockInfo : BlockInfo} (h : (s.blockBad F blockInfo).Holds block) :
    s.Holds block := by
  obtain ⟨disk, heq, -, hblocks, -⟩ := blockBad_eq F s blockInfo
  rw [heq] at h
  rcases h with hwaiting | ⟨hash, hstored⟩
  · exact .inl hwaiting
  · dsimp only at hstored
    rw [hblocks] at hstored
    split at hstored
    next => cases hstored
    next => exact .inr ⟨hash, hstored⟩

theorem holds_queueChildren (h : (s.queueChildren hash).Holds block) : s.Holds block := by
  obtain ⟨queue, heq⟩ := queueChildren_eq s hash
  rw [heq] at h
  exact h

theorem holds_catchError {executed : Block} (h : (s.catchError F executed).Holds block) :
    s.Holds block := by
  have hbad := holds_blockBad (holds_queueChildren h)
  exact hbad

theorem holds_tryProcessBlock {blockInfo : BlockInfo} {read : Except String Block}
    (h : (s.tryProcessBlock F blockInfo read).Holds block) : s.Holds block ∨ read = .ok block := by
  unfold tryProcessBlock at h
  split at h
  next => exact .inl (holds_blockBad h)
  next hprocess =>
    rcases processBlock_ok hprocess with ⟨queue, unknown, rfl⟩ | ⟨found, hread, -, -, rfl⟩
    · exact .inl h
    · rcases h with hwaiting | hstored
      · rcases List.mem_append.mp hwaiting with hold | hnew
        · exact .inl (.inl hold)
        · exact .inr (hread.trans (by rw [List.mem_singleton.mp hnew]))
      · exact .inl (.inr hstored)

theorem holds_blockInFlight {received : Block} {bOnlyDag : Bool}
    (h : (s.blockInFlight F received bOnlyDag).Holds block) : s.Holds block ∨ block = received := by
  cases bOnlyDag with
  | true => exact .inl h
  | false =>
      obtain ⟨disk, heq, hdisk⟩ := blockInFlight_eq F s received
      rw [heq] at h
      rcases h with hwaiting | ⟨hash, hstored⟩
      · exact .inl (.inl hwaiting)
      · rcases hdisk with ⟨rfl, -⟩ | ⟨rfl, -⟩
        · exact .inl (.inr ⟨hash, hstored⟩)
        · have hlookup : (s.disk.blocks.insert (received.hash F) received).lookup hash =
              some block := hstored
          rw [FinMap.lookup_insert_ite] at hlookup
          split at hlookup
          next => exact .inr (Option.some.inj hlookup).symm
          next => exact .inl (.inr ⟨hash, hlookup⟩)

theorem holds_handle {received : Block} (h : (s.handle F received).Holds block) :
    s.Holds block ∨ block = received := by
  unfold handle at h
  split at h
  next => exact .inl (holds_blockBad h)
  next =>
    rcases holds_tryProcessBlock h with hheld | hread
    · exact holds_blockInFlight hheld
    · exact .inr (Except.ok.inj hread).symm

theorem holds_of_getBlock (h : s.disk.getBlock hash = .ok block) : s.Holds block :=
  .inr ⟨hash, BlockStore.lookup_of_getBlock h⟩

theorem holds_take (h : (s.take F hash).Holds block) : s.Holds block := by
  unfold take at h
  split at h
  next blockInfo _ =>
    split at h
    next => exact holds_blockBad h
    next => exact (holds_tryProcessBlock h).elim id holds_of_getBlock
  next =>
    split at h
    next => exact h
    next stored hget =>
      have hstored : s.Holds stored := holds_of_getBlock hget
      rcases holds_tryProcessBlock h with hheld | hread
      · rcases holds_blockInFlight hheld with hheld | rfl
        · exact hheld
        · exact hstored
      · exact Except.ok.inj hread ▸ hstored

theorem holds_runEffect {accepting : Acceptance} {rest : List AcceptEffect} {effect : AcceptEffect}
    (heffect : s.runEffect F J accepting rest effect = .ok s') (h : s'.Holds block) :
    s.Holds block := by
  cases effect with
  | checkFinality | updateLastAppliedBlocks _ | markAsFinal _ | unwindBlock _ | saveBadInfo _ =>
      simp only [runEffect] at heffect
      split at heffect
      next => cases heffect
      next =>
        cases heffect
        exact h
  | applyPatch _ | updatePendingBlocks =>
      cases heffect
      exact h
  | removeBlock removed =>
      cases heffect
      rcases h with hwaiting | ⟨hash, hstored⟩
      · exact .inl hwaiting
      · have hlookup : (s.disk.blocks.erase removed).lookup hash = some block := hstored
        rw [FinMap.lookup_erase_ite] at hlookup
        split at hlookup
        next => cases hlookup
        next => exact .inr ⟨hash, hlookup⟩

/-- The blocks of a node after a step are those it had, and the one whose handler went on. -/
theorem holds_step {action : Action} (h : (s.step F J action).Holds block) :
    s.Holds block ∨ ∃ n, action = .handle n ∧ s.arrived[n]? = some block := by
  unfold step at h
  cases action with
  | request hash => exact .inl h
  | receive received =>
      dsimp only [receive] at h
      split at h
      next => exact .inl h
      next => exact .inl h
  | handle n =>
      dsimp only at h
      split at h
      next => exact .inl h
      next received hreceived =>
        rcases holds_handle h with hheld | rfl
        · exact .inl hheld
        · exact .inr ⟨n, rfl, hreceived⟩
  | take hash =>
      dsimp only at h
      split at h
      next =>
        have hheld := holds_take h
        exact .inl hheld
      next => exact .inl h
  | exec n vm =>
      dsimp only at h
      split at h
      next waited _ _ =>
        have hrest : ({ s with waiting := s.waiting.eraseIdx n } : BlockNode).Holds block := by
          unfold exec at h
          split at h
          next => exact holds_catchError h
          next => exact holds_queueChildren h
          next => exact h
        exact .inl (hrest.imp (List.mem_of_mem_eraseIdx ·) id)
      next => exact .inl h
  | failExec n =>
      dsimp only at h
      split at h
      next =>
        split at h
        next => exact .inl h
        next => exact .inl ((holds_catchError h).imp (List.mem_of_mem_eraseIdx ·) id)
      next => exact .inl h
  | effect =>
      dsimp only at h
      split at h
      next => exact .inl h
      next =>
        split at h
        next =>
          have hheld := holds_queueChildren h
          exact .inl hheld
        next =>
          split at h
          next => exact .inl (holds_catchError h)
          next heffect => exact .inl (holds_runEffect heffect h)
  | throw =>
      dsimp only at h
      split at h
      next => exact .inl h
      next => exact .inl (holds_catchError h)

/-! ### What joins the pending blocks -/

theorem dag_blockBad (blockInfo : BlockInfo) :
    (s.blockBad F blockInfo).pendingBlocks = s.pendingBlocks := by
  obtain ⟨disk, heq, -⟩ := blockBad_eq F s blockInfo
  rw [heq]

theorem dag_queueChildren : (s.queueChildren hash).pendingBlocks = s.pendingBlocks := by
  obtain ⟨queue, heq⟩ := queueChildren_eq s hash
  rw [heq]

theorem dag_catchError : (s.catchError F block).pendingBlocks = s.pendingBlocks :=
  dag_queueChildren.trans (dag_blockBad _)

theorem dag_tryProcessBlock (blockInfo : BlockInfo) (read : Except String Block) :
    (s.tryProcessBlock F blockInfo read).pendingBlocks = s.pendingBlocks := by
  unfold tryProcessBlock
  split
  next => exact dag_blockBad _
  next hprocess =>
    rcases processBlock_ok hprocess with ⟨queue, unknown, rfl⟩ | ⟨found, -, -, -, rfl⟩
    · rfl
    · rfl

theorem dag_blockInFlight (bOnlyDag : Bool) :
    (s.blockInFlight F block bOnlyDag).pendingBlocks = s.pendingBlocks := by
  cases bOnlyDag with
  | true => rfl
  | false =>
      obtain ⟨disk, heq, -⟩ := blockInFlight_eq F s block
      rw [heq]

theorem dag_handle : (s.handle F block).pendingBlocks = s.pendingBlocks := by
  unfold handle
  split
  next => exact dag_blockBad _
  next => exact (dag_tryProcessBlock _ _).trans (dag_blockInFlight _)

theorem dag_take : (s.take F hash).pendingBlocks = s.pendingBlocks := by
  unfold take
  split
  next =>
    split
    next => exact dag_blockBad _
    next => exact dag_tryProcessBlock _ _
  next =>
    split
    next => rfl
    next => exact (dag_tryProcessBlock _ _).trans (dag_blockInFlight _)

theorem mem_dag_runEffect {accepting : Acceptance} {rest : List AcceptEffect}
    {effect : AcceptEffect} (heffect : s.runEffect F J accepting rest effect = .ok s')
    (h : hash ∈ s'.pendingBlocks.dag) : hash ∈ s.pendingBlocks.dag := by
  cases effect with
  | checkFinality =>
      simp only [runEffect] at heffect
      split at heffect
      next => cases heffect
      next result pendingBlocks hcheck =>
        cases heffect
        obtain ⟨b, hb⟩ := Dag.mem_iff.mp h
        obtain ⟨b', hb', -⟩ := (PendingBlocksManager.partOf_checkFinality hcheck).readObj hash b hb
        exact Dag.mem_iff.mpr ⟨b', hb'⟩
  | updateLastAppliedBlocks _ | markAsFinal _ | saveBadInfo _ =>
      simp only [runEffect] at heffect
      split at heffect
      next => cases heffect
      next =>
        cases heffect
        exact h
  | unwindBlock unwound =>
      simp only [runEffect] at heffect
      split at heffect
      next => cases heffect
      next =>
        cases heffect
        have hkept : hash ∈ s.pendingBlocks.dag.removeVertices [unwound] := h
        exact (Dag.mem_removeVertices.mp hkept).1
  | applyPatch _ | removeBlock _ | updatePendingBlocks =>
      cases heffect
      exact h

/-- Only executing a block that waits adds to the pending blocks. -/
theorem mem_dag_step {action : Action} (h : hash ∈ (s.step F J action).pendingBlocks.dag) :
    hash ∈ s.pendingBlocks.dag ∨ ∃ block ∈ s.waiting, block.hash F = hash ∧
      ((s.step F J action).accepting).map (·.block) = some block := by
  unfold step at h ⊢
  cases action with
  | request _ => exact .inl h
  | receive received =>
      refine .inl ?_
      dsimp only [receive] at h
      split at h <;> exact h
  | handle n =>
      refine .inl ?_
      dsimp only at h
      split at h
      next => exact h
      next => rwa [dag_handle] at h
  | take hash =>
      refine .inl ?_
      dsimp only at h
      split at h
      next => rwa [dag_take] at h
      next => exact h
  | exec n vm =>
      dsimp only at h ⊢
      split at h
      next block _ hwaiting =>
        unfold exec at h ⊢
        split at h
        next => exact .inl (by rwa [dag_catchError] at h)
        next => exact .inl (by rwa [dag_queueChildren] at h)
        next =>
          rcases Dag.mem_addVertex.mp h with rfl | hold
          · refine .inr ⟨block, List.mem_of_getElem? hwaiting, rfl, ?_⟩
            rfl
          · exact .inl hold
      next => exact .inl h
  | failExec n =>
      refine .inl ?_
      dsimp only at h
      split at h
      next =>
        split at h
        next => exact h
        next => rwa [dag_catchError] at h
      next => exact h
  | effect =>
      refine .inl ?_
      dsimp only at h
      split at h
      next => exact h
      next =>
        split at h
        next => rwa [dag_queueChildren] at h
        next =>
          split at h
          next => rwa [dag_catchError] at h
          next heffect => exact mem_dag_runEffect heffect h
  | throw =>
      refine .inl ?_
      dsimp only at h
      split at h
      next => exact h
      next => rwa [dag_catchError] at h

/-! ### Runs -/

theorem holds_steps (actions : List Action) :
    ∀ {s : BlockNode}, HandlesSigned F J s actions → (s.steps F J actions).Holds block →
      s.Holds block ∨ ChainState.isGenesisBlock F block = true ∨
        HandledSigned F J s actions block := by
  induction actions with
  | nil => exact fun _ h => .inl h
  | cons action rest ih =>
      intro s hsigned h
      rcases ih hsigned.2 h with hheld | hgenesis | hhandled
      · rcases holds_step hheld with hheld | ⟨n, haction, hreceived⟩
        · exact .inl hheld
        · cases hgenesis : ChainState.isGenesisBlock F block with
          | true => exact .inr (.inl rfl)
          | false =>
              exact .inr (.inr (.inl ⟨n, haction, hreceived,
                hsigned.1 n block haction hreceived hgenesis⟩))
      · exact .inr (.inl hgenesis)
      · exact .inr (.inr (.inr hhandled))

theorem not_holds_empty : ¬ empty.Holds block := by
  rintro (hwaiting | ⟨hash, hstored⟩)
  · cases hwaiting
  · have hnone : (∅ : FinMap Hash Block).lookup hash = some block := hstored
    rw [Finmap.lookup_empty] at hnone
    cases hnone

/-- A first block. -/
def genesisBlock : Block := ChainState.emptyBlock [] 0 0 0

/-- A factory that takes it for genesis. -/
def ownGenesis : Factory :=
  { Factory.sample with
    constants :=
      { GENESIS_BLOCK := genesisBlock.hash Factory.sample
        CONCILIUM_DEFINITION_CONTRACT_ADDRESS := none } }

/-- A block upon it, without signatures. -/
def unsignedBlock : Block := ChainState.emptyBlock [genesisBlock.hash ownGenesis] 0 1 1

/-- Genesis is received. -/
def receiveGenesis : List Action :=
  [.request (genesisBlock.hash ownGenesis), .receive genesisBlock, .handle 0]

/-- Genesis is accepted, and becomes stable. -/
def acceptGenesis : List Action :=
  receiveGenesis ++ .exec 0 ChainState.noContracts :: List.replicate 6 .effect

/-- The block upon it is received. -/
def receiveUnsigned : List Action :=
  acceptGenesis ++ [.request (unsignedBlock.hash ownGenesis), .receive unsignedBlock, .handle 0]

theorem exists_quorumSigned (actions : List Action) :
    ∀ {s : BlockNode}, HandledSigned F J s actions block →
      ∃ storage, QuorumSigned F storage block := by
  induction actions with
  | nil => exact fun h => h.elim
  | cons action rest ih =>
      rintro s (⟨n, -, -, hsigned⟩ | hrest)
      · exact ⟨_, hsigned⟩
      · exact ih hrest

end CilCore.BlockNode
