import CilCore.Lib.Worklist
import CilCore.Node.BlockSignatures
import CilCore.Node.Finality
import CilCore.Node.LostWakeups

/-!
# Rebuilding the chain state

`rebuildDb` of `node/node.js`: all blocks are in storage, and are executed again in one pass
of `_blockProcessor` that starts with genesis. Nothing else goes on meanwhile, so that the
pass never has to share the queue.
-/

namespace CilCore

namespace BlockNode

variable (F : Factory) (J : Dagjs)

/-- The effects of accepting a block, one after another. A throw leaves what was done. -/
def runEffects : Acceptance → List AcceptEffect → BlockNode → Except BlockNode BlockNode
  | _, [], s => .ok { s with accepting := none }
  | accepting, effect :: rest, s =>
      match s.runEffect F J accepting rest effect with
      | .error _ => .error { s with accepting := none }
      | .ok s => runEffects (s.accepting.getD accepting) rest s

/-- `_acceptBlock`. -/
def acceptBlock (s : BlockNode) (block : Block) (patchState : PatchDB) :
    Except BlockNode BlockNode :=
  let s := { s with pendingBlocks := s.pendingBlocks.addBlock F block patchState }
  match s.pendingBlocks.checkFinality F J (block.hash F) (s.disk.storage.getConciliumsCount F) with
  | .error _ => .error s
  | .ok (result, pendingBlocks) =>
      runEffects F J { block, effects := [] }
        (result.elim [] FinalityResult.effects ++ [.updatePendingBlocks]) { s with pendingBlocks }

end BlockNode

/-- A node that is rebuilt, the flag of `rebuildDb`, and the blocks that were executed, in
turn. -/
structure RebuildNode where
  node : BlockNode
  bStop : Bool
  executed : List Hash

namespace RebuildNode

section

variable (F : Factory) (J : Dagjs) (vm : Block → Transaction → Behaviour)
  (strHashToStop : Option Hash) (r : RebuildNode)

/-- `_queueBlockExec`, as `rebuildDb` overrides it. -/
def queueBlockExec (hash : Hash) : RebuildNode :=
  if r.bStop then r
  else
    let disk := (r.node.mainDag.getBlockInfo hash).elim r.node.disk fun blockInfo =>
      r.node.disk.saveBlockInfo F blockInfo
    { r with
      node := ({ r.node with disk } : BlockNode).queueBlockExec hash
      bStop := some hash = strHashToStop }

/-- `_blockProcessorExecBlock`. There is no peer to blame, so its `catch` throws itself. -/
def execBlock (block : Block) : Except RebuildNode RebuildNode :=
  let r := { r with executed := r.executed ++ [block.hash F] }
  match r.node.chain.execBlock F (some block.getHeight) (vm block) block with
  | .error _ => .error { r with node := r.node.blockBad F (block.info F) }
  | .ok none => .ok r
  | .ok (some patchState) =>
      if r.node.isBlockExecuted (block.hash F) then .ok r
      else
        match r.node.acceptBlock F J block patchState with
        | .error node => .error { r with node := node.blockBad F (block.info F) }
        | .ok node => .ok { r with node }

/-- `_processBlock`. -/
def processBlock (hash : Hash) (parentHashes : List Hash) (block : Except String Block) :
    Except RebuildNode RebuildNode :=
  match r.node.canExecuteBlock F hash parentHashes with
  | .error _ => .error r
  | .ok true =>
      if r.node.isBlockExecuted hash then .ok r
      else
        match block with
        | .error _ => .error r
        | .ok block =>
            match r.execBlock F J vm block with
            | .error r => .error r
            | .ok r => .ok ((r.node.mainDag.getChildren hash).foldl
                (fun r hash => r.queueBlockExec F strHashToStop hash) r)
  | .ok false =>
      let r := r.queueBlockExec F strHashToStop hash
      let arrToRequest := (r.node.parentsToRequest parentHashes).filter fun hash =>
        hash ∉ r.node.disk.setBlocksBad
      let arrToExec := r.node.parentsToExec parentHashes
      let mapUnknownBlocks := r.node.mapUnknownBlocks ∪ arrToRequest
      .ok (arrToExec.foldl (fun r hash => r.queueBlockExec F strHashToStop hash)
        { r with node := { r.node with mapUnknownBlocks } })

/-- `_processBlock`, with the `catch` of `_blockProcessor`. -/
def tryProcessBlock (blockInfo : BlockInfo) (block : Except String Block) : RebuildNode :=
  match r.processBlock F J vm strHashToStop (blockInfo.getHash F) blockInfo.header.parentHashes
      block with
  | .error r => { r with node := r.node.blockBad F blockInfo }
  | .ok r => r

/-- The loop of `_blockProcessor` for one entry, without the `finally`. -/
def take (hash : Hash) : RebuildNode :=
  match r.node.mainDag.getBlockInfo hash with
  | some blockInfo =>
      if blockInfo.isBad then { r with node := r.node.blockBad F blockInfo }
      else r.tryProcessBlock F J vm strHashToStop blockInfo
        (r.node.disk.getBlock (blockInfo.getHash F))
  | none =>
      match r.node.disk.getBlock hash with
      | .error _ => r
      | .ok block =>
          { r with node := r.node.blockInFlight F block true }.tryProcessBlock F J vm strHashToStop
            (block.info F) (.ok block)

/-- The `finally`. -/
def deleteFromQueue (hash : Hash) : RebuildNode :=
  { r with node :=
    { r.node with mapBlocksToExec := r.node.mapBlocksToExec.filter (· ≠ hash) } }

/-- The loop of `_blockProcessor`. The first entry of the map is the one that was set first,
since those before it were deleted. `none` when the loop is longer than the fuel. -/
def blockProcessor : Nat → RebuildNode → Option RebuildNode
  | 0, _ => none
  | fuel + 1, r =>
      match r.node.mapBlocksToExec.getLast? with
      | none => some r
      | some hash =>
          blockProcessor fuel ((r.take F J vm strHashToStop hash).deleteFromQueue hash)

/-- The graph that `rebuildDb` makes of the blocks in storage. -/
def rebuiltDag (arrBlocks : List Block) : MainDag :=
  arrBlocks.foldl (fun mainDag block => mainDag.addBlock F { header := block.header }) .empty

/-- The node before the pass. -/
def beforePass (s : BlockNode) (arrBlocks : List Block) : BlockNode :=
  { s with
    mainDag := rebuiltDag F arrBlocks
    mapBlocksToExec := s.mapBlocksToExec.insert F.constants.GENESIS_BLOCK }

/-- `rebuildDb`, given the blocks in storage. -/
def rebuildDb (fuel : Nat) (arrBlocks : List Block) (s : BlockNode) :
    Option (Except String RebuildNode) :=
  match (rebuiltDag F arrBlocks).getBlockInfo F.constants.GENESIS_BLOCK with
  | none => some (.error "No Genesis found")
  | some _ => (blockProcessor F J vm strHashToStop fuel
      ⟨beforePass F s arrBlocks, some F.constants.GENESIS_BLOCK = strHashToStop, []⟩).map .ok

end

/-! ### Blocks that execute in every order -/

section

variable (F : Factory) (J : Dagjs) (vm : Block → Transaction → Behaviour) (arrBlocks : List Block)

/-- A block is executed and accepted, and no other is rolled back. -/
def Executes (block : Block) (s s' : BlockNode) : Prop :=
  ∃ patchState result pendingBlocks,
    s.chain.execBlock F (some block.getHeight) (vm block) block = .ok (some patchState) ∧
      (s.pendingBlocks.addBlock F block patchState).checkFinality F J (block.hash F)
        (s.disk.storage.getConciliumsCount F) = .ok (result, pendingBlocks) ∧
      (∀ r ∈ result, r.setBlocksToRollback = []) ∧
      s.acceptBlock F J block patchState = .ok s'

/-- A block is a parent of another one. -/
def Parent (parent hash : Hash) : Prop :=
  ∃ block ∈ arrBlocks, block.hash F = hash ∧ parent ∈ block.parentHashes

/-- The nodes that are reached when blocks are executed one after another, each after its
parents. -/
inductive ExecutedInOrder (start : BlockNode) : List Hash → BlockNode → Prop
  | start : ExecutedInOrder start [] start
  | next {executed : List Hash} {s s' : BlockNode} {block : Block} :
      ExecutedInOrder start executed s → block ∈ arrBlocks → block.hash F ∉ executed →
      (∀ parent, Parent F arrBlocks parent (block.hash F) → parent ∈ executed) →
      Executes F J vm block s s' → ExecutedInOrder start (executed ++ [block.hash F]) s'

/-- Whatever was executed before, each block after its parents, a block whose parents were
executed executes as well. -/
def ExecuteInEveryOrder (start : BlockNode) : Prop :=
  ∀ executed s, ExecutedInOrder F J vm arrBlocks start executed s → ∀ block ∈ arrBlocks,
    block.hash F ∉ executed →
    (∀ parent, Parent F arrBlocks parent (block.hash F) → parent ∈ executed) →
    ∃ s', Executes F J vm block s s'

/-- The blocks have their bodies in storage, with the headers that were hashed. -/
structure Stored (s : BlockNode) : Prop where
  body : ∀ block ∈ arrBlocks, s.disk.getBlock (block.hash F) = .ok block
  header : ∀ block ∈ arrBlocks, block.hashedHeader F = block.header

/-- The blocks are a graph without cycles, and descend from genesis. -/
structure Descend : Prop where
  genesis : ∃ block ∈ arrBlocks, block.hash F = F.constants.GENESIS_BLOCK
  closed : ∀ parent hash, Parent F arrBlocks parent hash →
    ∃ block ∈ arrBlocks, block.hash F = parent
  descend : ∀ block ∈ arrBlocks,
    Relation.ReflTransGen (Parent F arrBlocks) F.constants.GENESIS_BLOCK (block.hash F)
  acyclic : ∀ hash, ¬ Relation.TransGen (Parent F arrBlocks) hash hash

/-- Each block was executed, once and after its parents, and nothing is queued. -/
structure ExecutedOnce (r : RebuildNode) : Prop where
  once : r.executed.Nodup
  all : ∀ hash, hash ∈ r.executed ↔ ∃ block ∈ arrBlocks, block.hash F = hash
  accepted : ∀ block ∈ arrBlocks, r.node.isBlockExecuted (block.hash F) = true
  parentsFirst : ∀ before hash after, r.executed = before ++ hash :: after →
    ∀ parent, Parent F arrBlocks parent hash → parent ∈ before
  queue : r.node.mapBlocksToExec = []

end

end RebuildNode

variable {F : Factory} {J : Dagjs} {vm : Block → Transaction → Behaviour}
  {arrBlocks : List Block} {hash : Hash} {block : Block}

/-- The effect has to do with blocks that become stable, not with those that are rolled
back. -/
def AcceptEffect.isForward : AcceptEffect → Bool
  | .updateLastAppliedBlocks _ | .markAsFinal _ | .applyPatch _ | .updatePendingBlocks => true
  | .checkFinality | .unwindBlock _ | .saveBadInfo _ | .removeBlock _ => false

/-- The blocks that become stable. -/
def stableBlocks (result : Option FinalityResult) : List Hash :=
  result.elim [] FinalityResult.setStableBlocks

namespace BlockNode

variable {s s' s'' : BlockNode} (infos : FinMap Hash BlockInfo) (queue unknown : List Hash)
  {accepting : Acceptance} {effects rest : List AcceptEffect} {effect : AcceptEffect}

/-! ### Other queues -/

/-- The node with other queues, and other infos on disk. -/
def requeued (s : BlockNode) (infos : FinMap Hash BlockInfo) (queue unknown : List Hash) :
    BlockNode :=
  { s with
    disk := { s.disk with infos }
    mapBlocksToExec := queue
    mapUnknownBlocks := unknown }

/-- Blocks that become stable do so whatever is queued. -/
theorem runEffect_requeued (hforward : effect.isForward = true)
    (h : s.runEffect F J accepting rest effect = .ok s') :
    ∃ infos', (s.requeued infos queue unknown).runEffect F J accepting rest effect =
      .ok (s'.requeued infos' queue unknown) := by
  cases effect with
  | updateLastAppliedBlocks arrTopStable =>
      unfold runEffect at h ⊢
      dsimp only at h ⊢
      have hsame : (s.requeued infos queue unknown).newLastApplied F arrTopStable =
        s.newLastApplied F arrTopStable := rfl
      rw [hsame]
      split at h
      next => cases h
      next arrLastApplied hlast =>
        cases h
        exact ⟨infos, rfl⟩
  | markAsFinal hash =>
      unfold runEffect at h ⊢
      dsimp only at h ⊢
      have hsame : (s.requeued infos queue unknown).mainDag = s.mainDag := rfl
      rw [hsame]
      split at h
      next => cases h
      next bi hbi =>
        cases h
        exact ⟨_, rfl⟩
  | applyPatch patchToApply =>
      cases h
      exact ⟨infos, rfl⟩
  | updatePendingBlocks =>
      cases h
      exact ⟨infos, rfl⟩
  | checkFinality => cases hforward
  | unwindBlock hash => cases hforward
  | saveBadInfo hash => cases hforward
  | removeBlock hash => cases hforward

theorem runEffects_requeued (hforward : ∀ effect ∈ effects, effect.isForward = true)
    (h : runEffects F J accepting effects s = .ok s') :
    ∃ infos', runEffects F J accepting effects (s.requeued infos queue unknown) =
      .ok (s'.requeued infos' queue unknown) := by
  induction effects generalizing accepting s infos with
  | nil =>
      cases h
      exact ⟨infos, rfl⟩
  | cons effect rest ih =>
      rw [runEffects] at h ⊢
      split at h
      next => cases h
      next s₁ hrun =>
        obtain ⟨infos₁, hrun'⟩ := runEffect_requeued infos queue unknown
          (hforward effect List.mem_cons_self) hrun
        rw [hrun']
        exact ih infos₁ (fun e he => hforward e (List.mem_cons_of_mem _ he)) h

/-! ### Blocks that become stable -/

/-- Some blocks became final, and the graph is as it was otherwise. -/
structure Finalizes (finalized : Hash → Prop) (s s' : BlockNode) : Prop where
  blocks : s'.disk.blocks = s.disk.blocks
  pendingBlocks : s'.pendingBlocks = s.pendingBlocks
  edges : s'.mainDag.edges = s.mainDag.edges
  other : ∀ hash, ¬ finalized hash → s'.mainDag.getBlockInfo hash = s.mainDag.getBlockInfo hash
  final : ∀ hash, finalized hash → ∃ info, s.mainDag.getBlockInfo hash = some info ∧
    s'.mainDag.getBlockInfo hash = some info.markAsFinal

theorem Finalizes.trans {finalized finalized' : Hash → Prop} (h : Finalizes finalized s s')
    (h' : Finalizes finalized' s' s'') :
    Finalizes (fun hash => finalized hash ∨ finalized' hash) s s'' where
  blocks := h'.blocks.trans h.blocks
  pendingBlocks := h'.pendingBlocks.trans h.pendingBlocks
  edges := h'.edges.trans h.edges
  other hash hnot := by
    rw [not_or] at hnot
    exact (h'.other hash hnot.2).trans (h.other hash hnot.1)
  final hash hfinal := by
    by_cases hlater : finalized' hash
    · obtain ⟨info, hinfo, hmarked⟩ := h'.final hash hlater
      by_cases hbefore : finalized hash
      · obtain ⟨info', hinfo', hmarked'⟩ := h.final hash hbefore
        obtain rfl := Option.some.inj (hinfo.symm.trans hmarked')
        exact ⟨info', hinfo', hmarked⟩
      · exact ⟨info, (h.other hash hbefore) ▸ hinfo, hmarked⟩
    · obtain ⟨info, hinfo, hmarked⟩ := h.final hash (hfinal.resolve_right hlater)
      exact ⟨info, hinfo, (h'.other hash hlater).trans hmarked⟩

theorem Finalizes.keyed {finalized : Hash → Prop} (h : Finalizes finalized s s')
    (hkeyed : ∀ hash info, s.mainDag.getBlockInfo hash = some info → info.getHash F = hash) :
    ∀ hash info, s'.mainDag.getBlockInfo hash = some info → info.getHash F = hash := by
  intro hash info hinfo
  by_cases hfinal : finalized hash
  · obtain ⟨info', hinfo', hmarked⟩ := h.final hash hfinal
    obtain rfl := Option.some.inj (hinfo.symm.trans hmarked)
    exact hkeyed hash info' hinfo'
  · exact hkeyed hash info ((h.other hash hfinal) ▸ hinfo)

theorem finalizes_runEffect (hforward : effect.isForward = true)
    (hkeyed : ∀ hash info, s.mainDag.getBlockInfo hash = some info → info.getHash F = hash)
    (h : s.runEffect F J accepting rest effect = .ok s') :
    Finalizes (fun hash => effect = .markAsFinal hash) s s' := by
  have hnothing {t : BlockNode} (heffect : ∀ hash, effect ≠ .markAsFinal hash)
      (hblocks : t.disk.blocks = s.disk.blocks) (hpending : t.pendingBlocks = s.pendingBlocks)
      (hdag : t.mainDag = s.mainDag) : Finalizes (fun hash => effect = .markAsFinal hash) s t :=
    ⟨hblocks, hpending, by rw [hdag], fun hash _ => by rw [hdag],
      fun hash heq => absurd heq (heffect hash)⟩
  cases effect with
  | updateLastAppliedBlocks arrTopStable =>
      unfold runEffect at h
      dsimp only at h
      split at h
      next => cases h
      next =>
        cases h
        exact hnothing (by simp) rfl rfl rfl
  | markAsFinal hash =>
      unfold runEffect at h
      dsimp only at h
      split at h
      next => cases h
      next bi hbi =>
        cases h
        have hhash : bi.markAsFinal.getHash F = hash := hkeyed hash bi hbi
        refine ⟨rfl, rfl, rfl, fun other hne => ?_, fun other heq => ?_⟩
        · change (s.mainDag.setBlockInfo F bi.markAsFinal).getBlockInfo other = _
          rw [MainDag.getBlockInfo_setBlockInfo, hhash, if_neg fun heq => hne (by rw [heq])]
        · obtain rfl : hash = other := by simpa using heq
          refine ⟨bi, hbi, ?_⟩
          change (s.mainDag.setBlockInfo F bi.markAsFinal).getBlockInfo hash = _
          rw [MainDag.getBlockInfo_setBlockInfo, hhash, if_pos rfl]
  | applyPatch patchToApply =>
      cases h
      exact hnothing (by simp) rfl rfl rfl
  | updatePendingBlocks =>
      cases h
      exact hnothing (by simp) rfl rfl rfl
  | checkFinality => cases hforward
  | unwindBlock hash => cases hforward
  | saveBadInfo hash => cases hforward
  | removeBlock hash => cases hforward

theorem finalizes_runEffects (hforward : ∀ effect ∈ effects, effect.isForward = true)
    (hkeyed : ∀ hash info, s.mainDag.getBlockInfo hash = some info → info.getHash F = hash)
    (h : runEffects F J accepting effects s = .ok s') :
    Finalizes (fun hash => .markAsFinal hash ∈ effects) s s' := by
  induction effects generalizing accepting s with
  | nil =>
      cases h
      exact ⟨rfl, rfl, rfl, fun _ _ => rfl, fun hash hmem => absurd hmem List.not_mem_nil⟩
  | cons effect rest ih =>
      rw [runEffects] at h
      split at h
      next => cases h
      next s₁ hrun =>
        have hfirst := finalizes_runEffect (hforward effect List.mem_cons_self) hkeyed hrun
        have hrest := ih (fun e he => hforward e (List.mem_cons_of_mem _ he)) (hfirst.keyed hkeyed) h
        have hboth := hfirst.trans hrest
        simpa only [List.mem_cons, eq_comm] using hboth

/-! ### Accepting a block -/

/-- What `checkFinality` leaves pending when it rolls nothing back. -/
theorem checkFinality_stable {pbm after : PendingBlocksManager} {result : Option FinalityResult}
    {newVertex : Hash} {nConciliumCount : Nat} (hdag : pbm.dag.Acyclic) (hnew : newVertex ∈ pbm.dag)
    (h : pbm.checkFinality F J newVertex nConciliumCount = .ok (result, after))
    (hrollback : ∀ r ∈ result, r.setBlocksToRollback = []) :
    after.dag.Acyclic ∧ (∀ v ∈ stableBlocks result, v ∈ pbm.dag) ∧
      ∀ v, v ∈ after.dag ↔ v ∈ pbm.dag ∧ v ∉ stableBlocks result := by
  have hacyclic := hdag.of_edge (PendingBlocksManager.partOf_checkFinality h).edge
  cases result with
  | none =>
      unfold PendingBlocksManager.checkFinality at h
      dsimp only at h
      split at h
      next =>
        cases h
        exact ⟨hdag, fun v hv => absurd hv List.not_mem_nil, fun v => by simp [stableBlocks]⟩
      next => split at h <;> cases h
  | some r =>
      have hstable := (PendingBlocksManager.mem_of_checkFinality hdag hnew h).2
      obtain ⟨-, -, -, rfl⟩ := PendingBlocksManager.checkFinality_ok h
      refine ⟨hacyclic, hstable, fun v => ?_⟩
      rw [PendingBlocksManager.mem_settle, hrollback r rfl]
      simp [stableBlocks]

theorem isForward_effects {result : Option FinalityResult}
    (hrollback : ∀ r ∈ result, r.setBlocksToRollback = []) :
    ∀ effect ∈ result.elim [] FinalityResult.effects ++ [.updatePendingBlocks],
      effect.isForward = true := by
  intro effect heffect
  cases result with
  | none =>
      obtain rfl := List.mem_singleton.mp heffect
      rfl
  | some r =>
      simp only [Option.elim_some, FinalityResult.effects, hrollback r rfl, List.map_nil,
        List.flatMap_nil, List.append_nil, List.cons_append, List.mem_cons, List.mem_append,
        List.mem_map, List.not_mem_nil, or_false] at heffect
      rcases heffect with rfl | (⟨hash, -, rfl⟩ | rfl) | rfl <;> rfl

theorem markAsFinal_mem_effects {result : Option FinalityResult}
    (hrollback : ∀ r ∈ result, r.setBlocksToRollback = []) :
    AcceptEffect.markAsFinal hash ∈
      result.elim [] FinalityResult.effects ++ [.updatePendingBlocks] ↔
        hash ∈ stableBlocks result := by
  cases result with
  | none => simp [stableBlocks]
  | some r => simp [stableBlocks, FinalityResult.effects, hrollback r rfl]

/-- A node that has executed some blocks since another state of it. -/
structure Advanced (F : Factory) (start : BlockNode) (executed : List Hash) (s : BlockNode) :
    Prop where
  blocks : s.disk.blocks = start.disk.blocks
  edges : s.mainDag.edges = start.mainDag.edges
  info : ∀ hash info, start.mainDag.getBlockInfo hash = some info →
    ∃ flags, s.mainDag.getBlockInfo hash = some { info with flags }
  noInfo : ∀ hash, start.mainDag.getBlockInfo hash = none → s.mainDag.getBlockInfo hash = none
  keyed : ∀ hash info, s.mainDag.getBlockInfo hash = some info → info.getHash F = hash
  good : ∀ hash info, s.mainDag.getBlockInfo hash = some info → info.isBad = false
  acyclic : s.pendingBlocks.dag.Acyclic
  executed : ∀ hash, s.isBlockExecuted hash = true ↔ hash ∈ executed

theorem Advanced.next {start : BlockNode} {executed : List Hash}
    (h : Advanced F start executed s) (hnew : block.hash F ∉ executed)
    (hself : block.hash F ∉ block.parentHashes)
    (hexecutes : RebuildNode.Executes F J vm block s s') :
    Advanced F start (executed ++ [block.hash F]) s' := by
  obtain ⟨patchState, result, pendingBlocks, -, hfinality, hrollback, haccept⟩ := hexecutes
  have hfresh : block.hash F ∉ s.pendingBlocks.dag := fun hmem =>
    hnew ((h.executed _).mp ((isBlockExecuted_iff s _).mpr (.inr hmem)))
  have hadded (v : Hash) : v ∈ (s.pendingBlocks.addBlock F block patchState).dag ↔
      v = block.hash F ∨ v ∈ s.pendingBlocks.dag := Dag.mem_addVertex
  obtain ⟨hacyclic, hstable, hpending⟩ := checkFinality_stable (h.acyclic.addVertex _ hfresh hself)
    ((hadded _).mpr (.inl rfl)) hfinality hrollback
  unfold acceptBlock at haccept
  dsimp only at haccept
  rw [hfinality] at haccept
  dsimp only at haccept
  have hfinal := finalizes_runEffects (s := { s with pendingBlocks })
    (isForward_effects hrollback) h.keyed haccept
  simp only [markAsFinal_mem_effects hrollback] at hfinal
  refine ⟨hfinal.blocks.trans h.blocks, hfinal.edges.trans h.edges, fun hash info hinfo => ?_,
    fun hash hinfo => ?_, hfinal.keyed h.keyed, fun hash info hinfo => ?_, ?_, fun hash => ?_⟩
  · obtain ⟨flags, hflags⟩ := h.info hash info hinfo
    by_cases hmem : hash ∈ stableBlocks result
    · obtain ⟨info', hinfo', hmarked⟩ := hfinal.final hash hmem
      obtain rfl := Option.some.inj (hflags.symm.trans hinfo')
      exact ⟨_, hmarked⟩
    · exact ⟨flags, (hfinal.other hash hmem).trans hflags⟩
  · by_cases hmem : hash ∈ stableBlocks result
    · obtain ⟨info', hinfo', -⟩ := hfinal.final hash hmem
      cases (h.noInfo hash hinfo).symm.trans hinfo'
    · exact (hfinal.other hash hmem).trans (h.noInfo hash hinfo)
  · by_cases hmem : hash ∈ stableBlocks result
    · obtain ⟨info', -, hmarked⟩ := hfinal.final hash hmem
      obtain rfl := Option.some.inj (hinfo.symm.trans hmarked)
      rfl
    · exact h.good hash info ((hfinal.other hash hmem) ▸ hinfo)
  · rw [hfinal.pendingBlocks]
    exact hacyclic
  · have hbefore := h.executed hash
    rw [isBlockExecuted_iff] at hbefore ⊢
    rw [hfinal.pendingBlocks, List.mem_append, List.mem_singleton, ← hbefore, hpending, hadded]
    by_cases hmem : hash ∈ stableBlocks result
    · obtain ⟨info', -, hmarked⟩ := hfinal.final hash hmem
      refine iff_of_true (.inl (by rw [hmarked]; rfl)) ?_
      rcases (hadded hash).mp (hstable hash hmem) with heq | hold
      · exact .inr heq
      · exact .inl (.inr hold)
    · rw [hfinal.other hash hmem]
      simp only [hmem, not_false_eq_true, and_true]
      tauto

theorem acceptBlock_requeued {patchState : PatchDB} {result : Option FinalityResult}
    {pendingBlocks : PendingBlocksManager}
    (hfinality : (s.pendingBlocks.addBlock F block patchState).checkFinality F J (block.hash F)
      (s.disk.storage.getConciliumsCount F) = .ok (result, pendingBlocks))
    (hrollback : ∀ r ∈ result, r.setBlocksToRollback = [])
    (h : s.acceptBlock F J block patchState = .ok s') :
    ∃ infos', (s.requeued infos queue unknown).acceptBlock F J block patchState =
      .ok (s'.requeued infos' queue unknown) := by
  unfold acceptBlock at h ⊢
  dsimp only at h ⊢
  rw [hfinality] at h
  obtain ⟨infos', hrun⟩ := runEffects_requeued infos queue unknown
    (isForward_effects hrollback) h
  refine ⟨infos', ?_⟩
  have hsame : ((s.requeued infos queue unknown).pendingBlocks.addBlock F block
      patchState).checkFinality F J (block.hash F)
        ((s.requeued infos queue unknown).disk.storage.getConciliumsCount F) =
      .ok (result, pendingBlocks) := hfinality
  rw [hsame]
  exact hrun

end BlockNode

namespace RebuildNode

variable {s t t' : BlockNode} {infos : FinMap Hash BlockInfo} {queue unknown : List Hash}
  {executed : List Hash} {parent : Hash}

/-! ### The graph of all blocks -/

theorem Stored.hash_eq (h : Stored F arrBlocks s) (hblock : block ∈ arrBlocks) :
    F.headerHash block.header = block.hash F := by
  rw [← h.header block hblock]
  rfl

theorem Stored.unique (h : Stored F arrBlocks s) {block' : Block} (hblock : block ∈ arrBlocks)
    (hblock' : block' ∈ arrBlocks) (heq : block.hash F = block'.hash F) : block = block' := by
  have hbody := h.body block hblock
  rw [heq, h.body block' hblock'] at hbody
  exact (Except.ok.inj hbody).symm

theorem Descend.no_parents (h : Descend F arrBlocks) :
    ¬ Parent F arrBlocks parent F.constants.GENESIS_BLOCK := by
  intro hparent
  obtain ⟨block, hblock, rfl⟩ := h.closed parent _ hparent
  exact h.acyclic _ (Relation.TransGen.tail' (h.descend block hblock) hparent)

theorem rebuiltDag_concat (F : Factory) (arrBlocks : List Block) (block : Block) :
    rebuiltDag F (arrBlocks ++ [block]) =
      (rebuiltDag F arrBlocks).addBlock F { header := block.header } := by
  rw [rebuiltDag, List.foldl_append]
  rfl

theorem getBlockInfo_rebuiltDag {info : BlockInfo}
    (h : (rebuiltDag F arrBlocks).getBlockInfo hash = some info) :
    ∃ block ∈ arrBlocks, F.headerHash block.header = hash ∧ info = { header := block.header } := by
  induction arrBlocks using List.reverseRecOn with
  | nil => cases h
  | append_singleton arrBlocks last ih =>
      rw [rebuiltDag_concat, MainDag.getBlockInfo_addBlock] at h
      split at h
      next heq =>
        cases h
        exact ⟨last, by simp, heq.symm, rfl⟩
      next =>
        obtain ⟨block, hblock, hrest⟩ := ih h
        exact ⟨block, List.mem_append_left _ hblock, hrest⟩

theorem exists_info_rebuiltDag (hblock : block ∈ arrBlocks) :
    ∃ info, (rebuiltDag F arrBlocks).getBlockInfo (F.headerHash block.header) = some info := by
  induction arrBlocks using List.reverseRecOn with
  | nil => cases hblock
  | append_singleton arrBlocks last ih =>
      rw [rebuiltDag_concat, MainDag.getBlockInfo_addBlock]
      split
      next => exact ⟨_, rfl⟩
      next hne =>
        rcases List.mem_append.mp hblock with hold | hlast
        · exact ih hold
        · obtain rfl := List.mem_singleton.mp hlast
          exact absurd rfl hne

theorem mem_edges_rebuiltDag {child : Hash} :
    (child, parent) ∈ (rebuiltDag F arrBlocks).edges ↔
      ∃ block ∈ arrBlocks, F.headerHash block.header = child ∧
        child ≠ F.constants.GENESIS_BLOCK ∧ parent ∈ block.header.parentHashes := by
  induction arrBlocks using List.reverseRecOn with
  | nil => simp [rebuiltDag, MainDag.empty]
  | append_singleton arrBlocks last ih =>
      rw [rebuiltDag_concat, MainDag.addBlock]
      simp only [List.mem_append, List.mem_singleton, or_and_right, exists_or, exists_eq_left]
      rw [← ih]
      change _ ∈ ite (F.headerHash last.header = F.constants.GENESIS_BLOCK) _ _ ↔ _
      split
      next hgenesis =>
        refine ⟨.inl, fun h => h.resolve_right ?_⟩
        rintro ⟨rfl, hne, -⟩
        exact hne hgenesis
      next hne =>
        rw [List.mem_append, List.mem_map]
        constructor
        · rintro (⟨p, hp, heq⟩ | hold)
          · cases heq
            exact .inr ⟨rfl, hne, hp⟩
          · exact .inl hold
        · rintro (hold | ⟨rfl, -, hp⟩)
          · exact .inr hold
          · exact .inl ⟨parent, hp, rfl⟩

/-- The children of a block in the graph. -/
theorem mem_getChildren_rebuiltDag (hstored : Stored F arrBlocks s)
    (hdescend : Descend F arrBlocks) {child : Hash} :
    child ∈ (rebuiltDag F arrBlocks).getChildren parent ↔ Parent F arrBlocks parent child := by
  have hchild : child ∈ (rebuiltDag F arrBlocks).getChildren parent ↔
      (child, parent) ∈ (rebuiltDag F arrBlocks).edges := by
    simp [MainDag.getChildren]
  rw [hchild, mem_edges_rebuiltDag]
  constructor
  · rintro ⟨block, hblock, rfl, -, hparent⟩
    exact ⟨block, hblock, (hstored.hash_eq hblock).symm, hparent⟩
  · rintro ⟨block, hblock, rfl, hparent⟩
    refine ⟨block, hblock, hstored.hash_eq hblock, fun hgenesis => ?_, hparent⟩
    have hparents : Parent F arrBlocks parent (block.hash F) := ⟨block, hblock, rfl, hparent⟩
    exact hdescend.no_parents (hgenesis ▸ hparents)

theorem getBlockInfo_of_mem (hstored : Stored F arrBlocks s) (hblock : block ∈ arrBlocks) :
    (rebuiltDag F arrBlocks).getBlockInfo (block.hash F) = some { header := block.header } := by
  obtain ⟨info, hinfo⟩ := exists_info_rebuiltDag (F := F) hblock
  obtain ⟨block', hblock', hhash, rfl⟩ := getBlockInfo_rebuiltDag hinfo
  rw [hstored.hash_eq hblock, hstored.hash_eq hblock'] at hhash
  rw [hstored.hash_eq hblock] at hinfo
  rw [hinfo, hstored.unique hblock' hblock hhash]

theorem advanced_beforePass (F : Factory) (arrBlocks : List Block)
    (hpending : ∀ hash, hash ∉ s.pendingBlocks.dag) :
    BlockNode.Advanced F (beforePass F s arrBlocks) [] (beforePass F s arrBlocks) where
  blocks := rfl
  edges := rfl
  info hash info hinfo := ⟨info.flags, hinfo⟩
  noInfo hash hinfo := hinfo
  keyed hash info hinfo := by
    obtain ⟨block, -, hhash, rfl⟩ := getBlockInfo_rebuiltDag hinfo
    exact hhash
  good hash info hinfo := by
    obtain ⟨block, -, -, rfl⟩ := getBlockInfo_rebuiltDag hinfo
    rfl
  acyclic hash hcycle := by
    cases hcycle with
    | single hedge => exact hpending _ hedge.mem_left
    | tail _ hedge => exact hpending _ hedge.mem_left
  executed hash := by
    rw [BlockNode.isBlockExecuted_iff]
    refine iff_of_false ?_ List.not_mem_nil
    rintro (hfinal | hmem)
    · cases hinfo : (rebuiltDag F arrBlocks).getBlockInfo hash with
      | none =>
          change ((rebuiltDag F arrBlocks).getBlockInfo hash).any _ = true at hfinal
          rw [hinfo] at hfinal
          cases hfinal
      | some info =>
          obtain ⟨block, -, -, rfl⟩ := getBlockInfo_rebuiltDag hinfo
          change ((rebuiltDag F arrBlocks).getBlockInfo hash).any _ = true at hfinal
          rw [hinfo] at hfinal
          cases hfinal
    · exact hpending hash hmem

theorem ExecutedInOrder.advanced {start : BlockNode} (hdescend : Descend F arrBlocks)
    (hstart : BlockNode.Advanced F start [] start)
    (h : ExecutedInOrder F J vm arrBlocks start executed t) :
    BlockNode.Advanced F start executed t := by
  induction h with
  | start => exact hstart
  | @next executed s s' block _ hblock hnew _ hexecutes ih =>
      refine ih.next hnew (fun hself => ?_) hexecutes
      exact hdescend.acyclic _ (.single ⟨block, hblock, rfl, hself⟩)

theorem ExecutedInOrder.parents {start : BlockNode}
    (h : ExecutedInOrder F J vm arrBlocks start executed t) (hmem : hash ∈ executed)
    (hparent : Parent F arrBlocks parent hash) : parent ∈ executed := by
  induction h with
  | start => cases hmem
  | next _ _ _ hparents _ ih =>
      rcases List.mem_append.mp hmem with hold | hlast
      · exact List.mem_append_left _ (ih hold)
      · obtain rfl := List.mem_singleton.mp hlast
        exact List.mem_append_left _ (hparents parent hparent)

/-! ### One turn of the pass -/

section Turn

variable (hgood : ∀ hash info, t.mainDag.getBlockInfo hash = some info → info.isBad = false)

include hgood

theorem not_isBad (hash : Hash) : (t.mainDag.getBlockInfo hash).any (·.isBad) = false := by
  cases hinfo : t.mainDag.getBlockInfo hash with
  | none => rfl
  | some info => exact hgood hash info hinfo

theorem canExecuteFrom_eq (parentHashes : List Hash) :
    t.canExecuteFrom parentHashes =
      .ok (decide (∀ p ∈ parentHashes, t.isBlockExecuted p = true)) := by
  induction parentHashes with
  | nil => simp [BlockNode.canExecuteFrom]
  | cons p rest ih =>
      rw [BlockNode.canExecuteFrom, not_isBad hgood, if_neg Bool.false_ne_true]
      split
      next hexecuted =>
        rw [ih]
        simp [hexecuted]
      next hnot => simp [hnot]

theorem queueBlockExec_requeued (infos : FinMap Hash BlockInfo) (queue unknown : List Hash)
    (executed : List Hash) (hash : Hash) :
    ∃ infos', queueBlockExec F none ⟨t.requeued infos queue unknown, false, executed⟩ hash =
      ⟨t.requeued infos' (queue.insert hash) unknown, false, executed⟩ := by
  have hnot := not_isBad hgood hash
  unfold queueBlockExec BlockNode.queueBlockExec
  rw [if_neg Bool.false_ne_true]
  cases hinfo : t.mainDag.getBlockInfo hash with
  | none =>
      refine ⟨infos, ?_⟩
      have hsame : (t.requeued infos queue unknown).mainDag.getBlockInfo hash = none := hinfo
      simp only [hsame, Option.elim_none, Option.any_none, Bool.false_eq_true, if_false]
      rfl
  | some info =>
      refine ⟨infos.insert (info.getHash F) info, ?_⟩
      have hsame : (t.requeued infos queue unknown).mainDag.getBlockInfo hash = some info := hinfo
      simp only [hsame, Option.elim_some, Option.any_some, hgood hash info hinfo,
        Bool.false_eq_true, if_false]
      rfl

theorem foldl_queueBlockExec_requeued (hashes : List Hash) (infos : FinMap Hash BlockInfo)
    (queue unknown executed : List Hash) :
    ∃ infos' queue', hashes.foldl (fun r hash => queueBlockExec F none r hash)
        ⟨t.requeued infos queue unknown, false, executed⟩ =
          ⟨t.requeued infos' queue' unknown, false, executed⟩ ∧
      ∀ hash, hash ∈ queue' ↔ hash ∈ queue ∨ hash ∈ hashes := by
  induction hashes generalizing infos queue with
  | nil => exact ⟨infos, queue, rfl, by simp⟩
  | cons first rest ih =>
      obtain ⟨infos₁, hfirst⟩ := queueBlockExec_requeued hgood infos queue unknown executed first
      obtain ⟨infos', queue', hrest, hmem⟩ := ih infos₁ (queue.insert first)
      refine ⟨infos', queue', ?_, fun hash => ?_⟩
      · rw [List.foldl_cons, hfirst, hrest]
      · rw [hmem, List.mem_insert_iff, List.mem_cons]
        tauto

end Turn

/-- The backlog of a node that is rebuilt. -/
def backlog (r : RebuildNode) : Worklist.Backlog Hash :=
  ⟨r.node.mapBlocksToExec.toFinset, r.executed⟩

/-- The node in the pass: some blocks were executed, and others are queued. -/
def inPass (t : BlockNode) (infos : FinMap Hash BlockInfo) (queue unknown executed : List Hash) :
    RebuildNode :=
  ⟨t.requeued infos queue unknown, false, executed⟩

section Cases

variable (vm infos queue unknown executed)

theorem take_of_processBlock {r : RebuildNode}
    (hinfo : ∃ flags, t.mainDag.getBlockInfo (block.hash F) = some ⟨block.header, flags⟩)
    (hgood : ∀ hash info, t.mainDag.getBlockInfo hash = some info → info.isBad = false)
    (hhash : F.headerHash block.header = block.hash F)
    (hbody : t.disk.getBlock (block.hash F) = .ok block)
    (h : processBlock F J vm none (inPass t infos queue unknown executed) (block.hash F)
      block.parentHashes (.ok block) = .ok r) :
    take F J vm none (inPass t infos queue unknown executed) (block.hash F) = r := by
  obtain ⟨flags, hinfo⟩ := hinfo
  have hnot := hgood _ _ hinfo
  have hsame : (inPass t infos queue unknown executed).node.mainDag.getBlockInfo (block.hash F) =
      some ⟨block.header, flags⟩ := hinfo
  have hread : (inPass t infos queue unknown executed).node.disk.getBlock (block.hash F) =
      .ok block := hbody
  have hkey : BlockInfo.getHash F ⟨block.header, flags⟩ = block.hash F := hhash
  have hparents : (BlockInfo.mk block.header flags).header.parentHashes = block.parentHashes := rfl
  unfold take
  rw [hsame]
  dsimp only
  rw [hnot, if_neg Bool.false_ne_true, hkey, hread, tryProcessBlock, hkey, hparents, h]

/-- An entry whose block was executed is dropped. -/
theorem processBlock_again
    (hcan : (t.requeued infos queue unknown).canExecuteBlock F hash block.parentHashes = .ok true)
    (hexecuted : t.isBlockExecuted hash = true) :
    processBlock F J vm none (inPass t infos queue unknown executed) hash block.parentHashes
      (.ok block) = .ok (inPass t infos queue unknown executed) := by
  have hsame : (inPass t infos queue unknown executed).node.canExecuteBlock F hash
      block.parentHashes = .ok true := hcan
  have hdone : (inPass t infos queue unknown executed).node.isBlockExecuted hash = true := hexecuted
  unfold processBlock
  rw [hsame]
  dsimp only
  rw [hdone, if_pos rfl]

/-- A block that can be executed is executed, and its children are queued. -/
theorem processBlock_run
    (hcan : (t.requeued infos queue unknown).canExecuteBlock F (block.hash F)
      block.parentHashes = .ok true)
    (hnew : t.isBlockExecuted (block.hash F) = false) (hexecutes : Executes F J vm block t t')
    (hgood : ∀ hash info, t'.mainDag.getBlockInfo hash = some info → info.isBad = false) :
    ∃ infos' queue', processBlock F J vm none (inPass t infos queue unknown executed)
        (block.hash F) block.parentHashes (.ok block) =
          .ok (inPass t' infos' queue' unknown (executed ++ [block.hash F])) ∧
      ∀ hash, hash ∈ queue' ↔ hash ∈ queue ∨ hash ∈ t'.mainDag.getChildren (block.hash F) := by
  obtain ⟨patchState, result, pendingBlocks, hexec, hfinality, hrollback, haccept⟩ := hexecutes
  obtain ⟨infos₁, haccepted⟩ :=
    BlockNode.acceptBlock_requeued infos queue unknown hfinality hrollback haccept
  obtain ⟨infos', queue', hfold, hmem⟩ := foldl_queueBlockExec_requeued (F := F) hgood
    (t'.mainDag.getChildren (block.hash F)) infos₁ queue unknown (executed ++ [block.hash F])
  refine ⟨infos', queue', ?_, hmem⟩
  have hsame : (inPass t infos queue unknown executed).node.canExecuteBlock F (block.hash F)
      block.parentHashes = .ok true := hcan
  have hfresh : (inPass t infos queue unknown executed).node.isBlockExecuted (block.hash F) =
      false := hnew
  have hrun : execBlock F J vm (inPass t infos queue unknown executed) block =
      .ok (inPass t' infos₁ queue unknown (executed ++ [block.hash F])) := by
    have hchain : (inPass t infos queue unknown executed).node.chain.execBlock F
        (some block.getHeight) (vm block) block = .ok (some patchState) := hexec
    unfold execBlock
    dsimp only
    rw [hchain]
    dsimp only
    rw [hfresh, if_neg Bool.false_ne_true]
    have haccept' : (inPass t infos queue unknown executed).node.acceptBlock F J block patchState =
        .ok (t'.requeued infos₁ queue unknown) := haccepted
    rw [haccept']
    rfl
  unfold processBlock
  rw [hsame]
  dsimp only
  rw [hfresh, if_neg Bool.false_ne_true, hrun]
  exact congrArg Except.ok hfold

/-- A block that has to wait queues the parents that it waits for. -/
theorem processBlock_wait
    (hcan : (t.requeued infos queue unknown).canExecuteBlock F (block.hash F)
      block.parentHashes = .ok false)
    (hgood : ∀ hash info, t.mainDag.getBlockInfo hash = some info → info.isBad = false)
    (hknown : ∀ p ∈ block.parentHashes, (t.mainDag.getBlockInfo p).isSome = true) :
    ∃ infos' queue' unknown', processBlock F J vm none (inPass t infos queue unknown executed)
        (block.hash F) block.parentHashes (.ok block) =
          .ok (inPass t infos' queue' unknown' executed) ∧
      ∀ hash, hash ∈ queue' ↔ hash = block.hash F ∨ hash ∈ queue ∨
        hash ∈ block.parentHashes ∧ t.isBlockExecuted hash = false := by
  obtain ⟨infos₁, hself⟩ := queueBlockExec_requeued (F := F) hgood infos queue unknown executed
    (block.hash F)
  have hmine : queueBlockExec F none (inPass t infos queue unknown executed) (block.hash F) =
      inPass t infos₁ (queue.insert (block.hash F)) unknown executed := hself
  have hsame : (inPass t infos queue unknown executed).node.canExecuteBlock F (block.hash F)
      block.parentHashes = .ok false := hcan
  have hexec (hash : Hash) : hash ∈ (inPass t infos₁ (queue.insert (block.hash F)) unknown
      executed).node.parentsToExec block.parentHashes ↔
        hash ∈ block.parentHashes ∧ t.isBlockExecuted hash = false := by
    rw [BlockNode.parentsToExec, List.mem_filter]
    refine and_congr_right fun hp => ?_
    have hthere : (inPass t infos₁ (queue.insert (block.hash F)) unknown
        executed).node.isBlockKnown hash = true := by
      change ((t.mainDag.getBlockInfo hash).isSome || _) = true
      rw [hknown hash hp, Bool.true_or]
    have hstate : (inPass t infos₁ (queue.insert (block.hash F)) unknown
        executed).node.isBlockExecuted hash = t.isBlockExecuted hash := rfl
    rw [hthere, hstate]
    simp
  unfold processBlock
  rw [hsame]
  dsimp only
  rw [hmine]
  obtain ⟨infos', queue', hfold, hmem⟩ := foldl_queueBlockExec_requeued (F := F) hgood
    ((inPass t infos₁ (queue.insert (block.hash F)) unknown executed).node.parentsToExec
      block.parentHashes) infos₁ (queue.insert (block.hash F))
    (unknown ∪ ((inPass t infos₁ (queue.insert (block.hash F)) unknown
      executed).node.parentsToRequest block.parentHashes).filter fun hash =>
        hash ∉ t.disk.setBlocksBad) executed
  refine ⟨infos', queue', _, congrArg Except.ok hfold, fun hash => ?_⟩
  rw [hmem, hexec, List.mem_insert_iff, or_assoc]

end Cases

theorem exists_turn (hstored : Stored F arrBlocks s) (hdescend : Descend F arrBlocks)
    (hpending : ∀ hash, hash ∉ s.pendingBlocks.dag)
    (hexecute : ExecuteInEveryOrder F J vm arrBlocks (beforePass F s arrBlocks))
    (h : ExecutedInOrder F J vm arrBlocks (beforePass F s arrBlocks) executed t)
    (hblock : block ∈ arrBlocks) (infos : FinMap Hash BlockInfo) (queue unknown : List Hash) :
    ∃ t' infos' queue' unknown' executed',
      (take F J vm none (inPass t infos queue unknown executed) (block.hash F)).deleteFromQueue
        (block.hash F) = inPass t' infos' queue' unknown' executed' ∧
      ExecutedInOrder F J vm arrBlocks (beforePass F s arrBlocks) executed' t' ∧
      Worklist.Turn (Parent F arrBlocks) (inPass t infos queue unknown executed).backlog
        (block.hash F) (inPass t' infos' queue' unknown' executed').backlog := by
  have hstart := advanced_beforePass (s := s) F arrBlocks hpending
  have hadvanced := h.advanced hdescend hstart
  have hparent {p : Hash} : Parent F arrBlocks p (block.hash F) ↔ p ∈ block.parentHashes := by
    constructor
    · rintro ⟨block', hblock', heq, hp⟩
      rwa [hstored.unique hblock hblock' heq.symm]
    · exact fun hp => ⟨block, hblock, rfl, hp⟩
  have hinfo {b : Block} (hb : b ∈ arrBlocks) :
      ∃ flags, t.mainDag.getBlockInfo (b.hash F) = some ⟨b.header, flags⟩ :=
    hadvanced.info _ _ (getBlockInfo_of_mem hstored hb)
  have hbody : t.disk.getBlock (block.hash F) = .ok block := by
    have hread := hstored.body block hblock
    unfold BlockStore.getBlock at hread ⊢
    rw [hadvanced.blocks]
    exact hread
  have hcan : (t.requeued infos queue unknown).canExecuteBlock F (block.hash F)
      block.parentHashes = .ok (decide (∀ p ∈ block.parentHashes, t.isBlockExecuted p = true)) := by
    unfold BlockNode.canExecuteBlock
    split
    next hgenesis =>
      have hnone (p : Hash) (hp : p ∈ block.parentHashes) : False :=
        hdescend.no_parents (hgenesis ▸ hparent.mpr hp)
      rw [decide_eq_true fun p hp => (hnone p hp).elim]
    next => exact canExecuteFrom_eq (t := t.requeued infos queue unknown) hadvanced.good _
  have htake {r : RebuildNode} := take_of_processBlock (J := J) (r := r) vm infos queue unknown
    executed (hinfo hblock) hadvanced.good (hstored.hash_eq hblock) hbody
  by_cases hready : ∀ p ∈ block.parentHashes, t.isBlockExecuted p = true
  · rw [decide_eq_true hready] at hcan
    by_cases hran : block.hash F ∈ executed
    · have hexecuted := (hadvanced.executed _).mpr hran
      refine ⟨t, infos, queue.filter (· ≠ block.hash F), unknown, executed, ?_, h, ?_⟩
      · rw [htake (processBlock_again vm infos queue unknown executed hcan hexecuted)]
        rfl
      · refine .again _ hran fun y => ?_
        simp [backlog, inPass, BlockNode.requeued, and_comm]
    · have hnew : t.isBlockExecuted (block.hash F) = false :=
        Bool.eq_false_iff.mpr fun hexecuted => hran ((hadvanced.executed _).mp hexecuted)
      have hparents (p : Hash) (hp : Parent F arrBlocks p (block.hash F)) : p ∈ executed :=
        (hadvanced.executed p).mp (hready p (hparent.mp hp))
      obtain ⟨t', hexecutes⟩ := hexecute executed t h block hblock hran hparents
      have hnext := h.next hblock hran hparents hexecutes
      have hadvanced' := hnext.advanced hdescend hstart
      obtain ⟨infos', queue', hprocess, hmem⟩ := processBlock_run vm infos queue unknown
        executed hcan hnew hexecutes hadvanced'.good
      refine ⟨t', infos', queue'.filter (· ≠ block.hash F), unknown, _, ?_, hnext, ?_⟩
      · rw [htake hprocess]
        rfl
      · refine .run _ hran hparents fun y => ?_
        have hchild : y ∈ t'.mainDag.getChildren (block.hash F) ↔
            Parent F arrBlocks (block.hash F) y := by
          rw [MainDag.getChildren, hadvanced'.edges]
          exact mem_getChildren_rebuiltDag hstored hdescend
        simp only [backlog, inPass, BlockNode.requeued, List.mem_toFinset, List.mem_filter, hmem,
          hchild, decide_eq_true_eq]
        rw [and_comm]
  · rw [decide_eq_false hready] at hcan
    have hknown (p : Hash) (hp : p ∈ block.parentHashes) :
        (t.mainDag.getBlockInfo p).isSome = true := by
      obtain ⟨b, hb, rfl⟩ := hdescend.closed p _ (hparent.mpr hp)
      obtain ⟨flags, hflags⟩ := hinfo hb
      rw [hflags]
      rfl
    obtain ⟨infos', queue', unknown', hprocess, hmem⟩ := processBlock_wait (J := J) vm infos
      queue unknown executed hcan hadvanced.good hknown
    refine ⟨t, infos', queue'.filter (· ≠ block.hash F), unknown', executed, ?_, h, ?_⟩
    · rw [htake hprocess]
      rfl
    · have hwaits (p : Hash) : t.isBlockExecuted p = false ↔ p ∉ executed := by
        rw [← hadvanced.executed, Bool.not_eq_true]
      push Not at hready
      obtain ⟨p, hp, hnot⟩ := hready
      have hmissing : Parent F arrBlocks p (block.hash F) ∧ p ∉ executed :=
        ⟨hparent.mpr hp, (hwaits p).mp (Bool.eq_false_iff.mpr hnot)⟩
      refine .wait _ (fun hran => ?_) ⟨p, hmissing⟩ fun y => ?_
      · exact hmissing.2 (h.parents hran hmissing.1)
      · simp only [backlog, inPass, BlockNode.requeued, List.mem_toFinset, List.mem_filter, hmem,
          hparent, hwaits, decide_eq_true_eq]
        tauto

/-! ### The whole pass -/

/-- The hashes of the blocks. -/
def vertices (F : Factory) (arrBlocks : List Block) : Finset Hash :=
  (arrBlocks.map fun block => block.hash F).toFinset

theorem mem_vertices : hash ∈ vertices F arrBlocks ↔ ∃ block ∈ arrBlocks, block.hash F = hash := by
  simp [vertices]

/-- A node in the middle of the pass. -/
structure Passing (F : Factory) (J : Dagjs) (vm : Block → Transaction → Behaviour)
    (arrBlocks : List Block) (start : BlockNode) (r : RebuildNode) : Prop where
  reached : ∃ t infos queue unknown executed, r = inPass t infos queue unknown executed ∧
    ExecutedInOrder F J vm arrBlocks start executed t
  sound : Worklist.Sound (vertices F arrBlocks) (Parent F arrBlocks) r.backlog

theorem exists_blockProcessor {rank : Hash → ℕ} (hstored : Stored F arrBlocks s)
    (hdescend : Descend F arrBlocks) (hpending : ∀ hash, hash ∉ s.pendingBlocks.dag)
    (hexecute : ExecuteInEveryOrder F J vm arrBlocks (beforePass F s arrBlocks))
    (hranked : Worklist.Ranked (vertices F arrBlocks) (Parent F arrBlocks) rank)
    (r : RebuildNode) (hr : Passing F J vm arrBlocks (beforePass F s arrBlocks) r) :
    ∃ r', (∃ n, ∀ fuel, n ≤ fuel → blockProcessor F J vm none fuel r = some r') ∧
      Passing F J vm arrBlocks (beforePass F s arrBlocks) r' ∧ r'.node.mapBlocksToExec = [] := by
  induction r using (InvImage.wf backlog (Worklist.wellFounded_turn hranked)).induction with
  | _ r ih =>
      cases hlast : r.node.mapBlocksToExec.getLast? with
      | none =>
          refine ⟨r, ⟨1, fun fuel hfuel => ?_⟩, hr, List.getLast?_eq_none_iff.mp hlast⟩
          obtain ⟨fuel, rfl⟩ := Nat.exists_eq_add_of_le' hfuel
          rw [blockProcessor, hlast]
      | some hash =>
          have hqueued : hash ∈ r.backlog.queue :=
            List.mem_toFinset.mpr (List.mem_of_getLast? hlast)
          obtain ⟨⟨t, infos, queue, unknown, executed, rfl, hreached⟩, hsound⟩ := hr
          obtain ⟨block, hblock, rfl⟩ := mem_vertices.mp (hsound.queue_subset hash hqueued)
          obtain ⟨t', infos', queue', unknown', executed', hnext, hreached', hturn⟩ :=
            exists_turn hstored hdescend hpending hexecute hreached hblock infos queue unknown
          obtain ⟨r', ⟨n, hn⟩, hpassing, hempty⟩ := ih _ ⟨hsound, _, hqueued, hturn⟩
            ⟨⟨t', infos', queue', unknown', executed', rfl, hreached'⟩,
              hsound.turn hranked hqueued hturn⟩
          refine ⟨r', ⟨n + 1, fun fuel hfuel => ?_⟩, hpassing, hempty⟩
          obtain ⟨fuel, rfl⟩ := Nat.exists_eq_add_of_le' (Nat.le_of_add_left_le hfuel)
          rw [blockProcessor, hlast]
          dsimp only
          rw [hnext]
          exact hn fuel (Nat.le_of_add_le_add_right hfuel)

/-- Rebuilding comes to an end, and has then executed each block once and after its
parents. -/
theorem rebuildDb_executesOnce (F : Factory) (J : Dagjs) (vm : Block → Transaction → Behaviour)
    (arrBlocks : List Block) (s : BlockNode) (hstored : Stored F arrBlocks s)
    (hdescend : Descend F arrBlocks) (hpending : ∀ hash, hash ∉ s.pendingBlocks.dag)
    (hqueue : s.mapBlocksToExec = [])
    (hexecute : ExecuteInEveryOrder F J vm arrBlocks (beforePass F s arrBlocks)) :
    ∃ r, (∃ n, ∀ fuel, n ≤ fuel → rebuildDb F J vm none fuel arrBlocks s = some (.ok r)) ∧
      ExecutedOnce F arrBlocks r := by
  have hmem (x y : Hash) (hparent : Parent F arrBlocks y x) :
      y ∈ vertices F arrBlocks ∧ x ∈ vertices F arrBlocks := by
    refine ⟨mem_vertices.mpr (hdescend.closed y x hparent), mem_vertices.mpr ?_⟩
    obtain ⟨block, hblock, heq, -⟩ := hparent
    exact ⟨block, hblock, heq⟩
  obtain ⟨rank, hranked⟩ := Worklist.exists_ranked hmem hdescend.acyclic
  obtain ⟨genesis, hgenesis, hhash⟩ := hdescend.genesis
  have hinfo := getBlockInfo_of_mem hstored hgenesis
  rw [hhash] at hinfo
  have hfirst : (beforePass F s arrBlocks).mapBlocksToExec = [F.constants.GENESIS_BLOCK] := by
    rw [beforePass, hqueue]
    rfl
  have hsound : Worklist.Sound (vertices F arrBlocks) (Parent F arrBlocks)
      (backlog ⟨beforePass F s arrBlocks, false, []⟩) := by
    refine ⟨fun x hx => ?_, fun x hx => absurd hx List.not_mem_nil, List.nodup_nil,
      fun before x after heq => ?_, fun x hx _ hready => ?_⟩
    · rw [backlog, hfirst] at hx
      obtain rfl : x = F.constants.GENESIS_BLOCK := by simpa using hx
      exact mem_vertices.mpr ⟨genesis, hgenesis, hhash⟩
    · cases before <;> cases heq
    · -- all but genesis have a parent, which was not executed yet
      obtain ⟨block, hblock, rfl⟩ := mem_vertices.mp hx
      rw [backlog, hfirst]
      cases Relation.ReflTransGen.cases_tail (hdescend.descend block hblock) with
      | inl heq => simp [heq]
      | inr hlast =>
          obtain ⟨p, -, hp⟩ := hlast
          exact absurd (hready p hp) List.not_mem_nil
  obtain ⟨r, ⟨n, hn⟩, hpassing, hempty⟩ := exists_blockProcessor hstored hdescend hpending hexecute
    hranked ⟨beforePass F s arrBlocks, false, []⟩ ⟨⟨_, _, _, _, _, rfl, .start⟩, hsound⟩
  have hran (x : Hash) : x ∈ r.executed ↔ ∃ block ∈ arrBlocks, block.hash F = x := by
    rw [← mem_vertices]
    refine ⟨hpassing.sound.ran_subset x, hpassing.sound.mem_ran hranked ?_⟩
    rw [backlog, hempty]
    rfl
  refine ⟨r, ⟨n, fun fuel hfuel => ?_⟩, hpassing.sound.nodup, hran, fun block hblock => ?_,
    hpassing.sound.parentsFirst, hempty⟩
  · have hnone : decide (some F.constants.GENESIS_BLOCK = none) = false := by simp
    rw [rebuildDb, hinfo]
    dsimp only
    rw [hnone, hn fuel hfuel]
    rfl
  · obtain ⟨t, infos, queue, unknown, executed, rfl, hreached⟩ := hpassing.reached
    have hadvanced := hreached.advanced hdescend (advanced_beforePass F arrBlocks hpending)
    exact (hadvanced.executed _).mpr ((hran _).mpr ⟨block, hblock, rfl⟩)

/-! ### Two blocks in storage -/

/-- Whether blocks execute one after another. -/
def executesAll (F : Factory) (J : Dagjs) (vm : Block → Transaction → Behaviour) :
    List Block → BlockNode → Bool
  | [], _ => true
  | block :: rest, s =>
      match s.chain.execBlock F (some block.getHeight) (vm block) block with
      | .error _ | .ok none => false
      | .ok (some patchState) =>
          match (s.pendingBlocks.addBlock F block patchState).checkFinality F J (block.hash F)
              (s.disk.storage.getConciliumsCount F) with
          | .error _ => false
          | .ok (result, _) =>
              result.all (·.setBlocksToRollback = []) &&
                match s.acceptBlock F J block patchState with
                | .error _ => false
                | .ok s' => executesAll F J vm rest s'

theorem exists_executes {rest : List Block} (h : executesAll F J vm (block :: rest) s = true) :
    ∃ s', Executes F J vm block s s' ∧ executesAll F J vm rest s' = true := by
  rw [executesAll] at h
  split at h
  next => cases h
  next => cases h
  next patchState hexec =>
    split at h
    next => cases h
    next result pendingBlocks hfinality =>
      rw [Bool.and_eq_true] at h
      obtain ⟨hrollback, h⟩ := h
      split at h
      next => cases h
      next s' haccept =>
        refine ⟨s', ⟨patchState, result, pendingBlocks, hexec, hfinality, ?_, haccept⟩, h⟩
        intro r hr
        rw [Option.mem_def] at hr
        subst hr
        simpa using hrollback

theorem Executes.unique {s₁ s₂ : BlockNode} (h₁ : Executes F J vm block s s₁)
    (h₂ : Executes F J vm block s s₂) : s₁ = s₂ := by
  obtain ⟨patchState, -, -, hexec, -, -, haccept⟩ := h₁
  obtain ⟨patchState', -, -, hexec', -, -, haccept'⟩ := h₂
  rw [hexec] at hexec'
  cases hexec'
  rw [haccept] at haccept'
  exact Except.ok.inj haccept'

open BlockNode (genesisBlock ownGenesis unsignedBlock)

/-- A block as it is stored, with the Merkle root of its transactions. -/
def storedBlock (block : Block) : Block :=
  { block with header := block.hashedHeader ownGenesis }

/-- The blocks as they are read, genesis last. -/
def storedBlocks : List Block := [storedBlock unsignedBlock, storedBlock genesisBlock]

/-- A node that has them on disk and knows nothing else. -/
def droppedNode : BlockNode :=
  { BlockNode.empty with
    disk := { BlockStore.empty with
      blocks := storedBlocks.foldl
        (fun blocks block => blocks.insert (block.hash ownGenesis) block) ∅ } }

/-- There are no contracts. -/
def noVm (_ : Block) : Transaction → Behaviour := ChainState.noContracts

theorem executesAll_storedBlocks : executesAll ownGenesis Dagjs.sample noVm
    [storedBlock genesisBlock, storedBlock unsignedBlock]
    (beforePass ownGenesis droppedNode storedBlocks) = true := by
  decide +kernel

theorem parent_storedBlocks : Parent ownGenesis storedBlocks parent hash ↔
    hash = (storedBlock unsignedBlock).hash ownGenesis ∧
      parent = (storedBlock genesisBlock).hash ownGenesis := by
  have hupper : (storedBlock unsignedBlock).parentHashes =
    [(storedBlock genesisBlock).hash ownGenesis] := by decide +kernel
  have hlower : (storedBlock genesisBlock).parentHashes = [] := by decide +kernel
  simp only [Parent, storedBlocks, List.mem_cons, List.not_mem_nil, or_false]
  constructor
  · rintro ⟨block, rfl | rfl, rfl, hparent⟩
    · rw [hupper] at hparent
      exact ⟨rfl, List.mem_singleton.mp hparent⟩
    · rw [hlower] at hparent
      cases hparent
  · rintro ⟨rfl, rfl⟩
    exact ⟨_, .inl rfl, rfl, hupper ▸ List.mem_singleton_self _⟩

theorem hash_storedBlock_ne : (storedBlock unsignedBlock).hash ownGenesis ≠
    (storedBlock genesisBlock).hash ownGenesis := by
  decide +kernel

theorem stored_storedBlocks : Stored ownGenesis storedBlocks droppedNode where
  body := by decide +kernel
  header := by decide +kernel

theorem descend_storedBlocks : Descend ownGenesis storedBlocks where
  genesis := ⟨storedBlock genesisBlock, by decide +kernel, by decide +kernel⟩
  closed parent hash hparent := by
    obtain ⟨-, rfl⟩ := parent_storedBlocks.mp hparent
    exact ⟨storedBlock genesisBlock, by decide +kernel, rfl⟩
  descend block hblock := by
    have hgenesis : (storedBlock genesisBlock).hash ownGenesis =
      ownGenesis.constants.GENESIS_BLOCK := by decide +kernel
    rw [← hgenesis]
    simp only [storedBlocks, List.mem_cons, List.not_mem_nil, or_false] at hblock
    rcases hblock with rfl | rfl
    · exact .single (parent_storedBlocks.mpr ⟨rfl, rfl⟩)
    · exact .refl
  acyclic hash hcycle := by
    have hends {x y : Hash} (h : Relation.TransGen (Parent ownGenesis storedBlocks) x y) :
        y = (storedBlock unsignedBlock).hash ownGenesis ∧
          x = (storedBlock genesisBlock).hash ownGenesis := by
      induction h with
      | single hparent => exact parent_storedBlocks.mp hparent
      | tail _ hparent ih => exact ⟨(parent_storedBlocks.mp hparent).1, ih.2⟩
    obtain ⟨hupper, hlower⟩ := hends hcycle
    exact hash_storedBlock_ne (hupper.symm.trans hlower)

/-- Genesis comes first, and then the other block. -/
theorem executeInEveryOrder_storedBlocks : ExecuteInEveryOrder ownGenesis Dagjs.sample noVm
    storedBlocks (beforePass ownGenesis droppedNode storedBlocks) := by
  obtain ⟨s₁, hfirst, hrest⟩ := exists_executes executesAll_storedBlocks
  obtain ⟨s₂, hsecond, -⟩ := exists_executes hrest
  have hreached {executed : List Hash} {s : BlockNode}
      (h : ExecutedInOrder ownGenesis Dagjs.sample noVm storedBlocks
        (beforePass ownGenesis droppedNode storedBlocks) executed s) :
      executed = [] ∧ s = beforePass ownGenesis droppedNode storedBlocks ∨
        executed = [(storedBlock genesisBlock).hash ownGenesis] ∧ s = s₁ ∨
          ∀ block ∈ storedBlocks, block.hash ownGenesis ∈ executed := by
    induction h with
    | start => exact .inl ⟨rfl, rfl⟩
    | @next executed s s' block _ hblock hnew hparents hexecutes ih =>
        simp only [storedBlocks, List.mem_cons, List.not_mem_nil, or_false] at hblock
        rcases ih with ⟨rfl, rfl⟩ | ⟨rfl, rfl⟩ | hall
        · rcases hblock with rfl | rfl
          · cases hparents _ (parent_storedBlocks.mpr ⟨rfl, rfl⟩)
          · exact .inr (.inl ⟨rfl, hexecutes.unique hfirst⟩)
        · rcases hblock with rfl | rfl
          · exact .inr (.inr (by simp [storedBlocks]))
          · exact absurd (List.mem_singleton_self _) hnew
        · exact .inr (.inr fun other hother => List.mem_append_left _ (hall other hother))
  intro executed s h block hblock hnew hparents
  rcases hreached h with ⟨rfl, rfl⟩ | ⟨rfl, rfl⟩ | hall
  · simp only [storedBlocks, List.mem_cons, List.not_mem_nil, or_false] at hblock
    rcases hblock with rfl | rfl
    · cases hparents _ (parent_storedBlocks.mpr ⟨rfl, rfl⟩)
    · exact ⟨s₁, hfirst⟩
  · simp only [storedBlocks, List.mem_cons, List.not_mem_nil, or_false] at hblock
    rcases hblock with rfl | rfl
    · exact ⟨s₂, hsecond⟩
    · exact absurd (List.mem_singleton_self _) hnew
  · exact absurd (hall block hblock) hnew

theorem rebuildDb_executesOnce_storedBlocks :
    ∃ r, (∃ n, ∀ fuel, n ≤ fuel →
        rebuildDb ownGenesis Dagjs.sample noVm none fuel storedBlocks droppedNode = some (.ok r)) ∧
      ExecutedOnce ownGenesis storedBlocks r :=
  rebuildDb_executesOnce ownGenesis Dagjs.sample noVm storedBlocks droppedNode stored_storedBlocks
    descend_storedBlocks (fun hash => Dag.notMem_empty hash) rfl executeInEveryOrder_storedBlocks

end RebuildNode

end CilCore
