import CilCore.Lib.Postorder
import CilCore.Node.BlockProcessor
import CilCore.Node.ConciliumForks
import CilCore.Node.ParentOrder

/-!
# Restarting with pending blocks

`_rebuildPending` of `node/node.js`: when the node starts, the blocks that were pending are
read from disk and executed again, each after its pending parents, in whatever order their
hashes are listed.
-/

namespace CilCore.BlockNode

open Postorder

section

variable (F : Factory) (s : BlockNode) (vm : Block → Transaction → Behaviour)

/-- The first loop of `_rebuildPending`, which reads the blocks that are not among the last
stable ones. -/
def loadPending (setStable : List Hash) :
    List Hash → FinMap Hash Block → Except String (FinMap Hash Block)
  | [], mapBlocks => .ok mapBlocks
  | hash :: rest, mapBlocks =>
      if hash ∈ setStable then loadPending setStable rest mapBlocks
      else
        match (s.mainDag.getBlockInfo hash).or (s.disk.infos.lookup hash) with
        | none => .error "Storage: No blockInfo found by hash"
        | some bi =>
            if bi.isBad then .error "rebuildPending: found bad block in DAG!"
            else
              match s.disk.getBlock hash with
              | .error error => .error error
              | .ok block => loadPending setStable rest (mapBlocks.insert hash block)

/-- What `runBlock` does to a block whose parents were run. A block that is stable already
has no patch, and `addBlock` does not take it. -/
def execPending (block : Block) (pendingBlocks : PendingBlocksManager) :
    Except String PendingBlocksManager :=
  match ({ s.chain with pendingBlocks } : ChainState).execBlock F (some block.getHeight)
      (vm block) block with
  | .error error => .error error
  | .ok none => .error "Expected PatchDB, got null"
  | .ok (some patchBlock) => .ok (pendingBlocks.addBlock F block patchBlock)

/-- `runBlock`. -/
def runBlock (mapBlocks : FinMap Hash Block) (fuel : Nat) (hash : Hash)
    (p : Progress Hash PendingBlocksManager) :
    Option (Except String (Progress Hash PendingBlocksManager)) :=
  visit mapBlocks.lookup Block.parentHashes (s.execPending F vm) fuel hash p

/-- `_rebuildPending`. `none` when the recursion of `runBlock` is too deep for the fuel. -/
def rebuildPending (fuel : Nat) (arrLastStableHashes arrPendingBlocksHashes : List Hash) :
    Option (Except String (Progress Hash PendingBlocksManager)) :=
  match s.loadPending arrLastStableHashes arrPendingBlocksHashes ∅ with
  | .error error => some (.error error)
  | .ok mapBlocks =>
      match visitAll (s.runBlock F vm mapBlocks fuel) arrPendingBlocksHashes
          ⟨∅, [], ⟨Dag.empty, arrLastStableHashes⟩⟩ with
      | none => none
      | some (.error error) => some (.error error)
      | some (.ok p) =>
          if mapBlocks.keys.card ≠ p.finished.card then
            some (.error "rebuildPending. Failed to process all blocks!")
          else some (.ok p)

/-- A hash is listed, and is not among the last stable ones. -/
def IsPending (arrLastStableHashes arrPendingBlocksHashes : List Hash) (hash : Hash) : Prop :=
  hash ∈ arrPendingBlocksHashes ∧ hash ∉ arrLastStableHashes

/-- The pending blocks are in storage under their hashes, with infos that are not bad. -/
def StoresPending (arrLastStableHashes arrPendingBlocksHashes : List Hash) : Prop :=
  ∀ hash, IsPending arrLastStableHashes arrPendingBlocksHashes hash →
    (∃ bi, (s.mainDag.getBlockInfo hash).or (s.disk.infos.lookup hash) = some bi ∧
      bi.isBad = false) ∧
    ∃ block, s.disk.getBlock hash = .ok block ∧ block.hash F = hash

/-- A pending block is a parent of another one. -/
def PendingParent (arrLastStableHashes arrPendingBlocksHashes : List Hash)
    (parent hash : Hash) : Prop :=
  IsPending arrLastStableHashes arrPendingBlocksHashes parent ∧
    IsPending arrLastStableHashes arrPendingBlocksHashes hash ∧
      ∃ block, s.disk.getBlock hash = .ok block ∧ parent ∈ block.parentHashes

/-- What is rebuilt: each pending block was executed once and after its pending parents, and
the graph has these blocks, and the edges between them, and no others. -/
structure Rebuilt (arrLastStableHashes arrPendingBlocksHashes : List Hash)
    (p : Progress Hash PendingBlocksManager) : Prop where
  once : p.ran.Nodup
  mem_ran : ∀ hash, hash ∈ p.ran ↔ IsPending arrLastStableHashes arrPendingBlocksHashes hash
  parentsFirst : ∀ before hash after, p.ran = before ++ hash :: after → ∀ parent,
    s.PendingParent arrLastStableHashes arrPendingBlocksHashes parent hash → parent ∈ before
  vertices : ∀ hash, hash ∈ p.state.dag ↔
    IsPending arrLastStableHashes arrPendingBlocksHashes hash
  edges : ∀ hash parent, p.state.dag.Edge hash parent ↔
    s.PendingParent arrLastStableHashes arrPendingBlocksHashes parent hash

/-- After others were executed, each after its pending parents, the execution of a pending
block throws, or the block is stable already. -/
def ExecutionThrows (arrLastStableHashes arrPendingBlocksHashes : List Hash) (error : String) :
    Prop :=
  ∃ mapBlocks, s.loadPending arrLastStableHashes arrPendingBlocksHashes ∅ = .ok mapBlocks ∧
    ∃ executed pendingBlocks hash block,
      Ran mapBlocks.lookup Block.parentHashes (s.execPending F vm)
        ⟨Dag.empty, arrLastStableHashes⟩ executed pendingBlocks ∧
      mapBlocks.lookup hash = some block ∧ hash ∉ executed ∧
      (∀ parent, s.PendingParent arrLastStableHashes arrPendingBlocksHashes parent hash →
        parent ∈ executed) ∧
      (({ s.chain with pendingBlocks } : ChainState).execBlock F (some block.getHeight) (vm block)
        block = .error error ∨ (s.mainDag.getBlockInfo hash).any (·.isFinal) = true)

end

variable {F : Factory} {s : BlockNode} {vm : Block → Transaction → Behaviour}
  {arrLastStableHashes arrPendingBlocksHashes : List Hash} {mapBlocks : FinMap Hash Block}
  {hash : Hash} {block : Block}

/-! ### What is read -/

theorem isPending_cons {setStable rest : List Hash} {first : Hash} :
    IsPending setStable (first :: rest) hash ↔
      hash = first ∧ first ∉ setStable ∨ IsPending setStable rest hash := by
  simp only [IsPending, List.mem_cons]
  constructor
  · rintro ⟨rfl | hmem, hnot⟩
    · exact .inl ⟨rfl, hnot⟩
    · exact .inr ⟨hmem, hnot⟩
  · rintro (⟨rfl, hnot⟩ | ⟨hmem, hnot⟩)
    · exact ⟨.inl rfl, hnot⟩
    · exact ⟨.inr hmem, hnot⟩

theorem loadPending_ok {setStable arrHashes : List Hash} {mapBlocks mapBlocks' : FinMap Hash Block}
    (h : s.loadPending setStable arrHashes mapBlocks = .ok mapBlocks') :
    (∀ hash, IsPending setStable arrHashes hash → ∃ block, s.disk.getBlock hash = .ok block ∧
        mapBlocks'.lookup hash = some block) ∧
      ∀ hash, ¬ IsPending setStable arrHashes hash →
        mapBlocks'.lookup hash = mapBlocks.lookup hash := by
  induction arrHashes generalizing mapBlocks with
  | nil =>
      cases h
      exact ⟨fun hash h => absurd h.1 List.not_mem_nil, fun _ _ => rfl⟩
  | cons first rest ih =>
      unfold loadPending at h
      split at h
      next hstable =>
        obtain ⟨hpending, hother⟩ := ih h
        refine ⟨fun hash h => hpending hash ?_, fun hash h => hother hash ?_⟩
        · exact (isPending_cons.mp h).resolve_left fun hfirst => hfirst.2 hstable
        · exact fun h' => h (isPending_cons.mpr (.inr h'))
      next hstable =>
        split at h
        next => cases h
        next =>
          split at h
          next => cases h
          next =>
            split at h
            next => cases h
            next block hblock =>
              obtain ⟨hpending, hother⟩ := ih h
              refine ⟨fun hash h => ?_, fun hash h => ?_⟩
              · by_cases hlater : IsPending setStable rest hash
                · exact hpending hash hlater
                · obtain ⟨rfl, -⟩ := (isPending_cons.mp h).resolve_right hlater
                  refine ⟨block, hblock, ?_⟩
                  rw [hother hash hlater, Finmap.lookup_insert]
              · rw [hother hash fun h' => h (isPending_cons.mpr (.inr h')),
                  Finmap.lookup_insert_of_ne]
                rintro rfl
                exact h (isPending_cons.mpr (.inl ⟨rfl, hstable⟩))

theorem exists_loadPending {setStable arrHashes : List Hash}
    (hstored : s.StoresPending F setStable arrHashes) (mapBlocks : FinMap Hash Block) :
    ∃ mapBlocks', s.loadPending setStable arrHashes mapBlocks = .ok mapBlocks' := by
  induction arrHashes generalizing mapBlocks with
  | nil => exact ⟨mapBlocks, rfl⟩
  | cons first rest ih =>
      have hrest : s.StoresPending F setStable rest :=
        fun hash h => hstored hash (isPending_cons.mpr (.inr h))
      unfold loadPending
      split
      next => exact ih hrest mapBlocks
      next hstable =>
        obtain ⟨⟨bi, hbi, hgood⟩, block, hblock, -⟩ :=
          hstored first (isPending_cons.mpr (.inl ⟨rfl, hstable⟩))
        rw [hbi]
        dsimp only
        rw [hgood, if_neg Bool.false_ne_true, hblock]
        exact ih hrest (mapBlocks.insert first block)

/-- The map has the pending blocks and nothing else. -/
structure Loads (F : Factory) (s : BlockNode)
    (arrLastStableHashes arrPendingBlocksHashes : List Hash) (mapBlocks : FinMap Hash Block) :
    Prop where
  load : s.loadPending arrLastStableHashes arrPendingBlocksHashes ∅ = .ok mapBlocks
  lookup_iff : ∀ hash block, mapBlocks.lookup hash = some block ↔
    IsPending arrLastStableHashes arrPendingBlocksHashes hash ∧ s.disk.getBlock hash = .ok block
  hash_eq : ∀ hash block, mapBlocks.lookup hash = some block → block.hash F = hash

theorem exists_loads (hstored : s.StoresPending F arrLastStableHashes arrPendingBlocksHashes) :
    ∃ mapBlocks, Loads F s arrLastStableHashes arrPendingBlocksHashes mapBlocks := by
  obtain ⟨mapBlocks, hload⟩ := exists_loadPending hstored ∅
  obtain ⟨hpending, hother⟩ := loadPending_ok hload
  have hlookup : ∀ hash block, mapBlocks.lookup hash = some block ↔
      IsPending arrLastStableHashes arrPendingBlocksHashes hash ∧
        s.disk.getBlock hash = .ok block := by
    intro hash block
    by_cases h : IsPending arrLastStableHashes arrPendingBlocksHashes hash
    · obtain ⟨block', hblock', hlookup⟩ := hpending hash h
      rw [hlookup, hblock', Option.some.injEq, Except.ok.injEq, and_iff_right h]
    · rw [hother hash h, Finmap.lookup_empty]
      exact iff_of_false (fun hnone => by cases hnone) fun h' => h h'.1
  refine ⟨mapBlocks, hload, hlookup, fun hash block hmine => ?_⟩
  obtain ⟨h, hblock⟩ := (hlookup hash block).mp hmine
  obtain ⟨-, block', hblock', hhash⟩ := hstored hash h
  rw [hblock] at hblock'
  cases hblock'
  exact hhash

theorem Loads.exists_lookup_iff
    (h : Loads F s arrLastStableHashes arrPendingBlocksHashes mapBlocks)
    (hstored : s.StoresPending F arrLastStableHashes arrPendingBlocksHashes) :
    (∃ block, mapBlocks.lookup hash = some block) ↔
      IsPending arrLastStableHashes arrPendingBlocksHashes hash := by
  constructor
  · rintro ⟨block, hblock⟩
    exact ((h.lookup_iff hash block).mp hblock).1
  · intro hpending
    obtain ⟨-, block, hblock, -⟩ := hstored hash hpending
    exact ⟨block, (h.lookup_iff hash block).mpr ⟨hpending, hblock⟩⟩

theorem Loads.below_iff (h : Loads F s arrLastStableHashes arrPendingBlocksHashes mapBlocks)
    (hstored : s.StoresPending F arrLastStableHashes arrPendingBlocksHashes) {parent : Hash} :
    Below mapBlocks.lookup Block.parentHashes parent hash ↔
      s.PendingParent arrLastStableHashes arrPendingBlocksHashes parent hash := by
  unfold Below PendingParent
  rw [h.exists_lookup_iff hstored]
  refine and_congr_right fun _ => ?_
  constructor
  · rintro ⟨block, hblock, hmem⟩
    obtain ⟨hpending, hget⟩ := (h.lookup_iff hash block).mp hblock
    exact ⟨hpending, block, hget, hmem⟩
  · rintro ⟨hpending, block, hget, hmem⟩
    exact ⟨block, (h.lookup_iff hash block).mpr ⟨hpending, hget⟩, hmem⟩

/-! ### What one execution looks at -/

theorem maxHeight_withPending (s : ChainState) (pendingBlocks : PendingBlocksManager)
    (arrParentHashes : List Hash) (nMaxHeight : Nat) :
    ({ s with pendingBlocks } : ChainState).maxHeight arrParentHashes nMaxHeight =
      s.maxHeight arrParentHashes nMaxHeight := by
  induction arrParentHashes generalizing nMaxHeight with
  | nil => rfl
  | cons hash rest ih =>
      unfold ChainState.maxHeight
      dsimp only
      cases s.mainDag.getBlockInfo hash with
      | none => rfl
      | some blockInfo => exact ih _

/-- Of the pending blocks, an execution looks at the block's parents, and whether the block is
there. -/
theorem execBlock_withPending (s : ChainState) {processedHeight : Option Nat}
    {vm : Transaction → Behaviour} {pbm pbm' : PendingBlocksManager}
    (hmine : pbm.hasBlock (block.hash F) = pbm'.hasBlock (block.hash F))
    (hparents : ∀ parent ∈ block.parentHashes, pbm.dag.readObj parent = pbm'.dag.readObj parent) :
    ({ s with pendingBlocks := pbm } : ChainState).execBlock F processedHeight vm block =
      ({ s with pendingBlocks := pbm' } : ChainState).execBlock F processedHeight vm block := by
  have hexecuted : ({ s with pendingBlocks := pbm } : ChainState).isBlockExecuted (block.hash F) =
      ({ s with pendingBlocks := pbm' } : ChainState).isBlockExecuted (block.hash F) := by
    unfold ChainState.isBlockExecuted
    rw [hmine]
  have hheight : ({ s with pendingBlocks := pbm } : ChainState).checkHeight block =
      ({ s with pendingBlocks := pbm' } : ChainState).checkHeight block := by
    unfold ChainState.checkHeight ChainState.calcHeight
    rw [maxHeight_withPending, ← maxHeight_withPending s pbm']
  have hmerged : pbm.mergePatches F block.parentHashes = pbm'.mergePatches F block.parentHashes := by
    unfold PendingBlocksManager.mergePatches
    rw [PendingBlocksManager.mergePatchesFrom_eq, PendingBlocksManager.mergePatchesFrom_eq]
    congr 1
    exact List.filterMap_congr fun parent hparent => by rw [hparents parent hparent]
  unfold ChainState.execBlock
  rw [hexecuted, hheight]
  dsimp only
  rw [hmerged]

theorem execPending_ok {pbm pbm' : PendingBlocksManager}
    (h : s.execPending F vm block pbm = .ok pbm') :
    ∃ patchBlock, ({ s.chain with pendingBlocks := pbm } : ChainState).execBlock F
        (some block.getHeight) (vm block) block = .ok (some patchBlock) ∧
      pbm' = pbm.addBlock F block patchBlock := by
  unfold execPending at h
  split at h
  next => cases h
  next => cases h
  next patchBlock hexec =>
    cases h
    exact ⟨patchBlock, hexec, rfl⟩

theorem execPending_error {pbm : PendingBlocksManager} {error : String}
    (h : s.execPending F vm block pbm = .error error) (hnew : block.hash F ∉ pbm.dag) :
    ({ s.chain with pendingBlocks := pbm } : ChainState).execBlock F (some block.getHeight)
        (vm block) block = .error error ∨
      (s.mainDag.getBlockInfo (block.hash F)).any (·.isFinal) = true := by
  unfold execPending at h
  split at h
  next hexec =>
    cases h
    exact .inl hexec
  next hexec =>
    refine .inr ?_
    by_contra hfinal
    have hexecuted : ({ s.chain with pendingBlocks := pbm } : ChainState).isBlockExecuted
        (block.hash F) = false := by
      simp only [ChainState.isBlockExecuted, Bool.or_eq_false_iff]
      exact ⟨by simpa [chain] using hfinal, by simpa [PendingBlocksManager.hasBlock] using hnew⟩
    exact ChainState.execBlock_ne_none hexecuted hexec
  next => cases h

/-- Executing a pending block makes nothing of the others, and looks at its parents only. -/
theorem local_execPending (h : Loads F s arrLastStableHashes arrPendingBlocksHashes mapBlocks) :
    Local mapBlocks.lookup Block.parentHashes (s.execPending F vm)
      fun pbm hash => pbm.dag.readObj hash where
  frame := by
    intro hash block pbm pbm' other hitem hexec hne
    obtain ⟨patchBlock, -, rfl⟩ := execPending_ok hexec
    rw [PendingBlocksManager.addBlock, Dag.readObj_addVertex, h.hash_eq hash block hitem,
      if_neg hne]
  congr := by
    intro hash block pbm pbm' pbm₁ hitem hnone hnone' hparents hexec
    obtain ⟨patchBlock, hpatch, rfl⟩ := execPending_ok hexec
    have hmine : pbm.hasBlock (block.hash F) = pbm'.hasBlock (block.hash F) := by
      rw [h.hash_eq hash block hitem]
      unfold PendingBlocksManager.hasBlock
      rw [decide_eq_false (Dag.readObj_eq_none.mp hnone),
        decide_eq_false (Dag.readObj_eq_none.mp hnone')]
    rw [execBlock_withPending s.chain hmine hparents] at hpatch
    refine ⟨pbm'.addBlock F block patchBlock, ?_, ?_⟩
    · unfold execPending
      rw [hpatch]
    · simp only [PendingBlocksManager.addBlock, Dag.readObj_addVertex, h.hash_eq hash block hitem,
        if_true]

/-! ### The rebuilt graph -/

section Graph

variable {order : List Hash} {pbm : PendingBlocksManager}

/-- The blocks that were run make up the graph. -/
theorem mem_of_ran (h : Loads F s arrLastStableHashes arrPendingBlocksHashes mapBlocks)
    (hran : Ran mapBlocks.lookup Block.parentHashes (s.execPending F vm)
      ⟨Dag.empty, arrLastStableHashes⟩ order pbm) :
    hash ∈ pbm.dag ↔ hash ∈ order := by
  induction hran with
  | nil => exact iff_of_false (Dag.notMem_empty hash) List.not_mem_nil
  | @snoc order pbm pbm' last block _ hitem _ _ hexec ih =>
      obtain ⟨patchBlock, -, rfl⟩ := execPending_ok hexec
      rw [PendingBlocksManager.addBlock, Dag.mem_addVertex, h.hash_eq last block hitem, ih,
        List.mem_append, List.mem_singleton, or_comm]

theorem edge_of_ran (h : Loads F s arrLastStableHashes arrPendingBlocksHashes mapBlocks)
    (hran : Ran mapBlocks.lookup Block.parentHashes (s.execPending F vm)
      ⟨Dag.empty, arrLastStableHashes⟩ order pbm) {parent : Hash} :
    pbm.dag.Edge hash parent ↔
      hash ∈ order ∧ Below mapBlocks.lookup Block.parentHashes parent hash := by
  induction hran with
  | nil => simp [Dag.Edge, Dag.empty]
  | @snoc order pbm pbm' last block hran hitem hnew hparents hexec ih =>
      obtain ⟨patchBlock, -, rfl⟩ := execPending_ok hexec
      rw [PendingBlocksManager.addBlock, Dag.edge_addVertex, h.hash_eq last block hitem, ih,
        List.mem_append, List.mem_singleton]
      constructor
      · rintro (⟨rfl, hmem, hthere⟩ | ⟨hold, hbelow⟩)
        · refine ⟨.inr rfl, ?_, block, hitem, hmem⟩
          rcases hthere with hthere | rfl
          · exact hran.exists_item ((mem_of_ran h hran).mp hthere)
          · exact ⟨block, hitem⟩
        · exact ⟨.inl hold, hbelow⟩
      · rintro ⟨hold | rfl, hbelow⟩
        · exact .inr ⟨hold, hbelow⟩
        · -- the parents that are pending were run before
          have hthere := (mem_of_ran h hran).mpr (hparents parent hbelow)
          obtain ⟨-, block', hitem', hmem⟩ := hbelow
          obtain rfl : block = block' := Option.some.inj (hitem.symm.trans hitem')
          exact .inl ⟨rfl, hmem, .inl hthere⟩

end Graph

/-- What a rebuild comes to, with enough fuel. -/
theorem exists_rebuildPending (F : Factory) (s : BlockNode) (vm : Block → Transaction → Behaviour)
    (h : Loads F s arrLastStableHashes arrPendingBlocksHashes mapBlocks)
    (hstored : s.StoresPending F arrLastStableHashes arrPendingBlocksHashes)
    (hacyclic : ∀ hash, ¬ Relation.TransGen
      (s.PendingParent arrLastStableHashes arrPendingBlocksHashes) hash hash) :
    ∃ result, (∀ fuel, arrPendingBlocksHashes.length < fuel →
        s.rebuildPending F vm fuel arrLastStableHashes arrPendingBlocksHashes = some result) ∧
      ((∃ p, result = .ok p ∧ Sound mapBlocks.lookup Block.parentHashes (s.execPending F vm)
          ⟨Dag.empty, arrLastStableHashes⟩ p ∧
          ∀ hash, hash ∈ p.finished ↔ ∃ block, mapBlocks.lookup hash = some block) ∨
        ∃ error, result = .error error ∧ Fails mapBlocks.lookup Block.parentHashes
          (s.execPending F vm) ⟨Dag.empty, arrLastStableHashes⟩ error) := by
  have hbelow : Below mapBlocks.lookup Block.parentHashes =
      s.PendingParent arrLastStableHashes arrPendingBlocksHashes := by
    funext parent hash
    exact propext (h.below_iff hstored)
  have hkeys : mapBlocks.keys ⊆ arrPendingBlocksHashes.toFinset := by
    intro hash hmem
    obtain ⟨block, hblock⟩ := FinMap.mem_keys_iff.mp hmem
    exact List.mem_toFinset.mpr ((h.lookup_iff hash block).mp hblock).1.1
  have hcard : mapBlocks.keys.card ≤ arrPendingBlocksHashes.length :=
    (Finset.card_le_card hkeys).trans (List.toFinset_card_le _)
  obtain ⟨r, hr, hcases⟩ := exists_walk (s.execPending F vm) (hbelow ▸ hacyclic)
    (fun hash block hblock => FinMap.mem_keys_of_lookup hblock)
    (fun hash block hblock => ((h.lookup_iff hash block).mp hblock).1.1)
    ⟨Dag.empty, arrLastStableHashes⟩
  have hwalk : ∀ fuel, arrPendingBlocksHashes.length < fuel →
      visitAll (s.runBlock F vm mapBlocks fuel) arrPendingBlocksHashes
        ⟨∅, [], ⟨Dag.empty, arrLastStableHashes⟩⟩ = some r :=
    fun fuel hfuel => hr fuel (hcard.trans_lt hfuel)
  refine ⟨r, fun fuel hfuel => ?_, hcases⟩
  unfold rebuildPending
  rw [h.load]
  dsimp only
  rw [hwalk fuel hfuel]
  rcases hcases with ⟨p, rfl, -, hfinished⟩ | ⟨error, rfl, -⟩
  · have heq : p.finished = mapBlocks.keys := by
      ext hash
      rw [hfinished, FinMap.mem_keys_iff]
    exact if_neg fun hne => hne (by rw [heq])
  · rfl

theorem rebuilt_of_sound (h : Loads F s arrLastStableHashes arrPendingBlocksHashes mapBlocks)
    (hstored : s.StoresPending F arrLastStableHashes arrPendingBlocksHashes)
    {p : Progress Hash PendingBlocksManager}
    (hsound : Sound mapBlocks.lookup Block.parentHashes (s.execPending F vm)
      ⟨Dag.empty, arrLastStableHashes⟩ p)
    (hfinished : ∀ hash, hash ∈ p.finished ↔ ∃ block, mapBlocks.lookup hash = some block) :
    s.Rebuilt arrLastStableHashes arrPendingBlocksHashes p := by
  have hran : ∀ hash, hash ∈ p.ran ↔
      IsPending arrLastStableHashes arrPendingBlocksHashes hash := fun hash => by
    rw [← hsound.finished, hfinished, h.exists_lookup_iff hstored]
  refine ⟨hsound.ran.nodup, hran, fun before hash after horder parent hparent => ?_,
    fun hash => ?_, fun hash parent => ?_⟩
  · exact hsound.ran.parents_before horder ((h.below_iff hstored).mpr hparent)
  · rw [mem_of_ran h hsound.ran, hran]
  · rw [edge_of_ran h hsound.ran, hran, h.below_iff hstored]
    exact and_iff_right_of_imp fun hparent => hparent.2.1

theorem executionThrows_of_fails
    (h : Loads F s arrLastStableHashes arrPendingBlocksHashes mapBlocks)
    (hstored : s.StoresPending F arrLastStableHashes arrPendingBlocksHashes) {error : String}
    (hfails : Fails mapBlocks.lookup Block.parentHashes (s.execPending F vm)
      ⟨Dag.empty, arrLastStableHashes⟩ error) :
    s.ExecutionThrows F vm arrLastStableHashes arrPendingBlocksHashes error := by
  obtain ⟨executed, pbm, hash, block, hran, hitem, hnew, hparents, herror⟩ := hfails
  have hhash := h.hash_eq hash block hitem
  have hnot : hash ∉ pbm.dag := fun hmem => hnew ((mem_of_ran h hran).mp hmem)
  exact ⟨mapBlocks, h.load, executed, pbm, hash, block, hran, hitem, hnew,
    fun parent hparent => hparents parent ((h.below_iff hstored).mpr hparent),
    hhash ▸ execPending_error herror (hhash ▸ hnot)⟩

/-- Another list of the same hashes has the same blocks. -/
theorem exists_loads_of_listed
    (h : Loads F s arrLastStableHashes arrPendingBlocksHashes mapBlocks)
    (hstored : s.StoresPending F arrLastStableHashes arrPendingBlocksHashes) {arrListed : List Hash}
    (hlisted : ∀ hash, hash ∈ arrListed ↔ hash ∈ arrPendingBlocksHashes) :
    s.StoresPending F arrLastStableHashes arrListed ∧
      Loads F s arrLastStableHashes arrListed mapBlocks ∧
      s.PendingParent arrLastStableHashes arrListed =
        s.PendingParent arrLastStableHashes arrPendingBlocksHashes := by
  have hpending : IsPending arrLastStableHashes arrListed =
      IsPending arrLastStableHashes arrPendingBlocksHashes := by
    funext hash
    exact propext (and_congr_left fun _ => hlisted hash)
  have hstored' : s.StoresPending F arrLastStableHashes arrListed := by
    unfold StoresPending
    rw [hpending]
    exact hstored
  obtain ⟨mapBlocks', h'⟩ := exists_loads hstored'
  have hsame : mapBlocks' = mapBlocks := by
    refine Finmap.ext_lookup fun hash => Option.ext fun block => ?_
    have hiff := h'.lookup_iff hash block
    rw [hpending] at hiff
    exact hiff.trans (h.lookup_iff hash block).symm
  refine ⟨hstored', hsame ▸ h', ?_⟩
  unfold PendingParent
  rw [hpending]

/-- Rebuilds from the same blocks both succeed, with the same patches, or both throw. -/
theorem same_of_rebuilds (h : Loads F s arrLastStableHashes arrPendingBlocksHashes mapBlocks)
    (hstored : s.StoresPending F arrLastStableHashes arrPendingBlocksHashes)
    (hacyclic : ∀ hash, ¬ Relation.TransGen
      (s.PendingParent arrLastStableHashes arrPendingBlocksHashes) hash hash)
    {p : Progress Hash PendingBlocksManager}
    (hsound : Sound mapBlocks.lookup Block.parentHashes (s.execPending F vm)
      ⟨Dag.empty, arrLastStableHashes⟩ p)
    (hfinished : ∀ hash, hash ∈ p.finished ↔ ∃ block, mapBlocks.lookup hash = some block) :
    (∀ error, ¬ Fails mapBlocks.lookup Block.parentHashes (s.execPending F vm)
      ⟨Dag.empty, arrLastStableHashes⟩ error) ∧
    ∀ p', Sound mapBlocks.lookup Block.parentHashes (s.execPending F vm)
        ⟨Dag.empty, arrLastStableHashes⟩ p' →
      (∀ hash, hash ∈ p'.finished ↔ ∃ block, mapBlocks.lookup hash = some block) →
        ∀ hash, p.state.dag.readObj hash = p'.state.dag.readObj hash := by
  have hbelow : Below mapBlocks.lookup Block.parentHashes =
      s.PendingParent arrLastStableHashes arrPendingBlocksHashes := by
    funext parent hash
    exact propext (h.below_iff hstored)
  have hwf : WellFounded (Below mapBlocks.lookup Block.parentHashes) :=
    wellFounded_below (hbelow ▸ hacyclic) fun hash block hblock => FinMap.mem_keys_of_lookup hblock
  have hblank : Blank mapBlocks.lookup (fun (pbm : PendingBlocksManager) hash =>
      pbm.dag.readObj hash) ⟨Dag.empty, arrLastStableHashes⟩ :=
    fun hash _ _ => Dag.readObj_eq_none.mpr (Dag.notMem_empty hash)
  have hall : ∀ hash block, mapBlocks.lookup hash = some block → hash ∈ p.ran :=
    fun hash block hblock => (hsound.finished hash).mp ((hfinished hash).mpr ⟨block, hblock⟩)
  refine ⟨hsound.ran.not_fails (local_execPending h) hblank hwf hall,
    fun p' hsound' hfinished' hash => ?_⟩
  by_cases hthere : ∃ block, mapBlocks.lookup hash = some block
  · have hsame := hsound.ran.look_eq (v := hash) (local_execPending h) hblank hwf hsound'.ran
    exact hsame ((hsound.finished hash).mp ((hfinished hash).mpr hthere))
      ((hsound'.finished hash).mp ((hfinished' hash).mpr hthere))
  · -- what is not pending is in neither graph
    have hnot {p : Progress Hash PendingBlocksManager} (hsound : Sound mapBlocks.lookup
        Block.parentHashes (s.execPending F vm) ⟨Dag.empty, arrLastStableHashes⟩ p) :
        p.state.dag.readObj hash = none := by
      refine Dag.readObj_eq_none.mpr fun hmem => hthere ?_
      exact hsound.ran.exists_item ((mem_of_ran h hsound.ran).mp hmem)
    rw [hnot hsound, hnot hsound']

/-- A pending block upon genesis. -/
def lowerBlock : Block := ChainState.emptyBlock [1] 0 0 1

/-- A pending block upon that one and genesis. -/
def upperBlock : Block := ChainState.emptyBlock [lowerBlock.hash Factory.sample, 1] 0 0 2

/-- The hashes as they are listed: the upper block first, and genesis among them. -/
def listedHashes : List Hash :=
  [upperBlock.hash Factory.sample, 1, lowerBlock.hash Factory.sample]

/-- A node that starts with these blocks on disk. -/
def restarted : BlockNode where
  disk := { BlockStore.empty with
    blocks := ((∅ : FinMap Hash Block).insert (lowerBlock.hash Factory.sample) lowerBlock).insert
      (upperBlock.hash Factory.sample) upperBlock }
  pendingBlocks := ⟨.empty, []⟩
  mainDag := ((MainDag.mk ((∅ : FinMap Hash BlockInfo).insert 1
    ⟨⟨[], 0, 0, 0, 1, 0⟩, .FINAL_BLOCK⟩) []).addBlock Factory.sample
      (lowerBlock.info Factory.sample)).addBlock Factory.sample (upperBlock.info Factory.sample)
  requestCache := []
  mapUnknownBlocks := []
  mapBlocksToExec := []
  arrived := []
  waiting := []
  accepting := none

theorem storesPending_restarted : restarted.StoresPending Factory.sample [1] listedHashes := by
  rintro hash ⟨hmem, hnot⟩
  simp only [listedHashes, List.mem_cons, List.not_mem_nil, or_false] at hmem hnot
  rcases hmem with rfl | rfl | rfl
  · exact ⟨⟨upperBlock.info Factory.sample, by decide +kernel, rfl⟩, upperBlock,
      by decide +kernel, rfl⟩
  · exact absurd rfl hnot
  · exact ⟨⟨lowerBlock.info Factory.sample, by decide +kernel, rfl⟩, lowerBlock,
      by decide +kernel, rfl⟩

theorem acyclic_restarted (hash : Hash) :
    ¬ Relation.TransGen (restarted.PendingParent [1] listedHashes) hash hash := by
  -- a code is greater than the numbers in it
  have hlt : ∀ parent hash : Hash, Relation.TransGen
      (restarted.PendingParent [1] listedHashes) parent hash → @LT.lt Nat _ parent hash := by
    have hstep : ∀ parent hash : Hash, restarted.PendingParent [1] listedHashes parent hash →
        @LT.lt Nat _ parent hash := by
      rintro parent hash ⟨-, hpending, block, hblock, hmem⟩
      obtain ⟨-, block', hblock', rfl⟩ := storesPending_restarted hash hpending
      rw [hblock] at hblock'
      cases hblock'
      exact Factory.lt_code (List.mem_append_right _ hmem)
    intro parent hash h
    induction h with
    | single h => exact hstep _ _ h
    | tail _ h ih => exact ih.trans (hstep _ _ h)
  exact fun h => lt_irrefl _ (hlt hash hash h)

end CilCore.BlockNode
