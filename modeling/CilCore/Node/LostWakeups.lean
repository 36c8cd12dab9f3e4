import CilCore.Node.BlockQueue

/-!
# Blocks that wait for their parents

A block that can be executed is in the queue, or some task will look at it: the task that
has just received it or waits to execute it, or one that has executed a parent of it and
will queue the children. This goes on as long as no block becomes executed behind the back
of those that wait for it, and no entry of such a block is deleted from the queue.
-/

namespace CilCore

variable {F : Factory} {J : Dagjs}

namespace BlockNode

/-- The parents of a block of the main graph. -/
def parentsOf (node : BlockNode) (hash : Hash) : List Hash :=
  ((node.mainDag.getBlockInfo hash).map (·.header.parentHashes)).getD []

/-- The block is in the main graph, and is neither bad nor executed. -/
def Waits (node : BlockNode) (hash : Hash) : Prop :=
  node.isBlockExecuted hash = false ∧
    ∃ info, node.mainDag.getBlockInfo hash = some info ∧ info.isBad = false

/-- It has no parent left to wait for. -/
def Executable (node : BlockNode) (hash : Hash) : Prop :=
  node.Waits hash ∧ ∀ p ∈ node.parentsOf hash, node.isBlockExecuted p = true

/-- It has one parent left to wait for. -/
def WaitsOnlyFor (node : BlockNode) (p hash : Hash) : Prop :=
  node.Waits hash ∧ p ∈ node.parentsOf hash ∧ node.isBlockExecuted p = false ∧
    ∀ q ∈ node.parentsOf hash, q = p ∨ node.isBlockExecuted q = true

/-- Blocks and their infos are kept under their hashes. -/
structure Keyed (F : Factory) (node : BlockNode) : Prop where
  infos : ∀ hash info, node.mainDag.getBlockInfo hash = some info → info.getHash F = hash
  blocks : ∀ hash block, node.disk.blocks.lookup hash = some block → block.hash F = hash

end BlockNode

/-- The task will look at the block, or queue it as a child of the one it has executed. -/
def Suspended.Attends (F : Factory) (node : BlockNode) (hash : Hash) : Suspended → Prop
  | .reading blockInfo => blockInfo.getHash F = hash
  | .inFlight _ block | .locked _ block | .executing _ block | .adding _ block _ =>
      block.hash F = hash
  | .accepting how acceptance =>
      .markAsFinal hash ∈ acceptance.effects ∨ .unwindBlock hash ∈ acceptance.effects ∨
        how ≠ .committed ∧ acceptance.block.hash F ∈ node.parentsOf hash ∧
          hash ∈ node.mainDag.getChildren (acceptance.block.hash F)
  | .arrived _ _ | .loading _ | .parents _ _ _ _ _ _ _ | .committing _ _ | .removing _ => False

/-- The block is queued, or some task attends to it. -/
def BusyNode.Attended (F : Factory) (s : BusyNode) (hash : Hash) : Prop :=
  hash ∈ s.node.mapBlocksToExec ∨ ∃ task ∈ s.tasks, task.Attends F s.node hash

namespace BlockNode

variable {node node' : BlockNode} {hash k p : Hash} {caller : Caller} {blockInfo : BlockInfo}

/-! ### What does not change -/

/-- The queue keeps the block, and so do the edges to it. -/
structure Carries (node node' : BlockNode) (hash : Hash) : Prop where
  queue : hash ∈ node.mapBlocksToExec → hash ∈ node'.mapBlocksToExec
  edges : ∀ p ∈ node.parentsOf hash, p ∈ node'.parentsOf hash ∧
    (hash ∈ node.mainDag.getChildren p → hash ∈ node'.mainDag.getChildren p)

theorem Carries.trans {node'' : BlockNode} (h : Carries node node' hash)
    (h' : Carries node' node'' hash) : Carries node node'' hash where
  queue hqueued := h'.queue (h.queue hqueued)
  edges p hp :=
    have hnext := h'.edges p (h.edges p hp).1
    ⟨hnext.1, fun hchild => hnext.2 ((h.edges p hp).2 hchild)⟩

/-- The part of a node that tells which blocks can be executed. -/
def SameGraph (node node' : BlockNode) : Prop :=
  node'.mainDag = node.mainDag ∧ node'.pendingBlocks = node.pendingBlocks

theorem SameGraph.executable (h : SameGraph node node') :
    node'.Executable hash ↔ node.Executable hash := by
  obtain ⟨hdag, hpending⟩ := h
  unfold Executable Waits parentsOf isBlockExecuted ChainState.isBlockExecuted chain
  rw [hdag, hpending]

theorem SameGraph.carries (h : SameGraph node node')
    (hqueue : hash ∈ node.mapBlocksToExec → hash ∈ node'.mapBlocksToExec) :
    Carries node node' hash := by
  refine ⟨hqueue, fun p hp => ?_⟩
  unfold parentsOf at hp ⊢
  rw [h.1]
  exact ⟨hp, id⟩

/-! ### Queueing -/

theorem sameGraph_queueBlockExec (node : BlockNode) (k : Hash) :
    SameGraph node (node.queueBlockExec k) := by
  obtain ⟨queue, h⟩ := queueBlockExec_eq node k
  rw [h]
  exact ⟨rfl, rfl⟩

theorem mem_queueBlockExec (node : BlockNode) (k : Hash) :
    hash ∈ (node.queueBlockExec k).mapBlocksToExec ↔ hash ∈ node.mapBlocksToExec ∨
      hash = k ∧ (node.mainDag.getBlockInfo k).any (·.isBad) = false := by
  unfold queueBlockExec
  split
  next hbad => simp [hbad]
  next hgood =>
    rw [List.mem_insert_iff]
    simp only [Bool.not_eq_true] at hgood
    simp [hgood, or_comm]

theorem foldl_queueBlockExec_spec (hashes : List Hash) (node : BlockNode) :
    SameGraph node (hashes.foldl (fun s hash => s.queueBlockExec hash) node) ∧
      ∀ hash, hash ∈ (hashes.foldl (fun s hash => s.queueBlockExec hash) node).mapBlocksToExec ↔
        hash ∈ node.mapBlocksToExec ∨
          hash ∈ hashes ∧ (node.mainDag.getBlockInfo hash).any (·.isBad) = false := by
  induction hashes generalizing node with
  | nil => exact ⟨⟨rfl, rfl⟩, fun hash => by simp⟩
  | cons k rest ih =>
      obtain ⟨hgraph, hmem⟩ := ih (node.queueBlockExec k)
      have hfirst := sameGraph_queueBlockExec node k
      refine ⟨⟨hgraph.1.trans hfirst.1, hgraph.2.trans hfirst.2⟩, fun hash => ?_⟩
      rw [List.foldl_cons, hmem, mem_queueBlockExec, hfirst.1, List.mem_cons]
      constructor
      · rintro ((hold | ⟨rfl, hgood⟩) | ⟨hrest, hgood⟩)
        · exact .inl hold
        · exact .inr ⟨.inl rfl, hgood⟩
        · exact .inr ⟨.inr hrest, hgood⟩
      · rintro (hold | ⟨rfl | hrest, hgood⟩)
        · exact .inl (.inl hold)
        · exact .inl (.inr ⟨rfl, hgood⟩)
        · exact .inr ⟨hrest, hgood⟩

theorem Waits.not_bad (h : node.Waits hash) :
    (node.mainDag.getBlockInfo hash).any (·.isBad) = false := by
  obtain ⟨-, info, hinfo, hgood⟩ := h
  rw [hinfo]
  exact hgood

/-! ### Putting a block into the main graph -/

theorem mem_getChildren_addBlock {mainDag : MainDag} (blockInfo : BlockInfo)
    (h : hash ∈ mainDag.getChildren p) : hash ∈ (mainDag.addBlock F blockInfo).getChildren p := by
  obtain ⟨edge, hedge, rfl⟩ := List.mem_map.mp h
  obtain ⟨hmem, hto⟩ := List.mem_filter.mp hedge
  refine List.mem_map.mpr ⟨edge, List.mem_filter.mpr ⟨?_, hto⟩, rfl⟩
  unfold MainDag.addBlock
  dsimp only
  split
  next => exact hmem
  next => exact List.mem_append_right _ hmem

/-- The node with a block put into its main graph, and something stored. -/
structure Enters (F : Factory) (blockInfo : BlockInfo) (node node' : BlockNode) : Prop where
  mainDag : node'.mainDag = node.mainDag.addBlock F blockInfo
  pendingBlocks : node'.pendingBlocks = node.pendingBlocks
  queue : node'.mapBlocksToExec = node.mapBlocksToExec
  blocks : ∀ hash block, node'.disk.blocks.lookup hash = some block →
    node.disk.blocks.lookup hash = some block ∨ block.hash F = hash

namespace Enters

variable (h : Enters F blockInfo node node') (hfinal : blockInfo.isFinal = false)

include h

theorem getBlockInfo (hash : Hash) :
    node'.mainDag.getBlockInfo hash =
      if hash = blockInfo.getHash F then some blockInfo else node.mainDag.getBlockInfo hash := by
  rw [h.mainDag]
  exact MainDag.getBlockInfo_addBlock F blockInfo node.mainDag hash

theorem isBlockExecuted_of_ne (hne : hash ≠ blockInfo.getHash F) :
    node'.isBlockExecuted hash = node.isBlockExecuted hash := by
  have hinfo := h.getBlockInfo hash
  rw [if_neg hne] at hinfo
  change ((node'.mainDag.getBlockInfo hash).any (·.isFinal) ||
    node'.pendingBlocks.hasBlock hash) = _
  rw [hinfo, h.pendingBlocks]
  rfl

include hfinal

theorem isBlockExecuted (hexecuted : node'.isBlockExecuted hash = true) :
    node.isBlockExecuted hash = true := by
  by_cases hne : hash = blockInfo.getHash F
  · have hinfo := h.getBlockInfo hash
    rw [if_pos hne] at hinfo
    change ((node'.mainDag.getBlockInfo hash).any (·.isFinal) ||
      node'.pendingBlocks.hasBlock hash) = true at hexecuted
    rw [hinfo, h.pendingBlocks, Option.any_some, hfinal, Bool.false_or] at hexecuted
    change (_ || node.pendingBlocks.hasBlock hash) = true
    rw [hexecuted, Bool.or_true]
  · rwa [h.isBlockExecuted_of_ne hne] at hexecuted

/-- No other block gets executable. -/
theorem executable (hexecutable : node'.Executable hash) :
    hash = blockInfo.getHash F ∨ node.Executable hash := by
  by_cases hne : hash = blockInfo.getHash F
  · exact .inl hne
  obtain ⟨⟨hnot, info, hinfo, hgood⟩, hparents⟩ := hexecutable
  have hsame := h.getBlockInfo hash
  rw [if_neg hne] at hsame
  rw [h.isBlockExecuted_of_ne hne] at hnot
  refine .inr ⟨⟨hnot, info, hsame ▸ hinfo, hgood⟩, fun p hp => ?_⟩
  refine h.isBlockExecuted hfinal (hparents p ?_)
  unfold parentsOf at hp ⊢
  rwa [hsame]

omit hfinal

theorem carries (hne : hash ≠ blockInfo.getHash F) : Carries node node' hash := by
  refine ⟨fun hmem => h.queue ▸ hmem, fun p hp => ?_⟩
  have hsame := h.getBlockInfo hash
  rw [if_neg hne] at hsame
  unfold parentsOf at hp ⊢
  rw [hsame, h.mainDag]
  exact ⟨hp, mem_getChildren_addBlock blockInfo⟩

theorem keyed (hkeyed : Keyed F node) : Keyed F node' where
  infos hash info hinfo := by
    rw [h.getBlockInfo] at hinfo
    split at hinfo
    next heq =>
      cases hinfo
      exact heq.symm
    next => exact hkeyed.infos hash info hinfo
  blocks hash block hblock := by
    rcases h.blocks hash block hblock with hold | heq
    · exact hkeyed.blocks hash block hold
    · exact heq

theorem congr {node'' : BlockNode} (hgraph : SameGraph node' node'')
    (hqueue : node''.mapBlocksToExec = node'.mapBlocksToExec) (hdisk : node''.disk = node'.disk) :
    Enters F blockInfo node node'' where
  mainDag := hgraph.1.trans h.mainDag
  pendingBlocks := hgraph.2.trans h.pendingBlocks
  queue := hqueue.trans h.queue
  blocks := by
    rw [hdisk]
    exact h.blocks

end Enters

theorem enters_storeBlockAndInfo (node : BlockNode) (block : Option Block)
    (blockInfo : BlockInfo) (bOnlyDag : Bool) :
    Enters F blockInfo node (node.storeBlockAndInfo F block blockInfo bOnlyDag) := by
  unfold storeBlockAndInfo
  dsimp only
  split
  next => exact ⟨rfl, rfl, rfl, fun _ _ h => .inl h⟩
  next =>
    split
    next =>
      refine ⟨rfl, rfl, rfl, fun hash stored h => .inl ?_⟩
      dsimp only at h
      split at h
      next =>
        change (node.disk.blocks.erase (blockInfo.getHash F)).lookup hash = some stored at h
        rw [FinMap.lookup_erase_ite] at h
        split at h
        next => cases h
        next => exact h
      next => exact h
    next =>
      split
      next => exact ⟨rfl, rfl, rfl, fun _ _ h => .inl h⟩
      next block =>
        split
        next => exact ⟨rfl, rfl, rfl, fun _ _ h => .inl h⟩
        next disk hsave =>
          refine ⟨rfl, rfl, rfl, fun hash stored h => ?_⟩
          unfold BlockStore.saveBlock at hsave
          split at hsave
          next => cases hsave
          next =>
            cases hsave
            change (node.disk.blocks.insert (block.hash F) block).lookup hash = some stored at h
            rw [FinMap.lookup_insert_ite] at h
            split at h
            next heq =>
              cases h
              exact .inr heq.symm
            next => exact .inl h

/-! ### Going on to the next `await` -/

/-- After a task has gone on, a block that can be executed is attended to by it, or it could
be executed before or is one of the `late` ones; then it is not one of the task's own blocks,
and nothing was taken away from it. -/
structure Settles (F : Factory) (node : BlockNode) (late own : Hash → Prop)
    (r : BlockNode × Option Suspended) : Prop where
  keyed : Keyed F node → Keyed F r.1
  attended : ∀ hash, r.1.Executable hash →
    (hash ∈ r.1.mapBlocksToExec ∨ ∃ task ∈ r.2, task.Attends F r.1 hash) ∨
      (node.Executable hash ∨ late hash) ∧ ¬ own hash ∧ Carries node r.1 hash

variable {late own : Hash → Prop} {next : Option Suspended}

theorem Settles.mono {own' : Hash → Prop} {r : BlockNode × Option Suspended}
    (h : Settles F node (fun _ => False) own r)
    (hown : ∀ hash, node.Executable hash → own' hash → own hash) : Settles F node late own' r where
  keyed := h.keyed
  attended hash hexecutable := by
    rcases h.attended hash hexecutable with hdone | ⟨hold | hlate, hnot, hcarries⟩
    · exact .inl hdone
    · exact .inr ⟨.inl hold, fun hmine => hnot (hown hash hold hmine), hcarries⟩
    · exact hlate.elim

theorem settles_of_sameGraph (hgraph : SameGraph node node')
    (hblocks : ∀ hash block, node'.disk.blocks.lookup hash = some block →
      node.disk.blocks.lookup hash = some block)
    (hqueue : ∀ hash ∈ node.mapBlocksToExec, hash ∈ node'.mapBlocksToExec)
    (hown : ∀ hash, node.Executable hash → own hash →
      hash ∈ node'.mapBlocksToExec ∨ ∃ task ∈ next, task.Attends F node' hash) :
    Settles F node late own (node', next) where
  keyed h := ⟨fun hash info => by rw [hgraph.1]; exact h.infos hash info,
    fun hash block hblock => h.blocks hash block (hblocks hash block hblock)⟩
  attended hash hexecutable := by
    rw [hgraph.executable] at hexecutable
    by_cases hmine : own hash
    · exact .inl (hown hash hexecutable hmine)
    · exact .inr ⟨.inl hexecutable, hmine, hgraph.carries (hqueue hash)⟩

/-- A bad block is not executable any more. -/
theorem settles_blockBad (node : BlockNode) (blockInfo : BlockInfo)
    (hown : ∀ hash, own hash → hash = blockInfo.getHash F) :
    Settles F node late own (node.blockBad F blockInfo, next) where
  keyed := (enters_storeBlockAndInfo node none blockInfo.markAsBad false).keyed
  attended hash hexecutable := by
    have henters := enters_storeBlockAndInfo (F := F) node none blockInfo.markAsBad false
    have hne : hash ≠ blockInfo.getHash F := by
      rintro rfl
      have hinfo : (node.blockBad F blockInfo).mainDag.getBlockInfo (blockInfo.getHash F) =
          some blockInfo.markAsBad := (henters.getBlockInfo _).trans (if_pos rfl)
      have hgood := hexecutable.1.not_bad
      dsimp only at hgood
      rw [hinfo] at hgood
      cases hgood
    rcases henters.executable rfl hexecutable with heq | hold
    · exact absurd heq hne
    · exact .inr ⟨.inl hold, fun hmine => hne (hown hash hmine), henters.carries hne⟩

theorem settles_thrown (node : BlockNode) (caller : Caller) (blockInfo : BlockInfo)
    (hcommit : caller = .commitBlock → ¬ node.Executable (blockInfo.getHash F)) :
    Settles F node (fun _ => False) (· = blockInfo.getHash F) (node.thrown F caller blockInfo) := by
  unfold thrown
  split
  next hcaller =>
    refine settles_of_sameGraph ⟨rfl, rfl⟩ (fun _ _ h => h) (fun _ h => h) fun hash hexecutable heq => ?_
    exact absurd (heq ▸ hexecutable) (hcommit hcaller)
  next => exact settles_blockBad node blockInfo fun _ h => h

theorem settles_processParents (node : BlockNode) (caller : Caller) (blockInfo : BlockInfo)
    (rest arrToRequest arrToExec : List Hash) :
    Settles F node (fun _ => False) (fun _ => False)
      (node.processParents F caller blockInfo rest arrToRequest arrToExec) := by
  induction rest generalizing arrToRequest arrToExec with
  | nil =>
      unfold processParents
      obtain ⟨hgraph, hmem⟩ := foldl_queueBlockExec_spec arrToExec
        { node with
          mapUnknownBlocks := node.mapUnknownBlocks ∪
            arrToRequest.filter fun hash => hash ∉ node.disk.setBlocksBad }
      obtain ⟨queue, heq⟩ := foldl_queueBlockExec_eq arrToExec
        { node with
          mapUnknownBlocks := node.mapUnknownBlocks ∪
            arrToRequest.filter fun hash => hash ∉ node.disk.setBlocksBad }
      exact settles_of_sameGraph ⟨hgraph.1, hgraph.2⟩ (by rw [heq]; exact fun _ _ h => h)
        (fun hash h => (hmem hash).mpr (.inl h)) fun _ _ h => h.elim
  | cons parentHash rest ih =>
      unfold processParents
      split
      next => exact ih arrToRequest _
      next => exact settles_of_sameGraph ⟨rfl, rfl⟩ (fun _ _ h => h) (fun _ h => h) fun _ _ h => h.elim

theorem settles_endProcessBlock (node : BlockNode) (caller : Caller) (k : Hash) :
    Settles F node (fun _ => False) (· ∈ node.mainDag.getChildren k) (node.endProcessBlock caller k) := by
  obtain ⟨hgraph, hmem⟩ := foldl_queueBlockExec_spec (node.mainDag.getChildren k) node
  obtain ⟨queue, heq⟩ := queueChildren_eq node k
  refine settles_of_sameGraph hgraph (by rw [heq]; exact fun _ _ h => h) (fun hash h => (hmem hash).mpr (.inl h))
    fun hash hexecutable hchild => .inl ((hmem hash).mpr (.inr ⟨hchild, hexecutable.1.not_bad⟩))

theorem settles_beginProcessBlock (node : BlockNode) (caller : Caller) (blockInfo : BlockInfo)
    {block : Option Block} (hblock : ∀ b ∈ block, b.hash F = blockInfo.getHash F)
    (hcommit : caller = .commitBlock → node.Executable (blockInfo.getHash F) →
      ∃ b, node.canExecuteBlock F (blockInfo.getHash F) blockInfo.header.parentHashes = .ok b) :
    Settles F node (fun _ => False) (· = blockInfo.getHash F)
      (node.beginProcessBlock F caller blockInfo block) := by
  unfold beginProcessBlock
  split
  next error herror =>
    refine settles_thrown node caller blockInfo fun hcaller hexecutable => ?_
    obtain ⟨b, hb⟩ := hcommit hcaller hexecutable
    rw [herror] at hb
    cases hb
  next =>
    split
    next hexecuted =>
      refine settles_of_sameGraph ⟨rfl, rfl⟩ (fun _ _ h => h) (fun _ h => h) fun hash hexecutable heq => ?_
      rw [heq] at hexecutable
      exact absurd (hexecutable.1.1.symm.trans hexecuted) Bool.false_ne_true
    next =>
      refine settles_of_sameGraph ⟨rfl, rfl⟩ (fun _ _ h => h) (fun _ h => h) fun hash hexecutable heq =>
        .inr ⟨_, rfl, ?_⟩
      subst heq
      cases block with
      | none => rfl
      | some b => exact hblock b rfl
  next =>
    have hgraph := sameGraph_queueBlockExec node (blockInfo.getHash F)
    obtain ⟨queue, heq⟩ := queueBlockExec_eq node (blockInfo.getHash F)
    obtain ⟨hkeyed, hattended⟩ := settles_processParents (F := F)
      (node.queueBlockExec (blockInfo.getHash F)) caller blockInfo blockInfo.header.parentHashes [] []
    have hfirst : Settles F node (fun _ => False) (· = blockInfo.getHash F)
        (node.queueBlockExec (blockInfo.getHash F), none) := by
      refine settles_of_sameGraph hgraph (by rw [heq]; exact fun _ _ h => h)
        (fun hash h => (mem_queueBlockExec node _).mpr (.inl h)) fun hash hexecutable heq => .inl ((mem_queueBlockExec node _).mpr (.inr ⟨heq, heq ▸ hexecutable.1.not_bad⟩))
    refine ⟨fun h => hkeyed (hfirst.keyed h), fun hash hexecutable => ?_⟩
    rcases hattended hash hexecutable with hdone | ⟨hold | hlate, -, hcarries⟩
    · exact .inl hdone
    · rcases hfirst.attended hash hold with (hqueued | ⟨task, htask, -⟩) | ⟨hold', hne, hcarries'⟩
      · exact .inl (.inl (hcarries.queue hqueued))
      · cases htask
      · exact .inr ⟨hold', hne, hcarries'.trans hcarries⟩
    · exact hlate.elim

theorem settles_enters (h : Enters F blockInfo node node') (hfinal : blockInfo.isFinal = false)
    (hown : ∀ hash, ¬ own hash)
    (hnext : ∃ task ∈ next, task.Attends F node' (blockInfo.getHash F)) :
    Settles F node late own (node', next) where
  keyed := h.keyed
  attended hash hexecutable := by
    by_cases hne : hash = blockInfo.getHash F
    · exact .inl (.inr (hne ▸ hnext))
    rcases h.executable hfinal hexecutable with heq | hold
    · exact absurd heq hne
    · exact .inr ⟨.inl hold, hown hash, h.carries hne⟩

theorem settles_catchExec (node : BlockNode) (caller : Caller) (block : Block) :
    Settles F node (fun _ => False) (· = block.hash F) (node.catchExec F caller block) := by
  have hbad : Settles F node (fun _ => False) (· = block.hash F)
      (node.blockBad F (block.info F), none) := settles_blockBad node (block.info F) fun _ h => h
  unfold catchExec
  split
  next => exact hbad
  next =>
    have hend := settles_endProcessBlock (F := F) (node.blockBad F (block.info F)) caller
      (block.hash F)
    refine ⟨fun h => hend.keyed (hbad.keyed h), fun hash hexecutable => ?_⟩
    rcases hend.attended hash hexecutable with hdone | ⟨hold | hlate, -, hcarries⟩
    · exact .inl hdone
    · rcases hbad.attended hash hold with (hqueued | ⟨task, htask, -⟩) | ⟨hold', hne, hcarries'⟩
      · exact .inl (.inl (hcarries.queue hqueued))
      · cases htask
      · exact .inr ⟨hold', hne, hcarries'.trans hcarries⟩
    · exact hlate.elim

/-! ### Accepting a block -/

theorem isBlockExecuted_iff (node : BlockNode) (hash : Hash) :
    node.isBlockExecuted hash = true ↔
      (node.mainDag.getBlockInfo hash).any (·.isFinal) = true ∨ hash ∈ node.pendingBlocks.dag := by
  change ((_ || decide _) = true) ↔ _
  rw [Bool.or_eq_true, decide_eq_true_eq]
  rfl

theorem isBlockExecuted_addBlock (block : Block) (patch : PatchDB) :
    ({ node with pendingBlocks := node.pendingBlocks.addBlock F block patch } :
      BlockNode).isBlockExecuted hash = true ↔
        node.isBlockExecuted hash = true ∨ hash = block.hash F := by
  rw [isBlockExecuted_iff, isBlockExecuted_iff, or_assoc]
  refine or_congr Iff.rfl ?_
  rw [or_comm]
  exact Dag.mem_addVertex

/-- When a block gets executed, only those that wait for it alone get executable. -/
theorem executable_or_waitsOnlyFor (hinfo : node'.mainDag.getBlockInfo hash =
      node.mainDag.getBlockInfo hash)
    (hexecuted : ∀ q, node'.isBlockExecuted q = true ↔
      node.isBlockExecuted q = true ∨ q = p) (h : node'.Executable hash) :
    hash ≠ p ∧ (node.Executable hash ∨ node.WaitsOnlyFor p hash) := by
  obtain ⟨⟨hnot, info, hsome, hgood⟩, hparents⟩ := h
  have hne : hash ≠ p := fun heq =>
    Bool.false_ne_true (hnot.symm.trans ((hexecuted hash).mpr (.inr heq)))
  have hwaits : node.Waits hash := by
    refine ⟨?_, info, hinfo ▸ hsome, hgood⟩
    by_contra hyes
    rw [Bool.not_eq_false] at hyes
    exact Bool.false_ne_true (hnot.symm.trans ((hexecuted hash).mpr (.inl hyes)))
  have hsame : node'.parentsOf hash = node.parentsOf hash := by
    unfold parentsOf
    rw [hinfo]
  rw [hsame] at hparents
  refine ⟨hne, ?_⟩
  by_cases hp : p ∈ node.parentsOf hash ∧ node.isBlockExecuted p = false
  · exact .inr ⟨hwaits, hp.1, hp.2, fun q hq =>
      ((hexecuted q).mp (hparents q hq)).symm⟩
  · refine .inl ⟨hwaits, fun q hq => ?_⟩
    rcases (hexecuted q).mp (hparents q hq) with hold | rfl
    · exact hold
    · by_contra hnot
      exact hp ⟨hq, by simpa using hnot⟩

/-- What a task attends to while it accepts a block, it attends to after the next effect,
unless this one marks it as final or unwinds it. -/
theorem attends_rest {how : Accepted} {acceptance acceptance' : Acceptance}
    {effect : AcceptEffect} {rest : List AcceptEffect}
    (h : Suspended.Attends F node hash (.accepting how acceptance))
    (heffects : acceptance.effects = effect :: rest) (hfinal : effect ≠ .markAsFinal hash)
    (hunwind : effect ≠ .unwindBlock hash) (hblock : acceptance'.block = acceptance.block)
    (hrest : rest ⊆ acceptance'.effects) (hcarries : Carries node node' hash) :
    Suspended.Attends F node' hash (.accepting how acceptance') := by
  rcases h with hmem | hmem | ⟨hhow, hparent, hchild⟩
  · rw [heffects] at hmem
    exact .inl (hrest ((List.mem_cons.mp hmem).resolve_left fun heq => hfinal heq.symm))
  · rw [heffects] at hmem
    exact .inr (.inl (hrest ((List.mem_cons.mp hmem).resolve_left fun heq => hunwind heq.symm)))
  · rw [← hblock] at hparent hchild
    obtain ⟨hparent', hchild'⟩ := hcarries.edges _ hparent
    exact .inr (.inr ⟨hhow, hparent', hchild' hchild⟩)

section Effects

variable {how : Accepted} {acceptance : Acceptance} {rest : List AcceptEffect}
  {effect : AcceptEffect}

/-- Effects on the disk. -/
theorem settles_disk {disk : BlockStore} (nHeightMax : Nat)
    (heffects : acceptance.effects = effect :: rest)
    (hfinal : ∀ hash, effect ≠ .markAsFinal hash) (hunwind : ∀ hash, effect ≠ .unwindBlock hash)
    (hblocks : ∀ hash block, disk.blocks.lookup hash = some block →
      node.disk.blocks.lookup hash = some block) :
    Settles F node late (Suspended.Attends F node · (.accepting how acceptance))
      ({ node with disk, accepting := none },
        some (.accepting how { acceptance with nHeightMax, effects := rest })) := by
  have hgraph : SameGraph node { node with disk, accepting := none } := ⟨rfl, rfl⟩
  refine settles_of_sameGraph hgraph hblocks (fun _ h => h) fun hash _ hmine => .inr ⟨_, rfl, ?_⟩
  exact attends_rest hmine heffects (hfinal hash) (hunwind hash) rfl (List.Subset.refl _)
    (hgraph.carries id)

/-- What leaves the pending blocks is marked as final or unwound later. -/
theorem mem_after_checkFinality {pbm after : PendingBlocksManager} {newVertex : Hash}
    {nConciliumCount : Nat} {result : Option FinalityResult}
    (h : pbm.checkFinality F J newVertex nConciliumCount = .ok (result, after)) {v : Hash} :
    (v ∈ after.dag → v ∈ pbm.dag) ∧
      (v ∈ pbm.dag → v ∈ after.dag ∨ .markAsFinal v ∈ result.elim [] FinalityResult.effects ∨
        .unwindBlock v ∈ result.elim [] FinalityResult.effects) := by
  cases result with
  | none =>
      rw [PendingBlocksManager.checkFinality_none h]
      exact ⟨id, .inl⟩
  | some r =>
      obtain ⟨-, -, -, rfl⟩ := PendingBlocksManager.checkFinality_ok h
      rw [PendingBlocksManager.mem_settle]
      refine ⟨And.left, fun hv => ?_⟩
      by_cases hstable : v ∈ r.setStableBlocks
      · exact .inr (.inl (List.mem_cons_of_mem _ (List.mem_append_left _
          (List.mem_map_of_mem hstable))))
      by_cases hrollback : v ∈ r.setBlocksToRollback
      · exact .inr (.inr (List.mem_cons_of_mem _ (List.mem_append_right _
          (List.mem_cons_of_mem _ (List.mem_append_left _ (List.mem_map_of_mem hrollback))))))
      · exact .inl ⟨hv, hstable, hrollback⟩

theorem settles_checkFinality {result : Option FinalityResult} {after : PendingBlocksManager}
    {nConciliumCount : Nat}
    (heffects : acceptance.effects = .checkFinality :: rest)
    (hcheck : node.pendingBlocks.checkFinality F J (acceptance.block.hash F) nConciliumCount =
      .ok (result, after)) :
    Settles F node late (Suspended.Attends F node · (.accepting how acceptance))
      ({ node with pendingBlocks := after, accepting := none },
        some (.accepting how { acceptance with
          effects := (result.elim [] FinalityResult.effects) ++ rest })) where
  keyed h := ⟨h.infos, h.blocks⟩
  attended hash hexecutable := by
    have hcarries : Carries node { node with pendingBlocks := after, accepting := none } hash :=
      ⟨id, fun p hp => ⟨hp, id⟩⟩
    by_cases hmine : Suspended.Attends F node hash (.accepting how acceptance)
    · exact .inl (.inr ⟨_, rfl, attends_rest hmine heffects (by simp) (by simp) rfl
        (List.subset_append_right _ _) hcarries⟩)
    obtain ⟨⟨hnot, hwaits⟩, hparents⟩ := hexecutable
    have hnot' : ¬ ((node.mainDag.getBlockInfo hash).any (·.isFinal) = true ∨ hash ∈ after.dag) :=
      fun hyes => Bool.false_ne_true (hnot.symm.trans ((isBlockExecuted_iff _ hash).mpr hyes))
    by_cases hpending : hash ∈ node.pendingBlocks.dag
    · rcases (mem_after_checkFinality hcheck).2 hpending with hafter | hfinal | hunwind
      · exact absurd (.inr hafter) hnot'
      · exact .inl (.inr ⟨_, rfl, .inl (List.mem_append_left _ hfinal)⟩)
      · exact .inl (.inr ⟨_, rfl, .inr (.inl (List.mem_append_left _ hunwind))⟩)
    · refine .inr ⟨.inl ⟨⟨?_, hwaits⟩, fun p hp => ?_⟩, hmine, hcarries⟩
      · rw [← Bool.not_eq_true, isBlockExecuted_iff]
        exact fun hyes => hnot' (hyes.imp_right fun h => absurd h hpending)
      · rw [isBlockExecuted_iff]
        exact ((isBlockExecuted_iff _ p).mp (hparents p hp)).imp_right
          (mem_after_checkFinality hcheck).1

theorem settles_markAsFinal (how : Accepted) (nHeightMax : Nat) {bi : BlockInfo}
    {disk : BlockStore}
    (hkeyed : Keyed F node) (heffects : acceptance.effects = .markAsFinal k :: rest)
    (hinfo : node.mainDag.getBlockInfo k = some bi) (hdisk : disk.blocks = node.disk.blocks) :
    Settles F node (node.WaitsOnlyFor k)
      (Suspended.Attends F node · (.accepting how acceptance))
      ({ node with mainDag := node.mainDag.setBlockInfo F bi.markAsFinal, disk, accepting := none },
        some (.accepting how { acceptance with nHeightMax, effects := rest })) := by
  have hhash : bi.markAsFinal.getHash F = k := hkeyed.infos k bi hinfo
  have hget (v : Hash) : (node.mainDag.setBlockInfo F bi.markAsFinal).getBlockInfo v =
      if v = k then some bi.markAsFinal else node.mainDag.getBlockInfo v := by
    rw [MainDag.getBlockInfo_setBlockInfo, hhash]
  have hexecuted (v : Hash) :
      ({ node with
        mainDag := node.mainDag.setBlockInfo F bi.markAsFinal
        disk
        accepting := none } : BlockNode).isBlockExecuted v = true ↔
          node.isBlockExecuted v = true ∨ v = k := by
    rw [isBlockExecuted_iff, isBlockExecuted_iff, hget]
    by_cases hv : v = k
    · simp [hv, BlockInfo.isFinal, BlockInfo.markAsFinal]
    · simp [hv]
  refine ⟨fun _ => ⟨fun hash info hsome => ?_, fun hash block => ?_⟩, fun hash hexecutable => ?_⟩
  · change (node.mainDag.setBlockInfo F bi.markAsFinal).getBlockInfo hash = some info at hsome
    rw [hget] at hsome
    split at hsome
    next heq =>
      cases hsome
      exact hhash.trans heq.symm
    next => exact hkeyed.infos hash info hsome
  · dsimp only
    rw [hdisk]
    exact hkeyed.blocks hash block
  · have hne : hash ≠ k := fun heq =>
      Bool.false_ne_true (hexecutable.1.1.symm.trans ((hexecuted hash).mpr (.inr heq)))
    have hsame := hget hash
    rw [if_neg hne] at hsame
    have hcarries : Carries node
        { node with
          mainDag := node.mainDag.setBlockInfo F bi.markAsFinal
          disk
          accepting := none } hash := by
      refine ⟨id, fun p hp => ⟨?_, id⟩⟩
      unfold parentsOf at hp ⊢
      dsimp only
      rwa [hsame]
    by_cases hmine : Suspended.Attends F node hash (.accepting how acceptance)
    · refine .inl (.inr ⟨_, rfl, attends_rest hmine heffects ?_ (by simp) rfl
        (List.Subset.refl _) hcarries⟩)
      intro heq
      cases heq
      exact hne rfl
    · exact .inr ⟨(executable_or_waitsOnlyFor hsame hexecuted hexecutable).2, hmine, hcarries⟩

/-- A block that is unwound leaves the main graph, with its edges. -/
theorem settles_unwindBlock (heffects : acceptance.effects = .unwindBlock k :: rest) :
    Settles F node late (Suspended.Attends F node · (.accepting how acceptance))
      ({ node with
        pendingBlocks := node.pendingBlocks.removeBlock k
        mainDag := node.mainDag.removeBlock k
        accepting := none },
        some (.accepting how { acceptance with effects := rest })) := by
  have hget (v : Hash) : (node.mainDag.removeBlock k).getBlockInfo v =
      if v = k then none else node.mainDag.getBlockInfo v :=
    MainDag.getBlockInfo_removeBlock _ _ _
  have hexecuted (v : Hash) :
      ({ node with
        pendingBlocks := node.pendingBlocks.removeBlock k
        mainDag := node.mainDag.removeBlock k
        accepting := none } : BlockNode).isBlockExecuted v = true ↔
          node.isBlockExecuted v = true ∧ v ≠ k := by
    have hpending : v ∈ (node.pendingBlocks.removeBlock k).dag ↔
        v ≠ k ∧ v ∈ node.pendingBlocks.dag := AList.mem_erase
    rw [isBlockExecuted_iff, isBlockExecuted_iff, hget, hpending]
    by_cases hv : v = k
    · simp [hv]
    · simp [hv]
  refine ⟨fun h => ⟨fun hash info hsome => ?_, h.blocks⟩, fun hash hexecutable => ?_⟩
  · change (node.mainDag.removeBlock k).getBlockInfo hash = some info at hsome
    rw [hget] at hsome
    split at hsome
    next => cases hsome
    next => exact h.infos hash info hsome
  obtain ⟨⟨hnot, info, hsome, hgood⟩, hparents⟩ := hexecutable
  change (node.mainDag.removeBlock k).getBlockInfo hash = some info at hsome
  have hne : hash ≠ k := by
    rintro rfl
    rw [hget, if_pos rfl] at hsome
    cases hsome
  have hsame := hget hash
  rw [if_neg hne] at hsame
  have hparentsOf : ∀ p ∈ node.parentsOf hash, node.isBlockExecuted p = true ∧ p ≠ k := by
    intro p hp
    refine (hexecuted p).mp (hparents p ?_)
    unfold parentsOf at hp ⊢
    dsimp only
    rwa [hsame]
  have hcarries : Carries node
      { node with
        pendingBlocks := node.pendingBlocks.removeBlock k
        mainDag := node.mainDag.removeBlock k
        accepting := none } hash := by
    refine ⟨id, fun p hp => ⟨?_, fun hchild => ?_⟩⟩
    · unfold parentsOf at hp ⊢
      dsimp only
      rwa [hsame]
    · -- the edge joins two other blocks
      obtain ⟨edge, hedge, rfl⟩ := List.mem_map.mp hchild
      obtain ⟨hmem, hto⟩ := List.mem_filter.mp hedge
      have hto : edge.2 = p := of_decide_eq_true hto
      refine List.mem_map.mpr ⟨edge, List.mem_filter.mpr ⟨List.mem_filter.mpr ⟨hmem, ?_⟩, ?_⟩, rfl⟩
      · exact decide_eq_true ⟨hne, fun heq => (hparentsOf p hp).2 (hto.symm.trans heq)⟩
      · exact decide_eq_true hto
  by_cases hmine : Suspended.Attends F node hash (.accepting how acceptance)
  · refine .inl (.inr ⟨_, rfl, attends_rest hmine heffects (by simp) ?_ rfl
      (List.Subset.refl _) hcarries⟩)
    intro heq
    cases heq
    exact hne rfl
  · refine .inr ⟨.inl ⟨⟨?_, info, hsame ▸ hsome, hgood⟩, fun p hp => (hparentsOf p hp).1⟩, hmine,
      hcarries⟩
    by_contra hyes
    rw [Bool.not_eq_false] at hyes
    exact Bool.false_ne_true (hnot.symm.trans ((hexecuted hash).mpr ⟨hyes, hne⟩))

theorem settles_runEffect (hkeyed : Keyed F node) (heffects : acceptance.effects = effect :: rest)
    (hrun : node.runEffect F J acceptance rest effect = .ok node') :
    Settles F node (fun hash => ∃ k, effect = .markAsFinal k ∧ node.WaitsOnlyFor k hash)
      (Suspended.Attends F node · (.accepting how acceptance))
      ({ node' with accepting := none }, node'.accepting.map (Suspended.accepting how)) := by
  cases effect with
  | checkFinality =>
      unfold runEffect at hrun
      dsimp only at hrun
      split at hrun
      next => cases hrun
      next result after hcheck =>
        cases hrun
        exact settles_checkFinality heffects hcheck
  | updateLastAppliedBlocks arrTopStable =>
      unfold runEffect at hrun
      dsimp only at hrun
      split at hrun
      next => cases hrun
      next =>
        cases hrun
        exact settles_disk _ heffects (by simp) (by simp) fun _ _ h => h
  | markAsFinal k =>
      unfold runEffect at hrun
      dsimp only at hrun
      split at hrun
      next => cases hrun
      next bi hinfo =>
        cases hrun
        have hdisk : (node.disk.saveBlockInfo F bi.markAsFinal).blocks = node.disk.blocks := rfl
        have h := settles_markAsFinal how (max acceptance.nHeightMax bi.header.height) hkeyed
          heffects hinfo hdisk
        refine ⟨h.keyed, fun hash hexecutable => ?_⟩
        refine (h.attended hash hexecutable).imp_right fun hold => ⟨?_, hold.2⟩
        exact hold.1.imp_right fun hwaits => ⟨k, rfl, hwaits⟩
  | applyPatch patchToApply =>
      cases hrun
      exact settles_disk _ heffects (by simp) (by simp) fun _ _ h => h
  | unwindBlock k =>
      unfold runEffect at hrun
      dsimp only at hrun
      split at hrun
      next => cases hrun
      next =>
        cases hrun
        exact settles_unwindBlock heffects
  | saveBadInfo k =>
      unfold runEffect at hrun
      dsimp only at hrun
      split at hrun
      next => cases hrun
      next =>
        cases hrun
        exact settles_disk _ heffects (by simp) (by simp) fun _ _ h => h
  | removeBlock k =>
      cases hrun
      refine settles_disk _ heffects (by simp) (by simp) fun hash block h => ?_
      change (node.disk.blocks.erase k).lookup hash = some block at h
      rw [FinMap.lookup_erase_ite] at h
      split at h
      next => cases h
      next => exact h
  | updatePendingBlocks =>
      cases hrun
      exact settles_disk _ heffects (by simp) (by simp) fun _ _ h => h

/-- A block is added to the pending ones. Its children are known to the task if the main
graph has the edges to it. -/
theorem settles_adding (how : Accepted) (block : Block) (patchState : PatchDB) :
    Settles F node (fun hash => node.WaitsOnlyFor (block.hash F) hash ∧
        ¬ (how ≠ .committed ∧ hash ∈ node.mainDag.getChildren (block.hash F)))
      (Suspended.Attends F node · (.adding how block patchState))
      ({ node with pendingBlocks := node.pendingBlocks.addBlock F block patchState },
        some (.accepting how { block, effects := [.checkFinality, .updatePendingBlocks] })) where
  keyed h := ⟨h.infos, h.blocks⟩
  attended hash hexecutable := by
    have hexecuted (q : Hash) : ({ node with
        pendingBlocks := node.pendingBlocks.addBlock F block patchState } :
          BlockNode).isBlockExecuted q = true ↔
            node.isBlockExecuted q = true ∨ q = block.hash F :=
      isBlockExecuted_addBlock block patchState
    obtain ⟨hne, hold⟩ : hash ≠ block.hash F ∧
        (node.Executable hash ∨ node.WaitsOnlyFor (block.hash F) hash) := by
      refine executable_or_waitsOnlyFor ?_ hexecuted hexecutable
      rfl
    by_cases hchild : block.hash F ∈ node.parentsOf hash ∧
        how ≠ .committed ∧ hash ∈ node.mainDag.getChildren (block.hash F)
    · exact .inl (.inr ⟨_, rfl, .inr (.inr ⟨hchild.2.1, hchild.1, hchild.2.2⟩)⟩)
    · refine .inr ⟨hold.imp_right fun hwaits => ⟨hwaits, fun h => hchild ⟨hwaits.2.1, h⟩⟩,
        fun heq => hne heq.symm, id, fun p hp => ⟨hp, id⟩⟩

end Effects

/-! ### Tasks -/

/-- When a task goes on without leaving a block behind. A block that is added to the pending
ones, or marked as final, is the last parent only of blocks that are attended to, or that it
will queue itself; a turn of the queue deletes no entry of a block that can be executed and
that no task attends to; a commit does not stumble over a bad parent; and no effect fails. -/
def LeavesNone (F : Factory) (J : Dagjs) (s : BusyNode) : Suspended → Prop
  | .adding how block _ => ∀ hash, s.node.WaitsOnlyFor (block.hash F) hash →
      how ≠ .committed ∧ hash ∈ s.node.mainDag.getChildren (block.hash F) ∨ s.Attended F hash
  | .accepting _ acceptance => ∀ effect rest, acceptance.effects = effect :: rest →
      (∃ node, s.node.runEffect F J acceptance rest effect = .ok node) ∧
        ∀ k, effect = .markAsFinal k → ∀ hash, s.node.WaitsOnlyFor k hash → s.Attended F hash
  | .removing hash => s.node.Executable hash → ∃ task ∈ s.tasks, task.Attends F s.node hash
  | .inFlight .commitBlock block => s.node.Executable (block.hash F) →
      ∃ b, s.node.canExecuteBlock F (block.hash F) block.parentHashes = .ok b
  | _ => True

/-- A task that neither adds a block, nor runs an effect, nor deletes an entry. -/
theorem settles_runTask (s : BusyNode) (hkeyed : Keyed F s.node) (bLocked : Bool)
    (outcome : Except String PatchDB) (task : Suspended) (hnone : LeavesNone F J s task)
    (hadding : ∀ how block patchState, task ≠ .adding how block patchState)
    (heffects : ∀ how acceptance, task = .accepting how acceptance → acceptance.effects = [])
    (hremoving : ∀ hash, task ≠ .removing hash) :
    Settles F s.node (fun _ => False) (Suspended.Attends F s.node · task)
      (s.node.runTask F J bLocked outcome task) := by
  have hidle {next : Option Suspended} (hown : ∀ hash, ¬ Suspended.Attends F s.node hash task) :
      Settles F s.node (fun _ => False) (Suspended.Attends F s.node · task) (s.node, next) :=
    settles_of_sameGraph ⟨rfl, rfl⟩ (fun _ _ h => h) (fun _ h => h)
      fun hash _ hmine => absurd hmine (hown hash)
  cases task with
  | arrived caller block =>
      dsimp only [runTask]
      split
      next =>
        split
        next => exact hidle fun _ h => h
        next => exact settles_blockBad s.node (block.info F) fun _ h => h.elim
      next =>
        have henters := enters_storeBlockAndInfo (F := F) s.node (some block)
          (block.info F).markAsInFlight false
        exact settles_enters (henters.congr ⟨rfl, rfl⟩ rfl rfl) rfl (fun _ h => h) ⟨_, rfl, rfl⟩
  | loading k =>
      dsimp only [runTask]
      split
      next => exact hidle fun _ h => h
      next block hblock =>
        exact settles_enters (enters_storeBlockAndInfo s.node (some block)
          (block.info F).markAsInFlight true) rfl (fun _ h => h) ⟨_, rfl, rfl⟩
  | inFlight caller block =>
      refine (settles_beginProcessBlock s.node caller (block.info F) ?_ ?_).mono
        fun hash _ h => h.symm
      · intro b hb
        cases hb
        rfl
      · intro hcaller
        subst hcaller
        exact hnone
  | parents caller blockInfo parentHash bKnown rest arrToRequest arrToExec =>
      dsimp only [runTask]
      split
      next => exact (settles_processParents s.node _ _ _ _ _).mono fun _ _ h => h
      next => exact (settles_processParents s.node _ _ _ _ _).mono fun _ _ h => h
  | reading blockInfo =>
      dsimp only [runTask]
      split
      next =>
        refine (settles_thrown s.node .blockProcessor blockInfo ?_).mono fun _ _ h => h.symm
        exact fun h => by cases h
      next block hblock =>
        refine settles_of_sameGraph ⟨rfl, rfl⟩ (fun _ _ h => h) (fun _ h => h)
          fun hash _ hmine => .inr ⟨_, rfl, ?_⟩
        unfold BlockStore.getBlock at hblock
        split at hblock
        next hlookup =>
          cases hblock
          exact (hkeyed.blocks _ _ hlookup).trans hmine
        next => cases hblock
  | locked caller block =>
      dsimp only [runTask]
      split
      next =>
        exact settles_of_sameGraph ⟨rfl, rfl⟩ (fun _ _ h => h) (fun _ h => h)
          fun hash _ hmine => .inr ⟨_, rfl, hmine⟩
      next =>
        split
        next hexecuted =>
          refine (settles_endProcessBlock s.node caller (block.hash F)).mono fun hash h hmine => ?_
          cases hmine
          exact absurd (h.1.1.symm.trans hexecuted) Bool.false_ne_true
        next =>
          exact settles_of_sameGraph ⟨rfl, rfl⟩ (fun _ _ h => h) (fun _ h => h)
            fun hash _ hmine => .inr ⟨_, rfl, hmine⟩
  | executing caller block =>
      dsimp only [runTask]
      split
      next => exact (settles_catchExec s.node caller block).mono fun _ _ h => h.symm
      next =>
        split
        next hexecuted =>
          refine (settles_endProcessBlock s.node caller (block.hash F)).mono fun hash h hmine => ?_
          cases hmine
          exact absurd (h.1.1.symm.trans hexecuted) Bool.false_ne_true
        next =>
          exact settles_of_sameGraph ⟨rfl, rfl⟩ (fun _ _ h => h) (fun _ h => h)
            fun hash _ hmine => .inr ⟨_, rfl, hmine⟩
  | committing block patch =>
      dsimp only [runTask]
      split
      next => exact hidle fun _ h => h
      next =>
        exact settles_enters (enters_storeBlockAndInfo s.node (some block) (block.info F) false) rfl
          (fun _ h => h) ⟨_, rfl, rfl⟩
  | adding how block patchState => exact absurd rfl (hadding how block patchState)
  | accepting how acceptance =>
      obtain ⟨block, nHeightMax, effects⟩ := acceptance
      obtain rfl : effects = [] := heffects how _ rfl
      cases how with
      | executed caller =>
          refine (settles_endProcessBlock s.node caller (block.hash F)).mono fun hash _ hmine => ?_
          rcases hmine with hmem | hmem | ⟨-, -, hchild⟩
          · cases hmem
          · cases hmem
          · exact hchild
      | committed =>
          refine hidle fun hash hmine => ?_
          rcases hmine with hmem | hmem | ⟨hhow, -⟩
          · cases hmem
          · cases hmem
          · exact hhow rfl
  | removing hash => exact absurd rfl (hremoving hash)

theorem attends_of_carries {task : Suspended} (h : task.Attends F node hash)
    (hcarries : Carries node node' hash) : task.Attends F node' hash := by
  cases task with
  | accepting how acceptance =>
      refine h.imp_right fun h => h.imp_right fun ⟨hhow, hparent, hchild⟩ => ?_
      obtain ⟨hparent', hchild'⟩ := hcarries.edges _ hparent
      exact ⟨hhow, hparent', hchild' hchild⟩
  | _ => exact h

end BlockNode

namespace BusyNode

open BlockNode

variable {s : BusyNode}

/-- Whatever can be executed is attended to. -/
structure Watched (F : Factory) (s : BusyNode) : Prop where
  keyed : Keyed F s.node
  attended : ∀ hash, s.node.Executable hash → s.Attended F hash

/-- A task goes on, the others stay. -/
theorem Watched.settles (h : s.Watched F) {late own : Hash → Prop}
    {r : BlockNode × Option Suspended} {rest : List Suspended}
    (hsettles : Settles F s.node late own r)
    (hlate : ∀ hash, late hash → s.Attended F hash)
    (hrest : ∀ task ∈ s.tasks, task ∈ rest ∨ ∀ hash, task.Attends F s.node hash → own hash) :
    Watched F ⟨r.1, rest ++ r.2.toList⟩ where
  keyed := hsettles.keyed h.keyed
  attended hash hexecutable := by
    rcases hsettles.attended hash hexecutable with (hqueue | ⟨task, htask, hattends⟩) |
      ⟨hold, hnot, hcarries⟩
    · exact .inl hqueue
    · exact .inr ⟨task, List.mem_append_right _ (Option.mem_toList.mpr htask), hattends⟩
    · have hattended : s.Attended F hash := hold.elim (h.attended hash) (hlate hash)
      rcases hattended with hqueue | ⟨task, htask, hattends⟩
      · exact .inl (hcarries.queue hqueue)
      · rcases hrest task htask with hmem | hown
        · exact .inr ⟨task, List.mem_append_left _ hmem, attends_of_carries hattends hcarries⟩
        · exact absurd (hown hash hattends) hnot

/-- Every task that goes on leaves no block behind. -/
def LeavesNone (F : Factory) (J : Dagjs) (s : BusyNode) : Event → Prop
  | .resume n _ => ∀ task, s.tasks[n]? = some task → BlockNode.LeavesNone F J s task
  | _ => True

theorem mem_or_mem_eraseIdx {tasks : List Suspended} {n : Nat} {task other : Suspended}
    (hn : tasks[n]? = some task) (h : other ∈ tasks) : other ∈ tasks.eraseIdx n ∨ other = task := by
  obtain ⟨i, hi⟩ := List.mem_iff_getElem?.mp h
  by_cases hin : i = n
  · rw [hin, hn] at hi
    exact .inr (Option.some.inj hi).symm
  · exact .inl (List.mem_eraseIdx_iff_getElem?.mpr ⟨i, hin, hi⟩)

/-- The entry of a block that cannot be executed, or that some task attends to, is deleted. -/
theorem Watched.removing (h : s.Watched F) {k : Hash} {n : Nat}
    (hn : s.tasks[n]? = some (.removing k))
    (hnone : s.node.Executable k → ∃ task ∈ s.tasks, task.Attends F s.node k) :
    Watched F ⟨{ s.node with mapBlocksToExec := s.node.mapBlocksToExec.filter (· ≠ k) },
      s.tasks.eraseIdx n ++ []⟩ where
  keyed := ⟨h.keyed.infos, h.keyed.blocks⟩
  attended hash hexecutable := by
    have hgraph : SameGraph s.node
        { s.node with mapBlocksToExec := s.node.mapBlocksToExec.filter (· ≠ k) } := ⟨rfl, rfl⟩
    have hold := hgraph.executable.mp hexecutable
    -- the task itself attends to no block
    have hother : (∃ task ∈ s.tasks, task.Attends F s.node hash) →
        ∃ task ∈ s.tasks.eraseIdx n ++ [], task.Attends F s.node hash := by
      rintro ⟨task, htask, hattends⟩
      rcases mem_or_mem_eraseIdx hn htask with hmem | rfl
      · exact ⟨task, List.mem_append_left _ hmem, hattends⟩
      · exact hattends.elim
    rcases h.attended hash hold with hqueue | htask
    · by_cases hk : hash = k
      · subst hk
        exact .inr (hother (hnone hold))
      · exact .inl (List.mem_filter.mpr ⟨hqueue, decide_eq_true hk⟩)
    · exact .inr (hother htask)

theorem Watched.step (h : s.Watched F) {event : Event} (hnone : s.LeavesNone F J event) :
    (s.step F J event).Watched F := by
  have hidle (next : Option Suspended) :
      Settles F s.node (fun _ => False) (fun _ => False) (s.node, next) :=
    settles_of_sameGraph ⟨rfl, rfl⟩ (fun _ _ h => h) (fun _ h => h) fun _ _ h => h.elim
  have hstays : ∀ task ∈ s.tasks, task ∈ s.tasks ∨
      ∀ hash, task.Attends F s.node hash → False := fun task htask => .inl htask
  cases event with
  | receive block => exact h.settles (hidle (some _)) (fun _ h => h.elim) hstays
  | commitBlock block patch =>
      dsimp only [BusyNode.step]
      split
      next => exact h.settles (hidle (some _)) (fun _ h => h.elim) hstays
      next =>
        split
        next => exact h
        next => exact h.settles (hidle (some _)) (fun _ h => h.elim) hstays
  | take hash =>
      dsimp only [BusyNode.step]
      split
      next =>
        have hturn : Settles F s.node (fun _ => False) (fun _ => False) (s.beginTurn F hash) := by
          unfold beginTurn
          split
          next => exact hidle _
          next blockInfo hinfo =>
            split
            next => exact settles_blockBad s.node blockInfo fun _ h => h.elim
            next =>
              exact (settles_beginProcessBlock s.node .blockProcessor blockInfo
                (fun _ h => by cases h) fun h => by cases h).mono fun _ _ h => h.elim
        exact h.settles hturn (fun _ h => h.elim) hstays
      next => exact h
  | resume n outcome =>
      dsimp only [BusyNode.step]
      split
      next => exact h
      next task hn =>
        have htask := hnone task hn
        have hrest : ∀ other ∈ s.tasks, other ∈ s.tasks.eraseIdx n ∨
            ∀ hash, other.Attends F s.node hash → task.Attends F s.node hash := by
          intro other hother
          refine (mem_or_mem_eraseIdx hn hother).imp_right ?_
          rintro rfl
          exact fun _ h => h
        cases task with
        | adding how block patchState =>
            refine h.settles (settles_adding how block patchState) ?_ hrest
            rintro hash ⟨hwaits, hnot⟩
            exact (htask hash hwaits).resolve_left hnot
        | removing k => exact h.removing hn htask
        | accepting how acceptance =>
            cases heffects : acceptance.effects with
            | nil =>
                refine h.settles (settles_runTask s h.keyed _ outcome _ htask (by simp) ?_ (by simp))
                  (fun _ h => h.elim) hrest
                rintro _ _ ⟨⟩
                exact heffects
            | cons effect rest =>
                obtain ⟨⟨node, hrun⟩, hfinal⟩ := htask effect rest heffects
                have heq : s.node.runTask F J ((s.tasks.eraseIdx n).any Suspended.isExecuting) outcome
                    (.accepting how acceptance) =
                      ({ node with accepting := none },
                        node.accepting.map (Suspended.accepting how)) := by
                  dsimp only [runTask]
                  rw [heffects]
                  dsimp only
                  rw [hrun]
                rw [heq]
                refine h.settles (settles_runEffect h.keyed heffects hrun) ?_ hrest
                rintro hash ⟨k, hk, hwaits⟩
                exact hfinal k hk hash hwaits
        | _ =>
            exact h.settles (settles_runTask s h.keyed _ outcome _ htask (by simp) (by simp) (by simp))
              (fun _ h => h.elim) hrest

theorem Watched.run {start : BusyNode} (hstart : start.Watched F)
    (hrun : RunWhile F J (LeavesNone F J) start s) : s.Watched F := by
  induction hrun with
  | start => exact hstart
  | step hrun hcondition ih => exact ih.step hcondition

/-- Nothing is under way, every block that can be executed is queued, and blocks and infos
are kept under their hashes. -/
structure AtRest (F : Factory) (s : BusyNode) : Prop where
  tasks : s.tasks = []
  keyed : Keyed F s.node
  queued : ∀ hash, s.node.Executable hash → hash ∈ s.node.mapBlocksToExec

/-- A check of the events of a run, each in the state it happens in. -/
def allAlong (F : Factory) (J : Dagjs) (check : BusyNode → Event → Bool) :
    List Event → BusyNode → Bool
  | [], _ => true
  | event :: rest, s => check s event && allAlong F J check rest (s.step F J event)

theorem RunWhile.foldl {condition : BusyNode → Event → Prop} {check : BusyNode → Event → Bool}
    (hcheck : ∀ s event, check s event = true → condition s event) {start : BusyNode}
    (events : List Event) (hrun : RunWhile F J condition start s)
    (h : allAlong F J check events s = true) :
    RunWhile F J condition start (events.foldl (fun s event => s.step F J event) s) := by
  induction events generalizing s with
  | nil => exact hrun
  | cons event rest ih =>
      rw [allAlong, Bool.and_eq_true] at h
      exact ih (.step hrun (hcheck s event h.1)) h.2

/-- No block of the main graph has the block as a parent. -/
def childless (node : BlockNode) (hash : Hash) : Bool :=
  decide (∀ child ∈ node.mainDag.infos.keys, hash ∉ node.parentsOf child)

theorem not_waitsOnlyFor_of_childless {node : BlockNode} {k hash : Hash}
    (h : childless node k = true) : ¬ node.WaitsOnlyFor k hash := by
  rintro ⟨⟨-, info, hinfo, -⟩, hparent, -⟩
  exact of_decide_eq_true h hash (FinMap.mem_keys_of_lookup hinfo) hparent

/-- A check that no task leaves a block behind, for blocks without children. -/
def childlessTask (F : Factory) (J : Dagjs) (s : BusyNode) : Suspended → Bool
  | .adding _ block _ => childless s.node (block.hash F)
  | .accepting _ acceptance =>
      match acceptance.effects with
      | [] => true
      | effect :: rest =>
          (s.node.runEffect F J acceptance rest effect).toOption.isSome &&
            match effect with
            | .markAsFinal k => childless s.node k
            | _ => true
  | .removing _ | .inFlight .commitBlock _ => false
  | _ => true

def childlessEvent (F : Factory) (J : Dagjs) (s : BusyNode) : Event → Bool
  | .resume n _ => (s.tasks[n]?).all (childlessTask F J s)
  | _ => true

theorem leavesNone_of_childless (s : BusyNode) (event : Event)
    (h : childlessEvent F J s event = true) : s.LeavesNone F J event := by
  cases event with
  | resume n outcome =>
      intro task htask
      have htask : childlessTask F J s task = true := by
        dsimp only [childlessEvent] at h
        rwa [htask] at h
      cases task with
      | adding how block patchState =>
          exact fun hash hwaits => absurd hwaits (not_waitsOnlyFor_of_childless htask)
      | accepting how acceptance =>
          intro effect rest heffects
          unfold childlessTask at htask
          dsimp only at htask
          rw [heffects, Bool.and_eq_true] at htask
          obtain ⟨hrun, hfinal⟩ := htask
          obtain ⟨node, hnode, -⟩ := exists_ok_of_any (p := fun _ => true)
            (x := s.node.runEffect F J acceptance rest effect) (by
              cases hx : s.node.runEffect F J acceptance rest effect with
              | error error => simp [hx, Except.toOption] at hrun
              | ok node => rfl)
          refine ⟨⟨node, hnode⟩, ?_⟩
          rintro k rfl hash hwaits
          exact absurd hwaits (not_waitsOnlyFor_of_childless hfinal)
      | removing hash => cases htask
      | inFlight caller block =>
          cases caller with
          | commitBlock => cases htask
          | _ => trivial
      | _ => trivial
  | _ => trivial

/-- A stable block. -/
def stableInfo : BlockInfo := ⟨⟨[], 0, 0, 0, 1, 0⟩, .FINAL_BLOCK⟩

/-- A node that has only this block. -/
def resting : BusyNode where
  node := {
    BlockNode.empty with
    mainDag := {
      infos := (∅ : FinMap Hash BlockInfo).insert (stableInfo.getHash Factory.sample) stableInfo
      edges := [] } }
  tasks := []

/-- A block without transactions on top of another one. -/
def onTop (parent : Hash) (height : Nat) : Block where
  header := { parentHashes := [parent], merkleRoot := 0, conciliumId := 0, timestamp := 0, height }
  txns := [{ payload := { conciliumId := 0, ins := [⟨0, 0⟩], outs := [] } }]

/-- A block on top of the stable one. -/
def firstBlock : Block := onTop (stableInfo.getHash Factory.sample) 1

/-- A block on top of that one. -/
def secondBlock : Block := onTop (firstBlock.hash Factory.sample) 2

/-- A block arrives, is executed and accepted. -/
def arrival : List Event :=
  .receive firstBlock :: List.replicate 12 (.resume 0 (.ok PatchDB.empty))

/-- A child waits for the block that its witnesses commit. -/
def lateCommit : List Event :=
  [.receive secondBlock, .resume 0 (.ok PatchDB.empty), .resume 0 (.ok PatchDB.empty),
    .resume 0 (.ok PatchDB.empty), .take (secondBlock.hash Factory.sample),
    .resume 0 (.ok PatchDB.empty), .resume 0 (.ok PatchDB.empty),
    .commitBlock firstBlock PatchDB.empty] ++ List.replicate 12 (.resume 0 (.ok PatchDB.empty))

/-- The states after these events. -/
def after (events : List Event) : BusyNode :=
  events.foldl (fun s event => s.step Factory.sample Dagjs.sample event) resting

theorem atRest_resting : resting.AtRest Factory.sample where
  tasks := rfl
  keyed := by
    refine ⟨fun hash info hinfo => ?_, fun hash block hblock => by cases hblock⟩
    change ((∅ : FinMap Hash BlockInfo).insert (stableInfo.getHash Factory.sample)
      stableInfo).lookup hash = some info at hinfo
    rw [FinMap.lookup_insert_ite] at hinfo
    split at hinfo
    next heq =>
      cases hinfo
      exact heq.symm
    next => cases hinfo
  queued hash h := by
    obtain ⟨⟨hnot, info, hinfo, -⟩, -⟩ := h
    change ((∅ : FinMap Hash BlockInfo).insert (stableInfo.getHash Factory.sample)
      stableInfo).lookup hash = some info at hinfo
    rw [FinMap.lookup_insert_ite] at hinfo
    split at hinfo
    next heq =>
      subst heq
      revert hnot
      decide +kernel
    next => cases hinfo

end BusyNode

end CilCore
