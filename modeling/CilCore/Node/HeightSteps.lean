import CilCore.Node.Heights

/-!
# What a step does to heights

The tasks of a node, one after another: most leave the heights of executed blocks alone. A
block is executed when its parents are, so that its height is right once it was checked; from
then on it matters only that the main graph keeps the block and all that it is built on.
-/

namespace CilCore

variable {F : Factory} {J : Dagjs}

namespace Suspended

variable (F : Factory)

/-- The task is going to accept a block. -/
def accepts : Suspended → Bool
  | adding _ _ _ | committing _ _ | accepting _ _ => true
  | _ => false

/-- The task will mark the block as final. -/
def Marks (hash : Hash) : Suspended → Prop
  | accepting _ acceptance => .markAsFinal hash ∈ acceptance.effects
  | _ => False

/-- What the task works on has parents, is built on blocks of the right height, or has the
right height itself, depending on how far it has got. -/
def Right : Suspended → Prop
  | inFlight _ block => block.HasParents F
  | reading blockInfo => BuiltOnRight F blockInfo.header
  | locked _ block | executing _ block =>
      block.HasParents F ∧ BuiltOnRight F (block.hashedHeader F)
  | committing block _ | adding _ block _ => RightHash F (block.hash F)
  | accepting _ acceptance => ∀ arrTopStable,
      .updateLastAppliedBlocks arrTopStable ∈ acceptance.effects →
        ∀ hash ∈ arrTopStable, RightHash F hash
  | _ => True

variable {F : Factory} {task : Suspended} {hash : Hash}

theorem not_marks (h : task.accepts = false) : ¬ task.Marks hash := by
  cases task with
  | accepting how acceptance => cases h
  | _ => exact id

end Suspended

namespace BlockNode

variable {node node' node'' : BlockNode} {marked marked' : Hash → Prop} {hash : Hash}
  {caller : Caller} {blockInfo : BlockInfo} {block : Block}

/-- Blocks are kept under their hashes, in memory and on disk, and have parents. Those that are
listed as pending or stable have the right height, and those that were executed or are about
to be final are placed. The main graph has the edges between pending blocks, and genesis has
no parents if it is pending. -/
structure Measured (F : Factory) (node : BlockNode) (marked : Hash → Prop) : Prop where
  tidy : node.mainDag.Tidy F
  bodies : ∀ hash block, node.disk.blocks.lookup hash = some block →
    block.hash F = hash ∧ block.HasParents F
  infos : ∀ hash info, node.disk.infos.lookup hash = some info →
    F.headerHash info.header = hash ∧ (info.isFinal = true → RightHash F hash)
  listed : ∀ hash, hash ∈ node.disk.arrPending ∨ hash ∈ node.disk.arrLastApplied ∨
    hash ∈ node.pendingBlocks.topStable → RightHash F hash
  genesis : F.constants.GENESIS_BLOCK ∈ node.disk.arrPending ∨
      F.constants.GENESIS_BLOCK ∈ node.pendingBlocks.dag →
    ∀ header, F.headerHash header = F.constants.GENESIS_BLOCK → header.parentHashes = []
  edges : ∀ hash parentHash, node.pendingBlocks.dag.Edge hash parentHash →
    node.mainDag.Edge hash parentHash
  placed : ∀ hash, node.isBlockExecuted hash = true ∨ marked hash → node.mainDag.Placed F hash

theorem Measured.mono (h : Measured F node marked)
    (hmarked : ∀ hash, marked' hash → node.isBlockExecuted hash = true ∨ marked hash) :
    Measured F node marked' :=
  { h with placed := fun hash hstands => h.placed hash (hstands.elim .inl (hmarked hash)) }

/-- Pending blocks are higher than those they are built on. -/
theorem Measured.acyclic (hF : F.DistinguishesHeaders) (h : Measured F node marked) :
    node.pendingBlocks.dag.Acyclic := by
  intro hash hcycle
  obtain ⟨next, hnext, -⟩ := Relation.TransGen.head'_iff.mp hcycle
  have hexecuted : node.isBlockExecuted hash = true :=
    (isBlockExecuted_iff node hash).mpr (.inr hnext.mem_left)
  have hlevelled := (h.placed hash (.inl hexecuted)).levelled hF h.tidy
  exact lt_irrefl _ (hlevelled.lt_of_transGen (Relation.TransGen.mono h.edges hash hash hcycle))

/-! ### What leaves heights alone -/

/-- At most a block that is not final got into the main graph, and nothing was executed. -/
structure Grows (F : Factory) (node node' : BlockNode) : Prop where
  pendingBlocks : node'.pendingBlocks = node.pendingBlocks
  arrPending : node'.disk.arrPending = node.disk.arrPending
  arrLastApplied : node'.disk.arrLastApplied = node.disk.arrLastApplied
  mainDag : node'.mainDag = node.mainDag ∨ ∃ blockInfo : BlockInfo, blockInfo.isFinal = false ∧
    node'.mainDag = node.mainDag.addBlock F blockInfo
  blocks : ∀ hash block, node'.disk.blocks.lookup hash = some block →
    node.disk.blocks.lookup hash = some block ∨ block.hash F = hash ∧ block.HasParents F
  infos : ∀ hash info, node'.disk.infos.lookup hash = some info →
    node.disk.infos.lookup hash = some info ∨
      F.headerHash info.header = hash ∧ info.isFinal = false

theorem Grows.of_eq (hmainDag : node'.mainDag = node.mainDag)
    (hpending : node'.pendingBlocks = node.pendingBlocks) (hdisk : node'.disk = node.disk) :
    Grows F node node' where
  pendingBlocks := hpending
  arrPending := congrArg BlockStore.arrPending hdisk
  arrLastApplied := congrArg BlockStore.arrLastApplied hdisk
  mainDag := .inl hmainDag
  blocks _ _ h := .inl (hdisk ▸ h)
  infos _ _ h := .inl (hdisk ▸ h)

theorem Grows.congr (h : Grows F node node') (hmainDag : node''.mainDag = node'.mainDag)
    (hpending : node''.pendingBlocks = node'.pendingBlocks) (hdisk : node''.disk = node'.disk) :
    Grows F node node'' where
  pendingBlocks := hpending.trans h.pendingBlocks
  arrPending := (congrArg BlockStore.arrPending hdisk).trans h.arrPending
  arrLastApplied := (congrArg BlockStore.arrLastApplied hdisk).trans h.arrLastApplied
  mainDag := by
    rw [hmainDag]
    exact h.mainDag
  blocks := by
    rw [hdisk]
    exact h.blocks
  infos := by
    rw [hdisk]
    exact h.infos

theorem Grows.isBlockExecuted (h : Grows F node node')
    (hexecuted : node'.isBlockExecuted hash = true) : node.isBlockExecuted hash = true := by
  rw [isBlockExecuted_iff] at hexecuted ⊢
  rw [h.pendingBlocks] at hexecuted
  refine hexecuted.imp_left fun hfinal => ?_
  rcases h.mainDag with hsame | ⟨blockInfo, hnot, hadded⟩
  · rwa [hsame] at hfinal
  · rw [hadded, MainDag.getBlockInfo_addBlock] at hfinal
    split at hfinal
    next => exact absurd (hnot.symm.trans hfinal) Bool.false_ne_true
    next => exact hfinal

theorem Measured.grows (hF : F.DistinguishesHeaders) (h : Measured F node marked)
    (hgrows : Grows F node node') : Measured F node' marked := by
  have hgraph : node'.mainDag.Tidy F ∧ MainDag.Extends node.mainDag node'.mainDag := by
    rcases hgrows.mainDag with hsame | ⟨blockInfo, -, hadded⟩
    · rw [hsame]
      exact ⟨h.tidy, fun _ info hinfo => ⟨info, hinfo, rfl⟩, fun _ _ hedge => hedge⟩
    · rw [hadded]
      exact ⟨h.tidy.addBlock hF blockInfo, MainDag.extends_addBlock hF h.tidy blockInfo⟩
  refine ⟨hgraph.1, fun hash block hblock => ?_, fun hash info hinfo => ?_, ?_, ?_, ?_,
    fun hash hstands => ?_⟩
  · exact (hgrows.blocks hash block hblock).elim (h.bodies hash block) id
  · rcases hgrows.infos hash info hinfo with hold | ⟨hhash, hnot⟩
    · exact h.infos hash info hold
    · exact ⟨hhash, fun hfinal => absurd (hnot.symm.trans hfinal) Bool.false_ne_true⟩
  · rw [hgrows.pendingBlocks, hgrows.arrPending, hgrows.arrLastApplied]
    exact h.listed
  · rw [hgrows.pendingBlocks, hgrows.arrPending]
    exact h.genesis
  · rw [hgrows.pendingBlocks]
    exact fun v w hedge => hgraph.2.edge v w (h.edges v w hedge)
  · exact hgraph.2.placed (h.placed hash (hstands.imp_left hgrows.isBlockExecuted))

theorem Measured.rightHash (h : Measured F node marked) (hexecuted : node.isBlockExecuted hash = true) :
    RightHash F hash :=
  (h.placed hash (.inl hexecuted)).2

theorem grows_addBlock (node : BlockNode) (hnot : blockInfo.isFinal = false) {disk : BlockStore}
    (hpending : disk.arrPending = node.disk.arrPending)
    (hlast : disk.arrLastApplied = node.disk.arrLastApplied)
    (hblocks : ∀ hash block, disk.blocks.lookup hash = some block →
      node.disk.blocks.lookup hash = some block ∨ block.hash F = hash ∧ block.HasParents F)
    (hinfos : disk.infos = node.disk.infos ∨
      disk.infos = node.disk.infos.insert (blockInfo.getHash F) blockInfo) :
    Grows F node { node with mainDag := node.mainDag.addBlock F blockInfo, disk } := by
  refine ⟨rfl, hpending, hlast, .inr ⟨blockInfo, hnot, rfl⟩, hblocks, fun hash info hinfo => ?_⟩
  dsimp only at hinfo
  rcases hinfos with hsame | hsaved
  · exact .inl (hsame ▸ hinfo)
  · rw [hsaved, FinMap.lookup_insert_ite] at hinfo
    split at hinfo
    next heq =>
      cases hinfo
      exact .inr ⟨heq.symm, hnot⟩
    next => exact .inl hinfo

theorem grows_storeBlockAndInfo (node : BlockNode) {body : Option Block}
    (hnot : blockInfo.isFinal = false) {bOnlyDag : Bool}
    (hbody : bOnlyDag = true ∨ ∀ block ∈ body, block.HasParents F) :
    Grows F node (node.storeBlockAndInfo F body blockInfo bOnlyDag) := by
  have hsame : Grows F node { node with mainDag := node.mainDag.addBlock F blockInfo } :=
    grows_addBlock node hnot rfl rfl (fun _ _ h => .inl h) (.inl rfl)
  unfold storeBlockAndInfo
  dsimp only
  split
  next => exact hsame
  next honly =>
    have hbody := hbody.resolve_left honly
    split
    next =>
      split
      next =>
        refine grows_addBlock node hnot rfl rfl (fun hash block h => .inl ?_) (.inr rfl)
        change (node.disk.blocks.erase (blockInfo.getHash F)).lookup hash = some block at h
        rw [FinMap.lookup_erase_ite] at h
        split at h
        next => cases h
        next => exact h
      next => exact grows_addBlock node hnot rfl rfl (fun _ _ h => .inl h) (.inr rfl)
    next =>
      split
      next => exact hsame
      next stored hbody =>
        split
        next => exact hsame
        next disk hsave =>
          unfold BlockStore.saveBlock at hsave
          split at hsave
          next => cases hsave
          next =>
            cases hsave
            refine grows_addBlock node hnot rfl rfl (fun hash block h => ?_) (.inr rfl)
            change (node.disk.blocks.insert (stored.hash F) stored).lookup hash = some block at h
            rw [FinMap.lookup_insert_ite] at h
            split at h
            next heq =>
              cases h
              exact .inr ⟨heq.symm, hbody stored rfl⟩
            next => exact .inl h

theorem grows_blockBad (node : BlockNode) (blockInfo : BlockInfo) :
    Grows F node (node.blockBad F blockInfo) := by
  have hnot : blockInfo.markAsBad.isFinal = false := rfl
  exact grows_storeBlockAndInfo node hnot (.inr fun block hblock => by cases hblock)

/-- Nothing was executed, and what goes on next does not accept a block either. -/
structure Quiet (F : Factory) (node : BlockNode) (r : BlockNode × Option Suspended) : Prop where
  grows : Grows F node r.1
  next : ∀ task ∈ r.2, task.accepts = false ∧ task.Right F

theorem Grows.stop (h : Grows F node node') : Quiet F node (node', none) :=
  ⟨h, fun _ htask => by cases htask⟩

theorem Grows.goOn (h : Grows F node node') {task : Suspended} (haccepts : task.accepts = false)
    (hright : task.Right F) : Quiet F node (node', some task) := by
  refine ⟨h, fun other hother => ?_⟩
  cases hother
  exact ⟨haccepts, hright⟩

theorem Grows.refl (F : Factory) (node : BlockNode) : Grows F node node := .of_eq rfl rfl rfl

theorem Grows.returned (h : Grows F node node') (caller : Caller) (hash : Hash) :
    Quiet F node (node', returned caller hash) := by
  unfold BlockNode.returned
  split
  next => exact h.goOn rfl trivial
  next => exact h.stop

theorem grows_queueChildren (node : BlockNode) (hash : Hash) :
    Grows F node (node.queueChildren hash) := by
  obtain ⟨queue, hqueue⟩ := queueChildren_eq node hash
  rw [hqueue]
  exact .of_eq rfl rfl rfl

theorem quiet_thrown (node : BlockNode) (caller : Caller) (blockInfo : BlockInfo) :
    Quiet F node (node.thrown F caller blockInfo) := by
  unfold thrown
  split
  next => exact (Grows.refl F node).stop
  next => exact (grows_blockBad node blockInfo).returned _ _

theorem quiet_processParents (node : BlockNode) (caller : Caller) (blockInfo : BlockInfo)
    (rest arrToRequest arrToExec : List Hash) :
    Quiet F node (node.processParents F caller blockInfo rest arrToRequest arrToExec) := by
  induction rest generalizing arrToRequest arrToExec with
  | nil =>
      unfold processParents
      obtain ⟨queue, hqueue⟩ := foldl_queueBlockExec_eq arrToExec
        { node with
          mapUnknownBlocks := node.mapUnknownBlocks ∪
            arrToRequest.filter fun hash => hash ∉ node.disk.setBlocksBad }
      rw [hqueue]
      refine Grows.returned ?_ _ _
      exact .of_eq rfl rfl rfl
  | cons parentHash rest ih =>
      unfold processParents
      split
      next => exact ih arrToRequest _
      next => exact (Grows.refl F node).goOn rfl trivial

/-- The parents of a block that can be executed are executed. -/
theorem canExecuteBlock_ok {parentHashes : List Hash}
    (h : node.canExecuteBlock F hash parentHashes = .ok true) :
    hash = F.constants.GENESIS_BLOCK ∨
      ∀ parentHash ∈ parentHashes, node.isBlockExecuted parentHash = true := by
  unfold canExecuteBlock at h
  split at h
  next hgenesis => exact .inl hgenesis
  next =>
    refine .inr ?_
    induction parentHashes with
    | nil => exact fun p hp => absurd hp List.not_mem_nil
    | cons first rest ih =>
        unfold canExecuteFrom at h
        split at h
        next => cases h
        next =>
          split at h
          next hfirst => exact List.forall_mem_cons.mpr ⟨hfirst, ih h⟩
          next => cases h

theorem Measured.builtOnRight (h : Measured F node marked) {header : BlockHeader}
    (hcan : node.canExecuteBlock F (F.headerHash header) header.parentHashes = .ok true) :
    BuiltOnRight F header :=
  (canExecuteBlock_ok hcan).imp_right fun hexecuted p hp => h.rightHash (hexecuted p hp)

theorem Measured.quiet_beginProcessBlock (h : Measured F node marked) (caller : Caller)
    (blockInfo : BlockInfo) (block : Option Block)
    (hblock : ∀ b ∈ block, b.HasParents F ∧ blockInfo.header = b.hashedHeader F) :
    Quiet F node (node.beginProcessBlock F caller blockInfo block) := by
  unfold beginProcessBlock
  split
  next => exact quiet_thrown node caller blockInfo
  next hcan =>
    have hbuilt : BuiltOnRight F blockInfo.header := h.builtOnRight hcan
    split
    next => exact (Grows.refl F node).returned _ _
    next =>
      cases block with
      | none => exact (Grows.refl F node).goOn rfl hbuilt
      | some block =>
          obtain ⟨hparents, hheader⟩ := hblock block rfl
          rw [hheader] at hbuilt
          exact (Grows.refl F node).goOn rfl ⟨hparents, hbuilt⟩
  next =>
    obtain ⟨queue, hqueue⟩ := queueBlockExec_eq node (blockInfo.getHash F)
    have hquiet := quiet_processParents (F := F) (node.queueBlockExec (blockInfo.getHash F)) caller
      blockInfo blockInfo.header.parentHashes [] []
    rw [hqueue] at hquiet ⊢
    obtain ⟨⟨hpending, hlisted, hlast, hmainDag, hblocks, hinfos⟩, hnext⟩ := hquiet
    exact ⟨⟨hpending, hlisted, hlast, hmainDag, hblocks, hinfos⟩, hnext⟩

theorem quiet_endProcessBlock (node : BlockNode) (caller : Caller) (hash : Hash) :
    Quiet F node (node.endProcessBlock caller hash) :=
  (grows_queueChildren node hash).returned _ _

theorem quiet_catchExec (node : BlockNode) (caller : Caller) (block : Block) :
    Quiet F node (node.catchExec F caller block) := by
  have hbad : Grows F node (node.blockBad F (block.info F)) := grows_blockBad node _
  unfold catchExec
  split
  next => exact hbad.stop
  next =>
    obtain ⟨queue, hqueue⟩ := queueChildren_eq (node.blockBad F (block.info F)) (block.hash F)
    rw [endProcessBlock, hqueue]
    refine Grows.returned ?_ _ _
    exact hbad.congr rfl rfl rfl

/-! ### Effects -/

/-- Nothing that is executed or about to be final is built on the block, except for the block
itself, which is not about to be final. -/
def CarriesNothing (node : BlockNode) (marked : Hash → Prop) (hash : Hash) : Prop :=
  ∀ v, node.isBlockExecuted v = true ∨ marked v →
    Relation.ReflTransGen node.mainDag.Edge v hash → v = hash ∧ ¬ marked hash

/-- What accepting a block is going to do with stable blocks. -/
theorem mem_effects {result : Option FinalityResult} {effect : AcceptEffect}
    (h : effect ∈ result.elim [] FinalityResult.effects) :
    ∃ r, result = some r ∧ (∀ hash, effect = .markAsFinal hash → hash ∈ r.setStableBlocks) ∧
      ∀ arrTopStable, effect = .updateLastAppliedBlocks arrTopStable →
        arrTopStable = r.arrTopStable := by
  cases result with
  | none => cases h
  | some r =>
      refine ⟨r, rfl, fun hash heffect => ?_, fun arrTopStable heffect => ?_⟩
      · subst heffect
        simpa [FinalityResult.effects] using h
      · subst heffect
        simpa [FinalityResult.effects] using h

theorem Measured.checkFinality (hF : F.DistinguishesHeaders) (h : Measured F node marked)
    {newVertex : Hash} (hnew : newVertex ∈ node.pendingBlocks.dag) {nConciliumCount : Nat}
    {result : Option FinalityResult} {after : PendingBlocksManager}
    (hcheck : node.pendingBlocks.checkFinality F J newVertex nConciliumCount = .ok (result, after))
    (accepting : Option Acceptance) :
    (Measured F { node with pendingBlocks := after, accepting } fun hash =>
      marked hash ∨ .markAsFinal hash ∈ result.elim [] FinalityResult.effects) ∧
      ∀ arrTopStable, .updateLastAppliedBlocks arrTopStable ∈ result.elim [] FinalityResult.effects →
        ∀ hash ∈ arrTopStable, RightHash F hash := by
  have hpart := PendingBlocksManager.partOf_checkFinality hcheck
  have hpending {hash : Hash} (hmem : hash ∈ node.pendingBlocks.dag) :
      node.isBlockExecuted hash = true := (isBlockExecuted_iff node hash).mpr (.inr hmem)
  have hstable {r : FinalityResult} (hr : result = some r) :=
    PendingBlocksManager.mem_of_checkFinality (h.acyclic hF) hnew (hr ▸ hcheck)
  refine ⟨⟨h.tidy, h.bodies, h.infos, fun hash hlisted => ?_, fun hgenesis => ?_,
    fun v w hedge => h.edges v w (hpart.edge v w hedge), fun hash hstands => ?_⟩, ?_⟩
  · rcases hlisted with hpending | hlast | htop
    · exact h.listed hash (.inl hpending)
    · exact h.listed hash (.inr (.inl hlast))
    · cases result with
      | none =>
          rw [PendingBlocksManager.checkFinality_none hcheck] at htop
          exact h.listed hash (.inr (.inr htop))
      | some r =>
          obtain ⟨-, -, -, rfl⟩ := PendingBlocksManager.checkFinality_ok hcheck
          exact h.rightHash (hpending ((hstable rfl).1 hash htop))
  · exact h.genesis (hgenesis.imp_right (mem_after_checkFinality hcheck).1)
  · apply h.placed
    rw [isBlockExecuted_iff] at hstands ⊢
    rcases hstands with (hfinal | hmem) | hmarked | hmark
    · exact .inl (.inl hfinal)
    · exact .inl (.inr ((mem_after_checkFinality hcheck).1 hmem))
    · exact .inr hmarked
    · obtain ⟨r, hr, hset, -⟩ := mem_effects hmark
      exact .inl (.inr ((hstable hr).2 hash (hset hash rfl)))
  · intro arrTopStable heffect hash hhash
    obtain ⟨r, hr, -, htop⟩ := mem_effects heffect
    rw [htop arrTopStable rfl] at hhash
    exact h.rightHash (hpending ((hstable hr).1 hash hhash))

theorem Measured.markAsFinal (h : Measured F node marked) {bi : BlockInfo}
    (hinfo : node.mainDag.getBlockInfo hash = some bi) (hmarked : marked hash)
    (accepting : Option Acceptance) :
    Measured F { node with
      mainDag := node.mainDag.setBlockInfo F bi.markAsFinal
      disk := node.disk.saveBlockInfo F bi.markAsFinal
      accepting } marked := by
  have hhash : bi.markAsFinal.getHash F = hash := h.tidy.keyed hash bi hinfo
  have hext : MainDag.Extends node.mainDag (node.mainDag.setBlockInfo F bi.markAsFinal) :=
    MainDag.extends_setBlockInfo h.tidy hinfo rfl
  refine ⟨h.tidy.setBlockInfo hinfo rfl, h.bodies, fun other info hlookup => ?_, h.listed,
    h.genesis, h.edges,
    fun other hstands => hext.placed ?_⟩
  · change (node.disk.infos.insert (bi.markAsFinal.getHash F) bi.markAsFinal).lookup other =
      some info at hlookup
    rw [FinMap.lookup_insert_ite] at hlookup
    split at hlookup
    next heq =>
      cases hlookup
      rw [heq, hhash]
      exact ⟨hhash, fun _ => (h.placed hash (.inr hmarked)).2⟩
    next => exact h.infos other info hlookup
  · rcases hstands with hexecuted | hmark
    · rw [isBlockExecuted_iff] at hexecuted
      dsimp only at hexecuted
      rw [MainDag.getBlockInfo_setBlockInfo, hhash] at hexecuted
      by_cases heq : other = hash
      · exact h.placed other (.inr (heq ▸ hmarked))
      · rw [if_neg heq] at hexecuted
        exact h.placed other (.inl ((isBlockExecuted_iff node other).mpr hexecuted))
    · exact h.placed other (.inr hmark)

theorem Measured.unwindBlock (h : Measured F node marked) (hnothing : node.CarriesNothing marked hash)
    (accepting : Option Acceptance) :
    Measured F { node with
      pendingBlocks := node.pendingBlocks.removeBlock hash
      mainDag := node.mainDag.removeBlock hash
      accepting } marked where
  tidy := h.tidy.removeBlock hash
  bodies := h.bodies
  infos := h.infos
  listed := h.listed
  genesis hgenesis := h.genesis (hgenesis.imp_right fun hmem => (AList.mem_erase.mp hmem).2)
  edges v w hedge := by
    change (node.pendingBlocks.dag.removeVertices [hash]).Edge v w at hedge
    obtain ⟨hold, hv, hw⟩ := Dag.edge_removeVertices.mp hedge
    rw [List.mem_singleton] at hv hw
    exact MainDag.edge_removeBlock.mpr ⟨h.edges v w hold, hv, hw⟩
  placed v hstands := by
    have hbefore : (node.isBlockExecuted v = true ∧ v ≠ hash) ∨ marked v := by
      refine hstands.imp_left fun hexecuted => ?_
      have hpending : v ∈ (node.pendingBlocks.removeBlock hash).dag ↔
          v ≠ hash ∧ v ∈ node.pendingBlocks.dag := AList.mem_erase
      rw [isBlockExecuted_iff] at hexecuted ⊢
      dsimp only at hexecuted
      rw [MainDag.getBlockInfo_removeBlock, hpending] at hexecuted
      by_cases heq : v = hash
      · simp [heq] at hexecuted
      · rw [if_neg heq] at hexecuted
        exact ⟨hexecuted.imp_right And.right, heq⟩
    refine (h.placed v (hbefore.imp_left And.left)).removeBlock fun hreach => ?_
    obtain ⟨rfl, hnot⟩ := hnothing v (hbefore.imp_left And.left) hreach
    exact hbefore.elim (fun hne => hne.2 rfl) hnot

/-- When an effect leaves the heights right: finality is checked for a block that is still
pending, and a block is unwound that carries nothing. -/
def KeepsHeights (F : Factory) (node : BlockNode) (marked : Hash → Prop) (block : Block) :
    AcceptEffect → Prop
  | .checkFinality => block.hash F ∈ node.pendingBlocks.dag
  | .unwindBlock hash => node.CarriesNothing marked hash
  | _ => True

theorem Measured.disk (h : Measured F node marked) {disk : BlockStore}
    (hpending : ∀ hash ∈ disk.arrPending, hash ∈ node.disk.arrPending ∨
      hash ∈ node.pendingBlocks.dag)
    (hlast : ∀ hash ∈ disk.arrLastApplied, RightHash F hash)
    (hblocks : ∀ hash block, disk.blocks.lookup hash = some block →
      node.disk.blocks.lookup hash = some block)
    (hinfos : ∀ hash info, disk.infos.lookup hash = some info →
      node.disk.infos.lookup hash = some info ∨
        F.headerHash info.header = hash ∧ info.isFinal = false)
    (accepting : Option Acceptance) : Measured F { node with disk, accepting } marked where
  tidy := h.tidy
  bodies hash block hblock := h.bodies hash block (hblocks hash block hblock)
  infos hash info hinfo := by
    rcases hinfos hash info hinfo with hold | ⟨hhash, hnot⟩
    · exact h.infos hash info hold
    · exact ⟨hhash, fun hfinal => absurd (hnot.symm.trans hfinal) Bool.false_ne_true⟩
  listed hash hlisted := by
    rcases hlisted with hmem | hmem | htop
    · rcases hpending hash hmem with hold | hdag
      · exact h.listed hash (.inl hold)
      · exact h.rightHash ((isBlockExecuted_iff node hash).mpr (.inr hdag))
    · exact hlast hash hmem
    · exact h.listed hash (.inr (.inr htop))
  genesis hgenesis := h.genesis (hgenesis.elim (hpending _) .inr)
  edges := h.edges
  placed := h.placed

/-- What `_updateLastAppliedBlocks` stores was stored, or has become stable. -/
theorem mem_of_newLastApplied {arrTopStable arrLastApplied : List Hash}
    (h : node.newLastApplied F arrTopStable = .ok arrLastApplied) (hmem : hash ∈ arrLastApplied) :
    hash ∈ node.disk.arrLastApplied ∨ hash ∈ arrTopStable := by
  have hmap (hashes : List Hash) : ∀ {mapHashes result : FinMap Nat Hash},
      mapConciliumIdHash node.mainDag hashes mapHashes = .ok result →
        ∀ i, result.lookup i = some hash → hash ∈ hashes ∨ mapHashes.lookup i = some hash := by
    induction hashes with
    | nil =>
        intro mapHashes result hok i hi
        cases hok
        exact .inr hi
    | cons first rest ih =>
        intro mapHashes result hok i hi
        rw [mapConciliumIdHash] at hok
        split at hok
        next => cases hok
        next blockInfo _ =>
          rcases ih hok i hi with hrest | hinserted
          · exact .inl (List.mem_cons_of_mem _ hrest)
          · rw [FinMap.lookup_insert_ite] at hinserted
            split at hinserted
            next =>
              cases hinserted
              exact .inl List.mem_cons_self
            next => exact .inr hinserted
  have hempty (i : Nat) : (∅ : FinMap Nat Hash).lookup i ≠ some hash := by
    rw [Finmap.lookup_empty]
    exact (Option.some_ne_none hash).symm
  unfold newLastApplied at h
  split at h
  next => cases h
  next mapPrev hprev =>
    split at h
    next => cases h
    next mapNew hnew =>
      cases h
      obtain ⟨i, -, hi⟩ := List.mem_filterMap.mp hmem
      rcases Option.or_eq_some_iff.mp hi with hlookup | ⟨-, hlookup⟩
      · exact .inr ((hmap _ hnew i hlookup).resolve_right (hempty i))
      · exact .inl ((hmap _ hprev i hlookup).resolve_right (hempty i))

/-- One effect, which leaves others to be done. -/
theorem Measured.runEffect (hF : F.DistinguishesHeaders) {others : Hash → Prop}
    {acceptance : Acceptance} {effect : AcceptEffect} {rest : List AcceptEffect}
    (h : Measured F node fun hash => others hash ∨ .markAsFinal hash ∈ effect :: rest)
    (hright : ∀ arrTopStable, .updateLastAppliedBlocks arrTopStable ∈ effect :: rest →
      ∀ hash ∈ arrTopStable, RightHash F hash)
    (hkeeps : node.KeepsHeights F (fun hash => others hash ∨ .markAsFinal hash ∈ effect :: rest)
      acceptance.block effect)
    (hrun : node.runEffect F J acceptance rest effect = .ok node') :
    ∃ acceptance', node'.accepting = some acceptance' ∧
      (Measured F { node' with accepting := none } fun hash =>
        others hash ∨ .markAsFinal hash ∈ acceptance'.effects) ∧
      ∀ arrTopStable, .updateLastAppliedBlocks arrTopStable ∈ acceptance'.effects →
        ∀ hash ∈ arrTopStable, RightHash F hash := by
  have hrest {node : BlockNode}
      (h : Measured F node fun hash => others hash ∨ .markAsFinal hash ∈ effect :: rest) :
      Measured F node fun hash => others hash ∨ .markAsFinal hash ∈ rest :=
    h.mono fun hash hmarked => .inr (hmarked.imp_right (List.mem_cons_of_mem _))
  have hright' : ∀ arrTopStable, .updateLastAppliedBlocks arrTopStable ∈ rest →
      ∀ hash ∈ arrTopStable, RightHash F hash :=
    fun arrTopStable hmem => hright arrTopStable (List.mem_cons_of_mem _ hmem)
  have hlast : ∀ hash ∈ node.disk.arrLastApplied, RightHash F hash :=
    fun hash hmem => h.listed hash (.inr (.inl hmem))
  cases effect with
  | checkFinality =>
      unfold BlockNode.runEffect at hrun
      dsimp only at hrun
      split at hrun
      next => cases hrun
      next result after hcheck =>
        cases hrun
        obtain ⟨hmeasured, hstable⟩ := h.checkFinality hF hkeeps hcheck none
        refine ⟨_, rfl, hmeasured.mono fun hash hmarked => .inr ?_, fun arrTopStable hmem => ?_⟩
        · rcases hmarked with hother | hmem
          · exact .inl (.inl hother)
          · rcases List.mem_append.mp hmem with hmark | hmark
            · exact .inr hmark
            · exact .inl (.inr (List.mem_cons_of_mem _ hmark))
        · exact (List.mem_append.mp hmem).elim (hstable arrTopStable) (hright' arrTopStable)
  | updateLastAppliedBlocks arrTopStable =>
      unfold BlockNode.runEffect at hrun
      dsimp only at hrun
      split at hrun
      next => cases hrun
      next arrLastApplied hnew =>
        cases hrun
        refine ⟨_, rfl, hrest (h.disk ?_ ?_ ?_ ?_ none), hright'⟩
        · exact fun _ hmem => .inl hmem
        · intro hash hmem
          exact (mem_of_newLastApplied hnew hmem).elim (hlast hash)
            (hright arrTopStable List.mem_cons_self hash)
        · exact fun _ _ hblock => hblock
        · exact fun _ _ hinfo => .inl hinfo
  | markAsFinal hash =>
      unfold BlockNode.runEffect at hrun
      dsimp only at hrun
      split at hrun
      next => cases hrun
      next bi hinfo =>
        cases hrun
        exact ⟨_, rfl, hrest (h.markAsFinal hinfo (.inr List.mem_cons_self) none), hright'⟩
  | applyPatch patchToApply =>
      cases hrun
      refine ⟨_, rfl, hrest (h.disk ?_ ?_ ?_ ?_ none), hright'⟩
      · exact fun _ hmem => .inl hmem
      · exact hlast
      · exact fun _ _ hblock => hblock
      · exact fun _ _ hinfo => .inl hinfo
  | unwindBlock hash =>
      unfold BlockNode.runEffect at hrun
      dsimp only at hrun
      split at hrun
      next => cases hrun
      next =>
        cases hrun
        exact ⟨_, rfl, hrest (h.unwindBlock hkeeps none), hright'⟩
  | saveBadInfo hash =>
      unfold BlockNode.runEffect at hrun
      dsimp only at hrun
      split at hrun
      next => cases hrun
      next bi hbi =>
        cases hrun
        refine ⟨_, rfl, hrest (h.disk ?_ ?_ ?_ ?_ none), hright'⟩
        · exact fun _ hmem => .inl hmem
        · exact hlast
        · exact fun _ _ hblock => hblock
        · intro other info hinfo
          change (node.disk.infos.insert (bi.markAsBad.getHash F) bi.markAsBad).lookup other =
            some info at hinfo
          rw [FinMap.lookup_insert_ite] at hinfo
          split at hinfo
          next heq =>
            cases hinfo
            exact .inr ⟨heq.symm, rfl⟩
          next => exact .inl hinfo
  | removeBlock hash =>
      cases hrun
      refine ⟨_, rfl, hrest (h.disk ?_ ?_ ?_ ?_ none), hright'⟩
      · exact fun _ hmem => .inl hmem
      · exact hlast
      · intro other block hblock
        change (node.disk.blocks.erase hash).lookup other = some block at hblock
        rw [FinMap.lookup_erase_ite] at hblock
        split at hblock
        next => cases hblock
        next => exact hblock
      · exact fun _ _ hinfo => .inl hinfo
  | updatePendingBlocks =>
      cases hrun
      refine ⟨_, rfl, hrest (h.disk ?_ ?_ ?_ ?_ none), hright'⟩
      · exact fun _ hmem => .inr (AList.mem_keys.mpr hmem)
      · exact hlast
      · exact fun _ _ hblock => hblock
      · exact fun _ _ hinfo => .inl hinfo

/-! ### Blocks that become pending -/

/-- The main graph reaches from the block down to genesis, and genesis itself has no parents. -/
def Joins (F : Factory) (node : BlockNode) (block : Block) : Prop :=
  node.mainDag.Rooted F (block.hash F) ∧
    (block.hash F = F.constants.GENESIS_BLOCK → block.parentHashes = [])

theorem Joins.edge (hF : F.DistinguishesHeaders) (htidy : node.mainDag.Tidy F)
    (h : node.Joins F block) {parentHash : Hash} (hparent : parentHash ∈ block.parentHashes) :
    node.mainDag.Edge (block.hash F) parentHash := by
  by_cases hgenesis : block.hash F = F.constants.GENESIS_BLOCK
  · rw [h.2 hgenesis] at hparent
    cases hparent
  · obtain ⟨info, hinfo, hedge⟩ := h.1.exists_edges hgenesis
    refine hedge parentHash ?_
    rw [htidy.header_eq hF hinfo rfl]
    exact hparent

theorem Measured.addBlock (hF : F.DistinguishesHeaders) (h : Measured F node marked)
    (hright : RightHash F (block.hash F)) (hjoins : node.Joins F block) (patchState : PatchDB) :
    Measured F { node with pendingBlocks := node.pendingBlocks.addBlock F block patchState }
      marked := by
  refine ⟨h.tidy, h.bodies, h.infos, h.listed, fun hgenesis => ?_, fun v w hedge => ?_,
    fun hash hstands => ?_⟩
  · rcases hgenesis with hlisted | hmem
    · exact h.genesis (.inl hlisted)
    · rcases Dag.mem_addVertex.mp hmem with hmine | hold
      · intro header hheader
        obtain rfl : header = block.hashedHeader F := hF (hheader.trans hmine)
        exact hjoins.2 hmine.symm
      · exact h.genesis (.inr hold)
  · rcases Dag.edge_addVertex.mp hedge with ⟨rfl, hw, -⟩ | hold
    · exact hjoins.edge hF h.tidy hw
    · exact h.edges v w hold
  · rw [isBlockExecuted_addBlock, or_assoc, or_comm, or_assoc] at hstands
    rcases hstands with rfl | hmarked | hexecuted
    · exact ⟨hjoins.1, hright⟩
    · exact h.placed hash (.inr hmarked)
    · exact h.placed hash (.inl hexecuted)

/-! ### Tasks -/

/-- When a task that goes on leaves the heights right. -/
def TaskKeepsHeights (F : Factory) (node : BlockNode) (marked : Hash → Prop) : Suspended → Prop
  | .adding _ block _ => node.Joins F block
  | .accepting _ acceptance =>
      ∀ effect ∈ acceptance.effects.head?, node.KeepsHeights F marked acceptance.block effect
  | _ => True

/-- The heights are right after a task has gone on, and what it goes on with is right. -/
structure StaysMeasured (F : Factory) (others : Hash → Prop) (r : BlockNode × Option Suspended) :
    Prop where
  node : Measured F r.1 fun hash => others hash ∨ ∃ task ∈ r.2, task.Marks hash
  next : ∀ task ∈ r.2, task.Right F

variable {others : Hash → Prop} {r : BlockNode × Option Suspended}

theorem Quiet.staysMeasured (hF : F.DistinguishesHeaders) (hquiet : Quiet F node r)
    (h : Measured F node marked) (hothers : ∀ hash, others hash → marked hash) :
    StaysMeasured F others r where
  node := (h.grows hF hquiet.grows).mono fun hash hmarked => by
    rcases hmarked with hother | ⟨task, htask, hmarks⟩
    · exact .inr (hothers hash hother)
    · exact absurd hmarks (Suspended.not_marks (hquiet.next task htask).1)
  next task htask := (hquiet.next task htask).2

/-- A task that goes on with another one. -/
theorem Measured.goesOn {task : Suspended}
    (h : Measured F node fun hash => others hash ∨ task.Marks hash) (hright : task.Right F) :
    StaysMeasured F others (node, some task) where
  node := h.mono fun hash hmarked => .inr <| hmarked.imp_right fun hnext => by
    obtain ⟨next, hnext, hmarks⟩ := hnext
    cases hnext
    exact hmarks
  next next hnext := by
    cases hnext
    exact hright

theorem hasParents_of_verifyBlock {checkSignatures : Bool}
    (h : node.verifyBlock F block checkSignatures = .ok ()) : block.HasParents F := by
  unfold verifyBlock at h
  split at h
  next hgenesis => exact .inl (of_decide_eq_true hgenesis)
  next =>
    split at h
    next => cases h
    next hok => exact Block.hasParents_of_verify hok

/-- A task that does not accept a block. -/
theorem Measured.quiet_runTask (hF : F.DistinguishesHeaders) (h : Measured F node marked)
    (bLocked : Bool) (outcome : Except String PatchDB) {task : Suspended}
    (haccepts : task.accepts = false) (hright : task.Right F)
    (houtcome : ∀ caller block patch, task = .executing caller block → outcome ≠ .ok patch) :
    Quiet F node (node.runTask F J bLocked outcome task) := by
  have hsame : Grows F node node := .refl F node
  cases task with
  | arrived caller block =>
      dsimp only [runTask]
      split
      next =>
        split
        next => exact hsame.stop
        next => exact (grows_blockBad node _).stop
      next hverify =>
        have hparents : block.HasParents F := hasParents_of_verifyBlock hverify
        have hgrows : Grows F node
            (node.storeBlockAndInfo F (some block) (block.info F).markAsInFlight false) :=
          grows_storeBlockAndInfo node rfl (.inr fun _ h => Option.some.inj h ▸ hparents)
        refine ⟨hgrows.congr ?_ ?_ ?_, fun task htask => ?_⟩
        · rfl
        · rfl
        · rfl
        · cases htask
          exact ⟨rfl, hparents⟩
  | loading hash =>
      dsimp only [runTask]
      split
      next => exact hsame.goOn rfl trivial
      next block hblock =>
        have hnot : (block.info F).markAsInFlight.isFinal = false := rfl
        have hparents : block.HasParents F := (h.bodies hash block (BlockStore.lookup_of_getBlock hblock)).2
        exact (grows_storeBlockAndInfo node hnot (.inl rfl)).goOn rfl hparents
  | inFlight caller block =>
      refine h.quiet_beginProcessBlock caller _ _ fun b hb => ?_
      cases hb
      exact ⟨hright, rfl⟩
  | parents caller blockInfo parentHash bKnown rest arrToRequest arrToExec =>
      dsimp only [runTask]
      split
      next => exact quiet_processParents node _ _ _ _ _
      next => exact quiet_processParents node _ _ _ _ _
  | reading blockInfo =>
      dsimp only [runTask]
      split
      next => exact quiet_thrown node _ _
      next block hblock =>
        obtain ⟨hhash, hparents⟩ := h.bodies _ block (BlockStore.lookup_of_getBlock hblock)
        have hheader : block.hashedHeader F = blockInfo.header := hF hhash
        refine hsame.goOn rfl ⟨hparents, ?_⟩
        rw [hheader]
        exact hright
  | locked caller block =>
      dsimp only [runTask]
      split
      next => exact hsame.goOn rfl hright
      next =>
        split
        next => exact quiet_endProcessBlock node _ _
        next => exact hsame.goOn rfl hright
  | executing caller block =>
      dsimp only [runTask]
      split
      next => exact quiet_catchExec node _ _
      next patch => exact absurd rfl (houtcome caller block patch rfl)
  | committing block patch => cases haccepts
  | adding how block patchState => cases haccepts
  | accepting how acceptance => cases haccepts
  | removing hash => exact Grows.stop (.of_eq rfl rfl rfl)

theorem staysMeasured_runTask (hF : F.DistinguishesHeaders) {task : Suspended}
    (h : Measured F node fun hash => others hash ∨ task.Marks hash) (hright : task.Right F)
    (hkeeps : node.TaskKeepsHeights F (fun hash => others hash ∨ task.Marks hash) task)
    (bLocked : Bool) (outcome : Except String PatchDB)
    (houtcome : ∀ caller block patch, task = .executing caller block → outcome = .ok patch →
      RightHash F (block.hash F)) :
    StaysMeasured F others (node.runTask F J bLocked outcome task) := by
  have hquiet {r : BlockNode × Option Suspended} (hr : Quiet F node r) : StaysMeasured F others r :=
    hr.staysMeasured hF h fun _ => .inl
  have hidle : Quiet F node (node, none) := (Grows.refl F node).stop
  cases task with
  | executing caller block =>
      cases outcome with
      | error error =>
          exact hquiet (h.quiet_runTask hF bLocked _ rfl hright fun _ _ _ _ hok => by cases hok)
      | ok patch =>
          dsimp only [runTask]
          split
          next => exact hquiet (quiet_endProcessBlock node _ _)
          next => exact Measured.goesOn h (houtcome caller block patch rfl rfl)
  | committing block patch =>
      dsimp only [runTask]
      split
      next => exact hquiet hidle
      next =>
        have hstored : Measured F (node.storeBlockAndInfo F (some block) (block.info F) false)
            fun hash => others hash ∨ (Suspended.committing block patch).Marks hash :=
          h.grows hF <| grows_storeBlockAndInfo node rfl <|
            .inr fun _ h => Option.some.inj h ▸ Block.hasParents_of_rightHash hright
        exact Measured.goesOn hstored hright
  | adding how block patchState =>
      refine Measured.goesOn ((h.addBlock hF hright hkeeps patchState).mono fun hash hmarked => ?_) ?_
      · exact .inr (.inl (hmarked.resolve_right fun hmarks => by simp [Suspended.Marks] at hmarks))
      · intro arrTopStable hmem
        simp at hmem
  | accepting how acceptance =>
      obtain ⟨block, nHeightMax, effects⟩ := acceptance
      dsimp only [runTask]
      cases effects with
      | nil =>
          cases how with
          | executed caller => exact hquiet (quiet_endProcessBlock node _ _)
          | committed => exact hquiet hidle
      | cons effect rest =>
          dsimp only
          cases hrun : node.runEffect F J ⟨block, nHeightMax, effect :: rest⟩ rest effect with
          | error error =>
              cases how with
              | executed caller => exact hquiet (quiet_catchExec node _ _)
              | committed => exact hquiet hidle
          | ok node' =>
              obtain ⟨acceptance', haccepting, hmeasured, hstable⟩ :=
                Measured.runEffect hF h hright (hkeeps effect rfl) hrun
              dsimp only
              rw [haccepting]
              exact Measured.goesOn hmeasured hstable
  | _ =>
      exact hquiet (h.quiet_runTask hF bLocked outcome rfl hright fun _ _ _ htask => by cases htask)

end BlockNode

end CilCore
