import CilCore.Node.BlockAgreement
import CilCore.Node.HeightSteps

/-!
# Heights over whole runs

The heights of executed blocks measure the main graph in every run in which it reaches from each
block that becomes pending down to genesis, and nothing is rolled back that others are built on.
-/

namespace CilCore

open Postorder

variable {F : Factory} {J : Dagjs} {hash : Hash}

/-! ### The main graph that is built again -/

namespace BlockStore

variable {disk : BlockStore} {mainDag mainDag' : MainDag} {next next' : List Hash}

/-- The graph has infos that are on disk, and all parents of its blocks, except for some that
come next. -/
structure Reads (F : Factory) (disk : BlockStore) (mainDag : MainDag) (next : List Hash) : Prop where
  tidy : mainDag.Tidy F
  infos : ∀ hash info, mainDag.getBlockInfo hash = some info → disk.infos.lookup hash = some info
  edge : ∀ hash info, mainDag.getBlockInfo hash = some info → hash ≠ F.constants.GENESIS_BLOCK →
    ∀ parentHash ∈ info.header.parentHashes, mainDag.Edge hash parentHash
  parents : ∀ hash info, mainDag.getBlockInfo hash = some info → hash ≠ F.constants.GENESIS_BLOCK →
    ∀ parentHash ∈ info.header.parentHashes,
      (∃ parent, mainDag.getBlockInfo parentHash = some parent) ∨ parentHash ∈ next

theorem reads_empty (F : Factory) (disk : BlockStore) (next : List Hash) :
    disk.Reads F .empty next := by
  have hnone (hash : Hash) : MainDag.empty.getBlockInfo hash = none := Finmap.lookup_empty hash
  refine ⟨⟨fun hash info h => ?_, fun hash parentHash h => ?_⟩, fun hash info h => ?_,
    fun hash info h => ?_, fun hash info h => ?_⟩
  · cases (hnone hash).symm.trans h
  · exact absurd h List.not_mem_nil
  · cases (hnone hash).symm.trans h
  · cases (hnone hash).symm.trans h
  · cases (hnone hash).symm.trans h

/-- What a level adds. -/
structure Levels (F : Factory) (disk : BlockStore) (level : List Hash) (mainDag mainDag' : MainDag)
    (next' : List Hash) : Prop where
  reads : disk.Reads F mainDag' next'
  ext : MainDag.Extends mainDag mainDag'
  listed : ∀ hash ∈ level, ∃ info, mainDag'.getBlockInfo hash = some info
  back : ∀ hash info, mainDag'.getBlockInfo hash = some info →
    mainDag.getBlockInfo hash = some info ∨ hash ∈ level

theorem Reads.addBlock (hF : F.DistinguishesHeaders) {level : List Hash}
    (h : disk.Reads F mainDag (hash :: level ++ next)) {bi : BlockInfo} (hhash : bi.getHash F = hash)
    (hinfo : disk.infos.lookup hash = some bi) :
    disk.Reads F (mainDag.addBlock F bi) (level ++
      (bi.header.parentHashes.filter fun parentHash =>
        ((mainDag.addBlock F bi).getBlockInfo parentHash).isNone).foldl
          (fun setNextLevel hash => setNextLevel.insert hash) next) := by
  have hext := MainDag.extends_addBlock hF h.tidy bi
  have hmem (added set : List Hash) (v : Hash) :
      v ∈ added.foldl (fun setNextLevel hash => setNextLevel.insert hash) set ↔
        v ∈ set ∨ v ∈ added := by
    induction added generalizing set with
    | nil => simp
    | cons first rest ih =>
        rw [List.foldl_cons, ih, List.mem_insert_iff, List.mem_cons]
        tauto
  refine ⟨h.tidy.addBlock hF bi, fun v info hv => ?_, fun v info hv hne p hp => ?_,
    fun v info hv hne p hp => ?_⟩
  · rw [MainDag.getBlockInfo_addBlock, hhash] at hv
    split at hv
    next heq =>
      cases hv
      rw [heq]
      exact hinfo
    next => exact h.infos v info hv
  · rw [MainDag.getBlockInfo_addBlock] at hv
    rw [MainDag.edge_addBlock]
    split at hv
    next heq =>
      cases hv
      exact .inr ⟨heq ▸ hne, heq, hp⟩
    next => exact .inl (h.edge v info hv hne p hp)
  · rw [List.mem_append, hmem, List.mem_filter]
    cases hparent : (mainDag.addBlock F bi).getBlockInfo p with
    | some parent => exact .inl ⟨parent, rfl⟩
    | none =>
        rw [MainDag.getBlockInfo_addBlock] at hv hparent
        split at hv
        next =>
          cases hv
          exact .inr (.inr (.inr ⟨hp, rfl⟩))
        next =>
          rcases h.parents v info hv hne p hp with ⟨parent, hknown⟩ | hlater
          · split at hparent
            next => cases hparent
            next => cases hknown.symm.trans hparent
          · rw [List.cons_append, List.mem_cons, List.mem_append] at hlater
            rcases hlater with rfl | hlevel | hnext
            · rw [if_pos hhash.symm] at hparent
              cases hparent
            · exact .inr (.inl hlevel)
            · exact .inr (.inr (.inl hnext))

theorem buildLevel_ok (hF : F.DistinguishesHeaders)
    (hdisk : ∀ hash info, disk.infos.lookup hash = some info → F.headerHash info.header = hash)
    {level : List Hash} (h : disk.Reads F mainDag (level ++ next))
    (hbuild : disk.buildLevel F level mainDag next = .ok (mainDag', next')) :
    Levels F disk level mainDag mainDag' next' := by
  induction level generalizing mainDag next with
  | nil =>
      cases hbuild
      exact ⟨h, ⟨fun _ info hinfo => ⟨info, hinfo, rfl⟩, fun _ _ hedge => hedge⟩,
        fun hash hmem => absurd hmem List.not_mem_nil, fun _ _ hinfo => .inl hinfo⟩
  | cons hash rest ih =>
      unfold buildLevel at hbuild
      split at hbuild
      next hknown =>
        obtain ⟨known, hknown⟩ := Option.isSome_iff_exists.mp hknown
        have hreads : disk.Reads F mainDag (rest ++ next) := by
          refine ⟨h.tidy, h.infos, h.edge, fun v info hv hne p hp => ?_⟩
          rcases h.parents v info hv hne p hp with hparent | hlater
          · exact .inl hparent
          · rcases List.mem_cons.mp hlater with rfl | hlater
            · exact .inl ⟨known, hknown⟩
            · exact .inr hlater
        have hrest := ih hreads hbuild
        refine ⟨hrest.reads, hrest.ext, fun v hv => ?_, fun v info hv => ?_⟩
        · rcases List.mem_cons.mp hv with rfl | hv
          · obtain ⟨info, hinfo, -⟩ := hrest.ext.known v known hknown
            exact ⟨info, hinfo⟩
          · exact hrest.listed v hv
        · exact (hrest.back v info hv).imp_right (List.mem_cons_of_mem _)
      next hunknown =>
        split at hbuild
        next => cases hbuild
        next bi hinfo =>
          split at hbuild
          next => cases hbuild
          next =>
            have hhash : bi.getHash F = hash := hdisk hash bi hinfo
            have hext := MainDag.extends_addBlock hF h.tidy bi
            have hrest := ih (h.addBlock hF hhash hinfo) hbuild
            have hmine : (mainDag.addBlock F bi).getBlockInfo hash = some bi := by
              rw [MainDag.getBlockInfo_addBlock, if_pos hhash.symm]
            refine ⟨hrest.reads, hext.trans hrest.ext, fun v hv => ?_, fun v info hv => ?_⟩
            · rcases List.mem_cons.mp hv with rfl | hv
              · obtain ⟨info, hinfo, -⟩ := hrest.ext.known v bi hmine
                exact ⟨info, hinfo⟩
              · exact hrest.listed v hv
            · rcases hrest.back v info hv with hold | hlevel
              · rw [MainDag.getBlockInfo_addBlock, hhash] at hold
                split at hold
                next heq => exact .inr (heq ▸ List.mem_cons_self)
                next => exact .inl hold
              · exact .inr (List.mem_cons_of_mem _ hlevel)

/-- The graph that is built has all parents of its blocks. -/
theorem buildMainDag_ok (hF : F.DistinguishesHeaders)
    (hdisk : ∀ hash info, disk.infos.lookup hash = some info → F.headerHash info.header = hash)
    {fuel : Nat} {level : List Hash} (h : disk.Reads F mainDag level)
    (hbuild : disk.buildMainDag F fuel level mainDag = some (.ok mainDag')) :
    disk.Reads F mainDag' [] ∧ MainDag.Extends mainDag mainDag' ∧
      ∀ hash ∈ level, ∃ info, mainDag'.getBlockInfo hash = some info := by
  induction fuel generalizing level mainDag with
  | zero => cases hbuild
  | succ fuel ih =>
      unfold buildMainDag at hbuild
      split at hbuild
      next hnil =>
        cases hbuild
        subst hnil
        exact ⟨h, ⟨fun _ info hinfo => ⟨info, hinfo, rfl⟩, fun _ _ hedge => hedge⟩,
          fun hash hmem => absurd hmem List.not_mem_nil⟩
      next =>
        split at hbuild
        next => cases hbuild
        next mainDag₁ next hlevel =>
          rw [← List.append_nil level] at h
          have hone := buildLevel_ok hF hdisk h hlevel
          split at hbuild
          next hgenesis =>
            cases hbuild
            refine ⟨⟨hone.reads.tidy, hone.reads.infos, hone.reads.edge, ?_⟩, hone.ext, hone.listed⟩
            -- blocks other than genesis were there before, and genesis was all that they missed
            intro v info hv hne p hp
            rcases hone.back v info hv with hold | hlisted
            · rcases h.parents v info hold hne p hp with ⟨parent, hparent⟩ | hlater
              · obtain ⟨info', hinfo', -⟩ := hone.ext.known p parent hparent
                exact .inl ⟨info', hinfo'⟩
              · rw [List.append_nil] at hlater
                exact .inl (hone.listed p hlater)
            · rw [hgenesis] at hlisted
              exact absurd (List.mem_singleton.mp hlisted) hne
          next =>
            have hreads : disk.Reads F mainDag₁ next.reverse := by
              refine ⟨hone.reads.tidy, hone.reads.infos, hone.reads.edge,
                fun v info hv hne p hp => ?_⟩
              exact (hone.reads.parents v info hv hne p hp).imp_right List.mem_reverse.mpr
            obtain ⟨hall, hext, -⟩ := ih hreads hbuild
            refine ⟨hall, hone.ext.trans hext, fun v hv => ?_⟩
            obtain ⟨info, hinfo⟩ := hone.listed v hv
            obtain ⟨info', hinfo', -⟩ := hext.known v info hinfo
            exact ⟨info', hinfo'⟩

/-- In such a graph every block of the right height is placed. -/
theorem Reads.placed (hF : F.DistinguishesHeaders) (h : disk.Reads F mainDag []) {info : BlockInfo}
    (hinfo : mainDag.getBlockInfo hash = some info) (hright : RightHash F hash) :
    mainDag.Placed F hash := by
  refine ⟨?_, hright⟩
  have hheight := hright info.header (h.tidy.keyed hash info hinfo)
  generalize hheader : info.header = header at hheight
  clear hright
  induction hheight generalizing hash info with
  | genesis hgenesis =>
      rw [← hheader, h.tidy.keyed hash info hinfo] at hgenesis
      subst hgenesis
      exact .genesis hinfo
  | @block header top parents hne hparents _ _ _ _ ih =>
      subst hheader
      have hgenesis : hash ≠ F.constants.GENESIS_BLOCK := h.tidy.keyed hash info hinfo ▸ hne
      refine .block hinfo hgenesis (h.edge hash info hinfo hgenesis) fun p hp => ?_
      obtain ⟨parentInfo, hparentInfo⟩ :=
        (h.parents hash info hinfo hgenesis p hp).resolve_right List.not_mem_nil
      rw [← hparents] at hp
      obtain ⟨parent, hmem, rfl⟩ := List.mem_map.mp hp
      exact ih parent hmem hparentInfo (h.tidy.header_eq hF hparentInfo rfl)

end BlockStore

/-! ### Restarting -/

namespace BlockNode

variable {node node' : BlockNode} {marked : Hash → Prop} {vm : Block → Transaction → Behaviour}
  {fuel : Nat}

/-- The pending blocks after some of them were executed again. -/
structure Replayed (F : Factory) (node : BlockNode) (pendingBlocks : PendingBlocksManager) :
    Prop where
  listed : ∀ hash ∈ pendingBlocks.dag, hash ∈ node.disk.arrPending
  edges : ∀ hash parentHash, pendingBlocks.dag.Edge hash parentHash →
    node.mainDag.Edge hash parentHash
  topStable : pendingBlocks.topStable = node.disk.arrLastApplied

/-- A pending block is executed again. -/
theorem Measured.execPending (hF : F.DistinguishesHeaders) (h : Measured F node marked)
    {started : BlockNode} (hdisk : started.disk = node.disk)
    (hreads : node.disk.Reads F started.mainDag [])
    (hknown : ∀ hash ∈ node.disk.arrPending, ∃ info, started.mainDag.getBlockInfo hash = some info)
    {mapBlocks : FinMap Hash Block}
    (hload : started.loadPending node.disk.arrLastApplied node.disk.arrPending ∅ = .ok mapBlocks)
    {block : Block} {pbm pbm' : PendingBlocksManager} (hitem : mapBlocks.lookup hash = some block)
    (hexec : started.execPending F vm block pbm = .ok pbm') (hpbm : Replayed F started pbm) :
    Replayed F started pbm' := by
  obtain ⟨hread, hother⟩ := loadPending_ok hload
  have hpending : IsPending node.disk.arrLastApplied node.disk.arrPending hash := by
    by_contra hnot
    rw [hother hash hnot, Finmap.lookup_empty] at hitem
    cases hitem
  obtain ⟨block', hblock, hmine⟩ := hread hash hpending
  obtain rfl : block = block' := Option.some.inj (hitem.symm.trans hmine)
  rw [hdisk] at hblock
  obtain ⟨rfl, -⟩ := h.bodies hash block (BlockStore.lookup_of_getBlock hblock)
  obtain ⟨patchBlock, -, rfl⟩ := execPending_ok hexec
  obtain ⟨info, hinfo⟩ := hknown _ hpending.1
  have hheader : info.header = block.hashedHeader F := hreads.tidy.header_eq hF hinfo rfl
  refine ⟨fun v hv => ?_, fun v w hedge => ?_, hpbm.topStable⟩
  · rcases Dag.mem_addVertex.mp hv with rfl | hold
    · rw [hdisk]
      exact hpending.1
    · exact hpbm.listed v hold
  · rcases Dag.edge_addVertex.mp hedge with ⟨rfl, hw, -⟩ | hold
    · have hne : block.hash F ≠ F.constants.GENESIS_BLOCK := by
        intro hgenesis
        have hnil := h.genesis (.inl (hgenesis ▸ hpending.1)) (block.hashedHeader F) hgenesis
        have hw : w ∈ (block.hashedHeader F).parentHashes := hw
        rw [hnil] at hw
        cases hw
      refine hreads.edge _ info hinfo hne w ?_
      rw [hheader]
      exact hw
    · exact hpbm.edges v w hold

theorem Measured.rebuildPending (hF : F.DistinguishesHeaders) (h : Measured F node marked)
    {started : BlockNode} (hdisk : started.disk = node.disk)
    (hreads : node.disk.Reads F started.mainDag [])
    (hknown : ∀ hash ∈ node.disk.arrPending, ∃ info, started.mainDag.getBlockInfo hash = some info)
    {p : Progress Hash PendingBlocksManager}
    (hrebuild : started.rebuildPending F vm fuel node.disk.arrLastApplied node.disk.arrPending =
      some (.ok p)) : Replayed F started p.state := by
  unfold BlockNode.rebuildPending at hrebuild
  split at hrebuild
  next => cases hrebuild
  next mapBlocks hload =>
    split at hrebuild
    next => cases hrebuild
    next => cases hrebuild
    next p' hall =>
      split at hrebuild
      next => cases hrebuild
      next =>
        cases hrebuild
        refine visitAll_keeps (fun _ _ _ hvisit => visit_keeps (fun hitem hexec hpbm =>
          h.execPending hF hdisk hreads hknown hload hitem hexec hpbm) hvisit) hall ?_
        refine ⟨fun v hv => absurd hv (Dag.notMem_empty v), fun v w hedge => ?_, ?_⟩
        · exact absurd hedge.mem_left (Dag.notMem_empty v)
        · rw [hdisk]

/-- The node that is started again. -/
theorem Measured.restart (hF : F.DistinguishesHeaders) (h : Measured F node marked)
    (hrestart : node.disk.rebuildBlockDb F vm fuel = some (.ok node')) :
    Measured F node' fun _ => False := by
  unfold BlockStore.rebuildBlockDb at hrestart
  split at hrestart
  next => cases hrestart
  next => cases hrestart
  next mainDag hbuild =>
    obtain ⟨hreads, -, hlisted⟩ := BlockStore.buildMainDag_ok hF
      (fun hash info hinfo => (h.infos hash info hinfo).1) (BlockStore.reads_empty F node.disk _)
      hbuild
    have hknown : ∀ hash ∈ node.disk.arrPending, ∃ info, mainDag.getBlockInfo hash = some info := by
      intro hash hmem
      refine hlisted hash ?_
      rw [if_neg (List.ne_nil_of_mem hmem)]
      exact hmem
    dsimp only at hrestart
    split at hrestart
    next => cases hrestart
    next => cases hrestart
    next p hpending =>
      cases hrestart
      have hreplayed := h.rebuildPending hF (by rfl) hreads hknown hpending
      refine ⟨hreads.tidy, h.bodies, h.infos, fun hash hmem => ?_, fun hgenesis => ?_,
        hreplayed.edges, fun hash hstands => ?_⟩
      · rcases hmem with hpending | hlast | htop
        · exact h.listed hash (.inl hpending)
        · exact h.listed hash (.inr (.inl hlast))
        · rw [hreplayed.topStable] at htop
          exact h.listed hash (.inr (.inl htop))
      · exact h.genesis (.inl (hgenesis.elim id (hreplayed.listed _)))
      · rcases (isBlockExecuted_iff _ hash).mp (hstands.resolve_right id) with hfinal | hdag
        · obtain ⟨info, hinfo, hfinal⟩ := (Option.any_eq_true _ _).mp hfinal
          exact hreads.placed hF hinfo ((h.infos hash info (hreads.infos hash info hinfo)).2 hfinal)
        · have hmem := hreplayed.listed hash hdag
          obtain ⟨info, hinfo⟩ := hknown hash hmem
          exact hreads.placed hF hinfo (h.listed hash (.inl hmem))

/-- The node that `rebuildDb` starts with. -/
theorem Measured.dropped (hF : F.DistinguishesHeaders) (h : Measured F node marked)
    (arrBlocks : List Block) : Measured F (node.disk.dropped F arrBlocks) fun _ => False := by
  -- nothing in the new graph is final
  have hgraph : ∀ mainDag : MainDag, mainDag.Tidy F →
      (∀ hash info, mainDag.getBlockInfo hash = some info → info.isFinal = false) →
      (arrBlocks.foldl (fun mainDag block => mainDag.addBlock F { header := block.header })
          mainDag).Tidy F ∧
        ∀ hash info, (arrBlocks.foldl
          (fun mainDag block => mainDag.addBlock F { header := block.header })
          mainDag).getBlockInfo hash = some info → info.isFinal = false := by
    induction arrBlocks with
    | nil => exact fun _ htidy hnot => ⟨htidy, hnot⟩
    | cons block rest ih =>
        intro mainDag htidy hnot
        refine ih _ (htidy.addBlock hF _) fun hash info hinfo => ?_
        rw [MainDag.getBlockInfo_addBlock] at hinfo
        split at hinfo
        next =>
          cases hinfo
          rfl
        next => exact hnot hash info hinfo
  have hnone (hash : Hash) : MainDag.empty.getBlockInfo hash = none := Finmap.lookup_empty hash
  obtain ⟨htidy, hnot⟩ := hgraph .empty (BlockStore.reads_empty F node.disk []).tidy
    fun hash info hinfo => by cases (hnone hash).symm.trans hinfo
  refine ⟨htidy, h.bodies, fun hash info hinfo => ?_, fun hash hlisted => ?_, fun hgenesis => ?_,
    fun v w hedge => ?_, fun hash hstands => ?_⟩
  · cases (Finmap.lookup_empty hash).symm.trans hinfo
  · rcases hlisted with hmem | hmem | hmem <;> exact absurd hmem List.not_mem_nil
  · exact absurd (hgenesis.resolve_left List.not_mem_nil) (Dag.notMem_empty _)
  · exact absurd hedge.mem_left (Dag.notMem_empty v)
  · rcases (isBlockExecuted_iff _ hash).mp (hstands.resolve_right id) with hfinal | hdag
    · obtain ⟨info, hinfo, hfinal⟩ := (Option.any_eq_true _ _).mp hfinal
      exact absurd ((hnot hash info hinfo).symm.trans hfinal) Bool.false_ne_true
    · exact absurd hdag (Dag.notMem_empty hash)

/-- The info of a block is saved. -/
theorem Measured.saveBlockInfo (h : Measured F node marked) {blockInfo : BlockInfo}
    (hinfo : node.mainDag.getBlockInfo hash = some blockInfo) :
    Measured F { node with disk := node.disk.saveBlockInfo F blockInfo } marked where
  tidy := h.tidy
  bodies := h.bodies
  infos other info hlookup := by
    change (node.disk.infos.insert (blockInfo.getHash F) blockInfo).lookup other = some info at hlookup
    rw [FinMap.lookup_insert_ite] at hlookup
    split at hlookup
    next heq =>
      cases hlookup
      have hhash : other = hash := heq.trans (h.tidy.keyed hash _ hinfo)
      refine ⟨heq.symm, fun hfinal => ?_⟩
      rw [hhash]
      refine h.rightHash ((isBlockExecuted_iff node hash).mpr (.inl ?_))
      rw [hinfo]
      exact hfinal
    next => exact h.infos other info hlookup
  listed := h.listed
  genesis := h.genesis
  edges := h.edges
  placed := h.placed

end BlockNode

/-! ### Runs -/

namespace DagNode

variable {s : DagNode}

/-- Some task will mark the block as final. -/
def Marked (s : DagNode) (hash : Hash) : Prop := ∃ task ∈ s.busy.tasks, task.Marks hash

/-- The node is measured, its tasks work on what is right, and so is all that was executed. -/
structure Measured (F : Factory) (s : DagNode) : Prop where
  node : BlockNode.Measured F s.busy.node s.Marked
  tasks : ∀ task ∈ s.busy.tasks, task.Right F
  executed : ∀ pair ∈ s.executed, RightHash F (pair.1.hash F)

/-- When an event leaves the heights right. -/
def KeepsHeights (F : Factory) (s : DagNode) : Event → Prop
  | .resume n _ => ∀ task ∈ s.busy.tasks[n]?, s.busy.node.TaskKeepsHeights F s.Marked task
  | _ => True

theorem measured_empty (F : Factory) : Measured F .empty := by
  have hnone (hash : Hash) : MainDag.empty.getBlockInfo hash = none := Finmap.lookup_empty hash
  refine ⟨⟨(BlockStore.reads_empty F .empty []).tidy, fun hash block h => ?_, fun hash info h => ?_,
    fun hash h => ?_, fun h => ?_, fun v w h => ?_, fun hash h => ?_⟩, fun task h => ?_,
    fun pair h => ?_⟩
  · cases (Finmap.lookup_empty hash).symm.trans h
  · cases (Finmap.lookup_empty hash).symm.trans h
  · rcases h with hmem | hmem | hmem <;> exact absurd hmem List.not_mem_nil
  · exact absurd (h.resolve_left List.not_mem_nil) (Dag.notMem_empty _)
  · exact absurd h.mem_left (Dag.notMem_empty v)
  · rcases h with hexecuted | ⟨task, htask, -⟩
    · rcases (BlockNode.isBlockExecuted_iff _ hash).mp hexecuted with hfinal | hdag
      · obtain ⟨info, hinfo, -⟩ := (Option.any_eq_true _ _).mp hfinal
        cases (hnone hash).symm.trans hinfo
      · exact absurd hdag (Dag.notMem_empty hash)
    · exact absurd htask List.not_mem_nil
  · exact absurd h List.not_mem_nil
  · exact absurd h List.not_mem_nil

/-- A task that is put off, and the others. -/
theorem Measured.proceed (h : Measured F s) {rest : List Suspended} (hrest : rest ⊆ s.busy.tasks)
    {r : BlockNode × Option Suspended}
    (hr : BlockNode.StaysMeasured F (fun hash => ∃ task ∈ rest, task.Marks hash) r) :
    Measured F { s with busy := ⟨r.1, rest ++ r.2.toList⟩ } where
  node := by
    refine hr.node.mono fun hash hmarked => .inr ?_
    obtain ⟨task, htask, hmarks⟩ := hmarked
    rcases List.mem_append.mp htask with hold | hnew
    · exact .inl ⟨task, hold, hmarks⟩
    · exact .inr ⟨task, Option.mem_toList.mp hnew, hmarks⟩
  tasks task htask := by
    rcases List.mem_append.mp htask with hold | hnew
    · exact h.tasks task (hrest hold)
    · exact hr.next task (Option.mem_toList.mp hnew)
  executed := h.executed

/-- A task that starts. -/
theorem Measured.begin (h : Measured F s) {task : Suspended} (hmarks : ∀ hash, ¬ task.Marks hash)
    (hright : task.Right F) :
    Measured F { s with busy := { s.busy with tasks := s.busy.tasks ++ [task] } } where
  node := by
    refine h.node.mono fun hash hmarked => .inr ?_
    obtain ⟨other, hother, hmark⟩ := hmarked
    rcases List.mem_append.mp hother with hold | hnew
    · exact ⟨other, hold, hmark⟩
    · rw [List.mem_singleton.mp hnew] at hmark
      exact absurd hmark (hmarks hash)
  tasks other hother := by
    rcases List.mem_append.mp hother with hold | hnew
    · exact h.tasks other hold
    · rw [List.mem_singleton.mp hnew]
      exact hright
  executed := h.executed

/-- A block that was executed or created. -/
theorem Measured.addExecuted (h : Measured F s) {block : Block} {patch : PatchDB}
    (hright : RightHash F (block.hash F)) :
    Measured F { s with executed := s.executed ++ [(block, patch)] } where
  node := h.node
  tasks := h.tasks
  executed pair hpair := by
    rcases List.mem_append.mp hpair with hold | hnew
    · exact h.executed pair hold
    · rw [List.mem_singleton.mp hnew]
      exact hright

/-- `_execBlock` checks the height. -/
theorem Measured.execute (hF : F.DistinguishesHeaders) (h : Measured F s) {block : Block}
    (vm : Transaction → Behaviour) (hparents : block.HasParents F)
    (hbuilt : BuiltOnRight F (block.hashedHeader F)) : Measured F (s.execute F block vm) := by
  unfold DagNode.execute
  split
  next patchState hexec =>
    refine h.addExecuted ?_
    exact (ChainState.heightChecked_of_execBlock h.node.tidy hparents hexec).rightHash hF hbuilt
  next => exact h

theorem Measured.quiet_beginTurn (h : Measured F s) (hash : Hash) :
    BlockNode.Quiet F s.busy.node (s.busy.beginTurn F hash) := by
  unfold BusyNode.beginTurn
  split
  next => exact (BlockNode.Grows.refl F s.busy.node).goOn rfl trivial
  next blockInfo _ =>
    split
    next => exact (BlockNode.grows_blockBad s.busy.node blockInfo).goOn rfl trivial
    next =>
      refine h.node.quiet_beginProcessBlock _ blockInfo none fun b hb => ?_
      cases hb

/-- A task goes on with a block only if that was executed. -/
theorem Measured.rightHash_of_outcome (h : Measured F s) {n : Nat} {k : Option Nat}
    {caller : Caller} {block : Block} {patch : PatchDB}
    (hn : s.busy.tasks[n]? = some (.executing caller block)) (hok : s.outcome n k = .ok patch) :
    RightHash F (block.hash F) := by
  unfold outcome at hok
  rw [hn] at hok
  split at hok
  next executed _ htask hk =>
    split at hok
    next heq =>
      cases htask
      obtain ⟨i, -, hi⟩ := Option.bind_eq_some_iff.mp hk
      rw [← heq]
      exact h.executed _ (List.mem_of_getElem? hi)
    next => cases hok
  next => cases hok

/-- A block is created on pending blocks, or on stable ones. -/
theorem mem_getBestParents {pbm : PendingBlocksManager} {nConciliumId : Option Nat}
    (h : hash ∈ (pbm.getBestParents F J nConciliumId).1) :
    hash ∈ pbm.dag ∨ hash ∈ pbm.topStable ∨ hash = F.constants.GENESIS_BLOCK := by
  have hcollected (arrHashes : List Hash) : ∀ arrMerged patchMerged,
      hash ∈ (PendingBlocksManager.collectPatchesFrom F pbm.dag arrHashes arrMerged patchMerged).1 →
        hash ∈ pbm.dag ∨ hash ∈ arrMerged := by
    induction arrHashes with
    | nil => exact fun _ _ hmem => .inr hmem
    | cons first rest ih =>
        intro arrMerged patchMerged hmem
        unfold PendingBlocksManager.collectPatchesFrom at hmem
        split at hmem
        next => exact ih _ _ hmem
        next block hblock =>
          split at hmem
          next => exact ih _ _ hmem
          next =>
            rcases ih _ _ hmem with hdag | happended
            · exact .inl hdag
            · rcases List.mem_append.mp happended with hold | hnew
              · exact .inr hold
              · rw [List.mem_singleton.mp hnew]
                exact .inl (Dag.mem_iff.mpr ⟨block, hblock⟩)
  have hlast (hmem : hash ∈ pbm.lastResort F) :
      hash ∈ pbm.topStable ∨ hash = F.constants.GENESIS_BLOCK := by
    unfold PendingBlocksManager.lastResort at hmem
    split at hmem
    next => exact .inr (List.mem_singleton.mp hmem)
    next => exact .inl hmem
  unfold PendingBlocksManager.getBestParents at h
  dsimp only at h
  generalize (if J.tips pbm.dag = [] then pbm.lastResort F else J.tips pbm.dag) = arrTips at h
  split at h
  next => exact .inr (hlast h)
  next => exact .inl ((hcollected _ _ _ h).resolve_right List.not_mem_nil)

theorem Measured.rightHash_of_createBlock (hF : F.DistinguishesHeaders) (h : Measured F s)
    {witness : Witness} {vm : Transaction → Behaviour} {conciliumId : Nat} {block : Block}
    {patch : PatchDB} (hne : block.parentHashes ≠ [])
    (hcreate : witness.createBlock F J s.busy.node.chain vm conciliumId = .ok (block, patch)) :
    RightHash F (block.hash F) := by
  obtain ⟨-, -, hheight, hparents, -⟩ := Witness.createBlock_ok hcreate
  have habove : HeightAbove F (block.hashedHeader F) :=
    ChainState.heightAbove_of_calcHeight h.node.tidy hne hheight
  refine habove.rightHash hF fun parentHash hparent => ?_
  have hparent : parentHash ∈ block.parentHashes := hparent
  rw [hparents] at hparent
  rcases mem_getBestParents hparent with hdag | htop | rfl
  · exact h.node.rightHash ((BlockNode.isBlockExecuted_iff _ parentHash).mpr (.inr hdag))
  · exact h.node.listed parentHash (.inr (.inr htop))
  · exact rightHash_genesis F

theorem Measured.step (hF : F.DistinguishesHeaders) (h : Measured F s) {event : Event}
    (hkeeps : s.KeepsHeights F event) : Measured F (s.step F J event) := by
  cases event with
  | receive block => exact h.begin (fun _ hmarks => hmarks) trivial
  | take hash =>
      dsimp only [DagNode.step, BusyNode.step]
      split
      next =>
        refine h.proceed (List.Subset.refl _) ?_
        exact (h.quiet_beginTurn hash).staysMeasured hF h.node fun _ => id
      next => exact h
  | exec n vm =>
      dsimp only [DagNode.step]
      split
      next caller block hn =>
        obtain ⟨hparents, hbuilt⟩ := h.tasks _ (List.mem_of_getElem? hn)
        exact h.execute hF vm hparents hbuilt
      next => exact h
  | vote block vm =>
      dsimp only [DagNode.step]
      split
      next hverify hcan =>
        exact h.execute hF vm (BlockNode.hasParents_of_verifyBlock hverify) (h.node.builtOnRight hcan)
      next => exact h
  | create witness vm conciliumId =>
      dsimp only [DagNode.step]
      split
      next => exact h
      next block patch hcreate =>
        split
        next => exact h
        next hne => exact h.addExecuted (h.rightHash_of_createBlock hF hne hcreate)
  | commitBlock k =>
      dsimp only [DagNode.step]
      split
      next => exact h
      next block patch hk =>
        have hright : RightHash F (block.hash F) := h.executed _ (List.mem_of_getElem? hk)
        dsimp only [BusyNode.step]
        split
        next => exact h.begin (fun _ hmarks => hmarks) trivial
        next =>
          split
          next => exact h
          next => exact h.begin (fun _ hmarks => hmarks) hright
  | resume n k =>
      dsimp only [DagNode.step, BusyNode.step]
      split
      next => exact h
      next task hn =>
        have hmem : task ∈ s.busy.tasks := List.mem_of_getElem? hn
        have hmarked (hash : Hash) : s.Marked hash ↔
            (∃ other ∈ s.busy.tasks.eraseIdx n, other.Marks hash) ∨ task.Marks hash := by
          constructor
          · rintro ⟨other, hother, hmarks⟩
            rcases BusyNode.mem_or_mem_eraseIdx hn hother with hrest | rfl
            · exact .inl ⟨other, hrest, hmarks⟩
            · exact .inr hmarks
          · rintro (⟨other, hother, hmarks⟩ | hmarks)
            · exact ⟨other, List.mem_of_mem_eraseIdx hother, hmarks⟩
            · exact ⟨task, hmem, hmarks⟩
        have hsame : s.Marked = fun hash =>
            (∃ other ∈ s.busy.tasks.eraseIdx n, other.Marks hash) ∨ task.Marks hash :=
          funext fun hash => propext (hmarked hash)
        have hnode := h.node
        have hkeeps := hkeeps task hn
        rw [hsame] at hnode hkeeps
        refine h.proceed (List.eraseIdx_subset ..) ?_
        refine BlockNode.staysMeasured_runTask hF hnode (h.tasks task hmem) hkeeps _ _ ?_
        intro caller block patch htask hok
        rw [htask] at hn
        exact h.rightHash_of_outcome hn hok
  | saveBlockInfo hash =>
      dsimp only [DagNode.step]
      split
      next => exact h
      next blockInfo hinfo => exact ⟨h.node.saveBlockInfo hinfo, h.tasks, h.executed⟩
  | restart vm fuel =>
      dsimp only [DagNode.step]
      split
      next node hrestart =>
        refine ⟨(h.node.restart hF hrestart).mono fun hash hmarked => ?_,
          fun task htask => absurd htask List.not_mem_nil,
          fun pair hpair => absurd hpair List.not_mem_nil⟩
        obtain ⟨task, htask, -⟩ := hmarked
        exact absurd htask List.not_mem_nil
      next => exact h
  | rebuildDb arrBlocks =>
      refine ⟨(h.node.dropped hF arrBlocks).mono fun hash hmarked => ?_,
        fun task htask => absurd htask List.not_mem_nil,
        fun pair hpair => absurd hpair List.not_mem_nil⟩
      obtain ⟨task, htask, -⟩ := hmarked
      exact absurd htask List.not_mem_nil

theorem measured_of_run (hF : F.DistinguishesHeaders)
    (hrun : RunWhile F J (KeepsHeights F) .empty s) : Measured F s := by
  induction hrun with
  | start => exact measured_empty F
  | step _ hkeeps ih => exact ih.step hF hkeeps

/-- In every run whose steps keep heights, the height of a block that was executed, or is about
to be final, is the height of genesis plus the length of the longest path to it. -/
theorem measuresHeight_of_run (F : Factory) (J : Dagjs) (hF : F.DistinguishesHeaders)
    (s : DagNode) (hrun : RunWhile F J (KeepsHeights F) .empty s) (hash : Hash)
    (hstands : s.busy.node.isBlockExecuted hash = true ∨ s.Marked hash) :
    s.busy.node.mainDag.MeasuresHeight F hash := by
  have h := measured_of_run hF hrun
  exact (h.node.placed hash hstands).measuresHeight hF h.node.tidy

/-! ### A block whose parent is rolled back -/

/-- Pays the owner of address 3. -/
def paysOwner : Transaction where
  payload := { conciliumId := 0, ins := [], outs := [{ amount := 100000, receiverAddr := 3 }] }

/-- Creates the contract with the definitions of conciliums. -/
def createsConciliums : Transaction where
  payload :=
    { conciliumId := 0
      ins := []
      outs := [{ amount := 0, receiverAddr := 0, contractCode := "class" }] }

/-- Genesis with both transactions. -/
def payingGenesis : Block where
  header := { parentHashes := [], merkleRoot := 0, conciliumId := 0, timestamp := 0, height := 0 }
  txns := [{ payload := { conciliumId := 0, ins := [⟨zeroHash, 0⟩], outs := [] } }, paysOwner,
    createsConciliums]

/-- Five conciliums, of which three make a block stable. -/
def fiveConciliums : Factory :=
  let F := Factory.sample.withHeaderCodes
  { F with
    constants :=
      { GENESIS_BLOCK := payingGenesis.hash F
        CONCILIUM_DEFINITION_CONTRACT_ADDRESS :=
          some (F.contractAddress (createsConciliums.hash F)) }
    arrConciliums := fun _ =>
      (List.range 5).map fun conciliumId => .rr { conciliumId, addresses := [7] } }

theorem distinguishesHeaders_fiveConciliums : fiveConciliums.DistinguishesHeaders :=
  Factory.distinguishesHeaders_withHeaderCodes Factory.sample

/-- A block without transactions. -/
def idleBlock (parent : Block) (conciliumId height : Nat) : Block :=
  ChainState.emptyBlock [parent.hash fiveConciliums] conciliumId height height

/-- A block in which the owner spends what genesis has paid. -/
def spendingBlock (parent : Block) (conciliumId height : Nat) : Block :=
  let payload : TransactionPayload :=
    { conciliumId
      ins := [⟨paysOwner.hash fiveConciliums, 0⟩]
      outs := [{ amount := 40000, receiverAddr := 9 }] }
  { header :=
      { parentHashes := [parent.hash fiveConciliums], merkleRoot := 0, conciliumId, timestamp := 0,
        height }
    txns :=
      [{ payload :=
          { conciliumId
            ins := [⟨zeroHash, 0⟩]
            outs := [{ amount := 60000, receiverAddr := 2 }] } },
        { payload, claimProofs := [fiveConciliums.payloadHash payload * 1000 + 3] }] }

/-- The first block upon genesis. -/
def carrier : Block := idleBlock payingGenesis 0 1

/-- A block upon it, and one next to that. -/
def carried : Block := idleBlock carrier 0 2

/-- The owner spends in one block upon the carrier, and in one upon genesis. -/
def rival : Block := spendingBlock payingGenesis 2 1

/-- Behaviours for the creation of a contract. -/
def created : Transaction → Behaviour := fun _ => ⟨.ok ⟨[], "class"⟩, .throws ""⟩

/-- A block arrives and is executed as the kth one, and goes on for some steps after that. -/
def processed (k : Nat) (block : Block) (n : Nat) : List Event :=
  [.receive block, .resume 0 none, .resume 0 none, .resume 0 none, .exec 0 created,
    .resume 0 (some k)] ++ List.replicate n (.resume 0 none)

/-- Look for `Rooted` along some edges. -/
def isRooted (F : Factory) (mainDag : MainDag) : Nat → Hash → Bool
  | 0, _ => false
  | fuel + 1, hash =>
      (mainDag.getBlockInfo hash).any fun info =>
        hash = F.constants.GENESIS_BLOCK || info.header.parentHashes.all fun parentHash =>
          decide ((hash, parentHash) ∈ mainDag.edges) && isRooted F mainDag fuel parentHash

/-- Look for `KeepsHeights`. -/
def seesHeightsKept (F : Factory) (s : DagNode) : Event → Bool
  | .resume n _ =>
      s.busy.tasks[n]?.all fun
        | .adding _ block _ =>
            isRooted F s.busy.node.mainDag 2 (block.hash F) &&
              (block.hash F ≠ F.constants.GENESIS_BLOCK || block.parentHashes = [])
        | .accepting _ acceptance =>
            acceptance.effects.head?.all fun
              | .checkFinality => decide (acceptance.block.hash F ∈ s.busy.node.pendingBlocks.dag)
              | .unwindBlock _ => false
              | _ => true
        | _ => true
  | _ => true

/-- Look for it at each event. -/
def seesAllKept (F : Factory) (J : Dagjs) : DagNode → List Event → Bool
  | _, [] => true
  | s, event :: rest => seesHeightsKept F s event && seesAllKept F J (s.step F J event) rest

theorem rooted_of_isRooted {mainDag : MainDag} {fuel : Nat}
    (h : isRooted F mainDag fuel hash = true) : mainDag.Rooted F hash := by
  induction fuel generalizing hash with
  | zero => cases h
  | succ fuel ih =>
      obtain ⟨info, hinfo, hbelow⟩ := (Option.any_eq_true _ _).mp h
      by_cases hgenesis : hash = F.constants.GENESIS_BLOCK
      · subst hgenesis
        exact .genesis hinfo
      · have hparents := List.all_eq_true.mp <|
          ((Bool.or_eq_true _ _).mp hbelow).resolve_left fun h => hgenesis (of_decide_eq_true h)
        refine .block hinfo hgenesis (fun p hp => ?_) fun p hp => ?_
        · have hedge := ((Bool.and_eq_true _ _).mp (hparents p hp)).1
          rwa [decide_eq_true_eq] at hedge
        · exact ih ((Bool.and_eq_true _ _).mp (hparents p hp)).2

theorem keepsHeights_of_seen {event : Event} (h : seesHeightsKept F s event = true) :
    s.KeepsHeights F event := by
  cases event with
  | resume n k =>
      intro task htask
      have hseen := (Option.all_eq_true _ _).mp h task htask
      cases task with
      | adding how block patchState =>
          obtain ⟨hrooted, hgenesis⟩ := (Bool.and_eq_true _ _).mp hseen
          refine ⟨rooted_of_isRooted hrooted, fun heq => ?_⟩
          exact of_decide_eq_true (((Bool.or_eq_true _ _).mp hgenesis).resolve_left
            fun hne => of_decide_eq_true hne heq)
      | accepting how acceptance =>
          intro effect heffect
          have hseen := (Option.all_eq_true _ _).mp hseen effect heffect
          cases effect with
          | checkFinality => rwa [decide_eq_true_eq] at hseen
          | unwindBlock hash => cases hseen
          | _ => trivial
      | _ => trivial
  | _ => trivial

theorem meetsAll_of_seen {events : List Event} (h : seesAllKept F J s events = true) :
    MeetsAll F J (KeepsHeights F) s events := by
  induction events generalizing s with
  | nil => trivial
  | cons event rest ih =>
      obtain ⟨hfirst, hrest⟩ := (Bool.and_eq_true _ _).mp h
      exact ⟨keepsHeights_of_seen hfirst, ih hrest⟩

/-- The first block after genesis is pending. -/
def carrierJoins : List Event := processed 0 payingGenesis 7 ++ processed 1 carrier 1

/-- Its height is one more than that of genesis. -/
theorem measuresHeight_of_run_carrier :
    (DagNode.empty.steps fiveConciliums Dagjs.sample carrierJoins).busy.node.mainDag.MeasuresHeight
      fiveConciliums (carrier.hash fiveConciliums) :=
  measuresHeight_of_run fiveConciliums Dagjs.sample distinguishesHeaders_fiveConciliums _
    (RunWhile.start.steps (meetsAll_of_seen (by decide +kernel))) _ (.inl (by decide +kernel))

/-- The rival becomes stable when two other conciliums have built upon it. The branch that
conflicts with it is rolled back, down to the carrier. -/
def carrierRolledBack : List Event :=
  processed 0 payingGenesis 7 ++ processed 1 carrier 4 ++
    processed 2 (spendingBlock carrier 1 2) 4 ++ processed 3 carried 4 ++ processed 4 rival 4 ++
    processed 5 (idleBlock rival 3 2) 4 ++ processed 6 (idleBlock (idleBlock rival 3 2) 4 3) 13

/-- The block is executed, and no edge leads down from it. -/
def standsAlone (s : DagNode) (hash : Hash) : Bool :=
  s.busy.node.isBlockExecuted hash && s.busy.node.mainDag.edges.all fun edge => edge.1 ≠ hash

theorem standsAlone_carried :
    standsAlone (DagNode.empty.steps fiveConciliums Dagjs.sample carrierRolledBack)
        (carried.hash fiveConciliums) = true ∧
      carried.hash fiveConciliums ≠ fiveConciliums.constants.GENESIS_BLOCK := by
  decide +kernel

/-- A block whose parent is rolled back has no path down to genesis any more. -/
theorem not_measuresHeight_carried :
    ¬ ∀ (F : Factory) (J : Dagjs), F.DistinguishesHeaders → ∀ s : DagNode,
      RunWhile F J (fun _ _ => True) .empty s → ∀ hash, s.busy.node.isBlockExecuted hash = true →
        s.busy.node.mainDag.MeasuresHeight F hash := by
  intro hclaim
  obtain ⟨halone, hne⟩ := standsAlone_carried
  obtain ⟨hexecuted, hedges⟩ := (Bool.and_eq_true _ _).mp halone
  have hmeets (events : List Event) : ∀ s : DagNode,
      MeetsAll fiveConciliums Dagjs.sample (fun _ _ => True) s events := by
    induction events with
    | nil => exact fun _ => trivial
    | cons event rest ih => exact fun s => ⟨trivial, ih _⟩
  obtain ⟨-, -, -, -, ⟨n, -, hpath, -⟩, -⟩ := hclaim fiveConciliums Dagjs.sample
    distinguishesHeaders_fiveConciliums _ (RunWhile.start.steps (hmeets carrierRolledBack _)) _
    hexecuted
  refine LongestPath.not_pathTo hne (fun parentHash hedge => ?_) hpath
  have hnot := of_decide_eq_true (List.all_eq_true.mp hedges _ hedge)
  exact hnot rfl

end DagNode

end CilCore
