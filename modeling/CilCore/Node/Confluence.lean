import CilCore.Node.ParentOrder
import CilCore.Node.StableSet
import CilCore.Storage.Mergeable

/-!
# Finality does not depend on the order of arrival

Blocks with mutually mergeable patches arrive one after another, parents first, and
each is checked for finality when it is added. What has become stable leaves the
graph, so later checks see less of it; but what is missing lies below stable blocks
and is stable itself. So in every order the blocks that have become stable are those
that a majority is met on the way to in the graph of all blocks.
-/

namespace CilCore.PendingBlocksManager

variable {F : Factory} {J : Dagjs} {nConciliumCount : Nat}

/-- A block with the patch of its execution. -/
structure Arrival where
  block : Block
  patch : PatchDB

/-- What `addBlock` saves for a block. -/
def Arrival.object (F : Factory) (arrival : Arrival) : PendingBlock :=
  ⟨arrival.patch, arrival.block.hashedHeader F, arrival.block.isEmpty⟩

/-- The hashes of blocks. -/
def hashesOf (F : Factory) (arrivals : List Arrival) : List Hash :=
  arrivals.map fun arrival => arrival.block.hash F

/-- `addBlock`, and `checkFinality` for the new block: what becomes stable. -/
def deliver (F : Factory) (J : Dagjs) (nConciliumCount : Nat) (arrival : Arrival)
    (pbm : PendingBlocksManager) : Except String (List Hash × PendingBlocksManager) :=
  match (pbm.addBlock F arrival.block arrival.patch).checkFinality F J (arrival.block.hash F)
      nConciliumCount with
  | .error error => .error error
  | .ok (none, after) => .ok ([], after)
  | .ok (some r, after) => .ok (r.setStableBlocks, after)

/-- Blocks one after another: all that becomes stable. -/
def deliverAll (F : Factory) (J : Dagjs) (nConciliumCount : Nat) :
    List Arrival → PendingBlocksManager → Except String (List Hash × PendingBlocksManager)
  | [], pbm => .ok ([], pbm)
  | arrival :: rest, pbm =>
      match deliver F J nConciliumCount arrival pbm with
      | .error error => .error error
      | .ok (stable, pbm) => (deliverAll F J nConciliumCount rest pbm).map fun later =>
          (stable ++ later.1, later.2)

/-- Different blocks, none of which comes before one of its parents. -/
def ParentsFirst (F : Factory) (arrivals : List Arrival) : Prop :=
  (∀ arrival ∈ arrivals, arrival.block.hash F ∉ arrival.block.parentHashes) ∧
    arrivals.Pairwise fun earlier later =>
      earlier.block.hash F ≠ later.block.hash F ∧
        later.block.hash F ∉ earlier.block.parentHashes

/-- The graph of all blocks, none of which is ever removed. -/
def graphOf (F : Factory) (arrivals : List Arrival) : PendingDag :=
  arrivals.foldl (fun dag arrival => dag.addVertex (arrival.block.hash F)
    arrival.block.parentHashes (arrival.object F)) Dag.empty

/-- A majority is met on some path down to the block from one that has arrived. -/
def StableIn (F : Factory) (nConciliumCount : Nat) (arrivals : List Arrival) (u : Hash) : Prop :=
  ∃ v ∈ graphOf F arrivals, StableFrom (graphOf F arrivals) v (majority nConciliumCount) u

/-! ### The graph of all blocks -/

theorem graphOf_append_singleton (arrivals : List Arrival) (arrival : Arrival) :
    graphOf F (arrivals ++ [arrival]) = (graphOf F arrivals).addVertex (arrival.block.hash F)
      arrival.block.parentHashes (arrival.object F) := by
  rw [graphOf, List.foldl_append]
  rfl

theorem mem_graphOf {arrivals : List Arrival} {v : Hash} :
    v ∈ graphOf F arrivals ↔ v ∈ hashesOf F arrivals := by
  induction arrivals using List.reverseRecOn with
  | nil =>
      rw [hashesOf, List.map_nil, iff_false_right List.not_mem_nil]
      exact Dag.notMem_empty v
  | append_singleton arrivals arrival ih =>
      rw [graphOf_append_singleton, Dag.mem_addVertex, ih, hashesOf, hashesOf, List.map_append,
        List.mem_append, List.map_singleton, List.mem_singleton, or_comm]

theorem ParentsFirst.of_append {arrivals more : List Arrival}
    (h : ParentsFirst F (arrivals ++ more)) : ParentsFirst F arrivals :=
  ⟨fun a ha => h.1 a (List.mem_append_left _ ha), (List.pairwise_append.mp h.2).1⟩

/-- A block that arrives last is new, and none of its parents. -/
theorem ParentsFirst.last {arrivals : List Arrival} {arrival : Arrival}
    (h : ParentsFirst F (arrivals ++ [arrival])) :
    arrival.block.hash F ∉ graphOf F arrivals ∧
      arrival.block.hash F ∉ arrival.block.parentHashes := by
  refine ⟨fun hmem => ?_, h.1 arrival (by simp)⟩
  obtain ⟨earlier, hearlier, heq⟩ := List.mem_map.mp (mem_graphOf.mp hmem)
  exact ((List.pairwise_append.mp h.2).2.2 earlier hearlier arrival (by simp)).1 heq

theorem acyclic_graphOf {arrivals : List Arrival} (h : ParentsFirst F arrivals) :
    (graphOf F arrivals).Acyclic := by
  induction arrivals using List.reverseRecOn with
  | nil => exact Dag.acyclic_empty
  | append_singleton arrivals arrival ih =>
      rw [graphOf_append_singleton]
      exact (ih h.of_append).addVertex _ h.last.1 h.last.2

/-! ### Stability in growing and in induced graphs -/

theorem witnessesOf_congr {dag dag' : PendingDag} {path : List Hash}
    (h : ∀ v ∈ path, (dag.readObj v).map (·.blockHeader) = (dag'.readObj v).map (·.blockHeader)) :
    witnessesOf dag path = witnessesOf dag' path := by
  have hmap (v : Hash) (hv : v ∈ path) :
      (dag.readObj v).map (·.blockHeader.conciliumId) =
        (dag'.readObj v).map (·.blockHeader.conciliumId) := by
    have hheader := congrArg (Option.map BlockHeader.conciliumId) (h v hv)
    rwa [Option.map_map, Option.map_map] at hheader
  rw [witnessesOf, witnessesOf, List.filterMap_congr hmap]

/-- What lies below a block that is stable is stable. -/
theorem StableFrom.reaches {dag : PendingDag} {v u w : Hash} {n : Nat} (h : StableFrom dag v n u)
    (hreach : dag.Reaches u w) : StableFrom dag v n w := by
  obtain ⟨path, hwalk, hcard⟩ := h
  obtain ⟨further, hwalk⟩ := hwalk.append hreach
  refine ⟨_, hwalk, hcard.trans (Finset.card_le_card ?_)⟩
  rw [witnessesOf_append]
  exact Finset.subset_union_left

theorem StableFrom.mem {dag : PendingDag} {v u : Hash} {n : Nat} (h : StableFrom dag v n u)
    (hv : v ∈ dag) : u ∈ dag := by
  obtain ⟨path, hwalk, -⟩ := h
  exact hwalk.reaches_end.mem hv

theorem StableIn.mem {arrivals : List Arrival} {u : Hash}
    (h : StableIn F nConciliumCount arrivals u) : u ∈ graphOf F arrivals := by
  obtain ⟨v, hv, hstable⟩ := h
  exact hstable.mem hv

theorem StableIn.reaches {arrivals : List Arrival} {u w : Hash}
    (h : StableIn F nConciliumCount arrivals u) (hreach : (graphOf F arrivals).Reaches u w) :
    StableIn F nConciliumCount arrivals w := by
  obtain ⟨v, hv, hstable⟩ := h
  exact ⟨v, hv, hstable.reaches hreach⟩

/-- A new block makes stable what is stable from it. -/
theorem stableIn_append_singleton {arrivals : List Arrival} {arrival : Arrival} {u : Hash}
    (h : ParentsFirst F (arrivals ++ [arrival])) :
    StableIn F nConciliumCount (arrivals ++ [arrival]) u ↔
      StableIn F nConciliumCount arrivals u ∨
        StableFrom (graphOf F (arrivals ++ [arrival])) (arrival.block.hash F)
          (majority nConciliumCount) u := by
  have hnew := h.last.1
  -- the paths from an old block are the old ones
  have hold {v : Hash} (hv : v ∈ graphOf F arrivals) :
      StableFrom (graphOf F (arrivals ++ [arrival])) v (majority nConciliumCount) u ↔
        StableFrom (graphOf F arrivals) v (majority nConciliumCount) u := by
    rw [graphOf_append_singleton]
    refine exists_congr fun path => ?_
    rw [Dag.walk_addVertex hnew hv]
    refine and_congr_right fun hwalk => ?_
    rw [witnessesOf_congr fun x hx => ?_]
    have hne : x ≠ arrival.block.hash F := by
      rintro rfl
      exact hnew ((hwalk.reaches hx).1.mem hv)
    rw [Dag.readObj_addVertex, if_neg hne]
  constructor
  · rintro ⟨v, hv, hstable⟩
    rw [graphOf_append_singleton, Dag.mem_addVertex] at hv
    rcases hv with rfl | hv
    · exact .inr hstable
    · exact .inl ⟨v, hv, (hold hv).mp hstable⟩
  · rintro (⟨v, hv, hstable⟩ | hstable)
    · refine ⟨v, ?_, (hold hv).mpr hstable⟩
      rw [graphOf_append_singleton, Dag.mem_addVertex]
      exact .inr hv
    · refine ⟨_, ?_, hstable⟩
      rw [graphOf_append_singleton, Dag.mem_addVertex]
      exact .inl rfl

/-! ### The run -/

/-- Where a run stands after some blocks: what has become stable is what is stable in the
graph of these blocks, and the other ones are pending, with the edges between them and
patches that can all be merged. -/
structure Progress (F : Factory) (nConciliumCount : Nat) (patches : List PatchDB)
    (arrivals : List Arrival) (stable : List Hash) (pbm : PendingBlocksManager) : Prop where
  stable : ∀ u, u ∈ stable ↔ StableIn F nConciliumCount arrivals u
  mem : ∀ v, v ∈ pbm.dag ↔ v ∈ graphOf F arrivals ∧ ¬ StableIn F nConciliumCount arrivals v
  edge : ∀ v w, pbm.dag.Edge v w ↔
    (graphOf F arrivals).Edge v w ∧ v ∈ pbm.dag ∧ w ∈ pbm.dag
  header : ∀ v ∈ pbm.dag, (pbm.dag.readObj v).map (·.blockHeader) =
    ((graphOf F arrivals).readObj v).map (·.blockHeader)
  covered : ∀ v b, pbm.dag.readObj v = some b → PatchDB.Covered patches b.patch

section Step

variable {patches : List PatchDB} {arrivals : List Arrival} {stable : List Hash}
  {pbm : PendingBlocksManager} {arrival : Arrival}

/-- The graph after `addBlock`, within the graph of all blocks. -/
structure Added (F : Factory) (nConciliumCount : Nat) (patches : List PatchDB)
    (arrivals : List Arrival) (arrival : Arrival) (dag : PendingDag) : Prop where
  mem : ∀ v, v ∈ dag ↔ v ∈ graphOf F (arrivals ++ [arrival]) ∧
    ¬ StableIn F nConciliumCount arrivals v
  induced : Dag.Induced dag (graphOf F (arrivals ++ [arrival]))
  header : ∀ v ∈ dag, (dag.readObj v).map (·.blockHeader) =
    ((graphOf F (arrivals ++ [arrival])).readObj v).map (·.blockHeader)
  covered : ∀ v b, dag.readObj v = some b → PatchDB.Covered patches b.patch
  acyclic : dag.Acyclic

theorem Progress.added (h : Progress F nConciliumCount patches arrivals stable pbm)
    (hfirst : ParentsFirst F (arrivals ++ [arrival]))
    (hpatch : PatchDB.Covered patches arrival.patch) :
    Added F nConciliumCount patches arrivals arrival
      (pbm.addBlock F arrival.block arrival.patch).dag := by
  have hnew := hfirst.last.1
  have hnotPending : arrival.block.hash F ∉ pbm.dag := fun hmem => hnew ((h.mem _).mp hmem).1
  have hdag : (pbm.addBlock F arrival.block arrival.patch).dag =
      pbm.dag.addVertex (arrival.block.hash F) arrival.block.parentHashes
        (arrival.object F) := rfl
  have hmem (v : Hash) : v ∈ (pbm.addBlock F arrival.block arrival.patch).dag ↔
      v ∈ graphOf F (arrivals ++ [arrival]) ∧ ¬ StableIn F nConciliumCount arrivals v := by
    rw [hdag, Dag.mem_addVertex, graphOf_append_singleton, Dag.mem_addVertex, h.mem]
    constructor
    · rintro (rfl | hold)
      · exact ⟨.inl rfl, fun hstable => hnew hstable.mem⟩
      · exact ⟨.inr hold.1, hold.2⟩
    · rintro ⟨rfl | hold, hnot⟩
      · exact .inl rfl
      · exact .inr ⟨hold, hnot⟩
  have hedge (v w : Hash) : (pbm.addBlock F arrival.block arrival.patch).dag.Edge v w ↔
      (graphOf F (arrivals ++ [arrival])).Edge v w ∧
        v ∈ (pbm.addBlock F arrival.block arrival.patch).dag ∧
        w ∈ (pbm.addBlock F arrival.block arrival.patch).dag := by
    rw [hdag, Dag.edge_addVertex, graphOf_append_singleton, Dag.edge_addVertex, Dag.mem_addVertex,
      Dag.mem_addVertex, h.edge]
    constructor
    · rintro (⟨rfl, hparent, hw⟩ | ⟨hold, hv, hw⟩)
      · exact ⟨.inl ⟨rfl, hparent, hw.imp_left fun hw => ((h.mem w).mp hw).1⟩, .inl rfl, hw.symm⟩
      · exact ⟨.inr hold, .inr hv, .inr hw⟩
    · rintro ⟨⟨rfl, hparent, -⟩ | hold, hv, hw⟩
      · exact .inl ⟨rfl, hparent, hw.symm⟩
      · refine .inr ⟨hold, hv.resolve_left ?_, hw.resolve_left ?_⟩
        · rintro rfl
          exact hnew hold.mem_left
        · rintro rfl
          exact hnew hold.mem_right
  refine ⟨hmem, ⟨fun v hv => ((hmem v).mp hv).1, hedge⟩, fun v hv => ?_, fun v b hb => ?_, ?_⟩
  · rw [hdag, Dag.readObj_addVertex, graphOf_append_singleton, Dag.readObj_addVertex]
    split
    next => rfl
    next hne => exact h.header v ((Dag.mem_addVertex.mp hv).resolve_left hne)
  · rw [hdag, Dag.readObj_addVertex] at hb
    split at hb
    next =>
      cases hb
      exact hpatch
    next => exact h.covered v b hb
  · exact (acyclic_graphOf hfirst).of_edge fun v w hvw => ((hedge v w).mp hvw).1

/-- From the new block the same new blocks are stable with and without the ones that have
left the graph. -/
theorem Added.stableFrom_iff {dag : PendingDag}
    (h : Added F nConciliumCount patches arrivals arrival dag)
    (hfirst : ParentsFirst F (arrivals ++ [arrival])) {u : Hash} :
    StableFrom dag (arrival.block.hash F) (majority nConciliumCount) u ↔
      StableFrom (graphOf F (arrivals ++ [arrival])) (arrival.block.hash F)
        (majority nConciliumCount) u ∧ ¬ StableIn F nConciliumCount arrivals u := by
  have hnew := hfirst.last.1
  have hin : arrival.block.hash F ∈ dag := by
    rw [h.mem, graphOf_append_singleton, Dag.mem_addVertex]
    exact ⟨.inl rfl, fun hstable => hnew hstable.mem⟩
  constructor
  · rintro ⟨path, hwalk, hcard⟩
    obtain ⟨hfull, hinside⟩ := (h.induced.walk_iff hin).mp hwalk
    refine ⟨⟨path, hfull, ?_⟩, ((h.mem u).mp (hwalk.reaches_end.mem hin)).2⟩
    rwa [witnessesOf_congr fun x hx => (h.header x (hinside x hx)).symm]
  · rintro ⟨⟨path, hwalk, hcard⟩, hnot⟩
    -- a stable block on the path would make its end stable
    have hinside (x : Hash) (hx : x ∈ path) : x ∈ dag := by
      obtain ⟨hto, hfrom⟩ := hwalk.reaches hx
      have hxmem := hto.mem ((h.mem _).mp hin).1
      refine (h.mem x).mpr ⟨hxmem, fun hstable => hnot ?_⟩
      obtain ⟨further, hon⟩ := (Dag.Walk.here x).append hfrom
      rw [graphOf_append_singleton, Dag.walk_addVertex hnew hstable.mem] at hon
      exact hstable.reaches hon.reaches_end
    refine ⟨path, (h.induced.walk_iff hin).mpr ⟨hwalk, hinside⟩, ?_⟩
    rwa [witnessesOf_congr fun x hx => h.header x (hinside x hx)]

theorem readObj_of_removeVertices {dag : PendingDag} {vs : List Hash} {v : Hash}
    {b : PendingBlock} (h : (dag.removeVertices vs).readObj v = some b) :
    dag.readObj v = some b := by
  rw [Dag.readObj_removeVertices] at h
  split at h
  next => cases h
  next => exact h

/-- Covered patches can all be merged. -/
theorem exists_mergeAll (hmutual : PatchDB.MutuallyMergeable F patches) {merging : List PatchDB}
    (hcovered : ∀ p ∈ merging, PatchDB.Covered patches p) {patchMerged : PatchDB}
    (hmerged : PatchDB.Covered patches patchMerged) (hnone : patchMerged.conciliumId = none) :
    ∃ R, PatchDB.mergeAll F merging patchMerged = .ok R ∧ PatchDB.Covered patches R ∧
      R.conciliumId = none := by
  induction merging generalizing patchMerged with
  | nil => exact ⟨patchMerged, rfl, hmerged, hnone⟩
  | cons p rest ih =>
      have hp := hcovered p List.mem_cons_self
      rw [PatchDB.mergeAll, hp.exists_merge hmutual hmerged (.inr hnone)]
      exact ih (fun q hq => hcovered q (List.mem_cons_of_mem _ hq)) (hp.merged hmerged) rfl

theorem Added.exists_mergePatches (hmutual : PatchDB.MutuallyMergeable F patches)
    {pbm : PendingBlocksManager} (h : Added F nConciliumCount patches arrivals arrival pbm.dag)
    (arrHashes : List Hash) :
    ∃ R, pbm.mergePatches F arrHashes = .ok R ∧ PatchDB.Covered patches R ∧
      R.conciliumId = none := by
  rw [mergePatches, mergePatchesFrom_eq]
  refine exists_mergeAll hmutual (fun p hp => ?_) (PatchDB.covered_empty patches) rfl
  obtain ⟨v, -, hv⟩ := List.mem_filterMap.mp hp
  obtain ⟨b, hb, rfl⟩ := Option.map_eq_some_iff.mp hv
  exact h.covered v b hb

/-- What the check of the new block makes of the graph when nothing conflicts. -/
theorem Added.progress {pbm : PendingBlocksManager}
    (h : Added F nConciliumCount patches arrivals arrival pbm.dag)
    (hfirst : ParentsFirst F (arrivals ++ [arrival]))
    (hstable : ∀ u, u ∈ stable ↔ StableIn F nConciliumCount arrivals u)
    {new : List Hash} (hnew : ∀ u, u ∈ new ↔
      StableFrom pbm.dag (arrival.block.hash F) (majority nConciliumCount) u)
    {after : PendingBlocksManager} (hafter : RestrictedTo pbm.dag new after.dag)
    (hcovered : ∀ v b, after.dag.readObj v = some b → PatchDB.Covered patches b.patch) :
    Progress F nConciliumCount patches (arrivals ++ [arrival]) (stable ++ new) after where
  stable u := by
    rw [List.mem_append, hstable, hnew, h.stableFrom_iff hfirst, stableIn_append_singleton hfirst]
    tauto
  mem v := by
    rw [hafter.mem, hnew, h.stableFrom_iff hfirst, stableIn_append_singleton hfirst, h.mem]
    tauto
  edge v w := by
    rw [hafter.edge, hafter.mem, hafter.mem, h.induced.edge]
    tauto
  header v hv := by
    obtain ⟨hin, hnot⟩ := (hafter.mem v).mp hv
    have hpair := congrArg (Option.map Prod.fst) (hafter.header v hnot)
    rw [Option.map_map, Option.map_map] at hpair
    exact hpair.trans (h.header v hin)
  covered := hcovered

theorem Progress.deliver (h : Progress F nConciliumCount patches arrivals stable pbm)
    (hmutual : PatchDB.MutuallyMergeable F patches)
    (hfirst : ParentsFirst F (arrivals ++ [arrival])) (hpatch : arrival.patch ∈ patches) :
    ∃ new after, deliver F J nConciliumCount arrival pbm = .ok (new, after) ∧
      Progress F nConciliumCount patches (arrivals ++ [arrival]) (stable ++ new) after := by
  have hadded := h.added hfirst (PatchDB.covered_of_mem hmutual hpatch)
  unfold PendingBlocksManager.deliver
  generalize pbm.addBlock F arrival.block arrival.patch = added at hadded ⊢
  have hin : arrival.block.hash F ∈ added.dag := by
    rw [hadded.mem, graphOf_append_singleton, Dag.mem_addVertex]
    exact ⟨.inl rfl, fun hstable => hfirst.last.1 hstable.mem⟩
  unfold checkFinality
  dsimp only
  by_cases hnil : added.findTopStable J (arrival.block.hash F) (majority nConciliumCount) = []
  · rw [if_pos hnil]
    rw [findTopStable_eq_nil_iff hadded.acyclic hin] at hnil
    refine ⟨[], added, rfl, hadded.progress hfirst h.stable (fun u => ?_) ?_ hadded.covered⟩
    · exact iff_of_false List.not_mem_nil (hnil u)
    · exact ⟨by simp, by simp, fun _ _ => rfl⟩
  · rw [if_neg hnil]
    obtain ⟨patchToApply, hmerge, happly, hnone⟩ := hadded.exists_mergePatches hmutual
      (added.findTopStable J (arrival.block.hash F) (majority nConciliumCount))
    rw [hmerge]
    dsimp only
    refine ⟨_, _, rfl, hadded.progress hfirst h.stable (fun u => ?_) ?_ fun v b hb => ?_⟩
    · exact mem_findAlsoStable_iff hadded.acyclic hin
    · apply restrictedTo_settle
      refine conflictingBranches_eq_nil (hadded.acyclic.removeVertices _) ?_
      rintro tip ⟨-, -, hconflict⟩
      unfold conflicting at hconflict
      split at hconflict
      next => cases hconflict
      next block hblock =>
        rw [(hadded.covered tip block (readObj_of_removeVertices hblock)).exists_merge hmutual
          happly (.inr hnone)] at hconflict
        cases hconflict
    · rw [settle, Dag.readObj_mapObjs, Option.map_eq_some_iff] at hb
      obtain ⟨old, hold, rfl⟩ := hb
      exact (hadded.covered v old
        (readObj_of_removeVertices (readObj_of_removeVertices hold))).purge happly

/-- A run adds the blocks of its list to those before. -/
theorem Progress.deliverAll (h : Progress F nConciliumCount patches arrivals stable pbm)
    (hmutual : PatchDB.MutuallyMergeable F patches) (rest : List Arrival)
    (hfirst : ParentsFirst F (arrivals ++ rest))
    (hpatches : ∀ arrival ∈ rest, arrival.patch ∈ patches) :
    ∃ later after, deliverAll F J nConciliumCount rest pbm = .ok (later, after) ∧
      Progress F nConciliumCount patches (arrivals ++ rest) (stable ++ later) after := by
  induction rest generalizing arrivals stable pbm with
  | nil => exact ⟨[], pbm, rfl, by rwa [List.append_nil, List.append_nil]⟩
  | cons arrival rest ih =>
      have hstep : ParentsFirst F (arrivals ++ [arrival] ++ rest) := by
        rwa [← List.append_cons]
      obtain ⟨new, next, hdeliver, hnext⟩ :=
        h.deliver (J := J) hmutual hstep.of_append (hpatches arrival List.mem_cons_self)
      obtain ⟨later, after, hrest, hafter⟩ :=
        ih hnext hstep fun a ha => hpatches a (List.mem_cons_of_mem _ ha)
      refine ⟨new ++ later, after, ?_, ?_⟩
      · rw [PendingBlocksManager.deliverAll, hdeliver]
        dsimp only
        rw [hrest]
        rfl
      · rw [List.append_cons, ← List.append_assoc]
        exact hafter

end Step

/-! ### Two orders -/

theorem readObj_graphOf {arrivals : List Arrival} (h : ParentsFirst F arrivals) {v : Hash}
    {b : PendingBlock} : (graphOf F arrivals).readObj v = some b ↔
      ∃ arrival ∈ arrivals, arrival.block.hash F = v ∧ arrival.object F = b := by
  induction arrivals using List.reverseRecOn with
  | nil =>
      refine iff_of_false (fun hsome => ?_) (by simp)
      exact Dag.notMem_empty v (Dag.mem_iff.mpr ⟨b, hsome⟩)
  | append_singleton arrivals arrival ih =>
      rw [graphOf_append_singleton, Dag.readObj_addVertex]
      simp only [List.mem_append, List.mem_singleton, or_and_right, exists_or, exists_eq_left]
      split
      next heq =>
        constructor
        · intro hsome
          exact .inr ⟨heq.symm, Option.some.inj hsome⟩
        · rintro (⟨earlier, hearlier, hhash, -⟩ | ⟨-, hobject⟩)
          · exact absurd (mem_graphOf.mpr (List.mem_map.mpr ⟨earlier, hearlier, hhash.trans heq⟩))
              h.last.1
          · rw [hobject]
      next hne =>
        rw [ih h.of_append, or_iff_left]
        exact fun hlast => hne hlast.1.symm

theorem edge_graphOf {arrivals : List Arrival} (h : ParentsFirst F arrivals) {v w : Hash} :
    (graphOf F arrivals).Edge v w ↔ w ∈ hashesOf F arrivals ∧
      ∃ arrival ∈ arrivals, arrival.block.hash F = v ∧ w ∈ arrival.block.parentHashes := by
  induction arrivals using List.reverseRecOn with
  | nil => exact iff_of_false (fun hedge => Dag.notMem_empty v hedge.mem_left) (by simp)
  | append_singleton arrivals arrival ih =>
      have hhashes : w ∈ hashesOf F (arrivals ++ [arrival]) ↔
          w ∈ hashesOf F arrivals ∨ w = arrival.block.hash F := by simp [hashesOf]
      have hparents : (∃ a ∈ arrivals ++ [arrival], a.block.hash F = v ∧
          w ∈ a.block.parentHashes) ↔ (∃ a ∈ arrivals, a.block.hash F = v ∧
            w ∈ a.block.parentHashes) ∨ arrival.block.hash F = v ∧
              w ∈ arrival.block.parentHashes := by
        simp [or_and_right, exists_or]
      rw [graphOf_append_singleton, Dag.edge_addVertex, ih h.of_append, mem_graphOf, hhashes,
        hparents]
      constructor
      · rintro (⟨rfl, hparent, hw⟩ | ⟨hw, earlier, hearlier, hhash, hparent⟩)
        · exact ⟨hw, .inr ⟨rfl, hparent⟩⟩
        · exact ⟨.inl hw, .inl ⟨earlier, hearlier, hhash, hparent⟩⟩
      · rintro ⟨hw, ⟨earlier, hearlier, hhash, hparent⟩ | ⟨rfl, hparent⟩⟩
        · refine .inr ⟨hw.resolve_right ?_, earlier, hearlier, hhash, hparent⟩
          -- the last block is no parent of an earlier one
          rintro rfl
          exact ((List.pairwise_append.mp h.2).2.2 earlier hearlier arrival (by simp)).2 hparent
        · exact .inl ⟨rfl, hparent, hw⟩

/-- Only edges and objects of a graph matter. -/
theorem stableFrom_congr {dag dag' : PendingDag} (hedge : ∀ v w, dag.Edge v w ↔ dag'.Edge v w)
    (hread : ∀ v, dag.readObj v = dag'.readObj v) {v u : Hash} {n : Nat} :
    StableFrom dag v n u ↔ StableFrom dag' v n u := by
  refine exists_congr fun path => and_congr ?_ ?_
  · constructor
    · intro hwalk
      induction hwalk with
      | here v => exact .here v
      | step hstep _ ih => exact .step ((hedge _ _).mp hstep) ih
    · intro hwalk
      induction hwalk with
      | here v => exact .here v
      | step hstep _ ih => exact .step ((hedge _ _).mpr hstep) ih
  · rw [witnessesOf_congr fun v _ => congrArg (Option.map (·.blockHeader)) (hread v)]

theorem hashesOf_perm {arrivals arrivals' : List Arrival} (hperm : arrivals.Perm arrivals')
    {v : Hash} : v ∈ hashesOf F arrivals ↔ v ∈ hashesOf F arrivals' :=
  (hperm.map _).mem_iff

theorem edge_graphOf_perm {arrivals arrivals' : List Arrival} (hperm : arrivals.Perm arrivals')
    (h : ParentsFirst F arrivals) (h' : ParentsFirst F arrivals') {v w : Hash} :
    (graphOf F arrivals).Edge v w ↔ (graphOf F arrivals').Edge v w := by
  simp only [edge_graphOf h, edge_graphOf h', hashesOf_perm hperm, hperm.mem_iff]

theorem readObj_graphOf_perm {arrivals arrivals' : List Arrival} (hperm : arrivals.Perm arrivals')
    (h : ParentsFirst F arrivals) (h' : ParentsFirst F arrivals') (v : Hash) :
    (graphOf F arrivals).readObj v = (graphOf F arrivals').readObj v := by
  apply Option.ext
  intro b
  simp only [readObj_graphOf h, readObj_graphOf h', hperm.mem_iff]

theorem stableIn_perm {arrivals arrivals' : List Arrival} (hperm : arrivals.Perm arrivals')
    (h : ParentsFirst F arrivals) (h' : ParentsFirst F arrivals') {u : Hash} :
    StableIn F nConciliumCount arrivals u ↔ StableIn F nConciliumCount arrivals' u := by
  refine exists_congr fun v => ?_
  rw [mem_graphOf, mem_graphOf, hashesOf_perm hperm,
    stableFrom_congr (fun v w => edge_graphOf_perm hperm h h') (readObj_graphOf_perm hperm h h')]

theorem progress_empty (F : Factory) (nConciliumCount : Nat) (patches : List PatchDB)
    (topStable : List Hash) : Progress F nConciliumCount patches [] [] ⟨Dag.empty, topStable⟩ where
  stable u := iff_of_false List.not_mem_nil fun h => Dag.notMem_empty u h.mem
  mem v := iff_of_false (Dag.notMem_empty v) fun h => Dag.notMem_empty v h.1
  edge v _ := iff_of_false (fun h => Dag.notMem_empty v h.mem_left)
    fun h => Dag.notMem_empty v h.2.1
  header v hv := absurd hv (Dag.notMem_empty v)
  covered v b hb := absurd (Dag.mem_iff.mpr ⟨b, hb⟩) (Dag.notMem_empty v)

/-- A block without parents among the others and without coins. -/
def loneArrival (conciliumId : Nat) : Arrival where
  block :=
    { header := { parentHashes := [1], merkleRoot := 0, conciliumId, timestamp := 0, height := 1 }
      txns := [{ payload := { conciliumId, ins := [⟨0, 0⟩], outs := [] } }] }
  patch := PatchDB.empty

end CilCore.PendingBlocksManager
