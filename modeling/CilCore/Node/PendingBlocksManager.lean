import CilCore.Lib.Dag
import CilCore.Storage.Patch
import CilCore.Structures.Block

/-!
# Pending blocks

`node/pendingBlocksManager.js`: the graph of executed blocks that are not stable
yet, each with its patch. Blocks that enough conciliums have built upon become
stable and leave the graph, together with the branches in conflict with them.
-/

namespace CilCore

/-- The object that `addBlock` saves for a block. -/
structure PendingBlock where
  patch : PatchDB
  blockHeader : BlockHeader
  bIsEmpty : Bool
deriving DecidableEq

/-- The graph of pending blocks: edges lead from a block to its pending parents. -/
abbrev PendingDag := Dag Hash PendingBlock

/-- The enumerations of the `dagjs` package. The order in which it lists tips and
paths is left open. -/
structure Dagjs where
  tips : PendingDag → List Hash
  findPathsDown : PendingDag → Hash → List (List Hash)
  mem_tips : ∀ dag v, v ∈ tips dag ↔ dag.IsTip v
  mem_findPathsDown : ∀ dag v path, dag.Acyclic → v ∈ dag →
    (path ∈ findPathsDown dag v ↔ dag.PathDown v path)

/-- Tips and paths in the order in which vertices and edges are kept. -/
def Dagjs.sample : Dagjs where
  tips dag := dag.objs.keys.filter fun v => dag.edges.all fun edge => edge.2 ≠ v
  findPathsDown dag v := dag.pathsDown (dag.objs.keys.length + 1) v
  mem_tips dag v := by
    simp only [List.mem_filter, List.all_eq_true, decide_eq_true_eq]
    refine and_congr Iff.rfl ⟨fun h w hw => h _ hw rfl, fun h edge hedge heq => ?_⟩
    exact h edge.1 (show (edge.1, v) ∈ dag.edges by rwa [← heq])
  mem_findPathsDown dag v path hdag _ := Dag.mem_pathsDown hdag

/-- The vertices that lie on a path down from a vertex are those below it. -/
theorem Dagjs.mem_flatten_findPathsDown (J : Dagjs) {dag : PendingDag} (hdag : dag.Acyclic)
    {v w : Hash} (hv : v ∈ dag) : w ∈ (J.findPathsDown dag v).flatten ↔ dag.Reaches v w := by
  rw [List.mem_flatten]
  constructor
  · rintro ⟨path, hpath, hw⟩
    exact ((J.mem_findPathsDown dag v path hdag hv).mp hpath).mem hw
  · intro h
    obtain ⟨path, hpath, hw⟩ := hdag.exists_pathDown_mem h
    exact ⟨path, (J.mem_findPathsDown dag v path hdag hv).mpr hpath, hw⟩

/-- `PendingBlocksManager`. -/
structure PendingBlocksManager where
  dag : PendingDag
  topStable : List Hash

/-- What `checkFinality` returns when it finds new stable blocks. -/
structure FinalityResult where
  patchToApply : PatchDB
  setStableBlocks : List Hash
  setBlocksToRollback : List Hash
  arrTopStable : List Hash

namespace PendingBlocksManager

/-- How many conciliums should include a block to make it stable. -/
def majority (nConcilium : Nat) : Nat := nConcilium / 2 + 1

section

variable (F : Factory) (J : Dagjs)

/-- `hasBlock`. -/
def hasBlock (pbm : PendingBlocksManager) (hash : Hash) : Bool := hash ∈ pbm.dag

/-- `addBlock`. -/
def addBlock (block : Block) (patchState : PatchDB) (pbm : PendingBlocksManager) :
    PendingBlocksManager :=
  { pbm with
    dag := pbm.dag.addVertex (block.hash F) block.parentHashes
      ⟨patchState, block.hashedHeader F, block.isEmpty⟩ }

/-- The pending blocks after one was added: that one, and those before. -/
theorem readObj_addBlock {block : Block} {patchState : PatchDB} {pbm : PendingBlocksManager}
    {v : Hash} {b : PendingBlock} (h : (pbm.addBlock F block patchState).dag.readObj v = some b) :
    v = block.hash F ∧ b = ⟨patchState, block.hashedHeader F, block.isEmpty⟩ ∨
      v ≠ block.hash F ∧ pbm.dag.readObj v = some b := by
  rw [addBlock, Dag.readObj_addVertex] at h
  split at h
  next heq =>
    cases h
    exact .inl ⟨heq, rfl⟩
  next hne => exact .inr ⟨hne, h⟩

/-- `removeBlock`. -/
def removeBlock (hash : Hash) (pbm : PendingBlocksManager) : PendingBlocksManager :=
  { pbm with dag := pbm.dag.removeVertex hash }

/-- `getAllHashes`. -/
def getAllHashes (pbm : PendingBlocksManager) : List Hash := pbm.dag.objs.keys

/-! ### Merging patches -/

/-- The loop of `mergePatches`, when it has to throw: a hash without a patch is that
of a block that is already stable. -/
def mergePatchesFrom (dag : PendingDag) : List Hash → PatchDB → Except String PatchDB
  | [], patchMerged => .ok patchMerged
  | vertex :: rest, patchMerged =>
      match dag.readObj vertex with
      | none => mergePatchesFrom dag rest patchMerged
      | some block =>
          match block.patch.merge F patchMerged with
          | .error error => .error error
          | .ok patchMerged => mergePatchesFrom dag rest patchMerged

/-- `mergePatches(arrHashes)`. -/
def mergePatches (pbm : PendingBlocksManager) (arrHashes : List Hash) : Except String PatchDB :=
  mergePatchesFrom F pbm.dag arrHashes PatchDB.empty

/-- The loop of `mergePatches`, when it collects the hashes that could be merged. -/
def collectPatchesFrom (dag : PendingDag) : List Hash → List Hash → PatchDB → List Hash × PatchDB
  | [], arrMerged, patchMerged => (arrMerged, patchMerged)
  | vertex :: rest, arrMerged, patchMerged =>
      match dag.readObj vertex with
      | none => collectPatchesFrom dag rest arrMerged patchMerged
      | some block =>
          match block.patch.merge F patchMerged with
          | .error _ => collectPatchesFrom dag rest arrMerged patchMerged
          | .ok patchMerged => collectPatchesFrom dag rest (arrMerged ++ [vertex]) patchMerged

/-! ### Best parents -/

/-- The conciliums that made the blocks of a path. -/
def witnessesOf (dag : PendingDag) (path : List Hash) : Finset Nat :=
  (path.filterMap fun vertex => (dag.readObj vertex).map (·.blockHeader.conciliumId)).toFinset

/-- `getVertexWitnessBelow`. -/
def getVertexWitnessBelow (pbm : PendingBlocksManager) (vertex : Hash) : Nat :=
  (J.findPathsDown pbm.dag vertex).foldl
    (fun maxNum path => max maxNum (witnessesOf pbm.dag path).card) 0

/-- `getLongestPathLength` of the paths down from a vertex. -/
def longestPathLength (pbm : PendingBlocksManager) (vertex : Hash) : Nat :=
  (J.findPathsDown pbm.dag vertex).foldl (fun maxNum path => max maxNum path.length) 0

/-- `_findByConciliumId`. -/
def findByConciliumId (pbm : PendingBlocksManager) (arrHashes : List Hash)
    (nConciliumId : Option Nat) : Option Hash :=
  nConciliumId.bind fun nConciliumId => arrHashes.find? fun vertex =>
    (pbm.dag.readObj vertex).any fun block => block.blockHeader.conciliumId = nConciliumId

/-- The comparison of `_sortTips`: the concilium's own tip comes first, then the tips
that more witnesses have seen, then those with longer paths. -/
def compareTips (pbm : PendingBlocksManager) (prevBlockIndex : Option Nat)
    (tip1 tip2 : Hash × Nat) : Int :=
  if some tip1.2 = prevBlockIndex then -1
  else if some tip2.2 = prevBlockIndex then 1
  else
    let diff : Int := (pbm.getVertexWitnessBelow J tip2.1 : Int) - pbm.getVertexWitnessBelow J tip1.1
    if diff = 0 then (pbm.longestPathLength J tip2.1 : Int) - pbm.longestPathLength J tip1.1
    else diff

/-- `_sortTips`, which returns the tips themselves. -/
def sortTips (pbm : PendingBlocksManager) (arrTips : List Hash) (nConciliumId : Option Nat) :
    List Hash :=
  let prevBlockIndex := (pbm.findByConciliumId arrTips nConciliumId).bind fun prevBlockHash =>
    arrTips.findIdx? (· = prevBlockHash)
  (arrTips.zipIdx.mergeSort fun tip1 tip2 =>
    decide (pbm.compareTips J prevBlockIndex tip1 tip2 ≤ 0)).map (·.1)

theorem mem_sortTips {pbm : PendingBlocksManager} {arrTips : List Hash}
    {nConciliumId : Option Nat} {tip : Hash} :
    tip ∈ pbm.sortTips J arrTips nConciliumId ↔ tip ∈ arrTips := by
  simp only [sortTips, List.mem_map, List.mem_mergeSort]
  constructor
  · rintro ⟨entry, hentry, rfl⟩
    exact List.fst_mem_of_mem_zipIdx hentry
  · intro h
    obtain ⟨i, hi, rfl⟩ := List.getElem_of_mem h
    exact ⟨(arrTips[i], i), by simp [List.mem_zipIdx_iff_getElem?, hi], rfl⟩

/-- The hashes that are used when there is no pending block. -/
def lastResort (pbm : PendingBlocksManager) : List Hash :=
  if pbm.topStable = [] then [F.constants.GENESIS_BLOCK] else pbm.topStable

/-- `getBestParents`. -/
def getBestParents (pbm : PendingBlocksManager) (nConciliumId : Option Nat) :
    List Hash × PatchDB :=
  let arrTips := if J.tips pbm.dag = [] then pbm.lastResort F else J.tips pbm.dag
  let r := collectPatchesFrom F pbm.dag (pbm.sortTips J arrTips nConciliumId) [] PatchDB.empty
  (if r.1 = [] then pbm.lastResort F else r.1, r.2)

/-! ### Finality -/

/-- The loop of `_findTopStableForPath`, with the conciliums met so far. -/
def findTopStableFrom (dag : PendingDag) (nMajority : Nat) : Finset Nat → List Hash → Option Hash
  | _, [] => none
  | setConciliumIds, vertex :: path =>
      match dag.readObj vertex with
      | none => findTopStableFrom dag nMajority setConciliumIds path
      | some block =>
          let setConciliumIds := insert block.blockHeader.conciliumId setConciliumIds
          if nMajority ≤ setConciliumIds.card then some vertex
          else findTopStableFrom dag nMajority setConciliumIds path

/-- `_findTopStableForPath`. -/
def findTopStableForPath (dag : PendingDag) (path : List Hash) (nMajority : Nat) : Option Hash :=
  findTopStableFrom dag nMajority ∅ path

/-- `_findTopStable`. -/
def findTopStable (pbm : PendingBlocksManager) (newVertex : Hash) (nMajority : Nat) : List Hash :=
  (J.findPathsDown pbm.dag newVertex).filterMap fun path =>
    findTopStableForPath pbm.dag path nMajority

/-- `_findAlsoStable`. -/
def findAlsoStable (pbm : PendingBlocksManager) (arrTopStable : List Hash) : List Hash :=
  (arrTopStable.flatMap fun vertexTopStable =>
    (J.findPathsDown pbm.dag vertexTopStable).flatten).dedup

/-- The patch of a vertex cannot be merged with the patch to apply. -/
def conflicting (dag : PendingDag) (patchToApply : PatchDB) (tip : Hash) : Bool :=
  match dag.readObj tip with
  | none => false
  | some block =>
      match block.patch.merge F patchToApply with
      | .error _ => true
      | .ok _ => false

/-- The blocks that `_removeConflictingBranches` removes. -/
def conflictingBranches (dag : PendingDag) (strHashToExclude : Hash) (patchToApply : PatchDB) :
    List Hash :=
  ((J.tips dag).flatMap fun tip =>
    if tip ≠ strHashToExclude ∧ conflicting F dag patchToApply tip then
      (J.findPathsDown dag tip).flatten
    else []).dedup

/-- What `checkFinality` returns for top stable blocks whose patches were merged. -/
def finalityResult (pbm : PendingBlocksManager) (strHashNewVertex : Hash)
    (arrTopStable : List Hash) (patchToApply : PatchDB) : FinalityResult :=
  let setStableBlocks := pbm.findAlsoStable J arrTopStable
  { patchToApply
    setStableBlocks
    setBlocksToRollback := conflictingBranches F J (pbm.dag.removeVertices setStableBlocks)
      strHashNewVertex patchToApply
    arrTopStable }

/-- The graph that `checkFinality` leaves: stable blocks and conflicting branches are
removed, and the other patches are purged. -/
def settle (r : FinalityResult) (pbm : PendingBlocksManager) : PendingBlocksManager where
  dag := ((pbm.dag.removeVertices r.setStableBlocks).removeVertices
    r.setBlocksToRollback).mapObjs fun block =>
      { block with patch := block.patch.purge F r.patchToApply }
  topStable := r.arrTopStable

/-- `checkFinality`: `none` if no new stable block is found. -/
def checkFinality (pbm : PendingBlocksManager) (strHashNewVertex : Hash) (nConciliumCount : Nat) :
    Except String (Option FinalityResult × PendingBlocksManager) :=
  let arrTopStable := pbm.findTopStable J strHashNewVertex (majority nConciliumCount)
  if arrTopStable = [] then .ok (none, pbm)
  else
    match pbm.mergePatches F arrTopStable with
    | .error error => .error error
    | .ok patchToApply =>
        let r := pbm.finalityResult F J strHashNewVertex arrTopStable patchToApply
        .ok (some r, pbm.settle F r)

end

end PendingBlocksManager

end CilCore
