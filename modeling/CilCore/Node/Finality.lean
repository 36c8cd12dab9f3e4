import CilCore.Node.PendingBlocksManager

/-!
# Finality and roll-back

What `checkFinality` does to the graph of pending blocks. The new stable blocks are
closed downwards, so they leave the tips of the other branches as they were. The
branches that are rolled back are closed downwards too, while only the blocks above
a conflict should go: a branch shares its lower blocks with others.
-/

namespace CilCore.PendingBlocksManager

variable {F : Factory} {J : Dagjs} {pbm : PendingBlocksManager}

/-! ### Stable blocks -/

theorem mem_of_findTopStableFrom {dag : PendingDag} {nMajority : Nat} {vertex : Hash} :
    ∀ {path : List Hash} {setConciliumIds : Finset Nat},
      findTopStableFrom dag nMajority setConciliumIds path = some vertex → vertex ∈ path := by
  intro path
  induction path with
  | nil =>
      intro _ h
      cases h
  | cons v path ih =>
      intro setConciliumIds h
      rw [findTopStableFrom] at h
      split at h
      next => exact List.mem_cons_of_mem _ (ih h)
      next =>
        dsimp only at h
        split at h
        next =>
          injection h with h
          exact h ▸ List.mem_cons_self
        next => exact List.mem_cons_of_mem _ (ih h)

/-- Top stable blocks lie below the new block. -/
theorem reaches_of_mem_findTopStable (hdag : pbm.dag.Acyclic) {newVertex vertex : Hash}
    (hnew : newVertex ∈ pbm.dag) {nMajority : Nat}
    (h : vertex ∈ pbm.findTopStable J newVertex nMajority) : pbm.dag.Reaches newVertex vertex := by
  obtain ⟨path, hpath, hvertex⟩ := List.mem_filterMap.mp h
  exact ((J.mem_findPathsDown _ _ _ hdag hnew).mp hpath).mem (mem_of_findTopStableFrom hvertex)

theorem mem_findAlsoStable (hdag : pbm.dag.Acyclic) {arrTopStable : List Hash}
    (htop : ∀ vertex ∈ arrTopStable, vertex ∈ pbm.dag) {w : Hash} :
    w ∈ pbm.findAlsoStable J arrTopStable ↔ ∃ vertex ∈ arrTopStable, pbm.dag.Reaches vertex w := by
  rw [findAlsoStable, List.mem_dedup, List.mem_flatMap]
  refine exists_congr fun vertex => and_congr_right fun hvertex => ?_
  exact J.mem_flatten_findPathsDown hdag (htop vertex hvertex)

/-- What lies below a stable block becomes stable with it. -/
theorem downClosed_findAlsoStable (hdag : pbm.dag.Acyclic) {arrTopStable : List Hash}
    (htop : ∀ vertex ∈ arrTopStable, vertex ∈ pbm.dag) :
    pbm.dag.DownClosed (pbm.findAlsoStable J arrTopStable) := by
  intro v hv w hedge
  rw [mem_findAlsoStable hdag htop] at hv ⊢
  obtain ⟨vertex, hvertex, hreach⟩ := hv
  exact ⟨vertex, hvertex, hreach.tail hedge⟩

/-! ### Conflicting branches -/

/-- A tip whose branch is rolled back. -/
def LosingTip (F : Factory) (dag : PendingDag) (newVertex : Hash) (patchToApply : PatchDB)
    (tip : Hash) : Prop :=
  dag.IsTip tip ∧ tip ≠ newVertex ∧ conflicting F dag patchToApply tip = true

theorem mem_conflictingBranches {dag : PendingDag} (hdag : dag.Acyclic) {newVertex w : Hash}
    {patchToApply : PatchDB} :
    w ∈ conflictingBranches F J dag newVertex patchToApply ↔
      ∃ tip, LosingTip F dag newVertex patchToApply tip ∧ dag.Reaches tip w := by
  rw [conflictingBranches, List.mem_dedup, List.mem_flatMap]
  constructor
  · rintro ⟨tip, htip, hw⟩
    rw [J.mem_tips] at htip
    split at hw
    next hloses => exact ⟨tip, ⟨htip, hloses⟩, (J.mem_flatten_findPathsDown hdag htip.1).mp hw⟩
    next => cases hw
  · rintro ⟨tip, ⟨htip, hloses⟩, hreach⟩
    refine ⟨tip, (J.mem_tips dag tip).mpr htip, ?_⟩
    rw [if_pos hloses]
    exact (J.mem_flatten_findPathsDown hdag htip.1).mpr hreach

/-- Nothing that remains lies above a branch that is rolled back. -/
def NoSharedBranch (F : Factory) (dag : PendingDag) (newVertex : Hash) (patchToApply : PatchDB) :
    Prop :=
  ∀ tip, LosingTip F dag newVertex patchToApply tip → ∀ v, dag.Reaches tip v →
    ∀ tip', dag.IsTip tip' → dag.Reaches tip' v → LosingTip F dag newVertex patchToApply tip'

/-- The branches that are rolled back are closed upwards exactly if they share no block
with another branch. -/
theorem noSharedBranch_iff {dag : PendingDag} (hdag : dag.Acyclic) {newVertex : Hash}
    {patchToApply : PatchDB} :
    NoSharedBranch F dag newVertex patchToApply ↔
      ∀ v ∈ conflictingBranches F J dag newVertex patchToApply, ∀ u, dag.Reaches u v →
        u ∈ conflictingBranches F J dag newVertex patchToApply := by
  simp only [mem_conflictingBranches hdag]
  constructor
  · rintro h v ⟨tip, htip, htipv⟩ u huv
    -- the tip above the descendant is above the block that goes, so it loses as well
    have hu : u ∈ dag := huv.mem_left (htipv.mem htip.1.1)
    obtain ⟨tip', htip', hreach⟩ := hdag.exists_tip hu
    exact ⟨tip', h tip htip v htipv tip' htip' (hreach.trans huv), hreach⟩
  · intro h tip htip v htipv tip' htip' htip'v
    obtain ⟨loser, hloser, hreach⟩ := h v ⟨tip, htip, htipv⟩ tip' htip'v
    exact htip'.eq_of_reaches hreach ▸ hloser

/-! ### The graph that is left -/

/-- The shape of a result of `checkFinality`. -/
theorem checkFinality_ok {newVertex : Hash} {nConciliumCount : Nat} {r : FinalityResult}
    {after : PendingBlocksManager}
    (h : pbm.checkFinality F J newVertex nConciliumCount = .ok (some r, after)) :
    r.arrTopStable = pbm.findTopStable J newVertex (majority nConciliumCount) ∧
      pbm.mergePatches F r.arrTopStable = .ok r.patchToApply ∧
      r = pbm.finalityResult F J newVertex r.arrTopStable r.patchToApply ∧
      after = pbm.settle F r := by
  unfold checkFinality at h
  dsimp only at h
  split at h
  next => cases h
  next =>
    split at h
    next => cases h
    next patchToApply hmerge =>
      cases h
      exact ⟨rfl, hmerge, rfl, rfl⟩

theorem mem_settle {r : FinalityResult} {v : Hash} :
    v ∈ (pbm.settle F r).dag ↔
      v ∈ pbm.dag ∧ v ∉ r.setStableBlocks ∧ v ∉ r.setBlocksToRollback := by
  rw [settle, Dag.mem_mapObjs, Dag.mem_removeVertices, Dag.mem_removeVertices, and_assoc]

/-- What becomes stable was pending. -/
theorem mem_of_checkFinality (hdag : pbm.dag.Acyclic) {newVertex : Hash} (hnew : newVertex ∈ pbm.dag)
    {nConciliumCount : Nat} {r : FinalityResult} {after : PendingBlocksManager}
    (h : pbm.checkFinality F J newVertex nConciliumCount = .ok (some r, after)) :
    (∀ vertex ∈ r.arrTopStable, vertex ∈ pbm.dag) ∧ ∀ vertex ∈ r.setStableBlocks, vertex ∈ pbm.dag := by
  obtain ⟨htop, -, hr, -⟩ := checkFinality_ok h
  have hbelow : ∀ vertex ∈ r.arrTopStable, vertex ∈ pbm.dag := by
    intro vertex hvertex
    rw [htop] at hvertex
    exact (reaches_of_mem_findTopStable hdag hnew hvertex).mem hnew
  have hset : r.setStableBlocks = pbm.findAlsoStable J r.arrTopStable := by
    rw [hr]
    rfl
  refine ⟨hbelow, fun hash hstable => ?_⟩
  rw [hset, mem_findAlsoStable hdag hbelow] at hstable
  obtain ⟨vertex, hvertex, hreach⟩ := hstable
  exact hreach.mem (hbelow vertex hvertex)

/-- The branches that are rolled back lie in what the stable blocks leave. -/
theorem setBlocksToRollback_eq {newVertex : Hash} {nConciliumCount : Nat} {r : FinalityResult}
    {after : PendingBlocksManager}
    (h : pbm.checkFinality F J newVertex nConciliumCount = .ok (some r, after)) :
    r.setBlocksToRollback = conflictingBranches F J (pbm.dag.removeVertices r.setStableBlocks)
      newVertex r.patchToApply := by
  obtain ⟨-, -, hr, -⟩ := checkFinality_ok h
  rw [show r.setStableBlocks = pbm.findAlsoStable J r.arrTopStable by rw [hr]; rfl]
  conv_lhs => rw [hr]
  rfl

/-- Blocks that are rolled back were pending, and are not stable. -/
theorem mem_of_rollback (hdag : pbm.dag.Acyclic) {newVertex : Hash} {nConciliumCount : Nat}
    {r : FinalityResult} {after : PendingBlocksManager}
    (h : pbm.checkFinality F J newVertex nConciliumCount = .ok (some r, after)) {v : Hash}
    (hv : v ∈ r.setBlocksToRollback) : v ∈ pbm.dag ∧ v ∉ r.setStableBlocks := by
  rw [setBlocksToRollback_eq h, mem_conflictingBranches (hdag.removeVertices _)] at hv
  obtain ⟨tip, htip, hreach⟩ := hv
  exact Dag.mem_removeVertices.mp (hreach.mem htip.1.1)

/-- The blocks that are removed are closed downwards, so what remains is related as before. -/
theorem reaches_settle (hdag : pbm.dag.Acyclic) {newVertex : Hash} (hnew : newVertex ∈ pbm.dag)
    {nConciliumCount : Nat} {r : FinalityResult} {after : PendingBlocksManager}
    (h : pbm.checkFinality F J newVertex nConciliumCount = .ok (some r, after)) {v w : Hash}
    (hw : w ∈ after.dag) : after.dag.Reaches v w ↔ pbm.dag.Reaches v w := by
  obtain ⟨htop, -, hr, rfl⟩ := checkFinality_ok h
  obtain ⟨-, hstable, hrollback⟩ := mem_settle.mp hw
  have hclosed : pbm.dag.DownClosed r.setStableBlocks := by
    have hset : r.setStableBlocks = pbm.findAlsoStable J r.arrTopStable := by rw [hr]; rfl
    rw [hset]
    refine downClosed_findAlsoStable hdag fun vertex hvertex => ?_
    rw [htop] at hvertex
    exact (reaches_of_mem_findTopStable hdag hnew hvertex).mem hnew
  have hclosed' : (pbm.dag.removeVertices r.setStableBlocks).DownClosed r.setBlocksToRollback := by
    intro u hu x hedge
    rw [setBlocksToRollback_eq h, mem_conflictingBranches (hdag.removeVertices _)] at hu ⊢
    obtain ⟨tip, htip, hreach⟩ := hu
    exact ⟨tip, htip, hreach.tail hedge⟩
  rw [← hclosed.reaches_removeVertices hstable, ← hclosed'.reaches_removeVertices hrollback]
  have hedges : (pbm.settle F r).dag.Edge = ((pbm.dag.removeVertices
      r.setStableBlocks).removeVertices r.setBlocksToRollback).Edge := by
    funext u x
    exact propext Dag.edge_mapObjs
  rw [Dag.Reaches, Dag.Reaches, hedges]

/-- One graph is part of another, with some patches purged. -/
structure PartOf (F : Factory) (dag' dag : PendingDag) : Prop where
  edge : ∀ v w, dag'.Edge v w → dag.Edge v w
  readObj : ∀ v b', dag'.readObj v = some b' → ∃ b, dag.readObj v = some b ∧
    (b' = b ∨ ∃ patch, b' = { b with patch := b.patch.purge F patch })

theorem PartOf.refl (F : Factory) (dag : PendingDag) : PartOf F dag dag :=
  ⟨fun _ _ h => h, fun _ b' h => ⟨b', h, .inl rfl⟩⟩

theorem PartOf.reaches {dag' dag : PendingDag} (hpart : PartOf F dag' dag) {v w : Hash}
    (h : dag'.Reaches v w) : dag.Reaches v w :=
  Relation.ReflTransGen.mono hpart.edge v w h

/-- The blocks that remain are purged. -/
theorem readObj_settle {r : FinalityResult} {v : Hash} {b' : PendingBlock}
    (h : (pbm.settle F r).dag.readObj v = some b') :
    ∃ b, pbm.dag.readObj v = some b ∧
      b' = { b with patch := b.patch.purge F r.patchToApply } := by
  rw [settle, Dag.readObj_mapObjs, Option.map_eq_some_iff] at h
  obtain ⟨b, hb, rfl⟩ := h
  rw [Dag.readObj_removeVertices, Dag.readObj_removeVertices] at hb
  refine ⟨b, ?_, rfl⟩
  split at hb
  next => cases hb
  next =>
    split at hb
    next => cases hb
    next => exact hb

theorem partOf_settle (F : Factory) (pbm : PendingBlocksManager) (r : FinalityResult) :
    PartOf F (pbm.settle F r).dag pbm.dag where
  edge v w h :=
    (Dag.edge_removeVertices.mp (Dag.edge_removeVertices.mp (Dag.edge_mapObjs.mp h)).1).1
  readObj v b' h := by
    obtain ⟨b, hb, rfl⟩ := readObj_settle h
    exact ⟨b, hb, .inr ⟨r.patchToApply, rfl⟩⟩

/-- Without new stable blocks the graph stays as it is. -/
theorem checkFinality_none {newVertex : Hash} {nConciliumCount : Nat}
    {after : PendingBlocksManager}
    (h : pbm.checkFinality F J newVertex nConciliumCount = .ok (none, after)) : after = pbm := by
  unfold checkFinality at h
  dsimp only at h
  split at h
  next =>
    cases h
    rfl
  next =>
    split at h
    next => cases h
    next => cases h

/-- `checkFinality` only ever removes blocks and purges patches. -/
theorem partOf_checkFinality {newVertex : Hash} {nConciliumCount : Nat}
    {result : Option FinalityResult} {after : PendingBlocksManager}
    (h : pbm.checkFinality F J newVertex nConciliumCount = .ok (result, after)) :
    PartOf F after.dag pbm.dag := by
  cases result with
  | some r =>
      obtain ⟨-, -, -, rfl⟩ := checkFinality_ok h
      exact partOf_settle F pbm r
  | none =>
      rw [checkFinality_none h]
      exact .refl F _

/-- Roll-back leaves a graph that is closed downwards, closed upwards where blocks were
rolled back, and holds the new block with what it is built on. -/
structure KeepsWinner (before : PendingDag) (newVertex : Hash) (r : FinalityResult)
    (after : PendingDag) : Prop where
  parents : ∀ v ∈ after, ∀ parent, before.Edge v parent →
    parent ∈ after ∨ parent ∈ r.setStableBlocks
  descendants : ∀ v ∈ r.setBlocksToRollback, ∀ u, before.Reaches u v → u ∈ r.setBlocksToRollback
  winner : ∀ v, before.Reaches newVertex v → v ∉ r.setBlocksToRollback

/-- The blocks that stay pending when only the new stable blocks are removed. -/
def unsettled (J : Dagjs) (pbm : PendingBlocksManager) (newVertex : Hash)
    (nConciliumCount : Nat) : PendingDag :=
  pbm.dag.removeVertices
    (pbm.findAlsoStable J (pbm.findTopStable J newVertex (majority nConciliumCount)))

/-- Branches in conflict with the merged patches of the blocks that the new block makes
stable share no pending block with other branches. -/
def BranchesDisjoint (F : Factory) (J : Dagjs) (pbm : PendingBlocksManager) (newVertex : Hash)
    (nConciliumCount : Nat) : Prop :=
  ∀ patchToApply,
    pbm.mergePatches F (pbm.findTopStable J newVertex (majority nConciliumCount)) =
      .ok patchToApply →
    NoSharedBranch F (pbm.unsettled J newVertex nConciliumCount) newVertex patchToApply

/-- **Roll-back spares the winner exactly when branches are disjoint.** The graph stays
closed and the new block keeps its ancestors if and only if no branch in conflict with
the stable patch shares a block with a branch that is not. -/
theorem checkFinality_keepsWinner_iff (F : Factory) (J : Dagjs) (pbm : PendingBlocksManager)
    (hdag : pbm.dag.Acyclic) (newVertex : Hash) (hnew : pbm.dag.IsTip newVertex)
    (nConciliumCount : Nat) (r : FinalityResult) (after : PendingBlocksManager)
    (h : pbm.checkFinality F J newVertex nConciliumCount = .ok (some r, after)) :
    KeepsWinner pbm.dag newVertex r after.dag ↔
      BranchesDisjoint F J pbm newVertex nConciliumCount := by
  obtain ⟨htop, hmerge, hr, rfl⟩ := checkFinality_ok h
  have hbelow : ∀ vertex ∈ r.arrTopStable, vertex ∈ pbm.dag := by
    intro vertex hvertex
    rw [htop] at hvertex
    exact (reaches_of_mem_findTopStable hdag hnew.1 hvertex).mem hnew.1
  have hstable : r.setStableBlocks = pbm.findAlsoStable J r.arrTopStable := by rw [hr]; rfl
  have hclosed : pbm.dag.DownClosed r.setStableBlocks := by
    rw [hstable]
    exact downClosed_findAlsoStable hdag hbelow
  have hrest : pbm.unsettled J newVertex nConciliumCount =
      pbm.dag.removeVertices r.setStableBlocks := by rw [hstable, htop]; rfl
  have hrollback := setBlocksToRollback_eq h
  have hacyclic : (pbm.dag.removeVertices r.setStableBlocks).Acyclic := hdag.removeVertices _
  have hnotStable {v : Hash} (hv : v ∈ r.setBlocksToRollback) :
      v ∈ pbm.dag ∧ v ∉ r.setStableBlocks := mem_of_rollback hdag h hv
  -- so what is above them is the same with and without the stable blocks
  have hreaches {u v : Hash} (hv : v ∈ r.setBlocksToRollback) :
      (pbm.dag.removeVertices r.setStableBlocks).Reaches u v ↔ pbm.dag.Reaches u v :=
    hclosed.reaches_removeVertices (hnotStable hv).2
  have hupward : BranchesDisjoint F J pbm newVertex nConciliumCount ↔
      ∀ v ∈ r.setBlocksToRollback, ∀ u, pbm.dag.Reaches u v → u ∈ r.setBlocksToRollback := by
    rw [BranchesDisjoint, ← htop, hmerge]
    simp only [Except.ok.injEq, forall_eq']
    rw [hrest, noSharedBranch_iff hacyclic (J := J), ← hrollback]
    refine forall_congr' fun v => forall_congr' fun hv => forall_congr' fun u => ?_
    rw [hreaches hv]
  rw [hupward]
  constructor
  · exact fun hkeeps => hkeeps.descendants
  · intro hup
    refine ⟨fun v hv parent hedge => ?_, hup, fun v hreach hv => ?_⟩
    · rw [mem_settle] at hv
      by_cases hstays : parent ∈ r.setStableBlocks
      · exact .inr hstays
      · refine .inl (mem_settle.mpr ⟨hedge.mem_right, hstays, fun hgone => hv.2.2 ?_⟩)
        exact hup parent hgone v (.single hedge)
    · -- the new block is a tip that is excluded from losing
      have hnewGone := hup v hv newVertex hreach
      have hnewTip : (pbm.dag.removeVertices r.setStableBlocks).IsTip newVertex :=
        hclosed.isTip_removeVertices.mpr ⟨hnew, (hnotStable hnewGone).2⟩
      rw [hrollback, mem_conflictingBranches hacyclic] at hnewGone
      obtain ⟨tip, htip, htipNew⟩ := hnewGone
      exact htip.2.1 (hnewTip.eq_of_reaches htipNew)

/-! ### A branch that shares a block with the winner -/

/-- A patch in which a transaction spends the output 0 of the transaction 100. -/
def spendingPatch (txHash : Hash) : PatchDB :=
  (PatchDB.empty.setUtxo 100 ∅).setSpentOutput 100 0 txHash

/-- Add a block with an empty body to a graph. -/
def addHeader (hash : Hash) (parentHashes : List Hash) (conciliumId : Nat) (patch : PatchDB)
    (dag : PendingDag) : PendingDag :=
  dag.addVertex hash parentHashes
    ⟨patch, { parentHashes, merkleRoot := 0, conciliumId, timestamp := 0, height := 1 }, true⟩

/-- Block 11 is built upon by 12, which spends an output in transaction 7, and by 16,
which joins it with the branch 13, 14, 15, where transaction 8 spends that output. -/
def sharedBranch : PendingBlocksManager where
  dag := addHeader 16 [15, 11] 6 (spendingPatch 8) <|
    addHeader 15 [14] 5 (spendingPatch 8) <|
    addHeader 14 [13] 4 (spendingPatch 8) <|
    addHeader 13 [1] 3 (spendingPatch 8) <|
    addHeader 12 [11] 2 (spendingPatch 7) <|
    addHeader 11 [1] 1 PatchDB.empty Dag.empty
  topStable := [1]

theorem acyclic_sharedBranch : sharedBranch.dag.Acyclic := by
  have hstep {dag : PendingDag} (hdag : dag.Acyclic) {hash : Hash} {parentHashes : List Hash}
      {conciliumId : Nat} {patch : PatchDB} (hnew : hash ∉ dag) (hself : hash ∉ parentHashes) :
      (addHeader hash parentHashes conciliumId patch dag).Acyclic :=
    hdag.addVertex _ hnew hself
  unfold sharedBranch
  refine hstep (hstep (hstep (hstep (hstep (hstep Dag.acyclic_empty ?_ ?_) ?_ ?_) ?_ ?_) ?_ ?_)
    ?_ ?_) ?_ ?_ <;> decide

theorem isTip_sharedBranch : sharedBranch.dag.IsTip 16 :=
  (Dagjs.sample.mem_tips _ _).mp (by decide)

/-- The new block 16 makes 13 stable, and rolls back block 11 that it is built on. -/
theorem checkFinality_sharedBranch :
    ∃ r after, sharedBranch.checkFinality Factory.sample Dagjs.sample 16 6 = .ok (some r, after) ∧
      11 ∈ r.setBlocksToRollback ∧ 16 ∈ after.dag := by
  obtain ⟨⟨result, after⟩, hok, hresult⟩ := exists_ok_of_any
    (x := sharedBranch.checkFinality Factory.sample Dagjs.sample 16 6)
    (p := fun a => a.1.any fun r : FinalityResult =>
      decide (11 ∈ r.setBlocksToRollback ∧ 16 ∈ a.2.dag))
    (by decide +kernel)
  cases result with
  | none => cases hresult
  | some r => exact ⟨r, after, hok, by simpa using hresult⟩

/-- The new block is not spared: its parent is rolled back. -/
theorem not_keepsWinner_sharedBranch :
    ¬ ∀ (F : Factory) (J : Dagjs) (pbm : PendingBlocksManager) (newVertex : Hash)
      (nConciliumCount : Nat) (r : FinalityResult) (after : PendingBlocksManager),
      pbm.dag.Acyclic → pbm.dag.IsTip newVertex →
      pbm.checkFinality F J newVertex nConciliumCount = .ok (some r, after) →
      KeepsWinner pbm.dag newVertex r after.dag := by
  intro hclaim
  obtain ⟨r, after, hok, hgone, -⟩ := checkFinality_sharedBranch
  have hkeeps := hclaim _ _ _ _ _ _ _ acyclic_sharedBranch isTip_sharedBranch hok
  have hedge : sharedBranch.dag.Edge 16 11 := by decide
  exact hkeeps.winner 11 (.single hedge) hgone

/-- The equivalence at the shared branch. -/
theorem checkFinality_keepsWinner_iff_sharedBranch :
    ∃ r after, sharedBranch.checkFinality Factory.sample Dagjs.sample 16 6 = .ok (some r, after) ∧
      (KeepsWinner sharedBranch.dag 16 r after.dag ↔
        BranchesDisjoint Factory.sample Dagjs.sample sharedBranch 16 6) := by
  obtain ⟨r, after, hok, -⟩ := checkFinality_sharedBranch
  exact ⟨r, after, hok, checkFinality_keepsWinner_iff _ _ _ acyclic_sharedBranch _
    isTip_sharedBranch _ _ _ hok⟩

end CilCore.PendingBlocksManager
