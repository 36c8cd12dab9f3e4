import CilCore.Node.ExecBlock

/-!
# Concilium forks

A patch carries a level for each concilium, and merging two patches that one concilium
made at the same level is meant to fail. But the result of a merge carries no
concilium, so that `mergePatches` never compares levels: two blocks of one concilium at
one level are joined unless their patches conflict otherwise.
-/

namespace CilCore

namespace PatchDB

/-- The level of a concilium, as merges read it. -/
def levelOf (patch : PatchDB) (nConciliumId : Nat) : Nat :=
  (patch.mapConciliumLevel.lookup nConciliumId).getD 0

/-- Every contract of the patch belongs to a concilium. -/
def ContractsPlaced (patch : PatchDB) : Prop :=
  ∀ addr contract, patch.getContract addr = some contract → contract.conciliumId ≠ none

variable {F : Factory} {patch other result : PatchDB} {nConciliumId : Nat}

theorem levelOf_eq_of_getLevel {c c' : Nat}
    (h : patch.getLevel (some c) = other.getLevel (some c')) : patch.levelOf c = other.levelOf c' :=
  congrArg (·.getD 0) h

theorem levelOf_merge {bPreferPatchData : Bool}
    (h : patch.merge F other bPreferPatchData = .ok result) :
    result.levelOf nConciliumId = max (patch.levelOf nConciliumId) (other.levelOf nConciliumId) := by
  obtain ⟨-, -, -, -, -, rfl⟩ := merge_eq_ok.mp h
  rw [levelOf, merged, FinMap.lookup_zipWith _ _ _ (fun _ => rfl), levelOf, levelOf]
  cases patch.mapConciliumLevel.lookup nConciliumId <;>
    cases other.mapConciliumLevel.lookup nConciliumId <;> simp

theorem levelOf_setConciliumId {nId : Nat} (h : patch.setConciliumId nId = .ok result) :
    result.levelOf nConciliumId =
      if nConciliumId = nId then patch.levelOf nId + 1 else patch.levelOf nConciliumId := by
  unfold setConciliumId at h
  obtain ⟨-, rfl⟩ := guard_eq_ok.mp h
  rw [levelOf, FinMap.lookup_insert_ite]
  split <;> rfl

theorem contractsPlaced_empty : empty.ContractsPlaced := by
  intro addr contract h
  simp [getContract, PatchDB.empty] at h

/-- The contracts of a merge were encoded, so they have a concilium. -/
theorem ContractsPlaced.merge {bPreferPatchData : Bool}
    (h : patch.merge F other bPreferPatchData = .ok result) : result.ContractsPlaced := by
  obtain ⟨-, -, -, -, -, rfl⟩ := merge_eq_ok.mp h
  intro addr contract hcontract
  rw [getContract, merged, FinMap.lookup_zipWith _ _ _ (fun _ => rfl),
    Option.bind_eq_some_iff] at hcontract
  obtain ⟨winner, -, hclone⟩ := hcontract
  unfold Contract.clone at hclone
  split at hclone
  next => simp [Except.toOption] at hclone
  next conciliumId hconcilium =>
    simp only [Except.toOption, Option.some.injEq] at hclone
    rw [← hclone]
    simp

theorem ContractsPlaced.purge (h : patch.ContractsPlaced) :
    (patch.purge F other).ContractsPlaced := by
  intro addr contract hcontract
  rw [getContract, PatchDB.purge, FinMap.lookup_tabulate] at hcontract
  split at hcontract
  next =>
    split at hcontract
    next => cases hcontract
    next => exact h addr contract hcontract
  next => cases hcontract

/-- A patch whose contracts have a concilium can be merged with an empty one. -/
theorem ContractsPlaced.merge_empty (h : patch.ContractsPlaced) :
    ∃ result, patch.merge F empty = .ok result := by
  refine ⟨_, merge_eq_ok.mpr ⟨?_, ?_, ?_, ?_, ?_, rfl⟩⟩
  · rintro ⟨-, hsome, hfork, -⟩
    exact hsome hfork
  · rintro ⟨coinHash, hboth, -⟩
    simp [empty] at hboth
  · rintro ⟨strAddr, hboth, -⟩
    simp [empty] at hboth
  · rintro ⟨strAddr, hmem, hnone⟩
    have hempty : empty.getContract strAddr = none := rfl
    rw [hempty] at hnone
    cases hcontract : patch.getContract strAddr with
    | none =>
        rw [empty, Finmap.keys_empty, Finset.union_empty, FinMap.mem_keys_iff] at hmem
        obtain ⟨contract, hmem⟩ := hmem
        rw [getContract, hmem] at hcontract
        cases hcontract
    | some contract =>
        rw [hcontract] at hnone
        exact h strAddr contract hcontract hnone
  · rintro ⟨strHash, hboth, -⟩
    simp [empty] at hboth

end PatchDB

/-! ### Levels along the graph -/

section Graph

variable {F : Factory} {J : Dagjs}

/-- Two blocks that one concilium made at the same level. -/
def SameLevelFork (dag : PendingDag) (v w : Hash) : Prop :=
  v ≠ w ∧ ∃ b b', dag.readObj v = some b ∧ dag.readObj w = some b' ∧
    b.blockHeader.conciliumId = b'.blockHeader.conciliumId ∧
    b.patch.getLevel (some b.blockHeader.conciliumId) =
      b'.patch.getLevel (some b'.blockHeader.conciliumId)

/-- The pending parents are, or descend from, both sides of a fork. -/
def JoinsFork (dag : PendingDag) (arrParents : List Hash) : Prop :=
  ∃ p ∈ arrParents, ∃ q ∈ arrParents, ∃ v w, dag.Reaches p v ∧ dag.Reaches q w ∧
    SameLevelFork dag v w

/-- Levels grow from a block to those built upon it, and that of a block's own concilium
grows strictly. -/
def LevelsGrow (dag : PendingDag) : Prop :=
  ∀ v w b b', dag.Edge v w → dag.readObj v = some b → dag.readObj w = some b' →
    (∀ c, b'.patch.levelOf c ≤ b.patch.levelOf c) ∧
      b'.patch.levelOf b.blockHeader.conciliumId < b.patch.levelOf b.blockHeader.conciliumId

theorem LevelsGrow.le_of_reaches {dag : PendingDag} (hdag : LevelsGrow dag) {v w : Hash}
    (h : dag.Reaches v w) {b b' : PendingBlock} (hv : dag.readObj v = some b)
    (hw : dag.readObj w = some b') (c : Nat) : b'.patch.levelOf c ≤ b.patch.levelOf c := by
  induction h using Relation.ReflTransGen.head_induction_on generalizing b with
  | refl =>
      rw [hv] at hw
      injection hw with hw
      rw [hw]
  | head hedge _ ih =>
      obtain ⟨middle, hmiddle⟩ := Dag.mem_iff.mp hedge.mem_right
      exact (ih hmiddle).trans ((hdag _ _ _ _ hedge hv hmiddle).1 c)

/-- A block is on a higher level of its concilium than what it is built upon. -/
theorem LevelsGrow.not_sameLevelFork {dag : PendingDag} (hdag : LevelsGrow dag) {v w : Hash}
    (h : dag.Reaches v w) : ¬ SameLevelFork dag v w := by
  rintro ⟨hne, b, b', hv, hw, hconcilium, hlevel⟩
  rcases Relation.ReflTransGen.cases_head h with heq | ⟨u, hedge, hrest⟩
  · exact hne heq
  · obtain ⟨middle, hmiddle⟩ := Dag.mem_iff.mp hedge.mem_right
    have hlt := (hdag _ _ _ _ hedge hv hmiddle).2
    have hle := hdag.le_of_reaches hrest hmiddle hw b.blockHeader.conciliumId
    have heq := PatchDB.levelOf_eq_of_getLevel hlevel
    rw [← hconcilium] at heq
    omega

theorem SameLevelFork.symm {dag : PendingDag} {v w : Hash} (h : SameLevelFork dag v w) :
    SameLevelFork dag w v := by
  obtain ⟨hne, b, b', hv, hw, hconcilium, hlevel⟩ := h
  exact ⟨hne.symm, b', b, hw, hv, hconcilium.symm, hlevel.symm⟩

/-! ### Merging the patches of parents -/

open PendingBlocksManager

/-- Merging adds up the levels of all pending parents, and the result has no concilium. -/
theorem mergePatchesFrom_levelOf {dag : PendingDag} {arrHashes : List Hash} :
    ∀ {start result : PatchDB}, mergePatchesFrom F dag arrHashes start = .ok result →
      ∀ c, start.levelOf c ≤ result.levelOf c ∧
        ∀ v ∈ arrHashes, ∀ b, dag.readObj v = some b → b.patch.levelOf c ≤ result.levelOf c := by
  induction arrHashes with
  | nil =>
      intro start result h c
      injection h with h
      exact ⟨by rw [h], by simp⟩
  | cons vertex rest ih =>
      intro start result h c
      rw [mergePatchesFrom] at h
      split at h
      next hnone =>
        obtain ⟨hstart, hrest⟩ := ih h c
        refine ⟨hstart, fun v hv b hb => ?_⟩
        rcases List.mem_cons.mp hv with rfl | hv
        · rw [hnone] at hb
          cases hb
        · exact hrest v hv b hb
      next block hblock =>
        split at h
        next => cases h
        next merged hmerge =>
          obtain ⟨hstart, hrest⟩ := ih h c
          rw [PatchDB.levelOf_merge hmerge] at hstart
          refine ⟨(le_max_right _ _).trans hstart, fun v hv b hb => ?_⟩
          rcases List.mem_cons.mp hv with rfl | hv
          · rw [hblock] at hb
            injection hb with hb
            rw [← hb]
            exact (le_max_left _ _).trans hstart
          · exact hrest v hv b hb

theorem mergePatchesFrom_placed {dag : PendingDag} {arrHashes : List Hash} :
    ∀ {start result : PatchDB}, start.ContractsPlaced → start.conciliumId = none →
      mergePatchesFrom F dag arrHashes start = .ok result →
        result.ContractsPlaced ∧ result.conciliumId = none := by
  induction arrHashes with
  | nil =>
      intro start result hstart hnone h
      injection h with h
      exact h ▸ ⟨hstart, hnone⟩
  | cons vertex rest ih =>
      intro start result hstart hnone h
      rw [mergePatchesFrom] at h
      split at h
      next => exact ih hstart hnone h
      next =>
        split at h
        next => cases h
        next merged hmerge =>
          refine ih (.merge hmerge) ?_ h
          obtain ⟨-, -, -, -, -, rfl⟩ := PatchDB.merge_eq_ok.mp hmerge
          rfl

theorem mergePatchesFrom_append {dag : PendingDag} {arrHashes arrHashes' : List Hash}
    {start middle : PatchDB} (h : mergePatchesFrom F dag arrHashes start = .ok middle) :
    mergePatchesFrom F dag (arrHashes ++ arrHashes') start =
      mergePatchesFrom F dag arrHashes' middle := by
  induction arrHashes generalizing start with
  | nil =>
      injection h with h
      rw [h, List.nil_append]
  | cons vertex rest ih =>
      rw [mergePatchesFrom] at h
      rw [List.cons_append, mergePatchesFrom]
      split at h
      next hnone => simpa only [hnone] using ih h
      next block hblock =>
        split at h
        next => cases h
        next merged hmerge => simpa only [hblock, hmerge] using ih h

/-- The hashes that were collected merge to the patch that was collected. -/
theorem collectPatchesFrom_merges {dag : PendingDag} {arrHashes : List Hash} :
    ∀ {arrMerged : List Hash} {patchMerged : PatchDB},
      mergePatchesFrom F dag arrMerged PatchDB.empty = .ok patchMerged →
      mergePatchesFrom F dag (collectPatchesFrom F dag arrHashes arrMerged patchMerged).1
        PatchDB.empty = .ok (collectPatchesFrom F dag arrHashes arrMerged patchMerged).2 := by
  induction arrHashes with
  | nil => exact fun h => h
  | cons vertex rest ih =>
      intro arrMerged patchMerged h
      rw [collectPatchesFrom]
      split
      next => exact ih h
      next block hblock =>
        split
        next => exact ih h
        next merged hmerge =>
          refine ih ?_
          rw [mergePatchesFrom_append h, mergePatchesFrom]
          simp only [hblock, hmerge, mergePatchesFrom]

/-- What is collected is kept, and the first hash that merges is collected. -/
theorem collectPatchesFrom_ne_nil {dag : PendingDag} {arrHashes : List Hash} :
    ∀ {arrMerged : List Hash} {patchMerged : PatchDB}, arrMerged ≠ [] →
      (collectPatchesFrom F dag arrHashes arrMerged patchMerged).1 ≠ [] := by
  induction arrHashes with
  | nil => exact fun h => h
  | cons vertex rest ih =>
      intro arrMerged patchMerged h
      rw [collectPatchesFrom]
      split
      next => exact ih h
      next =>
        split
        next => exact ih h
        next => exact ih (by simp)

/-- Best parents are tips whose patches merge, as long as there are pending blocks. -/
theorem getBestParents_merges {pbm : PendingBlocksManager} (hdag : pbm.dag.Acyclic)
    (hplaced : ∀ v b, pbm.dag.readObj v = some b → b.patch.ContractsPlaced)
    {nConciliumId : Option Nat} {v : Hash} (hv : v ∈ pbm.dag) :
    pbm.mergePatches F (pbm.getBestParents F J nConciliumId).1 =
      .ok (pbm.getBestParents F J nConciliumId).2 := by
  obtain ⟨tip, htip, -⟩ := hdag.exists_tip hv
  have htips : J.tips pbm.dag ≠ [] := List.ne_nil_of_mem ((J.mem_tips _ _).mpr htip)
  have hcollected (arrHashes : List Hash) :
      mergePatchesFrom F pbm.dag (collectPatchesFrom F pbm.dag arrHashes [] PatchDB.empty).1
        PatchDB.empty = .ok (collectPatchesFrom F pbm.dag arrHashes [] PatchDB.empty).2 :=
    collectPatchesFrom_merges rfl
  have hne : (collectPatchesFrom F pbm.dag (pbm.sortTips J (J.tips pbm.dag) nConciliumId) []
      PatchDB.empty).1 ≠ [] := by
    cases hsorted : pbm.sortTips J (J.tips pbm.dag) nConciliumId with
    | nil =>
        have hmem : tip ∈ pbm.sortTips J (J.tips pbm.dag) nConciliumId :=
          (mem_sortTips J).mpr ((J.mem_tips _ _).mpr htip)
        rw [hsorted] at hmem
        cases hmem
    | cons first rest =>
        have hfirst : first ∈ J.tips pbm.dag :=
          (mem_sortTips J).mp (hsorted ▸ List.mem_cons_self)
        obtain ⟨b, hb⟩ := Dag.mem_iff.mp ((J.mem_tips _ _).mp hfirst).1
        obtain ⟨merged, hmerge⟩ := (hplaced first b hb).merge_empty (F := F)
        rw [collectPatchesFrom]
        simp only [hb, hmerge]
        exact collectPatchesFrom_ne_nil (by simp)
  unfold getBestParents mergePatches
  simp only [if_neg htips, if_neg hne]
  exact hcollected _

/-- Hashes that are not pending take no part in a merge. -/
theorem mergePatchesFrom_filter {dag : PendingDag} {arrHashes : List Hash} :
    ∀ {start : PatchDB}, mergePatchesFrom F dag (arrHashes.filter (· ∈ dag)) start =
      mergePatchesFrom F dag arrHashes start := by
  induction arrHashes with
  | nil => exact rfl
  | cons vertex rest ih =>
      intro start
      by_cases hmem : vertex ∈ dag
      · obtain ⟨b, hb⟩ := Dag.mem_iff.mp hmem
        rw [List.filter_cons_of_pos (by simpa using hmem), mergePatchesFrom, mergePatchesFrom]
        simp only [hb]
        split
        next => rfl
        next => exact ih
      · rw [List.filter_cons_of_neg (by simpa using hmem), mergePatchesFrom,
          Dag.readObj_eq_none.mpr hmem]
        exact ih

theorem JoinsFork.filter {dag : PendingDag} {arrParents : List Hash}
    (h : JoinsFork dag arrParents) : JoinsFork dag (arrParents.filter (· ∈ dag)) := by
  obtain ⟨p, hp, q, hq, v, w, hpv, hqw, hfork⟩ := h
  obtain ⟨-, b, b', hv, hw, -⟩ := id hfork
  refine ⟨p, List.mem_filter.mpr ⟨hp, ?_⟩, q, List.mem_filter.mpr ⟨hq, ?_⟩, v, w, hpv, hqw, hfork⟩
  · exact decide_eq_true (hpv.mem_left (Dag.mem_iff.mpr ⟨b, hv⟩))
  · exact decide_eq_true (hqw.mem_left (Dag.mem_iff.mpr ⟨b', hw⟩))

/-- Levels still grow in a part of a graph. -/
theorem LevelsGrow.of_partOf {dag' dag : PendingDag} (h : LevelsGrow dag)
    (hpart : PendingBlocksManager.PartOf F dag' dag) : LevelsGrow dag' := by
  intro v w b b' hedge hv hw
  obtain ⟨before, hbefore, hb⟩ := hpart.readObj v b hv
  obtain ⟨before', hbefore', hb'⟩ := hpart.readObj w b' hw
  have hlevels := h v w before before' (hpart.edge _ _ hedge) hbefore hbefore'
  rcases hb with rfl | ⟨_, rfl⟩ <;> rcases hb' with rfl | ⟨_, rfl⟩ <;> exact hlevels

/-- A fork in a part of a graph was there before. -/
theorem PendingBlocksManager.PartOf.joinsFork {dag' dag : PendingDag} (hpart : PartOf F dag' dag)
    {arrParents : List Hash} (h : JoinsFork dag' arrParents) : JoinsFork dag arrParents := by
  obtain ⟨p, hp, q, hq, v, w, hpv, hqw, hne, b, b', hv, hw, hconcilium, hlevel⟩ := h
  refine ⟨p, hp, q, hq, v, w, hpart.reaches hpv, hpart.reaches hqw, hne, ?_⟩
  obtain ⟨before, hbefore, hb⟩ := hpart.readObj v b hv
  obtain ⟨before', hbefore', hb'⟩ := hpart.readObj w b' hw
  refine ⟨before, before', hbefore, hbefore', ?_⟩
  rcases hb with rfl | ⟨_, rfl⟩ <;> rcases hb' with rfl | ⟨_, rfl⟩ <;> exact ⟨hconcilium, hlevel⟩

end Graph

/-! ### Executing blocks -/

namespace ChainState

open PendingBlocksManager

section Exec

variable {F : Factory} {J : Dagjs} {s s' : ChainState} {vm : Transaction → Behaviour}
  {block : Block} {patchState : PatchDB}

theorem execTxns_levelOf {node : NodeView} {isGenesis : Bool} {conciliumId : Nat}
    {txns : List Transaction} :
    ∀ {start result : PatchDB} {fees fees' : Amount},
      execTxns F node isGenesis conciliumId vm txns start fees = .ok (result, fees') →
        (∀ c, start.levelOf c ≤ result.levelOf c) ∧
          (start.ContractsPlaced → result.ContractsPlaced) := by
  induction txns with
  | nil =>
      intro start result fees fees' h
      cases h
      exact ⟨fun _ => le_rfl, fun h => h⟩
  | cons tx rest ih =>
      intro start result fees fees' h
      obtain ⟨-, fee, patchThisTx, merged, -, hmerge, hrest⟩ := execTxns_cons_ok h
      obtain ⟨hlevels, hplaced⟩ := ih hrest
      refine ⟨fun c => ?_, fun _ => hplaced (.merge hmerge)⟩
      have hc := hlevels c
      rw [PatchDB.levelOf_merge hmerge] at hc
      exact (le_max_left _ _).trans hc

theorem processBlockCoinbaseTX_frame {blockFees : Amount} {patch patch' : PatchDB}
    (h : processBlockCoinbaseTX F block blockFees patch = .ok patch') :
    patch' = { patch with coins := patch'.coins } := by
  unfold processBlockCoinbaseTX at h
  split at h
  next => cases h
  next =>
    cases hpayments : App.processPaymentsFrom (block.coinbase.hash F) 0 block.coinbase.getOutCoins
      patch 0 with
    | error error => simp [hpayments, Except.map] at h
    | ok result =>
        simp only [hpayments, Except.map, Except.ok.injEq] at h
        exact h ▸ App.processPaymentsFrom_frame hpayments

/-- An executed block is above the levels of its pending parents, which merged. -/
theorem execBlock_levelOf {processedHeight : Option Nat}
    (h : s.execBlock F processedHeight vm block = .ok (some patchState)) :
    (∃ patchMerged, s.pendingBlocks.mergePatches F block.parentHashes = .ok patchMerged) ∧
      patchState.ContractsPlaced ∧
      ∀ v ∈ block.parentHashes, ∀ b, s.pendingBlocks.dag.readObj v = some b →
        (∀ c, b.patch.levelOf c ≤ patchState.levelOf c) ∧
          b.patch.levelOf block.conciliumId < patchState.levelOf block.conciliumId := by
  obtain ⟨-, -, merged, start, txns, fees, hmerged, hstart, htxns, hlast⟩ := execBlock_ok h
  have hmergedLevel (c : Nat) := mergePatchesFrom_levelOf hmerged c
  have hplaced := mergePatchesFrom_placed PatchDB.contractsPlaced_empty rfl hmerged
  obtain ⟨htxnsLevel, htxnsPlaced⟩ := execTxns_levelOf htxns
  have hstartPlaced : start.ContractsPlaced := by
    unfold PatchDB.setConciliumId at hstart
    obtain ⟨-, rfl⟩ := guard_eq_ok.mp hstart
    exact hplaced.1
  -- the coinbase changes neither levels nor contracts
  have hframe : (∀ c, txns.levelOf c = patchState.levelOf c) ∧
      txns.mapContractStates = patchState.mapContractStates := by
    rcases hlast with ⟨-, rfl⟩ | ⟨-, hcoinbase⟩
    · exact ⟨fun _ => rfl, rfl⟩
    · have hsame := processBlockCoinbaseTX_frame hcoinbase
      exact ⟨fun c => by rw [hsame]; rfl, by rw [hsame]⟩
  have hstartLevel {c : Nat} : start.levelOf c =
      if c = block.conciliumId then merged.levelOf block.conciliumId + 1 else merged.levelOf c :=
    PatchDB.levelOf_setConciliumId hstart
  refine ⟨⟨merged, hmerged⟩, fun addr contract hcontract => ?_, fun v hv b hb => ⟨fun c => ?_, ?_⟩⟩
  · rw [PatchDB.getContract, ← hframe.2] at hcontract
    exact htxnsPlaced hstartPlaced addr contract hcontract
  · have hle := (hmergedLevel c).2 v hv b hb
    have htxn := htxnsLevel c
    rw [hstartLevel] at htxn
    rw [← hframe.1]
    split at htxn
    next heq =>
      rw [heq] at hle ⊢
      rw [heq] at htxn
      omega
    next => omega
  · have hle := (hmergedLevel block.conciliumId).2 v hv b hb
    have htxn := htxnsLevel block.conciliumId
    rw [hstartLevel, if_pos rfl] at htxn
    rw [← hframe.1]
    omega

theorem acyclic_addBlock (hF : F.HashesHeaders) (h : s.pendingBlocks.dag.Acyclic)
    {processedHeight : Option Nat}
    (hexec : s.execBlock F processedHeight vm block = .ok (some patchState)) :
    (s.pendingBlocks.addBlock F block patchState).dag.Acyclic :=
  h.addVertex _ (notMem_of_execBlock hexec) (hF.notMem_parents (block.hashedHeader F))

/-- An executed block is above what it is built upon. -/
theorem levelsGrow_addBlock (hF : F.HashesHeaders) (h : LevelsGrow s.pendingBlocks.dag)
    {processedHeight : Option Nat}
    (hexec : s.execBlock F processedHeight vm block = .ok (some patchState)) :
    LevelsGrow (s.pendingBlocks.addBlock F block patchState).dag := by
  have hnew := notMem_of_execBlock hexec
  intro v w b b' hedge hv hw
  rcases Dag.edge_addVertex.mp hedge with ⟨rfl, hparent, -⟩ | hedge
  · have hne : w ≠ block.hash F := by
      rintro rfl
      exact hF.notMem_parents (block.hashedHeader F) hparent
    obtain ⟨-, rfl⟩ := (readObj_addBlock F hv).resolve_right fun h => h.1 rfl
    have hw' := ((readObj_addBlock F hw).resolve_left fun h => hne h.1).2
    exact (execBlock_levelOf hexec).2.2 w hparent b' hw'
  · have hv' := (readObj_addBlock F hv).resolve_left fun h => hnew (h.1 ▸ hedge.mem_left)
    have hw' := (readObj_addBlock F hw).resolve_left fun h => hnew (h.1 ▸ hedge.mem_right)
    exact h v w b b' hedge hv'.2 hw'.2

/-! ### Detecting forks -/

/-- What is asked of a state: no block that joins a fork is executed, best parents never
join one, and no accepted block does. -/
structure DetectsForks (F : Factory) (J : Dagjs) (s : ChainState) : Prop where
  rejects : ∀ processedHeight vm block patchState,
    JoinsFork s.pendingBlocks.dag block.parentHashes →
      s.execBlock F processedHeight vm block ≠ .ok (some patchState)
  bestParents : ∀ nConciliumId,
    ¬ JoinsFork s.pendingBlocks.dag (s.pendingBlocks.getBestParents F J nConciliumId).1
  accepted : ∀ v, ¬ JoinsFork s.pendingBlocks.dag [v]

/-- Both sides of a fork never have patches that merge: they spend an output in two
transactions, disagree on the concilium of a contract, or on a receipt. -/
def ForksConflict (F : Factory) (s : ChainState) : Prop :=
  ∀ arrParents, JoinsFork s.pendingBlocks.dag arrParents →
    ∀ patchMerged, s.pendingBlocks.mergePatches F arrParents ≠ .ok patchMerged

/-- What holds of a node that has only processed blocks whose forks conflict. -/
structure ForkInvariant (s : ChainState) : Prop where
  acyclic : s.pendingBlocks.dag.Acyclic
  levels : LevelsGrow s.pendingBlocks.dag
  placed : ∀ v b, s.pendingBlocks.dag.readObj v = some b → b.patch.ContractsPlaced
  known : ∀ v ∈ s.pendingBlocks.dag, ∃ blockInfo, s.mainDag.getBlockInfo v = some blockInfo
  accepted : ∀ v, ¬ JoinsFork s.pendingBlocks.dag [v]

theorem forkInvariant_of_no_pending (h : ∀ v, v ∉ s.pendingBlocks.dag) : ForkInvariant s where
  acyclic v hv := by
    obtain ⟨w, hedge, -⟩ := Relation.TransGen.head'_iff.mp hv
    exact h v hedge.mem_left
  levels v w _ _ hedge := absurd hedge.mem_left (h v)
  placed v b hb := absurd (Dag.mem_iff.mpr ⟨b, hb⟩) (h v)
  known v hv := absurd hv (h v)
  accepted v hjoins := by
    obtain ⟨p, -, q, -, v, w, -, -, -, b, -, hb, -⟩ := hjoins
    exact h v (Dag.mem_iff.mpr ⟨b, hb⟩)

/-- A fork below two blocks is a fork below one of the blocks they are among. -/
theorem JoinsFork.mono {dag : PendingDag} {arrParents : List Hash} {v : Hash}
    (h : JoinsFork dag arrParents) (hv : ∀ p ∈ arrParents, dag.Reaches v p) :
    JoinsFork dag [v] := by
  obtain ⟨p, hp, q, hq, x, y, hpx, hqy, hfork⟩ := h
  exact ⟨v, List.mem_singleton_self v, v, List.mem_singleton_self v, x, y,
    (hv p hp).trans hpx, (hv q hq).trans hqy, hfork⟩

/-- What a part of a graph keeps of the invariant. -/
theorem ForkInvariant.of_partOf {s s' : ChainState} (h : ForkInvariant s)
    (hpart : PartOf F s'.pendingBlocks.dag s.pendingBlocks.dag)
    (hknown : ∀ v ∈ s'.pendingBlocks.dag, ∃ blockInfo, s'.mainDag.getBlockInfo v = some blockInfo) :
    ForkInvariant s' where
  acyclic := h.acyclic.of_edge hpart.edge
  levels := h.levels.of_partOf hpart
  placed v b hb := by
    obtain ⟨before, hbefore, hb⟩ := hpart.readObj v b hb
    rcases hb with rfl | ⟨_, rfl⟩
    · exact h.placed v _ hbefore
    · exact (h.placed v before hbefore).purge
  known := hknown
  accepted v hjoins := h.accepted v (hpart.joinsFork hjoins)

theorem markStable_known {vs : List Hash} :
    ∀ {mainDag mainDag' : MainDag} {n n' : Nat},
      markStable F vs mainDag n = .ok (mainDag', n') → ∀ v blockInfo,
        mainDag.getBlockInfo v = some blockInfo →
          ∃ blockInfo', mainDag'.getBlockInfo v = some blockInfo' := by
  induction vs with
  | nil =>
      intro mainDag mainDag' n n' h v blockInfo hv
      cases h
      exact ⟨blockInfo, hv⟩
  | cons hash rest ih =>
      intro mainDag mainDag' n n' h v blockInfo hv
      rw [markStable] at h
      split at h
      next => cases h
      next bi _ =>
        by_cases hsame : v = bi.markAsFinal.getHash F
        · exact ih h v bi.markAsFinal (by rw [MainDag.getBlockInfo_setBlockInfo, if_pos hsame])
        · exact ih h v blockInfo (by rw [MainDag.getBlockInfo_setBlockInfo, if_neg hsame, hv])

theorem getBlockInfo_removeBlocks {vs : List Hash} :
    ∀ {mainDag : MainDag} {v : Hash}, v ∉ vs →
      (vs.foldl (fun mainDag hash => mainDag.removeBlock hash) mainDag).getBlockInfo v =
        mainDag.getBlockInfo v := by
  induction vs with
  | nil => exact fun _ => rfl
  | cons hash rest ih =>
      intro mainDag v hv
      rw [List.mem_cons, not_or] at hv
      rw [List.foldl_cons, ih hv.2, MainDag.getBlockInfo_removeBlock, if_neg hv.1]

/-- The infos of the blocks that stay pending are kept. -/
theorem acceptBlock_known (h : s.acceptBlock F J block patchState = .ok s') {v : Hash}
    {blockInfo : BlockInfo} (hv : s.mainDag.getBlockInfo v = some blockInfo)
    (hmem : v ∈ s'.pendingBlocks.dag) : ∃ blockInfo', s'.mainDag.getBlockInfo v = some blockInfo' := by
  obtain ⟨result, hcheck, hresult⟩ := acceptBlock_ok h
  cases result with
  | none =>
      injection hresult with hresult
      exact ⟨blockInfo, by rw [← hresult, hv]⟩
  | some r =>
      obtain ⟨-, -, -, hsettle⟩ := checkFinality_ok hcheck
      rw [hsettle, mem_settle] at hmem
      unfold processFinalityResults at hresult
      dsimp only at hresult
      split at hresult
      next => cases hresult
      next mainDag nHeightMax hmark =>
        injection hresult with hresult
        obtain ⟨blockInfo', hknown⟩ := markStable_known hmark v blockInfo hv
        exact ⟨blockInfo', by rw [← hresult, getBlockInfo_removeBlocks hmem.2.2, hknown]⟩

/-- The new block joins no fork, so the invariant is kept when it is added. -/
theorem ForkInvariant.addBlock (hF : F.HashesHeaders) (h : ForkInvariant s)
    (hforks : ForksConflict F s) {processedHeight : Option Nat}
    (hexec : s.execBlock F processedHeight vm block = .ok (some patchState))
    (hinfo : ∃ blockInfo, s.mainDag.getBlockInfo (block.hash F) = some blockInfo) :
    ForkInvariant { s with pendingBlocks := s.pendingBlocks.addBlock F block patchState } := by
  have hnew := notMem_of_execBlock hexec
  have hself : block.hash F ∉ block.parentHashes := hF.notMem_parents (block.hashedHeader F)
  obtain ⟨⟨merged, hmerged⟩, hplaced, -⟩ := execBlock_levelOf hexec
  have hobj {v : Hash} {b : PendingBlock} (hv : v ≠ block.hash F)
      (hb : (s.pendingBlocks.addBlock F block patchState).dag.readObj v = some b) :
      s.pendingBlocks.dag.readObj v = some b :=
    ((readObj_addBlock F hb).resolve_left fun h => hv h.1).2
  have hlevels := levelsGrow_addBlock hF h.levels hexec
  have hforkOld {v w : Hash} (hv : v ∈ s.pendingBlocks.dag) (hw : w ∈ s.pendingBlocks.dag)
      (hfork : SameLevelFork (s.pendingBlocks.addBlock F block patchState).dag v w) :
      SameLevelFork s.pendingBlocks.dag v w := by
    obtain ⟨hne, b, b', hb, hb', hrest⟩ := hfork
    exact ⟨hne, b, b', hobj (ne_of_mem_of_not_mem hv hnew) hb,
      hobj (ne_of_mem_of_not_mem hw hnew) hb', hrest⟩
  refine ⟨acyclic_addBlock hF h.acyclic hexec, hlevels, fun v b hb => ?_, fun v hv => ?_,
    fun v hjoins => ?_⟩
  · rcases readObj_addBlock F hb with ⟨-, rfl⟩ | ⟨-, hb⟩
    · exact hplaced
    · exact h.placed v b hb
  · rcases Dag.mem_addVertex.mp hv with rfl | hv
    · exact hinfo
    · exact h.known v hv
  · obtain ⟨p, hp, q, hq, x, y, hpx, hqy, hfork⟩ := hjoins
    rw [List.mem_singleton.mp hp] at hpx
    rw [List.mem_singleton.mp hq] at hqy
    by_cases hmem : v ∈ s.pendingBlocks.dag
    · obtain ⟨hx, hxmem⟩ := Dag.reaches_addVertex_of_mem hnew hmem hpx
      obtain ⟨hy, hymem⟩ := Dag.reaches_addVertex_of_mem hnew hmem hqy
      exact h.accepted v ⟨v, List.mem_singleton_self v, v, List.mem_singleton_self v, x, y, hx, hy,
        hforkOld hxmem hymem hfork⟩
    · -- the new block is above both sides, so they are below its parents
      obtain rfl : v = block.hash F := by
        rcases Relation.ReflTransGen.cases_head hpx with rfl | ⟨p, hedge, -⟩
        · obtain ⟨-, b, -, hb, -⟩ := id hfork
          exact (Dag.mem_addVertex.mp (Dag.mem_iff.mpr ⟨b, hb⟩)).resolve_right hmem
        · exact (Dag.mem_addVertex.mp hedge.mem_left).resolve_right hmem
      rcases Dag.reaches_addVertex_new hnew hself hpx with rfl | ⟨p, hp, -, hx, hxmem⟩
      · exact hlevels.not_sameLevelFork hqy hfork
      rcases Dag.reaches_addVertex_new hnew hself hqy with rfl | ⟨q, hq, -, hy, hymem⟩
      · exact hlevels.not_sameLevelFork hpx hfork.symm
      exact hforks block.parentHashes ⟨p, hp, q, hq, x, y, hx, hy, hforkOld hxmem hymem hfork⟩
        merged hmerged

/-- One block keeps the invariant. -/
theorem ForkInvariant.processBlock (hF : F.HashesHeaders) (h : ForkInvariant s)
    (hforks : ForksConflict F s) (hstep : s.processBlock F J vm block = .ok s') :
    ForkInvariant s' := by
  have hknown (v : Hash) (hv : v ∈ s.pendingBlocks.dag ∨ v = block.hash F) : ∃ blockInfo,
      (s.mainDag.addBlock F (block.info F).markAsInFlight).getBlockInfo v = some blockInfo := by
    have hhash : (block.info F).markAsInFlight.getHash F = block.hash F := rfl
    rw [MainDag.getBlockInfo_addBlock, hhash]
    by_cases heq : v = block.hash F
    · exact ⟨_, if_pos heq⟩
    · rw [if_neg heq]
      exact h.known v (hv.resolve_right heq)
  have hstart : ForkInvariant
      { s with mainDag := s.mainDag.addBlock F (block.info F).markAsInFlight } :=
    h.of_partOf (F := F) (.refl F _) fun v hv => hknown v (.inl hv)
  rcases processBlock_ok hstep with ⟨-, rfl⟩ | ⟨patchState, hexec, haccept⟩
  · exact hstart
  · have hadded := hstart.addBlock hF (hforks) hexec (hknown _ (.inr rfl))
    obtain ⟨result, hcheck, -⟩ := acceptBlock_ok haccept
    refine hadded.of_partOf (partOf_checkFinality hcheck) fun v hv => ?_
    have hbefore : v ∈ (s.pendingBlocks.addBlock F block patchState).dag := by
      obtain ⟨b', hb'⟩ := Dag.mem_iff.mp hv
      obtain ⟨b, hb, -⟩ := (partOf_checkFinality hcheck).readObj v b' hb'
      exact Dag.mem_iff.mpr ⟨b, hb⟩
    obtain ⟨blockInfo, hinfo⟩ := hadded.known v hbefore
    exact acceptBlock_known haccept hinfo hv

theorem forkInvariant_of_run (hF : F.HashesHeaders) {start : ChainState}
    (hstart : ∀ v, v ∉ start.pendingBlocks.dag)
    (hrun : RunWhile F J (fun s _ => ForksConflict F s) start s) : ForkInvariant s := by
  induction hrun with
  | start => exact forkInvariant_of_no_pending hstart
  | step _ hforks hstep ih => exact ih.processBlock hF hforks hstep

/-! ### A block that joins a fork -/

/-- An empty block, whose coinbase takes nothing. -/
def emptyBlock (arrParents : List Hash) (conciliumId timestamp height : Nat) : Block where
  header := { parentHashes := arrParents, merkleRoot := 0, conciliumId, timestamp, height }
  txns := [{ payload := { conciliumId, ins := [⟨zeroHash, 0⟩], outs := [] } }]

theorem maxHeight_of_known {arrParents : List Hash} :
    ∀ {n : Nat}, (∀ v ∈ arrParents, ∃ blockInfo, s.mainDag.getBlockInfo v = some blockInfo) →
      ∃ m, s.maxHeight arrParents n = .ok m := by
  induction arrParents with
  | nil => exact fun _ => ⟨_, rfl⟩
  | cons hash rest ih =>
      intro n hknown
      obtain ⟨blockInfo, hinfo⟩ := hknown hash List.mem_cons_self
      rw [maxHeight, hinfo]
      exact ih fun v hv => hknown v (List.mem_cons_of_mem _ hv)

/-- Some timestamp gives an empty block a hash outside a finite set. -/
theorem exists_fresh_emptyBlock (hF : F.HashesHeaders) (arrParents : List Hash)
    (conciliumId height : Nat) (avoid : Finset Hash) :
    ∃ timestamp, (emptyBlock arrParents conciliumId timestamp height).hash F ∉ avoid := by
  have hinjective := hF.timestamp_injective
    ((emptyBlock arrParents conciliumId 0 height).hashedHeader F)
  obtain ⟨hash, ⟨timestamp, rfl⟩, hfresh⟩ :=
    (Set.infinite_range_of_injective hinjective).exists_notMem_finset avoid
  exact ⟨timestamp, hfresh⟩

/-- Pending parents whose patches merge have an executable empty block upon them. -/
theorem exists_execBlock_of_merges (hF : F.HashesHeaders) {arrParents : List Hash}
    (hknown : ∀ v ∈ arrParents, ∃ blockInfo, s.mainDag.getBlockInfo v = some blockInfo)
    {patchMerged : PatchDB} (hmerge : s.pendingBlocks.mergePatches F arrParents = .ok patchMerged)
    (processedHeight : Option Nat) (vm : Transaction → Behaviour) :
    ∃ block patchState, block.parentHashes = arrParents ∧
      s.execBlock F processedHeight vm block = .ok (some patchState) := by
  obtain ⟨m, hm⟩ := maxHeight_of_known (n := 0) hknown
  obtain ⟨timestamp, hfresh⟩ := exists_fresh_emptyBlock hF arrParents 0 (m + 1)
    (insert F.constants.GENESIS_BLOCK
      (s.mainDag.infos.keys ∪ s.pendingBlocks.dag.objs.keys.toFinset))
  simp only [Finset.mem_insert, Finset.mem_union, not_or, List.mem_toFinset, ← AList.mem_keys]
    at hfresh
  obtain ⟨hgenesis, hunknown, hpending⟩ := hfresh
  rw [FinMap.notMem_keys_iff] at hunknown
  have hnotExecuted :
      s.isBlockExecuted ((emptyBlock arrParents 0 timestamp (m + 1)).hash F) = false := by
    have hhas : s.pendingBlocks.hasBlock
        ((emptyBlock arrParents 0 timestamp (m + 1)).hash F) = false := decide_eq_false hpending
    rw [isBlockExecuted, MainDag.getBlockInfo, hunknown, hhas]
    rfl
  have hnotGenesis : isGenesisBlock F (emptyBlock arrParents 0 timestamp (m + 1)) = false :=
    decide_eq_false hgenesis
  have hheight : s.checkHeight (emptyBlock arrParents 0 timestamp (m + 1)) = .ok () := by
    have hcalc : s.calcHeight (emptyBlock arrParents 0 timestamp (m + 1)).parentHashes =
        .ok (m + 1) := by
      rw [calcHeight, show (emptyBlock arrParents 0 timestamp (m + 1)).parentHashes = arrParents
        from rfl, hm]
      rfl
    rw [checkHeight, hcalc]
    exact if_pos rfl
  have hnone := (mergePatchesFrom_placed PatchDB.contractsPlaced_empty rfl hmerge).2
  obtain ⟨patchStart, hstart⟩ : ∃ patchStart, patchMerged.setConciliumId 0 = .ok patchStart := by
    rw [PatchDB.setConciliumId, if_neg (by simp [hnone])]
    exact ⟨_, rfl⟩
  have hcoinbase : processBlockCoinbaseTX F (emptyBlock arrParents 0 timestamp (m + 1)) 0
      patchStart = .ok patchStart := by
    have hverify : (emptyBlock arrParents 0 timestamp (m + 1)).coinbase.verifyCoinbase 0 =
        .ok () := by
      simp [emptyBlock, Block.coinbase, Transaction.verifyCoinbase, Transaction.isCoinbase,
        Transaction.inputs, Transaction.amountOut, Transaction.outputs]
    rw [processBlockCoinbaseTX, hverify]
    rfl
  refine ⟨emptyBlock arrParents 0 timestamp (m + 1), patchStart, rfl, ?_⟩
  have hmerge' : s.pendingBlocks.mergePatches F
      (emptyBlock arrParents 0 timestamp (m + 1)).parentHashes = .ok patchMerged := hmerge
  have hstart' : patchMerged.setConciliumId
      (emptyBlock arrParents 0 timestamp (m + 1)).conciliumId = .ok patchStart := hstart
  rw [execBlock, if_neg (by simp [hnotExecuted])]
  simp only [hnotGenesis, Bool.false_eq_true, if_false, hheight, hmerge', hstart']
  have htxns : execTxns F ⟨s.storage, processedHeight⟩ false
      (emptyBlock arrParents 0 timestamp (m + 1)).conciliumId vm
      (emptyBlock arrParents 0 timestamp (m + 1)).txns.tail patchStart 0 = .ok (patchStart, 0) := rfl
  simp only [htxns, hcoinbase]
  rfl

end Exec

/-! ### A fork that is joined -/

/-- A factory with two conciliums. -/
def twoConciliums : Factory :=
  { Factory.sample with
    constants := { GENESIS_BLOCK := 1, CONCILIUM_DEFINITION_CONTRACT_ADDRESS := some 9 }
    arrConciliums := fun _ => [.rr { conciliumId := 0, addresses := [7] },
      .rr { conciliumId := 1, addresses := [8] }] }

/-- A node that has only genesis. -/
def afterGenesis : ChainState where
  storage := { Storage.empty with
    contracts := (∅ : FinMap Address Contract).insert 9
      { strAddress := 9, conciliumId := some 0, version := .CONTRACT_V_JSON,
        contractData := some [] } }
  pendingBlocks := ⟨Dag.empty, [1]⟩
  mainDag := ⟨(∅ : FinMap Hash BlockInfo).insert 1
    ⟨{ parentHashes := [], merkleRoot := 0, conciliumId := 0, timestamp := 0, height := 0 },
      .FINAL_BLOCK⟩, []⟩

theorem hashesHeaders_twoConciliums : twoConciliums.HashesHeaders where
  notMem_parents := Factory.hashesHeaders_sample.notMem_parents
  timestamp_injective := Factory.hashesHeaders_sample.timestamp_injective

/-- Behaviours for blocks without contract transactions. -/
def noContracts : Transaction → Behaviour := fun _ => ⟨.error "", .throws ""⟩

/-- Two blocks of concilium 1 upon genesis. -/
def forkedBlock (timestamp : Nat) : Block := emptyBlock [1] 1 timestamp 1

/-- The hash of a forked block. -/
def forkedHash (timestamp : Nat) : Hash := (forkedBlock timestamp).hash twoConciliums

/-- A block that joins them. -/
def joiningBlock : Block := emptyBlock [forkedHash 1, forkedHash 2] 0 3 2

/-- Both blocks of a fork are pending at the same level. -/
def forkPending (s : ChainState) : Bool :=
  (s.pendingBlocks.dag.readObj (forkedHash 1)).any fun b =>
    (s.pendingBlocks.dag.readObj (forkedHash 2)).any fun b' =>
      b.blockHeader.conciliumId = b'.blockHeader.conciliumId ∧
        b.patch.getLevel (some b.blockHeader.conciliumId) =
          b'.patch.getLevel (some b'.blockHeader.conciliumId)

theorem joinsFork_of_forkPending {s : ChainState} (h : forkPending s = true) :
    JoinsFork s.pendingBlocks.dag joiningBlock.parentHashes := by
  simp only [forkPending, Option.any_eq_true, decide_eq_true_eq] at h
  obtain ⟨b, hb, b', hb', hsame⟩ := h
  exact ⟨forkedHash 1, List.mem_cons_self, forkedHash 2, List.mem_cons_of_mem _ List.mem_cons_self,
    _, _, .refl, .refl, by decide +kernel, b, b', hb, hb', hsame⟩

end ChainState

end CilCore
