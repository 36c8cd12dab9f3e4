import CilCore.Node.ContractJournal
import CilCore.Node.ContractMachine

/-!
# The pending version of a contract

`getContract` of `node/pendingBlocksManager.js` looks for the block that wrote a contract
last: on the paths down from the tip with the highest level of the concilium, a block of the
concilium on that level. It knows such a block by the concilium in its patch, and merging the
patch of a transaction takes that away. So a block with transactions is never found, although
only transactions write contracts.
-/

namespace CilCore

/-- `getContract`. -/
def PendingBlocksManager.getContract (J : Dagjs) (strContractAddr : Address) (nConciliumId : Nat)
    (pbm : PendingBlocksManager) : Option Contract :=
  ((pbm.contractVertex J nConciliumId).bind fun vertex => pbm.dag.readObj vertex).bind
    fun block => block.patch.getContract strContractAddr

/-! ### What is looked for -/

/-- A tip that no other tip is above, on the levels of a concilium. -/
def HighestTip (dag : PendingDag) (nConciliumId : Nat) (tip : Hash) : Prop :=
  dag.IsTip tip ∧ ∀ b, dag.readObj tip = some b → ∀ v b', dag.readObj v = some b' →
    b'.patch.levelOf nConciliumId ≤ b.patch.levelOf nConciliumId

/-- The pending versions of a contract are of the concilium. -/
def OfConcilium (dag : PendingDag) (addr : Address) (nConciliumId : Nat) : Prop :=
  ∀ v b contract, dag.readObj v = some b → b.patch.getContract addr = some contract →
    contract.conciliumId = some nConciliumId

/-- What `getContract` returns is what a new block upon the tip starts from, and what the
last writer below it wrote. It returns nothing only if nobody below the tip wrote the
contract. -/
structure CurrentAt (F : Factory) (J : Dagjs) (pbm : PendingBlocksManager) (journal : Journal)
    (addr : Address) (nConciliumId : Nat) (tip : Hash) : Prop where
  found : ∀ contract, pbm.getContract J addr nConciliumId = some contract →
    (∃ patchMerged, pbm.mergePatches F [tip] = .ok patchMerged ∧
      (patchMerged.getContract addr).map (·.contents F) = some (contract.contents F)) ∧
    ((∃ u, pbm.dag.Reaches tip u ∧ journal.WroteAs u nConciliumId addr) →
      ∃ w b, LastWriter pbm.dag journal nConciliumId addr tip w ∧ pbm.dag.readObj w = some b ∧
        (b.patch.getContract addr).map (·.contents F) = some (contract.contents F))
  missing : pbm.getContract J addr nConciliumId = none →
    ∀ u, pbm.dag.Reaches tip u → ¬ journal.Wrote u addr

/-- The lookup of a contract is current at each tip with the highest level. -/
def IsCurrent (F : Factory) (J : Dagjs) (pbm : PendingBlocksManager) (journal : Journal)
    (addr : Address) (nConciliumId : Nat) : Prop :=
  ∀ tip, HighestTip pbm.dag nConciliumId tip → CurrentAt F J pbm journal addr nConciliumId tip

/-- A block of the concilium without transactions is on its highest level, or no block below
a tip with that level has written the contract. -/
def Findable (dag : PendingDag) (journal : Journal) (addr : Address) (nConciliumId : Nat) :
    Prop :=
  (∃ v b, dag.readObj v = some b ∧ b.blockHeader.conciliumId = nConciliumId ∧ journal.Bare v ∧
    ∀ w b', dag.readObj w = some b' →
      b'.patch.levelOf nConciliumId ≤ b.patch.levelOf nConciliumId) ∨
  ∀ tip, HighestTip dag nConciliumId tip → ∀ u, dag.Reaches tip u → ¬ journal.Wrote u addr

/-! ### The lookup -/

namespace PendingBlocksManager

section Lookup

variable {F : Factory} {J : Dagjs} {dag : PendingDag} {pbm : PendingBlocksManager}
  {nConciliumId : Nat} {v : Hash} {b : PendingBlock}

theorem getLevel_eq_some_iff {patch : PatchDB} {level : Nat} (hne : level ≠ 0) :
    patch.getLevel (some nConciliumId) = some level ↔ patch.levelOf nConciliumId = level := by
  rw [PatchDB.getLevel, PatchDB.levelOf, Option.some_or, Option.bind_some]
  cases patch.mapConciliumLevel.lookup nConciliumId with
  | none => simp [hne.symm]
  | some n => simp

/-- The best tip is on the highest level of all tips. -/
theorem bestTip_spec (dag : PendingDag) (nConciliumId : Nat) (arrTips : List Hash) :
    ∀ best : Hash × Nat,
    best.2 ≤ (bestTip dag nConciliumId arrTips best).2 ∧
      (∀ tip ∈ arrTips, ∀ b, dag.readObj tip = some b →
        b.patch.levelOf nConciliumId ≤ (bestTip dag nConciliumId arrTips best).2) ∧
      (bestTip dag nConciliumId arrTips best = best ∨
        (bestTip dag nConciliumId arrTips best).1 ∈ arrTips ∧
          ∃ b, dag.readObj (bestTip dag nConciliumId arrTips best).1 = some b ∧
            b.patch.levelOf nConciliumId = (bestTip dag nConciliumId arrTips best).2) := by
  induction arrTips with
  | nil => exact fun best => ⟨le_rfl, fun tip htip => absurd htip List.not_mem_nil, .inl rfl⟩
  | cons hash rest ih =>
      intro best
      have hlevel {b : PendingBlock} (hb : dag.readObj hash = some b) :
          ((dag.readObj hash).bind (·.patch.getLevel (some nConciliumId))).getD 0 =
            b.patch.levelOf nConciliumId := by
        rw [hb]
        rfl
      rw [bestTip]
      split
      next hgt =>
        obtain ⟨hstart, hrest, hmem⟩ := ih (hash,
          ((dag.readObj hash).bind (·.patch.getLevel (some nConciliumId))).getD 0)
        refine ⟨(Nat.le_of_lt hgt).trans hstart, fun tip htip b hb => ?_, .inr ?_⟩
        · rcases List.mem_cons.mp htip with rfl | htip
          · rw [← hlevel hb]
            exact hstart
          · exact hrest tip htip b hb
        · rcases hmem with heq | ⟨hmem, hb⟩
          · rw [heq]
            cases hb : dag.readObj hash with
            | none => simp [hb] at hgt
            | some b => exact ⟨List.mem_cons_self, b, rfl, rfl⟩
          · exact ⟨List.mem_cons_of_mem _ hmem, hb⟩
      next hle =>
        obtain ⟨hstart, hrest, hmem⟩ := ih best
        refine ⟨hstart, fun tip htip b hb => ?_, hmem.imp_right ?_⟩
        · rcases List.mem_cons.mp htip with rfl | htip
          · rw [← hlevel hb]
            exact (not_lt.mp hle).trans hstart
          · exact hrest tip htip b hb
        · exact fun hmem => ⟨List.mem_cons_of_mem _ hmem.1, hmem.2⟩

/-- All pending blocks are on levels up to that of the best tip. -/
theorem levelOf_le_bestTip (J : Dagjs) (nConciliumId : Nat) (hdag : dag.Acyclic)
    (hlevels : LevelsGrow dag) (hb : dag.readObj v = some b) (best : Hash × Nat) :
    b.patch.levelOf nConciliumId ≤ (bestTip dag nConciliumId (J.tips dag) best).2 := by
  obtain ⟨tip, htip, hreach⟩ := hdag.exists_tip (Dag.mem_iff.mpr ⟨b, hb⟩)
  obtain ⟨b', hb'⟩ := Dag.mem_iff.mp htip.1
  exact (hlevels.le_of_reaches hreach hb' hb nConciliumId).trans
    ((bestTip_spec dag nConciliumId _ best).2.1 tip ((J.mem_tips dag tip).mpr htip) b' hb')

/-- The block that is found is on the highest level. -/
theorem contractVertex_eq_some (hdag : pbm.dag.Acyclic) (hlevels : LevelsGrow pbm.dag)
    (h : pbm.contractVertex J nConciliumId = some v) :
    ∃ b, pbm.dag.readObj v = some b ∧ b.patch.conciliumId = some nConciliumId ∧
      b.patch.levelOf nConciliumId ≠ 0 ∧
        ∀ w b', pbm.dag.readObj w = some b' →
          b'.patch.levelOf nConciliumId ≤ b.patch.levelOf nConciliumId := by
  unfold contractVertex at h
  dsimp only at h
  split at h
  next => cases h
  next hne =>
    have hfound := List.find?_some h
    obtain ⟨b, hb, hcheck⟩ := (Option.any_eq_true _ _).mp hfound
    obtain ⟨hlevel, hconcilium⟩ := of_decide_eq_true hcheck
    rw [getLevel_eq_some_iff hne] at hlevel
    refine ⟨b, hb, hconcilium, hlevel ▸ hne, fun w b' hb' => ?_⟩
    rw [hlevel]
    exact levelOf_le_bestTip J nConciliumId hdag hlevels hb' _

/-- A block is found if the patch of one on the highest level has kept its concilium. -/
theorem contractVertex_ne_none (hdag : pbm.dag.Acyclic) (hlevels : LevelsGrow pbm.dag)
    (hb : pbm.dag.readObj v = some b) (hconcilium : b.patch.conciliumId = some nConciliumId)
    (hpositive : b.patch.levelOf nConciliumId ≠ 0)
    (hhighest : ∀ w b', pbm.dag.readObj w = some b' →
      b'.patch.levelOf nConciliumId ≤ b.patch.levelOf nConciliumId)
    (habove : ∀ w b', pbm.dag.readObj w = some b' →
      b.patch.levelOf nConciliumId ≤ b'.patch.levelOf nConciliumId → pbm.dag.Reaches w v) :
    pbm.contractVertex J nConciliumId ≠ none := by
  have hle := levelOf_le_bestTip J nConciliumId hdag hlevels hb (0, 0)
  have hne : (bestTip pbm.dag nConciliumId (J.tips pbm.dag) (0, 0)).2 ≠ 0 := by omega
  obtain ⟨htip, b', hb', hlevel⟩ := (bestTip_spec pbm.dag nConciliumId (J.tips pbm.dag)
    (0, 0)).2.2.resolve_left fun heq => hne (by rw [heq])
  have hsame := le_antisymm hle (hlevel ▸ hhighest _ b' hb')
  have hreach := habove _ b' hb' (hlevel ▸ hle)
  unfold contractVertex
  dsimp only
  rw [if_neg hne, ne_eq, List.find?_eq_none]
  intro hnot
  refine hnot v ((J.mem_flatten_findPathsDown hdag (Dag.mem_iff.mpr ⟨b', hb'⟩)).mpr hreach) ?_
  rw [hb, Option.any_some, decide_eq_true_eq]
  exact ⟨(getLevel_eq_some_iff hne).mpr hsame, hconcilium⟩

end Lookup

end PendingBlocksManager

namespace Tracked

open PendingBlocksManager ChainState

section Lookup

variable {F : Factory} {J : Dagjs} {pbm : PendingBlocksManager} {journal : Journal}
  {addr : Address} {nConciliumId : Nat} {tip v : Hash} {b top : PendingBlock}

/-- A tip with the highest level has the version of a block on that level. -/
theorem entry_tip (h : Tracked F pbm.dag journal) (hof : OfConcilium pbm.dag addr nConciliumId)
    (htip : HighestTip pbm.dag nConciliumId tip) (htop : pbm.dag.readObj tip = some top)
    (hb : pbm.dag.readObj v = some b)
    (hhighest : ∀ w b', pbm.dag.readObj w = some b' →
      b'.patch.levelOf nConciliumId ≤ b.patch.levelOf nConciliumId) {contract : Contract}
    (hcontract : b.patch.getContract addr = some contract) :
    (top.patch.versions F).entry addr = some (nConciliumId, contract.contents F) := by
  obtain ⟨C, hfollows⟩ := h.follows
  have hentry := PatchDB.entry_of_getContract F hcontract (hof v b contract hb hcontract)
  exact (hfollows v b hb).shown.entry_eq_of_level (hfollows tip top htop).shown hentry
    (le_antisymm (htip.2 top htop v b hb) (hhighest tip top htop))

/-- A new block upon one tip starts from the versions of the tip. -/
theorem exists_mergePatches (h : Tracked F pbm.dag journal) (htop : pbm.dag.readObj tip = some top)
    {contents : Data × Amount}
    (hentry : (top.patch.versions F).entry addr = some (nConciliumId, contents)) :
    ∃ patchMerged, pbm.mergePatches F [tip] = .ok patchMerged ∧
      (patchMerged.getContract addr).map (·.contents F) = some contents := by
  obtain ⟨C, hfollows⟩ := h.follows
  have htopFollows := hfollows tip top htop
  obtain ⟨patchMerged, hmerge⟩ := htopFollows.placed.merge_empty (F := F)
  refine ⟨patchMerged, ?_, ?_⟩
  · simp only [mergePatches, mergePatchesFrom, htop, hmerge]
  · have hfollowsMerged := htopFollows.merge (follows_empty F C) hmerge
    have hlevel : top.patch.levelOf nConciliumId = patchMerged.levelOf nConciliumId := by
      rw [PatchDB.levelOf_merge hmerge]
      exact (max_eq_left (Nat.zero_le _)).symm
    have hmergedEntry := htopFollows.shown.entry_eq_of_level hfollowsMerged.shown hentry hlevel
    obtain ⟨contract, hcontract, -, hcontents⟩ := PatchDB.entry_versions.mp hmergedEntry
    rw [hcontract, Option.map_some, hcontents]

theorem getContract_eq (hvertex : pbm.contractVertex J nConciliumId = some v)
    (hb : pbm.dag.readObj v = some b) :
    pbm.getContract J addr nConciliumId = b.patch.getContract addr := by
  rw [PendingBlocksManager.getContract, hvertex, Option.bind_some, hb, Option.bind_some]

/-- Where nothing is found although a block on the highest level can be, nobody below a tip
has written the contract. -/
theorem not_wrote (h : Tracked F pbm.dag journal) (hof : OfConcilium pbm.dag addr nConciliumId)
    (hb : pbm.dag.readObj v = some b) (hnone : b.patch.getContract addr = none)
    (hhighest : ∀ w b', pbm.dag.readObj w = some b' →
      b'.patch.levelOf nConciliumId ≤ b.patch.levelOf nConciliumId)
    {u : Hash} (hu : u ∈ pbm.dag) : ¬ journal.Wrote u addr := by
  intro hwrote
  obtain ⟨writer, hwriter⟩ := Dag.mem_iff.mp hu
  obtain ⟨contract, hcontract⟩ :=
    Option.ne_none_iff_exists'.mp (h.wrote u writer addr hwriter hwrote)
  obtain ⟨C, hfollows⟩ := h.follows
  obtain ⟨contents, hentry⟩ := (hfollows u writer hwriter).shown.entry_of_le
    (hfollows v b hb).shown
    (PatchDB.entry_of_getContract F hcontract (hof u writer contract hwriter hcontract))
    (hhighest u writer hwriter)
  obtain ⟨found, hfound, -⟩ := PatchDB.entry_versions.mp hentry
  rw [hnone] at hfound
  cases hfound

theorem isCurrent_of_findable (h : Tracked F pbm.dag journal)
    (hof : OfConcilium pbm.dag addr nConciliumId)
    (hfindable : Findable pbm.dag journal addr nConciliumId) :
    IsCurrent F J pbm journal addr nConciliumId := by
  intro tip htip
  obtain ⟨top, htop⟩ := Dag.mem_iff.mp htip.1.1
  refine ⟨fun contract hcontract => ?_, fun hnone u hreach => ?_⟩
  · rw [PendingBlocksManager.getContract, Option.bind_eq_some_iff] at hcontract
    obtain ⟨b, hvertex, hcontract⟩ := hcontract
    obtain ⟨v, hvertex, hb⟩ := Option.bind_eq_some_iff.mp hvertex
    obtain ⟨b', hb', -, -, hhighest⟩ := contractVertex_eq_some h.acyclic h.levels hvertex
    obtain rfl : b = b' := Option.some.inj (hb.symm.trans hb')
    have hentry := h.entry_tip hof htip htop hb hhighest hcontract
    refine ⟨h.exists_mergePatches htop hentry, fun hwriter => ?_⟩
    obtain ⟨w, writer, hlast, hw, hwEntry⟩ := h.last tip top addr nConciliumId _ htop hentry hwriter
    refine ⟨w, writer, hlast, hw, ?_⟩
    obtain ⟨written, hwritten, -, hcontents⟩ := PatchDB.entry_versions.mp hwEntry
    rw [hwritten, Option.map_some, hcontents]
  · rcases hfindable with ⟨v, b, hb, hconcilium, ⟨e, he, hbare⟩, hhighest⟩ | hunwritten
    · -- a block without transactions has kept its concilium, so the lookup finds a block
      obtain ⟨e', he', -, hkept⟩ := h.recorded v b hb
      obtain rfl : e = e' := Option.some.inj (he.symm.trans he')
      rw [if_pos hbare, hconcilium] at hkept
      have hpositive := h.positive v b hb
      rw [hconcilium] at hpositive
      have hne := contractVertex_ne_none (J := J) h.acyclic h.levels hb hkept hpositive hhighest
        fun w b' hb' hle => h.above w v b' b hb' hb (by rwa [hconcilium])
      obtain ⟨v', hvertex⟩ := Option.ne_none_iff_exists'.mp hne
      obtain ⟨b', hb', -, -, hhighest'⟩ := contractVertex_eq_some h.acyclic h.levels hvertex
      rw [getContract_eq hvertex hb'] at hnone
      exact h.not_wrote hof hb' hnone hhighest' (hreach.mem htip.1.1)
    · exact hunwritten tip htip u hreach

theorem findable_of_isCurrent (h : Tracked F pbm.dag journal)
    (hcurrent : IsCurrent F J pbm journal addr nConciliumId) :
    Findable pbm.dag journal addr nConciliumId := by
  cases hvertex : pbm.contractVertex J nConciliumId with
  | none =>
      refine .inr fun tip htip u hreach => (hcurrent tip htip).missing ?_ u hreach
      rw [PendingBlocksManager.getContract, hvertex, Option.bind_none, Option.bind_none]
  | some v =>
      -- only the patch of a block without transactions has a concilium
      obtain ⟨b, hb, hconcilium, -, hhighest⟩ :=
        contractVertex_eq_some h.acyclic h.levels hvertex
      obtain ⟨e, he, -, hkept⟩ := h.recorded v b hb
      rw [hconcilium] at hkept
      by_cases hbare : e.block.txns.tail = []
      · rw [if_pos hbare] at hkept
        exact .inl ⟨v, b, hb, (Option.some.inj hkept).symm, ⟨e, he, hbare⟩, hhighest⟩
      · rw [if_neg hbare] at hkept
        cases hkept

end Lookup

end Tracked

section Sample

open ChainState

/-- The only pending block is a tip with the highest level. -/
theorem highestTip_of_single {dag : PendingDag} {v : Hash} {nConciliumId : Nat}
    (htip : dag.IsTip v) (honly : ∀ w, w ∈ dag → w = v) : HighestTip dag nConciliumId v := by
  refine ⟨htip, fun b hb w b' hb' => ?_⟩
  obtain rfl := honly w (Dag.mem_iff.mpr ⟨b', hb'⟩)
  obtain rfl : b = b' := Option.some.inj (hb.symm.trans hb')
  exact le_rfl

/-- The block is the only pending one, and the contract 78 of its patch belongs to
concilium 1. -/
def onlyPending (block : Block) (s : ChainState) : Bool :=
  decide (s.pendingBlocks.dag.objs.keys = [block.hash twoConciliums]) &&
    decide (block.hash twoConciliums ∈ Dagjs.sample.tips s.pendingBlocks.dag) &&
    (s.pendingBlocks.dag.readObj (block.hash twoConciliums)).all fun b =>
      (b.patch.getContract 78).all fun contract => contract.conciliumId = some 1

theorem onlyPending_spec {block : Block} {s : ChainState} (h : onlyPending block s = true) :
    HighestTip s.pendingBlocks.dag 1 (block.hash twoConciliums) ∧
      OfConcilium s.pendingBlocks.dag 78 1 := by
  rw [onlyPending, Bool.and_eq_true, Bool.and_eq_true, decide_eq_true_eq, decide_eq_true_eq] at h
  obtain ⟨⟨hkeys, htip⟩, hconcilium⟩ := h
  have honly : ∀ w, w ∈ s.pendingBlocks.dag → w = block.hash twoConciliums := by
    intro w hw
    have hmem : w ∈ s.pendingBlocks.dag.objs.keys := hw
    rw [hkeys] at hmem
    exact List.mem_singleton.mp hmem
  refine ⟨highestTip_of_single ((Dagjs.sample.mem_tips _ _).mp htip) honly, ?_⟩
  intro v b contract hb hcontract
  obtain rfl := honly v (Dag.mem_iff.mpr ⟨b, hb⟩)
  rw [hb, Option.all_some, hcontract, Option.all_some, decide_eq_true_eq] at hconcilium
  exact hconcilium

/-- A block without transactions, upon genesis. -/
theorem keepsCurrent_forkedBlock :
    KeepsCurrent twoConciliums Dagjs.sample afterGenesis ∅ noContracts (forkedBlock 1) where
  highest v b hb := absurd (Dag.mem_iff.mpr ⟨b, hb⟩) (Dag.notMem_empty v)
  keeps _ _ _ _ := trivial
  purges patchState r after hexec _ := by
    obtain ⟨patch, hpatch, hempty⟩ := exists_ok_of_any
      (x := (afterGenesis.arrived twoConciliums (forkedBlock 1)).execBlock twoConciliums
        (some (forkedBlock 1).getHeight) noContracts (forkedBlock 1))
      (p := fun patch => patch.all fun patch : PatchDB => decide (patch.mapContractStates.keys = ∅))
      (by decide +kernel)
    rw [hexec] at hpatch
    obtain rfl := Except.ok.inj hpatch
    have hnone {v : Hash} {b : PendingBlock} {addr : Address}
        (hb : (afterGenesis.pendingBlocks.addBlock twoConciliums (forkedBlock 1)
          patchState).dag.readObj v = some b) : b.patch.getContract addr = none := by
      rcases PendingBlocksManager.readObj_addBlock twoConciliums hb with ⟨-, rfl⟩ | ⟨-, hb⟩
      · have hkeys : patchState.mapContractStates.keys = ∅ := by simpa using hempty
        rw [PatchDB.getContract, ← FinMap.notMem_keys_iff, hkeys]
        exact Finset.notMem_empty addr
      · exact absurd (Dag.mem_iff.mpr ⟨b, hb⟩) (Dag.notMem_empty v)
    refine ⟨fun v _ b addr hb hsame => ?_, fun v _ w _ b b' addr contract k hb _ _ hcontract => ?_⟩
    · obtain ⟨contract, hcontract, -⟩ := hsame
      rw [hnone hb] at hcontract
      cases hcontract
    · rw [hnone hb] at hcontract
      cases hcontract

end Sample

end CilCore
