import CilCore.Node.LinearLedger

/-!
# Runs of payments against one ledger

A finality event writes the payments of the new stable blocks to storage, and purges the
patches of those that stay pending. So what is stored, and what is seen on top of a pending
block, is in every run what one ledger has.
-/

namespace CilCore

open Ledger PatchDB ChainState PendingBlocksManager

section Settle

variable {F : Factory} {J : Dagjs} {start : Storage} {blocks : List Block} {s s' : ChainState}
  {newVertex : Hash} {nConciliumCount : Nat} {r : FinalityResult} {after : PendingBlocksManager}

/-- An output is created once. -/
theorem created_unique {all : Set Deed} (hsound : Sound start all) {key : Input} {coins coins' : Coins}
    (h : (baseOf start).lookup key = some coins ∨ ∃ deed ∈ all, (key, coins) ∈ deed.2.outputs)
    (h' : (baseOf start).lookup key = some coins' ∨ ∃ deed ∈ all, (key, coins') ∈ deed.2.outputs) :
    coins = coins' := by
  have hnone {coins : Coins} {deed : Deed} (hdeed : deed ∈ all)
      (houtput : (key, coins) ∈ deed.2.outputs) : (baseOf start).lookup key = none := by
    have hname := hsound.named.placed deed hdeed key (List.mem_map.mpr ⟨_, houtput, rfl⟩)
    rw [lookup_baseOf, hname, hsound.unknown deed hdeed]
    rfl
  obtain hbase | ⟨deed, hdeed, houtput⟩ := h
  · obtain hbase' | ⟨other, hother, houtput'⟩ := h'
    · exact Option.some.inj (hbase.symm.trans hbase')
    · rw [hnone hother houtput'] at hbase
      cases hbase
  · obtain hbase' | ⟨other, hother, houtput'⟩ := h'
    · rw [hnone hdeed houtput] at hbase'
      cases hbase'
    · have hname := hsound.named.placed deed hdeed key (List.mem_map.mpr ⟨_, houtput, rfl⟩)
      have hname' := hsound.named.placed other hother key (List.mem_map.mpr ⟨_, houtput', rfl⟩)
      obtain rfl := hsound.named.unique deed hdeed other hother (hname.symm.trans hname')
      have hdistinct := hsound.named.distinct deed hdeed
      exact Option.some.inj (((lookup_eq_some_iff hdistinct).mpr houtput).symm.trans
        ((lookup_eq_some_iff hdistinct).mpr houtput'))

theorem exists_values {all : Set Deed} (hsound : Sound start all) :
    ∃ value, Values start all value := by
  have hvalue : ∀ key, ∃ amount : Amount, ∀ coins, ((baseOf start).lookup key = some coins ∨
      ∃ deed ∈ all, (key, coins) ∈ deed.2.outputs) → amount = coins.amount := by
    intro key
    by_cases hcreated : ∃ coins, (baseOf start).lookup key = some coins ∨
        ∃ deed ∈ all, (key, coins) ∈ deed.2.outputs
    · obtain ⟨coins, hcoins⟩ := hcreated
      exact ⟨coins.amount, fun coins' hcoins' => by rw [created_unique hsound hcoins hcoins']⟩
    · exact ⟨0, fun coins hcoins => absurd ⟨coins, hcoins⟩ hcreated⟩
  choose value hvalue using hvalue
  exact ⟨value, hvalue⟩

/-- Fees depend on the outputs that are spent. -/
theorem PaysFees.restrict {all all' : Set Deed} {deeds : List Deed} {fees : Amount}
    (h : PaysFees start all deeds fees) (hsound : Sound start all) (hsub : all' ⊆ all)
    (hcreated : ∀ deed ∈ deeds, ∀ key ∈ deed.2.inputs, ∃ coins,
      (baseOf start).lookup key = some coins ∨ ∃ other ∈ all', (key, coins) ∈ other.2.outputs) :
    PaysFees start all' deeds fees := by
  intro value' hvalue'
  obtain ⟨value, hvalue⟩ := exists_values hsound
  have hsame : ∀ deed ∈ deeds, feeBy value' deed = feeBy value deed := by
    intro deed hdeed
    rw [feeBy, feeBy]
    refine congrArg (· - _) (congrArg List.sum (List.map_congr_left fun key hkey => ?_))
    obtain ⟨coins, hcoins⟩ := hcreated deed hdeed key hkey
    have hcoinsAll : (baseOf start).lookup key = some coins ∨
        ∃ other ∈ all, (key, coins) ∈ other.2.outputs :=
      hcoins.imp_right (Exists.imp fun _ => And.imp_left fun hother => hsub hother)
    rw [hvalue' key coins hcoins, hvalue key coins hcoinsAll]
  obtain ⟨hsum, hpos⟩ := h value hvalue
  refine ⟨?_, fun deed hdeed => hsame deed hdeed ▸ hpos deed hdeed⟩
  rw [hsum, List.map_congr_left hsame]

/-- Marking blocks as stable flags their infos, and no others. -/
theorem getBlockInfo_markStable {vs : List Hash} {mainDag mainDag' : MainDag} {n n' : Nat}
    (hkeyed : ∀ v ∈ vs, ∀ info, mainDag.getBlockInfo v = some info → info.getHash F = v)
    (h : markStable F vs mainDag n = .ok (mainDag', n')) (hash : Hash) :
    mainDag'.getBlockInfo hash =
      if hash ∈ vs then (mainDag.getBlockInfo hash).map (·.markAsFinal)
      else mainDag.getBlockInfo hash := by
  induction vs generalizing mainDag n with
  | nil =>
      cases h
      rfl
  | cons v rest ih =>
      rw [markStable] at h
      split at h
      next => cases h
      next info hinfo =>
        have hset (hash : Hash) : (mainDag.setBlockInfo F info.markAsFinal).getBlockInfo hash =
            if hash = v then some info.markAsFinal else mainDag.getBlockInfo hash := by
          rw [MainDag.getBlockInfo_setBlockInfo]
          have hkey : info.markAsFinal.getHash F = v := hkeyed v List.mem_cons_self info hinfo
          rw [hkey]
        rw [ih (fun w hw other hother => ?_) h, hset]
        · by_cases heq : hash = v
          · subst heq
            simp [hinfo, BlockInfo.markAsFinal]
          · simp [heq]
        · rw [hset] at hother
          split at hother
          next heq =>
            cases hother
            exact heq ▸ hkeyed v List.mem_cons_self info hinfo
          next => exact hkeyed w (List.mem_cons_of_mem _ hw) other hother

theorem getBlockInfo_removeBlocks_of_mem {vs : List Hash} {mainDag : MainDag} {v : Hash}
    (hv : v ∈ vs) :
    (vs.foldl (fun mainDag hash => mainDag.removeBlock hash) mainDag).getBlockInfo v = none := by
  induction vs generalizing mainDag with
  | nil => cases hv
  | cons hash rest ih =>
      rw [List.foldl_cons]
      by_cases hrest : v ∈ rest
      · exact ih hrest
      · obtain rfl := (List.mem_cons.mp hv).resolve_right hrest
        rw [getBlockInfo_removeBlocks hrest, MainDag.getBlockInfo_removeBlock, if_pos rfl]

/-- Branches that share no block with others are rolled back whole. -/
theorem upClosed_rollback {pbm : PendingBlocksManager} (hdag : pbm.dag.Acyclic)
    (hnew : newVertex ∈ pbm.dag) (hdisjoint : BranchesDisjoint F J pbm newVertex nConciliumCount)
    (h : pbm.checkFinality F J newVertex nConciliumCount = .ok (some r, after)) {u v : Hash}
    (hv : v ∈ r.setBlocksToRollback) (hreach : pbm.dag.Reaches u v) : u ∈ r.setBlocksToRollback := by
  obtain ⟨htop, hmerge, hr, rfl⟩ := checkFinality_ok h
  have hset : r.setStableBlocks = pbm.findAlsoStable J r.arrTopStable := by rw [hr]; rfl
  have hclosed : pbm.dag.DownClosed r.setStableBlocks := by
    rw [hset]
    refine downClosed_findAlsoStable hdag fun vertex hvertex => ?_
    rw [htop] at hvertex
    exact (reaches_of_mem_findTopStable hdag hnew hvertex).mem hnew
  have hshared := hdisjoint r.patchToApply (htop ▸ hmerge)
  have hrest : pbm.unsettled J newVertex nConciliumCount =
      pbm.dag.removeVertices r.setStableBlocks := by rw [hset, htop]; rfl
  rw [hrest, noSharedBranch_iff (hdag.removeVertices _) (J := J), ← setBlocksToRollback_eq h]
    at hshared
  exact hshared v hv u ((hclosed.reaches_removeVertices (mem_of_rollback hdag h hv).2).mpr hreach)

/-- What `_processFinalityResults` leaves. -/
theorem processFinalityResults_some (h : processFinalityResults F (some r) s = .ok s') :
    ∃ mainDag nHeightMax, markStable F r.setStableBlocks s.mainDag 0 = .ok (mainDag, nHeightMax) ∧
      s' = { storage := s.storage.applyPatch F r.patchToApply nHeightMax
             pendingBlocks := s.pendingBlocks
             mainDag := r.setBlocksToRollback.foldl (fun mainDag hash => mainDag.removeBlock hash)
              mainDag } := by
  unfold processFinalityResults at h
  dsimp only at h
  split at h
  next => cases h
  next mainDag nHeightMax hmark => exact ⟨mainDag, nHeightMax, hmark, (Except.ok.inj h).symm⟩

/-- The infos after a finality event. -/
theorem Linear.getBlockInfo_settle (h : Linear F start blocks s)
    (hnew : newVertex ∈ s.pendingBlocks.dag)
    (hcheck : s.pendingBlocks.checkFinality F J newVertex nConciliumCount = .ok (some r, after))
    (hresult : processFinalityResults F (some r) { s with pendingBlocks := after } = .ok s')
    (hash : Hash) :
    s'.mainDag.getBlockInfo hash =
      if hash ∈ r.setBlocksToRollback then none
      else if hash ∈ r.setStableBlocks then (s.mainDag.getBlockInfo hash).map (·.markAsFinal)
      else s.mainDag.getBlockInfo hash := by
  obtain ⟨mainDag, nHeightMax, hmark, rfl⟩ := processFinalityResults_some hresult
  have hpending := (mem_of_checkFinality h.acyclic hnew hcheck).2
  have hmarked := getBlockInfo_markStable (fun v hv info hinfo => by
    obtain ⟨other, hother, hkey, -⟩ := h.known v (hpending v hv)
    obtain rfl := Option.some.inj (hinfo.symm.trans hother)
    exact hkey) hmark hash
  split
  next hgone => exact getBlockInfo_removeBlocks_of_mem hgone
  next hstays => rw [getBlockInfo_removeBlocks hstays, hmarked]

/-- What is final after a finality event: the blocks that have become stable, too. -/
theorem Linear.isFinal_settle (h : Linear F start blocks s) (hnew : newVertex ∈ s.pendingBlocks.dag)
    (hcheck : s.pendingBlocks.checkFinality F J newVertex nConciliumCount = .ok (some r, after))
    (hresult : processFinalityResults F (some r) { s with pendingBlocks := after } = .ok s')
    (hash : Hash) :
    s'.IsFinal hash ↔ hash ∉ r.setBlocksToRollback ∧ (hash ∈ r.setStableBlocks ∨ s.IsFinal hash) := by
  rw [ChainState.IsFinal, h.getBlockInfo_settle hnew hcheck hresult]
  by_cases hgone : hash ∈ r.setBlocksToRollback
  · simp [hgone]
  · by_cases hstable : hash ∈ r.setStableBlocks
    · obtain ⟨info, hinfo, -, -⟩ :=
        h.known hash ((mem_of_checkFinality h.acyclic hnew hcheck).2 hash hstable)
      simp [hgone, hstable, hinfo, BlockInfo.isFinal, BlockInfo.markAsFinal]
    · simp [hgone, hstable, ChainState.IsFinal]

/-- The stable blocks are those below the top stable ones. -/
theorem mem_setStableBlocks {pbm : PendingBlocksManager} (hdag : pbm.dag.Acyclic)
    (hnew : newVertex ∈ pbm.dag)
    (h : pbm.checkFinality F J newVertex nConciliumCount = .ok (some r, after)) {w : Hash} :
    w ∈ r.setStableBlocks ↔ ∃ vertex ∈ r.arrTopStable, pbm.dag.Reaches vertex w := by
  obtain ⟨-, -, hr, -⟩ := checkFinality_ok h
  have hset : r.setStableBlocks = pbm.findAlsoStable J r.arrTopStable := by rw [hr]; rfl
  rw [hset, mem_findAlsoStable hdag (mem_of_checkFinality hdag hnew h).1]

/-- The patch that is applied is the view of the blocks that become stable. -/
theorem Linear.view_patchToApply (h : Linear F start blocks s) (hnew : newVertex ∈ s.pendingBlocks.dag)
    (hcheck : s.pendingBlocks.checkFinality F J newVertex nConciliumCount = .ok (some r, after)) :
    ViewOf start (deedsWhere F blocks fun _ => True) (deedsWhere F blocks s.IsFinal)
      (deedsWhere F blocks (· ∈ r.setStableBlocks)) r.patchToApply := by
  obtain ⟨-, hmerge, -, -⟩ := checkFinality_ok hcheck
  have hview := mergePatchesFrom_view h.views (viewOf_empty h.stable) hmerge
  suffices hmine : deedsWhere F blocks (· ∈ r.setStableBlocks) = ∅ ∪ {deed | ∃ v ∈ r.arrTopStable,
      v ∈ s.pendingBlocks.dag ∧ deed ∈ deedsWhere F blocks (s.pendingBlocks.dag.Reaches v)} by
    rwa [hmine]
  rw [Set.empty_union]
  symm
  ext deed
  constructor
  · rintro ⟨v, hv, -, block, hblock, hreach, hdeed⟩
    exact ⟨block, hblock, (mem_setStableBlocks h.acyclic hnew hcheck).mpr ⟨v, hv, hreach⟩, hdeed⟩
  · rintro ⟨block, hblock, hstable, hdeed⟩
    obtain ⟨v, hv, hreach⟩ := (mem_setStableBlocks h.acyclic hnew hcheck).mp hstable
    exact ⟨v, hv, (mem_of_checkFinality h.acyclic hnew hcheck).1 v hv, block, hblock, hreach, hdeed⟩

/-- What remains pending spends nothing that has been spent in the blocks that become stable: it
is below the new block, or below a tip whose patch can still be merged. -/
theorem Linear.free_remaining (h : Linear F start blocks s) (hnew : newVertex ∈ s.pendingBlocks.dag)
    (hcheck : s.pendingBlocks.checkFinality F J newVertex nConciliumCount = .ok (some r, after))
    {v : Hash} (hv : v ∈ after.dag) :
    NoDoubleSpend ((deedsWhere F blocks s.IsFinal ∪ deedsWhere F blocks (· ∈ r.setStableBlocks)) ∪
      deedsWhere F blocks (s.pendingBlocks.dag.Reaches v)) := by
  have happly := h.view_patchToApply hnew hcheck
  obtain ⟨htop, -, -, rfl⟩ := checkFinality_ok hcheck
  obtain ⟨hmem, hnotStable, hnotGone⟩ := mem_settle.mp hv
  have hbelow {tip : Hash} (hreach : s.pendingBlocks.dag.Reaches tip v) :
      deedsWhere F blocks (s.pendingBlocks.dag.Reaches v) ⊆
        deedsWhere F blocks (s.pendingBlocks.dag.Reaches tip) :=
    deedsWhere_mono (fun _ => id) fun _ _ => hreach.trans
  have hrest : v ∈ s.pendingBlocks.dag.removeVertices r.setStableBlocks :=
    Dag.mem_removeVertices.mpr ⟨hmem, hnotStable⟩
  obtain ⟨tip, htip, hreach⟩ := (h.acyclic.removeVertices r.setStableBlocks).exists_tip hrest
  have hwhole : s.pendingBlocks.dag.Reaches tip v :=
    Relation.ReflTransGen.mono (fun _ _ hedge => (Dag.edge_removeVertices.mp hedge).1) tip v hreach
  obtain ⟨htipMem, htipStays⟩ := Dag.mem_removeVertices.mp htip.1
  obtain ⟨b, hb⟩ := Dag.mem_iff.mp htipMem
  rw [setBlocksToRollback_eq hcheck, mem_conflictingBranches (h.acyclic.removeVertices _)] at hnotGone
  by_cases heq : tip = newVertex
  · subst heq
    refine (h.views tip b hb).plays.free.mono (Set.union_subset (Set.union_subset ?_ ?_) ?_)
    · exact Set.subset_union_left
    · refine Set.Subset.trans ?_ Set.subset_union_right
      refine deedsWhere_mono (fun _ => id) fun block _ hstable => ?_
      obtain ⟨w, hw, hreach⟩ := (mem_setStableBlocks h.acyclic hnew hcheck).mp hstable
      rw [htop] at hw
      exact (reaches_of_mem_findTopStable h.acyclic hnew hw).trans hreach
    · exact (hbelow hwhole).trans Set.subset_union_right
  · have hmerges : conflicting F (s.pendingBlocks.dag.removeVertices r.setStableBlocks)
        r.patchToApply tip = false := by
      by_contra hconflict
      exact hnotGone ⟨tip, ⟨htip, heq, by simpa using hconflict⟩, hreach⟩
    rw [conflicting, Dag.readObj_removeVertices, if_neg htipStays, hb] at hmerges
    dsimp only at hmerges
    split at hmerges
    next => cases hmerges
    next merged hmerge =>
      refine ((h.views tip b hb).merge happly hmerge).plays.free.mono ?_
      rw [Set.union_assoc]
      refine Set.union_subset_union_right _ (Set.union_subset ?_ ?_)
      · exact Set.subset_union_right
      · exact (hbelow hwhole).trans Set.subset_union_left

/-- A finality event: storage takes the new stable payments over, and what remains is purged. -/
theorem Linear.settle (h : Linear F start blocks s) (hnew : newVertex ∈ s.pendingBlocks.dag)
    (hcheck : s.pendingBlocks.checkFinality F J newVertex nConciliumCount = .ok (some r, after))
    (hdisjoint : BranchesDisjoint F J s.pendingBlocks newVertex nConciliumCount)
    (hresult : processFinalityResults F (some r) { s with pendingBlocks := after } = .ok s') :
    Linear F start (blocks.filter fun block => s'.isBlockExecuted (block.hash F)) s' := by
  obtain ⟨hpending, nHeightMax, hstorage⟩ : s'.pendingBlocks = after ∧ ∃ nHeightMax,
      s'.storage = s.storage.applyPatch F r.patchToApply nHeightMax := by
    obtain ⟨mainDag, nHeightMax, -, rfl⟩ := processFinalityResults_some hresult
    exact ⟨rfl, nHeightMax, rfl⟩
  have hfinal := h.isFinal_settle hnew hcheck hresult
  have hinfo := h.getBlockInfo_settle hnew hcheck hresult
  subst hpending
  have happly := h.view_patchToApply hnew hcheck
  have hup {u v : Hash} := upClosed_rollback h.acyclic hnew hdisjoint hcheck (u := u) (v := v)
  have hreaches {v w : Hash} := reaches_settle h.acyclic hnew hcheck (v := v) (w := w)
  have hgone {v : Hash} := mem_of_rollback h.acyclic hcheck (v := v)
  have hafter {v : Hash} : v ∈ s'.pendingBlocks.dag ↔ v ∈ s.pendingBlocks.dag ∧
      v ∉ r.setStableBlocks ∧ v ∉ r.setBlocksToRollback := by
    rw [(checkFinality_ok hcheck).2.2.2]
    exact mem_settle
  have hnotGone {v : Hash} (hv : s.IsFinal v) : v ∉ r.setBlocksToRollback := by
    intro hmem
    obtain ⟨info, hinfo, -, hflag⟩ := h.known v (hgone hmem).1
    simp [ChainState.IsFinal, hinfo, hflag] at hv
  have hkept : ∀ block, block ∈ (blocks.filter fun block => s'.isBlockExecuted (block.hash F)) ↔
      block ∈ blocks ∧ block.hash F ∉ r.setBlocksToRollback := by
    intro block
    rw [List.mem_filter]
    refine and_congr_right fun hblock => ?_
    rw [isBlockExecuted, Bool.or_eq_true, hasBlock, decide_eq_true_eq, hafter]
    refine (or_congr_left (hfinal (block.hash F))).trans ⟨fun hor => ?_, fun hnot => ?_⟩
    · exact hor.elim And.left fun hmem => hmem.2.2
    · obtain hold | hpending := h.alive block hblock
      · exact .inl ⟨hnot, .inr hold⟩
      · by_cases hstable : block.hash F ∈ r.setStableBlocks
        · exact .inl ⟨hnot, .inl hstable⟩
        · exact .inr ⟨hpending, hstable, hnot⟩
  have hstable : deedsWhere F (blocks.filter fun block => s'.isBlockExecuted (block.hash F))
      s'.IsFinal = deedsWhere F blocks s.IsFinal ∪ deedsWhere F blocks (· ∈ r.setStableBlocks) := by
    ext deed
    constructor
    · rintro ⟨block, hblock, hflag, hdeed⟩
      obtain ⟨-, hnow | hbefore⟩ := (hfinal _).mp hflag
      · exact .inr ⟨block, ((hkept block).mp hblock).1, hnow, hdeed⟩
      · exact .inl ⟨block, ((hkept block).mp hblock).1, hbefore, hdeed⟩
    · rintro (⟨block, hblock, hbefore, hdeed⟩ | ⟨block, hblock, hnow, hdeed⟩)
      · have hstays := hnotGone hbefore
        exact ⟨block, (hkept block).mpr ⟨hblock, hstays⟩, (hfinal _).mpr ⟨hstays, .inr hbefore⟩, hdeed⟩
      · have hstays : block.hash F ∉ r.setBlocksToRollback := fun hmem => (hgone hmem).2 hnow
        exact ⟨block, (hkept block).mpr ⟨hblock, hstays⟩, (hfinal _).mpr ⟨hstays, .inl hnow⟩, hdeed⟩
  have hall : deedsWhere F (blocks.filter fun block => s'.isBlockExecuted (block.hash F))
      (fun _ => True) ⊆ deedsWhere F blocks fun _ => True :=
    deedsWhere_mono (fun block hblock => ((hkept block).mp hblock).1) fun _ _ => id
  have hsub : deedsWhere F (blocks.filter fun block => s'.isBlockExecuted (block.hash F))
      s'.IsFinal ⊆ deedsWhere F (blocks.filter fun block => s'.isBlockExecuted (block.hash F))
        fun _ => True := deedsWhere_mono (fun _ => id) fun _ _ _ => trivial
  have hordered : Ordered F start s'
      (blocks.filter fun block => s'.isBlockExecuted (block.hash F)) := by
    intro before block after heq earlier deed later hdeeds key hkey
    obtain ⟨olds, rest, rfl, rfl, hrest⟩ := List.filter_eq_append_iff.mp heq
    obtain ⟨dropped, news, rfl, hdropped, hblock, rfl⟩ := List.filter_eq_cons_iff.mp hrest
    have hmem : block ∈ olds ++ (dropped ++ block :: news) := by simp
    have hstays := ((hkept block).mp (List.mem_filter.mpr ⟨hmem, hblock⟩)).2
    obtain hbase | ⟨creator, houtput, hcreator⟩ := h.ordered (olds ++ dropped) block news
      (by rw [List.append_assoc]) earlier deed later hdeeds key hkey
    · exact .inl hbase
    refine .inr ⟨creator, houtput, hcreator.imp_right ?_⟩
    rintro ⟨older, holder, hor, hdeed⟩
    have holderStays : older.hash F ∉ r.setBlocksToRollback :=
      hor.elim hnotGone fun hreach hbad => hstays (hup hbad hreach)
    have hexecuted := List.mem_filter.mp ((hkept older).mpr ⟨by
      rw [← List.append_assoc]
      exact List.mem_append_left _ holder, holderStays⟩)
    have holds : older ∈ olds := (List.mem_append.mp holder).resolve_right fun hdrop =>
      hdropped older hdrop hexecuted.2
    refine ⟨older, List.mem_filter.mpr ⟨holds, hexecuted.2⟩, ?_, hdeed⟩
    have hnow := hexecuted.2
    rw [isBlockExecuted, Bool.or_eq_true, hasBlock, decide_eq_true_eq] at hnow
    refine hnow.imp_right fun hpending => (hreaches hpending).mpr ?_
    exact hor.resolve_left fun hbefore => by
      obtain ⟨info, hlookup, -, hflag⟩ := h.known _ (hafter.mp hpending).1
      simp [ChainState.IsFinal, hlookup, hflag] at hbefore
  constructor
  case acyclic => exact h.acyclic.of_edge (partOf_checkFinality hcheck).edge
  case alive =>
    intro block hblock
    have hexecuted := (List.mem_filter.mp hblock).2
    rw [isBlockExecuted, Bool.or_eq_true, hasBlock, decide_eq_true_eq] at hexecuted
    exact hexecuted
  case known =>
    intro v hv
    obtain ⟨hmem, hnow, hstays⟩ := hafter.mp hv
    rw [hinfo, if_neg hstays, if_neg hnow]
    exact h.known v hmem
  case names => exact h.names.mono fun block hblock => ((hkept block).mp hblock).1
  case coinbases => exact fun block hblock => h.coinbases block ((hkept block).mp hblock).1
  case nodup => exact fun block hblock => h.nodup block ((hkept block).mp hblock).1
  case stores =>
    rw [hstable, hstorage]
    exact h.stores.applyPatch happly.tells Set.Subset.rfl nHeightMax
  case stable =>
    rw [hstable] at hsub ⊢
    exact ⟨happly.plays.sound.mono hall, hsub, happly.plays.free, happly.plays.grounded⟩
  case views =>
    intro v b' hb'
    have hv : v ∈ s'.pendingBlocks.dag := Dag.mem_iff.mpr ⟨b', hb'⟩
    rw [(checkFinality_ok hcheck).2.2.2] at hb'
    obtain ⟨b, hb, rfl⟩ := readObj_settle hb'
    have hview := h.views v b hb
    have hleft : deedsWhere F (blocks.filter fun block => s'.isBlockExecuted (block.hash F))
        (s'.pendingBlocks.dag.Reaches v) ⊆ deedsWhere F blocks (s.pendingBlocks.dag.Reaches v) :=
      deedsWhere_mono (fun block hblock => ((hkept block).mp hblock).1) fun block _ hreach =>
        (hreaches (hreach.mem hv)).mp hreach
    have hrest : deedsWhere F blocks (s.pendingBlocks.dag.Reaches v) ⊆
        (deedsWhere F blocks s.IsFinal ∪ deedsWhere F blocks (· ∈ r.setStableBlocks)) ∪
          deedsWhere F (blocks.filter fun block => s'.isBlockExecuted (block.hash F))
            (s'.pendingBlocks.dag.Reaches v) := by
      rintro deed ⟨block, hblock, hreach, hdeed⟩
      have hmem := hreach.mem (Dag.mem_iff.mpr ⟨b, hb⟩)
      by_cases hnow : block.hash F ∈ r.setStableBlocks
      · exact .inl (.inr ⟨block, hblock, hnow, hdeed⟩)
      · have hstays : block.hash F ∉ r.setBlocksToRollback := fun hbad =>
          (hafter.mp hv).2.2 (hup hbad hreach)
        have hremains := hafter.mpr ⟨hmem, hnow, hstays⟩
        exact .inr ⟨block, (hkept block).mpr ⟨hblock, hstays⟩, (hreaches hremains).mpr hreach, hdeed⟩
    rw [hstable] at hsub ⊢
    refine hview.purge happly hleft hrest ⟨happly.plays.sound.mono hall, ?_, ?_, ?_⟩
    · exact Set.union_subset hsub (deedsWhere_mono (fun _ => id) fun _ _ _ => trivial)
    · exact (h.free_remaining hnew hcheck hv).mono (Set.union_subset_union_right _ hleft)
    · have hgrounded := happly.plays.grounded.union hview.plays.grounded
      refine (congrArg (Grounded start) ?_).mp hgrounded
      refine Set.Subset.antisymm (Set.union_subset Set.subset_union_left (Set.union_subset ?_ hrest))
        (Set.union_subset_union_right _ (hleft.trans Set.subset_union_right))
      exact Set.subset_union_left.trans Set.subset_union_left
  case ordered => exact hordered
  case priced =>
    intro block hblock
    refine (h.priced block ((hkept block).mp hblock).1).restrict h.stable.sound hall ?_
    intro deed hdeed key hkey
    obtain ⟨before, after, hblocks⟩ := List.append_of_mem hblock
    have hmem : deed ∈ block.deeds F := List.mem_append_left _ hdeed
    obtain ⟨earlier, later, hdeeds⟩ := List.append_of_mem hmem
    obtain hbase | ⟨creator, houtput, hcreator⟩ :=
      hordered before block after hblocks earlier deed later hdeeds key hkey
    · obtain ⟨coins, hcoins⟩ := FinMap.mem_keys_iff.mp hbase
      exact ⟨coins, .inl hcoins⟩
    · obtain ⟨⟨key, coins⟩, hentry, rfl⟩ := List.mem_map.mp houtput
      refine ⟨coins, .inr ⟨creator, ?_, hentry⟩⟩
      obtain hearlier | ⟨other, hother, -, hdeed⟩ := hcreator
      · exact ⟨block, hblock, trivial, hdeeds ▸ List.mem_append_left _ hearlier⟩
      · exact ⟨other, hblocks ▸ List.mem_append_left _ hother, trivial, hdeed⟩
  case fresh => exact h.fresh.filter _

end Settle

section Run

variable {F : Factory} {J : Dagjs} {start s s' : ChainState} {blocks : List Block} {block : Block}
  {vm : Transaction → Behaviour}

theorem Linear.filter_eq_self (h : Linear F start.storage blocks s) :
    (blocks.filter fun block => s.isBlockExecuted (block.hash F)) = blocks := by
  refine List.filter_eq_self.mpr fun block hblock => ?_
  rw [isBlockExecuted, Bool.or_eq_true, hasBlock, decide_eq_true_eq]
  exact h.alive block hblock

/-- **One block.** -/
theorem Linear.processBlock (hF : F.HashesHeaders) (h : Linear F start.storage blocks s)
    (hpays : PaysOnly F J start.storage blocks s vm block)
    (hstep : s.processBlock F J vm block = .ok s') :
    Linear F start.storage
      ((blocks ++ [block]).filter fun block => s'.isBlockExecuted (block.hash F)) s' := by
  have harrive := h.arrive hpays.new
  have hinfo : (s.mainDag.addBlock F (block.info F).markAsInFlight).getBlockInfo (block.hash F) =
      some (block.info F).markAsInFlight :=
    (MainDag.getBlockInfo_addBlock ..).trans (if_pos rfl)
  obtain ⟨hnone, -⟩ | ⟨patchState, hexec, haccept⟩ := processBlock_ok hstep
  · exfalso
    have hnew := hpays.new
    rw [isBlockExecuted, Bool.or_eq_false_iff] at hnew
    refine execBlock_ne_none ?_ hnone
    rw [isBlockExecuted, hinfo, hnew.2]
    rfl
  have hadded := harrive.addBlock hF hpays.genesis ⟨_, hinfo, rfl, rfl⟩ hpays.payments hpays.names
    hpays.coinbase hexec
  obtain ⟨result, hcheck, hresult⟩ := acceptBlock_ok haccept
  cases result with
  | none =>
      rw [checkFinality_none hcheck, processFinalityResults, Except.ok.injEq] at hresult
      rw [← hresult, hadded.filter_eq_self]
      exact hadded
  | some r =>
      exact hadded.settle (Dag.mem_addVertex.mpr (.inl rfl)) hcheck (hpays.disjoint _ hexec) hresult

/-- **Every run.** -/
theorem linear_of_run (hF : F.HashesHeaders) (hstart : ∀ v, v ∉ start.pendingBlocks.dag)
    (h : LedgerRun F J start blocks s) : Linear F start.storage blocks s := by
  induction h with
  | start => exact linear_start hstart
  | step _ hpays hstep ih => exact ih.processBlock hF hpays hstep

end Run

/-! ### The ledger -/

/-- The payments of the stable blocks, in the order in which the blocks were executed. -/
def stableDeeds (F : Factory) (s : ChainState) (blocks : List Block) : List Deed :=
  (blocks.filter fun block => s.IsFinal (block.hash F)).flatMap (Block.deeds F)

/-- The payments of the stable blocks, and of a pending one and those below it. -/
def deedsBelow (F : Factory) (J : Dagjs) (s : ChainState) (blocks : List Block) (v : Hash) :
    List Deed :=
  (blocks.filter fun block => s.IsFinal (block.hash F) ∨
    block.hash F ∈ (J.findPathsDown s.pendingBlocks.dag v).flatten).flatMap (Block.deeds F)

section Result

theorem deedsWhere_congr {F : Factory} {blocks blocks' : List Block} {p p' : Hash → Prop}
    (h : ∀ block, block ∈ blocks ∧ p (block.hash F) ↔ block ∈ blocks' ∧ p' (block.hash F)) :
    deedsWhere F blocks p = deedsWhere F blocks' p' := by
  ext deed
  refine exists_congr fun block => ?_
  rw [← and_assoc, h block, and_assoc]

theorem deedsWhere_or (F : Factory) (blocks : List Block) (p p' : Hash → Prop) :
    deedsWhere F blocks (fun hash => p hash ∨ p' hash) =
      deedsWhere F blocks p ∪ deedsWhere F blocks p' := by
  ext deed
  simp only [deedsWhere, Set.mem_union, Set.mem_ofPred_eq, or_and_right, and_or_left, exists_or]

variable {F : Factory} {J : Dagjs} {start : Storage} {s : ChainState} {blocks : List Block}
  {p : Hash → Bool}

theorem flatMap_eq_append_cons {α β : Type} {f : α → List β} {xs : List α} {before after : List β}
    {y : β} (h : xs.flatMap f = before ++ y :: after) :
    ∃ olds x news earlier later, xs = olds ++ x :: news ∧ f x = earlier ++ y :: later ∧
      before = olds.flatMap f ++ earlier := by
  induction xs generalizing before with
  | nil => simp at h
  | cons x xs ih =>
      rw [List.flatMap_cons] at h
      obtain ⟨rest, rfl, hrest⟩ | ⟨rest, hx, hrest⟩ := List.append_eq_append_iff.mp h
      · obtain ⟨olds, x', news, earlier, later, rfl, hdeeds, rfl⟩ := ih hrest
        exact ⟨x :: olds, x', news, earlier, later, rfl, hdeeds, by simp⟩
      · cases rest with
        | nil =>
            have hlater : xs.flatMap f = [] ++ y :: after := by simpa using hrest.symm
            obtain ⟨olds, x', news, earlier, later, rfl, hdeeds, hnil⟩ := ih hlater
            refine ⟨x :: olds, x', news, earlier, later, rfl, hdeeds, ?_⟩
            rw [List.flatMap_cons, List.append_assoc, ← hnil, hx]
            simp
        | cons first rest =>
            rw [List.cons_append, List.cons.injEq] at hrest
            obtain ⟨rfl, -⟩ := hrest
            exact ⟨[], x, xs, before, rest, rfl, hx, by simp⟩

/-- Blocks that are closed downwards make their payments in the order of execution. -/
theorem Linear.backed (h : Linear F start blocks s) (hfinal : ∀ v, s.IsFinal v → p v = true)
    (hclosed : ∀ v w, p v = true → s.pendingBlocks.dag.Reaches v w → p w = true) :
    Backed (baseOf start)
      ((blocks.filter fun block => p (block.hash F)).flatMap (Block.deeds F)) := by
  intro before deed after heq key hkey
  obtain ⟨olds, block, news, earlier, later, hblocks, hdeeds, rfl⟩ := flatMap_eq_append_cons heq
  obtain ⟨older, rest, rfl, rfl, hrest⟩ := List.filter_eq_append_iff.mp hblocks
  obtain ⟨dropped, newer, rfl, hdropped, hblock, rfl⟩ := List.filter_eq_cons_iff.mp hrest
  refine (h.ordered (older ++ dropped) block newer (by rw [List.append_assoc]) earlier deed later
    hdeeds key hkey).imp_right ?_
  rintro ⟨creator, houtput, hearlier | ⟨other, hother, hor, hmem⟩⟩
  · exact ⟨creator, List.mem_append_right _ hearlier, houtput⟩
  · have hp : p (other.hash F) = true := hor.elim (hfinal _) (hclosed _ _ hblock)
    have hold : other ∈ older := (List.mem_append.mp hother).resolve_right fun hdrop =>
      hdropped other hdrop hp
    refine ⟨creator, List.mem_append_left _ ?_, houtput⟩
    exact List.mem_flatMap.mpr ⟨other, List.mem_filter.mpr ⟨hold, hp⟩, hmem⟩

/-- A final block is not pending, so it reaches only itself. -/
theorem Linear.eq_of_reaches (h : Linear F start blocks s) {v w : Hash} (hv : s.IsFinal v)
    (hreach : s.pendingBlocks.dag.Reaches v w) : v = w := by
  obtain rfl | ⟨u, hedge, -⟩ := Relation.ReflTransGen.cases_head hreach
  · rfl
  · obtain ⟨info, hinfo, -, hflag⟩ := h.known v hedge.mem_left
    simp [ChainState.IsFinal, hinfo, hflag] at hv

/-- A ledger that shows what the payments of such blocks show. -/
theorem Linear.run_eq (h : Linear F start blocks s) (hfinal : ∀ v, s.IsFinal v → p v = true)
    (hclosed : ∀ v w, p v = true → s.pendingBlocks.dag.Reaches v w → p w = true)
    (hfree : NoDoubleSpend (deedsWhere F blocks fun v => p v = true)) {ledger : FinMap Input Coins}
    (hledger : ∀ key coins, ledger.lookup key = some coins ↔
      Shows (baseOf start) (deedsWhere F blocks fun v => p v = true) key coins) :
    run ((once [] ((blocks.filter fun block => p (block.hash F)).flatMap (Block.deeds F))).map
      Prod.snd) (baseOf start) = some ledger := by
  have hmem : {deed | deed ∈ (blocks.filter fun block => p (block.hash F)).flatMap (Block.deeds F)} =
      deedsWhere F blocks fun v => p v = true := by
    ext deed
    rw [Set.mem_ofPred_eq, List.mem_flatMap]
    exact exists_congr fun block => by rw [List.mem_filter, and_assoc]
  have hsound : Sound start (deedsWhere F blocks fun v => p v = true) :=
    h.stable.sound.mono (deedsWhere_mono (fun _ => id) fun _ _ _ => trivial)
  have hinputs : ∀ deed ∈ (blocks.filter fun block => p (block.hash F)).flatMap (Block.deeds F),
      deed.2.inputs.Nodup := by
    intro deed hdeed
    obtain ⟨block, hblock, hdeed⟩ := List.mem_flatMap.mp hdeed
    exact h.nodup block (List.mem_filter.mp hblock).1 deed hdeed
  obtain ⟨result, hrun, hresult⟩ := exists_run_once (by rw [hmem]; exact hsound.named) hinputs
    (by rw [hmem]; exact hfree) (h.backed hfinal hclosed)
  rw [hrun, Option.some.injEq]
  refine Finmap.ext_lookup fun key => Option.ext fun coins => ?_
  rw [hresult, hmem, hledger]

/-- Storage, as one ledger. -/
theorem Linear.run_stable (h : Linear F start blocks s) :
    run ((once [] (stableDeeds F s blocks)).map Prod.snd) (baseOf start) =
      some (baseOf s.storage) := by
  refine h.run_eq (p := fun v => s.IsFinal v) (fun v hv => by simpa using hv) ?_ ?_ ?_
  · intro v w hv hreach
    exact (h.eq_of_reaches (by simpa using hv) hreach) ▸ hv
  · simpa using h.stable.free
  · simpa using h.stores.shows

/-- The view of a pending block, as one ledger. -/
theorem Linear.run_below (h : Linear F start blocks s) (J : Dagjs) {v : Hash} {b : PendingBlock}
    (hb : s.pendingBlocks.dag.readObj v = some b) :
    run ((once [] (deedsBelow F J s blocks v)).map Prod.snd) (baseOf start) =
      some (ledgerOf s.storage b.patch) := by
  have hview := h.views v b hb
  have hmem : v ∈ s.pendingBlocks.dag := Dag.mem_iff.mpr ⟨b, hb⟩
  have hbelow (w : Hash) : w ∈ (J.findPathsDown s.pendingBlocks.dag v).flatten ↔
      s.pendingBlocks.dag.Reaches v w := J.mem_flatten_findPathsDown h.acyclic hmem
  have hmade : deedsWhere F blocks (fun w => decide (s.IsFinal w ∨
      w ∈ (J.findPathsDown s.pendingBlocks.dag v).flatten) = true) =
      deedsWhere F blocks s.IsFinal ∪ deedsWhere F blocks (s.pendingBlocks.dag.Reaches v) := by
    rw [← deedsWhere_or]
    simp only [decide_eq_true_eq, hbelow]
  refine h.run_eq (p := fun w => s.IsFinal w ∨
    w ∈ (J.findPathsDown s.pendingBlocks.dag v).flatten) (fun w hw => by simp [hw]) ?_ ?_ ?_
  · intro u w hu hreach
    rw [decide_eq_true_eq, hbelow] at hu ⊢
    obtain hfinal | hu := hu
    · exact .inl (h.eq_of_reaches hfinal hreach ▸ hfinal)
    · exact .inr (hu.trans hreach)
  · rw [hmade]
    exact hview.plays.free
  · intro key coins
    rw [hmade, lookup_ledgerOf]
    exact hview.tells.unspentAt_iff h.stores hview.plays.sound hview.plays.sub Set.Subset.rfl key
      coins

/-- **The graph of blocks is a ledger.** In every run from a node without pending blocks, what
storage has is what remains when the payments of the stable blocks are made one after another
in the order of execution, each transaction once; and what a block on top of a pending one can
spend is what remains when those of the pending blocks below it are made as well. -/
theorem ledgerRun_linear (F : Factory) (J : Dagjs) (hF : F.HashesHeaders) (start s : ChainState)
    (hstart : ∀ v, v ∉ start.pendingBlocks.dag) (blocks : List Block)
    (h : LedgerRun F J start blocks s) :
    run ((once [] (stableDeeds F s blocks)).map Prod.snd) (baseOf start.storage) =
        some (baseOf s.storage) ∧
      ∀ v b, s.pendingBlocks.dag.readObj v = some b →
        run ((once [] (deedsBelow F J s blocks v)).map Prod.snd) (baseOf start.storage) =
          some (ledgerOf s.storage b.patch) := by
  have hlinear := linear_of_run hF hstart h
  exact ⟨hlinear.run_stable, fun v b hb => hlinear.run_below J hb⟩

/-- **Nodes converge.** Two nodes that start alike may process blocks in different orders, and
roll back and finalise at different times. As soon as the same blocks are stable for them, they
store the same; and on top of a block that is pending for both they see the same if the same
blocks are below it or stable, however many of these each of them has made stable. -/
theorem ledgerRun_converges (F : Factory) (J J' : Dagjs) (hF : F.HashesHeaders)
    (start s s' : ChainState) (hstart : ∀ v, v ∉ start.pendingBlocks.dag)
    (blocks blocks' : List Block) (h : LedgerRun F J start blocks s)
    (h' : LedgerRun F J' start blocks' s') :
    ((∀ block, block ∈ blocks ∧ s.IsFinal (block.hash F) ↔
        block ∈ blocks' ∧ s'.IsFinal (block.hash F)) →
      baseOf s.storage = baseOf s'.storage) ∧
    ∀ v b b', s.pendingBlocks.dag.readObj v = some b → s'.pendingBlocks.dag.readObj v = some b' →
      (∀ block, block ∈ blocks ∧ (s.IsFinal (block.hash F) ∨
          s.pendingBlocks.dag.Reaches v (block.hash F)) ↔
        block ∈ blocks' ∧ (s'.IsFinal (block.hash F) ∨
          s'.pendingBlocks.dag.Reaches v (block.hash F))) →
      ledgerOf s.storage b.patch = ledgerOf s'.storage b'.patch := by
  have hlinear := linear_of_run hF hstart h
  have hlinear' := linear_of_run hF hstart h'
  constructor
  · intro hsame
    have hdeeds : deedsWhere F blocks s.IsFinal = deedsWhere F blocks' s'.IsFinal :=
      deedsWhere_congr hsame
    refine Finmap.ext_lookup fun key => Option.ext fun coins => ?_
    rw [hlinear.stores.shows, hlinear'.stores.shows, hdeeds]
  · intro v b b' hb hb' hsame
    have hview := hlinear.views v b hb
    have hview' := hlinear'.views v b' hb'
    have hdeeds : deedsWhere F blocks s.IsFinal ∪ deedsWhere F blocks (s.pendingBlocks.dag.Reaches v) =
        deedsWhere F blocks' s'.IsFinal ∪ deedsWhere F blocks' (s'.pendingBlocks.dag.Reaches v) := by
      rw [← deedsWhere_or, ← deedsWhere_or]
      exact deedsWhere_congr hsame
    refine Finmap.ext_lookup fun key => Option.ext fun coins => ?_
    rw [lookup_ledgerOf, lookup_ledgerOf,
      hview.tells.unspentAt_iff hlinear.stores hview.plays.sound hview.plays.sub Set.Subset.rfl,
      hview'.tells.unspentAt_iff hlinear'.stores hview'.plays.sound hview'.plays.sub
        Set.Subset.rfl, hdeeds]

end Result

section Sample

/-- A payment that two blocks include. -/
def sharedPayment : Transaction := signedPayment ⟨5, 0⟩ 3 40000 6

/-- A block with it, upon genesis. -/
def sharingBlock (receiverAddr : Address) : Block where
  header := { parentHashes := [1], merkleRoot := 0, conciliumId := 0, timestamp := 0, height := 1 }
  txns := [
    { payload := {
        conciliumId := 0
        ins := [⟨zeroHash, 0⟩]
        outs := [{ amount := 60000, receiverAddr }] } },
    sharedPayment]

/-- A block of the other concilium upon both of them. -/
def joinedShares : Block :=
  emptyBlock [(sharingBlock 2).hash twoConciliums, (sharingBlock 4).hash twoConciliums] 1 0 2

/-- A node that stores one output. -/
def sharingState : ChainState :=
  { afterGenesis with storage := { afterGenesis.storage with
      utxos := (∅ : FinMap Hash UTXO).insert 5 ((∅ : UTXO).insert 0 ⟨100000, 3⟩) } }

/-- No tip is in conflict with what a block makes stable. -/
def mergesAll (s : ChainState) (block : Block) : Bool :=
  let mainDag := s.mainDag.addBlock twoConciliums (block.info twoConciliums).markAsInFlight
  match ({ s with mainDag } : ChainState).execBlock twoConciliums (some block.getHeight)
    noContracts block with
  | .ok (some patchState) =>
      let pbm := s.pendingBlocks.addBlock twoConciliums block patchState
      let n := s.storage.getConciliumsCount twoConciliums
      match pbm.mergePatches twoConciliums
        (pbm.findTopStable Dagjs.sample (block.hash twoConciliums)
          (PendingBlocksManager.majority n)) with
      | .ok patchToApply => pbm.dag.objs.keys.all fun v => !conflicting twoConciliums
          (pbm.unsettled Dagjs.sample (block.hash twoConciliums) n) patchToApply v
      | .error _ => true
  | _ => true

/-- What is checked of a state before a block, apart from names. -/
def readyFor (s : ChainState) (block : Block) : Bool :=
  !s.isBlockExecuted (block.hash twoConciliums) && (s.storage.getContract 6).isNone &&
    mergesAll s block

theorem disjoint_of_mergesAll {s : ChainState} {block : Block} (h : mergesAll s block = true)
    {patchState : PatchDB}
    (hexec : ({ s with mainDag :=
      s.mainDag.addBlock twoConciliums (block.info twoConciliums).markAsInFlight } :
        ChainState).execBlock twoConciliums (some block.getHeight) noContracts block =
          .ok (some patchState)) :
    BranchesDisjoint twoConciliums Dagjs.sample
      (s.pendingBlocks.addBlock twoConciliums block patchState) (block.hash twoConciliums)
      (s.storage.getConciliumsCount twoConciliums) := by
  intro patchToApply hmerge tip htip
  unfold mergesAll at h
  dsimp only at h
  rw [hexec] at h
  dsimp only at h
  rw [hmerge] at h
  have hmem := (Dag.mem_removeVertices.mp htip.1.1).1
  have hmerges := List.all_eq_true.mp h tip hmem
  rw [htip.2.2] at hmerges
  cases hmerges

/-- A run with names that do not collide. -/
theorem paysOnly_sharing {s : ChainState} {blocks : List Block} {block : Block}
    (hready : readyFor s block = true) (hgenesis : isGenesisBlock twoConciliums block = false)
    (htxns : ∀ tx ∈ block.txns.tail, tx = sharedPayment)
    (hnames : NamesOnce twoConciliums sharingState.storage (blocks ++ [block]))
    (hcoinbase : (coinbaseDeed twoConciliums block).2.outputs = [] ∨ ∀ other ∈ blocks,
      ∀ tx ∈ other.txns, tx.hash twoConciliums ≠ block.coinbase.hash twoConciliums) :
    PaysOnly twoConciliums Dagjs.sample sharingState.storage blocks s noContracts block := by
  rw [readyFor, Bool.and_eq_true, Bool.and_eq_true, Bool.not_eq_true', Option.isNone_iff_eq_none]
    at hready
  obtain ⟨⟨hnew, hcontract⟩, hmerges⟩ := hready
  refine ⟨hgenesis, hnew, fun tx htx => ?_, hnames, hcoinbase, fun _ hexec =>
    disjoint_of_mergesAll hmerges hexec⟩
  obtain rfl := htxns tx htx
  refine ⟨by decide +kernel, fun _ _ => rfl, fun addr haddr => ?_⟩
  obtain rfl : (6 : Address) = addr := Option.some.inj haddr
  exact hcontract

/-- The states after both blocks with the payment, in some order, and the one upon them. -/
def sharingStates (A B : Block) : Except String (ChainState × ChainState × ChainState) :=
  match sharingState.processBlock twoConciliums Dagjs.sample noContracts A with
  | .error error => .error error
  | .ok s₁ =>
      match s₁.processBlock twoConciliums Dagjs.sample noContracts B with
      | .error error => .error error
      | .ok s₂ => (s₂.processBlock twoConciliums Dagjs.sample noContracts joinedShares).map
          fun s₃ => (s₁, s₂, s₃)

/-- What is checked of these states. -/
def sharingChecks (A B : Block) (states : ChainState × ChainState × ChainState) : Bool :=
  let hash := fun block : Block => block.hash twoConciliums
  readyFor sharingState A && readyFor states.1 B &&
    readyFor states.2.1 joinedShares && states.1.isBlockExecuted (hash A) &&
    states.2.1.isBlockExecuted (hash A) &&
    states.2.1.isBlockExecuted (hash B) &&
    decide (states.2.2.IsFinal (hash A)) &&
    decide (states.2.2.IsFinal (hash B)) &&
    !decide (states.2.2.IsFinal (hash joinedShares)) &&
    states.2.2.isBlockExecuted (hash joinedShares) &&
    !isGenesisBlock twoConciliums A &&
    !isGenesisBlock twoConciliums B

theorem sharingStates_ok {A B : Block} {s₁ s₂ s₃ : ChainState}
    (h : sharingStates A B = .ok (s₁, s₂, s₃)) :
    sharingState.processBlock twoConciliums Dagjs.sample noContracts A = .ok s₁ ∧
      s₁.processBlock twoConciliums Dagjs.sample noContracts B = .ok s₂ ∧
      s₂.processBlock twoConciliums Dagjs.sample noContracts joinedShares = .ok s₃ := by
  unfold sharingStates at h
  split at h
  next => cases h
  next s h₁ =>
    split at h
    next => cases h
    next s' h₂ =>
      cases h₃ : s'.processBlock twoConciliums Dagjs.sample noContracts joinedShares with
      | error error => simp [h₃, Except.map] at h
      | ok s'' =>
          simp only [h₃, Except.map, Except.ok.injEq, Prod.mk.injEq] at h
          obtain ⟨rfl, rfl, rfl⟩ := h
          exact ⟨h₁, h₂, h₃⟩

/-- Both blocks with the payment become stable. -/
theorem exists_sharingRun (A B : Block)
    (hstates : (sharingStates A B).toOption.any (sharingChecks A B) = true)
    (hnames : NamesOnce twoConciliums sharingState.storage
      [A, B, joinedShares])
    (htxns : ∀ tx ∈ A.txns.tail, tx = sharedPayment)
    (htxns' : ∀ tx ∈ B.txns.tail, tx = sharedPayment)
    (hdiffer : ∀ tx ∈ A.txns, tx.hash twoConciliums ≠ B.coinbase.hash twoConciliums) :
    ∃ s, LedgerRun twoConciliums Dagjs.sample sharingState
      [A, B, joinedShares] s ∧
        s.IsFinal (A.hash twoConciliums) ∧
        s.IsFinal (B.hash twoConciliums) ∧
        ¬ s.IsFinal (joinedShares.hash twoConciliums) := by
  obtain ⟨⟨s₁, s₂, s₃⟩, hok, hchecks⟩ := exists_ok_of_any hstates
  obtain ⟨h₁, h₂, h₃⟩ := sharingStates_ok hok
  simp only [sharingChecks, Bool.and_eq_true, Bool.not_eq_true', decide_eq_true_eq,
    decide_eq_false_iff_not] at hchecks
  obtain ⟨⟨⟨⟨⟨⟨⟨⟨⟨⟨⟨hready₁, hready₂⟩, hready₃⟩, ha₁⟩, ha₂⟩, hb₂⟩, hfinal⟩, hfinal'⟩, hpending⟩,
    hc₃⟩, hgenesis⟩, hgenesis'⟩ := hchecks
  have hrun₁ := LedgerRun.step .start (paysOnly_sharing hready₁ hgenesis htxns
    (hnames.mono (by simp)) (by simp)) h₁
  rw [List.filter_eq_self.mpr (by simpa using ha₁), List.nil_append] at hrun₁
  have hrun₂ := hrun₁.step (paysOnly_sharing hready₂ hgenesis' htxns'
    (hnames.mono (by simp)) (by simpa using .inr hdiffer)) h₂
  rw [List.filter_eq_self.mpr (by simpa using ⟨ha₂, hb₂⟩), List.singleton_append] at hrun₂
  have hrun₃ := hrun₂.step (paysOnly_sharing hready₃ (by decide +kernel) (by decide +kernel)
    hnames (.inl (by decide +kernel))) h₃
  have hkept : ∀ hash, s₃.IsFinal hash → s₃.isBlockExecuted hash = true := fun hash hfinal => by
    rw [isBlockExecuted, Bool.or_eq_true]
    exact .inl hfinal
  rw [List.filter_eq_self.mpr (by simpa using ⟨hkept _ hfinal, hkept _ hfinal', hc₃⟩),
    List.cons_append, List.singleton_append] at hrun₃
  exact ⟨s₃, hrun₃, hfinal, hfinal', hpending⟩

theorem exists_sharingRun_first : ∃ s, LedgerRun twoConciliums Dagjs.sample sharingState
    [sharingBlock 2, sharingBlock 4, joinedShares] s ∧
      s.IsFinal ((sharingBlock 2).hash twoConciliums) ∧
      s.IsFinal ((sharingBlock 4).hash twoConciliums) ∧
      ¬ s.IsFinal (joinedShares.hash twoConciliums) :=
  exists_sharingRun (sharingBlock 2) (sharingBlock 4) (by decide +kernel)
    ⟨by decide +kernel, by decide +kernel, by decide +kernel⟩ (by decide +kernel) (by decide +kernel)
    (by decide +kernel)

/-- What is stored after the run: the payment is made once, and both coinbases are. -/
theorem ledgerRun_linear_sharing : ∃ s, LedgerRun twoConciliums Dagjs.sample sharingState
    [sharingBlock 2, sharingBlock 4, joinedShares] s ∧
      run ((once [] ((sharingBlock 2).deeds twoConciliums ++
        (sharingBlock 4).deeds twoConciliums)).map Prod.snd) (baseOf sharingState.storage) =
          some (baseOf s.storage) := by
  obtain ⟨s, hrun, hfirst, hsecond, hlast⟩ := exists_sharingRun_first
  obtain ⟨hstored, -⟩ := ledgerRun_linear twoConciliums Dagjs.sample hashesHeaders_twoConciliums
    sharingState s Dag.notMem_empty _ hrun
  refine ⟨s, hrun, ?_⟩
  have hdeeds : stableDeeds twoConciliums s [sharingBlock 2, sharingBlock 4, joinedShares] =
      (sharingBlock 2).deeds twoConciliums ++ (sharingBlock 4).deeds twoConciliums := by
    simp [stableDeeds, hfirst, hsecond, hlast]
  rw [← hdeeds]
  exact hstored

/-- The two blocks in the other order. -/
theorem exists_sharingRun_second : ∃ s, LedgerRun twoConciliums Dagjs.sample sharingState
    [sharingBlock 4, sharingBlock 2, joinedShares] s ∧
      s.IsFinal ((sharingBlock 4).hash twoConciliums) ∧
      s.IsFinal ((sharingBlock 2).hash twoConciliums) ∧
      ¬ s.IsFinal (joinedShares.hash twoConciliums) :=
  exists_sharingRun (sharingBlock 4) (sharingBlock 2) (by decide +kernel)
    ⟨by decide +kernel, by decide +kernel, by decide +kernel⟩ (by decide +kernel) (by decide +kernel)
    (by decide +kernel)

theorem ledgerRun_converges_sharing : ∃ s s',
    LedgerRun twoConciliums Dagjs.sample sharingState
      [sharingBlock 2, sharingBlock 4, joinedShares] s ∧
    LedgerRun twoConciliums Dagjs.sample sharingState
      [sharingBlock 4, sharingBlock 2, joinedShares] s' ∧
    baseOf s.storage = baseOf s'.storage := by
  obtain ⟨s, hrun, hfirst, hsecond, hlast⟩ := exists_sharingRun_first
  obtain ⟨s', hrun', hfirst', hsecond', hlast'⟩ := exists_sharingRun_second
  obtain ⟨hstored, -⟩ := ledgerRun_converges twoConciliums Dagjs.sample Dagjs.sample
    hashesHeaders_twoConciliums sharingState s s' Dag.notMem_empty _ _ hrun hrun'
  refine ⟨s, s', hrun, hrun', hstored fun block => ?_⟩
  simp only [List.mem_cons, List.not_mem_nil, or_false]
  constructor
  · rintro ⟨rfl | rfl | rfl, hfinal⟩
    · exact ⟨.inr (.inl rfl), hsecond'⟩
    · exact ⟨.inl rfl, hfirst'⟩
    · exact absurd hfinal hlast
  · rintro ⟨rfl | rfl | rfl, hfinal⟩
    · exact ⟨.inr (.inl rfl), hsecond⟩
    · exact ⟨.inl rfl, hfirst⟩
    · exact absurd hfinal hlast'

end Sample

end CilCore
