import CilCore.Node.Finality

/-!
# The stable set

Which blocks `checkFinality` takes out of the graph. It scans every maximal path
down from the new block for the first block at which enough conciliums have been
met, and takes what lies below. These are the blocks that some path down to them
sees a majority of conciliums on, wherever that path goes on from there.
-/

namespace CilCore.PendingBlocksManager

variable {F : Factory} {J : Dagjs} {pbm : PendingBlocksManager} {dag : PendingDag}
  {newVertex u : Hash} {n : Nat} {setConciliumIds : Finset Nat} {path : List Hash}

/-- A majority of conciliums made the blocks of some path down to the block. -/
def StableFrom (dag : PendingDag) (newVertex : Hash) (nMajority : Nat) (u : Hash) : Prop :=
  ∃ path, dag.Walk newVertex path u ∧ nMajority ≤ (witnessesOf dag path).card

/-! ### Scanning a path -/

theorem witnessesOf_append (dag : PendingDag) (path path' : List Hash) :
    witnessesOf dag (path ++ path') = witnessesOf dag path ∪ witnessesOf dag path' := by
  rw [witnessesOf, List.filterMap_append, List.toFinset_append]
  rfl

theorem witnessesOf_cons {vertex : Hash} {block : PendingBlock}
    (h : dag.readObj vertex = some block) (path : List Hash) :
    witnessesOf dag (vertex :: path) =
      insert block.blockHeader.conciliumId (witnessesOf dag path) := by
  rw [witnessesOf, List.filterMap_cons, h]
  exact List.toFinset_cons ..

theorem witnessesOf_cons_none {vertex : Hash} (h : dag.readObj vertex = none)
    (path : List Hash) : witnessesOf dag (vertex :: path) = witnessesOf dag path := by
  rw [witnessesOf, List.filterMap_cons, h]
  rfl

/-- The scan stops at a block where enough conciliums have been met. -/
theorem findTopStableFrom_some {top : Hash}
    (h : findTopStableFrom dag n setConciliumIds path = some top) :
    ∃ before after, path = before ++ top :: after ∧
      n ≤ (setConciliumIds ∪ witnessesOf dag (before ++ [top])).card := by
  induction path generalizing setConciliumIds with
  | nil => cases h
  | cons vertex path ih =>
      rw [findTopStableFrom] at h
      split at h
      next hnone =>
        obtain ⟨before, after, rfl, hcard⟩ := ih h
        refine ⟨vertex :: before, after, rfl, ?_⟩
        rwa [List.cons_append, witnessesOf_cons_none hnone]
      next block hblock =>
        dsimp only at h
        split at h
        next hcard =>
          cases h
          refine ⟨[], path, rfl, ?_⟩
          rw [List.nil_append, witnessesOf_cons hblock, Finset.union_insert]
          exact hcard.trans (Finset.card_le_card (Finset.insert_subset_insert _
            Finset.subset_union_left))
        next =>
          obtain ⟨before, after, rfl, hcard⟩ := ih h
          refine ⟨vertex :: before, after, rfl, ?_⟩
          rwa [List.cons_append, witnessesOf_cons hblock, Finset.union_insert,
            ← Finset.insert_union]

/-- Where enough conciliums have been met the scan has stopped, there or above. -/
theorem exists_findTopStableFrom (hu : u ∈ dag) {before : List Hash}
    (hcard : n ≤ (setConciliumIds ∪ witnessesOf dag (before ++ [u])).card) (after : List Hash) :
    ∃ top above between, findTopStableFrom dag n setConciliumIds (before ++ u :: after) = some top ∧
      before ++ [u] = above ++ top :: between ∧ u ∈ top :: between := by
  induction before generalizing setConciliumIds with
  | nil =>
      obtain ⟨block, hblock⟩ := Dag.mem_iff.mp hu
      refine ⟨u, [], [], ?_, rfl, List.mem_cons_self⟩
      rw [List.nil_append, witnessesOf_cons hblock, Finset.union_insert, ← Finset.insert_union]
        at hcard
      rw [List.nil_append, findTopStableFrom, hblock]
      exact if_pos (by simpa [witnessesOf] using hcard)
  | cons vertex before ih =>
      rw [List.cons_append] at hcard
      rw [List.cons_append, findTopStableFrom]
      cases hvertex : dag.readObj vertex with
      | none =>
          rw [witnessesOf_cons_none hvertex] at hcard
          obtain ⟨top, above, between, htop, hsplit, hlast⟩ := ih hcard
          exact ⟨top, vertex :: above, between, htop, by rw [List.cons_append, hsplit]; rfl,
            hlast⟩
      | some block =>
          rw [witnessesOf_cons hvertex, Finset.union_insert, ← Finset.insert_union] at hcard
          dsimp only
          split
          next => exact ⟨vertex, [], before ++ [u], rfl, rfl, by simp⟩
          next =>
            obtain ⟨top, above, between, htop, hsplit, hlast⟩ := ih hcard
            exact ⟨top, vertex :: above, between, htop, by rw [List.cons_append, hsplit]; rfl,
              hlast⟩

/-! ### All paths -/

/-- The blocks below the top stable ones are those that a majority is met on the
way to. -/
theorem mem_findAlsoStable_iff (hdag : pbm.dag.Acyclic) (hnew : newVertex ∈ pbm.dag) :
    u ∈ pbm.findAlsoStable J (pbm.findTopStable J newVertex n) ↔
      StableFrom pbm.dag newVertex n u := by
  have htop (top : Hash) (h : top ∈ pbm.findTopStable J newVertex n) : top ∈ pbm.dag :=
    (reaches_of_mem_findTopStable hdag hnew h).mem hnew
  rw [mem_findAlsoStable hdag htop]
  constructor
  · rintro ⟨top, hmem, hreach⟩
    obtain ⟨path, hpath, hscan⟩ := List.mem_filterMap.mp hmem
    obtain ⟨before, after, rfl, hcard⟩ := findTopStableFrom_some hscan
    obtain ⟨hwalk, -⟩ := ((J.mem_findPathsDown _ _ _ hdag hnew).mp hpath).split
    obtain ⟨further, hwalk⟩ := hwalk.append hreach
    refine ⟨_, hwalk, ?_⟩
    rw [Finset.empty_union] at hcard
    rw [witnessesOf_append]
    exact hcard.trans (Finset.card_le_card Finset.subset_union_left)
  · rintro ⟨path, hwalk, hcard⟩
    obtain ⟨before, rfl⟩ := hwalk.eq_append
    -- the path goes on to the bottom, and the scan of all of it stops no later
    obtain ⟨down, hdown⟩ := hdag.exists_pathDown u
    obtain ⟨rest, rfl⟩ := hdown.head
    have hfull : pbm.dag.PathDown newVertex (before ++ u :: rest) := by
      have happend := hwalk.pathDown hdown
      rwa [List.append_assoc, List.singleton_append] at happend
    have hu : u ∈ pbm.dag := (hfull.mem (by simp)).mem hnew
    have hcard' : n ≤ (∅ ∪ witnessesOf pbm.dag (before ++ [u])).card := by
      rwa [Finset.empty_union]
    obtain ⟨top, above, between, hscan, hsplit, hlast⟩ :=
      exists_findTopStableFrom hu hcard' rest
    have hpath : before ++ u :: rest = above ++ top :: (between ++ rest) := by
      rw [List.append_cons, hsplit, List.append_assoc, List.cons_append]
    refine ⟨top, List.mem_filterMap.mpr
      ⟨_, (J.mem_findPathsDown _ _ _ hdag hnew).mpr hfull, hscan⟩, ?_⟩
    refine (hpath ▸ hfull).split.2.mem ?_
    exact List.mem_append_left rest hlast

/-! ### What `checkFinality` returns -/

/-- The graph without the vertices of a list: their edges go with them, and the
other blocks keep their headers. -/
structure RestrictedTo (before : PendingDag) (gone : List Hash) (after : PendingDag) : Prop where
  mem : ∀ v, v ∈ after ↔ v ∈ before ∧ v ∉ gone
  edge : ∀ v w, after.Edge v w ↔ before.Edge v w ∧ v ∉ gone ∧ w ∉ gone
  header : ∀ v, v ∉ gone → (after.readObj v).map (fun block => (block.blockHeader, block.bIsEmpty)) =
    (before.readObj v).map fun block => (block.blockHeader, block.bIsEmpty)

/-- No branch that is left conflicts with the patch to apply. -/
def NoConflict (F : Factory) (pbm : PendingBlocksManager) (newVertex : Hash)
    (r : FinalityResult) : Prop :=
  ∀ tip, ¬ LosingTip F (pbm.dag.removeVertices r.setStableBlocks) newVertex r.patchToApply tip

theorem conflictingBranches_eq_nil (hdag : dag.Acyclic) {patchToApply : PatchDB}
    (h : ∀ tip, ¬ LosingTip F dag newVertex patchToApply tip) :
    conflictingBranches F J dag newVertex patchToApply = [] := by
  apply List.eq_nil_iff_forall_not_mem.mpr
  intro w hw
  obtain ⟨tip, htip, -⟩ := (mem_conflictingBranches hdag).mp hw
  exact h tip htip

theorem restrictedTo_settle {r : FinalityResult} (h : r.setBlocksToRollback = []) :
    RestrictedTo pbm.dag r.setStableBlocks (pbm.settle F r).dag where
  mem v := by
    rw [mem_settle, h]
    simp
  edge v w := by
    have hedge : (pbm.settle F r).dag.Edge v w ↔
        (pbm.dag.removeVertices r.setStableBlocks).Edge v w := by
      rw [settle, Dag.edge_mapObjs, h]
      rfl
    rw [hedge, Dag.edge_removeVertices]
  header v hv := by
    rw [settle, Dag.readObj_mapObjs, h, Option.map_map]
    have hread : (pbm.dag.removeVertices r.setStableBlocks).readObj v = pbm.dag.readObj v := by
      rw [Dag.readObj_removeVertices, if_neg hv]
    exact congrArg (Option.map _) hread

/-- `undefined` means that no top stable block was found. -/
theorem checkFinality_none_iff {nConciliumCount : Nat} :
    (∃ after, pbm.checkFinality F J newVertex nConciliumCount = .ok (none, after)) ↔
      pbm.findTopStable J newVertex (majority nConciliumCount) = [] := by
  constructor
  · rintro ⟨after, h⟩
    unfold checkFinality at h
    dsimp only at h
    split at h
    next hnil => exact hnil
    next => split at h <;> cases h
  · intro h
    exact ⟨pbm, by unfold checkFinality; exact if_pos h⟩

theorem findTopStable_eq_nil_iff (hdag : pbm.dag.Acyclic) (hnew : newVertex ∈ pbm.dag) :
    pbm.findTopStable J newVertex n = [] ↔ ∀ u, ¬ StableFrom pbm.dag newVertex n u := by
  have htop (top : Hash) (h : top ∈ pbm.findTopStable J newVertex n) : top ∈ pbm.dag :=
    (reaches_of_mem_findTopStable hdag hnew h).mem hnew
  constructor
  · intro hnil u hu
    have hmem := (mem_findAlsoStable_iff (J := J) hdag hnew).mpr hu
    rw [hnil] at hmem
    cases hmem
  · intro h
    apply List.eq_nil_iff_forall_not_mem.mpr
    intro top hmem
    refine h top ((mem_findAlsoStable_iff (J := J) hdag hnew).mp ?_)
    exact (mem_findAlsoStable hdag htop).mpr ⟨top, hmem, .refl⟩

/-- **The stable set is exact.** It holds the blocks that a majority of conciliums is
met on some path down to, with all that is pending below them; `undefined` is returned
if and only if there are none; and without a conflict the other blocks keep their
place in the graph. -/
theorem checkFinality_stableSet (F : Factory) (J : Dagjs) (pbm : PendingBlocksManager)
    (hdag : pbm.dag.Acyclic) (newVertex : Hash) (hnew : newVertex ∈ pbm.dag)
    (nConciliumCount : Nat) :
    ((∃ after, pbm.checkFinality F J newVertex nConciliumCount = .ok (none, after)) ↔
      ∀ u, ¬ StableFrom pbm.dag newVertex (majority nConciliumCount) u) ∧
    ∀ r after, pbm.checkFinality F J newVertex nConciliumCount = .ok (some r, after) →
      (∀ u, u ∈ r.setStableBlocks ↔
        StableFrom pbm.dag newVertex (majority nConciliumCount) u) ∧
      (∀ u ∈ r.setStableBlocks, ∀ w, pbm.dag.Reaches u w → w ∈ r.setStableBlocks) ∧
      (NoConflict F pbm newVertex r → RestrictedTo pbm.dag r.setStableBlocks after.dag) := by
  refine ⟨checkFinality_none_iff.trans (findTopStable_eq_nil_iff hdag hnew), ?_⟩
  intro r after h
  obtain ⟨htop, -, hr, rfl⟩ := checkFinality_ok h
  have hstable : r.setStableBlocks = pbm.findAlsoStable J r.arrTopStable := by
    rw [hr]
    rfl
  have hmem (u : Hash) : u ∈ r.setStableBlocks ↔
      StableFrom pbm.dag newVertex (majority nConciliumCount) u := by
    rw [hstable, htop]
    exact mem_findAlsoStable_iff hdag hnew
  refine ⟨hmem, fun u hu w hreach => ?_, fun hconflict => restrictedTo_settle ?_⟩
  · rw [hmem] at hu ⊢
    obtain ⟨path, hwalk, hcard⟩ := hu
    obtain ⟨further, hwalk⟩ := hwalk.append hreach
    refine ⟨_, hwalk, hcard.trans (Finset.card_le_card ?_)⟩
    rw [witnessesOf_append]
    exact Finset.subset_union_left
  · have hrollback : r.setBlocksToRollback = conflictingBranches F J
        (pbm.dag.removeVertices r.setStableBlocks) newVertex r.patchToApply := by
      rw [hstable]
      conv_lhs => rw [hr]
      rfl
    rw [hrollback]
    exact conflictingBranches_eq_nil (hdag.removeVertices _) hconflict

/-- The stable set of the branches that share a block. -/
theorem checkFinality_stableSet_sharedBranch :
    ∃ r after, sharedBranch.checkFinality Factory.sample Dagjs.sample 16 6 = .ok (some r, after) ∧
      ∀ u, u ∈ r.setStableBlocks ↔ StableFrom sharedBranch.dag 16 (majority 6) u := by
  obtain ⟨r, after, hok, -⟩ := checkFinality_sharedBranch
  have hexact := checkFinality_stableSet Factory.sample Dagjs.sample sharedBranch
    acyclic_sharedBranch 16 isTip_sharedBranch.1 6
  exact ⟨r, after, hok, (hexact.2 r after hok).1⟩

end CilCore.PendingBlocksManager
