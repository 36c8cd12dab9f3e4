import CilCore.Node.BestParents
import CilCore.Node.ConciliumForks

/-!
# What best parents leave out

`getBestParents` tries the tips one after another and swallows the exception of a
merge that fails. So a tip is left out exactly because it conflicts with what the
tips before it were merged to, and the parents that are returned merge in the order
in which they are returned.
-/

namespace CilCore

namespace PendingBlocksManager

variable {F : Factory} {J : Dagjs} {pbm : PendingBlocksManager} {n : Option Nat}

/-! ### The order of trying -/

/-- All tips, an own one of the concilium first if there is one, and the others by the
number of witnesses seen and then by the length of the longest path. -/
def TriesInOrder (J : Dagjs) (pbm : PendingBlocksManager) (n : Option Nat) (tried : List Hash) :
    Prop :=
  tried.Perm (J.tips pbm.dag) ∧
    ∃ own others, OwnTip pbm.dag n own ∧ tried = own.toList ++ others ∧
      others.Pairwise fun tip tip' => scoreOf J pbm tip' ≤ scoreOf J pbm tip

/-- In a list by rank the own tip is the first one. -/
theorem eq_toList_append_of_sorted {own : Option Hash} {sorted : List Hash}
    (hnodup : sorted.Nodup) (hown : ∀ hash, own = some hash → hash ∈ sorted)
    (hsorted : sorted.Pairwise fun s t => rankOf J pbm own t ≤ rankOf J pbm own s) :
    ∃ others, sorted = own.toList ++ others ∧ ∀ tip ∈ others, some tip ≠ own := by
  cases own with
  | none => exact ⟨sorted, rfl, fun tip _ => by simp⟩
  | some hash =>
      obtain ⟨others, rfl⟩ := exists_eq_own_cons (hown hash rfl) hsorted
      refine ⟨others, rfl, fun tip htip heq => ?_⟩
      cases heq
      exact (List.nodup_cons.mp hnodup).1 htip

/-- `_sortTips` lists the tips in the order of trying. -/
theorem triesInOrder_sortTips (hJ : (J.tips pbm.dag).Nodup) :
    TriesInOrder J pbm n (pbm.sortTips J (J.tips pbm.dag) n) := by
  have hown := ownTip_findByConciliumId pbm n (J.mem_tips pbm.dag)
  have hmem : ∀ hash, pbm.findByConciliumId (J.tips pbm.dag) n = some hash →
      hash ∈ J.tips pbm.dag := by
    intro hash hfound
    rw [hfound] at hown
    exact (J.mem_tips pbm.dag hash).mpr hown.1
  obtain ⟨hperm, hsorted⟩ := enumerates_sortTips (J := J) (n := n) hJ rfl hmem
  obtain ⟨others, heq, hothers⟩ := eq_toList_append_of_sorted (hperm.nodup_iff.mpr hJ)
    (fun hash hfound => hperm.symm.subset (hmem hash hfound)) hsorted
  refine ⟨hperm, _, others, hown, heq, ?_⟩
  rw [heq, List.pairwise_append] at hsorted
  refine hsorted.2.1.imp_of_mem fun {tip tip'} htip htip' hle => ?_
  rw [rankOf, rankOf, if_neg (hothers tip htip), if_neg (hothers tip' htip'),
    WithTop.coe_le_coe] at hle
  exact hle

/-! ### Maximality -/

/-- A tip that was tried and left out conflicts with the merge of those parents that
were tried before it. -/
def LeftOutConflict (F : Factory) (pbm : PendingBlocksManager) (tried arrParents : List Hash) :
    Prop :=
  ∀ before tip after, tried = before ++ tip :: after → tip ∉ arrParents →
    ∃ block patchMerged error, pbm.dag.readObj tip = some block ∧
      pbm.mergePatches F (before.filter (· ∈ arrParents)) = .ok patchMerged ∧
      block.patch.merge F patchMerged = .error error

/-- What the loop takes of the tips, after some were taken that merge. -/
theorem collectPatchesFrom_maximal {dag : PendingDag} {tips : List Hash} (kept : List Hash)
    (acc : PatchDB) (hnodup : tips.Nodup) (htips : ∀ tip ∈ tips, tip ∈ dag)
    (hkept : mergePatchesFrom F dag kept PatchDB.empty = .ok acc) :
    ∃ taken, (collectPatchesFrom F dag tips kept acc).1 = kept ++ taken ∧ taken.Sublist tips ∧
      ∀ before tip after, tips = before ++ tip :: after → tip ∉ taken →
        ∃ block patchMerged error, dag.readObj tip = some block ∧
          mergePatchesFrom F dag (kept ++ before.filter (· ∈ taken)) PatchDB.empty =
            .ok patchMerged ∧
          block.patch.merge F patchMerged = .error error := by
  induction tips generalizing kept acc with
  | nil =>
      refine ⟨[], (List.append_nil kept).symm, .slnil, fun before tip after heq _ => ?_⟩
      cases before <;> cases heq
  | cons vertex rest ih =>
      obtain ⟨hvertex, hrest⟩ := List.nodup_cons.mp hnodup
      have hmem := fun tip h => htips tip (List.mem_cons_of_mem _ h)
      obtain ⟨block, hblock⟩ := Dag.mem_iff.mp (htips vertex List.mem_cons_self)
      rw [collectPatchesFrom, hblock]
      dsimp only
      cases hmerge : block.patch.merge F acc with
      | error error =>
          obtain ⟨taken, heq, hsublist, hmaximal⟩ := ih _ _ hrest hmem hkept
          refine ⟨taken, heq, hsublist.cons vertex, fun before tip after hsplit hnot => ?_⟩
          cases before with
          | nil =>
              obtain ⟨rfl, -⟩ := List.cons.inj hsplit
              refine ⟨block, acc, error, hblock, ?_, hmerge⟩
              rw [List.filter_nil, List.append_nil]
              exact hkept
          | cons first before =>
              obtain ⟨rfl, hrestSplit⟩ := List.cons.inj hsplit
              rw [List.filter_cons_of_neg]
              · exact hmaximal before tip after hrestSplit hnot
              · rw [decide_eq_true_eq]
                exact fun htaken => hvertex (hsublist.subset htaken)
      | ok merged =>
          have hkept' : mergePatchesFrom F dag (kept ++ [vertex]) PatchDB.empty = .ok merged := by
            rw [mergePatchesFrom_append hkept, mergePatchesFrom]
            simp only [hblock, hmerge, mergePatchesFrom]
          obtain ⟨taken, heq, hsublist, hmaximal⟩ := ih _ _ hrest hmem hkept'
          refine ⟨vertex :: taken, ?_, hsublist.cons_cons vertex,
            fun before tip after hsplit hnot => ?_⟩
          · rw [heq, List.append_assoc, List.singleton_append]
          · obtain ⟨hne, hnot⟩ := not_or.mp (mt List.mem_cons.mpr hnot)
            cases before with
            | nil => exact absurd (List.cons.inj hsplit).1.symm hne
            | cons first before =>
                obtain ⟨rfl, hrestSplit⟩ := List.cons.inj hsplit
                -- the vertex itself does not come again
                have hfilter : (vertex :: before).filter (· ∈ vertex :: taken) =
                    vertex :: before.filter (· ∈ taken) := by
                  rw [List.filter_cons_of_pos (by simp)]
                  congr 1
                  apply List.filter_congr
                  intro other hother
                  have hrestMem : other ∈ rest := hrestSplit ▸ List.mem_append_left _ hother
                  simp [ne_of_mem_of_not_mem hrestMem hvertex]
                rw [hfilter, ← List.singleton_append, ← List.append_assoc]
                exact hmaximal before tip after hrestSplit hnot

/-- In every state that a node reaches from one without pending blocks, each contract
of a pending patch belongs to a concilium. -/
theorem contractsPlaced_of_run {start s : ChainState}
    (hstart : ∀ v, v ∉ start.pendingBlocks.dag)
    (hrun : ChainState.RunWhile F J (fun _ _ => True) start s) {v : Hash} {b : PendingBlock}
    (hb : s.pendingBlocks.dag.readObj v = some b) : b.patch.ContractsPlaced := by
  induction hrun generalizing v b with
  | start => exact absurd (Dag.mem_iff.mpr ⟨b, hb⟩) (hstart v)
  | step _ _ hstep ih =>
      rcases ChainState.processBlock_ok hstep with ⟨-, rfl⟩ | ⟨patchState, hexec, haccept⟩
      · exact ih hb
      · obtain ⟨-, hplaced, -⟩ := ChainState.execBlock_levelOf hexec
        obtain ⟨result, hcheck, -⟩ := ChainState.acceptBlock_ok haccept
        obtain ⟨before, hbefore, hpurged⟩ := (partOf_checkFinality hcheck).readObj v b hb
        have hbeforePlaced : before.patch.ContractsPlaced := by
          rcases readObj_addBlock F hbefore with ⟨-, rfl⟩ | ⟨-, hold⟩
          · exact hplaced
          · exact ih hold
        rcases hpurged with rfl | ⟨patch, rfl⟩
        · exact hbeforePlaced
        · exact hbeforePlaced.purge

/-- Parents are returned in the order of trying and merge in this order to the patch
that is returned with them, and every tip that is left out conflicts with those
before it. -/
def ConsistentMaximal (F : Factory) (J : Dagjs) (pbm : PendingBlocksManager) (n : Option Nat)
    (best : List Hash × PatchDB) : Prop :=
  ∃ tried, TriesInOrder J pbm n tried ∧ best.1.Sublist tried ∧
    LeftOutConflict F pbm tried best.1 ∧ pbm.mergePatches F best.1 = .ok best.2

/-- Two tips that spend the same output, of the conciliums 1 and 2. -/
def twoSpenders : PendingBlocksManager := ⟨graphOf Factory.sample [spender 1 7, spender 2 8], []⟩

end PendingBlocksManager

end CilCore
