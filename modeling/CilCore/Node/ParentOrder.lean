import CilCore.Node.PendingBlocksManager
import CilCore.Storage.PatchAlgebra

/-!
# The order of parents

A block lists its parents in some order, and their patches are merged in that order.
-/

namespace CilCore

open PatchDB

variable {F : Factory} {dag : PendingDag}

namespace PendingBlocksManager

/-- The patches of the hashes that are pending. -/
def patchesOf (dag : PendingDag) (arrHashes : List Hash) : List PatchDB :=
  arrHashes.filterMap fun vertex => (dag.readObj vertex).map (·.patch)

theorem mergePatchesFrom_eq (arrHashes : List Hash) (patchMerged : PatchDB) :
    mergePatchesFrom F dag arrHashes patchMerged =
      mergeAll F (patchesOf dag arrHashes) patchMerged := by
  induction arrHashes generalizing patchMerged with
  | nil => rfl
  | cons vertex rest ih =>
      rw [mergePatchesFrom, patchesOf, List.filterMap_cons]
      cases hvertex : dag.readObj vertex with
      | none => exact ih patchMerged
      | some block =>
          dsimp only [Option.map_some]
          rw [mergeAll]
          cases block.patch.merge F patchMerged with
          | error error => rfl
          | ok patchMerged => exact ih patchMerged

theorem accumulated_empty (patches : List PatchDB) : Accumulated patches PatchDB.empty where
  plain := ⟨.new rfl rfl, rfl⟩
  noConcilium := rfl
  agree _ _ := fun _ _ _ _ hhis => (nomatch hhis)

/-- Plain pending patches that agree on their coins are merged to the same parts,
whatever the order of the hashes. -/
theorem mergePatches_perm (pbm : PendingBlocksManager) {arrHashes arrHashes' : List Hash}
    (hperm : arrHashes.Perm arrHashes')
    (hplain : ∀ patch ∈ patchesOf pbm.dag arrHashes, patch.Plain)
    (hagree : ∀ patch ∈ patchesOf pbm.dag arrHashes, ∀ patch' ∈ patchesOf pbm.dag arrHashes,
      Agree patch patch') :
    SameResult (pbm.mergePatches F arrHashes) (pbm.mergePatches F arrHashes') := by
  rw [mergePatches, mergePatches, mergePatchesFrom_eq, mergePatchesFrom_eq]
  exact mergeAll_perm (hperm.filterMap _) hplain hagree (accumulated_empty _)

end PendingBlocksManager

/-- **Merge is commutative, associative and idempotent** on patches without contracts
and without a concilium of their own, so the merged patch of several parents does not
depend on their order. -/
theorem merge_algebra (F : Factory) :
    (∀ A B : PatchDB, A.Plain → B.Plain → A.conciliumId = none → B.conciliumId = none →
      Agree A B → SameResult (A.merge F B) (B.merge F A)) ∧
    (∀ A B C : PatchDB, A.Plain → B.Plain → C.Plain → A.conciliumId = none →
      B.conciliumId = none → C.conciliumId = none → Agree A B → Agree A C → Agree B C →
      SameResult ((A.merge F B).bind fun AB => AB.merge F C)
        ((B.merge F C).bind fun BC => A.merge F BC)) ∧
    (∀ A : PatchDB, A.Plain → A.conciliumId = none → SameResult (A.merge F A) (.ok A)) ∧
    ∀ (pbm : PendingBlocksManager) (arrHashes arrHashes' : List Hash),
      arrHashes.Perm arrHashes' →
      (∀ patch ∈ PendingBlocksManager.patchesOf pbm.dag arrHashes, patch.Plain) →
      (∀ patch ∈ PendingBlocksManager.patchesOf pbm.dag arrHashes,
        ∀ patch' ∈ PendingBlocksManager.patchesOf pbm.dag arrHashes, Agree patch patch') →
      SameResult (pbm.mergePatches F arrHashes) (pbm.mergePatches F arrHashes') := by
  refine ⟨?_, ?_, ?_, ?_⟩
  · intro A B hA hB hnone hnone' hagree
    exact sameResult_merge_comm hA hB (not_fork_of_none (.inl hnone))
      (not_fork_of_none (.inl hnone')) hagree
  · intro A B C hA hB hC hnone hnone' _ _ _ _
    exact sameResult_merge_assoc hA hB hC (not_fork_of_none (.inl hnone))
      (not_fork_of_none (.inl hnone'))
  · intro A hA hnone
    exact sameResult_merge_self hA (not_fork_of_none (.inl hnone))
  · intro pbm arrHashes arrHashes' hperm hplain hagree
    exact pbm.mergePatches_perm hperm hplain hagree

theorem plain_spentIn (txHash : Hash) : (spentIn txHash).Plain :=
  ⟨(built_spentIn Factory.sample txHash).recorded, rfl⟩

/-- Nothing is unspent in a patch that spends the only output. -/
theorem agree_spentIn (txHash : Hash) (B : PatchDB) : Agree (spentIn txHash) B := by
  intro hash mine his hmine _ idx coins coins' hcoins
  have hlookup : (if hash = 100 then some ∅ else none) = some mine :=
    (getUtxo_setUtxo 100 ∅ PatchDB.empty hash).symm.trans hmine
  split at hlookup
  next =>
    cases hlookup
    cases hcoins
  next => cases hlookup

theorem merge_algebra_spentIn :
    SameResult ((spentIn 7).merge Factory.sample (spentIn 8))
      ((spentIn 8).merge Factory.sample (spentIn 7)) :=
  (merge_algebra Factory.sample).1 _ _ (plain_spentIn 7) (plain_spentIn 8) rfl rfl
    (agree_spentIn 7 _)

end CilCore
