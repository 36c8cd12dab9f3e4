import CilCore.Storage.PatchMerge
import CilCore.Storage.PersistentStorage

/-!
# What purging leaves visible

When a patch becomes stable it is written to storage and purged from the patches that are
still pending. A transaction sees the coins of a hash in the pending patch if that has the
hash, and else in storage.
-/

namespace CilCore

/-- The UTXO of a hash that is visible through a patch. -/
def seenUtxo (storage : Storage) (patch : PatchDB) (hash : Hash) : Option UTXO :=
  match patch.getUtxo hash with
  | some utxo => some utxo
  | none => storage.utxos.lookup hash

/-- The output that is visible through a patch. -/
def seenCoins (storage : Storage) (patch : PatchDB) (hash : Hash) (idx : Nat) : Option Coins :=
  (seenUtxo storage patch hash).bind fun utxo => utxo.lookup idx

namespace PatchDB

/-- The outputs that a pending patch has of a hash are unspent in a stable patch that has
the hash too, or are recorded there as spent. -/
def AccountsFor (stable patch : PatchDB) : Prop :=
  ∀ hash utxo utxoStable, patch.getUtxo hash = some utxo → stable.getUtxo hash = some utxoStable →
    ∀ idx ∈ utxo.getIndexes,
      idx ∈ utxoStable.getIndexes ∨ idx ∈ (stable.getSpentOutputs hash).keys

variable {F : Factory} {stable patch R : PatchDB} {hash : Hash} {idx : Nat}

theorem seenUtxo_of_none (storage : Storage) (h : patch.getUtxo hash = none) :
    seenUtxo storage patch hash = storage.utxos.lookup hash := by
  rw [seenUtxo, h]

theorem seenUtxo_of_some (storage : Storage) {utxo : UTXO} (h : patch.getUtxo hash = some utxo) :
    seenUtxo storage patch hash = some utxo := by
  rw [seenUtxo, h]

theorem lookup_applyPatch (F : Factory) (stable : PatchDB) (nHeightMax : Nat) (storage : Storage)
    (hash : Hash) :
    (storage.applyPatch F stable nHeightMax).utxos.lookup hash =
      match stable.getUtxo hash with
      | some utxo => if utxo.isEmpty then none else some utxo
      | none => storage.utxos.lookup hash :=
  FinMap.lookup_zipWith
    (fun _ patched stored =>
      match patched with
      | some utxo => if UTXO.isEmpty utxo then none else some utxo
      | none => stored)
    stable.coins storage.utxos (fun _ => rfl) hash

/-- An emptied UTXO has no outputs, whether it is kept or deleted. -/
theorem lookup_of_applied (F : Factory) {utxo : UTXO} (h : stable.getUtxo hash = some utxo)
    (nHeightMax : Nat) (storage : Storage) (idx : Nat) :
    ((storage.applyPatch F stable nHeightMax).utxos.lookup hash).bind (·.lookup idx) =
      utxo.lookup idx := by
  rw [lookup_applyPatch, h]
  dsimp only
  split
  next hempty =>
    have hnone : utxo.lookup idx = none := by
      rw [← FinMap.notMem_keys_iff, hempty]
      exact Finset.notMem_empty idx
    exact hnone.symm
  next => rfl

/-- **Purging preserves the view of coins.** -/
theorem seenCoins_purge (hstable : Built F stable) {bPreferPatchData : Bool}
    (hmerge : patch.merge F stable bPreferPatchData = .ok R) (haccounts : AccountsFor stable patch)
    (storage : Storage) (nHeightMax : Nat) (hash : Hash) (idx : Nat) :
    seenCoins (storage.applyPatch F stable nHeightMax) (patch.purge F stable) hash idx =
      seenCoins storage R hash idx := by
  obtain ⟨-, -, -, -, -, rfl⟩ := merge_eq_ok.mp hmerge
  have hmerged := getUtxo_merged F bPreferPatchData patch stable hash
  have hpurge := getUtxo_purge F patch stable hash
  rw [seenCoins, seenCoins]
  cases hmine : patch.getUtxo hash with
  | none =>
      have hnot : ¬ BothHave patch stable hash := fun hboth =>
        FinMap.notMem_keys_iff.mpr hmine hboth.1
      rw [if_neg hnot, hmine] at hpurge
      rw [seenUtxo_of_none _ hpurge]
      cases hhis : stable.getUtxo hash with
      | none =>
          rw [hmine, hhis] at hmerged
          rw [seenUtxo_of_none _ hmerged, lookup_applyPatch, hhis]
      | some utxo =>
          rw [hmine, hhis] at hmerged
          rw [seenUtxo_of_some _ hmerged, lookup_of_applied F hhis]
          rfl
  | some utxo =>
      cases hhis : stable.getUtxo hash with
      | none =>
          have hnot : ¬ BothHave patch stable hash := fun hboth =>
            FinMap.notMem_keys_iff.mpr hhis hboth.2
          rw [if_neg hnot, hmine] at hpurge
          rw [hmine, hhis] at hmerged
          rw [seenUtxo_of_some _ hpurge, seenUtxo_of_some _ hmerged]
      | some utxoStable =>
          have hboth : BothHave patch stable hash :=
            ⟨FinMap.mem_keys_of_lookup hmine, FinMap.mem_keys_of_lookup hhis⟩
          rw [hmine, hhis] at hmerged
          rw [seenUtxo_of_some _ hmerged]
          rw [if_pos hboth] at hpurge
          by_cases hsame : SameUtxo patch stable hash
          · -- nothing has changed: the stored UTXO is the one of both patches
            obtain rfl : utxo = utxoStable :=
              Option.some.inj (hmine.symm.trans (hsame.1.trans hhis))
            rw [if_pos hsame] at hpurge
            rw [seenUtxo_of_none _ hpurge, lookup_of_applied F hhis, Option.bind_some,
              FinMap.lookup_tabulate, Finset.inter_self]
            split
            next => rfl
            next hnot => exact FinMap.notMem_keys_iff.mp hnot
          · -- what is not unspent in the stable patch is what it has spent
            rw [if_neg hsame, hmine, Option.map_some] at hpurge
            rw [seenUtxo_of_some _ hpurge, Option.bind_some, Option.bind_some,
              FinMap.lookup_tabulate, FinMap.lookup_tabulate]
            have hsplit : idx ∈ utxo.keys \ (stable.getSpentOutputs hash).keys ↔
                idx ∈ utxo.keys ∩ utxoStable.keys := by
              rw [Finset.mem_sdiff, Finset.mem_inter]
              refine and_congr_right fun hidx => ⟨fun hunspent => ?_, fun hunspent => ?_⟩
              · exact (haccounts hash utxo utxoStable hmine hhis idx hidx).resolve_right hunspent
              · exact hstable.recorded.disjoint hash utxoStable hhis idx hunspent
            simp only [hsplit]

section Sample

/-- Two outputs of the transaction 100. -/
def twoOutputs : UTXO := oneOutput.insert 1 ⟨2, 6⟩

/-- The patch of a transaction that spends the first of them. -/
def firstSpent : PatchDB :=
  (empty.setUtxo 100 ((∅ : UTXO).insert 1 ⟨2, 6⟩)).setSpentOutput 100 0 7

theorem built_firstSpent (F : Factory) : Built F firstSpent := by
  have hspend : empty.spendCoins 100 twoOutputs 0 7 = .ok firstSpent := by decide
  exact .spendCoins (.new empty rfl rfl) hspend

/-- The patch of a transaction that spends the second. -/
def secondSpent : PatchDB := (empty.setUtxo 100 oneOutput).setSpentOutput 100 1 8

theorem accountsFor_secondSpent : AccountsFor firstSpent secondSpent := by
  intro hash utxo utxoStable hmine _ idx hidx
  have hutxo : (empty.setUtxo 100 oneOutput).getUtxo hash = some utxo := hmine
  rw [getUtxo_setUtxo] at hutxo
  split at hutxo
  next hhash =>
    subst hhash
    obtain rfl := Option.some.inj hutxo
    have hzero : idx = 0 := by simpa [UTXO.getIndexes, oneOutput, FinMap.keys_insert] using hidx
    subst hzero
    exact .inr (by decide)
  next => cases hutxo

theorem seenCoins_purge_secondSpent : ∃ R,
    secondSpent.merge Factory.sample firstSpent = .ok R ∧
      seenCoins (({ Storage.empty with utxos := (∅ : FinMap Hash UTXO).insert 100 twoOutputs } :
          Storage).applyPatch Factory.sample firstSpent 0)
          (secondSpent.purge Factory.sample firstSpent) 100 0 =
        seenCoins { Storage.empty with utxos := (∅ : FinMap Hash UTXO).insert 100 twoOutputs }
          R 100 0 := by
  obtain ⟨R, hmerge, -⟩ := exists_ok_of_any (x := secondSpent.merge Factory.sample firstSpent)
    (p := fun _ => true) (by decide)
  exact ⟨R, hmerge, seenCoins_purge (built_firstSpent _) hmerge accountsFor_secondSpent _ 0 100 0⟩

end Sample

end PatchDB

end CilCore
