import CilCore.Storage.PatchAlgebra
import CilCore.Structures.ContractContents

/-!
# Mutually mergeable patches

Patches that can be merged pairwise can be merged in any number and after any
purge: a merge and a purge record no spend, no contract and no receipt that does
not come from one of them.
-/

namespace CilCore

namespace PatchDB

variable {F : Factory} {A B R patch : PatchDB} {patches : List PatchDB}

/-- Patches that the code builds, each of which can be merged with the others and
with the empty patch that every merge starts from. -/
structure MutuallyMergeable (F : Factory) (patches : List PatchDB) : Prop where
  built : ∀ patch ∈ patches, Built F patch
  empty : ∀ patch ∈ patches, ∃ R, patch.merge F PatchDB.empty = .ok R
  pairs : ∀ A ∈ patches, ∀ B ∈ patches, A ≠ B → ∃ R, A.merge F B = .ok R

/-- Everything a patch says comes from one of the patches. -/
structure Covered (patches : List PatchDB) (patch : PatchDB) : Prop where
  recorded : patch.Recorded
  spent : ∀ hash idx txHash, (patch.getSpentOutputs hash).lookup idx = some txHash →
    ∃ p ∈ patches, (p.getSpentOutputs hash).lookup idx = some txHash
  contract : ∀ addr contract, patch.getContract addr = some contract →
    ∃ p ∈ patches, ∃ own, p.getContract addr = some own ∧ own.conciliumId = contract.conciliumId
  receipt : ∀ strTxHash receipt, patch.getReceipt strTxHash = some receipt →
    ∃ p ∈ patches, p.getReceipt strTxHash = some receipt

/-! ### What pairs agree on -/

theorem MutuallyMergeable.not_doubleSpend (h : MutuallyMergeable F patches) (hA : A ∈ patches)
    (hB : B ∈ patches) : ¬ DoubleSpend A B := by
  by_cases heq : A = B
  · rw [heq]
    exact (compatible_self B).1
  · obtain ⟨R, hR⟩ := h.pairs A hA B hB heq
    obtain ⟨-, hconflict, -⟩ := merge_eq_ok.mp hR
    rwa [conflict_iff_doubleSpend (h.built A hA).recorded (h.built B hB).recorded] at hconflict

theorem MutuallyMergeable.not_collision (h : MutuallyMergeable F patches) (hA : A ∈ patches)
    (hB : B ∈ patches) : ¬ Collision A B := by
  by_cases heq : A = B
  · rw [heq]
    exact (compatible_self B).2
  · obtain ⟨R, hR⟩ := h.pairs A hA B hB heq
    obtain ⟨-, -, -, -, hreceipts, -⟩ := merge_eq_ok.mp hR
    rwa [receiptConflict_iff] at hreceipts

theorem MutuallyMergeable.conciliumId_eq (h : MutuallyMergeable F patches) (hA : A ∈ patches)
    (hB : B ∈ patches) {addr : Address} {mine his : Contract}
    (hmine : A.getContract addr = some mine) (hhis : B.getContract addr = some his) :
    mine.conciliumId = his.conciliumId := by
  by_cases heq : A = B
  · subst heq
    rw [Option.some.inj (hmine.symm.trans hhis)]
  · obtain ⟨R, hR⟩ := h.pairs A hA B hB heq
    obtain ⟨-, -, hcontracts, -⟩ := merge_eq_ok.mp hR
    by_contra hne
    refine hcontracts ⟨addr, Finset.mem_inter.mpr
      ⟨FinMap.mem_keys_of_lookup hmine, FinMap.mem_keys_of_lookup hhis⟩, ?_⟩
    rw [hmine, hhis]
    exact fun hsame => hne (Option.some.inj hsame)

theorem MutuallyMergeable.conciliumId_ne_none (h : MutuallyMergeable F patches)
    (hA : A ∈ patches) {addr : Address} {contract : Contract}
    (hcontract : A.getContract addr = some contract) : contract.conciliumId ≠ none := by
  obtain ⟨R, hR⟩ := h.empty A hA
  obtain ⟨-, -, -, hwithout, -⟩ := merge_eq_ok.mp hR
  intro hnone
  refine hwithout ⟨addr, Finset.mem_union_left _ (FinMap.mem_keys_of_lookup hcontract), ?_⟩
  have hother : PatchDB.empty.getContract addr = none := rfl
  rw [hcontract, hother]
  exact hnone

/-! ### What is covered stays mergeable -/

theorem covered_of_mem (h : MutuallyMergeable F patches) (hpatch : patch ∈ patches) :
    Covered patches patch where
  recorded := (h.built patch hpatch).recorded
  spent _ _ _ hspent := ⟨patch, hpatch, hspent⟩
  contract _ contract hcontract := ⟨patch, hpatch, contract, hcontract, rfl⟩
  receipt _ _ hreceipt := ⟨patch, hpatch, hreceipt⟩

theorem covered_empty (patches : List PatchDB) : Covered patches PatchDB.empty where
  recorded := .new rfl rfl
  spent _ _ _ hspent := (nomatch hspent)
  contract _ _ hcontract := (nomatch hcontract)
  receipt _ _ hreceipt := (nomatch hreceipt)

theorem Covered.conciliumId_ne_none (h : MutuallyMergeable F patches) (hA : Covered patches A)
    {addr : Address} {contract : Contract} (hcontract : A.getContract addr = some contract) :
    contract.conciliumId ≠ none := by
  obtain ⟨p, hp, own, hown, hconcilium⟩ := hA.contract addr contract hcontract
  exact hconcilium ▸ h.conciliumId_ne_none hp hown

/-- The contract that survives is one of the two. -/
theorem mem_of_winnerContract {bPreferPatchData : Bool} {mine his : Option Contract}
    {winner : Contract} (h : winnerContract bPreferPatchData A B mine his = some winner) :
    mine = some winner ∨ his = some winner := by
  cases mine with
  | none => exact .inr h
  | some a =>
      cases his with
      | none => exact .inl h
      | some b =>
          unfold winnerContract at h
          dsimp only at h
          split at h
          · exact .inr h
          · exact .inl h

theorem exists_winnerContract {bPreferPatchData : Bool} {mine his : Option Contract}
    (h : mine ≠ none ∨ his ≠ none) :
    ∃ winner, winnerContract bPreferPatchData A B mine his = some winner := by
  cases mine with
  | none =>
      obtain ⟨b, rfl⟩ := Option.ne_none_iff_exists'.mp (h.resolve_left (fun hne => hne rfl))
      exact ⟨b, rfl⟩
  | some a =>
      cases his with
      | none => exact ⟨a, rfl⟩
      | some b =>
          unfold winnerContract
          dsimp only
          split
          · exact ⟨b, rfl⟩
          · exact ⟨a, rfl⟩

/-- Patches that are covered can be merged when one of them has no concilium. -/
theorem Covered.exists_merge (h : MutuallyMergeable F patches) (hA : Covered patches A)
    (hB : Covered patches B) (hnone : A.conciliumId = none ∨ B.conciliumId = none) :
    A.merge F B = .ok (merged F false A B) := by
  have hspends : ¬ DoubleSpend A B := by
    rintro ⟨hash, idx, txHash, txHash', hmine, hhis, hne⟩
    obtain ⟨p, hp, hmine⟩ := hA.spent hash idx txHash hmine
    obtain ⟨q, hq, hhis⟩ := hB.spent hash idx txHash' hhis
    exact h.not_doubleSpend hp hq ⟨hash, idx, txHash, txHash', hmine, hhis, hne⟩
  have hreceipts : ¬ Collision A B := by
    rintro ⟨strTxHash, receipt, receipt', hmine, hhis, hne⟩
    obtain ⟨p, hp, hmine⟩ := hA.receipt strTxHash receipt hmine
    obtain ⟨q, hq, hhis⟩ := hB.receipt strTxHash receipt' hhis
    exact h.not_collision hp hq ⟨strTxHash, receipt, receipt', hmine, hhis, hne⟩
  have hcontracts : ¬ ContractConflict A B := by
    rintro ⟨addr, hmem, hne⟩
    rw [Finset.mem_inter, FinMap.mem_keys_iff, FinMap.mem_keys_iff] at hmem
    obtain ⟨⟨mine, hmine⟩, his, hhis⟩ := hmem
    obtain ⟨p, hp, own, hown, hconcilium⟩ := hA.contract addr mine hmine
    obtain ⟨q, hq, own', hown', hconcilium'⟩ := hB.contract addr his hhis
    refine hne ?_
    rw [getContract, getContract, hmine, hhis, Option.map_some, Option.map_some, ← hconcilium,
      ← hconcilium', h.conciliumId_eq hp hq hown hown']
  have hwithout : ¬ ContractWithoutConcilium false A B := by
    rintro ⟨addr, hmem, hnowinner⟩
    have hsome : A.getContract addr ≠ none ∨ B.getContract addr ≠ none := by
      rcases Finset.mem_union.mp hmem with hmine | hhis
      · exact .inl fun hnot => FinMap.notMem_keys_iff.mpr hnot hmine
      · exact .inr fun hnot => FinMap.notMem_keys_iff.mpr hnot hhis
    obtain ⟨winner, hwinner⟩ := exists_winnerContract hsome
    rw [hwinner] at hnowinner
    rcases mem_of_winnerContract hwinner with hmine | hhis
    · exact hA.conciliumId_ne_none h hmine hnowinner
    · exact hB.conciliumId_ne_none h hhis hnowinner
  exact merge_eq_ok.mpr ⟨fun hfork => not_fork_of_none hnone hfork.2,
    fun hconflict => hspends ((conflict_iff_doubleSpend hA.recorded hB.recorded).mp hconflict),
    hcontracts, hwithout, fun hconflict => hreceipts (receiptConflict_iff.mp hconflict), rfl⟩

/-- The contract of a merge is a copy of the one that survives. -/
theorem lookup_getContract_merged (F : Factory) (bPreferPatchData : Bool) (A B : PatchDB)
    (addr : Address) :
    (merged F bPreferPatchData A B).getContract addr =
      (winnerContract bPreferPatchData A B (A.getContract addr) (B.getContract addr)).bind
        fun winner => (winner.clone F).toOption :=
  FinMap.lookup_zipWith (fun _ contractThis contractPatch =>
    (winnerContract bPreferPatchData A B contractThis contractPatch).bind fun winner =>
      (winner.clone F).toOption) A.mapContractStates B.mapContractStates (fun _ => rfl) addr

theorem exists_clone {contract : Contract} (h : contract.conciliumId ≠ none) :
    ∃ copy, contract.clone F = .ok copy ∧ copy.conciliumId = contract.conciliumId := by
  cases hclone : contract.clone F with
  | error error =>
      unfold Contract.clone at hclone
      split at hclone
      next hnone => exact absurd hnone h
      next => cases hclone
  | ok copy => exact ⟨copy, rfl, Contract.conciliumId_clone hclone⟩

theorem getContract_merged {bPreferPatchData : Bool} {addr : Address} {contract : Contract}
    (h : (merged F bPreferPatchData A B).getContract addr = some contract) :
    ∃ winner, (A.getContract addr = some winner ∨ B.getContract addr = some winner) ∧
      winner.conciliumId = contract.conciliumId := by
  rw [lookup_getContract_merged, Option.bind_eq_some_iff] at h
  obtain ⟨winner, hwinner, hclone⟩ := h
  refine ⟨winner, mem_of_winnerContract hwinner, ?_⟩
  cases hcopy : winner.clone F with
  | error _ =>
      rw [hcopy] at hclone
      cases hclone
  | ok copy =>
      rw [hcopy] at hclone
      cases hclone
      exact (Contract.conciliumId_clone hcopy).symm

theorem Covered.merged (hA : Covered patches A) (hB : Covered patches B) :
    Covered patches (PatchDB.merged F false A B) where
  recorded := hA.recorded.merged hB.recorded false
  spent hash idx txHash hspent := by
    rw [getSpentOutputs_merged hA.recorded hB.recorded, FinMap.lookup_union,
      Option.or_eq_some_iff] at hspent
    rcases hspent with hhis | ⟨-, hmine⟩
    · exact hB.spent hash idx txHash hhis
    · exact hA.spent hash idx txHash hmine
  contract addr contract hcontract := by
    obtain ⟨winner, hwinner, hconcilium⟩ := getContract_merged hcontract
    rw [← hconcilium]
    rcases hwinner with hmine | hhis
    · exact hA.contract addr winner hmine
    · exact hB.contract addr winner hhis
  receipt strTxHash receipt hreceipt := by
    rw [getReceipt_merged, Option.or_eq_some_iff] at hreceipt
    rcases hreceipt with hmine | ⟨-, hhis⟩
    · exact hA.receipt strTxHash receipt hmine
    · exact hB.receipt strTxHash receipt hhis

theorem Covered.purge (hA : Covered patches A) (hB : Covered patches B) :
    Covered patches (A.purge F B) where
  recorded := hA.recorded.purge F B
  spent hash idx txHash hspent := by
    rw [getSpentOutputs_purge] at hspent
    split at hspent
    next =>
      split at hspent
      next => cases hspent
      next =>
        rw [FinMap.lookup_union, Option.or_eq_some_iff, takenSpends, FinMap.lookup_tabulate]
          at hspent
        rcases hspent with htaken | ⟨-, hmine⟩
        · split at htaken
          next => exact hB.spent hash idx txHash htaken
          next => cases htaken
        · exact hA.spent hash idx txHash hmine
    next => exact hA.spent hash idx txHash hspent
  contract addr contract hcontract := by
    have hlookup := (FinMap.lookup_tabulate ..).symm.trans hcontract
    split at hlookup
    next =>
      split at hlookup
      next => cases hlookup
      next => exact hA.contract addr contract hlookup
    next => cases hlookup
  receipt strTxHash receipt hreceipt := by
    have hlookup := (FinMap.lookup_tabulate ..).symm.trans hreceipt
    split at hlookup
    next =>
      split at hlookup
      next => cases hlookup
      next => exact hA.receipt strTxHash receipt hlookup
    next => cases hlookup

end PatchDB

end CilCore
