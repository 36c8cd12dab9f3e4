import CilCore.Storage.PatchMerge

/-!
# Merging as an algebra

A merge intersects unspent outputs, unites the records of spent ones, takes the
larger level of each concilium and keeps receipts that agree. Without contracts
these rules do not depend on which patch is merged into which, so a block may list
its parents in any order.
-/

namespace CilCore

namespace PatchDB

variable {F : Factory} {A A' B B' C R : PatchDB}

/-- A patch without contract states whose records are in order. -/
structure Plain (patch : PatchDB) : Prop where
  recorded : patch.Recorded
  contracts : patch.mapContractStates = ∅

/-- The coins of an output that both patches have unspent are the same. -/
def Agree (A B : PatchDB) : Prop :=
  ∀ hash mine his, A.getUtxo hash = some mine → B.getUtxo hash = some his →
    ∀ idx coins coins', mine.lookup idx = some coins → his.lookup idx = some coins' →
      coins = coins'

/-- The same unspent outputs, records of spent ones, levels and receipts. -/
structure SameParts (A B : PatchDB) : Prop where
  coins : ∀ hash, A.getUtxo hash = B.getUtxo hash
  spent : ∀ hash, A.getSpentOutputs hash = B.getSpentOutputs hash
  levels : ∀ conciliumId, A.mapConciliumLevel.lookup conciliumId =
    B.mapConciliumLevel.lookup conciliumId
  receipts : ∀ strTxHash, A.getReceipt strTxHash = B.getReceipt strTxHash

/-- Both succeed, with the same parts, or both fail. -/
inductive SameResult : Except String PatchDB → Except String PatchDB → Prop where
  | ok {A B : PatchDB} (h : SameParts A B) : SameResult (.ok A) (.ok B)
  | error (error error' : String) : SameResult (.error error) (.error error')

/-! ### Equivalences -/

theorem SameParts.refl (A : PatchDB) : SameParts A A :=
  ⟨fun _ => rfl, fun _ => rfl, fun _ => rfl, fun _ => rfl⟩

theorem SameParts.symm (h : SameParts A B) : SameParts B A :=
  ⟨fun j => (h.coins j).symm, fun j => (h.spent j).symm, fun j => (h.levels j).symm,
    fun j => (h.receipts j).symm⟩

theorem SameParts.trans (h : SameParts A B) (h' : SameParts B C) : SameParts A C :=
  ⟨fun j => (h.coins j).trans (h'.coins j), fun j => (h.spent j).trans (h'.spent j),
    fun j => (h.levels j).trans (h'.levels j), fun j => (h.receipts j).trans (h'.receipts j)⟩

theorem SameResult.trans {first second third : Except String PatchDB}
    (h : SameResult first second) (h' : SameResult second third) : SameResult first third := by
  cases h with
  | ok h =>
      cases h' with
      | ok h' => exact .ok (h.trans h')
  | error error _ =>
      cases h' with
      | error _ error' => exact .error error error'

/-! ### When plain patches can be merged -/

/-- Different receipts of one transaction. -/
def Collision (A B : PatchDB) : Prop :=
  ∃ strTxHash receipt receipt', A.getReceipt strTxHash = some receipt ∧
    B.getReceipt strTxHash = some receipt' ∧ receipt ≠ receipt'

/-- Neither a double spend nor different receipts. -/
def Compatible (A B : PatchDB) : Prop := ¬ DoubleSpend A B ∧ ¬ Collision A B

theorem receiptConflict_iff : ReceiptConflict A B ↔ Collision A B := by
  constructor
  · rintro ⟨strTxHash, hmem, hne⟩
    rw [Finset.mem_inter, FinMap.mem_keys_iff, FinMap.mem_keys_iff] at hmem
    obtain ⟨⟨receipt, hmine⟩, receipt', hhis⟩ := hmem
    refine ⟨strTxHash, receipt, receipt', hmine, hhis, fun heq => hne ?_⟩
    rw [getReceipt, getReceipt, hmine, hhis, heq]
  · rintro ⟨strTxHash, receipt, receipt', hmine, hhis, hne⟩
    refine ⟨strTxHash, Finset.mem_inter.mpr
      ⟨FinMap.mem_keys_of_lookup hmine, FinMap.mem_keys_of_lookup hhis⟩, fun heq => hne ?_⟩
    rw [hmine, hhis] at heq
    exact Option.some.inj heq

theorem not_fork_of_none (h : A.conciliumId = none ∨ B.conciliumId = none) : ¬ Fork A B := by
  rintro ⟨hmine, hsame, -⟩
  rcases h with h | h
  · exact hmine h
  · exact hmine (hsame.trans h)

theorem merge_ok_iff (hA : A.Plain) (hB : B.Plain) (hfork : ¬ Fork A B) :
    A.merge F B = .ok R ↔ Compatible A B ∧ merged F false A B = R := by
  have hcontract : ¬ ContractConflict A B := by
    rintro ⟨strAddr, hmem, -⟩
    rw [hA.contracts] at hmem
    simp at hmem
  have hwithout : ¬ ContractWithoutConcilium false A B := by
    rintro ⟨strAddr, hmem, -⟩
    rw [hA.contracts, hB.contracts] at hmem
    simp at hmem
  rw [merge_eq_ok, conflict_iff_doubleSpend hA.recorded hB.recorded, receiptConflict_iff]
  simp only [Compatible]
  tauto

theorem merge_of_compatible (hA : A.Plain) (hB : B.Plain) (hfork : ¬ Fork A B)
    (h : Compatible A B) : A.merge F B = .ok (merged F false A B) :=
  (merge_ok_iff hA hB hfork).mpr ⟨h, rfl⟩

theorem merge_of_not_compatible (hA : A.Plain) (hB : B.Plain) (hfork : ¬ Fork A B)
    (h : ¬ Compatible A B) : ∃ error, A.merge F B = .error error := by
  cases hmerge : A.merge F B with
  | error error => exact ⟨error, rfl⟩
  | ok R => exact absurd ((merge_ok_iff hA hB hfork).mp hmerge).1 h

theorem Compatible.symm (h : Compatible A B) : Compatible B A := by
  refine ⟨?_, ?_⟩
  · rintro ⟨hash, idx, txHash, txHash', hmine, hhis, hne⟩
    exact h.1 ⟨hash, idx, txHash', txHash, hhis, hmine, hne.symm⟩
  · rintro ⟨strTxHash, receipt, receipt', hmine, hhis, hne⟩
    exact h.2 ⟨strTxHash, receipt', receipt, hhis, hmine, hne.symm⟩

theorem compatible_self (A : PatchDB) : Compatible A A := by
  refine ⟨?_, ?_⟩
  · rintro ⟨hash, idx, txHash, txHash', hmine, hhis, hne⟩
    exact hne (Option.some.inj (hmine.symm.trans hhis))
  · rintro ⟨strTxHash, receipt, receipt', hmine, hhis, hne⟩
    exact hne (Option.some.inj (hmine.symm.trans hhis))

/-! ### The parts of a merge -/

theorem contracts_merged (hA : A.mapContractStates = ∅) (hB : B.mapContractStates = ∅)
    (bPreferPatchData : Bool) :
    (PatchDB.merged F bPreferPatchData A B).mapContractStates = ∅ := by
  have hnone (addr : Address) : addr ∉ A.mapContractStates.keys ∪ B.mapContractStates.keys := by
    rw [hA, hB]
    simp
  apply Finmap.ext_lookup
  intro addr
  have hlookup : (PatchDB.merged F bPreferPatchData A B).mapContractStates.lookup addr =
      if addr ∈ A.mapContractStates.keys ∪ B.mapContractStates.keys then _ else none :=
    FinMap.lookup_tabulate ..
  rw [hlookup, if_neg (hnone addr), Finmap.lookup_empty]

theorem Plain.merged (hA : A.Plain) (hB : B.Plain) (bPreferPatchData : Bool) :
    (PatchDB.merged F bPreferPatchData A B).Plain :=
  ⟨hA.recorded.merged hB.recorded bPreferPatchData,
    contracts_merged hA.contracts hB.contracts bPreferPatchData⟩

/-- The level of a concilium that a merge takes. -/
def maxLevel (level level' : Option Nat) : Option Nat :=
  if level.isSome || level'.isSome then some (max (level.getD 0) (level'.getD 0)) else none

theorem level_merged (F : Factory) (bPreferPatchData : Bool) (A B : PatchDB) (conciliumId : Nat) :
    (PatchDB.merged F bPreferPatchData A B).mapConciliumLevel.lookup conciliumId =
      maxLevel (A.mapConciliumLevel.lookup conciliumId)
        (B.mapConciliumLevel.lookup conciliumId) := by
  change (FinMap.zipWith (fun _ => maxLevel) A.mapConciliumLevel B.mapConciliumLevel).lookup
    conciliumId = _
  exact FinMap.lookup_zipWith (fun _ => maxLevel) _ _ (fun _ => rfl) conciliumId

theorem getReceipt_merged (F : Factory) (bPreferPatchData : Bool) (A B : PatchDB)
    (strTxHash : Hash) :
    (PatchDB.merged F bPreferPatchData A B).getReceipt strTxHash =
      (A.getReceipt strTxHash).or (B.getReceipt strTxHash) :=
  FinMap.lookup_zipWith _ _ _ (fun _ => rfl) strTxHash

theorem getReceipt_merged_iff (h : ¬ Collision A B) {bPreferPatchData : Bool} {strTxHash : Hash}
    {receipt : TxReceipt} :
    (PatchDB.merged F bPreferPatchData A B).getReceipt strTxHash = some receipt ↔
      A.getReceipt strTxHash = some receipt ∨ B.getReceipt strTxHash = some receipt := by
  rw [getReceipt_merged]
  cases hmine : A.getReceipt strTxHash with
  | none => simp
  | some mine =>
      constructor
      · exact .inl
      · rintro (hmine' | hhis)
        · exact hmine'
        · by_contra hne
          exact h ⟨strTxHash, mine, receipt, hmine, hhis, fun heq => hne (by rw [heq]; rfl)⟩

/-- What conflicts with a merge conflicts with one of the patches. -/
theorem compatible_merged_iff (hA : A.Plain) (hB : B.Plain) (h : Compatible A B) :
    Compatible (PatchDB.merged F false A B) C ↔ Compatible A C ∧ Compatible B C := by
  have hspends : DoubleSpend (PatchDB.merged F false A B) C ↔
      DoubleSpend A C ∨ DoubleSpend B C := by
    simp only [DoubleSpend, spent_merged_iff hA.recorded hB.recorded h.1, or_and_right, exists_or]
  have hreceipts : Collision (PatchDB.merged F false A B) C ↔ Collision A C ∨ Collision B C := by
    simp only [Collision, getReceipt_merged_iff h.2, or_and_right, exists_or]
  simp only [Compatible, hspends, hreceipts]
  tauto

/-! ### The rules for each part -/

theorem mergeUtxo_comm {mine his : Option UTXO}
    (hagree : ∀ a b, mine = some a → his = some b → ∀ idx coins coins',
      a.lookup idx = some coins → b.lookup idx = some coins' → coins = coins') :
    mergeUtxo mine his = mergeUtxo his mine := by
  cases mine with
  | none => cases his <;> rfl
  | some a =>
      cases his with
      | none => rfl
      | some b =>
          refine congrArg some (Finmap.ext_lookup fun idx => ?_)
          rw [FinMap.lookup_tabulate, FinMap.lookup_tabulate, Finset.inter_comm]
          split
          next hmem =>
            rw [Finset.mem_inter, FinMap.mem_keys_iff, FinMap.mem_keys_iff] at hmem
            obtain ⟨⟨coins', hhis⟩, coins, hmine⟩ := hmem
            rw [hmine, hhis, hagree a b rfl rfl idx coins coins' hmine hhis]
          next => rfl

theorem mergeUtxo_assoc (first second third : Option UTXO) :
    mergeUtxo (mergeUtxo first second) third = mergeUtxo first (mergeUtxo second third) := by
  cases first with
  | none => cases second <;> cases third <;> rfl
  | some a =>
      cases second with
      | none => cases third <;> rfl
      | some b =>
          cases third with
          | none => rfl
          | some c =>
              -- the first map supplies the coins of what all three have
              have hkeys : (a.keys ∩ b.keys) ∩ c.keys = a.keys ∩ (b.keys ∩ c.keys) :=
                Finset.inter_assoc ..
              refine congrArg some (Finmap.ext_lookup fun idx => ?_)
              rw [FinMap.keys_tabulate_lookup Finset.inter_subset_left,
                FinMap.keys_tabulate_lookup Finset.inter_subset_left, hkeys,
                FinMap.lookup_tabulate, FinMap.lookup_tabulate, FinMap.lookup_tabulate]
              split
              next hmem =>
                rw [← hkeys, Finset.mem_inter] at hmem
                rw [if_pos hmem.1]
              next => rfl

theorem mergeUtxo_self (utxo : Option UTXO) : mergeUtxo utxo utxo = utxo := by
  cases utxo with
  | none => rfl
  | some a =>
      refine congrArg some (Finmap.ext_lookup fun idx => ?_)
      rw [FinMap.lookup_tabulate, Finset.inter_self]
      split
      next => rfl
      next hnone => exact (FinMap.notMem_keys_iff.mp hnone).symm

theorem maxLevel_comm (level level' : Option Nat) : maxLevel level level' = maxLevel level' level := by
  unfold maxLevel
  rw [Bool.or_comm, max_comm]

theorem maxLevel_assoc (first second third : Option Nat) :
    maxLevel (maxLevel first second) third = maxLevel first (maxLevel second third) := by
  cases first <;> cases second <;> cases third <;> simp [maxLevel, max_assoc]

theorem maxLevel_self (level : Option Nat) : maxLevel level level = level := by
  cases level <;> simp [maxLevel]

/-! ### Merged patches with the same parts -/

theorem Agree.symm (h : Agree A B) : Agree B A :=
  fun hash mine his hmine hhis idx coins coins' hcoins hcoins' =>
    (h hash his mine hhis hmine idx coins' coins hcoins' hcoins).symm

theorem SameParts.merged (hA : A.Plain) (hA' : A'.Plain) (hB : B.Plain) (hB' : B'.Plain)
    (h : SameParts A A') (h' : SameParts B B') :
    SameParts (PatchDB.merged F false A B) (PatchDB.merged F false A' B') where
  coins j := by rw [getUtxo_merged, getUtxo_merged, h.coins, h'.coins]
  spent j := by
    rw [getSpentOutputs_merged hA.recorded hB.recorded,
      getSpentOutputs_merged hA'.recorded hB'.recorded, h.spent, h'.spent]
  levels j := by rw [level_merged, level_merged, h.levels, h'.levels]
  receipts j := by rw [getReceipt_merged, getReceipt_merged, h.receipts, h'.receipts]

theorem sameParts_merged_comm (hA : A.Plain) (hB : B.Plain) (hagree : Agree A B)
    (h : Compatible A B) :
    SameParts (PatchDB.merged F false A B) (PatchDB.merged F false B A) where
  coins j := by
    rw [getUtxo_merged, getUtxo_merged]
    exact mergeUtxo_comm (hagree j)
  spent j := by
    apply Finmap.ext_lookup
    intro idx
    apply Option.ext
    intro txHash
    rw [spent_merged_iff hA.recorded hB.recorded h.1,
      spent_merged_iff hB.recorded hA.recorded h.symm.1, or_comm]
  levels j := by rw [level_merged, level_merged, maxLevel_comm]
  receipts j := by
    apply Option.ext
    intro receipt
    rw [getReceipt_merged_iff h.2, getReceipt_merged_iff h.symm.2, or_comm]

theorem sameParts_merged_assoc (hA : A.Plain) (hB : B.Plain) (hC : C.Plain) :
    SameParts (PatchDB.merged F false (PatchDB.merged F false A B) C)
      (PatchDB.merged F false A (PatchDB.merged F false B C)) where
  coins j := by
    simp only [getUtxo_merged]
    exact mergeUtxo_assoc ..
  spent j := by
    rw [getSpentOutputs_merged (hA.merged hB false).recorded hC.recorded,
      getSpentOutputs_merged hA.recorded hB.recorded,
      getSpentOutputs_merged hA.recorded (hB.merged hC false).recorded,
      getSpentOutputs_merged hB.recorded hC.recorded, Finmap.union_assoc]
  levels j := by
    simp only [level_merged]
    exact maxLevel_assoc ..
  receipts j := by
    simp only [getReceipt_merged]
    exact Option.or_assoc

theorem sameParts_merged_self (hA : A.Plain) : SameParts (PatchDB.merged F false A A) A where
  coins j := by
    rw [getUtxo_merged]
    exact mergeUtxo_self _
  spent j := by
    rw [getSpentOutputs_merged hA.recorded hA.recorded]
    apply Finmap.ext_lookup
    intro idx
    rw [FinMap.lookup_union, Option.or_self]
  levels j := by
    rw [level_merged]
    exact maxLevel_self _
  receipts j := by rw [getReceipt_merged, Option.or_self]

/-- Coins of a merge come from one of the patches. -/
theorem Agree.merged (h : Agree A C) (h' : Agree B C) :
    Agree (PatchDB.merged F false A B) C := by
  intro hash utxo his hutxo hhis idx coins coins' hcoins hcoins'
  rw [getUtxo_merged] at hutxo
  cases hmine : A.getUtxo hash with
  | none =>
      rw [hmine] at hutxo
      cases hother : B.getUtxo hash with
      | none =>
          rw [hother] at hutxo
          cases hutxo
      | some b =>
          rw [hother] at hutxo
          cases hutxo
          exact h' hash _ his hother hhis idx coins coins' hcoins hcoins'
  | some a =>
      rw [hmine] at hutxo
      refine h hash a his hmine hhis idx coins coins' ?_ hcoins'
      cases hother : B.getUtxo hash with
      | none =>
          rw [hother] at hutxo
          cases hutxo
          exact hcoins
      | some b =>
          rw [hother] at hutxo
          cases hutxo
          rw [FinMap.lookup_tabulate] at hcoins
          split at hcoins
          next => exact hcoins
          next => cases hcoins

theorem compatible_of_sameParts (hA : SameParts A A') (hB : SameParts B B') :
    Compatible A B ↔ Compatible A' B' := by
  simp only [Compatible, DoubleSpend, Collision, hA.spent, hA.receipts, hB.spent, hB.receipts]

/-! ### Commutativity, associativity, idempotence -/

theorem sameResult_merge_comm (hA : A.Plain) (hB : B.Plain)
    (hfork : ¬ Fork A B) (hfork' : ¬ Fork B A) (hagree : Agree A B) :
    SameResult (A.merge F B) (B.merge F A) := by
  by_cases h : Compatible A B
  · rw [merge_of_compatible hA hB hfork h, merge_of_compatible hB hA hfork' h.symm]
    exact .ok (sameParts_merged_comm hA hB hagree h)
  · obtain ⟨error, herror⟩ := merge_of_not_compatible hA hB hfork h
    obtain ⟨error', herror'⟩ := merge_of_not_compatible hB hA hfork' fun h' => h h'.symm
    rw [herror, herror']
    exact .error error error'

/-- Merging two patches and then a third, from the left. -/
theorem merge_bind_left (hA : A.Plain) (hB : B.Plain) (hC : C.Plain) (hfork : ¬ Fork A B) :
    (Compatible A B ∧ Compatible A C ∧ Compatible B C →
      (A.merge F B).bind (fun AB => AB.merge F C) =
        .ok (merged F false (merged F false A B) C)) ∧
    (¬ (Compatible A B ∧ Compatible A C ∧ Compatible B C) →
      ∃ error, (A.merge F B).bind (fun AB => AB.merge F C) = .error error) := by
  have hfork' : ¬ Fork (merged F false A B) C := not_fork_of_none (.inl rfl)
  have hAB : (merged F false A B).Plain := hA.merged hB false
  by_cases h : Compatible A B
  · rw [merge_of_compatible hA hB hfork h, Except.bind]
    refine ⟨fun hall => ?_, fun hnot => ?_⟩
    · exact merge_of_compatible hAB hC hfork' ((compatible_merged_iff hA hB h).mpr hall.2)
    · exact merge_of_not_compatible hAB hC hfork' fun h' =>
        hnot ⟨h, (compatible_merged_iff hA hB h).mp h'⟩
  · obtain ⟨error, herror⟩ := merge_of_not_compatible (F := F) hA hB hfork h
    rw [herror]
    exact ⟨fun hall => absurd hall.1 h, fun _ => ⟨error, rfl⟩⟩

/-- And from the right. -/
theorem merge_bind_right (hA : A.Plain) (hB : B.Plain) (hC : C.Plain) (hfork : ¬ Fork B C) :
    (Compatible A B ∧ Compatible A C ∧ Compatible B C →
      (B.merge F C).bind (fun BC => A.merge F BC) =
        .ok (merged F false A (merged F false B C))) ∧
    (¬ (Compatible A B ∧ Compatible A C ∧ Compatible B C) →
      ∃ error, (B.merge F C).bind (fun BC => A.merge F BC) = .error error) := by
  have hfork' : ¬ Fork A (merged F false B C) := not_fork_of_none (.inr rfl)
  have hBC : (merged F false B C).Plain := hB.merged hC false
  by_cases h : Compatible B C
  · have hiff : Compatible A (merged F false B C) ↔ Compatible A B ∧ Compatible A C := by
      constructor
      · intro h'
        have hboth := (compatible_merged_iff hB hC h).mp h'.symm
        exact ⟨hboth.1.symm, hboth.2.symm⟩
      · intro hboth
        exact ((compatible_merged_iff hB hC h).mpr ⟨hboth.1.symm, hboth.2.symm⟩).symm
    rw [merge_of_compatible hB hC hfork h, Except.bind]
    refine ⟨fun hall => ?_, fun hnot => ?_⟩
    · exact merge_of_compatible hA hBC hfork' (hiff.mpr ⟨hall.1, hall.2.1⟩)
    · exact merge_of_not_compatible hA hBC hfork' fun h' =>
        hnot ⟨(hiff.mp h').1, (hiff.mp h').2, h⟩
  · obtain ⟨error, herror⟩ := merge_of_not_compatible (F := F) hB hC hfork h
    rw [herror]
    exact ⟨fun hall => absurd hall.2.2 h, fun _ => ⟨error, rfl⟩⟩

theorem sameResult_merge_assoc (hA : A.Plain) (hB : B.Plain) (hC : C.Plain)
    (hfork : ¬ Fork A B) (hfork' : ¬ Fork B C) :
    SameResult ((A.merge F B).bind fun AB => AB.merge F C)
      ((B.merge F C).bind fun BC => A.merge F BC) := by
  obtain ⟨hok, hfail⟩ := merge_bind_left (F := F) hA hB hC hfork
  obtain ⟨hok', hfail'⟩ := merge_bind_right (F := F) hA hB hC hfork'
  by_cases h : Compatible A B ∧ Compatible A C ∧ Compatible B C
  · rw [hok h, hok' h]
    exact .ok (sameParts_merged_assoc hA hB hC)
  · obtain ⟨error, herror⟩ := hfail h
    obtain ⟨error', herror'⟩ := hfail' h
    rw [herror, herror']
    exact .error error error'

theorem sameResult_merge_self (hA : A.Plain) (hfork : ¬ Fork A A) :
    SameResult (A.merge F A) (.ok A) := by
  rw [merge_of_compatible hA hA hfork (compatible_self A)]
  exact .ok (sameParts_merged_self hA)

/-! ### Merging one patch after another -/

/-- Merge patches into what has been merged so far. -/
def mergeAll (F : Factory) : List PatchDB → PatchDB → Except String PatchDB
  | [], patchMerged => .ok patchMerged
  | patch :: rest, patchMerged =>
      match patch.merge F patchMerged with
      | .error error => .error error
      | .ok patchMerged => mergeAll F rest patchMerged

/-- What has been merged from plain patches that agree with those to come. -/
structure Accumulated (patches : List PatchDB) (patchMerged : PatchDB) : Prop where
  plain : patchMerged.Plain
  noConcilium : patchMerged.conciliumId = none
  agree : ∀ patch ∈ patches, Agree patch patchMerged

section MergeAll

variable {patches rest : List PatchDB} {patch patchMerged patchMerged' : PatchDB}

theorem mergeAll_compatible (hpatch : patch.Plain) (hacc : Accumulated (patch :: rest) patchMerged)
    (h : Compatible patch patchMerged) : mergeAll F (patch :: rest) patchMerged =
      mergeAll F rest (merged F false patch patchMerged) := by
  rw [mergeAll, merge_of_compatible hpatch hacc.plain (not_fork_of_none (.inr hacc.noConcilium)) h]

theorem mergeAll_not_compatible (hpatch : patch.Plain)
    (hacc : Accumulated (patch :: rest) patchMerged) (h : ¬ Compatible patch patchMerged) :
    ∃ error, mergeAll F (patch :: rest) patchMerged = .error error := by
  obtain ⟨error, herror⟩ := merge_of_not_compatible (F := F) hpatch hacc.plain
    (not_fork_of_none (.inr hacc.noConcilium)) h
  exact ⟨error, by rw [mergeAll, herror]⟩

theorem Accumulated.merged (hpatch : patch.Plain)
    (hpatches : ∀ p ∈ patch :: rest, ∀ q ∈ patch :: rest, Agree p q)
    (hacc : Accumulated (patch :: rest) patchMerged) :
    Accumulated rest (PatchDB.merged F false patch patchMerged) where
  plain := hpatch.merged hacc.plain false
  noConcilium := rfl
  agree p hp := by
    have hp := List.mem_cons_of_mem patch hp
    exact ((hpatches patch List.mem_cons_self p hp).merged (hacc.agree p hp).symm).symm

/-- The same patches into accumulators with the same parts. -/
theorem mergeAll_congr (hplain : ∀ p ∈ patches, p.Plain)
    (hpatches : ∀ p ∈ patches, ∀ q ∈ patches, Agree p q)
    (hacc : Accumulated patches patchMerged) (hacc' : Accumulated patches patchMerged')
    (h : SameParts patchMerged patchMerged') :
    SameResult (mergeAll F patches patchMerged) (mergeAll F patches patchMerged') := by
  induction patches generalizing patchMerged patchMerged' with
  | nil => exact .ok h
  | cons patch rest ih =>
      have hpatch := hplain patch List.mem_cons_self
      have hiff := compatible_of_sameParts (.refl patch) h
      by_cases hcompatible : Compatible patch patchMerged
      · rw [mergeAll_compatible hpatch hacc hcompatible,
          mergeAll_compatible hpatch hacc' (hiff.mp hcompatible)]
        exact ih (fun p hp => hplain p (List.mem_cons_of_mem _ hp))
          (fun p hp q hq => hpatches p (List.mem_cons_of_mem _ hp) q (List.mem_cons_of_mem _ hq))
          (hacc.merged hpatch hpatches) (hacc'.merged hpatch hpatches)
          (.merged hpatch hpatch hacc.plain hacc'.plain (.refl patch) h)
      · obtain ⟨error, herror⟩ := mergeAll_not_compatible (F := F) hpatch hacc hcompatible
        obtain ⟨error', herror'⟩ := mergeAll_not_compatible (F := F) hpatch hacc'
          fun h' => hcompatible (hiff.mpr h')
        rw [herror, herror']
        exact .error error error'

/-- Two patches at the head of the list. -/
theorem mergeAll_two (hA : A.Plain) (hB : B.Plain)
    (hpatches : ∀ p ∈ A :: B :: rest, ∀ q ∈ A :: B :: rest, Agree p q)
    (hacc : Accumulated (A :: B :: rest) patchMerged) :
    (Compatible A patchMerged ∧ Compatible B patchMerged ∧ Compatible A B →
      mergeAll F (A :: B :: rest) patchMerged =
        mergeAll F rest (PatchDB.merged F false B (PatchDB.merged F false A patchMerged))) ∧
    (¬ (Compatible A patchMerged ∧ Compatible B patchMerged ∧ Compatible A B) →
      ∃ error, mergeAll F (A :: B :: rest) patchMerged = .error error) := by
  by_cases h : Compatible A patchMerged
  · have hnext := hacc.merged (F := F) hA hpatches
    have hiff : Compatible B (PatchDB.merged F false A patchMerged) ↔
        Compatible B patchMerged ∧ Compatible A B := by
      constructor
      · intro h'
        have hboth := (compatible_merged_iff hA hacc.plain h).mp h'.symm
        exact ⟨hboth.2.symm, hboth.1⟩
      · intro hboth
        exact ((compatible_merged_iff hA hacc.plain h).mpr ⟨hboth.2, hboth.1.symm⟩).symm
    rw [mergeAll_compatible hA hacc h]
    refine ⟨fun hall => ?_, fun hnot => ?_⟩
    · exact mergeAll_compatible hB hnext (hiff.mpr hall.2)
    · exact mergeAll_not_compatible hB hnext fun h' => hnot ⟨h, hiff.mp h'⟩
  · exact ⟨fun hall => absurd hall.1 h, fun _ => mergeAll_not_compatible hA hacc h⟩

theorem Accumulated.perm {patches' : List PatchDB} (hperm : patches.Perm patches')
    (hacc : Accumulated patches patchMerged) : Accumulated patches' patchMerged :=
  ⟨hacc.plain, hacc.noConcilium, fun p hp => hacc.agree p (hperm.mem_iff.mpr hp)⟩

theorem mergeAll_swap (hplain : ∀ p ∈ A :: B :: rest, p.Plain)
    (hpatches : ∀ p ∈ A :: B :: rest, ∀ q ∈ A :: B :: rest, Agree p q)
    (hacc : Accumulated (A :: B :: rest) patchMerged) :
    SameResult (mergeAll F (A :: B :: rest) patchMerged)
      (mergeAll F (B :: A :: rest) patchMerged) := by
  have hswap : (A :: B :: rest).Perm (B :: A :: rest) := .swap B A rest
  have hpatches' : ∀ p ∈ B :: A :: rest, ∀ q ∈ B :: A :: rest, Agree p q := fun p hp q hq =>
    hpatches p (hswap.mem_iff.mpr hp) q (hswap.mem_iff.mpr hq)
  have hA := hplain A (by simp)
  have hB := hplain B (by simp)
  have hacc' := hacc.perm hswap
  obtain ⟨hok, hfail⟩ := mergeAll_two (F := F) hA hB hpatches hacc
  obtain ⟨hok', hfail'⟩ := mergeAll_two (F := F) hB hA hpatches' hacc'
  have hrest (p : PatchDB) (hp : p ∈ rest) : p ∈ A :: B :: rest := by simp [hp]
  by_cases h : Compatible A patchMerged ∧ Compatible B patchMerged ∧ Compatible A B
  · rw [hok h, hok' ⟨h.2.1, h.1, h.2.2.symm⟩]
    have hsame : SameParts (PatchDB.merged F false B (PatchDB.merged F false A patchMerged))
        (PatchDB.merged F false A (PatchDB.merged F false B patchMerged)) := by
      have hcomm := sameParts_merged_comm (F := F) hB hA (hpatches' B (by simp) A (by simp))
        h.2.2.symm
      exact ((sameParts_merged_assoc hB hA hacc.plain).symm.trans
        (.merged (hB.merged hA false) (hA.merged hB false) hacc.plain hacc.plain hcomm
          (.refl _))).trans (sameParts_merged_assoc hA hB hacc.plain)
    refine mergeAll_congr (fun p hp => hplain p (hrest p hp))
      (fun p hp q hq => hpatches p (hrest p hp) q (hrest q hq)) ?_ ?_ hsame
    · exact (hacc.merged hA hpatches).merged hB fun p hp q hq =>
        hpatches p (List.mem_cons_of_mem _ hp) q (List.mem_cons_of_mem _ hq)
    · exact (hacc'.merged hB hpatches').merged hA fun p hp q hq =>
        hpatches' p (List.mem_cons_of_mem _ hp) q (List.mem_cons_of_mem _ hq)
  · obtain ⟨error, herror⟩ := hfail h
    obtain ⟨error', herror'⟩ := hfail' fun h' => h ⟨h'.2.1, h'.1, h'.2.2.symm⟩
    rw [herror, herror']
    exact .error error error'

/-- The order of the patches does not matter. -/
theorem mergeAll_perm {patches' : List PatchDB} (hperm : patches.Perm patches')
    (hplain : ∀ p ∈ patches, p.Plain) (hpatches : ∀ p ∈ patches, ∀ q ∈ patches, Agree p q)
    (hacc : Accumulated patches patchMerged) :
    SameResult (mergeAll F patches patchMerged) (mergeAll F patches' patchMerged) := by
  induction hperm generalizing patchMerged with
  | nil => exact .ok (.refl _)
  | @cons patch rest rest' _ ih =>
      have hpatch := hplain patch List.mem_cons_self
      by_cases h : Compatible patch patchMerged
      · rw [mergeAll, mergeAll, merge_of_compatible hpatch hacc.plain
          (not_fork_of_none (.inr hacc.noConcilium)) h]
        exact ih (fun p hp => hplain p (List.mem_cons_of_mem _ hp))
          (fun p hp q hq => hpatches p (List.mem_cons_of_mem _ hp) q (List.mem_cons_of_mem _ hq))
          (hacc.merged hpatch hpatches)
      · obtain ⟨error, herror⟩ := merge_of_not_compatible (F := F) hpatch hacc.plain
          (not_fork_of_none (.inr hacc.noConcilium)) h
        rw [mergeAll, mergeAll, herror]
        exact .error error error
  | swap A B rest => exact mergeAll_swap hplain hpatches hacc
  | @trans patches between _ hfirst _ ih ih' =>
      have hback (p : PatchDB) (hp : p ∈ between) : p ∈ patches := hfirst.mem_iff.mpr hp
      exact (ih hplain hpatches hacc).trans (ih' (fun p hp => hplain p (hback p hp))
        (fun p hp q hq => hpatches p (hback p hp) q (hback q hq)) (hacc.perm hfirst))

end MergeAll

end PatchDB

end CilCore
