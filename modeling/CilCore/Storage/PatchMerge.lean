import CilCore.Storage.Patch

/-!
# What a merge of patches detects

Spent outputs are recorded next to the map of unspent ones, and a merge compares
the records only of hashes that both patches have coins of. Every operation keeps
the records among the coins, and apart from the unspent outputs, so that these
comparisons miss no double spend.
-/

namespace CilCore

namespace PatchDB

variable {F : Factory} {A B R patch patch' : PatchDB} {hash : Hash} {idx : Nat}

/-- `removeUtxo`. -/
def removeUtxo (strHash : Hash) (patch : PatchDB) : PatchDB :=
  { patch with
    coins := patch.coins.erase strHash
    mapSpentUtxos := patch.mapSpentUtxos.erase strHash }

/-- Records of spent outputs belong to hashes with coins, and none of them is of an
unspent output. -/
structure Recorded (patch : PatchDB) : Prop where
  coins : patch.mapSpentUtxos.keys ⊆ patch.coins.keys
  disjoint : ∀ hash utxo, patch.getUtxo hash = some utxo →
    ∀ idx ∈ utxo.getIndexes, idx ∉ (patch.getSpentOutputs hash).keys

/-- The patches that the operations on the UTXO part make, as their callers use them: a
created output was not there before, and the coins that `setUtxo` puts in have not been
spent in the patch. The other operations leave coins and records as they are. -/
inductive Built (F : Factory) : PatchDB → Prop where
  | new (patch : PatchDB) (hcoins : patch.coins = ∅) (hspent : patch.mapSpentUtxos = ∅) :
      Built F patch
  | createCoins {patch patch' : PatchDB} {txHash : Hash} {idx : Nat} {coins : Coins}
      (h : Built F patch) (hfresh : idx ∉ (patch.getSpentOutputs txHash).keys)
      (hcreate : patch.createCoins txHash idx coins = .ok patch') : Built F patch'
  | spendCoins {patch patch' : PatchDB} {strHash : Hash} {utxo : UTXO} {nTxOutput : Nat}
      {txHashSpent : Hash} (h : Built F patch)
      (hspend : patch.spendCoins strHash utxo nTxOutput txHashSpent = .ok patch') :
      Built F patch'
  | setUtxo {patch : PatchDB} {txHash : Hash} {utxo : UTXO} (h : Built F patch)
      (hunspent : ∀ idx ∈ utxo.getIndexes, idx ∉ (patch.getSpentOutputs txHash).keys) :
      Built F (patch.setUtxo txHash utxo)
  | removeUtxo {patch : PatchDB} (strHash : Hash) (h : Built F patch) :
      Built F (patch.removeUtxo strHash)
  | merge {A B R : PatchDB} {bPreferPatchData : Bool} (hA : Built F A) (hB : Built F B)
      (hmerge : A.merge F B bPreferPatchData = .ok R) : Built F R
  | purge {A B : PatchDB} (hA : Built F A) (hB : Built F B) : Built F (A.purge F B)
  | other {patch patch' : PatchDB} (h : Built F patch) (hcoins : patch'.coins = patch.coins)
      (hspent : patch'.mapSpentUtxos = patch.mapSpentUtxos) : Built F patch'

/-- Two transactions are recorded as having spent one output. -/
def DoubleSpend (A B : PatchDB) : Prop :=
  ∃ hash idx txHash txHash', (A.getSpentOutputs hash).lookup idx = some txHash ∧
    (B.getSpentOutputs hash).lookup idx = some txHash' ∧ txHash ≠ txHash'

/-! ### Reading a changed patch -/

theorem getUtxo_setUtxo (txHash : Hash) (utxo : UTXO) (patch : PatchDB) (j : Hash) :
    (patch.setUtxo txHash utxo).getUtxo j = if j = txHash then some utxo else patch.getUtxo j :=
  FinMap.lookup_insert_ite ..

theorem getSpentOutputs_setSpentOutput (strUtxoHash : Hash) (nTxOutput : Nat) (txHashSpent : Hash)
    (patch : PatchDB) (j : Hash) :
    (patch.setSpentOutput strUtxoHash nTxOutput txHashSpent).getSpentOutputs j =
      if j = strUtxoHash then (patch.getSpentOutputs strUtxoHash).insert nTxOutput txHashSpent
      else patch.getSpentOutputs j := by
  unfold getSpentOutputs setSpentOutput
  dsimp only
  rw [FinMap.lookup_insert_ite]
  split <;> rfl

/-! ### The records of a patch -/

theorem getSpentOutputs_eq_empty (h : patch.Recorded) (hhash : patch.getUtxo hash = none) :
    patch.getSpentOutputs hash = ∅ := by
  have hnot : hash ∉ patch.mapSpentUtxos.keys :=
    fun hmem => FinMap.notMem_keys_iff.mpr hhash (h.coins hmem)
  rw [getSpentOutputs, FinMap.notMem_keys_iff.mp hnot]
  rfl

theorem mem_coins_of_spent (h : patch.Recorded) {txHash : Hash}
    (hspent : (patch.getSpentOutputs hash).lookup idx = some txHash) :
    hash ∈ patch.coins.keys := by
  by_contra hnot
  rw [getSpentOutputs_eq_empty h (FinMap.notMem_keys_iff.mp hnot)] at hspent
  cases hspent

/-- The records of a changed patch are still good if only one hash changed, and its own
records are. -/
theorem Recorded.update (h : patch.Recorded) (hash : Hash)
    (hutxo : ∀ j ≠ hash, patch'.getUtxo j = patch.getUtxo j)
    (hspent : ∀ j ≠ hash, patch'.mapSpentUtxos.lookup j = patch.mapSpentUtxos.lookup j)
    (hcoins : hash ∈ patch'.mapSpentUtxos.keys → hash ∈ patch'.coins.keys)
    (hdisjoint : ∀ utxo, patch'.getUtxo hash = some utxo →
      ∀ idx ∈ utxo.getIndexes, idx ∉ (patch'.getSpentOutputs hash).keys) : patch'.Recorded where
  coins j hj := by
    by_cases heq : j = hash
    · exact heq ▸ hcoins (heq ▸ hj)
    · rw [FinMap.mem_keys_iff, hspent j heq, ← FinMap.mem_keys_iff] at hj
      obtain ⟨utxo, hcoin⟩ := FinMap.mem_keys_iff.mp (h.coins hj)
      exact FinMap.mem_keys_of_lookup ((hutxo j heq).trans hcoin)
  disjoint j utxo hj idx hidx := by
    by_cases heq : j = hash
    · subst heq
      exact hdisjoint utxo hj idx hidx
    · have hrecords : patch'.getSpentOutputs j = patch.getSpentOutputs j := by
        rw [getSpentOutputs, hspent j heq, getSpentOutputs]
      rw [hrecords]
      exact h.disjoint j utxo (hutxo j heq ▸ hj) idx hidx

/-! ### Each operation keeps the records -/

theorem Recorded.new (hcoins : patch.coins = ∅) (hspent : patch.mapSpentUtxos = ∅) :
    patch.Recorded where
  coins := by rw [hspent]; simp
  disjoint hash utxo h := by
    rw [getUtxo, hcoins] at h
    cases h

theorem Recorded.setUtxo {utxo : UTXO} (h : patch.Recorded)
    (hunspent : ∀ idx ∈ utxo.getIndexes, idx ∉ (patch.getSpentOutputs hash).keys) :
    (patch.setUtxo hash utxo).Recorded := by
  refine h.update hash (fun j hj => ?_) (fun _ _ => rfl) (fun _ => ?_) ?_
  · exact (getUtxo_setUtxo ..).trans (if_neg hj)
  · exact FinMap.mem_keys_of_lookup ((getUtxo_setUtxo ..).trans (if_pos rfl))
  · intro utxo' hutxo
    rw [getUtxo_setUtxo, if_pos rfl] at hutxo
    cases hutxo
    exact hunspent

theorem Recorded.createCoins {coins : Coins} (h : patch.Recorded)
    (hfresh : idx ∉ (patch.getSpentOutputs hash).keys)
    (hcreate : patch.createCoins hash idx coins = .ok patch') : patch'.Recorded := by
  unfold PatchDB.createCoins at hcreate
  split at hcreate
  next => cases hcreate
  next utxo hadd =>
    cases hcreate
    unfold UTXO.addCoins at hadd
    split at hadd
    next => cases hadd
    next =>
      cases hadd
      refine h.setUtxo fun j hj => ?_
      rw [UTXO.getIndexes, FinMap.keys_insert, Finset.mem_insert] at hj
      rcases hj with rfl | hj
      · exact hfresh
      · cases hold : patch.getUtxo hash with
        | none => simp [hold] at hj
        | some old =>
            refine h.disjoint hash old hold j ?_
            rwa [hold] at hj

theorem Recorded.spendCoins {utxo : UTXO} {txHash : Hash} (h : patch.Recorded)
    (hspend : patch.spendCoins hash utxo idx txHash = .ok patch') : patch'.Recorded := by
  unfold PatchDB.spendCoins at hspend
  split at hspend
  next => cases hspend
  next utxoCopy hcopy =>
    cases hspend
    unfold UTXO.spendCoins at hcopy
    split at hcopy
    next =>
      cases hcopy
      refine h.update hash (fun j hj => ?_) (fun j hj => ?_) (fun _ => ?_) ?_
      · exact (getUtxo_setUtxo ..).trans (if_neg hj)
      · exact (FinMap.lookup_insert_ite ..).trans (if_neg hj)
      · exact FinMap.mem_keys_of_lookup ((getUtxo_setUtxo ..).trans (if_pos rfl))
      · intro utxo' hutxo j hj
        have hkept : utxo' = ((patch.getUtxo hash).getD utxo).erase idx :=
          (Option.some.inj (((getUtxo_setUtxo ..).trans (if_pos rfl)).symm.trans hutxo)).symm
        rw [getSpentOutputs_setSpentOutput, if_pos rfl, FinMap.keys_insert, Finset.mem_insert,
          not_or]
        rw [hkept, UTXO.getIndexes, Finmap.mem_keys, Finmap.mem_erase] at hj
        refine ⟨hj.1, ?_⟩
        change j ∉ (patch.getSpentOutputs hash).keys
        cases hold : patch.getUtxo hash with
        | none =>
            rw [getSpentOutputs_eq_empty h hold]
            simp
        | some old =>
            refine h.disjoint hash old hold j ?_
            rw [hold] at hj
            exact Finmap.mem_keys.mpr hj.2
    next => cases hcopy

theorem Recorded.removeUtxo (h : patch.Recorded) (hash : Hash) :
    (patch.removeUtxo hash).Recorded := by
  refine h.update hash (fun j hj => ?_) (fun j hj => ?_) (fun hmem => ?_) ?_
  · exact (FinMap.lookup_erase_ite ..).trans (if_neg hj)
  · exact (FinMap.lookup_erase_ite ..).trans (if_neg hj)
  · rw [FinMap.mem_keys_iff] at hmem
    obtain ⟨records, hrecords⟩ := hmem
    exact absurd hrecords (by simp [PatchDB.removeUtxo])
  · intro utxo hutxo
    exact absurd hutxo (by simp [PatchDB.removeUtxo, getUtxo])

theorem Recorded.other (h : patch.Recorded) (hcoins : patch'.coins = patch.coins)
    (hspent : patch'.mapSpentUtxos = patch.mapSpentUtxos) : patch'.Recorded where
  coins := by
    rw [hcoins, hspent]
    exact h.coins
  disjoint hash utxo hutxo := by
    rw [getUtxo, hcoins] at hutxo
    rw [getSpentOutputs, hspent]
    exact h.disjoint hash utxo hutxo

/-! ### Merging -/

theorem getUtxo_merged (F : Factory) (bPreferPatchData : Bool) (A B : PatchDB) (hash : Hash) :
    (merged F bPreferPatchData A B).getUtxo hash = mergeUtxo (A.getUtxo hash) (B.getUtxo hash) :=
  FinMap.lookup_zipWith _ _ _ (fun _ => rfl) hash

theorem getIndexes_mergeUtxo {mine his utxo : UTXO}
    (h : mergeUtxo (some mine) (some his) = some utxo) :
    utxo.getIndexes = mine.getIndexes ∩ his.getIndexes := by
  have hutxo : FinMap.tabulate (mine.keys ∩ his.keys) (fun idx => mine.lookup idx) = utxo :=
    Option.some.inj h
  rw [← hutxo, UTXO.getIndexes, FinMap.keys_tabulate_lookup Finset.inter_subset_left]
  rfl

/-- What is unspent after a merge is unspent in each patch that knows the hash. -/
theorem mem_getIndexes_mergeUtxo {mine his : Option UTXO} {utxo : UTXO}
    (h : mergeUtxo mine his = some utxo) (hidx : idx ∈ utxo.getIndexes) :
    (∀ utxoMy, mine = some utxoMy → idx ∈ utxoMy.getIndexes) ∧
      ∀ utxoHis, his = some utxoHis → idx ∈ utxoHis.getIndexes := by
  cases mine with
  | none =>
      refine ⟨fun _ h => (nomatch h), ?_⟩
      rintro utxoHis rfl
      cases h
      exact hidx
  | some utxoMy =>
      cases his with
      | none =>
          cases h
          exact ⟨by rintro _ ⟨⟩; exact hidx, fun _ h => (nomatch h)⟩
      | some utxoHis =>
          rw [getIndexes_mergeUtxo h, Finset.mem_inter] at hidx
          exact ⟨by rintro _ ⟨⟩; exact hidx.1, by rintro _ ⟨⟩; exact hidx.2⟩

section Merge

variable (hA : A.Recorded) (hB : B.Recorded)
include hA hB

/-- A merge keeps the records of both patches. -/
theorem mergeSpent_eq_union (hash : Hash) :
    mergeSpent A B hash = B.getSpentOutputs hash ∪ A.getSpentOutputs hash := by
  unfold mergeSpent
  split
  next => rfl
  next hboth =>
    split
    next hmine =>
      have hhis : B.getSpentOutputs hash = ∅ := by
        apply getSpentOutputs_eq_empty hB
        by_contra hcoins
        refine hboth ⟨?_, by rwa [← not_not (a := hash ∈ B.coins.keys), FinMap.notMem_keys_iff]⟩
        by_contra hnone
        exact hmine (getSpentOutputs_eq_empty hA (FinMap.notMem_keys_iff.mp hnone))
      rw [hhis, Finmap.empty_union]
    next hmine =>
      rw [not_not.mp hmine, Finmap.union_empty]

theorem getSpentOutputs_merged {bPreferPatchData : Bool} (hash : Hash) :
    (merged F bPreferPatchData A B).getSpentOutputs hash =
      B.getSpentOutputs hash ∪ A.getSpentOutputs hash := by
  have hmerged : (merged F bPreferPatchData A B).mapSpentUtxos.lookup hash =
      if hash ∈ A.coins.keys ∪ B.coins.keys then
        if mergeSpent A B hash = ∅ then none else some (mergeSpent A B hash)
      else none := FinMap.lookup_tabulate ..
  rw [getSpentOutputs, hmerged, ← mergeSpent_eq_union hA hB]
  split
  next =>
    split
    next hempty => exact hempty.symm
    next => rfl
  next hnone =>
    rw [Finset.mem_union, not_or, FinMap.notMem_keys_iff, FinMap.notMem_keys_iff] at hnone
    rw [mergeSpent_eq_union hA hB, getSpentOutputs_eq_empty hA hnone.1,
      getSpentOutputs_eq_empty hB hnone.2, Finmap.union_empty]
    rfl

theorem Recorded.merged (bPreferPatchData : Bool) :
    (PatchDB.merged F bPreferPatchData A B).Recorded where
  coins hash hhash := by
    obtain ⟨records, hrecords⟩ := FinMap.mem_keys_iff.mp hhash
    have hmem : hash ∈ A.coins.keys ∪ B.coins.keys := by
      by_contra hnot
      have hnone := (FinMap.lookup_tabulate ..).symm.trans hrecords
      rw [if_neg hnot] at hnone
      cases hnone
    rw [FinMap.mem_keys_iff]
    change ∃ utxo, (PatchDB.merged F bPreferPatchData A B).getUtxo hash = some utxo
    rw [getUtxo_merged]
    rcases Finset.mem_union.mp hmem with hmine | hhis
    · obtain ⟨mine, hmine⟩ := FinMap.mem_keys_iff.mp hmine
      rw [getUtxo, hmine]
      cases B.getUtxo hash <;> exact ⟨_, rfl⟩
    · obtain ⟨his, hhis⟩ := FinMap.mem_keys_iff.mp hhis
      have hhis : B.getUtxo hash = some his := hhis
      rw [hhis]
      cases A.getUtxo hash <;> exact ⟨_, rfl⟩
  disjoint hash utxo hutxo idx hidx hspent := by
    rw [getUtxo_merged] at hutxo
    obtain ⟨hmine, hhis⟩ := mem_getIndexes_mergeUtxo hutxo hidx
    rw [getSpentOutputs_merged hA hB, Finmap.mem_keys, Finmap.mem_union] at hspent
    rcases hspent with hspent | hspent
    · cases hB' : B.getUtxo hash with
      | none =>
          rw [getSpentOutputs_eq_empty hB hB'] at hspent
          exact Finmap.notMem_empty hspent
      | some utxoHis =>
          exact hB.disjoint hash utxoHis hB' idx (hhis utxoHis hB') (Finmap.mem_keys.mpr hspent)
    · cases hA' : A.getUtxo hash with
      | none =>
          rw [getSpentOutputs_eq_empty hA hA'] at hspent
          exact Finmap.notMem_empty hspent
      | some utxoMy =>
          exact hA.disjoint hash utxoMy hA' idx (hmine utxoMy hA') (Finmap.mem_keys.mpr hspent)

/-- The comparison of a merge finds every double spend, and nothing else. -/
theorem conflict_iff_doubleSpend : Conflict A B ↔ DoubleSpend A B := by
  constructor
  · rintro ⟨hash, -, idx, hidx, hne⟩
    rw [Finset.mem_inter, FinMap.mem_keys_iff, FinMap.mem_keys_iff] at hidx
    obtain ⟨⟨txHash, htx⟩, txHash', htx'⟩ := hidx
    refine ⟨hash, idx, txHash, txHash', htx, htx', fun heq => hne ?_⟩
    rw [htx, htx', heq]
  · rintro ⟨hash, idx, txHash, txHash', htx, htx', hne⟩
    refine ⟨hash, ?_, idx, ?_, fun heq => hne ?_⟩
    · exact Finset.mem_inter.mpr ⟨mem_coins_of_spent hA htx, mem_coins_of_spent hB htx'⟩
    · exact Finset.mem_inter.mpr
        ⟨FinMap.mem_keys_of_lookup htx, FinMap.mem_keys_of_lookup htx'⟩
    · rw [htx, htx'] at heq
      exact Option.some.inj heq

/-- Without a double spend the records of a merge are those of both patches. -/
theorem spent_merged_iff (hspends : ¬ DoubleSpend A B) {bPreferPatchData : Bool} {txHash : Hash} :
    ((PatchDB.merged F bPreferPatchData A B).getSpentOutputs hash).lookup idx = some txHash ↔
      (A.getSpentOutputs hash).lookup idx = some txHash ∨
        (B.getSpentOutputs hash).lookup idx = some txHash := by
  rw [getSpentOutputs_merged hA hB, FinMap.lookup_union]
  cases hhis : (B.getSpentOutputs hash).lookup idx with
  | none => simp
  | some txHash' =>
      constructor
      · exact .inr
      · rintro (hmine | hhis')
        · by_contra hne
          refine hspends ⟨hash, idx, txHash, txHash', hmine, hhis, fun heq => hne ?_⟩
          rw [heq]
          rfl
        · exact hhis'

end Merge

/-! ### Purging -/

/-- What `purge` leaves of the coins of a hash. -/
theorem getUtxo_purge (F : Factory) (A B : PatchDB) (hash : Hash) :
    (A.purge F B).getUtxo hash =
      if BothHave A B hash then
        if SameUtxo A B hash then none
        else (A.getUtxo hash).map fun utxo =>
          FinMap.tabulate (utxo.keys \ (B.getSpentOutputs hash).keys) fun idx => utxo.lookup idx
      else A.getUtxo hash := by
  refine (FinMap.lookup_tabulate ..).trans ?_
  split
  next => rfl
  next hnone =>
    have hnot : ¬ BothHave A B hash := fun hboth => hnone hboth.1
    rw [if_neg hnot]
    exact (FinMap.notMem_keys_iff.mp hnone).symm

/-- What a patch records of the outputs that a stable patch has spent. -/
def takenSpends (A B : PatchDB) (hash : Hash) : FinMap Nat Hash :=
  FinMap.tabulate (((A.getUtxo hash).getD ∅).keys ∩ (B.getSpentOutputs hash).keys)
    fun idx => (B.getSpentOutputs hash).lookup idx

theorem getSpentOutputs_purge (F : Factory) (A B : PatchDB) (hash : Hash) :
    (A.purge F B).getSpentOutputs hash =
      if BothHave A B hash then
        if SameUtxo A B hash then ∅ else takenSpends A B hash ∪ A.getSpentOutputs hash
      else A.getSpentOutputs hash := by
  have hlookup : (A.purge F B).mapSpentUtxos.lookup hash = _ := FinMap.lookup_tabulate ..
  rw [getSpentOutputs, hlookup]
  split
  next =>
    split
    next =>
      split
      next => rfl
      next =>
        dsimp only
        split
        next hempty => rw [takenSpends, hempty, Finmap.empty_union, getSpentOutputs]
        next => rfl
    next => rfl
  next hnone =>
    rw [Finset.mem_union, not_or] at hnone
    have hnot : ¬ BothHave A B hash := fun hboth => hnone.2 hboth.1
    rw [if_neg hnot, getSpentOutputs, FinMap.notMem_keys_iff.mp hnone.1]

theorem Recorded.purge (hA : A.Recorded) (F : Factory) (B : PatchDB) :
    (A.purge F B).Recorded where
  coins hash hhash := by
    obtain ⟨records, hrecords⟩ := FinMap.mem_keys_iff.mp hhash
    have hlookup := (FinMap.lookup_tabulate ..).symm.trans hrecords
    rw [FinMap.mem_keys_iff]
    change ∃ utxo, (A.purge F B).getUtxo hash = some utxo
    rw [getUtxo_purge]
    split at hlookup
    next =>
      split at hlookup
      next hboth =>
        split at hlookup
        next => cases hlookup
        next hsame =>
          obtain ⟨old, hold⟩ := FinMap.mem_keys_iff.mp hboth.1
          rw [if_pos hboth, if_neg hsame, getUtxo, hold]
          exact ⟨_, rfl⟩
      next hboth =>
        rw [if_neg hboth]
        exact FinMap.mem_keys_iff.mp (hA.coins (FinMap.mem_keys_of_lookup hlookup))
    next => cases hlookup
  disjoint hash utxo hutxo idx hidx hspent := by
    rw [getUtxo_purge] at hutxo
    rw [getSpentOutputs_purge] at hspent
    split at hutxo
    next hboth =>
      rw [if_pos hboth] at hspent
      split at hutxo
      next => cases hutxo
      next hsame =>
        rw [if_neg hsame, Finmap.mem_keys, Finmap.mem_union] at hspent
        obtain ⟨old, hold, rfl⟩ := Option.map_eq_some_iff.mp hutxo
        have hkept : idx ∈ old.keys \ (B.getSpentOutputs hash).keys := by
          rw [UTXO.getIndexes, FinMap.keys_tabulate] at hidx
          exact (Finset.mem_filter.mp hidx).1
        rw [Finset.mem_sdiff] at hkept
        rcases hspent with htaken | hspent
        · rw [← Finmap.mem_keys, takenSpends, FinMap.keys_tabulate, Finset.mem_filter,
            Finset.mem_inter] at htaken
          exact hkept.2 htaken.1.2
        · exact hA.disjoint hash old hold idx hkept.1 (Finmap.mem_keys.mpr hspent)
    next hboth =>
      rw [if_neg hboth] at hspent
      exact hA.disjoint hash utxo hutxo idx hidx hspent

/-! ### All patches -/

theorem Built.recorded (h : Built F patch) : patch.Recorded := by
  induction h with
  | new patch hcoins hspent => exact .new hcoins hspent
  | createCoins _ hfresh hcreate ih => exact ih.createCoins hfresh hcreate
  | spendCoins _ hspend ih => exact ih.spendCoins hspend
  | setUtxo _ hunspent ih => exact ih.setUtxo hunspent
  | removeUtxo strHash _ ih => exact ih.removeUtxo strHash
  | merge _ _ hmerge ihA ihB =>
      obtain ⟨-, -, -, -, -, rfl⟩ := merge_eq_ok.mp hmerge
      exact ihA.merged ihB _
  | purge _ _ ihA _ => exact ihA.purge F _
  | other _ hcoins hspent ih => exact ih.other hcoins hspent

/-- A merge fails with a conflict of spent outputs. -/
theorem merge_eq_conflict {bPreferPatchData : Bool} :
    A.merge F B bPreferPatchData = .error "Patch merge: conflict" ↔
      ¬ (!bPreferPatchData ∧ Fork A B) ∧ Conflict A B := by
  unfold PatchDB.merge
  split
  next hfork => simp [hfork]
  next hfork =>
    split
    next hconflict => exact iff_of_true rfl ⟨hfork, hconflict⟩
    next hconflict =>
      split
      next => simp [hconflict]
      next =>
        split
        next => simp [hconflict]
        next => split <;> simp [hconflict]

/-- **Merge detects exactly the double spends.** Records are kept among the coins and
apart from what is unspent; a merge fails on them if and only if some output has been
spent in two transactions; and otherwise it intersects the unspent outputs of a hash
that both patches know, and unites the records. -/
theorem merge_doubleSpend (F : Factory) (A B : PatchDB) (hA : Built F A) (hB : Built F B)
    (bPreferPatchData : Bool) :
    A.Recorded ∧ B.Recorded ∧
    (A.merge F B bPreferPatchData = .error "Patch merge: conflict" ↔
      ¬ (!bPreferPatchData ∧ Fork A B) ∧ DoubleSpend A B) ∧
    ∀ R, A.merge F B bPreferPatchData = .ok R → ∀ hash,
      (∀ mine his, A.getUtxo hash = some mine → B.getUtxo hash = some his →
        ∃ utxo, R.getUtxo hash = some utxo ∧
          utxo.getIndexes = mine.getIndexes ∩ his.getIndexes) ∧
      (A.getUtxo hash = none → R.getUtxo hash = B.getUtxo hash) ∧
      (B.getUtxo hash = none → R.getUtxo hash = A.getUtxo hash) ∧
      ∀ idx txHash, (R.getSpentOutputs hash).lookup idx = some txHash ↔
        (A.getSpentOutputs hash).lookup idx = some txHash ∨
          (B.getSpentOutputs hash).lookup idx = some txHash := by
  have hA := hA.recorded
  have hB := hB.recorded
  have hconflict := conflict_iff_doubleSpend hA hB
  refine ⟨hA, hB, by rw [merge_eq_conflict, hconflict], fun R hmerge hash => ?_⟩
  obtain ⟨-, hok, -, -, -, rfl⟩ := merge_eq_ok.mp hmerge
  rw [hconflict] at hok
  rw [getUtxo_merged]
  refine ⟨fun mine his hmine hhis => ?_, fun hmine => ?_, fun hhis => ?_,
    fun idx txHash => spent_merged_iff hA hB hok⟩
  · rw [hmine, hhis]
    exact ⟨_, rfl, getIndexes_mergeUtxo rfl⟩
  · rw [hmine]
    cases B.getUtxo hash <;> rfl
  · rw [hhis]
    cases A.getUtxo hash <;> rfl

/-- An output of the transaction 100. -/
def oneOutput : UTXO := (∅ : UTXO).insert 0 ⟨1, 5⟩

/-- The patch of a transaction that spends it. -/
def spentIn (txHash : Hash) : PatchDB := (empty.setUtxo 100 ∅).setSpentOutput 100 0 txHash

theorem built_spentIn (F : Factory) (txHash : Hash) : Built F (spentIn txHash) := by
  have hspend : empty.spendCoins 100 oneOutput 0 txHash = .ok (spentIn txHash) := rfl
  exact .spendCoins (.new empty rfl rfl) hspend

theorem merge_doubleSpend_spentIn :
    (spentIn 7).merge Factory.sample (spentIn 8) = .error "Patch merge: conflict" := by
  obtain ⟨-, -, hconflict, -⟩ := merge_doubleSpend Factory.sample (spentIn 7) (spentIn 8)
    (built_spentIn _ 7) (built_spentIn _ 8) false
  exact hconflict.mpr ⟨by decide, 100, 0, 7, 8, by decide, by decide, by decide⟩

end PatchDB

end CilCore
