import CilCore.Node.LatestContract

/-!
# What purging leaves of contracts

When blocks become stable, their merged patch is written to storage, and a contract of a
pending patch is dropped if its encoded data are those of the stable one. A contract also
has a balance, which a purge does not look at.
-/

namespace CilCore

/-- What one sees of a contract. -/
structure SeenContract where
  data : Data
  balance : Amount
  contractCode : Option String
  conciliumId : Option Nat
deriving DecidableEq

/-- The data, the balance, the code and the concilium of a contract. -/
def Contract.seen (F : Factory) (contract : Contract) : SeenContract where
  data := contract.data F
  balance := contract.balance
  contractCode := contract.contractCode
  conciliumId := contract.conciliumId

/-- The contract that is visible through a patch. -/
def seenContract (F : Factory) (storage : Storage) (patch : PatchDB) (addr : Address) :
    Option SeenContract :=
  match patch.getContract addr with
  | some contract => some (contract.seen F)
  | none => (storage.getContract addr).map (·.seen F)

namespace Contract

variable {F : Factory} {contract copy : Contract}

theorem contractCode_dirtyWorkaround (F : Factory) (contract : Contract) :
    (contract.dirtyWorkaround F).contractCode = contract.contractCode := by
  unfold dirtyWorkaround
  split <;> rfl

theorem contractCode_clone (h : contract.clone F = .ok copy) :
    copy.contractCode = contract.contractCode := by
  unfold clone at h
  split at h
  next => cases h
  next =>
    cases h
    rfl

/-- Contracts with the same contents, code and concilium look the same. -/
theorem seen_eq {other : Contract} (hcontents : contract.contents F = other.contents F)
    (hcode : contract.contractCode = other.contractCode)
    (hconcilium : contract.conciliumId = other.conciliumId) :
    contract.seen F = other.seen F := by
  obtain ⟨hdata, hbalance⟩ := Prod.mk.inj hcontents
  simp only [seen, hdata, hbalance, hcode, hconcilium]

theorem seen_dirtyWorkaround (hF : F.ReadsBack) (contract : Contract) :
    (contract.dirtyWorkaround F).seen F = contract.seen F :=
  seen_eq (contents_dirtyWorkaround hF contract) (contractCode_dirtyWorkaround F contract)
    (conciliumId_dirtyWorkaround F contract)

/-- A copy looks the same. -/
theorem seen_clone (hF : F.ReadsBack) (hcontract : contract.Coherent F)
    (h : contract.clone F = .ok copy) : copy.seen F = contract.seen F :=
  seen_eq (contents_clone hF hcontract h) (contractCode_clone h) (conciliumId_clone h)

end Contract

namespace PatchDB

/-- Where a pending and a stable patch have a contract with the same encoded data, it looks
the same in both. -/
def DataTells (F : Factory) (patch stable : PatchDB) : Prop :=
  ∀ addr thisContract patchContract, patch.getContract addr = some thisContract →
    stable.getContract addr = some patchContract →
      thisContract.getDataBuffer F = patchContract.getDataBuffer F →
        thisContract.seen F = patchContract.seen F

/-- What a stable patch has of contracts that a pending one lacks is stored already. -/
def RestStored (F : Factory) (storage : Storage) (patch stable : PatchDB) : Prop :=
  ∀ addr patchContract, patch.getContract addr = none →
    stable.getContract addr = some patchContract →
      (storage.getContract addr).map (·.seen F) = some (patchContract.seen F)

section Purge

variable {F : Factory} {stable patch : PatchDB} {storage : Storage} {addr : Address}

theorem seenContract_of_some {contract : Contract} (storage : Storage)
    (h : patch.getContract addr = some contract) :
    seenContract F storage patch addr = some (contract.seen F) := by
  rw [seenContract, h]

theorem seenContract_of_none (storage : Storage) (h : patch.getContract addr = none) :
    seenContract F storage patch addr = (storage.getContract addr).map (·.seen F) := by
  rw [seenContract, h]

theorem getContract_purge (F : Factory) (patch stable : PatchDB) (addr : Address) :
    (patch.purge F stable).getContract addr =
      if SameContract F patch stable addr then none else patch.getContract addr := by
  rw [getContract, purge, FinMap.lookup_tabulate]
  split
  next => rfl
  next hnot =>
    have hnone : patch.getContract addr = none := FinMap.notMem_keys_iff.mp hnot
    rw [hnone, ite_self]

/-- A purge leaves contracts encoded. -/
theorem Encoded.purge (h : patch.Encoded) : (patch.purge F stable).Encoded := by
  intro addr contract hcontract
  rw [getContract_purge] at hcontract
  split at hcontract
  next => cases hcontract
  next => exact h addr contract hcontract

theorem entry_purge (F : Factory) (patch stable : PatchDB) (addr : Address) :
    ((patch.purge F stable).versions F).entry addr =
      if SameContract F patch stable addr then none else (patch.versions F).entry addr := by
  simp only [versions, getContract_purge]
  split <;> rfl

theorem sameContract_iff {thisContract patchContract : Contract}
    (hmine : patch.getContract addr = some thisContract)
    (hhis : stable.getContract addr = some patchContract) :
    SameContract F patch stable addr ↔
      thisContract.getDataBuffer F = patchContract.getDataBuffer F := by
  simp [SameContract, hmine, hhis]

theorem lookup_contracts_applyPatch (F : Factory) (stable : PatchDB) (nHeightMax : Nat)
    (storage : Storage) (addr : Address) :
    (storage.applyPatch F stable nHeightMax).contracts.lookup addr =
      match stable.getContract addr with
      | some contract => Storage.storedContract F nHeightMax contract
      | none => storage.contracts.lookup addr :=
  FinMap.lookup_zipWith
    (fun _ patched stored =>
      match patched with
      | some contract => Storage.storedContract F nHeightMax contract
      | none => stored)
    stable.mapContractStates storage.contracts (fun _ => rfl) addr

theorem getContract_applyPatch_of_none (h : stable.getContract addr = none) (nHeightMax : Nat) :
    (storage.applyPatch F stable nHeightMax).getContract addr = storage.getContract addr := by
  rw [Storage.getContract, Storage.getContract, lookup_contracts_applyPatch, h]

/-- A contract is stored as it looks. -/
theorem seen_storedContract (hF : F.ReadsBack) {contract : Contract}
    (hcoherent : contract.Coherent F) (hplaced : contract.conciliumId ≠ none) (nHeightMax : Nat) :
    ∃ stored, Storage.storedContract F nHeightMax contract = some stored ∧
      stored.seen F = contract.seen F := by
  unfold Storage.storedContract
  dsimp only
  split
  next =>
    have hstill : (contract.dirtyWorkaround F).conciliumId ≠ none := by
      rwa [Contract.conciliumId_dirtyWorkaround]
    obtain ⟨copy, hclone, -⟩ := exists_clone (F := F) hstill
    refine ⟨copy, by rw [hclone]; rfl, ?_⟩
    rw [Contract.seen_clone hF hcoherent.dirtyWorkaround hclone, Contract.seen_dirtyWorkaround hF]
  next =>
    obtain ⟨copy, hclone, -⟩ := exists_clone (F := F) hplaced
    exact ⟨copy, by rw [hclone]; rfl, Contract.seen_clone hF hcoherent hclone⟩

/-- What a stable patch has is stored. -/
theorem seen_applyPatch (hF : F.ReadsBack) (hencoded : stable.Encoded)
    (hplaced : stable.ContractsPlaced) {contract : Contract}
    (h : stable.getContract addr = some contract) (nHeightMax : Nat) (storage : Storage) :
    ((storage.applyPatch F stable nHeightMax).getContract addr).map (·.seen F) =
      some (contract.seen F) := by
  obtain ⟨stored, hstored, hseen⟩ := seen_storedContract hF
    (Contract.coherent_of_cacheData (hencoded addr contract h)) (hplaced addr contract h) nHeightMax
  rw [Storage.getContract, lookup_contracts_applyPatch, h]
  dsimp only
  rw [hstored, Option.map_some, Option.map_some, ← hseen]
  rfl

/-- Of one contract: a purge preserves what is seen of it exactly if the two patches differ
in its data, or in nothing, and if the store has it where the pending patch does not. -/
theorem seenContract_purge_iff (hF : F.ReadsBack) (hencoded : stable.Encoded)
    (hplaced : stable.ContractsPlaced) (storage : Storage) (nHeightMax : Nat) (addr : Address) :
    seenContract F (storage.applyPatch F stable nHeightMax) (patch.purge F stable) addr =
        seenContract F storage patch addr ↔
      (∀ thisContract patchContract, patch.getContract addr = some thisContract →
        stable.getContract addr = some patchContract →
          thisContract.getDataBuffer F = patchContract.getDataBuffer F →
            thisContract.seen F = patchContract.seen F) ∧
      ∀ patchContract, patch.getContract addr = none →
        stable.getContract addr = some patchContract →
          (storage.getContract addr).map (·.seen F) = some (patchContract.seen F) := by
  have hpurge := getContract_purge F patch stable addr
  cases hhis : stable.getContract addr with
  | none =>
      -- the stable patch is silent
      have hnot : ¬ SameContract F patch stable addr := by simp [SameContract, hhis]
      rw [if_neg hnot] at hpurge
      simp only [seenContract, hpurge, getContract_applyPatch_of_none hhis]
      simp
  | some patchContract =>
      have happly := seen_applyPatch hF hencoded hplaced hhis nHeightMax storage
      cases hmine : patch.getContract addr with
      | none =>
          have hnot : ¬ SameContract F patch stable addr := by simp [SameContract, hmine]
          rw [if_neg hnot, hmine] at hpurge
          rw [seenContract_of_none _ hpurge, seenContract_of_none _ hmine, happly]
          simp [eq_comm]
      | some thisContract =>
          rw [seenContract_of_some _ hmine]
          by_cases hsame : thisContract.getDataBuffer F = patchContract.getDataBuffer F
          · -- dropped: the stored contract is seen instead
            rw [if_pos ((sameContract_iff hmine hhis).mpr hsame)] at hpurge
            rw [seenContract_of_none _ hpurge, happly]
            simp [hsame, eq_comm]
          · rw [if_neg (mt (sameContract_iff hmine hhis).mp hsame), hmine] at hpurge
            rw [seenContract_of_some _ hpurge]
            simp [hsame]

end Purge

end PatchDB

namespace ChainState

open PatchDB PendingBlocksManager

/-- Merged patches have their contracts encoded, each in a concilium. -/
theorem mergePatchesFrom_encoded {F : Factory} {dag : PendingDag} {arrHashes : List Hash} :
    ∀ {start result : PatchDB}, start.Encoded → start.ContractsPlaced →
      mergePatchesFrom F dag arrHashes start = .ok result →
        result.Encoded ∧ result.ContractsPlaced := by
  induction arrHashes with
  | nil =>
      intro start result hencoded hplaced h
      injection h with h
      exact h ▸ ⟨hencoded, hplaced⟩
  | cons vertex rest ih =>
      intro start result hencoded hplaced h
      rw [mergePatchesFrom] at h
      split at h
      next => exact ih hencoded hplaced h
      next =>
        split at h
        next => cases h
        next merged hmerge => exact ih (.of_merge hmerge) (.merge hmerge) h

/-- **When purging preserves the view of contracts**: exactly if contracts that differ
differ in their data, and what the pending patch lacks is stored already. -/
theorem seenContract_purgeMerged_iff (F : Factory) (hF : F.ReadsBack) (pbm : PendingBlocksManager)
    (arrTopStable : List Hash) (patchToApply : PatchDB)
    (hmerged : pbm.mergePatches F arrTopStable = .ok patchToApply) (patch : PatchDB)
    (storage : Storage) (nHeightMax : Nat) :
    (∀ addr, seenContract F (storage.applyPatch F patchToApply nHeightMax)
        (patch.purge F patchToApply) addr = seenContract F storage patch addr) ↔
      DataTells F patch patchToApply ∧ RestStored F storage patch patchToApply := by
  obtain ⟨hencoded, hplaced⟩ :=
    mergePatchesFrom_encoded encoded_empty contractsPlaced_empty hmerged
  simp only [seenContract_purge_iff hF hencoded hplaced]
  exact forall_and

section Sample

/-- A block upon the contract's own one, which invokes the contract again. -/
def depositBlock : Block :=
  invokingBlock [ownBlock.hash twoConciliums] 1 2 11000 (invokingTx 1 6 78)

theorem seenContract_purgeMerged_callingBlock : ∃ own calling patchToApply,
    patchesUpon callingBlock = .ok (some (own, calling)) ∧
      (graphUpon own calling callingBlock).mergePatches twoConciliums
        [ownBlock.hash twoConciliums] = .ok patchToApply ∧
      ((∀ addr, seenContract twoConciliums
          (contractNode.storage.applyPatch twoConciliums patchToApply 0)
          (calling.purge twoConciliums patchToApply) addr =
            seenContract twoConciliums contractNode.storage calling addr) ↔
        DataTells twoConciliums calling patchToApply ∧
          RestStored twoConciliums contractNode.storage calling patchToApply) := by
  obtain ⟨patches, hpatches, hcheck⟩ := exists_ok_of_any (x := patchesUpon callingBlock)
    (p := fun patches => patches.any fun patches : PatchDB × PatchDB =>
      ((graphUpon patches.1 patches.2 callingBlock).mergePatches twoConciliums
        [ownBlock.hash twoConciliums]).toOption.any fun _ => true) (by decide +kernel)
  obtain ⟨⟨own, calling⟩, rfl, hcheck⟩ := (Option.any_eq_true _ _).mp hcheck
  obtain ⟨patchToApply, hmerged, -⟩ := exists_ok_of_any hcheck
  exact ⟨own, calling, patchToApply, hpatches, hmerged,
    seenContract_purgeMerged_iff twoConciliums (fun _ => rfl) _ _ _ hmerged _ _ _⟩

/-- The second invocation leaves the contract's data as they are. What it has paid to the
contract is no longer seen when the first one becomes stable. -/
theorem not_seenContract_depositBlock :
    ¬ ∀ (F : Factory) (pbm : PendingBlocksManager) (storage : Storage) (nHeightMax : Nat)
      (arrTopStable : List Hash) (patchToApply : PatchDB), F.ReadsBack →
        BuiltWhile F (fun s _ _ _ => s.storage = storage) pbm →
          pbm.mergePatches F arrTopStable = .ok patchToApply →
            ∀ v b, pbm.dag.readObj v = some b →
              (∀ top ∈ arrTopStable, top ≠ v ∧ pbm.dag.Reaches v top) →
                ∀ addr, seenContract F (storage.applyPatch F patchToApply nHeightMax)
                  (b.patch.purge F patchToApply) addr = seenContract F storage b.patch addr := by
  intro hclaim
  obtain ⟨patches, hpatches, hcheck⟩ := exists_ok_of_any (x := patchesUpon depositBlock)
    (p := fun patches => patches.any fun patches : PatchDB × PatchDB =>
      ((graphUpon patches.1 patches.2 depositBlock).mergePatches twoConciliums
        [ownBlock.hash twoConciliums]).toOption.any fun S : PatchDB =>
          decide (seenContract twoConciliums (contractNode.storage.applyPatch twoConciliums S 0)
              (patches.2.purge twoConciliums S) 78 ≠
            seenContract twoConciliums contractNode.storage patches.2 78)) (by decide +kernel)
  obtain ⟨⟨own, upon⟩, rfl, hcheck⟩ := (Option.any_eq_true _ _).mp hcheck
  obtain ⟨patchToApply, hmerged, hlost⟩ := exists_ok_of_any hcheck
  have hnew : ownBlock.hash twoConciliums ≠ depositBlock.hash twoConciliums := by decide +kernel
  refine of_decide_eq_true hlost (hclaim twoConciliums (graphUpon own upon depositBlock)
    contractNode.storage 0 [ownBlock.hash twoConciliums] patchToApply (fun _ => rfl)
    (builtWhile_graphUpon hpatches) hmerged (depositBlock.hash twoConciliums)
    ⟨upon, depositBlock.hashedHeader twoConciliums, depositBlock.isEmpty⟩
    (Dag.readObj_addVertex.trans (if_pos rfl)) (fun top htop => ?_) 78)
  obtain rfl := List.mem_singleton.mp htop
  exact ⟨hnew, reaches_graphUpon (List.mem_singleton_self _)⟩

end Sample

end ChainState

end CilCore
