import CilCore.Storage.Mergeable

/-!
# Clashes of patches

A patch can be merged into what other patches were merged to exactly when all its
contracts have a concilium and it clashes with none of these patches.
-/

namespace CilCore

namespace PatchDB

variable {F : Factory} {A B R patch acc : PatchDB} {kept : List PatchDB}

/-- Every contract has a concilium, so that it can be encoded. -/
def Sound (patch : PatchDB) : Prop :=
  ∀ addr contract, patch.getContract addr = some contract → contract.conciliumId ≠ none

/-- The patches spend an output twice, put a contract into different conciliums or hold
different receipts of a transaction. -/
def Clash (A B : PatchDB) : Prop := DoubleSpend A B ∨ ContractConflict A B ∨ ReceiptConflict A B

/-- The patch is what the kept ones were merged to. -/
structure Gathered (kept : List PatchDB) (acc : PatchDB) : Prop where
  recorded : acc.Recorded
  conciliumId : acc.conciliumId = none
  spent : ∀ hash idx txHash, (acc.getSpentOutputs hash).lookup idx = some txHash ↔
    ∃ p ∈ kept, (p.getSpentOutputs hash).lookup idx = some txHash
  contract : ∀ addr conciliumId, (acc.getContract addr).map (·.conciliumId) = some conciliumId ↔
    ∃ p ∈ kept, (p.getContract addr).map (·.conciliumId) = some conciliumId
  receipt : ∀ strTxHash receipt, acc.getReceipt strTxHash = some receipt ↔
    ∃ p ∈ kept, p.getReceipt strTxHash = some receipt
  sound : acc.Sound

theorem gathered_empty : Gathered [] PatchDB.empty where
  recorded := .new rfl rfl
  conciliumId := rfl
  spent _ _ _ := iff_of_false (fun h => (nomatch h)) (by simp)
  contract _ _ := iff_of_false (fun h => (nomatch h)) (by simp)
  receipt _ _ := iff_of_false (fun h => (nomatch h)) (by simp)
  sound _ _ h := (nomatch h)

/-! ### Clashes -/

theorem contractConflict_iff : ContractConflict A B ↔ ∃ addr mine his,
    (A.getContract addr).map (·.conciliumId) = some mine ∧
      (B.getContract addr).map (·.conciliumId) = some his ∧ mine ≠ his := by
  constructor
  · rintro ⟨addr, hmem, hne⟩
    rw [Finset.mem_inter, FinMap.mem_keys_iff, FinMap.mem_keys_iff] at hmem
    obtain ⟨⟨a, ha⟩, b, hb⟩ := hmem
    have ha : A.getContract addr = some a := ha
    have hb : B.getContract addr = some b := hb
    rw [ha, hb] at hne
    refine ⟨addr, a.conciliumId, b.conciliumId, by rw [ha]; rfl, by rw [hb]; rfl, fun heq => ?_⟩
    exact hne (congrArg some heq)
  · rintro ⟨addr, mine, his, hmine, hhis, hne⟩
    obtain ⟨a, ha, -⟩ := Option.map_eq_some_iff.mp hmine
    obtain ⟨b, hb, -⟩ := Option.map_eq_some_iff.mp hhis
    refine ⟨addr, Finset.mem_inter.mpr
      ⟨FinMap.mem_keys_of_lookup ha, FinMap.mem_keys_of_lookup hb⟩, fun heq => hne ?_⟩
    exact Option.some.inj (hmine.symm.trans (heq.trans hhis))

theorem Clash.symm (h : Clash A B) : Clash B A := by
  rcases h with ⟨hash, idx, txHash, txHash', hmine, hhis, hne⟩ | h | h
  · exact .inl ⟨hash, idx, txHash', txHash, hhis, hmine, hne.symm⟩
  · obtain ⟨addr, mine, his, hmine, hhis, hne⟩ := contractConflict_iff.mp h
    exact .inr (.inl (contractConflict_iff.mpr ⟨addr, his, mine, hhis, hmine, hne.symm⟩))
  · obtain ⟨strTxHash, mine, his, hmine, hhis, hne⟩ := receiptConflict_iff.mp h
    exact .inr (.inr (receiptConflict_iff.mpr ⟨strTxHash, his, mine, hhis, hmine, hne.symm⟩))

theorem not_clash_self (A : PatchDB) : ¬ Clash A A := by
  rintro (⟨hash, idx, txHash, txHash', hmine, hhis, hne⟩ | ⟨addr, -, hne⟩ | ⟨strTxHash, -, hne⟩)
  · exact hne (Option.some.inj (hmine.symm.trans hhis))
  · exact hne rfl
  · exact hne rfl

/-- What clashes with a merge clashes with one of the merged patches. -/
theorem Gathered.clash_iff (h : Gathered kept acc) :
    Clash patch acc ↔ ∃ p ∈ kept, Clash patch p := by
  have hspends : DoubleSpend patch acc ↔ ∃ p ∈ kept, DoubleSpend patch p := by
    constructor
    · rintro ⟨hash, idx, txHash, txHash', hmine, hhis, hne⟩
      obtain ⟨p, hp, hhis⟩ := (h.spent hash idx txHash').mp hhis
      exact ⟨p, hp, hash, idx, txHash, txHash', hmine, hhis, hne⟩
    · rintro ⟨p, hp, hash, idx, txHash, txHash', hmine, hhis, hne⟩
      exact ⟨hash, idx, txHash, txHash', hmine, (h.spent hash idx txHash').mpr ⟨p, hp, hhis⟩, hne⟩
  have hcontracts : ContractConflict patch acc ↔ ∃ p ∈ kept, ContractConflict patch p := by
    simp only [contractConflict_iff]
    constructor
    · rintro ⟨addr, mine, his, hmine, hhis, hne⟩
      obtain ⟨p, hp, hhis⟩ := (h.contract addr his).mp hhis
      exact ⟨p, hp, addr, mine, his, hmine, hhis, hne⟩
    · rintro ⟨p, hp, addr, mine, his, hmine, hhis, hne⟩
      exact ⟨addr, mine, his, hmine, (h.contract addr his).mpr ⟨p, hp, hhis⟩, hne⟩
  have hreceipts : ReceiptConflict patch acc ↔ ∃ p ∈ kept, ReceiptConflict patch p := by
    simp only [receiptConflict_iff]
    constructor
    · rintro ⟨strTxHash, mine, his, hmine, hhis, hne⟩
      obtain ⟨p, hp, hhis⟩ := (h.receipt strTxHash his).mp hhis
      exact ⟨p, hp, strTxHash, mine, his, hmine, hhis, hne⟩
    · rintro ⟨p, hp, strTxHash, mine, his, hmine, hhis, hne⟩
      exact ⟨strTxHash, mine, his, hmine, (h.receipt strTxHash his).mpr ⟨p, hp, hhis⟩, hne⟩
  simp only [Clash, hspends, hcontracts, hreceipts, ← exists_or, ← and_or_left]

/-! ### Merging one more patch -/

/-- A contract that has no concilium fails one of the checks. -/
theorem sound_of_merge (hacc : acc.Sound) (hconflict : ¬ ContractConflict patch acc)
    (hwithout : ¬ ContractWithoutConcilium false patch acc) : patch.Sound := by
  intro addr contract hcontract hnone
  cases hhis : acc.getContract addr with
  | none =>
      refine hwithout ⟨addr, Finset.mem_union_left _ (FinMap.mem_keys_of_lookup hcontract), ?_⟩
      rw [hcontract, hhis]
      exact hnone
  | some his =>
      refine hconflict (contractConflict_iff.mpr ⟨addr, none, his.conciliumId, ?_, ?_, ?_⟩)
      · rw [hcontract, Option.map_some, hnone]
      · rw [hhis]
        rfl
      · exact fun heq => hacc addr his hhis heq.symm

theorem sound_of_append (hacc : acc.Sound) (hconflict : ¬ ContractConflict acc patch)
    (hwithout : ¬ ContractWithoutConcilium false acc patch) : patch.Sound := by
  intro addr contract hcontract hnone
  cases hmine : acc.getContract addr with
  | none =>
      refine hwithout ⟨addr, Finset.mem_union_right _ (FinMap.mem_keys_of_lookup hcontract), ?_⟩
      rw [hmine, hcontract]
      exact hnone
  | some mine =>
      refine hconflict (contractConflict_iff.mpr ⟨addr, mine.conciliumId, none, ?_, ?_, ?_⟩)
      · rw [hmine]
        rfl
      · rw [hcontract, Option.map_some, hnone]
      · exact hacc addr mine hmine

theorem not_contractWithoutConcilium (hA : A.Sound) (hB : B.Sound) {bPreferPatchData : Bool} :
    ¬ ContractWithoutConcilium bPreferPatchData A B := by
  rintro ⟨addr, hmem, hnowinner⟩
  have hsome : A.getContract addr ≠ none ∨ B.getContract addr ≠ none := by
    rcases Finset.mem_union.mp hmem with hmine | hhis
    · exact .inl fun hnot => FinMap.notMem_keys_iff.mpr hnot hmine
    · exact .inr fun hnot => FinMap.notMem_keys_iff.mpr hnot hhis
  obtain ⟨winner, hwinner⟩ := exists_winnerContract hsome
  rw [hwinner] at hnowinner
  rcases mem_of_winnerContract hwinner with hmine | hhis
  · exact hA addr winner hmine hnowinner
  · exact hB addr winner hhis hnowinner

theorem Gathered.merge_eq_ok (h : Gathered kept acc) (hpatch : patch.Recorded) :
    patch.merge F acc = .ok R ↔
      (patch.Sound ∧ ∀ p ∈ kept, ¬ Clash patch p) ∧ merged F false patch acc = R := by
  have hclash : (∀ p ∈ kept, ¬ Clash patch p) ↔ ¬ Clash patch acc := by
    rw [h.clash_iff]
    simp
  rw [PatchDB.merge_eq_ok, hclash, conflict_iff_doubleSpend hpatch h.recorded]
  constructor
  · rintro ⟨-, hspends, hcontracts, hwithout, hreceipts, hR⟩
    refine ⟨⟨sound_of_merge h.sound hcontracts hwithout, ?_⟩, hR⟩
    rintro (hclash | hclash | hclash)
    · exact hspends hclash
    · exact hcontracts hclash
    · exact hreceipts hclash
  · rintro ⟨⟨hsound, hfree⟩, hR⟩
    exact ⟨fun hfork => not_fork_of_none (.inr h.conciliumId) hfork.2, fun hc => hfree (.inl hc),
      fun hc => hfree (.inr (.inl hc)), not_contractWithoutConcilium hsound h.sound,
      fun hc => hfree (.inr (.inr hc)), hR⟩

/-- The same for what the patch is merged into. -/
theorem Gathered.append_eq_ok (h : Gathered kept acc) (hpatch : patch.Recorded) :
    acc.merge F patch = .ok R ↔
      (patch.Sound ∧ ∀ p ∈ kept, ¬ Clash patch p) ∧ merged F false acc patch = R := by
  have hclash : (∀ p ∈ kept, ¬ Clash patch p) ↔ ¬ Clash acc patch := by
    rw [show Clash acc patch ↔ Clash patch acc from ⟨Clash.symm, Clash.symm⟩, h.clash_iff]
    simp
  rw [PatchDB.merge_eq_ok, hclash, conflict_iff_doubleSpend h.recorded hpatch]
  constructor
  · rintro ⟨-, hspends, hcontracts, hwithout, hreceipts, hR⟩
    refine ⟨⟨sound_of_append h.sound hcontracts hwithout, ?_⟩, hR⟩
    rintro (hclash | hclash | hclash)
    · exact hspends hclash
    · exact hcontracts hclash
    · exact hreceipts hclash
  · rintro ⟨⟨hsound, hfree⟩, hR⟩
    exact ⟨fun hfork => not_fork_of_none (.inl h.conciliumId) hfork.2, fun hc => hfree (.inl hc),
      fun hc => hfree (.inr (.inl hc)), not_contractWithoutConcilium h.sound hsound,
      fun hc => hfree (.inr (.inr hc)), hR⟩

/-- The concilium of a contract in a merge is that of either patch. -/
theorem conciliumId_merged (hA : A.Sound) (hB : B.Sound) (hfree : ¬ ContractConflict A B)
    {addr : Address} {conciliumId : Option Nat} :
    ((merged F false A B).getContract addr).map (·.conciliumId) = some conciliumId ↔
      (A.getContract addr).map (·.conciliumId) = some conciliumId ∨
        (B.getContract addr).map (·.conciliumId) = some conciliumId := by
  -- the winner has a concilium, so there is a copy of it
  have hcopy {winner : Contract} (hwinner : winnerContract false A B (A.getContract addr)
      (B.getContract addr) = some winner) :
      ((merged F false A B).getContract addr).map (·.conciliumId) = some winner.conciliumId := by
    have hne : winner.conciliumId ≠ none := by
      rcases mem_of_winnerContract hwinner with hmine | hhis
      · exact hA addr winner hmine
      · exact hB addr winner hhis
    obtain ⟨copy, hclone, hsame⟩ := exists_clone (F := F) hne
    rw [lookup_getContract_merged, hwinner, ← hsame, Option.bind_some, hclone]
    rfl
  constructor
  · intro h
    obtain ⟨contract, hcontract, rfl⟩ := Option.map_eq_some_iff.mp h
    obtain ⟨winner, hfrom, heq⟩ := getContract_merged hcontract
    rw [← heq]
    exact hfrom.imp (fun hmine => by rw [hmine]; rfl) fun hhis => by rw [hhis]; rfl
  · intro h
    have hsome : A.getContract addr ≠ none ∨ B.getContract addr ≠ none :=
      h.imp (fun hmine hnone => by simp [hnone] at hmine) fun hhis hnone => by simp [hnone] at hhis
    obtain ⟨winner, hwinner⟩ := exists_winnerContract hsome
    rw [hcopy hwinner]
    -- both patches agree on the concilium
    by_contra hne
    refine hfree (contractConflict_iff.mpr ?_)
    rcases h with hmine | hhis <;> rcases mem_of_winnerContract hwinner with hfrom | hfrom
    · rw [hfrom] at hmine
      exact absurd hmine hne
    · exact ⟨addr, conciliumId, winner.conciliumId, hmine, by rw [hfrom]; rfl,
        fun heq => hne (by rw [heq])⟩
    · exact ⟨addr, winner.conciliumId, conciliumId, by rw [hfrom]; rfl, hhis,
        fun heq => hne (by rw [heq])⟩
    · rw [hfrom] at hhis
      exact absurd hhis hne

theorem Gathered.merge (h : Gathered kept acc) (hpatch : patch.Recorded)
    (hmerge : patch.merge F acc = .ok R) : Gathered (kept ++ [patch]) R := by
  obtain ⟨⟨hsound, hfree⟩, rfl⟩ := (h.merge_eq_ok hpatch).mp hmerge
  have hnot : ¬ Clash patch acc := by
    rw [h.clash_iff]
    rintro ⟨p, hp, hclash⟩
    exact hfree p hp hclash
  have hlast (holds : PatchDB → Prop) :
      (∃ p ∈ kept ++ [patch], holds p) ↔ holds patch ∨ ∃ p ∈ kept, holds p := by
    simp [or_and_right, exists_or, or_comm]
  refine ⟨hpatch.merged h.recorded false, rfl, fun hash idx txHash => ?_,
    fun addr conciliumId => ?_, fun strTxHash receipt => ?_, fun addr contract hcontract => ?_⟩
  · rw [spent_merged_iff hpatch h.recorded (fun hc => hnot (.inl hc)), h.spent, hlast]
  · rw [conciliumId_merged hsound h.sound (fun hc => hnot (.inr (.inl hc))), h.contract, hlast]
  · rw [getReceipt_merged_iff (fun hc => hnot (.inr (.inr (receiptConflict_iff.mpr hc)))),
      h.receipt, hlast]
  · obtain ⟨winner, hwinner, heq⟩ := getContract_merged hcontract
    rw [← heq]
    rcases hwinner with hmine | hhis
    · exact hsound addr winner hmine
    · exact h.sound addr winner hhis

theorem Gathered.append (h : Gathered kept acc) (hpatch : patch.Recorded)
    (hmerge : acc.merge F patch = .ok R) : Gathered (kept ++ [patch]) R := by
  obtain ⟨⟨hsound, hfree⟩, rfl⟩ := (h.append_eq_ok hpatch).mp hmerge
  have hnot : ¬ Clash acc patch := by
    intro hclash
    obtain ⟨p, hp, hclash⟩ := h.clash_iff.mp hclash.symm
    exact hfree p hp hclash
  have hlast (holds : PatchDB → Prop) :
      (∃ p ∈ kept ++ [patch], holds p) ↔ (∃ p ∈ kept, holds p) ∨ holds patch := by
    simp [or_and_right, exists_or]
  refine ⟨h.recorded.merged hpatch false, rfl, fun hash idx txHash => ?_,
    fun addr conciliumId => ?_, fun strTxHash receipt => ?_, fun addr contract hcontract => ?_⟩
  · rw [spent_merged_iff h.recorded hpatch (fun hc => hnot (.inl hc)), h.spent, hlast]
  · rw [conciliumId_merged h.sound hsound (fun hc => hnot (.inr (.inl hc))), h.contract, hlast]
  · rw [getReceipt_merged_iff (fun hc => hnot (.inr (.inr (receiptConflict_iff.mpr hc)))),
      h.receipt, hlast]
  · obtain ⟨winner, hwinner, heq⟩ := getContract_merged hcontract
    rw [← heq]
    rcases hwinner with hmine | hhis
    · exact h.sound addr winner hmine
    · exact hsound addr winner hhis

/-- Patches that do not clash are merged one after the other. -/
theorem Gathered.exists_foldlM {patches : List PatchDB} (h : Gathered kept acc)
    (hrecorded : ∀ p ∈ patches, p.Recorded) (hsound : ∀ p ∈ patches, p.Sound)
    (hapart : ∀ p ∈ patches, ∀ q ∈ kept ++ patches, ¬ Clash p q) :
    ∃ R, patches.foldlM (fun acc p => acc.merge F p) acc = .ok R ∧ Gathered (kept ++ patches) R := by
  induction patches generalizing kept acc with
  | nil => exact ⟨acc, rfl, (List.append_nil kept).symm ▸ h⟩
  | cons p rest ih =>
      have hfirst := hrecorded p List.mem_cons_self
      have hmerge : acc.merge F p = .ok (merged F false acc p) := by
        refine (h.append_eq_ok hfirst).mpr ⟨⟨hsound p List.mem_cons_self, fun q hq => ?_⟩, rfl⟩
        exact hapart p List.mem_cons_self q (List.mem_append_left _ hq)
      have hnext := h.append hfirst hmerge
      rw [List.append_cons]
      obtain ⟨R, hR, hgathered⟩ := ih hnext (fun q hq => hrecorded q (List.mem_cons_of_mem _ hq))
        (fun q hq => hsound q (List.mem_cons_of_mem _ hq)) fun q hq => by
          rw [← List.append_cons]
          exact hapart q (List.mem_cons_of_mem _ hq)
      refine ⟨R, ?_, hgathered⟩
      rw [List.foldlM_cons, hmerge]
      exact hR

end PatchDB

end CilCore
