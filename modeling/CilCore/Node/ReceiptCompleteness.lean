import CilCore.Node.ContractFailure

/-!
# The receipt of a contract transaction

Every send adds an internal transaction to the receipt in the patch. The final receipt is
merged into that one, or put into the patch itself if nothing was sent, and only then
the change is added to the final receipt.
-/

namespace CilCore

/-- The coins that effects send. -/
def sentCoins (effects : List Effect) : List Coins :=
  effects.filterMap fun effect =>
    match effect with
    | .sent strAddress amount => some ⟨amount, strAddress⟩
    | .stored _ => none

/-- The hashes of the first internal transactions. -/
def internalHashes (F : Factory) (strTxHash : Hash) (n : Nat) : List Hash :=
  (List.range n).map (F.internalHash strTxHash)

/-- A patch with these internal UTXOs and no others. -/
def HoldsInternal (F : Factory) (strTxHash : Hash) (sent : List Coins) (patch : PatchDB) : Prop :=
  ∀ i, patch.getUtxo (F.internalHash strTxHash i) =
    sent[i]?.map fun coins => (∅ : UTXO).insert 0 coins

/-- A receipt with these internal transactions and no others. -/
structure TxReceipt.Lists (F : Factory) (strTxHash : Hash) (sent : List Coins)
    (receipt : TxReceipt) : Prop where
  internalTxns : receipt.internalTxns = internalHashes F strTxHash sent.length
  coins : receipt.coins = sent

/-- The receipt in the patch lists exactly the internal UTXOs that the patch has for the
transaction, each once and with its coins, and it has the final status, coins used and
message. -/
def ReceiptComplete (F : Factory) (tx : Transaction) (final : TxReceipt) (patchThisTx : PatchDB) :
    Prop :=
  ∃ receipt, patchThisTx.getReceipt (tx.hash F) = some receipt ∧
    (∀ hash, hash ∈ receipt.internalTxns ↔
      ∃ n, hash = F.internalHash (tx.hash F) n ∧ (patchThisTx.getUtxo hash).isSome) ∧
    receipt.internalTxns.Nodup ∧
    (∀ hash ∈ receipt.internalTxns, ∃ coins, receipt.getCoinsForTx hash = .ok coins ∧
      patchThisTx.getUtxo hash = some ((∅ : UTXO).insert 0 coins)) ∧
    receipt.status = final.status ∧ receipt.coinsUsed = final.coinsUsed ∧
    receipt.message = final.message

section Lists

variable {F : Factory} {strTxHash : Hash} {sent : List Coins} {receipt : TxReceipt}
  {patch : PatchDB}

theorem length_internalHashes (n : Nat) : (internalHashes F strTxHash n).length = n := by
  rw [internalHashes, List.length_map, List.length_range]

theorem internalHashes_succ (n : Nat) :
    internalHashes F strTxHash (n + 1) =
      internalHashes F strTxHash n ++ [F.internalHash strTxHash n] := by
  rw [internalHashes, List.range_succ, List.map_append, List.map_singleton, internalHashes]

theorem nodup_internalHashes (hinj : Function.Injective (F.internalHash strTxHash)) (n : Nat) :
    (internalHashes F strTxHash n).Nodup :=
  List.nodup_range.map hinj

theorem mem_internalHashes_iff {n : Nat} {hash : Hash} :
    hash ∈ internalHashes F strTxHash n ↔ ∃ i < n, hash = F.internalHash strTxHash i := by
  simp [internalHashes, eq_comm]

/-- The coins that a receipt gives for an internal transaction. -/
theorem TxReceipt.Lists.getCoinsForTx (h : receipt.Lists F strTxHash sent)
    (hinj : Function.Injective (F.internalHash strTxHash)) {i : Nat} {coins : Coins}
    (hcoins : sent[i]? = some coins) :
    receipt.getCoinsForTx (F.internalHash strTxHash i) = .ok coins := by
  have hlt : i < sent.length := (List.getElem?_eq_some_iff.mp hcoins).1
  have hmem : F.internalHash strTxHash i ∈ internalHashes F strTxHash sent.length :=
    mem_internalHashes_iff.mpr ⟨i, hlt, rfl⟩
  have hlength : i < (internalHashes F strTxHash sent.length).length := by
    rwa [length_internalHashes]
  have hindex :
      (internalHashes F strTxHash sent.length).idxOf (F.internalHash strTxHash i) = i := by
    have hat := (nodup_internalHashes hinj sent.length).idxOf_getElem i hlength
    rwa [show (internalHashes F strTxHash sent.length)[i] = F.internalHash strTxHash i by
      simp [internalHashes]] at hat
  rw [TxReceipt.getCoinsForTx, h.internalTxns, h.coins, if_pos hmem, hindex, hcoins]

/-- A receipt that lists what the patch holds. -/
theorem TxReceipt.Lists.complete (h : receipt.Lists F strTxHash sent)
    (hheld : HoldsInternal F strTxHash sent patch)
    (hinj : Function.Injective (F.internalHash strTxHash)) :
    (∀ hash, hash ∈ receipt.internalTxns ↔
      ∃ n, hash = F.internalHash strTxHash n ∧ (patch.getUtxo hash).isSome) ∧
    receipt.internalTxns.Nodup ∧
    ∀ hash ∈ receipt.internalTxns, ∃ coins, receipt.getCoinsForTx hash = .ok coins ∧
      patch.getUtxo hash = some ((∅ : UTXO).insert 0 coins) := by
  rw [h.internalTxns]
  refine ⟨fun hash => ?_, nodup_internalHashes hinj _, fun hash hhash => ?_⟩
  · rw [mem_internalHashes_iff]
    constructor
    · intro ⟨i, hlt, heq⟩
      refine ⟨i, heq, ?_⟩
      rw [heq, hheld i, List.getElem?_eq_getElem hlt]
      rfl
    · intro ⟨i, heq, hsome⟩
      rw [heq, hheld i, Option.isSome_map] at hsome
      obtain ⟨coins, hcoins⟩ := Option.isSome_iff_exists.mp hsome
      exact ⟨i, (List.getElem?_eq_some_iff.mp hcoins).1, heq⟩
  · obtain ⟨i, hlt, rfl⟩ := mem_internalHashes_iff.mp hhash
    have hcoins := List.getElem?_eq_getElem hlt
    exact ⟨sent[i], h.getCoinsForTx hinj hcoins, by rw [hheld i, hcoins]; rfl⟩

/-- A receipt that leaves out something that the patch holds. -/
theorem TxReceipt.Lists.not_complete {more : List Coins} (h : receipt.Lists F strTxHash sent)
    (hheld : HoldsInternal F strTxHash (sent ++ more) patch) (hmore : more ≠ [])
    (hinj : Function.Injective (F.internalHash strTxHash)) :
    ¬ ∀ hash, hash ∈ receipt.internalTxns ↔
      ∃ n, hash = F.internalHash strTxHash n ∧ (patch.getUtxo hash).isSome := by
  intro hall
  have hlt : sent.length < (sent ++ more).length := by
    rw [List.length_append]
    exact Nat.lt_add_of_pos_right (List.length_pos_iff.mpr hmore)
  have hmem := (hall (F.internalHash strTxHash sent.length)).mpr ⟨sent.length, rfl, by
    rw [hheld, List.getElem?_eq_getElem hlt]
    rfl⟩
  rw [h.internalTxns, mem_internalHashes_iff] at hmem
  obtain ⟨i, hi, heq⟩ := hmem
  exact absurd (hinj heq) (Nat.ne_of_gt hi)

end Lists

/-! ### A contract that runs -/

/-- The receipt that collects sends. -/
def sentReceipt (F : Factory) (strTxHash : Hash) (sent : List Coins) : TxReceipt where
  status := .TX_STATUS_OK
  internalTxns := internalHashes F strTxHash sent.length
  coins := sent

/-- The patch of a running contract that has sent these coins. -/
structure PatchDB.Collects (F : Factory) (strTxHash : Hash) (sent : List Coins) (patch : PatchDB) :
    Prop where
  nonce : patch.nonce = sent.length
  held : HoldsInternal F strTxHash sent patch
  receipt : (patch.getReceipt strTxHash).getD { status := .TX_STATUS_OK } =
    sentReceipt F strTxHash sent
  first : patch.getReceipt strTxHash = none ↔ sent = []

section Collects

variable {F : Factory} {strTxHash : Hash} {sent : List Coins} {patch : PatchDB}

/-- One more internal UTXO. -/
theorem HoldsInternal.insert (h : HoldsInternal F strTxHash sent patch)
    (hinj : Function.Injective (F.internalHash strTxHash)) (coins : Coins) {patch' : PatchDB}
    (hcoins : patch'.coins = patch.coins.insert (F.internalHash strTxHash sent.length)
      ((∅ : UTXO).insert 0 coins)) :
    HoldsInternal F strTxHash (sent ++ [coins]) patch' := by
  intro i
  rw [PatchDB.getUtxo, hcoins, FinMap.lookup_insert_ite]
  by_cases hi : i = sent.length
  · subst hi
    rw [if_pos rfl, List.getElem?_concat_length]
    rfl
  · rw [if_neg fun heq => hi (hinj heq), ← PatchDB.getUtxo, h i]
    obtain hlt | hgt := Nat.lt_or_gt_of_ne hi
    · rw [List.getElem?_append_left hlt]
    · rw [List.getElem?_eq_none (Nat.le_of_lt hgt), List.getElem?_eq_none]
      rw [List.length_append, List.length_singleton]
      exact hgt

namespace PatchDB.Collects

theorem afterSend (h : patch.Collects F strTxHash sent)
    (hinj : Function.Injective (F.internalHash strTxHash)) (strAddress : Address)
    (amount : Amount) :
    (patch.afterSend F strTxHash strAddress amount).Collects F strTxHash
      (sent ++ [⟨amount, strAddress⟩]) := by
  have hreceipt : (patch.afterSend F strTxHash strAddress amount).getReceipt strTxHash =
      some (sentReceipt F strTxHash (sent ++ [⟨amount, strAddress⟩])) := by
    rw [getReceipt, PatchDB.afterSend]
    dsimp only
    rw [FinMap.lookup_insert_ite, if_pos rfl, h.receipt, h.nonce]
    simp [sentReceipt, TxReceipt.addInternalUtxo, internalHashes_succ]
  refine ⟨?_, ?_, ?_, ?_⟩
  · rw [List.length_append, List.length_singleton, ← h.nonce]
    rfl
  · refine h.held.insert hinj _ ?_
    rw [← h.nonce]
    rfl
  · rw [hreceipt, Option.getD_some]
  · rw [hreceipt]
    simp

/-- Storing a contract leaves coins and receipts alone. -/
theorem setContract (h : patch.Collects F strTxHash sent) (contract : Contract) :
    (patch.setContract F contract).Collects F strTxHash sent :=
  ⟨h.nonce, h.held, h.receipt, h.first⟩

/-- **What a running contract collects**: all that it sends. -/
theorem replay (hinj : Function.Injective (F.internalHash strTxHash)) (effects : List Effect)
    (h : patch.Collects F strTxHash sent) :
    (Effect.replay F strTxHash effects patch).Collects F strTxHash
      (sent ++ sentCoins effects) := by
  induction effects generalizing patch sent with
  | nil =>
      rw [sentCoins, List.filterMap_nil, List.append_nil]
      exact h
  | cons effect effects ih =>
      cases effect with
      | sent strAddress amount =>
          have hrest := ih (h.afterSend hinj strAddress amount)
          rw [List.append_assoc] at hrest
          exact hrest
      | stored contract => exact ih (h.setContract contract)

/-- The merged receipt lists what was sent. -/
theorem lists_merge (h : patch.Collects F strTxHash sent) {old final stored : TxReceipt}
    (hold : patch.getReceipt strTxHash = some old) (hmerge : old.merge final = .ok stored)
    (hinternal : final.internalTxns = []) (hcoins : final.coins = []) :
    stored.Lists F strTxHash sent ∧ stored.status = final.status ∧
      stored.coinsUsed = final.coinsUsed ∧ stored.message = none := by
  have heq : old = sentReceipt F strTxHash sent := by
    rw [← h.receipt, hold, Option.getD_some]
  subst heq
  have hstatus := TxReceipt.status_merge hmerge rfl
  obtain ⟨-, rfl⟩ := guard_eq_ok.mp hmerge
  refine ⟨⟨?_, ?_⟩, hstatus, rfl, rfl⟩
  · dsimp only
    rw [hinternal, List.append_nil]
    rfl
  · dsimp only
    rw [hcoins, List.append_nil]
    rfl

end PatchDB.Collects

/-- A patch that has only the coins of a transaction and its inputs has collected nothing. -/
theorem PatchDB.OnlyCoins.collects {tx : Transaction}
    (h : patch.OnlyCoins (tx.hash F :: tx.utxos)) (hfresh : FreshHashes F tx) :
    patch.Collects F (tx.hash F) [] := by
  have hnone : patch.getReceipt (tx.hash F) = none := by
    rw [getReceipt, h.receipts, Finmap.lookup_empty]
  refine ⟨h.nonce, fun i => ?_, ?_, ?_⟩
  · rw [h.coins _ (hfresh.internal_fresh i)]
    rfl
  · rw [hnone]
    rfl
  · simp [hnone]

end Collects

/-! ### The end of a transaction -/

section Settled

variable {F : Factory} {node : NodeView} {patchForBlock : Option PatchDB} {isGenesis : Bool}
  {tx : Transaction} {behaviour : Behaviour} {run : ContractRun} {fee : Amount}
  {patchThisTx : PatchDB} {sent : List Coins} {o : ContractOutcome} {used nMaxCoins : Amount}

/-- A receipt in a patch that lists what the patch holds. -/
theorem ReceiptComplete.of_lists {receipt final : TxReceipt}
    (hinj : Function.Injective (F.internalHash (tx.hash F)))
    (hreceipt : patchThisTx.getReceipt (tx.hash F) = some receipt)
    (hlists : receipt.Lists F (tx.hash F) sent)
    (hheld : HoldsInternal F (tx.hash F) sent patchThisTx)
    (hstatus : receipt.status = final.status) (hused : receipt.coinsUsed = final.coinsUsed)
    (hmessage : receipt.message = final.message) : ReceiptComplete F tx final patchThisTx := by
  obtain ⟨hall, hnodup, hcoins⟩ := hlists.complete hheld hinj
  exact ⟨receipt, hreceipt, hall, hnodup, hcoins, hstatus, hused, hmessage⟩

/-- The final receipt itself is in the patch: nothing was sent. -/
theorem settleContract_complete (hinj : Function.Injective (F.internalHash (tx.hash F)))
    (hcollects : o.state.patchTx.Collects F (tx.hash F) [])
    (h : settleContract F node isGenesis tx nMaxCoins used o = .ok (fee, patchThisTx)) :
    ReceiptComplete F tx (receiptOf o used) patchThisTx := by
  have hnone := hcollects.first.mpr rfl
  obtain ⟨stored, ⟨-, rfl⟩ | ⟨old, hold, -⟩, hcases⟩ := settleContract_ok h
  · have hreceipt := getReceipt_settledPatch F node tx o (receiptOf o used)
    obtain ⟨hcoins, hnonce⟩ := storeOutcome_coins F node tx o { o.state.patchTx with
      mapTxReceipts := o.state.patchTx.mapTxReceipts.insert (tx.hash F) (receiptOf o used) }
    have hheld : HoldsInternal F (tx.hash F) [] (settledPatch F node tx o (receiptOf o used)) := by
      intro i
      rw [PatchDB.getUtxo, settledPatch, hcoins]
      exact hcollects.held i
    have hsettled : ReceiptComplete F tx (receiptOf o used)
        (settledPatch F node tx o (receiptOf o used)) :=
      .of_lists hinj hreceipt ⟨rfl, rfl⟩ hheld rfl rfl rfl
    obtain ⟨-, -, rfl⟩ | ⟨-, -, -, rfl⟩ | ⟨-, -, hchange⟩ := hcases
    · exact hsettled
    · exact hsettled
    · obtain ⟨-, -, rfl⟩ | ⟨receiver, -, -, ⟨-, rfl⟩ | ⟨-, rfl⟩⟩ := createContractChange_ok hchange
      · exact hsettled
      · exact hsettled
      · -- the change is added to the receipt in the patch
        have hzero : (settledPatch F node tx o (receiptOf o used)).nonce = 0 :=
          hnonce.trans hcollects.nonce
        rw [hnone, hzero]
        exact .of_lists hinj (Finmap.lookup_insert _) ⟨rfl, rfl⟩ (hheld.insert hinj _ rfl) rfl rfl
          rfl
  · rw [hnone] at hold
    cases hold

/-- The final receipt was merged into the one that collected sends: its message is lost, and
the change is added to an object that the patch does not hold. -/
theorem settleContract_complete_iff (hinj : Function.Injective (F.internalHash (tx.hash F)))
    (hcollects : o.state.patchTx.Collects F (tx.hash F) sent) (hsent : sent ≠ [])
    (hfits : o.message = none → used ≤ nMaxCoins)
    (h : settleContract F node isGenesis tx nMaxCoins used o = .ok (fee, patchThisTx)) :
    ReceiptComplete F tx (receiptOf o used) patchThisTx ↔
      o.message = none ∧
        (isGenesis = true ∨ tx.getContractChangeReceiver = none ∨ used = nMaxCoins) := by
  obtain ⟨stored, ⟨hnone, -⟩ | ⟨old, hold, hmerge⟩, hcases⟩ := settleContract_ok h
  · exact absurd (hcollects.first.mp hnone) hsent
  obtain ⟨hlists, hstatus, hused, hmessage⟩ := hcollects.lists_merge hold hmerge rfl rfl
  have hreceipt := getReceipt_settledPatch F node tx o stored
  obtain ⟨hcoins, hnonce⟩ := storeOutcome_coins F node tx o { o.state.patchTx with
    mapTxReceipts := o.state.patchTx.mapTxReceipts.insert (tx.hash F) stored }
  have hheld : HoldsInternal F (tx.hash F) sent (settledPatch F node tx o stored) := by
    intro i
    rw [PatchDB.getUtxo, settledPatch, hcoins]
    exact hcollects.held i
  have hlost {patch : PatchDB} (hsame : patch.getReceipt (tx.hash F) = some stored)
      (hfailed : o.message ≠ none) : ¬ ReceiptComplete F tx (receiptOf o used) patch := by
    rintro ⟨receipt, hget, -, -, -, -, -, hfinal⟩
    obtain rfl : stored = receipt := Option.some.inj (hsame.symm.trans hget)
    exact hfailed (hfinal.symm.trans hmessage)
  -- without change only the message matters
  have hsettled : ReceiptComplete F tx (receiptOf o used) (settledPatch F node tx o stored) ↔
      o.message = none := by
    constructor
    · intro hcomplete
      by_contra hfailed
      exact hlost hreceipt hfailed hcomplete
    · intro hok
      exact .of_lists hinj hreceipt hlists hheld hstatus hused (hmessage.trans hok.symm)
  obtain ⟨hgenesis, -, rfl⟩ | ⟨-, hover, -, rfl⟩ | ⟨hgenesis, -, hchange⟩ := hcases
  · simp [hsettled, hgenesis]
  · rw [hsettled]
    refine ⟨fun hok => ?_, And.left⟩
    rw [maxFee, if_neg fun hreturned => hreturned.2.1 hok] at hover
    exact absurd hover (not_lt.mpr (hfits hok))
  · obtain ⟨hreceiver, -, rfl⟩ | ⟨receiver, hreceiver, -, ⟨hzero, rfl⟩ | ⟨hpos, rfl⟩⟩ :=
      createContractChange_ok hchange
    · simp [hsettled, hreceiver]
    · rw [hsettled]
      refine ⟨fun hok => ⟨hok, .inr (.inr ?_)⟩, And.left⟩
      rw [maxFee, if_neg fun hreturned => hreturned.2.1 hok, coinsUsed_receiptOf] at hzero
      linarith
    · have hnot : (o.state.patchTx.getReceipt (tx.hash F)).isNone = false := by
        rw [hold]
        rfl
      rw [hnot, if_neg Bool.false_ne_true]
      constructor
      · rintro ⟨receipt, hget, hall, -⟩
        obtain rfl : stored = receipt := Option.some.inj (hreceipt.symm.trans hget)
        have hnext : (settledPatch F node tx o stored).nonce = sent.length :=
          hnonce.trans hcollects.nonce
        rw [hnext] at hall
        exact absurd hall
          (hlists.not_complete (hheld.insert hinj _ rfl) (List.cons_ne_nil _ _) hinj)
      · rintro ⟨hok, hnochange⟩
        rw [maxFee, if_neg fun hreturned => hreturned.2.1 hok, coinsUsed_receiptOf] at hpos
        obtain hgenesis' | hreceiver' | hequal := hnochange
        · rw [hgenesis] at hgenesis'
          cases hgenesis'
        · rw [hreceiver] at hreceiver'
          cases hreceiver'
        · linarith

end Settled

section Sample

/-- A method that sends coins. -/
def sendOnce : Code := .send (some 9) 200 fun _ => .done Contract.emptyData

end Sample

end CilCore
