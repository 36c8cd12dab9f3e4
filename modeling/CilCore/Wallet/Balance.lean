import CilCore.Wallet.Payment
import Mathlib.Tactic.Ring

/-!
# The balance of an address

`walletListUnspent` and `getBalance` of `node/rpc.js`: the outputs of an address in the
stored UTXOs are listed together with those in the merged patch of the pending best parents.
The patch holds its own copy of each stored UTXO of which it spends an output.
-/

namespace CilCore

/-- The coins of a patch: the UTXOs of some transactions, in the order of the map. -/
structure PendingCoins where
  utxos : List ListedUtxo := []
  nodup : (utxos.map (·.txHash)).Nodup := by decide

/-- `spendCoins` of a UTXO. -/
def ListedUtxo.spendCoins (nTxOutput : Nat) (utxo : ListedUtxo) : Except String ListedUtxo :=
  if nTxOutput ∉ utxo.getIndexes then .error "index already deleted!"
  else
    .ok
      { txHash := utxo.txHash
        outputs := utxo.outputs.filter fun o => o.1 ≠ nTxOutput
        nodup := utxo.nodup.sublist (List.filter_sublist.map _) }

namespace PendingCoins

/-- `getUtxo`. -/
def getUtxo (strHash : Hash) (coins : PendingCoins) : Option ListedUtxo :=
  coins.utxos.find? fun utxo => utxo.txHash = strHash

/-- Write a UTXO under its hash. -/
def set (utxo : ListedUtxo) (coins : PendingCoins) : PendingCoins :=
  if h : utxo.txHash ∈ coins.utxos.map (·.txHash) then
    { utxos := coins.utxos.map fun other => if other.txHash = utxo.txHash then utxo else other
      nodup := by
        have hsame : (coins.utxos.map fun other =>
            if other.txHash = utxo.txHash then utxo else other).map (·.txHash) =
            coins.utxos.map (·.txHash) := by
          rw [List.map_map]
          apply List.map_congr_left
          intro other _
          by_cases hhash : other.txHash = utxo.txHash
          · simp [hhash]
          · simp [hhash]
        rw [hsame]
        exact coins.nodup }
  else
    { utxos := coins.utxos ++ [utxo]
      nodup := by
        rw [List.map_append, List.nodup_append]
        refine ⟨coins.nodup, List.nodup_singleton _, ?_⟩
        intro a ha b hb heq
        rw [heq, List.mem_singleton.mp hb] at ha
        exact h ha }

/-- `spendCoins` of a patch: the copy of the UTXO in the patch loses the output. -/
def spendCoins (utxo : ListedUtxo) (nTxOutput : Nat) (coins : PendingCoins) :
    Except String PendingCoins := do
  let utxoCopy ← ((coins.getUtxo utxo.txHash).getD utxo).spendCoins nTxOutput
  return coins.set utxoCopy

end PendingCoins

/-- An output as the RPC interface lists it. -/
structure RpcUnspent where
  coins : UnspentCoins
  isStable : Bool
deriving DecidableEq

/-- What `getBalance` returns. -/
structure Balance where
  confirmedBalance : Amount := 0
  unconfirmedBalance : Amount := 0

namespace WalletStorage

/-- `walletListUnspent` of the RPC interface. -/
def rpcListUnspent (S : WalletStorage) (pending : PendingCoins) (strAddress : Address)
    (bStableOnly : Bool) : Except String (List RpcUnspent) := do
  let arrStableUtxos ← S.walletListUnspent strAddress
  let arrPendingUtxos :=
    if bStableOnly then [] else pending.utxos.map (·.filterOutputsForAddress strAddress)
  return (finePrintUtxos arrStableUtxos).map (⟨·, true⟩) ++
    (finePrintUtxos arrPendingUtxos).map (⟨·, false⟩)

/-- Add an output to a balance. -/
def addToBalance (accum : Balance) (unspent : RpcUnspent) : Balance :=
  if unspent.isStable then
    { accum with confirmedBalance := accum.confirmedBalance + unspent.coins.amount }
  else { accum with unconfirmedBalance := accum.unconfirmedBalance + unspent.coins.amount }

/-- `getBalance`. -/
def getBalance (S : WalletStorage) (pending : PendingCoins) (strAddress : Address)
    (bStableOnly : Bool) : Except String Balance := do
  let arrResult ← S.rpcListUnspent pending strAddress bStableOnly
  return arrResult.foldl addToBalance {}

/-- Each output is listed once, and the balance is the sum of the different outputs that are
listed. -/
def CountsOnce (S : WalletStorage) (pending : PendingCoins) (strAddress : Address)
    (bStableOnly : Bool) : Prop :=
  ∃ arrResult balance, S.rpcListUnspent pending strAddress bStableOnly = .ok arrResult ∧
    S.getBalance pending strAddress bStableOnly = .ok balance ∧
    (arrResult.map (·.coins.input)).Nodup ∧
    balance.confirmedBalance + balance.unconfirmedBalance =
      ∑ coins ∈ (arrResult.map (·.coins)).toFinset, coins.amount

/-- No output that the address receives is left in the patch's UTXO of a transaction, if it
is in the stored one, which the wallet has recorded for the address. -/
def LeavesNoCopy (S : WalletStorage) (pending : PendingCoins) (strAddress : Address) : Prop :=
  ∀ utxo ∈ pending.utxos, utxo.txHash ∈ S.addressRecords strAddress →
    ∀ stored, S.getUtxo utxo.txHash = some stored →
      ∀ idx ∈ (stored.filterOutputsForAddress strAddress).getIndexes,
        idx ∉ (utxo.filterOutputsForAddress strAddress).getIndexes

variable {S : WalletStorage} {pending : PendingCoins} {strAddress : Address}

/-! ### What is listed -/

theorem txHash_mem_of_mem_listUnspent {setHashes records : List Hash} {utxo : ListedUtxo}
    (h : utxo ∈ S.listUnspent strAddress setHashes records) : utxo.txHash ∈ records := by
  induction records generalizing setHashes with
  | nil => cases h
  | cons hash rest ih =>
    rw [listUnspent] at h
    split at h
    next => exact List.mem_cons_of_mem _ (ih h)
    next =>
      split at h
      next => exact List.mem_cons_of_mem _ (ih h)
      next stored hstored =>
        dsimp only at h
        split at h
        next => exact List.mem_cons_of_mem _ (ih h)
        next =>
          rcases List.mem_cons.mp h with rfl | hrest
          · exact List.mem_cons.mpr (.inl (S.getUtxo_hash hash stored hstored))
          · exact List.mem_cons_of_mem _ (ih hrest)

/-- Every recorded UTXO with outputs of the address is listed. -/
theorem filter_mem_listUnspent {setHashes records : List Hash} {hash : Hash}
    {stored : ListedUtxo} (hrecord : hash ∈ records) (hfresh : hash ∉ setHashes)
    (hstored : S.getUtxo hash = some stored)
    (hsome : (stored.filterOutputsForAddress strAddress).isEmpty = false) :
    stored.filterOutputsForAddress strAddress ∈ S.listUnspent strAddress setHashes records := by
  induction records generalizing setHashes with
  | nil => cases hrecord
  | cons first rest ih =>
    rw [listUnspent]
    by_cases heq : hash = first
    · subst heq
      rw [if_neg hfresh, hstored]
      dsimp only
      rw [if_neg (by simp [hsome])]
      exact List.mem_cons_self
    · have hrest : hash ∈ rest := (List.mem_cons.mp hrecord).resolve_left heq
      have hstill : hash ∉ first :: setHashes := by
        intro hmem
        exact (List.mem_cons.mp hmem).elim heq hfresh
      split
      next => exact ih hrest hfresh
      next =>
        split
        next => exact ih hrest hstill
        next =>
          dsimp only
          split
          next => exact ih hrest hstill
          next => exact List.mem_cons_of_mem _ (ih hrest hstill)

theorem mem_input_finePrintUtxos {arrUtxos : List ListedUtxo} {input : Input} :
    input ∈ (finePrintUtxos arrUtxos).map (·.input) ↔
      ∃ utxo ∈ arrUtxos, utxo.txHash = input.txHash ∧ input.nTxOutput ∈ utxo.getIndexes := by
  rw [finePrintUtxos, List.map_flatMap, List.mem_flatMap]
  apply exists_congr
  intro utxo
  apply and_congr_right
  intro _
  rw [ListedUtxo.map_input_finePrint, List.mem_map]
  constructor
  · rintro ⟨idx, hidx, rfl⟩
    exact ⟨rfl, hidx⟩
  · rintro ⟨hhash, hidx⟩
    exact ⟨input.nTxOutput, hidx, by rw [hhash]⟩

/-- The outputs of the stored UTXOs and those of the patch have none in common. -/
theorem disjoint_iff :
    (∀ input ∈ (finePrintUtxos (S.listUnspent strAddress []
        (S.addressRecords strAddress))).map (·.input),
      input ∉ (finePrintUtxos (pending.utxos.map
        (·.filterOutputsForAddress strAddress))).map (·.input)) ↔
      S.LeavesNoCopy pending strAddress := by
  constructor
  · intro hdisjoint utxo hutxo hrecord stored hstored idx hidx hcopy
    have hsome : (stored.filterOutputsForAddress strAddress).isEmpty = false := by
      rw [ListedUtxo.isEmpty, List.isEmpty_eq_false_iff]
      intro hnil
      rw [ListedUtxo.getIndexes, hnil] at hidx
      cases hidx
    have hlisted := filter_mem_listUnspent hrecord List.not_mem_nil hstored hsome
    refine hdisjoint ⟨utxo.txHash, idx⟩ (mem_input_finePrintUtxos.mpr ?_)
      (mem_input_finePrintUtxos.mpr ?_)
    · exact ⟨_, hlisted, S.getUtxo_hash _ stored hstored, hidx⟩
    · exact ⟨_, List.mem_map_of_mem hutxo, rfl, hcopy⟩
  · intro hleaves input hstable hpending
    obtain ⟨listed, hlisted, hhash, hidx⟩ := mem_input_finePrintUtxos.mp hstable
    obtain ⟨filtered, hfiltered, hsame, hcopy⟩ := mem_input_finePrintUtxos.mp hpending
    obtain ⟨utxo, hutxo, rfl⟩ := List.mem_map.mp hfiltered
    have hrecord := txHash_mem_of_mem_listUnspent hlisted
    obtain ⟨-, stored, hstored, rfl⟩ := mem_listUnspent hlisted
    have hsame : utxo.txHash = stored.txHash := hsame.trans hhash.symm
    refine hleaves utxo hutxo ?_ stored ?_ input.nTxOutput hidx hcopy
    · rw [hsame]
      exact hrecord
    · rw [hsame]
      exact hstored

theorem addToBalance_foldl (arrResult : List RpcUnspent) (accum : Balance) :
    (arrResult.foldl addToBalance accum).confirmedBalance +
        (arrResult.foldl addToBalance accum).unconfirmedBalance =
      accum.confirmedBalance + accum.unconfirmedBalance +
        (arrResult.map (·.coins.amount)).sum := by
  induction arrResult generalizing accum with
  | nil => simp
  | cons unspent rest ih =>
      rw [List.foldl_cons, ih, List.map_cons, List.sum_cons, addToBalance]
      split
      next => ring
      next => ring

/-! ### What is counted -/

/-- What is listed for a watched address. -/
def rpcUnspents (S : WalletStorage) (pending : PendingCoins) (strAddress : Address)
    (bStableOnly : Bool) : List RpcUnspent :=
  (finePrintUtxos (S.listUnspent strAddress [] (S.addressRecords strAddress))).map (⟨·, true⟩) ++
    (finePrintUtxos (if bStableOnly then []
      else pending.utxos.map (·.filterOutputsForAddress strAddress))).map (⟨·, false⟩)

theorem rpcListUnspent_of_watched (hwatched : strAddress ∈ S.arrStrWalletAddresses)
    (bStableOnly : Bool) :
    S.rpcListUnspent pending strAddress bStableOnly =
      .ok (S.rpcUnspents pending strAddress bStableOnly) := by
  rw [rpcListUnspent, WalletStorage.walletListUnspent, if_neg (not_not.mpr hwatched)]
  rfl

theorem getBalance_of_watched (hwatched : strAddress ∈ S.arrStrWalletAddresses)
    (bStableOnly : Bool) :
    S.getBalance pending strAddress bStableOnly =
      .ok ((S.rpcUnspents pending strAddress bStableOnly).foldl addToBalance {}) := by
  rw [getBalance, rpcListUnspent_of_watched hwatched]
  rfl

theorem map_input_rpcUnspents (bStableOnly : Bool) :
    (S.rpcUnspents pending strAddress bStableOnly).map (·.coins.input) =
      (finePrintUtxos (S.listUnspent strAddress [] (S.addressRecords strAddress))).map (·.input) ++
        (finePrintUtxos (if bStableOnly then []
          else pending.utxos.map (·.filterOutputsForAddress strAddress))).map (·.input) := by
  simp [rpcUnspents, Function.comp_def]

theorem nodup_pendingInputs :
    ((finePrintUtxos (pending.utxos.map (·.filterOutputsForAddress strAddress))).map
      (·.input)).Nodup := by
  apply nodup_finePrintUtxos
  have hhashes : (pending.utxos.map (·.filterOutputsForAddress strAddress)).map (·.txHash) =
      pending.utxos.map (·.txHash) := by
    simp [Function.comp_def, ListedUtxo.filterOutputsForAddress]
  rw [hhashes]
  exact pending.nodup

/-- An output can be listed twice only as a stable and as a pending one. -/
theorem nodup_rpcUnspents_iff (bStableOnly : Bool) :
    ((S.rpcUnspents pending strAddress bStableOnly).map (·.coins.input)).Nodup ↔
      bStableOnly = true ∨ S.LeavesNoCopy pending strAddress := by
  have hstable : ((finePrintUtxos (S.listUnspent strAddress []
      (S.addressRecords strAddress))).map (·.input)).Nodup :=
    nodup_finePrintUtxos (nodup_listUnspent [] _)
  rw [map_input_rpcUnspents, List.nodup_append]
  cases bStableOnly with
  | true =>
      have hnone (input : Input) : input ∉ (finePrintUtxos []).map (·.input) := List.not_mem_nil
      refine iff_of_true ⟨hstable, List.nodup_nil, ?_⟩ (.inl rfl)
      exact fun _ _ input hinput => absurd hinput (hnone input)
  | false =>
      rw [or_iff_right Bool.false_ne_true, ← disjoint_iff]
      constructor
      · intro h input hlisted hcopy
        exact h.2.2 input hlisted input hcopy rfl
      · intro hdisjoint
        refine ⟨hstable, nodup_pendingInputs, ?_⟩
        intro input hlisted input' hcopy heq
        exact hdisjoint input hlisted (heq ▸ hcopy)

/-- Every output of a watched address is counted once just when only stable outputs are asked
for, or no copy of a stored output is left in the patch. -/
theorem countsOnce_iff (hwatched : strAddress ∈ S.arrStrWalletAddresses) (bStableOnly : Bool) :
    S.CountsOnce pending strAddress bStableOnly ↔
      bStableOnly = true ∨ S.LeavesNoCopy pending strAddress := by
  have hlist : S.rpcListUnspent pending strAddress bStableOnly =
      .ok (S.rpcUnspents pending strAddress bStableOnly) :=
    rpcListUnspent_of_watched hwatched bStableOnly
  constructor
  · rintro ⟨listed, balance, hlisted, -, hcounts, -⟩
    rw [hlist] at hlisted
    cases hlisted
    exact (nodup_rpcUnspents_iff bStableOnly).mp hcounts
  · intro hcondition
    have hcounts := (nodup_rpcUnspents_iff bStableOnly).mpr hcondition
    refine ⟨_, _, hlist, getBalance_of_watched hwatched bStableOnly, hcounts, ?_⟩
    rw [addToBalance_foldl]
    have hcoins : ((S.rpcUnspents pending strAddress bStableOnly).map (·.coins)).Nodup := by
      apply List.Nodup.of_map (·.input)
      rw [List.map_map]
      exact hcounts
    rw [List.sum_toFinset _ hcoins, List.map_map]
    simp [Function.comp_def]

/-- A stored UTXO with two outputs of the address 7. -/
def twoOutputs : WalletStorage := .sample [(0, ⟨5, 7⟩), (1, ⟨6, 7⟩)] (by decide)

/-- The patch that spends the first one. -/
def firstSpent : PendingCoins where
  utxos := [{ txHash := 101, outputs := [(1, ⟨6, 7⟩)] }]

theorem countsOnce_iff_twoOutputs :
    twoOutputs.CountsOnce firstSpent 7 true ↔ true = true ∨ twoOutputs.LeavesNoCopy firstSpent 7 :=
  countsOnce_iff (by decide) true

/-- The second output is listed as a stable and as a pending one. -/
theorem not_countsOnce_firstSpent :
    (∃ utxo, twoOutputs.getUtxo 101 = some utxo ∧
      PendingCoins.spendCoins utxo 0 {} = .ok firstSpent) ∧
      ¬ twoOutputs.CountsOnce firstSpent 7 false := by
  refine ⟨⟨_, rfl, rfl⟩, ?_⟩
  rintro ⟨arrResult, balance, hlist, -, hnodup, -⟩
  cases hlist
  exact absurd hnodup (by decide +kernel)

end WalletStorage

end CilCore
