import CilCore.Structures.Utxo

/-!
# Unspent outputs in order

The wallet spends outputs in the order in which a UTXO lists them, so here a
UTXO of `structures/utxo.js` keeps the order of its indexes, and
`finePrintUtxos` of `utils.js` lists the outputs of several UTXOs.
-/

namespace CilCore

/-- A UTXO with its outputs in the order of `arrIndexes`. -/
structure ListedUtxo where
  txHash : Hash
  outputs : List (Nat × Coins)
  nodup : (outputs.map (·.1)).Nodup := by decide

namespace ListedUtxo

/-- `getIndexes`. -/
def getIndexes (utxo : ListedUtxo) : List Nat := utxo.outputs.map (·.1)

/-- `isEmpty`. -/
def isEmpty (utxo : ListedUtxo) : Bool := utxo.outputs.isEmpty

/-- `amountOut`. -/
def amountOut (utxo : ListedUtxo) : Amount := (utxo.outputs.map (·.2.amount)).sum

/-- `filterOutputsForAddress`. -/
def filterOutputsForAddress (utxo : ListedUtxo) (strAddress : Address) : ListedUtxo where
  txHash := utxo.txHash
  outputs := utxo.outputs.filter fun o => o.2.receiverAddr == strAddress
  nodup := utxo.nodup.sublist (List.filter_sublist.map _)

/-- The UTXO without the order of its outputs. -/
def toUTXO (utxo : ListedUtxo) : UTXO :=
  utxo.outputs.foldr (fun o m => Finmap.insert o.1 o.2 m) ∅

end ListedUtxo

/-- An unspent output as `finePrintUtxos` lists it. -/
structure UnspentCoins where
  hash : Hash
  nOut : Nat
  amount : Amount
deriving DecidableEq

/-- The input that spends an output. -/
def UnspentCoins.input (coins : UnspentCoins) : Input := ⟨coins.hash, coins.nOut⟩

/-- The outputs of a UTXO. -/
def ListedUtxo.finePrint (utxo : ListedUtxo) : List UnspentCoins :=
  utxo.outputs.map fun o => ⟨utxo.txHash, o.1, o.2.amount⟩

/-- `finePrintUtxos`. -/
def finePrintUtxos (arrUtxos : List ListedUtxo) : List UnspentCoins :=
  arrUtxos.flatMap ListedUtxo.finePrint

namespace ListedUtxo

theorem map_input_finePrint (utxo : ListedUtxo) :
    utxo.finePrint.map (·.input) = utxo.getIndexes.map fun idx => ⟨utxo.txHash, idx⟩ := by
  simp [finePrint, getIndexes, UnspentCoins.input, Function.comp_def]

theorem sum_finePrint (utxo : ListedUtxo) :
    (utxo.finePrint.map (·.amount)).sum = utxo.amountOut := by
  simp [finePrint, amountOut, Function.comp_def]

theorem amountOut_eq_take_add_drop (utxo : ListedUtxo) (n : Nat) :
    utxo.amountOut = ((utxo.finePrint.take n).map (·.amount)).sum +
      ((utxo.outputs.drop n).map (·.2.amount)).sum := by
  have hdrop : (utxo.finePrint.drop n).map (·.amount) =
      (utxo.outputs.drop n).map (·.2.amount) := by
    simp [finePrint, Function.comp_def]
  rw [← sum_finePrint, ← hdrop, ← List.sum_append, ← List.map_append, List.take_append_drop]

theorem hash_of_mem_finePrint {utxo : ListedUtxo} {coins : UnspentCoins}
    (h : coins ∈ utxo.finePrint) : coins.hash = utxo.txHash := by
  obtain ⟨o, -, rfl⟩ := List.mem_map.mp h
  rfl

theorem nodup_finePrint (utxo : ListedUtxo) : (utxo.finePrint.map (·.input)).Nodup := by
  rw [map_input_finePrint]
  apply utxo.nodup.map
  intro i j heq
  injection heq

theorem keys_foldr_insert (outputs : List (Nat × Coins)) :
    (outputs.foldr (fun o m => Finmap.insert o.1 o.2 m) (∅ : UTXO)).keys =
      (outputs.map (·.1)).toFinset := by
  induction outputs with
  | nil => rfl
  | cons o rest ih => rw [List.foldr_cons, FinMap.keys_insert, ih, List.map_cons, List.toFinset_cons]

/-- The order of the outputs does not change what they are worth. -/
theorem amountOut_toUTXO (utxo : ListedUtxo) : utxo.toUTXO.amountOut = utxo.amountOut := by
  obtain ⟨txHash, outputs, hnodup⟩ := utxo
  unfold toUTXO amountOut UTXO.amountOut
  dsimp only
  induction outputs with
  | nil => rfl
  | cons o rest ih =>
    rw [List.map_cons, List.nodup_cons] at hnodup
    have hfresh : (rest.foldr (fun o m => Finmap.insert o.1 o.2 m) (∅ : UTXO)).lookup o.1 =
        none := by
      rw [← FinMap.notMem_keys_iff, keys_foldr_insert]
      simpa using hnodup.1
    rw [List.foldr_cons, FinMap.total_insert_of_notMem _ _ _ hfresh, ih hnodup.2, List.map_cons,
      List.sum_cons, add_comm]

end ListedUtxo

/-- UTXOs of different transactions have no output in common. -/
theorem nodup_finePrintUtxos {arrUtxos : List ListedUtxo}
    (hnodup : (arrUtxos.map (·.txHash)).Nodup) :
    ((finePrintUtxos arrUtxos).map (·.input)).Nodup := by
  induction arrUtxos with
  | nil => exact List.nodup_nil
  | cons utxo rest ih =>
    rw [List.map_cons, List.nodup_cons] at hnodup
    rw [finePrintUtxos, List.flatMap_cons, List.map_append, List.nodup_append]
    refine ⟨utxo.nodup_finePrint, ih hnodup.2, ?_⟩
    intro input hinput input' hinput' heq
    obtain ⟨coins, hcoins, rfl⟩ := List.mem_map.mp hinput
    obtain ⟨coins', hcoins', rfl⟩ := List.mem_map.mp hinput'
    obtain ⟨other, hother, hmem⟩ := List.mem_flatMap.mp hcoins'
    apply hnodup.1
    have hhash : utxo.txHash = other.txHash := by
      rw [← ListedUtxo.hash_of_mem_finePrint hcoins, ← ListedUtxo.hash_of_mem_finePrint hmem]
      exact congrArg Input.txHash heq
    exact hhash ▸ List.mem_map_of_mem hother

end CilCore
