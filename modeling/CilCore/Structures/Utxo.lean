import CilCore.Lib.FinMap
import CilCore.Structures.Proto

/-!
# Unspent outputs of a transaction

`structures/utxo.js`: the outputs of one transaction that are not spent yet, by
output index. The hash of the transaction is the key under which a UTXO is kept.
-/

namespace CilCore

/-- `UTXO`: coins by output index. -/
abbrev UTXO := FinMap Nat Coins

namespace UTXO

/-- `isEmpty`: all outputs in the UTXO are spent. -/
def isEmpty (utxo : UTXO) : Prop := utxo.keys = ∅

instance (utxo : UTXO) : Decidable utxo.isEmpty := inferInstanceAs (Decidable (_ = _))

/-- `getIndexes`. -/
def getIndexes (utxo : UTXO) : Finset Nat := utxo.keys

/-- `addCoins`. -/
def addCoins (idx : Nat) (coins : Coins) (utxo : UTXO) : Except String UTXO :=
  if idx ∈ utxo.keys then .error "index already added!" else .ok (utxo.insert idx coins)

/-- `spendCoins`. -/
def spendCoins (nTxOutput : Nat) (utxo : UTXO) : Except String UTXO :=
  if nTxOutput ∈ utxo.keys then .ok (utxo.erase nTxOutput) else .error "index already deleted!"

/-- `coinsAtIndex`. -/
def coinsAtIndex (idx : Nat) (utxo : UTXO) : Except String Coins :=
  match utxo.lookup idx with
  | some coins => .ok coins
  | none => .error "Output already spent!"

/-- `equals`: the same indexes with the same coins. -/
def equals (utxo other : UTXO) : Prop :=
  utxo.getIndexes = other.getIndexes ∧
    ∀ idx ∈ utxo.getIndexes, utxo.lookup idx = other.lookup idx

instance (utxo other : UTXO) : Decidable (utxo.equals other) :=
  inferInstanceAs (Decidable (_ ∧ _))

/-- `amountOut`: the amount of coins to transfer with this UTXO. -/
def amountOut (utxo : UTXO) : Amount := FinMap.total (fun _ coins => coins.amount) utxo

/-- `filterOutputsForAddress`: the outputs for an address. -/
def filterOutputsForAddress (address : Address) (utxo : UTXO) : UTXO :=
  FinMap.tabulate utxo.keys fun idx => (utxo.lookup idx).filter (·.receiverAddr == address)

/-- Two UTXOs are equal exactly when they hold the same coins. -/
theorem equals_iff (utxo other : UTXO) : utxo.equals other ↔ utxo = other := by
  constructor
  · rintro ⟨hindexes, hcoins⟩
    refine Finmap.ext_lookup fun idx => ?_
    by_cases hidx : idx ∈ utxo.getIndexes
    · exact hcoins idx hidx
    · have hother : idx ∉ other.getIndexes := hindexes ▸ hidx
      rw [FinMap.notMem_keys_iff.mp hidx, FinMap.notMem_keys_iff.mp hother]
  · rintro rfl
    exact ⟨rfl, fun _ _ => rfl⟩

end UTXO

end CilCore
