import CilCore.Lib.Prefixes
import CilCore.Wallet.ListedUtxo
import CilCore.Wallet.TxDraft

/-!
# The join transaction of a witness

`_createJoinTx` of `node/witness.js` spends outputs one by one up to a limit but
adds up whole UTXOs. So the amounts balance exactly where the outputs that the
limit cuts off the last UTXO are worth nothing.
-/

namespace CilCore

open Prefixes TxDraft

/-- The wallet of a witness. -/
structure Wallet where
  privateKey : PrivateKey
  address : Address

/-- The inner loop of `_createJoinTx`. The transaction starts without inputs, so
`nInputs` is their number. -/
def joinOutputs (nMaxInputs : Nat) (txHash : Hash) : List Nat → TxDraft → Except String TxDraft
  | [], tx => .ok tx
  | idx :: rest, tx => do
      let tx ← tx.addInput txHash idx
      if tx.inputs.length ≥ nMaxInputs then .ok tx else joinOutputs nMaxInputs txHash rest tx

/-- The outer loop of `_createJoinTx`. -/
def joinUtxos (nMaxInputs : Nat) :
    List ListedUtxo → TxDraft → Amount → Except String (TxDraft × Amount)
  | [], tx, nTotalAmount => .ok (tx, nTotalAmount)
  | utxo :: rest, tx, nTotalAmount => do
      let tx ← joinOutputs nMaxInputs utxo.txHash utxo.getIndexes tx
      if tx.inputs.length ≥ nMaxInputs then .ok (tx, nTotalAmount + utxo.amountOut)
      else joinUtxos nMaxInputs rest tx (nTotalAmount + utxo.amountOut)

/-- The `fee` of a transaction with `nInputs` inputs and one output. -/
def joinFee (K : Constants) (nInputs : Nat) : Amount :=
  (1 + nInputs) * mathRound (K.fees.TX_FEE * (12 / 100))

/-- The claims of `_createJoinTx`: one signature for several inputs, or the claim
of the only one. -/
def signJoinTx (C : Crypto) (wallet : Wallet) (tx : TxDraft) : Except String TxDraft :=
  if tx.inputs.length > 1 then .ok (tx.signForContract C wallet.privateKey)
  else (List.range tx.inputs.length).foldlM (fun tx i => tx.claim C i wallet.privateKey) tx

/-- `_createJoinTx`. -/
def createJoinTx (K : Constants) (C : Crypto) (wallet : Wallet) (arrUtxos : List ListedUtxo)
    (nConciliumId nMaxInputs : Nat) : Except String TxDraft := do
  let tx : TxDraft := { payload := { conciliumId := nConciliumId } }
  let (tx, nTotalAmount) ← joinUtxos nMaxInputs arrUtxos tx 0
  let tx ← tx.addReceiver (nTotalAmount - joinFee K tx.inputs.length) wallet.address
  signJoinTx C wallet tx

/-- What the limit leaves of the UTXO in which it is reached. -/
def cutOff : Nat → List ListedUtxo → List (Nat × Coins)
  | _, [] => []
  | nMaxInputs, utxo :: rest =>
      if nMaxInputs ≤ utxo.outputs.length then utxo.outputs.drop nMaxInputs
      else cutOff (nMaxInputs - utxo.outputs.length) rest

/-! ### What the loops build -/

section

variable {nMaxInputs : Nat} {tx : TxDraft}

/-- Inputs are added up to the limit. -/
theorem joinOutputs_eq (txHash : Hash) (indexes : List Nat) (hopen : tx.Open)
    (hlt : tx.inputs.length < nMaxInputs) :
    joinOutputs nMaxInputs txHash indexes tx = .ok (tx.withInputs
      ((indexes.map fun idx => ⟨txHash, idx⟩).take (nMaxInputs - tx.inputs.length))) := by
  induction indexes generalizing tx with
  | nil => simp [joinOutputs]
  | cons idx rest ih =>
    have hroom : nMaxInputs - tx.inputs.length = nMaxInputs - (tx.inputs.length + 1) + 1 := by
      omega
    rw [joinOutputs, hopen.addInput, List.map_cons, hroom, List.take_succ_cons]
    simp only [bind, Except.bind, inputs_withInputs, List.length_append, List.length_singleton]
    split
    next hfull =>
      rw [Nat.sub_eq_zero_of_le hfull, List.take_zero]
    next hroom' =>
      rw [ih (hopen.withInputs _) (by simpa using hroom')]
      simp

/-- The coins of the first outputs are the inputs, and the coins that the limit
cuts off are counted with them. -/
theorem joinUtxos_eq (arrUtxos : List ListedUtxo) (nTotalAmount : Amount) (hopen : tx.Open)
    (hlt : tx.inputs.length < nMaxInputs) :
    joinUtxos nMaxInputs arrUtxos tx nTotalAmount = .ok
      (tx.withInputs (((finePrintUtxos arrUtxos).take (nMaxInputs - tx.inputs.length)).map
        (·.input)),
      nTotalAmount +
        (((finePrintUtxos arrUtxos).take (nMaxInputs - tx.inputs.length)).map (·.amount)).sum +
        ((cutOff (nMaxInputs - tx.inputs.length) arrUtxos).map (·.2.amount)).sum) := by
  induction arrUtxos generalizing tx nTotalAmount with
  | nil => simp [joinUtxos, finePrintUtxos, cutOff]
  | cons utxo rest ih =>
    have hlength : utxo.finePrint.length = utxo.outputs.length := by simp [ListedUtxo.finePrint]
    rw [joinUtxos, joinOutputs_eq _ _ hopen hlt, ← utxo.map_input_finePrint, ← List.map_take,
      finePrintUtxos, List.flatMap_cons, cutOff]
    simp only [bind, Except.bind, inputs_withInputs, List.length_append, List.length_map,
      List.length_take, hlength]
    split
    next hfull =>
      have hle : nMaxInputs - tx.inputs.length ≤ utxo.outputs.length := by omega
      rw [if_pos hle, List.take_append_of_le_length (by omega),
        utxo.amountOut_eq_take_add_drop (nMaxInputs - tx.inputs.length), add_assoc]
    next hroom =>
      have hgt : ¬ nMaxInputs - tx.inputs.length ≤ utxo.outputs.length := by omega
      have hall : utxo.finePrint.take (nMaxInputs - tx.inputs.length) = utxo.finePrint :=
        List.take_of_length_le (by omega)
      have hleft : nMaxInputs - (tx.inputs.length + utxo.outputs.length) =
          nMaxInputs - tx.inputs.length - utxo.outputs.length := by omega
      rw [if_neg hgt, hall, ih _ (hopen.withInputs _) (by simp [hlength]; omega),
        List.take_append, hall, withInputs_withInputs]
      simp only [inputs_withInputs, List.length_append, List.length_map, hlength, hleft,
        List.map_append, List.sum_append, utxo.sum_finePrint, add_assoc]
      rfl

/-- Claims of existing inputs succeed and leave the payload. -/
theorem claims_eq (C : Crypto) (key : PrivateKey) (indexes : List Nat)
    (hindexes : ∀ i ∈ indexes, i ≤ tx.inputs.length) :
    ∃ tx', indexes.foldlM (fun tx i => tx.claim C i key) tx = .ok tx' ∧
      tx'.payload = tx.payload := by
  induction indexes generalizing tx with
  | nil => exact ⟨tx, rfl, rfl⟩
  | cons i rest ih =>
    have hi : ¬ i > tx.inputs.length := not_lt.mpr (hindexes i List.mem_cons_self)
    rw [List.foldlM_cons, TxDraft.claim, if_neg hi]
    exact ih fun j hj => hindexes j (List.mem_cons_of_mem i hj)

theorem signJoinTx_eq (C : Crypto) (wallet : Wallet) (tx : TxDraft) :
    ∃ tx', signJoinTx C wallet tx = .ok tx' ∧ tx'.payload = tx.payload := by
  unfold signJoinTx
  split
  next => exact ⟨_, rfl, rfl⟩
  next =>
    apply claims_eq
    intro i hi
    exact (List.mem_range.mp hi).le

/-- The inputs and the output of the join transaction. -/
theorem createJoinTx_eq (K : Constants) (C : Crypto) (wallet : Wallet)
    (arrUtxos : List ListedUtxo) (nConciliumId : Nat) (hpos : 1 ≤ nMaxInputs) :
    ∃ tx, createJoinTx K C wallet arrUtxos nConciliumId nMaxInputs = .ok tx ∧
      tx.inputs = ((finePrintUtxos arrUtxos).take nMaxInputs).map (·.input) ∧
      tx.outputs = [{
        amount := (((finePrintUtxos arrUtxos).take nMaxInputs).map (·.amount)).sum +
          ((cutOff nMaxInputs arrUtxos).map (·.2.amount)).sum - joinFee K tx.inputs.length
        receiverAddr := wallet.address }] := by
  have hopen : TxDraft.Open { payload := { conciliumId := nConciliumId } } := ⟨rfl, rfl⟩
  have hjoin := joinUtxos_eq arrUtxos 0 hopen hpos
  simp only [TxDraft.inputs, List.length_nil, Nat.sub_zero, zero_add] at hjoin
  simp only [createJoinTx, hjoin, bind, Except.bind, (hopen.withInputs _).addReceiver]
  obtain ⟨tx', hsign, hpayload⟩ := signJoinTx_eq C wallet _
  refine ⟨tx', hsign, ?_, ?_⟩
  · rw [TxDraft.inputs, hpayload]
    rfl
  · rw [TxDraft.outputs, TxDraft.inputs, hpayload]
    rfl

end

/-- The amounts of a join transaction balance: its only output and the fee are
the coins of its inputs, each of which it spends once, and no more of them than
the limit. -/
structure JoinBalanced (K : Constants) (arrUtxos : List ListedUtxo) (nMaxInputs : Nat)
    (tx : TxDraft) : Prop where
  balance : ∃ out, tx.outputs = [out] ∧ out.amount + joinFee K tx.inputs.length =
    (((finePrintUtxos arrUtxos).filter fun coins => coins.input ∈ tx.inputs).map (·.amount)).sum
  unspent : ∀ input ∈ tx.inputs, input ∈ (finePrintUtxos arrUtxos).map (·.input)
  nodup : tx.inputs.Nodup
  length_le : tx.inputs.length ≤ nMaxInputs

/-- Where the amounts balance, the limit cuts off nothing of worth. -/
theorem JoinBalanced.sum_cutOff {K : Constants} {C : Crypto} {wallet : Wallet}
    {arrUtxos : List ListedUtxo} {nConciliumId nMaxInputs : Nat} {tx : TxDraft}
    (h : JoinBalanced K arrUtxos nMaxInputs tx) (hnodup : (arrUtxos.map (·.txHash)).Nodup)
    (hpos : 1 ≤ nMaxInputs)
    (htx : createJoinTx K C wallet arrUtxos nConciliumId nMaxInputs = .ok tx) :
    ((cutOff nMaxInputs arrUtxos).map (·.2.amount)).sum = 0 := by
  obtain ⟨tx', htx', hins, houts⟩ := createJoinTx_eq K C wallet arrUtxos nConciliumId hpos
  cases htx.symm.trans htx'
  obtain ⟨out, hout, hbalance⟩ := h.balance
  have htake : (finePrintUtxos arrUtxos).take nMaxInputs <+: finePrintUtxos arrUtxos :=
    List.take_prefix nMaxInputs _
  have hcoins := filter_mem_map_of_isPrefix UnspentCoins.input htake (nodup_finePrintUtxos hnodup)
  rw [← hins] at hcoins
  rw [houts, List.cons.injEq] at hout
  rw [hcoins, ← hout.1] at hbalance
  dsimp only at hbalance
  linarith

/-- The join transaction balances exactly where the outputs that the limit cuts
off a UTXO are worth nothing. -/
theorem createJoinTx_balanced_iff (K : Constants) (C : Crypto) (wallet : Wallet)
    (arrUtxos : List ListedUtxo) (nConciliumId nMaxInputs : Nat)
    (hnodup : (arrUtxos.map (·.txHash)).Nodup) (hpos : 1 ≤ nMaxInputs) :
    (∃ tx, createJoinTx K C wallet arrUtxos nConciliumId nMaxInputs = .ok tx ∧
        JoinBalanced K arrUtxos nMaxInputs tx) ↔
      ((cutOff nMaxInputs arrUtxos).map (·.2.amount)).sum = 0 := by
  constructor
  · rintro ⟨tx, htx, hbalanced⟩
    exact hbalanced.sum_cutOff hnodup hpos htx
  · intro hcut
    obtain ⟨tx, htx, hins, houts⟩ := createJoinTx_eq K C wallet arrUtxos nConciliumId hpos
    have hinputs := nodup_finePrintUtxos hnodup
    have htake : (finePrintUtxos arrUtxos).take nMaxInputs <+: finePrintUtxos arrUtxos :=
      List.take_prefix nMaxInputs _
    have hcoins := filter_mem_map_of_isPrefix UnspentCoins.input htake hinputs
    rw [← hins] at hcoins
    refine ⟨tx, htx, ⟨_, houts, ?_⟩, ?_, ?_, ?_⟩
    · rw [hcoins]
      dsimp only
      linarith
    · intro input hinput
      rw [hins] at hinput
      exact List.map_subset _ (List.take_subset _ _) hinput
    · rw [hins]
      exact hinputs.sublist ((List.take_sublist _ _).map _)
    · rw [hins, List.length_map]
      exact List.length_take_le _ _

/-- The constants of a node with the default fees. -/
def Constants.sample : Constants where
  GENESIS_BLOCK := 1
  CONCILIUM_DEFINITION_CONTRACT_ADDRESS := none

/-- A UTXO with three outputs of 10000 coins and one with a single output. -/
def fourOutputs : List ListedUtxo :=
  [{ txHash := 101, outputs := [(1, ⟨10000, 7⟩), (2, ⟨10000, 7⟩), (5, ⟨10000, 7⟩)] },
   { txHash := 102, outputs := [(0, ⟨10000, 7⟩)] }]

theorem createJoinTx_balanced_iff_fourOutputs :
    (∃ tx, createJoinTx .sample .sample ⟨[7], 7⟩ fourOutputs 1 3 = .ok tx ∧
        JoinBalanced .sample fourOutputs 3 tx) ↔
      ((cutOff 3 fourOutputs).map (·.2.amount)).sum = 0 :=
  createJoinTx_balanced_iff .sample .sample ⟨[7], 7⟩ fourOutputs 1 3 (by decide) (by decide)

/-- Two inputs of 10000 coins pay for an output of 28560 coins and a fee of 1440. -/
theorem not_joinBalanced_fourOutputs :
    ¬ ∃ tx, createJoinTx .sample .sample ⟨[7], 7⟩ fourOutputs 1 2 = .ok tx ∧
      JoinBalanced .sample fourOutputs 2 tx := by
  rintro ⟨tx, htx, hbalanced⟩
  have hcut := hbalanced.sum_cutOff (by decide) (by decide) htx
  have hcoins : ((cutOff 2 fourOutputs).map (·.2.amount)).sum = 10000 := by decide +kernel
  rw [hcoins] at hcut
  norm_num at hcut

end CilCore
