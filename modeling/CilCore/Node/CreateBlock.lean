import CilCore.Node.ExecBlock

/-!
# Creating a block

`_createBlock` of `node/witness.js` and `finish` of `structures/block.js`: a witness
merges its best parents, adds the transactions that can be processed one after another,
skips the others, and pays the fees to itself in a coinbase.
-/

namespace CilCore

/-- The constants that the creation of a block reads. -/
structure WitnessConstants where
  MAX_UTXO_PER_TX : Nat := 1000
  WITNESS_UTXOS_JOIN : Nat := 30
  DEV_FOUNDATION_ADDRESS : Address
  DEV_FOUNDATION_SHARE : ℚ := 1 / 10
  share_le : DEV_FOUNDATION_SHARE ≤ 1 := by norm_num

/-! ### Transactions in memory -/

/-- What is left of an integer in a `fixed64` field. -/
def fixed64 (amount : ℤ) : Nat := (amount % 2 ^ 64).toNat

/-- A transaction that was built in memory, next to what it is once encoded: the amounts
of its outputs are numbers that need not fit into their fields. -/
structure BuiltTx where
  tx : Transaction
  outCoins : List Coins

/-- A transaction that was decoded. -/
def BuiltTx.decoded (tx : Transaction) : BuiltTx := ⟨tx, tx.getOutCoins⟩

/-- `_processTx` of a transaction in memory that is not genesis. -/
def processBuiltTx (F : Factory) (node : NodeView) (patchForBlock : PatchDB) (built : BuiltTx)
    (behaviour : Behaviour) : Except String (Amount × PatchDB) :=
  match findContract F node (some patchForBlock) built.tx with
  | .error error => .error error
  | .ok (some _) => processTx F node (some patchForBlock) false built.tx behaviour
  | .ok none =>
      match processInputs F node (some patchForBlock) false built.tx with
      | .error error => .error error
      | .ok (patchThisTx, totalHas, nFeeSize) =>
          match App.processPaymentsFrom (built.tx.hash F) 0 built.outCoins patchThisTx 0 with
          | .error error => .error error
          | .ok (patchThisTx, totalSent) =>
              let nRemainingCoins := totalHas - totalSent
              if nRemainingCoins > nFeeSize then .ok (nRemainingCoins, patchThisTx)
              else .error "Require fee at least but you sent less than fee!"

/-- An entry of `walletListUnspent`: indexes and amounts of outputs of a transaction. -/
structure WalletUtxo where
  txHash : Hash
  outputs : List (Nat × Nat)

/-- `amountOut`. -/
def WalletUtxo.amountOut (utxo : WalletUtxo) : Nat := (utxo.outputs.map (·.2)).sum

/-- `Mempool`: transactions by concilium, as `addTx` files them, and local ones. -/
structure Mempool where
  mapConciliumTxns : Nat → List Transaction
  mapLocalTxns : List Transaction
  filed : ∀ conciliumId, ∀ tx ∈ mapConciliumTxns conciliumId, tx.conciliumId = conciliumId

/-- `getFinalTxns`. -/
def Mempool.getFinalTxns (mempool : Mempool) (nConciliumId : Nat) : List Transaction :=
  mempool.mapConciliumTxns nConciliumId ++
    mempool.mapLocalTxns.filter fun tx => tx.conciliumId = nConciliumId

/-- What a witness has besides the state of a node. The clock tells after how many
transactions the time for creating a block is over. -/
structure Witness where
  constants : WitnessConstants
  address : Address
  sign : Hash → Signature
  bCreateJoinTx : Bool
  nLowestConciliumId : Option Nat
  arrUtxos : List WalletUtxo
  mempool : Mempool
  timeIsOver : Nat → Bool
  timestamp : Nat
  randomAddress : Address

namespace Witness

variable (F : Factory) (J : Dagjs)

/-- The inner loop of `_createJoinTx`. -/
def joinOutputs (w : Witness) (txHash : Hash) : List (Nat × Nat) → List Input → List Input
  | [], ins => ins
  | (idx, _) :: rest, ins =>
      let ins := ins ++ [⟨txHash, idx⟩]
      if w.constants.MAX_UTXO_PER_TX ≤ 2 * ins.length then ins else w.joinOutputs txHash rest ins

/-- The outer loop of `_createJoinTx`: inputs, and the amount of all UTXOs met. -/
def joinUtxos (w : Witness) : List WalletUtxo → List Input → Nat → List Input × Nat
  | [], ins, nTotalAmount => (ins, nTotalAmount)
  | utxo :: rest, ins, nTotalAmount =>
      let nTotalAmount := nTotalAmount + utxo.amountOut
      let ins := w.joinOutputs utxo.txHash utxo.outputs ins
      if w.constants.MAX_UTXO_PER_TX ≤ 2 * ins.length then (ins, nTotalAmount)
      else w.joinUtxos rest ins nTotalAmount

/-- What `_createJoinTx` pays to the witness: all it joins but the fee. -/
def joinAmount (w : Witness) : ℤ :=
  let (ins, nTotalAmount) := w.joinUtxos w.arrUtxos [] 0
  nTotalAmount - (1 + ins.length) * ((12 * F.constants.fees.TX_FEE + 50) / 100 : Nat)

/-- The encoded join transaction before it is signed. -/
def joinPayload (w : Witness) (nConciliumId : Nat) : TransactionPayload where
  conciliumId := nConciliumId
  ins := (w.joinUtxos w.arrUtxos [] 0).1
  outs := [{ amount := fixed64 (w.joinAmount F), receiverAddr := w.address }]

/-- `_createJoinTx`. -/
def createJoinTx (w : Witness) (nConciliumId : Nat) : BuiltTx where
  tx :=
    let payload := w.joinPayload F nConciliumId
    let signature := w.sign (F.payloadHash payload)
    if 1 < payload.ins.length then { payload, txSignature := some signature }
    else { payload, claimProofs := payload.ins.map fun _ => signature }
  outCoins := [⟨w.joinAmount F, w.address⟩]

/-- The join transaction, if it is time for one. -/
def joinTx (w : Witness) (conciliumId : Nat) : Option BuiltTx :=
  if w.bCreateJoinTx ∧ w.nLowestConciliumId = some conciliumId ∧
      w.constants.WITNESS_UTXOS_JOIN < w.arrUtxos.length then
    some (w.createJoinTx F conciliumId)
  else none

/-- The transactions that `_createBlock` tries, in this order. -/
def arrTxToProcess (w : Witness) (conciliumId : Nat) : List BuiltTx :=
  (w.joinTx F conciliumId).toList ++ (w.mempool.getFinalTxns conciliumId).map .decoded

/-- The transactions of a block under construction, their fees, and the patch so far. -/
structure Building where
  txns : List Transaction
  totalFee : Amount
  patchMerged : PatchDB

/-- The loop of `_createBlock`. The fee is counted before the patch is merged. -/
def addTxns (w : Witness) (node : NodeView) (vm : Transaction → Behaviour) :
    List BuiltTx → Building → Building
  | [], building => building
  | built :: rest, building =>
      if w.constants.MAX_UTXO_PER_TX < built.tx.inputs.length then w.addTxns node vm rest building
      else
        match processBuiltTx F node building.patchMerged built (vm built.tx) with
        | .error _ => w.addTxns node vm rest building
        | .ok (fee, patchThisTx) =>
            let totalFee := building.totalFee + fee
            match building.patchMerged.merge F patchThisTx true with
            | .error _ => w.addTxns node vm rest { building with totalFee }
            | .ok patchMerged =>
                let building := ⟨building.txns ++ [built.tx], totalFee, patchMerged⟩
                if w.timeIsOver building.txns.length then building
                else w.addTxns node vm rest building

/-- `_getFeeSizePerInput`. -/
def getFeeSizePerInput (storage : Storage) (conciliumId : Nat) : Except String Nat :=
  match storage.getConciliumById F conciliumId with
  | .error error => .error error
  | .ok witnessConcilium =>
      let nFeeTxSize := (witnessConcilium.map (·.fees.feeTxSize)).getD 0
      .ok ((if nFeeTxSize ≠ 0 then nFeeTxSize else F.constants.fees.TX_FEE) * 11 / 100)

/-- The outputs of the coinbase that `finish` creates. -/
def coinbaseOutputs (w : Witness) (totalTxnsFees minUsefulAmount : Nat) : List Output :=
  if totalTxnsFees = 0 then []
  else
    let nFeeDevFoundation := ⌊w.constants.DEV_FOUNDATION_SHARE * totalTxnsFees⌋₊
    (if minUsefulAmount * 2 ≤ nFeeDevFoundation then
      [{ amount := nFeeDevFoundation, receiverAddr := w.constants.DEV_FOUNDATION_ADDRESS },
        { amount := totalTxnsFees - nFeeDevFoundation, receiverAddr := w.address }]
    else [{ amount := totalTxnsFees, receiverAddr := w.address }]) ++
      [{ amount := 0, receiverAddr := w.randomAddress }]

/-- `finish`: the coinbase comes first. Its amounts have to be integers. -/
def finish (w : Witness) (header : BlockHeader) (txns : List Transaction)
    (totalTxnsFees : Amount) (minUsefulAmount : Nat) : Except String Block :=
  if totalTxnsFees < 0 then .error "Coinbase amount is negative"
  else if totalTxnsFees.den ≠ 1 then
    .error "Transaction: payload.outs.amount: integer|Long expected"
  else
    let coinbase : Transaction :=
      { payload :=
          { conciliumId := header.conciliumId
            ins := [⟨zeroHash, 0⟩]
            outs := w.coinbaseOutputs totalTxnsFees.num.toNat minUsefulAmount } }
    let block : Block :=
      { header := { header with timestamp := w.timestamp }
        txns := coinbase :: txns }
    .ok { block with header := block.hashedHeader F }

/-- `_createBlock`: the block, and the patch of its execution. An error stands for a block
that is not finished. -/
def createBlock (w : Witness) (s : ChainState) (vm : Transaction → Behaviour)
    (conciliumId : Nat) : Except String (Block × PatchDB) :=
  let (arrParents, patchMerged) := s.pendingBlocks.getBestParents F J (some conciliumId)
  match patchMerged.setConciliumId conciliumId with
  | .error error => .error error
  | .ok patchMerged =>
      match s.calcHeight arrParents with
      | .error error => .error error
      | .ok height =>
          let building := w.addTxns F ⟨s.storage, some height⟩ vm (w.arrTxToProcess F conciliumId)
            ⟨[], 0, patchMerged⟩
          match getFeeSizePerInput F s.storage conciliumId with
          | .error error => .error error
          | .ok minUsefulAmount =>
              match w.finish F ⟨arrParents, 0, conciliumId, 0, 1, height⟩ building.txns
                  building.totalFee minUsefulAmount with
              | .error error => .error error
              | .ok block =>
                  (ChainState.processBlockCoinbaseTX F block building.totalFee
                    building.patchMerged).map fun patch => (block, patch)

end Witness

end CilCore
