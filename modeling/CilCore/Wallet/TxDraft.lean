import CilCore.Factory

/-!
# Building a transaction

`structures/transaction.js` as the wallets use it: inputs and receivers are
added, and then inputs are claimed or the whole transaction is signed. Amounts
are computed from fee rates, so they are exact rationals of either sign until
the transaction is encoded.
-/

namespace CilCore

/-- An output before it is encoded. -/
structure DraftOutput where
  amount : Amount
  receiverAddr : Address
  contractCode : String := ""
  addrChangeReceiver : Option Address := none

/-- The payload of a transaction before it is encoded. -/
structure DraftPayload where
  conciliumId : Nat := 0
  ins : List Input := []
  outs : List DraftOutput := []

/-- A private key as its bytes. -/
abbrev PrivateKey := Bytes

/-- An encrypted key with the parameters of its encryption. -/
abbrev Keystore := Bytes

/-- The part of `crypto/crypto.js` that wallets use. -/
structure Crypto where
  /-- `createHash` of an encoded payload. -/
  payloadHash : DraftPayload → Hash
  /-- `sign`. -/
  sign : Hash → PrivateKey → Signature
  /-- `getAddress(recoverPubKey(hash, signature))`. -/
  recoverAddress : Hash → Signature → Address
  /-- `keyPairFromPrivate(key).address`. -/
  address : PrivateKey → Address
  /-- `decrypt`: it throws on a malformed keystore and returns nothing where the
  cipher fails. -/
  decrypt : String → Keystore → Except String (Option PrivateKey)

/-- A signature recovers to the address of the key that made it. -/
def Crypto.Recovers (C : Crypto) : Prop :=
  ∀ hash pk, C.recoverAddress hash (C.sign hash pk) = C.address pk

/-- A transaction under construction. A claim that was not made leaves a hole. -/
structure TxDraft where
  payload : DraftPayload := {}
  claimProofs : List (Option Signature) := []
  txSignature : Option Signature := none

namespace TxDraft

/-- `get inputs`. -/
def inputs (tx : TxDraft) : List Input := tx.payload.ins

/-- `get outputs`. -/
def outputs (tx : TxDraft) : List DraftOutput := tx.payload.outs

/-- `getHash`. -/
def getHash (C : Crypto) (tx : TxDraft) : Hash := C.payloadHash tx.payload

/-- `_checkDone`. -/
def checkDone (tx : TxDraft) : Except String Unit :=
  if tx.txSignature.isSome || !tx.claimProofs.isEmpty then
    .error "Tx is already signed, you can't modify it"
  else .ok ()

/-- `addInput`. -/
def addInput (strHash : Hash) (index : Nat) (tx : TxDraft) : Except String TxDraft := do
  tx.checkDone
  .ok { tx with payload := { tx.payload with ins := tx.payload.ins ++ [⟨strHash, index⟩] } }

/-- `addReceiver`. -/
def addReceiver (amount : Amount) (addr : Address) (tx : TxDraft) : Except String TxDraft := do
  tx.checkDone
  .ok { tx with payload := { tx.payload with
    outs := tx.payload.outs ++ [{ amount, receiverAddr := addr }] } }

/-- Assignment to an element of an array, which grows to hold it. -/
def assign {α : Type} (xs : List (Option α)) (idx : Nat) (x : α) : List (Option α) :=
  (xs ++ List.replicate (idx + 1 - xs.length) none).set idx (some x)

/-- `claim`. -/
def claim (C : Crypto) (idx : Nat) (key : PrivateKey) (tx : TxDraft) : Except String TxDraft :=
  if idx > tx.inputs.length then .error "Bad index: greater than inputs length"
  else .ok { tx with claimProofs := assign tx.claimProofs idx (C.sign (tx.getHash C) key) }

/-- `signForContract`. -/
def signForContract (C : Crypto) (key : PrivateKey) (tx : TxDraft) : TxDraft :=
  { tx with txSignature := some (C.sign (tx.getHash C) key) }

/-- `invokeContract`. -/
def invokeContract (strContractAddr : Address) (contractCode : String) (amount : Amount)
    (addrChangeReceiver : Option Address) : TxDraft where
  payload := { outs := [{ amount, receiverAddr := strContractAddr, contractCode,
                          addrChangeReceiver }] }

/-- Nothing of the transaction is signed. -/
def Open (tx : TxDraft) : Prop := tx.txSignature = none ∧ tx.claimProofs = []

variable {tx : TxDraft}

theorem Open.checkDone (h : tx.Open) : tx.checkDone = .ok () := by
  simp [TxDraft.checkDone, h.1, h.2]

/-- The transaction with more inputs. -/
def withInputs (ins : List Input) (tx : TxDraft) : TxDraft :=
  { tx with payload := { tx.payload with ins := tx.payload.ins ++ ins } }

@[simp] theorem inputs_withInputs (ins : List Input) (tx : TxDraft) :
    (tx.withInputs ins).inputs = tx.inputs ++ ins := rfl

@[simp] theorem outputs_withInputs (ins : List Input) (tx : TxDraft) :
    (tx.withInputs ins).outputs = tx.outputs := rfl

@[simp] theorem withInputs_nil (tx : TxDraft) : tx.withInputs [] = tx := by
  simp [withInputs]

@[simp] theorem withInputs_withInputs (ins ins' : List Input) (tx : TxDraft) :
    (tx.withInputs ins).withInputs ins' = tx.withInputs (ins ++ ins') := by
  simp [withInputs]

theorem Open.withInputs (h : tx.Open) (ins : List Input) : (tx.withInputs ins).Open := h

theorem Open.addInput (h : tx.Open) (strHash : Hash) (index : Nat) :
    tx.addInput strHash index = .ok (tx.withInputs [⟨strHash, index⟩]) := by
  simp only [TxDraft.addInput, h.checkDone]
  rfl

/-- The transaction with more outputs. -/
def withOutputs (outs : List DraftOutput) (tx : TxDraft) : TxDraft :=
  { tx with payload := { tx.payload with outs := tx.payload.outs ++ outs } }

@[simp] theorem inputs_withOutputs (outs : List DraftOutput) (tx : TxDraft) :
    (tx.withOutputs outs).inputs = tx.inputs := rfl

@[simp] theorem outputs_withOutputs (outs : List DraftOutput) (tx : TxDraft) :
    (tx.withOutputs outs).outputs = tx.outputs ++ outs := rfl

@[simp] theorem withOutputs_nil (tx : TxDraft) : tx.withOutputs [] = tx := by
  simp [withOutputs]

theorem Open.withOutputs (h : tx.Open) (outs : List DraftOutput) : (tx.withOutputs outs).Open := h

theorem Open.addReceiver (h : tx.Open) (amount : Amount) (addr : Address) :
    tx.addReceiver amount addr =
      .ok (tx.withOutputs [{ amount, receiverAddr := addr }]) := by
  simp only [TxDraft.addReceiver, h.checkDone]
  rfl

/-- The transaction with more claims. -/
def withClaims (claims : List (Option Signature)) (tx : TxDraft) : TxDraft :=
  { tx with claimProofs := tx.claimProofs ++ claims }

@[simp] theorem inputs_withClaims (claims : List (Option Signature)) (tx : TxDraft) :
    (tx.withClaims claims).inputs = tx.inputs := rfl

@[simp] theorem claimProofs_withClaims (claims : List (Option Signature)) (tx : TxDraft) :
    (tx.withClaims claims).claimProofs = tx.claimProofs ++ claims := rfl

@[simp] theorem getHash_withClaims (C : Crypto) (claims : List (Option Signature))
    (tx : TxDraft) : (tx.withClaims claims).getHash C = tx.getHash C := rfl

@[simp] theorem withClaims_nil (tx : TxDraft) : tx.withClaims [] = tx := by
  simp [withClaims]

@[simp] theorem withClaims_withClaims (claims claims' : List (Option Signature)) (tx : TxDraft) :
    (tx.withClaims claims).withClaims claims' = tx.withClaims (claims ++ claims') := by
  simp [withClaims]

@[simp] theorem assign_length {α : Type} (xs : List (Option α)) (x : α) :
    assign xs xs.length x = xs ++ [some x] := by
  simp [assign]

/-- The next claim. -/
theorem claim_length {C : Crypto} (hle : tx.claimProofs.length ≤ tx.inputs.length)
    (key : PrivateKey) :
    tx.claim C tx.claimProofs.length key =
      .ok (tx.withClaims [some (C.sign (tx.getHash C) key)]) := by
  rw [claim, if_neg (not_lt.mpr hle), assign_length]
  rfl

end TxDraft

/-- Primitives to evaluate the model with. A key is its address, a signature is
the hash with the key appended, and a keystore is the key it holds. -/
def Crypto.sample : Crypto where
  payloadHash p := Factory.code (p.conciliumId :: p.ins.flatMap fun i => [i.txHash, i.nTxOutput])
  sign hash pk := 1000 * hash + pk.headD 0
  recoverAddress _ sig := sig % 1000
  address pk := pk.headD 0 % 1000
  decrypt _ keystore := if keystore = [] then .error "Bad keystore" else .ok (some keystore)

theorem Crypto.recovers_sample : Crypto.sample.Recovers := by
  intro hash pk
  change ((1000 * hash + pk.headD 0 : Nat)) % 1000 = pk.headD 0 % 1000
  omega

end CilCore
