import Mathlib

/-!
# Decoded messages

The records of `proto/structures.proto` as the classes of `structures/` hold
them after decoding. Hashes, addresses and signatures are opaque values that are
only compared; amounts on the wire are `fixed64`, amounts computed from them are
exact rationals, since contract code may ask for any number of coins.
-/

namespace CilCore

/-- A 256-bit hash. -/
abbrev Hash := Nat

/-- A 20-byte address. -/
abbrev Address := Nat

/-- A 65-byte recoverable signature. -/
abbrev Signature := Nat

/-- A number of coins. -/
abbrev Amount := ℚ

/-- `input`: the output of an earlier transaction that is spent. -/
structure Input where
  txHash : Hash
  nTxOutput : Nat
deriving DecidableEq, Repr

/-- `output`: a payment, or the creation or invocation of a contract. An absent
code is the empty string and an absent change receiver is `none`. -/
structure Output where
  amount : Nat
  receiverAddr : Address
  contractCode : String := ""
  addrChangeReceiver : Option Address := none
deriving DecidableEq, Repr

/-- `TransactionPayload`: the hashed part of a transaction. -/
structure TransactionPayload where
  version : Nat := 1
  conciliumId : Nat
  ins : List Input
  outs : List Output
deriving DecidableEq, Repr

/-- `Transaction`: the payload with the fields that its hash does not cover. -/
structure Transaction where
  payload : TransactionPayload
  claimProofs : List Signature := []
  txSignature : Option Signature := none
deriving DecidableEq, Repr

/-- `BlockHeader`. -/
structure BlockHeader where
  parentHashes : List Hash
  merkleRoot : Hash
  conciliumId : Nat
  timestamp : Nat
  version : Nat := 1
  height : Nat
deriving DecidableEq, Repr

/-- `Block`. A block without transactions has no hash (`_buildTxTree` throws), so
it reaches none of the code modelled here. -/
structure Block where
  header : BlockHeader
  txns : List Transaction
  signatures : List Signature := []
  txns_ne : txns ≠ [] := by simp
deriving DecidableEq

/-- `Coins`: an amount that belongs to an address. -/
structure Coins where
  amount : Amount
  receiverAddr : Address
deriving DecidableEq, Repr

end CilCore
