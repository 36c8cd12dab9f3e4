import CilCore.Lib.Merkle
import CilCore.Structures.Transaction

/-!
# Blocks

`structures/block.js`: the block hash covers the header, whose Merkle root is
recomputed from the transactions whenever the hash is taken.
-/

namespace CilCore.Block

/-- `get parentHashes`. -/
def parentHashes (block : Block) : List Hash := block.header.parentHashes

/-- `get conciliumId`. -/
def conciliumId (block : Block) : Nat := block.header.conciliumId

/-- `getHeight`. -/
def getHeight (block : Block) : Nat := block.header.height

/-- `getTxHashes`. -/
def getTxHashes (F : Factory) (block : Block) : List Hash := block.txns.map (·.hash F)

/-- `_buildTxTree`. -/
def buildTxTree (F : Factory) (block : Block) : Hash :=
  (Merkle.root F.nodeHash (block.getTxHashes F)).getD 0

/-- The header after `hash()` has overwritten its Merkle root with the root of
the block's own transactions. -/
def hashedHeader (F : Factory) (block : Block) : BlockHeader :=
  { block.header with merkleRoot := block.buildTxTree F }

/-- `hash`, `getHash`. -/
def hash (F : Factory) (block : Block) : Hash := F.headerHash (block.hashedHeader F)

/-- `isEmpty`: nothing but a coinbase. -/
def isEmpty (block : Block) : Bool :=
  match block.txns with
  | [tx] => tx.isCoinbase
  | _ => false

/-- The transaction at index 0, which a block always has. -/
def coinbase (block : Block) : Transaction := block.txns.head block.txns_ne

/-- `addWitnessSignatures`. -/
def addWitnessSignatures (block : Block) (arrSignatures : List Signature) : Block :=
  { block with signatures := arrSignatures }

/-- `verify`. It runs after the hash has been taken, so the root it compares is
the one `hash` wrote into the header. -/
def verify (F : Factory) (block : Block) (checkSignatures : Bool := true) :
    Except String Unit :=
  if block.parentHashes.isEmpty then .error "Bad block parents"
  else if checkSignatures && block.signatures.isEmpty then .error "Bad block signatures"
  else if (block.hashedHeader F).merkleRoot ≠ block.buildTxTree F then .error "Bad merkle root"
  else if block.getHeight = 0 then .error "Bad height"
  else .ok ()

@[simp] theorem hash_addWitnessSignatures (F : Factory) (block : Block)
    (arrSignatures : List Signature) :
    (block.addWitnessSignatures arrSignatures).hash F = block.hash F := rfl

end CilCore.Block
