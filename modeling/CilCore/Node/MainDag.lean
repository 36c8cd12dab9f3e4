import CilCore.Lib.FinMap
import CilCore.Structures.Block

/-!
# Known blocks

`structures/blockInfo.js` and `node/mainDag.js`: the headers of all blocks that the
node knows of, each flagged with how far the block has come.
-/

namespace CilCore

/-- The flags of a block. -/
inductive BlockFlag where
  /-- The block awaits its parents to be executed. -/
  | IN_FLIGHT_BLOCK
  /-- The block was executed. -/
  | EXECUTED_BLOCK
  /-- The block was processed and its UTXOs are stored. -/
  | FINAL_BLOCK
  /-- The block cannot be executed. -/
  | BAD_BLOCK
deriving DecidableEq, Repr

/-- `BlockInfo`. -/
structure BlockInfo where
  header : BlockHeader
  flags : BlockFlag := .EXECUTED_BLOCK
deriving DecidableEq

namespace BlockInfo

/-- `getHash`. -/
def getHash (F : Factory) (blockInfo : BlockInfo) : Hash := F.headerHash blockInfo.header

/-- `isBad`. -/
def isBad (blockInfo : BlockInfo) : Bool := blockInfo.flags = .BAD_BLOCK

/-- `isFinal`. -/
def isFinal (blockInfo : BlockInfo) : Bool := blockInfo.flags = .FINAL_BLOCK

/-- `markAsBad`. -/
def markAsBad (blockInfo : BlockInfo) : BlockInfo := { blockInfo with flags := .BAD_BLOCK }

/-- `markAsFinal`. -/
def markAsFinal (blockInfo : BlockInfo) : BlockInfo := { blockInfo with flags := .FINAL_BLOCK }

/-- `markAsInFlight`. -/
def markAsInFlight (blockInfo : BlockInfo) : BlockInfo :=
  { blockInfo with flags := .IN_FLIGHT_BLOCK }

end BlockInfo

/-- `new BlockInfo(block.header)`. -/
def Block.info (F : Factory) (block : Block) : BlockInfo := { header := block.hashedHeader F }

@[simp] theorem Block.getHash_info (F : Factory) (block : Block) :
    (block.info F).getHash F = block.hash F := rfl

/-- `MainDag`: the infos by hash, and edges from blocks to their parents, whether these
are known or not. -/
structure MainDag where
  infos : FinMap Hash BlockInfo
  edges : List (Hash × Hash)

namespace MainDag

/-- The constructor. -/
def empty : MainDag := ⟨∅, []⟩

/-- `getBlockInfo`. -/
def getBlockInfo (mainDag : MainDag) (strHash : Hash) : Option BlockInfo :=
  mainDag.infos.lookup strHash

/-- `setBlockInfo`. -/
def setBlockInfo (F : Factory) (blockInfo : BlockInfo) (mainDag : MainDag) : MainDag :=
  { mainDag with infos := mainDag.infos.insert (blockInfo.getHash F) blockInfo }

/-- `addBlock`. -/
def addBlock (F : Factory) (blockInfo : BlockInfo) (mainDag : MainDag) : MainDag where
  infos := mainDag.infos.insert (blockInfo.getHash F) blockInfo
  edges :=
    if blockInfo.getHash F = F.constants.GENESIS_BLOCK then mainDag.edges
    else blockInfo.header.parentHashes.map (blockInfo.getHash F, ·) ++ mainDag.edges

/-- `getChildren`. -/
def getChildren (mainDag : MainDag) (strHash : Hash) : List Hash :=
  (mainDag.edges.filter fun edge => edge.2 = strHash).map (·.1)

/-- `removeBlock`. -/
def removeBlock (strHash : Hash) (mainDag : MainDag) : MainDag where
  infos := mainDag.infos.erase strHash
  edges := mainDag.edges.filter fun edge => edge.1 ≠ strHash ∧ edge.2 ≠ strHash

theorem getBlockInfo_addBlock (F : Factory) (blockInfo : BlockInfo) (mainDag : MainDag)
    (strHash : Hash) :
    (mainDag.addBlock F blockInfo).getBlockInfo strHash =
      if strHash = blockInfo.getHash F then some blockInfo else mainDag.getBlockInfo strHash :=
  FinMap.lookup_insert_ite _ _ _ _

theorem getBlockInfo_setBlockInfo (F : Factory) (blockInfo : BlockInfo) (mainDag : MainDag)
    (strHash : Hash) :
    (mainDag.setBlockInfo F blockInfo).getBlockInfo strHash =
      if strHash = blockInfo.getHash F then some blockInfo else mainDag.getBlockInfo strHash :=
  FinMap.lookup_insert_ite _ _ _ _

theorem getBlockInfo_removeBlock (mainDag : MainDag) (removed strHash : Hash) :
    (mainDag.removeBlock removed).getBlockInfo strHash =
      if strHash = removed then none else mainDag.getBlockInfo strHash :=
  FinMap.lookup_erase_ite _ _ _

end MainDag

end CilCore
