import CilCore.Structures.Block
import CilCore.Conciliums.Definition

/-!
# Block signatures

`_verifyBlockSignatures` of `node/node.js`.
-/

namespace CilCore

/-- The loop over the signatures: the gathered weight, unless a signature is
not a member's. -/
def gatherWeight (F : Factory) (c : ConciliumDefinition) (hash : Hash) :
    List Signature → ℚ → Except String ℚ
  | [], gatheredWeight => .ok gatheredWeight
  | sig :: rest, gatheredWeight =>
      match F.recoverAddress hash sig with
      | .error error => .error error
      | .ok strAddress =>
          if strAddress ∉ c.getAddresses then .error "Bad signature for block!"
          else
            match c.getWitnessWeight strAddress with
            | .error error => .error error
            | .ok weight => gatherWeight F c hash rest (gatheredWeight + weight)

/-- `_verifyBlockSignatures`, given the definition that storage has for the
concilium of the block. -/
def verifyBlockSignatures (F : Factory) (definition : Option ConciliumDefinition)
    (block : Block) : Except String Unit :=
  match definition with
  | none => .error "Unknown conciliumId"
  | some c =>
      match gatherWeight F c (block.hash F) block.signatures 0 with
      | .error error => .error error
      | .ok gatheredWeight =>
          if gatheredWeight < c.getQuorum then .error "Not enough signatures for block!"
          else .ok ()

end CilCore
