import CilCore.Node.BlockAgreement
import CilCore.Node.BlockProcessor
import CilCore.Structures.WireBlock

/-!
# What the hash of a block decides

A received block is judged by `_verifyBlock` and `_execBlock` of `node/node.js`, and if it
fails, its hash is banned. The hash covers the header and, through the Merkle tree, the
payloads of the transactions. It leaves out the proofs of the transactions, and how often
the last transactions are repeated where the tree pads them with themselves.
-/

namespace CilCore

/-- What is assumed of the hash function: different values have different hashes. -/
structure Factory.HashesInjectively (F : Factory) : Prop where
  headerHash : Function.Injective F.headerHash
  payloadHash : Function.Injective F.payloadHash
  nodeHash : Function.Injective2 F.nodeHash

/-- What the hash of a transaction leaves out. -/
def Transaction.proofs (tx : Transaction) : List Signature × Option Signature :=
  (tx.claimProofs, tx.txSignature)

/-- A transaction is its payload, which the hash covers, and its proofs. -/
theorem Transaction.hash_proofs_injective {F : Factory} (hF : F.HashesInjectively) :
    Function.Injective fun tx : Transaction => (tx.hash F, tx.proofs) := by
  intro tx tx' h
  obtain ⟨hhash, hproofs⟩ := Prod.mk.inj h
  obtain ⟨hclaim, hsignature⟩ := Prod.mk.inj hproofs
  have hpayload := hF.payloadHash hhash
  cases tx
  cases tx'
  simp_all

namespace Block

/-- A copy of a block with another received root and other signatures. -/
def copy (block : Block) (merkleRoot : Hash) (signatures : List Signature) : Block :=
  { block with header := { block.header with merkleRoot }, signatures }

variable {F : Factory} {block block' : Block}

theorem hashedHeader_eq (hF : F.HashesInjectively) (h : block.hash F = block'.hash F) :
    block.hashedHeader F = block'.hashedHeader F := hF.headerHash h

/-- Among as many transactions the hash decides their hashes. -/
theorem getTxHashes_eq (hF : F.HashesInjectively) (h : block.hash F = block'.hash F)
    (hlength : block.txns.length = block'.txns.length) :
    block.getTxHashes F = block'.getTxHashes F := by
  have htree : block.buildTxTree F = block'.buildTxTree F :=
    congrArg BlockHeader.merkleRoot (hashedHeader_eq hF h)
  have hroot : ∀ b : Block, ∃ root, Merkle.root F.nodeHash (b.getTxHashes F) = some root :=
    fun b => Option.isSome_iff_exists.mp
      (Merkle.root_isSome F.nodeHash (by simpa [getTxHashes] using b.txns_ne))
  obtain ⟨root, hblock⟩ := hroot block
  obtain ⟨root', hblock'⟩ := hroot block'
  rw [buildTxTree, buildTxTree, hblock, hblock', Option.getD_some, Option.getD_some] at htree
  apply Merkle.root_injective hF.nodeHash
  · simpa [getTxHashes] using hlength
  · rw [hblock, hblock', htree]

/-- Blocks with one hash and the same proofs are copies of each other. -/
theorem exists_copy (hF : F.HashesInjectively) (h : block.hash F = block'.hash F)
    (hproofs : block.txns.map (·.proofs) = block'.txns.map (·.proofs)) :
    ∃ merkleRoot signatures, block' = block.copy merkleRoot signatures := by
  have hlength : block.txns.length = block'.txns.length := by
    simpa using congrArg List.length hproofs
  have hhashes : block.txns.map (·.hash F) = block'.txns.map (·.hash F) :=
    getTxHashes_eq hF h hlength
  have htxns : block.txns = block'.txns := by
    have hzip : ∀ b : Block, b.txns.map (fun tx => (tx.hash F, tx.proofs)) =
        (b.txns.map (·.hash F)).zip (b.txns.map (·.proofs)) :=
      fun _ => List.zip_map'.symm
    apply (Transaction.hash_proofs_injective hF).list_map
    rw [hzip, hzip, hhashes, hproofs]
  have hheader := hashedHeader_eq hF h
  refine ⟨block'.header.merkleRoot, block'.signatures, ?_⟩
  obtain ⟨⟨parentHashes, root, conciliumId, timestamp, version, height⟩, txns, signatures, hne⟩ := block
  obtain ⟨⟨parentHashes', root', conciliumId', timestamp', version', height'⟩, txns', signatures',
    hne'⟩ := block'
  simp only [hashedHeader, BlockHeader.mk.injEq] at hheader
  obtain ⟨rfl, -, rfl, rfl, rfl, rfl⟩ := hheader
  obtain rfl : txns = txns' := htxns
  rfl

end Block

namespace BlockNode

/-- `_verifyBlock` without signatures, followed by `_execBlock`. Contracts are shown the
header of the block and the transaction that calls them. -/
def verifyAndExec (F : Factory) (s : BlockNode) (vm : BlockHeader → Transaction → Behaviour)
    (block : Block) : Except String (Option PatchDB) :=
  match s.verifyBlock F block false with
  | .error error => .error error
  | .ok () => s.chain.execBlock F (some block.getHeight) (vm (block.hashedHeader F)) block

/-- Neither of them throws. -/
def Accepts (F : Factory) (s : BlockNode) (vm : BlockHeader → Transaction → Behaviour)
    (block : Block) : Prop :=
  ∃ result, s.verifyAndExec F vm block = .ok result

instance (F : Factory) (s : BlockNode) (vm : BlockHeader → Transaction → Behaviour)
    (block : Block) : Decidable (s.Accepts F vm block) :=
  decidable_of_iff ((s.verifyAndExec F vm block).isOk = true) (by
    rw [Accepts]
    cases s.verifyAndExec F vm block <;> simp [Except.isOk, Except.toBool])

/-- Neither of them reads the received root, or the signatures of the block. -/
theorem verifyAndExec_copy (F : Factory) (s : BlockNode)
    (vm : BlockHeader → Transaction → Behaviour) (block : Block) (merkleRoot : Hash)
    (signatures : List Signature) :
    s.verifyAndExec F vm (block.copy merkleRoot signatures) = s.verifyAndExec F vm block := rfl

end BlockNode

/-- Blocks with one hash, and with the same proofs in each of their transactions, are both
accepted or both refused. -/
theorem accepts_iff_of_hash (F : Factory) (hF : F.HashesInjectively) (s : BlockNode)
    (vm : BlockHeader → Transaction → Behaviour) (block block' : Block)
    (hhash : block.hash F = block'.hash F)
    (hproofs : block.txns.map (·.proofs) = block'.txns.map (·.proofs)) :
    s.Accepts F vm block ↔ s.Accepts F vm block' := by
  obtain ⟨merkleRoot, signatures, rfl⟩ := Block.exists_copy hF hhash hproofs
  rw [BlockNode.Accepts, BlockNode.Accepts, BlockNode.verifyAndExec_copy]

/-! ### Copies that are judged differently -/

/-- A factory whose hashes are codes of what is hashed. -/
def Factory.withCodes (F : Factory) : Factory :=
  { F.withHeaderCodes with
    payloadHash := fun payload => Encodable.encode (payload.version, payload.conciliumId,
      payload.ins.map fun input => (input.txHash, input.nTxOutput),
      payload.outs.map fun out => (out.amount, out.receiverAddr,
        out.contractCode.toList.map Char.toNat, out.addrChangeReceiver))
    nodeHash := Nat.pair }

theorem Factory.hashesInjectively_withCodes (F : Factory) : F.withCodes.HashesInjectively where
  headerHash := Factory.distinguishesHeaders_withHeaderCodes F
  payloadHash := by
    intro payload payload' h
    have htuple := Encodable.encode_injective h
    simp only [Prod.mk.injEq] at htuple
    obtain ⟨hversion, hconcilium, hins, houts⟩ := htuple
    have hinput : Function.Injective fun input : Input => (input.txHash, input.nTxOutput) := by
      intro input input' heq
      cases input
      cases input'
      simpa using heq
    have houtput : Function.Injective fun out : Output => (out.amount, out.receiverAddr,
        out.contractCode.toList.map Char.toNat, out.addrChangeReceiver) := by
      intro out out' heq
      simp only [Prod.mk.injEq] at heq
      obtain ⟨hamount, hreceiver, hcode, hchange⟩ := heq
      have hchars : Function.Injective Char.toNat := fun _ _ => Char.toNat_inj.mp
      have hcode' := String.toList_inj.mp (hchars.list_map hcode)
      cases out
      cases out'
      simp_all
    have hins' := hinput.list_map hins
    have houts' := houtput.list_map houts
    cases payload
    cases payload'
    simp_all
  nodeHash := by
    intro a a' b b' h
    exact Nat.pair_eq_pair.mp h

/-- A factory to compare copies with. -/
def codingFactory : Factory := Factory.sample.withCodes

/-- A payment that the owner of an output has signed. -/
def ownersPayment (input : Input) (owner : Address) (amount : Nat) (receiverAddr : Address) :
    Transaction :=
  let payload : TransactionPayload := {
    conciliumId := 0, ins := [input], outs := [{ amount, receiverAddr }] }
  { payload, claimProofs := [codingFactory.payloadHash payload * 1000 + owner] }

/-- A block with two payments. -/
def twoPayments : Block where
  header := { parentHashes := [1], merkleRoot := 0, conciliumId := 0, timestamp := 0, height := 1 }
  txns := [
    { payload := {
        conciliumId := 0
        ins := [⟨zeroHash, 0⟩]
        outs := [{ amount := 50000, receiverAddr := 2 }] } },
    ownersPayment ⟨5, 0⟩ 3 30000 9, ownersPayment ⟨5, 1⟩ 3 20000 8]

/-- The block without the proofs of its transactions. -/
def strippedCopy : Block where
  header := twoPayments.header
  txns := twoPayments.txns.map fun tx => { tx with claimProofs := [] }
  txns_ne := by simp [twoPayments]

/-- The block with its last payment repeated, which the tree does anyway. -/
def paddedCopy : Block where
  header := twoPayments.header
  txns := twoPayments.txns ++ [ownersPayment ⟨5, 1⟩ 3 20000 8]

/-- A node that stores what the payments spend. -/
def nodeOfOwner : BlockNode :=
  { BlockNode.empty with
    disk := { BlockStore.empty with
      storage := { Storage.empty with
        utxos := (∅ : FinMap Hash UTXO).insert 5
          (((∅ : UTXO).insert 0 ⟨60000, 3⟩).insert 1 ⟨40000, 3⟩) } }
    pendingBlocks := ⟨Dag.empty, [1]⟩
    mainDag := {
      infos := (∅ : FinMap Hash BlockInfo).insert 1 ⟨⟨[], 0, 0, 0, 1, 0⟩, .FINAL_BLOCK⟩
      edges := [] } }

theorem accepts_iff_of_hash_copy :
    nodeOfOwner.Accepts codingFactory (fun _ => idle) twoPayments ↔
      nodeOfOwner.Accepts codingFactory (fun _ => idle) (twoPayments.copy 6 [7]) :=
  accepts_iff_of_hash codingFactory (Factory.hashesInjectively_withCodes _) nodeOfOwner
    (fun _ => idle) twoPayments (twoPayments.copy 6 [7]) rfl rfl

/-- The block is accepted. Its copies without proofs and with a repeated payment have the same
hash and are refused, which marks the hash as bad. -/
theorem not_accepts_iff_strippedCopy :
    codingFactory.HashesInjectively ∧
    nodeOfOwner.Accepts codingFactory (fun _ => idle) twoPayments ∧
    (strippedCopy.hash codingFactory = twoPayments.hash codingFactory ∧
      ¬ nodeOfOwner.Accepts codingFactory (fun _ => idle) strippedCopy) ∧
    (paddedCopy.hash codingFactory = twoPayments.hash codingFactory ∧
      ¬ nodeOfOwner.Accepts codingFactory (fun _ => idle) paddedCopy) ∧
    (((nodeOfOwner.blockInFlight codingFactory strippedCopy false).exec codingFactory idle
      strippedCopy).mainDag.getBlockInfo (twoPayments.hash codingFactory)).any (·.isBad) = true :=
  ⟨Factory.hashesInjectively_withCodes _, by decide +kernel⟩

end CilCore
