import CilCore.Lib.Runs
import CilCore.Structures.Block
import Mathlib.Logic.Encodable.Basic
import Mathlib.Logic.Equiv.List

/-!
# Blocks from the wire

`structures/block.js` takes the hash of a block when it is asked for it, and writes the
Merkle root of the block's transactions into the header before. So the root that was
received is still there for `verify` only if nobody has asked for the hash.
-/

namespace CilCore

/-- A block as it is received. -/
structure WireBlock where
  header : BlockHeader
  txns : List Transaction
  signatures : List Signature := []

/-- A decoded `Block`, with the hash that it remembers. -/
structure DecodedBlock extends WireBlock where
  hashCache : Option Hash := none

/-- What the code relies on of its hash function: different headers have different hashes. -/
def Factory.DistinguishesHeaders (F : Factory) : Prop := Function.Injective F.headerHash

/-- A factory whose header hashes are codes of the whole header. -/
def Factory.withHeaderCodes (F : Factory) : Factory :=
  { F with
    headerHash := fun header => Encodable.encode (header.parentHashes, header.merkleRoot,
      header.conciliumId, header.timestamp, header.version, header.height) }

theorem Factory.distinguishesHeaders_withHeaderCodes (F : Factory) :
    F.withHeaderCodes.DistinguishesHeaders := by
  intro header header' h
  have htuple := Encodable.encode_injective h
  simp only [Prod.mk.injEq] at htuple
  obtain ⟨hparents, hroot, hconcilium, htimestamp, hversion, hheight⟩ := htuple
  cases header
  cases header'
  simp_all

namespace WireBlock

variable (F : Factory)

/-- `_buildTxTree`. -/
def buildTxTree (block : WireBlock) : Except String Hash :=
  match Merkle.root F.nodeHash (block.txns.map (·.hash F)) with
  | none => .error "Empty block! Should be at least a coinbase TX!"
  | some root => .ok root

/-- `verify`. -/
def verify (block : WireBlock) (checkSignatures : Bool) : Except String Unit :=
  if block.header.parentHashes = [] then .error "Bad block parents"
  else if checkSignatures ∧ block.signatures = [] then .error "Bad block signatures"
  else
    match block.buildTxTree F with
    | .error error => .error error
    | .ok root =>
        if block.header.merkleRoot ≠ root then .error "Bad merkle root"
        else if block.header.height = 0 then .error "Bad height"
        else .ok ()

/-- The constructor, given a buffer. A header without a version gets the first one, since
`Constants.BLOCK_VERSION` is not set. -/
def decode (received : WireBlock) : DecodedBlock :=
  { received with
    header := { received.header with
      version := if received.header.version = 0 then 1 else received.header.version } }

end WireBlock

namespace DecodedBlock

/-- Calls that read a block. -/
inductive ReaderCall where
  | hash
  | getHash
  | isEmpty
  | getTxHashes
  | encode
deriving DecidableEq

/-- The call takes the hash. -/
def ReaderCall.takesHash : ReaderCall → Bool
  | .hash | .getHash => true
  | .isEmpty | .getTxHashes | .encode => false

variable (F : Factory)

/-- `hash`: the block afterwards, and its hash. -/
def hash (block : DecodedBlock) : Except String (DecodedBlock × Hash) :=
  match block.hashCache with
  | some hash => .ok (block, hash)
  | none =>
      match block.buildTxTree F with
      | .error error => .error error
      | .ok root =>
          let header := { block.header with merkleRoot := root }
          .ok ({ block with header, hashCache := some (F.headerHash header) }, F.headerHash header)

/-- The block after a call. Those that do not take the hash leave it as it is, and so does
one that throws. -/
def read (block : DecodedBlock) (call : ReaderCall) : DecodedBlock :=
  if call.takesHash then
    match block.hash F with
    | .error _ => block
    | .ok (block, _) => block
  else block

/-- A decoded block after some calls. -/
def afterCalls (received : WireBlock) (calls : List ReaderCall) : DecodedBlock :=
  Runs.after (read F) received.decode calls

/-- If the block passes `verify`, then the root that was received is that of the
transactions, and the block is stored under the hash of the header that was received. -/
def ChecksRoot (received : WireBlock) (calls : List ReaderCall) (checkSignatures : Bool) :
    Prop :=
  (afterCalls F received calls).verify F checkSignatures = .ok () →
    received.buildTxTree F = .ok received.header.merkleRoot ∧
      ∃ block, (afterCalls F received calls).hash F = .ok (block, F.headerHash received.header)

/-- `verify` finds another flaw than a wrong root. -/
def OtherFlaw (received : WireBlock) (checkSignatures : Bool) : Prop :=
  received.header.parentHashes = [] ∨ (checkSignatures ∧ received.signatures = []) ∨
    received.txns = [] ∨ received.header.height = 0

/-- The header that was received has the right root and a version, or it has a wrong root and
nobody has asked for the hash, or the block has another flaw. -/
def HeaderSurvives (received : WireBlock) (calls : List ReaderCall) (checkSignatures : Bool) :
    Prop :=
  OtherFlaw received checkSignatures ∨
    (received.buildTxTree F = .ok received.header.merkleRoot ∧ received.header.version ≠ 0) ∨
    (received.buildTxTree F ≠ .ok received.header.merkleRoot ∧
      ∀ call ∈ calls, call.takesHash = false)

variable {F} {received : WireBlock} {calls : List ReaderCall} {checkSignatures : Bool}

/-! ### What calls leave -/

theorem exists_root (h : received.txns ≠ []) : ∃ root, received.buildTxTree F = .ok root := by
  have hne : received.txns.map (·.hash F) ≠ [] := by simpa using h
  obtain ⟨root, hroot⟩ := Option.isSome_iff_exists.mp (Merkle.root_isSome F.nodeHash hne)
  exact ⟨root, by rw [WireBlock.buildTxTree, hroot]⟩

/-- The decoded block after its hash was taken. -/
def hashed (F : Factory) (received : WireBlock) (root : Hash) : DecodedBlock :=
  { received.decode with
    header := { received.decode.header with merkleRoot := root }
    hashCache := some (F.headerHash { received.decode.header with merkleRoot := root }) }

theorem hash_decode {root : Hash} (hroot : received.buildTxTree F = .ok root) :
    received.decode.hash F = .ok (hashed F received root,
      F.headerHash { received.decode.header with merkleRoot := root }) := by
  have hdecoded : received.decode.buildTxTree F = .ok root := hroot
  unfold hash
  rw [hdecoded]
  rfl

theorem hash_hashed {root : Hash} : (hashed F received root).hash F = .ok (hashed F received root,
    F.headerHash { received.decode.header with merkleRoot := root }) := rfl

theorem after_hashed {root : Hash} :
    Runs.after (read F) (hashed F received root) calls = hashed F received root := by
  induction calls with
  | nil => rfl
  | cons call rest ih =>
      have hread : (hashed F received root).read F call = hashed F received root := by
        unfold read
        rw [hash_hashed]
        split <;> rfl
      rw [Runs.after, List.foldl_cons, hread]
      exact ih

/-- The calls leave the block as it was decoded, or take its hash once. -/
theorem afterCalls_eq {root : Hash} (hroot : received.buildTxTree F = .ok root) :
    afterCalls F received calls =
      if ∀ call ∈ calls, call.takesHash = false then received.decode
      else hashed F received root := by
  induction calls with
  | nil => simp [afterCalls, Runs.after]
  | cons call rest ih =>
      rw [afterCalls, Runs.after, List.foldl_cons]
      cases hcall : call.takesHash with
      | true =>
          have hread : received.decode.read F call = hashed F received root := by
            rw [read, if_pos hcall, hash_decode hroot]
          rw [hread, if_neg]
          · exact after_hashed
          · intro hnone
            rw [hnone call List.mem_cons_self] at hcall
            cases hcall
      | false =>
          have hread : received.decode.read F call = received.decode := by
            rw [read, hcall, if_neg Bool.false_ne_true]
          rw [hread]
          simp only [List.forall_mem_cons, hcall, true_and]
          exact ih

/-- The hash of a block whose calls leave it as it was is taken when it is stored. -/
theorem hash_afterCalls {root : Hash} (hroot : received.buildTxTree F = .ok root) :
    (afterCalls F received calls).hash F = .ok (hashed F received root,
      F.headerHash { received.decode.header with merkleRoot := root }) := by
  rw [afterCalls_eq hroot]
  split
  next => exact hash_decode hroot
  next => exact hash_hashed

theorem txns_hash {block after : DecodedBlock} {hash : Hash}
    (h : block.hash F = .ok (after, hash)) : after.txns = block.txns := by
  unfold DecodedBlock.hash at h
  split at h
  next => cases h; rfl
  next =>
    split at h
    next => cases h
    next => cases h; rfl

theorem txns_read (block : DecodedBlock) (call : ReaderCall) :
    (block.read F call).txns = block.txns := by
  unfold read
  split
  next =>
    split
    next => rfl
    next after hash hok => exact txns_hash hok
  next => rfl

theorem txns_afterCalls : (afterCalls F received calls).txns = received.txns := by
  suffices h : ∀ block : DecodedBlock, (Runs.after (read F) block calls).txns = block.txns from
    h received.decode
  induction calls with
  | nil => exact fun _ => rfl
  | cons call rest ih => exact fun block => (ih (block.read F call)).trans (txns_read block call)

/-- After its hash was taken a block is verified, and stored, as `Block` says. -/
theorem hashed_of_block (block : Block) (hversion : block.header.version ≠ 0)
    (htakes : ∃ call ∈ calls, call.takesHash = true) :
    (afterCalls F ⟨block.header, block.txns, block.signatures⟩ calls).verify F checkSignatures =
        block.verify F checkSignatures ∧
      ∃ after, (afterCalls F ⟨block.header, block.txns, block.signatures⟩ calls).hash F =
        .ok (after, block.hash F) := by
  let received : WireBlock := ⟨block.header, block.txns, block.signatures⟩
  have htree : received.buildTxTree F = .ok (block.buildTxTree F) := by
    have htxns : received.txns ≠ [] := block.txns_ne
    obtain ⟨root, hroot⟩ := exists_root (F := F) htxns
    have hsome : Merkle.root F.nodeHash (block.txns.map (·.hash F)) = some root := by
      unfold WireBlock.buildTxTree at hroot
      split at hroot
      next => cases hroot
      next hsome =>
        cases hroot
        exact hsome
    rw [hroot, Block.buildTxTree, Block.getTxHashes, hsome]
    rfl
  have hheader : received.decode.header = block.header := by
    rw [WireBlock.decode, if_neg hversion]
  have hsome : ¬ ∀ call ∈ calls, call.takesHash = false := by simpa using htakes
  constructor
  · rw [afterCalls_eq htree, if_neg hsome, WireBlock.verify, Block.verify]
    have htree' : (hashed F received (block.buildTxTree F)).buildTxTree F =
        .ok (block.buildTxTree F) := htree
    rw [htree']
    simp only [hashed, WireBlock.decode, received, Block.parentHashes, Block.hashedHeader,
      Block.getHeight, List.isEmpty_iff, Bool.and_eq_true, ne_eq, not_true_eq_false, if_false]
    split_ifs <;> simp [*]
  · refine ⟨hashed F received (block.buildTxTree F), (hash_afterCalls htree).trans ?_⟩
    rw [hheader]
    rfl

/-- What `verify` accepts. -/
theorem verify_ok_iff {block : WireBlock} :
    block.verify F checkSignatures = .ok () ↔
      ¬ OtherFlaw block checkSignatures ∧ block.buildTxTree F = .ok block.header.merkleRoot := by
  unfold WireBlock.verify OtherFlaw
  rw [check_eq_ok, check_eq_ok]
  cases hroot : block.buildTxTree F with
  | error error => simp
  | ok root =>
      have htxns : block.txns ≠ [] := by
        intro hnil
        rw [WireBlock.buildTxTree, hnil] at hroot
        cases hroot
      simp only [check_eq_ok, Except.ok.injEq, not_or, ne_eq, not_not, and_true, htxns,
        not_false_eq_true, true_and]
      constructor
      · rintro ⟨hparents, hsignatures, heq, hheight⟩
        exact ⟨⟨hparents, hsignatures, hheight⟩, heq.symm⟩
      · rintro ⟨⟨hparents, hsignatures, hheight⟩, heq⟩
        exact ⟨hparents, hsignatures, heq.symm, hheight⟩

/-- `verify` accepts a block with a wrong root exactly if its hash was taken before. -/
theorem verify_afterCalls {root : Hash} (hroot : received.buildTxTree F = .ok root) :
    (afterCalls F received calls).verify F checkSignatures = .ok () ↔
      ¬ OtherFlaw received checkSignatures ∧
        (root = received.header.merkleRoot ∨ ∃ call ∈ calls, call.takesHash = true) := by
  rw [afterCalls_eq hroot]
  split
  next hnone =>
    have hno : ¬ ∃ call ∈ calls, call.takesHash = true := by
      rintro ⟨call, hmem, htakes⟩
      rw [hnone call hmem] at htakes
      cases htakes
    rw [verify_ok_iff, or_iff_left hno]
    refine and_congr Iff.rfl ?_
    change received.buildTxTree F = .ok received.header.merkleRoot ↔ _
    rw [hroot, Except.ok.injEq]
  next hsome =>
    have hyes : ∃ call ∈ calls, call.takesHash = true := by simpa using hsome
    rw [verify_ok_iff, and_iff_left (Or.inr hyes)]
    refine and_iff_left_of_imp fun _ => ?_
    exact hroot

/-- The root is checked exactly if the header that was received survives. -/
theorem checksRoot_iff (F : Factory) (hF : F.DistinguishesHeaders) (received : WireBlock)
    (calls : List ReaderCall) (checkSignatures : Bool) :
    ChecksRoot F received calls checkSignatures ↔
      HeaderSurvives F received calls checkSignatures := by
  by_cases hflaw : OtherFlaw received checkSignatures
  · refine iff_of_true (fun hverify => ?_) (.inl hflaw)
    by_cases htxns : received.txns = []
    · rw [verify_ok_iff] at hverify
      have hempty : (afterCalls F received calls).buildTxTree F = received.buildTxTree F := by
        rw [WireBlock.buildTxTree, WireBlock.buildTxTree, txns_afterCalls]
      rw [hempty, WireBlock.buildTxTree, htxns] at hverify
      cases hverify.2
    · obtain ⟨root, hroot⟩ := exists_root (F := F) htxns
      exact absurd hflaw ((verify_afterCalls hroot).mp hverify).1
  · have htxns : received.txns ≠ [] := fun hnil => hflaw (.inr (.inr (.inl hnil)))
    obtain ⟨root, hroot⟩ := exists_root (F := F) htxns
    rw [HeaderSurvives, or_iff_right hflaw, ChecksRoot, verify_afterCalls hroot,
      and_iff_right hflaw, hroot, Except.ok.injEq]
    constructor
    · intro hchecks
      by_cases haccepts : root = received.header.merkleRoot ∨ ∃ call ∈ calls, call.takesHash = true
      · obtain ⟨heq, block, hhash⟩ := hchecks haccepts
        rw [hash_afterCalls hroot] at hhash
        have hheader : ({ received.decode.header with merkleRoot := root } : BlockHeader) =
            received.header := hF (congrArg (·.2) (Except.ok.inj hhash))
        have hversion : (if received.header.version = 0 then 1 else received.header.version) =
            received.header.version := congrArg (·.version) hheader
        refine .inl ⟨heq, fun hzero => ?_⟩
        rw [if_pos hzero, hzero] at hversion
        cases hversion
      · rw [not_or] at haccepts
        exact .inr ⟨fun heq => haccepts.1 (Except.ok.inj heq), by simpa using haccepts.2⟩
    · rintro (⟨heq, hversion⟩ | ⟨hne, hnone⟩) haccepts
      · refine ⟨heq, hashed F received root, ?_⟩
        rw [hash_afterCalls hroot]
        have hheader : ({ received.decode.header with merkleRoot := root } : BlockHeader) =
            received.header := by
          rw [heq, WireBlock.decode, if_neg hversion]
        rw [hheader]
      · rcases haccepts with heq | ⟨call, hmem, htakes⟩
        · exact absurd (congrArg Except.ok heq) hne
        · rw [hnone call hmem] at htakes
          cases htakes

/-- A block with one transaction and a root that is not the transaction's. -/
def wrongRoot : WireBlock where
  header := { parentHashes := [1], merkleRoot := 0, conciliumId := 0, timestamp := 0, height := 1 }
  txns := [{ payload := { conciliumId := 0, ins := [⟨zeroHash, 0⟩], outs := [] } }]

/-- The wrong root is accepted by `verify` after the hash was taken. -/
theorem not_checksRoot_wrongRoot :
    ¬ ∀ (F : Factory), F.DistinguishesHeaders → ∀ received calls checkSignatures,
      ChecksRoot F received calls checkSignatures := by
  intro hclaim
  have hroot := (hclaim Factory.sample.withHeaderCodes
    (Factory.distinguishesHeaders_withHeaderCodes _) wrongRoot [.getHash] false
    (by decide +kernel)).1
  revert hroot
  decide +kernel

theorem checksRoot_iff_wrongRoot :
    ChecksRoot Factory.sample.withHeaderCodes wrongRoot [.isEmpty, .encode] false ↔
      HeaderSurvives Factory.sample.withHeaderCodes wrongRoot [.isEmpty, .encode] false :=
  checksRoot_iff Factory.sample.withHeaderCodes (Factory.distinguishesHeaders_withHeaderCodes _)
    wrongRoot _ false

end DecodedBlock

end CilCore
