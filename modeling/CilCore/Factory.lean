import CilCore.Conciliums.Definition

/-!
# The factory

The classes of the program get their constants and the crypto library from one
factory. The primitives that this development does not open (hashing, signature
recovery, the v8 serializer, the encoded size of a transaction) are its fields.
-/

namespace CilCore

/-- Bytes of an encoded value. -/
abbrev Bytes := List Nat

/-- A contract's data, as the bytes of its JSON text. -/
abbrev Data := List Nat

/-- `Math.round`: halves are rounded up. -/
def mathRound (x : ℚ) : ℤ := ⌊x + 1 / 2⌋

/-- `Constants.fees`. -/
structure Fees where
  TX_FEE : Nat := 4000
  CONTRACT_CREATION_FEE : Nat := 10000
  CONTRACT_INVOCATION_FEE : Nat := 10000
  INTERNAL_TX_FEE : Nat := 300
  STORAGE_PER_BYTE_FEE : Nat := 10

/-- `Constants.forks`. -/
structure Forks where
  HEIGHT_FORK_SERIALIZER : Nat := 3775
  HEIGHT_FORK_SERIALIZER_FIX2 : Nat := 6100
  HEIGHT_FORK_SERIALIZER_FIX3 : Nat := 48000

/-- The part of the configuration that the modelled code reads. -/
structure Constants where
  GENESIS_BLOCK : Hash
  CONCILIUM_DEFINITION_CONTRACT_ADDRESS : Option Address
  fees : Fees := {}
  forks : Forks := {}

/-- Constants and primitives shared by all classes. -/
structure Factory where
  constants : Constants
  /-- `Crypto.createHash` of an encoded transaction payload. -/
  payloadHash : TransactionPayload → Hash
  /-- `Crypto.createHash` of an encoded block header. -/
  headerHash : BlockHeader → Hash
  /-- `Crypto.createHashBuffer` of two joined tree nodes. -/
  nodeHash : Hash → Hash → Hash
  /-- `Crypto.createHash(strHash + nonce)`. -/
  internalHash : Hash → Nat → Hash
  /-- `Crypto.getAddress(txHash)`: the address of a created contract. -/
  contractAddress : Hash → Address
  /-- `Crypto.getAddrContractCreation()`. -/
  addrContractCreation : Address
  /-- `Crypto.getAddress(Crypto.recoverPubKey(hash, signature))`. -/
  recoverAddress : Hash → Signature → Except String Address
  /-- Length of an encoded transaction. -/
  txSize : Transaction → Nat
  /-- `v8.serialize` of contract data. -/
  v8Serialize : Data → Bytes
  /-- `v8.deserialize` of contract data. -/
  v8Deserialize : Bytes → Data
  /-- The message of the exception that `JSON.parse` throws, if it throws. -/
  jsonParseError : String → Option String
  /-- The definitions `_arrConciliums` in the data of the concilium contract. -/
  arrConciliums : Data → List ConciliumDefinition

/-- A code of a list of numbers, as a stand-in for a hash function. -/
def Factory.code (xs : List Nat) : Hash := xs.foldl (fun h x => 31 * h + x + 1) 7

/-- A factory to evaluate the model with. Hashes are codes of the hashed values,
and the signature of an address is the hash with the address appended. -/
def Factory.sample : Factory where
  constants := { GENESIS_BLOCK := 1, CONCILIUM_DEFINITION_CONTRACT_ADDRESS := none }
  payloadHash p := code ([p.version, p.conciliumId] ++
    p.ins.flatMap (fun i => [i.txHash, i.nTxOutput]) ++
    p.outs.flatMap (fun o =>
      [o.amount, o.receiverAddr, o.contractCode.length, (o.addrChangeReceiver.getD 0)]))
  headerHash h := code ([h.merkleRoot, h.conciliumId, h.timestamp, h.version, h.height] ++
    h.parentHashes)
  nodeHash a b := code [a, b]
  internalHash hash nonce := code [hash, nonce, 0, 0]
  contractAddress hash := hash + 1
  addrContractCreation := 0
  recoverAddress hash sig :=
    if sig / 1000 = hash then .ok (sig % 1000) else .error "Bad signature"
  txSize _ := 256
  v8Serialize data := 255 :: data
  v8Deserialize bytes := bytes.tail
  jsonParseError _ := none
  arrConciliums _ := []

theorem Factory.le_code (xs : List Nat) : (7 : Nat) ≤ Factory.code xs := by
  suffices h : ∀ start : Nat, 7 ≤ start → 7 ≤ xs.foldl (fun h x => 31 * h + x + 1) start from
    h 7 le_rfl
  induction xs with
  | nil => exact fun _ h => h
  | cons x xs ih => exact fun start h => ih _ (show 7 ≤ 31 * start + x + 1 by omega)

theorem Factory.internalHash_sample (hash nonce : Nat) :
    (Factory.sample.internalHash hash nonce : Nat) =
      31 * (31 * (31 * (31 * 7 + hash + 1) + nonce + 1) + 0 + 1) + 0 + 1 := rfl

theorem Factory.internalHash_sample_injective (hash : Hash) :
    Function.Injective (Factory.sample.internalHash hash) := by
  intro m n hmn
  rw [internalHash_sample, internalHash_sample] at hmn
  change @Eq Nat _ _ at hmn
  omega

theorem Factory.lt_internalHash_sample (hash nonce : Nat) :
    hash < (Factory.sample.internalHash hash nonce : Nat) ∧
      (7 : Nat) < (Factory.sample.internalHash hash nonce : Nat) := by
  rw [internalHash_sample]
  omega

/-- A header does not contain its own hash, and its hash changes with its timestamp. -/
structure Factory.HashesHeaders (F : Factory) : Prop where
  notMem_parents : ∀ header : BlockHeader, F.headerHash header ∉ header.parentHashes
  timestamp_injective : ∀ header : BlockHeader,
    Function.Injective fun timestamp => F.headerHash { header with timestamp }

/-- A code is greater than the numbers in it. -/
theorem Factory.lt_code {xs : List Nat} {x : Nat} (h : x ∈ xs) : x < (Factory.code xs : Nat) := by
  suffices hfold : ∀ start : Nat,
      start ≤ xs.foldl (fun h x => 31 * h + x + 1) start ∧
        ∀ x ∈ xs, x < xs.foldl (fun h x => 31 * h + x + 1) start from (hfold 7).2 x h
  clear h
  induction xs with
  | nil => simp
  | cons y rest ih =>
      intro start
      obtain ⟨hstart, hrest⟩ := ih (31 * start + y + 1)
      rw [List.foldl_cons]
      refine ⟨by omega, fun x hx => ?_⟩
      rcases List.mem_cons.mp hx with rfl | hx
      · omega
      · exact hrest x hx

/-- The fold of a code is injective in where it starts. -/
theorem Factory.foldl_code_injective (xs : List Nat) :
    Function.Injective fun start : Nat => xs.foldl (fun h x => 31 * h + x + 1) start := by
  induction xs with
  | nil => exact fun _ _ h => h
  | cons x rest ih =>
      intro m n h
      have hstep : 31 * m + x + 1 = 31 * n + x + 1 := ih h
      omega

theorem Factory.hashesHeaders_sample : Factory.sample.HashesHeaders where
  notMem_parents header hmem :=
    (Factory.lt_code (List.mem_append_right _ hmem)).ne rfl
  timestamp_injective header m n h := by
    have hstart := Factory.foldl_code_injective ([header.version, header.height] ++
      header.parentHashes) h
    change @Eq Nat _ _ at hstart
    simp only at hstart
    omega

/-- A computation that was evaluated: it returns a value with the property checked. -/
theorem exists_ok_of_any {α : Type} {x : Except String α} {p : α → Bool}
    (h : x.toOption.any p = true) : ∃ a, x = .ok a ∧ p a = true := by
  cases x with
  | error error => simp [Except.toOption] at h
  | ok a => exact ⟨a, rfl, by simpa [Except.toOption] using h⟩

/-- A check that throws, and what follows if it passes. -/
theorem check_eq_ok {α : Type} {p : Prop} [Decidable p] {error : String} {x : Except String α}
    {y : α} : (if p then .error error else x) = .ok y ↔ ¬ p ∧ x = .ok y := by
  split <;> simp [*]

/-- A check that throws, and what is returned if it passes. -/
theorem guard_eq_ok {α : Type} {p : Prop} [Decidable p] {error : String} {x y : α} :
    (if p then (.error error : Except String α) else .ok x) = .ok y ↔ ¬ p ∧ x = y := by
  split <;> simp [*]

end CilCore
