import CilCore.Storage.PersistentStorage

/-!
# The cache of contracts

`storage/storageWithCache.js`: large contracts are kept in memory after they were read
for the first time. What is kept is the decoded object itself, which the callers go on
to change, and nothing removes or replaces it when the database changes.
-/

namespace CilCore

/-- `Constants.CONTRACT_MIN_CASHING_SIZE`. -/
def CONTRACT_MIN_CASHING_SIZE : Nat := 102400

/-! ### Contract objects -/

/-- A method in the code of a contract. A leading `<` marks it as asynchronous. -/
structure MethodCode where
  name : String
  isAsync : Bool
  body : String
deriving DecidableEq

/-- What `getCode` returns. -/
abbrev ContractCode := List MethodCode

/-- A reference to a contract object. -/
abbrev Ref := Nat

/-- A contract object: its fields, the decoded code, and the contract that it proxies. -/
structure LiveContract where
  contract : Contract
  code : ContractCode
  proxiedContract : Option Ref := none

/-- All contract objects, by reference. -/
abbrev Heap := List LiveContract

/-- What can be seen of a contract. -/
structure ContractView where
  data : Data
  balance : Amount
  code : ContractCode
  conciliumId : Option Nat
deriving DecidableEq

/-- The contract as it was decoded. -/
def Contract.view (F : Factory) (contract : Contract) (code : ContractCode) : ContractView where
  data := contract.data F
  balance := contract.balance
  code := code
  conciliumId := contract.conciliumId

namespace Heap

/-- How deep calls can nest before the engine throws. -/
def callDepth : Nat := 10000

/-- The object at the end of the proxies that start at a reference; `none` where
following them does not end. -/
def holderFrom (heap : Heap) : Nat → Ref → Option Ref
  | 0, _ => none
  | fuel + 1, ref =>
      match heap[ref]? with
      | none => none
      | some live =>
          match live.proxiedContract with
          | none => some ref
          | some proxied => holderFrom heap fuel proxied

/-- The object whose balance `getBalance` reads and `deposit` changes. -/
def holder (heap : Heap) (ref : Ref) : Option Ref := heap.holderFrom callDepth ref

/-- `getBalance`. -/
def getBalance (heap : Heap) (ref : Ref) : Option Amount :=
  (heap.holder ref).bind fun holder => (heap[holder]?).map (·.contract.balance)

/-- What can be seen of a contract object. -/
def view (F : Factory) (heap : Heap) (ref : Ref) : Option ContractView :=
  (heap[ref]?).bind fun live => (heap.getBalance ref).map fun balance =>
    { live.contract.view F live.code with balance }

/-- A new object shows what was decoded. -/
theorem view_append_self (F : Factory) (heap : Heap) (contract : Contract) (code : ContractCode) :
    view F (heap ++ [⟨contract, code, none⟩]) heap.length = some (contract.view F code) := by
  simp [view, getBalance, holder, callDepth, holderFrom, Contract.view]

/-- References in the heap lead to objects in the heap. -/
def Closed (heap : Heap) : Prop :=
  ∀ live ∈ heap, ∀ proxied ∈ live.proxiedContract, proxied < heap.length

theorem holderFrom_append {heap : Heap} (hheap : heap.Closed) (more : Heap) (fuel : Nat) :
    ∀ {ref : Ref}, ref < heap.length →
      holderFrom (heap ++ more) fuel ref = holderFrom heap fuel ref := by
  induction fuel with
  | zero => exact fun _ => rfl
  | succ fuel ih =>
      intro ref href
      rw [holderFrom, holderFrom, List.getElem?_append_left href, List.getElem?_eq_getElem href]
      dsimp only
      split
      next => rfl
      next proxied hproxied => exact ih (hheap _ (List.getElem_mem href) _ hproxied)

theorem holderFrom_lt {heap : Heap} {fuel : Nat} :
    ∀ {ref holder : Ref}, holderFrom heap fuel ref = some holder → holder < heap.length := by
  induction fuel with
  | zero =>
      intro ref holder h
      cases h
  | succ fuel ih =>
      intro ref holder h
      rw [holderFrom] at h
      split at h
      next => cases h
      next live hlive =>
        split at h
        next =>
          injection h with h
          exact h ▸ (List.getElem?_eq_some_iff.mp hlive).1
        next => exact ih h

/-- New objects do not change what the old ones show. -/
theorem view_append {heap : Heap} (hheap : heap.Closed) (F : Factory) (more : Heap) {ref : Ref}
    (href : ref < heap.length) : view F (heap ++ more) ref = view F heap ref := by
  unfold view getBalance holder
  rw [holderFrom_append hheap more callDepth href, List.getElem?_append_left href]
  cases hholder : heap.holderFrom callDepth ref with
  | none => rfl
  | some holder =>
      simp only [Option.bind_some]
      rw [List.getElem?_append_left (holderFrom_lt hholder)]

end Heap

/-! ### Keys of the cache -/

/-- How an address is given. -/
inductive AddressForm where
  | string
  | buffer
deriving DecidableEq

/-- The property name that an address becomes: its hexadecimal digits, or the text that
a buffer decodes to. -/
inductive CacheKey where
  | hex (address : Address)
  | text (codePoints : List Nat)
deriving DecidableEq

/-- What the UTF-8 decoder waits for: how many bytes, between which bounds the next one
has to be, and the bits it has gathered. -/
structure Utf8Pending where
  needed : Nat
  lower : Nat
  upper : Nat
  codePoint : Nat

/-- U+FFFD, which replaces what cannot be decoded. -/
def replacementChar : Nat := 0xFFFD

/-- The first byte of a sequence: what is emitted at once, and what is waited for. -/
def utf8Start (byte : Nat) : List Nat × Option Utf8Pending :=
  if byte ≤ 0x7F then ([byte], none)
  else if 0xC2 ≤ byte ∧ byte ≤ 0xDF then ([], some ⟨1, 0x80, 0xBF, byte - 0xC0⟩)
  else if 0xE0 ≤ byte ∧ byte ≤ 0xEF then
    ([], some ⟨2, if byte = 0xE0 then 0xA0 else 0x80, if byte = 0xED then 0x9F else 0xBF,
      byte - 0xE0⟩)
  else if 0xF0 ≤ byte ∧ byte ≤ 0xF4 then
    ([], some ⟨3, if byte = 0xF0 then 0x90 else 0x80, if byte = 0xF4 then 0x8F else 0xBF,
      byte - 0xF0⟩)
  else ([replacementChar], none)

/-- `Buffer.toString()`: decode UTF-8, replacing what is malformed. -/
def utf8Decode : Option Utf8Pending → List Nat → List Nat
  | none, [] => []
  | some _, [] => [replacementChar]
  | none, byte :: rest => (utf8Start byte).1 ++ utf8Decode (utf8Start byte).2 rest
  | some pending, byte :: rest =>
      if pending.lower ≤ byte ∧ byte ≤ pending.upper then
        let codePoint := pending.codePoint * 64 + (byte - 0x80)
        if pending.needed = 1 then codePoint :: utf8Decode none rest
        else utf8Decode (some ⟨pending.needed - 1, 0x80, 0xBF, codePoint⟩) rest
      else replacementChar :: ((utf8Start byte).1 ++ utf8Decode (utf8Start byte).2 rest)

/-- The twenty bytes of an address. -/
def addressBytes (address : Address) : List Nat :=
  (List.range 20).map fun i => address / 256 ^ (19 - i) % 256

/-- The key that an address is looked up under. -/
def cacheKey : AddressForm → Address → CacheKey
  | .string, address => .hex address
  | .buffer, address => .text (utf8Decode none (addressBytes address))

/-- Malformed bytes all decode to the same character. -/
example : cacheKey .buffer 0x80 = cacheKey .buffer 0xFF := by decide +kernel

/-! ### The storage -/

/-- The database: storage, and the code of the stored contracts. -/
structure ContractDb where
  storage : Storage
  codes : FinMap Address ContractCode

namespace ContractDb

/-- `getContract(address, true)` of plain storage: the encoded contract. -/
def getRaw (db : ContractDb) (address : Address) : Option (Contract × ContractCode) :=
  (db.storage.getContract address).map fun contract =>
    (contract, (db.codes.lookup address).getD [])

/-- What `getContract` of plain storage returns, as seen by a caller. -/
def view (F : Factory) (db : ContractDb) (address : Address) : Option ContractView :=
  (db.getRaw address).map fun stored => stored.1.view F stored.2

end ContractDb

/-- `StorageWithCache`, with the contract objects that exist. -/
structure StorageWithCache where
  db : ContractDb
  heap : Heap
  object : FinMap CacheKey Ref
  raw : FinMap CacheKey (Contract × ContractCode)

namespace StorageWithCache

section

variable (F : Factory)

/-- The constructor, over a database. -/
def new (db : ContractDb) : StorageWithCache := ⟨db, [], ∅, ∅⟩

/-- `getContract(address)`. -/
def getContract (form : AddressForm) (address : Address) (s : StorageWithCache) :
    Option Ref × StorageWithCache :=
  match s.object.lookup (cacheKey form address) with
  | some ref => (some ref, s)
  | none =>
      match s.db.getRaw address with
      | none => (none, s)
      | some stored =>
          let s' := { s with heap := s.heap ++ [⟨stored.1, stored.2, none⟩] }
          if stored.1.getDataSize F ≤ CONTRACT_MIN_CASHING_SIZE then (some s.heap.length, s')
          else (some s.heap.length,
            { s' with object := s.object.insert (cacheKey form address) s.heap.length })

/-- `getContract(address, true)`. -/
def getContractRaw (form : AddressForm) (address : Address) (s : StorageWithCache) :
    Option (Contract × ContractCode) × StorageWithCache :=
  match s.raw.lookup (cacheKey form address) with
  | some stored => (some stored, s)
  | none =>
      match s.db.getRaw address with
      | none => (none, s)
      | some stored =>
          if stored.1.getDataSize F ≤ CONTRACT_MIN_CASHING_SIZE then (some stored, s)
          else (some stored, { s with raw := s.raw.insert (cacheKey form address) stored })

/-- `applyPatch`, which the cache does not override. The codes are those of the contracts
in the patch. -/
def applyPatch (statePatch : PatchDB) (codes : FinMap Address ContractCode) (nHeightMax : Nat)
    (s : StorageWithCache) : StorageWithCache :=
  { s with db :=
    { storage := s.db.storage.applyPatch F statePatch nHeightMax
      codes := codes ∪ s.db.codes } }

/-- What a caller sees of the contract that `getContract(address)` returns. -/
def cachedView (s : StorageWithCache) (form : AddressForm) (address : Address) :
    Option ContractView :=
  (s.getContract F form address).1.bind (Heap.view F (s.getContract F form address).2.heap)

/-- What a caller sees of the contract that `getContract(address, true)` returns. -/
def cachedRawView (s : StorageWithCache) (form : AddressForm) (address : Address) :
    Option ContractView :=
  (s.getContractRaw F form address).1.map fun stored => stored.1.view F stored.2

end

end StorageWithCache

end CilCore
