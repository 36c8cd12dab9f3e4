import CilCore.Lib.Runs
import CilCore.Structures.ContractContents

/-!
# The two forms of contract data

`structures/contract.js` keeps the data of a contract as an object, as bytes, or as both,
and the serializer that the bytes are for can be switched at any time. Here the operations
of a contract are run in any order, and compared with the data that was set last.
-/

namespace CilCore

/-- The JSON text of contract data. No object has an empty text. -/
abbrev ObjectText := { data : Data // data ≠ [] }

/-- What the code relies on of the serializer: it reads back what it wrote, which is never
empty. -/
structure Factory.RoundTrips (F : Factory) : Prop where
  readsBack : F.ReadsBack
  nonempty : ∀ data, F.v8Serialize data ≠ []

theorem Factory.roundTrips_sample : Factory.sample.RoundTrips :=
  ⟨Factory.readsBack_sample, fun _ => List.cons_ne_nil _ _⟩

/-! ### Balances in `fixed64` fields -/

/-- What a `fixed64` field holds of a number: its fraction and its high bits are lost. -/
def writeFixed64 (amount : Amount) : Nat := (amount.num.tdiv amount.den % 2 ^ 64).toNat

/-- A number that fits into a `fixed64` field. -/
def FitsFixed64 (amount : Amount) : Prop := ∃ n : Nat, n < 2 ^ 64 ∧ amount = n

theorem writeFixed64_eq_iff {amount : Amount} :
    (writeFixed64 amount : Amount) = amount ↔ FitsFixed64 amount := by
  constructor
  · intro h
    refine ⟨writeFixed64 amount, ?_, h.symm⟩
    have hlt := Int.emod_lt_of_pos (amount.num.tdiv amount.den) (show (0 : ℤ) < 2 ^ 64 by norm_num)
    unfold writeFixed64
    omega
  · rintro ⟨n, hn, rfl⟩
    have hsmall : ((n : ℤ) % 2 ^ 64).toNat = n := by omega
    simp only [writeFixed64, Rat.num_natCast, Rat.den_natCast, Nat.cast_one, Int.tdiv_one, hsmall]

/-! ### Contracts with both forms of their code -/

/-- `Contract` with the cache of its code. The text of the code in the record is
`contractCode`, that of the code in the cache is `cacheCode`. -/
structure CachedContract extends Contract where
  cacheCode : Option String := none
deriving DecidableEq

/-- An encoded contract. -/
structure ContractMessage where
  contractData : Option Bytes
  contractCode : Option String
  conciliumId : Nat
  balance : Nat
  version : ContractVersion
deriving DecidableEq

namespace CachedContract

section

variable (F : Factory)

/-- The constructor, given an object. An empty code is none. -/
def new (strAddress : Address) (data : Option ObjectText) (contractCode : Option String)
    (conciliumId : Option Nat) (balance : ℤ) (version : ContractVersion) : CachedContract where
  strAddress := strAddress
  conciliumId := conciliumId
  balance := balance
  version := version
  cacheData := some (data.elim Contract.emptyData Subtype.val)
  cacheCode := contractCode.filter (· ≠ "")
  bDataModified := true

/-- The constructor, given a buffer. -/
def decode (strAddress : Address) (message : ContractMessage) : CachedContract where
  strAddress := strAddress
  conciliumId := some message.conciliumId
  balance := (message.balance : Amount)
  version := message.version
  contractData := message.contractData
  contractCode := message.contractCode

/-- What `getCode` returns. -/
def code (contract : CachedContract) : Option String :=
  contract.cacheCode.or (contract.contractCode.filter (· ≠ ""))

/-- `encode`, which fills in what the record lacks. -/
def encode (contract : CachedContract) : Except String (CachedContract × ContractMessage) :=
  match contract.conciliumId with
  | none => .error "Contract \"conciliumId\" not specified!"
  | some conciliumId =>
      let contract := { contract with toContract := contract.ensureData F }
      let contract := { contract with contractCode := contract.contractCode.or contract.cacheCode }
      .ok (contract,
        { contractData := contract.contractData
          contractCode := contract.contractCode
          conciliumId := conciliumId % 2 ^ 32
          balance := writeFixed64 contract.balance
          version := contract.version })

/-- `clone`. -/
def clone (contract : CachedContract) : Except String CachedContract :=
  (contract.encode F).map fun result => decode contract.strAddress result.2

/-- `switchSerializerToOld`. -/
def switchSerializerToOld (contract : CachedContract) : CachedContract :=
  { contract with
    toContract := { contract.getData F with version := .CONTRACT_V_V8, contractData := none } }

end

/-- What is done with a contract. -/
inductive Operation where
  | getData
  | getDataSize
  | updateData (data : ObjectText)
  | switchSerializerToJson
  | switchSerializerToOld
  | dirtyWorkaround
  | deposit (amount : Amount)
  | withdraw (amount : Amount)
  | encode
  /-- The contract is replaced by its clone. -/
  | clone

section

variable (F : Factory)

/-- The contract after an operation. -/
def perform (contract : CachedContract) : Operation → Except String CachedContract
  | .getData => .ok { contract with toContract := contract.getData F }
  | .getDataSize => .ok { contract with toContract := contract.ensureData F }
  | .updateData data => .ok { contract with toContract := contract.updateData data.val }
  | .switchSerializerToJson =>
      .ok { contract with toContract := contract.switchSerializerToJson F }
  | .switchSerializerToOld => .ok (contract.switchSerializerToOld F)
  | .dirtyWorkaround => .ok { contract with toContract := contract.dirtyWorkaround F }
  | .deposit amount => .ok { contract with toContract := contract.deposit amount }
  | .withdraw amount =>
      (contract.withdraw amount).map fun after => { contract with toContract := after }
  | .encode => (contract.encode F).map (·.1)
  | .clone => contract.clone F

/-- An operation that throws leaves the contract as it was. -/
def step (contract : CachedContract) (operation : Operation) : CachedContract :=
  match contract.perform F operation with
  | .error _ => contract
  | .ok contract => contract

end

/-! ### What is asked -/

/-- The data that is set after an operation. -/
def setData (data : ObjectText) : Operation → ObjectText
  | .updateData data => data
  | _ => data

/-- The data that was set last. -/
def lastData : ObjectText → List Operation → ObjectText := Runs.after setData

/-- Balance, code and concilium are those of another contract. -/
structure SameAccount (contract other : CachedContract) : Prop where
  balance : contract.balance = other.balance
  code : contract.code = other.code
  conciliumId : contract.conciliumId = other.conciliumId

/-- The operation does not throw, unless it withdraws too much, and a clone has the balance,
the code and the concilium of the original. -/
def Succeeds (F : Factory) (contract : CachedContract) (operation : Operation) : Prop :=
  ((∃ amount, operation = .withdraw amount ∧ contract.balance < amount) ∨
      ∃ after, contract.perform F operation = .ok after) ∧
    (operation = .clone → (contract.step F .clone).SameAccount contract)

/-- All ways to read a contract give the data, and nothing is lost when it is encoded. -/
structure Shows (F : Factory) (contract : CachedContract) (data : Data) : Prop where
  getData : contract.data F = data
  encode : ∃ after message, contract.encode F = .ok (after, message) ∧
    (decode contract.strAddress message).data F = data ∧
    (decode contract.strAddress message).SameAccount contract
  getDataBuffer : ∃ bytes, contract.getDataBuffer F = .ok bytes ∧
    Contract.deserialize F contract.version bytes = data

/-- The operations succeed one after another, and afterwards the contract shows the data
that was set last. -/
def StaysCoherent (F : Factory) (contract : CachedContract) (data : ObjectText)
    (operations : List Operation) : Prop :=
  Runs.EveryStep (step F) (Succeeds F) contract operations ∧
    Shows F (Runs.after (step F) contract operations) (lastData data operations).val

/-- The text of the data of a contract that is constructed without data. -/
def emptyObject : ObjectText := ⟨Contract.emptyData, by decide⟩

/-- The contract was constructed from an object with its concilium, or decoded. -/
inductive Obtained (F : Factory) : CachedContract → ObjectText → Prop
  | constructed (strAddress : Address) (data : Option ObjectText) (contractCode : Option String)
      (conciliumId : Nat) (balance : ℤ) (version : ContractVersion) :
      Obtained F (new strAddress data contractCode (some conciliumId) balance version)
        (data.getD emptyObject)
  | decoded (strAddress : Address) (data : ObjectText) (message : ContractMessage)
      (h : message.contractData = some (Contract.serialize F message.version data.val)) :
      Obtained F (decode strAddress message) data

/-! ### When it is so -/

/-- What decides whether a contract can be read: its account, whether its data was set since
it was decoded, and whether the cached object was given up since the data was set. -/
structure Outline where
  conciliumId : Nat
  balance : Amount
  modified : Bool
  givenUp : Bool

/-- The outline of a contract that was just obtained. -/
def outline (contract : CachedContract) : Outline where
  conciliumId := contract.conciliumId.getD 0
  balance := contract.balance
  modified := contract.bDataModified
  givenUp := false

namespace Outline

/-- What an operation does to it. -/
def next (outline : Outline) : Operation → Outline
  | .getData | .switchSerializerToJson | .switchSerializerToOld =>
      { outline with givenUp := false }
  | .updateData _ => { outline with modified := true, givenUp := false }
  | .dirtyWorkaround => { outline with givenUp := outline.modified }
  | .deposit amount => { outline with balance := outline.balance + amount }
  | .withdraw amount =>
      if outline.balance < amount then outline
      else { outline with balance := outline.balance - amount }
  | .getDataSize | .encode => outline
  | .clone => { outline with modified := false, givenUp := false }

/-- Balance and concilium fit into the fields they are written into. -/
def Encodable (outline : Outline) : Prop :=
  FitsFixed64 outline.balance ∧ outline.conciliumId < 2 ^ 32

/-- Balance and concilium fit into their fields when the contract is cloned and in the end,
and the workaround has not given up the object of data that was set since the last clone. -/
def KeepsReadable (outline : Outline) (operations : List Operation) : Prop :=
  Runs.EveryStep next (fun outline operation => operation = .clone → outline.Encodable) outline
      operations ∧
    (Runs.after next outline operations).Encodable ∧
      (Runs.after next outline operations).givenUp = false

end Outline

/-- The contract has the outline and the data: both forms of the data that are there are
right, and so are both forms of the code. -/
structure Holds (F : Factory) (contract : CachedContract) (outline : Outline)
    (data : ObjectText) : Prop where
  conciliumId : contract.conciliumId = some outline.conciliumId
  balance : contract.balance = outline.balance
  modified : contract.bDataModified = outline.modified
  givenUp : outline.givenUp = true ↔ contract.bDataModified = true ∧ contract.cacheData = none
  cached : ∀ object, contract.cacheData = some object → object = data.val
  encoded : ∀ bytes, contract.contractData = some bytes →
    bytes ≠ [] ∧ Contract.deserialize F contract.version bytes = data.val
  exists_form : contract.cacheData = none → ∃ bytes, contract.contractData = some bytes
  codes : ∀ code code', contract.cacheCode = some code → contract.contractCode = some code' →
    code = code'
  code_ne : contract.cacheCode ≠ some ""

variable {F : Factory} {contract : CachedContract} {outline : Outline} {data : ObjectText}

theorem serialize_ne_nil (hF : F.RoundTrips) (version : ContractVersion) (data : ObjectText) :
    Contract.serialize F version data.val ≠ [] := by
  cases version with
  | CONTRACT_V_JSON => exact data.property
  | CONTRACT_V_V8 => exact hF.nonempty data.val

theorem Obtained.holds (hF : F.RoundTrips) (h : Obtained F contract data) :
    Holds F contract contract.outline data := by
  cases h with
  | constructed strAddress data contractCode conciliumId balance version =>
      refine ⟨rfl, rfl, rfl, by simp [outline, new], ?_, by simp [new], by simp [new],
        by simp [new], ?_⟩
      · intro object hobject
        cases hobject
        cases data <;> rfl
      · intro hcode
        have hfilter := (Option.filter_eq_some_iff.mp hcode).2
        simp at hfilter
  | decoded strAddress data message h =>
      refine ⟨rfl, rfl, rfl, by simp [outline, decode], by simp [decode], ?_, ?_, by simp [decode],
        by simp [decode]⟩
      · intro bytes hbytes
        cases h.symm.trans hbytes
        exact ⟨serialize_ne_nil hF _ _, Contract.deserialize_serialize hF.readsBack _ _⟩
      · exact fun _ => ⟨_, h⟩

namespace Holds

variable (h : Holds F contract outline data)

include h

theorem data_eq : contract.data F = data.val := by
  unfold Contract.data
  split
  next object hobject => exact h.cached object hobject
  next hnone =>
    obtain ⟨bytes, hbytes⟩ := h.exists_form hnone
    rw [hbytes]
    exact (h.encoded bytes hbytes).2

/-- The record has the data after `_ensureData`. -/
theorem ensureData_eq (hF : F.RoundTrips) : ∃ bytes,
    contract.ensureData F = { contract.toContract with contractData := some bytes } ∧
      bytes ≠ [] ∧ Contract.deserialize F contract.version bytes = data.val := by
  unfold Contract.ensureData
  split
  next object hnone hobject =>
    refine ⟨_, rfl, ?_⟩
    rw [h.cached object hobject]
    exact ⟨serialize_ne_nil hF _ _, Contract.deserialize_serialize hF.readsBack _ _⟩
  next hboth =>
    have hsome : ∃ bytes, contract.contractData = some bytes := by
      cases hbytes : contract.contractData with
      | some bytes => exact ⟨bytes, rfl⟩
      | none =>
          cases hobject : contract.cacheData with
          | none =>
              obtain ⟨bytes, hsome⟩ := h.exists_form hobject
              rw [hbytes] at hsome
              cases hsome
          | some object => exact (hboth object hbytes hobject).elim
    obtain ⟨bytes, hbytes⟩ := hsome
    exact ⟨bytes, by rw [← hbytes], h.encoded bytes hbytes⟩

/-- An account that changes, and data that stays. -/
theorem setBalance {balance balance' : Amount} (heq : balance = balance') :
    Holds F { contract with balance } { outline with balance := balance' } data :=
  ⟨h.conciliumId, heq, h.modified, h.givenUp, h.cached, h.encoded, h.exists_form, h.codes,
    h.code_ne⟩

/-- The object is put into the cache, and the bytes are kept or given up. -/
theorem getData {version : ContractVersion} {contractData : Option Bytes}
    (hbytes : contractData = none ∨
      version = contract.version ∧ contractData = contract.contractData) :
    Holds F
      { contract with
        toContract := { contract.getData F with version := version, contractData := contractData } }
      { outline with givenUp := false } data where
  conciliumId := h.conciliumId
  balance := h.balance
  modified := h.modified
  givenUp := by simp [Contract.getData]
  cached object hobject := by
    cases hobject
    exact h.data_eq
  encoded bytes hsome := by
    rcases hbytes with rfl | ⟨rfl, rfl⟩
    · cases hsome
    · exact h.encoded bytes hsome
  exists_form hnone := by cases hnone
  codes := h.codes
  code_ne := h.code_ne

theorem updateData (new : ObjectText) :
    Holds F { contract with toContract := contract.updateData new.val }
      { outline with modified := true, givenUp := false } new where
  conciliumId := h.conciliumId
  balance := h.balance
  modified := rfl
  givenUp := by simp [Contract.updateData]
  cached object hobject := by
    cases hobject
    rfl
  encoded bytes hsome := by cases hsome
  exists_form hnone := by cases hnone
  codes := h.codes
  code_ne := h.code_ne

theorem ensureData (hF : F.RoundTrips) :
    Holds F { contract with toContract := contract.ensureData F } outline data := by
  obtain ⟨bytes, hensure, hne, hread⟩ := h.ensureData_eq hF
  rw [hensure]
  refine ⟨h.conciliumId, h.balance, h.modified, h.givenUp, h.cached, fun bytes' hbytes' => ?_,
    fun _ => ⟨bytes, rfl⟩, h.codes, h.code_ne⟩
  cases hbytes'
  exact ⟨hne, hread⟩

/-- The workaround keeps the bytes only, unless there is nothing to work around. -/
theorem dirtyWorkaround (hF : F.RoundTrips) :
    Holds F { contract with toContract := contract.dirtyWorkaround F }
      { outline with givenUp := outline.modified } data := by
  unfold Contract.dirtyWorkaround
  split
  next hskip =>
    have hmodified : outline.modified = false := by
      simp only [Bool.and_eq_true, Bool.not_eq_true', decide_eq_true_eq] at hskip
      rw [← h.modified]
      exact hskip.2
    refine ⟨h.conciliumId, h.balance, h.modified, ?_, h.cached, h.encoded, h.exists_form, h.codes,
      h.code_ne⟩
    rw [hmodified, h.modified, hmodified]
    simp
  next =>
    refine ⟨h.conciliumId, h.balance, h.modified, ?_, by simp, fun bytes hbytes => ?_,
      fun _ => ⟨_, rfl⟩, h.codes, h.code_ne⟩
    · rw [← h.modified]
      simp
    · cases hbytes
      refine ⟨hF.nonempty _, ?_⟩
      rw [h.data_eq]
      exact (hF.readsBack _).trans (hF.readsBack _)

/-- What is written, and what the contract is afterwards. -/
theorem encode (hF : F.RoundTrips) : ∃ after message,
    contract.encode F = .ok (after, message) ∧ Holds F after outline data ∧
      (∃ bytes, message.contractData = some bytes ∧ bytes ≠ [] ∧
        Contract.deserialize F contract.version bytes = data.val) ∧
      message.contractCode.filter (· ≠ "") = contract.code ∧
      message.conciliumId = outline.conciliumId % 2 ^ 32 ∧
      message.balance = writeFixed64 outline.balance ∧ message.version = contract.version := by
  have hensured := h.ensureData hF
  obtain ⟨bytes, hensure, hne, hread⟩ := h.ensureData_eq hF
  unfold CachedContract.encode
  rw [h.conciliumId]
  dsimp only
  rw [hensure] at hensured ⊢
  refine ⟨_, _, rfl, ?_, ⟨bytes, rfl, hne, hread⟩, ?_, rfl, ?_, rfl⟩
  · refine ⟨hensured.conciliumId, hensured.balance, hensured.modified, hensured.givenUp,
      hensured.cached, hensured.encoded, hensured.exists_form, fun code code' hcode hcode' => ?_,
      hensured.code_ne⟩
    cases hrecord : contract.contractCode with
    | none =>
        simp only [hrecord, Option.none_or] at hcode'
        exact Option.some.inj (hcode.symm.trans hcode')
    | some own =>
        simp only [hrecord, Option.some_or, Option.some.injEq] at hcode'
        exact (h.codes code own hcode hrecord).trans hcode'
  · unfold CachedContract.code
    cases hrecord : contract.contractCode with
    | none =>
        cases hcache : contract.cacheCode with
        | none => rfl
        | some code =>
            have hcodeNe : code ≠ "" := fun heq => h.code_ne (heq ▸ hcache)
            simp [hcodeNe]
    | some own =>
        cases hcache : contract.cacheCode with
        | none => simp
        | some code =>
            have hsame := h.codes code own hcache hrecord
            have hcodeNe : code ≠ "" := fun heq => h.code_ne (heq ▸ hcache)
            subst hsame
            simp [hcodeNe]
  · rw [h.balance]

/-- A clone has the account of the original exactly if the account fits into its fields. -/
theorem clone (hF : F.RoundTrips) : ∃ copy, contract.clone F = .ok copy ∧
    (copy.SameAccount contract ↔ outline.Encodable) ∧ copy.data F = data.val ∧
      (outline.Encodable → Holds F copy (outline.next .clone) data) := by
  obtain ⟨after, message, hencode, -, ⟨bytes, hbytes, hne, hread⟩, hcode, hconcilium, hbalance,
    hversion⟩ := h.encode hF
  refine ⟨decode contract.strAddress message, by rw [CachedContract.clone, hencode]; rfl, ?_, ?_,
    fun hfits => ?_⟩
  · constructor
    · intro hsame
      have hid : some (outline.conciliumId % 2 ^ 32) = some outline.conciliumId := by
        rw [← hconcilium, ← h.conciliumId]
        exact hsame.conciliumId
      refine ⟨writeFixed64_eq_iff.mp ?_, ?_⟩
      · rw [← hbalance, ← h.balance]
        exact hsame.balance
      · have hmod := Option.some.inj hid
        have hlt := Nat.mod_lt outline.conciliumId (show 0 < 2 ^ 32 by norm_num)
        omega
    · rintro ⟨hbalanceFits, hconciliumFits⟩
      refine ⟨?_, hcode, ?_⟩
      · rw [h.balance, ← writeFixed64_eq_iff.mpr hbalanceFits, ← hbalance]
        rfl
      · rw [h.conciliumId, ← Nat.mod_eq_of_lt hconciliumFits, ← hconcilium]
        rfl
  · unfold Contract.data
    change Contract.deserialize F message.version (message.contractData.getD []) = data.val
    rw [hbytes, hversion]
    exact hread
  · refine ⟨?_, ?_, rfl, by simp [Outline.next, decode], by simp [decode], fun bytes' hbytes' => ?_,
      fun _ => ⟨bytes, hbytes⟩, by simp [decode], by simp [decode]⟩
    · rw [decode, hconcilium, Nat.mod_eq_of_lt hfits.2]
      rfl
    · rw [decode, hbalance]
      exact writeFixed64_eq_iff.mpr hfits.1
    · cases hbytes.symm.trans hbytes'
      refine ⟨hne, ?_⟩
      change Contract.deserialize F message.version bytes = data.val
      rw [hversion]
      exact hread

/-- `getDataBuffer` throws exactly if the object was given up after the data was set. -/
theorem getDataBuffer (hF : F.RoundTrips) : (∃ bytes, contract.getDataBuffer F = .ok bytes ∧
    Contract.deserialize F contract.version bytes = data.val) ↔ outline.givenUp = false := by
  rw [← Bool.not_eq_true, h.givenUp]
  unfold Contract.getDataBuffer
  split
  next byte bytes hmodified hbytes =>
    refine iff_of_true ⟨_, rfl, (h.encoded _ hbytes).2⟩ ?_
    rw [hmodified]
    simp
  next object hobject _ =>
    refine iff_of_true ⟨_, rfl, ?_⟩ ?_
    · rw [Contract.deserialize_serialize hF.readsBack]
      exact h.cached object hobject
    · rw [hobject]
      simp
  next hneither hnone =>
    refine iff_of_false ?_ ?_
    · rintro ⟨bytes, hbytes, -⟩
      cases hbytes
    · have hcache : contract.cacheData = none :=
        Option.eq_none_iff_forall_ne_some.mpr fun object hobject => hnone object hobject
      obtain ⟨bytes, hbytes⟩ := h.exists_form hcache
      obtain ⟨byte, rest, rfl⟩ := List.exists_cons_of_ne_nil (h.encoded bytes hbytes).1
      rw [not_not]
      refine ⟨?_, hcache⟩
      cases hmodified : contract.bDataModified with
      | true => rfl
      | false => exact (hneither byte rest hmodified hbytes).elim

/-- The contract shows its data if this can be read and the account can be written. -/
theorem shows_iff (hF : F.RoundTrips) :
    Shows F contract data.val ↔ outline.Encodable ∧ outline.givenUp = false := by
  obtain ⟨after, message, hencode, -⟩ := h.encode hF
  obtain ⟨copy, hclone, hsame, hdata, -⟩ := h.clone hF
  have hcopy : copy = decode contract.strAddress message := by
    rw [CachedContract.clone, hencode] at hclone
    exact (Except.ok.inj hclone).symm
  subst hcopy
  constructor
  · intro hshows
    obtain ⟨_, _, hencode', -, haccount⟩ := hshows.encode
    cases hencode.symm.trans hencode'
    exact ⟨hsame.mp haccount, (h.getDataBuffer hF).mp hshows.getDataBuffer⟩
  · rintro ⟨hfits, hkept⟩
    exact ⟨h.data_eq, ⟨after, message, hencode, hdata, hsame.mpr hfits⟩,
      (h.getDataBuffer hF).mpr hkept⟩

/-- What an operation does, a clone apart. -/
theorem perform (hF : F.RoundTrips) (operation : Operation) (hclone : operation ≠ .clone) :
    ((∃ amount, operation = .withdraw amount ∧ contract.balance < amount) ∨
        ∃ after, contract.perform F operation = .ok after) ∧
      Holds F (contract.step F operation) (outline.next operation) (setData data operation) := by
  cases operation with
  | getData => exact ⟨.inr ⟨_, rfl⟩, h.getData (.inr ⟨rfl, rfl⟩)⟩
  | getDataSize => exact ⟨.inr ⟨_, rfl⟩, h.ensureData hF⟩
  | updateData new => exact ⟨.inr ⟨_, rfl⟩, h.updateData new⟩
  | switchSerializerToJson => exact ⟨.inr ⟨_, rfl⟩, h.getData (.inl rfl)⟩
  | switchSerializerToOld => exact ⟨.inr ⟨_, rfl⟩, h.getData (.inl rfl)⟩
  | dirtyWorkaround => exact ⟨.inr ⟨_, rfl⟩, h.dirtyWorkaround hF⟩
  | deposit amount => exact ⟨.inr ⟨_, rfl⟩, h.setBalance (congrArg (· + amount) h.balance)⟩
  | withdraw amount =>
      by_cases hshort : contract.balance < amount
      · have hperform : contract.perform F (.withdraw amount) = .error "Insufficient funds!" := by
          rw [CachedContract.perform, Contract.withdraw, if_pos hshort]
          rfl
        have hnext : outline.next (.withdraw amount) = outline :=
          if_pos (by rwa [← h.balance])
        refine ⟨.inl ⟨amount, rfl, hshort⟩, ?_⟩
        rw [hnext, step, hperform]
        exact h
      · have hperform : contract.perform F (.withdraw amount) =
            .ok { contract with toContract := contract.deposit (0 - amount) } := by
          rw [CachedContract.perform, Contract.withdraw, if_neg hshort]
          rfl
        have hnext : outline.next (.withdraw amount) =
            { outline with balance := outline.balance - amount } :=
          if_neg (by rwa [← h.balance])
        refine ⟨.inr ⟨_, hperform⟩, ?_⟩
        rw [hnext, step, hperform]
        exact h.setBalance (by rw [h.balance]; ring)
  | encode =>
      obtain ⟨after, message, hencode, hafter, -⟩ := h.encode hF
      have hperform : contract.perform F .encode = .ok after := by
        rw [CachedContract.perform, hencode]
        rfl
      refine ⟨.inr ⟨after, hperform⟩, ?_⟩
      rw [step, hperform]
      exact hafter
  | clone => exact absurd rfl hclone

/-- An operation succeeds unless it clones an account that does not fit. -/
theorem succeeds_iff (hF : F.RoundTrips) (operation : Operation) :
    Succeeds F contract operation ↔ (operation = .clone → outline.Encodable) := by
  by_cases hclone : operation = .clone
  · subst hclone
    obtain ⟨copy, hcopy, hsame, -⟩ := h.clone hF
    have hstep : contract.step F .clone = copy := by
      rw [step, CachedContract.perform, hcopy]
    constructor
    · intro hsucceeds _
      rw [← hsame, ← hstep]
      exact hsucceeds.2 rfl
    · intro hfits
      refine ⟨.inr ⟨copy, hcopy⟩, fun _ => ?_⟩
      rw [hstep, hsame]
      exact hfits rfl
  · have hperform := (h.perform hF operation hclone).1
    exact iff_of_true ⟨hperform, fun heq => absurd heq hclone⟩ fun heq => absurd heq hclone

/-- An operation that succeeds keeps the relation. -/
theorem next (hF : F.RoundTrips) (operation : Operation)
    (hsucceeds : operation = .clone → outline.Encodable) :
    Holds F (contract.step F operation) (outline.next operation) (setData data operation) := by
  by_cases hclone : operation = .clone
  · subst hclone
    obtain ⟨copy, hcopy, -, -, hholds⟩ := h.clone hF
    rw [step, CachedContract.perform, hcopy]
    exact hholds (hsucceeds rfl)
  · exact (h.perform hF operation hclone).2

end Holds

/-- A run succeeds if every account that is cloned fits, and then the relation holds in the
end. -/
theorem Holds.run (hF : F.RoundTrips) (h : Holds F contract outline data)
    (operations : List Operation) :
    (Runs.EveryStep (step F) (Succeeds F) contract operations ↔
        Runs.EveryStep Outline.next (fun outline operation => operation = .clone → outline.Encodable)
          outline operations) ∧
      (Runs.EveryStep (step F) (Succeeds F) contract operations →
        Holds F (Runs.after (step F) contract operations)
          (Runs.after Outline.next outline operations) (lastData data operations)) := by
  induction operations generalizing contract outline data with
  | nil => exact ⟨Iff.rfl, fun _ => h⟩
  | cons operation rest ih =>
      have hfirst := h.succeeds_iff hF operation
      constructor
      · constructor
        · rintro ⟨hsucceeds, hrest⟩
          have hfits := hfirst.mp hsucceeds
          exact ⟨hfits, (ih (h.next hF operation hfits)).1.mp hrest⟩
        · rintro ⟨hfits, hrest⟩
          exact ⟨hfirst.mpr hfits, (ih (h.next hF operation hfits)).1.mpr hrest⟩
      · rintro ⟨hsucceeds, hrest⟩
        exact (ih (h.next hF operation (hfirst.mp hsucceeds))).2 hrest

/-- A contract stays coherent exactly if its account fits into its fields whenever it is
written, and its data was not set and then given up by the workaround. -/
theorem staysCoherent_iff (F : Factory) (hF : F.RoundTrips) (contract : CachedContract)
    (data : ObjectText) (h : Obtained F contract data) (operations : List Operation) :
    StaysCoherent F contract data operations ↔ contract.outline.KeepsReadable operations := by
  obtain ⟨hsteps, hend⟩ := (h.holds hF).run hF operations
  constructor
  · rintro ⟨hsucceeds, hshows⟩
    exact ⟨hsteps.mp hsucceeds, ((hend hsucceeds).shows_iff hF).mp hshows⟩
  · rintro ⟨hfits, hreadable⟩
    have hsucceeds := hsteps.mpr hfits
    exact ⟨hsucceeds, ((hend hsucceeds).shows_iff hF).mpr hreadable⟩

/-- A new contract of concilium 1 without data. -/
def emptyContract : CachedContract := new 5 none none (some 1) 0 .CONTRACT_V_JSON

theorem obtained_emptyContract : Obtained Factory.sample emptyContract emptyObject :=
  .constructed 5 none none 1 0 .CONTRACT_V_JSON

/-- After the workaround the data of a new contract cannot be read as bytes. -/
theorem not_staysCoherent_dirtyWorkaround :
    ¬ ∀ (F : Factory), F.RoundTrips → ∀ (contract : CachedContract) (data : ObjectText),
      Obtained F contract data → ∀ operations, StaysCoherent F contract data operations := by
  intro hclaim
  obtain ⟨bytes, hbytes, -⟩ := (hclaim Factory.sample Factory.roundTrips_sample emptyContract
    emptyObject obtained_emptyContract [.dirtyWorkaround]).2.getDataBuffer
  cases hbytes

theorem staysCoherent_iff_emptyContract :
    StaysCoherent Factory.sample emptyContract emptyObject [.dirtyWorkaround, .deposit 3, .clone] ↔
      emptyContract.outline.KeepsReadable [.dirtyWorkaround, .deposit 3, .clone] :=
  staysCoherent_iff Factory.sample Factory.roundTrips_sample emptyContract emptyObject
    obtained_emptyContract _

end CachedContract

end CilCore
