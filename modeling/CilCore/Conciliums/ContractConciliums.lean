import CilCore.Conciliums.Definition
import CilCore.Node.ContractRun

/-!
# The contract of the conciliums

`ContractConciliums` of `conciliumContract.js`, the contract that keeps all concilium
definitions and the deposits of their members. Every method throws, adds deposits that
the coins of its call cover, or lets a member leave with the deposit.
-/

namespace CilCore.ContractConciliums

/-! ## What the contract keeps -/

/-- The kinds of concilium. The contract stores kinds that it does not know. -/
inductive ConciliumType where
  | CONCILIUM_TYPE_RR
  | CONCILIUM_TYPE_POS
  | unknown
deriving DecidableEq

/-- A record of `arrMembers`. -/
structure Member where
  address : Address
  amount : Amount
  nHeightToRelease : Option Int := none
deriving DecidableEq

/-- `parameters` of a concilium. -/
structure Parameters where
  fees : ConciliumFees := {}
  isEnabled : Option Bool := none
  document : Option Bytes := none

/-- A concilium as its creator describes it. `arrMembers` and `addresses` are missing
where they are no arrays. -/
structure Concilium where
  type : ConciliumType
  isOpen : Bool := false
  creator : Option Address := none
  nMinAmountToJoin : Option Amount := none
  arrMembers : Option (List Member) := none
  addresses : Option (List Address) := none
  parameters : Option Parameters := none
  parameterTXNs : Option (List Hash) := none
  conciliumId : Option Nat := none
  conciliumCreationTx : Option Hash := none

/-- The data of the contract. -/
structure State where
  ownerAddress : Option Address
  arrConciliums : List Concilium
  feeCreate : Option Amount := none
  proxyAddress : Option Address := none

/-- The global variables that the node sets for a call. -/
structure Globals where
  callerAddress : Option Address
  value : Amount
  height : Nat
  contractTx : Hash

/-- An argument that stands for a concilium: whether it is truthy, and what `parseInt`
makes of it. The text `"0"` is truthy, the number is not. -/
structure ConciliumId where
  truthy : Bool
  parsed : Option Int

/-- The changes that `changeConciliumParameters` is asked for. What is missing stays. -/
structure NewParameters where
  feeTxSize : Option Nat := none
  feeContractCreation : Option Nat := none
  feeContractInvocation : Option Nat := none
  feeStorage : Option Nat := none
  feeInternalTx : Option Nat := none
  isEnabled : Option Bool := none
  document : Option Bytes := none

/-- What a method does: it throws, returns, sends coins before it returns, or leaves
everything to the proxy. -/
inductive Outcome where
  | throws (message : String)
  | returns (state : State)
  | pays (strAddress : Address) (amount : Amount) (state : State)
  | delegates (strAddress : Address)

/-- `Constants.concilium.HEIGHT_TO_RELEASE_ADD_ON` of `prod.conf.js`. -/
def HEIGHT_TO_RELEASE_ADD_ON : Nat := 1000

/-- `nHighWatermark`, and the price of a concilium after the first. -/
def nHighWatermark : Nat := 100000000000

/-! ## Members -/

/-- Add a deposit to the first record of an address, or append a record. -/
def addDeposit (strAddress : Address) (nAmount : Amount) (nHeightToRelease : Int) :
    List Member → List Member
  | [] => [⟨strAddress, nAmount, some nHeightToRelease⟩]
  | objMember :: rest =>
      if objMember.address = strAddress then
        ⟨strAddress, objMember.amount + nAmount, some nHeightToRelease⟩ :: rest
      else objMember :: addDeposit strAddress nAmount nHeightToRelease rest

/-- The first record of an address, and the others. -/
def takeMember (strAddress : Address) : List Member → Option (Member × List Member)
  | [] => none
  | objMember :: rest =>
      if objMember.address = strAddress then some (objMember, rest)
      else (takeMember strAddress rest).map fun r => (r.1, objMember :: r.2)

namespace Concilium

/-- `_checkDepositJoin`. -/
def checkDepositJoin (value : Amount) (c : Concilium) : Except String Unit :=
  match c.nMinAmountToJoin with
  | none => .ok ()
  | some nMinAmountToJoin =>
      if value < nMinAmountToJoin then .error s!"You should send at least {nMinAmountToJoin}coins"
      else .ok ()

/-- `_addPosConciliumMember`. -/
def addPosConciliumMember (g : Globals) (strAddress : Address) (nAmount : Amount)
    (c : Concilium) : Except String Concilium :=
  if nAmount = 0 then .error "Have no sense to join with zero amount"
  else
    match c.checkDepositJoin nAmount with
    | .error error => .error error
    | .ok () => .ok { c with
        arrMembers := some (addDeposit strAddress nAmount (g.height + HEIGHT_TO_RELEASE_ADD_ON)
          (c.arrMembers.getD [])) }

/-- `_addRrConciliumMember`. -/
def addRrConciliumMember (strAddress : Address) (c : Concilium) : Except String Concilium :=
  if strAddress ∈ c.addresses.getD [] then .error "already joined"
  else .ok { c with addresses := some (c.addresses.getD [] ++ [strAddress]) }

/-- A new member of a concilium of either kind. -/
def addMember (g : Globals) (nAmount : Amount) (strAddress : Address) (c : Concilium) :
    Except String Concilium :=
  match c.type with
  | .CONCILIUM_TYPE_POS => c.addPosConciliumMember g strAddress nAmount
  | .CONCILIUM_TYPE_RR => c.addRrConciliumMember strAddress
  | .unknown => .ok c

/-- `_retirePosConciliumMember`: the record that is paid out, and what is left. -/
def retirePosConciliumMember (g : Globals) (strAddress : Address) (c : Concilium) :
    Except String (Member × Concilium) :=
  match c.arrMembers with
  | none => .error "Cannot read property 'findIndex' of undefined"
  | some arrMembers =>
      match takeMember strAddress arrMembers with
      | none => .error "You arent member"
      | some (objMember, rest) =>
          if objMember.nHeightToRelease.any fun height => (g.height : Int) < height then
            .error "Dont leave us now"
          else .ok (objMember, { c with arrMembers := some rest })

/-- `_retireRrConciliumMember`. -/
def retireRrConciliumMember (strAddress : Address) (c : Concilium) : Except String Concilium :=
  match c.addresses with
  | none => .error "Cannot read property 'findIndex' of undefined"
  | some addresses =>
      if strAddress ∈ addresses then .ok { c with addresses := some (addresses.erase strAddress) }
      else .error "You arent member"

/-- `_getPosHeightToRelease`. -/
def getPosHeightToRelease (strAddress : Option Address) (c : Concilium) :
    Except String (Option Int) :=
  match c.arrMembers with
  | none => .error "Cannot read property 'findIndex' of undefined"
  | some arrMembers =>
      match arrMembers.find? fun objMember => some objMember.address = strAddress with
      | none => .error "You arent member"
      | some objMember => .ok objMember.nHeightToRelease

/-- `_disallowContractCreation`. -/
def disallowContractCreation (c : Concilium) : Concilium :=
  let parameters := c.parameters.getD {}
  { c with parameters := some { parameters with
      fees := { parameters.fees with feeContractCreation := nHighWatermark } } }

end Concilium

/-- The fees after a change. -/
def NewParameters.applyTo (new : NewParameters) (old : Parameters) : Parameters where
  fees := {
    feeTxSize := new.feeTxSize.getD old.fees.feeTxSize
    feeContractCreation := new.feeContractCreation.getD old.fees.feeContractCreation
    feeContractInvocation := new.feeContractInvocation.getD old.fees.feeContractInvocation
    feeStorage := new.feeStorage.getD old.fees.feeStorage
    feeInternalTx := new.feeInternalTx.getD old.fees.feeInternalTx }
  isEnabled := new.isEnabled.or old.isEnabled
  document := new.document.or old.document

/-! ## Methods -/

namespace State

/-- `_checkOwner`. -/
def checkOwner (g : Globals) (st : State) : Except String Unit :=
  match g.callerAddress with
  | none => .error "Sign transaction!"
  | some callerAddress =>
      if st.ownerAddress = some callerAddress then .ok () else .error "Unauthorized call"

/-- `_isOwner`. -/
def isOwner (strAddress : Address) (st : State) : Bool := st.ownerAddress = some strAddress

/-- `_checkCreator`. -/
def checkCreator (g : Globals) (c : Concilium) (strAddress : Address) (st : State) :
    Except String Unit :=
  if c.creator = some strAddress then .ok () else st.checkOwner g

/-- `_checkConciliumId`: the position in the array, and the concilium there. -/
def checkConciliumId (conciliumId : ConciliumId) (st : State) : Except String (Nat × Concilium) :=
  match conciliumId.parsed with
  | none => .error "Bad conciliumId"
  | some nId =>
      if nId > st.arrConciliums.length ∨ nId < 0 then .error "Bad conciliumId"
      else
        match st.arrConciliums[nId.toNat]? with
        | none => .error "Bad conciliumId"
        | some objConcilium => .ok (nId.toNat, objConcilium)

/-- `_checkFeeCreate`. -/
def checkFeeCreate (nFee : Amount) (st : State) : Except String Unit :=
  match st.feeCreate with
  | none => .error "Set _feeCreate first"
  | some feeCreate =>
      if feeCreate = 0 then .error "Set _feeCreate first"
      else if feeCreate > nFee then .error "Not enough funds"
      else .ok ()

/-- `_validateConcilium`. -/
def validateConcilium (g : Globals) (c : Concilium) (st : State) : Except String Concilium :=
  match c.type with
  | .CONCILIUM_TYPE_POS =>
      let arrMembers := c.arrMembers.getD []
      if c.nMinAmountToJoin.getD 0 ≤ 0 then .error "Specify nMinAmountToJoin"
      else if st.feeCreate.getD 0 + (arrMembers.map (·.amount)).sum > g.value then
        .error "Not enough coins were sent co create such concilium"
      else .ok { c with arrMembers := some arrMembers }
  | _ => .ok c

/-- The beginning of most methods: the transaction is signed, and there is no proxy. -/
def signed (g : Globals) (st : State) (k : Address → Outcome) : Outcome :=
  match g.callerAddress with
  | none => .throws "Sign transaction!"
  | some callerAddress =>
      match st.proxyAddress with
      | some proxyAddress => .delegates proxyAddress
      | none => k callerAddress

/-- Change a concilium in place. -/
def modifyConcilium (conciliumId : ConciliumId) (f : Concilium → Except String Concilium)
    (st : State) : Outcome :=
  match st.checkConciliumId conciliumId with
  | .error error => .throws error
  | .ok (index, objConcilium) =>
      match f objConcilium with
      | .error error => .throws error
      | .ok changed =>
          .returns { st with arrConciliums := st.arrConciliums.set index changed }

/-- `createConcilium`. -/
def createConcilium (g : Globals) (objConcilium : Concilium) (st : State) : Outcome :=
  st.signed g fun callerAddress =>
    match st.checkFeeCreate g.value with
    | .error error => .throws error
    | .ok () =>
        match st.validateConcilium g { objConcilium with creator := some callerAddress } with
        | .error error => .throws error
        | .ok objConcilium =>
            let objConcilium :=
              if st.isOwner callerAddress then objConcilium
              else objConcilium.disallowContractCreation
            .returns { st with
              arrConciliums := st.arrConciliums ++ [{ objConcilium with
                conciliumId := some st.arrConciliums.length
                conciliumCreationTx := some g.contractTx
                parameterTXNs := some [] }]
              feeCreate := some nHighWatermark }

/-- `joinConcilium`. -/
def joinConcilium (g : Globals) (conciliumId : ConciliumId) (st : State) : Outcome :=
  st.signed g fun callerAddress =>
    if !conciliumId.truthy then .throws "Invalid concilium"
    else st.modifyConcilium conciliumId fun objConcilium =>
      if !objConcilium.isOpen then
        .error "You cant join this concilium. Ask about invitation"
      else objConcilium.addMember g g.value callerAddress

/-- `leaveConcilium`: the deposit is sent before the record is removed. -/
def leaveConcilium (g : Globals) (conciliumId : ConciliumId) (st : State) : Outcome :=
  st.signed g fun callerAddress =>
    if !conciliumId.truthy then .throws "Invalid concilium"
    else
      match st.checkConciliumId conciliumId with
      | .error error => .throws error
      | .ok (index, objConcilium) =>
          match objConcilium.type with
          | .CONCILIUM_TYPE_POS =>
              match objConcilium.retirePosConciliumMember g callerAddress with
              | .error error => .throws error
              | .ok (objMember, changed) =>
                  .pays objMember.address objMember.amount
                    { st with arrConciliums := st.arrConciliums.set index changed }
          | .CONCILIUM_TYPE_RR =>
              match objConcilium.retireRrConciliumMember callerAddress with
              | .error error => .throws error
              | .ok changed =>
                  .returns { st with arrConciliums := st.arrConciliums.set index changed }
          | .unknown => .returns st

/-- `inviteToConcilium`: the coins of the call are shared by the addresses. -/
def inviteToConcilium (g : Globals) (conciliumId : ConciliumId) (arrAddresses : List Address)
    (st : State) : Outcome :=
  st.signed g fun callerAddress =>
    st.modifyConcilium conciliumId fun objConcilium =>
      match st.checkCreator g objConcilium callerAddress with
      | .error error => .error error
      | .ok () =>
          if objConcilium.isOpen then .error "This concilium is open, just join it"
          else arrAddresses.foldlM
            (fun objConcilium strAddress =>
              objConcilium.addMember g (g.value / arrAddresses.length) strAddress) objConcilium

/-- `setFeeCreate`. -/
def setFeeCreate (g : Globals) (nFeeNew : Option Amount) (st : State) : Outcome :=
  match st.checkOwner g with
  | .error error => .throws error
  | .ok () => .returns { st with feeCreate := nFeeNew }

/-- `setProxy`, with `none` for something that is no address. -/
def setProxy (g : Globals) (strNewAddress : Option Address) (st : State) : Outcome :=
  match strNewAddress with
  | none => .throws "Bad address"
  | some strNewAddress =>
      match st.checkOwner g with
      | .error error => .throws error
      | .ok () => .returns { st with proxyAddress := some strNewAddress }

/-- `getHeightToRelease`. Only the state it leaves counts here. -/
def getHeightToRelease (g : Globals) (conciliumId : ConciliumId) (st : State) : Outcome :=
  match st.proxyAddress with
  | some proxyAddress => .delegates proxyAddress
  | none =>
      st.modifyConcilium conciliumId fun objConcilium =>
        if objConcilium.type ≠ .CONCILIUM_TYPE_POS then
          .error "this method only for CONCILIUM_TYPE_POS"
        else (objConcilium.getPosHeightToRelease g.callerAddress).map fun _ => objConcilium

/-- `changeConciliumParameters`. -/
def changeConciliumParameters (g : Globals) (conciliumId : ConciliumId)
    (objNewParameters : NewParameters) (st : State) : Outcome :=
  st.signed g fun callerAddress =>
    st.modifyConcilium conciliumId fun objConcilium =>
      match st.checkCreator g objConcilium callerAddress with
      | .error error => .error error
      | .ok () =>
          match objConcilium.parameters with
          | none => .error "Cannot set property 'fees' of undefined"
          | some parameters =>
              let objConcilium :=
                { objConcilium with parameters := some (objNewParameters.applyTo parameters) }
              let objConcilium :=
                if st.isOwner callerAddress then objConcilium
                else objConcilium.disallowContractCreation
              .ok { objConcilium with
                parameterTXNs := some (objConcilium.parameterTXNs.getD [] ++ [g.contractTx]) }

end State

/-- The methods that can be called, with their arguments. -/
inductive Method where
  | createConcilium (objConcilium : Concilium)
  | joinConcilium (conciliumId : ConciliumId)
  | leaveConcilium (conciliumId : ConciliumId)
  | inviteToConcilium (conciliumId : ConciliumId) (arrAddresses : List Address)
  | setFeeCreate (nFeeNew : Option Amount)
  | setProxy (strNewAddress : Option Address)
  | getHeightToRelease (conciliumId : ConciliumId)
  | changeConciliumParameters (conciliumId : ConciliumId) (objNewParameters : NewParameters)

/-- Run a method on the data of the contract. -/
def Method.run (g : Globals) (st : State) : Method → Outcome
  | .createConcilium objConcilium => st.createConcilium g objConcilium
  | .joinConcilium conciliumId => st.joinConcilium g conciliumId
  | .leaveConcilium conciliumId => st.leaveConcilium g conciliumId
  | .inviteToConcilium conciliumId arrAddresses => st.inviteToConcilium g conciliumId arrAddresses
  | .setFeeCreate nFeeNew => st.setFeeCreate g nFeeNew
  | .setProxy strNewAddress => st.setProxy g strNewAddress
  | .getHeightToRelease conciliumId => st.getHeightToRelease g conciliumId
  | .changeConciliumParameters conciliumId objNewParameters =>
      st.changeConciliumParameters g conciliumId objNewParameters

/-- The constructor. The price of a concilium is set only if it is given. -/
def construct (g : Globals) (objInitialConcilium : Option Concilium) (nFeeCreate : Option Amount) :
    Except String State :=
  match objInitialConcilium with
  | none => .error "Specify initial objInitialConcilium"
  | some objInitialConcilium =>
      let st : State := {
        ownerAddress := g.callerAddress
        arrConciliums := [{ objInitialConcilium with conciliumCreationTx := some g.contractTx }] }
      if nFeeCreate.getD 0 = 0 then .ok st
      else
        match st.checkOwner g with
        | .error error => .error error
        | .ok () => .ok { st with feeCreate := nFeeCreate }

/-! ## Deposits -/

namespace Concilium

/-- What the contract may have to pay back to the members of a concilium. -/
def deposits (c : Concilium) : Amount :=
  if c.type = .CONCILIUM_TYPE_POS then ((c.arrMembers.getD []).map (·.amount)).sum else 0

/-- What a member gets back next. -/
def depositOf (strAddress : Address) (c : Concilium) : Amount :=
  if c.type = .CONCILIUM_TYPE_POS then
    (((c.arrMembers.getD []).find? (·.address = strAddress)).map (·.amount)).getD 0
  else 0

/-- No record says that a member owes coins. -/
def Nonneg (c : Concilium) : Prop :=
  c.type = .CONCILIUM_TYPE_POS → ∀ objMember ∈ c.arrMembers.getD [], 0 ≤ objMember.amount

/-- A concilium becomes another with so much more in deposits. No deposit shrinks. -/
structure Credits (c c' : Concilium) (amount : Amount) : Prop where
  type : c'.type = c.type
  deposits : c'.deposits = c.deposits + amount
  nonneg : c.Nonneg → c'.Nonneg
  depositOf : c.Nonneg → ∀ strAddress, c.depositOf strAddress ≤ c'.depositOf strAddress

theorem depositOf_nonneg {c : Concilium} (h : c.Nonneg) (strAddress : Address) :
    0 ≤ c.depositOf strAddress := by
  unfold depositOf
  split
  next htype =>
    cases hfind : (c.arrMembers.getD []).find? (·.address = strAddress) with
    | none => simp
    | some objMember => simpa using h htype objMember (List.mem_of_find?_eq_some hfind)
  next => exact le_rfl

theorem deposits_nonneg {c : Concilium} (h : c.Nonneg) : 0 ≤ c.deposits := by
  unfold deposits
  split
  next htype =>
    refine List.sum_nonneg fun amount hamount => ?_
    obtain ⟨objMember, hmem, rfl⟩ := List.mem_map.mp hamount
    exact h htype objMember hmem
  next => exact le_rfl

theorem Credits.refl (c : Concilium) : c.Credits c 0 :=
  ⟨rfl, (add_zero _).symm, id, fun _ _ => le_rfl⟩

theorem Credits.trans {c c' c'' : Concilium} {amount amount' : Amount} (h : c.Credits c' amount)
    (h' : c'.Credits c'' amount') : c.Credits c'' (amount + amount') where
  type := h'.type.trans h.type
  deposits := by rw [h'.deposits, h.deposits, add_assoc]
  nonneg := fun hc => h'.nonneg (h.nonneg hc)
  depositOf := fun hc strAddress =>
    (h.depositOf hc strAddress).trans (h'.depositOf (h.nonneg hc) strAddress)

/-- What does not touch the kind and the members changes no deposit. -/
theorem Credits.of_eq {c c' : Concilium} (htype : c'.type = c.type)
    (hmembers : c'.arrMembers = c.arrMembers) : c.Credits c' 0 where
  type := htype
  deposits := by simp [Concilium.deposits, htype, hmembers]
  nonneg := by simp [Nonneg, htype, hmembers]
  depositOf := by simp [Concilium.depositOf, htype, hmembers]

end Concilium

section Members

variable {strAddress other : Address} {nAmount : Amount} {nHeightToRelease : Int}
  {arrMembers rest : List Member} {objMember : Member}

theorem sum_addDeposit :
    ((addDeposit strAddress nAmount nHeightToRelease arrMembers).map (·.amount)).sum =
      (arrMembers.map (·.amount)).sum + nAmount := by
  induction arrMembers with
  | nil => simp [addDeposit]
  | cons objMember rest ih =>
      rw [addDeposit]
      split
      · simp only [List.map_cons, List.sum_cons]
        ring
      · simp only [List.map_cons, List.sum_cons, ih]
        ring

theorem nonneg_addDeposit (hamount : 0 ≤ nAmount) (h : ∀ m ∈ arrMembers, 0 ≤ m.amount) :
    ∀ m ∈ addDeposit strAddress nAmount nHeightToRelease arrMembers, 0 ≤ m.amount := by
  induction arrMembers with
  | nil => simpa [addDeposit] using hamount
  | cons objMember rest ih =>
      rw [List.forall_mem_cons] at h
      rw [addDeposit]
      split
      · exact List.forall_mem_cons.mpr ⟨add_nonneg h.1 hamount, h.2⟩
      · exact List.forall_mem_cons.mpr ⟨h.1, ih h.2⟩

/-- The first record of every address has at least the amount that it had. -/
theorem find_addDeposit (hamount : 0 ≤ nAmount) (other : Address) :
    ((arrMembers.find? (·.address = other)).map (·.amount)).getD 0 ≤
      (((addDeposit strAddress nAmount nHeightToRelease arrMembers).find?
        (·.address = other)).map (·.amount)).getD 0 := by
  induction arrMembers with
  | nil =>
      by_cases heq : strAddress = other
      · simpa [addDeposit, heq] using hamount
      · simp [addDeposit, heq]
  | cons objMember rest ih =>
      rw [addDeposit]
      by_cases hother : objMember.address = other
      · split
        next hsame => simpa [hother, ← hsame] using hamount
        next => simp [hother]
      · split
        next hsame => simp [hother, ← hsame]
        next => simpa [hother] using ih

/-- What is taken out is the first record of that address. The amounts are split, and the
first records of other addresses stay. -/
theorem takeMember_spec (h : takeMember strAddress arrMembers = some (objMember, rest)) :
    arrMembers.find? (·.address = strAddress) = some objMember ∧
      (arrMembers.map (·.amount)).sum = objMember.amount + (rest.map (·.amount)).sum ∧
      (∀ m ∈ rest, m ∈ arrMembers) ∧
      ∀ other ≠ strAddress,
        rest.find? (·.address = other) = arrMembers.find? (·.address = other) := by
  induction arrMembers generalizing rest with
  | nil => simp [takeMember] at h
  | cons first others ih =>
      rw [takeMember] at h
      split at h
      next hfirst =>
        cases h
        refine ⟨by simp [hfirst], by simp, by simp +contextual, fun other hne => ?_⟩
        simp [hfirst, hne.symm]
      next hfirst =>
        obtain ⟨⟨found, left⟩, htake, heq⟩ := Option.map_eq_some_iff.mp h
        cases heq
        obtain ⟨hfind, hsum, hrest, hothers⟩ := ih htake
        refine ⟨by simp [hfirst, hfind], ?_, ?_, fun other hne => ?_⟩
        · simp only [List.map_cons, List.sum_cons, hsum]
          ring
        · rw [List.forall_mem_cons]
          exact ⟨by simp, fun m hm => by simp [hrest m hm]⟩
        · simp only [List.find?_cons, hothers other hne]

/-- Who has a record can be taken out. -/
theorem exists_takeMember (h : arrMembers.find? (·.address = strAddress) = some objMember) :
    ∃ rest, takeMember strAddress arrMembers = some (objMember, rest) := by
  induction arrMembers with
  | nil => simp at h
  | cons first others ih =>
      rw [takeMember]
      by_cases hfirst : first.address = strAddress
      · simp only [List.find?_cons, hfirst, decide_true, Option.some.injEq] at h
        exact ⟨others, by rw [if_pos hfirst, h]⟩
      · obtain ⟨rest, htake⟩ := ih (by simpa [hfirst] using h)
        exact ⟨first :: rest, by rw [if_neg hfirst, htake, Option.map_some]⟩

end Members

section NewMembers

variable {g : Globals} {c c' : Concilium} {nAmount : Amount} {strAddress : Address}

/-- What a new member brings: coins, where members have deposits. -/
def Concilium.share (nAmount : Amount) (c : Concilium) : Amount :=
  if c.type = .CONCILIUM_TYPE_POS then nAmount else 0

theorem Concilium.credits_addPosConciliumMember (htype : c.type = .CONCILIUM_TYPE_POS)
    (hamount : 0 ≤ nAmount) (h : c.addPosConciliumMember g strAddress nAmount = .ok c') :
    c.Credits c' nAmount := by
  unfold addPosConciliumMember at h
  split at h
  · cases h
  · split at h
    · cases h
    · cases h
      refine ⟨rfl, ?_, fun hnonneg _ => ?_, fun _ other => ?_⟩
      · simp only [deposits, htype, if_true, Option.getD_some, sum_addDeposit]
      · exact nonneg_addDeposit hamount (hnonneg htype)
      · simp only [depositOf, htype, if_true, Option.getD_some]
        exact find_addDeposit hamount other

theorem Concilium.credits_addMember (hamount : 0 ≤ nAmount)
    (h : c.addMember g nAmount strAddress = .ok c') : c.Credits c' (c.share nAmount) := by
  unfold addMember at h
  cases htype : c.type with
  | CONCILIUM_TYPE_POS =>
      rw [htype] at h
      simpa [share, htype] using credits_addPosConciliumMember htype hamount h
  | CONCILIUM_TYPE_RR =>
      rw [htype] at h
      change c.addRrConciliumMember strAddress = .ok c' at h
      unfold addRrConciliumMember at h
      have hshare : c.share nAmount = 0 := by simp [share, htype]
      rw [hshare]
      split at h
      · cases h
      · cases h
        exact Credits.of_eq rfl rfl
  | unknown =>
      simp only [htype] at h
      cases h
      simpa [share, htype] using Credits.refl c

/-- Members that are invited together bring their shares together. -/
theorem Concilium.credits_addMembers (hamount : 0 ≤ nAmount) {arrAddresses : List Address}
    (h : arrAddresses.foldlM (fun c strAddress => Concilium.addMember g nAmount strAddress c) c =
      .ok c') : c.Credits c' (arrAddresses.length * c.share nAmount) := by
  induction arrAddresses generalizing c with
  | nil =>
      cases h
      simpa using Credits.refl _
  | cons strAddress rest ih =>
      rw [List.foldlM_cons] at h
      cases hfirst : c.addMember g nAmount strAddress with
      | error error => simp [hfirst, bind, Except.bind] at h
      | ok first =>
          rw [hfirst] at h
          have hcredits := credits_addMember hamount hfirst
          have hrest := hcredits.trans (ih h)
          have hshare : first.share nAmount = c.share nAmount := by
            simp only [share, hcredits.type]
          rw [hshare] at hrest
          have hsum : c.share nAmount + rest.length * c.share nAmount =
              ((strAddress :: rest).length : Amount) * c.share nAmount := by
            push_cast [List.length_cons]
            ring
          rwa [hsum] at hrest

end NewMembers

namespace State

/-- All deposits. -/
def deposits (st : State) : Amount := (st.arrConciliums.map (·.deposits)).sum

/-- What a member of a concilium gets back next. -/
def depositOf (index : Nat) (strAddress : Address) (st : State) : Amount :=
  (st.arrConciliums[index]?.map (·.depositOf strAddress)).getD 0

/-- Nobody owes coins to the contract, and a new concilium does not earn any. -/
structure Nonneg (st : State) : Prop where
  conciliums : ∀ c ∈ st.arrConciliums, c.Nonneg
  feeCreate : 0 ≤ st.feeCreate.getD 0

/-- A state becomes another with so much more in deposits. No deposit shrinks. -/
structure Credits (st st' : State) (amount : Amount) : Prop where
  proxyAddress : st'.proxyAddress = st.proxyAddress
  deposits : st'.deposits = st.deposits + amount
  nonneg : st.Nonneg → st'.Nonneg
  depositOf : st.Nonneg → ∀ index strAddress,
    st.depositOf index strAddress ≤ st'.depositOf index strAddress

variable {g : Globals} {st st' : State} {index : Nat} {c c' : Concilium} {amount : Amount}

/-- One concilium is replaced. -/
theorem deposits_set (hc : st.arrConciliums[index]? = some c) :
    ({ st with arrConciliums := st.arrConciliums.set index c' } : State).deposits =
      st.deposits + (c'.deposits - c.deposits) := by
  obtain ⟨hlt, hget⟩ := List.getElem?_eq_some_iff.mp hc
  simp only [deposits, List.map_set, List.sum_set', List.length_map, hlt, dif_pos,
    List.getElem_map, hget]
  ring

theorem depositOf_set (hc : st.arrConciliums[index]? = some c) (i : Nat) (strAddress : Address) :
    ({ st with arrConciliums := st.arrConciliums.set index c' } : State).depositOf i strAddress =
      if i = index then c'.depositOf strAddress else st.depositOf i strAddress := by
  obtain ⟨hlt, hget⟩ := List.getElem?_eq_some_iff.mp hc
  unfold depositOf
  by_cases hi : i = index
  · simp [hi, hlt]
  · simp [hi, List.getElem?_set_ne (Ne.symm hi)]

theorem nonneg_set (hc' : c'.Nonneg) (h : st.Nonneg) :
    ({ st with arrConciliums := st.arrConciliums.set index c' } : State).Nonneg where
  conciliums := fun d hd => by
    rcases List.mem_or_eq_of_mem_set hd with hold | rfl
    · exact h.conciliums d hold
    · exact hc'
  feeCreate := h.feeCreate

theorem Credits.of_concilium (hc : st.arrConciliums[index]? = some c) (h : c.Credits c' amount) :
    st.Credits { st with arrConciliums := st.arrConciliums.set index c' } amount where
  proxyAddress := rfl
  deposits := by rw [deposits_set hc, h.deposits, add_sub_cancel_left]
  nonneg := fun hst => nonneg_set (h.nonneg (hst.conciliums c (List.mem_of_getElem? hc))) hst
  depositOf := fun hst i strAddress => by
    rw [depositOf_set hc]
    split
    next hi =>
      subst hi
      simpa [State.depositOf, hc] using
        h.depositOf (hst.conciliums c (List.mem_of_getElem? hc)) strAddress
    next => exact le_rfl

/-! ### What methods do to deposits -/

theorem checkConciliumId_ok {conciliumId : ConciliumId}
    (h : st.checkConciliumId conciliumId = .ok (index, c)) :
    conciliumId.parsed = some (index : Int) ∧ st.arrConciliums[index]? = some c := by
  unfold checkConciliumId at h
  split at h
  · cases h
  · split at h
    · cases h
    next nId hparsed hrange =>
      split at h
      · cases h
      next objConcilium hget =>
        cases h
        refine ⟨?_, hget⟩
        rw [hparsed]
        congr
        omega

theorem modifyConcilium_returns {conciliumId : ConciliumId}
    {f : Concilium → Except String Concilium}
    (h : st.modifyConcilium conciliumId f = .returns st') :
    ∃ index c c', st.arrConciliums[index]? = some c ∧ f c = .ok c' ∧
      st' = { st with arrConciliums := st.arrConciliums.set index c' } := by
  unfold modifyConcilium at h
  split at h
  · cases h
  next index c hcheck =>
    split at h
    · cases h
    next c' hf =>
      cases h
      exact ⟨index, c, c', (checkConciliumId_ok hcheck).2, hf, rfl⟩

/-- A method that changes a concilium adds what the change adds. -/
theorem credits_modifyConcilium {conciliumId : ConciliumId} {P : Amount → Prop}
    {f : Concilium → Except String Concilium}
    (hf : ∀ c c', f c = .ok c' → ∃ amount, P amount ∧ c.Credits c' amount)
    (h : st.modifyConcilium conciliumId f = .returns st') :
    ∃ amount, P amount ∧ st.Credits st' amount := by
  obtain ⟨index, c, c', hget, hok, rfl⟩ := modifyConcilium_returns h
  obtain ⟨amount, hP, hcredits⟩ := hf c c' hok
  exact ⟨amount, hP, .of_concilium hget hcredits⟩

theorem signed_of_proxy (hproxy : st.proxyAddress = none) {k : Address → Outcome} :
    (∃ callerAddress, g.callerAddress = some callerAddress ∧ st.signed g k = k callerAddress) ∨
      ∃ message, st.signed g k = .throws message := by
  unfold signed
  cases hcaller : g.callerAddress with
  | none => exact .inr ⟨_, rfl⟩
  | some callerAddress => exact .inl ⟨callerAddress, rfl, by rw [hproxy]⟩

theorem credits_joinConcilium (hproxy : st.proxyAddress = none) (hvalue : 0 ≤ g.value)
    {conciliumId : ConciliumId} (h : st.joinConcilium g conciliumId = .returns st') :
    ∃ amount ≤ g.value, st.Credits st' amount := by
  unfold joinConcilium at h
  rcases signed_of_proxy hproxy with ⟨callerAddress, -, hsigned⟩ | ⟨message, hsigned⟩
  · rw [hsigned] at h
    split at h
    · cases h
    · refine credits_modifyConcilium (fun c c' hf => ?_) h
      split at hf
      · cases hf
      · refine ⟨_, ?_, Concilium.credits_addMember hvalue hf⟩
        unfold Concilium.share
        split
        · exact le_rfl
        · exact hvalue
  · rw [hsigned] at h
    cases h

theorem credits_inviteToConcilium (hproxy : st.proxyAddress = none) (hvalue : 0 ≤ g.value)
    {conciliumId : ConciliumId} {arrAddresses : List Address}
    (h : st.inviteToConcilium g conciliumId arrAddresses = .returns st') :
    ∃ amount ≤ g.value, st.Credits st' amount := by
  unfold inviteToConcilium at h
  rcases signed_of_proxy hproxy with ⟨callerAddress, -, hsigned⟩ | ⟨message, hsigned⟩
  · rw [hsigned] at h
    refine credits_modifyConcilium (fun c c' hf => ?_) h
    split at hf
    · cases hf
    · split at hf
      · cases hf
      · refine ⟨_, ?_, Concilium.credits_addMembers (by positivity) hf⟩
        unfold Concilium.share
        split
        · rcases arrAddresses.length.eq_zero_or_pos with hzero | hpos
          · simpa [hzero] using hvalue
          · apply le_of_eq
            field_simp
        · simpa using hvalue
  · rw [hsigned] at h
    cases h

theorem credits_getHeightToRelease (hproxy : st.proxyAddress = none) {conciliumId : ConciliumId}
    (h : st.getHeightToRelease g conciliumId = .returns st') : st.Credits st' 0 := by
  rw [getHeightToRelease, hproxy] at h
  have hcredits : ∃ amount, amount = 0 ∧ st.Credits st' amount := by
    refine credits_modifyConcilium (fun c c' hf => ?_) h
    split at hf
    · cases hf
    · cases hheight : c.getPosHeightToRelease g.callerAddress with
      | error error => simp [hheight, Except.map] at hf
      | ok height =>
          simp only [hheight, Except.map, Except.ok.injEq] at hf
          subst hf
          exact ⟨0, rfl, .refl c⟩
  obtain ⟨amount, rfl, hcredits⟩ := hcredits
  exact hcredits

theorem credits_changeConciliumParameters (hproxy : st.proxyAddress = none)
    {conciliumId : ConciliumId} {objNewParameters : NewParameters}
    (h : st.changeConciliumParameters g conciliumId objNewParameters = .returns st') :
    st.Credits st' 0 := by
  unfold changeConciliumParameters at h
  rcases signed_of_proxy hproxy with ⟨callerAddress, -, hsigned⟩ | ⟨message, hsigned⟩
  · rw [hsigned] at h
    have hcredits : ∃ amount, amount = 0 ∧ st.Credits st' amount := by
      refine credits_modifyConcilium (fun c c' hf => ?_) h
      split at hf
      · cases hf
      · split at hf
        · cases hf
        · cases hf
          refine ⟨0, rfl, .of_eq ?_ ?_⟩
          · dsimp only
            split <;> rfl
          · dsimp only
            split <;> rfl
    obtain ⟨amount, rfl, hcredits⟩ := hcredits
    exact hcredits
  · rw [hsigned] at h
    cases h

theorem validateConcilium_ok (h : st.validateConcilium g c = .ok c') :
    c'.type = c.type ∧ c'.arrMembers.getD [] = c.arrMembers.getD [] ∧
      (c.type = .CONCILIUM_TYPE_POS →
        st.feeCreate.getD 0 + ((c.arrMembers.getD []).map (·.amount)).sum ≤ g.value) := by
  unfold validateConcilium at h
  split at h
  next htype =>
    dsimp only at h
    split at h
    · cases h
    · split at h
      · cases h
      next hless =>
        cases h
        exact ⟨rfl, rfl, fun _ => not_lt.mp hless⟩
  next hother =>
    cases h
    exact ⟨rfl, rfl, fun htype => absurd htype hother⟩

/-- A concilium is appended. -/
theorem Credits.of_created {d : Concilium} {feeCreate : Option Amount} (hd : d.Nonneg)
    (hfee : 0 ≤ feeCreate.getD 0) :
    st.Credits { st with arrConciliums := st.arrConciliums ++ [d], feeCreate } d.deposits where
  proxyAddress := rfl
  deposits := by simp [State.deposits]
  nonneg := fun hst => {
    conciliums := fun e he => by
      rcases List.mem_append.mp he with hold | hnew
      · exact hst.conciliums e hold
      · rwa [List.mem_singleton.mp hnew]
    feeCreate := hfee }
  depositOf := fun _ index strAddress => by
    by_cases hlt : index < st.arrConciliums.length
    · simp [State.depositOf, List.getElem?_append_left hlt]
    · have hnone : st.arrConciliums[index]? = none := by simpa using hlt
      simp only [State.depositOf, hnone, Option.map_none, Option.getD_none]
      cases hget : (st.arrConciliums ++ [d])[index]? with
      | none => simp
      | some e =>
          have he : e = d := by
            rw [List.getElem?_append_right (by omega)] at hget
            simpa using List.mem_of_getElem? hget
          subst he
          simpa using Concilium.depositOf_nonneg hd strAddress

/-- A new concilium starts with what its creator has listed and paid for. -/
theorem credits_createConcilium (hproxy : st.proxyAddress = none) (hvalue : 0 ≤ g.value)
    (hst : st.Nonneg) (hc : c.Nonneg) (h : st.createConcilium g c = .returns st') :
    ∃ amount ≤ g.value, st.Credits st' amount := by
  unfold createConcilium at h
  rcases signed_of_proxy hproxy with ⟨callerAddress, -, hsigned⟩ | ⟨message, hsigned⟩
  · rw [hsigned] at h
    split at h
    · cases h
    · split at h
      · cases h
      next valid hvalid =>
        obtain ⟨htype, hmembers, hpaid⟩ := validateConcilium_ok hvalid
        cases h
        refine ⟨_, ?_, .of_created ?_ (by simp [nHighWatermark])⟩
        · have hdeposits : ∀ d : Concilium, d.type = valid.type → d.arrMembers = valid.arrMembers →
              d.deposits ≤ g.value := by
            intro d hd hdmembers
            unfold Concilium.deposits
            split
            next hpos =>
              rw [hdmembers, hmembers]
              linarith [hpaid (htype ▸ hd ▸ hpos), hst.feeCreate]
            next => exact hvalue
          apply hdeposits
          · dsimp only
            split <;> rfl
          · dsimp only
            split <;> rfl
        · have hnonneg : ∀ d : Concilium, d.type = valid.type → d.arrMembers = valid.arrMembers →
              d.Nonneg := by
            intro d hd hdmembers hpos
            rw [hdmembers, hmembers]
            exact hc (htype ▸ hd ▸ hpos)
          apply hnonneg
          · dsimp only
            split <;> rfl
          · dsimp only
            split <;> rfl
  · rw [hsigned] at h
    cases h

theorem Nonneg.deposits_nonneg (h : st.Nonneg) : 0 ≤ st.deposits := by
  refine List.sum_nonneg fun amount hamount => ?_
  obtain ⟨c, hc, rfl⟩ := List.mem_map.mp hamount
  exact Concilium.deposits_nonneg (h.conciliums c hc)

theorem Nonneg.depositOf_nonneg (h : st.Nonneg) (index : Nat) (strAddress : Address) :
    0 ≤ st.depositOf index strAddress := by
  unfold depositOf
  cases hget : st.arrConciliums[index]? with
  | none => simp
  | some c =>
      simpa using Concilium.depositOf_nonneg (h.conciliums c (List.mem_of_getElem? hget)) strAddress

theorem checkConciliumId_eq {conciliumId : ConciliumId}
    (hparsed : conciliumId.parsed = some (index : Int))
    (hget : st.arrConciliums[index]? = some c) :
    st.checkConciliumId conciliumId = .ok (index, c) := by
  obtain ⟨hlt, -⟩ := List.getElem?_eq_some_iff.mp hget
  rw [checkConciliumId, hparsed]
  dsimp only
  rw [if_neg (by omega), Int.toNat_natCast, hget]

/-- A deposit is taken out: the rest is as before. -/
structure Debits (st st' : State) (index : Nat) (strAddress : Address) (amount : Amount) : Prop where
  proxyAddress : st'.proxyAddress = st.proxyAddress
  deposits : st'.deposits = st.deposits - amount
  nonneg : st.Nonneg → st'.Nonneg
  depositOf : st.depositOf index strAddress = amount
  others : ∀ i other, ¬(i = index ∧ other = strAddress) →
    st'.depositOf i other = st.depositOf i other

theorem retirePosConciliumMember_ok {strAddress : Address} {objMember : Member}
    (h : c.retirePosConciliumMember g strAddress = .ok (objMember, c')) :
    ∃ arrMembers rest, c.arrMembers = some arrMembers ∧
      takeMember strAddress arrMembers = some (objMember, rest) ∧
      c' = { c with arrMembers := some rest } ∧
      objMember.nHeightToRelease.all fun height => height ≤ (g.height : Int) := by
  unfold Concilium.retirePosConciliumMember at h
  split at h
  · cases h
  next arrMembers hmembers =>
    split at h
    · cases h
    next found rest htake =>
      split at h
      · cases h
      next hheight =>
        cases h
        refine ⟨arrMembers, rest, hmembers, htake, rfl, ?_⟩
        cases hrelease : objMember.nHeightToRelease with
        | none => simp
        | some height => simpa [hrelease] using hheight

theorem Debits.of_concilium {strAddress : Address} {objMember : Member}
    (hc : st.arrConciliums[index]? = some c) (htype : c.type = .CONCILIUM_TYPE_POS)
    (h : c.retirePosConciliumMember g strAddress = .ok (objMember, c')) :
    st.Debits { st with arrConciliums := st.arrConciliums.set index c' } index strAddress
      objMember.amount := by
  obtain ⟨arrMembers, rest, hmembers, htake, rfl, -⟩ := retirePosConciliumMember_ok h
  obtain ⟨hfind, hsum, hrest, hothers⟩ := takeMember_spec htake
  refine ⟨rfl, ?_, fun hst => ?_, ?_, fun i other hne => ?_⟩
  · rw [deposits_set hc]
    simp only [Concilium.deposits, htype, hmembers, if_true, Option.getD_some, hsum]
    ring
  · refine nonneg_set (fun _ m hm => ?_) hst
    have hold := hst.conciliums c (List.mem_of_getElem? hc) htype
    rw [hmembers, Option.getD_some] at hold
    exact hold m (hrest m (by simpa using hm))
  · simp [State.depositOf, hc, Concilium.depositOf, htype, hmembers, hfind]
  · rw [depositOf_set hc]
    split
    next hi =>
      subst hi
      have hother : other ≠ strAddress := fun heq => hne ⟨rfl, heq⟩
      simp [State.depositOf, hc, Concilium.depositOf, htype, hmembers, hothers other hother]
    next => rfl

theorem leaveConcilium_cases (hproxy : st.proxyAddress = none) (conciliumId : ConciliumId) :
    (∃ message, st.leaveConcilium g conciliumId = .throws message) ∨
      (∃ st', st.leaveConcilium g conciliumId = .returns st' ∧ st.Credits st' 0) ∨
      ∃ (index : Nat) (strAddress : Address) (amount : Amount) (st' : State),
        g.callerAddress = some strAddress ∧
        conciliumId.parsed = some (index : Int) ∧
        st.leaveConcilium g conciliumId = .pays strAddress amount st' ∧
        st.Debits st' index strAddress amount := by
  unfold leaveConcilium
  rcases signed_of_proxy hproxy with ⟨callerAddress, hcaller, hsigned⟩ | ⟨message, hsigned⟩
  · rw [hsigned]
    split
    · exact .inl ⟨_, rfl⟩
    · split
      · exact .inl ⟨_, rfl⟩
      next index c hcheck =>
        obtain ⟨hparsed, hget⟩ := checkConciliumId_ok hcheck
        split
        next htype =>
          split
          · exact .inl ⟨_, rfl⟩
          next objMember changed hretire =>
            obtain ⟨arrMembers, rest, -, htake, -, -⟩ := retirePosConciliumMember_ok hretire
            have haddress : objMember.address = callerAddress := by
              simpa using List.find?_some (takeMember_spec htake).1
            exact .inr (.inr ⟨index, callerAddress, objMember.amount, _, hcaller, hparsed,
              by rw [haddress], .of_concilium hget htype hretire⟩)
        next htype =>
          split
          · exact .inl ⟨_, rfl⟩
          next changed hretire =>
            refine .inr (.inl ⟨_, rfl, .of_concilium hget (.of_eq ?_ ?_)⟩)
            all_goals
              unfold Concilium.retireRrConciliumMember at hretire
              split at hretire
              · cases hretire
              · split at hretire
                · cases hretire
                  rfl
                · cases hretire
        next => exact .inr (.inl ⟨st, rfl, ⟨rfl, (add_zero _).symm, id, fun _ _ _ => le_rfl⟩⟩)
  · exact .inl ⟨message, hsigned⟩

end State

/-- An outcome that moves no coins and asks no other contract. -/
def Outcome.Plain : Outcome → Prop
  | .throws _ => True
  | .returns _ => True
  | .pays _ _ _ => False
  | .delegates _ => False

theorem plain_modifyConcilium (conciliumId : ConciliumId) (f : Concilium → Except String Concilium)
    (st : State) : (st.modifyConcilium conciliumId f).Plain := by
  unfold State.modifyConcilium
  split
  · trivial
  · split <;> trivial

theorem plain_signed {g : Globals} {st : State} (hproxy : st.proxyAddress = none)
    {k : Address → Outcome} (hk : ∀ callerAddress, (k callerAddress).Plain) :
    (st.signed g k).Plain := by
  rcases State.signed_of_proxy (g := g) hproxy with ⟨callerAddress, -, h⟩ | ⟨message, h⟩
  · rw [h]
    exact hk callerAddress
  · rw [h]
    trivial

namespace Method

/-- What callers are expected not to ask for: a price below zero, records below zero, and
handing the contract to a proxy. -/
def Fair : Method → Prop
  | .createConcilium objConcilium => objConcilium.Nonneg
  | .setFeeCreate nFeeNew => 0 ≤ nFeeNew.getD 0
  | .setProxy _ => False
  | _ => True

variable {g : Globals} {st : State} {method : Method}

/-- **What a method does.** Without a proxy it throws, or adds deposits that the coins of
the call cover, or it is the leaving of a member, who is sent the deposit. -/
theorem run_cases (hproxy : st.proxyAddress = none) (hvalue : 0 ≤ g.value) (hst : st.Nonneg)
    (hfair : method.Fair) :
    (∃ message, method.run g st = .throws message) ∨
      (∃ st' amount, method.run g st = .returns st' ∧ amount ≤ g.value ∧ st.Credits st' amount) ∨
      ∃ (conciliumId : ConciliumId) (index : Nat) (strAddress : Address) (amount : Amount)
          (st' : State), method = .leaveConcilium conciliumId ∧
        conciliumId.parsed = some (index : Int) ∧ g.callerAddress = some strAddress ∧
        method.run g st = .pays strAddress amount st' ∧
        st.Debits st' index strAddress amount := by
  have hplain : ∀ {outcome : Outcome}, outcome.Plain →
      (∀ st', outcome = .returns st' → ∃ amount ≤ g.value, st.Credits st' amount) →
      (∃ message, outcome = .throws message) ∨
        ∃ st' amount, outcome = .returns st' ∧ amount ≤ g.value ∧ st.Credits st' amount := by
    intro outcome h hcredits
    cases outcome with
    | throws message => exact .inl ⟨message, rfl⟩
    | returns st' =>
        obtain ⟨amount, hle, hst'⟩ := hcredits st' rfl
        exact .inr ⟨st', amount, rfl, hle, hst'⟩
    | pays strAddress amount st' => exact h.elim
    | delegates strAddress => exact h.elim
  cases method with
  | createConcilium objConcilium =>
      refine (hplain (plain_signed hproxy fun callerAddress => ?_) fun st' h =>
        State.credits_createConcilium hproxy hvalue hst hfair h).imp_right .inl
      split
      · trivial
      · split <;> trivial
  | joinConcilium conciliumId =>
      refine (hplain (plain_signed hproxy fun callerAddress => ?_) fun st' h =>
        State.credits_joinConcilium hproxy hvalue h).imp_right .inl
      split
      · trivial
      · exact plain_modifyConcilium _ _ _
  | leaveConcilium conciliumId =>
      rcases State.leaveConcilium_cases (g := g) hproxy conciliumId with h | ⟨st', h, hst'⟩ |
        ⟨index, strAddress, amount, st', hcaller, hparsed, h, hst'⟩
      · exact .inl h
      · exact .inr (.inl ⟨st', 0, h, hvalue, hst'⟩)
      · exact .inr (.inr ⟨conciliumId, index, strAddress, amount, st', rfl, hparsed, hcaller, h, hst'⟩)
  | inviteToConcilium conciliumId arrAddresses =>
      exact (hplain (plain_signed hproxy fun callerAddress => plain_modifyConcilium _ _ _)
        fun st' h => State.credits_inviteToConcilium hproxy hvalue h).imp_right .inl
  | setFeeCreate nFeeNew =>
      have hcredits : st.Credits { st with feeCreate := nFeeNew } 0 :=
        ⟨rfl, (add_zero _).symm, fun h => ⟨h.conciliums, hfair⟩, fun _ _ _ => le_rfl⟩
      simp only [run, State.setFeeCreate]
      split
      · exact .inl ⟨_, rfl⟩
      · exact .inr (.inl ⟨_, 0, rfl, hvalue, hcredits⟩)
  | setProxy strNewAddress => exact hfair.elim
  | getHeightToRelease conciliumId =>
      have hrun : (st.getHeightToRelease g conciliumId).Plain := by
        rw [State.getHeightToRelease, hproxy]
        exact plain_modifyConcilium _ _ _
      exact (hplain hrun fun st' h =>
        ⟨0, hvalue, State.credits_getHeightToRelease hproxy h⟩).imp_right .inl
  | changeConciliumParameters conciliumId objNewParameters =>
      exact (hplain (plain_signed hproxy fun callerAddress => plain_modifyConcilium _ _ _)
        fun st' h => ⟨0, hvalue, State.credits_changeConciliumParameters hproxy h⟩).imp_right .inl

end Method

theorem exists_retirePosConciliumMember {g : Globals} {c : Concilium} {strAddress : Address}
    {objMember : Member}
    (hfind : (c.arrMembers.getD []).find? (·.address = strAddress) = some objMember)
    (hreleased : objMember.nHeightToRelease.all fun height => height ≤ (g.height : Int)) :
    ∃ changed, c.retirePosConciliumMember g strAddress = .ok (objMember, changed) := by
  cases hmembers : c.arrMembers with
  | none => simp [hmembers] at hfind
  | some arrMembers =>
      rw [hmembers, Option.getD_some] at hfind
      obtain ⟨rest, htake⟩ := exists_takeMember hfind
      refine ⟨{ c with arrMembers := some rest }, ?_⟩
      simp only [Concilium.retirePosConciliumMember, hmembers, htake]
      rw [if_neg]
      cases hrelease : objMember.nHeightToRelease with
      | none => simp
      | some height => simpa [hrelease] using hreleased

end CilCore.ContractConciliums
