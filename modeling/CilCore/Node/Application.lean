import CilCore.Node.ProcessTx
import CilCore.Storage.StorageWithCache

/-!
# The application object

The fields of `Application` in `node/app.js`. There is one such object in a node: every
execution of a contract sets the fields up for itself, and the code of all contracts
that run at the time reads and changes them.
-/

namespace CilCore

/-- What a numeric field holds, where `none` is no number (`undefined` or `NaN`). -/
abbrev Number := Option Amount

/-- `_spendCoins` of `node/app.js`. What is no number is not less than anything. -/
def Number.spendCoins (nCurrent nAmount : Number) : Except String Number :=
  match nCurrent, nAmount with
  | some nCurrent, some nAmount => (CilCore.spendCoins nCurrent nAmount).map some
  | _, _ => .ok none

/-- The fees that contract code is charged. -/
structure AppFees where
  nFeeContractCreation : Number
  nFeeContractInvocation : Number
  nFeeInternalTx : Number
deriving DecidableEq

/-- `Application`. The stacks have their top first. -/
structure Application where
  objFees : AppFees
  nInitialCoins : Number
  nCoinsLimit : Number
  nDataDelta : Int
  arrContractDataSize : Option (List Nat)
  arrContracts : List (Option Ref)
  /-- The execution whose callbacks are installed. -/
  objCallbacks : Nat
deriving DecidableEq

namespace Application

variable (app : Application)

/-- `setupVariables`. -/
def setupVariables (objFees : AppFees) (coinsLimit : Number) : Application :=
  { app with
    objFees
    nInitialCoins := coinsLimit
    nCoinsLimit := coinsLimit
    nDataDelta := 0
    arrContractDataSize := some []
    arrContracts := [] }

/-- `setCallbacks`. -/
def setCallbacks (objCallbacks : Nat) : Application := { app with objCallbacks }

/-- `coinsSpent`. -/
def coinsSpent : Number :=
  app.nInitialCoins.bind fun nInitialCoins => app.nCoinsLimit.map (nInitialCoins - ·)

/-- `_getCurrentContract`. -/
def getCurrentContract : Option Ref := app.arrContracts.head?.join

/-- `_execStarted`. -/
def execStarted (contract : Option Ref) (nDataSize : Nat) : Except String Application :=
  match app.arrContractDataSize with
  | none => .error "App. Uninitialized variables, or recursion error"
  | some sizes => .ok { app with
      arrContractDataSize := some (nDataSize :: sizes)
      arrContracts := contract :: app.arrContracts }

/-- `_execDone`, given how large the data of the contract is now, if there is one. The
contract that it takes off the stack is not compared with its argument. -/
def execDone (nDataSize : Option Nat) : Except String Application :=
  match app.arrContractDataSize with
  | none => .error "Cannot read property 'length' of undefined"
  | some [] => .error "App. Recursion error"
  | some (nPrevDataSize :: sizes) => .ok { app with
      arrContracts := app.arrContracts.tail
      nDataDelta := app.nDataDelta +
        nDataSize.elim 0 fun nDataSize => (nDataSize : Int) - nPrevDataSize
      arrContractDataSize := if sizes = [] then none else some sizes }

/-- The checks of `_callWithContext`. -/
def checkCoinsToPass (coinsToPass : Option Amount) : Except String Unit :=
  match coinsToPass with
  | none => .ok ()
  | some coinsToPass =>
      if coinsToPass < 0 then .error "coinsLimit should be positive"
      else if app.nCoinsLimit.any (coinsToPass > ·) then
        .error "Trying to pass more coins than have"
      else .ok ()

variable {app} {app' : Application}

/-- What `_execStarted` does when it does not throw. -/
theorem execStarted_ok {contract : Option Ref} {nDataSize : Nat}
    (h : app.execStarted contract nDataSize = .ok app') :
    app'.arrContracts = contract :: app.arrContracts ∧ app'.objCallbacks = app.objCallbacks := by
  unfold execStarted at h
  split at h
  next => cases h
  next =>
    injection h with h
    subst h
    exact ⟨rfl, rfl⟩

/-- What `_execDone` does when it does not throw. -/
theorem execDone_ok {nDataSize : Option Nat} (h : app.execDone nDataSize = .ok app') :
    app'.arrContracts = app.arrContracts.tail ∧ app'.objCallbacks = app.objCallbacks := by
  unfold execDone at h
  split at h
  next => cases h
  next => cases h
  next =>
    injection h with h
    subst h
    exact ⟨rfl, rfl⟩

end Application

end CilCore
