import CilCore.Node.TxCoins

/-!
# The effects of running a contract

What the run of a method does to the patch of its transaction is the replay of a
list of effects: coins sent, and contracts stored by nested calls that returned.
This module computes that list along the run, and the nested calls with what
they did.
-/

namespace CilCore

/-- What a served request does to the patch of the transaction. -/
inductive Effect where
  /-- Coins are sent. -/
  | sent (strAddress : Address) (amount : Amount)
  /-- A nested call returned and its contract is stored. -/
  | stored (contract : Contract)

namespace PatchDB

/-- The patch after coins were sent: the new UTXO, the next nonce, and the receipt
with the internal transaction. -/
def afterSend (F : Factory) (strTxHash : Hash) (strAddress : Address) (amount : Amount)
    (patch : PatchDB) : PatchDB :=
  let txHash := F.internalHash strTxHash patch.nonce
  let coins : Coins := ⟨amount, strAddress⟩
  { patch with
    coins := patch.coins.insert txHash ((∅ : UTXO).insert 0 coins)
    nonce := patch.nonce + 1
    mapTxReceipts := patch.mapTxReceipts.insert strTxHash
      (((patch.getReceipt strTxHash).getD { status := .TX_STATUS_OK }).addInternalUtxo txHash
        coins) }

/-- The patch is that of a transaction whose contract is still running: its receipt
collects internal transactions, and the hashes of the next ones are not used. -/
structure Ready (F : Factory) (strTxHash : Hash) (patch : PatchDB) : Prop where
  receipt : ∀ receipt, patch.getReceipt strTxHash = some receipt →
    receipt.status = .TX_STATUS_OK ∧ receipt.coinsUsed = 0
  unused : ∀ n, patch.nonce ≤ n → patch.getUtxo (F.internalHash strTxHash n) = none

variable {F : Factory} {strTxHash : Hash} {patch : PatchDB}

/-- The receipt of a running contract takes one more internal transaction. -/
theorem setReceipt_running (patch : PatchDB) (h : ∀ receipt, patch.getReceipt strTxHash = some receipt →
      receipt.status = .TX_STATUS_OK ∧ receipt.coinsUsed = 0) (txHash : Hash) (coins : Coins) :
    patch.setReceipt strTxHash (TxReceipt.addInternalUtxo txHash coins { status := .TX_STATUS_OK }) =
      .ok { patch with
        mapTxReceipts := patch.mapTxReceipts.insert strTxHash
          (((patch.getReceipt strTxHash).getD { status := .TX_STATUS_OK }).addInternalUtxo txHash
            coins) } := by
  cases hreceipt : patch.getReceipt strTxHash with
  | none => simp [PatchDB.setReceipt, hreceipt]
  | some receipt =>
      obtain ⟨hstatus, hcoins⟩ := h receipt hreceipt
      simp [PatchDB.setReceipt, hreceipt, TxReceipt.merge, TxReceipt.addInternalUtxo,
        TxReceipt.isSuccessful, hstatus, hcoins]

theorem Ready.afterSend (hinj : Function.Injective (F.internalHash strTxHash))
    (h : Ready F strTxHash patch) (strAddress : Address) (amount : Amount) :
    Ready F strTxHash (patch.afterSend F strTxHash strAddress amount) := by
  constructor
  · intro receipt hreceipt
    have heq : ((patch.getReceipt strTxHash).getD { status := .TX_STATUS_OK }).addInternalUtxo
        (F.internalHash strTxHash patch.nonce) ⟨amount, strAddress⟩ = receipt := by
      simpa [PatchDB.afterSend, getReceipt] using hreceipt
    rw [← heq]
    cases hold : patch.getReceipt strTxHash with
    | none => exact ⟨rfl, rfl⟩
    | some old => exact h.receipt old hold
  · intro n hn
    have hne : F.internalHash strTxHash n ≠ F.internalHash strTxHash patch.nonce := fun heq =>
      absurd (hinj heq) (Nat.ne_of_gt hn)
    rw [getUtxo, PatchDB.afterSend, FinMap.lookup_insert_ite, if_neg hne]
    exact h.unused n (Nat.le_of_succ_le hn)

theorem OnlyCoins.ready {tx : Transaction} (h : patch.OnlyCoins (tx.hash F :: tx.utxos))
    (hfresh : FreshHashes F tx) : patch.Ready F (tx.hash F) := by
  refine ⟨fun receipt hreceipt => ?_, fun n _ => h.coins _ (hfresh.internal_fresh n)⟩
  rw [getReceipt, h.receipts, Finmap.lookup_empty] at hreceipt
  cases hreceipt

theorem Ready.setContract (h : Ready F strTxHash patch) (contract : Contract) :
    Ready F strTxHash (patch.setContract F contract) :=
  ⟨h.receipt, h.unused⟩

end PatchDB

namespace Effect

/-- The patch after an effect. -/
def apply (F : Factory) (strTxHash : Hash) (patch : PatchDB) : Effect → PatchDB
  | .sent strAddress amount => patch.afterSend F strTxHash strAddress amount
  | .stored contract => patch.setContract F contract

/-- The patch after a list of effects. -/
def replay (F : Factory) (strTxHash : Hash) (effects : List Effect) (patch : PatchDB) : PatchDB :=
  effects.foldl (apply F strTxHash) patch

variable {F : Factory} {strTxHash : Hash}

@[simp] theorem replay_nil (patch : PatchDB) : replay F strTxHash [] patch = patch := rfl

theorem replay_append (effects effects' : List Effect) (patch : PatchDB) :
    replay F strTxHash (effects ++ effects') patch =
      replay F strTxHash effects' (replay F strTxHash effects patch) :=
  List.foldl_append

theorem ready_replay (hinj : Function.Injective (F.internalHash strTxHash))
    (effects : List Effect) {patch : PatchDB} (h : patch.Ready F strTxHash) :
    (replay F strTxHash effects patch).Ready F strTxHash := by
  induction effects generalizing patch with
  | nil => exact h
  | cons effect effects ih =>
      cases effect with
      | sent strAddress amount => exact ih (h.afterSend hinj strAddress amount)
      | stored contract => exact ih (h.setContract contract)

end Effect

/-! ### Requests -/

/-- The effects of `send`, given the message of the exception it threw. -/
def sendEffects (strAddress : Option Address) (amount : Amount) :
    Option String → List Effect
  | some _ => []
  | none =>
      match strAddress with
      | some strAddress => if amount = 0 then [] else [.sent strAddress amount]
      | none => []

/-- The coins that effects send. -/
def Effect.sentTotal (effects : List Effect) : Amount :=
  (effects.map fun effect =>
    match effect with
    | .sent _ amount => amount
    | .stored _ => 0).sum

section Send

variable {F : Factory} {E : RunEnv} (strAddress : Option Address) (amount : Amount)
  (holder : Contract) {s : RunState}

/-- The cases of `sendCoins`: it throws or is asked for nothing, and changes nothing,
or it sends a positive amount that the holder has. -/
theorem sendCoins_cases {patchTx : PatchDB} (h : patchTx.Ready F E.strTxHash) :
    (∃ error, sendCoins F E strAddress amount holder patchTx = (patchTx, holder, error) ∧
      sendEffects strAddress amount error = []) ∨
    (∃ receiver, strAddress = some receiver ∧ 0 < amount ∧
      sendCoins F E strAddress amount holder patchTx =
        (patchTx.afterSend F E.strTxHash receiver amount, holder.deposit (0 - amount), none)) := by
  cases strAddress with
  | none => exact .inl ⟨_, rfl, rfl⟩
  | some receiver =>
      by_cases hfunds : holder.balance < amount
      · exact .inl ⟨some "Not enough funds for \"send\"", by simp [sendCoins, hfunds], rfl⟩
      by_cases hzero : amount = 0
      · exact .inl ⟨none, by simp only [sendCoins, if_neg hfunds, if_pos hzero],
          by simp [sendEffects, hzero]⟩
      by_cases hpos : 0 < amount
      · refine .inr ⟨receiver, rfl, hpos, ?_⟩
        have hreceipt := PatchDB.setReceipt_running
          (patchTx.getNonce.2.setUtxo (F.internalHash E.strTxHash patchTx.nonce)
            ((∅ : UTXO).insert 0 ⟨amount, receiver⟩)) h.receipt
          (F.internalHash E.strTxHash patchTx.nonce) ⟨amount, receiver⟩
        simp only [sendCoins, if_neg hfunds, if_neg hzero, createInternalTx, if_pos hpos,
          PatchDB.getNonce, Contract.withdraw] at hreceipt ⊢
        rw [hreceipt]
        rfl
      · exact .inl ⟨some "Internal TX with non positive amount!",
          by simp [sendCoins, hfunds, hzero, createInternalTx, hpos], rfl⟩

/-- The cases of `send`: the patch and the holder are as before, or a positive amount
is sent. -/
theorem send_cases (h : s.patchTx.Ready F E.strTxHash) :
    ((send F E strAddress amount holder s).1.patchTx = s.patchTx ∧
      (send F E strAddress amount holder s).2.1 = holder ∧
      sendEffects strAddress amount (send F E strAddress amount holder s).2.2 = []) ∨
    (∃ receiver, strAddress = some receiver ∧ 0 < amount ∧
      (send F E strAddress amount holder s).1.patchTx =
        s.patchTx.afterSend F E.strTxHash receiver amount ∧
      (send F E strAddress amount holder s).2.1 = holder.deposit (0 - amount) ∧
      sendEffects strAddress amount (send F E strAddress amount holder s).2.2 =
        [.sent receiver amount]) := by
  cases hspend : spendCoins s.nCoinsLimit E.nFeeInternalTx with
  | error error =>
      refine .inl ?_
      simp [send, hspend, sendEffects]
  | ok nCoinsLimit =>
      rcases sendCoins_cases strAddress amount holder h with
        ⟨error, hsend, heffects⟩ | ⟨receiver, hreceiver, hpos, hsend⟩
      · refine .inl ?_
        simp [send, hspend, hsend, heffects]
      · subst hreceiver
        refine .inr ⟨receiver, rfl, hpos, ?_⟩
        simp [send, hspend, hsend, sendEffects, ne_of_gt hpos]

end Send

/-- The effects of a call after its method has stopped. -/
def endEffects (F : Factory) (E : RunEnv) (delegate : Bool) (nested : Contract)
    (r : RunState × Contract × Except String Data) : List Effect :=
  match r.2.2 with
  | .error _ => []
  | .ok data =>
      [.stored (finishedContract F E delegate data (if delegate then nested else r.2.1))]

/-- The effects of running the code of a method. -/
def journal (F : Factory) (E : RunEnv) : Code → Contract → RunState → List Effect
  | .done _, _, _ => []
  | .throws _, _, _ => []
  | .send strAddress amount k, holder, s =>
      let r := send F E strAddress amount holder s
      sendEffects strAddress amount r.2.2 ++ journal F E (k r.2.2) r.2.1 r.1
  | .call delegate strAddress coinsToPass callee k, holder, s =>
      match startCall F E strAddress coinsToPass s with
      | .error error => journal F E (k (some error)) holder s
      | .ok (nested, nCoinsLimit) =>
          let called := if delegate then holder else nested
          let r := runCode F E callee called { s with nCoinsLimit }
          let r' := endCall F E delegate holder nested r
          journal F E callee called { s with nCoinsLimit } ++
            (endEffects F E delegate nested r ++ journal F E (k r'.2.2) r'.2.1 r'.1)

/-- A nested call that was made. -/
structure CallRecord where
  delegate : Bool
  /-- The contract that made the call, and the state it was made in. -/
  caller : Contract
  before : RunState
  /-- The contract as it was loaded and as its method left it; a call that was
  refused loaded none. -/
  called : Option (Contract × Contract)
  /-- The effects until the method stopped, and the state it stopped in. -/
  effects : List Effect
  stopped : RunState
  /-- What the caller goes on with. -/
  reply : RunState × Contract × Option String

/-- The record of a call that was refused. -/
def refusedCall (delegate : Bool) (caller : Contract) (s : RunState) (error : String) :
    CallRecord where
  delegate := delegate
  caller := caller
  before := s
  called := none
  effects := []
  stopped := s
  reply := (s, caller, some error)

/-- The record of a call whose method was run. -/
def startedCall (F : Factory) (E : RunEnv) (delegate : Bool) (callee : Code)
    (caller nested : Contract) (before : RunState) (nCoinsLimit : Amount) : CallRecord :=
  let called := if delegate then caller else nested
  let s := { before with nCoinsLimit }
  let r := runCode F E callee called s
  { delegate := delegate
    caller := caller
    before := before
    called := some (nested, r.2.1)
    effects := journal F E callee called s
    stopped := r.1
    reply := endCall F E delegate caller nested r }

/-- The nested calls made while the code of a method runs, inner calls first. -/
def calls (F : Factory) (E : RunEnv) : Code → Contract → RunState → List CallRecord
  | .done _, _, _ => []
  | .throws _, _, _ => []
  | .send strAddress amount k, holder, s =>
      let r := send F E strAddress amount holder s
      calls F E (k r.2.2) r.2.1 r.1
  | .call delegate strAddress coinsToPass callee k, holder, s =>
      match startCall F E strAddress coinsToPass s with
      | .error error => refusedCall delegate holder s error :: calls F E (k (some error)) holder s
      | .ok (nested, nCoinsLimit) =>
          let call := startedCall F E delegate callee holder nested s nCoinsLimit
          calls F E callee (if delegate then holder else nested) { s with nCoinsLimit } ++
            call :: calls F E (k call.reply.2.2) call.reply.2.1 call.reply.1

/-! ### Looking contracts up -/

/-- The balance that a contract has before the transaction: that of the block's
patch, or else that of storage. -/
def previousBalance (storage : Storage) (patchForBlock : PatchDB) (contractAddr : Address) :
    Amount :=
  ((patchForBlock.getContract contractAddr).or (storage.getContract contractAddr)).elim 0
    (·.balance)

/-- A contract that was found has the address it was looked up by, and the balance
it had before the transaction. -/
theorem getContractByAddr_found {F : Factory} {storage : Storage} {patchForBlock : Option PatchDB}
    {contractAddr : Address} {contract : Contract}
    (h : getContractByAddr F storage patchForBlock contractAddr = .ok (some contract)) :
    contract.strAddress = contractAddr ∧
      contract.balance =
        previousBalance storage (patchForBlock.getD PatchDB.empty) contractAddr := by
  cases hpatch : patchForBlock.bind fun patch => patch.getContract contractAddr with
  | some found =>
      obtain ⟨patch, rfl, hfound⟩ := Option.bind_eq_some_iff.mp hpatch
      simp only [getContractByAddr, hpatch] at h
      cases hclone : found.clone F with
      | error error => simp [hclone] at h
      | ok copy =>
          rw [hclone] at h
          cases h
          refine ⟨?_, ?_⟩
          · rw [Contract.strAddress_clone hclone]
            exact patch.keyed contractAddr found hfound
          · rw [Contract.balance_clone hclone, previousBalance, Option.getD_some, hfound]
            rfl
  | none =>
      have hnone : (patchForBlock.getD PatchDB.empty).getContract contractAddr = none := by
        cases patchForBlock with
        | none => rfl
        | some patch => exact hpatch
      simp only [getContractByAddr, hpatch, Except.ok.injEq] at h
      refine ⟨?_, by rw [previousBalance, hnone, h]; rfl⟩
      obtain ⟨found, -, hfound⟩ := Option.map_eq_some_iff.mp h
      rw [← hfound]

section Run

variable {F : Factory} {E : RunEnv}

/-- A contract that was loaded for a nested call. -/
theorem startCall_found {strAddress : Address} {coinsToPass : Option Amount} {s : RunState}
    {nested : Contract} {nCoinsLimit : Amount}
    (h : startCall F E strAddress coinsToPass s = .ok (nested, nCoinsLimit)) :
    nested.strAddress = strAddress ∧
      nested.balance = previousBalance E.storage E.patchBlock strAddress := by
  unfold startCall at h
  split at h
  next => cases h
  next =>
    split at h
    next => cases h
    next => cases h
    next contract hcontract =>
      have hfound := getContractByAddr_found hcontract
      cases hspend : spendCoins s.nCoinsLimit E.nFeeContractInvocation with
      | error error => simp [hspend] at h
      | ok nCoinsLimit =>
          simp only [hspend, Except.ok.injEq, Prod.mk.injEq] at h
          rw [← h.1]
          cases E.isTimeToForkSerializer2 <;> simpa using hfound

theorem sendCoins_strAddress (strAddress : Option Address) (amount : Amount) (holder : Contract)
    (patchTx : PatchDB) :
    (sendCoins F E strAddress amount holder patchTx).2.1.strAddress = holder.strAddress := by
  fun_cases sendCoins F E strAddress amount holder patchTx with
  | case7 _ _ _ _ _ _ _ _ _ _ _ hwithdraw => exact Contract.strAddress_withdraw hwithdraw
  | _ => rfl

theorem endCall_caller (delegate : Bool) (caller nested : Contract)
    (r : RunState × Contract × Except String Data) :
    (endCall F E delegate caller nested r).2.1 = if delegate then r.2.1 else caller := by
  obtain ⟨s, holder, result⟩ := r
  cases result <;> rfl

theorem endCall_patchTx (delegate : Bool) (caller nested : Contract)
    (r : RunState × Contract × Except String Data) :
    (endCall F E delegate caller nested r).1.patchTx =
      Effect.replay F E.strTxHash (endEffects F E delegate nested r) r.1.patchTx := by
  obtain ⟨s, holder, result⟩ := r
  cases result <;> rfl

theorem endCall_failed {delegate : Bool} {caller nested : Contract}
    {r : RunState × Contract × Except String Data}
    (h : (endCall F E delegate caller nested r).2.2.isSome) :
    (endCall F E delegate caller nested r).1.patchTx = r.1.patchTx := by
  obtain ⟨s, holder, result⟩ := r
  cases result with
  | error error => rfl
  | ok data => cases h

/-- Running code does not change which contract is the holder. -/
theorem runCode_strAddress (code : Code) (holder : Contract) (s : RunState) :
    (runCode F E code holder s).2.1.strAddress = holder.strAddress := by
  induction code generalizing holder s with
  | done data => rfl
  | throws message => rfl
  | send strAddress amount k ih =>
      rw [runCode, ih]
      unfold send
      split
      next => rfl
      next => exact sendCoins_strAddress strAddress amount holder s.patchTx
  | call delegate strAddress coinsToPass callee k ihcallee ihk =>
      cases hstart : startCall F E strAddress coinsToPass s with
      | error error =>
          simp only [runCode, hstart]
          exact ihk _ _ _
      | ok started =>
          simp only [runCode, hstart]
          rw [ihk, endCall_caller]
          cases delegate with
          | true => exact ihcallee _ _
          | false => rfl

/-- **The patch of a transaction is the replay of the effects of its run.** -/
theorem runCode_patchTx (hinj : Function.Injective (F.internalHash E.strTxHash)) (code : Code)
    (holder : Contract) (s : RunState) (h : s.patchTx.Ready F E.strTxHash) :
    (runCode F E code holder s).1.patchTx =
      Effect.replay F E.strTxHash (journal F E code holder s) s.patchTx := by
  induction code generalizing holder s with
  | done data => rfl
  | throws message => rfl
  | send strAddress amount k ih =>
      rw [runCode, journal, Effect.replay_append]
      rcases send_cases strAddress amount holder h with
        ⟨hpatch, -, heffects⟩ | ⟨receiver, -, -, hpatch, -, heffects⟩
      · rw [heffects, ih _ _ _ (hpatch ▸ h), hpatch]
        rfl
      · rw [heffects, ih _ _ _ (hpatch ▸ h.afterSend hinj receiver amount), hpatch]
        rfl
  | call delegate strAddress coinsToPass callee k ihcallee ihk =>
      cases hstart : startCall F E strAddress coinsToPass s with
      | error error =>
          simp only [runCode, journal, hstart]
          exact ihk _ _ _ h
      | ok started =>
          obtain ⟨nested, nCoinsLimit⟩ := started
          simp only [runCode, journal, hstart, Effect.replay_append]
          have hcallee := ihcallee (if delegate then holder else nested) { s with nCoinsLimit } h
          have hend := endCall_patchTx (F := F) (E := E) delegate holder nested
            (runCode F E callee (if delegate then holder else nested) { s with nCoinsLimit })
          rw [hcallee] at hend
          rw [← hend]
          refine ihk _ _ _ ?_
          rw [hend]
          exact Effect.ready_replay hinj _ (Effect.ready_replay hinj _ h)

/-- The patch after a call that was started. -/
theorem startedCall_patchTx (hinj : Function.Injective (F.internalHash E.strTxHash))
    (delegate : Bool) (callee : Code) (caller nested : Contract) {before : RunState}
    (nCoinsLimit : Amount) (h : before.patchTx.Ready F E.strTxHash) :
    (startedCall F E delegate callee caller nested before nCoinsLimit).stopped.patchTx =
        Effect.replay F E.strTxHash
          (startedCall F E delegate callee caller nested before nCoinsLimit).effects
          before.patchTx ∧
      (startedCall F E delegate callee caller nested before nCoinsLimit).reply.1.patchTx.Ready F
        E.strTxHash := by
  have hstopped := runCode_patchTx hinj callee (if delegate then caller else nested)
    { before with nCoinsLimit } h
  refine ⟨hstopped, ?_⟩
  simp only [startedCall]
  rw [endCall_patchTx, hstopped]
  exact Effect.ready_replay hinj _ (Effect.ready_replay hinj _ h)

end Run

/-! ### The run of a transaction -/

/-- The run of the contract of a transaction, if it has one. -/
def txRun (F : Factory) (node : NodeView) (patchForBlock : Option PatchDB) (isGenesis : Bool)
    (tx : Transaction) : Except String ContractRun :=
  match prepareTx F node patchForBlock isGenesis tx with
  | .error error => .error error
  | .ok prepared =>
      match prepared.contract with
      | some contract =>
          startContract F node isGenesis contract tx prepared.patchThisTx
            (patchForBlock.getD PatchDB.empty) prepared.nRemainingCoins prepared.nFeeSize
      | none => .error "Not a contract transaction"

namespace ContractRun

/-- The contract and the state that the invoked method starts with, if there is one
and it passes the checks. -/
def invocation (F : Factory) (tx : Transaction) (run : ContractRun) :
    Option (Contract × RunState) :=
  run.contract.bind fun contract => (startInvocation F run.env tx contract run.start).toOption

/-- The effects of the invoked method. -/
def journal (F : Factory) (tx : Transaction) (behaviour : Behaviour) (run : ContractRun) :
    List Effect :=
  match run.invocation F tx with
  | none => []
  | some (contract, s) => CilCore.journal F run.env behaviour.method contract s

/-- The nested calls of the invoked method. -/
def calls (F : Factory) (tx : Transaction) (behaviour : Behaviour) (run : ContractRun) :
    List CallRecord :=
  match run.invocation F tx with
  | none => []
  | some (contract, s) => CilCore.calls F run.env behaviour.method contract s

end ContractRun

section TxRun

variable {F : Factory} {node : NodeView} {patchForBlock : Option PatchDB} {isGenesis : Bool}
  {tx : Transaction} {run : ContractRun}

/-- What is known about the run of a transaction's contract. -/
structure RunOf (F : Factory) (node : NodeView) (patchForBlock : PatchDB) (tx : Transaction)
    (contract : Option Contract) (prepared : PreparedTx) (run : ContractRun) : Prop where
  storage : run.env.storage = node.storage
  patchBlock : run.env.patchBlock = patchForBlock
  strTxHash : run.env.strTxHash = tx.hash F
  contract : run.contract = contract.map fun contract =>
    if node.isTimeToForkSerializer1 F then contract.switchSerializerToJson F else contract
  nMaxCoins : run.nMaxCoins = prepared.nRemainingCoins
  nFeeSize : run.nFeeSize = prepared.nFeeSize
  patchThisTx : run.patchThisTx = prepared.patchThisTx

theorem startContract_ok {contract : Option Contract} {patchForBlock : PatchDB}
    {prepared : PreparedTx}
    (h : startContract F node isGenesis contract tx prepared.patchThisTx patchForBlock
      prepared.nRemainingCoins prepared.nFeeSize = .ok run) :
    RunOf F node patchForBlock tx contract prepared run := by
  unfold startContract at h
  cases hstorage : node.getFeeStorage F tx isGenesis with
  | error error => simp [hstorage, bind, Except.bind] at h
  | ok nFeeStorage =>
  cases hcreation : node.getFeeContractCreation F tx isGenesis with
  | error error => simp [hstorage, hcreation, bind, Except.bind] at h
  | ok nFeeContractCreation =>
  cases hinvocation : node.getFeeContractInvocation F tx isGenesis with
  | error error => simp [hstorage, hcreation, hinvocation, bind, Except.bind] at h
  | ok nFeeContractInvocation =>
  cases hinternal : node.getFeeInternalTx F tx isGenesis with
  | error error => simp [hstorage, hcreation, hinvocation, hinternal, bind, Except.bind] at h
  | ok nFeeInternalTx =>
      simp only [hstorage, hcreation, hinvocation, hinternal, bind, Except.bind, pure,
        Except.pure, Except.ok.injEq] at h
      rw [← h]
      exact ⟨rfl, rfl, rfl, rfl, rfl, rfl, rfl⟩

/-- The run of a transaction, and how the transaction ends with it. -/
theorem txRun_ok (h : txRun F node patchForBlock isGenesis tx = .ok run) :
    ∃ prepared contract, prepareTx F node patchForBlock isGenesis tx = .ok prepared ∧
      prepared.contract = some contract ∧
      RunOf F node (patchForBlock.getD PatchDB.empty) tx contract prepared run ∧
      ∀ behaviour, processTx F node patchForBlock isGenesis tx behaviour =
        settleContract F node isGenesis tx run.nMaxCoins (run.used F tx behaviour)
          (run.outcome F tx behaviour) := by
  unfold txRun at h
  split at h
  next => cases h
  next prepared hprepared =>
    split at h
    next contract hcontract =>
      have hrun := startContract_ok h
      refine ⟨prepared, contract, hprepared, hcontract, hrun, fun behaviour => ?_⟩
      rw [processTx, hprepared]
      simp only [hcontract, processContract]
      rw [h, hrun.nMaxCoins]
    next => cases h

theorem findContract_found {contract : Contract}
    (h : findContract F node patchForBlock tx = .ok (some (some contract))) :
    contract.balance =
      previousBalance node.storage (patchForBlock.getD PatchDB.empty) contract.strAddress := by
  unfold findContract at h
  split at h
  next => cases h
  next => cases h
  next =>
    split at h
    next => cases h
    next contractAddr _ =>
      cases hfound : getContractByAddr F node.storage patchForBlock contractAddr with
      | error error => simp [hfound, Except.map] at h
      | ok found =>
          have heq : found = some contract := by simpa [hfound, Except.map] using h
          subst heq
          obtain ⟨haddress, hbalance⟩ := getContractByAddr_found hfound
          rw [haddress, hbalance]

theorem prepareTx_contract {prepared : PreparedTx}
    (h : prepareTx F node patchForBlock isGenesis tx = .ok prepared) :
    findContract F node patchForBlock tx = .ok prepared.contract := by
  unfold prepareTx at h
  split at h
  next => cases h
  next contract hcontract =>
    split at h
    next => cases h
    next =>
      split at h
      next => cases h
      next =>
        obtain ⟨-, rfl⟩ := guard_eq_ok.mp h
        exact hcontract

/-- The contract that is invoked has the balance it had before. -/
theorem txRun_contract (h : txRun F node patchForBlock isGenesis tx = .ok run) {contract : Contract}
    (hcontract : run.contract = some contract) :
    contract.balance =
      previousBalance run.env.storage run.env.patchBlock contract.strAddress := by
  obtain ⟨prepared, found, hprepared, hfound, hrun, -⟩ := txRun_ok h
  rw [hrun.contract] at hcontract
  obtain ⟨loaded, hloaded, rfl⟩ := Option.map_eq_some_iff.mp hcontract
  subst hloaded
  have hbalance := findContract_found (hfound ▸ prepareTx_contract hprepared)
  rw [hrun.storage, hrun.patchBlock]
  cases node.isTimeToForkSerializer1 F <;> simpa using hbalance

end TxRun

section Exec

variable {F : Factory} {tx : Transaction} {behaviour : Behaviour} {run : ContractRun}

theorem startInvocation_ok {E : RunEnv} {contract started : Contract} {s s' : RunState}
    (h : startInvocation F E tx contract s = .ok (started, s')) :
    started.strAddress = contract.strAddress ∧ started.balance = contract.balance ∧
      s'.patchTx = s.patchTx := by
  unfold startInvocation at h
  split at h
  next => cases h
  next =>
    split at h
    next => cases h
    next =>
      split at h
      next => cases h
      next =>
        cases h
        simp

theorem createContract_cases (E : RunEnv) (constructor : Except String Constructed) (s : RunState) :
    (createContract F E constructor s).state.patchTx = s.patchTx ∧
      ((createContract F E constructor s).contract = none ∧
          (createContract F E constructor s).message ≠ none ∨
        ∃ contract, (createContract F E constructor s).contract = some contract ∧
          contract.strAddress = F.contractAddress E.strTxHash ∧
          E.storage.getContract (F.contractAddress E.strTxHash) = none ∧
          contract.balance = 0) := by
  unfold createContract
  dsimp only
  split
  next => exact ⟨rfl, .inl ⟨rfl, by simp⟩⟩
  next =>
    split
    next => exact ⟨rfl, .inl ⟨rfl, by simp⟩⟩
    next hnew =>
      split
      next => exact ⟨rfl, .inl ⟨rfl, by simp⟩⟩
      next data _ =>
        refine ⟨rfl, .inr ⟨_, rfl, ?_, by simpa using hnew, ?_⟩⟩
        · rw [Contract.strAddress_ensureData, Contract.new]
        · rw [Contract.balance_ensureData, Contract.new]

theorem endInvocation_spec (nPrevDataSize : Nat) (r : RunState × Contract × Except String Data) :
    (endInvocation F nPrevDataSize r).state.patchTx = r.1.patchTx ∧
      ∃ contract, (endInvocation F nPrevDataSize r).contract = some contract ∧
        contract.strAddress = r.2.1.strAddress ∧ contract.balance = r.2.1.balance := by
  obtain ⟨s, holder, result⟩ := r
  cases result <;> simp [endInvocation]

/-- How a contract is executed: it is created, or its invocation is refused, or its
method is run. -/
inductive ExecCase (F : Factory) (tx : Transaction) (behaviour : Behaviour) (run : ContractRun) :
    Prop where
  | notCreated (hcontract : run.contract = none)
      (hcreated : (run.execContract F tx behaviour).contract = none)
      (hpatch : (run.execContract F tx behaviour).state.patchTx = run.patchThisTx)
      (hmessage : (run.execContract F tx behaviour).message ≠ none)
  | created (hcontract : run.contract = none) (contract : Contract)
      (hcreated : (run.execContract F tx behaviour).contract = some contract)
      (haddress : contract.strAddress = F.contractAddress run.env.strTxHash)
      (hpatch : (run.execContract F tx behaviour).state.patchTx = run.patchThisTx)
      (hnew : run.env.storage.getContract (F.contractAddress run.env.strTxHash) = none)
      (hbalance : contract.balance = 0)
  | refused (contract : Contract) (hcontract : run.contract = some contract)
      (hinvocation : run.invocation F tx = none) (message : String)
      (hexec : run.execContract F tx behaviour = ⟨some contract, false, run.start, some message⟩)
  | invoked (contract started : Contract) (s : RunState) (hcontract : run.contract = some contract)
      (hinvocation : run.invocation F tx = some (started, s))
      (haddress : started.strAddress = contract.strAddress)
      (hbalance : started.balance = contract.balance) (hpatch : s.patchTx = run.patchThisTx)
      (hexec : run.execContract F tx behaviour =
        endInvocation F (started.getDataSize F)
          (runCode F run.env behaviour.method started s))

theorem execContract_cases (F : Factory) (tx : Transaction) (behaviour : Behaviour)
    (run : ContractRun) : ExecCase F tx behaviour run := by
  cases hcontract : run.contract with
  | none =>
      have hexec : run.execContract F tx behaviour =
          createContract F run.env behaviour.constructor run.start := by
        rw [ContractRun.execContract, hcontract]
      obtain ⟨hpatch, ⟨hcreated, hmessage⟩ | ⟨contract, hcreated, haddress, hnew, hbalance⟩⟩ :=
        createContract_cases (F := F) run.env behaviour.constructor run.start
      · exact .notCreated hcontract (hexec ▸ hcreated) (hexec ▸ hpatch) (hexec ▸ hmessage)
      · exact .created hcontract contract (hexec ▸ hcreated) haddress (hexec ▸ hpatch) hnew hbalance
  | some contract =>
      have hexec : run.execContract F tx behaviour =
          invokeContract F run.env tx contract behaviour.method run.start := by
        rw [ContractRun.execContract, hcontract]
      cases hstart : startInvocation F run.env tx contract run.start with
      | error message =>
          refine .refused contract hcontract ?_ message ?_
          · simp [ContractRun.invocation, hcontract, hstart, Except.toOption]
          · rw [hexec, invokeContract, hstart]
      | ok started =>
          obtain ⟨started, s⟩ := started
          obtain ⟨haddress, hbalance, hpatch⟩ := startInvocation_ok hstart
          refine .invoked contract started s hcontract ?_ haddress hbalance hpatch ?_
          · simp [ContractRun.invocation, hcontract, hstart, Except.toOption]
          · rw [hexec, invokeContract, hstart]

/-- The patch after the contract of a transaction has stopped. -/
theorem outcome_patchTx (tx : Transaction) (behaviour : Behaviour)
    (hinj : Function.Injective (F.internalHash run.env.strTxHash))
    (hready : run.patchThisTx.Ready F run.env.strTxHash) :
    (run.outcome F tx behaviour).state.patchTx =
      Effect.replay F run.env.strTxHash (run.journal F tx behaviour) run.patchThisTx := by
  rw [ContractRun.outcome, state_checkCoinsUsed]
  cases execContract_cases F tx behaviour run with
  | notCreated hcontract _ hpatch _ =>
      simp [hpatch, ContractRun.journal, ContractRun.invocation, hcontract]
  | created hcontract _ _ _ hpatch _ _ =>
      simp [hpatch, ContractRun.journal, ContractRun.invocation, hcontract]
  | refused _ _ hinvocation _ hexec =>
      simp [hexec, ContractRun.journal, hinvocation, ContractRun.start]
  | invoked contract started s hcontract hinvocation _ _ hpatch hexec =>
      obtain ⟨hstate, -⟩ := endInvocation_spec (F := F) (started.getDataSize F)
        (runCode F run.env behaviour.method started s)
      rw [hexec, hstate, runCode_patchTx hinj _ _ _ (hpatch ▸ hready), hpatch]
      simp only [ContractRun.journal, hinvocation]

end Exec

end CilCore
