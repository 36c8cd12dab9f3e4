import CilCore.Node.ContractTrace

/-!
# What a transaction reads

`_processTx` reads of storage the UTXOs of the inputs, the fees of the concilium and the
contract that the transaction pays, and a contract reads those that it calls. Where two states
of the node agree on these, the transaction is processed alike.
-/

namespace CilCore

/-- The code may call the contract. -/
def Code.Calls (addr : Address) : Code → Prop
  | .done _ | .throws _ => False
  | .send _ _ k => ∃ error, (k error).Calls addr
  | .call _ strAddress _ callee k =>
      strAddress = addr ∨ callee.Calls addr ∨ ∃ error, (k error).Calls addr

variable {F : Factory} {node node' : NodeView} {tx : Transaction} {behaviour behaviour' : Behaviour}
  {patchForBlock : Option PatchDB}

/-- The contract of a transaction runs alike in both states. -/
structure SameRun (F : Factory) (tx : Transaction) (node node' : NodeView)
    (behaviour behaviour' : Behaviour) : Prop where
  code : behaviour' = behaviour
  called : ∀ addr, behaviour.method.Calls addr →
    node'.storage.getContract addr = node.storage.getContract addr
  created : (node'.storage.getContract (F.contractAddress (tx.hash F))).isSome =
    (node.storage.getContract (F.contractAddress (tx.hash F))).isSome
  serializer1 : node'.isTimeToForkSerializer1 F = node.isTimeToForkSerializer1 F
  serializer2 : node'.isTimeToForkSerializer2 F = node.isTimeToForkSerializer2 F
  serializer3 : node'.isTimeToForkSerializer3 F = node.isTimeToForkSerializer3 F

/-- Both states have the same of all that the transaction reads. -/
structure SameReads (F : Factory) (patchForBlock : Option PatchDB) (tx : Transaction)
    (node node' : NodeView) (behaviour behaviour' : Behaviour) : Prop where
  utxos : ∀ hash ∈ tx.utxos, node'.storage.getUtxo hash = node.storage.getUtxo hash
  concilium : node'.storage.getConciliumById F tx.conciliumId =
    node.storage.getConciliumById F tx.conciliumId
  receiver : ∀ addr, tx.getContractAddr = some addr →
    node'.storage.getContract addr = node.storage.getContract addr
  run : findContract F node patchForBlock tx ≠ .ok none →
    SameRun F tx node node' behaviour behaviour'

theorem SameReads.refl (node : NodeView) (behaviour : Behaviour) :
    SameReads F patchForBlock tx node node behaviour behaviour :=
  ⟨fun _ _ => rfl, rfl, fun _ _ => rfl, fun _ => ⟨rfl, fun _ _ => rfl, rfl, rfl, rfl, rfl⟩⟩

/-! ### Contracts -/

theorem getContractByAddr_congr {storage storage' : Storage} {addr : Address}
    (h : storage'.getContract addr = storage.getContract addr) (patchForBlock : Option PatchDB) :
    getContractByAddr F storage' patchForBlock addr =
      getContractByAddr F storage patchForBlock addr := by
  unfold getContractByAddr
  rw [h]

theorem startCall_congr {E : RunEnv} {storage : Storage} {addr : Address}
    (h : storage.getContract addr = E.storage.getContract addr) (coinsToPass : Option Amount)
    (s : RunState) :
    startCall F { E with storage } addr coinsToPass s = startCall F E addr coinsToPass s := by
  unfold startCall
  dsimp only
  rw [getContractByAddr_congr h]

/-- Code runs alike if it finds the same contracts. -/
theorem runCode_congr {E : RunEnv} {storage : Storage} (code : Code) (holder : Contract)
    (s : RunState)
    (h : ∀ addr, code.Calls addr → storage.getContract addr = E.storage.getContract addr) :
    runCode F { E with storage } code holder s = runCode F E code holder s := by
  induction code generalizing holder s with
  | done data => rfl
  | throws message => rfl
  | send strAddress amount k ih => exact ih _ _ _ fun addr hcalls => h addr ⟨_, hcalls⟩
  | call delegate strAddress coinsToPass callee k ihcallee ihk =>
      have hcallee := fun holder s => ihcallee holder s fun addr hcalls => h addr (.inr (.inl hcalls))
      have hk := fun error holder s =>
        ihk error holder s fun addr hcalls => h addr (.inr (.inr ⟨error, hcalls⟩))
      unfold runCode
      rw [startCall_congr (h strAddress (.inl rfl))]
      split
      next => exact hk _ _ _
      next => rw [hcallee, ← hk]; rfl

theorem createContract_congr {E : RunEnv} {storage : Storage}
    (h : (storage.getContract (F.contractAddress E.strTxHash)).isSome =
      (E.storage.getContract (F.contractAddress E.strTxHash)).isSome)
    (constructor : Except String Constructed) (s : RunState) :
    createContract F { E with storage } constructor s = createContract F E constructor s := by
  unfold createContract
  dsimp only
  rw [h]

theorem invokeContract_congr {E : RunEnv} {storage : Storage} {method : Code}
    (h : ∀ addr, method.Calls addr → storage.getContract addr = E.storage.getContract addr)
    (contract : Contract) (s : RunState) :
    invokeContract F { E with storage } tx contract method s =
      invokeContract F E tx contract method s := by
  have hstart : startInvocation F { E with storage } tx contract s =
      startInvocation F E tx contract s := rfl
  unfold invokeContract
  rw [hstart]
  split
  next => rfl
  next => rw [runCode_congr _ _ _ h]

/-- A contract is created or invoked alike. -/
theorem execContract_congr {run : ContractRun} {storage : Storage}
    (hcalled : ∀ addr, behaviour.method.Calls addr →
      storage.getContract addr = run.env.storage.getContract addr)
    (hcreated : (storage.getContract (F.contractAddress run.env.strTxHash)).isSome =
      (run.env.storage.getContract (F.contractAddress run.env.strTxHash)).isSome) :
    ({ run with env := { run.env with storage } } : ContractRun).execContract F tx behaviour =
      run.execContract F tx behaviour := by
  unfold ContractRun.execContract
  dsimp only
  split
  next => exact createContract_congr hcreated _ _
  next => exact invokeContract_congr hcalled _ _

theorem feeOf_congr
    (h : node'.storage.getConciliumById F tx.conciliumId =
      node.storage.getConciliumById F tx.conciliumId)
    (fee : ConciliumFees → Nat) (default : Fees → Nat) (isGenesis : Bool) :
    node'.feeOf F fee default tx isGenesis = node.feeOf F fee default tx isGenesis := by
  unfold NodeView.feeOf
  rw [h]

theorem settleContract_congr (h1 : node'.isTimeToForkSerializer1 F = node.isTimeToForkSerializer1 F)
    (h3 : node'.isTimeToForkSerializer3 F = node.isTimeToForkSerializer3 F) (isGenesis : Bool)
    (nMaxCoins coinsUsed : Amount) (o : ContractOutcome) :
    settleContract F node' isGenesis tx nMaxCoins coinsUsed o =
      settleContract F node isGenesis tx nMaxCoins coinsUsed o := by
  unfold settleContract storeOutcome contractToStore maxFee
  rw [h1, h3]

theorem startContract_congr
    (hfees : node'.storage.getConciliumById F tx.conciliumId =
      node.storage.getConciliumById F tx.conciliumId)
    (h : SameRun F tx node node' behaviour behaviour') (isGenesis : Bool)
    (contract : Option Contract) (patchThisTx patch : PatchDB) (nMaxCoins : Amount)
    (nFeeSize : Nat) :
    startContract F node' isGenesis contract tx patchThisTx patch nMaxCoins nFeeSize =
      (startContract F node isGenesis contract tx patchThisTx patch nMaxCoins nFeeSize).map
        fun run => { run with env := { run.env with storage := node'.storage } } := by
  unfold startContract NodeView.getFeeStorage NodeView.getFeeContractCreation
    NodeView.getFeeContractInvocation NodeView.getFeeInternalTx
  simp only [feeOf_congr hfees, h.serializer1, h.serializer2, h.serializer3]
  cases node.feeOf F (·.feeStorage) (·.STORAGE_PER_BYTE_FEE) tx isGenesis with
  | error error => rfl
  | ok nFeeStorage =>
      cases node.feeOf F (·.feeContractCreation) (·.CONTRACT_CREATION_FEE) tx isGenesis with
      | error error => rfl
      | ok nFeeContractCreation =>
          cases node.feeOf F (·.feeContractInvocation) (·.CONTRACT_INVOCATION_FEE) tx isGenesis with
          | error error => rfl
          | ok nFeeContractInvocation =>
              cases node.feeOf F (·.feeInternalTx) (·.INTERNAL_TX_FEE) tx isGenesis <;> rfl

theorem processContract_congr
    (hfees : node'.storage.getConciliumById F tx.conciliumId =
      node.storage.getConciliumById F tx.conciliumId)
    (h : SameRun F tx node node' behaviour behaviour') (isGenesis : Bool)
    (contract : Option Contract) (patchThisTx patch : PatchDB) (nMaxCoins : Amount)
    (nFeeSize : Nat) :
    processContract F node' isGenesis contract tx patchThisTx patch nMaxCoins nFeeSize behaviour' =
      processContract F node isGenesis contract tx patchThisTx patch nMaxCoins nFeeSize
        behaviour := by
  unfold processContract
  rw [startContract_congr hfees h]
  cases hrun : startContract F node isGenesis contract tx patchThisTx patch nMaxCoins nFeeSize with
  | error error => rfl
  | ok run =>
      have hof : RunOf F node patch tx contract ⟨none, patchThisTx, nMaxCoins, nFeeSize⟩ run :=
        startContract_ok hrun
      have hexec : ({ run with env := { run.env with storage := node'.storage } } :
          ContractRun).execContract F tx behaviour = run.execContract F tx behaviour := by
        refine execContract_congr (fun addr hcalls => ?_) ?_
        · rw [hof.storage, h.called addr hcalls]
        · rw [hof.storage, hof.strTxHash, h.created]
      rw [h.code]
      dsimp only [Except.map]
      rw [settleContract_congr h.serializer1 h.serializer3]
      unfold ContractRun.outcome ContractRun.used
      rw [hexec]
      rfl

/-! ### Transactions -/

theorem getUtxosPatch_congr {storage storage' : Storage} {hashes : List Hash}
    (h : ∀ hash ∈ hashes, storage'.getUtxo hash = storage.getUtxo hash) :
    storage'.getUtxosPatch hashes = storage.getUtxosPatch hashes := by
  unfold Storage.getUtxosPatch
  generalize PatchDB.empty = patch
  induction hashes generalizing patch with
  | nil => rfl
  | cons hash rest ih =>
      obtain ⟨hfirst, hrest⟩ := List.forall_mem_cons.mp h
      rw [List.foldl_cons, List.foldl_cons, hfirst]
      exact ih hrest _

/-- **A transaction is processed alike in states that agree on what it reads.** -/
theorem processTx_congr (h : SameReads F patchForBlock tx node node' behaviour behaviour') :
    processTx F node' patchForBlock false tx behaviour' =
      processTx F node patchForBlock false tx behaviour := by
  have hfind : findContract F node' patchForBlock tx = findContract F node patchForBlock tx := by
    unfold findContract
    split
    next => rfl
    next => rfl
    next =>
      split
      next => rfl
      next addr haddr => rw [getContractByAddr_congr (h.receiver addr haddr)]
  have hinputs : processInputs F node' patchForBlock false tx =
      processInputs F node patchForBlock false tx := by
    unfold processInputs inputsView NodeView.calculateSizeFee
    rw [getUtxosPatch_congr h.utxos, feeOf_congr h.concilium]
  have hprepare : prepareTx F node' patchForBlock false tx =
      prepareTx F node patchForBlock false tx := by
    unfold prepareTx
    rw [hfind, hinputs]
  unfold processTx
  rw [hprepare]
  cases hprepared : prepareTx F node patchForBlock false tx with
  | error error => rfl
  | ok prepared =>
      dsimp only
      cases hcontract : prepared.contract with
      | none => rfl
      | some contract =>
          refine processContract_congr h.concilium (h.run fun hnone => ?_) ..
          have hfound := (prepareTx_contract hprepared).symm.trans hnone
          rw [hcontract] at hfound
          cases hfound

end CilCore
