import CilCore.Node.BlockLedger
import CilCore.Node.CoinLimits
import CilCore.Node.ReceiptCompleteness
import Mathlib.Algebra.Ring.Subring.Basic
import Mathlib.Data.Rat.Floor

/-!
# Whole amounts

Amounts are numbers, and every clone of a UTXO or a contract writes them into `fixed64`
fields and reads them back. `setUtxo` clones the UTXO that it is given; what is said here
of a UTXO in a patch is said of the one that was given.
-/

namespace CilCore

/-- A non-negative integer. -/
def Whole (amount : Amount) : Prop := ∃ n : Nat, amount = n

/-- The amount that is read back after it was written into a `fixed64` field: the fraction
is lost. -/
def readBack (amount : Amount) : Amount := (⌊amount⌋₊ : Nat)

/-- The integers among the amounts. -/
abbrev integers : Subring Amount := (Int.castRingHom Amount).range

/-- All coins are whole. -/
def WholeUtxos (utxos : FinMap Hash UTXO) : Prop :=
  ∀ hash utxo idx coins, utxos.lookup hash = some utxo → utxo.lookup idx = some coins →
    Whole coins.amount

/-- All balances are whole. -/
def WholeContracts (contracts : FinMap Address Contract) : Prop :=
  ∀ address contract, contracts.lookup address = some contract → Whole contract.balance

/-- Coins and balances are whole, as they are when they were decoded. -/
structure Storage.AmountsWhole (storage : Storage) : Prop where
  utxos : WholeUtxos storage.utxos
  contracts : WholeContracts storage.contracts

/-- Coins and balances are whole. -/
structure PatchDB.AmountsWhole (patch : PatchDB) : Prop where
  coins : WholeUtxos patch.coins
  contracts : WholeContracts patch.mapContractStates

/-- Coins and balances are read back as they were written. -/
structure PatchDB.KeepsAmounts (patch : PatchDB) : Prop where
  coins : ∀ hash utxo idx coins, patch.getUtxo hash = some utxo → utxo.lookup idx = some coins →
    readBack coins.amount = coins.amount
  contracts : ∀ address contract, patch.getContract address = some contract →
    readBack contract.balance = contract.balance

section Whole

variable {amount amount' : Amount} {utxos : FinMap Hash UTXO} {patch : PatchDB}

theorem whole_natCast (n : Nat) : Whole (n : Amount) := ⟨n, rfl⟩

theorem Whole.mem_integers (h : Whole amount) : amount ∈ integers := by
  obtain ⟨n, rfl⟩ := h
  exact natCast_mem integers n

theorem whole_iff : Whole amount ↔ amount ∈ integers ∧ 0 ≤ amount := by
  constructor
  · intro h
    refine ⟨h.mem_integers, ?_⟩
    obtain ⟨n, rfl⟩ := h
    exact Nat.cast_nonneg n
  · rintro ⟨⟨z, rfl⟩, hnonneg⟩
    obtain ⟨n, rfl⟩ := Int.eq_ofNat_of_zero_le (show 0 ≤ z by simpa using hnonneg)
    exact ⟨n, by simp⟩

theorem Whole.add (h : Whole amount) (h' : Whole amount') : Whole (amount + amount') := by
  obtain ⟨n, rfl⟩ := h
  obtain ⟨m, rfl⟩ := h'
  exact ⟨n + m, by rw [Nat.cast_add]⟩

/-- Whole amounts are those that a field keeps. -/
theorem readBack_eq_iff : readBack amount = amount ↔ Whole amount := by
  constructor
  · intro h
    exact ⟨_, h.symm⟩
  · rintro ⟨n, rfl⟩
    rw [readBack, Nat.floor_natCast]

theorem PatchDB.AmountsWhole.keepsAmounts (h : patch.AmountsWhole) : patch.KeepsAmounts where
  coins hash utxo idx coins hutxo hcoins :=
    readBack_eq_iff.mpr (h.coins hash utxo idx coins hutxo hcoins)
  contracts address contract hcontract :=
    readBack_eq_iff.mpr (h.contracts address contract hcontract)

theorem WholeUtxos.insert (h : WholeUtxos utxos) (txHash : Hash) {utxo : UTXO}
    (hutxo : ∀ idx coins, utxo.lookup idx = some coins → Whole coins.amount) :
    WholeUtxos (utxos.insert txHash utxo) := by
  intro hash found idx coins hfound hcoins
  rw [FinMap.lookup_insert_ite] at hfound
  split at hfound
  next =>
    cases hfound
    exact hutxo idx coins hcoins
  next => exact h hash found idx coins hfound hcoins

/-- A new UTXO with one coin. -/
theorem WholeUtxos.insert_single (h : WholeUtxos utxos) (txHash : Hash) {coins : Coins}
    (hwhole : Whole coins.amount) :
    WholeUtxos (utxos.insert txHash ((∅ : UTXO).insert 0 coins)) := by
  refine h.insert txHash fun idx found hfound => ?_
  rw [FinMap.lookup_insert_ite] at hfound
  split at hfound
  next =>
    cases hfound
    exact hwhole
  next => cases hfound

theorem wholeUtxos_empty : WholeUtxos ∅ := by
  intro hash utxo idx coins hutxo
  cases hutxo

theorem wholeUtxos_merged {F : Factory} {bPreferPatchData : Bool} {A B : PatchDB}
    (hA : WholeUtxos A.coins) (hB : WholeUtxos B.coins) :
    WholeUtxos (PatchDB.merged F bPreferPatchData A B).coins := by
  intro hash utxo idx coins hutxo hcoins
  change (PatchDB.merged F bPreferPatchData A B).getUtxo hash = some utxo at hutxo
  rw [PatchDB.getUtxo_merged] at hutxo
  cases hmine : A.getUtxo hash with
  | none =>
      cases hhis : B.getUtxo hash with
      | none =>
          rw [hmine, hhis] at hutxo
          cases hutxo
      | some utxoHis =>
          rw [hmine, hhis] at hutxo
          cases hutxo
          exact hB hash utxo idx coins hhis hcoins
  | some utxoMy =>
      cases hhis : B.getUtxo hash with
      | none =>
          rw [hmine, hhis] at hutxo
          cases hutxo
          exact hA hash utxo idx coins hmine hcoins
      | some utxoHis =>
          -- what both have comes from the first
          rw [hmine, hhis] at hutxo
          cases hutxo
          rw [FinMap.lookup_tabulate] at hcoins
          split at hcoins
          next => exact hA hash utxoMy idx coins hmine hcoins
          next => cases hcoins

/-- A contract that is stored in a patch. -/
theorem wholeContracts_setContract {F : Factory} {contract : Contract}
    (h : WholeContracts patch.mapContractStates) (hcontract : Whole contract.balance) :
    WholeContracts (patch.setContract F contract).mapContractStates := by
  intro address found hfound
  change Finmap.lookup address (patch.mapContractStates.insert _ _) = some found at hfound
  rw [FinMap.lookup_insert_ite] at hfound
  split at hfound
  next =>
    cases hfound
    unfold PatchDB.recordedContract
    split
    next old hold => exact h _ old hold
    next => exact hcontract
  next => exact h address found hfound

end Whole

/-! ### Inputs and payments -/

section Prepare

variable {F : Factory} {node : NodeView} {patchForBlock : Option PatchDB} {isGenesis : Bool}
  {tx : Transaction} {view patch patch' : PatchDB}

theorem wholeUtxos_inputsView (hstorage : node.storage.AmountsWhole)
    (hpatch : ∀ patch ∈ patchForBlock, patch.AmountsWhole)
    (h : inputsView F node patchForBlock tx = .ok view) : WholeUtxos view.coins := by
  have hstored : WholeUtxos (node.storage.getUtxosPatch tx.utxos).coins := by
    intro hash utxo idx coins hutxo hcoins
    change (node.storage.getUtxosPatch tx.utxos).getUtxo hash = some utxo at hutxo
    rw [getUtxo_getUtxosPatch] at hutxo
    split at hutxo
    next => exact hstorage.utxos hash utxo idx coins hutxo hcoins
    next => cases hutxo
  unfold inputsView at h
  dsimp only at h
  split at h
  next =>
    cases h
    exact hstored
  next patchBlock =>
    split at h
    next =>
      obtain ⟨-, -, -, -, -, rfl⟩ := PatchDB.merge_eq_ok.mp h
      exact wholeUtxos_merged (hpatch patchBlock rfl).coins hstored
    next =>
      cases h
      exact hstored

/-- The patch that spends the inputs, and their sum. -/
theorem wholeUtxos_processTxInputsFrom (hview : WholeUtxos view.coins) {inputs : List Input}
    {i : Nat} {totalHas totalHas' : Amount} (hpatch : WholeUtxos patch.coins)
    (htotal : totalHas ∈ integers)
    (h : App.processTxInputsFrom F tx view i inputs patch totalHas = .ok (patch', totalHas')) :
    WholeUtxos patch'.coins ∧ totalHas' ∈ integers := by
  induction inputs generalizing i patch totalHas with
  | nil =>
      cases h
      exact ⟨hpatch, htotal⟩
  | cons input rest ih =>
      unfold App.processTxInputsFrom at h
      split at h
      next => cases h
      next patchNext totalNext hinput =>
        obtain ⟨utxo, coins, hutxo, hcoins, -, -, rfl, rfl⟩ := App.processTxInput_ok hinput
        refine ih ?_ ?_ h
        · refine hpatch.insert input.txHash fun idx found hfound => ?_
          rw [FinMap.lookup_erase_ite] at hfound
          split at hfound
          next => cases hfound
          next =>
            cases hold : patch.getUtxo input.txHash with
            | none =>
                rw [hold] at hfound
                exact hview input.txHash utxo idx found hutxo hfound
            | some old =>
                rw [hold] at hfound
                exact hpatch input.txHash old idx found hold hfound
        · exact add_mem htotal (hview input.txHash utxo _ coins hutxo hcoins).mem_integers

theorem wholeUtxos_processPaymentsFrom {txHash : Hash} {outs : List Coins} {i : Nat}
    {totalSent totalSent' : Amount} (houts : ∀ coins ∈ outs, Whole coins.amount)
    (hpatch : WholeUtxos patch.coins) (htotal : totalSent ∈ integers)
    (h : App.processPaymentsFrom txHash i outs patch totalSent = .ok (patch', totalSent')) :
    WholeUtxos patch'.coins ∧ totalSent' ∈ integers := by
  induction outs generalizing i patch totalSent with
  | nil =>
      cases h
      exact ⟨hpatch, htotal⟩
  | cons coins rest ih =>
      have hrest : ∀ coins ∈ rest, Whole coins.amount :=
        fun coins hcoins => houts coins (List.mem_cons_of_mem _ hcoins)
      unfold App.processPaymentsFrom at h
      split at h
      next => exact ih hrest hpatch htotal h
      next =>
        have hcoins := houts coins List.mem_cons_self
        split at h
        next => cases h
        next patchNext hcreate =>
          refine ih hrest ?_ (add_mem htotal hcoins.mem_integers) h
          unfold PatchDB.createCoins UTXO.addCoins at hcreate
          split at hcreate
          next => cases hcreate
          next utxo hadd =>
            cases hcreate
            split at hadd
            next => cases hadd
            next =>
              cases hadd
              refine hpatch.insert txHash fun idx found hfound => ?_
              rw [FinMap.lookup_insert_ite] at hfound
              split at hfound
              next =>
                cases hfound
                exact hcoins
              next =>
                cases hold : patch.getUtxo txHash with
                | none =>
                    rw [hold] at hfound
                    cases hfound
                | some old =>
                    rw [hold] at hfound
                    exact hpatch txHash old idx found hold hfound

/-- What a transaction has before its contract runs. -/
theorem wholeUtxos_prepareTx (hstorage : node.storage.AmountsWhole)
    (hpatch : ∀ patch ∈ patchForBlock, patch.AmountsWhole) {prepared : PreparedTx}
    (h : prepareTx F node patchForBlock isGenesis tx = .ok prepared) :
    WholeUtxos prepared.patchThisTx.coins ∧ prepared.nRemainingCoins ∈ integers := by
  unfold prepareTx at h
  split at h
  next => cases h
  next contract _ =>
    split at h
    next => cases h
    next patchInputs totalHas nFeeSize hinputs =>
      have hmine : WholeUtxos patchInputs.coins ∧ totalHas ∈ integers := by
        unfold processInputs at hinputs
        split at hinputs
        next =>
          cases hinputs
          exact ⟨wholeUtxos_empty, zero_mem _⟩
        next =>
          split at hinputs
          next => cases hinputs
          next view hview =>
            split at hinputs
            next => cases hinputs
            next patch total hspent =>
              split at hinputs
              next => cases hinputs
              next =>
                cases hinputs
                exact wholeUtxos_processTxInputsFrom (wholeUtxos_inputsView hstorage hpatch hview)
                  wholeUtxos_empty (zero_mem _) hspent
      split at h
      next => cases h
      next patchPaid totalSent hpayments =>
        obtain ⟨-, rfl⟩ := guard_eq_ok.mp h
        obtain ⟨hcoins, htotal⟩ := wholeUtxos_processPaymentsFrom (fun coins hcoins => by
          obtain ⟨out, -, rfl⟩ := List.mem_map.mp (List.mem_of_mem_drop hcoins)
          exact whole_natCast out.amount) hmine.1 (zero_mem _) hpayments
        refine ⟨hcoins, sub_mem ?_ ?_⟩
        · split
          next => exact natCast_mem integers 9007199254740991
          next => exact sub_mem hmine.2 htotal
        · split
          next => exact natCast_mem integers _
          next => exact zero_mem _

end Prepare

/-! ### The run -/

section Run

variable {F : Factory} {E : RunEnv}

theorem sentCoins_append (effects effects' : List Effect) :
    sentCoins (effects ++ effects') = sentCoins effects ++ sentCoins effects' :=
  List.filterMap_append

/-- Nobody sends more than what he has. -/
theorem balance_send_nonneg (strAddress : Option Address) (amount : Amount) {holder : Contract}
    (s : RunState) (h : 0 ≤ holder.balance) :
    0 ≤ (send F E strAddress amount holder s).2.1.balance := by
  unfold send
  split
  next => exact h
  next =>
    dsimp only
    fun_cases sendCoins F E strAddress amount holder s.patchTx with
    | case7 _ _ _ _ _ _ _ _ _ _ _ hwithdraw =>
        unfold Contract.withdraw at hwithdraw
        split at hwithdraw
        next => cases hwithdraw
        next hless =>
          cases hwithdraw
          change 0 ≤ holder.balance + (0 - amount)
          linarith
    | _ => exact h

/-- Contracts are found with whole balances. -/
theorem whole_previousBalance {storage : Storage} {patchForBlock : PatchDB}
    (hstorage : storage.AmountsWhole) (hpatch : patchForBlock.AmountsWhole) (address : Address) :
    Whole (previousBalance storage patchForBlock address) := by
  unfold previousBalance
  cases hfound : patchForBlock.getContract address with
  | some contract => exact hpatch.contracts address contract hfound
  | none =>
      rw [Option.none_or, Storage.getContract, Option.elim_map]
      cases hstored : storage.contracts.lookup address with
      | none => exact whole_natCast 0
      | some contract => exact hstorage.contracts address contract hstored

/-- The contracts that effects store have whole balances. -/
def StoresWhole (effects : List Effect) : Prop :=
  ∀ contract, .stored contract ∈ effects → Whole contract.balance

/-- **Whole sends leave whole balances**, in the holder and in what nested calls store. -/
theorem runCode_whole (hinj : Function.Injective (F.internalHash E.strTxHash))
    (hprevious : ∀ address, Whole (previousBalance E.storage E.patchBlock address)) (code : Code)
    (holder : Contract) (s : RunState) (h : s.patchTx.Ready F E.strTxHash)
    (hholder : Whole holder.balance)
    (hsent : ∀ coins ∈ sentCoins (journal F E code holder s), Whole coins.amount) :
    Whole (runCode F E code holder s).2.1.balance ∧ StoresWhole (journal F E code holder s) := by
  induction code generalizing holder s with
  | done data => exact ⟨hholder, fun contract hmem => absurd hmem List.not_mem_nil⟩
  | throws message => exact ⟨hholder, fun contract hmem => absurd hmem List.not_mem_nil⟩
  | send strAddress amount k ih =>
      rw [journal, sentCoins_append] at hsent
      rw [runCode, journal]
      have hnonneg := balance_send_nonneg (F := F) (E := E) strAddress amount s
        (whole_iff.mp hholder).2
      have hlater := fun coins hmem => hsent coins (List.mem_append_right _ hmem)
      rcases send_cases strAddress amount holder h with
        ⟨hpatch, hsame, heffects⟩ | ⟨receiver, -, -, hpatch, hafter, heffects⟩
      · obtain ⟨hend, hstored⟩ := ih _ _ _ (hpatch ▸ h) (by rwa [hsame]) hlater
        exact ⟨hend, by rwa [heffects, List.nil_append]⟩
      · have hamount : Whole amount :=
          hsent ⟨amount, receiver⟩ (List.mem_append_left _ (by rw [heffects]; simp [sentCoins]))
        have hleft : Whole (send F E strAddress amount holder s).2.1.balance := by
          refine whole_iff.mpr ⟨?_, hnonneg⟩
          rw [hafter]
          exact add_mem hholder.mem_integers (sub_mem (zero_mem _) hamount.mem_integers)
        obtain ⟨hend, hstored⟩ := ih _ _ _ (hpatch ▸ h.afterSend hinj receiver amount) hleft hlater
        refine ⟨hend, fun contract hmem => ?_⟩
        rw [heffects] at hmem
        rcases List.mem_cons.mp hmem with hsend | hmem
        · cases hsend
        · exact hstored contract hmem
  | call delegate strAddress coinsToPass callee k ihcallee ihk =>
      cases hstart : startCall F E strAddress coinsToPass s with
      | error error =>
          simp only [runCode, journal, hstart] at hsent ⊢
          exact ihk _ _ _ h hholder hsent
      | ok started =>
          obtain ⟨nested, nCoinsLimit⟩ := started
          simp only [runCode, journal, hstart, sentCoins_append] at hsent ⊢
          have hnested : Whole nested.balance := by
            rw [(startCall_found hstart).2]
            exact hprevious strAddress
          have hcalled : Whole (if delegate then holder else nested).balance := by
            split
            next => exact hholder
            next => exact hnested
          obtain ⟨hstopped, hinner⟩ := ihcallee _ { s with nCoinsLimit } h hcalled
            fun coins hmem => hsent coins (List.mem_append_left _ hmem)
          obtain ⟨-, hready⟩ := startedCall_patchTx hinj delegate callee holder nested nCoinsLimit h
          have hcaller : Whole (startedCall F E delegate callee holder nested s
              nCoinsLimit).reply.2.1.balance := by
            change Whole (endCall F E delegate holder nested _).2.1.balance
            rw [endCall_caller]
            cases delegate with
            | true => exact hstopped
            | false => exact hholder
          obtain ⟨hend, hstored⟩ := ihk _ _ _ hready hcaller
            fun coins hmem => hsent coins (List.mem_append_right _ (List.mem_append_right _ hmem))
          refine ⟨hend, fun contract hmem => ?_⟩
          rcases List.mem_append.mp hmem with hmem | hmem
          · exact hinner contract hmem
          rcases List.mem_append.mp hmem with hmem | hmem
          · -- the nested contract, as its method left it or as it was loaded
            unfold endEffects at hmem
            split at hmem
            next => cases hmem
            next data _ =>
              cases List.mem_singleton.mp hmem
              rw [balance_finishedContract]
              cases delegate with
              | true => exact hnested
              | false => exact hstopped
          · exact hstored contract hmem

/-- What effects leave in a patch. -/
theorem wholeContracts_replay {strTxHash : Hash} {effects : List Effect} {patch : PatchDB}
    (h : WholeContracts patch.mapContractStates) (hstored : StoresWhole effects) :
    WholeContracts (Effect.replay F strTxHash effects patch).mapContractStates := by
  induction effects generalizing patch with
  | nil => exact h
  | cons effect rest ih =>
      have hrest : StoresWhole rest := fun contract hmem =>
        hstored contract (List.mem_cons_of_mem _ hmem)
      cases effect with
      | sent strAddress amount =>
          have hsame : WholeContracts
              (patch.afterSend F strTxHash strAddress amount).mapContractStates := h
          exact ih hsame hrest
      | stored contract =>
          exact ih (wholeContracts_setContract h (hstored contract List.mem_cons_self)) hrest

theorem wholeUtxos_replay {strTxHash : Hash} {effects : List Effect} {patch : PatchDB}
    (h : WholeUtxos patch.coins) (hsent : ∀ coins ∈ sentCoins effects, Whole coins.amount) :
    WholeUtxos (Effect.replay F strTxHash effects patch).coins := by
  induction effects generalizing patch with
  | nil => exact h
  | cons effect rest ih =>
      cases effect with
      | sent strAddress amount =>
          have hcoins : WholeUtxos (patch.afterSend F strTxHash strAddress amount).coins :=
            h.insert_single _ (hsent ⟨amount, strAddress⟩ List.mem_cons_self)
          exact ih hcoins fun coins hmem => hsent coins (List.mem_cons_of_mem _ hmem)
      | stored contract =>
          have hsame : WholeUtxos (patch.setContract F contract).coins := h
          exact ih hsame hsent

end Run

/-! ### The end of a transaction -/

section Settled

variable {F : Factory} {node : NodeView} {patchForBlock : Option PatchDB} {isGenesis : Bool}
  {tx : Transaction} {behaviour : Behaviour} {run : ContractRun} {fee : Amount}
  {patchThisTx : PatchDB} {o : ContractOutcome} {used nMaxCoins : Amount}

/-- What settling adds to the coins and the contracts: the change, and the contract. -/
theorem settleContract_adds
    (h : settleContract F node isGenesis tx nMaxCoins used o = .ok (fee, patchThisTx)) :
    (∃ stored, patchThisTx.mapContractStates =
        (settledPatch F node tx o stored).mapContractStates) ∧
      (patchThisTx.coins = o.state.patchTx.coins ∨
        ∃ change : Coins, change.amount = maxFee F node tx nMaxCoins o - used ∧
          0 ≤ change.amount ∧ patchThisTx.coins = o.state.patchTx.coins.insert
            (F.internalHash (tx.hash F) o.state.patchTx.nonce) ((∅ : UTXO).insert 0 change)) := by
  obtain ⟨stored, -, hcases⟩ := settleContract_ok h
  obtain ⟨hcoins, hnonce⟩ := storeOutcome_coins F node tx o { o.state.patchTx with
    mapTxReceipts := o.state.patchTx.mapTxReceipts.insert (tx.hash F) stored }
  obtain ⟨-, -, rfl⟩ | ⟨-, -, -, rfl⟩ | ⟨-, -, hchange⟩ := hcases
  · exact ⟨⟨stored, rfl⟩, .inl hcoins⟩
  · exact ⟨⟨stored, rfl⟩, .inl hcoins⟩
  · obtain ⟨-, -, rfl⟩ | ⟨receiver, -, -, ⟨-, rfl⟩ | ⟨hpos, rfl⟩⟩ := createContractChange_ok hchange
    · exact ⟨⟨stored, rfl⟩, .inl hcoins⟩
    · exact ⟨⟨stored, rfl⟩, .inl hcoins⟩
    · refine ⟨⟨stored, rfl⟩, .inr ⟨⟨_, receiver⟩, rfl, hpos.le, ?_⟩⟩
      have hnonce : (settledPatch F node tx o stored).nonce = o.state.patchTx.nonce := hnonce
      have hcoins : (settledPatch F node tx o stored).coins = o.state.patchTx.coins := hcoins
      dsimp only
      rw [hnonce, hcoins]
      rfl

/-- The contract is stored with a whole balance. -/
theorem wholeContracts_settledPatch {stored : TxReceipt}
    (h : WholeContracts o.state.patchTx.mapContractStates)
    (hcontract : ∀ contract, o.contract = some contract → Whole contract.balance) :
    WholeContracts (settledPatch F node tx o stored).mapContractStates := by
  unfold settledPatch storeOutcome
  split
  next contract hstore =>
    obtain ⟨-, found, hfound, -, hbalance⟩ := contractToStore_some hstore
    obtain ⟨stored, hstored, -, hdeposit⟩ := storeContract_eq (F := F) tx contract
      { o.state.patchTx with
        mapTxReceipts := o.state.patchTx.mapTxReceipts.insert (tx.hash F) stored }
    rw [hstored]
    refine wholeContracts_setContract h ?_
    rw [hdeposit, hbalance]
    exact (hcontract found hfound).add (whole_natCast _)
  next => exact h

/-- What a transaction uses is an integer: fees, and storage by the byte. -/
theorem used_mem_integers (F : Factory) (tx : Transaction) (behaviour : Behaviour)
    (run : ContractRun) : run.used F tx behaviour ∈ integers := by
  have hcharged : chargedFees run.env (run.charges F tx behaviour) ∈ integers := by
    refine list_sum_mem fun fee hfee => ?_
    obtain ⟨charge, -, rfl⟩ := List.mem_map.mp hfee
    cases charge.kind <;> exact natCast_mem integers _
  unfold ContractRun.used coinsUsed
  rw [(run.execContract_debits tx behaviour).spent]
  exact add_mem (add_mem (natCast_mem integers _) hcharged)
    (mul_mem (intCast_mem integers _) (natCast_mem integers _))

/-- Whole sends leave the contract of the transaction with a whole balance. -/
theorem whole_outcome (hinj : Function.Injective (F.internalHash run.env.strTxHash))
    (hprevious : ∀ address, Whole (previousBalance run.env.storage run.env.patchBlock address))
    (hready : run.patchThisTx.Ready F run.env.strTxHash)
    (hloaded : ∀ contract, run.contract = some contract → Whole contract.balance)
    (hsent : ∀ coins ∈ sentCoins (run.journal F tx behaviour), Whole coins.amount) :
    (∀ contract, (run.outcome F tx behaviour).contract = some contract → Whole contract.balance) ∧
      StoresWhole (run.journal F tx behaviour) := by
  have hnone (h : run.invocation F tx = none) : StoresWhole (run.journal F tx behaviour) := by
    intro contract hmem
    simp [ContractRun.journal, h] at hmem
  rw [ContractRun.outcome, contract_checkCoinsUsed]
  cases execContract_cases F tx behaviour run with
  | notCreated hcontract hcreated _ _ =>
      refine ⟨fun contract hmine => ?_, hnone (by simp [ContractRun.invocation, hcontract])⟩
      rw [hcreated] at hmine
      cases hmine
  | created hcontract created hcreated _ _ _ hbalance =>
      refine ⟨fun contract hmine => ?_, hnone (by simp [ContractRun.invocation, hcontract])⟩
      rw [hcreated] at hmine
      cases hmine
      exact ⟨0, by rw [hbalance, Nat.cast_zero]⟩
  | refused contract hcontract hinvocation message hexec =>
      refine ⟨fun found hmine => ?_, hnone hinvocation⟩
      rw [hexec] at hmine
      cases hmine
      exact hloaded contract hcontract
  | invoked contract started s hcontract hinvocation _ hbalance hpatch hexec =>
      have hjournal : run.journal F tx behaviour =
          CilCore.journal F run.env behaviour.method started s := by
        simp only [ContractRun.journal, hinvocation]
      rw [hjournal] at hsent ⊢
      obtain ⟨hend, hstored⟩ := runCode_whole hinj hprevious behaviour.method started s
        (hpatch ▸ hready) (by rw [hbalance]; exact hloaded contract hcontract) hsent
      refine ⟨fun found hmine => ?_, hstored⟩
      obtain ⟨-, left, hleft, -, hleftBalance⟩ := endInvocation_spec (F := F)
        (started.getDataSize F) (runCode F run.env behaviour.method started s)
      rw [hexec, hleft] at hmine
      cases hmine
      rw [hleftBalance]
      exact hend

end Settled

/-! ### A contract that sends half a coin -/

section Sample

/-- A method that sends a fraction. -/
def sendHalf : Code := .send (some 9) (1 / 2) fun _ => .done Contract.emptyData

theorem amountsWhole_sampleNode : sampleNode.storage.AmountsWhole where
  utxos := by
    intro hash utxo idx coins hutxo hcoins
    change Finmap.lookup hash ((∅ : FinMap Hash UTXO).insert 5 _) = some utxo at hutxo
    rw [FinMap.lookup_insert_ite] at hutxo
    split at hutxo
    next =>
      cases hutxo
      rw [FinMap.lookup_insert_ite] at hcoins
      split at hcoins
      next =>
        cases hcoins
        exact ⟨100000, by norm_num⟩
      next => cases hcoins
    next => cases hutxo
  contracts := by
    intro address contract hcontract
    change Finmap.lookup address ((∅ : FinMap Address Contract).insert 77 _) = some contract
      at hcontract
    rw [FinMap.lookup_insert_ite] at hcontract
    split at hcontract
    next =>
      cases hcontract
      exact ⟨500, by norm_num [sampleContract]⟩
    next => cases hcontract

end Sample

end CilCore
