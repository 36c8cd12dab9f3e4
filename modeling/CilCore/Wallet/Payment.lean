import CilCore.Lib.Prefixes
import CilCore.Wallet.StoredWallets

/-!
# What a payment gathers

Address by address a payment takes the non-zero coins of the account until they
exceed what is required so far, where each coin raises the requirement by the fee
of an input. Gathering stops only where the requirement is exceeded, not where it
is met, so a further coin that does not pay for its own input can undo a payment
that was covered exactly.
-/

namespace CilCore

open Prefixes TxDraft

/-- A coin of an account: the address that owns it, and the output. -/
abbrev OwnedCoins := Address × UnspentCoins

namespace OwnedCoins

/-- The input that spends a coin. -/
def input (coins : OwnedCoins) : Input := coins.2.input

/-- What coins are worth. -/
def sumOwned (coins : List OwnedCoins) : Amount := (coins.map (·.2.amount)).sum

@[simp] theorem sumOwned_nil : sumOwned [] = 0 := rfl

@[simp] theorem sumOwned_append (xs ys : List OwnedCoins) :
    sumOwned (xs ++ ys) = sumOwned xs + sumOwned ys := by
  simp [sumOwned]

theorem sumOwned_map (strAddress : Address) (coins : List UnspentCoins) :
    sumOwned (coins.map (Prod.mk strAddress)) = (coins.map (·.amount)).sum := by
  simp [sumOwned, Function.comp_def]

end OwnedCoins

open OwnedCoins

namespace WalletStorage

/-- The non-zero coins of an address, in the order in which they are listed. -/
def coinsOf (S : WalletStorage) (strAddress : Address) : List UnspentCoins :=
  (finePrintUtxos (S.listUnspent strAddress [] (S.addressRecords strAddress))).filter
    fun coins => coins.amount ≠ 0

/-- The non-zero coins of some addresses, in the order in which they are gathered. -/
def ownedCoins (S : WalletStorage) (arrAddresses : List Address) : List OwnedCoins :=
  arrAddresses.flatMap fun strAddress => (S.coinsOf strAddress).map (Prod.mk strAddress)

/-! ### Every coin is listed once -/

variable {S : WalletStorage} {strAddress : Address}

/-- What is listed for an address are the address's outputs of a stored UTXO. -/
theorem mem_listUnspent {setHashes records : List Hash} {utxo : ListedUtxo}
    (h : utxo ∈ S.listUnspent strAddress setHashes records) :
    utxo.txHash ∉ setHashes ∧ ∃ stored, S.getUtxo utxo.txHash = some stored ∧
      utxo = stored.filterOutputsForAddress strAddress := by
  induction records generalizing setHashes with
  | nil => cases h
  | cons hash rest ih =>
    rw [listUnspent] at h
    split at h
    next => exact ih h
    next hfresh =>
      split at h
      next =>
        obtain ⟨hnot, hstored⟩ := ih h
        exact ⟨fun hmem => hnot (List.mem_cons_of_mem _ hmem), hstored⟩
      next stored hstored =>
        dsimp only at h
        have hhash := S.getUtxo_hash hash stored hstored
        split at h
        next =>
          obtain ⟨hnot, hothers⟩ := ih h
          exact ⟨fun hmem => hnot (List.mem_cons_of_mem _ hmem), hothers⟩
        next =>
          rcases List.mem_cons.mp h with rfl | hrest
          · refine ⟨?_, stored, ?_, rfl⟩
            · exact hhash ▸ hfresh
            · exact hhash ▸ hstored
          · obtain ⟨hnot, hothers⟩ := ih hrest
            exact ⟨fun hmem => hnot (List.mem_cons_of_mem _ hmem), hothers⟩

/-- No transaction is listed twice. -/
theorem nodup_listUnspent (setHashes records : List Hash) :
    ((S.listUnspent strAddress setHashes records).map (·.txHash)).Nodup := by
  induction records generalizing setHashes with
  | nil => exact List.nodup_nil
  | cons hash rest ih =>
    rw [listUnspent]
    split
    next => exact ih _
    next =>
      split
      next => exact ih _
      next stored hstored =>
        dsimp only
        split
        next => exact ih _
        next =>
          refine List.nodup_cons.mpr ⟨?_, ih _⟩
          intro hmem
          obtain ⟨utxo, hutxo, hhash⟩ := List.mem_map.mp hmem
          apply (mem_listUnspent hutxo).1
          rw [hhash]
          exact List.mem_cons.mpr (.inl (S.getUtxo_hash hash stored hstored))

/-- A coin of an address is an output of a stored UTXO that the address receives. -/
theorem exists_output_of_mem_coinsOf {coins : UnspentCoins} (h : coins ∈ S.coinsOf strAddress) :
    ∃ stored c, S.getUtxo coins.hash = some stored ∧ (coins.nOut, c) ∈ stored.outputs ∧
      c.receiverAddr = strAddress := by
  obtain ⟨hmem, -⟩ := List.mem_filter.mp h
  obtain ⟨utxo, hutxo, hcoins⟩ := List.mem_flatMap.mp hmem
  obtain ⟨-, stored, hstored, rfl⟩ := mem_listUnspent hutxo
  obtain ⟨o, ho, rfl⟩ := List.mem_map.mp hcoins
  obtain ⟨hout, hreceiver⟩ := List.mem_filter.mp ho
  exact ⟨stored, o.2, hstored, hout, by simpa using hreceiver⟩

theorem nodup_coinsOf (S : WalletStorage) (strAddress : Address) :
    ((S.coinsOf strAddress).map (·.input)).Nodup :=
  (nodup_finePrintUtxos (nodup_listUnspent [] _)).sublist (List.filter_sublist.map _)

/-- An input spends coins of one address only. -/
theorem eq_of_input_eq {a b : Address} {x y : UnspentCoins} (hx : x ∈ S.coinsOf a)
    (hy : y ∈ S.coinsOf b) (heq : x.input = y.input) : a = b := by
  obtain ⟨stored, c, hstored, hc, rfl⟩ := exists_output_of_mem_coinsOf hx
  obtain ⟨stored', c', hstored', hc', rfl⟩ := exists_output_of_mem_coinsOf hy
  have hhash : x.hash = y.hash := congrArg Input.txHash heq
  have hout : x.nOut = y.nOut := congrArg Input.nTxOutput heq
  rw [hhash, hstored'] at hstored
  cases hstored
  rw [hout] at hc
  have hpair : (y.nOut, c) = (y.nOut, c') :=
    List.inj_on_of_nodup_map stored.nodup hc hc' rfl
  cases hpair
  rfl

/-- No two coins of an account are spent by one input. -/
theorem nodup_ownedCoins (S : WalletStorage) {arrAddresses : List Address}
    (hnodup : arrAddresses.Nodup) : ((S.ownedCoins arrAddresses).map OwnedCoins.input).Nodup := by
  induction arrAddresses with
  | nil => exact List.nodup_nil
  | cons a rest ih =>
    rw [List.nodup_cons] at hnodup
    rw [ownedCoins, List.flatMap_cons, List.map_append, List.nodup_append]
    refine ⟨?_, ih hnodup.2, ?_⟩
    · rw [List.map_map]
      exact S.nodup_coinsOf a
    · intro input hinput input' hinput' heq
      obtain ⟨coins, hcoins, rfl⟩ := List.mem_map.mp hinput
      obtain ⟨x, hx, rfl⟩ := List.mem_map.mp hcoins
      obtain ⟨coins', hcoins', rfl⟩ := List.mem_map.mp hinput'
      obtain ⟨b, hb, hmem⟩ := List.mem_flatMap.mp hcoins'
      obtain ⟨y, hy, rfl⟩ := List.mem_map.mp hmem
      have hab : a = b := eq_of_input_eq hx hy heq
      exact hnodup.1 (hab ▸ hb)

end WalletStorage

namespace StoredWallet

variable {W : StoredWallet} {nReq : Amount} {tx : TxDraft}

/-- The coins cover a requirement and the fees of their inputs. -/
def Covers (W : StoredWallet) (nReq : Amount) (coins : List OwnedCoins) : Prop :=
  nReq + coins.length * W.nFeePerInput ≤ sumOwned coins

/-- The coins are worth more than that. -/
def Exceeds (W : StoredWallet) (nReq : Amount) (coins : List OwnedCoins) : Prop :=
  nReq + coins.length * W.nFeePerInput < sumOwned coins

instance : DecidablePred (W.Covers nReq) := fun _ => inferInstanceAs (Decidable (_ ≤ _))

instance : DecidablePred (W.Exceeds nReq) := fun _ => inferInstanceAs (Decidable (_ < _))

/-- The coins that pay for a requirement: enough to exceed it, or all there are. -/
def gathered (W : StoredWallet) (nReq : Amount) (arrAddresses : List Address) :
    List OwnedCoins :=
  (gather (W.Exceeds nReq) [] (W.storage.ownedCoins arrAddresses)).1

/-! ### The loops gather these coins -/

/-- The coins of one address, after those that were taken before. -/
theorem gatherLoop_eq (W : StoredWallet) (nReq : Amount) (taken : List OwnedCoins) (strAddress : Address)
    (arrObjUnspent arrCoins : List UnspentCoins) :
    ∃ got, (gather (W.Exceeds nReq) (taken ++ arrCoins.map (Prod.mk strAddress))
        ((arrObjUnspent.filter fun coins => coins.amount ≠ 0).map (Prod.mk strAddress))).1 =
          taken ++ (arrCoins ++ got).map (Prod.mk strAddress) ∧
      W.gatherLoop (nReq - sumOwned taken + W.nFeePerInput * taken.length) arrObjUnspent arrCoins
          (arrCoins.map (·.amount)).sum =
        ⟨arrCoins ++ got, ((arrCoins ++ got).map (·.amount)).sum,
          (gather (W.Exceeds nReq) (taken ++ arrCoins.map (Prod.mk strAddress))
            ((arrObjUnspent.filter fun coins => coins.amount ≠ 0).map
              (Prod.mk strAddress))).2⟩ := by
  induction arrObjUnspent generalizing arrCoins with
  | nil => exact ⟨[], by simp [gather], by simp [gatherLoop, gather]⟩
  | cons coins rest ih =>
    by_cases hzero : coins.amount = 0
    · obtain ⟨got, hgot, hloop⟩ := ih arrCoins
      refine ⟨got, ?_, ?_⟩
      · simpa [hzero] using hgot
      · rw [gatherLoop, if_pos hzero]
        simpa [hzero] using hloop
    · have hfilter : ((coins :: rest).filter fun coins => coins.amount ≠ 0) =
          coins :: rest.filter fun coins => coins.amount ≠ 0 := by
        simp [hzero]
      have htaken : taken ++ arrCoins.map (Prod.mk strAddress) ++ [(strAddress, coins)] =
          taken ++ (arrCoins ++ [coins]).map (Prod.mk strAddress) := by
        simp
      have hsum : ((arrCoins ++ [coins]).map (·.amount)).sum =
          (arrCoins.map (·.amount)).sum + coins.amount := by
        simp
      -- the fees of the coins taken before are part of the amount
      have hexceeds : W.Exceeds nReq (taken ++ (arrCoins ++ [coins]).map (Prod.mk strAddress)) ↔
          (arrCoins.map (·.amount)).sum + coins.amount >
            nReq - sumOwned taken + W.nFeePerInput * taken.length +
              W.nFeePerInput * (arrCoins.length + 1) := by
        rw [Exceeds, sumOwned_append, sumOwned_map, hsum]
        simp only [List.length_append, List.length_map, List.length_singleton]
        push_cast
        constructor
        · intro h
          linarith
        · intro h
          linarith
      rw [hfilter, List.map_cons, gather, htaken, gatherLoop, if_neg hzero]
      by_cases henough : W.Exceeds nReq
          (taken ++ (arrCoins ++ [coins]).map (Prod.mk strAddress))
      · rw [if_pos henough, if_pos (hexceeds.mp henough)]
        exact ⟨[coins], rfl, by rw [hsum]⟩
      · rw [if_neg henough, if_neg fun h => henough (hexceeds.mpr h)]
        obtain ⟨got, hgot, hloop⟩ := ih (arrCoins ++ [coins])
        rw [hsum] at hloop
        exact ⟨coins :: got, by simpa using hgot, by simpa using hloop⟩

/-- Adding the inputs of coins. -/
theorem addInputs_eq (hopen : tx.Open) (arrCoins : List UnspentCoins) :
    arrCoins.foldlM (fun tx objCoin => tx.addInput objCoin.hash objCoin.nOut) tx =
      .ok (tx.withInputs (arrCoins.map (·.input))) := by
  induction arrCoins generalizing tx with
  | nil =>
    rw [List.map_nil, withInputs_nil]
    rfl
  | cons coins rest ih =>
    rw [List.foldlM_cons, hopen.addInput]
    exact (ih (hopen.withInputs _)).trans (by simp [UnspentCoins.input])

/-- The coins of all addresses. The loop fails only at an address that is not
watched. -/
theorem formTxInputsLoop_eq (W : StoredWallet) (nReq : Amount) (arrAddresses : List Address) (hopen : tx.Open)
    (taken : List OwnedCoins) :
    ((∃ strAddress ∈ arrAddresses, strAddress ∉ W.storage.arrStrWalletAddresses) ∧
      ∃ e, W.formTxInputsLoop arrAddresses tx (sumOwned taken) (nReq - sumOwned taken)
        (taken.map (·.1)) = .error e) ∨
    ∃ got, (gather (W.Exceeds nReq) taken (W.storage.ownedCoins arrAddresses)).1 =
        taken ++ got ∧
      W.formTxInputsLoop arrAddresses tx (sumOwned taken) (nReq - sumOwned taken) (taken.map (·.1)) =
        .ok (tx.withInputs (got.map OwnedCoins.input), sumOwned (taken ++ got),
          (taken ++ got).map (·.1)) := by
  induction arrAddresses generalizing tx taken with
  | nil =>
    refine .inr ⟨[], ?_, ?_⟩
    · simp [WalletStorage.ownedCoins, gather]
    · simp [formTxInputsLoop]
  | cons a rest ih =>
    by_cases hwatched : a ∈ W.storage.arrStrWalletAddresses
    · obtain ⟨mine, hmine, hloop⟩ := gatherLoop_eq W nReq taken a
        (finePrintUtxos (W.storage.listUnspent a [] (W.storage.addressRecords a))) []
      simp only [List.map_nil, List.append_nil, List.nil_append, List.sum_nil] at hmine hloop
      have howned : W.storage.ownedCoins (a :: rest) =
          (W.storage.coinsOf a).map (Prod.mk a) ++ W.storage.ownedCoins rest := rfl
      have hinputs : mine.map (·.input) = (mine.map (Prod.mk a)).map OwnedCoins.input := by
        simp [OwnedCoins.input, Function.comp_def]
      have howners : taken.map (·.1) ++ mine.map (fun _ => a) =
          (taken ++ mine.map (Prod.mk a)).map (·.1) := by
        simp [Function.comp_def]
      have hsum : sumOwned taken + (mine.map (·.amount)).sum =
          sumOwned (taken ++ mine.map (Prod.mk a)) := by
        rw [sumOwned_append, sumOwned_map]
      have hrest : nReq - sumOwned taken - (mine.map (·.amount)).sum =
          nReq - sumOwned (taken ++ mine.map (Prod.mk a)) := by
        rw [← hsum, sub_sub]
      rw [howned, gather_append]
      simp only [formTxInputsLoop, WalletStorage.walletListUnspent, hwatched, not_true_eq_false,
        if_false, bind, Except.bind, gatherInputsForAmount, List.length_map, hloop,
        addInputs_eq hopen, howners, hsum, hrest, hinputs]
      split
      next hdone =>
        rw [WalletStorage.coinsOf, if_pos hdone]
        exact .inr ⟨_, hmine, rfl⟩
      next hmore =>
        rw [WalletStorage.coinsOf, if_neg hmore, hmine]
        rcases ih (hopen.withInputs _) (taken ++ mine.map (Prod.mk a)) with
          ⟨⟨b, hb, hunwatched⟩, hfail⟩ | ⟨got, hgot, hok⟩
        · exact .inl ⟨⟨b, List.mem_cons_of_mem a hb, hunwatched⟩, hfail⟩
        · refine .inr ⟨mine.map (Prod.mk a) ++ got, ?_, ?_⟩
          · rw [hgot, List.append_assoc]
          · rw [hok]
            simp
    · refine .inl ⟨⟨a, List.mem_cons_self, hwatched⟩, "not in wallet!", ?_⟩
      simp only [formTxInputsLoop, WalletStorage.walletListUnspent, hwatched,
        not_false_eq_true, if_true]
      rfl

/-! ### What a payment returns -/

variable {C : Crypto}

theorem payload_claim {idx : Nat} {key : PrivateKey} {tx' : TxDraft}
    (h : tx.claim C idx key = .ok tx') : tx'.payload = tx.payload := by
  unfold TxDraft.claim at h
  split at h
  next => cases h
  next =>
    cases h
    rfl

theorem payload_claimFunds (C : Crypto) (keys : Address → Option PrivateKey) (owners : List Address) (i : Nat)
    (tx : TxDraft) : (claimFunds C keys i owners tx).1.payload = tx.payload := by
  induction owners generalizing i tx with
  | nil => rfl
  | cons a rest ih =>
    rw [claimFunds]
    split
    next => rfl
    next pk _ =>
      split
      next => rfl
      next tx' hclaim => rw [ih, payload_claim hclaim]

/-- Claiming and signing leave the payload. -/
theorem payload_claimFundsAndSignTx (C : Crypto) (tx : TxDraft) (owners : List Address)
    (keystores : Address → Option Keystore) (strPassword : String)
    (strAddrToSign : Option Address) :
    (claimFundsAndSignTx C tx owners keystores strPassword strAddrToSign).1.payload =
      tx.payload := by
  unfold claimFundsAndSignTx
  split
  next => rfl
  next keys _ =>
    have hfunds := payload_claimFunds C keys owners 0 tx
    split
    next tx' e hclaim => rwa [hclaim] at hfunds
    next tx' hclaim =>
      rw [hclaim] at hfunds
      split
      next => exact hfunds
      next => exact hfunds

/-- What the gathered coins leave over. -/
def changeOf (W : StoredWallet) (nReq : Amount) (coins : List OwnedCoins) : Amount :=
  sumOwned coins - (nReq + coins.length * W.nFeePerInput)

/-- The output that returns the change, if there is any. -/
def changeOutputs (W : StoredWallet) (nReq : Amount) (coins : List OwnedCoins)
    (strChangeAddress : Address) : List DraftOutput :=
  if W.changeOf nReq coins ≠ 0 then
    [{ amount := W.changeOf nReq coins, receiverAddr := strChangeAddress }]
  else []

/-- The transaction that spends coins, before it is claimed. -/
def unclaimed (W : StoredWallet) (tx : TxDraft) (outs : List DraftOutput) (nReq : Amount)
    (coins : List OwnedCoins) (strChangeAddress : Address) : TxDraft :=
  ((tx.withInputs (coins.map OwnedCoins.input)).withOutputs outs).withOutputs
    (W.changeOutputs nReq coins strChangeAddress)

variable {strAccountName strPassword : String} {strChangeAddress : Address}
  {strAddrToSign : Option Address} {addReceivers : TxDraft → Except String TxDraft}
  {outs : List DraftOutput}

theorem payAndClaim_eq (C : Crypto) (nReq : Amount) (strPassword : String) (strChangeAddress : Address)
    (strAddrToSign : Option Address) (hopen : tx.Open)
    (hadd : ∀ tx : TxDraft, tx.Open → addReceivers tx = .ok (tx.withOutputs outs)) :
    ((∃ strAddress ∈ W.storage.getAccountAddresses strAccountName,
        strAddress ∉ W.storage.arrStrWalletAddresses) ∧
      ∃ e, W.payAndClaim C tx strAccountName strPassword nReq addReceivers strChangeAddress
        strAddrToSign = .error e) ∨
    W.payAndClaim C tx strAccountName strPassword nReq addReceivers strChangeAddress
        strAddrToSign =
      if W.Covers nReq (W.gathered nReq (W.storage.getAccountAddresses strAccountName)) then
        (W.storage.getKeystoresForAccount strAccountName).map fun mapAddrKeystore =>
          (claimFundsAndSignTx C
            (W.unclaimed tx outs nReq
              (W.gathered nReq (W.storage.getAccountAddresses strAccountName)) strChangeAddress)
            ((W.gathered nReq (W.storage.getAccountAddresses strAccountName)).map (·.1))
            mapAddrKeystore strPassword strAddrToSign).1
      else .error "Not enough coins to send." := by
  have hloop := formTxInputsLoop_eq W nReq
    (W.storage.getAccountAddresses strAccountName) hopen []
  simp only [sumOwned_nil, sub_zero, List.map_nil, List.nil_append] at hloop
  rcases hloop with ⟨hunwatched, e, hfail⟩ | ⟨got, hgot, hok⟩
  · refine .inl ⟨hunwatched, e, ?_⟩
    simp only [payAndClaim, formTxInputs, hfail]
    rfl
  · right
    have hgathered : W.gathered nReq (W.storage.getAccountAddresses strAccountName) = got := hgot
    rw [hgathered]
    simp only [payAndClaim, formTxInputs, hok, bind, Except.bind, List.length_map]
    by_cases hcovers : W.Covers nReq got
    · have hreq : ¬ sumOwned got < nReq + got.length * W.nFeePerInput := not_lt.mpr hcovers
      rw [if_pos hcovers, if_neg hreq, hadd _ (hopen.withInputs _)]
      dsimp only
      by_cases hchange : sumOwned got - (nReq + got.length * W.nFeePerInput) = 0
      · rw [if_neg (not_not.mpr hchange), unclaimed, changeOutputs, changeOf,
          if_neg (not_not.mpr hchange), withOutputs_nil]
        cases W.storage.getKeystoresForAccount strAccountName <;> rfl
      · rw [if_pos hchange, ((hopen.withInputs _).withOutputs _).addReceiver, unclaimed,
          changeOutputs, changeOf, if_pos hchange]
        cases W.storage.getKeystoresForAccount strAccountName <;> rfl
    · have hreq : sumOwned got < nReq + got.length * W.nFeePerInput := not_le.mp hcovers
      rw [if_neg hcovers, if_pos hreq]

/-- A payment that is returned spends the gathered coins. -/
theorem payAndClaim_ok (hopen : tx.Open)
    (hadd : ∀ tx : TxDraft, tx.Open → addReceivers tx = .ok (tx.withOutputs outs))
    {tx' : TxDraft}
    (h : W.payAndClaim C tx strAccountName strPassword nReq addReceivers strChangeAddress
      strAddrToSign = .ok tx') :
    W.Covers nReq (W.gathered nReq (W.storage.getAccountAddresses strAccountName)) ∧
      ∃ mapAddrKeystore,
        W.storage.getKeystoresForAccount strAccountName = .ok mapAddrKeystore ∧
        tx' = (claimFundsAndSignTx C
          (W.unclaimed tx outs nReq
            (W.gathered nReq (W.storage.getAccountAddresses strAccountName)) strChangeAddress)
          ((W.gathered nReq (W.storage.getAccountAddresses strAccountName)).map (·.1))
          mapAddrKeystore strPassword strAddrToSign).1 := by
  rcases payAndClaim_eq C nReq strPassword strChangeAddress strAddrToSign hopen hadd with
    ⟨-, e, hfail⟩ | heq
  · rw [hfail] at h
    cases h
  · rw [heq] at h
    split at h
    next hcovers =>
      refine ⟨hcovers, ?_⟩
      cases hkeys : W.storage.getKeystoresForAccount strAccountName with
      | error e =>
        rw [hkeys] at h
        cases h
      | ok mapAddrKeystore =>
        rw [hkeys] at h
        cases h
        exact ⟨mapAddrKeystore, rfl, rfl⟩
    next => cases h

/-- What is required before inputs are gathered: the amount and two receivers. -/
def requiredToSend (W : StoredWallet) (p : SendParameters) : Amount :=
  p.nAmount + W.nFeePerReceiver * 2

/-- The non-zero coins of the paying account. -/
def coinsToSend (W : StoredWallet) (p : SendParameters) : List OwnedCoins :=
  W.storage.ownedCoins (W.storage.getAccountAddresses p.strAccountName)

/-- An unlocked account whose addresses are watched and whose key files can be
read. -/
structure Usable (W : StoredWallet) (strAccountName : String) : Prop where
  unlocked : ∃ strPassword, W.mapAccountPasswords strAccountName = some strPassword
  watched : ∀ strAddress ∈ W.storage.getAccountAddresses strAccountName,
    strAddress ∈ W.storage.arrStrWalletAddresses
  readable : ∃ mapAddrKeystore,
    W.storage.getKeystoresForAccount strAccountName = .ok mapAddrKeystore

/-- The coins of the inputs pay the amount, the change, two receivers and the
inputs, and nothing else; each input is used once. -/
structure ExactPayment (W : StoredWallet) (p : SendParameters) (tx : TxDraft) : Prop where
  balance : ∃ change, 0 ≤ change ∧
    tx.outputs = { amount := p.nAmount, receiverAddr := p.strAddressTo } ::
      (if change ≠ 0 then [{ amount := change, receiverAddr := p.strChangeAddress }] else []) ∧
    sumOwned ((W.coinsToSend p).filter fun coins => coins.input ∈ tx.inputs) =
      p.nAmount + change + 2 * W.nFeePerReceiver + W.nFeePerInput * tx.inputs.length
  owned : ∀ input ∈ tx.inputs, input ∈ (W.coinsToSend p).map OwnedCoins.input
  nodup : tx.inputs.Nodup

theorem open_draft (nConciliumId : Nat) :
    TxDraft.Open { payload := { conciliumId := nConciliumId } } := ⟨rfl, rfl⟩

theorem addReceiver_eq (amount : Amount) (addr : Address) (tx : TxDraft) (hopen : tx.Open) :
    tx.addReceiver amount addr = .ok (tx.withOutputs [{ amount, receiverAddr := addr }]) :=
  hopen.addReceiver amount addr

/-- The coins that pay for a transfer. -/
def coinsSent (W : StoredWallet) (p : SendParameters) : List OwnedCoins :=
  W.gathered (W.requiredToSend p) (W.storage.getAccountAddresses p.strAccountName)

theorem sendToAddress_ok {p : SendParameters} (h : W.sendToAddress C p = .ok tx) :
    W.Covers (W.requiredToSend p) (W.coinsSent p) ∧
      ∃ strPassword mapAddrKeystore,
        W.mapAccountPasswords p.strAccountName = some strPassword ∧
        W.storage.getKeystoresForAccount p.strAccountName = .ok mapAddrKeystore ∧
        tx = (claimFundsAndSignTx C
          (W.unclaimed { payload := { conciliumId := p.nConciliumId } }
            [{ amount := p.nAmount, receiverAddr := p.strAddressTo }] (W.requiredToSend p)
            (W.coinsSent p) p.strChangeAddress)
          ((W.coinsSent p).map (·.1)) mapAddrKeystore strPassword none).1 := by
  unfold sendToAddress password at h
  cases hpassword : W.mapAccountPasswords p.strAccountName with
  | none =>
    rw [hpassword] at h
    cases h
  | some strPassword =>
    rw [hpassword] at h
    obtain ⟨hcovers, mapAddrKeystore, hkeys, htx⟩ := payAndClaim_ok (open_draft p.nConciliumId)
      (addReceiver_eq p.nAmount p.strAddressTo) h
    exact ⟨hcovers, strPassword, mapAddrKeystore, rfl, hkeys, htx⟩

/-- A usable account pays exactly where the gathered coins cover the payment. -/
theorem sendToAddress_ok_iff {p : SendParameters} (husable : W.Usable p.strAccountName) :
    (∃ tx, W.sendToAddress C p = .ok tx) ↔ W.Covers (W.requiredToSend p) (W.coinsSent p) := by
  constructor
  · rintro ⟨tx, h⟩
    exact (sendToAddress_ok h).1
  · intro hcovers
    obtain ⟨⟨strPassword, hpassword⟩, hwatched, mapAddrKeystore, hkeys⟩ := husable
    unfold sendToAddress password
    rw [hpassword]
    rcases payAndClaim_eq C (W.requiredToSend p) strPassword p.strChangeAddress none
      (open_draft p.nConciliumId) (addReceiver_eq p.nAmount p.strAddressTo) with
      ⟨⟨a, ha, hunwatched⟩, -⟩ | heq
    · exact absurd (hwatched a ha) hunwatched
    · rw [coinsSent] at hcovers
      rw [if_pos hcovers, hkeys] at heq
      exact ⟨_, heq⟩

/-- A transfer that is returned pays exactly. -/
theorem exactPayment_of_ok {p : SendParameters} (h : W.sendToAddress C p = .ok tx) :
    W.ExactPayment p tx := by
  obtain ⟨hcovers, strPassword, mapAddrKeystore, -, -, rfl⟩ := sendToAddress_ok h
  have hpayload := payload_claimFundsAndSignTx C
    (W.unclaimed { payload := { conciliumId := p.nConciliumId } }
      [{ amount := p.nAmount, receiverAddr := p.strAddressTo }] (W.requiredToSend p)
      (W.coinsSent p) p.strChangeAddress)
    ((W.coinsSent p).map (·.1)) mapAddrKeystore strPassword none
  have hnodup : ((W.coinsToSend p).map OwnedCoins.input).Nodup :=
    W.storage.nodup_ownedCoins (W.storage.nodup_addresses p.strAccountName)
  have hpre : W.coinsSent p <+: W.coinsToSend p := gather_nil_isPrefix _
  have hinputs : (claimFundsAndSignTx C (W.unclaimed { payload := { conciliumId := p.nConciliumId } }
      [{ amount := p.nAmount, receiverAddr := p.strAddressTo }] (W.requiredToSend p)
      (W.coinsSent p) p.strChangeAddress) ((W.coinsSent p).map (·.1)) mapAddrKeystore strPassword
      none).1.inputs = (W.coinsSent p).map OwnedCoins.input := by
    rw [TxDraft.inputs, hpayload]
    rfl
  refine ⟨⟨W.changeOf (W.requiredToSend p) (W.coinsSent p), sub_nonneg.mpr hcovers, ?_, ?_⟩, ?_, ?_⟩
  · rw [TxDraft.outputs, hpayload]
    rfl
  · rw [hinputs, filter_mem_map_of_isPrefix OwnedCoins.input hpre hnodup, List.length_map,
      changeOf, requiredToSend]
    ring
  · intro input hinput
    rw [hinputs] at hinput
    exact List.map_subset _ hpre.subset hinput
  · rw [hinputs]
    exact hnodup.sublist (hpre.sublist.map _)

/-- Coins pay where some of them, counted from the first, exceed what is required,
or all of them cover it. -/
theorem covers_coinsSent_iff (W : StoredWallet) (p : SendParameters) :
    W.Covers (W.requiredToSend p) (W.coinsSent p) ↔
      (∃ k, 0 < k ∧ k ≤ (W.coinsToSend p).length ∧
        W.Exceeds (W.requiredToSend p) ((W.coinsToSend p).take k)) ∨
      W.Covers (W.requiredToSend p) (W.coinsToSend p) := by
  have henough := gather_true_iff (W.Exceeds (W.requiredToSend p)) [] (W.coinsToSend p)
  simp only [List.nil_append] at henough
  cases hdone : (gather (W.Exceeds (W.requiredToSend p)) [] (W.coinsToSend p)).2 with
  | true =>
    have hexceeds : W.Exceeds (W.requiredToSend p) (W.coinsSent p) := enough_of_gather hdone
    exact ⟨fun _ => .inl (henough.mp hdone), fun _ => le_of_lt hexceeds⟩
  | false =>
    have hall : W.coinsSent p = W.coinsToSend p := congrArg Prod.fst (gather_eq_append hdone)
    have hno : ¬ ∃ k, 0 < k ∧ k ≤ (W.coinsToSend p).length ∧
        W.Exceeds (W.requiredToSend p) ((W.coinsToSend p).take k) := by
      rw [← henough, hdone]
      exact Bool.false_ne_true
    rw [hall]
    exact ⟨.inr, fun h => h.resolve_left hno⟩

end StoredWallet

/-- Transfers are exact, and succeed where some of the coins, counted from the
first, cover the payment. -/
def PaysExactlyAndCompletely (W : StoredWallet) (C : Crypto) (p : SendParameters) : Prop :=
  (∀ tx, W.sendToAddress C p = .ok tx → W.ExactPayment p tx) ∧
    ((∃ k ≤ (W.coinsToSend p).length,
        W.Covers (W.requiredToSend p) ((W.coinsToSend p).take k)) →
      ∃ tx, W.sendToAddress C p = .ok tx)

/-- A usable account pays exactly and completely where no part of its coins covers
the payment, or some part exceeds it, or all of them cover it. -/
theorem paysExactlyAndCompletely_iff (W : StoredWallet) (C : Crypto) (p : SendParameters)
    (husable : W.Usable p.strAccountName) :
    PaysExactlyAndCompletely W C p ↔
      (∀ k ≤ (W.coinsToSend p).length,
        ¬ W.Covers (W.requiredToSend p) ((W.coinsToSend p).take k)) ∨
      (∃ k, 0 < k ∧ k ≤ (W.coinsToSend p).length ∧
        W.Exceeds (W.requiredToSend p) ((W.coinsToSend p).take k)) ∨
      W.Covers (W.requiredToSend p) (W.coinsToSend p) := by
  rw [PaysExactlyAndCompletely, StoredWallet.sendToAddress_ok_iff husable,
    StoredWallet.covers_coinsSent_iff]
  constructor
  · rintro ⟨-, hcomplete⟩
    by_cases hsome : ∃ k ≤ (W.coinsToSend p).length,
        W.Covers (W.requiredToSend p) ((W.coinsToSend p).take k)
    · exact .inr (hcomplete hsome)
    · exact .inl fun k hk hcovers => hsome ⟨k, hk, hcovers⟩
  · intro hcond
    refine ⟨fun tx h => StoredWallet.exactPayment_of_ok h, ?_⟩
    rintro ⟨k, hk, hcovers⟩
    exact hcond.resolve_left fun hnone => hnone k hk hcovers

/-- One unlocked account with one address, the owner of coins 1800 and 100, or of
one output with these. -/
def WalletStorage.sample (outputs : List (Nat × Coins))
    (hnodup : (outputs.map (·.1)).Nodup) : WalletStorage where
  arrStrWalletAddresses := [7, 8]
  addressRecords _ := [101]
  getUtxo hash := if hash = 101 then some ⟨101, outputs, hnodup⟩ else none
  getUtxo_hash := by
    intro hash utxo h
    split at h
    next heq =>
      cases h
      exact heq.symm
    next => cases h
  getAccountAddresses _ := [7, 8]
  nodup_addresses _ := by decide
  getKeystoresForAccount _ := .ok fun a => some [a]

/-- An unlocked wallet with the default fees. -/
def StoredWallet.sample (storage : WalletStorage) : StoredWallet where
  storage
  mapAccountPasswords _ := some "secret"
  nFeePerInput := 480
  nFeePerReceiver := 160
  TX_FEE := 4000

/-- A coin that pays 1000 coins with all fees exactly, and one that does not pay
for its own input. -/
def exactThenDust : StoredWallet :=
  .sample (.sample [(0, ⟨1800, 7⟩), (1, ⟨100, 7⟩)] (by decide))

/-- A transfer of 1000 coins. -/
def sendThousand : SendParameters where
  strAccountName := "a"
  strAddressTo := 9
  nAmount := 1000
  strChangeAddress := 7

theorem StoredWallet.usable_exactThenDust : exactThenDust.Usable "a" where
  unlocked := ⟨"secret", rfl⟩
  watched := by decide
  readable := ⟨_, rfl⟩

theorem paysExactlyAndCompletely_iff_exactThenDust :
    PaysExactlyAndCompletely exactThenDust .sample sendThousand ↔
      (∀ k ≤ (exactThenDust.coinsToSend sendThousand).length,
        ¬ exactThenDust.Covers (exactThenDust.requiredToSend sendThousand)
          ((exactThenDust.coinsToSend sendThousand).take k)) ∨
      (∃ k, 0 < k ∧ k ≤ (exactThenDust.coinsToSend sendThousand).length ∧
        exactThenDust.Exceeds (exactThenDust.requiredToSend sendThousand)
          ((exactThenDust.coinsToSend sendThousand).take k)) ∨
      exactThenDust.Covers (exactThenDust.requiredToSend sendThousand)
        (exactThenDust.coinsToSend sendThousand) :=
  paysExactlyAndCompletely_iff exactThenDust .sample sendThousand
    StoredWallet.usable_exactThenDust

/-- The first coin covers the transfer, but the second one is gathered as well,
and then 380 coins are missing. -/
theorem not_paysExactlyAndCompletely_exactThenDust :
    ¬ PaysExactlyAndCompletely exactThenDust .sample sendThousand := by
  rintro ⟨-, hcomplete⟩
  have hcovers : ∃ k ≤ (exactThenDust.coinsToSend sendThousand).length,
      exactThenDust.Covers (exactThenDust.requiredToSend sendThousand)
        ((exactThenDust.coinsToSend sendThousand).take k) :=
    ⟨1, by decide +kernel, by decide +kernel⟩
  obtain ⟨tx, htx⟩ := hcomplete hcovers
  have hsent := (StoredWallet.sendToAddress_ok htx).1
  revert hsent
  decide +kernel

end CilCore
