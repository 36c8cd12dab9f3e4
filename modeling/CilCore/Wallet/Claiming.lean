import CilCore.Wallet.Payment

/-!
# Who claims a payment

Nobody awaits `_claimFundsAndSignTx`, so a key that is missing ends the claims
without failing the payment, and the transaction is returned as it is then. Keys
are decrypted for the owners of gathered coins only, and the signer's key is
looked up among them.
-/

namespace CilCore

open OwnedCoins Prefixes TxDraft

/-- Every input is claimed with the key of the owner of its coins. -/
def ClaimedByOwners (C : Crypto) (coins : List OwnedCoins) (tx : TxDraft) : Prop :=
  ∀ (i : Nat) (input : Input), tx.inputs[i]? = some input → ∃ c ∈ coins, c.input = input ∧
    ∃ sig, tx.claimProofs[i]? = some (some sig) ∧ C.recoverAddress (tx.getHash C) sig = c.1

/-- The transaction is signed by an address. -/
def SignedBy (C : Crypto) (strAddress : Address) (tx : TxDraft) : Prop :=
  ∃ sig, tx.txSignature = some sig ∧ C.recoverAddress (tx.getHash C) sig = strAddress

namespace StoredWallet

variable {W : StoredWallet} {C : Crypto} {tx : TxDraft} {owners : List Address}
  {strPassword : String} {keystores : Address → Option Keystore}
  {keys : Address → Option PrivateKey}

/-! ### The keys of the owners -/

theorem ensurePk_ok (h : ensurePk C strPassword keystores owners = .ok keys) :
    (∀ a ∈ owners, readKey C strPassword keystores a = .ok (keys a)) ∧
      ∀ a, a ∉ owners → keys a = none := by
  induction owners generalizing keys with
  | nil =>
    cases h
    exact ⟨by simp, fun _ _ => rfl⟩
  | cons b rest ih =>
    rw [ensurePk] at h
    cases hkey : readKey C strPassword keystores b with
    | error e =>
      rw [hkey] at h
      cases h
    | ok key =>
      rw [hkey] at h
      cases hrest : ensurePk C strPassword keystores rest with
      | error e =>
        rw [hrest] at h
        cases h
      | ok keys' =>
        rw [hrest] at h
        cases h
        obtain ⟨hin, hout⟩ := ih hrest
        refine ⟨?_, ?_⟩
        · intro a ha
          dsimp only
          by_cases hab : a = b
          · rw [if_pos hab, hab]
            exact hkey
          · rw [if_neg hab]
            exact hin a ((List.mem_cons.mp ha).resolve_left hab)
        · intro a ha
          rw [List.mem_cons, not_or] at ha
          dsimp only
          rw [if_neg ha.1]
          exact hout a ha.2

theorem ensurePk_error {e : String} (h : ensurePk C strPassword keystores owners = .error e) :
    ∃ a ∈ owners, ∃ e', readKey C strPassword keystores a = .error e' := by
  induction owners generalizing e with
  | nil => cases h
  | cons b rest ih =>
    rw [ensurePk] at h
    cases hkey : readKey C strPassword keystores b with
    | error e' => exact ⟨b, List.mem_cons_self, e', hkey⟩
    | ok key =>
      rw [hkey] at h
      cases hrest : ensurePk C strPassword keystores rest with
      | error e' =>
        obtain ⟨a, ha, hread⟩ := ih hrest
        exact ⟨a, List.mem_cons_of_mem b ha, hread⟩
      | ok keys' =>
        rw [hrest] at h
        cases h

/-! ### The claims -/

/-- With all keys, every owner claims. -/
theorem claimFunds_eq (pk : Address → PrivateKey) (hkeys : ∀ a ∈ owners, keys a = some (pk a))
    {i : Nat} (hi : tx.claimProofs.length = i) (hlen : i + owners.length ≤ tx.inputs.length) :
    claimFunds C keys i owners tx =
      (tx.withClaims (owners.map fun a => some (C.sign (tx.getHash C) (pk a))), none) := by
  induction owners generalizing tx i with
  | nil => simp [claimFunds]
  | cons a rest ih =>
    subst hi
    rw [List.length_cons] at hlen
    rw [claimFunds, hkeys a List.mem_cons_self]
    dsimp only
    rw [claim_length (by omega)]
    have hnext : (tx.withClaims [some (C.sign (tx.getHash C) (pk a))]).claimProofs.length =
        tx.claimProofs.length + 1 := by simp
    have hrest := ih (fun b hb => hkeys b (List.mem_cons_of_mem a hb)) hnext
      (by rw [inputs_withClaims]; omega)
    dsimp only
    rw [hrest]
    simp

/-- A missing key leaves an input unclaimed. -/
theorem claimFunds_missing (hmissing : ∃ a ∈ owners, keys a = none)
    {i : Nat} (hi : tx.claimProofs.length = i) (hlen : i + owners.length ≤ tx.inputs.length) :
    ∃ e tx', claimFunds C keys i owners tx = (tx', some e) ∧
      tx'.claimProofs.length < i + owners.length := by
  induction owners generalizing tx i with
  | nil =>
    obtain ⟨a, ha, -⟩ := hmissing
    cases ha
  | cons b rest ih =>
    subst hi
    rw [List.length_cons] at hlen ⊢
    rw [claimFunds]
    cases hkey : keys b with
    | none => exact ⟨_, tx, rfl, by omega⟩
    | some key =>
      have hrest : ∃ a ∈ rest, keys a = none := by
        obtain ⟨a, ha, hnone⟩ := hmissing
        rcases List.mem_cons.mp ha with rfl | ha
        · rw [hkey] at hnone
          cases hnone
        · exact ⟨a, ha, hnone⟩
      dsimp only
      rw [claim_length (by omega)]
      have hnext : (tx.withClaims [some (C.sign (tx.getHash C) key)]).claimProofs.length =
          tx.claimProofs.length + 1 := by simp
      obtain ⟨e, tx', htx', hlt⟩ := ih hrest hnext (by rw [inputs_withClaims]; omega)
      exact ⟨e, tx', htx', by omega⟩

/-- The key of an address can be decrypted. -/
def HasKey (C : Crypto) (strPassword : String) (keystores : Address → Option Keystore)
    (a : Address) : Prop :=
  ∃ pk, readKey C strPassword keystores a = .ok (some pk)

/-- Either all owners claim, and the signer signs if it is one of them, or some
owner has no key and some input is left unclaimed. -/
theorem claimFundsAndSignTx_cases (C : Crypto) (strPassword : String)
    (keystores : Address → Option Keystore) (coins : List OwnedCoins) (hopen : tx.Open)
    (hins : tx.inputs = coins.map OwnedCoins.input) (strAddrToSign : Option Address) :
    (∃ pk : Address → PrivateKey,
      (∀ c ∈ coins, readKey C strPassword keystores c.1 = .ok (some (pk c.1))) ∧
      (claimFundsAndSignTx C tx (coins.map (·.1)) keystores strPassword
        strAddrToSign).1.claimProofs =
          coins.map (fun c => some (C.sign (tx.getHash C) (pk c.1))) ∧
      (claimFundsAndSignTx C tx (coins.map (·.1)) keystores strPassword
        strAddrToSign).1.txSignature =
          (strAddrToSign.filter fun a => a ∈ coins.map (·.1)).map
            fun a => C.sign (tx.getHash C) (pk a)) ∨
    (∃ c ∈ coins, ¬ HasKey C strPassword keystores c.1) ∧
      (claimFundsAndSignTx C tx (coins.map (·.1)) keystores strPassword
        strAddrToSign).1.claimProofs.length < coins.length := by
  have hproofs : tx.claimProofs.length = 0 := by rw [hopen.2]; rfl
  have hlen : 0 + (coins.map (·.1)).length ≤ tx.inputs.length := by simp [hins]
  unfold claimFundsAndSignTx
  cases hkeys : ensurePk C strPassword keystores (coins.map (·.1)) with
  | error e =>
    right
    obtain ⟨a, ha, e', hread⟩ := ensurePk_error hkeys
    obtain ⟨c, hc, rfl⟩ := List.mem_map.mp ha
    refine ⟨⟨c, hc, ?_⟩, ?_⟩
    · rintro ⟨pk, hpk⟩
      rw [hread] at hpk
      cases hpk
    · dsimp only
      rw [hproofs]
      exact List.length_pos_of_mem hc
  | ok keys =>
    obtain ⟨hread, hothers⟩ := ensurePk_ok hkeys
    by_cases hall : ∀ a ∈ coins.map (·.1), (keys a).isSome
    · left
      have hpk : ∀ a ∈ coins.map (·.1), keys a = some ((keys a).getD []) := by
        intro a ha
        obtain ⟨pk, hpk⟩ := Option.isSome_iff_exists.mp (hall a ha)
        rw [hpk]
        rfl
      have hclaims := claimFunds_eq (C := C) (fun a => (keys a).getD []) hpk hproofs hlen
      refine ⟨fun a => (keys a).getD [], ?_, ?_, ?_⟩
      · intro c hc
        rw [hread _ (List.mem_map_of_mem hc), ← hpk _ (List.mem_map_of_mem hc)]
      · dsimp only
        rw [hclaims]
        dsimp only
        cases hsign : strAddrToSign.bind keys <;>
          simp [signForContract, withClaims, hopen.2, Function.comp_def]
      · dsimp only
        rw [hclaims]
        dsimp only
        cases strAddrToSign with
        | none => exact hopen.1
        | some a =>
          by_cases ha : a ∈ coins.map (·.1)
          · rw [Option.bind_some, hpk a ha, Option.filter_some, if_pos (decide_eq_true ha)]
            rfl
          · rw [Option.bind_some, hothers a ha, Option.filter_some,
              if_neg fun h => ha (of_decide_eq_true h)]
            exact hopen.1
    · right
      obtain ⟨a, hmissing⟩ := not_forall.mp hall
      obtain ⟨ha, hnone⟩ := Classical.not_imp.mp hmissing
      rw [Option.not_isSome_iff_eq_none] at hnone
      obtain ⟨e, tx', hclaims, hlt⟩ :=
        claimFunds_missing (C := C) ⟨a, ha, hnone⟩ hproofs hlen
      obtain ⟨c, hc, rfl⟩ := List.mem_map.mp ha
      refine ⟨⟨c, hc, ?_⟩, ?_⟩
      · rintro ⟨pk, hpk⟩
        rw [hread _ ha, hnone] at hpk
        cases hpk
      · dsimp only
        rw [hclaims]
        simpa using hlt

/-- The coins are claimed by their owners exactly where all keys are the owners'. -/
theorem claimed_iff (hC : C.Recovers) {coins gathered : List OwnedCoins} (hopen : tx.Open)
    (hins : tx.inputs = gathered.map OwnedCoins.input) (hsub : gathered ⊆ coins)
    (hnodup : (coins.map OwnedCoins.input).Nodup) (strAddrToSign : Option Address) :
    ClaimedByOwners C coins (claimFundsAndSignTx C tx (gathered.map (·.1)) keystores strPassword
        strAddrToSign).1 ↔
      ∀ c ∈ gathered, ∃ pk, readKey C strPassword keystores c.1 = .ok (some pk) ∧
        C.address pk = c.1 := by
  have hpayload := payload_claimFundsAndSignTx C tx (gathered.map (·.1)) keystores strPassword
    strAddrToSign
  have hinputs : (claimFundsAndSignTx C tx (gathered.map (·.1)) keystores strPassword
      strAddrToSign).1.inputs = gathered.map OwnedCoins.input := by
    rw [TxDraft.inputs, hpayload]
    exact hins
  have hhash : (claimFundsAndSignTx C tx (gathered.map (·.1)) keystores strPassword
      strAddrToSign).1.getHash C = tx.getHash C := by
    rw [TxDraft.getHash, hpayload, TxDraft.getHash]
  unfold ClaimedByOwners
  rw [hinputs, hhash]
  rcases claimFundsAndSignTx_cases C strPassword keystores gathered hopen hins strAddrToSign with
    ⟨pk, hread, hproofs, -⟩ | ⟨⟨c, hc, hmissing⟩, hlt⟩
  · rw [hproofs]
    constructor
    · intro hclaimed c hc
      refine ⟨pk c.1, hread c hc, ?_⟩
      obtain ⟨i, hi, rfl⟩ := List.mem_iff_getElem.mp hc
      obtain ⟨c', hc', hinput, sig, hsig, hrecover⟩ :=
        hclaimed i gathered[i].input (by simp [hi])
      have hsame : c' = gathered[i] := List.inj_on_of_nodup_map hnodup hc' (hsub hc) hinput
      simp only [List.getElem?_map, List.getElem?_eq_getElem hi, Option.map_some,
        Option.some.injEq] at hsig
      rw [← hsig, hC, hsame] at hrecover
      exact hrecover
    · intro howners i input hinput
      rw [List.getElem?_map, Option.map_eq_some_iff] at hinput
      obtain ⟨c, hc, rfl⟩ := hinput
      have hmem : c ∈ gathered := List.mem_of_getElem? hc
      obtain ⟨key, hkey, haddr⟩ := howners c hmem
      rw [hread c hmem] at hkey
      cases hkey
      refine ⟨c, hsub hmem, rfl, C.sign (tx.getHash C) (pk c.1), by simp [hc], ?_⟩
      rw [hC, haddr]
  · constructor
    · intro hclaimed
      obtain ⟨-, -, -, sig, hsig, -⟩ := hclaimed _ _
        (List.getElem?_eq_getElem (by simpa using hlt))
      simp at hsig
    · intro howners
      obtain ⟨pk, hpk, -⟩ := howners c hc
      exact absurd ⟨pk, hpk⟩ hmissing

/-- Where all keys are the owners', the signer signs exactly if it is an owner. -/
theorem signedBy_iff (hC : C.Recovers) {gathered : List OwnedCoins} (hopen : tx.Open)
    (hins : tx.inputs = gathered.map OwnedCoins.input)
    (howners : ∀ c ∈ gathered, ∃ pk, readKey C strPassword keystores c.1 = .ok (some pk) ∧
      C.address pk = c.1) (strAddress : Address) :
    SignedBy C strAddress (claimFundsAndSignTx C tx (gathered.map (·.1)) keystores strPassword
        (some strAddress)).1 ↔
      strAddress ∈ gathered.map (·.1) := by
  have hhash : (claimFundsAndSignTx C tx (gathered.map (·.1)) keystores strPassword
      (some strAddress)).1.getHash C = tx.getHash C := by
    rw [TxDraft.getHash, payload_claimFundsAndSignTx, TxDraft.getHash]
  unfold SignedBy
  rw [hhash]
  rcases claimFundsAndSignTx_cases C strPassword keystores gathered hopen hins
    (some strAddress) with ⟨pk, hread, -, hsig⟩ | ⟨⟨c, hc, hmissing⟩, -⟩
  · rw [hsig]
    by_cases hmem : strAddress ∈ gathered.map (·.1)
    · rw [Option.filter_some, if_pos (decide_eq_true hmem)]
      refine ⟨fun _ => hmem, fun _ => ⟨_, rfl, ?_⟩⟩
      obtain ⟨c, hc, rfl⟩ := List.mem_map.mp hmem
      obtain ⟨key, hkey, haddr⟩ := howners c hc
      rw [hread c hc] at hkey
      cases hkey
      rw [hC, haddr]
    · rw [Option.filter_some, if_neg fun h => hmem (of_decide_eq_true h)]
      constructor
      · rintro ⟨sig, hnone, -⟩
        cases hnone
      · exact fun h => absurd h hmem
  · obtain ⟨key, hkey, -⟩ := howners c hc
    exact absurd ⟨key, hkey⟩ hmissing

/-- What is required before the inputs of a call are gathered. -/
def requiredToCall (W : StoredWallet) (p : CallParameters) (objCodeInvoke : String) : Amount :=
  p.nAmount + p.nCoinLimit + W.nFeePerReceiver + W.estimateSizeContractInvoke objCodeInvoke

/-- The non-zero coins of the calling account. -/
def coinsToCall (W : StoredWallet) (p : CallParameters) : List OwnedCoins :=
  W.storage.ownedCoins (W.storage.getAccountAddresses p.strAccountName)

/-- The coins that pay for a call. -/
def coinsCalled (W : StoredWallet) (p : CallParameters) (objCodeInvoke : String) :
    List OwnedCoins :=
  W.gathered (W.requiredToCall p objCodeInvoke) (W.storage.getAccountAddresses p.strAccountName)

/-- The transaction of a call before its inputs are added. -/
def callDraft (p : CallParameters) (objCodeInvoke : String) : TxDraft :=
  let tx := TxDraft.invokeContract p.strAddressContract objCodeInvoke p.nAmount
    (some p.strChangeAddress)
  { tx with payload := { tx.payload with conciliumId := p.nConciliumId } }

theorem open_callDraft (p : CallParameters) (objCodeInvoke : String) :
    (callDraft p objCodeInvoke).Open := ⟨rfl, rfl⟩

/-- A call that is returned is signed with the keys of an unlocked account. -/
theorem callContract_ok {p : CallParameters} {objCodeInvoke : String}
    (hcode : p.objCodeInvoke = .ok objCodeInvoke) (h : W.callContract C p = .ok tx) :
    ∃ strPassword mapAddrKeystore,
      W.mapAccountPasswords p.strAccountName = some strPassword ∧
      W.storage.getKeystoresForAccount p.strAccountName = .ok mapAddrKeystore ∧
      tx = (claimFundsAndSignTx C
        (W.unclaimed (callDraft p objCodeInvoke) [] (W.requiredToCall p objCodeInvoke)
          (W.coinsCalled p objCodeInvoke) p.strChangeAddress)
        ((W.coinsCalled p objCodeInvoke).map (·.1)) mapAddrKeystore strPassword
        p.strSignerAddress).1 := by
  unfold callContract password at h
  cases hpassword : W.mapAccountPasswords p.strAccountName with
  | none =>
    rw [hpassword] at h
    cases h
  | some strPassword =>
    rw [hpassword, hcode] at h
    simp only [bind, Except.bind] at h
    split at h
    next => cases h
    next =>
      have hadd : ∀ tx : TxDraft, tx.Open → Except.ok tx = (Except.ok (tx.withOutputs []) :
          Except String TxDraft) := by
        intro tx _
        rw [withOutputs_nil]
      obtain ⟨-, mapAddrKeystore, hkeys, htx⟩ :=
        payAndClaim_ok (open_callDraft p objCodeInvoke) hadd h
      exact ⟨strPassword, mapAddrKeystore, rfl, hkeys, htx⟩

/-- The keys of all owners of coins can be decrypted and are theirs. -/
def OwnersHaveKeys (W : StoredWallet) (C : Crypto) (strAccountName : String)
    (coins : List OwnedCoins) : Prop :=
  ∀ strPassword mapAddrKeystore, W.mapAccountPasswords strAccountName = some strPassword →
    W.storage.getKeystoresForAccount strAccountName = .ok mapAddrKeystore →
    ∀ c ∈ coins, ∃ pk, readKey C strPassword mapAddrKeystore c.1 = .ok (some pk) ∧
      C.address pk = c.1

theorem ownersHaveKeys_iff {strAccountName : String} {mapAddrKeystore : Address → Option Keystore}
    (hpassword : W.mapAccountPasswords strAccountName = some strPassword)
    (hkeys : W.storage.getKeystoresForAccount strAccountName = .ok mapAddrKeystore)
    (coins : List OwnedCoins) :
    W.OwnersHaveKeys C strAccountName coins ↔
      ∀ c ∈ coins, ∃ pk, readKey C strPassword mapAddrKeystore c.1 = .ok (some pk) ∧
        C.address pk = c.1 := by
  refine ⟨fun h => h _ _ hpassword hkeys, fun h strPassword' mapAddrKeystore' hpassword' hkeys' => ?_⟩
  cases hpassword.symm.trans hpassword'
  cases hkeys.symm.trans hkeys'
  exact h

end StoredWallet

/-- A transfer that is returned is claimed by the owners of its coins exactly where
the keys of the gathered coins' owners are there; a call is also signed by its
signer exactly where the signer owns a gathered coin. -/
theorem properlySigned_iff (W : StoredWallet) (C : Crypto) (hC : C.Recovers) :
    (∀ p tx, W.sendToAddress C p = .ok tx →
      (ClaimedByOwners C (W.coinsToSend p) tx ↔
        W.OwnersHaveKeys C p.strAccountName (W.coinsSent p))) ∧
    ∀ p tx objCodeInvoke, p.objCodeInvoke = .ok objCodeInvoke → W.callContract C p = .ok tx →
      (ClaimedByOwners C (W.coinsToCall p) tx ∧
          (∀ strSigner, p.strSignerAddress = some strSigner → SignedBy C strSigner tx) ↔
        W.OwnersHaveKeys C p.strAccountName (W.coinsCalled p objCodeInvoke) ∧
          ∀ strSigner, p.strSignerAddress = some strSigner →
            strSigner ∈ (W.coinsCalled p objCodeInvoke).map (·.1)) := by
  constructor
  · intro p tx h
    obtain ⟨-, strPassword, mapAddrKeystore, hpassword, hkeys, rfl⟩ :=
      StoredWallet.sendToAddress_ok h
    have hpre : W.coinsSent p <+: W.coinsToSend p := gather_nil_isPrefix _
    rw [StoredWallet.ownersHaveKeys_iff hpassword hkeys]
    have hopen : (W.unclaimed { payload := { conciliumId := p.nConciliumId } }
        [{ amount := p.nAmount, receiverAddr := p.strAddressTo }] (W.requiredToSend p)
        (W.coinsSent p) p.strChangeAddress).Open := StoredWallet.open_draft p.nConciliumId
    exact StoredWallet.claimed_iff hC hopen rfl hpre.subset
      (W.storage.nodup_ownedCoins (W.storage.nodup_addresses p.strAccountName)) none
  · intro p tx objCodeInvoke hcode h
    obtain ⟨strPassword, mapAddrKeystore, hpassword, hkeys, rfl⟩ :=
      StoredWallet.callContract_ok hcode h
    have hopen : (W.unclaimed (StoredWallet.callDraft p objCodeInvoke) []
        (W.requiredToCall p objCodeInvoke) (W.coinsCalled p objCodeInvoke)
        p.strChangeAddress).Open := StoredWallet.open_callDraft p objCodeInvoke
    have hpre : W.coinsCalled p objCodeInvoke <+: W.coinsToCall p := gather_nil_isPrefix _
    rw [StoredWallet.ownersHaveKeys_iff hpassword hkeys,
      StoredWallet.claimed_iff hC hopen rfl hpre.subset
        (W.storage.nodup_ownedCoins (W.storage.nodup_addresses p.strAccountName))
        p.strSignerAddress]
    apply and_congr_right
    intro howners
    apply forall_congr'
    intro strSigner
    apply imp_congr_right
    intro hsigner
    rw [hsigner]
    exact StoredWallet.signedBy_iff hC hopen rfl howners strSigner

/-- An account of two addresses whose coins are all the first one's, with the keys
of some addresses. -/
def coinsOfSeven (keystores : Address → Option Keystore) : StoredWallet :=
  .sample { WalletStorage.sample [(0, ⟨1000000, 7⟩)] (by decide) with
    getKeystoresForAccount := fun _ => .ok keystores }

/-- A call that the second address is to sign. -/
def callOfEight : CallParameters where
  strAccountName := "a"
  strAddressContract := 78
  objCodeInvoke := .ok "invoke"
  nAmount := 1000
  strChangeAddress := 7
  strSignerAddress := some 8

theorem properlySigned_iff_sample :
    (∀ p tx, (coinsOfSeven fun a => some [a]).sendToAddress .sample p = .ok tx →
      (ClaimedByOwners .sample ((coinsOfSeven fun a => some [a]).coinsToSend p) tx ↔
        (coinsOfSeven fun a => some [a]).OwnersHaveKeys .sample p.strAccountName
          ((coinsOfSeven fun a => some [a]).coinsSent p))) ∧
    ∀ p tx objCodeInvoke, p.objCodeInvoke = .ok objCodeInvoke →
      (coinsOfSeven fun a => some [a]).callContract .sample p = .ok tx →
      (ClaimedByOwners .sample ((coinsOfSeven fun a => some [a]).coinsToCall p) tx ∧
          (∀ strSigner, p.strSignerAddress = some strSigner → SignedBy .sample strSigner tx) ↔
        (coinsOfSeven fun a => some [a]).OwnersHaveKeys .sample p.strAccountName
            ((coinsOfSeven fun a => some [a]).coinsCalled p objCodeInvoke) ∧
          ∀ strSigner, p.strSignerAddress = some strSigner →
            strSigner ∈ ((coinsOfSeven fun a => some [a]).coinsCalled p objCodeInvoke).map (·.1)) :=
  properlySigned_iff (coinsOfSeven fun a => some [a]) .sample Crypto.recovers_sample

/-- Without the key of the owner a transfer is returned that nobody has claimed, and
a signer without coins does not sign its call. -/
theorem not_properlySigned_coinsOfSeven :
    (∃ tx, (coinsOfSeven fun _ => none).sendToAddress .sample sendThousand = .ok tx ∧
      ¬ ClaimedByOwners .sample ((coinsOfSeven fun _ => none).coinsToSend sendThousand) tx) ∧
    ∃ tx, (coinsOfSeven fun a => some [a]).callContract .sample callOfEight = .ok tx ∧
      8 ∈ (coinsOfSeven fun a => some [a]).storage.getAccountAddresses "a" ∧
      ¬ SignedBy .sample 8 tx := by
  constructor
  · obtain ⟨tx, htx, hunclaimed⟩ := exists_ok_of_any
      (x := (coinsOfSeven fun _ => none).sendToAddress .sample sendThousand)
      (p := fun tx : TxDraft => tx.inputs.length = 1 ∧ tx.claimProofs = []) (by decide +kernel)
    obtain ⟨hinputs, hproofs⟩ := of_decide_eq_true hunclaimed
    refine ⟨tx, htx, ?_⟩
    intro hclaimed
    obtain ⟨-, -, -, sig, hsig, -⟩ := hclaimed 0 tx.inputs[0] (by simp)
    rw [hproofs] at hsig
    cases hsig
  · obtain ⟨tx, htx, hunsigned⟩ := exists_ok_of_any
      (x := (coinsOfSeven fun a => some [a]).callContract .sample callOfEight)
      (p := fun tx : TxDraft => tx.txSignature = none) (by decide +kernel)
    refine ⟨tx, htx, by decide, ?_⟩
    rintro ⟨sig, hsig, -⟩
    rw [of_decide_eq_true hunsigned] at hsig
    cases hsig

end CilCore
