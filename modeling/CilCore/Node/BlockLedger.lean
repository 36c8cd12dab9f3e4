import CilCore.Lib.Ledger
import CilCore.Node.BlockAgreement
import CilCore.Node.TxInputs

/-!
# Blocks of payments

Every transaction of a block runs on a patch of its own, which is then merged into the
patch of the block, and the outputs that it sees are put together from that patch and from
storage. This module compares it with a plain ledger that makes the payments one after
another.
-/

namespace CilCore

open PatchDB

/-! ### The ledger that a patch shows -/

/-- What is known of one output: nothing if its hash is not there, and else its coins,
unless it is spent. Where both sides know the hash, both have to have the output. -/
def mergeAt : Option (Option Coins) → Option (Option Coins) → Option (Option Coins)
  | some mine, some his => some (if his.isSome then mine else none)
  | some mine, none => some mine
  | none, his => his

/-- The coins of an output that a transaction can spend, over storage and a patch. -/
def unspentAt (storage : Storage) (patch : PatchDB) (output : Input) : Option Coins :=
  (mergeUtxo (patch.getUtxo output.txHash) (storage.utxos.lookup output.txHash)).bind
    (·.lookup output.nTxOutput)

/-- All outputs that transactions can spend. -/
def ledgerOf (storage : Storage) (patch : PatchDB) : FinMap Input Coins :=
  FinMap.tabulate ((patch.coins.keys ∪ storage.utxos.keys).biUnion fun hash =>
      ((mergeUtxo (patch.getUtxo hash) (storage.utxos.lookup hash)).getD ∅).keys.image
        (Input.mk hash))
    (unspentAt storage patch)

/-- The entries that the outputs of a transaction make, from output `i` on: those with coins. -/
def entriesFrom (txHash : Hash) : Nat → List Coins → List (Input × Coins)
  | _, [] => []
  | i, coins :: rest =>
      if coins.amount = 0 then entriesFrom txHash (i + 1) rest
      else (⟨txHash, i⟩, coins) :: entriesFrom txHash (i + 1) rest

namespace Block

/-- The payments of a block: its coinbase spends nothing, and is the last. -/
def payments (F : Factory) (block : Block) : List (Ledger.Payment Input Coins) :=
  block.txns.tail.map (fun tx => ⟨tx.inputs, entriesFrom (tx.hash F) 0 tx.getOutCoins⟩) ++
    [⟨[], entriesFrom (block.coinbase.hash F) 0 block.coinbase.getOutCoins⟩]

end Block

section View

variable {storage : Storage} {patch : PatchDB} {hash : Hash} {idx : Nat} {output : Input}

theorem lookup_ledgerOf (storage : Storage) (patch : PatchDB) (output : Input) :
    (ledgerOf storage patch).lookup output = unspentAt storage patch output := by
  rw [ledgerOf, FinMap.lookup_tabulate]
  split
  next => rfl
  next hnot =>
    symm
    rw [unspentAt, Option.bind_eq_none_iff]
    intro utxo hutxo
    rw [← FinMap.notMem_keys_iff]
    intro hidx
    refine hnot (Finset.mem_biUnion.mpr ⟨output.txHash, ?_, Finset.mem_image.mpr
      ⟨output.nTxOutput, by rwa [hutxo], rfl⟩⟩)
    rw [Finset.mem_union]
    by_contra hneither
    rw [not_or, FinMap.notMem_keys_iff, FinMap.notMem_keys_iff] at hneither
    rw [PatchDB.getUtxo, hneither.1, hneither.2] at hutxo
    cases hutxo

theorem map_lookup_mergeUtxo (mine his : Option UTXO) (idx : Nat) :
    (mergeUtxo mine his).map (·.lookup idx) =
      mergeAt (mine.map (·.lookup idx)) (his.map (·.lookup idx)) := by
  cases mine with
  | none => cases his <;> rfl
  | some utxoMy =>
      cases his with
      | none => rfl
      | some utxoHis =>
          rw [mergeUtxo, Option.map_some, FinMap.lookup_tabulate, Option.map_some, Option.map_some,
            mergeAt]
          have hkeys : idx ∈ utxoMy.keys ∩ utxoHis.keys ↔
              (utxoMy.lookup idx).isSome = true ∧ (utxoHis.lookup idx).isSome = true := by
            rw [Finset.mem_inter, FinMap.mem_keys_iff, FinMap.mem_keys_iff,
              Option.isSome_iff_exists, Option.isSome_iff_exists]
          simp only [hkeys]
          cases utxoMy.lookup idx <;> simp

theorem bind_lookup (utxo : Option UTXO) (idx : Nat) :
    utxo.bind (·.lookup idx) = (utxo.map (·.lookup idx)).join := by
  cases utxo <;> rfl

theorem unspentAt_eq (storage : Storage) (patch : PatchDB) (hash : Hash) (idx : Nat) :
    unspentAt storage patch ⟨hash, idx⟩ =
      (mergeAt ((patch.getUtxo hash).map (·.lookup idx))
        ((storage.utxos.lookup hash).map (·.lookup idx))).join := by
  rw [unspentAt, bind_lookup, map_lookup_mergeUtxo]

theorem getUtxo_getUtxosPatch (storage : Storage) (hashes : List Hash) (hash : Hash) :
    (storage.getUtxosPatch hashes).getUtxo hash =
      if hash ∈ hashes then storage.utxos.lookup hash else none := by
  induction hashes using List.reverseRecOn with
  | nil => rfl
  | append_singleton rest last ih =>
      rw [Storage.getUtxosPatch, List.foldl_append, ← Storage.getUtxosPatch, List.foldl_cons,
        List.foldl_nil, Storage.getUtxo]
      simp only [List.mem_append, List.mem_singleton]
      cases hstored : storage.utxos.lookup last with
      | none =>
          by_cases heq : hash = last
          · subst heq
            simp [ih, hstored]
          · simp [ih, heq]
      | some utxo =>
          dsimp only
          rw [getUtxo_setUtxo]
          by_cases heq : hash = last
          · subst heq
            simp [hstored]
          · simp [ih, heq]

end View

/-! ### The outputs of a payment -/

section Entries

variable {txHash : Hash} {outs : List Coins} {i : Nat} {patch patch' : PatchDB}
  {totalSent totalSent' : Amount}

theorem entriesFrom_keys : ∀ key ∈ (entriesFrom txHash i outs).map Prod.fst,
    key.txHash = txHash ∧ i ≤ key.nTxOutput := by
  induction outs generalizing i with
  | nil => simp [entriesFrom]
  | cons coins rest ih =>
      intro key hkey
      rw [entriesFrom] at hkey
      split at hkey
      next =>
        obtain ⟨heq, hle⟩ := ih key hkey
        exact ⟨heq, Nat.le_of_succ_le hle⟩
      next =>
        rw [List.map_cons, List.mem_cons] at hkey
        obtain rfl | hkey := hkey
        · exact ⟨rfl, le_rfl⟩
        · obtain ⟨heq, hle⟩ := ih key hkey
          exact ⟨heq, Nat.le_of_succ_le hle⟩

theorem entriesFrom_distinct : ((entriesFrom txHash i outs).map Prod.fst).Nodup := by
  induction outs generalizing i with
  | nil => simp [entriesFrom]
  | cons coins rest ih =>
      rw [entriesFrom]
      split
      next => exact ih
      next =>
        rw [List.map_cons, List.nodup_cons]
        refine ⟨fun hmem => ?_, ih⟩
        exact absurd (entriesFrom_keys _ hmem).2 (Nat.not_succ_le_self i)

theorem lookup_entriesFrom_of_ne {output : Input} (hne : output.txHash ≠ txHash) :
    (entriesFrom txHash i outs).lookup output = none :=
  Ledger.lookup_of_notMem fun hmem => hne (entriesFrom_keys output hmem).1

theorem sum_entriesFrom :
    ((entriesFrom txHash i outs).map fun entry => entry.2.amount).sum =
      (outs.map (·.amount)).sum := by
  induction outs generalizing i with
  | nil => rfl
  | cons coins rest ih =>
      rw [entriesFrom, List.map_cons, List.sum_cons]
      split
      next hzero => rw [ih, hzero, zero_add]
      next => rw [List.map_cons, List.sum_cons, ih]

/-- What payments leave of the coins: by induction on the outputs that are still to come. -/
theorem processPaymentsFrom_spec
    (h : App.processPaymentsFrom txHash i outs patch totalSent = .ok (patch', totalSent')) :
    (∀ hash ≠ txHash, patch'.getUtxo hash = patch.getUtxo hash) ∧
      ∀ idx, patch'.coinsAt txHash idx =
        ((entriesFrom txHash i outs).lookup ⟨txHash, idx⟩).or (patch.coinsAt txHash idx) := by
  induction outs generalizing i patch totalSent with
  | nil =>
      cases h
      exact ⟨fun _ _ => rfl, fun _ => rfl⟩
  | cons coins rest ih =>
      unfold App.processPaymentsFrom at h
      rw [entriesFrom]
      split at h
      next hzero =>
        rw [if_pos hzero]
        exact ih h
      next hzero =>
        split at h
        next => cases h
        next patchNext hcreate =>
          rw [if_neg hzero]
          obtain ⟨hothers, hcoins⟩ := ih h
          obtain ⟨utxo, hutxo, rfl⟩ : ∃ utxo,
              ((patch.getUtxo txHash).getD ∅).addCoins i coins = .ok utxo ∧
                patch.setUtxo txHash utxo = patchNext := by
            unfold PatchDB.createCoins at hcreate
            split at hcreate
            next => cases hcreate
            next utxo hutxo => exact ⟨utxo, hutxo, Except.ok.inj hcreate⟩
          obtain ⟨-, rfl⟩ := guard_eq_ok.mp hutxo
          refine ⟨fun hash hne => ?_, fun idx => ?_⟩
          · rw [hothers hash hne, getUtxo_setUtxo, if_neg hne]
          · rw [hcoins, coinsAt, getUtxo_setUtxo, if_pos rfl, Option.bind_some,
              FinMap.lookup_insert_ite]
            by_cases hidx : idx = i
            · subst hidx
              have hnone : (entriesFrom txHash (idx + 1) rest).lookup ⟨txHash, idx⟩ = none :=
                Ledger.lookup_of_notMem fun hmem =>
                  absurd (entriesFrom_keys _ hmem).2 (Nat.not_succ_le_self idx)
              simp [hnone]
            · have hne : (⟨txHash, idx⟩ : Input) ≠ ⟨txHash, i⟩ := fun heq => by
                cases heq
                exact hidx rfl
              rw [if_neg hidx]
              simp only [List.lookup_cons, beq_false_of_ne hne, coinsAt]
              cases patch.getUtxo txHash <;> rfl

end Entries

/-! ### One payment -/

section Payment

variable {F : Factory} {node : NodeView} {tx : Transaction} {behaviour : Behaviour} {fee : Amount}
  {patch patch' patchThisTx view : PatchDB} {hash : Hash} {idx : Nat}

/-- The transaction neither creates a contract nor pays to one. -/
structure IsPayment (F : Factory) (storage : Storage) (patch : PatchDB) (tx : Transaction) :
    Prop where
  creation : tx.isContractCreation F = .ok false
  notPending : ∀ addr, tx.getContractAddr = some addr → patch.getContract addr = none
  notStored : ∀ addr, tx.getContractAddr = some addr → storage.getContract addr = none

/-- The hash is not in the view: nothing was made under it. -/
def Unused (storage : Storage) (patch : PatchDB) (hash : Hash) : Prop :=
  patch.getUtxo hash = none ∧ storage.utxos.lookup hash = none

/-- What a transaction pays. -/
def paymentOf (F : Factory) (tx : Transaction) : Ledger.Payment Input Coins :=
  ⟨tx.inputs, entriesFrom (tx.hash F) 0 tx.getOutCoins⟩

/-- The amount of an entry. -/
def amountOf (_ : Input) (coins : Coins) : Amount := coins.amount

theorem sum_getOutCoins (tx : Transaction) :
    (tx.getOutCoins.map (·.amount)).sum = (tx.amountOut : Amount) := by
  rw [Transaction.getOutCoins, Transaction.amountOut, List.map_map, Nat.cast_list_sum,
    List.map_map]
  rfl

theorem Unused.eq_none {storage : Storage} (h : Unused storage patch hash) (idx : Nat) :
    unspentAt storage patch ⟨hash, idx⟩ = none := by
  rw [unspentAt, h.1, h.2]
  rfl

theorem IsPayment.findContract (h : IsPayment F node.storage patch tx) :
    findContract F node (some patch) tx = .ok none := by
  unfold CilCore.findContract
  rw [h.creation]
  dsimp only
  cases haddr : tx.getContractAddr with
  | none => rfl
  | some addr =>
      simp [getContractByAddr, h.notPending addr haddr, h.notStored addr haddr, Except.map]

/-- What is processed of a payment. -/
theorem processTx_payment_ok (hpayment : IsPayment F node.storage patch tx)
    (hok : processTx F node (some patch) false tx behaviour = .ok (fee, patchThisTx)) :
    ∃ view patchInputs totalHas totalSent,
      inputsView F node (some patch) tx = .ok view ∧
      App.processTxInputs F tx view = .ok (patchInputs, totalHas) ∧
      App.processPaymentsFrom (tx.hash F) 0 tx.getOutCoins patchInputs 0 =
        .ok (patchThisTx, totalSent) ∧ fee = totalHas - totalSent := by
  have hnone := hpayment.findContract
  cases hinputs : processInputs F node (some patch) false tx with
  | error error => simp [processTx, prepareTx, hnone, hinputs] at hok
  | ok r =>
      obtain ⟨patchInputs, totalHas, nFeeSize⟩ := r
      rw [processTx_of_payment hnone hinputs] at hok
      unfold processInputs at hinputs
      rw [if_neg Bool.false_ne_true] at hinputs
      split at hinputs
      next => cases hinputs
      next view hview =>
        split at hinputs
        next => cases hinputs
        next patch total hspend =>
          split at hinputs
          next => cases hinputs
          next =>
            cases hinputs
            split at hok
            next => cases hok
            next hpayments =>
              split at hok
              next =>
                cases hok
                exact ⟨view, _, _, _, hview, hspend, hpayments, rfl⟩
              next => cases hok

/-- A transaction sees the ledger, as far as its inputs go. -/
theorem inputsView_unspentAt (hview : inputsView F node (some patch) tx = .ok view)
    (hmem : hash ∈ tx.utxos) (idx : Nat) :
    view.coinsAt hash idx = unspentAt node.storage patch ⟨hash, idx⟩ := by
  have hstored := getUtxo_getUtxosPatch node.storage tx.utxos hash
  rw [if_pos hmem] at hstored
  unfold inputsView at hview
  dsimp only at hview
  split at hview
  next =>
    obtain ⟨-, -, -, -, -, rfl⟩ := PatchDB.merge_eq_ok.mp hview
    rw [coinsAt, getUtxo_merged, hstored]
    rfl
  next hnot =>
    cases hview
    have hnone : patch.getUtxo hash = none := by
      by_contra hsome
      refine hnot (List.any_eq_true.mpr ⟨hash, hmem, ?_⟩)
      rw [Option.isSome_iff_ne_none]
      exact hsome
    rw [coinsAt, hstored, CilCore.unspentAt, hnone]
    cases node.storage.utxos.lookup hash <;> rfl

theorem mem_utxos {input : Input} (h : input ∈ tx.inputs) : input.txHash ∈ tx.utxos :=
  List.mem_map_of_mem h

/-- Nothing is spent of a hash under which nothing was made. -/
theorem Unused.notMem_utxos (h : Unused node.storage patch hash)
    (hunspent : ∀ input ∈ tx.inputs, (unspentAt node.storage patch input).isSome) :
    hash ∉ tx.utxos := by
  intro hmem
  obtain ⟨input, hinput, heq⟩ := List.mem_map.mp hmem
  have hsome := hunspent input hinput
  have hnone : unspentAt node.storage patch ⟨hash, input.nTxOutput⟩ = none :=
    h.eq_none input.nTxOutput
  rw [← heq] at hnone
  rw [hnone] at hsome
  cases hsome

/-- The patch of a payment, hash by hash. -/
structure PaymentParts (F : Factory) (node : NodeView) (patch : PatchDB) (tx : Transaction)
    (patchThisTx : PatchDB) : Prop where
  nodup : tx.inputs.Nodup
  unspent : ∀ input ∈ tx.inputs, (unspentAt node.storage patch input).isSome
  touched : ∀ hash ∈ tx.utxos, (patchThisTx.getUtxo hash).isSome ∧ ∀ idx,
    patchThisTx.coinsAt hash idx =
      if ⟨hash, idx⟩ ∈ tx.inputs then none else unspentAt node.storage patch ⟨hash, idx⟩
  created : ∀ idx, patchThisTx.coinsAt (tx.hash F) idx =
    (entriesFrom (tx.hash F) 0 tx.getOutCoins).lookup ⟨tx.hash F, idx⟩
  others : ∀ hash, hash ≠ tx.hash F → hash ∉ tx.utxos → patchThisTx.getUtxo hash = none
  contracts : patchThisTx.mapContractStates = ∅

/-- **What a payment leaves in its patch**, and its fee. -/
theorem paymentParts (hpayment : IsPayment F node.storage patch tx)
    (hnew : Unused node.storage patch (tx.hash F))
    (hok : processTx F node (some patch) false tx behaviour = .ok (fee, patchThisTx)) :
    PaymentParts F node patch tx patchThisTx ∧
      fee = Ledger.fee amountOf (paymentOf F tx) (ledgerOf node.storage patch) := by
  obtain ⟨view, patchInputs, totalHas, totalSent, hview, hinputs, hpayments, rfl⟩ :=
    processTx_payment_ok hpayment hok
  obtain ⟨-, hnodup, hauth, hspends⟩ :=
    App.processTxInputsFrom_spends (spendsOnly_empty view (tx.hash F)) hinputs
  rw [List.nil_append] at hspends
  have hsees {hash : Hash} (hmem : hash ∈ tx.utxos) (idx : Nat) := inputsView_unspentAt hview hmem idx
  have hunspent : ∀ input ∈ tx.inputs, (unspentAt node.storage patch input).isSome := by
    intro input hinput
    obtain ⟨i, hi⟩ := List.getElem?_of_mem hinput
    obtain ⟨coins, signature, hcoins, -⟩ := hauth i input hi
    rw [← hsees (mem_utxos hinput), hcoins]
    rfl
  have hown := hnew.notMem_utxos hunspent
  obtain ⟨hothers, hcreated⟩ := processPaymentsFrom_spec hpayments
  have huntouched {hash : Hash} (hmem : hash ∉ tx.utxos) : patchInputs.getUtxo hash = none :=
    FinMap.notMem_keys_iff.mp fun hkey => hmem ((hspends.touched hash).mp hkey)
  refine ⟨⟨hnodup, hunspent, fun hash hmem => ?_, fun idx => ?_, fun hash hne hmem => ?_, ?_⟩, ?_⟩
  · have hne : hash ≠ tx.hash F := fun heq => hown (heq ▸ hmem)
    have hsame := hothers hash hne
    obtain ⟨utxo, hutxo⟩ := FinMap.mem_keys_iff.mp ((hspends.touched hash).mpr hmem)
    refine ⟨by rw [hsame, getUtxo, hutxo]; rfl, fun idx => ?_⟩
    rw [← hsees hmem, ← hspends.coins hash hmem, coinsAt, coinsAt, hsame]
  · rw [hcreated, coinsAt, huntouched hown]
    exact Option.or_none
  · rw [hothers hash hne, huntouched hmem]
  · rw [App.processPaymentsFrom_frame hpayments, hspends.rest]
    rfl
  · have hempty : PatchDB.empty.OnlyCoins tx.utxos := ⟨fun _ _ => rfl, rfl, rfl, rfl⟩
    have hhas := (processTxInputsFrom_coins (List.Subset.refl _) hempty hinputs).2
    have hsent := totalSent_processPaymentsFrom hpayments
    rw [hhas, hsent, zero_add, zero_add, Ledger.fee, ← sum_entriesFrom]
    congr 2
    refine List.map_congr_left fun input hinput => ?_
    rw [Ledger.weightAt, lookup_ledgerOf, ← hsees (mem_utxos hinput)]
    rfl

/-- **The merged patch shows the ledger after the payment.** -/
theorem PaymentParts.unspentAt_merge (h : PaymentParts F node patch tx patchThisTx)
    (hnew : Unused node.storage patch (tx.hash F))
    (hmerge : patch.merge F patchThisTx true = .ok patch') (output : Input) :
    unspentAt node.storage patch' output =
      ((paymentOf F tx).outputs.lookup output).or
        (if output ∈ tx.inputs then none else unspentAt node.storage patch output) := by
  obtain ⟨-, -, -, -, -, rfl⟩ := PatchDB.merge_eq_ok.mp hmerge
  obtain ⟨hash, idx⟩ := output
  rw [unspentAt_eq, getUtxo_merged, map_lookup_mergeUtxo]
  by_cases hown : hash = tx.hash F
  · subst hown
    have hnot : (⟨tx.hash F, idx⟩ : Input) ∉ tx.inputs := fun hmem =>
      hnew.notMem_utxos h.unspent (mem_utxos hmem)
    have hcreated := h.created idx
    rw [coinsAt, bind_lookup] at hcreated
    rw [hnew.1, hnew.2, if_neg hnot, hnew.eq_none, Option.or_none, paymentOf, ← hcreated]
    cases (patchThisTx.getUtxo (tx.hash F)).map (·.lookup idx) <;> rfl
  · have hnone : (paymentOf F tx).outputs.lookup ⟨hash, idx⟩ = none :=
      lookup_entriesFrom_of_ne hown
    rw [hnone, Option.none_or]
    by_cases hmem : hash ∈ tx.utxos
    · obtain ⟨hsome, hcoins⟩ := h.touched hash hmem
      obtain ⟨utxo, hutxo⟩ := Option.isSome_iff_exists.mp hsome
      have hleft := hcoins idx
      rw [coinsAt, hutxo, Option.bind_some, unspentAt_eq] at hleft
      rw [hutxo, Option.map_some, hleft, unspentAt_eq]
      -- what the transaction left is what it saw, without its inputs
      split
      next =>
        cases (patch.getUtxo hash).map (·.lookup idx) <;>
          cases (node.storage.utxos.lookup hash).map (·.lookup idx) <;> simp [mergeAt]
      next =>
        cases (patch.getUtxo hash).map (·.lookup idx) with
        | none =>
            cases (node.storage.utxos.lookup hash).map (·.lookup idx) with
            | none => rfl
            | some his => cases his <;> rfl
        | some mine =>
            cases (node.storage.utxos.lookup hash).map (·.lookup idx) with
            | none => cases mine <;> rfl
            | some his => cases mine <;> cases his <;> rfl
    · have hnot : (⟨hash, idx⟩ : Input) ∉ tx.inputs := fun hin => hmem (mem_utxos hin)
      rw [h.others hash hown hmem, if_neg hnot, unspentAt_eq]
      cases (patch.getUtxo hash).map (·.lookup idx) <;> rfl

/-- The ledger pays. -/
theorem PaymentParts.pay (h : PaymentParts F node patch tx patchThisTx)
    (hnew : Unused node.storage patch (tx.hash F))
    (hmerge : patch.merge F patchThisTx true = .ok patch') :
    Ledger.pay (paymentOf F tx) (ledgerOf node.storage patch) =
      some (ledgerOf node.storage patch') := by
  refine Ledger.pay_of_lookup h.nodup (fun input hinput => ?_) entriesFrom_distinct fun output => ?_
  · obtain ⟨coins, hcoins⟩ := Option.isSome_iff_exists.mp (h.unspent input hinput)
    exact FinMap.mem_keys_of_lookup ((lookup_ledgerOf ..).trans hcoins)
  · rw [lookup_ledgerOf, h.unspentAt_merge hnew hmerge, lookup_ledgerOf]
    rfl

/-- Hashes that were unused still are, apart from the transaction's own. -/
theorem PaymentParts.unused (h : PaymentParts F node patch tx patchThisTx)
    (hmerge : patch.merge F patchThisTx true = .ok patch')
    (hunused : Unused node.storage patch hash) (hne : hash ≠ tx.hash F) :
    Unused node.storage patch' hash := by
  obtain ⟨-, -, -, -, -, rfl⟩ := PatchDB.merge_eq_ok.mp hmerge
  have hmem := hunused.notMem_utxos h.unspent
  refine ⟨?_, hunused.2⟩
  rw [getUtxo_merged, hunused.1, h.others hash hne hmem]
  rfl

/-- A payment does not make contracts. -/
theorem PaymentParts.isPayment (h : PaymentParts F node patch tx patchThisTx)
    (hmerge : patch.merge F patchThisTx true = .ok patch') {other : Transaction}
    (hother : IsPayment F node.storage patch other) : IsPayment F node.storage patch' other := by
  obtain ⟨-, -, -, -, -, rfl⟩ := PatchDB.merge_eq_ok.mp hmerge
  refine ⟨hother.creation, fun addr haddr => ?_, hother.notStored⟩
  have hnone : patchThisTx.getContract addr = none := by
    rw [getContract, h.contracts]
    rfl
  rw [lookup_getContract_merged, hother.notPending addr haddr, hnone]
  rfl

end Payment

/-! ### A block of payments -/

section Block

variable {F : Factory} {s : ChainState} {block : Block} {vm : Transaction → Behaviour}
  {node : NodeView} {conciliumId : Nat} {fees fees' blockFees : Amount}
  {patch patch' patchMerged patchState : PatchDB} {txns : List Transaction}

open ChainState

/-- The transactions of a block: the ledger pays them in order, and the fees are theirs. By
induction on the transactions that are still to come. -/
theorem run_execTxns
    (h : execTxns F node false conciliumId vm txns patch fees = .ok (patch', fees'))
    (hpayments : ∀ tx ∈ txns, IsPayment F node.storage patch tx)
    (hdistinct : (txns.map (·.hash F)).Nodup)
    (hunused : ∀ tx ∈ txns, Unused node.storage patch (tx.hash F)) :
    Ledger.run (txns.map (paymentOf F)) (ledgerOf node.storage patch) =
        some (ledgerOf node.storage patch') ∧
      fees' = fees + Ledger.fees amountOf (txns.map (paymentOf F)) (ledgerOf node.storage patch) ∧
      ∀ hash, hash ∉ txns.map (·.hash F) → Unused node.storage patch hash →
        Unused node.storage patch' hash := by
  induction txns generalizing patch fees with
  | nil =>
      cases h
      exact ⟨rfl, (add_zero _).symm, fun _ _ hhash => hhash⟩
  | cons tx rest ih =>
      obtain ⟨-, fee, patchThisTx, patchNext, hprocess, hmerge, h⟩ := execTxns_cons_ok h
      obtain ⟨hnot, hrest⟩ := List.nodup_cons.mp hdistinct
      have hown := hunused tx List.mem_cons_self
      obtain ⟨hparts, hfee⟩ := paymentParts (hpayments tx List.mem_cons_self) hown hprocess
      have hpay := hparts.pay hown hmerge
      have hlater {other : Transaction} (hother : other ∈ rest) : other.hash F ≠ tx.hash F :=
        fun heq => hnot (List.mem_map.mpr ⟨other, hother, heq⟩)
      obtain ⟨hrun, hfees, hleft⟩ := ih h
        (fun other hother =>
          hparts.isPayment hmerge (hpayments other (List.mem_cons_of_mem _ hother)))
        hrest
        (fun other hother =>
          hparts.unused hmerge (hunused other (List.mem_cons_of_mem _ hother)) (hlater hother))
      refine ⟨?_, ?_, fun hash hhash hnone => ?_⟩
      · rw [List.map_cons, Ledger.run, hpay]
        exact hrun
      · rw [hfees, hfee, List.map_cons, Ledger.fees, hpay, Option.elim_some, add_assoc]
      · rw [List.map_cons, List.mem_cons, not_or] at hhash
        exact hleft hash hhash.2 (hparts.unused hmerge hnone hhash.1)

/-- The coinbase pays the fees, and spends nothing. -/
theorem pay_coinbase (hunused : Unused s.storage patch (block.coinbase.hash F))
    (h : processBlockCoinbaseTX F block blockFees patch = .ok patch') :
    Ledger.pay ⟨[], entriesFrom (block.coinbase.hash F) 0 block.coinbase.getOutCoins⟩
        (ledgerOf s.storage patch) = some (ledgerOf s.storage patch') ∧
      Ledger.fee amountOf
          ⟨[], entriesFrom (block.coinbase.hash F) 0 block.coinbase.getOutCoins⟩
          (ledgerOf s.storage patch) = -blockFees ∧
      (block.coinbase.amountOut : Amount) = blockFees := by
  unfold processBlockCoinbaseTX at h
  split at h
  next => cases h
  next hverified =>
    cases hpayments : App.processPaymentsFrom (block.coinbase.hash F) 0 block.coinbase.getOutCoins
      patch 0 with
    | error error => simp [hpayments, Except.map] at h
    | ok r =>
        simp only [hpayments, Except.map, Except.ok.injEq] at h
        subst h
        obtain ⟨hothers, hcreated⟩ := processPaymentsFrom_spec hpayments
        have hamount : (block.coinbase.amountOut : Amount) = blockFees := by
          unfold Transaction.verifyCoinbase at hverified
          split at hverified
          next => cases hverified
          next => exact not_not.mp (guard_eq_ok.mp hverified).1
        refine ⟨?_, ?_, hamount⟩
        · refine Ledger.pay_of_lookup List.nodup_nil
            (fun _ hmem => absurd hmem List.not_mem_nil) entriesFrom_distinct fun output => ?_
          obtain ⟨hash, idx⟩ := output
          rw [lookup_ledgerOf, lookup_ledgerOf, if_neg List.not_mem_nil]
          by_cases hown : hash = block.coinbase.hash F
          · subst hown
            have hmine := hcreated idx
            rw [coinsAt, coinsAt, hunused.1, bind_lookup] at hmine
            rw [hunused.eq_none, unspentAt_eq, hunused.2]
            refine Eq.trans ?_ hmine
            cases (r.1.getUtxo (block.coinbase.hash F)).map (·.lookup idx) <;> rfl
          · have hnone : (entriesFrom (block.coinbase.hash F) 0 block.coinbase.getOutCoins).lookup
                ⟨hash, idx⟩ = none := lookup_entriesFrom_of_ne hown
            rw [hnone, Option.none_or, unspentAt_eq, unspentAt_eq, hothers hash hown]
        · have hsum : (block.coinbase.getOutCoins.map (·.amount)).sum =
              (block.coinbase.amountOut : Amount) := by
            rw [Transaction.getOutCoins, Transaction.amountOut, List.map_map, Nat.cast_list_sum,
              List.map_map]
            rfl
          have hentries : ((entriesFrom (block.coinbase.hash F) 0
              block.coinbase.getOutCoins).map fun entry => entry.2.amount).sum = blockFees := by
            rw [sum_entriesFrom, hsum, hamount]
          rw [Ledger.fee, List.map_nil, List.sum_nil, zero_sub]
          exact congrArg Neg.neg hentries

/-- The hashes of the block's transactions are new, as the check against storage and the
random output of the coinbase make them: none is in storage or in the merged patches of the
parents, and no two are equal. -/
structure FreshBlock (F : Factory) (storage : Storage) (patchMerged : PatchDB) (block : Block) :
    Prop where
  stored : storage.checkTxCollision (block.getTxHashes F) = .ok ()
  pending : ∀ tx ∈ block.txns, patchMerged.getUtxo (tx.hash F) = none
  distinct : (block.getTxHashes F).Nodup

theorem FreshBlock.unused {storage : Storage} (h : FreshBlock F storage patchMerged block)
    {tx : Transaction} (htx : tx ∈ block.txns) : Unused storage patchMerged (tx.hash F) := by
  refine ⟨h.pending tx htx, ?_⟩
  by_contra hsome
  obtain ⟨hnone, -⟩ := guard_eq_ok.mp h.stored
  refine hnone (List.any_eq_true.mpr ⟨tx.hash F, List.mem_map.mpr ⟨tx, htx, rfl⟩, ?_⟩)
  rw [Option.isSome_iff_ne_none]
  exact hsome

/-- What all outputs of some transactions are. -/
theorem created_spec {storage : Storage} (hdistinct : (txns.map (·.hash F)).Nodup)
    (hunused : ∀ tx ∈ txns, Unused storage patch (tx.hash F)) :
    ((txns.flatMap fun tx => entriesFrom (tx.hash F) 0 tx.getOutCoins).map Prod.fst).Nodup ∧
      ∀ key ∈ (txns.flatMap fun tx => entriesFrom (tx.hash F) 0 tx.getOutCoins).map Prod.fst,
        key.txHash ∈ txns.map (·.hash F) ∧ key ∉ (ledgerOf storage patch).keys := by
  induction txns with
  | nil => simp
  | cons tx rest ih =>
      obtain ⟨hnot, hrest⟩ := List.nodup_cons.mp hdistinct
      obtain ⟨hnodup, hkeys⟩ := ih hrest fun other hother =>
        hunused other (List.mem_cons_of_mem _ hother)
      rw [List.flatMap_cons, List.map_append]
      constructor
      · refine List.nodup_append.mpr
          ⟨entriesFrom_distinct, hnodup, fun key hkey other hother heq => ?_⟩
        subst heq
        have hagain := (hkeys key hother).1
        rw [(entriesFrom_keys key hkey).1] at hagain
        exact hnot hagain
      · intro key hkey
        rw [List.mem_append] at hkey
        obtain hkey | hkey := hkey
        · have hhash := (entriesFrom_keys key hkey).1
          refine ⟨hhash ▸ List.mem_cons_self, ?_⟩
          rw [FinMap.notMem_keys_iff, lookup_ledgerOf]
          obtain ⟨hash, idx⟩ := key
          subst hhash
          exact (hunused tx List.mem_cons_self).eq_none idx
        · exact ⟨List.mem_cons_of_mem _ (hkeys key hkey).1, (hkeys key hkey).2⟩

theorem FreshBlock.fresh {storage : Storage} (h : FreshBlock F storage patchMerged block) :
    Ledger.Fresh (block.payments F) (ledgerOf storage patchMerged) := by
  -- the coinbase is the first transaction, and pays last
  have hperm : (block.txns.tail ++ [block.coinbase]).Perm block.txns := by
    refine (List.perm_append_singleton _ _).trans ?_
    rw [Block.coinbase, List.cons_head_tail]
  have hcreated : Ledger.created (block.payments F) =
      (block.txns.tail ++ [block.coinbase]).flatMap fun tx =>
        entriesFrom (tx.hash F) 0 tx.getOutCoins := by
    rw [Ledger.created, Block.payments, List.flatMap_append, List.flatMap_append, List.flatMap_map]
    rfl
  have hdistinct : ((block.txns.tail ++ [block.coinbase]).map (·.hash F)).Nodup :=
    (hperm.map fun tx : Transaction => tx.hash F).nodup_iff.mpr h.distinct
  obtain ⟨hnodup, hkeys⟩ := created_spec hdistinct fun tx htx => h.unused (hperm.mem_iff.mp htx)
  rw [← hcreated] at hnodup hkeys
  exact ⟨hnodup, fun key hkey => (hkeys key hkey).2⟩

/-- Payments are made exactly: every output that is spent was unspent at its turn, none is
spent twice, what is left is the ledger without what was spent and with what was created,
and the total is the same. -/
structure PaysExactly (payments : List (Ledger.Payment Input Coins))
    (ledger ledger' : FinMap Input Coins) : Prop where
  unspent : ∀ before payment after, payments = before ++ payment :: after →
    ∃ view, Ledger.run before ledger = some view ∧ ∀ key ∈ payment.inputs, key ∈ view.keys
  once : (Ledger.spent payments).Nodup
  left : ∀ key, ledger'.lookup key = if key ∈ Ledger.spent payments then none
    else ((Ledger.created payments).lookup key).or (ledger.lookup key)
  total : FinMap.total amountOf ledger' = FinMap.total amountOf ledger

/-- A block of payments that is executed, against the ledger. -/
theorem run_execBlock {processedHeight : Option Nat} (hgenesis : isGenesisBlock F block = false)
    (hmerged : s.pendingBlocks.mergePatches F block.parentHashes = .ok patchMerged)
    (hpayments : ∀ tx ∈ block.txns.tail, IsPayment F s.storage patchMerged tx)
    (hfresh : FreshBlock F s.storage patchMerged block)
    (h : s.execBlock F processedHeight vm block = .ok (some patchState)) :
    Ledger.run (block.payments F) (ledgerOf s.storage patchMerged) =
        some (ledgerOf s.storage patchState) ∧
      Ledger.fees amountOf (block.payments F) (ledgerOf s.storage patchMerged) = 0 ∧
      (block.coinbase.amountOut : Amount) = Ledger.fees amountOf
        (block.txns.tail.map (paymentOf F)) (ledgerOf s.storage patchMerged) := by
  obtain ⟨-, -, merged, patchStart, patchTxns, blockFees, hparents, hstart, htxns, hlast⟩ :=
    execBlock_ok h
  obtain rfl : patchMerged = merged := Except.ok.inj (hmerged.symm.trans hparents)
  rw [hgenesis] at htxns hlast
  obtain ⟨hfalse, -⟩ | ⟨-, hcoinbase⟩ := hlast
  · cases hfalse
  -- the concilium id changes neither coins nor contracts
  obtain ⟨hcoins, hcontracts⟩ : patchStart.coins = patchMerged.coins ∧
      patchStart.mapContractStates = patchMerged.mapContractStates := by
    unfold PatchDB.setConciliumId at hstart
    obtain ⟨-, rfl⟩ := guard_eq_ok.mp hstart
    exact ⟨rfl, rfl⟩
  have hledger : ledgerOf s.storage patchStart = ledgerOf s.storage patchMerged := by
    refine Finmap.ext_lookup fun output => ?_
    rw [lookup_ledgerOf, lookup_ledgerOf, unspentAt, unspentAt, getUtxo, hcoins, ← getUtxo]
  have hunused {tx : Transaction} (htx : tx ∈ block.txns) :
      Unused s.storage patchStart (tx.hash F) := by
    have hmergedUnused := hfresh.unused htx
    rw [Unused, getUtxo] at hmergedUnused ⊢
    rwa [hcoins]
  have hpaymentsStart : ∀ tx ∈ block.txns.tail, IsPayment F s.storage patchStart tx := by
    intro tx htx
    refine ⟨(hpayments tx htx).creation, fun addr haddr => ?_, (hpayments tx htx).notStored⟩
    rw [getContract, hcontracts]
    exact (hpayments tx htx).notPending addr haddr
  have hdistinct : (block.coinbase :: block.txns.tail).map (·.hash F) = block.getTxHashes F := by
    rw [Block.coinbase, List.cons_head_tail]
    rfl
  have hnodup := hfresh.distinct
  rw [← hdistinct, List.map_cons, List.nodup_cons] at hnodup
  obtain ⟨hrun, hfees, hleft⟩ := run_execTxns htxns hpaymentsStart hnodup.2
    fun tx htx => hunused (List.mem_of_mem_tail htx)
  obtain ⟨hpay, hfee, hamount⟩ := pay_coinbase
    (hleft _ hnodup.1 (hunused (List.head_mem block.txns_ne))) hcoinbase
  rw [zero_add] at hfees
  rw [hledger] at hrun hfees
  refine ⟨?_, ?_, hamount.trans hfees⟩
  · rw [Block.payments, Ledger.run_append]
    change (Ledger.run (block.txns.tail.map (paymentOf F)) _).bind _ = _
    rw [hrun, Option.bind_some, Ledger.run, hpay]
    rfl
  · rw [Block.payments]
    change Ledger.fees amountOf (block.txns.tail.map (paymentOf F) ++ _) _ = _
    rw [Ledger.fees_append hrun, ← hfees, Ledger.fees, hfee, hpay]
    simp [Ledger.fees]

end Block

section Sample

open ChainState

/-- A payment, signed by the owner of what it spends. -/
def signedPayment (input : Input) (signer : Address) (amount : Nat) (receiverAddr : Address) :
    Transaction :=
  let payload : TransactionPayload := {
    conciliumId := 0, ins := [input], outs := [{ amount, receiverAddr }] }
  { payload, claimProofs := [Factory.sample.payloadHash payload * 1000 + signer] }

/-- A payment from storage. -/
def firstPayment : Transaction := signedPayment ⟨5, 0⟩ 3 40000 9

/-- A payment of what the first one has paid. -/
def secondPayment : Transaction := signedPayment ⟨firstPayment.hash Factory.sample, 0⟩ 9 10000 8

/-- A block with both payments. -/
def paymentBlock : Block where
  header := { parentHashes := [1], merkleRoot := 0, conciliumId := 0, timestamp := 0, height := 1 }
  txns := [
    { payload := {
        conciliumId := 0
        ins := [⟨zeroHash, 0⟩]
        outs := [{ amount := 90000, receiverAddr := 2 }] } },
    firstPayment, secondPayment]

/-- A node without pending blocks that stores one output. -/
def paymentState : ChainState where
  storage := { Storage.empty with
    utxos := (∅ : FinMap Hash UTXO).insert 5 ((∅ : UTXO).insert 0 ⟨100000, 3⟩) }
  pendingBlocks := ⟨Dag.empty, [1]⟩
  mainDag := {
    infos := (∅ : FinMap Hash BlockInfo).insert 1 ⟨⟨[], 0, 0, 0, 1, 0⟩, .FINAL_BLOCK⟩
    edges := [] }

end Sample

end CilCore
