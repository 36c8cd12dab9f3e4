import CilCore.Node.TxCoins
import CilCore.Storage.PatchMerge

/-!
# Authorised inputs

`processTxInputs` accepts the transactions whose inputs are distinct, unspent and
claimed by the owners of the coins. Nothing compares the inputs with each other: a
repeated one is found in the patch that is being built, which clones a UTXO the first
time that it spends of it.
-/

namespace CilCore

namespace PatchDB

/-- The coins of an output, if it is unspent here. -/
def coinsAt (hash : Hash) (idx : Nat) (patch : PatchDB) : Option Coins :=
  (patch.getUtxo hash).bind (·.lookup idx)

/-- The patch spends the inputs in one transaction, and does nothing else. -/
structure SpendsOnly (view : PatchDB) (txHash : Hash) (inputs : List Input)
    (patch : PatchDB) : Prop where
  touched : ∀ hash, hash ∈ patch.coins.keys ↔ hash ∈ inputs.map (·.txHash)
  coins : ∀ hash ∈ inputs.map (·.txHash), ∀ idx,
    patch.coinsAt hash idx = if ⟨hash, idx⟩ ∈ inputs then none else view.coinsAt hash idx
  spent : ∀ hash idx, (patch.getSpentOutputs hash).lookup idx =
    if ⟨hash, idx⟩ ∈ inputs then some txHash else none
  records : patch.mapSpentUtxos.keys ⊆ patch.coins.keys
  rest : patch = { empty with coins := patch.coins, mapSpentUtxos := patch.mapSpentUtxos }

theorem spendsOnly_empty (view : PatchDB) (txHash : Hash) : SpendsOnly view txHash [] empty where
  touched hash := by simp [empty]
  coins hash hmem := by cases hmem
  spent hash idx := rfl
  records := by simp [empty]
  rest := rfl

theorem mem_inputs_append_iff {hash : Hash} {idx : Nat} {done : List Input} {input : Input} :
    (⟨hash, idx⟩ : Input) ∈ done ++ [input] ↔
      ⟨hash, idx⟩ ∈ done ∨ hash = input.txHash ∧ idx = input.nTxOutput := by
  cases input
  rw [List.mem_append, List.mem_singleton, Input.mk.injEq]

section Step

variable {view patch : PatchDB} {txHash : Hash} {done : List Input} {input : Input} {utxo : UTXO}

/-- What is left of a UTXO while some of it was spent. -/
theorem SpendsOnly.lookup_getD (h : SpendsOnly view txHash done patch)
    (hutxo : view.getUtxo input.txHash = some utxo) (idx : Nat) :
    ((patch.getUtxo input.txHash).getD utxo).lookup idx =
      if ⟨input.txHash, idx⟩ ∈ done then none else view.coinsAt input.txHash idx := by
  by_cases hmem : input.txHash ∈ done.map (·.txHash)
  · rw [← h.coins _ hmem]
    obtain ⟨left, hleft⟩ := FinMap.mem_keys_iff.mp ((h.touched _).mpr hmem)
    rw [coinsAt, getUtxo, hleft]
    rfl
  · have hnot : (⟨input.txHash, idx⟩ : Input) ∉ done :=
      fun hin => hmem (List.mem_map.mpr ⟨_, hin, rfl⟩)
    have hnone : patch.getUtxo input.txHash = none :=
      FinMap.notMem_keys_iff.mp fun hkey => hmem ((h.touched _).mp hkey)
    rw [hnone, if_neg hnot, coinsAt, hutxo]
    rfl

/-- An unspent output that is not among the spent ones can be spent, and only once. -/
theorem SpendsOnly.mem_keys_iff (h : SpendsOnly view txHash done patch) {coins : Coins}
    (hutxo : view.getUtxo input.txHash = some utxo)
    (hcoins : utxo.lookup input.nTxOutput = some coins) :
    input.nTxOutput ∈ ((patch.getUtxo input.txHash).getD utxo).keys ↔ input ∉ done := by
  rw [FinMap.mem_keys_iff, h.lookup_getD hutxo, coinsAt, hutxo, Option.bind_some, hcoins]
  by_cases hmem : input ∈ done
  · simp [hmem]
  · simp [hmem]

/-- One more output is spent. -/
theorem SpendsOnly.spend (h : SpendsOnly view txHash done patch)
    (hutxo : view.getUtxo input.txHash = some utxo) :
    SpendsOnly view txHash (done ++ [input])
      ((patch.setUtxo input.txHash (((patch.getUtxo input.txHash).getD utxo).erase
        input.nTxOutput)).setSpentOutput input.txHash input.nTxOutput txHash) where
  touched hash := by
    rw [setSpentOutput, setUtxo, FinMap.keys_insert, Finset.mem_insert, h.touched]
    simp [or_comm]
  coins hash hmem idx := by
    have hget : ((patch.setUtxo input.txHash (((patch.getUtxo input.txHash).getD utxo).erase
        input.nTxOutput)).setSpentOutput input.txHash input.nTxOutput txHash).getUtxo hash =
        if hash = input.txHash then
          some (((patch.getUtxo input.txHash).getD utxo).erase input.nTxOutput)
        else patch.getUtxo hash := getUtxo_setUtxo ..
    rw [coinsAt, hget]
    by_cases heq : hash = input.txHash
    · subst heq
      rw [if_pos rfl, Option.bind_some, FinMap.lookup_erase_ite, h.lookup_getD hutxo]
      simp only [mem_inputs_append_iff, true_and]
      by_cases hidx : idx = input.nTxOutput
      · simp [hidx]
      · simp [hidx]
    · rw [if_neg heq, ← coinsAt, h.coins hash (by simpa [heq] using hmem)]
      simp only [mem_inputs_append_iff, heq, false_and, or_false]
  spent hash idx := by
    have hspent : ((patch.setUtxo input.txHash (((patch.getUtxo input.txHash).getD utxo).erase
        input.nTxOutput)).getSpentOutputs hash).lookup idx = _ := h.spent hash idx
    rw [getSpentOutputs_setSpentOutput]
    by_cases heq : hash = input.txHash
    · subst heq
      rw [if_pos rfl, FinMap.lookup_insert_ite]
      simp only [mem_inputs_append_iff, true_and]
      by_cases hidx : idx = input.nTxOutput
      · simp [hidx]
      · simp only [hidx, if_false, hspent, or_false]
    · rw [if_neg heq, hspent]
      simp only [mem_inputs_append_iff, heq, false_and, or_false]
  records := by
    rw [setSpentOutput, setUtxo]
    dsimp only
    rw [FinMap.keys_insert, FinMap.keys_insert]
    exact Finset.insert_subset_insert _ h.records
  rest := by
    have hrest := h.rest
    rw [PatchDB.mk.injEq] at hrest
    simp only [setSpentOutput, setUtxo]
    rw [PatchDB.mk.injEq]
    exact ⟨rfl, rfl, hrest.2.2⟩

end Step

end PatchDB

namespace App

open PatchDB

variable {F : Factory} {tx : Transaction} {view patch patch' : PatchDB} {done : List Input}
  {totalHas totalHas' : Amount}

/-- The input is unspent, and the proof that belongs to it recovers to the receiver of
its coins. -/
def Authorised (F : Factory) (tx : Transaction) (view : PatchDB) (i : Nat) (input : Input) : Prop :=
  ∃ coins signature, view.coinsAt input.txHash input.nTxOutput = some coins ∧
    claimProof tx i = some signature ∧
    F.recoverAddress (tx.hash F) signature = .ok coins.receiverAddr

theorem verifyPayToAddr_ok_iff {address : Address} {signature : Option Signature} {hash : Hash} :
    verifyPayToAddr F address signature hash = .ok () ↔
      ∃ proof, signature = some proof ∧ F.recoverAddress hash proof = .ok address := by
  unfold verifyPayToAddr
  cases signature with
  | none => simp
  | some proof =>
      cases hrecover : F.recoverAddress hash proof with
      | error error => simp [hrecover]
      | ok signer => simp [hrecover, eq_comm]

/-- One input that is accepted. -/
theorem processTxInput_spends {i : Nat} {input : Input}
    (h : SpendsOnly view (tx.hash F) done patch)
    (hok : processTxInput F tx view i input patch totalHas = .ok (patch', totalHas')) :
    input ∉ done ∧ Authorised F tx view i input ∧
      SpendsOnly view (tx.hash F) (done ++ [input]) patch' := by
  obtain ⟨utxo, coins, hutxo, hcoins, hverify, hkey, rfl, -⟩ := processTxInput_ok hok
  obtain ⟨signature, hproof, hrecover⟩ := verifyPayToAddr_ok_iff.mp hverify
  refine ⟨(h.mem_keys_iff hutxo hcoins).mp hkey, ⟨coins, signature, ?_, hproof, hrecover⟩,
    h.spend hutxo⟩
  rw [coinsAt, hutxo]
  exact hcoins

/-- An authorised input that was not used before is accepted. -/
theorem exists_processTxInput {i : Nat} {input : Input} (totalHas : Amount)
    (h : SpendsOnly view (tx.hash F) done patch) (hnew : input ∉ done)
    (hauth : Authorised F tx view i input) :
    ∃ r, processTxInput F tx view i input patch totalHas = .ok r := by
  obtain ⟨coins, signature, hcoins, hproof, hrecover⟩ := hauth
  obtain ⟨utxo, hutxo, hlookup⟩ := Option.bind_eq_some_iff.mp hcoins
  have hverify := verifyPayToAddr_ok_iff.mpr ⟨signature, hproof, hrecover⟩
  have hkey := (h.mem_keys_iff hutxo hlookup).mpr hnew
  simp only [processTxInput, hutxo, UTXO.coinsAtIndex, hlookup, hverify, PatchDB.spendCoins,
    UTXO.spendCoins, if_pos hkey]
  exact ⟨_, rfl⟩

/-- The rest of the inputs, when they are accepted: by induction on the inputs, with the
patch that spends those before. -/
theorem processTxInputsFrom_spends {inputs : List Input} {i : Nat}
    (h : SpendsOnly view (tx.hash F) done patch)
    (hok : processTxInputsFrom F tx view i inputs patch totalHas = .ok (patch', totalHas')) :
    (∀ input ∈ inputs, input ∉ done) ∧ inputs.Nodup ∧
      (∀ j input, inputs[j]? = some input → Authorised F tx view (i + j) input) ∧
      SpendsOnly view (tx.hash F) (done ++ inputs) patch' := by
  induction inputs generalizing i patch totalHas done with
  | nil =>
      cases hok
      simpa using h
  | cons input rest ih =>
      unfold processTxInputsFrom at hok
      split at hok
      next => cases hok
      next patchNext totalNext hinput =>
        obtain ⟨hnew, hauth, hnext⟩ := processTxInput_spends h hinput
        obtain ⟨hrest, hnodup, hauths, hlast⟩ := ih hnext hok
        refine ⟨?_, ?_, ?_, by simpa using hlast⟩
        · intro other hother
          rcases List.mem_cons.mp hother with rfl | hother
          · exact hnew
          · exact fun hmem => hrest other hother (List.mem_append_left _ hmem)
        · refine List.nodup_cons.mpr ⟨fun hmem => ?_, hnodup⟩
          exact hrest input hmem (List.mem_append_right _ (List.mem_singleton_self input))
        · intro j other hother
          cases j with
          | zero =>
              cases hother
              exact hauth
          | succ j =>
              have := hauths j other hother
              rwa [Nat.add_assoc, Nat.add_comm 1 j] at this

theorem exists_processTxInputsFrom {inputs : List Input} {i : Nat} (totalHas : Amount)
    (h : SpendsOnly view (tx.hash F) done patch) (hnew : ∀ input ∈ inputs, input ∉ done)
    (hnodup : inputs.Nodup)
    (hauth : ∀ j input, inputs[j]? = some input → Authorised F tx view (i + j) input) :
    ∃ r, processTxInputsFrom F tx view i inputs patch totalHas = .ok r := by
  induction inputs generalizing i patch totalHas done with
  | nil => exact ⟨_, rfl⟩
  | cons input rest ih =>
      obtain ⟨hnotMem, hnodup⟩ := List.nodup_cons.mp hnodup
      have hfirst : Authorised F tx view i input := hauth 0 input rfl
      obtain ⟨⟨patchNext, totalNext⟩, hinput⟩ :=
        exists_processTxInput totalHas h (hnew input List.mem_cons_self) hfirst
      rw [processTxInputsFrom, hinput]
      refine ih totalNext (processTxInput_spends h hinput).2.2 ?_ hnodup ?_
      · intro other hother hmem
        rcases List.mem_append.mp hmem with hdone | hsame
        · exact hnew other (List.mem_cons_of_mem _ hother) hdone
        · exact hnotMem (List.mem_singleton.mp hsame ▸ hother)
      · intro j other hother
        have := hauth (j + 1) other hother
        rwa [Nat.add_comm j 1, ← Nat.add_assoc] at this

/-- When the inputs of a transaction are accepted. -/
theorem exists_processTxInputs_iff :
    (∃ r, processTxInputs F tx view = .ok r) ↔
      tx.inputs.Nodup ∧ ∀ i input, tx.inputs[i]? = some input → Authorised F tx view i input := by
  have hempty := spendsOnly_empty view (tx.hash F)
  constructor
  · intro ⟨⟨patch, totalHas⟩, hok⟩
    obtain ⟨-, hnodup, hauth, -⟩ := processTxInputsFrom_spends hempty hok
    simp only [Nat.zero_add] at hauth
    exact ⟨hnodup, hauth⟩
  · intro ⟨hnodup, hauth⟩
    refine exists_processTxInputsFrom 0 hempty (fun _ _ => List.not_mem_nil) hnodup ?_
    simpa only [Nat.zero_add] using hauth

/-- What accepted inputs leave. -/
theorem processTxInputs_spends (hok : processTxInputs F tx view = .ok (patch, totalHas)) :
    SpendsOnly view (tx.hash F) tx.inputs patch :=
  (processTxInputsFrom_spends (spendsOnly_empty view (tx.hash F)) hok).2.2.2

end App

/-! ### Patches as objects -/

/-- The UTXOs that references lead to. -/
def readCoins (objects : List UTXO) (refs : FinMap Hash Nat) : FinMap Hash UTXO :=
  FinMap.tabulate refs.keys fun hash => (refs.lookup hash).bind (objects[·]?)

theorem lookup_readCoins (objects : List UTXO) (refs : FinMap Hash Nat) (hash : Hash) :
    (readCoins objects refs).lookup hash = (refs.lookup hash).bind (objects[·]?) := by
  rw [readCoins, FinMap.lookup_tabulate]
  split
  next => rfl
  next hnot =>
    rw [FinMap.notMem_keys_iff.mp hnot]
    rfl

/-- A patch as it is given to `processTxInputs`: its UTXOs are references to objects,
which other patches may share. -/
structure GivenPatch (patch : PatchDB) where
  objects : List UTXO
  refs : FinMap Hash Nat
  valid : ∀ hash ref, refs.lookup hash = some ref → ref < objects.length
  reads : readCoins objects refs = patch.coins

/-- The UTXO objects, and the patch that is being built: only its coins are objects. -/
structure InputsState where
  objects : List UTXO
  refs : FinMap Hash Nat
  mapSpentUtxos : FinMap Hash (FinMap Nat Hash)

namespace InputsState

/-- The new patch. -/
def patch (s : InputsState) : PatchDB :=
  { PatchDB.empty with coins := readCoins s.objects s.refs, mapSpentUtxos := s.mapSpentUtxos }

/-- `spendCoins`: the UTXO is cloned unless the patch already has its own, and the copy
is changed in place. -/
def spendCoins (strHash : Hash) (utxo : UTXO) (nTxOutput : Nat) (txHashSpent : Hash)
    (s : InputsState) : Except String InputsState :=
  let objects := if strHash ∈ s.refs.keys then s.objects else s.objects ++ [utxo]
  let utxoCopy := (s.refs.lookup strHash).getD s.objects.length
  match (objects[utxoCopy]?.getD ∅).spendCoins nTxOutput with
  | .error error => .error error
  | .ok changed => .ok {
      objects := objects.set utxoCopy changed
      refs := s.refs.insert strHash utxoCopy
      mapSpentUtxos := s.mapSpentUtxos.insert strHash
        (((s.mapSpentUtxos.lookup strHash).getD ∅).insert nTxOutput txHashSpent) }

end InputsState

namespace App

/-- One turn of the loop, on objects. -/
def processInputObject (F : Factory) (tx : Transaction) (refs : FinMap Hash Nat) (i : Nat)
    (input : Input) (s : InputsState) (totalHas : Amount) : Except String (InputsState × Amount) :=
  match (refs.lookup input.txHash).bind (s.objects[·]?) with
  | none => .error "UTXO not found in patch"
  | some utxo =>
      match utxo.coinsAtIndex input.nTxOutput with
      | .error error => .error error
      | .ok coins =>
          match verifyPayToAddr F coins.receiverAddr (claimProof tx i) (tx.hash F) with
          | .error error => .error error
          | .ok () =>
              match s.spendCoins input.txHash utxo input.nTxOutput (tx.hash F) with
              | .error error => .error error
              | .ok s => .ok (s, totalHas + coins.amount)

/-- The loop on objects, from input `i` on. -/
def processInputObjectsFrom (F : Factory) (tx : Transaction) (refs : FinMap Hash Nat) :
    Nat → List Input → InputsState → Amount → Except String (InputsState × Amount)
  | _, [], s, totalHas => .ok (s, totalHas)
  | i, input :: rest, s, totalHas =>
      match processInputObject F tx refs i input s totalHas with
      | .error error => .error error
      | .ok (s, totalHas) => processInputObjectsFrom F tx refs (i + 1) rest s totalHas

/-- `processTxInputs` on objects: what it does to them is part of the result. -/
def processInputObjects (F : Factory) (tx : Transaction) {patchForBlock : PatchDB}
    (given : GivenPatch patchForBlock) : Except String (InputsState × Amount) :=
  processInputObjectsFrom F tx given.refs 0 tx.inputs ⟨given.objects, ∅, ∅⟩ 0

end App

namespace InputsState

/-- The new patch has objects of its own, one for each hash. -/
structure Separate (old : List UTXO) (s : InputsState) : Prop where
  kept : old <+: s.objects
  own : ∀ hash ref, s.refs.lookup hash = some ref → old.length ≤ ref ∧ ref < s.objects.length
  apart : ∀ hash hash' ref, s.refs.lookup hash = some ref → s.refs.lookup hash' = some ref →
    hash = hash'

variable {old : List UTXO} {s s' : InputsState} {strHash txHashSpent : Hash} {utxo : UTXO}
  {nTxOutput : Nat}

theorem separate_start (old : List UTXO) : Separate old ⟨old, ∅, ∅⟩ where
  kept := List.prefix_refl old
  own hash ref h := by cases h
  apart hash hash' ref h := by cases h

/-- Reading what was there before. -/
theorem Separate.getElem?_old (h : s.Separate old) {ref : Nat} (href : ref < old.length) :
    s.objects[ref]? = old[ref]? := by
  obtain ⟨own, hown⟩ := h.kept
  rw [← hown, List.getElem?_append_left href]

/-- The copy that is changed: the patch's own UTXO, or a clone of the given one. -/
theorem Separate.copy (h : s.Separate old) (strHash : Hash) (utxo : UTXO) :
    (if strHash ∈ s.refs.keys then s.objects else s.objects ++ [utxo])[
        (s.refs.lookup strHash).getD s.objects.length]? =
      some ((s.patch.getUtxo strHash).getD utxo) := by
  have hget : s.patch.getUtxo strHash = (s.refs.lookup strHash).bind (s.objects[·]?) :=
    lookup_readCoins ..
  rw [hget]
  cases href : s.refs.lookup strHash with
  | none =>
      rw [if_neg (FinMap.notMem_keys_iff.mpr href)]
      simp
  | some ref =>
      rw [if_pos (FinMap.mem_keys_of_lookup href), Option.getD_some, Option.bind_some]
      rw [List.getElem?_eq_getElem (h.own _ _ href).2]
      rfl

/-- Changing the copy changes the UTXO of its hash only. -/
theorem Separate.readCoins_set (h : s.Separate old) (strHash : Hash) (utxo changed : UTXO) :
    readCoins
        ((if strHash ∈ s.refs.keys then s.objects else s.objects ++ [utxo]).set
          ((s.refs.lookup strHash).getD s.objects.length) changed)
        (s.refs.insert strHash ((s.refs.lookup strHash).getD s.objects.length)) =
      (readCoins s.objects s.refs).insert strHash changed := by
  refine Finmap.ext_lookup fun hash => ?_
  rw [lookup_readCoins, FinMap.lookup_insert_ite, FinMap.lookup_insert_ite, lookup_readCoins]
  have hcopy := h.copy strHash utxo
  by_cases heq : hash = strHash
  · have hlt := (List.getElem?_eq_some_iff.mp hcopy).1
    rw [if_pos heq, if_pos heq, Option.bind_some, List.getElem?_set_self hlt]
  · rw [if_neg heq, if_neg heq]
    cases href : s.refs.lookup hash with
    | none => rfl
    | some ref =>
        obtain ⟨-, hlt⟩ := h.own _ _ href
        rw [Option.bind_some, Option.bind_some]
        cases hown : s.refs.lookup strHash with
        | none =>
            rw [if_neg (FinMap.notMem_keys_iff.mpr hown), Option.getD_none,
              List.getElem?_set_ne hlt.ne', List.getElem?_append_left hlt]
        | some own =>
            have hne : own ≠ ref := by
              intro hsame
              exact heq (h.apart _ _ _ href (hsame ▸ hown))
            rw [if_pos (FinMap.mem_keys_of_lookup hown), Option.getD_some,
              List.getElem?_set_ne hne]

/-- `spendCoins` does to the patch what it does on values. -/
theorem Separate.map_spendCoins (h : s.Separate old) :
    (s.spendCoins strHash utxo nTxOutput txHashSpent).map patch =
      s.patch.spendCoins strHash utxo nTxOutput txHashSpent := by
  unfold spendCoins PatchDB.spendCoins
  dsimp only
  rw [h.copy, Option.getD_some]
  cases ((s.patch.getUtxo strHash).getD utxo).spendCoins nTxOutput with
  | error error => rfl
  | ok changed =>
      simp only [Except.map, patch, h.readCoins_set]
      rfl

/-- The objects that were there before are left alone. -/
theorem Separate.spendCoins (h : s.Separate old)
    (hok : s.spendCoins strHash utxo nTxOutput txHashSpent = .ok s') : s'.Separate old := by
  unfold InputsState.spendCoins at hok
  dsimp only at hok
  split at hok
  next => cases hok
  next changed _ =>
    cases hok
    cases href : s.refs.lookup strHash with
    | none =>
        have hlength := h.kept.length_le
        rw [if_neg (FinMap.notMem_keys_iff.mpr href), Option.getD_none]
        refine ⟨?_, ?_, ?_⟩
        · dsimp only
          rw [List.set_append_right _ _ le_rfl]
          exact h.kept.trans (List.prefix_append _ _)
        · intro hash ref hlookup
          dsimp only at hlookup ⊢
          rw [FinMap.lookup_insert_ite] at hlookup
          rw [List.length_set, List.length_append, List.length_singleton]
          split at hlookup
          next =>
            cases hlookup
            exact ⟨hlength, Nat.lt_succ_self _⟩
          next => exact ⟨(h.own _ _ hlookup).1, (h.own _ _ hlookup).2.trans (Nat.lt_succ_self _)⟩
        · intro hash hash' ref hlookup hlookup'
          dsimp only at hlookup hlookup'
          rw [FinMap.lookup_insert_ite] at hlookup hlookup'
          split at hlookup
          next heq =>
            cases hlookup
            split at hlookup'
            next heq' => rw [heq, heq']
            next => exact absurd (h.own _ _ hlookup').2 (Nat.lt_irrefl _)
          next =>
            split at hlookup'
            next =>
              cases hlookup'
              exact absurd (h.own _ _ hlookup).2 (Nat.lt_irrefl _)
            next => exact h.apart _ _ _ hlookup hlookup'
    | some own =>
        have hown := h.own _ _ href
        have hrefs : s.refs.insert strHash own = s.refs := by
          refine Finmap.ext_lookup fun hash => ?_
          rw [FinMap.lookup_insert_ite]
          split
          next heq => rw [heq, href]
          next => rfl
        rw [if_pos (FinMap.mem_keys_of_lookup href), Option.getD_some, hrefs]
        refine ⟨?_, fun hash ref hlookup => ?_, h.apart⟩
        · obtain ⟨rest, hrest⟩ := h.kept
          dsimp only
          rw [← hrest, List.set_append_right _ _ hown.1]
          exact List.prefix_append _ _
        · dsimp only
          rw [List.length_set]
          exact h.own _ _ hlookup

end InputsState

namespace App

section Objects

variable {F : Factory} {tx : Transaction} {patchForBlock : PatchDB}
  (given : GivenPatch patchForBlock) {s s' : InputsState} {totalHas totalHas' : Amount}

/-- The new patch, for a result on objects. -/
def patchAndSum (r : InputsState × Amount) : PatchDB × Amount := (r.1.patch, r.2)

/-- The given patch reads as before. -/
theorem GivenPatch.lookup_objects (h : s.Separate given.objects) (hash : Hash) :
    (given.refs.lookup hash).bind (s.objects[·]?) = patchForBlock.getUtxo hash := by
  rw [PatchDB.getUtxo, ← given.reads, lookup_readCoins]
  cases href : given.refs.lookup hash with
  | none => rfl
  | some ref => exact h.getElem?_old (given.valid hash ref href)

theorem map_processInputObject (h : s.Separate given.objects) (i : Nat) (input : Input) :
    (processInputObject F tx given.refs i input s totalHas).map patchAndSum =
      processTxInput F tx patchForBlock i input s.patch totalHas := by
  unfold processInputObject processTxInput
  rw [GivenPatch.lookup_objects given h]
  cases patchForBlock.getUtxo input.txHash with
  | none => rfl
  | some utxo =>
      dsimp only
      cases utxo.coinsAtIndex input.nTxOutput with
      | error error => rfl
      | ok coins =>
          dsimp only
          cases verifyPayToAddr F coins.receiverAddr (claimProof tx i) (tx.hash F) with
          | error error => rfl
          | ok verified =>
              dsimp only
              rw [← h.map_spendCoins]
              cases s.spendCoins input.txHash utxo input.nTxOutput (tx.hash F) <;> rfl

theorem separate_processInputObject (h : s.Separate given.objects) {i : Nat} {input : Input}
    (hok : processInputObject F tx given.refs i input s totalHas = .ok (s', totalHas')) :
    s'.Separate given.objects := by
  unfold processInputObject at hok
  split at hok
  next => cases hok
  next =>
    split at hok
    next => cases hok
    next =>
      split at hok
      next => cases hok
      next =>
        split at hok
        next => cases hok
        next hspend =>
          cases hok
          exact h.spendCoins hspend

/-- The rest of the loop on objects: the same result, and the objects are left alone. -/
theorem processInputObjectsFrom_refines (h : s.Separate given.objects) (i : Nat)
    (inputs : List Input) :
    (processInputObjectsFrom F tx given.refs i inputs s totalHas).map patchAndSum =
        processTxInputsFrom F tx patchForBlock i inputs s.patch totalHas ∧
      ∀ r, processInputObjectsFrom F tx given.refs i inputs s totalHas = .ok r →
        r.1.Separate given.objects := by
  induction inputs generalizing i s totalHas with
  | nil =>
      refine ⟨rfl, fun r hok => ?_⟩
      cases hok
      exact h
  | cons input rest ih =>
      unfold processInputObjectsFrom processTxInputsFrom
      rw [← map_processInputObject given h]
      cases hinput : processInputObject F tx given.refs i input s totalHas with
      | error error => exact ⟨rfl, fun r hok => by cases hok⟩
      | ok next => exact ih (separate_processInputObject given h hinput) (i + 1)

/-- `processTxInputs` on objects returns what it returns on values. -/
theorem map_processInputObjects :
    (processInputObjects F tx given).map patchAndSum = processTxInputs F tx patchForBlock :=
  (processInputObjectsFrom_refines given (InputsState.separate_start _) 0 tx.inputs).1

end Objects

end App

end CilCore
