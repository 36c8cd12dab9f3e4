import CilCore.Lib.NamedPayments
import CilCore.Node.BlockLedger
import CilCore.Node.PurgedContracts
import CilCore.Storage.PurgedViews

/-!
# What patches tell of payments

A patch does not say which payments it comes from: it has the UTXOs that they touched, as
they were left, and a record of what was spent in which transaction. This module relates it
to the payments themselves. The relation is kept by a merge, by a payment, by a coinbase,
and by a purge.
-/

namespace CilCore

open Ledger PatchDB

/-- A payment of the chain, under the hash of its transaction. -/
abbrev Deed := Named Hash Input Coins

/-- The payment spends or creates an output of the hash. -/
def Deed.Touches (deed : Deed) (hash : Hash) : Prop :=
  (∃ key ∈ deed.2.inputs, key.txHash = hash) ∨ ∃ output ∈ deed.2.outputs, output.1.txHash = hash

/-- The outputs that storage has. -/
def baseOf (storage : Storage) : FinMap Input Coins := ledgerOf storage PatchDB.empty

theorem lookup_baseOf (storage : Storage) (key : Input) :
    (baseOf storage).lookup key =
      (storage.utxos.lookup key.txHash).bind (·.lookup key.nTxOutput) := by
  rw [baseOf, lookup_ledgerOf, unspentAt]
  cases storage.utxos.lookup key.txHash <;> rfl

/-- A hash belongs to one payment, and was not used before the first of them. -/
structure Sound (genesis : Storage) (all : Set Deed) : Prop where
  named : WellNamed Input.txHash (baseOf genesis) all
  unknown : ∀ deed ∈ all, genesis.utxos.lookup deed.1 = none

/-- Something was made under the hash. -/
def Known (genesis : Storage) (made : Set Deed) (hash : Hash) : Prop :=
  (genesis.utxos.lookup hash).isSome ∨ ∃ deed ∈ made, deed.1 = hash

/-- The stored outputs are those that the stable payments show. -/
structure Stores (genesis : Storage) (stable : Set Deed) (storage : Storage) : Prop where
  shows : ∀ key coins, (baseOf storage).lookup key = some coins ↔
    Shows (baseOf genesis) stable key coins
  known : ∀ hash utxo, storage.utxos.lookup hash = some utxo → Known genesis stable hash

/-- A patch of some payments, made after others. The UTXOs that it has are those after all of
them; a UTXO that it has not is touched only by payments that are stable already, and what
it has not recorded as spent is spent only by these. -/
structure Tells (genesis : Storage) (stable mine made : Set Deed) (patch : PatchDB) : Prop where
  recorded : patch.Recorded
  stable_sub : stable ⊆ made
  mine_sub : mine ⊆ made
  shows : ∀ hash utxo, patch.getUtxo hash = some utxo → ∀ idx coins,
    utxo.lookup idx = some coins ↔ Shows (baseOf genesis) made ⟨hash, idx⟩ coins
  known : ∀ hash utxo, patch.getUtxo hash = some utxo → Known genesis made hash
  silent : ∀ hash, patch.getUtxo hash = none → ∀ deed ∈ mine, deed.Touches hash → deed ∈ stable
  records : ∀ hash idx txHash, (patch.getSpentOutputs hash).lookup idx = some txHash →
    ∃ deed ∈ made, deed.1 = txHash ∧ (⟨hash, idx⟩ : Input) ∈ deed.2.inputs
  spends : ∀ deed ∈ mine, ∀ key ∈ deed.2.inputs, deed ∈ stable ∨
    (patch.getSpentOutputs key.txHash).lookup key.nTxOutput = some deed.1

section Shows

variable {genesis : Storage} {all made made' : Set Deed} {hash : Hash} {idx : Nat} {key : Input}
  {coins : Coins} {deed : Deed}

theorem Deed.touches_of_input (h : key ∈ deed.2.inputs) : deed.Touches key.txHash :=
  .inl ⟨key, h, rfl⟩

theorem Deed.touches_of_output (h : (key, coins) ∈ deed.2.outputs) : deed.Touches key.txHash :=
  .inr ⟨_, h, rfl⟩

/-- What is shown of a hash depends on the payments that touch it. -/
theorem shows_congr {base : FinMap Input Coins}
    (h : ∀ deed : Deed, deed.Touches key.txHash → (deed ∈ made ↔ deed ∈ made')) :
    Shows base made key coins ↔ Shows base made' key coins := by
  refine and_congr (or_congr_right ?_) (forall_congr' fun deed => ?_)
  · refine exists_congr fun deed => and_congr_left fun houtput => ?_
    exact h deed (Deed.touches_of_output houtput)
  · constructor
    · intro hunspent hmem hinput
      exact hunspent ((h deed (Deed.touches_of_input hinput)).mpr hmem) hinput
    · intro hunspent hmem hinput
      exact hunspent ((h deed (Deed.touches_of_input hinput)).mp hmem) hinput

theorem Known.mono (h : Known genesis made hash) (hsub : made ⊆ made') :
    Known genesis made' hash :=
  h.imp_right (Exists.imp fun _ => And.imp_left fun hdeed => hsub hdeed)

/-- Whoever knows a hash knows all that was ever created under it. -/
theorem Sound.created (hall : Sound genesis all) (hsub : made ⊆ all)
    (hknown : Known genesis made key.txHash)
    (hcreated : (baseOf genesis).lookup key = some coins ∨
      ∃ deed ∈ all, (key, coins) ∈ deed.2.outputs) :
    (baseOf genesis).lookup key = some coins ∨ ∃ deed ∈ made, (key, coins) ∈ deed.2.outputs := by
  refine hcreated.imp_right ?_
  rintro ⟨deed, hdeed, houtput⟩
  have hname : key.txHash = deed.1 :=
    hall.named.placed deed hdeed key (List.mem_map.mpr ⟨_, houtput, rfl⟩)
  obtain hgenesis | ⟨other, hother, heq⟩ := hknown
  · rw [hname, hall.unknown deed hdeed] at hgenesis
    cases hgenesis
  · obtain rfl := hall.named.unique other (hsub hother) deed hdeed (heq.trans hname)
    exact ⟨other, hother, houtput⟩

/-- Where two histories both know a hash, together they show what each of them shows. -/
theorem Sound.shows_union_iff (hall : Sound genesis all) (hmade : made ⊆ all) (hmade' : made' ⊆ all)
    (hknown : Known genesis made key.txHash) (hknown' : Known genesis made' key.txHash) :
    Shows (baseOf genesis) (made ∪ made') key coins ↔
      Shows (baseOf genesis) made key coins ∧ ∃ coins', Shows (baseOf genesis) made' key coins' := by
  constructor
  · rintro ⟨hcreated, hunspent⟩
    have hever : (baseOf genesis).lookup key = some coins ∨
        ∃ deed ∈ all, (key, coins) ∈ deed.2.outputs :=
      hcreated.imp_right (Exists.imp fun _ => And.imp_left fun hdeed =>
        Set.union_subset hmade hmade' hdeed)
    exact ⟨⟨hall.created hmade hknown hever, fun deed hdeed => hunspent deed (.inl hdeed)⟩,
      coins, hall.created hmade' hknown' hever, fun deed hdeed => hunspent deed (.inr hdeed)⟩
  · rintro ⟨⟨hcreated, hunspent⟩, _, -, hunspent'⟩
    refine ⟨hcreated.imp_right (Exists.imp fun _ => And.imp_left .inl), ?_⟩
    rintro deed (hdeed | hdeed)
    · exact hunspent deed hdeed
    · exact hunspent' deed hdeed

end Shows

/-! ### Reading through a patch -/

section Tells

variable {F : Factory} {genesis storage : Storage} {stable mine mine' made made' all : Set Deed}
  {A B R patch : PatchDB} {hash : Hash} {deed : Deed}

theorem Tells.mono (h : Tells genesis stable mine made patch) (hsub : mine' ⊆ mine) :
    Tells genesis stable mine' made patch where
  recorded := h.recorded
  stable_sub := h.stable_sub
  mine_sub := hsub.trans h.mine_sub
  shows := h.shows
  known := h.known
  silent hash hnone deed hdeed := h.silent hash hnone deed (hsub hdeed)
  records := h.records
  spends deed hdeed := h.spends deed (hsub hdeed)

/-- Nothing was done yet. -/
theorem tells_empty (genesis : Storage) (stable : Set Deed) :
    Tells genesis stable ∅ stable PatchDB.empty where
  recorded := .new rfl rfl
  stable_sub := Set.Subset.refl _
  mine_sub := Set.empty_subset _
  shows _ _ h := by cases h
  known _ _ h := by cases h
  silent _ _ _ h := by cases h
  records _ _ _ h := by cases h
  spends _ h := by cases h

/-- A payment of a hash that the patch has not is stable. -/
theorem Tells.stable_of_none (h : Tells genesis stable mine made patch)
    (hmade : made' ⊆ stable ∪ mine) (hnone : patch.getUtxo hash = none) (hdeed : deed ∈ made')
    (htouches : deed.Touches hash) : deed ∈ stable :=
  (hmade hdeed).elim id fun hmine => h.silent hash hnone deed hmine htouches

/-- **What a transaction can spend**, over storage and a patch, is what the payments show. -/
theorem Tells.unspentAt_iff (h : Tells genesis stable mine made patch)
    (hstores : Stores genesis stable storage) (hall : Sound genesis all) (hmade : made ⊆ all)
    (honly : made ⊆ stable ∪ mine) (key : Input) (coins : Coins) :
    unspentAt storage patch key = some coins ↔ Shows (baseOf genesis) made key coins := by
  obtain ⟨hash, idx⟩ := key
  have hstored := hstores.shows ⟨hash, idx⟩ coins
  rw [lookup_baseOf] at hstored
  rw [unspentAt]
  cases hmine : patch.getUtxo hash with
  | none =>
      have hsame : Shows (baseOf genesis) stable ⟨hash, idx⟩ coins ↔
          Shows (baseOf genesis) made ⟨hash, idx⟩ coins := by
        refine shows_congr fun deed htouches => ⟨fun hdeed => h.stable_sub hdeed, fun hdeed => ?_⟩
        exact h.stable_of_none honly hmine hdeed htouches
      rw [← hsame, ← hstored]
      cases storage.utxos.lookup hash <;> rfl
  | some utxo =>
      have hshown := h.shows hash utxo hmine idx
      cases hstorage : storage.utxos.lookup hash with
      | none => exact hshown coins
      | some utxoStored =>
          rw [hstorage] at hstored
          have hunion : Shows (baseOf genesis) (made ∪ stable) ⟨hash, idx⟩ coins ↔
              Shows (baseOf genesis) made ⟨hash, idx⟩ coins ∧
                ∃ coins', Shows (baseOf genesis) stable ⟨hash, idx⟩ coins' :=
            hall.shows_union_iff hmade (h.stable_sub.trans hmade) (h.known hash utxo hmine)
              (hstores.known hash utxoStored hstorage)
          rw [Set.union_eq_left.mpr h.stable_sub] at hunion
          have hkept : idx ∈ utxo.keys ∩ utxoStored.keys ↔
              (∃ coins, Shows (baseOf genesis) made ⟨hash, idx⟩ coins) ∧
                ∃ coins, Shows (baseOf genesis) stable ⟨hash, idx⟩ coins := by
            rw [Finset.mem_inter, FinMap.mem_keys_iff, FinMap.mem_keys_iff]
            refine and_congr (exists_congr hshown) (exists_congr fun coins => ?_)
            have hstored := hstores.shows ⟨hash, idx⟩ coins
            rwa [lookup_baseOf, hstorage] at hstored
          rw [mergeUtxo, Option.bind_some, FinMap.lookup_tabulate, hunion]
          split
          next hmem =>
            rw [hshown coins]
            exact (and_iff_left (hkept.mp hmem).2).symm
          next hnot =>
            refine iff_of_false (fun h => by cases h) fun hboth => hnot (hkept.mpr ?_)
            exact ⟨⟨coins, hboth.1⟩, hboth.2⟩

/-! ### Merging -/

/-- A merge tells of the payments of both patches, where each patch was made after all that
the other one has not. -/
theorem Tells.merged (hA : Tells genesis stable mine made A) (hB : Tells genesis stable mine' made' B)
    (hall : Sound genesis all) (hmade : made ⊆ all) (hmade' : made' ⊆ all)
    (honly : made ⊆ made' ∪ mine) (honly' : made' ⊆ made ∪ mine') (hspends : ¬ DoubleSpend A B)
    (bPreferPatchData : Bool) :
    Tells genesis stable (mine ∪ mine') (made ∪ made') (PatchDB.merged F bPreferPatchData A B) where
  recorded := hA.recorded.merged hB.recorded _
  stable_sub := hA.stable_sub.trans Set.subset_union_left
  mine_sub := Set.union_subset_union hA.mine_sub hB.mine_sub
  shows hash utxo hutxo idx coins := by
    rw [getUtxo_merged] at hutxo
    cases hmine : A.getUtxo hash with
    | none =>
        rw [hmine] at hutxo
        have hhis : B.getUtxo hash = some utxo := by
          rw [← hutxo]
          cases B.getUtxo hash <;> rfl
        rw [hB.shows hash utxo hhis idx coins]
        refine shows_congr fun deed htouches => ⟨.inr, fun hdeed => ?_⟩
        refine hdeed.elim (fun hdeed => ?_) id
        refine (honly hdeed).elim id fun hdeed => ?_
        exact hB.stable_sub (hA.silent hash hmine deed hdeed htouches)
    | some utxoMy =>
        cases hhis : B.getUtxo hash with
        | none =>
            rw [hmine, hhis] at hutxo
            cases hutxo
            rw [hA.shows hash utxo hmine idx coins]
            refine shows_congr fun deed htouches => ⟨.inl, fun hdeed => ?_⟩
            refine hdeed.elim id fun hdeed => ?_
            refine (honly' hdeed).elim id fun hdeed => ?_
            exact hA.stable_sub (hB.silent hash hhis deed hdeed htouches)
        | some utxoHis =>
            rw [hmine, hhis] at hutxo
            cases hutxo
            have hshown := hA.shows hash utxoMy hmine idx
            have hshown' := hB.shows hash utxoHis hhis idx
            rw [hall.shows_union_iff hmade hmade' (hA.known hash utxoMy hmine)
              (hB.known hash utxoHis hhis), FinMap.lookup_tabulate]
            have hkept : idx ∈ utxoMy.keys ∩ utxoHis.keys ↔
                (∃ coins, Shows (baseOf genesis) made ⟨hash, idx⟩ coins) ∧
                  ∃ coins, Shows (baseOf genesis) made' ⟨hash, idx⟩ coins := by
              rw [Finset.mem_inter, FinMap.mem_keys_iff, FinMap.mem_keys_iff]
              exact and_congr (exists_congr hshown) (exists_congr hshown')
            split
            next hmem =>
              rw [hshown coins]
              exact (and_iff_left (hkept.mp hmem).2).symm
            next hnot =>
              refine iff_of_false (fun h => by cases h) fun hboth => hnot (hkept.mpr ?_)
              exact ⟨⟨coins, hboth.1⟩, hboth.2⟩
  known hash utxo hutxo := by
    rw [getUtxo_merged] at hutxo
    cases hmine : A.getUtxo hash with
    | none =>
        cases hhis : B.getUtxo hash with
        | none =>
            rw [hmine, hhis] at hutxo
            cases hutxo
        | some utxoHis => exact (hB.known hash utxoHis hhis).mono Set.subset_union_right
    | some utxoMy => exact (hA.known hash utxoMy hmine).mono Set.subset_union_left
  silent hash hnone deed hdeed htouches := by
    rw [getUtxo_merged] at hnone
    obtain ⟨hmine, hhis⟩ : A.getUtxo hash = none ∧ B.getUtxo hash = none := by
      cases hmine : A.getUtxo hash with
      | none =>
          rw [hmine] at hnone
          cases hhis : B.getUtxo hash with
          | none => exact ⟨rfl, rfl⟩
          | some utxoHis =>
              rw [hhis] at hnone
              cases hnone
      | some utxoMy =>
          rw [hmine] at hnone
          cases hhis : B.getUtxo hash <;> simp [hhis, mergeUtxo] at hnone
    exact hdeed.elim (fun hdeed => hA.silent hash hmine deed hdeed htouches)
      fun hdeed => hB.silent hash hhis deed hdeed htouches
  records hash idx txHash hspent := by
    rw [spent_merged_iff hA.recorded hB.recorded hspends] at hspent
    obtain hspent | hspent := hspent
    · obtain ⟨deed, hdeed, hname, hinput⟩ := hA.records hash idx txHash hspent
      exact ⟨deed, .inl hdeed, hname, hinput⟩
    · obtain ⟨deed, hdeed, hname, hinput⟩ := hB.records hash idx txHash hspent
      exact ⟨deed, .inr hdeed, hname, hinput⟩
  spends deed hdeed key hkey := by
    rw [spent_merged_iff hA.recorded hB.recorded hspends]
    obtain hdeed | hdeed := hdeed
    · exact (hA.spends deed hdeed key hkey).imp_right .inl
    · exact (hB.spends deed hdeed key hkey).imp_right .inr

/-- Patches that can be merged spend no output in two payments. -/
theorem Tells.noDoubleSpend (hA : Tells genesis stable mine made A)
    (hB : Tells genesis stable mine' made' B) (hall : Sound genesis all) (hmade : made ⊆ all)
    (hmade' : made' ⊆ all) (honly : made ⊆ stable ∪ mine) (honly' : made' ⊆ stable ∪ mine')
    (hfree : NoDoubleSpend made) (hfree' : NoDoubleSpend made') (hspends : ¬ DoubleSpend A B) :
    NoDoubleSpend (made ∪ made') := by
  have hacross : ∀ deed ∈ made, ∀ other ∈ made', ∀ key ∈ deed.2.inputs, key ∈ other.2.inputs →
      deed = other := by
    intro deed hdeed other hother key hkey hkey'
    obtain hstable | hmine := honly hdeed
    · exact hfree' deed (hB.stable_sub hstable) other hother key hkey hkey'
    obtain hstable | hmine' := honly' hother
    · exact hfree deed hdeed other (hA.stable_sub hstable) key hkey hkey'
    -- both patches have recorded the output as spent
    obtain hstable | hspent := hA.spends deed hmine key hkey
    · exact hfree' deed (hB.stable_sub hstable) other hother key hkey hkey'
    obtain hstable | hspent' := hB.spends other hmine' key hkey'
    · exact hfree deed hdeed other (hA.stable_sub hstable) key hkey hkey'
    refine hall.named.unique deed (hmade hdeed) other (hmade' hother) ?_
    by_contra hne
    exact hspends ⟨key.txHash, key.nTxOutput, deed.1, other.1, hspent, hspent', hne⟩
  rintro deed (hdeed | hdeed) other (hother | hother) key hkey hkey'
  · exact hfree deed hdeed other hother key hkey hkey'
  · exact hacross deed hdeed other hother key hkey hkey'
  · exact (hacross other hother deed hdeed key hkey' hkey).symm
  · exact hfree' deed hdeed other hother key hkey hkey'

/-! ### Purging -/

/-- What a stable patch records as spent was spent in a stable payment. -/
theorem Tells.stable_of_recorded (hR : Tells genesis stable mine made R) (hall : Sound genesis all)
    (hmade : made ⊆ all) {idx : Nat} (hdeed : deed ∈ all)
    (hspent : (R.getSpentOutputs hash).lookup idx = some deed.1) : deed ∈ made := by
  obtain ⟨other, hother, hname, -⟩ := hR.records hash idx deed.1 hspent
  exact hall.named.unique other (hmade hother) deed hdeed hname ▸ hother

/-- What is left of a UTXO without the outputs that a stable patch has recorded as spent. -/
theorem Tells.lookup_purge_iff (hA : Tells genesis stable mine made A)
    (hR : Tells genesis stable mine' made' R) (hall : Sound genesis all) (hmade : made ⊆ all)
    (hmade' : made' ⊆ all) (honly : made' ⊆ stable ∪ mine') {utxo : UTXO}
    (hutxo : A.getUtxo hash = some utxo) (idx : Nat) (coins : Coins) :
    (FinMap.tabulate (utxo.keys \ (R.getSpentOutputs hash).keys) fun idx =>
        utxo.lookup idx).lookup idx = some coins ↔
      Shows (baseOf genesis) (made ∪ made') ⟨hash, idx⟩ coins := by
  have hshown := hA.shows hash utxo hutxo idx coins
  have hspent : ∀ deed ∈ made', (⟨hash, idx⟩ : Input) ∈ deed.2.inputs →
      deed ∈ made ∨ idx ∈ (R.getSpentOutputs hash).keys := by
    intro deed hdeed hinput
    obtain hstable | hnew := honly hdeed
    · exact .inl (hA.stable_sub hstable)
    · refine (hR.spends deed hnew _ hinput).imp (fun hstable => hA.stable_sub hstable) ?_
      exact FinMap.mem_keys_of_lookup
  have hrecorded : idx ∈ (R.getSpentOutputs hash).keys →
      ∃ deed ∈ made', (⟨hash, idx⟩ : Input) ∈ deed.2.inputs := by
    intro hmem
    obtain ⟨txHash, hlookup⟩ := FinMap.mem_keys_iff.mp hmem
    obtain ⟨deed, hdeed, -, hinput⟩ := hR.records hash idx txHash hlookup
    exact ⟨deed, hdeed, hinput⟩
  rw [FinMap.lookup_tabulate]
  constructor
  · intro hlookup
    split at hlookup
    next hkept =>
      obtain ⟨hcreated, hunspent⟩ := hshown.mp hlookup
      refine ⟨hcreated.imp_right (Exists.imp fun _ => And.imp_left .inl), ?_⟩
      rintro deed (hdeed | hdeed) hinput
      · exact hunspent deed hdeed hinput
      · obtain hmade | hrecord := hspent deed hdeed hinput
        · exact hunspent deed hmade hinput
        · exact (Finset.mem_sdiff.mp hkept).2 hrecord
    next => cases hlookup
  · rintro ⟨hcreated, hunspent⟩
    have hshows : Shows (baseOf genesis) made ⟨hash, idx⟩ coins := by
      refine ⟨hall.created hmade (hA.known hash utxo hutxo) ?_, fun deed hdeed =>
        hunspent deed (.inl hdeed)⟩
      exact hcreated.imp_right (Exists.imp fun _ => And.imp_left fun hdeed =>
        Set.union_subset hmade hmade' hdeed)
    have hlookup := hshown.mpr hshows
    rw [if_pos (Finset.mem_sdiff.mpr ⟨FinMap.mem_keys_of_lookup hlookup, fun hmem => ?_⟩)]
    · exact hlookup
    · obtain ⟨deed, hdeed, hinput⟩ := hrecorded hmem
      exact hunspent deed (.inr hdeed) hinput

/-- **A purged patch tells the same**, with more payments that are stable. -/
theorem Tells.purge (hA : Tells genesis stable mine made A) (hR : Tells genesis stable mine' made' R)
    (hall : Sound genesis all) (hmade : made ⊆ all) (hmade' : made' ⊆ all)
    (honly : made' ⊆ stable ∪ mine') :
    Tells genesis made' mine (made ∪ made') (A.purge F R) where
  recorded := hA.recorded.purge F R
  stable_sub := Set.subset_union_right
  mine_sub := hA.mine_sub.trans Set.subset_union_left
  shows hash utxo hutxo idx coins := by
    rw [getUtxo_purge] at hutxo
    split at hutxo
    next hboth =>
      obtain ⟨utxoMy, hmine⟩ := FinMap.mem_keys_iff.mp hboth.1
      have hmine : A.getUtxo hash = some utxoMy := hmine
      split at hutxo
      next => cases hutxo
      next =>
        rw [hmine, Option.map_some, Option.some.injEq] at hutxo
        subst hutxo
        exact hA.lookup_purge_iff hR hall hmade hmade' honly hmine idx coins
    next hboth =>
      have hnone : R.getUtxo hash = none := FinMap.notMem_keys_iff.mp fun hmem =>
        hboth ⟨FinMap.mem_keys_of_lookup hutxo, hmem⟩
      rw [hA.shows hash utxo hutxo idx coins]
      refine shows_congr fun deed htouches => ⟨.inl, fun hdeed => ?_⟩
      refine hdeed.elim id fun hdeed => hA.stable_sub ?_
      exact hR.stable_of_none honly hnone hdeed htouches
  known hash utxo hutxo := by
    have hmem : hash ∈ A.coins.keys := by
      by_contra hnot
      have hnone : A.getUtxo hash = none := FinMap.notMem_keys_iff.mp hnot
      rw [getUtxo_purge, if_neg fun hboth => hnot hboth.1, hnone] at hutxo
      cases hutxo
    obtain ⟨utxoMy, hmine⟩ := FinMap.mem_keys_iff.mp hmem
    exact (hA.known hash utxoMy hmine).mono Set.subset_union_left
  silent hash hnone deed hdeed htouches := by
    rw [getUtxo_purge] at hnone
    split at hnone
    next hboth =>
      split at hnone
      next hsame =>
        -- the patches agree on the hash, so what touches it is stable
        obtain ⟨key, hkey, rfl⟩ | ⟨output, houtput, rfl⟩ := htouches
        · obtain hstable | hspent := hA.spends deed hdeed key hkey
          · exact hR.stable_sub hstable
          · rw [hsame.2] at hspent
            exact hR.stable_of_recorded hall hmade' (hmade (hA.mine_sub hdeed)) hspent
        · obtain ⟨utxo, hhis⟩ := FinMap.mem_keys_iff.mp hboth.2
          have hall' := hmade (hA.mine_sub hdeed)
          have hname : output.1.txHash = deed.1 :=
            hall.named.placed deed hall' _ (List.mem_map_of_mem houtput)
          obtain hgenesis | ⟨other, hother, heq⟩ := hR.known output.1.txHash utxo hhis
          · rw [hname, hall.unknown deed hall'] at hgenesis
            cases hgenesis
          · exact hall.named.unique other (hmade' hother) deed hall' (heq.trans hname) ▸ hother
      next =>
        rw [Option.map_eq_none_iff] at hnone
        exact absurd hboth.1 (FinMap.notMem_keys_iff.mpr hnone)
    next => exact hR.stable_sub (hA.silent hash hnone deed hdeed htouches)
  records hash idx txHash hspent := by
    have hsplit : (A.getSpentOutputs hash).lookup idx = some txHash ∨
        (R.getSpentOutputs hash).lookup idx = some txHash := by
      rw [getSpentOutputs_purge] at hspent
      split at hspent
      next =>
        split at hspent
        next => cases hspent
        next =>
          rw [FinMap.lookup_union, Option.or_eq_some_iff, takenSpends, FinMap.lookup_tabulate]
            at hspent
          obtain hspent | ⟨-, hspent⟩ := hspent
          · split at hspent
            next => exact .inr hspent
            next => cases hspent
          · exact .inl hspent
      next => exact .inl hspent
    obtain hspent | hspent := hsplit
    · obtain ⟨deed, hdeed, hname, hinput⟩ := hA.records hash idx txHash hspent
      exact ⟨deed, .inl hdeed, hname, hinput⟩
    · obtain ⟨deed, hdeed, hname, hinput⟩ := hR.records hash idx txHash hspent
      exact ⟨deed, .inr hdeed, hname, hinput⟩
  spends deed hdeed key hkey := by
    obtain hstable | hspent := hA.spends deed hdeed key hkey
    · exact .inl (hR.stable_sub hstable)
    rw [getSpentOutputs_purge]
    split
    next hboth =>
      split
      next hsame =>
        rw [hsame.2] at hspent
        exact .inl (hR.stable_of_recorded hall hmade' (hmade (hA.mine_sub hdeed)) hspent)
      next =>
        right
        -- what the patch has recorded itself is not among its coins
        have hnone : (takenSpends A R key.txHash).lookup key.nTxOutput = none := by
          rw [takenSpends, FinMap.lookup_tabulate, if_neg]
          intro hmem
          obtain ⟨utxo, hutxo⟩ := FinMap.mem_keys_iff.mp hboth.1
          have hutxo : A.getUtxo key.txHash = some utxo := hutxo
          rw [hutxo, Option.getD_some, Finset.mem_inter] at hmem
          exact hA.recorded.disjoint _ utxo hutxo _ hmem.1 (FinMap.mem_keys_of_lookup hspent)
        rw [FinMap.lookup_union, hnone, Option.none_or]
        exact hspent
    next => exact .inr hspent

/-- Storage takes a stable patch over. -/
theorem Stores.applyPatch (h : Stores genesis stable storage)
    (hR : Tells genesis stable mine made R) (honly : made ⊆ stable ∪ mine) (nHeightMax : Nat) :
    Stores genesis made (storage.applyPatch F R nHeightMax) where
  shows key coins := by
    rw [lookup_baseOf]
    cases hhis : R.getUtxo key.txHash with
    | none =>
        rw [lookup_applyPatch, hhis, ← lookup_baseOf, h.shows]
        refine shows_congr fun deed htouches => ⟨fun hdeed => hR.stable_sub hdeed, fun hdeed => ?_⟩
        exact hR.stable_of_none honly hhis hdeed htouches
    | some utxo =>
        rw [lookup_of_applied F hhis]
        exact hR.shows _ utxo hhis _ coins
  known hash utxo hutxo := by
    rw [lookup_applyPatch] at hutxo
    cases hhis : R.getUtxo hash with
    | none =>
        rw [hhis] at hutxo
        exact (h.known hash utxo hutxo).mono hR.stable_sub
    | some utxoHis => exact hR.known hash utxoHis hhis

end Tells

/-! ### Payments -/

/-- What was spent was under a known hash. -/
def Grounded (genesis : Storage) (made : Set Deed) : Prop :=
  ∀ deed ∈ made, ∀ key ∈ deed.2.inputs, Known genesis made key.txHash

/-- The payment of a transaction, under its hash. -/
def deedOf (F : Factory) (tx : Transaction) : Deed := (tx.hash F, paymentOf F tx)

/-- The payment of a coinbase. -/
def coinbaseDeed (F : Factory) (block : Block) : Deed :=
  (block.coinbase.hash F,
    ⟨[], entriesFrom (block.coinbase.hash F) 0 block.coinbase.getOutCoins⟩)

/-- The function knows what outputs are worth. -/
def Values (genesis : Storage) (made : Set Deed) (value : Input → Amount) : Prop :=
  ∀ key coins, ((baseOf genesis).lookup key = some coins ∨
    ∃ deed ∈ made, (key, coins) ∈ deed.2.outputs) → value key = coins.amount

/-- What a payment leaves, where the function says what its inputs are worth. -/
def feeBy (value : Input → Amount) (deed : Deed) : Amount :=
  (deed.2.inputs.map value).sum - (deed.2.outputs.map fun output => output.2.amount).sum

section Payments

variable {F : Factory} {genesis : Storage} {stable mine made all : Set Deed} {deed : Deed}
  {key : Input} {coins : Coins} {idx : Nat} {node : NodeView} {tx : Transaction}
  {behaviour : Behaviour} {fee : Amount} {patch patch' patchThisTx : PatchDB}

theorem Sound.known_of_shows (hall : Sound genesis all) (hmade : made ⊆ all)
    (h : Shows (baseOf genesis) made key coins) : Known genesis made key.txHash := by
  obtain ⟨hbase | ⟨deed, hdeed, houtput⟩, -⟩ := h
  · rw [lookup_baseOf] at hbase
    obtain ⟨utxo, hutxo, -⟩ := Option.bind_eq_some_iff.mp hbase
    exact .inl (by rw [hutxo]; rfl)
  · refine .inr ⟨deed, hdeed, ?_⟩
    exact (hall.named.placed deed (hmade hdeed) key (List.mem_map.mpr ⟨_, houtput, rfl⟩)).symm

/-- A payment that is not among others has a hash that they do not know. -/
theorem Sound.not_known (hall : Sound genesis all) (hmade : made ⊆ all) (hdeed : deed ∈ all)
    (hnew : deed ∉ made) : ¬ Known genesis made deed.1 := by
  rintro (hgenesis | ⟨other, hother, heq⟩)
  · rw [hall.unknown deed hdeed] at hgenesis
    cases hgenesis
  · exact hnew (hall.named.unique other (hmade hother) deed hdeed heq ▸ hother)

/-- The outputs of a new payment are all unspent. -/
theorem Sound.shows_insert_own (hall : Sound genesis all) (hmade : made ⊆ all) (hdeed : deed ∈ all)
    (hnew : deed ∉ made) (hgrounded : Grounded genesis made)
    (hinputs : ∀ key ∈ deed.2.inputs, key.txHash ≠ deed.1) (hkey : key.txHash = deed.1) :
    Shows (baseOf genesis) (insert deed made) key coins ↔ (key, coins) ∈ deed.2.outputs := by
  have hunknown := hall.not_known hmade hdeed hnew
  constructor
  · rintro ⟨hbase | ⟨other, rfl | hother, houtput⟩, -⟩
    · refine absurd (Or.inl ?_) hunknown
      rw [lookup_baseOf, hkey] at hbase
      obtain ⟨utxo, hutxo, -⟩ := Option.bind_eq_some_iff.mp hbase
      rw [hutxo]
      rfl
    · exact houtput
    · refine absurd (Or.inr ⟨other, hother, ?_⟩) hunknown
      rw [← hkey]
      exact (hall.named.placed other (hmade hother) key (List.mem_map.mpr ⟨_, houtput, rfl⟩)).symm
  · intro houtput
    refine ⟨.inr ⟨deed, Set.mem_insert _ _, houtput⟩, ?_⟩
    rintro other (rfl | hother) hinput
    · exact hinputs key hinput hkey
    · exact hunknown (hkey ▸ hgrounded other hother key hinput)

/-- A payment leaves the other outputs that it does not spend. -/
theorem Sound.shows_insert_other (hall : Sound genesis all) (hdeed : deed ∈ all)
    (hkey : key.txHash ≠ deed.1) :
    Shows (baseOf genesis) (insert deed made) key coins ↔
      key ∉ deed.2.inputs ∧ Shows (baseOf genesis) made key coins := by
  constructor
  · rintro ⟨hcreated, hunspent⟩
    refine ⟨hunspent deed (Set.mem_insert _ _), ?_, fun other hother =>
      hunspent other (Set.mem_insert_of_mem _ hother)⟩
    refine hcreated.imp_right ?_
    rintro ⟨other, rfl | hother, houtput⟩
    · exact absurd (hall.named.placed other hdeed key (List.mem_map.mpr ⟨_, houtput, rfl⟩)) hkey
    · exact ⟨other, hother, houtput⟩
  · rintro ⟨hnot, hcreated, hunspent⟩
    refine ⟨hcreated.imp_right (Exists.imp fun _ => And.imp_left (Set.mem_insert_of_mem _)), ?_⟩
    rintro other (rfl | hother)
    · exact hnot
    · exact hunspent other hother

/-- A transaction pays a fee. -/
theorem fee_pos_of_processTx (hpayment : IsPayment F node.storage patch tx)
    (hok : processTx F node (some patch) false tx behaviour = .ok (fee, patchThisTx)) : 0 < fee := by
  cases hinputs : processInputs F node (some patch) false tx with
  | error error => simp [processTx, prepareTx, hpayment.findContract, hinputs] at hok
  | ok r =>
      obtain ⟨patchInputs, totalHas, nFeeSize⟩ := r
      rw [processTx_of_payment hpayment.findContract hinputs] at hok
      split at hok
      next => cases hok
      next =>
        split at hok
        next hfee =>
          cases hok
          exact lt_of_le_of_lt (Nat.cast_nonneg _) hfee
        next => cases hok

/-- What pays a fee spends something. -/
theorem inputs_ne_nil (hpayment : IsPayment F node.storage patch tx)
    (hok : processTx F node (some patch) false tx behaviour = .ok (fee, patchThisTx)) :
    tx.inputs ≠ [] := by
  intro hnil
  have hpos := fee_pos_of_processTx hpayment hok
  obtain ⟨view, patchInputs, totalHas, totalSent, -, hspend, hpayments, rfl⟩ :=
    processTx_payment_ok hpayment hok
  have hhas : totalHas = 0 := by
    rw [App.processTxInputs, hnil, App.processTxInputsFrom, Except.ok.injEq] at hspend
    exact (congrArg Prod.snd hspend).symm
  have hsent : totalSent = (tx.amountOut : Amount) := by
    rw [totalSent_processPaymentsFrom hpayments, zero_add, Transaction.getOutCoins,
      Transaction.amountOut, List.map_map, Nat.cast_list_sum, List.map_map]
    rfl
  have hout : (0 : Amount) ≤ (tx.amountOut : Amount) := Nat.cast_nonneg _
  rw [hhas, hsent] at hpos
  linarith

theorem unspent_of_processTx (hpayment : IsPayment F node.storage patch tx)
    (hok : processTx F node (some patch) false tx behaviour = .ok (fee, patchThisTx)) :
    tx.inputs.Nodup ∧ ∀ input ∈ tx.inputs, (unspentAt node.storage patch input).isSome := by
  obtain ⟨view, patchInputs, totalHas, totalSent, hview, hspend, -, -⟩ :=
    processTx_payment_ok hpayment hok
  obtain ⟨-, hnodup, hauth, -⟩ :=
    App.processTxInputsFrom_spends (spendsOnly_empty view (tx.hash F)) hspend
  refine ⟨hnodup, fun input hinput => ?_⟩
  obtain ⟨i, hi⟩ := List.getElem?_of_mem hinput
  obtain ⟨coins, signature, hcoins, -⟩ := hauth i input hi
  rw [← inputsView_unspentAt hview (mem_utxos hinput), hcoins]
  rfl

theorem PatchDB.SpendsOnly.recorded {view : PatchDB} {txHash : Hash} {inputs : List Input}
    (h : SpendsOnly view txHash inputs patch) : patch.Recorded where
  coins := h.records
  disjoint hash utxo hutxo idx hidx hspent := by
    obtain ⟨spender, hspender⟩ := FinMap.mem_keys_iff.mp hspent
    have hmem := h.spent hash idx
    rw [hspender] at hmem
    split at hmem
    next hinput =>
      have hcoins := h.coins hash (List.mem_map_of_mem (f := Input.txHash) hinput) idx
      rw [if_pos hinput, coinsAt, hutxo, Option.bind_some] at hcoins
      exact FinMap.notMem_keys_iff.mpr hcoins hidx
    next => cases hmem

/-- The payments that a node knows: none is double spent, and what they spend is known. -/
structure Plays (genesis : Storage) (all made : Set Deed) : Prop where
  sound : Sound genesis all
  sub : made ⊆ all
  free : NoDoubleSpend made
  grounded : Grounded genesis made

theorem Grounded.insert (h : Grounded genesis made)
    (hinputs : ∀ key ∈ deed.2.inputs, Known genesis made key.txHash) :
    Grounded genesis (insert deed made) := by
  rintro other (rfl | hother) key hkey
  · exact (hinputs key hkey).mono (Set.subset_insert _ _)
  · exact (h other hother key hkey).mono (Set.subset_insert _ _)

/-- A payment of what is shown spends nothing again. -/
theorem noDoubleSpend_insert (h : NoDoubleSpend made)
    (hinputs : ∀ key ∈ deed.2.inputs, ∃ coins, Shows (baseOf genesis) made key coins) :
    NoDoubleSpend (insert deed made) := by
  have hunspent : ∀ other ∈ made, ∀ key ∈ deed.2.inputs, key ∉ other.2.inputs := by
    intro other hother key hkey
    obtain ⟨coins, -, hunspent⟩ := hinputs key hkey
    exact hunspent other hother
  rintro first (rfl | hfirst) second (rfl | hsecond) key hkey hkey'
  · rfl
  · exact absurd hkey' (hunspent second hsecond key hkey)
  · exact absurd hkey (hunspent first hfirst key hkey')
  · exact h first hfirst second hsecond key hkey hkey'

theorem Plays.insert (h : Plays genesis all made) (hdeed : deed ∈ all)
    (hinputs : ∀ key ∈ deed.2.inputs, ∃ coins, Shows (baseOf genesis) made key coins) :
    Plays genesis all (insert deed made) where
  sound := h.sound
  sub := Set.insert_subset hdeed h.sub
  free := noDoubleSpend_insert h.free hinputs
  grounded := h.grounded.insert fun key hkey => by
    obtain ⟨coins, hshows⟩ := hinputs key hkey
    exact h.sound.known_of_shows h.sub hshows

/-- A transaction that was processed spends what the payments before it show, and was not
among them. -/
theorem Tells.processTx_new (htells : Tells genesis stable mine made patch)
    (hplays : Plays genesis all made) (hstores : Stores genesis stable node.storage)
    (honly : made ⊆ stable ∪ mine) (hdeed : deedOf F tx ∈ all)
    (hpayment : IsPayment F node.storage patch tx)
    (hok : processTx F node (some patch) false tx behaviour = .ok (fee, patchThisTx)) :
    (∀ key ∈ tx.inputs, ∃ coins, Shows (baseOf genesis) made key coins) ∧
      deedOf F tx ∉ made ∧ Unused node.storage patch (tx.hash F) := by
  have hview := htells.unspentAt_iff hstores hplays.sound hplays.sub honly
  have hinputs : ∀ key ∈ tx.inputs, ∃ coins, Shows (baseOf genesis) made key coins := by
    intro key hkey
    obtain ⟨coins, hcoins⟩ := Option.isSome_iff_exists.mp
      ((unspent_of_processTx hpayment hok).2 key hkey)
    exact ⟨coins, (hview key coins).mp hcoins⟩
  have hnew : deedOf F tx ∉ made := by
    intro hmem
    obtain ⟨key, hkey⟩ := List.exists_mem_of_ne_nil _ (inputs_ne_nil hpayment hok)
    obtain ⟨coins, -, hunspent⟩ := hinputs key hkey
    exact hunspent _ hmem hkey
  have hunknown := hplays.sound.not_known hplays.sub hdeed hnew
  refine ⟨hinputs, hnew, ?_, ?_⟩
  · by_contra hsome
    obtain ⟨utxo, hutxo⟩ := Option.ne_none_iff_exists'.mp hsome
    exact hunknown (htells.known _ utxo hutxo)
  · by_contra hsome
    obtain ⟨utxo, hutxo⟩ := Option.ne_none_iff_exists'.mp hsome
    exact hunknown ((hstores.known _ utxo hutxo).mono htells.stable_sub)

theorem Values.mono {value : Input → Amount} {made' : Set Deed} (h : Values genesis made value)
    (hsub : made' ⊆ made) : Values genesis made' value :=
  fun key coins hcreated => h key coins
    (hcreated.imp_right (Exists.imp fun _ => And.imp_left fun hother => hsub hother))

/-- The fee of a transaction that was processed, by what its inputs are worth. -/
theorem Tells.fee_eq (htells : Tells genesis stable mine made patch)
    (hplays : Plays genesis all made) (hstores : Stores genesis stable node.storage)
    (honly : made ⊆ stable ∪ mine) (hdeed : deedOf F tx ∈ all)
    (hpayment : IsPayment F node.storage patch tx)
    (hok : processTx F node (some patch) false tx behaviour = .ok (fee, patchThisTx))
    {value : Input → Amount} (hvalue : Values genesis made value) :
    fee = feeBy value (deedOf F tx) := by
  obtain ⟨-, -, hunused⟩ := htells.processTx_new hplays hstores honly hdeed hpayment hok
  rw [(paymentParts hpayment hunused hok).2, Ledger.fee, feeBy]
  refine congrArg₂ _ (congrArg List.sum (List.map_congr_left fun key hkey => ?_)) rfl
  obtain ⟨coins, hcoins⟩ := Option.isSome_iff_exists.mp
    ((unspent_of_processTx hpayment hok).2 key hkey)
  have hshows := (htells.unspentAt_iff hstores hplays.sound hplays.sub honly key coins).mp hcoins
  rw [Ledger.weightAt, lookup_ledgerOf, hcoins, hvalue key coins hshows.1]
  rfl

/-- The patch of a payment tells of it alone. -/
theorem Tells.processTx (htells : Tells genesis stable mine made patch)
    (hplays : Plays genesis all made) (hstores : Stores genesis stable node.storage)
    (honly : made ⊆ stable ∪ mine) (hdeed : deedOf F tx ∈ all)
    (hpayment : IsPayment F node.storage patch tx)
    (hok : CilCore.processTx F node (some patch) false tx behaviour = .ok (fee, patchThisTx)) :
    Tells genesis stable {deedOf F tx} (insert (deedOf F tx) made) patchThisTx := by
  obtain ⟨hinputs, hnew, hunused⟩ := htells.processTx_new hplays hstores honly hdeed hpayment hok
  obtain ⟨hparts, -⟩ := paymentParts hpayment hunused hok
  have hview := htells.unspentAt_iff hstores hplays.sound hplays.sub honly
  have hall := hplays.sound
  have hown : tx.hash F ∉ tx.utxos := hunused.notMem_utxos hparts.unspent
  have hothers : ∀ key ∈ (deedOf F tx).2.inputs, key.txHash ≠ (deedOf F tx).1 := by
    intro key hkey heq
    have hmem := mem_utxos hkey
    rw [heq] at hmem
    exact hown hmem
  obtain ⟨view, patchInputs, totalHas, totalSent, hinputsView, hspend, hpayments, rfl⟩ :=
    processTx_payment_ok hpayment hok
  obtain ⟨-, -, -, hspends⟩ :=
    App.processTxInputsFrom_spends (spendsOnly_empty view (tx.hash F)) hspend
  rw [List.nil_append] at hspends
  have hspent : ∀ hash idx, (patchThisTx.getSpentOutputs hash).lookup idx =
      if (⟨hash, idx⟩ : Input) ∈ tx.inputs then some (tx.hash F) else none := by
    intro hash idx
    rw [← hspends.spent hash idx, App.processPaymentsFrom_frame hpayments]
    rfl
  have hcreated (idx : Nat) (coins : Coins) :
      (patchThisTx.getUtxo (tx.hash F)).bind (·.lookup idx) = some coins ↔
        (⟨tx.hash F, idx⟩, coins) ∈ (deedOf F tx).2.outputs := by
    rw [deedOf, paymentOf, ← lookup_eq_some_iff entriesFrom_distinct, ← hparts.created idx]
    rfl
  constructor
  case recorded =>
    refine hspends.recorded.update (tx.hash F) (processPaymentsFrom_spec hpayments).1
      (fun _ _ => by rw [App.processPaymentsFrom_frame hpayments]) (fun hmem => ?_) ?_
    · rw [App.processPaymentsFrom_frame hpayments] at hmem
      exact absurd ((hspends.touched _).mp (hspends.records hmem)) hown
    · intro utxo hutxo idx hidx hmem
      obtain ⟨spender, hspender⟩ := FinMap.mem_keys_iff.mp hmem
      rw [hspent, if_neg fun hinput => hown (List.mem_map_of_mem (f := Input.txHash) hinput)]
        at hspender
      cases hspender
  case stable_sub => exact htells.stable_sub.trans (Set.subset_insert _ _)
  case mine_sub => exact Set.singleton_subset_iff.mpr (Set.mem_insert _ _)
  case shows =>
    intro hash utxo hutxo idx coins
    by_cases heq : hash = tx.hash F
    · subst heq
      rw [hall.shows_insert_own hplays.sub hdeed hnew hplays.grounded hothers rfl]
      rw [← hcreated idx coins, hutxo]
      rfl
    · have hmem : hash ∈ tx.utxos := by
        by_contra hnot
        rw [hparts.others hash heq hnot] at hutxo
        cases hutxo
      have hleft := (hparts.touched hash hmem).2 idx
      rw [coinsAt, hutxo, Option.bind_some] at hleft
      rw [hleft, hall.shows_insert_other hdeed heq, ← hview ⟨hash, idx⟩ coins]
      by_cases hinput : (⟨hash, idx⟩ : Input) ∈ tx.inputs
      · rw [if_pos hinput]
        exact iff_of_false (fun h => by cases h) fun h => h.1 hinput
      · rw [if_neg hinput]
        exact (and_iff_right hinput).symm
  case known =>
    intro hash utxo hutxo
    by_cases heq : hash = tx.hash F
    · exact .inr ⟨deedOf F tx, Set.mem_insert _ _, heq.symm⟩
    · have hmem : hash ∈ tx.utxos := by
        by_contra hnot
        rw [hparts.others hash heq hnot] at hutxo
        cases hutxo
      obtain ⟨key, hkey, rfl⟩ := List.mem_map.mp hmem
      obtain ⟨coins, hshows⟩ := hinputs key hkey
      exact (hall.known_of_shows hplays.sub hshows).mono (Set.subset_insert _ _)
  case silent =>
    rintro hash hnone deed rfl (⟨key, hkey, rfl⟩ | ⟨⟨key, coins⟩, houtput, rfl⟩)
    · have hsome := (hparts.touched key.txHash (mem_utxos hkey)).1
      rw [hnone] at hsome
      cases hsome
    · have hname : key.txHash = tx.hash F :=
        hall.named.placed _ hdeed key (List.mem_map.mpr ⟨_, houtput, rfl⟩)
      obtain ⟨hash, idx⟩ := key
      obtain rfl : hash = tx.hash F := hname
      have hlookup := (hcreated idx coins).mpr houtput
      rw [hnone] at hlookup
      cases hlookup
  case records =>
    intro hash idx txHash hlookup
    rw [hspent] at hlookup
    split at hlookup
    next hinput => exact ⟨deedOf F tx, Set.mem_insert _ _, Option.some.inj hlookup, hinput⟩
    next => cases hlookup
  case spends =>
    rintro deed rfl key hkey
    rw [hspent]
    exact .inr (if_pos hkey)

/-- **A transaction of a block**, merged into the patch of the block. -/
theorem Tells.mergeTx (htells : Tells genesis stable mine made patch)
    (hplays : Plays genesis all made) (hstores : Stores genesis stable node.storage)
    (honly : made ⊆ stable ∪ mine) (hdeed : deedOf F tx ∈ all)
    (hpayment : IsPayment F node.storage patch tx)
    (hok : CilCore.processTx F node (some patch) false tx behaviour = .ok (fee, patchThisTx))
    (hmerge : patch.merge F patchThisTx true = .ok patch') :
    Tells genesis stable (insert (deedOf F tx) mine) (insert (deedOf F tx) made) patch' ∧
      Plays genesis all (insert (deedOf F tx) made) ∧
      ∀ addr, patch.getContract addr = none → patch'.getContract addr = none := by
  have hthis := htells.processTx hplays hstores honly hdeed hpayment hok
  obtain ⟨hinputs, -, hunused⟩ := htells.processTx_new hplays hstores honly hdeed hpayment hok
  obtain ⟨hparts, -⟩ := paymentParts hpayment hunused hok
  obtain ⟨-, hconflict, -, -, -, rfl⟩ := PatchDB.merge_eq_ok.mp hmerge
  rw [conflict_iff_doubleSpend htells.recorded hthis.recorded] at hconflict
  have hplays' := hplays.insert hdeed hinputs
  refine ⟨?_, hplays', fun addr hnone => ?_⟩
  · have hmerged := htells.merged (F := F) hthis hplays.sound hplays.sub hplays'.sub
      ((Set.subset_insert _ _).trans Set.subset_union_left)
      (Set.insert_subset (.inr rfl) Set.subset_union_left) hconflict true
    rwa [Set.union_singleton, Set.union_eq_right.mpr (Set.subset_insert _ _)] at hmerged
  · have hthis : patchThisTx.getContract addr = none := by
      rw [getContract, hparts.contracts]
      rfl
    rw [lookup_getContract_merged, hnone, hthis]
    rfl

theorem processPaymentsFrom_of_nil {txHash : Hash} {outs : List Coins} {i : Nat}
    {totalSent totalSent' : Amount} (hnil : entriesFrom txHash i outs = [])
    (h : App.processPaymentsFrom txHash i outs patch totalSent = .ok (patch', totalSent')) :
    patch' = patch := by
  induction outs generalizing i with
  | nil =>
      cases h
      rfl
  | cons output rest ih =>
      rw [entriesFrom] at hnil
      rw [App.processPaymentsFrom] at h
      split at hnil
      next hzero =>
        rw [if_pos hzero] at h
        exact ih hnil h
      next => cases hnil

theorem Plays.insert_coinbase (h : Plays genesis all made) {block : Block}
    (hdeed : coinbaseDeed F block ∈ all) :
    Plays genesis all (Insert.insert (coinbaseDeed F block) made) :=
  h.insert hdeed fun _ hkey => absurd hkey List.not_mem_nil

/-- **The coinbase of a block** makes its outputs in the patch of the block. If it has any,
it must not have made them before. -/
theorem Tells.coinbase {block : Block} {blockFees : Amount}
    (htells : Tells genesis stable mine made patch) (hplays : Plays genesis all made)
    (hdeed : coinbaseDeed F block ∈ all)
    (hnew : (coinbaseDeed F block).2.outputs = [] ∨ coinbaseDeed F block ∉ made)
    (h : ChainState.processBlockCoinbaseTX F block blockFees patch = .ok patch') :
    Tells genesis stable (insert (coinbaseDeed F block) mine) (insert (coinbaseDeed F block) made)
      patch' := by
  obtain ⟨totalSent, hpayments⟩ : ∃ totalSent, App.processPaymentsFrom (block.coinbase.hash F) 0
      block.coinbase.getOutCoins patch 0 = .ok (patch', totalSent) := by
    unfold ChainState.processBlockCoinbaseTX at h
    split at h
    next => cases h
    next =>
      cases hpayments : App.processPaymentsFrom (block.coinbase.hash F) 0
        block.coinbase.getOutCoins patch 0 with
      | error error => simp [hpayments, Except.map] at h
      | ok r =>
          simp only [hpayments, Except.map, Except.ok.injEq] at h
          exact ⟨r.2, by rw [← h]⟩
  have hall := hplays.sound
  have hspent : ∀ hash, patch'.getSpentOutputs hash = patch.getSpentOutputs hash := fun hash => by
    rw [App.processPaymentsFrom_frame hpayments]
    rfl
  have hnone : ∀ key ∈ (coinbaseDeed F block).2.inputs, key.txHash ≠ (coinbaseDeed F block).1 :=
    fun _ hkey => absurd hkey List.not_mem_nil
  have htouches : ∀ hash, (coinbaseDeed F block).Touches hash →
      hash = block.coinbase.hash F ∧ (coinbaseDeed F block).2.outputs ≠ [] := by
    rintro hash (⟨key, hkey, -⟩ | ⟨output, houtput, rfl⟩)
    · cases hkey
    · refine ⟨hall.named.placed _ hdeed _ (List.mem_map_of_mem houtput), ?_⟩
      exact List.ne_nil_of_mem houtput
  have hothers : ∀ hash utxo, patch.getUtxo hash = some utxo → hash ≠ block.coinbase.hash F ∨
      (coinbaseDeed F block).2.outputs = [] → ∀ idx coins, utxo.lookup idx = some coins ↔
        Shows (baseOf genesis) (insert (coinbaseDeed F block) made) ⟨hash, idx⟩ coins := by
    intro hash utxo hutxo hoff idx coins
    rw [htells.shows hash utxo hutxo idx coins]
    refine shows_congr fun deed htouch => ⟨.inr, fun hmem => hmem.resolve_left ?_⟩
    rintro rfl
    obtain ⟨heq, hne⟩ := htouches hash htouch
    exact hoff.elim (fun hoff => hoff heq) fun hnil => hne hnil
  have hstable := htells.stable_sub.trans (Set.subset_insert (coinbaseDeed F block) made)
  have hmine := Set.insert_subset_insert (a := coinbaseDeed F block) htells.mine_sub
  have hrecords : ∀ hash idx txHash, (patch'.getSpentOutputs hash).lookup idx = some txHash →
      ∃ deed ∈ insert (coinbaseDeed F block) made,
        deed.1 = txHash ∧ (⟨hash, idx⟩ : Input) ∈ deed.2.inputs := by
    intro hash idx txHash hlookup
    rw [hspent] at hlookup
    obtain ⟨deed, hmem, hname, hinput⟩ := htells.records hash idx txHash hlookup
    exact ⟨deed, .inr hmem, hname, hinput⟩
  have hspends : ∀ deed ∈ insert (coinbaseDeed F block) mine, ∀ key ∈ deed.2.inputs,
      deed ∈ stable ∨ (patch'.getSpentOutputs key.txHash).lookup key.nTxOutput = some deed.1 := by
    rintro deed (rfl | hmem) key hkey
    · cases hkey
    · rw [hspent]
      exact htells.spends deed hmem key hkey
  by_cases hnil : (coinbaseDeed F block).2.outputs = []
  · obtain rfl := processPaymentsFrom_of_nil hnil hpayments
    refine ⟨htells.recorded, hstable, hmine, fun hash utxo hutxo => hothers hash utxo hutxo (.inr hnil),
      fun hash utxo hutxo => (htells.known hash utxo hutxo).mono (Set.subset_insert _ _), ?_,
      hrecords, hspends⟩
    rintro hash hutxo deed (rfl | hmem) htouch
    · exact absurd hnil (htouches hash htouch).2
    · exact htells.silent hash hutxo deed hmem htouch
  · have hnew := hnew.resolve_left hnil
    obtain ⟨hsame, hcoins⟩ := processPaymentsFrom_spec hpayments
    have hunknown : patch.getUtxo (block.coinbase.hash F) = none := by
      by_contra hsome
      obtain ⟨utxo, hutxo⟩ := Option.ne_none_iff_exists'.mp hsome
      exact hall.not_known hplays.sub hdeed hnew (htells.known _ utxo hutxo)
    have hcreated (idx : Nat) (coins : Coins) :
        (patch'.getUtxo (block.coinbase.hash F)).bind (·.lookup idx) = some coins ↔
          (⟨block.coinbase.hash F, idx⟩, coins) ∈ (coinbaseDeed F block).2.outputs := by
      have hown := hcoins idx
      rw [coinsAt, coinsAt, hunknown, Option.bind_none, Option.or_none] at hown
      rw [hown]
      exact lookup_eq_some_iff entriesFrom_distinct
    refine ⟨?_, hstable, hmine, fun hash utxo hutxo idx coins => ?_, fun hash utxo hutxo => ?_, ?_,
      hrecords, hspends⟩
    · refine htells.recorded.update _ hsame
        (fun _ _ => by rw [App.processPaymentsFrom_frame hpayments]) (fun hmem => ?_) ?_
      · rw [App.processPaymentsFrom_frame hpayments] at hmem
        exact absurd (htells.recorded.coins hmem) (FinMap.notMem_keys_iff.mpr hunknown)
      · intro utxo _ idx _
        rw [hspent, getSpentOutputs_eq_empty htells.recorded hunknown]
        simp
    · by_cases heq : hash = block.coinbase.hash F
      · subst heq
        rw [hall.shows_insert_own hplays.sub hdeed hnew hplays.grounded hnone rfl, ← hcreated, hutxo]
        rfl
      · rw [hsame hash heq] at hutxo
        exact hothers hash utxo hutxo (.inl heq) idx coins
    · by_cases heq : hash = block.coinbase.hash F
      · exact .inr ⟨coinbaseDeed F block, Set.mem_insert _ _, heq.symm⟩
      · rw [hsame hash heq] at hutxo
        exact (htells.known hash utxo hutxo).mono (Set.subset_insert _ _)
    · rintro hash hutxo deed (rfl | hmem) htouch
      · obtain ⟨rfl, -⟩ := htouches hash htouch
        obtain ⟨⟨key, coins⟩, houtput⟩ := List.exists_mem_of_ne_nil _ hnil
        have hname : key.txHash = block.coinbase.hash F :=
          hall.named.placed _ hdeed _ (List.mem_map_of_mem houtput)
        obtain ⟨hash, idx⟩ := key
        obtain rfl : hash = block.coinbase.hash F := hname
        have hlookup := (hcreated idx coins).mpr houtput
        rw [hutxo] at hlookup
        cases hlookup
      · refine htells.silent hash ?_ deed hmem htouch
        by_cases heq : hash = block.coinbase.hash F
        · rw [heq, hunknown]
        · rwa [← hsame hash heq]

end Payments

/-! ### Views of payments -/

/-- The patch tells of payments on top of the stable ones, and has no contracts. -/
structure ViewOf (genesis : Storage) (all stable mine : Set Deed) (patch : PatchDB) : Prop where
  tells : Tells genesis stable mine (stable ∪ mine) patch
  plays : Plays genesis all (stable ∪ mine)
  plain : ∀ addr, patch.getContract addr = none

section Views

variable {F : Factory} {genesis : Storage} {all all' stable mine mine' : Set Deed}
  {A B R : PatchDB}

theorem Sound.mono (h : Sound genesis all) (hsub : all' ⊆ all) : Sound genesis all' :=
  ⟨h.named.mono hsub, fun deed hdeed => h.unknown deed (hsub hdeed)⟩

theorem Grounded.union {made made' : Set Deed} (h : Grounded genesis made)
    (h' : Grounded genesis made') : Grounded genesis (made ∪ made') := by
  rintro deed (hdeed | hdeed) key hkey
  · exact (h deed hdeed key hkey).mono Set.subset_union_left
  · exact (h' deed hdeed key hkey).mono Set.subset_union_right

theorem viewOf_empty (h : Plays genesis all stable) : ViewOf genesis all stable ∅ PatchDB.empty where
  tells := by
    rw [Set.union_empty]
    exact tells_empty genesis stable
  plays := by rwa [Set.union_empty]
  plain _ := rfl

/-- Patches that can be merged give a common view. -/
theorem ViewOf.merge (hA : ViewOf genesis all stable mine A) (hB : ViewOf genesis all stable mine' B)
    {bPreferPatchData : Bool} (h : A.merge F B bPreferPatchData = .ok R) :
    ViewOf genesis all stable (mine ∪ mine') R := by
  obtain ⟨-, hconflict, -, -, -, rfl⟩ := PatchDB.merge_eq_ok.mp h
  rw [conflict_iff_doubleSpend hA.tells.recorded hB.tells.recorded] at hconflict
  have hsound := hA.plays.sound
  have hmade : stable ∪ (mine ∪ mine') = (stable ∪ mine) ∪ (stable ∪ mine') :=
    Set.union_union_distrib_left _ _ _
  refine ⟨?_, ?_, fun addr => ?_⟩
  · rw [hmade]
    refine hA.tells.merged hB.tells hsound hA.plays.sub hB.plays.sub ?_ ?_ hconflict _
    · exact Set.union_subset_union_left _ Set.subset_union_left
    · exact Set.union_subset_union_left _ Set.subset_union_left
  · rw [hmade]
    refine ⟨hsound, Set.union_subset hA.plays.sub hB.plays.sub, ?_,
      hA.plays.grounded.union hB.plays.grounded⟩
    exact hA.tells.noDoubleSpend hB.tells hsound hA.plays.sub hB.plays.sub Set.Subset.rfl
      Set.Subset.rfl hA.plays.free hB.plays.free hconflict
  · rw [lookup_getContract_merged, hA.plain, hB.plain]
    rfl

theorem Plays.of_sound {made : Set Deed} (h : Plays genesis all made) (hsound : Sound genesis all')
    (hsub : made ⊆ all') : Plays genesis all' made :=
  ⟨hsound, hsub, h.free, h.grounded⟩

theorem ViewOf.of_sound (h : ViewOf genesis all stable mine A) (hsound : Sound genesis all')
    (hsub : all ⊆ all') : ViewOf genesis all' stable mine A :=
  ⟨h.tells, h.plays.of_sound hsound (h.plays.sub.trans hsub), h.plain⟩

/-- What the patches of some pending blocks give together. -/
theorem mergePatchesFrom_view {dag : PendingDag} {mineOf : Hash → Set Deed} {arrHashes : List Hash}
    (hpending : ∀ v b, dag.readObj v = some b → ViewOf genesis all stable (mineOf v) b.patch)
    (hA : ViewOf genesis all stable mine A)
    (h : PendingBlocksManager.mergePatchesFrom F dag arrHashes A = .ok R) :
    ViewOf genesis all stable
      (mine ∪ {deed | ∃ v ∈ arrHashes, v ∈ dag ∧ deed ∈ mineOf v}) R := by
  induction arrHashes generalizing A mine with
  | nil =>
      cases h
      simpa using hA
  | cons v rest ih =>
      rw [PendingBlocksManager.mergePatchesFrom] at h
      split at h
      next hnone =>
        refine (congrArg (ViewOf genesis all stable · R) ?_).mp (ih hA h)
        ext deed
        have hnot := Dag.readObj_eq_none.mp hnone
        simp [hnot]
      next b hb =>
        split at h
        next => cases h
        next merged hmerge =>
          refine (congrArg (ViewOf genesis all stable · R) ?_).mp
            (ih ((hpending v b hb).merge hA hmerge) h)
          ext deed
          have hmem : v ∈ dag := Dag.mem_iff.mpr ⟨b, hb⟩
          simp [hmem, or_assoc, or_left_comm]

/-- The view of a patch that is purged, with more payments that are stable. -/
theorem ViewOf.purge (hA : ViewOf genesis all stable mine A)
    (hR : ViewOf genesis all stable mine' R) {left : Set Deed} (hleft : left ⊆ mine)
    (hgone : mine ⊆ (stable ∪ mine') ∪ left)
    (hplays : Plays genesis all' ((stable ∪ mine') ∪ left)) :
    ViewOf genesis all' (stable ∪ mine') left (A.purge F R) := by
  have htells := hA.tells.purge (F := F) hR.tells hA.plays.sound hA.plays.sub hR.plays.sub
    Set.Subset.rfl
  have hmade : stable ∪ mine ∪ (stable ∪ mine') = (stable ∪ mine') ∪ left := by
    refine Set.Subset.antisymm (Set.union_subset (Set.union_subset ?_ hgone) ?_)
      (Set.union_subset Set.subset_union_right ?_)
    · exact Set.subset_union_left.trans Set.subset_union_left
    · exact Set.subset_union_left
    · exact (hleft.trans Set.subset_union_right).trans Set.subset_union_left
  refine ⟨?_, hplays, fun addr => ?_⟩
  · rw [← hmade]
    exact htells.mono hleft
  · rw [getContract_purge, hA.plain, ite_self]

end Views

end CilCore
