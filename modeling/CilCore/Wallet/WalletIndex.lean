import CilCore.Lib.OrderedMap
import CilCore.Lib.Runs
import CilCore.Structures.Utxo
import Mathlib.Data.List.Lex
import Mathlib.Data.Nat.Digits.Defs

/-!
# The wallet index

`storage/persistentStorage.js`: for each watched address the index has numbered records, which
lead to the UTXOs with outputs for that address. `applyPatch` writes records before it writes the
UTXOs, and `walletListUnspent` deletes the records that lead nowhere. Both are suspended at their
`await`s, so that their calls may interleave.
-/

namespace CilCore

/-! ### Outputs for an address -/

namespace UTXO

/-- `getOutputsForAddress` returns something. -/
def pays (strAddress : Address) (utxo : UTXO) : Bool :=
  ¬ (utxo.filterOutputsForAddress strAddress).isEmpty

end UTXO

/-! ### Records -/

/-- The key of a record: the address, and the number that `_nWalletAutoincrement` had, where
`none` is `NaN`. -/
structure WalletKey where
  strAddress : Address
  idx : Option Nat
deriving DecidableEq

/-- The number as it is written into the key, with characters counted from `0`. -/
def WalletKey.text (key : WalletKey) : List Nat :=
  match key.idx with
  | some n => (Nat.digits 10 n).reverse
  | none => [30, 49, 30]

/-- What `walletListUnspent` has found out so far. -/
structure Checked where
  setHashes : List Hash := []
  arrKeysToCleanup : List WalletKey := []
  arrResult : List (Hash × UTXO) := []

/-- One turn of the loop of `walletListUnspent`. -/
def Checked.check (utxos : FinMap Hash UTXO) (strAddress : Address) (record : WalletKey × Hash)
    (checked : Checked) : Checked :=
  if record.2 ∈ checked.setHashes then
    { checked with arrKeysToCleanup := checked.arrKeysToCleanup ++ [record.1] }
  else
    let checked := { checked with setHashes := checked.setHashes ++ [record.2] }
    match utxos.lookup record.2 with
    | none => { checked with arrKeysToCleanup := checked.arrKeysToCleanup ++ [record.1] }
    | some utxo =>
        if utxo.pays strAddress then
          { checked with
            arrResult := checked.arrResult ++ [(record.2, utxo.filterOutputsForAddress strAddress)] }
        else { checked with arrKeysToCleanup := checked.arrKeysToCleanup ++ [record.1] }

/-- The loop of `_walletCheckUtxos`. -/
def walletCheckUtxos (arrStrWalletAddresses : List Address) (arrCoins : OrderedMap Hash UTXO) :
    List (Hash × Address) :=
  arrCoins.entries.flatMap fun entry =>
    if UTXO.isEmpty entry.2 then []
    else (arrStrWalletAddresses.filter fun strAddress => UTXO.pays strAddress entry.2).map
      fun strAddress => (entry.1, strAddress)

/-- The loop of `_walletWriteNewUtxosBatch`. -/
def putRecords : List (Hash × Address) → Option Nat → OrderedMap WalletKey Hash →
    Option Nat × OrderedMap WalletKey Hash
  | [], nWalletAutoincrement, records => (nWalletAutoincrement, records)
  | (strHash, strAddress) :: rest, nWalletAutoincrement, records =>
      let nWalletAutoincrement := nWalletAutoincrement.map (· + 1)
      putRecords rest nWalletAutoincrement
        (records.insert ⟨strAddress, nWalletAutoincrement⟩ strHash)

/-- The part of a batch with UTXOs. -/
def putCoins (arrCoins : OrderedMap Hash UTXO) (utxos : FinMap Hash UTXO) : FinMap Hash UTXO :=
  arrCoins.entries.foldl (fun utxos entry =>
    if UTXO.isEmpty entry.2 then utxos.erase entry.1 else utxos.insert entry.1 entry.2) utxos

/-! ### Calls -/

/-- What `_ensureWalletInitialized` loads next. -/
inductive InitPhase where
  | addresses
  | increment
deriving DecidableEq

/-- How far a call of `applyPatch` has got. -/
inductive ApplyPhase where
  /-- It waits for the lock. -/
  | locking
  | initializing (init : InitPhase)
  /-- `_walletWriteNewUtxosBatch`. -/
  | indexing (arrAddrHash : List (Hash × Address))
  /-- The batch with the UTXOs. -/
  | storing
deriving DecidableEq

/-- How far a call of `walletListUnspent` has got. -/
inductive ListPhase where
  | starting
  | initializing (init : InitPhase)
  | reading
  | checking (arrAddrRecords : List (WalletKey × Hash)) (checked : Checked)

/-- A call that is under way. -/
inductive WalletTask where
  | applyPatch (arrCoins : OrderedMap Hash UTXO) (phase : ApplyPhase)
  | walletListUnspent (strAddress : Address) (phase : ListPhase)

/-- The call holds the lock for the UTXOs. -/
def WalletTask.locks : WalletTask → Bool
  | applyPatch _ phase => phase ≠ .locking
  | walletListUnspent _ _ => false

/-- What is stored of UTXOs and of the wallet, and what is in memory of the latter. Before it is
loaded, the number in memory is undefined, which counts like `NaN`. -/
structure WalletStore where
  utxos : FinMap Hash UTXO
  records : OrderedMap WalletKey Hash
  walletAddresses : List Address
  walletAutoincrement : Option Nat
  arrStrWalletAddresses : Option (List Address)
  nWalletAutoincrement : Option Nat

namespace WalletStore

variable (s : WalletStore)

/-- `_walletReadAddressRecords`: the records of an address in the order of their keys. -/
def walletReadAddressRecords (strAddress : Address) : List (WalletKey × Hash) :=
  ((s.records.entries.filter fun entry => entry.1.strAddress = strAddress).map
    fun entry => (entry.1, entry.2)).mergeSort fun r r' => decide (r.1.text ≤ r'.1.text)

/-- `walletListUnspent`, when nothing else is under way. -/
def walletListUnspent (strAddress : Address) : List (Hash × UTXO) :=
  ((s.walletReadAddressRecords strAddress).foldl
    (fun (checked : Checked) record => checked.check s.utxos strAddress record) {}).arrResult

/-- A part of `_ensureWalletInitialized`. -/
def load : InitPhase → WalletStore
  | .addresses => { s with arrStrWalletAddresses := some s.walletAddresses }
  | .increment => { s with nWalletAutoincrement := some (s.walletAutoincrement.getD 0) }

/-- `_walletWriteNewUtxosBatch`. The number is stored in 32 bits, where `NaN` is written as 0 and
a number that is too large throws. -/
def walletWriteNewUtxosBatch (arrAddrHash : List (Hash × Address)) : WalletStore × Bool :=
  let (nWalletAutoincrement, records) := putRecords arrAddrHash s.nWalletAutoincrement s.records
  if nWalletAutoincrement.getD 0 < 2 ^ 31 then
    ({ s with
      nWalletAutoincrement, records
      walletAutoincrement := some (nWalletAutoincrement.getD 0) }, true)
  else ({ s with nWalletAutoincrement }, false)

/-- `_walletCleanupMissed`. -/
def walletCleanupMissed (arrBadKeys : List WalletKey) : WalletStore :=
  { s with records := arrBadKeys.foldl (fun records key => records.erase key) s.records }

/-- `applyPatch` with the addresses at hand, which throws without them. -/
def checkCoins (arrCoins : OrderedMap Hash UTXO) : Option WalletTask :=
  s.arrStrWalletAddresses.map fun arrStrWalletAddresses =>
    .applyPatch arrCoins (.indexing (walletCheckUtxos arrStrWalletAddresses arrCoins))

/-- `walletListUnspent` with the addresses at hand, which throws if it is not among them. -/
def assertWatched (strAddress : Address) : Option WalletTask :=
  if strAddress ∈ s.arrStrWalletAddresses.getD [] then
    some (.walletListUnspent strAddress .reading)
  else none

/-- A call goes on to its next `await`. -/
def run (bLocked : Bool) : WalletTask → WalletStore × Option WalletTask
  | .applyPatch arrCoins .locking =>
      if bLocked then (s, some (.applyPatch arrCoins .locking))
      else if s.arrStrWalletAddresses.isSome then (s, s.checkCoins arrCoins)
      else (s, some (.applyPatch arrCoins (.initializing .addresses)))
  | .applyPatch arrCoins (.initializing .addresses) =>
      (s.load .addresses, some (.applyPatch arrCoins (.initializing .increment)))
  | .applyPatch arrCoins (.initializing .increment) =>
      (s.load .increment, (s.load .increment).checkCoins arrCoins)
  | .applyPatch arrCoins (.indexing arrAddrHash) =>
      let r := s.walletWriteNewUtxosBatch arrAddrHash
      (r.1, if r.2 then some (.applyPatch arrCoins .storing) else none)
  | .applyPatch arrCoins .storing => ({ s with utxos := putCoins arrCoins s.utxos }, none)
  | .walletListUnspent strAddress .starting =>
      if s.arrStrWalletAddresses.isSome then (s, s.assertWatched strAddress)
      else (s, some (.walletListUnspent strAddress (.initializing .addresses)))
  | .walletListUnspent strAddress (.initializing .addresses) =>
      (s.load .addresses, some (.walletListUnspent strAddress (.initializing .increment)))
  | .walletListUnspent strAddress (.initializing .increment) =>
      (s.load .increment, (s.load .increment).assertWatched strAddress)
  | .walletListUnspent strAddress .reading =>
      (s, some (.walletListUnspent strAddress
        (.checking (s.walletReadAddressRecords strAddress) {})))
  | .walletListUnspent strAddress (.checking (record :: rest) checked) =>
      (s, some (.walletListUnspent strAddress
        (.checking rest (checked.check s.utxos strAddress record))))
  | .walletListUnspent _ (.checking [] checked) =>
      (s.walletCleanupMissed checked.arrKeysToCleanup, none)

end WalletStore

/-- A storage, and the calls that are under way. -/
structure BusyWallet where
  store : WalletStore
  tasks : List WalletTask

namespace BusyWallet

/-- What may happen. -/
inductive Event where
  | applyPatch (arrCoins : OrderedMap Hash UTXO)
  | walletListUnspent (strAddress : Address)
  /-- A call goes on. -/
  | resume (n : Nat)

/-- One step. -/
def step (s : BusyWallet) : Event → BusyWallet
  | .applyPatch arrCoins => { s with tasks := s.tasks ++ [.applyPatch arrCoins .locking] }
  | .walletListUnspent strAddress =>
      { s with tasks := s.tasks ++ [.walletListUnspent strAddress .starting] }
  | .resume n =>
      match s.tasks[n]? with
      | none => s
      | some task =>
          let rest := s.tasks.eraseIdx n
          let r := s.store.run (rest.any WalletTask.locks) task
          ⟨r.1, rest ++ r.2.toList⟩

end BusyWallet

/-! ### Lemmas -/

namespace UTXO

variable {utxo : UTXO} {strAddress : Address} {idx : Nat} {coins : Coins}

theorem lookup_filterOutputsForAddress :
    (utxo.filterOutputsForAddress strAddress).lookup idx = some coins ↔
      utxo.lookup idx = some coins ∧ coins.receiverAddr = strAddress := by
  rw [filterOutputsForAddress, FinMap.lookup_tabulate]
  split
  next => rw [Option.filter_eq_some_iff, beq_iff_eq]
  next hnot =>
    rw [FinMap.notMem_keys_iff.mp hnot]
    simp

theorem pays_of_lookup (h : utxo.lookup idx = some coins) (haddr : coins.receiverAddr = strAddress) :
    utxo.pays strAddress = true := by
  have hfound := lookup_filterOutputsForAddress.mpr ⟨h, haddr⟩
  refine decide_eq_true fun hempty => ?_
  exact Finset.notMem_empty idx (hempty ▸ FinMap.mem_keys_of_lookup hfound)

theorem pays_of_isEmpty (h : utxo.isEmpty) : utxo.pays strAddress = false := by
  refine decide_eq_false (not_not.mpr ?_)
  refine Finset.eq_empty_of_forall_notMem fun idx hidx => ?_
  obtain ⟨coins, hcoins⟩ := FinMap.mem_keys_iff.mp hidx
  have hmem := FinMap.mem_keys_of_lookup (lookup_filterOutputsForAddress.mp hcoins).1
  exact Finset.notMem_empty idx (h ▸ hmem)

end UTXO

/-- A record for each address and each UTXO that pays it. -/
theorem mem_walletCheckUtxos {addresses : List Address} {arrCoins : OrderedMap Hash UTXO}
    {hash : Hash} {strAddress : Address} :
    (hash, strAddress) ∈ walletCheckUtxos addresses arrCoins ↔
      strAddress ∈ addresses ∧ (arrCoins.lookup hash).any (·.pays strAddress) = true := by
  rw [walletCheckUtxos, List.mem_flatMap, Option.any_eq_true]
  constructor
  · rintro ⟨entry, hentry, hmem⟩
    split at hmem
    next => cases hmem
    next =>
      obtain ⟨a, ha, heq⟩ := List.mem_map.mp hmem
      cases heq
      obtain ⟨hwatched, hpays⟩ := List.mem_filter.mp ha
      exact ⟨hwatched, entry.2, AList.mem_lookup_iff.mpr hentry, hpays⟩
  · rintro ⟨hwatched, utxo, hlookup, hpays⟩
    refine ⟨⟨hash, utxo⟩, AList.mem_lookup_iff.mp hlookup, ?_⟩
    rw [if_neg]
    · exact List.mem_map.mpr ⟨strAddress, List.mem_filter.mpr ⟨hwatched, hpays⟩, rfl⟩
    · intro hempty
      exact Bool.false_ne_true ((UTXO.pays_of_isEmpty hempty).symm.trans hpays)

theorem lookup_putCoins (arrCoins : OrderedMap Hash UTXO) (utxos : FinMap Hash UTXO) (hash : Hash) :
    (putCoins arrCoins utxos).lookup hash =
      match arrCoins.lookup hash with
      | some utxo => if utxo.isEmpty then none else some utxo
      | none => utxos.lookup hash := by
  obtain ⟨entries, hnodup⟩ := arrCoins
  change (entries.foldl _ utxos).lookup hash = match entries.dlookup hash with
    | some utxo => _
    | none => _
  induction entries generalizing utxos with
  | nil => rfl
  | cons entry rest ih =>
      obtain ⟨k, utxo⟩ := entry
      obtain ⟨hfresh, hrest⟩ := List.nodupKeys_cons.mp hnodup
      rw [List.foldl_cons, ih _ hrest]
      by_cases hk : hash = k
      · subst hk
        rw [List.dlookup_eq_none.mpr hfresh, List.dlookup_cons_eq]
        dsimp only
        split
        next => rw [FinMap.lookup_erase_ite, if_pos rfl]
        next => rw [FinMap.lookup_insert_ite, if_pos rfl]
      · rw [List.dlookup_cons_ne _ _ hk]
        split
        next => rfl
        next =>
          split
          next => rw [FinMap.lookup_erase_ite, if_neg hk]
          next => rw [FinMap.lookup_insert_ite, if_neg hk]

namespace Checked

variable {utxos : FinMap Hash UTXO} {strAddress : Address} {record : WalletKey × Hash}
  {checked : Checked} {hash : Hash} {utxo : UTXO}

/-- The UTXO has outputs for the address, and these are them. -/
def Found (utxos : FinMap Hash UTXO) (strAddress : Address) (hash : Hash) (utxo : UTXO) : Prop :=
  ∃ stored, utxos.lookup hash = some stored ∧ stored.pays strAddress = true ∧
    utxo = stored.filterOutputsForAddress strAddress

/-- What is listed are the outputs that records lead to, once for each UTXO. -/
structure Lists (utxos : FinMap Hash UTXO) (strAddress : Address) (checked : Checked) : Prop where
  nodup : (checked.arrResult.map (·.1)).Nodup
  mem_iff : ∀ hash utxo, (hash, utxo) ∈ checked.arrResult ↔
    hash ∈ checked.setHashes ∧ Found utxos strAddress hash utxo

theorem mem_setHashes_check :
    hash ∈ (checked.check utxos strAddress record).setHashes ↔
      hash ∈ checked.setHashes ∨ hash = record.2 := by
  unfold check
  split
  next hseen => exact ⟨.inl, fun h => h.elim id fun heq => heq ▸ hseen⟩
  next =>
    dsimp only
    rw [← List.mem_singleton, ← List.mem_append]
    split
    next => exact Iff.rfl
    next => split <;> exact Iff.rfl

theorem mem_arrResult_check :
    (hash, utxo) ∈ (checked.check utxos strAddress record).arrResult ↔
      (hash, utxo) ∈ checked.arrResult ∨
        record.2 ∉ checked.setHashes ∧ hash = record.2 ∧ Found utxos strAddress hash utxo := by
  unfold check
  split
  next hseen => exact ⟨.inl, fun h => h.elim id fun hnew => absurd hseen hnew.1⟩
  next hnew =>
    dsimp only
    split
    next hnone =>
      refine ⟨.inl, fun h => h.elim id ?_⟩
      rintro ⟨-, rfl, stored, hstored, -⟩
      exact absurd (hnone.symm.trans hstored) (by simp)
    next stored hstored =>
      split
      next hpays =>
        rw [List.mem_append, List.mem_singleton, Prod.mk.injEq]
        refine or_congr_right ⟨?_, ?_⟩
        · rintro ⟨rfl, rfl⟩
          exact ⟨hnew, rfl, stored, hstored, hpays, rfl⟩
        · rintro ⟨-, rfl, stored', hstored', -, rfl⟩
          obtain rfl := Option.some.inj (hstored.symm.trans hstored')
          exact ⟨rfl, rfl⟩
      next hnot =>
        refine ⟨.inl, fun h => h.elim id ?_⟩
        rintro ⟨-, rfl, stored', hstored', hpays, -⟩
        obtain rfl := Option.some.inj (hstored.symm.trans hstored')
        exact absurd hpays hnot

theorem Lists.check (h : Lists utxos strAddress checked) (record : WalletKey × Hash) :
    Lists utxos strAddress (checked.check utxos strAddress record) := by
  refine ⟨?_, fun hash utxo => ?_⟩
  · unfold Checked.check
    split
    next => exact h.nodup
    next hnew =>
      dsimp only
      split
      next => exact h.nodup
      next stored hstored =>
        split
        next =>
          rw [List.map_append]
          refine List.nodup_append.mpr ⟨h.nodup, List.nodup_singleton _, fun hash hmem other hother => ?_⟩
          obtain rfl := List.mem_singleton.mp hother
          rintro rfl
          obtain ⟨⟨listed, utxo⟩, hentry, heq⟩ := List.mem_map.mp hmem
          obtain rfl : listed = record.2 := heq
          exact hnew ((h.mem_iff record.2 utxo).mp hentry).1
        next => exact h.nodup
  · rw [mem_arrResult_check, mem_setHashes_check, h.mem_iff]
    by_cases hseen : record.2 ∈ checked.setHashes
    · have hsame (heq : hash = record.2) : hash ∈ checked.setHashes := heq ▸ hseen
      tauto
    · tauto

theorem Lists.foldl (h : Lists utxos strAddress checked) (records : List (WalletKey × Hash)) :
    Lists utxos strAddress
      (records.foldl (fun checked record => checked.check utxos strAddress record) checked) := by
  induction records generalizing checked with
  | nil => exact h
  | cons record rest ih => exact ih (h.check record)

theorem mem_setHashes_foldl (records : List (WalletKey × Hash)) :
    hash ∈ (records.foldl (fun (checked : Checked) record =>
        checked.check utxos strAddress record) checked).setHashes ↔
      hash ∈ checked.setHashes ∨ hash ∈ records.map (·.2) := by
  induction records generalizing checked with
  | nil => simp
  | cons record rest ih =>
      rw [List.foldl_cons, ih, mem_setHashes_check, List.map_cons, List.mem_cons, or_assoc]

end Checked

namespace WalletStore

variable {s : WalletStore} {strAddress : Address} {key : WalletKey} {hash : Hash}

theorem walletWriteNewUtxosBatch_of_put {s : WalletStore} {arrAddrHash : List (Hash × Address)}
    {m : Nat} {records : OrderedMap WalletKey Hash}
    (hput : putRecords arrAddrHash s.nWalletAutoincrement s.records = (some m, records)) :
    s.walletWriteNewUtxosBatch arrAddrHash =
      if m < 2 ^ 31 then
        ({ s with records, nWalletAutoincrement := some m, walletAutoincrement := some m }, true)
      else ({ s with nWalletAutoincrement := some m }, false) := by
  unfold walletWriteNewUtxosBatch
  rw [hput]
  rfl

theorem run_locking (s : WalletStore) (bLocked : Bool) (arrCoins : OrderedMap Hash UTXO) :
    s.run bLocked (.applyPatch arrCoins .locking) =
      if bLocked then (s, some (.applyPatch arrCoins .locking))
      else if s.arrStrWalletAddresses.isSome then (s, s.checkCoins arrCoins)
      else (s, some (.applyPatch arrCoins (.initializing .addresses))) := rfl

theorem run_indexing (s : WalletStore) (bLocked : Bool) (arrCoins : OrderedMap Hash UTXO)
    (arrAddrHash : List (Hash × Address)) :
    s.run bLocked (.applyPatch arrCoins (.indexing arrAddrHash)) =
      ((s.walletWriteNewUtxosBatch arrAddrHash).1,
        if (s.walletWriteNewUtxosBatch arrAddrHash).2 then some (.applyPatch arrCoins .storing)
        else none) := rfl

theorem run_starting (s : WalletStore) (bLocked : Bool) (strAddress : Address) :
    s.run bLocked (.walletListUnspent strAddress .starting) =
      if s.arrStrWalletAddresses.isSome then (s, s.assertWatched strAddress)
      else (s, some (.walletListUnspent strAddress (.initializing .addresses))) := rfl

theorem mem_walletReadAddressRecords :
    (key, hash) ∈ s.walletReadAddressRecords strAddress ↔
      key.strAddress = strAddress ∧ s.records.lookup key = some hash := by
  rw [walletReadAddressRecords, List.mem_mergeSort, List.mem_map]
  constructor
  · rintro ⟨entry, hentry, heq⟩
    cases heq
    obtain ⟨hmem, haddr⟩ := List.mem_filter.mp hentry
    exact ⟨of_decide_eq_true haddr, AList.mem_lookup_iff.mpr hmem⟩
  · rintro ⟨haddr, hlookup⟩
    exact ⟨⟨key, hash⟩, List.mem_filter.mpr ⟨AList.mem_lookup_iff.mp hlookup, decide_eq_true haddr⟩, rfl⟩

theorem pairwise_walletReadAddressRecords (s : WalletStore) (strAddress : Address) :
    (s.walletReadAddressRecords strAddress).Pairwise fun r r' => r.1.text ≤ r'.1.text := by
  refine (List.pairwise_mergeSort (fun a b c hab hbc => ?_) (fun a b => ?_) _).imp
    (fun h => of_decide_eq_true h)
  · exact decide_eq_true ((of_decide_eq_true hab).trans (of_decide_eq_true hbc))
  · rw [Bool.or_eq_true, decide_eq_true_eq, decide_eq_true_eq]
    exact le_total _ _

theorem nodup_walletReadAddressRecords (s : WalletStore) (strAddress : Address) :
    ((s.walletReadAddressRecords strAddress).map (·.1)).Nodup := by
  have hperm := (List.mergeSort_perm ((s.records.entries.filter
    fun entry => entry.1.strAddress = strAddress).map fun entry => (entry.1, entry.2))
      fun r r' => decide (r.1.text ≤ r'.1.text)).map (·.1)
  refine hperm.nodup_iff.mpr ?_
  rw [List.map_map]
  exact (s.records.nodupKeys.sublist List.filter_sublist)

theorem lookup_walletCleanupMissed (s : WalletStore) (arrBadKeys : List WalletKey) (key : WalletKey) :
    (s.walletCleanupMissed arrBadKeys).records.lookup key =
      if key ∈ arrBadKeys then none else s.records.lookup key := by
  unfold walletCleanupMissed
  dsimp only
  generalize s.records = records
  induction arrBadKeys generalizing records with
  | nil => rfl
  | cons bad rest ih =>
      rw [List.foldl_cons, ih]
      by_cases hbad : key = bad
      · subst hbad
        simp [AList.lookup_erase]
      · simp [hbad, AList.lookup_erase_ne hbad]

/-- An address has a UTXO listed if a record leads to it, and only once. -/
theorem lists_walletListUnspent (s : WalletStore) (strAddress : Address) :
    ((s.walletListUnspent strAddress).map (·.1)).Nodup ∧
      ∀ hash utxo, (hash, utxo) ∈ s.walletListUnspent strAddress ↔
        (∃ key, key.strAddress = strAddress ∧ s.records.lookup key = some hash) ∧
          Checked.Found s.utxos strAddress hash utxo := by
  have hempty : Checked.Lists s.utxos strAddress {} :=
    ⟨List.nodup_nil, fun _ _ => ⟨fun h => absurd h List.not_mem_nil, fun h => absurd h.1 List.not_mem_nil⟩⟩
  obtain ⟨hnodup, hmem⟩ := hempty.foldl (s.walletReadAddressRecords strAddress)
  refine ⟨hnodup, fun hash utxo => (hmem hash utxo).trans (and_congr_left fun _ => ?_)⟩
  rw [Checked.mem_setHashes_foldl, or_iff_right List.not_mem_nil, List.mem_map]
  constructor
  · rintro ⟨⟨key, v⟩, hrecord, rfl⟩
    exact ⟨key, mem_walletReadAddressRecords.mp hrecord⟩
  · rintro ⟨key, hkey⟩
    exact ⟨(key, hash), mem_walletReadAddressRecords.mpr hkey, rfl⟩

end WalletStore

namespace BusyWallet

variable (s : WalletStore) (strAddress : Address)

theorem after_checking (records : List (WalletKey × Hash)) (checked : Checked) :
    Runs.after step ⟨s, [.walletListUnspent strAddress (.checking records checked)]⟩
        (List.replicate records.length (.resume 0)) =
      ⟨s, [.walletListUnspent strAddress (.checking [] (records.foldl (fun checked record =>
        checked.check s.utxos strAddress record) checked))]⟩ := by
  induction records generalizing checked with
  | nil => rfl
  | cons record rest ih => exact ih (checked.check s.utxos strAddress record)

/-- A call that is not disturbed lists what `walletListUnspent` says. -/
theorem after_reading : ∃ checked,
    Runs.after step ⟨s, [.walletListUnspent strAddress .reading]⟩
        (List.replicate ((s.walletReadAddressRecords strAddress).length + 1) (.resume 0)) =
      ⟨s, [.walletListUnspent strAddress (.checking [] checked)]⟩ ∧
    checked.arrResult = s.walletListUnspent strAddress :=
  ⟨_, after_checking s strAddress (s.walletReadAddressRecords strAddress) {}, rfl⟩

end BusyWallet

end CilCore
