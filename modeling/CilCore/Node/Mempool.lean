import CilCore.Lib.OrderedMap
import CilCore.Node.CreateBlock

/-!
# The mempool

`node/mempool.js` keeps the transactions that are in no block yet: those received
from peers by concilium, local ones with the patch of their execution, and the
hashes of transactions that were found bad. The clock is an argument wherever the
program reads it, and the dump of local transactions to disk is left out.
-/

namespace CilCore

/-- The constants that `Mempool` reads. -/
structure MempoolConstants where
  MEMPOOL_TX_QTY : Nat := 500
  MEMPOOL_TX_LIFETIME : Nat := 24 * 60 * 60 * 1000
  MEMPOOL_BAD_TX_CACHE : Nat := 10 * 60 * 1000

/-- `{tx, arrived}`. -/
structure ArrivedTx where
  tx : Transaction
  arrived : Nat
deriving DecidableEq

/-- `{tx, patchTx}`. -/
structure LocalTx where
  tx : Transaction
  patchTx : Option PatchDB

/-- The fields of a `Mempool`; `Set` and `Map` objects that are enumerated keep their
order. -/
structure MempoolStore where
  mapConcilimTxns : OrderedMap Nat (OrderedMap Hash ArrivedTx)
  mapLocalTxns : OrderedMap Hash LocalTx
  mapBadTxnsHash : OrderedMap Hash Nat
  preferredConciliums : Finset Nat

namespace MempoolStore

/-- `new Mempool()`. -/
def empty : MempoolStore := ⟨∅, ∅, ∅, ∅⟩

/-! ### Lookups -/

/-- The transactions of a concilium; `∅` also if there is no map for it. -/
def conciliumTxns (pool : MempoolStore) (nConciliumId : Nat) : OrderedMap Hash ArrivedTx :=
  (pool.mapConcilimTxns.lookup nConciliumId).getD ∅

/-- `_searchMapByHash`: the first map that holds the transaction, with its key. -/
def searchMapByHash (pool : MempoolStore) (txHash : Hash) :
    Option (Nat × OrderedMap Hash ArrivedTx) :=
  pool.mapConcilimTxns.findEntry fun _ mapTxns => decide (txHash ∈ mapTxns)

/-- `hasTx`. -/
def hasTx (pool : MempoolStore) (txHash : Hash) : Prop :=
  txHash ∈ pool.mapLocalTxns ∨ txHash ∈ pool.mapBadTxnsHash ∨
    (pool.searchMapByHash txHash).isSome

instance (pool : MempoolStore) (txHash : Hash) : Decidable (pool.hasTx txHash) :=
  inferInstanceAs (Decidable (_ ∨ _ ∨ _))

/-- `getTx`. Where no map was found, reading `get` of `undefined` throws. -/
def getTx (pool : MempoolStore) (txHash : Hash) : Except String Transaction :=
  if ¬ pool.hasTx txHash then .error "Mempool: No tx found by hash"
  else
    match pool.mapLocalTxns.lookup txHash with
    | some localTx => .ok localTx.tx
    | none =>
        match pool.searchMapByHash txHash with
        | none => .error "Cannot read property 'get' of undefined"
        | some (_, mapTxns) =>
            match mapTxns.lookup txHash with
            | none => .error "Cannot read property 'tx' of undefined"
            | some arrivedTx => .ok arrivedTx.tx

/-- What `getFinalTxns` returns. -/
def getFinalTxns (pool : MempoolStore) (nConciliumId : Nat) : List Transaction :=
  (pool.conciliumTxns nConciliumId).values.map (·.tx) ++
    (pool.mapLocalTxns.values.map (·.tx)).filter fun tx => tx.conciliumId = nConciliumId

/-- `isBadTx`. -/
def isBadTx (pool : MempoolStore) (strTxHash : Hash) : Prop := strTxHash ∈ pool.mapBadTxnsHash

/-! ### Limits -/

/-- `_ensureConciliumTxns`. -/
def ensureConciliumTxns (nConciliumId : Nat) (pool : MempoolStore) : MempoolStore :=
  if nConciliumId ∈ pool.mapConcilimTxns then pool
  else { pool with mapConcilimTxns := pool.mapConcilimTxns.set nConciliumId ∅ }

/-- `_calcSize`: all but local transactions. -/
def calcSize (pool : MempoolStore) : Nat := pool.mapConcilimTxns.total OrderedMap.size

/-- `_calcPrefferedSize`. -/
def calcPrefferedSize (pool : MempoolStore) : Nat :=
  ∑ nConciliumId ∈ pool.preferredConciliums,
    (pool.mapConcilimTxns.lookup nConciliumId).elim 0 OrderedMap.size

/-- How many of `size` transactions of one map `_purgeMaps` removes. -/
def quota (nToRemove : ℤ) (nCurrentSize size : Nat) : Nat :=
  (mathRound ((nToRemove * size : ℚ) / nCurrentSize)).toNat

/-- Size of the maps of the selected conciliums. -/
def selectedSize (selected : Nat → Bool) (pool : MempoolStore) : Nat :=
  (pool.mapConcilimTxns.filter fun n _ => selected n).total OrderedMap.size

/-- `_purgeMaps`, of the maps of the selected conciliums. -/
def purgeMaps (selected : Nat → Bool) (nDesiredSize : Nat) (pool : MempoolStore) :
    MempoolStore :=
  let nCurrentSize := pool.selectedSize selected
  let nToRemove : ℤ := nCurrentSize - nDesiredSize
  { pool with
    mapConcilimTxns := pool.mapConcilimTxns.mapWithKey fun n mapTxns =>
      if selected n then mapTxns.dropOldest (quota nToRemove nCurrentSize mapTxns.size)
      else mapTxns }

/-- `clear` of the maps of the selected conciliums. -/
def clearMaps (selected : Nat → Bool) (pool : MempoolStore) : MempoolStore :=
  { pool with
    mapConcilimTxns := pool.mapConcilimTxns.mapWithKey fun n mapTxns =>
      if selected n then ∅ else mapTxns }

/-- `this._setPreferredConciliums.has`. -/
def prefers (pool : MempoolStore) (nConciliumId : Nat) : Bool :=
  decide (nConciliumId ∈ pool.preferredConciliums)

/-- `limitConstraints`. -/
def limitConstraints (C : MempoolConstants) (pool : MempoolStore) : MempoolStore :=
  let nCurrentSize := pool.calcSize
  if nCurrentSize < C.MEMPOOL_TX_QTY then pool
  else
    let nTrimmedSize := 2 * nCurrentSize / 3
    if pool.preferredConciliums.Nonempty then
      let nPrefferedSize := pool.calcPrefferedSize
      if nPrefferedSize < C.MEMPOOL_TX_QTY then
        pool.purgeMaps (fun n => !pool.prefers n) (C.MEMPOOL_TX_QTY - nPrefferedSize)
      else
        (pool.purgeMaps pool.prefers nTrimmedSize).clearMaps fun n => !pool.prefers n
    else
      pool.purgeMaps (fun _ => true) nTrimmedSize

/-! ### Changes -/

/-- `addTx`: whether it returns, and the mempool it leaves. -/
def addTx (F : Factory) (C : MempoolConstants) (tx : Transaction) (now : Nat)
    (pool : MempoolStore) : Except String Unit × MempoolStore :=
  let nConciliumId := tx.conciliumId
  let pool := (pool.ensureConciliumTxns nConciliumId).limitConstraints C
  let strHash := tx.hash F
  if pool.hasTx strHash then (.error "tx already in mempool", pool)
  else
    (.ok (), { pool with
      mapConcilimTxns := pool.mapConcilimTxns.set nConciliumId
        ((pool.conciliumTxns nConciliumId).set strHash ⟨tx, now⟩) })

/-- `addLocalTx`. -/
def addLocalTx (F : Factory) (tx : Transaction) (patchTx : Option PatchDB)
    (pool : MempoolStore) : MempoolStore :=
  { pool with mapLocalTxns := pool.mapLocalTxns.set (tx.hash F) ⟨tx, patchTx⟩ }

/-- The loop body of `removeTxns`. -/
def removeTx (pool : MempoolStore) (txHash : Hash) : MempoolStore :=
  if txHash ∈ pool.mapLocalTxns then
    { pool with mapLocalTxns := pool.mapLocalTxns.erase txHash }
  else
    match pool.searchMapByHash txHash with
    | some (nConciliumId, mapWithTx) =>
        { pool with
          mapConcilimTxns := pool.mapConcilimTxns.set nConciliumId (mapWithTx.erase txHash) }
    | none => pool

/-- `removeTxns`. -/
def removeTxns (arrTxHashes : List Hash) (pool : MempoolStore) : MempoolStore :=
  arrTxHashes.foldl removeTx pool

/-- `removeForBlock`. -/
def removeForBlock (arrTxHashes : List Hash) (pool : MempoolStore) : MempoolStore :=
  pool.removeTxns arrTxHashes

/-- `storeBadTxHash`. -/
def storeBadTxHash (strTxHash : Hash) (now : Nat) (pool : MempoolStore) : MempoolStore :=
  { pool with mapBadTxnsHash := pool.mapBadTxnsHash.set strTxHash now }

/-- `purgeOutdated`. -/
def purgeOutdated (C : MempoolConstants) (now : Nat) (pool : MempoolStore) : MempoolStore :=
  { pool with
    mapConcilimTxns := pool.mapConcilimTxns.mapWithKey fun _ mapTxns =>
      mapTxns.filter fun _ tx => ¬ tx.arrived + C.MEMPOOL_TX_LIFETIME < now
    mapBadTxnsHash := pool.mapBadTxnsHash.filter fun _ msecAdded =>
      ¬ msecAdded + C.MEMPOOL_BAD_TX_CACHE < now }

/-- `setPreferredConciliums`. -/
def setPreferredConciliums (arrIds : List Nat) (pool : MempoolStore) : MempoolStore :=
  { pool with preferredConciliums := pool.preferredConciliums ∪ arrIds.toFinset }

/-- A call of the mempool, with the time of the call where the clock is read. -/
inductive Op
  | addTx (tx : Transaction) (now : Nat)
  | addLocalTx (tx : Transaction) (patchTx : Option PatchDB)
  | removeTxns (arrTxHashes : List Hash)
  | removeForBlock (arrTxHashes : List Hash)
  | storeBadTxHash (strTxHash : Hash) (now : Nat)
  | purgeOutdated (now : Nat)
  | setPreferredConciliums (arrIds : List Nat)
  | getFinalTxns (nConciliumId : Nat)

/-- The mempool after a call. -/
def step (F : Factory) (C : MempoolConstants) (pool : MempoolStore) : Op → MempoolStore
  | .addTx tx now => (pool.addTx F C tx now).2
  | .addLocalTx tx patchTx => pool.addLocalTx F tx patchTx
  | .removeTxns arrTxHashes => pool.removeTxns arrTxHashes
  | .removeForBlock arrTxHashes => pool.removeForBlock arrTxHashes
  | .storeBadTxHash strTxHash now => pool.storeBadTxHash strTxHash now
  | .purgeOutdated now => pool.purgeOutdated C now
  | .setPreferredConciliums arrIds => pool.setPreferredConciliums arrIds
  | .getFinalTxns nConciliumId => pool.ensureConciliumTxns nConciliumId

/-! ### What a call can do -/

/-- The places where a hash may be kept. -/
inductive Store
  | concilium (nConciliumId : Nat)
  | localTxns
  | badTxns

/-- A hash is kept in a place. -/
def Holds (pool : MempoolStore) : Store → Hash → Prop
  | .concilium nConciliumId, txHash => txHash ∈ pool.conciliumTxns nConciliumId
  | .localTxns, txHash => txHash ∈ pool.mapLocalTxns
  | .badTxns, txHash => txHash ∈ pool.mapBadTxnsHash

/-- Nothing has come in from one state to another. -/
structure Shrinks (pool pool' : MempoolStore) : Prop where
  concilium : ∀ n, (pool'.conciliumTxns n).entries.Sublist (pool.conciliumTxns n).entries
  localTxns : pool'.mapLocalTxns.entries.Sublist pool.mapLocalTxns.entries
  badTxns : pool'.mapBadTxnsHash.entries.Sublist pool.mapBadTxnsHash.entries
  calcSize_le : pool'.calcSize ≤ pool.calcSize

theorem Shrinks.refl (pool : MempoolStore) : pool.Shrinks pool :=
  ⟨fun _ => .refl _, .refl _, .refl _, le_rfl⟩

theorem Shrinks.trans {pool pool' pool'' : MempoolStore} (h : pool.Shrinks pool')
    (h' : pool'.Shrinks pool'') : pool.Shrinks pool'' :=
  ⟨fun n => (h'.concilium n).trans (h.concilium n), h'.localTxns.trans h.localTxns,
    h'.badTxns.trans h.badTxns, h'.calcSize_le.trans h.calcSize_le⟩

theorem Shrinks.holds {pool pool' : MempoolStore} (h : pool.Shrinks pool') {store : Store}
    {txHash : Hash} (hholds : pool'.Holds store txHash) : pool.Holds store txHash := by
  cases store with
  | concilium n =>
      exact AList.keys_subset_keys_of_entries_subset_entries (h.concilium n).subset hholds
  | localTxns => exact AList.keys_subset_keys_of_entries_subset_entries h.localTxns.subset hholds
  | badTxns => exact AList.keys_subset_keys_of_entries_subset_entries h.badTxns.subset hholds

/-- There is a map for a concilium that has transactions. -/
theorem lookup_of_conciliumTxns_ne_empty {pool : MempoolStore} {n : Nat}
    (h : pool.conciliumTxns n ≠ ∅) :
    pool.mapConcilimTxns.lookup n = some (pool.conciliumTxns n) := by
  rw [conciliumTxns] at h ⊢
  cases hlookup : pool.mapConcilimTxns.lookup n with
  | none =>
      rw [hlookup] at h
      exact absurd rfl h
  | some mapTxns => rfl

theorem lookup_of_mem_conciliumTxns {pool : MempoolStore} {n : Nat} {txHash : Hash}
    (h : txHash ∈ pool.conciliumTxns n) :
    pool.mapConcilimTxns.lookup n = some (pool.conciliumTxns n) := by
  apply lookup_of_conciliumTxns_ne_empty
  intro hempty
  rw [hempty] at h
  exact AList.notMem_empty _ h

theorem conciliumTxns_of_lookup {pool : MempoolStore} {n : Nat}
    {mapTxns : OrderedMap Hash ArrivedTx} (h : pool.mapConcilimTxns.lookup n = some mapTxns) :
    pool.conciliumTxns n = mapTxns := by
  rw [conciliumTxns, h]
  rfl

theorem isSome_searchMapByHash_iff {pool : MempoolStore} {txHash : Hash} :
    (pool.searchMapByHash txHash).isSome ↔ ∃ n, txHash ∈ pool.conciliumTxns n := by
  rw [searchMapByHash, OrderedMap.isSome_findEntry_iff]
  constructor
  · rintro ⟨n, mapTxns, hlookup, hmem⟩
    exact ⟨n, conciliumTxns_of_lookup hlookup ▸ of_decide_eq_true hmem⟩
  · rintro ⟨n, hmem⟩
    exact ⟨n, _, lookup_of_mem_conciliumTxns hmem, decide_eq_true hmem⟩

theorem hasTx_iff {pool : MempoolStore} {txHash : Hash} :
    pool.hasTx txHash ↔ ∃ store, pool.Holds store txHash := by
  rw [hasTx, isSome_searchMapByHash_iff]
  constructor
  · rintro (h | h | ⟨n, h⟩)
    · exact ⟨.localTxns, h⟩
    · exact ⟨.badTxns, h⟩
    · exact ⟨.concilium n, h⟩
  · rintro ⟨store, h⟩
    cases store with
    | concilium n => exact .inr (.inr ⟨n, h⟩)
    | localTxns => exact .inl h
    | badTxns => exact .inr (.inl h)

/-- The transactions of a concilium after its map was exchanged. -/
theorem conciliumTxns_set (pool : MempoolStore) (n j : Nat)
    (mapTxns : OrderedMap Hash ArrivedTx) :
    ({ pool with mapConcilimTxns := pool.mapConcilimTxns.set n mapTxns } :
      MempoolStore).conciliumTxns j = if j = n then mapTxns else pool.conciliumTxns j := by
  rw [conciliumTxns, OrderedMap.lookup_set]
  split <;> rfl

/-- Changing every map in place, so that nothing comes in. -/
theorem shrinks_mapWithKey (pool : MempoolStore)
    {f : Nat → OrderedMap Hash ArrivedTx → OrderedMap Hash ArrivedTx}
    (h : ∀ n mapTxns, (f n mapTxns).entries.Sublist mapTxns.entries) :
    pool.Shrinks { pool with mapConcilimTxns := pool.mapConcilimTxns.mapWithKey f } where
  concilium n := by
    rw [conciliumTxns, conciliumTxns, OrderedMap.lookup_mapWithKey]
    cases pool.mapConcilimTxns.lookup n with
    | none => exact .refl _
    | some mapTxns => exact h n mapTxns
  localTxns := .refl _
  badTxns := .refl _
  calcSize_le := OrderedMap.total_mapWithKey_le (fun n mapTxns => (h n mapTxns).length_le) _

theorem shrinks_ensureConciliumTxns (n : Nat) (pool : MempoolStore) :
    pool.Shrinks (pool.ensureConciliumTxns n) := by
  rw [ensureConciliumTxns]
  split
  next => exact .refl pool
  next h =>
    refine ⟨fun j => ?_, .refl _, .refl _, ?_⟩
    · rw [conciliumTxns_set]
      split
      next => exact List.nil_sublist _
      next => exact .refl _
    · exact (OrderedMap.total_set_of_notMem OrderedMap.size h).le

theorem shrinks_purgeMaps (selected : Nat → Bool) (nDesiredSize : Nat) (pool : MempoolStore) :
    pool.Shrinks (pool.purgeMaps selected nDesiredSize) := by
  apply shrinks_mapWithKey
  intro n mapTxns
  split
  next => exact List.drop_sublist ..
  next => exact .refl _

theorem shrinks_clearMaps (selected : Nat → Bool) (pool : MempoolStore) :
    pool.Shrinks (pool.clearMaps selected) := by
  apply shrinks_mapWithKey
  intro n mapTxns
  split
  next => exact List.nil_sublist _
  next => exact .refl _

theorem shrinks_limitConstraints (C : MempoolConstants) (pool : MempoolStore) :
    pool.Shrinks (pool.limitConstraints C) := by
  simp only [limitConstraints]
  split_ifs
  · exact .refl pool
  · exact shrinks_purgeMaps ..
  · exact (shrinks_purgeMaps ..).trans (shrinks_clearMaps ..)
  · exact shrinks_purgeMaps ..

theorem shrinks_removeTx (pool : MempoolStore) (txHash : Hash) :
    pool.Shrinks (pool.removeTx txHash) := by
  rw [removeTx]
  split
  next => exact ⟨fun _ => .refl _, List.kerase_sublist .., .refl _, le_rfl⟩
  next =>
    cases hsearch : pool.searchMapByHash txHash with
    | none => exact .refl pool
    | some found =>
        obtain ⟨n, mapWithTx⟩ := found
        have hlookup := (OrderedMap.findEntry_eq_some hsearch).1
        refine ⟨fun j => ?_, .refl _, .refl _, ?_⟩
        · rw [conciliumTxns_set]
          split
          next heq =>
            rw [heq, conciliumTxns_of_lookup hlookup]
            exact List.kerase_sublist ..
          next => exact .refl _
        · have htotal := OrderedMap.total_set_of_lookup (v := mapWithTx.erase txHash)
            OrderedMap.size hlookup
          have hsize := OrderedMap.size_erase_le mapWithTx txHash
          have hle : (pool.mapConcilimTxns.set n (mapWithTx.erase txHash)).total
              OrderedMap.size ≤ pool.mapConcilimTxns.total OrderedMap.size := by
            omega
          exact hle

theorem shrinks_removeTxns (arrTxHashes : List Hash) (pool : MempoolStore) :
    pool.Shrinks (pool.removeTxns arrTxHashes) := by
  induction arrTxHashes generalizing pool with
  | nil => exact .refl pool
  | cons txHash rest ih => exact (shrinks_removeTx pool txHash).trans (ih _)

theorem shrinks_purgeOutdated (C : MempoolConstants) (now : Nat) (pool : MempoolStore) :
    pool.Shrinks (pool.purgeOutdated C now) := by
  have hmaps := shrinks_mapWithKey pool
    (f := fun _ mapTxns => mapTxns.filter fun _ tx => ¬ tx.arrived + C.MEMPOOL_TX_LIFETIME < now)
    fun _ _ => List.filter_sublist
  exact ⟨hmaps.concilium, .refl _, List.filter_sublist, hmaps.calcSize_le⟩

/-- The mempool in which `addTx` looks for the transaction. -/
def trimmed (C : MempoolConstants) (tx : Transaction) (pool : MempoolStore) : MempoolStore :=
  (pool.ensureConciliumTxns tx.conciliumId).limitConstraints C

theorem shrinks_trimmed (C : MempoolConstants) (tx : Transaction) (pool : MempoolStore) :
    pool.Shrinks (pool.trimmed C tx) :=
  (shrinks_ensureConciliumTxns _ pool).trans (shrinks_limitConstraints C _)

/-- A transaction comes into the map of its concilium. -/
def file (F : Factory) (tx : Transaction) (now : Nat) (pool : MempoolStore) : MempoolStore :=
  { pool with
    mapConcilimTxns := pool.mapConcilimTxns.set tx.conciliumId
      ((pool.conciliumTxns tx.conciliumId).set (tx.hash F) ⟨tx, now⟩) }

theorem addTx_eq (F : Factory) (C : MempoolConstants) (tx : Transaction) (now : Nat)
    (pool : MempoolStore) :
    pool.addTx F C tx now =
      if (pool.trimmed C tx).hasTx (tx.hash F) then
        (.error "tx already in mempool", pool.trimmed C tx)
      else (.ok (), (pool.trimmed C tx).file F tx now) := rfl

/-- What a call can do. -/
inductive StepCase (F : Factory) (C : MempoolConstants) (pool : MempoolStore) : Op → Prop
  | shrinks {op : Op} (h : pool.Shrinks (pool.step F C op)) : StepCase F C pool op
  | addTx {tx : Transaction} {now : Nat} (hnew : ¬ (pool.trimmed C tx).hasTx (tx.hash F))
      (heq : pool.step F C (.addTx tx now) = (pool.trimmed C tx).file F tx now) :
      StepCase F C pool (.addTx tx now)
  | addLocalTx (tx : Transaction) (patchTx : Option PatchDB) :
      StepCase F C pool (.addLocalTx tx patchTx)
  | storeBadTxHash (strTxHash : Hash) (now : Nat) :
      StepCase F C pool (.storeBadTxHash strTxHash now)

theorem step_cases (F : Factory) (C : MempoolConstants) (pool : MempoolStore) (op : Op) :
    StepCase F C pool op := by
  cases op with
  | addTx tx now =>
      by_cases hknown : (pool.trimmed C tx).hasTx (tx.hash F)
      · apply StepCase.shrinks
        rw [step, addTx_eq, if_pos hknown]
        exact shrinks_trimmed C tx pool
      · apply StepCase.addTx hknown
        rw [step, addTx_eq, if_neg hknown]
  | addLocalTx tx patchTx => exact .addLocalTx tx patchTx
  | removeTxns arrTxHashes => exact .shrinks (shrinks_removeTxns arrTxHashes pool)
  | removeForBlock arrTxHashes => exact .shrinks (shrinks_removeTxns arrTxHashes pool)
  | storeBadTxHash strTxHash now => exact .storeBadTxHash strTxHash now
  | purgeOutdated now => exact .shrinks (shrinks_purgeOutdated C now pool)
  | setPreferredConciliums arrIds => exact .shrinks ⟨fun _ => .refl _, .refl _, .refl _, le_rfl⟩
  | getFinalTxns nConciliumId => exact .shrinks (shrinks_ensureConciliumTxns nConciliumId pool)

theorem conciliumTxns_file (F : Factory) (tx : Transaction) (now : Nat) (pool : MempoolStore)
    (n : Nat) :
    (pool.file F tx now).conciliumTxns n =
      if n = tx.conciliumId then (pool.conciliumTxns n).set (tx.hash F) ⟨tx, now⟩
      else pool.conciliumTxns n := by
  rw [file, conciliumTxns_set]
  split
  next h => rw [h]
  next => rfl

/-- `addTx` that returns leaves the transaction in the map of its concilium. -/
theorem lookup_of_addTx {F : Factory} {C : MempoolConstants} {tx : Transaction} {now : Nat}
    {pool : MempoolStore} (h : (pool.addTx F C tx now).1 = .ok ()) :
    ((pool.addTx F C tx now).2.conciliumTxns tx.conciliumId).lookup (tx.hash F) =
      some ⟨tx, now⟩ := by
  rw [addTx_eq] at h ⊢
  split at h
  next => cases h
  next hnew =>
    rw [if_neg hnew, conciliumTxns_file, if_pos rfl, OrderedMap.lookup_set, if_pos rfl]

end MempoolStore

end CilCore
