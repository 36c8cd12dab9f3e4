import CilCore.Lib.Runs
import CilCore.Node.LightValidation
import CilCore.Node.MempoolStores
import CilCore.Node.TxRecords

/-!
# Local transactions

A node executes its own transactions when it takes them in, and keeps the patches. When blocks
become stable, `_ensureLocalTxnsPatch` of `node/node.js` only executes the transactions without a
patch, so that patches that are kept stem from an earlier state.
-/

namespace CilCore

open PatchDB

/-- The part of a node that deals with local transactions. -/
structure LocalNode where
  view : NodeView
  mempool : MempoolStore
  /-- `_patchLocalTxns`. -/
  patchLocalTxns : Option PatchDB
  /-- Transactions that calls of `_acceptLocalTx` have executed, and will keep next. -/
  arrivals : List (Transaction × PatchDB)

/-- What a virtual machine does for a transaction in a state of the node. -/
abbrev Vm := NodeView → Transaction → Behaviour

/-- `getLocalTxnsPatches`. -/
def MempoolStore.getLocalTxnsPatches (pool : MempoolStore) : List (Hash × Option PatchDB) :=
  pool.mapLocalTxns.entries.map fun entry => (entry.1, entry.2.patchTx)

/-- `loadLocalTxnsFromDisk`. -/
def MempoolStore.loadLocalTxnsFromDisk (F : Factory) (txns : List Transaction)
    (pool : MempoolStore) : MempoolStore :=
  txns.foldl (fun pool tx => pool.addLocalTx F tx none) pool

namespace LocalNode

variable (F : Factory) (vm : Vm)

/-- `_processTx` as it is called for local transactions. -/
def processLocalTx (view : NodeView) (tx : Transaction) : Except String (Amount × PatchDB) :=
  processTx F view none false tx (vm view tx)

/-- The first half of a turn of the loop of `_ensureLocalTxnsPatch`: the transaction is executed
if it has no patch. -/
def ensurePatch (view : NodeView) (strTxHash : Hash) (patchTx : Option PatchDB)
    (pool : MempoolStore) : Except String (Option PatchDB × MempoolStore) :=
  match patchTx with
  | some patchTx => .ok (some patchTx, pool)
  | none =>
      match pool.getTx strTxHash with
      | .error error => .error error
      | .ok localTx =>
          match processLocalTx F vm view localTx with
          | .ok (_, patchThisTx) =>
              .ok (some patchThisTx, pool.addLocalTx F localTx (some patchThisTx))
          | .error _ => .ok (none, pool.removeTxns [strTxHash])

/-- The loop of `_ensureLocalTxnsPatch`. -/
def mergeLocalTxns (view : NodeView) : List (Hash × Option PatchDB) → PatchDB → MempoolStore →
    Except String PatchDB × MempoolStore
  | [], patchMerged, pool => (.ok patchMerged, pool)
  | (strTxHash, patchTx) :: rest, patchMerged, pool =>
      match ensurePatch F vm view strTxHash patchTx pool with
      | .error error => (.error error, pool)
      | .ok (none, pool) => mergeLocalTxns view rest patchMerged pool
      | .ok (some patchTx, pool) =>
          match patchMerged.merge F patchTx with
          | .error error => (.error error, pool)
          | .ok patchMerged => mergeLocalTxns view rest patchMerged pool

/-- `_ensureLocalTxnsPatch`. If it throws, there is no merged patch. -/
def ensureLocalTxnsPatch (s : LocalNode) : LocalNode :=
  match s.patchLocalTxns with
  | some _ => s
  | none =>
      let r := mergeLocalTxns F vm s.view s.mempool.getLocalTxnsPatches PatchDB.empty s.mempool
      { s with patchLocalTxns := r.1.toOption, mempool := r.2 }

/-- What may happen. -/
inductive Event where
  /-- A block begins or ceases to be processed: its height. -/
  | processBlock (height : Option Nat)
  /-- The node starts again, with the transactions of its file. -/
  | restart (txns : List Transaction)
  /-- `_acceptLocalTx` executes a transaction that passes its other checks. -/
  | executeLocalTx (tx : Transaction)
  /-- `_acceptLocalTx` keeps it. -/
  | addLocalTx (n : Nat)
  | ensureLocalTxnsPatch
  /-- A witness removes transactions that it could not put into a block. -/
  | removeTxns (arrTxHashes : List Hash)
  /-- `_acceptBlock` up to the check for finality. -/
  | acceptBlock (arrTxHashes : List Hash)
  /-- `_processFinalityResults`. -/
  | processFinalityResults (patchToApply : PatchDB) (nHeightMax : Nat)

/-- The state of a node that has just started. -/
def start (storage : Storage) (txns : List Transaction) : LocalNode where
  view := ⟨storage, none⟩
  mempool := MempoolStore.empty.loadLocalTxnsFromDisk F txns
  patchLocalTxns := none
  arrivals := []

/-- One step. -/
def step (s : LocalNode) : Event → LocalNode
  | .processBlock height => { s with view := { s.view with processedHeight := height } }
  | .restart txns => (start F s.view.storage txns).ensureLocalTxnsPatch F vm
  | .executeLocalTx tx =>
      let s := s.ensureLocalTxnsPatch F vm
      match s.patchLocalTxns, processLocalTx F vm s.view tx with
      | some _, .ok (_, patchNewTx) => { s with arrivals := s.arrivals ++ [(tx, patchNewTx)] }
      | _, _ => s
  | .addLocalTx n =>
      match s.arrivals[n]? with
      | none => s
      | some (newTx, patchNewTx) =>
          let s := { s with arrivals := s.arrivals.eraseIdx n }
          match s.patchLocalTxns with
          -- reading `merge` of `undefined` throws
          | none => s
          | some patchLocalTxns =>
              match patchLocalTxns.merge F patchNewTx with
              | .error _ => s
              | .ok patchLocalTxns =>
                  { s with
                    patchLocalTxns := some patchLocalTxns
                    mempool := s.mempool.addLocalTx F newTx (some patchNewTx) }
  | .ensureLocalTxnsPatch => s.ensureLocalTxnsPatch F vm
  | .removeTxns arrTxHashes => { s with mempool := s.mempool.removeTxns arrTxHashes }
  | .acceptBlock arrTxHashes =>
      { s with patchLocalTxns := none, mempool := s.mempool.removeForBlock arrTxHashes }
  | .processFinalityResults patchToApply nHeightMax =>
      ensureLocalTxnsPatch F vm
        { s with
          view := { s.view with storage := s.view.storage.applyPatch F patchToApply nHeightMax }
          patchLocalTxns := none }

/-! ### When patches are up to date -/

/-- The patches that are stored for local transactions, in their order. -/
def storedPatches (pool : MempoolStore) : List PatchDB :=
  pool.getLocalTxnsPatches.filterMap (·.2)

/-- The patch is what the execution of the transaction gives. -/
def Executes (storage : Storage) (tx : Transaction) (patch : PatchDB) : Prop :=
  ∃ fee, processLocalTx F vm ⟨storage, none⟩ tx = .ok (fee, patch)

/-- Each local transaction can be executed, which gives the patch that is stored for it, and the
stored patches are merged without a conflict. -/
structure Revalidated (s : LocalNode) : Prop where
  executes : ∀ strTxHash localTx, s.mempool.mapLocalTxns.lookup strTxHash = some localTx →
    ∃ patchTx, localTx.patchTx = some patchTx ∧ Executes F vm s.view.storage localTx.tx patchTx
  merged : ∃ patchLocalTxns, s.patchLocalTxns = some patchLocalTxns ∧
    (storedPatches s.mempool).foldlM (fun patchMerged patchTx => patchMerged.merge F patchTx)
      PatchDB.empty = .ok patchLocalTxns

/-- The transaction is executed alike in both states. -/
def Alike (node node' : NodeView) (tx : Transaction) : Prop :=
  SameReads F none tx node node' (vm node tx) (vm node' tx)

/-- When an event keeps the patches up to date. -/
def KeepsPatches (s : LocalNode) : Event → Prop
  | .executeLocalTx tx => Alike F vm s.view ⟨s.view.storage, none⟩ tx
  | .restart txns => ((start F s.view.storage txns).ensureLocalTxnsPatch F vm).patchLocalTxns ≠ none
  | .processFinalityResults patchToApply nHeightMax =>
      (∀ strTxHash localTx, s.mempool.mapLocalTxns.lookup strTxHash = some localTx →
        Alike F vm ⟨s.view.storage, none⟩
          ⟨s.view.storage.applyPatch F patchToApply nHeightMax, none⟩ localTx.tx) ∧
      ∀ arrival ∈ s.arrivals,
        Alike F vm ⟨s.view.storage, none⟩
          ⟨s.view.storage.applyPatch F patchToApply nHeightMax, none⟩ arrival.1
  | _ => True

/-! ### What is kept -/

variable {F vm} {s : LocalNode} {pool : MempoolStore} {view : NodeView} {storage : Storage}
  {tx : Transaction} {patch : PatchDB}

theorem mem_storedPatches : patch ∈ storedPatches pool ↔
    ∃ strTxHash localTx, pool.mapLocalTxns.lookup strTxHash = some localTx ∧
      localTx.patchTx = some patch := by
  rw [storedPatches, List.mem_filterMap]
  constructor
  · rintro ⟨pair, hpair, hpatch⟩
    obtain ⟨entry, hentry, rfl⟩ := List.mem_map.mp hpair
    exact ⟨entry.1, entry.2, AList.mem_lookup_iff.mpr hentry, hpatch⟩
  · rintro ⟨strTxHash, localTx, hlookup, hpatch⟩
    exact ⟨(strTxHash, localTx.patchTx), List.mem_map.mpr
      ⟨⟨strTxHash, localTx⟩, AList.mem_lookup_iff.mp hlookup, rfl⟩, hpatch⟩

theorem storedPatches_subset {pool' : MempoolStore} (h : pool.Shrinks pool') :
    storedPatches pool' ⊆ storedPatches pool := by
  intro patch hpatch
  obtain ⟨strTxHash, localTx, hlookup, hstored⟩ := mem_storedPatches.mp hpatch
  exact mem_storedPatches.mpr
    ⟨strTxHash, localTx, OrderedMap.lookup_of_sublist h.localTxns hlookup, hstored⟩

/-- Patches that can all be merged. -/
def Apart (patches : List PatchDB) : Prop :=
  ∀ p ∈ patches, p.Sound ∧ ∀ q ∈ patches, ¬ Clash p q

theorem Apart.append {patches : List PatchDB} (h : Apart patches) (hsound : patch.Sound)
    (hfree : ∀ p ∈ patches, ¬ Clash patch p) : Apart (patches ++ [patch]) := by
  have hcases {p : PatchDB} (hp : p ∈ patches ++ [patch]) : p ∈ patches ∨ p = patch :=
    (List.mem_append.mp hp).imp_right List.mem_singleton.mp
  intro p hp
  rcases hcases hp with hold | rfl
  · refine ⟨(h p hold).1, fun q hq => ?_⟩
    rcases hcases hq with hq | rfl
    · exact (h p hold).2 q hq
    · exact fun hclash => hfree p hold hclash.symm
  · refine ⟨hsound, fun q hq => ?_⟩
    rcases hcases hq with hq | rfl
    · exact hfree q hq
    · exact not_clash_self q

/-- The patches of all local transactions are stored, up to date, and apart. The merged patch may
have more in it, since transactions are removed from the mempool. -/
structure Kept (F : Factory) (vm : Vm) (s : LocalNode) : Prop where
  filed : s.mempool.WellFiled F
  executes : ∀ strTxHash localTx, s.mempool.mapLocalTxns.lookup strTxHash = some localTx →
    ∃ patchTx, localTx.patchTx = some patchTx ∧ Executes F vm s.view.storage localTx.tx patchTx
  arrivals : ∀ arrival ∈ s.arrivals, Executes F vm s.view.storage arrival.1 arrival.2
  apart : Apart (storedPatches s.mempool)
  cached : ∀ patchLocalTxns ∈ s.patchLocalTxns, ∃ kept, Gathered kept patchLocalTxns ∧
    storedPatches s.mempool ⊆ kept

theorem Executes.recorded (hF : ∀ tx, FreshHashes F tx) (h : Executes F vm storage tx patch) :
    patch.Recorded := by
  obtain ⟨fee, hprocess⟩ := h
  exact recorded_processTx (hF tx) hprocess

theorem Executes.alike {storage' : Storage} (h : Executes F vm storage tx patch)
    (halike : Alike F vm ⟨storage, none⟩ ⟨storage', none⟩ tx) : Executes F vm storage' tx patch := by
  obtain ⟨fee, hprocess⟩ := h
  exact ⟨fee, (processTx_congr halike).trans hprocess⟩

theorem Kept.recorded (hF : ∀ tx, FreshHashes F tx) (h : Kept F vm s) :
    ∀ p ∈ storedPatches s.mempool, p.Recorded := by
  intro p hp
  obtain ⟨strTxHash, localTx, hlookup, hstored⟩ := mem_storedPatches.mp hp
  obtain ⟨patchTx, hpatch, hexecutes⟩ := h.executes strTxHash localTx hlookup
  obtain rfl := Option.some.inj (hstored.symm.trans hpatch)
  exact hexecutes.recorded hF

/-! ### Merging the patches -/

/-- Patches that are stored are merged as they are. -/
theorem mergeLocalTxns_stored {entries : List (Hash × Option PatchDB)}
    (h : ∀ entry ∈ entries, entry.2.isSome = true) (acc : PatchDB) :
    mergeLocalTxns F vm view entries acc pool =
      ((entries.filterMap (·.2)).foldlM (fun acc p => acc.merge F p) acc, pool) := by
  induction entries generalizing acc with
  | nil => rfl
  | cons entry rest ih =>
      obtain ⟨strTxHash, patchTx⟩ := entry
      obtain ⟨hfirst, hrest⟩ := List.forall_mem_cons.mp h
      obtain ⟨patchTx, rfl⟩ := Option.isSome_iff_exists.mp hfirst
      change _ = ((patchTx :: rest.filterMap (·.2)).foldlM (fun acc p => acc.merge F p) acc, pool)
      rw [List.foldlM_cons]
      unfold mergeLocalTxns ensurePatch
      dsimp only
      cases hmerge : acc.merge F patchTx with
      | error error => rfl
      | ok acc' => exact ih hrest acc'

/-- If all patches are kept, they are merged, and nothing else changes. -/
theorem Kept.ensure_none (hF : ∀ tx, FreshHashes F tx) (h : Kept F vm s)
    (hnone : s.patchLocalTxns = none) :
    ∃ patchLocalTxns, s.ensureLocalTxnsPatch F vm =
        { s with patchLocalTxns := some patchLocalTxns } ∧
      (storedPatches s.mempool).foldlM (fun acc p => acc.merge F p) PatchDB.empty =
        .ok patchLocalTxns ∧
      Gathered (storedPatches s.mempool) patchLocalTxns := by
  obtain ⟨R, hR, hgathered⟩ := gathered_empty.exists_foldlM (F := F) (h.recorded hF)
    (fun p hp => (h.apart p hp).1) fun p hp q hq => (h.apart p hp).2 q hq
  have hstored : ∀ entry ∈ s.mempool.getLocalTxnsPatches, entry.2.isSome = true := by
    intro pair hpair
    obtain ⟨entry, hentry, rfl⟩ := List.mem_map.mp hpair
    obtain ⟨patchTx, hpatch, -⟩ := h.executes entry.1 entry.2 (AList.mem_lookup_iff.mpr hentry)
    exact hpatch ▸ rfl
  refine ⟨R, ?_, hR, hgathered⟩
  unfold ensureLocalTxnsPatch
  rw [hnone]
  dsimp only
  rw [mergeLocalTxns_stored hstored]
  have hfold : (s.mempool.getLocalTxnsPatches.filterMap (·.2)).foldlM
      (fun acc p => acc.merge F p) PatchDB.empty = .ok R := hR
  rw [hfold]
  rfl

theorem Kept.ensure (hF : ∀ tx, FreshHashes F tx) (h : Kept F vm s) :
    Kept F vm (s.ensureLocalTxnsPatch F vm) := by
  cases hcached : s.patchLocalTxns with
  | none =>
      obtain ⟨R, hensure, -, hgathered⟩ := h.ensure_none hF hcached
      rw [hensure]
      refine ⟨h.filed, h.executes, h.arrivals, h.apart, fun patchLocalTxns hmem => ?_⟩
      cases hmem
      exact ⟨_, hgathered, List.Subset.refl _⟩
  | some patchLocalTxns =>
      unfold ensureLocalTxnsPatch
      rw [hcached]
      exact h

/-! ### Starting -/

theorem lookup_addLocalTx (tx : Transaction) (patchTx : Option PatchDB) (pool : MempoolStore)
    (strTxHash : Hash) :
    (pool.addLocalTx F tx patchTx).mapLocalTxns.lookup strTxHash =
      if strTxHash = tx.hash F then some ⟨tx, patchTx⟩ else pool.mapLocalTxns.lookup strTxHash :=
  OrderedMap.lookup_set ..

theorem filed_addLocalTx (h : pool.WellFiled F) (tx : Transaction) (patchTx : Option PatchDB) :
    (pool.addLocalTx F tx patchTx).WellFiled F where
  concilium := h.concilium
  localTxns strTxHash localTx hlookup := by
    rw [lookup_addLocalTx] at hlookup
    split at hlookup
    next heq =>
      cases hlookup
      exact heq.symm
    next => exact h.localTxns strTxHash localTx hlookup

theorem filed_loadLocalTxns (h : pool.WellFiled F) (txns : List Transaction) :
    (pool.loadLocalTxnsFromDisk F txns).WellFiled F := by
  unfold MempoolStore.loadLocalTxnsFromDisk
  induction txns generalizing pool with
  | nil => exact h
  | cons tx rest ih => exact ih (filed_addLocalTx h tx none)

/-- Transactions of the file have no patch. -/
theorem patchTx_loadLocalTxns (h : ∀ strTxHash localTx,
      pool.mapLocalTxns.lookup strTxHash = some localTx → localTx.patchTx = none)
    (txns : List Transaction) : ∀ strTxHash localTx,
      (pool.loadLocalTxnsFromDisk F txns).mapLocalTxns.lookup strTxHash = some localTx →
        localTx.patchTx = none := by
  unfold MempoolStore.loadLocalTxnsFromDisk
  induction txns generalizing pool with
  | nil => exact h
  | cons tx rest ih =>
      refine ih fun strTxHash localTx hlookup => ?_
      rw [lookup_addLocalTx] at hlookup
      split at hlookup
      next =>
        cases hlookup
        rfl
      next => exact h strTxHash localTx hlookup

/-- What the loop has done so far: the transactions that are not before it have their patches,
which are apart and merged. -/
structure Ensured (F : Factory) (vm : Vm) (view : NodeView) (hashes : List Hash)
    (kept : List PatchDB) (acc : PatchDB) (pool : MempoolStore) : Prop where
  filed : pool.WellFiled F
  gathered : Gathered kept acc
  apart : Apart kept
  executes : ∀ strTxHash localTx, pool.mapLocalTxns.lookup strTxHash = some localTx →
    strTxHash ∈ hashes ∧ localTx.patchTx = none ∨
      ∃ patchTx ∈ kept, localTx.patchTx = some patchTx ∧
        ∃ fee, processLocalTx F vm view localTx.tx = .ok (fee, patchTx)

theorem Ensured.mergeLocalTxns (hF : ∀ tx, FreshHashes F tx) {hashes : List Hash}
    {kept : List PatchDB} {acc R : PatchDB} (h : Ensured F vm view hashes kept acc pool)
    (hnodup : hashes.Nodup)
    (hfound : ∀ strTxHash ∈ hashes, ∃ localTx,
      pool.mapLocalTxns.lookup strTxHash = some localTx)
    (hok : (mergeLocalTxns F vm view (hashes.map (·, none)) acc pool).1 = .ok R) :
    ∃ kept, Ensured F vm view [] kept R
      (mergeLocalTxns F vm view (hashes.map (·, none)) acc pool).2 := by
  induction hashes generalizing kept acc pool with
  | nil =>
      cases hok
      exact ⟨kept, h⟩
  | cons strTxHash rest ih =>
      obtain ⟨hfresh, hrest⟩ := List.nodup_cons.mp hnodup
      obtain ⟨localTx, hlookup⟩ := hfound strTxHash List.mem_cons_self
      have hhash : localTx.tx.hash F = strTxHash := h.filed.localTxns strTxHash localTx hlookup
      rw [List.map_cons] at hok ⊢
      unfold LocalNode.mergeLocalTxns ensurePatch at hok ⊢
      simp only [MempoolStore.getTx_of_localTxns hlookup] at hok ⊢
      cases hprocess : processLocalTx F vm view localTx.tx with
      | error error =>
          simp only [hprocess] at hok ⊢
          have hmaps : (pool.removeTxns [strTxHash]).mapLocalTxns =
              pool.mapLocalTxns.erase strTxHash := by
            change (pool.removeTx strTxHash).mapLocalTxns = _
            rw [MempoolStore.removeTx, if_pos (OrderedMap.mem_of_lookup hlookup)]
          refine ih ⟨h.filed.shrinks (MempoolStore.shrinks_removeTxns _ pool), h.gathered, h.apart,
            fun other found hother => ?_⟩ hrest (fun other hother => ?_) hok
          · rw [hmaps] at hother
            have hne : other ≠ strTxHash := by
              rintro rfl
              rw [AList.lookup_erase] at hother
              cases hother
            rw [AList.lookup_erase_ne hne] at hother
            exact (h.executes other found hother).imp_left fun hbefore =>
              ⟨List.mem_of_ne_of_mem hne hbefore.1, hbefore.2⟩
          · obtain ⟨found, hold⟩ := hfound other (List.mem_cons_of_mem _ hother)
            refine ⟨found, ?_⟩
            rw [hmaps, AList.lookup_erase_ne (ne_of_mem_of_not_mem hother hfresh)]
            exact hold
      | ok result =>
          obtain ⟨fee, patchTx⟩ := result
          simp only [hprocess] at hok ⊢
          cases hmerge : acc.merge F patchTx with
          | error error =>
              rw [hmerge] at hok
              cases hok
          | ok acc' =>
              simp only [hmerge] at hok ⊢
              have hrecorded : patchTx.Recorded := recorded_processTx (hF localTx.tx) hprocess
              obtain ⟨⟨hsound, hfree⟩, -⟩ := (h.gathered.append_eq_ok hrecorded).mp hmerge
              refine ih ⟨filed_addLocalTx h.filed localTx.tx (some patchTx),
                h.gathered.append hrecorded hmerge, h.apart.append hsound hfree,
                fun other found hother => ?_⟩ hrest (fun other hother => ?_) hok
              · rw [lookup_addLocalTx, hhash] at hother
                split at hother
                next =>
                  cases hother
                  exact .inr ⟨patchTx, List.mem_append_right _ List.mem_cons_self, rfl, fee, hprocess⟩
                next hne =>
                  refine (h.executes other found hother).imp (fun hbefore =>
                    ⟨List.mem_of_ne_of_mem hne hbefore.1, hbefore.2⟩) fun hdone => ?_
                  obtain ⟨p, hp, hp'⟩ := hdone
                  exact ⟨p, List.mem_append_left _ hp, hp'⟩
              · obtain ⟨found, hold⟩ := hfound other (List.mem_cons_of_mem _ hother)
                refine ⟨found, ?_⟩
                rw [lookup_addLocalTx, hhash, if_neg (ne_of_mem_of_not_mem hother hfresh)]
                exact hold

theorem kept_start (storage : Storage) : Kept F vm (start F storage []) where
  filed := MempoolStore.wellFiled_empty
  executes _ _ hlookup := by cases hlookup
  arrivals _ hmem := absurd hmem List.not_mem_nil
  apart _ hmem := absurd hmem List.not_mem_nil
  cached _ hmem := by cases hmem

/-- A node that starts without an exception has the patches of all its transactions. -/
theorem kept_restart (hF : ∀ tx, FreshHashes F tx) (txns : List Transaction)
    (hok : ((start F storage txns).ensureLocalTxnsPatch F vm).patchLocalTxns ≠ none) :
    Kept F vm ((start F storage txns).ensureLocalTxnsPatch F vm) := by
  have hnone : ∀ strTxHash localTx,
      (start F storage txns).mempool.mapLocalTxns.lookup strTxHash = some localTx →
        localTx.patchTx = none :=
    patchTx_loadLocalTxns (fun _ _ hlookup => by cases hlookup) txns
  have hentries : (start F storage txns).mempool.getLocalTxnsPatches =
      (start F storage txns).mempool.mapLocalTxns.keys.map (·, none) := by
    unfold MempoolStore.getLocalTxnsPatches AList.keys List.keys
    rw [List.map_map]
    refine List.map_congr_left fun entry hentry => ?_
    exact congrArg (entry.1, ·) (hnone entry.1 entry.2 (AList.mem_lookup_iff.mpr hentry))
  have hensured : Ensured F vm ⟨storage, none⟩
      (start F storage txns).mempool.mapLocalTxns.keys [] PatchDB.empty
      (start F storage txns).mempool := by
    refine ⟨filed_loadLocalTxns MempoolStore.wellFiled_empty txns, gathered_empty,
      fun _ hmem => absurd hmem List.not_mem_nil, fun strTxHash localTx hlookup => .inl ⟨?_, ?_⟩⟩
    · exact AList.mem_keys.mp (OrderedMap.mem_of_lookup hlookup)
    · exact hnone strTxHash localTx hlookup
  unfold ensureLocalTxnsPatch at hok ⊢
  have hcache : (start F storage txns).patchLocalTxns = none := rfl
  simp only [hcache, hentries] at hok ⊢
  cases hmerged : (mergeLocalTxns F vm (start F storage txns).view
      ((start F storage txns).mempool.mapLocalTxns.keys.map (·, none)) PatchDB.empty
      (start F storage txns).mempool).1 with
  | error error =>
      rw [hmerged] at hok
      exact absurd rfl hok
  | ok patchLocalTxns =>
      obtain ⟨kept, hdone⟩ := hensured.mergeLocalTxns hF (AList.keys_nodup _)
        (fun strTxHash hmem => OrderedMap.exists_lookup_of_mem (AList.mem_keys.mpr hmem)) hmerged
      have hsub : storedPatches (mergeLocalTxns F vm (start F storage txns).view
          ((start F storage txns).mempool.mapLocalTxns.keys.map (·, none)) PatchDB.empty
          (start F storage txns).mempool).2 ⊆ kept := by
        intro patch hpatch
        obtain ⟨strTxHash, localTx, hlookup, hstored⟩ := mem_storedPatches.mp hpatch
        rcases hdone.executes strTxHash localTx hlookup with hbefore | ⟨p, hp, heq, -⟩
        · exact absurd hbefore.1 List.not_mem_nil
        · exact Option.some.inj (hstored.symm.trans heq) ▸ hp
      refine ⟨hdone.filed, fun strTxHash localTx hlookup => ?_,
        fun _ hmem => absurd hmem List.not_mem_nil,
        fun p hp => ⟨(hdone.apart p (hsub hp)).1, fun q hq => (hdone.apart p (hsub hp)).2 q (hsub hq)⟩,
        fun patch hpatch => ?_⟩
      · rcases hdone.executes strTxHash localTx hlookup with hbefore | ⟨p, -, heq, hexecutes⟩
        · exact absurd hbefore.1 List.not_mem_nil
        · exact ⟨p, heq, hexecutes⟩
      · cases hpatch
        exact ⟨kept, hdone.gathered, hsub⟩

theorem view_ensureLocalTxnsPatch (s : LocalNode) :
    (s.ensureLocalTxnsPatch F vm).view = s.view := by
  unfold ensureLocalTxnsPatch
  split <;> rfl

/-- A patch that is merged into the others is kept with its transaction. -/
theorem Kept.addLocalTx (hF : ∀ tx, FreshHashes F tx) (h : Kept F vm s)
    (hexecutes : Executes F vm s.view.storage tx patch) {patchLocalTxns merged : PatchDB}
    (hcached : s.patchLocalTxns = some patchLocalTxns)
    (hmerge : patchLocalTxns.merge F patch = .ok merged) :
    Kept F vm { s with
      patchLocalTxns := some merged
      mempool := s.mempool.addLocalTx F tx (some patch) } := by
  have hrecorded := hexecutes.recorded hF
  obtain ⟨kept, hgathered, hkept⟩ := h.cached patchLocalTxns hcached
  obtain ⟨⟨hsound, hfree⟩, -⟩ := (hgathered.append_eq_ok hrecorded).mp hmerge
  have hstored : storedPatches (s.mempool.addLocalTx F tx (some patch)) ⊆
      storedPatches s.mempool ++ [patch] := by
    intro p hp
    obtain ⟨strTxHash, localTx, hlookup, hpatch⟩ := mem_storedPatches.mp hp
    rw [lookup_addLocalTx] at hlookup
    split at hlookup
    next =>
      cases hlookup
      cases hpatch
      exact List.mem_append_right _ List.mem_cons_self
    next =>
      exact List.mem_append_left _ (mem_storedPatches.mpr ⟨strTxHash, localTx, hlookup, hpatch⟩)
  have hapart := h.apart.append hsound fun p hp => hfree p (hkept hp)
  refine ⟨filed_addLocalTx h.filed tx (some patch), fun strTxHash localTx hlookup => ?_, h.arrivals,
    fun p hp => ⟨(hapart p (hstored hp)).1, fun q hq => (hapart p (hstored hp)).2 q (hstored hq)⟩,
    fun p hp => ?_⟩
  · rw [lookup_addLocalTx] at hlookup
    split at hlookup
    next =>
      cases hlookup
      exact ⟨patch, rfl, hexecutes⟩
    next => exact h.executes strTxHash localTx hlookup
  · cases hp
    refine ⟨kept ++ [patch], hgathered.append hrecorded hmerge, fun p hp => ?_⟩
    exact (List.mem_append.mp (hstored hp)).elim (fun hold => List.mem_append_left _ (hkept hold))
      fun hnew => List.mem_append_right _ hnew

/-- The new stable state executes the transactions as the old one did. -/
theorem Kept.applyPatch (h : Kept F vm s) {patchToApply : PatchDB} {nHeightMax : Nat}
    (hkeeps : KeepsPatches F vm s (.processFinalityResults patchToApply nHeightMax)) :
    Kept F vm { s with
      view := { s.view with storage := s.view.storage.applyPatch F patchToApply nHeightMax }
      patchLocalTxns := none } := by
  obtain ⟨hlocal, harrivals⟩ := hkeeps
  refine ⟨h.filed, fun strTxHash localTx hlookup => ?_, fun arrival harrival => ?_, h.apart,
    fun _ hmem => by cases hmem⟩
  · obtain ⟨patchTx, hpatch, hexecutes⟩ := h.executes strTxHash localTx hlookup
    exact ⟨patchTx, hpatch, hexecutes.alike (hlocal strTxHash localTx hlookup)⟩
  · exact (h.arrivals arrival harrival).alike (harrivals arrival harrival)

/-- What an event does that keeps the patches up to date. -/
theorem Kept.step (hF : ∀ tx, FreshHashes F tx) (h : Kept F vm s) {event : Event}
    (hkeeps : KeepsPatches F vm s event) : Kept F vm (s.step F vm event) := by
  have hshrink (arrTxHashes : List Hash) := MempoolStore.shrinks_removeTxns arrTxHashes s.mempool
  have hremove (arrTxHashes : List Hash) (patchLocalTxns : Option PatchDB)
      (hcached : ∀ patch ∈ patchLocalTxns, patch ∈ s.patchLocalTxns) :
      Kept F vm { s with patchLocalTxns, mempool := s.mempool.removeTxns arrTxHashes } := by
    have hsub := storedPatches_subset (hshrink arrTxHashes)
    refine ⟨h.filed.shrinks (hshrink arrTxHashes), fun strTxHash localTx hlookup => ?_, h.arrivals,
      fun p hp => ⟨(h.apart p (hsub hp)).1, fun q hq => (h.apart p (hsub hp)).2 q (hsub hq)⟩,
      fun patch hpatch => ?_⟩
    · exact h.executes strTxHash localTx
        (OrderedMap.lookup_of_sublist (hshrink arrTxHashes).localTxns hlookup)
    · obtain ⟨kept, hgathered, hkept⟩ := h.cached patch (hcached patch hpatch)
      exact ⟨kept, hgathered, List.Subset.trans hsub hkept⟩
  cases event with
  | processBlock height => exact ⟨h.filed, h.executes, h.arrivals, h.apart, h.cached⟩
  | restart txns => exact kept_restart hF txns hkeeps
  | executeLocalTx tx =>
      have hensured := h.ensure hF
      have hview : (s.ensureLocalTxnsPatch F vm).view = s.view := view_ensureLocalTxnsPatch s
      unfold LocalNode.step
      dsimp only
      split
      next fee patchNewTx _ hprocess =>
        refine ⟨hensured.filed, hensured.executes, fun arrival harrival => ?_, hensured.apart,
          hensured.cached⟩
        rcases List.mem_append.mp harrival with hold | hnew
        · exact hensured.arrivals arrival hold
        · obtain rfl := List.mem_singleton.mp hnew
          rw [hview] at hprocess ⊢
          exact ⟨fee, (processTx_congr hkeeps).trans hprocess⟩
      next => exact hensured
  | addLocalTx n =>
      unfold LocalNode.step
      dsimp only
      split
      next => exact h
      next newTx patchNewTx harrival =>
        have hrest : Kept F vm { s with arrivals := s.arrivals.eraseIdx n } :=
          ⟨h.filed, h.executes, fun arrival hmem => h.arrivals arrival (List.mem_of_mem_eraseIdx hmem),
            h.apart, h.cached⟩
        split
        next => exact hrest
        next patchLocalTxns hcached =>
          split
          next => exact hrest
          next merged hmerge =>
            exact hrest.addLocalTx hF (h.arrivals _ (List.mem_of_getElem? harrival)) hcached hmerge
  | ensureLocalTxnsPatch => exact h.ensure hF
  | removeTxns arrTxHashes => exact hremove arrTxHashes s.patchLocalTxns fun _ hmem => hmem
  | acceptBlock arrTxHashes => exact hremove arrTxHashes none fun _ hmem => by cases hmem
  | processFinalityResults patchToApply nHeightMax => exact (h.applyPatch hkeeps).ensure hF

theorem Kept.revalidated (hF : ∀ tx, FreshHashes F tx) (h : Kept F vm s) {patchToApply : PatchDB}
    {nHeightMax : Nat}
    (hkeeps : KeepsPatches F vm s (.processFinalityResults patchToApply nHeightMax)) :
    Revalidated F vm (s.step F vm (.processFinalityResults patchToApply nHeightMax)) := by
  have happlied := h.applyPatch hkeeps
  obtain ⟨patchLocalTxns, hensure, hmerged, -⟩ := happlied.ensure_none hF rfl
  have hstep : s.step F vm (.processFinalityResults patchToApply nHeightMax) =
      ensureLocalTxnsPatch F vm
        { s with
          view := { s.view with storage := s.view.storage.applyPatch F patchToApply nHeightMax }
          patchLocalTxns := none } := rfl
  rw [hstep, hensure]
  exact ⟨happlied.executes, patchLocalTxns, rfl, hmerged⟩

/-- **Local transactions are revalidated** in a run whose steps all keep the patches up to date:
after each finality event, their patches are what their execution gives, and are merged. -/
theorem revalidated_of_run (hF : ∀ tx, FreshHashes F tx) (storage : Storage) (events : List Event)
    (patchToApply : PatchDB) (nHeightMax : Nat)
    (hkeeps : Runs.EveryStep (step F vm) (KeepsPatches F vm) (start F storage [])
      (events ++ [.processFinalityResults patchToApply nHeightMax])) :
    Revalidated F vm (Runs.after (step F vm) (start F storage [])
      (events ++ [.processFinalityResults patchToApply nHeightMax])) := by
  obtain ⟨hbefore, hlast, -⟩ := Runs.everyStep_append.mp hkeeps
  have hkept := hbefore.invariant (fun s event hs hevent => Kept.step hF hs hevent)
    (kept_start storage)
  have hafter : Runs.after (step F vm) (start F storage [])
      (events ++ [.processFinalityResults patchToApply nHeightMax]) =
        (Runs.after (step F vm) (start F storage []) events).step F vm
          (.processFinalityResults patchToApply nHeightMax) := by
    rw [Runs.after, List.foldl_append]
    rfl
  rw [hafter]
  exact hkept.revalidated hF hlast

/-! ### A payment whose coin is spent by a stable block -/

section Sample

/-- A patch of a block that spends or creates the first output of a transaction. -/
def patchAt (hash : Hash) (utxo : UTXO) (spent : FinMap Nat Hash) : PatchDB :=
  { PatchDB.empty with
    coins := (∅ : FinMap Hash UTXO).insert hash utxo
    mapSpentUtxos := (∅ : FinMap Hash (FinMap Nat Hash)).insert hash spent }

/-- A payment is taken in, and then a block becomes stable. -/
def paidThenStable (patchToApply : PatchDB) : List Event :=
  [.executeLocalTx (payingTx 1500), .addLocalTx 0] ++ [.processFinalityResults patchToApply 0]

/-- No contract is run. -/
def noContracts : Vm := fun _ _ => ⟨.error "", .throws ""⟩

theorem freshHashes_sample (tx : Transaction) : FreshHashes Factory.sample tx where
  internal_injective := Factory.internalHash_sample_injective _
  internal_fresh n hmem := by
    have hlt := (Factory.lt_internalHash_sample (tx.hash Factory.sample) n).1
    rcases List.mem_cons.mp hmem with heq | hinput
    · exact hlt.ne' heq
    · obtain ⟨input, hinput, heq⟩ := List.mem_map.mp hinput
      exact ((lt_payloadHash_sample hinput).trans hlt).ne heq
  hash_fresh hmem := by
    obtain ⟨input, hinput, heq⟩ := List.mem_map.mp hmem
    exact hashesPayloads_sample tx.payload input hinput heq

/-- The payment stays, with the patch of a state that has the coin. -/
theorem not_revalidated_paidThenStable :
    ¬ Revalidated Factory.sample noContracts
      (Runs.after (step Factory.sample noContracts) (start Factory.sample payingNode.storage [])
        (paidThenStable (patchAt 5 ∅ ((∅ : FinMap Nat Hash).insert 0 99)))) := by
  intro h
  have hstays : ((Runs.after (step Factory.sample noContracts)
      (start Factory.sample payingNode.storage [])
      (paidThenStable (patchAt 5 ∅ ((∅ : FinMap Nat Hash).insert 0 99)))).mempool.mapLocalTxns.lookup
        ((payingTx 1500).hash Factory.sample)).any (fun localTx : LocalTx =>
          (processLocalTx Factory.sample noContracts
            ⟨(Runs.after (step Factory.sample noContracts)
              (start Factory.sample payingNode.storage []) (paidThenStable
                (patchAt 5 ∅ ((∅ : FinMap Nat Hash).insert 0 99)))).view.storage, none⟩
            localTx.tx).toOption.isNone) = true := by
    decide +kernel
  obtain ⟨localTx, hlookup, hfails⟩ := Option.any_eq_true _ _ |>.mp hstays
  obtain ⟨patchTx, -, fee, hprocess⟩ := h.executes _ localTx hlookup
  rw [hprocess] at hfails
  cases hfails

/-- A block is about other coins. -/
theorem alike_payingTx : Alike Factory.sample noContracts ⟨payingNode.storage, none⟩
    ⟨payingNode.storage.applyPatch Factory.sample (patchAt 9 ((∅ : UTXO).insert 0 ⟨1, 2⟩) ∅) 0, none⟩
    (payingTx 1500) where
  utxos hash hmem := by
    obtain rfl := List.mem_singleton.mp hmem
    rfl
  concilium := rfl
  receiver _ _ := rfl
  run hrun := absurd (by decide +kernel) hrun

/-- What the state is before the block becomes stable. -/
theorem after_addLocalTx :
    let s := Runs.after (step Factory.sample noContracts) (start Factory.sample payingNode.storage [])
      [.executeLocalTx (payingTx 1500), .addLocalTx 0]
    s.view.storage = payingNode.storage ∧ s.arrivals.isEmpty = true ∧
      (s.mempool.mapLocalTxns.entries.all fun entry => entry.2.tx = payingTx 1500) = true := by
  decide +kernel

theorem revalidated_of_run_paidThenStable :
    Revalidated Factory.sample noContracts
      (Runs.after (step Factory.sample noContracts) (start Factory.sample payingNode.storage [])
        (paidThenStable (patchAt 9 ((∅ : UTXO).insert 0 ⟨1, 2⟩) ∅))) := by
  obtain ⟨hstorage, harrivals, hlocal⟩ := after_addLocalTx
  refine revalidated_of_run freshHashes_sample payingNode.storage
    [.executeLocalTx (payingTx 1500), .addLocalTx 0] (patchAt 9 ((∅ : UTXO).insert 0 ⟨1, 2⟩) ∅) 0
    (Runs.everyStep_append.mpr ⟨⟨SameReads.refl _ _, trivial, trivial⟩,
      ⟨fun strTxHash localTx hlookup => ?_, fun arrival harrival => ?_⟩, trivial⟩)
  · have htx := of_decide_eq_true (List.all_eq_true.mp hlocal _ (AList.mem_lookup_iff.mp hlookup))
    rw [hstorage, htx]
    exact alike_payingTx
  · rw [List.isEmpty_iff.mp harrivals] at harrival
    cases harrival

end Sample

end LocalNode

end CilCore
