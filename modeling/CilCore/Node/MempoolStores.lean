import CilCore.Node.MempoolBound

/-!
# One place for each transaction

A mempool keeps hashes in several maps. `addTx` asks all of them before it files a
transaction; `addLocalTx` and `storeBadTxHash` ask none. A local transaction that is
already in the map of a concilium is handed out twice and stays there when a block
removes it, and `getTx` throws for a hash that `hasTx` finds among the bad ones. As
long as neither happens, each hash has one place.
-/

namespace CilCore

namespace MempoolStore

variable {F : Factory} {C : MempoolConstants} {pool : MempoolStore}

/-! ### What is kept where -/

/-- Every transaction is kept under its hash, and for its own concilium. -/
structure WellFiled (F : Factory) (pool : MempoolStore) : Prop where
  concilium : ∀ n txHash arrivedTx, (pool.conciliumTxns n).lookup txHash = some arrivedTx →
    arrivedTx.tx.hash F = txHash ∧ arrivedTx.tx.conciliumId = n
  localTxns : ∀ txHash localTx, pool.mapLocalTxns.lookup txHash = some localTx →
    localTx.tx.hash F = txHash

theorem WellFiled.shrinks {pool' : MempoolStore} (hfiled : pool.WellFiled F)
    (h : pool.Shrinks pool') : pool'.WellFiled F where
  concilium n txHash arrivedTx hlookup :=
    hfiled.concilium n txHash arrivedTx (OrderedMap.lookup_of_sublist (h.concilium n) hlookup)
  localTxns txHash localTx hlookup :=
    hfiled.localTxns txHash localTx (OrderedMap.lookup_of_sublist h.localTxns hlookup)

theorem wellFiled_empty : empty.WellFiled F where
  concilium _ _ _ h := by cases h
  localTxns _ _ h := by cases h

/-- A call files what it adds under its hash. -/
theorem WellFiled.step (hfiled : pool.WellFiled F) (op : Op) :
    (pool.step F C op).WellFiled F := by
  cases step_cases F C pool op with
  | shrinks h => exact hfiled.shrinks h
  | @addTx tx now hnew heq =>
      have htrimmed := hfiled.shrinks (shrinks_trimmed C tx pool)
      rw [heq]
      refine ⟨fun n txHash arrivedTx hlookup => ?_, htrimmed.localTxns⟩
      rw [conciliumTxns_file] at hlookup
      split at hlookup
      next hn =>
        rw [OrderedMap.lookup_set] at hlookup
        split at hlookup
        next hhash =>
          cases hlookup
          exact ⟨hhash.symm, hn.symm⟩
        next => exact htrimmed.concilium n txHash arrivedTx hlookup
      next => exact htrimmed.concilium n txHash arrivedTx hlookup
  | addLocalTx tx patchTx =>
      refine ⟨hfiled.concilium, fun txHash localTx hlookup => ?_⟩
      rw [MempoolStore.step, addLocalTx, OrderedMap.lookup_set] at hlookup
      split at hlookup
      next hhash =>
        cases hlookup
        exact hhash.symm
      next => exact hfiled.localTxns txHash localTx hlookup
  | storeBadTxHash strTxHash now => exact ⟨hfiled.concilium, hfiled.localTxns⟩

/-- In every run the transactions are filed well. -/
theorem wellFiled_after (ops : List Op) : (Runs.after (step F C) empty ops).WellFiled F := by
  suffices h : ∀ pool : MempoolStore, pool.WellFiled F →
      (Runs.after (MempoolStore.step F C) pool ops).WellFiled F from h empty wellFiled_empty
  induction ops with
  | nil => exact fun _ h => h
  | cons op rest ih => exact fun pool h => ih _ (h.step op)

/-- What a witness reads of the mempool. -/
def view (pool : MempoolStore) (hfiled : pool.WellFiled F) : Mempool where
  mapConciliumTxns n := (pool.conciliumTxns n).values.map (·.tx)
  mapLocalTxns := pool.mapLocalTxns.values.map (·.tx)
  filed n tx htx := by
    obtain ⟨arrivedTx, harrived, rfl⟩ := List.mem_map.mp htx
    obtain ⟨txHash, hlookup⟩ := OrderedMap.mem_values_iff.mp harrived
    exact (hfiled.concilium n txHash arrivedTx hlookup).2

/-- The transactions that a witness reads are those of the mempool. -/
theorem getFinalTxns_view (hfiled : pool.WellFiled F) (nConciliumId : Nat) :
    (pool.view hfiled).getFinalTxns nConciliumId = pool.getFinalTxns nConciliumId := rfl

/-! ### What is handed out -/

theorem getTx_of_localTxns {txHash : Hash} {localTx : LocalTx}
    (h : pool.mapLocalTxns.lookup txHash = some localTx) : pool.getTx txHash = .ok localTx.tx := by
  have hhas : pool.hasTx txHash := .inl (OrderedMap.mem_of_lookup h)
  rw [getTx, if_neg (not_not_intro hhas), h]

theorem getTx_of_concilium {txHash : Hash} {n : Nat} (hlocal : txHash ∉ pool.mapLocalTxns)
    (h : txHash ∈ pool.conciliumTxns n) :
    ∃ j arrivedTx, (pool.conciliumTxns j).lookup txHash = some arrivedTx ∧
      pool.getTx txHash = .ok arrivedTx.tx := by
  have hsome := isSome_searchMapByHash_iff.mpr ⟨n, h⟩
  obtain ⟨⟨j, mapTxns⟩, hsearch⟩ := Option.isSome_iff_exists.mp hsome
  obtain ⟨hmap, hmem⟩ := OrderedMap.findEntry_eq_some hsearch
  obtain ⟨arrivedTx, hlookup⟩ := OrderedMap.exists_lookup_of_mem (of_decide_eq_true hmem)
  refine ⟨j, arrivedTx, by rw [conciliumTxns_of_lookup hmap, hlookup], ?_⟩
  have hhas : pool.hasTx txHash := .inr (.inr hsome)
  rw [getTx, if_neg (not_not_intro hhas), AList.lookup_eq_none.mpr hlocal]
  simp only [hsearch, hlookup]

/-- Where `getTx` finds no transaction, it throws. -/
theorem getTx_ne_ok {txHash : Hash} (hlocal : txHash ∉ pool.mapLocalTxns)
    (h : ∀ n, txHash ∉ pool.conciliumTxns n) (tx : Transaction) :
    pool.getTx txHash ≠ .ok tx := by
  have hnone : pool.searchMapByHash txHash = none := by
    rw [← Option.not_isSome_iff_eq_none, isSome_searchMapByHash_iff]
    rintro ⟨n, hn⟩
    exact h n hn
  rw [getTx, AList.lookup_eq_none.mpr hlocal, hnone]
  intro hok
  split at hok <;> cases hok

/-- `getTx` returns what was asked for, from a place that holds it. -/
theorem WellFiled.getTx_eq_ok (hfiled : pool.WellFiled F) {txHash : Hash} {tx : Transaction}
    (h : pool.getTx txHash = .ok tx) :
    tx.hash F = txHash ∧ ∃ store, pool.Holds store txHash := by
  by_cases hlocal : txHash ∈ pool.mapLocalTxns
  · obtain ⟨localTx, hlookup⟩ := OrderedMap.exists_lookup_of_mem hlocal
    rw [getTx_of_localTxns hlookup] at h
    cases h
    exact ⟨hfiled.localTxns txHash localTx hlookup, .localTxns, hlocal⟩
  · by_cases hconcilium : ∃ n, txHash ∈ pool.conciliumTxns n
    · obtain ⟨n, hn⟩ := hconcilium
      obtain ⟨j, arrivedTx, hlookup, hget⟩ := getTx_of_concilium hlocal hn
      rw [hget] at h
      cases h
      exact ⟨(hfiled.concilium j txHash arrivedTx hlookup).1, .concilium j,
        OrderedMap.mem_of_lookup hlookup⟩
    · exact absurd h (getTx_ne_ok hlocal (not_exists.mp hconcilium) tx)

theorem WellFiled.map_hash_concilium (hfiled : pool.WellFiled F) (n : Nat) :
    ((pool.conciliumTxns n).values.map (·.tx)).map (Transaction.hash F) =
      (pool.conciliumTxns n).keys := by
  rw [List.map_map]
  exact OrderedMap.map_values_eq_keys fun txHash arrivedTx hlookup =>
    (hfiled.concilium n txHash arrivedTx hlookup).1

theorem WellFiled.map_hash_localTxns (hfiled : pool.WellFiled F) :
    (pool.mapLocalTxns.values.map (·.tx)).map (Transaction.hash F) = pool.mapLocalTxns.keys := by
  rw [List.map_map]
  exact OrderedMap.map_values_eq_keys hfiled.localTxns

/-- A transaction with the hash is returned by `getTx` or `getFinalTxns`. -/
def Returns (F : Factory) (pool : MempoolStore) (txHash : Hash) : Prop :=
  (∃ asked tx, pool.getTx asked = .ok tx ∧ tx.hash F = txHash) ∨
    ∃ nConciliumId, ∃ tx ∈ pool.getFinalTxns nConciliumId, tx.hash F = txHash

/-- What is returned is held. -/
theorem WellFiled.holds_of_returns (hfiled : pool.WellFiled F) {txHash : Hash}
    (h : pool.Returns F txHash) : ∃ store, pool.Holds store txHash := by
  rcases h with ⟨asked, tx, hget, rfl⟩ | ⟨n, tx, htx, rfl⟩
  · obtain ⟨hhash, hholds⟩ := hfiled.getTx_eq_ok hget
    rwa [hhash]
  · rcases List.mem_append.mp htx with htx | htx
    · have hmem := List.mem_map_of_mem (f := Transaction.hash F) htx
      rw [hfiled.map_hash_concilium] at hmem
      exact ⟨.concilium n, hmem⟩
    · have hmem := List.mem_map_of_mem (f := Transaction.hash F) (List.mem_of_mem_filter htx)
      rw [hfiled.map_hash_localTxns] at hmem
      exact ⟨.localTxns, hmem⟩

/-! ### One place -/

/-- No hash is kept in two places. -/
def OnePlace (pool : MempoolStore) : Prop :=
  ∀ txHash store store', pool.Holds store txHash → pool.Holds store' txHash → store = store'

/-- No two transactions with one hash are handed out for a block. -/
def FinalDistinct (F : Factory) (pool : MempoolStore) : Prop :=
  ∀ nConciliumId, ((pool.getFinalTxns nConciliumId).map (Transaction.hash F)).Nodup

/-- What the mempool has can be got. -/
def GetsWhatItHas (F : Factory) (pool : MempoolStore) : Prop :=
  ∀ txHash, pool.hasTx txHash → ∃ tx, pool.getTx txHash = .ok tx ∧ tx.hash F = txHash

/-- The state of a mempool in which every transaction has one place. -/
def Consistent (F : Factory) (pool : MempoolStore) : Prop :=
  pool.OnePlace ∧ pool.FinalDistinct F ∧ pool.GetsWhatItHas F

/-- The transactions are filed well in one place each, and none is bad. -/
structure Apart (F : Factory) (pool : MempoolStore) : Prop where
  filed : pool.WellFiled F
  onePlace : pool.OnePlace
  noBad : ∀ txHash, ¬ pool.Holds .badTxns txHash

theorem apart_empty : empty.Apart F where
  filed := wellFiled_empty
  onePlace txHash store _ h := by cases store <;> cases h
  noBad _ h := by cases h

theorem Apart.shrinks {pool' : MempoolStore} (h : pool.Apart F) (hshrinks : pool.Shrinks pool') :
    pool'.Apart F where
  filed := h.filed.shrinks hshrinks
  onePlace txHash store store' hholds hholds' :=
    h.onePlace txHash store store' (hshrinks.holds hholds) (hshrinks.holds hholds')
  noBad txHash hholds := h.noBad txHash (hshrinks.holds hholds)

theorem Apart.finalDistinct (h : pool.Apart F) : pool.FinalDistinct F := by
  intro n
  rw [getFinalTxns, List.map_append, h.filed.map_hash_concilium, List.nodup_append]
  have hlocal : List.Sublist (((pool.mapLocalTxns.values.map (·.tx)).filter
      fun tx => decide (tx.conciliumId = n)).map (Transaction.hash F)) pool.mapLocalTxns.keys := by
    rw [← h.filed.map_hash_localTxns]
    exact List.filter_sublist.map _
  refine ⟨AList.keys_nodup _, (AList.keys_nodup _).sublist hlocal, ?_⟩
  rintro txHash hconcilium _ hmem rfl
  have hplace := h.onePlace txHash (.concilium n) .localTxns hconcilium (hlocal.subset hmem)
  cases hplace

theorem Apart.getsWhatItHas (h : pool.Apart F) : pool.GetsWhatItHas F := by
  intro txHash hhas
  obtain ⟨store, hholds⟩ := hasTx_iff.mp hhas
  cases store with
  | concilium n =>
      have hlocal : txHash ∉ pool.mapLocalTxns := by
        intro hlocal
        have hplace := h.onePlace txHash (.concilium n) .localTxns hholds hlocal
        cases hplace
      obtain ⟨j, arrivedTx, hlookup, hget⟩ := getTx_of_concilium hlocal hholds
      exact ⟨arrivedTx.tx, hget, (h.filed.concilium j txHash arrivedTx hlookup).1⟩
  | localTxns =>
      obtain ⟨localTx, hlookup⟩ := OrderedMap.exists_lookup_of_mem hholds
      exact ⟨localTx.tx, getTx_of_localTxns hlookup, h.filed.localTxns txHash localTx hlookup⟩
  | badTxns => exact absurd hholds (h.noBad txHash)

theorem Apart.consistent (h : pool.Apart F) : pool.Consistent F :=
  ⟨h.onePlace, h.finalDistinct, h.getsWhatItHas⟩

/-! ### A call -/

/-- A call files a transaction with the hash, if it files one. -/
def Op.Adds (F : Factory) : Op → Hash → Prop
  | .addTx tx _, txHash => tx.hash F = txHash
  | .addLocalTx tx _, txHash => tx.hash F = txHash
  | _, _ => False

theorem holds_file {tx : Transaction} {now : Nat} {store : Store} {txHash : Hash}
    (h : (pool.file F tx now).Holds store txHash) :
    pool.Holds store txHash ∨ store = .concilium tx.conciliumId ∧ txHash = tx.hash F := by
  cases store with
  | concilium n =>
      rw [Holds, conciliumTxns_file] at h
      split at h
      next hn =>
        rcases OrderedMap.mem_set.mp h with hhash | hmem
        · exact .inr ⟨congrArg _ hn, hhash⟩
        · exact .inl hmem
      next => exact .inl h
  | localTxns => exact .inl h
  | badTxns => exact .inl h

theorem holds_addLocalTx {tx : Transaction} {patchTx : Option PatchDB} {store : Store}
    {txHash : Hash} (h : (pool.addLocalTx F tx patchTx).Holds store txHash) :
    pool.Holds store txHash ∨ store = .localTxns ∧ txHash = tx.hash F := by
  cases store with
  | concilium n => exact .inl h
  | localTxns =>
      rcases OrderedMap.mem_set.mp h with hhash | hmem
      · exact .inr ⟨rfl, hhash⟩
      · exact .inl hmem
  | badTxns => exact .inl h

/-- A hash comes into a place when it has none. -/
theorem OnePlace.of_added {pool' : MempoolStore} (hone : pool.OnePlace) (place : Store)
    (added : Hash) (hnew : ∀ store, pool.Holds store added → store = place)
    (h : ∀ store txHash, pool'.Holds store txHash →
      pool.Holds store txHash ∨ store = place ∧ txHash = added) : pool'.OnePlace := by
  intro txHash store store' hholds hholds'
  rcases h store txHash hholds with hold | ⟨rfl, rfl⟩
  · rcases h store' txHash hholds' with hold' | ⟨rfl, rfl⟩
    · exact hone txHash store store' hold hold'
    · exact hnew store hold
  · rcases h store' _ hholds' with hold' | ⟨rfl, _⟩
    · exact (hnew store' hold').symm
    · rfl

/-- A call keeps hashes in one place: nothing is recorded as bad, and a transaction
that is in the map of a concilium is not added as a local one. -/
def KeepsApart (F : Factory) (pool : MempoolStore) : Op → Prop
  | .addLocalTx tx _ => ∀ n, tx.hash F ∉ pool.conciliumTxns n
  | .storeBadTxHash _ _ => False
  | _ => True

theorem Apart.step (h : pool.Apart F) {op : Op} (hop : pool.KeepsApart F op) :
    (pool.step F C op).Apart F := by
  cases step_cases F C pool op with
  | shrinks hshrinks => exact h.shrinks hshrinks
  | @addTx tx now hnew heq =>
      have htrimmed := h.shrinks (shrinks_trimmed C tx pool)
      refine ⟨h.filed.step _, ?_, fun txHash hholds => ?_⟩
      · rw [heq]
        apply htrimmed.onePlace.of_added (.concilium tx.conciliumId) (tx.hash F)
        · exact fun store hholds => absurd (hasTx_iff.mpr ⟨store, hholds⟩) hnew
        · exact fun store txHash hholds => holds_file hholds
      · rw [heq] at hholds
        rcases holds_file hholds with hold | ⟨hstore, _⟩
        · exact htrimmed.noBad txHash hold
        · cases hstore
  | addLocalTx tx patchTx =>
      refine ⟨h.filed.step _, ?_, h.noBad⟩
      apply h.onePlace.of_added .localTxns (tx.hash F)
      · intro store hholds
        cases store with
        | concilium n => exact absurd hholds (hop n)
        | localTxns => rfl
        | badTxns => exact absurd hholds (h.noBad _)
      · exact fun store txHash hholds => holds_addLocalTx hholds
  | storeBadTxHash strTxHash now => exact hop.elim

/-- The condition is exact: a call that does not meet it leaves a mempool in which
some hash has two places, or cannot be got. -/
theorem Apart.consistent_step_iff (h : pool.Apart F) (op : Op) :
    (pool.step F C op).Consistent F ↔ pool.KeepsApart F op := by
  refine ⟨fun hconsistent => ?_, fun hop => (h.step hop).consistent⟩
  obtain ⟨hone, _, hgets⟩ := hconsistent
  cases op with
  | addLocalTx tx patchTx =>
      intro n hmem
      have hlocal : tx.hash F ∈ (pool.addLocalTx F tx patchTx).mapLocalTxns :=
        OrderedMap.mem_set.mpr (.inl rfl)
      have hplace := hone (tx.hash F) (.concilium n) .localTxns hmem hlocal
      cases hplace
  | storeBadTxHash strTxHash now =>
      have hbad : (pool.storeBadTxHash strTxHash now).Holds .badTxns strTxHash :=
        OrderedMap.mem_set.mpr (.inl rfl)
      obtain ⟨tx, hget, _⟩ := hgets strTxHash (hasTx_iff.mpr ⟨.badTxns, hbad⟩)
      refine getTx_ne_ok (fun hlocal => ?_) (fun n hmem => ?_) tx hget
      · have hplace := hone strTxHash .localTxns .badTxns hlocal hbad
        cases hplace
      · have hplace := hone strTxHash (.concilium n) .badTxns hmem hbad
        cases hplace
  | addTx tx now => trivial
  | removeTxns arrTxHashes => trivial
  | removeForBlock arrTxHashes => trivial
  | purgeOutdated now => trivial
  | setPreferredConciliums arrIds => trivial
  | getFinalTxns nConciliumId => trivial

/-! ### Removal -/

/-- Of a hash that has one place, removal leaves nothing. -/
theorem Apart.not_holds_removeTx (h : pool.Apart F) (txHash : Hash) (store : Store) :
    ¬ (pool.removeTx txHash).Holds store txHash := by
  intro hholds
  have hold := (shrinks_removeTx pool txHash).holds hholds
  rw [removeTx] at hholds
  split at hholds
  next hlocal =>
    obtain rfl := h.onePlace txHash store .localTxns hold hlocal
    exact (AList.mem_erase.mp hholds).1 rfl
  next hlocal =>
    cases store with
    | localTxns => exact hlocal hold
    | badTxns => exact h.noBad txHash hold
    | concilium n =>
        have hsome := isSome_searchMapByHash_iff.mpr ⟨n, hold⟩
        obtain ⟨⟨j, mapWithTx⟩, hsearch⟩ := Option.isSome_iff_exists.mp hsome
        obtain ⟨hmap, hmem⟩ := OrderedMap.findEntry_eq_some hsearch
        have hj : pool.Holds (.concilium j) txHash := by
          rw [Holds, conciliumTxns_of_lookup hmap]
          exact of_decide_eq_true hmem
        have hplace := h.onePlace txHash (.concilium n) (.concilium j) hold hj
        cases hplace
        simp only [hsearch, Holds] at hholds
        rw [conciliumTxns_set, if_pos rfl] at hholds
        exact (AList.mem_erase.mp hholds).1 rfl

theorem Apart.not_holds_removeTxns {arrTxHashes : List Hash} {txHash : Hash}
    (hmem : txHash ∈ arrTxHashes) (h : pool.Apart F) (store : Store) :
    ¬ (pool.removeTxns arrTxHashes).Holds store txHash := by
  induction arrTxHashes generalizing pool with
  | nil => cases hmem
  | cons first rest ih =>
      have hrest := h.shrinks (shrinks_removeTx pool first)
      rcases List.mem_cons.mp hmem with rfl | hmem
      · intro hholds
        exact h.not_holds_removeTx txHash store
          ((shrinks_removeTxns rest (pool.removeTx txHash)).holds hholds)
      · exact ih hmem hrest

/-- A hash that has no place gets one only by a call that adds it. -/
theorem not_holds_step {txHash : Hash} (h : ∀ store, ¬ pool.Holds store txHash) {op : Op}
    (hop : pool.KeepsApart F op) (hadds : ¬ op.Adds F txHash) (store : Store) :
    ¬ (pool.step F C op).Holds store txHash := by
  intro hholds
  cases step_cases F C pool op with
  | shrinks hshrinks => exact h store (hshrinks.holds hholds)
  | @addTx tx now hnew heq =>
      rw [heq] at hholds
      rcases holds_file hholds with hold | ⟨_, hhash⟩
      · exact h store ((shrinks_trimmed C tx pool).holds hold)
      · exact hadds hhash.symm
  | addLocalTx tx patchTx =>
      rcases holds_addLocalTx hholds with hold | ⟨_, hhash⟩
      · exact h store hold
      · exact hadds hhash.symm
  | storeBadTxHash strTxHash now => exact hop

theorem not_holds_after {txHash : Hash} (h : ∀ store, ¬ pool.Holds store txHash) {ops : List Op}
    (hops : Runs.EveryStep (step F C) (KeepsApart F) pool ops)
    (hadds : ∀ op ∈ ops, ¬ op.Adds F txHash) (store : Store) :
    ¬ (Runs.after (step F C) pool ops).Holds store txHash := by
  induction ops generalizing pool with
  | nil => exact h store
  | cons op rest ih =>
      exact ih (not_holds_step h hops.1 (hadds op List.mem_cons_self)) hops.2
        fun other hother => hadds other (List.mem_cons_of_mem _ hother)

/-! ### Runs -/

/-- What a block removes is not returned until it is added again. -/
def RemovalsLast (F : Factory) (C : MempoolConstants) (ops : List Op) : Prop :=
  ∀ before arrTxHashes mid later,
    ops = before ++ .removeForBlock arrTxHashes :: (mid ++ later) →
    ∀ txHash ∈ arrTxHashes, (∀ op ∈ mid, ¬ op.Adds F txHash) →
      ¬ (Runs.after (step F C) empty (before ++ .removeForBlock arrTxHashes :: mid)).Returns F
        txHash

/-- After every call of a run each transaction has one place, and removals last. -/
def HoldsInOnePlace (F : Factory) (C : MempoolConstants) (ops : List Op) : Prop :=
  Runs.EveryStep (step F C) (fun pool op => (pool.step F C op).Consistent F) empty ops ∧
    RemovalsLast F C ops

theorem removalsLast {ops : List Op}
    (h : Runs.EveryStep (step F C) (KeepsApart F) empty ops) : RemovalsLast F C ops := by
  rintro before arrTxHashes mid later rfl txHash hmem hadds hreturns
  obtain ⟨hbefore, _, hrest⟩ := Runs.everyStep_append.mp h
  have hmid := (Runs.everyStep_append.mp hrest).1
  have hapart := hbefore.invariant (fun _ _ hapart hop => Apart.step hapart hop) apart_empty
  have hnone := not_holds_after (hapart.not_holds_removeTxns hmem) hmid hadds
  obtain ⟨store, hholds⟩ := (wellFiled_after _).holds_of_returns hreturns
  rw [Runs.after, List.foldl_append] at hholds
  exact hnone store hholds

/-- The transactions of a run have one place each exactly if every call keeps them apart. -/
theorem holdsInOnePlace_iff (F : Factory) (C : MempoolConstants) (ops : List Op) :
    HoldsInOnePlace F C ops ↔ Runs.EveryStep (step F C) (KeepsApart F) empty ops := by
  have hiff : Runs.EveryStep (step F C) (KeepsApart F) empty ops ↔
      Runs.EveryStep (step F C) (fun pool op => (pool.step F C op).Consistent F) empty ops := by
    apply Runs.everyStep_congr (I := Apart F)
    · exact fun pool op hapart hop => hapart.step hop
    · exact fun pool op hapart => (hapart.consistent_step_iff op).symm
    · exact apart_empty
  rw [HoldsInOnePlace, ← hiff]
  exact and_iff_left_of_imp removalsLast

/-- A transaction that was received from a peer is then added as a local one. -/
def doubledOps : List Op := [.addTx (sampleTx 1 5) 0, .addLocalTx (sampleTx 1 5) none]

/-- A doubled transaction, and a hash that is recorded as bad. -/
theorem not_holdsInOnePlace :
    ¬ HoldsInOnePlace Factory.sample {} doubledOps ∧
      ¬ HoldsInOnePlace Factory.sample {} [.storeBadTxHash 5 0] := by
  constructor
  · intro h
    exact absurd (h.1.2.1.2.1 1) (by decide +kernel)
  · intro h
    obtain ⟨tx, hget, _⟩ := h.1.1.2.2 5 (by decide +kernel)
    cases hget

end MempoolStore

end CilCore
