import CilCore.Storage.StorageWithCache

/-!
# Coherence of the contract cache

When reading through the cache shows what the database holds. Every entry of the cache
has to agree with the database for each address that leads to its key; reading agrees
with that from the start, and each operation keeps it exactly under its own condition.
-/

namespace CilCore.StorageWithCache

variable {F : Factory} {s s' : StorageWithCache}

/-- Reading a contract through the cache shows what the database holds. -/
def Coherent (F : Factory) (s : StorageWithCache) : Prop :=
  ∀ form address, s.cachedView F form address = s.db.view F address ∧
    s.cachedRawView F form address = s.db.view F address

/-- The entries of the cache show what the database holds, for all addresses that lead
to them. -/
structure EntriesAgree (F : Factory) (s : StorageWithCache) : Prop where
  object : ∀ form address ref, s.object.lookup (cacheKey form address) = some ref →
    Heap.view F s.heap ref = s.db.view F address
  raw : ∀ form address stored, s.raw.lookup (cacheKey form address) = some stored →
    some (stored.1.view F stored.2) = s.db.view F address

theorem cachedView_of_lookup {form : AddressForm} {address : Address} {ref : Ref}
    (h : s.object.lookup (cacheKey form address) = some ref) :
    s.cachedView F form address = Heap.view F s.heap ref := by
  simp [cachedView, getContract, h]

theorem cachedView_of_miss {form : AddressForm} {address : Address}
    (h : s.object.lookup (cacheKey form address) = none) :
    s.cachedView F form address = s.db.view F address := by
  unfold cachedView getContract ContractDb.view
  cases hstored : s.db.getRaw address with
  | none => simp [h]
  | some stored =>
      simp only [h, Option.map_some]
      split <;> exact Heap.view_append_self F s.heap stored.1 stored.2

theorem cachedRawView_of_lookup {form : AddressForm} {address : Address}
    {stored : Contract × ContractCode}
    (h : s.raw.lookup (cacheKey form address) = some stored) :
    s.cachedRawView F form address = some (stored.1.view F stored.2) := by
  simp [cachedRawView, getContractRaw, h]

theorem cachedRawView_of_miss {form : AddressForm} {address : Address}
    (h : s.raw.lookup (cacheKey form address) = none) :
    s.cachedRawView F form address = s.db.view F address := by
  unfold cachedRawView getContractRaw ContractDb.view
  cases hstored : s.db.getRaw address with
  | none => simp [h]
  | some stored =>
      simp only [h, Option.map_some]
      split <;> rfl

theorem coherent_iff_entriesAgree : Coherent F s ↔ EntriesAgree F s := by
  constructor
  · intro h
    refine ⟨fun form address ref href => ?_, fun form address stored hstored => ?_⟩
    · rw [← (h form address).1, cachedView_of_lookup href]
    · rw [← (h form address).2, cachedRawView_of_lookup hstored]
  · intro h form address
    constructor
    · cases href : s.object.lookup (cacheKey form address) with
      | none => exact cachedView_of_miss href
      | some ref => rw [cachedView_of_lookup href, h.object form address ref href]
    · cases hstored : s.raw.lookup (cacheKey form address) with
      | none => exact cachedRawView_of_miss hstored
      | some stored => rw [cachedRawView_of_lookup hstored, h.raw form address stored hstored]

/-! ### Operations -/

/-- What happens to a storage: contracts are read, patches are applied, and executions
change the objects that were handed out, whatever becomes of their blocks. -/
inductive Op where
  | getContract (form : AddressForm) (address : Address)
  | getContractRaw (form : AddressForm) (address : Address)
  | applyPatch (statePatch : PatchDB) (codes : FinMap Address ContractCode) (nHeightMax : Nat)
  | execute (ref : Ref) (live : LiveContract)

/-- One operation. An object can only proxy one that exists. -/
def step (F : Factory) (s : StorageWithCache) : Op → StorageWithCache
  | .getContract form address => (s.getContract F form address).2
  | .getContractRaw form address => (s.getContractRaw F form address).2
  | .applyPatch statePatch codes nHeightMax => s.applyPatch F statePatch codes nHeightMax
  | .execute ref live =>
      if ∀ proxied ∈ live.proxiedContract, proxied < s.heap.length then
        { s with heap := s.heap.set ref live }
      else s

/-- The contract of an address is read for the first time and is large enough to be kept. -/
def Keeps (F : Factory) (s : StorageWithCache) (cached : Bool) (address : Address) : Prop :=
  cached = false ∧ ∃ stored, s.db.getRaw address = some stored ∧
    CONTRACT_MIN_CASHING_SIZE < stored.1.getDataSize F

/-- All addresses that lead to the key of an address have the same contract. -/
def KeyUnambiguous (F : Factory) (s : StorageWithCache) (form : AddressForm)
    (address : Address) : Prop :=
  ∀ form' address', cacheKey form' address' = cacheKey form address →
    s.db.view F address' = s.db.view F address

/-- When an operation keeps the cache coherent: a contract is kept only under a key that
no address with another contract leads to; a patch changes no contract that is kept; an
execution changes nothing that can be seen of an object that is kept. -/
def KeepsCoherent (F : Factory) (s : StorageWithCache) : Op → Prop
  | .getContract form address =>
      Keeps F s (s.object.lookup (cacheKey form address)).isSome address →
        KeyUnambiguous F s form address
  | .getContractRaw form address =>
      Keeps F s (s.raw.lookup (cacheKey form address)).isSome address →
        KeyUnambiguous F s form address
  | .applyPatch statePatch codes nHeightMax => ∀ form address,
      (s.object.lookup (cacheKey form address)).isSome ∨
        (s.raw.lookup (cacheKey form address)).isSome →
      (s.applyPatch F statePatch codes nHeightMax).db.view F address = s.db.view F address
  | .execute ref live => ∀ form address kept,
      s.object.lookup (cacheKey form address) = some kept →
        Heap.view F (s.step F (.execute ref live)).heap kept = Heap.view F s.heap kept

/-- Kept references lead to objects. -/
structure InRange (s : StorageWithCache) : Prop where
  closed : s.heap.Closed
  object : ∀ key ref, s.object.lookup key = some ref → ref < s.heap.length

theorem closed_append {heap : Heap} (hheap : heap.Closed) (contract : Contract)
    (code : ContractCode) : Heap.Closed (heap ++ [⟨contract, code, none⟩]) := by
  intro live hlive proxied hproxied
  rw [List.length_append]
  rcases List.mem_append.mp hlive with hold | hnew
  · exact Nat.lt_add_right _ (hheap live hold proxied hproxied)
  · rw [List.mem_singleton.mp hnew] at hproxied
    cases hproxied

/-- What reading a contract does: nothing, or a new object is made, which is kept if it is
large. -/
theorem getContract_cases (F : Factory) (s : StorageWithCache) (form : AddressForm)
    (address : Address) :
    (s.getContract F form address).2 = s ∨
    ∃ stored, s.db.getRaw address = some stored ∧
      s.object.lookup (cacheKey form address) = none ∧
      (s.getContract F form address).2 =
        { s with
          heap := s.heap ++ [⟨stored.1, stored.2, none⟩]
          object := if CONTRACT_MIN_CASHING_SIZE < stored.1.getDataSize F then
            s.object.insert (cacheKey form address) s.heap.length else s.object } := by
  unfold getContract
  split
  next => exact .inl rfl
  next hmiss =>
    split
    next => exact .inl rfl
    next stored hstored =>
      refine .inr ⟨stored, hstored, hmiss, ?_⟩
      by_cases hsize : stored.1.getDataSize F ≤ CONTRACT_MIN_CASHING_SIZE
      · simp only [if_pos hsize, if_neg (not_lt.mpr hsize)]
      · simp only [if_neg hsize, if_pos (not_le.mp hsize)]

/-- What reading an encoded contract does: nothing, or a large one is kept. -/
theorem getContractRaw_cases (F : Factory) (s : StorageWithCache) (form : AddressForm)
    (address : Address) :
    (s.getContractRaw F form address).2 = s ∧
        ¬ Keeps F s (s.raw.lookup (cacheKey form address)).isSome address ∨
    ∃ stored, s.db.getRaw address = some stored ∧
      Keeps F s (s.raw.lookup (cacheKey form address)).isSome address ∧
      (s.getContractRaw F form address).2 =
        { s with raw := s.raw.insert (cacheKey form address) stored } := by
  unfold getContractRaw Keeps
  split
  next stored hhit => exact .inl ⟨rfl, by simp [hhit]⟩
  next hmiss =>
    split
    next hnone => exact .inl ⟨rfl, by simp [hnone]⟩
    next stored hstored =>
      split
      next hsize =>
        refine .inl ⟨rfl, ?_⟩
        rintro ⟨-, stored', hstored', hlt⟩
        rw [hstored] at hstored'
        injection hstored' with hsame
        exact absurd (hsame ▸ hlt) (not_lt.mpr hsize)
      next hsize =>
        exact .inr ⟨stored, hstored, ⟨by simp [hmiss], stored, hstored, not_le.mp hsize⟩, rfl⟩

theorem InRange.step (h : InRange s) (op : Op) : InRange (s.step F op) := by
  cases op with
  | getContract form address =>
      rcases getContract_cases F s form address with hsame | ⟨stored, -, -, hnew⟩
      · rw [StorageWithCache.step, hsame]
        exact h
      · rw [StorageWithCache.step, hnew]
        refine ⟨closed_append h.closed stored.1 stored.2, fun key ref href => ?_⟩
        dsimp only at href ⊢
        rw [List.length_append]
        split at href
        next =>
          rw [FinMap.lookup_insert_ite] at href
          split at href
          next =>
            injection href with href
            rw [← href]
            exact Nat.lt_succ_self _
          next => exact Nat.lt_add_right _ (h.object key ref href)
        next => exact Nat.lt_add_right _ (h.object key ref href)
  | getContractRaw form address =>
      rcases getContractRaw_cases F s form address with ⟨hsame, -⟩ | ⟨stored, -, -, hnew⟩
      · rw [StorageWithCache.step, hsame]
        exact h
      · rw [StorageWithCache.step, hnew]
        exact ⟨h.closed, h.object⟩
  | applyPatch statePatch codes nHeightMax => exact ⟨h.closed, h.object⟩
  | execute ref live =>
      rw [StorageWithCache.step]
      split
      next hlive =>
        refine ⟨fun other hother proxied hproxied => ?_, fun key kept hkept => ?_⟩
        · rw [List.length_set]
          rcases List.mem_or_eq_of_mem_set hother with hold | rfl
          · exact h.closed other hold proxied hproxied
          · exact hlive proxied hproxied
        · rw [List.length_set]
          exact h.object key kept hkept
      next => exact h

/-! ### Each operation -/

section Step

variable (hrange : InRange s) (hagree : EntriesAgree F s)
include hagree

theorem entriesAgree_getContract_iff (hrange : InRange s) (form : AddressForm) (address : Address) :
    EntriesAgree F (s.step F (.getContract form address)) ↔
      KeepsCoherent F s (.getContract form address) := by
  rcases getContract_cases F s form address with hsame | ⟨stored, hstored, hmiss, hnew⟩
  · -- nothing was kept
    rw [StorageWithCache.step, hsame]
    refine iff_of_true hagree fun hkeeps => ?_
    obtain ⟨hcached, stored, hstored, hsize⟩ := hkeeps
    have hmiss : s.object.lookup (cacheKey form address) = none := by simpa using hcached
    have hlength := congrArg (fun s : StorageWithCache => s.heap.length) hsame
    simp [getContract, hmiss, hstored, not_le.mpr hsize] at hlength
  · have hdb : (s.step F (.getContract form address)).db = s.db := by
      rw [StorageWithCache.step, hnew]
    have hview : s.db.view F address = some (stored.1.view F stored.2) := by
      rw [ContractDb.view, hstored, Option.map_some]
    have hold {kept : Ref} (hkept : kept < s.heap.length) :
        Heap.view F (s.heap ++ [⟨stored.1, stored.2, none⟩]) kept = Heap.view F s.heap kept :=
      Heap.view_append hrange.closed F _ hkept
    rw [StorageWithCache.step, hnew]
    constructor
    · rintro hagree' ⟨-, stored', hstored', hsize⟩ form' address' hkey
      rw [hstored] at hstored'
      injection hstored' with hsame
      subst hsame
      have hentry := hagree'.object form' address' s.heap.length (by
        simp only [if_pos hsize]
        rw [hkey, FinMap.lookup_insert_ite, if_pos rfl])
      rw [hview, ← hentry]
      exact Heap.view_append_self F s.heap stored.1 stored.2
    · intro hkeeps
      refine ⟨fun form' address' ref href => ?_, hagree.raw⟩
      dsimp only at href ⊢
      split at href
      next hsize =>
        rw [FinMap.lookup_insert_ite] at href
        split at href
        next hkey =>
          injection href with href
          rw [← href, Heap.view_append_self, ← hview]
          exact (hkeeps ⟨by simp [hmiss], stored, hstored, hsize⟩ form' address' hkey).symm
        next =>
          rw [hold (hrange.object _ _ href)]
          exact hagree.object form' address' ref href
      next =>
        rw [hold (hrange.object _ _ href)]
        exact hagree.object form' address' ref href

theorem entriesAgree_getContractRaw_iff (form : AddressForm) (address : Address) :
    EntriesAgree F (s.step F (.getContractRaw form address)) ↔
      KeepsCoherent F s (.getContractRaw form address) := by
  rcases getContractRaw_cases F s form address with ⟨hsame, hnot⟩ | ⟨stored, hstored, hkeeps, hnew⟩
  · rw [StorageWithCache.step, hsame]
    exact iff_of_true hagree fun hkeeps => absurd hkeeps hnot
  · have hview : s.db.view F address = some (stored.1.view F stored.2) := by
      rw [ContractDb.view, hstored, Option.map_some]
    rw [StorageWithCache.step, hnew]
    constructor
    · intro hagree' _ form' address' hkey
      have hentry := hagree'.raw form' address' stored (by
        dsimp only
        rw [hkey, FinMap.lookup_insert_ite, if_pos rfl])
      rw [hview, ← hentry]
    · intro hunambiguous
      refine ⟨hagree.object, fun form' address' stored' hstored' => ?_⟩
      dsimp only at hstored' ⊢
      rw [FinMap.lookup_insert_ite] at hstored'
      split at hstored'
      next hkey =>
        injection hstored' with hsame
        rw [← hsame, ← hview]
        exact (hunambiguous hkeeps form' address' hkey).symm
      next => exact hagree.raw form' address' stored' hstored'

theorem entriesAgree_applyPatch_iff (statePatch : PatchDB) (codes : FinMap Address ContractCode)
    (nHeightMax : Nat) :
    EntriesAgree F (s.step F (.applyPatch statePatch codes nHeightMax)) ↔
      KeepsCoherent F s (.applyPatch statePatch codes nHeightMax) := by
  constructor
  · intro hagree' form address hkept
    rcases hkept with hkept | hkept
    · obtain ⟨ref, href⟩ := Option.isSome_iff_exists.mp hkept
      rw [← hagree.object form address ref href]
      exact (hagree'.object form address ref href).symm
    · obtain ⟨stored, hstored⟩ := Option.isSome_iff_exists.mp hkept
      rw [← hagree.raw form address stored hstored]
      exact (hagree'.raw form address stored hstored).symm
  · intro hkeeps
    refine ⟨fun form address ref href => ?_, fun form address stored hstored => ?_⟩
    · exact (hagree.object form address ref href).trans
        (hkeeps form address (.inl (Option.isSome_iff_exists.mpr ⟨ref, href⟩))).symm
    · exact (hagree.raw form address stored hstored).trans
        (hkeeps form address (.inr (Option.isSome_iff_exists.mpr ⟨stored, hstored⟩))).symm

theorem entriesAgree_execute_iff (ref : Ref) (live : LiveContract) :
    EntriesAgree F (s.step F (.execute ref live)) ↔ KeepsCoherent F s (.execute ref live) := by
  have hrest : (s.step F (.execute ref live)).object = s.object ∧
      (s.step F (.execute ref live)).raw = s.raw ∧ (s.step F (.execute ref live)).db = s.db := by
    rw [StorageWithCache.step]
    split <;> exact ⟨rfl, rfl, rfl⟩
  constructor
  · intro hagree' form address kept hkept
    rw [hagree.object form address kept hkept,
      hagree'.object form address kept (by rw [hrest.1, hkept]), hrest.2.2]
  · intro hkeeps
    refine ⟨fun form address kept hkept => ?_, fun form address stored hstored => ?_⟩
    · rw [hrest.1] at hkept
      rw [hkeeps form address kept hkept, hagree.object form address kept hkept, hrest.2.2]
    · rw [hrest.2.1] at hstored
      rw [hrest.2.2]
      exact hagree.raw form address stored hstored

end Step

/-- The states that a storage goes through, from an empty cache over some database, by
operations that each meet their condition. -/
inductive RunWhile (F : Factory) (condition : StorageWithCache → Op → Prop) :
    StorageWithCache → Prop
  | new (db : ContractDb) : RunWhile F condition (new db)
  | step {s : StorageWithCache} (op : Op) (hrun : RunWhile F condition s)
      (hcondition : condition s op) : RunWhile F condition (s.step F op)

theorem inRange_of_run {condition : StorageWithCache → Op → Prop} (h : RunWhile F condition s) :
    InRange s := by
  induction h with
  | new db =>
      refine ⟨fun live hlive => absurd hlive List.not_mem_nil, fun key ref href => ?_⟩
      rw [new, Finmap.lookup_empty] at href
      cases href
  | step op _ _ ih => exact ih.step op

theorem coherent_step_iff (hrange : InRange s) (hcoherent : Coherent F s) (op : Op) :
    Coherent F (s.step F op) ↔ KeepsCoherent F s op := by
  rw [coherent_iff_entriesAgree] at hcoherent ⊢
  cases op with
  | getContract form address => exact entriesAgree_getContract_iff hcoherent hrange form address
  | getContractRaw form address => exact entriesAgree_getContractRaw_iff hcoherent form address
  | applyPatch statePatch codes nHeightMax =>
      exact entriesAgree_applyPatch_iff hcoherent statePatch codes nHeightMax
  | execute ref live => exact entriesAgree_execute_iff hcoherent ref live

theorem coherent_of_run (h : RunWhile F (KeepsCoherent F) s) : Coherent F s := by
  induction h with
  | new db =>
      rw [coherent_iff_entriesAgree]
      refine ⟨fun form address ref href => ?_, fun form address stored hstored => ?_⟩
      · rw [new, Finmap.lookup_empty] at href
        cases href
      · rw [new, Finmap.lookup_empty] at hstored
        cases hstored
  | step op hrun hcondition ih =>
      exact (coherent_step_iff (inRange_of_run hrun) ih op).mpr hcondition

/-- A large contract that is read for the first time is kept under its key. -/
theorem lookup_getContract_of_large {form : AddressForm} {address : Address}
    {stored : Contract × ContractCode} (hmiss : s.object.lookup (cacheKey form address) = none)
    (hraw : s.db.getRaw address = some stored)
    (hlarge : CONTRACT_MIN_CASHING_SIZE < stored.1.getDataSize F) :
    (s.getContract F form address).2.object.lookup (cacheKey form address) =
      some s.heap.length := by
  simp only [getContract, hmiss, hraw, if_neg (not_le.mpr hlarge)]
  exact Finmap.lookup_insert _

/-! ### A patch behind the cache -/

/-- Data of more than a hundred kilobytes. -/
def largeData : Bytes := List.replicate 102403 32

theorem length_largeData : largeData.length = 102403 := List.length_replicate

/-- A contract with this data, which is large enough to be kept. -/
def largeContract (balance : Amount) : Contract where
  strAddress := 9
  conciliumId := some 0
  balance := balance
  version := .CONTRACT_V_JSON
  contractData := some largeData

/-- A database that holds it. -/
def largeDb : ContractDb where
  storage := { Storage.empty with
    contracts := (∅ : FinMap Address Contract).insert 9 (largeContract 0) }
  codes := ∅

/-- A block's patch with another balance. -/
def depositPatch : PatchDB := PatchDB.empty.setContract Factory.sample (largeContract 5)

theorem getRaw_largeDb : largeDb.getRaw 9 = some (largeContract 0, []) := by
  simp [ContractDb.getRaw, largeDb, Storage.getContract, largeContract]

theorem dataSize_largeContract (balance : Amount) :
    CONTRACT_MIN_CASHING_SIZE < (largeContract balance).getDataSize Factory.sample := by
  simp [Contract.getDataSize, Contract.ensureData, largeContract, Contract.getSizeOfEmptyData,
    Contract.serialize, Contract.emptyData, CONTRACT_MIN_CASHING_SIZE, length_largeData]

/-- Once read, the contract is kept. -/
theorem lookup_getContract_largeDb :
    ((new largeDb).step Factory.sample (.getContract .string 9)).object.lookup (.hex 9) =
      some 0 := by
  have hmiss : (new largeDb).object.lookup (cacheKey .string 9) = none := Finmap.lookup_empty _
  have hraw : (new largeDb).db.getRaw 9 = some (largeContract 0, []) := getRaw_largeDb
  rw [step]
  exact lookup_getContract_of_large hmiss hraw (dataSize_largeContract 0)

theorem db_getContract_largeDb :
    ((new largeDb).step Factory.sample (.getContract .string 9)).db = largeDb := by
  rcases getContract_cases Factory.sample (new largeDb) .string 9 with h | ⟨_, -, -, h⟩ <;>
    · rw [step, h]
      rfl

theorem getRaw_depositPatch :
    (largeDb.storage.applyPatch Factory.sample depositPatch 48000).getContract 9 =
      some (largeContract 5) := by
  have hpatched : depositPatch.mapContractStates.lookup 9 = some (largeContract 5) := by
    simp [depositPatch, PatchDB.setContract, PatchDB.recordedContract, PatchDB.getContract,
      PatchDB.empty, largeContract]
  have hstored : Storage.storedContract Factory.sample 48000 (largeContract 5) =
      some (largeContract 5) := by
    simp [Storage.storedContract, Factory.sample, Contract.clone, largeContract,
      Contract.ensureData, Except.toOption]
  rw [Storage.getContract, Storage.applyPatch, FinMap.lookup_zipWith _ _ _ (fun _ => rfl), hpatched]
  simp only [hstored, Option.map_some]
  rfl

/-- The patch changes a contract that is kept. -/
theorem not_keepsCoherent_depositPatch :
    ¬ KeepsCoherent Factory.sample ((new largeDb).step Factory.sample (.getContract .string 9))
      (.applyPatch depositPatch ∅ 48000) := by
  intro hkeeps
  have hview := hkeeps .string 9 (.inl (by
    rw [cacheKey, lookup_getContract_largeDb]
    rfl))
  rw [applyPatch, db_getContract_largeDb, ContractDb.view, ContractDb.view, getRaw_largeDb,
    ContractDb.getRaw, getRaw_depositPatch] at hview
  have hbalance := congrArg (Option.map (·.balance)) hview
  simp [Contract.view, largeContract] at hbalance

end CilCore.StorageWithCache
