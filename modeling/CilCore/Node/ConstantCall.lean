import CilCore.Node.SendAttribution
import CilCore.Storage.Shown

/-!
# Constant calls

A constant call runs a method on the very object that the cache or the patch of a pending
block holds. What the node keeps is left as it was if the code changes none of these
objects: it sends nothing from them, leaves their data alone at every depth, calls no
other contract that is kept in a way that stores its data, and has no asynchronous method.
-/

namespace CilCore.ContractMachine

variable {F : Factory} {J : Dagjs} {i n : Nat} {s t u : ContractMachine} {session : Session}
  {call : Call} {ref : Ref}

/-! ### What the node keeps -/

/-- The node goes on to use an object: it is in the cache or in the patch of a pending
block, or one of these proxies it. -/
def Kept (s : ContractMachine) (ref : Ref) : Prop :=
  ∃ root, ((∃ key, s.store.object.lookup key = some root) ∨
    ∃ key, s.pendingContracts.lookup key = some root) ∧ s.store.heap.Follows root ref

/-- What the node keeps exists. -/
def KeepsObjects (s : ContractMachine) : Prop := ∀ ref, s.Kept ref → ref < s.store.heap.length

/-- Two nodes that cannot be told apart by what they keep: the database, the contracts
that reading through the cache shows, and the patches of the pending blocks with the
contracts in them. -/
structure SameNode (F : Factory) (s t : ContractMachine) : Prop where
  db : t.store.db = s.store.db
  cache : ∀ form address, t.store.shownCached F form address = s.store.shownCached F form address
  raw : t.store.raw = s.store.raw
  pendingBlocks : t.pendingBlocks = s.pendingBlocks
  pendingContracts : t.pendingContracts = s.pendingContracts
  pending : ∀ key ref, s.pendingContracts.lookup key = some ref →
    t.store.heap.shown F ref = s.store.heap.shown F ref

theorem SameNode.refl (F : Factory) (s : ContractMachine) : SameNode F s s :=
  ⟨rfl, fun _ _ => rfl, rfl, rfl, rfl, fun _ _ _ => rfl⟩

theorem SameNode.trans (h : SameNode F s t) (h' : SameNode F t u) : SameNode F s u where
  db := h'.db.trans h.db
  cache form address := (h'.cache form address).trans (h.cache form address)
  raw := h'.raw.trans h.raw
  pendingBlocks := h'.pendingBlocks.trans h.pendingBlocks
  pendingContracts := h'.pendingContracts.trans h.pendingContracts
  pending key ref href :=
    (h'.pending key ref (by rw [h.pendingContracts, href])).trans (h.pending key ref href)

/-- A change that leaves every object that is kept as it is, and adds none to the cache. -/
structure SparesKept (F : Factory) (s t : ContractMachine) : Prop where
  db : t.store.db = s.store.db
  object : t.store.object = s.store.object
  raw : t.store.raw = s.store.raw
  pendingBlocks : t.pendingBlocks = s.pendingBlocks
  pendingContracts : t.pendingContracts = s.pendingContracts
  tasks : t.sessions.map (·.task) = s.sessions.map (·.task)
  kept : ∀ ref, s.Kept ref → s.store.heap.SameAt F t.store.heap ref

namespace SparesKept

theorem refl (F : Factory) (s : ContractMachine) : SparesKept F s s :=
  ⟨rfl, rfl, rfl, rfl, rfl, rfl, fun _ _ => rfl⟩

theorem kept_iff (h : SparesKept F s t) : t.Kept ref ↔ s.Kept ref := by
  unfold Kept
  rw [h.object, h.pendingContracts]
  refine exists_congr fun root => and_congr_right fun hroot => ?_
  have hsame : ∀ at_, s.store.heap.Follows root at_ →
      s.store.heap.SameAt F t.store.heap at_ := fun at_ hat => h.kept at_ ⟨root, hroot, hat⟩
  exact ⟨Heap.follows_of_sameAt hsame, fun hfollows => hfollows.of_sameAt hsame⟩

theorem trans (h : SparesKept F s t) (h' : SparesKept F t u) : SparesKept F s u where
  db := h'.db.trans h.db
  object := h'.object.trans h.object
  raw := h'.raw.trans h.raw
  pendingBlocks := h'.pendingBlocks.trans h.pendingBlocks
  pendingContracts := h'.pendingContracts.trans h.pendingContracts
  tasks := h'.tasks.trans h.tasks
  kept ref href := (h.kept ref href).trans (h'.kept ref (h.kept_iff.mpr href))

theorem keepsObjects (h : SparesKept F s t) (hs : s.KeepsObjects) : t.KeepsObjects := by
  intro ref href
  have hkept := h.kept_iff.mp href
  have hlive := List.getElem?_eq_getElem (hs ref hkept)
  have hsame := h.kept ref hkept
  rw [Heap.SameAt, hlive, Option.map_some] at hsame
  obtain ⟨live, hlive', -⟩ := Option.map_eq_some_iff.mp hsame
  exact (List.getElem?_eq_some_iff.mp hlive').1

theorem shown (h : SparesKept F s t) (href : s.Kept ref) :
    t.store.heap.shown F ref = s.store.heap.shown F ref := by
  refine Heap.shown_of_sameAt fun at_ hat => h.kept at_ ?_
  obtain ⟨root, hroot, hfollows⟩ := href
  exact ⟨root, hroot, hfollows.trans hat⟩

theorem sameNode (h : SparesKept F s t) : SameNode F s t where
  db := h.db
  raw := h.raw
  pendingBlocks := h.pendingBlocks
  pendingContracts := h.pendingContracts
  pending key ref href := h.shown ⟨ref, .inr ⟨key, href⟩, .refl⟩
  cache form address := by
    cases hlookup : s.store.object.lookup (cacheKey form address) with
    | none =>
        rw [StorageWithCache.shownCached_of_miss hlookup,
          StorageWithCache.shownCached_of_miss (h.object ▸ hlookup), h.db]
    | some ref =>
        rw [StorageWithCache.shownCached_of_lookup hlookup,
          StorageWithCache.shownCached_of_lookup (h.object ▸ hlookup)]
        exact congrArg some (h.shown ⟨ref, .inl ⟨_, hlookup⟩, .refl⟩)

end SparesKept

/-! ### Changes of single objects and records -/

theorem sparesKept_withApp (s : ContractMachine) (app : Application) :
    SparesKept F s { s with app } :=
  ⟨rfl, rfl, rfl, rfl, rfl, rfl, fun _ _ => rfl⟩

theorem sparesKept_modifySession (s : ContractMachine) (i : Nat) {f : Session → Session}
    (hf : ∀ session, (f session).task = session.task) : SparesKept F s (s.modifySession i f) := by
  refine ⟨rfl, rfl, rfl, rfl, rfl, ?_, fun _ _ => rfl⟩
  apply List.ext_getElem?
  intro j
  change (List.map _ (s.sessions.modify i f))[j]? = _
  rw [List.getElem?_map, List.getElem?_map, List.getElem?_modify]
  cases s.sessions[j]? with
  | none => rfl
  | some session =>
      by_cases hj : i = j
      · simp [hj, hf]
      · simp [hj]

theorem sparesKept_modifyCall (s : ContractMachine) (i n : Nat) (f : Call → Call) :
    SparesKept F s (s.modifyCall i n f) :=
  sparesKept_modifySession s i fun _ => rfl

theorem sparesKept_setStage (s : ContractMachine) (i n : Nat) (stage : Stage) :
    SparesKept F s (s.setStage i n stage) :=
  sparesKept_modifyCall s i n _

theorem sparesKept_answer (s : ContractMachine) (i : Nat) (message : Option String) :
    SparesKept F s (s.answer i message) :=
  sparesKept_modifySession s i fun _ => rfl

theorem sparesKept_modifyLive {f : LiveContract → LiveContract}
    (hf : s.Kept ref → ∀ live, s.store.heap[ref]? = some live →
      (f live).complete F = live.complete F) : SparesKept F s (s.modifyLive ref f) := by
  refine ⟨rfl, rfl, rfl, rfl, rfl, rfl, fun kept hkept => Heap.sameAt_modify ?_⟩
  rintro rfl
  exact hf hkept

theorem sparesKept_modifyContract {f : Contract → Contract}
    (hf : s.Kept ref → ∀ live, s.store.heap[ref]? = some live →
      (f live.contract).complete F = live.contract.complete F) :
    SparesKept F s (s.modifyContract ref f) := by
  refine sparesKept_modifyLive fun hkept live hlive => ?_
  rw [LiveContract.complete, LiveContract.complete, hf hkept live hlive]

theorem sparesKept_ensureData (s : ContractMachine) (ref : Ref) :
    SparesKept F s (s.modifyContract ref (·.ensureData F)) :=
  sparesKept_modifyContract fun _ live _ => Contract.complete_ensureData F live.contract

/-! ### Running a method -/

/-- Running a method of an object leaves its code as it is: the code has no mark of an
asynchronous method to be taken away. -/
def StaysPrepared (s : ContractMachine) (ref : Ref) (method : String) : Prop :=
  s.hasMethod ref (calledMethod method) →
    ∀ live, s.store.heap[ref]? = some live → prepareCode live.code = live.code

theorem code_of_sameAt (h : s.store.heap.SameAt F t.store.heap ref) :
    (t.store.heap[ref]?).map (·.code) = (s.store.heap[ref]?).map (·.code) := by
  have hcode := congrArg (Option.map LiveContract.code) h
  rwa [Option.map_map, Option.map_map] at hcode

theorem StaysPrepared.of_sameAt {method : String} (h : s.StaysPrepared ref method)
    (hsame : s.store.heap.SameAt F t.store.heap ref) : t.StaysPrepared ref method := by
  have hcode := code_of_sameAt hsame
  intro hmethod live hlive
  rw [hlive, Option.map_some] at hcode
  obtain ⟨live', hlive', heq⟩ := Option.map_eq_some_iff.mp hcode.symm
  rw [← heq]
  refine h ?_ live' hlive'
  rw [hasMethod, hlive, Option.any_some] at hmethod
  rw [hasMethod, hlive', Option.any_some, heq]
  exact hmethod

theorem sparesKept_leave (s : ContractMachine) (i n : Nat) (ref : Ref) (message : Option String) :
    SparesKept F s (s.leave F i n ref message) := by
  unfold leave
  split
  next => exact sparesKept_setStage s i n _
  next app _ =>
    exact (sparesKept_withApp s app).trans
      ((sparesKept_ensureData _ ref).trans (sparesKept_setStage _ i n _))

theorem sparesKept_startCode
    (h : s.Kept ref → ∀ live, s.store.heap[ref]? = some live → prepareCode live.code = live.code) :
    SparesKept F s (s.startCode F i n ref) := by
  refine (sparesKept_modifyLive fun hkept live hlive => ?_).trans
    (sparesKept_modifySession _ i fun _ => rfl)
  rw [LiveContract.complete, LiveContract.complete, h hkept live hlive, Contract.complete_getData]

theorem sparesKept_runContract {method : String}
    (h : s.Kept ref → s.StaysPrepared ref method) :
    SparesKept F s (s.runContract F i n ref method) := by
  unfold runContract
  split
  next => exact sparesKept_setStage s i n _
  next app _ =>
    have hentered : SparesKept F s ({ s with app }.modifyContract ref (·.ensureData F)) :=
      (sparesKept_withApp s app).trans (sparesKept_ensureData _ ref)
    dsimp only
    split
    next => exact hentered.trans (sparesKept_leave _ i n ref _)
    next nCoinsLimit _ =>
      have hspent := hentered.trans (sparesKept_withApp _ { app with nCoinsLimit })
      split
      next hmethod =>
        refine hspent.trans (sparesKept_startCode fun hkept live hlive => ?_)
        have hkept' := hspent.kept_iff.mp hkept
        exact (h hkept').of_sameAt (hspent.kept ref hkept') hmethod live hlive
      next => exact hspent.trans (sparesKept_leave _ i n ref _)

/-! ### Reading a contract -/

/-- If a contract is read for the first time and is large enough for the cache, no address
with another contract leads to its key. -/
def UnderOwnKey (F : Factory) (s : ContractMachine) (form : AddressForm) (address : Address) :
    Prop :=
  ∀ stored, s.store.object.lookup (cacheKey form address) = none →
    s.store.db.getRaw address = some stored →
    CONTRACT_MIN_CASHING_SIZE < stored.1.getDataSize F →
    ∀ form' address', cacheKey form' address' = cacheKey form address →
      StorageWithCache.shownStored F address' s.store.db =
        StorageWithCache.shownStored F address s.store.db

/-- The objects that are kept, and what they show, are the same, and the executions are for
the same things. -/
structure SameForConstant (F : Factory) (s t : ContractMachine) : Prop where
  sameNode : SameNode F s t
  keepsObjects : t.KeepsObjects
  tasks : t.sessions.map (·.task) = s.sessions.map (·.task)

theorem SparesKept.sameForConstant (h : SparesKept F s t) (hs : s.KeepsObjects) :
    SameForConstant F s t :=
  ⟨h.sameNode, h.keepsObjects hs, h.tasks⟩

theorem SameForConstant.trans (h : SameForConstant F s t) (h' : SameForConstant F t u) :
    SameForConstant F s u :=
  ⟨h.sameNode.trans h'.sameNode, h'.keepsObjects, h'.tasks.trans h.tasks⟩

theorem sparesKept_append (hs : s.KeepsObjects) (more : Heap) :
    SparesKept F s { s with store := { s.store with heap := s.store.heap ++ more } } :=
  ⟨rfl, rfl, rfl, rfl, rfl, rfl, fun ref href => Heap.sameAt_append more (hs ref href)⟩

/-- A contract of the database is put into the cache. -/
theorem sameForConstant_insert (hs : s.KeepsObjects) {form : AddressForm} {address : Address}
    {stored : Contract × ContractCode}
    (hmiss : s.store.object.lookup (cacheKey form address) = none)
    (hstored : s.store.db.getRaw address = some stored)
    (hkey : ∀ form' address', cacheKey form' address' = cacheKey form address →
      StorageWithCache.shownStored F address' s.store.db =
        StorageWithCache.shownStored F address s.store.db) :
    SameForConstant F s
      { s with store :=
        { s.store with
          heap := s.store.heap ++ [⟨stored.1, stored.2, none⟩]
          object := s.store.object.insert (cacheKey form address) s.store.heap.length } } := by
  have hspares := sparesKept_append (F := F) hs [⟨stored.1, stored.2, none⟩]
  refine ⟨⟨rfl, fun form' address' => ?_, rfl, rfl, rfl, hspares.sameNode.pending⟩, ?_, rfl⟩
  · by_cases hsame : cacheKey form' address' = cacheKey form address
    · have hadded : (s.store.object.insert (cacheKey form address) s.store.heap.length).lookup
          (cacheKey form' address') = some s.store.heap.length := by
        rw [hsame]
        exact Finmap.lookup_insert _
      rw [StorageWithCache.shownCached_of_lookup hadded,
        StorageWithCache.shownCached_of_miss (hsame ▸ hmiss),
        hkey form' address' hsame, StorageWithCache.shownStored, hstored]
      exact congrArg some (Heap.shown_append_self F s.store.heap stored.1 stored.2)
    · have hlookup : (s.store.object.insert (cacheKey form address) s.store.heap.length).lookup
          (cacheKey form' address') = s.store.object.lookup (cacheKey form' address') :=
        Finmap.lookup_insert_of_ne _ hsame
      cases hold : s.store.object.lookup (cacheKey form' address') with
      | none =>
          rw [StorageWithCache.shownCached_of_miss hold]
          exact StorageWithCache.shownCached_of_miss (hlookup.trans hold)
      | some ref =>
          have hshown := hspares.shown ⟨ref, .inl ⟨_, hold⟩, .refl⟩
          rw [StorageWithCache.shownCached_of_lookup hold, ← hshown]
          exact StorageWithCache.shownCached_of_lookup (hlookup.trans hold)
  · rintro ref ⟨root, hroot, hfollows⟩
    by_cases hnew : root = s.store.heap.length
    · -- nothing is proxied by the new object
      have hown : Heap.HasOwn (s.store.heap ++ [⟨stored.1, stored.2, none⟩]) root :=
        ⟨_, by rw [hnew, List.getElem?_concat_length], rfl⟩
      rw [hfollows.eq_of_hasOwn hown, hnew]
      simp
    · refine hspares.keepsObjects hs ref ⟨root, ?_, hfollows⟩
      rcases hroot with ⟨key, hkept⟩ | hpending
      · rw [FinMap.lookup_insert_ite] at hkept
        split at hkept
        next =>
          injection hkept with hkept
          exact absurd hkept.symm hnew
        next => exact .inl ⟨key, hkept⟩
      · exact .inr hpending

theorem sameForConstant_fetch (hs : s.KeepsObjects)
    (hkey : session.env.patchBlock.getContract call.strAddress = none →
      s.UnderOwnKey F call.form call.strAddress) :
    SameForConstant F s (s.fetch F i n call session) := by
  unfold fetch
  split
  next contract _ =>
    split
    next => exact (sparesKept_setStage s i n _).sameForConstant hs
    next copy _ =>
      exact ((sparesKept_append hs _).trans (sparesKept_modifyCall _ i n _)).sameForConstant hs
  next hpatch =>
    have hread : SameForConstant F s
        { s with store := (s.store.getContract F call.form call.strAddress).2 } := by
      rcases StorageWithCache.getContract_cases F s.store call.form call.strAddress with
        hsame | ⟨stored, hstored, hmiss, hnew⟩
      · rw [hsame]
        exact (SparesKept.refl F s).sameForConstant hs
      · rw [hnew]
        by_cases hsize : CONTRACT_MIN_CASHING_SIZE < stored.1.getDataSize F
        · rw [if_pos hsize]
          exact sameForConstant_insert hs hmiss hstored (hkey hpatch stored hmiss hstored hsize)
        · rw [if_neg hsize]
          exact (sparesKept_append hs _).sameForConstant hs
    split
    next store hget =>
      rw [hget] at hread
      exact hread.trans ((sparesKept_setStage _ i n _).sameForConstant hread.keepsObjects)
    next ref store hget =>
      rw [hget] at hread
      exact hread.trans ((sparesKept_modifyCall _ i n _).sameForConstant hread.keepsObjects)

/-! ### Requests and calls -/

/-- Nothing is withdrawn from a contract: no address is given, the amount is not positive,
or it is more than the contract has. -/
def WithdrawsNothing (strAddress : Option Address) (amount : Amount) (contract : Contract) : Prop :=
  strAddress = none ∨ amount ≤ 0 ∨ contract.balance < amount

theorem sendCoins_withdrawsNothing (E : RunEnv) {strAddress : Option Address} {amount : Amount}
    {contract : Contract} (h : WithdrawsNothing strAddress amount contract) (patchTx : PatchDB) :
    (sendCoins F E strAddress amount contract patchTx).2.1 = contract := by
  unfold sendCoins
  split
  next => rfl
  next strAddress =>
    split
    next => rfl
    next hfunds =>
      split
      next => rfl
      next hzero =>
        have hnot : ¬ 0 < amount := by
          rcases h with hnone | hle | hlt
          · cases hnone
          · exact not_lt.mpr hle
          · exact absurd hlt hfunds
        rw [createInternalTx, if_neg hnot]

theorem sparesKept_serveSend {strAddress : Option Address} {amount : Amount}
    (h : ∀ (payer : Ref) live, s.payer = some payer → s.Kept payer →
      s.store.heap[payer]? = some live → WithdrawsNothing strAddress amount live.contract) :
    SparesKept F s (s.serveSend F strAddress amount).1 := by
  unfold serveSend
  split
  next => exact .refl F s
  next nCoinsLimit _ =>
    refine (sparesKept_withApp s { s.app with nCoinsLimit }).trans ?_
    unfold sendCurrent
    split
    next payer session hpayer _ =>
      split
      next => exact .refl F _
      next live hlive =>
        refine (sparesKept_modifyContract fun hkept live' hlive' => ?_).trans
          (sparesKept_modifySession _ _ fun _ => rfl)
        have hsame : live' = live := Option.some.inj (hlive'.symm.trans hlive)
        rw [sendCoins_withdrawsNothing session.env (h payer live hpayer hkept hlive), hsame]
    next => exact .refl F _

theorem sparesKept_enterNested
    (hswitch : s.Kept ref → ∀ live, s.store.heap[ref]? = some live →
      (switchNested F call session live).complete F = live.complete F)
    (hprepared : s.Kept ref → s.StaysPrepared ref call.method) :
    SparesKept F s (s.enterNested F i n call session ref) := by
  have hswitched := sparesKept_modifyLive hswitch
  unfold enterNested
  dsimp only
  split
  next => exact hswitched.trans (sparesKept_setStage _ i n _)
  next =>
    refine hswitched.trans (sparesKept_runContract fun hkept => ?_)
    have hkept' := hswitched.kept_iff.mp hkept
    exact (hprepared hkept').of_sameAt (hswitched.kept ref hkept')

theorem sparesKept_enterConstantCall {completed : Bool}
    (hprepared : ∀ ref', s.constantContract J completed call.strAddress ref = some ref' →
      s.Kept ref' → s.StaysPrepared ref' call.method) :
    SparesKept F s (s.enterConstantCall F J i n call completed ref) := by
  unfold enterConstantCall
  split
  next => exact sparesKept_setStage s i n _
  next ref' href' =>
    have hset := (sparesKept_withApp (F := F) s
      ((s.app.setCallbacks i).setupVariables ⟨none, some maxSafeInteger, none⟩ none)).trans
        (sparesKept_modifyCall _ i n fun call => { call with contract := some ref' })
    refine hset.trans (sparesKept_runContract fun hkept => ?_)
    have hkept' := hset.kept_iff.mp hkept
    exact (hprepared ref' href' hkept').of_sameAt (hset.kept ref' hkept')

/-- The contract object after `_invokeNestedContract` has run it. -/
def patchedNested (F : Factory) (session : Session) (ref : Ref) (s : ContractMachine) :
    ContractMachine :=
  if session.env.isTimeToForkSerializer3 then s.modifyContract ref (·.dirtyWorkaround F) else s

/-- Storing an object in the patch of the transaction changes nothing of the object that the
patch already has for its address. -/
def StoresSame (F : Factory) (s : ContractMachine) (callbacks : Nat) (ref : Ref) : Prop :=
  ∀ session live found stored, s.sessions[callbacks]? = some session →
    s.store.heap[ref]? = some live →
    session.findStored s.store.heap live.contract.strAddress = some found → s.Kept found →
    s.store.heap[found]? = some stored →
    (stored.contract.updateData (live.contract.data F)).complete F = stored.contract.complete F

theorem sparesKept_finishNested
    (hpatched : s.Kept ref → ∀ live, s.store.heap[ref]? = some live →
      session.env.isTimeToForkSerializer3 →
        (live.contract.dirtyWorkaround F).complete F = live.contract.complete F)
    (hstores : (s.patchedNested F session ref).StoresSame F call.callbacks ref) :
    SparesKept F s (s.finishNested F i n call session ref) := by
  have hpatch : SparesKept F s (s.patchedNested F session ref) := by
    unfold patchedNested
    split
    next hfork =>
      exact sparesKept_modifyContract fun hkept live hlive => hpatched hkept live hlive hfork
    next => exact .refl F s
  refine hpatch.trans ?_
  change SparesKept F _ (((s.patchedNested F session ref).storeObject F call.callbacks ref).setStage
    i n (.over none))
  refine SparesKept.trans ?_ (sparesKept_setStage _ i n _)
  unfold storeObject
  split
  next session' live hsession' hlive =>
    split
    next found hfound =>
      exact sparesKept_modifyContract fun hkept stored hstored =>
        hstores session' live found stored hsession' hlive hfound hkept hstored
    next => exact sparesKept_modifySession _ _ fun _ => rfl
  next => exact .refl F _

/-! ### Steps and runs -/

/-- When an action of a constant call changes nothing that the node keeps. A contract that
is read goes into the cache under its own key. Of an object that is kept, no asynchronous
method is entered, and nothing is sent from it; its data are not changed, and as the
contract of a nested call it has no serializer to be switched, proxies what it did, and is
stored as it was. -/
def ReadsOnly (F : Factory) (J : Dagjs) (i : Nat) (s : ContractMachine) : Action → Prop
  | .fetch n => ∀ session call serving, s.sessions[i]? = some session →
      session.calls[n]? = some call → call.stage = .loading →
      s.sessions[call.callbacks]? = some serving →
      serving.env.patchBlock.getContract call.strAddress = none →
      s.UnderOwnKey F call.form call.strAddress
  | .enter n => ∀ session call ref, s.sessions[i]? = some session →
      session.calls[n]? = some call → call.stage = .loaded → s.entering J i n = some ref →
      s.Kept ref → s.StaysPrepared ref call.method ∧
        (n ≠ 0 → ∀ live, s.store.heap[ref]? = some live →
          (switchNested F call session live).complete F = live.complete F)
  | .send n strAddress amount => ∀ session (payer : Ref) live, s.sessions[i]? = some session →
      session.IsRunning n → s.payer = some payer → s.Kept payer →
      s.store.heap[payer]? = some live → WithdrawsNothing strAddress amount live.contract
  | .changeNested n data => ∀ session call ref live, s.sessions[i]? = some session →
      session.calls[n]? = some call → call.stage = .running →
      (session.calls[call.context.getD n]?).bind (·.contract) = some ref → s.Kept ref →
      s.store.heap[ref]? = some live → data = live.contract.data F
  | .stop n (.ok data) => ∀ session call ref live, s.sessions[i]? = some session →
      session.calls[n]? = some call → call.stage = .running → call.contract = some ref →
      session.isConstantCall n = false → call.context = none → s.Kept ref →
      s.store.heap[ref]? = some live →
      (live.contract.updateData data).complete F = live.contract.complete F
  | .storeNested n => ∀ session call ref, s.sessions[i]? = some session →
      session.calls[n]? = some call → call.stage = .returned → call.contract = some ref →
      (s.Kept ref → ∀ live, s.store.heap[ref]? = some live →
        session.env.isTimeToForkSerializer3 →
        (live.contract.dirtyWorkaround F).complete F = live.contract.complete F) ∧
      (s.patchedNested F session ref).StoresSame F call.callbacks ref
  | _ => True

/-- The execution is a constant call. -/
def IsConstantCall (s : ContractMachine) (i : Nat) : Prop :=
  ∃ session completed, s.sessions[i]? = some session ∧ session.task = .constantCall completed

theorem sameForConstant_step (hconstant : s.IsConstantCall i) (hs : s.KeepsObjects)
    {action : Action} (hcond : s.ReadsOnly F J i action) :
    SameForConstant F s (s.step F J i action) := by
  obtain ⟨session, completed, hsession, htask⟩ := hconstant
  have hskip : SameForConstant F s s := (SparesKept.refl F s).sameForConstant hs
  unfold step
  rw [hsession]
  cases action with
  | fetch n =>
      dsimp only
      split
      next => exact hskip
      next call hcall =>
        split
        next => exact hskip
        next serving hserving =>
          split
          next hstage =>
            exact sameForConstant_fetch hs
              (hcond session call serving hsession hcall hstage hserving)
          next => exact hskip
  | process =>
      dsimp only
      rw [htask]
      split
      next h => cases h
      next => exact hskip
  | enter n =>
      dsimp only
      split
      next => exact hskip
      next call hcall =>
        have hentering := hcond session call
        unfold entering at hentering
        simp only [hsession, hcall] at hentering
        rw [htask] at hentering ⊢
        cases hcontract : call.contract with
        | none => cases n <;> exact hskip
        | some ref =>
            rw [hcontract] at hentering
            by_cases hstage : call.stage = .loaded
            · rw [hstage]
              cases n with
              | zero =>
                  refine (sparesKept_enterConstantCall fun ref' href' hkept => ?_).sameForConstant hs
                  exact (hentering ref' trivial trivial hstage href' hkept).1
              | succ n =>
                  refine SparesKept.sameForConstant (sparesKept_enterNested (fun hkept => ?_)
                    fun hkept => ?_) hs
                  · exact (hentering ref trivial trivial hstage rfl hkept).2 (Nat.succ_ne_zero n)
                  · exact (hentering ref trivial trivial hstage rfl hkept).1
            · split
              next hloaded => exact absurd hloaded hstage
              next => exact absurd ‹_ = Task.invocation _› (by simp)
              next => exact absurd ‹_ = Task.creation _ _› (by simp)
              next hloaded => exact absurd hloaded hstage
              next => exact hskip
  | create =>
      dsimp only
      rw [htask]
      split
      next h => cases h
      next => exact hskip
  | send n strAddress amount =>
      dsimp only
      split
      next hrunning =>
        exact SparesKept.sameForConstant ((sparesKept_serveSend fun payer live hpayer hkept hlive =>
          hcond session payer live hsession hrunning hpayer hkept hlive).trans
            (sparesKept_answer _ i _)) hs
      next => exact hskip
  | call n delegate strAddress method coinsLimit =>
      dsimp only
      split
      next => exact hskip
      next call hcall =>
        split
        next =>
          split
          next => exact (sparesKept_answer s i _).sameForConstant hs
          next call' _ =>
            exact (sparesKept_modifySession s i (f := fun session =>
              { session with calls := session.calls ++ [call'] }) fun _ => rfl).sameForConstant hs
        next => exact hskip
  | changeNested n data =>
      dsimp only
      split
      next => exact hskip
      next call hcall =>
        split
        next hstage =>
          split
          next => exact hskip
          next ref href =>
            refine (sparesKept_modifyContract fun hkept live hlive => ?_).sameForConstant hs
            have hdata := hcond session call ref live hsession hcall hstage href hkept hlive
            rw [hdata]
            exact Contract.complete_getData F live.contract
        next => exact hskip
  | stop n result =>
      dsimp only
      split
      next => exact hskip
      next call hcall =>
        split
        next ref error _ _ => exact (sparesKept_leave s i n ref _).sameForConstant hs
        next ref data hstage href =>
          split
          next => exact (sparesKept_leave s i n ref _).sameForConstant hs
          next hstored =>
            refine SparesKept.sameForConstant
              ((sparesKept_modifyContract fun hkept live hlive => ?_).trans
                (sparesKept_leave _ i n ref _)) hs
            refine hcond session call ref live hsession hcall hstage href ?_ ?_ hkept hlive
            · exact Bool.eq_false_iff.mpr fun h => hstored (.inl h)
            · exact Option.not_isSome_iff_eq_none.mp fun h => hstored (.inr h)
        next => exact hskip
  | storeNested n =>
      dsimp only
      split
      next => exact hskip
      next call hcall =>
        split
        next ref hstage href =>
          obtain ⟨hpatched, hstores⟩ := hcond session call ref hsession hcall hstage href
          exact (sparesKept_finishNested hpatched hstores).sameForConstant hs
        next => exact hskip
  | settle =>
      dsimp only
      split
      next => exact hskip
      next call hcall =>
        unfold settle
        rw [htask]
        split
        next => exact absurd ‹_ = Task.invocation _› (by simp)
        next => exact absurd ‹_ = Task.creation _ _› (by simp)
        next => exact hskip

theorem IsConstantCall.of_tasks (h : s.IsConstantCall i)
    (htasks : t.sessions.map (·.task) = s.sessions.map (·.task)) : t.IsConstantCall i := by
  obtain ⟨session, completed, hsession, htask⟩ := h
  have hget := congrArg (·[i]?) htasks
  simp only [List.getElem?_map, hsession, Option.map_some, htask] at hget
  obtain ⟨session', hsession', htask'⟩ := Option.map_eq_some_iff.mp hget
  exact ⟨session', completed, hsession', htask'⟩

/-- A constant call whose actions read only leaves the node as it was, at every point and
however it ends. -/
theorem sameNode_of_run (F : Factory) (J : Dagjs) (i : Nat) (start s : ContractMachine)
    (hconstant : start.IsConstantCall i) (hkeeps : start.KeepsObjects)
    (hrun : RunWhile F J i (ReadsOnly F J i) start s) : SameNode F start s := by
  have hsame : SameForConstant F start s := by
    induction hrun with
    | start => exact (SparesKept.refl F start).sameForConstant hkeeps
    | step _ hcond ih =>
        exact ih.trans (sameForConstant_step (hconstant.of_tasks ih.tasks) ih.keepsObjects hcond)
  exact hsame.sameNode

/-! ### A constant call that sends coins -/

/-- A pending block with the first contract in its patch. -/
def pendingBlock : PendingBlock where
  patch :=
    { PatchDB.empty.setContract Factory.sample sampleContract with
      conciliumId := some 0
      mapConciliumLevel := (∅ : FinMap Nat Nat).insert 0 1 }
  blockHeader :=
    { parentHashes := [1], merkleRoot := 0, conciliumId := 0, timestamp := 0, height := 1 }
  bIsEmpty := false

/-- A node with that block, which is asked for a constant call of the contract. -/
def pendingConstantCall : ContractMachine :=
  { oneInvocation with
    store := { StorageWithCache.new twoContracts with
      heap := [⟨sampleContract, [⟨"main", false, ""⟩], none⟩] }
    pendingBlocks := ⟨Dag.empty.addVertex 6 [] pendingBlock, []⟩
    pendingContracts := (∅ : FinMap (Hash × Address) Ref).insert (6, 77) 0
    sessions := [.start { invocationSession.env with strTxHash := 1 } ∅ (.constantCall false)
      { form := .string, strAddress := 77, method := "main", callbacks := 0 } PatchDB.empty] }

theorem keepsObjects_pendingConstantCall : pendingConstantCall.KeepsObjects := by
  rintro ref ⟨root, ⟨key, hcached⟩ | ⟨key, hpending⟩, hfollows⟩
  · have hnone : pendingConstantCall.store.object.lookup key = none := Finmap.lookup_empty key
    rw [hnone] at hcached
    cases hcached
  · have hlookup : ((∅ : FinMap (Hash × Address) Ref).insert (6, 77) 0).lookup key = some root :=
      hpending
    rw [FinMap.lookup_insert_ite] at hlookup
    split at hlookup
    next =>
      injection hlookup with hroot
      have hown : pendingConstantCall.store.heap.HasOwn root := ⟨_, by rw [← hroot]; rfl, rfl⟩
      rw [hfollows.eq_of_hasOwn hown, ← hroot]
      exact Nat.one_pos
    next =>
      rw [Finmap.lookup_empty] at hlookup
      cases hlookup

/-- The contract is read, and its method is entered. -/
theorem sameNode_of_run_pendingConstantCall :
    SameNode Factory.sample pendingConstantCall
      ((pendingConstantCall.step Factory.sample Dagjs.sample 0 (.fetch 0)).step Factory.sample
        Dagjs.sample 0 (.enter 0)) := by
  refine sameNode_of_run Factory.sample Dagjs.sample 0 pendingConstantCall _ ⟨_, _, rfl, rfl⟩
    keepsObjects_pendingConstantCall (.step (.step .start ?_) ?_)
  · intro session call serving hsession hcall _ _ _ stored _ hstored hsize
    rw [← Option.some.inj hsession] at hcall
    rw [← Option.some.inj hcall] at hstored
    have hsmall : (pendingConstantCall.store.db.getRaw 77).all (fun stored =>
        stored.1.getDataSize Factory.sample ≤ CONTRACT_MIN_CASHING_SIZE) = true := by decide +kernel
    rw [hstored, Option.all_some, decide_eq_true_eq] at hsmall
    exact absurd hsize (not_lt.mpr hsmall)
  · intro session call ref _ _ _ href _
    have hentering : (pendingConstantCall.step Factory.sample Dagjs.sample 0 (.fetch 0)).entering
        Dagjs.sample 0 0 = some 0 := by decide +kernel
    have hprepared : ((pendingConstantCall.step Factory.sample Dagjs.sample 0
        (.fetch 0)).store.heap[0]?).all (fun live => prepareCode live.code = live.code) = true := by
      decide +kernel
    rw [hentering] at href
    refine ⟨fun _ live hlive => ?_, fun hne => absurd rfl hne⟩
    rw [← Option.some.inj href] at hlive
    rw [hlive, Option.all_some, decide_eq_true_eq] at hprepared
    exact hprepared

/-- The method sends coins. -/
def sendingConstantCall : ContractMachine :=
  pendingConstantCall.steps Factory.sample Dagjs.sample 0 [.fetch 0, .enter 0, .send 0 (some 3) 200]

/-- They are missing from the contract of the pending block then. -/
theorem not_sameNode_sendingConstantCall :
    ¬ ∀ (F : Factory) (J : Dagjs) (i : Nat) (start s : ContractMachine), start.IsConstantCall i →
      start.KeepsObjects → RunWhile F J i (fun _ _ => True) start s → SameNode F start s := by
  intro hclaim
  have hsame := hclaim Factory.sample Dagjs.sample 0 pendingConstantCall sendingConstantCall
    ⟨_, _, rfl, rfl⟩ keepsObjects_pendingConstantCall (runWhile_steps _ _ _ _ _)
  have hlookup : pendingConstantCall.pendingContracts.lookup (6, 77) = some 0 :=
    Finmap.lookup_insert _
  have hbalance := congrArg Prod.snd (hsame.pending (6, 77) 0 hlookup)
  have hbefore : pendingConstantCall.store.heap.getBalance 0 = some 500 := by decide +kernel
  have hafter : sendingConstantCall.store.heap.getBalance 0 = some 300 := by decide +kernel
  rw [Heap.shown, Heap.shown, hbefore, hafter] at hbalance
  exact absurd hbalance (by decide +kernel)

end CilCore.ContractMachine
