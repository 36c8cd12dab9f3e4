import CilCore.Storage.CacheCoherence
import CilCore.Storage.Proxies

/-!
# What contract objects show

A contract object decodes and encodes its data when it is asked for them. Apart from
that, what can be found out about an object are its fields, and the balance of the object
that it proxies. This stays the same as long as no object on the way is changed.
-/

namespace CilCore

namespace Contract

variable (F : Factory) (contract : Contract)

/-- The contract with its data both decoded and encoded. -/
def complete : Contract := (contract.getData F).ensureData F

@[simp] theorem complete_getData : (contract.getData F).complete F = contract.complete F := rfl

@[simp] theorem complete_ensureData : (contract.ensureData F).complete F = contract.complete F := by
  rcases contract with ⟨_, _, _, _, _ | _, _, _ | _, _, _⟩ <;> rfl

@[simp] theorem balance_complete : (contract.complete F).balance = contract.balance := by
  rw [complete, balance_ensureData, balance_getData]

end Contract

/-- The object with its data both decoded and encoded. -/
def LiveContract.complete (F : Factory) (live : LiveContract) : LiveContract :=
  { live with contract := live.contract.complete F }

namespace Heap

variable {F : Factory} {heap heap' : Heap} {ref other : Ref}

/-- What can be found out about a contract object: its fields and the balance that it shows. -/
def shown (F : Factory) (heap : Heap) (ref : Ref) : Option LiveContract × Option Amount :=
  ((heap[ref]?).map (·.complete F), heap.getBalance ref)

/-- An object is the same in two heaps, up to decoding and encoding. -/
def SameAt (F : Factory) (heap heap' : Heap) (ref : Ref) : Prop :=
  (heap'[ref]?).map (·.complete F) = (heap[ref]?).map (·.complete F)

theorem SameAt.refl (F : Factory) (heap : Heap) (ref : Ref) : heap.SameAt F heap ref := rfl

theorem SameAt.trans {heap'' : Heap} (h : heap.SameAt F heap' ref)
    (h' : heap'.SameAt F heap'' ref) : heap.SameAt F heap'' ref :=
  Eq.trans h' h

theorem SameAt.symm (h : heap.SameAt F heap' ref) : heap'.SameAt F heap ref := Eq.symm h

theorem SameAt.proxied (h : heap.SameAt F heap' ref) :
    (heap'[ref]?).map (·.proxiedContract) = (heap[ref]?).map (·.proxiedContract) := by
  have hproxied := congrArg (Option.map (·.proxiedContract)) h
  rwa [Option.map_map, Option.map_map] at hproxied

theorem SameAt.balance (h : heap.SameAt F heap' ref) :
    (heap'[ref]?).map (·.contract.balance) = (heap[ref]?).map (·.contract.balance) := by
  have hbalance := congrArg (Option.map (·.contract.balance)) h
  have hcomplete : (fun live : LiveContract => live.contract.balance) ∘ LiveContract.complete F =
      fun live => live.contract.balance := by
    funext live
    exact Contract.balance_complete F live.contract
  rwa [Option.map_map, Option.map_map, hcomplete] at hbalance

theorem SameAt.proxies (h : heap.SameAt F heap' ref) (hproxies : heap.Proxies ref other) :
    heap'.Proxies ref other := by
  obtain ⟨live, hlive, hproxied⟩ := hproxies
  have hsame := h.proxied
  rw [hlive, Option.map_some, hproxied] at hsame
  obtain ⟨live', hlive', hproxied'⟩ := Option.map_eq_some_iff.mp hsame
  exact ⟨live', hlive', hproxied'⟩

/-- Where nothing on the way has changed, the same objects are met. -/
theorem Follows.of_sameAt (h : heap.Follows ref other)
    (hsame : ∀ at_, heap.Follows ref at_ → heap.SameAt F heap' at_) : heap'.Follows ref other := by
  induction h with
  | refl => exact .refl
  | tail hfirst hlast ih => exact ih.tail ((hsame _ hfirst).proxies hlast)

/-- Nor are others met then. -/
theorem follows_of_sameAt (hsame : ∀ at_, heap.Follows ref at_ → heap.SameAt F heap' at_)
    (h : heap'.Follows ref other) : heap.Follows ref other := by
  induction h with
  | refl => exact .refl
  | tail _ hlast ih => exact ih.tail ((hsame _ ih).symm.proxies hlast)

theorem holderFrom_of_sameAt (fuel : Nat) :
    ∀ {ref : Ref}, (∀ at_, heap.Follows ref at_ → heap.SameAt F heap' at_) →
      heap'.holderFrom fuel ref = heap.holderFrom fuel ref ∧
        ∀ holder ∈ heap.holderFrom fuel ref, heap.Follows ref holder := by
  induction fuel with
  | zero => exact fun _ => ⟨rfl, fun _ h => by cases h⟩
  | succ fuel ih =>
      intro ref hsame
      have hproxied := (hsame ref .refl).proxied
      rw [holderFrom, holderFrom]
      cases hlive : heap[ref]? with
      | none =>
          rw [hlive, Option.map_none, Option.map_eq_none_iff] at hproxied
          rw [hproxied]
          exact ⟨rfl, fun _ h => by cases h⟩
      | some live =>
          rw [hlive, Option.map_some] at hproxied
          obtain ⟨live', hlive', heq⟩ := Option.map_eq_some_iff.mp hproxied
          rw [hlive']
          dsimp only
          rw [heq]
          cases hnext : live.proxiedContract with
          | none =>
              refine ⟨rfl, fun holder hholder => ?_⟩
              injection hholder with hholder
              rw [hholder]
              exact .refl
          | some next =>
              have hstep : heap.Proxies ref next := ⟨live, hlive, hnext⟩
              obtain ⟨hrest, hmeets⟩ := ih fun at_ hat => hsame at_ (.head hstep hat)
              exact ⟨hrest, fun holder hholder => .head hstep (hmeets holder hholder)⟩

/-- An object shows the same if nothing on the way has changed. -/
theorem shown_of_sameAt (hsame : ∀ at_, heap.Follows ref at_ → heap.SameAt F heap' at_) :
    heap'.shown F ref = heap.shown F ref := by
  obtain ⟨hholder, hmeets⟩ := holderFrom_of_sameAt callDepth hsame
  have hbalance : heap'.getBalance ref = heap.getBalance ref := by
    rw [getBalance, getBalance, holder, holder, hholder]
    cases hsome : heap.holderFrom callDepth ref with
    | none => rfl
    | some holder => exact (hsame holder (hmeets holder hsome)).balance
  rw [shown, shown, hbalance, hsame ref .refl]

theorem sameAt_append (more : Heap) (href : ref < heap.length) :
    heap.SameAt F (heap ++ more) ref := by
  rw [SameAt, List.getElem?_append_left href]

theorem sameAt_modify {changed : Ref} {f : LiveContract → LiveContract}
    (h : changed = ref → ∀ live, heap[ref]? = some live → (f live).complete F = live.complete F) :
    heap.SameAt F (heap.modify changed f) ref := by
  rw [SameAt]
  by_cases hchanged : changed = ref
  · rw [hchanged, List.getElem?_modify_eq]
    cases hlive : heap[ref]? with
    | none => rfl
    | some live => exact congrArg some (h hchanged live hlive)
  · rw [List.getElem?_modify_ne _ _ hchanged]

/-- A new object shows what was decoded. -/
theorem shown_append_self (F : Factory) (heap : Heap) (contract : Contract) (code : ContractCode) :
    shown F (heap ++ [⟨contract, code, none⟩]) heap.length =
      (some ⟨contract.complete F, code, none⟩, some contract.balance) := by
  simp [shown, getBalance, holder, callDepth, holderFrom, LiveContract.complete]

end Heap

namespace StorageWithCache

/-- What can be found out about the contract that `getContract(address)` returns. -/
def shownCached (F : Factory) (form : AddressForm) (address : Address) (s : StorageWithCache) :
    Option (Option LiveContract × Option Amount) :=
  (s.getContract F form address).1.map (Heap.shown F (s.getContract F form address).2.heap)

/-- What can be found out about a contract of the database. -/
def shownStored (F : Factory) (address : Address) (db : ContractDb) :
    Option (Option LiveContract × Option Amount) :=
  (db.getRaw address).map fun stored =>
    (some ⟨stored.1.complete F, stored.2, none⟩, some stored.1.balance)

variable {F : Factory} {s : StorageWithCache} {form : AddressForm} {address : Address}

theorem shownCached_of_lookup {ref : Ref}
    (h : s.object.lookup (cacheKey form address) = some ref) :
    s.shownCached F form address = some (Heap.shown F s.heap ref) := by
  simp [shownCached, getContract, h]

theorem shownCached_of_miss (h : s.object.lookup (cacheKey form address) = none) :
    s.shownCached F form address = shownStored F address s.db := by
  unfold shownCached getContract shownStored
  cases hstored : s.db.getRaw address with
  | none => simp [h]
  | some stored =>
      simp only [h, Option.map_some]
      split <;> exact congrArg some (Heap.shown_append_self F s.heap stored.1 stored.2)

end StorageWithCache

end CilCore
