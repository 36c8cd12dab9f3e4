import CilCore.Storage.StorageWithCache
import Mathlib.Logic.Relation

/-!
# Proxied contract objects

A contract object that proxies another one shows the other's balance. The proxies lead to
one object that holds the balance, which stays the same when objects are changed or added
as long as nothing on the way proxies another object.
-/

namespace CilCore

namespace Heap

variable {heap heap' : Heap} {ref other holder : Ref}

/-- An object proxies another one. -/
def Proxies (heap : Heap) (ref other : Ref) : Prop :=
  ∃ live, heap[ref]? = some live ∧ live.proxiedContract = some other

/-- The objects that are met when the proxies are followed. -/
def Follows (heap : Heap) : Ref → Ref → Prop := Relation.ReflTransGen heap.Proxies

/-- An object has a balance of its own. -/
def HasOwn (heap : Heap) (ref : Ref) : Prop :=
  ∃ live, heap[ref]? = some live ∧ live.proxiedContract = none

/-- Following the proxies ends at this object, which has a balance of its own. -/
def Holds (heap : Heap) (ref holder : Ref) : Prop := heap.Follows ref holder ∧ heap.HasOwn holder

theorem follows_of_holderFrom {fuel : Nat} :
    ∀ {ref : Ref}, heap.holderFrom fuel ref = some holder → heap.Holds ref holder := by
  induction fuel with
  | zero =>
      intro ref h
      cases h
  | succ fuel ih =>
      intro ref h
      rw [holderFrom] at h
      split at h
      next => cases h
      next live hlive =>
        split at h
        next hnone =>
          injection h with h
          subst h
          exact ⟨.refl, live, hlive, hnone⟩
        next proxied hproxied =>
          obtain ⟨hfollows, hown⟩ := ih h
          exact ⟨.head ⟨live, hlive, hproxied⟩ hfollows, hown⟩

theorem holds_of_holder (h : heap.holder ref = some holder) : heap.Holds ref holder :=
  follows_of_holderFrom h

theorem Follows.eq_of_hasOwn (h : heap.Follows ref other) (hown : heap.HasOwn ref) :
    other = ref := by
  rcases h.cases_head with heq | ⟨next, ⟨live, hlive, hproxied⟩, _⟩
  · exact heq.symm
  · obtain ⟨live', hlive', hnone⟩ := hown
    rw [hlive] at hlive'
    injection hlive' with hlive'
    rw [hlive', hnone] at hproxied
    cases hproxied

theorem Holds.eq_of_hasOwn (h : heap.Holds ref holder) (hown : heap.HasOwn ref) :
    holder = ref :=
  Follows.eq_of_hasOwn h.1 hown

theorem Proxies.unique {other' : Ref} (h : heap.Proxies ref other) (h' : heap.Proxies ref other') :
    other = other' := by
  obtain ⟨live, hlive, hproxied⟩ := h
  obtain ⟨live', hlive', hproxied'⟩ := h'
  rw [hlive] at hlive'
  injection hlive' with hlive'
  rw [hlive', hproxied'] at hproxied
  injection hproxied with hproxied
  exact hproxied.symm

/-- Only one object holds the balance of another. -/
theorem Holds.unique {holder' : Ref} (h : heap.Holds ref holder) (h' : heap.Holds ref holder') :
    holder = holder' := by
  obtain ⟨hfollows, hown⟩ := h
  induction hfollows using Relation.ReflTransGen.head_induction_on with
  | refl => exact (h'.eq_of_hasOwn hown).symm
  | head hproxies _ ih =>
      rcases h'.1.cases_head with heq | ⟨next, hnext, hrest⟩
      · subst heq
        obtain ⟨live, hlive, hnone⟩ := h'.2
        obtain ⟨live', hlive', hproxied⟩ := hproxies
        rw [hlive] at hlive'
        injection hlive' with hlive'
        rw [← hlive', hnone] at hproxied
        cases hproxied
      · exact ih ⟨hproxies.unique hnext ▸ hrest, h'.2⟩

/-- Every object is still there, and proxies what it did. -/
def SameProxies (heap heap' : Heap) : Prop :=
  ∀ (ref : Ref) live, heap[ref]? = some live →
    ∃ live', heap'[ref]? = some live' ∧ live'.proxiedContract = live.proxiedContract

theorem SameProxies.refl (heap : Heap) : heap.SameProxies heap := fun _ live h => ⟨live, h, rfl⟩

theorem SameProxies.trans {heap'' : Heap} (h : heap.SameProxies heap')
    (h' : heap'.SameProxies heap'') : heap.SameProxies heap'' := by
  intro ref live hlive
  obtain ⟨live', hlive', hproxied'⟩ := h ref live hlive
  obtain ⟨live'', hlive'', hproxied''⟩ := h' ref live' hlive'
  exact ⟨live'', hlive'', hproxied''.trans hproxied'⟩

theorem Holds.mono (h : heap.Holds ref holder) (hsame : heap.SameProxies heap') :
    heap'.Holds ref holder := by
  refine ⟨Relation.ReflTransGen.mono ?_ ref holder h.1, ?_⟩
  · rintro v w ⟨live, hlive, hproxied⟩
    obtain ⟨live', hlive', hproxied'⟩ := hsame v live hlive
    exact ⟨live', hlive', hproxied'.trans hproxied⟩
  · obtain ⟨live, hlive, hnone⟩ := h.2
    obtain ⟨live', hlive', hproxied'⟩ := hsame holder live hlive
    exact ⟨live', hlive', hproxied'.trans hnone⟩

theorem sameProxies_modify (ref : Ref) {f : LiveContract → LiveContract}
    (hf : ∀ live, (f live).proxiedContract = live.proxiedContract) :
    heap.SameProxies (heap.modify ref f) := by
  intro at_ live hlive
  rw [List.getElem?_modify, hlive]
  by_cases href : ref = at_
  · exact ⟨f live, by simp [href], hf live⟩
  · exact ⟨live, by simp [href], rfl⟩

theorem sameProxies_append (more : Heap) : heap.SameProxies (heap ++ more) := by
  intro ref live hlive
  have hlt := (List.getElem?_eq_some_iff.mp hlive).1
  exact ⟨live, by rw [List.getElem?_append_left hlt, hlive], rfl⟩

/-- An object that is not met on the way may be changed. -/
theorem Holds.modify (h : heap.Holds ref holder) {changed : Ref}
    (hchanged : ¬ heap.Follows ref changed) (f : LiveContract → LiveContract) :
    Holds (heap.modify changed f) ref holder := by
  have hsame : ∀ {at_ : Ref}, heap.Follows ref at_ →
      (heap.modify changed f)[at_]? = heap[at_]? := by
    intro at_ hat
    rw [List.getElem?_modify_ne]
    rintro rfl
    exact hchanged hat
  obtain ⟨hfollows, live, hlive, hnone⟩ := h
  refine ⟨?_, live, (hsame hfollows).trans hlive, hnone⟩
  clear hlive hnone
  induction hfollows with
  | refl => exact .refl
  | tail hfirst hlast ih =>
      obtain ⟨live, hlive, hproxied⟩ := hlast
      exact ih.tail ⟨live, (hsame hfirst).trans hlive, hproxied⟩

end Heap

end CilCore
