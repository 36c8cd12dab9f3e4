import CilCore.Node.WeightedMajority

/-!
# What a majority proves

A value returned by `_majority` was said by witnesses that weigh at least a
quorum, up to its inner signature. A value returned by `runConsensus` therefore
has a quorum of origins, each backed by a quorum of reporters.
-/

namespace CilCore

open WeightedQuorum Plurality

/-- A witness said a value of the class `hash`. -/
def Agrees (hash : Content) (x : Address × Option Content) : Prop :=
  x.2.map Content.calcDataHash = some hash

instance (hash : Content) : DecidablePred (Agrees hash) := fun _ =>
  inferInstanceAs (Decidable (_ = _))

/-- The weight of the witnesses that said a value of the class `hash`. -/
def support (c : ConciliumDefinition) (hash : Content)
    (arrData : List (Address × Option Content)) : ℚ :=
  weightOf (fun x => c.weight x.1) (Agrees hash) arrData

namespace Content

@[simp] theorem calcDataHash_calcDataHash (d : Content) :
    d.calcDataHash.calcDataHash = d.calcDataHash := by
  cases d <;> rfl

@[simp] theorem state_calcDataHash (d : Content) : d.calcDataHash.state = d.state := by
  cases d <;> rfl

@[simp] theorem blockHash_calcDataHash (d : Content) :
    d.calcDataHash.blockHash = d.blockHash := by
  cases d <;> rfl

end Content

/-- `objHashes` is right for the values counted so far: every class stands once,
with its weight and one of its values, and a missing class has no supporter. -/
structure CountsFor (c : ConciliumDefinition) (counted : List (Address × Option Content))
    (objHashes : List Tally) : Prop where
  nodup : (objHashes.map (·.hash)).Nodup
  count_eq : ∀ t ∈ objHashes, t.count = support c t.hash counted
  value_mem : ∀ t ∈ objHashes,
    t.value.calcDataHash = t.hash ∧ ∃ addr, (addr, some t.value) ∈ counted
  hash_mem : ∀ x ∈ counted, ∀ hash, Agrees hash x → hash ∈ objHashes.map (·.hash)

/-- The witnesses that said a value of a class are the voters of that class. -/
theorem support_eq (c : ConciliumDefinition) (hash : Content)
    (arrData : List (Address × Option Content)) :
    support c hash arrData =
      classWeight voteClass (fun x => c.weight x.1) (reported arrData) hash := by
  induction arrData with
  | nil => rfl
  | cons x rest ih =>
    rw [support, weightOf_cons, ← support, ih]
    obtain ⟨addr, said⟩ := x
    cases said with
    | none => simp [Agrees]
    | some data =>
      rw [reported_cons_some, classWeight_cons]
      congr 1
      exact if_congr (by simp [Agrees, voteClass]) rfl rfl

/-- Who is among the voters has said something. -/
theorem mem_reported {arrData : List (Address × Option Content)} {x : Address × Content} :
    x ∈ reported arrData ↔ (x.1, some x.2) ∈ arrData := by
  simp only [reported, List.mem_filterMap, Option.map_eq_some_iff]
  constructor
  · rintro ⟨⟨addr, said⟩, hmem, data, rfl, rfl⟩
    exact hmem
  · intro hmem
    exact ⟨_, hmem, x.2, rfl, rfl⟩

/-- The first loop of `_majority` counts right. -/
theorem countsFor_countVotes (c : ConciliumDefinition)
    (arrData : List (Address × Option Content)) :
    CountsFor c arrData (countVotes c arrData []) := by
  rw [countVotes_eq_tallyVotes, tallyVotes_nil]
  refine ⟨?_, ?_, ?_, ?_⟩
  · rw [map_hash_tallies]
    exact nodup_map_firsts
  · intro t ht
    obtain ⟨x, -, rfl⟩ := List.mem_map.mp ht
    rw [support_eq]
    rfl
  · intro t ht
    obtain ⟨x, hx, rfl⟩ := List.mem_map.mp ht
    exact ⟨rfl, x.1, mem_reported.mp (mem_of_mem_firsts hx)⟩
  · intro x hx hash hagrees
    obtain ⟨data, hdata, rfl⟩ := Option.map_eq_some_iff.mp hagrees
    have hvoter : (x.1, data) ∈ reported arrData := mem_reported.mpr (hdata ▸ hx)
    rw [map_hash_tallies, key_mem_map_firsts]
    exact List.mem_map.mpr ⟨_, hvoter, rfl⟩

/-- The `reduce` of `_majority` returns what it started with or one of the classes. -/
theorem heaviest_mem (objHashes : List Tally) (best : ℚ × Option Content) :
    heaviest objHashes best = best ∨
      ∃ t ∈ objHashes, best.1 < t.count ∧ heaviest objHashes best = (t.count, some t.value) := by
  induction objHashes generalizing best with
  | nil => exact Or.inl rfl
  | cons t rest ih =>
    rw [heaviest]
    by_cases hgt : t.count > best.1
    · rw [if_pos hgt]
      rcases ih (t.count, some t.value) with heq | ⟨t', ht', hlt, heq⟩
      · exact Or.inr ⟨t, List.mem_cons_self, hgt, heq⟩
      · exact Or.inr ⟨t', List.mem_cons_of_mem t ht', lt_trans hgt hlt, heq⟩
    · rw [if_neg hgt]
      rcases ih best with heq | ⟨t', ht', hlt, heq⟩
      · exact Or.inl heq
      · exact Or.inr ⟨t', List.mem_cons_of_mem t ht', hlt, heq⟩

/-- A majority value was said by someone, and its class weighs a quorum. -/
theorem majority_eq_some {c : ConciliumDefinition} {arrData : List (Address × Option Content)}
    {value : Content} (h : majority c arrData = some value) :
    (∃ addr, (addr, some value) ∈ arrData) ∧ 0 < support c value.calcDataHash arrData ∧
      c.getQuorum ≤ support c value.calcDataHash arrData := by
  have hcounts := countsFor_countVotes c arrData
  simp only [majority] at h
  split at h
  next hquorum =>
    rcases heaviest_mem (countVotes c arrData []) (0, none) with heq | ⟨t, ht, hpos, heq⟩
    · rw [heq] at h
      exact absurd h (by simp)
    · rw [heq] at h hquorum
      obtain rfl : t.value = value := by simpa using h
      obtain ⟨hhash, hsaid⟩ := hcounts.value_mem t ht
      rw [hhash, ← hcounts.count_eq t ht]
      exact ⟨hsaid, hpos, hquorum⟩
  next => exact absurd h (by simp)

end CilCore
