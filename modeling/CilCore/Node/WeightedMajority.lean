import CilCore.Lib.Plurality
import CilCore.Node.BftConsensus

/-!
# What `_majority` computes

`_majority` counts values by their `_calcDataHash` in one pass, and then looks for the
greatest count. For any positive weights this is a plurality vote in which values are in
one class if they are equal up to their inner signature.
-/

namespace CilCore

open WeightedQuorum Plurality

/-- The first loop of `_majority`, for any weights of the witnesses. -/
def tallyVotes (weight : Address → ℚ) :
    List (Address × Option Content) → List Tally → List Tally
  | [], objHashes => objHashes
  | (_, none) :: rest, objHashes => tallyVotes weight rest objHashes
  | (addr, some data) :: rest, objHashes =>
      tallyVotes weight rest (addVote data.calcDataHash (weight addr) data objHashes)

/-- `_majority`, for any weights of the witnesses and any quorum. -/
def majorityOf (weight : Address → ℚ) (quorum : ℚ) (arrData : List (Address × Option Content)) :
    Option Content :=
  let best := heaviest (tallyVotes weight arrData []) (0, none)
  if best.1 ≥ quorum then best.2 else none

theorem countVotes_eq_tallyVotes (c : ConciliumDefinition)
    (arrData : List (Address × Option Content)) (objHashes : List Tally) :
    countVotes c arrData objHashes = tallyVotes c.weight arrData objHashes := by
  induction arrData generalizing objHashes with
  | nil => rfl
  | cons x rest ih =>
      obtain ⟨addr, said⟩ := x
      cases said with
      | none => exact ih objHashes
      | some data => exact ih _

/-- A concilium counts with the weights of its members. -/
theorem majority_eq_majorityOf (c : ConciliumDefinition)
    (arrData : List (Address × Option Content)) :
    majority c arrData = majorityOf c.weight c.getQuorum arrData := by
  rw [majority, majorityOf, countVotes_eq_tallyVotes]

/-! ### Voters -/

/-- The witnesses that reported a value. -/
def reported (arrData : List (Address × Option Content)) : List (Address × Content) :=
  arrData.filterMap fun x => x.2.map (Prod.mk x.1)

@[simp] theorem reported_cons_none (addr : Address) (rest : List (Address × Option Content)) :
    reported ((addr, none) :: rest) = reported rest := rfl

@[simp] theorem reported_cons_some (addr : Address) (data : Content)
    (rest : List (Address × Option Content)) :
    reported ((addr, some data) :: rest) = (addr, data) :: reported rest := rfl

/-- The class of a vote. -/
def voteClass (x : Address × Content) : Content := x.2.calcDataHash

/-- The count of a class, as it stands in `objHashes` beside its first value. -/
def tallyOf (weight : Address → ℚ) (voters : List (Address × Content)) (x : Address × Content) :
    Tally :=
  ⟨voteClass x, classWeight voteClass (fun x => weight x.1) voters (voteClass x), x.2⟩

section Tally

variable {weight : Address → ℚ} {voters : List (Address × Content)}

@[simp] theorem tallyOf_hash (x : Address × Content) :
    (tallyOf weight voters x).hash = voteClass x := rfl

@[simp] theorem tallyOf_value (x : Address × Content) : (tallyOf weight voters x).value = x.2 := rfl

/-- A class that is counted already gets the weight. -/
theorem addVote_of_mem {hash data : Content} {added : ℚ} {objHashes : List Tally}
    (hnodup : (objHashes.map (·.hash)).Nodup) (hmem : hash ∈ objHashes.map (·.hash)) :
    addVote hash added data objHashes =
      objHashes.map fun t => if t.hash = hash then { t with count := t.count + added } else t := by
  induction objHashes with
  | nil => cases hmem
  | cons t rest ih =>
      rw [List.map_cons, List.nodup_cons] at hnodup
      rw [List.map_cons, List.mem_cons] at hmem
      rw [addVote, List.map_cons]
      by_cases ht : t.hash = hash
      · have hrest : ∀ t' ∈ rest,
            (if t'.hash = hash then { t' with count := t'.count + added } else t') = id t' := by
          intro t' ht'
          apply if_neg
          intro heq
          exact hnodup.1 (List.mem_map.mpr ⟨t', ht', heq.trans ht.symm⟩)
        rw [if_pos ht, if_pos ht, List.map_congr_left hrest, List.map_id]
      · rw [if_neg ht, if_neg ht, ih hnodup.2 (hmem.resolve_left fun heq => ht heq.symm)]

/-- A new class comes last. -/
theorem addVote_of_notMem {hash data : Content} {added : ℚ} {objHashes : List Tally}
    (hnew : hash ∉ objHashes.map (·.hash)) :
    addVote hash added data objHashes = objHashes ++ [⟨hash, added, data⟩] := by
  induction objHashes with
  | nil => rfl
  | cons t rest ih =>
      rw [List.map_cons, List.mem_cons, not_or] at hnew
      rw [addVote, if_neg fun heq => hnew.1 heq.symm, ih hnew.2, List.cons_append]

theorem map_hash_tallies (xs : List (Address × Content)) :
    (xs.map (tallyOf weight voters)).map (·.hash) = xs.map voteClass := by
  rw [List.map_map]
  rfl

/-- Counting one vote keeps the counts right. -/
theorem addVote_tallies (weight : Address → ℚ) (voters : List (Address × Content))
    (x : Address × Content) :
    addVote x.2.calcDataHash (weight x.1) x.2
        ((firsts voteClass voters).map (tallyOf weight voters)) =
      (firsts voteClass (voters ++ [x])).map (tallyOf weight (voters ++ [x])) := by
  have hstep : ∀ y : Address × Content, tallyOf weight (voters ++ [x]) y =
      if voteClass y = voteClass x then
        { tallyOf weight voters y with count := (tallyOf weight voters y).count + weight x.1 }
      else tallyOf weight voters y := by
    intro y
    rw [tallyOf, classWeight_append_singleton]
    by_cases hclass : voteClass y = voteClass x
    · rw [if_pos hclass, if_pos hclass.symm]
      rfl
    · rw [if_neg hclass, if_neg fun heq => hclass heq.symm, add_zero]
      rfl
  rw [firsts_append_singleton]
  by_cases hmem : voteClass x ∈ voters.map voteClass
  · rw [if_pos hmem, addVote_of_mem, List.map_map]
    · apply List.map_congr_left
      intro y _
      exact (hstep y).symm
    · rw [map_hash_tallies]
      exact nodup_map_firsts
    · rw [map_hash_tallies]
      exact key_mem_map_firsts.mpr hmem
  · rw [if_neg hmem, addVote_of_notMem, List.map_append]
    · congr 1
      · apply List.map_congr_left
        intro y hy
        rw [hstep, if_neg]
        intro heq
        exact hmem (heq ▸ List.mem_map_of_mem (mem_of_mem_firsts hy))
      · rw [List.map_singleton, hstep, if_pos rfl, tallyOf, classWeight_eq_zero hmem, zero_add]
        rfl
    · rw [map_hash_tallies, key_mem_map_firsts]
      exact hmem

/-- The first loop of `_majority` counts every class, in the order of their first values. -/
theorem tallyVotes_eq (voters : List (Address × Content))
    (arrData : List (Address × Option Content)) :
    tallyVotes weight arrData ((firsts voteClass voters).map (tallyOf weight voters)) =
      (firsts voteClass (voters ++ reported arrData)).map
        (tallyOf weight (voters ++ reported arrData)) := by
  induction arrData generalizing voters with
  | nil => simp [tallyVotes, reported]
  | cons x rest ih =>
      obtain ⟨addr, said⟩ := x
      cases said with
      | none => exact ih voters
      | some data =>
          have hvote := addVote_tallies weight voters (addr, data)
          rw [tallyVotes, hvote, ih, List.append_assoc]
          rfl

theorem tallyVotes_nil (arrData : List (Address × Option Content)) :
    tallyVotes weight arrData [] =
      (firsts voteClass (reported arrData)).map (tallyOf weight (reported arrData)) :=
  tallyVotes_eq [] arrData

end Tally

/-! ### The greatest count -/

section Heaviest

variable {α : Type} {tally : α → Tally}

theorem heaviest_append_singleton (objHashes : List Tally) (t : Tally) (best : ℚ × Option Content) :
    heaviest (objHashes ++ [t]) best =
      if t.count > (heaviest objHashes best).1 then (t.count, some t.value)
      else heaviest objHashes best := by
  induction objHashes generalizing best with
  | nil => rfl
  | cons t' rest ih => exact ih _

/-- The `reduce` of `_majority` finds the first of the greatest counts. -/
theorem heaviest_map (xs : List α) (hpos : ∀ x ∈ xs, 0 < (tally x).count) :
    heaviest (xs.map tally) (0, none) =
      ((xs.argmax fun x => (tally x).count).map fun x =>
        ((tally x).count, some (tally x).value)).getD (0, none) := by
  induction xs using List.reverseRecOn with
  | nil => rfl
  | append_singleton rest x ih =>
      have hrest := ih fun y hy => hpos y (List.mem_append_left _ hy)
      rw [List.map_append, List.map_singleton, heaviest_append_singleton, hrest,
        List.argmax_concat]
      cases hmax : rest.argmax fun x => (tally x).count with
      | none =>
          apply if_pos
          exact hpos x (List.mem_append_right _ (List.mem_singleton.mpr rfl))
      | some best =>
          dsimp only [Option.map_some, Option.getD_some]
          split
          next => rfl
          next => rfl

end Heaviest

/-- `_majority` returns the winner of the vote. -/
theorem majorityOf_eq_winner {weight : Address → ℚ} {arrData : List (Address × Option Content)}
    (quorum : ℚ) (hweight : ∀ x ∈ reported arrData, 0 < weight x.1) :
    majorityOf weight quorum arrData =
      (winner voteClass (fun x => weight x.1) quorum (reported arrData)).map (·.2) := by
  have hcount : ∀ x ∈ firsts voteClass (reported arrData),
      0 < (tallyOf weight (reported arrData) x).count := by
    intro x hx
    have hmem := mem_of_mem_firsts hx
    exact (hweight x hmem).trans_le (le_classWeight (fun y hy => (hweight y hy).le) hmem)
  have hwinner : winner voteClass (fun x => weight x.1) quorum (reported arrData) =
      ((firsts voteClass (reported arrData)).argmax fun x =>
        (tallyOf weight (reported arrData) x).count).filter fun x =>
          quorum ≤ (tallyOf weight (reported arrData) x).count := rfl
  rw [majorityOf, tallyVotes_nil, heaviest_map _ hcount, hwinner]
  cases (firsts voteClass (reported arrData)).argmax fun x =>
      (tallyOf weight (reported arrData) x).count with
  | none => simp
  | some x =>
      rw [Option.map_some, Option.getD_some, Option.filter_some]
      by_cases hreach : quorum ≤ (tallyOf weight (reported arrData) x).count
      · rw [if_pos (decide_eq_true hreach)]
        exact if_pos hreach
      · rw [decide_eq_false hreach, if_neg Bool.false_ne_true, Option.map_none]
        exact if_neg hreach

/-! ### Exactness -/

/-- Equal up to the inner signature. -/
def Content.EqUpToSignature (data data' : Content) : Prop :=
  data.state = data'.state ∧ data.roundNo = data'.roundNo ∧ data.blockHash = data'.blockHash

instance : DecidableRel Content.EqUpToSignature := fun _ _ => inferInstanceAs (Decidable (_ ∧ _))

/-- `_calcDataHash` distinguishes just the values that are not equal up to their signature. -/
theorem Content.calcDataHash_eq_iff {data data' : Content} :
    data.calcDataHash = data'.calcDataHash ↔ data.EqUpToSignature data' := by
  cases data <;> cases data' <;> simp [calcDataHash, EqUpToSignature, state, roundNo, blockHash]

/-- A witness reported the value, or one that is equal to it up to its signature. -/
def Reports (value : Content) (x : Address × Option Content) : Prop :=
  ∃ data ∈ x.2, data.EqUpToSignature value

instance (value : Content) : DecidablePred (Reports value) := fun x =>
  inferInstanceAs (Decidable (∃ data ∈ x.2, _))

/-- The weight of the witnesses that reported a value. -/
def reportedWeight (weight : Address → ℚ) (arrData : List (Address × Option Content))
    (value : Content) : ℚ :=
  weightOf (fun x => weight x.1) (Reports value) arrData

/-- The class of a value is what its witnesses reported. -/
theorem reportedWeight_eq (weight : Address → ℚ) (arrData : List (Address × Option Content))
    (value : Content) :
    reportedWeight weight arrData value =
      classWeight voteClass (fun x => weight x.1) (reported arrData) value.calcDataHash := by
  induction arrData with
  | nil => rfl
  | cons x rest ih =>
      rw [reportedWeight, weightOf_cons, ← reportedWeight, ih]
      obtain ⟨addr, said⟩ := x
      cases said with
      | none => simp [Reports]
      | some data =>
          simp [Reports, classWeight_cons, voteClass, Content.calcDataHash_eq_iff]

/-- The value stands in the list, and no value before it is equal up to its signature. -/
def FirstReported (arrData : List (Address × Option Content)) (value : Content) : Prop :=
  ∃ before addr after, arrData = before ++ (addr, some value) :: after ∧
    ∀ x ∈ before, ¬ Reports value x

/-- The first vote for a class is the first report of its value. -/
theorem firstReported_of_mem_firsts {arrData : List (Address × Option Content)}
    {x : Address × Content} (h : x ∈ firsts voteClass (reported arrData)) :
    FirstReported arrData x.2 := by
  obtain ⟨before, after, hsplit, hbefore⟩ := exists_split_of_mem_firsts h
  obtain ⟨pre, post, harr, hpre, hpost⟩ := List.filterMap_eq_append_iff.mp hsplit
  obtain ⟨skipped, y, post, rfl, hskipped, hy, -⟩ := List.filterMap_eq_cons_iff.mp hpost
  obtain ⟨data, hdata, rfl⟩ := Option.map_eq_some_iff.mp hy
  refine ⟨pre ++ skipped, y.1, post, ?_, ?_⟩
  · rw [harr, List.append_assoc, ← hdata]
  · intro z hz
    rintro ⟨value, hvalue, heq⟩
    rcases List.mem_append.mp hz with hz | hz
    · have hmem : (z.1, value) ∈ before := by
        rw [← hpre]
        exact List.mem_filterMap.mpr ⟨z, hz, by rw [hvalue]; rfl⟩
      exact hbefore _ hmem (Content.calcDataHash_eq_iff.mpr heq)
    · have hnone := hskipped z hz
      rw [hvalue] at hnone
      cases hnone

section Exact

variable {weight : Address → ℚ} {quorum : ℚ} {arrData arrData' : List (Address × Option Content)}

theorem reported_pos (hweight : ∀ x ∈ arrData, 0 < weight x.1) :
    ∀ x ∈ reported arrData, 0 < weight x.1 := by
  intro x hx
  obtain ⟨y, hy, hsome⟩ := List.mem_filterMap.mp hx
  obtain ⟨data, -, rfl⟩ := Option.map_eq_some_iff.mp hsome
  exact hweight y hy

/-- Those who reported a value weigh no more than all. -/
theorem weightOf_reported_le (hweight : ∀ x ∈ arrData, 0 < weight x.1) :
    weightOf (fun x => weight x.1) (fun _ => True) (reported arrData) ≤
      (arrData.map fun x => weight x.1).sum := by
  induction arrData with
  | nil => exact le_rfl
  | cons x rest ih =>
      have hrest := ih fun y hy => hweight y (List.mem_cons_of_mem _ hy)
      rw [List.map_cons, List.sum_cons]
      obtain ⟨addr, said⟩ := x
      cases said with
      | none =>
          exact hrest.trans (le_add_of_nonneg_left (hweight _ List.mem_cons_self).le)
      | some data => exact add_le_add (if_pos trivial).le hrest

/-- A value is returned exactly if the class of some value weighs a quorum. -/
theorem isSome_majorityOf_iff (hweight : ∀ x ∈ arrData, 0 < weight x.1) (hquorum : 0 < quorum) :
    (majorityOf weight quorum arrData).isSome = true ↔
      ∃ value, quorum ≤ reportedWeight weight arrData value := by
  rw [majorityOf_eq_winner quorum (reported_pos hweight), Option.isSome_map, isSome_winner_iff]
  simp only [reportedWeight_eq]
  constructor
  · rintro ⟨x, -, hreach⟩
    exact ⟨x.2, hreach⟩
  · rintro ⟨value, hreach⟩
    by_cases hmem : value.calcDataHash ∈ (reported arrData).map voteClass
    · obtain ⟨x, hx, hclass⟩ := List.mem_map.mp hmem
      exact ⟨x, hx, hclass ▸ hreach⟩
    · rw [classWeight_eq_zero hmem] at hreach
      exact absurd hreach (not_le.mpr hquorum)

/-- The returned value is the first one of a class of maximal weight. -/
theorem majorityOf_eq_some (hweight : ∀ x ∈ arrData, 0 < weight x.1) {value : Content}
    (h : majorityOf weight quorum arrData = some value) :
    FirstReported arrData value ∧ quorum ≤ reportedWeight weight arrData value ∧
      ∀ value', reportedWeight weight arrData value' ≤ reportedWeight weight arrData value := by
  rw [majorityOf_eq_winner quorum (reported_pos hweight)] at h
  obtain ⟨x, hwinner, rfl⟩ := Option.map_eq_some_iff.mp h
  obtain ⟨hfirst, hreach, hmax⟩ := winner_eq_some hwinner
  simp only [reportedWeight_eq]
  refine ⟨firstReported_of_mem_firsts hfirst, hreach, ?_⟩
  intro value'
  by_cases hmem : value'.calcDataHash ∈ (reported arrData).map voteClass
  · obtain ⟨y, hy, hclass⟩ := List.mem_map.mp hmem
    exact hclass ▸ hmax y hy
  · rw [classWeight_eq_zero hmem]
    have hpos := reported_pos hweight
    have hx := mem_of_mem_firsts hfirst
    exact (hpos x hx).le.trans (le_classWeight (fun y hy => (hpos y hy).le) hx)

theorem weightOf_lt_of_half_lt (hweight : ∀ x ∈ arrData, 0 < weight x.1)
    (hhalf : (arrData.map fun x => weight x.1).sum / 2 < quorum) :
    weightOf (fun x => weight x.1) (fun _ => True) (reported arrData) < quorum + quorum := by
  have hle := weightOf_reported_le hweight
  linarith

/-- No two classes weigh a quorum of more than half. -/
theorem reportedWeight_unique (hweight : ∀ x ∈ arrData, 0 < weight x.1)
    (hhalf : (arrData.map fun x => weight x.1).sum / 2 < quorum) {value value' : Content}
    (hreach : quorum ≤ reportedWeight weight arrData value)
    (hreach' : quorum ≤ reportedWeight weight arrData value') : value.EqUpToSignature value' := by
  rw [reportedWeight_eq] at hreach hreach'
  exact Content.calcDataHash_eq_iff.mp (class_unique (fun x hx => (reported_pos hweight x hx).le)
    (weightOf_lt_of_half_lt hweight hhalf) hreach hreach')

/-- A quorum of more than half picks its class whatever the order of the list. -/
theorem majorityOf_perm (hweight : ∀ x ∈ arrData, 0 < weight x.1)
    (hhalf : (arrData.map fun x => weight x.1).sum / 2 < quorum) (hperm : arrData'.Perm arrData) :
    Option.Rel Content.EqUpToSignature (majorityOf weight quorum arrData')
      (majorityOf weight quorum arrData) := by
  have hweight' : ∀ x ∈ arrData', 0 < weight x.1 := fun x hx => hweight x (hperm.subset hx)
  have hclass : (winner voteClass (fun x => weight x.1) quorum (reported arrData')).map voteClass =
      (winner voteClass (fun x => weight x.1) quorum (reported arrData)).map voteClass :=
    winner_perm (fun x hx => (reported_pos hweight x hx).le)
      (weightOf_lt_of_half_lt hweight hhalf) (hperm.filterMap _)
  rw [majorityOf_eq_winner quorum (reported_pos hweight),
    majorityOf_eq_winner quorum (reported_pos hweight')]
  cases h' : winner voteClass (fun x => weight x.1) quorum (reported arrData') with
  | none =>
      rw [h', Option.map_none] at hclass
      rw [Option.map_eq_none_iff.mp hclass.symm]
      exact .none
  | some x' =>
      rw [h', Option.map_some] at hclass
      obtain ⟨x, hx, heq⟩ := Option.map_eq_some_iff.mp hclass.symm
      rw [hx]
      exact .some (Content.calcDataHash_eq_iff.mp heq.symm)

end Exact

/-- Two of three witnesses vote for one block, with signatures of their own; the third one is
silent. -/
def twoVotes : List (Address × Option Content) :=
  [(1, some (.vote (some (.hash 7)) (some 10))), (2, none),
    (3, some (.vote (some (.hash 7)) (some 30)))]

end CilCore
