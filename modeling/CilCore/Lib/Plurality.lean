import CilCore.Lib.WeightedQuorum
import Mathlib.Algebra.Order.BigOperators.Group.List
import Mathlib.Data.List.MinMax
import Mathlib.Data.List.Nodup

/-!
# Weighted plurality

Voters fall into classes by a key. The winner is the first voter of a class of maximal
weight, if that weight reaches a quorum. Whether there is one depends on the weights of the
classes only, and where the quorum exceeds half of all weight, so does the winner's class.
-/

namespace Plurality

open WeightedQuorum

variable {α κ : Type} [DecidableEq κ] (key : α → κ)

/-- The first voter of each class. -/
def firsts : List α → List α
  | [] => []
  | a :: rest => a :: (firsts rest).filter fun b => key b ≠ key a

section Firsts

variable {key} {voters : List α} {a : α}

/-- A voter that comes first of its class has nobody of its class before it. -/
theorem exists_split_of_mem_firsts (h : a ∈ firsts key voters) :
    ∃ before after, voters = before ++ a :: after ∧ ∀ b ∈ before, key b ≠ key a := by
  induction voters with
  | nil => cases h
  | cons head rest ih =>
      rw [firsts, List.mem_cons] at h
      rcases h with rfl | h
      · exact ⟨[], rest, rfl, by simp⟩
      · obtain ⟨hmem, hkey⟩ := List.mem_filter.mp h
        obtain ⟨before, after, rfl, hbefore⟩ := ih hmem
        refine ⟨head :: before, after, rfl, ?_⟩
        intro b hb
        rcases List.mem_cons.mp hb with rfl | hb
        · exact fun heq => of_decide_eq_true hkey heq.symm
        · exact hbefore b hb

theorem mem_of_mem_firsts (h : a ∈ firsts key voters) : a ∈ voters := by
  obtain ⟨before, after, rfl, -⟩ := exists_split_of_mem_firsts h
  simp

/-- Every class has a first voter. -/
theorem exists_mem_firsts (h : a ∈ voters) : ∃ b ∈ firsts key voters, key b = key a := by
  induction voters with
  | nil => cases h
  | cons head rest ih =>
      by_cases hkey : key head = key a
      · exact ⟨head, List.mem_cons_self, hkey⟩
      · rcases List.mem_cons.mp h with rfl | h
        · exact absurd rfl hkey
        · obtain ⟨b, hb, hba⟩ := ih h
          refine ⟨b, List.mem_cons_of_mem _ (List.mem_filter.mpr ⟨hb, ?_⟩), hba⟩
          exact decide_eq_true fun heq => hkey (heq.symm.trans hba)

theorem key_mem_map_firsts {k : κ} :
    k ∈ (firsts key voters).map key ↔ k ∈ voters.map key := by
  simp only [List.mem_map]
  constructor
  · rintro ⟨a, ha, rfl⟩
    exact ⟨a, mem_of_mem_firsts ha, rfl⟩
  · rintro ⟨a, ha, rfl⟩
    exact exists_mem_firsts ha

/-- Each class has one first voter. -/
theorem nodup_map_firsts : ((firsts key voters).map key).Nodup := by
  induction voters with
  | nil => exact List.nodup_nil
  | cons head rest ih =>
      rw [firsts, List.map_cons, List.nodup_cons]
      refine ⟨?_, ih.sublist (List.filter_sublist.map key)⟩
      intro hmem
      obtain ⟨b, hb, hkey⟩ := List.mem_map.mp hmem
      exact of_decide_eq_true (List.mem_filter.mp hb).2 hkey

/-- One more voter comes first of its class unless the class has voted before. -/
theorem firsts_append_singleton (voters : List α) (a : α) :
    firsts key (voters ++ [a]) =
      if key a ∈ voters.map key then firsts key voters else firsts key voters ++ [a] := by
  induction voters with
  | nil => simp [firsts]
  | cons head rest ih =>
      rw [List.cons_append, firsts, ih, firsts, List.map_cons]
      by_cases hhead : key a = key head
      · rw [if_pos (List.mem_cons.mpr (.inl hhead))]
        split
        next => rfl
        next => simp [hhead]
      · simp only [List.mem_cons, hhead, false_or]
        split
        next => rfl
        next => simp [hhead]

end Firsts

variable {R : Type} [AddCommGroup R]

/-- The weight of a class. -/
def classWeight (w : α → R) (voters : List α) (k : κ) : R :=
  weightOf w (fun a => key a = k) voters

theorem classWeight_eq_zero {key} {w : α → R} {voters : List α} {k : κ}
    (h : k ∉ voters.map key) : classWeight key w voters k = 0 :=
  weightOf_eq_zero w _ fun _ ha hkey => h (List.mem_map.mpr ⟨_, ha, hkey⟩)

theorem classWeight_perm {key} {w : α → R} {voters voters' : List α}
    (h : voters.Perm voters') (k : κ) :
    classWeight key w voters k = classWeight key w voters' k :=
  weightOf_perm w _ h

theorem classWeight_cons (w : α → R) (a : α) (voters : List α) (k : κ) :
    classWeight key w (a :: voters) k =
      (if key a = k then w a else 0) + classWeight key w voters k := rfl

/-- One more voter adds its weight to its own class. -/
theorem classWeight_append_singleton (w : α → R) (voters : List α) (a : α) (k : κ) :
    classWeight key w (voters ++ [a]) k =
      classWeight key w voters k + if key a = k then w a else 0 := by
  simp [classWeight, weightOf_append]

variable [LinearOrder R]

/-- The first voter of a class of maximal weight, if it reaches the quorum. -/
def winner (w : α → R) (quorum : R) (voters : List α) : Option α :=
  ((firsts key voters).argmax fun a => classWeight key w voters (key a)).filter fun a =>
    quorum ≤ classWeight key w voters (key a)

section Winner

variable {key} {w : α → R} {quorum : R} {voters voters' : List α} {a : α}

/-- The first maximum over the first voters is one over all voters. -/
theorem classWeight_le_of_argmax {b : α}
    (h : (firsts key voters).argmax (fun a => classWeight key w voters (key a)) = some a)
    (hb : b ∈ voters) : classWeight key w voters (key b) ≤ classWeight key w voters (key a) := by
  have hclass : ∃ first ∈ firsts key voters, key first = key b := exists_mem_firsts hb
  obtain ⟨first, hfirst, hkey⟩ := hclass
  rw [← hkey]
  exact List.le_of_mem_argmax (f := fun a => classWeight key w voters (key a)) hfirst h

/-- What is known of a winner. -/
theorem winner_eq_some (h : winner key w quorum voters = some a) :
    a ∈ firsts key voters ∧ quorum ≤ classWeight key w voters (key a) ∧
      ∀ b ∈ voters, classWeight key w voters (key b) ≤ classWeight key w voters (key a) := by
  obtain ⟨hmax, hquorum⟩ := Option.filter_eq_some_iff.mp h
  exact ⟨List.argmax_mem hmax, of_decide_eq_true hquorum,
    fun b hb => classWeight_le_of_argmax hmax hb⟩

/-- There is a winner exactly if some voter's class reaches the quorum. -/
theorem isSome_winner_iff :
    (winner key w quorum voters).isSome = true ↔
      ∃ a ∈ voters, quorum ≤ classWeight key w voters (key a) := by
  constructor
  · intro h
    obtain ⟨a, ha⟩ := Option.isSome_iff_exists.mp h
    obtain ⟨hmem, hquorum, -⟩ := winner_eq_some ha
    exact ⟨a, mem_of_mem_firsts hmem, hquorum⟩
  · rintro ⟨a, ha, hquorum⟩
    cases hmax : (firsts key voters).argmax fun a => classWeight key w voters (key a) with
    | none =>
        have hclass : ∃ first ∈ firsts key voters, key first = key a := exists_mem_firsts ha
        obtain ⟨first, hfirst, -⟩ := hclass
        rw [List.argmax_eq_none.mp hmax] at hfirst
        cases hfirst
    | some best =>
        have hreach := hquorum.trans (classWeight_le_of_argmax hmax ha)
        rw [winner, hmax, Option.filter_some, if_pos (decide_eq_true hreach)]
        rfl

variable [IsOrderedAddMonoid R]

/-- A class weighs at least as much as each of its voters. -/
theorem le_classWeight (hw : ∀ b ∈ voters, 0 ≤ w b) (ha : a ∈ voters) :
    w a ≤ classWeight key w voters (key a) := by
  have hmem : w a ∈ voters.map fun b => if key b = key a then w b else 0 :=
    List.mem_map.mpr ⟨a, ha, if_pos rfl⟩
  refine List.single_le_sum ?_ _ hmem
  intro x hx
  obtain ⟨b, hb, rfl⟩ := List.mem_map.mp hx
  split
  next => exact hw b hb
  next => exact le_rfl

/-- Two classes that outweigh the electorate are one class. -/
theorem class_unique (hw : ∀ a ∈ voters, 0 ≤ w a)
    (hquorum : weightOf w (fun _ => True) voters < quorum + quorum) {k k' : κ}
    (hk : quorum ≤ classWeight key w voters k) (hk' : quorum ≤ classWeight key w voters k') :
    k = k' := by
  obtain ⟨a, -, ha, ha'⟩ := exists_common hw (hquorum.trans_le (add_le_add hk hk'))
  exact ha.symm.trans ha'

/-- With a quorum of more than half of all weight the order of the voters does not decide
which class wins. -/
theorem winner_perm (hw : ∀ a ∈ voters, 0 ≤ w a)
    (hquorum : weightOf w (fun _ => True) voters < quorum + quorum)
    (hperm : voters'.Perm voters) :
    (winner key w quorum voters').map key = (winner key w quorum voters).map key := by
  have hsome : (winner key w quorum voters').isSome = true ↔
      (winner key w quorum voters).isSome = true := by
    rw [isSome_winner_iff, isSome_winner_iff]
    simp only [hperm.mem_iff, classWeight_perm hperm]
  cases h' : winner key w quorum voters' with
  | none =>
      cases h : winner key w quorum voters with
      | none => rfl
      | some a => simp [h, h'] at hsome
  | some a' =>
      cases h : winner key w quorum voters with
      | none => simp [h, h'] at hsome
      | some a =>
          obtain ⟨-, hreach, -⟩ := winner_eq_some h
          obtain ⟨-, hreach', -⟩ := winner_eq_some h'
          rw [classWeight_perm hperm] at hreach'
          rw [Option.map_some, Option.map_some, class_unique hw hquorum hreach' hreach]

end Winner

end Plurality
