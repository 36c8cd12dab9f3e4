import Mathlib.Data.List.Induction
import Mathlib.Data.List.Pairwise
import Mathlib.Order.Lattice

/-!
# Greedy selection

Items are taken in order of rank, each unless it clashes with one that was taken
before it. Items of one rank may come in any order. The selection does not depend
on that order exactly when the items of higher ranks settle, rank by rank, which
items remain and those of one rank do not clash with each other.
-/

namespace CilCore.Greedy

variable {α R : Type*} [LinearOrder R]

open Classical in
/-- Take each item in turn, unless it is unsound or clashes with one taken before. -/
noncomputable def select (sound : α → Prop) (clash : α → α → Prop) : List α → List α → List α
  | kept, [] => kept
  | kept, t :: rest =>
      if sound t ∧ ∀ s ∈ kept, ¬ clash t s then select sound clash (kept ++ [t]) rest
      else select sound clash kept rest

/-- An order in which the items of a list may be taken. -/
structure Enumerates (rank : α → R) (items order : List α) : Prop where
  perm : order.Perm items
  sorted : order.Pairwise fun s t => rank t ≤ rank s

/-- What is left of the items when each rank settles the ranks below it. -/
structure Kernel (sound : α → Prop) (clash : α → α → Prop) (rank : α → R) (items : List α)
    (kernel : Set α) : Prop where
  mem : ∀ t, t ∈ kernel ↔ t ∈ items ∧ sound t ∧
    ∀ s ∈ kernel, rank t < rank s → ¬ clash t s
  tieFree : ∀ s ∈ kernel, ∀ t ∈ kernel, s ≠ t → rank s = rank t → ¬ clash s t

section Select

variable {sound : α → Prop} {clash : α → α → Prop}

theorem select_append (kept first second : List α) :
    select sound clash kept (first ++ second) =
      select sound clash (select sound clash kept first) second := by
  induction first generalizing kept with
  | nil => rfl
  | cons t rest ih =>
      rw [List.cons_append, select, select]
      split
      next => exact ih _
      next => exact ih _

theorem mem_select_of_mem {kept items : List α} {t : α} (h : t ∈ kept) :
    t ∈ select sound clash kept items := by
  induction items generalizing kept with
  | nil => exact h
  | cons s rest ih =>
      rw [select]
      split
      next => exact ih (List.mem_append_left _ h)
      next => exact ih h

/-- What is selected was kept before or is one of the items. -/
theorem mem_or_mem_of_mem_select {kept items : List α} {t : α}
    (h : t ∈ select sound clash kept items) : t ∈ kept ∨ t ∈ items := by
  induction items generalizing kept with
  | nil => exact .inl h
  | cons s rest ih =>
      rw [select] at h
      split at h
      next =>
        rcases ih h with hkept | hrest
        · rcases List.mem_append.mp hkept with hkept | hlast
          · exact .inl hkept
          · exact .inr (List.mem_cons.mpr (.inl (List.mem_singleton.mp hlast)))
        · exact .inr (List.mem_cons_of_mem _ hrest)
      next => exact (ih h).imp_right (List.mem_cons_of_mem _)

/-- The selected items are sound and do not clash with each other. -/
theorem select_pairwise (hsymm : ∀ s t, clash s t → clash t s) {kept : List α} (items : List α)
    (hkept : (∀ t ∈ kept, sound t) ∧ kept.Pairwise fun s t => ¬ clash s t) :
    (∀ t ∈ select sound clash kept items, sound t) ∧
      (select sound clash kept items).Pairwise fun s t => ¬ clash s t := by
  induction items generalizing kept with
  | nil => exact hkept
  | cons t rest ih =>
      rw [select]
      split
      next hfree =>
        refine ih ⟨fun s hs => ?_, List.pairwise_append.mpr ⟨hkept.2, by simp, fun s hs u hu => ?_⟩⟩
        · rcases List.mem_append.mp hs with hs | hs
          · exact hkept.1 s hs
          · rw [List.mem_singleton.mp hs]
            exact hfree.1
        · rw [List.mem_singleton.mp hu]
          exact fun hclash => hfree.2 s hs (hsymm s t hclash)
      next => exact ih hkept

/-- The first sound item is always selected. -/
theorem select_eq_nil_iff {items : List α} :
    select sound clash [] items = [] ↔ ∀ t ∈ items, ¬ sound t := by
  constructor
  · intro h t ht hsound
    obtain ⟨before, after, rfl⟩ := List.append_of_mem ht
    rw [select_append] at h
    cases hbefore : select sound clash [] before with
    | nil =>
        rw [hbefore, select, if_pos ⟨hsound, by simp⟩] at h
        exact List.ne_nil_of_mem (mem_select_of_mem (List.mem_singleton_self t)) h
    | cons s kept =>
        rw [hbefore] at h
        exact List.ne_nil_of_mem (mem_select_of_mem List.mem_cons_self) h
  · intro h
    induction items with
    | nil => rfl
    | cons t rest ih =>
        rw [select, if_neg fun hsound => h t List.mem_cons_self hsound.1]
        exact ih fun s hs => h s (List.mem_cons_of_mem _ hs)

end Select

section Kernel

variable {sound : α → Prop} {clash : α → α → Prop} {rank : α → R} {items order : List α}
  {kernel : Set α}

/-- Of the items seen so far those of the kernel were taken. Then so it goes with the
next item. -/
theorem Kernel.taken_iff (h : Kernel sound clash rank items kernel) (hitems : items.Nodup)
    {seen rest : List α} {s : α} (horder : Enumerates rank items (seen ++ s :: rest))
    (hseen : ∀ u, u ∈ select sound clash [] seen ↔ u ∈ seen ∧ u ∈ kernel) :
    (sound s ∧ ∀ u ∈ select sound clash [] seen, ¬ clash s u) ↔ s ∈ kernel := by
  obtain ⟨-, hrest, hhigher⟩ := List.pairwise_append.mp horder.sorted
  obtain ⟨-, -, hne⟩ := List.nodup_append.mp (horder.perm.nodup_iff.mpr hitems)
  have hs : s ∈ items := horder.perm.subset (by simp)
  constructor
  · rintro ⟨hsound, hfree⟩
    refine (h.mem s).mpr ⟨hs, hsound, fun u hu hlt => hfree u ((hseen u).mpr ⟨?_, hu⟩)⟩
    -- what ranks higher has been seen
    have hmem : u ∈ seen ++ s :: rest := horder.perm.symm.subset ((h.mem u).mp hu).1
    refine (List.mem_append.mp hmem).resolve_right fun hlater => ?_
    rcases List.mem_cons.mp hlater with rfl | hlater
    · exact lt_irrefl _ hlt
    · exact absurd ((List.pairwise_cons.mp hrest).1 u hlater) (not_le_of_gt hlt)
  · intro hmem
    obtain ⟨-, hsound, hfree⟩ := (h.mem s).mp hmem
    refine ⟨hsound, fun u hu => ?_⟩
    obtain ⟨huseen, hu⟩ := (hseen u).mp hu
    rcases lt_or_eq_of_le (hhigher u huseen s List.mem_cons_self) with hlt | heq
    · exact hfree u hu hlt
    · exact h.tieFree s hmem u hu (hne u huseen s List.mem_cons_self).symm heq

/-- Along any order exactly the kernel is taken. -/
theorem Kernel.mem_select (h : Kernel sound clash rank items kernel) (hitems : items.Nodup)
    (horder : Enumerates rank items order) {t : α} :
    t ∈ select sound clash [] order ↔ t ∈ kernel := by
  have hrun (seen rest : List α) (heq : order = seen ++ rest) (u : α) :
      u ∈ select sound clash [] seen ↔ u ∈ seen ∧ u ∈ kernel := by
    induction seen using List.reverseRecOn generalizing rest u with
    | nil => simp [select]
    | append_singleton seen s ih =>
        rw [List.append_assoc, List.singleton_append] at heq
        have hseen := ih (s :: rest) heq
        have htaken := h.taken_iff hitems (heq ▸ horder) hseen
        rw [select_append, select, select, select, List.mem_append, List.mem_singleton]
        split
        next hs =>
          rw [List.mem_append, List.mem_singleton, hseen, or_and_right]
          refine or_congr_right ⟨?_, And.left⟩
          rintro rfl
          exact ⟨rfl, htaken.mp hs⟩
        next hs =>
          rw [hseen, or_and_right, or_iff_left]
          rintro ⟨rfl, hmem⟩
          exact hs (htaken.mpr hmem)
  rw [hrun order [] (by simp)]
  refine and_iff_right_of_imp fun ht => ?_
  exact horder.perm.symm.subset ((h.mem t).mp ht).1

theorem exists_enumerates (rank : α → R) (items : List α) :
    ∃ order, Enumerates rank items order := by
  refine ⟨items.mergeSort fun s t => rank t ≤ rank s, List.mergeSort_perm .., ?_⟩
  refine (List.pairwise_mergeSort ?_ ?_ items).imp (fun hle => by simpa using hle)
  · intro s t u hst htu
    rw [decide_eq_true_eq] at hst htu ⊢
    exact htu.trans hst
  · intro s t
    rw [Bool.or_eq_true, decide_eq_true_eq, decide_eq_true_eq]
    exact le_total _ _

/-- Some order takes an item before the others of its rank. -/
theorem exists_first (rank : α → R) {t : α} (ht : t ∈ items) :
    ∃ before after, Enumerates rank items (before ++ t :: after) ∧
      ∀ s ∈ before, rank t < rank s := by
  obtain ⟨order, horder⟩ := exists_enumerates rank items
  -- the items of higher rank, then the item, then the others
  obtain ⟨before, after, heq⟩ := List.append_of_mem (horder.perm.symm.subset ht)
  have hsorted := horder.sorted
  rw [heq, List.pairwise_append, List.pairwise_cons] at hsorted
  obtain ⟨hbefore, ⟨hhead, hafter⟩, hacross⟩ := hsorted
  have hperm : (before.filter (fun s => rank t < rank s) ++
      before.filter (fun s => ¬ rank t < rank s)).Perm before := by
    simpa only [decide_not] using
      List.filter_append_perm (fun s => decide (rank t < rank s)) before
  have htie {s : α} (hs : s ∈ before.filter fun s => ¬ rank t < rank s) : rank s = rank t := by
    rw [List.mem_filter, decide_eq_true_eq, not_lt] at hs
    exact le_antisymm hs.2 (hacross s hs.1 t List.mem_cons_self)
  refine ⟨before.filter fun s => rank t < rank s,
    before.filter (fun s => ¬ rank t < rank s) ++ after, ⟨?_, ?_⟩, fun s hs => ?_⟩
  · refine List.Perm.trans ?_ horder.perm
    rw [heq]
    refine List.perm_middle.trans (List.Perm.trans ?_ List.perm_middle.symm)
    rw [List.perm_cons, ← List.append_assoc]
    exact hperm.append_right after
  · refine List.pairwise_append.mpr ⟨hbefore.filter _, List.pairwise_cons.mpr ⟨fun s hs => ?_,
      List.pairwise_append.mpr ⟨hbefore.filter _, hafter, fun s hs u hu => ?_⟩⟩, fun s hs u hu => ?_⟩
    · rcases List.mem_append.mp hs with hs | hs
      · exact (htie hs).le
      · exact hhead s hs
    · rw [htie hs]
      exact hhead u hu
    · have hlt : rank t < rank s := by simpa using (List.mem_filter.mp hs).2
      rcases List.mem_cons.mp hu with rfl | hu
      · exact hlt.le
      · rcases List.mem_append.mp hu with hu | hu
        · exact (htie hu).trans_le hlt.le
        · exact (hhead u hu).trans hlt.le
  · simpa using (List.mem_filter.mp hs).2

/-- When every order gives the same selection, it is a kernel. -/
theorem kernel_of_select (hsymm : ∀ s t, clash s t → clash t s) (hself : ∀ s, ¬ clash s s)
    (h : ∀ order, Enumerates rank items order → ∀ t, t ∈ select sound clash [] order ↔ t ∈ kernel) :
    Kernel sound clash rank items kernel := by
  obtain ⟨order, horder⟩ := exists_enumerates rank items
  have hnone : (∀ t ∈ [], sound t) ∧ [].Pairwise fun s t => ¬ clash s t := ⟨by simp, .nil⟩
  obtain ⟨hsound, hpairwise⟩ := select_pairwise hsymm order hnone
  have hfree (s : α) (hs : s ∈ kernel) (t : α) (ht : t ∈ kernel) : ¬ clash s t := by
    have hnot : Std.Symm fun s t => ¬ clash s t := ⟨fun x y hfree hclash => hfree (hsymm y x hclash)⟩
    exact hpairwise.forall_of_forall (fun x _ => hself x) ((h order horder s).mpr hs)
      ((h order horder t).mpr ht)
  refine ⟨fun t => ⟨fun ht => ?_, fun ⟨ht, hsound, hhigher⟩ => ?_⟩, fun s hs t ht _ _ => hfree s hs t ht⟩
  · have hselected := (h order horder t).mpr ht
    refine ⟨?_, hsound t hselected, fun s hs _ => hfree t ht s hs⟩
    have hmem := (mem_or_mem_of_mem_select hselected).resolve_left List.not_mem_nil
    exact horder.perm.subset hmem
  · -- an order in which the item comes first among those of its rank
    obtain ⟨before, after, hfirst, habove⟩ := exists_first rank ht
    rw [← h _ hfirst, select_append, select, if_pos]
    · exact mem_select_of_mem (by simp)
    · refine ⟨hsound, fun s hs => ?_⟩
      have hbefore := (mem_or_mem_of_mem_select hs).resolve_left List.not_mem_nil
      refine hhigher s ((h _ hfirst s).mp ?_) (habove s hbefore)
      rw [select_append]
      exact mem_select_of_mem hs

end Kernel

end CilCore.Greedy
