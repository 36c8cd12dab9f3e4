import Mathlib.Data.Finset.Basic
import Mathlib.Data.Finset.Card
import Mathlib.Data.List.Nodup
import Mathlib.Data.Multiset.DershowitzManna
import Mathlib.Logic.Relation

/-!
# Working off a queue of jobs that depend on others

The jobs are the vertices of a finite graph without cycles. Whoever takes a job from the
queue runs it if all its parents were run, and queues its children; otherwise it queues the
parents that were not run, and forgets the job. In whatever order jobs are taken, this comes
to an end, and then each job was run once and after its parents.
-/

namespace Worklist

variable {α : Type} {vertices : Finset α} {parent : α → α → Prop} {rank : α → ℕ} {x y : α}

/-- The jobs that are queued, and those that were run, in turn. -/
structure Backlog (α : Type) where
  queue : Finset α
  ran : List α

variable {p q : Backlog α}

/-- What may happen to a job that is taken. -/
inductive Turn (parent : α → α → Prop) (p : Backlog α) (x : α) : Backlog α → Prop
  | again (queue : Finset α) : x ∈ p.ran → (∀ y, y ∈ queue ↔ y ≠ x ∧ y ∈ p.queue) →
      Turn parent p x ⟨queue, p.ran⟩
  | run (queue : Finset α) : x ∉ p.ran → (∀ y, parent y x → y ∈ p.ran) →
      (∀ y, y ∈ queue ↔ y ≠ x ∧ (y ∈ p.queue ∨ parent x y)) →
      Turn parent p x ⟨queue, p.ran ++ [x]⟩
  | wait (queue : Finset α) : x ∉ p.ran → (∃ y, parent y x ∧ y ∉ p.ran) →
      (∀ y, y ∈ queue ↔ y ≠ x ∧ (y ∈ p.queue ∨ parent y x ∧ y ∉ p.ran)) →
      Turn parent p x ⟨queue, p.ran⟩

/-- A graph whose vertices are ranked above their parents. -/
structure Ranked (vertices : Finset α) (parent : α → α → Prop) (rank : α → ℕ) : Prop where
  mem : ∀ x y, parent y x → y ∈ vertices ∧ x ∈ vertices
  lt : ∀ x y, parent y x → rank y < rank x

/-- A graph without cycles is ranked by how many vertices are below each. -/
theorem exists_ranked (hmem : ∀ x y, parent y x → y ∈ vertices ∧ x ∈ vertices)
    (hacyclic : ∀ x, ¬ Relation.TransGen parent x x) :
    ∃ rank, Ranked vertices parent rank := by
  classical
  let below (x : α) : Finset α := vertices.filter fun y => Relation.TransGen parent y x
  refine ⟨fun x => (below x).card, hmem, fun x y hparent => Finset.card_lt_card ?_⟩
  rw [Finset.ssubset_iff_of_subset]
  · refine ⟨y, Finset.mem_filter.mpr ⟨(hmem x y hparent).1, .single hparent⟩, fun hy => ?_⟩
    exact hacyclic y (Finset.mem_filter.mp hy).2
  · intro z hz
    obtain ⟨hvertex, hbelow⟩ := Finset.mem_filter.mp hz
    exact Finset.mem_filter.mpr ⟨hvertex, hbelow.tail hparent⟩

/-- Jobs were run once and after their parents, and those that can be run are queued. -/
structure Sound (vertices : Finset α) (parent : α → α → Prop) (p : Backlog α) : Prop where
  queue_subset : ∀ x ∈ p.queue, x ∈ vertices
  ran_subset : ∀ x ∈ p.ran, x ∈ vertices
  nodup : p.ran.Nodup
  parentsFirst : ∀ before x after, p.ran = before ++ x :: after → ∀ y, parent y x → y ∈ before
  queued : ∀ x ∈ vertices, x ∉ p.ran → (∀ y, parent y x → y ∈ p.ran) → x ∈ p.queue

/-! ### One turn -/

theorem parentsFirst_concat
    (h : ∀ before x after, p.ran = before ++ x :: after → ∀ y, parent y x → y ∈ before)
    (hparents : ∀ y, parent y x → y ∈ p.ran) :
    ∀ before z after, p.ran ++ [x] = before ++ z :: after → ∀ y, parent y z → y ∈ before := by
  intro before z after heq y hy
  induction after using List.reverseRecOn with
  | nil =>
      obtain ⟨rfl, hlast⟩ := List.append_inj' heq rfl
      obtain rfl : x = z := by simpa using hlast
      exact hparents y hy
  | append_singleton after last =>
      rw [← List.cons_append, ← List.append_assoc] at heq
      obtain ⟨hran, -⟩ := List.append_inj' heq rfl
      exact h before z after hran y hy

theorem Sound.turn (h : Sound vertices parent p) (hgraph : Ranked vertices parent rank)
    (hx : x ∈ p.queue) (hturn : Turn parent p x q) : Sound vertices parent q := by
  cases hturn with
  | again queue hran hqueue =>
      refine ⟨fun y hy => ?_, h.ran_subset, h.nodup, h.parentsFirst, fun y hvertex hnot hready => ?_⟩
      · exact h.queue_subset y ((hqueue y).mp hy).2
      · refine (hqueue y).mpr ⟨?_, h.queued y hvertex hnot hready⟩
        rintro rfl
        exact hnot hran
  | run queue hnew hparents hqueue =>
      refine ⟨fun y hy => ?_, fun y hy => ?_, ?_, parentsFirst_concat h.parentsFirst hparents,
        fun y hvertex hnot hready => ?_⟩
      · rcases ((hqueue y).mp hy).2 with hold | hchild
        · exact h.queue_subset y hold
        · exact (hgraph.mem y x hchild).2
      · rcases List.mem_append.mp hy with hold | hlast
        · exact h.ran_subset y hold
        · exact List.mem_singleton.mp hlast ▸ h.queue_subset x hx
      · rw [← List.concat_eq_append]
        exact h.nodup.concat hnew
      · dsimp only at hnot hready ⊢
        rw [List.mem_append, not_or, List.mem_singleton] at hnot
        refine (hqueue y).mpr ⟨hnot.2, ?_⟩
        by_cases hchild : parent x y
        · exact .inr hchild
        · refine .inl (h.queued y hvertex hnot.1 fun z hz => ?_)
          rcases List.mem_append.mp (hready z hz) with hold | hlast
          · exact hold
          · exact absurd (List.mem_singleton.mp hlast ▸ hz) hchild
  | wait queue hnew hmissing hqueue =>
      refine ⟨fun y hy => ?_, h.ran_subset, h.nodup, h.parentsFirst, fun y hvertex hnot hready => ?_⟩
      · rcases ((hqueue y).mp hy).2 with hold | ⟨hparent, -⟩
        · exact h.queue_subset y hold
        · exact (hgraph.mem x y hparent).1
      · refine (hqueue y).mpr ⟨?_, .inl (h.queued y hvertex hnot hready)⟩
        rintro rfl
        obtain ⟨z, hz, hmissing⟩ := hmissing
        exact hmissing (hready z hz)

/-! ### The end -/

section Measure

variable [DecidableEq α]

/-- How many jobs are left, and the ranks of the queued ones. -/
def remaining (vertices : Finset α) (rank : α → ℕ) (p : Backlog α) : ℕ × Multiset ℕ :=
  ((vertices \ p.ran.toFinset).card, p.queue.val.map rank)

/-- A job is replaced by jobs of lower ranks. -/
theorem map_rank_lt {queue later : Finset α} (hx : x ∈ queue) (hnot : x ∉ later)
    (hlower : ∀ y ∈ later, y ∈ queue ∨ rank y < rank x) :
    Multiset.IsDershowitzMannaLT (later.val.map rank) (queue.val.map rank) := by
  refine ⟨((later ∩ queue).val.map rank), ((later \ queue).val.map rank),
    ((queue \ later).val.map rank), ?_, ?_, ?_, fun n hn => ?_⟩
  · intro hempty
    have hmem : x ∈ queue \ later := Finset.mem_sdiff.mpr ⟨hx, hnot⟩
    rw [Multiset.empty_eq_zero, Multiset.map_eq_zero, Finset.val_eq_zero] at hempty
    rw [hempty] at hmem
    exact Finset.notMem_empty x hmem
  · rw [← Multiset.map_add, ← Finset.disjUnion_val _ _ (Finset.disjoint_sdiff_inter _ _).symm,
      Finset.disjUnion_eq_union, Finset.union_comm, Finset.sdiff_union_inter]
  · rw [Finset.inter_comm, ← Multiset.map_add,
      ← Finset.disjUnion_val _ _ (Finset.disjoint_sdiff_inter _ _).symm,
      Finset.disjUnion_eq_union, Finset.union_comm, Finset.sdiff_union_inter]
  · obtain ⟨y, hy, rfl⟩ := Multiset.mem_map.mp hn
    obtain ⟨hmem, hnew⟩ := Finset.mem_sdiff.mp hy
    refine ⟨rank x, Multiset.mem_map_of_mem rank (Finset.mem_sdiff.mpr ⟨hx, hnot⟩), ?_⟩
    exact (hlower y hmem).resolve_left hnew

theorem remaining_lt (h : Sound vertices parent p) (hgraph : Ranked vertices parent rank)
    (hx : x ∈ p.queue) (hturn : Turn parent p x q) :
    Prod.Lex (· < ·) Multiset.IsDershowitzMannaLT (remaining vertices rank q)
      (remaining vertices rank p) := by
  cases hturn with
  | again queue hran hqueue =>
      refine .right _ (map_rank_lt hx (fun hmem => ?_) fun y hy => .inl ((hqueue y).mp hy).2)
      exact ((hqueue x).mp hmem).1 rfl
  | run queue hnew hparents hqueue =>
      refine .left _ _ (Finset.card_lt_card ?_)
      rw [Finset.ssubset_iff_of_subset]
      · refine ⟨x, by simp [hnew, h.queue_subset x hx], by simp⟩
      · intro y hy
        simp only [Finset.mem_sdiff, List.mem_toFinset, List.mem_append, not_or] at hy ⊢
        exact ⟨hy.1, hy.2.1⟩
  | wait queue hnew hmissing hqueue =>
      refine .right _ (map_rank_lt hx (fun hmem => ?_) fun y hy => ?_)
      · exact ((hqueue x).mp hmem).1 rfl
      · exact ((hqueue y).mp hy).2.imp_right fun hparent => hgraph.lt x y hparent.1

end Measure

/-- No job is taken forever. -/
theorem wellFounded_turn (hgraph : Ranked vertices parent rank) :
    WellFounded fun q p : Backlog α =>
      Sound vertices parent p ∧ ∃ x ∈ p.queue, Turn parent p x q := by
  classical
  have hwf : WellFounded (Prod.Lex (fun n m : ℕ => n < m)
      (fun M N : Multiset ℕ => Multiset.IsDershowitzMannaLT M N)) :=
    WellFounded.prod_lex wellFounded_lt Multiset.wellFounded_isDershowitzMannaLT
  refine Subrelation.wf ?_ (InvImage.wf (remaining vertices rank) hwf)
  intro q p hstep
  obtain ⟨hsound, x, hx, hturn⟩ := hstep
  exact remaining_lt hsound hgraph hx hturn

/-- When nothing is queued any more, every job was run. -/
theorem Sound.mem_ran (h : Sound vertices parent p) (hgraph : Ranked vertices parent rank)
    (hempty : p.queue = ∅) (hx : x ∈ vertices) : x ∈ p.ran := by
  induction hn : rank x using Nat.strong_induction_on generalizing x with
  | _ n ih =>
      subst hn
      by_contra hnot
      refine Finset.notMem_empty x (hempty ▸ h.queued x hx hnot fun y hy => ?_)
      exact ih (rank y) (hgraph.lt x y hy) (hgraph.mem x y hy).1 rfl

end Worklist
