import Mathlib.Data.Finset.Card
import Mathlib.Data.List.Nodup
import Mathlib.Logic.Relation

/-!
# Visiting a graph level by level

What can be reached from some known vertices without passing through them is visited level by
level, until nothing is left or enough vertices were visited. A vertex is sent when it is
visited for the first time, so the answer is ordered by how far the vertices are.
-/

namespace LevelOrder

variable {α ε : Type} [DecidableEq α]

/-- A vertex is reached from some others by a path that leaves them at once. The number
counts the vertices in between. -/
inductive ReachedBy {α : Type} (child : α → α → Prop) (known : α → Prop) : ℕ → α → Prop
  | first {k x : α} : known k → child k x → ¬ known x → ReachedBy child known 0 x
  | next {n : ℕ} {x y : α} : ReachedBy child known n x → child x y → ¬ known y →
      ReachedBy child known (n + 1) y

theorem ReachedBy.exists_chain {α : Type} {child : α → α → Prop} {known : α → Prop} {n : ℕ} {x : α}
    (h : ReachedBy child known n x) :
    ∃ (k : α) (chain : ℕ → α), known k ∧ child k (chain 0) ∧ chain n = x ∧
      (∀ i < n, child (chain i) (chain (i + 1))) ∧ ∀ i ≤ n, ¬ known (chain i) := by
  induction h with
  | @first k x hk hchild hnot =>
      refine ⟨k, fun _ => x, hk, hchild, rfl, fun i hi => absurd hi (Nat.not_lt_zero i), fun _ _ => hnot⟩
  | @next n x y _ hchild hnot ih =>
      obtain ⟨k, chain, hk, hfirst, rfl, hstep, hout⟩ := ih
      refine ⟨k, fun i => if i ≤ n then chain i else y, hk, ?_, ?_, fun i hi => ?_, fun i hi => ?_⟩
      · simpa using hfirst
      · simp
      · rcases Nat.lt_succ_iff_lt_or_eq.mp hi with hlt | rfl
        · simpa [hlt.le, Nat.succ_le_of_lt hlt] using hstep i hlt
        · have hlast : ¬ i + 1 ≤ i := by omega
          simpa [hlast] using hchild
      · by_cases hle : i ≤ n
        · simpa [hle] using hout i hle
        · simpa [hle] using hnot

/-- A set that keeps the order of insertion. -/
def add (xs : List α) (x : α) : List α := if x ∈ xs then xs else xs ++ [x]

/-- The children that are neither sent nor known join the next level. -/
def addNext (known sent : List α) (kids next : List α) : List α :=
  kids.foldl (fun next y => if y ∉ sent ∧ y ∉ known then add next y else next) next

section

variable (children : α → Except ε (List α)) (known : List α) (limit : ℕ)

/-- The children of some vertices, without the known ones. -/
def firstLevel : List α → Except ε (List α)
  | [] => .ok []
  | x :: rest =>
      match children x with
      | .error error => .error error
      | .ok kids =>
          match firstLevel rest with
          | .error error => .error error
          | .ok level => .ok (kids.filter (· ∉ known) ++ level)

/-- The vertices of a level, one after another, until more than enough were sent. -/
def visitLevel : List α → List α → List α → Except ε (List α × List α)
  | [], sent, next => .ok (sent, next)
  | x :: rest, sent, next =>
      match children x with
      | .error error => .error error
      | .ok kids =>
          let next := addNext known sent kids next
          let sent := add sent x
          if limit < sent.length then .ok (sent, next) else visitLevel rest sent next

/-- The levels, until one is empty or enough vertices were sent. `none` when there are more
levels than fuel. -/
def visitLevels : ℕ → List α → List α → Option (Except ε (List α))
  | 0, _, _ => none
  | fuel + 1, level, sent =>
      match visitLevel children known limit level sent [] with
      | .error error => some (.error error)
      | .ok (sent, next) =>
          if next ≠ [] ∧ sent.length < limit then visitLevels fuel next sent else some (.ok sent)

/-- One vertex is a child of another. -/
def Child (x y : α) : Prop := ∃ kids, children x = .ok kids ∧ y ∈ kids

/-- How a vertex is reached from the known ones. -/
abbrev Reached : ℕ → α → Prop := ReachedBy (Child children) (· ∈ known)

/-- Whatever is reached on a lower level than a vertex comes before it. -/
def Sorted (sent : List α) : Prop :=
  ∀ before x after, sent = before ++ x :: after → ∀ m y, Reached children known m y →
    (∀ k, Reached children known k x → m < k) → y ∈ before

/-- The state before a level is visited. -/
structure Before (n : ℕ) (level sent : List α) : Prop where
  nodup : sent.Nodup
  reached : ∀ x ∈ sent, ∃ m < n, Reached children known m x
  complete : ∀ m < n, ∀ x, Reached children known m x → x ∈ sent
  onLevel : ∀ x ∈ level, Reached children known n x
  mem : ∀ x, Reached children known n x → x ∈ level ∨ x ∈ sent
  sorted : Sorted children known sent

/-- What a visit to vertices of one level does. -/
structure Visited (todo sent next sent' next' : List α) : Prop where
  keepsSent : sent <+: sent'
  keepsNext : next <+: next'
  sent_mem : ∀ x ∈ sent', x ∈ sent ∨ x ∈ todo
  nodup : sent.Nodup → sent'.Nodup
  next_mem : ∀ y ∈ next', y ∈ next ∨ y ∉ known ∧ ∃ x ∈ todo, Child children x y
  full : limit < sent'.length ∨ (∀ x ∈ todo, x ∈ sent') ∧
    ∀ x ∈ todo, ∀ y, Child children x y → y ∉ known → y ∈ sent' ∨ y ∈ next'

/-- A vertex is on a level that too few vertices are below to be enough. -/
def Few (x : α) : Prop :=
  ∃ n, Reached children known n x ∧ (n = 0 ∨ ∃ lower : List α, lower.length < limit ∧
    ∀ m < n, ∀ y, Reached children known m y → y ∈ lower)

/-- What is sent in the end. -/
structure Answer (sent : List α) : Prop where
  nodup : sent.Nodup
  few : ∀ x ∈ sent, Few children known limit x
  sorted : Sorted children known sent
  complete : limit ≤ sent.length ∨ ∀ m x, Reached children known m x → x ∈ sent

end

variable {children : α → Except ε (List α)} {known : List α} {limit : ℕ} {x y : α}
  {level todo sent sent' next next' kids : List α} {n m fuel : ℕ}

/-! ### Sets in order -/

@[simp] theorem mem_add : y ∈ add sent x ↔ y ∈ sent ∨ y = x := by
  unfold add
  split
  next hmem =>
    refine ⟨.inl, fun h => h.elim id fun heq => ?_⟩
    rw [heq]
    exact hmem
  next => simp

theorem prefix_add (sent : List α) (x : α) : sent <+: add sent x := by
  unfold add
  split
  next => exact List.prefix_rfl
  next => exact List.prefix_append sent [x]

theorem add_of_notMem (hx : x ∉ sent) : add sent x = sent ++ [x] := if_neg hx

theorem nodup_add (h : sent.Nodup) : (add sent x).Nodup := by
  unfold add
  split
  next => exact h
  next hx =>
    rw [← List.concat_eq_append]
    exact h.concat hx

theorem mem_addNext : y ∈ addNext known sent kids next ↔
    y ∈ next ∨ y ∈ kids ∧ y ∉ sent ∧ y ∉ known := by
  unfold addNext
  induction kids generalizing next with
  | nil => simp
  | cons first rest ih =>
      rw [List.foldl_cons, ih, List.mem_cons]
      split
      next hnew =>
        rw [mem_add]
        constructor
        · rintro ((hold | rfl) | hrest)
          · exact .inl hold
          · exact .inr ⟨.inl rfl, hnew⟩
          · exact .inr ⟨.inr hrest.1, hrest.2⟩
        · rintro (hold | ⟨rfl | hrest, hnot⟩)
          · exact .inl (.inl hold)
          · exact .inl (.inr rfl)
          · exact .inr ⟨hrest, hnot⟩
      next hold =>
        constructor
        · exact fun h => h.imp_right fun hrest => ⟨.inr hrest.1, hrest.2⟩
        · rintro (hnext | ⟨rfl | hrest, hnot⟩)
          · exact .inl hnext
          · exact absurd hnot hold
          · exact .inr ⟨hrest, hnot⟩

theorem prefix_addNext (known sent kids next : List α) : next <+: addNext known sent kids next := by
  unfold addNext
  induction kids generalizing next with
  | nil => exact List.prefix_rfl
  | cons first rest ih =>
      rw [List.foldl_cons]
      refine List.IsPrefix.trans ?_ (ih _)
      split
      next => exact prefix_add next first
      next => exact List.prefix_rfl

/-! ### One level -/

variable (known limit sent next) in
theorem exists_visitLevel (htodo : ∀ x ∈ todo, ∃ kids, children x = .ok kids) :
    ∃ sent' next', visitLevel children known limit todo sent next = .ok (sent', next') ∧
      Visited children known limit todo sent next sent' next' := by
  induction todo generalizing sent next with
  | nil =>
      refine ⟨sent, next, rfl, List.prefix_rfl, List.prefix_rfl, fun x hx => .inl hx, id,
        fun y hy => .inl hy, .inr ⟨?_, ?_⟩⟩
      · exact fun x hx => absurd hx List.not_mem_nil
      · exact fun x hx => absurd hx List.not_mem_nil
  | cons x rest ih =>
      obtain ⟨kids, hkids⟩ := htodo x List.mem_cons_self
      have hchild {y : α} : Child children x y ↔ y ∈ kids := by
        constructor
        · rintro ⟨kids', hkids', hy⟩
          rw [hkids] at hkids'
          cases hkids'
          exact hy
        · exact fun hy => ⟨kids, hkids, hy⟩
      rw [visitLevel, hkids]
      dsimp only
      split
      next hlimit =>
        refine ⟨_, _, rfl, prefix_add sent x, prefix_addNext known sent kids next, fun z hz => ?_,
          nodup_add, fun y hy => ?_, .inl hlimit⟩
        · rcases mem_add.mp hz with hold | rfl
          · exact .inl hold
          · exact .inr List.mem_cons_self
        · rcases mem_addNext.mp hy with hold | ⟨hy, -, hnot⟩
          · exact .inl hold
          · exact .inr ⟨hnot, x, List.mem_cons_self, hchild.mpr hy⟩
      next =>
        obtain ⟨sent', next', hrun, hvisited⟩ := ih (add sent x) (addNext known sent kids next)
          fun z hz => htodo z (List.mem_cons_of_mem x hz)
        refine ⟨sent', next', hrun, (prefix_add sent x).trans hvisited.keepsSent,
          (prefix_addNext known sent kids next).trans hvisited.keepsNext, fun z hz => ?_,
          fun h => hvisited.nodup (nodup_add h), fun y hy => ?_, ?_⟩
        · rcases hvisited.sent_mem z hz with hsent | hrest
          · rcases mem_add.mp hsent with hold | rfl
            · exact .inl hold
            · exact .inr List.mem_cons_self
          · exact .inr (List.mem_cons_of_mem x hrest)
        · rcases hvisited.next_mem y hy with hnext | ⟨hnot, z, hz, hy⟩
          · rcases mem_addNext.mp hnext with hold | ⟨hy, -, hnot⟩
            · exact .inl hold
            · exact .inr ⟨hnot, x, List.mem_cons_self, hchild.mpr hy⟩
          · exact .inr ⟨hnot, z, List.mem_cons_of_mem x hz, hy⟩
        · refine hvisited.full.imp_right fun hfull => ⟨fun z hz => ?_, fun z hz y hy hnot => ?_⟩
          · rcases List.mem_cons.mp hz with rfl | hrest
            · exact hvisited.keepsSent.subset (mem_add.mpr (.inr rfl))
            · exact hfull.1 z hrest
          · rcases List.mem_cons.mp hz with rfl | hrest
            · by_cases hsent : y ∈ sent
              · exact .inl (hvisited.keepsSent.subset (mem_add.mpr (.inl hsent)))
              · exact .inr (hvisited.keepsNext.subset
                  (mem_addNext.mpr (.inr ⟨hchild.mp hy, hsent, hnot⟩)))
            · exact hfull.2 z hrest y hy hnot

omit [DecidableEq α] in
theorem Before.sorted_of_kept (h : Before children known n level sent) (hkept : sent <+: sent')
    (hnodup : sent'.Nodup) (hmem : ∀ x ∈ sent', x ∈ sent ∨ x ∈ level) :
    Sorted children known sent' := by
  obtain ⟨added, rfl⟩ := hkept
  intro before x after heq m y hy hlower
  rcases List.append_eq_append_iff.mp heq with ⟨more, rfl, hadded⟩ | ⟨more, hsent, hafter⟩
  · -- a vertex of this level comes after all the lower levels
    refine List.mem_append_left more (h.complete m (hlower n ?_) y hy)
    have hx : x ∈ added := hadded ▸ List.mem_append_right more List.mem_cons_self
    refine h.onLevel x ((hmem x (List.mem_append_right sent hx)).resolve_left fun hold => ?_)
    exact List.disjoint_of_nodup_append hnodup hold hx
  · cases more with
    | nil =>
        rw [List.nil_append] at hafter
        rw [List.append_nil] at hsent
        have hx : x ∈ added := hafter ▸ List.mem_cons_self
        rw [← hsent]
        refine h.complete m (hlower n ?_) y hy
        refine h.onLevel x ((hmem x (List.mem_append_right sent hx)).resolve_left fun hold => ?_)
        exact List.disjoint_of_nodup_append hnodup hold hx
    | cons z more =>
        obtain ⟨rfl, -⟩ := List.cons.inj hafter
        exact h.sorted before x more hsent m y hy hlower

omit [DecidableEq α] in
theorem Before.succ (h : Before children known n level sent)
    (hvisited : Visited children known limit level sent [] sent' next')
    (hlimit : ¬ limit < sent'.length) : Before children known (n + 1) next' sent' := by
  obtain ⟨hlevel, hnext⟩ := hvisited.full.resolve_left hlimit
  have hcomplete (m : ℕ) (hm : m < n + 1) (x : α) (hx : Reached children known m x) : x ∈ sent' := by
    rcases Nat.lt_succ_iff_lt_or_eq.mp hm with hlower | rfl
    · exact hvisited.keepsSent.subset (h.complete m hlower x hx)
    · rcases h.mem x hx with hmem | hsent
      · exact hlevel x hmem
      · exact hvisited.keepsSent.subset hsent
  refine ⟨hvisited.nodup h.nodup, fun x hx => ?_, hcomplete, fun y hy => ?_, fun y hy => ?_,
    h.sorted_of_kept hvisited.keepsSent (hvisited.nodup h.nodup) hvisited.sent_mem⟩
  · rcases hvisited.sent_mem x hx with hold | hmem
    · obtain ⟨m, hm, hreached⟩ := h.reached x hold
      exact ⟨m, hm.trans (Nat.lt_succ_self n), hreached⟩
    · exact ⟨n, Nat.lt_succ_self n, h.onLevel x hmem⟩
  · obtain ⟨hnot, x, hx, hchild⟩ := (hvisited.next_mem y hy).resolve_left List.not_mem_nil
    exact .next (h.onLevel x hx) hchild hnot
  · cases hy with
    | @next _ x _ hx hchild hnot =>
        rcases h.mem x hx with hmem | hsent
        · exact (hnext x hmem y hchild hnot).symm
        · obtain ⟨m, hm, hreached⟩ := h.reached x hsent
          exact .inr (hcomplete (m + 1) (Nat.succ_lt_succ hm) y (.next hreached hchild hnot))

/-! ### All levels -/

section Run

/-- More fuel does not change the answer. -/
theorem visitLevels_mono {fuel' : ℕ} {r : Except ε (List α)}
    (h : visitLevels children known limit fuel level sent = some r) (hle : fuel ≤ fuel') :
    visitLevels children known limit fuel' level sent = some r := by
  induction fuel generalizing fuel' level sent with
  | zero => cases h
  | succ fuel ih =>
      obtain ⟨fuel', rfl⟩ := Nat.exists_eq_add_of_le' (Nat.le_of_add_left_le hle)
      rw [visitLevels] at h ⊢
      split at h
      next => exact h
      next sent' next' _ =>
        split at h
        next hmore =>
          rw [if_pos hmore]
          exact ih h (Nat.le_of_succ_le_succ hle)
        next hdone =>
          rw [if_neg hdone]
          exact h

variable (htotal : ∀ x y, Child children x y → ∃ kids, children y = .ok kids)

include htotal

omit [DecidableEq α] in
theorem exists_children (h : Reached children known n x) :
    ∃ kids, children x = .ok kids := by
  cases h with
  | first _ hchild _ => exact htotal _ _ hchild
  | next _ hchild _ => exact htotal _ _ hchild

theorem prefix_visitLevels {answer : List α}
    (htodo : ∀ x ∈ level, ∃ kids, children x = .ok kids)
    (h : visitLevels children known limit fuel level sent = some (.ok answer)) :
    sent <+: answer := by
  induction fuel generalizing level sent with
  | zero => cases h
  | succ fuel ih =>
      obtain ⟨sent', next', hrun, hvisited⟩ := exists_visitLevel known limit sent [] htodo
      rw [visitLevels, hrun] at h
      dsimp only at h
      split at h
      next =>
        refine hvisited.keepsSent.trans (ih (fun y hy => ?_) h)
        obtain ⟨-, x, -, hchild⟩ := (hvisited.next_mem y hy).resolve_left List.not_mem_nil
        exact htotal x y hchild
      next =>
        cases h
        exact hvisited.keepsSent

variable {bound : ℕ} (hbound : ∀ n x, Reached children known n x → n < bound)

include hbound

variable (limit fuel) in
theorem exists_visitLevels (hn : n ≤ bound) (hfuel : bound < n + fuel)
    (h : Before children known n level sent) (hstart : n = 0 ∨ sent.length < limit)
    (hfew : ∀ x ∈ sent, Few children known limit x) :
    ∃ answer, visitLevels children known limit fuel level sent = some (.ok answer) ∧
      Answer children known limit answer := by
  induction fuel generalizing n level sent with
  | zero => omega
  | succ fuel ih =>
      obtain ⟨sent', next', hrun, hvisited⟩ := exists_visitLevel known limit sent []
        fun x hx => exists_children htotal (h.onLevel x hx)
      have hfew' (x : α) (hx : x ∈ sent') : Few children known limit x := by
        rcases hvisited.sent_mem x hx with hold | hmem
        · exact hfew x hold
        · exact ⟨n, h.onLevel x hmem, hstart.imp_right fun hless => ⟨sent, hless, h.complete⟩⟩
      rw [visitLevels, hrun]
      dsimp only
      split
      next hmore =>
        have hnext := h.succ hvisited (not_lt.mpr hmore.2.le)
        obtain ⟨y, hy⟩ := List.exists_mem_of_ne_nil next' hmore.1
        have hlower := hbound (n + 1) y (hnext.onLevel y hy)
        exact ih hlower.le (by omega) hnext (.inr hmore.2) hfew'
      next hdone =>
        refine ⟨sent', rfl, hvisited.nodup h.nodup, hfew', h.sorted_of_kept
          hvisited.keepsSent (hvisited.nodup h.nodup) hvisited.sent_mem, ?_⟩
        · by_cases hlimit : limit ≤ sent'.length
          · exact .inl hlimit
          · -- the next level is empty, so there are no more levels at all
            have hlast := h.succ hvisited (by omega)
            have hempty : next' = [] := by
              by_contra hne
              exact hdone ⟨hne, not_le.mp hlimit⟩
            subst hempty
            refine .inr fun m x hreached => ?_
            induction hreached with
            | first hk hchild hnot => exact hlast.complete 0 (Nat.succ_pos n) _ (.first hk hchild hnot)
            | next _ hchild hnot ih =>
                obtain ⟨m', hm', hreached'⟩ := hlast.reached _ ih
                rcases Nat.lt_succ_iff_lt_or_eq.mp (Nat.succ_lt_succ hm') with hlower | heq
                · exact hlast.complete _ hlower _ (.next hreached' hchild hnot)
                · have hnext := ReachedBy.next hreached' hchild hnot
                  rw [Nat.succ.inj heq] at hnext
                  exact (hlast.mem _ hnext).resolve_left List.not_mem_nil

end Run

/-! ### The first level -/

variable (known) in
theorem exists_firstLevel {ks : List α} (htodo : ∀ k ∈ ks, ∃ kids, children k = .ok kids) :
    ∃ level, firstLevel children known ks = .ok level ∧
      ∀ x, x ∈ level ↔ ∃ k ∈ ks, Child children k x ∧ x ∉ known := by
  induction ks with
  | nil => exact ⟨[], rfl, by simp⟩
  | cons k rest ih =>
      obtain ⟨kids, hkids⟩ := htodo k List.mem_cons_self
      obtain ⟨level, hlevel, hmem⟩ := ih fun k hk => htodo k (List.mem_cons_of_mem _ hk)
      refine ⟨kids.filter (· ∉ known) ++ level, ?_, fun x => ?_⟩
      · rw [firstLevel, hkids, hlevel]
      · rw [List.mem_append, List.mem_filter, hmem]
        simp [Child, hkids]

omit [DecidableEq α] in
theorem before_firstLevel
    (h : ∀ x, x ∈ level ↔ ∃ k ∈ known, Child children k x ∧ x ∉ known) :
    Before children known 0 level [] where
  nodup := List.nodup_nil
  reached x hx := absurd hx List.not_mem_nil
  complete m hm := absurd hm (Nat.not_lt_zero m)
  onLevel x hx := by
    obtain ⟨k, hk, hchild, hnot⟩ := (h x).mp hx
    exact .first hk hchild hnot
  mem x hx := by
    cases hx with
    | first hk hchild hnot => exact .inl ((h x).mpr ⟨_, hk, hchild, hnot⟩)
  sorted before x after heq := by cases before <;> cases heq

theorem firstLevel_cons {k : α} {rest more : List α} (hkids : children k = .ok (x :: more))
    (hx : x ∉ known) (h : firstLevel children known (k :: rest) = .ok level) :
    ∃ tail, level = x :: tail := by
  rw [firstLevel, hkids] at h
  dsimp only at h
  split at h
  next => cases h
  next =>
    cases h
    rw [List.filter_cons_of_pos (by simpa using hx)]
    exact ⟨_, rfl⟩

/-! ### The first vertex of a level -/

variable (known limit) in
/-- What is visited first in a level is sent right away, unless it was sent before, and its
children come first in the next level. -/
theorem exists_visitLevel_cons {rest : List α} (hkids : children x = .ok kids) (hx : x ∉ sent)
    (hrest : ∀ y ∈ rest, ∃ kids, children y = .ok kids) :
    ∃ sent' next', visitLevel children known limit (x :: rest) sent [] = .ok (sent', next') ∧
      Visited children known limit (x :: rest) sent [] sent' next' ∧ sent ++ [x] <+: sent' ∧
        addNext known sent kids [] <+: next' := by
  have hall (y : α) (hy : y ∈ x :: rest) : ∃ kids, children y = .ok kids := by
    rcases List.mem_cons.mp hy with rfl | hmem
    · exact ⟨kids, hkids⟩
    · exact hrest y hmem
  obtain ⟨sent', next', hrun, hvisited⟩ := exists_visitLevel known limit sent [] hall
  refine ⟨sent', next', hrun, hvisited, ?_⟩
  rw [visitLevel, hkids, add_of_notMem hx] at hrun
  dsimp only at hrun
  split at hrun
  next =>
    cases hrun
    exact ⟨List.prefix_rfl, List.prefix_rfl⟩
  next =>
    obtain ⟨sent₁, next₁, hrun₁, hvisited₁⟩ := exists_visitLevel known limit (sent ++ [x])
      (addNext known sent kids []) hrest
    rw [hrun₁] at hrun
    cases hrun
    exact ⟨hvisited₁.keepsSent, hvisited₁.keepsNext⟩

/-- The first child that is neither sent nor known. -/
theorem head_addNext {more : List α} (hsent : y ∉ sent) (hknown : y ∉ known) :
    [y] <+: addNext known sent (y :: more) [] := by
  rw [addNext, List.foldl_cons, if_pos ⟨hsent, hknown⟩, add_of_notMem List.not_mem_nil]
  exact prefix_addNext known sent more [y]

/-- A chain of vertices, each the first child of the one before it, to a vertex that is not
reached on a lower level. -/
structure Leftmost (children : α → Except ε (List α)) (known : List α) (chain : ℕ → α) (n : ℕ) :
    Prop where
  start : Reached children known 0 (chain 0)
  step : ∀ i < n, ∃ more, children (chain i) = .ok (chain (i + 1) :: more)
  notMem : ∀ i ≤ n, chain i ∉ known
  least : ∀ m < n, ¬ Reached children known m (chain n)

variable {chain : ℕ → α}

omit [DecidableEq α] in
theorem Leftmost.child (h : Leftmost children known chain n) {i : ℕ} (hi : i < n) :
    Child children (chain i) (chain (i + 1)) := by
  obtain ⟨more, hmore⟩ := h.step i hi
  exact ⟨_, hmore, List.mem_cons_self⟩

omit [DecidableEq α] in
theorem Leftmost.reached (h : Leftmost children known chain n) {i : ℕ} (hi : i ≤ n) :
    Reached children known i (chain i) := by
  induction i with
  | zero => exact h.start
  | succ i ih => exact .next (ih (Nat.le_of_succ_le hi)) (h.child hi) (h.notMem (i + 1) hi)

omit [DecidableEq α] in
theorem Leftmost.least_of_le (h : Leftmost children known chain n) {i : ℕ} (hi : i ≤ n)
    (hm : m < i) : ¬ Reached children known m (chain i) := by
  intro hreached
  have hlift (j : ℕ) (hj : i + j ≤ n) : Reached children known (m + j) (chain (i + j)) := by
    induction j with
    | zero => exact hreached
    | succ j ih => exact .next (ih (by omega)) (h.child (by omega)) (h.notMem (i + (j + 1)) hj)
  have hlast := hlift (n - i) (by omega)
  rw [Nat.add_sub_cancel' hi] at hlast
  exact h.least (m + (n - i)) (by omega) hlast

/-- The last vertex of the chain is sent as the first one of its level, provided that the
lower levels are not enough. -/
theorem exists_visitLevels_leftmost
    (htotal : ∀ x y, Child children x y → ∃ kids, children y = .ok kids)
    (h : Leftmost children known chain n)
    (hfew : ∀ xs : List α, xs.Nodup → (∀ x ∈ xs, ∃ m < n, Reached children known m x) →
      xs.length < limit) {i : ℕ} (hi : i ≤ n) {rest : List α}
    (hbefore : Before children known i (chain i :: rest) sent) {answer : List α}
    (hrun : visitLevels children known limit fuel (chain i :: rest) sent = some (.ok answer)) :
    ∃ before after, answer = before ++ chain n :: after ∧
      ∀ x ∈ before, ∃ m < n, Reached children known m x := by
  induction fuel generalizing i rest sent with
  | zero => cases hrun
  | succ fuel ih =>
      have hnew : chain i ∉ sent := by
        intro hmem
        obtain ⟨m, hm, hreached⟩ := hbefore.reached _ hmem
        exact h.least_of_le hi hm hreached
      obtain ⟨kids, hkids⟩ := exists_children htotal (h.reached hi)
      obtain ⟨sent', next', hlevel, hvisited, hfirst, hnext⟩ :=
        exists_visitLevel_cons known limit hkids hnew fun y hy =>
          exists_children htotal (hbefore.onLevel y (List.mem_cons_of_mem _ hy))
      rw [visitLevels, hlevel] at hrun
      dsimp only at hrun
      rcases Nat.lt_or_eq_of_le hi with hlt | rfl
      · -- not enough was sent, and the next vertex of the chain is at the head of its level
        have hreached (x : α) (hx : x ∈ sent') : ∃ m < n, Reached children known m x := by
          rcases hvisited.sent_mem x hx with hold | hmem
          · obtain ⟨m, hm, hxm⟩ := hbefore.reached x hold
            exact ⟨m, hm.trans hlt, hxm⟩
          · exact ⟨i, hlt, hbefore.onLevel x hmem⟩
        have hfew' := hfew sent' (hvisited.nodup hbefore.nodup) hreached
        have hbefore' := hbefore.succ hvisited (by omega)
        obtain ⟨more, hmore⟩ := h.step i hlt
        rw [hkids] at hmore
        cases hmore
        have hunsent : chain (i + 1) ∉ sent := by
          intro hmem
          obtain ⟨m, hm, hxm⟩ := hbefore.reached _ hmem
          exact h.least_of_le hlt (by omega) hxm
        obtain ⟨tail, rfl⟩ := (head_addNext hunsent (h.notMem (i + 1) hlt)).trans hnext
        rw [if_pos ⟨by simp, hfew'⟩] at hrun
        exact ih hlt hbefore' hrun
      · have hkept : sent ++ [chain i] <+: answer := by
          split at hrun
          next =>
            refine hfirst.trans (prefix_visitLevels htotal (fun y hy => ?_) hrun)
            obtain ⟨-, x, -, hchild⟩ := (hvisited.next_mem y hy).resolve_left List.not_mem_nil
            exact htotal x y hchild
          next =>
            cases hrun
            exact hfirst
        obtain ⟨after, rfl⟩ := hkept
        exact ⟨sent, after, by simp, fun x hx => hbefore.reached x hx⟩

end LevelOrder
