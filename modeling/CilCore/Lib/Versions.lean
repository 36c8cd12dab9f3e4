import Mathlib.Order.Lattice

/-!
# Versions by level

Writers publish versions of items, each at a level of its writer. A view knows a level of
every writer and holds items, each as some writer has left it. When views are joined, the
levels are maximised, and of an item that both hold the one from the higher level of its
writer is kept. A chronicle is what the writers have published. Views that show what a
chronicle says at their levels can be joined in any number and any order, and the result
shows what the chronicle says.
-/

namespace Versions

variable {W I V : Type*}

/-- The levels of writers, and items with the writer of each. -/
structure View (W I V : Type*) where
  level : W → ℕ
  entry : I → Option (W × V)

namespace View

/-- What one view has of an item survives when it is joined with another one. -/
def Wins (a b : View W I V) (i : I) : Prop :=
  b.entry i = none ∨ ∃ w v v', a.entry i = some (w, v) ∧ b.entry i = some (w, v') ∧
    b.level w ≤ a.level w

/-- A view is what two others are joined to. -/
structure Joins (a b c : View W I V) : Prop where
  level : ∀ w, c.level w = max (a.level w) (b.level w)
  entry : ∀ i, c.entry i = a.entry i ∧ a.Wins b i ∨ c.entry i = b.entry i ∧ b.Wins a i

end View

/-- What the writers have published of each item, by level. Nothing is published at level
zero, and an item is never taken back. -/
structure Chronicle (W I V : Type*) where
  published : W → ℕ → I → Option V
  published_zero : ∀ w i, published w 0 i = none
  published_mono : ∀ w i m n, m ≤ n → published w m i ≠ none → published w n i ≠ none

namespace Chronicle

/-- The chronicle of writers that have published nothing. -/
def blank : Chronicle W I V where
  published _ _ _ := none
  published_zero _ _ := rfl
  published_mono _ _ _ _ _ h := absurd rfl h

/-- A view shows what the chronicle says at its levels. -/
def Shown (C : Chronicle W I V) (view : View W I V) : Prop :=
  ∀ i w v, view.entry i = some (w, v) ↔ C.published w (view.level w) i = some v

variable {C : Chronicle W I V} {a b c : View W I V} {i : I} {w : W}

theorem Shown.entry_ne_none (h : C.Shown a) (hpublished : C.published w (a.level w) i ≠ none) :
    ∃ v, a.entry i = some (w, v) := by
  obtain ⟨v, hv⟩ := Option.ne_none_iff_exists'.mp hpublished
  exact ⟨v, (h i w v).mpr hv⟩

/-- A view on higher levels has whatever another view has. -/
theorem Shown.entry_of_le (ha : C.Shown a) (hb : C.Shown b) {v : V}
    (hentry : a.entry i = some (w, v)) (hle : a.level w ≤ b.level w) :
    ∃ v', b.entry i = some (w, v') := by
  have hpublished := (ha i w v).mp hentry
  refine hb.entry_ne_none (C.published_mono w i _ _ hle ?_)
  rw [hpublished]
  exact Option.some_ne_none v

/-- Views on the same level of a writer have the same version of its items. -/
theorem Shown.entry_eq_of_level (ha : C.Shown a) (hb : C.Shown b) {v : V}
    (hentry : a.entry i = some (w, v)) (hlevel : a.level w = b.level w) :
    b.entry i = some (w, v) := by
  apply (hb i w v).mpr
  rw [← hlevel]
  exact (ha i w v).mp hentry

/-- A view that has nothing of an item is below those that have it. -/
theorem Shown.level_lt (ha : C.Shown a) (hb : C.Shown b) {v : V}
    (hentry : a.entry i = some (w, v)) (hnone : b.entry i = none) : b.level w < a.level w := by
  by_contra hnot
  obtain ⟨v', hv'⟩ := ha.entry_of_le hb hentry (not_lt.mp hnot)
  rw [hnone] at hv'
  cases hv'

/-- What survives of an item is what the chronicle says at the higher level. -/
theorem Shown.published_of_wins (ha : C.Shown a) (hb : C.Shown b) (hwins : a.Wins b i) (w : W) (v : V) :
    a.entry i = some (w, v) ↔ C.published w (max (a.level w) (b.level w)) i = some v := by
  rw [ha i w v]
  rcases le_or_gt (b.level w) (a.level w) with hle | hlt
  · rw [max_eq_left hle]
  · -- the other view is on a higher level, so it would have won if it had the item
    have hnone : C.published w (b.level w) i = none := by
      by_contra hpublished
      obtain ⟨v', hv'⟩ := hb.entry_ne_none hpublished
      rcases hwins with hnone | ⟨w', v₁, v₂, -, hb', hle⟩
      · rw [hnone] at hv'
        cases hv'
      · rw [hb'] at hv'
        cases hv'
        exact absurd hle (not_le.mpr hlt)
    have hnone' : C.published w (a.level w) i = none := by
      by_contra hpublished
      exact C.published_mono w i _ _ hlt.le hpublished hnone
    rw [max_eq_right hlt.le, hnone, hnone']

/-- **Joining keeps to the chronicle.** -/
theorem Shown.join (ha : C.Shown a) (hb : C.Shown b) (h : a.Joins b c) : C.Shown c := by
  intro i w v
  rcases h.entry i with ⟨hc, hwins⟩ | ⟨hc, hwins⟩
  · rw [hc, h.level, ha.published_of_wins hb hwins]
  · rw [hc, h.level, max_comm, hb.published_of_wins ha hwins]

section Extend

variable [DecidableEq W] {n : ℕ} {items : I → Option V}

/-- A writer publishes at a new level. It leaves out nothing that it has published below. -/
def extend (C : Chronicle W I V) (w : W) (n : ℕ) (items : I → Option V) (hn : 0 < n)
    (hkept : ∀ i m, m < n → C.published w m i ≠ none → items i ≠ none) : Chronicle W I V where
  published w' m i := if w' = w ∧ n ≤ m then items i else C.published w' m i
  published_zero w' i := by
    rw [if_neg fun h => absurd h.2 (Nat.not_le.mpr hn)]
    exact C.published_zero w' i
  published_mono w' i m m' hle h := by
    by_cases hnew' : w' = w ∧ n ≤ m'
    · rw [if_pos hnew']
      by_cases hnew : w' = w ∧ n ≤ m
      · rwa [if_pos hnew] at h
      · rw [if_neg hnew, hnew'.1] at h
        exact hkept i m (Nat.lt_of_not_le fun hm => hnew ⟨hnew'.1, hm⟩) h
    · rw [if_neg hnew']
      rw [if_neg fun hnew => hnew' ⟨hnew.1, hnew.2.trans hle⟩] at h
      exact C.published_mono w' i m m' hle h

variable {hn : 0 < n} {hkept : ∀ i m, m < n → C.published w m i ≠ none → items i ≠ none}

/-- Views below the new level are as they were. -/
theorem Shown.extend (h : C.Shown a) (hlt : a.level w < n) :
    (C.extend w n items hn hkept).Shown a := by
  intro i w' v
  have hold : ¬ (w' = w ∧ n ≤ a.level w') := by
    rintro ⟨rfl, hle⟩
    exact absurd hlt (not_lt.mpr hle)
  change _ ↔ (if w' = w ∧ n ≤ a.level w' then items i else C.published w' (a.level w') i) = some v
  rw [if_neg hold, h i w' v]

/-- The view of what is published at the new level. -/
theorem shown_extend (hlevel : n ≤ a.level w)
    (hown : ∀ i v, a.entry i = some (w, v) ↔ items i = some v)
    (hother : ∀ i w' v, w' ≠ w →
      (a.entry i = some (w', v) ↔ C.published w' (a.level w') i = some v)) :
    (C.extend w n items hn hkept).Shown a := by
  intro i w' v
  change _ ↔ (if w' = w ∧ n ≤ a.level w' then items i else C.published w' (a.level w') i) = some v
  by_cases hw : w' = w
  · rw [if_pos ⟨hw, hw ▸ hlevel⟩, hw]
    exact hown i v
  · rw [if_neg fun h => hw h.1]
    exact hother i w' v hw

end Extend

/-! ### Views that agree -/

/-- Views agree if what one has of an item is in those on its writer's level or above, in
the same version on the same level. -/
structure Agree (views : Set (View W I V)) : Prop where
  blank : ∀ a ∈ views, ∀ i w v, a.entry i = some (w, v) → a.level w ≠ 0
  same : ∀ a ∈ views, ∀ b ∈ views, ∀ i w v, a.entry i = some (w, v) → a.level w = b.level w →
    b.entry i = some (w, v)
  above : ∀ a ∈ views, ∀ b ∈ views, ∀ i w v, a.entry i = some (w, v) → a.level w ≤ b.level w →
    ∃ v', b.entry i = some (w, v')

section Agree

variable {views : Set (View W I V)}

/-- What a view has of an item, when no view is on a level of the writer between it and a
given one. -/
def TopMost (views : Set (View W I V)) (w : W) (n : ℕ) (i : I) (v : V) : Prop :=
  ∃ a ∈ views, a.level w ≤ n ∧ (∀ b ∈ views, b.level w ≤ n → b.level w ≤ a.level w) ∧
    a.entry i = some (w, v)

theorem Agree.topMost_unique (h : Agree views) {n : ℕ} {v v' : V} (hv : TopMost views w n i v)
    (hv' : TopMost views w n i v') : v = v' := by
  obtain ⟨a, ha, hle, htop, hentry⟩ := hv
  obtain ⟨a', ha', hle', htop', hentry'⟩ := hv'
  have hlevel := le_antisymm (htop' a ha hle) (htop a' ha' hle')
  have hsame := h.same a ha a' ha' i w v hentry hlevel
  rw [hsame] at hentry'
  cases hentry'
  rfl

/-- Of the views below some level one is the highest. -/
theorem exists_highest (w : W) {n : ℕ} (ha : a ∈ views) (hle : a.level w ≤ n) :
    ∃ top ∈ views, top.level w ≤ n ∧ ∀ b ∈ views, b.level w ≤ n → b.level w ≤ top.level w := by
  induction n with
  | zero => exact ⟨a, ha, hle, fun b _ hb => hb.trans (Nat.zero_le _)⟩
  | succ n ih =>
      by_cases htop : ∃ b ∈ views, b.level w = n + 1
      · obtain ⟨top, htop, hlevel⟩ := htop
        exact ⟨top, htop, hlevel.le, fun b _ hb => hlevel ▸ hb⟩
      · have hbelow (b : View W I V) (hb : b ∈ views) (hbn : b.level w ≤ n + 1) :
            b.level w ≤ n := Nat.le_of_lt_succ (hbn.lt_of_ne fun heq => htop ⟨b, hb, heq⟩)
        obtain ⟨top, htop, htopLe, hhighest⟩ := ih (hbelow a ha hle)
        exact ⟨top, htop, htopLe.trans (Nat.le_succ n), fun b hb hbn =>
          hhighest b hb (hbelow b hb hbn)⟩

/-- **Views that agree show one chronicle**: at each level the one that says what the
highest of the views below it say. -/
theorem Agree.exists_chronicle (h : Agree views) :
    ∃ C : Chronicle W I V, ∀ a ∈ views, C.Shown a := by
  classical
  have hsome {w : W} {n : ℕ} {i : I} {v : V} (hv : TopMost views w n i v) :
      (if h : ∃ v, TopMost views w n i v then some h.choose else none) = some v := by
    have hex : ∃ v, TopMost views w n i v := ⟨v, hv⟩
    rw [dif_pos hex, h.topMost_unique hex.choose_spec hv]
  have hnone {w : W} {n : ℕ} {i : I} :
      (if h : ∃ v, TopMost views w n i v then some h.choose else none) ≠ none ↔
        ∃ v, TopMost views w n i v := by
    by_cases hex : ∃ v, TopMost views w n i v
    · simp [hex]
    · simp [hex]
  refine ⟨⟨fun w n i => if h : ∃ v, TopMost views w n i v then some h.choose else none,
    fun w i => ?_, fun w i m n hle hm => ?_⟩, fun a ha i w v => ?_⟩
  · rw [dif_neg]
    rintro ⟨v, a, ha, hle, -, hentry⟩
    exact h.blank a ha i w v hentry (Nat.le_zero.mp hle)
  · rw [hnone] at hm ⊢
    obtain ⟨v, a, ha, ham, -, hentry⟩ := hm
    obtain ⟨top, htop, htopLe, hhighest⟩ := exists_highest w ha (ham.trans hle)
    obtain ⟨v', hv'⟩ := h.above a ha top htop i w v hentry (hhighest a ha (ham.trans hle))
    exact ⟨v', top, htop, htopLe, hhighest, hv'⟩
  · constructor
    · intro hentry
      exact hsome ⟨a, ha, le_rfl, fun b _ hb => hb, hentry⟩
    · intro hpublished
      change (if h : ∃ v, TopMost views w (a.level w) i v then some h.choose else none) =
        some v at hpublished
      obtain ⟨v', hv'⟩ := hnone.mp (hpublished ▸ Option.some_ne_none v)
      rw [hsome hv'] at hpublished
      obtain rfl := Option.some.inj hpublished
      obtain ⟨top, htop, hle, hhighest, hentry⟩ := hv'
      exact h.same top htop a ha i w v' hentry (le_antisymm hle (hhighest a ha le_rfl))

end Agree

end Chronicle

end Versions
