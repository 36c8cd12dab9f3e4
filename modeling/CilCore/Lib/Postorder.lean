import Mathlib.Data.Finset.Card
import Mathlib.Logic.Relation

/-!
# Running vertices after their parents

A recursive walk runs each vertex of a finite graph once its parents have been run, and
remembers the vertices that it has finished. Without a cycle the walk ends, and runs each
vertex that it visits once. What running a vertex makes of it does not depend on the order
of the visits when it looks at nothing but what was made of the parents.
-/

namespace CilCore.Postorder

/-- How far a walk has come: the vertices it has finished, those it has run, in order, and
the state that they left. -/
structure Progress (V S : Type) where
  finished : Finset V
  ran : List V
  state : S

variable {V B S E O : Type}

/-- One vertex is a parent of another, and both have items. -/
def Below (item : V → Option B) (parents : B → List V) (w v : V) : Prop :=
  (∃ b, item w = some b) ∧ ∃ b, item v = some b ∧ w ∈ parents b

/-- Vertices were run one after another, each for the first time and after its parents. -/
inductive Ran (item : V → Option B) (parents : B → List V) (run : B → S → Except E S) (start : S) :
    List V → S → Prop
  | nil : Ran item parents run start [] start
  | snoc {order : List V} {s s' : S} {v : V} {b : B} (hran : Ran item parents run start order s)
      (hitem : item v = some b) (hnew : v ∉ order)
      (hparents : ∀ w, Below item parents w v → w ∈ order) (hrun : run b s = .ok s') :
      Ran item parents run start (order ++ [v]) s'

/-- Running the next vertex fails. -/
def Fails (item : V → Option B) (parents : B → List V) (run : B → S → Except E S) (start : S)
    (error : E) : Prop :=
  ∃ order s v b, Ran item parents run start order s ∧ item v = some b ∧ v ∉ order ∧
    (∀ w, Below item parents w v → w ∈ order) ∧ run b s = .error error

variable {item : V → Option B} {parents : B → List V} {run : B → S → Except E S} {start s t : S}
  {order order' : List V} {v w : V}

namespace Ran

theorem nodup (h : Ran item parents run start order s) : order.Nodup := by
  induction h with
  | nil => exact List.nodup_nil
  | snoc _ _ hnew _ _ ih =>
      refine List.nodup_append.mpr ⟨ih, List.nodup_singleton _, fun w hw u hu => ?_⟩
      rw [List.mem_singleton.mp hu]
      exact fun heq => hnew (heq ▸ hw)

theorem exists_item (h : Ran item parents run start order s) (hv : v ∈ order) :
    ∃ b, item v = some b := by
  induction h with
  | nil => cases hv
  | snoc _ hitem _ _ _ ih =>
      rcases List.mem_append.mp hv with hold | hnew
      · exact ih hold
      · exact ⟨_, List.mem_singleton.mp hnew ▸ hitem⟩

/-- The parents of a vertex were run before it. -/
theorem parents_before (h : Ran item parents run start order s) {before after : List V}
    (horder : order = before ++ v :: after) (hw : Below item parents w v) : w ∈ before := by
  induction h generalizing after with
  | nil => simp at horder
  | @snoc order _ _ u _ hran hitem hnew hparents hrun ih =>
      rcases List.eq_nil_or_concat after with rfl | ⟨rest, last, rfl⟩
      · obtain ⟨rfl, hlast⟩ := List.append_inj' horder rfl
        have hv : u = v := (List.cons.inj hlast).1
        exact hparents w (hv ▸ hw)
      · rw [List.concat_eq_append, ← List.cons_append, ← List.append_assoc] at horder
        exact ih (List.append_inj' horder rfl).1

end Ran

/-! ### The order does not matter -/

/-- Running a vertex changes nothing that can be seen of the others, and looks at nothing
but what can be seen of its parents. -/
structure Local (item : V → Option B) (parents : B → List V) (run : B → S → Except E S)
    (look : S → V → Option O) : Prop where
  frame : ∀ {v b s s' w}, item v = some b → run b s = .ok s' → w ≠ v → look s' w = look s w
  congr : ∀ {v b s t s'}, item v = some b → look s v = none → look t v = none →
    (∀ w ∈ parents b, look s w = look t w) → run b s = .ok s' →
      ∃ t', run b t = .ok t' ∧ look s' v = look t' v

section Local

variable {look : S → V → Option O}

theorem Ran.look_of_notMem (hlocal : Local item parents run look)
    (h : Ran item parents run start order s) (hv : v ∉ order) : look s v = look start v := by
  induction h with
  | nil => rfl
  | snoc _ hitem _ _ hrun ih =>
      rw [List.mem_append, List.mem_singleton, not_or] at hv
      rw [hlocal.frame hitem hrun hv.2, ih hv.1]

/-- The moment in which a vertex was run. -/
theorem Ran.moment (hlocal : Local item parents run look)
    (h : Ran item parents run start order s) (hv : v ∈ order) :
    ∃ before u b u', Ran item parents run start before u ∧ item v = some b ∧ v ∉ before ∧
      (∀ w, Below item parents w v → w ∈ before) ∧ run b u = .ok u' ∧ before ⊆ order ∧
      look s v = look u' v ∧ ∀ w ∈ before, look s w = look u w := by
  induction h with
  | nil => cases hv
  | @snoc order s s' x b hran hitem hnew hparents hrun ih =>
      by_cases hvx : v = x
      · subst hvx
        refine ⟨order, s, b, s', hran, hitem, hnew, hparents, hrun, List.subset_append_left _ _,
          rfl, fun w hw => hlocal.frame hitem hrun ?_⟩
        rintro rfl
        exact hnew hw
      · have hold : v ∈ order :=
          (List.mem_append.mp hv).resolve_right fun hmem => hvx (List.mem_singleton.mp hmem)
        obtain ⟨before, u, b', u', hbefore, hitem', hnew', hparents', hrun', hsub, hlook, hsame⟩ :=
          ih hold
        refine ⟨before, u, b', u', hbefore, hitem', hnew', hparents', hrun',
          fun u hu => List.mem_append_left _ (hsub hu), ?_, fun w hw => ?_⟩
        · rw [hlocal.frame hitem hrun hvx, hlook]
        · rw [hlocal.frame hitem hrun, hsame w hw]
          rintro rfl
          exact hnew (hsub hw)

/-- Nothing of the vertices with items can be seen at the start. -/
def Blank (item : V → Option B) (look : S → V → Option O) (start : S) : Prop :=
  ∀ v b, item v = some b → look start v = none

/-- Whatever the order, two runs make the same of the vertices that both have run. -/
theorem Ran.look_eq (hlocal : Local item parents run look) (hblank : Blank item look start)
    (hwf : WellFounded (Below item parents))
    (h : Ran item parents run start order s) (h' : Ran item parents run start order' t) :
    v ∈ order → v ∈ order' → look s v = look t v := by
  induction v using hwf.induction with
  | _ v ih =>
      intro hv hv'
      obtain ⟨before, u, b, u', hran, hitem, hnew, hparents, hrun, hsub, hlook, hsame⟩ :=
        h.moment hlocal hv
      obtain ⟨before', x, b', x', hran', hitem', hnew', hparents', hrun', hsub', hlook', hsame'⟩ :=
        h'.moment hlocal hv'
      obtain rfl : b = b' := Option.some.inj (hitem.symm.trans hitem')
      have hstart {before : List V} {u : S} (hran : Ran item parents run start before u)
          (hnew : v ∉ before) : look u v = none := by
        rw [hran.look_of_notMem hlocal hnew, hblank v b hitem]
      have hagree : ∀ w ∈ parents b, look u w = look x w := by
        intro w hw
        by_cases hthere : ∃ c, item w = some c
        · -- both runs have run the parent before
          have hbelow : Below item parents w v := ⟨hthere, b, hitem, hw⟩
          have hmem := hparents w hbelow
          have hmem' := hparents' w hbelow
          rw [← hsame w hmem, ← hsame' w hmem', ih w hbelow (hsub hmem) (hsub' hmem')]
        · have hout {before : List V} {u : S} (hran : Ran item parents run start before u) :
              look u w = look start w :=
            hran.look_of_notMem hlocal fun hmem => hthere (hran.exists_item hmem)
          rw [hout hran, hout hran']
      obtain ⟨t', ht', hmade⟩ :=
        hlocal.congr hitem (hstart hran hnew) (hstart hran' hnew') hagree hrun
      rw [hrun'] at ht'
      cases ht'
      rw [hlook, hlook', hmade]

/-- What one run could do, another can. -/
theorem Ran.not_fails (hlocal : Local item parents run look) (hblank : Blank item look start)
    (hwf : WellFounded (Below item parents)) (h : Ran item parents run start order s)
    (hall : ∀ v b, item v = some b → v ∈ order) (error : E) :
    ¬ Fails item parents run start error := by
  rintro ⟨order', t, v, b, hran', hitem', hnew', hparents', herror⟩
  obtain ⟨before, u, b', u', hran, hitem, hnew, hparents, hrun, hsub, -, hsame⟩ :=
    h.moment hlocal (hall v b hitem')
  obtain rfl : b' = b := Option.some.inj (hitem.symm.trans hitem')
  have hagree : ∀ w ∈ parents b', look u w = look t w := by
    intro w hw
    by_cases hthere : ∃ c, item w = some c
    · have hbelow : Below item parents w v := ⟨hthere, b', hitem, hw⟩
      exact hran.look_eq hlocal hblank hwf hran' (hparents w hbelow) (hparents' w hbelow)
    · rw [hran.look_of_notMem hlocal fun hmem => hthere (hran.exists_item hmem),
        hran'.look_of_notMem hlocal fun hmem => hthere (hran'.exists_item hmem)]
  have hstart : look u v = none := by
    rw [hran.look_of_notMem hlocal hnew, hblank v b' hitem]
  have hstart' : look t v = none := by
    rw [hran'.look_of_notMem hlocal hnew', hblank v b' hitem]
  obtain ⟨t', ht', -⟩ := hlocal.congr hitem hstart hstart' hagree hrun
  rw [herror] at ht'
  cases ht'

end Local

/-! ### The walk -/

/-- Visits in turn, as long as none of them fails. -/
def visitAll (visit : V → Progress V S → Option (Except E (Progress V S))) :
    List V → Progress V S → Option (Except E (Progress V S))
  | [], p => some (.ok p)
  | v :: rest, p =>
      match visit v p with
      | none => none
      | some (.error error) => some (.error error)
      | some (.ok p) => visitAll visit rest p

variable [DecidableEq V] in
/-- The walk from a vertex. A vertex without an item is left alone. -/
def visit (item : V → Option B) (parents : B → List V) (run : B → S → Except E S) :
    Nat → V → Progress V S → Option (Except E (Progress V S))
  | 0, _, _ => none
  | fuel + 1, v, p =>
      match item v with
      | none => some (.ok p)
      | some b =>
          if v ∈ p.finished then some (.ok p)
          else
            match visitAll
                (fun w p => if w ∈ p.finished then some (.ok p)
                  else visit item parents run fuel w p) (parents b) p with
            | none => none
            | some (.error error) => some (.error error)
            | some (.ok p) =>
                match run b p.state with
                | .error error => some (.error error)
                | .ok state => some (.ok ⟨insert v p.finished, p.ran ++ [v], state⟩)

/-- A walk has run what it has finished. -/
structure Sound (item : V → Option B) (parents : B → List V) (run : B → S → Except E S) (start : S)
    (p : Progress V S) : Prop where
  finished : ∀ v, v ∈ p.finished ↔ v ∈ p.ran
  ran : Ran item parents run start p.ran p.state

/-- What visits come to: the vertices are finished, and no others than those of at most
their rank, or the next vertex cannot be run. -/
inductive Outcome (item : V → Option B) (parents : B → List V) (run : B → S → Except E S)
    (start : S) (rank : V → Nat) (p : Progress V S) (vs : List V) : Except E (Progress V S) → Prop
  | ok {p' : Progress V S} (hsound : Sound item parents run start p')
      (hkept : p.finished ⊆ p'.finished)
      (hall : ∀ v ∈ vs, (∃ b, item v = some b) → v ∈ p'.finished)
      (hnew : ∀ u ∈ p'.finished, u ∈ p.finished ∨
        ∃ v ∈ vs, (∃ b, item v = some b) ∧ rank u ≤ rank v) :
      Outcome item parents run start rank p vs (.ok p')
  | error {error : E} (hfails : Fails item parents run start error) :
      Outcome item parents run start rank p vs (.error error)

variable {rank : V → Nat} {p : Progress V S} {fuel : Nat} {vs : List V}

/-- Visits that each come to something do so together. -/
theorem exists_visitAll {f : V → Progress V S → Option (Except E (Progress V S))}
    (hvisit : ∀ v ∈ vs, ∀ p, Sound item parents run start p →
      ∃ r, f v p = some r ∧ Outcome item parents run start rank p [v] r)
    (hp : Sound item parents run start p) :
    ∃ r, visitAll f vs p = some r ∧ Outcome item parents run start rank p vs r := by
  induction vs generalizing p with
  | nil =>
      refine ⟨_, rfl, .ok hp (Finset.Subset.refl _) ?_ fun u hu => .inl hu⟩
      exact fun v hv => absurd hv List.not_mem_nil
  | cons v rest ih =>
      obtain ⟨r, hr, houtcome⟩ := hvisit v List.mem_cons_self p hp
      unfold visitAll
      rw [hr]
      cases houtcome with
      | error hfails => exact ⟨_, rfl, .error hfails⟩
      | @ok p' hp' hkept hall hnew =>
          obtain ⟨r, hr, houtcome⟩ := ih (fun w hw => hvisit w (List.mem_cons_of_mem _ hw)) hp'
          refine ⟨r, hr, ?_⟩
          cases houtcome with
          | error hfails => exact .error hfails
          | ok hsound hkept' hall' hnew' =>
              refine .ok hsound (Finset.Subset.trans hkept hkept') (fun w hw hitem => ?_)
                fun u hu => ?_
              · rcases List.mem_cons.mp hw with rfl | hrest
                · exact hkept' (hall w List.mem_cons_self hitem)
                · exact hall' w hrest hitem
              · rcases hnew' u hu with hold | ⟨w, hw, hrank⟩
                · rcases hnew u hold with hold | ⟨w, hw, hrank⟩
                  · exact .inl hold
                  · exact .inr ⟨w, List.mem_singleton.mp hw ▸ List.mem_cons_self, hrank⟩
                · exact .inr ⟨w, List.mem_cons_of_mem _ hw, hrank⟩

/-- A walk whose visits come to the same does so too. -/
theorem visitAll_mono {f g : V → Progress V S → Option (Except E (Progress V S))}
    (hfg : ∀ v p r, f v p = some r → g v p = some r) {r : Except E (Progress V S)}
    (h : visitAll f vs p = some r) : visitAll g vs p = some r := by
  induction vs generalizing p with
  | nil => exact h
  | cons v rest ih =>
      unfold visitAll at h ⊢
      cases hv : f v p with
      | none => simp [hv] at h
      | some first =>
          rw [hv] at h
          rw [hfg v p first hv]
          cases first with
          | error error => exact h
          | ok p => exact ih h

/-- Without a cycle, the vertices can be ranked. -/
theorem exists_rank (hacyclic : ∀ v, ¬ Relation.TransGen (Below item parents) v v)
    {items : Finset V} (hitems : ∀ v b, item v = some b → v ∈ items) :
    ∃ rank : V → Nat, (∀ w v, Below item parents w v → rank w < rank v) ∧
      ∀ v b, item v = some b → rank v + 1 ≤ items.card := by
  classical
  refine ⟨fun v => (items.filter fun w => Relation.TransGen (Below item parents) w v).card,
    fun w v hbelow => ?_, fun v b hitem => ?_⟩
  · obtain ⟨b, hb⟩ := hbelow.1
    refine Finset.card_lt_card ((Finset.ssubset_iff_of_subset fun u hu => ?_).mpr ⟨w, ?_, ?_⟩)
    · rw [Finset.mem_filter] at hu ⊢
      exact ⟨hu.1, hu.2.tail hbelow⟩
    · exact Finset.mem_filter.mpr ⟨hitems w b hb, .single hbelow⟩
    · exact fun hmem => hacyclic w (Finset.mem_filter.mp hmem).2
  · refine Finset.card_lt_card ((Finset.ssubset_iff_of_subset (Finset.filter_subset _ _)).mpr
      ⟨v, hitems v b hitem, fun hmem => ?_⟩)
    exact hacyclic v (Finset.mem_filter.mp hmem).2

theorem wellFounded_below (hacyclic : ∀ v, ¬ Relation.TransGen (Below item parents) v v)
    {items : Finset V} (hitems : ∀ v b, item v = some b → v ∈ items) :
    WellFounded (Below item parents) := by
  obtain ⟨rank, hrank, -⟩ := exists_rank hacyclic hitems
  exact Subrelation.wf (hrank _ _) (measure rank).wf

variable [DecidableEq V]

/-- When its parents were visited, a vertex that was not finished is run. -/
theorem Outcome.run_next (hrank : ∀ w v, Below item parents w v → rank w < rank v) {b : B}
    (hitem : item v = some b) (hopen : v ∉ p.finished) {p' : Progress V S}
    (h : Outcome item parents run start rank p (parents b) (.ok p')) :
    (∀ error, run b p'.state = .error error → Fails item parents run start error) ∧
      ∀ state, run b p'.state = .ok state →
        Outcome item parents run start rank p [v]
          (.ok ⟨insert v p'.finished, p'.ran ++ [v], state⟩) := by
  obtain ⟨hp', hkept, hall, hnew⟩ := h
  have hparents : ∀ w, Below item parents w v → w ∈ p'.ran := by
    rintro w ⟨hthere, b', hitem', hw⟩
    obtain rfl : b = b' := Option.some.inj (hitem.symm.trans hitem')
    exact (hp'.finished w).mp (hall w hw hthere)
  -- only vertices of smaller rank were finished on the way
  have hfirst : v ∉ p'.ran := by
    intro hv
    rcases hnew v ((hp'.finished v).mpr hv) with hold | ⟨w, hw, hthere, hle⟩
    · exact hopen hold
    · exact absurd (hrank w v ⟨hthere, b, hitem, hw⟩) (not_lt.mpr hle)
  refine ⟨fun error hrun => ⟨_, _, v, b, hp'.ran, hitem, hfirst, hparents, hrun⟩,
    fun state hrun => ?_⟩
  refine .ok ⟨fun u => ?_, .snoc hp'.ran hitem hfirst hparents hrun⟩
    (fun u hu => Finset.mem_insert_of_mem (hkept hu)) (fun w hw _ => ?_) fun u hu => ?_
  · rw [Finset.mem_insert, List.mem_append, List.mem_singleton, hp'.finished, or_comm]
  · exact List.mem_singleton.mp hw ▸ Finset.mem_insert_self _ _
  · rcases Finset.mem_insert.mp hu with rfl | hmem
    · exact .inr ⟨_, List.mem_singleton_self _, ⟨b, hitem⟩, le_rfl⟩
    · rcases hnew u hmem with hold | ⟨w, hw, hthere, hle⟩
      · exact .inl hold
      · have := hrank w v ⟨hthere, b, hitem, hw⟩
        exact .inr ⟨v, List.mem_singleton_self _, ⟨b, hitem⟩, by omega⟩

omit [DecidableEq V] in
theorem visitAll_keeps {f : V → Progress V S → Option (Except E (Progress V S))} {Inv : S → Prop}
    {p' : Progress V S} (hf : ∀ v p p', f v p = some (.ok p') → Inv p.state → Inv p'.state)
    (h : visitAll f vs p = some (.ok p')) (hp : Inv p.state) : Inv p'.state := by
  induction vs generalizing p with
  | nil =>
      cases h
      exact hp
  | cons v rest ih =>
      unfold visitAll at h
      split at h
      next => cases h
      next => cases h
      next p₁ hfirst => exact ih h (hf v p p₁ hfirst hp)

/-- A walk keeps whatever every run keeps. -/
theorem visit_keeps {Inv : S → Prop} {p' : Progress V S}
    (hrun : ∀ {v b state state'}, item v = some b → run b state = .ok state' → Inv state → Inv state')
    (h : visit item parents run fuel v p = some (.ok p')) (hp : Inv p.state) : Inv p'.state := by
  induction fuel generalizing v p p' with
  | zero => cases h
  | succ fuel ih =>
      unfold visit at h
      split at h
      next =>
        cases h
        exact hp
      next b hitem =>
        split at h
        next =>
          cases h
          exact hp
        next =>
          split at h
          next => cases h
          next => cases h
          next p₁ hparents =>
            have hparents : Inv p₁.state := by
              refine visitAll_keeps (fun w p p' hw hp => ?_) hparents hp
              split at hw
              next =>
                cases hw
                exact hp
              next => exact ih hw hp
            split at h
            next => cases h
            next state hstate =>
              cases h
              exact hrun hitem hstate hparents

/-- With enough fuel for its rank, a vertex is visited. -/
theorem exists_visit (hrank : ∀ w v, Below item parents w v → rank w < rank v)
    (hp : Sound item parents run start p) (hpos : 0 < fuel)
    (hfuel : (∃ b, item v = some b) → rank v + 1 < fuel) :
    ∃ r, visit item parents run fuel v p = some r ∧
      Outcome item parents run start rank p [v] r := by
  induction fuel generalizing v p with
  | zero => exact absurd hpos (lt_irrefl 0)
  | succ fuel ih =>
      unfold visit
      cases hitem : item v with
      | none =>
          refine ⟨_, rfl, .ok hp (Finset.Subset.refl _) (fun w hw => ?_) fun u hu => .inl hu⟩
          rw [List.mem_singleton.mp hw, hitem]
          rintro ⟨b, hb⟩
          cases hb
      | some b =>
          have hfuel := hfuel ⟨b, hitem⟩
          dsimp only
          split
          next hfinished =>
            refine ⟨_, rfl, .ok hp (Finset.Subset.refl _) (fun w hw _ => ?_) fun u hu => .inl hu⟩
            exact List.mem_singleton.mp hw ▸ hfinished
          next hopen =>
            have hvisit : ∀ w ∈ parents b, ∀ p, Sound item parents run start p →
                ∃ r, (if w ∈ p.finished then some (.ok p) else visit item parents run fuel w p) =
                  some r ∧ Outcome item parents run start rank p [w] r := by
              intro w hw p hp
              split
              next hdone =>
                refine ⟨_, rfl, .ok hp (Finset.Subset.refl _) (fun x hx _ => ?_) fun u hu => .inl hu⟩
                exact List.mem_singleton.mp hx ▸ hdone
              next =>
                refine ih hp (by omega) fun hthere => ?_
                have := hrank w v ⟨hthere, b, hitem, hw⟩
                omega
            obtain ⟨r, hr, houtcome⟩ := exists_visitAll hvisit hp
            rw [hr]
            cases houtcome with
            | error hfails => exact ⟨_, rfl, .error hfails⟩
            | @ok p' hp' hkept hall hnew =>
                obtain ⟨herror, hok⟩ := Outcome.run_next hrank hitem hopen (.ok hp' hkept hall hnew)
                dsimp only
                cases hrun : run b p'.state with
                | error error => exact ⟨_, rfl, .error (herror error hrun)⟩
                | ok state => exact ⟨_, rfl, hok state hrun⟩

/-- More fuel does not change what a visit comes to. -/
theorem visit_succ {r : Except E (Progress V S)} (h : visit item parents run fuel v p = some r) :
    visit item parents run (fuel + 1) v p = some r := by
  induction fuel generalizing v p r with
  | zero => cases h
  | succ fuel ih =>
      unfold visit at h ⊢
      split
      next hitem => simpa [hitem] using h
      next b hitem =>
        simp only [hitem] at h
        split
        next hfinished => simpa [hfinished] using h
        next hopen =>
          rw [if_neg hopen] at h
          have hparent : ∀ w (p : Progress V S) r,
              (if w ∈ p.finished then some (.ok p) else visit item parents run fuel w p) = some r →
              (if w ∈ p.finished then some (.ok p)
                else visit item parents run (fuel + 1) w p) = some r := by
            intro w p r hr
            split
            next hdone => simpa [hdone] using hr
            next hdone => exact ih (by simpa [hdone] using hr)
          split at h
          next => cases h
          next error hr =>
            rw [visitAll_mono hparent hr]
            exact h
          next p' hr =>
            rw [visitAll_mono hparent hr]
            exact h

theorem visit_mono {fuel' : Nat} (hle : fuel ≤ fuel') {r : Except E (Progress V S)}
    (h : visit item parents run fuel v p = some r) :
    visit item parents run fuel' v p = some r := by
  induction hle with
  | refl => exact h
  | step _ ih => exact visit_succ ih

variable (run) in
/-- **The walk ends**: once every vertex with an item was visited, each was run, after its
parents, or one could not be run. -/
theorem exists_walk (hacyclic : ∀ v, ¬ Relation.TransGen (Below item parents) v v)
    {items : Finset V} (hitems : ∀ v b, item v = some b → v ∈ items)
    (hvs : ∀ v b, item v = some b → v ∈ vs) (start : S) :
    ∃ r, (∀ fuel, items.card < fuel →
        visitAll (visit item parents run fuel) vs ⟨∅, [], start⟩ = some r) ∧
      ((∃ p, r = .ok p ∧ Sound item parents run start p ∧
          ∀ v, v ∈ p.finished ↔ ∃ b, item v = some b) ∨
        ∃ error, r = .error error ∧ Fails item parents run start error) := by
  obtain ⟨rank, hrank, hbound⟩ := exists_rank hacyclic hitems
  have hstart : Sound item parents run start ⟨∅, [], start⟩ := ⟨by simp, .nil⟩
  have hvisit : ∀ v ∈ vs, ∀ p, Sound item parents run start p →
      ∃ r, visit item parents run (items.card + 1) v p = some r ∧
        Outcome item parents run start rank p [v] r := by
    intro v _ p hp
    refine exists_visit hrank hp (Nat.succ_pos _) ?_
    rintro ⟨b, hb⟩
    have := hbound v b hb
    omega
  obtain ⟨r, hr, houtcome⟩ := exists_visitAll hvisit hstart
  refine ⟨r, fun fuel hfuel => visitAll_mono (fun v p r h => visit_mono hfuel h) hr, ?_⟩
  cases houtcome with
  | error hfails => exact .inr ⟨_, rfl, hfails⟩
  | @ok p hsound _ hall _ =>
      refine .inl ⟨p, rfl, hsound, fun v => ⟨fun hv => ?_, ?_⟩⟩
      · exact hsound.ran.exists_item ((hsound.finished v).mp hv)
      · rintro ⟨b, hb⟩
        exact hall v (hvs v b hb) ⟨b, hb⟩

end CilCore.Postorder
