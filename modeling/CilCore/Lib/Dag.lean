import Mathlib.Data.List.AList
import Mathlib.Logic.Relation
import Mathlib.Data.Finset.Card

/-!
# Directed graphs with objects

A finite directed graph whose vertices hold objects. Edges point down, from a
vertex to its parents. The vertices below a vertex are found by walking down
along paths; when the graph has no cycle every vertex lies below a tip, and
removing a set that is closed downwards leaves the paths above it as they were.
-/

/-- Vertices with their objects, and edges between them, each in some order. -/
structure Dag (V O : Type) [DecidableEq V] where
  objs : AList fun _ : V => O
  edges : List (V × V)
  edges_mem : ∀ edge ∈ edges, edge.1 ∈ objs ∧ edge.2 ∈ objs

namespace Dag

variable {V O : Type} [DecidableEq V]

instance : Membership V (Dag V O) := ⟨fun d v => v ∈ d.objs⟩

instance (v : V) (d : Dag V O) : Decidable (v ∈ d) := inferInstanceAs (Decidable (v ∈ d.objs))

/-- The object of a vertex. -/
def readObj (d : Dag V O) (v : V) : Option O := d.objs.lookup v

theorem mem_iff {d : Dag V O} {v : V} : v ∈ d ↔ ∃ o, d.readObj v = some o := by
  rw [← Option.isSome_iff_exists]
  exact AList.lookup_isSome.symm

theorem readObj_eq_none {d : Dag V O} {v : V} : d.readObj v = none ↔ v ∉ d :=
  AList.lookup_eq_none

/-- There is an edge from a vertex down to another. -/
def Edge (d : Dag V O) (v w : V) : Prop := (v, w) ∈ d.edges

instance (d : Dag V O) (v w : V) : Decidable (d.Edge v w) :=
  inferInstanceAs (Decidable (_ ∈ _))

theorem Edge.mem_left {d : Dag V O} {v w : V} (h : d.Edge v w) : v ∈ d := (d.edges_mem _ h).1

theorem Edge.mem_right {d : Dag V O} {v w : V} (h : d.Edge v w) : w ∈ d := (d.edges_mem _ h).2

/-- The vertices that the edges of a vertex lead down to. -/
def parents (d : Dag V O) (v : V) : List V :=
  (d.edges.filter fun edge => edge.1 = v).map (·.2)

@[simp] theorem mem_parents {d : Dag V O} {v w : V} : w ∈ d.parents v ↔ d.Edge v w := by
  simp [parents, Edge]

/-- A vertex that no edge leads to. -/
def IsTip (d : Dag V O) (v : V) : Prop := v ∈ d ∧ ∀ w, ¬ d.Edge w v

/-- Walking down from one vertex leads to another. -/
def Reaches (d : Dag V O) : V → V → Prop := Relation.ReflTransGen d.Edge

/-- No vertex lies strictly below itself. -/
def Acyclic (d : Dag V O) : Prop := ∀ v, ¬ Relation.TransGen d.Edge v v

/-- A path from a vertex down to one without parents. -/
inductive PathDown (d : Dag V O) : V → List V → Prop
  | bottom {v : V} (h : ∀ w, ¬ d.Edge v w) : PathDown d v [v]
  | step {v w : V} {path : List V} (h : d.Edge v w) (hpath : PathDown d w path) :
      PathDown d v (v :: path)

/-! ### What lies below -/

theorem Reaches.mem {d : Dag V O} {v w : V} (h : d.Reaches v w) (hv : v ∈ d) : w ∈ d := by
  cases h with
  | refl => exact hv
  | tail _ hedge => exact hedge.mem_right

theorem Reaches.mem_left {d : Dag V O} {v w : V} (h : d.Reaches v w) (hw : w ∈ d) : v ∈ d := by
  cases Relation.ReflTransGen.cases_head h with
  | inl heq => exact heq ▸ hw
  | inr hstep =>
      obtain ⟨_, hedge, -⟩ := hstep
      exact hedge.mem_left

/-- A tip is below nothing but itself. -/
theorem IsTip.eq_of_reaches {d : Dag V O} {v w : V} (hw : d.IsTip w) (h : d.Reaches v w) :
    v = w := by
  cases h with
  | refl => rfl
  | tail _ hedge => exact absurd hedge (hw.2 _)

open Classical in
/-- The vertices below a vertex, itself included. -/
noncomputable def below (d : Dag V O) (v : V) : Finset V :=
  d.objs.keys.toFinset.filter fun w => d.Reaches v w

open Classical in
/-- The vertices above a vertex, itself included. -/
noncomputable def above (d : Dag V O) (v : V) : Finset V :=
  d.objs.keys.toFinset.filter fun w => d.Reaches w v

@[simp] theorem mem_below {d : Dag V O} {v w : V} : w ∈ d.below v ↔ w ∈ d ∧ d.Reaches v w := by
  classical
  rw [below, Finset.mem_filter, List.mem_toFinset, ← AList.mem_keys]
  rfl

@[simp] theorem mem_above {d : Dag V O} {v w : V} : w ∈ d.above v ↔ w ∈ d ∧ d.Reaches w v := by
  classical
  rw [above, Finset.mem_filter, List.mem_toFinset, ← AList.mem_keys]
  rfl

/-- A step down leaves fewer vertices below. -/
theorem below_ssubset {d : Dag V O} (hd : d.Acyclic) {v w : V} (h : d.Edge v w) :
    d.below w ⊂ d.below v := by
  rw [Finset.ssubset_iff_of_subset]
  · refine ⟨v, by simpa using ⟨h.mem_left, .refl⟩, fun hv => ?_⟩
    exact hd v (Relation.TransGen.head' h (mem_below.mp hv).2)
  · intro u hu
    rw [mem_below] at hu ⊢
    exact ⟨hu.1, Relation.ReflTransGen.head h hu.2⟩

/-- A step up leaves fewer vertices above. -/
theorem above_ssubset {d : Dag V O} (hd : d.Acyclic) {v w : V} (h : d.Edge v w) :
    d.above v ⊂ d.above w := by
  rw [Finset.ssubset_iff_of_subset]
  · refine ⟨w, by simpa using ⟨h.mem_right, .refl⟩, fun hw => ?_⟩
    exact hd w (Relation.TransGen.tail' (mem_above.mp hw).2 h)
  · intro u hu
    rw [mem_above] at hu ⊢
    exact ⟨hu.1, Relation.ReflTransGen.tail hu.2 h⟩

/-- Every vertex of a graph without cycles lies below a tip. -/
theorem Acyclic.exists_tip {d : Dag V O} (hd : d.Acyclic) {v : V} (hv : v ∈ d) :
    ∃ t, d.IsTip t ∧ d.Reaches t v := by
  by_cases htip : ∀ w, ¬ d.Edge w v
  · exact ⟨v, ⟨hv, htip⟩, .refl⟩
  · push Not at htip
    obtain ⟨w, hw⟩ := htip
    obtain ⟨t, ht, hreach⟩ := hd.exists_tip hw.mem_left
    exact ⟨t, ht, hreach.tail hw⟩
termination_by (d.above v).card
decreasing_by exact Finset.card_lt_card (above_ssubset hd hw)

/-! ### Paths -/

theorem PathDown.mem {d : Dag V O} {v w : V} {path : List V} (h : d.PathDown v path)
    (hw : w ∈ path) : d.Reaches v w := by
  induction h with
  | bottom _ =>
      rw [List.mem_singleton] at hw
      exact hw ▸ .refl
  | step hedge _ ih =>
      cases List.mem_cons.mp hw with
      | inl heq => exact heq ▸ .refl
      | inr htail => exact .head hedge (ih htail)

/-- In a graph without cycles there is a path down from every vertex. -/
theorem Acyclic.exists_pathDown {d : Dag V O} (hd : d.Acyclic) (v : V) :
    ∃ path, d.PathDown v path := by
  by_cases hbottom : ∀ w, ¬ d.Edge v w
  · exact ⟨[v], .bottom hbottom⟩
  · push Not at hbottom
    obtain ⟨w, hw⟩ := hbottom
    obtain ⟨path, hpath⟩ := hd.exists_pathDown w
    exact ⟨v :: path, .step hw hpath⟩
termination_by (d.below v).card
decreasing_by exact Finset.card_lt_card (below_ssubset hd hw)

theorem PathDown.mem_self {d : Dag V O} {v : V} {path : List V} (h : d.PathDown v path) :
    v ∈ path := by
  cases h <;> simp

/-- Every vertex below is on some path. -/
theorem Acyclic.exists_pathDown_mem {d : Dag V O} (hd : d.Acyclic) {v w : V}
    (h : d.Reaches v w) : ∃ path, d.PathDown v path ∧ w ∈ path := by
  induction h using Relation.ReflTransGen.head_induction_on with
  | refl =>
      obtain ⟨path, hpath⟩ := hd.exists_pathDown w
      exact ⟨path, hpath, hpath.mem_self⟩
  | head hedge _ ih =>
      obtain ⟨path, hpath, hw⟩ := ih
      exact ⟨_, .step hedge hpath, List.mem_cons_of_mem _ hw⟩

/-- A path from a vertex down to another, both included. -/
inductive Walk (d : Dag V O) : V → List V → V → Prop
  | here (v : V) : Walk d v [v] v
  | step {v w u : V} {path : List V} (h : d.Edge v w) (hpath : Walk d w path u) :
      Walk d v (v :: path) u

theorem Walk.tail {d : Dag V O} {v u w : V} {path : List V} (h : d.Walk v path u)
    (hedge : d.Edge u w) : d.Walk v (path ++ [w]) w := by
  induction h with
  | here v => exact .step hedge (.here w)
  | step hfirst _ ih => exact .step hfirst (ih hedge)

/-- A path goes on to everything below its end. -/
theorem Walk.append {d : Dag V O} {v u w : V} {path : List V} (h : d.Walk v path u)
    (hreach : d.Reaches u w) : ∃ further, d.Walk v (path ++ further) w := by
  induction hreach with
  | refl => exact ⟨[], by rwa [List.append_nil]⟩
  | tail _ hedge ih =>
      obtain ⟨further, hwalk⟩ := ih
      exact ⟨further ++ [_], by rw [← List.append_assoc]; exact hwalk.tail hedge⟩

/-- A path that can still go down is the start of one that cannot. -/
theorem Walk.pathDown {d : Dag V O} {v u : V} {path rest : List V} (h : d.Walk v path u)
    (hrest : d.PathDown u (u :: rest)) : d.PathDown v (path ++ rest) := by
  induction h with
  | here v => exact hrest
  | step hedge _ ih => exact .step hedge (ih hrest)

theorem Walk.eq_append {d : Dag V O} {v u : V} {path : List V} (h : d.Walk v path u) :
    ∃ before, path = before ++ [u] := by
  induction h with
  | here v => exact ⟨[], rfl⟩
  | step _ _ ih =>
      obtain ⟨before, hbefore⟩ := ih
      exact ⟨_ :: before, by rw [hbefore]; rfl⟩

theorem PathDown.head {d : Dag V O} {v : V} {path : List V} (h : d.PathDown v path) :
    ∃ rest, path = v :: rest := by
  cases h with
  | bottom _ => exact ⟨[], rfl⟩
  | step _ _ => exact ⟨_, rfl⟩

/-- What a path visits splits it: the way there, and the way on from there. -/
theorem PathDown.split {d : Dag V O} {v u : V} {before after : List V}
    (h : d.PathDown v (before ++ u :: after)) :
    d.Walk v (before ++ [u]) u ∧ d.PathDown u (u :: after) := by
  induction before generalizing v with
  | nil =>
      obtain ⟨rest, hrest⟩ := h.head
      obtain ⟨rfl, rfl⟩ := List.cons.inj hrest
      exact ⟨.here u, h⟩
  | cons w before ih =>
      rw [List.cons_append] at h
      generalize hpath : before ++ u :: after = path at h
      cases h with
      | bottom _ => exact absurd hpath (by simp)
      | step hedge hrest =>
          obtain ⟨hwalk, hon⟩ := ih (hpath ▸ hrest)
          exact ⟨.step hedge hwalk, hon⟩

/-- All paths down from a vertex that are at most as long as the fuel. -/
def pathsDown (d : Dag V O) : Nat → V → List (List V)
  | 0, _ => []
  | n + 1, v =>
      if d.parents v = [] then [[v]]
      else (d.parents v).flatMap fun w => (d.pathsDown n w).map (v :: ·)

theorem mem_pathsDown_of_lt {d : Dag V O} (hd : d.Acyclic) {v : V} {path : List V} :
    ∀ {n : Nat}, (d.below v).card < n → (path ∈ d.pathsDown n v ↔ d.PathDown v path) := by
  intro n hn
  induction n generalizing v path with
  | zero => exact absurd hn (Nat.not_lt_zero _)
  | succ n ih =>
      rw [pathsDown]
      split
      next hparents =>
        have hbottom : ∀ w, ¬ d.Edge v w := by
          intro w hw
          simpa [hparents] using mem_parents.mpr hw
        rw [List.mem_singleton]
        constructor
        · rintro rfl
          exact .bottom hbottom
        · intro hpath
          cases hpath with
          | bottom _ => rfl
          | step hedge _ => exact absurd hedge (hbottom _)
      next hparents =>
        have hcard {w : V} (hw : d.Edge v w) : (d.below w).card < n :=
          (Finset.card_lt_card (below_ssubset hd hw)).trans_le (Nat.lt_succ_iff.mp hn)
        simp only [List.mem_flatMap, List.mem_map, mem_parents]
        constructor
        · rintro ⟨w, hw, rest, hrest, rfl⟩
          exact .step hw ((ih (hcard hw)).mp hrest)
        · intro hpath
          cases hpath with
          | bottom h =>
              obtain ⟨w, hw⟩ := List.exists_mem_of_ne_nil _ hparents
              exact absurd (mem_parents.mp hw) (h w)
          | step hedge hrest => exact ⟨_, hedge, _, (ih (hcard hedge)).mpr hrest, rfl⟩

/-- With more fuel than there are vertices, these are all the paths. -/
theorem mem_pathsDown {d : Dag V O} (hd : d.Acyclic) {v : V} {path : List V} :
    path ∈ d.pathsDown (d.objs.keys.length + 1) v ↔ d.PathDown v path := by
  classical
  refine mem_pathsDown_of_lt hd (Nat.lt_succ_of_le ?_)
  exact (Finset.card_filter_le _ _).trans (List.toFinset_card_le _)

/-! ### Changing a graph -/

/-- The graph without vertices. -/
def empty : Dag V O := ⟨∅, [], by simp⟩

theorem notMem_empty (v : V) : v ∉ (empty : Dag V O) := AList.notMem_empty v

/-- Add a vertex with its object, and edges to those of the parents that are there. -/
def addVertex (v : V) (arrParents : List V) (o : O) (d : Dag V O) : Dag V O where
  objs := d.objs.insert v o
  edges := (arrParents.filter fun w => w ∈ d ∨ w = v).map (v, ·) ++ d.edges
  edges_mem := by
    intro edge hedge
    rw [List.mem_append, List.mem_map] at hedge
    simp only [AList.mem_insert]
    cases hedge with
    | inl hnew =>
        obtain ⟨w, hw, rfl⟩ := hnew
        have hw' := (List.mem_filter.mp hw).2
        rw [decide_eq_true_eq] at hw'
        exact ⟨.inl rfl, hw'.symm⟩
    | inr hold => exact ⟨.inr (d.edges_mem edge hold).1, .inr (d.edges_mem edge hold).2⟩

theorem mem_addVertex {d : Dag V O} {v w : V} {arrParents : List V} {o : O} :
    w ∈ d.addVertex v arrParents o ↔ w = v ∨ w ∈ d :=
  AList.mem_insert d.objs

theorem readObj_addVertex {d : Dag V O} {v w : V} {arrParents : List V} {o : O} :
    (d.addVertex v arrParents o).readObj w = if w = v then some o else d.readObj w := by
  unfold readObj addVertex
  split
  next heq => rw [heq, AList.lookup_insert]
  next hne => rw [AList.lookup_insert_ne hne]

theorem edge_addVertex {d : Dag V O} {v u w : V} {arrParents : List V} {o : O} :
    (d.addVertex v arrParents o).Edge u w ↔
      u = v ∧ w ∈ arrParents ∧ (w ∈ d ∨ w = v) ∨ d.Edge u w := by
  simp only [Edge, addVertex, List.mem_append, List.mem_map, List.mem_filter, decide_eq_true_eq,
    Prod.mk.injEq]
  constructor
  · rintro (⟨x, hx, rfl, rfl⟩ | hold)
    · exact .inl ⟨rfl, hx⟩
    · exact .inr hold
  · rintro (⟨rfl, hx⟩ | hold)
    · exact .inl ⟨w, hx, rfl, rfl⟩
    · exact .inr hold

theorem Reaches.addVertex {d : Dag V O} {v u w : V} {arrParents : List V} {o : O}
    (h : d.Reaches u w) : (d.addVertex v arrParents o).Reaches u w :=
  Relation.ReflTransGen.mono (fun _ _ hedge => edge_addVertex.mpr (.inr hedge)) u w h

/-- From an old vertex only old vertices are reached. -/
theorem reaches_addVertex_of_mem {d : Dag V O} {v u w : V} {arrParents : List V} {o : O}
    (hv : v ∉ d) (hu : u ∈ d) (h : (d.addVertex v arrParents o).Reaches u w) :
    d.Reaches u w ∧ w ∈ d := by
  induction h with
  | refl => exact ⟨.refl, hu⟩
  | tail _ hedge ih =>
      rcases edge_addVertex.mp hedge with ⟨rfl, -⟩ | hedge
      · exact absurd ih.2 hv
      · exact ⟨ih.1.tail hedge, hedge.mem_right⟩

/-- What a new vertex reaches is the vertex itself, or lies below one of its parents. -/
theorem reaches_addVertex_new {d : Dag V O} {v w : V} {arrParents : List V} {o : O} (hv : v ∉ d)
    (hself : v ∉ arrParents) (h : (d.addVertex v arrParents o).Reaches v w) :
    w = v ∨ ∃ p ∈ arrParents, p ∈ d ∧ d.Reaches p w ∧ w ∈ d := by
  rcases Relation.ReflTransGen.cases_head h with rfl | ⟨p, hedge, hrest⟩
  · exact .inl rfl
  · rcases edge_addVertex.mp hedge with ⟨-, hp, hin⟩ | hedge
    · have hpd : p ∈ d := hin.resolve_right fun heq => hself (heq ▸ hp)
      exact .inr ⟨p, hp, hpd, reaches_addVertex_of_mem hv hpd hrest⟩
    · exact absurd hedge.mem_left hv

/-- Remove a vertex and its edges. -/
def removeVertex (v : V) (d : Dag V O) : Dag V O where
  objs := d.objs.erase v
  edges := d.edges.filter fun edge => edge.1 ≠ v ∧ edge.2 ≠ v
  edges_mem := by
    intro edge hedge
    obtain ⟨hedge, hne⟩ := List.mem_filter.mp hedge
    rw [decide_eq_true_eq] at hne
    rw [AList.mem_erase, AList.mem_erase]
    exact ⟨⟨hne.1, (d.edges_mem edge hedge).1⟩, hne.2, (d.edges_mem edge hedge).2⟩

/-- Remove vertices one after another. -/
def removeVertices (d : Dag V O) (vs : List V) : Dag V O :=
  vs.foldl (fun d v => d.removeVertex v) d

theorem mem_removeVertices {d : Dag V O} {vs : List V} {w : V} :
    w ∈ d.removeVertices vs ↔ w ∈ d ∧ w ∉ vs := by
  induction vs generalizing d with
  | nil => simp [removeVertices]
  | cons v vs ih =>
      have hstep : w ∈ d.removeVertex v ↔ w ≠ v ∧ w ∈ d := AList.mem_erase
      have hfold : w ∈ d.removeVertices (v :: vs) ↔ w ∈ (d.removeVertex v).removeVertices vs :=
        Iff.rfl
      rw [hfold, ih, hstep, List.mem_cons]
      tauto

theorem edge_removeVertices {d : Dag V O} {vs : List V} {u w : V} :
    (d.removeVertices vs).Edge u w ↔ d.Edge u w ∧ u ∉ vs ∧ w ∉ vs := by
  induction vs generalizing d with
  | nil => simp [removeVertices]
  | cons v vs ih =>
      have hstep : (d.removeVertex v).Edge u w ↔ d.Edge u w ∧ u ≠ v ∧ w ≠ v := by
        simp [Edge, removeVertex]
      have hfold : (d.removeVertices (v :: vs)).Edge u w ↔
          ((d.removeVertex v).removeVertices vs).Edge u w := Iff.rfl
      rw [hfold, ih, hstep, List.mem_cons, List.mem_cons]
      tauto

theorem readObj_removeVertices {d : Dag V O} {vs : List V} {w : V} :
    (d.removeVertices vs).readObj w = if w ∈ vs then none else d.readObj w := by
  induction vs generalizing d with
  | nil => simp [removeVertices]
  | cons v vs ih =>
      have hfold : (d.removeVertices (v :: vs)).readObj w =
          ((d.removeVertex v).removeVertices vs).readObj w := rfl
      rw [hfold, ih]
      by_cases hv : w = v
      · subst hv
        have herase : (d.removeVertex w).readObj w = none := AList.lookup_erase w d.objs
        simp [herase]
      · have herase : (d.removeVertex v).readObj w = d.readObj w := AList.lookup_erase_ne hv
        rw [herase]
        simp [hv]

/-- Change the objects. -/
def mapObjs (f : O → O) (d : Dag V O) : Dag V O where
  objs :=
    ⟨d.objs.entries.map fun entry => ⟨entry.1, f entry.2⟩, by
      have hkeys := d.objs.nodupKeys
      rw [List.NodupKeys] at hkeys ⊢
      rwa [List.keys, List.map_map]⟩
  edges := d.edges
  edges_mem := by
    have hkeys (v : V) (hv : v ∈ d.objs) :
        v ∈ (d.objs.entries.map fun entry => (⟨entry.1, f entry.2⟩ : Sigma fun _ : V => O)).keys := by
      rw [List.keys, List.map_map]
      exact hv
    exact fun edge hedge =>
      ⟨hkeys _ (d.edges_mem edge hedge).1, hkeys _ (d.edges_mem edge hedge).2⟩

theorem edge_mapObjs {f : O → O} {d : Dag V O} {u w : V} :
    (d.mapObjs f).Edge u w ↔ d.Edge u w := Iff.rfl

theorem readObj_mapObjs {f : O → O} {d : Dag V O} {v : V} :
    (d.mapObjs f).readObj v = (d.readObj v).map f := by
  unfold readObj AList.lookup mapObjs
  dsimp only
  induction d.objs.entries with
  | nil => rfl
  | cons entry entries ih =>
      obtain ⟨w, o⟩ := entry
      by_cases hv : v = w
      · subst hv
        simp
      · rw [List.map_cons, List.dlookup_cons_ne _ _ hv, List.dlookup_cons_ne _ _ hv, ih]

theorem mem_mapObjs {f : O → O} {d : Dag V O} {v : V} : v ∈ d.mapObjs f ↔ v ∈ d := by
  rw [mem_iff, mem_iff, readObj_mapObjs]
  simp

/-! ### Acyclicity under change -/

theorem Acyclic.of_edge {d d' : Dag V O} (hd : d.Acyclic)
    (h : ∀ u w, d'.Edge u w → d.Edge u w) : d'.Acyclic :=
  fun v hv => hd v (Relation.TransGen.mono h v v hv)

theorem Acyclic.removeVertices {d : Dag V O} (hd : d.Acyclic) (vs : List V) :
    (d.removeVertices vs).Acyclic :=
  hd.of_edge fun _ _ h => (edge_removeVertices.mp h).1

theorem Acyclic.mapObjs {d : Dag V O} (hd : d.Acyclic) (f : O → O) : (d.mapObjs f).Acyclic :=
  hd.of_edge fun _ _ h => h

theorem acyclic_empty : (empty : Dag V O).Acyclic := by
  intro v hv
  cases hv with
  | single hedge => cases hedge
  | tail _ hedge => cases hedge

/-- A new vertex that is not its own parent is above everything it leads to. -/
theorem Acyclic.addVertex {d : Dag V O} (hd : d.Acyclic) {v : V} {arrParents : List V} (o : O)
    (hv : v ∉ d) (hself : v ∉ arrParents) : (d.addVertex v arrParents o).Acyclic := by
  -- from an old vertex only old edges lead on
  have hold {u w : V} (hu : u ∈ d) (h : Relation.TransGen (d.addVertex v arrParents o).Edge u w) :
      Relation.TransGen d.Edge u w ∧ w ∈ d := by
    induction h with
    | single hedge =>
        rcases edge_addVertex.mp hedge with ⟨rfl, -⟩ | hedge
        · exact absurd hu hv
        · exact ⟨.single hedge, hedge.mem_right⟩
    | tail _ hedge ih =>
        rcases edge_addVertex.mp hedge with ⟨rfl, -⟩ | hedge
        · exact absurd ih.2 hv
        · exact ⟨ih.1.tail hedge, hedge.mem_right⟩
  intro u hu
  by_cases hmem : u ∈ d
  · exact hd u (hold hmem hu).1
  · obtain ⟨w, hedge, hrest⟩ := Relation.TransGen.head'_iff.mp hu
    rcases edge_addVertex.mp hedge with ⟨rfl, hw, hin⟩ | hedge
    · have hwd : w ∈ d := hin.resolve_right fun heq => hself (heq ▸ hw)
      cases Relation.ReflTransGen.cases_tail hrest with
      | inl heq => exact hmem (heq ▸ hwd)
      | inr hlast =>
          obtain ⟨x, hx, hlast⟩ := hlast
          exact hmem (hold hwd (Relation.TransGen.tail' hx hlast)).2
    · exact hmem hedge.mem_left

/-! ### Removing what is closed downwards -/

/-- With a vertex, everything below it is in the list. -/
def DownClosed (d : Dag V O) (vs : List V) : Prop := ∀ v ∈ vs, ∀ w, d.Edge v w → w ∈ vs

theorem DownClosed.reaches {d : Dag V O} {vs : List V} (hvs : d.DownClosed vs) {v w : V}
    (hv : v ∈ vs) (h : d.Reaches v w) : w ∈ vs := by
  induction h with
  | refl => exact hv
  | tail _ hedge ih => exact hvs _ ih _ hedge

/-- What lies below a remaining vertex and remains is still below it. -/
theorem DownClosed.reaches_removeVertices {d : Dag V O} {vs : List V} (hvs : d.DownClosed vs)
    {v w : V} (hw : w ∉ vs) : (d.removeVertices vs).Reaches v w ↔ d.Reaches v w := by
  constructor
  · intro h
    exact Relation.ReflTransGen.mono (fun u x hedge => (edge_removeVertices.mp hedge).1) v w h
  · intro h
    induction h using Relation.ReflTransGen.head_induction_on with
    | refl => exact .refl
    | head hedge hrest ih =>
        refine .head (edge_removeVertices.mpr ⟨hedge, ?_, ?_⟩) ih
        · exact fun hu => hw (hvs.reaches hu (.head hedge hrest))
        · exact fun hu => hw (hvs.reaches hu hrest)

/-- The tips that remain are the tips that were there. -/
theorem DownClosed.isTip_removeVertices {d : Dag V O} {vs : List V} (hvs : d.DownClosed vs)
    {v : V} : (d.removeVertices vs).IsTip v ↔ d.IsTip v ∧ v ∉ vs := by
  constructor
  · rintro ⟨hmem, hedge⟩
    obtain ⟨hv, hnot⟩ := mem_removeVertices.mp hmem
    refine ⟨⟨hv, fun w hw => ?_⟩, hnot⟩
    exact hedge w (edge_removeVertices.mpr ⟨hw, fun hin => hnot (hvs w hin v hw), hnot⟩)
  · rintro ⟨⟨hv, hedge⟩, hnot⟩
    exact ⟨mem_removeVertices.mpr ⟨hv, hnot⟩, fun w hw => hedge w (edge_removeVertices.mp hw).1⟩

/-! ### Induced subgraphs -/

theorem Walk.reaches_end {d : Dag V O} {v u : V} {path : List V} (h : d.Walk v path u) :
    d.Reaches v u := by
  induction h with
  | here v => exact .refl
  | step hedge _ ih => exact .head hedge ih

/-- What lies on a path is below its start and above its end. -/
theorem Walk.reaches {d : Dag V O} {v u x : V} {path : List V} (h : d.Walk v path u)
    (hx : x ∈ path) : d.Reaches v x ∧ d.Reaches x u := by
  induction h with
  | here v =>
      rw [List.mem_singleton] at hx
      exact hx ▸ ⟨.refl, .refl⟩
  | step hedge hpath ih =>
      rcases List.mem_cons.mp hx with rfl | hx
      · exact ⟨.refl, .head hedge hpath.reaches_end⟩
      · exact ⟨.head hedge (ih hx).1, (ih hx).2⟩

/-- Some of the vertices of a graph, with all the edges between them. -/
structure Induced (d' d : Dag V O) : Prop where
  mem : ∀ v, v ∈ d' → v ∈ d
  edge : ∀ v w, d'.Edge v w ↔ d.Edge v w ∧ v ∈ d' ∧ w ∈ d'

/-- The paths of an induced subgraph are those that stay inside it. -/
theorem Induced.walk_iff {d' d : Dag V O} (h : Induced d' d) {v u : V} {path : List V}
    (hv : v ∈ d') : d'.Walk v path u ↔ d.Walk v path u ∧ ∀ x ∈ path, x ∈ d' := by
  constructor
  · intro hwalk
    refine ⟨?_, fun x hx => (hwalk.reaches hx).1.mem hv⟩
    clear hv
    induction hwalk with
    | here v => exact .here v
    | step hedge _ ih => exact .step ((h.edge _ _).mp hedge).1 ih
  · rintro ⟨hwalk, hinside⟩
    induction hwalk with
    | here v => exact .here v
    | @step v w u path hedge hpath ih =>
        have hw : w ∈ path := by
          cases hpath with
          | here _ => exact List.mem_singleton_self w
          | step _ _ => exact List.mem_cons_self
        have hwin : w ∈ d' := hinside w (List.mem_cons_of_mem v hw)
        exact .step ((h.edge v w).mpr ⟨hedge, hv, hwin⟩)
          (ih hwin fun x hx => hinside x (List.mem_cons_of_mem v hx))

/-- A path from an old vertex does not lead to a new one. -/
theorem walk_addVertex {d : Dag V O} {v x u : V} {arrParents : List V} {o : O} {path : List V}
    (hx : x ∉ d) (hv : v ∈ d) :
    (d.addVertex x arrParents o).Walk v path u ↔ d.Walk v path u := by
  constructor
  · intro hwalk
    induction hwalk with
    | here v => exact .here v
    | step hedge _ ih =>
        rcases edge_addVertex.mp hedge with ⟨rfl, -⟩ | hold
        · exact absurd hv hx
        · exact .step hold (ih hold.mem_right)
  · intro hwalk
    clear hv
    induction hwalk with
    | here v => exact .here v
    | step hedge _ ih => exact .step (edge_addVertex.mpr (.inr hedge)) ih

end Dag
