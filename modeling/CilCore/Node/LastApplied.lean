import CilCore.Node.BlockProcessor

/-!
# The last applied blocks

`_updateLastAppliedBlocks` of `node/node.js` keeps a list of hashes, the last top stable
block of each concilium. It is read back to find out where each concilium stands, so it
should have the highest block of each of them.
-/

namespace CilCore

/-- The last entry of a list that has a key. -/
def lastOf {α : Type} (key : α → Nat) (xs : List α) (k : Nat) : Option α :=
  (xs.filter fun x => key x = k).getLast?

section LastOf

variable {α : Type} {key : α → Nat} {xs : List α} {x : α} {k : Nat}

theorem lastOf_cons : lastOf key (x :: xs) k =
    (lastOf key xs k).or (if key x = k then some x else none) := by
  unfold lastOf
  by_cases hkey : key x = k
  · rw [List.filter_cons_of_pos (by simpa using hkey), if_pos hkey, List.getLast?_cons]
    cases (xs.filter fun x => key x = k).getLast? <;> rfl
  · rw [List.filter_cons_of_neg (by simpa using hkey), if_neg hkey, Option.or_none]

theorem lastOf_eq_some (h : lastOf key xs k = some x) : x ∈ xs ∧ key x = k := by
  have hmem := List.mem_filter.mp (List.mem_of_getLast? h)
  exact ⟨hmem.1, of_decide_eq_true hmem.2⟩

variable (key) in
theorem exists_lastOf (h : x ∈ xs) : ∃ last, lastOf key xs (key x) = some last := by
  refine Option.ne_none_iff_exists'.mp fun hnone => ?_
  have hempty := List.getLast?_eq_none_iff.mp hnone
  exact absurd (hempty ▸ List.mem_filter.mpr ⟨h, by simp⟩) List.not_mem_nil

end LastOf

namespace BlockNode

variable {F : Factory} {headerOf : Hash → BlockHeader} {s : BlockNode}
  {past stored stored' arrTopStable hashes : List Hash} {hash : Hash} {i : Nat}

/-- The concilium of a block. -/
def conciliumOf (headerOf : Hash → BlockHeader) (hash : Hash) : Nat := (headerOf hash).conciliumId

/-- The height of a block. -/
def heightOf (headerOf : Hash → BlockHeader) (hash : Hash) : Nat := (headerOf hash).height

/-- What the main graph knows of blocks are their headers. -/
def KnowsHeaders (headerOf : Hash → BlockHeader) (mainDag : MainDag) : Prop :=
  ∀ hash blockInfo, mainDag.getBlockInfo hash = some blockInfo → blockInfo.header = headerOf hash

/-- A list has the highest block of each concilium of which there was a top stable block,
and no other. -/
structure Exact (headerOf : Hash → BlockHeader) (past stored : List Hash) : Prop where
  has : ∀ hash ∈ past, ∃ last ∈ stored, conciliumOf headerOf last = conciliumOf headerOf hash
  one : (stored.map (conciliumOf headerOf)).Nodup
  stable : ∀ last ∈ stored, last ∈ past
  highest : ∀ last ∈ stored, ∀ hash ∈ past,
    conciliumOf headerOf hash = conciliumOf headerOf last → heightOf headerOf hash ≤ heightOf headerOf last

/-- No concilium is lost, and none gets lower. -/
def NotBelow (headerOf : Hash → BlockHeader) (stored stored' : List Hash) : Prop :=
  ∀ last ∈ stored, ∃ last' ∈ stored', conciliumOf headerOf last' = conciliumOf headerOf last ∧
    heightOf headerOf last ≤ heightOf headerOf last'

/-- The ids of all conciliums are within the bound of the loop, and what is listed last of
a concilium among the new top stable blocks is not below the others or the stored one. -/
structure KeepsExact (F : Factory) (headerOf : Hash → BlockHeader) (s : BlockNode)
    (arrTopStable : List Hash) : Prop where
  bounded : ∀ hash ∈ s.disk.arrLastApplied ++ arrTopStable,
    conciliumOf headerOf hash ≤ s.disk.storage.getConciliumsCount F
  highest : ∀ hash ∈ s.disk.arrLastApplied ++ arrTopStable, ∀ last,
    lastOf (conciliumOf headerOf) arrTopStable (conciliumOf headerOf hash) = some last →
      heightOf headerOf hash ≤ heightOf headerOf last

/-- The top stable blocks of all finality events so far, and the list that is stored after
them. In between, the node may change in any way. -/
inductive UpdatedWhile (F : Factory) (headerOf : Hash → BlockHeader)
    (condition : BlockNode → List Hash → Prop) : List Hash → List Hash → Prop
  | start : UpdatedWhile F headerOf condition [] []
  | step {past stored stored' arrTopStable : List Hash} {s : BlockNode}
      (hupdated : UpdatedWhile F headerOf condition past stored)
      (hstored : s.disk.arrLastApplied = stored) (hknows : KnowsHeaders headerOf s.mainDag)
      (hcondition : condition s arrTopStable)
      (hok : s.newLastApplied F arrTopStable = .ok stored') :
      UpdatedWhile F headerOf condition (past ++ arrTopStable) stored'

/-! ### One update -/

/-- The map has the last hash of each concilium. -/
theorem lookup_mapConciliumIdHash {mainDag : MainDag} (hknows : KnowsHeaders headerOf mainDag)
    {mapHashes result : FinMap Nat Hash}
    (h : mapConciliumIdHash mainDag hashes mapHashes = .ok result) (i : Nat) :
    result.lookup i = (lastOf (conciliumOf headerOf) hashes i).or (mapHashes.lookup i) := by
  induction hashes generalizing mapHashes with
  | nil =>
      cases h
      rfl
  | cons hash rest ih =>
      rw [mapConciliumIdHash] at h
      split at h
      next => cases h
      next cBlockInfo hinfo =>
        have hkey : cBlockInfo.header.conciliumId = conciliumOf headerOf hash := by
          rw [hknows hash cBlockInfo hinfo, conciliumOf]
        rw [ih h, lastOf_cons, FinMap.lookup_insert_ite, hkey, Option.or_assoc]
        by_cases heq : conciliumOf headerOf hash = i
        · rw [if_pos heq.symm, if_pos heq, Option.some_or]
        · rw [if_neg (Ne.symm heq), if_neg heq, Option.none_or]

/-- The stored list: what is listed last of each concilium within the bound. -/
theorem mem_newLastApplied (hknows : KnowsHeaders headerOf s.mainDag)
    (hok : s.newLastApplied F arrTopStable = .ok stored') :
    stored' = (List.range (s.disk.storage.getConciliumsCount F + 1)).filterMap fun i =>
      (lastOf (conciliumOf headerOf) arrTopStable i).or
        (lastOf (conciliumOf headerOf) s.disk.arrLastApplied i) := by
  unfold newLastApplied at hok
  split at hok
  next => cases hok
  next mapPrev hprev =>
    split at hok
    next => cases hok
    next mapNew hnew =>
      cases hok
      refine congrArg (List.filterMap · _) (funext fun i => ?_)
      rw [lookup_mapConciliumIdHash hknows hprev, lookup_mapConciliumIdHash hknows hnew]
      simp

/-- What the update picks for a concilium. -/
def picked (headerOf : Hash → BlockHeader) (s : BlockNode) (arrTopStable : List Hash) (i : Nat) :
    Option Hash :=
  (lastOf (conciliumOf headerOf) arrTopStable i).or
    (lastOf (conciliumOf headerOf) s.disk.arrLastApplied i)

theorem picked_eq_some {last : Hash} (h : picked headerOf s arrTopStable i = some last) :
    last ∈ s.disk.arrLastApplied ++ arrTopStable ∧ conciliumOf headerOf last = i := by
  rcases Option.or_eq_some_iff.mp h with hnew | ⟨-, hprev⟩
  · obtain ⟨hmem, hkey⟩ := lastOf_eq_some hnew
    exact ⟨List.mem_append_right _ hmem, hkey⟩
  · obtain ⟨hmem, hkey⟩ := lastOf_eq_some hprev
    exact ⟨List.mem_append_left _ hmem, hkey⟩

variable (headerOf) in
theorem exists_picked (h : hash ∈ s.disk.arrLastApplied ++ arrTopStable) :
    ∃ last, picked headerOf s arrTopStable (conciliumOf headerOf hash) = some last := by
  unfold picked
  rcases List.mem_append.mp h with hprev | hnew
  · obtain ⟨last, hlast⟩ := exists_lastOf (conciliumOf headerOf) hprev
    cases lastOf (conciliumOf headerOf) arrTopStable (conciliumOf headerOf hash) with
    | none => exact ⟨last, hlast⟩
    | some new => exact ⟨new, rfl⟩
  · obtain ⟨last, hlast⟩ := exists_lastOf (conciliumOf headerOf) hnew
    exact ⟨last, by rw [hlast, Option.some_or]⟩

theorem mem_stored_iff (hknows : KnowsHeaders headerOf s.mainDag)
    (hok : s.newLastApplied F arrTopStable = .ok stored') {last : Hash} :
    last ∈ stored' ↔ conciliumOf headerOf last ≤ s.disk.storage.getConciliumsCount F ∧
      picked headerOf s arrTopStable (conciliumOf headerOf last) = some last := by
  rw [mem_newLastApplied hknows hok, List.mem_filterMap]
  constructor
  · rintro ⟨i, hi, hpicked⟩
    obtain ⟨-, rfl⟩ := picked_eq_some hpicked
    exact ⟨Nat.lt_succ_iff.mp (List.mem_range.mp hi), hpicked⟩
  · rintro ⟨hbound, hpicked⟩
    exact ⟨_, List.mem_range.mpr (Nat.lt_succ_of_le hbound), hpicked⟩

/-- However it is updated, the list has no concilium twice. -/
theorem nodup_stored (hknows : KnowsHeaders headerOf s.mainDag)
    (hok : s.newLastApplied F arrTopStable = .ok stored') :
    (stored'.map (conciliumOf headerOf)).Nodup := by
  rw [mem_newLastApplied hknows hok, List.map_filterMap]
  refine List.Nodup.filterMap (fun i j k hi hj => ?_) List.nodup_range
  obtain ⟨last, hlast, rfl⟩ := Option.map_eq_some_iff.mp hi
  obtain ⟨last', hlast', hsame⟩ := Option.map_eq_some_iff.mp hj
  rw [← (picked_eq_some hlast).2, ← (picked_eq_some hlast').2, hsame]

/-- **One update**: when it leaves the list exact. -/
theorem exact_newLastApplied_iff (hknows : KnowsHeaders headerOf s.mainDag)
    (hexact : Exact headerOf past s.disk.arrLastApplied)
    (hok : s.newLastApplied F arrTopStable = .ok stored') :
    Exact headerOf (past ++ arrTopStable) stored' ↔ KeepsExact F headerOf s arrTopStable := by
  have hmem {last : Hash} : last ∈ stored' ↔ _ := mem_stored_iff hknows hok
  have hpast : ∀ hash ∈ s.disk.arrLastApplied ++ arrTopStable, hash ∈ past ++ arrTopStable := by
    intro hash hhash
    rcases List.mem_append.mp hhash with hprev | hnew
    · exact List.mem_append_left _ (hexact.stable hash hprev)
    · exact List.mem_append_right _ hnew
  constructor
  · intro h
    have hbounded : ∀ hash ∈ s.disk.arrLastApplied ++ arrTopStable,
        conciliumOf headerOf hash ≤ s.disk.storage.getConciliumsCount F := by
      intro hash hhash
      obtain ⟨last, hlast, hsame⟩ := h.has hash (hpast hash hhash)
      exact hsame ▸ (hmem.mp hlast).1
    refine ⟨hbounded, fun hash hhash last hlast => ?_⟩
    obtain ⟨-, hkey⟩ := lastOf_eq_some hlast
    have hstored : last ∈ stored' := by
      refine hmem.mpr ⟨hkey ▸ hbounded hash hhash, ?_⟩
      rw [hkey, picked, hlast, Option.some_or]
    exact h.highest last hstored hash (hpast hash hhash) hkey.symm
  · intro h
    refine ⟨fun hash hhash => ?_, nodup_stored hknows hok, fun last hlast => ?_,
      fun last hlast hash hhash hsame => ?_⟩
    · -- of an earlier block the list has had the concilium
      obtain ⟨known, hknown, hsame⟩ : ∃ known ∈ s.disk.arrLastApplied ++ arrTopStable,
          conciliumOf headerOf known = conciliumOf headerOf hash := by
        rcases List.mem_append.mp hhash with hold | hnew
        · obtain ⟨known, hknown, hsame⟩ := hexact.has hash hold
          exact ⟨known, List.mem_append_left _ hknown, hsame⟩
        · exact ⟨hash, List.mem_append_right _ hnew, rfl⟩
      obtain ⟨last, hlast⟩ := exists_picked headerOf hknown
      have hkey := (picked_eq_some hlast).2
      refine ⟨last, hmem.mpr ⟨?_, by rw [hkey, hlast]⟩, hkey.trans hsame⟩
      exact hkey ▸ h.bounded known hknown
    · exact hpast last (picked_eq_some (hmem.mp hlast).2).1
    · -- what was picked is not below the highest one before
      have hpicked := (hmem.mp hlast).2
      have hhigh : ∀ known ∈ s.disk.arrLastApplied ++ arrTopStable,
          conciliumOf headerOf known = conciliumOf headerOf last →
            heightOf headerOf known ≤ heightOf headerOf last := by
        intro known hknown hkey
        rcases Option.or_eq_some_iff.mp hpicked with hnew | ⟨hnone, hprev⟩
        · exact h.highest known hknown last (hkey ▸ hnew)
        · rcases List.mem_append.mp hknown with hmine | hnew
          · exact hexact.highest last (lastOf_eq_some hprev).1 known (hexact.stable known hmine) hkey
          · obtain ⟨other, hother⟩ := exists_lastOf (conciliumOf headerOf) hnew
            rw [hkey, hnone] at hother
            cases hother
      rcases List.mem_append.mp hhash with hold | hnew
      · obtain ⟨known, hknown, hkey⟩ := hexact.has hash hold
        exact (hexact.highest known hknown hash hold hkey.symm).trans
          (hhigh known (List.mem_append_left _ hknown) (hkey.trans hsame))
      · exact hhigh hash (List.mem_append_right _ hnew) hsame

/-! ### All updates -/

theorem exact_of_updatedWhile
    (h : UpdatedWhile F headerOf (KeepsExact F headerOf) past stored) :
    Exact headerOf past stored := by
  induction h with
  | start =>
      refine ⟨?_, List.nodup_nil, ?_, ?_⟩
      · exact fun _ hmem => absurd hmem List.not_mem_nil
      · exact fun _ hmem => absurd hmem List.not_mem_nil
      · exact fun _ hmem => absurd hmem List.not_mem_nil
  | step _ hstored hknows hcondition hok ih =>
      subst hstored
      exact (exact_newLastApplied_iff hknows ih hok).mpr hcondition

theorem Exact.notBelow (h : Exact headerOf past stored)
    (h' : Exact headerOf (past ++ arrTopStable) stored') : NotBelow headerOf stored stored' := by
  intro last hlast
  have hpast := List.mem_append_left arrTopStable (h.stable last hlast)
  obtain ⟨last', hlast', hsame⟩ := h'.has last hpast
  exact ⟨last', hlast', hsame, h'.highest last' hlast' last hpast hsame.symm⟩

section Sample

/-- A factory with three conciliums. Two of them have no members. -/
def oneEnabled : Factory :=
  { Factory.sample with
    constants := { GENESIS_BLOCK := 1, CONCILIUM_DEFINITION_CONTRACT_ADDRESS := some 9 }
    arrConciliums := fun _ => [.rr { conciliumId := 0, addresses := [] },
      .rr { conciliumId := 1, addresses := [] }, .rr { conciliumId := 2, addresses := [8] }] }

/-- The headers of blocks of a concilium, each as high as its hash. -/
def sampleHeader (conciliumId : Nat) (hash : Hash) : BlockHeader :=
  { parentHashes := [1], merkleRoot := 0, conciliumId, timestamp := 0, height := hash }

/-- A node that knows one block of a concilium. -/
def knowingNode (conciliumId : Nat) : BlockNode :=
  { BlockNode.empty with
    disk := { BlockStore.empty with
      storage := { Storage.empty with
        contracts := (∅ : FinMap Address Contract).insert 9
          { strAddress := 9, conciliumId := some 0, version := .CONTRACT_V_JSON,
            contractData := some [] } } }
    mainDag := ⟨(∅ : FinMap Hash BlockInfo).insert 5 ⟨sampleHeader conciliumId 5, .EXECUTED_BLOCK⟩,
      []⟩ }

theorem knowsHeaders_knowingNode (conciliumId : Nat) :
    KnowsHeaders (sampleHeader conciliumId) (knowingNode conciliumId).mainDag := by
  intro hash blockInfo h
  have hlookup : ((∅ : FinMap Hash BlockInfo).insert 5
      ⟨sampleHeader conciliumId 5, .EXECUTED_BLOCK⟩).lookup hash = some blockInfo := h
  rw [FinMap.lookup_insert_ite] at hlookup
  split at hlookup
  next heq =>
    cases hlookup
    rw [heq]
  next => cases hlookup

end Sample

end BlockNode

end CilCore
