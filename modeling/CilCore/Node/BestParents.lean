import CilCore.Lib.Greedy
import CilCore.Node.Confluence
import CilCore.Storage.Clash

/-!
# Best parents and the order of arrival

`getBestParents` merges the tips one after another, best first, and leaves out those
that cannot be merged. Equally good tips stay in the order in which they were added.
-/

namespace CilCore

/-- No edge leads to the vertex. -/
def childless (dag : PendingDag) (v : Hash) : Bool := dag.edges.all fun edge => edge.2 ≠ v

theorem childless_iff {dag : PendingDag} {v : Hash} (hv : v ∈ dag) :
    childless dag v = true ↔ dag.IsTip v := by
  rw [← Dagjs.sample.mem_tips]
  exact (List.mem_filter.trans (and_iff_right hv)).symm

/-- Tips are listed in the order in which they were added, which is the reverse of that
in which the graph keeps its vertices. -/
def Dagjs.InsertionOrder (J : Dagjs) : Prop :=
  ∀ dag, J.tips dag = (dag.objs.keys.filter (childless dag)).reverse

/-- Tips in the order of insertion. -/
def Dagjs.inOrder : Dagjs where
  tips dag := (Dagjs.sample.tips dag).reverse
  findPathsDown := Dagjs.sample.findPathsDown
  mem_tips dag v := by rw [List.mem_reverse, Dagjs.sample.mem_tips]
  mem_findPathsDown := Dagjs.sample.mem_findPathsDown

namespace PendingBlocksManager

open PatchDB

variable {F : Factory} {J : Dagjs} {dag : PendingDag} {n : Option Nat} {topStable : List Hash}
  {arrivals order : List Arrival}

/-! ### Merging in turn -/

/-- All contracts of the patch of a tip have a concilium. -/
def TipSound (dag : PendingDag) (tip : Hash) : Prop :=
  ∃ patch, patch.Sound ∧ (dag.readObj tip).map (·.patch) = some patch

/-- The patches of two tips clash. -/
def TipsClash (dag : PendingDag) (tip tip' : Hash) : Prop :=
  ∃ patch patch', patch.Clash patch' ∧ (dag.readObj tip).map (·.patch) = some patch ∧
    (dag.readObj tip').map (·.patch) = some patch'

theorem TipsClash.symm {tip tip' : Hash} (h : TipsClash dag tip tip') :
    TipsClash dag tip' tip := by
  obtain ⟨patch, patch', hclash, htip, htip'⟩ := h
  exact ⟨patch', patch, hclash.symm, htip', htip⟩

theorem not_tipsClash_self (tip : Hash) : ¬ TipsClash dag tip tip := by
  rintro ⟨patch, patch', hclash, htip, htip'⟩
  rw [htip] at htip'
  cases htip'
  exact not_clash_self patch hclash

/-- The tips that `getBestParents` collects are a greedy selection. -/
theorem collectPatchesFrom_fst {tips kept : List Hash} {acc : PatchDB}
    (htips : ∀ tip ∈ tips, ∃ block, dag.readObj tip = some block ∧ block.patch.Recorded)
    (hkept : ∀ tip ∈ kept, tip ∈ dag) (hacc : Gathered (patchesOf dag kept) acc) :
    (collectPatchesFrom F dag tips kept acc).1 =
      Greedy.select (TipSound dag) (TipsClash dag) kept tips := by
  induction tips generalizing kept acc with
  | nil => rfl
  | cons tip rest ih =>
      obtain ⟨block, hblock, hrecorded⟩ := htips tip List.mem_cons_self
      have hrest := fun tip h => htips tip (List.mem_cons_of_mem _ h)
      have hpatch : (dag.readObj tip).map (·.patch) = some block.patch := by rw [hblock]; rfl
      -- the conditions of the merge are those of the selection
      have hmergeable : (TipSound dag tip ∧ ∀ other ∈ kept, ¬ TipsClash dag tip other) ↔
          block.patch.Sound ∧ ∀ p ∈ patchesOf dag kept, ¬ Clash block.patch p := by
        refine and_congr ?_ ?_
        · constructor
          · rintro ⟨patch, hsound, hread⟩
            rw [hpatch] at hread
            exact Option.some.inj hread ▸ hsound
          · exact fun hsound => ⟨block.patch, hsound, hpatch⟩
        · constructor
          · intro h p hp hclash
            obtain ⟨other, hother, hread⟩ := List.mem_filterMap.mp hp
            exact h other hother ⟨block.patch, p, hclash, hpatch, hread⟩
          · rintro h other hother ⟨patch, patch', hclash, hread, hread'⟩
            rw [hpatch] at hread
            refine h patch' (List.mem_filterMap.mpr ⟨other, hother, hread'⟩) ?_
            exact Option.some.inj hread ▸ hclash
      rw [collectPatchesFrom, hblock, Greedy.select]
      dsimp only
      cases hmerge : block.patch.merge F acc with
      | error error =>
          rw [if_neg]
          · exact ih hrest hkept hacc
          · intro h
            rw [(hacc.merge_eq_ok hrecorded).mpr ⟨hmergeable.mp h, rfl⟩] at hmerge
            cases hmerge
      | ok R =>
          rw [if_pos (hmergeable.mpr ((hacc.merge_eq_ok hrecorded).mp hmerge).1)]
          refine ih hrest (fun other hother => ?_) ?_
          · rcases List.mem_append.mp hother with hother | hother
            · exact hkept other hother
            · rw [List.mem_singleton.mp hother, Dag.mem_iff]
              exact ⟨block, hblock⟩
          · have hpatches : patchesOf dag (kept ++ [tip]) = patchesOf dag kept ++ [block.patch] := by
              rw [patchesOf, List.filterMap_append, List.filterMap_cons, hpatch]
              rfl
            rw [hpatches]
            exact hacc.merge hrecorded hmerge

/-! ### Ranks -/

/-- How good a tip is: more witnesses first, then longer paths. -/
def scoreOf (J : Dagjs) (pbm : PendingBlocksManager) (tip : Hash) : Nat ×ₗ Nat :=
  toLex (pbm.getVertexWitnessBelow J tip, pbm.longestPathLength J tip)

/-- How `_sortTips` ranks a tip: the concilium's own tip is above the others. -/
def rankOf (J : Dagjs) (pbm : PendingBlocksManager) (own : Option Hash) (tip : Hash) :
    WithTop (Nat ×ₗ Nat) :=
  if some tip = own then ⊤ else ↑(scoreOf J pbm tip)

/-- The same, with the index of the own tip. -/
def rankAt (J : Dagjs) (pbm : PendingBlocksManager) (prevBlockIndex : Option Nat)
    (tip : Hash × Nat) : WithTop (Nat ×ₗ Nat) :=
  if some tip.2 = prevBlockIndex then ⊤ else ↑(scoreOf J pbm tip.1)

theorem compareTips_le_iff {pbm : PendingBlocksManager} {prevBlockIndex : Option Nat}
    {tip tip' : Hash × Nat} :
    pbm.compareTips J prevBlockIndex tip tip' ≤ 0 ↔
      rankAt J pbm prevBlockIndex tip' ≤ rankAt J pbm prevBlockIndex tip := by
  unfold compareTips rankAt
  by_cases htip : some tip.2 = prevBlockIndex
  · simp [htip]
  · rw [if_neg htip, if_neg htip]
    by_cases htip' : some tip'.2 = prevBlockIndex
    · simp [htip']
    · rw [if_neg htip', if_neg htip', WithTop.coe_le_coe, scoreOf, scoreOf,
        Prod.Lex.toLex_le_toLex]
      dsimp only
      split <;> omega

/-- The entry of a tip and the tip have the same rank. -/
theorem rankAt_eq {pbm : PendingBlocksManager} {tips : List Hash} (hnodup : tips.Nodup)
    {own : Option Hash} (hown : ∀ hash, own = some hash → hash ∈ tips) {entry : Hash × Nat}
    (hentry : entry ∈ tips.zipIdx) :
    rankAt J pbm (own.bind fun hash => tips.findIdx? (· = hash)) entry =
      rankOf J pbm own entry.1 := by
  obtain ⟨tip, i⟩ := entry
  rw [List.mem_zipIdx_iff_getElem?] at hentry
  have hiff : some i = (own.bind fun hash => tips.findIdx? (· = hash)) ↔ some tip = own := by
    cases own with
    | none => simp
    | some hash =>
        obtain ⟨j, hj, hhash⟩ := List.getElem_of_mem (hown hash rfl)
        have hindex : tips.findIdx? (· = hash) = some j := by
          rw [List.findIdx?_eq_some_iff_getElem]
          refine ⟨hj, by simpa using hhash, fun k hk => ?_⟩
          have hne : tips[k] ≠ hash := fun heq =>
            absurd (hnodup.getElem_inj_iff.mp (heq.trans hhash.symm)) hk.ne
          simpa using hne
        obtain ⟨hi, htip⟩ := List.getElem?_eq_some_iff.mp hentry
        rw [Option.bind_some, hindex, Option.some.injEq, Option.some.injEq, ← hhash]
        exact hnodup.getElem_inj_iff.symm.trans (by rw [htip])
  unfold rankAt rankOf
  dsimp only
  by_cases h : some tip = own
  · rw [if_pos h, if_pos (hiff.mpr h)]
  · rw [if_neg h, if_neg fun hi => h (hiff.mp hi)]

/-- `_sortTips` enumerates the tips by rank. -/
theorem enumerates_sortTips {pbm : PendingBlocksManager} {tips : List Hash}
    (hnodup : tips.Nodup) {own : Option Hash}
    (hfind : pbm.findByConciliumId tips n = own) (hown : ∀ hash, own = some hash → hash ∈ tips) :
    Greedy.Enumerates (rankOf J pbm own) tips (pbm.sortTips J tips n) := by
  unfold sortTips
  rw [hfind]
  dsimp only
  refine ⟨?_, ?_⟩
  · have hperm := (List.mergeSort_perm tips.zipIdx fun tip1 tip2 => decide (pbm.compareTips J
      (own.bind fun hash => tips.findIdx? (· = hash)) tip1 tip2 ≤ 0)).map Prod.fst
    rwa [List.zipIdx_map_fst] at hperm
  · rw [List.pairwise_map]
    refine (List.pairwise_mergeSort ?_ ?_ tips.zipIdx).imp_of_mem fun {a b} ha hb hle => ?_
    · intro a b c hab hbc
      rw [decide_eq_true_eq, compareTips_le_iff] at hab hbc ⊢
      exact hbc.trans hab
    · intro a b
      rw [Bool.or_eq_true, decide_eq_true_eq, decide_eq_true_eq, compareTips_le_iff,
        compareTips_le_iff]
      exact le_total _ _
    · rw [decide_eq_true_eq, compareTips_le_iff, rankAt_eq hnodup hown (List.mem_mergeSort.mp ha),
        rankAt_eq hnodup hown (List.mem_mergeSort.mp hb)] at hle
      exact hle

/-- Tips that are listed by rank stay in their order. -/
theorem sortTips_eq_self {pbm : PendingBlocksManager} {tips : List Hash} (hnodup : tips.Nodup)
    {own : Option Hash} (hfind : pbm.findByConciliumId tips n = own)
    (hown : ∀ hash, own = some hash → hash ∈ tips)
    (hsorted : tips.Pairwise fun s t => rankOf J pbm own t ≤ rankOf J pbm own s) :
    pbm.sortTips J tips n = tips := by
  have hentries : tips.zipIdx.Pairwise fun tip1 tip2 => decide (pbm.compareTips J
      (own.bind fun hash => tips.findIdx? (· = hash)) tip1 tip2 ≤ 0) := by
    have hsorted : (tips.zipIdx.map Prod.fst).Pairwise fun s t =>
        rankOf J pbm own t ≤ rankOf J pbm own s := by rwa [List.zipIdx_map_fst]
    rw [List.pairwise_map] at hsorted
    refine hsorted.imp_of_mem fun {a b} ha hb hle => ?_
    rw [decide_eq_true_eq, compareTips_le_iff, rankAt_eq hnodup hown ha, rankAt_eq hnodup hown hb]
    exact hle
  unfold sortTips
  rw [hfind]
  dsimp only
  rw [List.mergeSort_of_pairwise hentries, List.zipIdx_map_fst]

/-! ### The graph of all blocks in another order -/

/-- The concilium made the block. -/
def MadeBy (dag : PendingDag) (n : Option Nat) (tip : Hash) : Prop :=
  ∃ block, dag.readObj tip = some block ∧ n = some block.blockHeader.conciliumId

/-- A tip that the concilium may take for its own: some tip of its, if there is one. -/
def OwnTip (dag : PendingDag) (n : Option Nat) : Option Hash → Prop
  | some own => dag.IsTip own ∧ MadeBy dag n own
  | none => ∀ tip, dag.IsTip tip → ¬ MadeBy dag n tip

theorem madeBy_iff {pbm : PendingBlocksManager} {tip : Hash} {conciliumId : Nat} :
    ((pbm.dag.readObj tip).any fun block => block.blockHeader.conciliumId = conciliumId) = true ↔
      MadeBy pbm.dag (some conciliumId) tip := by
  cases hread : pbm.dag.readObj tip with
  | none => simp [MadeBy, hread]
  | some block => simp [MadeBy, hread, eq_comm]

/-- `_findByConciliumId` finds an own tip if there is one. -/
theorem ownTip_findByConciliumId (pbm : PendingBlocksManager) (n : Option Nat) {tips : List Hash}
    (htips : ∀ tip, tip ∈ tips ↔ pbm.dag.IsTip tip) :
    OwnTip pbm.dag n (pbm.findByConciliumId tips n) := by
  unfold findByConciliumId
  cases n with
  | none =>
      rintro tip - ⟨block, -, hnone⟩
      cases hnone
  | some conciliumId =>
      rw [Option.bind_some]
      cases hfind : tips.find? fun tip =>
          (pbm.dag.readObj tip).any fun block => block.blockHeader.conciliumId = conciliumId with
      | none =>
          intro tip htip hmade
          exact List.find?_eq_none.mp hfind tip ((htips tip).mpr htip) (madeBy_iff.mpr hmade)
      | some own =>
          have hmade := List.find?_some hfind
          exact ⟨(htips own).mp (List.mem_of_find?_eq_some hfind), madeBy_iff.mp hmade⟩

/-- Nothing ranks as high as the own tip, so it comes first in a list by rank. -/
theorem exists_eq_own_cons {pbm : PendingBlocksManager} {own : Hash} {tips : List Hash}
    (hmem : own ∈ tips)
    (hsorted : tips.Pairwise fun s t => rankOf J pbm (some own) t ≤ rankOf J pbm (some own) s) :
    ∃ others, tips = own :: others := by
  cases tips with
  | nil => exact absurd hmem List.not_mem_nil
  | cons first rest =>
      refine ⟨rest, congrArg (· :: rest) ?_⟩
      rcases List.mem_cons.mp hmem with heq | hrest
      · exact heq.symm
      · have hle := (List.pairwise_cons.mp hsorted).1 own hrest
        rw [rankOf, if_pos rfl, top_le_iff, rankOf] at hle
        by_contra hne
        rw [if_neg fun heq => hne (Option.some.inj heq)] at hle
        exact WithTop.coe_ne_top hle

/-- Among tips listed by rank the own one is found. -/
theorem findByConciliumId_of_sorted (pbm : PendingBlocksManager) {tips : List Hash}
    (htips : ∀ tip, tip ∈ tips ↔ pbm.dag.IsTip tip) {own : Option Hash}
    (hown : OwnTip pbm.dag n own)
    (hsorted : tips.Pairwise fun s t => rankOf J pbm own t ≤ rankOf J pbm own s) :
    pbm.findByConciliumId tips n = own := by
  cases own with
  | none =>
      cases hfind : pbm.findByConciliumId tips n with
      | none => rfl
      | some found =>
          have hfound := ownTip_findByConciliumId pbm n htips
          rw [hfind] at hfound
          exact absurd hfound.2 (hown found hfound.1)
  | some own =>
      obtain ⟨htip, hmade⟩ := hown
      obtain ⟨rest, rfl⟩ := exists_eq_own_cons ((htips own).mpr htip) hsorted
      obtain ⟨block, -, rfl⟩ := id hmade
      rw [findByConciliumId, Option.bind_some, List.find?_cons_of_pos]
      exact madeBy_iff.mpr hmade

theorem keys_graphOf (h : ParentsFirst F arrivals) :
    (graphOf F arrivals).objs.keys = (hashesOf F arrivals).reverse := by
  induction arrivals using List.reverseRecOn with
  | nil => rfl
  | append_singleton arrivals arrival ih =>
      have hkeys : ((graphOf F arrivals).objs.insert (arrival.block.hash F)
          (arrival.object F)).keys = arrival.block.hash F ::
            (graphOf F arrivals).objs.keys.erase (arrival.block.hash F) := AList.keys_insert _
      rw [graphOf_append_singleton]
      refine hkeys.trans ?_
      rw [ih h.of_append, List.erase_of_not_mem, hashesOf, hashesOf, List.map_append,
        List.reverse_append]
      · rfl
      · rw [List.mem_reverse, ← mem_graphOf]
        exact h.last.1

theorem isTip_perm (hperm : order.Perm arrivals) (h : ParentsFirst F order)
    (h' : ParentsFirst F arrivals) {tip : Hash} :
    (graphOf F order).IsTip tip ↔ (graphOf F arrivals).IsTip tip := by
  refine and_congr ?_ (forall_congr' fun w => not_congr (edge_graphOf_perm hperm h h'))
  rw [mem_graphOf, mem_graphOf, hashesOf_perm hperm]

theorem pathDown_perm (hperm : order.Perm arrivals) (h : ParentsFirst F order)
    (h' : ParentsFirst F arrivals) {v : Hash} {path : List Hash}
    (hpath : (graphOf F order).PathDown v path) : (graphOf F arrivals).PathDown v path := by
  induction hpath with
  | bottom hbottom => exact .bottom fun w hw => hbottom w ((edge_graphOf_perm hperm h h').mpr hw)
  | step hedge _ ih => exact .step ((edge_graphOf_perm hperm h h').mp hedge) ih

/-- A maximum over paths depends on the set of paths only. -/
theorem foldl_max_le {paths paths' : List (List Hash)} (measure : List Hash → Nat)
    (h : ∀ path ∈ paths, path ∈ paths') (start : Nat) :
    paths.foldl (fun maxNum path => max maxNum (measure path)) start ≤
      paths'.foldl (fun maxNum path => max maxNum (measure path)) start := by
  have hle (bound : Nat) (all : List (List Hash)) (from' : Nat) :
      all.foldl (fun maxNum path => max maxNum (measure path)) from' ≤ bound ↔
        from' ≤ bound ∧ ∀ path ∈ all, measure path ≤ bound := by
    induction all generalizing from' with
    | nil => simp
    | cons path all ih => simp [ih, and_assoc]
  obtain ⟨hstart, hall⟩ := (hle _ paths' start).mp le_rfl
  exact (hle _ paths start).mpr ⟨hstart, fun path hpath => hall path (h path hpath)⟩

theorem rankOf_perm (J : Dagjs) (hperm : order.Perm arrivals) (h : ParentsFirst F order)
    (h' : ParentsFirst F arrivals) (topStable topStable' : List Hash) {own : Option Hash}
    {tip : Hash} (htip : (graphOf F arrivals).IsTip tip) :
    rankOf J ⟨graphOf F order, topStable⟩ own tip =
      rankOf J ⟨graphOf F arrivals, topStable'⟩ own tip := by
  have hpaths (path : List Hash) : path ∈ J.findPathsDown (graphOf F order) tip ↔
      path ∈ J.findPathsDown (graphOf F arrivals) tip := by
    rw [J.mem_findPathsDown _ _ _ (acyclic_graphOf h) ((isTip_perm hperm h h').mpr htip).1,
      J.mem_findPathsDown _ _ _ (acyclic_graphOf h') htip.1]
    exact ⟨pathDown_perm hperm h h', pathDown_perm hperm.symm h' h⟩
  have hwitnesses : witnessesOf (graphOf F order) = witnessesOf (graphOf F arrivals) := by
    funext path
    exact witnessesOf_congr fun v _ =>
      congrArg (Option.map (·.blockHeader)) (readObj_graphOf_perm hperm h h' v)
  have hscore : scoreOf J ⟨graphOf F order, topStable⟩ tip =
      scoreOf J ⟨graphOf F arrivals, topStable'⟩ tip := by
    unfold scoreOf getVertexWitnessBelow longestPathLength
    dsimp only
    rw [hwitnesses]
    refine congrArg toLex (Prod.ext ?_ ?_)
    · exact le_antisymm (foldl_max_le _ (fun path => (hpaths path).mp) 0)
        (foldl_max_le _ (fun path => (hpaths path).mpr) 0)
    · exact le_antisymm (foldl_max_le List.length (fun path => (hpaths path).mp) 0)
        (foldl_max_le List.length (fun path => (hpaths path).mpr) 0)
  rw [rankOf, rankOf, hscore]

theorem hashesOf_nodup (h : ParentsFirst F arrivals) : (hashesOf F arrivals).Nodup := by
  rw [hashesOf, List.Nodup, List.pairwise_map]
  exact h.2.imp fun hpair => hpair.1

theorem tips_graphOf (hJ : J.InsertionOrder) (h : ParentsFirst F arrivals) :
    J.tips (graphOf F arrivals) =
      (hashesOf F arrivals).filter (childless (graphOf F arrivals)) := by
  rw [hJ, keys_graphOf h, List.filter_reverse, List.reverse_reverse]

theorem tips_nodup (hJ : J.InsertionOrder) (h : ParentsFirst F arrivals) :
    (J.tips (graphOf F arrivals)).Nodup := by
  rw [tips_graphOf hJ h]
  exact (hashesOf_nodup h).filter _

/-! ### Every order of the tips -/

/-- A permutation of the images is the image of a permutation. -/
theorem exists_perm_map {α β : Type} {f : α → β} {items : List α} {images : List β}
    (h : images.Perm (items.map f)) :
    ∃ items' : List α, items'.Perm items ∧ items'.map f = images := by
  induction items generalizing images with
  | nil => exact ⟨[], .refl _, (List.perm_nil.mp h).symm⟩
  | cons a items ih =>
      rw [List.map_cons] at h
      obtain ⟨before, after, rfl⟩ := List.append_of_mem (h.symm.subset List.mem_cons_self)
      obtain ⟨items', hperm, hmap⟩ := ih (List.perm_middle.symm.trans h).cons_inv
      obtain ⟨first, second, rfl, hfirst, hsecond⟩ := List.map_eq_append_iff.mp hmap
      refine ⟨first ++ a :: second, List.perm_middle.trans (hperm.cons a), ?_⟩
      rw [List.map_append, List.map_cons, hfirst, hsecond]

/-- Tips are nobody's parents, so they may come last and in any order. -/
theorem ParentsFirst.tipsLast (h : ParentsFirst F arrivals) {others last : List Arrival}
    (hperm : (others ++ last).Perm arrivals) (hothers : others.Sublist arrivals)
    (hlast : ∀ arrival ∈ last, (graphOf F arrivals).IsTip (arrival.block.hash F)) :
    ParentsFirst F (others ++ last) := by
  have hnodup : (hashesOf F (others ++ last)).Nodup :=
    (hperm.map _).nodup_iff.mpr (hashesOf_nodup h)
  rw [hashesOf, List.Nodup, List.pairwise_map] at hnodup
  obtain ⟨-, hlastNodup, hacross⟩ := List.pairwise_append.mp hnodup
  have hfree {earlier later : Arrival} (hearlier : earlier ∈ others ++ last)
      (hlater : later ∈ last) : later.block.hash F ∉ earlier.block.parentHashes := by
    intro hparent
    have htip := hlast later hlater
    refine htip.2 (earlier.block.hash F) ((edge_graphOf h).mpr ⟨mem_graphOf.mp htip.1, ?_⟩)
    exact ⟨earlier, hperm.subset hearlier, rfl, hparent⟩
  refine ⟨fun arrival harrival => h.1 arrival (hperm.subset harrival),
    List.pairwise_append.mpr ⟨h.2.sublist hothers, ?_, fun earlier hearlier later hlater => ?_⟩⟩
  · refine hlastNodup.imp_of_mem fun {earlier later} hearlier hlater hne => ⟨hne, ?_⟩
    exact hfree (List.mem_append_right _ hearlier) hlater
  · exact ⟨hacross earlier hearlier later hlater, hfree (List.mem_append_left _ hearlier) hlater⟩

theorem exists_order (hJ : J.InsertionOrder) (h : ParentsFirst F arrivals) {tips : List Hash}
    (hperm : tips.Perm (J.tips (graphOf F arrivals))) :
    ∃ order, order.Perm arrivals ∧ ParentsFirst F order ∧ J.tips (graphOf F order) = tips := by
  -- the blocks that are tips, in the order of the list
  rw [tips_graphOf hJ h, hashesOf, List.filter_map] at hperm
  obtain ⟨last, hlast, rfl⟩ := exists_perm_map hperm
  have htip (arrival : Arrival) (harrival : arrival ∈ last) :
      (graphOf F arrivals).IsTip (arrival.block.hash F) := by
    obtain ⟨hmem, hchildless⟩ := List.mem_filter.mp (hlast.subset harrival)
    exact (childless_iff (mem_graphOf.mpr (List.mem_map_of_mem hmem))).mp hchildless
  obtain ⟨others, hothers, hmemOthers⟩ : ∃ others : List Arrival, others.Sublist arrivals ∧
      (others ++ last).Perm arrivals ∧ ∀ arrival ∈ others,
        ¬ (graphOf F arrivals).IsTip (arrival.block.hash F) := by
    refine ⟨_, List.filter_sublist (p := fun arrival => !childless (graphOf F arrivals)
      (arrival.block.hash F)), ?_, fun arrival harrival htip => ?_⟩
    · exact (List.Perm.append_left _ hlast).trans
        (List.perm_append_comm.trans (List.filter_append_perm _ arrivals))
    · have hnot := (List.mem_filter.mp harrival).2
      rw [(childless_iff htip.1).mpr htip] at hnot
      cases hnot
  obtain ⟨hall, hnotTip⟩ := hmemOthers
  have hfirst := h.tipsLast hall hothers htip
  refine ⟨_, hall, hfirst, ?_⟩
  have hchildless {arrival : Arrival} (harrival : arrival ∈ others ++ last) :
      childless (graphOf F (others ++ last)) (arrival.block.hash F) = true ↔
        (graphOf F arrivals).IsTip (arrival.block.hash F) := by
    rw [childless_iff (mem_graphOf.mpr (List.mem_map_of_mem harrival)), isTip_perm hall hfirst h]
  rw [tips_graphOf hJ hfirst, hashesOf, List.map_append, List.filter_append,
    List.filter_eq_nil_iff.mpr, List.filter_eq_self.mpr, List.nil_append]
  · intro tip hmem
    obtain ⟨arrival, harrival, rfl⟩ := List.mem_map.mp hmem
    exact (hchildless (List.mem_append_right _ harrival)).mpr (htip arrival harrival)
  · intro tip hmem htrue
    obtain ⟨arrival, harrival, rfl⟩ := List.mem_map.mp hmem
    exact hnotTip arrival harrival ((hchildless (List.mem_append_left _ harrival)).mp htrue)

/-! ### The same parents -/

/-- `addBlock` for one block after another. -/
def addBlocks (F : Factory) (arrivals : List Arrival) (pbm : PendingBlocksManager) :
    PendingBlocksManager :=
  arrivals.foldl (fun pbm arrival => pbm.addBlock F arrival.block arrival.patch) pbm

theorem addBlocks_eq (F : Factory) (arrivals : List Arrival) (topStable : List Hash) :
    addBlocks F arrivals ⟨Dag.empty, topStable⟩ = ⟨graphOf F arrivals, topStable⟩ := by
  induction arrivals using List.reverseRecOn with
  | nil => rfl
  | append_singleton arrivals arrival ih =>
      rw [graphOf_append_singleton, addBlocks, List.foldl_append]
      exact congrArg (addBlock F arrival.block arrival.patch) ih

/-- In whatever order the blocks are added, parents first, the best parents are the same. -/
def SameParents (F : Factory) (J : Dagjs) (n : Option Nat) (topStable : List Hash)
    (arrivals : List Arrival) : Prop :=
  ∀ order order', order.Perm arrivals → order'.Perm arrivals →
    ParentsFirst F order → ParentsFirst F order' → ∀ v,
      v ∈ ((addBlocks F order ⟨Dag.empty, topStable⟩).getBestParents F J n).1 ↔
        v ∈ ((addBlocks F order' ⟨Dag.empty, topStable⟩).getBestParents F J n).1

/-- There are tips that are exactly the sound ones that clash with no better one of them,
whichever own tip is preferred, and that do not clash with equally good ones of them. -/
def TiesSettled (F : Factory) (J : Dagjs) (n : Option Nat) (topStable : List Hash)
    (arrivals : List Arrival) : Prop :=
  ∃ kernel, ∀ own, OwnTip (graphOf F arrivals) n own →
    Greedy.Kernel (TipSound (graphOf F arrivals)) (TipsClash (graphOf F arrivals))
      (rankOf J ⟨graphOf F arrivals, topStable⟩ own) (J.tips (graphOf F arrivals)) kernel

/-- The tips in the order in which they are merged. -/
def sortedTips (J : Dagjs) (n : Option Nat) (topStable : List Hash) (dag : PendingDag) :
    List Hash :=
  sortTips J ⟨dag, topStable⟩ (J.tips dag) n

theorem OwnTip.perm (hperm : order.Perm arrivals) (h : ParentsFirst F order)
    (h' : ParentsFirst F arrivals) {own : Option Hash} (hown : OwnTip (graphOf F order) n own) :
    OwnTip (graphOf F arrivals) n own := by
  cases own with
  | none =>
      rintro tip htip ⟨block, hread, hn⟩
      rw [← readObj_graphOf_perm hperm h h'] at hread
      exact hown tip ((isTip_perm hperm h h').mpr htip) ⟨block, hread, hn⟩
  | some own =>
      obtain ⟨htip, block, hread, hn⟩ := hown
      rw [readObj_graphOf_perm hperm h h'] at hread
      exact ⟨(isTip_perm hperm h h').mp htip, block, hread, hn⟩

section Orders

variable (hJ : J.InsertionOrder) (h : ParentsFirst F arrivals)
include hJ h

/-- Whatever the order of arrival, the tips are merged by rank. -/
theorem enumerates_sortedTips (n : Option Nat) (topStable : List Hash)
    (hperm : order.Perm arrivals) (horder : ParentsFirst F order) :
    ∃ own, OwnTip (graphOf F arrivals) n own ∧
      Greedy.Enumerates (rankOf J ⟨graphOf F arrivals, topStable⟩ own)
        (J.tips (graphOf F arrivals)) (sortedTips J n topStable (graphOf F order)) := by
  have htips := J.mem_tips (graphOf F order)
  have hown := ownTip_findByConciliumId ⟨graphOf F order, topStable⟩ n htips
  generalize hfind : findByConciliumId ⟨graphOf F order, topStable⟩
    (J.tips (graphOf F order)) n = own at hown
  have hmem : ∀ hash, own = some hash → hash ∈ J.tips (graphOf F order) := by
    rintro hash rfl
    exact (htips hash).mpr hown.1
  have hsorted := enumerates_sortTips (J := J) (tips_nodup hJ horder) hfind hmem
  refine ⟨own, hown.perm hperm horder h, ?_, ?_⟩
  · refine hsorted.perm.trans ((List.perm_ext_iff_of_nodup (tips_nodup hJ horder)
      (tips_nodup hJ h)).mpr fun tip => ?_)
    rw [J.mem_tips, J.mem_tips, isTip_perm hperm horder h]
  · refine hsorted.sorted.imp_of_mem fun {s t} hs ht hle => ?_
    have htip {tip : Hash} (hin : tip ∈ sortedTips J n topStable (graphOf F order)) :
        (graphOf F arrivals).IsTip tip :=
      (isTip_perm hperm horder h).mp ((htips tip).mp (mem_sortTips J |>.mp hin))
    rwa [rankOf_perm J hperm horder h topStable topStable (htip hs),
      rankOf_perm J hperm horder h topStable topStable (htip ht)] at hle

/-- In some order of arrival the tips are merged in a given order by rank. -/
theorem exists_sortedTips {own : Option Hash} (hown : OwnTip (graphOf F arrivals) n own)
    {tips : List Hash} (htips : Greedy.Enumerates
      (rankOf J ⟨graphOf F arrivals, topStable⟩ own) (J.tips (graphOf F arrivals)) tips) :
    ∃ order, order.Perm arrivals ∧ ParentsFirst F order ∧
      sortedTips J n topStable (graphOf F order) = tips := by
  obtain ⟨order, hperm, horder, heq⟩ := exists_order hJ h htips.perm
  refine ⟨order, hperm, horder, ?_⟩
  have hmem (tip : Hash) : tip ∈ tips ↔ (graphOf F order).IsTip tip := by
    rw [← heq, J.mem_tips]
  have hownOrder := hown.perm hperm.symm h horder
  have hsorted : tips.Pairwise fun s t =>
      rankOf J ⟨graphOf F order, topStable⟩ own t ≤ rankOf J ⟨graphOf F order, topStable⟩ own s := by
    refine htips.sorted.imp_of_mem fun {s t} hs ht hle => ?_
    rwa [rankOf_perm J hperm horder h topStable topStable
        ((isTip_perm hperm horder h).mp ((hmem s).mp hs)),
      rankOf_perm J hperm horder h topStable topStable
        ((isTip_perm hperm horder h).mp ((hmem t).mp ht))]
  have hfind := findByConciliumId_of_sorted ⟨graphOf F order, topStable⟩ hmem hownOrder
    hsorted
  rw [sortedTips, heq]
  refine sortTips_eq_self ?_ hfind ?_ hsorted
  · rw [← heq]
    exact tips_nodup hJ horder
  · rintro hash rfl
    exact (hmem hash).mpr hownOrder.1

end Orders

/-- The tips that can be merged, each with those before it. -/
noncomputable def mergedTips (J : Dagjs) (n : Option Nat) (topStable : List Hash)
    (dag : PendingDag) : List Hash :=
  Greedy.select (TipSound dag) (TipsClash dag) [] (sortedTips J n topStable dag)

/-- Pending tips are merged; if none can be, the stable ones are used. -/
theorem getBestParents_fst (h : ParentsFirst F order) (hne : order ≠ [])
    (hrecorded : ∀ arrival ∈ order, arrival.patch.Recorded) (topStable : List Hash) :
    ((addBlocks F order ⟨Dag.empty, topStable⟩).getBestParents F J n).1 =
      if mergedTips J n topStable (graphOf F order) = [] then
        lastResort F ⟨graphOf F order, topStable⟩
      else mergedTips J n topStable (graphOf F order) := by
  have htips : J.tips (graphOf F order) ≠ [] := by
    obtain ⟨arrival, harrival⟩ := List.exists_mem_of_ne_nil order hne
    obtain ⟨tip, htip, -⟩ := (acyclic_graphOf h).exists_tip
      (mem_graphOf.mpr (List.mem_map_of_mem harrival))
    exact List.ne_nil_of_mem ((J.mem_tips _ tip).mpr htip)
  rw [addBlocks_eq, getBestParents]
  dsimp only
  rw [if_neg htips, ← sortedTips, collectPatchesFrom_fst, ← mergedTips]
  · intro tip htip
    obtain ⟨htip, -⟩ := (J.mem_tips _ tip).mp ((mem_sortTips J).mp htip)
    obtain ⟨arrival, harrival, rfl⟩ := List.mem_map.mp (mem_graphOf.mp htip)
    exact ⟨arrival.object F, (readObj_graphOf h).mpr ⟨arrival, harrival, rfl, rfl⟩,
      hrecorded arrival harrival⟩
  · simp
  · exact gathered_empty

/-- The order of arrival matters only through the order of the tips. -/
theorem mergedTips_perm (hperm : order.Perm arrivals) (h : ParentsFirst F order)
    (h' : ParentsFirst F arrivals) :
    mergedTips J n topStable (graphOf F order) =
      Greedy.select (TipSound (graphOf F arrivals)) (TipsClash (graphOf F arrivals)) []
        (sortedTips J n topStable (graphOf F order)) := by
  have hread := funext (readObj_graphOf_perm hperm h h')
  unfold mergedTips TipSound TipsClash
  rw [hread]

/-- Some sound tip is merged if there is one. -/
theorem mergedTips_eq_nil_iff (hJ : J.InsertionOrder) (h : ParentsFirst F arrivals)
    (n : Option Nat) (topStable : List Hash) (hperm : order.Perm arrivals) (horder : ParentsFirst F order) :
    mergedTips J n topStable (graphOf F order) = [] ↔
      ∀ tip ∈ J.tips (graphOf F arrivals), ¬ TipSound (graphOf F arrivals) tip := by
  obtain ⟨own, -, htips⟩ :=
    enumerates_sortedTips hJ h n topStable hperm horder
  rw [mergedTips_perm hperm horder h, Greedy.select_eq_nil_iff]
  exact forall_congr' fun tip => by rw [htips.perm.mem_iff]

/-- The best parents are the same as soon as the merged tips are, and only then. -/
theorem sameParents_iff (hJ : J.InsertionOrder) (h : ParentsFirst F arrivals)
    (hne : arrivals ≠ []) (hrecorded : ∀ arrival ∈ arrivals, arrival.patch.Recorded) :
    SameParents F J n topStable arrivals ↔
      ∀ order order', order.Perm arrivals → order'.Perm arrivals → ParentsFirst F order →
        ParentsFirst F order' → ∀ v, v ∈ mergedTips J n topStable (graphOf F order) ↔
          v ∈ mergedTips J n topStable (graphOf F order') := by
  refine forall₂_congr fun order order' => forall₄_congr fun hperm hperm' horder horder' =>
    forall_congr' fun v => ?_
  have hfst {order : List Arrival} (hperm : order.Perm arrivals) (horder : ParentsFirst F order) :=
    getBestParents_fst (J := J) (n := n) horder
      (fun heq => hne (List.perm_nil.mp (heq ▸ hperm.symm)))
      (fun arrival harrival => hrecorded arrival (hperm.subset harrival)) topStable
  have hnil := mergedTips_eq_nil_iff hJ h n topStable hperm horder
  have hnil' := mergedTips_eq_nil_iff hJ h n topStable hperm' horder'
  rw [hfst hperm horder, hfst hperm' horder']
  by_cases hsound : ∀ tip ∈ J.tips (graphOf F arrivals), ¬ TipSound (graphOf F arrivals) tip
  · rw [hnil.mpr hsound, hnil'.mpr hsound]
    exact iff_of_true Iff.rfl Iff.rfl
  · rw [if_neg (mt hnil.mp hsound), if_neg (mt hnil'.mp hsound)]

theorem tiesSettled_nil (F : Factory) (J : Dagjs) (n : Option Nat) (topStable : List Hash) :
    TiesSettled F J n topStable [] := by
  refine ⟨∅, fun own _ => ⟨fun t => iff_of_false (Set.notMem_empty t) fun ht => ?_, ?_⟩⟩
  · exact Dag.notMem_empty t ((J.mem_tips _ t).mp ht.1).1
  · exact fun s hs => absurd hs (Set.notMem_empty s)

/-- **Best parents and ties.** The best parents do not depend on the order of arrival
exactly when better tips settle which tips remain: no choice of an own tip changes them,
and equally good ones of them do not clash. -/
theorem getBestParents_iff_tiesSettled (F : Factory) (J : Dagjs) (hJ : J.InsertionOrder)
    (n : Option Nat) (topStable : List Hash) (arrivals : List Arrival)
    (hfirst : ParentsFirst F arrivals) (hbuilt : ∀ arrival ∈ arrivals, Built F arrival.patch) :
    SameParents F J n topStable arrivals ↔ TiesSettled F J n topStable arrivals := by
  by_cases hne : arrivals = []
  · subst hne
    refine iff_of_true (fun order order' hperm hperm' _ _ v => ?_) (tiesSettled_nil F J n topStable)
    rw [List.perm_nil.mp hperm, List.perm_nil.mp hperm']
  rw [sameParents_iff hJ hfirst hne fun arrival harrival => (hbuilt arrival harrival).recorded]
  constructor
  · intro hsame
    -- every order of the tips by rank comes from some order of arrival
    refine ⟨{v | v ∈ mergedTips J n topStable (graphOf F arrivals)}, fun own hown =>
      Greedy.kernel_of_select (fun _ _ => TipsClash.symm) not_tipsClash_self fun tips htips t => ?_⟩
    obtain ⟨order, hperm, horder, heq⟩ := exists_sortedTips hJ hfirst hown htips
    have ht := hsame order arrivals hperm (.refl _) horder hfirst t
    rwa [mergedTips_perm hperm horder hfirst, heq] at ht
  · rintro ⟨kernel, hkernel⟩ order order' hperm hperm' horder horder' v
    have hmem {order : List Arrival} (hperm : order.Perm arrivals) (horder : ParentsFirst F order) :
        v ∈ mergedTips J n topStable (graphOf F order) ↔ v ∈ kernel := by
      obtain ⟨own, hown, htips⟩ :=
        enumerates_sortedTips hJ hfirst n topStable hperm horder
      rw [mergedTips_perm hperm horder hfirst]
      exact (hkernel own hown).mem_select (tips_nodup hJ hfirst) htips
    rw [hmem hperm horder, hmem hperm' horder']

/-- A block of a concilium whose transaction spends the output of the transaction 100. -/
def spender (conciliumId : Nat) (txHash : Hash) : Arrival :=
  { loneArrival conciliumId with patch := spentIn txHash }

theorem insertionOrder_inOrder : Dagjs.inOrder.InsertionOrder := fun _ => rfl

/-- Two equally good tips spend the same output. -/
theorem getBestParents_iff_tiesSettled_spender :
    SameParents Factory.sample Dagjs.inOrder (some 3) [] [spender 1 7, spender 2 8] ↔
      TiesSettled Factory.sample Dagjs.inOrder (some 3) [] [spender 1 7, spender 2 8] := by
  refine getBestParents_iff_tiesSettled Factory.sample Dagjs.inOrder insertionOrder_inOrder _ _ _
    ⟨by decide +kernel, by decide +kernel⟩ fun arrival h => ?_
  rcases List.mem_pair.mp h with rfl | rfl
  · exact built_spentIn _ 7
  · exact built_spentIn _ 8

/-- Two blocks of other conciliums are equally good tips. -/
theorem getBestParents_spender {order : List Arrival}
    (h : order = [spender 1 7, spender 2 8] ∨ order = [spender 2 8, spender 1 7]) :
    ((addBlocks Factory.sample order ⟨Dag.empty, []⟩).getBestParents Factory.sample Dagjs.inOrder
      (some 3)).1 = (hashesOf Factory.sample order).take 1 := by
  have hsorted : sortTips Dagjs.inOrder ⟨graphOf Factory.sample order, []⟩
      (Dagjs.inOrder.tips (graphOf Factory.sample order)) (some 3) =
        Dagjs.inOrder.tips (graphOf Factory.sample order) := by
    have hnone : findByConciliumId ⟨graphOf Factory.sample order, []⟩
        (Dagjs.inOrder.tips (graphOf Factory.sample order)) (some 3) = none := by
      rcases h with rfl | rfl <;> decide +kernel
    refine sortTips_eq_self ?_ hnone (by simp) ?_
    · rcases h with rfl | rfl <;> decide +kernel
    · rcases h with rfl | rfl <;> decide +kernel
  have hne : Dagjs.inOrder.tips (graphOf Factory.sample order) ≠ [] := by
    rcases h with rfl | rfl <;> decide +kernel
  rw [addBlocks_eq, getBestParents]
  dsimp only
  rw [if_neg hne, hsorted]
  rcases h with rfl | rfl <;> decide +kernel

/-- Which of two blocks comes first decides which of them is a parent. -/
theorem getBestParents_depends_on_order :
    ¬ SameParents Factory.sample Dagjs.inOrder (some 3) [] [spender 1 7, spender 2 8] := by
  intro h
  have hsame := h [spender 1 7, spender 2 8] [spender 2 8, spender 1 7] (.refl _) (.swap _ _ _)
    ⟨by decide +kernel, by decide +kernel⟩ ⟨by decide +kernel, by decide +kernel⟩
    ((spender 1 7).block.hash Factory.sample)
  rw [getBestParents_spender (.inl rfl), getBestParents_spender (.inr rfl)] at hsame
  revert hsame
  decide +kernel

end PendingBlocksManager

end CilCore
