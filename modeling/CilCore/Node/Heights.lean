import CilCore.Lib.LongestPath
import CilCore.Node.DagNode
import CilCore.Structures.WireBlock

/-!
# Heights

"Height is longest path in DAG", says `_calcHeight` of `node/node.js`, which looks at the
parents of a block only. Heights measure the paths of the main graph as long as the graph keeps
the edges that they were computed along: a block that is rolled back takes its edges with it,
whatever is built on it.
-/

namespace CilCore

open LongestPath

section

variable (F : Factory)

/-- The header is one higher than the highest of its parents. -/
def HeightAbove (header : BlockHeader) : Prop :=
  ∃ (parents : List BlockHeader) (top : BlockHeader),
    parents.map F.headerHash = header.parentHashes ∧ top ∈ parents ∧
    header.height = top.height + 1 ∧ ∀ parent ∈ parents, parent.height ≤ top.height

/-- So are all headers below it, down to genesis. -/
inductive RightHeight : BlockHeader → Prop
  | genesis {header : BlockHeader} (h : F.headerHash header = F.constants.GENESIS_BLOCK) :
      RightHeight header
  | block {header top : BlockHeader} {parents : List BlockHeader}
      (hne : F.headerHash header ≠ F.constants.GENESIS_BLOCK)
      (hparents : parents.map F.headerHash = header.parentHashes) (htop : top ∈ parents)
      (hheight : header.height = top.height + 1)
      (hle : ∀ parent ∈ parents, parent.height ≤ top.height)
      (hbelow : ∀ parent ∈ parents, RightHeight parent) : RightHeight header

/-- What has the hash has the right height. -/
def RightHash (hash : Hash) : Prop :=
  ∀ header, F.headerHash header = hash → RightHeight F header

namespace MainDag

variable (mainDag : MainDag)

/-- There is an edge from a block down to a parent. -/
def Edge (hash parentHash : Hash) : Prop := (hash, parentHash) ∈ mainDag.edges

/-- The height that the graph has of a block. -/
def heightOf (hash : Hash) : Nat := ((mainDag.getBlockInfo hash).map (·.header.height)).getD 0

/-- Infos are kept under their hashes, and edges lead from blocks to their parents. -/
structure Tidy : Prop where
  keyed : ∀ hash info, mainDag.getBlockInfo hash = some info → F.headerHash info.header = hash
  edge : ∀ hash parentHash, mainDag.Edge hash parentHash → hash ≠ F.constants.GENESIS_BLOCK ∧
    ∃ info, mainDag.getBlockInfo hash = some info ∧ parentHash ∈ info.header.parentHashes

/-- The block has an edge to each of its parents, and so have these, down to genesis. -/
inductive Rooted : Hash → Prop
  | genesis {info : BlockInfo} (h : mainDag.getBlockInfo F.constants.GENESIS_BLOCK = some info) :
      Rooted F.constants.GENESIS_BLOCK
  | block {hash : Hash} {info : BlockInfo} (h : mainDag.getBlockInfo hash = some info)
      (hne : hash ≠ F.constants.GENESIS_BLOCK)
      (hedge : ∀ parentHash ∈ info.header.parentHashes, mainDag.Edge hash parentHash)
      (hbelow : ∀ parentHash ∈ info.header.parentHashes, Rooted parentHash) : Rooted hash

/-- The block is rooted, and its height is right. -/
def Placed (hash : Hash) : Prop := mainDag.Rooted F hash ∧ RightHash F hash

/-- The height of a block is the height of genesis plus the length of the longest path to it,
and greater than the heights of all its ancestors. -/
def MeasuresHeight (hash : Hash) : Prop :=
  ∃ info genesis, mainDag.getBlockInfo hash = some info ∧
    mainDag.getBlockInfo F.constants.GENESIS_BLOCK = some genesis ∧
    (∃ n, info.header.height = genesis.header.height + n ∧
      IsGreatest {n | PathTo mainDag.Edge F.constants.GENESIS_BLOCK hash n} n) ∧
    ∀ ancestor, Relation.TransGen mainDag.Edge hash ancestor →
      ∃ ancestorInfo, mainDag.getBlockInfo ancestor = some ancestorInfo ∧
        ancestorInfo.header.height < info.header.height

end MainDag

end

variable {F : Factory}

/-! ### Levels of the main graph -/

theorem RightHeight.rightHash (hF : F.DistinguishesHeaders) {header : BlockHeader}
    (h : RightHeight F header) : RightHash F (F.headerHash header) := by
  intro header' hheader
  rw [hF hheader]
  exact h

theorem rightHash_genesis (F : Factory) : RightHash F F.constants.GENESIS_BLOCK :=
  fun _ hheader => .genesis hheader

/-- So have its parents. -/
theorem RightHash.parent (hF : F.DistinguishesHeaders) {header : BlockHeader}
    (h : RightHash F (F.headerHash header)) (hne : F.headerHash header ≠ F.constants.GENESIS_BLOCK)
    {parentHash : Hash} (hparent : parentHash ∈ header.parentHashes) : RightHash F parentHash := by
  cases h header rfl with
  | genesis hgenesis => exact absurd hgenesis hne
  | block _ hparents _ _ _ hbelow =>
      rw [← hparents] at hparent
      obtain ⟨parent, hmem, rfl⟩ := List.mem_map.mp hparent
      exact (hbelow parent hmem).rightHash hF

theorem HeightAbove.rightHash (hF : F.DistinguishesHeaders) {header : BlockHeader}
    (h : HeightAbove F header)
    (hbelow : ∀ parentHash ∈ header.parentHashes, RightHash F parentHash) :
    RightHash F (F.headerHash header) := by
  refine RightHeight.rightHash hF ?_
  by_cases hgenesis : F.headerHash header = F.constants.GENESIS_BLOCK
  · exact .genesis hgenesis
  obtain ⟨parents, top, hparents, htop, hheight, hle⟩ := h
  refine .block hgenesis hparents htop hheight hle fun parent hparent => ?_
  refine hbelow (F.headerHash parent) ?_ parent rfl
  rw [← hparents]
  exact List.mem_map_of_mem hparent

namespace MainDag

variable {mainDag mainDag' : MainDag} {hash parentHash : Hash} {info : BlockInfo}

theorem heightOf_eq (h : mainDag.getBlockInfo hash = some info) :
    mainDag.heightOf hash = info.header.height := by
  rw [heightOf, h]
  rfl

theorem Rooted.known (h : mainDag.Rooted F hash) : ∃ info, mainDag.getBlockInfo hash = some info := by
  cases h with
  | genesis h => exact ⟨_, h⟩
  | block h _ _ _ => exact ⟨_, h⟩

theorem Rooted.exists_edges (h : mainDag.Rooted F hash) (hne : hash ≠ F.constants.GENESIS_BLOCK) :
    ∃ info, mainDag.getBlockInfo hash = some info ∧
      ∀ parentHash ∈ info.header.parentHashes, mainDag.Edge hash parentHash := by
  cases h with
  | genesis => exact absurd rfl hne
  | block h _ hedge _ => exact ⟨_, h, hedge⟩

/-- A header with the hash of a known block is the block's. -/
theorem Tidy.header_eq (hF : F.DistinguishesHeaders) (htidy : mainDag.Tidy F)
    (h : mainDag.getBlockInfo hash = some info) {header : BlockHeader}
    (hheader : F.headerHash header = hash) : info.header = header :=
  hF ((htidy.keyed hash info h).trans hheader.symm)

theorem Placed.of_edge (hF : F.DistinguishesHeaders) (htidy : mainDag.Tidy F)
    (h : mainDag.Placed F hash) (hedge : mainDag.Edge hash parentHash) :
    mainDag.Placed F parentHash := by
  obtain ⟨hrooted, hright⟩ := h
  obtain ⟨hne, info, hinfo, hparent⟩ := htidy.edge hash parentHash hedge
  refine ⟨?_, ?_⟩
  · cases hrooted with
    | genesis => exact absurd rfl hne
    | block hblock _ _ hbelow =>
        obtain rfl := Option.some.inj (hinfo.symm.trans hblock)
        exact hbelow parentHash hparent
  · have hhash := htidy.keyed hash info hinfo
    subst hhash
    exact hright.parent hF hne hparent

/-- The heights of blocks that are placed are levels. -/
theorem Placed.levelled (hF : F.DistinguishesHeaders) (htidy : mainDag.Tidy F)
    (h : mainDag.Placed F hash) :
    Levelled mainDag.Edge mainDag.heightOf F.constants.GENESIS_BLOCK hash := by
  obtain ⟨hrooted, hright⟩ := h
  induction hrooted with
  | genesis =>
      refine .root fun w hedge => ?_
      exact (htidy.edge _ w hedge).1 rfl
  | @block hash info hinfo hne hedge hbelow ih =>
      have hplaced : mainDag.Placed F hash := ⟨.block hinfo hne hedge hbelow, hright⟩
      cases hright info.header (htidy.keyed hash info hinfo) with
      | genesis hgenesis => exact absurd ((htidy.keyed hash info hinfo).symm.trans hgenesis) hne
      | @block _ top parents _ hparents htop hheight hle _ =>
          have hparent {parentHash : Hash} (h : mainDag.Edge hash parentHash) :
              ∃ parent ∈ parents, F.headerHash parent = parentHash ∧
                mainDag.heightOf parentHash = parent.height := by
            obtain ⟨-, info', hinfo', hmem⟩ := htidy.edge hash parentHash h
            obtain rfl : info = info' := Option.some.inj (hinfo.symm.trans hinfo')
            obtain ⟨parentInfo, hparentInfo⟩ := (hbelow parentHash hmem).known
            rw [← hparents] at hmem
            obtain ⟨parent, hmem, hhash⟩ := List.mem_map.mp hmem
            refine ⟨parent, hmem, hhash, ?_⟩
            rw [heightOf_eq hparentInfo, htidy.header_eq hF hparentInfo hhash]
          have htopHash : F.headerHash top ∈ info.header.parentHashes := by
            rw [← hparents]
            exact List.mem_map_of_mem htop
          have htopEdge := hedge _ htopHash
          obtain ⟨top', -, hsame, htopHeight⟩ := hparent htopEdge
          rw [hF hsame] at htopHeight
          refine .step htopEdge ?_ (fun w hw => ?_) fun w hw => ?_
          · rw [heightOf_eq hinfo, hheight, htopHeight]
          · obtain ⟨parent, hmem, -, hheight⟩ := hparent hw
            rw [hheight, htopHeight]
            exact hle parent hmem
          · obtain ⟨-, info', hinfo', hmem⟩ := htidy.edge hash w hw
            obtain rfl : info = info' := Option.some.inj (hinfo.symm.trans hinfo')
            exact ih w hmem (hplaced.of_edge hF htidy hw).2

theorem Placed.of_path (hF : F.DistinguishesHeaders) (htidy : mainDag.Tidy F) {n : ℕ}
    (h : mainDag.Placed F hash)
    (hpath : PathTo mainDag.Edge F.constants.GENESIS_BLOCK hash n) :
    mainDag.Placed F F.constants.GENESIS_BLOCK := by
  induction hpath with
  | root => exact h
  | step hedge _ ih => exact ih (h.of_edge hF htidy hedge)

theorem Placed.of_transGen (hF : F.DistinguishesHeaders) (htidy : mainDag.Tidy F)
    (h : mainDag.Placed F hash) {ancestor : Hash}
    (hreach : Relation.TransGen mainDag.Edge hash ancestor) : mainDag.Placed F ancestor := by
  induction hreach with
  | single hedge => exact h.of_edge hF htidy hedge
  | tail _ hedge ih => exact ih.of_edge hF htidy hedge

/-- The height of a block that is placed is the length of the longest path. -/
theorem Placed.measuresHeight (hF : F.DistinguishesHeaders) (htidy : mainDag.Tidy F)
    (h : mainDag.Placed F hash) : mainDag.MeasuresHeight F hash := by
  have hlevelled := h.levelled hF htidy
  obtain ⟨n, hn, hgreatest⟩ := hlevelled.isGreatest
  obtain ⟨genesis, hgenesis⟩ := (h.of_path hF htidy hgreatest.1).1.known
  obtain ⟨info, hinfo⟩ := h.1.known
  rw [heightOf_eq hinfo, heightOf_eq hgenesis] at hn
  refine ⟨info, genesis, hinfo, hgenesis, ⟨n, hn, hgreatest⟩, fun ancestor hreach => ?_⟩
  obtain ⟨ancestorInfo, hancestor⟩ := (h.of_transGen hF htidy hreach).1.known
  have hlt := hlevelled.lt_of_transGen hreach
  rw [heightOf_eq hinfo, heightOf_eq hancestor] at hlt
  exact ⟨ancestorInfo, hancestor, hlt⟩

/-! ### Changes of the main graph -/

/-- No block is lost, nor its header, nor an edge. -/
structure Extends (mainDag mainDag' : MainDag) : Prop where
  known : ∀ hash info, mainDag.getBlockInfo hash = some info →
    ∃ info', mainDag'.getBlockInfo hash = some info' ∧ info'.header = info.header
  edge : ∀ hash parentHash, mainDag.Edge hash parentHash → mainDag'.Edge hash parentHash

theorem Extends.trans {mainDag'' : MainDag} (h : Extends mainDag mainDag')
    (h' : Extends mainDag' mainDag'') : Extends mainDag mainDag'' where
  known hash info hinfo := by
    obtain ⟨info', hinfo', hheader⟩ := h.known hash info hinfo
    obtain ⟨info'', hinfo'', hheader'⟩ := h'.known hash info' hinfo'
    exact ⟨info'', hinfo'', hheader'.trans hheader⟩
  edge _ _ hedge := h'.edge _ _ (h.edge _ _ hedge)

theorem Extends.rooted (hext : Extends mainDag mainDag') (h : mainDag.Rooted F hash) :
    mainDag'.Rooted F hash := by
  induction h with
  | genesis h =>
      obtain ⟨info', hinfo', -⟩ := hext.known _ _ h
      exact .genesis hinfo'
  | block h hne hedge _ ih =>
      obtain ⟨info', hinfo', hheader⟩ := hext.known _ _ h
      rw [← hheader] at hedge ih
      exact .block hinfo' hne (fun p hp => hext.edge _ p (hedge p hp)) ih

theorem Extends.placed (hext : Extends mainDag mainDag') (h : mainDag.Placed F hash) :
    mainDag'.Placed F hash :=
  ⟨hext.rooted h.1, h.2⟩

theorem edge_addBlock {blockInfo : BlockInfo} :
    (mainDag.addBlock F blockInfo).Edge hash parentHash ↔
      mainDag.Edge hash parentHash ∨
        blockInfo.getHash F ≠ F.constants.GENESIS_BLOCK ∧ hash = blockInfo.getHash F ∧
          parentHash ∈ blockInfo.header.parentHashes := by
  unfold Edge addBlock
  dsimp only
  split
  next hgenesis => simp [hgenesis]
  next hne =>
    rw [List.mem_append, List.mem_map]
    simp only [Prod.mk.injEq, hne, ne_eq, not_false_eq_true, true_and]
    constructor
    · rintro (⟨parent, hmem, rfl, rfl⟩ | hold)
      · exact .inr ⟨rfl, hmem⟩
      · exact .inl hold
    · rintro (hold | ⟨rfl, hmem⟩)
      · exact .inr hold
      · exact .inl ⟨_, hmem, rfl, rfl⟩

theorem extends_addBlock (hF : F.DistinguishesHeaders) (htidy : mainDag.Tidy F)
    (blockInfo : BlockInfo) : Extends mainDag (mainDag.addBlock F blockInfo) where
  known hash info hinfo := by
    rw [getBlockInfo_addBlock]
    split
    next heq => exact ⟨blockInfo, rfl, (htidy.header_eq hF hinfo heq.symm).symm⟩
    next => exact ⟨info, hinfo, rfl⟩
  edge _ _ h := edge_addBlock.mpr (.inl h)

theorem Tidy.addBlock (hF : F.DistinguishesHeaders) (htidy : mainDag.Tidy F)
    (blockInfo : BlockInfo) : (mainDag.addBlock F blockInfo).Tidy F where
  keyed hash info hinfo := by
    rw [getBlockInfo_addBlock] at hinfo
    split at hinfo
    next heq =>
      cases hinfo
      exact heq.symm
    next => exact htidy.keyed hash info hinfo
  edge hash parentHash hedge := by
    rcases edge_addBlock.mp hedge with hold | ⟨hne, rfl, hmem⟩
    · obtain ⟨hne, info, hinfo, hmem⟩ := htidy.edge hash parentHash hold
      obtain ⟨info', hinfo', hheader⟩ := (extends_addBlock hF htidy blockInfo).known hash info hinfo
      exact ⟨hne, info', hinfo', hheader ▸ hmem⟩
    · exact ⟨hne, blockInfo, by rw [getBlockInfo_addBlock, if_pos rfl], hmem⟩

/-- Another flag changes neither headers nor edges. -/
theorem extends_setBlockInfo (htidy : mainDag.Tidy F) {info' : BlockInfo}
    (hinfo : mainDag.getBlockInfo hash = some info) (hheader : info'.header = info.header) :
    Extends mainDag (mainDag.setBlockInfo F info') where
  known other otherInfo hother := by
    rw [getBlockInfo_setBlockInfo]
    split
    next heq =>
      have hhash : info'.getHash F = hash := by
        rw [BlockInfo.getHash, hheader]
        exact htidy.keyed hash info hinfo
      rw [heq, hhash, hinfo] at hother
      cases hother
      exact ⟨info', rfl, hheader⟩
    next => exact ⟨otherInfo, hother, rfl⟩
  edge _ _ h := h

theorem Tidy.setBlockInfo (htidy : mainDag.Tidy F) {info' : BlockInfo}
    (hinfo : mainDag.getBlockInfo hash = some info) (hheader : info'.header = info.header) :
    (mainDag.setBlockInfo F info').Tidy F where
  keyed other otherInfo hother := by
    rw [getBlockInfo_setBlockInfo] at hother
    split at hother
    next heq =>
      cases hother
      exact heq.symm
    next => exact htidy.keyed other otherInfo hother
  edge other parentHash hedge := by
    obtain ⟨hne, otherInfo, hother, hmem⟩ := htidy.edge other parentHash hedge
    obtain ⟨info', hinfo', hsame⟩ :=
      (extends_setBlockInfo htidy hinfo hheader).known other otherInfo hother
    exact ⟨hne, info', hinfo', hsame ▸ hmem⟩

theorem edge_removeBlock {removed : Hash} : (mainDag.removeBlock removed).Edge hash parentHash ↔
    mainDag.Edge hash parentHash ∧ hash ≠ removed ∧ parentHash ≠ removed := by
  unfold Edge removeBlock
  rw [List.mem_filter, decide_eq_true_eq]

theorem Tidy.removeBlock (htidy : mainDag.Tidy F) (removed : Hash) :
    (mainDag.removeBlock removed).Tidy F where
  keyed hash info hinfo := by
    rw [getBlockInfo_removeBlock] at hinfo
    split at hinfo
    next => cases hinfo
    next => exact htidy.keyed hash info hinfo
  edge hash parentHash hedge := by
    obtain ⟨hold, hne, -⟩ := edge_removeBlock.mp hedge
    rw [getBlockInfo_removeBlock, if_neg hne]
    exact htidy.edge hash parentHash hold

/-- A block stays rooted if it is not built on the one that is removed. -/
theorem Rooted.removeBlock {removed : Hash} (h : mainDag.Rooted F hash)
    (hnot : ¬ Relation.ReflTransGen mainDag.Edge hash removed) :
    (mainDag.removeBlock removed).Rooted F hash := by
  have hne {v : Hash} (hv : ¬ Relation.ReflTransGen mainDag.Edge v removed) : v ≠ removed := by
    rintro rfl
    exact hv .refl
  induction h with
  | genesis h =>
      exact .genesis (by rw [getBlockInfo_removeBlock, if_neg (hne hnot), h])
  | block h hgenesis hedge _ ih =>
      have hparent (p : Hash) (hp : p ∈ BlockHeader.parentHashes _) :
          ¬ Relation.ReflTransGen mainDag.Edge p removed :=
        fun hreach => hnot (.head (hedge p hp) hreach)
      refine .block (by rw [getBlockInfo_removeBlock, if_neg (hne hnot), h]) hgenesis ?_ ?_
      · exact fun p hp => edge_removeBlock.mpr ⟨hedge p hp, hne hnot, hne (hparent p hp)⟩
      · exact fun p hp => ih p hp (hparent p hp)

theorem Placed.removeBlock {removed : Hash} (h : mainDag.Placed F hash)
    (hnot : ¬ Relation.ReflTransGen mainDag.Edge hash removed) :
    (mainDag.removeBlock removed).Placed F hash :=
  ⟨h.1.removeBlock hnot, h.2⟩

end MainDag

/-! ### Checked heights -/

/-- The height of the block was computed from those of its parents. -/
def Block.HeightChecked (F : Factory) (block : Block) : Prop :=
  block.hash F = F.constants.GENESIS_BLOCK ∨ HeightAbove F (block.hashedHeader F)

/-- The block is genesis, or has parents. -/
def Block.HasParents (F : Factory) (block : Block) : Prop :=
  block.hash F = F.constants.GENESIS_BLOCK ∨ block.parentHashes ≠ []

/-- It is genesis, or built on blocks of the right height. -/
def BuiltOnRight (F : Factory) (header : BlockHeader) : Prop :=
  F.headerHash header = F.constants.GENESIS_BLOCK ∨
    ∀ parentHash ∈ header.parentHashes, RightHash F parentHash

theorem Block.HeightChecked.rightHash (hF : F.DistinguishesHeaders) {block : Block}
    (h : block.HeightChecked F) (hbuilt : BuiltOnRight F (block.hashedHeader F)) :
    RightHash F (block.hash F) := by
  by_cases hgenesis : block.hash F = F.constants.GENESIS_BLOCK
  · rw [hgenesis]
    exact rightHash_genesis F
  · exact (h.resolve_left hgenesis).rightHash hF (hbuilt.resolve_left hgenesis)

theorem Block.hasParents_of_rightHash {block : Block} (h : RightHash F (block.hash F)) :
    block.HasParents F := by
  cases h (block.hashedHeader F) rfl with
  | genesis hgenesis => exact .inl hgenesis
  | block _ hparents htop _ _ _ =>
      refine .inr fun hnil => ?_
      have hnone := List.map_eq_nil_iff.mp (hparents.trans hnil)
      rw [hnone] at htop
      cases htop

theorem Block.hasParents_of_verify {block : Block} {checkSignatures : Bool}
    (h : block.verify F checkSignatures = .ok ()) : block.HasParents F := by
  refine .inr fun hnil => ?_
  have hempty : block.parentHashes.isEmpty = true := List.isEmpty_iff.mpr hnil
  rw [Block.verify, if_pos hempty] at h
  cases h

namespace ChainState

variable {s : ChainState} {block : Block}

theorem exists_parents_of_maxHeight (htidy : s.mainDag.Tidy F) {hashes : List Hash}
    {nMaxHeight n : Nat} (h : s.maxHeight hashes nMaxHeight = .ok n) :
    nMaxHeight ≤ n ∧ ∃ parents : List BlockHeader, parents.map F.headerHash = hashes ∧
      (∀ parent ∈ parents, parent.height ≤ n) ∧
      (n = nMaxHeight ∨ ∃ top ∈ parents, top.height = n) := by
  induction hashes generalizing nMaxHeight with
  | nil =>
      cases h
      exact ⟨le_rfl, [], rfl, fun parent hmem => absurd hmem List.not_mem_nil, .inl rfl⟩
  | cons first rest ih =>
      rw [maxHeight] at h
      split at h
      next => cases h
      next info hinfo =>
        obtain ⟨hle, parents, hparents, hheights, htop⟩ := ih h
        have hfirst : info.header.height ≤ n := (le_max_right _ _).trans hle
        refine ⟨(le_max_left _ _).trans hle, info.header :: parents, ?_, ?_, ?_⟩
        · rw [List.map_cons, hparents, htidy.keyed first info hinfo]
        · exact List.forall_mem_cons.mpr ⟨hfirst, hheights⟩
        · rcases htop with heq | ⟨top, hmem, heq⟩
          · rcases max_choice nMaxHeight info.header.height with hmax | hmax
            · exact .inl (heq.trans hmax)
            · exact .inr ⟨info.header, List.mem_cons_self, (heq.trans hmax).symm⟩
          · exact .inr ⟨top, List.mem_cons_of_mem _ hmem, heq⟩

/-- A height that was computed from at least one parent. -/
theorem heightAbove_of_calcHeight (htidy : s.mainDag.Tidy F) {header : BlockHeader}
    (hne : header.parentHashes ≠ []) (h : s.calcHeight header.parentHashes = .ok header.height) :
    HeightAbove F header := by
  unfold calcHeight at h
  cases hmax : s.maxHeight header.parentHashes 0 with
  | error error => simp [hmax, Except.map] at h
  | ok n =>
      have hheight : n + 1 = header.height := by simpa [hmax, Except.map] using h
      obtain ⟨-, parents, hparents, hle, htop⟩ := exists_parents_of_maxHeight htidy hmax
      have htop : ∃ top ∈ parents, top.height = n := by
        rcases htop with rfl | htop
        · cases parents with
          | nil => exact absurd hparents.symm hne
          | cons first rest =>
              exact ⟨first, List.mem_cons_self, Nat.le_zero.mp (hle first List.mem_cons_self)⟩
        · exact htop
      obtain ⟨top, hmem, rfl⟩ := htop
      exact ⟨parents, top, hparents, hmem, hheight.symm, hle⟩

theorem heightChecked_of_execBlock (htidy : s.mainDag.Tidy F) (hparents : block.HasParents F)
    {processedHeight : Option Nat} {vm : Transaction → Behaviour} {patchState : PatchDB}
    (h : s.execBlock F processedHeight vm block = .ok (some patchState)) :
    block.HeightChecked F := by
  by_cases hgenesis : block.hash F = F.constants.GENESIS_BLOCK
  · exact .inl hgenesis
  have hcheck := (execBlock_ok h).2.1 (decide_eq_false hgenesis)
  refine .inr (heightAbove_of_calcHeight (s := s) htidy (hparents.resolve_left hgenesis) ?_)
  unfold checkHeight at hcheck
  split at hcheck
  next => cases hcheck
  next height hcalc =>
    split at hcheck
    next heq =>
      rw [heq] at hcalc
      exact hcalc
    next => cases hcheck

end ChainState

end CilCore
