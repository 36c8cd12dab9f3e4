import CilCore.Lib.LevelOrder
import CilCore.Node.ExecBlock

/-!
# Answering a peer that asks for blocks

`_getBlocksFromLastKnown` of `node/node.js`: the descendants of the blocks that a peer knows.
A child is taken when its parent is one lower; the other children are left to be found below
a parent that is.
-/

namespace CilCore

open LevelOrder

/-! ### The answer -/

section

variable (F : Factory) (MAX_BLOCKS_INV : Nat) (mainDag : MainDag)

/-- The filter of `_getBlocksFromLastKnown`: children that are one higher. -/
def filterDirect (hash : Hash) : List Hash → Except String (List Hash)
  | [] => .ok []
  | strChildHash :: rest =>
      match mainDag.getBlockInfo strChildHash, mainDag.getBlockInfo hash with
      | some biChild, some biCurrent =>
          match filterDirect hash rest with
          | .error error => .error error
          | .ok children => .ok
              (if biChild.header.height = biCurrent.header.height + 1 then strChildHash :: children
              else children)
      | _, _ => .error "Cannot read properties of undefined (reading 'getHeight')"

/-- The direct children of a block. -/
def directChildren (hash : Hash) : Except String (List Hash) :=
  filterDirect mainDag hash (mainDag.getChildren hash)

/-- The part of `_getBlocksFromLastKnown` that goes from level to level. -/
def blocksAbove (fuel : Nat) (arrKnownHashes setBlocksToSend : List Hash) :
    Option (Except String (List Hash)) :=
  match firstLevel (directChildren mainDag) arrKnownHashes arrKnownHashes with
  | .error error => some (.error error)
  | .ok currentLevel =>
      visitLevels (directChildren mainDag) arrKnownHashes MAX_BLOCKS_INV fuel currentLevel
        setBlocksToSend

/-- `_getBlocksFromLastKnown`. If no hash is known the answer starts with genesis. `none`
when there are more levels than fuel. -/
def getBlocksFromLastKnown (fuel : Nat) (arrHashes : List Hash) :
    Option (Except String (List Hash)) :=
  let arrKnownHashes := arrHashes.filter fun hash => (mainDag.getBlockInfo hash).isSome
  if arrKnownHashes ≠ [] then blocksAbove MAX_BLOCKS_INV mainDag fuel arrKnownHashes []
  else if (mainDag.getBlockInfo F.constants.GENESIS_BLOCK).isSome then
    blocksAbove MAX_BLOCKS_INV mainDag fuel [F.constants.GENESIS_BLOCK] [F.constants.GENESIS_BLOCK]
  else some (.ok [])

end

/-! ### What the answer should be -/

section

variable (F : Factory) (MAX_BLOCKS_INV : Nat) (s : ChainState) (known : Finset Hash)

/-- The edges lead from the blocks, but not from genesis, to their parents. -/
def MainDag.Linked (mainDag : MainDag) : Prop :=
  ∀ child parent, (child, parent) ∈ mainDag.edges ↔
    ∃ info, mainDag.getBlockInfo child = some info ∧ child ≠ F.constants.GENESIS_BLOCK ∧
      parent ∈ info.header.parentHashes

/-- The blocks are linked to their parents, and their heights pass `_checkHeight`. -/
structure ChecksHeights : Prop where
  linked : s.mainDag.Linked F
  heights : ∀ hash info, s.mainDag.getBlockInfo hash = some info →
    hash ≠ F.constants.GENESIS_BLOCK →
    s.calcHeight info.header.parentHashes = .ok info.header.height

/-- The same graph, with its edges listed in whatever order. -/
def MainDag.SameGraph (mainDag mainDag' : MainDag) : Prop :=
  mainDag'.infos = mainDag.infos ∧ ∀ edge, edge ∈ mainDag'.edges ↔ edge ∈ mainDag.edges

/-- The hashes of an array that are known are those of a set. -/
def Lists (mainDag : MainDag) (arrHashes : List Hash) : Prop :=
  ∀ hash, hash ∈ arrHashes ∧ (mainDag.getBlockInfo hash).isSome = true ↔ hash ∈ known

/-- A block descends from a known one, and is not known itself. -/
def Qualifies (mainDag : MainDag) (hash : Hash) : Prop :=
  hash ∉ known ∧
    ∃ k ∈ known, Relation.TransGen (fun parent child => (child, parent) ∈ mainDag.edges) k hash

/-- A block is a child of another one, and one higher. -/
def Direct (mainDag : MainDag) (parent child : Hash) : Prop :=
  (child, parent) ∈ mainDag.edges ∧ ∃ biParent biChild,
    mainDag.getBlockInfo parent = some biParent ∧ mainDag.getBlockInfo child = some biChild ∧
      biChild.header.height = biParent.header.height + 1

open Classical in
/-- The blocks with a property. -/
noncomputable def blocksWith (mainDag : MainDag) (p : Hash → Prop) : Finset Hash :=
  mainDag.infos.keys.filter p

/-- The blocks that qualify, parents first, and all of them unless there are too many. -/
structure CompleteAnswer (mainDag : MainDag) (answer : List Hash) : Prop where
  nodup : answer.Nodup
  qualifies : ∀ hash ∈ answer, Qualifies known mainDag hash
  parentsFirst : ∀ before hash after, answer = before ++ hash :: after →
    ∀ parent, (hash, parent) ∈ mainDag.edges → Qualifies known mainDag parent → parent ∈ before
  complete : (blocksWith mainDag (Qualifies known mainDag)).card < MAX_BLOCKS_INV →
    ∀ hash, Qualifies known mainDag hash → hash ∈ answer

/-- Whoever lists the known hashes, and in whatever order children are listed, gets a
complete answer. -/
def AnswersCompletely : Prop :=
  ∀ mainDag' arrHashes, s.mainDag.SameGraph mainDag' → Lists known mainDag' arrHashes →
    ∃ answer, (∃ n, ∀ fuel, n ≤ fuel →
        getBlocksFromLastKnown F MAX_BLOCKS_INV mainDag' fuel arrHashes = some (.ok answer)) ∧
      CompleteAnswer MAX_BLOCKS_INV known mainDag' answer

/-- Every block that qualifies has a parent that is one lower and qualifies or is known. -/
def FoundDirectly : Prop :=
  ∀ hash, Qualifies known s.mainDag hash →
    ∃ parent, Direct s.mainDag parent hash ∧ (parent ∈ known ∨ Qualifies known s.mainDag parent)

/-- A block that the answer may get to: it is on a level that not enough blocks are below. -/
def GotTo (n : Nat) (hash : Hash) : Prop :=
  ReachedBy (Direct s.mainDag) (· ∈ known) n hash ∧
    (∀ m < n, ¬ ReachedBy (Direct s.mainDag) (· ∈ known) m hash) ∧
      (blocksWith s.mainDag fun hash =>
        ∃ m < n, ReachedBy (Direct s.mainDag) (· ∈ known) m hash).card < MAX_BLOCKS_INV

/-- The parents of such a block that qualify are on lower levels. -/
def ParentsLower : Prop :=
  ∀ n hash, GotTo MAX_BLOCKS_INV s known n hash →
    ∀ parent, (hash, parent) ∈ s.mainDag.edges → Qualifies known s.mainDag parent →
      ∃ m < n, ReachedBy (Direct s.mainDag) (· ∈ known) m parent

end

variable {F : Factory} {MAX_BLOCKS_INV : Nat} {s : ChainState} {known : Finset Hash}
  {mainDag mainDag' : MainDag} {hash parent child : Hash}

/-! ### Graphs whose edges are listed differently -/

namespace MainDag.SameGraph

variable (h : mainDag.SameGraph mainDag')

include h

theorem getBlockInfo (hash : Hash) : mainDag'.getBlockInfo hash = mainDag.getBlockInfo hash := by
  unfold MainDag.getBlockInfo
  rw [h.1]

theorem qualifies : Qualifies known mainDag' = Qualifies known mainDag := by
  funext hash
  unfold Qualifies
  simp only [h.2]

theorem direct : Direct mainDag' = Direct mainDag := by
  funext parent child
  unfold Direct
  simp only [h.2, h.getBlockInfo]

theorem completeAnswer {answer : List Hash} :
    CompleteAnswer MAX_BLOCKS_INV known mainDag' answer ↔
      CompleteAnswer MAX_BLOCKS_INV known mainDag answer := by
  have hcount : blocksWith mainDag' (Qualifies known mainDag') =
      blocksWith mainDag (Qualifies known mainDag) := by
    rw [h.qualifies, blocksWith, blocksWith, h.1]
  constructor
  · rintro ⟨hnodup, hqualifies, hparents, hcomplete⟩
    rw [hcount] at hcomplete
    rw [h.qualifies] at hqualifies hparents hcomplete
    simp only [h.2] at hparents
    exact ⟨hnodup, hqualifies, hparents, hcomplete⟩
  · rintro ⟨hnodup, hqualifies, hparents, hcomplete⟩
    refine ⟨hnodup, ?_, ?_, ?_⟩
    · rw [h.qualifies]
      exact hqualifies
    · rw [h.qualifies]
      simp only [h.2]
      exact hparents
    · rw [hcount, h.qualifies]
      exact hcomplete

theorem linked (hlinked : mainDag.Linked F) : mainDag'.Linked F := by
  intro child parent
  rw [h.2, hlinked, h.getBlockInfo]

end MainDag.SameGraph

/-! ### Direct children -/

theorem filterDirect_eq {biCurrent : BlockInfo} (hcurrent : mainDag.getBlockInfo hash = some biCurrent)
    {hashes : List Hash} (hknown : ∀ child ∈ hashes, ∃ info, mainDag.getBlockInfo child = some info) :
    filterDirect mainDag hash hashes = .ok (hashes.filter fun child =>
      (mainDag.getBlockInfo child).any fun biChild =>
        biChild.header.height = biCurrent.header.height + 1) := by
  induction hashes with
  | nil => rfl
  | cons first rest ih =>
      obtain ⟨info, hinfo⟩ := hknown first List.mem_cons_self
      rw [filterDirect, hinfo, hcurrent, ih fun child hchild =>
        hknown child (List.mem_cons_of_mem first hchild)]
      dsimp only
      rw [List.filter_cons, hinfo]
      simp

theorem mem_getChildren : child ∈ mainDag.getChildren hash ↔ (child, hash) ∈ mainDag.edges := by
  simp [MainDag.getChildren]

section Linked

variable (hlinked : mainDag.Linked F)

include hlinked

theorem exists_info_of_edge (h : (child, parent) ∈ mainDag.edges) :
    ∃ info, mainDag.getBlockInfo child = some info := by
  obtain ⟨info, hinfo, -⟩ := (hlinked child parent).mp h
  exact ⟨info, hinfo⟩

theorem directChildren_eq {biCurrent : BlockInfo}
    (hcurrent : mainDag.getBlockInfo hash = some biCurrent) :
    directChildren mainDag hash = .ok ((mainDag.getChildren hash).filter fun child =>
      (mainDag.getBlockInfo child).any fun biChild =>
        biChild.header.height = biCurrent.header.height + 1) :=
  filterDirect_eq hcurrent fun _ hchild => exists_info_of_edge hlinked (mem_getChildren.mp hchild)

theorem child_iff_direct :
    Child (directChildren mainDag) parent child ↔ Direct mainDag parent child := by
  unfold Child Direct
  cases hcurrent : mainDag.getBlockInfo parent with
  | none =>
      refine iff_of_false ?_ ?_
      · rintro ⟨kids, hkids, hchild⟩
        unfold directChildren at hkids
        cases hchildren : mainDag.getChildren parent with
        | nil =>
            rw [hchildren] at hkids
            cases hkids
            cases hchild
        | cons first rest =>
            rw [hchildren, filterDirect, hcurrent] at hkids
            cases hfirst : mainDag.getBlockInfo first <;> rw [hfirst] at hkids <;> cases hkids
      · rintro ⟨-, biParent, biChild, hparent, -⟩
        cases hparent
  | some biCurrent =>
      rw [directChildren_eq hlinked hcurrent]
      constructor
      · rintro ⟨kids, hkids, hchild⟩
        cases hkids
        obtain ⟨hmem, hheight⟩ := List.mem_filter.mp hchild
        cases hinfo : mainDag.getBlockInfo child with
        | none =>
            rw [hinfo] at hheight
            cases hheight
        | some biChild =>
            rw [hinfo] at hheight
            exact ⟨mem_getChildren.mp hmem, biCurrent, biChild, rfl, rfl, by simpa using hheight⟩
      · rintro ⟨hedge, biParent, biChild, hparent, hinfo, hheight⟩
        cases hparent
        refine ⟨_, rfl, List.mem_filter.mpr ⟨mem_getChildren.mpr hedge, ?_⟩⟩
        rw [hinfo]
        simpa using hheight

theorem child_eq_direct : Child (directChildren mainDag) = Direct mainDag := by
  funext parent child
  exact propext (child_iff_direct hlinked)

/-- A child of a block can be asked for its own children. -/
theorem exists_directChildren (h : Child (directChildren mainDag) parent child) :
    ∃ kids, directChildren mainDag child = .ok kids := by
  obtain ⟨-, -, biChild, -, hinfo, -⟩ := (child_iff_direct hlinked).mp h
  exact ⟨_, directChildren_eq hlinked hinfo⟩

end Linked

/-! ### Heights -/

theorem maxHeight_ok {hashes : List Hash} {nMaxHeight n : Nat}
    (h : s.maxHeight hashes nMaxHeight = .ok n) :
    nMaxHeight ≤ n ∧ ∀ hash ∈ hashes, ∃ info, s.mainDag.getBlockInfo hash = some info ∧
      info.header.height ≤ n := by
  induction hashes generalizing nMaxHeight with
  | nil =>
      cases h
      exact ⟨le_rfl, fun hash hmem => absurd hmem List.not_mem_nil⟩
  | cons first rest ih =>
      rw [ChainState.maxHeight] at h
      split at h
      next => cases h
      next info hinfo =>
        obtain ⟨hle, hrest⟩ := ih h
        refine ⟨(le_max_left _ _).trans hle, fun hash hmem => ?_⟩
        rcases List.mem_cons.mp hmem with rfl | hmem
        · exact ⟨info, hinfo, (le_max_right _ _).trans hle⟩
        · exact hrest hash hmem

/-- The height of a block. -/
def heightIn (mainDag : MainDag) (hash : Hash) : Nat :=
  ((mainDag.getBlockInfo hash).map (·.header.height)).getD 0

theorem heightIn_of_info {info : BlockInfo} (h : mainDag.getBlockInfo hash = some info) :
    heightIn mainDag hash = info.header.height := by
  rw [heightIn, h]
  rfl

theorem Direct.height (h : Direct mainDag parent child) :
    heightIn mainDag child = heightIn mainDag parent + 1 := by
  obtain ⟨-, biParent, biChild, hparent, hchild, hheight⟩ := h
  rw [heightIn_of_info hparent, heightIn_of_info hchild, hheight]

theorem ChecksHeights.height_lt (h : ChecksHeights F s) (hedge : (child, parent) ∈ s.mainDag.edges) :
    heightIn s.mainDag parent < heightIn s.mainDag child := by
  obtain ⟨info, hinfo, hne, hparent⟩ := (h.linked child parent).mp hedge
  have hheight := h.heights child info hinfo hne
  unfold ChainState.calcHeight at hheight
  cases hmax : s.maxHeight info.header.parentHashes 0 with
  | error error =>
      rw [hmax] at hheight
      cases hheight
  | ok n =>
      rw [hmax] at hheight
      obtain ⟨biParent, hbiParent, hle⟩ := (maxHeight_ok hmax).2 parent hparent
      rw [heightIn_of_info hinfo, heightIn_of_info hbiParent, ← Except.ok.inj hheight]
      exact Nat.lt_succ_of_le hle

/-- How high the highest block is. -/
def topHeight (mainDag : MainDag) : Nat := mainDag.infos.keys.sup (heightIn mainDag)

theorem height_le_top {info : BlockInfo} (h : mainDag.getBlockInfo hash = some info) :
    heightIn mainDag hash ≤ topHeight mainDag :=
  Finset.le_sup (FinMap.mem_keys_of_lookup h)

theorem exists_height_of_reached {n : Nat}
    (h : ReachedBy (Direct mainDag) (· ∈ known) n hash) :
    (∃ info, mainDag.getBlockInfo hash = some info) ∧ n < heightIn mainDag hash := by
  induction h with
  | first _ hdirect _ =>
      have hheight := hdirect.height
      obtain ⟨-, -, biChild, -, hinfo, -⟩ := hdirect
      exact ⟨⟨biChild, hinfo⟩, by omega⟩
  | next _ hdirect _ ih =>
      have hheight := hdirect.height
      obtain ⟨-, -, biChild, -, hinfo, -⟩ := hdirect
      exact ⟨⟨biChild, hinfo⟩, by omega⟩

theorem reached_lt_top {n : Nat} (h : ReachedBy (Direct mainDag) (· ∈ known) n hash) :
    n < topHeight mainDag := by
  obtain ⟨⟨info, hinfo⟩, hlt⟩ := exists_height_of_reached h
  exact hlt.trans_le (height_le_top hinfo)

theorem qualifies_of_reached {n : Nat} (h : ReachedBy (Direct mainDag) (· ∈ known) n hash) :
    Qualifies known mainDag hash := by
  induction h with
  | first hk hdirect hnot => exact ⟨hnot, _, hk, .single hdirect.1⟩
  | next _ hdirect hnot ih =>
      obtain ⟨-, k, hk, habove⟩ := ih
      exact ⟨hnot, k, hk, habove.tail hdirect.1⟩

/-- If every block that qualifies has a parent that is one lower, all are reached. -/
theorem exists_reached (hfound : FoundDirectly s known) (h : Qualifies known s.mainDag hash) :
    ∃ n, ReachedBy (Direct s.mainDag) (· ∈ known) n hash := by
  induction hn : heightIn s.mainDag hash using Nat.strong_induction_on generalizing hash with
  | _ n ih =>
      subst hn
      obtain ⟨parent, hdirect, hparent⟩ := hfound hash h
      rcases hparent with hknown | hqualifies
      · exact ⟨0, .first hknown hdirect h.1⟩
      · have hlower : heightIn s.mainDag parent < heightIn s.mainDag hash := by
          rw [hdirect.height]
          exact Nat.lt_succ_self _
        obtain ⟨m, hm⟩ := ih _ hlower hqualifies rfl
        exact ⟨m + 1, .next hm hdirect h.1⟩

theorem mem_blocksWith {p : Hash → Prop} :
    hash ∈ blocksWith mainDag p ↔ (∃ info, mainDag.getBlockInfo hash = some info) ∧ p hash := by
  classical
  rw [blocksWith, Finset.mem_filter, FinMap.mem_keys_iff]
  rfl

/-! ### The traversal -/

section Answered

variable {arrHashes answer : List Hash}

/-- The hashes of an array that are known. -/
def knownOf (mainDag : MainDag) (arrHashes : List Hash) : List Hash :=
  arrHashes.filter fun hash => (mainDag.getBlockInfo hash).isSome

theorem mem_knownOf (hlists : Lists known mainDag arrHashes) :
    hash ∈ knownOf mainDag arrHashes ↔ hash ∈ known := by
  rw [← hlists hash, knownOf, List.mem_filter]

theorem reached_eq (hlinked : mainDag.Linked F) (hlists : Lists known mainDag arrHashes) :
    Reached (directChildren mainDag) (knownOf mainDag arrHashes) =
      ReachedBy (Direct mainDag) (· ∈ known) := by
  have hmem : (fun hash => hash ∈ knownOf mainDag arrHashes) = fun hash => hash ∈ known := by
    funext hash
    exact propext (mem_knownOf hlists)
  unfold Reached
  rw [child_eq_direct hlinked, hmem]

theorem exists_answer (F : Factory) (MAX_BLOCKS_INV : Nat) (hlinked : mainDag.Linked F)
    (hknown : known.Nonempty) (hlists : Lists known mainDag arrHashes) :
    ∃ answer, (∃ n, ∀ fuel, n ≤ fuel →
        getBlocksFromLastKnown F MAX_BLOCKS_INV mainDag fuel arrHashes = some (.ok answer)) ∧
      Answer (directChildren mainDag) (knownOf mainDag arrHashes) MAX_BLOCKS_INV answer := by
  have hnonempty : knownOf mainDag arrHashes ≠ [] := by
    obtain ⟨hash, hmem⟩ := hknown
    exact List.ne_nil_of_mem ((mem_knownOf hlists).mpr hmem)
  have htodo (k : Hash) (hk : k ∈ knownOf mainDag arrHashes) :
      ∃ kids, directChildren mainDag k = .ok kids := by
    obtain ⟨info, hinfo⟩ := Option.isSome_iff_exists.mp (List.mem_filter.mp hk).2
    exact ⟨_, directChildren_eq hlinked hinfo⟩
  have hbound (n : Nat) (hash : Hash)
      (h : Reached (directChildren mainDag) (knownOf mainDag arrHashes) n hash) :
      n < topHeight mainDag := by
    rw [reached_eq hlinked hlists] at h
    exact reached_lt_top h
  obtain ⟨level, hlevel, hmem⟩ := exists_firstLevel (knownOf mainDag arrHashes) htodo
  obtain ⟨answer, hrun, hanswer⟩ := exists_visitLevels MAX_BLOCKS_INV
    (topHeight mainDag + 1) (fun _ _ => exists_directChildren hlinked) hbound (Nat.zero_le _)
    (by omega) (before_firstLevel hmem) (.inl rfl)
    fun x hx => absurd hx List.not_mem_nil
  refine ⟨answer, ⟨topHeight mainDag + 1, fun fuel hfuel => ?_⟩, hanswer⟩
  change (if knownOf mainDag arrHashes ≠ [] then blocksAbove MAX_BLOCKS_INV mainDag fuel
    (knownOf mainDag arrHashes) [] else _) = _
  rw [if_pos hnonempty, blocksAbove, hlevel]
  exact visitLevels_mono hrun hfuel

end Answered

theorem getBlocksFromLastKnown_mono {arrHashes : List Hash} {fuel fuel' : Nat}
    {r : Except String (List Hash)}
    (h : getBlocksFromLastKnown F MAX_BLOCKS_INV mainDag fuel arrHashes = some r)
    (hle : fuel ≤ fuel') :
    getBlocksFromLastKnown F MAX_BLOCKS_INV mainDag fuel' arrHashes = some r := by
  have habove {known sent : List Hash}
      (h : blocksAbove MAX_BLOCKS_INV mainDag fuel known sent = some r) :
      blocksAbove MAX_BLOCKS_INV mainDag fuel' known sent = some r := by
    unfold blocksAbove at h ⊢
    split at h
    next => exact h
    next => exact visitLevels_mono h hle
  unfold getBlocksFromLastKnown at h ⊢
  dsimp only at h ⊢
  split at h
  next hknown =>
    rw [if_pos hknown]
    exact habove h
  next hknown =>
    rw [if_neg hknown]
    split at h
    next hgenesis =>
      rw [if_pos hgenesis]
      exact habove h
    next hgenesis =>
      rw [if_neg hgenesis]
      exact h

/-! ### When the answer is complete -/

theorem gotTo_of_few {n : Nat} (hMAX : 0 < MAX_BLOCKS_INV)
    (hreached : ReachedBy (Direct s.mainDag) (· ∈ known) n hash)
    (hfew : n = 0 ∨ ∃ lower : List Hash, lower.length < MAX_BLOCKS_INV ∧
      ∀ m < n, ∀ y, ReachedBy (Direct s.mainDag) (· ∈ known) m y → y ∈ lower) :
    ∃ n, GotTo MAX_BLOCKS_INV s known n hash := by
  classical
  have hex : ∃ n, ReachedBy (Direct s.mainDag) (· ∈ known) n hash := ⟨n, hreached⟩
  have hle : Nat.find hex ≤ n := Nat.find_min' hex hreached
  refine ⟨Nat.find hex, Nat.find_spec hex, fun m hm => Nat.find_min hex hm, ?_⟩
  rcases hfew with rfl | ⟨lower, hlength, hlower⟩
  · have hempty : (blocksWith s.mainDag fun hash =>
        ∃ m < Nat.find hex, ReachedBy (Direct s.mainDag) (· ∈ known) m hash) = ∅ := by
      ext other
      rw [mem_blocksWith]
      simp [Nat.le_zero.mp hle]
    rw [hempty]
    exact hMAX
  · refine lt_of_le_of_lt (Finset.card_le_card (t := lower.toFinset) fun other hother => ?_)
      (lt_of_le_of_lt (List.toFinset_card_le lower) hlength)
    obtain ⟨-, m, hm, hother⟩ := mem_blocksWith.mp hother
    exact List.mem_toFinset.mpr (hlower m (hm.trans_le hle) other hother)

theorem completeAnswer_of_answer {answer : List Hash} {reached : ℕ → Hash → Prop}
    (hMAX : 0 < MAX_BLOCKS_INV) (hreached : reached = ReachedBy (Direct s.mainDag) (· ∈ known))
    (hfound : (blocksWith s.mainDag (Qualifies known s.mainDag)).card < MAX_BLOCKS_INV →
      FoundDirectly s known) (hlower : ParentsLower MAX_BLOCKS_INV s known)
    (hnodup : answer.Nodup)
    (hfew : ∀ x ∈ answer, ∃ n, reached n x ∧ (n = 0 ∨ ∃ lower : List Hash,
      lower.length < MAX_BLOCKS_INV ∧ ∀ m < n, ∀ y, reached m y → y ∈ lower))
    (hsorted : ∀ before x after, answer = before ++ x :: after → ∀ m y, reached m y →
      (∀ k, reached k x → m < k) → y ∈ before)
    (hcomplete : MAX_BLOCKS_INV ≤ answer.length ∨ ∀ m x, reached m x → x ∈ answer) :
    CompleteAnswer MAX_BLOCKS_INV known s.mainDag answer := by
  classical
  subst hreached
  have hqualifies (x : Hash) (hx : x ∈ answer) : Qualifies known s.mainDag x := by
    obtain ⟨n, hn, -⟩ := hfew x hx
    exact qualifies_of_reached hn
  refine ⟨hnodup, hqualifies, fun before hash after heq parent hedge hparent => ?_,
    fun hcard hash hhash => ?_⟩
  · obtain ⟨n, hn, hbelow⟩ := hfew hash (by simp [heq])
    obtain ⟨least, hgot⟩ := gotTo_of_few hMAX hn hbelow
    obtain ⟨m, hm, hreached⟩ := hlower least hash hgot parent hedge hparent
    refine hsorted before hash after heq m parent hreached fun k hk => ?_
    by_contra hle
    exact hgot.2.1 k (lt_of_le_of_lt (not_lt.mp hle) hm) hk
  · obtain ⟨n, hn⟩ := exists_reached (hfound hcard) hhash
    refine hcomplete.resolve_left (fun hmany => ?_) n hash hn
    have hsub : answer.toFinset ⊆ blocksWith s.mainDag (Qualifies known s.mainDag) := by
      intro x hx
      rw [List.mem_toFinset] at hx
      obtain ⟨m, hm, -⟩ := hfew x hx
      exact mem_blocksWith.mpr ⟨(exists_height_of_reached hm).1, hqualifies x hx⟩
    have hlength := Finset.card_le_card hsub
    rw [List.toFinset_card_of_nodup hnodup] at hlength
    omega

/-- The direct children that should come first: one above each height. -/
def preferring (mainDag : MainDag) (next : Hash → Hash) : MainDag :=
  { mainDag with
    edges := mainDag.edges.filter (fun edge => edge.1 = next edge.2) ++ mainDag.edges }

theorem sameGraph_preferring (mainDag : MainDag) (next : Hash → Hash) :
    mainDag.SameGraph (preferring mainDag next) := by
  refine ⟨rfl, fun edge => ?_⟩
  rw [preferring, List.mem_append, List.mem_filter]
  exact ⟨fun h => h.elim And.left id, .inr⟩

theorem directChildren_preferring (hlinked : mainDag.Linked F) {next : Hash → Hash}
    (h : Direct mainDag parent (next parent)) :
    ∃ more, directChildren (preferring mainDag next) parent = .ok (next parent :: more) := by
  obtain ⟨hedge, biParent, biChild, hparent, hchild, hheight⟩ := h
  have hsame := sameGraph_preferring mainDag next
  obtain ⟨tail, htail⟩ : ∃ tail, (preferring mainDag next).getChildren parent =
      next parent :: tail := by
    have hfirst : next parent ∈ ((mainDag.edges.filter fun edge => edge.1 = next edge.2).filter
        fun edge => edge.2 = parent).map (·.1) := by
      refine List.mem_map.mpr ⟨(next parent, parent), ?_, rfl⟩
      simpa using hedge
    have hall (child : Hash) (hmem : child ∈ ((mainDag.edges.filter fun edge =>
        edge.1 = next edge.2).filter fun edge => edge.2 = parent).map (·.1)) :
        child = next parent := by
      obtain ⟨edge, hedge, rfl⟩ := List.mem_map.mp hmem
      rw [List.mem_filter, List.mem_filter] at hedge
      have heq := of_decide_eq_true hedge.1.2
      rwa [of_decide_eq_true hedge.2] at heq
    rw [MainDag.getChildren, preferring, List.filter_append, List.map_append]
    cases hlist : ((mainDag.edges.filter fun edge => edge.1 = next edge.2).filter
        fun edge => edge.2 = parent).map (·.1) with
    | nil =>
        rw [hlist] at hfirst
        cases hfirst
    | cons first rest =>
        rw [hlist] at hall
        rw [hall first List.mem_cons_self]
        exact ⟨_, rfl⟩
  rw [directChildren_eq (hsame.linked hlinked) ((hsame.getBlockInfo parent).trans hparent), htail,
    List.filter_cons_of_pos]
  · exact ⟨_, rfl⟩
  · rw [hsame.getBlockInfo, hchild]
    simpa using hheight

theorem answer_unique {arrHashes answer answer' : List Hash}
    (h : ∃ n, ∀ fuel, n ≤ fuel →
      getBlocksFromLastKnown F MAX_BLOCKS_INV mainDag fuel arrHashes = some (.ok answer))
    (h' : ∃ n, ∀ fuel, n ≤ fuel →
      getBlocksFromLastKnown F MAX_BLOCKS_INV mainDag fuel arrHashes = some (.ok answer')) :
    answer = answer' := by
  obtain ⟨n, hn⟩ := h
  obtain ⟨n', hn'⟩ := h'
  have heq := (hn (max n n') (le_max_left _ _)).symm.trans (hn' (max n n') (le_max_right _ _))
  exact Except.ok.inj (Option.some.inj heq)

section Iff

variable (hchecked : ChecksHeights F s) (hknown : known.Nonempty)
  (hthere : ∀ hash ∈ known, ∃ info, s.mainDag.getBlockInfo hash = some info)

include hthere

theorem lists_toList : Lists known s.mainDag known.toList := by
  intro hash
  rw [Finset.mem_toList]
  refine ⟨And.left, fun hmem => ⟨hmem, ?_⟩⟩
  obtain ⟨info, hinfo⟩ := hthere hash hmem
  rw [hinfo]
  rfl

include hchecked hknown

theorem foundDirectly_of_answersCompletely (h : AnswersCompletely F MAX_BLOCKS_INV s known)
    (hcard : (blocksWith s.mainDag (Qualifies known s.mainDag)).card < MAX_BLOCKS_INV) :
    FoundDirectly s known := by
  intro hash hhash
  have hlists := lists_toList hthere
  obtain ⟨answer, hrun, hcomplete⟩ := h s.mainDag known.toList ⟨rfl, fun _ => Iff.rfl⟩ hlists
  obtain ⟨answer', hrun', hanswer⟩ := exists_answer F MAX_BLOCKS_INV hchecked.linked hknown hlists
  obtain rfl := answer_unique hrun hrun'
  obtain ⟨n, hn, -⟩ := hanswer.few hash (hcomplete.complete hcard hash hhash)
  rw [reached_eq hchecked.linked hlists] at hn
  cases hn with
  | first hk hdirect _ => exact ⟨_, hdirect, .inl hk⟩
  | next hx hdirect _ => exact ⟨_, hdirect, .inr (qualifies_of_reached hx)⟩

omit hknown in
/-- If the children that lead to a block are listed first, nothing but the lower levels comes
before it. -/
theorem exists_answer_gotTo {n : Nat} (h : GotTo MAX_BLOCKS_INV s known n hash) :
    ∃ mainDag' arrHashes, s.mainDag.SameGraph mainDag' ∧ Lists known mainDag' arrHashes ∧
      ∀ answer, (∃ n, ∀ fuel, n ≤ fuel →
          getBlocksFromLastKnown F MAX_BLOCKS_INV mainDag' fuel arrHashes = some (.ok answer)) →
        ∃ before after, answer = before ++ hash :: after ∧
          ∀ x ∈ before, ∃ m < n, ReachedBy (Direct s.mainDag) (· ∈ known) m x := by
  classical
  obtain ⟨hreached, hleast, hcard⟩ := h
  obtain ⟨k, chain, hk, hfirst, rfl, hstep, hout⟩ := hreached.exists_chain
  -- the heights along the chain tell which child comes next
  have hheight (i : Nat) (hi : i ≤ n) :
      heightIn s.mainDag (chain i) = heightIn s.mainDag k + i + 1 := by
    induction i with
    | zero => exact hfirst.height
    | succ i ih => rw [(hstep i hi).height, ih (Nat.le_of_succ_le hi), Nat.add_assoc _ i 1]
  let next (hash : Hash) : Hash := chain (heightIn s.mainDag hash - heightIn s.mainDag k)
  have hnextk : next k = chain 0 := congrArg chain (Nat.sub_self _)
  have hnext (i : Nat) (hi : i ≤ n) : next (chain i) = chain (i + 1) := by
    refine congrArg chain ?_
    rw [hheight i hi]
    omega
  have hsame := sameGraph_preferring s.mainDag next
  have hlinked := hsame.linked hchecked.linked
  have hlists : Lists known (preferring s.mainDag next) (k :: known.toList) := by
    intro x
    rw [List.mem_cons, Finset.mem_toList, hsame.getBlockInfo]
    constructor
    · rintro ⟨rfl | hx, -⟩
      · exact hk
      · exact hx
    · intro hx
      obtain ⟨info, hinfo⟩ := hthere x hx
      exact ⟨.inr hx, by rw [hinfo]; rfl⟩
  have hR := reached_eq hlinked hlists
  rw [hsame.direct] at hR
  refine ⟨preferring s.mainDag next, k :: known.toList, hsame, hlists, fun answer hanswer => ?_⟩
  have hknownOf : ∃ rest, knownOf (preferring s.mainDag next) (k :: known.toList) = k :: rest := by
    obtain ⟨info, hinfo⟩ := hthere k hk
    rw [knownOf, List.filter_cons_of_pos]
    · exact ⟨_, rfl⟩
    · rw [hsame.getBlockInfo, hinfo]
      rfl
  have hleftmost : Leftmost (directChildren (preferring s.mainDag next))
      (knownOf (preferring s.mainDag next) (k :: known.toList)) chain n := by
    refine ⟨?_, fun i hi => ?_, fun i hi => ?_, fun m hm => ?_⟩
    · rw [hR]
      exact .first hk hfirst (hout 0 (Nat.zero_le n))
    · have hdirect : Direct s.mainDag (chain i) (next (chain i)) := (hnext i hi.le).symm ▸ hstep i hi
      obtain ⟨more, hmore⟩ := directChildren_preferring hchecked.linked hdirect
      exact ⟨more, (hnext i hi.le) ▸ hmore⟩
    · rw [mem_knownOf hlists]
      exact hout i hi
    · rw [hR]
      exact hleast m hm
  have hfew (xs : List Hash) (hnodup : xs.Nodup) (hxs : ∀ x ∈ xs, ∃ m < n,
      Reached (directChildren (preferring s.mainDag next))
        (knownOf (preferring s.mainDag next) (k :: known.toList)) m x) :
      xs.length < MAX_BLOCKS_INV := by
    rw [← List.toFinset_card_of_nodup hnodup]
    refine lt_of_le_of_lt (Finset.card_le_card fun x hx => ?_) hcard
    obtain ⟨m, hm, hx⟩ := hxs x (List.mem_toFinset.mp hx)
    rw [hR] at hx
    exact mem_blocksWith.mpr ⟨(exists_height_of_reached hx).1, m, hm, hx⟩
  obtain ⟨rest, hrest⟩ := hknownOf
  have htodo (k' : Hash) (hk' : k' ∈ knownOf (preferring s.mainDag next) (k :: known.toList)) :
      ∃ kids, directChildren (preferring s.mainDag next) k' = .ok kids := by
    obtain ⟨info, hinfo⟩ := Option.isSome_iff_exists.mp (List.mem_filter.mp hk').2
    exact ⟨_, directChildren_eq hlinked hinfo⟩
  obtain ⟨level, hlevel, hmem⟩ := exists_firstLevel
    (knownOf (preferring s.mainDag next) (k :: known.toList)) htodo
  have hbefore := before_firstLevel hmem
  obtain ⟨tail, rfl⟩ : ∃ tail, level = chain 0 :: tail := by
    have hdirect : Direct s.mainDag k (next k) := hnextk.symm ▸ hfirst
    obtain ⟨more, hmore⟩ := directChildren_preferring hchecked.linked hdirect
    rw [hnextk] at hmore
    have hlevel' := hlevel
    rw [hrest] at hlevel'
    refine firstLevel_cons hmore ?_ hlevel'
    rw [← hrest, mem_knownOf hlists]
    exact hout 0 (Nat.zero_le n)
  obtain ⟨fuel, hfuel⟩ := hanswer
  have hrun := hfuel fuel le_rfl
  change (if knownOf (preferring s.mainDag next) (k :: known.toList) ≠ [] then
    blocksAbove MAX_BLOCKS_INV (preferring s.mainDag next) fuel
      (knownOf (preferring s.mainDag next) (k :: known.toList)) [] else _) = _ at hrun
  rw [if_pos (by rw [hrest]; exact List.cons_ne_nil _ _), blocksAbove, hlevel] at hrun
  obtain ⟨before, after, heq, hlower⟩ := exists_visitLevels_leftmost
    (fun _ _ => exists_directChildren hlinked) hleftmost hfew (Nat.zero_le n) hbefore hrun
  refine ⟨before, after, heq, fun x hx => ?_⟩
  obtain ⟨m, hm, hxm⟩ := hlower x hx
  rw [hR] at hxm
  exact ⟨m, hm, hxm⟩

omit hknown in
theorem parentsLower_of_answersCompletely (h : AnswersCompletely F MAX_BLOCKS_INV s known) :
    ParentsLower MAX_BLOCKS_INV s known := by
  intro n hash hgot parent hedge hparent
  obtain ⟨mainDag', arrHashes, hsame, hlists, hfirst⟩ :=
    exists_answer_gotTo hchecked hthere hgot
  obtain ⟨answer, hrun, hcomplete⟩ := h mainDag' arrHashes hsame hlists
  obtain ⟨before, after, heq, hlower⟩ := hfirst answer hrun
  rw [hsame.completeAnswer] at hcomplete
  exact hlower parent (hcomplete.parentsFirst before hash after heq parent hedge hparent)

omit hthere in
theorem answersCompletely_of (hMAX : 0 < MAX_BLOCKS_INV)
    (hfound : (blocksWith s.mainDag (Qualifies known s.mainDag)).card < MAX_BLOCKS_INV →
      FoundDirectly s known) (hlower : ParentsLower MAX_BLOCKS_INV s known) :
    AnswersCompletely F MAX_BLOCKS_INV s known := by
  intro mainDag' arrHashes hsame hlists
  have hlinked := hsame.linked hchecked.linked
  obtain ⟨answer, hrun, hanswer⟩ := exists_answer F MAX_BLOCKS_INV hlinked hknown hlists
  have hR := reached_eq hlinked hlists
  rw [hsame.direct] at hR
  exact ⟨answer, hrun, hsame.completeAnswer.mpr (completeAnswer_of_answer hMAX hR hfound hlower
    hanswer.nodup hanswer.few hanswer.sorted hanswer.complete)⟩

end Iff

/-- The answer is complete and in order exactly if the direct children lead everywhere, and on
the levels that the answer gets to they lead to the parents of a block before the block. -/
theorem answersCompletely_iff (F : Factory) (MAX_BLOCKS_INV : Nat) (s : ChainState)
    (known : Finset Hash) (hMAX : 0 < MAX_BLOCKS_INV) (hchecked : ChecksHeights F s)
    (hknown : known.Nonempty)
    (hthere : ∀ hash ∈ known, ∃ info, s.mainDag.getBlockInfo hash = some info) :
    AnswersCompletely F MAX_BLOCKS_INV s known ↔
      ((blocksWith s.mainDag (Qualifies known s.mainDag)).card < MAX_BLOCKS_INV →
        FoundDirectly s known) ∧ ParentsLower MAX_BLOCKS_INV s known :=
  ⟨fun h => ⟨foundDirectly_of_answersCompletely hchecked hknown hthere h,
    parentsLower_of_answersCompletely hchecked hthere h⟩,
    fun h => answersCompletely_of hchecked hknown hMAX h.1 h.2⟩

/-! ### Known blocks of one height -/

theorem height_of_reached {n height : Nat} (hheights : ∀ k ∈ known, heightIn mainDag k = height)
    (h : ReachedBy (Direct mainDag) (· ∈ known) n hash) :
    heightIn mainDag hash = height + n + 1 := by
  induction h with
  | first hk hdirect _ => rw [hdirect.height, hheights _ hk]
  | next _ hdirect _ ih => rw [hdirect.height, ih, Nat.add_assoc height]

/-- If the known blocks have one height, it is enough that the direct children lead
everywhere. -/
theorem answersCompletely_of_oneHeight {height : Nat} (hMAX : 0 < MAX_BLOCKS_INV)
    (hchecked : ChecksHeights F s) (hknown : known.Nonempty)
    (hheights : ∀ k ∈ known, heightIn s.mainDag k = height) (hfound : FoundDirectly s known) :
    AnswersCompletely F MAX_BLOCKS_INV s known := by
  refine answersCompletely_of hchecked hknown hMAX (fun _ => hfound) ?_
  intro n hash hgot parent hedge hparent
  obtain ⟨m, hm⟩ := exists_reached hfound hparent
  refine ⟨m, ?_, hm⟩
  have hlower := hchecked.height_lt hedge
  rw [height_of_reached hheights hm, height_of_reached hheights hgot.1] at hlower
  omega

/-! ### Graphs that are built block by block -/

theorem linked_empty (F : Factory) : MainDag.empty.Linked F := by
  intro child parent
  refine iff_of_false List.not_mem_nil ?_
  rintro ⟨info, hinfo, -⟩
  cases hinfo

theorem MainDag.Linked.addBlock {blockInfo : BlockInfo} (h : mainDag.Linked F)
    (hnew : mainDag.getBlockInfo (blockInfo.getHash F) = none) :
    (mainDag.addBlock F blockInfo).Linked F := by
  intro child parent
  have hold : (child, parent) ∈ mainDag.edges → child ≠ blockInfo.getHash F := by
    rintro hedge rfl
    obtain ⟨info, hinfo⟩ := exists_info_of_edge h hedge
    cases hnew.symm.trans hinfo
  have hedges : (child, parent) ∈ (mainDag.addBlock F blockInfo).edges ↔
      (child, parent) ∈ mainDag.edges ∨ child = blockInfo.getHash F ∧
        child ≠ F.constants.GENESIS_BLOCK ∧ parent ∈ blockInfo.header.parentHashes := by
    unfold MainDag.addBlock
    dsimp only
    split
    next hgenesis =>
      refine ⟨.inl, fun hor => hor.resolve_right ?_⟩
      rintro ⟨rfl, hne, -⟩
      exact hne hgenesis
    next hne =>
      rw [List.mem_append, List.mem_map]
      constructor
      · rintro (⟨p, hp, heq⟩ | hedge)
        · cases heq
          exact .inr ⟨rfl, hne, hp⟩
        · exact .inl hedge
      · rintro (hedge | ⟨rfl, -, hp⟩)
        · exact .inr hedge
        · exact .inl ⟨parent, hp, rfl⟩
  rw [hedges, MainDag.getBlockInfo_addBlock]
  split
  next heq =>
    constructor
    · rintro (hedge | ⟨-, hne, hparent⟩)
      · exact absurd heq (hold hedge)
      · exact ⟨blockInfo, rfl, hne, hparent⟩
    · rintro ⟨info, hinfo, hne, hparent⟩
      cases hinfo
      exact .inr ⟨heq, hne, hparent⟩
  next hne =>
    rw [h child parent]
    exact ⟨fun hor => hor.resolve_right fun heq => hne heq.1, .inl⟩

/-- The graph of some blocks. -/
def dagOf (F : Factory) (infos : List BlockInfo) : MainDag :=
  infos.foldl (fun mainDag blockInfo => mainDag.addBlock F blockInfo) .empty

theorem dagOf_concat (F : Factory) (infos : List BlockInfo) (blockInfo : BlockInfo) :
    dagOf F (infos ++ [blockInfo]) = (dagOf F infos).addBlock F blockInfo := by
  rw [dagOf, List.foldl_append]
  rfl

theorem getBlockInfo_dagOf {infos : List BlockInfo} {info : BlockInfo}
    (h : (dagOf F infos).getBlockInfo hash = some info) : info ∈ infos ∧ info.getHash F = hash := by
  induction infos using List.reverseRecOn with
  | nil => cases h
  | append_singleton infos last ih =>
      rw [dagOf_concat, MainDag.getBlockInfo_addBlock] at h
      split at h
      next heq =>
        cases h
        exact ⟨List.mem_append_right _ (List.mem_singleton_self _), heq.symm⟩
      next =>
        obtain ⟨hmem, hhash⟩ := ih h
        exact ⟨List.mem_append_left _ hmem, hhash⟩

theorem linked_dagOf {infos : List BlockInfo} (h : (infos.map (·.getHash F)).Nodup) :
    (dagOf F infos).Linked F := by
  induction infos using List.reverseRecOn with
  | nil => exact linked_empty F
  | append_singleton infos last ih =>
      rw [List.map_append] at h
      rw [dagOf_concat]
      refine (ih h.of_append_left).addBlock ?_
      cases hinfo : (dagOf F infos).getBlockInfo (last.getHash F) with
      | none => rfl
      | some info =>
          obtain ⟨hmem, hhash⟩ := getBlockInfo_dagOf hinfo
          refine absurd (List.disjoint_of_nodup_append h (List.mem_map_of_mem hmem) ?_) id
          rw [hhash]
          exact List.mem_singleton_self _

/-! ### A block that joins two branches -/

section Sample

/-- A header of the sample graph. -/
def headerUpon (parentHashes : List Hash) (timestamp height : Nat) : BlockHeader :=
  { parentHashes, merkleRoot := 0, conciliumId := 0, timestamp, height }

/-- Its first block. -/
def firstInfo : BlockInfo := { header := headerUpon [] 0 0 }

/-- A factory that takes it for genesis. -/
def firstIsGenesis : Factory :=
  { Factory.sample with
    constants :=
      { GENESIS_BLOCK := firstInfo.getHash Factory.sample
        CONCILIUM_DEFINITION_CONTRACT_ADDRESS := none } }

/-- A branch of two blocks, another one of a single block, and a block that joins them. -/
def lowInfo : BlockInfo := { header := headerUpon [firstInfo.getHash firstIsGenesis] 1 1 }

def midInfo : BlockInfo := { header := headerUpon [lowInfo.getHash firstIsGenesis] 2 2 }

def otherInfo : BlockInfo := { header := headerUpon [firstInfo.getHash firstIsGenesis] 3 1 }

def joinInfo : BlockInfo :=
  { header := headerUpon [midInfo.getHash firstIsGenesis, otherInfo.getHash firstIsGenesis] 4 3 }

/-- A node that has these blocks. -/
def joinedChain : ChainState :=
  ⟨.empty, ⟨Dag.empty, []⟩, dagOf firstIsGenesis [firstInfo, lowInfo, midInfo, otherInfo, joinInfo]⟩

theorem checksHeights_joinedChain : ChecksHeights firstIsGenesis joinedChain where
  linked := linked_dagOf (by decide +kernel)
  heights hash info hinfo hne := by
    obtain ⟨hmem, rfl⟩ := getBlockInfo_dagOf hinfo
    simp only [List.mem_cons, List.not_mem_nil, or_false] at hmem
    rcases hmem with rfl | rfl | rfl | rfl | rfl
    · exact absurd rfl hne
    · decide +kernel
    · decide +kernel
    · decide +kernel
    · decide +kernel

/-- What a peer knows that has only the other branch. -/
def otherKnown : Finset Hash := {otherInfo.getHash firstIsGenesis}

theorem otherKnown_there : ∀ hash ∈ otherKnown,
    ∃ info, joinedChain.mainDag.getBlockInfo hash = some info := by
  intro hash hmem
  obtain rfl := Finset.mem_singleton.mp hmem
  exact Option.isSome_iff_exists.mp (by decide +kernel)

theorem answersCompletely_iff_joinedChain :
    AnswersCompletely firstIsGenesis 300 joinedChain otherKnown ↔
      ((blocksWith joinedChain.mainDag (Qualifies otherKnown joinedChain.mainDag)).card < 300 →
        FoundDirectly joinedChain otherKnown) ∧ ParentsLower 300 joinedChain otherKnown :=
  answersCompletely_iff firstIsGenesis 300 joinedChain otherKnown (by decide)
    checksHeights_joinedChain (Finset.singleton_nonempty _) otherKnown_there

/-- The block that joins the branches is missing, since its parent on the other branch is two
blocks lower. -/
theorem not_answersCompletely_joinedChain :
    ¬ ∀ (F : Factory) (MAX_BLOCKS_INV : Nat) (s : ChainState) (known : Finset Hash),
      0 < MAX_BLOCKS_INV → ChecksHeights F s → known.Nonempty →
      (∀ hash ∈ known, ∃ info, s.mainDag.getBlockInfo hash = some info) →
      AnswersCompletely F MAX_BLOCKS_INV s known := by
  intro hclaim
  have hanswers := hclaim firstIsGenesis 300 joinedChain otherKnown (by decide)
    checksHeights_joinedChain (Finset.singleton_nonempty _) otherKnown_there
  have hlists : Lists otherKnown joinedChain.mainDag [otherInfo.getHash firstIsGenesis] := by
    intro hash
    rw [List.mem_singleton, otherKnown, Finset.mem_singleton]
    refine ⟨And.left, fun heq => ⟨heq, ?_⟩⟩
    rw [heq]
    decide +kernel
  obtain ⟨answer, ⟨n, hrun⟩, hcomplete⟩ := hanswers joinedChain.mainDag
    [otherInfo.getHash firstIsGenesis] ⟨rfl, fun _ => Iff.rfl⟩ hlists
  have hempty : getBlocksFromLastKnown firstIsGenesis 300 joinedChain.mainDag 1
      [otherInfo.getHash firstIsGenesis] = some (.ok []) := by decide +kernel
  have heq := (hrun (max n 1) (le_max_left n 1)).symm.trans
    (getBlocksFromLastKnown_mono hempty (le_max_right n 1))
  obtain rfl := Except.ok.inj (Option.some.inj heq)
  have hjoin : Qualifies otherKnown joinedChain.mainDag (joinInfo.getHash firstIsGenesis) := by
    refine ⟨?_, otherInfo.getHash firstIsGenesis, Finset.mem_singleton_self _, .single ?_⟩
    · rw [otherKnown, Finset.mem_singleton]
      decide +kernel
    · decide +kernel
  have hfew : (blocksWith joinedChain.mainDag
      (Qualifies otherKnown joinedChain.mainDag)).card < 300 := by
    have hkeys : joinedChain.mainDag.infos.keys.card < 300 := by decide +kernel
    refine lt_of_le_of_lt (Finset.card_le_card fun hash hhash => ?_) hkeys
    exact FinMap.mem_keys_iff.mpr (mem_blocksWith.mp hhash).1
  exact absurd (hcomplete.complete hfew _ hjoin) List.not_mem_nil

end Sample

end CilCore
