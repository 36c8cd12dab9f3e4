import CilCore.Lib.Runs
import CilCore.Node.BlockSignatures
import CilCore.Node.Finality
import CilCore.Node.LostWakeups

/-!
# Bad blocks

Whoever calls `_processBlock` flags the block as bad when something is thrown, and its body
is removed. This does no harm to a block that could not be executed. A block that is pending
already, or final, stays clean as long as nothing is thrown on its behalf.
-/

namespace CilCore

/-- The block that the effect undoes. -/
def AcceptEffect.undoes : AcceptEffect → Option Hash
  | unwindBlock hash | saveBadInfo hash | removeBlock hash => some hash
  | _ => none

namespace BlockNode

variable {F : Factory} {J : Dagjs} {s s' : BlockNode} {hash k : Hash} {block : Block}

/-! ### Blocks in use -/

/-- The block is flagged as final, in the main graph or on disk. -/
def FlaggedFinal (s : BlockNode) (hash : Hash) : Prop :=
  (s.mainDag.getBlockInfo hash).any (·.isFinal) = true ∨
    (s.disk.infos.lookup hash).any (·.isFinal) = true

/-- The block is flagged as bad, in the main graph or on disk. -/
def FlaggedBad (s : BlockNode) (hash : Hash) : Prop :=
  (s.mainDag.getBlockInfo hash).any (·.isBad) = true ∨
    (s.disk.infos.lookup hash).any (·.isBad) = true

/-- The block is not flagged as bad, and its body is stored. -/
def Clean (s : BlockNode) (hash : Hash) : Prop :=
  ¬ s.FlaggedBad hash ∧ (s.disk.blocks.lookup hash).isSome = true

/-- Pending and final blocks are clean. -/
def KeepsExecuted (s : BlockNode) : Prop :=
  ∀ hash, hash ∈ s.pendingBlocks.dag ∨ s.FlaggedFinal hash → s.Clean hash

/-- What is still to be done for the block that is being accepted. -/
def effectsLeft (s : BlockNode) : List AcceptEffect := (s.accepting.map (·.effects)).getD []

/-- The block is pending or final, or will be flagged as final. -/
def InUse (s : BlockNode) (hash : Hash) : Prop :=
  hash ∈ s.pendingBlocks.dag ∨ s.FlaggedFinal hash ∨ .markAsFinal hash ∈ s.effectsLeft

instance (s : BlockNode) (hash : Hash) : Decidable (s.FlaggedFinal hash) :=
  inferInstanceAs (Decidable (_ ∨ _))

instance (s : BlockNode) (hash : Hash) : Decidable (s.FlaggedBad hash) :=
  inferInstanceAs (Decidable (_ ∨ _))

instance (s : BlockNode) (hash : Hash) : Decidable (s.Clean hash) :=
  inferInstanceAs (Decidable (_ ∧ _))

instance (s : BlockNode) (hash : Hash) : Decidable (s.InUse hash) :=
  inferInstanceAs (Decidable (_ ∨ _ ∨ _))

/-- The parents of a block that is taken from the queue. -/
def parentsToCheck (s : BlockNode) (hash : Hash) : List Hash :=
  match s.mainDag.getBlockInfo hash, s.disk.blocks.lookup hash with
  | some blockInfo, _ => blockInfo.header.parentHashes
  | none, some block => block.parentHashes
  | none, none => []

/-- None of the blocks is bad in the main graph. -/
def NoneBad (s : BlockNode) (hashes : List Hash) : Prop :=
  ∀ hash ∈ hashes, (s.mainDag.getBlockInfo hash).any (·.isBad) = false

/-- Nothing is thrown on behalf of a block in use: a copy of such a block that is handled late
is not final, verifies, and has no bad parents, no more than one that is taken from the queue;
and accepting a block that is in use does not throw. A block that is executed has not been
flagged as bad on behalf of another copy. -/
def SparesExecuted (F : Factory) (J : Dagjs) (s : BlockNode) : Action → Prop
  | .handle n => ∀ block ∈ s.arrived[n]?, s.InUse (block.hash F) →
      ¬ s.FlaggedFinal (block.hash F) ∧ (s.verifyBlock F block false).isOk = true ∧
        s.NoneBad block.parentHashes
  | .take hash => s.InUse hash → s.NoneBad (s.parentsToCheck hash)
  | .exec n _ => ∀ block ∈ s.waiting[n]?,
      s.accepting.isNone = true → s.isBlockExecuted (block.hash F) = false → s.Clean (block.hash F)
  | .effect => ∀ accepting ∈ s.accepting, ∀ effect ∈ accepting.effects.head?,
      (s.runEffect F J accepting accepting.effects.tail effect).isOk = false →
        ¬ s.InUse (accepting.block.hash F)
  | .throw => ∀ accepting ∈ s.accepting, ¬ s.InUse (accepting.block.hash F)
  | .request _ | .receive _ | .failExec _ => True

instance (s : BlockNode) (hashes : List Hash) : Decidable (s.NoneBad hashes) :=
  inferInstanceAs (Decidable
    (∀ hash ∈ hashes, (s.mainDag.getBlockInfo hash).any (·.isBad) = false))

instance (F : Factory) (J : Dagjs) (s : BlockNode) :
    ∀ action, Decidable (s.SparesExecuted F J action)
  | .handle n => inferInstanceAs (Decidable (∀ block ∈ s.arrived[n]?, _))
  | .take _ => inferInstanceAs (Decidable (_ → _))
  | .exec n _ => inferInstanceAs (Decidable (∀ block ∈ s.waiting[n]?, _))
  | .effect => inferInstanceAs (Decidable (∀ accepting ∈ s.accepting, _))
  | .throw => inferInstanceAs (Decidable (∀ accepting ∈ s.accepting, _))
  | .request _ | .receive _ | .failExec _ => inferInstanceAs (Decidable True)

/-! ### What is known of blocks in use -/

/-- Blocks in use are clean, and pending ones neither final nor about to be. What is final on disk
is final in the main graph, so that it counts as executed. Effects that are left undo no block in
use, and finality is checked while the accepted block is pending. -/
structure Unblamed (F : Factory) (s : BlockNode) : Prop where
  acyclic : s.pendingBlocks.dag.Acyclic
  keyed : ∀ hash info, s.mainDag.getBlockInfo hash = some info ∨
    s.disk.infos.lookup hash = some info → info.getHash F = hash
  stored : ∀ hash block, s.disk.blocks.lookup hash = some block → block.hash F = hash
  clean : ∀ hash, s.InUse hash → s.Clean hash
  pending : ∀ hash ∈ s.pendingBlocks.dag,
    ¬ s.FlaggedFinal hash ∧ .markAsFinal hash ∉ s.effectsLeft
  final : ∀ hash, (s.disk.infos.lookup hash).any (·.isFinal) = true →
    (s.mainDag.getBlockInfo hash).any (·.isFinal) = true
  undone : ∀ effect ∈ s.effectsLeft, ∀ hash ∈ effect.undoes, ¬ s.InUse hash
  checks : ∀ accepting ∈ s.accepting, .checkFinality ∈ accepting.effects →
    accepting.effects = [.checkFinality, .updatePendingBlocks] ∧
      accepting.block.hash F ∈ s.pendingBlocks.dag

/-- A step leaves blocks in use clean, and flags none of those as bad that were in use. -/
structure Spares (F : Factory) (s s' : BlockNode) : Prop where
  unblamed : s'.Unblamed F
  spares : ∀ hash, s.InUse hash → ¬ s'.FlaggedBad hash

/-- Only the infos and the body of one block are changed, which stays as clean as it was in use. -/
structure Reflags (F : Factory) (k : Hash) (s s' : BlockNode) : Prop where
  mem : ∀ hash, hash ∈ s'.pendingBlocks.dag ↔ hash ∈ s.pendingBlocks.dag
  edge : ∀ v w, s'.pendingBlocks.dag.Edge v w → s.pendingBlocks.dag.Edge v w
  accepting : s'.accepting = s.accepting
  others : ∀ hash, hash ≠ k → s'.mainDag.getBlockInfo hash = s.mainDag.getBlockInfo hash ∧
    s'.disk.infos.lookup hash = s.disk.infos.lookup hash ∧
      s'.disk.blocks.lookup hash = s.disk.blocks.lookup hash
  keyed : ∀ info, s'.mainDag.getBlockInfo k = some info ∨ s'.disk.infos.lookup k = some info →
    info.getHash F = k
  stored : ∀ block, s'.disk.blocks.lookup k = some block → block.hash F = k
  inUse : s'.InUse k ↔ s.InUse k
  clean : s.InUse k → s'.Clean k
  pending : k ∈ s.pendingBlocks.dag → ¬ s'.FlaggedFinal k
  final : (s'.disk.infos.lookup k).any (·.isFinal) = true →
    (s'.mainDag.getBlockInfo k).any (·.isFinal) = true

theorem Reflags.effectsLeft (h : Reflags F k s s') : s'.effectsLeft = s.effectsLeft := by
  unfold BlockNode.effectsLeft
  rw [h.accepting]

theorem Reflags.flaggedFinal (h : Reflags F k s s') (hne : hash ≠ k) :
    s'.FlaggedFinal hash ↔ s.FlaggedFinal hash := by
  obtain ⟨hmain, hdisk, -⟩ := h.others hash hne
  unfold FlaggedFinal
  rw [hmain, hdisk]

theorem Reflags.clean_iff (h : Reflags F k s s') (hne : hash ≠ k) :
    s'.Clean hash ↔ s.Clean hash := by
  obtain ⟨hmain, hdisk, hblocks⟩ := h.others hash hne
  unfold Clean FlaggedBad
  rw [hmain, hdisk, hblocks]

theorem Reflags.inUse_iff (h : Reflags F k s s') (hash : Hash) : s'.InUse hash ↔ s.InUse hash := by
  by_cases hne : hash = k
  · subst hne
    exact h.inUse
  · unfold InUse
    rw [h.mem, h.flaggedFinal hne, h.effectsLeft]

theorem Reflags.unblamed (h : Reflags F k s s') (hs : s.Unblamed F) : s'.Unblamed F := by
  have hclean : ∀ hash, s'.InUse hash → s'.Clean hash := by
    intro hash hinUse
    rw [h.inUse_iff] at hinUse
    by_cases hne : hash = k
    · subst hne
      exact h.clean hinUse
    · exact (h.clean_iff hne).mpr (hs.clean hash hinUse)
  refine ⟨hs.acyclic.of_edge h.edge, fun hash info hinfo => ?_, fun hash block hblock => ?_, hclean,
    fun hash hpending => ?_, fun hash hfinal => ?_, fun effect heffect hash hundoes => ?_,
    fun accepting haccepting hcheck => ?_⟩
  · by_cases hne : hash = k
    · subst hne
      exact h.keyed info hinfo
    · rw [(h.others hash hne).1, (h.others hash hne).2.1] at hinfo
      exact hs.keyed hash info hinfo
  · by_cases hne : hash = k
    · subst hne
      exact h.stored block hblock
    · rw [(h.others hash hne).2.2] at hblock
      exact hs.stored hash block hblock
  · rw [h.mem] at hpending
    refine ⟨?_, h.effectsLeft ▸ (hs.pending hash hpending).2⟩
    by_cases hne : hash = k
    · subst hne
      exact h.pending hpending
    · rw [h.flaggedFinal hne]
      exact (hs.pending hash hpending).1
  · by_cases hne : hash = k
    · subst hne
      exact h.final hfinal
    · obtain ⟨hmain, hdisk, -⟩ := h.others hash hne
      rw [hdisk] at hfinal
      rw [hmain]
      exact hs.final hash hfinal
  · rw [h.effectsLeft] at heffect
    rw [h.inUse_iff]
    exact hs.undone effect heffect hash hundoes
  · rw [h.accepting] at haccepting
    obtain ⟨heffects, hmem⟩ := hs.checks accepting haccepting hcheck
    exact ⟨heffects, (h.mem _).mpr hmem⟩

theorem Reflags.spares (h : Reflags F k s s') (hs : s.Unblamed F) : Spares F s s' where
  unblamed := h.unblamed hs
  spares hash hinUse := ((h.unblamed hs).clean hash ((h.inUse_iff hash).mpr hinUse)).1

/-- Nothing else that matters is changed. -/
theorem Reflags.congr {s'' : BlockNode} (h : Reflags F k s s') (hmainDag : s''.mainDag = s'.mainDag)
    (hdisk : s''.disk = s'.disk) (hpending : s''.pendingBlocks = s'.pendingBlocks)
    (haccepting : s''.accepting = s'.accepting) : Reflags F k s s'' := by
  obtain ⟨disk, pendingBlocks, mainDag, requestCache, mapUnknownBlocks, mapBlocksToExec, arrived,
    waiting, accepting⟩ := s''
  subst hmainDag hdisk hpending haccepting
  exact ⟨h.mem, h.edge, h.accepting, h.others, h.keyed, h.stored, h.inUse, h.clean, h.pending, h.final⟩

/-- What follows on a change to one block. -/
theorem Reflags.trans {s'' : BlockNode} (h : Reflags F k s s') (h' : Spares F s' s'') :
    Spares F s s'' where
  unblamed := h'.unblamed
  spares hash hinUse := h'.spares hash ((h.inUse_iff hash).mpr hinUse)

/-- Nothing that matters was changed. -/
theorem Unblamed.spares (h : s.Unblamed F) (hmainDag : s'.mainDag = s.mainDag)
    (hinfos : s'.disk.infos = s.disk.infos) (hblocks : s'.disk.blocks = s.disk.blocks)
    (hpending : s'.pendingBlocks = s.pendingBlocks) (haccepting : s'.accepting = s.accepting) :
    Spares F s s' := by
  obtain ⟨⟨storage, blocks, infos, arrLastApplied, arrPending, setBlocksBad⟩, pendingBlocks, mainDag,
    requestCache, mapUnknownBlocks, mapBlocksToExec, arrived, waiting, accepting⟩ := s'
  subst hmainDag hinfos hblocks hpending haccepting
  exact ⟨⟨h.acyclic, h.keyed, h.stored, h.clean, h.pending, h.final, h.undone, h.checks⟩,
    fun hash hinUse => (h.clean hash hinUse).1⟩

theorem Unblamed.queueChildren (h : s.Unblamed F) (hash : Hash) :
    Spares F s (s.queueChildren hash) := by
  obtain ⟨queue, hqueue⟩ := queueChildren_eq s hash
  rw [hqueue]
  exact h.spares rfl rfl rfl rfl rfl

/-! ### Putting blocks into the main graph -/

/-- Nothing can go wrong with a block that is not in use, as long as it gets not final. -/
theorem reflags_of_not_inUse (hnot : ¬ s.InUse k)
    (hmem : ∀ hash, hash ∈ s'.pendingBlocks.dag ↔ hash ∈ s.pendingBlocks.dag)
    (hedge : ∀ v w, s'.pendingBlocks.dag.Edge v w → s.pendingBlocks.dag.Edge v w)
    (haccepting : s'.accepting = s.accepting)
    (hothers : ∀ hash, hash ≠ k → s'.mainDag.getBlockInfo hash = s.mainDag.getBlockInfo hash ∧
      s'.disk.infos.lookup hash = s.disk.infos.lookup hash ∧
        s'.disk.blocks.lookup hash = s.disk.blocks.lookup hash)
    (hinfos : ∀ info, s'.mainDag.getBlockInfo k = some info ∨ s'.disk.infos.lookup k = some info →
      info.getHash F = k ∧ info.isFinal = false)
    (hstored : ∀ block, s'.disk.blocks.lookup k = some block → block.hash F = k) :
    Reflags F k s s' := by
  have hfinal : ¬ s'.FlaggedFinal k := by
    rintro (h | h)
    · obtain ⟨info, hinfo, hflag⟩ := (Option.any_eq_true _ _).mp h
      exact Bool.false_ne_true ((hinfos info (.inl hinfo)).2.symm.trans hflag)
    · obtain ⟨info, hinfo, hflag⟩ := (Option.any_eq_true _ _).mp h
      exact Bool.false_ne_true ((hinfos info (.inr hinfo)).2.symm.trans hflag)
  refine ⟨hmem, hedge, haccepting, hothers, fun info hinfo => (hinfos info hinfo).1, hstored,
    ⟨fun hinUse => ?_, fun hinUse => absurd hinUse hnot⟩, fun hinUse => absurd hinUse hnot,
    fun _ => hfinal, fun h => absurd (.inr h) hfinal⟩
  rcases hinUse with hpending | hflagged | hmarked
  · exact .inl ((hmem k).mp hpending)
  · exact absurd hflagged hfinal
  · unfold effectsLeft at hmarked
    rw [haccepting] at hmarked
    exact .inr (.inr hmarked)

theorem isFinal_of_not_inUse (hnot : ¬ s.InUse k) {info : BlockInfo}
    (hinfo : s.mainDag.getBlockInfo k = some info ∨ s.disk.infos.lookup k = some info) :
    info.isFinal = false := by
  refine Bool.eq_false_iff.mpr fun hfinal => hnot (.inr (.inl ?_))
  refine hinfo.imp (fun hread => ?_) fun hread => ?_
  · rw [hread]
    exact hfinal
  · rw [hread]
    exact hfinal

/-- A block that is not in use is flagged as bad. -/
theorem reflags_blockBad (hs : s.Unblamed F) {blockInfo : BlockInfo}
    (hnot : ¬ s.InUse (blockInfo.getHash F)) :
    Reflags F (blockInfo.getHash F) s (s.blockBad F blockInfo) := by
  obtain ⟨disk, heq, hinfos, hblocks, -⟩ := blockBad_eq F s blockInfo
  rw [heq]
  have hmain (hash : Hash) := MainDag.getBlockInfo_addBlock F blockInfo.markAsBad s.mainDag hash
  refine reflags_of_not_inUse hnot (fun _ => Iff.rfl) (fun _ _ => id) rfl
    (fun hash hne => ⟨?_, ?_, ?_⟩) (fun info hinfo => ?_) fun block hblock => ?_
  · exact (hmain hash).trans (if_neg hne)
  · exact (hinfos hash).trans (if_neg hne)
  · exact (hblocks hash).trans (if_neg fun h => hne h.1)
  · rcases hinfo with hinfo | hinfo
    · cases ((hmain _).trans (if_pos rfl)).symm.trans hinfo
      exact ⟨rfl, rfl⟩
    · cases ((hinfos _).trans (if_pos rfl)).symm.trans hinfo
      exact ⟨rfl, rfl⟩
  · have hblock : disk.blocks.lookup (blockInfo.getHash F) = some block := hblock
    rw [hblocks] at hblock
    split at hblock
    next => cases hblock
    next => exact hs.stored _ block hblock

/-- A block that is not final is put in flight. -/
theorem reflags_blockInFlight (hs : s.Unblamed F) {bOnlyDag : Bool}
    (hnot : ¬ s.FlaggedFinal (block.hash F)) :
    Reflags F (block.hash F) s (s.blockInFlight F block bOnlyDag) := by
  -- on disk the block is as it was, or new
  obtain ⟨disk, heq, hinfos, hblocks, hmine⟩ : ∃ disk, s.blockInFlight F block bOnlyDag =
      { s with mainDag := s.mainDag.addBlock F (block.info F).markAsInFlight, disk } ∧
      (∀ hash, hash ≠ block.hash F → disk.infos.lookup hash = s.disk.infos.lookup hash) ∧
      (∀ hash, hash ≠ block.hash F → disk.blocks.lookup hash = s.disk.blocks.lookup hash) ∧
      (disk = s.disk ∨ disk.infos.lookup (block.hash F) = some (block.info F).markAsInFlight ∧
        disk.blocks.lookup (block.hash F) = some block) := by
    cases bOnlyDag with
    | true => exact ⟨s.disk, rfl, fun _ _ => rfl, fun _ _ => rfl, .inl rfl⟩
    | false =>
        obtain ⟨disk, heq, ⟨rfl, -⟩ | ⟨rfl, -⟩⟩ := blockInFlight_eq F s block
        · exact ⟨s.disk, heq, fun _ _ => rfl, fun _ _ => rfl, .inl rfl⟩
        · refine ⟨_, heq, fun hash hne => ?_, fun hash hne => ?_, .inr ⟨?_, ?_⟩⟩
          · exact (FinMap.lookup_insert_ite _ _ _ _).trans (if_neg hne)
          · exact (FinMap.lookup_insert_ite _ _ _ _).trans (if_neg hne)
          · exact (FinMap.lookup_insert_ite _ _ _ _).trans (if_pos rfl)
          · exact (FinMap.lookup_insert_ite _ _ _ _).trans (if_pos rfl)
  rw [heq]
  have hmain (hash : Hash) :=
    MainDag.getBlockInfo_addBlock F (block.info F).markAsInFlight s.mainDag hash
  have hentered : (s.mainDag.addBlock F (block.info F).markAsInFlight).getBlockInfo
      (block.hash F) = some (block.info F).markAsInFlight := (hmain _).trans (if_pos rfl)
  have hfinal : ¬ FlaggedFinal
      { s with mainDag := s.mainDag.addBlock F (block.info F).markAsInFlight, disk }
      (block.hash F) := by
    unfold FlaggedFinal
    dsimp only
    rw [hentered]
    rintro (h | h)
    · cases h
    · rcases hmine with rfl | ⟨hsaved, -⟩
      · exact hnot (.inr h)
      · rw [hsaved] at h
        cases h
  refine ⟨fun _ => Iff.rfl, fun _ _ => id, rfl, fun hash hne => ⟨?_, hinfos hash hne, hblocks hash hne⟩,
    fun info hinfo => ?_, fun stored hstored => ?_, ⟨fun hinUse => ?_, fun hinUse => ?_⟩,
    fun hinUse => ?_, fun _ => hfinal, fun h => absurd (.inr h) hfinal⟩
  · exact (hmain hash).trans (if_neg hne)
  · rcases hinfo with hinfo | hinfo
    · cases hentered.symm.trans hinfo
      rfl
    · rcases hmine with rfl | ⟨hsaved, -⟩
      · exact hs.keyed _ info (.inr hinfo)
      · cases hsaved.symm.trans hinfo
        rfl
  · rcases hmine with rfl | ⟨-, hsaved⟩
    · exact hs.stored _ stored hstored
    · cases hsaved.symm.trans hstored
      rfl
  · rcases hinUse with hpending | hflagged | hmarked
    · exact .inl hpending
    · exact absurd hflagged hfinal
    · exact .inr (.inr hmarked)
  · rcases hinUse with hpending | hflagged | hmarked
    · exact .inl hpending
    · exact absurd hflagged hnot
    · exact .inr (.inr hmarked)
  · obtain ⟨hgood, hbody⟩ := hs.clean _ hinUse
    unfold Clean FlaggedBad
    dsimp only
    rw [hentered]
    rcases hmine with rfl | ⟨hinfo, hsaved⟩
    · refine ⟨?_, hbody⟩
      rintro (h | h)
      · cases h
      · exact hgood (.inr h)
    · rw [hinfo, hsaved]
      refine ⟨?_, rfl⟩
      rintro (h | h)
      · cases h
      · cases h

/-! ### Handlers -/

/-- `_canExecuteBlock` throws on behalf of a bad parent only. -/
theorem exists_bad_of_canExecuteBlock {parentHashes : List Hash} {error : String}
    (h : s.canExecuteBlock F hash parentHashes = .error error) : ¬ s.NoneBad parentHashes := by
  unfold canExecuteBlock at h
  split at h
  next => cases h
  next =>
    induction parentHashes with
    | nil => cases h
    | cons p rest ih =>
        intro hgood
        obtain ⟨hp, hrest⟩ := List.forall_mem_cons.mp hgood
        unfold canExecuteFrom at h
        split at h
        next hbad => exact absurd (hp.symm.trans hbad) Bool.false_ne_true
        next =>
          split at h
          next => exact ih h hrest
          next => cases h

/-- A block in use is processed without a throw if its parents are good and its body is there. -/
theorem spares_tryProcessBlock (hs : s.Unblamed F) {blockInfo : BlockInfo}
    {read : Except String Block}
    (hgood : s.InUse (blockInfo.getHash F) →
      s.NoneBad blockInfo.header.parentHashes ∧ read.isOk = true) :
    Spares F s (s.tryProcessBlock F blockInfo read) := by
  unfold tryProcessBlock
  split
  next herror =>
    refine (reflags_blockBad hs fun hinUse => ?_).spares hs
    obtain ⟨hparents, hread⟩ := hgood hinUse
    rcases processBlock_error herror with hcan | ⟨-, -, hthrown⟩
    · exact exists_bad_of_canExecuteBlock hcan hparents
    · rw [hthrown] at hread
      cases hread
  next hprocess =>
    rcases processBlock_ok hprocess with ⟨queue, unknown, rfl⟩ | ⟨found, -, -, -, rfl⟩
    · exact hs.spares rfl rfl rfl rfl rfl
    · exact hs.spares rfl rfl rfl rfl rfl

theorem NoneBad.blockInFlight {hashes : List Hash} (h : s.NoneBad hashes) (bOnlyDag : Bool) :
    (s.blockInFlight F block bOnlyDag).NoneBad hashes := by
  intro p hp
  have henters : Enters F (block.info F).markAsInFlight s (s.blockInFlight F block bOnlyDag) :=
    enters_storeBlockAndInfo s (some block) (block.info F).markAsInFlight bOnlyDag
  rw [henters.getBlockInfo]
  split
  next => rfl
  next => exact h p hp

theorem spares_handle (hs : s.Unblamed F)
    (hspares : s.InUse (block.hash F) → ¬ s.FlaggedFinal (block.hash F) ∧
      (s.verifyBlock F block false).isOk = true ∧ s.NoneBad block.parentHashes) :
    Spares F s (s.handle F block) := by
  have hnot : ¬ s.FlaggedFinal (block.hash F) :=
    fun hfinal => (hspares (.inr (.inl hfinal))).1 hfinal
  unfold handle
  split
  next hverify =>
    refine (reflags_blockBad hs fun hinUse => ?_).spares hs
    have hok := (hspares hinUse).2.1
    rw [hverify] at hok
    cases hok
  next =>
    have hflight : Reflags F (block.hash F) s { s.blockInFlight F block false with
        requestCache := s.requestCache.filter (· ≠ block.hash F)
        mapUnknownBlocks := s.mapUnknownBlocks.filter (· ≠ block.hash F) } :=
      (reflags_blockInFlight hs hnot).congr rfl rfl rfl rfl
    refine hflight.trans (spares_tryProcessBlock (hflight.unblamed hs) fun hinUse => ⟨?_, rfl⟩)
    exact (hspares ((hflight.inUse_iff _).mp hinUse)).2.2.blockInFlight false

theorem spares_take (hs : s.Unblamed F)
    (hspares : s.InUse hash → s.NoneBad (s.parentsToCheck hash)) : Spares F s (s.take F hash) := by
  have hstored {k : Hash} (hinUse : s.InUse k) : (s.disk.getBlock k).isOk = true := by
    obtain ⟨found, hfound⟩ := Option.isSome_iff_exists.mp (hs.clean k hinUse).2
    unfold BlockStore.getBlock
    rw [hfound]
    rfl
  unfold take
  split
  next blockInfo hinfo =>
    obtain rfl := hs.keyed hash blockInfo (.inl hinfo)
    have hparents : s.parentsToCheck (blockInfo.getHash F) = blockInfo.header.parentHashes := by
      unfold parentsToCheck
      rw [hinfo]
    rw [hparents] at hspares
    split
    next hbad =>
      refine (reflags_blockBad hs fun hinUse => (hs.clean _ hinUse).1 (.inl ?_)).spares hs
      rw [hinfo]
      exact hbad
    next => exact spares_tryProcessBlock hs fun hinUse => ⟨hspares hinUse, hstored hinUse⟩
  next hnone =>
    split
    next => exact hs.spares rfl rfl rfl rfl rfl
    next found hget =>
      have hfound := BlockStore.lookup_of_getBlock hget
      obtain rfl := hs.stored hash found hfound
      have hparents : s.parentsToCheck (found.hash F) = found.parentHashes := by
        unfold parentsToCheck
        rw [hnone, hfound]
      rw [hparents] at hspares
      have hnot : ¬ s.FlaggedFinal (found.hash F) := by
        intro hfinal
        have hmain := hfinal.elim id (hs.final _)
        rw [hnone] at hmain
        cases hmain
      have hflight : Reflags F (found.hash F) s (s.blockInFlight F found true) :=
        reflags_blockInFlight hs hnot
      refine hflight.trans (spares_tryProcessBlock (hflight.unblamed hs) fun hinUse => ⟨?_, rfl⟩)
      exact (hspares ((hflight.inUse_iff _).mp hinUse)).blockInFlight true

/-! ### Throwing -/

/-- Fewer effects are left, and finality is not checked any more. -/
theorem Unblamed.dropEffects (hs : s.Unblamed F) {accepting : Option Acceptance}
    (hsub : ∀ acceptance ∈ accepting, acceptance.effects ⊆ s.effectsLeft ∧
      .checkFinality ∉ acceptance.effects) : ({ s with accepting } : BlockNode).Unblamed F := by
  have hleft : effectsLeft { s with accepting } ⊆ s.effectsLeft := by
    cases accepting with
    | none => exact List.nil_subset _
    | some acceptance => exact (hsub acceptance rfl).1
  have hinUse (hash : Hash) (h : InUse { s with accepting } hash) : s.InUse hash :=
    h.imp_right (Or.imp_right fun hmarked => hleft hmarked)
  exact
    { acyclic := hs.acyclic
      keyed := hs.keyed
      stored := hs.stored
      clean := fun hash h => hs.clean hash (hinUse hash h)
      pending := fun hash h => ⟨(hs.pending hash h).1, fun hmarked => (hs.pending hash h).2 (hleft hmarked)⟩
      final := hs.final
      undone := fun effect heffect hash hundoes h => hs.undone effect (hleft heffect) hash hundoes (hinUse hash h)
      checks := fun acceptance haccepting hcheck => absurd hcheck (hsub acceptance haccepting).2 }

/-- The effects that were left for the executed block are dropped. -/
theorem spares_catchError (hs : s.Unblamed F) (hnot : ¬ s.InUse (block.hash F)) :
    Spares F s (s.catchError F block) := by
  have hdropped : ({ s with accepting := none } : BlockNode).Unblamed F :=
    hs.dropEffects fun acceptance hacceptance => by cases hacceptance
  have hnot' : ¬ InUse { s with accepting := none } ((block.info F).getHash F) := by
    rintro (hpending | hfinal | hmarked)
    · exact hnot (.inl hpending)
    · exact hnot (.inr (.inl hfinal))
    · exact absurd hmarked List.not_mem_nil
  have hbad := reflags_blockBad hdropped hnot'
  have hqueued := (hbad.unblamed hdropped).queueChildren (block.hash F)
  refine ⟨hqueued.unblamed, fun hash hinUse hflagged => ?_⟩
  have hne : hash ≠ block.hash F := fun heq => hnot (heq ▸ hinUse)
  obtain ⟨queue, hqueue⟩ := queueChildren_eq
    (({ s with accepting := none } : BlockNode).blockBad F (block.info F)) (block.hash F)
  rw [catchError, hqueue] at hflagged
  obtain ⟨hmain, hdisk, -⟩ := hbad.others hash hne
  unfold FlaggedBad at hflagged
  dsimp only at hflagged
  rw [hmain, hdisk] at hflagged
  exact (hs.clean hash hinUse).1 hflagged

/-! ### Accepting a block -/

/-- A block that was not executed is added, and is accepted from now on. -/
theorem spares_addBlock (hF : F.HashesHeaders) (hs : s.Unblamed F) (hidle : s.accepting = none)
    {vm : Transaction → Behaviour} {patchState : PatchDB}
    (hexec : s.chain.execBlock F (some block.getHeight) vm block = .ok (some patchState))
    (hclean : s.Clean (block.hash F)) :
    Spares F s { s with
      pendingBlocks := s.pendingBlocks.addBlock F block patchState
      accepting := some { block, effects := [.checkFinality, .updatePendingBlocks] } } := by
  have hnone : s.effectsLeft = [] := by rw [effectsLeft, hidle]; rfl
  have hexecuted : s.isBlockExecuted (block.hash F) = false := (ChainState.execBlock_ok hexec).1
  have hnot : ¬ s.FlaggedFinal (block.hash F) := by
    intro hfinal
    have hyes := (isBlockExecuted_iff s _).mpr (.inl (hfinal.elim id (hs.final _)))
    exact Bool.false_ne_true (hexecuted.symm.trans hyes)
  have hmem (hash : Hash) : hash ∈ (s.pendingBlocks.addBlock F block patchState).dag ↔
      hash = block.hash F ∨ hash ∈ s.pendingBlocks.dag := Dag.mem_addVertex
  have hmarks (hash : Hash) : .markAsFinal hash ∉ [AcceptEffect.checkFinality, .updatePendingBlocks] := by
    simp
  have hclean' : ∀ hash, InUse { s with
      pendingBlocks := s.pendingBlocks.addBlock F block patchState
      accepting := some { block, effects := [.checkFinality, .updatePendingBlocks] } } hash →
        s.Clean hash := by
    rintro hash (hpending | hfinal | hmarked)
    · rcases (hmem hash).mp hpending with rfl | hold
      · exact hclean
      · exact hs.clean hash (.inl hold)
    · exact hs.clean hash (.inr (.inl hfinal))
    · exact absurd hmarked (hmarks hash)
  refine ⟨⟨ChainState.acyclic_addBlock hF hs.acyclic hexec, hs.keyed, hs.stored, hclean',
    fun hash hpending => ⟨?_, hmarks hash⟩, hs.final, fun effect heffect hash hundoes => ?_,
    fun acceptance hacceptance _ => ?_⟩, fun hash hinUse => (hs.clean hash hinUse).1⟩
  · rcases (hmem hash).mp hpending with rfl | hold
    · exact hnot
    · exact (hs.pending hash hold).1
  · rcases List.mem_pair.mp heffect with rfl | rfl
    · cases hundoes
    · cases hundoes
  · cases hacceptance
    exact ⟨rfl, (hmem _).mpr (.inl rfl)⟩

/-- Stable blocks are marked as final, and those that are rolled back are undone. -/
theorem mem_effects_append {r : FinalityResult} {effect : AcceptEffect}
    (h : effect ∈ r.effects ++ [.updatePendingBlocks]) :
    effect ≠ .checkFinality ∧ (∀ hash, effect = .markAsFinal hash → hash ∈ r.setStableBlocks) ∧
      ∀ hash ∈ effect.undoes, hash ∈ r.setBlocksToRollback := by
  simp only [FinalityResult.effects, List.mem_append, List.mem_cons, List.mem_map,
    List.mem_flatMap, List.not_mem_nil, or_false] at h
  rcases h with (rfl | ⟨v, hv, rfl⟩ | rfl | ⟨v, hv, rfl⟩ | ⟨v, hv, rfl | rfl⟩) | rfl
  all_goals
    refine ⟨by simp, fun hash heq => ?_, fun hash hundoes => ?_⟩
    · cases heq <;> exact hv
    · cases hundoes <;> exact hv

/-- Stable blocks are not pending any more, and neither are those that are rolled back. -/
theorem spares_checkFinality (hs : s.Unblamed F) {accepting : Acceptance}
    (haccepting : s.accepting = some accepting) {rest : List AcceptEffect}
    (heffects : accepting.effects = .checkFinality :: rest) {nConciliumCount : Nat}
    {result : Option FinalityResult} {after : PendingBlocksManager}
    (hcheck : s.pendingBlocks.checkFinality F J (accepting.block.hash F) nConciliumCount =
      .ok (result, after)) :
    Spares F s { s with
      pendingBlocks := after
      accepting := some { accepting with
        effects := (result.elim [] FinalityResult.effects) ++ rest } } := by
  obtain ⟨hall, hnew⟩ := hs.checks accepting haccepting (heffects ▸ List.mem_cons_self)
  obtain rfl : rest = [.updatePendingBlocks] := (List.cons.inj (heffects.symm.trans hall)).2
  have hspares (hash : Hash) (hinUse : s.InUse hash) : ¬ s.FlaggedBad hash := (hs.clean hash hinUse).1
  cases result with
  | none =>
      obtain rfl := PendingBlocksManager.checkFinality_none hcheck
      refine ⟨hs.dropEffects fun acceptance hacceptance => ?_, hspares⟩
      cases hacceptance
      rw [effectsLeft, haccepting, Option.map_some, Option.getD_some, hall]
      exact ⟨List.subset_cons_self _ _, by simp⟩
  | some r =>
      have hstable := (PendingBlocksManager.mem_of_checkFinality hs.acyclic hnew hcheck).2
      have hrollback {v : Hash} (hv : v ∈ r.setBlocksToRollback) :=
        PendingBlocksManager.mem_of_rollback hs.acyclic hcheck hv
      have hpart := PendingBlocksManager.partOf_checkFinality hcheck
      obtain ⟨-, -, -, rfl⟩ := PendingBlocksManager.checkFinality_ok hcheck
      have hinUse : ∀ hash, InUse { s with
          pendingBlocks := s.pendingBlocks.settle F r
          accepting := some { accepting with effects := r.effects ++ [.updatePendingBlocks] } } hash →
            s.InUse hash := by
        rintro hash (hpending | hfinal | hmarked)
        · exact .inl (PendingBlocksManager.mem_settle.mp hpending).1
        · exact .inr (.inl hfinal)
        · exact .inl (hstable hash ((mem_effects_append hmarked).2.1 hash rfl))
      refine ⟨⟨hs.acyclic.of_edge hpart.edge, hs.keyed, hs.stored,
        fun hash h => hs.clean hash (hinUse hash h), fun hash hpending => ?_, hs.final,
        fun effect heffect hash hundoes => ?_, fun acceptance hacceptance hmem => ?_⟩, hspares⟩
      · obtain ⟨hold, hnot, -⟩ := PendingBlocksManager.mem_settle.mp hpending
        exact ⟨(hs.pending hash hold).1, fun hmarked => hnot ((mem_effects_append hmarked).2.1 hash rfl)⟩
      · have hgone := (mem_effects_append heffect).2.2 hash hundoes
        obtain ⟨hold, hnot⟩ := hrollback hgone
        rintro (hpending | hfinal | hmarked)
        · exact (PendingBlocksManager.mem_settle.mp hpending).2.2 hgone
        · exact (hs.pending hash hold).1 hfinal
        · exact hnot ((mem_effects_append hmarked).2.1 hash rfl)
      · cases hacceptance
        exact absurd rfl (mem_effects_append hmem).1

/-- The flag of a final block is written to the main graph and to disk. -/
theorem reflags_markAsFinal (hs : s.Unblamed F) {bi : BlockInfo}
    (hinfo : s.mainDag.getBlockInfo hash = some bi) (hmarked : .markAsFinal hash ∈ s.effectsLeft) :
    Reflags F hash s { s with
      mainDag := s.mainDag.setBlockInfo F bi.markAsFinal
      disk := s.disk.saveBlockInfo F bi.markAsFinal } := by
  have hhash : bi.markAsFinal.getHash F = hash := hs.keyed hash bi (.inl hinfo)
  have hmain (other : Hash) := MainDag.getBlockInfo_setBlockInfo F bi.markAsFinal s.mainDag other
  have hdisk (other : Hash) : (s.disk.saveBlockInfo F bi.markAsFinal).infos.lookup other =
      if other = bi.markAsFinal.getHash F then some bi.markAsFinal
      else s.disk.infos.lookup other := FinMap.lookup_insert_ite _ _ _ _
  rw [hhash] at hmain hdisk
  have hmine := (hmain hash).trans (if_pos rfl)
  have hsaved := (hdisk hash).trans (if_pos rfl)
  have hinUse : s.InUse hash := .inr (.inr hmarked)
  refine ⟨fun _ => Iff.rfl, fun _ _ => id, rfl, fun other hne => ⟨?_, ?_, rfl⟩, fun info hread => ?_,
    hs.stored hash, ⟨fun _ => hinUse, fun _ => .inr (.inr hmarked)⟩, fun _ => ⟨?_, ?_⟩,
    fun hpending => absurd hmarked (hs.pending hash hpending).2, fun _ => ?_⟩
  · exact (hmain other).trans (if_neg hne)
  · exact (hdisk other).trans (if_neg hne)
  · rcases hread with hread | hread
    · cases hmine.symm.trans hread
      exact hhash
    · cases hsaved.symm.trans hread
      exact hhash
  · unfold FlaggedBad
    dsimp only
    rw [hmine, hsaved]
    rintro (h | h)
    · cases h
    · cases h
  · exact (hs.clean hash hinUse).2
  · dsimp only
    rw [hmine]
    rfl

/-- A block that is rolled back is forgotten. -/
theorem reflags_unwindBlock (hs : s.Unblamed F) (hnot : ¬ s.InUse hash) :
    Reflags F hash s { s with
      pendingBlocks := s.pendingBlocks.removeBlock hash
      mainDag := s.mainDag.removeBlock hash } := by
  have hmem (v : Hash) : v ∈ (s.pendingBlocks.removeBlock hash).dag ↔
      v ≠ hash ∧ v ∈ s.pendingBlocks.dag := AList.mem_erase
  have hmain (v : Hash) := MainDag.getBlockInfo_removeBlock s.mainDag hash v
  refine reflags_of_not_inUse hnot (fun v => (hmem v).trans ⟨And.right, fun hv => ⟨?_, hv⟩⟩)
    (fun v w hedge => ?_) rfl (fun v hne => ⟨(hmain v).trans (if_neg hne), rfl, rfl⟩)
    (fun info hinfo => ?_) (hs.stored hash)
  · rintro rfl
    exact hnot (.inl hv)
  · have hedge : (s.pendingBlocks.dag.removeVertices [hash]).Edge v w := hedge
    exact (Dag.edge_removeVertices.mp hedge).1
  · rcases hinfo with hinfo | hinfo
    · cases ((hmain hash).trans (if_pos rfl)).symm.trans hinfo
    · exact ⟨hs.keyed hash info (.inr hinfo), isFinal_of_not_inUse hnot (.inr hinfo)⟩

/-- Its info on disk is flagged as bad. -/
theorem reflags_saveBadInfo (hs : s.Unblamed F) {bi : BlockInfo}
    (hinfo : s.disk.infos.lookup hash = some bi) (hnot : ¬ s.InUse hash) :
    Reflags F hash s { s with disk := s.disk.saveBlockInfo F bi.markAsBad } := by
  have hhash : bi.markAsBad.getHash F = hash := hs.keyed hash bi (.inr hinfo)
  have hdisk (v : Hash) : (s.disk.saveBlockInfo F bi.markAsBad).infos.lookup v =
      if v = bi.markAsBad.getHash F then some bi.markAsBad else s.disk.infos.lookup v :=
    FinMap.lookup_insert_ite _ _ _ _
  rw [hhash] at hdisk
  refine reflags_of_not_inUse hnot (fun _ => Iff.rfl) (fun _ _ => id) rfl
    (fun v hne => ⟨rfl, (hdisk v).trans (if_neg hne), rfl⟩) (fun info hread => ?_) (hs.stored hash)
  rcases hread with hread | hread
  · exact ⟨hs.keyed hash info (.inl hread), isFinal_of_not_inUse hnot (.inl hread)⟩
  · cases ((hdisk hash).trans (if_pos rfl)).symm.trans hread
    exact ⟨hhash, rfl⟩

/-- Its body is removed. -/
theorem reflags_removeBlock (hs : s.Unblamed F) (hnot : ¬ s.InUse hash) :
    Reflags F hash s { s with disk := s.disk.removeBlock hash } := by
  have hblocks (v : Hash) : (s.disk.removeBlock hash).blocks.lookup v =
      if v = hash then none else s.disk.blocks.lookup v := FinMap.lookup_erase_ite _ _ _
  refine reflags_of_not_inUse hnot (fun _ => Iff.rfl) (fun _ _ => id) rfl
    (fun v hne => ⟨rfl, rfl, (hblocks v).trans (if_neg hne)⟩) (fun info hread => ?_) fun block hblock => ?_
  · exact ⟨hs.keyed hash info hread, isFinal_of_not_inUse hnot hread⟩
  · cases ((hblocks hash).trans (if_pos rfl)).symm.trans hblock

/-- One effect of accepting a block. -/
theorem spares_runEffect (hs : s.Unblamed F) {accepting : Acceptance}
    (haccepting : s.accepting = some accepting) {effect : AcceptEffect} {rest : List AcceptEffect}
    (heffects : accepting.effects = effect :: rest)
    (hrun : s.runEffect F J accepting rest effect = .ok s') : Spares F s s' := by
  have hleft : s.effectsLeft = effect :: rest := by
    rw [effectsLeft, haccepting]
    exact heffects
  have hhead : effect ∈ s.effectsLeft := hleft ▸ List.mem_cons_self
  -- what remains to be done does not check finality
  have hrest : .checkFinality ∉ rest := by
    intro hcheck
    obtain ⟨hall, -⟩ := hs.checks accepting haccepting (heffects ▸ List.mem_cons_of_mem _ hcheck)
    obtain rfl : rest = [.updatePendingBlocks] := (List.cons.inj (heffects.symm.trans hall)).2
    simp at hcheck
  have hdone {s₁ : BlockNode} (hfirst : Spares F s s₁) (hsame : s₁.accepting = s.accepting)
      {acceptance : Acceptance} (hleft₁ : acceptance.effects = rest) :
      Spares F s { s₁ with accepting := some acceptance } := by
    refine ⟨hfirst.unblamed.dropEffects fun other hother => ?_, hfirst.spares⟩
    cases hother
    rw [hleft₁, effectsLeft, hsame, ← effectsLeft, hleft]
    exact ⟨List.subset_cons_self _ _, hrest⟩
  cases effect with
  | checkFinality =>
      unfold runEffect at hrun
      dsimp only at hrun
      split at hrun
      next => cases hrun
      next result after hcheck =>
        cases hrun
        exact spares_checkFinality hs haccepting heffects hcheck
  | updateLastAppliedBlocks arrTopStable =>
      unfold runEffect at hrun
      dsimp only at hrun
      split at hrun
      next => cases hrun
      next arrLastApplied _ =>
        cases hrun
        have hstored : Spares F s { s with disk := { s.disk with arrLastApplied } } :=
          hs.spares rfl rfl rfl rfl rfl
        exact hdone hstored rfl rfl
  | markAsFinal hash =>
      unfold runEffect at hrun
      dsimp only at hrun
      split at hrun
      next => cases hrun
      next bi hinfo =>
        cases hrun
        exact hdone ((reflags_markAsFinal hs hinfo hhead).spares hs) rfl rfl
  | applyPatch patchToApply =>
      cases hrun
      have happlied : Spares F s { s with disk := { s.disk with
          storage := s.disk.storage.applyPatch F patchToApply accepting.nHeightMax } } :=
        hs.spares rfl rfl rfl rfl rfl
      exact hdone happlied rfl rfl
  | unwindBlock hash =>
      unfold runEffect at hrun
      dsimp only at hrun
      split at hrun
      next => cases hrun
      next =>
        cases hrun
        exact hdone ((reflags_unwindBlock hs (hs.undone _ hhead hash rfl)).spares hs) rfl rfl
  | saveBadInfo hash =>
      unfold runEffect at hrun
      dsimp only at hrun
      split at hrun
      next => cases hrun
      next bi hinfo =>
        cases hrun
        exact hdone ((reflags_saveBadInfo hs hinfo (hs.undone _ hhead hash rfl)).spares hs) rfl rfl
  | removeBlock hash =>
      cases hrun
      exact hdone ((reflags_removeBlock hs (hs.undone _ hhead hash rfl)).spares hs) rfl rfl
  | updatePendingBlocks =>
      cases hrun
      have hupdated : Spares F s { s with
          disk := { s.disk with arrPending := s.pendingBlocks.getAllHashes } } :=
        hs.spares rfl rfl rfl rfl rfl
      exact hdone hupdated rfl rfl

/-! ### Runs -/

theorem execBlock_of_executed (hexecuted : s.isBlockExecuted (block.hash F) = true)
    {vm : Transaction → Behaviour} :
    s.chain.execBlock F (some block.getHeight) vm block = .ok none := by
  unfold ChainState.execBlock
  exact if_pos hexecuted

/-- A block that was not executed is not in use when no block is being accepted. -/
theorem Unblamed.not_inUse (hs : s.Unblamed F) (hidle : s.accepting = none)
    (hexecuted : s.isBlockExecuted hash = false) : ¬ s.InUse hash := by
  have hnot : ¬ s.isBlockExecuted hash = true := fun h => Bool.false_ne_true (hexecuted.symm.trans h)
  rw [isBlockExecuted_iff] at hnot
  rintro (hpending | hfinal | hmarked)
  · exact hnot (.inr hpending)
  · exact hnot (.inl (hfinal.elim id (hs.final hash)))
  · rw [effectsLeft, hidle] at hmarked
    exact absurd hmarked List.not_mem_nil

/-- One step that spares executed blocks. -/
theorem spares_step (hF : F.HashesHeaders) (hs : s.Unblamed F) {action : Action}
    (hspares : s.SparesExecuted F J action) : Spares F s (s.step F J action) := by
  have hsame : Spares F s s := hs.spares rfl rfl rfl rfl rfl
  unfold step
  cases action with
  | request hash => exact hs.spares rfl rfl rfl rfl rfl
  | receive received =>
      dsimp only [receive]
      split
      next => exact hs.spares rfl rfl rfl rfl rfl
      next => exact hsame
  | handle n =>
      dsimp only
      split
      next => exact hsame
      next block hblock =>
        have harrived : Spares F s { s with arrived := s.arrived.eraseIdx n } :=
          hs.spares rfl rfl rfl rfl rfl
        have hhandled := spares_handle harrived.unblamed (hspares block hblock)
        exact ⟨hhandled.unblamed, hhandled.spares⟩
  | take hash =>
      dsimp only
      split
      next =>
        have htaken : Spares F s { s with
            mapBlocksToExec := s.mapBlocksToExec.filter (· ≠ hash) } := hs.spares rfl rfl rfl rfl rfl
        have hdone := spares_take htaken.unblamed hspares
        exact ⟨hdone.unblamed, hdone.spares⟩
      next => exact hsame
  | exec n vm =>
      dsimp only
      split
      next block hidle hblock =>
        have hwaited : Spares F s { s with waiting := s.waiting.eraseIdx n } :=
          hs.spares rfl rfl rfl rfl rfl
        unfold exec
        split
        next herror =>
          have hnot : s.isBlockExecuted (block.hash F) = false := by
            rw [← Bool.not_eq_true]
            intro hexecuted
            cases (execBlock_of_executed hexecuted).symm.trans herror
          have hcaught := spares_catchError hwaited.unblamed
            (hwaited.unblamed.not_inUse hidle hnot)
          exact ⟨hcaught.unblamed, hcaught.spares⟩
        next =>
          have hqueued := hwaited.unblamed.queueChildren (block.hash F)
          exact ⟨hqueued.unblamed, hqueued.spares⟩
        next patchState hexec =>
          have hnot := (ChainState.execBlock_ok hexec).1
          have hadded := spares_addBlock hF hwaited.unblamed hidle hexec
            (hspares block hblock (by rw [hidle]; rfl) hnot)
          exact ⟨hadded.unblamed, hadded.spares⟩
      next => exact hsame
  | failExec n =>
      dsimp only
      split
      next block hidle hblock =>
        split
        next => exact hsame
        next hnot =>
          have hwaited : Spares F s { s with waiting := s.waiting.eraseIdx n } :=
            hs.spares rfl rfl rfl rfl rfl
          have hcaught := spares_catchError hwaited.unblamed
            (hwaited.unblamed.not_inUse hidle (Bool.eq_false_iff.mpr hnot))
          exact ⟨hcaught.unblamed, hcaught.spares⟩
      next => exact hsame
  | effect =>
      dsimp only
      split
      next => exact hsame
      next accepting haccepting =>
        split
        next hnil =>
          have hdropped : ({ s with accepting := none } : BlockNode).Unblamed F :=
            hs.dropEffects fun acceptance hacceptance => by cases hacceptance
          have hqueued := hdropped.queueChildren (accepting.block.hash F)
          refine ⟨hqueued.unblamed, fun hash hinUse => ?_⟩
          obtain ⟨queue, hqueue⟩ := queueChildren_eq { s with accepting := none }
            (accepting.block.hash F)
          rw [hqueue]
          exact (hs.clean hash hinUse).1
        next effect rest heffects =>
          split
          next herror =>
            refine spares_catchError hs (hspares accepting haccepting effect ?_ ?_)
            · rw [heffects]
              rfl
            · rw [heffects, List.tail_cons, herror]
              rfl
          next hrun => exact spares_runEffect hs haccepting heffects hrun
  | throw =>
      dsimp only
      split
      next => exact hsame
      next accepting haccepting => exact spares_catchError hs (hspares accepting haccepting)

theorem unblamed_empty (F : Factory) : empty.Unblamed F := by
  have hinfo (hash : Hash) : (∅ : FinMap Hash BlockInfo).lookup hash = none := Finmap.lookup_empty hash
  have hfinal (hash : Hash) : ¬ empty.FlaggedFinal hash := by
    unfold FlaggedFinal
    rw [show empty.mainDag.getBlockInfo hash = none from hinfo hash,
      show empty.disk.infos.lookup hash = none from hinfo hash]
    simp
  have hnone (hash : Hash) : ¬ empty.InUse hash := by
    rintro (hpending | hflagged | hmarked)
    · exact Dag.notMem_empty hash hpending
    · exact hfinal hash hflagged
    · exact List.not_mem_nil hmarked
  refine ⟨Dag.acyclic_empty, fun hash info h => ?_, fun hash block h => ?_,
    fun hash h => absurd h (hnone hash), fun hash h => absurd h (Dag.notMem_empty hash),
    fun hash h => absurd (.inr h) (hfinal hash), fun effect h => absurd h List.not_mem_nil,
    fun accepting h => ?_⟩
  · rcases h with h | h
    · cases (hinfo hash).symm.trans h
    · cases (hinfo hash).symm.trans h
  · cases (Finmap.lookup_empty hash).symm.trans h
  · cases h

theorem unblamed_of_run (hF : F.HashesHeaders)
    (hrun : RunWhile F J (SparesExecuted F J) .empty s) : s.Unblamed F := by
  induction hrun with
  | start => exact unblamed_empty F
  | step _ hspares ih => exact (spares_step hF ih hspares).unblamed

/-- **Executed blocks stay good while nothing is thrown on their behalf.** In every state of such
a run, blocks that are pending or final are not flagged as bad, and have their bodies; and no
further step flags one of them as bad. -/
theorem keepsExecuted_of_run (F : Factory) (J : Dagjs) (hF : F.HashesHeaders) (s : BlockNode)
    (hrun : RunWhile F J (SparesExecuted F J) .empty s) :
    s.KeepsExecuted ∧ ∀ action, s.SparesExecuted F J action →
      ∀ hash, s.InUse hash → ¬ (s.step F J action).FlaggedBad hash := by
  have hs := unblamed_of_run hF hrun
  refine ⟨fun hash hexecuted => hs.clean hash ?_, fun action hspares =>
    (spares_step hF hs hspares).spares⟩
  exact hexecuted.imp_right .inl

/-! ### Local transactions in conflict -/

theorem RunWhile.steps {condition : BlockNode → Action → Prop} {start : BlockNode}
    (hrun : RunWhile F J condition start s) {actions : List Action}
    (h : Runs.EveryStep (BlockNode.step F J) condition s actions) :
    RunWhile F J condition start (s.steps F J actions) := by
  induction actions generalizing s with
  | nil => exact hrun
  | cons action rest ih => exact ih (.step hrun h.1) h.2

/-- Creates the contract with the definitions of conciliums. -/
def foundsConciliums : Transaction where
  payload :=
    { conciliumId := 0
      ins := []
      outs := [{ amount := 0, receiverAddr := 0, contractCode := "class" }] }

/-- Genesis with that transaction. -/
def foundingGenesis : Block where
  header := { parentHashes := [], merkleRoot := 0, conciliumId := 0, timestamp := 0, height := 0 }
  txns := [{ payload := { conciliumId := 0, ins := [⟨zeroHash, 0⟩], outs := [] } }, foundsConciliums]

/-- Three conciliums, of which two make a block stable. -/
def threeConciliums : Factory :=
  { Factory.sample with
    constants :=
      { GENESIS_BLOCK := foundingGenesis.hash Factory.sample
        CONCILIUM_DEFINITION_CONTRACT_ADDRESS :=
          some (Factory.sample.contractAddress (foundsConciliums.hash Factory.sample)) }
    arrConciliums := fun _ =>
      (List.range 3).map fun conciliumId => .rr { conciliumId, addresses := [7] } }

theorem hashesHeaders_threeConciliums : threeConciliums.HashesHeaders where
  notMem_parents := Factory.hashesHeaders_sample.notMem_parents
  timestamp_injective := Factory.hashesHeaders_sample.timestamp_injective

/-- The first block upon genesis, and one upon it. -/
def firstBlock : Block := ChainState.emptyBlock [foundingGenesis.hash threeConciliums] 1 1 1
def secondBlock : Block := ChainState.emptyBlock [firstBlock.hash threeConciliums] 2 2 2

/-- Behaviours for the creation of a contract. -/
def founding : Transaction → Behaviour := fun _ => ⟨.ok ⟨[], "class"⟩, .throws ""⟩

/-- A block arrives and is executed, and n effects of accepting it follow. -/
def accepted (block : Block) (n : Nat) : List Action :=
  [.request (block.hash threeConciliums), .receive block, .handle 0, .exec 0 founding] ++
    List.replicate n .effect

/-- The second block makes the first one stable. -/
def madeStable (n : Nat) : List Action :=
  accepted foundingGenesis 6 ++ accepted firstBlock 3 ++ accepted secondBlock n

/-- **A block stays pending that is flagged as bad.** While the first block gets stable, merging
the patches of local transactions throws, and the second block is blamed for it. -/
theorem not_keepsExecuted_madeStable :
    ¬ ∀ (F : Factory) (J : Dagjs) (s : BlockNode), F.HashesHeaders →
      RunWhile F J (fun _ _ => True) .empty s → s.KeepsExecuted := by
  intro hclaim
  have hrun : RunWhile threeConciliums Dagjs.sample (fun _ _ => True) .empty
      (empty.steps threeConciliums Dagjs.sample (madeStable 4 ++ [.throw])) :=
    RunWhile.start.steps (by decide +kernel)
  have hclean := hclaim threeConciliums Dagjs.sample _ hashesHeaders_threeConciliums hrun
    (secondBlock.hash threeConciliums) (.inl (by decide +kernel))
  exact absurd hclean (by decide +kernel)

/-- Without the conflict both blocks stay good. -/
theorem keepsExecuted_of_run_madeStable :
    (empty.steps threeConciliums Dagjs.sample (madeStable 6)).KeepsExecuted ∧
      (empty.steps threeConciliums Dagjs.sample (madeStable 6)).FlaggedFinal
        (firstBlock.hash threeConciliums) := by
  refine ⟨(keepsExecuted_of_run threeConciliums Dagjs.sample hashesHeaders_threeConciliums _
    (RunWhile.start.steps ?_)).1, ?_⟩
  · decide +kernel
  · decide +kernel

end BlockNode

end CilCore
