import CilCore.Node.PurgedContracts

/-!
# Who wrote a contract last

A journal of the executed blocks says which contracts each has written. If every block is
built on the highest level of its concilium and keeps the contracts of others, and purges
take no contract from the block that wrote it, then each pending patch has of a contract
what the last writer below it wrote.
-/

namespace CilCore

/-! ### What blocks have written -/

/-- A block that was executed, and the contracts that the patches of its transactions have. -/
structure Execution where
  block : Block
  written : Finset Address

/-- The last execution of each block. -/
abbrev Journal := FinMap Hash Execution

namespace Journal

variable (journal : Journal) (v : Hash)

/-- The block has written the contract. -/
def Wrote (addr : Address) : Prop := ∃ e, journal.lookup v = some e ∧ addr ∈ e.written

/-- The block is one of the contract's concilium, and has written it. -/
def WroteAs (nConciliumId : Nat) (addr : Address) : Prop :=
  ∃ e, journal.lookup v = some e ∧ e.block.conciliumId = nConciliumId ∧ addr ∈ e.written

/-- The block has no transactions but its first. -/
def Bare : Prop := ∃ e, journal.lookup v = some e ∧ e.block.txns.tail = []

variable {journal v} {w : Hash} {e : Execution} {addr : Address} {nConciliumId : Nat}

theorem WroteAs.wrote (h : journal.WroteAs v nConciliumId addr) : journal.Wrote v addr := by
  obtain ⟨e, he, -, haddr⟩ := h
  exact ⟨e, he, haddr⟩

theorem lookup_insert_of_ne (hne : v ≠ w) : (journal.insert w e).lookup v = journal.lookup v := by
  rw [FinMap.lookup_insert_ite, if_neg hne]

theorem lookup_insert_self : (journal.insert v e).lookup v = some e := by
  rw [FinMap.lookup_insert_ite, if_pos rfl]

theorem wrote_insert_of_ne (hne : v ≠ w) :
    Wrote (journal.insert w e) v addr ↔ journal.Wrote v addr := by
  rw [Wrote, Wrote, lookup_insert_of_ne hne]

theorem wroteAs_insert_of_ne (hne : v ≠ w) :
    WroteAs (journal.insert w e) v nConciliumId addr ↔ journal.WroteAs v nConciliumId addr := by
  rw [WroteAs, WroteAs, lookup_insert_of_ne hne]

end Journal

namespace ChainState

section Record

variable (F : Factory)

/-- The contracts in the patches of transactions that are executed one after another. -/
def writtenBy (node : NodeView) (isGenesis : Bool) (vm : Transaction → Behaviour) :
    List Transaction → PatchDB → Finset Address
  | [], _ => ∅
  | tx :: rest, patchState =>
      match processTx F node (some patchState) isGenesis tx (vm tx) with
      | .error _ => ∅
      | .ok (_, patchThisTx) =>
          match patchState.merge F patchThisTx true with
          | .error _ => ∅
          | .ok merged =>
              patchThisTx.mapContractStates.keys ∪ writtenBy node isGenesis vm rest merged

/-- The contracts that a block writes. -/
def written (s : ChainState) (processedHeight : Option Nat) (vm : Transaction → Behaviour)
    (block : Block) : Finset Address :=
  match s.pendingBlocks.mergePatches F block.parentHashes with
  | .error _ => ∅
  | .ok patchMerged =>
      match patchMerged.setConciliumId block.conciliumId with
      | .error _ => ∅
      | .ok patchState =>
          writtenBy F ⟨s.storage, processedHeight⟩ (isGenesisBlock F block) vm block.txns.tail
            patchState

/-- The node when a block has arrived, before it is executed. -/
def arrived (s : ChainState) (block : Block) : ChainState :=
  { s with mainDag := s.mainDag.addBlock F (block.info F).markAsInFlight }

/-- The journal when a block has been processed. -/
def record (s : ChainState) (vm : Transaction → Behaviour) (block : Block) (journal : Journal) :
    Journal :=
  match (s.arrived F block).execBlock F (some block.getHeight) vm block with
  | .ok (some _) =>
      journal.insert (block.hash F)
        ⟨block, s.written F (some block.getHeight) vm block⟩
  | _ => journal

end Record

/-- The states that a node goes through by processing blocks, each of which meets a
condition, with the journal of what they have written. It begins without pending blocks. -/
inductive RecordedWhile (F : Factory) (J : Dagjs)
    (condition : ChainState → Journal → (Transaction → Behaviour) → Block → Prop) :
    ChainState → Journal → Prop
  | start {s : ChainState} (hnone : ∀ v, v ∉ s.pendingBlocks.dag) :
      RecordedWhile F J condition s ∅
  | step {s s' : ChainState} {journal : Journal} {vm : Transaction → Behaviour} {block : Block}
      (hrun : RecordedWhile F J condition s journal) (hcondition : condition s journal vm block)
      (hstep : s.processBlock F J vm block = .ok s') :
      RecordedWhile F J condition s' (s.record F vm block journal)

end ChainState

/-- Of the blocks at or below a tip, the one of the contract's concilium that wrote it last. -/
structure LastWriter (dag : PendingDag) (journal : Journal) (nConciliumId : Nat) (addr : Address)
    (tip w : Hash) : Prop where
  reaches : dag.Reaches tip w
  wrote : journal.WroteAs w nConciliumId addr
  last : ∀ u, dag.Reaches tip u → journal.WroteAs u nConciliumId addr → dag.Reaches w u

/-! ### Executing a block -/

namespace ChainState

open PendingBlocksManager

section Exec

variable {F : Factory} {s : ChainState} {vm : Transaction → Behaviour} {block : Block}
  {patchState : PatchDB} {processedHeight : Option Nat} {node : NodeView} {isGenesis : Bool}
  {conciliumId : Nat}

theorem conciliumId_of_merge {A B R : PatchDB} {bPreferPatchData : Bool}
    (h : A.merge F B bPreferPatchData = .ok R) : R.conciliumId = none := by
  obtain ⟨-, -, -, -, -, rfl⟩ := PatchDB.merge_eq_ok.mp h
  rfl

/-- The patch of a block keeps its concilium only if it is never merged. -/
theorem execTxns_conciliumId {txns : List Transaction} :
    ∀ {start result : PatchDB} {fees fees' : Amount},
      execTxns F node isGenesis conciliumId vm txns start fees = .ok (result, fees') →
        result.conciliumId = if txns = [] then start.conciliumId else none := by
  induction txns with
  | nil =>
      intro start result fees fees' h
      cases h
      rfl
  | cons tx rest ih =>
      intro start result fees fees' h
      obtain ⟨-, fee, patchThisTx, merged, -, hmerge, h⟩ := execTxns_cons_ok h
      rw [ih h, conciliumId_of_merge hmerge, ite_self, if_neg (List.cons_ne_nil tx rest)]

/-- What was there, and what is written, is in the patch of the block. -/
theorem execTxns_written {addr : Address} {txns : List Transaction} :
    ∀ {start result : PatchDB} {fees fees' : Amount},
      execTxns F node isGenesis conciliumId vm txns start fees = .ok (result, fees') →
        start.getContract addr ≠ none ∨ addr ∈ writtenBy F node isGenesis vm txns start →
          result.getContract addr ≠ none := by
  induction txns with
  | nil =>
      intro start result fees fees' h hhas
      cases h
      exact hhas.resolve_right (Finset.notMem_empty addr)
  | cons tx rest ih =>
      intro start result fees fees' h hhas
      obtain ⟨-, fee, patchThisTx, merged, hok, hmerge, h⟩ := execTxns_cons_ok h
      simp only [writtenBy, hok, hmerge, Finset.mem_union] at hhas
      apply ih h
      rcases hhas with hstart | hthis | hrest
      · exact .inl (PatchDB.getContract_merge_ne_none hmerge (.inl hstart))
      · obtain ⟨contract, hcontract⟩ := FinMap.mem_keys_iff.mp hthis
        refine .inl (PatchDB.getContract_merge_ne_none hmerge (.inr ?_))
        rw [PatchDB.getContract, hcontract]
        exact Option.some_ne_none contract
      · exact .inr hrest

/-- What is not written stays as it was. -/
theorem execTxns_entry {addr : Address} {txns : List Transaction} :
    ∀ {start result : PatchDB} {fees fees' : Amount}, start.Encoded →
      addr ∉ writtenBy F node isGenesis vm txns start →
        execTxns F node isGenesis conciliumId vm txns start fees = .ok (result, fees') →
          (result.versions F).entry addr = (start.versions F).entry addr := by
  induction txns with
  | nil =>
      intro start result fees fees' _ _ h
      cases h
      rfl
  | cons tx rest ih =>
      intro start result fees fees' hstart hnot h
      obtain ⟨-, fee, patchThisTx, merged, hok, hmerge, h⟩ := execTxns_cons_ok h
      simp only [writtenBy, hok, hmerge, Finset.mem_union, not_or] at hnot
      rw [ih (PatchDB.Encoded.of_merge hmerge) hnot.2 h]
      exact PatchDB.entry_merge_of_none hstart (FinMap.notMem_keys_iff.mp hnot.1) hmerge

/-- What the patch of an executed block has to do with what its parents' patches merge to. -/
structure ExecutedUpon (F : Factory) (s : ChainState) (processedHeight : Option Nat)
    (vm : Transaction → Behaviour) (block : Block) (merged patchState : PatchDB) : Prop where
  mergePatches : s.pendingBlocks.mergePatches F block.parentHashes = .ok merged
  levelOf : ∀ k, patchState.levelOf k =
    if k = block.conciliumId then merged.levelOf block.conciliumId + 1 else merged.levelOf k
  conciliumId : patchState.conciliumId =
    if block.txns.tail = [] then some block.conciliumId else none
  written : ∀ addr ∈ s.written F processedHeight vm block, patchState.getContract addr ≠ none
  others : ∀ addr k contents, k ≠ block.conciliumId →
    (patchState.versions F).entry addr = some (k, contents) →
      (merged.versions F).entry addr = some (k, contents)
  unwritten : ∀ addr, addr ∉ s.written F processedHeight vm block →
    (patchState.versions F).entry addr = (merged.versions F).entry addr

theorem exists_executedUpon (hF : F.ReadsBack)
    (hkeeps : BlockKeepsOthers F s processedHeight vm block)
    (hexec : s.execBlock F processedHeight vm block = .ok (some patchState))
    (hencoded : ∀ merged, s.pendingBlocks.mergePatches F block.parentHashes = .ok merged →
      merged.Encoded) :
    ∃ merged, ExecutedUpon F s processedHeight vm block merged patchState := by
  obtain ⟨merged, start, hmerged, hstart, hentry, hlevel, hown, -⟩ :=
    execBlock_onlyOwn hF hkeeps hexec hencoded
  obtain ⟨-, -, merged', start', patchTxns, fees, hmerged', hstart', htxns, hlast⟩ :=
    execBlock_ok hexec
  obtain rfl : merged = merged' := Except.ok.inj (hmerged.symm.trans hmerged')
  obtain rfl : start = start' := Except.ok.inj (hstart.symm.trans hstart')
  -- the coinbase adds coins only
  have hframe : patchState.conciliumId = patchTxns.conciliumId ∧
      patchState.getContract = patchTxns.getContract := by
    rcases hlast with ⟨-, rfl⟩ | ⟨-, hcoinbase⟩
    · exact ⟨rfl, rfl⟩
    · rw [processBlockCoinbaseTX_frame hcoinbase]
      exact ⟨rfl, rfl⟩
  have hsetId : start.conciliumId = some block.conciliumId ∧
      start.getContract = merged.getContract := by
    unfold PatchDB.setConciliumId at hstart
    obtain ⟨-, rfl⟩ := guard_eq_ok.mp hstart
    exact ⟨rfl, rfl⟩
  have hwritten : s.written F processedHeight vm block =
      writtenBy F ⟨s.storage, processedHeight⟩ (isGenesisBlock F block) vm block.txns.tail
        start := by
    simp only [written, hmerged, hstart]
  have hstartEncoded : start.Encoded := by
    intro addr contract hcontract
    rw [hsetId.2] at hcontract
    exact hencoded merged hmerged addr contract hcontract
  refine ⟨merged, hmerged, fun k => (hown.levels k).trans (hlevel k), ?_, fun addr haddr => ?_,
    fun addr k contents hk h => ?_, fun addr haddr => ?_⟩
  · rw [hframe.1, execTxns_conciliumId htxns, hsetId.1]
  · rw [hframe.2]
    exact execTxns_written htxns (.inr (hwritten ▸ haddr))
  · rw [← hentry]
    exact (hown.others addr k contents hk).mp h
  · rw [← hentry, ← execTxns_entry hstartEncoded (hwritten ▸ haddr) htxns]
    simp only [PatchDB.versions, hframe.2]

end Exec

end ChainState

/-! ### The condition on blocks -/

/-- A purge takes a contract from no block that has written it, and together with a block
from those that have it on lower levels. -/
structure PurgesTogether (F : Factory) (before after : PendingDag) (patchToApply : PatchDB)
    (journal : Journal) : Prop where
  spares : ∀ v ∈ after, ∀ b addr, before.readObj v = some b →
    PatchDB.SameContract F b.patch patchToApply addr → ¬ journal.Wrote v addr
  together : ∀ v ∈ after, ∀ w ∈ after, ∀ b b' addr contract k, before.readObj v = some b →
    before.readObj w = some b' → PatchDB.SameContract F b'.patch patchToApply addr →
      b.patch.getContract addr = some contract → contract.conciliumId = some k →
        b.patch.levelOf k ≤ b'.patch.levelOf k → PatchDB.SameContract F b.patch patchToApply addr

/-- The block is built on the highest level of its concilium, its nested calls keep the
contracts of other conciliums, and the purge that it leads to keeps what was written. -/
structure KeepsCurrent (F : Factory) (J : Dagjs) (s : ChainState) (journal : Journal)
    (vm : Transaction → Behaviour) (block : Block) : Prop where
  highest : ∀ v b, s.pendingBlocks.dag.readObj v = some b →
    b.patch.levelOf block.conciliumId ≠ 0 →
      ∃ p ∈ block.parentHashes, ∃ parent, s.pendingBlocks.dag.readObj p = some parent ∧
        b.patch.levelOf block.conciliumId ≤ parent.patch.levelOf block.conciliumId
  keeps : ChainState.BlockKeepsOthers F s (some block.getHeight) vm block
  purges : ∀ patchState r after,
    (s.arrived F block).execBlock F (some block.getHeight) vm block = .ok (some patchState) →
      (s.pendingBlocks.addBlock F block patchState).checkFinality F J (block.hash F)
          (s.storage.getConciliumsCount F) = .ok (some r, after) →
        PurgesTogether F (s.pendingBlocks.addBlock F block patchState).dag after.dag
          r.patchToApply (s.record F vm block journal)

/-! ### What holds of a graph whose blocks are tracked -/

/-- The patches show what the conciliums have published, whoever is on the level of a block
of a concilium is above that block, and what a patch has of a contract is what the last
writer below it wrote. -/
structure Tracked (F : Factory) (dag : PendingDag) (journal : Journal) : Prop where
  acyclic : dag.Acyclic
  levels : LevelsGrow dag
  follows : ∃ C, ∀ v b, dag.readObj v = some b → ChainState.Follows F C b.patch
  positive : ∀ v b, dag.readObj v = some b → b.patch.levelOf b.blockHeader.conciliumId ≠ 0
  above : ∀ v w b b', dag.readObj v = some b → dag.readObj w = some b' →
    b'.patch.levelOf b'.blockHeader.conciliumId ≤ b.patch.levelOf b'.blockHeader.conciliumId →
      dag.Reaches v w
  recorded : ∀ v b, dag.readObj v = some b → ∃ e, journal.lookup v = some e ∧
    e.block.conciliumId = b.blockHeader.conciliumId ∧
      b.patch.conciliumId =
        if e.block.txns.tail = [] then some b.blockHeader.conciliumId else none
  wrote : ∀ v b addr, dag.readObj v = some b → journal.Wrote v addr →
    b.patch.getContract addr ≠ none
  last : ∀ v b addr k contents, dag.readObj v = some b →
    (b.patch.versions F).entry addr = some (k, contents) →
      (∃ u, dag.Reaches v u ∧ journal.WroteAs u k addr) →
        ∃ w b', LastWriter dag journal k addr v w ∧ dag.readObj w = some b' ∧
          (b'.patch.versions F).entry addr = some (k, contents)

namespace Tracked

open PendingBlocksManager ChainState

section Step

variable {F : Factory} {J : Dagjs} {dag : PendingDag} {journal : Journal} {s s' : ChainState}
  {vm : Transaction → Behaviour} {block : Block} {merged patchState : PatchDB}
  {processedHeight : Option Nat}

theorem of_no_pending (h : ∀ v, v ∉ dag) : Tracked F dag journal := by
  have hnone {v : Hash} {b : PendingBlock} (hb : dag.readObj v = some b) : False :=
    h v (Dag.mem_iff.mpr ⟨b, hb⟩)
  refine ⟨fun v hv => ?_, fun v w b b' hedge => absurd hedge.mem_left (h v),
    ⟨Versions.Chronicle.blank, fun v b hb => (hnone hb).elim⟩, fun v b hb => (hnone hb).elim,
    fun v w b b' hb => (hnone hb).elim, fun v b hb => (hnone hb).elim,
    fun v b addr hb => (hnone hb).elim, fun v b addr k contents hb => (hnone hb).elim⟩
  obtain ⟨w, hedge, -⟩ := Relation.TransGen.head'_iff.mp hv
  exact h v hedge.mem_left

/-- The concilium of a block, as the journal has it. -/
theorem conciliumId_of_wroteAs (h : Tracked F dag journal) {u : Hash} {b : PendingBlock} {k : Nat}
    {addr : Address} (hb : dag.readObj u = some b) (hu : journal.WroteAs u k addr) :
    b.blockHeader.conciliumId = k := by
  obtain ⟨e, he, hconcilium, -⟩ := h.recorded u b hb
  obtain ⟨e', he', hk, -⟩ := hu
  obtain rfl : e = e' := Option.some.inj (he.symm.trans he')
  exact hconcilium.symm.trans hk

/-- A level of merged patches is that of a parent. -/
theorem exists_parent (hmerged : s.pendingBlocks.mergePatches F block.parentHashes = .ok merged)
    {k : Nat} (hne : merged.levelOf k ≠ 0) :
    ∃ p ∈ block.parentHashes, ∃ b, s.pendingBlocks.dag.readObj p = some b ∧
      b.patch.levelOf k = merged.levelOf k :=
  (mergePatchesFrom_levelOf_eq k hmerged).resolve_left hne

/-- The parents are on the highest level of the block's concilium. -/
theorem levelOf_le_merged
    (hhighest : ∀ v b, s.pendingBlocks.dag.readObj v = some b →
      b.patch.levelOf block.conciliumId ≠ 0 →
        ∃ p ∈ block.parentHashes, ∃ parent, s.pendingBlocks.dag.readObj p = some parent ∧
          b.patch.levelOf block.conciliumId ≤ parent.patch.levelOf block.conciliumId)
    (hmerged : s.pendingBlocks.mergePatches F block.parentHashes = .ok merged) {v : Hash}
    {b : PendingBlock} (hb : s.pendingBlocks.dag.readObj v = some b) :
    b.patch.levelOf block.conciliumId ≤ merged.levelOf block.conciliumId := by
  by_cases hzero : b.patch.levelOf block.conciliumId = 0
  · rw [hzero]
    exact Nat.zero_le _
  · obtain ⟨p, hp, parent, hparent, hle⟩ := hhighest v b hb hzero
    exact hle.trans ((mergePatchesFrom_levelOf hmerged block.conciliumId).2 p hp parent hparent)

/-- The parent on the level of merged patches is above the blocks of that concilium that
other parents are above. -/
theorem parent_reaches (h : Tracked F s.pendingBlocks.dag journal)
    (hmerged : s.pendingBlocks.mergePatches F block.parentHashes = .ok merged) {k : Nat}
    {p q u : Hash} {b b' : PendingBlock} (hb : s.pendingBlocks.dag.readObj p = some b)
    (hlevel : b.patch.levelOf k = merged.levelOf k) (hq : q ∈ block.parentHashes)
    (hreach : s.pendingBlocks.dag.Reaches q u) (hb' : s.pendingBlocks.dag.readObj u = some b')
    (hk : b'.blockHeader.conciliumId = k) : s.pendingBlocks.dag.Reaches p u := by
  obtain ⟨parent, hparent⟩ := Dag.mem_iff.mp (hreach.mem_left (Dag.mem_iff.mpr ⟨b', hb'⟩))
  have hle := h.levels.le_of_reaches hreach hparent hb' k
  have hmergedLe := (mergePatchesFrom_levelOf hmerged k).2 q hq parent hparent
  apply h.above p u b b' hb hb'
  rw [hk, hlevel]
  exact hle.trans hmergedLe

theorem edge_addBlock {p : Hash} (hp : p ∈ block.parentHashes) (hmem : p ∈ s.pendingBlocks.dag) :
    (s.pendingBlocks.addBlock F block patchState).dag.Edge (block.hash F) p :=
  Dag.edge_addVertex.mpr (.inl ⟨rfl, hp, .inl hmem⟩)

/-- The new block is above the blocks of a concilium whose level it has. -/
theorem above_addBlock (h : Tracked F s.pendingBlocks.dag journal)
    (hupon : ExecutedUpon F s processedHeight vm block merged patchState)
    (hhighest : ∀ v b, s.pendingBlocks.dag.readObj v = some b →
      b.patch.levelOf block.conciliumId ≤ merged.levelOf block.conciliumId)
    {v w : Hash} {b b' : PendingBlock}
    (hb : (s.pendingBlocks.addBlock F block patchState).dag.readObj v = some b)
    (hb' : (s.pendingBlocks.addBlock F block patchState).dag.readObj w = some b')
    (hle : b'.patch.levelOf b'.blockHeader.conciliumId ≤
      b.patch.levelOf b'.blockHeader.conciliumId) :
    (s.pendingBlocks.addBlock F block patchState).dag.Reaches v w := by
  rcases readObj_addBlock F hb with ⟨rfl, rfl⟩ | ⟨-, hb⟩ <;>
    rcases readObj_addBlock F hb' with ⟨rfl, rfl⟩ | ⟨-, hb'⟩
  · exact .refl
  · have hmergedLe : b'.patch.levelOf b'.blockHeader.conciliumId ≤
        merged.levelOf b'.blockHeader.conciliumId := by
      by_cases hk : b'.blockHeader.conciliumId = block.conciliumId
      · rw [hk]
        exact hhighest w b' hb'
      · have hlevel := hupon.levelOf b'.blockHeader.conciliumId
        rw [if_neg hk] at hlevel
        exact hle.trans_eq hlevel
    have hpositive := h.positive w b' hb'
    obtain ⟨p, hp, parent, hparent, hlevel⟩ := exists_parent hupon.mergePatches
      (k := b'.blockHeader.conciliumId) (by omega)
    have hreach := h.above p w parent b' hparent hb' (hlevel ▸ hmergedLe)
    exact .head (edge_addBlock hp (Dag.mem_iff.mpr ⟨parent, hparent⟩)) hreach.addVertex
  · -- nobody is on the level of the new block
    have hlevel := hupon.levelOf block.conciliumId
    rw [if_pos rfl] at hlevel
    have hlt : b.patch.levelOf block.conciliumId < patchState.levelOf block.conciliumId := by
      rw [hlevel]
      exact Nat.lt_succ_of_le (hhighest v b hb)
    exact absurd hle (not_le.mpr hlt)
  · exact (h.above v w b b' hb hb' hle).addVertex

/-- What the new block has of a contract is what the last writer below it wrote. -/
theorem last_addBlock (hF : F.HashesHeaders) (h : Tracked F s.pendingBlocks.dag journal)
    (hupon : ExecutedUpon F s processedHeight vm block merged patchState)
    (hnew : block.hash F ∉ s.pendingBlocks.dag) {addr : Address} {k : Nat}
    {contents : Data × Amount}
    (hentry : (patchState.versions F).entry addr = some (k, contents))
    {journal' : Journal}
    (hjournal : journal' = journal.insert (block.hash F)
      ⟨block, s.written F processedHeight vm block⟩)
    (hwriter : ∃ u, (s.pendingBlocks.addBlock F block patchState).dag.Reaches (block.hash F) u ∧
      journal'.WroteAs u k addr) :
    ∃ w b', LastWriter (s.pendingBlocks.addBlock F block patchState).dag journal' k addr
        (block.hash F) w ∧
      (s.pendingBlocks.addBlock F block patchState).dag.readObj w = some b' ∧
        (b'.patch.versions F).entry addr = some (k, contents) := by
  have hself : block.hash F ∉ block.parentHashes := hF.notMem_parents (block.hashedHeader F)
  by_cases hown : journal'.WroteAs (block.hash F) k addr
  · exact ⟨block.hash F, _, ⟨.refl, hown, fun u hu _ => hu⟩,
      Dag.readObj_addVertex.trans (if_pos rfl), hentry⟩
  · -- then its parents' patches merge to that version already
    have hmergedEntry : (merged.versions F).entry addr = some (k, contents) := by
      by_cases hk : k = block.conciliumId
      · rw [← hupon.unwritten addr fun haddr => hown ?_]
        · exact hentry
        · rw [hjournal]
          exact ⟨_, Journal.lookup_insert_self, hk.symm, haddr⟩
      · exact hupon.others addr k contents hk hentry
    obtain ⟨C, hfollows⟩ := h.follows
    have hmerged := (mergePatchesFrom_combined .empty hupon.mergePatches).follows hfollows
    have hne : merged.levelOf k ≠ 0 := by
      obtain ⟨contract, hcontract, hk, -⟩ := PatchDB.entry_versions.mp hmergedEntry
      exact hmerged.levelled addr contract k hcontract hk
    obtain ⟨p, hp, parent, hparent, hlevel⟩ := exists_parent hupon.mergePatches hne
    have hparentEntry := hmerged.shown.entry_eq_of_level (hfollows p parent hparent).shown
      hmergedEntry hlevel.symm
    have hpmem : p ∈ s.pendingBlocks.dag := Dag.mem_iff.mpr ⟨parent, hparent⟩
    -- and all other writers are below the parent on that level
    have hbelow {u : Hash}
        (hreach : (s.pendingBlocks.addBlock F block patchState).dag.Reaches (block.hash F) u)
        (hu : journal'.WroteAs u k addr) :
        s.pendingBlocks.dag.Reaches p u ∧ journal.WroteAs u k addr := by
      have hne : u ≠ block.hash F := fun heq => hown (heq ▸ hu)
      rw [hjournal, Journal.wroteAs_insert_of_ne hne] at hu
      obtain ⟨q, hq, -, hqu, humem⟩ :=
        (Dag.reaches_addVertex_new hnew hself hreach).resolve_left hne
      obtain ⟨b, hb⟩ := Dag.mem_iff.mp humem
      exact ⟨h.parent_reaches hupon.mergePatches hparent hlevel hq hqu hb
        (h.conciliumId_of_wroteAs hb hu), hu⟩
    obtain ⟨u, hreach, hu⟩ := hwriter
    obtain ⟨w, b', hlast, hb', hw⟩ := h.last p parent addr k contents hparent hparentEntry
      ⟨u, hbelow hreach hu⟩
    have hwne : w ≠ block.hash F := by
      rintro rfl
      exact hnew (Dag.mem_iff.mpr ⟨b', hb'⟩)
    refine ⟨w, b', ⟨?_, ?_, fun u hreach hu => ?_⟩, ?_, hw⟩
    · exact .head (edge_addBlock hp hpmem) hlast.reaches.addVertex
    · rw [hjournal, Journal.wroteAs_insert_of_ne hwne]
      exact hlast.wrote
    · exact (hlast.last u (hbelow hreach hu).1 (hbelow hreach hu).2).addVertex
    · exact Dag.readObj_addVertex.trans ((if_neg hwne).trans hb')

/-- A block that is built on the highest level of its concilium is tracked. -/
theorem addBlock (hF : F.ReadsBack) (hH : F.HashesHeaders)
    (h : Tracked F s.pendingBlocks.dag journal)
    (hhighest : ∀ v b, s.pendingBlocks.dag.readObj v = some b →
      b.patch.levelOf block.conciliumId ≠ 0 →
        ∃ p ∈ block.parentHashes, ∃ parent, s.pendingBlocks.dag.readObj p = some parent ∧
          b.patch.levelOf block.conciliumId ≤ parent.patch.levelOf block.conciliumId)
    (hkeeps : BlockKeepsOthers F s processedHeight vm block)
    (hexec : s.execBlock F processedHeight vm block = .ok (some patchState)) :
    Tracked F (s.pendingBlocks.addBlock F block patchState).dag
      (journal.insert (block.hash F) ⟨block, s.written F processedHeight vm block⟩) := by
  obtain ⟨C, hfollows⟩ := id h.follows
  obtain ⟨merged, hupon⟩ := exists_executedUpon hF hkeeps hexec fun merged hmerged =>
    ((mergePatchesFrom_combined .empty hmerged).follows hfollows).encoded
  have hbelow {v : Hash} {b : PendingBlock} (hb : s.pendingBlocks.dag.readObj v = some b) :=
    levelOf_le_merged hhighest hupon.mergePatches hb
  have hnew := notMem_of_execBlock hexec
  refine ⟨acyclic_addBlock hH h.acyclic hexec, levelsGrow_addBlock hH h.levels hexec, ?_,
    fun v b hb => ?_, fun v w b b' hb hb' hle => ?_, fun v b hb => ?_, fun v b addr hb hwrote => ?_,
    fun v b addr k contents hb hentry hwriter => ?_⟩
  · exact exists_follows_addBlock hF hfollows hkeeps
      (fun merged hmerged v b hb => levelOf_le_merged hhighest hmerged hb) hexec
  · rcases readObj_addBlock F hb with ⟨rfl, rfl⟩ | ⟨-, hb⟩
    · change patchState.levelOf block.conciliumId ≠ 0
      rw [hupon.levelOf, if_pos rfl]
      exact Nat.succ_ne_zero _
    · exact h.positive v b hb
  · exact h.above_addBlock hupon (fun v b hb => hbelow hb) hb hb' hle
  · rcases readObj_addBlock F hb with ⟨rfl, rfl⟩ | ⟨hne, hb⟩
    · exact ⟨_, Journal.lookup_insert_self, rfl, hupon.conciliumId⟩
    · rw [Journal.lookup_insert_of_ne hne]
      exact h.recorded v b hb
  · rcases readObj_addBlock F hb with ⟨rfl, rfl⟩ | ⟨hne, hb⟩
    · obtain ⟨e, he, haddr⟩ := hwrote
      rw [Journal.lookup_insert_self] at he
      obtain rfl := Option.some.inj he
      exact hupon.written addr haddr
    · exact h.wrote v b addr hb ((Journal.wrote_insert_of_ne hne).mp hwrote)
  · rcases readObj_addBlock F hb with ⟨rfl, rfl⟩ | ⟨hne, hb⟩
    · exact h.last_addBlock hH hupon hnew hentry rfl hwriter
    · -- below an old block nothing has changed
      have hold {u : Hash}
          (hreach : (s.pendingBlocks.addBlock F block patchState).dag.Reaches v u) :=
        Dag.reaches_addVertex_of_mem hnew (Dag.mem_iff.mpr ⟨b, hb⟩) hreach
      have hwroteOld {u : Hash} {e : Execution} (hu : u ∈ s.pendingBlocks.dag) :
          Journal.WroteAs (journal.insert (block.hash F) e) u k addr ↔
            journal.WroteAs u k addr := by
        apply Journal.wroteAs_insert_of_ne
        rintro rfl
        exact hnew hu
      obtain ⟨u, hreach, hu⟩ := hwriter
      obtain ⟨w, b', hlast, hb', hw⟩ := h.last v b addr k contents hb hentry
        ⟨u, (hold hreach).1, (hwroteOld (hold hreach).2).mp hu⟩
      have hwmem : w ∈ s.pendingBlocks.dag := Dag.mem_iff.mpr ⟨b', hb'⟩
      refine ⟨w, b', ⟨hlast.reaches.addVertex, (hwroteOld hwmem).mpr hlast.wrote,
        fun u hreach hu => ?_⟩, ?_, hw⟩
      · exact (hlast.last u (hold hreach).1 ((hwroteOld (hold hreach).2).mp hu)).addVertex
      · have hwne : w ≠ block.hash F := by
          rintro rfl
          exact hnew hwmem
        exact Dag.readObj_addVertex.trans ((if_neg hwne).trans hb')

/-! ### Finality -/

/-- The views of the blocks that remain agree when they were purged together. -/
theorem agree_of_purgesTogether {before after : PendingDag} {stable : PatchDB}
    {C : Versions.Chronicle Nat Address (Data × Amount)}
    (hfollows : ∀ v b, before.readObj v = some b → Follows F C b.patch)
    (hpurges : PurgesTogether F before after stable journal)
    (hpurged : ∀ v b', after.readObj v = some b' → ∃ b, before.readObj v = some b ∧
      b' = { b with patch := b.patch.purge F stable }) :
    Versions.Chronicle.Agree
      {view | ∃ v b, after.readObj v = some b ∧ b.patch.versions F = view} := by
  -- what a purged patch has was there before, and was not purged
  have hkept {patch : PatchDB} {addr : Address} {version : Nat × Data × Amount}
      (hentry : ((patch.purge F stable).versions F).entry addr = some version) :
      (patch.versions F).entry addr = some version ∧
        ¬ PatchDB.SameContract F patch stable addr := by
    rw [PatchDB.entry_purge] at hentry
    split at hentry
    next => cases hentry
    next hnot => exact ⟨hentry, hnot⟩
  have hstays {v w : Hash} {b b' : PendingBlock} {addr : Address} {k : Nat}
      {contents : Data × Amount} (hv : v ∈ after) (hw : w ∈ after)
      (hb : before.readObj v = some b) (hb' : before.readObj w = some b')
      (hentry : (b.patch.versions F).entry addr = some (k, contents))
      (hnot : ¬ PatchDB.SameContract F b.patch stable addr)
      (hle : b.patch.levelOf k ≤ b'.patch.levelOf k) :
      ((b'.patch.purge F stable).versions F).entry addr = (b'.patch.versions F).entry addr := by
    obtain ⟨contract, hcontract, hk, -⟩ := PatchDB.entry_versions.mp hentry
    rw [PatchDB.entry_purge, if_neg]
    intro hsame
    exact hnot (hpurges.together v hv w hw b b' addr contract k hb hb' hsame hcontract hk hle)
  refine ⟨?_, ?_, ?_⟩
  · rintro _ ⟨v, b', hb', rfl⟩ addr k contents hentry
    obtain ⟨b, hb, rfl⟩ := hpurged v b' hb'
    obtain ⟨contract, hcontract, hk, -⟩ := PatchDB.entry_versions.mp (hkept hentry).1
    exact (hfollows v b hb).levelled addr contract k hcontract hk
  · rintro _ ⟨v, b₁, hb₁, rfl⟩ _ ⟨w, b₂, hb₂, rfl⟩ addr k contents hentry hlevel
    obtain ⟨b, hb, rfl⟩ := hpurged v b₁ hb₁
    obtain ⟨b', hb', rfl⟩ := hpurged w b₂ hb₂
    obtain ⟨hentry, hnot⟩ := hkept hentry
    rw [hstays (Dag.mem_iff.mpr ⟨_, hb₁⟩) (Dag.mem_iff.mpr ⟨_, hb₂⟩) hb hb' hentry hnot hlevel.le]
    exact (hfollows v b hb).shown.entry_eq_of_level (hfollows w b' hb').shown hentry hlevel
  · rintro _ ⟨v, b₁, hb₁, rfl⟩ _ ⟨w, b₂, hb₂, rfl⟩ addr k contents hentry hle
    obtain ⟨b, hb, rfl⟩ := hpurged v b₁ hb₁
    obtain ⟨b', hb', rfl⟩ := hpurged w b₂ hb₂
    obtain ⟨hentry, hnot⟩ := hkept hentry
    rw [hstays (Dag.mem_iff.mpr ⟨_, hb₁⟩) (Dag.mem_iff.mpr ⟨_, hb₂⟩) hb hb' hentry hnot hle]
    exact (hfollows v b hb).shown.entry_of_le (hfollows w b' hb').shown hentry hle

/-- What remains after a purge that keeps what was written is tracked. -/
theorem settle {pbm after : PendingBlocksManager} {newVertex : Hash} {nConciliumCount : Nat}
    {r : FinalityResult} (h : Tracked F pbm.dag journal) (hnew : newVertex ∈ pbm.dag)
    (hcheck : pbm.checkFinality F J newVertex nConciliumCount = .ok (some r, after))
    (hpurges : PurgesTogether F pbm.dag after.dag r.patchToApply journal) :
    Tracked F after.dag journal := by
  have hpart := partOf_checkFinality hcheck
  have hreaches {v w : Hash} (hw : w ∈ after.dag) := reaches_settle h.acyclic hnew hcheck (v := v) hw
  obtain ⟨C, hfollows⟩ := id h.follows
  have hpurged {v : Hash} {b' : PendingBlock} (hb' : after.dag.readObj v = some b') :
      ∃ b, pbm.dag.readObj v = some b ∧
        b' = { b with patch := b.patch.purge F r.patchToApply } := by
    obtain ⟨-, -, -, rfl⟩ := checkFinality_ok hcheck
    exact readObj_settle hb'
  refine ⟨h.acyclic.of_edge hpart.edge, h.levels.of_partOf hpart, ?_, fun v b' hb' => ?_,
    fun v w b₁ b₂ hb₁ hb₂ hle => ?_, fun v b' hb' => ?_, fun v b' addr hb' hwrote => ?_,
    fun v b' addr k contents hb' hentry hwriter => ?_⟩
  · obtain ⟨C', hshown⟩ :=
      (agree_of_purgesTogether hfollows hpurges fun v b' => hpurged).exists_chronicle
    refine ⟨C', fun v b' hb' => ?_⟩
    have hview := hshown _ ⟨v, b', hb', rfl⟩
    obtain ⟨b, hb, rfl⟩ := hpurged hb'
    exact ⟨hview, (hfollows v b hb).encoded.purge, (hfollows v b hb).placed.purge⟩
  · obtain ⟨b, hb, rfl⟩ := hpurged hb'
    exact h.positive v b hb
  · obtain ⟨b, hb, rfl⟩ := hpurged hb₁
    obtain ⟨b', hb', rfl⟩ := hpurged hb₂
    exact (hreaches (Dag.mem_iff.mpr ⟨_, hb₂⟩)).mpr (h.above v w b b' hb hb' hle)
  · obtain ⟨b, hb, rfl⟩ := hpurged hb'
    exact h.recorded v b hb
  · obtain ⟨b, hb, rfl⟩ := hpurged hb'
    have hspared : ¬ PatchDB.SameContract F b.patch r.patchToApply addr := fun hsame =>
      hpurges.spares v (Dag.mem_iff.mpr ⟨_, hb'⟩) b addr hb hsame hwrote
    rw [PatchDB.getContract_purge, if_neg hspared]
    exact h.wrote v b addr hb hwrote
  · obtain ⟨b, hb, rfl⟩ := hpurged hb'
    have hbefore : (b.patch.versions F).entry addr = some (k, contents) := by
      rw [PatchDB.entry_purge] at hentry
      split at hentry
      next => cases hentry
      next => exact hentry
    obtain ⟨u, hreach, hu⟩ := hwriter
    have humem : u ∈ after.dag := hreach.mem (Dag.mem_iff.mpr ⟨_, hb'⟩)
    obtain ⟨w, writer, hlast, hw, hwEntry⟩ := h.last v b addr k contents hb hbefore
      ⟨u, (hreaches humem).mp hreach, hu⟩
    -- the last writer is above the one that remains, so it remains as well
    have hwmem : w ∈ after.dag :=
      ((hreaches humem).mpr (hlast.last u ((hreaches humem).mp hreach) hu)).mem_left humem
    have hspared : ¬ PatchDB.SameContract F writer.patch r.patchToApply addr := fun hsame =>
      hpurges.spares w hwmem writer addr hw hsame hlast.wrote.wrote
    obtain ⟨b₂, hb₂⟩ := Dag.mem_iff.mp hwmem
    obtain ⟨before, hbefore', rfl⟩ := hpurged hb₂
    obtain rfl : writer = before := Option.some.inj (hw.symm.trans hbefore')
    refine ⟨w, _, ⟨(hreaches hwmem).mpr hlast.reaches, hlast.wrote, fun x hx hwrote => ?_⟩, hb₂, ?_⟩
    · have hxmem : x ∈ after.dag := hx.mem (Dag.mem_iff.mpr ⟨_, hb'⟩)
      exact (hreaches hxmem).mpr (hlast.last x ((hreaches hxmem).mp hx) hwrote)
    · rw [PatchDB.entry_purge, if_neg hspared]
      exact hwEntry

/-! ### Runs -/

theorem record_of_exec (journal : Journal)
    (hexec : (s.arrived F block).execBlock F (some block.getHeight) vm block =
      .ok (some patchState)) :
    s.record F vm block journal = journal.insert (block.hash F)
      ⟨block, s.written F (some block.getHeight) vm block⟩ := by
  simp only [record, hexec]

theorem processBlock (hF : F.ReadsBack) (hH : F.HashesHeaders)
    (h : Tracked F s.pendingBlocks.dag journal) (hcondition : KeepsCurrent F J s journal vm block)
    (hstep : s.processBlock F J vm block = .ok s') :
    Tracked F s'.pendingBlocks.dag (s.record F vm block journal) := by
  rcases processBlock_ok hstep with ⟨hexec, rfl⟩ | ⟨patchState, hexec, haccept⟩
  · have hsame : s.record F vm block journal = journal := by
      simp only [record, arrived, hexec]
    rw [hsame]
    exact h
  · have hadded : Tracked F (s.pendingBlocks.addBlock F block patchState).dag
        (s.record F vm block journal) := by
      rw [record_of_exec journal hexec]
      exact addBlock (s := s.arrived F block) hF hH h hcondition.highest hcondition.keeps hexec
    obtain ⟨result, hcheck, -⟩ := acceptBlock_ok haccept
    cases result with
    | none =>
        rw [checkFinality_none hcheck]
        exact hadded
    | some r =>
        exact hadded.settle (Dag.mem_addVertex.mpr (.inl rfl)) hcheck
          (hcondition.purges patchState r s'.pendingBlocks hexec hcheck)

/-- Every run of blocks that meet the condition is tracked. -/
theorem of_run (hF : F.ReadsBack) (hH : F.HashesHeaders)
    (h : RecordedWhile F J (KeepsCurrent F J) s journal) :
    Tracked F s.pendingBlocks.dag journal := by
  induction h with
  | start hnone => exact of_no_pending hnone
  | step _ hcondition hstep ih => exact ih.processBlock hF hH hcondition hstep

end Step

end Tracked

end CilCore
