import CilCore.Lib.Versions
import CilCore.Node.CallOrigins
import CilCore.Node.ConciliumForks
import CilCore.Storage.Mergeable

/-!
# The latest contract wins

A merge keeps the contract from the patch that is on the higher level of the contract's
concilium. A block goes one level up in its own concilium only, but its nested calls may
store contracts of other ones, and blocks of one concilium need not follow one another.
Without either, the patches of pending blocks show the versions that the conciliums have
published, each level by one block.
-/

namespace CilCore

open Versions

namespace PatchDB

/-- Contracts are kept encoded, as copies are. -/
def Encoded (patch : PatchDB) : Prop :=
  ∀ addr contract, patch.getContract addr = some contract → contract.cacheData = none

/-- The contracts of a patch, as versions made by their conciliums. -/
def versions (F : Factory) (patch : PatchDB) : View Nat Address (Data × Amount) where
  level := patch.levelOf
  entry addr := (patch.getContract addr).bind fun contract =>
    contract.conciliumId.map fun nConciliumId => (nConciliumId, contract.contents F)

section Merge

variable {F : Factory} {A B R patch : PatchDB} {addr : Address}

theorem entry_versions {nConciliumId : Nat} {contents : Data × Amount} :
    (patch.versions F).entry addr = some (nConciliumId, contents) ↔
      ∃ contract, patch.getContract addr = some contract ∧
        contract.conciliumId = some nConciliumId ∧ contract.contents F = contents := by
  simp [versions, Option.bind_eq_some_iff]

theorem entry_of_getContract (F : Factory) {nConciliumId : Nat} {contract : Contract}
    (h : patch.getContract addr = some contract) (hconcilium : contract.conciliumId = some nConciliumId) :
    (patch.versions F).entry addr = some (nConciliumId, contract.contents F) :=
  entry_versions.mpr ⟨contract, h, hconcilium, rfl⟩

/-- A copy is the same version. -/
theorem entry_of_clone {contract copy : Contract} (hA : A.getContract addr = some contract)
    (hR : R.getContract addr = some copy) (hclone : contract.clone F = .ok copy)
    (hcontents : copy.contents F = contract.contents F) :
    (R.versions F).entry addr = (A.versions F).entry addr := by
  simp [versions, hA, hR, Contract.conciliumId_clone hclone, hcontents]

/-- The contract that survives a merge is copied. -/
theorem getContract_of_merge {bPreferPatchData : Bool}
    (h : A.merge F B bPreferPatchData = .ok R) (winner : Contract)
    (hwinner : winnerContract bPreferPatchData A B (A.getContract addr) (B.getContract addr) =
      some winner) :
    ∃ copy, R.getContract addr = some copy ∧ winner.clone F = .ok copy := by
  obtain ⟨-, -, -, hwithout, -, rfl⟩ := merge_eq_ok.mp h
  have hmem : addr ∈ A.mapContractStates.keys ∪ B.mapContractStates.keys := by
    rcases mem_of_winnerContract hwinner with hA | hB
    · exact Finset.mem_union_left _ (FinMap.mem_keys_of_lookup hA)
    · exact Finset.mem_union_right _ (FinMap.mem_keys_of_lookup hB)
  have hplaced : winner.conciliumId ≠ none := by
    intro hnone
    refine hwithout ⟨addr, hmem, ?_⟩
    rw [hwinner]
    exact hnone
  obtain ⟨copy, hclone, -⟩ := exists_clone (F := F) hplaced
  refine ⟨copy, ?_, hclone⟩
  rw [lookup_getContract_merged, hwinner, Option.bind_some, hclone]
  rfl

theorem getContract_merge_eq_none {bPreferPatchData : Bool}
    (h : A.merge F B bPreferPatchData = .ok R) (hA : A.getContract addr = none)
    (hB : B.getContract addr = none) : R.getContract addr = none := by
  obtain ⟨-, -, -, -, -, rfl⟩ := merge_eq_ok.mp h
  rw [lookup_getContract_merged, hA, hB]
  rfl

/-- What either patch has is in their merge. -/
theorem getContract_merge_ne_none {bPreferPatchData : Bool}
    (h : A.merge F B bPreferPatchData = .ok R)
    (hhas : A.getContract addr ≠ none ∨ B.getContract addr ≠ none) :
    R.getContract addr ≠ none := by
  obtain ⟨winner, hwinner⟩ := exists_winnerContract hhas
  obtain ⟨copy, hcopy, -⟩ := getContract_of_merge h winner hwinner
  rw [hcopy]
  exact Option.some_ne_none copy

theorem conciliumId_eq_of_merge {bPreferPatchData : Bool}
    (h : A.merge F B bPreferPatchData = .ok R) {mine his : Contract}
    (hA : A.getContract addr = some mine) (hB : B.getContract addr = some his) :
    mine.conciliumId = his.conciliumId := by
  obtain ⟨-, -, hconflict, -⟩ := merge_eq_ok.mp h
  by_contra hne
  refine hconflict ⟨addr, Finset.mem_inter.mpr
    ⟨FinMap.mem_keys_of_lookup hA, FinMap.mem_keys_of_lookup hB⟩, ?_⟩
  rw [hA, hB]
  exact fun hsame => hne (Option.some.inj hsame)

/-- A merge keeps contracts encoded. -/
theorem Encoded.of_merge {bPreferPatchData : Bool} (h : A.merge F B bPreferPatchData = .ok R) :
    R.Encoded := by
  obtain ⟨-, -, -, -, -, rfl⟩ := merge_eq_ok.mp h
  intro addr contract hcontract
  rw [lookup_getContract_merged, Option.bind_eq_some_iff] at hcontract
  obtain ⟨winner, -, hclone⟩ := hcontract
  cases hcopy : winner.clone F with
  | error error => simp [hcopy, Except.toOption] at hclone
  | ok copy =>
      simp only [hcopy, Except.toOption, Option.some.injEq] at hclone
      exact hclone ▸ Contract.cacheData_clone hcopy

theorem encoded_empty : empty.Encoded := by
  intro addr contract h
  simp [getContract, PatchDB.empty] at h

theorem getLevel_eq {nConciliumId : Nat} (h : patch.levelOf nConciliumId ≠ 0) :
    patch.getLevel (some nConciliumId) = some (patch.levelOf nConciliumId) := by
  unfold levelOf at h ⊢
  unfold getLevel
  cases hlevel : patch.mapConciliumLevel.lookup nConciliumId with
  | none => simp [hlevel] at h
  | some level => simp [hlevel]

/-- Every contract is on a level of its concilium. -/
def Levelled (patch : PatchDB) : Prop :=
  ∀ addr contract nConciliumId, patch.getContract addr = some contract →
    contract.conciliumId = some nConciliumId → patch.levelOf nConciliumId ≠ 0

/-- **A merge joins versions**, if contracts are on levels of their conciliums. -/
theorem joins_merge (hA : A.Encoded) (hB : B.Encoded) (hlevelA : A.Levelled)
    (hlevelB : B.Levelled) (h : A.merge F B = .ok R) :
    (A.versions F).Joins (B.versions F) (R.versions F) where
  level w := levelOf_merge h
  entry addr := by
    cases hmine : A.getContract addr with
    | none =>
        have hnone : (A.versions F).entry addr = none := by simp [versions, hmine]
        cases hhis : B.getContract addr with
        | none =>
            refine .inl ⟨?_, .inl (by simp [versions, hhis])⟩
            simp [versions, hmine, getContract_merge_eq_none h hmine hhis]
        | some his =>
            obtain ⟨copy, hcopy, hclone⟩ :=
              getContract_of_merge h his (by rw [hmine, hhis]; rfl)
            exact .inr ⟨entry_of_clone hhis hcopy hclone
              (Contract.contents_clone_of_cacheData (hB addr his hhis) hclone), .inl hnone⟩
    | some mine =>
        cases hhis : B.getContract addr with
        | none =>
            have hnone : (B.versions F).entry addr = none := by simp [versions, hhis]
            obtain ⟨copy, hcopy, hclone⟩ :=
              getContract_of_merge h mine (by rw [hmine, hhis]; rfl)
            exact .inl ⟨entry_of_clone hmine hcopy hclone
              (Contract.contents_clone_of_cacheData (hA addr mine hmine) hclone), .inl hnone⟩
        | some his =>
            have hsame := conciliumId_eq_of_merge h hmine hhis
            obtain ⟨winner, hwinner⟩ : ∃ winner,
                winnerContract false A B (some mine) (some his) = some winner :=
              exists_winnerContract (.inl nofun)
            obtain ⟨copy, hcopy, hclone⟩ :=
              getContract_of_merge h winner (by rw [hmine, hhis]; exact hwinner)
            obtain ⟨nConciliumId, hconcilium⟩ : ∃ k, mine.conciliumId = some k := by
              have hplaced := ContractsPlaced.merge h addr copy hcopy
              rw [Contract.conciliumId_clone hclone] at hplaced
              rcases mem_of_winnerContract hwinner with heq | heq
              · cases heq
                exact Option.ne_none_iff_exists'.mp hplaced
              · cases heq
                exact Option.ne_none_iff_exists'.mp (hsame ▸ hplaced)
            have hmyEntry := entry_of_getContract F hmine hconcilium
            have hhisEntry := entry_of_getContract F hhis (hsame ▸ hconcilium)
            have hmyLevel := getLevel_eq (hlevelA addr mine nConciliumId hmine hconcilium)
            have hhisLevel := getLevel_eq
              (hlevelB addr his nConciliumId hhis (hsame ▸ hconcilium))
            simp only [winnerContract, Bool.false_or, hconcilium, ← hsame, hmyLevel, hhisLevel,
              levelGe, decide_eq_true_eq] at hwinner
            split at hwinner
            next hle =>
              cases hwinner
              exact .inr ⟨entry_of_clone hhis hcopy hclone
                (Contract.contents_clone_of_cacheData (hB addr _ hhis) hclone),
                .inr ⟨nConciliumId, _, _, hhisEntry, hmyEntry, hle⟩⟩
            next hlt =>
              cases hwinner
              exact .inl ⟨entry_of_clone hmine hcopy hclone
                (Contract.contents_clone_of_cacheData (hA addr _ hmine) hclone),
                .inr ⟨nConciliumId, _, _, hmyEntry, hhisEntry, (not_le.mp hlt).le⟩⟩

/-! ### The patch of a block -/

/-- Patches on the same levels differ only in contracts of one concilium, and none of these
is lost. -/
structure OnlyOwn (F : Factory) (nConciliumId : Nat) (before after : PatchDB) : Prop where
  others : ∀ addr k contents, k ≠ nConciliumId →
    ((after.versions F).entry addr = some (k, contents) ↔
      (before.versions F).entry addr = some (k, contents))
  kept : ∀ addr contents, (before.versions F).entry addr = some (nConciliumId, contents) →
    ∃ contents', (after.versions F).entry addr = some (nConciliumId, contents')
  levels : ∀ k, after.levelOf k = before.levelOf k

theorem OnlyOwn.refl (F : Factory) (nConciliumId : Nat) (patch : PatchDB) :
    OnlyOwn F nConciliumId patch patch where
  others _ _ _ _ := Iff.rfl
  kept _ contents h := ⟨contents, h⟩
  levels _ := rfl

theorem OnlyOwn.trans {nConciliumId : Nat} (h : OnlyOwn F nConciliumId A B)
    (h' : OnlyOwn F nConciliumId B R) : OnlyOwn F nConciliumId A R where
  others addr k contents hk := (h'.others addr k contents hk).trans (h.others addr k contents hk)
  kept addr contents hA := by
    obtain ⟨contents', hB⟩ := h.kept addr contents hA
    exact h'.kept addr contents' hB
  levels k := (h'.levels k).trans (h.levels k)

/-- A contract that the other patch does not have stays as it is. -/
theorem entry_merge_of_none {bPreferPatchData : Bool} (hA : A.Encoded)
    (hB : B.getContract addr = none) (h : A.merge F B bPreferPatchData = .ok R) :
    (R.versions F).entry addr = (A.versions F).entry addr := by
  cases hmine : A.getContract addr with
  | none => simp [versions, hmine, getContract_merge_eq_none h hmine hB]
  | some known =>
      obtain ⟨copy, hcopy, hclone⟩ := getContract_of_merge h known (by rw [hmine, hB]; rfl)
      exact entry_of_clone hmine hcopy hclone
        (Contract.contents_clone_of_cacheData (hA addr known hmine) hclone)

/-- A contract that is merged into a patch, with preference. -/
theorem entry_merge_prefer (hF : F.ReadsBack) {nConciliumId : Nat} (hA : A.Encoded)
    (hstored : ∀ addr stored, B.getContract addr = some stored →
      stored.conciliumId = some nConciliumId ∨
        stored.Coherent F ∧ ∃ known, A.getContract addr = some known ∧
          stored.contents F = known.contents F)
    (h : A.merge F B true = .ok R) (addr : Address) :
    (R.versions F).entry addr = (A.versions F).entry addr ∨
      (∃ contents, (R.versions F).entry addr = some (nConciliumId, contents)) ∧
        ∀ k contents, (A.versions F).entry addr = some (k, contents) → k = nConciliumId := by
  cases hhis : B.getContract addr with
  | none => exact .inl (entry_merge_of_none hA hhis h)
  | some stored =>
      obtain ⟨copy, hcopy, hclone⟩ := getContract_of_merge h stored (by
        rw [hhis]
        cases A.getContract addr <;> rfl)
      have hconcilium := Contract.conciliumId_clone hclone
      rcases hstored addr stored hhis with hown | ⟨hcoherent, known, hknown, hcontents⟩
      · refine .inr ⟨⟨_, entry_of_getContract F hcopy (hconcilium.trans hown)⟩, ?_⟩
        intro k contents hentry
        obtain ⟨known, hknown, hk, -⟩ := entry_versions.mp hentry
        rw [conciliumId_eq_of_merge h hknown hhis, hown] at hk
        exact (Option.some.inj hk).symm
      · refine .inl ?_
        have hsame := conciliumId_eq_of_merge h hknown hhis
        have hcopied := Contract.contents_clone hF hcoherent hclone
        simp [versions, hcopy, hknown, hconcilium, hsame, hcopied, hcontents]

theorem OnlyOwn.merge (hF : F.ReadsBack) {nConciliumId : Nat} (hA : A.Encoded)
    (hstored : ∀ addr stored, B.getContract addr = some stored →
      stored.conciliumId = some nConciliumId ∨
        stored.Coherent F ∧ ∃ known, A.getContract addr = some known ∧
          stored.contents F = known.contents F)
    (hlevels : ∀ k, B.levelOf k ≤ A.levelOf k) (h : A.merge F B true = .ok R) :
    OnlyOwn F nConciliumId A R where
  others addr k contents hk := by
    rcases entry_merge_prefer hF hA hstored h addr with hsame | ⟨⟨contents', hR⟩, hown⟩
    · rw [hsame]
    · rw [hR]
      refine ⟨fun heq => ?_, fun hentry => absurd (hown k contents hentry) hk⟩
      cases heq
      exact absurd rfl hk
  kept addr contents hentry := by
    rcases entry_merge_prefer hF hA hstored h addr with hsame | ⟨hR, -⟩
    · exact ⟨contents, hsame.trans hentry⟩
    · exact hR
  levels k := by rw [levelOf_merge h, max_eq_left (hlevels k)]

end Merge

end PatchDB

namespace ChainState

open PendingBlocksManager

/-- The nested calls of transactions keep the contracts of other conciliums, one after the
other in the patch that the block has so far. -/
def TxnsKeepOthers (F : Factory) (node : NodeView) (isGenesis : Bool) (conciliumId : Nat)
    (vm : Transaction → Behaviour) : List Transaction → PatchDB → Prop
  | [], _ => True
  | tx :: rest, patchState =>
      (∀ run, txRun F node (some patchState) isGenesis tx = .ok run →
        KeepsOthers F patchState conciliumId (run.events F tx (vm tx))) ∧
      ∀ fee patchThisTx merged,
        processTx F node (some patchState) isGenesis tx (vm tx) = .ok (fee, patchThisTx) →
          patchState.merge F patchThisTx true = .ok merged →
            TxnsKeepOthers F node isGenesis conciliumId vm rest merged

/-- The nested calls of a block's transactions keep the contracts of other conciliums. -/
def BlockKeepsOthers (F : Factory) (s : ChainState) (processedHeight : Option Nat)
    (vm : Transaction → Behaviour) (block : Block) : Prop :=
  ∀ patchMerged patchStart,
    s.pendingBlocks.mergePatches F block.parentHashes = .ok patchMerged →
      patchMerged.setConciliumId block.conciliumId = .ok patchStart →
        TxnsKeepOthers F ⟨s.storage, processedHeight⟩ (isGenesisBlock F block) block.conciliumId vm
          block.txns.tail patchStart

/-- The block is built upon all pending blocks of its concilium, and its nested calls keep
the contracts of other conciliums. -/
structure KeepsLatest (F : Factory) (s : ChainState) (processedHeight : Option Nat)
    (vm : Transaction → Behaviour) (block : Block) : Prop where
  follows : ∀ v b, s.pendingBlocks.dag.readObj v = some b →
    b.blockHeader.conciliumId = block.conciliumId →
      ∃ p ∈ block.parentHashes, s.pendingBlocks.dag.Reaches p v
  keeps : ∀ patchMerged patchStart,
    s.pendingBlocks.mergePatches F block.parentHashes = .ok patchMerged →
      patchMerged.setConciliumId block.conciliumId = .ok patchStart →
        TxnsKeepOthers F ⟨s.storage, processedHeight⟩ (isGenesisBlock F block) block.conciliumId vm
          block.txns.tail patchStart

/-- The pending blocks of a node that has executed one block after another, each in some
state of its storage and its main graph, and each meeting a condition. -/
inductive BuiltWhile (F : Factory)
    (condition : ChainState → Option Nat → (Transaction → Behaviour) → Block → Prop) :
    PendingBlocksManager → Prop
  | start (topStable : List Hash) : BuiltWhile F condition ⟨Dag.empty, topStable⟩
  | step {s : ChainState} {processedHeight : Option Nat} {vm : Transaction → Behaviour}
      {block : Block} {patchState : PatchDB} (hbuilt : BuiltWhile F condition s.pendingBlocks)
      (hcondition : condition s processedHeight vm block)
      (hexec : s.execBlock F processedHeight vm block = .ok (some patchState)) :
      BuiltWhile F condition (s.pendingBlocks.addBlock F block patchState)

theorem BuiltWhile.imp {F : Factory}
    {condition condition' : ChainState → Option Nat → (Transaction → Behaviour) → Block → Prop}
    (himp : ∀ s processedHeight vm block, condition s processedHeight vm block →
      condition' s processedHeight vm block) {pbm : PendingBlocksManager}
    (h : BuiltWhile F condition pbm) : BuiltWhile F condition' pbm := by
  induction h with
  | start topStable => exact .start topStable
  | step _ hcondition hexec ih => exact .step ih (himp _ _ _ _ hcondition) hexec

/-- Merges of pending patches, in any number and any order. -/
inductive Combined (F : Factory) (dag : PendingDag) : PatchDB → Prop
  | empty : Combined F dag PatchDB.empty
  | block {v : Hash} {b : PendingBlock} (hb : dag.readObj v = some b) : Combined F dag b.patch
  | merge {A B R : PatchDB} (hA : Combined F dag A) (hB : Combined F dag B)
      (hmerge : A.merge F B = .ok R) : Combined F dag R

/-- A patch is merged, on either side, with pending patches that do not touch a contract. -/
inductive MergedWithOthers (F : Factory) (dag : PendingDag) (addr : Address) (patch : PatchDB) :
    PatchDB → Prop
  | refl : MergedWithOthers F dag addr patch patch
  | left {X P R : PatchDB} (h : MergedWithOthers F dag addr patch P) (hX : Combined F dag X)
      (hnone : X.getContract addr = none) (hmerge : X.merge F P = .ok R) :
      MergedWithOthers F dag addr patch R
  | right {X P R : PatchDB} (h : MergedWithOthers F dag addr patch P) (hX : Combined F dag X)
      (hnone : X.getContract addr = none) (hmerge : P.merge F X = .ok R) :
      MergedWithOthers F dag addr patch R

/-- Where a block descends from another one, merging their patches, in either order and
after merges that do not touch a contract, gives the contract its data and its balance in
the patch of the descendant. -/
def LatestWins (F : Factory) (dag : PendingDag) : Prop :=
  ∀ v w b b', dag.Reaches v w → dag.readObj v = some b → dag.readObj w = some b' →
    ∀ addr B A R, MergedWithOthers F dag addr b.patch B → MergedWithOthers F dag addr b'.patch A →
      A.merge F B = .ok R ∨ B.merge F A = .ok R →
        (R.getContract addr).map (·.contents F) = (b.patch.getContract addr).map (·.contents F)

/-! ### Patches that follow a chronicle -/

/-- A patch shows what the conciliums have published. -/
structure Follows (F : Factory) (C : Chronicle Nat Address (Data × Amount)) (patch : PatchDB) :
    Prop where
  shown : C.Shown (patch.versions F)
  encoded : patch.Encoded
  placed : patch.ContractsPlaced

section Follows

variable {F : Factory} {C : Chronicle Nat Address (Data × Amount)} {dag : PendingDag}
  {A B R patch : PatchDB}

theorem Follows.levelled (h : Follows F C patch) : patch.Levelled := by
  intro addr contract nConciliumId hcontract hconcilium hzero
  have hpublished := (h.shown addr nConciliumId _).mp
    (PatchDB.entry_of_getContract F hcontract hconcilium)
  have hlevel : (patch.versions F).level nConciliumId = 0 := hzero
  rw [hlevel, C.published_zero] at hpublished
  cases hpublished

theorem Follows.merge (hA : Follows F C A) (hB : Follows F C B) (h : A.merge F B = .ok R) :
    Follows F C R where
  shown := hA.shown.join hB.shown
    (PatchDB.joins_merge hA.encoded hB.encoded hA.levelled hB.levelled h)
  encoded := .of_merge h
  placed := .merge h

theorem follows_empty (F : Factory) (C : Chronicle Nat Address (Data × Amount)) :
    Follows F C PatchDB.empty where
  shown addr nConciliumId contents := by
    have hlevel : (PatchDB.empty.versions F).level nConciliumId = 0 := rfl
    rw [hlevel, C.published_zero]
    simp [PatchDB.versions, PatchDB.getContract, PatchDB.empty]
  encoded := PatchDB.encoded_empty
  placed := PatchDB.contractsPlaced_empty

theorem Combined.follows (hdag : ∀ v b, dag.readObj v = some b → Follows F C b.patch)
    (h : Combined F dag patch) : Follows F C patch := by
  induction h with
  | empty => exact follows_empty F C
  | block hb => exact hdag _ _ hb
  | merge _ _ hmerge ihA ihB => exact ihA.merge ihB hmerge

theorem mergePatchesFrom_combined {arrHashes : List Hash} :
    ∀ {start result : PatchDB}, Combined F dag start →
      mergePatchesFrom F dag arrHashes start = .ok result → Combined F dag result := by
  induction arrHashes with
  | nil =>
      intro start result hstart h
      injection h with h
      exact h ▸ hstart
  | cons vertex rest ih =>
      intro start result hstart h
      rw [mergePatchesFrom] at h
      split at h
      next => exact ih hstart h
      next block hblock =>
        split at h
        next => cases h
        next merged hmerge => exact ih (.merge (.block hblock) hstart hmerge) h

/-- A level of a merge is that of a parent, or what the merge began with. -/
theorem mergePatchesFrom_levelOf_eq (k : Nat) {arrHashes : List Hash} :
    ∀ {start result : PatchDB}, mergePatchesFrom F dag arrHashes start = .ok result →
      result.levelOf k = start.levelOf k ∨
        ∃ v ∈ arrHashes, ∃ b, dag.readObj v = some b ∧ b.patch.levelOf k = result.levelOf k := by
  induction arrHashes with
  | nil =>
      intro start result h
      injection h with h
      exact .inl (by rw [h])
  | cons vertex rest ih =>
      intro start result h
      rw [mergePatchesFrom] at h
      split at h
      next =>
        refine (ih h).imp_right ?_
        rintro ⟨v, hv, hlevel⟩
        exact ⟨v, List.mem_cons_of_mem _ hv, hlevel⟩
      next block hblock =>
        split at h
        next => cases h
        next merged hmerge =>
          rcases ih h with hlevel | ⟨v, hv, hlevel⟩
          · rw [PatchDB.levelOf_merge hmerge] at hlevel
            rcases max_choice (block.patch.levelOf k) (start.levelOf k) with hmax | hmax
            · exact .inr ⟨vertex, List.mem_cons_self, block, hblock, by rw [hlevel, hmax]⟩
            · exact .inl (hlevel.trans hmax)
          · exact .inr ⟨v, List.mem_cons_of_mem _ hv, hlevel⟩

end Follows

/-! ### Executing a block -/

section Exec

variable {F : Factory} {s : ChainState} {vm : Transaction → Behaviour} {block : Block}
  {patchState : PatchDB} {processedHeight : Option Nat}

/-- The transactions of a block change only contracts of its concilium. -/
theorem execTxns_onlyOwn (hF : F.ReadsBack) {node : NodeView} {isGenesis : Bool}
    {conciliumId : Nat} {txns : List Transaction} :
    ∀ {start result : PatchDB} {fees fees' : Amount}, start.Encoded →
      start.levelOf conciliumId ≠ 0 →
        TxnsKeepOthers F node isGenesis conciliumId vm txns start →
          execTxns F node isGenesis conciliumId vm txns start fees = .ok (result, fees') →
            PatchDB.OnlyOwn F conciliumId start result ∧ result.Encoded := by
  induction txns with
  | nil =>
      intro start result fees fees' hstart hlevel hkeeps h
      cases h
      exact ⟨.refl F conciliumId start, hstart⟩
  | cons tx rest ih =>
      intro start result fees fees' hstart hlevel hkeeps h
      obtain ⟨hconcilium, fee, patchThisTx, merged, hok, hmerge, h⟩ := execTxns_cons_ok h
      have hlevels (k : Nat) : patchThisTx.levelOf k ≤ start.levelOf k := by
        rw [PatchDB.levelOf, processTx_mapConciliumLevel hok]
        cases isGenesis with
        | false => simp
        | true =>
            rw [if_pos rfl, FinMap.lookup_insert_ite]
            split
            next heq =>
              rw [heq, hconcilium]
              exact Nat.one_le_iff_ne_zero.mpr hlevel
            next => simp
      have hmerged : PatchDB.OnlyOwn F conciliumId start merged := by
        refine .merge hF hstart (fun addr stored hstored => ?_) hlevels hmerge
        have hown := processTx_ownOrKnown hF (fun run hrun => ?_) hok hstored
        · rwa [hconcilium] at hown
        · rw [hconcilium]
          exact hkeeps.1 run hrun
      obtain ⟨hrest, hencoded⟩ := ih (PatchDB.Encoded.of_merge hmerge)
        (by rwa [hmerged.levels]) (hkeeps.2 fee patchThisTx merged hok hmerge) h
      exact ⟨hmerged.trans hrest, hencoded⟩

/-- The patch of a block is one level up in the block's concilium, and shows the contracts
of other conciliums as its parents do. -/
theorem execBlock_onlyOwn (hF : F.ReadsBack)
    (hkeeps : BlockKeepsOthers F s processedHeight vm block)
    (hexec : s.execBlock F processedHeight vm block = .ok (some patchState))
    (hencoded : ∀ merged, s.pendingBlocks.mergePatches F block.parentHashes = .ok merged →
      merged.Encoded) :
    ∃ merged start, s.pendingBlocks.mergePatches F block.parentHashes = .ok merged ∧
      merged.setConciliumId block.conciliumId = .ok start ∧
      (∀ addr, (start.versions F).entry addr = (merged.versions F).entry addr) ∧
      (∀ k, start.levelOf k =
        if k = block.conciliumId then merged.levelOf block.conciliumId + 1
        else merged.levelOf k) ∧
      PatchDB.OnlyOwn F block.conciliumId start patchState ∧ patchState.Encoded := by
  obtain ⟨-, -, merged, start, txns, fees, hmerged, hstart, htxns, hlast⟩ := execBlock_ok hexec
  have hlevel (k : Nat) : start.levelOf k =
      if k = block.conciliumId then merged.levelOf block.conciliumId + 1 else merged.levelOf k :=
    PatchDB.levelOf_setConciliumId hstart
  have hcontracts : start.getContract = merged.getContract := by
    unfold PatchDB.setConciliumId at hstart
    obtain ⟨-, rfl⟩ := guard_eq_ok.mp hstart
    rfl
  have hstartEncoded : start.Encoded := by
    intro addr contract hcontract
    rw [hcontracts] at hcontract
    exact hencoded merged hmerged addr contract hcontract
  obtain ⟨hown, htxnsEncoded⟩ := execTxns_onlyOwn hF hstartEncoded
    (by rw [hlevel, if_pos rfl]; exact Nat.succ_ne_zero _)
    (hkeeps merged start hmerged hstart) htxns
  refine ⟨merged, start, hmerged, hstart, fun addr => ?_, hlevel, ?_⟩
  · simp [PatchDB.versions, hcontracts]
  · rcases hlast with ⟨-, rfl⟩ | ⟨-, hcoinbase⟩
    · exact ⟨hown, htxnsEncoded⟩
    · -- the coinbase adds coins only
      rw [processBlockCoinbaseTX_frame hcoinbase]
      exact ⟨⟨hown.others, hown.kept, hown.levels⟩, htxnsEncoded⟩

/-! ### The chronicle of pending blocks -/

/-- What holds of pending blocks that keep the latest contracts: they show what the
conciliums have published, they are not below their parents, and each level of a concilium
comes from one of its blocks. -/
structure Published (F : Factory) (C : Chronicle Nat Address (Data × Amount)) (dag : PendingDag) :
    Prop where
  follows : ∀ v b, dag.readObj v = some b → Follows F C b.patch
  levels : ∀ v w b b', dag.Edge v w → dag.readObj v = some b → dag.readObj w = some b' →
    ∀ k, b'.patch.levelOf k ≤ b.patch.levelOf k
  made : ∀ v b k, dag.readObj v = some b → b.patch.levelOf k ≠ 0 →
    ∃ w b', dag.Reaches v w ∧ dag.readObj w = some b' ∧ b'.blockHeader.conciliumId = k ∧
      b'.patch.levelOf k = b.patch.levelOf k

theorem published_empty (F : Factory) : Published F Chronicle.blank Dag.empty where
  follows v b hb := absurd (Dag.mem_iff.mpr ⟨b, hb⟩) (Dag.notMem_empty v)
  levels v _ b _ _ hb := absurd (Dag.mem_iff.mpr ⟨b, hb⟩) (Dag.notMem_empty v)
  made v b _ hb := absurd (Dag.mem_iff.mpr ⟨b, hb⟩) (Dag.notMem_empty v)

theorem Published.levelOf_le {C : Chronicle Nat Address (Data × Amount)} {dag : PendingDag}
    (h : Published F C dag) {v w : Hash} (hreach : dag.Reaches v w) {b b' : PendingBlock}
    (hb : dag.readObj v = some b) (hb' : dag.readObj w = some b') (k : Nat) :
    b'.patch.levelOf k ≤ b.patch.levelOf k := by
  induction hreach using Relation.ReflTransGen.head_induction_on generalizing b with
  | refl =>
      rw [hb] at hb'
      cases hb'
      exact le_rfl
  | head hedge _ ih =>
      obtain ⟨middle, hmiddle⟩ := Dag.mem_iff.mp hedge.mem_right
      exact (ih hmiddle).trans (h.levels _ _ _ _ hedge hb hmiddle k)

/-- What a block publishes: the contracts of its concilium that its patch has. -/
def published (F : Factory) (conciliumId : Nat) (patch : PatchDB) (addr : Address) :
    Option (Data × Amount) :=
  ((patch.versions F).entry addr).bind fun version =>
    if version.1 = conciliumId then some version.2 else none

theorem published_eq_some {conciliumId : Nat} {patch : PatchDB} {addr : Address}
    {contents : Data × Amount} :
    published F conciliumId patch addr = some contents ↔
      (patch.versions F).entry addr = some (conciliumId, contents) := by
  cases hentry : (patch.versions F).entry addr with
  | none => simp [published, hentry]
  | some version =>
      obtain ⟨k, contents'⟩ := version
      simp [published, hentry]

/-- A block that is built upon all blocks of its concilium is above all of them. -/
theorem Published.levelOf_le_merged {C : Chronicle Nat Address (Data × Amount)}
    (h : Published F C s.pendingBlocks.dag) (hcondition : KeepsLatest F s processedHeight vm block)
    {merged : PatchDB}
    (hmerged : s.pendingBlocks.mergePatches F block.parentHashes = .ok merged) {v : Hash}
    {b : PendingBlock} (hb : s.pendingBlocks.dag.readObj v = some b) :
    b.patch.levelOf block.conciliumId ≤ merged.levelOf block.conciliumId := by
  by_cases hzero : b.patch.levelOf block.conciliumId = 0
  · rw [hzero]
    exact Nat.zero_le _
  · obtain ⟨w, b', -, hb', hconcilium, hlevel⟩ := h.made v b _ hb hzero
    obtain ⟨p, hp, hreach⟩ := hcondition.follows w b' hb' hconcilium
    obtain ⟨parent, hparent⟩ := Dag.mem_iff.mp (hreach.mem_left (Dag.mem_iff.mpr ⟨b', hb'⟩))
    rw [← hlevel]
    exact (h.levelOf_le hreach hparent hb' _).trans
      ((mergePatchesFrom_levelOf hmerged block.conciliumId).2 p hp parent hparent)

/-- **One block** on the highest level of its concilium publishes the next one. -/
theorem exists_follows_addBlock (hF : F.ReadsBack) {C : Chronicle Nat Address (Data × Amount)}
    (h : ∀ v b, s.pendingBlocks.dag.readObj v = some b → Follows F C b.patch)
    (hkeeps : BlockKeepsOthers F s processedHeight vm block)
    (hhighest : ∀ merged, s.pendingBlocks.mergePatches F block.parentHashes = .ok merged →
      ∀ v b, s.pendingBlocks.dag.readObj v = some b →
        b.patch.levelOf block.conciliumId ≤ merged.levelOf block.conciliumId)
    (hexec : s.execBlock F processedHeight vm block = .ok (some patchState)) :
    ∃ C', ∀ v b, (s.pendingBlocks.addBlock F block patchState).dag.readObj v = some b →
      Follows F C' b.patch := by
  have hfollows {merged : PatchDB}
      (hmerged : s.pendingBlocks.mergePatches F block.parentHashes = .ok merged) :
      Follows F C merged := (mergePatchesFrom_combined .empty hmerged).follows h
  obtain ⟨merged, start, hmerged, -, hentry, hlevel, hown, hencoded⟩ :=
    execBlock_onlyOwn hF hkeeps hexec fun merged hmerged => (hfollows hmerged).encoded
  have hnewLevel (k : Nat) : patchState.levelOf k =
      if k = block.conciliumId then merged.levelOf block.conciliumId + 1
      else merged.levelOf k := (hown.levels k).trans (hlevel k)
  have hkept : ∀ addr m, m < merged.levelOf block.conciliumId + 1 →
      C.published block.conciliumId m addr ≠ none →
        published F block.conciliumId patchState addr ≠ none := by
    intro addr m hm hpublished
    obtain ⟨contents, hcontents⟩ := (hfollows hmerged).shown.entry_ne_none
      (C.published_mono _ addr m _ (Nat.le_of_lt_succ hm) hpublished)
    rw [← hentry] at hcontents
    obtain ⟨contents', hcontents'⟩ := hown.kept addr contents hcontents
    rw [published_eq_some.mpr hcontents']
    exact Option.some_ne_none contents'
  refine ⟨C.extend block.conciliumId (merged.levelOf block.conciliumId + 1)
    (published F block.conciliumId patchState) (Nat.succ_pos _) hkept, fun v b hb => ?_⟩
  rcases readObj_addBlock F hb with ⟨rfl, rfl⟩ | ⟨-, hb⟩
  · refine ⟨?_, hencoded, (execBlock_levelOf hexec).2.1⟩
    have hownLevel : merged.levelOf block.conciliumId + 1 ≤
        (patchState.versions F).level block.conciliumId := by
      change _ ≤ patchState.levelOf block.conciliumId
      rw [hnewLevel, if_pos rfl]
    refine Chronicle.shown_extend hownLevel (fun addr contents => published_eq_some.symm) ?_
    intro addr k contents hk
    have hotherLevel : (patchState.versions F).level k = (merged.versions F).level k :=
      (hnewLevel k).trans (if_neg hk)
    rw [hown.others addr k contents hk, hentry, hotherLevel]
    exact (hfollows hmerged).shown addr k contents
  · have hbefore := h v b hb
    refine ⟨hbefore.shown.extend ?_, hbefore.encoded, hbefore.placed⟩
    exact Nat.lt_succ_of_le (hhighest merged hmerged v b hb)

/-- **One block** that keeps the latest contracts keeps to what the conciliums publish. -/
theorem Published.addBlock (hF : F.ReadsBack) {C : Chronicle Nat Address (Data × Amount)}
    (h : Published F C s.pendingBlocks.dag) (hcondition : KeepsLatest F s processedHeight vm block)
    (hexec : s.execBlock F processedHeight vm block = .ok (some patchState)) :
    ∃ C', Published F C' (s.pendingBlocks.addBlock F block patchState).dag := by
  obtain ⟨C', hfollows⟩ := exists_follows_addBlock hF h.follows hcondition.keeps
    (fun merged hmerged v b hb => h.levelOf_le_merged hcondition hmerged hb) hexec
  obtain ⟨merged, start, hmerged, -, -, hlevel, hown, -⟩ :=
    execBlock_onlyOwn hF hcondition.keeps hexec fun merged hmerged =>
      ((mergePatchesFrom_combined .empty hmerged).follows h.follows).encoded
  have hnewLevel (k : Nat) : patchState.levelOf k =
      if k = block.conciliumId then merged.levelOf block.conciliumId + 1
      else merged.levelOf k := (hown.levels k).trans (hlevel k)
  have hnew := notMem_of_execBlock hexec
  have hold {v : Hash} {b : PendingBlock} (hb : s.pendingBlocks.dag.readObj v = some b) :
      (s.pendingBlocks.addBlock F block patchState).dag.readObj v = some b := by
    rw [PendingBlocksManager.addBlock, Dag.readObj_addVertex, if_neg]
    · exact hb
    · rintro rfl
      exact hnew (Dag.mem_iff.mpr ⟨b, hb⟩)
  refine ⟨C', hfollows, fun v w b b' hedge hb hb' k => ?_, fun v b k hb hne => ?_⟩
  · rcases Dag.edge_addVertex.mp hedge with ⟨rfl, hparent, -⟩ | hedge
    · obtain ⟨-, rfl⟩ := (readObj_addBlock F hb).resolve_right fun h => h.1 rfl
      rcases readObj_addBlock F hb' with ⟨-, rfl⟩ | ⟨-, hb'⟩
      · exact le_rfl
      · exact ((execBlock_levelOf hexec).2.2 w hparent b' hb').1 k
    · have hb := (readObj_addBlock F hb).resolve_left fun h => hnew (h.1 ▸ hedge.mem_left)
      have hb' := (readObj_addBlock F hb').resolve_left fun h => hnew (h.1 ▸ hedge.mem_right)
      exact h.levels v w b b' hedge hb.2 hb'.2 k
  · rcases readObj_addBlock F hb with ⟨rfl, rfl⟩ | ⟨-, hb⟩
    · by_cases hk : k = block.conciliumId
      · exact ⟨_, _, .refl, hb, hk.symm, rfl⟩
      · -- the level was that of a parent
        change patchState.levelOf k ≠ 0 at hne
        rw [hnewLevel, if_neg hk] at hne
        rcases mergePatchesFrom_levelOf_eq k hmerged with hzero | ⟨p, hp, parent, hparent, hsame⟩
        · exact absurd hzero hne
        · obtain ⟨w, b', hreach, hb', hconcilium, hw⟩ :=
            h.made p parent k hparent (by rwa [hsame])
          refine ⟨w, b', ?_, hold hb', hconcilium, ?_⟩
          · refine .head (Dag.edge_addVertex.mpr (.inl ⟨rfl, hp, ?_⟩)) hreach.addVertex
            exact .inl (Dag.mem_iff.mpr ⟨parent, hparent⟩)
          · change _ = patchState.levelOf k
            rw [hnewLevel, if_neg hk, hw, hsame]
    · obtain ⟨w, b', hreach, hb', hconcilium, hw⟩ := h.made v b k hb hne
      exact ⟨w, b', hreach.addVertex, hold hb', hconcilium, hw⟩

theorem exists_published_of_built (hF : F.ReadsBack) {pbm : PendingBlocksManager}
    (h : BuiltWhile F (KeepsLatest F) pbm) : ∃ C, Published F C pbm.dag := by
  induction h with
  | start topStable => exact ⟨_, published_empty F⟩
  | step _ hcondition hexec ih =>
      obtain ⟨C, hC⟩ := ih
      exact hC.addBlock hF hcondition hexec

end Exec

/-! ### The descendant wins -/

section Wins

variable {F : Factory} {C : Chronicle Nat Address (Data × Amount)} {dag : PendingDag}
  {patch P : PatchDB} {addr : Address}

theorem MergedWithOthers.follows (hdag : ∀ v b, dag.readObj v = some b → Follows F C b.patch)
    (hpatch : Follows F C patch) (h : MergedWithOthers F dag addr patch P) : Follows F C P := by
  induction h with
  | refl => exact hpatch
  | left _ hX _ hmerge ih => exact (hX.follows hdag).merge ih hmerge
  | right _ hX _ hmerge ih => exact ih.merge (hX.follows hdag) hmerge

/-- Patches that do not touch a contract leave those below some level below it. -/
theorem MergedWithOthers.levelOf_le {k n : Nat}
    (hbelow : ∀ X, Combined F dag X → X.getContract addr = none → X.levelOf k ≤ n)
    (hpatch : patch.levelOf k ≤ n) (h : MergedWithOthers F dag addr patch P) :
    patch.levelOf k ≤ P.levelOf k ∧ P.levelOf k ≤ n := by
  induction h with
  | refl => exact ⟨le_rfl, hpatch⟩
  | left _ hX hnone hmerge ih =>
      rw [PatchDB.levelOf_merge hmerge]
      exact ⟨ih.1.trans (le_max_right _ _), max_le (hbelow _ hX hnone) ih.2⟩
  | right _ hX hnone hmerge ih =>
      rw [PatchDB.levelOf_merge hmerge]
      exact ⟨ih.1.trans (le_max_left _ _), max_le ih.2 (hbelow _ hX hnone)⟩

theorem MergedWithOthers.getContract_eq_none (hpatch : patch.getContract addr = none)
    (h : MergedWithOthers F dag addr patch P) : P.getContract addr = none := by
  induction h with
  | refl => exact hpatch
  | left _ _ hnone hmerge ih => exact PatchDB.getContract_merge_eq_none hmerge hnone ih
  | right _ _ hnone hmerge ih => exact PatchDB.getContract_merge_eq_none hmerge ih hnone

/-- Patches that show the same version of a contract have it with the same contents. -/
theorem map_contents_of_entry {A B : PatchDB} {version : Nat × Data × Amount}
    (hA : (A.versions F).entry addr = some version) (hB : (B.versions F).entry addr = some version) :
    (A.getContract addr).map (·.contents F) = (B.getContract addr).map (·.contents F) := by
  obtain ⟨contract, hcontract, -, hcontents⟩ := PatchDB.entry_versions.mp hA
  obtain ⟨contract', hcontract', -, hcontents'⟩ := PatchDB.entry_versions.mp hB
  rw [hcontract, hcontract', Option.map_some, Option.map_some, hcontents, hcontents']

theorem Published.latestWins (h : Published F C dag) : LatestWins F dag := by
  intro v w b b' hreach hb hb' addr B A R hB hA hmerge
  have hbFollows := h.follows v b hb
  have hAFollows := hA.follows h.follows (h.follows w b' hb')
  have hBFollows := hB.follows h.follows hbFollows
  have hlevels := h.levelOf_le hreach hb hb'
  cases hcontract : b.patch.getContract addr with
  | none =>
      -- then the ancestor does not have the contract either
      have hancestor : b'.patch.getContract addr = none := by
        cases hold : b'.patch.getContract addr with
        | none => rfl
        | some contract =>
            obtain ⟨k, hk⟩ := Option.ne_none_iff_exists'.mp
              ((h.follows w b' hb').placed addr contract hold)
            obtain ⟨contents, hentry⟩ := (h.follows w b' hb').shown.entry_of_le hbFollows.shown
              (PatchDB.entry_of_getContract F hold hk) (hlevels k)
            obtain ⟨contract', hcontract', -⟩ := PatchDB.entry_versions.mp hentry
            rw [hcontract] at hcontract'
            cases hcontract'
      have hAnone := hA.getContract_eq_none hancestor
      have hBnone := hB.getContract_eq_none hcontract
      rcases hmerge with hmerge | hmerge
      · rw [PatchDB.getContract_merge_eq_none hmerge hAnone hBnone]
      · rw [PatchDB.getContract_merge_eq_none hmerge hBnone hAnone]
  | some contract =>
      obtain ⟨k, hk⟩ := Option.ne_none_iff_exists'.mp (hbFollows.placed addr contract hcontract)
      have hentry := PatchDB.entry_of_getContract F hcontract hk
      -- whoever does not have the contract is below the descendant
      have hbelow : ∀ X, Combined F dag X → X.getContract addr = none →
          X.levelOf k ≤ b.patch.levelOf k := by
        intro X hX hnone
        have hlt := hbFollows.shown.level_lt (hX.follows h.follows).shown hentry
          (by simp [PatchDB.versions, hnone])
        exact hlt.le
      have hAlevel := (hA.levelOf_le hbelow (hlevels k)).2
      have hBlevel := hB.levelOf_le hbelow le_rfl
      have hR : Follows F C R ∧ b.patch.levelOf k = R.levelOf k := by
        rcases hmerge with hmerge | hmerge
        · refine ⟨hAFollows.merge hBFollows hmerge, ?_⟩
          rw [PatchDB.levelOf_merge hmerge, max_eq_right (hAlevel.trans hBlevel.1)]
          exact le_antisymm hBlevel.1 hBlevel.2
        · refine ⟨hBFollows.merge hAFollows hmerge, ?_⟩
          rw [PatchDB.levelOf_merge hmerge, max_eq_left (hAlevel.trans hBlevel.1)]
          exact le_antisymm hBlevel.1 hBlevel.2
      have hRentry := hbFollows.shown.entry_eq_of_level hR.1.shown hentry hR.2
      rw [map_contents_of_entry hRentry hentry, hcontract]

end Wins

/-! ### A contract that is called from another concilium -/

section Sample

/-- A node with a contract of each of two conciliums. -/
def contractNode : ChainState where
  storage := {
    utxos :=
      let paid : UTXO := (∅ : UTXO).insert 0 ⟨100000, 3⟩
      let one : FinMap Hash UTXO := (∅ : FinMap Hash UTXO).insert 5 paid
      one.insert 6 paid
    contracts :=
      let own : FinMap Address Contract := afterGenesis.storage.contracts.insert 77 sampleContract
      own.insert 78 { sampleContract with strAddress := 78, conciliumId := some 1 } }
  pendingBlocks := ⟨Dag.empty, [1]⟩
  mainDag := afterGenesis.mainDag

/-- A transaction that invokes a contract. -/
def invokingTx (conciliumId : Nat) (txHash : Hash) (receiverAddr : Address) : Transaction :=
  let payload : TransactionPayload := {
    conciliumId
    ins := [⟨txHash, 0⟩]
    outs := [{ amount := 1000, receiverAddr, addrChangeReceiver := some 3 }] }
  { payload, claimProofs := [Factory.sample.payloadHash payload * 1000 + 3] }

/-- A block with one transaction, and its fee. -/
def invokingBlock (arrParents : List Hash) (conciliumId height fee : Nat) (tx : Transaction) :
    Block where
  header := { parentHashes := arrParents, merkleRoot := 0, conciliumId, timestamp := 0, height }
  txns := [{ payload := {
    conciliumId
    ins := [⟨zeroHash, 0⟩]
    outs := [{ amount := fee, receiverAddr := 4 }] } }, tx]

/-- A block of the contract's own concilium. -/
def ownBlock : Block := invokingBlock [1] 1 1 11010 (invokingTx 1 5 78)

/-- A block of the other concilium upon it. -/
def callingBlock : Block :=
  invokingBlock [ownBlock.hash twoConciliums] 0 2 21010 (invokingTx 0 6 77)

/-- The contract's own transaction changes its data, and so does a call from the other
contract. -/
def changeTwice (tx : Transaction) : Behaviour :=
  if tx.conciliumId = 1 then ⟨.error "", .done [123, 125, 0]⟩
  else ⟨.error "", .call false 78 none (.done [123, 125, 0, 0]) fun _ => .done Contract.emptyData⟩

/-- The node when it has executed a block. -/
def afterExecution (s : ChainState) (block : Block) (patchState : PatchDB) : ChainState where
  storage := s.storage
  pendingBlocks := s.pendingBlocks.addBlock twoConciliums block patchState
  mainDag := s.mainDag.addBlock twoConciliums (block.info twoConciliums)

/-- The patches of the contract's own block, and of a block upon it. -/
def patchesUpon (block : Block) : Except String (Option (PatchDB × PatchDB)) :=
  (contractNode.execBlock twoConciliums none changeTwice ownBlock).bind fun own =>
    own.elim (.ok none) fun own =>
      ((afterExecution contractNode ownBlock own).execBlock twoConciliums none changeTwice
        block).map fun upon => upon.map fun upon => (own, upon)

theorem patchesUpon_ok {block : Block} {own upon : PatchDB}
    (h : patchesUpon block = .ok (some (own, upon))) :
    contractNode.execBlock twoConciliums none changeTwice ownBlock = .ok (some own) ∧
      (afterExecution contractNode ownBlock own).execBlock twoConciliums none changeTwice block =
        .ok (some upon) := by
  unfold patchesUpon at h
  cases hown : contractNode.execBlock twoConciliums none changeTwice ownBlock with
  | error error => simp [hown, Except.bind] at h
  | ok patch =>
      cases patch with
      | none => simp [hown, Except.bind] at h
      | some patch =>
          rw [hown, Except.bind, Option.elim_some] at h
          cases hupon : (afterExecution contractNode ownBlock patch).execBlock twoConciliums none
              changeTwice block with
          | error error => simp [hupon, Except.map] at h
          | ok result =>
              cases result with
              | none => simp [hupon, Except.map] at h
              | some result =>
                  simp only [hupon, Except.map, Option.map_some, Except.ok.injEq,
                    Option.some.injEq, Prod.mk.injEq] at h
                  obtain ⟨rfl, rfl⟩ := h
                  exact ⟨rfl, hupon⟩

/-- The graph of both blocks. -/
def graphUpon (own upon : PatchDB) (block : Block) : PendingBlocksManager :=
  (afterExecution contractNode ownBlock own).pendingBlocks.addBlock twoConciliums block upon

theorem readObj_graphUpon {own upon : PatchDB} {block : Block}
    (hnew : ownBlock.hash twoConciliums ≠ block.hash twoConciliums) :
    (graphUpon own upon block).dag.readObj (ownBlock.hash twoConciliums) =
      some ⟨own, ownBlock.hashedHeader twoConciliums, ownBlock.isEmpty⟩ :=
  Dag.readObj_addVertex.trans ((if_neg hnew).trans (Dag.readObj_addVertex.trans (if_pos rfl)))

theorem reaches_graphUpon {own upon : PatchDB} {block : Block}
    (hparent : ownBlock.hash twoConciliums ∈ block.parentHashes) :
    (graphUpon own upon block).dag.Reaches (block.hash twoConciliums)
      (ownBlock.hash twoConciliums) := by
  refine .single (Dag.edge_addVertex.mpr (.inl ⟨rfl, hparent, .inl ?_⟩))
  exact Dag.mem_iff.mpr ⟨_, Dag.readObj_addVertex.trans (if_pos rfl)⟩

theorem builtWhile_graphUpon {own upon : PatchDB} {block : Block}
    (h : patchesUpon block = .ok (some (own, upon))) :
    BuiltWhile twoConciliums (fun s _ _ _ => s.storage = contractNode.storage)
      (graphUpon own upon block) := by
  obtain ⟨hown, hupon⟩ := patchesUpon_ok h
  exact .step (s := afterExecution contractNode ownBlock own) (.step (.start [1]) rfl hown) rfl
    hupon

theorem keepsLatest_forkedBlock :
    KeepsLatest twoConciliums afterGenesis none noContracts (forkedBlock 1) where
  follows v b hb := absurd (Dag.mem_iff.mpr ⟨b, hb⟩) (Dag.notMem_empty v)
  keeps _ _ _ _ := trivial

end Sample

end ChainState

end CilCore
