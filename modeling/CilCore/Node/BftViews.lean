import CilCore.Node.BftMajority

/-!
# The views of a witness

Views change only when a message is recorded and when they are reset. What a
consensus needs of them is a quorum of origins, each backed by a quorum of
reporters.
-/

namespace CilCore

open WeightedQuorum

namespace BftSetup

variable {Patch : Type}

/-- The majority of what the reporters say about `addrI` is in the class `hash`. -/
def ColumnAgrees (B : BftSetup) (views : Views) (hash : Content) (addrI : Address) : Prop :=
  Agrees hash (addrI, majority B.concilium (B.witnessData views addrI))

instance (B : BftSetup) (views : Views) (hash : Content) :
    DecidablePred (B.ColumnAgrees views hash) := fun _ =>
  inferInstanceAs (Decidable (Agrees _ _))

/-- The reporter `addrJ` says that `addrI` said something of the class `hash`. -/
def CellAgrees (views : Views) (hash : Content) (addrI addrJ : Address) : Prop :=
  Agrees hash (addrJ, views addrJ addrI)

instance (views : Views) (hash : Content) (addrI : Address) :
    DecidablePred (CellAgrees views hash addrI) := fun _ =>
  inferInstanceAs (Decidable (Agrees _ _))

/-- The witness is the only member of its concilium. -/
def Alone (B : BftSetup) : Prop :=
  B.concilium.getMembersCount = 1 ∧ B.walletAddress ∈ B.arrAddresses

instance (B : BftSetup) : Decidable B.Alone := inferInstanceAs (Decidable (_ ∧ _))

/-- The weight of all members. -/
def totalWeight (B : BftSetup) : ℚ :=
  weightOf B.concilium.weight (fun _ => True) B.arrAddresses

theorem arrAddresses_eq_of_alone {B : BftSetup} (h : B.Alone) :
    B.arrAddresses = [B.walletAddress] := by
  have hlen : B.arrAddresses.length = 1 := by
    rw [B.addresses_perm.length_eq, B.concilium.length_getAddresses, h.1]
  obtain ⟨a, ha⟩ := List.length_eq_one_iff.mp hlen
  have hwallet := h.2
  rw [ha, List.mem_singleton] at hwallet
  rw [ha, hwallet]

theorem runConsensus_of_alone {B : BftSetup} (halone : B.Alone) (views : Views) :
    B.runConsensus views = views B.walletAddress B.walletAddress :=
  if_pos halone

theorem runConsensus_of_not_alone {B : BftSetup} (halone : ¬ B.Alone) (views : Views) :
    B.runConsensus views = majority B.concilium
      (B.arrAddresses.map fun addrI => (addrI, majority B.concilium (B.witnessData views addrI))) :=
  if_neg halone

/-- A column with a majority has a quorum of reporters, one of whom holds the
very value. -/
theorem exists_reporters {B : BftSetup} {views : Views} {addrI : Address} {value : Content}
    (h : majority B.concilium (B.witnessData views addrI) = some value) :
    (∃ addrJ ∈ B.arrAddresses, views addrJ addrI = some value) ∧
      B.concilium.getQuorum ≤ weightOf B.concilium.weight
        (CellAgrees views value.calcDataHash addrI) B.arrAddresses := by
  obtain ⟨⟨addrJ, hsaid⟩, -, hquorum⟩ := majority_eq_some h
  rw [witnessData, List.mem_map] at hsaid
  obtain ⟨addrJ', hmem, heq⟩ := hsaid
  rw [Prod.mk.injEq] at heq
  refine ⟨⟨addrJ', hmem, heq.2⟩, ?_⟩
  rw [support, witnessData, weightOf_map] at hquorum
  exact hquorum

/-- A consensus of more than one witness has a quorum of origins. -/
theorem exists_origins {B : BftSetup} (halone : ¬ B.Alone) {views : Views} {value : Content}
    (h : B.runConsensus views = some value) :
    0 < weightOf B.concilium.weight (B.ColumnAgrees views value.calcDataHash) B.arrAddresses ∧
      B.concilium.getQuorum ≤ weightOf B.concilium.weight
        (B.ColumnAgrees views value.calcDataHash) B.arrAddresses := by
  rw [runConsensus_of_not_alone halone] at h
  obtain ⟨-, hpos, hquorum⟩ := majority_eq_some h
  rw [support, weightOf_map] at hpos hquorum
  exact ⟨hpos, hquorum⟩

/-- Two consensuses of a concilium whose quorum exceeds half of its weight have
a cell in common. -/
theorem exists_common_cell {B : BftSetup} (hhalf : B.totalWeight < 2 * B.concilium.getQuorum)
    {views₁ views₂ : Views} {value₁ value₂ : Content}
    (h₁ : B.runConsensus views₁ = some value₁) (h₂ : B.runConsensus views₂ = some value₂) :
    ∃ addrI addrJ,
      CellAgrees views₁ value₁.calcDataHash addrI addrJ ∧
        CellAgrees views₂ value₂.calcDataHash addrI addrJ := by
  by_cases halone : B.Alone
  · rw [runConsensus_of_alone halone] at h₁ h₂
    exact ⟨B.walletAddress, B.walletAddress, by simp [CellAgrees, Agrees, h₁],
      by simp [CellAgrees, Agrees, h₂]⟩
  · have hmeet : ∀ {p q : Address → Prop} [DecidablePred p] [DecidablePred q],
        B.concilium.getQuorum ≤ weightOf B.concilium.weight p B.arrAddresses →
        B.concilium.getQuorum ≤ weightOf B.concilium.weight q B.arrAddresses →
        ∃ a ∈ B.arrAddresses, p a ∧ q a := by
      intro p q _ _ hp hq
      refine exists_common (fun a _ => B.concilium.weight_nonneg a) (lt_of_lt_of_le hhalf ?_)
      rw [two_mul]
      exact add_le_add hp hq
    obtain ⟨addrI, -, hcol₁, hcol₂⟩ :=
      hmeet (exists_origins halone h₁).2 (exists_origins halone h₂).2
    obtain ⟨u₁, hu₁, hhash₁⟩ := Option.map_eq_some_iff.mp hcol₁
    obtain ⟨u₂, hu₂, hhash₂⟩ := Option.map_eq_some_iff.mp hcol₂
    obtain ⟨addrJ, -, hcell₁, hcell₂⟩ :=
      hmeet (exists_reporters hu₁).2 (exists_reporters hu₂).2
    exact ⟨addrI, addrJ, hhash₁ ▸ hcell₁, hhash₂ ▸ hcell₂⟩

/-! ### What the methods do to the views -/

@[simp] theorem nextRound_views (B : BftSetup) (b : Bool) (s : BftState Patch) :
    (B.nextRound b s).state.views = s.views := rfl

@[simp] theorem blockStateHandler_views (B : BftSetup) (isValid : Bool) (s : BftState Patch) :
    (B.blockStateHandler isValid s).state.views = s.views := by
  cases isValid <;> rfl

@[simp] theorem roundChangeHandler_views (B : BftSetup) (value : Option Content)
    (s : BftState Patch) : (B.roundChangeHandler value s).state.views = s.views := by
  unfold roundChangeHandler
  cases value with
  | none => rfl
  | some value =>
    dsimp only
    split
    next => rfl
    next => split <;> rfl

@[simp] theorem voteStateHandler_views (F : Factory) (B : BftSetup) (value : Option Content)
    (s : BftState Patch) : (B.voteStateHandler F value s).state.views = s.views := by
  unfold voteStateHandler
  cases value with
  | none => rfl
  | some value =>
    dsimp only
    split
    next => rfl
    next =>
      split
      next => rfl
      next => rfl
      next =>
        split
        next => split <;> rfl
        next => rfl

@[simp] theorem stateChange_views (F : Factory) (B : BftSetup) (value : Option Content)
    (s : BftState Patch) : (B.stateChange F value s).state.views = s.views := by
  unfold stateChange
  cases value with
  | none =>
    dsimp only
    split <;> simp
  | some value =>
    dsimp only
    split <;> simp

@[simp] theorem processValidBlock_views (F : Factory) (B : BftSetup) (block : Block)
    (patch : Patch) (s : BftState Patch) :
    (B.processValidBlock F block patch s).state.views = s.views := by
  unfold processValidBlock
  split <;> simp

@[simp] theorem invalidBlock_views (B : BftSetup) (s : BftState Patch) :
    (B.invalidBlock s).state.views = s.views := by
  unfold invalidBlock
  split <;> simp

/-- What one event does to the views: nothing, one more cell, or a reset after
the consensus that this cell completes. -/
theorem handle_views (F : Factory) (B : BftSetup) (s : BftState Patch) (e : BftEvent Patch) :
    ((B.handle F s e).state.views = s.views ∧ B.consensusOn s e = none) ∨
      ∃ witnessMsg content,
        e = .message witnessMsg ∧ witnessMsg.payload = .content content ∧
        witnessMsg.senderAddr ∈ B.arrAddresses ∧ witnessMsg.addrI ∈ B.arrAddresses ∧
        B.consensusOn s e = B.runConsensus
          (addViewOfNodeWithAddr witnessMsg.senderAddr witnessMsg.addrI content s).views ∧
        (B.handle F s e).state.views =
          if (B.consensusOn s e).isSome then fun _ _ => none
          else (addViewOfNodeWithAddr witnessMsg.senderAddr witnessMsg.addrI content s).views := by
  cases e with
  | message witnessMsg =>
    cases hpayload : witnessMsg.payload with
    | other => exact Or.inl ⟨by simp [handle, processMessage, hpayload],
        by simp [consensusOn, recordMessage, hpayload]⟩
    | content content =>
      by_cases hmember :
          witnessMsg.senderAddr ∈ B.arrAddresses ∧ witnessMsg.addrI ∈ B.arrAddresses
      · refine Or.inr ⟨witnessMsg, content, rfl, hpayload, hmember.1, hmember.2, ?_, ?_⟩
        · simp [consensusOn, recordMessage, hpayload, hmember]
        · simp only [handle, processMessage, consensusOn, recordMessage, hpayload,
            if_pos hmember, Option.bind_some]
          cases B.runConsensus
              (addViewOfNodeWithAddr witnessMsg.senderAddr witnessMsg.addrI content s).views with
          | none => rfl
          | some value => simp [resetState]
      · exact Or.inl ⟨by simp [handle, processMessage, hpayload, hmember],
          by simp [consensusOn, recordMessage, hpayload, hmember]⟩
  | timeout => exact Or.inl ⟨by simp [handle], rfl⟩
  | validBlock block patch => exact Or.inl ⟨by simp [handle], rfl⟩
  | invalidBlock => exact Or.inl ⟨by simp [handle], rfl⟩
  | roundSeed nNewSeed => exact Or.inl ⟨rfl, rfl⟩

/-- A consensus resets the views. -/
theorem handle_views_of_consensus {F : Factory} {B : BftSetup} {s : BftState Patch}
    {e : BftEvent Patch} (h : (B.consensusOn s e).isSome) :
    (B.handle F s e).state.views = fun _ _ => none := by
  rcases B.handle_views F s e with ⟨-, hnone⟩ | ⟨m, content, -, -, -, -, -, hafter⟩
  · simp [hnone] at h
  · rw [hafter, if_pos h]

/-- A cell after recording a message. -/
theorem addViewOfNodeWithAddr_views (addr addrI : Address) (dataI : Content)
    (s : BftState Patch) (addr' addrI' : Address) :
    (addViewOfNodeWithAddr addr addrI dataI s).views addr' addrI' =
      if addr' = addr ∧ addrI' = addrI then some dataI else s.views addr' addrI' := by
  by_cases haddr : addr' = addr
  · subst haddr
    by_cases haddrI : addrI' = addrI
    · subst haddrI
      simp [addViewOfNodeWithAddr]
    · simp [addViewOfNodeWithAddr, haddrI]
  · simp [addViewOfNodeWithAddr, haddr]

end BftSetup

end CilCore
