import CilCore.Node.BftViews
import CilCore.Node.VerifyBlock

/-!
# Commits and verifiable signatures

A witness collects the signatures of a block from the views it saved before the
reset, while every other node checks them with `_verifyBlockSignatures`. Both
sides agree on what a sufficient set of signatures is.
-/

namespace CilCore

open WeightedQuorum

/-- The event is a committed block. -/
def BftEmit.isCommitBlock {Patch : Type} : BftEmit Patch → Bool
  | commitBlock _ _ => true
  | _ => false

namespace BftSetup

variable {Patch : Type}

/-! ### What is committed verifies -/

/-- A signature taken from an origin was made by that origin. -/
theorem recoverAddress_of_votedSignature {F : Factory} {B : BftSetup} {views : Views}
    {hash : Hash} {addrI : Address} {signature : Signature}
    (h : B.votedSignature F views hash addrI = .ok (some signature)) :
    F.recoverAddress hash signature = .ok addrI := by
  unfold votedSignature at h
  split at h
  next h' signature' hmajority =>
    split at h
    next =>
      cases hrecover : F.recoverAddress hash signature' with
      | error error =>
        rw [hrecover] at h
        cases h
      | ok signer =>
        rw [hrecover] at h
        simp only [Except.map, Except.ok.injEq] at h
        split at h
        next heq =>
          obtain rfl := Option.some.inj h
          rw [hrecover, heq]
        next => cases h
    next => cases h
  next => cases h

/-- What one more origin adds to the gathered signatures. -/
theorem gatherSignatures_cons {F : Factory} {B : BftSetup} {views : Views} {hash : Hash}
    {addrI : Address} {rest : List Address} {arrSignatures : List Signature}
    {gatheredWeight : ℚ}
    (h : B.gatherSignatures F views hash (addrI :: rest) = .ok (arrSignatures, gatheredWeight)) :
    (B.votedSignature F views hash addrI = .ok none ∧
        B.gatherSignatures F views hash rest = .ok (arrSignatures, gatheredWeight)) ∨
      ∃ signature arrRest weightRest,
        B.votedSignature F views hash addrI = .ok (some signature) ∧
        B.gatherSignatures F views hash rest = .ok (arrRest, weightRest) ∧
        arrSignatures = signature :: arrRest ∧
        gatheredWeight = B.concilium.weight addrI + weightRest := by
  rw [gatherSignatures] at h
  cases hvoted : B.votedSignature F views hash addrI with
  | error error =>
    rw [hvoted] at h
    cases h
  | ok found =>
    rw [hvoted] at h
    cases hrest : B.gatherSignatures F views hash rest with
    | error error =>
      rw [hrest] at h
      cases h
    | ok gathered =>
      rw [hrest] at h
      cases found with
      | none => exact Or.inl ⟨rfl, h⟩
      | some signature =>
        injection h with h
        injection h with hsigs hweight
        exact Or.inr ⟨signature, gathered.1, gathered.2, rfl, rfl, hsigs.symm, hweight.symm⟩

/-- Gathered signatures weigh for a verifier what they weighed for the witness. -/
theorem gatherWeight_gatherSignatures {F : Factory} {B : BftSetup} {views : Views}
    {hash : Hash} {addrs : List Address} (hmem : ∀ a ∈ addrs, a ∈ B.arrAddresses)
    {arrSignatures : List Signature} {gatheredWeight : ℚ}
    (h : B.gatherSignatures F views hash addrs = .ok (arrSignatures, gatheredWeight)) (acc : ℚ) :
    gatherWeight F B.concilium hash arrSignatures acc = .ok (acc + gatheredWeight) := by
  induction addrs generalizing arrSignatures gatheredWeight acc with
  | nil =>
    injection h with h
    injection h with hsigs hweight
    subst hsigs hweight
    rw [gatherWeight, add_zero]
  | cons addrI rest ih =>
    have hrestmem : ∀ a ∈ rest, a ∈ B.arrAddresses :=
      fun a ha => hmem a (List.mem_cons_of_mem addrI ha)
    rcases gatherSignatures_cons h with
      ⟨-, hrest⟩ | ⟨signature, arrRest, weightRest, hvoted, hrest, rfl, rfl⟩
    · exact ih hrestmem hrest acc
    · have hmember : addrI ∈ B.concilium.getAddresses :=
        B.addresses_perm.mem_iff.mp (hmem addrI List.mem_cons_self)
      have hnext := ih hrestmem hrest (acc + B.concilium.weight addrI)
      rw [gatherWeight, recoverAddress_of_votedSignature hvoted]
      simp only [hmember, not_true_eq_false, if_false,
        B.concilium.getWitnessWeight_eq_weight hmember]
      rw [hnext, add_assoc]

/-- Signatures that the witness found sufficient verify. -/
theorem verifyBlockSignatures_of_getSignaturesForBlock {F : Factory} {B : BftSetup}
    {prevViews : Views} {block : Block} {arrSignatures : List Signature}
    (h : B.getSignaturesForBlock F prevViews (block.hash F) = .ok (some arrSignatures)) :
    verifyBlockSignatures F (some B.concilium) (block.addWitnessSignatures arrSignatures) =
      .ok () := by
  rw [getSignaturesForBlock] at h
  cases hgather : B.gatherSignatures F prevViews (block.hash F) B.arrAddresses with
  | error error =>
    rw [hgather] at h
    cases h
  | ok gathered =>
    rw [hgather] at h
    dsimp only at h
    split at h
    next => cases h
    next =>
      injection h with h
      split at h
      next hquorum =>
        obtain rfl := Option.some.inj h
        have hweight : gatherWeight F B.concilium
            ((block.addWitnessSignatures gathered.1).hash F)
            (block.addWitnessSignatures gathered.1).signatures 0 = .ok gathered.2 := by
          rw [← zero_add gathered.2]
          exact gatherWeight_gatherSignatures (fun a ha => ha) hgather 0
        have hverify : ¬ gathered.2 < B.concilium.getQuorum := not_lt.mpr hquorum
        simp only [verifyBlockSignatures, hweight, if_neg hverify]
      next => cases h

/-- Only a vote consensus on the stored block commits it. -/
theorem commitBlock_mem_voteStateHandler {F : Factory} {B : BftSetup} {value : Option Content}
    {s : BftState Patch} {block : Block} {patch : Option Patch}
    (h : .commitBlock block patch ∈ (B.voteStateHandler F value s).emitted) :
    ∃ (stored : Block) (arrSignatures : List Signature),
      block = stored.addWitnessSignatures arrSignatures ∧
      B.getSignaturesForBlock F s.prevViews (stored.hash F) = .ok (some arrSignatures) := by
  unfold voteStateHandler at h
  cases value with
  | none => simp [nextRound] at h
  | some value =>
    dsimp only at h
    split at h
    next => simp [nextRound] at h
    next =>
      split at h
      next => cases h
      next => cases h
      next stored blockHash hstored hblockHash =>
        split at h
        next =>
          split at h
          next => cases h
          next => simp [nextRound] at h
          next => simp [nextRound] at h
          next sig arrSignatures hsignatures =>
            rw [List.mem_singleton] at h
            injection h with hblock
            exact ⟨stored, sig :: arrSignatures, hblock, hsignatures⟩
        next => cases h

theorem commitBlock_notMem_nextRound {B : BftSetup} {b : Bool} {s : BftState Patch}
    {block : Block} {patch : Option Patch} :
    .commitBlock block patch ∉ (B.nextRound b s).emitted := by
  simp [nextRound]

theorem commitBlock_notMem_blockStateHandler {B : BftSetup} {isValid : Bool}
    {s : BftState Patch} {block : Block} {patch : Option Patch} :
    .commitBlock block patch ∉ (B.blockStateHandler isValid s).emitted := by
  cases isValid with
  | true => simp [blockStateHandler]
  | false => exact commitBlock_notMem_nextRound

theorem commitBlock_notMem_roundChangeHandler {B : BftSetup} {value : Option Content}
    {s : BftState Patch} {block : Block} {patch : Option Patch} :
    .commitBlock block patch ∉ (B.roundChangeHandler value s).emitted := by
  unfold roundChangeHandler
  cases value with
  | none => exact commitBlock_notMem_nextRound
  | some value =>
    dsimp only
    split
    next => simp
    next =>
      split
      next => simp
      next =>
        dsimp only
        split <;> simp

/-- Whatever event commits a block, its signatures come from the saved views. -/
theorem commitBlock_mem_handle {F : Factory} {B : BftSetup} {s : BftState Patch}
    {e : BftEvent Patch} {block : Block} {patch : Option Patch}
    (h : .commitBlock block patch ∈ (B.handle F s e).emitted) :
    ∃ (prevViews : Views) (stored : Block) (arrSignatures : List Signature),
      block = stored.addWitnessSignatures arrSignatures ∧
      B.getSignaturesForBlock F prevViews (stored.hash F) = .ok (some arrSignatures) := by
  have hchange : ∀ value (s : BftState Patch),
      .commitBlock block patch ∈ (B.stateChange F value s).emitted →
      ∃ (prevViews : Views) (stored : Block) (arrSignatures : List Signature),
        block = stored.addWitnessSignatures arrSignatures ∧
        B.getSignaturesForBlock F prevViews (stored.hash F) = .ok (some arrSignatures) := by
    intro value s h
    unfold stateChange at h
    dsimp only at h
    split at h
    · exact absurd h commitBlock_notMem_roundChangeHandler
    · exact absurd h commitBlock_notMem_blockStateHandler
    · exact ⟨_, commitBlock_mem_voteStateHandler h⟩
    · exact absurd h commitBlock_notMem_nextRound
  cases e with
  | message m =>
    simp only [handle, processMessage] at h
    split at h
    next => cases h
    next =>
      split at h
      next =>
        split at h
        next => cases h
        next => exact hchange _ _ h
      next => cases h
  | timeout => exact hchange _ _ h
  | validBlock block' patch' =>
    simp only [handle, processValidBlock] at h
    split at h
    next => cases h
    next => simp [blockStateHandler] at h
  | invalidBlock =>
    simp only [handle, invalidBlock] at h
    split at h
    next => cases h
    next => simp [blockStateHandler, nextRound] at h
  | roundSeed nNewSeed => cases h

/-- Every block committed during a run verifies against the concilium. -/
theorem verifyBlockSignatures_of_mem_emittedIn (F : Factory) (B : BftSetup)
    (s : BftState Patch) (events : List (BftEvent Patch)) {block : Block}
    {patch : Option Patch} (h : .commitBlock block patch ∈ B.emittedIn F s events) :
    verifyBlockSignatures F (some B.concilium) block = .ok () := by
  induction events generalizing s with
  | nil => cases h
  | cons e rest ih =>
    rw [emittedIn, List.mem_append] at h
    rcases h with h | h
    · obtain ⟨prevViews, stored, arrSignatures, rfl, hsignatures⟩ := commitBlock_mem_handle h
      exact verifyBlockSignatures_of_getSignaturesForBlock hsignatures
    · exact ih _ h

/-! ### What has a quorum is committed -/

/-- Every recorded vote for the block carries its author's signature of it. -/
def ValidVotes (F : Factory) (views : Views) (hash : Hash) : Prop :=
  ∀ addrJ addrI signature, views addrJ addrI = some (.vote (some (.hash hash)) signature) →
    ∃ sig, signature = some sig ∧ F.recoverAddress hash sig = .ok addrI

/-- Among valid votes a signature is taken exactly from the origins whose column
agrees on the block. -/
theorem votedSignature_of_validVotes {F : Factory} (B : BftSetup) {views : Views} {hash : Hash}
    (hvalid : ValidVotes F views hash) (addrI : Address) :
    (B.ColumnAgrees views (.vote (some (.hash hash)) none) addrI ∧
        ∃ signature, B.votedSignature F views hash addrI = .ok (some signature)) ∨
      (¬ B.ColumnAgrees views (.vote (some (.hash hash)) none) addrI ∧
        B.votedSignature F views hash addrI = .ok none) := by
  unfold ColumnAgrees Agrees votedSignature
  dsimp only
  cases hmajority : majority B.concilium (B.witnessData views addrI) with
  | none => exact Or.inr ⟨by simp, rfl⟩
  | some value =>
    obtain ⟨⟨addrJ, -, hcell⟩, -⟩ := exists_reporters hmajority
    match value with
    | .nextRound roundNo => exact Or.inr ⟨by simp [Content.calcDataHash], rfl⟩
    | .vote none signature => exact Or.inr ⟨by simp [Content.calcDataHash], rfl⟩
    | .vote (some .reject) signature => exact Or.inr ⟨by simp [Content.calcDataHash], rfl⟩
    | .vote (some (.hash h)) none =>
      refine Or.inr ⟨?_, rfl⟩
      intro hagrees
      obtain rfl : h = hash := by simpa [Content.calcDataHash] using hagrees
      obtain ⟨sig, hsig, -⟩ := hvalid addrJ addrI none hcell
      cases hsig
    | .vote (some (.hash h)) (some signature) =>
      by_cases hh : h = hash
      · subst hh
        obtain ⟨sig, hsig, hrecover⟩ := hvalid addrJ addrI (some signature) hcell
        obtain rfl := Option.some.inj hsig
        refine Or.inl ⟨by simp [Content.calcDataHash], signature, ?_⟩
        simp [hrecover, Except.map]
      · exact Or.inr ⟨by simp [Content.calcDataHash, hh], by simp [hh]⟩

/-- Among valid votes the gathered weight is the weight of the agreeing origins. -/
theorem gatherSignatures_of_validVotes {F : Factory} (B : BftSetup) {views : Views}
    {hash : Hash} (hvalid : ValidVotes F views hash) (addrs : List Address) :
    ∃ arrSignatures,
      B.gatherSignatures F views hash addrs = .ok (arrSignatures,
        weightOf B.concilium.weight (B.ColumnAgrees views (.vote (some (.hash hash)) none))
          addrs) ∧
      ((∃ a ∈ addrs, B.ColumnAgrees views (.vote (some (.hash hash)) none) a) →
        arrSignatures ≠ []) := by
  induction addrs with
  | nil => exact ⟨[], rfl, by simp⟩
  | cons addrI rest ih =>
    obtain ⟨arrSignatures, hrest, hne⟩ := ih
    rcases B.votedSignature_of_validVotes hvalid addrI with
      ⟨hagrees, signature, hvoted⟩ | ⟨hdiffers, hvoted⟩
    · refine ⟨signature :: arrSignatures, ?_, fun _ => List.cons_ne_nil _ _⟩
      rw [gatherSignatures, hvoted, hrest, weightOf_cons, if_pos hagrees]
    · refine ⟨arrSignatures, ?_, ?_⟩
      · rw [gatherSignatures, hvoted, hrest, weightOf_cons, if_neg hdiffers, zero_add]
      · rintro ⟨a, ha, hcol⟩
        rcases List.mem_cons.mp ha with rfl | ha
        · exact absurd hcol hdiffers
        · exact hne ⟨a, ha, hcol⟩

/-- The only value of a list is its majority when its author weighs a quorum. -/
theorem majority_singleton {c : ConciliumDefinition} {a : Address} (value : Content)
    (hpos : 0 < c.weight a) (hquorum : c.getQuorum ≤ c.weight a) :
    majority c [(a, some value)] = some value := by
  simp [majority, countVotes, addVote, heaviest, hpos, hquorum]

/-- A consensus on a block has a quorum of origins whose columns agree on it. A
witness that is alone skips the count, so there its own weight must suffice. -/
theorem quorum_le_of_consensus {B : BftSetup}
    (hshortcut : B.Alone → B.concilium.getQuorum ≤ B.concilium.weight B.walletAddress)
    {views : Views} {value : Content} (h : B.runConsensus views = some value) :
    (∃ a ∈ B.arrAddresses, B.ColumnAgrees views value.calcDataHash a) ∧
      B.concilium.getQuorum ≤ weightOf B.concilium.weight
        (B.ColumnAgrees views value.calcDataHash) B.arrAddresses := by
  by_cases halone : B.Alone
  · have hlist := arrAddresses_eq_of_alone halone
    have hpos : 0 < B.concilium.weight B.walletAddress :=
      B.concilium.weight_pos (B.addresses_perm.mem_iff.mp halone.2)
    rw [runConsensus_of_alone halone] at h
    have hcol : B.ColumnAgrees views value.calcDataHash B.walletAddress := by
      have hmajority : majority B.concilium (B.witnessData views B.walletAddress) =
          some value := by
        rw [witnessData, hlist, List.map_singleton, h]
        exact majority_singleton value hpos (hshortcut halone)
      simp [ColumnAgrees, Agrees, hmajority]
    refine ⟨⟨B.walletAddress, halone.2, hcol⟩, ?_⟩
    rw [hlist, weightOf_cons, if_pos hcol, weightOf_nil, add_zero]
    exact hshortcut halone
  · obtain ⟨hpos, hquorum⟩ := exists_origins halone h
    exact ⟨exists_of_weightOf_pos hpos, hquorum⟩

/-- A consensus on the stored block, on views whose votes for it are validly
signed, commits it. -/
theorem commitBlock_of_consensus {F : Factory} {B : BftSetup}
    (hshortcut : B.Alone → B.concilium.getQuorum ≤ B.concilium.weight B.walletAddress)
    {s : BftState Patch} {m : WitnessMessage} {block : Block} {signature : Option Signature}
    (hblock : s.block = some block)
    (hconsensus : B.consensusOn s (.message m) =
      some (.vote (some (.hash (block.hash F))) signature))
    (hvalid : ∀ recorded, B.recordMessage m s = some recorded →
      ValidVotes F recorded.views (block.hash F)) :
    ∃ arrSignatures, .commitBlock (block.addWitnessSignatures arrSignatures) s.patch ∈
      (B.handle F s (.message m)).emitted := by
  simp only [consensusOn, recordMessage] at hconsensus hvalid
  cases hpayload : m.payload with
  | other => simp [hpayload] at hconsensus
  | content content =>
    simp only [hpayload] at hconsensus hvalid
    by_cases hmember : m.senderAddr ∈ B.arrAddresses ∧ m.addrI ∈ B.arrAddresses
    · rw [if_pos hmember] at hconsensus hvalid
      rw [Option.bind_some] at hconsensus
      have hvotes := hvalid _ rfl
      generalize hrecorded : addViewOfNodeWithAddr m.senderAddr m.addrI content s = recorded
        at hconsensus hvotes
      obtain ⟨hsomeone, hquorum⟩ := quorum_le_of_consensus hshortcut hconsensus
      obtain ⟨arrSignatures, hgather, hne⟩ :=
        B.gatherSignatures_of_validVotes hvotes B.arrAddresses
      have hnonzero : B.concilium.getQuorum ≠ 0 := by
        have hsender := B.addresses_perm.mem_iff.mp hmember.1
        exact B.concilium.getQuorum_ne_zero (List.ne_nil_of_mem hsender)
      have hsignatures : B.getSignaturesForBlock F recorded.views (block.hash F) =
          .ok (some arrSignatures) := by
        simp only [getSignaturesForBlock, hgather, if_neg hnonzero]
        rw [if_pos]
        exact hquorum
      have hstored : recorded.block = some block := by
        rw [← hrecorded]
        exact hblock
      have hpatch : recorded.patch = s.patch := by
        rw [← hrecorded]
        rfl
      refine ⟨arrSignatures, ?_⟩
      cases arrSignatures with
      | nil => exact absurd rfl (hne hsomeone)
      | cons sig rest =>
        simp [handle, processMessage, hpayload, hmember, hrecorded, hconsensus, stateChange,
          Content.state, voteStateHandler, Content.blockHash, resetState, hstored, hsignatures,
          hpatch]
    · simp [hmember] at hconsensus

/-- A witness that is alone in a round-robin concilium with the given quorum. -/
def onlyMember (quorum : ℚ) : BftSetup where
  concilium := .rr { conciliumId := 0, addresses := [7], quorum := quorum }
  walletAddress := 7
  arrAddresses := [7]
  addresses_perm := List.Perm.refl _
  sign := fun
    | .reject => 7
    | .hash h => h * 1000 + 7

/-- A block with nothing but a coinbase. -/
def coinbaseBlock : Block where
  header := { parentHashes := [1], merkleRoot := 0, conciliumId := 0, timestamp := 0, height := 1 }
  txns := [{ payload := { conciliumId := 0, ins := [⟨zeroHash, 0⟩], outs := [] } }]

/-- The witness starts the round and executes the block. -/
def untilVote : List (BftEvent Unit) :=
  [.message (.common 7 (.content (.nextRound (some 0)))), .validBlock coinbaseBlock ()]

/-- The vote of the only member, with its signature of the block. -/
def onlyVote : WitnessMessage :=
  .common 7 (.content (.vote (some (.hash (coinbaseBlock.hash Factory.sample)))
    (some (coinbaseBlock.hash Factory.sample * 1000 + 7))))

/-- The only vote that the witness then holds is validly signed. -/
theorem validVotes_onlyMember (quorum : ℚ) (recorded : BftState Unit)
    (h : (onlyMember quorum).recordMessage onlyVote
      ((onlyMember quorum).run Factory.sample (onlyMember quorum).initialState untilVote) =
        some recorded) :
    ValidVotes Factory.sample recorded.views (coinbaseBlock.hash Factory.sample) := by
  have hviews : ((onlyMember quorum).run Factory.sample (onlyMember quorum).initialState
      untilVote).views = fun _ _ => none := by
    have hround : ((onlyMember quorum).consensusOn
        ((onlyMember quorum).initialState : BftState Unit)
        (.message (.common 7 (.content (.nextRound (some 0)))))).isSome := rfl
    exact (processValidBlock_views _ _ _ _ _).trans (handle_views_of_consensus hround)
  have hrecorded : (onlyMember quorum).recordMessage onlyVote
      ((onlyMember quorum).run Factory.sample (onlyMember quorum).initialState untilVote) =
      some (addViewOfNodeWithAddr 7 7 (.vote (some (.hash (coinbaseBlock.hash Factory.sample)))
        (some (coinbaseBlock.hash Factory.sample * 1000 + 7)))
        ((onlyMember quorum).run Factory.sample (onlyMember quorum).initialState untilVote)) :=
    rfl
  rw [hrecorded, Option.some.injEq] at h
  subst h
  intro addrJ addrI signature hcell
  rw [addViewOfNodeWithAddr_views, hviews] at hcell
  split at hcell
  next heq =>
    simp only [Option.some.injEq, Content.vote.injEq] at hcell
    refine ⟨_, hcell.2.symm, ?_⟩
    rw [heq.2]
    decide
  next => cases hcell

end BftSetup

end CilCore
