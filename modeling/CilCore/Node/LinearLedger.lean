import CilCore.Node.LedgerViews
import CilCore.Node.ConciliumForks

/-!
# The graph of blocks as a ledger

Blocks are executed in different branches at once, and one transaction may be in several
of them. What storage has in the end is nevertheless what one ledger has that makes the
payments of the stable blocks one after another, each transaction once, in the order in
which the blocks were executed.
-/

namespace CilCore

open Ledger PatchDB ChainState PendingBlocksManager

/-- The payments of a block under their hashes, that of the coinbase last. -/
def Block.deeds (F : Factory) (block : Block) : List Deed :=
  block.txns.tail.map (deedOf F) ++ [coinbaseDeed F block]

theorem Block.map_deeds (F : Factory) (block : Block) :
    (block.deeds F).map Prod.snd = block.payments F := by
  rw [deeds, List.map_append, List.map_map]
  rfl

/-- Every payment of a list spends what is shown by some others and those before it, and
nothing twice. -/
def SpendsShown (genesis : Storage) (made : Set Deed) (deeds : List Deed) : Prop :=
  ∀ before deed after, deeds = before ++ deed :: after → deed.2.inputs.Nodup ∧
    ∀ key ∈ deed.2.inputs, ∃ coins,
      Shows (baseOf genesis) (made ∪ {other | other ∈ before}) key coins

/-- Every payment of a list leaves a fee, and together they leave the fees. -/
def PaysFees (genesis : Storage) (made : Set Deed) (deeds : List Deed) (fees : Amount) : Prop :=
  ∀ value, Values genesis made value →
    fees = (deeds.map (feeBy value)).sum ∧ ∀ deed ∈ deeds, 0 < feeBy value deed

theorem SpendsShown.concat {genesis : Storage} {made : Set Deed} {deeds : List Deed}
    (h : SpendsShown genesis made deeds) {last : Deed} (hlast : last.2.inputs = []) :
    SpendsShown genesis made (deeds ++ [last]) := by
  intro before deed after heq
  obtain rfl | ⟨after, final, rfl⟩ := List.eq_nil_or_concat after
  · obtain ⟨-, hdeed⟩ := List.append_inj' heq rfl
    obtain rfl := List.head_eq_of_cons_eq hdeed
    rw [hlast]
    exact ⟨List.nodup_nil, fun _ hkey => absurd hkey List.not_mem_nil⟩
  · rw [List.concat_eq_append, ← List.cons_append, ← List.append_assoc] at heq
    exact h before deed after (List.append_inj' heq rfl).1

section Block

variable {F : Factory} {s : ChainState} {block : Block} {vm : Transaction → Behaviour}
  {node : NodeView} {conciliumId : Nat} {fees fees' : Amount} {genesis : Storage}
  {all stable mine made : Set Deed} {patch patch' patchMerged patchState : PatchDB}
  {txns : List Transaction}

theorem insert_union_mem (deed : Deed) (made : Set Deed) (deeds : List Deed) :
    insert deed made ∪ {other | other ∈ deeds} = made ∪ {other | other ∈ deed :: deeds} := by
  ext other
  simp [or_left_comm, or_assoc]

/-- The transactions of a block, after the coinbase. By induction on those that are still
to come. -/
theorem execTxns_tells
    (h : execTxns F node false conciliumId vm txns patch fees = .ok (patch', fees'))
    (htells : Tells genesis stable mine made patch) (hplays : Plays genesis all made)
    (hstores : Stores genesis stable node.storage) (honly : made ⊆ stable ∪ mine)
    (hplain : ∀ addr, patch.getContract addr = none)
    (hdeeds : ∀ tx ∈ txns, deedOf F tx ∈ all)
    (hpayments : ∀ tx ∈ txns, IsPayment F node.storage PatchDB.empty tx) :
    Tells genesis stable (mine ∪ {deed | deed ∈ txns.map (deedOf F)})
        (made ∪ {deed | deed ∈ txns.map (deedOf F)}) patch' ∧
      Plays genesis all (made ∪ {deed | deed ∈ txns.map (deedOf F)}) ∧
      (∀ addr, patch'.getContract addr = none) ∧
      SpendsShown genesis made (txns.map (deedOf F)) ∧
      PaysFees genesis (made ∪ {deed | deed ∈ txns.map (deedOf F)}) (txns.map (deedOf F))
        (fees' - fees) := by
  induction txns generalizing patch fees mine made with
  | nil =>
      cases h
      refine ⟨by simpa using htells, by simpa using hplays, hplain, ?_, fun value _ => by simp⟩
      intro before deed after heq
      simp at heq
  | cons tx rest ih =>
      obtain ⟨-, fee, patchThisTx, patchNext, hprocess, hmerge, h⟩ := execTxns_cons_ok h
      have hdeed := hdeeds tx List.mem_cons_self
      have hpayment : IsPayment F node.storage patch tx :=
        ⟨(hpayments tx List.mem_cons_self).creation, fun addr _ => hplain addr,
          (hpayments tx List.mem_cons_self).notStored⟩
      obtain ⟨hinputs, -, -⟩ := htells.processTx_new hplays hstores honly hdeed hpayment hprocess
      obtain ⟨hnext, hplaysNext, hplainNext⟩ :=
        htells.mergeTx hplays hstores honly hdeed hpayment hprocess hmerge
      have honlyNext : insert (deedOf F tx) made ⊆ stable ∪ insert (deedOf F tx) mine := by
        rw [Set.union_insert]
        exact Set.insert_subset_insert honly
      obtain ⟨hlast, hplaysLast, hplainLast, hshown, hfees⟩ := ih h hnext hplaysNext honlyNext
        (fun addr => hplainNext addr (hplain addr))
        (fun other hother => hdeeds other (List.mem_cons_of_mem _ hother))
        fun other hother => hpayments other (List.mem_cons_of_mem _ hother)
      rw [insert_union_mem] at hplaysLast hfees
      rw [insert_union_mem, insert_union_mem] at hlast
      refine ⟨hlast, hplaysLast, hplainLast, ?_, fun value hvalue => ?_⟩
      rotate_left
      · obtain ⟨hsum, hpos⟩ := hfees value hvalue
        have hfee := htells.fee_eq hplays hstores honly hdeed hpayment hprocess
          (hvalue.mono Set.subset_union_left)
        have hfirst := fee_pos_of_processTx hpayment hprocess
        rw [hfee] at hsum hfirst
        rw [List.map_cons, List.map_cons, List.sum_cons, ← hsum]
        refine ⟨by ring, ?_⟩
        exact List.forall_mem_cons.mpr ⟨hfirst, hpos⟩
      intro before deed after heq
      cases before with
      | nil =>
          rw [List.map_cons, List.nil_append, List.cons.injEq] at heq
          obtain ⟨rfl, -⟩ := heq
          refine ⟨(unspent_of_processTx hpayment hprocess).1, ?_⟩
          rw [show {other : Deed | other ∈ []} = (∅ : Set Deed) by simp, Set.union_empty]
          exact hinputs
      | cons first before =>
          rw [List.map_cons, List.cons_append, List.cons.injEq] at heq
          obtain ⟨rfl, heq⟩ := heq
          rw [← insert_union_mem]
          exact hshown before deed after heq

theorem Tells.of_same {mine made : Set Deed} (h : Tells genesis stable mine made patch)
    (hcoins : patch'.coins = patch.coins) (hspent : patch'.mapSpentUtxos = patch.mapSpentUtxos) :
    Tells genesis stable mine made patch' := by
  have hutxo (hash : Hash) : patch'.getUtxo hash = patch.getUtxo hash := by
    rw [PatchDB.getUtxo, hcoins, ← PatchDB.getUtxo]
  have houtputs (hash : Hash) : patch'.getSpentOutputs hash = patch.getSpentOutputs hash := by
    rw [getSpentOutputs, hspent, ← getSpentOutputs]
  constructor
  case recorded => exact h.recorded.other hcoins hspent
  case stable_sub => exact h.stable_sub
  case mine_sub => exact h.mine_sub
  case shows => simpa only [hutxo] using h.shows
  case known => simpa only [hutxo] using h.known
  case silent => simpa only [hutxo] using h.silent
  case records => simpa only [houtputs] using h.records
  case spends => simpa only [houtputs] using h.spends

/-- What the coinbase is checked for. -/
theorem verified_of_processBlockCoinbaseTX {blockFees : Amount}
    (h : processBlockCoinbaseTX F block blockFees patch = .ok patch') :
    block.coinbase.isCoinbase = true ∧ (block.coinbase.amountOut : Amount) = blockFees := by
  unfold processBlockCoinbaseTX at h
  split at h
  next => cases h
  next hverified =>
    unfold Transaction.verifyCoinbase at hverified
    split at hverified
    next => cases hverified
    next hcheck => exact ⟨by simpa using hcheck, not_not.mp (guard_eq_ok.mp hverified).1⟩

theorem isCoinbase_of_execBlock {processedHeight : Option Nat}
    (hgenesis : isGenesisBlock F block = false)
    (h : s.execBlock F processedHeight vm block = .ok (some patchState)) :
    block.coinbase.isCoinbase = true := by
  obtain ⟨-, -, _, _, _, _, -, -, -, hlast⟩ := execBlock_ok h
  obtain ⟨htrue, -⟩ | ⟨-, hcoinbase⟩ := hlast
  · rw [hgenesis] at htrue
    cases htrue
  · exact (verified_of_processBlockCoinbaseTX hcoinbase).1

/-- **A block of payments**, over the patches of its parents. -/
theorem ViewOf.execBlock {processedHeight : Option Nat} (hgenesis : isGenesisBlock F block = false)
    (hmerged : s.pendingBlocks.mergePatches F block.parentHashes = .ok patchMerged)
    (hview : ViewOf genesis all stable mine patchMerged) (hstores : Stores genesis stable s.storage)
    (hdeeds : ∀ deed ∈ block.deeds F, deed ∈ all)
    (hpayments : ∀ tx ∈ block.txns.tail, IsPayment F s.storage PatchDB.empty tx)
    (hnew : (coinbaseDeed F block).2.outputs = [] ∨
      coinbaseDeed F block ∉ (stable ∪ mine) ∪ {deed | deed ∈ block.txns.tail.map (deedOf F)})
    (h : s.execBlock F processedHeight vm block = .ok (some patchState)) :
    ViewOf genesis all stable (mine ∪ {deed | deed ∈ block.deeds F}) patchState ∧
      SpendsShown genesis (stable ∪ mine) (block.deeds F) ∧
      PaysFees genesis ((stable ∪ mine) ∪ {deed | deed ∈ block.txns.tail.map (deedOf F)})
        (block.txns.tail.map (deedOf F))
        ((coinbaseDeed F block).2.outputs.map fun output => output.2.amount).sum := by
  obtain ⟨-, -, merged, patchStart, patchTxns, blockFees, hparents, hstart, htxns, hlast⟩ :=
    execBlock_ok h
  obtain rfl : patchMerged = merged := Except.ok.inj (hmerged.symm.trans hparents)
  rw [hgenesis] at htxns hlast
  obtain ⟨hfalse, -⟩ | ⟨-, hcoinbase⟩ := hlast
  · cases hfalse
  obtain ⟨hcoins, hspent, hcontracts⟩ : patchStart.coins = patchMerged.coins ∧
      patchStart.mapSpentUtxos = patchMerged.mapSpentUtxos ∧
      patchStart.mapContractStates = patchMerged.mapContractStates := by
    unfold PatchDB.setConciliumId at hstart
    obtain ⟨-, rfl⟩ := guard_eq_ok.mp hstart
    exact ⟨rfl, rfl, rfl⟩
  have hmem : coinbaseDeed F block ∈ all := hdeeds _ (by simp [Block.deeds])
  obtain ⟨htells, hplays, hplain, hshown, hfees⟩ := execTxns_tells htxns
    (hview.tells.of_same hcoins hspent) hview.plays hstores Set.Subset.rfl
    (fun addr => by
      rw [getContract, hcontracts, ← getContract]
      exact hview.plain addr)
    (fun tx htx => hdeeds _ (List.mem_append_left _ (List.mem_map_of_mem htx))) hpayments
  have hlast := htells.coinbase hplays hmem hnew hcoinbase
  have hplaysLast := hplays.insert_coinbase hmem
  have hinsert (made : Set Deed) :
      insert (coinbaseDeed F block) (made ∪ {deed | deed ∈ block.txns.tail.map (deedOf F)}) =
        made ∪ {deed | deed ∈ block.deeds F} := by
    ext deed
    simp [Block.deeds, or_comm, or_assoc]
  rw [hinsert, Set.union_assoc] at hplaysLast
  rw [hinsert, hinsert, Set.union_assoc] at hlast
  refine ⟨⟨hlast, hplaysLast, fun addr => ?_⟩, hshown.concat rfl, ?_⟩
  · rw [getContract, processBlockCoinbaseTX_frame hcoinbase]
    exact hplain addr
  · rw [sub_zero] at hfees
    rwa [coinbaseDeed, sum_entriesFrom, sum_getOutCoins, (verified_of_processBlockCoinbaseTX hcoinbase).2]

end Block

/-! ### Runs of payments -/

/-- The block is final for the node. -/
def ChainState.IsFinal (s : ChainState) (hash : Hash) : Prop :=
  (s.mainDag.getBlockInfo hash).any (·.isFinal) = true

instance (s : ChainState) (hash : Hash) : Decidable (s.IsFinal hash) :=
  inferInstanceAs (Decidable (_ = true))

/-- The payments of the blocks whose hash is of a kind. -/
def deedsWhere (F : Factory) (blocks : List Block) (p : Hash → Prop) : Set Deed :=
  {deed | ∃ block ∈ blocks, p (block.hash F) ∧ deed ∈ block.deeds F}

/-- The transactions of some blocks as their hashes name them: a hash belongs to one payload,
is not among those of the start, and a coinbase is not taken for a transaction. -/
structure NamesOnce (F : Factory) (start : Storage) (blocks : List Block) : Prop where
  unknown : ∀ block ∈ blocks, ∀ tx ∈ block.txns, start.utxos.lookup (tx.hash F) = none
  named : ∀ block ∈ blocks, ∀ tx ∈ block.txns, ∀ other ∈ blocks, ∀ tx' ∈ other.txns,
    tx.hash F = tx'.hash F → tx.payload = tx'.payload
  regular : ∀ block ∈ blocks, ∀ tx ∈ block.txns.tail, tx.isCoinbase = false

/-- The block is new and has only payments. Its coinbase, if it pays anything, has a new hash,
and the branches that it makes the node roll back share no block with others. -/
structure PaysOnly (F : Factory) (J : Dagjs) (start : Storage) (blocks : List Block)
    (s : ChainState) (vm : Transaction → Behaviour) (block : Block) : Prop where
  genesis : isGenesisBlock F block = false
  new : s.isBlockExecuted (block.hash F) = false
  payments : ∀ tx ∈ block.txns.tail, IsPayment F s.storage PatchDB.empty tx
  names : NamesOnce F start (blocks ++ [block])
  coinbase : (coinbaseDeed F block).2.outputs = [] ∨
    ∀ other ∈ blocks, ∀ tx ∈ other.txns, tx.hash F ≠ block.coinbase.hash F
  disjoint : ∀ patchState,
    ({ s with mainDag := s.mainDag.addBlock F (block.info F).markAsInFlight } :
      ChainState).execBlock F (some block.getHeight) vm block = .ok (some patchState) →
    BranchesDisjoint F J (s.pendingBlocks.addBlock F block patchState) (block.hash F)
      (s.storage.getConciliumsCount F)

/-- The blocks that a node has executed since the start, in this order, without those that
were rolled back. -/
inductive LedgerRun (F : Factory) (J : Dagjs) (start : ChainState) : List Block → ChainState → Prop
  | start : LedgerRun F J start [] start
  | step {blocks : List Block} {s s' : ChainState} {vm : Transaction → Behaviour} {block : Block}
      (hrun : LedgerRun F J start blocks s) (hpays : PaysOnly F J start.storage blocks s vm block)
      (hstep : s.processBlock F J vm block = .ok s') :
      LedgerRun F J start
        ((blocks ++ [block]).filter fun block => s'.isBlockExecuted (block.hash F)) s'

section Names

variable {F : Factory} {start : Storage} {blocks blocks' : List Block} {block : Block}
  {deed : Deed} {p p' : Hash → Prop}

theorem deedsWhere_mono (hsub : ∀ block ∈ blocks, block ∈ blocks')
    (hp : ∀ block ∈ blocks, p (block.hash F) → p' (block.hash F)) :
    deedsWhere F blocks p ⊆ deedsWhere F blocks' p' :=
  fun _ ⟨block, hblock, hhash, hdeed⟩ => ⟨block, hsub block hblock, hp block hblock hhash, hdeed⟩

theorem NamesOnce.mono (h : NamesOnce F start blocks) (hsub : ∀ block ∈ blocks', block ∈ blocks) :
    NamesOnce F start blocks' where
  unknown block hblock := h.unknown block (hsub block hblock)
  named block hblock tx htx other hother := h.named block (hsub block hblock) tx htx other
    (hsub other hother)
  regular block hblock := h.regular block (hsub block hblock)

/-- A payment of a block is the one of a transaction, or of its coinbase. -/
theorem mem_deeds : deed ∈ block.deeds F ↔
    (∃ tx ∈ block.txns.tail, deedOf F tx = deed) ∨ deed = coinbaseDeed F block := by
  rw [Block.deeds, List.mem_append, List.mem_map, List.mem_singleton]

theorem exists_tx_of_mem_deeds (h : deed ∈ block.deeds F) : ∃ tx ∈ block.txns, deed.1 = tx.hash F := by
  obtain ⟨tx, htx, rfl⟩ | rfl := mem_deeds.mp h
  · exact ⟨tx, List.mem_of_mem_tail htx, rfl⟩
  · exact ⟨block.coinbase, List.head_mem _, rfl⟩

theorem deed_outputs (h : deed ∈ block.deeds F) :
    ∃ outs, deed.2.outputs = entriesFrom deed.1 0 outs := by
  obtain ⟨tx, -, rfl⟩ | rfl := mem_deeds.mp h
  · exact ⟨tx.getOutCoins, rfl⟩
  · exact ⟨block.coinbase.getOutCoins, rfl⟩

theorem isCoinbase_congr {tx tx' : Transaction} (h : tx.payload = tx'.payload) :
    tx.isCoinbase = tx'.isCoinbase := by
  rw [Transaction.isCoinbase, Transaction.isCoinbase, Transaction.inputs, Transaction.inputs, h]

theorem deedOf_congr {tx tx' : Transaction} (h : tx.payload = tx'.payload) :
    deedOf F tx = deedOf F tx' := by
  simp only [deedOf, paymentOf, Transaction.hash, Transaction.inputs, Transaction.getOutCoins,
    Transaction.outputs, h]

theorem coinbaseDeed_congr {block' : Block} (h : block.coinbase.payload = block'.coinbase.payload) :
    coinbaseDeed F block = coinbaseDeed F block' := by
  simp only [coinbaseDeed, Transaction.hash, Transaction.getOutCoins, Transaction.outputs, h]

/-- One hash, one payment. -/
theorem NamesOnce.sound (h : NamesOnce F start blocks)
    (hcoinbase : ∀ block ∈ blocks, block.coinbase.isCoinbase = true) :
    Sound start (deedsWhere F blocks fun _ => True) where
  named := by
    constructor
    case unique =>
      rintro deed ⟨block, hblock, -, hdeed⟩ other ⟨block', hblock', -, hother⟩ heq
      have hmem : block.coinbase ∈ block.txns := List.head_mem _
      have hmem' : block'.coinbase ∈ block'.txns := List.head_mem _
      obtain ⟨tx, htx, rfl⟩ | rfl := mem_deeds.mp hdeed
      · obtain ⟨tx', htx', rfl⟩ | rfl := mem_deeds.mp hother
        · exact deedOf_congr (h.named block hblock tx (List.mem_of_mem_tail htx) block' hblock' tx'
            (List.mem_of_mem_tail htx') heq)
        · have hpayload := h.named block hblock tx (List.mem_of_mem_tail htx) block' hblock'
            block'.coinbase hmem' heq
          have hcoin := hcoinbase block' hblock'
          rw [← isCoinbase_congr hpayload, h.regular block hblock tx htx] at hcoin
          cases hcoin
      · obtain ⟨tx', htx', rfl⟩ | rfl := mem_deeds.mp hother
        · have hpayload := h.named block hblock block.coinbase hmem block' hblock' tx'
            (List.mem_of_mem_tail htx') heq
          have hcoin := hcoinbase block hblock
          rw [isCoinbase_congr hpayload, h.regular block' hblock' tx' htx'] at hcoin
          cases hcoin
        · exact coinbaseDeed_congr (h.named block hblock block.coinbase hmem block' hblock'
            block'.coinbase hmem' heq)
    case placed =>
      rintro deed ⟨block, -, -, hdeed⟩ key hkey
      obtain ⟨outs, houts⟩ := deed_outputs hdeed
      rw [houts] at hkey
      exact (entriesFrom_keys key hkey).1
    case distinct =>
      rintro deed ⟨block, -, -, hdeed⟩
      obtain ⟨outs, houts⟩ := deed_outputs hdeed
      rw [houts]
      exact entriesFrom_distinct
    case apart =>
      rintro deed ⟨block, hblock, -, hdeed⟩ key hkey heq
      obtain ⟨tx, htx, hname⟩ := exists_tx_of_mem_deeds hdeed
      obtain ⟨coins, hcoins⟩ := FinMap.mem_keys_iff.mp hkey
      rw [lookup_baseOf, heq, hname, h.unknown block hblock tx htx] at hcoins
      cases hcoins
  unknown := by
    rintro deed ⟨block, hblock, -, hdeed⟩
    obtain ⟨tx, htx, hname⟩ := exists_tx_of_mem_deeds hdeed
    rw [hname]
    exact h.unknown block hblock tx htx

end Names

/-! ### What holds in every run -/

/-- What the payments of a block spend is there at the start, or was made before in the block,
in a stable block or below it. -/
def Ordered (F : Factory) (start : Storage) (s : ChainState) (blocks : List Block) : Prop :=
  ∀ before block after, blocks = before ++ block :: after →
    ∀ earlier deed later, block.deeds F = earlier ++ deed :: later → ∀ key ∈ deed.2.inputs,
      key ∈ (baseOf start).keys ∨
        ∃ other, key ∈ other.2.outputs.map Prod.fst ∧
          (other ∈ earlier ∨ other ∈ deedsWhere F before fun hash =>
            s.IsFinal hash ∨ s.pendingBlocks.dag.Reaches (block.hash F) hash)

/-- The node and the blocks that it has executed. -/
structure Linear (F : Factory) (start : Storage) (blocks : List Block) (s : ChainState) : Prop where
  acyclic : s.pendingBlocks.dag.Acyclic
  alive : ∀ block ∈ blocks, s.IsFinal (block.hash F) ∨ block.hash F ∈ s.pendingBlocks.dag
  known : ∀ v ∈ s.pendingBlocks.dag, ∃ info, s.mainDag.getBlockInfo v = some info ∧
    info.getHash F = v ∧ info.isFinal = false
  names : NamesOnce F start blocks
  coinbases : ∀ block ∈ blocks, block.coinbase.isCoinbase = true
  nodup : ∀ block ∈ blocks, ∀ deed ∈ block.deeds F, deed.2.inputs.Nodup
  stores : Stores start (deedsWhere F blocks s.IsFinal) s.storage
  stable : Plays start (deedsWhere F blocks fun _ => True) (deedsWhere F blocks s.IsFinal)
  views : ∀ v b, s.pendingBlocks.dag.readObj v = some b →
    ViewOf start (deedsWhere F blocks fun _ => True) (deedsWhere F blocks s.IsFinal)
      (deedsWhere F blocks (s.pendingBlocks.dag.Reaches v)) b.patch
  ordered : Ordered F start s blocks
  priced : ∀ block ∈ blocks, PaysFees start (deedsWhere F blocks fun _ => True)
    (block.txns.tail.map (deedOf F))
    ((coinbaseDeed F block).2.outputs.map fun output => output.2.amount).sum
  fresh : blocks.Pairwise fun block other => coinbaseDeed F block = coinbaseDeed F other →
    (coinbaseDeed F other).2.outputs = []

section Start

variable {F : Factory} {start : ChainState}

theorem stores_start (genesis : Storage) : Stores genesis ∅ genesis where
  shows key coins := by simp [Shows]
  known hash utxo hutxo := .inl (by rw [hutxo]; rfl)

theorem linear_start (hstart : ∀ v, v ∉ start.pendingBlocks.dag) :
    Linear F start.storage [] start := by
  have hnone (p : Hash → Prop) : deedsWhere F [] p = ∅ := by simp [deedsWhere]
  constructor
  case acyclic =>
    intro v hv
    obtain ⟨w, hedge, -⟩ := Relation.TransGen.head'_iff.mp hv
    exact hstart v hedge.mem_left
  case alive => simp
  case known => exact fun v hv => absurd hv (hstart v)
  case names => exact ⟨by simp, by simp, by simp⟩
  case coinbases => simp
  case nodup => simp
  case stores =>
    rw [hnone]
    exact stores_start _
  case stable =>
    rw [hnone, hnone]
    exact ⟨⟨⟨by simp, by simp, by simp, by simp⟩, by simp⟩, Set.Subset.rfl, by simp [NoDoubleSpend],
      by simp [Grounded]⟩
  case views => exact fun v b hb => absurd (Dag.mem_iff.mpr ⟨b, hb⟩) (hstart v)
  case ordered =>
    intro before block after heq
    simp at heq
  case priced => simp
  case fresh => exact List.Pairwise.nil

end Start

section AddBlock

variable {F : Factory} {J : Dagjs} {start : Storage} {blocks : List Block} {s s' : ChainState}
  {block : Block} {patchState : PatchDB} {vm : Transaction → Behaviour}

/-- The info of a block that arrives does not make it final. -/
theorem Linear.arrive (h : Linear F start blocks s)
    (hnew : s.isBlockExecuted (block.hash F) = false) :
    Linear F start blocks { s with mainDag := s.mainDag.addBlock F (block.info F).markAsInFlight } := by
  simp only [isBlockExecuted, hasBlock, Bool.or_eq_false_iff, decide_eq_false_iff_not] at hnew
  obtain ⟨hnotFinal, hnotPending⟩ := hnew
  have hinfo (hash : Hash) := MainDag.getBlockInfo_addBlock F (block.info F).markAsInFlight
    s.mainDag hash
  have hhash : (block.info F).markAsInFlight.getHash F = block.hash F := rfl
  have hfinal : ChainState.IsFinal
      { s with mainDag := s.mainDag.addBlock F (block.info F).markAsInFlight } = s.IsFinal := by
    funext hash
    rw [ChainState.IsFinal, ChainState.IsFinal, hinfo, hhash]
    split
    next heq =>
      subst heq
      rw [hnotFinal]
      simp [BlockInfo.isFinal, BlockInfo.markAsInFlight]
    next => rfl
  constructor
  case acyclic => exact h.acyclic
  case alive =>
    rw [hfinal]
    exact h.alive
  case known =>
    intro v hv
    have hne : v ≠ block.hash F := fun heq => hnotPending (heq ▸ hv)
    rw [hinfo, hhash, if_neg hne]
    exact h.known v hv
  case names => exact h.names
  case coinbases => exact h.coinbases
  case nodup => exact h.nodup
  case stores =>
    rw [hfinal]
    exact h.stores
  case stable =>
    rw [hfinal]
    exact h.stable
  case views =>
    rw [hfinal]
    exact h.views
  case ordered =>
    intro before
    rw [hfinal]
    exact h.ordered before
  case priced => exact h.priced
  case fresh => exact h.fresh

/-- A block reaches itself, and what its pending parents reach. -/
theorem deedsWhere_reaches_new (hself : block.hash F ∉ block.parentHashes)
    (hnew : block.hash F ∉ s.pendingBlocks.dag)
    (hblocks : ∀ other ∈ blocks, other.hash F ≠ block.hash F) :
    deedsWhere F (blocks ++ [block])
        ((s.pendingBlocks.addBlock F block patchState).dag.Reaches (block.hash F)) =
      {deed | ∃ p ∈ block.parentHashes, p ∈ s.pendingBlocks.dag ∧
        deed ∈ deedsWhere F blocks (s.pendingBlocks.dag.Reaches p)} ∪
      {deed | deed ∈ block.deeds F} := by
  ext deed
  constructor
  · rintro ⟨other, hother, hreach, hdeed⟩
    obtain hother | hother := List.mem_append.mp hother
    · obtain heq | ⟨p, hp, hmem, hreach, -⟩ := Dag.reaches_addVertex_new hnew hself hreach
      · exact absurd heq (hblocks other hother)
      · exact .inl ⟨p, hp, hmem, other, hother, hreach, hdeed⟩
    · rw [List.mem_singleton.mp hother] at hdeed
      exact .inr hdeed
  · rintro (⟨p, hp, hmem, other, hother, hreach, hdeed⟩ | hdeed)
    · refine ⟨other, List.mem_append_left _ hother, ?_, hdeed⟩
      exact (Relation.ReflTransGen.single (Dag.edge_addVertex.mpr
        (.inl ⟨rfl, hp, .inl hmem⟩))).trans (Dag.Reaches.addVertex hreach)
    · exact ⟨block, List.mem_append_right _ (List.mem_singleton_self _), .refl, hdeed⟩

theorem deedsWhere_reaches_old {v : Hash} (hv : v ∈ s.pendingBlocks.dag)
    (hnew : block.hash F ∉ s.pendingBlocks.dag) :
    deedsWhere F (blocks ++ [block]) ((s.pendingBlocks.addBlock F block patchState).dag.Reaches v) =
      deedsWhere F blocks (s.pendingBlocks.dag.Reaches v) := by
  ext deed
  constructor
  · rintro ⟨other, hother, hreach, hdeed⟩
    obtain ⟨hreach, hmem⟩ := Dag.reaches_addVertex_of_mem hnew hv hreach
    obtain hother | hother := List.mem_append.mp hother
    · exact ⟨other, hother, hreach, hdeed⟩
    · rw [List.mem_singleton.mp hother] at hmem
      exact absurd hmem hnew
  · rintro ⟨other, hother, hreach, hdeed⟩
    exact ⟨other, List.mem_append_left _ hother, hreach.addVertex, hdeed⟩

/-- A block whose transactions are paid for in a view joins the pending blocks. -/
theorem Linear.addBlock (hF : F.HashesHeaders) (h : Linear F start blocks s)
    (hgenesis : isGenesisBlock F block = false)
    (hinfo : ∃ info, s.mainDag.getBlockInfo (block.hash F) = some info ∧
      info.getHash F = block.hash F ∧ info.isFinal = false)
    (hpayments : ∀ tx ∈ block.txns.tail, IsPayment F s.storage PatchDB.empty tx)
    (hnames : NamesOnce F start (blocks ++ [block]))
    (hcoinbase : (coinbaseDeed F block).2.outputs = [] ∨
      ∀ other ∈ blocks, ∀ tx ∈ other.txns, tx.hash F ≠ block.coinbase.hash F)
    (hexec : s.execBlock F (some block.getHeight) vm block = .ok (some patchState)) :
    Linear F start (blocks ++ [block])
      { s with pendingBlocks := s.pendingBlocks.addBlock F block patchState } := by
  have hnew := notMem_of_execBlock hexec
  have hself : block.hash F ∉ block.parentHashes := hF.notMem_parents (block.hashedHeader F)
  have hnotFinal : ¬ s.IsFinal (block.hash F) := by
    obtain ⟨info, hlookup, -, hflag⟩ := hinfo
    simp [ChainState.IsFinal, hlookup, hflag]
  have hblocks : ∀ other ∈ blocks, other.hash F ≠ block.hash F := by
    intro other hother heq
    obtain hfinal | hpending := h.alive other hother
    · exact hnotFinal (heq ▸ hfinal)
    · exact hnew (heq ▸ hpending)
  have hcoinbases : ∀ other ∈ blocks ++ [block], other.coinbase.isCoinbase = true := by
    intro other hother
    obtain hother | hother := List.mem_append.mp hother
    · exact h.coinbases other hother
    · rw [List.mem_singleton.mp hother]
      exact isCoinbase_of_execBlock hgenesis hexec
  have hsound := hnames.sound hcoinbases
  have hstable : deedsWhere F (blocks ++ [block]) s.IsFinal = deedsWhere F blocks s.IsFinal := by
    ext deed
    constructor
    · rintro ⟨other, hother, hfinal, hdeed⟩
      obtain hother | hother := List.mem_append.mp hother
      · exact ⟨other, hother, hfinal, hdeed⟩
      · rw [List.mem_singleton.mp hother] at hfinal
        exact absurd hfinal hnotFinal
    · exact fun hdeed => deedsWhere_mono (fun _ => List.mem_append_left _) (fun _ _ => id) hdeed
  have hall : deedsWhere F blocks (fun _ => True) ⊆ deedsWhere F (blocks ++ [block]) fun _ => True :=
    deedsWhere_mono (fun _ => List.mem_append_left _) fun _ _ => id
  have hviews : ∀ v b, s.pendingBlocks.dag.readObj v = some b →
      ViewOf start (deedsWhere F (blocks ++ [block]) fun _ => True) (deedsWhere F blocks s.IsFinal)
        (deedsWhere F blocks (s.pendingBlocks.dag.Reaches v)) b.patch :=
    fun v b hb => (h.views v b hb).of_sound hsound hall
  obtain ⟨-, -, patchMerged, -, -, -, hmerged, -⟩ := execBlock_ok hexec
  have hplays := h.stable.of_sound hsound (h.stable.sub.trans hall)
  have hparents := mergePatchesFrom_view hviews (viewOf_empty hplays) hmerged
  rw [Set.empty_union] at hparents
  have hold : deedsWhere F blocks s.IsFinal ∪ {deed | ∃ v ∈ block.parentHashes,
      v ∈ s.pendingBlocks.dag ∧ deed ∈ deedsWhere F blocks (s.pendingBlocks.dag.Reaches v)} ⊆
      deedsWhere F blocks fun _ => True := by
    rintro deed (⟨other, hother, -, hdeed⟩ | ⟨v, -, -, other, hother, -, hdeed⟩)
    · exact ⟨other, hother, trivial, hdeed⟩
    · exact ⟨other, hother, trivial, hdeed⟩
  have hfresh : (coinbaseDeed F block).2.outputs = [] ∨ coinbaseDeed F block ∉
      (deedsWhere F blocks s.IsFinal ∪ {deed | ∃ v ∈ block.parentHashes,
        v ∈ s.pendingBlocks.dag ∧ deed ∈ deedsWhere F blocks (s.pendingBlocks.dag.Reaches v)}) ∪
      {deed | deed ∈ block.txns.tail.map (deedOf F)} := by
    refine hcoinbase.imp_right fun hcoinbase => ?_
    rintro (hdeed | hdeed)
    · obtain ⟨other, hother, -, hdeed⟩ := hold hdeed
      obtain ⟨tx, htx, heq⟩ := exists_tx_of_mem_deeds hdeed
      exact hcoinbase other hother tx htx heq.symm
    · obtain ⟨tx, htx, heq⟩ := List.mem_map.mp hdeed
      have hmem : block ∈ blocks ++ [block] := List.mem_append_right _ (List.mem_singleton_self _)
      have hpayload := hnames.named block hmem tx (List.mem_of_mem_tail htx) block hmem
        block.coinbase (List.head_mem _) (congrArg Prod.fst heq)
      have hcoin := hcoinbases block hmem
      rw [← isCoinbase_congr hpayload, hnames.regular block hmem tx htx] at hcoin
      cases hcoin
  obtain ⟨hview, hshown, hfees⟩ := hparents.execBlock hgenesis hmerged h.stores
    (fun deed hdeed => ⟨block, List.mem_append_right _ (List.mem_singleton_self _), trivial, hdeed⟩)
    hpayments hfresh hexec
  constructor
  case acyclic => exact acyclic_addBlock hF h.acyclic hexec
  case alive =>
    intro other hother
    obtain hother | hother := List.mem_append.mp hother
    · exact (h.alive other hother).imp_right fun hmem => Dag.mem_addVertex.mpr (.inr hmem)
    · rw [List.mem_singleton.mp hother]
      exact .inr (Dag.mem_addVertex.mpr (.inl rfl))
  case known =>
    intro v hv
    obtain rfl | hv := Dag.mem_addVertex.mp hv
    · exact hinfo
    · exact h.known v hv
  case names => exact hnames
  case coinbases => exact hcoinbases
  case nodup =>
    intro other hother deed hdeed
    obtain hother | hother := List.mem_append.mp hother
    · exact h.nodup other hother deed hdeed
    · rw [List.mem_singleton.mp hother] at hdeed
      obtain ⟨before, after, heq⟩ := List.append_of_mem hdeed
      exact (hshown before deed after heq).1
  case stores => exact hstable ▸ h.stores
  case stable => exact hstable ▸ hplays
  case views =>
    intro v b hb
    change ViewOf start _ (deedsWhere F (blocks ++ [block]) s.IsFinal) _ _
    rw [hstable]
    obtain ⟨rfl, rfl⟩ | ⟨-, hb⟩ := readObj_addBlock F hb
    · rw [deedsWhere_reaches_new hself hnew hblocks]
      exact hview
    · rw [deedsWhere_reaches_old (Dag.mem_iff.mpr ⟨b, hb⟩) hnew]
      exact hviews v b hb
  case ordered =>
    intro before other after heq earlier deed later hdeeds key hkey
    have hgrow : ∀ older : List Block, deedsWhere F older (fun hash => s.IsFinal hash ∨
        s.pendingBlocks.dag.Reaches (other.hash F) hash) ⊆
        deedsWhere F older fun hash => s.IsFinal hash ∨
          (s.pendingBlocks.addBlock F block patchState).dag.Reaches (other.hash F) hash :=
      fun older => deedsWhere_mono (fun _ => id) fun _ _ => Or.imp_right Dag.Reaches.addVertex
    obtain rfl | ⟨after, last, rfl⟩ := List.eq_nil_or_concat after
    · -- the new block spends what its parents show
      obtain ⟨rfl, hlast⟩ := List.append_inj' heq rfl
      obtain rfl := List.head_eq_of_cons_eq hlast
      obtain ⟨coins, hcreated, -⟩ := (hshown earlier deed later hdeeds).2 key hkey
      obtain hbase | ⟨creator, hcreator, houtput⟩ := hcreated
      · exact .inl (FinMap.mem_keys_of_lookup hbase)
      · refine .inr ⟨creator, List.mem_map.mpr ⟨_, houtput, rfl⟩, ?_⟩
        obtain (hstable | ⟨v, hv, hmem, older, holder, hreach, hcreator⟩) | hearlier := hcreator
        · exact .inr (deedsWhere_mono (fun _ => id) (fun _ _ => .inl) hstable)
        · refine .inr ⟨older, holder, .inr ?_, hcreator⟩
          exact (Relation.ReflTransGen.single (Dag.edge_addVertex.mpr
            (.inl ⟨rfl, hv, .inl hmem⟩))).trans (Dag.Reaches.addVertex hreach)
        · exact .inl hearlier
    · rw [List.concat_eq_append, ← List.cons_append, ← List.append_assoc] at heq
      obtain hbase | ⟨creator, houtput, hcreator⟩ := h.ordered before other after
        (List.append_inj' heq rfl).1 earlier deed later hdeeds key hkey
      · exact .inl hbase
      · exact .inr ⟨creator, houtput, hcreator.imp_right fun hmem => hgrow before hmem⟩
  case priced =>
    intro other hother value hvalue
    obtain hother | hother := List.mem_append.mp hother
    · exact h.priced other hother value (hvalue.mono hall)
    · rw [List.mem_singleton.mp hother]
      refine hfees value (hvalue.mono (Set.union_subset (hold.trans hall) ?_))
      intro deed hdeed
      refine ⟨block, List.mem_append_right _ (List.mem_singleton_self _), trivial, ?_⟩
      exact List.mem_append_left _ hdeed
  case fresh =>
    refine List.pairwise_append.mpr ⟨h.fresh, List.pairwise_singleton _ _, ?_⟩
    intro older holder other hother heq
    obtain rfl := List.mem_singleton.mp hother
    refine hcoinbase.resolve_right fun hnew => ?_
    exact hnew older holder older.coinbase (List.head_mem _) (congrArg Prod.fst heq)

end AddBlock

end CilCore
