import CilCore.Node.LedgerRuns

/-!
# What the graph of blocks does to the supply

Every block pays its fees out in its coinbase. A transaction that two branches have both
included is one payment, and leaves one fee, but each of the blocks has paid that fee out.
-/

namespace CilCore

open Ledger PatchDB ChainState

/-- The transactions of the stable blocks, without the coinbases. -/
def stablePayments (F : Factory) (s : ChainState) (blocks : List Block) : List Deed :=
  (blocks.filter fun block => s.IsFinal (block.hash F)).flatMap fun block =>
    block.txns.tail.map (deedOf F)

/-- What an output is worth that is there at the start, or was made by one of the payments. -/
def valueIn (start : Storage) (deeds : List Deed) (key : Input) : Amount :=
  (((baseOf start).lookup key).or ((deeds.flatMap fun deed => deed.2.outputs).lookup key)).elim 0
    (·.amount)

section Values

variable {F : Factory} {start : Storage} {deeds : List Deed} {all : Set Deed}

theorem values_valueIn (hsound : Sound start all) (hsub : ∀ deed ∈ deeds, deed ∈ all) :
    Values start {deed | deed ∈ deeds} (valueIn start deeds) := by
  intro key coins hcreated
  have hcreatedAll : (baseOf start).lookup key = some coins ∨
      ∃ deed ∈ all, (key, coins) ∈ deed.2.outputs :=
    hcreated.imp_right (Exists.imp fun deed => And.imp_left (hsub deed))
  cases hbase : (baseOf start).lookup key with
  | some coins' =>
      rw [valueIn, hbase, created_unique hsound hcreatedAll (.inl hbase)]
      rfl
  | none =>
      obtain hbase' | ⟨deed, hdeed, houtput⟩ := hcreated
      · rw [hbase] at hbase'
        cases hbase'
      obtain ⟨coins', hlookup⟩ : ∃ coins',
          (deeds.flatMap fun deed => deed.2.outputs).lookup key = some coins' := by
        rw [← Option.isSome_iff_exists, List.lookup_isSome_iff]
        exact ⟨(key, coins), List.mem_flatMap.mpr ⟨deed, hdeed, houtput⟩, by simp⟩
      obtain ⟨before, after, heq, -⟩ := List.lookup_eq_some_iff.mp hlookup
      have hmem : (key, coins') ∈ deeds.flatMap fun deed => deed.2.outputs := by simp [heq]
      obtain ⟨other, hother, houtput'⟩ := List.mem_flatMap.mp hmem
      rw [valueIn, hbase, hlookup,
        created_unique hsound hcreatedAll (.inr ⟨other, hsub other hother, houtput'⟩)]
      rfl

end Values

/-- What the transactions of stable blocks spend was there at the start, or made in stable
blocks. -/
theorem Linear.created_stable {F : Factory} {start : Storage} {blocks : List Block}
    {s : ChainState} (h : Linear F start blocks s) {block : Block}
    (hblock : block ∈ blocks.filter fun block => s.IsFinal (block.hash F)) :
    ∀ deed ∈ block.txns.tail.map (deedOf F), ∀ key ∈ deed.2.inputs, ∃ coins,
      (baseOf start).lookup key = some coins ∨
        ∃ other ∈ {deed | deed ∈ stableDeeds F s blocks}, (key, coins) ∈ other.2.outputs := by
  intro deed hdeed key hkey
  have hmem : deed ∈ stableDeeds F s blocks :=
    List.mem_flatMap.mpr ⟨block, hblock, List.mem_append_left _ hdeed⟩
  obtain ⟨before, after, heq⟩ := List.append_of_mem hmem
  have hbacked := h.backed (p := fun v => s.IsFinal v) (fun v hv => by simpa using hv)
    fun v w hv hreach => h.eq_of_reaches (by simpa using hv) hreach ▸ hv
  obtain hbase | ⟨other, hother, houtput⟩ := hbacked before deed after heq key hkey
  · obtain ⟨coins, hcoins⟩ := FinMap.mem_keys_iff.mp hbase
    exact ⟨coins, .inl hcoins⟩
  · obtain ⟨⟨key, coins⟩, hentry, rfl⟩ := List.mem_map.mp houtput
    exact ⟨coins, .inr ⟨other, heq ▸ List.mem_append_left _ hother, hentry⟩⟩

section Supply

variable {F : Factory} {J : Dagjs} {start : Storage} {s : ChainState} {blocks : List Block}
  {value : Input → Amount}

theorem feeBy_coinbaseDeed (block : Block) : feeBy value (coinbaseDeed F block) =
    -((coinbaseDeed F block).2.outputs.map fun output => output.2.amount).sum := by
  rw [feeBy, coinbaseDeed, List.map_nil, List.sum_nil, zero_sub]

/-- The coinbases pay all fees out. -/
theorem sum_coinbases
    (hpriced : ∀ block ∈ blocks, ((coinbaseDeed F block).2.outputs.map fun output =>
      output.2.amount).sum = ((block.txns.tail.map (deedOf F)).map (feeBy value)).sum) :
    (blocks.map fun block => feeBy value (coinbaseDeed F block)).sum =
      -((blocks.flatMap fun block => block.txns.tail.map (deedOf F)).map (feeBy value)).sum := by
  induction blocks with
  | nil => simp
  | cons block rest ih =>
      obtain ⟨hfirst, hrest⟩ := List.forall_mem_cons.mp hpriced
      rw [List.map_cons, List.sum_cons, ih hrest, feeBy_coinbaseDeed, hfirst, List.flatMap_cons,
        List.map_append, List.sum_append, neg_add]

/-- The fees of some blocks, those that their coinbases pay out taken off. -/
theorem sum_once_deeds (hsound : Sound start (deedsWhere F blocks fun _ => True))
    (hpriced : ∀ block ∈ blocks, ((coinbaseDeed F block).2.outputs.map fun output =>
        output.2.amount).sum = ((block.txns.tail.map (deedOf F)).map (feeBy value)).sum ∧
      ∀ deed ∈ block.txns.tail.map (deedOf F), 0 < feeBy value deed)
    (hfresh : blocks.Pairwise fun block other => coinbaseDeed F block = coinbaseDeed F other →
      (coinbaseDeed F other).2.outputs = []) :
    ((once [] (blocks.flatMap (Block.deeds F))).map (feeBy value)).sum =
      ((once [] (blocks.flatMap fun block => block.txns.tail.map (deedOf F))).map
        (feeBy value)).sum -
      ((blocks.flatMap fun block => block.txns.tail.map (deedOf F)).map (feeBy value)).sum := by
  classical
  have hunique : ∀ deeds : List Deed, (∀ deed ∈ deeds, deed ∈ blocks.flatMap (Block.deeds F)) →
      ∀ deed ∈ deeds, ∀ other ∈ deeds, deed.1 = other.1 → deed = other := by
    intro deeds hdeeds deed hdeed other hother
    obtain ⟨block, hblock, hmem⟩ := List.mem_flatMap.mp (hdeeds deed hdeed)
    obtain ⟨block', hblock', hmem'⟩ := List.mem_flatMap.mp (hdeeds other hother)
    exact hsound.named.unique deed ⟨block, hblock, trivial, hmem⟩ other
      ⟨block', hblock', trivial, hmem'⟩
  have hpayments : ∀ deed ∈ blocks.flatMap (fun block => block.txns.tail.map (deedOf F)),
      deed ∈ blocks.flatMap (Block.deeds F) := by
    intro deed hdeed
    obtain ⟨block, hblock, hmem⟩ := List.mem_flatMap.mp hdeed
    exact List.mem_flatMap.mpr ⟨block, hblock, List.mem_append_left _ hmem⟩
  -- a coinbase leaves no fee, so it is not taken for one of the other payments
  have happart : Disjoint (blocks.flatMap fun block => block.txns.tail.map (deedOf F)).toFinset
      (blocks.map (coinbaseDeed F)).toFinset := by
    refine Finset.disjoint_left.mpr fun deed hdeed hcoin => ?_
    obtain ⟨block, hblock, hmem⟩ := List.mem_flatMap.mp (List.mem_toFinset.mp hdeed)
    obtain ⟨block', hblock', rfl⟩ := List.mem_map.mp (List.mem_toFinset.mp hcoin)
    have hpos := (hpriced block hblock).2 _ hmem
    rw [feeBy_coinbaseDeed, (hpriced block' hblock').1] at hpos
    have hsum : 0 ≤ ((block'.txns.tail.map (deedOf F)).map (feeBy value)).sum := by
      refine List.sum_nonneg fun fee hfee => ?_
      obtain ⟨other, hother, rfl⟩ := List.mem_map.mp hfee
      exact ((hpriced block' hblock').2 other hother).le
    linarith
  have hsplit : (blocks.flatMap (Block.deeds F)).toFinset =
      (blocks.flatMap fun block => block.txns.tail.map (deedOf F)).toFinset ∪
        (blocks.map (coinbaseDeed F)).toFinset := by
    ext deed
    simp only [Finset.mem_union, List.mem_toFinset, List.mem_flatMap, List.mem_map, mem_deeds,
      and_or_left, exists_or, eq_comm]
  have hcoinbases := sum_toFinset_map (f := feeBy value) (hfresh.imp fun {block other} hsame heq => by
    rw [feeBy_coinbaseDeed, hsame heq, List.map_nil, List.sum_nil, neg_zero])
  rw [sum_once_eq (hunique _ fun _ => id), sum_once_eq (hunique _ hpayments), hsplit,
    Finset.sum_union happart, hcoinbases, sub_eq_add_neg, add_right_inj]
  exact sum_coinbases fun block hblock => (hpriced block hblock).1

/-- **The supply of the graph.** In every run, storage has the coins of the start, and for each
stable block that includes a transaction once more, the fee of that transaction. So no coins
appear exactly if no transaction is in two stable blocks, and none ever disappear. -/
theorem ledgerRun_supply (F : Factory) (J : Dagjs) (hF : F.HashesHeaders) (start s : ChainState)
    (hstart : ∀ v, v ∉ start.pendingBlocks.dag) (blocks : List Block)
    (h : LedgerRun F J start blocks s) :
    let fee := feeBy (valueIn start.storage (stableDeeds F s blocks))
    let payments := stablePayments F s blocks
    (∀ payment ∈ payments, 0 < fee payment) ∧
      FinMap.total amountOf (baseOf s.storage) = FinMap.total amountOf (baseOf start.storage) +
        ((payments.map fee).sum - ((once [] payments).map fee).sum) ∧
      FinMap.total amountOf (baseOf start.storage) ≤ FinMap.total amountOf (baseOf s.storage) ∧
      (FinMap.total amountOf (baseOf s.storage) = FinMap.total amountOf (baseOf start.storage) ↔
        (payments.map Prod.fst).Nodup) := by
  intro fee payments
  have hlinear := linear_of_run hF hstart h
  have hsound := hlinear.stable.sound
  have hdeeds : ∀ deed ∈ stableDeeds F s blocks, deed ∈ deedsWhere F blocks fun _ => True := by
    intro deed hdeed
    obtain ⟨block, hblock, hmem⟩ := List.mem_flatMap.mp hdeed
    exact ⟨block, (List.mem_filter.mp hblock).1, trivial, hmem⟩
  have hvalues := values_valueIn hsound hdeeds
  have hpriced : ∀ block ∈ blocks.filter (fun block => s.IsFinal (block.hash F)),
      ((coinbaseDeed F block).2.outputs.map fun output => output.2.amount).sum =
        ((block.txns.tail.map (deedOf F)).map fee).sum ∧
      ∀ deed ∈ block.txns.tail.map (deedOf F), 0 < fee deed := by
    intro block hblock
    have hpays := (hlinear.priced block (List.mem_filter.mp hblock).1).restrict hsound hdeeds ?_
    · exact hpays _ hvalues
    · exact hlinear.created_stable hblock
  have htotal : FinMap.total amountOf (baseOf s.storage) =
      FinMap.total amountOf (baseOf start.storage) -
        ((once [] (stableDeeds F s blocks)).map fee).sum := by
    have hnamed := hsound.named.mono hdeeds
    have hfresh : Fresh ((once [] (stableDeeds F s blocks)).map Prod.snd) (baseOf start.storage) :=
      fresh_of_wellNamed (hnamed.mono fun deed hdeed => (mem_of_mem_once hdeed).1)
        (nodup_once (stableDeeds F s blocks))
    have hbase : ∀ key coins, (baseOf start.storage).lookup key = some coins →
        valueIn start.storage (stableDeeds F s blocks) key = amountOf key coins :=
      fun key coins hcoins => hvalues key coins (.inl hcoins)
    have hcreated : ∀ output ∈ ((once [] (stableDeeds F s blocks)).map Prod.snd).flatMap
        (·.outputs), valueIn start.storage (stableDeeds F s blocks) output.1 =
          amountOf output.1 output.2 := by
      intro output houtput
      obtain ⟨payment, hpayment, hmem⟩ := List.mem_flatMap.mp houtput
      obtain ⟨deed, hdeed, rfl⟩ := List.mem_map.mp hpayment
      exact hvalues _ _ (.inr ⟨deed, (mem_of_mem_once hdeed).1, hmem⟩)
    rw [(run_spec (w := amountOf) hlinear.run_stable hfresh).2.2,
      fees_eq_sum hlinear.run_stable hfresh hbase hcreated, List.map_map]
    rfl
  have hpos : ∀ payment ∈ payments, 0 < fee payment := by
    intro payment hpayment
    obtain ⟨block, hblock, hmem⟩ := List.mem_flatMap.mp hpayment
    exact (hpriced block hblock).2 payment hmem
  have hsum := sum_once_deeds (hsound.mono (deedsWhere_mono (fun block hblock =>
    (List.mem_filter.mp hblock).1) fun _ _ => id)) hpriced (hlinear.fresh.filter _)
  have hle : ((once [] payments).map fee).sum ≤ (payments.map fee).sum :=
    sum_once_le fun payment hpayment => (hpos payment hpayment).le
  have hiff : ((once [] payments).map fee).sum = (payments.map fee).sum ↔
      (payments.map Prod.fst).Nodup ∧ ∀ payment ∈ payments, payment.1 ∉ [] :=
    sum_once_eq_iff hpos
  rw [stableDeeds, hsum, ← stablePayments] at htotal
  refine ⟨hpos, ?_, ?_, ?_⟩
  · rw [htotal]
    ring
  · rw [htotal]
    linarith
  · rw [htotal, sub_eq_self, sub_eq_zero, hiff]
    simp

/-- Two stable blocks include one payment, so coins appear. -/
theorem ledgerRun_supply_sharing : ∃ s, LedgerRun twoConciliums Dagjs.sample sharingState
    [sharingBlock 2, sharingBlock 4, joinedShares] s ∧
      FinMap.total amountOf (baseOf sharingState.storage) <
        FinMap.total amountOf (baseOf s.storage) := by
  obtain ⟨s, hrun, hfirst, hsecond, hlast⟩ := exists_sharingRun_first
  obtain ⟨-, -, hle, hiff⟩ := ledgerRun_supply twoConciliums Dagjs.sample
    hashesHeaders_twoConciliums sharingState s Dag.notMem_empty _ hrun
  refine ⟨s, hrun, lt_of_le_of_ne hle fun heq => ?_⟩
  have htwice := hiff.mp heq.symm
  have hpayments : stablePayments twoConciliums s
      [sharingBlock 2, sharingBlock 4, joinedShares] =
        [deedOf twoConciliums sharedPayment, deedOf twoConciliums sharedPayment] := by
    have hfinal : [sharingBlock 2, sharingBlock 4, joinedShares].filter (fun block =>
        s.IsFinal (block.hash twoConciliums)) = [sharingBlock 2, sharingBlock 4] := by
      simp [hfirst, hsecond, hlast]
    rw [stablePayments, hfinal]
    rfl
  rw [hpayments] at htwice
  simp at htwice

end Supply

end CilCore
