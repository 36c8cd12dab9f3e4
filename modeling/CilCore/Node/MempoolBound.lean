import CilCore.Lib.Runs
import CilCore.Node.Mempool

/-!
# The size of the mempool

`addTx` makes room before it files a transaction, and `limitConstraints` makes room
only when the limit is reached. It then trims to the limit itself where other than
preferred conciliums have transactions, and by quotas that are rounded elsewhere, so
that nothing may be removed at all; the transaction that comes next exceeds the
limit. The mempool stays bounded in exactly the runs in which no new transaction
comes when the limit is reached and nothing can be evicted.
-/

namespace CilCore

namespace MempoolStore

variable {F : Factory} {C : MempoolConstants} {pool : MempoolStore}

/-! ### What is trimmed at the limit -/

/-- A map with transactions loses some of them if its quota is at least one half. -/
theorem quota_pos_iff {nToRemove : ℤ} {nCurrentSize size : Nat} (hpos : 0 < nCurrentSize) :
    0 < quota nToRemove nCurrentSize size ↔ (nCurrentSize : ℤ) ≤ 2 * (nToRemove * size) := by
  have hpos : (0 : ℚ) < nCurrentSize := by exact_mod_cast hpos
  rw [quota, mathRound, Int.lt_toNat, Nat.cast_zero, ← Int.add_one_le_iff, zero_add,
    Int.le_floor, Int.cast_one]
  have hhalf : (1 : ℚ) ≤ nToRemove * size / nCurrentSize + 1 / 2 ↔
      1 / 2 ≤ (nToRemove * size : ℚ) / nCurrentSize := by
    constructor <;> intro h <;> linarith
  rw [hhalf, le_div_iff₀ hpos]
  have hcast : (1 / 2 * nCurrentSize : ℚ) ≤ nToRemove * size ↔
      ((nCurrentSize : ℤ) : ℚ) ≤ ((2 * (nToRemove * size) : ℤ) : ℚ) := by
    push_cast
    constructor <;> intro h <;> linarith
  rw [hcast, Int.cast_le]

/-- A mempool at its limit can evict: no other than preferred conciliums have
transactions, if there are preferences, and the quota of some concilium rounds to
one at least. -/
def Evicts (C : MempoolConstants) (pool : MempoolStore) : Prop :=
  (pool.preferredConciliums = ∅ ∨ pool.calcPrefferedSize = pool.calcSize) ∧
    ∃ n, 0 < (pool.conciliumTxns n).size ∧
      C.MEMPOOL_TX_QTY ≤
        2 * ((C.MEMPOOL_TX_QTY - 2 * C.MEMPOOL_TX_QTY / 3) * (pool.conciliumTxns n).size)

theorem selectedSize_add (selected : Nat → Bool) (pool : MempoolStore) :
    pool.selectedSize selected + pool.selectedSize (fun n => !selected n) = pool.calcSize :=
  OrderedMap.total_filter_add ..

theorem calcPrefferedSize_eq (pool : MempoolStore) :
    pool.calcPrefferedSize = pool.selectedSize pool.prefers :=
  OrderedMap.sum_lookup ..

theorem selectedSize_true (pool : MempoolStore) :
    pool.selectedSize (fun _ => true) = pool.calcSize := by
  rw [selectedSize, OrderedMap.filter_true, calcSize]

theorem lookup_of_size_pos {n : Nat} (h : 0 < (pool.conciliumTxns n).size) :
    pool.mapConcilimTxns.lookup n = some (pool.conciliumTxns n) := by
  apply lookup_of_conciliumTxns_ne_empty
  intro hempty
  rw [hempty] at h
  exact Nat.lt_irrefl 0 h

/-- Nothing is purged if every quota is zero. -/
theorem purgeMaps_eq_self {selected : Nat → Bool} {nDesiredSize : Nat}
    (h : ∀ n, selected n → 0 < (pool.conciliumTxns n).size →
      quota (pool.selectedSize selected - nDesiredSize) (pool.selectedSize selected)
        (pool.conciliumTxns n).size = 0) :
    pool.purgeMaps selected nDesiredSize = pool := by
  rw [purgeMaps, OrderedMap.mapWithKey_eq_self]
  intro e he
  have hmap := conciliumTxns_of_lookup (OrderedMap.mem_entries_iff.mp he)
  split
  next hselected =>
    rcases Nat.eq_zero_or_pos (OrderedMap.size e.2) with hsize | hsize
    · rw [OrderedMap.eq_empty_of_size hsize]
      exact OrderedMap.eq_empty_of_size (by simp)
    · have hquota := h e.1 hselected (hmap ▸ hsize)
      rw [hmap] at hquota
      rw [hquota, OrderedMap.dropOldest_zero]
  next => rfl

/-- One quota that is not zero makes the mempool smaller. -/
theorem calcSize_purgeMaps_lt {selected : Nat → Bool} {nDesiredSize n : Nat}
    (hselected : selected n) (hsize : 0 < (pool.conciliumTxns n).size)
    (hquota : 0 < quota (pool.selectedSize selected - nDesiredSize)
      (pool.selectedSize selected) (pool.conciliumTxns n).size) :
    (pool.purgeMaps selected nDesiredSize).calcSize < pool.calcSize := by
  have hmem := OrderedMap.mem_entries_iff.mpr (lookup_of_size_pos hsize)
  refine (OrderedMap.total_mapWithKey_lt_iff (fun n mapTxns => ?_) _).mpr
    ⟨⟨n, pool.conciliumTxns n⟩, hmem, ?_⟩
  · split
    next => exact (OrderedMap.size_dropOldest ..).le.trans (Nat.sub_le _ _)
    next => exact le_rfl
  · rw [if_pos hselected, OrderedMap.size_dropOldest]
    exact Nat.sub_lt hsize hquota

theorem size_le_selectedSize (pool : MempoolStore) (selected : Nat → Bool) {n : Nat}
    (h : selected n) :
    (pool.conciliumTxns n).size ≤ pool.selectedSize selected := by
  rcases Nat.eq_zero_or_pos (pool.conciliumTxns n).size with hsize | hsize
  · rw [hsize]
    exact Nat.zero_le _
  · have hmem := OrderedMap.mem_entries_iff.mpr (lookup_of_size_pos hsize)
    exact OrderedMap.le_total (m := pool.mapConcilimTxns.filter fun n _ => selected n)
      OrderedMap.size (List.mem_filter.mpr ⟨hmem, h⟩)

/-- At the limit, purging all transactions that there are to two thirds removes some
exactly if a quota rounds to one. -/
theorem quota_at_limit_pos_iff (hsize : pool.calcSize = C.MEMPOOL_TX_QTY) {size : Nat}
    (hpos : 0 < size) (hle : size ≤ pool.calcSize) :
    0 < quota (pool.calcSize - (2 * pool.calcSize / 3 : Nat)) pool.calcSize size ↔
      C.MEMPOOL_TX_QTY ≤ 2 * ((C.MEMPOOL_TX_QTY - 2 * C.MEMPOOL_TX_QTY / 3) * size) := by
  rw [quota_pos_iff (hpos.trans_le hle), hsize, ← Nat.cast_sub (by omega)]
  norm_cast

/-- At the limit, a mempool that can evict gets smaller. -/
theorem calcSize_limitConstraints_lt (hsize : pool.calcSize = C.MEMPOOL_TX_QTY)
    (h : pool.Evicts C) : (pool.limitConstraints C).calcSize < pool.calcSize := by
  obtain ⟨hpref, n, hpos, hquota⟩ := h
  have hle : (pool.conciliumTxns n).size ≤ pool.calcSize :=
    (size_le_selectedSize pool (fun _ => true) rfl).trans (selectedSize_true pool).le
  have hquota := (quota_at_limit_pos_iff hsize hpos hle).mpr hquota
  simp only [limitConstraints]
  rw [if_neg (by omega)]
  by_cases hnone : pool.preferredConciliums = ∅
  · rw [if_neg (by simp [hnone])]
    apply calcSize_purgeMaps_lt rfl hpos
    rw [selectedSize_true]
    exact hquota
  · have hpref := hpref.resolve_left hnone
    rw [if_pos (Finset.nonempty_iff_ne_empty.mpr hnone), if_neg (by omega)]
    refine (shrinks_clearMaps _ _).calcSize_le.trans_lt ?_
    -- all transactions are of preferred conciliums
    have hadd := selectedSize_add pool.prefers pool
    rw [calcPrefferedSize_eq] at hpref
    have hprefers : pool.prefers n = true := by
      by_contra hother
      have hother : (!pool.prefers n) = true := by simpa using hother
      have hothers := size_le_selectedSize pool (fun n => !pool.prefers n) hother
      omega
    apply calcSize_purgeMaps_lt hprefers hpos
    rw [hpref]
    exact hquota

/-- At the limit, a mempool that cannot evict stays as it is. -/
theorem limitConstraints_eq_self (hsize : pool.calcSize = C.MEMPOOL_TX_QTY)
    (h : ¬ pool.Evicts C) : pool.limitConstraints C = pool := by
  simp only [limitConstraints]
  rw [if_neg (by omega)]
  have hadd := selectedSize_add pool.prefers pool
  rw [← calcPrefferedSize_eq] at hadd
  split_ifs with hsome hlt
  · -- others are trimmed to what the preferred leave: nothing is too much
    apply purgeMaps_eq_self
    intro n hother hpos
    have hzero : ((pool.selectedSize fun n => !pool.prefers n : Nat) : ℤ) -
        (C.MEMPOOL_TX_QTY - pool.calcPrefferedSize : Nat) = 0 := by omega
    have hnone : ⌊(1 : ℚ) / 2⌋ = 0 := by norm_num
    rw [hzero, quota, mathRound, Int.cast_zero, zero_mul, zero_div, zero_add, hnone]
    rfl
  · have hpref : pool.calcPrefferedSize = pool.calcSize := by omega
    have hself : pool.purgeMaps pool.prefers (2 * pool.calcSize / 3) = pool := by
      apply purgeMaps_eq_self
      intro n hprefers hpos
      rw [← calcPrefferedSize_eq, hpref]
      by_contra hquota
      have hle := (size_le_selectedSize pool _ hprefers).trans
        ((calcPrefferedSize_eq pool).symm.trans hpref).le
      exact h ⟨.inr hpref, n, hpos,
        (quota_at_limit_pos_iff hsize hpos hle).mp (Nat.pos_of_ne_zero hquota)⟩
    rw [hself, clearMaps, OrderedMap.mapWithKey_eq_self]
    intro e he
    split
    next hother =>
      have hle := size_le_selectedSize pool (fun n => !pool.prefers n) hother
      rw [conciliumTxns_of_lookup (OrderedMap.mem_entries_iff.mp he)] at hle
      exact (OrderedMap.eq_empty_of_size (by omega)).symm
    next => rfl
  · apply purgeMaps_eq_self
    intro n _ hpos
    rw [selectedSize_true]
    by_contra hquota
    have hle : (pool.conciliumTxns n).size ≤ pool.calcSize :=
      (size_le_selectedSize pool (fun _ => true) rfl).trans (selectedSize_true pool).le
    exact h ⟨.inl (Finset.not_nonempty_iff_eq_empty.mp hsome), n, hpos,
      (quota_at_limit_pos_iff hsize hpos hle).mp (Nat.pos_of_ne_zero hquota)⟩

/-! ### A call -/

theorem elim_lookup (pool : MempoolStore) (n : Nat) :
    (pool.mapConcilimTxns.lookup n).elim 0 OrderedMap.size = (pool.conciliumTxns n).size := by
  rw [conciliumTxns]
  cases pool.mapConcilimTxns.lookup n <;> rfl

@[simp] theorem conciliumTxns_ensureConciliumTxns (n j : Nat) (pool : MempoolStore) :
    (pool.ensureConciliumTxns n).conciliumTxns j = pool.conciliumTxns j := by
  rw [ensureConciliumTxns]
  split
  next => rfl
  next h =>
    rw [conciliumTxns_set]
    split
    next heq => rw [heq, conciliumTxns, AList.lookup_eq_none.mpr h, Option.getD_none]
    next => rfl

@[simp] theorem calcSize_ensureConciliumTxns (n : Nat) (pool : MempoolStore) :
    (pool.ensureConciliumTxns n).calcSize = pool.calcSize := by
  rw [ensureConciliumTxns]
  split
  next => rfl
  next h => exact OrderedMap.total_set_of_notMem OrderedMap.size h

@[simp] theorem preferredConciliums_ensureConciliumTxns (n : Nat) (pool : MempoolStore) :
    (pool.ensureConciliumTxns n).preferredConciliums = pool.preferredConciliums := by
  rw [ensureConciliumTxns]
  split <;> rfl

@[simp] theorem calcPrefferedSize_ensureConciliumTxns (n : Nat) (pool : MempoolStore) :
    (pool.ensureConciliumTxns n).calcPrefferedSize = pool.calcPrefferedSize := by
  simp only [calcPrefferedSize, elim_lookup, preferredConciliums_ensureConciliumTxns,
    conciliumTxns_ensureConciliumTxns]

theorem evicts_ensureConciliumTxns_iff {n : Nat} :
    (pool.ensureConciliumTxns n).Evicts C ↔ pool.Evicts C := by
  simp [Evicts]

theorem hasTx_ensureConciliumTxns_iff {n : Nat} {txHash : Hash} :
    (pool.ensureConciliumTxns n).hasTx txHash ↔ pool.hasTx txHash := by
  rw [hasTx_iff, hasTx_iff]
  constructor
  · rintro ⟨store, h⟩
    exact ⟨store, (shrinks_ensureConciliumTxns n pool).holds h⟩
  · rintro ⟨store, h⟩
    refine ⟨store, ?_⟩
    cases store with
    | concilium j =>
        rw [Holds, conciliumTxns_ensureConciliumTxns]
        exact h
    | localTxns =>
        rw [Holds, ensureConciliumTxns]
        split <;> exact h
    | badTxns =>
        rw [Holds, ensureConciliumTxns]
        split <;> exact h

theorem mem_ensureConciliumTxns (n : Nat) (pool : MempoolStore) :
    n ∈ (pool.ensureConciliumTxns n).mapConcilimTxns := by
  rw [ensureConciliumTxns]
  split
  next h => exact h
  next => exact OrderedMap.mem_set.mpr (.inl rfl)

/-- Making room removes no map. -/
theorem mem_limitConstraints_iff {n : Nat} :
    n ∈ (pool.limitConstraints C).mapConcilimTxns ↔ n ∈ pool.mapConcilimTxns := by
  simp only [limitConstraints]
  split_ifs <;> simp [purgeMaps, clearMaps]

/-- A transaction that comes in makes the mempool one larger. -/
theorem calcSize_file {tx : Transaction} {now : Nat}
    (hmap : tx.conciliumId ∈ pool.mapConcilimTxns) (hnew : ¬ pool.hasTx (tx.hash F)) :
    (pool.file F tx now).calcSize = pool.calcSize + 1 := by
  obtain ⟨mapTxns, hlookup⟩ := OrderedMap.exists_lookup_of_mem hmap
  have hmapTxns := conciliumTxns_of_lookup hlookup
  have hnotMem : tx.hash F ∉ mapTxns := by
    intro hmem
    exact hnew (hasTx_iff.mpr ⟨.concilium tx.conciliumId, by rwa [Holds, hmapTxns]⟩)
  have htotal := OrderedMap.total_set_of_lookup (v := mapTxns.set (tx.hash F) ⟨tx, now⟩)
    OrderedMap.size hlookup
  rw [OrderedMap.size_set_of_notMem hnotMem] at htotal
  rw [calcSize, calcSize, file, hmapTxns]
  have hcancel : ∀ a b c : Nat, a + c = b + (c + 1) → a = b + 1 := by omega
  exact hcancel _ _ _ htotal

theorem calcSize_step_addTx {tx : Transaction} {now : Nat} :
    (pool.step F C (.addTx tx now)).calcSize =
      (pool.trimmed C tx).calcSize + if (pool.trimmed C tx).hasTx (tx.hash F) then 0 else 1 := by
  rw [step, addTx_eq]
  split
  next => rfl
  next hnew =>
    exact calcSize_file (mem_limitConstraints_iff.mpr (mem_ensureConciliumTxns _ _)) hnew

/-- There is room for the transaction of a call of `addTx`: the limit is not reached,
or the transaction is known, so that it is not filed, or something can be evicted. -/
def KeepsRoom (F : Factory) (C : MempoolConstants) (pool : MempoolStore) : Op → Prop
  | .addTx tx _ =>
      pool.calcSize < C.MEMPOOL_TX_QTY ∨ pool.hasTx (tx.hash F) ∨ pool.Evicts C
  | _ => True

/-- At the limit, `addTx` exceeds it if the transaction is new and nothing can be evicted. -/
theorem calcSize_addTx_at_limit_le_iff {tx : Transaction} {now : Nat}
    (hsize : pool.calcSize = C.MEMPOOL_TX_QTY) :
    (pool.step F C (.addTx tx now)).calcSize ≤ C.MEMPOOL_TX_QTY ↔
      pool.hasTx (tx.hash F) ∨ pool.Evicts C := by
  have hensured := (calcSize_ensureConciliumTxns tx.conciliumId pool).trans hsize
  rw [calcSize_step_addTx, trimmed]
  by_cases hevicts : pool.Evicts C
  · have hlt := calcSize_limitConstraints_lt hensured (evicts_ensureConciliumTxns_iff.mpr hevicts)
    rw [hensured] at hlt
    refine iff_of_true ?_ (.inr hevicts)
    split <;> omega
  · rw [limitConstraints_eq_self hensured (mt evicts_ensureConciliumTxns_iff.mp hevicts),
      hensured]
    by_cases hknown : pool.hasTx (tx.hash F)
    · rw [if_pos (hasTx_ensureConciliumTxns_iff.mpr hknown)]
      exact iff_of_true le_rfl (.inl hknown)
    · rw [if_neg (mt hasTx_ensureConciliumTxns_iff.mp hknown)]
      exact iff_of_false (Nat.not_succ_le_self _) (not_or.mpr ⟨hknown, hevicts⟩)

theorem calcSize_step_le_iff (hle : pool.calcSize ≤ C.MEMPOOL_TX_QTY) (op : Op) :
    (pool.step F C op).calcSize ≤ C.MEMPOOL_TX_QTY ↔ pool.KeepsRoom F C op := by
  cases op with
  | addTx tx now =>
      rcases hle.lt_or_eq with hlt | hsize
      · refine iff_of_true ?_ (.inl hlt)
        have htrimmed := (shrinks_trimmed C tx pool).calcSize_le
        rw [calcSize_step_addTx]
        split <;> omega
      · rw [calcSize_addTx_at_limit_le_iff hsize, KeepsRoom]
        exact (or_iff_right hsize.not_lt).symm
  | addLocalTx tx patchTx => exact iff_of_true hle trivial
  | removeTxns arrTxHashes =>
      exact iff_of_true ((shrinks_removeTxns arrTxHashes pool).calcSize_le.trans hle) trivial
  | removeForBlock arrTxHashes =>
      exact iff_of_true ((shrinks_removeTxns arrTxHashes pool).calcSize_le.trans hle) trivial
  | storeBadTxHash strTxHash now => exact iff_of_true hle trivial
  | purgeOutdated now =>
      exact iff_of_true ((shrinks_purgeOutdated C now pool).calcSize_le.trans hle) trivial
  | setPreferredConciliums arrIds => exact iff_of_true hle trivial
  | getFinalTxns nConciliumId =>
      exact iff_of_true ((shrinks_ensureConciliumTxns nConciliumId pool).calcSize_le.trans hle)
        trivial

/-! ### Runs -/

/-- A call of `addTx` that returns leaves the transaction in the mempool. -/
def LeavesAdded (F : Factory) (C : MempoolConstants) (pool : MempoolStore) (op : Op) : Prop :=
  ∀ tx now, op = .addTx tx now → (pool.addTx F C tx now).1 = .ok () →
    ∃ n arrivedTx, ((pool.step F C op).conciliumTxns n).lookup (tx.hash F) = some arrivedTx ∧
      arrivedTx.tx = tx

theorem leavesAdded (pool : MempoolStore) (op : Op) : pool.LeavesAdded F C op := by
  rintro tx now rfl hreturns
  exact ⟨tx.conciliumId, ⟨tx, now⟩, lookup_of_addTx hreturns, rfl⟩

/-- After every call of a run the mempool is within its limit, and it has what was added. -/
def StaysBounded (F : Factory) (C : MempoolConstants) (ops : List Op) : Prop :=
  Runs.EveryStep (step F C)
    (fun pool op => (pool.step F C op).calcSize ≤ C.MEMPOOL_TX_QTY ∧ pool.LeavesAdded F C op)
    empty ops

/-- A run stays bounded exactly if there is room at every call of `addTx`. -/
theorem staysBounded_iff (F : Factory) (C : MempoolConstants) (ops : List Op) :
    StaysBounded F C ops ↔ Runs.EveryStep (step F C) (KeepsRoom F C) empty ops := by
  apply Runs.everyStep_congr (I := fun pool => pool.calcSize ≤ C.MEMPOOL_TX_QTY)
  · exact fun pool op _ h => h.1
  · intro pool op hle
    rw [calcSize_step_le_iff hle]
    exact and_iff_left (leavesAdded pool op)
  · exact Nat.zero_le _

/-- A transaction of a concilium without inputs, told apart by its amount. -/
def sampleTx (conciliumId amount : Nat) : Transaction where
  payload := { conciliumId, ins := [], outs := [⟨amount, 1, "", none⟩] }

/-- With a preference for another concilium, the limit itself is what is trimmed to. -/
def exceedingOps : List Op :=
  .setPreferredConciliums [0] :: (List.range 6).map fun i => .addTx (sampleTx 1 i) i

theorem not_staysBounded :
    ¬ StaysBounded Factory.sample { MEMPOOL_TX_QTY := 5 } exceedingOps := by
  intro h
  have hsplit : exceedingOps = exceedingOps.take 6 ++ exceedingOps.drop 6 := rfl
  rw [StaysBounded, hsplit, Runs.everyStep_append] at h
  exact absurd h.2.1.1 (by decide +kernel)

end MempoolStore

end CilCore
