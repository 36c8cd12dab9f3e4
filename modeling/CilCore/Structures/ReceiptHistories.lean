import CilCore.Lib.Runs
import CilCore.Structures.TxReceipt
import CilCore.Structures.Utxo

/-!
# Histories of receipts

`structures/txReceipt.js` keeps the hashes of internal transactions and their coins in two
arrays. Both are changed before it is checked that they may be: `merge` compares the costs
after it has joined the arrays, and `addInternalUtxo` looks for the coins after it has
stored the hash.
-/

namespace CilCore

namespace TxReceipt

/-- What `merge` leaves of the receipt, whether it throws or not. -/
def afterMerge (receipt receiptToMerge : TxReceipt) : TxReceipt :=
  match receipt.merge receiptToMerge with
  | .ok merged => merged
  | .error _ =>
      { receipt with
        internalTxns := receipt.internalTxns ++ receiptToMerge.internalTxns
        coins := receipt.coins ++ receiptToMerge.coins }

/-- What `addInternalUtxo` leaves of the receipt, whether it throws or not. -/
def afterAddInternalUtxo (hash : Hash) (utxo : UTXO) (receipt : TxReceipt) : TxReceipt :=
  match utxo.coinsAtIndex 0 with
  | .ok coins => receipt.addInternalUtxo hash coins
  | .error _ => { receipt with internalTxns := receipt.internalTxns ++ [hash] }

end TxReceipt

/-- A receipt, and the internal transactions that it was given with their coins. -/
structure TrackedReceipt where
  receipt : TxReceipt
  added : List (Hash × Coins)

namespace TrackedReceipt

/-- What is done with receipts, which are referred to by the order of their construction. -/
inductive Event where
  /-- A receipt is constructed from an object or a buffer. -/
  | construct (data : TxReceipt)
  | addInternalUtxo (n : Nat) (hash : Hash) (utxo : UTXO)
  | merge (n m : Nat)

/-- The hashes and the coins of the receipt are those that were added. -/
def Aligned (tracked : TrackedReceipt) : Prop :=
  tracked.receipt.internalTxns = tracked.added.map (·.1) ∧
    tracked.receipt.coins = tracked.added.map (·.2)

/-- The constructor. -/
def construct (data : TxReceipt) : TrackedReceipt := ⟨data, data.internalTxns.zip data.coins⟩

/-- `addInternalUtxo`. A call that throws has added nothing. -/
def addInternalUtxo (hash : Hash) (utxo : UTXO) (tracked : TrackedReceipt) : TrackedReceipt where
  receipt := tracked.receipt.afterAddInternalUtxo hash utxo
  added := tracked.added ++ (utxo.coinsAtIndex 0).toOption.toList.map (hash, ·)

/-- `merge`. -/
def merge (tracked other : TrackedReceipt) : TrackedReceipt where
  receipt := tracked.receipt.afterMerge other.receipt
  added :=
    match tracked.receipt.merge other.receipt with
    | .ok _ => tracked.added ++ other.added
    | .error _ => tracked.added

/-- One step. Nothing happens to receipts that are not there. -/
def step (receipts : List TrackedReceipt) : Event → List TrackedReceipt
  | .construct data => receipts ++ [construct data]
  | .addInternalUtxo n hash utxo => receipts.modify n (addInternalUtxo hash utxo)
  | .merge n m =>
      match receipts[m]? with
      | none => receipts
      | some other => receipts.modify n (·.merge other)

/-- Every receipt has its coins next to its hashes and returns them, a `merge` that throws
changes nothing, and one that does not appends. -/
structure Lawful (receipts : List TrackedReceipt) (event : Event) : Prop where
  aligned : ∀ tracked ∈ step receipts event, tracked.Aligned
  getCoinsForTx : ∀ tracked ∈ step receipts event, tracked.receipt.internalTxns.Nodup →
    ∀ hash coins, (hash, coins) ∈ tracked.added →
      tracked.receipt.getCoinsForTx hash = .ok coins
  atomic : ∀ n m a b error, event = .merge n m → receipts[n]? = some a →
    receipts[m]? = some b → a.receipt.merge b.receipt = .error error →
      step receipts event = receipts
  appends : ∀ n m a b merged, event = .merge n m → receipts[n]? = some a →
    receipts[m]? = some b → a.receipt.merge b.receipt = .ok merged →
      ∃ after, (step receipts event)[n]? = some after ∧ after.receipt = merged ∧
        merged.internalTxns = a.receipt.internalTxns ++ b.receipt.internalTxns ∧
        merged.coins = a.receipt.coins ++ b.receipt.coins

/-- A receipt is constructed with as many coins as hashes, a UTXO that is added has an output
0, and a receipt that is merged has no lower costs, unless it has no internal transactions. -/
def Meets (receipts : List TrackedReceipt) : Event → Prop
  | .construct data => data.internalTxns.length = data.coins.length
  | .addInternalUtxo n _ utxo => n < receipts.length → ∃ coins, utxo.coinsAtIndex 0 = .ok coins
  | .merge n m => ∀ a b, receipts[n]? = some a → receipts[m]? = some b →
      a.receipt.coinsUsed ≤ b.receipt.coinsUsed ∨ b.receipt.internalTxns = []

variable {tracked other : TrackedReceipt} {receipts : List TrackedReceipt}

/-! ### Alignment -/

/-- The coins of a hash that is listed once stand where the hash stands. -/
theorem Aligned.getCoinsForTx (h : tracked.Aligned) (hnodup : tracked.receipt.internalTxns.Nodup)
    {hash : Hash} {coins : Coins} (hmem : (hash, coins) ∈ tracked.added) :
    tracked.receipt.getCoinsForTx hash = .ok coins := by
  obtain ⟨i, hi, hentry⟩ := List.getElem_of_mem hmem
  have hlisted : hash ∈ tracked.receipt.internalTxns := by
    rw [h.1]
    exact List.mem_map.mpr ⟨_, hmem, rfl⟩
  have hlength : i < tracked.receipt.internalTxns.length := by
    rwa [h.1, List.length_map]
  have hhash : tracked.receipt.internalTxns[i] = hash := by
    simp only [h.1, List.getElem_map, hentry]
  have hidx : tracked.receipt.internalTxns.idxOf hash = i := by
    rw [← hhash]
    exact hnodup.idxOf_getElem i hlength
  have hcoins : tracked.receipt.coins[i]? = some coins := by
    rw [h.2, List.getElem?_map, List.getElem?_eq_getElem hi, hentry]
    rfl
  rw [TxReceipt.getCoinsForTx, if_pos hlisted, hidx, hcoins]

theorem aligned_construct {data : TxReceipt} :
    (construct data).Aligned ↔ data.internalTxns.length = data.coins.length := by
  unfold Aligned construct
  constructor
  · rintro ⟨htxns, hcoins⟩
    rw [htxns, hcoins]
    simp
  · intro hlength
    exact ⟨(List.map_fst_zip hlength.le).symm, (List.map_snd_zip hlength.ge).symm⟩

theorem Aligned.addInternalUtxo (h : tracked.Aligned) {hash : Hash} {utxo : UTXO} :
    (tracked.addInternalUtxo hash utxo).Aligned ↔ ∃ coins, utxo.coinsAtIndex 0 = .ok coins := by
  unfold Aligned TrackedReceipt.addInternalUtxo TxReceipt.afterAddInternalUtxo
  cases hcoins : utxo.coinsAtIndex 0 with
  | ok coins =>
      refine iff_of_true ⟨?_, ?_⟩ ⟨coins, rfl⟩
      · simp [TxReceipt.addInternalUtxo, h.1, Except.toOption]
      · simp [TxReceipt.addInternalUtxo, h.2, Except.toOption]
  | error error =>
      refine iff_of_false (fun haligned => ?_) (by simp)
      have hlength := congrArg List.length haligned.1
      simp [h.1, Except.toOption] at hlength

theorem merge_error_iff {receipt receiptToMerge : TxReceipt} :
    (∃ error, receipt.merge receiptToMerge = .error error) ↔
      receiptToMerge.coinsUsed < receipt.coinsUsed := by
  unfold TxReceipt.merge
  split
  next hlt => exact iff_of_true ⟨_, rfl⟩ hlt
  next hge => exact iff_of_false (by simp) hge

theorem Aligned.merge (h : tracked.Aligned) (hother : other.Aligned) :
    (tracked.merge other).Aligned ↔
      tracked.receipt.coinsUsed ≤ other.receipt.coinsUsed ∨ other.receipt.internalTxns = [] := by
  unfold Aligned TrackedReceipt.merge TxReceipt.afterMerge
  cases hmerge : tracked.receipt.merge other.receipt with
  | ok merged =>
      have hle : tracked.receipt.coinsUsed ≤ other.receipt.coinsUsed := by
        by_contra hlt
        obtain ⟨error, herror⟩ := merge_error_iff.mpr (not_le.mp hlt)
        rw [hmerge] at herror
        cases herror
      obtain ⟨-, rfl⟩ := guard_eq_ok.mp hmerge
      refine iff_of_true ⟨?_, ?_⟩ (.inl hle)
      · simp [h.1, hother.1]
      · simp [h.2, hother.2]
  | error error =>
      have hlt := merge_error_iff.mp ⟨error, hmerge⟩
      rw [or_iff_right (not_le.mpr hlt)]
      dsimp only
      rw [h.1, h.2, hother.1, hother.2]
      simp

/-- A step that changes one receipt keeps the others aligned. -/
theorem aligned_modify_iff (h : ∀ tracked ∈ receipts, tracked.Aligned) (n : Nat)
    (f : TrackedReceipt → TrackedReceipt) :
    (∀ tracked ∈ receipts.modify n f, tracked.Aligned) ↔
      ∀ a, receipts[n]? = some a → (f a).Aligned := by
  constructor
  · intro hall a ha
    refine hall (f a) (List.mem_of_getElem? (i := n) ?_)
    rw [List.getElem?_modify_eq, ha]
    rfl
  · intro hone tracked hmem
    obtain ⟨m, hm⟩ := List.mem_iff_getElem?.mp hmem
    rw [List.getElem?_modify] at hm
    split at hm
    next heq =>
      subst heq
      obtain ⟨a, ha, rfl⟩ := Option.map_eq_some_iff.mp hm
      exact hone a ha
    next =>
      have hsame : receipts[m]? = some tracked := by simpa using hm
      exact h tracked (List.mem_of_getElem? hsame)

/-- A step keeps the receipts aligned exactly if the event is as it should be. -/
theorem aligned_step_iff (h : ∀ tracked ∈ receipts, tracked.Aligned) (event : Event) :
    (∀ tracked ∈ step receipts event, tracked.Aligned) ↔ Meets receipts event := by
  cases event with
  | construct data =>
      rw [step, List.forall_mem_append, and_iff_right h, List.forall_mem_singleton,
        aligned_construct]
      rfl
  | addInternalUtxo n hash utxo =>
      rw [step, aligned_modify_iff h]
      constructor
      · intro hadd hn
        have ha := List.getElem?_eq_getElem hn
        exact (h _ (List.mem_of_getElem? ha)).addInternalUtxo.mp (hadd _ ha)
      · intro hmeets a ha
        obtain ⟨hn, -⟩ := List.getElem?_eq_some_iff.mp ha
        exact (h a (List.mem_of_getElem? ha)).addInternalUtxo.mpr (hmeets hn)
  | merge n m =>
      rw [step]
      cases hother : receipts[m]? with
      | none =>
          refine iff_of_true h fun a b _ hb => ?_
          rw [hother] at hb
          cases hb
      | some other =>
          have hotherAligned := h other (List.mem_of_getElem? hother)
          dsimp only
          rw [aligned_modify_iff h]
          constructor
          · intro hmerge a b ha hb
            rw [hother] at hb
            cases hb
            exact ((h a (List.mem_of_getElem? ha)).merge hotherAligned).mp (hmerge a ha)
          · intro hmeets a ha
            exact ((h a (List.mem_of_getElem? ha)).merge hotherAligned).mpr (hmeets a other ha hother)

/-! ### Runs -/

/-- A merge that throws leaves a receipt as it was if there was nothing to append. -/
theorem merge_eq_self {error : String} (herror : tracked.receipt.merge other.receipt = .error error)
    (htxns : other.receipt.internalTxns = []) (hcoins : other.receipt.coins = []) :
    tracked.merge other = tracked := by
  unfold TrackedReceipt.merge TxReceipt.afterMerge
  rw [herror, htxns, hcoins]
  simp

/-- A step from aligned receipts is lawful exactly if the event is as it should be. -/
theorem lawful_iff (h : ∀ tracked ∈ receipts, tracked.Aligned) (event : Event) :
    Lawful receipts event ↔ Meets receipts event := by
  rw [← aligned_step_iff h]
  constructor
  · exact fun hlawful => hlawful.aligned
  · intro haligned
    have hmeets := (aligned_step_iff h event).mp haligned
    refine ⟨haligned, fun tracked hmem hnodup hash coins hadded =>
      (haligned tracked hmem).getCoinsForTx hnodup hadded, ?_, ?_⟩
    · rintro n m a b error rfl ha hb herror
      have hlt := merge_error_iff.mp ⟨error, herror⟩
      have htxns := (hmeets a b ha hb).resolve_left (not_le.mpr hlt)
      have hcoins : b.receipt.coins = [] := by
        have hb' := h b (List.mem_of_getElem? hb)
        rw [hb'.2, List.map_eq_nil_iff]
        rw [hb'.1, List.map_eq_nil_iff] at htxns
        exact htxns
      rw [step, hb]
      dsimp only
      apply List.ext_getElem?
      intro i
      rw [List.getElem?_modify]
      split
      next heq =>
        subst heq
        rw [ha]
        exact congrArg some (merge_eq_self herror htxns hcoins)
      next => simp
    · rintro n m a b merged rfl ha hb hmerge
      refine ⟨a.merge b, ?_, ?_, ?_⟩
      · rw [step, hb]
        dsimp only
        rw [List.getElem?_modify_eq, ha]
        rfl
      · rw [TrackedReceipt.merge, TxReceipt.afterMerge, hmerge]
      · obtain ⟨-, rfl⟩ := guard_eq_ok.mp hmerge
        exact ⟨rfl, rfl⟩

/-- The steps of a run are lawful exactly if its events are as they should be. -/
theorem everyStep_lawful_iff (events : List Event) :
    Runs.EveryStep step Lawful [] events ↔ Runs.EveryStep step Meets [] events := by
  refine Runs.everyStep_congr (I := fun receipts => ∀ tracked ∈ receipts, tracked.Aligned)
    (fun receipts event _ hlawful => hlawful.aligned) (fun receipts event h => lawful_iff h event)
    ?_ events
  simp

/-- A receipt of 5 coins, one of 3 coins with an internal transaction, and their merge. -/
def cheaperMerge : List Event :=
  [.construct { coinsUsed := 5, status := .TX_STATUS_OK },
    .construct { coinsUsed := 3, status := .TX_STATUS_OK, internalTxns := [7], coins := [⟨1, 2⟩] },
    .merge 0 1]

/-- The merge throws after it has joined the arrays. -/
theorem not_lawful_cheaperMerge : ¬ ∀ events, Runs.EveryStep step Lawful [] events := by
  intro hclaim
  obtain ⟨-, -, hmerge, -⟩ := hclaim cheaperMerge
  have htxns := (hmerge.aligned _ List.mem_cons_self).1
  revert htxns
  decide +kernel

end TrackedReceipt

end CilCore
