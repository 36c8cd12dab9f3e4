import CilCore.Structures.ContractForms
import CilCore.Wallet.ListedUtxo

/-!
# UTXOs as arrays

`structures/utxo.js` keeps a UTXO as two arrays, one of indexes and one of outputs, each UTXO
its own ones. Here they are compared with the finite maps that the rest of the development
works with.
-/

namespace CilCore

/-- The arrays of a UTXO. -/
structure UtxoData where
  arrIndexes : List Nat := []
  arrOutputs : List Coins := []
deriving DecidableEq

/-- `arrayIntersection` of `utils.js`. -/
def arrayIntersection (array1 array2 : List Nat) : List Nat := array2.filter (· ∈ array1)

/-- `arrayEquals` of `utils.js`. -/
def arrayEquals (array1 array2 : List Nat) : Bool :=
  array1.length == array2.length && (arrayIntersection array1 array2).length == array1.length

namespace UtxoData

/-- `findIndex` in the array of indexes. -/
def findIndex (idx : Nat) (data : UtxoData) : Option Nat :=
  data.arrIndexes.findIdx? (· == idx)

/-- `isEmpty`. -/
def isEmpty (data : UtxoData) : Except String Bool :=
  if data.arrIndexes.length ≠ data.arrOutputs.length then
    .error "UTXO integrity check failed!"
  else .ok data.arrIndexes.isEmpty

/-- `addCoins`. -/
def addCoins (idx : Nat) (coins : Coins) (data : UtxoData) : Except String UtxoData :=
  match data.findIndex idx with
  | some _ => .error "index already added!"
  | none =>
      .ok { arrIndexes := data.arrIndexes ++ [idx], arrOutputs := data.arrOutputs ++ [coins] }

/-- `spendCoins`. -/
def spendCoins (nTxOutput : Nat) (data : UtxoData) : Except String UtxoData :=
  match data.findIndex nTxOutput with
  | none => .error "index already deleted!"
  | some idx =>
      .ok
        { arrIndexes := data.arrIndexes.eraseIdx idx
          arrOutputs := data.arrOutputs.eraseIdx idx }

/-- `coinsAtIndex`. -/
def coinsAtIndex (idx : Nat) (data : UtxoData) : Except String Coins :=
  match data.findIndex idx with
  | none => .error "Output already spent!"
  | some index =>
      match data.arrOutputs[index]? with
      | some coins => .ok coins
      | none => .error "Cannot destructure property 'amount' of undefined"

/-- `clone`, which encodes and decodes the arrays: indexes are `uint32`, amounts `fixed64`. -/
def clone (data : UtxoData) : UtxoData where
  arrIndexes := data.arrIndexes.map (· % 2 ^ 32)
  arrOutputs := data.arrOutputs.map fun coins =>
    { coins with amount := writeFixed64 coins.amount }

/-- `getOutputsForAddress`. -/
def getOutputsForAddress (address : Address) (data : UtxoData) :
    Except String (List (Nat × Coins)) := do
  let outputs ← data.arrIndexes.mapM fun idx => do return (idx, ← data.coinsAtIndex idx)
  return outputs.filter fun output => output.2.receiverAddr == address

/-- `filterOutputsForAddress`. -/
def filterOutputsForAddress (address : Address) (data : UtxoData) : Except String UtxoData := do
  let arrAddrOutputs ← data.getOutputsForAddress address
  arrAddrOutputs.foldlM (fun filtered output => filtered.addCoins output.1 output.2) {}

/-- `amountOut`. -/
def amountOut (data : UtxoData) : Except String Amount :=
  data.arrIndexes.foldlM (fun accum idx => do return accum + (← data.coinsAtIndex idx).amount) 0

/-- `equals`. -/
def equals (data other : UtxoData) : Except String Bool :=
  if arrayEquals data.arrIndexes other.arrIndexes then
    data.arrIndexes.allM fun idx => do
      return (← data.coinsAtIndex idx) == (← other.coinsAtIndex idx)
  else .ok false

end UtxoData

/-- An operation on the UTXOs that were constructed so far, which are numbered. -/
inductive UtxoOperation where
  | create (txHash : Hash)
  | addCoins (n idx : Nat) (coins : Coins)
  | spendCoins (n nTxOutput : Nat)
  | clone (n : Nat)
  | filterOutputsForAddress (n : Nat) (address : Address)

/-- A UTXO: the hash of its transaction, and where its data is. -/
structure UtxoObject where
  txHash : Hash
  data : Nat
deriving DecidableEq

/-- All UTXOs and all data that were constructed. -/
structure UtxoHeap where
  datas : List UtxoData := []
  utxos : List UtxoObject := []

namespace UtxoHeap

/-- The data of a UTXO. -/
def dataOf (n : Nat) (s : UtxoHeap) : Option UtxoData :=
  (s.utxos[n]?).bind fun utxo => s.datas[utxo.data]?

/-- `constructor`: the new UTXO gets data of its own. -/
def construct (txHash : Hash) (data : UtxoData) (s : UtxoHeap) : UtxoHeap where
  datas := s.datas ++ [data]
  utxos := s.utxos ++ [⟨txHash, s.datas.length⟩]

/-- Change the data of a UTXO in place. -/
def change (n : Nat) (f : UtxoData → Except String UtxoData) (s : UtxoHeap) :
    UtxoHeap × Except String Unit :=
  match s.utxos[n]?, s.dataOf n with
  | some utxo, some data =>
      match f data with
      | .ok after => ({ s with datas := s.datas.set utxo.data after }, .ok ())
      | .error e => (s, .error e)
  | _, _ => (s, .error "no such UTXO")

/-- Construct a UTXO from one that is there. -/
def derive (n : Nat) (f : UtxoData → Except String UtxoData) (s : UtxoHeap) :
    UtxoHeap × Except String Unit :=
  match s.utxos[n]?, s.dataOf n with
  | some utxo, some data =>
      match f data with
      | .ok other => (s.construct utxo.txHash other, .ok ())
      | .error e => (s, .error e)
  | _, _ => (s, .error "no such UTXO")

/-- One operation. -/
def step (s : UtxoHeap) : UtxoOperation → UtxoHeap × Except String Unit
  | .create txHash => (s.construct txHash {}, .ok ())
  | .addCoins n idx coins => s.change n (·.addCoins idx coins)
  | .spendCoins n nTxOutput => s.change n (·.spendCoins nTxOutput)
  | .clone n => s.derive n fun data => .ok data.clone
  | .filterOutputsForAddress n address => s.derive n (·.filterOutputsForAddress address)

end UtxoHeap

/-- UTXOs as maps, each of which is a value. -/
abbrev UtxoMaps := List UTXO

namespace UtxoMaps

/-- Change one map. -/
def change (n : Nat) (f : UTXO → Except String UTXO) (maps : UtxoMaps) :
    UtxoMaps × Except String Unit :=
  match maps[n]? with
  | none => (maps, .error "no such UTXO")
  | some utxo =>
      match f utxo with
      | .ok after => (maps.set n after, .ok ())
      | .error e => (maps, .error e)

/-- Add a map that is made from another one. -/
def derive (n : Nat) (f : UTXO → UTXO) (maps : UtxoMaps) : UtxoMaps × Except String Unit :=
  match maps[n]? with
  | none => (maps, .error "no such UTXO")
  | some utxo => (maps ++ [f utxo], .ok ())

/-- One operation. -/
def step (maps : UtxoMaps) : UtxoOperation → UtxoMaps × Except String Unit
  | .create _ => (maps ++ [∅], .ok ())
  | .addCoins n idx coins => maps.change n (·.addCoins idx coins)
  | .spendCoins n nTxOutput => maps.change n (·.spendCoins nTxOutput)
  | .clone n => maps.derive n id
  | .filterOutputsForAddress n address => maps.derive n (·.filterOutputsForAddress address)

end UtxoMaps

namespace UtxoData

/-- The arrays of some entries. -/
def ofEntries (entries : List (Nat × Coins)) : UtxoData where
  arrIndexes := entries.map (·.1)
  arrOutputs := entries.map (·.2)

variable {entries : List (Nat × Coins)} {idx : Nat}

/-! ### The arrays of entries -/

theorem findIndex_ofEntries_cons (entry : Nat × Coins) :
    (ofEntries (entry :: entries)).findIndex idx =
      if entry.1 = idx then some 0 else ((ofEntries entries).findIndex idx).map (· + 1) := by
  simp [findIndex, ofEntries, List.findIdx?_cons]

theorem findIndex_ofEntries_eq_none_iff :
    (ofEntries entries).findIndex idx = none ↔ idx ∉ entries.map (·.1) := by
  rw [findIndex, ofEntries, List.findIdx?_eq_none_iff]
  simp only [beq_eq_false_iff_ne]
  constructor
  · exact fun h hmem => h idx hmem rfl
  · intro h i hi heq
    rw [heq] at hi
    exact h hi

theorem coinsAtIndex_ofEntries_cons (entry : Nat × Coins) :
    (ofEntries (entry :: entries)).coinsAtIndex idx =
      if entry.1 = idx then .ok entry.2 else (ofEntries entries).coinsAtIndex idx := by
  rw [coinsAtIndex, findIndex_ofEntries_cons]
  by_cases heq : entry.1 = idx
  · rw [if_pos heq, if_pos heq]
    rfl
  · rw [if_neg heq, if_neg heq, coinsAtIndex]
    cases (ofEntries entries).findIndex idx with
    | none => rfl
    | some k => rfl

theorem coinsAtIndex_ofEntries (entries : List (Nat × Coins)) (idx : Nat) :
    (ofEntries entries).coinsAtIndex idx =
      match entries.lookup idx with
      | some coins => .ok coins
      | none => .error "Output already spent!" := by
  induction entries with
  | nil => rfl
  | cons entry rest ih =>
      rw [coinsAtIndex_ofEntries_cons, ih, List.lookup_cons]
      by_cases heq : entry.1 = idx
      · rw [if_pos heq, beq_iff_eq.mpr heq.symm]
      · rw [if_neg heq, beq_eq_false_iff_ne.mpr fun h => heq h.symm]

theorem addCoins_ofEntries (entries : List (Nat × Coins)) (idx : Nat) (coins : Coins) :
    (ofEntries entries).addCoins idx coins =
      if idx ∈ entries.map (·.1) then .error "index already added!"
      else .ok (ofEntries (entries ++ [(idx, coins)])) := by
  rw [addCoins]
  by_cases hmem : idx ∈ entries.map (·.1)
  · rw [if_pos hmem]
    cases hfind : (ofEntries entries).findIndex idx with
    | some k => rfl
    | none => exact absurd hmem (findIndex_ofEntries_eq_none_iff.mp hfind)
  · rw [if_neg hmem, findIndex_ofEntries_eq_none_iff.mpr hmem]
    simp [ofEntries]

theorem spendCoins_ofEntries (entries : List (Nat × Coins)) (idx : Nat) :
    (ofEntries entries).spendCoins idx =
      if idx ∈ entries.map (·.1) then
        .ok (ofEntries (entries.eraseP fun entry => entry.1 == idx))
      else .error "index already deleted!" := by
  induction entries with
  | nil => rfl
  | cons entry rest ih =>
      rw [spendCoins, findIndex_ofEntries_cons]
      by_cases heq : entry.1 = idx
      · rw [if_pos heq, if_pos (by simp [heq]), List.eraseP_cons_of_pos (by simp [heq])]
        rfl
      · rw [if_neg heq, List.eraseP_cons_of_neg (by simp [heq])]
        rw [spendCoins] at ih
        cases hfind : (ofEntries rest).findIndex idx with
        | none =>
            have hnot := findIndex_ofEntries_eq_none_iff.mp hfind
            rw [if_neg]
            · rfl
            · rw [List.map_cons, List.mem_cons]
              exact fun hmem => hmem.elim (fun h => heq h.symm) hnot
        | some k =>
            rw [hfind] at ih
            have hmem : idx ∈ rest.map (·.1) := by
              by_contra hnot
              rw [findIndex_ofEntries_eq_none_iff.mpr hnot] at hfind
              cases hfind
            rw [if_pos hmem] at ih
            have hcons : idx ∈ (entry :: rest).map (·.1) := List.mem_cons_of_mem _ hmem
            rw [if_pos hcons]
            have hrest := Except.ok.inj ih
            have hindexes := congrArg UtxoData.arrIndexes hrest
            have houtputs := congrArg UtxoData.arrOutputs hrest
            simp only [Option.map_some, ofEntries, List.map_cons, List.eraseIdx_cons_succ,
              Except.ok.injEq, UtxoData.mk.injEq, List.cons.injEq, true_and]
            exact ⟨hindexes, houtputs⟩

/-! ### The map of entries -/

theorem lookup_eq_none_iff : entries.lookup idx = none ↔ idx ∉ entries.map (·.1) := by
  induction entries with
  | nil => simp
  | cons entry rest ih =>
      rw [List.lookup_cons]
      by_cases heq : idx = entry.1
      · simp [heq]
      · rw [beq_eq_false_iff_ne.mpr heq]
        simp only [ih, List.map_cons, List.mem_cons, not_or]
        exact ⟨fun h => ⟨heq, h⟩, fun h => h.2⟩

theorem lookup_of_mem (hnodup : (entries.map (·.1)).Nodup) {coins : Coins}
    (hmem : (idx, coins) ∈ entries) : entries.lookup idx = some coins := by
  induction entries with
  | nil => cases hmem
  | cons entry rest ih =>
      rw [List.map_cons, List.nodup_cons] at hnodup
      rw [List.lookup_cons]
      obtain hhead | hrest := List.mem_cons.mp hmem
      · rw [← hhead, beq_self_eq_true]
      · have hne : idx ≠ entry.1 := by
          intro heq
          rw [← heq] at hnodup
          exact hnodup.1 (List.mem_map_of_mem hrest)
        rw [beq_eq_false_iff_ne.mpr hne]
        exact ih hnodup.2 hrest

theorem lookup_append_singleton (hfresh : idx ∉ entries.map (·.1)) (coins : Coins) (j : Nat) :
    (entries ++ [(idx, coins)]).lookup j = if j = idx then some coins else entries.lookup j := by
  induction entries with
  | nil =>
      by_cases heq : j = idx
      · simp [heq]
      · simp [heq, List.lookup_cons, beq_eq_false_iff_ne.mpr heq]
  | cons entry rest ih =>
      rw [List.map_cons, List.mem_cons, not_or] at hfresh
      rw [List.cons_append, List.lookup_cons, List.lookup_cons, ih hfresh.2]
      by_cases heq : j = entry.1
      · have hne : ¬ entry.1 = idx := fun h => hfresh.1 h.symm
        rw [heq, beq_self_eq_true, if_neg hne, if_neg hne]
      · rw [beq_eq_false_iff_ne.mpr heq]

theorem lookup_eraseP (hnodup : (entries.map (·.1)).Nodup) (j : Nat) :
    (entries.eraseP fun entry => entry.1 == idx).lookup j =
      if j = idx then none else entries.lookup j := by
  induction entries with
  | nil => simp
  | cons entry rest ih =>
      rw [List.map_cons, List.nodup_cons] at hnodup
      by_cases heq : entry.1 = idx
      · rw [List.eraseP_cons_of_pos (by simp [heq])]
        by_cases hj : j = idx
        · rw [if_pos hj, lookup_eq_none_iff, hj, ← heq]
          exact hnodup.1
        · rw [if_neg hj, List.lookup_cons, beq_eq_false_iff_ne.mpr fun h => hj (h.trans heq)]
      · rw [List.eraseP_cons_of_neg (by simp [heq]), List.lookup_cons, List.lookup_cons,
          ih hnodup.2]
        by_cases hj : j = entry.1
        · rw [hj, beq_self_eq_true, if_neg heq, if_neg heq]
        · rw [beq_eq_false_iff_ne.mpr hj]

/-- The arrays hold the entries of a map, with indexes and amounts that can be encoded. -/
structure Represents (data : UtxoData) (utxo : UTXO) (entries : List (Nat × Coins)) : Prop where
  data_eq : data = ofEntries entries
  nodup : (entries.map (·.1)).Nodup
  lookup : ∀ idx, Finmap.lookup idx utxo = entries.lookup idx
  fits : ∀ entry ∈ entries, entry.1 < 2 ^ 32 ∧ FitsFixed64 entry.2.amount

variable {data : UtxoData} {utxo : UTXO}

theorem Represents.mem_keys_iff (h : Represents data utxo entries) :
    idx ∈ utxo.keys ↔ idx ∈ entries.map (·.1) := by
  rw [← not_iff_not, FinMap.notMem_keys_iff, h.lookup, lookup_eq_none_iff]

theorem Represents.empty : Represents {} ∅ [] where
  data_eq := rfl
  nodup := List.nodup_nil
  lookup := by simp
  fits := by simp

/-- What an operation on arrays returns, against the operation on the map. -/
def SameOutcome (after : Except String UtxoData) (after' : Except String UTXO) : Prop :=
  (∃ data utxo entries, after = .ok data ∧ after' = .ok utxo ∧ Represents data utxo entries) ∨
    ∃ e, after = .error e ∧ after' = .error e

theorem Represents.addCoins (h : Represents data utxo entries) (hidx : idx < 2 ^ 32)
    {coins : Coins} (hcoins : FitsFixed64 coins.amount) :
    SameOutcome (data.addCoins idx coins) (utxo.addCoins idx coins) := by
  rw [h.data_eq, addCoins_ofEntries, UTXO.addCoins]
  by_cases hmem : idx ∈ entries.map (·.1)
  · rw [if_pos hmem, if_pos (h.mem_keys_iff.mpr hmem)]
    exact .inr ⟨_, rfl, rfl⟩
  · rw [if_neg hmem, if_neg (mt h.mem_keys_iff.mp hmem)]
    refine .inl ⟨_, _, _, rfl, rfl, rfl, ?_, ?_, ?_⟩
    · rw [List.map_append, List.nodup_append]
      refine ⟨h.nodup, List.nodup_singleton _, ?_⟩
      intro a ha b hb heq
      rw [heq, List.mem_singleton.mp hb] at ha
      exact hmem ha
    · intro j
      rw [FinMap.lookup_insert_ite, lookup_append_singleton hmem, h.lookup]
    · intro entry hentry
      obtain hold | hnew := List.mem_append.mp hentry
      · exact h.fits entry hold
      · rw [List.mem_singleton.mp hnew]
        exact ⟨hidx, hcoins⟩

theorem Represents.spendCoins (h : Represents data utxo entries) (nTxOutput : Nat) :
    SameOutcome (data.spendCoins nTxOutput) (utxo.spendCoins nTxOutput) := by
  rw [h.data_eq, spendCoins_ofEntries, UTXO.spendCoins]
  by_cases hmem : nTxOutput ∈ entries.map (·.1)
  · rw [if_pos hmem, if_pos (h.mem_keys_iff.mpr hmem)]
    refine .inl ⟨_, _, _, rfl, rfl, rfl, ?_, ?_, ?_⟩
    · exact h.nodup.sublist (List.eraseP_sublist.map _)
    · intro j
      rw [FinMap.lookup_erase_ite, lookup_eraseP h.nodup, h.lookup]
    · exact fun entry hentry => h.fits entry (List.mem_of_mem_eraseP hentry)
  · rw [if_neg hmem, if_neg (mt h.mem_keys_iff.mp hmem)]
    exact .inr ⟨_, rfl, rfl⟩

theorem Represents.clone (h : Represents data utxo entries) :
    Represents data.clone utxo entries := by
  refine { h with data_eq := ?_ }
  have hindexes : (entries.map (·.1)).map (· % 2 ^ 32) = entries.map (·.1) := by
    rw [List.map_map]
    apply List.map_congr_left
    exact fun entry hentry => Nat.mod_eq_of_lt (h.fits entry hentry).1
  have houtputs : ((entries.map (·.2)).map fun coins =>
      { coins with amount := writeFixed64 coins.amount }) = entries.map (·.2) := by
    rw [List.map_map]
    apply List.map_congr_left
    intro entry hentry
    have hamount := writeFixed64_eq_iff.mpr (h.fits entry hentry).2
    simp only [Function.comp_apply, hamount]
  rw [h.data_eq, UtxoData.clone]
  exact congrArg₂ UtxoData.mk hindexes houtputs

theorem Represents.coinsAtIndex (h : Represents data utxo entries) (idx : Nat) :
    data.coinsAtIndex idx = utxo.coinsAtIndex idx := by
  cases hlookup : entries.lookup idx with
  | none => simp only [h.data_eq, coinsAtIndex_ofEntries, UTXO.coinsAtIndex, h.lookup, hlookup]
  | some coins =>
      simp only [h.data_eq, coinsAtIndex_ofEntries, UTXO.coinsAtIndex, h.lookup, hlookup]

theorem Represents.coinsAtIndex_of_mem (h : Represents data utxo entries) {coins : Coins}
    (hmem : (idx, coins) ∈ entries) : data.coinsAtIndex idx = .ok coins := by
  rw [h.data_eq, coinsAtIndex_ofEntries, lookup_of_mem h.nodup hmem]

/-! ### Filtering -/

theorem lookup_filter (hnodup : (entries.map (·.1)).Nodup) (p : Coins → Bool) (j : Nat) :
    (entries.filter fun entry => p entry.2).lookup j = (entries.lookup j).filter p := by
  induction entries with
  | nil => rfl
  | cons entry rest ih =>
      rw [List.map_cons, List.nodup_cons] at hnodup
      rw [List.filter_cons, List.lookup_cons]
      by_cases hj : j = entry.1
      · rw [hj, beq_self_eq_true]
        cases hp : p entry.2 with
        | true =>
            rw [if_pos rfl, List.lookup_cons, beq_self_eq_true, Option.filter_some, hp, if_pos rfl]
        | false =>
            have hgone : (rest.filter fun entry => p entry.2).lookup entry.1 = none := by
              rw [lookup_eq_none_iff]
              intro hmem
              obtain ⟨other, hother, heq⟩ := List.mem_map.mp hmem
              rw [← heq] at hnodup
              exact hnodup.1 (List.mem_map_of_mem (List.mem_filter.mp hother).1)
            rw [if_neg Bool.false_ne_true, hgone, Option.filter_some, hp,
              if_neg Bool.false_ne_true]
      · rw [beq_eq_false_iff_ne.mpr hj, ← ih hnodup.2]
        split
        next => rw [List.lookup_cons, beq_eq_false_iff_ne.mpr hj]
        next => rfl

theorem mapM_coinsAtIndex (h : Represents data utxo entries) {xs : List (Nat × Coins)}
    (hxs : ∀ entry ∈ xs, entry ∈ entries) :
    ((xs.map (·.1)).mapM fun idx => do return (idx, ← data.coinsAtIndex idx)) = .ok xs := by
  induction xs with
  | nil => rfl
  | cons entry rest ih =>
      have hcoins := h.coinsAtIndex_of_mem (hxs entry List.mem_cons_self)
      rw [List.map_cons, List.mapM_cons, hcoins,
        ih fun other hother => hxs other (List.mem_cons_of_mem _ hother)]
      rfl

theorem foldlM_addCoins {before xs : List (Nat × Coins)}
    (hnodup : ((before ++ xs).map (·.1)).Nodup) :
    xs.foldlM (fun filtered output => filtered.addCoins output.1 output.2) (ofEntries before) =
      .ok (ofEntries (before ++ xs)) := by
  induction xs generalizing before with
  | nil => rw [List.append_nil]; rfl
  | cons entry rest ih =>
      have hfresh : entry.1 ∉ before.map (·.1) := by
        rw [List.map_append, List.nodup_append] at hnodup
        exact fun hmem => hnodup.2.2 entry.1 hmem entry.1 List.mem_cons_self rfl
      rw [List.foldlM_cons, addCoins_ofEntries, if_neg hfresh]
      have hassoc : before ++ entry :: rest = before ++ [(entry.1, entry.2)] ++ rest := by simp
      rw [hassoc] at hnodup ⊢
      exact ih hnodup

theorem Represents.filterOutputsForAddress (h : Represents data utxo entries)
    (address : Address) :
    ∃ filtered, data.filterOutputsForAddress address = .ok filtered ∧
      Represents filtered (utxo.filterOutputsForAddress address)
        (entries.filter fun entry => entry.2.receiverAddr == address) := by
  have hnodup : ((entries.filter fun entry =>
      entry.2.receiverAddr == address).map (·.1)).Nodup :=
    h.nodup.sublist (List.filter_sublist.map _)
  refine ⟨_, ?_, rfl, hnodup, ?_, ?_⟩
  · have hindexes : data.arrIndexes = entries.map (·.1) := by
      rw [h.data_eq]
      rfl
    rw [UtxoData.filterOutputsForAddress, getOutputsForAddress, hindexes,
      mapM_coinsAtIndex h fun _ hentry => hentry]
    rw [← List.nil_append (entries.filter fun entry => entry.2.receiverAddr == address)] at hnodup ⊢
    exact foldlM_addCoins hnodup
  · intro j
    rw [UTXO.filterOutputsForAddress, FinMap.lookup_tabulate,
      lookup_filter h.nodup (·.receiverAddr == address), h.lookup]
    split
    next => rfl
    next hnot =>
      rw [FinMap.notMem_keys_iff, h.lookup] at hnot
      rw [hnot]
      rfl
  · exact fun entry hentry => h.fits entry (List.mem_filter.mp hentry).1

/-! ### Reading -/

theorem Represents.isEmpty (h : Represents data utxo entries) :
    data.isEmpty = .ok (decide utxo.isEmpty) := by
  have hempty : utxo.isEmpty ↔ entries = [] := by
    unfold UTXO.isEmpty
    constructor
    · intro hkeys
      apply List.eq_nil_iff_forall_not_mem.mpr
      intro entry hentry
      have hmem := h.mem_keys_iff.mpr (List.mem_map_of_mem (f := (·.1)) hentry)
      rw [hkeys] at hmem
      cases hmem
    · rintro rfl
      apply Finset.eq_empty_of_forall_notMem
      intro j hj
      cases h.mem_keys_iff.mp hj
  rw [h.data_eq, UtxoData.isEmpty, ofEntries, if_neg (by simp)]
  cases entries with
  | nil => simp [hempty]
  | cons entry rest => simp [hempty]

theorem foldlM_amount (h : Represents data utxo entries) {xs : List (Nat × Coins)}
    (hxs : ∀ entry ∈ xs, entry ∈ entries) (accum : Amount) :
    ((xs.map (·.1)).foldlM
        (fun accum idx => do return accum + (← data.coinsAtIndex idx).amount) accum) =
      (.ok (accum + (xs.map (·.2.amount)).sum) : Except String Amount) := by
  induction xs generalizing accum with
  | nil => simp; rfl
  | cons entry rest ih =>
      have hcoins := h.coinsAtIndex_of_mem (hxs entry List.mem_cons_self)
      rw [List.map_cons, List.foldlM_cons, hcoins, List.map_cons, List.sum_cons, ← add_assoc]
      exact ih (fun other hother => hxs other (List.mem_cons_of_mem _ hother)) _

theorem lookup_foldr_insert (entries : List (Nat × Coins)) (j : Nat) :
    (entries.foldr (fun entry m => Finmap.insert entry.1 entry.2 m) (∅ : UTXO)).lookup j =
      entries.lookup j := by
  induction entries with
  | nil => simp
  | cons entry rest ih =>
      rw [List.foldr_cons, FinMap.lookup_insert_ite, ih, List.lookup_cons]
      by_cases hj : j = entry.1
      · rw [if_pos hj, beq_iff_eq.mpr hj]
      · rw [if_neg hj, beq_eq_false_iff_ne.mpr hj]

theorem Represents.amountOut (h : Represents data utxo entries) :
    data.amountOut = .ok utxo.amountOut := by
  have hmap : utxo = (ListedUtxo.mk 0 entries h.nodup).toUTXO := by
    apply Finmap.ext_lookup
    intro j
    rw [h.lookup, ListedUtxo.toUTXO, lookup_foldr_insert]
  have hindexes : data.arrIndexes = entries.map (·.1) := by
    rw [h.data_eq]
    rfl
  rw [UtxoData.amountOut, hindexes, foldlM_amount h fun _ hentry => hentry, zero_add, hmap,
    ListedUtxo.amountOut_toUTXO]
  rfl

/-! ### Comparing -/

theorem arrayEquals_iff {xs ys : List Nat} (hxs : xs.Nodup) (hys : ys.Nodup) :
    arrayEquals xs ys = true ↔ ∀ j, j ∈ xs ↔ j ∈ ys := by
  rw [arrayEquals, Bool.and_eq_true, beq_iff_eq, beq_iff_eq, arrayIntersection]
  constructor
  · rintro ⟨hlength, hcommon⟩
    rw [hlength, List.length_filter_eq_length_iff] at hcommon
    have hsub : ys ⊆ xs := fun j hj => by simpa using hcommon j hj
    have hperm : ys.Perm xs := (List.subperm_of_subset hys hsub).perm_of_length_le hlength.le
    exact fun j => hperm.mem_iff.symm
  · intro hsame
    have hlength : xs.length = ys.length :=
      ((List.perm_ext_iff_of_nodup hxs hys).mpr hsame).length_eq
    refine ⟨hlength, ?_⟩
    rw [hlength, List.length_filter_eq_length_iff]
    exact fun j hj => by simpa using (hsame j).mpr hj

theorem allM_eq_ok {f : Nat → Except String Bool} {p : Nat → Bool} {xs : List Nat}
    (h : ∀ x ∈ xs, f x = .ok (p x)) : xs.allM f = .ok (xs.all p) := by
  induction xs with
  | nil => rfl
  | cons x rest ih =>
      have hrest := ih fun y hy => h y (List.mem_cons_of_mem _ hy)
      rw [List.allM, h x List.mem_cons_self, List.all_cons]
      cases p x with
      | true => exact hrest
      | false => rfl

/-- `equals` is equality of the maps. -/
theorem Represents.equals {other : UtxoData} {utxo' : UTXO} {entries' : List (Nat × Coins)}
    (h : Represents data utxo entries) (h' : Represents other utxo' entries') :
    data.equals other = .ok (decide (utxo = utxo')) := by
  have hindexes : data.arrIndexes = entries.map (·.1) := by
    rw [h.data_eq]
    rfl
  have hindexes' : other.arrIndexes = entries'.map (·.1) := by
    rw [h'.data_eq]
    rfl
  rw [UtxoData.equals, hindexes, hindexes']
  by_cases harrays : arrayEquals (entries.map (·.1)) (entries'.map (·.1)) = true
  · have hsame := (arrayEquals_iff h.nodup h'.nodup).mp harrays
    have hall : ∀ j ∈ entries.map (·.1),
        (do return (← data.coinsAtIndex j) == (← other.coinsAtIndex j) : Except String Bool) =
          .ok (decide (utxo.lookup j = utxo'.lookup j)) := by
      intro j hj
      obtain ⟨coins, hcoins⟩ := FinMap.mem_keys_iff.mp (h.mem_keys_iff.mpr hj)
      obtain ⟨coins', hcoins'⟩ :=
        FinMap.mem_keys_iff.mp (h'.mem_keys_iff.mpr ((hsame j).mp hj))
      rw [h.coinsAtIndex, h'.coinsAtIndex, UTXO.coinsAtIndex, UTXO.coinsAtIndex, hcoins,
        hcoins']
      by_cases heq : coins = coins'
      · subst heq
        simp [bind, Except.bind, pure, Except.pure]
      · simp [bind, Except.bind, pure, Except.pure, heq]
    rw [if_pos harrays, allM_eq_ok hall, Except.ok.injEq]
    apply Bool.eq_iff_iff.mpr
    rw [List.all_eq_true, decide_eq_true_iff]
    constructor
    · intro hvalues
      apply Finmap.ext_lookup
      intro j
      by_cases hj : j ∈ entries.map (·.1)
      · exact of_decide_eq_true (hvalues j hj)
      · rw [h.lookup, h'.lookup, lookup_eq_none_iff.mpr hj,
          lookup_eq_none_iff.mpr (mt (hsame j).mpr hj)]
    · rintro rfl j -
      exact decide_eq_true rfl
  · rw [if_neg harrays, Except.ok.injEq, eq_comm, decide_eq_false_iff_not]
    rintro rfl
    apply harrays
    rw [arrayEquals_iff h.nodup h'.nodup]
    exact fun j => h.mem_keys_iff.symm.trans h'.mem_keys_iff

end UtxoData

/-- The arrays behave as a map. -/
structure UtxoData.IsMap (data : UtxoData) (utxo : UTXO) : Prop where
  nodup : data.arrIndexes.Nodup
  aligned : data.arrIndexes.length = data.arrOutputs.length
  isEmpty : data.isEmpty = .ok (decide utxo.isEmpty)
  getIndexes : data.arrIndexes.toFinset = utxo.getIndexes
  coinsAtIndex : ∀ idx, data.coinsAtIndex idx = utxo.coinsAtIndex idx
  amountOut : data.amountOut = .ok utxo.amountOut

theorem UtxoData.Represents.isMap {data : UtxoData} {utxo : UTXO} {entries : List (Nat × Coins)}
    (h : Represents data utxo entries) : data.IsMap utxo where
  nodup := by
    rw [h.data_eq]
    exact h.nodup
  aligned := by simp [h.data_eq, ofEntries]
  isEmpty := h.isEmpty
  getIndexes := by
    ext idx
    rw [UTXO.getIndexes, h.mem_keys_iff, List.mem_toFinset, h.data_eq]
    rfl
  coinsAtIndex := h.coinsAtIndex
  amountOut := h.amountOut

/-- The UTXO that an operation changes in place. -/
def UtxoOperation.changes : UtxoOperation → Option Nat
  | addCoins n _ _ | spendCoins n _ => some n
  | create _ | clone _ | filterOutputsForAddress _ _ => none

/-- The index and the amount that are added can be encoded. -/
def UtxoOperation.Fits : UtxoOperation → Prop
  | addCoins _ idx coins => idx < 2 ^ 32 ∧ FitsFixed64 coins.amount
  | _ => True

/-- UTXOs with their arrays, beside the maps. -/
structure UtxoRun where
  heap : UtxoHeap := {}
  maps : UtxoMaps := []

namespace UtxoRun

/-- One operation on both. -/
def step (s : UtxoRun) (operation : UtxoOperation) : UtxoRun :=
  ⟨(s.heap.step operation).1, (s.maps.step operation).1⟩

/-- An operation returns what it does on the maps, changes nothing where it fails, and no
other UTXO than its own. After it all UTXOs behave as their maps and are equal if these are. -/
structure BehavesAsMaps (s : UtxoRun) (operation : UtxoOperation) : Prop where
  answer : (s.heap.step operation).2 = (s.maps.step operation).2
  failed : ∀ e, (s.heap.step operation).2 = .error e → (s.heap.step operation).1 = s.heap
  independent : ∀ n data, operation.changes ≠ some n → s.heap.dataOf n = some data →
    (s.step operation).heap.dataOf n = some data
  isMap : ∀ n data, (s.step operation).heap.dataOf n = some data →
    ∃ utxo, (s.step operation).maps[n]? = some utxo ∧ data.IsMap utxo
  equals : ∀ n k data other utxo utxo', (s.step operation).heap.dataOf n = some data →
    (s.step operation).heap.dataOf k = some other →
    (s.step operation).maps[n]? = some utxo → (s.step operation).maps[k]? = some utxo' →
    data.equals other = .ok (decide (utxo = utxo'))

/-- Each UTXO has data of its own, which represents its map. -/
structure Holds (s : UtxoRun) : Prop where
  own : s.heap.utxos.map (·.data) = List.range s.heap.datas.length
  length : s.heap.datas.length = s.maps.length
  represents : ∀ (n : Nat) (data : UtxoData) (utxo : UTXO), s.heap.datas[n]? = some data →
    s.maps[n]? = some utxo → ∃ entries, UtxoData.Represents data utxo entries

variable {s : UtxoRun} {n : Nat}

/-! ### Steps -/

theorem Holds.dataOf (h : s.Holds) (n : Nat) : s.heap.dataOf n = s.heap.datas[n]? := by
  have hown := congrArg (·[n]?) h.own
  rw [List.getElem?_map] at hown
  rw [UtxoHeap.dataOf]
  by_cases hn : n < s.heap.datas.length
  · rw [List.getElem?_range hn] at hown
    obtain ⟨utxo, hutxo, hdata⟩ := Option.map_eq_some_iff.mp hown
    rw [hutxo]
    exact congrArg (s.heap.datas[·]?) hdata
  · have hlength := congrArg List.length h.own
    rw [List.length_map, List.length_range] at hlength
    rw [List.getElem?_eq_none (by omega), List.getElem?_eq_none (by omega)]
    rfl

theorem Holds.exists_utxo (h : s.Holds) (hn : n < s.heap.datas.length) :
    ∃ utxo, s.heap.utxos[n]? = some utxo ∧ utxo.data = n := by
  have hown := congrArg (·[n]?) h.own
  rw [List.getElem?_map, List.getElem?_range hn] at hown
  exact Option.map_eq_some_iff.mp hown

/-- An index without data has no map. -/
theorem Holds.exists_map (h : s.Holds) (n : Nat) :
    (s.heap.datas[n]? = none ∧ s.maps[n]? = none) ∨
      ∃ data utxo entries, n < s.heap.datas.length ∧ s.heap.datas[n]? = some data ∧
        s.maps[n]? = some utxo ∧ UtxoData.Represents data utxo entries := by
  by_cases hn : n < s.heap.datas.length
  · right
    have hmaps : n < s.maps.length := h.length ▸ hn
    obtain ⟨entries, hentries⟩ := h.represents n _ _ (List.getElem?_eq_getElem hn)
      (List.getElem?_eq_getElem hmaps)
    exact ⟨_, _, entries, hn, List.getElem?_eq_getElem hn, List.getElem?_eq_getElem hmaps,
      hentries⟩
  · left
    exact ⟨List.getElem?_eq_none (not_lt.mp hn),
      List.getElem?_eq_none (h.length ▸ not_lt.mp hn)⟩

theorem Holds.construct (h : s.Holds) (txHash : Hash) {data : UtxoData} {utxo : UTXO}
    {entries : List (Nat × Coins)} (hdata : UtxoData.Represents data utxo entries) :
    Holds ⟨s.heap.construct txHash data, s.maps ++ [utxo]⟩ where
  own := by
    simp only [UtxoHeap.construct, List.map_append, h.own, List.length_append, List.length_cons,
      List.length_nil, List.range_succ]
    rfl
  length := by simp [UtxoHeap.construct, h.length]
  represents := by
    intro n d m hd hm
    have hd : (s.heap.datas ++ [data])[n]? = some d := hd
    have hm : (s.maps ++ [utxo])[n]? = some m := hm
    by_cases hn : n < s.heap.datas.length
    · rw [List.getElem?_append_left hn] at hd
      rw [List.getElem?_append_left (h.length ▸ hn)] at hm
      exact h.represents n d m hd hm
    · have hlast : n = s.heap.datas.length := by
        have hlt := (List.getElem?_eq_some_iff.mp hd).1
        rw [List.length_append, List.length_singleton] at hlt
        omega
      rw [hlast, List.getElem?_concat_length] at hd
      rw [hlast, h.length, List.getElem?_concat_length] at hm
      obtain rfl := Option.some.inj hd
      obtain rfl := Option.some.inj hm
      exact ⟨entries, hdata⟩

theorem Holds.set (h : s.Holds) {data : UtxoData} {utxo : UTXO} {entries : List (Nat × Coins)}
    (hdata : UtxoData.Represents data utxo entries) (n : Nat) :
    Holds ⟨{ s.heap with datas := s.heap.datas.set n data }, s.maps.set n utxo⟩ where
  own := by
    rw [List.length_set]
    exact h.own
  length := by simp [h.length]
  represents := by
    intro k d m hd hm
    have hd : (s.heap.datas.set n data)[k]? = some d := hd
    have hm : (s.maps.set n utxo)[k]? = some m := hm
    rw [List.getElem?_set] at hd hm
    by_cases hk : n = k
    · rw [if_pos hk] at hd hm
      split at hd
      next =>
        split at hm
        next =>
          obtain rfl := Option.some.inj hd
          obtain rfl := Option.some.inj hm
          exact ⟨entries, hdata⟩
        next => cases hm
      next => cases hd
    · rw [if_neg hk] at hd hm
      exact h.represents k d m hd hm

/-- What an operation in place does. -/
theorem Holds.change (h : s.Holds) (n : Nat) (f : UtxoData → Except String UtxoData) :
    s.heap.change n f =
      match s.heap.datas[n]? with
      | none => (s.heap, .error "no such UTXO")
      | some data =>
          match f data with
          | .ok after => ({ s.heap with datas := s.heap.datas.set n after }, .ok ())
          | .error e => (s.heap, .error e) := by
  rw [UtxoHeap.change, h.dataOf]
  cases hdata : s.heap.datas[n]? with
  | none => cases s.heap.utxos[n]? <;> rfl
  | some data =>
      obtain ⟨utxo, hutxo, hown⟩ := h.exists_utxo (List.getElem?_eq_some_iff.mp hdata).1
      rw [hutxo]
      dsimp only
      rw [hown]

/-- What an operation that constructs a UTXO from another one does. -/
theorem Holds.derive (h : s.Holds) (n : Nat) (f : UtxoData → Except String UtxoData) :
    ∃ txHash, s.heap.derive n f =
      match s.heap.datas[n]? with
      | none => (s.heap, .error "no such UTXO")
      | some data =>
          match f data with
          | .ok other => (s.heap.construct txHash other, .ok ())
          | .error e => (s.heap, .error e) := by
  rw [UtxoHeap.derive, h.dataOf]
  cases hdata : s.heap.datas[n]? with
  | none => exact ⟨0, by cases s.heap.utxos[n]? <;> rfl⟩
  | some data =>
      obtain ⟨utxo, hutxo, -⟩ := h.exists_utxo (List.getElem?_eq_some_iff.mp hdata).1
      rw [hutxo]
      exact ⟨utxo.txHash, rfl⟩

/-- What a step does to the heap, besides what the maps tell. -/
structure Steps (s : UtxoRun) (changed : Option Nat) (after : UtxoHeap × Except String Unit)
    (after' : UtxoMaps × Except String Unit) : Prop where
  answer : after.2 = after'.2
  holds : Holds ⟨after.1, after'.1⟩
  failed : ∀ e, after.2 = .error e → after.1 = s.heap
  others : ∀ n data, changed ≠ some n → s.heap.datas[n]? = some data →
    after.1.datas[n]? = some data

theorem steps_error (h : s.Holds) (changed : Option Nat) (e : String) :
    Steps s changed (s.heap, .error e) (s.maps, .error e) :=
  ⟨rfl, h, fun _ _ => rfl, fun _ _ _ hdata => hdata⟩

theorem steps_construct (h : s.Holds) (txHash : Hash) {data : UtxoData} {utxo : UTXO}
    {entries : List (Nat × Coins)} (hdata : UtxoData.Represents data utxo entries) :
    Steps s none (s.heap.construct txHash data, .ok ()) (s.maps ++ [utxo], .ok ()) where
  answer := rfl
  holds := h.construct txHash hdata
  failed := fun e he => by cases he
  others := by
    intro n other _ hother
    have hn := (List.getElem?_eq_some_iff.mp hother).1
    exact (List.getElem?_append_left hn).trans hother

theorem steps_change (h : s.Holds) (n : Nat) {f : UtxoData → Except String UtxoData}
    {g : UTXO → Except String UTXO}
    (hfg : ∀ data utxo entries, UtxoData.Represents data utxo entries →
      UtxoData.SameOutcome (f data) (g utxo)) :
    Steps s (some n) (s.heap.change n f) (s.maps.change n g) := by
  rw [h.change, UtxoMaps.change]
  obtain ⟨hdata, hmap⟩ | ⟨data, utxo, entries, hn, hdata, hmap, hentries⟩ := h.exists_map n
  · rw [hdata, hmap]
    exact steps_error h _ _
  · rw [hdata, hmap]
    dsimp only
    obtain ⟨after, after', entries', hf, hg, hafter⟩ | ⟨e, hf, hg⟩ :=
      hfg data utxo entries hentries
    · rw [hf, hg]
      refine ⟨rfl, h.set hafter n, fun e he => (by cases he), ?_⟩
      intro k other hk hother
      have hne : n ≠ k := fun heq => hk (congrArg some heq)
      exact (List.getElem?_set_ne hne).trans hother
    · rw [hf, hg]
      exact steps_error h _ _

theorem steps_derive (h : s.Holds) (n : Nat) {f : UtxoData → Except String UtxoData}
    {g : UTXO → UTXO}
    (hfg : ∀ data utxo entries, UtxoData.Represents data utxo entries →
      ∃ other entries', f data = .ok other ∧ UtxoData.Represents other (g utxo) entries') :
    Steps s none (s.heap.derive n f) (s.maps.derive n g) := by
  obtain ⟨txHash, hderive⟩ := h.derive n f
  rw [hderive, UtxoMaps.derive]
  obtain ⟨hdata, hmap⟩ | ⟨data, utxo, entries, hn, hdata, hmap, hentries⟩ := h.exists_map n
  · rw [hdata, hmap]
    exact steps_error h _ _
  · obtain ⟨other, entries', hf, hother⟩ := hfg data utxo entries hentries
    rw [hdata, hmap]
    dsimp only
    rw [hf]
    exact steps_construct h txHash hother

theorem Holds.steps (h : s.Holds) {operation : UtxoOperation} (hfits : operation.Fits) :
    Steps s operation.changes (s.heap.step operation) (s.maps.step operation) := by
  cases operation with
  | create txHash => exact steps_construct h txHash .empty
  | addCoins n idx coins =>
      exact steps_change h n fun _ _ _ hentries => hentries.addCoins hfits.1 hfits.2
  | spendCoins n nTxOutput =>
      exact steps_change h n fun _ _ _ hentries => hentries.spendCoins nTxOutput
  | clone n =>
      exact steps_derive h n fun data _ entries hentries =>
        ⟨data.clone, entries, rfl, hentries.clone⟩
  | filterOutputsForAddress n address =>
      apply steps_derive h n
      intro data utxo entries hentries
      obtain ⟨filtered, hok, hfiltered⟩ := hentries.filterOutputsForAddress address
      exact ⟨filtered, _, hok, hfiltered⟩

theorem Holds.behavesAsMaps (h : s.Holds) {operation : UtxoOperation}
    (hfits : operation.Fits) : s.BehavesAsMaps operation := by
  have hsteps := h.steps hfits
  have hafter : (s.step operation).Holds := hsteps.holds
  refine ⟨hsteps.answer, hsteps.failed, ?_, ?_, ?_⟩
  · intro n data hother hdata
    rw [h.dataOf] at hdata
    rw [hafter.dataOf]
    exact hsteps.others n data hother hdata
  · intro n data hdata
    rw [hafter.dataOf] at hdata
    obtain ⟨hnone, -⟩ | ⟨data', utxo, entries, -, hsome, hmap, hentries⟩ := hafter.exists_map n
    · rw [hnone] at hdata
      cases hdata
    · rw [hsome] at hdata
      obtain rfl := Option.some.inj hdata
      exact ⟨utxo, hmap, hentries.isMap⟩
  · intro n k data other utxo utxo' hdata hother hmap hmap'
    rw [hafter.dataOf] at hdata hother
    obtain ⟨entries, hentries⟩ := hafter.represents n data utxo hdata hmap
    obtain ⟨entries', hentries'⟩ := hafter.represents k other utxo' hother hmap'
    exact hentries.equals hentries'

theorem holds_start : Holds {} where
  own := rfl
  length := rfl
  represents := fun n data utxo hdata => by simp at hdata

/-- The index is below `2 ^ 32`, and the amount is a natural number. -/
def InDomain : UtxoOperation → Prop
  | .addCoins _ idx coins => idx < 2 ^ 32 ∧ ∃ amount : Nat, coins.amount = amount
  | _ => True

end UtxoRun

end CilCore
