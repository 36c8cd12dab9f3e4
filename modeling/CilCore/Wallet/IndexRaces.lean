import CilCore.Lib.Runs
import CilCore.Wallet.WalletIndex

/-!
# Races on the wallet index

A record is deleted when it leads nowhere. This is too early for a UTXO whose records were
written, while the UTXO itself is still to be stored. Otherwise the first of the records that lead
to a UTXO stays, however the calls are interleaved: a call deletes others as duplicates of it.
-/

namespace CilCore

namespace WalletTask

/-- The records that the call has read and not checked yet. -/
def unchecked : WalletTask → List (WalletKey × Hash)
  | walletListUnspent _ (.checking arrAddrRecords _) => arrAddrRecords
  | _ => []

/-- What it has found out of the others. -/
def checked : WalletTask → Checked
  | walletListUnspent _ (.checking _ checked) => checked
  | _ => {}

/-- The address whose outputs are listed. -/
def listed : WalletTask → Option Address
  | walletListUnspent strAddress _ => some strAddress
  | applyPatch _ _ => none

/-- The call has written records for outputs that it is about to store. -/
def Announces (strAddress : Address) (hash : Hash) : WalletTask → Prop
  | applyPatch arrCoins .storing => (arrCoins.lookup hash).any (·.pays strAddress) = true
  | _ => False

/-- The call has read a record of the address that leads to the UTXO, and has not checked it yet
or is going to delete it. -/
def Holds (records : OrderedMap WalletKey Hash) (strAddress : Address) (hash : Hash)
    (task : WalletTask) : Prop :=
  (∃ record ∈ task.unchecked, record.1.strAddress = strAddress ∧ record.2 = hash) ∨
    ∃ key ∈ task.checked.arrKeysToCleanup,
      key.strAddress = strAddress ∧ records.lookup key = some hash

/-- The call does not take the record for a duplicate, nor delete it. -/
def Spares (key : WalletKey) (hash : Hash) (task : WalletTask) : Prop :=
  key ∉ task.checked.arrKeysToCleanup ∧ ∀ before after,
    task.unchecked = before ++ (key, hash) :: after →
      hash ∉ task.checked.setHashes ∧ hash ∉ before.map (·.2)

instance (strAddress : Address) (hash : Hash) :
    ∀ task : WalletTask, Decidable (task.Announces strAddress hash)
  | applyPatch _ .storing => inferInstanceAs (Decidable (_ = _))
  | applyPatch _ .locking | applyPatch _ (.initializing _) | applyPatch _ (.indexing _)
  | walletListUnspent _ _ => inferInstanceAs (Decidable False)

instance (records : OrderedMap WalletKey Hash) (strAddress : Address) (hash : Hash)
    (task : WalletTask) : Decidable (task.Holds records strAddress hash) :=
  inferInstanceAs (Decidable (_ ∨ _))

end WalletTask

/-! ### Records that are kept -/

/-- The number in the key is at most that one. -/
def WalletKey.Numbered (n : Nat) (key : WalletKey) : Prop := ∃ i ≤ n, key.idx = some i

theorem WalletKey.Numbered.mono {n m : Nat} {key : WalletKey} (h : key.Numbered n) (hle : n ≤ m) :
    key.Numbered m := by
  obtain ⟨i, hi, hidx⟩ := h
  exact ⟨i, hi.trans hle, hidx⟩

theorem WalletKey.ne_of_numbered {n : Nat} {key : WalletKey} (h : key.Numbered n)
    (strAddress : Address) : key ≠ ⟨strAddress, some (n + 1)⟩ := by
  rintro rfl
  obtain ⟨i, hi, hidx⟩ := h
  have hidx : n + 1 = i := Option.some.inj hidx
  omega

/-- Records of an address are told apart by what is written of their numbers. -/
theorem WalletKey.eq_of_text {n : Nat} {key key' : WalletKey} (h : key.Numbered n)
    (h' : key'.Numbered n) (haddr : key.strAddress = key'.strAddress) (htext : key.text = key'.text) :
    key = key' := by
  obtain ⟨strAddress, idx⟩ := key
  obtain ⟨strAddress', idx'⟩ := key'
  obtain ⟨i, -, rfl⟩ := h
  obtain ⟨i', -, rfl⟩ := h'
  obtain rfl : strAddress = strAddress' := haddr
  obtain rfl : i = i' := Nat.digits_inj_iff.mp (List.reverse_injective htext)
  rfl

/-- The first record of an address that leads to the UTXO. -/
structure IsFirst (records : OrderedMap WalletKey Hash) (strAddress : Address) (hash : Hash)
    (key : WalletKey) : Prop where
  strAddress_eq : key.strAddress = strAddress
  lookup_eq : records.lookup key = some hash
  le : ∀ other, other.strAddress = strAddress → records.lookup other = some hash →
    key.text ≤ other.text

/-- Some record of the address leads to the UTXO, and the first one is spared. -/
structure Covers (records : OrderedMap WalletKey Hash) (tasks : List WalletTask)
    (strAddress : Address) (hash : Hash) : Prop where
  listed : ∃ key, key.strAddress = strAddress ∧ records.lookup key = some hash
  spared : ∀ key, IsFirst records strAddress hash key → ∀ task ∈ tasks, task.Spares key hash

/-- The calls only hold records with small numbers. -/
def HoldsNumbered (n : Nat) (tasks : List WalletTask) : Prop :=
  ∀ task ∈ tasks, (∀ record ∈ task.unchecked, record.1.Numbered n) ∧
    ∀ key ∈ task.checked.arrKeysToCleanup, key.Numbered n

variable {records : OrderedMap WalletKey Hash} {tasks : List WalletTask} {strAddress a : Address}
  {hash k : Hash} {n : Nat}

theorem WalletTask.spares_of_empty {task : WalletTask} {key : WalletKey}
    (hunchecked : task.unchecked = []) (hchecked : task.checked = {}) : task.Spares key hash := by
  refine ⟨fun hmem => ?_, fun before after heq => ?_⟩
  · rw [hchecked] at hmem
    exact absurd hmem List.not_mem_nil
  · rw [hunchecked] at heq
    exact absurd heq (by simp)

theorem Covers.cons (h : Covers records tasks strAddress hash) {task : WalletTask}
    (hspares : ∀ key, IsFirst records strAddress hash key → task.Spares key hash) :
    Covers records (task :: tasks) strAddress hash :=
  ⟨h.listed, fun key hfirst => List.forall_mem_cons.mpr ⟨hspares key hfirst, h.spared key hfirst⟩⟩

theorem Covers.exists_isFirst (h : Covers records tasks strAddress hash) :
    ∃ key, IsFirst records strAddress hash key := by
  let keys := records.keys.toFinset.filter fun key =>
    key.strAddress = strAddress ∧ records.lookup key = some hash
  obtain ⟨key, haddr, hlookup⟩ := h.listed
  have hmem {key : WalletKey} (haddr : key.strAddress = strAddress)
      (hlookup : records.lookup key = some hash) : key ∈ keys := by
    refine Finset.mem_filter.mpr ⟨List.mem_toFinset.mpr ?_, haddr, hlookup⟩
    exact AList.mem_keys.mp (AList.lookup_isSome.mp (hlookup ▸ rfl))
  obtain ⟨first, hfirst, hmin⟩ := keys.exists_min_image WalletKey.text ⟨key, hmem haddr hlookup⟩
  obtain ⟨-, hfirstAddr, hfirstLookup⟩ := Finset.mem_filter.mp hfirst
  exact ⟨first, hfirstAddr, hfirstLookup, fun other haddr hlookup => hmin other (hmem haddr hlookup)⟩

/-- A new record, which no call can have read. -/
theorem covers_insert (hheld : HoldsNumbered n tasks) (hnum : ∀ key ∈ records, key.Numbered n)
    (h : Covers records tasks strAddress hash ∨
      (strAddress = a ∧ hash = k) ∧ ∀ task ∈ tasks, ¬ task.Holds records strAddress hash) :
    Covers (records.insert ⟨a, some (n + 1)⟩ k) tasks strAddress hash := by
  have hold {key : WalletKey} (hne : key ≠ ⟨a, some (n + 1)⟩) :
      (records.insert ⟨a, some (n + 1)⟩ k).lookup key = records.lookup key :=
    AList.lookup_insert_ne hne
  have hne {key : WalletKey} {v : Hash} (hlookup : records.lookup key = some v) :
      key ≠ ⟨a, some (n + 1)⟩ :=
    WalletKey.ne_of_numbered (hnum key (AList.lookup_isSome.mp (hlookup ▸ rfl))) a
  refine ⟨?_, fun key hfirst task htask => ?_⟩
  · rcases h with hcovers | ⟨⟨rfl, rfl⟩, -⟩
    · obtain ⟨key, haddr, hlookup⟩ := hcovers.listed
      exact ⟨key, haddr, (hold (hne hlookup)).trans hlookup⟩
    · exact ⟨⟨strAddress, some (n + 1)⟩, rfl, AList.lookup_insert records⟩
  · by_cases hnew : key = ⟨a, some (n + 1)⟩
    · subst hnew
      refine ⟨fun hmem => ?_, fun before after heq => ?_⟩
      · exact WalletKey.ne_of_numbered ((hheld task htask).2 _ hmem) a rfl
      · have hmem : ((⟨a, some (n + 1)⟩ : WalletKey), hash) ∈ task.unchecked := by
          rw [heq]
          exact List.mem_append_right _ List.mem_cons_self
        exact absurd rfl (WalletKey.ne_of_numbered ((hheld task htask).1 _ hmem) a)
    · have hlookup := hfirst.lookup_eq
      rw [hold hnew] at hlookup
      rcases h with hcovers | ⟨-, hfree⟩
      · refine hcovers.spared key ⟨hfirst.strAddress_eq, hlookup, fun other haddr hother => ?_⟩ task htask
        exact hfirst.le other haddr ((hold (hne hother)).trans hother)
      · refine ⟨fun hmem => ?_, fun before after heq => ?_⟩
        · exact hfree task htask (.inr ⟨key, hmem, hfirst.strAddress_eq, hlookup⟩)
        · refine absurd (.inl ⟨(key, hash), ?_, hfirst.strAddress_eq, rfl⟩) (hfree task htask)
          rw [heq]
          exact List.mem_append_right _ List.mem_cons_self

/-- What `_walletWriteNewUtxosBatch` does to the records. -/
structure Puts (records : OrderedMap WalletKey Hash) (tasks : List WalletTask) (n : Nat)
    (arrAddrHash : List (Hash × Address)) (r : Option Nat × OrderedMap WalletKey Hash) : Prop where
  last : ∃ m, r.1 = some m ∧ n ≤ m ∧ ∀ key ∈ r.2, key.Numbered m
  lookup : ∀ key, key.Numbered n → r.2.lookup key = records.lookup key
  covers : ∀ strAddress hash, Covers records tasks strAddress hash ∨ (hash, strAddress) ∈ arrAddrHash →
    Covers r.2 tasks strAddress hash

theorem puts_putRecords {arrAddrHash : List (Hash × Address)} (hheld : HoldsNumbered n tasks)
    (hnum : ∀ key ∈ records, key.Numbered n)
    (h : ∀ pair ∈ arrAddrHash, Covers records tasks pair.2 pair.1 ∨
      ∀ task ∈ tasks, ¬ task.Holds records pair.2 pair.1) :
    Puts records tasks n arrAddrHash (putRecords arrAddrHash (some n) records) := by
  induction arrAddrHash generalizing n records with
  | nil =>
      refine ⟨⟨n, rfl, le_rfl, hnum⟩, fun _ _ => rfl, fun _ _ hcovers => ?_⟩
      exact hcovers.resolve_right List.not_mem_nil
  | cons pair rest ih =>
      obtain ⟨k, a⟩ := pair
      obtain ⟨hfirst, hrest⟩ := List.forall_mem_cons.mp h
      have hsame (key : WalletKey) (hkey : key.Numbered n) :
          (records.insert ⟨a, some (n + 1)⟩ k).lookup key = records.lookup key :=
        AList.lookup_insert_ne (WalletKey.ne_of_numbered hkey a)
      have hput : Covers (records.insert ⟨a, some (n + 1)⟩ k) tasks a k :=
        covers_insert hheld hnum (hfirst.imp_right fun hfree => ⟨⟨rfl, rfl⟩, hfree⟩)
      have hnum' : ∀ key ∈ records.insert ⟨a, some (n + 1)⟩ k, key.Numbered (n + 1) := by
        intro key hkey
        rcases AList.mem_insert records |>.mp hkey with rfl | hold
        · exact ⟨n + 1, le_rfl, rfl⟩
        · exact (hnum key hold).mono n.le_succ
      have hheld' : HoldsNumbered (n + 1) tasks := fun task htask =>
        ⟨fun record hrecord => ((hheld task htask).1 record hrecord).mono n.le_succ,
          fun key hkey => ((hheld task htask).2 key hkey).mono n.le_succ⟩
      have hlast := ih hheld' hnum' fun pair hpair => by
        refine (hrest pair hpair).imp (fun hcovers => covers_insert hheld hnum (.inl hcovers)) ?_
        rintro hfree task htask (hread | ⟨key, hkey, haddr, hlookup⟩)
        · exact hfree task htask (.inl hread)
        · rw [hsame key ((hheld task htask).2 key hkey)] at hlookup
          exact hfree task htask (.inr ⟨key, hkey, haddr, hlookup⟩)
      obtain ⟨m, hm, hle, hall⟩ := hlast.last
      refine ⟨⟨m, hm, n.le_succ.trans hle, hall⟩, fun key hkey => ?_, fun strAddress hash hcovers => ?_⟩
      · exact (hlast.lookup key (hkey.mono n.le_succ)).trans (hsame key hkey)
      · apply hlast.covers
        rcases hcovers with hold | hmem
        · exact .inl (covers_insert hheld hnum (.inl hold))
        · rcases List.mem_cons.mp hmem with heq | hmem
          · cases heq
            exact .inl hput
          · exact .inr hmem

/-! ### Calls that are interleaved -/

namespace BusyWallet

/-- The address has unspent outputs in the UTXO. -/
def Pays (s : WalletStore) (strAddress : Address) (hash : Hash) : Prop :=
  (s.utxos.lookup hash).any (·.pays strAddress) = true

instance (s : WalletStore) (strAddress : Address) (hash : Hash) :
    Decidable (Pays s strAddress hash) := inferInstanceAs (Decidable (_ = _))

/-- The address has outputs in the UTXO, or they are about to be stored. -/
def Due (s : WalletStore) (tasks : List WalletTask) (strAddress : Address) (hash : Hash) : Prop :=
  Pays s strAddress hash ∨ ∃ task ∈ tasks, task.Announces strAddress hash

/-- Records are numbered up to the stored number, and the one in memory is not behind. Calls hold
records as they are in the index, unless they were deleted; and what is due is covered. -/
structure Indexed (s : WalletStore) (tasks : List WalletTask) : Prop where
  addresses : ∀ addresses ∈ s.arrStrWalletAddresses, addresses = s.walletAddresses
  numbered : ∀ key ∈ s.records, key.Numbered (s.walletAutoincrement.getD 0)
  counter : ∀ n ∈ s.nWalletAutoincrement, s.walletAutoincrement.getD 0 ≤ n
  indexing : ∀ arrCoins arrAddrHash, .applyPatch arrCoins (.indexing arrAddrHash) ∈ tasks →
    arrAddrHash = walletCheckUtxos s.walletAddresses arrCoins
  held : HoldsNumbered (s.walletAutoincrement.getD 0) tasks
  read : ∀ task ∈ tasks, ∀ record ∈ task.unchecked, task.listed = some record.1.strAddress ∧
    ∀ hash ∈ s.records.lookup record.1, hash = record.2
  covers : ∀ strAddress ∈ s.walletAddresses, ∀ hash, Due s tasks strAddress hash →
    Covers s.records tasks strAddress hash

variable {s : WalletStore} {task : WalletTask} {others tasks' : List WalletTask}

theorem Indexed.mono (h : Indexed s tasks) (hsub : tasks' ⊆ tasks) : Indexed s tasks' where
  addresses := h.addresses
  numbered := h.numbered
  counter := h.counter
  indexing arrCoins arrAddrHash hmem := h.indexing arrCoins arrAddrHash (hsub hmem)
  held task htask := h.held task (hsub htask)
  read task htask := h.read task (hsub htask)
  covers strAddress hwatched hash hdue := by
    have hcovers := h.covers strAddress hwatched hash
      (hdue.imp_right fun hannounced => hannounced.imp fun _ h => ⟨hsub h.1, h.2⟩)
    exact ⟨hcovers.listed, fun key hfirst task htask => hcovers.spared key hfirst task (hsub htask)⟩

/-- A call that does nothing with records. -/
structure Idle (s : WalletStore) (task : WalletTask) : Prop where
  unchecked : task.unchecked = []
  checked : task.checked = {}
  announces : ∀ strAddress hash, ¬ task.Announces strAddress hash
  indexing : ∀ arrCoins arrAddrHash, task = .applyPatch arrCoins (.indexing arrAddrHash) →
    arrAddrHash = walletCheckUtxos s.walletAddresses arrCoins

theorem Indexed.idle (h : Indexed s others) (hidle : Idle s task) : Indexed s (task :: others) where
  addresses := h.addresses
  numbered := h.numbered
  counter := h.counter
  indexing arrCoins arrAddrHash hmem := by
    rcases List.mem_cons.mp hmem with heq | hmem
    · exact hidle.indexing arrCoins arrAddrHash heq.symm
    · exact h.indexing arrCoins arrAddrHash hmem
  held := by
    refine List.forall_mem_cons.mpr ⟨?_, h.held⟩
    rw [hidle.unchecked, hidle.checked]
    exact ⟨fun _ hmem => absurd hmem List.not_mem_nil, fun _ hmem => absurd hmem List.not_mem_nil⟩
  read := by
    refine List.forall_mem_cons.mpr ⟨?_, h.read⟩
    rw [hidle.unchecked]
    exact fun _ hmem => absurd hmem List.not_mem_nil
  covers strAddress hwatched hash hdue := by
    have hold : Due s others strAddress hash := by
      refine hdue.imp_right fun hannounced => ?_
      obtain ⟨other, hmem, hannounces⟩ := hannounced
      rcases List.mem_cons.mp hmem with rfl | hmem
      · exact absurd hannounces (hidle.announces strAddress hash)
      · exact ⟨other, hmem, hannounces⟩
    have hcovers := h.covers strAddress hwatched hash hold
    exact hcovers.cons fun key _ => WalletTask.spares_of_empty hidle.unchecked hidle.checked

theorem Indexed.load (h : Indexed s tasks) (init : InitPhase) : Indexed (s.load init) tasks := by
  cases init with
  | addresses =>
      refine ⟨fun addresses hmem => ?_, h.numbered, h.counter, h.indexing, h.held, h.read, h.covers⟩
      cases hmem
      rfl
  | increment =>
      refine ⟨h.addresses, h.numbered, fun n hmem => ?_, h.indexing, h.held, h.read, h.covers⟩
      cases hmem
      exact le_rfl

theorem Due.tail (h : Due s others strAddress hash) : Due s (task :: others) strAddress hash :=
  h.imp_right fun hannounced => hannounced.imp fun _ h => ⟨List.mem_cons_of_mem _ h.1, h.2⟩

/-- Records are written. -/
theorem Indexed.write {arrCoins : OrderedMap Hash UTXO} {arrAddrHash : List (Hash × Address)}
    (h : Indexed s (.applyPatch arrCoins (.indexing arrAddrHash) :: others))
    (hloaded : s.nWalletAutoincrement = some n)
    (hfree : ∀ pair ∈ arrAddrHash, Pays s pair.2 pair.1 ∨
      ∀ other ∈ others, ¬ other.Holds s.records pair.2 pair.1) :
    if (s.walletWriteNewUtxosBatch arrAddrHash).2 then
      Indexed (s.walletWriteNewUtxosBatch arrAddrHash).1 (.applyPatch arrCoins .storing :: others)
    else Indexed (s.walletWriteNewUtxosBatch arrAddrHash).1 others := by
  have hold := h.mono (List.subset_cons_self _ others)
  have hle : s.walletAutoincrement.getD 0 ≤ n := h.counter n hloaded
  have hcoins := h.indexing arrCoins arrAddrHash List.mem_cons_self
  have hputs : Puts s.records others n arrAddrHash (putRecords arrAddrHash (some n) s.records) := by
    refine puts_putRecords (fun task htask => ?_) (fun key hkey => (h.numbered key hkey).mono hle)
      fun pair hpair => ?_
    · obtain ⟨hrecords, hkeys⟩ := hold.held task htask
      exact ⟨fun record hrecord => (hrecords record hrecord).mono hle,
        fun key hkey => (hkeys key hkey).mono hle⟩
    · refine (hfree pair hpair).imp_left fun hpays => hold.covers pair.2 ?_ pair.1 (.inl hpays)
      rw [hcoins] at hpair
      exact (mem_walletCheckUtxos.mp hpair).1
  obtain ⟨m, hm, hnm, hall⟩ := hputs.last
  rw [WalletStore.walletWriteNewUtxosBatch_of_put (m := m)
    ((congrArg (putRecords arrAddrHash · s.records) hloaded).trans (Prod.ext hm rfl))]
  by_cases hfits : m < 2 ^ 31
  · rw [if_pos hfits, if_pos rfl]
    refine ⟨h.addresses, hall, fun i hi => ?_, fun arrCoins' arr hmem => ?_, ?_, ?_,
      fun strAddress hwatched hash hdue => ?_⟩
    · cases hi
      exact le_rfl
    · rcases List.mem_cons.mp hmem with heq | hmem
      · cases heq
      · exact hold.indexing arrCoins' arr hmem
    · refine List.forall_mem_cons.mpr ⟨⟨fun _ hmem => absurd hmem List.not_mem_nil,
        fun _ hmem => absurd hmem List.not_mem_nil⟩, fun task htask => ?_⟩
      obtain ⟨hrecords, hkeys⟩ := hold.held task htask
      exact ⟨fun record hrecord => (hrecords record hrecord).mono (hle.trans hnm),
        fun key hkey => (hkeys key hkey).mono (hle.trans hnm)⟩
    · refine List.forall_mem_cons.mpr ⟨fun _ hmem => absurd hmem List.not_mem_nil,
        fun task htask record hrecord => ?_⟩
      obtain ⟨haddr, hlookup⟩ := hold.read task htask record hrecord
      refine ⟨haddr, fun hash hhash => hlookup hash ?_⟩
      rwa [← hputs.lookup record.1 (((hold.held task htask).1 record hrecord).mono hle)]
    · refine (hputs.covers strAddress hash ?_).cons fun key _ => WalletTask.spares_of_empty rfl rfl
      rcases hdue with hpays | ⟨task, htask, hannounces⟩
      · exact .inl (hold.covers strAddress hwatched hash (.inl hpays))
      · rcases List.mem_cons.mp htask with rfl | htask
        · refine .inr ?_
          rw [hcoins]
          exact mem_walletCheckUtxos.mpr ⟨hwatched, hannounces⟩
        · exact .inl (hold.covers strAddress hwatched hash (.inr ⟨task, htask, hannounces⟩))
  · rw [if_neg hfits, if_neg Bool.false_ne_true]
    refine ⟨hold.addresses, hold.numbered, fun i hi => ?_, hold.indexing, hold.held, hold.read,
      hold.covers⟩
    cases hi
    exact hle.trans hnm

/-- UTXOs are stored, whose records were written. -/
theorem Indexed.store {arrCoins : OrderedMap Hash UTXO}
    (h : Indexed s (.applyPatch arrCoins .storing :: others)) :
    Indexed { s with utxos := putCoins arrCoins s.utxos } others := by
  have hold := h.mono (List.subset_cons_self _ others)
  refine ⟨hold.addresses, hold.numbered, hold.counter, hold.indexing, hold.held, hold.read,
    fun strAddress hwatched hash hdue => ?_⟩
  have hcovers : Covers s.records (.applyPatch arrCoins .storing :: others) strAddress hash := by
    refine h.covers strAddress hwatched hash ?_
    rcases hdue with hpays | hannounced
    · have hpays : ((putCoins arrCoins s.utxos).lookup hash).any (·.pays strAddress) = true := hpays
      rw [lookup_putCoins] at hpays
      split at hpays
      next utxo hutxo =>
        refine .inr ⟨_, List.mem_cons_self, ?_⟩
        change (arrCoins.lookup hash).any (·.pays strAddress) = true
        rw [hutxo]
        split at hpays
        next => cases hpays
        next => exact hpays
      next => exact .inl hpays
    · exact Due.tail (.inr hannounced)
  exact ⟨hcovers.listed, fun key hfirst task htask =>
    hcovers.spared key hfirst task (List.mem_cons_of_mem _ htask)⟩

/-- The records of an address are read. -/
theorem Indexed.readRecords (h : Indexed s others) :
    Indexed s (.walletListUnspent strAddress
      (.checking (s.walletReadAddressRecords strAddress) {}) :: others) := by
  have hread {record : WalletKey × Hash} (hmem : record ∈ s.walletReadAddressRecords strAddress) :=
    WalletStore.mem_walletReadAddressRecords.mp hmem
  have hnum {record : WalletKey × Hash} (hmem : record ∈ s.walletReadAddressRecords strAddress) :
      record.1.Numbered (s.walletAutoincrement.getD 0) :=
    h.numbered record.1 (AList.lookup_isSome.mp ((hread hmem).2 ▸ rfl))
  refine ⟨h.addresses, h.numbered, h.counter, fun arrCoins arr hmem => ?_,
    List.forall_mem_cons.mpr ⟨⟨fun record hmem => hnum hmem, fun _ hmem => absurd hmem List.not_mem_nil⟩, h.held⟩,
    List.forall_mem_cons.mpr ⟨fun record hmem => ⟨?_, fun hash hhash => ?_⟩, h.read⟩,
    fun a hwatched hash hdue => ?_⟩
  · rcases List.mem_cons.mp hmem with heq | hmem
    · cases heq
    · exact h.indexing arrCoins arr hmem
  · exact congrArg some (hread hmem).1.symm
  · exact Option.some.inj (hhash.symm.trans (hread hmem).2)
  · have hold : Due s others a hash := by
      refine hdue.imp_right fun hannounced => ?_
      obtain ⟨other, hmem, hannounces⟩ := hannounced
      rcases List.mem_cons.mp hmem with rfl | hmem
      · exact hannounces.elim
      · exact ⟨other, hmem, hannounces⟩
    refine (h.covers a hwatched hash hold).cons fun key hfirst =>
      ⟨List.not_mem_nil, fun before after heq => ⟨List.not_mem_nil, fun hmem => ?_⟩⟩
    -- a record before the first one would be the same
    have heq : s.walletReadAddressRecords strAddress = before ++ (key, hash) :: after := heq
    obtain ⟨⟨key', v⟩, hbefore, hv⟩ := List.mem_map.mp hmem
    obtain rfl : v = hash := hv
    have hmem' : (key', v) ∈ s.walletReadAddressRecords strAddress := by
      rw [heq]
      exact List.mem_append_left _ hbefore
    have hmine : (key, v) ∈ s.walletReadAddressRecords strAddress := by
      rw [heq]
      exact List.mem_append_right _ List.mem_cons_self
    have haddr : key'.strAddress = key.strAddress := (hread hmem').1.trans (hread hmine).1.symm
    have hsorted := s.pairwise_walletReadAddressRecords strAddress
    have hnodup := s.nodup_walletReadAddressRecords strAddress
    rw [heq] at hsorted hnodup
    have hle : key'.text ≤ key.text :=
      (List.pairwise_append.mp hsorted).2.2 _ hbefore _ List.mem_cons_self
    have hge : key.text ≤ key'.text :=
      hfirst.le key' (haddr.trans hfirst.strAddress_eq) (hread hmem').2
    obtain rfl := WalletKey.eq_of_text (hnum hmem') (hnum hmine) haddr (le_antisymm hle hge)
    rw [List.map_append, List.map_cons] at hnodup
    exact (List.nodup_append.mp hnodup).2.2 _ (List.mem_map_of_mem hbefore) _ List.mem_cons_self rfl

/-- A record is marked if it is a duplicate or leads nowhere. -/
theorem check_spec (a : Address) (utxos : FinMap Hash UTXO) (record : WalletKey × Hash)
    (checked : Checked) :
    (∀ hash ∈ (checked.check utxos a record).setHashes,
      hash ∈ checked.setHashes ∨ hash = record.2) ∧
    ∀ key ∈ (checked.check utxos a record).arrKeysToCleanup,
      key ∈ checked.arrKeysToCleanup ∨ key = record.1 ∧
        (record.2 ∈ checked.setHashes ∨ ¬ (utxos.lookup record.2).any (·.pays a) = true) := by
  have happend {α : Type} {x y : α} {xs : List α} (hmem : x ∈ xs ++ [y]) : x ∈ xs ∨ x = y :=
    (List.mem_append.mp hmem).imp_right List.mem_singleton.mp
  unfold Checked.check
  split
  next hseen =>
    exact ⟨fun hash hmem => .inl hmem, fun key hmem => (happend hmem).imp_right fun h => ⟨h, .inl hseen⟩⟩
  next =>
    refine ⟨fun hash hmem => ?_, fun key hmem => ?_⟩
    · dsimp only at hmem
      split at hmem
      next => exact happend hmem
      next =>
        split at hmem
        next => exact happend hmem
        next => exact happend hmem
    · dsimp only at hmem
      split at hmem
      next hnone =>
        refine (happend hmem).imp_right fun h => ⟨h, .inr ?_⟩
        rw [hnone]
        exact Bool.false_ne_true
      next utxo hutxo =>
        split at hmem
        next => exact .inl hmem
        next hnot =>
          refine (happend hmem).imp_right fun h => ⟨h, .inr ?_⟩
          rw [hutxo]
          exact hnot

/-- One record is checked. -/
theorem Indexed.check {record : WalletKey × Hash} {rest : List (WalletKey × Hash)}
    {checked : Checked}
    (h : Indexed s (.walletListUnspent strAddress (.checking (record :: rest) checked) :: others))
    (hready : record.2 ∈ checked.setHashes ∨ Pays s strAddress record.2 ∨
      ∀ other ∈ others, ¬ other.Announces strAddress record.2) :
    Indexed s (.walletListUnspent strAddress
      (.checking rest (checked.check s.utxos strAddress record)) :: others) := by
  have hold := h.mono (List.subset_cons_self _ others)
  obtain ⟨hseen, hmarked⟩ := check_spec strAddress s.utxos record checked
  obtain ⟨hrecords, hkeys⟩ := h.held _ List.mem_cons_self
  have hread := h.read _ List.mem_cons_self
  refine ⟨h.addresses, h.numbered, h.counter, fun arrCoins arr hmem => ?_,
    List.forall_mem_cons.mpr ⟨⟨fun r hr => hrecords r (List.mem_cons_of_mem _ hr),
      fun key hkey => ?_⟩, hold.held⟩,
    List.forall_mem_cons.mpr ⟨fun r hr => hread r (List.mem_cons_of_mem _ hr), hold.read⟩,
    fun a hwatched hash hdue => ?_⟩
  · rcases List.mem_cons.mp hmem with heq | hmem
    · cases heq
    · exact hold.indexing arrCoins arr hmem
  · rcases hmarked key hkey with hmem | ⟨rfl, -⟩
    · exact hkeys key hmem
    · exact hrecords record List.mem_cons_self
  · have hdue' : Due s others a hash := by
      refine hdue.imp_right fun hannounced => ?_
      obtain ⟨other, hmem, hannounces⟩ := hannounced
      rcases List.mem_cons.mp hmem with rfl | hmem
      · exact hannounces.elim
      · exact ⟨other, hmem, hannounces⟩
    have hcovers := h.covers a hwatched hash hdue'.tail
    refine (hold.covers a hwatched hash hdue').cons fun key hfirst => ?_
    obtain ⟨hkept, hunique⟩ := hcovers.spared key hfirst _ List.mem_cons_self
    refine ⟨fun hmem => ?_, fun before after heq => ?_⟩
    · rcases hmarked key hmem with hmem | ⟨rfl, hbad⟩
      · exact hkept hmem
      · -- the first record of what is due is not a duplicate, and does not lead nowhere
        obtain ⟨howner, hsame⟩ := hread record List.mem_cons_self
        obtain rfl : hash = record.2 := hsame hash hfirst.lookup_eq
        obtain rfl : strAddress = a := (Option.some.inj howner).trans hfirst.strAddress_eq
        have hnew := (hunique [] rest rfl).1
        have hnot := hbad.resolve_left hnew
        rcases hdue' with hpays | ⟨other, hother, hannounces⟩
        · exact hnot hpays
        · exact ((hready.resolve_left hnew).resolve_left hnot) other hother hannounces
    · have heq : rest = before ++ (key, hash) :: after := heq
      obtain ⟨hnew, hbefore⟩ := hunique (record :: before) after (by rw [heq]; rfl)
      rw [List.map_cons, List.mem_cons, not_or] at hbefore
      exact ⟨fun hmem => (hseen hash hmem).elim hnew hbefore.1, hbefore.2⟩

/-- The records that were found to be useless are deleted. -/
theorem Indexed.cleanup {checked : Checked}
    (h : Indexed s (.walletListUnspent strAddress (.checking [] checked) :: others)) :
    Indexed (s.walletCleanupMissed checked.arrKeysToCleanup) others := by
  have hold := h.mono (List.subset_cons_self _ others)
  have hlookup := s.lookup_walletCleanupMissed checked.arrKeysToCleanup
  have hsub {key : WalletKey} {v : Hash}
      (hkey : (s.walletCleanupMissed checked.arrKeysToCleanup).records.lookup key = some v) :
      s.records.lookup key = some v := by
    rw [hlookup] at hkey
    split at hkey
    next => cases hkey
    next => exact hkey
  refine ⟨hold.addresses, fun key hkey => ?_, hold.counter, hold.indexing, hold.held,
    fun task htask record hrecord => ?_, fun a hwatched hash hdue => ?_⟩
  · obtain ⟨v, hv⟩ := Option.isSome_iff_exists.mp (AList.lookup_isSome.mpr hkey)
    exact h.numbered key (AList.lookup_isSome.mp (hsub hv ▸ rfl))
  · obtain ⟨haddr, hsame⟩ := hold.read task htask record hrecord
    exact ⟨haddr, fun hash hhash => hsame hash (hsub hhash)⟩
  · have hcovers := h.covers a hwatched hash (Due.tail hdue)
    obtain ⟨first, hfirst⟩ := hcovers.exists_isFirst
    have hspared := (hcovers.spared first hfirst _ List.mem_cons_self).1
    have hkept : (s.walletCleanupMissed checked.arrKeysToCleanup).records.lookup first = some hash :=
      (hlookup first).trans ((if_neg hspared).trans hfirst.lookup_eq)
    refine ⟨⟨first, hfirst.strAddress_eq, hkept⟩, fun key hkey task htask => ?_⟩
    have hnum {key : WalletKey} (hlookup : s.records.lookup key = some hash) :
        key.Numbered (s.walletAutoincrement.getD 0) :=
      h.numbered key (AList.lookup_isSome.mp (hlookup ▸ rfl))
    have hle := hkey.le first hfirst.strAddress_eq hkept
    have hge := hfirst.le key hkey.strAddress_eq (hsub hkey.lookup_eq)
    obtain rfl := WalletKey.eq_of_text (hnum (hsub hkey.lookup_eq)) (hnum hfirst.lookup_eq)
      (hkey.strAddress_eq.trans hfirst.strAddress_eq.symm) (le_antisymm hle hge)
    exact hcovers.spared key hfirst task (List.mem_cons_of_mem _ htask)

/-! ### Runs -/

/-- When a call that goes on loses no record. It does not find that a record leads nowhere which
was written for a UTXO that is still to be stored. When records are written, their numbers were
loaded, and no call holds records of UTXOs that get outputs for their address again. -/
def LosesNothing (s : BusyWallet) : WalletTask → Prop
  | .walletListUnspent strAddress (.checking (record :: _) checked) =>
      record.2 ∈ checked.setHashes ∨ Pays s.store strAddress record.2 ∨
        ∀ other ∈ s.tasks, ¬ other.Announces strAddress record.2
  | .applyPatch _ (.indexing arrAddrHash) => s.store.nWalletAutoincrement.isSome = true ∧
      ∀ pair ∈ arrAddrHash, Pays s.store pair.2 pair.1 ∨
        ∀ other ∈ s.tasks, ¬ other.Holds s.store.records pair.2 pair.1
  | _ => True

instance (s : BusyWallet) : ∀ task : WalletTask, Decidable (s.LosesNothing task)
  | .walletListUnspent _ (.checking (_ :: _) _) => inferInstanceAs (Decidable (_ ∨ _))
  | .applyPatch _ (.indexing _) => inferInstanceAs (Decidable (_ ∧ _))
  | .walletListUnspent _ (.checking [] _) | .walletListUnspent _ .starting
  | .walletListUnspent _ (.initializing _) | .walletListUnspent _ .reading
  | .applyPatch _ .locking | .applyPatch _ (.initializing _) | .applyPatch _ .storing =>
    inferInstanceAs (Decidable True)

/-- When an event keeps the index complete. -/
def KeepsIndex (s : BusyWallet) : Event → Prop
  | .resume n => ∀ task ∈ s.tasks[n]?, s.LosesNothing task
  | _ => True

instance (s : BusyWallet) : ∀ event : Event, Decidable (s.KeepsIndex event)
  | .resume n => inferInstanceAs (Decidable (∀ task ∈ s.tasks[n]?, s.LosesNothing task))
  | .applyPatch _ | .walletListUnspent _ => inferInstanceAs (Decidable True)

theorem Indexed.run (h : Indexed s (task :: others)) (bLocked : Bool)
    (hkeeps : LosesNothing ⟨s, task :: others⟩ task) :
    Indexed (s.run bLocked task).1 (others ++ (s.run bLocked task).2.toList) := by
  have hold := h.mono (List.subset_cons_self _ others)
  -- the order of the calls does not matter
  have hdone {s' : WalletStore} {next : WalletTask} (hnext : Indexed s' (next :: others)) :
      Indexed s' (others ++ (some next).toList) := by
    refine hnext.mono fun other hother => ?_
    rcases List.mem_append.mp hother with hother | hother
    · exact List.mem_cons_of_mem _ hother
    · exact List.mem_singleton.mp hother ▸ List.mem_cons_self
  have hstop {s' : WalletStore} (hs' : Indexed s' others) :
      Indexed s' (others ++ (none : Option WalletTask).toList) := by
    rwa [Option.toList_none, List.append_nil]
  have hidle {s' : WalletStore} {next : WalletTask} (hs' : Indexed s' others) (hnext : Idle s' next) :
      Indexed s' (others ++ (some next).toList) := hdone (hs'.idle hnext)
  have hcheck {s' : WalletStore} (hs' : Indexed s' others) (arrCoins : OrderedMap Hash UTXO) :
      Indexed s' (others ++ (s'.checkCoins arrCoins).toList) := by
    unfold WalletStore.checkCoins
    cases haddresses : s'.arrStrWalletAddresses with
    | none => exact hstop hs'
    | some addresses =>
        refine hidle hs' ⟨rfl, rfl, fun _ _ h => h, fun arrCoins' arr heq => ?_⟩
        cases heq
        rw [hs'.addresses addresses haddresses]
  have hassert {s' : WalletStore} (hs' : Indexed s' others) (strAddress : Address) :
      Indexed s' (others ++ (s'.assertWatched strAddress).toList) := by
    unfold WalletStore.assertWatched
    split
    next => exact hidle hs' ⟨rfl, rfl, fun _ _ h => h, fun _ _ heq => by cases heq⟩
    next => exact hstop hs'
  cases task with
  | applyPatch arrCoins phase =>
      have hwaits {s' : WalletStore} (hs' : Indexed s' others) {phase : ApplyPhase}
          (hphase : phase = .locking ∨ ∃ init, phase = .initializing init) :
          Indexed s' (others ++ (some (WalletTask.applyPatch arrCoins phase)).toList) := by
        refine hidle hs' ⟨rfl, rfl, fun _ _ hannounces => ?_, fun _ _ heq => ?_⟩
        · rcases hphase with rfl | ⟨init, rfl⟩ <;> exact hannounces
        · rcases hphase with rfl | ⟨init, rfl⟩ <;> cases heq
      cases phase with
      | locking =>
          rw [WalletStore.run_locking]
          split
          next => exact hwaits hold (.inl rfl)
          next =>
            split
            next => exact hcheck hold arrCoins
            next => exact hwaits hold (.inr ⟨_, rfl⟩)
      | initializing init =>
          cases init with
          | addresses => exact hwaits (hold.load .addresses) (.inr ⟨_, rfl⟩)
          | increment => exact hcheck (hold.load .increment) arrCoins
      | indexing arrAddrHash =>
          obtain ⟨hloaded, hfree⟩ := hkeeps
          obtain ⟨n, hn⟩ := Option.isSome_iff_exists.mp hloaded
          have hwrite := h.write hn fun pair hpair => (hfree pair hpair).imp_right
            fun hnone other hother => hnone other (List.mem_cons_of_mem _ hother)
          rw [WalletStore.run_indexing]
          split at hwrite
          next hok =>
            rw [if_pos hok]
            exact hdone hwrite
          next hthrows =>
            rw [if_neg hthrows]
            exact hstop hwrite
      | storing => exact hstop h.store
  | walletListUnspent strAddress phase =>
      cases phase with
      | starting =>
          rw [WalletStore.run_starting]
          split
          next => exact hassert hold strAddress
          next => exact hidle hold ⟨rfl, rfl, fun _ _ h => h, fun _ _ heq => by cases heq⟩
      | initializing init =>
          cases init with
          | addresses =>
              exact hidle (hold.load .addresses) ⟨rfl, rfl, fun _ _ h => h, fun _ _ heq => by cases heq⟩
          | increment => exact hassert (hold.load .increment) strAddress
      | reading => exact hdone hold.readRecords
      | checking arrAddrRecords checked =>
          cases arrAddrRecords with
          | nil => exact hstop h.cleanup
          | cons record rest =>
              refine hdone (h.check ?_)
              exact hkeeps.imp_right (Or.imp_right fun hnone other hother =>
                hnone other (List.mem_cons_of_mem _ hother))

theorem Indexed.step {s : BusyWallet} (h : Indexed s.store s.tasks) {event : Event}
    (hkeeps : s.KeepsIndex event) : Indexed (s.step event).store (s.step event).tasks := by
  have hbegin {task : WalletTask} (hidle : Idle s.store task) :
      Indexed s.store (s.tasks ++ [task]) := by
    refine (h.idle hidle).mono fun other hother => ?_
    rcases List.mem_append.mp hother with hother | hother
    · exact List.mem_cons_of_mem _ hother
    · exact List.mem_singleton.mp hother ▸ List.mem_cons_self
  cases event with
  | applyPatch arrCoins =>
      exact hbegin ⟨rfl, rfl, fun _ _ h => h, fun _ _ heq => by cases heq⟩
  | walletListUnspent strAddress =>
      exact hbegin ⟨rfl, rfl, fun _ _ h => h, fun _ _ heq => by cases heq⟩
  | resume n =>
      unfold BusyWallet.step
      dsimp only
      split
      next => exact h
      next task htask =>
        have hsub : task :: s.tasks.eraseIdx n ⊆ s.tasks := by
          refine List.cons_subset.mpr ⟨List.mem_of_getElem? htask, List.eraseIdx_subset⟩
        refine (h.mono hsub).run _ ?_
        have hloses := hkeeps task htask
        cases task with
        | applyPatch arrCoins phase =>
            cases phase with
            | indexing arrAddrHash =>
                exact hloses.imp_right fun hfree pair hpair => (hfree pair hpair).imp_right
                  fun hnone other hother => hnone other (hsub hother)
            | _ => trivial
        | walletListUnspent strAddress phase =>
            cases phase with
            | checking arrAddrRecords checked =>
                cases arrAddrRecords with
                | nil => trivial
                | cons record rest =>
                    exact hloses.imp_right (Or.imp_right fun hnone other hother =>
                      hnone other (hsub hother))
            | _ => trivial

end BusyWallet

/-! ### Nothing is lost -/

namespace WalletStore

/-- A storage whose index is complete. The memory agrees with what is stored, as far as it is
loaded. -/
structure InOrder (s : WalletStore) : Prop where
  addresses : ∀ addresses ∈ s.arrStrWalletAddresses, addresses = s.walletAddresses
  numbered : ∀ key ∈ s.records, key.Numbered (s.walletAutoincrement.getD 0)
  counter : ∀ n ∈ s.nWalletAutoincrement, s.walletAutoincrement.getD 0 ≤ n
  recorded : ∀ strAddress ∈ s.walletAddresses, ∀ hash, BusyWallet.Pays s strAddress hash →
    ∃ key, key.strAddress = strAddress ∧ s.records.lookup key = some hash

/-- Each output for a watched address that is not spent is listed, and only once. -/
def ListsUnspent (s : WalletStore) : Prop :=
  ∀ strAddress ∈ s.walletAddresses, ∀ hash (utxo : UTXO) idx coins, s.utxos.lookup hash = some utxo →
    utxo.lookup idx = some coins → coins.receiverAddr = strAddress →
      (s.walletListUnspent strAddress).countP (fun listed =>
        listed.1 = hash ∧ listed.2.lookup idx = some coins) = 1

variable {s : WalletStore}

/-- A node that has stored nothing yet. -/
theorem inOrder_empty (walletAddresses : List Address) :
    InOrder ⟨∅, ∅, walletAddresses, none, none, none⟩ where
  addresses _ hmem := by cases hmem
  numbered key hkey := absurd hkey (AList.notMem_empty key)
  counter _ hmem := by cases hmem
  recorded _ _ _ hpays := absurd hpays Bool.false_ne_true

theorem InOrder.indexed (h : s.InOrder) : BusyWallet.Indexed s [] where
  addresses := h.addresses
  numbered := h.numbered
  counter := h.counter
  indexing _ _ hmem := absurd hmem List.not_mem_nil
  held _ hmem := absurd hmem List.not_mem_nil
  read _ hmem := absurd hmem List.not_mem_nil
  covers strAddress hwatched hash hdue := by
    have hpays := hdue.resolve_right fun hannounced => by
      obtain ⟨task, hmem, -⟩ := hannounced
      exact List.not_mem_nil hmem
    exact ⟨h.recorded strAddress hwatched hash hpays, fun _ _ _ hmem => absurd hmem List.not_mem_nil⟩

theorem inOrder_of_indexed {tasks : List WalletTask} (h : BusyWallet.Indexed s tasks) :
    s.InOrder where
  addresses := h.addresses
  numbered := h.numbered
  counter := h.counter
  recorded strAddress hwatched hash hpays := (h.covers strAddress hwatched hash (.inl hpays)).listed

theorem InOrder.listsUnspent (h : s.InOrder) : s.ListsUnspent := by
  intro strAddress hwatched hash utxo idx coins hutxo hcoins haddr
  obtain ⟨hnodup, hmem⟩ := s.lists_walletListUnspent strAddress
  have hpays : utxo.pays strAddress = true := UTXO.pays_of_lookup hcoins haddr
  have hrecorded := h.recorded strAddress hwatched hash (by
    unfold BusyWallet.Pays
    rw [hutxo]
    exact hpays)
  have hlisted := (hmem hash _).mpr ⟨hrecorded, utxo, hutxo, hpays, rfl⟩
  have hfound := UTXO.lookup_filterOutputsForAddress.mpr ⟨hcoins, haddr⟩
  -- whatever is listed of this UTXO has the output
  have hsame (listed : Hash × UTXO) (h : listed ∈ s.walletListUnspent strAddress) :
      (listed.1 = hash ∧ listed.2.lookup idx = some coins) ↔ listed.1 = hash := by
    refine ⟨fun h => h.1, fun heq => ⟨heq, ?_⟩⟩
    obtain ⟨-, utxo', hutxo', -, hfiltered⟩ := (hmem listed.1 listed.2).mp h
    rw [heq] at hutxo'
    obtain rfl := Option.some.inj (hutxo.symm.trans hutxo')
    rw [hfiltered]
    exact hfound
  calc (s.walletListUnspent strAddress).countP (fun listed =>
        listed.1 = hash ∧ listed.2.lookup idx = some coins)
      = (s.walletListUnspent strAddress).countP (fun listed => listed.1 == hash) := by
        apply List.countP_congr
        intro listed h
        rw [decide_eq_true_eq, hsame listed h, beq_iff_eq]
    _ = ((s.walletListUnspent strAddress).map (·.1)).count hash := by
        rw [List.count, List.countP_map]
        rfl
    _ = 1 := List.count_eq_one_of_mem hnodup (List.mem_map_of_mem hlisted)

end WalletStore

namespace BusyWallet

variable {s : BusyWallet}

/-- **The wallet index loses nothing** in a run whose steps all keep it complete: wherever the calls
have got to, each output that a watched address can spend would be listed, and only once. -/
theorem listsUnspent_of_run (hidle : s.tasks = []) (horder : s.store.InOrder) {events : List Event}
    (hkeeps : Runs.EveryStep step KeepsIndex s events) :
    (Runs.after step s events).store.ListsUnspent := by
  have hindexed : Indexed s.store s.tasks := hidle ▸ horder.indexed
  have hrun := hkeeps.invariant (fun s event hs hevent => Indexed.step hs hevent) hindexed
  exact (WalletStore.inOrder_of_indexed hrun).listsUnspent

/-- A node that watches an address and has stored nothing yet. -/
def watching : BusyWallet where
  store := ⟨∅, ∅, [7], none, some [7], some 0⟩
  tasks := []

/-- An output for the address. -/
def arrCoins : OrderedMap Hash UTXO :=
  (∅ : OrderedMap Hash UTXO).insert 5 ((∅ : UTXO).insert 0 ⟨100, 7⟩)

theorem inOrder_watching : watching.store.InOrder where
  addresses _ hmem := (Option.some.inj hmem).symm
  numbered key hkey := absurd hkey (AList.notMem_empty key)
  counter n _ := n.zero_le
  recorded _ _ _ hpays := absurd hpays Bool.false_ne_true

/-- Outputs are listed after their records were written and before they are stored. -/
def listedEarly : List Event :=
  [.applyPatch arrCoins, .resume 0, .resume 0, .walletListUnspent 7, .resume 1, .resume 1,
    .resume 1, .resume 1, .resume 0]

theorem not_listsUnspent_listedEarly :
    watching.store.InOrder ∧ watching.tasks = [] ∧ (Runs.after step watching listedEarly).tasks = [] ∧
      ¬ (Runs.after step watching listedEarly).store.ListsUnspent := by
  refine ⟨inOrder_watching, rfl, List.length_eq_zero_iff.mp (by decide +kernel), fun hlists => ?_⟩
  have honce := hlists 7 (by decide +kernel) 5 ((∅ : UTXO).insert 0 ⟨100, 7⟩) 0 ⟨100, 7⟩
    (by decide +kernel) (by decide +kernel) rfl
  revert honce
  decide +kernel

/-- Outputs are listed while they are stored. -/
def listedMeanwhile : List Event :=
  [.applyPatch arrCoins, .resume 0, .walletListUnspent 7, .resume 1, .resume 0, .resume 1,
    .resume 0, .resume 0, .resume 0]

theorem listsUnspent_of_run_listedMeanwhile :
    (Runs.after step watching listedMeanwhile).store.ListsUnspent :=
  listsUnspent_of_run rfl inOrder_watching (by decide +kernel)

end BusyWallet

end CilCore
