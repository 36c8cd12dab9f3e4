import CilCore.Node.ContractAccounting

/-!
# Coin limits of calls

One counter pays for everything that a transaction's contract and its nested calls ask
for. A nested call may be given a limit of its own, which is compared with the counter
when the call is made, and with nothing afterwards.
-/

namespace CilCore

/-- What a fee is charged for. -/
inductive FeeKind where
  | creation
  | invocation
  | internalTx
deriving DecidableEq, Repr

/-- The fee table. -/
def RunEnv.fee (E : RunEnv) : FeeKind → Amount
  | .creation => E.nFeeContractCreation
  | .invocation => E.nFeeContractInvocation
  | .internalTx => E.nFeeInternalTx

theorem RunEnv.fee_nonneg (E : RunEnv) (kind : FeeKind) : 0 ≤ E.fee kind := by
  cases kind <;> exact Nat.cast_nonneg _

/-- A fee that was charged, and the coins that were left. -/
structure Charge where
  kind : FeeKind
  left : Amount

/-- The sum of the fees. -/
def chargedFees (E : RunEnv) (charges : List Charge) : Amount :=
  (charges.map fun charge => E.fee charge.kind).sum

/-- The charges are debited one after the other, and the counter is never overdrawn. -/
def Debits (E : RunEnv) : Amount → List Charge → Amount → Prop
  | start, [], last => last = start
  | start, charge :: rest, last =>
      charge.left = start - E.fee charge.kind ∧ 0 ≤ charge.left ∧ Debits E charge.left rest last

section Debits

variable {E : RunEnv} {start mid last : Amount} {charges charges' : List Charge}

theorem debits_append :
    Debits E start (charges ++ charges') last ↔
      ∃ mid, Debits E start charges mid ∧ Debits E mid charges' last := by
  induction charges generalizing start with
  | nil => simp [Debits]
  | cons charge rest ih =>
      simp only [List.cons_append, Debits, ih]
      constructor
      · intro ⟨hleft, hnonneg, mid, hrest, hrest'⟩
        exact ⟨mid, ⟨hleft, hnonneg, hrest⟩, hrest'⟩
      · intro ⟨mid, ⟨hleft, hnonneg, hrest⟩, hrest'⟩
        exact ⟨hleft, hnonneg, mid, hrest, hrest'⟩

theorem Debits.spent (h : Debits E start charges last) :
    start - last = chargedFees E charges := by
  induction charges generalizing start with
  | nil =>
      rw [Debits] at h
      simp [h, chargedFees]
  | cons charge rest ih =>
      obtain ⟨hleft, -, hrest⟩ := h
      have hspent := ih hrest
      rw [chargedFees] at hspent ⊢
      rw [List.map_cons, List.sum_cons]
      linarith

theorem Debits.bounded (h : Debits E start charges last) :
    ∀ charge ∈ charges, 0 ≤ charge.left ∧ charge.left ≤ start := by
  induction charges generalizing start with
  | nil => exact fun charge hmem => absurd hmem List.not_mem_nil
  | cons first rest ih =>
      obtain ⟨hleft, hnonneg, hrest⟩ := h
      have hle : first.left ≤ start := by
        have hfee := E.fee_nonneg first.kind
        linarith
      intro charge hmem
      rcases List.mem_cons.mp hmem with rfl | hmem
      · exact ⟨hnonneg, hle⟩
      · obtain ⟨hnonneg', hle'⟩ := ih hrest charge hmem
        exact ⟨hnonneg', hle'.trans hle⟩

/-- The coins that are gone after any of the charges. -/
theorem Debits.spent_until (h : Debits E start charges last) {done rest : List Charge}
    {charge : Charge} (hsplit : charges = done ++ charge :: rest) :
    start - charge.left = chargedFees E (done ++ [charge]) := by
  rw [hsplit, List.append_cons, debits_append] at h
  obtain ⟨mid, hdone, -⟩ := h
  have hmid : mid = charge.left := by
    obtain ⟨_, -, -, -, hlast⟩ := debits_append.mp hdone
    exact hlast
  exact hmid ▸ hdone.spent

end Debits

/-! ### The charges of a run -/

/-- The fees that are charged while the code of a method runs. -/
def charges (F : Factory) (E : RunEnv) : Code → Contract → RunState → List Charge
  | .done _, _, _ => []
  | .throws _, _, _ => []
  | .send strAddress amount k, holder, s =>
      let r := send F E strAddress amount holder s
      (if s.nCoinsLimit < E.nFeeInternalTx then [] else [⟨.internalTx, r.1.nCoinsLimit⟩]) ++
        charges F E (k r.2.2) r.2.1 r.1
  | .call delegate strAddress coinsToPass callee k, holder, s =>
      match startCall F E strAddress coinsToPass s with
      | .error error => charges F E (k (some error)) holder s
      | .ok (nested, nCoinsLimit) =>
          let called := if delegate then holder else nested
          let r := endCall F E delegate holder nested
            (runCode F E callee called { s with nCoinsLimit })
          ⟨.invocation, nCoinsLimit⟩ ::
            (charges F E callee called { s with nCoinsLimit } ++ charges F E (k r.2.2) r.2.1 r.1)

/-- A nested call that was given a limit of its own: the coins that were left before it
and after it, and what was charged for it and below it. -/
structure LimitedCall where
  coinsLimit : Amount
  before : Amount
  after : Amount
  charges : List Charge

/-- The number of requests of a kind that were served. -/
def LimitedCall.count (kind : FeeKind) (call : LimitedCall) : Nat :=
  call.charges.countP (·.kind = kind)

/-- The nested calls with limits of their own, at any depth. -/
def limitedCalls (F : Factory) (E : RunEnv) : Code → Contract → RunState → List LimitedCall
  | .done _, _, _ => []
  | .throws _, _, _ => []
  | .send strAddress amount k, holder, s =>
      let r := send F E strAddress amount holder s
      limitedCalls F E (k r.2.2) r.2.1 r.1
  | .call delegate strAddress coinsToPass callee k, holder, s =>
      match startCall F E strAddress coinsToPass s with
      | .error error => limitedCalls F E (k (some error)) holder s
      | .ok (nested, nCoinsLimit) =>
          let called := if delegate then holder else nested
          let r := endCall F E delegate holder nested
            (runCode F E callee called { s with nCoinsLimit })
          let own : List LimitedCall := coinsToPass.toList.map fun coinsLimit =>
            { coinsLimit
              before := s.nCoinsLimit
              after := r.1.nCoinsLimit
              charges := ⟨.invocation, nCoinsLimit⟩ ::
                charges F E callee called { s with nCoinsLimit } }
          own ++ limitedCalls F E callee called { s with nCoinsLimit } ++
            limitedCalls F E (k r.2.2) r.2.1 r.1

section Run

variable {F : Factory} {E : RunEnv}

theorem spendCoins_ok {nCurrent nAmount left : Amount}
    (h : spendCoins nCurrent nAmount = .ok left) : left = nCurrent - nAmount ∧ 0 ≤ left := by
  unfold spendCoins at h
  split at h
  next => cases h
  next hnot =>
    cases h
    exact ⟨rfl, not_lt.mp hnot⟩

/-- What a nested call leaves of the counter when it starts. -/
theorem startCall_left {strAddress : Address} {coinsToPass : Option Amount} {s : RunState}
    {nested : Contract} {nCoinsLimit : Amount}
    (h : startCall F E strAddress coinsToPass s = .ok (nested, nCoinsLimit)) :
    nCoinsLimit = s.nCoinsLimit - E.fee .invocation ∧ 0 ≤ nCoinsLimit := by
  unfold startCall at h
  split at h
  next => cases h
  next =>
    split at h
    next => cases h
    next => cases h
    next =>
      dsimp only at h
      split at h
      next => cases h
      next left hspend =>
        cases h
        exact spendCoins_ok hspend

theorem endCall_nCoinsLimit (delegate : Bool) (caller nested : Contract)
    (r : RunState × Contract × Except String Data) :
    (endCall F E delegate caller nested r).1.nCoinsLimit = r.1.nCoinsLimit := by
  obtain ⟨s, holder, result⟩ := r
  cases result <;> rfl

/-- A send debits its fee, or changes nothing. -/
theorem send_debits (strAddress : Option Address) (amount : Amount) (holder : Contract)
    (s : RunState) :
    Debits E s.nCoinsLimit
      (if s.nCoinsLimit < E.nFeeInternalTx then []
        else [⟨.internalTx, (send F E strAddress amount holder s).1.nCoinsLimit⟩])
      (send F E strAddress amount holder s).1.nCoinsLimit := by
  unfold send spendCoins
  by_cases hless : s.nCoinsLimit < E.nFeeInternalTx
  · rw [if_pos hless, if_pos (by linarith)]
    rfl
  · rw [if_neg hless, if_neg (by linarith)]
    exact ⟨rfl, by dsimp only; linarith, rfl⟩

/-- **The counter pays for every request**, at any depth. -/
theorem runCode_debits (code : Code) (holder : Contract) (s : RunState) :
    Debits E s.nCoinsLimit (charges F E code holder s) (runCode F E code holder s).1.nCoinsLimit := by
  induction code generalizing holder s with
  | done data => rfl
  | throws message => rfl
  | send strAddress amount k ih =>
      rw [charges, runCode]
      exact debits_append.mpr ⟨_, send_debits strAddress amount holder s, ih _ _ _⟩
  | call delegate strAddress coinsToPass callee k ihcallee ihk =>
      cases hstart : startCall F E strAddress coinsToPass s with
      | error error =>
          simp only [charges, runCode, hstart]
          exact ihk _ _ _
      | ok started =>
          obtain ⟨nested, nCoinsLimit⟩ := started
          simp only [charges, runCode, hstart]
          obtain ⟨hleft, hnonneg⟩ := startCall_left hstart
          have hcallee := ihcallee (if delegate then holder else nested) { s with nCoinsLimit }
          refine ⟨hleft, hnonneg, debits_append.mpr ⟨_, hcallee, ?_⟩⟩
          rw [← endCall_nCoinsLimit delegate holder nested]
          exact ihk _ _ _

/-- A nested call with a limit of its own is charged for its invocation, and then for what
its method asks for. -/
theorem limitedCalls_eq (code : Code) (holder : Contract) (s : RunState) :
    ∀ call ∈ limitedCalls F E code holder s, ∃ callee called before,
      0 ≤ before.nCoinsLimit ∧ before.nCoinsLimit = call.before - E.fee .invocation ∧
      call.charges = ⟨.invocation, before.nCoinsLimit⟩ :: charges F E callee called before ∧
      call.after = (runCode F E callee called before).1.nCoinsLimit := by
  induction code generalizing holder s with
  | done data => exact fun call hmem => absurd hmem List.not_mem_nil
  | throws message => exact fun call hmem => absurd hmem List.not_mem_nil
  | send strAddress amount k ih =>
      rw [limitedCalls]
      exact ih _ _ _
  | call delegate strAddress coinsToPass callee k ihcallee ihk =>
      cases hstart : startCall F E strAddress coinsToPass s with
      | error error =>
          simp only [limitedCalls, hstart]
          exact ihk _ _ _
      | ok started =>
          obtain ⟨nested, nCoinsLimit⟩ := started
          obtain ⟨hleft, hnonneg⟩ := startCall_left hstart
          simp only [limitedCalls, hstart]
          intro call hmem
          rcases List.mem_append.mp hmem with hmem | hmem
          · rcases List.mem_append.mp hmem with hmem | hmem
            · obtain ⟨coinsLimit, -, rfl⟩ := List.mem_map.mp hmem
              exact ⟨callee, if delegate then holder else nested, { s with nCoinsLimit },
                hnonneg, hleft, rfl, endCall_nCoinsLimit ..⟩
            · exact ihcallee _ _ call hmem
          · exact ihk _ _ _ call hmem

/-- A nested call pays for itself and for what is below it. -/
theorem limitedCalls_debits (code : Code) (holder : Contract) (s : RunState) :
    ∀ call ∈ limitedCalls F E code holder s, Debits E call.before call.charges call.after := by
  intro call hmem
  obtain ⟨callee, called, before, hnonneg, hleft, hcharges, hafter⟩ :=
    limitedCalls_eq code holder s call hmem
  rw [hcharges, hafter]
  exact ⟨hleft, hnonneg, runCode_debits callee called before⟩

/-- Nothing is created by a running contract. -/
theorem charges_kind (code : Code) (holder : Contract) (s : RunState) :
    ∀ charge ∈ charges F E code holder s, charge.kind ≠ .creation := by
  induction code generalizing holder s with
  | done data => exact fun charge hmem => absurd hmem List.not_mem_nil
  | throws message => exact fun charge hmem => absurd hmem List.not_mem_nil
  | send strAddress amount k ih =>
      rw [charges]
      intro charge hmem
      rcases List.mem_append.mp hmem with hmem | hmem
      · split at hmem
        next => cases hmem
        next =>
          rw [List.mem_singleton.mp hmem]
          exact nofun
      · exact ih _ _ _ charge hmem
  | call delegate strAddress coinsToPass callee k ihcallee ihk =>
      cases hstart : startCall F E strAddress coinsToPass s with
      | error error =>
          simp only [charges, hstart]
          exact ihk _ _ _
      | ok started =>
          simp only [charges, hstart]
          intro charge hmem
          rcases List.mem_cons.mp hmem with rfl | hmem
          · exact nofun
          · rcases List.mem_append.mp hmem with hmem | hmem
            · exact ihcallee _ _ charge hmem
            · exact ihk _ _ _ charge hmem

theorem limitedCalls_kind (code : Code) (holder : Contract) (s : RunState) :
    ∀ call ∈ limitedCalls F E code holder s, ∀ charge ∈ call.charges, charge.kind ≠ .creation := by
  intro call hmem charge hcharge
  obtain ⟨callee, called, before, -, -, hcharges, -⟩ := limitedCalls_eq code holder s call hmem
  rw [hcharges] at hcharge
  rcases List.mem_cons.mp hcharge with rfl | hcharge
  · exact nofun
  · exact charges_kind callee called before charge hcharge

/-- What is charged, by the number of requests. -/
theorem chargedFees_eq_count {list : List Charge} (h : ∀ charge ∈ list, charge.kind ≠ .creation) :
    chargedFees E list =
      list.countP (·.kind = .invocation) * E.fee .invocation +
        list.countP (·.kind = .internalTx) * E.fee .internalTx := by
  induction list with
  | nil => simp [chargedFees]
  | cons charge rest ih =>
      have hrest := ih fun other hmem => h other (List.mem_cons_of_mem _ hmem)
      have hkind := h charge List.mem_cons_self
      rw [chargedFees] at hrest ⊢
      rw [List.map_cons, List.sum_cons, hrest, List.countP_cons, List.countP_cons]
      cases hcharge : charge.kind with
      | creation => exact absurd hcharge hkind
      | invocation =>
          simp
          ring
      | internalTx =>
          simp
          ring

end Run

/-! ### The run of a transaction -/

namespace ContractRun

/-- The fees that are charged for the contract of a transaction. -/
def charges (F : Factory) (tx : Transaction) (behaviour : Behaviour) (run : ContractRun) :
    List Charge :=
  match run.contract with
  | none =>
      if run.start.nCoinsLimit < run.env.nFeeContractCreation ∨
          (run.env.storage.getContract (F.contractAddress run.env.strTxHash)).isSome then []
      else [⟨.creation, (run.execContract F tx behaviour).state.nCoinsLimit⟩]
  | some contract =>
      match startInvocation F run.env tx contract run.start with
      | .error _ => []
      | .ok (contract, s) =>
          ⟨.invocation, s.nCoinsLimit⟩ :: CilCore.charges F run.env behaviour.method contract s

/-- Its nested calls with limits of their own. -/
def limitedCalls (F : Factory) (tx : Transaction) (behaviour : Behaviour) (run : ContractRun) :
    List LimitedCall :=
  match run.invocation F tx with
  | none => []
  | some (contract, s) => CilCore.limitedCalls F run.env behaviour.method contract s

/-- The values that the counter takes: the limit, and what is left after each charge. -/
def remaining (F : Factory) (tx : Transaction) (behaviour : Behaviour) (run : ContractRun) :
    List Amount :=
  run.start.nCoinsLimit :: (run.charges F tx behaviour).map (·.left)

/-- The coin limits of a run. The remaining coins never leave the range of the limit, what is
spent is the sum of the fees charged so far, and a nested call with a limit of its own
spends no more than that. -/
structure CoinLimits (F : Factory) (tx : Transaction) (behaviour : Behaviour)
    (run : ContractRun) : Prop where
  bounded : ∀ left ∈ run.remaining F tx behaviour, 0 ≤ left ∧ left ≤ run.start.nCoinsLimit
  spentUntil : ∀ done charge rest, run.charges F tx behaviour = done ++ charge :: rest →
    run.start.nCoinsLimit - charge.left = chargedFees run.env (done ++ [charge])
  spent : run.start.nCoinsLimit - (run.execContract F tx behaviour).state.nCoinsLimit =
    chargedFees run.env (run.charges F tx behaviour)
  nested : ∀ call ∈ run.limitedCalls F tx behaviour, call.before - call.after ≤ call.coinsLimit

variable {F : Factory} {tx : Transaction} {behaviour : Behaviour} {run : ContractRun}

theorem startInvocation_left {E : RunEnv} {contract started : Contract} {s s' : RunState}
    (h : startInvocation F E tx contract s = .ok (started, s')) :
    s'.nCoinsLimit = s.nCoinsLimit - E.fee .invocation ∧ 0 ≤ s'.nCoinsLimit := by
  unfold startInvocation at h
  split at h
  next => cases h
  next hless =>
    split at h
    next => cases h
    next =>
      split at h
      next => cases h
      next =>
        cases h
        exact ⟨rfl, by dsimp only; linarith⟩

theorem endInvocation_nCoinsLimit (nPrevDataSize : Nat)
    (r : RunState × Contract × Except String Data) :
    (endInvocation F nPrevDataSize r).state.nCoinsLimit = r.1.nCoinsLimit := by
  obtain ⟨s, holder, result⟩ := r
  cases result <;> rfl

theorem createContract_debits (E : RunEnv) (constructor : Except String Constructed) (s : RunState) :
    Debits E s.nCoinsLimit
      (if s.nCoinsLimit < E.nFeeContractCreation ∨
          (E.storage.getContract (F.contractAddress E.strTxHash)).isSome then []
        else [⟨.creation, (createContract F E constructor s).state.nCoinsLimit⟩])
      (createContract F E constructor s).state.nCoinsLimit := by
  unfold createContract
  by_cases hless : s.nCoinsLimit < E.nFeeContractCreation
  · simp only [hless, true_or, if_true]
    rfl
  by_cases hfound : (E.storage.getContract (F.contractAddress E.strTxHash)).isSome = true
  · simp only [hless, hfound, or_true, if_true, if_false]
    rfl
  · simp only [hless, hfound, if_false]
    have hleft : (0 : Amount) ≤ s.nCoinsLimit - E.nFeeContractCreation := by linarith
    cases constructor <;> exact ⟨rfl, hleft, rfl⟩

/-- The counter pays for all that a transaction's contract asks for. -/
theorem execContract_debits (tx : Transaction) (behaviour : Behaviour) (run : ContractRun) :
    Debits run.env run.start.nCoinsLimit (run.charges F tx behaviour)
      (run.execContract F tx behaviour).state.nCoinsLimit := by
  unfold charges execContract
  cases run.contract with
  | none => exact createContract_debits run.env behaviour.constructor run.start
  | some contract =>
      dsimp only
      unfold invokeContract
      cases hstart : startInvocation F run.env tx contract run.start with
      | error message => rfl
      | ok started =>
          obtain ⟨contract, s⟩ := started
          obtain ⟨hleft, hnonneg⟩ := startInvocation_left hstart
          refine ⟨hleft, hnonneg, ?_⟩
          dsimp only
          rw [endInvocation_nCoinsLimit]
          exact runCode_debits behaviour.method contract s

/-- What a nested call spends, by what was served for it and below it. -/
theorem limitedCalls_spent {call : LimitedCall} (hcall : call ∈ run.limitedCalls F tx behaviour) :
    call.before - call.after = call.count .invocation * run.env.nFeeContractInvocation +
      call.count .internalTx * run.env.nFeeInternalTx := by
  unfold limitedCalls at hcall
  split at hcall
  next => cases hcall
  next contract s _ =>
    rw [(limitedCalls_debits behaviour.method contract s call hcall).spent]
    exact chargedFees_eq_count (limitedCalls_kind behaviour.method contract s call hcall)

end ContractRun

section Sample

/-- A method that calls its own contract, with one coin. -/
def callWithOneCoin : Behaviour :=
  ⟨.error "", .call false 77 (some 1) (.done Contract.emptyData) fun _ => .done Contract.emptyData⟩

end Sample

end CilCore
