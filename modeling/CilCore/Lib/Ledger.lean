import CilCore.Lib.FinMap

/-!
# Plain ledgers

A ledger is a finite map of unspent outputs. A payment removes its inputs, one after the
other, and adds its outputs; a list of payments is made in order, and the first that cannot
be made stops it. The results are what remains after a whole list: where every output goes
to a key of its own, nothing is spent twice, and the total changes by the fees.
-/

namespace Ledger

/-- A payment: what it spends, and what it creates. -/
structure Payment (K V : Type) where
  inputs : List K
  outputs : List (K × V)

variable {K V M : Type} [DecidableEq K] [AddCommGroup M]

/-- Spend outputs, each of which has to be unspent at its turn. -/
def spend : List K → FinMap K V → Option (FinMap K V)
  | [], ledger => some ledger
  | key :: rest, ledger => if key ∈ ledger.keys then spend rest (ledger.erase key) else none

/-- Create outputs. -/
def create (outputs : List (K × V)) (ledger : FinMap K V) : FinMap K V :=
  outputs.foldl (fun ledger entry => ledger.insert entry.1 entry.2) ledger

/-- Make a payment. -/
def pay (payment : Payment K V) (ledger : FinMap K V) : Option (FinMap K V) :=
  (spend payment.inputs ledger).map (create payment.outputs)

/-- Make payments in order. -/
def run : List (Payment K V) → FinMap K V → Option (FinMap K V)
  | [], ledger => some ledger
  | payment :: rest, ledger => (pay payment ledger).bind (run rest)

/-- All outputs that payments spend. -/
def spent (payments : List (Payment K V)) : List K := payments.flatMap (·.inputs)

/-- All outputs that payments create. -/
def created (payments : List (Payment K V)) : List (K × V) := payments.flatMap (·.outputs)

/-- The weight of an output, if it is unspent. -/
def weightAt (w : K → V → M) (ledger : FinMap K V) (key : K) : M :=
  (ledger.lookup key).elim 0 (w key)

/-- What a payment spends beyond what it creates. -/
def fee (w : K → V → M) (payment : Payment K V) (ledger : FinMap K V) : M :=
  (payment.inputs.map (weightAt w ledger)).sum - (payment.outputs.map fun entry =>
    w entry.1 entry.2).sum

/-- The fees of payments that are made in order. -/
def fees (w : K → V → M) : List (Payment K V) → FinMap K V → M
  | [], _ => 0
  | payment :: rest, ledger =>
      fee w payment ledger + (pay payment ledger).elim 0 (fees w rest)

/-- Every output goes to a key of its own, which the ledger does not have. -/
structure Fresh (payments : List (Payment K V)) (ledger : FinMap K V) : Prop where
  distinct : ((created payments).map Prod.fst).Nodup
  unused : ∀ key ∈ (created payments).map Prod.fst, key ∉ ledger.keys

section Steps

variable {w : K → V → M} {ledger ledger' : FinMap K V} {key : K}

theorem spend_eq_some_iff {keys : List K} :
    spend keys ledger = some ledger' ↔
      keys.Nodup ∧ (∀ key ∈ keys, key ∈ ledger.keys) ∧
        ∀ key, ledger'.lookup key = if key ∈ keys then none else ledger.lookup key := by
  induction keys generalizing ledger with
  | nil =>
      simp only [spend, Option.some.injEq, List.nodup_nil, List.not_mem_nil, false_implies,
        implies_true, if_false, true_and]
      exact ⟨fun h _ => h ▸ rfl, fun h => (Finmap.ext_lookup fun key => h key).symm⟩
  | cons first rest ih =>
      by_cases hfirst : first ∈ ledger.keys
      · have hkeys (key : K) : key ∈ Finmap.keys (ledger.erase first) ↔
            key ∈ ledger.keys ∧ key ≠ first := by
          rw [FinMap.mem_keys_iff, FinMap.mem_keys_iff, FinMap.lookup_erase_ite]
          split
          next heq => simp [heq]
          next hne => simp [hne]
        rw [spend, if_pos hfirst, ih, List.nodup_cons]
        simp only [hkeys, FinMap.lookup_erase_ite, List.mem_cons]
        constructor
        · intro ⟨hnodup, hmem, hlookup⟩
          refine ⟨⟨fun h => (hmem first h).2 rfl, hnodup⟩, ?_, fun key => ?_⟩
          · rintro key (rfl | hkey)
            · exact hfirst
            · exact (hmem key hkey).1
          · rw [hlookup]
            by_cases hkey : key = first <;> simp [hkey]
        · intro ⟨⟨hnot, hnodup⟩, hmem, hlookup⟩
          refine ⟨hnodup, fun key hkey => ⟨hmem key (.inr hkey), ?_⟩, fun key => ?_⟩
          · rintro rfl
            exact hnot hkey
          · rw [hlookup]
            by_cases hkey : key = first <;> simp [hkey]
      · rw [spend, if_neg hfirst]
        simp [hfirst]

theorem lookup_of_notMem {outputs : List (K × V)} (h : key ∉ outputs.map Prod.fst) :
    outputs.lookup key = none := by
  induction outputs with
  | nil => rfl
  | cons entry rest ih =>
      obtain ⟨first, output⟩ := entry
      rw [List.map_cons, List.mem_cons, not_or] at h
      rw [List.lookup_cons, beq_false_of_ne h.1]
      exact ih h.2

theorem lookup_create_of_notMem {outputs : List (K × V)} (h : key ∉ outputs.map Prod.fst) :
    (create outputs ledger).lookup key = ledger.lookup key := by
  induction outputs generalizing ledger with
  | nil => rfl
  | cons entry rest ih =>
      rw [List.map_cons, List.mem_cons, not_or] at h
      have hrest : (create rest (ledger.insert entry.1 entry.2)).lookup key = _ := ih h.2
      rw [FinMap.lookup_insert_ite, if_neg h.1] at hrest
      exact hrest

/-- The ledger after outputs were created under distinct keys. -/
theorem lookup_create {outputs : List (K × V)} (hdistinct : (outputs.map Prod.fst).Nodup) :
    (create outputs ledger).lookup key = (outputs.lookup key).or (ledger.lookup key) := by
  induction outputs generalizing ledger with
  | nil => rfl
  | cons entry rest ih =>
      obtain ⟨first, output⟩ := entry
      obtain ⟨hnot, hrest⟩ := List.nodup_cons.mp hdistinct
      have hnext : (create ((first, output) :: rest) ledger).lookup key =
          (create rest (ledger.insert first output)).lookup key := rfl
      by_cases heq : key = first
      · subst heq
        rw [hnext, lookup_create_of_notMem hnot, FinMap.lookup_insert_ite, if_pos rfl]
        simp
      · rw [hnext, ih hrest, FinMap.lookup_insert_ite, if_neg heq]
        rw [List.lookup_cons, beq_false_of_ne heq]

theorem total_spend {keys : List K} (h : spend keys ledger = some ledger') :
    FinMap.total w ledger' + (keys.map (weightAt w ledger)).sum = FinMap.total w ledger := by
  induction keys generalizing ledger with
  | nil =>
      cases h
      simp
  | cons first rest ih =>
      unfold spend at h
      split at h
      next hfirst =>
        obtain ⟨hnodup, hmem, -⟩ := spend_eq_some_iff.mp h
        obtain ⟨value, hvalue⟩ := FinMap.mem_keys_iff.mp hfirst
        have hsame : rest.map (weightAt w (ledger.erase first)) = rest.map (weightAt w ledger) := by
          refine List.map_congr_left fun key hkey => ?_
          have hne : key ≠ first := by
            rintro rfl
            have hgone := FinMap.mem_keys_iff.mp (hmem key hkey)
            simp at hgone
          rw [weightAt, FinMap.lookup_erase_ite, if_neg hne, weightAt]
        -- erasing takes the weight of the entry away
        have herase : FinMap.total w ledger =
            FinMap.total w (ledger.erase first) + weightAt w ledger first := by
          have hinsert := FinMap.total_insert_of_notMem w (ledger.erase first) value
            (Finmap.lookup_erase first ledger)
          have hback : Finmap.insert first value (ledger.erase first) = ledger := by
            refine Finmap.ext_lookup fun key => ?_
            rw [FinMap.lookup_insert_ite, FinMap.lookup_erase_ite]
            split
            next heq => rw [heq, hvalue]
            next => rfl
          rw [hback] at hinsert
          rw [hinsert, weightAt, hvalue]
          rfl
        rw [List.map_cons, List.sum_cons, herase, ← ih h, hsame]
        abel
      next => cases h

theorem total_create {outputs : List (K × V)} (hdistinct : (outputs.map Prod.fst).Nodup)
    (hunused : ∀ key ∈ outputs.map Prod.fst, key ∉ ledger.keys) :
    FinMap.total w (create outputs ledger) =
      FinMap.total w ledger + (outputs.map fun entry => w entry.1 entry.2).sum := by
  induction outputs generalizing ledger with
  | nil => simp [create]
  | cons entry rest ih =>
      obtain ⟨hnot, hrest⟩ := List.nodup_cons.mp hdistinct
      have hnew : ledger.lookup entry.1 = none :=
        FinMap.notMem_keys_iff.mp (hunused entry.1 List.mem_cons_self)
      have hnext : ∀ key ∈ rest.map Prod.fst,
          key ∉ Finmap.keys (ledger.insert entry.1 entry.2) := by
        intro key hkey hmem
        rw [FinMap.keys_insert, Finset.mem_insert] at hmem
        obtain rfl | hmem := hmem
        · exact hnot hkey
        · exact hunused key (List.mem_cons_of_mem _ hkey) hmem
      have hstep : FinMap.total w (create (entry :: rest) ledger) =
          FinMap.total w (create rest (ledger.insert entry.1 entry.2)) := rfl
      rw [hstep, ih hrest hnext, FinMap.total_insert_of_notMem w ledger entry.2 hnew, List.map_cons,
        List.sum_cons]
      abel

end Steps

section Run

variable {w : K → V → M} {ledger ledger' view : FinMap K V} {key : K} {payment : Payment K V}
  {payments rest : List (Payment K V)}

omit [DecidableEq K] in
theorem fresh_cons_iff : Fresh (payment :: rest) ledger ↔
    (payment.outputs.map Prod.fst).Nodup ∧ ((created rest).map Prod.fst).Nodup ∧
      (∀ key ∈ payment.outputs.map Prod.fst, key ∉ (created rest).map Prod.fst) ∧
      (∀ key ∈ payment.outputs.map Prod.fst, key ∉ ledger.keys) ∧
      ∀ key ∈ (created rest).map Prod.fst, key ∉ ledger.keys := by
  have hcreated : (created (payment :: rest)).map Prod.fst =
      payment.outputs.map Prod.fst ++ (created rest).map Prod.fst := by
    rw [created, List.flatMap_cons, List.map_append, created]
  constructor
  · intro ⟨hdistinct, hunused⟩
    rw [hcreated] at hdistinct hunused
    obtain ⟨hfirst, hrest, hapart⟩ := List.nodup_append.mp hdistinct
    exact ⟨hfirst, hrest, fun key hkey hmem => hapart key hkey key hmem rfl,
      fun key hkey => hunused key (List.mem_append_left _ hkey),
      fun key hkey => hunused key (List.mem_append_right _ hkey)⟩
  · intro ⟨hfirst, hrest, hapart, hunused, hunusedRest⟩
    refine ⟨?_, fun key hkey => ?_⟩
    · rw [hcreated, List.nodup_append]
      refine ⟨hfirst, hrest, fun key hkey other hother heq => ?_⟩
      exact hapart key hkey (heq ▸ hother)
    · rw [hcreated, List.mem_append] at hkey
      exact hkey.elim (hunused key) (hunusedRest key)

/-- **One payment** to fresh keys. -/
theorem pay_spec (h : pay payment ledger = some view)
    (hdistinct : (payment.outputs.map Prod.fst).Nodup)
    (hunused : ∀ key ∈ payment.outputs.map Prod.fst, key ∉ ledger.keys) :
    payment.inputs.Nodup ∧ (∀ key ∈ payment.inputs, key ∈ ledger.keys) ∧
      (∀ key, view.lookup key = (payment.outputs.lookup key).or
        (if key ∈ payment.inputs then none else ledger.lookup key)) ∧
      FinMap.total w view = FinMap.total w ledger - fee w payment ledger := by
  obtain ⟨left, hspend, rfl⟩ := Option.map_eq_some_iff.mp h
  obtain ⟨hnodup, hmem, hlookup⟩ := spend_eq_some_iff.mp hspend
  refine ⟨hnodup, hmem, fun key => ?_, ?_⟩
  · rw [lookup_create hdistinct, hlookup]
  · have hleft : ∀ key ∈ payment.outputs.map Prod.fst, key ∉ left.keys := by
      intro key hkey
      rw [FinMap.notMem_keys_iff, hlookup]
      split
      next => rfl
      next => exact FinMap.notMem_keys_iff.mp (hunused key hkey)
    have htotal := total_spend (w := w) hspend
    rw [total_create hdistinct hleft, fee, ← htotal]
    abel

theorem exists_spend {keys : List K} (hnodup : keys.Nodup) (hmem : ∀ key ∈ keys, key ∈ ledger.keys) :
    ∃ left, spend keys ledger = some left := by
  refine ⟨FinMap.tabulate ledger.keys fun key =>
    if key ∈ keys then none else ledger.lookup key, spend_eq_some_iff.mpr ⟨hnodup, hmem, ?_⟩⟩
  intro key
  rw [FinMap.lookup_tabulate]
  split
  next => rfl
  next hnot =>
    rw [FinMap.notMem_keys_iff.mp hnot]
    split <;> rfl

theorem pay_of_lookup (hnodup : payment.inputs.Nodup)
    (hmem : ∀ key ∈ payment.inputs, key ∈ ledger.keys)
    (hdistinct : (payment.outputs.map Prod.fst).Nodup)
    (hview : ∀ key, view.lookup key = (payment.outputs.lookup key).or
      (if key ∈ payment.inputs then none else ledger.lookup key)) :
    pay payment ledger = some view := by
  obtain ⟨left, hspend⟩ := exists_spend hnodup hmem
  refine Option.map_eq_some_iff.mpr ⟨left, hspend, Finmap.ext_lookup fun key => ?_⟩
  rw [lookup_create hdistinct, (spend_eq_some_iff.mp hspend).2.2, hview]

theorem mem_keys_of_pay (h : pay payment ledger = some view)
    (hdistinct : (payment.outputs.map Prod.fst).Nodup)
    (hunused : ∀ key ∈ payment.outputs.map Prod.fst, key ∉ ledger.keys) (hkey : key ∈ view.keys) :
    key ∈ payment.outputs.map Prod.fst ∨ key ∈ ledger.keys ∧ key ∉ payment.inputs := by
  obtain ⟨-, -, hlookup, -⟩ := pay_spec (w := fun _ _ => (0 : ℤ)) h hdistinct hunused
  by_cases houtput : key ∈ payment.outputs.map Prod.fst
  · exact .inl houtput
  · right
    obtain ⟨value, hvalue⟩ := FinMap.mem_keys_iff.mp hkey
    rw [hlookup, lookup_of_notMem houtput, Option.none_or] at hvalue
    split at hvalue
    next => cases hvalue
    next hnot => exact ⟨FinMap.mem_keys_of_lookup hvalue, hnot⟩

/-- The rest of the payments still go to fresh keys. -/
theorem Fresh.after_pay (h : Fresh (payment :: rest) ledger) (hpay : pay payment ledger = some view) :
    Fresh rest view := by
  obtain ⟨hfirst, hrest, hapart, hunused, hunusedRest⟩ := fresh_cons_iff.mp h
  refine ⟨hrest, fun key hkey hmem => ?_⟩
  obtain houtput | ⟨hledger, -⟩ := mem_keys_of_pay hpay hfirst hunused hmem
  · exact hapart key houtput hkey
  · exact hunusedRest key hkey hledger

theorem run_append (before : List (Payment K V)) :
    run (before ++ rest) ledger = (run before ledger).bind (run rest) := by
  induction before generalizing ledger with
  | nil => rfl
  | cons first before ih =>
      rw [List.cons_append, run, run]
      cases pay first ledger with
      | none => rfl
      | some view => exact ih

theorem fees_append {before : List (Payment K V)} (h : run before ledger = some view) :
    fees w (before ++ rest) ledger = fees w before ledger + fees w rest view := by
  induction before generalizing ledger with
  | nil =>
      cases h
      exact (zero_add _).symm
  | cons first before ih =>
      obtain ⟨next, hpay, hrun⟩ := Option.bind_eq_some_iff.mp h
      rw [List.cons_append, fees, fees, hpay, Option.elim_some, Option.elim_some, ih hrun, add_assoc]

/-- The payment that cannot be made: an output that it spends is missing or spent at its
turn, or it spends one twice. -/
def Refused (payments : List (Payment K V)) (ledger : FinMap K V) : Prop :=
  ∃ before payment after view, payments = before ++ payment :: after ∧
    run before ledger = some view ∧
    (¬ payment.inputs.Nodup ∨ ∃ key ∈ payment.inputs, key ∉ view.keys)

theorem pay_eq_none_iff : pay payment ledger = none ↔
    ¬ payment.inputs.Nodup ∨ ∃ key ∈ payment.inputs, key ∉ ledger.keys := by
  constructor
  · intro hnone
    by_contra hgood
    push Not at hgood
    obtain ⟨left, hspend⟩ := exists_spend hgood.1 hgood.2
    rw [pay, hspend] at hnone
    cases hnone
  · intro hbad
    by_contra hsome
    obtain ⟨view, hview⟩ := Option.ne_none_iff_exists'.mp hsome
    obtain ⟨left, hspend, -⟩ := Option.map_eq_some_iff.mp hview
    obtain ⟨hnodup, hmem, -⟩ := spend_eq_some_iff.mp hspend
    obtain htwice | ⟨key, hkey, hmissing⟩ := hbad
    · exact htwice hnodup
    · exact hmissing (hmem key hkey)

theorem run_eq_none_iff : run payments ledger = none ↔ Refused payments ledger := by
  constructor
  · intro hnone
    induction payments generalizing ledger with
    | nil => cases hnone
    | cons payment rest ih =>
        cases hpay : pay payment ledger with
        | none => exact ⟨[], payment, rest, ledger, rfl, rfl, pay_eq_none_iff.mp hpay⟩
        | some view =>
            rw [run, hpay, Option.bind_some] at hnone
            obtain ⟨before, refused, after, left, heq, hbefore, hbad⟩ := ih hnone
            refine ⟨payment :: before, refused, after, left, by rw [heq]; rfl, ?_, hbad⟩
            rw [run, hpay, Option.bind_some, hbefore]
  · intro ⟨before, payment, after, view, hpayments, hbefore, hbad⟩
    rw [hpayments, run_append, hbefore, Option.bind_some, run, pay_eq_none_iff.mpr hbad]
    rfl

/-- Payments spend what the ledger has, or what they have created themselves. -/
theorem mem_of_spent (h : run payments ledger = some ledger') (hfresh : Fresh payments ledger)
    (hkey : key ∈ spent payments) :
    key ∈ ledger.keys ∨ key ∈ (created payments).map Prod.fst := by
  induction payments generalizing ledger with
  | nil => cases hkey
  | cons payment rest ih =>
      obtain ⟨view, hpay, hrun⟩ := Option.bind_eq_some_iff.mp h
      obtain ⟨hfirst, -, -, hunused, -⟩ := fresh_cons_iff.mp hfresh
      obtain ⟨-, hmem, -⟩ := pay_spec (w := fun _ _ => (0 : ℤ)) hpay hfirst hunused
      rw [created, List.flatMap_cons, List.map_append, List.mem_append]
      rw [spent, List.flatMap_cons, List.mem_append] at hkey
      obtain hkey | hkey := hkey
      · exact .inl (hmem key hkey)
      · obtain hview | hcreated := ih hrun (hfresh.after_pay hpay) hkey
        · exact (mem_keys_of_pay hpay hfirst hunused hview).elim (fun houtput => .inr (.inl houtput))
            fun hledger => .inl hledger.1
        · exact .inr (.inr hcreated)

/-- **Payments in order**: every output is spent at most once, what remains is the ledger
without all that is spent and with all that is created, and the total has lost the fees. -/
theorem run_spec (h : run payments ledger = some ledger') (hfresh : Fresh payments ledger) :
    (spent payments).Nodup ∧
      (∀ key, ledger'.lookup key = if key ∈ spent payments then none
        else ((created payments).lookup key).or (ledger.lookup key)) ∧
      FinMap.total w ledger' = FinMap.total w ledger - fees w payments ledger := by
  induction payments generalizing ledger with
  | nil =>
      cases h
      simp [spent, created, fees]
  | cons payment rest ih =>
      obtain ⟨view, hpay, hrun⟩ := Option.bind_eq_some_iff.mp h
      obtain ⟨hfirst, hrest, hapart, hunused, hunusedRest⟩ := fresh_cons_iff.mp hfresh
      obtain ⟨hnodup, hmem, hview, htotal⟩ := pay_spec (w := w) hpay hfirst hunused
      obtain ⟨hnodupRest, hlookup, htotalRest⟩ := ih hrun (hfresh.after_pay hpay)
      have hspent : spent (payment :: rest) = payment.inputs ++ spent rest := List.flatMap_cons
      have hcreated : created (payment :: rest) = payment.outputs ++ created rest :=
        List.flatMap_cons
      -- what is spent first is neither left nor created again
      have hgone : ∀ key ∈ payment.inputs, key ∉ spent rest := by
        intro key hkey hagain
        obtain hleft | hagain := mem_of_spent hrun (hfresh.after_pay hpay) hagain
        · obtain houtput | ⟨-, hnot⟩ := mem_keys_of_pay hpay hfirst hunused hleft
          · exact hunused key houtput (hmem key hkey)
          · exact hnot hkey
        · exact hunusedRest key hagain (hmem key hkey)
      refine ⟨?_, fun key => ?_, ?_⟩
      · rw [hspent, List.nodup_append]
        refine ⟨hnodup, hnodupRest, fun key hkey other hother heq => ?_⟩
        exact hgone key hkey (heq ▸ hother)
      · rw [hlookup, hview, hspent, hcreated, List.lookup_append]
        simp only [List.mem_append]
        by_cases hagain : key ∈ spent rest
        · simp [hagain]
        by_cases hkey : key ∈ payment.inputs
        · have hold := hmem key hkey
          have houtput := lookup_of_notMem fun h => hunused key h hold
          have hcreatedRest := lookup_of_notMem fun h => hunusedRest key h hold
          simp [hagain, hkey, houtput, hcreatedRest]
        · by_cases houtput : key ∈ payment.outputs.map Prod.fst
          · have hcreatedRest := lookup_of_notMem (hapart key houtput)
            simp [hagain, hkey, hcreatedRest]
          · simp [hagain, hkey, lookup_of_notMem houtput]
      · rw [htotalRest, htotal, fees, hpay]
        simp only [Option.elim_some]
        abel

end Run

end Ledger
