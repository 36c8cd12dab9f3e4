import CilCore.Lib.Ledger
import Mathlib.Algebra.Order.Group.Defs

/-!
# Named payments

Payments that are known by a name, such as the hash of a transaction, and whose outputs go
under that name. Several parties may record one payment, and a sequence may hold it more
than once: a ledger makes it the first time, and skips it afterwards. What a set of named
payments shows does not depend on an order; a sequence in which every payment spends what
was created before it can be made in that order, and leaves what its payments show.
-/

namespace Ledger

/-- A payment with its name. -/
abbrev Named (I K V : Type) := I × Payment K V

/-- The output is in the base or was created by one of the payments, and none spends it. -/
def Shows {I K V : Type} [DecidableEq K] (base : FinMap K V) (made : Set (Named I K V)) (key : K)
    (value : V) : Prop :=
  (base.lookup key = some value ∨ ∃ entry ∈ made, (key, value) ∈ entry.2.outputs) ∧
    ∀ entry ∈ made, key ∉ entry.2.inputs

/-- A name belongs to one payment, whose outputs go under it, and to nothing in the base. -/
structure WellNamed {I K V : Type} (nameOf : K → I) (base : FinMap K V)
    (made : Set (Named I K V)) : Prop where
  unique : ∀ entry ∈ made, ∀ other ∈ made, entry.1 = other.1 → entry = other
  placed : ∀ entry ∈ made, ∀ key ∈ entry.2.outputs.map Prod.fst, nameOf key = entry.1
  distinct : ∀ entry ∈ made, (entry.2.outputs.map Prod.fst).Nodup
  apart : ∀ entry ∈ made, ∀ key ∈ base.keys, nameOf key ≠ entry.1

/-- No output is spent by two payments. -/
def NoDoubleSpend {I K V : Type} (made : Set (Named I K V)) : Prop :=
  ∀ entry ∈ made, ∀ other ∈ made, ∀ key ∈ entry.2.inputs, key ∈ other.2.inputs → entry = other

/-- Every payment of a sequence spends what the base has or an earlier payment has created. -/
def Backed {I K V : Type} (base : FinMap K V) (entries : List (Named I K V)) : Prop :=
  ∀ before entry after, entries = before ++ entry :: after → ∀ key ∈ entry.2.inputs,
    key ∈ base.keys ∨ ∃ other ∈ before, key ∈ other.2.outputs.map Prod.fst

section Sets

variable {I K V : Type} {nameOf : K → I} {base : FinMap K V} {made made' : Set (Named I K V)}

theorem WellNamed.mono (h : WellNamed nameOf base made) (hsub : made' ⊆ made) :
    WellNamed nameOf base made' where
  unique entry hentry other hother := h.unique entry (hsub hentry) other (hsub hother)
  placed entry hentry := h.placed entry (hsub hentry)
  distinct entry hentry := h.distinct entry (hsub hentry)
  apart entry hentry := h.apart entry (hsub hentry)

theorem NoDoubleSpend.mono (h : NoDoubleSpend made) (hsub : made' ⊆ made) :
    NoDoubleSpend made' :=
  fun entry hentry other hother => h entry (hsub hentry) other (hsub hother)

end Sets

section Once

variable {I K V : Type} [DecidableEq I]

/-- The payments of a sequence, each at its first place, without those that are done. -/
def once : List I → List (Named I K V) → List (Named I K V)
  | _, [] => []
  | done, entry :: rest =>
      if entry.1 ∈ done then once done rest else entry :: once (entry.1 :: done) rest

variable {done done' : List I} {entry : Named I K V} {entries rest : List (Named I K V)}

theorem once_congr (h : ∀ name, name ∈ done ↔ name ∈ done') (entries : List (Named I K V)) :
    once done entries = once done' entries := by
  induction entries generalizing done done' with
  | nil => rfl
  | cons entry rest ih =>
      have hnext : ∀ name, name ∈ entry.1 :: done ↔ name ∈ entry.1 :: done' := fun name => by
        rw [List.mem_cons, List.mem_cons, h]
      rw [once, once, ih h, ih hnext]
      simp only [h]

theorem once_append (entries rest : List (Named I K V)) :
    once done (entries ++ rest) =
      once done entries ++ once (entries.map Prod.fst ++ done) rest := by
  induction entries generalizing done with
  | nil => rfl
  | cons entry entries ih =>
      rw [List.cons_append, once, once]
      split
      next hdone =>
        rw [ih]
        refine congrArg _ (once_congr (fun name => ?_) rest)
        simp only [List.map_cons, List.cons_append, List.mem_cons, List.mem_append]
        constructor
        · exact .inr
        · rintro (rfl | h)
          · exact .inr hdone
          · exact h
      next =>
        rw [ih, List.cons_append]
        refine congrArg _ (congrArg _ (once_congr (fun name => ?_) rest))
        simp only [List.map_cons, List.cons_append, List.mem_cons, List.mem_append]
        exact or_left_comm

theorem mem_of_mem_once (h : entry ∈ once done entries) : entry ∈ entries ∧ entry.1 ∉ done := by
  induction entries generalizing done with
  | nil => cases h
  | cons first rest ih =>
      rw [once] at h
      split at h
      next =>
        obtain ⟨hmem, hnot⟩ := ih h
        exact ⟨List.mem_cons_of_mem _ hmem, hnot⟩
      next hfirst =>
        rcases List.mem_cons.mp h with rfl | h
        · exact ⟨List.mem_cons_self, hfirst⟩
        · obtain ⟨hmem, hnot⟩ := ih h
          exact ⟨List.mem_cons_of_mem _ hmem, fun hdone => hnot (List.mem_cons_of_mem _ hdone)⟩

/-- A payment that is not done is made, or another one under its name. -/
theorem exists_mem_once (h : entry ∈ entries) (hnot : entry.1 ∉ done) :
    ∃ other ∈ once done entries, other.1 = entry.1 := by
  induction entries generalizing done with
  | nil => cases h
  | cons first rest ih =>
      rw [once]
      rcases List.mem_cons.mp h with rfl | h
      · rw [if_neg hnot]
        exact ⟨entry, List.mem_cons_self, rfl⟩
      · split
        next => exact ih h hnot
        next =>
          by_cases hsame : entry.1 = first.1
          · exact ⟨first, List.mem_cons_self, hsame.symm⟩
          · have hlater : entry.1 ∉ first.1 :: done := by simp [hsame, hnot]
            obtain ⟨other, hother, heq⟩ := ih h hlater
            exact ⟨other, List.mem_cons_of_mem _ hother, heq⟩

theorem nodup_once (entries : List (Named I K V)) : ((once done entries).map Prod.fst).Nodup := by
  induction entries generalizing done with
  | nil => exact List.nodup_nil
  | cons first rest ih =>
      rw [once]
      split
      next => exact ih
      next =>
        rw [List.map_cons, List.nodup_cons]
        refine ⟨fun hmem => ?_, ih⟩
        obtain ⟨other, hother, heq⟩ := List.mem_map.mp hmem
        exact (mem_of_mem_once hother).2 (heq ▸ List.mem_cons_self)

/-- Where a payment is made for the first time. -/
theorem once_eq_append {before after : List (Named I K V)}
    (h : once done entries = before ++ entry :: after) :
    ∃ start later, entries = start ++ entry :: later ∧ before = once done start := by
  induction entries generalizing done before with
  | nil => simp [once] at h
  | cons first rest ih =>
      rw [once] at h
      split at h
      next hdone =>
        obtain ⟨start, later, rfl, rfl⟩ := ih h
        exact ⟨first :: start, later, rfl, by rw [once, if_pos hdone]⟩
      next hnot =>
        cases before with
        | nil =>
            rw [List.nil_append, List.cons.injEq] at h
            obtain ⟨rfl, -⟩ := h
            exact ⟨[], rest, rfl, rfl⟩
        | cons head before =>
            rw [List.cons_append, List.cons.injEq] at h
            obtain ⟨rfl, h⟩ := h
            obtain ⟨start, later, rfl, rfl⟩ := ih h
            exact ⟨first :: start, later, rfl, by rw [once, if_neg hnot]⟩

/-- What is made once is not worth more. -/
theorem sum_once_le {M : Type} [AddCommMonoid M] [PartialOrder M] [IsOrderedAddMonoid M]
    {f : Named I K V → M} (hpos : ∀ entry ∈ entries, 0 ≤ f entry) :
    ((once done entries).map f).sum ≤ (entries.map f).sum := by
  induction entries generalizing done with
  | nil => exact le_rfl
  | cons first rest ih =>
      obtain ⟨hfirst, hrest⟩ := List.forall_mem_cons.mp hpos
      rw [once, List.map_cons, List.sum_cons]
      split
      next => exact (ih hrest).trans (le_add_of_nonneg_left hfirst)
      next =>
        rw [List.map_cons, List.sum_cons]
        exact add_le_add_right (ih hrest) _

/-- Positive weights show whether something is there twice. -/
theorem sum_once_eq_iff {M : Type} [AddCommGroup M] [LinearOrder M] [IsOrderedAddMonoid M]
    {f : Named I K V → M} (hpos : ∀ entry ∈ entries, 0 < f entry) :
    ((once done entries).map f).sum = (entries.map f).sum ↔
      (entries.map Prod.fst).Nodup ∧ ∀ entry ∈ entries, entry.1 ∉ done := by
  induction entries generalizing done with
  | nil => simp [once]
  | cons first rest ih =>
      obtain ⟨hfirst, hrest⟩ := List.forall_mem_cons.mp hpos
      rw [once, List.map_cons, List.sum_cons, List.map_cons, List.nodup_cons, List.forall_mem_cons]
      split
      next hdone =>
        have hle : ((once done rest).map f).sum ≤ (rest.map f).sum :=
          sum_once_le fun entry hentry => (hrest entry hentry).le
        refine iff_of_false (fun heq => ?_) fun h => h.2.1 hdone
        exact absurd (heq ▸ hle) (not_le.mpr (lt_add_of_pos_left _ hfirst))
      next hnot =>
        rw [List.map_cons, List.sum_cons, add_right_inj, ih hrest, List.mem_map]
        constructor
        · rintro ⟨hnodup, hlater⟩
          refine ⟨⟨fun hagain => ?_, hnodup⟩, hnot, fun entry hentry hdone => ?_⟩
          · obtain ⟨entry, hentry, heq⟩ := hagain
            exact hlater entry hentry (heq ▸ List.mem_cons_self)
          · exact hlater entry hentry (List.mem_cons_of_mem _ hdone)
        · rintro ⟨⟨hnew, hnodup⟩, -, hlater⟩
          refine ⟨hnodup, fun entry hentry hmem => ?_⟩
          obtain heq | hdone := List.mem_cons.mp hmem
          · exact hnew ⟨entry, hentry, heq⟩
          · exact hlater entry hentry hdone

/-- Where names are not shared, the sum over what is made once is the sum over a set. -/
theorem sum_once_eq {M : Type} [AddCommMonoid M] [DecidableEq (Named I K V)]
    (hunique : ∀ entry ∈ entries, ∀ other ∈ entries, entry.1 = other.1 → entry = other)
    (f : Named I K V → M) :
    ((once [] entries).map f).sum = ∑ entry ∈ entries.toFinset, f entry := by
  have hset : (once [] entries).toFinset = entries.toFinset := by
    ext entry
    rw [List.mem_toFinset, List.mem_toFinset]
    refine ⟨fun h => (mem_of_mem_once h).1, fun h => ?_⟩
    obtain ⟨other, hother, heq⟩ := exists_mem_once h List.not_mem_nil
    exact hunique other (mem_of_mem_once hother).1 entry h heq ▸ hother
  rw [← hset, List.sum_toFinset _ (List.Nodup.of_map _ (nodup_once entries))]

end Once

/-- Values that are taken twice do not count twice if they count nothing. -/
theorem sum_toFinset_map {A B M : Type} [DecidableEq B] [AddCommMonoid M] {g : A → B} {f : B → M}
    {xs : List A} (h : xs.Pairwise fun a b => g a = g b → f (g b) = 0) :
    ∑ y ∈ (xs.map g).toFinset, f y = (xs.map fun x => f (g x)).sum := by
  induction xs with
  | nil => rfl
  | cons x xs ih =>
      obtain ⟨hx, hxs⟩ := List.pairwise_cons.mp h
      rw [List.map_cons, List.toFinset_cons, List.map_cons, List.sum_cons, ← ih hxs]
      by_cases hmem : g x ∈ xs.map g
      · obtain ⟨y, hy, heq⟩ := List.mem_map.mp hmem
        have hzero : f (g x) = 0 := heq ▸ hx y hy heq.symm
        rw [Finset.insert_eq_of_mem (List.mem_toFinset.mpr hmem), hzero, zero_add]
      · rw [Finset.sum_insert (mt List.mem_toFinset.mp hmem)]

section Run

variable {I K V M : Type} {base ledger : FinMap K V} {key : K} {value : V}
  {payments : List (Payment K V)} {entries : List (Named I K V)} {nameOf : K → I}

/-- The keys that payments under distinct names create. -/
theorem fresh_of_wellNamed (hnamed : WellNamed nameOf base {entry | entry ∈ entries})
    (hdistinct : (entries.map Prod.fst).Nodup) : Fresh (entries.map Prod.snd) base := by
  have hcreated : (created (entries.map Prod.snd)).map Prod.fst =
      entries.flatMap fun entry => entry.2.outputs.map Prod.fst := by
    rw [created, List.flatMap_map, List.map_flatMap]
  constructor
  · rw [hcreated, List.nodup_flatMap]
    refine ⟨fun entry hentry => hnamed.distinct entry hentry, ?_⟩
    refine (List.pairwise_map.mp hdistinct).imp_of_mem fun {entry other} hentry hother hne => ?_
    intro key hkey hkey'
    exact hne ((hnamed.placed entry hentry key hkey).symm.trans (hnamed.placed other hother key hkey'))
  · intro key hkey hbase
    rw [hcreated] at hkey
    obtain ⟨entry, hentry, hkey⟩ := List.mem_flatMap.mp hkey
    exact hnamed.apart entry hentry key hbase (hnamed.placed entry hentry key hkey)

theorem nodup_spent (hnodup : ∀ entry ∈ entries, entry.2.inputs.Nodup)
    (hfree : NoDoubleSpend {entry | entry ∈ entries}) (hdistinct : (entries.map Prod.fst).Nodup) :
    (spent (entries.map Prod.snd)).Nodup := by
  rw [spent, List.flatMap_map, List.nodup_flatMap]
  refine ⟨hnodup, ?_⟩
  refine (List.pairwise_map.mp hdistinct).imp_of_mem fun {entry other} hentry hother hne => ?_
  intro key hkey hkey'
  exact hne (congrArg Prod.fst (hfree entry hentry other hother key hkey hkey'))

variable [DecidableEq K]

theorem lookup_eq_some_iff {outputs : List (K × V)} (hdistinct : (outputs.map Prod.fst).Nodup) :
    outputs.lookup key = some value ↔ (key, value) ∈ outputs := by
  induction outputs with
  | nil => simp
  | cons entry rest ih =>
      obtain ⟨first, output⟩ := entry
      obtain ⟨hnot, hrest⟩ := List.nodup_cons.mp hdistinct
      rw [List.lookup_cons, List.mem_cons, Prod.mk.injEq, ← ih hrest]
      by_cases heq : key = first
      · subst heq
        have hnone : rest.lookup key = none := lookup_of_notMem hnot
        simp [hnone, eq_comm]
      · simp [beq_false_of_ne heq, heq]

/-- Payments to fresh keys that spend nothing twice, and only what was there or was created
before, can be made. -/
theorem exists_run (hfresh : Fresh payments base) (honce : (spent payments).Nodup)
    (hbacked : ∀ before payment after, payments = before ++ payment :: after →
      ∀ key ∈ payment.inputs, key ∈ base.keys ∨ key ∈ (created before).map Prod.fst) :
    ∃ ledger, run payments base = some ledger := by
  rw [← Option.ne_none_iff_exists']
  intro hnone
  obtain ⟨before, payment, after, view, rfl, hrun, hbad⟩ := run_eq_none_iff.mp hnone
  have hspent : spent (before ++ payment :: after) =
      spent before ++ (payment.inputs ++ spent after) := by
    rw [spent, List.flatMap_append, List.flatMap_cons, spent, spent]
  rw [hspent] at honce
  obtain ⟨-, hlater, happart⟩ := List.nodup_append.mp honce
  obtain htwice | ⟨key, hkey, hmissing⟩ := hbad
  · exact htwice (List.nodup_append.mp hlater).1
  · have hbefore : Fresh before base := by
      have hcreated : created (before ++ payment :: after) = created before ++
          created (payment :: after) := by
        rw [created, List.flatMap_append, created, created]
      obtain ⟨hdistinct, hunused⟩ := hfresh
      rw [hcreated, List.map_append] at hdistinct hunused
      exact ⟨(List.nodup_append.mp hdistinct).1, fun key hkey =>
        hunused key (List.mem_append_left _ hkey)⟩
    obtain ⟨-, hlookup, -⟩ := run_spec (w := fun _ _ => (0 : ℤ)) hrun hbefore
    have hnot : key ∉ spent before := fun hmem =>
      happart key hmem key (List.mem_append_left _ hkey) rfl
    rw [FinMap.notMem_keys_iff, hlookup, if_neg hnot, Option.or_eq_none_iff] at hmissing
    obtain hbase | hcreated := hbacked before payment after rfl key hkey
    · exact FinMap.notMem_keys_iff.mpr hmissing.2 hbase
    · obtain ⟨⟨_, value⟩, hmem, rfl⟩ := List.mem_map.mp hcreated
      rw [(lookup_eq_some_iff hbefore.distinct).mpr hmem] at hmissing
      cases hmissing.1

/-- **Named payments that are backed can be made in their order**, each once, and what is left
is what they show. -/
theorem exists_run_once [DecidableEq I] (hnamed : WellNamed nameOf base {entry | entry ∈ entries})
    (hnodup : ∀ entry ∈ entries, entry.2.inputs.Nodup)
    (hfree : NoDoubleSpend {entry | entry ∈ entries}) (hbacked : Backed base entries) :
    ∃ ledger, run ((once [] entries).map Prod.snd) base = some ledger ∧
      ∀ key value, ledger.lookup key = some value ↔
        Shows base {entry | entry ∈ entries} key value := by
  have hsub : ∀ entry ∈ once [] entries, entry ∈ entries := fun entry hentry =>
    (mem_of_mem_once hentry).1
  have hall : ∀ entry ∈ entries, entry ∈ once [] entries := by
    intro entry hentry
    obtain ⟨other, hother, heq⟩ := exists_mem_once hentry List.not_mem_nil
    exact hnamed.unique other (hsub _ hother) entry hentry heq ▸ hother
  have hiff : ∀ entry, entry ∈ once [] entries ↔ entry ∈ entries := fun entry =>
    ⟨hsub entry, hall entry⟩
  have hfresh := fresh_of_wellNamed (hnamed.mono hsub) (nodup_once entries)
  have honce := nodup_spent (fun entry hentry => hnodup entry (hsub _ hentry)) (hfree.mono hsub)
    (nodup_once entries)
  obtain ⟨ledger, hrun⟩ := exists_run hfresh honce fun before payment after heq key hkey => by
    obtain ⟨first, rest, hmade, rfl, hrest⟩ := List.map_eq_append_iff.mp heq
    obtain ⟨entry, later, rfl, rfl, -⟩ := List.map_eq_cons_iff.mp hrest
    obtain ⟨start, finish, hentries, rfl⟩ := once_eq_append hmade
    obtain hbase | ⟨other, hother, hcreates⟩ := hbacked start entry finish hentries key hkey
    · exact .inl hbase
    · right
      -- the payment that created it is among those that were made, under its own name
      obtain ⟨same, hsame, heq⟩ := exists_mem_once hother List.not_mem_nil
      have hstart : ∀ entry ∈ start, entry ∈ entries := fun entry hentry =>
        hentries ▸ List.mem_append_left _ hentry
      obtain rfl := hnamed.unique same (hstart _ (mem_of_mem_once hsame).1) other
        (hstart _ hother) heq
      obtain ⟨output, houtput, rfl⟩ := List.mem_map.mp hcreates
      refine List.mem_map.mpr ⟨output, ?_, rfl⟩
      exact List.mem_flatMap.mpr ⟨same.2, List.mem_map.mpr ⟨same, hsame, rfl⟩, houtput⟩
  refine ⟨ledger, hrun, fun key value => ?_⟩
  obtain ⟨-, hlookup, -⟩ := run_spec (w := fun _ _ => (0 : ℤ)) hrun hfresh
  have hspent : key ∈ spent ((once [] entries).map Prod.snd) ↔
      ∃ entry ∈ entries, key ∈ entry.2.inputs := by
    rw [spent, List.flatMap_map, List.mem_flatMap]
    exact exists_congr fun entry => and_congr_left fun _ => hiff entry
  have hcreated : (key, value) ∈ created ((once [] entries).map Prod.snd) ↔
      ∃ entry ∈ entries, (key, value) ∈ entry.2.outputs := by
    rw [created, List.flatMap_map, List.mem_flatMap]
    exact exists_congr fun entry => and_congr_left fun _ => hiff entry
  rw [hlookup, Shows]
  by_cases hkey : ∃ entry ∈ entries, key ∈ entry.2.inputs
  · rw [if_pos (hspent.mpr hkey)]
    obtain ⟨entry, hentry, hinput⟩ := hkey
    refine iff_of_false (fun h => by cases h) fun h => h.2 entry hentry hinput
  · rw [if_neg (mt hspent.mp hkey), Option.or_eq_some_iff, lookup_eq_some_iff hfresh.distinct,
      hcreated]
    have hunspent : ∀ entry ∈ entries, key ∉ entry.2.inputs := fun entry hentry hinput =>
      hkey ⟨entry, hentry, hinput⟩
    refine ⟨fun h => ⟨?_, hunspent⟩, fun h => ?_⟩
    · exact h.elim .inr fun hbase => .inl hbase.2
    · obtain hbase | hmade := h.1
      · refine .inr ⟨?_, hbase⟩
        refine lookup_of_notMem fun hmem => ?_
        exact hfresh.unused key hmem (FinMap.mem_keys_of_lookup hbase)
      · exact .inl hmade

/-- Fees by the values of the outputs: what an output is worth does not depend on the ledger
that it is spent from. -/
theorem fees_eq_sum [AddCommGroup M] {w : K → V → M} {valueOf : K → M} (hrun : run payments base = some ledger)
    (hfresh : Fresh payments base)
    (hbase : ∀ key value, base.lookup key = some value → valueOf key = w key value)
    (hcreated : ∀ output ∈ created payments, valueOf output.1 = w output.1 output.2) :
    fees w payments base = (payments.map fun payment => (payment.inputs.map valueOf).sum -
      (payment.outputs.map fun output => w output.1 output.2).sum).sum := by
  induction payments generalizing base with
  | nil => rfl
  | cons payment rest ih =>
      obtain ⟨view, hpay, hrun⟩ := Option.bind_eq_some_iff.mp hrun
      obtain ⟨hfirst, -, -, hunused, -⟩ := fresh_cons_iff.mp hfresh
      obtain ⟨-, hmem, hview, -⟩ := pay_spec (w := w) hpay hfirst hunused
      have hinputs : payment.inputs.map (weightAt w base) = payment.inputs.map valueOf := by
        refine List.map_congr_left fun key hkey => ?_
        obtain ⟨value, hvalue⟩ := FinMap.mem_keys_iff.mp (hmem key hkey)
        rw [weightAt, hvalue, hbase key value hvalue]
        rfl
      rw [fees, hpay, List.map_cons, List.sum_cons, Option.elim_some, fee, hinputs,
        ih hrun (hfresh.after_pay hpay) (fun key value hvalue => ?_) fun output houtput =>
          hcreated output (List.mem_append_right _ houtput)]
      rw [hview, Option.or_eq_some_iff] at hvalue
      obtain houtput | ⟨-, hold⟩ := hvalue
      · exact hcreated (key, value)
          (List.mem_append_left _ ((lookup_eq_some_iff hfirst).mp houtput))
      · split at hold
        next => cases hold
        next => exact hbase key value hold

end Run

end Ledger
