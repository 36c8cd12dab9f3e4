import CilCore.Structures.Proto

/-!
# Concilium definitions

`conciliums/conciliumRr.js` and `conciliums/conciliumPoS.js`: who the members of
a concilium are, how much each of their votes weighs and how much weight a
quorum needs. Shares and weights are exact rationals.
-/

namespace CilCore

/-- `parameters.fees` of a definition; an absent or zero fee falls back to the
constants. -/
structure ConciliumFees where
  feeTxSize : Nat := 0
  feeContractCreation : Nat := 0
  feeContractInvocation : Nat := 0
  feeStorage : Nat := 0
  feeInternalTx : Nat := 0
deriving DecidableEq, Repr

/-- A member of a proof-of-stake concilium. Joining takes a positive deposit. -/
structure PosMember where
  address : Address
  amount : Nat
  amount_pos : 0 < amount := by decide

/-- The inner loop of `GCD`. Each turn makes the sum of both numbers smaller, so
their sum is fuel enough. -/
def gcdLoop : Nat → Nat → Nat → Nat × Nat
  | 0, x, y => (x, y)
  | fuel + 1, x, y =>
      if x = 0 ∨ y = 0 then (x, y)
      else if x > y then gcdLoop fuel (x % y) y
      else gcdLoop fuel x (y % x)

/-- One turn of the outer loop of `GCD`. -/
def gcdStep (x y : Nat) : Nat :=
  let r := gcdLoop (x + y) x y
  r.1 + r.2

/-- `GCD` of `utils.js`. -/
def GCD : List Nat → Nat
  | [] => 0
  | x :: rest => rest.foldl gcdStep x

/-- With fuel enough the loop ends with the divisor on one side. -/
theorem gcdLoop_eq_gcd (fuel x y : Nat) (h : x + y ≤ fuel) :
    (gcdLoop fuel x y).1 + (gcdLoop fuel x y).2 = Nat.gcd x y := by
  induction fuel generalizing x y with
  | zero =>
    have hx : x = 0 := by omega
    have hy : y = 0 := by omega
    simp [gcdLoop, hx, hy]
  | succ fuel ih =>
    rw [gcdLoop]
    split
    next hzero =>
      rcases hzero with hx | hy
      · simp [hx]
      · simp [hy]
    next hne =>
      split
      next hlt =>
        have hmod : x % y < y := Nat.mod_lt _ (by omega)
        rw [ih _ _ (by omega), ← Nat.gcd_rec, Nat.gcd_comm]
      next hle =>
        have hmod : y % x < x := Nat.mod_lt _ (by omega)
        rw [ih _ _ (by omega), Nat.gcd_comm, ← Nat.gcd_rec]

theorem gcdStep_eq_gcd (x y : Nat) : gcdStep x y = Nat.gcd x y :=
  gcdLoop_eq_gcd (x + y) x y le_rfl

/-- What divides every number is what divides their `GCD`. -/
theorem dvd_GCD_iff {arrNumbers : List Nat} (hne : arrNumbers ≠ []) (d : Nat) :
    d ∣ GCD arrNumbers ↔ ∀ x ∈ arrNumbers, d ∣ x := by
  cases arrNumbers with
  | nil => exact absurd rfl hne
  | cons x rest =>
    clear hne
    rw [GCD]
    induction rest generalizing x with
    | nil => simp
    | cons y rest ih =>
      rw [List.foldl_cons, ih, gcdStep_eq_gcd]
      simp only [List.forall_mem_cons, Nat.dvd_gcd_iff, and_assoc]

theorem GCD_dvd {arrNumbers : List Nat} {x : Nat} (hx : x ∈ arrNumbers) : GCD arrNumbers ∣ x :=
  (dvd_GCD_iff (List.ne_nil_of_mem hx) _).mp dvd_rfl x hx

/-- The divisor of positive deposits is positive. -/
theorem GCD_pos {arrNumbers : List Nat} (hne : arrNumbers ≠ [])
    (hpos : ∀ x ∈ arrNumbers, 0 < x) : 0 < GCD arrNumbers := by
  obtain ⟨x, hx⟩ := List.exists_mem_of_ne_nil _ hne
  exact Nat.pos_of_dvd_of_pos (GCD_dvd hx) (hpos x hx)

/-- `ConciliumRr`: every member has one vote. A zero quorum is an unset one. -/
structure ConciliumRr where
  conciliumId : Nat
  addresses : List Address
  quorum : ℚ := 0
  isEnabled : Bool := true
  fees : ConciliumFees := {}

/-- `ConciliumPoS`: votes weigh as much as the share of the deposit. -/
structure ConciliumPoS where
  conciliumId : Nat
  arrMembers : List PosMember
  nSeqLength : Nat := 20
  isEnabled : Bool := true
  fees : ConciliumFees := {}

namespace ConciliumPoS

/-- Sum of all deposits. -/
def totalAmount (c : ConciliumPoS) : Nat := (c.arrMembers.map (·.amount)).sum

/-- `nGcd`: the common divisor of the deposits, or a forced one for large totals. -/
def nGcd (c : ConciliumPoS) : Nat :=
  let nGcd := GCD (c.arrMembers.map (·.amount))
  if c.totalAmount ≥ 1000000000 ∧ nGcd < 1000000 then 1000000
  else if c.totalAmount ≥ 1000000 ∧ nGcd < 1000 then 1000
  else nGcd

/-- `_totalSharesAmount`. -/
def totalSharesAmount (c : ConciliumPoS) : ℚ := c.totalAmount / c.nGcd

/-- `_arrShares`. -/
def arrShares (c : ConciliumPoS) : List ℚ := c.arrMembers.map fun m => m.amount / c.nGcd

/-- `getQuorum`: 50% and one reduced share. -/
def getQuorum (c : ConciliumPoS) : ℚ :=
  if c.arrShares.length = 1 then 1
  else (1 / 2 * c.totalSharesAmount + 1) / c.totalSharesAmount

/-- `getWitnessWeight`: the share of the first member with this address. -/
def getWitnessWeight (c : ConciliumPoS) (strAddress : Address) : Except String ℚ :=
  match c.arrMembers.find? (·.address == strAddress) with
  | none => .error "address not found in concilium"
  | some m => .ok (m.amount / c.nGcd / c.totalSharesAmount)

theorem amount_le_totalAmount {c : ConciliumPoS} {m : PosMember} (hm : m ∈ c.arrMembers) :
    m.amount ≤ c.totalAmount :=
  List.single_le_sum (by simp) _ (List.mem_map.mpr ⟨m, hm, rfl⟩)

theorem nGcd_pos {c : ConciliumPoS} (hne : c.arrMembers ≠ []) : 0 < c.nGcd := by
  have hgcd : 0 < GCD (c.arrMembers.map (·.amount)) := by
    refine GCD_pos (by simpa using hne) ?_
    intro x hx
    obtain ⟨m, -, rfl⟩ := List.mem_map.mp hx
    exact m.amount_pos
  unfold nGcd
  dsimp only
  split
  next => omega
  next =>
    split
    next => omega
    next => exact hgcd

theorem totalAmount_pos {c : ConciliumPoS} (hne : c.arrMembers ≠ []) : 0 < c.totalAmount := by
  obtain ⟨m, hm⟩ := List.exists_mem_of_ne_nil _ hne
  exact lt_of_lt_of_le m.amount_pos (amount_le_totalAmount hm)

theorem sum_arrShares (c : ConciliumPoS) : c.arrShares.sum = c.totalSharesAmount := by
  simp only [arrShares, div_eq_mul_inv]
  rw [List.sum_map_mul_right, totalSharesAmount, totalAmount, Nat.cast_list_sum, List.map_map,
    div_eq_mul_inv]
  rfl

/-- A concilium with members has shares. -/
theorem totalSharesAmount_pos {c : ConciliumPoS} (hne : c.arrMembers ≠ []) :
    0 < c.totalSharesAmount :=
  div_pos (Nat.cast_pos.mpr (totalAmount_pos hne)) (Nat.cast_pos.mpr (nGcd_pos hne))

end ConciliumPoS

/-- A concilium of either type. -/
inductive ConciliumDefinition where
  | rr (c : ConciliumRr)
  | pos (c : ConciliumPoS)

namespace ConciliumDefinition

/-- `getConciliumId`. -/
def getConciliumId : ConciliumDefinition → Nat
  | rr c => c.conciliumId
  | pos c => c.conciliumId

/-- `parameters.fees`. -/
def fees : ConciliumDefinition → ConciliumFees
  | rr c => c.fees
  | pos c => c.fees

/-- `getAddresses`. -/
def getAddresses : ConciliumDefinition → List Address
  | rr c => c.addresses
  | pos c => c.arrMembers.map (·.address)

/-- `getMembersCount`. -/
def getMembersCount : ConciliumDefinition → Nat
  | rr c => c.addresses.length
  | pos c => c.arrMembers.length

/-- `isEnabled`: nobody switched the concilium off, and it has members. -/
def isEnabled : ConciliumDefinition → Bool
  | rr c => c.isEnabled && !c.addresses.isEmpty
  | pos c => c.isEnabled && !c.arrMembers.isEmpty

/-- `getQuorum`. -/
def getQuorum : ConciliumDefinition → ℚ
  | rr c => if c.quorum ≠ 0 then c.quorum else (c.addresses.length / 2 + 1 : Nat)
  | pos c => c.getQuorum

/-- `getWitnessWeight`. -/
def getWitnessWeight : ConciliumDefinition → Address → Except String ℚ
  | rr _, _ => .ok 1
  | pos c, strAddress => c.getWitnessWeight strAddress

/-- The number of rounds between two reseedings (`_nSeqLength`). -/
def nSeqLength : ConciliumDefinition → Nat
  | rr c => c.addresses.length
  | pos c => c.nSeqLength

/-- The weight of a member's vote; `getWitnessWeight` throws for nobody else. -/
def weight (c : ConciliumDefinition) (strAddress : Address) : ℚ :=
  match c.getWitnessWeight strAddress with
  | .ok w => w
  | .error _ => 0

theorem length_getAddresses (c : ConciliumDefinition) :
    c.getAddresses.length = c.getMembersCount := by
  cases c with
  | rr c => rfl
  | pos c => simp [getAddresses, getMembersCount]

/-- A member's weight is always found. -/
theorem getWitnessWeight_eq_weight (c : ConciliumDefinition) {strAddress : Address}
    (hmem : strAddress ∈ c.getAddresses) :
    c.getWitnessWeight strAddress = .ok (c.weight strAddress) := by
  cases c with
  | rr c => rfl
  | pos c =>
    obtain ⟨m, hm, haddr⟩ := List.mem_map.mp hmem
    have hfind : (c.arrMembers.find? (·.address == strAddress)).isSome := by
      rw [List.find?_isSome]
      exact ⟨m, hm, by simp [haddr]⟩
    obtain ⟨m', hm'⟩ := Option.isSome_iff_exists.mp hfind
    simp only [weight, getWitnessWeight, ConciliumPoS.getWitnessWeight, hm']

/-- No vote has a negative weight. -/
theorem weight_nonneg (c : ConciliumDefinition) (strAddress : Address) :
    0 ≤ c.weight strAddress := by
  cases c with
  | rr c => exact zero_le_one
  | pos c =>
    simp only [weight, getWitnessWeight, ConciliumPoS.getWitnessWeight]
    cases c.arrMembers.find? (·.address == strAddress) with
    | none => exact le_rfl
    | some m =>
      change 0 ≤ (m.amount : ℚ) / c.nGcd / c.totalSharesAmount
      unfold ConciliumPoS.totalSharesAmount
      positivity

/-- Every member's vote counts. -/
theorem weight_pos (c : ConciliumDefinition) {strAddress : Address}
    (hmem : strAddress ∈ c.getAddresses) : 0 < c.weight strAddress := by
  cases c with
  | rr c => exact zero_lt_one
  | pos c =>
    have hok := getWitnessWeight_eq_weight (pos c) hmem
    simp only [getWitnessWeight, ConciliumPoS.getWitnessWeight] at hok
    cases hfind : c.arrMembers.find? (·.address == strAddress) with
    | none =>
      rw [hfind] at hok
      cases hok
    | some m =>
      rw [hfind] at hok
      injection hok with hok
      have hne : c.arrMembers ≠ [] := List.ne_nil_of_mem (List.mem_of_find?_eq_some hfind)
      rw [← hok]
      exact div_pos (div_pos (Nat.cast_pos.mpr m.amount_pos)
        (Nat.cast_pos.mpr (ConciliumPoS.nGcd_pos hne))) (ConciliumPoS.totalSharesAmount_pos hne)

/-- A concilium with members has a quorum to reach. -/
theorem getQuorum_ne_zero (c : ConciliumDefinition) (hne : c.getAddresses ≠ []) :
    c.getQuorum ≠ 0 := by
  cases c with
  | rr c =>
    simp only [getQuorum]
    split
    next h => exact h
    next => positivity
  | pos c =>
    have hmembers : c.arrMembers ≠ [] := by simpa [getAddresses] using hne
    have hshares := ConciliumPoS.totalSharesAmount_pos hmembers
    simp only [getQuorum, ConciliumPoS.getQuorum]
    split
    next => exact one_ne_zero
    next => positivity

end ConciliumDefinition

end CilCore
