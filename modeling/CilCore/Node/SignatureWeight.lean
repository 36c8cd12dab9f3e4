import CilCore.Node.VerifyBlock

/-!
# What the signatures of a block weigh

`_verifyBlockSignatures` adds up a weight for every signature. A member may have signed a
block more than once, so the sum is that of the signing members and of what their further
signatures add to it.
-/

namespace CilCore

section Lists

variable {α : Type} [DecidableEq α]

/-- The entries that repeat others. -/
def repeated (xs : List α) : List α := xs.diff xs.dedup

theorem dedup_append_repeated (xs : List α) : (xs.dedup ++ repeated xs).Perm xs :=
  List.subperm_append_diff_self_of_count_le fun _ _ =>
    (List.dedup_sublist xs).subperm.count_le _

/-- A sum over a list is one over its members, and over what repeats them. -/
theorem sum_map_eq_add_repeated (w : α → ℚ) (xs : List α) :
    (xs.map w).sum = ∑ x ∈ xs.toFinset, w x + ((repeated xs).map w).sum := by
  have hset : ∑ x ∈ xs.toFinset, w x = (xs.dedup.map w).sum := by
    have hsame : xs.toFinset = xs.dedup.toFinset := by
      ext x
      simp
    rw [hsame]
    exact List.sum_toFinset w (List.nodup_dedup xs)
  rw [hset, ← List.sum_append, ← List.map_append]
  exact ((dedup_append_repeated xs).map w).sum_eq.symm

end Lists

variable {F : Factory} {c : ConciliumDefinition} {hash : Hash}

/-- Who has signed a hash, one entry for each signature that can be recovered. -/
def signers (F : Factory) (hash : Hash) (signatures : List Signature) : List Address :=
  signatures.filterMap fun sig => (F.recoverAddress hash sig).toOption

/-- Every signature is that of a member. -/
def SignedByMembers (F : Factory) (c : ConciliumDefinition) (hash : Hash)
    (signatures : List Signature) : Prop :=
  ∀ sig ∈ signatures, ∃ strAddress ∈ c.getAddresses, F.recoverAddress hash sig = .ok strAddress

/-- What the members weigh together who have signed. -/
def membersWeight (F : Factory) (c : ConciliumDefinition) (hash : Hash)
    (signatures : List Signature) : ℚ :=
  ∑ strAddress ∈ (signers F hash signatures).toFinset, c.weight strAddress

/-- What those signatures weigh whose signer has signed once more. -/
def repeatedWeight (F : Factory) (c : ConciliumDefinition) (hash : Hash)
    (signatures : List Signature) : ℚ :=
  ((repeated (signers F hash signatures)).map c.weight).sum

theorem signers_cons {sig : Signature} {rest : List Signature} {strAddress : Address}
    (h : F.recoverAddress hash sig = .ok strAddress) :
    signers F hash (sig :: rest) = strAddress :: signers F hash rest := by
  simp [signers, h, Except.toOption]

/-- The loop over signatures of members adds up their weights. -/
theorem gatherWeight_of_signedByMembers {signatures : List Signature}
    (h : SignedByMembers F c hash signatures) (acc : ℚ) :
    gatherWeight F c hash signatures acc =
      .ok (acc + ((signers F hash signatures).map c.weight).sum) := by
  induction signatures generalizing acc with
  | nil =>
      have hnone : acc + (([] : List Address).map c.weight).sum = acc := by simp
      exact congrArg Except.ok hnone.symm
  | cons sig rest ih =>
      obtain ⟨strAddress, hmember, hrecover⟩ := h sig List.mem_cons_self
      have hrest := ih (fun s hs => h s (List.mem_cons_of_mem sig hs)) (acc + c.weight strAddress)
      rw [gatherWeight, hrecover, signers_cons hrecover, List.map_cons, List.sum_cons, ← add_assoc]
      simp only [hmember, not_true_eq_false, if_false, c.getWitnessWeight_eq_weight hmember]
      exact hrest

theorem signedByMembers_of_gatherWeight {signatures : List Signature} {acc gatheredWeight : ℚ}
    (h : gatherWeight F c hash signatures acc = .ok gatheredWeight) :
    SignedByMembers F c hash signatures := by
  induction signatures generalizing acc with
  | nil => exact fun _ hsig => absurd hsig List.not_mem_nil
  | cons sig rest ih =>
      rw [gatherWeight] at h
      split at h
      next => cases h
      next strAddress hrecover =>
        split at h
        next => cases h
        next hmember =>
          split at h
          next => cases h
          next =>
            intro s hs
            rcases List.mem_cons.mp hs with rfl | hs
            · exact ⟨strAddress, not_not.mp hmember, hrecover⟩
            · exact ih h s hs

/-- What is checked: all signatures are those of members, and together with the repeated
ones they weigh as much as a quorum. -/
theorem verifyBlockSignatures_eq_ok {block : Block} :
    verifyBlockSignatures F (some c) block = .ok () ↔
      SignedByMembers F c (block.hash F) block.signatures ∧
        c.getQuorum ≤ membersWeight F c (block.hash F) block.signatures +
          repeatedWeight F c (block.hash F) block.signatures := by
  have hsum := sum_map_eq_add_repeated c.weight (signers F (block.hash F) block.signatures)
  constructor
  · intro h
    unfold verifyBlockSignatures at h
    dsimp only at h
    split at h
    next => cases h
    next gatheredWeight hgather =>
      have hmembers := signedByMembers_of_gatherWeight hgather
      rw [gatherWeight_of_signedByMembers hmembers, zero_add, hsum] at hgather
      cases hgather
      exact ⟨hmembers, not_lt.mp (guard_eq_ok.mp h).1⟩
  · rintro ⟨hmembers, hquorum⟩
    unfold verifyBlockSignatures
    dsimp only
    rw [gatherWeight_of_signedByMembers hmembers, zero_add, hsum]
    exact if_neg (not_lt.mpr hquorum)

theorem repeatedWeight_nonneg (F : Factory) (c : ConciliumDefinition) (hash : Hash)
    (signatures : List Signature) : 0 ≤ repeatedWeight F c hash signatures := by
  refine List.sum_nonneg fun w hw => ?_
  obtain ⟨strAddress, -, rfl⟩ := List.mem_map.mp hw
  exact c.weight_nonneg strAddress

section Sample

/-- A concilium of three members, two of whom are a quorum. -/
def threeMembers : ConciliumDefinition := .rr { conciliumId := 0, addresses := [1, 2, 3] }

/-- The coinbase of the block. -/
def onlyTransaction : Transaction := { payload := { conciliumId := 0, ins := [⟨0, 0⟩], outs := [] } }

/-- A block that the first member has signed, twice. -/
def twiceSigned : Block :=
  let block : Block :=
    { header := { parentHashes := [9], merkleRoot := 0, conciliumId := 0, timestamp := 0, height := 1 }
      txns := [onlyTransaction] }
  let sig : Signature := block.hash Factory.sample * 1000 + 1
  block.addWitnessSignatures [sig, sig]

end Sample

end CilCore
