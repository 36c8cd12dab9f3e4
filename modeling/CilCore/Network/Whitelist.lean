import Mathlib.Data.BitVec
import Mathlib.Tactic.Push

/-!
# The whitelist of the peer manager

`_prepareWhitelisted` of `network/peerManager.js` translates each entry to an IPv6 address
and a prefix length, and `isWhitelisted` matches the address of a peer with them. For an
IPv6 entry the address itself is stored in place of the prefix length.
-/

namespace CilCore

/-- An address as `ipaddr.js` parses it. -/
inductive IpAddr where
  | ipv4 (bits : BitVec 32)
  | ipv6 (bits : BitVec 128)
deriving DecidableEq

namespace IpAddr

def toIPv4MappedAddress (bits : BitVec 32) : BitVec 128 := 0xffff#96 ++ bits

/-- The address as IPv6 address. -/
def toIpV6 : IpAddr → BitVec 128
  | ipv4 bits => toIPv4MappedAddress bits
  | ipv6 bits => bits

/-- Length of an address in bits. -/
def width : IpAddr → Nat
  | ipv4 _ => 32
  | ipv6 _ => 128

end IpAddr

/-- An entry of the whitelist: an address, or a network in CIDR form. -/
inductive WhitelistEntry where
  | address (ipAddr : IpAddr)
  | net (ipAddr : IpAddr) (bitLength : Nat) (h : bitLength ≤ ipAddr.width)

/-- What is stored as prefix length. -/
inductive PrefixLength where
  | number (bits : Nat)
  | ipAddr (bits : BitVec 128)

namespace Whitelist

/-- The address and the prefix length of an entry. -/
def parse : WhitelistEntry → IpAddr × Nat
  | .address ipAddr => (ipAddr, 32)
  | .net ipAddr bitLength _ => (ipAddr, bitLength)

/-- `_prepareWhitelisted`, for one entry. -/
def prepare (entry : WhitelistEntry) : BitVec 128 × PrefixLength :=
  let (ipAddr, bitLength) := parse entry
  match ipAddr with
  | .ipv4 bits => (IpAddr.toIPv4MappedAddress bits, .number (128 - (32 - bitLength)))
  | .ipv6 bits => (bits, .ipAddr bits)

/-- `_prepareWhitelisted`. -/
def prepareWhitelisted (arrWhitelisted : List WhitelistEntry) :
    List (BitVec 128 × PrefixLength) :=
  arrWhitelisted.map prepare

/-- The first bits of two addresses are the same. -/
def SamePrefix {w : Nat} (n : Nat) (a b : BitVec w) : Prop := a >>> (w - n) = b >>> (w - n)

instance {w n : Nat} (a b : BitVec w) : Decidable (SamePrefix n a b) :=
  inferInstanceAs (Decidable (_ = _))

variable (matchObject : BitVec 128 → BitVec 128 → BitVec 128 → Bool)

/-- `match` of `ipaddr.js`. What it does where the prefix length is no number is a parameter. -/
def matchNet (ipAddr : BitVec 128) : BitVec 128 × PrefixLength → Bool
  | (net, .number bits) => decide (SamePrefix bits ipAddr net)
  | (net, .ipAddr bits) => matchObject ipAddr net bits

/-- `isWhitelisted`. -/
def isWhitelisted (arrWhitelistedNets : List (BitVec 128 × PrefixLength)) (ipAddr : IpAddr) :
    Bool :=
  if arrWhitelistedNets.length = 0 then false
  else (arrWhitelistedNets.find? (matchNet matchObject ipAddr.toIpV6)).isSome

/-- An address equals the address of an entry or lies in its network. An IPv4 address is
the same as its mapped address. -/
def Lists : WhitelistEntry → IpAddr → Prop
  | .address listed, ipAddr => ipAddr.toIpV6 = listed.toIpV6
  | .net (.ipv4 net) bitLength _, ipAddr =>
      ∃ bits, ipAddr.toIpV6 = IpAddr.toIPv4MappedAddress bits ∧ SamePrefix bitLength bits net
  | .net (.ipv6 net) bitLength _, ipAddr => SamePrefix bitLength ipAddr.toIpV6 net

/-- An address is listed. -/
def Listed (arrWhitelisted : List WhitelistEntry) (ipAddr : IpAddr) : Prop :=
  ∃ entry ∈ arrWhitelisted, Lists entry ipAddr

/-- All entries are IPv4 addresses and networks. -/
def AllIpV4 (arrWhitelisted : List WhitelistEntry) : Prop :=
  ∀ entry ∈ arrWhitelisted, ∃ bits, (parse entry).1 = .ipv4 bits

variable {matchObject}

/-- A prefix of a mapped address that covers what is the same in all of them. -/
theorem samePrefix_toIPv4MappedAddress {n : Nat} (hn : n ≤ 32) (w : BitVec 128)
    (x : BitVec 32) :
    SamePrefix (128 - (32 - n)) w (IpAddr.toIPv4MappedAddress x) ↔
      ∃ y, w = IpAddr.toIPv4MappedAddress y ∧ SamePrefix n y x := by
  have hshift : 128 - (128 - (32 - n)) = 32 - n := by omega
  unfold SamePrefix IpAddr.toIPv4MappedAddress
  rw [hshift]
  constructor
  · intro h
    have hbit (i : Nat) : w.getLsbD (32 - n + i) =
        (0xffff#96 ++ x).getLsbD (32 - n + i) := by
      have hbit := congrArg (·.getLsbD i) h
      simpa using hbit
    refine ⟨w.setWidth 32, ?_, ?_⟩
    · apply BitVec.eq_of_getLsbD_eq
      intro i hi
      rw [BitVec.getLsbD_append]
      split
      next hlow => simp [hlow]
      next hhigh =>
        have hbit := hbit (i - (32 - n))
        rwa [Nat.add_sub_cancel' (by omega), BitVec.getLsbD_append, if_neg hhigh] at hbit
    · apply BitVec.eq_of_getLsbD_eq
      intro i hi
      have hbit := hbit i
      rw [BitVec.getLsbD_append] at hbit
      rw [BitVec.getLsbD_ushiftRight, BitVec.getLsbD_ushiftRight, BitVec.getLsbD_setWidth]
      split at hbit
      next hlow => simp [hlow, hbit]
      next hhigh => rw [BitVec.getLsbD_of_ge x _ (not_lt.mp hhigh), decide_eq_false hhigh,
        Bool.false_and]
  · intro hmapped
    obtain ⟨y, rfl, hy⟩ := hmapped
    apply BitVec.eq_of_getLsbD_eq
    intro i hi
    have hbit := congrArg (·.getLsbD i) hy
    rw [BitVec.getLsbD_ushiftRight, BitVec.getLsbD_ushiftRight, BitVec.getLsbD_append,
      BitVec.getLsbD_append]
    split
    next => simpa using hbit
    next => rfl

/-- An entry of an IPv4 address or network is matched exactly. -/
theorem matchNet_prepare_iff {entry : WhitelistEntry} {bits : BitVec 32}
    (hentry : (parse entry).1 = .ipv4 bits) (ipAddr : IpAddr) :
    matchNet matchObject ipAddr.toIpV6 (prepare entry) = true ↔ Lists entry ipAddr := by
  cases entry with
  | address listed =>
      obtain rfl : listed = .ipv4 bits := hentry
      simp [prepare, parse, matchNet, Lists, SamePrefix, IpAddr.toIpV6]
  | net net bitLength h =>
      obtain rfl : net = .ipv4 bits := hentry
      rw [prepare, parse, matchNet, decide_eq_true_iff, Lists]
      exact samePrefix_toIPv4MappedAddress h _ _

theorem isWhitelisted_iff (arrWhitelisted : List WhitelistEntry) (ipAddr : IpAddr) :
    isWhitelisted matchObject (prepareWhitelisted arrWhitelisted) ipAddr = true ↔
      ∃ entry ∈ arrWhitelisted,
        matchNet matchObject ipAddr.toIpV6 (prepare entry) = true := by
  unfold isWhitelisted prepareWhitelisted
  cases arrWhitelisted with
  | nil => simp
  | cons entry rest => simp

/-- Every address is matched with an IPv6 entry. -/
theorem matchNet_prepare_of_ipv6 (hmatch : ∀ ipAddr net bits, matchObject ipAddr net bits = true)
    {entry : WhitelistEntry} {bits : BitVec 128} (hentry : (parse entry).1 = .ipv6 bits)
    (ipAddr : IpAddr) : matchNet matchObject ipAddr.toIpV6 (prepare entry) = true := by
  cases entry with
  | address listed =>
      obtain rfl : listed = .ipv6 bits := hentry
      exact hmatch _ _ _
  | net net bitLength h =>
      obtain rfl : net = .ipv6 bits := hentry
      exact hmatch _ _ _

/-- The whitelist is exact for an address just when no entry is an IPv6 address or network,
or the address is listed. The hypothesis says that nothing is compared where the prefix
length is no number. -/
theorem isWhitelisted_exact_iff
    (hmatch : ∀ ipAddr net bits, matchObject ipAddr net bits = true)
    (arrWhitelisted : List WhitelistEntry) (ipAddr : IpAddr) :
    (isWhitelisted matchObject (prepareWhitelisted arrWhitelisted) ipAddr = true ↔
        Listed arrWhitelisted ipAddr) ↔
      AllIpV4 arrWhitelisted ∨ Listed arrWhitelisted ipAddr := by
  rw [isWhitelisted_iff]
  constructor
  · intro hexact
    by_cases hall : AllIpV4 arrWhitelisted
    · exact .inl hall
    · right
      unfold AllIpV4 at hall
      push Not at hall
      obtain ⟨entry, hentry, hnot⟩ := hall
      apply hexact.mp
      refine ⟨entry, hentry, ?_⟩
      cases hkind : (parse entry).1 with
      | ipv4 bits => exact absurd hkind (hnot bits)
      | ipv6 bits => exact matchNet_prepare_of_ipv6 hmatch hkind ipAddr
  · intro hcondition
    obtain hall | hlisted := hcondition
    · apply exists_congr
      intro entry
      refine and_congr_right fun hentry => ?_
      obtain ⟨bits, hkind⟩ := hall entry hentry
      exact matchNet_prepare_iff hkind ipAddr
    · refine iff_of_true ?_ hlisted
      obtain ⟨entry, hentry, hlists⟩ := hlisted
      refine ⟨entry, hentry, ?_⟩
      cases hkind : (parse entry).1 with
      | ipv4 bits => exact (matchNet_prepare_iff hkind ipAddr).mpr hlists
      | ipv6 bits => exact matchNet_prepare_of_ipv6 hmatch hkind ipAddr

/-- 172.16.5.7 lies in the network 172.16.0.0/16. -/
theorem isWhitelisted_exact_iff_ipv4 :
    (isWhitelisted (fun _ _ _ => true)
        (prepareWhitelisted [.net (.ipv4 0xac100000#32) 16 (by decide)])
        (.ipv4 0xac100507#32) = true ↔
        Listed [.net (.ipv4 0xac100000#32) 16 (by decide)] (.ipv4 0xac100507#32)) ↔
      AllIpV4 [.net (.ipv4 0xac100000#32) 16 (by decide)] ∨
        Listed [.net (.ipv4 0xac100000#32) 16 (by decide)] (.ipv4 0xac100507#32) :=
  isWhitelisted_exact_iff (fun _ _ _ => rfl) _ _

/-- With the address ::1 in the whitelist, 1.2.3.4 is whitelisted. -/
theorem not_isWhitelisted_exact_loopback :
    ¬ (isWhitelisted (fun _ _ _ => true) (prepareWhitelisted [.address (.ipv6 1)])
        (.ipv4 0x01020304#32) = true ↔
      Listed [.address (.ipv6 1)] (.ipv4 0x01020304#32)) := by
  intro h
  obtain ⟨entry, hentry, hlists⟩ := h.mp (by decide)
  rw [List.mem_singleton.mp hentry] at hlists
  exact absurd hlists (by unfold Lists; decide)

end Whitelist

end CilCore
