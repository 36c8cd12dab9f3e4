import Mathlib.Algebra.Order.Ring.Nat
import Mathlib.Data.List.Basic

/-!
# Base-128 varints

A varint writes a number seven bits to a byte, the least significant group
first; every byte but the last carries the continuation bit. A reader needs no
length: a complete varint is read to its end whatever follows it, and a proper
prefix of one is never complete.
-/

namespace CilCore.Lib.Varint

/-- The number that the groups of a varint stand for. -/
def value : List UInt8 → Nat
  | [] => 0
  | byte :: bytes => byte.toNat % 128 + 128 * value bytes

/-- Every byte says that another one follows. -/
def Continues (bytes : List UInt8) : Prop := ∀ byte ∈ bytes, 128 ≤ byte.toNat

/-- Continuation bytes, and then one byte without the continuation bit. -/
inductive Complete : List UInt8 → Prop where
  | last {byte : UInt8} (h : byte.toNat < 128) : Complete [byte]
  | more {byte : UInt8} {bytes : List UInt8} (h : 128 ≤ byte.toNat) (hbytes : Complete bytes) :
      Complete (byte :: bytes)

/-- The varint of `n`. -/
def encode (n : Nat) : List UInt8 :=
  if n < 128 then [UInt8.ofNat n] else UInt8.ofNat (n % 128 + 128) :: encode (n / 128)

/-- The value and the size of the varint at the start of a buffer; nothing when
the buffer ends inside it. -/
def decode : List UInt8 → Option (Nat × Nat)
  | [] => none
  | byte :: bytes =>
      if byte.toNat < 128 then some (byte.toNat, 1)
      else (decode bytes).map fun read => (byte.toNat % 128 + 128 * read.1, read.2 + 1)

variable {bytes : List UInt8} {n : Nat}

/-! ### Encoding -/

theorem complete_encode (n : Nat) : Complete (encode n) := by
  induction n using encode.induct with
  | case1 n hlast =>
      rw [encode, if_pos hlast]
      exact .last (by simp; omega)
  | case2 n hmore ih =>
      rw [encode, if_neg hmore]
      exact .more (by simp; omega) ih

@[simp] theorem value_encode (n : Nat) : value (encode n) = n := by
  induction n using encode.induct with
  | case1 n hlast =>
      rw [encode, if_pos hlast]
      simp only [value, UInt8.toNat_ofNat']
      omega
  | case2 n hmore ih =>
      rw [encode, if_neg hmore]
      simp only [value, ih, UInt8.toNat_ofNat']
      omega

theorem length_encode_le {k : Nat} (h : n < 128 ^ (k + 1)) : (encode n).length ≤ k + 1 := by
  induction k generalizing n with
  | zero =>
      rw [encode, if_pos (by simpa using h)]
      exact Nat.le_refl 1
  | succ k ih =>
      rw [encode]
      split
      next => simp
      next =>
        have hquotient : n / 128 < 128 ^ (k + 1) := by
          rw [Nat.div_lt_iff_lt_mul (by omega), ← Nat.pow_succ]
          exact h
        have hlength := ih hquotient
        simp only [List.length_cons]
        omega

/-! ### Completeness -/

theorem Complete.ne_nil (h : Complete bytes) : bytes ≠ [] := by
  cases h <;> exact List.cons_ne_nil _ _

theorem Complete.length_pos (h : Complete bytes) : 0 < bytes.length :=
  List.length_pos_iff.mpr h.ne_nil

/-- A proper prefix of a varint says at every byte that more follows. -/
theorem Complete.continues_take (h : Complete bytes) (hn : n < bytes.length) :
    Continues (bytes.take n) := by
  induction h generalizing n with
  | last _ =>
      have hzero : n = 0 := by simpa using hn
      simp [hzero, Continues]
  | more hbyte _ ih =>
      cases n with
      | zero => simp [Continues]
      | succ n =>
          intro byte hmem
          rw [List.take_succ_cons] at hmem
          rcases List.mem_cons.mp hmem with rfl | hmem
          · exact hbyte
          · exact ih (by simpa using hn) byte hmem

/-! ### Decoding -/

theorem decode_append (h : Complete bytes) (rest : List UInt8) :
    decode (bytes ++ rest) = some (value bytes, bytes.length) := by
  induction h with
  | last hlast =>
      simp only [List.singleton_append, decode, if_pos hlast, value, List.length_singleton]
      rw [Nat.mod_eq_of_lt hlast, Nat.mul_zero, Nat.add_zero]
  | more hbyte _ ih =>
      rw [List.cons_append, decode, if_neg (by omega), ih]
      rfl

theorem decode_of_continues (h : Continues bytes) : decode bytes = none := by
  induction bytes with
  | nil => rfl
  | cons byte bytes ih =>
      have hbyte := h byte (List.mem_cons_self ..)
      rw [decode, if_neg (by omega), ih fun b hb => h b (List.mem_cons_of_mem _ hb)]
      rfl

theorem size_of_decode {size : Nat} (h : decode bytes = some (n, size)) :
    0 < size ∧ size ≤ bytes.length := by
  induction bytes generalizing n size with
  | nil => cases h
  | cons byte bytes ih =>
      rw [decode] at h
      split at h
      next =>
        cases h
        simp
      next =>
        obtain ⟨read, hread, heq⟩ := Option.map_eq_some_iff.mp h
        have hbounds := ih hread
        cases heq
        simp only [List.length_cons]
        omega

end CilCore.Lib.Varint
