import Mathlib.Algebra.BigOperators.Ring.List
import Mathlib.Tactic.Ring

/-!
# Arrays of hashes and addresses

`structures/arrayOf.js` keeps elements of a fixed number of bytes and joins them without
boundaries, so that only elements of exactly that many bytes come apart again. What the
constructor checks is the remainder of `length`, which counts the bytes of a buffer and
the characters of a string.
-/

namespace CilCore

/-! ### Hexadecimal strings -/

/-- The value of a hexadecimal digit of either case. -/
def hexValue (c : Char) : Option Nat :=
  if '0' ≤ c ∧ c ≤ '9' then some (c.toNat - 48)
  else if 'a' ≤ c ∧ c ≤ 'f' then some (c.toNat - 87)
  else if 'A' ≤ c ∧ c ≤ 'F' then some (c.toNat - 55)
  else none

/-- `Buffer.from(str, 'hex')`: pairs of digits are read up to the first that is none. -/
def bytesFromHex : List Char → List UInt8
  | high :: low :: rest =>
      match hexValue high, hexValue low with
      | some h, some l => UInt8.ofNat (16 * h + l) :: bytesFromHex rest
      | _, _ => []
  | _ => []

/-- The two digits of a byte. -/
def byteDigits (byte : UInt8) : List Char :=
  [Nat.digitChar (byte.toNat / 16), Nat.digitChar (byte.toNat % 16)]

/-- `buffer.toString('hex')`. -/
def hexFromBytes (bytes : List UInt8) : String := String.ofList (bytes.flatMap byteDigits)

/-- `length` of a string, in units of UTF-16. -/
def utf16Length (str : String) : Nat :=
  (str.toList.map fun c => if c.toNat < 65536 then 1 else 2).sum

/-- The digits that `Buffer.from` reads. -/
def leadingDigits (cs : List Char) : List Char := cs.takeWhile fun c => (hexValue c).isSome

theorem hexValue_digitChar {d : Nat} (h : d < 16) : hexValue (Nat.digitChar d) = some d := by
  have hall : ∀ d : Fin 16, hexValue (Nat.digitChar d) = some d.val := by decide
  exact hall ⟨d, h⟩

theorem bytesFromHex_flatMap (bytes : List UInt8) :
    bytesFromHex (bytes.flatMap byteDigits) = bytes := by
  induction bytes with
  | nil => rfl
  | cons byte rest ih =>
      have hbyte := byte.toNat_lt
      have hhigh := hexValue_digitChar (show byte.toNat / 16 < 16 by omega)
      have hlow := hexValue_digitChar (show byte.toNat % 16 < 16 by omega)
      have hjoin : 16 * (byte.toNat / 16) + byte.toNat % 16 = byte.toNat := by omega
      rw [List.flatMap_cons, byteDigits, List.cons_append, List.singleton_append, bytesFromHex,
        hhigh, hlow]
      dsimp only
      rw [ih, hjoin, UInt8.ofNat_toNat]

/-- Reading what was written gives the bytes back. -/
theorem bytesFromHex_hexFromBytes (bytes : List UInt8) :
    bytesFromHex (hexFromBytes bytes).toList = bytes := by
  rw [hexFromBytes, String.toList_ofList, bytesFromHex_flatMap]

theorem hexFromBytes_injective : Function.Injective hexFromBytes := by
  intro bytes bytes' h
  rw [← bytesFromHex_hexFromBytes bytes, h, bytesFromHex_hexFromBytes]

/-- Two digits make a byte; an odd last one is dropped. -/
theorem length_bytesFromHex (cs : List Char) :
    (bytesFromHex cs).length = (leadingDigits cs).length / 2 := by
  induction cs using bytesFromHex.induct with
  | case1 high low rest h l hlow hhigh ih =>
      have hdigits : leadingDigits (high :: low :: rest) = high :: low :: leadingDigits rest := by
        simp [leadingDigits, hhigh, hlow]
      rw [bytesFromHex, hhigh, hlow, hdigits]
      simp only [List.length_cons, ih]
      omega
  | case2 high low rest hnot =>
      have hnone : hexValue high = none ∨ hexValue low = none := by
        by_contra hboth
        rw [not_or] at hboth
        obtain ⟨h, hhigh⟩ := Option.ne_none_iff_exists'.mp hboth.1
        obtain ⟨l, hlow⟩ := Option.ne_none_iff_exists'.mp hboth.2
        exact hnot h l hhigh hlow
      have hbytes : bytesFromHex (high :: low :: rest) = [] := by
        rw [bytesFromHex]
        rcases hnone with hnone | hnone
        · rw [hnone]
        · rw [hnone]
          cases hexValue high <;> rfl
      have hdigits : (leadingDigits (high :: low :: rest)).length ≤ 1 := by
        rw [leadingDigits, List.takeWhile_cons]
        split
        next hhigh =>
          have hlow : hexValue low = none := hnone.resolve_left fun h => by simp [h] at hhigh
          simp [hlow]
        next => simp
      rw [hbytes, List.length_nil]
      omega
  | case3 cs hshort =>
      have hlength : (leadingDigits cs).length ≤ 1 := by
        refine (List.takeWhile_sublist _).length_le.trans ?_
        cases cs with
        | nil => simp
        | cons high rest =>
            cases rest with
            | nil => simp
            | cons low rest => exact absurd rfl (hshort high low rest)
      have hbytes : bytesFromHex cs = [] := by
        rw [bytesFromHex]
        exact hshort
      rw [hbytes, List.length_nil]
      omega

/-- A byte has two characters. -/
theorem utf16Length_hexFromBytes (bytes : List UInt8) :
    utf16Length (hexFromBytes bytes) = 2 * bytes.length := by
  rw [utf16Length, hexFromBytes, String.toList_ofList]
  induction bytes with
  | nil => rfl
  | cons byte rest ih =>
      have hdigit : ∀ d : Fin 16, (Nat.digitChar d).toNat < 65536 := by decide
      have hbyte := byte.toNat_lt
      have hhigh := hdigit ⟨byte.toNat / 16, by omega⟩
      have hlow := hdigit ⟨byte.toNat % 16, by omega⟩
      rw [List.flatMap_cons, List.map_append, List.sum_append, ih, byteDigits, List.map_cons,
        List.map_singleton, if_pos hhigh, if_pos hlow, List.length_cons]
      simp only [List.sum_cons, List.sum_nil]
      omega

/-! ### The array -/

/-- One element that the constructor is given. -/
inductive ArrayItem where
  | buffer (bytes : List UInt8)
  | string (str : String)
deriving DecidableEq

namespace ArrayItem

/-- `element.length`. -/
def length : ArrayItem → Nat
  | buffer bytes => bytes.length
  | string str => utf16Length str

/-- `Buffer.isBuffer(e) ? e : Buffer.from(e, 'hex')`. -/
def toBuffer : ArrayItem → List UInt8
  | buffer bytes => bytes
  | string str => bytesFromHex str.toList

/-- The bytes that an element stands for. -/
def byteLength : ArrayItem → Nat
  | buffer bytes => bytes.length
  | string str => (leadingDigits str.toList).length / 2

theorem length_toBuffer (item : ArrayItem) : item.toBuffer.length = item.byteLength := by
  cases item with
  | buffer bytes => rfl
  | string str => exact length_bytesFromHex str.toList

end ArrayItem

/-- What the constructor is given. -/
inductive ArrayOfData where
  | buffer (data : List UInt8)
  | array (data : List ArrayItem)
  | other
deriving DecidableEq

/-- An `ArrayOf`. -/
structure ArrayOf where
  arrOf : List (List UInt8)
deriving DecidableEq

namespace ArrayOf

/-- `_ensureLength`. A remainder of division by zero is no number, and passes. -/
def ensureLength (nEntityLength length : Nat) : Except String Unit :=
  if nEntityLength ≠ 0 ∧ length % nEntityLength ≠ 0 then
    .error s!"Buffer you trying to decode not {nEntityLength} bytes aligned!"
  else .ok ()

/-- The loop over a buffer, for at most so many turns: `none` if it goes on. -/
def slices (nEntityLength : Nat) : Nat → List UInt8 → Option (List (List UInt8))
  | _, [] => some []
  | 0, _ :: _ => none
  | fuel + 1, byte :: rest =>
      (slices nEntityLength fuel ((byte :: rest).drop nEntityLength)).map fun arrOf =>
        (byte :: rest).take nEntityLength :: arrOf

/-- The first element that is refused, if there is one. -/
def ensureLengths (nEntityLength : Nat) : List ArrayItem → Except String Unit
  | [] => .ok ()
  | e :: rest =>
      match ensureLength nEntityLength e.length with
      | .error error => .error error
      | .ok () => ensureLengths nEntityLength rest

/-- The constructor. It is `none` where it never returns. -/
def new (nEntityLength : Nat) : ArrayOfData → Option (Except String ArrayOf)
  | .buffer data =>
      match ensureLength nEntityLength data.length with
      | .error error => some (.error error)
      | .ok () => (slices nEntityLength data.length data).map fun arrOf => .ok ⟨arrOf⟩
  | .array data =>
      match ensureLengths nEntityLength data with
      | .error error => some (.error error)
      | .ok () => some (.ok ⟨data.map (·.toBuffer)⟩)
  | .other => some (.error "Construct Array of (HASHES | ADDRESSES) or decode from buffer")

/-- `getArray`. -/
def getArray (a : ArrayOf) : List String := a.arrOf.map hexFromBytes

/-- `encode`. -/
def encode (a : ArrayOf) : List UInt8 := a.arrOf.flatten

/-! ### Slices -/

section Slices

variable {n fuel : Nat} {data : List UInt8} {arrOf : List (List UInt8)}

/-- With elements of no bytes the loop goes on for any number of turns. -/
theorem slices_zero (hne : data ≠ []) (fuel : Nat) : slices 0 fuel data = none := by
  induction fuel with
  | zero =>
      cases data with
      | nil => exact absurd rfl hne
      | cons byte rest => rfl
  | succ fuel ih =>
      cases data with
      | nil => exact absurd rfl hne
      | cons byte rest =>
          rw [slices, List.drop_zero, ih]
          rfl

/-- What the loop has taken apart is the buffer, in elements of one size. -/
theorem slices_ok (hdvd : n ∣ data.length) (h : slices n fuel data = some arrOf) :
    arrOf.flatten = data ∧ ∀ e ∈ arrOf, 0 < n ∧ e.length = n := by
  induction fuel generalizing data arrOf with
  | zero =>
      cases data with
      | nil =>
          cases h
          simp
      | cons byte rest => cases h
  | succ fuel ih =>
      cases data with
      | nil =>
          cases h
          simp
      | cons byte rest =>
          have hn : 0 < n := by
            apply Nat.pos_of_ne_zero
            rintro rfl
            rw [slices_zero (List.cons_ne_nil _ _)] at h
            cases h
          have hle : n ≤ (byte :: rest).length := Nat.le_of_dvd (by simp) hdvd
          rw [slices] at h
          obtain ⟨later, hlater, rfl⟩ := Option.map_eq_some_iff.mp h
          obtain ⟨hflatten, hlength⟩ := ih (by
            rw [List.length_drop]
            exact Nat.dvd_sub hdvd dvd_rfl) hlater
          refine ⟨?_, ?_⟩
          · rw [List.flatten_cons, hflatten, List.take_append_drop]
          · intro e he
            rcases List.mem_cons.mp he with rfl | he
            · exact ⟨hn, List.length_take_of_le hle⟩
            · exact hlength e he

/-- Elements of one size come apart again. -/
theorem slices_flatten (hwhole : ∀ e ∈ arrOf, 0 < n ∧ e.length = n)
    (hfuel : arrOf.flatten.length ≤ fuel) : slices n fuel arrOf.flatten = some arrOf := by
  induction arrOf generalizing fuel with
  | nil => cases fuel <;> rfl
  | cons e rest ih =>
      obtain ⟨hn, hlength⟩ := hwhole e List.mem_cons_self
      have hrest : ∀ fuel, rest.flatten.length ≤ fuel → slices n fuel rest.flatten = some rest :=
        fun _ => ih fun e' he' => hwhole e' (List.mem_cons_of_mem _ he')
      rw [List.flatten_cons, List.length_append] at hfuel
      cases fuel with
      | zero => omega
      | succ fuel =>
          cases e with
          | nil => exact absurd hlength hn.ne
          | cons byte bytes =>
              have htake : (byte :: (bytes ++ rest.flatten)).take n = byte :: bytes :=
                List.take_left' hlength
              have hdrop : (byte :: (bytes ++ rest.flatten)).drop n = rest.flatten :=
                List.drop_left' hlength
              rw [List.length_cons] at hfuel
              rw [List.flatten_cons, List.cons_append, slices, htake, hdrop,
                hrest fuel (by omega), Option.map_some]

theorem ensureLength_eq_ok {length : Nat} :
    ensureLength n length = .ok () ↔ n = 0 ∨ n ∣ length := by
  rw [ensureLength]
  split
  next h =>
    simp only [reduceCtorEq, false_iff, not_or]
    exact ⟨h.1, fun hdvd => h.2 (Nat.mod_eq_zero_of_dvd hdvd)⟩
  next h =>
    simp only [true_iff]
    by_contra hnot
    rw [not_or] at hnot
    exact h ⟨hnot.1, fun hmod => hnot.2 (Nat.dvd_of_mod_eq_zero hmod)⟩

end Slices

section New

variable {n : Nat} {a : ArrayOf}

/-- What is decoded is the buffer, in elements of the size asked for. -/
theorem new_buffer_ok {data : List UInt8} (h : new n (.buffer data) = some (.ok a)) :
    a.encode = data ∧ ∀ e ∈ a.arrOf, 0 < n ∧ e.length = n := by
  rw [new] at h
  split at h
  next => cases h
  next hlength =>
    obtain ⟨arrOf, hslices, heq⟩ := Option.map_eq_some_iff.mp h
    cases heq
    apply slices_ok ?_ hslices
    rcases ensureLength_eq_ok.mp hlength with rfl | hdvd
    · by_contra hndvd
      have hne : data ≠ [] := by
        rintro rfl
        exact hndvd (dvd_refl 0)
      rw [slices_zero hne] at hslices
      cases hslices
    · exact hdvd

/-- Elements of the size asked for are decoded as they were encoded. -/
theorem new_encode (hwhole : ∀ e ∈ a.arrOf, 0 < n ∧ e.length = n) :
    new n (.buffer a.encode) = some (.ok a) := by
  have hdvd : n ∣ a.encode.length := by
    rw [encode, List.length_flatten]
    apply List.dvd_sum
    intro length hlength
    obtain ⟨e, he, rfl⟩ := List.mem_map.mp hlength
    rw [(hwhole e he).2]
  rw [new, ensureLength_eq_ok.mpr (.inr hdvd)]
  dsimp only
  rw [encode, slices_flatten hwhole le_rfl, Option.map_some]

theorem new_array_ok {data : List ArrayItem} (h : new n (.array data) = some (.ok a)) :
    a.arrOf = data.map (·.toBuffer) := by
  rw [new] at h
  split at h
  next => cases h
  next =>
    cases h
    rfl

/-- What `toString('hex')` has written is read as it was. -/
theorem getArray_injective : Function.Injective getArray := by
  intro a a' h
  cases a
  cases a'
  congr 1
  exact hexFromBytes_injective.list_map h

/-- Only elements of the size asked for come back. -/
theorem whole_of_new_encode {a' : ArrayOf} (hnew : new n (.buffer a.encode) = some (.ok a'))
    (harray : a'.getArray = a.getArray) : ∀ e ∈ a.arrOf, 0 < n ∧ e.length = n := by
  obtain rfl := getArray_injective harray
  exact (new_buffer_ok hnew).2

end New

end ArrayOf

/-! ### Lists of hashes -/

/-- `set arrHashes` of `msgGetBlocks.js`; the lists of block hashes in storage are written so too. -/
def setArrHashes (arrHashes : List ArrayItem) : Option (Except String (List UInt8)) :=
  (ArrayOf.new 32 (.array arrHashes)).map (·.map ArrayOf.encode)

/-- `get arrHashes` of `msgGetBlocks.js`. -/
def getArrHashes (arrHashes : List UInt8) : Option (Except String (List String)) :=
  (ArrayOf.new 32 (.buffer arrHashes)).map (·.map ArrayOf.getArray)

/-- Hashes that are written as strings are all accepted. -/
theorem ArrayOf.ensureLengths_hashes {hashes : List (List UInt8)}
    (hlength : ∀ hash ∈ hashes, hash.length = 32) :
    ensureLengths 32 (hashes.map fun hash => .string (hexFromBytes hash)) = .ok () := by
  induction hashes with
  | nil => rfl
  | cons hash rest ih =>
      have hdigits : ensureLength 32 (ArrayItem.string (hexFromBytes hash)).length = .ok () := by
        rw [ArrayItem.length, utf16Length_hexFromBytes, hlength hash List.mem_cons_self]
        rfl
      rw [List.map_cons, ensureLengths, hdigits]
      exact ih fun hash' hmem => hlength hash' (List.mem_cons_of_mem _ hmem)

/-- The hashes of a list are got as they were set. -/
theorem getArrHashes_setArrHashes (hashes : List (List UInt8))
    (hlength : ∀ hash ∈ hashes, hash.length = 32) :
    ∃ arrHashes,
      setArrHashes (hashes.map fun hash => .string (hexFromBytes hash)) = some (.ok arrHashes) ∧
      getArrHashes arrHashes = some (.ok (hashes.map hexFromBytes)) := by
  refine ⟨hashes.flatten, ?_, ?_⟩
  · rw [setArrHashes, ArrayOf.new, ArrayOf.ensureLengths_hashes hlength]
    simp only [List.map_map, Function.comp_def, ArrayItem.toBuffer, bytesFromHex_hexFromBytes,
      List.map_id']
    rfl
  · have hnew : ArrayOf.new 32 (.buffer hashes.flatten) = some (.ok ⟨hashes⟩) :=
      ArrayOf.new_encode (a := ⟨hashes⟩) fun hash hmem => ⟨by omega, hlength hash hmem⟩
    rw [getArrHashes, hnew]
    rfl

/-! ### Round trips -/

/-- The elements come back from what they were encoded to; a buffer is encoded to itself, and
has one element for every so many bytes. -/
def RoundTrips (n : Nat) (a : ArrayOf) : ArrayOfData → Prop
  | .buffer data => a.encode = data ∧ (∀ e ∈ a.arrOf, e.length = n) ∧
      a.getArray.length * n = data.length
  | _ => ∃ a', ArrayOf.new n (.buffer a.encode) = some (.ok a') ∧ a'.getArray = a.getArray

/-- Every element of an array stands for as many bytes as elements have. -/
def WholeElements (n : Nat) : ArrayOfData → Prop
  | .array data => ∀ item ∈ data, 0 < n ∧ item.byteLength = n
  | _ => True

/-- What the constructor accepts makes the round trip exactly if it is a buffer, or an array
of whole elements. -/
theorem roundTrips_iff (n : Nat) (data : ArrayOfData) (a : ArrayOf)
    (h : ArrayOf.new n data = some (.ok a)) : RoundTrips n a data ↔ WholeElements n data := by
  cases data with
  | buffer data =>
      obtain ⟨hencode, hwhole⟩ := ArrayOf.new_buffer_ok h
      refine ⟨fun _ => trivial, fun _ => ⟨hencode, fun e he => (hwhole e he).2, ?_⟩⟩
      rw [← hencode, ArrayOf.encode, List.length_flatten, ArrayOf.getArray, List.length_map,
        List.map_congr_left fun e he => (hwhole e he).2]
      simp
  | array data =>
      have harr := ArrayOf.new_array_ok h
      have hwhole : (∀ e ∈ a.arrOf, 0 < n ∧ e.length = n) ↔ WholeElements n (.array data) := by
        simp only [harr, List.forall_mem_map, ArrayItem.length_toBuffer]
        rfl
      rw [← hwhole]
      constructor
      · rintro ⟨a', hnew, harray⟩
        exact ArrayOf.whole_of_new_encode hnew harray
      · intro hall
        exact ⟨a, ArrayOf.new_encode hall, rfl⟩
  | other => cases h

/-- Two elements of two bytes: a buffer, and a string with capital letters. -/
def mixedItems : ArrayOfData := .array [.buffer [1, 255], .string "0aFF"]

theorem roundTrips_iff_mixedItems :
    RoundTrips 2 ⟨[[1, 255], [10, 255]]⟩ mixedItems ↔ WholeElements 2 mixedItems :=
  roundTrips_iff 2 mixedItems ⟨[[1, 255], [10, 255]]⟩ (by decide +kernel)

/-- Half a hash, whose digits are as many as a hash has bytes. -/
def halfHash : ArrayOfData := .array [.string "00000000000000000000000000000000"]

/-- Two hashes in one buffer. -/
def joinedHashes : ArrayOfData := .array [.buffer (List.replicate 64 0)]

/-- Half a hash is accepted, and refused when it is decoded; two hashes in one element are
decoded as two elements. -/
theorem not_roundTrips_halfHash :
    (∃ a, ArrayOf.new 32 halfHash = some (.ok a) ∧ ¬ RoundTrips 32 a halfHash) ∧
      ∃ a, ArrayOf.new 32 joinedHashes = some (.ok a) ∧ ¬ RoundTrips 32 a joinedHashes := by
  constructor
  · refine ⟨⟨[List.replicate 16 0]⟩, by decide +kernel, ?_⟩
    rintro ⟨a', hnew, harray⟩
    have hwhole := ArrayOf.whole_of_new_encode hnew harray _ List.mem_cons_self
    rw [List.length_replicate] at hwhole
    omega
  · refine ⟨⟨[List.replicate 64 0]⟩, by decide +kernel, ?_⟩
    rintro ⟨a', hnew, harray⟩
    have hwhole := ArrayOf.whole_of_new_encode hnew harray _ List.mem_cons_self
    rw [List.length_replicate] at hwhole
    omega

end CilCore
