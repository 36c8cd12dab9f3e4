import CilCore.Lib.Varint

/-!
# Assembling messages from chunks

A connection delivers its bytes in chunks whose boundaries say nothing about the
messages, each of which starts with its length as a varint. The assembler keeps
the message it is waiting for between two chunks. Its body is stated apart from
its recursive call, so that non-termination is a property of the calls and not
of the fuel.
-/

namespace CilCore.Network

open Lib

abbrev Buffer := List UInt8

inductive AssemblerError where
  /-- The reader ran past the end of its buffer. -/
  | indexOutOfRange
  /-- `Buffer.alloc` refuses a negative size, and one over the limit. -/
  | invalidSize (size : Int)
  deriving DecidableEq, Repr

/-- What the platform and protobufjs provide: the largest buffer there is, and
`int32()` of a new `BufferReader` with the position it leaves. -/
structure Platform where
  kMaxLength : Nat
  int32 : Buffer → Except AssemblerError (Int × Nat)

/-- What is relied on of protobufjs: `int32` truncates a varint to a signed
32-bit number, and throws when the buffer ends inside the varint. -/
structure Platform.ReadsVarints (P : Platform) : Prop where
  read {bytes : Buffer} (rest : Buffer) : Varint.Complete bytes → bytes.length ≤ 5 →
    P.int32 (bytes ++ rest) = .ok ((Varint.value bytes : Int).bmod (2 ^ 32), bytes.length)
  past {data : Buffer} : Varint.Continues data → data.length < 5 →
    P.int32 data = .error .indexOutOfRange
  pos {data : Buffer} {length : Int} {pos : Nat} : P.int32 data = .ok (length, pos) →
    0 < pos ∧ pos ≤ data.length

/-- `Serializer.readMsgLength`. -/
def readMsgLength (P : Platform) (firstChunk : Buffer) : Except AssemblerError (Int × Nat) := do
  let (length, dataOffset) ← P.int32 firstChunk
  return (length, dataOffset)

/-- `Buffer.alloc`: zeroes. -/
def alloc (P : Platform) (size : Int) : Except AssemblerError Buffer :=
  if 0 ≤ size ∧ size ≤ P.kMaxLength then .ok (.replicate size.toNat 0)
  else .error (.invalidSize size)

/-- `source.copy(target, targetStart, 0, sourceEnd)`. -/
def copy (source target : Buffer) (targetStart sourceEnd : Nat) : Buffer :=
  let copied := (source.take sourceEnd).take (target.length - targetStart)
  target.take targetStart ++ copied ++ target.drop (targetStart + copied.length)

@[simp] theorem length_copy {source target : Buffer} {targetStart sourceEnd : Nat}
    (h : targetStart ≤ target.length) :
    (copy source target targetStart sourceEnd).length = target.length := by
  simp only [copy, List.length_append, List.length_take, List.length_drop]
  omega

/-- A message of which `bytesToGo` bytes are still missing. -/
structure PartialMessage where
  messageBuffer : Buffer
  bytesToGo : Nat
  pos : 0 < bytesToGo
  le : bytesToGo ≤ messageBuffer.length
  deriving DecidableEq

/-- `_messageBuffer` with `_bytesToGo`; undefined between two messages. -/
abbrev MessageAssembler := Option PartialMessage

def MessageAssembler.isDone (assembler : MessageAssembler) : Bool := assembler.isNone

/-- What a call does up to its recursive call, whose messages it appends to its
own. -/
inductive Extraction where
  | returns (arrMessages : Option (List Buffer)) (assembler : MessageAssembler)
  | throws (error : AssemblerError) (assembler : MessageAssembler)
  | recurses (arrMessagesBuffers : List Buffer) (assembler : MessageAssembler)
      (subBuffer : Buffer)

/-- A chunk met between two messages: it starts with the length of one. -/
def startMessage (P : Platform) (data : Buffer) : Extraction :=
  match readMsgLength P data with
  | .error error => .throws error none
  | .ok (length, dataOffset) =>
      match alloc P (length + dataOffset) with
      | .error error => .throws error none
      | .ok allocated =>
          let toCopyBytes := if allocated.length < data.length then allocated.length
            else data.length
          let messageBuffer := copy data allocated 0 toCopyBytes
          if hsame : data.length = messageBuffer.length then .returns (some [messageBuffer]) none
          else if hmore : messageBuffer.length < data.length then
            -- another message, or a part of it, follows
            .recurses [messageBuffer] none (data.drop allocated.length)
          else .returns none (some ⟨messageBuffer, messageBuffer.length - data.length,
            by omega, by omega⟩)

/-- A chunk met while bytes of a message are missing. -/
def continueMessage (current : PartialMessage) (data : Buffer) : Extraction :=
  let toCopyBytes := if current.bytesToGo < data.length then current.bytesToGo else data.length
  let messageBuffer := copy data current.messageBuffer
    (current.messageBuffer.length - current.bytesToGo) toCopyBytes
  if h : toCopyBytes = current.bytesToGo then
    if toCopyBytes = data.length then .returns (some [messageBuffer]) none
    else .recurses [messageBuffer] none (data.drop toCopyBytes)
  else .returns none (some ⟨messageBuffer, current.bytesToGo - toCopyBytes,
    by grind, by rw [length_copy (Nat.sub_le ..)]; exact Nat.le_trans (Nat.sub_le ..) current.le⟩)

def extractBody (P : Platform) : MessageAssembler → Buffer → Extraction
  | none, data => startMessage P data
  | some current, data => continueMessage current data

/-- `extractMessages`, which `fuel` calls deep finds an answer or none yet. -/
def extractMessages (P : Platform) : Nat → MessageAssembler → Buffer →
    Option (Except AssemblerError (Option (List Buffer)) × MessageAssembler)
  | 0, _, _ => none
  | fuel + 1, assembler, data =>
      match extractBody P assembler data with
      | .returns arrMessages after => some (.ok arrMessages, after)
      | .throws error after => some (.error error, after)
      | .recurses arrMessagesBuffers after subBuffer =>
          (extractMessages P fuel after subBuffer).map fun answer =>
            (answer.1.map fun arrRestOfMessages =>
              some (arrMessagesBuffers ++ arrRestOfMessages.getD []), answer.2)

variable {P : Platform} {assembler after : MessageAssembler} {data : Buffer}

/-- Further fuel does not change an answer. -/
theorem extractMessages_mono {fuel more : Nat}
    {answer : Except AssemblerError (Option (List Buffer)) × MessageAssembler}
    (h : extractMessages P fuel assembler data = some answer) (hle : fuel ≤ more) :
    extractMessages P more assembler data = some answer := by
  induction fuel generalizing more assembler data answer with
  | zero => cases h
  | succ fuel ih =>
      obtain ⟨more, rfl⟩ := Nat.exists_eq_succ_of_ne_zero (show more ≠ 0 by omega)
      rw [extractMessages] at h ⊢
      cases hbody : extractBody P assembler data with
      | returns _ _ | throws _ _ =>
          rw [hbody] at h
          exact h
      | recurses arrMessagesBuffers after subBuffer =>
          rw [hbody] at h
          obtain ⟨deeper, hdeeper, hanswer⟩ := Option.map_eq_some_iff.mp h
          exact Option.map_eq_some_iff.mpr
            ⟨deeper, ih hdeeper (Nat.le_of_succ_le_succ hle), hanswer⟩

/-! ### What a call does to its chunk -/

theorem readMsgLength_eq (P : Platform) (data : Buffer) :
    readMsgLength P data = P.int32 data := by
  unfold readMsgLength
  cases P.int32 data <;> rfl

theorem alloc_ok {total : Nat} (h : total ≤ P.kMaxLength) :
    alloc P total = .ok (.replicate total 0) := by
  rw [alloc, if_pos ⟨by omega, by omega⟩]
  rfl

/-- The missing part of a buffer, zeroes so far, receives what the chunk has of it. -/
theorem copy_append_replicate (source sent : Buffer) (missing : Nat) :
    copy source (sent ++ .replicate missing 0) sent.length
        (if missing < source.length then missing else source.length) =
      sent ++ source.take missing ++ .replicate (missing - source.length) 0 := by
  have hcopied : (source.take (if missing < source.length then missing else source.length)).take
      ((sent ++ List.replicate missing (0 : UInt8)).length - sent.length) =
      source.take missing := by
    rw [List.take_take, List.length_append, List.length_replicate, Nat.add_sub_cancel_left]
    split
    next => rw [Nat.min_self]
    next h =>
      rw [List.take_of_length_le (by omega), List.take_of_length_le (Nat.not_lt.mp h)]
  rw [copy, hcopied, List.take_left, List.drop_append, List.drop_of_length_le (by omega),
    Nat.add_sub_cancel_left, List.nil_append, List.drop_replicate, List.length_take]
  congr 2
  omega

theorem copy_replicate (source : Buffer) (total : Nat) :
    copy source (.replicate total 0) 0
        (if total < source.length then total else source.length) =
      source.take total ++ .replicate (total - source.length) 0 :=
  copy_append_replicate source [] total

/-- The bytes of a message so far; zeroes stand for the missing ones. -/
structure PartialMessage.Holds (current : PartialMessage) (sent : Buffer) (missing : Nat) :
    Prop where
  messageBuffer : current.messageBuffer = sent ++ .replicate missing 0
  bytesToGo : current.bytesToGo = missing

theorem startMessage_error {error : AssemblerError} (h : readMsgLength P data = .error error) :
    startMessage P data = .throws error none := by
  rw [startMessage, h]

theorem startMessage_negative {length : Int} {dataOffset : Nat}
    (h : readMsgLength P data = .ok (length, dataOffset))
    (hsize : length + dataOffset < 0 ∨ P.kMaxLength < length + dataOffset) :
    startMessage P data = .throws (.invalidSize (length + dataOffset)) none := by
  rw [startMessage, h]
  simp only [alloc]
  rw [if_neg (by omega)]

section Total

variable {length : Int} {dataOffset total : Nat}
  (h : readMsgLength P data = .ok (length, dataOffset)) (htotal : length + dataOffset = total)
  (hmax : total ≤ P.kMaxLength)
include h htotal hmax

theorem startMessage_same (hlength : data.length = total) :
    startMessage P data = .returns (some [data]) none := by
  unfold startMessage
  rw [h]
  simp only [htotal, alloc_ok hmax, List.length_replicate]
  rw [dif_pos (by simp [hlength]), copy_replicate, hlength, Nat.sub_self, ← hlength,
    List.take_length]
  simp

theorem startMessage_more (hlength : total < data.length) :
    startMessage P data = .recurses [data.take total] none (data.drop total) := by
  unfold startMessage
  rw [h]
  simp only [htotal, alloc_ok hmax, List.length_replicate]
  rw [dif_neg (by simp; omega), dif_pos (by simp; omega), copy_replicate,
    Nat.sub_eq_zero_of_le (Nat.le_of_lt hlength)]
  simp

/-- A message longer than its chunk is kept. -/
theorem startMessage_less (hlength : data.length < total) :
    ∃ current, startMessage P data = .returns none (some current) ∧
      current.Holds data (total - data.length) := by
  unfold startMessage
  rw [h]
  simp only [htotal, alloc_ok hmax, List.length_replicate]
  rw [dif_neg (by simp; omega), dif_neg (by simp; omega)]
  refine ⟨_, rfl, (copy_replicate data total).trans ?_, by simp⟩
  rw [List.take_of_length_le (Nat.le_of_lt hlength)]

end Total

/-- The bytes after the missing ones are left to the recursive call. -/
theorem continueMessage_recurses {current : PartialMessage}
    (hlength : current.bytesToGo < data.length) :
    ∃ messageBuffer, continueMessage current data =
      .recurses [messageBuffer] none (data.drop current.bytesToGo) := by
  have htoCopy : (if current.bytesToGo < data.length then current.bytesToGo else data.length) =
      current.bytesToGo := if_pos hlength
  unfold continueMessage
  rw [dif_pos htoCopy, if_neg (by omega), htoCopy]
  exact ⟨_, rfl⟩

theorem continueMessage_ne_recurses {current : PartialMessage}
    (hlength : data.length ≤ current.bytesToGo) (arrMessagesBuffers : List Buffer)
    (subBuffer : Buffer) :
    continueMessage current data ≠ .recurses arrMessagesBuffers after subBuffer := by
  have htoCopy : (if current.bytesToGo < data.length then current.bytesToGo else data.length) =
      data.length := if_neg (by omega)
  unfold continueMessage
  by_cases hlast : data.length = current.bytesToGo
  · rw [dif_pos (htoCopy.trans hlast), if_pos htoCopy]
    exact Extraction.noConfusion
  · rw [dif_neg fun h => hlast (htoCopy.symm.trans h)]
    exact Extraction.noConfusion

section Current

variable {current : PartialMessage} {sent : Buffer} {missing : Nat}
  (h : current.Holds sent missing)
include h

theorem copy_current (data : Buffer) : copy data current.messageBuffer
    (current.messageBuffer.length - current.bytesToGo)
    (if current.bytesToGo < data.length then current.bytesToGo else data.length) =
      sent ++ data.take missing ++ .replicate (missing - data.length) 0 := by
  have hstart : current.messageBuffer.length - current.bytesToGo = sent.length := by
    simp [h.messageBuffer, h.bytesToGo]
  rw [hstart, h.messageBuffer, h.bytesToGo]
  exact copy_append_replicate data sent missing

theorem continueMessage_same (hlength : data.length = missing) :
    continueMessage current data = .returns (some [sent ++ data]) none := by
  have hcopy := copy_current h data
  unfold continueMessage
  rw [dif_pos (by rw [h.bytesToGo, hlength]; simp), if_pos (by rw [h.bytesToGo, hlength]; simp),
    hcopy, List.take_of_length_le (Nat.le_of_eq hlength), hlength, Nat.sub_self]
  simp

theorem continueMessage_more (hlength : missing < data.length) :
    continueMessage current data =
      .recurses [sent ++ data.take missing] none (data.drop missing) := by
  have hcopy := copy_current h data
  have htoCopy : (if current.bytesToGo < data.length then current.bytesToGo else data.length) =
      missing := by rw [h.bytesToGo, if_pos hlength]
  unfold continueMessage
  rw [dif_pos (by rw [htoCopy, h.bytesToGo]), if_neg (by omega), hcopy, htoCopy,
    Nat.sub_eq_zero_of_le (Nat.le_of_lt hlength)]
  simp

theorem continueMessage_less (hlength : data.length < missing) :
    ∃ next, continueMessage current data = .returns none (some next) ∧
      next.Holds (sent ++ data) (missing - data.length) := by
  have hcopy := copy_current h data
  have htoCopy : (if current.bytesToGo < data.length then current.bytesToGo else data.length) =
      data.length := by rw [h.bytesToGo, if_neg (by omega)]
  unfold continueMessage
  rw [dif_neg (by rw [htoCopy, h.bytesToGo]; omega)]
  refine ⟨_, rfl, hcopy.trans ?_, ?_⟩
  · rw [List.take_of_length_le (Nat.le_of_lt hlength)]
  · dsimp only
    rw [htoCopy, h.bytesToGo]

end Current

end CilCore.Network
