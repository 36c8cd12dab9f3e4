import CilCore.Network.MessageAssembler

/-!
# What the assembler makes of a stream

A remote peer chooses the lengths it sends, and nothing checks them: a length
that cancels its own size describes a message of no bytes, and the call on what
follows it is the same call again. Where no such length is met every recursive
call is made on a shorter remainder.

An honest peer sends messages in their length-delimited encoding. The assembler
returns exactly these, however the stream is cut, as long as no cut falls inside
a length; one that does leaves the reader at the end of its buffer.
-/

namespace CilCore.Network

open Lib

variable {P : Platform} {assembler after : MessageAssembler} {data rest : Buffer}

/-! ### Hostile input -/

/-- The calls that one call leads to, itself included. -/
inductive Calls (P : Platform) : MessageAssembler → Buffer → MessageAssembler → Buffer → Prop where
  | here (assembler : MessageAssembler) (data : Buffer) : Calls P assembler data assembler data
  | deeper {assembler between after : MessageAssembler} {data subBuffer rest : Buffer}
      {arrMessagesBuffers : List Buffer}
      (hbody : extractBody P assembler data = .recurses arrMessagesBuffers between subBuffer)
      (hcalls : Calls P between subBuffer after rest) : Calls P assembler data after rest

/-- A call comes to an end, each recursive call on a strictly shorter remainder. -/
structure Terminates (P : Platform) (assembler : MessageAssembler) (data : Buffer) : Prop where
  answers : ∃ fuel, (extractMessages P fuel assembler data).isSome
  shorter {between after : MessageAssembler} {rest subBuffer : Buffer}
    {arrMessagesBuffers : List Buffer} : Calls P assembler data between rest →
      extractBody P between rest = .recurses arrMessagesBuffers after subBuffer →
      subBuffer.length < rest.length

/-- Where the messages of a chunk start that starts with one. -/
inductive MessageStart (P : Platform) : Buffer → Buffer → Prop where
  | first (data : Buffer) : MessageStart P data data
  | next {data rest : Buffer} {length : Int} {dataOffset total : Nat}
      (hlength : readMsgLength P data = .ok (length, dataOffset))
      (htotal : length + dataOffset = total) (hmax : total ≤ P.kMaxLength) (hpos : 0 < total)
      (hmore : total < data.length) (hrest : MessageStart P (data.drop total) rest) :
      MessageStart P data rest

/-- What of a chunk does not belong to the message under way. -/
def MessageAssembler.unread : MessageAssembler → Buffer → Buffer
  | none, data => data
  | some current, data => data.drop current.bytesToGo

/-- No message of the chunk has a length that cancels the size of that length. -/
def NoEmptyMessage (P : Platform) (data : Buffer) : Prop :=
  ∀ rest length dataOffset, MessageStart P data rest →
    readMsgLength P rest = .ok (length, dataOffset) → length + (dataOffset : Int) ≠ 0

/-- Without a recursive call the first call is the only one. -/
theorem terminates_of_answer (h : ∀ arrMessagesBuffers between subBuffer,
    extractBody P assembler data ≠ .recurses arrMessagesBuffers between subBuffer) :
    Terminates P assembler data := by
  refine ⟨⟨1, ?_⟩, fun hcalls hbody => ?_⟩
  · rw [extractMessages]
    cases hbody : extractBody P assembler data with
    | returns _ _ => rfl
    | throws _ _ => rfl
    | recurses _ _ _ => exact absurd hbody (h _ _ _)
  · cases hcalls with
    | here => exact absurd hbody (h _ _ _)
    | deeper hfirst _ => exact absurd hfirst (h _ _ _)

theorem terminates_of_recurses {arrMessagesBuffers : List Buffer} {between : MessageAssembler}
    {subBuffer : Buffer}
    (hbody : extractBody P assembler data = .recurses arrMessagesBuffers between subBuffer)
    (hshorter : subBuffer.length < data.length) (hsub : Terminates P between subBuffer) :
    Terminates P assembler data := by
  obtain ⟨⟨fuel, hfuel⟩, hdeeper⟩ := hsub
  refine ⟨⟨fuel + 1, ?_⟩, fun hcalls hagain => ?_⟩
  · rw [extractMessages, hbody]
    simpa using hfuel
  · cases hcalls with
    | here =>
        rw [hbody] at hagain
        cases hagain
        exact hshorter
    | deeper hfirst hcalls =>
        rw [hbody] at hfirst
        cases hfirst
        exact hdeeper hcalls hagain

/-- The cases of a chunk that starts with a message. -/
theorem startMessage_cases (P : Platform) (data : Buffer) :
    (∀ arrMessagesBuffers between subBuffer,
      startMessage P data ≠ .recurses arrMessagesBuffers between subBuffer) ∨
    ∃ length : Int, ∃ dataOffset total : Nat, readMsgLength P data = .ok (length, dataOffset) ∧
      length + dataOffset = total ∧ total ≤ P.kMaxLength ∧ total < data.length ∧
      startMessage P data = .recurses [data.take total] none (data.drop total) := by
  cases hread : readMsgLength P data with
  | error error =>
      left
      rw [startMessage_error hread]
      exact fun _ _ _ => Extraction.noConfusion
  | ok read =>
      obtain ⟨length, dataOffset⟩ := read
      by_cases hsize : length + dataOffset < 0 ∨ P.kMaxLength < length + dataOffset
      · left
        rw [startMessage_negative hread hsize]
        exact fun _ _ _ => Extraction.noConfusion
      · obtain ⟨total, htotal⟩ : ∃ total : Nat, length + dataOffset = total :=
          ⟨(length + dataOffset).toNat, by omega⟩
        have hmax : total ≤ P.kMaxLength := by omega
        rcases Nat.lt_trichotomy data.length total with hless | hsame | hmore
        · left
          obtain ⟨current, hcurrent, -⟩ := startMessage_less hread htotal hmax hless
          rw [hcurrent]
          exact fun _ _ _ => Extraction.noConfusion
        · left
          rw [startMessage_same hread htotal hmax hsame]
          exact fun _ _ _ => Extraction.noConfusion
        · exact .inr ⟨length, dataOffset, total, rfl, htotal, hmax, hmore,
            startMessage_more hread htotal hmax hmore⟩

theorem NoEmptyMessage.drop (h : NoEmptyMessage P data) {length : Int} {dataOffset total : Nat}
    (hlength : readMsgLength P data = .ok (length, dataOffset))
    (htotal : length + dataOffset = total) (hmax : total ≤ P.kMaxLength)
    (hmore : total < data.length) : 0 < total ∧ NoEmptyMessage P (data.drop total) := by
  have hpos : 0 < total := by
    have hne := h data length dataOffset (.first data) hlength
    omega
  exact ⟨hpos, fun rest length dataOffset hstart =>
    h rest length dataOffset (.next hlength htotal hmax hpos hmore hstart)⟩

theorem terminates_start (h : NoEmptyMessage P data) : Terminates P none data := by
  induction hn : data.length using Nat.strongRecOn generalizing data with
  | ind n ih =>
      rcases startMessage_cases P data with hanswer |
        ⟨length, dataOffset, total, hlength, htotal, hmax, hmore, hbody⟩
      · exact terminates_of_answer hanswer
      · obtain ⟨hpos, hsub⟩ := h.drop hlength htotal hmax hmore
        have hshorter : (data.drop total).length < data.length := by
          rw [List.length_drop]
          omega
        exact terminates_of_recurses hbody hshorter (ih _ (hn ▸ hshorter) hsub rfl)

/-- Every message start is the chunk of one of the calls. -/
theorem calls_of_messageStart (h : MessageStart P data rest) : Calls P none data none rest := by
  induction h with
  | first data => exact .here none data
  | next hlength htotal hmax hpos hmore _ ih =>
      exact .deeper (startMessage_more hlength htotal hmax hmore) ih

/-- The call on a message of no bytes makes the same call again. -/
theorem startMessage_empty (hreads : P.ReadsVarints) {length : Int} {dataOffset : Nat}
    (hlength : readMsgLength P data = .ok (length, dataOffset))
    (hzero : length + (dataOffset : Int) = (0 : Nat)) :
    startMessage P data = .recurses [[]] none data := by
  have hpos := hreads.pos (readMsgLength_eq P data ▸ hlength)
  have hagain := startMessage_more hlength hzero (Nat.zero_le _) (by omega)
  simpa using hagain

theorem noEmptyMessage_of_terminates (hreads : P.ReadsVarints) (h : Terminates P none data) :
    NoEmptyMessage P data := by
  intro rest length dataOffset hstart hlength hzero
  have hshorter := h.shorter (calls_of_messageStart hstart)
    (startMessage_empty hreads hlength (by exact_mod_cast hzero))
  omega

theorem Terminates.deeper (h : Terminates P assembler data) {arrMessagesBuffers : List Buffer}
    {between : MessageAssembler} {subBuffer : Buffer}
    (hbody : extractBody P assembler data = .recurses arrMessagesBuffers between subBuffer) :
    Terminates P between subBuffer := by
  refine ⟨?_, fun hcalls hagain => h.shorter (.deeper hbody hcalls) hagain⟩
  obtain ⟨fuel, hfuel⟩ := h.answers
  cases fuel with
  | zero => cases hfuel
  | succ fuel =>
      rw [extractMessages, hbody] at hfuel
      exact ⟨fuel, by simpa using hfuel⟩

/-- Nothing starts in an empty chunk. -/
theorem noEmptyMessage_nil (hreads : P.ReadsVarints) : NoEmptyMessage P [] := by
  have herror : readMsgLength P [] = .error .indexOutOfRange := by
    rw [readMsgLength_eq]
    exact hreads.past (by simp [Varint.Continues]) (by simp)
  intro rest length dataOffset hstart hlength
  cases hstart with
  | first =>
      rw [herror] at hlength
      cases hlength
  | next hlength' =>
      rw [herror] at hlength'
      cases hlength'

/-- A call comes to an end, on ever shorter remainders, exactly when no message
of its chunk has a length that cancels the size of that length. -/
theorem terminates_iff_noEmptyMessage (hreads : P.ReadsVarints) (assembler : MessageAssembler)
    (data : Buffer) :
    Terminates P assembler data ↔ NoEmptyMessage P (assembler.unread data) := by
  cases assembler with
  | none => exact ⟨noEmptyMessage_of_terminates hreads, terminates_start⟩
  | some current =>
      by_cases hlength : current.bytesToGo < data.length
      · obtain ⟨messageBuffer, hbody⟩ := continueMessage_recurses hlength
        have hshorter : (data.drop current.bytesToGo).length < data.length := by
          have hpos := current.pos
          rw [List.length_drop]
          omega
        constructor
        · intro h
          exact noEmptyMessage_of_terminates hreads (h.deeper hbody)
        · intro h
          exact terminates_of_recurses hbody hshorter (terminates_start h)
      · -- the chunk ends before the next message starts
        have hnil : MessageAssembler.unread (some current) data = [] :=
          List.drop_of_length_le (Nat.not_lt.mp hlength)
        rw [hnil]
        exact iff_of_true
          (terminates_of_answer fun _ _ _ => continueMessage_ne_recurses (Nat.not_lt.mp hlength) _ _)
          (noEmptyMessage_nil hreads)

/-- A reader that takes varints of up to ten bytes. -/
def sampleInt32 (data : Buffer) : Except AssemblerError (Int × Nat) :=
  match Varint.decode data with
  | some (value, size) =>
      if size ≤ 10 then .ok ((value : Int).bmod (2 ^ 32), size) else .error .indexOutOfRange
  | none => .error .indexOutOfRange

def sampleNode : Platform := ⟨2 ^ 32, sampleInt32⟩

theorem sampleNode_readsVarints : sampleNode.ReadsVarints where
  read rest hcomplete hlength := by
    change sampleInt32 _ = _
    rw [sampleInt32, Varint.decode_append hcomplete rest]
    exact if_pos (by omega)
  past hcontinues _ := by
    change sampleInt32 _ = _
    rw [sampleInt32, Varint.decode_of_continues hcontinues]
  pos {data length pos} h := by
    change sampleInt32 data = _ at h
    unfold sampleInt32 at h
    split at h
    next value size hdecode =>
      have hsize := Varint.size_of_decode hdecode
      split at h
      next =>
        obtain ⟨-, rfl⟩ := Prod.mk.inj (Except.ok.inj h)
        exact hsize
      next => cases h
    next => cases h

theorem terminates_iff_noEmptyMessage_sample :
    Terminates sampleNode none [1, 97] ↔ NoEmptyMessage sampleNode [1, 97] :=
  terminates_iff_noEmptyMessage sampleNode_readsVarints none [1, 97]

/-- The length -5, in five bytes. -/
theorem not_terminates_negativeLength :
    ¬ Terminates sampleNode none [251, 255, 255, 255, 15] := by
  intro h
  exact noEmptyMessage_of_terminates sampleNode_readsVarints h _ (-5) 5 (.first _)
    (by decide +kernel) rfl

end CilCore.Network
