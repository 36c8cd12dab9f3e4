import CilCore.Network.Framing

/-!
# Messages in chunks

An honest peer sends messages in their length-delimited encoding. The assembler
returns exactly these, however the stream is cut, as long as no cut falls inside
a length: a chunk that ends there leaves the reader at the end of its buffer,
and the exception loses the bytes.
-/

namespace CilCore.Network

open Lib

/-- The payload of a length-delimited message; its length is an `int32`, and the
encoding is itself a buffer. -/
structure Message (P : Platform) where
  payload : Buffer
  int32 : payload.length < 2 ^ 31
  buffer : (Varint.encode payload.length ++ payload).length ≤ P.kMaxLength

namespace Message

variable {P : Platform}

/-- `encodeDelimited`. -/
def encode (message : Message P) : Buffer :=
  Varint.encode message.payload.length ++ message.payload

/-- The size of the length in front of the payload. -/
def dataOffset (message : Message P) : Nat := (Varint.encode message.payload.length).length

theorem dataOffset_le (message : Message P) : message.dataOffset ≤ message.encode.length := by
  simp [dataOffset, encode]

theorem dataOffset_pos (message : Message P) : 0 < message.dataOffset :=
  (Varint.complete_encode _).length_pos

theorem encode_pos (message : Message P) : 0 < message.encode.length :=
  Nat.lt_of_lt_of_le message.dataOffset_pos message.dataOffset_le

theorem dataOffset_le_five (message : Message P) : message.dataOffset ≤ 5 :=
  Varint.length_encode_le (Nat.lt_trans message.int32 (by decide))

end Message

/-- What a peer writes: the encodings one after another. -/
def stream {P : Platform} (messages : List (Message P)) : Buffer :=
  messages.flatMap Message.encode

variable {P : Platform} {messages done rest : List (Message P)} {message : Message P}
  {assembler after : MessageAssembler} {fed chunk todo : Buffer}

/-- A position after the first byte of a length and before its last one. -/
def InsideLength (messages : List (Message P)) (position : Nat) : Prop :=
  ∃ done message rest, messages = done ++ message :: rest ∧
    (stream done).length < position ∧ position < (stream done).length + message.dataOffset

/-- The bytes `fed` of a stream contain the messages `done`, and the assembler
holds what follows of the next one. -/
inductive Received (messages : List (Message P)) :
    Buffer → List (Message P) → MessageAssembler → Prop where
  | between (done rest : List (Message P)) (hmessages : messages = done ++ rest) :
      Received messages (stream done) done none
  | within (done : List (Message P)) (message : Message P) (rest : List (Message P))
      {sent unsent : Buffer} {current : PartialMessage}
      (hmessages : messages = done ++ message :: rest) (hencode : message.encode = sent ++ unsent)
      (hlength : message.dataOffset ≤ sent.length) (hunsent : unsent ≠ [])
      (hcurrent : current.Holds sent unsent.length) :
      Received messages (stream done ++ sent) done (some current)

@[simp] theorem stream_nil : stream ([] : List (Message P)) = [] := rfl

@[simp] theorem stream_cons : stream (message :: rest) = message.encode ++ stream rest := rfl

@[simp] theorem stream_append : stream (done ++ rest) = stream done ++ stream rest :=
  List.flatMap_append

/-! ### One chunk -/

/-- A chunk that reaches past the length of its message tells it. -/
theorem readMsgLength_encode (hreads : P.ReadsVarints)
    (hstream : message.encode ++ stream rest = chunk ++ todo)
    (hlength : message.dataOffset ≤ chunk.length) :
    readMsgLength P chunk = .ok ((message.payload.length : Int), message.dataOffset) := by
  have hchunk : chunk = Varint.encode message.payload.length ++
      (message.payload ++ stream rest).take (chunk.length - message.dataOffset) := by
    have htake := congrArg (List.take chunk.length) hstream
    rw [List.take_left, Message.encode, List.append_assoc, List.take_append,
      List.take_of_length_le hlength] at htake
    exact htake.symm
  have hint : ((message.payload.length : Nat) : Int).bmod (2 ^ 32) = message.payload.length :=
    Int.bmod_eq_of_le (by omega) (by have := message.int32; omega)
  rw [readMsgLength_eq, hchunk,
    hreads.read _ (Varint.complete_encode _) message.dataOffset_le_five, Varint.value_encode, hint,
    Message.dataOffset]

/-- A chunk that ends inside the length of its message makes the reader throw. -/
theorem readMsgLength_inside (hreads : P.ReadsVarints)
    (hstream : message.encode ++ stream rest = chunk ++ todo)
    (hlength : chunk.length < message.dataOffset) :
    readMsgLength P chunk = .error .indexOutOfRange := by
  have hchunk : chunk = (Varint.encode message.payload.length).take chunk.length := by
    have htake := congrArg (List.take chunk.length) hstream
    rw [List.take_left, Message.encode, List.append_assoc,
      List.take_append_of_le_length (Nat.le_of_lt hlength)] at htake
    exact htake.symm
  rw [readMsgLength_eq]
  refine hreads.past ?_ (Nat.lt_of_lt_of_le hlength message.dataOffset_le_five)
  rw [hchunk]
  exact (Varint.complete_encode _).continues_take hlength

/-- A chunk ends before what is expected does, with it, or after it. -/
theorem chunk_cases {expected tail : Buffer} (h : expected ++ tail = chunk ++ todo) :
    (∃ unsent, unsent ≠ [] ∧ expected = chunk ++ unsent) ∨ chunk = expected ∨
      ∃ subBuffer, subBuffer ≠ [] ∧ chunk = expected ++ subBuffer ∧ tail = subBuffer ++ todo := by
  rcases List.append_eq_append_iff.mp h with ⟨subBuffer, hchunk, htail⟩ | ⟨unsent, hexpected, -⟩
  · by_cases hsub : subBuffer = []
    · exact .inr (.inl (by rw [hchunk, hsub, List.append_nil]))
    · exact .inr (.inr ⟨subBuffer, hsub, hchunk, htail⟩)
  · by_cases hunsent : unsent = []
    · exact .inr (.inl (by rw [hexpected, hunsent, List.append_nil]))
    · exact .inl ⟨unsent, hunsent, hexpected⟩

/-- A call returns the messages that its chunk completes. -/
def ReturnsMessages (messages done : List (Message P)) (fed : Buffer)
    (assembler : MessageAssembler) (chunk : Buffer) : Prop :=
  ∃ fuel arrMessages after more,
    extractMessages P fuel assembler chunk = some (.ok arrMessages, after) ∧
    arrMessages.getD [] = more.map Message.encode ∧
    Received messages (fed ++ chunk) (done ++ more) after

/-- A call throws, and its chunk ends inside a length. -/
def ThrowsInside (messages : List (Message P)) (fed : Buffer) (assembler : MessageAssembler)
    (chunk : Buffer) : Prop :=
  ∃ fuel error after, extractMessages P fuel assembler chunk = some (.error error, after) ∧
    InsideLength messages (fed ++ chunk).length

/-- The recursive call adds its messages to the one before them. -/
theorem recurse_messages {subBuffer : Buffer} (hchunk : chunk = fed ++ subBuffer)
    (hbody : extractBody P assembler chunk = .recurses [message.encode] none subBuffer)
    {before : Buffer} (hbefore : before ++ fed = stream (done ++ [message]))
    (h : ThrowsInside messages (stream (done ++ [message])) none subBuffer ∨
      ReturnsMessages messages (done ++ [message]) (stream (done ++ [message])) none subBuffer) :
    ThrowsInside messages before assembler chunk ∨
      ReturnsMessages messages done before assembler chunk := by
  have hfed : stream (done ++ [message]) ++ subBuffer = before ++ chunk := by
    rw [← hbefore, hchunk, List.append_assoc]
  rcases h with ⟨fuel, error, after, hthrows, hinside⟩ |
    ⟨fuel, arrMessages, after, more, hreturns, hmore, hreceived⟩
  · refine .inl ⟨fuel + 1, error, after, ?_, hfed ▸ hinside⟩
    rw [extractMessages, hbody]
    simp only [hthrows]
    rfl
  · refine .inr ⟨fuel + 1, some (message.encode :: arrMessages.getD []), after, message :: more,
      ?_, ?_, ?_⟩
    · rw [extractMessages, hbody]
      simp only [hreturns]
      rfl
    · simp [hmore]
    · have hall : done ++ message :: more = done ++ [message] ++ more := List.append_cons ..
      rw [← hfed, hall]
      exact hreceived

theorem returnsMessages_of_returns {arrMessages : Option (List Buffer)}
    (hbody : extractBody P assembler chunk = .returns arrMessages after)
    (more : List (Message P)) (hmore : arrMessages.getD [] = more.map Message.encode)
    (hreceived : Received messages (fed ++ chunk) (done ++ more) after) :
    ReturnsMessages messages done fed assembler chunk :=
  ⟨1, arrMessages, after, more, by rw [extractMessages, hbody], hmore, hreceived⟩

/-- A chunk met between two messages. By induction on the messages to come: the
chunk ends inside the length of the first, inside its payload, with it or after
it. -/
theorem extractMessages_between (hreads : P.ReadsVarints) (hmessages : messages = done ++ rest)
    (hstream : stream rest = chunk ++ todo) (hchunk : chunk ≠ []) :
    ThrowsInside messages (stream done) none chunk ∨
      ReturnsMessages messages done (stream done) none chunk := by
  induction rest generalizing done chunk with
  | nil => exact absurd (List.append_eq_nil_iff.mp hstream.symm).1 hchunk
  | cons message rest ih =>
      have hpos := List.length_pos_iff.mpr hchunk
      have hdone : messages = (done ++ [message]) ++ rest := by rw [hmessages, List.append_cons]
      rw [stream_cons] at hstream
      by_cases hinside : chunk.length < message.dataOffset
      · -- the reader runs past the end of the chunk
        refine .inl ⟨1, .indexOutOfRange, none, ?_, done, message, rest, hmessages, ?_, ?_⟩
        · rw [extractMessages, extractBody,
            startMessage_error (readMsgLength_inside hreads hstream hinside)]
        · rw [List.length_append]
          omega
        · rw [List.length_append]
          omega
      have hlength := Nat.not_lt.mp hinside
      have hread := readMsgLength_encode hreads hstream hlength
      have htotal : (message.payload.length : Int) + message.dataOffset =
          (message.encode.length : Nat) := by
        rw [Message.encode, List.length_append, Message.dataOffset]
        omega
      rcases chunk_cases hstream with ⟨unsent, hunsent, hencode⟩ | hsame |
        ⟨subBuffer, hsub, hmore, hrest⟩
      · have hmissing : message.encode.length - chunk.length = unsent.length := by
          rw [hencode, List.length_append, Nat.add_sub_cancel_left]
        have hless : chunk.length < message.encode.length := by
          have hunsentPos := List.length_pos_iff.mpr hunsent
          omega
        obtain ⟨current, hbody, hcurrent⟩ := startMessage_less hread htotal message.buffer hless
        refine .inr (returnsMessages_of_returns hbody [] rfl ?_)
        rw [List.append_nil]
        exact .within done message rest hmessages hencode hlength hunsent (hmissing ▸ hcurrent)
      · have hbody := startMessage_same hread htotal message.buffer (congrArg List.length hsame)
        refine .inr (returnsMessages_of_returns hbody [message] ?_ ?_)
        · rw [hsame]
          rfl
        · have hfed : stream done ++ chunk = stream (done ++ [message]) := by simp [hsame]
          rw [hfed]
          exact .between _ rest hdone
      · have hless : message.encode.length < chunk.length := by
          have hsubPos := List.length_pos_iff.mpr hsub
          rw [hmore, List.length_append]
          omega
        have hbody : extractBody P none chunk = _ :=
          startMessage_more hread htotal message.buffer hless
        rw [hmore, List.take_left, List.drop_left, ← hmore] at hbody
        exact recurse_messages hmore hbody (by simp) (ih hdone hrest hsub)

/-- A chunk met inside a message. -/
theorem extractMessages_within (hreads : P.ReadsVarints) {sent unsent : Buffer}
    {current : PartialMessage} (hmessages : messages = done ++ message :: rest)
    (hencode : message.encode = sent ++ unsent) (hlength : message.dataOffset ≤ sent.length)
    (hcurrent : current.Holds sent unsent.length)
    (hstream : unsent ++ stream rest = chunk ++ todo) :
    ThrowsInside messages (stream done ++ sent) (some current) chunk ∨
      ReturnsMessages messages done (stream done ++ sent) (some current) chunk := by
  have hdone : messages = (done ++ [message]) ++ rest := by rw [hmessages, List.append_cons]
  rcases chunk_cases hstream with ⟨missing, hmissing, hunsent⟩ | hsame |
    ⟨subBuffer, hsub, hmore, hrest⟩
  · have hless : chunk.length < unsent.length := by
      have hmissingPos := List.length_pos_iff.mpr hmissing
      rw [hunsent, List.length_append]
      omega
    obtain ⟨next, hbody, hnext⟩ := continueMessage_less hcurrent hless
    have hmissingLength : unsent.length - chunk.length = missing.length := by
      rw [hunsent, List.length_append, Nat.add_sub_cancel_left]
    refine .inr (returnsMessages_of_returns hbody [] rfl ?_)
    rw [List.append_nil, List.append_assoc]
    exact .within done message rest hmessages (by rw [hencode, hunsent, List.append_assoc])
      (by rw [List.length_append]; omega) hmissing (hmissingLength ▸ hnext)
  · have hbody := continueMessage_same hcurrent (congrArg List.length hsame)
    refine .inr (returnsMessages_of_returns hbody [message] ?_ ?_)
    · rw [hsame, ← hencode]
      rfl
    · have hfed : stream done ++ sent ++ chunk = stream (done ++ [message]) := by
        simp [hencode, hsame]
      rw [hfed]
      exact .between _ rest hdone
  · have hless : unsent.length < chunk.length := by
      have hsubPos := List.length_pos_iff.mpr hsub
      rw [hmore, List.length_append]
      omega
    have hbody : extractBody P (some current) chunk = _ := continueMessage_more hcurrent hless
    rw [hmore, List.take_left, List.drop_left, ← hmore, ← hencode] at hbody
    exact recurse_messages hmore hbody (by simp [hencode])
      (extractMessages_between hreads hdone hrest hsub)

theorem Received.extractMessages (hreads : P.ReadsVarints) (h : Received messages fed done assembler)
    (hstream : stream messages = fed ++ (chunk ++ todo)) (hchunk : chunk ≠ []) :
    ThrowsInside messages fed assembler chunk ∨
      ReturnsMessages messages done fed assembler chunk := by
  cases h with
  | between _ rest hmessages =>
      rw [hmessages, stream_append] at hstream
      exact extractMessages_between hreads hmessages (List.append_cancel_left hstream) hchunk
  | within _ message rest hmessages hencode hlength _ hcurrent =>
      rw [hmessages, stream_append, stream_cons, hencode, List.append_assoc, List.append_assoc]
        at hstream
      exact extractMessages_within hreads hmessages hencode hlength hcurrent
        (List.append_cancel_left (List.append_cancel_left hstream))

/-! ### All chunks -/

/-- The messages of chunk after chunk, until a call throws. -/
def extractAll (P : Platform) (fuel : Nat) : MessageAssembler → List Buffer →
    Option (Except AssemblerError (List Buffer) × MessageAssembler)
  | assembler, [] => some (.ok [], assembler)
  | assembler, chunk :: chunks =>
      match extractMessages P fuel assembler chunk with
      | none => none
      | some (.error error, after) => some (.error error, after)
      | some (.ok arrMessages, after) =>
          (extractAll P fuel after chunks).map fun answer =>
            (answer.1.map (arrMessages.getD [] ++ ·), answer.2)

/-- The chunks give the messages back, each once and in order, and nothing is
left in the assembler. -/
def Reassembles (messages : List (Message P)) (chunks : List Buffer) : Prop :=
  ∃ fuel after, extractAll P fuel none chunks = some (.ok (messages.map Message.encode), after) ∧
    MessageAssembler.isDone after

theorem extractAll_mono {fuel more : Nat} {chunks : List Buffer}
    {answer : Except AssemblerError (List Buffer) × MessageAssembler}
    (h : extractAll P fuel assembler chunks = some answer) (hle : fuel ≤ more) :
    extractAll P more assembler chunks = some answer := by
  induction chunks generalizing assembler answer with
  | nil => exact h
  | cons chunk chunks ih =>
      rw [extractAll] at h ⊢
      cases hcall : extractMessages P fuel assembler chunk with
      | none =>
          rw [hcall] at h
          cases h
      | some call =>
          rw [hcall] at h
          rw [extractMessages_mono hcall hle]
          obtain ⟨result, after⟩ := call
          cases result with
          | error _ => exact h
          | ok arrMessages =>
              obtain ⟨later, hlater, hanswer⟩ := Option.map_eq_some_iff.mp h
              exact Option.map_eq_some_iff.mpr ⟨later, ih hlater, hanswer⟩

/-- A length that a position falls inside belongs to no message that ends before. -/
theorem insideLength_prefix {position : Nat} (h : InsideLength messages position)
    (hmessages : messages = done ++ rest) (hposition : (stream done).length ≤ position) :
    ∃ between message later, rest = between ++ message :: later ∧
      (stream done).length + (stream between).length < position ∧
      position < (stream done).length + (stream between).length + message.dataOffset := by
  obtain ⟨done', message, rest', hmessages', hafter, hbefore⟩ := h
  rcases List.append_eq_append_iff.mp (hmessages.symm.trans hmessages') with
    ⟨between, rfl, hrest⟩ | ⟨between, rfl, hrest⟩
  · rw [stream_append, List.length_append] at hafter hbefore
    exact ⟨between, message, rest', hrest, hafter, hbefore⟩
  · cases between with
    | nil => exact ⟨[], message, rest', hrest.symm, by simpa using hafter, by simpa using hbefore⟩
    | cons _ _ =>
        obtain ⟨rfl, -⟩ := List.cons.inj hrest
        have hoffset := message.dataOffset_le
        simp only [stream_append, stream_cons, List.length_append] at hposition
        omega

theorem Received.not_insideLength (h : Received messages fed done assembler) :
    ¬ InsideLength messages fed.length := by
  intro hinside
  cases h with
  | between _ rest hmessages =>
      obtain ⟨between, message, -, -, hafter, -⟩ :=
        insideLength_prefix hinside hmessages (Nat.le_refl _)
      omega
  | @within _ message rest sent unsent _ hmessages hencode hlength hunsent _ =>
      rw [List.length_append] at hinside
      obtain ⟨between, message', later, hrest, hafter, hbefore⟩ :=
        insideLength_prefix hinside hmessages (Nat.le_add_right _ _)
      cases between with
      | nil =>
          obtain ⟨rfl, -⟩ := List.cons.inj hrest
          rw [stream_nil, List.length_nil] at hbefore
          omega
      | cons first _ =>
          obtain ⟨rfl, -⟩ := List.cons.inj hrest
          rw [stream_cons, List.length_append, hencode, List.length_append] at hafter
          omega

/-- Once the whole stream has been fed, every message has been returned. -/
theorem Received.all (h : Received messages (stream messages) done assembler) :
    done = messages ∧ assembler = none := by
  generalize hfed : stream messages = fed at h
  cases h with
  | between _ rest hmessages =>
      rw [hmessages, stream_append] at hfed
      have hrest := List.append_right_eq_self.mp hfed
      cases rest with
      | nil => exact ⟨by rw [hmessages, List.append_nil], rfl⟩
      | cons message _ =>
          have hpos := message.encode_pos
          have hlength := congrArg List.length hrest
          simp only [stream_cons, List.length_append, List.length_nil] at hlength
          omega
  | within _ message rest hmessages hencode _ hunsent _ =>
      rw [hmessages, stream_append, stream_cons, hencode] at hfed
      have hrest := List.append_cancel_left hfed
      rw [List.append_assoc, List.append_right_eq_self] at hrest
      exact absurd (List.append_eq_nil_iff.mp hrest).1 hunsent

/-- From a state that the bytes fed so far explain, either all chunks end outside
the lengths and the remaining messages come out, or one throws. -/
theorem extractAll_received (hreads : P.ReadsVarints) {chunks : List Buffer}
    (hnonempty : ∀ chunk ∈ chunks, chunk ≠ []) (h : Received messages fed done assembler)
    (hstream : stream messages = fed ++ chunks.flatten) :
    (∃ fuel error after, extractAll P fuel assembler chunks = some (.error error, after) ∧
      ∃ k, InsideLength messages (fed ++ (chunks.take k).flatten).length) ∨
    (∃ fuel arrMessages, extractAll P fuel assembler chunks = some (.ok arrMessages, none) ∧
      done.map Message.encode ++ arrMessages = messages.map Message.encode ∧
      ∀ k, ¬ InsideLength messages (fed ++ (chunks.take k).flatten).length) := by
  induction chunks generalizing fed done assembler with
  | nil =>
      rw [List.flatten_nil, List.append_nil] at hstream
      obtain ⟨rfl, rfl⟩ := Received.all (hstream ▸ h)
      exact .inr ⟨0, [], rfl, List.append_nil _, fun k => by
        simpa using h.not_insideLength⟩
  | cons chunk chunks ih =>
      rw [List.flatten_cons] at hstream
      rcases h.extractMessages hreads hstream (hnonempty chunk (List.mem_cons_self ..)) with
        ⟨fuel, error, after, hthrows, hinside⟩ | ⟨fuel, arrMessages, after, more, hreturns, hmore,
          hreceived⟩
      · refine .inl ⟨fuel, error, after, ?_, 1, by simpa using hinside⟩
        rw [extractAll, hthrows]
      · rw [← List.append_assoc] at hstream
        rcases ih (fun c hc => hnonempty c (List.mem_cons_of_mem _ hc)) hreceived hstream with
          ⟨fuel', error, final, hthrows, k, hinside⟩ | ⟨fuel', later, hlater, hall, houtside⟩
        · refine .inl ⟨max fuel fuel', error, final, ?_, k + 1, ?_⟩
          · rw [extractAll, extractMessages_mono hreturns (Nat.le_max_left ..)]
            simp only [extractAll_mono hthrows (Nat.le_max_right ..)]
            rfl
          · rw [List.take_succ_cons, List.flatten_cons, ← List.append_assoc]
            exact hinside
        · refine .inr ⟨max fuel fuel', arrMessages.getD [] ++ later, ?_, ?_, fun k => ?_⟩
          · rw [extractAll, extractMessages_mono hreturns (Nat.le_max_left ..)]
            simp only [extractAll_mono hlater (Nat.le_max_right ..)]
            rfl
          · rw [← hall, List.map_append, hmore, List.append_assoc]
          · cases k with
            | zero => simpa using h.not_insideLength
            | succ k =>
                rw [List.take_succ_cons, List.flatten_cons, ← List.append_assoc]
                exact houtside k

theorem not_reassembles_of_error {chunks : List Buffer} {fuel : Nat} {error : AssemblerError}
    (hthrows : extractAll P fuel none chunks = some (.error error, after)) :
    ¬ Reassembles messages chunks := by
  rintro ⟨fuel', after', hreturns, -⟩
  have hthrows' := extractAll_mono hthrows (Nat.le_max_left fuel fuel')
  rw [extractAll_mono hreturns (Nat.le_max_right fuel fuel')] at hthrows'
  cases hthrows'

/-- The messages come back, each once and in order, exactly when no chunk ends
inside the length of a message. -/
theorem reassembles_iff_outsideLength (hreads : P.ReadsVarints) (messages : List (Message P))
    (chunks : List Buffer) (hnonempty : ∀ chunk ∈ chunks, chunk ≠ [])
    (hstream : chunks.flatten = stream messages) :
    Reassembles messages chunks ↔
      ∀ k, ¬ InsideLength messages (chunks.take k).flatten.length := by
  rcases extractAll_received hreads hnonempty (.between [] messages rfl) hstream.symm with
    ⟨fuel, error, after, hthrows, k, hinside⟩ | ⟨fuel, arrMessages, hreturns, hall, houtside⟩
  · exact iff_of_false (not_reassembles_of_error hthrows) fun h => h k (by simpa using hinside)
  · have hmap : arrMessages = messages.map Message.encode := hall
    rw [hmap] at hreturns
    exact iff_of_true ⟨fuel, none, hreturns, rfl⟩ fun k => by simpa using houtside k

/-- Every payload that an `int32` can measure is a message of the sample node. -/
def sampleMessage (payload : Buffer) (h : payload.length < 2 ^ 31) : Message sampleNode where
  payload := payload
  int32 := h
  buffer := by
    have hlength : (Varint.encode payload.length).length ≤ 4 + 1 :=
      Varint.length_encode_le (Nat.lt_trans h (by decide))
    have hmax : sampleNode.kMaxLength = 2 ^ 32 := rfl
    rw [List.length_append, hmax]
    omega

theorem reassembles_iff_outsideLength_short :
    Reassembles [sampleMessage [97] (by decide)] [[1], [97]] ↔
      ∀ k, ¬ InsideLength [sampleMessage [97] (by decide)]
        (([[1], [97]] : List Buffer).take k).flatten.length :=
  reassembles_iff_outsideLength sampleNode_readsVarints [sampleMessage [97] (by decide)]
    [[1], [97]] (by simp) (by simp [sampleMessage, Message.encode, Varint.encode])

/-- A message whose length takes two bytes. -/
def longMessage : Message sampleNode :=
  sampleMessage (.replicate 128 97) (by rw [List.length_replicate]; decide)

/-- The message of two chunks of which the first ends inside its length. -/
theorem not_reassembles_insideLength :
    ([[128], 1 :: .replicate 128 97] : List Buffer).flatten = stream [longMessage] ∧
      ¬ Reassembles [longMessage] [[128], 1 :: .replicate 128 97] := by
  have hthrows : extractAll sampleNode 1 none [[128], 1 :: .replicate 128 97] =
      some (.error .indexOutOfRange, none) := rfl
  have hencode : Varint.encode 128 = [128, 1] := by simp [Varint.encode]
  refine ⟨?_, not_reassembles_of_error hthrows⟩
  rw [stream_cons, Message.encode, longMessage, sampleMessage, List.length_replicate, hencode]
  rfl

end CilCore.Network
