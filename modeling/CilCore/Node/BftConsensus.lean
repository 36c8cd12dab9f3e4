import CilCore.Structures.Block
import CilCore.Conciliums.Rounds

/-!
# The consensus of the witnesses of a concilium

`node/bftConsensus.js` as a state machine: messages of other witnesses, expiring
timers and the results of block execution go in, messages, requests for a block
and committed blocks come out. Timers themselves are left to the environment.
-/

namespace CilCore

/-- `Constants.consensusStates`. -/
inductive ConsensusState where
  | ROUND_CHANGE
  | BLOCK
  | VOTE_BLOCK
  | COMMIT
deriving DecidableEq, Repr

/-- What a vote is for: the hash of a block, or the text `reject`. -/
inductive VoteHash where
  | reject
  | hash (h : Hash)
deriving DecidableEq, Repr

/-- The data of one witness as the views keep it, `{state, ...content}`. The
state follows from the type of the message. -/
inductive Content where
  | nextRound (roundNo : Option Nat)
  | vote (blockHash : Option VoteHash) (signature : Option Signature)
deriving DecidableEq, Repr

namespace Content

/-- The field `state`, from `_stateFromMessage`. -/
def state : Content → ConsensusState
  | nextRound _ => .ROUND_CHANGE
  | vote _ _ => .VOTE_BLOCK

/-- The field `roundNo`. -/
def roundNo : Content → Option Nat
  | nextRound roundNo => roundNo
  | vote _ _ => none

/-- The field `blockHash`. -/
def blockHash : Content → Option VoteHash
  | nextRound _ => none
  | vote blockHash _ => blockHash

/-- The field `signature`. -/
def signature : Content → Option Signature
  | nextRound _ => none
  | vote _ signature => signature

/-- `_calcDataHash`: data is compared without its inner signature. -/
def calcDataHash : Content → Content
  | nextRound roundNo => nextRound roundNo
  | vote blockHash _ => vote blockHash none

end Content

/-- The views: what a reporter said about an origin. -/
abbrev Views := Address → Address → Option Content

/-- What the constructor of `BftConsensus` is given. The source sorts the
addresses; the order only breaks ties. -/
structure BftSetup where
  concilium : ConciliumDefinition
  walletAddress : Address
  arrAddresses : List Address
  addresses_perm : arrAddresses.Perm concilium.getAddresses
  /-- `Crypto.sign(blockHash, privateKey)`. -/
  sign : VoteHash → Signature

/-- The mutable part of a `BftConsensus`. Before the first consensus there are
no previous views, and nothing reads them. -/
structure BftState (Patch : Type) where
  state : ConsensusState
  rounds : Rounds
  views : Views
  prevViews : Views
  block : Option Block
  patch : Option Patch

/-- Events that `BftConsensus` emits. -/
inductive BftEmit (Patch : Type) where
  | message (content : Content)
  | createBlock
  | commitBlock (block : Block) (patch : Option Patch)

/-- The outcome of a method: the state it leaves, what it emitted, and the
exception it may end with. -/
structure BftResult (Patch : Type) where
  state : BftState Patch
  emitted : List (BftEmit Patch) := []
  error : Option String := none

/-! ### Majority -/

/-- One property of `objHashes`: the class, its weight and its first value. -/
structure Tally where
  hash : Content
  count : ℚ
  value : Content

/-- Count one value. -/
def addVote (hash : Content) (weight : ℚ) (data : Content) : List Tally → List Tally
  | [] => [⟨hash, weight, data⟩]
  | t :: rest =>
      if t.hash = hash then { t with count := t.count + weight } :: rest
      else t :: addVote hash weight data rest

/-- The first loop of `_majority`. -/
def countVotes (c : ConciliumDefinition) : List (Address × Option Content) → List Tally →
    List Tally
  | [], objHashes => objHashes
  | (_, none) :: rest, objHashes => countVotes c rest objHashes
  | (addr, some data) :: rest, objHashes =>
      countVotes c rest (addVote data.calcDataHash (c.weight addr) data objHashes)

/-- The `reduce` of `_majority`: the heaviest class, the first one on a tie. -/
def heaviest : List Tally → ℚ × Option Content → ℚ × Option Content
  | [], best => best
  | t :: rest, best => heaviest rest (if t.count > best.1 then (t.count, some t.value) else best)

/-- `_majority`, over the data of the witnesses in the order of their addresses. -/
def majority (c : ConciliumDefinition) (arrData : List (Address × Option Content)) :
    Option Content :=
  let best := heaviest (countVotes c arrData []) (0, none)
  if best.1 ≥ c.getQuorum then best.2 else none

namespace BftSetup

/-- `_witnessData`: what every reporter said about an origin. -/
def witnessData (B : BftSetup) (views : Views) (addrI : Address) :
    List (Address × Option Content) :=
  B.arrAddresses.map fun addrJ => (addrJ, views addrJ addrI)

/-- `runConsensus`. -/
def runConsensus (B : BftSetup) (views : Views) : Option Content :=
  if B.concilium.getMembersCount = 1 ∧ B.walletAddress ∈ B.arrAddresses then
    views B.walletAddress B.walletAddress
  else
    majority B.concilium
      (B.arrAddresses.map fun addrI => (addrI, majority B.concilium (B.witnessData views addrI)))

/-! ### The state machine -/

variable {Patch : Type}

/-- The constructor: a round is started and no message has been seen. -/
def initialState (B : BftSetup) : BftState Patch where
  state := .ROUND_CHANGE
  rounds := B.concilium.initRounds {}
  views := fun _ _ => none
  prevViews := fun _ _ => none
  block := none
  patch := none

/-- `_resetState`. -/
def resetState (s : BftState Patch) : BftState Patch :=
  { s with prevViews := s.views, views := fun _ _ => none }

/-- `_addViewOfNodeWithAddr`. -/
def addViewOfNodeWithAddr (addr addrI : Address) (dataI : Content) (s : BftState Patch) :
    BftState Patch :=
  { s with
    views := Function.update s.views addr
      (Function.update (s.views addr) addrI (some dataI)) }

/-- `_nextRound`. -/
def nextRound (B : BftSetup) (bShouldAdvanceRound : Bool) (s : BftState Patch) :
    BftResult Patch :=
  let rounds :=
    if bShouldAdvanceRound then B.concilium.nextRound s.rounds
    else B.concilium.initRounds s.rounds
  { state := { s with block := none, state := .ROUND_CHANGE, rounds }
    emitted := [.message (.nextRound (some (ConciliumDefinition.getRound rounds)))] }

/-- `_roundChangeHandler`. -/
def roundChangeHandler (B : BftSetup) (consensusValue : Option Content) (s : BftState Patch) :
    BftResult Patch :=
  match consensusValue with
  | none => B.nextRound false s
  | some consensusValue =>
      if s.state = .BLOCK then { state := s }
      else
        let s := { s with
          rounds := B.concilium.adjustRound consensusValue.roundNo s.rounds
          state := .BLOCK }
        match B.concilium.getProposerAddress s.rounds with
        | none => { state := s, error := some "No proposer for this round" }
        | some proposer =>
            { state := s
              emitted := if proposer = B.walletAddress then [.createBlock] else [] }

/-- `_blockStateHandler`. -/
def blockStateHandler (B : BftSetup) (isValid : Bool) (s : BftState Patch) :
    BftResult Patch :=
  if isValid then { state := { s with state := .VOTE_BLOCK } } else B.nextRound true s

/-- The signature that `_getSignaturesForBlock` takes from one origin, if it
takes one. Recovering the signer may throw. -/
def votedSignature (F : Factory) (B : BftSetup) (views : Views) (hash : Hash)
    (addrI : Address) : Except String (Option Signature) :=
  match majority B.concilium (B.witnessData views addrI) with
  | some (.vote (some (.hash h)) (some signature)) =>
      if h = hash then
        (F.recoverAddress hash signature).map fun signer =>
          if addrI = signer then some signature else none
      else .ok none
  | _ => .ok none

/-- The loop of `_getSignaturesForBlock` over the origins: the signatures found
and their weight. -/
def gatherSignatures (F : Factory) (B : BftSetup) (views : Views) (hash : Hash) :
    List Address → Except String (List Signature × ℚ)
  | [] => .ok ([], 0)
  | addrI :: rest =>
      match B.votedSignature F views hash addrI with
      | .error error => .error error
      | .ok found =>
          match gatherSignatures F B views hash rest with
          | .error error => .error error
          | .ok (arrSignatures, gatheredWeight) =>
              match found with
              | some signature =>
                  .ok (signature :: arrSignatures, B.concilium.weight addrI + gatheredWeight)
              | none => .ok (arrSignatures, gatheredWeight)

/-- `_getSignaturesForBlock`: it reads the views saved before the reset. -/
def getSignaturesForBlock (F : Factory) (B : BftSetup) (prevViews : Views) (hash : Hash) :
    Except String (Option (List Signature)) :=
  match B.gatherSignatures F prevViews hash B.arrAddresses with
  | .error error => .error error
  | .ok (arrSignatures, gatheredWeight) =>
      if B.concilium.getQuorum = 0 then .error "Quorum couldn't be zero!"
      else .ok (if gatheredWeight ≥ B.concilium.getQuorum then some arrSignatures else none)

/-- `_voteStateHandler`. -/
def voteStateHandler (F : Factory) (B : BftSetup) (consensusValue : Option Content)
    (s : BftState Patch) : BftResult Patch :=
  match consensusValue with
  | none => B.nextRound true s
  | some consensusValue =>
      if consensusValue.blockHash = some .reject then B.nextRound true s
      else
        let s := { s with state := .COMMIT }
        match s.block, consensusValue.blockHash with
        -- a missed block: just wait a timeout to keep synced
        | none, _ => { state := s }
        | some _, none => { state := s, error := some "blockHash is undefined" }
        | some block, some blockHash =>
            if blockHash = .hash (block.hash F) then
              match B.getSignaturesForBlock F s.prevViews (block.hash F) with
              | .error error => { state := s, error := some error }
              | .ok none => B.nextRound true s
              | .ok (some []) => B.nextRound true s
              | .ok (some (sig :: arrSignatures)) =>
                  let block := block.addWitnessSignatures (sig :: arrSignatures)
                  { state := { s with block := some block }
                    emitted := [.commitBlock block s.patch] }
            else { state := s }

/-- `_stateChange`, called with a value when consensus is reached and without one
when the timer expires. -/
def stateChange (F : Factory) (B : BftSetup) (consensusValue : Option Content)
    (s : BftState Patch) : BftResult Patch :=
  let s := match consensusValue with
    | some value => { s with state := value.state }
    | none => s
  match s.state with
  | .ROUND_CHANGE => B.roundChangeHandler consensusValue s
  | .BLOCK => B.blockStateHandler false s
  | .VOTE_BLOCK => B.voteStateHandler F consensusValue s
  | .COMMIT => B.nextRound true s

end BftSetup

/-! ### Events -/

/-- The witness messages that `processMessage` distinguishes. -/
inductive WitnessPayload where
  | content (content : Content)
  | other
deriving DecidableEq, Repr

/-- A witness message with the address recovered from its signature. An exposed
message carries the message of another witness with that witness's own signature. -/
inductive WitnessMessage where
  | common (address : Address) (payload : WitnessPayload)
  | expose (address : Address) (addressI : Address) (payload : WitnessPayload)
deriving DecidableEq, Repr

namespace WitnessMessage

/-- Who sent the message. -/
def senderAddr : WitnessMessage → Address
  | common address _ => address
  | expose address _ _ => address

/-- Who signed the content. -/
def addrI : WitnessMessage → Address
  | common address _ => address
  | expose _ addressI _ => addressI

/-- What was said. -/
def payload : WitnessMessage → WitnessPayload
  | common _ payload => payload
  | expose _ _ payload => payload

end WitnessMessage

namespace BftSetup

variable {Patch : Type}

/-- The state in which `processMessage` calls `runConsensus`, if it gets there. -/
def recordMessage (B : BftSetup) (witnessMsg : WitnessMessage) (s : BftState Patch) :
    Option (BftState Patch) :=
  match witnessMsg.payload with
  | .other => none
  | .content content =>
      if witnessMsg.senderAddr ∈ B.arrAddresses ∧ witnessMsg.addrI ∈ B.arrAddresses then
        some (addViewOfNodeWithAddr witnessMsg.senderAddr witnessMsg.addrI content s)
      else none

/-- `processMessage`. -/
def processMessage (F : Factory) (B : BftSetup) (witnessMsg : WitnessMessage)
    (s : BftState Patch) : BftResult Patch :=
  match witnessMsg.payload with
  | .other => { state := s }
  | .content content =>
      if witnessMsg.senderAddr ∈ B.arrAddresses ∧ witnessMsg.addrI ∈ B.arrAddresses then
        let s := addViewOfNodeWithAddr witnessMsg.senderAddr witnessMsg.addrI content s
        match B.runConsensus s.views with
        | none => { state := s }
        | some value => B.stateChange F (some value) (resetState s)
      else { state := s, error := some "Message from wrong address" }

/-- `processValidBlock`. -/
def processValidBlock (F : Factory) (B : BftSetup) (block : Block) (patch : Patch)
    (s : BftState Patch) : BftResult Patch :=
  if s.state ≠ .BLOCK then { state := s }
  else
    let r := B.blockStateHandler true { s with block := some block, patch := some patch }
    let blockHash := VoteHash.hash (block.hash F)
    { r with
      emitted := r.emitted ++ [.message (.vote (some blockHash) (some (B.sign blockHash)))] }

/-- `invalidBlock`. -/
def invalidBlock (B : BftSetup) (s : BftState Patch) : BftResult Patch :=
  if s.state ≠ .BLOCK then { state := s }
  else
    let r := B.blockStateHandler false { s with block := none }
    { r with
      emitted := r.emitted ++ [.message (.vote (some .reject) (some (B.sign .reject)))] }

/-- `setRoundSeed`. -/
def setRoundSeed (nNewSeed : Nat) (s : BftState Patch) : BftState Patch :=
  { s with rounds := ConciliumDefinition.changeSeed nNewSeed s.rounds }

end BftSetup

/-- What can happen to a `BftConsensus`. -/
inductive BftEvent (Patch : Type) where
  | message (witnessMsg : WitnessMessage)
  | timeout
  | validBlock (block : Block) (patch : Patch)
  | invalidBlock
  | roundSeed (nNewSeed : Nat)

namespace BftSetup

variable {Patch : Type}

/-- Handle one event. -/
def handle (F : Factory) (B : BftSetup) (s : BftState Patch) : BftEvent Patch → BftResult Patch
  | .message witnessMsg => B.processMessage F witnessMsg s
  | .timeout => B.stateChange F none s
  | .validBlock block patch => B.processValidBlock F block patch s
  | .invalidBlock => B.invalidBlock s
  | .roundSeed nNewSeed => { state := setRoundSeed nNewSeed s }

/-- The value that `runConsensus` returns while an event is handled. -/
def consensusOn (B : BftSetup) (s : BftState Patch) : BftEvent Patch → Option Content
  | .message witnessMsg => (B.recordMessage witnessMsg s).bind fun s => B.runConsensus s.views
  | _ => none

/-- The state after a list of events. -/
def run (F : Factory) (B : BftSetup) (s : BftState Patch) : List (BftEvent Patch) →
    BftState Patch
  | [] => s
  | e :: rest => run F B (B.handle F s e).state rest

/-- Everything emitted during a list of events. -/
def emittedIn (F : Factory) (B : BftSetup) (s : BftState Patch) : List (BftEvent Patch) →
    List (BftEmit Patch)
  | [] => []
  | e :: rest => (B.handle F s e).emitted ++ emittedIn F B (B.handle F s e).state rest

/-- The values on which consensus was reached during a list of events, in order. -/
def consensusLog (F : Factory) (B : BftSetup) (s : BftState Patch) : List (BftEvent Patch) →
    List Content
  | [] => []
  | e :: rest => (B.consensusOn s e).toList ++ consensusLog F B (B.handle F s e).state rest

end BftSetup

end CilCore
