import CilCore.Node.BftCommit
import CilCore.Node.BftSafety

/-!
# Rounds that go well

If honest members weigh a quorum, say the same in every exchange, and hear one another
before the next exchange begins, then a witness reaches exactly one consensus in each
exchange, in whatever order the messages of the exchange come and whatever the other
members say. A round of two such exchanges commits the block of the round.
-/

namespace CilCore

open WeightedQuorum

namespace BftSetup

variable {Patch : Type}

/-- Honest members weigh a quorum, a quorum is more than half, and there are several members. -/
structure HonestQuorum (B : BftSetup) (honest : Address → Prop) [DecidablePred honest] :
    Prop where
  quorum : B.concilium.getQuorum ≤ weightOf B.concilium.weight honest B.arrAddresses
  half : B.totalWeight < 2 * B.concilium.getQuorum
  several : ¬B.Alone

/-- The messages of one exchange: what honest members sign is up to its inner signature one
value, and every honest member says what it heard from every honest member. -/
structure Exchange (B : BftSetup) (honest : Address → Prop) (value : Content)
    (messages : List WitnessMessage) : Prop where
  agreed : ∀ m ∈ messages, ∀ content, m.payload = .content content → honest m.addrI →
    content.calcDataHash = value
  heard : ∀ addrJ ∈ B.arrAddresses, ∀ addrI ∈ B.arrAddresses, honest addrJ → honest addrI →
    ∃ m ∈ messages, ∃ content, m.payload = .content content ∧ m.senderAddr = addrJ ∧
      m.addrI = addrI

/-- What honest members are known to have said satisfies a predicate. -/
def Heard (honest : Address → Prop) (P : Content → Prop) (views : Views) : Prop :=
  ∀ addrJ addrI content, honest addrI → views addrJ addrI = some content →
    P content.calcDataHash

/-! ### Runs in pieces -/

section Append

variable (F : Factory) (B : BftSetup) (s : BftState Patch) (events later : List (BftEvent Patch))

theorem run_append : B.run F s (events ++ later) = B.run F (B.run F s events) later := by
  induction events generalizing s with
  | nil => rfl
  | cons e rest ih => exact ih _

theorem consensusLog_append :
    B.consensusLog F s (events ++ later) =
      B.consensusLog F s events ++ B.consensusLog F (B.run F s events) later := by
  induction events generalizing s with
  | nil => rfl
  | cons e rest ih => simp only [List.cons_append, consensusLog, run, ih, List.append_assoc]

theorem emittedIn_append :
    B.emittedIn F s (events ++ later) =
      B.emittedIn F s events ++ B.emittedIn F (B.run F s events) later := by
  induction events generalizing s with
  | nil => rfl
  | cons e rest ih => simp only [List.cons_append, emittedIn, run, ih, List.append_assoc]

end Append

/-! ### No consensus comes twice -/

section Distinct

variable {F : Factory} {B : BftSetup} {s : BftState Patch}

/-- What an event delivers: who says who signed what, up to the inner signature. -/
def delivered : BftEvent Patch → Option ((Address × Address) × Content)
  | .message witnessMsg =>
      match witnessMsg.payload with
      | .content content =>
          some ((witnessMsg.senderAddr, witnessMsg.addrI), content.calcDataHash)
      | .other => none
  | _ => none

theorem exchangeCell_eq_bind (value : Content) (e : BftEvent Patch) :
    exchangeCell (·.calcDataHash = value) e =
      (delivered e).bind fun d => if d.2 = value then some d.1 else none := by
  cases e with
  | message m =>
      simp only [exchangeCell, delivered]
      cases m.payload with
      | content content => rfl
      | other => rfl
  | timeout => rfl
  | validBlock block patch => rfl
  | invalidBlock => rfl
  | roundSeed nNewSeed => rfl

theorem nodup_exchangeCells {events : List (BftEvent Patch)}
    (h : (events.filterMap delivered).Nodup) (value : Content) :
    (events.filterMap (exchangeCell (·.calcDataHash = value))).Nodup := by
  have hcells : events.filterMap (exchangeCell (·.calcDataHash = value)) =
      (events.filterMap delivered).filterMap fun d => if d.2 = value then some d.1 else none := by
    rw [List.filterMap_filterMap]
    exact List.filterMap_congr fun e _ => exchangeCell_eq_bind value e
  rw [hcells]
  refine h.filterMap fun d d' cell hd hd' => ?_
  rw [Option.mem_def, Option.ite_none_right_eq_some] at hd hd'
  obtain ⟨hvalue, hcell⟩ := hd
  obtain ⟨hvalue', hcell'⟩ := hd'
  exact Prod.ext (Option.some.inj (hcell.trans hcell'.symm)) (hvalue.trans hvalue'.symm)

/-- Every value is delivered at most once for each pair of members, and nothing that is still
to be delivered is recorded. -/
def Unrepeated (views : Views) (events : List (BftEvent Patch)) : Prop :=
  ∀ value, (events.filterMap (exchangeCell (·.calcDataHash = value))).Nodup ∧
    CellsUnused (·.calcDataHash = value) views
      (events.filterMap (exchangeCell (·.calcDataHash = value)))

theorem Unrepeated.next {views : Views} {e : BftEvent Patch} {rest : List (BftEvent Patch)}
    (h : Unrepeated views (e :: rest)) : Unrepeated views rest := by
  intro value
  obtain ⟨hnodup, hunused⟩ := h value
  have hsublist : List.Sublist (rest.filterMap (exchangeCell (·.calcDataHash = value)))
      ((e :: rest).filterMap (exchangeCell (·.calcDataHash = value))) :=
    (List.sublist_cons_self e rest).filterMap _
  exact ⟨hnodup.sublist hsublist, fun cell hcell => hunused cell (hsublist.subset hcell)⟩

theorem Unrepeated.notMem {views : Views} {e : BftEvent Patch} {rest : List (BftEvent Patch)}
    (h : Unrepeated views (e :: rest)) {value : Content} {cell : Address × Address}
    (hcell : exchangeCell (·.calcDataHash = value) e = some cell) :
    cell ∉ rest.filterMap (exchangeCell (·.calcDataHash = value)) := by
  have hnodup := (h value).1
  rw [List.filterMap_cons_some hcell] at hnodup
  exact (List.nodup_cons.mp hnodup).1

theorem Unrepeated.handle {e : BftEvent Patch} {rest : List (BftEvent Patch)}
    (h : Unrepeated s.views (e :: rest)) : Unrepeated (B.handle F s e).state.views rest :=
  fun value => ⟨(h.next value).1,
    cellsUnused_handle F B (h.next value).2 fun _ hcell => h.notMem hcell⟩

/-- If no message comes twice then no consensus does. -/
theorem distinct_consensusLog (hhalf : B.totalWeight < 2 * B.concilium.getQuorum)
    {events : List (BftEvent Patch)} (h : Unrepeated s.views events) :
    (B.consensusLog F s events).Pairwise (·.calcDataHash ≠ ·.calcDataHash) := by
  induction events generalizing s with
  | nil => exact List.Pairwise.nil
  | cons e rest ih =>
      rw [consensusLog, List.pairwise_append]
      refine ⟨by cases B.consensusOn s e <;> simp, ih h.handle, ?_⟩
      intro value hvalue later hlater
      rw [Option.mem_toList] at hvalue
      rcases B.handle_views F s e with
        ⟨-, hnone⟩ | ⟨m, content, rfl, hpayload, -, -, hconsensus, hafter⟩
      · rw [hnone] at hvalue
        cases hvalue
      · rw [hvalue] at hconsensus hafter
        have hreset : (B.handle F s (.message m)).state.views = fun _ _ => none := hafter
        -- the consensus has used cells that are not delivered again
        have hunused : CellsUnused (·.calcDataHash = value.calcDataHash)
            (addViewOfNodeWithAddr m.senderAddr m.addrI content s).views
            (rest.filterMap (exchangeCell (·.calcDataHash = value.calcDataHash))) := by
          intro cell hmem said hcell hsaid
          have hcases : s.views cell.1 cell.2 = some said ∨
              exchangeCell (·.calcDataHash = value.calcDataHash)
                (.message m : BftEvent Patch) = some cell :=
            cell_addViewOfNodeWithAddr hpayload hcell hsaid
          rcases hcases with hold | hdelivered
          · exact (h.next value.calcDataHash).2 cell hmem said hold hsaid
          · exact h.notMem hdelivered hmem
        have hnone : ∀ other ∈ B.consensusLog F (B.handle F s (.message m)).state rest,
            ¬other.calcDataHash = value.calcDataHash := by
          refine consensusLog_after F B ?_ hhalf hconsensus.symm ?_ _ rest ?_ hunused
          · intro said
            rw [Content.calcDataHash_calcDataHash]
          · rfl
          · intro _ _ _ _ _ _ hcell
            rw [hreset] at hcell
            cases hcell
        exact Ne.symm (hnone later hlater)

end Distinct

/-! ### Majorities of honest members -/

section Majorities

variable {B : BftSetup} {honest : Address → Prop} [DecidablePred honest] {views : Views}
  {value : Content}

theorem HonestQuorum.quorum_pos (hq : B.HonestQuorum honest) : 0 < B.concilium.getQuorum := by
  have htotal : 0 ≤ B.totalWeight := by
    refine List.sum_nonneg fun w hw => ?_
    obtain ⟨a, -, rfl⟩ := List.mem_map.mp hw
    simpa using B.concilium.weight_nonneg a
  linarith [hq.half]

/-- What a quorum of members says is the majority. -/
theorem agrees_majority_of_quorum (hpos : 0 < B.concilium.getQuorum)
    (hhalf : B.totalWeight < 2 * B.concilium.getQuorum) {said : Address → Option Content}
    (h : B.concilium.getQuorum ≤ weightOf B.concilium.weight
      (fun addr => Agrees value (addr, said addr)) B.arrAddresses) (addrI : Address) :
    Agrees value (addrI, majority B.concilium (B.arrAddresses.map fun addr => (addr, said addr))) := by
  have hweight : ∀ x ∈ reported (B.arrAddresses.map fun addr => (addr, said addr)),
      0 < B.concilium.weight x.1 := by
    refine reported_pos fun x hx => ?_
    obtain ⟨addr, haddr, rfl⟩ := List.mem_map.mp hx
    exact B.concilium.weight_pos (B.addresses_perm.mem_iff.mp haddr)
  cases hmajority : majority B.concilium (B.arrAddresses.map fun addr => (addr, said addr)) with
  | none =>
      obtain ⟨addr, haddr, hsaid⟩ := exists_of_weightOf_pos (hpos.trans_le h)
      obtain ⟨content, hcontent, hclass⟩ := Option.map_eq_some_iff.mp hsaid
      have hvoter : (addr, content) ∈ reported (B.arrAddresses.map fun addr => (addr, said addr)) :=
        mem_reported.mpr (List.mem_map.mpr ⟨addr, haddr, by rw [← hcontent]⟩)
      have hwinner : (Plurality.winner voteClass (fun x => B.concilium.weight x.1)
          B.concilium.getQuorum (reported (B.arrAddresses.map fun addr => (addr, said addr)))).isSome =
            true := by
        refine Plurality.isSome_winner_iff.mpr ⟨(addr, content), hvoter, ?_⟩
        rw [voteClass, hclass, ← support_eq, support, weightOf_map]
        exact h
      rw [majority_eq_majorityOf, majorityOf_eq_winner _ hweight, Option.map_eq_none_iff] at hmajority
      rw [hmajority] at hwinner
      cases hwinner
  | some winner =>
      have hwins := (majority_eq_some hmajority).2.2
      rw [support, weightOf_map] at hwins
      have hsum : weightOf B.concilium.weight (fun _ => True) B.arrAddresses <
          weightOf B.concilium.weight (fun addr => Agrees value (addr, said addr)) B.arrAddresses +
            weightOf B.concilium.weight
              (fun addr => Agrees winner.calcDataHash (addr, said addr)) B.arrAddresses := by
        refine hhalf.trans_le ?_
        rw [two_mul]
        exact add_le_add h hwins
      obtain ⟨addr, -, hvalue, hwinner⟩ :=
        exists_common (fun a _ => B.concilium.weight_nonneg a) hsum
      exact hwinner.symm.trans hvalue

/-- Whatever a consensus is on, some honest member has said it. -/
theorem HonestQuorum.heard_of_consensus (hq : B.HonestQuorum honest)
    (h : B.runConsensus views = some value) :
    ∃ addrJ addrI content, honest addrI ∧ views addrJ addrI = some content ∧
      content.calcDataHash = value.calcDataHash := by
  have hsum : weightOf B.concilium.weight (fun _ => True) B.arrAddresses <
      weightOf B.concilium.weight honest B.arrAddresses +
        weightOf B.concilium.weight (B.ColumnAgrees views value.calcDataHash) B.arrAddresses := by
    refine hq.half.trans_le ?_
    rw [two_mul]
    exact add_le_add hq.quorum (exists_origins hq.several h).2
  obtain ⟨addrI, -, hhonest, hcolumn⟩ :=
    exists_common (fun a _ => B.concilium.weight_nonneg a) hsum
  obtain ⟨winner, hwinner, hclass⟩ := Option.map_eq_some_iff.mp hcolumn
  obtain ⟨⟨addrJ, -, hcell⟩, -⟩ := exists_reporters hwinner
  exact ⟨addrJ, addrI, winner, hhonest, hcell, hclass⟩

theorem HonestQuorum.runConsensus_nothing (hq : B.HonestQuorum honest) :
    B.runConsensus (fun _ _ => none) = none := by
  cases h : B.runConsensus (fun _ _ => none) with
  | none => rfl
  | some value =>
      obtain ⟨addrJ, addrI, said, -, hcell, -⟩ := hq.heard_of_consensus h
      cases hcell

/-- When all honest members are heard from all honest members, there is a consensus. -/
theorem HonestQuorum.exists_consensus (hq : B.HonestQuorum honest)
    (h : ∀ addrJ ∈ B.arrAddresses, ∀ addrI ∈ B.arrAddresses, honest addrJ → honest addrI →
      CellAgrees views value addrI addrJ) : B.runConsensus views ≠ none := by
  have hcolumns : B.concilium.getQuorum ≤
      weightOf B.concilium.weight (B.ColumnAgrees views value) B.arrAddresses := by
    refine hq.quorum.trans (weightOf_mono (fun a _ => B.concilium.weight_nonneg a) ?_)
    intro addrI hmem hhonest
    refine agrees_majority_of_quorum hq.quorum_pos hq.half (hq.quorum.trans ?_) addrI
    exact weightOf_mono (fun a _ => B.concilium.weight_nonneg a)
      fun addrJ hJ hhonestJ => h addrJ hJ addrI hmem hhonestJ hhonest
  have hmajority : Agrees value (0, majority B.concilium (B.arrAddresses.map fun addrI =>
      (addrI, majority B.concilium (B.witnessData views addrI)))) :=
    agrees_majority_of_quorum hq.quorum_pos hq.half hcolumns 0
  rw [runConsensus_of_not_alone hq.several]
  intro hnone
  rw [Agrees, hnone] at hmajority
  cases hmajority

end Majorities

/-! ### One exchange -/

section Exchanges

variable {F : Factory} {B : BftSetup} {honest : Address → Prop} [DecidablePred honest]
  {s : BftState Patch} {m : WitnessMessage} {messages : List WitnessMessage}
  {value : Content} {P : Content → Prop}

omit [DecidablePred honest] in
theorem heard_nothing : Heard honest P (fun _ _ => none) := by
  intro addrJ addrI content _ h
  cases h

/-- One more message keeps what is known of honest members, and a consensus is on that. -/
theorem heard_handle (hq : B.HonestQuorum honest) (hheard : Heard honest P s.views)
    (hm : ∀ content, m.payload = .content content → honest m.addrI → P content.calcDataHash) :
    Heard honest P (B.handle F s (.message m)).state.views ∧
      ∀ value, B.consensusOn s (.message m) = some value → P value.calcDataHash := by
  rcases B.handle_views F s (.message m) with ⟨hsame, hnone⟩ |
    ⟨m', content, hm', hpayload, -, -, hconsensus, hafter⟩
  · rw [hsame, hnone]
    exact ⟨hheard, fun value h => by cases h⟩
  · cases hm'
    have hadded : Heard honest P
        (addViewOfNodeWithAddr m.senderAddr m.addrI content s).views := by
      intro addrJ addrI said hhonest hcell
      rw [addViewOfNodeWithAddr_views] at hcell
      split at hcell
      next heq =>
        cases hcell
        exact hm content hpayload (heq.2 ▸ hhonest)
      next => exact hheard addrJ addrI said hhonest hcell
    refine ⟨?_, fun value h => ?_⟩
    · rw [hafter]
      split
      · exact heard_nothing
      · exact hadded
    · rw [hconsensus] at h
      obtain ⟨addrJ, addrI, said, hhonest, hcell, hclass⟩ := hq.heard_of_consensus h
      exact hclass ▸ hadded addrJ addrI said hhonest hcell

theorem heard_run (hq : B.HonestQuorum honest) (hheard : Heard honest P s.views)
    (hm : ∀ m ∈ messages, ∀ content, m.payload = .content content → honest m.addrI →
      P content.calcDataHash) :
    Heard honest P (B.run F s (messages.map .message)).views ∧
      ∀ value ∈ B.consensusLog F s (messages.map .message), P value.calcDataHash := by
  induction messages generalizing s with
  | nil => exact ⟨hheard, fun value h => by cases h⟩
  | cons m rest ih =>
      rw [List.forall_mem_cons] at hm
      obtain ⟨hnext, hvalue⟩ := heard_handle (F := F) hq hheard hm.1
      obtain ⟨hend, hlog⟩ := ih hnext hm.2
      refine ⟨hend, fun value h => ?_⟩
      rw [List.map_cons, consensusLog, List.mem_append, Option.mem_toList] at h
      rcases h with hfirst | hlater
      · exact hvalue value hfirst
      · exact hlog value hlater

/-- No consensus is left behind: whatever is recorded is counted at once. -/
theorem quiet_handle (hq : B.HonestQuorum honest) (hquiet : B.runConsensus s.views = none)
    (e : BftEvent Patch) : B.runConsensus (B.handle F s e).state.views = none := by
  rcases B.handle_views F s e with ⟨hsame, -⟩ | ⟨m, content, -, -, -, -, hconsensus, hafter⟩
  · rwa [hsame]
  · rw [hafter]
    split
    next => exact hq.runConsensus_nothing
    next hnone => rwa [hconsensus, Option.not_isSome_iff_eq_none] at hnone

theorem quiet_run (hq : B.HonestQuorum honest) (hquiet : B.runConsensus s.views = none)
    (events : List (BftEvent Patch)) : B.runConsensus (B.run F s events).views = none := by
  induction events generalizing s with
  | nil => exact hquiet
  | cons e rest ih => exact ih (quiet_handle hq hquiet e)

/-- A message of a member is recorded, unless a consensus resets the views. -/
theorem views_of_recorded {content : Content} (hpayload : m.payload = .content content)
    (hJ : m.senderAddr ∈ B.arrAddresses) (hI : m.addrI ∈ B.arrAddresses)
    (hnone : B.consensusOn s (.message m) = none) :
    (B.handle F s (.message m)).state.views =
      (addViewOfNodeWithAddr m.senderAddr m.addrI content s).views := by
  simp only [consensusOn, recordMessage, hpayload, hJ, hI, and_self, if_true,
    Option.bind_some] at hnone
  simp [handle, processMessage, hpayload, hJ, hI, hnone]

omit [DecidablePred honest] in
theorem cellAgrees_handle {addrJ addrI : Address}
    (hm : ∀ content, m.payload = .content content → honest m.addrI → content.calcDataHash = value)
    (hnone : B.consensusOn s (.message m) = none) (hhonest : honest addrI)
    (h : CellAgrees s.views value addrI addrJ) :
    CellAgrees (B.handle F s (.message m)).state.views value addrI addrJ := by
  rcases B.handle_views F s (.message m) with ⟨hsame, -⟩ | ⟨m', content, hm', hpayload, -, -, -, hafter⟩
  · rwa [hsame]
  · cases hm'
    rw [hafter, hnone, Option.isSome_none, if_neg Bool.false_ne_true, CellAgrees, Agrees,
      addViewOfNodeWithAddr_views]
    split
    next heq => rw [Option.map_some, hm content hpayload (heq.2 ▸ hhonest)]
    next => exact h

omit [DecidablePred honest] in
/-- Without a consensus what honest members said stays recorded. -/
theorem cellAgrees_run
    (hm : ∀ m ∈ messages, ∀ content, m.payload = .content content → honest m.addrI →
      content.calcDataHash = value)
    (hnone : B.consensusLog F s (messages.map .message) = []) {addrJ addrI : Address}
    (hJ : addrJ ∈ B.arrAddresses) (hI : addrI ∈ B.arrAddresses) (hhonest : honest addrI)
    (h : CellAgrees s.views value addrI addrJ ∨
      ∃ m ∈ messages, ∃ content, m.payload = .content content ∧ m.senderAddr = addrJ ∧
        m.addrI = addrI) :
    CellAgrees (B.run F s (messages.map .message)).views value addrI addrJ := by
  induction messages generalizing s with
  | nil =>
      rcases h with hcell | ⟨m, hm, -⟩
      · exact hcell
      · cases hm
  | cons m rest ih =>
      rw [List.forall_mem_cons] at hm
      rw [List.map_cons, consensusLog, List.append_eq_nil_iff, Option.toList_eq_nil_iff] at hnone
      refine ih hm.2 hnone.2 ?_
      rcases h with hcell | ⟨m', hm', content, hpayload, hsender, horigin⟩
      · exact .inl (cellAgrees_handle hm.1 hnone.1 hhonest hcell)
      · rcases List.mem_cons.mp hm' with rfl | hlater
        · refine .inl ?_
          subst hsender horigin
          rw [CellAgrees, Agrees, views_of_recorded hpayload hJ hI hnone.1,
            addViewOfNodeWithAddr_views, if_pos ⟨rfl, rfl⟩, Option.map_some,
            hm.1 content hpayload hhonest]
        · exact .inr ⟨m', hlater, content, hpayload, hsender, horigin⟩

/-- After a consensus nothing older is known of honest members. -/
theorem heard_of_consensusLog (hq : B.HonestQuorum honest)
    (hm : ∀ m ∈ messages, ∀ content, m.payload = .content content → honest m.addrI →
      content.calcDataHash = value)
    (hsome : B.consensusLog F s (messages.map .message) ≠ []) :
    Heard honest (· = value) (B.run F s (messages.map .message)).views := by
  induction messages generalizing s with
  | nil => exact absurd rfl hsome
  | cons m rest ih =>
      rw [List.forall_mem_cons] at hm
      cases hvalue : B.consensusOn s (.message m) with
      | none =>
          refine ih hm.2 ?_
          rwa [List.map_cons, consensusLog, hvalue] at hsome
      | some consensus =>
          have hreset : (B.handle F s (.message m)).state.views = fun _ _ => none :=
            handle_views_of_consensus (by rw [hvalue]; rfl)
          have hstart : Heard honest (· = value) (B.handle F s (.message m)).state.views := by
            rw [hreset]
            exact heard_nothing
          exact (heard_run hq hstart hm.2).1

/-- **One exchange, one consensus.** If nothing that was heard before reaches consensus any
more, and nothing reaches it twice, an exchange ends with one consensus, on its value. -/
theorem exchange_consensus (hq : B.HonestQuorum honest)
    (hexchange : B.Exchange honest value messages) (hheard : Heard honest P s.views)
    (hquiet : B.runConsensus s.views = none)
    (hpast : ∀ consensus ∈ B.consensusLog F s (messages.map .message),
      ¬P consensus.calcDataHash)
    (hdistinct : (B.consensusLog F s (messages.map .message)).Pairwise
      (·.calcDataHash ≠ ·.calcDataHash)) :
    (∃ consensus, B.consensusLog F s (messages.map .message) = [consensus] ∧
        consensus.calcDataHash = value) ∧
      Heard honest (· = value) (B.run F s (messages.map .message)).views := by
  have hvalues : ∀ consensus ∈ B.consensusLog F s (messages.map .message),
      consensus.calcDataHash = value := by
    have hboth := (heard_run (P := fun content => P content ∨ content = value) (F := F) hq
      (fun addrJ addrI content hhonest hcell => .inl (hheard addrJ addrI content hhonest hcell))
      fun m hm content hpayload hhonest => .inr (hexchange.agreed m hm content hpayload hhonest)).2
    exact fun consensus hmem => (hboth consensus hmem).resolve_left (hpast consensus hmem)
  have hsome : B.consensusLog F s (messages.map .message) ≠ [] := by
    intro hnone
    have hcells : ∀ addrJ ∈ B.arrAddresses, ∀ addrI ∈ B.arrAddresses, honest addrJ →
        honest addrI →
        CellAgrees (B.run F s (messages.map .message)).views value addrI addrJ :=
      fun addrJ hJ addrI hI hhonestJ hhonestI =>
        cellAgrees_run hexchange.agreed hnone hJ hI hhonestI
          (.inr (hexchange.heard addrJ hJ addrI hI hhonestJ hhonestI))
    exact hq.exists_consensus hcells (quiet_run hq hquiet (messages.map .message))
  refine ⟨?_, heard_of_consensusLog hq hexchange.agreed hsome⟩
  cases hlog : B.consensusLog F s (messages.map .message) with
  | nil => exact absurd hlog hsome
  | cons consensus rest =>
      rw [hlog] at hvalues hdistinct
      rw [List.forall_mem_cons] at hvalues
      rw [List.pairwise_cons] at hdistinct
      have hlast : rest = [] := List.eq_nil_iff_forall_not_mem.mpr fun other hother =>
        hdistinct.1 other hother (hvalues.1.trans (hvalues.2 other hother).symm)
      exact ⟨consensus, by rw [hlast], hvalues.1⟩

end Exchanges

/-! ### What an exchange does -/

section Consensus

variable {F : Factory} {B : BftSetup} {s : BftState Patch} {m : WitnessMessage}
  {messages : List WitnessMessage} {consensus : Content}

/-- A message that brings no consensus is recorded at most. -/
theorem handle_of_no_consensus (h : B.consensusOn s (.message m) = none) :
    (∃ views, (B.handle F s (.message m)).state = { s with views }) ∧
      (B.handle F s (.message m)).emitted = [] := by
  cases hpayload : m.payload with
  | other =>
      simp only [handle, processMessage, hpayload]
      exact ⟨⟨s.views, rfl⟩, trivial⟩
  | content content =>
      by_cases hmember : m.senderAddr ∈ B.arrAddresses ∧ m.addrI ∈ B.arrAddresses
      · simp only [consensusOn, recordMessage, hpayload, hmember, and_self, if_true,
          Option.bind_some] at h
        simp only [handle, processMessage, hpayload, hmember, and_self, if_true, h]
        exact ⟨⟨_, rfl⟩, trivial⟩
      · simp only [handle, processMessage, hpayload, if_neg hmember]
        exact ⟨⟨s.views, rfl⟩, trivial⟩

theorem run_of_no_consensus (h : B.consensusLog F s (messages.map .message) = []) :
    (∃ views, B.run F s (messages.map .message) = { s with views }) ∧
      B.emittedIn F s (messages.map .message) = [] := by
  induction messages generalizing s with
  | nil => exact ⟨⟨s.views, rfl⟩, rfl⟩
  | cons m rest ih =>
      rw [List.map_cons, consensusLog, List.append_eq_nil_iff, Option.toList_eq_nil_iff] at h
      obtain ⟨⟨views, hstate⟩, hemitted⟩ := handle_of_no_consensus (F := F) h.1
      obtain ⟨⟨later, hrun⟩, hlater⟩ := ih h.2
      rw [hstate] at hrun
      refine ⟨⟨later, ?_⟩, ?_⟩
      · rw [List.map_cons, run, hstate, hrun]
      · rw [List.map_cons, emittedIn, hemitted, hlater]
        rfl

/-- An exchange with one consensus does, but for the views, what the message does that
brings it. -/
theorem run_of_consensus (h : B.consensusLog F s (messages.map .message) = [consensus]) :
    ∃ earlier m later, messages = earlier ++ m :: later ∧
      (∃ views, B.run F s (earlier.map .message) = { s with views }) ∧
      B.consensusOn (B.run F s (earlier.map .message)) (.message m) = some consensus ∧
      (∃ views, B.run F s (messages.map .message) =
        { (B.handle F (B.run F s (earlier.map .message)) (.message m)).state with views }) ∧
      B.emittedIn F s (messages.map .message) =
        (B.handle F (B.run F s (earlier.map .message)) (.message m)).emitted := by
  induction messages generalizing s with
  | nil => cases h
  | cons m rest ih =>
      rw [List.map_cons, consensusLog] at h
      cases hvalue : B.consensusOn s (.message m) with
      | none =>
          rw [hvalue] at h
          obtain ⟨earlier, last, later, rfl, ⟨before, hbefore⟩, hlast, ⟨after, hafter⟩, hemitted⟩ :=
            ih h
          obtain ⟨⟨views, hstate⟩, hquiet⟩ := handle_of_no_consensus (F := F) hvalue
          refine ⟨m :: earlier, last, later, rfl, ⟨before, ?_⟩, hlast, ⟨after, hafter⟩, ?_⟩
          · rw [List.map_cons, run, hbefore, hstate]
          · rw [List.map_cons, emittedIn, hquiet, List.nil_append]
            exact hemitted
      | some value =>
          rw [hvalue, Option.toList_some, List.singleton_append, List.cons.injEq] at h
          obtain ⟨⟨views, hrun⟩, hquiet⟩ := run_of_no_consensus h.2
          refine ⟨[], m, rest, rfl, ⟨s.views, rfl⟩, hvalue.trans (congrArg some h.1), ⟨views, hrun⟩, ?_⟩
          rw [List.map_cons, emittedIn, hquiet, List.append_nil]
          rfl

/-- The outcome of a message that brings a consensus. -/
theorem handle_of_consensus (h : B.consensusOn s (.message m) = some consensus) :
    ∃ recorded, B.recordMessage m s = some recorded ∧ recorded.block = s.block ∧
      B.handle F s (.message m) = B.stateChange F (some consensus) (resetState recorded) := by
  simp only [consensusOn, recordMessage] at h ⊢
  cases hpayload : m.payload with
  | other => simp [hpayload] at h
  | content content =>
      by_cases hmember : m.senderAddr ∈ B.arrAddresses ∧ m.addrI ∈ B.arrAddresses
      · simp only [hpayload, if_pos hmember, Option.bind_some] at h ⊢
        refine ⟨_, rfl, rfl, ?_⟩
        simp only [handle, processMessage, hpayload, if_pos hmember, h]
      · simp [hpayload, hmember] at h

/-- A consensus on a round opens it for a block. -/
theorem handle_of_round {roundNo : Option Nat}
    (h : B.consensusOn s (.message m) = some (.nextRound roundNo)) :
    (B.handle F s (.message m)).state.state = .BLOCK ∧
      ∀ block patch, .commitBlock block patch ∉ (B.handle F s (.message m)).emitted := by
  obtain ⟨recorded, -, -, hhandle⟩ := handle_of_consensus (F := F) h
  rw [hhandle, stateChange]
  refine ⟨?_, fun block patch => commitBlock_notMem_roundChangeHandler⟩
  simp only [Content.state, roundChangeHandler, reduceCtorEq, if_false]
  split <;> rfl

theorem length_emitted_voteStateHandler (value : Content) :
    (B.voteStateHandler F (some value) s).emitted.length ≤ 1 := by
  simp only [voteStateHandler]
  split
  · simp [nextRound]
  · split
    · simp
    · simp
    · split
      · split <;> simp [nextRound]
      · simp

/-- A consensus on the stored block commits it and does nothing else. -/
theorem handle_of_votes {block : Block} {signature : Option Signature} (hseveral : ¬B.Alone)
    (hblock : s.block = some block)
    (h : B.consensusOn s (.message m) =
      some (.vote (some (.hash (block.hash F))) signature))
    (hvalid : ∀ recorded, B.recordMessage m s = some recorded →
      ValidVotes F recorded.views (block.hash F)) :
    ∃ arrSignatures, (B.handle F s (.message m)).emitted =
      [.commitBlock (block.addWitnessSignatures arrSignatures) s.patch] := by
  obtain ⟨arrSignatures, hcommit⟩ :=
    commitBlock_of_consensus (fun halone => absurd halone hseveral) hblock h hvalid
  obtain ⟨recorded, -, -, hhandle⟩ := handle_of_consensus (F := F) h
  have hlength : (B.handle F s (.message m)).emitted.length ≤ 1 := by
    rw [hhandle, stateChange]
    exact length_emitted_voteStateHandler _
  obtain ⟨emitted, hone⟩ :=
    List.length_eq_one_iff.mp (le_antisymm hlength (List.length_pos_of_mem hcommit))
  rw [hone, List.mem_singleton] at hcommit
  exact ⟨arrSignatures, by rw [hone, hcommit]⟩

end Consensus

end BftSetup

/-! ### Rounds -/

/-- What a witness hears in one round: members ask for the round, its block arrives and is
valid, members vote for the block, and the timer expires. -/
structure BftRound (Patch : Type) where
  roundNo : Nat
  block : Block
  patch : Patch
  changes : List WitnessMessage
  votes : List WitnessMessage

namespace BftRound

variable {Patch : Type}

/-- The events of a round, in order. -/
def events (round : BftRound Patch) : List (BftEvent Patch) :=
  round.changes.map .message ++
    (.validBlock round.block round.patch :: (round.votes.map .message ++ [.timeout]))

/-- Honest members ask for the same round and vote for its block, and hear one another. -/
structure GoesWell (F : Factory) (B : BftSetup) (honest : Address → Prop)
    (round : BftRound Patch) : Prop where
  changes : B.Exchange honest (.nextRound (some round.roundNo)) round.changes
  votes : B.Exchange honest (.vote (some (.hash (round.block.hash F))) none) round.votes

end BftRound

/-- A vote for a block carries its author's signature of the hash. -/
def ProperlySigned (F : Factory) (addrI : Address) (content : Content) : Prop :=
  ∀ hash signature, content = .vote (some (.hash hash)) signature →
    ∃ sig, signature = some sig ∧ F.recoverAddress hash sig = .ok addrI

/-- The block that an emitted event commits. -/
def BftEmit.committed {Patch : Type} : BftEmit Patch → Option (Block × Option Patch)
  | .commitBlock block patch => some (block, patch)
  | _ => none

namespace BftSetup

variable {Patch : Type}

section Rounds

variable {F : Factory} {B : BftSetup} {honest : Address → Prop} [DecidablePred honest]
  {s : BftState Patch} {P : Content → Prop}

/-- What a witness knows between two rounds. Nothing that is left over can still reach a
consensus, because later events only repeat what is known not to. -/
structure BetweenRounds (F : Factory) (B : BftSetup) (honest : Address → Prop)
    (P : Content → Prop) (s : BftState Patch) (later : List (BftEvent Patch)) : Prop where
  heard : Heard honest P s.views
  quiet : B.runConsensus s.views = none
  signed : AuthenticViews (ProperlySigned F) s.views
  past : ∀ consensus ∈ B.consensusLog F s later, ¬P consensus.calcDataHash
  distinct : (B.consensusLog F s later).Pairwise (·.calcDataHash ≠ ·.calcDataHash)

theorem committed_of_notMem {emitted : List (BftEmit Patch)}
    (h : ∀ block patch, .commitBlock block patch ∉ emitted) :
    emitted.filterMap BftEmit.committed = [] := by
  rw [List.filterMap_eq_nil_iff]
  intro e he
  cases e with
  | message content => rfl
  | createBlock => rfl
  | commitBlock block patch => exact absurd he (h block patch)

theorem authenticViews_run {signed : Address → Content → Prop} {events : List (BftEvent Patch)}
    (hviews : AuthenticViews signed s.views) (hevents : ∀ e ∈ events, AuthenticEvent signed e) :
    AuthenticViews signed (B.run F s events).views := by
  induction events generalizing s with
  | nil => exact hviews
  | cons e rest ih =>
      rw [List.forall_mem_cons] at hevents
      exact ih (authenticViews_handle F B hviews hevents.1) hevents.2

/-- An exchange in a run: one consensus on its value, and after it the same is known. -/
theorem BetweenRounds.exchange (hq : B.HonestQuorum honest) {value : Content}
    {messages : List WitnessMessage} {later : List (BftEvent Patch)}
    (hs : BetweenRounds F B honest P s (messages.map .message ++ later))
    (hexchange : B.Exchange honest value messages)
    (hsigned : ∀ m ∈ messages, AuthenticEvent (ProperlySigned F) (.message m : BftEvent Patch)) :
    (∃ consensus, B.consensusLog F s (messages.map .message) = [consensus] ∧
        consensus.calcDataHash = value) ∧
      BetweenRounds F B honest (· = value) (B.run F s (messages.map .message)) later := by
  have hpast := hs.past
  have hdistinct := hs.distinct
  rw [consensusLog_append] at hpast hdistinct
  rw [List.pairwise_append] at hdistinct
  obtain ⟨hexchangeDistinct, hlaterDistinct, hapart⟩ := hdistinct
  obtain ⟨⟨consensus, hone, hclass⟩, hheard⟩ :=
    exchange_consensus hq hexchange hs.heard hs.quiet
      (fun value h => hpast value (List.mem_append_left _ h)) hexchangeDistinct
  refine ⟨⟨consensus, hone, hclass⟩, hheard, quiet_run hq hs.quiet _, ?_, ?_, hlaterDistinct⟩
  · refine authenticViews_run hs.signed fun e he => ?_
    obtain ⟨m, hm, rfl⟩ := List.mem_map.mp he
    exact hsigned m hm
  · -- the exchange has used up the one consensus on its value
    intro other hother heq
    exact hapart consensus (by simp [hone]) other hother (hclass.trans heq.symm)

omit [DecidablePred honest] in
/-- An event without a message in between changes nothing that is known. -/
theorem BetweenRounds.step {e : BftEvent Patch} {later : List (BftEvent Patch)}
    (hs : BetweenRounds F B honest P s (e :: later))
    (hviews : (B.handle F s e).state.views = s.views) (hnone : B.consensusOn s e = none) :
    BetweenRounds F B honest P (B.handle F s e).state later where
  heard := by
    rw [hviews]
    exact hs.heard
  quiet := by
    rw [hviews]
    exact hs.quiet
  signed := by
    rw [hviews]
    exact hs.signed
  past := by
    have hpast := hs.past
    rwa [consensusLog, hnone] at hpast
  distinct := by
    have hdistinct := hs.distinct
    rwa [consensusLog, hnone] at hdistinct

theorem commitBlock_notMem_timeout {block : Block} {patch : Option Patch} :
    .commitBlock block patch ∉ (B.handle F s .timeout).emitted := by
  simp only [handle, stateChange]
  split
  · exact commitBlock_notMem_roundChangeHandler
  · exact commitBlock_notMem_blockStateHandler
  · exact commitBlock_notMem_nextRound
  · exact commitBlock_notMem_nextRound

/-- Asking for a round ends with waiting for its block. -/
theorem state_of_changes {messages : List WitnessMessage} {consensus : Content} {roundNo : Nat}
    (hone : B.consensusLog F s (messages.map .message) = [consensus])
    (hclass : consensus.calcDataHash = .nextRound (some roundNo)) :
    (B.run F s (messages.map .message)).state = .BLOCK ∧
      (B.emittedIn F s (messages.map .message)).filterMap BftEmit.committed = [] := by
  obtain ⟨earlier, m, later, -, -, hconsensus, ⟨views, hrun⟩, hemitted⟩ := run_of_consensus hone
  obtain ⟨round, rfl⟩ : ∃ round, consensus = .nextRound round := by
    cases consensus with
    | nextRound round => exact ⟨round, rfl⟩
    | vote blockHash signature => cases hclass
  obtain ⟨hstate, hquiet⟩ := handle_of_round (F := F) hconsensus
  rw [hrun, hemitted]
  exact ⟨hstate, committed_of_notMem hquiet⟩

/-- Voting for the stored block ends with committing it. -/
theorem committed_of_votes (hseveral : ¬B.Alone) {messages : List WitnessMessage}
    {consensus : Content} {block : Block}
    (hblock : s.block = some block) (hviews : AuthenticViews (ProperlySigned F) s.views)
    (hsigned : ∀ m ∈ messages, AuthenticEvent (ProperlySigned F) (.message m : BftEvent Patch))
    (hone : B.consensusLog F s (messages.map .message) = [consensus])
    (hclass : consensus.calcDataHash = .vote (some (.hash (block.hash F))) none) :
    ∃ arrSignatures, (B.emittedIn F s (messages.map .message)).filterMap BftEmit.committed =
      [(block.addWitnessSignatures arrSignatures, s.patch)] := by
  obtain ⟨earlier, m, later, rfl, ⟨views, hbefore⟩, hconsensus, -, hemitted⟩ := run_of_consensus hone
  obtain ⟨signature, rfl⟩ : ∃ signature,
      consensus = .vote (some (.hash (block.hash F))) signature := by
    cases consensus with
    | nextRound round => cases hclass
    | vote blockHash signature =>
        cases hclass
        exact ⟨signature, rfl⟩
  have hauthentic : AuthenticViews (ProperlySigned F)
      (B.run F s (earlier.map .message)).views := by
    refine authenticViews_run hviews fun e he => ?_
    obtain ⟨m', hm', rfl⟩ := List.mem_map.mp he
    exact hsigned m' (List.mem_append_left _ hm')
  have hvalid : ∀ recorded, B.recordMessage m (B.run F s (earlier.map .message)) = some recorded →
      ValidVotes F recorded.views (block.hash F) := by
    intro recorded hrecorded addrJ addrI sig hcell
    have hrecordedViews : AuthenticViews (ProperlySigned F) recorded.views := by
      unfold recordMessage at hrecorded
      split at hrecorded
      · cases hrecorded
      next content hpayload =>
        split at hrecorded
        · cases hrecorded
          exact hauthentic.add _ _ (hsigned m (by simp) m content rfl hpayload)
        · cases hrecorded
    exact hrecordedViews addrJ addrI _ hcell _ _ rfl
  have hstored : (B.run F s (earlier.map .message)).block = some block := by
    rw [hbefore]
    exact hblock
  obtain ⟨arrSignatures, hcommit⟩ := handle_of_votes hseveral hstored hconsensus hvalid
  refine ⟨arrSignatures, ?_⟩
  rw [hemitted, hcommit, hbefore]
  rfl

/-- **A round that goes well commits its block**, and nothing else. -/
theorem BetweenRounds.round (hq : B.HonestQuorum honest) {round : BftRound Patch}
    {later : List (BftEvent Patch)}
    (hs : BetweenRounds F B honest P s (round.events ++ later)) (hround : round.GoesWell F B honest)
    (hsigned : ∀ m ∈ round.changes ++ round.votes,
      AuthenticEvent (ProperlySigned F) (.message m : BftEvent Patch)) :
    (∃ arrSignatures, (B.emittedIn F s round.events).filterMap BftEmit.committed =
        [(round.block.addWitnessSignatures arrSignatures, some round.patch)]) ∧
      BetweenRounds F B honest (· = .vote (some (.hash (round.block.hash F))) none)
        (B.run F s round.events) later := by
  have hevents : round.events ++ later = round.changes.map .message ++
      (.validBlock round.block round.patch :: (round.votes.map .message ++ (.timeout :: later))) := by
    simp [BftRound.events]
  rw [hevents] at hs
  obtain ⟨⟨asked, hasked, haskedClass⟩, hopen⟩ := hs.exchange hq hround.changes
    fun m hm => hsigned m (List.mem_append_left _ hm)
  obtain ⟨hstate, hquiet⟩ := state_of_changes hasked haskedClass
  have hvoting := hopen.step (processValidBlock_views F B round.block round.patch _) rfl
  obtain ⟨⟨voted, hvoted, hvotedClass⟩, hdone⟩ := hvoting.exchange hq hround.votes
    fun m hm => hsigned m (List.mem_append_right _ hm)
  have hvalid : B.handle F (B.run F s (round.changes.map .message))
      (.validBlock round.block round.patch) =
        { state := { B.run F s (round.changes.map .message) with
            block := some round.block, patch := some round.patch, state := .VOTE_BLOCK }
          emitted := [.message (.vote (some (.hash (round.block.hash F)))
            (some (B.sign (.hash (round.block.hash F)))))] } := by
    simp [handle, processValidBlock, hstate, blockStateHandler]
  have hblock : (B.handle F (B.run F s (round.changes.map .message))
      (.validBlock round.block round.patch)).state.block = some round.block := by rw [hvalid]
  obtain ⟨arrSignatures, hcommit⟩ := committed_of_votes hq.several hblock hvoting.signed
    (fun m hm => hsigned m (List.mem_append_right _ hm)) hvoted hvotedClass
  refine ⟨⟨arrSignatures, ?_⟩, ?_⟩
  · rw [BftRound.events, emittedIn_append, List.filterMap_append, hquiet, List.nil_append, emittedIn,
      List.filterMap_append, emittedIn_append, List.filterMap_append, hcommit, emittedIn, emittedIn,
      List.append_nil, committed_of_notMem fun _ _ => commitBlock_notMem_timeout, hvalid]
    rfl
  · rw [BftRound.events, run_append, run, run_append]
    exact hdone.step (by simp [handle]) rfl

/-- Rounds that go well, one after another. -/
theorem BetweenRounds.rounds (hq : B.HonestQuorum honest) {rounds : List (BftRound Patch)}
    (hs : BetweenRounds F B honest P s (rounds.flatMap BftRound.events))
    (hrounds : ∀ round ∈ rounds, round.GoesWell F B honest)
    (hsigned : ∀ round ∈ rounds, ∀ m ∈ round.changes ++ round.votes,
      AuthenticEvent (ProperlySigned F) (.message m : BftEvent Patch)) :
    List.Forall₂ (fun (committed : Block × Option Patch) (round : BftRound Patch) =>
        ∃ arrSignatures, committed =
          (round.block.addWitnessSignatures arrSignatures, some round.patch))
      ((B.emittedIn F s (rounds.flatMap BftRound.events)).filterMap BftEmit.committed) rounds := by
  induction rounds generalizing s P with
  | nil => exact List.Forall₂.nil
  | cons round rest ih =>
      rw [List.forall_mem_cons] at hrounds hsigned
      rw [List.flatMap_cons] at hs ⊢
      obtain ⟨⟨arrSignatures, hcommit⟩, hnext⟩ := hs.round hq hrounds.1 hsigned.1
      rw [emittedIn_append, List.filterMap_append, hcommit, List.singleton_append]
      exact List.Forall₂.cons ⟨arrSignatures, rfl⟩ (ih hnext hrounds.2 hsigned.2)

end Rounds

/-- Three members ask for round 5 and vote for its block, while member 4 asks for another. -/
def goodRound : BftRound Unit where
  roundNo := 5
  block := coinbaseBlock
  patch := ()
  changes := .common 4 (.content (.nextRound (some 9))) ::
    [1, 2, 3].flatMap fun addrJ => [1, 2, 3].map fun addrI =>
      if addrJ = addrI then .common addrI (.content (.nextRound (some 5)))
      else .expose addrJ addrI (.content (.nextRound (some 5)))
  votes := [3, 1, 2].flatMap fun addrJ => [1, 2, 3].map fun addrI =>
    if addrJ = addrI then .common addrI (.content (signedVote addrI))
    else .expose addrJ addrI (.content (signedVote addrI))
where
  signedVote (addrI : Address) : Content :=
    .vote (some (.hash (coinbaseBlock.hash Factory.sample)))
      (some (coinbaseBlock.hash Factory.sample * 1000 + addrI))

theorem payload_changes_goodRound :
    ∀ m ∈ goodRound.changes, m.payload = .content (.nextRound (some 5)) ∨
      m.addrI = 4 ∧ m.payload = .content (.nextRound (some 9)) := by
  decide +kernel

theorem payload_votes_goodRound :
    ∀ m ∈ goodRound.votes, m.payload = .content (goodRound.signedVote m.addrI) ∧
      Factory.sample.recoverAddress (coinbaseBlock.hash Factory.sample)
        (coinbaseBlock.hash Factory.sample * 1000 + m.addrI) = .ok m.addrI := by
  decide +kernel

/-- The round goes well for members 1, 2 and 3. -/
theorem goesWell_goodRound :
    goodRound.GoesWell Factory.sample (fourMembers 1) (· ≠ 4) where
  changes := by
    have hheard : ∀ addrJ ∈ (fourMembers 1).arrAddresses, ∀ addrI ∈ (fourMembers 1).arrAddresses,
        addrJ ≠ 4 → addrI ≠ 4 → ∃ m ∈ goodRound.changes,
          m.payload = .content (.nextRound (some 5)) ∧ m.senderAddr = addrJ ∧ m.addrI = addrI := by
      decide +kernel
    refine ⟨fun m hm content hpayload hhonest => ?_, fun addrJ hJ addrI hI hhonestJ hhonestI => ?_⟩
    · rcases payload_changes_goodRound m hm with hround | ⟨hother, -⟩
      · rw [hround] at hpayload
        cases hpayload
        rfl
      · exact absurd hother hhonest
    · obtain ⟨m, hm, hpayload, hboth⟩ := hheard addrJ hJ addrI hI hhonestJ hhonestI
      exact ⟨m, hm, _, hpayload, hboth⟩
  votes := by
    have hheard : ∀ addrJ ∈ (fourMembers 1).arrAddresses, ∀ addrI ∈ (fourMembers 1).arrAddresses,
        addrJ ≠ 4 → addrI ≠ 4 → ∃ m ∈ goodRound.votes, m.senderAddr = addrJ ∧ m.addrI = addrI := by
      decide +kernel
    refine ⟨fun m hm content hpayload _ => ?_, fun addrJ hJ addrI hI hhonestJ hhonestI => ?_⟩
    · rw [(payload_votes_goodRound m hm).1] at hpayload
      cases hpayload
      rfl
    · obtain ⟨m, hm, hboth⟩ := hheard addrJ hJ addrI hI hhonestJ hhonestI
      exact ⟨m, hm, _, (payload_votes_goodRound m hm).1, hboth⟩

end BftSetup

end CilCore
