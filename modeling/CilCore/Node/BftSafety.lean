import CilCore.Node.BftViews

/-!
# Agreement and single firing

Within one exchange no two honest witnesses reach different consensuses, and
one witness reaches consensus at most once. Both follow from quorums that meet:
quorums of origins that spoke, and quorums of reporters that echoed them.
-/

namespace CilCore

open WeightedQuorum

namespace BftSetup

variable {Patch : Type}

/-! ### Agreement -/

/-- A message carries something that its origin really signed. -/
def AuthenticEvent (signed : Address → Content → Prop) (e : BftEvent Patch) : Prop :=
  ∀ witnessMsg content, e = .message witnessMsg → witnessMsg.payload = .content content →
    signed witnessMsg.addrI content

/-- The cells hold only what their origins really signed. -/
def AuthenticViews (signed : Address → Content → Prop) (views : Views) : Prop :=
  ∀ addrJ addrI content, views addrJ addrI = some content → signed addrI content

theorem AuthenticViews.add {signed : Address → Content → Prop} {s : BftState Patch}
    (h : AuthenticViews signed s.views) (addr addrI : Address) {content : Content}
    (hsigned : signed addrI content) :
    AuthenticViews signed (addViewOfNodeWithAddr addr addrI content s).views := by
  intro addrJ addrI' content' hcell
  rw [addViewOfNodeWithAddr_views] at hcell
  split at hcell
  next heq =>
    rw [Option.some.injEq] at hcell
    rw [heq.2, ← hcell]
    exact hsigned
  next => exact h addrJ addrI' content' hcell

/-- Handling an authentic event keeps the views authentic. -/
theorem authenticViews_handle (F : Factory) (B : BftSetup) {signed : Address → Content → Prop}
    {s : BftState Patch} {e : BftEvent Patch} (hviews : AuthenticViews signed s.views)
    (he : AuthenticEvent signed e) : AuthenticViews signed (B.handle F s e).state.views := by
  rcases B.handle_views F s e with ⟨hsame, -⟩ | ⟨m, content, hm, hpayload, -, -, -, hafter⟩
  · rw [hsame]
    exact hviews
  · rw [hafter]
    split
    next =>
      intro addrJ addrI content' hcell
      exact absurd hcell (by simp)
    next => exact hviews.add m.senderAddr m.addrI (he m content hm hpayload)

/-- Every consensus of a run is a consensus on authentic views. -/
theorem exists_views_of_mem_consensusLog {F : Factory} {B : BftSetup}
    {signed : Address → Content → Prop} {s : BftState Patch} {events : List (BftEvent Patch)}
    (hviews : AuthenticViews signed s.views) (hevents : ∀ e ∈ events, AuthenticEvent signed e)
    {value : Content} (h : value ∈ B.consensusLog F s events) :
    ∃ views, AuthenticViews signed views ∧ B.runConsensus views = some value := by
  induction events generalizing s with
  | nil => cases h
  | cons e rest ih =>
    have he := hevents e List.mem_cons_self
    rw [consensusLog, List.mem_append] at h
    rcases h with h | h
    · rw [Option.mem_toList] at h
      rcases B.handle_views F s e with ⟨-, hnone⟩ | ⟨m, content, hm, hpayload, -, -, hvalue, -⟩
      · rw [hnone] at h
        cases h
      · exact ⟨_, hviews.add m.senderAddr m.addrI (he m content hm hpayload), hvalue ▸ h⟩
    · exact ih (authenticViews_handle F B hviews he)
        (fun e' he' => hevents e' (List.mem_cons_of_mem e he')) h

/-- An origin whose column agrees on authentic views signed a value of the class. -/
theorem exists_signed_of_columnAgrees {B : BftSetup} {signed : Address → Content → Prop}
    {views : Views} (hviews : AuthenticViews signed views) {hash : Content} {addrI : Address}
    (h : B.ColumnAgrees views hash addrI) :
    ∃ content, signed addrI content ∧ content.calcDataHash = hash := by
  obtain ⟨u, hu, hhash⟩ := Option.map_eq_some_iff.mp h
  obtain ⟨⟨addrJ, -, hcell⟩, -⟩ := exists_reporters hu
  exact ⟨u, hviews addrJ addrI u hcell, hhash⟩

/-- A single member that reached consensus signed the value, whoever observed it. -/
theorem signed_of_singleton {B : BftSetup} {signed : Address → Content → Prop} {views : Views}
    (hviews : AuthenticViews signed views) {value : Content} {a : Address}
    (hsingle : B.concilium.getAddresses = [a]) (h : B.runConsensus views = some value) :
    ∃ content, signed a content ∧ content.calcDataHash = value.calcDataHash := by
  have hlist : B.arrAddresses = [a] := by
    rw [← List.perm_singleton, ← hsingle]
    exact B.addresses_perm
  by_cases halone : B.Alone
  · have hwallet : B.walletAddress = a := by
      have hmem := halone.2
      rwa [hlist, List.mem_singleton] at hmem
    rw [runConsensus_of_alone halone, hwallet] at h
    exact ⟨value, hviews a a value h, rfl⟩
  · obtain ⟨addrI, hmem, hcol⟩ := exists_of_weightOf_pos (exists_origins halone h).1
    rw [hlist, List.mem_singleton] at hmem
    subst hmem
    exact exists_signed_of_columnAgrees hviews hcol

/-- Agreement. In one exchange of a concilium, where witnesses that sign two
values weigh less than twice the quorum minus the total weight, whatever two
honest witnesses reach consensus on is the same up to its inner signature, for
every delivery of authentic messages to either of them. -/
theorem consensus_agreement (F : Factory) (B₁ B₂ : BftSetup)
    (hconcilium : B₁.concilium = B₂.concilium) (signed : Address → Content → Prop)
    (twofaced : Address → Prop) [DecidablePred twofaced]
    (hhonest : ∀ a, ¬ twofaced a → ∀ content content', signed a content → signed a content' →
      content.calcDataHash = content'.calcDataHash)
    (hwallet₁ : ¬ twofaced B₁.walletAddress) (hwallet₂ : ¬ twofaced B₂.walletAddress)
    (hweight : weightOf B₁.concilium.weight twofaced B₁.concilium.getAddresses <
      2 * B₁.concilium.getQuorum -
        weightOf B₁.concilium.weight (fun _ => True) B₁.concilium.getAddresses)
    (s₁ s₂ : BftState Patch) (hviews₁ : AuthenticViews signed s₁.views)
    (hviews₂ : AuthenticViews signed s₂.views) (events₁ events₂ : List (BftEvent Patch))
    (hevents₁ : ∀ e ∈ events₁, AuthenticEvent signed e)
    (hevents₂ : ∀ e ∈ events₂, AuthenticEvent signed e)
    (value₁ value₂ : Content) (h₁ : value₁ ∈ B₁.consensusLog F s₁ events₁)
    (h₂ : value₂ ∈ B₂.consensusLog F s₂ events₂) :
    value₁.calcDataHash = value₂.calcDataHash := by
  obtain ⟨views₁, hauth₁, hvalue₁⟩ := exists_views_of_mem_consensusLog hviews₁ hevents₁ h₁
  obtain ⟨views₂, hauth₂, hvalue₂⟩ := exists_views_of_mem_consensusLog hviews₂ hevents₂ h₂
  -- whoever signed both values and is honest makes them equal
  have hsigner : ∀ a, ¬ twofaced a →
      (∃ content, signed a content ∧ content.calcDataHash = value₁.calcDataHash) →
      (∃ content, signed a content ∧ content.calcDataHash = value₂.calcDataHash) →
      value₁.calcDataHash = value₂.calcDataHash := by
    rintro a ha ⟨content₁, hs₁, hc₁⟩ ⟨content₂, hs₂, hc₂⟩
    rw [← hc₁, ← hc₂]
    exact hhonest a ha content₁ content₂ hs₁ hs₂
  -- a witness alone in the concilium skips the count of votes
  have hsingle : ∀ a, B₁.concilium.getAddresses = [a] → ¬ twofaced a →
      value₁.calcDataHash = value₂.calcDataHash := fun a ha hfaith =>
    hsigner a hfaith (signed_of_singleton hauth₁ ha hvalue₁)
      (signed_of_singleton hauth₂ (hconcilium ▸ ha) hvalue₂)
  have haddresses : ∀ {B : BftSetup}, B.concilium = B₁.concilium → B.Alone →
      B₁.concilium.getAddresses = [B.walletAddress] := by
    intro B hB halone
    rw [← List.perm_singleton, ← arrAddresses_eq_of_alone halone, ← hB]
    exact B.addresses_perm.symm
  by_cases halone₁ : B₁.Alone
  · exact hsingle _ (haddresses rfl halone₁) hwallet₁
  by_cases halone₂ : B₂.Alone
  · exact hsingle _ (haddresses hconcilium.symm halone₂) hwallet₂
  obtain ⟨-, hquorum₁⟩ := exists_origins halone₁ hvalue₁
  obtain ⟨-, hquorum₂⟩ := exists_origins halone₂ hvalue₂
  rw [weightOf_perm _ _ B₁.addresses_perm] at hquorum₁
  rw [weightOf_perm _ _ B₂.addresses_perm, ← hconcilium] at hquorum₂
  have hmeet : weightOf B₁.concilium.weight (fun _ => True) B₁.concilium.getAddresses +
      weightOf B₁.concilium.weight twofaced B₁.concilium.getAddresses <
      weightOf B₁.concilium.weight (B₁.ColumnAgrees views₁ value₁.calcDataHash)
          B₁.concilium.getAddresses +
        weightOf B₁.concilium.weight (B₂.ColumnAgrees views₂ value₂.calcDataHash)
          B₁.concilium.getAddresses := by
    generalize weightOf B₁.concilium.weight (B₁.ColumnAgrees views₁ value₁.calcDataHash)
      B₁.concilium.getAddresses = w₁ at *
    generalize weightOf B₁.concilium.weight (B₂.ColumnAgrees views₂ value₂.calcDataHash)
      B₁.concilium.getAddresses = w₂ at *
    linarith only [hquorum₁, hquorum₂, hweight]
  obtain ⟨a, -, hcol₁, hcol₂, hfaith⟩ :=
    exists_common_correct (fun a _ => B₁.concilium.weight_nonneg a) hmeet
  exact hsigner a hfaith (exists_signed_of_columnAgrees hauth₁ hcol₁)
    (exists_signed_of_columnAgrees hauth₂ hcol₂)

/-- A concilium of four members with one vote each; three votes are a quorum. -/
def fourMembers (walletAddress : Address) : BftSetup where
  concilium := .rr { conciliumId := 0, addresses := [1, 2, 3, 4] }
  walletAddress := walletAddress
  arrAddresses := [1, 2, 3, 4]
  addresses_perm := List.Perm.refl _
  sign := fun _ => 0

/-- Three members ask for a round, and every member says what it heard. -/
def roundMessages (roundNo : Nat) : List (BftEvent Unit) :=
  [1, 2, 3, 4].flatMap fun addrJ => [1, 2, 3].map fun addrI =>
    .message (if addrJ = addrI then .common addrI (.content (.nextRound (some roundNo)))
      else .expose addrJ addrI (.content (.nextRound (some roundNo))))

/-- Whatever member 4 signs, members 1 and 2 agree on the round. -/
theorem consensus_agreement_fourMembers :
    Content.nextRound (some 5) ∈ (fourMembers 1).consensusLog Factory.sample
        (fourMembers 1).initialState (roundMessages 5) ∧
      ∀ value ∈ (fourMembers 2).consensusLog Factory.sample (fourMembers 2).initialState
        (roundMessages 5).reverse, (Content.nextRound (some 5)).calcDataHash =
          value.calcDataHash := by
  have hlog : Content.nextRound (some 5) ∈ (fourMembers 1).consensusLog Factory.sample
      (fourMembers 1).initialState (roundMessages 5) := by
    decide +kernel
  have hauth : ∀ e ∈ roundMessages 5,
      AuthenticEvent (fun a content => a = 4 ∨ content = .nextRound (some 5)) e := by
    intro e he m content hm hpayload
    subst hm
    simp only [roundMessages, List.mem_flatMap, List.mem_map] at he
    obtain ⟨addrJ, -, addrI, -, heq⟩ := he
    refine Or.inr ?_
    split at heq
    · cases heq
      injection hpayload with hpayload
      exact hpayload.symm
    · cases heq
      injection hpayload with hpayload
      exact hpayload.symm
  have hempty : AuthenticViews (fun a content => a = 4 ∨ content = .nextRound (some 5))
      (fun _ _ => none) := fun _ _ _ h => absurd h (by simp)
  refine ⟨hlog, fun value hvalue => consensus_agreement Factory.sample (fourMembers 1)
    (fourMembers 2) rfl (fun a content => a = 4 ∨ content = .nextRound (some 5))
    (fun a => a = 4) ?_ (by decide) (by decide) (by decide +kernel)
    (fourMembers 1).initialState (fourMembers 2).initialState hempty hempty (roundMessages 5)
    (roundMessages 5).reverse hauth (fun e he => hauth e (List.mem_reverse.mp he))
    _ value hlog hvalue⟩
  rintro a ha content content' (rfl | rfl) (h | rfl)
  · exact absurd rfl ha
  · exact absurd rfl ha
  · exact absurd h ha
  · rfl

/-! ### At most one consensus -/

/-- The cell that an event fills with a value of the exchange, if it does. -/
def exchangeCell (exchange : Content → Prop) [DecidablePred exchange] :
    BftEvent Patch → Option (Address × Address)
  | .message witnessMsg =>
      match witnessMsg.payload with
      | .content content =>
          if exchange content then some (witnessMsg.senderAddr, witnessMsg.addrI) else none
      | .other => none
  | _ => none

/-- No cell of the list holds a value of the exchange. -/
def CellsUnused (exchange : Content → Prop) (views : Views) (cells : List (Address × Address)) :
    Prop :=
  ∀ cell ∈ cells, ∀ content, views cell.1 cell.2 = some content → ¬ exchange content

section Exchange

variable {exchange : Content → Prop} [DecidablePred exchange]

/-- A value of the exchange in a cell after recording a message was there before,
or the message delivered it. -/
theorem cell_addViewOfNodeWithAddr {s : BftState Patch} {m : WitnessMessage} {content : Content}
    (hpayload : m.payload = .content content) {addrJ addrI : Address} {content' : Content}
    (hcell : (addViewOfNodeWithAddr m.senderAddr m.addrI content s).views addrJ addrI =
      some content') (hexchange : exchange content') :
    s.views addrJ addrI = some content' ∨
      exchangeCell exchange (.message m : BftEvent Patch) = some (addrJ, addrI) := by
  rw [addViewOfNodeWithAddr_views] at hcell
  split at hcell
  next heq =>
    rw [Option.some.injEq] at hcell
    subst hcell
    refine Or.inr ?_
    simp [exchangeCell, hpayload, hexchange, heq.1, heq.2]
  next => exact Or.inl hcell

/-- What remains to be delivered stays unused while an event is handled. -/
theorem cellsUnused_handle (F : Factory) (B : BftSetup) {s : BftState Patch}
    {e : BftEvent Patch} {cells : List (Address × Address)}
    (hunused : CellsUnused exchange s.views cells)
    (hnew : ∀ cell, exchangeCell exchange e = some cell → cell ∉ cells) :
    CellsUnused exchange (B.handle F s e).state.views cells := by
  rcases B.handle_views F s e with ⟨hsame, -⟩ | ⟨m, content, rfl, hpayload, -, -, -, hafter⟩
  · rw [hsame]
    exact hunused
  · rw [hafter]
    intro cell hmem content' hcell hexchange
    split at hcell
    next => exact absurd hcell (by simp)
    next =>
      rcases cell_addViewOfNodeWithAddr hpayload hcell hexchange with hold | hdelivered
      · exact hunused cell hmem content' hold hexchange
      · exact hnew cell hdelivered hmem

/-- While no used cell of an earlier consensus is delivered again, there is no
other consensus of the exchange. -/
theorem consensusLog_after (F : Factory) (B : BftSetup)
    (hhash : ∀ content, exchange content.calcDataHash ↔ exchange content)
    (hhalf : B.totalWeight < 2 * B.concilium.getQuorum) {usedViews : Views}
    {usedValue : Content} (hused : B.runConsensus usedViews = some usedValue)
    (husedValue : exchange usedValue) (s : BftState Patch) (events : List (BftEvent Patch))
    (hviews : ∀ addrJ addrI content content', usedViews addrJ addrI = some content →
      exchange content → s.views addrJ addrI = some content' → ¬ exchange content')
    (hcells : CellsUnused exchange usedViews (events.filterMap (exchangeCell exchange))) :
    ∀ value ∈ B.consensusLog F s events, ¬ exchange value := by
  -- a cell of a class of the exchange holds a value of the exchange
  have hclass : ∀ {views : Views} {value : Content} {addrI addrJ : Address},
      exchange value → CellAgrees views value.calcDataHash addrI addrJ →
      ∃ content, views addrJ addrI = some content ∧ exchange content := by
    intro views value addrI addrJ hvalue hcell
    obtain ⟨content, hcontent, heq⟩ := Option.map_eq_some_iff.mp hcell
    exact ⟨content, hcontent, by rwa [← hhash, heq, hhash]⟩
  induction events generalizing s with
  | nil => exact fun value h => by cases h
  | cons e rest ih =>
    have hrest : CellsUnused exchange usedViews (rest.filterMap (exchangeCell exchange)) := by
      intro cell hmem
      obtain ⟨e', he', hcell⟩ := List.mem_filterMap.mp hmem
      exact hcells cell (List.mem_filterMap.mpr ⟨e', List.mem_cons_of_mem e he', hcell⟩)
    -- the views at the moment of the consensus and after it avoid the used cells
    have hnow : ∀ m content, e = .message m → m.payload = .content content →
        ∀ addrJ addrI content₁ content₂, usedViews addrJ addrI = some content₁ →
        exchange content₁ →
        (addViewOfNodeWithAddr m.senderAddr m.addrI content s).views addrJ addrI =
          some content₂ → ¬ exchange content₂ := by
      rintro m content rfl hpayload addrJ addrI content₁ content₂ hu hx₁ hc hx₂
      rcases cell_addViewOfNodeWithAddr hpayload hc hx₂ with hold | hdelivered
      · exact hviews addrJ addrI content₁ content₂ hu hx₁ hold hx₂
      · refine hcells (addrJ, addrI) ?_ content₁ hu hx₁
        exact List.mem_filterMap.mpr ⟨_, List.mem_cons_self, hdelivered⟩
    intro value hvalue hexchange
    rw [consensusLog, List.mem_append] at hvalue
    rcases B.handle_views F s e with
      ⟨hsame, hnone⟩ | ⟨m, content, hm, hpayload, -, -, hconsensus, hafter⟩
    · rw [hnone] at hvalue
      rcases hvalue with hvalue | hvalue
      · cases hvalue
      · exact ih _ (by rw [hsame]; exact hviews) hrest value hvalue hexchange
    · rcases hvalue with hvalue | hvalue
      · rw [Option.mem_toList, hconsensus] at hvalue
        obtain ⟨addrI, addrJ, hcell₁, hcell₂⟩ := exists_common_cell hhalf hused hvalue
        obtain ⟨content₁, hu, hx₁⟩ := hclass husedValue hcell₁
        obtain ⟨content₂, hc, hx₂⟩ := hclass hexchange hcell₂
        exact hnow m content hm hpayload addrJ addrI content₁ content₂ hu hx₁ hc hx₂
      · refine ih _ ?_ hrest value hvalue hexchange
        rw [hafter]
        split
        next =>
          intro _ _ _ _ _ _ hc
          exact absurd hc (by simp)
        next => exact hnow m content hm hpayload

/-- At most one consensus. When each message of an exchange is delivered at most
once and a quorum exceeds half of the weight, consensus on a value of the
exchange is reached at most once, whatever else is delivered in between. -/
theorem consensus_at_most_once (F : Factory) (B : BftSetup)
    (hhash : ∀ content, exchange content.calcDataHash ↔ exchange content)
    (hhalf : B.totalWeight < 2 * B.concilium.getQuorum) (s : BftState Patch)
    (events : List (BftEvent Patch))
    (hnew : CellsUnused exchange s.views (events.filterMap (exchangeCell exchange)))
    (honce : (events.filterMap (exchangeCell exchange)).Nodup) :
    ((B.consensusLog F s events).filter exchange).length ≤ 1 := by
  induction events generalizing s with
  | nil => simp [consensusLog]
  | cons e rest ih =>
    have hsplit : (∀ cell, exchangeCell exchange e = some cell →
        cell ∉ rest.filterMap (exchangeCell exchange)) ∧
        (rest.filterMap (exchangeCell exchange)).Nodup ∧
        CellsUnused exchange s.views (rest.filterMap (exchangeCell exchange)) := by
      cases hcell : exchangeCell exchange e with
      | none =>
        rw [List.filterMap_cons_none hcell] at honce hnew
        exact ⟨by simp, honce, hnew⟩
      | some cell =>
        rw [List.filterMap_cons_some hcell] at honce hnew
        rw [List.nodup_cons] at honce
        refine ⟨?_, honce.2, fun cell' hmem => hnew cell' (List.mem_cons_of_mem cell hmem)⟩
        intro cell' heq
        rw [← Option.some.inj heq]
        exact honce.1
    obtain ⟨hdistinct, honce', hnew'⟩ := hsplit
    have hafter := cellsUnused_handle F B hnew' hdistinct
    rw [consensusLog, List.filter_append, List.length_append]
    cases hvalue : B.consensusOn s e with
    | none => simpa using ih _ hafter honce'
    | some value =>
      by_cases hexchange : exchange value
      · rcases B.handle_views F s e with
          ⟨-, hnone⟩ | ⟨m, content, hm, hpayload, -, -, hconsensus, hviews⟩
        · rw [hnone] at hvalue
          cases hvalue
        · rw [hvalue] at hconsensus hviews
          have hnone := consensusLog_after F B hhash hhalf hconsensus.symm hexchange
            (B.handle F s e).state rest (by
              intro _ _ _ _ _ _ hc
              rw [hviews] at hc
              exact absurd hc (by simp)) (by
              intro cell hmem content' hcell hx
              subst hm
              rcases cell_addViewOfNodeWithAddr hpayload hcell hx with hold | hdelivered
              · exact hnew' cell hmem content' hold hx
              · exact hdistinct cell hdelivered hmem)
          have hrest : (B.consensusLog F (B.handle F s e).state rest).filter exchange = [] := by
            rw [List.filter_eq_nil_iff]
            intro value' hmem
            simpa using hnone value' hmem
          rw [hrest]
          simp [hexchange]
      · simpa [hexchange] using ih _ hafter honce'

end Exchange

/-- The echoes of member 4 come after the consensus and do not repeat it. -/
theorem consensus_at_most_once_fourMembers :
    Content.nextRound (some 5) ∈ (fourMembers 1).consensusLog Factory.sample
        (fourMembers 1).initialState (roundMessages 5) ∧
      (((fourMembers 1).consensusLog Factory.sample (fourMembers 1).initialState
        (roundMessages 5)).filter (· = Content.nextRound (some 5))).length ≤ 1 := by
  refine ⟨by decide +kernel, consensus_at_most_once Factory.sample (fourMembers 1) ?_
    (by decide +kernel) _ (roundMessages 5) ?_ (by decide +kernel)⟩
  · intro content
    cases content <;> simp [Content.calcDataHash]
  · intro _ _ _ hcell
    exact absurd hcell (by simp [initialState])

end BftSetup

end CilCore
