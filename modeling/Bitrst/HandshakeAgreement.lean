import Bitrst.CursorSync
import Bitrst.PeerLink
import Bitrst.Support.Reachability

/-!
# The handshake between two nodes

What a side has sent of its version and verack, and how much of the other's it
has read, follows from its phase.  The rest is on its way, in front of whatever
else was sent.  So neither side ever meets a message out of place, each ends up
with the version of the other, and nothing but a broken connection or a task
that returns keeps them from it.
-/

namespace Bitrst

open Support

/-- How many messages of the handshake have been read. -/
def HandshakePhase.consumed : HandshakePhase → ℕ
  | .awaitingVersion | .awaitingPeerVersion => 0
  | .awaitingVerack => 1
  | .established => 2

/-- How many messages of the handshake have been handed out by a side. -/
def HandshakePhase.produced (phase : HandshakePhase) : ConnectionDirection → ℕ
  | .outbound => if phase.consumed = 0 then 1 else 2
  | .inbound => if phase.consumed = 0 then 0 else 2

theorem HandshakePhase.consumed_eq_two {phase : HandshakePhase} :
    phase.consumed = 2 ↔ phase = .established := by cases phase <;> decide

theorem HandshakePhase.consumed_le (phase : HandshakePhase) : phase.consumed ≤ 2 := by
  cases phase <;> decide

theorem HandshakePhase.produced_of_pos {phase : HandshakePhase} (h : 0 < phase.consumed)
    (d : ConnectionDirection) : phase.produced d = 2 := by
  cases d <;> exact if_neg h.ne'

theorem HandshakeState.awaitsVersion_iff {state : HandshakeState} :
    state.AwaitsVersion ↔ state.phase.consumed = 0 := by
  rw [AwaitsVersion]
  cases state.phase <;> decide

/-- The messages of the handshake, in their order. -/
def hello (version : VersionMessage) : List Message := [Message.version version, Message.verack]

/-- Not one of the handshake. -/
def Late (item : Option (Except NetError Message)) : Prop :=
  ∀ message, item = some (.ok message) → message.payload.isHandshake = false

section

variable [Crypto] [Features] {α : Type} {network : Network}

namespace PeerSession

/-- A step that leaves the handshake alone: it sends what belongs behind the handshake, if that is
established, and the handshake is not why it ends the task. -/
structure Proceeds (s next : PeerSession α) : Prop where
  handshake : next.handshake = s.handshake
  localVersion : next.localVersion = s.localVersion
  sends : ∃ extra : List Message, next.queue ++ next.sending = s.queue ++ s.sending ++ extra ∧
    (∀ message ∈ extra, message.Application) ∧ (extra ≠ [] → s.Established)
  unhurt : ∀ e, next.result = some (.error (.handshake e)) →
    s.result = some (.error (.handshake e))

variable {s next : PeerSession α}

omit [Crypto] [Features] in
theorem Proceeds.ofResult (result : Option (Except SessionError Unit)) (writing : Bool)
    (hresult : ∀ e, result = some (.error (.handshake e)) →
      s.result = some (.error (.handshake e))) :
    Proceeds s { s with result := result, writing := writing } :=
  ⟨rfl, rfl, ⟨[], (List.append_nil _).symm, (fun _ h ↦ nomatch h), fun h ↦ absurd rfl h⟩, hresult⟩

omit [Crypto] [Features] in
theorem send_proceeds (h : s.send = some next) : Proceeds s next := by
  unfold send at h
  split at h
  · cases h
  · rename_i message rest hsending
    split at h
    · cases h
    · split at h
      · obtain rfl := Option.some.inj h
        exact .ofResult _ _ fun _ he ↦ nomatch Except.error.inj (Option.some.inj he)
      · split at h
        · obtain rfl := Option.some.inj h
          refine ⟨rfl, rfl, ⟨[], ?_, (fun _ h ↦ nomatch h), fun h ↦ absurd rfl h⟩, fun _ he ↦ he⟩
          rw [hsending, List.append_nil, List.append_assoc, List.singleton_append]
        · cases h

omit [Crypto] [Features] in
theorem timeOut_proceeds (h : s.timeOut = some next) : Proceeds s next := by
  unfold timeOut at h
  split at h
  · obtain rfl := Option.some.inj h
    exact .ofResult _ _ fun _ he ↦ nomatch Except.error.inj (Option.some.inj he)
  · cases h

omit [Crypto] [Features] in
theorem stopWriter_proceeds (h : s.stopWriter = some next) : Proceeds s next := by
  unfold stopWriter at h
  split at h
  · obtain rfl := Option.some.inj h
    exact .ofResult _ _ fun _ he ↦ he
  · cases h

omit [Crypto] [Features] in
theorem write_eq {message : Message} {rest : List Message} (h : s.write = some next)
    (hqueue : s.queue = message :: rest) : next = { s with queue := rest } := by
  unfold PeerSession.write at h
  rw [hqueue] at h
  split at h
  · exact (Option.some.inj h).symm
  · cases h

omit [Crypto] [Features] in
theorem command_proceeds {command : Option PeerCommand} (h : s.command command = some next)
    (happ : ∀ message, command = some (.send message) → message.Application) :
    Proceeds s next := by
  unfold PeerSession.command at h
  split at h
  · rename_i hwaits
    split at h
    · rename_i message
      obtain rfl := Option.some.inj h
      refine ⟨rfl, rfl, ⟨[message], ?_, fun other hother ↦ ?_, fun _ ↦ hwaits.2⟩, fun _ he ↦ he⟩
      · rw [hwaits.1.2, List.append_nil]
      · rw [List.mem_singleton.mp hother]
        exact happ message rfl
    all_goals
      obtain rfl := Option.some.inj h
      exact .ofResult _ _ fun _ he ↦ nomatch Option.some.inj he
  · cases h

omit [Crypto] [Features] in
theorem readHandshake_error_proceeds (e : NetError) : Proceeds s (s.readHandshake (.error e)) :=
  .ofResult _ _ fun _ he ↦ nomatch Except.error.inj (Option.some.inj he)

theorem readRelay_proceeds {item : Except NetError Message} {now : ℕ} {node : Node}
    (h : s.readRelay item now node = some next) (hwaits : s.Waits) (hestablished : s.Established)
    (hlate : Late (some item)) : Proceeds s next := by
  have hquiet : ∀ (relay : PeerRelayState) (result : Option (Except SessionError Unit))
      (emitted : List (PeerEvent α)),
      (∀ e, result = some (.error (.handshake e)) → s.result = some (.error (.handshake e))) →
        Proceeds s { s with relay := relay, result := result, emitted := emitted } :=
    fun relay result emitted hresult ↦
      ⟨rfl, rfl, ⟨[], (List.append_nil _).symm, (fun _ h ↦ nomatch h), fun h ↦ absurd rfl h⟩,
        hresult⟩
  cases item with
  | error e =>
      obtain rfl := Option.some.inj h
      exact hquiet _ _ _ fun _ he ↦ nomatch Except.error.inj (Option.some.inj he)
  | ok message =>
      rw [readRelay, if_neg (by rw [hlate message rfl]; decide)] at h
      split at h
      · cases h
      · obtain rfl := Option.some.inj h
        exact hquiet _ _ _ fun _ he ↦ nomatch Except.error.inj (Option.some.inj he)
      · rename_i e _ _ _ _ _
        obtain rfl := Option.some.inj h
        refine hquiet _ _ _ fun _ he ↦ ?_
        have hsame := Except.error.inj (Option.some.inj he)
        cases e <;> cases hsame
      · obtain rfl := Option.some.inj h
        exact hquiet _ _ _ fun _ he ↦ he
      · rename_i messages _ _ hreply
        obtain rfl := Option.some.inj h
        refine ⟨rfl, rfl, ⟨messages, ?_, handlePeerMessage_reply hreply, fun _ ↦ hestablished⟩,
          fun _ he ↦ he⟩
        rw [hwaits.2, List.append_nil]
      · obtain rfl := Option.some.inj h
        exact hquiet _ _ _ fun _ he ↦ he

end PeerSession

namespace PeerLink

/-- What a side has sent and the other has not read, up to what cannot be written. -/
def inFlight (network : Network) (l : PeerLink α) (d : ConnectionDirection) :
    List (Option (Except NetError Message)) :=
  (l.wire d).map some ++ ((l.side d).queue ++ (l.side d).sending).map (carried network)

def phase (l : PeerLink α) (d : ConnectionDirection) : HandshakePhase := (l.side d).handshake.phase

/-- The messages of a handshake, as they arrive. -/
def greeting (version : VersionMessage) : List (Option (Except NetError Message)) :=
  (hello version).map fun message ↦ some (.ok message)

/-- How two sides with these versions stand. -/
structure Linked (network : Network) (version : ConnectionDirection → VersionMessage)
    (l : PeerLink α) : Prop where
  direction : ∀ d, (l.side d).handshake.direction = d
  directed : ∀ d, (l.side d).handshake.WellDirected
  localVersion : ∀ d, (l.side d).localVersion = version d
  nonce : ∀ d, (l.side d).handshake.config.localNonce = (version d).nonce
  met : ∀ d, 0 < (l.phase d).consumed →
    (l.side d).handshake.peerVersion = some (version d.opposite)
  sent : ∀ d, (l.phase d.opposite).consumed ≤ (l.phase d).produced d
  flight : ∀ d, ∃ later, l.inFlight network d =
      ((greeting (version d)).take ((l.phase d).produced d)).drop
        (l.phase d.opposite).consumed ++ later ∧
    (∀ item ∈ later, Late item) ∧ (later ≠ [] → (l.side d).Established)
  unhurt : ∀ d e, (l.side d).result ≠ some (.error (.handshake e))

variable {version : ConnectionDirection → VersionMessage} {l next : PeerLink α}
  {d : ConnectionDirection}

omit [Crypto] [Features] in
theorem length_greeting (version : VersionMessage) : (greeting version).length = 2 := rfl

omit [Features] in
/-- A step of one side that does not change its handshake.  It may send more behind the handshake,
and read more when it has read the handshake. -/
theorem Linked.frame (h : Linked network version l)
    (hside : next.side d.opposite = l.side d.opposite)
    (hhandshake : (next.side d).handshake = (l.side d).handshake)
    (hversion : (next.side d).localVersion = (l.side d).localVersion)
    (hsent : ∃ extra, next.inFlight network d = l.inFlight network d ++ extra ∧
      (∀ item ∈ extra, Late item) ∧ (extra ≠ [] → (l.side d).Established))
    (hread : ∃ gone, l.inFlight network d.opposite = gone ++ next.inFlight network d.opposite ∧
      (gone ≠ [] → (l.side d).Established))
    (hresult : ∀ e, (next.side d).result ≠ some (.error (.handshake e))) :
    Linked network version next := by
  have hall : ∀ {P : PeerSession α → ConnectionDirection → Prop},
      P (next.side d) d → P (l.side d.opposite) d.opposite →
        ∀ other, P (next.side other) other := by
    intro P hd hopposite other
    rcases d.eq_or_eq_opposite other with rfl | rfl
    · exact hd
    · rwa [hside]
  have hphase : ∀ other, next.phase other = l.phase other := fun other ↦ by
    rcases d.eq_or_eq_opposite other with rfl | rfl
    · exact congrArg HandshakeState.phase hhandshake
    · rw [phase, hside, phase]
  refine ⟨hall (P := fun s other ↦ s.handshake.direction = other) (hhandshake ▸ h.direction d)
      (h.direction _),
    hall (P := fun s _ ↦ s.handshake.WellDirected) (hhandshake ▸ h.directed d) (h.directed _),
    hall (P := fun s other ↦ s.localVersion = version other) (hversion ▸ h.localVersion d)
      (h.localVersion _),
    hall (P := fun s other ↦ s.handshake.config.localNonce = (version other).nonce)
      (hhandshake ▸ h.nonce d) (h.nonce _), fun other hpos ↦ ?_, fun other ↦ ?_,
    fun other ↦ ?_, hall (P := fun s _ ↦ ∀ e, s.result ≠ some (.error (.handshake e))) hresult
      (h.unhurt _)⟩
  · rw [hphase] at hpos
    have hmet := h.met other hpos
    rcases d.eq_or_eq_opposite other with rfl | rfl
    · rwa [hhandshake]
    · rwa [hside]
  · rw [hphase, hphase]
    exact h.sent other
  · obtain ⟨later, hflight, hlate, hestablished⟩ := h.flight other
    rw [hphase, hphase]
    rcases d.eq_or_eq_opposite other with rfl | rfl
    · obtain ⟨extra, hextra, hextraLate, hextraEstablished⟩ := hsent
      refine ⟨later ++ extra, by rw [hextra, hflight, List.append_assoc], fun item hitem ↦ ?_,
        fun hne ↦ ?_⟩
      · exact (List.mem_append.mp hitem).elim (hlate item) (hextraLate item)
      · rw [PeerSession.Established, hhandshake]
        by_cases hlater : later = []
        · rw [hlater, List.nil_append] at hne
          exact hextraEstablished hne
        · exact hestablished hlater
    · obtain ⟨gone, hgone, hgoneEstablished⟩ := hread
      by_cases hempty : gone = []
      · rw [hempty, List.nil_append] at hgone
        refine ⟨later, hgone ▸ hflight, hlate, ?_⟩
        rwa [PeerSession.Established, hside]
      · have htwo : (l.phase d).consumed = 2 :=
          HandshakePhase.consumed_eq_two.mpr (hgoneEstablished hempty)
        have hnone : ((greeting (version d.opposite)).take ((l.phase d.opposite).produced
            d.opposite)).drop (l.phase d.opposite.opposite).consumed = [] := by
          rw [ConnectionDirection.opposite_opposite, htwo]
          exact List.drop_eq_nil_of_le ((List.length_take_le' _ _).trans (length_greeting _).le)
        rw [hnone, List.nil_append, hgone] at hflight
        rw [hnone]
        refine ⟨next.inFlight network d.opposite, rfl, fun item hitem ↦ hlate item ?_, fun _ ↦ ?_⟩
        · rw [← hflight]
          exact List.mem_append_right _ hitem
        · rw [PeerSession.Established, hside]
          refine hestablished fun hlater ↦ hempty ?_
          rw [hlater] at hflight
          exact (List.append_eq_nil_iff.mp hflight).1

omit [Features] in
theorem late_carried {message : Message} (h : message.Application) :
    Late (carried network message) := fun _ hcarried ↦ carried_late h hcarried

omit [Crypto] [Features] in
@[simp] theorem setSide_self (l : PeerLink α) (d : ConnectionDirection) (s : PeerSession α) :
    (l.setSide d s).side d = s := Function.update_self ..

omit [Crypto] [Features] in
@[simp] theorem setSide_opposite (l : PeerLink α) (d : ConnectionDirection) (s : PeerSession α) :
    (l.setSide d s).side d.opposite = l.side d.opposite :=
  Function.update_of_ne d.opposite_ne ..

omit [Features] in
theorem inFlight_setSide_opposite (s : PeerSession α) :
    (l.setSide d s).inFlight network d.opposite = l.inFlight network d.opposite := by
  rw [inFlight, setSide_opposite]
  rfl

omit [Features] in
/-- What a side sends goes behind everything that it sent before. -/
theorem inFlight_setSide {s : PeerSession α} {extra : List Message}
    (h : s.queue ++ s.sending = (l.side d).queue ++ (l.side d).sending ++ extra) :
    (l.setSide d s).inFlight network d =
      l.inFlight network d ++ extra.map (carried network) := by
  rw [inFlight, setSide_self, h, List.map_append, ← List.append_assoc]
  rfl

omit [Features] in
theorem Linked.setSide (h : Linked network version l) {s : PeerSession α}
    (hs : PeerSession.Proceeds (l.side d) s) : Linked network version (l.setSide d s) := by
  obtain ⟨extra, hextra, happ, hestablished⟩ := hs.sends
  refine h.frame (l.setSide_opposite d s) (by rw [setSide_self, hs.handshake])
    (by rw [setSide_self, hs.localVersion])
    ⟨_, inFlight_setSide hextra, fun item hitem ↦ ?_, fun hne ↦ ?_⟩
    ⟨[], (inFlight_setSide_opposite s).symm, fun hne ↦ absurd rfl hne⟩ fun e he ↦ ?_
  · obtain ⟨message, hmessage, rfl⟩ := List.mem_map.mp hitem
    exact late_carried (happ message hmessage)
  · refine hestablished fun hnone ↦ hne ?_
    rw [hnone, List.map_nil]
  · rw [setSide_self] at he
    exact h.unhurt d e (hs.unhurt e he)

omit [Features] in
/-- What goes from the queue to the wire stays on its way. -/
theorem transmit_cases (hstep : l.transmit network d = some next) :
    (∃ s, (l.side d).stopWriter = some s ∧ next = l.setSide d s) ∨
    ∃ rest, next.side d = { l.side d with queue := rest } ∧
      next.side d.opposite = l.side d.opposite ∧
      ∀ other, next.inFlight network other = l.inFlight network other := by
  unfold PeerLink.transmit at hstep
  split at hstep
  · cases hstep
  · rename_i message rest hqueue
    split at hstep
    · obtain ⟨s, hs, rfl⟩ := Option.map_eq_some_iff.mp hstep
      exact .inl ⟨s, hs, rfl⟩
    · rename_i item hitem
      obtain ⟨s, hs, rfl⟩ := Option.map_eq_some_iff.mp hstep
      obtain rfl := PeerSession.write_eq hs hqueue
      have hside := setSide_self l d { l.side d with queue := rest }
      have hother := setSide_opposite l d { l.side d with queue := rest }
      generalize hnext : (l.setSide d { l.side d with queue := rest }).setWire d
        (l.wire d ++ [item]) = next
      have hwire : next.wire = Function.update l.wire d (l.wire d ++ [item]) := by
        rw [← hnext]
        rfl
      have hsides : next.side = (l.setSide d { l.side d with queue := rest }).side := by
        rw [← hnext]
        rfl
      rw [← hsides] at hside hother
      refine .inr ⟨rest, hside, hother, fun other ↦ ?_⟩
      rcases d.eq_or_eq_opposite other with rfl | rfl
      · simp only [inFlight, hside, hwire, Function.update_self, hqueue, List.map_append,
          List.cons_append, List.map_cons, List.map_nil, hitem, List.append_assoc,
          List.nil_append]
      · rw [inFlight, hother, hwire, Function.update_of_ne d.opposite_ne]
        rfl

omit [Features] in
theorem Linked.transmit (h : Linked network version l) (hstep : l.transmit network d = some next) :
    Linked network version next := by
  rcases transmit_cases hstep with ⟨s, hs, rfl⟩ | ⟨rest, hside, hother, hflight⟩
  · exact h.setSide (PeerSession.stopWriter_proceeds hs)
  · refine h.frame hother (by rw [hside]) (by rw [hside])
      ⟨[], by rw [hflight, List.append_nil], (fun _ hmem ↦ nomatch hmem), fun hne ↦ absurd rfl hne⟩
      ⟨[], (hflight _).symm, fun hne ↦ absurd rfl hne⟩ fun e he ↦ ?_
    rw [hside] at he
    exact h.unhurt d e he

omit [Features] in
/-- What a side reads next of the other's handshake. -/
theorem Linked.next_greeting (h : Linked network version l) {item : Except NetError Message}
    {tail : List (Option (Except NetError Message))}
    (hitem : l.inFlight network d.opposite = some item :: tail) (hnot : ¬ (l.side d).Established) :
    (l.phase d).consumed < (l.phase d.opposite).produced d.opposite ∧
      (greeting (version d.opposite))[(l.phase d).consumed]? = some (some item) ∧
      ∃ later, tail = ((greeting (version d.opposite)).take
          ((l.phase d.opposite).produced d.opposite)).drop ((l.phase d).consumed + 1) ++ later ∧
        (∀ item ∈ later, Late item) ∧ (later ≠ [] → (l.side d.opposite).Established) := by
  obtain ⟨later, hflight, hlate, hestablished⟩ := h.flight d.opposite
  rw [ConnectionDirection.opposite_opposite, hitem] at hflight
  have hshort : (l.phase d).consumed < 2 :=
    lt_of_le_of_ne (HandshakePhase.consumed_le _) fun htwo ↦
      hnot (HandshakePhase.consumed_eq_two.mp htwo)
  have hlt : (l.phase d).consumed < (l.phase d.opposite).produced d.opposite := by
    by_contra hge
    have hnone : ((greeting (version d.opposite)).take ((l.phase d.opposite).produced
        d.opposite)).drop (l.phase d).consumed = [] :=
      List.drop_eq_nil_of_le ((List.length_take_le _ _).trans (Nat.not_lt.mp hge))
    rw [hnone, List.nil_append] at hflight
    have hother :=
      HandshakePhase.consumed_eq_two.mpr (hestablished (hflight ▸ List.cons_ne_nil _ _))
    have hproduced := HandshakePhase.produced_of_pos (hother ▸ Nat.two_pos) d.opposite
    exact hge (hproduced ▸ hshort)
  have hlength : (l.phase d).consumed < ((greeting (version d.opposite)).take
      ((l.phase d.opposite).produced d.opposite)).length := by
    rw [List.length_take, length_greeting]
    exact lt_min hlt hshort
  rw [List.drop_eq_getElem_cons hlength, List.cons_append] at hflight
  obtain ⟨hhead, htail⟩ := List.cons.inj hflight
  refine ⟨hlt, ?_, later, htail, hlate, hestablished⟩
  rw [hhead, List.getElem_take]
  exact List.getElem?_eq_getElem _

/-- A side takes the next message of the handshake, and answers. -/
structure Takes (network : Network) (version : ConnectionDirection → VersionMessage)
    (l : PeerLink α) (d : ConnectionDirection) (s : PeerSession α) : Prop where
  direction : s.handshake.direction = d
  directed : s.handshake.WellDirected
  localVersion : s.localVersion = version d
  nonce : s.handshake.config.localNonce = (version d).nonce
  phase : s.handshake.phase.consumed = (l.phase d).consumed + 1
  met : s.handshake.peerVersion = some (version d.opposite)
  sends : ∃ replies : List Message,
    s.queue ++ s.sending = (l.side d).queue ++ (l.side d).sending ++ replies ∧
      replies.map (carried network) = (greeting (version d)).drop ((l.phase d).produced d)
  writing : s.writing = (l.side d).writing
  result : s.result = (l.side d).result

omit [Features] in
theorem Linked.advance (h : Linked network version l) {item : Except NetError Message}
    {rest : List (Except NetError Message)} {s : PeerSession α}
    (hwire : l.wire d.opposite = item :: rest) (hnot : ¬ (l.side d).Established)
    (hs : Takes network version l d s) :
    Linked network version ((l.setSide d s).setWire d.opposite rest) := by
  obtain ⟨replies, hsends, hreplies⟩ := hs.sends
  have hitem : l.inFlight network d.opposite = some item ::
      (rest.map some ++ ((l.side d.opposite).queue ++ (l.side d.opposite).sending).map
        (carried network)) := by
    rw [inFlight, hwire]
    rfl
  obtain ⟨hlt, -, later, htail, hlate, hestablished⟩ := h.next_greeting hitem hnot
  generalize hnext : (l.setSide d s).setWire d.opposite rest = next
  have hside : next.side d = s := by
    rw [← hnext]
    exact setSide_self ..
  have hother : next.side d.opposite = l.side d.opposite := by
    rw [← hnext]
    exact setSide_opposite ..
  have hwires : next.wire = Function.update l.wire d.opposite rest := by
    rw [← hnext]
    rfl
  have hphaseOther : next.phase d.opposite = l.phase d.opposite := by rw [phase, hother, phase]
  have hphaseSelf : (next.phase d).consumed = (l.phase d).consumed + 1 := by
    rw [phase, hside, hs.phase]
  have hproduced : (next.phase d).produced d = 2 :=
    HandshakePhase.produced_of_pos (hphaseSelf ▸ Nat.succ_pos _) d
  refine ⟨fun other ↦ ?_, fun other ↦ ?_, fun other ↦ ?_, fun other ↦ ?_, fun other hpos ↦ ?_,
    fun other ↦ ?_, fun other ↦ ?_, fun other ↦ ?_⟩ <;>
  rcases d.eq_or_eq_opposite other with rfl | rfl
  · rw [hside, hs.direction]
  · rw [hother]
    exact h.direction _
  · rw [hside]
    exact hs.directed
  · rw [hother]
    exact h.directed _
  · rw [hside, hs.localVersion]
  · rw [hother]
    exact h.localVersion _
  · rw [hside, hs.nonce]
  · rw [hother]
    exact h.nonce _
  · rw [hside, hs.met]
  · rw [hphaseOther] at hpos
    rw [hother]
    exact h.met _ hpos
  · rw [hproduced]
    exact HandshakePhase.consumed_le _
  · rw [ConnectionDirection.opposite_opposite, hphaseSelf, hphaseOther]
    exact hlt
  · obtain ⟨before, hbefore, -, hquiet⟩ := h.flight other
    have hnone : before = [] := by
      by_contra hne
      exact hnot (hquiet hne)
    refine ⟨[], ?_, (fun _ hmem ↦ nomatch hmem), fun hne ↦ absurd rfl hne⟩
    have hflight : next.inFlight network other = l.inFlight network other ++
        replies.map (carried network) := by
      rw [inFlight, hwires, Function.update_of_ne other.opposite_ne.symm, hside, hsends,
        List.map_append, ← List.append_assoc]
      rfl
    rw [hflight, hbefore, hnone, List.append_nil, List.append_nil, hreplies, hproduced,
      hphaseOther, List.take_of_length_le (length_greeting _).le,
      ← List.drop_append_of_le_length (by
        rw [List.length_take, length_greeting]
        exact le_min (h.sent other) (HandshakePhase.consumed_le _)), List.take_append_drop]
  · refine ⟨later, ?_, hlate, ?_⟩
    · rw [ConnectionDirection.opposite_opposite, hphaseSelf, hphaseOther, ← htail, inFlight, hwires,
        Function.update_self, hother]
    · rwa [PeerSession.Established, hother]
  · rw [hside, hs.result]
    exact h.unhurt _
  · rw [hother]
    exact h.unhurt _

/-- The versions get through, and are not of the same nonce. -/
structure Distinct (network : Network) (version : ConnectionDirection → VersionMessage) : Prop where
  carried : ∀ d, carried network (Message.version (version d)) =
    some (.ok (Message.version (version d)))
  nonce : ∀ d : ConnectionDirection, (version d.opposite).nonce ≠ (version d).nonce

omit [Features] in
theorem answer_carried (hversion : Distinct network version) {state : HandshakeState}
    (hdirection : state.direction = d) (hphase : state.phase.consumed = 0) :
    (state.answer (version d)).map (carried network) =
      (greeting (version d)).drop (state.phase.produced d) := by
  have hverack : carried network Message.verack = some (.ok Message.verack) := carried_verack
  subst hdirection
  cases hdirection : state.direction with
  | inbound =>
      simp only [HandshakeState.answer, hdirection, HandshakePhase.produced, hphase, if_true,
        List.map_cons, List.map_nil, hverack]
      rw [← hdirection, hversion.carried]
      rfl
  | outbound =>
      simp only [HandshakeState.answer, hdirection, HandshakePhase.produced, hphase, if_true,
        List.map_cons, List.map_nil, hverack]
      rfl

omit [Features] in
/-- The message that a side reads during its handshake is the one that it waits for. -/
theorem Linked.takes (hversion : Distinct network version) (h : Linked network version l)
    {item : Except NetError Message} {rest : List (Except NetError Message)}
    (hwire : l.wire d.opposite = item :: rest) (hwaits : (l.side d).Waits)
    (hnot : ¬ (l.side d).Established) :
    Takes network version l d ((l.side d).readHandshake item) := by
  have hitem : l.inFlight network d.opposite = some item ::
      (rest.map some ++ ((l.side d.opposite).queue ++ (l.side d.opposite).sending).map
        (Bitrst.carried network)) := by
    rw [inFlight, hwire]
    rfl
  obtain ⟨-, hgreeting, -⟩ := h.next_greeting hitem hnot
  have hshort : (l.phase d).consumed < 2 :=
    lt_of_le_of_ne (HandshakePhase.consumed_le _) fun htwo ↦
      hnot (HandshakePhase.consumed_eq_two.mp htwo)
  rcases Nat.lt_succ_iff_lt_or_eq.mp hshort with hzero | hone
  · obtain hzero := Nat.lt_one_iff.mp hzero
    rw [hzero] at hgreeting
    obtain rfl := Option.some.inj (Option.some.inj hgreeting)
    have hpayload : (Message.version (version d.opposite)).payload =
      .version (version d.opposite) := rfl
    have hread := HandshakeState.onMessage_version (l.side d).localVersion (h.directed d)
      (HandshakeState.awaitsVersion_iff.mpr hzero) hpayload (by
        rw [h.nonce d]
        exact hversion.nonce d)
    simp only [PeerSession.readHandshake, hread]
    refine ⟨h.direction d, ⟨(fun hphase ↦ nomatch hphase), fun hphase ↦ nomatch hphase⟩,
      h.localVersion d, h.nonce d, ?_, rfl,
      ⟨_, ?_, answer_carried hversion (h.direction d) hzero⟩, rfl, rfl⟩
    · rw [hzero]
      rfl
    · rw [hwaits.2, List.append_nil, h.localVersion d]
  · rw [hone] at hgreeting
    obtain rfl := Option.some.inj (Option.some.inj hgreeting)
    have hphase : (l.side d).handshake.phase = .awaitingVerack := by
      change (l.side d).handshake.phase.consumed = 1 at hone
      cases hphase : (l.side d).handshake.phase with
      | awaitingVerack => rfl
      | _ => rw [hphase] at hone; cases hone
    have hpayload : Message.verack.payload = .verack := rfl
    have hread := HandshakeState.onMessage_verack hphase hpayload
      ((l.side d).handshake.offered (l.side d).localVersion)
    simp only [PeerSession.readHandshake, hread]
    refine ⟨h.direction d, ⟨(fun hphase ↦ nomatch hphase), fun hphase ↦ nomatch hphase⟩,
      h.localVersion d, h.nonce d, ?_, h.met d (hone ▸ Nat.one_pos), ⟨[], ?_, ?_⟩, rfl, rfl⟩
    · rw [hone]
      rfl
    · change (l.side d).queue ++ [] = (l.side d).queue ++ (l.side d).sending ++ []
      rw [hwaits.2, List.append_nil, List.append_nil]
    · rw [HandshakePhase.produced_of_pos (hone ▸ Nat.one_pos)]
      rfl

omit [Features] in
/-- Behind the handshake a side reads what was sent behind it. -/
theorem Linked.late_of_established (h : Linked network version l) {item : Except NetError Message}
    {rest : List (Except NetError Message)} (hwire : l.wire d.opposite = item :: rest)
    (hestablished : (l.side d).Established) : Late (some item) := by
  obtain ⟨later, hflight, hlater, -⟩ := h.flight d.opposite
  have htwo : (l.phase d).consumed = 2 := HandshakePhase.consumed_eq_two.mpr hestablished
  have hnone : ((greeting (version d.opposite)).take ((l.phase d.opposite).produced
      d.opposite)).drop (l.phase d.opposite.opposite).consumed = [] := by
    rw [ConnectionDirection.opposite_opposite, htwo]
    exact List.drop_eq_nil_of_le ((List.length_take_le' _ _).trans (length_greeting _).le)
  rw [hnone, List.nil_append, inFlight, hwire] at hflight
  exact hlater _ (hflight ▸ List.mem_cons_self)

/-- A message arrives from the other side. -/
theorem Linked.deliver (hversion : Distinct network version) (h : Linked network version l)
    {now : ℕ} {node : Node} (hstep : l.deliver d now node = some next) :
    Linked network version next := by
  unfold PeerLink.deliver at hstep
  split at hstep
  · cases hstep
  · rename_i item rest hwire
    obtain ⟨s, hread, rfl⟩ := Option.map_eq_some_iff.mp hstep
    unfold PeerSession.read at hread
    by_cases hwaits : (l.side d).Waits
    · rw [if_neg (not_not.mpr hwaits)] at hread
      by_cases hestablished : (l.side d).Established
      · rw [if_pos hestablished] at hread
        have hlate := h.late_of_established hwire hestablished
        have hs := PeerSession.readRelay_proceeds hread hwaits hestablished hlate
        obtain ⟨extra, hextra, happ, -⟩ := hs.sends
        generalize hnext : (l.setSide d s).setWire d.opposite rest = next
        have hside : next.side d = s := by
          rw [← hnext]
          exact setSide_self ..
        have hother : next.side d.opposite = l.side d.opposite := by
          rw [← hnext]
          exact setSide_opposite ..
        have hwires : next.wire = Function.update l.wire d.opposite rest := by
          rw [← hnext]
          rfl
        refine h.frame hother (by rw [hside, hs.handshake]) (by rw [hside, hs.localVersion])
          ⟨extra.map (Bitrst.carried network), ?_, fun item hitem ↦ ?_, fun _ ↦ hestablished⟩
          ⟨[some item], ?_, fun _ ↦ hestablished⟩ fun e he ↦ ?_
        · rw [inFlight, hside, hwires, Function.update_of_ne d.opposite_ne.symm, hextra,
            List.map_append, ← List.append_assoc]
          rfl
        · obtain ⟨message, hmessage, rfl⟩ := List.mem_map.mp hitem
          exact late_carried (happ message hmessage)
        · rw [inFlight, hwire, inFlight, hother, hwires, Function.update_self]
          rfl
        · rw [hside] at he
          exact h.unhurt d e (hs.unhurt e he)
      · rw [if_neg hestablished] at hread
        obtain rfl := Option.some.inj hread
        exact h.advance hwire hestablished (h.takes hversion hwire hwaits hestablished)
    · rw [if_pos hwaits] at hread
      cases hread

/-- A step is one of a task that leaves its handshake alone, or moves a message on. -/
theorem step_cases {action : LinkAction} (hstep : l.step network action = some next) :
    (∃ d s, next = l.setSide d s ∧ PeerSession.Proceeds (l.side d) s ∧
      ((l.side d).result ≠ none → s.result = (l.side d).result) ∧
      ((∀ other, action ≠ .breakWrite other) → s.writing = (l.side d).writing)) ∨
    (∃ d, l.transmit network d = some next) ∨ ∃ d now node, l.deliver d now node = some next := by
  have hown : ∀ (d : ConnectionDirection) (own : SessionAction),
      ((l.side d).step own).map (l.setSide d) = some next →
      (∀ s, (l.side d).step own = some s → PeerSession.Proceeds (l.side d) s) →
      ((∀ other, action ≠ .breakWrite other) → own ≠ .stopWriter) →
        ∃ d s, next = l.setSide d s ∧ PeerSession.Proceeds (l.side d) s ∧
          ((l.side d).result ≠ none → s.result = (l.side d).result) ∧
          ((∀ other, action ≠ .breakWrite other) → s.writing = (l.side d).writing) := by
    intro d own hmap hproceeds hwriter
    obtain ⟨s, hs, rfl⟩ := Option.map_eq_some_iff.mp hmap
    exact ⟨d, s, rfl, hproceeds s hs, PeerSession.step_final hs,
      fun h ↦ PeerSession.step_writing hs (hwriter h)⟩
  cases action with
  | send d =>
      exact .inl (hown d .send hstep (fun _ ↦ PeerSession.send_proceeds) fun _ h ↦ by cases h)
  | transmit d => exact .inr (.inl ⟨d, hstep⟩)
  | deliver d now node => exact .inr (.inr ⟨d, now, node, hstep⟩)
  | relay d items =>
      refine .inl (hown d (.command (some (.send (Message.inv items)))) hstep (fun _ hs ↦ ?_)
        fun _ h ↦ by cases h)
      rw [PeerSession.step] at hs
      refine PeerSession.command_proceeds hs fun message hmessage ↦ ?_
      rw [← PeerCommand.send.inj (Option.some.inj hmessage)]
      exact Message.inv_application items
  | shutDown d =>
      refine .inl (hown d (.command none) hstep (fun _ hs ↦ ?_) fun _ h ↦ by cases h)
      rw [PeerSession.step] at hs
      exact PeerSession.command_proceeds hs fun _ hmessage ↦ by cases hmessage
  | timeOut d =>
      exact .inl (hown d .timeOut hstep (fun _ ↦ PeerSession.timeOut_proceeds)
        fun _ h ↦ by cases h)
  | breakWrite d =>
      exact .inl (hown d .stopWriter hstep (fun _ ↦ PeerSession.stopWriter_proceeds)
        fun h _ ↦ h d rfl)
  | breakRead d e now node =>
      refine .inl (hown d (.read (.error e) now node) hstep (fun s hs ↦ ?_) fun _ h ↦ by cases h)
      change (l.side d).read (.error e) now node = some s at hs
      unfold PeerSession.read at hs
      by_cases hwaits : (l.side d).Waits
      · rw [if_neg (not_not.mpr hwaits)] at hs
        split at hs
        · rename_i hestablished
          exact PeerSession.readRelay_proceeds hs hwaits hestablished fun _ hitem ↦
            by cases Option.some.inj hitem
        · obtain rfl := Option.some.inj hs
          exact PeerSession.readHandshake_error_proceeds e
      · rw [if_pos hwaits] at hs
        cases hs

theorem Linked.step (hversion : Distinct network version) (h : Linked network version l)
    {action : LinkAction} (hstep : l.step network action = some next) :
    Linked network version next := by
  rcases step_cases hstep with ⟨d, s, rfl, hs, -, -⟩ | ⟨d, hmove⟩ | ⟨d, now, node, hmove⟩
  · exact h.setSide hs
  · exact h.transmit hmove
  · exact h.deliver hversion hmove

theorem Linked.run (hversion : Distinct network version) (h : Linked network version l)
    {actions : List LinkAction} (hrun : execute (PeerLink.step network) l actions = some next) :
    Linked network version next :=
  Reaches.invariant (A := fun _ ↦ True) (fun _ _ _ hl _ hstep ↦ hl.step hversion hstep)
    ⟨actions, fun _ _ ↦ trivial, hrun⟩ h

section

variable (addr : ConnectionDirection → α) (config : ConnectionDirection → HandshakeConfig)
  (timestamp : ConnectionDirection → Int64) (startHeight : ConnectionDirection → Int32)
  (relay : ConnectionDirection → PeerRelayState)

/-- The version of a side. -/
def versionOf (d : ConnectionDirection) : VersionMessage :=
  defaultVersionMessage (config d).localNonce (timestamp d) (startHeight d)

omit [Features] in
theorem versionOf_distinct (hnonce : (config .outbound).localNonce ≠ (config .inbound).localNonce) :
    Distinct network (versionOf config timestamp startHeight) where
  carried d := carried_version _ _ _
  nonce d := by
    cases d with
    | inbound => exact hnonce
    | outbound => exact hnonce.symm

omit [Features] in
theorem start_linked : Linked network (versionOf config timestamp startHeight)
    (start addr config timestamp startHeight relay) where
  direction _ := rfl
  directed d := HandshakeState.new_wellDirected d (config d)
  localVersion _ := rfl
  nonce _ := rfl
  met d hpos := by cases d <;> cases hpos
  sent d := by cases d <;> exact Nat.zero_le _
  flight d := by
    refine ⟨[], ?_, (fun _ h ↦ nomatch h), fun h ↦ absurd rfl h⟩
    cases d with
    | inbound => rfl
    | outbound =>
        change [carried network (Message.version (versionOf config timestamp startHeight
          .outbound))] = _
        rw [versionOf, carried_version]
        rfl
  unhurt _ _ := fun h ↦ nomatch h

end

/-- Two nodes whose nonces differ never accuse each other of anything, in whatever order their
tasks and writers run, wherever the connection breaks, whatever deadlines pass and whatever they
send each other afterwards; and when one of them is established, both have the version that the
other one sent. -/
theorem handshake_agrees {addr : ConnectionDirection → α}
    {config : ConnectionDirection → HandshakeConfig} {timestamp : ConnectionDirection → Int64}
    {startHeight : ConnectionDirection → Int32} {relay : ConnectionDirection → PeerRelayState}
    (hnonce : (config .outbound).localNonce ≠ (config .inbound).localNonce)
    {actions : List LinkAction}
    (hrun : execute (PeerLink.step network) (start addr config timestamp startHeight relay)
      actions = some l) :
    (∀ d e, (l.side d).result ≠ some (.error (.handshake e))) ∧
    ∀ d, (l.side d).Established → ∀ other, (l.side other).handshake.peerVersion =
      some (versionOf config timestamp startHeight other.opposite) := by
  have h := (start_linked addr config timestamp startHeight relay).run
    (versionOf_distinct config timestamp startHeight hnonce) hrun
  refine ⟨h.unhurt, fun d hd other ↦ h.met other ?_⟩
  have htwo : (l.phase d).consumed = 2 := HandshakePhase.consumed_eq_two.mpr hd
  rcases d.eq_or_eq_opposite other with rfl | rfl
  · exact htwo ▸ Nat.two_pos
  · have hsent := h.sent d.opposite
    rw [ConnectionDirection.opposite_opposite, htwo] at hsent
    by_contra hpos
    have hzero := Nat.le_zero.mp (Nat.not_lt.mp hpos)
    cases d <;>
    · rw [ConnectionDirection.opposite] at hsent hzero
      simp only [HandshakePhase.produced, hzero, if_true] at hsent
      exact absurd hsent (by decide)

end PeerLink

end

end Bitrst

namespace Bitrst.Sample

open Support PeerLink

/-- Two connected nodes, the one that accepted with nonce 1 and the other with nonce 2. -/
def paired : PeerLink Unit :=
  .start (fun _ ↦ ()) (fun d ↦ ⟨if d = .inbound then 1 else 2, 60⟩) (fun _ ↦ 0) (fun _ ↦ 0)
    fun _ ↦ .withEventCursor ⟨0⟩

/-- The messages of a handshake, each sent, written and read in turn. -/
def greet : List LinkAction :=
  [.send .outbound, .transmit .outbound, .deliver .inbound 0 (alone start),
    .send .inbound, .send .inbound, .transmit .inbound, .transmit .inbound,
    .deliver .outbound 0 (alone start), .send .outbound, .transmit .outbound,
    .deliver .outbound 0 (alone start), .deliver .inbound 0 (alone start)]

theorem paired_agree : ∃ l, execute (PeerLink.step .mainnet) paired greet = some l ∧
    (∀ d, (l.side d).Established) ∧ (∀ d e, (l.side d).result ≠ some (.error (.handshake e))) ∧
    ∀ d, (l.side d).handshake.peerVersion =
      some (versionOf (fun d ↦ ⟨if d = .inbound then 1 else 2, 60⟩) (fun _ ↦ 0) (fun _ ↦ 0)
        d.opposite) := by
  have hreached : ((execute (PeerLink.step .mainnet) paired greet).map fun l ↦
      (decide (l.side .inbound).Established, decide (l.side .outbound).Established)) =
        some (true, true) := by
    decide +kernel
  obtain ⟨l, hrun, hboth⟩ := Option.map_eq_some_iff.mp hreached
  obtain ⟨hinbound, houtbound⟩ := Prod.mk.inj hboth
  have hestablished : ∀ d, (l.side d).Established := fun d ↦ by
    cases d with
    | inbound => exact of_decide_eq_true hinbound
    | outbound => exact of_decide_eq_true houtbound
  obtain ⟨hunhurt, hagree⟩ := handshake_agrees (by decide) hrun
  exact ⟨l, hrun, hestablished, hunhurt, hagree .inbound (hestablished .inbound)⟩

end Bitrst.Sample
