import Bitrst.CursorSync
import Bitrst.MessageRoundTrip
import Bitrst.PeerSession
import Bitrst.Support.Journal

/-!
# What a connection makes of its messages

Whatever a peer sends, its messages reach the handlers only behind a version and
a verack, each of them once and in order, and the task ends with the first
message that is out of place.
-/

namespace Bitrst

open Support

/-- Why the connection ends with what it reads after `place` messages, if it does: the first
message has to be a version of another nonce, the second a verack, and the later ones neither. -/
def refusal (nonce : UInt64) (place : ℕ) : Except NetError Message → Option SessionError
  | .error e => some (.net e)
  | .ok message =>
      match place with
      | 0 =>
          match message.payload with
          | .version version =>
              if version.nonce = nonce then some (.handshake .selfConnection) else none
          | _ => some (.handshake (.handshakeViolation "unexpected handshake message"))
      | 1 =>
          if message.payload = .verack then none
          else some (.handshake (.handshakeViolation "unexpected handshake message"))
      | _ + 2 =>
          if message.payload.isHandshake then
            some (.handshake (.handshakeViolation "version/verack after handshake"))
          else none

/-- An error that the connection gives to what it reads. -/
def SessionError.OfInput : SessionError → Prop
  | .net _ | .handshake _ => True
  | .handshakeTimeout _ | .outboundQueueFull | .chain _ | .io _ | .taskJoinFailed => False

theorem relayErrorToNet_not_ofInput (e : RelayError) : ¬ (relayErrorToNet e).OfInput := by
  cases e <;> exact id

/-- How far the handshake is after so many messages. -/
def HandshakeState.PhaseAt (state : HandshakeState) : ℕ → Prop
  | 0 => state.AwaitsVersion
  | 1 => state.phase = .awaitingVerack
  | _ + 2 => state.phase = .established

theorem HandshakeState.PhaseAt.established_iff {state : HandshakeState} {n : ℕ}
    (h : state.PhaseAt n) : state.phase = .established ↔ 2 ≤ n := by
  match n with
  | 0 =>
      refine iff_of_false (fun hphase ↦ ?_) (by decide)
      rcases h with h | h <;> exact nomatch h.symm.trans hphase
  | 1 => exact iff_of_false (fun hphase ↦ nomatch h.symm.trans hphase) (by decide)
  | n + 2 => exact iff_of_true h (Nat.le_add_left _ _)

namespace PeerSession

section

variable {α : Type}

/-- What `read_message` returned in the actions of a run. -/
def received : List SessionAction → List (Except NetError Message)
  | [] => []
  | .read item _ _ :: actions => item :: received actions
  | _ :: actions => received actions

/-- The message that an action hands to `handle_peer_message`. -/
def handles (s : PeerSession α) : SessionAction → List Message
  | .read (.ok message) _ _ =>
      if s.Established ∧ ¬ message.payload.isHandshake then [message] else []
  | _ => []

/-- The task has read nothing that it did not accept, or it ended with the one thing that it
refused. -/
def EndsWith (s : PeerSession α) (nonce : UInt64) (place : ℕ)
    (final : List (Except NetError Message)) : Prop :=
  (final = [] ∧ ∀ e, s.result = some (.error e) → ¬ e.OfInput) ∨
    ∃ item e, final = [item] ∧ refusal nonce place item = some e ∧ s.result = some (.error e)

/-- What a task has read, up to now. -/
structure Heard (nonce : UInt64) (s : PeerSession α) (accepted : List Message)
    (final : List (Except NetError Message)) : Prop where
  nonce_eq : s.handshake.config.localNonce = nonce
  directed : s.handshake.WellDirected
  phase : s.handshake.PhaseAt accepted.length
  accepts : ∀ i message, accepted[i]? = some message → refusal nonce i (.ok message) = none
  ends : s.EndsWith nonce accepted.length final
  emits : s.emitted = [] ∧ accepted.length < 2 ∨
    2 ≤ accepted.length ∧ ∃ later : List (List InventoryVector),
      s.emitted = .ready s.addr :: later.map (.announce s.addr)

variable {s next : PeerSession α} {nonce : UInt64} {accepted : List Message}
  {final : List (Except NetError Message)}

/-- A step that reads nothing, with what it keeps. -/
theorem Heard.congr (h : Heard nonce s accepted final) (hhandshake : next.handshake = s.handshake)
    (hemitted : next.emitted = s.emitted) (haddr : next.addr = s.addr)
    (hresult : next.result = s.result ∨
      s.result = none ∧ ∀ e, next.result = some (.error e) → ¬ e.OfInput) :
    Heard nonce next accepted final where
  nonce_eq := hhandshake ▸ h.nonce_eq
  directed := hhandshake ▸ h.directed
  phase := hhandshake ▸ h.phase
  accepts := h.accepts
  ends := by
    rcases hresult with hsame | ⟨hnone, hother⟩
    · rw [EndsWith, hsame]
      exact h.ends
    · rcases h.ends with ⟨rfl, -⟩ | ⟨item, e, -, -, hresult⟩
      · exact .inl ⟨rfl, hother⟩
      · rw [hnone] at hresult
        cases hresult
  emits := by
    rw [hemitted, haddr]
    exact h.emits

/-- A task that waits has refused nothing. -/
theorem Heard.final_eq_nil (h : Heard nonce s accepted final) (hwaits : s.Waits) : final = [] := by
  rcases h.ends with ⟨rfl, -⟩ | ⟨item, e, -, -, hresult⟩
  · rfl
  · rw [hwaits.1] at hresult
    cases hresult

/-- The task ends with what it refuses. -/
theorem Heard.refuse (h : Heard nonce s accepted []) {item : Except NetError Message}
    {e : SessionError} (hrefusal : refusal nonce accepted.length item = some e) :
    Heard nonce (s.fail e) accepted [item] where
  nonce_eq := h.nonce_eq
  directed := h.directed
  phase := h.phase
  accepts := h.accepts
  ends := .inr ⟨item, e, rfl, hrefusal, rfl⟩
  emits := h.emits

/-- The task goes on with what it accepts. -/
theorem Heard.accept (h : Heard nonce s accepted []) {message : Message}
    (hrefusal : refusal nonce accepted.length (.ok message) = none)
    (hconfig : next.handshake.config = s.handshake.config)
    (hdirected : next.handshake.WellDirected)
    (hphase : next.handshake.PhaseAt (accepted.length + 1))
    (hresult : ∀ e, next.result = some (.error e) → ¬ e.OfInput)
    (hemits : next.emitted = [] ∧ accepted.length + 1 < 2 ∨
      2 ≤ accepted.length + 1 ∧ ∃ later : List (List InventoryVector),
        next.emitted = .ready next.addr :: later.map (.announce next.addr)) :
    Heard nonce next (accepted ++ [message]) [] where
  nonce_eq := (congrArg HandshakeConfig.localNonce hconfig).trans h.nonce_eq
  directed := hdirected
  phase := by
    rw [List.length_append, List.length_singleton]
    exact hphase
  accepts i other hother := by
    rcases getElem?_concat_cases hother with hbefore | ⟨rfl, rfl⟩
    · exact h.accepts i other hbefore
    · exact hrefusal
  ends := .inl ⟨rfl, hresult⟩
  emits := by
    rw [List.length_append, List.length_singleton]
    exact hemits

/-- The version of the peer is the first message. -/
theorem Heard.readVersion (h : Heard nonce s [] []) (hwaits : s.Waits)
    (item : Except NetError Message) :
    ∃ more final, Heard nonce (s.readHandshake item) more final ∧
      more.map .ok ++ final = [item] ∧ more.drop 2 = [] := by
  have hrefuse : ∀ e, refusal nonce 0 item = some e → s.readHandshake item = s.fail e →
      ∃ more final, Heard nonce (s.readHandshake item) more final ∧
        more.map .ok ++ final = [item] ∧ more.drop 2 = [] := fun e hrefusal hread ↦
    ⟨[], [item], hread ▸ h.refuse hrefusal, rfl, rfl⟩
  cases item with
  | error e => exact hrefuse _ rfl rfl
  | ok message =>
      cases hpayload : message.payload with
      | version version =>
          by_cases hnonce : version.nonce = nonce
          · have hself := HandshakeState.onMessage_self h.phase hpayload
              (hnonce.trans h.nonce_eq.symm) (s.handshake.offered s.localVersion)
            refine hrefuse (.handshake .selfConnection) ?_ ?_
            · simp only [refusal, hpayload, if_pos hnonce]
            · simp only [readHandshake, hself]
          · have hversion := HandshakeState.onMessage_version s.localVersion h.directed h.phase
              hpayload (fun hsame ↦ hnonce (hsame.trans h.nonce_eq))
            have hquiet : s.emitted = [] := by
              rcases h.emits with ⟨hquiet, -⟩ | ⟨hlength, -⟩
              · exact hquiet
              · exact absurd hlength (by decide)
            refine ⟨[message], [], ?_, rfl, rfl⟩
            simp only [readHandshake, hversion]
            refine h.accept (by simp only [List.length_nil, refusal, hpayload, if_neg hnonce]) rfl
              ⟨(fun hphase ↦ by cases hphase), fun hphase ↦ by cases hphase⟩ rfl (fun e he ↦ ?_)
              (.inl ⟨hquiet, by decide⟩)
            cases hwaits.1.symm.trans he
      | _ =>
          have hearly := HandshakeState.onMessage_early h.phase
            (fun version hversion ↦ by rw [hpayload] at hversion; cases hversion)
            (s.handshake.offered s.localVersion)
          refine hrefuse (.handshake (.handshakeViolation "unexpected handshake message")) ?_ ?_
          · simp only [refusal, hpayload]
          · simp only [readHandshake, hearly]

/-- The verack of the peer is the second message. -/
theorem Heard.readVerack {greeting : Message} (h : Heard nonce s [greeting] []) (hwaits : s.Waits)
    (item : Except NetError Message) :
    ∃ more final, Heard nonce (s.readHandshake item) ([greeting] ++ more) final ∧
      more.map .ok ++ final = [item] ∧ ([greeting] ++ more).drop 2 = [] := by
  cases item with
  | error e => exact ⟨[], [.error e], h.refuse rfl, rfl, rfl⟩
  | ok message =>
      by_cases hpayload : message.payload = .verack
      · have hverack := HandshakeState.onMessage_verack h.phase hpayload
          (s.handshake.offered s.localVersion)
        have hquiet : s.emitted = [] := by
          rcases h.emits with ⟨hquiet, -⟩ | ⟨hlength, -⟩
          · exact hquiet
          · exact absurd hlength (Nat.not_succ_le_self 1)
        refine ⟨[message], [], ?_, rfl, rfl⟩
        simp only [readHandshake, hverack]
        refine h.accept (by simp only [List.length_singleton, refusal, hpayload, if_true]) rfl
          ⟨(fun hphase ↦ by cases hphase), fun hphase ↦ by cases hphase⟩ rfl (fun e he ↦ ?_)
          (.inr ⟨le_refl 2, [], ?_⟩)
        · cases hwaits.1.symm.trans he
        · simp only [if_true, hquiet]
          rfl
      · have hlate := HandshakeState.onMessage_late h.phase hpayload
          (s.handshake.offered s.localVersion)
        refine ⟨[], [.ok message], ?_, rfl, rfl⟩
        simp only [readHandshake, hlate]
        apply h.refuse
        simp only [List.length_singleton, refusal, if_neg hpayload]

end

section

variable [Crypto] [Features] {α : Type}

/-- The messages that a run hands to `handle_peer_message`. -/
def handled (s : PeerSession α) : List SessionAction → List Message
  | [] => []
  | action :: actions =>
      match s.step action with
      | none => []
      | some next => s.handles action ++ handled next actions

variable {s next : PeerSession α} {nonce : UInt64} {accepted : List Message}

/-- Every later message is handled or ends the task. -/
theorem Heard.readRelay (h : Heard nonce s accepted []) (hwaits : s.Waits)
    (hlong : 2 ≤ accepted.length) {item : Except NetError Message} {now : ℕ} {node : Node}
    (hread : s.readRelay item now node = some next) :
    ∃ more final, Heard nonce next (accepted ++ more) final ∧
      more.map .ok ++ final = [item] ∧
        more = s.handles (.read item now node) := by
  obtain ⟨place, hplace⟩ := Nat.exists_eq_add_of_le' hlong
  have hestablished : s.Established := h.phase.established_iff.mpr hlong
  obtain ⟨later, hemitted⟩ : ∃ later : List (List InventoryVector),
      s.emitted = .ready s.addr :: later.map (.announce s.addr) := by
    rcases h.emits with ⟨-, hshort⟩ | ⟨-, hlater⟩
    · omega
    · exact hlater
  cases item with
  | error e =>
      obtain rfl := Option.some.inj hread
      exact ⟨[], [.error e], by rw [List.append_nil]; exact h.refuse rfl, rfl, rfl⟩
  | ok message =>
      by_cases hhandshake : message.payload.isHandshake = true
      · rw [PeerSession.readRelay, if_pos hhandshake] at hread
        obtain rfl := Option.some.inj hread
        refine ⟨[], [.ok message], ?_, rfl, ?_⟩
        · rw [List.append_nil]
          apply h.refuse
          simp only [hplace, refusal, hhandshake, if_true]
        · rw [handles, if_neg fun hhandled ↦ hhandled.2 hhandshake]
      · rw [PeerSession.readRelay, if_neg hhandshake] at hread
        have hhandles : s.handles (.read (.ok message) now node) = [message] := by
          rw [handles, if_pos ⟨hestablished, hhandshake⟩]
        have hrefusal : refusal nonce accepted.length (.ok message) = none := by
          simp only [hplace, refusal, hhandshake, Bool.false_eq_true, if_false]
        have hnone : ∀ e, s.result = some (.error e) → ¬ e.OfInput :=
          fun e he ↦ by cases hwaits.1.symm.trans he
        have hphase : s.handshake.PhaseAt (accepted.length + 1) := by
          rw [hplace]
          exact hestablished
        refine ⟨[message], [], ?_, rfl, hhandles.symm⟩
        split at hread
        · cases hread
        · obtain rfl := Option.some.inj hread
          exact h.accept hrefusal rfl h.directed hphase
            (fun e he ↦ by rw [← Except.error.inj (Option.some.inj he)]; exact id)
            (.inr ⟨by omega, later, hemitted⟩)
        · obtain rfl := Option.some.inj hread
          exact h.accept hrefusal rfl h.directed hphase
            (fun e he ↦ by
              rw [← Except.error.inj (Option.some.inj he)]
              exact relayErrorToNet_not_ofInput _)
            (.inr ⟨by omega, later, hemitted⟩)
        · obtain rfl := Option.some.inj hread
          exact h.accept hrefusal rfl h.directed hphase hnone (.inr ⟨by omega, later, hemitted⟩)
        · obtain rfl := Option.some.inj hread
          exact h.accept hrefusal rfl h.directed hphase hnone (.inr ⟨by omega, later, hemitted⟩)
        · rename_i items _ _ _
          obtain rfl := Option.some.inj hread
          refine h.accept hrefusal rfl h.directed hphase hnone
            (.inr ⟨by omega, later ++ [items], ?_⟩)
          rw [hemitted, List.map_append, List.cons_append]
          rfl

variable {final : List (Except NetError Message)}

omit [Crypto] [Features] in
theorem not_ofInput_fail {e : SessionError} (he : ¬ e.OfInput) :
    ∀ other, (s.fail e).result = some (.error other) → ¬ other.OfInput := fun _ hother ↦ by
  rw [← Except.error.inj (Option.some.inj hother)]
  exact he

/-- What a task reads is accepted, and handled from the third message on, or it ends the task. -/
theorem Heard.read (h : Heard nonce s accepted final) {item : Except NetError Message} {now : ℕ}
    {node : Node} (hread : s.read item now node = some next) :
    final = [] ∧ ∃ more final, Heard nonce next (accepted ++ more) final ∧
      more.map .ok ++ final = [item] ∧
        (accepted ++ more).drop 2 = accepted.drop 2 ++ s.handles (.read item now node) := by
  unfold PeerSession.read at hread
  by_cases hwaits : s.Waits
  · obtain rfl := h.final_eq_nil hwaits
    refine ⟨rfl, ?_⟩
    rw [if_neg (not_not.mpr hwaits)] at hread
    by_cases hestablished : s.Established
    · rw [if_pos hestablished] at hread
      have hlong := h.phase.established_iff.mp hestablished
      obtain ⟨more, final, hnext, hitem, hmore⟩ := h.readRelay hwaits hlong hread
      refine ⟨more, final, hnext, hitem, ?_⟩
      rw [List.drop_append_of_le_length hlong, hmore]
    · rw [if_neg hestablished] at hread
      obtain rfl := Option.some.inj hread
      have hnone : s.handles (.read item now node) = [] := by
        cases item with
        | error e => rfl
        | ok message => exact if_neg fun hhandled ↦ hestablished hhandled.1
      rw [hnone, List.append_nil]
      have hshort : ¬ 2 ≤ accepted.length :=
        fun hlong ↦ hestablished (h.phase.established_iff.mpr hlong)
      match accepted, h, hshort with
      | [], h, _ => exact h.readVersion hwaits item
      | [greeting], h, _ => exact h.readVerack hwaits item
      | _ :: _ :: _, _, hshort => exact absurd (by simp) hshort
  · rw [if_pos hwaits] at hread
    cases hread

/-- A step reads at most one thing. -/
theorem Heard.step (h : Heard nonce s accepted final) {action : SessionAction}
    (hstep : s.step action = some next) :
    ∃ more last, Heard nonce next (accepted ++ more) last ∧
      (accepted ++ more).map .ok ++ last = accepted.map .ok ++ final ++ received [action] ∧
        (accepted ++ more).drop 2 = accepted.drop 2 ++ s.handles action := by
  have hquiet : ∀ {next : PeerSession α}, Heard nonce next accepted final →
      received [action] = [] → s.handles action = [] →
        ∃ more last, Heard nonce next (accepted ++ more) last ∧
          (accepted ++ more).map .ok ++ last = accepted.map .ok ++ final ++ received [action] ∧
            (accepted ++ more).drop 2 = accepted.drop 2 ++ s.handles action :=
    fun hnext hreceived hhandles ↦
      ⟨[], final, by rwa [List.append_nil], by rw [hreceived, List.append_nil, List.append_nil],
        by rw [hhandles, List.append_nil, List.append_nil]⟩
  cases action with
  | read item now node =>
      obtain ⟨rfl, more, last, hnext, hitem, hdrop⟩ := h.read hstep
      refine ⟨more, last, hnext, ?_, hdrop⟩
      rw [List.map_append, List.append_assoc, hitem, List.append_nil]
      rfl
  | send =>
      refine hquiet ?_ rfl rfl
      change s.send = some next at hstep
      unfold PeerSession.send at hstep
      split at hstep
      · cases hstep
      · split at hstep
        · cases hstep
        · rename_i hresult
          split at hstep
          · obtain rfl := Option.some.inj hstep
            exact h.congr rfl rfl rfl (.inr ⟨not_not.mp hresult, not_ofInput_fail id⟩)
          · split at hstep
            · obtain rfl := Option.some.inj hstep
              exact h.congr rfl rfl rfl (.inl rfl)
            · cases hstep
  | timeOut =>
      refine hquiet ?_ rfl rfl
      change s.timeOut = some next at hstep
      unfold PeerSession.timeOut at hstep
      split at hstep
      · rename_i hwaits
        obtain rfl := Option.some.inj hstep
        exact h.congr rfl rfl rfl (.inr ⟨hwaits.1.1, not_ofInput_fail id⟩)
      · cases hstep
  | command command =>
      refine hquiet ?_ rfl rfl
      change s.command command = some next at hstep
      unfold PeerSession.command at hstep
      split at hstep
      · rename_i hwaits
        split at hstep
        · obtain rfl := Option.some.inj hstep
          exact h.congr rfl rfl rfl (.inl rfl)
        all_goals
          obtain rfl := Option.some.inj hstep
          exact h.congr rfl rfl rfl (.inr ⟨hwaits.1.1, fun _ he ↦ nomatch Option.some.inj he⟩)
      · cases hstep
  | write =>
      refine hquiet ?_ rfl rfl
      change s.write = some next at hstep
      unfold PeerSession.write at hstep
      split at hstep
      · split at hstep
        · cases hstep
        · obtain rfl := Option.some.inj hstep
          exact h.congr rfl rfl rfl (.inl rfl)
      · cases hstep
  | stopWriter =>
      refine hquiet ?_ rfl rfl
      change s.stopWriter = some next at hstep
      unfold PeerSession.stopWriter at hstep
      split at hstep
      · obtain rfl := Option.some.inj hstep
        exact h.congr rfl rfl rfl (.inl rfl)
      · cases hstep

omit [Crypto] [Features] in
theorem received_cons (action : SessionAction) (actions : List SessionAction) :
    received (action :: actions) = received [action] ++ received actions := by
  cases action <;> rfl

theorem Heard.run (h : Heard nonce s accepted final) {actions : List SessionAction}
    (hrun : execute PeerSession.step s actions = some next) :
    ∃ more last, Heard nonce next (accepted ++ more) last ∧
      (accepted ++ more).map .ok ++ last = accepted.map .ok ++ final ++ received actions ∧
        (accepted ++ more).drop 2 = accepted.drop 2 ++ handled s actions := by
  induction actions generalizing s accepted final with
  | nil =>
      obtain rfl := Option.some.inj hrun
      exact ⟨[], final, by rwa [List.append_nil], by simp [received], by simp [handled]⟩
  | cons action actions ih =>
      obtain ⟨after, hstep, hrest⟩ := Option.bind_eq_some_iff.mp hrun
      obtain ⟨first, middle, hafter, hitems, hdrop⟩ := h.step hstep
      obtain ⟨more, last, hlast, hreceived, hhandled⟩ := ih hafter hrest
      refine ⟨first ++ more, last, ?_, ?_, ?_⟩
      · rwa [← List.append_assoc]
      · rw [← List.append_assoc, hreceived, hitems, received_cons action actions,
          List.append_assoc]
      · rw [← List.append_assoc, hhandled, hdrop, handled, hstep, List.append_assoc]

omit [Crypto] [Features] in
theorem start_heard (addr : α) (direction : ConnectionDirection) (config : HandshakeConfig)
    (timestamp : Int64) (startHeight : Int32) (relay : PeerRelayState) :
    Heard config.localNonce (start addr direction config timestamp startHeight relay) [] [] where
  nonce_eq := rfl
  directed := HandshakeState.new_wellDirected direction config
  phase := HandshakeState.new_awaitsVersion direction config
  accepts i message h := nomatch h
  ends := .inl ⟨rfl, fun _ he ↦ nomatch he⟩
  emits := .inl ⟨rfl, by decide⟩

/-- In every run of a connection, whatever is read and whatever the other tasks do meanwhile: what
is read is a sequence of accepted messages, and then at most one thing that is refused and whose
refusal the task returns; the messages handed to the handlers are the accepted ones behind the
first two; the handshake is established exactly when there are two; and only then the peer has
been reported ready, before anything was announced. -/
theorem run_transcript {addr : α} {direction : ConnectionDirection} {config : HandshakeConfig}
    {timestamp : Int64} {startHeight : Int32} {relay : PeerRelayState}
    {actions : List SessionAction}
    (hrun : execute PeerSession.step (start addr direction config timestamp startHeight relay)
      actions = some s) :
    ∃ (accepted : List Message) (final : List (Except NetError Message)),
      received actions = accepted.map .ok ++ final ∧
      (∀ i message, accepted[i]? = some message →
        refusal config.localNonce i (.ok message) = none) ∧
      (final = [] ∧ (∀ e, s.result = some (.error e) → ¬ e.OfInput) ∨
        ∃ item e, final = [item] ∧ refusal config.localNonce accepted.length item = some e ∧
          s.result = some (.error e)) ∧
      handled (start addr direction config timestamp startHeight relay) actions =
        accepted.drop 2 ∧
      (s.Established ↔ 2 ≤ accepted.length) ∧
      (s.emitted = [] ∧ accepted.length < 2 ∨
        2 ≤ accepted.length ∧ ∃ later : List (List InventoryVector),
          s.emitted = .ready s.addr :: later.map (.announce s.addr)) := by
  obtain ⟨accepted, final, hheard, hreceived, hhandled⟩ :=
    (start_heard addr direction config timestamp startHeight relay).run hrun
  exact ⟨accepted, final, hreceived.symm, hheard.accepts, hheard.ends, hhandled.symm,
    hheard.phase.established_iff, hheard.emits⟩

end

end PeerSession

end Bitrst

namespace Bitrst.Sample

open Support PeerSession

/-- A peer greets, acknowledges, announces nothing and then greets again. -/
def greetings : List SessionAction :=
  [.send, .read (.ok (Message.version newVersion)) 0 (alone start), .send,
    .read (.ok Message.verack) 0 (alone start), .read (.ok (Message.inv [])) 0 (alone start),
    .read (.ok (Message.version newVersion)) 0 (alone start)]

def greeted : PeerSession Unit :=
  .start () .outbound ⟨7, 60⟩ 0 0 (.withEventCursor ⟨0⟩)

theorem greetings_transcript : ∃ s, execute PeerSession.step greeted greetings = some s ∧
    s.result = some (.error (.handshake (.handshakeViolation "version/verack after handshake"))) ∧
    ∃ (accepted : List Message) (final : List (Except NetError Message)),
      received greetings = accepted.map .ok ++ final ∧
      (∀ i message, accepted[i]? = some message → refusal 7 i (.ok message) = none) ∧
      (final = [] ∧ (∀ e, s.result = some (.error e) → ¬ e.OfInput) ∨
        ∃ item e, final = [item] ∧ refusal 7 accepted.length item = some e ∧
          s.result = some (.error e)) ∧
      handled greeted greetings = accepted.drop 2 ∧
      (s.Established ↔ 2 ≤ accepted.length) ∧
      (s.emitted = [] ∧ accepted.length < 2 ∨
        2 ≤ accepted.length ∧ ∃ later : List (List InventoryVector),
          s.emitted = .ready s.addr :: later.map (.announce s.addr)) := by
  obtain ⟨s, hrun, hresult⟩ : ∃ s, execute PeerSession.step greeted greetings = some s ∧
      s.result = some (.error (.handshake (.handshakeViolation
        "version/verack after handshake"))) := ⟨_, rfl, rfl⟩
  exact ⟨s, hrun, hresult, run_transcript hrun⟩

end Bitrst.Sample
