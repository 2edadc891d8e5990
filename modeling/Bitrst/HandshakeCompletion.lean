import Bitrst.HandshakeAgreement
import Mathlib.Order.Basic

/-!
# The handshake completes

While no socket fails, what is missing from a handshake is always on its way:
there is a side that waits for a message of the other, and the message moves
from the task to its writer, to the wire and to the reader.  A node that is
connected to itself through one nonce gets nowhere.
-/

namespace Bitrst

open Support

section

variable [Crypto] [Features] {α : Type} {network : Network}

namespace PeerLink

variable {version : ConnectionDirection → VersionMessage} {l next : PeerLink α}
  {d : ConnectionDirection}

/-- The messages of its handshake that a side has handed out and the other has not read. -/
def outstanding (l : PeerLink α) (d : ConnectionDirection) : ℕ :=
  (l.phase d).produced d - (l.phase d.opposite).consumed

/-- A writer that has stopped has written all of the handshake. -/
def Steady (l : PeerLink α) : Prop :=
  ∀ d, (l.side d).writing = false →
    (l.side d).Established ∧ l.outstanding d ≤ (l.wire d).length

omit [Crypto] [Features] in
theorem produced_le (phase : HandshakePhase) (d : ConnectionDirection) : phase.produced d ≤ 2 := by
  cases d <;> simp only [HandshakePhase.produced] <;> split <;> omega

omit [Features] in
/-- What is outstanding is in front of what is on its way. -/
theorem Linked.outstanding_prefix (h : Linked network version l) (d : ConnectionDirection) :
    ∃ later, l.inFlight network d =
        ((greeting (version d)).take ((l.phase d).produced d)).drop
          (l.phase d.opposite).consumed ++ later ∧
      (((greeting (version d)).take ((l.phase d).produced d)).drop
        (l.phase d.opposite).consumed).length = l.outstanding d ∧
      (later ≠ [] → (l.side d).Established) := by
  obtain ⟨later, hflight, -, hestablished⟩ := h.flight d
  refine ⟨later, hflight, ?_, hestablished⟩
  rw [List.length_drop, List.length_take, length_greeting, Nat.min_eq_left (produced_le _ _)]
  rfl

omit [Features] in
/-- Every message of the handshake can be written. -/
theorem Linked.head_carried (h : Linked network version l) {message : Message}
    {rest : List Message} (hwire : l.wire d = []) (hpos : 0 < l.outstanding d)
    (hqueue : (l.side d).queue ++ (l.side d).sending = message :: rest) :
    ∃ item, carried network message = some item := by
  obtain ⟨later, hflight, hlength, -⟩ := h.outstanding_prefix d
  rw [inFlight, hwire, hqueue, List.map_cons] at hflight
  cases hgreeting : ((greeting (version d)).take ((l.phase d).produced d)).drop
      (l.phase d.opposite).consumed with
  | nil =>
      rw [hgreeting] at hlength
      exact absurd hlength.symm hpos.ne'
  | cons first others =>
      have hmem : first ∈ greeting (version d) :=
        List.mem_of_mem_take (List.mem_of_mem_drop (hgreeting ▸ List.mem_cons_self))
      obtain ⟨greeted, -, hfirst⟩ := List.mem_map.mp hmem
      rw [hgreeting] at hflight
      exact ⟨_, (List.cons.inj hflight).1.trans hfirst.symm⟩

omit [Features] in
/-- A message that cannot be written comes behind the handshake. -/
theorem Linked.unwritable (h : Linked network version l) {message : Message}
    {rest : List Message} (hqueue : (l.side d).queue = message :: rest)
    (hcarried : carried network message = none) :
    (l.side d).Established ∧ l.outstanding d ≤ (l.wire d).length := by
  obtain ⟨later, hflight, hlength, hestablished⟩ := h.outstanding_prefix d
  rw [inFlight, hqueue, List.cons_append, List.map_cons, hcarried] at hflight
  have hsome : ∀ item ∈ ((greeting (version d)).take ((l.phase d).produced d)).drop
      (l.phase d.opposite).consumed, item ≠ none := by
    intro item hitem
    obtain ⟨greeted, -, rfl⟩ :=
      List.mem_map.mp (List.mem_of_mem_take (List.mem_of_mem_drop hitem))
    exact Option.some_ne_none _
  rcases List.append_eq_append_iff.mp hflight with ⟨more, hmore, hrest⟩ | ⟨more, hmore, hrest⟩
  · cases more with
    | nil =>
        rw [List.append_nil] at hmore
        rw [List.nil_append] at hrest
        refine ⟨hestablished (hrest ▸ List.cons_ne_nil _ _), ?_⟩
        rw [← hlength, hmore, List.length_map]
    | cons first others =>
        have hfirst := (List.cons.inj hrest).1
        exact absurd hfirst.symm (hsome first (hmore ▸ List.mem_append_right _ List.mem_cons_self))
  · refine ⟨hestablished ?_, ?_⟩
    · rw [hrest]
      simp
    · have hle := congrArg List.length hmore
      rw [List.length_map, List.length_append, hlength] at hle
      omega

/-! ## Writers that stop -/

omit [Crypto] [Features] in
/-- A step of a task itself. -/
theorem Steady.setSide (h : Steady l) {s : PeerSession α}
    (hhandshake : s.handshake = (l.side d).handshake) (hwriting : s.writing = (l.side d).writing) :
    Steady (l.setSide d s) := by
  have hphase : ∀ other, (l.setSide d s).phase other = l.phase other := fun other ↦ by
    rcases d.eq_or_eq_opposite other with rfl | rfl
    · rw [phase, setSide_self, hhandshake, phase]
    · rw [phase, setSide_opposite, phase]
  intro other hother
  have hbefore : (l.side other).writing = false := by
    rcases d.eq_or_eq_opposite other with rfl | rfl
    · rwa [setSide_self, hwriting] at hother
    · rwa [setSide_opposite] at hother
  obtain ⟨hestablished, hle⟩ := h other hbefore
  refine ⟨?_, ?_⟩
  · change (l.setSide d s).phase other = .established
    rw [hphase]
    exact hestablished
  · rw [outstanding, hphase, hphase]
    exact hle

omit [Crypto] [Features] in
/-- Once a side is established nothing of the handshake is on its way to it. -/
theorem outstanding_of_established (h : (l.side d).Established) : l.outstanding d.opposite = 0 := by
  have htwo : (l.phase d).consumed = 2 := HandshakePhase.consumed_eq_two.mpr h
  rw [outstanding, ConnectionDirection.opposite_opposite, htwo]
  exact Nat.sub_eq_zero_of_le (produced_le _ _)

omit [Features] in
theorem Steady.transmit (hlinked : Linked network version l) (h : Steady l)
    (hstep : l.transmit network d = some next) : Steady next := by
  unfold PeerLink.transmit at hstep
  split at hstep
  · cases hstep
  · rename_i message rest hqueue
    split at hstep
    · rename_i hcarried
      obtain ⟨s, hs, rfl⟩ := Option.map_eq_some_iff.mp hstep
      have hproceeds := PeerSession.stopWriter_proceeds hs
      have hphase : ∀ other, (l.setSide d s).phase other = l.phase other := fun other ↦ by
        rcases d.eq_or_eq_opposite other with rfl | rfl
        · rw [phase, setSide_self, hproceeds.handshake, phase]
        · rw [phase, setSide_opposite, phase]
      intro other hother
      have hwritten : (l.side other).Established ∧
          l.outstanding other ≤ (l.wire other).length := by
        rcases d.eq_or_eq_opposite other with rfl | rfl
        · exact hlinked.unwritable hqueue hcarried
        · rw [setSide_opposite] at hother
          exact h _ hother
      rw [outstanding, hphase, hphase]
      refine ⟨?_, hwritten.2⟩
      change (l.setSide d s).phase other = .established
      rw [hphase]
      exact hwritten.1
    · rename_i item hcarried
      obtain ⟨s, hs, rfl⟩ := Option.map_eq_some_iff.mp hstep
      obtain rfl := PeerSession.write_eq hs hqueue
      have hside : Steady (l.setSide d { l.side d with queue := rest }) := h.setSide rfl rfl
      intro other hother
      obtain ⟨hestablished, hle⟩ := hside other hother
      refine ⟨hestablished, hle.trans ?_⟩
      change (l.wire other).length ≤
        (Function.update l.wire d (l.wire d ++ [item]) other).length
      rcases d.eq_or_eq_opposite other with rfl | rfl
      · rw [Function.update_self, List.length_append]
        exact Nat.le_add_right _ _
      · rw [Function.update_of_ne d.opposite_ne]

theorem Steady.deliver (hversion : Distinct network version) (hlinked : Linked network version l)
    (h : Steady l) {now : ℕ} {node : Node} (hstep : l.deliver d now node = some next) :
    Steady next := by
  unfold PeerLink.deliver at hstep
  split at hstep
  · cases hstep
  · rename_i item rest hwire
    obtain ⟨s, hread, rfl⟩ := Option.map_eq_some_iff.mp hstep
    have hown : (l.side d).step (.read item now node) = some s := hread
    have hwriting : s.writing = (l.side d).writing :=
      PeerSession.step_writing hown fun h ↦ nomatch h
    have hother : ((l.setSide d s).setWire d.opposite rest).side d.opposite = l.side d.opposite :=
      setSide_opposite ..
    have hself : ((l.setSide d s).setWire d.opposite rest).side d = s := setSide_self ..
    have hwires : ((l.setSide d s).setWire d.opposite rest).wire =
        Function.update l.wire d.opposite rest := rfl
    generalize (l.setSide d s).setWire d.opposite rest = next at hother hself hwires
    unfold PeerSession.read at hread
    by_cases hwaits : (l.side d).Waits
    · rw [if_neg (not_not.mpr hwaits)] at hread
      by_cases hestablished : (l.side d).Established
      · rw [if_pos hestablished] at hread
        have hproceeds := PeerSession.readRelay_proceeds hread hwaits hestablished
          (hlinked.late_of_established hwire hestablished)
        have hphase : ∀ other, next.phase other = l.phase other := fun other ↦ by
          rcases d.eq_or_eq_opposite other with rfl | rfl
          · rw [phase, hself, hproceeds.handshake, phase]
          · rw [phase, hother, phase]
        intro other hstopped
        change next.phase other = .established ∧ next.outstanding other ≤ _
        rw [outstanding, hphase, hphase]
        rcases d.eq_or_eq_opposite other with rfl | rfl
        · rw [hself, hwriting] at hstopped
          rw [hwires, Function.update_of_ne other.opposite_ne.symm]
          exact h other hstopped
        · rw [hother] at hstopped
          refine ⟨(h _ hstopped).1, ?_⟩
          have hzero := outstanding_of_established hestablished
          rw [outstanding] at hzero
          rw [hzero]
          exact Nat.zero_le _
      · rw [if_neg hestablished] at hread
        obtain rfl := Option.some.inj hread
        have htakes := hlinked.takes hversion hwire hwaits hestablished
        intro other hstopped
        rcases d.eq_or_eq_opposite other with rfl | rfl
        · rw [hself, hwriting] at hstopped
          exact absurd (h other hstopped).1 hestablished
        · rw [hother] at hstopped
          obtain ⟨hdone, hle⟩ := h _ hstopped
          have hphase : next.phase d.opposite = l.phase d.opposite := by
            rw [phase, hother, phase]
          have hnext : (next.phase d).consumed = (l.phase d).consumed + 1 := by
            rw [phase, hself, htakes.phase]
          rw [outstanding, ConnectionDirection.opposite_opposite, hwire, List.length_cons] at hle
          change next.phase d.opposite = .established ∧ next.outstanding d.opposite ≤ _
          rw [outstanding, ConnectionDirection.opposite_opposite, hphase, hnext, hwires,
            Function.update_self]
          exact ⟨hdone, by omega⟩
    · rw [if_pos hwaits] at hread
      cases hread

theorem Steady.step (hversion : Distinct network version) (hlinked : Linked network version l)
    (h : Steady l) {action : LinkAction} (hunbroken : ∀ d, action ≠ .breakWrite d)
    (hstep : l.step network action = some next) : Steady next := by
  rcases step_cases hstep with ⟨d, s, rfl, hs, -, hwriting⟩ | ⟨d, hmove⟩ | ⟨d, now, node, hmove⟩
  · exact h.setSide hs.handshake (hwriting hunbroken)
  · exact h.transmit hlinked hmove
  · exact h.deliver hversion hlinked hmove

/-! ## Bringing a message to the other side -/

/-- Two sides neither of which has returned. -/
structure Healthy (network : Network) (version : ConnectionDirection → VersionMessage)
    (l : PeerLink α) : Prop where
  linked : Linked network version l
  steady : Steady l
  running : ∀ d, (l.side d).result = none

/-- What sends, writes and reads the messages of a handshake. -/
inductive LinkAction.Moves (now : ℕ) (node : Node) : LinkAction → Prop
  | send (d : ConnectionDirection) : Moves now node (.send d)
  | transmit (d : ConnectionDirection) : Moves now node (.transmit d)
  | deliver (d : ConnectionDirection) : Moves now node (.deliver d now node)

variable (now : ℕ) (node : Node)

omit [Features] in
theorem Healthy.writing (h : Healthy network version l) (hnot : ¬ (l.side d).Established) :
    (l.side d).writing = true := by
  by_contra hstopped
  exact hnot (h.steady d (Bool.eq_false_iff.mpr hstopped)).1

omit [Features] in
/-- Before it is established a side has sent nothing but its handshake. -/
theorem Healthy.queue_short (h : Healthy network version l) (hnot : ¬ (l.side d).Established) :
    (l.side d).queue.length < maxOutboundQueue := by
  obtain ⟨later, hflight, hlength, hestablished⟩ := h.linked.outstanding_prefix d
  have hnone : later = [] := by
    by_contra hne
    exact hnot (hestablished hne)
  have hall := congrArg List.length hflight
  rw [hnone, List.append_nil, hlength, inFlight, List.length_append, List.length_map,
    List.length_map, List.length_append] at hall
  have htwo : l.outstanding d ≤ 2 := (Nat.sub_le _ _).trans (produced_le _ _)
  have hroom : 2 < maxOutboundQueue := by decide
  omega

/-- A task hands the next message to its writer. -/
theorem Healthy.send (h : Healthy network version l) {message : Message} {rest : List Message}
    (hwriting : (l.side d).writing = true) (hsending : (l.side d).sending = message :: rest)
    (hroom : (l.side d).queue.length < maxOutboundQueue) :
    ∃ next, l.step network (.send d) = some next ∧ Healthy network version next ∧
      next.phase = l.phase ∧ next.wire = l.wire ∧ next.side d.opposite = l.side d.opposite ∧
      (next.side d).sending = rest ∧
      (next.side d).queue = (l.side d).queue ++ [message] := by
  have hsent : (l.side d).send =
      some { l.side d with sending := rest, queue := (l.side d).queue ++ [message] } := by
    rw [PeerSession.send, hsending]
    simp only [h.running d, hwriting, hroom, not_true_eq_false, ne_eq, if_true, if_false]
  refine ⟨l.setSide d { l.side d with
      sending := rest, queue := (l.side d).queue ++ [message] }, ?_, ⟨?_, ?_, fun other ↦ ?_⟩,
    funext fun other ↦ ?_, rfl, l.setSide_opposite .., ?_, ?_⟩
  · rw [PeerLink.step, hsent]
    rfl
  · exact h.linked.setSide (PeerSession.send_proceeds hsent)
  · exact h.steady.setSide rfl rfl
  · rcases d.eq_or_eq_opposite other with rfl | rfl
    · rw [setSide_self]
      exact h.running _
    · rw [setSide_opposite]
      exact h.running _
  · rcases d.eq_or_eq_opposite other with rfl | rfl
    · rw [phase, setSide_self, phase]
    · rw [phase, setSide_opposite, phase]
  · rw [setSide_self]
  · rw [setSide_self]

omit [Features] in
/-- The writer of a side writes the next message. -/
theorem Healthy.transmit (h : Healthy network version l) {message : Message}
    {rest : List Message} {item : Except NetError Message}
    (hwriting : (l.side d).writing = true) (hqueue : (l.side d).queue = message :: rest)
    (hcarried : carried network message = some item) :
    ∃ next, l.transmit network d = some next ∧ Healthy network version next ∧
      next.phase = l.phase ∧ next.wire d = l.wire d ++ [item] ∧
      next.side d.opposite = l.side d.opposite := by
  obtain ⟨next, hstep, hsides, hwire⟩ : ∃ next, l.transmit network d = some next ∧
      next.side = (l.setSide d { l.side d with queue := rest }).side ∧
      next.wire d = l.wire d ++ [item] := by
    refine ⟨(l.setSide d { l.side d with queue := rest }).setWire d (l.wire d ++ [item]), ?_, rfl,
      Function.update_self ..⟩
    rw [PeerLink.transmit, hqueue]
    simp only [hcarried, PeerSession.write, hwriting, hqueue, if_true, Option.map_some]
  refine ⟨next, hstep, ⟨h.linked.transmit hstep, h.steady.transmit h.linked hstep, fun other ↦ ?_⟩,
    funext fun other ↦ ?_, hwire, ?_⟩
  · rw [hsides]
    rcases d.eq_or_eq_opposite other with rfl | rfl
    · rw [setSide_self]
      exact h.running _
    · rw [setSide_opposite]
      exact h.running _
  · rw [phase, hsides]
    rcases d.eq_or_eq_opposite other with rfl | rfl
    · rw [setSide_self, phase]
    · rw [setSide_opposite, phase]
  · rw [hsides, setSide_opposite]

/-- A side that is not established hands all its messages to its writer. -/
theorem Healthy.flush (h : Healthy network version l) (hnot : ¬ (l.side d).Established) :
    ∃ next, Reaches (PeerLink.step network) (LinkAction.Moves now node) l next ∧
      (Healthy network version next ∧ next.phase = l.phase) ∧ (next.side d).sending = [] := by
  refine Reaches.descend (I := fun k ↦ Healthy network version k ∧ k.phase = l.phase)
    (fun k : PeerLink α ↦ (k.side d).sending.length) (fun k hk hgoal ↦ ?_) ⟨h, rfl⟩
  obtain ⟨hhealthy, hphase⟩ := hk
  have hnot : ¬ (k.side d).Established := fun hestablished ↦
    hnot ((congrFun hphase d).symm.trans hestablished)
  obtain ⟨message, rest, hsending⟩ := List.exists_cons_of_ne_nil hgoal
  obtain ⟨next, hstep, hnext, hsame, -, -, hrest, -⟩ :=
    hhealthy.send (hhealthy.writing hnot) hsending (hhealthy.queue_short hnot)
  refine ⟨next, .single (.send d) hstep, ⟨hnext, hsame.trans hphase⟩, ?_⟩
  rw [hrest, hsending]
  exact Nat.lt_succ_self _

omit [Features] in
theorem Healthy.writing_of_outstanding (h : Healthy network version l) (hwire : l.wire d = [])
    (hpos : 0 < l.outstanding d) : (l.side d).writing = true := by
  by_contra hstopped
  have hle := (h.steady d (Bool.eq_false_iff.mpr hstopped)).2
  rw [hwire] at hle
  exact absurd hle hpos.not_ge

/-- What is outstanding of a side gets on the wire. -/
theorem Healthy.arrive (h : Healthy network version l) (hpos : 0 < l.outstanding d) :
    ∃ next, Reaches (PeerLink.step network) (LinkAction.Moves now node) l next ∧
      Healthy network version next ∧ next.phase = l.phase ∧
      next.side d.opposite = l.side d.opposite ∧ next.wire d ≠ [] := by
  by_cases hwire : l.wire d = []
  · have hqueued : ∀ k : PeerLink α, Healthy network version k → k.phase = l.phase →
        k.wire d = [] → k.side d.opposite = l.side d.opposite → (k.side d).queue ≠ [] →
        ∃ next, Reaches (PeerLink.step network) (LinkAction.Moves now node) k next ∧
          Healthy network version next ∧ next.phase = l.phase ∧
          next.side d.opposite = l.side d.opposite ∧ next.wire d ≠ [] := by
      intro k hk hphase hwire hopposite hne
      have hpos : 0 < k.outstanding d := by
        rw [outstanding, hphase]
        exact hpos
      obtain ⟨message, rest, hqueue⟩ := List.exists_cons_of_ne_nil hne
      have hnext : (k.side d).queue ++ (k.side d).sending =
          message :: (rest ++ (k.side d).sending) := by
        rw [hqueue, List.cons_append]
      obtain ⟨item, hitem⟩ := hk.linked.head_carried hwire hpos hnext
      obtain ⟨next, hstep, hnext, hsame, harrived, hother⟩ :=
        hk.transmit (hk.writing_of_outstanding hwire hpos) hqueue hitem
      refine ⟨next, .single (.transmit d) hstep, hnext, hsame.trans hphase, hother.trans hopposite,
        ?_⟩
      rw [harrived]
      exact List.append_ne_nil_of_right_ne_nil _ (List.cons_ne_nil _ _)
    by_cases hqueue : (l.side d).queue = []
    · -- The task has not even handed it to its writer.
      obtain ⟨message, rest, hsending⟩ : ∃ message rest, (l.side d).sending = message :: rest := by
        refine List.exists_cons_of_ne_nil fun hsending ↦ ?_
        obtain ⟨later, hflight, hlength, -⟩ := h.linked.outstanding_prefix d
        rw [inFlight, hwire, hqueue, hsending] at hflight
        rw [(List.append_eq_nil_iff.mp hflight.symm).1] at hlength
        exact hpos.ne hlength
      obtain ⟨k, hstep, hk, hphase, hkwire, hopposite, -, hkqueue⟩ :=
        h.send (h.writing_of_outstanding hwire hpos) hsending (by rw [hqueue]; decide)
      obtain ⟨next, hreaches, hnext⟩ := hqueued k hk hphase ((congrFun hkwire d).trans hwire)
        hopposite (by
          rw [hkqueue]
          exact List.append_ne_nil_of_right_ne_nil _ (List.cons_ne_nil _ _))
      exact ⟨next, (Reaches.single (.send d) hstep).trans hreaches, hnext⟩
    · exact hqueued l h rfl hwire rfl hqueue
  · exact ⟨l, .refl l, h, rfl, rfl, hwire⟩

/-- A side that waits reads a message of the handshake. -/
theorem Healthy.deliver (hversion : Distinct network version) (h : Healthy network version l)
    (hsending : (l.side d).sending = []) (hnot : ¬ (l.side d).Established)
    (hwire : l.wire d.opposite ≠ []) :
    ∃ next, l.deliver d now node = some next ∧ Healthy network version next ∧
      (next.phase d).consumed = (l.phase d).consumed + 1 ∧
      next.phase d.opposite = l.phase d.opposite := by
  obtain ⟨item, rest, hwire⟩ := List.exists_cons_of_ne_nil hwire
  have hwaits : (l.side d).Waits := ⟨h.running d, hsending⟩
  have htakes := h.linked.takes hversion hwire hwaits hnot
  obtain ⟨next, hstep, hsides⟩ : ∃ next, l.deliver d now node = some next ∧
      next.side = (l.setSide d ((l.side d).readHandshake item)).side := by
    refine ⟨(l.setSide d ((l.side d).readHandshake item)).setWire d.opposite rest, ?_, rfl⟩
    rw [PeerLink.deliver, hwire]
    simp only [PeerSession.read, hwaits, hnot, not_true_eq_false, if_false, Option.map_some]
  refine ⟨next, hstep, ⟨h.linked.deliver hversion hstep,
    h.steady.deliver hversion h.linked hstep, fun other ↦ ?_⟩, ?_, ?_⟩
  · rw [hsides]
    rcases d.eq_or_eq_opposite other with rfl | rfl
    · rw [setSide_self, htakes.result]
      exact h.running _
    · rw [setSide_opposite]
      exact h.running _
  · rw [phase, hsides, setSide_self, htakes.phase]
  · rw [phase, hsides, setSide_opposite, phase]

omit [Crypto] [Features] in
theorem not_established_iff : ¬ (l.side d).Established ↔ (l.phase d).consumed < 2 :=
  ⟨fun h ↦ lt_of_le_of_ne (HandshakePhase.consumed_le _)
      fun htwo ↦ h (HandshakePhase.consumed_eq_two.mp htwo),
    fun hlt h ↦ hlt.ne (HandshakePhase.consumed_eq_two.mpr h)⟩

omit [Crypto] [Features] in
/-- Short of the end of the handshake, one of the sides waits for what the other has sent. -/
theorem exists_outstanding (hnot : ¬ ∀ d, (l.side d).Established) :
    ∃ d, ¬ (l.side d).Established ∧ 0 < l.outstanding d.opposite := by
  have hanswered : 0 < (l.phase .inbound).consumed → ¬ (l.side .outbound).Established →
      0 < l.outstanding .inbound := fun hpos hout ↦ by
    rw [outstanding, HandshakePhase.produced_of_pos hpos]
    exact Nat.sub_pos_of_lt (not_established_iff.mp hout)
  by_cases hin : (l.side .inbound).Established
  · have hout : ¬ (l.side .outbound).Established := fun hout ↦
      hnot fun d ↦ by cases d <;> assumption
    exact ⟨.outbound, hout, hanswered (HandshakePhase.consumed_eq_two.mpr hin ▸ Nat.two_pos) hout⟩
  · by_cases hread : (l.phase .inbound).consumed < (l.phase .outbound).produced .outbound
    · exact ⟨.inbound, hin, Nat.sub_pos_of_lt hread⟩
    · -- The version is read, and the verack not yet sent.
      have hshort := not_established_iff.mp hin
      obtain ⟨hone, hzero⟩ : 0 < (l.phase .inbound).consumed ∧
          (l.phase .outbound).consumed = 0 := by
        simp only [HandshakePhase.produced] at hread
        split at hread <;> omega
      have hout : ¬ (l.side .outbound).Established := not_established_iff.mpr (by omega)
      exact ⟨.outbound, hout, hanswered hone hout⟩

/-- One more message of the handshake gets through. -/
theorem Healthy.advance (hversion : Distinct network version) (h : Healthy network version l)
    (hnot : ¬ ∀ d, (l.side d).Established) :
    ∃ next, Reaches (PeerLink.step network) (LinkAction.Moves now node) l next ∧
      Healthy network version next ∧ ∃ d, (next.phase d).consumed = (l.phase d).consumed + 1 ∧
        next.phase d.opposite = l.phase d.opposite := by
  obtain ⟨d, hd, hpos⟩ := exists_outstanding hnot
  obtain ⟨k, hflush, ⟨hk, hkphase⟩, hsending⟩ := h.flush now node hd
  obtain ⟨m, harrive, hm, hmphase, hmside, hwire⟩ := hk.arrive now node (d := d.opposite)
    (by rwa [outstanding, hkphase])
  rw [ConnectionDirection.opposite_opposite] at hmside
  have hphase : m.phase = l.phase := hmphase.trans hkphase
  obtain ⟨next, hstep, hnext, hread, hother⟩ := hm.deliver now node hversion
    (hmside ▸ hsending) (fun hestablished ↦ hd ((congrFun hphase d).symm.trans hestablished)) hwire
  refine ⟨next, hflush.trans (harrive.trans (.single (.deliver d) hstep)), hnext, d, ?_, ?_⟩
  · rw [hread, hphase]
  · rw [hother, hphase]

theorem Healthy.complete (hversion : Distinct network version) (h : Healthy network version l) :
    ∃ next, Reaches (PeerLink.step network) (LinkAction.Moves now node) l next ∧
      Healthy network version next ∧ ∀ d, (next.side d).Established := by
  refine Reaches.descend
    (fun k : PeerLink α ↦ 4 - ((k.phase .inbound).consumed + (k.phase .outbound).consumed))
    (fun k hk hnot ↦ ?_) h
  obtain ⟨next, hreaches, hnext, d, hread, hother⟩ := hk.advance now node
    hversion hnot
  have hin := HandshakePhase.consumed_le (next.phase .inbound)
  have hout := HandshakePhase.consumed_le (next.phase .outbound)
  refine ⟨next, hreaches, hnext, ?_⟩
  cases d with
  | inbound =>
      change next.phase .outbound = k.phase .outbound at hother
      rw [hother] at hout ⊢
      omega
  | outbound =>
      change next.phase .inbound = k.phase .inbound at hother
      rw [hother] at hin ⊢
      omega

/-- From wherever an unbroken connection between two nodes has come, while neither task has
returned, their handshake is completed by nothing but the tasks and their writers going on. -/
theorem handshake_completes {addr : ConnectionDirection → α}
    {config : ConnectionDirection → HandshakeConfig} {timestamp : ConnectionDirection → Int64}
    {startHeight : ConnectionDirection → Int32} {relay : ConnectionDirection → PeerRelayState}
    (hnonce : (config .outbound).localNonce ≠ (config .inbound).localNonce)
    {actions : List LinkAction} (hunbroken : ∀ d, LinkAction.breakWrite d ∉ actions)
    (hrun : execute (PeerLink.step network) (start addr config timestamp startHeight relay)
      actions = some l)
    (hrunning : ∀ d, (l.side d).result = none) (now : ℕ) (node : Node) :
    ∃ more next, (∀ action ∈ more, LinkAction.Moves now node action) ∧
      execute (PeerLink.step network) l more = some next ∧
      ∀ d, (next.side d).Established ∧ (next.side d).result = none ∧
        (next.side d).handshake.peerVersion =
          some (versionOf config timestamp startHeight d.opposite) := by
  have hversion : Distinct network (versionOf config timestamp startHeight) :=
    versionOf_distinct config timestamp startHeight hnonce
  have hstart : Steady (start addr config timestamp startHeight relay) := fun _ h ↦ nomatch h
  obtain ⟨hlinked, hsteady⟩ :
      Linked network (versionOf config timestamp startHeight) l ∧ Steady l :=
    Reaches.invariant (A := fun action ↦ ∀ d, action ≠ .breakWrite d)
      (I := fun k ↦ Linked network (versionOf config timestamp startHeight) k ∧ Steady k)
      (fun _ _ _ hk hallowed hstep ↦
        ⟨hk.1.step hversion hstep, hk.2.step hversion hk.1 hallowed hstep⟩)
      ⟨actions, fun action haction d hbroken ↦ hunbroken d (hbroken ▸ haction), hrun⟩
      ⟨start_linked addr config timestamp startHeight relay, hstart⟩
  have hhealthy : Healthy network (versionOf config timestamp startHeight) l :=
    ⟨hlinked, hsteady, hrunning⟩
  obtain ⟨next, ⟨more, hmoves, hmore⟩, hnext, hdone⟩ :=
    hhealthy.complete now node hversion
  refine ⟨more, next, hmoves, hmore, fun d ↦ ⟨hdone d, hnext.running d, hnext.linked.met d ?_⟩⟩
  exact HandshakePhase.consumed_eq_two.mpr (hdone d) ▸ Nat.two_pos

/-! ## A node connected to itself -/

/-- Two ends with one nonce get no further than the version of the side that connected. -/
structure Mirrored (network : Network) (config : ConnectionDirection → HandshakeConfig)
    (version : VersionMessage) (l : PeerLink α) : Prop where
  untouched : ∀ d, (l.side d).handshake = .new d (config d)
  silent : l.inFlight network .inbound = []
  greets : l.inFlight network .outbound = (greeting version).take 1 ∨
    l.inFlight network .outbound = [] ∧
      (l.side .inbound).result = some (.error (.handshake .selfConnection))
  refusal : ∀ d e, (l.side d).result = some (.error (.handshake e)) →
    d = .inbound ∧ e = .selfConnection

variable {config : ConnectionDirection → HandshakeConfig} {greeted : VersionMessage}

omit [Features] in
theorem Mirrored.not_established (h : Mirrored network config greeted l) :
    ¬ (l.side d).Established := by
  rw [PeerSession.Established, h.untouched d]
  cases d <;> exact fun hphase ↦ by cases hphase

omit [Features] in
/-- A step that leaves the handshakes and what is on its way as they are. -/
theorem Mirrored.congr (h : Mirrored network config greeted l)
    (hflight : ∀ d, next.inFlight network d = l.inFlight network d)
    (hhandshake : ∀ d, (next.side d).handshake = (l.side d).handshake)
    (hfinal : (l.side .inbound).result ≠ none →
      (next.side .inbound).result = (l.side .inbound).result)
    (hrefusal : ∀ d e, (next.side d).result = some (.error (.handshake e)) →
      (l.side d).result = some (.error (.handshake e))) : Mirrored network config greeted next where
  untouched d := (hhandshake d).trans (h.untouched d)
  silent := (hflight _).trans h.silent
  greets := by
    rw [hflight]
    refine h.greets.imp_right fun ⟨hempty, hresult⟩ ↦ ⟨hempty, ?_⟩
    exact (hfinal (hresult ▸ Option.some_ne_none _)).trans hresult
  refusal d e he := h.refusal d e (hrefusal d e he)

omit [Features] in
theorem Mirrored.setSide (h : Mirrored network config greeted l) {s : PeerSession α}
    (hs : PeerSession.Proceeds (l.side d) s)
    (hfinal : (l.side d).result ≠ none → s.result = (l.side d).result) :
    Mirrored network config greeted (l.setSide d s) := by
  obtain ⟨extra, hextra, -, hestablished⟩ := hs.sends
  have hnone : extra = [] := by
    by_contra hne
    exact h.not_established (hestablished hne)
  refine h.congr (fun other ↦ ?_) (fun other ↦ ?_) ?_ fun other e he ↦ ?_
  · rcases d.eq_or_eq_opposite other with rfl | rfl
    · rw [inFlight_setSide hextra, hnone, List.map_nil, List.append_nil]
    · exact inFlight_setSide_opposite s
  · rcases d.eq_or_eq_opposite other with rfl | rfl
    · rw [setSide_self, hs.handshake]
    · rw [setSide_opposite]
  · rcases d.eq_or_eq_opposite .inbound with heq | heq
    · rw [heq, setSide_self]
      exact hfinal
    · rw [heq, setSide_opposite]
      exact fun _ ↦ rfl
  · rcases d.eq_or_eq_opposite other with rfl | rfl
    · rw [setSide_self] at he
      exact hs.unhurt e he
    · rwa [setSide_opposite] at he

theorem Mirrored.transmit (h : Mirrored network config greeted l)
    (hstep : l.transmit network d = some next) : Mirrored network config greeted next := by
  rcases transmit_cases hstep with ⟨s, hs, rfl⟩ | ⟨rest, hside, hother, hflight⟩
  · have hown : (l.side d).step .stopWriter = some s := hs
    exact h.setSide (PeerSession.stopWriter_proceeds hs) (PeerSession.step_final hown)
  · have hall : ∀ other, (next.side other).handshake = (l.side other).handshake ∧
        (next.side other).result = (l.side other).result := by
      intro other
      rcases d.eq_or_eq_opposite other with rfl | rfl
      · rw [hside]
        exact ⟨rfl, rfl⟩
      · rw [hother]
        exact ⟨rfl, rfl⟩
    exact h.congr hflight (fun other ↦ (hall other).1) (fun _ ↦ (hall _).2)
      fun other e he ↦ (hall other).2 ▸ he

/-- The only message that is ever read is the version, by the side that accepted the connection. -/
theorem Mirrored.deliver (h : Mirrored network config greeted l)
    (hnonce : greeted.nonce = (config .inbound).localNonce) {now : ℕ} {node : Node}
    (hstep : l.deliver d now node = some next) : Mirrored network config greeted next := by
  unfold PeerLink.deliver at hstep
  split at hstep
  · cases hstep
  · rename_i item rest hwire
    obtain ⟨s, hread, rfl⟩ := Option.map_eq_some_iff.mp hstep
    have hflight : l.inFlight network d.opposite = some item :: (rest.map some ++
        ((l.side d.opposite).queue ++ (l.side d.opposite).sending).map (carried network)) := by
      rw [inFlight, hwire]
      rfl
    cases d with
    | outbound =>
        have hsilent := h.silent
        rw [ConnectionDirection.opposite] at hflight
        rw [hflight] at hsilent
        cases hsilent
    | inbound =>
        rw [ConnectionDirection.opposite] at hflight hwire
        rcases h.greets with hgreets | ⟨hempty, -⟩
        · rw [hflight] at hgreets
          obtain ⟨hitem, htail⟩ := List.cons.inj hgreets
          obtain rfl := Option.some.inj hitem
          have hself := HandshakeState.onMessage_self (HandshakeState.new_awaitsVersion .inbound
            (config .inbound)) (rfl : (Message.version greeted).payload = .version greeted) hnonce
          have hs : s = (l.side .inbound).fail (.handshake .selfConnection) := by
            unfold PeerSession.read at hread
            split at hread
            · cases hread
            · rw [if_neg h.not_established] at hread
              rw [← Option.some.inj hread]
              simp only [PeerSession.readHandshake, h.untouched, hself, PeerSession.fail]
          subst hs
          refine ⟨fun other ↦ ?_, ?_, .inr ⟨htail, rfl⟩, fun other e he ↦ ?_⟩
          · cases other
            · exact h.untouched _
            · exact h.untouched _
          · exact h.silent
          · cases other with
            | inbound =>
                exact ⟨rfl, (SessionError.handshake.inj (Except.error.inj
                  (Option.some.inj he))).symm⟩
            | outbound => exact h.refusal _ e he
        · rw [hflight] at hempty
          cases hempty

theorem Mirrored.step (h : Mirrored network config greeted l)
    (hnonce : greeted.nonce = (config .inbound).localNonce) {action : LinkAction}
    (hstep : l.step network action = some next) : Mirrored network config greeted next := by
  rcases step_cases hstep with ⟨d, s, rfl, hs, hfinal, -⟩ | ⟨d, hmove⟩ | ⟨d, now, node, hmove⟩
  · exact h.setSide hs hfinal
  · exact h.transmit hmove
  · exact h.deliver hnonce hmove

/-- The two ends of one nonce never get past their handshake.  The side that connected has nothing
to complain of, and the other finds out as soon as it reads. -/
theorem self_connection_refused {addr : ConnectionDirection → α}
    {config : ConnectionDirection → HandshakeConfig} {timestamp : ConnectionDirection → Int64}
    {startHeight : ConnectionDirection → Int32} {relay : ConnectionDirection → PeerRelayState}
    (hnonce : (config .outbound).localNonce = (config .inbound).localNonce)
    {actions : List LinkAction}
    (hrun : execute (PeerLink.step network) (start addr config timestamp startHeight relay)
      actions = some l) :
    (∀ d, ¬ (l.side d).Established ∧ (l.side d).handshake.peerVersion = none) ∧
    (∀ d e, (l.side d).result = some (.error (.handshake e)) → d = .inbound ∧ e = .selfConnection) ∧
    (l.inFlight network .outbound = [] →
      (l.side .inbound).result = some (.error (.handshake .selfConnection))) := by
  have hstart : Mirrored network config (versionOf config timestamp startHeight .outbound)
      (start addr config timestamp startHeight relay) := by
    refine ⟨fun _ ↦ rfl, rfl, .inl ?_, fun _ _ he ↦ nomatch he⟩
    change [carried network (Message.version (versionOf config timestamp startHeight
      .outbound))] = _
    rw [versionOf, carried_version]
    rfl
  have h : Mirrored network config (versionOf config timestamp startHeight .outbound) l :=
    Reaches.invariant (A := fun _ ↦ True) (fun _ _ _ hk _ hstep ↦ hk.step hnonce hstep)
      ⟨actions, fun _ _ ↦ trivial, hrun⟩ hstart
  refine ⟨fun d ↦ ⟨h.not_established, ?_⟩, h.refusal, fun hempty ↦ ?_⟩
  · rw [h.untouched]
    rfl
  · rcases h.greets with hgreets | ⟨-, hresult⟩
    · rw [hempty] at hgreets
      cases hgreets
    · exact hresult

end PeerLink

end

end Bitrst

namespace Bitrst.Sample

open Support PeerLink

/-- The side that accepted has read nothing yet when the other has a version to send. -/
theorem paired_completes : ∃ l, execute (PeerLink.step .mainnet) paired [.send .outbound] = some l ∧
    ∃ more next, (∀ action ∈ more, LinkAction.Moves 0 (alone start) action) ∧
      execute (PeerLink.step .mainnet) l more = some next ∧
      ∀ d, (next.side d).Established ∧ (next.side d).result = none ∧
        (next.side d).handshake.peerVersion =
          some (versionOf (fun d ↦ ⟨if d = .inbound then 1 else 2, 60⟩) (fun _ ↦ 0) (fun _ ↦ 0)
            d.opposite) := by
  obtain ⟨l, hrun, hrunning⟩ : ∃ l,
      execute (PeerLink.step .mainnet) paired [.send .outbound] = some l ∧
        ∀ d, (l.side d).result = none := ⟨_, rfl, fun d ↦ by cases d <;> rfl⟩
  exact ⟨l, hrun, handshake_completes (by decide) (by simp) hrun hrunning 0 (alone start)⟩

/-- One node at both ends. -/
def mirrored : PeerLink Unit :=
  .start (fun _ ↦ ()) (fun _ ↦ ⟨7, 60⟩) (fun _ ↦ 0) (fun _ ↦ 0) fun _ ↦ .withEventCursor ⟨0⟩

/-- The accepting end reads the version that it has sent itself. -/
def recognise : List LinkAction :=
  [.send .outbound, .transmit .outbound, .deliver .inbound 0 (alone start)]

theorem mirrored_refused : ∃ l, execute (PeerLink.step .mainnet) mirrored recognise = some l ∧
    (l.side .inbound).result = some (.error (.handshake .selfConnection)) ∧
    (∀ d, ¬ (l.side d).Established ∧ (l.side d).handshake.peerVersion = none) ∧
    ∀ d e, (l.side d).result = some (.error (.handshake e)) →
      d = .inbound ∧ e = .selfConnection := by
  have hreached : ((execute (PeerLink.step .mainnet) mirrored recognise).map fun l ↦
      (l.inFlight .mainnet .outbound).isEmpty) = some true := by
    decide +kernel
  obtain ⟨l, hrun, hempty⟩ := Option.map_eq_some_iff.mp hreached
  obtain ⟨hrefused, hrefusal, hread⟩ := self_connection_refused rfl hrun
  exact ⟨l, hrun, hread (List.isEmpty_iff.mp hempty), hrefused, hrefusal⟩

end Bitrst.Sample
