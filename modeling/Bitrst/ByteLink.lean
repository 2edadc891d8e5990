import Bitrst.CursorSync
import Bitrst.FramedStream
import Bitrst.PeerLink

/-!
# Two nodes on a socket

The connection of two nodes with its bytes.  A writer takes a message from its
queue and writes the bytes of it in parts, header and payload in any pieces, as
long as the socket does not fail; a reader takes what it is given, in pieces of
any size, and its call is dropped when a command comes first.  Every run of this
is a run of the connection that carries messages.
-/

namespace Bitrst

open Support

structure ByteLink (α : Type) where
  side : ConnectionDirection → PeerSession α
  /-- What the reader of a side has buffered, and its call under way. -/
  buffer : ConnectionDirection → Bytes
  call : ConnectionDirection → Option FramedReader.Point
  /-- What the writer of a side has still to write of the message that it took last. -/
  unwritten : ConnectionDirection → Bytes
  /-- What a side has written and the other has not taken from the socket. -/
  socket : ConnectionDirection → Bytes

inductive ByteAction
  | send (d : ConnectionDirection)
  | write (d : ConnectionDirection)
  | pass (d : ConnectionDirection) (size : ℕ)
  | poll (d : ConnectionDirection) (size now : ℕ) (node : Node)
  | relay (d : ConnectionDirection) (items : List InventoryVector)
  | shutDown (d : ConnectionDirection)
  | timeOut (d : ConnectionDirection)
  | breakRead (d : ConnectionDirection) (error : NetError) (now : ℕ) (node : Node)
  | breakWrite (d : ConnectionDirection)

namespace ByteLink

variable [Crypto] [Features] {α : Type}

def start (addr : ConnectionDirection → α) (config : ConnectionDirection → HandshakeConfig)
    (timestamp : ConnectionDirection → Int64) (startHeight : ConnectionDirection → Int32)
    (relay : ConnectionDirection → PeerRelayState) : ByteLink α where
  side d := .start (addr d) d (config d) (timestamp d) (startHeight d) (relay d)
  buffer _ := []
  call _ := none
  unwritten _ := []
  socket _ := []

def setSide (b : ByteLink α) (d : ConnectionDirection) (s : PeerSession α) : ByteLink α :=
  { b with side := Function.update b.side d s }

/-- The writer of a side at another place. -/
def setWriter (b : ByteLink α) (d : ConnectionDirection) (written unwritten : Bytes) :
    ByteLink α :=
  { b with
    unwritten := Function.update b.unwritten d unwritten
    socket := Function.update b.socket d (b.socket d ++ written) }

/-- The reader of a side with what its call leaves, and the rest of the socket. -/
def setReader (b : ByteLink α) (d : ConnectionDirection)
    (state : BufferedReader.State UInt8 FramedReader.Point) (rest : Bytes) : ByteLink α :=
  { b with
    buffer := Function.update b.buffer d state.buffer
    call := Function.update b.call d state.call
    socket := Function.update b.socket d.opposite rest }

/-- The call of a side is dropped. -/
def cancel (b : ByteLink α) (d : ConnectionDirection) : ByteLink α :=
  { b with call := Function.update b.call d none }

/-- The writer takes its next message when it has written the last.  A message that cannot be
encoded ends it before a byte is written. -/
def write (network : Network) (d : ConnectionDirection) (b : ByteLink α) : Option (ByteLink α) :=
  if b.unwritten d = [] then
    match (b.side d).queue with
    | [] => none
    | message :: _ =>
        match writeMessage network message with
        | .error _ => (b.side d).stopWriter.map (b.setSide d)
        | .ok bytes => (b.side d).write.map fun s ↦ (b.setSide d s).setWriter d [] bytes
  else none

/-- The socket accepts a part of what is to be written. -/
def pass (d : ConnectionDirection) (size : ℕ) (b : ByteLink α) : Option (ByteLink α) :=
  let chunk := (b.unwritten d).take size
  if chunk = [] then none else some (b.setWriter d chunk ((b.unwritten d).drop size))

/-- A message that is whole is handed to the task. -/
def handOver (d : ConnectionDirection) (now : ℕ) (node : Node) (b : ByteLink α) :
    Option (Except NetError Message) → Option (ByteLink α)
  | none => some b
  | some item => ((b.side d).read item now node).map (b.setSide d)

/-- The task waits for a message: a new call looks at the buffer, and one under way gets bytes
from the socket. -/
def poll (network : Network) (d : ConnectionDirection) (size now : ℕ) (node : Node)
    (b : ByteLink α) : Option (ByteLink α) :=
  if (b.side d).Waits then
    match b.call d with
    | none =>
        let (state, result) := (FramedReader.reader network).advance
          (FramedReader.reader network).start (b.buffer d) []
        (b.setReader d state (b.socket d.opposite)).handOver d now node result
    | some point =>
        let chunk := (b.socket d.opposite).take size
        if chunk = [] then none
        else
          let (state, result) :=
            (FramedReader.reader network).advance point (b.buffer d ++ chunk) []
          (b.setReader d state ((b.socket d.opposite).drop size)).handOver d now node result
  else none

/-- The socket fails, and what is not written yet never will be. -/
def breakWrite (d : ConnectionDirection) (b : ByteLink α) : Option (ByteLink α) :=
  (b.side d).stopWriter.map fun s ↦ (b.setSide d s).setWriter d [] []

def step (network : Network) (b : ByteLink α) : ByteAction → Option (ByteLink α)
  | .send d => (b.side d).send.map (b.setSide d)
  | .write d => b.write network d
  | .pass d size => b.pass d size
  | .poll d size now node => b.poll network d size now node
  | .relay d items =>
      ((b.side d).command (some (.send (Message.inv items)))).map ((b.cancel d).setSide d)
  | .shutDown d => ((b.side d).command none).map ((b.cancel d).setSide d)
  | .timeOut d => (b.side d).timeOut.map ((b.cancel d).setSide d)
  | .breakRead d error now node =>
      if (b.call d).isSome then
        ((b.side d).read (.error error) now node).map ((b.cancel d).setSide d)
      else none
  | .breakWrite d => b.breakWrite d

/-! ## What the bytes carry -/

/-- The bytes from a side to the other, with those still to be written, are the frames of these
items.  Once the writer has stopped, the end of them can be missing. -/
def Arrives (network : Network) (b : ByteLink α) (d : ConnectionDirection)
    (items : List (Except NetError Message)) : Prop :=
  ∃ missing, (missing ≠ [] → (b.side d).writing = false) ∧
    (FramedReader.reader network).Frames
      (b.buffer d.opposite ++ (b.socket d ++ b.unwritten d ++ missing)) items

/-- The same tasks, with bytes between them that are the frames of the messages on the wire. -/
structure Carries (network : Network) (b : ByteLink α) (l : PeerLink α) : Prop where
  side : b.side = l.side
  arrives : ∀ d, b.Arrives network d (l.wire d)
  call : ∀ d, ∀ point ∈ b.call d,
    (∃ next, (FramedReader.reader network).proceed (FramedReader.reader network).start
      (b.buffer d) = .inl next) ∧
    ∀ more, (FramedReader.reader network).proceed point (b.buffer d ++ more) =
      (FramedReader.reader network).proceed (FramedReader.reader network).start
        (b.buffer d ++ more)

variable {network : Network} {b next : ByteLink α} {l : PeerLink α} {d : ConnectionDirection}

omit [Features] in
theorem Carries.setSide (h : Carries network b l) {s : PeerSession α}
    (hstopped : (l.side d).writing = false → s.writing = false) :
    Carries network (b.setSide d s) (l.setSide d s) := by
  refine ⟨by simp only [ByteLink.setSide, PeerLink.setSide, h.side], fun other ↦ ?_, h.call⟩
  obtain ⟨missing, hwriting, hframes⟩ := h.arrives other
  refine ⟨missing, fun hmissing ↦ ?_, hframes⟩
  change (Function.update b.side d s other).writing = false
  rcases d.eq_or_eq_opposite other with rfl | rfl
  · rw [Function.update_self]
    exact hstopped (h.side ▸ hwriting hmissing)
  · rw [Function.update_of_ne d.opposite_ne]
    exact hwriting hmissing

omit [Features] in
theorem Carries.cancel (h : Carries network b l) : Carries network (b.cancel d) l := by
  refine ⟨h.side, h.arrives, fun other point hpoint ↦ ?_⟩
  change point ∈ Function.update b.call d none other at hpoint
  rcases d.eq_or_eq_opposite other with rfl | rfl
  · rw [Function.update_self] at hpoint
    cases hpoint
  · rw [Function.update_of_ne d.opposite_ne] at hpoint
    exact h.call _ point hpoint

omit [Features] in
/-- The writer of a side at another place, with other items on the way from it. -/
theorem Carries.setWriter (h : Carries network b l) {written unwritten : Bytes}
    {items : List (Except NetError Message)}
    (harrives : (b.setWriter d written unwritten).Arrives network d items) :
    Carries network (b.setWriter d written unwritten) (l.setWire d items) := by
  refine ⟨h.side, fun other ↦ ?_, h.call⟩
  rcases d.eq_or_eq_opposite other with rfl | rfl
  · change Arrives network _ other (Function.update l.wire other items other)
    rwa [Function.update_self]
  · change Arrives network _ d.opposite (Function.update l.wire d items d.opposite)
    have hsocket : (b.setWriter d written unwritten).socket d.opposite = b.socket d.opposite :=
      Function.update_of_ne d.opposite_ne ..
    have hunwritten : (b.setWriter d written unwritten).unwritten d.opposite =
        b.unwritten d.opposite := Function.update_of_ne d.opposite_ne ..
    rw [Function.update_of_ne d.opposite_ne, Arrives, hsocket, hunwritten]
    exact h.arrives d.opposite

omit [Features] in
/-- Where the writer of a side is after a change. -/
theorem arrives_setWriter_iff {written unwritten : Bytes}
    {items : List (Except NetError Message)} :
    (b.setWriter d written unwritten).Arrives network d items ↔
      ∃ missing, (missing ≠ [] → (b.side d).writing = false) ∧
        (FramedReader.reader network).Frames
          (b.buffer d.opposite ++ (b.socket d ++ written ++ unwritten ++ missing)) items := by
  unfold Arrives ByteLink.setWriter
  simp only [Function.update_self]

omit [Features] in
/-- A writer that goes on has lost nothing. -/
theorem Arrives.of_writing {items : List (Except NetError Message)}
    (h : b.Arrives network d items) (hwriting : (b.side d).writing = true) :
    (FramedReader.reader network).Frames
      (b.buffer d.opposite ++ (b.socket d ++ b.unwritten d)) items := by
  obtain ⟨missing, hstopped, hframes⟩ := h
  obtain rfl : missing = [] := by
    by_contra hne
    rw [hstopped hne] at hwriting
    cases hwriting
  rwa [List.append_nil] at hframes

omit [Features] in
/-- The writer takes a message: it is on its way. -/
theorem Carries.write (h : Carries network b l) (hstep : b.write network d = some next) :
    ∃ l', l.transmit network d = some l' ∧ Carries network next l' := by
  have hside : b.side d = l.side d := congrFun h.side d
  unfold ByteLink.write at hstep
  split at hstep
  · rename_i hidle
    split at hstep
    · cases hstep
    · rename_i message rest hqueue
      rw [hside] at hqueue
      split at hstep
      · rename_i e hrefused
        obtain ⟨s, hs, rfl⟩ := Option.map_eq_some_iff.mp hstep
        rw [hside] at hs
        refine ⟨l.setSide d s, ?_, h.setSide fun hstopped ↦ ?_⟩
        · simp only [PeerLink.transmit, hqueue, carried, hrefused, hs, Option.map_some]
        · rw [PeerSession.stopWriter, hstopped] at hs
          cases hs
      · rename_i bytes hwritten
        obtain ⟨s, hs, rfl⟩ := Option.map_eq_some_iff.mp hstep
        rw [hside] at hs
        obtain ⟨result, hframe, hread⟩ := FramedReader.written_frame hwritten
        have hresult := hread []
        rw [List.append_nil] at hresult
        have hwriting : (l.side d).writing = true := by
          by_contra hstopped
          rw [PeerSession.write, if_neg hstopped] at hs
          cases hs
        have hcarries : Carries network (b.setSide d s) (l.setSide d s) :=
          h.setSide fun hstopped ↦ absurd (hwriting.symm.trans hstopped) Bool.noConfusion
        refine ⟨(l.setSide d s).setWire d (l.wire d ++ [result]), ?_, hcarries.setWriter ?_⟩
        · simp only [PeerLink.transmit, hqueue, carried, hwritten, hresult, hs, Option.map_some]
        · have hframes := ((h.arrives d).of_writing (hside ▸ hwriting)).append hframe
          rw [arrives_setWriter_iff]
          refine ⟨[], fun hne ↦ (hne rfl).elim, ?_⟩
          change (FramedReader.reader network).Frames
            (b.buffer d.opposite ++ (b.socket d ++ [] ++ bytes ++ [])) _
          rw [hidle, List.append_nil] at hframes
          simpa only [List.append_nil, List.append_assoc] using hframes
  · cases hstep

omit [Features] in
/-- A part of a message goes into the socket. -/
theorem Carries.pass (h : Carries network b l) {size : ℕ} (hstep : b.pass d size = some next) :
    Carries network next l := by
  unfold ByteLink.pass at hstep
  dsimp only at hstep
  split at hstep
  · cases hstep
  · obtain rfl := Option.some.inj hstep
    have hwire : l = l.setWire d (l.wire d) := by
      rw [PeerLink.setWire, Function.update_eq_self]
    rw [hwire]
    apply h.setWriter
    obtain ⟨missing, hstopped, hframes⟩ := h.arrives d
    rw [arrives_setWriter_iff]
    refine ⟨missing, hstopped, ?_⟩
    rwa [List.append_assoc (b.socket d), List.take_append_drop]

omit [Features] in
/-- What the writer has not written when the socket fails is missing from then on. -/
theorem Carries.breakWrite (h : Carries network b l) (hstep : b.breakWrite d = some next) :
    ∃ s, (l.side d).stopWriter = some s ∧ Carries network next (l.setSide d s) := by
  have hside : b.side d = l.side d := congrFun h.side d
  obtain ⟨s, hs, rfl⟩ := Option.map_eq_some_iff.mp hstep
  rw [hside] at hs
  obtain ⟨hwriting, hstopped⟩ : (l.side d).writing = true ∧ s.writing = false := by
    unfold PeerSession.stopWriter at hs
    split at hs
    · rename_i hwriting
      obtain rfl := Option.some.inj hs
      exact ⟨hwriting, rfl⟩
    · cases hs
  have hcarries : Carries network (b.setSide d s) (l.setSide d s) := h.setSide fun _ ↦ hstopped
  have hwire : l.setSide d s = (l.setSide d s).setWire d (l.wire d) := by
    simp only [PeerLink.setWire, PeerLink.setSide, Function.update_eq_self]
  refine ⟨s, hs, ?_⟩
  rw [hwire]
  apply hcarries.setWriter
  rw [arrives_setWriter_iff]
  refine ⟨b.unwritten d, fun _ ↦ ?_, ?_⟩
  · change (Function.update b.side d s d).writing = false
    rwa [Function.update_self]
  · change (FramedReader.reader network).Frames
      (b.buffer d.opposite ++ (b.socket d ++ [] ++ [] ++ b.unwritten d)) _
    have hframes := (h.arrives d).of_writing (hside ▸ hwriting)
    simpa only [List.append_nil] using hframes

omit [Features] in
/-- A call goes on with the bytes that it has got, and waits or completes what comes next. -/
theorem Carries.advance (h : Carries network b l) {point : FramedReader.Point}
    {buffer rest : Bytes}
    (hbytes : b.buffer d ++ b.socket d.opposite = buffer ++ rest)
    (hcall : ∀ more, (FramedReader.reader network).proceed point (buffer ++ more) =
      (FramedReader.reader network).proceed (FramedReader.reader network).start (buffer ++ more)) :
    let advanced := (FramedReader.reader network).advance point buffer []
    (advanced.2 = none ∧ Carries network (b.setReader d advanced.1 rest) l) ∨
      ∃ item later, advanced.2 = some item ∧ l.wire d.opposite = item :: later ∧
        Carries network (b.setReader d advanced.1 rest) (l.setWire d.opposite later) := by
  have hstart : (FramedReader.reader network).proceed point buffer =
      (FramedReader.reader network).proceed (FramedReader.reader network).start buffer := by
    simpa using hcall []
  obtain ⟨missing, hstopped, hframes⟩ := h.arrives d.opposite
  have hstream : b.buffer d.opposite.opposite ++ (b.socket d.opposite ++
      b.unwritten d.opposite ++ missing) =
        buffer ++ (rest ++ b.unwritten d.opposite ++ missing) := by
    rw [ConnectionDirection.opposite_opposite, List.append_assoc, List.append_assoc,
      ← List.append_assoc (b.buffer d), hbytes, List.append_assoc]
  rw [hstream] at hframes
  have hreader : ∀ (state : BufferedReader.State UInt8 FramedReader.Point)
      (items : List (Except NetError Message)),
      (FramedReader.reader network).Frames
        (state.buffer ++ (rest ++ b.unwritten d.opposite ++ missing)) items →
      (∀ point ∈ state.call,
        (∃ next, (FramedReader.reader network).proceed (FramedReader.reader network).start
          state.buffer = .inl next) ∧
        ∀ more, (FramedReader.reader network).proceed point (state.buffer ++ more) =
          (FramedReader.reader network).proceed (FramedReader.reader network).start
            (state.buffer ++ more)) →
      Carries network (b.setReader d state rest) (l.setWire d.opposite items) := by
    intro state items hleft hpoint
    refine ⟨h.side, fun other ↦ ?_, fun other ↦ ?_⟩
    · rcases d.eq_or_eq_opposite other with rfl | rfl
      · have hbuffer : (b.setReader other state rest).buffer other.opposite =
            b.buffer other.opposite := Function.update_of_ne other.opposite_ne ..
        have hsocket : (b.setReader other state rest).socket other = b.socket other :=
          Function.update_of_ne other.opposite_ne.symm ..
        have hitems : (l.setWire other.opposite items).wire other = l.wire other :=
          Function.update_of_ne other.opposite_ne.symm ..
        rw [Arrives, hbuffer, hsocket, hitems]
        exact h.arrives other
      · have hbuffer : (b.setReader d state rest).buffer d.opposite.opposite = state.buffer := by
          rw [ConnectionDirection.opposite_opposite]
          exact Function.update_self ..
        have hsocket : (b.setReader d state rest).socket d.opposite = rest :=
          Function.update_self ..
        have hitems : (l.setWire d.opposite items).wire d.opposite = items :=
          Function.update_self ..
        rw [Arrives, hbuffer, hsocket, hitems]
        exact ⟨missing, hstopped, hleft⟩
    · rcases d.eq_or_eq_opposite other with rfl | rfl
      · have hbuffer : (b.setReader other state rest).buffer other = state.buffer :=
          Function.update_self ..
        have hcall : (b.setReader other state rest).call other = state.call :=
          Function.update_self ..
        rw [hbuffer, hcall]
        exact hpoint
      · have hbuffer : (b.setReader d state rest).buffer d.opposite = b.buffer d.opposite :=
          Function.update_of_ne d.opposite_ne ..
        have hcall : (b.setReader d state rest).call d.opposite = b.call d.opposite :=
          Function.update_of_ne d.opposite_ne ..
        rw [hbuffer, hcall]
        exact h.call d.opposite
  dsimp only
  rcases hframes.proceed with ⟨next, hwaits⟩ | ⟨item, left, later, hwire, hresult, hleft⟩
  · have hwire : l = l.setWire d.opposite (l.wire d.opposite) := by
      rw [PeerLink.setWire, Function.update_eq_self]
    rw [BufferedReader.advance, hstart, hwaits]
    refine .inl ⟨rfl, ?_⟩
    rw [hwire]
    refine hreader ⟨buffer, some next, []⟩ _ hframes fun other hother ↦ ?_
    obtain rfl := Option.some.inj hother
    exact ⟨⟨_, hwaits⟩, fun more ↦ ((FramedReader.reader network).resume
      (hstart.trans hwaits) more).trans (hcall more)⟩
  · refine .inr ⟨item, later, ?_, hwire, ?_⟩
    · rw [BufferedReader.advance, hstart, hresult]
    · rw [BufferedReader.advance, hstart, hresult]
      exact hreader ⟨left, none, []⟩ later hleft fun _ hpoint ↦ by cases hpoint

/-- A poll is nothing to the messages, or it delivers the next. -/
theorem Carries.poll (h : Carries network b l) {size now : ℕ} {node : Node}
    (hstep : b.poll network d size now node = some next) :
    Carries network next l ∨
      ∃ l', l.deliver d now node = some l' ∧ Carries network next l' := by
  have hside : b.side d = l.side d := congrFun h.side d
  have hhand : ∀ {point : FramedReader.Point} {buffer rest : Bytes},
      b.buffer d ++ b.socket d.opposite = buffer ++ rest →
      (∀ more, (FramedReader.reader network).proceed point (buffer ++ more) =
        (FramedReader.reader network).proceed (FramedReader.reader network).start
          (buffer ++ more)) →
      (b.setReader d ((FramedReader.reader network).advance point buffer []).1 rest).handOver d
        now node ((FramedReader.reader network).advance point buffer []).2 = some next →
      Carries network next l ∨
        ∃ l', l.deliver d now node = some l' ∧ Carries network next l' := by
    intro point buffer rest hbytes hcall hnext
    rcases h.advance hbytes hcall with ⟨hnone, hcarries⟩ | ⟨item, later, hsome, hwire, hcarries⟩
    · rw [hnone] at hnext
      exact .inl (Option.some.inj hnext ▸ hcarries)
    · rw [hsome] at hnext
      obtain ⟨s, hs, rfl⟩ := Option.map_eq_some_iff.mp hnext
      change (b.side d).read item now node = some s at hs
      rw [hside] at hs
      have hown : (l.side d).step (.read item now node) = some s := hs
      refine .inr ⟨(l.setSide d s).setWire d.opposite later, ?_,
        hcarries.setSide (PeerSession.step_stopped hown)⟩
      rw [PeerLink.deliver, hwire]
      simp only [hs, Option.map_some]
  unfold ByteLink.poll at hstep
  split at hstep
  · split at hstep
    · exact hhand rfl (fun _ ↦ rfl) hstep
    · rename_i point hpoint
      dsimp only at hstep
      split at hstep
      · cases hstep
      · refine hhand ?_ (fun more ↦ ?_) hstep
        · rw [List.append_assoc, List.take_append_drop]
        · rw [List.append_assoc]
          exact (h.call d point hpoint).2 _
  · cases hstep

/-- A step on the bytes is a step on the messages, or none. -/
theorem Carries.step (h : Carries network b l) {action : ByteAction}
    (hstep : b.step network action = some next) :
    ∃ l', (l' = l ∨ ∃ message, l.step network message = some l') ∧ Carries network next l' := by
  have hside : ∀ d, b.side d = l.side d := congrFun h.side
  have hown : ∀ {k : ByteLink α} (d : ConnectionDirection) (own : SessionAction)
      (message : LinkAction), Carries network k l →
      ((b.side d).step own).map (k.setSide d) = some next →
      l.step network message = ((l.side d).step own).map (l.setSide d) →
      ∃ l', (l' = l ∨ ∃ message, l.step network message = some l') ∧ Carries network next l' := by
    intro k d own message hk hmap hmessage
    obtain ⟨s, hs, rfl⟩ := Option.map_eq_some_iff.mp hmap
    rw [hside] at hs
    exact ⟨l.setSide d s, .inr ⟨message, by rw [hmessage, hs, Option.map_some]⟩,
      hk.setSide (PeerSession.step_stopped hs)⟩
  cases action with
  | send d => exact hown d .send (.send d) h hstep rfl
  | write d =>
      obtain ⟨l', hl', hcarries⟩ := h.write hstep
      exact ⟨l', .inr ⟨.transmit d, hl'⟩, hcarries⟩
  | poll d size now node =>
      rcases h.poll hstep with hcarries | ⟨l', hl', hcarries⟩
      · exact ⟨l, .inl rfl, hcarries⟩
      · exact ⟨l', .inr ⟨.deliver d now node, hl'⟩, hcarries⟩
  | relay d items =>
      exact hown d (.command (some (.send (Message.inv items)))) (.relay d items) h.cancel hstep rfl
  | shutDown d => exact hown d (.command none) (.shutDown d) h.cancel hstep rfl
  | timeOut d => exact hown d .timeOut (.timeOut d) h.cancel hstep rfl
  | breakRead d error now node =>
      simp only [ByteLink.step] at hstep
      split at hstep
      · exact hown d (.read (.error error) now node) (.breakRead d error now node) h.cancel
          hstep rfl
      · cases hstep
  | pass d size => exact ⟨l, .inl rfl, h.pass hstep⟩
  | breakWrite d =>
      obtain ⟨s, hs, hcarries⟩ := h.breakWrite hstep
      refine ⟨l.setSide d s, .inr ⟨.breakWrite d, ?_⟩, hcarries⟩
      simp only [PeerLink.step, hs, Option.map_some]

theorem Carries.run (h : Carries network b l) {actions : List ByteAction}
    (hrun : execute (ByteLink.step network) b actions = some next) :
    ∃ messages l', messages.length ≤ actions.length ∧
      execute (PeerLink.step network) l messages = some l' ∧ Carries network next l' := by
  induction actions generalizing b l with
  | nil =>
      obtain rfl := Option.some.inj hrun
      exact ⟨[], l, Nat.le_refl _, rfl, h⟩
  | cons action actions ih =>
      obtain ⟨after, hstep, hrest⟩ := Option.bind_eq_some_iff.mp hrun
      obtain ⟨k, hmove, hk⟩ := h.step hstep
      obtain ⟨messages, l', hlength, hexecute, hl'⟩ := ih hk hrest
      rcases hmove with rfl | ⟨message, hmessage⟩
      · exact ⟨messages, l', Nat.le_succ_of_le hlength, hexecute, hl'⟩
      · refine ⟨message :: messages, l', Nat.succ_le_succ hlength, ?_, hl'⟩
        rw [execute, hmessage, Option.bind_some, hexecute]

omit [Features] in
theorem start_carries (network : Network) (addr : ConnectionDirection → α)
    (config : ConnectionDirection → HandshakeConfig) (timestamp : ConnectionDirection → Int64)
    (startHeight : ConnectionDirection → Int32) (relay : ConnectionDirection → PeerRelayState) :
    Carries network (start addr config timestamp startHeight relay)
      (PeerLink.start addr config timestamp startHeight relay) :=
  ⟨rfl, fun _ ↦ ⟨[], fun hne ↦ (hne rfl).elim, .nil⟩, fun _ _ h ↦ nomatch h⟩

/-- However the writers and the socket cut the bytes and wherever they fail, what two nodes do they
could have done on a connection that carries whole messages in order; and the bytes between them,
with those still to be written, are the frames of the messages on the way, up to an end that is
missing once a writer has failed. -/
theorem socket_carries_messages {addr : ConnectionDirection → α}
    {config : ConnectionDirection → HandshakeConfig} {timestamp : ConnectionDirection → Int64}
    {startHeight : ConnectionDirection → Int32} {relay : ConnectionDirection → PeerRelayState}
    {actions : List ByteAction}
    (hrun : execute (ByteLink.step network) (start addr config timestamp startHeight relay)
      actions = some b) :
    ∃ messages l, messages.length ≤ actions.length ∧
      execute (PeerLink.step network) (.start addr config timestamp startHeight relay) messages =
        some l ∧
      b.side = l.side ∧
      ∀ d, ∃ missing, (missing ≠ [] → (b.side d).writing = false) ∧
        (FramedReader.reader network).Frames
          (b.buffer d.opposite ++ (b.socket d ++ b.unwritten d ++ missing)) (l.wire d) := by
  obtain ⟨messages, l, hlength, hexecute, hcarries⟩ :=
    (start_carries network addr config timestamp startHeight relay).run hrun
  exact ⟨messages, l, hlength, hexecute, hcarries.side, hcarries.arrives⟩

end ByteLink

end Bitrst

namespace Bitrst.Sample

open Support ByteLink

/-- Two nodes on a socket, before either has sent anything. -/
def wired : ByteLink Unit :=
  .start (fun _ ↦ ()) (fun d ↦ ⟨if d = .inbound then 1 else 2, 60⟩) (fun _ ↦ 0) (fun _ ↦ 0)
    fun _ ↦ .withEventCursor ⟨0⟩

/-- The version message comes in two parts and is read in three; the answer is cut off. -/
def wiredActions : List ByteAction :=
  [.send .outbound, .write .outbound, .pass .outbound 10, .poll .inbound 1 0 (alone start),
    .poll .inbound 7 0 (alone start), .pass .outbound 1000, .poll .inbound 1000 0 (alone start),
    .send .inbound, .write .inbound, .pass .inbound 30, .breakWrite .inbound]

theorem wired_carries : ∃ b messages l,
      (b.side .inbound).handshake.phase = .awaitingVerack ∧
      (b.side .inbound).writing = false ∧ messages.length ≤ wiredActions.length ∧
      execute (ByteLink.step .mainnet) wired wiredActions = some b ∧
      execute (PeerLink.step .mainnet) (.start (fun _ ↦ ())
        (fun d ↦ ⟨if d = .inbound then 1 else 2, 60⟩) (fun _ ↦ 0) (fun _ ↦ 0)
        fun _ ↦ .withEventCursor ⟨0⟩) messages = some l ∧
      b.side = l.side ∧
      ∀ d, ∃ missing, (missing ≠ [] → (b.side d).writing = false) ∧
        (FramedReader.reader .mainnet).Frames
          (b.buffer d.opposite ++ (b.socket d ++ b.unwritten d ++ missing)) (l.wire d) := by
  have hreached : ((execute (ByteLink.step .mainnet) wired wiredActions).map fun b ↦
      ((b.side .inbound).handshake.phase, (b.side .inbound).writing)) =
        some (.awaitingVerack, false) := by
    decide +kernel
  obtain ⟨b, hrun, hpair⟩ := Option.map_eq_some_iff.mp hreached
  obtain ⟨hphase, hwriting⟩ := Prod.mk.inj hpair
  obtain ⟨messages, l, hlength, hexecute, hsame⟩ := socket_carries_messages hrun
  exact ⟨b, messages, l, hphase, hwriting, hlength, hrun, hexecute, hsame⟩

end Bitrst.Sample
