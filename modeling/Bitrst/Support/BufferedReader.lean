import Mathlib.Data.List.Infix
import Mathlib.Data.Sum.Basic

/-!
# Frames read through a buffer

A reader keeps the bytes that it has not used in a buffer.  A call of it proceeds
from one read to the next until the buffer holds a whole frame.  It can be
dropped at every read, and the next call starts again with the buffer alone.  What
a call remembers between two reads must not matter: where it proceeds from a
read, it does what a new call does with the same buffer.
-/

namespace Support

variable {α σ ρ : Type*}

/-- A call between two reads has come to a point; it proceeds to the next point, or to its result
and the bytes that are left. -/
structure BufferedReader (α σ ρ : Type*) where
  start : σ
  proceed : σ → List α → σ ⊕ (ρ × List α)
  /-- The result of a read at the end of the stream. -/
  closed : ρ
  /-- A call that waits proceeds as it would have with more bytes from the beginning. -/
  resume : ∀ {point next : σ} {buffer : List α}, proceed point buffer = .inl next →
    ∀ more, proceed next (buffer ++ more) = proceed point (buffer ++ more)
  /-- A call without bytes waits. -/
  starts : ∃ next, proceed start [] = .inl next

namespace BufferedReader

/-- What happens next: the call under way, or else a new one, goes on; or it is dropped. -/
inductive Event
  | poll
  | cancel
  deriving DecidableEq

/-- The buffer, the point of the call under way, and the reads to come. -/
structure State (α σ : Type*) where
  buffer : List α
  call : Option σ
  unread : List (List α)

variable (reader : BufferedReader α σ ρ)

/-- A call proceeds with the bytes in the buffer. -/
def advance (point : σ) (buffer : List α) (unread : List (List α)) : State α σ × Option ρ :=
  match reader.proceed point buffer with
  | .inl next => (⟨buffer, some next, unread⟩, none)
  | .inr (result, rest) => (⟨rest, none, unread⟩, some result)

/-- A read that gives no bytes is the end of the stream. -/
def step : Event → State α σ → State α σ × Option ρ
  | .cancel, state => ({ state with call := none }, none)
  | .poll, ⟨buffer, none, unread⟩ => reader.advance reader.start buffer unread
  | .poll, ⟨buffer, some _, []⟩ => (⟨buffer, none, []⟩, some reader.closed)
  | .poll, ⟨buffer, some point, chunk :: unread⟩ =>
      if chunk.isEmpty then (⟨buffer, none, unread⟩, some reader.closed)
      else reader.advance point (buffer ++ chunk) unread

/-- The results of the calls that complete. -/
def run : List Event → State α σ → List ρ
  | [], _ => []
  | event :: events, state =>
      (reader.step event state).2.toList ++ run events (reader.step event state).1

/-- The bytes are one frame: a call completes with the result when it has them all, and waits
before. -/
structure Frame (frame : List α) (result : ρ) : Prop where
  complete : ∀ rest, reader.proceed reader.start (frame ++ rest) = .inr (result, rest)
  waits : ∀ {buffer}, buffer <+: frame → buffer ≠ frame →
    ∃ next, reader.proceed reader.start buffer = .inl next

/-- The stream is a sequence of frames with these results. -/
inductive Frames : List α → List ρ → Prop
  | nil : Frames [] []
  | cons {frame rest : List α} {result : ρ} {results : List ρ} (h : reader.Frame frame result)
      (hrest : Frames rest results) : Frames (frame ++ rest) (result :: results)

/-- The first results of calls that never stop: at the end, every call finds the stream closed. -/
def results : ℕ → List ρ → List ρ
  | 0, _ => []
  | n + 1, [] => reader.closed :: results n []
  | n + 1, result :: later => result :: results n later

/-- The frames are still before the state, and the call under way waits for the first. -/
structure Awaits (state : State α σ) (expected : List ρ) : Prop where
  frames : reader.Frames (state.buffer ++ state.unread.flatten) expected
  nonempty : ∀ chunk ∈ state.unread, chunk ≠ []
  call : ∀ point ∈ state.call, (∃ next, reader.proceed reader.start state.buffer = .inl next) ∧
    ∀ more, reader.proceed point (state.buffer ++ more) =
      reader.proceed reader.start (state.buffer ++ more)

/-- How often the state can be polled before it finds the end of the stream. -/
def State.fuel (state : State α σ) (expected : List ρ) : ℕ :=
  2 * expected.length + state.unread.length + if state.call.isSome then 0 else 1

theorem results_append (n : ℕ) (expected : List ρ) :
    reader.results (expected.length + n) expected = expected ++ List.replicate n reader.closed := by
  induction expected with
  | nil =>
      rw [List.length_nil, Nat.zero_add, List.nil_append]
      induction n with
      | zero => rfl
      | succ n ih => rw [results, ih, List.replicate_succ]
  | cons result later ih =>
      rw [List.length_cons, Nat.add_right_comm, results, ih, List.cons_append]

variable {reader}

/-- What a call does with a part of the stream: it waits, or it completes the first frame. -/
theorem Frames.proceed {buffer more : List α} {expected : List ρ}
    (h : reader.Frames (buffer ++ more) expected) :
    (∃ next, reader.proceed reader.start buffer = .inl next) ∨
      ∃ result rest later, expected = result :: later ∧
        reader.proceed reader.start buffer = .inr (result, rest) ∧
          reader.Frames (rest ++ more) later := by
  generalize hstream : buffer ++ more = stream at h
  cases h with
  | nil =>
      obtain ⟨rfl, -⟩ := List.append_eq_nil_iff.mp hstream
      exact .inl reader.starts
  | @cons frame rest result later hframe hrest =>
      rcases List.append_eq_append_iff.mp hstream with ⟨missing, rfl, rfl⟩ | ⟨extra, rfl, rfl⟩
      · cases missing with
        | nil =>
            refine .inr ⟨result, [], later, rfl, ?_, by simpa using hrest⟩
            simpa using hframe.complete []
        | cons byte missing =>
            exact .inl (hframe.waits (List.prefix_append _ _) (by simp))
      · exact .inr ⟨result, extra, later, rfl, hframe.complete extra, hrest⟩

theorem Frames.append {stream frame : List α} {expected : List ρ} {result : ρ}
    (h : reader.Frames stream expected) (hframe : reader.Frame frame result) :
    reader.Frames (stream ++ frame) (expected ++ [result]) := by
  induction h with
  | nil => simpa using Frames.cons hframe .nil
  | cons hfirst _ ih =>
      rw [List.append_assoc]
      exact .cons hfirst ih

theorem Frames.eq_nil_of_waits {stream : List α} {expected : List ρ} {next : σ}
    (h : reader.Frames stream expected) (hwaits : reader.proceed reader.start stream = .inl next) :
    expected = [] := by
  cases h with
  | nil => rfl
  | cons hframe _ =>
      rw [hframe.complete] at hwaits
      cases hwaits

variable {state : State α σ} {expected : List ρ}

/-- A call that goes on waits for the same frames, or it completes the first of them. -/
theorem advance_spec {point : σ} {buffer : List α} {unread : List (List α)}
    (hframes : reader.Frames (buffer ++ unread.flatten) expected)
    (hnonempty : ∀ chunk ∈ unread, chunk ≠ [])
    (hcall : ∀ more, reader.proceed point (buffer ++ more) =
      reader.proceed reader.start (buffer ++ more)) :
    (∃ next, reader.advance point buffer unread = (⟨buffer, some next, unread⟩, none) ∧
      reader.Awaits ⟨buffer, some next, unread⟩ expected) ∨
    ∃ result rest later, expected = result :: later ∧
      reader.advance point buffer unread = (⟨rest, none, unread⟩, some result) ∧
        reader.Awaits ⟨rest, none, unread⟩ later := by
  have hstart : reader.proceed point buffer = reader.proceed reader.start buffer := by
    simpa using hcall []
  rcases hframes.proceed with ⟨next, hnext⟩ | ⟨result, rest, later, rfl, hresult, hlater⟩
  · rw [← hstart] at hnext
    refine .inl ⟨next, by rw [advance, hnext], hframes, hnonempty, fun point hpoint ↦ ?_⟩
    obtain rfl := Option.some.inj hpoint
    refine ⟨⟨next, hstart ▸ hnext⟩, fun more ↦ ?_⟩
    exact (reader.resume hnext more).trans (hcall more)
  · rw [← hstart] at hresult
    exact .inr ⟨result, rest, later, rfl, by rw [advance, hresult], hlater, hnonempty,
      fun point hpoint ↦ nomatch hpoint⟩

/-- A call that is dropped loses nothing: the buffer and what is unread stay. -/
theorem Awaits.cancel (h : reader.Awaits state expected) :
    reader.Awaits (reader.step .cancel state).1 expected :=
  ⟨h.frames, h.nonempty, fun _ hpoint ↦ nomatch hpoint⟩

/-- A poll goes on waiting, completes the first frame, or finds the end behind the last. -/
theorem Awaits.poll (h : reader.Awaits state expected) :
    (∃ next, reader.step .poll state = (next, none) ∧ reader.Awaits next expected ∧
      next.fuel expected < state.fuel expected) ∨
    (∃ result later next, expected = result :: later ∧
      reader.step .poll state = (next, some result) ∧ reader.Awaits next later ∧
        next.fuel later < state.fuel expected) ∨
    (expected = [] ∧ ∃ next, reader.step .poll state = (next, some reader.closed) ∧
      reader.Awaits next []) := by
  obtain ⟨buffer, call, unread⟩ := state
  obtain ⟨hframes, hnonempty, hcall⟩ := h
  cases call with
  | none =>
      rcases advance_spec hframes hnonempty (fun _ ↦ rfl) with
        ⟨next, hstep, hnext⟩ | ⟨result, rest, later, rfl, hstep, hnext⟩
      · exact .inl ⟨_, hstep, hnext, by simp [State.fuel]⟩
      · exact .inr (.inl ⟨result, later, _, rfl, hstep, hnext, by simp [State.fuel]⟩)
  | some point =>
      obtain ⟨⟨next, hwaits⟩, hsame⟩ := hcall point rfl
      cases unread with
      | nil =>
          rw [List.flatten_nil, List.append_nil] at hframes
          obtain rfl := hframes.eq_nil_of_waits hwaits
          refine .inr (.inr ⟨rfl, ⟨buffer, none, []⟩, rfl, ?_, hnonempty, fun _ h ↦ nomatch h⟩)
          rwa [List.flatten_nil, List.append_nil]
      | cons chunk unread =>
          have hchunk : chunk.isEmpty = false :=
            List.isEmpty_eq_false_iff.mpr (hnonempty chunk List.mem_cons_self)
          have hstep : reader.step .poll ⟨buffer, some point, chunk :: unread⟩ =
              reader.advance point (buffer ++ chunk) unread := by
            rw [step, hchunk]
            rfl
          rw [List.flatten_cons, ← List.append_assoc] at hframes
          rcases advance_spec hframes
              (fun other hother ↦ hnonempty other (List.mem_cons_of_mem _ hother))
              (fun more ↦ by simpa using hsame (chunk ++ more)) with
            ⟨next, hadvance, hnext⟩ | ⟨result, rest, later, rfl, hadvance, hnext⟩
          · exact .inl ⟨_, hstep.trans hadvance, hnext, by simp [State.fuel]⟩
          · refine .inr (.inl ⟨result, later, _, rfl, hstep.trans hadvance, hnext, ?_⟩)
            simp only [State.fuel, List.length_cons, Option.isSome_none, Option.isSome_some,
              Bool.false_eq_true, if_false, if_true]
            omega

/-- What the completed calls return does not depend on the reads or on where calls are dropped. -/
theorem Awaits.run (h : reader.Awaits state expected) (events : List Event) :
    reader.run events state = reader.results (reader.run events state).length expected := by
  induction events generalizing state expected with
  | nil => rfl
  | cons event events ih =>
      cases event with
      | cancel => exact ih h.cancel
      | poll =>
          rcases h.poll with ⟨next, hstep, hnext, -⟩ | ⟨result, later, next, rfl, hstep, hnext, -⟩ |
            ⟨rfl, next, hstep, hnext⟩
          · simpa only [BufferedReader.run, hstep, Option.toList_none, List.nil_append]
              using ih hnext
          · simp only [BufferedReader.run, hstep, Option.toList_some, List.singleton_append,
              List.length_cons, results, List.cons.injEq, true_and]
            exact ih hnext
          · simp only [BufferedReader.run, hstep, Option.toList_some, List.singleton_append,
              List.length_cons, results, List.cons.injEq, true_and]
            exact ih hnext

/-- Polls that outnumber the dropped calls by enough get to the end of the stream. -/
theorem Awaits.finishes (h : reader.Awaits state expected) {events : List Event}
    (henough : events.count .cancel + state.fuel expected < events.count .poll) :
    expected.length < (reader.run events state).length := by
  induction events generalizing state expected with
  | nil => simp at henough
  | cons event events ih =>
      cases event with
      | cancel =>
          have hfuel : (reader.step .cancel state).1.fuel expected ≤ state.fuel expected + 1 := by
            simp only [step, State.fuel, Option.isSome_none, Bool.false_eq_true, if_false]
            omega
          simp only [List.count_cons_self, List.count_cons_of_ne (by decide : Event.cancel ≠ .poll)]
            at henough
          exact ih h.cancel (by omega)
      | poll =>
          simp only [List.count_cons_self, List.count_cons_of_ne (by decide : Event.poll ≠ .cancel)]
            at henough
          rcases h.poll with ⟨next, hstep, hnext, hfuel⟩ |
            ⟨result, later, next, rfl, hstep, hnext, hfuel⟩ | ⟨rfl, next, hstep, hnext⟩
          · simpa only [BufferedReader.run, hstep, Option.toList_none, List.nil_append]
              using ih hnext (by omega)
          · simp only [BufferedReader.run, hstep, Option.toList_some, List.singleton_append,
              List.length_cons, Nat.add_lt_add_iff_right]
            exact ih hnext (by omega)
          · simp [BufferedReader.run, hstep]

end BufferedReader

end Support
