import Bitrst.Support.BufferedReader

/-!
# Buffered readers on any stream

A reader whose calls do not look behind the frame they complete makes the same
results of a stream however it comes in pieces.  Nothing is asked of the stream:
it need not be a sequence of frames, and it may end anywhere.
-/

namespace Support

namespace BufferedReader

variable {α σ ρ : Type*} (reader : BufferedReader α σ ρ)

/-- A call that completes would have completed in the same way with more bytes behind. -/
def Local : Prop := ∀ {point : σ} {buffer rest : List α} {result : ρ},
  reader.proceed point buffer = .inr (result, rest) →
    ∀ more, reader.proceed point (buffer ++ more) = .inr (result, rest ++ more)

/-- The results of calls, one after the other, that find the whole stream in the buffer. -/
def reads : ℕ → List α → List ρ
  | 0, _ => []
  | n + 1, stream =>
      match reader.proceed reader.start stream with
      | .inl _ => reader.closed :: reads n stream
      | .inr (result, rest) => result :: reads n rest

variable {reader}

theorem reads_waits {stream : List α} {next : σ}
    (h : reader.proceed reader.start stream = .inl next) (n : ℕ) :
    reader.reads (n + 1) stream = reader.closed :: reader.reads n stream := by
  rw [reads, h]

theorem reads_result {stream rest : List α} {result : ρ}
    (h : reader.proceed reader.start stream = .inr (result, rest)) (n : ℕ) :
    reader.reads (n + 1) stream = result :: reader.reads n rest := by
  rw [reads, h]

theorem length_reads (n : ℕ) (stream : List α) : (reader.reads n stream).length = n := by
  induction n generalizing stream with
  | zero => rfl
  | succ n ih =>
      rw [reads]
      split
      · exact congrArg (· + 1) (ih stream)
      · exact congrArg (· + 1) (ih _)

/-- The call under way goes on as a new one would, and waits for more than the buffer holds. -/
structure Underway (reader : BufferedReader α σ ρ) (state : State α σ) : Prop where
  nonempty : ∀ chunk ∈ state.unread, chunk ≠ []
  call : ∀ point ∈ state.call, (∃ next, reader.proceed reader.start state.buffer = .inl next) ∧
    ∀ more, reader.proceed point (state.buffer ++ more) =
      reader.proceed reader.start (state.buffer ++ more)

/-- The bytes that calls have not used. -/
def State.stream (state : State α σ) : List α := state.buffer ++ state.unread.flatten

/-- How many more polls there can be before the next result. -/
def State.patience (state : State α σ) : ℕ :=
  state.unread.length + if state.call.isSome then 0 else 1

/-- What a step does to the results that the stream still holds. -/
structure Consumes (reader : BufferedReader α σ ρ) (state next : State α σ) (result : Option ρ) :
    Prop where
  underway : reader.Underway next
  reads : ∀ n, reader.reads (result.toList.length + n) state.stream =
    result.toList ++ reader.reads n next.stream

section

variable {state : State α σ}

theorem Underway.advance (hlocal : reader.Local) {point : σ} {buffer : List α}
    {unread : List (List α)} (hnonempty : ∀ chunk ∈ unread, chunk ≠ [])
    (hcall : ∀ more, reader.proceed point (buffer ++ more) =
      reader.proceed reader.start (buffer ++ more)) :
    Consumes reader ⟨buffer, none, unread⟩ (reader.advance point buffer unread).1
        (reader.advance point buffer unread).2 ∧
      (reader.advance point buffer unread).1.patience ≤
        unread.length + (reader.advance point buffer unread).2.toList.length := by
  have hstart : reader.proceed point buffer = reader.proceed reader.start buffer := by
    simpa using hcall []
  cases hproceed : reader.proceed point buffer with
  | inl next =>
      rw [BufferedReader.advance, hproceed]
      refine ⟨⟨⟨hnonempty, fun other hother ↦ ?_⟩, fun n ↦ ?_⟩, le_refl _⟩
      · obtain rfl := Option.some.inj hother
        exact ⟨⟨next, hstart ▸ hproceed⟩,
          fun more ↦ (reader.resume hproceed more).trans (hcall more)⟩
      · rw [Option.toList_none, List.length_nil, Nat.zero_add]
        rfl
  | inr completed =>
      obtain ⟨result, rest⟩ := completed
      rw [BufferedReader.advance, hproceed]
      refine ⟨⟨⟨hnonempty, fun _ hother ↦ by cases hother⟩, fun n ↦ ?_⟩, le_refl _⟩
      rw [Option.toList_some, List.length_singleton, Nat.add_comm]
      exact reads_result (hlocal (hstart ▸ hproceed) unread.flatten) n

/-- A call that is dropped leaves all its bytes to the next one. -/
theorem Underway.cancel (h : reader.Underway state) :
    Consumes reader state (reader.step .cancel state).1 none :=
  ⟨⟨h.nonempty, fun _ hpoint ↦ nomatch hpoint⟩, fun n ↦ by
    rw [Option.toList_none, List.length_nil, Nat.zero_add]
    rfl⟩

/-- A poll that gives no result has used up some of the patience. -/
theorem Underway.poll (hlocal : reader.Local) (h : reader.Underway state) :
    Consumes reader state (reader.step .poll state).1 (reader.step .poll state).2 ∧
      (reader.step .poll state).1.patience + 1 ≤
        state.patience + 2 * (reader.step .poll state).2.toList.length := by
  obtain ⟨buffer, call, unread⟩ := state
  obtain ⟨hnonempty, hcall⟩ := h
  dsimp only at hnonempty hcall
  cases call with
  | none =>
      obtain ⟨hconsumes, hpatience⟩ := Underway.advance hlocal hnonempty
        fun more ↦ (rfl : reader.proceed reader.start (buffer ++ more) = _)
      refine ⟨hconsumes, ?_⟩
      change (reader.advance reader.start buffer unread).1.patience + 1 ≤
        unread.length + 1 + 2 * (reader.advance reader.start buffer unread).2.toList.length
      omega
  | some point =>
      obtain ⟨⟨next, hwaits⟩, hsame⟩ := hcall point rfl
      cases unread with
      | nil =>
          refine ⟨⟨⟨hnonempty, fun _ hother ↦ nomatch hother⟩, fun n ↦ ?_⟩, ?_⟩
          · simp only [State.stream, BufferedReader.step, List.flatten_nil, List.append_nil,
              Option.toList_some, List.length_singleton, Nat.add_comm 1, List.singleton_append]
            exact reads_waits hwaits n
          · simp [BufferedReader.step, State.patience]
      | cons chunk unread =>
          have hchunk : chunk.isEmpty = false :=
            List.isEmpty_eq_false_iff.mpr (hnonempty chunk List.mem_cons_self)
          have hstep : reader.step .poll ⟨buffer, some point, chunk :: unread⟩ =
              reader.advance point (buffer ++ chunk) unread := by
            rw [BufferedReader.step, hchunk]
            rfl
          obtain ⟨⟨hunderway, hreads⟩, hpatience⟩ := Underway.advance hlocal
            (fun other hother ↦ hnonempty other (List.mem_cons_of_mem _ hother))
            (fun more ↦ (by simpa using hsame (chunk ++ more) :
              reader.proceed point (buffer ++ chunk ++ more) =
                reader.proceed reader.start (buffer ++ chunk ++ more)))
          rw [hstep]
          refine ⟨⟨hunderway, fun n ↦ ?_⟩, ?_⟩
          · simpa only [State.stream, List.flatten_cons, List.append_assoc] using hreads n
          · change (reader.advance point (buffer ++ chunk) unread).1.patience + 1 ≤
              unread.length + 1 +
                2 * (reader.advance point (buffer ++ chunk) unread).2.toList.length
            omega

/-- The completed calls return what calls on the whole stream return. -/
theorem Underway.run (hlocal : reader.Local) (h : reader.Underway state) (events : List Event) :
    reader.run events state = reader.reads (reader.run events state).length state.stream := by
  induction events generalizing state with
  | nil => rfl
  | cons event events ih =>
      have hconsumes : Consumes reader state (reader.step event state).1
          (reader.step event state).2 := by
        cases event with
        | cancel => exact h.cancel
        | poll => exact (h.poll hlocal).1
      rw [BufferedReader.run, List.length_append, hconsumes.reads, ← ih hconsumes.underway]

/-- Only dropped calls and reads make polls that give no result. -/
theorem Underway.polls_le (hlocal : reader.Local) (h : reader.Underway state)
    (events : List Event) :
    events.count .poll ≤
      state.patience + 2 * (reader.run events state).length + events.count .cancel := by
  induction events generalizing state with
  | nil => exact Nat.zero_le _
  | cons event events ih =>
      rw [BufferedReader.run, List.length_append]
      cases event with
      | cancel =>
          have hrest := ih h.cancel.underway
          have hpatience : (reader.step .cancel state).1.patience ≤ state.patience + 1 := by
            simp only [BufferedReader.step, State.patience, Option.isSome_none, Bool.false_eq_true,
              if_false]
            omega
          rw [List.count_cons_self, List.count_cons_of_ne (by decide : Event.cancel ≠ .poll)]
          omega
      | poll =>
          obtain ⟨hconsumes, hpatience⟩ := h.poll hlocal
          have hrest := ih hconsumes.underway
          rw [List.count_cons_self, List.count_cons_of_ne (by decide : Event.poll ≠ .cancel)]
          omega

end

end BufferedReader

end Support
