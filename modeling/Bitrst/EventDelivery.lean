import Bitrst.Journals

/-!
# Delivery of chain events

The journal serves the wallet, whose mark it holds itself, and any number of
readers with a cursor each.  What a consumer was handed is at any time the run
of events between its starting point and its position, and a call fails exactly
when an event behind the position was evicted.

`push` numbers the events with a `u64` that saturates: the counter is part of
this module, and the guarantee lasts for as many events as it can number.
-/

namespace Bitrst

open Support

namespace ChainEventJournal

variable {journal : ChainEventJournal}

/-! ## Cursors -/

structure ChainEventCursor where
  lastSeq : ℕ := 0
  deriving DecidableEq, Inhabited

def eventCursor (journal : ChainEventJournal) : ChainEventCursor := ⟨journal.latestSeq⟩

/-- The cursor moves to the last entry that it was handed. -/
def collectEvents (journal : ChainEventJournal) (cursor : ChainEventCursor) :
    Except ChainEventCursorError (List ChainEvent) × ChainEventCursor :=
  match journal.eventsAfter cursor.lastSeq with
  | .error e => (.error e, cursor)
  | .ok events =>
      match journal.entries.reverse.find? fun entry ↦ decide (cursor.lastSeq < entry.seq) with
      | some last => (.ok events, ⟨last.seq⟩)
      | none => (.ok events, cursor)

/-- The largest value of the counter. -/
def maxSeq : ℕ := 2 ^ 64 - 1

/-- `push` with the counter as it is, `next_seq.saturating_add(1)`. -/
def pushSaturating (journal : ChainEventJournal) (event : ChainEvent) : ChainEventJournal :=
  { journal.push event with nextSeq := min (journal.nextSeq + 1) maxSeq }

/-! ## What one call does -/

/-- The number of events that the journal no longer has. -/
def evicted (journal : ChainEventJournal) : ℕ := journal.pushed.length - journal.entries.length

/-- The oldest entry is the one after those evicted. -/
theorem Aligned.oldestSeq_eq (h : Aligned journal) :
    journal.oldestSeq = if journal.pushed = [] then none else some (journal.evicted + 1) := by
  obtain ⟨count, heq, hcount, hfull⟩ := h.entries.kept_eq
  have hlength := congrArg List.length heq
  rw [List.length_map, numbered_some_length, List.length_drop] at hlength
  have hhead : journal.oldestSeq =
      ((numbered some (1 + count) (journal.pushed.drop count)).head?).map Prod.snd := by
    rw [← heq, List.head?_map, Option.map_map]
    rfl
  rw [hhead]
  split
  · rename_i hnil
    rw [hnil, List.drop_nil]
    rfl
  · rename_i hne
    have hpos := List.length_pos_iff.mpr hne
    have hlt : count < journal.pushed.length := by
      by_cases hzero : count = 0
      · omega
      · have hsize := hfull hzero
        rw [List.length_map] at hsize
        have := h.capacity_pos
        omega
    have hevicted : journal.evicted = count := by
      unfold evicted
      omega
    rw [List.drop_eq_getElem_cons hlt, hevicted, Nat.add_comm]
    rfl

theorem evicted_le (journal : ChainEventJournal) : journal.evicted ≤ journal.pushed.length :=
  Nat.sub_le _ _

/-- A consumer gets everything after its position, unless some of it was evicted. -/
theorem Aligned.eventsAfter_cases (h : Aligned journal) (since : ℕ) :
    journal.eventsAfter since =
      if since < journal.evicted then .error ⟨since, journal.evicted + 1⟩
      else .ok (journal.pushed.drop since) := by
  by_cases hnil : journal.pushed = []
  · have hzero : ¬ since < journal.evicted := by
      have hle := journal.evicted_le
      rw [hnil, List.length_nil] at hle
      omega
    rw [eventsAfter, h.oldestSeq_eq, if_pos hnil, if_neg hzero, hnil, List.drop_nil]
  · by_cases hlags : since < journal.evicted
    · rw [eventsAfter, h.oldestSeq_eq, if_neg hnil, if_pos hlags]
      exact if_pos hlags
    · have hok : ∃ events, journal.eventsAfter since = .ok events := by
        rw [eventsAfter, h.oldestSeq_eq, if_neg hnil]
        exact ⟨_, if_neg hlags⟩
      obtain ⟨events, hevents⟩ := hok
      rw [if_neg hlags, hevents, (h.eventsAfter_eq hevents).1]

/-- The wallet's call. -/
theorem Aligned.takeEvents_cases (h : Aligned journal)
    (hmark : journal.walletHighWater ≤ journal.pushed.length) :
    journal.takeEvents =
      if journal.walletHighWater < journal.evicted then
        (.error ⟨journal.walletHighWater, journal.evicted + 1⟩, journal)
      else
        (.ok (journal.pushed.drop journal.walletHighWater),
          { journal with walletHighWater := journal.pushed.length }) := by
  have hafter := h.eventsAfter_cases journal.walletHighWater
  split
  · rename_i hlags
    rw [if_pos hlags] at hafter
    rw [takeEvents, hafter]
  · rename_i hserved
    rw [if_neg hserved] at hafter
    have hok : ∃ events journal', journal.takeEvents = (.ok events, journal') := by
      rw [takeEvents, hafter]
      cases journal.entries.getLast? with
      | none => exact ⟨_, _, rfl⟩
      | some last => exact ⟨_, _, rfl⟩
    obtain ⟨events, journal', htake⟩ := hok
    obtain ⟨hevents, hjournal⟩ := h.takeEvents_eq htake hmark
    rw [htake, hevents, hjournal]

/-- Nothing is numbered beyond the stream. -/
theorem Aligned.seq_le (h : Aligned journal) {entry : EventEntry}
    (hentry : entry ∈ journal.entries) : entry.seq ≤ journal.pushed.length := by
  obtain ⟨-, dropped, hsplit, -⟩ := h.entries
  have hmem : (entry.event, entry.seq) ∈ numbered some 1 journal.pushed := by
    rw [hsplit]
    exact List.mem_append_right _ (List.mem_map_of_mem hentry)
  have hbound := (numbered_snd hmem).2
  simp only at hbound
  omega

/-- The last entry that is new to a cursor is the last entry. -/
theorem Aligned.find_last (h : Aligned journal) {since : ℕ}
    (hserved : ¬ since < journal.evicted) (hsince : since ≤ journal.pushed.length) :
    ((journal.entries.reverse.find? fun entry ↦ decide (since < entry.seq)).map
      EventEntry.seq).getD since = journal.pushed.length := by
  by_cases hend : since = journal.pushed.length
  · have hnone : (journal.entries.reverse.find? fun entry ↦ decide (since < entry.seq)) = none := by
      rw [List.find?_eq_none]
      intro entry hentry hlate
      have hlate : since < entry.seq := of_decide_eq_true hlate
      have hbound := h.seq_le (List.mem_reverse.mp hentry)
      omega
    rw [hnone]
    exact hend
  · cases hlast : journal.entries.getLast? with
    | none =>
        rw [List.getLast?_eq_none_iff] at hlast
        rw [evicted, hlast, List.length_nil] at hserved
        omega
    | some last =>
        have hposition := h.entries.last_position (last.event, last.seq)
          (by rw [List.getLast?_map, hlast]; rfl)
        obtain ⟨front, hfront⟩ := List.getLast?_eq_some_iff.mp hlast
        have hfound : ((last :: front.reverse).find? fun entry ↦ decide (since < entry.seq)) =
            some last := by
          apply List.find?_cons_of_pos
          apply decide_eq_true
          simp only at hposition
          omega
        rw [hfront, List.reverse_concat, hfound]
        exact hposition

/-- A reader's call. -/
theorem Aligned.collectEvents_cases (h : Aligned journal) {cursor : ChainEventCursor}
    (hcursor : cursor.lastSeq ≤ journal.pushed.length) :
    journal.collectEvents cursor =
      if cursor.lastSeq < journal.evicted then
        (.error ⟨cursor.lastSeq, journal.evicted + 1⟩, cursor)
      else (.ok (journal.pushed.drop cursor.lastSeq), ⟨journal.pushed.length⟩) := by
  have hafter := h.eventsAfter_cases cursor.lastSeq
  split
  · rename_i hlags
    rw [if_pos hlags] at hafter
    rw [collectEvents, hafter]
  · rename_i hserved
    rw [if_neg hserved] at hafter
    have hlast := h.find_last hserved hcursor
    rw [collectEvents, hafter]
    cases hfound :
        journal.entries.reverse.find? fun entry ↦ decide (cursor.lastSeq < entry.seq) with
    | none =>
        rw [hfound] at hlast
        simp only [← hlast, Option.map_none, Option.getD_none]
    | some last =>
        rw [hfound] at hlast
        simp only [← hlast, Option.map_some, Option.getD_some]

/-! ## Consumers -/

/-- A reader: its cursor, the number of events pushed before its starting point,
and everything it was handed since. -/
structure Reader where
  cursor : ChainEventCursor
  startedAt : ℕ
  received : List ChainEvent

/-- A journal, what the wallet was handed, and the readers. -/
structure Consumers where
  journal : ChainEventJournal
  walletReceived : List ChainEvent
  readers : List Reader

inductive Call
  | push (event : ChainEvent)
  | takeEvents
  | defaultCursor
  | eventCursor
  | collectEvents (reader : ℕ)

/-- What a consumer has after a call with the given result. -/
def handed (received : List ChainEvent) :
    Except ChainEventCursorError (List ChainEvent) → List ChainEvent
  | .ok events => received ++ events
  | .error _ => received

namespace Consumers

def start (capacity : ℕ) : Consumers := ⟨withCapacity capacity, [], []⟩

def step (state : Consumers) : Call → Consumers
  | .push event => { state with journal := state.journal.pushSaturating event }
  | .takeEvents =>
      let (result, journal) := state.journal.takeEvents
      { state with journal := journal, walletReceived := handed state.walletReceived result }
  | .defaultCursor => { state with readers := state.readers ++ [⟨default, 0, []⟩] }
  | .eventCursor =>
      { state with
        readers := state.readers ++
          [⟨state.journal.eventCursor, state.journal.pushed.length, []⟩] }
  | .collectEvents reader =>
      { state with
        readers := state.readers.modify reader fun reader ↦
          let (result, cursor) := state.journal.collectEvents reader.cursor
          { reader with cursor := cursor, received := handed reader.received result } }

def run (capacity : ℕ) (calls : List Call) : Consumers := calls.foldl step (start capacity)

end Consumers

/-- The events that the calls push. -/
def pushes : List Call → List ChainEvent
  | [] => []
  | .push event :: rest => event :: pushes rest
  | _ :: rest => pushes rest

theorem pushes_append (calls calls' : List Call) :
    pushes (calls ++ calls') = pushes calls ++ pushes calls' := by
  induction calls with
  | nil => rfl
  | cons call rest ih => cases call <;> simp only [List.cons_append, pushes, ih]

/-! ## Exactly once -/

/-- A consumer was handed the run of events from its starting point to its position. -/
structure Delivered (pushed : List ChainEvent) (startedAt position : ℕ)
    (received : List ChainEvent) : Prop where
  start_le : startedAt ≤ position
  position_le : position ≤ pushed.length
  received_eq : received = (pushed.take position).drop startedAt

namespace Delivered

variable {pushed received : List ChainEvent} {startedAt position : ℕ}

theorem none (pushed : List ChainEvent) {position : ℕ} (h : position ≤ pushed.length) :
    Delivered pushed position position [] := by
  refine ⟨Nat.le_refl _, h, ?_⟩
  rw [List.drop_eq_nil_of_le]
  rw [List.length_take]
  exact Nat.min_le_left _ _

theorem push (h : Delivered pushed startedAt position received) (event : ChainEvent) :
    Delivered (pushed ++ [event]) startedAt position received := by
  refine ⟨h.start_le, ?_, ?_⟩
  · rw [List.length_append]
    exact Nat.le_add_right_of_le h.position_le
  · rw [List.take_append_of_le_length h.position_le]
    exact h.received_eq

/-- Being handed the rest of the stream moves the position to its end. -/
theorem rest (h : Delivered pushed startedAt position received) :
    Delivered pushed startedAt pushed.length (received ++ pushed.drop position) := by
  refine ⟨h.start_le.trans h.position_le, Nat.le_refl _, ?_⟩
  have hlength : startedAt ≤ (pushed.take position).length := by
    rw [List.length_take, min_eq_left h.position_le]
    exact h.start_le
  calc received ++ pushed.drop position
      = (pushed.take position).drop startedAt ++ pushed.drop position := by rw [h.received_eq]
    _ = (pushed.take position ++ pushed.drop position).drop startedAt :=
        (List.drop_append_of_le_length hlength).symm
    _ = (pushed.take pushed.length).drop startedAt := by
        rw [List.take_append_drop, List.take_length]

end Delivered

/-- The journal as its counter would be if it did not saturate. -/
structure Counted (pushed : List ChainEvent) (journal : ChainEventJournal) : Prop where
  pushed_eq : journal.pushed = pushed
  nextSeq : journal.nextSeq = min (pushed.length + 1) maxSeq
  aligned : Aligned { journal with nextSeq := pushed.length + 1 }

/-- What holds of the consumers after every run. -/
structure ExactlyOnce (pushed : List ChainEvent) (state : Consumers) : Prop where
  journal : Counted pushed state.journal
  wallet : Delivered pushed 0 state.journal.walletHighWater state.walletReceived
  readers : ∀ reader ∈ state.readers,
    Delivered pushed reader.startedAt reader.cursor.lastSeq reader.received

theorem Counted.push {pushed : List ChainEvent} (h : Counted pushed journal)
    (hfew : pushed.length < maxSeq) (event : ChainEvent) :
    Counted (pushed ++ [event]) (journal.pushSaturating event) := by
  have hlength : (pushed ++ [event]).length = pushed.length + 1 := by
    rw [List.length_append, List.length_singleton]
  have hnext : journal.nextSeq = pushed.length + 1 := by
    rw [h.nextSeq]
    omega
  have hsame : { journal with nextSeq := pushed.length + 1 } = journal := by
    rw [← hnext]
  have haligned := h.aligned
  rw [hsame] at haligned
  refine ⟨?_, ?_, ?_⟩
  · change journal.pushed ++ [event] = _
    rw [h.pushed_eq]
  · change min (journal.nextSeq + 1) maxSeq = _
    rw [hnext, hlength]
  · have hpush := haligned.push event
    rw [hlength, ← hnext]
    exact hpush

/-- Taking events does not look at the counter. -/
theorem takeEvents_nextSeq (journal : ChainEventJournal) (count : ℕ) :
    { journal with nextSeq := count }.takeEvents =
      (journal.takeEvents.1, { journal.takeEvents.2 with nextSeq := count }) := by
  have hafter : { journal with nextSeq := count }.eventsAfter journal.walletHighWater =
      journal.eventsAfter journal.walletHighWater := rfl
  unfold takeEvents
  simp only [hafter]
  cases journal.eventsAfter journal.walletHighWater with
  | error e => rfl
  | ok events =>
      simp only
      cases journal.entries.getLast? <;> rfl

theorem Counted.takeEvents_cases {pushed : List ChainEvent} (h : Counted pushed journal)
    (hmark : journal.walletHighWater ≤ pushed.length) :
    journal.takeEvents =
      if journal.walletHighWater < journal.evicted then
        (.error ⟨journal.walletHighWater, journal.evicted + 1⟩, journal)
      else
        (.ok (pushed.drop journal.walletHighWater),
          { journal with walletHighWater := pushed.length }) := by
  have hkeep := takeEvents_nextSeq { journal with nextSeq := pushed.length + 1 } journal.nextSeq
  change journal.takeEvents = _ at hkeep
  have hpushed := h.pushed_eq
  subst hpushed
  have hcases := h.aligned.takeEvents_cases hmark
  rw [hkeep]
  split
  · rename_i hlags
    rw [hcases.trans (if_pos hlags)]
    rfl
  · rename_i hserved
    rw [hcases.trans (if_neg hserved)]

theorem Counted.collectEvents_cases {pushed : List ChainEvent} (h : Counted pushed journal)
    {cursor : ChainEventCursor} (hcursor : cursor.lastSeq ≤ pushed.length) :
    journal.collectEvents cursor =
      if cursor.lastSeq < journal.evicted then
        (.error ⟨cursor.lastSeq, journal.evicted + 1⟩, cursor)
      else (.ok (pushed.drop cursor.lastSeq), ⟨pushed.length⟩) := by
  have hpushed := h.pushed_eq
  subst hpushed
  exact h.aligned.collectEvents_cases hcursor

theorem Counted.eventCursor_eq {pushed : List ChainEvent} (h : Counted pushed journal) :
    journal.eventCursor = ⟨pushed.length⟩ := by
  have hpushed := h.pushed_eq
  subst hpushed
  exact congrArg ChainEventCursor.mk h.aligned.latestSeq_eq

/-- The mark of the wallet is not part of what the journal keeps. -/
theorem Aligned.marked (h : Aligned journal) (mark : ℕ) :
    Aligned { journal with walletHighWater := mark } :=
  ⟨h.capacity_pos, h.nextSeq, h.entries⟩

theorem mem_modify {readers : List Reader} {index : ℕ} {update : Reader → Reader} {reader : Reader}
    (h : reader ∈ readers.modify index update) :
    ∃ old ∈ readers, reader = old ∨ reader = update old := by
  obtain ⟨i, hi⟩ := List.mem_iff_getElem?.mp h
  rw [List.getElem?_modify] at hi
  obtain ⟨old, hold, heq⟩ := Option.map_eq_some_iff.mp hi
  refine ⟨old, List.mem_of_getElem? hold, ?_⟩
  split at heq
  · exact Or.inr heq.symm
  · exact Or.inl heq.symm

theorem ExactlyOnce.step {pushed : List ChainEvent} {state : Consumers}
    (h : ExactlyOnce pushed state) (call : Call)
    (hfew : (pushed ++ pushes [call]).length < 2 ^ 64) :
    ExactlyOnce (pushed ++ pushes [call]) (state.step call) := by
  obtain ⟨hjournal, hwallet, hreaders⟩ := h
  cases call with
  | push event =>
      change (pushed ++ [event]).length < 2 ^ 64 at hfew
      rw [List.length_append, List.length_singleton] at hfew
      refine ⟨hjournal.push (by unfold maxSeq; omega) event, hwallet.push event, ?_⟩
      exact fun reader hreader ↦ (hreaders reader hreader).push event
  | takeEvents =>
      have hcases := hjournal.takeEvents_cases hwallet.position_le
      change (pushed ++ []).length < 2 ^ 64 at hfew
      change ExactlyOnce (pushed ++ []) _
      rw [List.append_nil] at hfew ⊢
      unfold Consumers.step
      simp only [hcases]
      split
      · exact ⟨hjournal, hwallet, hreaders⟩
      · exact ⟨⟨hjournal.pushed_eq, hjournal.nextSeq, hjournal.aligned.marked _⟩, hwallet.rest,
          hreaders⟩
  | defaultCursor =>
      change ExactlyOnce (pushed ++ []) _
      rw [List.append_nil]
      refine ⟨hjournal, hwallet, fun reader hreader ↦ ?_⟩
      rcases List.mem_append.mp hreader with hold | hnew
      · exact hreaders reader hold
      · obtain rfl := List.mem_singleton.mp hnew
        exact Delivered.none pushed (Nat.zero_le _)
  | eventCursor =>
      change ExactlyOnce (pushed ++ []) _
      rw [List.append_nil]
      refine ⟨hjournal, hwallet, fun reader hreader ↦ ?_⟩
      rcases List.mem_append.mp hreader with hold | hnew
      · exact hreaders reader hold
      · obtain rfl := List.mem_singleton.mp hnew
        simp only [hjournal.eventCursor_eq, hjournal.pushed_eq]
        exact Delivered.none pushed (Nat.le_refl _)
  | collectEvents index =>
      change ExactlyOnce (pushed ++ []) _
      rw [List.append_nil]
      refine ⟨hjournal, hwallet, fun reader hreader ↦ ?_⟩
      obtain ⟨old, hold, heq⟩ := mem_modify hreader
      rcases heq with rfl | rfl
      · exact hreaders reader hold
      · have hdelivered := hreaders old hold
        simp only [hjournal.collectEvents_cases hdelivered.position_le]
        split
        · exact hdelivered
        · exact hdelivered.rest

theorem start_exactlyOnce (capacity : ℕ) : ExactlyOnce [] (Consumers.start capacity) where
  journal := ⟨rfl, rfl, withCapacity_aligned capacity⟩
  wallet := Delivered.none [] (Nat.le_refl _)
  readers := by
    intro reader hreader
    cases hreader

theorem run_exactlyOnce (capacity : ℕ) (calls : List Call)
    (hfew : (pushes calls).length < 2 ^ 64) :
    ExactlyOnce (pushes calls) (Consumers.run capacity calls) := by
  induction calls using List.reverseRecOn with
  | nil => exact start_exactlyOnce capacity
  | append_singleton calls call ih =>
      rw [pushes_append] at hfew ⊢
      have hbefore : (pushes calls).length < 2 ^ 64 := by
        rw [List.length_append] at hfew
        omega
      unfold Consumers.run
      rw [List.foldl_append]
      exact (ih hbefore).step call hfew

/-- What every consumer has, and what its next call does.  The journal holds the
events that are not evicted; a call fails when the next event for the consumer
is evicted, and then neither the journal nor the position changes. -/
structure Served (pushed : List ChainEvent) (state : Consumers) : Prop where
  pushed_eq : state.journal.pushed = pushed
  retained : state.journal.entries.map EventEntry.event = pushed.drop state.journal.evicted
  wallet : Delivered pushed 0 state.journal.walletHighWater state.walletReceived
  readers : ∀ reader ∈ state.readers,
    Delivered pushed reader.startedAt reader.cursor.lastSeq reader.received
  takeEvents : state.journal.takeEvents =
    if state.journal.walletHighWater < state.journal.evicted then
      (.error ⟨state.journal.walletHighWater, state.journal.evicted + 1⟩, state.journal)
    else
      (.ok (pushed.drop state.journal.walletHighWater),
        { state.journal with walletHighWater := pushed.length })
  collectEvents : ∀ reader ∈ state.readers, state.journal.collectEvents reader.cursor =
    if reader.cursor.lastSeq < state.journal.evicted then
      (.error ⟨reader.cursor.lastSeq, state.journal.evicted + 1⟩, reader.cursor)
    else (.ok (pushed.drop reader.cursor.lastSeq), ⟨pushed.length⟩)

theorem Aligned.retained (h : Aligned journal) :
    journal.entries.map EventEntry.event = journal.pushed.drop journal.evicted := by
  obtain ⟨count, heq, hcount, -⟩ := h.entries.kept_eq
  have hlength := congrArg List.length heq
  rw [List.length_map, numbered_some_length, List.length_drop] at hlength
  have hevicted : journal.evicted = count := by
    unfold evicted
    omega
  have hevents := congrArg (List.map Prod.fst) heq
  rw [map_fst_numbered, List.filterMap_some, List.map_map] at hevents
  rw [hevicted, ← hevents]
  rfl

theorem ExactlyOnce.served {pushed : List ChainEvent} {state : Consumers}
    (h : ExactlyOnce pushed state) : Served pushed state where
  pushed_eq := h.journal.pushed_eq
  retained := by
    have hretained := h.journal.aligned.retained
    rw [← h.journal.pushed_eq]
    exact hretained
  wallet := h.wallet
  readers := h.readers
  takeEvents := h.journal.takeEvents_cases h.wallet.position_le
  collectEvents := fun reader hreader ↦
    h.journal.collectEvents_cases (h.readers reader hreader).position_le

/-- As long as the counter can number the events, every consumer gets every event after its
starting point once and in order, or an error once some of what is left for it is evicted. -/
theorem run_served (capacity : ℕ) (calls : List Call) (hfew : (pushes calls).length < 2 ^ 64) :
    Served (pushes calls) (Consumers.run capacity calls) :=
  (run_exactlyOnce capacity calls hfew).served

/-! ## The counter saturates -/

theorem eventsAfter_mem {since : ℕ} {events : List ChainEvent}
    (hevents : journal.eventsAfter since = .ok events) {event : ChainEvent}
    (hmem : event ∈ events) :
    ∃ entry ∈ journal.entries, since < entry.seq := by
  unfold eventsAfter at hevents
  split at hevents
  · split at hevents
    · cases hevents
    · rw [← Except.ok.inj hevents] at hmem
      obtain ⟨entry, hentry, -⟩ := List.mem_map.mp hmem
      obtain ⟨hin, hlate⟩ := List.mem_filter.mp hentry
      exact ⟨entry, hin, of_decide_eq_true hlate⟩
  · rw [← Except.ok.inj hevents] at hmem
    cases hmem

theorem collectEvents_fst (journal : ChainEventJournal) (cursor : ChainEventCursor) :
    (journal.collectEvents cursor).1 = journal.eventsAfter cursor.lastSeq := by
  unfold collectEvents
  cases journal.eventsAfter cursor.lastSeq with
  | error e => rfl
  | ok events =>
      simp only
      split <;> rfl

theorem mem_push_entries {event : ChainEvent} {entry : EventEntry}
    (h : entry ∈ (journal.pushSaturating event).entries) :
    entry ∈ journal.entries ∨ entry = ⟨journal.nextSeq, event⟩ := by
  rcases List.mem_append.mp h with hold | hnew
  · apply Or.inl
    split at hold
    · exact List.mem_of_mem_drop hold
    · exact hold
  · exact Or.inr (List.mem_singleton.mp hnew)

/-- The first event beyond the counter is not handed to a reader that waits for it. -/
theorem ExactlyOnce.not_served {pushed : List ChainEvent} {state : Consumers}
    (h : ExactlyOnce pushed state) (hfull : pushed.length = maxSeq) (event : ChainEvent) :
    ¬ Served (pushed ++ [event]) ((state.step .eventCursor).step (.push event)) := by
  intro hserved
  have hreader : (⟨⟨maxSeq⟩, state.journal.pushed.length, []⟩ : Reader) ∈
      ((state.step .eventCursor).step (.push event)).readers := by
    rw [← hfull, ← h.journal.eventCursor_eq]
    exact List.mem_append_right _ List.mem_cons_self
  have hlength : (pushed ++ [event]).length = maxSeq + 1 := by
    rw [List.length_append, hfull, List.length_singleton]
  have hcurrent : ¬ maxSeq < (state.journal.pushSaturating event).evicted := by
    have hentries : 0 < (state.journal.pushSaturating event).entries.length :=
      List.length_pos_of_mem (List.mem_append_right _ List.mem_cons_self)
    have hpushed : (state.journal.pushSaturating event).pushed = pushed ++ [event] :=
      hserved.pushed_eq
    unfold evicted
    rw [hpushed, hlength]
    omega
  have hcall := congrArg Prod.fst
    ((hserved.collectEvents _ hreader).trans (if_neg hcurrent))
  rw [collectEvents_fst] at hcall
  have hmem : event ∈ (pushed ++ [event]).drop maxSeq := by
    rw [← hfull, List.drop_left]
    exact List.mem_cons_self
  obtain ⟨entry, hentry, hlate⟩ := eventsAfter_mem hcall hmem
  have hbound : entry.seq ≤ maxSeq := by
    rcases mem_push_entries hentry with hold | rfl
    · have hle := h.journal.aligned.seq_le hold
      have hpushed := h.journal.pushed_eq
      simp only at hle
      rw [hpushed, hfull] at hle
      exact hle
    · exact h.journal.nextSeq.trans_le (Nat.min_le_right _ _)
  exact Nat.not_lt.mpr hbound hlate

theorem pushes_replicate (n : ℕ) (event : ChainEvent) :
    pushes (List.replicate n (.push event)) = List.replicate n event := by
  induction n with
  | zero => rfl
  | succ n ih => rw [List.replicate_succ, pushes, ih, List.replicate_succ]

/-- After 2 ^ 64 - 1 events the next one is lost. -/
theorem saturated_not_served : ¬ ∀ (capacity : ℕ) (calls : List Call),
    Served (pushes calls) (Consumers.run capacity calls) := by
  intro h
  have hserved := h 1 (List.replicate maxSeq (.push (.orphanAdded zeroHash 1)) ++
    [.eventCursor, .push (.orphanAdded zeroHash 1)])
  unfold Consumers.run at hserved
  rw [pushes_append, pushes_replicate, List.foldl_append] at hserved
  have hbefore := run_exactlyOnce 1 (List.replicate maxSeq (.push (.orphanAdded zeroHash 1)))
    (by rw [pushes_replicate, List.length_replicate]; unfold maxSeq; omega)
  rw [pushes_replicate] at hbefore
  exact hbefore.not_served List.length_replicate _ hserved

/-- A reader from the start falls behind a journal of two events, the wallet does not. -/
theorem two_events_served : Served [.orphanAdded zeroHash 1, .orphanAdded zeroHash 2,
      .orphanAdded zeroHash 3]
    (Consumers.run 2 [.defaultCursor, .push (.orphanAdded zeroHash 1), .takeEvents,
      .push (.orphanAdded zeroHash 2), .push (.orphanAdded zeroHash 3), .collectEvents 0]) :=
  run_served 2 [.defaultCursor, .push (.orphanAdded zeroHash 1), .takeEvents,
    .push (.orphanAdded zeroHash 2), .push (.orphanAdded zeroHash 3), .collectEvents 0]
    (by decide)

end ChainEventJournal

end Bitrst
