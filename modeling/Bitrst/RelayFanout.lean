import Bitrst.OutboundSlots
import Bitrst.PeerQueues
import Bitrst.Support.Trace
import Mathlib.Data.List.Range

/-!
# Relaying past a peer that is gone

A peer's task can return at any time, and its entry stays in the table until
the event about it is handled.  `relay_inventory` gives up at the first such
peer that it comes to, and so does the `poll` that called it.  At a peer that
listens but takes no commands it waits, for as long as that peer's queue is full.
-/

namespace Bitrst

open Support

namespace PeerSystem

variable {α : Type} [DecidableEq α]

/-! ## Calls of the manager -/

/-- What the call of `relay_inventory` under way returns in a step. -/
def relayReturned (s : PeerSystem α) (action : PeerAction α) : Option (Except NetError Unit) :=
  match action, s.manager with
  | .turn, .relaying relay => if relay.left = [] then some (.ok ()) else none
  | .send, .sending _ task =>
      match s.tasks[task]? with
      | none => none
      | some t => if t.phase = .ended then some (.error .connectionClosed) else none
  | _, _ => none

/-- What the call of `poll` under way returns in a step: the error of a relay, or nothing once
there is no event left. -/
def pollReturned (s : PeerSystem α) (action : PeerAction α) : Option (Except NetError Unit) :=
  match action, s.manager with
  | .takeEvent _, .events => if s.events.receive.isNone then some (.ok ()) else none
  | .send, .sending _ _ => s.relayReturned (.send : PeerAction α)
  | _, _ => none

/-- The command that a step queues, with the task it is for. -/
def queuedBy (s : PeerSystem α) (action : PeerAction α) : List (ℕ × PeerCommand) :=
  match action, s.manager with
  | .send, .sending relay task => [(task, .send relay.message)]
  | _, _ => []

/-- The tasks that a relay has yet to send to. -/
def targets (s : PeerSystem α) (relay : InventoryRelay α) : List ℕ :=
  relay.left.filterMap fun addr ↦ (s.peers.lookup addr).bind fun entry ↦
    if relay.origin = some addr ∨ entry.state ≠ .ready then none else some entry.task

/-- The manager does not send to a task that has returned. -/
def OpenTarget (s : PeerSystem α) : PeerAction α → Prop
  | .send => ∀ relay task, s.manager = .sending relay task →
      ∀ t, s.tasks[task]? = some t → t.phase ≠ .ended
  | _ => True

/-- What the relay under way has yet to queue. -/
def owed (s : PeerSystem α) : List (ℕ × PeerCommand) :=
  match s.manager with
  | .relaying relay => (s.targets relay).map fun task ↦ (task, .send relay.message)
  | .sending relay task => (task :: s.targets relay).map fun task ↦ (task, .send relay.message)
  | _ => []

/-- The steps of its own that a relay has yet to take before it returns. -/
def turnsLeft (s : PeerSystem α) : ℕ :=
  match s.manager with
  | .relaying relay => 2 * relay.left.length
  | .sending relay _ => 2 * relay.left.length + 1
  | _ => 0

/-- A call of `relay_inventory` is under way. -/
def InCall (s : PeerSystem α) : Prop :=
  (∃ relay, s.manager = .relaying relay) ∨ ∃ relay task, s.manager = .sending relay task

/-- A call of `relay_inventory` is under way and does not wait for room in a queue. -/
def CanRelay (s : PeerSystem α) : Prop :=
  (∃ relay, s.manager = .relaying relay) ∨
    ∃ relay task, s.manager = .sending relay task ∧ ¬ s.Choked task

section Calls

variable {config : PeerManagerConfig} {s next : PeerSystem α} {action : PeerAction α}
  {result : Except NetError Unit}

omit [DecidableEq α] in
theorem relayReturned_eq_some (h : s.relayReturned action = some result) :
    (action = .turn ∧ result = .ok () ∧ ∃ relay, s.manager = .relaying relay ∧ relay.left = []) ∨
      (action = .send ∧ result = .error .connectionClosed ∧ ∃ relay task t,
        s.manager = .sending relay task ∧ s.tasks[task]? = some t ∧ t.phase = .ended) := by
  unfold relayReturned at h
  split at h
  · rename_i relay hmanager
    split at h
    · rename_i hleft
      exact .inl ⟨rfl, (Option.some.inj h).symm, relay, hmanager, hleft⟩
    · cases h
  · rename_i relay task hmanager
    split at h
    · cases h
    rename_i t ht
    split at h
    · rename_i hended
      exact .inr ⟨rfl, (Option.some.inj h).symm, relay, task, t, hmanager, ht, hended⟩
    · cases h
  · cases h

/-- A relay is passed over its next peer, or turns to it. -/
theorem turn_spec {relay : InventoryRelay α} {addr : α} {rest : List α}
    (hmanager : s.manager = .relaying relay) (hleft : relay.left = addr :: rest)
    (hstep : s.turn = some next) :
    (s.targets relay = s.targets { relay with left := rest } ∧
      next = { s with manager := .relaying { relay with left := rest } }) ∨
    ∃ task, s.targets relay = task :: s.targets { relay with left := rest } ∧
      next = { s with manager := .sending { relay with left := rest } task } := by
  simp only [turn, hmanager, hleft] at hstep
  cases hentry : s.peers.lookup addr with
  | none =>
      rw [hentry] at hstep
      cases hstep
  | some entry =>
      simp only [hentry] at hstep
      split at hstep
      · rename_i hskip
        obtain rfl := Option.some.inj hstep
        refine .inl ⟨?_, rfl⟩
        simp only [targets, hleft, List.filterMap_cons, hentry, Option.bind_some, if_pos hskip]
      · rename_i hturn
        obtain rfl := Option.some.inj hstep
        refine .inr ⟨entry.task, ?_, rfl⟩
        simp only [targets, hleft, List.filterMap_cons, hentry, Option.bind_some, if_neg hturn]

omit [DecidableEq α] in
/-- A task that still listens gets the command. -/
theorem send_spec {relay : InventoryRelay α} {task : ℕ} (hmanager : s.manager = .sending relay task)
    (hreturned : s.relayReturned (.send : PeerAction α) = none) (hstep : s.send = some next) :
    next.peers = s.peers ∧ next.manager = .relaying relay := by
  simp only [send, hmanager] at hstep
  cases ht : s.tasks[task]? with
  | none =>
      rw [ht] at hstep
      cases hstep
  | some t =>
      simp only [ht] at hstep
      split at hstep
      · rename_i hended
        simp only [relayReturned, hmanager, ht, if_pos hended] at hreturned
        cases hreturned
      split at hstep
      · obtain rfl := Option.some.inj hstep
        exact ⟨rfl, rfl⟩
      · cases hstep

theorem targets_congr {relay : InventoryRelay α} (h : next.peers = s.peers) :
    next.targets relay = s.targets relay := by
  rw [targets, targets, h]

/-- While a relay is under way, the manager goes on with it and does nothing else. -/
theorem relaying_step (hbusy : (∃ relay, s.manager = .relaying relay) ∨
      ∃ relay task, s.manager = .sending relay task)
    (hstep : step config s action = some next) (hturn : action ≠ .turn) (hsend : action ≠ .send) :
    next.peers = s.peers ∧ next.manager = s.manager ∧ s.queuedBy action = [] := by
  have hidle : s.manager ≠ .idle ∧ s.manager ≠ .registrations ∧ s.manager ≠ .events := by
    rcases hbusy with ⟨relay, hmanager⟩ | ⟨relay, task, hmanager⟩ <;> simp [hmanager]
  obtain ⟨hidle, hregistrations, hevents⟩ := hidle
  have hother : action.byManager = false := by
    cases action with
    | connectSeed addr =>
        simp only [step, connectSeed] at hstep
        cases hstep
    | poll =>
        simp only [step, poll] at hstep
        cases hstep
    | takeRegistration =>
        simp only [step, takeRegistration] at hstep
        cases hstep
    | takeEvent order =>
        simp only [step, takeEvent] at hstep
        cases hstep
    | relayInventory origin items order =>
        simp only [step, relayInventory] at hstep
        cases hstep
    | turn => exact (hturn rfl).elim
    | send => exact (hsend rfl).elim
    | _ => rfl
  obtain ⟨hsame, hmanager⟩ := sameManager_step hstep hother
  refine ⟨hsame.1, hmanager, ?_⟩
  cases action with
  | send => exact (hsend rfl).elim
  | _ => rfl

/-- A step of a call that does not end it queues what is next, or leaves the manager alone. -/
theorem call_step (hcall : s.InCall) (hstep : step config s action = some next)
    (hreturned : s.relayReturned action = none) :
    next.InCall ∧ next.peers = s.peers ∧ s.owed = s.queuedBy action ++ next.owed ∧
      (next.turnsLeft < s.turnsLeft ∨
        next.manager = s.manager ∧ action ≠ .turn ∧ action ≠ .send) := by
  have hother (hturn : action ≠ .turn) (hsend : action ≠ .send) :
      next.InCall ∧ next.peers = s.peers ∧ s.owed = s.queuedBy action ++ next.owed ∧
        (next.turnsLeft < s.turnsLeft ∨
          next.manager = s.manager ∧ action ≠ .turn ∧ action ≠ .send) := by
    obtain ⟨hpeers, hmanager, hnone⟩ := relaying_step hcall hstep hturn hsend
    refine ⟨?_, hpeers, ?_, .inr ⟨hmanager, hturn, hsend⟩⟩
    · rwa [InCall, hmanager]
    · rw [hnone, owed, owed, hmanager]
      simp only [targets_congr hpeers]
      rfl
  rcases hcall with ⟨relay, hmanager⟩ | ⟨relay, task, hmanager⟩
  · by_cases hturn : action = .turn
    · subst hturn
      cases hleft : relay.left with
      | nil => simp [relayReturned, hmanager, hleft] at hreturned
      | cons addr rest =>
          rcases turn_spec hmanager hleft hstep with ⟨htargets, rfl⟩ | ⟨task, htargets, rfl⟩
          · refine ⟨.inl ⟨_, rfl⟩, rfl, ?_, .inl ?_⟩
            · simp only [owed, hmanager, htargets]
              rfl
            · simp only [turnsLeft, hmanager, hleft, List.length_cons]
              omega
          · refine ⟨.inr ⟨_, _, rfl⟩, rfl, ?_, .inl ?_⟩
            · simp only [owed, hmanager, htargets]
              rfl
            · simp only [turnsLeft, hmanager, hleft, List.length_cons]
              omega
    · apply hother hturn
      rintro rfl
      simp only [step, send, hmanager] at hstep
      cases hstep
  · by_cases hsend : action = .send
    · subst hsend
      obtain ⟨hpeers, hnext⟩ := send_spec hmanager hreturned hstep
      refine ⟨.inl ⟨_, hnext⟩, hpeers, ?_, .inl ?_⟩
      · simp only [owed, hmanager, hnext, queuedBy, targets_congr hpeers]
        rfl
      · simp only [turnsLeft, hmanager, hnext]
        exact Nat.lt_succ_self _
    · apply hother _ hsend
      rintro rfl
      simp only [step, turn, hmanager] at hstep
      cases hstep

/-- A call that succeeds has nothing left to queue. -/
theorem owed_of_ok (h : s.relayReturned action = some (.ok ())) : s.owed = [] := by
  rcases relayReturned_eq_some h with ⟨-, -, relay, hmanager, hleft⟩ | ⟨-, hresult, -⟩
  · simp only [owed, hmanager, targets, hleft, List.filterMap_nil, List.map_nil]
  · cases hresult

omit [DecidableEq α] in
/-- A step in which a command is sent finds room in the queue, or a task that has returned. -/
theorem not_choked_of_send {relay : InventoryRelay α} {task : ℕ}
    (hmanager : s.manager = .sending relay task) (hstep : s.send = some next) :
    ¬ s.Choked task := by
  rintro ⟨t, ht, hlive, hfull⟩
  simp only [send, hmanager, Option.mem_def.mp ht, if_neg hlive,
    if_neg (Nat.not_lt.mpr hfull)] at hstep
  cases hstep

variable (config) in
/-- Sending to a task that has returned is a step. -/
theorem step_of_not_openTarget (h : ¬ s.OpenTarget action) :
    s.relayReturned action = some (.error .connectionClosed) ∧ action = .send ∧
      ∃ next, step config s action = some next := by
  cases action with
  | send =>
      simp only [OpenTarget, not_forall, not_not] at h
      obtain ⟨relay, task, hmanager, t, ht, hended⟩ := h
      refine ⟨?_, rfl, { s with manager := .idle }, ?_⟩
      · simp only [relayReturned, hmanager, ht, if_pos hended]
      · simp only [step, send, hmanager, ht, if_pos hended]
  | _ => exact (h trivial).elim

omit [DecidableEq α] in
/-- A poll returns an error in the step in which a relay does. -/
theorem pollReturned_send : s.pollReturned (.send : PeerAction α) = s.relayReturned .send := by
  cases hmanager : s.manager <;> simp [pollReturned, relayReturned, hmanager]

omit [DecidableEq α] in
theorem pollReturned_eq_some (h : s.pollReturned action = some result) :
    (result = .ok () ∧ s.OpenTarget action) ∨
      (action = .send ∧ s.relayReturned action = some result) := by
  cases action with
  | send => exact .inr ⟨rfl, pollReturned_send ▸ h⟩
  | takeEvent order =>
      unfold pollReturned at h
      split at h
      · split at h
        · exact .inl ⟨(Option.some.inj h).symm, trivial⟩
        · cases h
      · cases ‹PeerAction.takeEvent order = .send›
      · cases h
  | _ => cases h

end Calls

/-! ## Calls on a trace -/

section Traces

/-- A run of the peers and the manager that never ends. -/
abbrev PeerTrace (α : Type) [DecidableEq α] (config : PeerManagerConfig) :=
  Trace (step config : PeerSystem α → PeerAction α → Option (PeerSystem α))

variable {config : PeerManagerConfig} {trace : PeerTrace α config} {n m : ℕ}
  {returned : PeerSystem α → PeerAction α → Option (Except NetError Unit)}

/-- What a call returns in a step of the trace. -/
def returnedAt (returned : PeerSystem α → PeerAction α → Option (Except NetError Unit))
    (trace : PeerTrace α config) (n : ℕ) : Option (Except NetError Unit) :=
  (trace.label n).bind (returned (trace.state n))

/-- The call with which the trace begins has not returned before a step. -/
def During (returned : PeerSystem α → PeerAction α → Option (Except NetError Unit))
    (trace : PeerTrace α config) (n : ℕ) : Prop :=
  ∀ k < n, returnedAt returned trace k = none

/-- The commands queued in a step of the trace. -/
def queuedAt (trace : PeerTrace α config) (n : ℕ) : List (ℕ × PeerCommand) :=
  (trace.label n).elim [] (trace.state n).queuedBy

/-- The call returns without an error, having queued the message for every ready peer but the
origin that listened when it was made. -/
def Relays (origin : Option α) (items : List InventoryVector)
    (trace : PeerTrace α config) : Prop :=
  ∃ n, During relayReturned trace n ∧ returnedAt relayReturned trace n = some (.ok ()) ∧
    ∀ addr entry, (trace.state 0).peers.lookup addr = some entry → entry.state = .ready →
      origin ≠ some addr →
        (∃ t, (trace.state 0).tasks[entry.task]? = some t ∧ t.phase ≠ .ended) →
          ∃ k < n, (entry.task, .send (Message.inv items)) ∈ queuedAt trace k

/-- While the call lasts, the manager sends to no task that has returned, and no task that it is
sending to leaves its command queue full for ever. -/
def ReachesPeers (trace : PeerTrace α config) : Prop :=
  ∀ n, During relayReturned trace n →
    (∀ action, trace.label n = some action → (trace.state n).OpenTarget action) ∧
      ∀ relay task, (trace.state n).manager = .sending relay task →
        ∃ m, n ≤ m ∧ ¬ (trace.state m).Choked task

/-- The manager is run again and again while a call of `relay_inventory` can go on, which it can
from then on until it does. -/
def ManagerRuns (trace : PeerTrace α config) : Prop :=
  ∀ n, (trace.state n).CanRelay →
    ∃ m, n ≤ m ∧ (trace.label m = some .turn ∨ trace.label m = some .send)

theorem During.mono (h : During returned trace m) (hle : n ≤ m) : During returned trace n :=
  fun k hk ↦ h k (hk.trans_le hle)

theorem returnedAt_eq {action : PeerAction α} (h : trace.label n = some action) :
    returnedAt returned trace n = returned (trace.state n) action := by
  rw [returnedAt, h, Option.bind_some]

/-- What has been queued and what is owed make up what was owed when the call was made. -/
theorem during_call (hcall : (trace.state 0).InCall) (hduring : During relayReturned trace n) :
    (trace.state n).InCall ∧
      (trace.state 0).owed = (List.range n).flatMap (queuedAt trace) ++ (trace.state n).owed := by
  induction n with
  | zero => exact ⟨hcall, rfl⟩
  | succ n ih =>
      obtain ⟨hin, howed⟩ := ih (hduring.mono (Nat.le_succ n))
      rw [List.range_succ, List.flatMap_append, List.flatMap_singleton, List.append_assoc]
      cases hlabel : trace.label n with
      | none =>
          rw [trace.state_eq hlabel, queuedAt, hlabel]
          exact ⟨hin, howed⟩
      | some action =>
          have hreturned := hduring n (Nat.lt_succ_self n)
          rw [returnedAt_eq hlabel] at hreturned
          obtain ⟨hnext, -, hqueued, -⟩ := call_step hin (trace.step_eq hlabel) hreturned
          refine ⟨hnext, ?_⟩
          rw [howed, hqueued, queuedAt, hlabel]
          rfl

/-- A step of the trace during the call brings it nearer to its end or is another's. -/
theorem turnsLeft_step (hcall : (trace.state 0).InCall)
    (hduring : During relayReturned trace (n + 1)) :
    ((trace.state (n + 1)).turnsLeft < (trace.state n).turnsLeft) ∨
      (trace.state (n + 1)).manager = (trace.state n).manager ∧ trace.label n ≠ some .turn ∧
        trace.label n ≠ some .send := by
  obtain ⟨hin, -⟩ := during_call hcall (hduring.mono (Nat.le_succ n))
  cases hlabel : trace.label n with
  | none =>
      rw [trace.state_eq hlabel]
      exact .inr ⟨rfl, nofun, nofun⟩
  | some action =>
      have hreturned := hduring n (Nat.lt_succ_self n)
      rw [returnedAt_eq hlabel] at hreturned
      obtain ⟨-, -, -, hless | ⟨hsame, hturn, hsend⟩⟩ :=
        call_step hin (trace.step_eq hlabel) hreturned
      · exact .inl hless
      · exact .inr ⟨hsame, fun heq ↦ hturn (Option.some.inj heq),
          fun heq ↦ hsend (Option.some.inj heq)⟩

/-- As long as the manager takes no step, it stays where it is. -/
theorem manager_eq_of_idle (hcall : (trace.state 0).InCall) (hle : n ≤ m)
    (hduring : During relayReturned trace m)
    (hidle : ∀ k, n ≤ k → k < m → trace.label k ≠ some .turn ∧ trace.label k ≠ some .send) :
    (trace.state m).manager = (trace.state n).manager := by
  induction m, hle using Nat.le_induction with
  | base => rfl
  | succ m hle ih =>
      have hbefore := ih (hduring.mono (Nat.le_succ m)) fun k hk hlt ↦
        hidle k hk (hlt.trans (Nat.lt_succ_self m))
      obtain ⟨hturn, hsend⟩ := hidle m hle (Nat.lt_succ_self m)
      obtain ⟨hin, -⟩ := during_call hcall (hduring.mono (Nat.le_succ m))
      refine Eq.trans ?_ hbefore
      cases hlabel : trace.label m with
      | none => rw [trace.state_eq hlabel]
      | some action =>
          refine (relaying_step hin (trace.step_eq hlabel) ?_ ?_).2.1
          · exact fun heq ↦ hturn (by rw [hlabel, heq])
          · exact fun heq ↦ hsend (by rw [hlabel, heq])

/-- A call does not return in a step that is not the manager's. -/
theorem returnedAt_eq_none (hturn : trace.label n ≠ some .turn)
    (hsend : trace.label n ≠ some .send) :
    returnedAt relayReturned trace n = none := by
  refine Option.eq_none_iff_forall_ne_some.mpr fun result hresult ↦ ?_
  obtain ⟨action, hlabel, hreturned⟩ := Option.bind_eq_some_iff.mp hresult
  rcases relayReturned_eq_some hreturned with ⟨rfl, -⟩ | ⟨rfl, -⟩
  · exact hturn hlabel
  · exact hsend hlabel

/-- The manager takes another step of a call unless its peer never makes room. -/
theorem exists_turn (hcall : (trace.state 0).InCall) (hruns : ManagerRuns trace)
    (hduring : During relayReturned trace n)
    (hroom : ∀ relay task, (trace.state n).manager = .sending relay task →
      ∃ m, n ≤ m ∧ ¬ (trace.state m).Choked task) :
    ∃ m, n ≤ m ∧ (trace.label m = some .turn ∨ trace.label m = some .send) := by
  obtain ⟨⟨relay, hmanager⟩ | ⟨relay, task, hmanager⟩, -⟩ := during_call hcall hduring
  · exact hruns n (.inl ⟨relay, hmanager⟩)
  obtain ⟨m, hle, hfree⟩ := hroom relay task hmanager
  by_contra hnever
  have hidle : ∀ k, n ≤ k → trace.label k ≠ some .turn ∧ trace.label k ≠ some .send :=
    fun k hk ↦ ⟨fun heq ↦ hnever ⟨k, hk, .inl heq⟩, fun heq ↦ hnever ⟨k, hk, .inr heq⟩⟩
  have hstill : During relayReturned trace m := by
    intro k hk
    by_cases hearly : k < n
    · exact hduring k hearly
    · obtain ⟨hturn, hsend⟩ := hidle k (Nat.not_lt.mp hearly)
      exact returnedAt_eq_none hturn hsend
  -- the manager has not moved when there is room, so that it can move then
  have hsame := manager_eq_of_idle hcall hle hstill fun k hk _ ↦ hidle k hk
  obtain ⟨k, hk, hstep⟩ := hruns m (.inr ⟨relay, task, hsame.trans hmanager, hfree⟩)
  exact hnever ⟨k, hle.trans hk, hstep⟩

/-- Where every task that the manager sends to makes room in the end, the call comes to its end. -/
theorem exists_return (hcall : (trace.state 0).InCall) (hruns : ManagerRuns trace)
    (hroom : ∀ n, During relayReturned trace n → ∀ relay task,
      (trace.state n).manager = .sending relay task →
        ∃ m, n ≤ m ∧ ¬ (trace.state m).Choked task) :
    ∃ n, During relayReturned trace n ∧
      ∃ result, returnedAt relayReturned trace n = some result := by
  have hkeep : ∀ n, During relayReturned trace n → During relayReturned trace (n + 1) →
      (trace.state (n + 1)).turnsLeft ≤ (trace.state n).turnsLeft := by
    intro n _ hduring
    rcases turnsLeft_step hcall hduring with hless | ⟨hsame, -⟩
    · exact hless.le
    · rw [turnsLeft, turnsLeft, hsame]
  have hwork : ∀ n, During relayReturned trace n → ∃ m, n ≤ m ∧ (During relayReturned trace m →
      During relayReturned trace (m + 1) →
        (trace.state (m + 1)).turnsLeft < (trace.state m).turnsLeft) := by
    intro n hduring
    obtain ⟨m, hle, hstep⟩ := exists_turn hcall hruns hduring (hroom n hduring)
    refine ⟨m, hle, fun _ hlater ↦ ?_⟩
    rcases turnsLeft_step hcall hlater with hless | ⟨-, hturn, hsend⟩
    · exact hless
    · exact (hstep.elim hturn hsend).elim
  obtain ⟨m, -, hended⟩ := exists_not_of_measure (During relayReturned trace)
    (fun n ↦ (trace.state n).turnsLeft) hkeep hwork 0
  have hexists : ∃ k, returnedAt relayReturned trace k ≠ none := by
    by_contra hnever
    exact hended fun k _ ↦ not_not.mp fun hk ↦ hnever ⟨k, hk⟩
  classical
  refine ⟨Nat.find hexists, fun j hj ↦ not_not.mp (Nat.find_min hexists hj), ?_⟩
  exact Option.ne_none_iff_exists'.mp (Nat.find_spec hexists)

/-- A peer that is served was not left waiting for ever. -/
theorem exists_not_choked (hreturned : returnedAt relayReturned trace m = some (.ok ()))
    (hle : n ≤ m) {relay : InventoryRelay α} {task : ℕ}
    (hmanager : (trace.state n).manager = .sending relay task) :
    ∃ k, n ≤ k ∧ ¬ (trace.state k).Choked task := by
  by_contra hnever
  have hchoked : ∀ k, n ≤ k → (trace.state k).Choked task := by
    intro k hk
    by_contra hfree
    exact hnever ⟨k, hk, hfree⟩
  have hsending : ∀ k, n ≤ k → k ≤ m → (trace.state k).manager = .sending relay task := by
    intro k hk
    induction k, hk using Nat.le_induction with
    | base => exact fun _ ↦ hmanager
    | succ k hk ih =>
        intro hkm
        have hbefore := ih ((Nat.le_succ k).trans hkm)
        cases hlabel : trace.label k with
        | none => rw [trace.state_eq hlabel, hbefore]
        | some action =>
            have hstep := trace.step_eq hlabel
            refine (relaying_step (.inr ⟨relay, task, hbefore⟩) hstep ?_ ?_).2.1.trans hbefore
            · rintro rfl
              simp only [step, turn, hbefore] at hstep
              cases hstep
            · rintro rfl
              exact not_choked_of_send hbefore hstep (hchoked k hk)
  cases hlabel : trace.label m with
  | none =>
      rw [returnedAt, hlabel, Option.bind_none] at hreturned
      cases hreturned
  | some action =>
      rw [returnedAt_eq hlabel] at hreturned
      rcases relayReturned_eq_some hreturned with ⟨-, -, other, hother, -⟩ | ⟨-, hresult, -⟩
      · cases (hsending m hle le_rfl).symm.trans hother
      · cases hresult

/-- A call that succeeds has queued its message for all whom it owed it to. -/
theorem mem_queued_of_ok (hcall : (trace.state 0).InCall)
    (hduring : During relayReturned trace n)
    (hok : returnedAt relayReturned trace n = some (.ok ())) {task : ℕ} {command : PeerCommand}
    (howed : (task, command) ∈ (trace.state 0).owed) :
    ∃ k < n, (task, command) ∈ queuedAt trace k := by
  obtain ⟨-, hqueued⟩ := during_call hcall hduring
  obtain ⟨action, -, haction⟩ := Option.bind_eq_some_iff.mp hok
  rw [hqueued, owed_of_ok haction, List.append_nil] at howed
  obtain ⟨k, hk, hmem⟩ := List.mem_flatMap.mp howed
  exact ⟨k, List.mem_range.mp hk, hmem⟩

/-- A call begins with all ready peers but the origin before it. -/
theorem startRelay_spec {s next : PeerSystem α} {polling : Bool} {origin : Option α}
    {items : List InventoryVector} {order : List α} (hitems : items ≠ [])
    (hstart : s.startRelay polling origin items order = some next) :
    next.InCall ∧ ∀ addr entry, next.peers.lookup addr = some entry → entry.state = .ready →
      origin ≠ some addr → (entry.task, .send (Message.inv items)) ∈ next.owed := by
  rw [startRelay, if_neg hitems] at hstart
  split at hstart
  · rename_i horder
    obtain rfl := Option.some.inj hstart
    refine ⟨.inl ⟨_, rfl⟩, fun addr entry hentry hready horigin ↦ ?_⟩
    have hmem : addr ∈ order := by
      rw [← Multiset.mem_coe, horder]
      exact Finmap.mem_keys.mpr (Finmap.mem_iff.mpr ⟨entry, hentry⟩)
    apply List.mem_map_of_mem
    refine List.mem_filterMap.mpr ⟨addr, hmem, ?_⟩
    simp [hentry, hready, horigin]
  · cases hstart

/-- Sending to a task that has returned is what a call fails by. -/
theorem returnedAt_error_iff :
    (∃ e, returnedAt relayReturned trace n = some (.error e)) ↔
      ∃ action, trace.label n = some action ∧ ¬ (trace.state n).OpenTarget action := by
  constructor
  · rintro ⟨e, herror⟩
    obtain ⟨action, hlabel, herror⟩ := Option.bind_eq_some_iff.mp herror
    refine ⟨action, hlabel, fun hopen ↦ ?_⟩
    rcases relayReturned_eq_some herror with
      ⟨-, hresult, -⟩ | ⟨rfl, -, relay, task, t, hmanager, ht, hended⟩
    · cases hresult
    · exact hopen relay task hmanager t ht hended
  · rintro ⟨action, hlabel, hclosed⟩
    rw [returnedAt_eq hlabel]
    exact ⟨_, (step_of_not_openTarget config hclosed).1⟩

theorem pollReturnedAt_error_iff :
    (∃ e, returnedAt pollReturned trace n = some (.error e)) ↔
      ∃ e, returnedAt relayReturned trace n = some (.error e) := by
  constructor
  · rintro ⟨e, herror⟩
    obtain ⟨action, hlabel, herror⟩ := Option.bind_eq_some_iff.mp herror
    rcases pollReturned_eq_some herror with ⟨hresult, -⟩ | ⟨-, hreturned⟩
    · cases hresult
    · exact ⟨e, (returnedAt_eq hlabel).trans hreturned⟩
  · rintro ⟨e, herror⟩
    obtain ⟨action, hlabel, herror⟩ := Option.bind_eq_some_iff.mp herror
    refine ⟨e, (returnedAt_eq hlabel).trans ?_⟩
    rcases relayReturned_eq_some herror with ⟨-, hresult, -⟩ | ⟨rfl, -⟩
    · cases hresult
    · rw [pollReturned_send, herror]

/-- Every task that the manager is at listens and has room in its queue. -/
def AllServed (s : PeerSystem α) (_ : PeerAction α) : Prop :=
  ∀ task ∈ s.facing, ∃ t ∈ s.tasks[task]?, t.phase ≠ .ended ∧ t.commands.length < maxPeerCommands

instance (s : PeerSystem α) (action : PeerAction α) : Decidable (s.AllServed action) :=
  inferInstanceAs (Decidable (∀ task ∈ s.facing, _))

section Finite

variable {s t : PeerSystem α} {actions : List (PeerAction α)}

theorem AllServed.sending {relay : InventoryRelay α} {task : ℕ} {action : PeerAction α}
    (h : s.AllServed action) (hmanager : s.manager = .sending relay task) {u : PeerTask α}
    (hu : s.tasks[task]? = some u) :
    u.phase ≠ .ended ∧ u.commands.length < maxPeerCommands := by
  obtain ⟨u', hu', hserved⟩ := h task (by rw [facing, hmanager]; rfl)
  obtain rfl := Option.some.inj ((Option.mem_def.mp hu').symm.trans hu)
  exact hserved

theorem openTarget_ofExecution (h : execute (step config) s actions = some t)
    (halong : Along (step config) AllServed s actions) (n : ℕ) (action : PeerAction α)
    (haction : (Trace.ofExecution h).label n = some action) :
    ((Trace.ofExecution h).state n).OpenTarget action := by
  have hserved := Trace.ofExecution_along h halong haction
  cases action with
  | send => exact fun relay task hmanager u hu ↦ (hserved.sending hmanager hu).1
  | _ => trivial

/-- A relay to peers that all listen and have room in their queues reaches them. -/
theorem reachesPeers_ofExecution (h : execute (step config) s actions = some t)
    (halong : Along (step config) AllServed s actions) (hdone : t.manager = .idle) :
    ReachesPeers (.ofExecution h : PeerTrace α config) := by
  intro n _
  refine ⟨openTarget_ofExecution h halong n, fun relay task hmanager ↦ ?_⟩
  by_cases hn : n < actions.length
  · have hserved := Trace.ofExecution_along h halong (List.getElem?_eq_getElem hn)
    refine ⟨n, le_rfl, ?_⟩
    rintro ⟨u, hu, -, hfull⟩
    exact (Nat.not_le.mpr (hserved.sending hmanager hu).2) hfull
  · rw [Trace.ofExecution_done h (Nat.le_of_not_lt hn)] at hmanager
    cases hdone.symm.trans hmanager

/-- Where every step is the manager's, it is run until the call returns. -/
theorem managerRuns_ofExecution (h : execute (step config) s actions = some t)
    (hown : ∀ action ∈ actions, action = .turn ∨ action = .send) (hdone : t.manager = .idle) :
    ManagerRuns (.ofExecution h : PeerTrace α config) := by
  intro n hcan
  by_cases hn : n < actions.length
  · have hlabel : (Trace.ofExecution h).label n = some actions[n] := List.getElem?_eq_getElem hn
    refine ⟨n, le_rfl, ?_⟩
    rw [hlabel]
    exact (hown _ (List.getElem_mem hn)).imp (congrArg some) (congrArg some)
  · rw [Trace.ofExecution_done h (Nat.le_of_not_lt hn)] at hcan
    rcases hcan with ⟨relay, hmanager⟩ | ⟨relay, task, hmanager, -⟩
    · cases hdone.symm.trans hmanager
    · cases hdone.symm.trans hmanager

end Finite

end Traces

/-- A call of `relay_inventory` reaches every ready peer but the origin that listens when it is
made, and succeeds, exactly when it sends to no task that has returned and to none that leaves its
queue full for ever, in whatever order the peers are visited.  A poll returns no error exactly
when it sends to no task that has returned. -/
theorem relay_survives_iff {config : PeerManagerConfig} {s : PeerSystem α} {polling : Bool}
    {origin : Option α} {items : List InventoryVector} {order : List α} (hitems : items ≠ [])
    {trace : PeerTrace α config}
    (hstart : s.startRelay polling origin items order = some (trace.state 0))
    (hruns : ManagerRuns trace) (polled : PeerTrace α config) :
    (Relays origin items trace ↔ ReachesPeers trace) ∧
      ((∀ n, During pollReturned polled n →
          ∀ e, returnedAt pollReturned polled n ≠ some (.error e)) ↔
        ∀ n, During pollReturned polled n →
          ∀ action, polled.label n = some action → (polled.state n).OpenTarget action) := by
  obtain ⟨hcall, howed⟩ := startRelay_spec hitems hstart
  refine ⟨⟨?_, ?_⟩, ?_⟩
  · rintro ⟨last, hlast, hok, -⟩ n hn
    have hle : n ≤ last := by
      by_contra hlt
      cases (hn last (Nat.not_le.mp hlt)).symm.trans hok
    refine ⟨fun action hlabel ↦ ?_, fun relay task ↦ exists_not_choked hok hle⟩
    by_contra hclosed
    obtain ⟨e, herror⟩ := returnedAt_error_iff.mpr ⟨action, hlabel, hclosed⟩
    rcases hle.lt_or_eq with hlt | rfl
    · cases (hlast n hlt).symm.trans herror
    · cases hok.symm.trans herror
  · intro hreaches
    obtain ⟨last, hlast, result, hresult⟩ :=
      exists_return hcall hruns fun n hn ↦ (hreaches n hn).2
    cases result with
    | ok _ =>
        refine ⟨last, hlast, hresult, fun addr entry hentry hready horigin _ ↦ ?_⟩
        exact mem_queued_of_ok hcall hlast hresult (howed addr entry hentry hready horigin)
    | error e =>
        obtain ⟨action, hlabel, hclosed⟩ := returnedAt_error_iff.mp ⟨e, hresult⟩
        exact (hclosed ((hreaches last hlast).1 action hlabel)).elim
  · refine forall₂_congr fun n hn ↦ ?_
    have hfails : (∃ e, returnedAt pollReturned polled n = some (.error e)) ↔
        ∃ action, polled.label n = some action ∧ ¬ (polled.state n).OpenTarget action :=
      pollReturnedAt_error_iff.trans returnedAt_error_iff
    constructor
    · intro hnone action hlabel
      by_contra hclosed
      obtain ⟨e, herror⟩ := hfails.mpr ⟨action, hlabel, hclosed⟩
      exact hnone e herror
    · intro hopen e herror
      obtain ⟨action, hlabel, hclosed⟩ := hfails.mp ⟨e, herror⟩
      exact hclosed (hopen action hlabel)

end PeerSystem

/-! ## A peer that is gone -/

namespace Sample

open PeerSystem

/-- Two peers are ready, and the first fails; its event is not handled yet. -/
def departing : List (PeerAction ℕ) := joining ++ [.fail 0 .connectionClosed]

/-- The first peer comes first, and the second is not told about the block. -/
theorem departed_stops_relay :
    ¬ ∀ (config : PeerManagerConfig) (before : List (PeerAction ℕ)) (s : PeerSystem ℕ)
      (items : List InventoryVector) (order : List ℕ) (trace : PeerTrace ℕ config),
      execute (step config) PeerSystem.start before = some s →
        s.startRelay false none items order = some (trace.state 0) → ManagerRuns trace →
          Relays none items trace := by
  intro h
  have hrun : (execute (step limits) PeerSystem.start departing).any (fun s ↦
      (s.startRelay false none [newBlock] [8333, 8334]).any fun called ↦
        (execute (step limits) called [.turn, .send]).any fun t ↦
          called.manager = .relaying ⟨false, none, Message.inv [newBlock], [8333, 8334]⟩ ∧
            t.manager = .idle) = true := by
    decide +kernel
  obtain ⟨s, hs, hrun⟩ := (Option.any_eq_true _ _).mp hrun
  obtain ⟨called, hcalled, hrun⟩ := (Option.any_eq_true _ _).mp hrun
  obtain ⟨t, ht, hmanager⟩ := (Option.any_eq_true _ _).mp hrun
  obtain ⟨hmanager, hidle⟩ := of_decide_eq_true hmanager
  have hruns : ManagerRuns (.ofExecution ht : PeerTrace ℕ limits) :=
    managerRuns_ofExecution ht (by simp) hidle
  obtain ⟨n, -, hok, -⟩ := h limits departing s [newBlock] [8333, 8334] _ hs hcalled hruns
  -- only a turn at the end of the list would succeed
  obtain ⟨action, hlabel, hok⟩ := Option.bind_eq_some_iff.mp hok
  rcases relayReturned_eq_some hok with ⟨rfl, -, relay, hrelay, hleft⟩ | ⟨-, hresult, -⟩
  · match n with
    | 0 =>
        obtain rfl := ManagerPhase.relaying.inj (hmanager.symm.trans hrelay)
        cases hleft
    | 1 => cases hlabel
    | n + 2 => cases hlabel
  · cases hresult

/-- The second peer has announced a block, and a poll has begun. -/
def polling : List (PeerAction ℕ) := joining ++ [.announce 1 [newBlock], .deliver 0, .poll]

/-- With both peers listening, the relay reaches both and the poll returns no error. -/
theorem joined_relays : ∃ (s polled : PeerSystem ℕ) (trace poll : PeerTrace ℕ limits),
    execute (step limits) PeerSystem.start joining = some s ∧
      s.startRelay false none [newBlock] [8333, 8334] = some (trace.state 0) ∧
        execute (step limits) PeerSystem.start polling = some polled ∧ poll.state 0 = polled ∧
          Relays none [newBlock] trace ∧ ∀ n, During pollReturned poll n →
            ∀ e, returnedAt pollReturned poll n ≠ some (.error e) := by
  have hrelay : (execute (step limits) PeerSystem.start joining).any (fun s ↦
      (s.startRelay false none [newBlock] [8333, 8334]).any fun called ↦
        (execute (step limits) called [.turn, .send, .turn, .send, .turn]).any fun t ↦
          Along (step limits) AllServed called [.turn, .send, .turn, .send, .turn] ∧
            t.manager = .idle) = true := by
    decide +kernel
  have hpoll : (execute (step limits) PeerSystem.start polling).any (fun polled ↦
      (execute (step limits) polled [.takeRegistration, .takeEvent [8333, 8334], .turn, .send,
        .turn, .turn, .takeEvent []]).any fun t ↦
          Along (step limits) AllServed polled [.takeRegistration, .takeEvent [8333, 8334], .turn,
            .send, .turn, .turn, .takeEvent []]) = true := by
    decide +kernel
  obtain ⟨s, hs, hrelay⟩ := (Option.any_eq_true _ _).mp hrelay
  obtain ⟨called, hcalled, hrelay⟩ := (Option.any_eq_true _ _).mp hrelay
  obtain ⟨t, ht, hrelay⟩ := (Option.any_eq_true _ _).mp hrelay
  obtain ⟨halong, hidle⟩ := of_decide_eq_true hrelay
  obtain ⟨polled, hpolled, hpoll⟩ := (Option.any_eq_true _ _).mp hpoll
  obtain ⟨u, hu, hpoll⟩ := (Option.any_eq_true _ _).mp hpoll
  have hopen := openTarget_ofExecution hu (of_decide_eq_true hpoll)
  obtain ⟨hrelays, hpolls⟩ := relay_survives_iff (List.cons_ne_nil newBlock []) hcalled
    (managerRuns_ofExecution ht (by simp) hidle) (.ofExecution hu : PeerTrace ℕ limits)
  exact ⟨s, polled, .ofExecution ht, .ofExecution hu, hs, hcalled, hpolled, rfl,
    hrelays.mpr (reachesPeers_ofExecution ht halong hidle), hpolls.mpr fun n _ ↦ hopen n⟩

end Sample

end Bitrst
