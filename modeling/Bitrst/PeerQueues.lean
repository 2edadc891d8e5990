import Bitrst.PeerRegistry

/-!
# The manager and the peers waiting for each other

The manager takes events and sends commands, the peers send events and take
commands, and both queues are bounded.  They block each other when the manager
sends to a peer whose command queue is full while that peer waits for room in
the event queue.  That takes both queues to be full at once: as long as the
event queue has a free place whenever the manager is at a peer with a full
command queue, the two never wait for each other, and it takes many commands
and many events to get there.
-/

namespace Bitrst

open Support

namespace PeerSystem

variable {α : Type} [DecidableEq α]

/-- The task waits in `emit_event` on a full event queue. -/
def Blocked (s : PeerSystem α) (task : ℕ) : Prop :=
  ∃ event ∈ s.events.waiters, event.1 = task

/-- The command queue of a task that still listens is full. -/
def Choked (s : PeerSystem α) (task : ℕ) : Prop :=
  ∃ t ∈ s.tasks[task]?, t.phase ≠ .ended ∧ maxPeerCommands ≤ t.commands.length

/-- The manager waits for a peer to take a command and the peer for the manager
to take an event. -/
def Deadlocked (s : PeerSystem α) : Prop :=
  ∃ relay task, s.manager = .sending relay task ∧ s.Choked task ∧ s.Blocked task

instance (s : PeerSystem α) (task : ℕ) : Decidable (s.Blocked task) :=
  inferInstanceAs (Decidable (∃ event ∈ _, _))

instance (s : PeerSystem α) (task : ℕ) : Decidable (s.Choked task) :=
  inferInstanceAs (Decidable (∃ t ∈ _, _))

instance (s : PeerSystem α) : Decidable s.Deadlocked :=
  match hmanager : s.manager with
  | .sending relay task =>
      decidable_of_iff (s.Choked task ∧ s.Blocked task) (by
        constructor
        · exact fun h ↦ ⟨relay, task, hmanager, h⟩
        · rintro ⟨relay', task', hsending, h⟩
          obtain ⟨-, rfl⟩ := ManagerPhase.sending.inj (hmanager.symm.trans hsending)
          exact h)
  | .idle | .registrations | .events | .relaying _ =>
      isFalse fun ⟨_, _, hsending, _⟩ ↦ nomatch hmanager.symm.trans hsending

/-- The task that the manager would turn to next. -/
def target (s : PeerSystem α) : Option ℕ :=
  match s.manager with
  | .relaying relay =>
      match relay.left with
      | [] => none
      | addr :: _ =>
          match s.peers.lookup addr with
          | none => none
          | some entry =>
              if relay.origin = some addr ∨ entry.state ≠ .ready then none else some entry.task
  | _ => none

/-- The task that the manager is sending to or would turn to next. -/
def facing (s : PeerSystem α) : Option ℕ :=
  match s.manager with
  | .sending _ task => some task
  | _ => s.target

/-- When the manager is at a peer with a full command queue, the event queue has a free place. -/
def RoomLeft (s : PeerSystem α) : Prop :=
  ∀ task ∈ s.facing, s.Choked task → ¬ s.events.Full

instance (s : PeerSystem α) : Decidable s.RoomLeft :=
  inferInstanceAs (Decidable (∀ task ∈ s.facing, _))

/-- The manager does not turn to a peer with a full command queue that waits
for room in the event queue, and a peer with a full command queue that the
manager is sending to does not begin to wait for it. -/
def Unentangled (s : PeerSystem α) : PeerAction α → Prop
  | .turn => ∀ task, s.target = some task → s.Choked task → ¬ s.Blocked task
  | .complete task | .announce task _ =>
      ∀ relay, s.manager = .sending relay task → s.Choked task → ¬ s.events.Full
  | _ => True

/-! ## Where a deadlock can come from -/

section Frame

variable {s t : PeerSystem α}

omit [DecidableEq α] in
theorem Deadlocked.of_frame (h : t.Deadlocked)
    (hmanager : ∀ relay task, t.manager = .sending relay task → s.manager = .sending relay task)
    (hchoked : ∀ task, t.Choked task → s.Choked task)
    (hblocked : ∀ task, t.Choked task → t.Blocked task → s.Blocked task) : s.Deadlocked := by
  obtain ⟨relay, task, hsending, hfull, hwaits⟩ := h
  exact ⟨relay, task, hmanager relay task hsending, hchoked task hfull, hblocked task hfull hwaits⟩

omit [DecidableEq α] in
theorem not_deadlocked_of_manager (h : ∀ relay task, t.manager ≠ .sending relay task) :
    ¬ t.Deadlocked := by
  rintro ⟨relay, task, hsending, -⟩
  exact h relay task hsending

omit [DecidableEq α] in
theorem choked_spawnPeer {addr : α} {direction : ConnectionDirection} {task : ℕ}
    (h : (s.spawnPeer addr direction).Choked task) : s.Choked task := by
  obtain ⟨u, hu, hlive, hfull⟩ := h
  have hmem : (s.tasks ++ [⟨addr, direction, .handshaking, []⟩])[task]? = some u := hu
  by_cases hold : task < s.tasks.length
  · rw [List.getElem?_append_left hold] at hmem
    exact ⟨u, hmem, hlive, hfull⟩
  · rw [List.getElem?_append_right (Nat.not_lt.mp hold)] at hmem
    obtain rfl := List.mem_singleton.mp (List.mem_of_getElem? hmem)
    exact (Nat.not_succ_le_zero _ hfull).elim

omit [DecidableEq α] in
/-- Changing a task chokes none if it leaves the task alive only where it was
and its command queue full only where it was. -/
theorem choked_modify {changed task : ℕ} {f : PeerTask α → PeerTask α}
    (htasks : t.tasks = s.tasks.modify changed f) {old : PeerTask α}
    (hold : s.tasks[changed]? = some old)
    (hf : (f old).phase ≠ .ended → maxPeerCommands ≤ (f old).commands.length →
      old.phase ≠ .ended ∧ maxPeerCommands ≤ old.commands.length)
    (h : t.Choked task) : s.Choked task := by
  obtain ⟨u, hu, hlive, hfull⟩ := h
  rw [htasks] at hu
  obtain ⟨v, hv, rfl | ⟨rfl, rfl⟩⟩ := commands_modify hu
  · exact ⟨u, hv, hlive, hfull⟩
  · obtain rfl := Option.some.inj (hold.symm.trans hv)
    exact ⟨old, hold, hf hlive hfull⟩

omit [DecidableEq α] in
/-- A task begins to wait when it emits an event and the queue is full. -/
theorem blocked_emitEvent {emitter task : ℕ} {event : PeerEvent α} :
    (s.emitEvent emitter event).Blocked task ↔
      s.Blocked task ∨ (task = emitter ∧ s.events.Full) := by
  simp only [Blocked, emitEvent, BoundedChannel.mem_waiters_request]
  constructor
  · rintro ⟨other, hmem | ⟨rfl, hfull⟩, rfl⟩
    · exact .inl ⟨other, hmem, rfl⟩
    · exact .inr ⟨rfl, hfull⟩
  · rintro (⟨other, hmem, heq⟩ | ⟨rfl, hfull⟩)
    · exact ⟨other, .inl hmem, heq⟩
    · exact ⟨_, .inr ⟨rfl, hfull⟩, rfl⟩

omit [DecidableEq α] in
/-- An event that a live task emits makes a deadlock just if the manager is
sending to that task, whose queue is full, and the event queue is full too. -/
theorem deadlocked_emitEvent {emitter : ℕ} {event : PeerEvent α} (h : ¬ s.Deadlocked) :
    (s.emitEvent emitter event).Deadlocked ↔
      ∃ relay, s.manager = .sending relay emitter ∧ s.Choked emitter ∧ s.events.Full := by
  constructor
  · rintro ⟨relay, task, hsending, hfull, hwaits⟩
    rcases blocked_emitEvent.mp hwaits with hold | ⟨rfl, hroom⟩
    · exact (h ⟨relay, task, hsending, hfull, hold⟩).elim
    · exact ⟨relay, hsending, hfull, hroom⟩
  · rintro ⟨relay, hsending, hfull, hroom⟩
    exact ⟨relay, emitter, hsending, hfull, blocked_emitEvent.mpr (.inr ⟨rfl, hroom⟩)⟩

omit [DecidableEq α] in
/-- A task that ends does not listen, and no one else begins to wait. -/
theorem not_deadlocked_of_ended {task : ℕ} {old : PeerTask α} (hold : s.tasks[task]? = some old)
    (hmanager : t.manager = s.manager) (htasks : t.tasks = (s.setPhase task .ended).tasks)
    (hblocked : ∀ other, other ≠ task → t.Blocked other → s.Blocked other) (h : ¬ s.Deadlocked) :
    ¬ t.Deadlocked := by
  intro hlocked
  have hended : ¬ t.Choked task := by
    rintro ⟨u, hu, hlive, -⟩
    rw [htasks, setPhase, List.getElem?_modify_eq, hold] at hu
    obtain rfl := Option.some.inj hu
    exact hlive rfl
  refine h (hlocked.of_frame (fun _ _ hsending ↦ hmanager.symm.trans hsending) ?_ ?_)
  · exact fun other ↦ choked_modify htasks hold fun hlive ↦ (hlive rfl).elim
  · exact fun other hfull ↦ hblocked other fun heq ↦ hended (heq ▸ hfull)

end Frame

/-! ## Steps -/

section Steps

variable {s t : PeerSystem α} (h : ¬ s.Deadlocked)

include h

omit [DecidableEq α] in
theorem not_deadlocked_accept {config : PeerManagerConfig} {addr : α}
    (hstep : s.accept config addr = some t) : ¬ t.Deadlocked := by
  unfold accept at hstep
  split at hstep
  · cases hstep
  split at hstep
  · obtain rfl := Option.some.inj hstep
    exact fun hlocked ↦ h (hlocked.of_frame (fun _ _ hsending ↦ hsending)
      (fun _ ↦ choked_spawnPeer) fun _ _ hblocked ↦ hblocked)
  · obtain rfl := Option.some.inj hstep
    exact h

theorem not_deadlocked_connectSeed {config : PeerManagerConfig} {addr : α}
    (hstep : s.connectSeed config addr = some t) : ¬ t.Deadlocked := by
  unfold connectSeed at hstep
  split at hstep
  · split at hstep
    · obtain rfl := Option.some.inj hstep
      exact h
    split at hstep
    · obtain rfl := Option.some.inj hstep
      exact h
    · obtain rfl := Option.some.inj hstep
      exact fun hlocked ↦ h (hlocked.of_frame (fun _ _ hsending ↦ hsending)
        (fun _ ↦ choked_spawnPeer) fun _ _ hblocked ↦ hblocked)
  · cases hstep

omit [DecidableEq α] in
theorem not_deadlocked_register (hstep : s.register = some t) : ¬ t.Deadlocked := by
  unfold register at hstep
  split at hstep
  · cases hstep
  split at hstep
  · obtain rfl := Option.some.inj hstep
    exact h
  · cases hstep

theorem deadlocked_complete {task : ℕ} (hstep : s.complete task = some t) :
    ¬ t.Deadlocked ↔ s.Unentangled (.complete task) := by
  obtain ⟨u, hrunning, rfl⟩ := Option.map_eq_some_iff.mp hstep
  obtain ⟨-, hu, hphase⟩ := running_eq_some hrunning
  have hchoked : ∀ other, (s.setPhase task .established).Choked other ↔ s.Choked other := by
    intro other
    constructor
    · refine choked_modify rfl hu fun _ hfull ↦ ⟨?_, hfull⟩
      rw [hphase]
      decide
    · rintro ⟨v, hv, hlive, hfull⟩
      by_cases heq : task = other
      · subst heq
        obtain rfl := Option.some.inj (hu.symm.trans hv)
        refine ⟨{ u with phase := .established }, ?_, ?_, hfull⟩
        · rw [setPhase, List.getElem?_modify_eq, hu]
          rfl
        · rintro ⟨⟩
      · refine ⟨v, ?_, hlive, hfull⟩
        rw [setPhase, List.getElem?_modify_ne _ _ heq]
        exact hv
  have hbefore : ¬ (s.setPhase task .established).Deadlocked := fun hlocked ↦
    h (hlocked.of_frame (fun _ _ hsending ↦ hsending) (fun other ↦ (hchoked other).mp)
      fun _ _ hblocked ↦ hblocked)
  rw [deadlocked_emitEvent hbefore, hchoked]
  simp only [not_exists, not_and]
  rfl

theorem deadlocked_announce {task : ℕ} {items : List InventoryVector}
    (hstep : s.announce task items = some t) :
    ¬ t.Deadlocked ↔ s.Unentangled (.announce task items) := by
  obtain ⟨u, -, rfl⟩ := Option.map_eq_some_iff.mp hstep
  rw [deadlocked_emitEvent h]
  simp only [not_exists, not_and]
  rfl

omit [DecidableEq α] in
theorem not_deadlocked_fail {task : ℕ} {error : NetError} (hstep : s.fail task error = some t) :
    ¬ t.Deadlocked := by
  obtain ⟨u, hrunning, rfl⟩ := Option.map_eq_some_iff.mp hstep
  have hu : s.tasks[task]? = some u := by
    rcases Option.or_eq_some_iff.mp hrunning with hrunning | ⟨-, hrunning⟩
    · exact (running_eq_some hrunning).2.1
    · exact (running_eq_some hrunning).2.1
  refine not_deadlocked_of_ended hu rfl rfl (fun other hne hblocked ↦ ?_) h
  exact (blocked_emitEvent.mp hblocked).resolve_right fun hself ↦ hne hself.1

omit [DecidableEq α] in
theorem not_deadlocked_deliver {index : ℕ} (hstep : s.deliver index = some t) :
    ¬ t.Deadlocked := by
  obtain ⟨events, hevents, rfl⟩ := Option.map_eq_some_iff.mp hstep
  have hwaiters := BoundedChannel.waiters_deliver hevents
  refine fun hlocked ↦ h (hlocked.of_frame (fun _ _ hsending ↦ hsending) (fun _ hfull ↦ hfull) ?_)
  rintro task - ⟨event, hmem, heq⟩
  exact ⟨event, hwaiters ▸ hmem, heq⟩

omit [DecidableEq α] in
theorem not_deadlocked_takeCommand {task : ℕ} (hstep : s.takeCommand task = some t) :
    ¬ t.Deadlocked := by
  unfold takeCommand at hstep
  split at hstep
  · cases hstep
  rename_i u hrunning
  obtain ⟨-, hu, hphase⟩ := running_eq_some hrunning
  split at hstep
  · rename_i message rest hcommands
    obtain rfl := Option.some.inj hstep
    refine fun hlocked ↦ h (hlocked.of_frame (fun _ _ hsending ↦ hsending) (fun other ↦ ?_)
      fun _ _ hblocked ↦ hblocked)
    refine choked_modify rfl hu fun hlive hfull ↦ ⟨hlive, ?_⟩
    rw [hcommands]
    exact hfull.trans (Nat.le_succ _)
  · obtain rfl := Option.some.inj hstep
    exact not_deadlocked_of_ended hu rfl rfl (fun _ _ hblocked ↦ hblocked) h
  · split at hstep
    · cases hstep
    · obtain rfl := Option.some.inj hstep
      exact not_deadlocked_of_ended hu rfl rfl (fun _ _ hblocked ↦ hblocked) h

omit h

omit [DecidableEq α] in
theorem not_deadlocked_poll (hstep : s.poll = some t) : ¬ t.Deadlocked := by
  unfold poll at hstep
  split at hstep
  · obtain rfl := Option.some.inj hstep
    exact not_deadlocked_of_manager fun _ _ hsending ↦ nomatch hsending
  · cases hstep

theorem not_deadlocked_takeRegistration {config : PeerManagerConfig}
    (hstep : s.takeRegistration config = some t) : ¬ t.Deadlocked := by
  unfold takeRegistration at hstep
  split at hstep
  · rename_i hmanager
    split at hstep
    · obtain rfl := Option.some.inj hstep
      exact not_deadlocked_of_manager fun _ _ hsending ↦ nomatch hsending
    · rename_i registration rest hregistrations
      obtain rfl := Option.some.inj hstep
      apply not_deadlocked_of_manager
      intro relay task hsending
      unfold processRegistration at hsending
      split at hsending
      · exact nomatch hmanager.symm.trans hsending
      · exact nomatch hmanager.symm.trans hsending
  · cases hstep

theorem not_deadlocked_startRelay {polling : Bool} {origin : Option α}
    {items : List InventoryVector} {order : List α}
    (hstep : s.startRelay polling origin items order = some t) : ¬ t.Deadlocked := by
  unfold startRelay at hstep
  split at hstep
  · obtain rfl := Option.some.inj hstep
    cases polling with
    | false => exact not_deadlocked_of_manager fun _ _ hsending ↦ nomatch hsending
    | true => exact not_deadlocked_of_manager fun _ _ hsending ↦ nomatch hsending
  split at hstep
  · obtain rfl := Option.some.inj hstep
    exact not_deadlocked_of_manager fun _ _ hsending ↦ nomatch hsending
  · cases hstep

theorem not_deadlocked_takeEvent {order : List α} (hstep : s.takeEvent order = some t) :
    ¬ t.Deadlocked := by
  unfold takeEvent at hstep
  split at hstep
  · rename_i hmanager
    split at hstep
    · obtain rfl := Option.some.inj hstep
      exact not_deadlocked_of_manager fun _ _ hsending ↦ nomatch hsending
    · rename_i task event events hreceive
      have hidle : ∀ relay other, s.manager ≠ .sending relay other :=
        fun _ _ hsending ↦ nomatch hmanager.symm.trans hsending
      cases event with
      | announce addr items => exact not_deadlocked_startRelay hstep
      | ready addr =>
          rw [handleEvent] at hstep
          split at hstep
          · obtain rfl := Option.some.inj hstep
            exact not_deadlocked_of_manager hidle
          · obtain rfl := Option.some.inj hstep
            exact not_deadlocked_of_manager hidle
      | disconnected addr error =>
          rw [handleEvent] at hstep
          split at hstep
          · obtain rfl := Option.some.inj hstep
            exact not_deadlocked_of_manager hidle
          · obtain rfl := Option.some.inj hstep
            exact not_deadlocked_of_manager hidle
      | registrationRejected addr error =>
          obtain rfl := Option.some.inj hstep
          exact not_deadlocked_of_manager hidle
  · cases hstep

theorem not_deadlocked_relayInventory {origin : Option α} {items : List InventoryVector}
    {order : List α} (hstep : s.relayInventory origin items order = some t) :
    ¬ t.Deadlocked := by
  unfold relayInventory at hstep
  split at hstep
  · exact not_deadlocked_startRelay hstep
  · cases hstep

omit [DecidableEq α] in
theorem not_deadlocked_send (hstep : s.send = some t) : ¬ t.Deadlocked := by
  unfold send at hstep
  split at hstep
  · split at hstep
    · cases hstep
    split at hstep
    · obtain rfl := Option.some.inj hstep
      exact not_deadlocked_of_manager fun _ _ hsending ↦ nomatch hsending
    split at hstep
    · obtain rfl := Option.some.inj hstep
      exact not_deadlocked_of_manager fun _ _ hsending ↦ nomatch hsending
    · cases hstep
  · cases hstep

/-- The manager turns to its target, or to none. -/
theorem turn_cases (hstep : s.turn = some t) :
    (s.target = none ∧ ∀ relay task, t.manager ≠ .sending relay task) ∨
      ∃ relay task, s.target = some task ∧ t = { s with manager := .sending relay task } := by
  unfold turn at hstep
  split at hstep
  · rename_i relay hmanager
    split at hstep
    · rename_i hleft
      obtain rfl := Option.some.inj hstep
      refine .inl ⟨?_, ?_⟩
      · simp only [target, hmanager, hleft]
      · intro other task
        cases hpolling : relay.polling with
        | false => simp only [resume]; exact fun hsending ↦ nomatch hsending
        | true => simp only [resume]; exact fun hsending ↦ nomatch hsending
    · rename_i addr rest hleft
      split at hstep
      · cases hstep
      rename_i entry hentry
      split at hstep
      · rename_i hskip
        obtain rfl := Option.some.inj hstep
        refine .inl ⟨?_, fun _ _ hsending ↦ nomatch hsending⟩
        simp only [target, hmanager, hleft, hentry, if_pos hskip]
      · rename_i hturn
        obtain rfl := Option.some.inj hstep
        refine .inr ⟨{ relay with left := rest }, entry.task, ?_, rfl⟩
        simp only [target, hmanager, hleft, hentry, if_neg hturn]
  · cases hstep

theorem deadlocked_turn (hstep : s.turn = some t) :
    ¬ t.Deadlocked ↔ s.Unentangled .turn := by
  rcases turn_cases hstep with ⟨htarget, hidle⟩ | ⟨relay, task, htarget, rfl⟩
  · refine iff_of_true (not_deadlocked_of_manager hidle) fun task hsome ↦ ?_
    exact nomatch htarget.symm.trans hsome
  · constructor
    · intro hfree other hother hfull hblocked
      obtain rfl := Option.some.inj (htarget.symm.trans hother)
      exact hfree ⟨relay, task, rfl, hfull, hblocked⟩
    · rintro hfree ⟨other, task', hsending, hfull, hblocked⟩
      obtain ⟨-, rfl⟩ := ManagerPhase.sending.inj hsending
      exact hfree task htarget hfull hblocked

/-- A step ends in a deadlock just if it is one of those that close the circle. -/
theorem deadlocked_step {config : PeerManagerConfig} (s : PeerSystem α) (action : PeerAction α)
    (t : PeerSystem α) (h : ¬ s.Deadlocked) (hstep : step config s action = some t) :
    ¬ t.Deadlocked ↔ s.Unentangled action := by
  cases action with
  | accept addr => exact iff_of_true (not_deadlocked_accept h hstep) trivial
  | register => exact iff_of_true (not_deadlocked_register h hstep) trivial
  | connectSeed addr => exact iff_of_true (not_deadlocked_connectSeed h hstep) trivial
  | complete task => exact deadlocked_complete h hstep
  | announce task items => exact deadlocked_announce h hstep
  | fail task error => exact iff_of_true (not_deadlocked_fail h hstep) trivial
  | deliver index => exact iff_of_true (not_deadlocked_deliver h hstep) trivial
  | takeCommand task => exact iff_of_true (not_deadlocked_takeCommand h hstep) trivial
  | poll => exact iff_of_true (not_deadlocked_poll hstep) trivial
  | takeRegistration => exact iff_of_true (not_deadlocked_takeRegistration hstep) trivial
  | takeEvent order => exact iff_of_true (not_deadlocked_takeEvent hstep) trivial
  | relayInventory origin items order =>
      exact iff_of_true (not_deadlocked_relayInventory hstep) trivial
  | turn => exact deadlocked_turn hstep
  | send => exact iff_of_true (not_deadlocked_send hstep) trivial

end Steps

omit [DecidableEq α] in
/-- A task only waits for a place in the event queue if there is none. -/
theorem Blocked.full {s : PeerSystem α} {task : ℕ} (h : s.Blocked task) : s.events.Full := by
  obtain ⟨event, hmem, -⟩ := h
  exact s.events.full_of_waiting (List.ne_nil_of_mem hmem)

/-- With room left in the queues, no step closes the circle. -/
theorem RoomLeft.unentangled {s : PeerSystem α} (h : s.RoomLeft) (action : PeerAction α) :
    s.Unentangled action := by
  have hsending {relay : InventoryRelay α} {task : ℕ} (hmanager : s.manager = .sending relay task)
      (hchoked : s.Choked task) : ¬ s.events.Full := by
    apply h task _ hchoked
    rw [facing, hmanager]
    rfl
  cases action with
  | turn =>
      intro task htarget hchoked hblocked
      refine h task ?_ hchoked hblocked.full
      cases hmanager : s.manager <;> simp_all [facing, target]
  | complete task => exact fun relay hmanager hchoked ↦ hsending hmanager hchoked
  | announce task items => exact fun relay hmanager hchoked ↦ hsending hmanager hchoked
  | _ => trivial

/-- A run in which the queues leave room is free of deadlocks. -/
theorem never_deadlocked (config : PeerManagerConfig) (actions : List (PeerAction α))
    (h : Along (step config) (fun s _ ↦ s.RoomLeft) (start : PeerSystem α) actions) :
    Throughout (step config) (fun s ↦ ¬ s.Deadlocked) (start : PeerSystem α) actions := by
  have hstart : ¬ (start : PeerSystem α).Deadlocked :=
    not_deadlocked_of_manager (by rintro relay task ⟨⟩)
  rw [throughout_iff_along deadlocked_step hstart]
  exact h.mono fun s action hroom ↦ hroom.unentangled action

omit [DecidableEq α] in
/-- Without room, the announcement of the peer that the manager is sending to is enough. -/
theorem deadlocked_announce_of_full {s t : PeerSystem α} {relay : InventoryRelay α} {task : ℕ}
    {items : List InventoryVector} (hmanager : s.manager = .sending relay task)
    (hchoked : s.Choked task) (hfull : s.events.Full) (hstep : s.announce task items = some t) :
    t.Deadlocked := by
  obtain ⟨u, -, rfl⟩ := Option.map_eq_some_iff.mp hstep
  exact ⟨relay, task, hmanager, hchoked, blocked_emitEvent.mpr (.inr ⟨rfl, hfull⟩)⟩

end PeerSystem

/-! ## A deadlock -/

namespace Sample

open PeerSystem

def newBlock : InventoryVector := ⟨.block, ⟨List.replicate 32 0, rfl⟩⟩

/-- Two peers connect and become ready. -/
def joining : List (PeerAction ℕ) :=
  [.accept 8333, .register, .accept 8334, .register, .poll, .takeRegistration, .takeRegistration,
    .takeRegistration, .complete 0, .deliver 0, .complete 1, .deliver 0, .takeEvent [],
    .takeEvent [], .takeEvent []]

/-- The second peer announces a block, and the manager turns to the first. -/
def announcing : List (PeerAction ℕ) :=
  [.announce 1 [newBlock], .deliver 0, .poll, .takeRegistration, .takeEvent [8333, 8334], .turn]

/-- The first peer takes no commands while 33 blocks are relayed to it and the
second goes on announcing, until one place is left in the event queue. -/
def crowding : List (PeerAction ℕ) :=
  joining ++ (List.replicate 32 (announcing ++ [.send, .turn, .turn, .takeEvent []])).flatten ++
    announcing ++ (List.replicate 255 [.announce 1 [newBlock], .deliver 0]).flatten

/-- The second peer announces once more, and then the first announces a block itself. -/
def entangling : List (PeerAction ℕ) :=
  crowding ++ [.announce 1 [newBlock], .deliver 0, .announce 0 [newBlock]]

theorem crowded_not_deadlocked :
    Throughout (step limits) (fun s ↦ ¬ s.Deadlocked) PeerSystem.start crowding :=
  never_deadlocked limits crowding (by decide +kernel)

theorem entangled_deadlocked :
    ∃ s, execute (step limits) PeerSystem.start entangling = some s ∧ s.Deadlocked ∧
      s.events.messages.length = maxPeerEvents := by
  have hstuck : (execute (step limits) PeerSystem.start entangling).any (fun s ↦
      s.Deadlocked ∧ s.events.messages.length = maxPeerEvents) = true := by
    decide +kernel
  obtain ⟨s, hrun, hs⟩ := (Option.any_eq_true _ _).mp hstuck
  exact ⟨s, hrun, of_decide_eq_true hs⟩

end Sample

end Bitrst
