import Bitrst.PeerQueues

/-!
# What it takes to fill the queues

A command queue holds what the manager has sent, and the event queue what the
tasks have emitted.  A run with too few commands or too few events to fill a
queue leaves room in it all the time.
-/

namespace Bitrst

open Support

/-- The action queues a command. -/
def PeerAction.sends {α : Type} : PeerAction α → Bool
  | .send => true
  | _ => false

/-- The action emits an event. -/
def PeerAction.emits {α : Type} : PeerAction α → Bool
  | .complete _ | .announce _ _ | .fail _ _ => true
  | _ => false

namespace PeerSystem

variable {α : Type} [DecidableEq α]

/-- No command queue holds more than `sent` commands, and the event queue with
those who wait for it no more than `emitted` events.  The acceptor registers
inbound connections, which the manager does not refuse by an event. -/
structure Within (sent emitted : ℕ) (s : PeerSystem α) : Prop where
  commands : ∀ (task : ℕ) (t : PeerTask α), s.tasks[task]? = some t → t.commands.length ≤ sent
  events : s.events.contents.length ≤ emitted
  inbound : ∀ registration ∈ s.pending, registration.direction = .inbound

section Load

variable {config : PeerManagerConfig} {s t : PeerSystem α} {sent emitted : ℕ}

omit [DecidableEq α] in
theorem within_start : (start : PeerSystem α).Within 0 0 where
  commands := fun _ _ h ↦ nomatch h
  events := by
    rw [show (start : PeerSystem α).events = .empty from rfl, BoundedChannel.contents_empty]
    exact le_rfl
  inbound := fun _ h ↦ nomatch h

omit [DecidableEq α] in
theorem Within.of_modify (h : s.Within sent emitted) {changed : ℕ} {f : PeerTask α → PeerTask α}
    {sent' emitted' : ℕ} (hle : sent ≤ sent') (htasks : t.tasks = s.tasks.modify changed f)
    (hf : ∀ old, s.tasks[changed]? = some old → (f old).commands.length ≤ sent')
    (hevents : t.events.contents.length ≤ emitted') (hpending : t.pending = s.pending) :
    t.Within sent' emitted' := by
  refine ⟨?_, hevents, hpending ▸ h.inbound⟩
  intro task u hu
  rw [htasks] at hu
  obtain ⟨old, hold, rfl | ⟨rfl, rfl⟩⟩ := commands_modify hu
  · exact (h.commands task u hold).trans hle
  · exact hf old hold

omit [DecidableEq α] in
theorem Within.of_same (h : s.Within sent emitted) (htasks : t.tasks = s.tasks)
    (hevents : t.events = s.events) (hpending : t.pending = s.pending) :
    t.Within sent emitted := by
  refine ⟨?_, ?_, ?_⟩
  · rw [htasks]
    exact h.commands
  · rw [hevents]
    exact h.events
  · rw [hpending]
    exact h.inbound

omit [DecidableEq α] in
theorem commands_spawnPeer (h : s.Within sent emitted) {addr : α}
    {direction : ConnectionDirection} {task : ℕ} {u : PeerTask α}
    (hu : (s.spawnPeer addr direction).tasks[task]? = some u) : u.commands.length ≤ sent := by
  rcases List.mem_append.mp (List.mem_of_getElem? hu) with hold | hnew
  · obtain ⟨index, hindex⟩ := List.mem_iff_getElem?.mp hold
    exact h.commands index u hindex
  · rw [List.mem_singleton.mp hnew]
    exact Nat.zero_le _

omit [DecidableEq α] in
theorem Within.phase (h : s.Within sent emitted) (task : ℕ) (phase : PeerPhase) :
    (s.setPhase task phase).Within sent emitted :=
  h.of_modify le_rfl rfl (fun old hold ↦ h.commands task old hold) h.events rfl

omit [DecidableEq α] in
theorem Within.emit (h : s.Within sent emitted) (task : ℕ) (event : PeerEvent α) :
    (s.emitEvent task event).Within sent (emitted + 1) := by
  refine ⟨h.commands, ?_, h.inbound⟩
  rw [emitEvent, BoundedChannel.contents_request, List.length_append]
  exact Nat.succ_le_succ h.events

omit [DecidableEq α] in
theorem within_accept {addr : α} (h : s.Within sent emitted)
    (hstep : s.accept config addr = some t) : t.Within sent emitted := by
  unfold accept at hstep
  split at hstep
  · cases hstep
  split at hstep
  · obtain rfl := Option.some.inj hstep
    refine ⟨fun _ _ ↦ commands_spawnPeer h, h.events, ?_⟩
    intro registration hmem
    rcases List.mem_append.mp hmem with hold | hnew
    · exact h.inbound registration (List.mem_append_left _ hold)
    · rw [List.mem_singleton.mp hnew]
  · obtain rfl := Option.some.inj hstep
    exact h

omit [DecidableEq α] in
theorem within_register (h : s.Within sent emitted) (hstep : s.register = some t) :
    t.Within sent emitted := by
  unfold register at hstep
  split at hstep
  · cases hstep
  rename_i registration haccepting
  split at hstep
  · obtain rfl := Option.some.inj hstep
    refine h.of_same rfl rfl ?_
    simp [pending, haccepting]
  · cases hstep

theorem within_connectSeed {addr : α} (h : s.Within sent emitted)
    (hstep : s.connectSeed config addr = some t) : t.Within sent emitted := by
  unfold connectSeed at hstep
  split at hstep
  · split at hstep
    · obtain rfl := Option.some.inj hstep
      exact h
    split at hstep
    · obtain rfl := Option.some.inj hstep
      exact h
    · obtain rfl := Option.some.inj hstep
      exact ⟨fun _ _ ↦ commands_spawnPeer h, h.events, h.inbound⟩
  · cases hstep

omit [DecidableEq α] in
theorem within_takeCommand {task : ℕ} (h : s.Within sent emitted)
    (hstep : s.takeCommand task = some t) : t.Within sent emitted := by
  unfold takeCommand at hstep
  split at hstep
  · cases hstep
  rename_i u hrunning
  obtain ⟨-, hu, -⟩ := running_eq_some hrunning
  split at hstep
  · rename_i message rest hcommands
    obtain rfl := Option.some.inj hstep
    have hlength := h.commands task u hu
    rw [hcommands, List.length_cons] at hlength
    exact h.of_modify le_rfl rfl (fun _ _ ↦ (Nat.le_succ _).trans hlength) h.events rfl
  · obtain rfl := Option.some.inj hstep
    exact h.phase task .ended
  · split at hstep
    · cases hstep
    · obtain rfl := Option.some.inj hstep
      exact h.phase task .ended

theorem within_takeRegistration (h : s.Within sent emitted)
    (hstep : s.takeRegistration config = some t) : t.Within sent emitted := by
  unfold takeRegistration at hstep
  split at hstep
  · split at hstep
    · obtain rfl := Option.some.inj hstep
      exact h.of_same rfl rfl rfl
    · rename_i registration rest hregistrations
      obtain rfl := Option.some.inj hstep
      have hpending : s.pending = registration :: (rest ++ s.accepting.toList) := by
        rw [pending, hregistrations, List.cons_append]
      have hinbound := h.inbound registration (hpending ▸ List.mem_cons_self)
      rw [processRegistration, if_neg (by simp [hinbound])]
      exact ⟨h.commands, h.events,
        fun other hmem ↦ h.inbound other (hpending ▸ List.mem_cons_of_mem _ hmem)⟩
  · cases hstep

theorem within_startRelay {polling : Bool} {origin : Option α} {items : List InventoryVector}
    {order : List α} (h : s.Within sent emitted)
    (hstep : s.startRelay polling origin items order = some t) : t.Within sent emitted := by
  unfold startRelay at hstep
  split at hstep
  · obtain rfl := Option.some.inj hstep
    exact h.of_same rfl rfl rfl
  split at hstep
  · obtain rfl := Option.some.inj hstep
    exact h.of_same rfl rfl rfl
  · cases hstep

theorem within_takeEvent {order : List α} (h : s.Within sent emitted)
    (hstep : s.takeEvent order = some t) : t.Within sent emitted := by
  unfold takeEvent at hstep
  split at hstep
  · split at hstep
    · obtain rfl := Option.some.inj hstep
      exact h.of_same rfl rfl rfl
    · rename_i task event events hreceive
      have hlength := h.events
      rw [BoundedChannel.contents_receive hreceive, List.length_cons] at hlength
      have hnext : ({ s with events := events } : PeerSystem α).Within sent emitted :=
        ⟨h.commands, (Nat.le_succ _).trans hlength, h.inbound⟩
      cases event with
      | announce addr items => exact within_startRelay hnext hstep
      | ready addr =>
          rw [handleEvent] at hstep
          split at hstep
          · obtain rfl := Option.some.inj hstep
            exact hnext
          · obtain rfl := Option.some.inj hstep
            exact hnext.of_same rfl rfl rfl
      | disconnected addr error =>
          rw [handleEvent] at hstep
          split at hstep
          · obtain rfl := Option.some.inj hstep
            exact hnext
          · obtain rfl := Option.some.inj hstep
            exact hnext.of_same rfl rfl rfl
      | registrationRejected addr error =>
          obtain rfl := Option.some.inj hstep
          exact hnext
  · cases hstep

theorem within_turn (h : s.Within sent emitted) (hstep : s.turn = some t) :
    t.Within sent emitted := by
  unfold turn at hstep
  split at hstep
  · split at hstep
    · obtain rfl := Option.some.inj hstep
      exact h.of_same rfl rfl rfl
    split at hstep
    · cases hstep
    split at hstep
    · obtain rfl := Option.some.inj hstep
      exact h.of_same rfl rfl rfl
    · obtain rfl := Option.some.inj hstep
      exact h.of_same rfl rfl rfl
  · cases hstep

omit [DecidableEq α] in
theorem within_send (h : s.Within sent emitted) (hstep : s.send = some t) :
    t.Within (sent + 1) emitted := by
  have hmore : s.Within (sent + 1) emitted :=
    ⟨fun task u hu ↦ (h.commands task u hu).trans (Nat.le_succ _), h.events, h.inbound⟩
  unfold send at hstep
  split at hstep
  · rename_i relay task hmanager
    split at hstep
    · cases hstep
    rename_i u hu
    split at hstep
    · obtain rfl := Option.some.inj hstep
      exact hmore.of_same rfl rfl rfl
    split at hstep
    · obtain rfl := Option.some.inj hstep
      refine hmore.of_modify le_rfl rfl (fun _ _ ↦ ?_) h.events rfl
      rw [List.length_append]
      exact Nat.succ_le_succ (h.commands task u hu)
    · cases hstep
  · cases hstep

/-- A command queue grows by a command that is sent, and the event queue by an event that is
emitted. -/
theorem within_step (action : PeerAction α) (h : s.Within sent emitted)
    (hstep : step config s action = some t) :
    t.Within (sent + action.sends.toNat) (emitted + action.emits.toNat) := by
  cases action with
  | accept addr => exact within_accept h hstep
  | register => exact within_register h hstep
  | connectSeed addr => exact within_connectSeed h hstep
  | complete task =>
      obtain ⟨u, -, rfl⟩ := Option.map_eq_some_iff.mp hstep
      exact (h.phase task .established).emit task _
  | announce task items =>
      obtain ⟨u, -, rfl⟩ := Option.map_eq_some_iff.mp hstep
      exact h.emit task _
  | fail task error =>
      obtain ⟨u, -, rfl⟩ := Option.map_eq_some_iff.mp hstep
      exact (h.phase task .ended).emit task _
  | deliver index =>
      obtain ⟨events, hevents, rfl⟩ := Option.map_eq_some_iff.mp hstep
      have hlength := (BoundedChannel.contents_deliver hevents).length_eq
      exact ⟨h.commands, hlength.trans_le h.events, h.inbound⟩
  | takeCommand task => exact within_takeCommand h hstep
  | poll =>
      simp only [step, poll] at hstep
      split at hstep
      · obtain rfl := Option.some.inj hstep
        exact h.of_same rfl rfl rfl
      · cases hstep
  | takeRegistration => exact within_takeRegistration h hstep
  | takeEvent order => exact within_takeEvent h hstep
  | relayInventory origin items order =>
      simp only [step, relayInventory] at hstep
      split at hstep
      · exact within_startRelay h hstep
      · cases hstep
  | turn => exact within_turn h hstep
  | send => exact within_send h hstep

end Load

/-- A command queue is not full before 32 commands have been sent. -/
theorem roomLeft_of_few_sends (config : PeerManagerConfig) {actions : List (PeerAction α)}
    (hfew : actions.countP PeerAction.sends < maxPeerCommands) :
    Along (step config) (fun s _ ↦ s.RoomLeft) (start : PeerSystem α) actions := by
  refine along_of_countP (fun sent s ↦ ∃ emitted, s.Within sent emitted) ?_ ?_
    ⟨0, within_start⟩ ((Nat.zero_add _).trans_lt hfew)
  · rintro sent s action t ⟨emitted, h⟩ hstep
    exact ⟨_, within_step action h hstep⟩
  · rintro sent s action ⟨emitted, h⟩ hlt task - ⟨u, hu, -, hfull⟩
    exact absurd (hfull.trans (h.commands task u hu)) (Nat.not_le.mpr hlt)

/-- The event queue is not full before 256 events have been emitted. -/
theorem roomLeft_of_few_events (config : PeerManagerConfig) {actions : List (PeerAction α)}
    (hfew : actions.countP PeerAction.emits < maxPeerEvents) :
    Along (step config) (fun s _ ↦ s.RoomLeft) (start : PeerSystem α) actions := by
  refine along_of_countP (fun emitted s ↦ ∃ sent, s.Within sent emitted) ?_ ?_
    ⟨0, within_start⟩ ((Nat.zero_add _).trans_lt hfew)
  · rintro emitted s action t ⟨sent, h⟩ hstep
    exact ⟨_, within_step action h hstep⟩
  · rintro emitted s action ⟨sent, h⟩ hlt task - - hfull
    have hlength := h.events
    rw [BoundedChannel.contents, List.length_append, List.length_append] at hlength
    rw [BoundedChannel.Full] at hfull
    omega

end PeerSystem

end Bitrst
