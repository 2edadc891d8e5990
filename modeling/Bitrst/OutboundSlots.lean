import Bitrst.PeerRegistry

/-!
# The count of outbound peers

The manager keeps the number of its outbound peers beside the table of peers.
The two part when a registration takes the place of an outbound entry: the
entry is gone, its slot is not released, and the event of the connection that
had it finds another entry or none.
-/

namespace Bitrst

open Support

namespace PeerSystem

variable {α : Type} [DecidableEq α]

/-- The entries of the table that take a slot. -/
def outboundEntries (s : PeerSystem α) : ℕ := s.peers.count fun entry ↦ entry.direction = .outbound

/-- The count is the number of outbound entries, within the limit. -/
def SlotsCounted (config : PeerManagerConfig) (s : PeerSystem α) : Prop :=
  s.outboundCount = s.outboundEntries ∧ s.outboundCount ≤ config.maxOutbound

/-- A registration that is not rejected does not take the place of an outbound entry. -/
def KeepsOutbound (config : PeerManagerConfig) (s : PeerSystem α) : PeerAction α → Prop
  | .takeRegistration =>
      s.manager = .registrations → ∀ registration, s.registrations.head? = some registration →
        ¬ (registration.direction = .outbound ∧ config.maxOutbound ≤ s.outboundCount) →
          ∀ entry, s.peers.lookup registration.addr = some entry → entry.direction ≠ .outbound
  | _ => True

/-! ## What a step does to the table and the count -/

/-- Neither the table nor the count changes. -/
def SameSlots (s t : PeerSystem α) : Prop := t.peers = s.peers ∧ t.outboundCount = s.outboundCount

end PeerSystem

/-- The manager's actions; the others are the acceptor's and the tasks'. -/
def PeerAction.byManager {α : Type} : PeerAction α → Bool
  | .connectSeed _ | .poll | .takeRegistration | .takeEvent _ | .relayInventory _ _ _ | .turn
  | .send => true
  | _ => false

namespace PeerSystem

variable {α : Type} [DecidableEq α]

section Steps

variable {config : PeerManagerConfig} {s t : PeerSystem α}

omit [DecidableEq α] in
theorem SameSlots.counted_iff (h : SameSlots s t) :
    t.SlotsCounted config ↔ s.SlotsCounted config := by
  rw [SlotsCounted, SlotsCounted, outboundEntries, outboundEntries, h.1, h.2]

theorem outboundEntries_insert (peers : HashMap α PeerEntry) (addr : α) (entry : PeerEntry) :
    HashMap.count (fun entry : PeerEntry ↦ entry.direction = .outbound) (peers.insert addr entry) =
      HashMap.count (fun entry : PeerEntry ↦ entry.direction = .outbound) (peers.erase addr) +
        if entry.direction = .outbound then 1 else 0 :=
  HashMap.count_insert peers addr entry

/-- What an outbound entry takes away when it is removed or replaced. -/
theorem outboundEntries_erase {peers : HashMap α PeerEntry} {addr : α} {entry : PeerEntry}
    (hentry : peers.lookup addr = some entry) :
    HashMap.count (fun entry : PeerEntry ↦ entry.direction = .outbound) peers =
      HashMap.count (fun entry : PeerEntry ↦ entry.direction = .outbound) (peers.erase addr) +
        if entry.direction = .outbound then 1 else 0 :=
  HashMap.count_erase_of_lookup hentry

theorem connectSeed_counted {addr : α} (h : s.SlotsCounted config)
    (hstep : s.connectSeed config addr = some t) : t.SlotsCounted config := by
  unfold connectSeed at hstep
  split at hstep
  · split at hstep
    · obtain rfl := Option.some.inj hstep
      exact h
    split at hstep
    · obtain rfl := Option.some.inj hstep
      exact h
    rename_i hbelow hnew
    obtain rfl := Option.some.inj hstep
    obtain ⟨hcount, hlimit⟩ := h
    refine ⟨?_, Nat.not_le.mp hbelow⟩
    have hinsert := outboundEntries_insert s.peers addr ⟨s.tasks.length, .outbound, .handshaking⟩
    have herase := HashMap.count_erase_of_lookup_none
      (p := fun entry : PeerEntry ↦ entry.direction = .outbound) (Finmap.lookup_eq_none.mpr hnew)
    rw [herase, if_pos rfl] at hinsert
    exact (congrArg (· + 1) hcount).trans hinsert.symm
  · cases hstep

/-- A registration is counted exactly when it leaves the outbound entries alone. -/
theorem processRegistration_counted {registration : PeerRegistration α}
    (h : s.SlotsCounted config) :
    (s.processRegistration config registration).SlotsCounted config ↔
      (¬ (registration.direction = .outbound ∧ config.maxOutbound ≤ s.outboundCount) →
        ∀ entry, s.peers.lookup registration.addr = some entry → entry.direction ≠ .outbound) := by
  unfold processRegistration
  split
  · rename_i hrejected
    have hsame : SameSlots s { s.abort registration.task with
        events := (s.abort registration.task).events.trySend
          (registration.task, .registrationRejected registration.addr .connectionLimitReached) } :=
      ⟨rfl, rfl⟩
    exact iff_of_true (hsame.counted_iff.mpr h) fun haccepted ↦ (haccepted hrejected).elim
  · rename_i haccepted
    obtain ⟨hcount, hlimit⟩ := h
    have hinsert := outboundEntries_insert s.peers registration.addr
      ⟨registration.task, registration.direction, .handshaking⟩
    -- The slot of the registration is counted, so what it replaces decides.
    have hiff : SlotsCounted config { s with
        outboundCount :=
          if registration.direction = .outbound then s.outboundCount + 1 else s.outboundCount
        peers := s.peers.insert registration.addr
          ⟨registration.task, registration.direction, .handshaking⟩ } ↔
        s.outboundCount = HashMap.count (fun entry : PeerEntry ↦ entry.direction = .outbound)
          (s.peers.erase registration.addr) := by
      simp only [SlotsCounted, outboundEntries, hinsert]
      split
      · rename_i hdirection
        have hbelow := Nat.not_le.mp fun hfull ↦ haccepted ⟨hdirection, hfull⟩
        omega
      · omega
    rw [hiff, imp_iff_right haccepted, hcount, outboundEntries]
    cases hold : s.peers.lookup registration.addr with
    | none =>
        apply iff_of_true (HashMap.count_erase_of_lookup_none hold).symm
        rintro entry ⟨⟩
    | some entry =>
        have herase := outboundEntries_erase hold
        simp only [Option.some.injEq, forall_eq']
        split at herase
        · rename_i hdirection
          exact iff_of_false (by omega) fun hne ↦ hne hdirection
        · rename_i hdirection
          exact iff_of_true herase hdirection

/-- A disconnected event releases the slot of the entry that it removes. -/
theorem disconnected_counted {addr : α} {entry : PeerEntry} (h : s.SlotsCounted config)
    (hentry : s.peers.lookup addr = some entry) :
    SlotsCounted config { s with
      peers := s.peers.erase addr
      outboundCount :=
        if entry.direction = .outbound then s.outboundCount - 1 else s.outboundCount } := by
  obtain ⟨hcount, hlimit⟩ := h
  have herase := outboundEntries_erase hentry
  simp only [SlotsCounted, outboundEntries] at hcount ⊢
  rw [← hcount] at herase
  split at herase
  · rename_i hdirection
    rw [if_pos hdirection]
    omega
  · rename_i hdirection
    rw [if_neg hdirection]
    omega

/-- A ready event leaves the direction of an entry alone. -/
theorem ready_counted {addr : α} {entry : PeerEntry} (h : s.SlotsCounted config)
    (hentry : s.peers.lookup addr = some entry) :
    SlotsCounted config { s with peers := s.peers.insert addr { entry with state := .ready } } := by
  obtain ⟨hcount, hlimit⟩ := h
  refine ⟨hcount.trans ?_, hlimit⟩
  have herase := outboundEntries_erase hentry
  have hinsert := outboundEntries_insert s.peers addr { entry with state := .ready }
  exact herase.trans hinsert.symm

theorem takeRegistration_counted (h : s.SlotsCounted config)
    (hstep : s.takeRegistration config = some t) :
    t.SlotsCounted config ↔ s.KeepsOutbound config .takeRegistration := by
  unfold takeRegistration at hstep
  split at hstep
  · rename_i hmanager
    split at hstep
    · rename_i hnone
      obtain rfl := Option.some.inj hstep
      refine iff_of_true h fun _ registration hhead ↦ ?_
      rw [hnone] at hhead
      cases hhead
    · rename_i registration rest hregistrations
      obtain rfl := Option.some.inj hstep
      have hrest : SlotsCounted config { s with registrations := rest } := h
      rw [processRegistration_counted hrest, KeepsOutbound, hregistrations, imp_iff_right hmanager]
      simp only [List.head?_cons, Option.some.injEq, forall_eq']
  · cases hstep

theorem takeEvent_counted {order : List α} (h : s.SlotsCounted config)
    (hstep : s.takeEvent order = some t) : t.SlotsCounted config := by
  unfold takeEvent at hstep
  split at hstep
  · split at hstep
    · obtain rfl := Option.some.inj hstep
      exact h
    rename_i task event events _
    have hnext : SlotsCounted config { s with events := events } := h
    unfold handleEvent at hstep
    cases event with
    | announce addr items =>
        simp only [startRelay] at hstep
        split at hstep
        · obtain rfl := Option.some.inj hstep
          exact h
        split at hstep
        · obtain rfl := Option.some.inj hstep
          exact h
        · cases hstep
    | registrationRejected addr error =>
        obtain rfl := Option.some.inj hstep
        exact h
    | ready addr =>
        simp only at hstep
        split at hstep
        · obtain rfl := Option.some.inj hstep
          exact h
        · rename_i entry hentry
          obtain rfl := Option.some.inj hstep
          exact ready_counted hnext hentry
    | disconnected addr error =>
        simp only at hstep
        split at hstep
        · obtain rfl := Option.some.inj hstep
          exact h
        · rename_i entry hentry
          obtain rfl := Option.some.inj hstep
          exact disconnected_counted hnext hentry
  · cases hstep

/-- What the acceptor and the tasks do leaves the table, the count and the manager alone. -/
theorem sameManager_step {action : PeerAction α} (hstep : step config s action = some t)
    (haction : action.byManager = false) : SameSlots s t ∧ t.manager = s.manager := by
  cases action with
  | accept addr =>
      simp only [step, accept] at hstep
      split at hstep
      · cases hstep
      split at hstep
      · obtain rfl := Option.some.inj hstep
        exact ⟨⟨rfl, rfl⟩, rfl⟩
      · obtain rfl := Option.some.inj hstep
        exact ⟨⟨rfl, rfl⟩, rfl⟩
  | register =>
      simp only [step, register] at hstep
      split at hstep
      · cases hstep
      split at hstep
      · obtain rfl := Option.some.inj hstep
        exact ⟨⟨rfl, rfl⟩, rfl⟩
      · cases hstep
  | complete task =>
      obtain ⟨_, -, rfl⟩ := Option.map_eq_some_iff.mp hstep
      exact ⟨⟨rfl, rfl⟩, rfl⟩
  | announce task items =>
      obtain ⟨_, -, rfl⟩ := Option.map_eq_some_iff.mp hstep
      exact ⟨⟨rfl, rfl⟩, rfl⟩
  | fail task error =>
      obtain ⟨_, -, rfl⟩ := Option.map_eq_some_iff.mp hstep
      exact ⟨⟨rfl, rfl⟩, rfl⟩
  | deliver index =>
      obtain ⟨_, -, rfl⟩ := Option.map_eq_some_iff.mp hstep
      exact ⟨⟨rfl, rfl⟩, rfl⟩
  | takeCommand task =>
      simp only [step, takeCommand] at hstep
      split at hstep
      · cases hstep
      split at hstep
      · obtain rfl := Option.some.inj hstep
        exact ⟨⟨rfl, rfl⟩, rfl⟩
      · obtain rfl := Option.some.inj hstep
        exact ⟨⟨rfl, rfl⟩, rfl⟩
      · split at hstep
        · cases hstep
        · obtain rfl := Option.some.inj hstep
          exact ⟨⟨rfl, rfl⟩, rfl⟩
  | _ => cases haction

/-- Polls and relays leave the table and the count alone. -/
theorem sameSlots_step {action : PeerAction α} (hstep : step config s action = some t)
    (haction : action = .poll ∨ action = .turn ∨ action = .send ∨
      ∃ origin items order, action = .relayInventory origin items order) : SameSlots s t := by
  rcases haction with rfl | rfl | rfl | ⟨origin, items, order, rfl⟩
  · simp only [step, poll] at hstep
    split at hstep
    · obtain rfl := Option.some.inj hstep
      exact ⟨rfl, rfl⟩
    · cases hstep
  · simp only [step, turn] at hstep
    split at hstep
    · split at hstep
      · obtain rfl := Option.some.inj hstep
        exact ⟨rfl, rfl⟩
      split at hstep
      · cases hstep
      split at hstep
      · obtain rfl := Option.some.inj hstep
        exact ⟨rfl, rfl⟩
      · obtain rfl := Option.some.inj hstep
        exact ⟨rfl, rfl⟩
    · cases hstep
  · simp only [step, send] at hstep
    split at hstep
    · split at hstep
      · cases hstep
      split at hstep
      · obtain rfl := Option.some.inj hstep
        exact ⟨rfl, rfl⟩
      split at hstep
      · obtain rfl := Option.some.inj hstep
        exact ⟨rfl, rfl⟩
      · cases hstep
    · cases hstep
  · simp only [step, relayInventory, startRelay] at hstep
    split at hstep
    · split at hstep
      · obtain rfl := Option.some.inj hstep
        exact ⟨rfl, rfl⟩
      split at hstep
      · obtain rfl := Option.some.inj hstep
        exact ⟨rfl, rfl⟩
      · cases hstep
    · cases hstep

/-- A step keeps the count exactly when it leaves the outbound entries to their connections. -/
theorem slotsCounted_step (s : PeerSystem α) (action : PeerAction α) (t : PeerSystem α)
    (h : s.SlotsCounted config) (hstep : step config s action = some t) :
    t.SlotsCounted config ↔ s.KeepsOutbound config action := by
  cases action with
  | connectSeed addr => exact iff_of_true (connectSeed_counted h hstep) trivial
  | takeRegistration => exact takeRegistration_counted h hstep
  | takeEvent order => exact iff_of_true (takeEvent_counted h hstep) trivial
  | poll | turn | send | relayInventory _ _ _ =>
      have hsame := sameSlots_step hstep (by simp)
      exact iff_of_true (hsame.counted_iff.mpr h) trivial
  | _ =>
      have hsame := (sameManager_step hstep rfl).1
      exact iff_of_true (hsame.counted_iff.mpr h) trivial

end Steps

/-- The count is right in every state of a run exactly when no registration takes the place of
an outbound entry in it. -/
theorem slotsCounted_iff (config : PeerManagerConfig) (actions : List (PeerAction α)) :
    Throughout (step config) (SlotsCounted config) (start : PeerSystem α) actions ↔
      Along (step config) (KeepsOutbound config) (start : PeerSystem α) actions :=
  throughout_iff_along slotsCounted_step ⟨rfl, Nat.zero_le _⟩ actions

end PeerSystem

/-! ## An address used twice -/

namespace Sample

open PeerSystem

/-- A seed is connected to, and a connection comes in from its address. -/
def colliding : List (PeerAction ℕ) :=
  [.connectSeed 8333, .accept 8333, .register, .poll, .takeRegistration]

/-- The entry of the seed is gone, and its slot still counts. -/
theorem collided_not_counted :
    ¬ ∀ (config : PeerManagerConfig) (actions : List (PeerAction ℕ)) (s : PeerSystem ℕ),
      execute (step config) PeerSystem.start actions = some s →
        s.outboundCount = s.outboundEntries ∧ s.outboundCount ≤ config.maxOutbound := by
  intro h
  have hcount : (execute (step limits) PeerSystem.start colliding).any (fun s ↦
      s.outboundCount = 1 ∧ s.outboundEntries = 0) = true := by decide +kernel
  obtain ⟨s, hrun, hs⟩ := (Option.any_eq_true _ _).mp hcount
  obtain ⟨hone, hzero⟩ := of_decide_eq_true hs
  have hequal := (h limits colliding s hrun).1
  rw [hone, hzero] at hequal
  cases hequal

end Sample

end Bitrst
