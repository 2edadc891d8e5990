import Bitrst.PeerManager
import Bitrst.Support.Transition
import Mathlib.Logic.Function.Basic

/-!
# The table of peers

Registrations and events of one peer reach the manager through two queues and
name the peer by its address alone.  The table follows the connections as long
as no event meets an entry that is not its sender's, and no registration the
entry of another connection.
-/

namespace Bitrst

open Support

/-- What the table of peers is about. -/
structure TaskStatus (α : Type) where
  addr : α
  direction : ConnectionDirection
  phase : PeerPhase

namespace PeerSystem

variable {α : Type} [DecidableEq α]

def status (s : PeerSystem α) (task : ℕ) : Option (TaskStatus α) :=
  s.tasks[task]?.map fun t ↦ ⟨t.addr, t.direction, t.phase⟩

/-- Nothing is in either queue or on its way into it. -/
structure Drained (s : PeerSystem α) : Prop where
  registrations : s.pending = []
  events : s.events.contents = []

/-- The table has one entry for each inbound connection that has not
disconnected, which is ready just if the handshake is over, and no other entry
of an inbound connection. -/
structure Tracks (s : PeerSystem α) : Prop where
  entered : ∀ task t, s.tasks[task]? = some t → t.direction = .inbound → t.phase ≠ .ended →
    ∃ entry, s.peers.lookup t.addr = some entry ∧ entry.task = task ∧
      (entry.state = .ready ↔ t.phase = .established) ∧
        ∀ addr other, s.peers.lookup addr = some other → other.task = task → addr = t.addr
  live : ∀ addr entry, s.peers.lookup addr = some entry → entry.direction = .inbound →
    ∃ t, s.tasks[entry.task]? = some t ∧ t.addr = addr ∧ t.direction = .inbound ∧ t.phase ≠ .ended

/-- The event at the head of the queue finds the entry of its sender. -/
def Owned (s : PeerSystem α) : Prop :=
  ∀ task event, s.events.messages.head? = some (task, event) →
    match event with
    | .ready addr | .disconnected addr _ =>
        ∃ entry, s.peers.lookup addr = some entry ∧ entry.task = task
    | _ => True

/-- The manager handles an event only when the entry at its address is the
sender's, and a registration only when there is none at its address. -/
def Orderly (s : PeerSystem α) : PeerAction α → Prop
  | .takeRegistration =>
      s.manager = .registrations → ∀ registration, s.registrations.head? = some registration →
        s.peers.lookup registration.addr = none
  | .takeEvent _ => s.manager = .events → s.Owned
  | _ => True

/-! ## What the queues and the table have in common -/

/-- The entries, the registrations and the events under way agree with the tasks. -/
structure Registered (status : ℕ → Option (TaskStatus α)) (pending : List (PeerRegistration α))
    (peers : HashMap α PeerEntry) (events : List (ℕ × PeerEvent α)) : Prop where
  pending_inbound : ∀ registration ∈ pending, registration.direction = .inbound
  pending_status : ∀ registration ∈ pending, ∃ phase,
    status registration.task = some ⟨registration.addr, registration.direction, phase⟩
  pending_nodup : (pending.map PeerRegistration.task).Nodup
  entry_status : ∀ addr entry, peers.lookup addr = some entry →
    ∃ phase, status entry.task = some ⟨addr, entry.direction, phase⟩
  entry_not_pending : ∀ addr entry, peers.lookup addr = some entry →
    ∀ registration ∈ pending, registration.task ≠ entry.task
  known : ∀ task addr phase, status task = some ⟨addr, .inbound, phase⟩ → phase ≠ .ended →
    (∃ registration ∈ pending, registration.task = task) ∨
      ∃ entry, peers.lookup addr = some entry ∧ entry.task = task
  ready_sent : ∀ task addr direction, status task = some ⟨addr, direction, .established⟩ →
    (task, .ready addr) ∈ events ∨
      ∃ entry, peers.lookup addr = some entry ∧ entry.task = task ∧ entry.state = .ready
  entry_ready : ∀ addr entry, peers.lookup addr = some entry → entry.state = .ready →
    ∀ direction, status entry.task ≠ some ⟨addr, direction, .handshaking⟩
  ended_sent : ∀ task addr direction, status task = some ⟨addr, direction, .ended⟩ →
    ((∃ registration ∈ pending, registration.task = task) ∨
      ∃ entry, peers.lookup addr = some entry ∧ entry.task = task) →
    ∃ error, (task, .disconnected addr error) ∈ events
  ready_status : ∀ task addr, (task, .ready addr) ∈ events →
    ∃ direction phase, status task = some ⟨addr, direction, phase⟩ ∧ phase ≠ .handshaking
  disconnected_status : ∀ task addr error, (task, .disconnected addr error) ∈ events →
    ∃ direction, status task = some ⟨addr, direction, .ended⟩

namespace Registered

variable {status : ℕ → Option (TaskStatus α)} {pending : List (PeerRegistration α)}
  {peers : HashMap α PeerEntry} {events : List (ℕ × PeerEvent α)}

/-- Only ready and disconnected events count. -/
theorem of_events (h : Registered status pending peers events)
    {events' : List (ℕ × PeerEvent α)}
    (hready : ∀ task addr, (task, .ready addr) ∈ events' ↔ (task, .ready addr) ∈ events)
    (hdisconnected : ∀ task addr error,
      (task, .disconnected addr error) ∈ events' ↔ (task, .disconnected addr error) ∈ events) :
    Registered status pending peers events' where
  pending_inbound := h.pending_inbound
  pending_status := h.pending_status
  pending_nodup := h.pending_nodup
  entry_status := h.entry_status
  entry_not_pending := h.entry_not_pending
  known := h.known
  ready_sent task addr direction hstatus := by
    rw [hready]
    exact h.ready_sent task addr direction hstatus
  entry_ready := h.entry_ready
  ended_sent task addr direction hstatus hheld := by
    obtain ⟨error, hmem⟩ := h.ended_sent task addr direction hstatus hheld
    exact ⟨error, (hdisconnected task addr error).mpr hmem⟩
  ready_status task addr hmem := h.ready_status task addr ((hready task addr).mp hmem)
  disconnected_status task addr error hmem :=
    h.disconnected_status task addr error ((hdisconnected task addr error).mp hmem)

/-- A connection is accepted under a new number. -/
theorem accept (h : Registered status pending peers events) {fresh : ℕ}
    (hfresh : status fresh = none) (addr : α) :
    Registered (Function.update status fresh (some ⟨addr, .inbound, .handshaking⟩))
      (pending ++ [⟨addr, .inbound, fresh⟩]) peers events := by
  have hold : ∀ {task : ℕ} {t : TaskStatus α}, status task = some t → task ≠ fresh := by
    rintro task t htask rfl
    rw [hfresh] at htask
    cases htask
  have hkeep : ∀ {task : ℕ} {t : TaskStatus α}, status task = some t →
      Function.update status fresh (some ⟨addr, .inbound, .handshaking⟩) task = some t := by
    intro task t htask
    rw [Function.update_of_ne (hold htask), htask]
  refine ⟨?_, ?_, ?_, ?_, ?_, ?_, ?_, ?_, ?_, ?_, ?_⟩
  · intro registration hmem
    rcases List.mem_append.mp hmem with hmem | hmem
    · exact h.pending_inbound registration hmem
    · rw [List.mem_singleton.mp hmem]
  · intro registration hmem
    rcases List.mem_append.mp hmem with hmem | hmem
    · obtain ⟨phase, hphase⟩ := h.pending_status registration hmem
      exact ⟨phase, hkeep hphase⟩
    · rw [List.mem_singleton.mp hmem]
      exact ⟨.handshaking, Function.update_self _ _ _⟩
  · rw [List.map_append, List.map_singleton]
    refine List.nodup_append'.mpr ⟨h.pending_nodup, List.nodup_singleton _, ?_⟩
    apply List.disjoint_singleton.mpr
    intro hmem
    obtain ⟨registration, hmem, htask⟩ := List.mem_map.mp hmem
    obtain ⟨phase, hphase⟩ := h.pending_status registration hmem
    exact hold hphase htask
  · intro addr' entry hentry
    obtain ⟨phase, hphase⟩ := h.entry_status addr' entry hentry
    exact ⟨phase, hkeep hphase⟩
  · intro addr' entry hentry registration hmem
    rcases List.mem_append.mp hmem with hmem | hmem
    · exact h.entry_not_pending addr' entry hentry registration hmem
    · obtain ⟨phase, hphase⟩ := h.entry_status addr' entry hentry
      rw [List.mem_singleton.mp hmem]
      exact (hold hphase).symm
  · intro task addr' phase htask hphase
    by_cases hnew : task = fresh
    · exact .inl ⟨_, List.mem_append_right _ (List.mem_singleton_self _), hnew.symm⟩
    · rw [Function.update_of_ne hnew] at htask
      rcases h.known task addr' phase htask hphase with ⟨registration, hmem, heq⟩ | hentry
      · exact .inl ⟨registration, List.mem_append_left _ hmem, heq⟩
      · exact .inr hentry
  · intro task addr' direction htask
    by_cases hnew : task = fresh
    · rw [hnew, Function.update_self] at htask
      cases htask
    · rw [Function.update_of_ne hnew] at htask
      exact h.ready_sent task addr' direction htask
  · intro addr' entry hentry hready direction
    obtain ⟨phase, hphase⟩ := h.entry_status addr' entry hentry
    rw [Function.update_of_ne (hold hphase)]
    exact h.entry_ready addr' entry hentry hready direction
  · intro task addr' direction htask hheld
    by_cases hnew : task = fresh
    · rw [hnew, Function.update_self] at htask
      cases htask
    · rw [Function.update_of_ne hnew] at htask
      apply h.ended_sent task addr' direction htask
      rcases hheld with ⟨registration, hmem, heq⟩ | hentry
      · rcases List.mem_append.mp hmem with hmem | hmem
        · exact .inl ⟨registration, hmem, heq⟩
        · rw [List.mem_singleton.mp hmem] at heq
          exact (hnew heq.symm).elim
      · exact .inr hentry
  · intro task addr' hmem
    obtain ⟨direction, phase, htask, hphase⟩ := h.ready_status task addr' hmem
    exact ⟨direction, phase, hkeep htask, hphase⟩
  · intro task addr' error hmem
    obtain ⟨direction, htask⟩ := h.disconnected_status task addr' error hmem
    exact ⟨direction, hkeep htask⟩

/-- A connection is made under a new number and entered at once. -/
theorem connect (h : Registered status pending peers events) {fresh : ℕ}
    (hfresh : status fresh = none) {addr : α} (habsent : peers.lookup addr = none) :
    Registered (Function.update status fresh (some ⟨addr, .outbound, .handshaking⟩)) pending
      (peers.insert addr ⟨fresh, .outbound, .handshaking⟩) events := by
  have hold : ∀ {task : ℕ} {t : TaskStatus α}, status task = some t → task ≠ fresh := by
    rintro task t htask rfl
    rw [hfresh] at htask
    cases htask
  have hkeep : ∀ {task : ℕ} {t : TaskStatus α}, status task = some t →
      Function.update status fresh (some ⟨addr, .outbound, .handshaking⟩) task = some t := by
    intro task t htask
    rw [Function.update_of_ne (hold htask), htask]
  have hstay : ∀ {addr' : α} {entry : PeerEntry}, peers.lookup addr' = some entry →
      (peers.insert addr ⟨fresh, .outbound, .handshaking⟩).lookup addr' = some entry := by
    intro addr' entry hentry
    rw [HashMap.lookup_insert_ite, if_neg, hentry]
    rintro rfl
    rw [habsent] at hentry
    cases hentry
  have hentries : ∀ {addr' : α} {entry : PeerEntry},
      (peers.insert addr ⟨fresh, .outbound, .handshaking⟩).lookup addr' = some entry →
        (addr' = addr ∧ entry = ⟨fresh, .outbound, .handshaking⟩) ∨
          peers.lookup addr' = some entry := by
    intro addr' entry hentry
    rw [HashMap.lookup_insert_ite] at hentry
    split at hentry
    · rename_i heq
      exact .inl ⟨heq, (Option.some.inj hentry).symm⟩
    · exact .inr hentry
  refine ⟨h.pending_inbound, ?_, h.pending_nodup, ?_, ?_, ?_, ?_, ?_, ?_, ?_, ?_⟩
  · intro registration hmem
    obtain ⟨phase, hphase⟩ := h.pending_status registration hmem
    exact ⟨phase, hkeep hphase⟩
  · intro addr' entry hentry
    rcases hentries hentry with ⟨rfl, rfl⟩ | hentry
    · exact ⟨.handshaking, Function.update_self _ _ _⟩
    · obtain ⟨phase, hphase⟩ := h.entry_status addr' entry hentry
      exact ⟨phase, hkeep hphase⟩
  · intro addr' entry hentry registration hmem
    rcases hentries hentry with ⟨rfl, rfl⟩ | hentry
    · obtain ⟨phase, hphase⟩ := h.pending_status registration hmem
      exact hold hphase
    · exact h.entry_not_pending addr' entry hentry registration hmem
  · intro task addr' phase htask hphase
    by_cases hnew : task = fresh
    · rw [hnew, Function.update_self] at htask
      cases htask
    · rw [Function.update_of_ne hnew] at htask
      rcases h.known task addr' phase htask hphase with hpending | ⟨entry, hentry, heq⟩
      · exact .inl hpending
      · exact .inr ⟨entry, hstay hentry, heq⟩
  · intro task addr' direction htask
    by_cases hnew : task = fresh
    · rw [hnew, Function.update_self] at htask
      cases htask
    · rw [Function.update_of_ne hnew] at htask
      rcases h.ready_sent task addr' direction htask with hsent | ⟨entry, hentry, heq, hready⟩
      · exact .inl hsent
      · exact .inr ⟨entry, hstay hentry, heq, hready⟩
  · intro addr' entry hentry hready direction
    rcases hentries hentry with ⟨rfl, rfl⟩ | hentry
    · cases hready
    · obtain ⟨phase, hphase⟩ := h.entry_status addr' entry hentry
      rw [Function.update_of_ne (hold hphase)]
      exact h.entry_ready addr' entry hentry hready direction
  · intro task addr' direction htask hheld
    by_cases hnew : task = fresh
    · rw [hnew, Function.update_self] at htask
      cases htask
    · rw [Function.update_of_ne hnew] at htask
      apply h.ended_sent task addr' direction htask
      rcases hheld with hpending | ⟨entry, hentry, heq⟩
      · exact .inl hpending
      · rcases hentries hentry with ⟨-, rfl⟩ | hentry
        · exact (hnew heq.symm).elim
        · exact .inr ⟨entry, hentry, heq⟩
  · intro task addr' hmem
    obtain ⟨direction, phase, htask, hphase⟩ := h.ready_status task addr' hmem
    exact ⟨direction, phase, hkeep htask, hphase⟩
  · intro task addr' error hmem
    obtain ⟨direction, htask⟩ := h.disconnected_status task addr' error hmem
    exact ⟨direction, hkeep htask⟩

/-- A task that has not ended gets on and emits the event that tells of it. -/
theorem advance (h : Registered status pending peers events) {task : ℕ} {addr : α}
    {direction : ConnectionDirection} {phase : PeerPhase} (phase' : PeerPhase)
    (hstatus : status task = some ⟨addr, direction, phase⟩) (hlive : phase ≠ .ended)
    (hphase' : phase' ≠ .handshaking) {events' : List (ℕ × PeerEvent α)} (hsub : events ⊆ events')
    (hnew : ∀ event ∈ events', event ∈ events ∨ event = (task, .ready addr) ∨
      phase' = .ended ∧ ∃ error, event = (task, .disconnected addr error))
    (hready : phase' = .established → (task, .ready addr) ∈ events')
    (hended : phase' = .ended →
      ((∃ registration ∈ pending, registration.task = task) ∨
        ∃ entry, peers.lookup addr = some entry ∧ entry.task = task) →
      ∃ error, (task, .disconnected addr error) ∈ events') :
    Registered (Function.update status task (some ⟨addr, direction, phase'⟩)) pending peers
      events' := by
  have hself : Function.update status task (some ⟨addr, direction, phase'⟩) task =
      some ⟨addr, direction, phase'⟩ := Function.update_self _ _ _
  have hkeep : ∀ {other : ℕ} {t : TaskStatus α}, status other = some t → ∃ phase,
      Function.update status task (some ⟨addr, direction, phase'⟩) other =
        some ⟨t.addr, t.direction, phase⟩ ∧ (phase = t.phase ∨ other = task ∧ phase = phase') := by
    intro other t hother
    by_cases heq : other = task
    · subst heq
      obtain rfl := Option.some.inj (hstatus.symm.trans hother)
      exact ⟨phase', hself, .inr ⟨rfl, rfl⟩⟩
    · exact ⟨t.phase, by rw [Function.update_of_ne heq, hother], .inl rfl⟩
  refine ⟨h.pending_inbound, ?_, h.pending_nodup, ?_, h.entry_not_pending, ?_, ?_, ?_, ?_, ?_, ?_⟩
  · intro registration hmem
    obtain ⟨old, hold⟩ := h.pending_status registration hmem
    obtain ⟨phase, hphase, -⟩ := hkeep hold
    exact ⟨phase, hphase⟩
  · intro addr' entry hentry
    obtain ⟨old, hold⟩ := h.entry_status addr' entry hentry
    obtain ⟨phase, hphase, -⟩ := hkeep hold
    exact ⟨phase, hphase⟩
  · intro other addr' phase'' hother hphase''
    by_cases heq : other = task
    · rw [heq, hself] at hother
      obtain ⟨rfl, rfl, rfl⟩ := TaskStatus.mk.inj (Option.some.inj hother)
      rw [heq]
      exact h.known task addr phase hstatus hlive
    · rw [Function.update_of_ne heq] at hother
      exact h.known other addr' phase'' hother hphase''
  · intro other addr' direction' hother
    by_cases heq : other = task
    · rw [heq, hself] at hother
      obtain ⟨rfl, rfl, hphase⟩ := TaskStatus.mk.inj (Option.some.inj hother)
      exact .inl (heq ▸ hready hphase)
    · rw [Function.update_of_ne heq] at hother
      rcases h.ready_sent other addr' direction' hother with hsent | hentered
      · exact .inl (hsub hsent)
      · exact .inr hentered
  · intro addr' entry hentry hentryReady direction' hstatus'
    by_cases heq : entry.task = task
    · rw [heq, hself] at hstatus'
      exact hphase' (TaskStatus.mk.inj (Option.some.inj hstatus')).2.2
    · rw [Function.update_of_ne heq] at hstatus'
      exact h.entry_ready addr' entry hentry hentryReady direction' hstatus'
  · intro other addr' direction' hother hheld
    by_cases heq : other = task
    · subst heq
      rw [hself] at hother
      obtain ⟨rfl, rfl, hphase⟩ := TaskStatus.mk.inj (Option.some.inj hother)
      exact hended hphase hheld
    · rw [Function.update_of_ne heq] at hother
      obtain ⟨error, hmem⟩ := h.ended_sent other addr' direction' hother hheld
      exact ⟨error, hsub hmem⟩
  · intro other addr' hmem
    rcases hnew _ hmem with hmem | heq | ⟨-, error, heq⟩
    · obtain ⟨direction', old, hold, hne⟩ := h.ready_status other addr' hmem
      obtain ⟨phase'', hphase'', hcases⟩ := hkeep hold
      refine ⟨direction', phase'', hphase'', ?_⟩
      rcases hcases with rfl | ⟨-, rfl⟩
      · exact hne
      · exact hphase'
    · obtain ⟨rfl, hevent⟩ := Prod.mk.inj heq
      obtain rfl := PeerEvent.ready.inj hevent
      exact ⟨direction, phase', hself, hphase'⟩
    · cases heq
  · intro other addr' error hmem
    rcases hnew _ hmem with hmem | heq | ⟨hphase, error', heq⟩
    · obtain ⟨direction', hold⟩ := h.disconnected_status other addr' error hmem
      have hne : other ≠ task := by
        rintro rfl
        exact hlive (TaskStatus.mk.inj (Option.some.inj (hstatus.symm.trans hold))).2.2
      exact ⟨direction', by rw [Function.update_of_ne hne, hold]⟩
    · cases heq
    · obtain ⟨rfl, hevent⟩ := Prod.mk.inj heq
      obtain ⟨rfl, -⟩ := PeerEvent.disconnected.inj hevent
      exact ⟨direction, by rw [hself, hphase]⟩

/-- A registration is entered at an address that has no entry. -/
theorem register {registration : PeerRegistration α}
    (h : Registered status (registration :: pending) peers events)
    (habsent : peers.lookup registration.addr = none) :
    Registered status pending (peers.insert registration.addr
      ⟨registration.task, registration.direction, .handshaking⟩) events := by
  obtain ⟨phase, hphase⟩ := h.pending_status registration List.mem_cons_self
  have hnodup := List.nodup_cons.mp h.pending_nodup
  have hstay : ∀ {addr : α} {entry : PeerEntry}, peers.lookup addr = some entry →
      (peers.insert registration.addr
        ⟨registration.task, registration.direction, .handshaking⟩).lookup addr = some entry := by
    intro addr entry hentry
    rw [HashMap.lookup_insert_ite, if_neg, hentry]
    rintro rfl
    rw [habsent] at hentry
    cases hentry
  have hentries : ∀ {addr : α} {entry : PeerEntry},
      (peers.insert registration.addr
        ⟨registration.task, registration.direction, .handshaking⟩).lookup addr = some entry →
        (addr = registration.addr ∧
          entry = ⟨registration.task, registration.direction, .handshaking⟩) ∨
          peers.lookup addr = some entry := by
    intro addr entry hentry
    rw [HashMap.lookup_insert_ite] at hentry
    split at hentry
    · rename_i heq
      exact .inl ⟨heq, (Option.some.inj hentry).symm⟩
    · exact .inr hentry
  have hheld : ∀ {task : ℕ} {addr : α} {t : TaskStatus α}, status task = some t → t.addr = addr →
      (∃ other ∈ registration :: pending, other.task = task) →
      (∃ other ∈ pending, other.task = task) ∨
        ∃ entry, (peers.insert registration.addr
          ⟨registration.task, registration.direction, .handshaking⟩).lookup addr = some entry ∧
            entry.task = task := by
    rintro task addr t htask rfl ⟨other, hmem, heq⟩
    rcases List.mem_cons.mp hmem with rfl | hmem
    · rw [heq, htask] at hphase
      refine .inr ⟨⟨other.task, other.direction, .handshaking⟩, ?_, heq⟩
      rw [HashMap.lookup_insert_ite, if_pos]
      rw [Option.some.inj hphase]
    · exact .inl ⟨other, hmem, heq⟩
  refine ⟨fun other hmem ↦ h.pending_inbound other (List.mem_cons_of_mem _ hmem),
    fun other hmem ↦ h.pending_status other (List.mem_cons_of_mem _ hmem), hnodup.2,
    ?_, ?_, ?_, ?_, ?_, ?_, h.ready_status, h.disconnected_status⟩
  · intro addr entry hentry
    rcases hentries hentry with ⟨rfl, rfl⟩ | hentry
    · exact ⟨phase, hphase⟩
    · exact h.entry_status addr entry hentry
  · intro addr entry hentry other hmem
    rcases hentries hentry with ⟨rfl, rfl⟩ | hentry
    · intro heq
      exact hnodup.1 (List.mem_map.mpr ⟨other, hmem, heq⟩)
    · exact h.entry_not_pending addr entry hentry other (List.mem_cons_of_mem _ hmem)
  · intro task addr phase' htask hphase'
    rcases h.known task addr phase' htask hphase' with hpending | ⟨entry, hentry, heq⟩
    · exact hheld htask rfl hpending
    · exact .inr ⟨entry, hstay hentry, heq⟩
  · intro task addr direction htask
    rcases h.ready_sent task addr direction htask with hsent | ⟨entry, hentry, heq, hready⟩
    · exact .inl hsent
    · exact .inr ⟨entry, hstay hentry, heq, hready⟩
  · intro addr entry hentry hready direction
    rcases hentries hentry with ⟨rfl, rfl⟩ | hentry
    · cases hready
    · exact h.entry_ready addr entry hentry hready direction
  · intro task addr direction htask hheld'
    apply h.ended_sent task addr direction htask
    rcases hheld' with ⟨other, hmem, heq⟩ | ⟨entry, hentry, heq⟩
    · exact .inl ⟨other, List.mem_cons_of_mem _ hmem, heq⟩
    · rcases hentries hentry with ⟨rfl, rfl⟩ | hentry
      · exact .inl ⟨registration, List.mem_cons_self, heq⟩
      · exact .inr ⟨entry, hentry, heq⟩

/-- A ready event finds the entry of its sender. -/
theorem ready {task : ℕ} {addr : α} {entry : PeerEntry}
    (h : Registered status pending peers ((task, .ready addr) :: events))
    (hentry : peers.lookup addr = some entry) (htask : entry.task = task) :
    Registered status pending (peers.insert addr { entry with state := .ready }) events := by
  obtain ⟨direction, phase, hstatus, hphase⟩ := h.ready_status task addr List.mem_cons_self
  have hentries : ∀ {addr' : α} {entry' : PeerEntry},
      (peers.insert addr { entry with state := .ready }).lookup addr' = some entry' →
        ∃ old, peers.lookup addr' = some old ∧ old.task = entry'.task ∧
          old.direction = entry'.direction ∧ (addr' = addr ∨ old = entry') := by
    intro addr' entry' hentry'
    rw [HashMap.lookup_insert_ite] at hentry'
    split at hentry'
    · rename_i heq
      obtain rfl := Option.some.inj hentry'
      exact ⟨entry, heq ▸ hentry, rfl, rfl, .inl heq⟩
    · exact ⟨entry', hentry', rfl, rfl, .inr rfl⟩
  have hstay : ∀ {addr' : α} {entry' : PeerEntry}, peers.lookup addr' = some entry' →
      ∃ new, (peers.insert addr { entry with state := .ready }).lookup addr' = some new ∧
        new.task = entry'.task ∧ (entry'.state = .ready ∨ addr' = addr → new.state = .ready) := by
    intro addr' entry' hentry'
    by_cases heq : addr' = addr
    · subst heq
      obtain rfl := Option.some.inj (hentry.symm.trans hentry')
      exact ⟨{ entry with state := .ready }, by rw [HashMap.lookup_insert_ite, if_pos rfl], rfl,
        fun _ ↦ rfl⟩
    · refine ⟨entry', by rw [HashMap.lookup_insert_ite, if_neg heq, hentry'], rfl, ?_⟩
      exact fun hcase ↦ hcase.resolve_right heq
  refine ⟨h.pending_inbound, h.pending_status, h.pending_nodup, ?_, ?_, ?_, ?_, ?_, ?_,
    fun task addr hmem ↦ h.ready_status task addr (List.mem_cons_of_mem _ hmem),
    fun task addr error hmem ↦ h.disconnected_status task addr error (List.mem_cons_of_mem _ hmem)⟩
  · intro addr' entry' hentry'
    obtain ⟨old, hold, htaskEq, hdirection, -⟩ := hentries hentry'
    rw [← htaskEq, ← hdirection]
    exact h.entry_status addr' old hold
  · intro addr' entry' hentry'
    obtain ⟨old, hold, htaskEq, -, -⟩ := hentries hentry'
    rw [← htaskEq]
    exact h.entry_not_pending addr' old hold
  · intro other addr' phase' hother hphase'
    rcases h.known other addr' phase' hother hphase' with hpending | ⟨entry', hentry', heq⟩
    · exact .inl hpending
    · obtain ⟨new, hnew, htaskEq, -⟩ := hstay hentry'
      exact .inr ⟨new, hnew, htaskEq.trans heq⟩
  · intro other addr' direction' hother
    rcases h.ready_sent other addr' direction' hother with hsent | ⟨entry', hentry', heq, hready⟩
    · rcases List.mem_cons.mp hsent with hhead | hsent
      · obtain ⟨rfl, hevent⟩ := Prod.mk.inj hhead
        obtain rfl := PeerEvent.ready.inj hevent
        obtain ⟨new, hnew, htaskEq, hnewReady⟩ := hstay hentry
        exact .inr ⟨new, hnew, htaskEq.trans htask, hnewReady (.inr rfl)⟩
      · exact .inl hsent
    · obtain ⟨new, hnew, htaskEq, hnewReady⟩ := hstay hentry'
      exact .inr ⟨new, hnew, htaskEq.trans heq, hnewReady (.inl hready)⟩
  · intro addr' entry' hentry' hready direction' hstatus'
    obtain ⟨old, hold, htaskEq, -, rfl | rfl⟩ := hentries hentry'
    · obtain rfl := Option.some.inj (hentry.symm.trans hold)
      rw [← htaskEq, htask, hstatus] at hstatus'
      exact hphase (TaskStatus.mk.inj (Option.some.inj hstatus')).2.2
    · exact h.entry_ready addr' old hold hready direction' hstatus'
  · intro other addr' direction' hother hheld
    have hheldOld : (∃ registration ∈ pending, registration.task = other) ∨
        ∃ entry, peers.lookup addr' = some entry ∧ entry.task = other := by
      rcases hheld with hpending | ⟨entry', hentry', heq⟩
      · exact .inl hpending
      · obtain ⟨old, hold, htaskEq, -, -⟩ := hentries hentry'
        exact .inr ⟨old, hold, htaskEq.trans heq⟩
    obtain ⟨error, hmem⟩ := h.ended_sent other addr' direction' hother hheldOld
    exact ⟨error, (List.mem_cons.mp hmem).resolve_left fun heq ↦ nomatch (Prod.mk.inj heq).2⟩

/-- A disconnected event finds the entry of its sender. -/
theorem disconnected {task : ℕ} {addr : α} {error : NetError} {entry : PeerEntry}
    (h : Registered status pending peers ((task, .disconnected addr error) :: events))
    (hentry : peers.lookup addr = some entry) (htask : entry.task = task) :
    Registered status pending (peers.erase addr) events := by
  obtain ⟨direction, hstatus⟩ := h.disconnected_status task addr error List.mem_cons_self
  have hentries : ∀ {addr' : α} {entry' : PeerEntry},
      (peers.erase addr).lookup addr' = some entry' →
        addr' ≠ addr ∧ peers.lookup addr' = some entry' := by
    intro addr' entry' hentry'
    rw [HashMap.lookup_erase_ite] at hentry'
    split at hentry'
    · cases hentry'
    · rename_i hne
      exact ⟨hne, hentry'⟩
  have hstay : ∀ {addr' : α} {entry' : PeerEntry} {t : TaskStatus α},
      peers.lookup addr' = some entry' → status entry'.task = some t → t.phase ≠ .ended →
        (peers.erase addr).lookup addr' = some entry' := by
    intro addr' entry' t hentry' ht hlive
    rw [HashMap.lookup_erase_ite, if_neg, hentry']
    rintro rfl
    obtain rfl := Option.some.inj (hentry.symm.trans hentry')
    rw [htask, hstatus] at ht
    exact hlive (Option.some.inj ht ▸ rfl)
  refine ⟨h.pending_inbound, h.pending_status, h.pending_nodup,
    fun addr' entry' hentry' ↦ h.entry_status addr' entry' (hentries hentry').2,
    fun addr' entry' hentry' ↦ h.entry_not_pending addr' entry' (hentries hentry').2, ?_, ?_,
    fun addr' entry' hentry' ↦ h.entry_ready addr' entry' (hentries hentry').2, ?_,
    fun task addr hmem ↦ h.ready_status task addr (List.mem_cons_of_mem _ hmem),
    fun task addr error hmem ↦ h.disconnected_status task addr error (List.mem_cons_of_mem _ hmem)⟩
  · intro other addr' phase hother hphase
    rcases h.known other addr' phase hother hphase with hpending | ⟨entry', hentry', rfl⟩
    · exact .inl hpending
    · exact .inr ⟨entry', hstay hentry' hother hphase, rfl⟩
  · intro other addr' direction' hother
    rcases h.ready_sent other addr' direction' hother with hsent | ⟨entry', hentry', rfl, hready⟩
    · refine .inl ((List.mem_cons.mp hsent).resolve_left fun heq ↦ nomatch (Prod.mk.inj heq).2)
    · exact .inr ⟨entry', hstay hentry' hother (fun heq ↦ nomatch heq), rfl, hready⟩
  · intro other addr' direction' hother hheld
    have hne : other ≠ task := by
      rintro rfl
      rcases hheld with ⟨registration, hmem, heq⟩ | ⟨entry', hentry', heq⟩
      · exact h.entry_not_pending addr entry hentry registration hmem (heq.trans htask.symm)
      · obtain ⟨hne, hentry'⟩ := hentries hentry'
        rw [hstatus] at hother
        exact hne (TaskStatus.mk.inj (Option.some.inj hother)).1.symm
    have hheldOld : (∃ registration ∈ pending, registration.task = other) ∨
        ∃ entry, peers.lookup addr' = some entry ∧ entry.task = other :=
      hheld.imp_right fun ⟨entry', hentry', heq⟩ ↦ ⟨entry', (hentries hentry').2, heq⟩
    obtain ⟨error', hmem⟩ := h.ended_sent other addr' direction' hother hheldOld
    exact ⟨error', (List.mem_cons.mp hmem).resolve_left fun heq ↦ hne (Prod.mk.inj heq).1⟩

end Registered

/-! ## Every step keeps them consistent -/

/-- The manager sends no command that ends a task. -/
structure Consistent (s : PeerSystem α) : Prop where
  registered : Registered s.status s.pending s.peers s.events.contents
  no_shutdown : ∀ (task : ℕ) (t : PeerTask α), s.tasks[task]? = some t →
    PeerCommand.shutdown ∉ t.commands

theorem consistent_start : (start : PeerSystem α).Consistent where
  registered := by
    have hnone : ∀ task, (start : PeerSystem α).status task = none := fun task ↦ rfl
    have hempty : ∀ addr, (start : PeerSystem α).peers.lookup addr = none := fun addr ↦ rfl
    have hevents : (start : PeerSystem α).events.contents = [] := BoundedChannel.contents_empty
    rw [hevents]
    constructor
    · exact fun _ hmem ↦ nomatch hmem
    · exact fun _ hmem ↦ nomatch hmem
    · exact List.nodup_nil
    · exact fun addr _ hentry ↦ nomatch (hempty addr).symm.trans hentry
    · exact fun addr _ hentry ↦ nomatch (hempty addr).symm.trans hentry
    · exact fun task _ _ hstatus ↦ nomatch (hnone task).symm.trans hstatus
    · exact fun task _ _ hstatus ↦ nomatch (hnone task).symm.trans hstatus
    · exact fun addr _ hentry ↦ nomatch (hempty addr).symm.trans hentry
    · exact fun task _ _ hstatus ↦ nomatch (hnone task).symm.trans hstatus
    · exact fun _ _ hmem ↦ nomatch hmem
    · exact fun _ _ _ hmem ↦ nomatch hmem
  no_shutdown task t h := nomatch h

omit [DecidableEq α] in
theorem status_eq {s : PeerSystem α} {task : ℕ} {t : PeerTask α} (h : s.tasks[task]? = some t) :
    s.status task = some ⟨t.addr, t.direction, t.phase⟩ := by
  rw [status, h, Option.map_some]

omit [DecidableEq α] in
theorem status_spawnPeer (s : PeerSystem α) (addr : α) (direction : ConnectionDirection) :
    (s.spawnPeer addr direction).status =
      Function.update s.status s.tasks.length (some ⟨addr, direction, .handshaking⟩) := by
  funext task
  rw [Function.update_apply]
  simp only [status, spawnPeer]
  split
  · rename_i heq
    rw [heq, List.getElem?_concat_length, Option.map_some]
  · rename_i hne
    rcases lt_or_gt_of_ne hne with hlt | hgt
    · rw [List.getElem?_append_left hlt]
    · rw [List.getElem?_eq_none hgt.le, List.getElem?_eq_none]
      rw [List.length_append, List.length_singleton]
      exact hgt

omit [DecidableEq α] in
theorem status_fresh (s : PeerSystem α) : s.status s.tasks.length = none := by
  rw [status, List.getElem?_eq_none le_rfl, Option.map_none]

omit [DecidableEq α] in
theorem status_setPhase {s : PeerSystem α} {task : ℕ} {t : PeerTask α}
    (h : s.tasks[task]? = some t) (phase : PeerPhase) :
    (s.setPhase task phase).status =
      Function.update s.status task (some ⟨t.addr, t.direction, phase⟩) := by
  funext other
  by_cases heq : other = task
  · subst heq
    rw [Function.update_self, status, setPhase, List.getElem?_modify_eq, h]
    rfl
  · rw [Function.update_of_ne heq, status, setPhase, List.getElem?_modify_ne _ _ (Ne.symm heq)]
    rfl

omit [DecidableEq α] in
theorem status_setCommands (s : PeerSystem α) (task : ℕ) (commands : List PeerCommand) :
    (s.setCommands task commands).status = s.status := by
  funext other
  rw [status, setCommands, List.getElem?_modify]
  cases hother : s.tasks[other]? with
  | none => rw [status, hother]; rfl
  | some t =>
      rw [status, hother, Option.map_eq_map, Option.map_some, Option.map_some, Option.map_some]
      split <;> rfl

omit [DecidableEq α] in
theorem running_eq_some {s : PeerSystem α} {task : ℕ} {phase : PeerPhase} {t : PeerTask α}
    (h : s.running task phase = some t) :
    ¬ s.Emitting task ∧ s.tasks[task]? = some t ∧ t.phase = phase := by
  unfold running at h
  split at h
  · cases h
  · rename_i hemitting
    obtain ⟨htask, hphase⟩ := Option.filter_eq_some_iff.mp h
    exact ⟨hemitting, htask, of_decide_eq_true hphase⟩

omit [DecidableEq α] in
theorem commands_modify {s : PeerSystem α} {task other : ℕ} {f : PeerTask α → PeerTask α}
    {t : PeerTask α} (h : (s.tasks.modify task f)[other]? = some t) :
    ∃ old, s.tasks[other]? = some old ∧ (t = old ∨ other = task ∧ t = f old) := by
  rw [List.getElem?_modify] at h
  obtain ⟨old, hold, rfl⟩ := Option.map_eq_some_iff.mp h
  refine ⟨old, hold, ?_⟩
  split
  · rename_i heq
    exact .inr ⟨heq.symm, rfl⟩
  · exact .inl rfl

namespace Consistent

variable {s t : PeerSystem α}

theorem no_shutdown_setPhase (h : s.Consistent) (task : ℕ) (phase : PeerPhase) {other : ℕ}
    {u : PeerTask α} (hu : (s.setPhase task phase).tasks[other]? = some u) :
    PeerCommand.shutdown ∉ u.commands := by
  obtain ⟨old, hold, rfl | ⟨-, rfl⟩⟩ := commands_modify hu
  · exact h.no_shutdown other u hold
  · exact h.no_shutdown other old hold

theorem no_shutdown_setCommands (h : s.Consistent) {task : ℕ} {commands : List PeerCommand}
    (hcommands : PeerCommand.shutdown ∉ commands) {other : ℕ} {u : PeerTask α}
    (hu : (s.setCommands task commands).tasks[other]? = some u) :
    PeerCommand.shutdown ∉ u.commands := by
  obtain ⟨old, hold, rfl | ⟨-, rfl⟩⟩ := commands_modify hu
  · exact h.no_shutdown other u hold
  · exact hcommands

theorem no_shutdown_spawnPeer (h : s.Consistent) {addr : α} {direction : ConnectionDirection}
    {other : ℕ} {u : PeerTask α} (hu : (s.spawnPeer addr direction).tasks[other]? = some u) :
    PeerCommand.shutdown ∉ u.commands := by
  rcases List.mem_append.mp (List.mem_of_getElem? hu) with hold | hnew
  · obtain ⟨index, hindex⟩ := List.mem_iff_getElem?.mp hold
    exact h.no_shutdown index u hindex
  · rw [List.mem_singleton.mp hnew]
    exact List.not_mem_nil

theorem accept (h : s.Consistent) {config : PeerManagerConfig} {addr : α}
    (hstep : s.accept config addr = some t) : t.Consistent := by
  unfold PeerSystem.accept at hstep
  split at hstep
  · cases hstep
  rename_i hfree
  split at hstep
  · obtain rfl := Option.some.inj hstep
    have hnone : s.accepting = none := by
      cases haccepting : s.accepting with
      | none => rfl
      | some registration => rw [haccepting] at hfree; exact (hfree rfl).elim
    have hpending : s.pending = s.registrations := by
      rw [pending, hnone, Option.toList_none, List.append_nil]
    have hreg := h.registered.accept s.status_fresh addr
    rw [hpending, ← status_spawnPeer] at hreg
    exact ⟨hreg, fun _ _ ↦ h.no_shutdown_spawnPeer⟩
  · obtain rfl := Option.some.inj hstep
    exact h

theorem register (h : s.Consistent) (hstep : s.register = some t) : t.Consistent := by
  unfold PeerSystem.register at hstep
  split at hstep
  · cases hstep
  rename_i registration haccepting
  split at hstep
  · obtain rfl := Option.some.inj hstep
    have hpending : s.pending = s.registrations ++ [registration] := by
      rw [pending, haccepting, Option.toList_some]
    have hreg := h.registered
    rw [hpending, ← List.append_nil (s.registrations ++ [registration])] at hreg
    exact ⟨hreg, h.no_shutdown⟩
  · cases hstep

theorem connectSeed (h : s.Consistent) {config : PeerManagerConfig} {addr : α}
    (hstep : s.connectSeed config addr = some t) : t.Consistent := by
  unfold PeerSystem.connectSeed at hstep
  split at hstep
  · split at hstep
    · obtain rfl := Option.some.inj hstep
      exact h
    split at hstep
    · obtain rfl := Option.some.inj hstep
      exact h
    · rename_i habsent
      obtain rfl := Option.some.inj hstep
      have hreg := h.registered.connect s.status_fresh (Finmap.lookup_eq_none.mpr habsent)
      rw [← status_spawnPeer] at hreg
      exact ⟨hreg, fun _ _ ↦ h.no_shutdown_spawnPeer⟩
  · cases hstep

theorem complete (h : s.Consistent) {task : ℕ} (hstep : s.complete task = some t) :
    t.Consistent := by
  obtain ⟨u, hrunning, rfl⟩ := Option.map_eq_some_iff.mp hstep
  obtain ⟨-, hu, hphase⟩ := running_eq_some hrunning
  have hstatus := status_eq hu
  rw [hphase] at hstatus
  refine ⟨?_, fun _ _ ↦ h.no_shutdown_setPhase task .established⟩
  have hreg : Registered (Function.update s.status task (some ⟨u.addr, u.direction, .established⟩))
      s.pending s.peers (s.events.contents ++ [(task, .ready u.addr)]) := by
    refine h.registered.advance .established hstatus (by decide) (by decide)
      (List.subset_append_left _ _) ?_ (fun _ ↦ ?_) fun heq ↦ nomatch heq
    · intro event hmem
      rcases List.mem_append.mp hmem with hmem | hmem
      · exact .inl hmem
      · exact .inr (.inl (List.mem_singleton.mp hmem))
    · exact List.mem_append_right _ (List.mem_singleton_self _)
  rw [← status_setPhase hu, ← BoundedChannel.contents_request] at hreg
  exact hreg

theorem announce (h : s.Consistent) {task : ℕ} {items : List InventoryVector}
    (hstep : s.announce task items = some t) : t.Consistent := by
  obtain ⟨u, -, rfl⟩ := Option.map_eq_some_iff.mp hstep
  refine ⟨?_, h.no_shutdown⟩
  have hreg : Registered s.status s.pending s.peers
      (s.events.contents ++ [(task, .announce u.addr items)]) := by
    apply h.registered.of_events
    · intro other addr
      simp
    · intro other addr error
      simp
  rw [← BoundedChannel.contents_request] at hreg
  exact hreg

theorem fail (h : s.Consistent) {task : ℕ} {error : NetError}
    (hstep : s.fail task error = some t) : t.Consistent := by
  obtain ⟨u, hrunning, rfl⟩ := Option.map_eq_some_iff.mp hstep
  have hlive : s.tasks[task]? = some u ∧ u.phase ≠ .ended := by
    rcases Option.or_eq_some_iff.mp hrunning with hrunning | ⟨-, hrunning⟩
    · obtain ⟨-, hu, hphase⟩ := running_eq_some hrunning
      exact ⟨hu, by rw [hphase]; decide⟩
    · obtain ⟨-, hu, hphase⟩ := running_eq_some hrunning
      exact ⟨hu, by rw [hphase]; decide⟩
  obtain ⟨hu, hlive⟩ := hlive
  refine ⟨?_, fun _ _ ↦ h.no_shutdown_setPhase task .ended⟩
  have hlast : (task, PeerEvent.disconnected u.addr error) ∈
      s.events.contents ++ [(task, .disconnected u.addr error)] :=
    List.mem_append_right _ (List.mem_singleton_self _)
  have hreg : Registered (Function.update s.status task (some ⟨u.addr, u.direction, .ended⟩))
      s.pending s.peers (s.events.contents ++ [(task, .disconnected u.addr error)]) := by
    refine h.registered.advance .ended (status_eq hu) hlive (by decide)
      (List.subset_append_left _ _) ?_ (fun heq ↦ nomatch heq) fun _ _ ↦ ⟨error, hlast⟩
    intro event hmem
    rcases List.mem_append.mp hmem with hmem | hmem
    · exact .inl hmem
    · exact .inr (.inr ⟨rfl, error, List.mem_singleton.mp hmem⟩)
  rw [← status_setPhase hu, ← BoundedChannel.contents_request] at hreg
  exact hreg

theorem deliver (h : s.Consistent) {index : ℕ} (hstep : s.deliver index = some t) :
    t.Consistent := by
  obtain ⟨events, hevents, rfl⟩ := Option.map_eq_some_iff.mp hstep
  have hperm := BoundedChannel.contents_deliver hevents
  exact ⟨h.registered.of_events (fun _ _ ↦ hperm.mem_iff) fun _ _ _ ↦ hperm.mem_iff, h.no_shutdown⟩

theorem takeCommand (h : s.Consistent) {task : ℕ} (hstep : s.takeCommand task = some t) :
    t.Consistent := by
  unfold PeerSystem.takeCommand at hstep
  split at hstep
  · cases hstep
  rename_i u hrunning
  obtain ⟨-, hu, hphase⟩ := running_eq_some hrunning
  split at hstep
  · rename_i message rest hcommands
    obtain rfl := Option.some.inj hstep
    have hrest : PeerCommand.shutdown ∉ rest := by
      intro hmem
      apply h.no_shutdown task u hu
      rw [hcommands]
      exact List.mem_cons_of_mem _ hmem
    have hreg := h.registered
    rw [← status_setCommands s task rest] at hreg
    exact ⟨hreg, fun _ _ ↦ h.no_shutdown_setCommands hrest⟩
  · rename_i rest hcommands
    apply absurd _ (h.no_shutdown task u hu)
    rw [hcommands]
    exact List.mem_cons_self
  · split at hstep
    · cases hstep
    · rename_i hsender
      obtain rfl := Option.some.inj hstep
      have hreg : Registered (Function.update s.status task (some ⟨u.addr, u.direction, .ended⟩))
          s.pending s.peers s.events.contents := by
        refine h.registered.advance .ended (status_eq hu) (by rw [hphase]; decide) (by decide)
          (List.Subset.refl _) (fun _ hmem ↦ .inl hmem) (fun heq ↦ nomatch heq) ?_
        rintro - (hpending | ⟨entry, hentry, heq⟩)
        · exact (hsender (.inr hpending)).elim
        · exact (hsender (.inl ⟨_, Finmap.lookup_eq_some_iff.mp hentry, heq⟩)).elim
      rw [← status_setPhase hu] at hreg
      exact ⟨hreg, fun _ _ ↦ h.no_shutdown_setPhase task .ended⟩

theorem takeRegistration (h : s.Consistent) {config : PeerManagerConfig}
    (horderly : s.Orderly .takeRegistration) (hstep : s.takeRegistration config = some t) :
    t.Consistent := by
  unfold PeerSystem.takeRegistration at hstep
  split at hstep
  · rename_i hmanager
    split at hstep
    · obtain rfl := Option.some.inj hstep
      exact ⟨h.registered, h.no_shutdown⟩
    · rename_i registration rest hregistrations
      have hpending : s.pending = registration :: (rest ++ s.accepting.toList) := by
        rw [pending, hregistrations, List.cons_append]
      have hreg := h.registered
      rw [hpending] at hreg
      have hinbound := hreg.pending_inbound registration List.mem_cons_self
      have habsent := horderly hmanager registration (by rw [hregistrations]; rfl)
      have hlimit : registration.direction ≠ .outbound := by
        rw [hinbound]
        decide
      rw [processRegistration, if_neg fun hfull ↦ hlimit hfull.1] at hstep
      obtain rfl := Option.some.inj hstep
      exact ⟨hreg.register habsent, h.no_shutdown⟩
  · cases hstep

theorem startRelay (h : s.Consistent) {polling : Bool} {origin : Option α}
    {items : List InventoryVector} {order : List α}
    (hstep : s.startRelay polling origin items order = some t) : t.Consistent := by
  unfold PeerSystem.startRelay at hstep
  split at hstep
  · obtain rfl := Option.some.inj hstep
    exact ⟨h.registered, h.no_shutdown⟩
  split at hstep
  · obtain rfl := Option.some.inj hstep
    exact ⟨h.registered, h.no_shutdown⟩
  · cases hstep

theorem takeEvent (h : s.Consistent) {order : List α} (horderly : s.Orderly (.takeEvent order))
    (hstep : s.takeEvent order = some t) : t.Consistent := by
  unfold PeerSystem.takeEvent at hstep
  split at hstep
  · rename_i hmanager
    split at hstep
    · obtain rfl := Option.some.inj hstep
      exact ⟨h.registered, h.no_shutdown⟩
    · rename_i task event events hreceive
      have howned := horderly hmanager task event (BoundedChannel.head_of_receive hreceive)
      have hreg := h.registered
      rw [BoundedChannel.contents_receive hreceive] at hreg
      cases event with
      | ready addr =>
          obtain ⟨entry, hentry, htask⟩ := howned
          rw [handleEvent] at hstep
          simp only [hentry] at hstep
          obtain rfl := Option.some.inj hstep
          exact ⟨hreg.ready hentry htask, h.no_shutdown⟩
      | disconnected addr error =>
          obtain ⟨entry, hentry, htask⟩ := howned
          rw [handleEvent] at hstep
          simp only [hentry] at hstep
          obtain rfl := Option.some.inj hstep
          exact ⟨hreg.disconnected hentry htask, h.no_shutdown⟩
      | announce addr items =>
          have hrest : Registered s.status s.pending s.peers events.contents := by
            apply hreg.of_events
            · intro other addr
              simp
            · intro other addr error
              simp
          have hnext : ({ s with events := events } : PeerSystem α).Consistent :=
            ⟨hrest, h.no_shutdown⟩
          exact hnext.startRelay hstep
      | registrationRejected addr error =>
          obtain rfl := Option.some.inj hstep
          refine ⟨hreg.of_events ?_ ?_, h.no_shutdown⟩
          · intro other addr
            simp
          · intro other addr error
            simp
  · cases hstep

theorem relayInventory (h : s.Consistent) {origin : Option α} {items : List InventoryVector}
    {order : List α} (hstep : s.relayInventory origin items order = some t) : t.Consistent := by
  unfold PeerSystem.relayInventory at hstep
  split at hstep
  · exact h.startRelay hstep
  · cases hstep

theorem turn (h : s.Consistent) (hstep : s.turn = some t) : t.Consistent := by
  unfold PeerSystem.turn at hstep
  split at hstep
  · split at hstep
    · obtain rfl := Option.some.inj hstep
      exact ⟨h.registered, h.no_shutdown⟩
    · split at hstep
      · cases hstep
      · split at hstep
        · obtain rfl := Option.some.inj hstep
          exact ⟨h.registered, h.no_shutdown⟩
        · obtain rfl := Option.some.inj hstep
          exact ⟨h.registered, h.no_shutdown⟩
  · cases hstep

theorem send (h : s.Consistent) (hstep : s.send = some t) : t.Consistent := by
  unfold PeerSystem.send at hstep
  split at hstep
  · rename_i relay task hmanager
    split at hstep
    · cases hstep
    rename_i u hu
    split at hstep
    · obtain rfl := Option.some.inj hstep
      exact ⟨h.registered, h.no_shutdown⟩
    split at hstep
    · obtain rfl := Option.some.inj hstep
      have hcommands : PeerCommand.shutdown ∉ u.commands ++ [.send relay.message] := by
        intro hmem
        rcases List.mem_append.mp hmem with hmem | hmem
        · exact h.no_shutdown task u hu hmem
        · cases List.mem_singleton.mp hmem
      have hreg := h.registered
      rw [← status_setCommands s task (u.commands ++ [.send relay.message])] at hreg
      exact ⟨hreg, fun _ _ ↦ h.no_shutdown_setCommands hcommands⟩
    · cases hstep
  · cases hstep

theorem poll (h : s.Consistent) (hstep : s.poll = some t) : t.Consistent := by
  unfold PeerSystem.poll at hstep
  split at hstep
  · obtain rfl := Option.some.inj hstep
    exact ⟨h.registered, h.no_shutdown⟩
  · cases hstep

theorem step {config : PeerManagerConfig} (s : PeerSystem α) (action : PeerAction α)
    (t : PeerSystem α) (h : s.Consistent) (horderly : s.Orderly action)
    (hstep : PeerSystem.step config s action = some t) : t.Consistent := by
  cases action with
  | accept addr => exact h.accept hstep
  | register => exact h.register hstep
  | connectSeed addr => exact h.connectSeed hstep
  | complete task => exact h.complete hstep
  | announce task items => exact h.announce hstep
  | fail task error => exact h.fail hstep
  | deliver index => exact h.deliver hstep
  | takeCommand task => exact h.takeCommand hstep
  | poll => exact h.poll hstep
  | takeRegistration => exact h.takeRegistration horderly hstep
  | takeEvent order => exact h.takeEvent horderly hstep
  | relayInventory origin items order => exact h.relayInventory hstep
  | turn => exact h.turn hstep
  | send => exact h.send hstep

/-- With nothing under way the table says what the tasks are. -/
theorem tracks (h : s.Consistent) (hdrained : s.Drained) : s.Tracks where
  entered task t ht hinbound hlive := by
    have hstatus := status_eq ht
    rw [hinbound] at hstatus
    have hreg := h.registered
    rw [hdrained.registrations, hdrained.events] at hreg
    obtain ⟨_, hmem, -⟩ | ⟨entry, hentry, rfl⟩ := hreg.known task t.addr t.phase hstatus hlive
    · cases hmem
    refine ⟨entry, hentry, rfl, ⟨fun hready ↦ ?_, fun hphase ↦ ?_⟩, fun addr other hother heq ↦ ?_⟩
    · have hphase := hreg.entry_ready t.addr entry hentry hready .inbound
      rw [hstatus] at hphase
      cases hcase : t.phase with
      | handshaking => rw [hcase] at hphase; exact (hphase rfl).elim
      | established => rfl
      | ended => exact (hlive hcase).elim
    · rw [hphase] at hstatus
      obtain hmem | ⟨entry', hentry', -, hready⟩ :=
        hreg.ready_sent entry.task t.addr .inbound hstatus
      · cases hmem
      · rw [Option.some.inj (hentry.symm.trans hentry')]
        exact hready
    · obtain ⟨phase, hphase⟩ := hreg.entry_status addr other hother
      rw [heq, hstatus] at hphase
      exact (TaskStatus.mk.inj (Option.some.inj hphase)).1.symm
  live addr entry hentry hinbound := by
    have hreg := h.registered
    rw [hdrained.registrations, hdrained.events] at hreg
    obtain ⟨phase, hphase⟩ := hreg.entry_status addr entry hentry
    obtain ⟨t, ht, hstatus⟩ := Option.map_eq_some_iff.mp hphase
    obtain ⟨haddr, hdirection, -⟩ := TaskStatus.mk.inj hstatus
    refine ⟨t, ht, haddr, hdirection.trans hinbound, fun hended ↦ ?_⟩
    have hstatus := status_eq ht
    rw [haddr, hended] at hstatus
    obtain ⟨error, hmem⟩ := hreg.ended_sent entry.task addr t.direction hstatus
      (.inr ⟨entry, hentry, rfl⟩)
    cases hmem

end Consistent

/-- In a run whose events and registrations meet no entry of another connection
the drained queues leave a table that tracks the connections. -/
theorem peers_track_connections (config : PeerManagerConfig) (actions : List (PeerAction α))
    {s : PeerSystem α} (hrun : execute (step config) start actions = some s)
    (horderly : Along (step config) Orderly (start : PeerSystem α) actions) (hdrained : s.Drained) :
    s.Tracks :=
  (horderly.invariant Consistent.step consistent_start hrun).tracks hdrained

end PeerSystem

/-! ## Two connections -/

namespace Sample

open PeerSystem

def limits : PeerManagerConfig := ⟨8, 8⟩

/-- The handshake is over before the acceptor sends the registration. -/
def overtaking : List (PeerAction ℕ) :=
  [.accept 8333, .complete 0, .deliver 0, .poll, .takeRegistration, .takeEvent [], .takeEvent [],
    .register, .poll, .takeRegistration, .takeRegistration, .takeEvent []]

theorem overtaken_not_tracked :
    ∃ s, execute (step limits) PeerSystem.start overtaking = some s ∧ s.Drained ∧ ¬ s.Tracks := by
  refine ⟨_, rfl, ⟨rfl, rfl⟩, fun htracks ↦ ?_⟩
  obtain ⟨entry, hentry, -, hready, -⟩ :=
    htracks.entered 0 ⟨8333, .inbound, .established, []⟩ rfl rfl (by decide)
  obtain rfl : ⟨0, .inbound, .handshaking⟩ = entry := Option.some.inj hentry
  exact nomatch hready.mpr rfl

def registering : List (PeerAction ℕ) :=
  [.accept 8333, .register, .poll, .takeRegistration, .takeRegistration, .complete 0, .deliver 0,
    .takeEvent [], .takeEvent []]

theorem registering_tracked :
    ∃ s, execute (step limits) PeerSystem.start registering = some s ∧ s.Drained ∧ s.Tracks ∧
      s.peers.lookup 8333 = some ⟨0, .inbound, .ready⟩ := by
  refine ⟨_, rfl, ⟨rfl, rfl⟩, ?_, rfl⟩
  refine peers_track_connections limits registering rfl ?_ ⟨rfl, rfl⟩
  refine (along_cons rfl _).mpr ⟨trivial, (along_cons rfl _).mpr ⟨trivial, ?_⟩⟩
  refine (along_cons rfl _).mpr ⟨trivial, (along_cons rfl _).mpr ⟨?_, ?_⟩⟩
  · rintro - registration ⟨⟩
    rfl
  refine (along_cons rfl _).mpr ⟨?_, (along_cons rfl _).mpr ⟨trivial, ?_⟩⟩
  · rintro - registration ⟨⟩
  refine (along_cons rfl _).mpr ⟨trivial, (along_cons rfl _).mpr ⟨?_, ?_⟩⟩
  · rintro - task event ⟨⟩
    exact ⟨⟨0, .inbound, .handshaking⟩, rfl, rfl⟩
  refine (along_cons rfl _).mpr ⟨?_, trivial⟩
  rintro - task event ⟨⟩

end Sample

end Bitrst
