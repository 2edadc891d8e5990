import Bitrst.ChainUpdates
import Bitrst.Support.Journal

/-!
# The journals of a chain

The event journal keeps the last events of the stream, the journal of
disconnected blocks the blocks of the last disconnect events.  What either
reports after a mark is, as long as it reports no lag, everything after it.
-/

namespace Bitrst

open Support

/-- The hash of the block that an event disconnects. -/
def ChainEvent.disconnected? : ChainEvent → Option Hash256
  | .blockDisconnected _ hash => some hash
  | _ => none

namespace ChainEventJournal

variable {journal : ChainEventJournal}

/-- The journal keeps the last events of the stream under their positions. -/
structure Aligned (journal : ChainEventJournal) : Prop where
  capacity_pos : 0 < journal.capacity
  nextSeq : journal.nextSeq = journal.pushed.length + 1
  entries : Retains journal.capacity (numbered some 1 journal.pushed)
    (journal.entries.map fun entry ↦ (entry.event, entry.seq))

theorem withCapacity_aligned (capacity : ℕ) : Aligned (withCapacity capacity) where
  capacity_pos := Nat.lt_of_lt_of_le Nat.one_pos (Nat.le_max_right _ _)
  nextSeq := rfl
  entries := .nil _

theorem Aligned.push (h : Aligned journal) (event : ChainEvent) : Aligned (journal.push event) where
  capacity_pos := h.capacity_pos
  nextSeq := by
    rw [push_nextSeq, push_pushed, h.nextSeq, List.length_append, List.length_singleton]
  entries := by
    have hnext := h.entries.keepLast h.capacity_pos (event, journal.nextSeq)
    have hstream : numbered some 1 (journal.push event).pushed =
        numbered some 1 journal.pushed ++ [(event, journal.nextSeq)] := by
      rw [push_pushed, numbered_append, h.nextSeq, Nat.add_comm 1]
      rfl
    have hentries : ((journal.push event).entries.map fun entry ↦ (entry.event, entry.seq)) =
        keepLast journal.capacity (journal.entries.map fun entry ↦ (entry.event, entry.seq))
          (event, journal.nextSeq) := by
      unfold ChainEventJournal.push keepLast
      simp only [List.map_append, List.length_map, List.map_cons, List.map_nil]
      split <;> simp
    rw [hstream, hentries]
    exact hnext

/-- The events reported after a mark are all events after it. -/
theorem Aligned.eventsAfter_eq (h : Aligned journal) {since : ℕ} {events : List ChainEvent}
    (hevents : journal.eventsAfter since = .ok events) :
    events = journal.pushed.drop since ∧ journal.pushed.length ≤ since + journal.capacity := by
  have hcovers : ∀ first ∈ (journal.entries.map fun entry ↦ (entry.event, entry.seq)).head?,
      first.2 ≤ since + 1 := by
    intro first hfirst
    rw [List.head?_map] at hfirst
    obtain ⟨oldest, holdest, rfl⟩ := Option.map_eq_some_iff.mp hfirst
    rw [eventsAfter, oldestSeq, holdest] at hevents
    simp only [Option.map_some] at hevents
    split at hevents
    · cases hevents
    · simp only
      omega
  obtain ⟨hdrop, hlength⟩ := h.entries.after_mark h.capacity_pos hcovers
  refine ⟨?_, hlength⟩
  rw [← hdrop]
  unfold eventsAfter at hevents
  cases holdest : journal.oldestSeq with
  | none =>
      rw [holdest] at hevents
      have hnil : journal.entries = [] := by
        simpa [oldestSeq] using holdest
      rw [← Except.ok.inj hevents, hnil]
      rfl
  | some oldest =>
      rw [holdest] at hevents
      simp only at hevents
      split at hevents
      · cases hevents
      · rw [← Except.ok.inj hevents, List.filter_map, List.map_map]
        rfl

/-- Taking the events hands out everything after the mark and moves the mark to the end. -/
theorem Aligned.takeEvents_eq (h : Aligned journal) {events : List ChainEvent}
    {journal' : ChainEventJournal} (htake : journal.takeEvents = (.ok events, journal'))
    (hmark : journal.walletHighWater ≤ journal.pushed.length) :
    events = journal.pushed.drop journal.walletHighWater ∧
      journal' = { journal with walletHighWater := journal.pushed.length } := by
  unfold takeEvents at htake
  cases hevents : journal.eventsAfter journal.walletHighWater with
  | error e =>
      rw [hevents] at htake
      cases htake
  | ok found =>
      rw [hevents] at htake
      obtain ⟨rfl, -⟩ := h.eventsAfter_eq hevents
      cases hlast : journal.entries.getLast? with
      | none =>
          rw [hlast] at htake
          obtain ⟨heq, rfl⟩ := Prod.mk.inj htake
          have hretains := h.entries
          rw [List.getLast?_eq_none_iff.mp hlast, List.map_nil] at hretains
          have hnil : journal.pushed = [] := by
            rw [← List.length_eq_zero_iff, ← numbered_some_length 1 journal.pushed,
              hretains.eq_nil h.capacity_pos, List.length_nil]
          have hzero : journal.walletHighWater = journal.pushed.length := by
            rw [hnil, List.length_nil] at hmark ⊢
            omega
          refine ⟨(Except.ok.inj heq).symm, ?_⟩
          rw [← hzero]
      | some last =>
          rw [hlast] at htake
          obtain ⟨heq, rfl⟩ := Prod.mk.inj htake
          have hposition := h.entries.last_position (last.event, last.seq)
            (by rw [List.getLast?_map, hlast]; rfl)
          exact ⟨(Except.ok.inj heq).symm, by rw [← hposition]⟩

/-- The last sequence number is the length of the stream. -/
theorem Aligned.latestSeq_eq (h : Aligned journal) : journal.latestSeq = journal.pushed.length := by
  unfold latestSeq
  cases hlast : journal.entries.getLast? with
  | none =>
      have hretains := h.entries
      rw [List.getLast?_eq_none_iff.mp hlast, List.map_nil] at hretains
      rw [← numbered_some_length 1 journal.pushed, hretains.eq_nil h.capacity_pos]
      rfl
  | some last =>
      have hposition := h.entries.last_position (last.event, last.seq)
        (by rw [List.getLast?_map, hlast]; rfl)
      rw [← hposition]
      rfl

end ChainEventJournal

namespace Chain

variable [Crypto] [Features] {genesis : Block} {chain : Chain}

/-- The journals keep the last events, and the blocks of the last disconnect events. -/
structure Journaled (chain : Chain) : Prop where
  events : chain.eventJournal.Aligned
  capacity : chain.disconnectedJournal.capacity = chain.eventJournal.capacity
  disconnects : Retains chain.eventJournal.capacity
    (numbered ChainEvent.disconnected? 1 chain.eventJournal.pushed)
      (chain.disconnectedJournal.entries.map fun entry ↦ (entry.block.hash, entry.eventSeq))
  connected : ∀ height hash count, .blockConnected height hash count ∈ chain.eventJournal.pushed →
    ∃ entry, chain.known.lookup hash = some entry
  stored : ∀ entry ∈ chain.disconnectedJournal.entries,
    ∃ found, chain.known.lookup entry.block.hash = some found ∧ found.block = entry.block

omit [Crypto] [Features] in
theorem numbered_push_other (journal : ChainEventJournal) {event : ChainEvent}
    (hevent : event.disconnected? = none) :
    numbered ChainEvent.disconnected? 1 (journal.push event).pushed =
      numbered ChainEvent.disconnected? 1 journal.pushed := by
  rw [ChainEventJournal.push_pushed, numbered_append, numbered, hevent]
  exact List.append_nil _

omit [Features] in
/-- A pushed event that disconnects nothing, and an index that only grew. -/
theorem Journaled.pushEvent (h : Journaled chain) (chain' : Chain) {event : ChainEvent}
    (hevents : chain'.eventJournal = chain.eventJournal.push event)
    (hdisconnected : chain'.disconnectedJournal = chain.disconnectedJournal)
    (hstable : KeepsIndex chain chain') (hevent : event.disconnected? = none)
    (hconnected : ∀ height hash count, event = .blockConnected height hash count →
      ∃ entry, chain'.known.lookup hash = some entry) : Journaled chain' where
  events := hevents ▸ h.events.push event
  capacity := by rw [hdisconnected, hevents, h.capacity]; rfl
  disconnects := by
    rw [hdisconnected, hevents, numbered_push_other _ hevent]
    exact h.disconnects
  connected := by
    intro height hash count hmem
    rw [hevents, ChainEventJournal.push_pushed] at hmem
    rcases List.mem_append.mp hmem with hold | hnew
    · obtain ⟨entry, hentry⟩ := h.connected height hash count hold
      obtain ⟨entry', hentry', -⟩ := hstable hash entry hentry
      exact ⟨entry', hentry'⟩
    · exact hconnected height hash count (List.mem_singleton.mp hnew).symm
  stored := by
    intro entry hentry
    rw [hdisconnected] at hentry
    obtain ⟨found, hfound, hblock⟩ := h.stored entry hentry
    obtain ⟨found', hfound', hblock', -⟩ := hstable _ found hfound
    exact ⟨found', hfound', hblock'.trans hblock⟩

omit [Features] in
theorem Journaled.congr (h : Journaled chain) {chain' : Chain}
    (hevents : chain'.eventJournal = chain.eventJournal)
    (hdisconnected : chain'.disconnectedJournal = chain.disconnectedJournal)
    (hstable : KeepsIndex chain chain') : Journaled chain' where
  events := hevents ▸ h.events
  capacity := by rw [hdisconnected, hevents, h.capacity]
  disconnects := by rw [hdisconnected, hevents]; exact h.disconnects
  connected := by
    intro height hash count hmem
    obtain ⟨entry, hentry⟩ := h.connected height hash count (hevents ▸ hmem)
    obtain ⟨entry', hentry', -⟩ := hstable hash entry hentry
    exact ⟨entry', hentry'⟩
  stored := by
    intro entry hentry
    obtain ⟨found, hfound, hblock⟩ := h.stored entry (hdisconnected ▸ hentry)
    obtain ⟨found', hfound', hblock', -⟩ := hstable _ found hfound
    exact ⟨found', hfound', hblock'.trans hblock⟩

omit [Features] in
theorem Journaled.popTip (h : Journaled chain) (hindexed : Indexed genesis chain)
    {keep : List Block} {tip : Block} (hblocks : chain.blocks = keep ++ [tip]) :
    Journaled (chain.popTip tip) where
  events := h.events.push _
  capacity := h.capacity
  disconnects := by
    have hnext := h.disconnects.keepLast h.events.capacity_pos
      (tip.hash, chain.eventJournal.nextSeq)
    have hstream : numbered ChainEvent.disconnected? 1 (chain.popTip tip).eventJournal.pushed =
        numbered ChainEvent.disconnected? 1 chain.eventJournal.pushed ++
          [(tip.hash, chain.eventJournal.nextSeq)] := by
      rw [h.events.nextSeq, Nat.add_comm _ 1]
      exact numbered_append _ _ _
    have hentries : ((chain.popTip tip).disconnectedJournal.entries.map
        fun entry ↦ (entry.block.hash, entry.eventSeq)) =
          keepLast chain.eventJournal.capacity (chain.disconnectedJournal.entries.map
            fun entry ↦ (entry.block.hash, entry.eventSeq))
              (tip.hash, chain.eventJournal.nextSeq) := by
      change ((chain.disconnectedJournal.record chain.eventJournal.nextSeq tip).entries.map _) = _
      rw [← h.capacity]
      unfold DisconnectedBlockJournal.record keepLast
      simp only [List.map_append, List.length_map, List.map_cons, List.map_nil]
      split <;> simp
    rw [hstream, hentries]
    exact hnext
  connected := by
    intro height hash count hmem
    rcases List.mem_append.mp hmem with hold | hnew
    · exact h.connected height hash count hold
    · exact nomatch List.mem_singleton.mp hnew
  stored := by
    intro entry hentry
    have hcases : entry ∈ chain.disconnectedJournal.entries ∨ entry.block = tip := by
      rcases List.mem_append.mp hentry with hold | hnew
      · apply Or.inl
        split at hold
        · exact List.mem_of_mem_drop hold
        · exact hold
      · exact Or.inr (by rw [List.mem_singleton.mp hnew])
    rcases hcases with hold | rfl
    · exact h.stored entry hold
    · have hmem : entry.block ∈ chain.blocks := by simp [hblocks]
      obtain ⟨found, hfound, hblock⟩ := hindexed.mem_active_known hmem
      exact ⟨found, hfound, hblock⟩

theorem journaled_kept : KeptByUpdates genesis Journaled where
  push chain block work h hpush _ hc := by
    refine hc.pushEvent _ rfl rfl (.pushTip hpush work) rfl ?_
    intro height hash count heq
    obtain ⟨-, rfl, -⟩ := ChainEvent.blockConnected.inj heq
    exact ⟨_, by rw [pushTip_known, if_pos rfl]⟩
  pop chain keep tip h hblocks _ hc := hc.popTip h hblocks
  store chain block parent work hadm hc := hc.congr rfl rfl (.storeSide hadm)
  restore chain failed _ _ hfailed := hfailed.congr rfl rfl fun _ entry h ↦ ⟨entry, h, rfl, rfl⟩
  event chain event hmove hc := by
    refine hc.pushEvent _ rfl rfl (fun _ entry h ↦ ⟨entry, h, rfl, rfl⟩) ?_ ?_
    · cases event <;> first | rfl | cases hmove
    · rintro height hash count rfl
      cases hmove
  same chain chain' hsame hc := hc.congr hsame.events hsame.disconnected fun _ entry h ↦
    ⟨entry, by rw [hsame.known, h], rfl, rfl⟩

theorem Reachable.journaled (h : Reachable genesis chain) : Journaled chain := by
  refine journaled_kept.reachable ?_ ?_ h
  · intro networkTime capacity chain created
    obtain ⟨work, -, rfl⟩ := withJournalCapacities_spec created
    have hblank : Journaled (blank networkTime capacity) :=
      ⟨ChainEventJournal.withCapacity_aligned capacity, rfl, .nil _, by simp [blank,
        ChainEventJournal.withCapacity], by simp [blank, DisconnectedBlockJournal.withCapacity]⟩
    refine (hblank.pushEvent ((blank networkTime capacity).pushTip genesis 0 work) rfl rfl
      ?_ rfl ?_).congr rfl rfl fun _ entry h ↦ ⟨entry, h, rfl, rfl⟩
    · intro hash entry hentry
      simp at hentry
    · intro height hash count heq
      obtain ⟨-, rfl, -⟩ := ChainEvent.blockConnected.inj heq
      exact ⟨_, by rw [pushTip_known, if_pos rfl]⟩
  · intro chain mark hc
    exact ⟨⟨hc.events.capacity_pos, hc.events.nextSeq, hc.events.entries⟩, hc.capacity,
      hc.disconnects, hc.connected, hc.stored⟩

/-- No disconnection is recorded, or one that is not past the event after the mark. -/
def RecoversFrom (chain : Chain) (since : ℕ) : Prop :=
  ∀ oldest ∈ chain.disconnectedJournal.entries.head?, oldest.eventSeq ≤ since + 1

omit [Crypto] [Features] in
/-- The blocks recovered after a mark are those recorded after it. -/
theorem recoveryDisconnectedBlocks_ok_iff {since : ℕ} {blocks : List Block} :
    chain.recoveryDisconnectedBlocks since = .ok blocks ↔
      chain.RecoversFrom since ∧
        blocks = (chain.disconnectedJournal.entries.filter fun entry ↦ since < entry.eventSeq).map
          DisconnectedEntry.block := by
  unfold recoveryDisconnectedBlocks DisconnectedBlockJournal.blocksSince RecoversFrom
  cases chain.disconnectedJournal.entries.head? with
  | none => simp [eq_comm]
  | some oldest =>
      simp only [Option.mem_def, Option.some.injEq, forall_eq']
      split
      · rename_i hlag
        simp only [reduceCtorEq, false_iff, not_and]
        omega
      · rename_i hcovers
        rw [Except.ok.injEq, eq_comm, and_iff_right (by omega)]

omit [Features] in
/-- As long as the event journal covers a mark, the disconnected-block journal
has the blocks of all disconnect events after it. -/
theorem Journaled.blocksSince_hashes (h : Journaled chain) {since : ℕ} {events : List ChainEvent}
    (hevents : chain.eventJournal.eventsAfter since = .ok events) {blocks : List Block}
    (hblocks : chain.recoveryDisconnectedBlocks since = .ok blocks) :
    blocks.map Block.hash = events.filterMap ChainEvent.disconnected? := by
  obtain ⟨rfl, hlength⟩ := h.events.eventsAfter_eq hevents
  rw [← h.disconnects.derived_after_mark hlength]
  rw [(recoveryDisconnectedBlocks_ok_iff.mp hblocks).2, List.filter_map, List.map_map, List.map_map]
  rfl

/-! ## What happened since a state -/

/-- Some event connects the block with the hash. -/
def ConnectedIn (events : List ChainEvent) (hash : Hash256) : Prop :=
  ∃ height count, ChainEvent.blockConnected height hash count ∈ events

/-- The recent events account for the active blocks: a block that is active or
was disconnected was active before or connected by one of the events. -/
def AccountedFor (chain₀ chain : Chain) : Prop :=
  ∃ recent, chain.eventJournal.pushed = chain₀.eventJournal.pushed ++ recent ∧
    (∀ b ∈ chain.blocks, b ∈ chain₀.blocks ∨ ConnectedIn recent b.hash) ∧
    ∀ height hash, .blockDisconnected height hash ∈ recent →
      (∃ b ∈ chain₀.blocks, b.hash = hash) ∨ ConnectedIn recent hash

omit [Crypto] [Features] in
theorem ConnectedIn.append {events : List ChainEvent} {hash : Hash256}
    (h : ConnectedIn events hash) (more : List ChainEvent) : ConnectedIn (events ++ more) hash := by
  obtain ⟨height, count, hmem⟩ := h
  exact ⟨height, count, List.mem_append_left _ hmem⟩

omit [Features] in
/-- More events account for as much, as long as new disconnections are accounted for. -/
theorem AccountedFor.append {chain₀ chain' : Chain} (h : AccountedFor chain₀ chain)
    (more : List ChainEvent)
    (hpushed : chain'.eventJournal.pushed = chain.eventJournal.pushed ++ more)
    (hblocks : ∀ b ∈ chain'.blocks, b ∈ chain.blocks ∨ ConnectedIn more b.hash)
    (hmore : ∀ height hash, .blockDisconnected height hash ∈ more →
      (∃ b ∈ chain.blocks, b.hash = hash)) : AccountedFor chain₀ chain' := by
  obtain ⟨recent, hrecent, hactive, hgone⟩ := h
  refine ⟨recent ++ more, by rw [hpushed, hrecent, List.append_assoc], ?_, ?_⟩
  · intro b hb
    rcases hblocks b hb with hold | ⟨height, count, hnew⟩
    · exact (hactive b hold).imp_right fun h ↦ h.append more
    · exact Or.inr ⟨height, count, List.mem_append_right _ hnew⟩
  · intro height hash hmem
    rcases List.mem_append.mp hmem with hold | hnew
    · exact (hgone height hash hold).imp_right fun h ↦ h.append more
    · obtain ⟨b, hb, rfl⟩ := hmore height hash hnew
      rcases hactive b hb with hfirst | hconnected
      · exact Or.inl ⟨b, hfirst, rfl⟩
      · exact Or.inr (hconnected.append more)

theorem accountedFor_kept (chain₀ : Chain) : KeptByUpdates genesis (AccountedFor chain₀) where
  push chain block work _ _ _ hc := by
    refine hc.append [_] rfl ?_ (by simp)
    intro b hb
    rcases List.mem_append.mp hb with hold | hnew
    · exact Or.inl hold
    · obtain rfl := List.mem_singleton.mp hnew
      exact Or.inr ⟨_, _, List.mem_singleton_self _⟩
  pop chain keep tip _ hblocks _ hc := by
    apply hc.append [_] rfl (fun b hb ↦ Or.inl (List.mem_of_mem_dropLast hb))
    intro height hash hmem
    obtain ⟨-, rfl⟩ := ChainEvent.blockDisconnected.inj (List.mem_singleton.mp hmem)
    exact ⟨tip, by simp [hblocks], rfl⟩
  store _ _ _ _ _ hc := hc
  restore chain failed hpre hc hfailed := by
    obtain ⟨recent, hrecent, hactive, -⟩ := hc
    obtain ⟨recent', hrecent', -, hgone⟩ := hfailed
    obtain ⟨more, hmore⟩ := hpre
    obtain rfl : recent' = recent ++ more := by
      rw [← hmore, hrecent, List.append_assoc] at hrecent'
      exact (List.append_cancel_left hrecent').symm
    exact ⟨_, hrecent', fun b hb ↦ (hactive b hb).imp_right fun h ↦ h.append more, hgone⟩
  event chain event hmove hc := by
    refine hc.append [event] rfl (fun b hb ↦ Or.inl hb) ?_
    intro height hash hmem
    rw [← List.mem_singleton.mp hmem] at hmove
    cases hmove
  same chain chain' hsame hc := by
    obtain ⟨recent, hrecent, hactive, hgone⟩ := hc
    exact ⟨recent, by rw [hsame.events, hrecent], by rwa [hsame.blocks], hgone⟩

theorem Continues.accountedFor {chain₀ : Chain} (hrun : Continues chain₀ chain)
    (h : Reachable genesis chain₀) : AccountedFor chain₀ chain :=
  (accountedFor_kept chain₀).continues (fun _ _ hc ↦ hc) hrun h
    ⟨[], (List.append_nil _).symm, fun b hb ↦ Or.inl hb, by simp⟩

end Chain

end Bitrst
