import Bitrst.ChainCoherence
import Bitrst.Relay

/-!
# The event cursor of a peer

`sync_mempool` moves the cursor of a peer under one lock and changes the pool
under later ones.  When a change of the pool fails after the cursor has moved,
the events between are never seen by the pool, and the module says exactly when
this happens.
-/

namespace Bitrst

open Support

/-! ## What the collection does to the cursor -/

namespace ChainEventJournal

variable {journal : ChainEventJournal}

theorem collectEvents_error {cursor moved : ChainEventCursor} {e : ChainEventCursorError}
    (h : journal.collectEvents cursor = (.error e, moved)) : moved = cursor := by
  unfold collectEvents at h
  split at h
  · exact (Prod.mk.inj h).2.symm
  · split at h <;> cases (Prod.mk.inj h).1

/-- A reader that is handed something is moved, and one that is handed nothing is not. -/
theorem collectEvents_moves {cursor moved : ChainEventCursor} {events : List ChainEvent}
    (h : journal.collectEvents cursor = (.ok events, moved)) : moved = cursor ↔ events = [] := by
  have hevents : journal.eventsAfter cursor.lastSeq = .ok events := by
    rw [← collectEvents_fst, h]
  unfold collectEvents at h
  rw [hevents] at h
  simp only at h
  split at h
  · rename_i last hfound
    obtain ⟨-, rfl⟩ := Prod.mk.inj h
    have hlate : cursor.lastSeq < last.seq := by
      simpa using List.find?_some hfound
    have hentry : last ∈ journal.entries := List.mem_reverse.mp (List.mem_of_find?_eq_some hfound)
    refine iff_of_false (fun heq ↦ ?_) fun hnone ↦ ?_
    · exact hlate.ne (congrArg ChainEventCursor.lastSeq heq).symm
    · unfold eventsAfter at hevents
      split at hevents
      · split at hevents
        · cases hevents
        have hmem : last.event ∈ events := by
          rw [← Except.ok.inj hevents]
          exact List.mem_map_of_mem (List.mem_filter.mpr ⟨hentry, decide_eq_true hlate⟩)
        rw [hnone] at hmem
        cases hmem
      · rename_i hempty
        rw [oldestSeq, Option.map_eq_none_iff, List.head?_eq_none_iff] at hempty
        rw [hempty] at hentry
        cases hentry
  · rename_i hnone
    obtain ⟨-, rfl⟩ := Prod.mk.inj h
    refine iff_of_true rfl (List.eq_nil_iff_forall_not_mem.mpr fun event hevent ↦ ?_)
    obtain ⟨entry, hentry, hlate⟩ := eventsAfter_mem hevents hevent
    have hsmall := List.find?_eq_none.mp hnone entry (List.mem_reverse.mpr hentry)
    exact hsmall (decide_eq_true hlate)

end ChainEventJournal

open ChainEventJournal

/-! ## One call -/

section

variable [Crypto] {relay : PeerRelayState} {node : Node}

/-- The next change of the pool meets a poisoned lock. -/
def Node.Unavailable (node : Node) : Prop :=
  node.lock.shared.chain.poisoned ∨ node.lock.lockInner.shared.mempool.poisoned

/-- A change of the pool under the lock of the chain, as `sync_mempool` makes it. -/
def changePool (relay : PeerRelayState)
    (change : Chain → Mempool → Except MempoolHandleError Unit × Mempool) (node : Node) :
    Handled Unit :=
  match ChainHandle.withChain node fun active node ↦
      MempoolHandle.write node (change active) with
  | (.ok (.ok ()), node) => (.ok (), relay, node)
  | (.ok (.error e), node) => (.error (.mempool e), relay, node)
  | (.error e, node) => (.error (.chain e), relay, node)

variable (relay) (change : Chain → Mempool → Except MempoolHandleError Unit × Mempool)

omit [Crypto] in
theorem changePool_relay (node : Node) : (changePool relay change node).2.1 = relay := by
  unfold changePool
  split <;> rfl

omit [Crypto] in
theorem changePool_unavailable (h : node.Unavailable) :
    ∃ e, (changePool relay change node).1 = .error e := by
  unfold changePool ChainHandle.withChain MempoolHandle.write
  cases hchain : node.lock.shared.chain.poisoned with
  | true => exact ⟨.chain .lockPoisoned, by simp [hchain]⟩
  | false =>
      obtain hpool : node.lock.lockInner.shared.mempool.poisoned = true :=
        h.resolve_left (by simp [hchain])
      exact ⟨.mempool .lockPoisoned, by simp [hchain, hpool]⟩

omit [Crypto] in
theorem changePool_available (h : ¬ node.Unavailable) :
    changePool relay change node =
      match change node.lock.chain node.lock.lockInner.mempool with
      | (.ok (), pool) => (.ok (), relay, node.lock.lockInner.setMempool pool)
      | (.error e, pool) => (.error (.mempool e), relay, node.lock.lockInner.setMempool pool) := by
  obtain ⟨hchain, hpool⟩ := not_or.mp h
  rw [Bool.not_eq_true] at hchain hpool
  simp only [changePool, ChainHandle.withChain, MempoolHandle.write, hchain, hpool,
    Bool.false_eq_true, if_false]
  cases change node.lock.chain node.lock.lockInner.mempool with
  | mk result pool => cases result <;> rfl

/-- The change for events that were collected. -/
def replay (events : List ChainEvent) (active : Chain) (pool : Mempool) :
    Except MempoolHandleError Unit × Mempool :=
  (.ok (), pool.applyChainEvents events active)

/-- The change for a cursor that has fallen behind the journal. -/
def resync (sinceSeq : ℕ) (active : Chain) (pool : Mempool) :
    Except MempoolHandleError Unit × Mempool :=
  match pool.resyncToActiveChain active sinceSeq with
  | (.ok (), pool) => (.ok (), pool)
  | (.error e, pool) => (.error (.resync e), pool)

variable (node)

theorem syncMempool_poisoned (h : node.lock.shared.chain.poisoned = true) :
    syncMempool relay node = (.error (.chain .lockPoisoned), relay, node.lock) := by
  simp [syncMempool, ChainHandle.collectEvents, h]

theorem syncMempool_collected (h : node.lock.shared.chain.poisoned = false)
    {events : List ChainEvent} {cursor : ChainEventCursor}
    (hcollected : node.lock.chain.eventJournal.collectEvents relay.chainEvents =
      (.ok events, cursor)) :
    syncMempool relay node =
      if events = [] then (.ok (), { relay with chainEvents := cursor }, node.lock)
      else changePool { relay with chainEvents := cursor } (replay events) node.lock := by
  simp only [syncMempool, ChainHandle.collectEvents, h, hcollected, Bool.false_eq_true, if_false,
    List.isEmpty_iff]
  rfl

theorem syncMempool_lagging (h : node.lock.shared.chain.poisoned = false)
    {e : ChainEventCursorError} {cursor : ChainEventCursor}
    (hlags : node.lock.chain.eventJournal.collectEvents relay.chainEvents = (.error e, cursor)) :
    syncMempool relay node =
      if node.lock.lock.shared.chain.poisoned then
        (.error (.chain .lockPoisoned), relay, node.lock.lock)
      else
        changePool { relay with chainEvents := node.lock.lock.chain.eventJournal.eventCursor }
          (resync relay.chainEvents.lastSeq) node.lock.lock := by
  obtain rfl := collectEvents_error hlags
  cases hread : node.lock.lock.shared.chain.poisoned with
  | true => simp [syncMempool, ChainHandle.collectEvents, ChainHandle.eventCursor,
      ChainHandle.read, h, hlags, hread]
  | false =>
      simp only [syncMempool, ChainHandle.collectEvents, ChainHandle.eventCursor,
        ChainHandle.read, h, hlags, hread, Bool.false_eq_true, if_false]
      rfl

/-! ## When a failed change is remembered -/

/-- The pool has taken in every event from one position of the cursor to
another: the events that the journal handed out were applied to it, or it was
reconciled with a chain that was read no sooner than the new position. -/
inductive CaughtUp (node : Node) (since : ChainEventCursor) : ChainEventCursor → Mempool → Prop
  | replayed {events : List ChainEvent} {cursor : ChainEventCursor}
      (collected : node.lock.chain.eventJournal.collectEvents since = (.ok events, cursor)) :
      CaughtUp node since cursor
        (node.lock.lock.lockInner.mempool.applyChainEvents events node.lock.lock.chain)
  | resynced {pool : Mempool}
      (synced : node.lock.lock.lock.lockInner.mempool.resyncToActiveChain
        node.lock.lock.lock.chain since.lastSeq = (.ok (), pool)) :
      CaughtUp node since node.lock.lock.chain.eventJournal.eventCursor pool

/-- A call that fails leaves the cursor, and one that moves it has brought the
pool to the new position. -/
structure Remembered (node : Node) (since : ChainEventCursor) (outcome : Handled Unit) : Prop where
  failed : ∀ e, outcome.1 = .error e → outcome.2.1.chainEvents = since
  moved : outcome.2.1.chainEvents ≠ since →
    CaughtUp node since outcome.2.1.chainEvents outcome.2.2.mempool

/-- The cursor moves and the change of the pool cannot be made. -/
inductive Loses (cursor : ChainEventCursor) (node : Node) : Prop
  | replay {events : List ChainEvent} {moved : ChainEventCursor}
      (unpoisoned : node.lock.shared.chain.poisoned = false)
      (collected : node.lock.chain.eventJournal.collectEvents cursor = (.ok events, moved))
      (pending : events ≠ []) (unavailable : node.lock.Unavailable)
  | resync {e : ChainEventCursorError} {kept : ChainEventCursor}
      (unpoisoned : node.lock.shared.chain.poisoned = false)
      (lags : node.lock.chain.eventJournal.collectEvents cursor = (.error e, kept))
      (read : node.lock.lock.shared.chain.poisoned = false)
      (moves : node.lock.lock.chain.eventJournal.eventCursor ≠ cursor)
      (fails : node.lock.lock.Unavailable ∨
        ¬ node.lock.lock.lock.chain.RecoversFrom cursor.lastSeq)

section

variable {since : ChainEventCursor} {relay}

theorem Remembered.of_unmoved {outcome : Handled Unit}
    (h : outcome.2.1.chainEvents = since) : Remembered node since outcome :=
  ⟨fun _ _ ↦ h, fun hmoved ↦ (hmoved h).elim⟩

/-- Once the cursor has moved, the call is remembered just when the pool is changed. -/
theorem changePool_remembered_iff {at₁ : Node} (hmoved : relay.chainEvents ≠ since)
    (hcaught : ∀ pool, change at₁.lock.chain at₁.lock.lockInner.mempool = (.ok (), pool) →
      CaughtUp node since relay.chainEvents pool) :
    Remembered node since (changePool relay change at₁) ↔
      ¬ at₁.Unavailable ∧ (change at₁.lock.chain at₁.lock.lockInner.mempool).1 = .ok () := by
  by_cases hlocks : at₁.Unavailable
  · refine iff_of_false (fun h ↦ ?_) fun h ↦ h.1 hlocks
    obtain ⟨e, he⟩ := changePool_unavailable relay change hlocks
    have hkept := h.failed e he
    rw [changePool_relay] at hkept
    exact hmoved hkept
  · rw [and_iff_right hlocks, changePool_available relay change hlocks]
    cases hchange : change at₁.lock.chain at₁.lock.lockInner.mempool with
    | mk result pool =>
      cases result with
      | error e => exact iff_of_false (fun h ↦ hmoved (h.failed _ rfl)) (by simp)
      | ok done =>
          refine iff_of_true ⟨fun e he ↦ ?_, fun _ ↦ hcaught pool hchange⟩ rfl
          cases he

/-- The reconciliation succeeds exactly while the record of disconnections reaches back. -/
theorem resync_ok_iff (sinceSeq : ℕ) (active : Chain) (pool : Mempool) :
    (resync sinceSeq active pool).1 = .ok () ↔ active.RecoversFrom sinceSeq := by
  cases hrecovered : active.recoveryDisconnectedBlocks sinceSeq with
  | error e =>
      simp only [resync, Mempool.resyncToActiveChain, hrecovered]
      refine iff_of_false (by simp) fun hrecovers ↦ ?_
      have hok := Chain.recoveryDisconnectedBlocks_ok_iff.mpr ⟨hrecovers, rfl⟩
      rw [hrecovered] at hok
      cases hok
  | ok blocks =>
      simp only [resync, Mempool.resyncToActiveChain, hrecovered]
      exact iff_of_true trivial (Chain.recoveryDisconnectedBlocks_ok_iff.mp hrecovered).1

theorem resync_eq_ok {sinceSeq : ℕ} {active : Chain} {pool resynced : Mempool}
    (h : resync sinceSeq active pool = (.ok (), resynced)) :
    pool.resyncToActiveChain active sinceSeq = (.ok (), resynced) := by
  unfold resync at h
  split at h
  · rename_i hsynced
    rw [hsynced, (Prod.mk.inj h).2]
  · cases (Prod.mk.inj h).1

omit [Crypto] in
theorem loses_of_collected (hfirst : node.lock.shared.chain.poisoned = false)
    {events : List ChainEvent} {cursor : ChainEventCursor}
    (hcollected : node.lock.chain.eventJournal.collectEvents since = (.ok events, cursor)) :
    Loses since node ↔ events ≠ [] ∧ node.lock.Unavailable := by
  constructor
  · rintro (⟨-, hsame, hpending, hlocks⟩ | ⟨-, hlags, -, -, -⟩)
    · rw [hcollected] at hsame
      cases hsame
      exact ⟨hpending, hlocks⟩
    · rw [hcollected] at hlags
      cases hlags
  · exact fun ⟨hpending, hlocks⟩ ↦ .replay hfirst hcollected hpending hlocks

omit [Crypto] in
theorem loses_of_lagging (hfirst : node.lock.shared.chain.poisoned = false)
    {e : ChainEventCursorError} {cursor : ChainEventCursor}
    (hlags : node.lock.chain.eventJournal.collectEvents since = (.error e, cursor)) :
    Loses since node ↔ node.lock.lock.shared.chain.poisoned = false ∧
      node.lock.lock.chain.eventJournal.eventCursor ≠ since ∧
      (node.lock.lock.Unavailable ∨ ¬ node.lock.lock.lock.chain.RecoversFrom since.lastSeq) := by
  constructor
  · rintro (⟨-, hcollected, -, -⟩ | ⟨-, -, hread, hmoves, hfails⟩)
    · rw [hlags] at hcollected
      cases hcollected
    · exact ⟨hread, hmoves, hfails⟩
  · exact fun ⟨hread, hmoves, hfails⟩ ↦ .resync hfirst hlags hread hmoves hfails

/-- A synchronisation is remembered unless its cursor moves and the pool stays behind. -/
theorem syncMempool_remembered_iff (relay : PeerRelayState) (node : Node) :
    Remembered node relay.chainEvents (syncMempool relay node) ↔
      ¬ Loses relay.chainEvents node := by
  cases hfirst : node.lock.shared.chain.poisoned with
  | true =>
      rw [syncMempool_poisoned relay node hfirst]
      apply iff_of_true (.of_unmoved node rfl)
      rintro (⟨hopen, -, -, -⟩ | ⟨hopen, -, -, -, -⟩) <;> simp [hfirst] at hopen
  | false =>
    cases hcollected : node.lock.chain.eventJournal.collectEvents relay.chainEvents with
    | mk collected cursor =>
      cases collected with
      | ok events =>
          rw [syncMempool_collected relay node hfirst hcollected,
            loses_of_collected node hfirst hcollected]
          by_cases hnone : events = []
          · rw [if_pos hnone]
            exact iff_of_true (.of_unmoved node ((collectEvents_moves hcollected).mpr hnone))
              fun h ↦ h.1 hnone
          · rw [if_neg hnone, changePool_remembered_iff]
            · simp [hnone, replay]
            · exact fun hkept ↦ hnone ((collectEvents_moves hcollected).mp hkept)
            · intro pool hpool
              obtain rfl := (Prod.mk.inj hpool).2
              exact .replayed hcollected
      | error e =>
          rw [syncMempool_lagging relay node hfirst hcollected,
            loses_of_lagging node hfirst hcollected]
          cases hread : node.lock.lock.shared.chain.poisoned with
          | true => exact iff_of_true (.of_unmoved node rfl) (by simp)
          | false =>
              by_cases hmoves : node.lock.lock.chain.eventJournal.eventCursor = relay.chainEvents
              · refine iff_of_true (.of_unmoved node ?_) fun h ↦ h.2.1 hmoves
                rw [if_neg Bool.false_ne_true, changePool_relay]
                exact hmoves
              · rw [if_neg Bool.false_ne_true, changePool_remembered_iff, resync_ok_iff]
                · simp [hmoves, not_or]
                · exact hmoves
                · exact fun pool hpool ↦ .resynced (resync_eq_ok hpool)

end

end

end Bitrst

/-! ## A reorganisation behind a short journal -/

namespace Bitrst.Sample

open Support

/-- The genesis chain with journals of one entry. -/
def short : Chain :=
  { (Chain.blank 5000 1).pushTip genesis 0 easyWork with totalWork := easyWork }

def shortGrown : Chain := short.extendTip first genesisMeta easyWork

/-- The tip and the heavier branch beside it have run over both journals. -/
def overrun : Chain := switched shortGrown first sideNext

theorem shortGrown_reachable : Chain.Reachable genesis shortGrown := by
  have hcreated : Chain.withJournalCapacities genesis 5000 1 = .ok short :=
    Chain.withJournalCapacities_of_valid (by decide) (by decide +kernel) (by decide +kernel)
      blockWork_easyBits
  have hrun : Chain.Reachable genesis short := .start hcreated
  have hfits : Chain.Fits short first genesisMeta := by decide +kernel
  have hplace : short.place first genesisMeta easyWork =
      (.ok (.connected 1 first.hash), shortGrown) :=
    Chain.place_extended (by decide +kernel)
  have hnext := hrun.place order hrun.coherent.indexed rfl (hfits.admitted blockWork_easyBits)
    (by rw [hplace]; simp [Returned]) trivial
  rwa [hplace] at hnext

theorem overrun_reachable : Chain.Reachable genesis overrun := by
  have hsplits : Splits shortGrown := by decide +kernel
  have hchallenges : Challenges shortGrown first sideNext := by decide +kernel
  exact hchallenges.reachable (hsplits.reachable shortGrown_reachable trivial) (by decide +kernel)
    trivial

/-- A node with one thread. -/
def alone (chain : Chain) : Node :=
  ⟨⟨⟨chain, false⟩, ⟨Mempool.new ⟨10, 1000⟩, false⟩⟩, 0, fun _ shared ↦ shared, fun _ ↦ order⟩

/-- A peer that was at the genesis block is refused, and its cursor is at the end. -/
theorem overrun_forgotten : ¬ ∀ relay node e relay' node', Chain.Reachable genesis node.chain →
    syncMempool relay node = (.error e, relay', node') →
      relay'.chainEvents = relay.chainEvents := by
  intro h
  have hcall : (syncMempool (.withEventCursor ⟨1⟩) (alone overrun)).1.toOption = none ∧
      (syncMempool (.withEventCursor ⟨1⟩) (alone overrun)).2.1.chainEvents = ⟨6⟩ := by
    decide +kernel
  cases hsync : syncMempool (.withEventCursor ⟨1⟩) (alone overrun) with
  | mk result rest =>
    rw [hsync] at hcall
    cases result with
    | ok _ => cases hcall.1
    | error e =>
        have hkept := h _ _ _ _ _ overrun_reachable hsync
        rw [hcall.2] at hkept
        cases hkept

end Bitrst.Sample
