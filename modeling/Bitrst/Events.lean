import Bitrst.Block

/-!
# Chain events and the bounded journals

`chain_events.rs`, `chain_event_journal.rs` and `disconnected_block_journal.rs`.
Sequence numbers are natural numbers.  The event journal also carries `pushed`,
every event ever pushed: nothing reads it, it only makes the whole stream
available to statements about runs.
-/

namespace Bitrst

inductive EvictionReason
  | poolFull
  deriving DecidableEq

inductive ChainEvent
  | blockConnected (height : ℕ) (hash : Hash256) (txCount : ℕ)
  | blockDisconnected (height : ℕ) (hash : Hash256)
  | chainReorg (depth : ℕ) (oldTip newTip : Hash256)
  | orphanAdded (hash : Hash256) (poolSize : ℕ)
  | orphanEvicted (hash : Hash256) (reason : EvictionReason)
  deriving DecidableEq

def defaultChainEventJournalCapacity : ℕ := 256

def defaultDisconnectedBlockJournalCapacity : ℕ := defaultChainEventJournalCapacity

/-! ## Event journal -/

structure EventEntry where
  seq : ℕ
  event : ChainEvent
  deriving DecidableEq

structure ChainEventCursorError where
  cursorSeq : ℕ
  oldestAvailable : ℕ
  deriving DecidableEq

structure ChainEventJournal where
  nextSeq : ℕ
  entries : List EventEntry
  capacity : ℕ
  walletHighWater : ℕ
  /-- Ghost: the whole stream. -/
  pushed : List ChainEvent

namespace ChainEventJournal

def withCapacity (capacity : ℕ) : ChainEventJournal where
  nextSeq := 1
  entries := []
  capacity := max capacity 1
  walletHighWater := 0
  pushed := []

/-- The entry at the front is dropped when the journal is full. -/
def push (journal : ChainEventJournal) (event : ChainEvent) : ChainEventJournal :=
  let retained :=
    if journal.capacity ≤ journal.entries.length then journal.entries.drop 1
    else journal.entries
  { journal with
    nextSeq := journal.nextSeq + 1
    entries := retained ++ [⟨journal.nextSeq, event⟩]
    pushed := journal.pushed ++ [event] }

def oldestSeq (journal : ChainEventJournal) : Option ℕ := journal.entries.head?.map EventEntry.seq

def latestSeq (journal : ChainEventJournal) : ℕ :=
  (journal.entries.getLast?.map EventEntry.seq).getD 0

/-- The events after `since`, or the error of a consumer that fell behind. -/
def eventsAfter (journal : ChainEventJournal) (since : ℕ) :
    Except ChainEventCursorError (List ChainEvent) :=
  match journal.oldestSeq with
  | some oldest =>
      if since < oldest - 1 then .error ⟨since, oldest⟩
      else .ok ((journal.entries.filter fun entry ↦ since < entry.seq).map EventEntry.event)
  | none => .ok []

def takeEvents (journal : ChainEventJournal) :
    Except ChainEventCursorError (List ChainEvent) × ChainEventJournal :=
  match journal.eventsAfter journal.walletHighWater with
  | .error e => (.error e, journal)
  | .ok events =>
      match journal.entries.getLast? with
      | some last => (.ok events, { journal with walletHighWater := last.seq })
      | none => (.ok events, journal)

@[simp] theorem push_pushed (journal : ChainEventJournal) (event : ChainEvent) :
    (journal.push event).pushed = journal.pushed ++ [event] := rfl

@[simp] theorem push_nextSeq (journal : ChainEventJournal) (event : ChainEvent) :
    (journal.push event).nextSeq = journal.nextSeq + 1 := rfl

@[simp] theorem push_walletHighWater (journal : ChainEventJournal) (event : ChainEvent) :
    (journal.push event).walletHighWater = journal.walletHighWater := rfl

end ChainEventJournal

/-! ## Disconnected-block journal -/

structure DisconnectedEntry where
  eventSeq : ℕ
  block : Block

structure DisconnectedBlockRecoveryError where
  cursorSeq : ℕ
  oldestAvailable : ℕ
  deriving DecidableEq

structure DisconnectedBlockJournal where
  entries : List DisconnectedEntry
  capacity : ℕ

namespace DisconnectedBlockJournal

def withCapacity (capacity : ℕ) : DisconnectedBlockJournal where
  entries := []
  capacity := max capacity 1

def record (journal : DisconnectedBlockJournal) (eventSeq : ℕ) (block : Block) :
    DisconnectedBlockJournal :=
  let retained :=
    if journal.capacity ≤ journal.entries.length then journal.entries.drop 1
    else journal.entries
  { journal with entries := retained ++ [⟨eventSeq, block⟩] }

def blocksSince (journal : DisconnectedBlockJournal) (sinceEventSeq : ℕ) :
    Except DisconnectedBlockRecoveryError (List Block) :=
  let retained :=
    (journal.entries.filter fun entry ↦ sinceEventSeq < entry.eventSeq).map
      DisconnectedEntry.block
  match journal.entries.head? with
  | some oldest =>
      if sinceEventSeq < oldest.eventSeq - 1 then .error ⟨sinceEventSeq, oldest.eventSeq⟩
      else .ok retained
  | none => .ok retained

end DisconnectedBlockJournal

end Bitrst
