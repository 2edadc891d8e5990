import Bitrst.CursorSync
import Bitrst.Support.Transition

/-!
# The block requests of a peer

A connection handles one message after the other.  The handlers change the
tracker of block requests only by clearing a hash and by marking one, which
bounds the tracker, keeps expired requests from standing beside new ones and
dates every request by the message that asked for it.  Whether the request for
a block is gone when the block has been handled depends on what became of it.
A request that has expired stays until another one is made or it is cleared.
-/

namespace Bitrst

open Support

/-! ## Trackers -/

namespace RequestTracker

variable {tracker : RequestTracker} {hash other : Hash256} {now : ℕ} {request : PendingRequest}

theorem live_lookup : (tracker.live now).pending.lookup hash = some request ↔
    tracker.pending.lookup hash = some request ∧
      now - request.requestedAt < tracker.requestTtl := by
  rw [live, EntryMap.lookup_retain, decide_eq_true_iff]

theorem live_pendingCount_le (tracker : RequestTracker) (now : ℕ) :
    (tracker.live now).pendingCount ≤ tracker.pendingCount := List.length_filter_le _ _

theorem clear_lookup (tracker : RequestTracker) (hash other : Hash256) :
    (tracker.clear hash).pending.lookup other =
      if other = hash then none else tracker.pending.lookup other :=
  EntryMap.lookup_erase_ite _ _ _

theorem clear_pendingCount_le (tracker : RequestTracker) (hash : Hash256) :
    (tracker.clear hash).pendingCount ≤ tracker.pendingCount := by
  have hsub : (tracker.clear hash).pending.entries.Sublist tracker.pending.entries :=
    List.kerase_sublist hash _
  exact hsub.length_le

/-- No request in the tracker has expired. -/
def Unexpired (tracker : RequestTracker) (now : ℕ) : Prop :=
  ∀ hash request, tracker.pending.lookup hash = some request →
    now - request.requestedAt < tracker.requestTtl

theorem live_unexpired (tracker : RequestTracker) (now : ℕ) : (tracker.live now).Unexpired now :=
  fun _ _ hrequest ↦ (live_lookup.mp hrequest).2

theorem clear_unexpired : (tracker.clear hash).Unexpired now ↔
    ∀ other request, other ≠ hash → tracker.pending.lookup other = some request →
      now - request.requestedAt < tracker.requestTtl := by
  constructor
  · intro h other request hne hrequest
    apply h other request
    rwa [clear_lookup, if_neg hne]
  · intro h other request hrequest
    rw [clear_lookup] at hrequest
    split at hrequest
    · cases hrequest
    · exact h other request ‹_› hrequest

/-- A request that is made lives for some time, or none is ever made. -/
def Lasts (tracker : RequestTracker) : Prop :=
  0 < tracker.requestTtl ∨ tracker.maxPending = 0

/-- The request would get a slot. -/
def Free (tracker : RequestTracker) (hash : Hash256) (now : ℕ) : Prop :=
  (tracker.live now).pending.lookup hash = none ∧
    (tracker.live now).pendingCount < tracker.maxPending

theorem markRequested_free (h : tracker.Free hash now) :
    tracker.markRequested hash now =
      (true, { tracker.live now with pending := (tracker.live now).pending.insert hash ⟨now⟩ }) :=
  (if_neg (by simp [h.1])).trans (if_neg (Nat.not_le.mpr h.2))

theorem markRequested_not_free (h : ¬ tracker.Free hash now) :
    tracker.markRequested hash now = (false, tracker.live now) := by
  by_cases hpending : ((tracker.live now).pending.lookup hash).isSome
  · exact if_pos hpending
  · rw [Option.not_isSome_iff_eq_none] at hpending
    have hfull : tracker.maxPending ≤ (tracker.live now).pendingCount :=
      Nat.not_lt.mp fun hroom ↦ h ⟨hpending, hroom⟩
    exact (if_neg (by simp [hpending])).trans (if_pos hfull)

theorem markRequested_maxPending (tracker : RequestTracker) (hash : Hash256) (now : ℕ) :
    (tracker.markRequested hash now).2.maxPending = tracker.maxPending := by
  by_cases hfree : tracker.Free hash now
  · rw [markRequested_free hfree]
    rfl
  · rw [markRequested_not_free hfree]
    rfl

theorem markRequested_requestTtl (tracker : RequestTracker) (hash : Hash256) (now : ℕ) :
    (tracker.markRequested hash now).2.requestTtl = tracker.requestTtl := by
  by_cases hfree : tracker.Free hash now
  · rw [markRequested_free hfree]
    rfl
  · rw [markRequested_not_free hfree]
    rfl

/-- A mark drops what has expired, so that only the request it makes can be too old. -/
theorem markRequested_unexpired :
    (tracker.markRequested hash now).2.Unexpired now ↔ tracker.Lasts := by
  by_cases hfree : tracker.Free hash now
  · have hroom : tracker.maxPending ≠ 0 := ((Nat.zero_le _).trans_lt hfree.2).ne'
    rw [markRequested_free hfree]
    constructor
    · intro h
      have hnew := h hash ⟨now⟩ (AList.lookup_insert _)
      exact .inl ((Nat.zero_le _).trans_lt hnew)
    · rintro (hlives | hnone)
      · intro other request hrequest
        rw [EntryMap.lookup_insert_ite] at hrequest
        split at hrequest
        · obtain rfl := Option.some.inj hrequest
          exact (Nat.sub_self now).trans_lt hlives
        · exact live_unexpired tracker now other request hrequest
      · exact (hroom hnone).elim
  · rw [markRequested_not_free hfree]
    apply iff_of_true (live_unexpired tracker now)
    -- with no time to live nothing is alive, and only the capacity can stand in the way
    refine (Nat.eq_zero_or_pos tracker.requestTtl).symm.imp id fun hzero ↦ ?_
    by_contra hroom
    apply hfree
    constructor
    · refine Option.eq_none_iff_forall_ne_some.mpr fun request hrequest ↦ ?_
      exact absurd (live_lookup.mp hrequest).2 (by simp [hzero])
    · have hempty : (tracker.live now).pendingCount = 0 := by
        simp [live, pendingCount, EntryMap.retain, hzero]
      rw [hempty]
      exact Nat.pos_of_ne_zero hroom

/-- What the tracker of a handler can go through at one time: hashes are cleared,
and those that `asked` allows are marked. -/
inductive Moves (asked : Hash256 → Prop) (now : ℕ) (tracker : RequestTracker) :
    RequestTracker → Prop
  | refl : Moves asked now tracker tracker
  | clear {reached : RequestTracker} (hash : Hash256) (moves : Moves asked now tracker reached) :
      Moves asked now tracker (reached.clear hash)
  | mark {reached : RequestTracker} {hash : Hash256} (moves : Moves asked now tracker reached)
      (allowed : asked hash) : Moves asked now tracker (reached.markRequested hash now).2

/-- A mark removes what has expired and adds at most the request. -/
theorem mark_lookup (h : (tracker.markRequested hash now).2.pending.lookup other = some request) :
    (other = hash ∧ request = ⟨now⟩) ∨
      tracker.pending.lookup other = some request ∧
        now - request.requestedAt < tracker.requestTtl := by
  by_cases hfree : tracker.Free hash now
  · rw [markRequested_free hfree] at h
    rw [EntryMap.lookup_insert_ite] at h
    split at h
    · exact .inl ⟨‹_›, (Option.some.inj h).symm⟩
    · exact .inr (live_lookup.mp h)
  · rw [markRequested_not_free hfree] at h
    exact .inr (live_lookup.mp h)

theorem markRequested_lookup_none :
    (tracker.markRequested hash now).2.pending.lookup other = none ↔
      (tracker.live now).pending.lookup other = none ∧
        ¬ (other = hash ∧ tracker.Free hash now) := by
  by_cases hfree : tracker.Free hash now
  · rw [markRequested_free hfree]
    simp only [EntryMap.lookup_insert_ite, hfree, and_true]
    split <;> simp [*]
  · rw [markRequested_not_free hfree]
    simp [hfree]

/-- A tracker holds no more requests than its capacity, none of them later than
`now`, and none that had expired when another was made. -/
structure Tidy (tracker : RequestTracker) (now : ℕ) : Prop where
  capped : tracker.pendingCount ≤ tracker.maxPending
  past : ∀ hash request, tracker.pending.lookup hash = some request → request.requestedAt ≤ now
  close : ∀ hash other request later, hash ≠ other →
    tracker.pending.lookup hash = some request → tracker.pending.lookup other = some later →
      later.requestedAt - request.requestedAt < tracker.requestTtl

namespace Tidy

theorem new (maxPending requestTtl now : ℕ) :
    (RequestTracker.new maxPending requestTtl).Tidy now where
  capped := Nat.zero_le _
  past := fun _ _ h ↦ nomatch h
  close := fun _ _ _ _ _ h ↦ nomatch h

theorem later (h : tracker.Tidy now) {time : ℕ} (hle : now ≤ time) : tracker.Tidy time where
  capped := h.capped
  past := fun hash request hrequest ↦ (h.past hash request hrequest).trans hle
  close := h.close

theorem clear (h : tracker.Tidy now) (hash : Hash256) : (tracker.clear hash).Tidy now := by
  have hold {other : Hash256} {request : PendingRequest}
      (hrequest : (tracker.clear hash).pending.lookup other = some request) :
      tracker.pending.lookup other = some request := by
    rw [clear_lookup] at hrequest
    split at hrequest
    · cases hrequest
    · exact hrequest
  refine ⟨(clear_pendingCount_le tracker hash).trans h.capped, ?_, ?_⟩
  · exact fun other request hrequest ↦ h.past other request (hold hrequest)
  · exact fun one other request later hne hrequest hlater ↦
      h.close one other request later hne (hold hrequest) (hold hlater)

theorem mark (h : tracker.Tidy now) (hash : Hash256) :
    (tracker.markRequested hash now).2.Tidy now := by
  refine ⟨?_, ?_, ?_⟩
  · by_cases hfree : tracker.Free hash now
    · rw [markRequested_free hfree]
      have hnew : hash ∉ (tracker.live now).pending := AList.lookup_eq_none.mp hfree.1
      have hlength : ((tracker.live now).pending.insert hash ⟨now⟩).entries.length =
          (tracker.live now).pendingCount + 1 := by
        rw [AList.entries_insert_of_notMem hnew, List.length_cons, pendingCount]
      exact hlength.trans_le hfree.2
    · rw [markRequested_not_free hfree]
      exact (live_pendingCount_le tracker now).trans h.capped
  · intro other request hrequest
    rcases mark_lookup hrequest with ⟨-, rfl⟩ | ⟨hold, -⟩
    · exact le_rfl
    · exact h.past other request hold
  · intro one other request later hne hrequest hlater
    rw [markRequested_requestTtl]
    rcases mark_lookup hrequest with ⟨hone, rfl⟩ | ⟨hold, hfresh⟩
    · rcases mark_lookup hlater with ⟨hother, -⟩ | ⟨hold, hfresh⟩
      · exact (hne (hone.trans hother.symm)).elim
      · -- the older one is alive, so that requests do live for some time
        have hpast := h.past other later hold
        have hgone : later.requestedAt - now = 0 := Nat.sub_eq_zero_of_le hpast
        exact hgone.trans_lt ((Nat.zero_le _).trans_lt hfresh)
    · rcases mark_lookup hlater with ⟨-, rfl⟩ | ⟨hold', -⟩
      · exact hfresh
      · exact h.close one other request later hne hold hold'

end Tidy

namespace Moves

variable {asked : Hash256 → Prop} {reached : RequestTracker}

theorem trans (h : Moves asked now tracker reached) {final : RequestTracker}
    (hnext : Moves asked now reached final) : Moves asked now tracker final := by
  induction hnext with
  | refl => exact h
  | clear hash _ ih => exact ih.clear hash
  | mark _ allowed ih => exact ih.mark allowed

theorem mono (h : Moves asked now tracker reached) {allowed : Hash256 → Prop}
    (hasked : ∀ hash, asked hash → allowed hash) : Moves allowed now tracker reached := by
  induction h with
  | refl => exact .refl
  | clear hash _ ih => exact ih.clear hash
  | mark _ hash ih => exact ih.mark (hasked _ hash)

theorem limits (h : Moves asked now tracker reached) :
    reached.maxPending = tracker.maxPending ∧ reached.requestTtl = tracker.requestTtl := by
  induction h with
  | refl => exact ⟨rfl, rfl⟩
  | clear _ _ ih => exact ih
  | mark _ _ ih => rwa [markRequested_maxPending, markRequested_requestTtl]

theorem tidy (h : Moves asked now tracker reached) (htidy : tracker.Tidy now) :
    reached.Tidy now := by
  induction h with
  | refl => exact htidy
  | clear hash _ ih => exact ih.clear hash
  | mark _ _ ih => exact ih.mark _

/-- A request in the tracker was there before or has just been asked for. -/
theorem lookup (h : Moves asked now tracker reached)
    (hrequest : reached.pending.lookup hash = some request) :
    tracker.pending.lookup hash = some request ∨ request = ⟨now⟩ ∧ asked hash := by
  induction h with
  | refl => exact .inl hrequest
  | clear cleared _ ih =>
      rw [clear_lookup] at hrequest
      split at hrequest
      · cases hrequest
      · exact ih hrequest
  | mark _ allowed ih =>
      rcases mark_lookup hrequest with ⟨rfl, rfl⟩ | ⟨hold, -⟩
      · exact .inr ⟨rfl, allowed⟩
      · exact ih hold

end Moves

end RequestTracker

/-! ## Handlers -/

/-- The message makes its receiver ask for a block. -/
def MessagePayload.AsksFor : MessagePayload → Hash256 → Prop
  | .inv items, hash => ⟨.block, hash⟩ ∈ items
  | .block b, hash => b.header.prevBlockhash = hash
  | _, _ => False

section

variable [Crypto] {relay : PeerRelayState} {node : Node}

open RequestTracker

theorem syncMempool_blockRequests (relay : PeerRelayState) (node : Node) :
    (syncMempool relay node).2.1.blockRequests = relay.blockRequests := by
  unfold syncMempool
  split
  · dsimp only
    split
    · rfl
    · split <;> rfl
  · split
    · rfl
    · dsimp only
      split <;> rfl
  · rfl

theorem handleTx_blockRequests (relay : PeerRelayState) (tx : Transaction) (node : Node) :
    (handleTx relay tx node).2.1.blockRequests = relay.blockRequests := by
  unfold handleTx
  dsimp only
  split <;> rfl

omit [Crypto] in
theorem requestMissingBlock_blockRequests (relay : PeerRelayState) (hash : Hash256) (now : ℕ)
    (node : Node) : (requestMissingBlock relay hash now node).2.1.blockRequests =
      if (ChainHandle.hasBlock hash node).1 = .ok false then
        (relay.blockRequests.markRequested hash now).2
      else relay.blockRequests := by
  unfold requestMissingBlock
  split
  · rename_i hread
    simp [hread]
  · rename_i hread
    simp [hread]
  · rename_i hread
    rw [if_pos (by rw [hread])]
    dsimp only
    split <;> rfl

omit [Crypto] in
theorem requestUnknown_moves (now : ℕ) (items requests : List InventoryVector)
    (relay : PeerRelayState) (node : Node) :
    Moves (⟨.block, ·⟩ ∈ items) now relay.blockRequests
      (requestUnknown now items requests relay node).2.1.blockRequests := by
  induction items generalizing requests relay node with
  | nil => exact .refl
  | cons item items ih =>
      have hrest (requests : List InventoryVector) (relay : PeerRelayState) (node : Node) :=
        (ih requests relay node).mono fun _ ↦ List.mem_cons_of_mem item
      obtain ⟨invType, hash⟩ := item
      unfold requestUnknown
      cases invType with
      | filteredBlock => exact hrest _ _ _
      | transaction =>
          dsimp only
          split
          · exact .refl
          · exact hrest _ _ _
          · exact hrest _ { relay with txRequests := (relay.txRequests.markRequested hash now).2 } _
      | block =>
          dsimp only
          split
          · exact .refl
          · exact hrest _ _ _
          · have hmark : Moves (⟨.block, ·⟩ ∈ (⟨.block, hash⟩ :: items : List InventoryVector)) now
                relay.blockRequests (relay.blockRequests.markRequested hash now).2 :=
              .mark .refl List.mem_cons_self
            exact hmark.trans (hrest _ { relay with
              blockRequests := (relay.blockRequests.markRequested hash now).2 } _)

omit [Crypto] in
/-- The loop of `handle_inv` gets to a block that the chain does not know. -/
def meetsUnknownBlock : List InventoryVector → Node → Bool
  | [], _ => false
  | item :: items, node =>
      match item.invType with
      | .block =>
          match ChainHandle.hasBlock item.hash node with
          | (.error _, _) => false
          | (.ok true, node) => meetsUnknownBlock items node
          | (.ok false, _) => true
      | .transaction =>
          match MempoolHandle.contains item.hash node with
          | (.error _, _) => false
          | (.ok _, node) => meetsUnknownBlock items node
      | .filteredBlock => meetsUnknownBlock items node

omit [Crypto] in
theorem requestUnknown_unexpired (now : ℕ) (items requests : List InventoryVector)
    (relay : PeerRelayState) (node : Node) :
    (requestUnknown now items requests relay node).2.1.blockRequests.Unexpired now ↔
      if meetsUnknownBlock items node then relay.blockRequests.Lasts
      else relay.blockRequests.Unexpired now := by
  induction items generalizing requests relay node with
  | nil => exact Iff.rfl
  | cons item items ih =>
      obtain ⟨invType, hash⟩ := item
      unfold requestUnknown meetsUnknownBlock
      cases invType with
      | filteredBlock => exact ih _ _ _
      | transaction =>
          cases hread : MempoolHandle.contains hash node with
          | mk answer reached =>
            cases answer with
            | error _ => exact Iff.rfl
            | ok known =>
              cases known with
              | true => exact ih _ _ _
              | false =>
                  exact ih _ { relay with
                    txRequests := (relay.txRequests.markRequested hash now).2 } _
      | block =>
          cases hread : ChainHandle.hasBlock hash node with
          | mk answer reached =>
            cases answer with
            | error _ => exact Iff.rfl
            | ok known =>
              cases known with
              | true => exact ih _ _ _
              | false =>
                  -- later marks change nothing, as this one has dropped what is too old
                  have hmark : (relay.blockRequests.markRequested hash now).2.Unexpired now ↔
                    relay.blockRequests.Lasts := markRequested_unexpired
                  have hlasts : (relay.blockRequests.markRequested hash now).2.Lasts ↔
                      relay.blockRequests.Lasts := by
                    rw [Lasts, Lasts, markRequested_maxPending, markRequested_requestTtl]
                  refine (ih _ { relay with
                    blockRequests := (relay.blockRequests.markRequested hash now).2 } _).trans ?_
                  dsimp only
                  rw [if_pos rfl]
                  split
                  · exact hlasts
                  · exact hmark

omit [Crypto] in
theorem handleInv_blockRequests (relay : PeerRelayState) (items : List InventoryVector) (now : ℕ)
    (node : Node) : (handleInv relay items now node).2.1.blockRequests =
      (requestUnknown now items [] relay node).2.1.blockRequests := by
  unfold handleInv
  split <;> simp only [*]

omit [Crypto] in
theorem handleInv_moves (relay : PeerRelayState) (items : List InventoryVector) (now : ℕ)
    (node : Node) : Moves (⟨.block, ·⟩ ∈ items) now relay.blockRequests
      (handleInv relay items now node).2.1.blockRequests := by
  rw [handleInv_blockRequests]
  exact requestUnknown_moves now items [] relay node

variable [Features]

/-- The tracker after a block, by what became of the block. -/
theorem handleBlock_blockRequests (relay : PeerRelayState) (block : Block) (now : ℕ)
    (node : Node) : (handleBlock relay block now node).2.1.blockRequests =
      match ChainHandle.connectBlock block node with
      | (.ok (.connected _ _), _) | (.ok (.reorganized _ _), _) =>
          relay.blockRequests.clear block.hash
      | (.ok (.orphaned _), node) =>
          (requestMissingBlock relay block.header.prevBlockhash now node).2.1.blockRequests
      | (.ok (.sideChain _ _), _) | (.error (.chain (.error .blockAlreadyKnown)), _) =>
          relay.blockRequests
      | (.error _, _) =>
          (relay.blockRequests.clear block.hash).clear block.header.prevBlockhash := by
  have hsync (node : Node) := syncMempool_blockRequests
    { relay with blockRequests := relay.blockRequests.clear block.hash } node
  unfold handleBlock
  cases ChainHandle.connectBlock block node with
  | mk answer reached =>
    cases answer with
    | error e => split <;> simp_all
    | ok result =>
      cases result with
      | orphaned _ => rfl
      | sideChain _ _ => rfl
      | connected _ _ =>
          refine Eq.trans ?_ (hsync reached)
          dsimp only
          split <;> simp only [*]
      | reorganized _ _ =>
          refine Eq.trans ?_ (hsync reached)
          dsimp only
          split <;> simp only [*]

theorem handleBlock_moves (relay : PeerRelayState) (block : Block) (now : ℕ) (node : Node) :
    Moves (block.header.prevBlockhash = ·) now relay.blockRequests
      (handleBlock relay block now node).2.1.blockRequests := by
  have hclear : Moves (block.header.prevBlockhash = ·) now relay.blockRequests
    (relay.blockRequests.clear block.hash) := .clear _ .refl
  rw [handleBlock_blockRequests]
  split
  · exact hclear
  · exact hclear
  · rw [requestMissingBlock_blockRequests]
    split
    · exact .mark .refl rfl
    · exact .refl
  · exact .refl
  · exact .refl
  · exact .clear _ hclear

theorem handlePeerMessage_moves (relay : PeerRelayState) (message : Message) (now : ℕ)
    (node : Node) : Moves message.payload.AsksFor now relay.blockRequests
      (handlePeerMessage relay message now node).2.1.blockRequests := by
  obtain ⟨command, payload⟩ := message
  cases payload with
  | verack => exact .refl
  | version _ => exact .refl
  | getData _ => exact .refl
  | inv items => exact handleInv_moves relay items now node
  | block block => exact handleBlock_moves relay block now node
  | tx tx =>
      have hsame : (handlePeerMessage relay ⟨command, .tx tx⟩ now node).2.1.blockRequests =
          relay.blockRequests := handleTx_blockRequests relay tx node
      rw [hsame]
      exact .refl

/-- A block that is handled has no request left: the answer of the chain is one
for which its request is cleared, or there is none to clear.  An orphan keeps
its own request, unless that has expired when its parent is asked for. -/
def SlotCleared (tracker : RequestTracker) (block : Block) (now : ℕ) (node : Node) : Prop :=
  match ChainHandle.connectBlock block node with
  | (.ok (.connected _ _), _) | (.ok (.reorganized _ _), _) => True
  | (.ok (.orphaned _), node) =>
      if (ChainHandle.hasBlock block.header.prevBlockhash node).1 = .ok false then
        (tracker.live now).pending.lookup block.hash = none ∧
          ¬ (block.hash = block.header.prevBlockhash ∧
            tracker.Free block.header.prevBlockhash now)
      else tracker.pending.lookup block.hash = none
  | (.ok (.sideChain _ _), _) | (.error (.chain (.error .blockAlreadyKnown)), _) =>
      tracker.pending.lookup block.hash = none
  | (.error _, _) => True

theorem handleBlock_lookup (relay : PeerRelayState) (block : Block) (now : ℕ) (node : Node) :
    (handleBlock relay block now node).2.1.blockRequests.pending.lookup block.hash = none ↔
      SlotCleared relay.blockRequests block now node := by
  have hcleared : (relay.blockRequests.clear block.hash).pending.lookup block.hash = none := by
    rw [clear_lookup, if_pos rfl]
  rw [handleBlock_blockRequests, SlotCleared]
  split
  · exact iff_of_true hcleared trivial
  · exact iff_of_true hcleared trivial
  · rw [requestMissingBlock_blockRequests]
    split
    · exact markRequested_lookup_none
    · exact Iff.rfl
  · exact Iff.rfl
  · exact Iff.rfl
  · refine iff_of_true ?_ trivial
    rw [clear_lookup, hcleared, ite_self]

/-- No request is left that has expired when a message has been handled: the
message makes the tracker look for one more block, or whatever has expired is
cleared for the block that it brings. -/
def Refreshed (tracker : RequestTracker) (message : Message) (now : ℕ) (node : Node) : Prop :=
  match message.payload with
  | .inv items => if meetsUnknownBlock items node then tracker.Lasts else tracker.Unexpired now
  | .block block =>
      match ChainHandle.connectBlock block node with
      | (.ok (.connected _ _), _) | (.ok (.reorganized _ _), _) =>
          ∀ hash request, hash ≠ block.hash → tracker.pending.lookup hash = some request →
            now - request.requestedAt < tracker.requestTtl
      | (.ok (.orphaned _), node) =>
          if (ChainHandle.hasBlock block.header.prevBlockhash node).1 = .ok false then tracker.Lasts
          else tracker.Unexpired now
      | (.ok (.sideChain _ _), _) | (.error (.chain (.error .blockAlreadyKnown)), _) =>
          tracker.Unexpired now
      | (.error _, _) =>
          ∀ hash request, hash ≠ block.hash → hash ≠ block.header.prevBlockhash →
            tracker.pending.lookup hash = some request →
              now - request.requestedAt < tracker.requestTtl
  | _ => tracker.Unexpired now

theorem handleBlock_unexpired (relay : PeerRelayState) (command : String) (block : Block)
    (now : ℕ) (node : Node) :
    (handleBlock relay block now node).2.1.blockRequests.Unexpired now ↔
      Refreshed relay.blockRequests ⟨command, .block block⟩ now node := by
  rw [handleBlock_blockRequests, Refreshed]
  dsimp only
  split
  · exact clear_unexpired
  · exact clear_unexpired
  · rw [requestMissingBlock_blockRequests]
    split
    · exact markRequested_unexpired
    · exact Iff.rfl
  · exact Iff.rfl
  · exact Iff.rfl
  · rw [clear_unexpired]
    constructor
    · intro h hash request hne hparent hrequest
      apply h hash request hparent
      rwa [clear_lookup, if_neg hne]
    · intro h hash request hparent hrequest
      rw [clear_lookup] at hrequest
      split at hrequest
      · cases hrequest
      · exact h hash request ‹_› hparent hrequest

theorem handlePeerMessage_unexpired (relay : PeerRelayState) (message : Message) (now : ℕ)
    (node : Node) :
    (handlePeerMessage relay message now node).2.1.blockRequests.Unexpired now ↔
      Refreshed relay.blockRequests message now node := by
  obtain ⟨command, payload⟩ := message
  cases payload with
  | verack => exact Iff.rfl
  | version _ => exact Iff.rfl
  | getData _ => exact Iff.rfl
  | inv items =>
      refine Iff.trans ?_ (requestUnknown_unexpired now items [] relay node)
      rw [← handleInv_blockRequests]
      rfl
  | block block => exact handleBlock_unexpired relay command block now node
  | tx tx =>
      have hsame : (handlePeerMessage relay ⟨command, .tx tx⟩ now node).2.1.blockRequests =
          relay.blockRequests := handleTx_blockRequests relay tx node
      rw [hsame]
      rfl

/-! ## Connections -/

/-- A connection with the messages handled on it and their times, the last one first. -/
structure Connection where
  relay : PeerRelayState
  node : Node
  handled : List (Message × ℕ)

namespace Connection

def opened (relay : PeerRelayState) (node : Node) : Connection := ⟨relay, node, []⟩

/-- The time of the last message. -/
def now (s : Connection) : ℕ := (s.handled.head?.map Prod.snd).getD 0

/-- Time does not go back, and a call that does not come back ends the run. -/
def step (s : Connection) (call : Message × ℕ) : Option Connection :=
  if s.now ≤ call.2 then
    match handlePeerMessage s.relay call.1 call.2 s.node with
    | (result, relay, node) =>
        if returns result then some ⟨relay, node, call :: s.handled⟩ else none
  else none

/-- The request was made by a message, at its time, and no message after it
brought the block. -/
def Unanswered (handled : List (Message × ℕ)) (hash : Hash256) (request : PendingRequest) : Prop :=
  ∃ after message before, handled = after ++ (message, request.requestedAt) :: before ∧
    message.payload.AsksFor hash ∧
    ∀ call ∈ after, ∀ block, call.1.payload = .block block → block.hash ≠ hash

/-- The requests of a connection are as they should be, with a tracker of the given limits. -/
structure Released (maxPending requestTtl : ℕ) (s : Connection) : Prop where
  limits : s.relay.blockRequests.maxPending = maxPending ∧
    s.relay.blockRequests.requestTtl = requestTtl
  answered : ∀ message time before block, s.handled = (message, time) :: before →
    message.payload = .block block → s.relay.blockRequests.pending.lookup block.hash = none
  unanswered : ∀ hash request, s.relay.blockRequests.pending.lookup hash = some request →
    Unanswered s.handled hash request
  unexpired : s.relay.blockRequests.Unexpired s.now
  tidy : s.relay.blockRequests.Tidy s.now

/-- A block has no request left when it has been handled. -/
def Clears (s : Connection) (call : Message × ℕ) : Prop :=
  ∀ block, call.1.payload = .block block →
    SlotCleared s.relay.blockRequests block call.2 s.node

/-- No request is left that has expired by the time of the message. -/
def Refreshes (s : Connection) (call : Message × ℕ) : Prop :=
  Refreshed s.relay.blockRequests call.1 call.2 s.node

variable {s t : Connection} {call : Message × ℕ}

theorem step_eq_some (h : s.step call = some t) : s.now ≤ call.2 ∧
    t.handled = call :: s.handled ∧
    t.relay = (handlePeerMessage s.relay call.1 call.2 s.node).2.1 := by
  unfold step at h
  split at h
  · rename_i htime
    dsimp only at h
    split at h
    · obtain rfl := Option.some.inj h
      exact ⟨htime, rfl, rfl⟩
    · cases h
  · cases h

/-- The request of a block that was handled is gone exactly when its slot is cleared. -/
theorem step_lookup (h : s.step call = some t) {block : Block}
    (hblock : call.1.payload = .block block) :
    t.relay.blockRequests.pending.lookup block.hash = none ↔
      SlotCleared s.relay.blockRequests block call.2 s.node := by
  obtain ⟨-, -, hrelay⟩ := step_eq_some h
  rw [hrelay, handlePeerMessage, hblock]
  exact handleBlock_lookup s.relay block call.2 s.node

theorem released_step {maxPending requestTtl : ℕ} (s : Connection) (call : Message × ℕ)
    (t : Connection) (hs : s.Released maxPending requestTtl) (hstep : s.step call = some t) :
    t.Released maxPending requestTtl ↔ s.Clears call ∧ s.Refreshes call := by
  obtain ⟨htime, hhandled, hrelay⟩ := step_eq_some hstep
  have hmoves := handlePeerMessage_moves s.relay call.1 call.2 s.node
  rw [← hrelay] at hmoves
  have hnow : t.now = call.2 := by simp [now, hhandled]
  have hunexpired : t.relay.blockRequests.Unexpired t.now ↔ s.Refreshes call := by
    rw [hnow, hrelay]
    exact handlePeerMessage_unexpired s.relay call.1 call.2 s.node
  constructor
  · intro ht
    refine ⟨fun block hblock ↦ ?_, hunexpired.mp ht.unexpired⟩
    exact (step_lookup hstep hblock).mp (ht.answered call.1 call.2 s.handled block hhandled hblock)
  · rintro ⟨hclears, hrefreshes⟩
    have hgone (block : Block) (hblock : call.1.payload = .block block) :
        t.relay.blockRequests.pending.lookup block.hash = none :=
      (step_lookup hstep hblock).mpr (hclears block hblock)
    have hlimits : t.relay.blockRequests.maxPending = maxPending ∧
        t.relay.blockRequests.requestTtl = requestTtl := by
      rw [hmoves.limits.1, hmoves.limits.2]
      exact hs.limits
    refine ⟨hlimits, ?_, ?_, hunexpired.mpr hrefreshes, ?_⟩
    · intro message time before block heq hblock
      obtain ⟨rfl, -⟩ := List.cons.inj (hhandled.symm.trans heq)
      exact hgone block hblock
    · intro hash request hrequest
      rcases hmoves.lookup hrequest with hold | ⟨rfl, hasks⟩
      · obtain ⟨after, message, before, hsplit, hasks, hno⟩ := hs.unanswered hash request hold
        refine ⟨call :: after, message, before, by rw [hhandled, hsplit]; rfl, hasks, ?_⟩
        intro other hother block hblock heq
        rcases List.mem_cons.mp hother with rfl | hother
        · rw [← heq, hgone block hblock] at hrequest
          cases hrequest
        · exact hno other hother block hblock heq
      · exact ⟨[], call.1, s.handled, hhandled, hasks, fun _ h ↦ nomatch h⟩
    · rw [hnow]
      exact hmoves.tidy (hs.tidy.later htime)

omit [Features] in
theorem opened_released (maxPending requestTtl : ℕ) (txRequests : TxRequestTracker)
    (cursor : ChainEventJournal.ChainEventCursor) (node : Node) :
    (opened ⟨.new maxPending requestTtl, txRequests, cursor⟩ node).Released
      maxPending requestTtl where
  limits := ⟨rfl, rfl⟩
  answered := fun _ _ _ _ h ↦ nomatch h
  unanswered := fun _ _ h ↦ nomatch h
  unexpired := fun _ _ h ↦ nomatch h
  tidy := .new _ _ _

/-- The requests of a connection are in order throughout a run exactly when
every block that is handled in it has its slot cleared, and no message leaves a
request that has expired. -/
theorem released_iff (maxPending requestTtl : ℕ) (txRequests : TxRequestTracker)
    (cursor : ChainEventJournal.ChainEventCursor) (node : Node) (calls : List (Message × ℕ)) :
    Throughout step (Released maxPending requestTtl)
        (opened ⟨.new maxPending requestTtl, txRequests, cursor⟩ node) calls ↔
      Along step (fun s call ↦ s.Clears call ∧ s.Refreshes call)
        (opened ⟨.new maxPending requestTtl, txRequests, cursor⟩ node) calls :=
  throughout_iff_along released_step (opened_released _ _ _ _ _) calls

end Connection

end

end Bitrst

/-! ## A block beside the active chain -/

namespace Bitrst.Sample

open Support

/-- A peer announces a block and then sends it. -/
def offers (block : Block) : List (Message × ℕ) :=
  [(.inv [⟨.block, block.hash⟩], 0), (.block block, 0)]

theorem offers_side {chain kept : Chain} {block : Block} {height : ℕ} (relay : PeerRelayState)
    (hunknown : chain.hasBlockHash block.hash = false)
    (hconnect : chain.connectBlock order block = (.ok (.sideChain height block.hash), kept)) :
    (execute Connection.step (Connection.opened relay (alone chain)) (offers block)).map
        (fun s ↦ (s.relay.blockRequests, s.handled)) =
      some ((relay.blockRequests.markRequested block.hash 0).2, (offers block).reverse) := by
  simp [execute, offers, Connection.step, Connection.opened, Connection.now, handlePeerMessage,
    handleInv, requestUnknown, ChainHandle.hasBlock, ChainHandle.read, Node.lock, alone, hunknown,
    handleBlock, ChainHandle.connectBlock, hconnect, Message.inv, Message.block, returns]

/-- The rival of the tip is stored beside it, and its request stays. -/
theorem side_keeps_slot : ¬ ∀ relay node calls s,
    Chain.Reachable genesis node.chain → relay.blockRequests.pending = ∅ →
      execute Connection.step (Connection.opened relay node) calls = some s →
        ∀ message time before block, s.handled = (message, time) :: before →
          message.payload = .block block →
            s.relay.blockRequests.pending.lookup block.hash = none := by
  intro h
  have hreachable : Chain.Reachable genesis (grown first) := first_opens.reachable trivial
  have hconnect : Chain.connectBlock order side (grown first) =
      (.ok (.sideChain 1 side.hash), forked (grown first)) :=
    (Chain.connectBlock_eq_place hreachable.coherent.indexed first_splits.orphans order
      first_splits.admitted).trans first_splits.place_eq
  obtain ⟨s, hrun, heq⟩ := Option.map_eq_some_iff.mp
    (offers_side (.withEventCursor ⟨1⟩) (by decide +kernel) hconnect)
  obtain ⟨htracker, hhandled⟩ := Prod.mk.inj heq
  have hgone := h _ _ _ s hreachable rfl hrun _ _ _ side hhandled rfl
  rw [htracker] at hgone
  exact absurd hgone (by decide +kernel)

end Bitrst.Sample
