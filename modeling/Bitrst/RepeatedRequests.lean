import Bitrst.BlockRequests
import Bitrst.Support.Reachability

/-!
# Repeated requests

What a connection asks its peer for with `getdata`.  A tracker keeps what was
asked for, so that a connection asks for the same block or transaction again
only after its request has expired, or after a message that brought it.
-/

namespace Bitrst

open Support

/-! ## One tracker -/

namespace RequestTracker

variable {tracker reached : RequestTracker} {hash other : Hash256} {hashes : List Hash256}
  {time now : ℕ}

/-- A request was made at the time, and the tracker has it unless it has expired. -/
def Since (tracker : RequestTracker) (hash : Hash256) (time now : ℕ) : Prop :=
  time ≤ now ∧
    (tracker.pending.lookup hash = some ⟨time⟩ ∨ time + tracker.requestTtl ≤ now)

theorem Since.later (h : tracker.Since hash time now) {next : ℕ} (hle : now ≤ next) :
    tracker.Since hash time next :=
  ⟨h.1.trans hle, h.2.imp_right fun hexpired ↦ hexpired.trans hle⟩

/-- A hash that has a request gets another only when the first has expired. -/
theorem Since.expired (h : tracker.Since hash time now) (hfree : tracker.Free hash now) :
    time + tracker.requestTtl ≤ now := by
  obtain ⟨hle, hpending | hexpired⟩ := h
  · by_contra hfresh
    have hlive : now - time < tracker.requestTtl := by omega
    have hsome := live_lookup.mpr ⟨hpending, hlive⟩
    rw [hfree.1] at hsome
    cases hsome
  · exact hexpired

theorem markRequested_fst : (tracker.markRequested hash now).1 = true ↔ tracker.Free hash now := by
  by_cases hfree : tracker.Free hash now
  · simp [markRequested_free hfree, hfree]
  · simp [markRequested_not_free hfree, hfree]

theorem Since.mark (h : tracker.Since hash time now) (other : Hash256) :
    (tracker.markRequested other now).2.Since hash time now := by
  refine ⟨h.1, ?_⟩
  rw [markRequested_requestTtl]
  by_cases hexpired : time + tracker.requestTtl ≤ now
  · exact .inr hexpired
  · left
    have hpending := h.2.resolve_right hexpired
    have hfresh : now - time < tracker.requestTtl := by
      have hle := h.1
      omega
    have hlive := live_lookup.mpr ⟨hpending, hfresh⟩
    by_cases hfree : tracker.Free other now
    · have hne : hash ≠ other := by
        rintro rfl
        exact hexpired (h.expired hfree)
      rw [markRequested_free hfree]
      exact (EntryMap.lookup_insert_ite _ _ _ _).trans ((if_neg hne).trans hlive)
    · rw [markRequested_not_free hfree]
      exact hlive

theorem since_of_marked (hfree : tracker.Free hash now) :
    (tracker.markRequested hash now).2.Since hash now now := by
  refine ⟨le_rfl, .inl ?_⟩
  rw [markRequested_free hfree]
  exact (EntryMap.lookup_insert_ite _ _ _ _).trans (if_pos rfl)

/-- Hashes are marked one after the other; those that the tracker takes are listed. -/
inductive Marks (now : ℕ) (tracker : RequestTracker) : List Hash256 → RequestTracker → Prop
  | refl : Marks now tracker [] tracker
  | taken {hashes : List Hash256} {reached : RequestTracker} {hash : Hash256}
      (marks : Marks now tracker hashes reached) (free : reached.Free hash now) :
      Marks now tracker (hashes ++ [hash]) (reached.markRequested hash now).2
  | refused {hashes : List Hash256} {reached : RequestTracker} {hash : Hash256}
      (marks : Marks now tracker hashes reached) (full : ¬ reached.Free hash now) :
      Marks now tracker hashes (reached.markRequested hash now).2

namespace Marks

theorem requestTtl (h : Marks now tracker hashes reached) :
    reached.requestTtl = tracker.requestTtl := by
  induction h with
  | refl => rfl
  | taken _ _ ih => rwa [markRequested_requestTtl]
  | refused _ _ ih => rwa [markRequested_requestTtl]

theorem since (h : Marks now tracker hashes reached) (hsince : tracker.Since hash time now) :
    reached.Since hash time now ∧ (hash ∈ hashes → time + tracker.requestTtl ≤ now) := by
  induction h with
  | refl => exact ⟨hsince, fun hmem ↦ (List.not_mem_nil hmem).elim⟩
  | taken marks free ih =>
      refine ⟨ih.1.mark _, fun hmem ↦ ?_⟩
      rcases List.mem_append.mp hmem with hold | hnew
      · exact ih.2 hold
      · obtain rfl := List.mem_singleton.mp hnew
        rw [← marks.requestTtl]
        exact ih.1.expired free
  | refused _ _ ih => exact ⟨ih.1.mark _, ih.2⟩

theorem since_of_mem (h : Marks now tracker hashes reached) (hmem : hash ∈ hashes) :
    reached.Since hash now now := by
  induction h with
  | refl => cases hmem
  | taken _ free ih =>
      rcases List.mem_append.mp hmem with hold | hnew
      · exact (ih hold).mark _
      · obtain rfl := List.mem_singleton.mp hnew
        exact since_of_marked free
  | refused _ _ ih => exact (ih hmem).mark _

/-- Requests do live for some time, so that no hash is taken twice. -/
theorem nodup (h : Marks now tracker hashes reached) (httl : 0 < tracker.requestTtl) :
    hashes.Nodup := by
  induction h with
  | refl => exact List.nodup_nil
  | taken marks free ih =>
      apply List.Nodup.append ih (List.nodup_singleton _)
      intro hash hold hnew
      obtain rfl := List.mem_singleton.mp hnew
      have hexpired := (marks.since_of_mem hold).expired free
      rw [marks.requestTtl] at hexpired
      omega
  | refused _ _ ih => exact ih

end Marks

end RequestTracker

/-! ## What is asked for -/

inductive RequestKind
  | block
  | transaction
  deriving DecidableEq

def RequestKind.invType : RequestKind → InvType
  | .block => .block
  | .transaction => .transaction

def PeerRelayState.tracker (relay : PeerRelayState) : RequestKind → RequestTracker
  | .block => relay.blockRequests
  | .transaction => relay.txRequests

def askedFor (kind : RequestKind) (items : List InventoryVector) : List Hash256 :=
  (items.filter fun item ↦ item.invType = kind.invType).map InventoryVector.hash

def Message.asks (kind : RequestKind) (message : Message) : List Hash256 :=
  match message.payload with
  | .getData items => askedFor kind items
  | _ => []

/-- The hashes of the kind in the `getdata` messages that a handler answers with. -/
def asksOf (kind : RequestKind) : Except RelayError RelayAction → List Hash256
  | .ok (.reply messages) => messages.flatMap (Message.asks kind)
  | _ => []

variable [Crypto]

/-- The message is one after which a request for the hash may be made again: the block itself,
one of which it is the parent, or the transaction. -/
def MessagePayload.Brings (kind : RequestKind) : MessagePayload → Hash256 → Prop
  | .block b, hash => kind = .block ∧ (b.hash = hash ∨ b.header.prevBlockhash = hash)
  | .tx transaction, hash => kind = .transaction ∧ transaction.txid = hash
  | _, _ => False

/-! ## Handlers -/

section

open RequestTracker

variable {relay : PeerRelayState} {node : Node} {kind : RequestKind} {hash : Hash256}
  {time now : ℕ}

/-- What a handler does to the requests of the kind: it marks hashes and asks for those that are
taken, or it asks for nothing and drops at most requests that the message answers. -/
def HandlesRequests (kind : RequestKind) (payload : MessagePayload) (now : ℕ)
    (relay : PeerRelayState) (result : Handled RelayAction) : Prop :=
  (∃ hashes, Marks now (relay.tracker kind) hashes (result.2.1.tracker kind) ∧
    (asksOf kind result.1).Sublist hashes) ∨
  (asksOf kind result.1 = [] ∧
    (result.2.1.tracker kind).requestTtl = (relay.tracker kind).requestTtl ∧
      ∀ hash, ¬ payload.Brings kind hash → (result.2.1.tracker kind).pending.lookup hash =
        (relay.tracker kind).pending.lookup hash)

theorem HandlesRequests.same {payload : MessagePayload} {result : Handled RelayAction}
    (hasks : asksOf kind result.1 = [])
    (htracker : result.2.1.tracker kind = relay.tracker kind) :
    HandlesRequests kind payload now relay result := by
  refine .inl ⟨[], ?_, ?_⟩
  · rw [htracker]
    exact .refl
  · rw [hasks]

omit [Crypto] in
theorem askedFor_concat (kind : RequestKind) (requests : List InventoryVector)
    (item : InventoryVector) : askedFor kind (requests ++ [item]) =
      askedFor kind requests ++ if item.invType = kind.invType then [item.hash] else [] := by
  rw [askedFor, List.filter_append, List.map_append, askedFor]
  by_cases hkind : item.invType = kind.invType <;> simp [hkind]

omit [Crypto] in
/-- A turn of the loop of `handle_inv` on an item of the kind. -/
theorem marks_item {tracker reached : RequestTracker} {requests : List InventoryVector}
    (item : InventoryVector) (h : Marks now tracker (askedFor kind requests) reached)
    (hkind : item.invType = kind.invType) :
    Marks now tracker
      (askedFor kind (if (reached.markRequested item.hash now).1 then requests ++ [item]
        else requests)) (reached.markRequested item.hash now).2 := by
  by_cases hfree : reached.Free item.hash now
  · rw [if_pos (markRequested_fst.mpr hfree), askedFor_concat, if_pos hkind]
    exact .taken h hfree
  · rw [if_neg (mt markRequested_fst.mp hfree)]
    exact .refused h hfree

omit [Crypto] in
/-- A turn on an item of the other kind. -/
theorem askedFor_other {requests : List InventoryVector} {item : InventoryVector}
    (hkind : item.invType ≠ kind.invType) (marked : Bool) :
    askedFor kind (if marked then requests ++ [item] else requests) = askedFor kind requests := by
  cases marked with
  | false => rfl
  | true => rw [if_pos rfl, askedFor_concat, if_neg hkind, List.append_nil]

omit [Crypto] in
theorem requestUnknown_marks (kind : RequestKind) (now : ℕ) {tracker : RequestTracker}
    (items requests : List InventoryVector) (relay : PeerRelayState) (node : Node)
    (h : Marks now tracker (askedFor kind requests) (relay.tracker kind)) :
    ∃ hashes, Marks now tracker hashes
        ((requestUnknown now items requests relay node).2.1.tracker kind) ∧
      ∀ found, (requestUnknown now items requests relay node).1 = .ok found →
        askedFor kind found = hashes := by
  induction items generalizing requests relay node with
  | nil => exact ⟨_, h, fun found hfound ↦ by cases hfound; rfl⟩
  | cons item items ih =>
      obtain ⟨invType, hash⟩ := item
      unfold requestUnknown
      cases invType with
      | filteredBlock => exact ih requests relay node h
      | block =>
          dsimp only
          split
          · exact ⟨_, h, fun _ hfound ↦ by cases hfound⟩
          · exact ih requests relay _ h
          · apply ih
            cases kind with
            | block => exact marks_item ⟨.block, hash⟩ h rfl
            | transaction =>
                rw [askedFor_other (by simp [RequestKind.invType])]
                exact h
      | transaction =>
          dsimp only
          split
          · exact ⟨_, h, fun _ hfound ↦ by cases hfound⟩
          · exact ih requests relay _ h
          · apply ih
            cases kind with
            | transaction => exact marks_item ⟨.transaction, hash⟩ h rfl
            | block =>
                rw [askedFor_other (by simp [RequestKind.invType])]
                exact h

theorem handleInv_requests (kind : RequestKind) (relay : PeerRelayState)
    (items : List InventoryVector) (now : ℕ) (node : Node) :
    HandlesRequests kind (.inv items) now relay (handleInv relay items now node) := by
  obtain ⟨hashes, hmarks, hfound⟩ := requestUnknown_marks kind now items [] relay node .refl
  unfold handleInv
  split
  · rename_i hrun
    rw [hrun] at hmarks
    exact .inl ⟨hashes, hmarks, List.nil_sublist _⟩
  · rename_i requests reached next hrun
    rw [hrun] at hmarks hfound
    refine .inl ⟨hashes, hmarks, ?_⟩
    rw [← hfound requests rfl]
    cases requests with
    | nil => exact List.nil_sublist _
    | cons item rest =>
        have hasks : asksOf kind (.ok (.reply [Message.getdata (item :: rest)])) =
            askedFor kind (item :: rest) := List.append_nil _
        exact hasks ▸ List.Sublist.refl _

/-- The answers to a `getdata` ask for nothing. -/
theorem collectReplies_asks (kind : RequestKind) (items : List InventoryVector) (node : Node) :
    (collectReplies items node).1.flatMap (Message.asks kind) = [] := by
  induction items generalizing node with
  | nil => rfl
  | cons item items ih =>
      unfold collectReplies
      split
      · dsimp only
        split
        · rw [List.flatMap_cons, ih]
          rfl
        · exact ih _
      · dsimp only
        split
        · rw [List.flatMap_cons, ih]
          rfl
        · exact ih _
      · exact ih _

theorem handleGetdata_requests (kind : RequestKind) (relay : PeerRelayState)
    (items : List InventoryVector) (now : ℕ) (node : Node) :
    HandlesRequests kind (.getData items) now relay
      (.ok (handleGetdata items node).1, relay, (handleGetdata items node).2) := by
  refine .same ?_ rfl
  unfold handleGetdata
  dsimp only
  split
  · rfl
  · exact collectReplies_asks kind items node

theorem syncMempool_tracker (kind : RequestKind) (relay : PeerRelayState) (node : Node) :
    (syncMempool relay node).2.1.tracker kind = relay.tracker kind := by
  cases kind with
  | block => exact syncMempool_blockRequests relay node
  | transaction =>
      change (syncMempool relay node).2.1.txRequests = relay.txRequests
      unfold syncMempool
      split
      · dsimp only
        split
        · rfl
        · split <;> rfl
      · split
        · rfl
        · dsimp only
          split <;> rfl
      · rfl

theorem handleTx_requests (kind : RequestKind) (relay : PeerRelayState) (tx : Transaction)
    (now : ℕ) (node : Node) :
    HandlesRequests kind (.tx tx) now relay (handleTx relay tx node) := by
  have hasks : asksOf kind (handleTx relay tx node).1 = [] := by
    unfold handleTx
    dsimp only
    split <;> rfl
  cases kind with
  | block => exact .same hasks (handleTx_blockRequests relay tx node)
  | transaction =>
      have htracker : (handleTx relay tx node).2.1.txRequests = relay.txRequests.clear tx.txid := by
        unfold handleTx
        dsimp only
        split <;> rfl
      change (handleTx relay tx node).2.1.tracker .transaction =
        (relay.tracker .transaction).clear tx.txid at htracker
      refine .inr ⟨hasks, by rw [htracker]; rfl, fun hash hbrings ↦ ?_⟩
      have hne : hash ≠ tx.txid := fun heq ↦ hbrings ⟨rfl, heq.symm⟩
      rw [htracker, clear_lookup, if_neg hne]

theorem requestMissingBlock_requests (kind : RequestKind) (payload : MessagePayload)
    (relay : PeerRelayState) (hash : Hash256) (now : ℕ) (node : Node) :
    HandlesRequests kind payload now relay (requestMissingBlock relay hash now node) := by
  unfold requestMissingBlock
  split
  · exact .same rfl rfl
  · exact .same rfl rfl
  · dsimp only
    cases kind with
    | transaction => split <;> exact .same rfl rfl
    | block =>
        have hrefl : Marks now relay.blockRequests [] relay.blockRequests := .refl
        split
        · rename_i hmarked
          exact .inl ⟨_, hrefl.taken (markRequested_fst.mp hmarked), List.Sublist.refl _⟩
        · rename_i hmarked
          exact .inl ⟨_, hrefl.refused (mt markRequested_fst.mpr hmarked), List.Sublist.refl _⟩

/-- What is cleared for a block is its own request and the one for its parent. -/
theorem handlesRequests_cleared {block : Block} {result : Handled RelayAction}
    {tracker : RequestTracker} (hasks : asksOf kind result.1 = [])
    (htracker : result.2.1.tracker kind = { relay with blockRequests := tracker }.tracker kind)
    (hcleared : tracker = relay.blockRequests.clear block.hash ∨
      tracker = (relay.blockRequests.clear block.hash).clear block.header.prevBlockhash) :
    HandlesRequests kind (.block block) now relay result := by
  cases kind with
  | transaction => exact .same hasks htracker
  | block =>
      refine .inr ⟨hasks, ?_, fun hash hbrings ↦ ?_⟩
      · rw [htracker]
        rcases hcleared with rfl | rfl <;> rfl
      · have hne : hash ≠ block.hash := fun heq ↦ hbrings ⟨rfl, .inl heq.symm⟩
        have hparent : hash ≠ block.header.prevBlockhash := fun heq ↦
          hbrings ⟨rfl, .inr heq.symm⟩
        rw [htracker]
        change tracker.pending.lookup hash = relay.blockRequests.pending.lookup hash
        rcases hcleared with rfl | rfl
        · rw [clear_lookup, if_neg hne]
        · rw [clear_lookup, if_neg hparent, clear_lookup, if_neg hne]

variable [Features]

theorem handleBlock_requests (kind : RequestKind) (relay : PeerRelayState) (block : Block)
    (now : ℕ) (node : Node) :
    HandlesRequests kind (.block block) now relay (handleBlock relay block now node) := by
  have hsync (node : Node) := syncMempool_tracker kind
    { relay with blockRequests := relay.blockRequests.clear block.hash } node
  unfold handleBlock
  cases ChainHandle.connectBlock block node with
  | mk answer reached =>
    specialize hsync reached
    cases answer with
    | ok result =>
      cases result with
      | orphaned _ => exact requestMissingBlock_requests kind _ relay _ now reached
      | sideChain _ _ => exact .same rfl rfl
      | connected _ _ =>
          dsimp only
          split <;> rename_i hrun <;> rw [hrun] at hsync <;>
            exact handlesRequests_cleared rfl hsync (.inl rfl)
      | reorganized _ _ =>
          dsimp only
          split <;> rename_i hrun <;> rw [hrun] at hsync <;>
            exact handlesRequests_cleared rfl hsync (.inl rfl)
    | error e =>
        split <;> rename_i hanswer <;> cases hanswer
        · exact .same rfl rfl
        · exact handlesRequests_cleared rfl rfl (.inr rfl)

theorem handlePeerMessage_requests (kind : RequestKind) (relay : PeerRelayState)
    (message : Message) (now : ℕ) (node : Node) :
    HandlesRequests kind message.payload now relay
      (handlePeerMessage relay message now node) := by
  obtain ⟨command, payload⟩ := message
  cases payload with
  | verack => exact .same rfl rfl
  | version _ => exact .same rfl rfl
  | inv items => exact handleInv_requests kind relay items now node
  | getData items => exact handleGetdata_requests kind relay items now node
  | block block => exact handleBlock_requests kind relay block now node
  | tx tx => exact handleTx_requests kind relay tx now node

end

/-! ## Connections -/

namespace Connection

open RequestTracker

variable [Features] {s t : Connection} {call : Message × ℕ} {kind : RequestKind} {hash : Hash256}
  {time : ℕ}

/-- What the message makes the connection ask for. -/
def asks (kind : RequestKind) (s : Connection) (call : Message × ℕ) : List Hash256 :=
  asksOf kind (handlePeerMessage s.relay call.1 call.2 s.node).1

theorem step_requests (kind : RequestKind) (h : s.step call = some t) :
    HandlesRequests kind call.1.payload call.2 s.relay
      ((handlePeerMessage s.relay call.1 call.2 s.node).1, t.relay, t.node) := by
  obtain ⟨-, -, hrelay⟩ := step_eq_some h
  have hhandles := handlePeerMessage_requests kind s.relay call.1 call.2 s.node
  rw [HandlesRequests, ← hrelay] at hhandles
  exact hhandles

theorem step_now (h : s.step call = some t) : s.now ≤ call.2 ∧ t.now = call.2 := by
  obtain ⟨htime, hhandled, -⟩ := step_eq_some h
  exact ⟨htime, by simp [now, hhandled]⟩

theorem step_requestTtl (h : s.step call = some t) :
    (t.relay.tracker kind).requestTtl = (s.relay.tracker kind).requestTtl := by
  rcases step_requests kind h with ⟨hashes, hmarks, -⟩ | ⟨-, httl, -⟩
  · exact hmarks.requestTtl
  · exact httl

theorem since_of_asked (h : s.step call = some t) (hmem : hash ∈ s.asks kind call) :
    (t.relay.tracker kind).Since hash t.now t.now := by
  rw [(step_now h).2]
  rcases step_requests kind h with ⟨hashes, hmarks, hsub⟩ | ⟨hnone, -⟩
  · exact hmarks.since_of_mem (hsub.subset hmem)
  · rw [asks, hnone] at hmem
    cases hmem

/-- A message that does not bring what was asked for leaves the request where it is. -/
theorem step_since (h : s.step call = some t)
    (hsince : (s.relay.tracker kind).Since hash time s.now)
    (hbrings : ¬ call.1.payload.Brings kind hash) :
    (t.relay.tracker kind).Since hash time t.now := by
  obtain ⟨hle, hnow⟩ := step_now h
  have hlater := hsince.later hle
  rw [hnow]
  rcases step_requests kind h with ⟨hashes, hmarks, -⟩ | ⟨-, httl, hlookup⟩
  · exact (hmarks.since hlater).1
  · rw [Since, httl, hlookup hash hbrings]
    exact hlater

theorem asks_expired (hsince : (s.relay.tracker kind).Since hash time s.now)
    (hle : s.now ≤ call.2) (hmem : hash ∈ s.asks kind call) :
    time + (s.relay.tracker kind).requestTtl ≤ call.2 := by
  rcases handlePeerMessage_requests kind s.relay call.1 call.2 s.node with
    ⟨hashes, hmarks, hsub⟩ | ⟨hnone, -⟩
  · exact (hmarks.since (hsince.later hle)).2 (hsub.subset hmem)
  · rw [asks, hnone] at hmem
    cases hmem

theorem asks_nodup (httl : 0 < (s.relay.tracker kind).requestTtl) : (s.asks kind call).Nodup := by
  rcases handlePeerMessage_requests kind s.relay call.1 call.2 s.node with
    ⟨hashes, hmarks, hsub⟩ | ⟨hnone, -⟩
  · exact hsub.nodup (hmarks.nodup httl)
  · rw [asks, hnone]
    exact List.nodup_nil

theorem execute_requestTtl {calls : List (Message × ℕ)} (h : execute step s calls = some t) :
    (t.relay.tracker kind).requestTtl = (s.relay.tracker kind).requestTtl := by
  have hreaches : Reaches step (fun _ ↦ True) s t := ⟨calls, fun _ _ ↦ trivial, h⟩
  refine hreaches.invariant
    (I := fun u ↦ (u.relay.tracker kind).requestTtl = (s.relay.tracker kind).requestTtl) ?_ rfl
  exact fun u call next hu _ hnext ↦ (step_requestTtl hnext).trans hu

omit [Crypto] in
theorem blockRequestTtl_pos : 0 < blockRequestTtl := by
  unfold blockRequestTtl
  split <;> decide

/-- One message makes the connection ask for nothing twice.  What it asked for before it asks for
again only when the first request has expired or the peer has sent the transaction, the block or
a child of the block since. -/
theorem asks_again {cursor : ChainEventJournal.ChainEventCursor} {node : Node}
    {before between : List (Message × ℕ)} {first again : Message × ℕ} (kind : RequestKind)
    (hbefore : execute step (opened (.withEventCursor cursor) node) before = some s)
    (hbetween : execute step s (first :: between) = some t) (hagain : t.now ≤ again.2) :
    (t.asks kind again).Nodup ∧
      ∀ hash ∈ s.asks kind first, hash ∈ t.asks kind again →
        first.2 + blockRequestTtl ≤ again.2 ∨
          ∃ call ∈ between, call.1.payload.Brings kind hash := by
  have httl : (t.relay.tracker kind).requestTtl = blockRequestTtl := by
    rw [execute_requestTtl hbetween, execute_requestTtl hbefore]
    cases kind <;> rfl
  refine ⟨asks_nodup (httl ▸ blockRequestTtl_pos), fun hash hfirst hmem ↦ ?_⟩
  rw [or_iff_not_imp_right]
  intro hbrings
  obtain ⟨next, hnext, hrest⟩ := Option.bind_eq_some_iff.mp hbetween
  have hasked : (next.relay.tracker kind).Since hash first.2 next.now := by
    have hsince := since_of_asked hnext hfirst
    rwa [(step_now hnext).2] at hsince ⊢
  have hreaches : Reaches step (fun call ↦ ¬ call.1.payload.Brings kind hash) next t :=
    ⟨between, fun call hcall hbrought ↦ hbrings ⟨call, hcall, hbrought⟩, hrest⟩
  -- the request stays from message to message
  have hsince : (t.relay.tracker kind).Since hash first.2 t.now := by
    refine hreaches.invariant
      (I := fun u ↦ (u.relay.tracker kind).Since hash first.2 u.now) ?_ hasked
    exact fun u call v hu hno hstep ↦ step_since hstep hu hno
  rw [← httl]
  exact asks_expired hsince hagain hmem

end Connection

end Bitrst

namespace Bitrst.Sample

open Support

/-- A peer announces the block that stays beside the chain of its neighbour. -/
def announcement (time : ℕ) : Message × ℕ := (Message.inv [⟨.block, side.hash⟩], time)

/-- The peer is asked for the block twice, and the second request is made when the first has
expired. -/
theorem announced_again : ∃ t : Connection,
    side.hash ∈ (Connection.opened (.withEventCursor ⟨0⟩) (alone start)).asks .block
      (announcement 0) ∧
    side.hash ∈ t.asks .block (announcement blockRequestTtl) ∧
      ((announcement 0).2 + blockRequestTtl ≤ (announcement blockRequestTtl).2 ∨
        ∃ call ∈ ([] : List (Message × ℕ)), call.1.payload.Brings .block side.hash) := by
  have hrun : (execute Connection.step
      (Connection.opened (.withEventCursor ⟨0⟩) (alone start)) [announcement 0]).map
        (fun t ↦ (t.now, t.asks .block (announcement blockRequestTtl))) =
      some (0, [side.hash]) := by
    decide +kernel
  obtain ⟨t, ht, heq⟩ := Option.map_eq_some_iff.mp hrun
  obtain ⟨hnow, hasks⟩ := Prod.mk.inj heq
  have hfirst : side.hash ∈ (Connection.opened (.withEventCursor ⟨0⟩) (alone start)).asks .block
      (announcement 0) := by
    decide +kernel
  have hmem : side.hash ∈ t.asks .block (announcement blockRequestTtl) := by
    rw [hasks]
    exact List.mem_singleton_self _
  have hagain : t.now ≤ (announcement blockRequestTtl).2 := hnow ▸ Nat.zero_le _
  have hopened : execute Connection.step (Connection.opened (.withEventCursor ⟨0⟩) (alone start))
      [] = some (Connection.opened (.withEventCursor ⟨0⟩) (alone start)) := rfl
  exact ⟨t, hfirst, hmem, (Connection.asks_again .block hopened ht hagain).2 _ hfirst hmem⟩

end Bitrst.Sample
