import Bitrst.BranchDifficulty
import Bitrst.PromotionOrder
import Bitrst.Support.Arrivals

/-!
# The orphan pool as a queue

Orphans are dropped in the order of their arrival, which the pool keeps as
stamps from a counter.  The source counts in a `u64` that wraps; here the stamps
are read as such words where the oldest orphan is looked for.  As long as fewer
than `2 ^ 64` orphans were stored the words are the numbers themselves and the
longest waiting orphan is dropped; the next one after that is stamped `0` and is
dropped before all others.
-/

namespace Bitrst

open Support

/-- The stamp as the source stores it. -/
def OrphanEntry.stamp (entry : OrphanEntry) : UInt64 := .ofNat entry.receivedAt

variable [Crypto]

namespace Chain

/-! ## Storing an orphan with a wrapping counter -/

namespace U64

omit [Crypto] in
def evictOldestOrphan (order : OrphanOrder) (chain : Chain) : Chain :=
  match (order.iter chain.orphans.entries).argmin (fun entry ↦ entry.2.stamp.toNat) with
  | none => chain
  | some entry =>
      { chain with
        orphans := chain.orphans.erase entry.1
        eventJournal := chain.eventJournal.push (.orphanEvicted entry.1 .poolFull) }

def insertOrphan (order : OrphanOrder) (chain : Chain) (block : Block) : Chain :=
  let chain :=
    if maxOrphanBlocks ≤ chain.orphans.entries.length then evictOldestOrphan order chain
    else chain
  let receivedAt := chain.orphanReceiveSeq + 1
  let orphans := chain.orphans.insert block.hash ⟨block, receivedAt⟩
  { chain with
    orphanReceiveSeq := receivedAt
    orphans := orphans
    eventJournal := chain.eventJournal.push
      (.orphanAdded block.hash orphans.entries.length) }

/-- `connect_block`: the block is stored as an orphan in the call itself or not at all, as the
blocks that are promoted have a known parent. -/
def connectBlock [Features] (order : OrphanOrder) (block : Block) (chain : Chain) :
    ChainResult ConnectResult × Chain :=
  match chain.admission block with
  | .ok none => (.ok (.orphaned block.hash), insertOrphan order chain block)
  | _ => Chain.connectBlock order block chain

end U64

variable {genesis : Block} {chain chain' : Chain} {waiting : List Hash256} {block : Block}

omit [Crypto] in
theorem stamp_toNat {entry : OrphanEntry} (h : entry.receivedAt < 2 ^ 64) :
    entry.stamp.toNat = entry.receivedAt := by
  rw [OrphanEntry.stamp, UInt64.toNat_ofNat']
  exact Nat.mod_eq_of_lt h

omit [Crypto] in
/-- An orphan with the least stamp is dropped, with one event. -/
theorem U64.evictOldestOrphan_spec (order : OrphanOrder) (chain : Chain)
    (hfull : maxOrphanBlocks ≤ chain.orphans.entries.length) :
    ∃ victim entry, chain.orphans.lookup victim = some entry ∧
      (∀ hash other, chain.orphans.lookup hash = some other →
        entry.stamp.toNat ≤ other.stamp.toNat) ∧
      U64.evictOldestOrphan order chain = { chain with
        orphans := chain.orphans.erase victim
        eventJournal := chain.eventJournal.push (.orphanEvicted victim .poolFull) } := by
  have hmem : ∀ hash entry, (⟨hash, entry⟩ : Sigma fun _ : Hash256 ↦ OrphanEntry) ∈
      order.iter chain.orphans.entries ↔ chain.orphans.lookup hash = some entry :=
    fun hash entry ↦ (order.perm _).mem_iff.trans EntryMap.mem_entries_iff
  cases holdest : (order.iter chain.orphans.entries).argmin
      (fun entry ↦ entry.2.stamp.toNat) with
  | none =>
      have hlength := (order.perm chain.orphans.entries).length_eq
      rw [List.argmin_eq_none.mp holdest, List.length_nil] at hlength
      rw [← hlength] at hfull
      exact absurd hfull (by decide)
  | some oldest =>
      refine ⟨oldest.1, oldest.2, (hmem _ _).mp (List.argmin_mem holdest), ?_, ?_⟩
      · intro hash other hother
        exact List.le_of_mem_argmin (f := fun entry ↦ entry.2.stamp.toNat)
          ((hmem hash other).mpr hother) holdest
      · rw [U64.evictOldestOrphan, holdest]

/-- The block joins the pool, from which the listed orphans were dropped before. -/
structure Stores (chain : Chain) (block : Block) (dropped : List Hash256) (chain' : Chain) :
    Prop where
  orphans : chain'.orphans =
    (dropped.foldl (fun pool hash ↦ pool.erase hash) chain.orphans).insert block.hash
      ⟨block, chain.orphanReceiveSeq + 1⟩
  seq : chain'.orphanReceiveSeq = chain.orphanReceiveSeq + 1
  events : chain'.eventJournal.pushed = chain.eventJournal.pushed ++
    (dropped.map (fun hash ↦ .orphanEvicted hash .poolFull) ++
      [.orphanAdded block.hash chain'.orphans.entries.length])
  blocks : chain'.blocks = chain.blocks
  activeHashes : chain'.activeHashes = chain.activeHashes
  known : chain'.known = chain.known

/-- A new orphan joins the pool, and where there is no room one with the least stamp is
dropped. -/
theorem U64.insertOrphan_spec (order : OrphanOrder) (chain : Chain) (block : Block) :
    (chain.orphans.entries.length < maxOrphanBlocks ∧
        Stores chain block [] (U64.insertOrphan order chain block)) ∨
      (maxOrphanBlocks ≤ chain.orphans.entries.length ∧
        ∃ victim entry, chain.orphans.lookup victim = some entry ∧
          (∀ hash other, chain.orphans.lookup hash = some other →
            entry.stamp.toNat ≤ other.stamp.toNat) ∧
          Stores chain block [victim] (U64.insertOrphan order chain block)) := by
  by_cases hfull : maxOrphanBlocks ≤ chain.orphans.entries.length
  · obtain ⟨victim, entry, hvictim, hleast, hevict⟩ := U64.evictOldestOrphan_spec order chain hfull
    refine Or.inr ⟨hfull, victim, entry, hvictim, hleast, ?_⟩
    rw [U64.insertOrphan, if_pos hfull, hevict]
    exact ⟨rfl, rfl, List.append_assoc _ _ _, rfl, rfl, rfl⟩
  · refine Or.inl ⟨Nat.lt_of_not_le hfull, ?_⟩
    rw [U64.insertOrphan, if_neg hfull]
    exact ⟨rfl, rfl, rfl, rfl, rfl, rfl⟩

/-! ## Calls that store no orphan -/

/-- The event is about the orphan pool. -/
def ConcernsOrphans : ChainEvent → Prop
  | .orphanAdded _ _ => True
  | .orphanEvicted _ _ => True
  | _ => False

/-- Orphans left the pool only where their parent is known, and no event is about the pool. -/
structure TakesOut (chain chain' : Chain) : Prop where
  fewer : ∀ hash entry, chain'.orphans.lookup hash = some entry →
    chain.orphans.lookup hash = some entry
  left : ∀ hash entry, chain.orphans.lookup hash = some entry →
    chain'.orphans.lookup hash = none →
      chain'.known.lookup entry.block.header.prevBlockhash ≠ none
  known : ∀ hash, chain.known.lookup hash ≠ none → chain'.known.lookup hash ≠ none
  seq : chain'.orphanReceiveSeq = chain.orphanReceiveSeq
  events : ∃ more, chain'.eventJournal.pushed = chain.eventJournal.pushed ++ more ∧
    ∀ event ∈ more, ¬ ConcernsOrphans event

namespace TakesOut

omit [Crypto] in
theorem refl (chain : Chain) : TakesOut chain chain where
  fewer _ _ h := h
  left hash entry h hnone := by
    rw [h] at hnone
    cases hnone
  known _ h := h
  seq := rfl
  events := ⟨[], (List.append_nil _).symm, by simp⟩

omit [Crypto] in
theorem trans {chain'' : Chain} (h : TakesOut chain chain') (h' : TakesOut chain' chain'') :
    TakesOut chain chain'' where
  fewer hash entry hentry := h.fewer hash entry (h'.fewer hash entry hentry)
  left hash entry hentry hnone := by
    cases hmid : chain'.orphans.lookup hash with
    | none => exact h'.known _ (h.left hash entry hentry hmid)
    | some other =>
        have hsame := h.fewer hash other hmid
        rw [hentry] at hsame
        obtain rfl := Option.some.inj hsame
        exact h'.left hash entry hmid hnone
  known hash hknown := h'.known hash (h.known hash hknown)
  seq := h'.seq.trans h.seq
  events := by
    obtain ⟨more, hmore, hnone⟩ := h.events
    obtain ⟨more', hmore', hnone'⟩ := h'.events
    refine ⟨more ++ more', by rw [hmore', hmore, List.append_assoc], fun event hevent ↦ ?_⟩
    exact (List.mem_append.mp hevent).elim (hnone event) (hnone' event)

omit [Crypto] in
/-- The pool stays as it is, the index grows and events that do not concern it are pushed. -/
theorem of_same (horphans : chain'.orphans = chain.orphans)
    (hseq : chain'.orphanReceiveSeq = chain.orphanReceiveSeq)
    (hknown : ∀ hash, chain.known.lookup hash ≠ none → chain'.known.lookup hash ≠ none)
    (more : List ChainEvent)
    (hmore : chain'.eventJournal.pushed = chain.eventJournal.pushed ++ more)
    (hnone : ∀ event ∈ more, ¬ ConcernsOrphans event) : TakesOut chain chain' where
  fewer hash entry hentry := by rwa [horphans] at hentry
  left hash entry hentry hnone := by
    rw [horphans, hentry] at hnone
    cases hnone
  known := hknown
  seq := hseq
  events := ⟨more, hmore, hnone⟩

theorem popTip (chain : Chain) (tip : Block) : TakesOut chain (chain.popTip tip) :=
  .of_same rfl rfl (fun _ h ↦ h) [_] rfl (by simp [ConcernsOrphans])

theorem rewind (blocks : List Block) (chain : Chain) :
    TakesOut chain (Chain.rewind blocks chain) := by
  induction blocks with
  | nil => exact .refl chain
  | cons block rest ih => exact ih.trans (.popTip _ block)

theorem pushTip (chain : Chain) (block : Block) (height : ℕ) (work : ChainWork) :
    TakesOut chain (chain.pushTip block height work) := by
  refine .of_same rfl rfl (fun hash hknown ↦ ?_) [_] rfl (by simp [ConcernsOrphans])
  rw [pushTip_known]
  split
  · simp
  · exact hknown

theorem of_connectsPath [Features] {path : List Block} (h : ConnectsPath path chain chain') :
    TakesOut chain chain' := by
  induction h with
  | nil chain => exact .refl chain
  | cons valid _ ih => exact (pushTip _ _ _ _).trans ih

theorem of_placement [Features] {parent : BlockMeta} {work : ChainWork}
    {outcome : ChainResult ConnectResult × Chain}
    (h : Placement chain block parent work outcome) : TakesOut chain outcome.2 := by
  cases h with
  | extended _ =>
      exact (pushTip chain block (parent.height + 1) (parent.work.add work)).trans
        (.of_same rfl rfl (fun _ h ↦ h) [] (List.append_nil _).symm (by simp))
  | side _ _ =>
      refine .of_same rfl rfl (fun hash hknown ↦ ?_) [] (List.append_nil _).symm (by simp)
      rw [storeSide_known]
      split
      · simp
      · exact hknown
  | reorganized _ _ _ connects =>
      exact ((rewind _ chain).trans (of_connectsPath connects)).trans
        (.of_same rfl rfl (fun _ h ↦ h) [_] rfl (by simp [ConcernsOrphans]))
  | failed _ _ _ _ _ _ _ connects =>
      exact ((rewind _ chain).trans (of_connectsPath connects)).trans
        (.of_same rfl rfl (fun _ h ↦ h) [] (List.append_nil _).symm (by simp))

variable [Features]

theorem connectAlone (h : Indexed genesis chain) (order : OrphanOrder)
    (hadm : chain.admission block ≠ .ok none) :
    TakesOut chain (Chain.connectAlone order block chain).2 := by
  rw [connectAlone_eq]
  cases hfound : chain.admission block with
  | error e => exact .refl chain
  | ok found =>
      cases found with
      | none => exact (hadm hfound).elim
      | some pair => exact .of_placement (place_placement h (admission_some_iff.mp hfound))

end TakesOut

omit [Crypto] in
/-- What is not listed stays in the pool. -/
theorem foldl_dequeueOrphan_kept (ready : List Hash256) (state : OrphanMap × List Block)
    {hash : Hash256} (hnot : hash ∉ ready) :
    (ready.foldl dequeueOrphan state).1.lookup hash = state.1.lookup hash := by
  induction ready generalizing state with
  | nil => rfl
  | cons first rest ih =>
      rw [List.mem_cons, not_or] at hnot
      rw [List.foldl_cons, ih _ hnot.2, dequeueOrphan]
      split
      · rw [EntryMap.lookup_erase_ite, if_neg hnot.1]
      · rfl

omit [Crypto] in
/-- What a collection takes out has a known parent. -/
theorem TakesOut.enqueueReadyOrphans (order : OrphanOrder) (chain : Chain) (queue : List Block) :
    TakesOut chain (chain.enqueueReadyOrphans order queue).1 where
  fewer := foldl_dequeueOrphan_fewer _ _
  left hash entry hentry hnone := by
    intro hunknown
    have hnot : hash ∉ readyHashes order chain := by
      intro hmem
      obtain ⟨found, hfound, hknown⟩ := mem_readyHashes.mp hmem
      rw [hentry] at hfound
      obtain rfl := Option.some.inj hfound
      exact hknown hunknown
    have hkept := foldl_dequeueOrphan_kept _ (chain.orphans, queue) hnot
    exact absurd (hentry.symm.trans (hkept.symm.trans hnone)) (by simp)
  known _ h := h
  seq := rfl
  events := ⟨[], (List.append_nil _).symm, by simp⟩

variable [Features]

theorem TakesOut.processOrphansLoop (order : OrphanOrder) (fuel : ℕ) (queue : List Block)
    (h : Coherent genesis chain) (hqueue : ParentsKnown chain queue) :
    TakesOut chain (Chain.processOrphansLoop order fuel queue chain).2 := by
  induction fuel generalizing queue chain with
  | zero => exact .refl chain
  | succ fuel ih =>
      cases queue with
      | nil => exact .refl chain
      | cons next queue =>
          have hnext := hqueue next List.mem_cons_self
          have hcoherent := connectAlone_coherent h order next
          have hstep : TakesOut chain (Chain.connectAlone order next chain).2 :=
            .connectAlone h.indexed order fun hnone ↦ hnext (admission_none_iff.mp hnone).2.2.2
          unfold Chain.processOrphansLoop
          cases hconnect : Chain.connectAlone order next chain with
          | mk outcome placed =>
            rw [hconnect] at hcoherent hstep
            cases outcome with
            | error stop => exact hstep
            | ok result =>
                have hrest : ParentsKnown placed queue := fun b hb ↦
                  hstep.known _ (hqueue b (List.mem_cons_of_mem _ hb))
                have htaken := TakesOut.enqueueReadyOrphans order placed queue
                exact (hstep.trans htaken).trans
                  (ih _ ((enqueueReadyOrphans_fewer order placed queue).coherent hcoherent)
                    (enqueueReadyOrphans_parentsKnown order hrest))

/-- A call that does not store its block as an orphan stores none. -/
theorem TakesOut.connectBlock (h : Coherent genesis chain) (order : OrphanOrder)
    (hadm : chain.admission block ≠ .ok none) :
    TakesOut chain (Chain.connectBlock order block chain).2 := by
  have hcoherent := connectAlone_coherent h order block
  have hstep : TakesOut chain (Chain.connectAlone order block chain).2 :=
    .connectAlone h.indexed order hadm
  rw [connectBlock_eq]
  cases hconnect : Chain.connectAlone order block chain with
  | mk outcome placed =>
    rw [hconnect] at hcoherent hstep
    cases outcome with
    | error e => exact hstep
    | ok result =>
        simp only
        split
        · have htaken := TakesOut.enqueueReadyOrphans order placed []
          have hprocess : TakesOut placed (processOrphans order placed).2 :=
            htaken.trans (.processOrphansLoop order _ _
              ((enqueueReadyOrphans_fewer order placed []).coherent hcoherent)
              (enqueueReadyOrphans_parentsKnown order fun _ hb ↦ by cases hb))
          cases hdone : processOrphans order placed with
          | mk promoted done =>
            rw [hdone] at hprocess
            cases promoted <;> exact hstep.trans hprocess
        · exact hstep

/-! ## Runs -/

omit [Crypto] [Features] in
/-- The orphans by arrival, with the one that a call has just stored. -/
def arrived (waiting : List Hash256) : ChainResult ConnectResult → List Hash256
  | .ok (.orphaned hash) => waiting ++ [hash]
  | _ => waiting

omit [Crypto] [Features] in
/-- Those of them that are in the pool. -/
def stillWaiting (chain : Chain) (waiting : List Hash256) : List Hash256 :=
  waiting.filter fun hash ↦ (chain.orphans.lookup hash).isSome

/-- The states of the runs in which the counter wraps, with the orphans by arrival. -/
inductive U64.Run (genesis : Block) : Chain → List Hash256 → Prop
  | start {networkTime : UInt32} {capacity : ℕ} {chain : Chain}
      (created : withJournalCapacities genesis networkTime capacity = .ok chain) :
      U64.Run genesis chain []
  | connect {chain : Chain} {waiting : List Hash256} (order : OrphanOrder) (block : Block)
      (run : U64.Run genesis chain waiting)
      (returned : Returned (U64.connectBlock order block chain).1) :
      U64.Run genesis (U64.connectBlock order block chain).2
        (stillWaiting (U64.connectBlock order block chain).2
          (arrived waiting (U64.connectBlock order block chain).1))
  | setTime {chain : Chain} {waiting : List Hash256} (networkTime : UInt32)
      (run : U64.Run genesis chain waiting) :
      U64.Run genesis (setNetworkTime networkTime chain).2 waiting
  | takeEvents {chain : Chain} {waiting : List Hash256} (run : U64.Run genesis chain waiting) :
      U64.Run genesis (Chain.takeEvents chain).2 waiting

/-- The list has the orphans in the order of their stamps, which the counter has given out. -/
structure Queued (chain : Chain) (waiting : List Hash256) : Prop where
  arrivals : Arrivals OrphanEntry.receivedAt chain.orphans waiting
  stamped : ∀ hash entry, chain.orphans.lookup hash = some entry →
    0 < entry.receivedAt ∧ entry.receivedAt ≤ chain.orphanReceiveSeq
  few : chain.orphans.entries.length ≤ maxOrphanBlocks

omit [Crypto] [Features] in
theorem lookup_dropped {dropped : List Hash256} {pool : OrphanMap} {hash : Hash256}
    {entry : OrphanEntry}
    (h : (dropped.foldl (fun pool hash ↦ pool.erase hash) pool).lookup hash = some entry) :
    pool.lookup hash = some entry := by
  induction dropped generalizing pool with
  | nil => exact h
  | cons first rest ih =>
      have hrest := ih h
      rw [EntryMap.lookup_erase_ite] at hrest
      split at hrest
      · cases hrest
      · exact hrest

omit [Features] in
/-- What is in the pool was there before, or is the new orphan. -/
theorem Stores.lookup_cases {dropped : List Hash256} (h : Stores chain block dropped chain')
    {hash : Hash256} {entry : OrphanEntry} (hentry : chain'.orphans.lookup hash = some entry) :
    (hash = block.hash ∧ entry = ⟨block, chain.orphanReceiveSeq + 1⟩) ∨
      (hash ≠ block.hash ∧ chain.orphans.lookup hash = some entry) := by
  rw [h.orphans, EntryMap.lookup_insert_ite] at hentry
  split at hentry
  · exact Or.inl ⟨‹_›, (Option.some.inj hentry).symm⟩
  · exact Or.inr ⟨‹_›, lookup_dropped hentry⟩

omit [Features] in
/-- The new orphan is one more, and every orphan dropped one fewer. -/
theorem Stores.length_eq {dropped : List Hash256} (h : Stores chain block dropped chain')
    (hnew : chain.orphans.lookup block.hash = none) :
    chain'.orphans.entries.length =
      (dropped.foldl (fun pool hash ↦ pool.erase hash) chain.orphans).entries.length + 1 := by
  have hgone : (dropped.foldl (fun pool hash ↦ pool.erase hash) chain.orphans).lookup
      block.hash = none := by
    rw [Option.eq_none_iff_forall_ne_some]
    intro entry hentry
    rw [lookup_dropped hentry] at hnew
    cases hnew
  rw [h.orphans, AList.entries_insert_of_notMem (AList.lookup_eq_none.mp hgone), List.length_cons]

omit [Features] in
theorem Stores.coherent {dropped : List Hash256} (h : Stores chain block dropped chain')
    (hcoherent : Coherent genesis chain) (hunknown : chain.known.lookup block.hash = none) :
    Coherent genesis chain' := by
  refine ⟨hcoherent.indexed.congr h.blocks h.activeHashes h.known, fun hash entry hentry ↦ ?_⟩
  rw [h.known]
  rcases h.lookup_cases hentry with ⟨rfl, -⟩ | ⟨-, hold⟩
  · exact hunknown
  · exact hcoherent.orphan_unknown hash entry hold

omit [Features] in
theorem Stores.arrivals {dropped : List Hash256} (h : Stores chain block dropped chain')
    (hqueued : Queued chain waiting) (hnew : chain.orphans.lookup block.hash = none) :
    Arrivals OrphanEntry.receivedAt chain'.orphans
      (stillWaiting chain' (waiting ++ [block.hash])) := by
  have hlast : ∀ hash entry, chain.orphans.lookup hash = some entry →
      entry.receivedAt < chain.orphanReceiveSeq + 1 :=
    fun hash entry hentry ↦ Nat.lt_succ_of_le (hqueued.stamped hash entry hentry).2
  have hjoined := hqueued.arrivals.join
    (v := (⟨block, chain.orphanReceiveSeq + 1⟩ : OrphanEntry)) hnew hlast
  apply hjoined.keep
  intro hash entry hentry
  rw [EntryMap.lookup_insert_ite]
  rcases h.lookup_cases hentry with ⟨rfl, rfl⟩ | ⟨hne, hold⟩
  · rw [if_pos rfl]
  · rw [if_neg hne, hold]

omit [Features] in
theorem Stores.queued {dropped : List Hash256} (h : Stores chain block dropped chain')
    (hqueued : Queued chain waiting) (hnew : chain.orphans.lookup block.hash = none)
    (hfew : chain'.orphans.entries.length ≤ maxOrphanBlocks) :
    Queued chain' (stillWaiting chain' (waiting ++ [block.hash])) := by
  refine ⟨h.arrivals hqueued hnew, fun hash entry hentry ↦ ?_, hfew⟩
  rw [h.seq]
  rcases h.lookup_cases hentry with ⟨-, rfl⟩ | ⟨-, hold⟩
  · exact ⟨Nat.succ_pos _, Nat.le_refl _⟩
  · obtain ⟨hpos, hle⟩ := hqueued.stamped hash entry hold
    exact ⟨hpos, hle.trans (Nat.le_succ _)⟩

omit [Crypto] [Features] in
theorem TakesOut.queued (h : TakesOut chain chain') (hqueued : Queued chain waiting) :
    Queued chain' (stillWaiting chain' waiting) := by
  have harrivals := hqueued.arrivals.keep h.fewer
  refine ⟨harrivals, fun hash entry hentry ↦ ?_, ?_⟩
  · rw [h.seq]
    exact hqueued.stamped hash entry (h.fewer hash entry hentry)
  · have hlength := List.length_filter_le (fun hash ↦ (chain'.orphans.lookup hash).isSome) waiting
    rw [hqueued.arrivals.length_eq] at hlength
    have hkept := harrivals.length_eq
    have hfew := hqueued.few
    omega

/-! ## One call -/

/-- A block that is not stored as an orphan is not reported as one. -/
theorem connectBlock_not_orphaned (h : Indexed genesis chain) (order : OrphanOrder)
    (hadm : chain.admission block ≠ .ok none) (hash : Hash256) :
    (connectBlock order block chain).1 ≠ .ok (.orphaned hash) := by
  have halone : ∀ placed, connectAlone order block chain ≠ (.ok (.orphaned hash), placed) := by
    intro placed hok
    rw [connectAlone_eq] at hok
    cases hfound : chain.admission block with
    | error e =>
        rw [hfound] at hok
        cases hok
    | ok found =>
        cases found with
        | none => exact hadm hfound
        | some pair =>
            have hplace := place_placement h (admission_some_iff.mp hfound)
            rw [hfound] at hok
            simp only at hok
            rw [hok] at hplace
            cases hplace
  intro hok
  rw [connectBlock_eq] at hok
  cases hconnect : connectAlone order block chain with
  | mk outcome placed =>
    rw [hconnect] at hok
    cases outcome with
    | error e => cases hok
    | ok result =>
        simp only at hok
        split at hok
        · cases hprocess : processOrphans order placed with
          | mk promoted done =>
            rw [hprocess] at hok
            cases promoted with
            | error e => cases hok
            | ok _ =>
                obtain rfl := Except.ok.inj hok
                exact halone placed hconnect
        · obtain rfl := Except.ok.inj hok
          exact halone placed hconnect

/-- A call stores its block as an orphan, or does what it does with a counter that never wraps. -/
theorem U64.connectBlock_cases (order : OrphanOrder) (block : Block) (chain : Chain) :
    (chain.admission block = .ok none ∧ U64.connectBlock order block chain =
        (.ok (.orphaned block.hash), U64.insertOrphan order chain block)) ∨
      (chain.admission block ≠ .ok none ∧
        U64.connectBlock order block chain = Chain.connectBlock order block chain) := by
  unfold U64.connectBlock
  cases hadm : chain.admission block with
  | error e => exact Or.inr ⟨by simp, rfl⟩
  | ok found =>
      cases found with
      | none => exact Or.inl ⟨rfl, rfl⟩
      | some pair => exact Or.inr ⟨by simp, rfl⟩

omit [Crypto] [Features] in
/-- While the stamps fit in a word, the orphan with the least one has waited longest. -/
theorem Queued.head_of_least (h : Queued chain waiting) (hfew : chain.orphanReceiveSeq < 2 ^ 64)
    {victim : Hash256} {entry : OrphanEntry} (hvictim : chain.orphans.lookup victim = some entry)
    (hleast : ∀ hash other, chain.orphans.lookup hash = some other →
      entry.stamp.toNat ≤ other.stamp.toNat) : waiting.head? = some victim := by
  have hword : ∀ hash other, chain.orphans.lookup hash = some other →
      other.stamp.toNat = other.receivedAt :=
    fun hash other hother ↦ stamp_toNat ((h.stamped hash other hother).2.trans_lt hfew)
  apply h.arrivals.head_eq hvictim
  intro hash other hother
  have hle := hleast hash other hother
  rwa [hword victim entry hvictim, hword hash other hother] at hle

omit [Features] in
/-- Storing an orphan in a pool with room drops none, in a full pool one. -/
theorem U64.insertOrphan_cases (order : OrphanOrder) (h : Queued chain waiting)
    (hnew : chain.orphans.lookup block.hash = none) :
    (U64.insertOrphan order chain block).orphans.entries.length ≤ maxOrphanBlocks ∧
      ((chain.orphans.entries.length < maxOrphanBlocks ∧
          Stores chain block [] (U64.insertOrphan order chain block)) ∨
        (chain.orphans.entries.length = maxOrphanBlocks ∧
          ∃ victim ∈ waiting,
            (chain.orphanReceiveSeq < 2 ^ 64 → waiting.head? = some victim) ∧
            Stores chain block [victim] (U64.insertOrphan order chain block))) := by
  rcases U64.insertOrphan_spec order chain block with
    ⟨hroom, hstores⟩ | ⟨hfull, victim, entry, hvictim, hleast, hstores⟩
  · refine ⟨?_, Or.inl ⟨hroom, hstores⟩⟩
    rw [hstores.length_eq hnew]
    exact hroom
  · have hcount := EntryMap.length_erase_add_one hvictim
    refine ⟨?_, Or.inr ⟨Nat.le_antisymm h.few hfull, victim, ?_, ?_, hstores⟩⟩
    · rw [hstores.length_eq hnew]
      exact hcount.le.trans h.few
    · exact (h.arrivals.mem_iff victim).mpr (by rw [hvictim]; rfl)
    · exact fun hfew ↦ h.head_of_least hfew hvictim hleast

theorem U64.Run.queued (h : U64.Run genesis chain waiting) :
    Coherent genesis chain ∧ Queued chain waiting := by
  induction h with
  | start created =>
      refine ⟨withJournalCapacities_coherent created, ?_⟩
      obtain ⟨work, -, rfl⟩ := withJournalCapacities_spec created
      exact ⟨.empty, fun _ _ hentry ↦ (nomatch hentry), Nat.zero_le _⟩
  | @connect chain waiting order block run returned ih =>
      obtain ⟨hcoherent, hqueued⟩ := ih
      rcases U64.connectBlock_cases order block chain with ⟨hadm, hcall⟩ | ⟨hadm, hcall⟩
      · obtain ⟨-, hunknown, hnew, -⟩ := admission_none_iff.mp hadm
        obtain ⟨hfew, hstored⟩ := U64.insertOrphan_cases order hqueued hnew
        rw [hcall]
        rcases hstored with ⟨-, hstores⟩ | ⟨-, victim, -, -, hstores⟩
        · exact ⟨hstores.coherent hcoherent hunknown, hstores.queued hqueued hnew hfew⟩
        · exact ⟨hstores.coherent hcoherent hunknown, hstores.queued hqueued hnew hfew⟩
      · have hpromoted := TakesOut.connectBlock hcoherent order hadm
        have hnot := connectBlock_not_orphaned hcoherent.indexed order hadm
        have hkept : arrived waiting (Chain.connectBlock order block chain).1 = waiting := by
          unfold arrived
          split
          · rename_i hash heq
            exact (hnot hash heq).elim
          · rfl
        rw [hcall, hkept]
        refine ⟨connectBlock_induction order block chain (Coherent genesis) ?_ ?_ hcoherent,
          hpromoted.queued hqueued⟩
        · exact fun _ _ hc hfewer ↦ hfewer.coherent hc
        · exact fun _ b hc _ ↦ connectAlone_coherent hc order b
  | @setTime chain waiting networkTime run ih =>
      obtain ⟨hcoherent, hqueued⟩ := ih
      unfold setNetworkTime
      split
      · exact ⟨hcoherent, hqueued⟩
      · exact ⟨hcoherent.congr rfl rfl rfl rfl, hqueued.arrivals, hqueued.stamped, hqueued.few⟩
  | @takeEvents chain waiting run ih =>
      obtain ⟨hcoherent, hqueued⟩ := ih
      exact ⟨hcoherent.congr rfl rfl rfl rfl, hqueued.arrivals, hqueued.stamped, hqueued.few⟩

/-! ## Before the counter wraps -/

omit [Crypto] [Features] in
/-- The least element depends on the values only. -/
theorem argmin_congr {α : Type} {f g : α → ℕ} {l : List α} (h : ∀ a ∈ l, f a = g a) :
    l.argmin f = l.argmin g := by
  induction l using List.reverseRecOn with
  | nil => rfl
  | append_singleton l a ih =>
      rw [List.argmin_concat, List.argmin_concat,
        ih fun b hb ↦ h b (List.mem_append_left _ hb)]
      cases hleast : l.argmin g with
      | none => rfl
      | some b =>
          have hb : b ∈ l := List.argmin_mem hleast
          simp only [h a (by simp), h b (List.mem_append_left _ hb)]

omit [Features] in
theorem U64.insertOrphan_eq (h : Queued chain waiting) (hfew : chain.orphanReceiveSeq < 2 ^ 64)
    (order : OrphanOrder) (block : Block) :
    U64.insertOrphan order chain block = chain.insertOrphan order block := by
  have hevict : U64.evictOldestOrphan order chain = chain.evictOldestOrphan order := by
    have hwords : ∀ entry ∈ order.iter chain.orphans.entries,
        entry.2.stamp.toNat = entry.2.receivedAt := by
      intro entry hentry
      have hlookup := EntryMap.mem_entries_iff.mp ((order.perm _).mem_iff.mp hentry)
      exact stamp_toNat ((h.stamped entry.1 entry.2 hlookup).2.trans_lt hfew)
    rw [U64.evictOldestOrphan, argmin_congr hwords]
    rfl
  rw [U64.insertOrphan, hevict, Chain.insertOrphan]

/-- Until then the wrapping counter makes no difference. -/
theorem U64.Run.reachable (h : U64.Run genesis chain waiting)
    (hfew : chain.orphanReceiveSeq ≤ 2 ^ 64) : Reachable genesis chain := by
  induction h with
  | start created => exact .start created
  | @connect chain waiting order block run returned ih =>
      obtain ⟨hcoherent, hqueued⟩ := run.queued
      rcases U64.connectBlock_cases order block chain with ⟨hadm, hcall⟩ | ⟨hadm, hcall⟩
      · obtain ⟨-, -, hnew, -⟩ := admission_none_iff.mp hadm
        rw [hcall] at hfew returned ⊢
        have hseq : (U64.insertOrphan order chain block).orphanReceiveSeq =
            chain.orphanReceiveSeq + 1 := by
          rcases (U64.insertOrphan_cases order hqueued hnew).2 with
            ⟨-, hstores⟩ | ⟨-, victim, -, -, hstores⟩ <;> exact hstores.seq
        have hless : chain.orphanReceiveSeq + 1 ≤ 2 ^ 64 := hseq ▸ hfew
        have hplain := connectBlock_orphaned order hadm
        rw [← U64.insertOrphan_eq hqueued hless] at hplain
        have hnext := ReachableWith.connect order block (ih (Nat.le_of_succ_le hless))
          (by rw [hplain]; exact returned) (by simp)
        rwa [hplain] at hnext
      · rw [hcall] at hfew returned ⊢
        rw [(TakesOut.connectBlock hcoherent order hadm).seq] at hfew
        exact .connect order block (ih hfew) returned (by simp)
  | @setTime chain waiting networkTime run ih =>
      refine .setTime networkTime (ih ?_)
      unfold setNetworkTime at hfew
      split at hfew <;> exact hfew
  | takeEvents _ ih => exact .takeEvents (ih hfew)

/-! ## The pool over whole runs -/

/-- In every state of a run the pool has room for no more than its limit, and the list names its
orphans by arrival.  A call that stores an orphan drops none while there is room, and exactly one
from a full pool, the one that has waited longest as long as the counter has not wrapped.  Any other
call takes out only orphans whose parent is known, and announces nothing about the pool. -/
theorem U64.orphan_pool_fifo (h : U64.Run genesis chain waiting) :
    chain.orphans.entries.length ≤ maxOrphanBlocks ∧
    (waiting.Nodup ∧ ∀ hash, hash ∈ waiting ↔ (chain.orphans.lookup hash).isSome) ∧
    (∀ order block,
      ((U64.connectBlock order block chain).1 = .ok (.orphaned block.hash) ∧
        ((chain.orphans.entries.length < maxOrphanBlocks ∧
            Stores chain block [] (U64.connectBlock order block chain).2) ∨
          (chain.orphans.entries.length = maxOrphanBlocks ∧
            ∃ victim ∈ waiting,
              (chain.orphanReceiveSeq < 2 ^ 64 → waiting.head? = some victim) ∧
              Stores chain block [victim] (U64.connectBlock order block chain).2))) ∨
      ((∀ hash, (U64.connectBlock order block chain).1 ≠ .ok (.orphaned hash)) ∧
        TakesOut chain (U64.connectBlock order block chain).2)) ∧
    (∀ networkTime, (setNetworkTime networkTime chain).2.orphans = chain.orphans) ∧
    (takeEvents chain).2.orphans = chain.orphans := by
  obtain ⟨hcoherent, hqueued⟩ := h.queued
  refine ⟨hqueued.few, ⟨hqueued.arrivals.nodup, hqueued.arrivals.mem_iff⟩, ?_, ?_, rfl⟩
  · intro order block
    rcases U64.connectBlock_cases order block chain with ⟨hadm, hcall⟩ | ⟨hadm, hcall⟩
    · have hnew := (admission_none_iff.mp hadm).2.2.1
      rw [hcall]
      exact Or.inl ⟨rfl, (U64.insertOrphan_cases order hqueued hnew).2⟩
    · rw [hcall]
      exact Or.inr ⟨connectBlock_not_orphaned hcoherent.indexed order hadm,
        .connectBlock hcoherent order hadm⟩
  · intro networkTime
    unfold setNetworkTime
    split
    · rfl
    · rfl

/-! ## The counter wraps -/

/-- Blocks that are stored as orphans wherever the index is that of `base`, more of them than the
pool takes. -/
structure Homeless (base : Chain) (blocks : List Block) : Prop where
  many : maxOrphanBlocks < blocks.length
  distinct : (blocks.map Block.hash).Nodup
  limits : ∀ b ∈ blocks, validateBlockLimits b = .ok ()
  unknown : ∀ b ∈ blocks, base.known.lookup b.hash = none
  parent_unknown : ∀ b ∈ blocks, base.known.lookup b.header.prevBlockhash = none

/-- A run stored so many orphans and nothing else. -/
structure Filled (genesis : Block) (base : Chain) (count : ℕ) (chain : Chain)
    (waiting : List Hash256) : Prop where
  run : U64.Run genesis chain waiting
  seq : chain.orphanReceiveSeq = count
  known : chain.known = base.known
  length : chain.orphans.entries.length = min count maxOrphanBlocks
  newest : 0 < count → ∃ hash entry, chain.orphans.lookup hash = some entry ∧
    entry.receivedAt = count

variable {base : Chain} {blocks : List Block} {count : ℕ}

omit [Features] in
/-- One of the blocks is not in the pool. -/
theorem Homeless.exists_new (h : Homeless base blocks) (hqueued : Queued chain waiting) :
    ∃ b ∈ blocks, chain.orphans.lookup b.hash = none := by
  by_contra hall
  have hsubset : blocks.map Block.hash ⊆ waiting := by
    intro hash hmem
    obtain ⟨b, hb, rfl⟩ := List.mem_map.mp hmem
    by_contra hnot
    refine hall ⟨b, hb, ?_⟩
    rw [hqueued.arrivals.mem_iff] at hnot
    exact Option.not_isSome_iff_eq_none.mp hnot
  have hlength := (h.distinct.subperm hsubset).length_le
  rw [List.length_map, hqueued.arrivals.length_eq] at hlength
  exact absurd (hlength.trans hqueued.few) (Nat.not_le_of_lt h.many)

/-- The next orphan can be stored. -/
theorem Filled.admission (h : Filled genesis base count chain waiting)
    (hblocks : Homeless base blocks) :
    ∃ b ∈ blocks, chain.orphans.lookup b.hash = none ∧ chain.admission b = .ok none := by
  obtain ⟨b, hb, hnew⟩ := hblocks.exists_new h.run.queued.2
  refine ⟨b, hb, hnew, admission_none_iff.mpr ⟨hblocks.limits b hb, ?_, hnew, ?_⟩⟩
  · rw [h.known]
    exact hblocks.unknown b hb
  · rw [h.known]
    exact hblocks.parent_unknown b hb

theorem Filled.next (h : Filled genesis base count chain waiting) (hblocks : Homeless base blocks)
    (order : OrphanOrder) : ∃ chain' waiting', Filled genesis base (count + 1) chain' waiting' := by
  obtain ⟨b, -, hnew, hadm⟩ := h.admission hblocks
  have hqueued := h.run.queued.2
  have hcall : U64.connectBlock order b chain =
      (.ok (.orphaned b.hash), U64.insertOrphan order chain b) := by
    rw [U64.connectBlock, hadm]
  have hrun := U64.Run.connect order b h.run (by rw [hcall]; simp [Returned])
  have hlength := h.length
  have hstored : ∀ dropped, Stores chain b dropped (U64.insertOrphan order chain b) →
      (U64.insertOrphan order chain b).orphans.entries.length = min (count + 1) maxOrphanBlocks →
        Filled genesis base (count + 1) (U64.connectBlock order b chain).2
          (stillWaiting (U64.connectBlock order b chain).2
            (arrived waiting (U64.connectBlock order b chain).1)) := by
    intro dropped hstores hcount
    rw [hcall] at hrun ⊢
    refine ⟨hrun, hstores.seq.trans (by rw [h.seq]), hstores.known.trans h.known, hcount, ?_⟩
    intro _
    refine ⟨b.hash, ⟨b, count + 1⟩, ?_, rfl⟩
    rw [hstores.orphans, h.seq]
    exact AList.lookup_insert _
  rcases U64.insertOrphan_spec order chain b with
    ⟨hroom, hstores⟩ | ⟨hfull, victim, entry, hvictim, -, hstores⟩
  · refine ⟨_, _, hstored [] hstores ?_⟩
    rw [hstores.length_eq hnew, List.foldl_nil]
    omega
  · have herase := EntryMap.length_erase_add_one hvictim
    refine ⟨_, _, hstored [victim] hstores ?_⟩
    rw [hstores.length_eq hnew, List.foldl_cons, List.foldl_nil, herase]
    omega

theorem exists_filled {networkTime : UInt32} {capacity : ℕ}
    (created : withJournalCapacities genesis networkTime capacity = .ok base)
    (hblocks : Homeless base blocks) (order : OrphanOrder) (count : ℕ) :
    ∃ chain waiting, Filled genesis base count chain waiting := by
  induction count with
  | zero =>
      refine ⟨base, [], .start created, ?_, rfl, ?_, fun hpos ↦ (Nat.lt_irrefl 0 hpos).elim⟩
      · obtain ⟨work, -, rfl⟩ := withJournalCapacities_spec created
        rfl
      · obtain ⟨work, -, rfl⟩ := withJournalCapacities_spec created
        rfl
  | succ count ih =>
      obtain ⟨chain, waiting, hfilled⟩ := ih
      exact hfilled.next hblocks order

omit [Crypto] [Features] in
/-- Where the last number given out is `2 ^ 64`, its orphan has the least stamp, as it is `0`. -/
theorem Queued.newest_of_least (h : Queued chain waiting)
    (hseq : chain.orphanReceiveSeq = 2 ^ 64) {victim : Hash256} {newest entry : OrphanEntry}
    (hlast : newest.receivedAt = 2 ^ 64) (hvictim : chain.orphans.lookup victim = some entry)
    (hleast : entry.stamp.toNat ≤ newest.stamp.toNat) : entry.receivedAt = 2 ^ 64 := by
  obtain ⟨hpos, hle⟩ := h.stamped victim entry hvictim
  rw [OrphanEntry.stamp, OrphanEntry.stamp, UInt64.toNat_ofNat', UInt64.toNat_ofNat', hlast]
    at hleast
  omega

/-- The orphan stored next takes the place of the newest one, and the oldest stays. -/
theorem Filled.oldest_stays (h : Filled genesis base (2 ^ 64) chain waiting)
    (hblocks : Homeless base blocks) (order : OrphanOrder) :
    ∃ b oldest, (U64.connectBlock order b chain).1 = .ok (.orphaned b.hash) ∧
      maxOrphanBlocks ≤ chain.orphans.entries.length ∧ waiting.head? = some oldest ∧
        (U64.connectBlock order b chain).2.orphans.lookup oldest ≠ none := by
  obtain ⟨b, -, hnew, hadm⟩ := h.admission hblocks
  have hqueued := h.run.queued.2
  have hcall : U64.connectBlock order b chain =
      (.ok (.orphaned b.hash), U64.insertOrphan order chain b) := by
    rw [U64.connectBlock, hadm]
  have hcount : chain.orphans.entries.length = maxOrphanBlocks := by
    rw [h.length]
    decide
  rcases U64.insertOrphan_spec order chain b with
    ⟨hroom, -⟩ | ⟨hfull, victim, entry, hvictim, hleast, hstores⟩
  · exact absurd hcount hroom.ne
  · obtain ⟨newest, last, hnewest, hlast⟩ := h.newest (by decide)
    have hgreatest := hqueued.newest_of_least h.seq hlast hvictim (hleast newest last hnewest)
    have hlength := hqueued.arrivals.length_eq
    rw [hcount] at hlength
    have hsorted := hqueued.arrivals.sorted
    have hmem := hqueued.arrivals.mem_iff
    cases waiting with
    | nil => exact absurd hlength (by decide)
    | cons oldest rest =>
      cases rest with
      | nil =>
          rw [List.length_singleton] at hlength
          exact absurd hlength (by decide)
      | cons second rest =>
          obtain ⟨first, hfirst⟩ := Option.isSome_iff_exists.mp
            ((hmem oldest).mp List.mem_cons_self)
          obtain ⟨next, hnext⟩ := Option.isSome_iff_exists.mp
            ((hmem second).mp (List.mem_cons_of_mem _ List.mem_cons_self))
          have hless := List.rel_of_pairwise_cons hsorted List.mem_cons_self first next hfirst hnext
          have hle := (hqueued.stamped second next hnext).2
          rw [h.seq] at hle
          refine ⟨b, oldest, by rw [hcall], hfull, rfl, ?_⟩
          have hneVictim : oldest ≠ victim := by
            rintro rfl
            rw [hvictim] at hfirst
            rw [Option.some.inj hfirst] at hgreatest
            omega
          have hneNew : oldest ≠ b.hash := by
            rintro rfl
            rw [hnew] at hfirst
            cases hfirst
          rw [hcall, hstores.orphans, EntryMap.lookup_insert_ite, if_neg hneNew, List.foldl_cons,
            List.foldl_nil, EntryMap.lookup_erase_ite, if_neg hneVictim, hfirst]
          simp

end Chain

end Bitrst

namespace Bitrst.Sample

open Support

/-- The blocks of the first period but the first, and those that end it or follow on it. -/
def homeless : List Block := approach.tail ++ [prompt, late, capped, sibling]

/-- The blocks that end the period or follow on it have hashes of their own. -/
theorem ends_homeless : ([prompt, late, capped, sibling].map Block.hash).Nodup ∧
    (∀ b ∈ [prompt, late, capped, sibling], Chain.validateBlockLimits b = .ok ()) ∧
    (∀ b ∈ [prompt, late, capped, sibling], b.hash ≠ genesisHash ∧
      b.header.prevBlockhash ≠ genesisHash) := by
  decide +kernel

/-- After the first block each has its parent in the run. -/
theorem approach_parent {b : Block} (hb : b ∈ approach.tail) :
    b.header.prevBlockhash ≠ genesisHash := by
  have hlinked : ∀ (below : Hash256) (bs : List Block), Chain.LinkedAbove below bs →
      below ≠ genesisHash → (∀ b ∈ bs, b.hash ≠ genesisHash) →
        ∀ b ∈ bs, b.header.prevBlockhash ≠ genesisHash := by
    intro below bs
    induction bs generalizing below with
    | nil => exact fun _ _ _ _ hmem ↦ (nomatch hmem)
    | cons first rest ih =>
        intro hlinked hbelow hhashes b hb
        rcases List.mem_cons.mp hb with rfl | hb
        · rw [hlinked.1]
          exact hbelow
        · exact ih first.hash hlinked.2 (hhashes first List.mem_cons_self)
            (fun b hb ↦ hhashes b (List.mem_cons_of_mem _ hb)) b hb
  have hrun : Chain.LinkedAbove genesisHash approach := bareRun_linked _ _ _
  have hhashes : ∀ b ∈ approach, b.hash ≠ genesisHash :=
    fun b hb ↦ approach_apart hb (by simp [otherHashes])
  generalize approach = bs at hb hrun hhashes
  cases bs with
  | nil => cases hb
  | cons first rest =>
      exact hlinked first.hash rest hrun.2 (hhashes first List.mem_cons_self)
        (fun b hb ↦ hhashes b (List.mem_cons_of_mem _ hb)) b hb

theorem start_known {hash : Hash256} (hne : hash ≠ genesisHash) :
    start.known.lookup hash = none := by
  have hpushed := Chain.pushTip_known (Chain.blank 5000 256) genesis 0 easyWork hash
  rw [ends_apart.1, if_neg hne] at hpushed
  exact hpushed

theorem homeless_stored : Chain.Homeless start homeless where
  many := by
    rw [homeless, List.length_append, List.length_tail, approach_length]
    decide
  distinct := by
    obtain ⟨-, hdistinct, -⟩ := approach_spec
    rw [homeless, List.map_append]
    refine List.nodup_append.mpr ⟨?_, ends_homeless.1, ?_⟩
    · exact List.pairwise_map.mpr (hdistinct.sublist (List.tail_sublist _))
    · intro hash hmem hash' hmem'
      obtain ⟨b, hb, rfl⟩ := List.mem_map.mp hmem
      obtain ⟨last, hlast, rfl⟩ := List.mem_map.mp hmem'
      have happroach := List.mem_of_mem_tail hb
      simp only [List.mem_cons, List.not_mem_nil, or_false] at hlast
      rcases hlast with rfl | rfl | rfl | rfl <;>
        exact approach_apart happroach (by simp [otherHashes])
  limits := by
    intro b hb
    rcases List.mem_append.mp hb with hb | hb
    · have hmem := List.mem_of_mem_tail hb
      have hmeets := approach_spec.1 b hmem
      obtain ⟨below, at', nonce, rfl, -⟩ := mem_approach hmem
      exact (bare_bare hmeets).limits
    · exact ends_homeless.2.1 b hb
  unknown := by
    intro b hb
    apply start_known
    rcases List.mem_append.mp hb with hb | hb
    · exact approach_apart (List.mem_of_mem_tail hb) (by simp [otherHashes])
    · exact (ends_homeless.2.2 b hb).1
  parent_unknown := by
    intro b hb
    apply start_known
    rcases List.mem_append.mp hb with hb | hb
    · exact approach_parent hb
    · exact (ends_homeless.2.2 b hb).2

/-- After `2 ^ 64` orphans the next one takes the place of the newest in the pool. -/
theorem oldest_not_evicted : ¬ ∀ chain waiting, Chain.U64.Run genesis chain waiting →
    ∀ order block, (Chain.U64.connectBlock order block chain).1 = .ok (.orphaned block.hash) →
      maxOrphanBlocks ≤ chain.orphans.entries.length →
        ∃ oldest, waiting.head? = some oldest ∧
          (Chain.U64.connectBlock order block chain).2.orphans.lookup oldest = none := by
  intro h
  obtain ⟨chain, waiting, hfilled⟩ :=
    Chain.exists_filled start_created homeless_stored order (2 ^ 64)
  obtain ⟨b, oldest, hcall, hfull, hhead, hstays⟩ := hfilled.oldest_stays homeless_stored order
  obtain ⟨first, hfirst, hgone⟩ := h chain waiting hfilled.run order b hcall hfull
  obtain rfl := Option.some.inj (hhead.symm.trans hfirst)
  exact hstays hgone

/-- After 300 orphans the pool is full, and the next one takes the place of the oldest. -/
theorem oldest_evicted : ∃ chain waiting block oldest, Chain.U64.Run genesis chain waiting ∧
    chain.orphans.entries.length = maxOrphanBlocks ∧ waiting.head? = some oldest ∧
      Chain.Stores chain block [oldest] (Chain.U64.connectBlock order block chain).2 := by
  obtain ⟨chain, waiting, hfilled⟩ := Chain.exists_filled start_created homeless_stored order 300
  obtain ⟨block, -, -, hadm⟩ := hfilled.admission homeless_stored
  have hcount : chain.orphans.entries.length = maxOrphanBlocks := by
    rw [hfilled.length]
    decide
  have hcall : (Chain.U64.connectBlock order block chain).1 = .ok (.orphaned block.hash) := by
    rw [Chain.U64.connectBlock, hadm]
  obtain ⟨-, -, hcalls, -⟩ := Chain.U64.orphan_pool_fifo hfilled.run
  rcases hcalls order block with ⟨-, ⟨hroom, -⟩ | ⟨-, oldest, -, hhead, hstores⟩⟩ | ⟨hnot, -⟩
  · exact absurd hcount hroom.ne
  · have hfew : chain.orphanReceiveSeq < 2 ^ 64 := by
      rw [hfilled.seq]
      decide
    exact ⟨chain, waiting, block, oldest, hfilled.run, hcount, hhead hfew, hstores⟩
  · exact absurd hcall (hnot block.hash)

end Bitrst.Sample
