import Bitrst.ForkWalk
import Bitrst.OrphanPromotion

/-!
# The iteration order of the orphan map

Ready orphans are connected in the order in which the orphan map is iterated.  The
order makes no difference where every collection finds at most one of them: then two
runs over the same blocks go through the same states.  Eviction looks for the oldest
orphan, and the oldest is unique.
-/

namespace Bitrst

open Support

variable [Crypto] [Features]

namespace Chain

variable {genesis : Block} {chain : Chain} {block : Block}

/-- An orphan of the pool whose parent is known. -/
def Ready (chain : Chain) (hash : Hash256) (entry : OrphanEntry) : Prop :=
  chain.orphans.lookup hash = some entry ∧
    chain.known.lookup entry.block.header.prevBlockhash ≠ none

/-- A collection finds at most one orphan. -/
def OneReady (chain : Chain) : Prop :=
  ∀ hash entry hash' entry', Ready chain hash entry → Ready chain hash' entry' → hash = hash'

/-- The hashes that are known, or may become known while orphans are promoted after the block. -/
inductive Released (chain : Chain) (block : Block) : Hash256 → Prop
  | known {hash : Hash256} (h : chain.known.lookup hash ≠ none) : Released chain block hash
  | delivered : Released chain block block.hash
  | orphan {hash : Hash256} {entry : OrphanEntry} (h : chain.orphans.lookup hash = some entry)
      (parent : Released chain block entry.block.header.prevBlockhash) :
      Released chain block entry.block.hash

/-- At most one orphan waits for the block or has a known parent, and no two of those that may
be promoted after it have the same parent. -/
structure OneAtATime (chain : Chain) (block : Block) : Prop where
  first : ∀ hash entry hash' entry', chain.orphans.lookup hash = some entry →
    chain.orphans.lookup hash' = some entry' →
    (entry.block.header.prevBlockhash = block.hash ∨
      chain.known.lookup entry.block.header.prevBlockhash ≠ none) →
    (entry'.block.header.prevBlockhash = block.hash ∨
      chain.known.lookup entry'.block.header.prevBlockhash ≠ none) → hash = hash'
  next : ∀ hash entry hash' entry', chain.orphans.lookup hash = some entry →
    chain.orphans.lookup hash' = some entry' →
    Released chain block entry.block.header.prevBlockhash →
    entry'.block.header.prevBlockhash = entry.block.header.prevBlockhash → hash = hash'

/-- The block passes its checks and extends the tip or has more work, so orphans may be promoted
after it. -/
def Promotes (chain : Chain) (block : Block) : Prop :=
  (∃ parent work, Admitted chain block parent work) ∧ Leads chain block

/-! ## One collection -/

omit [Crypto] [Features] in
/-- What a collection takes out of the pool, in the order of the map. -/
def readyHashes (order : OrphanOrder) (chain : Chain) : List Hash256 :=
  ((order.iter chain.orphans.entries).filter fun entry ↦
    (chain.known.lookup entry.2.block.header.prevBlockhash).isSome).map Sigma.fst

omit [Crypto] [Features] in
theorem enqueueReadyOrphans_eq (order : OrphanOrder) (chain : Chain) (queue : List Block) :
    chain.enqueueReadyOrphans order queue =
      ({ chain with
        orphans := ((readyHashes order chain).foldl dequeueOrphan (chain.orphans, queue)).1 },
        ((readyHashes order chain).foldl dequeueOrphan (chain.orphans, queue)).2) := rfl

omit [Crypto] [Features] in
theorem mem_readyHashes {order : OrphanOrder} {hash : Hash256} :
    hash ∈ readyHashes order chain ↔ ∃ entry, Ready chain hash entry := by
  constructor
  · intro hmem
    obtain ⟨⟨key, entry⟩, hfound, rfl⟩ := List.mem_map.mp hmem
    obtain ⟨hiter, hknown⟩ := List.mem_filter.mp hfound
    exact ⟨entry, EntryMap.mem_entries_iff.mp ((order.perm _).mem_iff.mp hiter),
      Option.isSome_iff_ne_none.mp hknown⟩
  · rintro ⟨entry, hentry, hknown⟩
    have hiter := (order.perm _).mem_iff.mpr (EntryMap.mem_entries_iff.mpr hentry)
    exact List.mem_map.mpr
      ⟨⟨hash, entry⟩, List.mem_filter.mpr ⟨hiter, Option.isSome_iff_ne_none.mpr hknown⟩, rfl⟩

omit [Crypto] [Features] in
theorem readyHashes_nodup (order : OrphanOrder) (chain : Chain) :
    (readyHashes order chain).Nodup := by
  have hkeys : ((order.iter chain.orphans.entries).map Sigma.fst).Nodup :=
    ((order.perm _).map Sigma.fst).nodup_iff.mpr chain.orphans.nodupKeys
  exact hkeys.sublist (List.filter_sublist.map Sigma.fst)

omit [Crypto] [Features] in
theorem readyHashes_perm (order order' : OrphanOrder) (chain : Chain) :
    (readyHashes order chain).Perm (readyHashes order' chain) :=
  (((order.perm _).trans (order'.perm _).symm).filter _).map Sigma.fst

/-- Where no orphan is ready the promotion does nothing. -/
theorem processOrphans_of_noneReady (order : OrphanOrder) (hnone : NoneReady chain) :
    processOrphans order chain = (.ok (), chain) := by
  have hempty : readyHashes order chain = [] := by
    rw [List.eq_nil_iff_forall_not_mem]
    intro hash hmem
    obtain ⟨entry, hentry, hknown⟩ := mem_readyHashes.mp hmem
    exact hknown (hnone hash entry hentry)
  rw [processOrphans, enqueueReadyOrphans_eq, hempty]
  rfl

omit [Crypto] [Features] in
/-- A list without repetitions has at most one entry when all its entries are equal. -/
theorem eq_nil_or_singleton {α : Type} {l : List α} (hnodup : l.Nodup)
    (hone : ∀ a ∈ l, ∀ b ∈ l, a = b) : l = [] ∨ ∃ a, l = [a] := by
  cases l with
  | nil => exact Or.inl rfl
  | cons a rest =>
      refine Or.inr ⟨a, ?_⟩
      cases rest with
      | nil => rfl
      | cons b rest =>
          have heq := hone a List.mem_cons_self b (by simp)
          exact ((List.nodup_cons.mp hnodup).1 (by simp [heq])).elim

omit [Crypto] [Features] in
theorem OneReady.readyHashes_cases (h : OneReady chain) (order : OrphanOrder) :
    readyHashes order chain = [] ∨ ∃ hash, readyHashes order chain = [hash] := by
  apply eq_nil_or_singleton (readyHashes_nodup order chain)
  intro a ha b hb
  obtain ⟨entry, hentry⟩ := mem_readyHashes.mp ha
  obtain ⟨entry', hentry'⟩ := mem_readyHashes.mp hb
  exact h a entry b entry' hentry hentry'

omit [Crypto] [Features] in
/-- Then every order collects the same. -/
theorem OneReady.enqueue_eq (h : OneReady chain) (order order' : OrphanOrder)
    (queue : List Block) :
    chain.enqueueReadyOrphans order queue = chain.enqueueReadyOrphans order' queue := by
  have hperm := readyHashes_perm order order' chain
  have hsame : readyHashes order chain = readyHashes order' chain := by
    rcases h.readyHashes_cases order with heq | ⟨hash, heq⟩
    · rw [heq] at hperm ⊢
      exact hperm.nil_eq
    · rw [heq] at hperm ⊢
      exact hperm.singleton_eq
  rw [enqueueReadyOrphans_eq, enqueueReadyOrphans_eq, hsame]

omit [Crypto] [Features] in
/-- The queue then holds the one orphan that was ready, if any. -/
theorem OneReady.enqueue_queue (h : OneReady chain) (order : OrphanOrder) :
    (chain.enqueueReadyOrphans order []).2 = [] ∨
      ∃ hash entry, Ready chain hash entry ∧
        (chain.enqueueReadyOrphans order []).2 = [entry.block] := by
  rw [enqueueReadyOrphans_eq]
  rcases h.readyHashes_cases order with heq | ⟨hash, heq⟩
  · rw [heq]
    exact Or.inl rfl
  · have hmem : hash ∈ readyHashes order chain := by rw [heq]; exact List.mem_singleton_self _
    obtain ⟨entry, hready⟩ := mem_readyHashes.mp hmem
    refine Or.inr ⟨hash, entry, hready, ?_⟩
    rw [heq, List.foldl_cons, List.foldl_nil, dequeueOrphan, hready.1]
    rfl

/-! ## The stamps of the orphans -/

/-- The orphans carry different stamps, none of them after the last one given out. -/
structure Stamped (chain : Chain) : Prop where
  distinct : ∀ hash entry hash' entry', chain.orphans.lookup hash = some entry →
    chain.orphans.lookup hash' = some entry' → entry.receivedAt = entry'.receivedAt →
    hash = hash'
  bounded : ∀ hash entry, chain.orphans.lookup hash = some entry →
    entry.receivedAt ≤ chain.orphanReceiveSeq

omit [Crypto] [Features] in
theorem Stamped.fewer {chain' : Chain} (h : Stamped chain) (hfewer : FewerOrphans chain chain') :
    Stamped chain' := by
  obtain ⟨orphans, rfl, hpool⟩ := hfewer
  exact ⟨fun hash entry hash' entry' hentry hentry' ↦
    h.distinct hash entry hash' entry' (hpool hash entry hentry) (hpool hash' entry' hentry'),
    fun hash entry hentry ↦ h.bounded hash entry (hpool hash entry hentry)⟩

omit [Crypto] [Features] in
theorem Stamped.congr {chain' : Chain} (h : Stamped chain)
    (horphans : chain'.orphans = chain.orphans)
    (hseq : chain'.orphanReceiveSeq = chain.orphanReceiveSeq) : Stamped chain' := by
  refine ⟨?_, ?_⟩
  · rw [horphans]
    exact h.distinct
  · rw [horphans, hseq]
    exact h.bounded

omit [Crypto] [Features] in
/-- The oldest orphan is the same in every order. -/
theorem Stamped.evict_eq (h : Stamped chain) (order order' : OrphanOrder) :
    chain.evictOldestOrphan order = chain.evictOldestOrphan order' := by
  have hargmin : (order.iter chain.orphans.entries).argmin (fun entry ↦ entry.2.receivedAt) =
      (order'.iter chain.orphans.entries).argmin (fun entry ↦ entry.2.receivedAt) := by
    have hmem : ∀ entry, entry ∈ order.iter chain.orphans.entries ↔
        entry ∈ order'.iter chain.orphans.entries := fun entry ↦
      (order.perm _).mem_iff.trans (order'.perm _).mem_iff.symm
    cases hold : (order.iter chain.orphans.entries).argmin (fun entry ↦ entry.2.receivedAt) with
    | none =>
        have hnil := List.argmin_eq_none.mp hold
        have hnil' : order'.iter chain.orphans.entries = [] :=
          List.eq_nil_iff_forall_not_mem.mpr fun entry hentry ↦ by
            have hin := (hmem entry).mpr hentry
            rw [hnil] at hin
            cases hin
        rw [hnil']
        rfl
    | some oldest =>
        cases hnew : (order'.iter chain.orphans.entries).argmin
            (fun entry ↦ entry.2.receivedAt) with
        | none =>
            have hin := (hmem oldest).mp (List.argmin_mem hold)
            rw [List.argmin_eq_none.mp hnew] at hin
            cases hin
        | some oldest' =>
            have hin := List.argmin_mem hold
            have hin' := List.argmin_mem hnew
            have hle := List.le_of_mem_argmin (f := fun entry ↦ entry.2.receivedAt)
              ((hmem _).mpr hin') hold
            have hle' := List.le_of_mem_argmin (f := fun entry ↦ entry.2.receivedAt)
              ((hmem _).mp hin) hnew
            have hentry := EntryMap.mem_entries_iff.mp ((order.perm _).mem_iff.mp hin)
            have hentry' := EntryMap.mem_entries_iff.mp ((order'.perm _).mem_iff.mp hin')
            have hkey := h.distinct _ _ _ _ hentry hentry' (Nat.le_antisymm hle hle')
            rw [hkey, hentry'] at hentry
            exact congrArg some (Sigma.ext hkey (heq_of_eq (Option.some.inj hentry).symm))
  unfold evictOldestOrphan
  rw [hargmin]

omit [Features] in
theorem Stamped.insertOrphan_eq (h : Stamped chain) (order order' : OrphanOrder) (block : Block) :
    chain.insertOrphan order block = chain.insertOrphan order' block := by
  unfold insertOrphan
  rw [h.evict_eq order order']

omit [Features] in
theorem Stamped.insertOrphan (h : Stamped chain) (order : OrphanOrder) (block : Block) :
    Stamped (chain.insertOrphan order block) := by
  have hinsert : ∀ base : Chain, Stamped base → ∀ journal,
      Stamped { base with
        orphanReceiveSeq := base.orphanReceiveSeq + 1
        orphans := base.orphans.insert block.hash ⟨block, base.orphanReceiveSeq + 1⟩
        eventJournal := journal } := by
    intro base hbase journal
    have hcases : ∀ hash entry,
        (base.orphans.insert block.hash ⟨block, base.orphanReceiveSeq + 1⟩).lookup hash =
            some entry →
          (hash = block.hash ∧ entry.receivedAt = base.orphanReceiveSeq + 1) ∨
            base.orphans.lookup hash = some entry := by
      intro hash entry hentry
      rw [EntryMap.lookup_insert_ite] at hentry
      split at hentry
      · rename_i heq
        exact Or.inl ⟨heq, by rw [← Option.some.inj hentry]⟩
      · exact Or.inr hentry
    refine ⟨?_, ?_⟩
    · intro hash entry hash' entry' hentry hentry' hstamp
      rcases hcases hash entry hentry with ⟨hkey, hnew⟩ | hold
      · rcases hcases hash' entry' hentry' with ⟨hkey', -⟩ | hold'
        · rw [hkey, hkey']
        · have hbound := hbase.bounded hash' entry' hold'
          omega
      · rcases hcases hash' entry' hentry' with ⟨-, hnew⟩ | hold'
        · have hbound := hbase.bounded hash entry hold
          omega
        · exact hbase.distinct hash entry hash' entry' hold hold' hstamp
    · intro hash entry hentry
      rcases hcases hash entry hentry with ⟨-, hnew⟩ | hold
      · exact hnew.le
      · exact (hbase.bounded hash entry hold).trans (Nat.le_succ _)
  unfold Chain.insertOrphan
  split
  · obtain ⟨orphans, journal, heq, hpool⟩ := evictOldestOrphan_spec order chain
    rw [heq]
    have hevicted : Stamped { chain with orphans := orphans, eventJournal := journal } :=
      (h.fewer ⟨orphans, rfl, hpool⟩).congr rfl rfl
    exact hinsert _ hevicted _
  · exact hinsert chain h _

omit [Features] in
@[simp] theorem rewind_orphanReceiveSeq (blocks : List Block) (chain : Chain) :
    (rewind blocks chain).orphanReceiveSeq = chain.orphanReceiveSeq := by
  induction blocks with
  | nil => rfl
  | cons block rest ih => exact ih

theorem ConnectsPath.orphanReceiveSeq_eq {path : List Block} {done : Chain}
    (h : ConnectsPath path chain done) : done.orphanReceiveSeq = chain.orphanReceiveSeq := by
  induction h with
  | nil => rfl
  | cons _ _ ih => exact ih

theorem Stamped.connectAlone (hstamped : Stamped chain) (h : Indexed genesis chain)
    (order : OrphanOrder) (block : Block) : Stamped (connectAlone order block chain).2 := by
  rw [connectAlone_eq]
  cases hadm : chain.admission block with
  | error stop => exact hstamped
  | ok found =>
      cases found with
      | none => exact hstamped.insertOrphan order block
      | some pair =>
          have hplace := place_placement h (admission_some_iff.mp hadm)
          simp only
          generalize chain.place block pair.1 pair.2 = outcome at hplace ⊢
          cases hplace with
          | extended _ => exact hstamped.congr rfl rfl
          | side _ _ => exact hstamped.congr rfl rfl
          | reorganized _ _ _ connects =>
              exact hstamped.congr (connects.orphans_eq.trans (rewind_orphans _ _))
                (connects.orphanReceiveSeq_eq.trans (rewind_orphanReceiveSeq _ _))
          | failed _ _ _ _ _ _ _ connects =>
              exact hstamped.congr (connects.orphans_eq.trans (rewind_orphans _ _))
                (connects.orphanReceiveSeq_eq.trans (rewind_orphanReceiveSeq _ _))

/-- Connecting a block alone does not depend on the order. -/
theorem Stamped.connectAlone_eq (h : Stamped chain) (order order' : OrphanOrder) (block : Block) :
    Chain.connectAlone order block chain = Chain.connectAlone order' block chain := by
  rw [Chain.connectAlone_eq, Chain.connectAlone_eq, h.insertOrphan_eq order order']

/-! ## A call -/

/-- A block that becomes the tip was admitted and leads, and the pool is as before. -/
theorem connectAlone_becameTip (h : Indexed genesis chain) (order : OrphanOrder)
    {result : ConnectResult} {placed : Chain}
    (hok : Chain.connectAlone order block chain = (.ok result, placed))
    (htip : result.becameTip) : Promotes chain block ∧ placed.orphans = chain.orphans := by
  rcases connectAlone_ok_cases h order hok with ⟨rfl, -⟩ | ⟨-, hleads⟩ | ⟨_, _, rfl, -⟩
  · cases htip
  · have ⟨parent, _, hparent, _⟩ := hleads
    have horphans := (connectAlone_orphans h order (by rw [hparent]; simp)).1
    rw [hok] at horphans
    refine ⟨⟨?_, hleads⟩, horphans⟩
    rw [Chain.connectAlone_eq] at hok
    cases hadm : chain.admission block with
    | error stop =>
        rw [hadm] at hok
        cases hok
    | ok found =>
        cases found with
        | none =>
            rw [(admission_none_iff.mp hadm).2.2.2] at hparent
            cases hparent
        | some pair => exact ⟨pair.1, pair.2, admission_some_iff.mp hadm⟩
  · cases htip

/-- Only the hash of the block becomes known when it is connected. -/
theorem connectAlone_known_cases (h : Coherent genesis chain) (order : OrphanOrder)
    (block : Block) (hash : Hash256)
    (hknown : (Chain.connectAlone order block chain).2.known.lookup hash ≠ none) :
    chain.known.lookup hash ≠ none ∨ hash = block.hash := by
  obtain ⟨entry, hentry⟩ := Option.ne_none_iff_exists'.mp hknown
  have hhash := (connectAlone_coherent h order block).indexed.known_hash hash entry hentry
  cases hadm : chain.admission block with
  | error stop =>
      rw [Chain.connectAlone_eq, hadm] at hknown
      exact Or.inl hknown
  | ok found =>
      cases found with
      | none =>
          obtain ⟨orphans, seq, journal, heq, -⟩ := insertOrphan_spec order chain block
          rw [Chain.connectAlone_eq, hadm] at hknown
          simp only [heq] at hknown
          exact Or.inl hknown
      | some pair =>
          have hadmitted := admission_some_iff.mp hadm
          rw [connectAlone_eq_place order hadmitted] at hentry
          rcases (place_placement h.indexed hadmitted).known_cases hentry with
            hblock | ⟨old, hold, -⟩
          · exact Or.inr (by rw [← hhash, hblock])
          · exact Or.inl (by rw [hold]; simp)

/-- The promotion loop, from a state with none ready and at most one block in the queue.  `R`
holds of the hashes that may still become known. -/
theorem processOrphansLoop_order_eq {R : Hash256 → Prop} (order order' : OrphanOrder) (fuel : ℕ)
    (queue : List Block) (h : Coherent genesis chain) (hstamped : Stamped chain)
    (hnone : NoneReady chain)
    (hqueue : queue = [] ∨ ∃ b, queue = [b] ∧ R b.hash ∧
      chain.known.lookup b.header.prevBlockhash ≠ none)
    (hclosed : ∀ hash entry, chain.orphans.lookup hash = some entry →
      R entry.block.header.prevBlockhash → R entry.block.hash)
    (hnext : ∀ hash entry hash' entry', chain.orphans.lookup hash = some entry →
      chain.orphans.lookup hash' = some entry' → R entry.block.header.prevBlockhash →
      entry'.block.header.prevBlockhash = entry.block.header.prevBlockhash → hash = hash') :
    processOrphansLoop order fuel queue chain = processOrphansLoop order' fuel queue chain := by
  induction fuel generalizing queue chain with
  | zero => rfl
  | succ fuel ih =>
      rcases hqueue with rfl | ⟨b, rfl, hb, hparent⟩
      · rfl
      · have hcoherent := connectAlone_coherent h order' b
        have hplaced := hstamped.connectAlone h.indexed order' b
        have hcases := connectAlone_known_cases h order' b
        obtain ⟨horphans, -⟩ := connectAlone_orphans h.indexed order' hparent
        unfold processOrphansLoop
        rw [hstamped.connectAlone_eq order order' b]
        cases hconnect : Chain.connectAlone order' b chain with
        | mk outcome placed =>
          rw [hconnect] at hcoherent hplaced hcases horphans
          cases outcome with
          | error stop => rfl
          | ok result =>
              -- what is ready now waited for `b`
              have hready : ∀ hash entry, Ready placed hash entry →
                  chain.orphans.lookup hash = some entry ∧
                    entry.block.header.prevBlockhash = b.hash := by
                rintro hash entry ⟨hentry, hknown⟩
                rw [horphans] at hentry
                exact ⟨hentry, (hcases _ hknown).resolve_left fun hold ↦
                  hold (hnone hash entry hentry)⟩
              have hone : OneReady placed := by
                intro hash entry hash' entry' hentry hentry'
                obtain ⟨hpool, hprev⟩ := hready hash entry hentry
                obtain ⟨hpool', hprev'⟩ := hready hash' entry' hentry'
                exact hnext hash entry hash' entry' hpool hpool' (hprev ▸ hb)
                  (hprev'.trans hprev.symm)
              have hfewer : ∀ hash entry,
                  (placed.enqueueReadyOrphans order' []).1.orphans.lookup hash = some entry →
                    chain.orphans.lookup hash = some entry := by
                intro hash entry hentry
                rw [← horphans]
                exact foldl_dequeueOrphan_fewer _ _ hash entry hentry
              have hsteps := enqueueReadyOrphans_fewer order' placed []
              simp only
              rw [hone.enqueue_eq order order' []]
              refine ih _ (hsteps.coherent hcoherent) (hplaced.fewer hsteps)
                (enqueueReadyOrphans_noneReady order' placed []) ?_
                (fun hash entry hentry ↦ hclosed hash entry (hfewer hash entry hentry))
                (fun hash entry hash' entry' hentry hentry' ↦ hnext hash entry hash' entry'
                  (hfewer hash entry hentry) (hfewer hash' entry' hentry'))
              rcases hone.enqueue_queue order' with heq | ⟨hash, entry, hentry, heq⟩
              · exact Or.inl heq
              · obtain ⟨hpool, hprev⟩ := hready hash entry hentry
                exact Or.inr ⟨entry.block, heq, hclosed hash entry hpool (hprev ▸ hb), hentry.2⟩

/-- A call does not depend on the order if it promotes at most one orphan at a time. -/
theorem connectBlock_order_eq (h : Coherent genesis chain) (hstamped : Stamped chain)
    (order order' : OrphanOrder) (hone : Promotes chain block → OneAtATime chain block) :
    connectBlock order block chain = connectBlock order' block chain := by
  have hcoherent := connectAlone_coherent h order' block
  have hplaced := hstamped.connectAlone h.indexed order' block
  have hcases := connectAlone_known_cases h order' block
  rw [connectBlock_eq, connectBlock_eq, hstamped.connectAlone_eq order order' block]
  cases hconnect : Chain.connectAlone order' block chain with
  | mk outcome placed =>
    rw [hconnect] at hcoherent hplaced hcases
    cases outcome with
    | error stop => rfl
    | ok result =>
        by_cases htip : result.becameTip
        · obtain ⟨hpromotes, horphans⟩ := connectAlone_becameTip h.indexed order' hconnect htip
          obtain ⟨hfirst, hnext⟩ := hone hpromotes
          have hready : ∀ hash entry, Ready placed hash entry →
              chain.orphans.lookup hash = some entry ∧
                (entry.block.header.prevBlockhash = block.hash ∨
                  chain.known.lookup entry.block.header.prevBlockhash ≠ none) := by
            rintro hash entry ⟨hentry, hknown⟩
            rw [horphans] at hentry
            exact ⟨hentry, (hcases _ hknown).symm⟩
          have hready_one : OneReady placed := by
            intro hash entry hash' entry' hentry hentry'
            obtain ⟨hpool, hprev⟩ := hready hash entry hentry
            obtain ⟨hpool', hprev'⟩ := hready hash' entry' hentry'
            exact hfirst hash entry hash' entry' hpool hpool' hprev hprev'
          have hfewer : ∀ hash entry,
              (placed.enqueueReadyOrphans order' []).1.orphans.lookup hash = some entry →
                chain.orphans.lookup hash = some entry := by
            intro hash entry hentry
            rw [← horphans]
            exact foldl_dequeueOrphan_fewer _ _ hash entry hentry
          have hsteps := enqueueReadyOrphans_fewer order' placed []
          have hprocess : processOrphans order placed = processOrphans order' placed := by
            unfold processOrphans
            simp only
            rw [hready_one.enqueue_eq order order' []]
            refine processOrphansLoop_order_eq (R := Released chain block) order order' _ _
              (hsteps.coherent hcoherent) (hplaced.fewer hsteps)
              (enqueueReadyOrphans_noneReady order' placed []) ?_
              (fun hash entry hentry ↦ Released.orphan (hfewer hash entry hentry))
              (fun hash entry hash' entry' hentry hentry' ↦ hnext hash entry hash' entry'
                (hfewer hash entry hentry) (hfewer hash' entry' hentry'))
            rcases hready_one.enqueue_queue order' with heq | ⟨hash, entry, hentry, heq⟩
            · exact Or.inl heq
            · obtain ⟨hpool, hprev⟩ := hready hash entry hentry
              refine Or.inr ⟨entry.block, heq, Released.orphan hpool ?_, hentry.2⟩
              rcases hprev with hblock | hknown
              · exact hblock ▸ Released.delivered
              · exact Released.known hknown
          simp only [if_pos htip, hprocess]
        · simp only [if_neg htip]

omit [Features] in
theorem tipHash_storeSide (chain : Chain) (block : Block) (parent : BlockMeta)
    (work : ChainWork) : (chain.storeSide block parent work).tipHash = chain.tipHash := rfl

/-- Of two queued blocks the first extends the tip and the other is stored beside it. -/
theorem processOrphansLoop_pair (order : OrphanOrder) {winner loser : Block}
    {parent parent' : BlockMeta} {work work' : ChainWork} (fuel : ℕ) (hnone : chain.orphans = ∅)
    (hwinner : Admitted chain winner parent work)
    (htip : winner.header.prevBlockhash = chain.tipHash)
    (hloser : Admitted (chain.extendTip winner parent work) loser parent' work')
    (haside : loser.header.prevBlockhash ≠ (chain.extendTip winner parent work).tipHash)
    (hlighter : (parent'.work.add work').le (chain.extendTip winner parent work).totalWork) :
    processOrphansLoop order (fuel + 3) [winner, loser] chain =
      (.ok (), (chain.extendTip winner parent work).storeSide loser parent' work') := by
  have hextended : (chain.extendTip winner parent work).orphans = ∅ := hnone
  have hstored :
      ((chain.extendTip winner parent work).storeSide loser parent' work').orphans = ∅ := hnone
  rw [processOrphansLoop, connectAlone_eq_place order hwinner, place_extended htip]
  simp only [enqueueReadyOrphans_of_empty order hextended]
  rw [processOrphansLoop, connectAlone_eq_place order hloser, place_side haside hlighter]
  simp only [enqueueReadyOrphans_of_empty order hstored]
  rfl

/-! ## When a collection depends on the order -/

/-- Every orphan is stored under the hash of its block. -/
def Keyed (chain : Chain) : Prop :=
  ∀ hash entry, chain.orphans.lookup hash = some entry → entry.block.hash = hash

omit [Features] in
/-- The collected blocks join the queue in the order in which they are listed. -/
theorem foldl_dequeueOrphan_hashes (ready : List Hash256) (state : OrphanMap × List Block)
    (hnodup : ready.Nodup) (hpresent : ∀ hash ∈ ready, state.1.lookup hash ≠ none)
    (hkeyed : ∀ hash entry, state.1.lookup hash = some entry → entry.block.hash = hash) :
    (ready.foldl dequeueOrphan state).2.map Block.hash = state.2.map Block.hash ++ ready := by
  induction ready generalizing state with
  | nil => exact (List.append_nil _).symm
  | cons first rest ih =>
      obtain ⟨hfirst, hrest⟩ := List.nodup_cons.mp hnodup
      obtain ⟨entry, hentry⟩ :=
        Option.ne_none_iff_exists'.mp (hpresent first List.mem_cons_self)
      have hdequeue : dequeueOrphan state first =
          (state.1.erase first, state.2 ++ [entry.block]) := by
        rw [dequeueOrphan, hentry]
      rw [List.foldl_cons, hdequeue, ih _ hrest, List.map_append, List.append_assoc]
      · simp [hkeyed first entry hentry]
      · intro hash hmem
        have hne : hash ≠ first := fun heq ↦ hfirst (heq ▸ hmem)
        rw [AList.lookup_erase_ne hne]
        exact hpresent hash (List.mem_cons_of_mem _ hmem)
      · intro hash found hfound
        rw [EntryMap.lookup_erase_ite] at hfound
        split at hfound
        · cases hfound
        · exact hkeyed hash found hfound

omit [Crypto] [Features] in
/-- A list without repetitions that is its own reverse has at most one entry. -/
theorem eq_of_eq_reverse {α : Type} {l : List α} (hnodup : l.Nodup) (heq : l = l.reverse) :
    ∀ a ∈ l, ∀ b ∈ l, a = b := by
  cases l with
  | nil => exact fun _ ha ↦ by cases ha
  | cons first rest =>
      cases rest with
      | nil =>
          intro a ha b hb
          rw [List.mem_singleton.mp ha, List.mem_singleton.mp hb]
      | cons second rest =>
          have hlast : (first :: second :: rest).getLast? = some first := by
            rw [← List.head?_reverse, ← heq]
            rfl
          rw [List.getLast?_cons_cons] at hlast
          exact ((List.nodup_cons.mp hnodup).1 (List.mem_of_getLast? hlast)).elim

omit [Features] in
/-- A collection is the same in every order exactly when at most one orphan is ready. -/
theorem enqueueReadyOrphans_order_iff (hkeyed : Keyed chain) :
    (∀ order order' queue,
      chain.enqueueReadyOrphans order queue = chain.enqueueReadyOrphans order' queue) ↔
      OneReady chain := by
  constructor
  · intro hsame hash entry hash' entry' hentry hentry'
    let forth : OrphanOrder := ⟨id, fun _ ↦ .refl _⟩
    let back : OrphanOrder := ⟨List.reverse, fun _ ↦ List.reverse_perm _⟩
    have hback : readyHashes back chain = (readyHashes forth chain).reverse := by
      unfold readyHashes
      rw [← List.map_reverse, ← List.filter_reverse]
      rfl
    have hqueue : ∀ order : OrphanOrder,
        (chain.enqueueReadyOrphans order []).2.map Block.hash = readyHashes order chain := by
      intro order
      rw [enqueueReadyOrphans_eq]
      refine foldl_dequeueOrphan_hashes _ (chain.orphans, []) (readyHashes_nodup order chain) ?_
        hkeyed
      intro key hkey
      obtain ⟨found, hfound, -⟩ := mem_readyHashes.mp hkey
      exact Option.ne_none_iff_exists'.mpr ⟨found, hfound⟩
    have heq : readyHashes forth chain = (readyHashes forth chain).reverse := by
      rw [← hback, ← hqueue, ← hqueue, hsame forth back []]
    exact eq_of_eq_reverse (readyHashes_nodup forth chain) heq hash
      (mem_readyHashes.mpr ⟨entry, hentry⟩) hash' (mem_readyHashes.mpr ⟨entry', hentry'⟩)
  · exact fun hone order order' queue ↦ hone.enqueue_eq order order' queue

/-! ## Runs -/

/-- Every delivered block meets the condition at the state it meets. -/
def DeliverMeets (cond : Chain → Block → Prop) : List (OrphanOrder × Block) → Chain → Prop
  | [], _ => True
  | call :: rest, chain =>
      cond chain call.2 ∧ DeliverMeets cond rest (connectBlock call.1 call.2 chain).2

/-- What does not depend on the order is kept by runs. -/
structure Ordered (genesis : Block) (chain : Chain) : Prop where
  coherent : Coherent genesis chain
  stamped : Stamped chain
  keyed : Keyed chain

omit [Features] in
theorem Ordered.fewer {chain' : Chain} (h : Ordered genesis chain)
    (hfewer : FewerOrphans chain chain') : Ordered genesis chain' := by
  refine ⟨hfewer.coherent h.coherent, h.stamped.fewer hfewer, ?_⟩
  obtain ⟨orphans, rfl, hpool⟩ := hfewer
  exact fun hash entry hentry ↦ h.keyed hash entry (hpool hash entry hentry)

theorem Ordered.connectAlone (h : Ordered genesis chain) (order : OrphanOrder) (block : Block) :
    Ordered genesis (connectAlone order block chain).2 := by
  refine ⟨connectAlone_coherent h.coherent order block,
    h.stamped.connectAlone h.coherent.indexed order block, ?_⟩
  intro hash entry hentry
  cases hadm : chain.admission block with
  | error stop =>
      rw [Chain.connectAlone_eq, hadm] at hentry
      exact h.keyed hash entry hentry
  | ok found =>
      cases found with
      | none =>
          obtain ⟨orphans, seq, journal, heq, hpool⟩ := insertOrphan_spec order chain block
          rw [Chain.connectAlone_eq, hadm] at hentry
          simp only [heq] at hentry
          rcases hpool hash entry hentry with ⟨hkey, hblock⟩ | hold
          · rw [hkey, hblock]
          · exact h.keyed hash entry hold
      | some pair =>
          have hadmitted := admission_some_iff.mp hadm
          have horphans := place_orphans h.coherent.indexed hadmitted
          rw [connectAlone_eq_place order hadmitted, horphans] at hentry
          exact h.keyed hash entry hentry

theorem Ordered.connectBlock (h : Ordered genesis chain) (order : OrphanOrder) (block : Block) :
    Ordered genesis (connectBlock order block chain).2 :=
  connectBlock_induction order block chain (Ordered genesis) (fun _ _ hc hfewer ↦ hc.fewer hfewer)
    (fun _ b hc _ ↦ hc.connectAlone order b) h

theorem Reachable.ordered (h : Reachable genesis chain) : Ordered genesis chain := by
  refine h.invariant (Ordered genesis) ?_ (fun _ _ hc hfewer ↦ hc.fewer hfewer)
    (fun order _ block hc _ ↦ hc.connectAlone order block)
    (fun _ _ hc ↦ ⟨hc.coherent.congr rfl rfl rfl rfl, hc.stamped.congr rfl rfl, hc.keyed⟩)
    (fun _ _ hc ↦ ⟨hc.coherent.congr rfl rfl rfl rfl, hc.stamped.congr rfl rfl, hc.keyed⟩)
  intro networkTime capacity c created
  have hcoherent := withJournalCapacities_coherent created
  obtain ⟨work, -, rfl⟩ := withJournalCapacities_spec created
  refine ⟨hcoherent, ⟨?_, ?_⟩, ?_⟩
  · intro hash entry hash' entry' hentry
    cases hentry
  · intro hash entry hentry
    cases hentry
  · intro hash entry hentry
    cases hentry

theorem Ordered.deliverAll_eq (h : Ordered genesis chain)
    (calls calls' : List (OrphanOrder × Block))
    (hsame : calls.map Prod.snd = calls'.map Prod.snd)
    (hmeets : DeliverMeets (fun chain block ↦ Promotes chain block → OneAtATime chain block)
      calls chain) :
    deliverAll calls chain = deliverAll calls' chain := by
  induction calls generalizing calls' chain with
  | nil =>
      obtain rfl := List.map_eq_nil_iff.mp hsame.symm
      rfl
  | cons call rest ih =>
      cases calls' with
      | nil => cases hsame
      | cons call' rest' =>
          obtain ⟨hblock, hrest⟩ := List.cons.inj hsame
          obtain ⟨order, block⟩ := call
          obtain ⟨order', block'⟩ := call'
          obtain rfl : block = block' := hblock
          have hstep := connectBlock_order_eq h.coherent h.stamped order order' hmeets.1
          unfold deliverAll
          simp only
          rw [← hstep]
          exact ih (h.connectBlock order block) rest' hrest hmeets.2

/-- Two runs over the same blocks, in which the orphan map is iterated in different orders, end
in the same state if every call promotes at most one orphan at a time.  Which orphans a
collection finds first depends on the order at every state where two are ready. -/
theorem delivery_order_irrelevant (genesis : Block) :
    (∀ chain, Reachable genesis chain → ∀ calls calls', calls.map Prod.snd = calls'.map Prod.snd →
      DeliverMeets (fun chain block ↦ Promotes chain block → OneAtATime chain block) calls chain →
        deliverAll calls chain = deliverAll calls' chain) ∧
    ∀ chain, Reachable genesis chain →
      ((∀ order order' queue,
        chain.enqueueReadyOrphans order queue = chain.enqueueReadyOrphans order' queue) ↔
        OneReady chain) := by
  refine ⟨fun chain hrun ↦ hrun.ordered.deliverAll_eq, fun chain hrun ↦ ?_⟩
  exact enqueueReadyOrphans_order_iff hrun.ordered.keyed

end Chain

end Bitrst

namespace Bitrst.Sample

def reversed : OrphanOrder := ⟨List.reverse, fun _ ↦ List.reverse_perm _⟩

def waitingElder : Chain := start.insertOrphan order sideNext

/-- Two children of `side` wait, `sideNext` for longer. -/
def rivals : Chain := waitingElder.insertOrphan order spendsSide

/-- The chain with `side` as its tip, after its children were collected. -/
def parted : Chain := { rivals.extendTip side genesisMeta easyWork with orphans := ∅ }

def sideTipMeta : BlockMeta :=
  { sideMeta with undo := start.utxo.transactionUndos side.transactions }

theorem rivals_run : start.admission sideNext = .ok none ∧
    waitingElder.admission spendsSide = .ok none ∧ Chain.Fits rivals side genesisMeta ∧
    side.header.prevBlockhash = rivals.tipHash ∧ side.hash = sideHash ∧
    (sideTipMeta.work.add easyWork).le (sideTipMeta.work.add easyWork) := by
  decide +kernel

/-- One of the children becomes the tip after the other was collected behind it. -/
def Parts (order : OrphanOrder) (winner loser : Block) : Prop :=
  (((rivals.extendTip side genesisMeta easyWork).enqueueReadyOrphans order []).2 =
      [winner, loser] ∧ ((rivals.extendTip side genesisMeta easyWork).enqueueReadyOrphans order
        []).1.orphans.entries.isEmpty) ∧
    Chain.Fits parted winner sideTipMeta ∧
      Chain.Fits (parted.extendTip winner sideTipMeta easyWork) loser sideTipMeta

instance (order : OrphanOrder) (winner loser : Block) : Decidable (Parts order winner loser) :=
  inferInstanceAs (Decidable (_ ∧ _ ∧ _))

theorem rivals_part : Parts order spendsSide sideNext ∧ Parts reversed sideNext spendsSide ∧
    spendsSide.hash ≠ sideNext.hash := by
  decide +kernel

theorem deliver_elder : (Chain.connectBlock order sideNext start).2 = waitingElder :=
  congrArg Prod.snd (Chain.connectBlock_orphaned order rivals_run.1)

theorem deliver_younger : (Chain.connectBlock order spendsSide waitingElder).2 = rivals :=
  congrArg Prod.snd (Chain.connectBlock_orphaned order rivals_run.2.1)

/-- The collected child that comes first becomes the tip. -/
theorem deliver_side {order : OrphanOrder} {winner loser : Block}
    (hparts : Parts order winner loser)
    (hbits : winner.header.bits = easyBits ∧ loser.header.bits = easyBits)
    (hprev : winner.header.prevBlockhash = sideHash ∧ loser.header.prevBlockhash = sideHash) :
    (Chain.connectBlock order side rivals).2.tipHash = winner.hash := by
  obtain ⟨-, -, hside, hextends, hhash, hlight⟩ := rivals_run
  obtain ⟨hcollected, hfits⟩ := hparts
  have hplace : rivals.place side genesisMeta easyWork = (.ok (.connected 1 side.hash),
      rivals.extendTip side genesisMeta easyWork) := Chain.place_extended hextends
  have hstate : (rivals.extendTip side genesisMeta easyWork).enqueueReadyOrphans order [] =
      (parted, [winner, loser]) := by
    refine Prod.ext ?_ hcollected.1
    obtain ⟨orphans, heq, -⟩ := Chain.enqueueReadyOrphans_fewer order
      (rivals.extendTip side genesisMeta easyWork) []
    have hempty := hcollected.2
    rw [heq] at hempty ⊢
    rw [show orphans = ∅ from AList.ext (List.isEmpty_iff.mp hempty)]
    rfl
  have htip : parted.tipHash = side.hash := Chain.tipHash_of_append rivals.blocks rfl
  have hwinnerTip : (parted.extendTip winner sideTipMeta easyWork).tipHash = winner.hash :=
    Chain.tipHash_of_append parted.blocks rfl
  have haside : loser.header.prevBlockhash ≠
      (parted.extendTip winner sideTipMeta easyWork).tipHash := by
    rw [hwinnerTip, hprev.2, ← hprev.1]
    intro heq
    obtain ⟨-, hunknown, -, hparent, -⟩ := hfits.1
    rw [heq, hunknown] at hparent
    cases hparent
  have hprocess : Chain.processOrphans order (rivals.extendTip side genesisMeta easyWork) =
      (.ok (), (parted.extendTip winner sideTipMeta easyWork).storeSide loser sideTipMeta
        easyWork) := by
    unfold Chain.processOrphans
    simp only [hstate]
    exact Chain.processOrphansLoop_pair order _ rfl
      (hfits.1.admitted (hbits.1 ▸ blockWork_easyBits)) (by rw [htip, hhash, hprev.1])
      (hfits.2.admitted (hbits.2 ▸ blockWork_easyBits)) haside hlight
  rw [Chain.connectBlock_eq,
    Chain.connectAlone_eq_place order (hside.admitted blockWork_easyBits), hplace]
  simp only [ConnectResult.becameTip, if_true, hprocess]
  rw [Chain.tipHash_storeSide]
  exact hwinnerTip

/-- The same three blocks, and the tip is the one child or the other. -/
theorem tip_depends_on_order : ¬ ∀ chain calls calls', Chain.Reachable genesis chain →
    calls.map Prod.snd = calls'.map Prod.snd →
      (Chain.deliverAll calls chain).tipHash = (Chain.deliverAll calls' chain).tipHash := by
  intro h
  have hsame := h start [(order, sideNext), (order, spendsSide), (order, side)]
    [(order, sideNext), (order, spendsSide), (reversed, side)] start_reachable rfl
  obtain ⟨hyoung, hold, hne⟩ := rivals_part
  have hyounger := deliver_side hyoung ⟨rfl, rfl⟩ ⟨rfl, rfl⟩
  have helder := deliver_side hold ⟨rfl, rfl⟩ ⟨rfl, rfl⟩
  rw [Chain.deliverAll_cons, Chain.deliverAll_cons, Chain.deliverAll_cons,
    Chain.deliverAll_cons, Chain.deliverAll_cons, Chain.deliverAll_cons, deliver_elder,
    deliver_younger, Chain.deliverAll_nil, Chain.deliverAll_nil, hyounger, helder] at hsame
  exact hne hsame

end Bitrst.Sample
