import Bitrst.LinearRun
import Bitrst.PromotionOrder
import Bitrst.SameTree

/-!
# Linear chains in any order

Blocks that connect one after the other on a chain without orphans are delivered
in another order.  At every time the delivered blocks up to the first gap are
connected and the others wait; the block that fills the gap takes all those along
that wait right behind it.
-/

namespace Bitrst

open Support

variable [Crypto] [Features]

namespace Chain

variable {genesis : Block} {chain chain' before done final : Chain} {block : Block}
  {bs front : List Block}

/-! ## What admission reads -/

/-- The chains differ in their orphans and their journals at most. -/
structure SameLedger (chain chain' : Chain) : Prop extends SameActive chain chain' where
  known : chain'.known = chain.known
  networkTime : chain'.networkTime = chain.networkTime

omit [Crypto] [Features] in
theorem SameLedger.refl (chain : Chain) : SameLedger chain chain := ⟨.refl chain, rfl, rfl⟩

omit [Crypto] [Features] in
theorem SameLedger.pooled (h : SameLedger chain chain') (orphans : OrphanMap) (seq : ℕ)
    (journal : ChainEventJournal) : SameLedger chain
      { chain' with orphans := orphans, orphanReceiveSeq := seq, eventJournal := journal } :=
  ⟨⟨h.blocks, h.activeHashes, h.utxo, h.totalWork⟩, h.known, h.networkTime⟩

omit [Crypto] [Features] in
theorem SameLedger.sameTree (h : SameLedger chain chain') : SameTree chain chain' where
  toSameActive := h.toSameActive
  recorded := fun hash ↦ by rw [recorded, recorded, h.known]
  undo := fun hash _ ↦ by rw [undoOf, undoOf, h.known]
  networkTime := h.networkTime

/-- A block is admitted alike when it does not wait as an orphan. -/
theorem SameLedger.admitted (h : SameLedger chain chain') {parent : BlockMeta} {work : ChainWork}
    (hadm : Admitted chain block parent work) (hnew : chain'.orphans.lookup block.hash = none) :
    Admitted chain' block parent work where
  limits := hadm.limits
  unknown := h.known ▸ hadm.unknown
  not_orphan := hnew
  parent_known := h.known ▸ hadm.parent_known
  valid := (h.sameTree.validate_eq _ _ _ _).trans hadm.valid
  block_work := hadm.block_work

omit [Features] in
theorem SameLedger.extendTip (h : SameLedger chain chain') (block : Block) (parent : BlockMeta)
    (work : ChainWork) :
    SameLedger (chain.extendTip block parent work) (chain'.extendTip block parent work) := by
  refine ⟨⟨?_, ?_, ?_, rfl⟩, ?_, h.networkTime⟩
  · simp only [Chain.extendTip, pushTip, h.blocks]
  · simp only [Chain.extendTip, pushTip, h.activeHashes]
  · simp only [Chain.extendTip, pushTip, h.utxo]
  · simp only [Chain.extendTip, pushTip, h.utxo, h.known]

/-! ## Extensions -/

/-- An extension reaches each of its stages by an extension. -/
theorem Extension.fresh (h : Extension chain bs done) :
    (∀ b ∈ bs, chain.known.lookup b.hash = none) ∧ bs.Pairwise fun b b' ↦ b.hash ≠ b'.hash := by
  induction h with
  | nil => simp
  | @cons chain done block parent work bs admitted tip _ ih =>
      have hrest : ∀ b ∈ bs, b.hash ≠ block.hash ∧ chain.known.lookup b.hash = none := by
        intro b hb
        have hnone := ih.1 b hb
        rw [Chain.extendTip] at hnone
        simp only [pushTip_known] at hnone
        split at hnone
        · cases hnone
        · exact ⟨‹_›, hnone⟩
      refine ⟨?_, List.pairwise_cons.mpr ⟨fun b hb ↦ (hrest b hb).1.symm, ih.2⟩⟩
      intro b hb
      rcases List.mem_cons.mp hb with rfl | hb
      · exact admitted.unknown
      · exact (hrest b hb).2

theorem Extension.eq_of_hash (h : Extension chain bs done) {b : Block} (hblock : block ∈ bs)
    (hb : b ∈ bs) (hhash : block.hash = b.hash) : block = b := by
  by_contra hne
  have hsymm : Std.Symm fun b b' : Block ↦ b.hash ≠ b'.hash := ⟨fun _ _ ↦ Ne.symm⟩
  exact h.fresh.2.forall hblock hb hne hhash

theorem Extension.linked (h : Extension chain bs done) : LinkedAbove chain.tipHash bs := by
  induction h with
  | nil => trivial
  | @cons chain done block parent work bs admitted tip _ ih =>
      have htip : (chain.extendTip block parent work).tipHash = block.hash :=
        tipHash_of_append chain.blocks rfl
      rw [htip] at ih
      exact ⟨tip, ih⟩

theorem Extension.limits (h : Extension chain bs done) :
    ∀ b ∈ bs, validateBlockLimits b = .ok () := by
  induction h with
  | nil => simp
  | cons admitted _ _ ih =>
      intro b hb
      rcases List.mem_cons.mp hb with rfl | hb
      · exact admitted.limits
      · exact ih b hb

omit [Features] in
/-- In a list of new linked blocks only the first has its parent in the index. -/
theorem LinkedAbove.head_of_parent_known {below : Hash256} (h : LinkedAbove below bs)
    (hfresh : ∀ b ∈ bs, chain.known.lookup b.hash = none) (hmem : block ∈ bs)
    (hknown : chain.known.lookup block.header.prevBlockhash ≠ none) :
    bs.head? = some block := by
  induction bs generalizing below with
  | nil => cases hmem
  | cons b bs ih =>
      rcases List.mem_cons.mp hmem with rfl | hmem
      · rfl
      · have hhead := ih h.2 (fun b hb ↦ hfresh b (List.mem_cons_of_mem _ hb)) hmem
        obtain ⟨rest, rfl⟩ := List.head?_eq_some_iff.mp hhead
        rw [h.2.1, hfresh b List.mem_cons_self] at hknown
        exact (hknown rfl).elim

theorem Extension.append {bs' : List Block} (h : Extension chain bs done)
    (hmore : Extension done bs' final) : Extension chain (bs ++ bs') final := by
  induction h with
  | nil => exact hmore
  | cons admitted tip _ ih => exact .cons admitted tip (ih hmore)

/-! ## Up to the first gap -/

/-- The chain stands where an extension has come to, `bs` are the blocks still to come, and
those of them that were delivered wait in the pool. -/
structure Partway (front bs : List Block) (before chain : Chain) : Prop where
  same : SameLedger before chain
  pool : ∀ hash entry, chain.orphans.lookup hash = some entry →
    entry.block ∈ bs ∧ entry.block ∈ front ∧ entry.block.hash = hash
  waits : ∀ b ∈ bs, b ∈ front → chain.orphans.lookup b.hash ≠ none

/-- A collection finds the next block if it waits, and nothing else. -/
theorem Partway.enqueue (h : Partway front bs before chain) (hext : Extension before bs final)
    (hindexed : Indexed genesis before) (order : OrphanOrder) :
    ((∀ b ∈ bs.head?, b ∉ front) ∧ chain.enqueueReadyOrphans order [] = (chain, [])) ∨
      ∃ b rest taken, bs = b :: rest ∧ b ∈ front ∧
        chain.enqueueReadyOrphans order [] = (taken, [b]) ∧ Partway front rest before taken ∧
          taken.orphans.entries.length + 1 = chain.orphans.entries.length := by
  obtain ⟨hunknown, hdistinct⟩ := hext.fresh
  have hready : ∀ hash entry, Ready chain hash entry →
      bs.head? = some entry.block ∧ entry.block ∈ front ∧ entry.block.hash = hash := by
    rintro hash entry ⟨hentry, hknown⟩
    obtain ⟨hmem, hfront, hhash⟩ := h.pool hash entry hentry
    rw [h.same.known] at hknown
    exact ⟨hext.linked.head_of_parent_known hunknown hmem hknown, hfront, hhash⟩
  have hone : OneReady chain := by
    intro hash entry hash' entry' hentry hentry'
    obtain ⟨hhead, -, hhash⟩ := hready hash entry hentry
    obtain ⟨hhead', -, hhash'⟩ := hready hash' entry' hentry'
    rw [← hhash, ← hhash', Option.some.inj (hhead.symm.trans hhead')]
  rw [enqueueReadyOrphans_eq]
  rcases hone.readyHashes_cases order with hnil | ⟨hash, hsingle⟩
  · rw [hnil]
    refine .inl ⟨fun b hb hfront ↦ ?_, rfl⟩
    obtain ⟨rest, rfl⟩ := List.head?_eq_some_iff.mp hb
    obtain ⟨entry, hentry⟩ := Option.ne_none_iff_exists'.mp
      (h.waits b List.mem_cons_self hfront)
    have hblock : entry.block = b := by
      obtain ⟨hmem, -, hhash⟩ := h.pool _ _ hentry
      exact hext.eq_of_hash hmem List.mem_cons_self hhash
    have hparent : chain.known.lookup entry.block.header.prevBlockhash ≠ none := by
      obtain ⟨keep, tip, found, -, htip, hfound, -⟩ := hindexed.exists_tip
      rw [hblock, hext.linked.1, h.same.known, htip, hfound]
      exact Option.some_ne_none _
    have hmem : b.hash ∈ readyHashes order chain := mem_readyHashes.mpr ⟨entry, hentry, hparent⟩
    rw [hnil] at hmem
    cases hmem
  · have hmem : hash ∈ readyHashes order chain := by
      rw [hsingle]
      exact List.mem_singleton_self _
    obtain ⟨entry, hentry⟩ := mem_readyHashes.mp hmem
    obtain ⟨hhead, hfront, hhash⟩ := hready hash entry hentry
    obtain ⟨rest, rfl⟩ := List.head?_eq_some_iff.mp hhead
    refine .inr ⟨entry.block, rest, { chain with orphans := chain.orphans.erase hash }, rfl,
      hfront, ?_, ⟨h.same.pooled _ _ _, ?_, ?_⟩, EntryMap.length_erase_add_one hentry.1⟩
    · rw [hsingle, List.foldl_cons, List.foldl_nil, dequeueOrphan, hentry.1]
      rfl
    · intro key found hfound
      change AList.lookup key (AList.erase hash chain.orphans) = some found at hfound
      rw [EntryMap.lookup_erase_ite] at hfound
      split at hfound
      · cases hfound
      · rename_i hne
        obtain ⟨hfoundMem, hfoundFront, hkey⟩ := h.pool key found hfound
        refine ⟨(List.mem_cons.mp hfoundMem).resolve_left ?_, hfoundFront, hkey⟩
        intro heq
        rw [heq, hhash] at hkey
        exact hne hkey.symm
    · intro b hb hbFront
      change AList.lookup b.hash (AList.erase hash chain.orphans) ≠ none
      rw [EntryMap.lookup_erase_ite, if_neg]
      · exact h.waits b (List.mem_cons_of_mem _ hb) hbFront
      · rw [← hhash]
        exact ((List.pairwise_cons.mp hdistinct).1 b hb).symm

/-- Connecting the next block, which is not in the pool. -/
theorem Partway.connectNext {rest : List Block} (h : Partway front rest before chain)
    (hext : Extension before (block :: rest) final) (hindexed : Indexed genesis before)
    (order : OrphanOrder) :
    ∃ stage connected result, connectAlone order block chain = (.ok result, connected) ∧
      result.becameTip = true ∧ connected.orphans = chain.orphans ∧
        Extension before [block] stage ∧ Extension stage rest final ∧ Indexed genesis stage ∧
          Partway front rest stage connected := by
  have hdistinct := hext.fresh.2
  cases hext with
  | @cons _ _ _ parent work _ admitted tip hrest =>
      have hnew : chain.orphans.lookup block.hash = none := by
        rw [Option.eq_none_iff_forall_ne_some]
        intro entry hentry
        obtain ⟨hmem, -, hhash⟩ := h.pool _ _ hentry
        exact (List.pairwise_cons.mp hdistinct).1 _ hmem hhash.symm
      have hadm := h.same.admitted admitted hnew
      refine ⟨_, chain.extendTip block parent work, .connected (parent.height + 1) block.hash, ?_,
        rfl, rfl, .cons admitted tip (.nil _), hrest, extendTip_indexed hindexed admitted tip,
        h.same.extendTip block parent work, h.pool, h.waits⟩
      rw [connectAlone_eq_place order hadm,
        place_extended (tip.trans h.same.sameTree.tipHash_eq.symm)]

/-- What a promotion or a call makes of the blocks still to come: some are connected, up to the
first that was not delivered. -/
inductive Promoted (front bs : List Block) (before final chain : Chain) : Prop
  | upTo (taken rest : List Block) (stage : Chain) (split : bs = taken ++ rest)
      (delivered : ∀ b ∈ taken, b ∈ front) (gap : ∀ b ∈ rest.head?, b ∉ front)
      (connected : Extension before taken stage) (left : Extension stage rest final)
      (partway : Partway front rest stage chain)

theorem processOrphansLoop_partway (order : OrphanOrder) (fuel : ℕ)
    (h : Partway front bs before chain) (hext : Extension before bs final)
    (hindexed : Indexed genesis before) (hfuel : chain.orphans.entries.length < fuel) :
    ∃ promoted, processOrphansLoop order fuel (chain.enqueueReadyOrphans order []).2
        (chain.enqueueReadyOrphans order []).1 = (.ok (), promoted) ∧
      Promoted front bs before final promoted := by
  induction fuel generalizing bs before chain with
  | zero => cases hfuel
  | succ fuel ih =>
      rcases h.enqueue hext hindexed order with
        ⟨hgap, hqueue⟩ | ⟨b, rest, taken, rfl, hfront, hqueue, htaken, hlength⟩
      · rw [hqueue]
        exact ⟨chain, rfl, [], bs, before, rfl, by simp, hgap, .nil _, hext, h⟩
      · obtain ⟨stage, connected, result, hconnect, -, horphans, hfirst, hrest, hstage, hpart⟩ :=
          htaken.connectNext hext hindexed order
        obtain ⟨promoted, hrun, more, left, last, rfl, hmore, hgap, hto, hleft, hlast⟩ :=
          ih hpart hrest hstage (by rw [horphans]; omega)
        refine ⟨promoted, ?_, b :: more, left, last, rfl, ?_, hgap, ?_, hleft, hlast⟩
        · rw [hqueue, processOrphansLoop, hconnect]
          exact hrun
        · intro x hx
          rcases List.mem_cons.mp hx with rfl | hx
          · exact hfront
          · exact hmore x hx
        · exact hfirst.append hto

/-- A call with one of the blocks still to come. -/
theorem Partway.connectBlock (h : Partway front bs before chain) (hext : Extension before bs final)
    (hindexed : Indexed genesis before) (order : OrphanOrder) (hmem : block ∈ bs)
    (hnew : block ∉ front) (hgap : ∀ b ∈ bs.head?, b ∉ front)
    (hroom : bs.head? ≠ some block → chain.orphans.entries.length < maxOrphanBlocks) :
    ∃ result reached, Chain.connectBlock order block chain = (.ok result, reached) ∧
      Promoted (front ++ [block]) bs before final reached := by
  obtain ⟨hunknown, hdistinct⟩ := hext.fresh
  by_cases hhead : bs.head? = some block
  · obtain ⟨rest, rfl⟩ := List.head?_eq_some_iff.mp hhead
    -- the pool holds none of the blocks delivered so far but those behind this one
    have hrest : Partway (front ++ [block]) rest before chain := by
      refine ⟨h.same, fun hash entry hentry ↦ ?_, fun b hb hfront ↦ ?_⟩
      · obtain ⟨hentryMem, hfront, hhash⟩ := h.pool hash entry hentry
        refine ⟨(List.mem_cons.mp hentryMem).resolve_left ?_, List.mem_append_left _ hfront, hhash⟩
        intro heq
        exact hnew (heq ▸ hfront)
      · rcases List.mem_append.mp hfront with hfront | hsingle
        · exact h.waits b (List.mem_cons_of_mem _ hb) hfront
        · obtain rfl := List.mem_singleton.mp hsingle
          exact ((List.pairwise_cons.mp hdistinct).1 b hb rfl).elim
    obtain ⟨stage, connected, result, hconnect, htip, horphans, hfirst, hleft, hstage, hpart⟩ :=
      hrest.connectNext hext hindexed order
    obtain ⟨promoted, hrun, more, left, last, rfl, hmore, hnext, hto, hlast, hdone⟩ :=
      processOrphansLoop_partway order _ hpart hleft hstage (Nat.lt_succ_self _)
    refine ⟨result, promoted, ?_, .upTo (block :: more) left last rfl ?_ hnext (hfirst.append hto)
      hlast hdone⟩
    · have hprocess : processOrphans order connected = (.ok (), promoted) := hrun
      rw [connectBlock_eq, hconnect]
      simp only [htip, if_true, hprocess]
    · intro b hb
      rcases List.mem_cons.mp hb with rfl | hb
      · exact List.mem_append_right _ (List.mem_singleton_self _)
      · exact hmore b hb
  · have hparent : chain.known.lookup block.header.prevBlockhash = none := by
      by_contra hknown
      rw [h.same.known] at hknown
      exact hhead (hext.linked.head_of_parent_known hunknown hmem hknown)
    have horphan : chain.orphans.lookup block.hash = none := by
      rw [Option.eq_none_iff_forall_ne_some]
      intro entry hentry
      obtain ⟨hentryMem, hfront, hhash⟩ := h.pool _ _ hentry
      exact hnew (hext.eq_of_hash hentryMem hmem hhash ▸ hfront)
    have hadm : chain.admission block = .ok none :=
      admission_none_iff.mpr ⟨hext.limits block hmem, h.same.known ▸ hunknown block hmem, horphan,
        hparent⟩
    have hinsert : chain.insertOrphan order block = { chain with
        orphanReceiveSeq := chain.orphanReceiveSeq + 1
        orphans := chain.orphans.insert block.hash ⟨block, chain.orphanReceiveSeq + 1⟩
        eventJournal := chain.eventJournal.push (.orphanAdded block.hash
          (chain.orphans.insert block.hash
            ⟨block, chain.orphanReceiveSeq + 1⟩).entries.length) } := by
      rw [insertOrphan, if_neg (Nat.not_le.mpr (hroom hhead))]
    have hlookup (hash : Hash256) : (chain.insertOrphan order block).orphans.lookup hash =
        if hash = block.hash then some ⟨block, chain.orphanReceiveSeq + 1⟩
        else chain.orphans.lookup hash := by
      rw [hinsert]
      exact EntryMap.lookup_insert_ite _ _ _ _
    refine ⟨_, _, connectBlock_orphaned order hadm, .upTo [] bs before rfl (by simp) ?_ (.nil _)
      hext ⟨?_, fun hash entry hentry ↦ ?_, fun b hb hfront ↦ ?_⟩⟩
    · intro b hb hfront
      rcases List.mem_append.mp hfront with hfront | hsingle
      · exact hgap b hb hfront
      · exact hhead (hb.trans (congrArg some (List.mem_singleton.mp hsingle)))
    · rw [hinsert]
      exact h.same.pooled _ _ _
    · rw [hlookup] at hentry
      split at hentry
      · rename_i hhash
        obtain rfl := Option.some.inj hentry
        exact ⟨hmem, List.mem_append_right _ (List.mem_singleton_self _), hhash.symm⟩
      · obtain ⟨hentryMem, hfront, hhash⟩ := h.pool hash entry hentry
        exact ⟨hentryMem, List.mem_append_left _ hfront, hhash⟩
    · rw [hlookup]
      split
      · exact Option.some_ne_none _
      · rename_i hne
        refine h.waits b hb ((List.mem_append.mp hfront).resolve_right fun hsingle ↦ hne ?_)
        rw [List.mem_singleton.mp hsingle]

/-! ## Whole deliveries -/

omit [Crypto] [Features] in
/-- The delivered blocks that come after the first gap. -/
def waiting (bs front : List Block) : List Block :=
  front.filter fun b ↦ decide (b ∉ bs.takeWhile fun b ↦ decide (b ∈ front))

omit [Crypto] [Features] in
theorem takeWhile_delivered {taken rest : List Block} (htaken : ∀ b ∈ taken, b ∈ front)
    (hgap : ∀ b ∈ rest.head?, b ∉ front) :
    (taken ++ rest).takeWhile (fun b ↦ decide (b ∈ front)) = taken := by
  rw [List.takeWhile_append_of_pos fun b hb ↦ decide_eq_true (htaken b hb)]
  cases rest with
  | nil => simp
  | cons b rest =>
      rw [List.takeWhile_cons_of_neg, List.append_nil]
      simpa using hgap b rfl

/-- No more orphans are in the pool than delivered blocks wait. -/
theorem Promoted.length_orphans_le (h : Promoted front bs before final chain) :
    chain.orphans.entries.length ≤ (waiting bs front).length := by
  obtain ⟨taken, rest, stage, rfl, htaken, hgap, hto, hleft, hpart⟩ := h
  have hsub : chain.orphans.keys ⊆ (waiting (taken ++ rest) front).map Block.hash := by
    intro hash hhash
    obtain ⟨entry, hentry⟩ := Option.isSome_iff_exists.mp (AList.lookup_isSome.mpr hhash)
    obtain ⟨hmem, hfront, rfl⟩ := hpart.pool _ _ hentry
    refine List.mem_map_of_mem (List.mem_filter.mpr ⟨hfront, decide_eq_true ?_⟩)
    rw [takeWhile_delivered htaken hgap]
    intro htakenMem
    exact (List.pairwise_append.mp (hto.append hleft).fresh.2).2.2 _ htakenMem _ hmem rfl
  have hlength := (List.subperm_of_subset chain.orphans.keys_nodup hsub).length_le
  rw [List.length_map] at hlength
  simpa [AList.keys, List.keys] using hlength

theorem Promoted.connectBlock (h : Promoted front bs before final chain)
    (hindexed : Indexed genesis before) (order : OrphanOrder) (hmem : block ∈ bs)
    (hnew : block ∉ front)
    (hfits : (waiting bs (front ++ [block])).length ≤ maxOrphanBlocks) :
    ∃ result reached, Chain.connectBlock order block chain = (.ok result, reached) ∧
      Promoted (front ++ [block]) bs before final reached := by
  have hpool := h.length_orphans_le
  obtain ⟨taken, rest, stage, rfl, htaken, hgap, hto, hleft, hpart⟩ := h
  have hrest : block ∈ rest :=
    (List.mem_append.mp hmem).resolve_left fun hblock ↦ hnew (htaken block hblock)
  have hroom : rest.head? ≠ some block → chain.orphans.entries.length < maxOrphanBlocks := by
    intro hhead
    have hgap' : ∀ b ∈ rest.head?, b ∉ front ++ [block] := by
      intro b hb hfront
      rcases List.mem_append.mp hfront with hfront | hsingle
      · exact hgap b hb hfront
      · exact hhead (hb.trans (congrArg some (List.mem_singleton.mp hsingle)))
    have hblock : block ∉ taken := fun hblock ↦ hnew (htaken block hblock)
    have hmore : (waiting (taken ++ rest) (front ++ [block])).length =
        (waiting (taken ++ rest) front).length + 1 := by
      rw [waiting, waiting, takeWhile_delivered htaken hgap,
        takeWhile_delivered (fun b hb ↦ List.mem_append_left _ (htaken b hb)) hgap',
        List.filter_append, List.length_append]
      simp [hblock]
    omega
  obtain ⟨result, reached, hconnect, more, left, last, rfl, hmore, hnext, hto', hlast, hdone⟩ :=
    hpart.connectBlock hleft (hto.indexed hindexed) order hrest hnew hgap hroom
  refine ⟨result, reached, hconnect, .upTo (taken ++ more) left last (List.append_assoc _ _ _).symm
    ?_ hnext (hto.append hto') hlast hdone⟩
  intro b hb
  rcases List.mem_append.mp hb with hb | hb
  · exact List.mem_append_left _ (htaken b hb)
  · exact hmore b hb

/-- Every call returns a value. -/
def AllOk : List (OrphanOrder × Block) → Chain → Prop
  | [], _ => True
  | (order, block) :: calls, chain =>
      (∃ result, (Chain.connectBlock order block chain).1 = .ok result) ∧
        AllOk calls (Chain.connectBlock order block chain).2

theorem Promoted.deliverAll (calls : List (OrphanOrder × Block))
    (h : Promoted front bs before final chain) (hindexed : Indexed genesis before)
    (hmem : ∀ b ∈ calls.map Prod.snd, b ∈ bs) (hnodup : (front ++ calls.map Prod.snd).Nodup)
    (hfits : ∀ more, more <+: calls.map Prod.snd →
      (waiting bs (front ++ more)).length ≤ maxOrphanBlocks) :
    AllOk calls chain ∧
      Promoted (front ++ calls.map Prod.snd) bs before final (Chain.deliverAll calls chain) := by
  induction calls generalizing front chain with
  | nil => simpa [AllOk, Chain.deliverAll] using h
  | cons call calls ih =>
      obtain ⟨order, block⟩ := call
      simp only [List.map_cons] at hmem hnodup hfits ⊢
      have hnew : block ∉ front := fun hfront ↦
        (List.nodup_append.mp hnodup).2.2 block hfront block List.mem_cons_self rfl
      obtain ⟨result, reached, hconnect, hreached⟩ := h.connectBlock hindexed order
        (hmem block List.mem_cons_self) hnew (hfits [block] (by simp))
      have hrest : ∀ more, more <+: calls.map Prod.snd →
          (waiting bs (front ++ [block] ++ more)).length ≤ maxOrphanBlocks := by
        intro more hmore
        have hprefix := hfits (block :: more) ((List.prefix_cons_inj block).mpr hmore)
        rwa [List.append_cons] at hprefix
      rw [List.append_cons] at hnodup ⊢
      obtain ⟨hok, hdone⟩ :=
        ih hreached (fun b hb ↦ hmem b (List.mem_cons_of_mem _ hb)) hnodup hrest
      rw [AllOk, Chain.deliverAll, hconnect]
      exact ⟨⟨⟨result, rfl⟩, hok⟩, hdone⟩

/-- Delivered in order, every block connects. -/
inductive ConnectsEach : Chain → List (OrphanOrder × Block) → Chain → Prop
  | nil (chain : Chain) : ConnectsEach chain [] chain
  | cons {chain next done : Chain} {order : OrphanOrder} {block : Block} {height : ℕ}
      {calls : List (OrphanOrder × Block)}
      (connects : Chain.connectBlock order block chain = (.ok (.connected height block.hash), next))
      (rest : ConnectsEach next calls done) : ConnectsEach chain ((order, block) :: calls) done

/-- Without orphans a call that connects its block extends the tip. -/
theorem extension_of_connected (hindexed : Indexed genesis chain) (hnone : chain.orphans = ∅)
    {order : OrphanOrder} {height : ℕ} {hash : Hash256}
    (h : Chain.connectBlock order block chain = (.ok (.connected height hash), done)) :
    Extension chain [block] done := by
  cases hadm : chain.admission block with
  | error stop =>
      rw [connectBlock_eq, connectAlone_eq, hadm] at h
      cases h
  | ok found =>
      cases found with
      | none =>
          rw [connectBlock_orphaned order hadm] at h
          cases h
      | some pair =>
          have hadmitted := admission_some_iff.mp hadm
          have hplace := place_placement hindexed hadmitted
          rw [connectBlock_eq_place hindexed hnone order hadmitted] at h
          rw [h] at hplace
          cases hplace with
          | extended tip => exact .cons hadmitted tip (.nil _)

theorem ConnectsEach.extension {calls : List (OrphanOrder × Block)}
    (h : ConnectsEach chain calls done) (hindexed : Indexed genesis chain)
    (hnone : chain.orphans = ∅) : Extension chain (calls.map Prod.snd) done := by
  induction h with
  | nil => exact .nil _
  | cons connects rest ih =>
      have hfirst := extension_of_connected hindexed hnone connects
      exact hfirst.append (ih (hfirst.indexed hindexed) (hfirst.orphans_eq.trans hnone))

/-- Blocks that connect one after the other on the genesis chain end at the same chain in any
order, as long as there is room for those that wait. -/
theorem linear_delivery_any_order {networkTime : UInt32} {capacity : ℕ} {start : Chain}
    {inOrder calls : List (OrphanOrder × Block)}
    (hstart : withJournalCapacities genesis networkTime capacity = .ok start)
    (hlinear : ConnectsEach start inOrder final)
    (hperm : (calls.map Prod.snd).Perm (inOrder.map Prod.snd))
    (hfits : ∀ front, front <+: calls.map Prod.snd →
      (waiting (inOrder.map Prod.snd) front).length ≤ maxOrphanBlocks) :
    AllOk calls start ∧ (Chain.deliverAll calls start).orphans = ∅ ∧
      (Chain.deliverAll calls start).blocks = final.blocks ∧
        (Chain.deliverAll calls start).utxo = final.utxo ∧
          (Chain.deliverAll calls start).known = final.known ∧
            (Chain.deliverAll calls start).totalWork = final.totalWork := by
  have hrun : Reachable genesis start := .start hstart
  have hnone : start.orphans = ∅ := by
    obtain ⟨work, -, rfl⟩ := withJournalCapacities_spec hstart
    rfl
  have hext := hlinear.extension hrun.coherent.indexed hnone
  have hnodup : (calls.map Prod.snd).Nodup :=
    hperm.nodup_iff.mpr (hext.fresh.2.imp fun hne heq ↦ hne (congrArg Block.hash heq))
  have hstarted : Promoted [] (inOrder.map Prod.snd) start final start :=
    .upTo [] _ start rfl (by simp) (by simp) (.nil _) hext
      ⟨.refl _, by simp [hnone], fun _ _ h ↦ nomatch h⟩
  obtain ⟨hok, taken, rest, stage, hsplit, -, hgap, -, hleft, hpart⟩ :=
    hstarted.deliverAll calls hrun.coherent.indexed (fun b hb ↦ hperm.mem_iff.mp hb) hnodup hfits
  have hall : rest = [] := by
    cases rest with
    | nil => rfl
    | cons b rest =>
        have hmem : b ∈ inOrder.map Prod.snd := by
          rw [hsplit]
          exact List.mem_append_right _ List.mem_cons_self
        exact (hgap b rfl (hperm.mem_iff.mpr hmem)).elim
  subst hall
  cases hleft
  refine ⟨hok, ?_, hpart.same.blocks, hpart.same.utxo, hpart.same.known, hpart.same.totalWork⟩
  refine AList.ext (List.eq_nil_iff_forall_not_mem.mpr fun entry hentry ↦ ?_)
  have hempty := (hpart.pool _ _ (EntryMap.mem_entries_iff.mp hentry)).1
  cases hempty

end Chain

end Bitrst

namespace Bitrst.Sample

def grownSideMeta : BlockMeta :=
  ⟨side, 1, easyWork.add easyWork, start.utxo.transactionUndos side.transactions⟩

theorem side_connects :
    Chain.connectBlock order side start = (.ok (.connected 1 side.hash), grown side) := by
  have hopens : Opens side := by decide +kernel
  have hstart : Chain.Reachable genesis start := start_reachable
  exact (Chain.connectBlock_eq_place hstart.coherent.indexed rfl order
    hopens.admitted).trans hopens.place_eq

theorem sideNext_connects : Chain.connectBlock order sideNext (grown side) =
    (.ok (.connected 2 sideNext.hash),
      (grown side).extendTip sideNext grownSideMeta easyWork) := by
  have hopens : Opens side := by decide +kernel
  have hgrown : Chain.Reachable genesis (grown side) := hopens.reachable trivial
  have hfits : Chain.Fits (grown side) sideNext grownSideMeta := by decide +kernel
  exact (Chain.connectBlock_eq_place hgrown.coherent.indexed rfl order
    (hfits.admitted blockWork_easyBits)).trans (Chain.place_extended (by decide +kernel))

/-- A child arrives before its parent. -/
theorem sideNext_promoted : Chain.AllOk [(order, sideNext), (order, side)] start ∧
    (Chain.deliverAll [(order, sideNext), (order, side)] start).orphans = ∅ ∧
      (Chain.deliverAll [(order, sideNext), (order, side)] start).blocks =
        [genesis, side, sideNext] := by
  have hperm : ([(order, sideNext), (order, side)].map Prod.snd).Perm
      ([(order, side), (order, sideNext)].map Prod.snd) := .swap side sideNext []
  obtain ⟨hok, hnone, hblocks, -⟩ := Chain.linear_delivery_any_order start_created
    (.cons side_connects (.cons sideNext_connects (.nil _))) hperm
    fun front hfront ↦ (List.length_filter_le _ _).trans (hfront.length_le.trans (by decide))
  exact ⟨hok, hnone, hblocks⟩

end Bitrst.Sample
