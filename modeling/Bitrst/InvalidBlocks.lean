import Bitrst.LinearDelivery
import Bitrst.RefusedBlocks

/-!
# Invalid blocks among valid ones

Blocks that fail validation are delivered between others.  As long as none of them is
stored as an orphan under the hash of a valid block or behind one, the run goes beside
the run over the valid blocks alone: the block trees agree, and what else is in the pool
is never ready.  The orphan map is iterated in an order that one run does not share with
the other; the run alone can be iterated by a ranking of the hashes that promotes the
same blocks in the same order.
-/

namespace Bitrst

open Support

variable [Crypto] [Features]

namespace Chain

variable {genesis : Block} {chain alone : Chain} {block : Block} {own : Set Hash256}

/-! ## Ranking the orphans -/

omit [Crypto] [Features] in
/-- The entries in the order in which their hashes are listed. -/
def ranked (ranks : List Hash256) : OrphanOrder where
  iter entries := entries.insertionSort fun a b ↦ ranks.idxOf a.1 ≤ ranks.idxOf b.1
  perm entries := List.perm_insertionSort _ entries

omit [Crypto] [Features] in
theorem pairwise_idxOf {ranks : List Hash256} (hnodup : ranks.Nodup) :
    ranks.Pairwise fun a b ↦ ranks.idxOf a ≤ ranks.idxOf b := by
  rw [List.pairwise_iff_getElem]
  intro i j hi hj hlt
  rw [hnodup.idxOf_getElem i hi, hnodup.idxOf_getElem j hj]
  exact hlt.le

omit [Crypto] [Features] in
/-- A ranking lists the ready orphans as they are ranked. -/
theorem readyHashes_ranked {ranks ready : List Hash256} (hnodup : ranks.Nodup)
    (hsub : ready.Sublist ranks) (hready : ∀ hash, hash ∈ ready ↔ ∃ entry, Ready chain hash entry) :
    readyHashes (ranked ranks) chain = ready := by
  have hperm : (readyHashes (ranked ranks) chain).Perm ready :=
    (List.perm_ext_iff_of_nodup (readyHashes_nodup _ chain) (hnodup.sublist hsub)).mpr
      fun hash ↦ mem_readyHashes.trans (hready hash).symm
  have hantisymm : ∀ a b, a ∈ readyHashes (ranked ranks) chain → b ∈ ready →
      ranks.idxOf a ≤ ranks.idxOf b → ranks.idxOf b ≤ ranks.idxOf a → a = b :=
    fun a b ha _ hle hge ↦ (List.idxOf_inj (hsub.subset (hperm.subset ha))).mp (hle.antisymm hge)
  have htotal : Std.Total fun a b : Sigma fun _ : Hash256 ↦ OrphanEntry ↦
      ranks.idxOf a.1 ≤ ranks.idxOf b.1 := ⟨fun _ _ ↦ Nat.le_total _ _⟩
  have htrans : IsTrans (Sigma fun _ : Hash256 ↦ OrphanEntry) fun a b ↦
      ranks.idxOf a.1 ≤ ranks.idxOf b.1 := ⟨fun _ _ _ ↦ Nat.le_trans⟩
  have hsorted : (readyHashes (ranked ranks) chain).Pairwise fun a b ↦
      ranks.idxOf a ≤ ranks.idxOf b :=
    List.pairwise_map.mpr ((List.pairwise_insertionSort _ _).filter _)
  exact hperm.eq_of_pairwise hantisymm hsorted ((pairwise_idxOf hnodup).sublist hsub)

/-! ## Two pools -/

omit [Crypto] [Features] in
/-- The pools hold the same blocks under the own hashes, and the second holds no others. -/
structure SharedPool (own : Set Hash256) (pool pool' : OrphanMap) : Prop where
  shared : ∀ hash ∈ own,
    (pool'.lookup hash).map OrphanEntry.block = (pool.lookup hash).map OrphanEntry.block
  only : ∀ hash ∉ own, pool'.lookup hash = none

namespace SharedPool

variable {pool pool' : OrphanMap}

omit [Crypto] [Features] in
theorem exists_entry (h : SharedPool own pool pool') {hash : Hash256} {entry : OrphanEntry}
    (hentry : pool'.lookup hash = some entry) :
    hash ∈ own ∧ ∃ found, pool.lookup hash = some found ∧ found.block = entry.block := by
  have hown : hash ∈ own := by
    by_contra hnot
    rw [h.only hash hnot] at hentry
    cases hentry
  have hsame := h.shared hash hown
  rw [hentry] at hsame
  exact ⟨hown, Option.map_eq_some_iff.mp hsame.symm⟩

omit [Crypto] [Features] in
theorem lookup_eq_none_iff (h : SharedPool own pool pool') {hash : Hash256} (hown : hash ∈ own) :
    pool'.lookup hash = none ↔ pool.lookup hash = none := by
  rw [← Option.map_eq_none_iff (f := OrphanEntry.block), h.shared hash hown,
    Option.map_eq_none_iff]

omit [Crypto] [Features] in
theorem erase (h : SharedPool own pool pool') (hash : Hash256) :
    SharedPool own (pool.erase hash) (pool'.erase hash) := by
  refine ⟨fun key hkey ↦ ?_, fun key hkey ↦ ?_⟩
  · rw [EntryMap.lookup_erase_ite, EntryMap.lookup_erase_ite]
    split
    · rfl
    · exact h.shared key hkey
  · rw [EntryMap.lookup_erase_ite]
    split
    · rfl
    · exact h.only key hkey

omit [Crypto] [Features] in
theorem insert (h : SharedPool own pool pool') {hash : Hash256} (hown : hash ∈ own)
    (block : Block) (stamp stamp' : ℕ) :
    SharedPool own (pool.insert hash ⟨block, stamp⟩) (pool'.insert hash ⟨block, stamp'⟩) := by
  refine ⟨fun key hkey ↦ ?_, fun key hkey ↦ ?_⟩
  · rw [EntryMap.lookup_insert_ite, EntryMap.lookup_insert_ite]
    split
    · rfl
    · exact h.shared key hkey
  · rw [EntryMap.lookup_insert_ite, if_neg (ne_of_mem_of_not_mem hown hkey).symm]
    exact h.only key hkey

omit [Crypto] [Features] in
/-- What is not own may join the first pool. -/
theorem insert_left (h : SharedPool own pool pool') {hash : Hash256} (hnot : hash ∉ own)
    (entry : OrphanEntry) : SharedPool own (pool.insert hash entry) pool' := by
  refine ⟨fun key hkey ↦ ?_, h.only⟩
  rw [EntryMap.lookup_insert_ite, if_neg (ne_of_mem_of_not_mem hkey hnot)]
  exact h.shared key hkey

omit [Crypto] [Features] in
theorem length_le (h : SharedPool own pool pool') : pool'.entries.length ≤ pool.entries.length := by
  have hsub : pool'.keys ⊆ pool.keys := by
    intro hash hhash
    obtain ⟨entry, hentry⟩ := Option.isSome_iff_exists.mp (AList.lookup_isSome.mpr hhash)
    obtain ⟨-, found, hfound, -⟩ := h.exists_entry hentry
    exact AList.lookup_isSome.mp (by rw [hfound]; rfl)
  have hlength := (List.subperm_of_subset pool'.keys_nodup hsub).length_le
  simpa [AList.keys, List.keys] using hlength

omit [Crypto] [Features] in
theorem foldl_dequeueOrphan (h : SharedPool own pool pool') {ready : List Hash256}
    (hready : ∀ hash ∈ ready, hash ∈ own) (queue : List Block) :
    (ready.foldl dequeueOrphan (pool', queue)).2 = (ready.foldl dequeueOrphan (pool, queue)).2 ∧
      SharedPool own (ready.foldl dequeueOrphan (pool, queue)).1
        (ready.foldl dequeueOrphan (pool', queue)).1 := by
  induction ready generalizing pool pool' queue with
  | nil => exact ⟨rfl, h⟩
  | cons hash rest ih =>
      have hrest : ∀ key ∈ rest, key ∈ own := fun key hkey ↦
        hready key (List.mem_cons_of_mem _ hkey)
      have hsame := h.shared hash (hready hash List.mem_cons_self)
      rw [List.foldl_cons, List.foldl_cons, dequeueOrphan, dequeueOrphan]
      cases hentry : pool.lookup hash with
      | none =>
          have hentry' : pool'.lookup hash = none :=
            (h.lookup_eq_none_iff (hready hash List.mem_cons_self)).mpr hentry
          simp only [hentry']
          exact ih h hrest queue
      | some entry =>
          rw [hentry, Option.map_some] at hsame
          obtain ⟨entry', hentry', hblock⟩ := Option.map_eq_some_iff.mp hsame
          simp only [hentry', hblock]
          exact ih (h.erase hash) hrest _

end SharedPool

/-! ## A run beside another -/

/-- A run with other blocks among the own ones, beside a run over the own ones alone. -/
structure Beside (genesis : Block) (own : Set Hash256) (chain alone : Chain) : Prop where
  coherent : Coherent genesis chain
  summed : Summed genesis chain
  keyed : Keyed chain
  tree : SameTree chain alone
  known : ∀ hash, chain.known.lookup hash ≠ none → hash ∈ own
  pool : SharedPool own chain.orphans alone.orphans
  strays : ∀ hash entry, chain.orphans.lookup hash = some entry → hash ∉ own →
    entry.block.header.prevBlockhash ∉ own

omit [Crypto] [Features] in
/-- The outcomes of an admission differ at most in the entry of the parent. -/
inductive AdmittedAlike : ChainResult (Option (BlockMeta × ChainWork)) →
    ChainResult (Option (BlockMeta × ChainWork)) → Prop
  | refused (stop : Stop) : AdmittedAlike (.error stop) (.error stop)
  | orphaned : AdmittedAlike (.ok none) (.ok none)
  | admitted (parent parent' : BlockMeta) (work : ChainWork) :
      AdmittedAlike (.ok (some (parent, work))) (.ok (some (parent', work)))

namespace Beside

omit [Features] in
theorem ready_own (h : Beside genesis own chain alone) {hash : Hash256} {entry : OrphanEntry}
    (hready : Ready chain hash entry) : hash ∈ own := by
  by_contra hnot
  exact h.strays hash entry hready.1 hnot (h.known _ hready.2)

omit [Features] in
/-- The same orphans are ready. -/
theorem ready_iff (h : Beside genesis own chain alone) (hash : Hash256) :
    (∃ entry, Ready alone hash entry) ↔ ∃ entry, Ready chain hash entry := by
  constructor
  · rintro ⟨entry, hentry, hparent⟩
    obtain ⟨-, found, hfound, hblock⟩ := h.pool.exists_entry hentry
    refine ⟨found, hfound, ?_⟩
    rwa [hblock, ne_eq, ← h.tree.lookup_eq_none_iff]
  · rintro ⟨entry, hready⟩
    have hsame := h.pool.shared hash (h.ready_own hready)
    rw [hready.1, Option.map_some] at hsame
    obtain ⟨found, hfound, hblock⟩ := Option.map_eq_some_iff.mp hsame
    refine ⟨found, hfound, ?_⟩
    rw [hblock, ne_eq, h.tree.lookup_eq_none_iff]
    exact hready.2

omit [Features] in
/-- A collection of the run alone, ranked like that of the other, finds the same blocks. -/
theorem enqueueReadyOrphans (h : Beside genesis own chain alone) (order : OrphanOrder)
    {ranks : List Hash256} (hnodup : ranks.Nodup)
    (hsub : (readyHashes order chain).Sublist ranks) (queue : List Block) :
    (alone.enqueueReadyOrphans (ranked ranks) queue).2 =
        (chain.enqueueReadyOrphans order queue).2 ∧
      Beside genesis own (chain.enqueueReadyOrphans order queue).1
        (alone.enqueueReadyOrphans (ranked ranks) queue).1 := by
  have hready : readyHashes (ranked ranks) alone = readyHashes order chain :=
    readyHashes_ranked hnodup hsub fun hash ↦ mem_readyHashes.trans (h.ready_iff hash).symm
  have hown : ∀ hash ∈ readyHashes order chain, hash ∈ own := fun hash hmem ↦ by
    obtain ⟨entry, hentry⟩ := mem_readyHashes.mp hmem
    exact h.ready_own hentry
  obtain ⟨hqueue, hpool⟩ := h.pool.foldl_dequeueOrphan hown queue
  have hcoherent := (enqueueReadyOrphans_fewer order chain queue).coherent h.coherent
  have hkept := foldl_dequeueOrphan_fewer (readyHashes order chain) (chain.orphans, queue)
  rw [enqueueReadyOrphans_eq] at hcoherent
  rw [enqueueReadyOrphans_eq, enqueueReadyOrphans_eq, hready]
  exact ⟨hqueue, hcoherent, h.summed,
    fun hash entry hentry ↦ h.keyed hash entry (hkept hash entry hentry),
    h.tree.pooled _ _ _ _ _ _, h.known, hpool,
    fun hash entry hentry ↦ h.strays hash entry (hkept hash entry hentry)⟩

/-- Both runs admit an own block alike. -/
theorem admission (h : Beside genesis own chain alone) (hblock : block.hash ∈ own) :
    AdmittedAlike (chain.admission block) (alone.admission block) := by
  have hknown : (alone.known.lookup block.hash).isSome =
      (chain.known.lookup block.hash).isSome := by
    rw [Bool.eq_iff_iff, Option.isSome_iff_ne_none, Option.isSome_iff_ne_none, ne_eq, ne_eq,
      h.tree.lookup_eq_none_iff]
  have hpool : (alone.orphans.lookup block.hash).isSome =
      (chain.orphans.lookup block.hash).isSome := by
    rw [Bool.eq_iff_iff, Option.isSome_iff_ne_none, Option.isSome_iff_ne_none, ne_eq, ne_eq,
      h.pool.lookup_eq_none_iff hblock]
  unfold Chain.admission
  rw [hknown, hpool]
  cases validateBlockLimits block with
  | error e => exact .refused _
  | ok _ =>
      simp only
      split
      · exact .refused _
      · cases hparent : chain.known.lookup block.header.prevBlockhash with
        | none =>
            simp only [(h.tree.lookup_eq_none_iff _).mpr hparent]
            exact .orphaned
        | some parent =>
            obtain ⟨parent', hparent', hsame, hheight, -⟩ := h.tree.exists_entry hparent
            simp only [hparent', hsame, hheight, h.tree.validate_eq]
            cases chain.validateBlockForParent block (some parent.block)
              (some block.header.prevBlockhash) (parent.height + 1) with
            | error stop => exact .refused stop
            | ok _ =>
                simp only
                cases blockWork block.header.bits with
                | error e => exact .refused _
                | ok work => exact .admitted parent parent' work

/-- The index grows by the placed block at most. -/
theorem of_placed (h : Beside genesis own chain alone) (order : OrphanOrder)
    (hblock : block.hash ∈ own) {placed : Chain}
    (hplaced : (connectAlone order block chain).2 = placed)
    (horphans : placed.orphans = chain.orphans) {alone' : Chain} (htree : SameTree placed alone')
    (hpool : alone'.orphans = alone.orphans) : Beside genesis own placed alone' where
  coherent := hplaced ▸ connectAlone_coherent h.coherent order block
  summed := hplaced ▸ h.summed.connectAlone h.coherent.indexed order block
  keyed := by
    rw [Keyed, horphans]
    exact h.keyed
  tree := htree
  known := by
    intro hash hhash
    rw [← hplaced] at hhash
    rcases connectAlone_known_cases h.coherent order block hash hhash with hold | rfl
    · exact h.known hash hold
    · exact hblock
  pool := by
    rw [horphans, hpool]
    exact h.pool
  strays := by
    rw [horphans]
    exact h.strays

/-- An own block is dealt with alike in both runs, if there is room to store it. -/
theorem connectAlone (h : Beside genesis own chain alone) (order order' : OrphanOrder)
    (hblock : block.hash ∈ own)
    (hroom : chain.admission block = .ok none → chain.orphans.entries.length < maxOrphanBlocks) :
    (Chain.connectAlone order' block alone).1 = (Chain.connectAlone order block chain).1 ∧
      Beside genesis own (Chain.connectAlone order block chain).2
        (Chain.connectAlone order' block alone).2 := by
  have hadmission := h.admission hblock
  have hindexed := h.coherent.indexed
  generalize hadm : chain.admission block = outcome at hadmission
  generalize hadm' : alone.admission block = outcome' at hadmission
  cases hadmission with
  | refused stop =>
      rw [connectAlone_eq, connectAlone_eq, hadm, hadm']
      exact ⟨rfl, h⟩
  | orphaned =>
      have hcoherent := connectAlone_coherent h.coherent order block
      have hfits := hroom hadm
      have hfits' := h.pool.length_le.trans_lt hfits
      rw [connectAlone_eq, hadm] at hcoherent
      rw [connectAlone_eq, connectAlone_eq, hadm, hadm']
      simp only [insertOrphan, if_neg (Nat.not_le.mpr hfits)] at hcoherent
      simp only [insertOrphan, if_neg (Nat.not_le.mpr hfits), if_neg (Nat.not_le.mpr hfits')]
      refine ⟨trivial, hcoherent, h.summed, ?_, h.tree.pooled _ _ _ _ _ _, h.known,
        h.pool.insert hblock block _ _, ?_⟩
      · intro hash entry hentry
        rw [EntryMap.lookup_insert_ite] at hentry
        split at hentry
        · obtain rfl := Option.some.inj hentry
          exact (‹hash = block.hash›).symm
        · exact h.keyed hash entry hentry
      · intro hash entry hentry hnot
        rw [EntryMap.lookup_insert_ite, if_neg (ne_of_mem_of_not_mem hblock hnot).symm] at hentry
        exact h.strays hash entry hentry hnot
  | admitted parent parent' work =>
      have hadmitted := admission_some_iff.mp hadm
      have hadmitted' := admission_some_iff.mp hadm'
      have hplaced := connectAlone_eq_place order hadmitted
      obtain ⟨hresult, htree⟩ :=
        h.tree.place hindexed hadmitted.parent_known hadmitted'.parent_known
      rw [hplaced, connectAlone_eq_place order' hadmitted']
      exact ⟨hresult, h.of_placed order hblock (by rw [hplaced])
        (place_orphans hindexed hadmitted) htree
        (place_orphans (h.tree.indexed hindexed) hadmitted')⟩

/-! ## Calls -/

/-- The hashes of the orphans that the promotion loop takes out of the pool, turn by turn. -/
def promotionHashes (order : OrphanOrder) : ℕ → List Block → Chain → List Hash256
  | 0, _, _ => []
  | _ + 1, [], _ => []
  | n + 1, block :: queue, chain =>
      match Chain.connectAlone order block chain with
      | (.error _, _) => []
      | (.ok _, placed) =>
          readyHashes order placed ++
            promotionHashes order n (placed.enqueueReadyOrphans order queue).2
              (placed.enqueueReadyOrphans order queue).1

omit [Crypto] [Features] in
/-- What a collection takes out cannot be taken out again. -/
theorem readyHashes_append_nodup (order : OrphanOrder) (queue : List Block) {later : List Hash256}
    (hnodup : later.Nodup)
    (hpooled : ∀ hash ∈ later,
      (chain.enqueueReadyOrphans order queue).1.orphans.lookup hash ≠ none) :
    (readyHashes order chain ++ later).Nodup ∧
      ∀ hash ∈ readyHashes order chain ++ later, chain.orphans.lookup hash ≠ none := by
  refine ⟨List.nodup_append.mpr ⟨readyHashes_nodup order chain, hnodup, ?_⟩, ?_⟩
  · rintro hash hready key hlater rfl
    exact hpooled hash hlater (foldl_dequeueOrphan_gone _ (chain.orphans, queue) hready)
  · intro hash hmem
    rcases List.mem_append.mp hmem with hready | hlater
    · obtain ⟨entry, hentry, -⟩ := mem_readyHashes.mp hready
      rw [hentry]
      exact Option.some_ne_none entry
    · obtain ⟨entry, hentry⟩ := Option.ne_none_iff_exists'.mp (hpooled hash hlater)
      have hold := foldl_dequeueOrphan_fewer (readyHashes order chain) (chain.orphans, queue) _ _
        hentry
      rw [hold]
      exact Option.some_ne_none entry

theorem promotionHashes_nodup (order : OrphanOrder) (fuel : ℕ) (queue : List Block)
    (h : Coherent genesis chain) (hparents : ParentsKnown chain queue) :
    (promotionHashes order fuel queue chain).Nodup ∧
      ∀ hash ∈ promotionHashes order fuel queue chain, chain.orphans.lookup hash ≠ none := by
  induction fuel generalizing queue chain with
  | zero => exact ⟨.nil, by simp [promotionHashes]⟩
  | succ fuel ih =>
      cases queue with
      | nil => exact ⟨.nil, by simp [promotionHashes]⟩
      | cons next queue =>
          have hcoherent := connectAlone_coherent h order next
          obtain ⟨horphans, hknown⟩ :=
            connectAlone_orphans h.indexed order (hparents next List.mem_cons_self)
          unfold promotionHashes
          cases hconnect : Chain.connectAlone order next chain with
          | mk outcome placed =>
            rw [hconnect] at hcoherent horphans hknown
            cases outcome with
            | error stop => exact ⟨.nil, by simp⟩
            | ok result =>
                have hrest : ParentsKnown placed queue := fun b hb ↦
                  hknown _ (hparents b (List.mem_cons_of_mem _ hb))
                obtain ⟨hnodup, hpooled⟩ := ih _
                  ((enqueueReadyOrphans_fewer order placed queue).coherent hcoherent)
                  (enqueueReadyOrphans_parentsKnown order hrest)
                have hall := readyHashes_append_nodup order queue hnodup hpooled
                rwa [horphans] at hall

omit [Features] in
theorem queue_own (h : Beside genesis own chain alone) (order : OrphanOrder) {queue : List Block}
    (hqueue : ∀ b ∈ queue, b.hash ∈ own) :
    ∀ b ∈ (chain.enqueueReadyOrphans order queue).2, b.hash ∈ own := by
  intro b hb
  rcases mem_foldl_dequeueOrphan hb with hold | ⟨hash, hready, entry, hentry, rfl⟩
  · exact hqueue b hold
  · obtain ⟨found, hfound⟩ := mem_readyHashes.mp hready
    have hown := h.ready_own hfound
    rwa [← h.keyed hash entry hentry] at hown

/-- The promotion loops take the same turns. -/
theorem processOrphansLoop (h : Beside genesis own chain alone) (order : OrphanOrder)
    (fuel fuel' : ℕ) (queue : List Block) (hqueue : ∀ b ∈ queue, b.hash ∈ own)
    (hparents : ParentsKnown chain queue)
    (hfuel : chain.orphans.entries.length + queue.length < fuel)
    (hfuel' : alone.orphans.entries.length + queue.length < fuel') {ranks : List Hash256}
    (hnodup : ranks.Nodup) (hsub : (promotionHashes order fuel queue chain).Sublist ranks) :
    (Chain.processOrphansLoop (ranked ranks) fuel' queue alone).1 =
        (Chain.processOrphansLoop order fuel queue chain).1 ∧
      Beside genesis own (Chain.processOrphansLoop order fuel queue chain).2
        (Chain.processOrphansLoop (ranked ranks) fuel' queue alone).2 := by
  induction fuel generalizing fuel' queue chain alone with
  | zero => exact (Nat.not_lt_zero _ hfuel).elim
  | succ fuel ih =>
      obtain ⟨fuel', rfl⟩ := Nat.exists_eq_succ_of_ne_zero (Nat.ne_of_gt (Nat.zero_lt_of_lt hfuel'))
      cases queue with
      | nil => exact ⟨rfl, h⟩
      | cons next queue =>
          have hparent := hparents next List.mem_cons_self
          have hparent' : alone.known.lookup next.header.prevBlockhash ≠ none :=
            fun hnone ↦ hparent ((h.tree.lookup_eq_none_iff _).mp hnone)
          obtain ⟨horphans, hknown⟩ := connectAlone_orphans h.coherent.indexed order hparent
          obtain ⟨horphans', -⟩ :=
            connectAlone_orphans (h.tree.indexed h.coherent.indexed) (ranked ranks) hparent'
          obtain ⟨hresult, hplaced⟩ := h.connectAlone order (ranked ranks)
            (hqueue next List.mem_cons_self)
            fun hnone ↦ (hparent (admission_none_iff.mp hnone).2.2.2).elim
          unfold promotionHashes at hsub
          unfold Chain.processOrphansLoop
          generalize Chain.connectAlone order next chain = outcome at *
          generalize Chain.connectAlone (ranked ranks) next alone = outcome' at *
          obtain ⟨result, placed⟩ := outcome
          obtain ⟨result', placed'⟩ := outcome'
          obtain rfl : result' = result := hresult
          cases result' with
          | error stop => exact ⟨rfl, hplaced⟩
          | ok result =>
              simp only at hsub horphans horphans' hknown hplaced ⊢
              have hrest : ParentsKnown placed queue := fun b hb ↦
                hknown _ (hparents b (List.mem_cons_of_mem _ hb))
              obtain ⟨hsame, hnext⟩ := hplaced.enqueueReadyOrphans order hnodup
                ((List.sublist_append_left _ _).trans hsub) queue
              have hcount := enqueueReadyOrphans_count order placed queue
              have hcount' := enqueueReadyOrphans_count (ranked ranks) placed' queue
              rw [horphans] at hcount
              rw [horphans', hsame] at hcount'
              rw [List.length_cons] at hfuel hfuel'
              rw [hsame]
              exact ih hnext fuel' _
                (hplaced.queue_own order fun b hb ↦ hqueue b (List.mem_cons_of_mem _ hb))
                (enqueueReadyOrphans_parentsKnown order hrest) (by omega) (by omega)
                ((List.sublist_append_right _ _).trans hsub)

/-- The hashes of the orphans that a promotion takes out of the pool, in this order. -/
def promotionRanks (order : OrphanOrder) (chain : Chain) : List Hash256 :=
  readyHashes order chain ++ promotionHashes order (chain.orphans.entries.length + 1)
    (chain.enqueueReadyOrphans order []).2 (chain.enqueueReadyOrphans order []).1

/-- Iterated in the order in which they are taken out here, the orphans of the run alone are
promoted alike. -/
theorem processOrphans (h : Beside genesis own chain alone) (order : OrphanOrder) :
    (Chain.processOrphans (ranked (promotionRanks order chain)) alone).1 =
        (Chain.processOrphans order chain).1 ∧
      Beside genesis own (Chain.processOrphans order chain).2
        (Chain.processOrphans (ranked (promotionRanks order chain)) alone).2 := by
  have hparents : ParentsKnown (chain.enqueueReadyOrphans order []).1
      (chain.enqueueReadyOrphans order []).2 :=
    enqueueReadyOrphans_parentsKnown order fun _ hb ↦ nomatch hb
  obtain ⟨hnodup, hpooled⟩ := promotionHashes_nodup order (chain.orphans.entries.length + 1) _
    ((enqueueReadyOrphans_fewer order chain []).coherent h.coherent) hparents
  have hranks : (promotionRanks order chain).Nodup :=
    (readyHashes_append_nodup order [] hnodup hpooled).1
  obtain ⟨hsame, hnext⟩ :=
    h.enqueueReadyOrphans order hranks (List.sublist_append_left _ _) []
  have hcount := enqueueReadyOrphans_count order chain []
  have hcount' := enqueueReadyOrphans_count (ranked (promotionRanks order chain)) alone []
  rw [List.length_nil] at hcount hcount'
  rw [hsame] at hcount'
  unfold Chain.processOrphans
  simp only [hsame]
  exact hnext.processOrphansLoop order _ _ _ (h.queue_own order (by simp)) hparents
    (by omega) (by omega) hranks (List.sublist_append_right _ _)

/-- A call with an own block goes the same way in some order of the run alone. -/
theorem connectBlock (h : Beside genesis own chain alone) (order : OrphanOrder)
    (hblock : block.hash ∈ own)
    (hroom : chain.admission block = .ok none → chain.orphans.entries.length < maxOrphanBlocks) :
    ∃ order', (Chain.connectBlock order' block alone).1 = (Chain.connectBlock order block chain).1 ∧
      Beside genesis own (Chain.connectBlock order block chain).2
        (Chain.connectBlock order' block alone).2 := by
  cases hconnect : Chain.connectAlone order block chain with
  | mk outcome placed =>
    refine ⟨ranked (promotionRanks order placed), ?_⟩
    obtain ⟨hresult, hplaced⟩ :=
      h.connectAlone order (ranked (promotionRanks order placed)) hblock hroom
    rw [hconnect] at hresult hplaced
    rw [connectBlock_eq, connectBlock_eq, hconnect]
    generalize Chain.connectAlone (ranked (promotionRanks order placed)) block alone = outcome' at *
    obtain ⟨result', placed'⟩ := outcome'
    obtain rfl : result' = outcome := hresult
    cases result' with
    | error stop => exact ⟨rfl, hplaced⟩
    | ok result =>
        simp only
        split
        · obtain ⟨hpromoted, hdone⟩ := hplaced.processOrphans order
          simp only at hpromoted hdone
          generalize Chain.processOrphans order placed = promoted at *
          generalize Chain.processOrphans (ranked (promotionRanks order placed)) placed' =
            promoted' at *
          obtain ⟨outcome, done⟩ := promoted
          obtain ⟨outcome', done'⟩ := promoted'
          obtain rfl : outcome' = outcome := hpromoted
          cases outcome' <;> exact ⟨rfl, hdone⟩
        · exact ⟨rfl, hplaced⟩

/-- A refused block leaves the run beside the other. -/
theorem refused (h : Beside genesis own chain alone) (order : OrphanOrder) {stop : Stop}
    (herror : (Chain.connectAlone order block chain).1 = .error stop) :
    Beside genesis own (Chain.connectBlock order block chain).2 alone := by
  have hindexed := h.coherent.indexed
  have hcoherent := connectAlone_coherent h.coherent order block
  have hsummed := h.summed.connectAlone hindexed order block
  obtain ⟨htree, horphans⟩ := connectAlone_error_sameTree hindexed h.summed order herror
  rw [connectBlock_eq]
  cases hconnect : Chain.connectAlone order block chain with
  | mk outcome failed =>
    rw [hconnect] at herror hcoherent hsummed htree horphans
    obtain rfl : outcome = .error stop := herror
    simp only at hcoherent hsummed htree horphans ⊢
    refine ⟨hcoherent, hsummed, ?_, htree.symm.trans h.tree, fun hash hhash ↦ h.known hash ?_,
      ?_, ?_⟩
    · rw [Keyed, horphans]
      exact h.keyed
    · rwa [ne_eq, ← htree.lookup_eq_none_iff]
    · rw [horphans]
      exact h.pool
    · rw [horphans]
      exact h.strays

/-- So does a block that waits under a hash that is not own for a parent that is not. -/
theorem stray (h : Beside genesis own chain alone) (order : OrphanOrder)
    (hwaits : chain.admission block = .ok none) (hhash : block.hash ∉ own)
    (hparent : block.header.prevBlockhash ∉ own)
    (hroom : chain.orphans.entries.length < maxOrphanBlocks) :
    Beside genesis own (Chain.connectBlock order block chain).2 alone := by
  have hcoherent := connectAlone_coherent h.coherent order block
  rw [connectAlone_eq, hwaits] at hcoherent
  rw [connectBlock_orphaned order hwaits]
  simp only [insertOrphan, if_neg (Nat.not_le.mpr hroom)] at hcoherent ⊢
  have hcases : ∀ hash entry,
      (chain.orphans.insert block.hash ⟨block, chain.orphanReceiveSeq + 1⟩).lookup hash =
          some entry →
        hash = block.hash ∧ entry.block = block ∨ chain.orphans.lookup hash = some entry := by
    intro hash entry hentry
    rw [EntryMap.lookup_insert_ite] at hentry
    split at hentry
    · obtain rfl := Option.some.inj hentry
      exact Or.inl ⟨‹hash = block.hash›, rfl⟩
    · exact Or.inr hentry
  refine ⟨hcoherent, h.summed, fun hash entry hentry ↦ ?_, ?_, h.known,
    h.pool.insert_left hhash _, fun hash entry hentry hnot ↦ ?_⟩
  · rcases hcases hash entry hentry with ⟨rfl, hblock⟩ | hold
    · rw [hblock]
    · exact h.keyed hash entry hold
  · exact (SameTree.refl chain).pooled _ _ _ _ _ _ |>.symm.trans h.tree
  · rcases hcases hash entry hentry with ⟨-, hblock⟩ | hold
    · rwa [hblock]
    · exact h.strays hash entry hold hnot

end Beside

/-! ## Runs -/

/-- The block is refused at every state where its parent is known and its hash is new. -/
def FailsValidation (chain : Chain) (block : Block) : Prop :=
  ∀ parent work, Admitted chain block parent work → ∃ e, Refused chain block e

/-- If the block is stored as an orphan, the pool is not full. -/
def HasRoom (chain : Chain) (block : Block) : Prop :=
  chain.admission block = .ok none → chain.orphans.entries.length < maxOrphanBlocks

/-- If the block is stored as an orphan, neither its hash nor its parent's is that of a valid
block. -/
def StaysApart (valid : List Block) (chain : Chain) (block : Block) : Prop :=
  chain.admission block = .ok none →
    ∀ b ∈ valid, block.hash ≠ b.hash ∧ block.header.prevBlockhash ≠ b.hash

/-- The delivered blocks with what their calls return. -/
def answers : List (OrphanOrder × Block) → Chain → List (Block × ChainResult ConnectResult)
  | [], _ => []
  | call :: rest, chain =>
      (call.2, (connectBlock call.1 call.2 chain).1) ::
        answers rest (connectBlock call.1 call.2 chain).2

/-- `alone` delivers the valid blocks in the order in which `calls` does and nothing else, and
there is no difference for them: the chain has the same active blocks and work, their calls
return the same, and those of them that wait are the same. -/
structure Undisturbed (valid : List Block) (calls alone : List (OrphanOrder × Block))
    (start : Chain) : Prop where
  order : alone.map Prod.snd = (calls.map Prod.snd).filter fun b ↦ decide (b ∈ valid)
  totalWork : (deliverAll calls start).totalWork = (deliverAll alone start).totalWork
  blocks : (deliverAll calls start).blocks = (deliverAll alone start).blocks
  answers : (answers calls start).filter (fun answer ↦ decide (answer.1 ∈ valid)) =
    answers alone start
  waiting : ∀ b ∈ valid, ((deliverAll calls start).orphans.lookup b.hash).map OrphanEntry.block =
    ((deliverAll alone start).orphans.lookup b.hash).map OrphanEntry.block

/-- Every block is connected or stored on a side branch, so each comes after its parent. -/
def AllPlaced : List (OrphanOrder × Block) → Chain → Prop
  | [], _ => True
  | call :: rest, chain =>
      (∃ result, (connectBlock call.1 call.2 chain).1 = .ok result ∧
        result ≠ .orphaned call.2.hash) ∧
          AllPlaced rest (connectBlock call.1 call.2 chain).2

/-- The hashes of genesis and of the valid blocks. -/
def ownHashes (genesis : Block) (valid : List Block) : Set Hash256 :=
  {hash | hash = genesis.hash ∨ ∃ b ∈ valid, b.hash = hash}

omit [Features] in
/-- Of an orphan only the hashes of the valid blocks matter, since genesis is known. -/
theorem notMem_ownHashes (h : Indexed genesis chain) {valid : List Block} {hash : Hash256}
    (hnone : chain.known.lookup hash = none) (hvalid : ∀ b ∈ valid, hash ≠ b.hash) :
    hash ∉ ownHashes genesis valid := by
  rintro (rfl | ⟨b, hb, rfl⟩)
  · obtain ⟨entry, hentry, -⟩ := h.genesis_known
    rw [hnone] at hentry
    cases hentry
  · exact hvalid b hb rfl

theorem Beside.invalid {valid : List Block}
    (h : Beside genesis (ownHashes genesis valid) chain alone) (order : OrphanOrder)
    (hroom : HasRoom chain block) (hfails : FailsValidation chain block)
    (hapart : StaysApart valid chain block) :
    Beside genesis (ownHashes genesis valid) (Chain.connectBlock order block chain).2 alone := by
  cases hadm : chain.admission block with
  | error stop => exact h.refused order (by rw [connectAlone_eq, hadm])
  | ok found =>
      cases found with
      | none =>
          obtain ⟨-, hunknown, -, hparent⟩ := admission_none_iff.mp hadm
          exact h.stray order hadm
            (notMem_ownHashes h.coherent.indexed hunknown fun b hb ↦ (hapart hadm b hb).1)
            (notMem_ownHashes h.coherent.indexed hparent fun b hb ↦ (hapart hadm b hb).2)
            (hroom hadm)
      | some pair =>
          obtain ⟨e, hrefused⟩ := hfails _ _ (admission_some_iff.mp hadm)
          exact h.refused order ((connectAlone_error_iff h.coherent.indexed order).mpr hrefused)

theorem Beside.deliverAll {valid : List Block}
    (h : Beside genesis (ownHashes genesis valid) chain alone) (calls : List (OrphanOrder × Block))
    (hmeets : DeliverMeets (fun chain block ↦ HasRoom chain block ∧
      (block ∉ valid → FailsValidation chain block ∧ StaysApart valid chain block)) calls chain) :
    ∃ run : List (OrphanOrder × Block),
      run.map Prod.snd = (calls.map Prod.snd).filter (fun b ↦ decide (b ∈ valid)) ∧
        (answers calls chain).filter (fun answer ↦ decide (answer.1 ∈ valid)) =
          answers run alone ∧
        Beside genesis (ownHashes genesis valid) (Chain.deliverAll calls chain)
          (Chain.deliverAll run alone) := by
  induction calls generalizing chain alone with
  | nil => exact ⟨[], rfl, rfl, h⟩
  | cons call rest ih =>
      obtain ⟨order, block⟩ := call
      obtain ⟨⟨hroom, hinvalid⟩, hrest⟩ := hmeets
      by_cases hmem : block ∈ valid
      · obtain ⟨order', hresult, hnext⟩ := h.connectBlock order (Or.inr ⟨block, hmem, rfl⟩) hroom
        obtain ⟨run, hrun, hanswers, hdone⟩ := ih hnext hrest
        refine ⟨(order', block) :: run, ?_, ?_, hdone⟩
        · simp only [List.map_cons, List.filter_cons, hmem, decide_true, if_true, hrun]
        · simp only [Chain.answers, List.filter_cons, hmem, decide_true, if_true, hanswers,
            hresult]
      · obtain ⟨hfails, hapart⟩ := hinvalid hmem
        obtain ⟨run, hrun, hanswers, hdone⟩ := ih (h.invalid order hroom hfails hapart) hrest
        refine ⟨run, ?_, ?_, hdone⟩
        · simpa [hmem] using hrun
        · simpa [Chain.answers, hmem] using hanswers

theorem withJournalCapacities_beside {networkTime : UInt32} {capacity : ℕ} (valid : List Block)
    (created : withJournalCapacities genesis networkTime capacity = .ok chain) :
    Beside genesis (ownHashes genesis valid) chain chain := by
  have hcoherent := withJournalCapacities_coherent created
  have hsummed := withJournalCapacities_summed created
  obtain ⟨work, -, rfl⟩ := withJournalCapacities_spec created
  refine ⟨hcoherent, hsummed, fun _ _ hentry ↦ (nomatch hentry), .refl _, fun hash hhash ↦ ?_,
    ⟨fun _ _ ↦ rfl, fun _ _ ↦ rfl⟩, fun _ _ hentry ↦ (nomatch hentry)⟩
  rw [pushTip_known] at hhash
  split at hhash
  · exact Or.inl ‹hash = genesis.hash›
  · simp at hhash

/-- The answers do not depend on the iteration orders if orphans are promoted one at a time. -/
theorem Ordered.answers_eq (h : Ordered genesis chain) (calls calls' : List (OrphanOrder × Block))
    (hsame : calls.map Prod.snd = calls'.map Prod.snd)
    (hmeets : DeliverMeets (fun chain block ↦ Promotes chain block → OneAtATime chain block)
      calls chain) : answers calls chain = answers calls' chain := by
  induction calls generalizing calls' chain with
  | nil =>
      obtain rfl := List.map_eq_nil_iff.mp hsame.symm
      rfl
  | cons call rest ih =>
      obtain ⟨order, block⟩ := call
      obtain ⟨⟨order', block'⟩, rest', rfl, hblock, hrest⟩ :=
        List.map_eq_cons_iff.mp hsame.symm
      obtain rfl : block = block' := hblock.symm
      have hstep := connectBlock_order_eq h.coherent h.stamped order order' hmeets.1
      have hnext := ih (h.connectBlock order block) rest' hrest.symm hmeets.2
      unfold answers
      simp only
      rw [hnext, hstep]

/-- Blocks that fail validation make no difference to the valid ones they are delivered between,
as long as none of them is stored as an orphan with the hash of a valid block or its parent's.
The orphan map of the run without them is iterated in some orders, or in any if it promotes at
most one orphan at a time. -/
theorem invalid_blocks_undisturbing {networkTime : UInt32} {capacity : ℕ} {start : Chain}
    {valid : List Block} {calls : List (OrphanOrder × Block)}
    (created : withJournalCapacities genesis networkTime capacity = .ok start)
    (hmeets : DeliverMeets (fun chain block ↦ HasRoom chain block ∧
      (block ∉ valid → FailsValidation chain block ∧ StaysApart valid chain block)) calls start) :
    (∃ alone, Undisturbed valid calls alone start) ∧
      ∀ alone : List (OrphanOrder × Block),
        alone.map Prod.snd = (calls.map Prod.snd).filter (fun b ↦ decide (b ∈ valid)) →
          DeliverMeets (fun chain block ↦ Promotes chain block → OneAtATime chain block)
            alone start → Undisturbed valid calls alone start := by
  obtain ⟨run, horder, hanswers, hdone⟩ :=
    (withJournalCapacities_beside valid created).deliverAll calls hmeets
  have hrun : Undisturbed valid calls run start :=
    ⟨horder, hdone.tree.totalWork.symm, hdone.tree.blocks.symm, hanswers, fun b hb ↦
      (hdone.pool.shared b.hash (Or.inr ⟨b, hb, rfl⟩)).symm⟩
  refine ⟨⟨run, hrun⟩, fun alone hsame hone ↦ ?_⟩
  have hreached : Reachable genesis start := .start created
  have hordered := hreached.ordered
  have hblocks := hsame.trans horder.symm
  have hstate := hordered.deliverAll_eq alone run hblocks hone
  have hreturned := hordered.answers_eq alone run hblocks hone
  refine ⟨hsame, ?_, ?_, hrun.answers.trans hreturned.symm, ?_⟩
  · rw [hstate, hrun.totalWork]
  · rw [hstate, hrun.blocks]
  · rw [hstate]
    exact hrun.waiting

end Chain

end Bitrst

namespace Bitrst.Sample

/-- `sideNext` with another transaction under the same header. -/
def sideNextCopy : Block := { sideNext with transactions := [coin 4] }

def holdingCopy : Chain := start.insertOrphan order sideNextCopy

theorem sideNextCopy_never_admitted (chain : Chain) (parent : BlockMeta) (work : ChainWork) :
    ¬ Chain.Admitted chain sideNextCopy parent work := by
  intro hadm
  have hroot := (Chain.validateBlockForParent_ok_iff.mp hadm.valid).1.root
  have hfalse : sideNextCopy.headerMerkleRootMatches = false := by decide +kernel
  rw [hfalse] at hroot
  cases hroot

theorem holdingCopy_run : start.admission sideNextCopy = .ok none ∧
    holdingCopy.admission sideNext = .error (.error .blockAlreadyKnown) ∧
    Chain.Fits holdingCopy side genesisMeta ∧
    side.header.prevBlockhash = holdingCopy.tipHash ∧
    (Chain.processOrphans order (holdingCopy.extendTip side genesisMeta easyWork)).1 =
      .error (.error .merkleRootMismatch) ∧
    (Chain.processOrphans order (holdingCopy.extendTip side genesisMeta easyWork)).2.totalWork =
      easyWork.add easyWork := by
  decide +kernel

theorem waitingElder_run : start.admission sideNext = .ok none ∧
    Chain.Fits waitingElder side genesisMeta ∧
    side.header.prevBlockhash = waitingElder.tipHash ∧
    (Chain.processOrphans order (waitingElder.extendTip side genesisMeta easyWork)).1 = .ok () ∧
    (Chain.processOrphans order (waitingElder.extendTip side genesisMeta easyWork)).2.totalWork =
      (easyWork.add easyWork).add easyWork := by
  decide +kernel

theorem waitingElder_promotes (o₁ o₂ : OrphanOrder) :
    (Chain.deliverAll [(o₁, sideNext), (o₂, side)] start).totalWork =
      (easyWork.add easyWork).add easyWork := by
  obtain ⟨hwaits, hfits, htip, hok, hwork⟩ := waitingElder_run
  have hstart : Chain.Reachable genesis start := start_reachable
  have hfirst : (Chain.connectBlock o₁ sideNext start).2 = waitingElder := by
    rw [Chain.connectBlock_orphaned o₁ hwaits]
    exact hstart.ordered.stamped.insertOrphan_eq o₁ order sideNext
  have hordered : Chain.Ordered genesis waitingElder :=
    hfirst ▸ hstart.ordered.connectBlock o₁ sideNext
  have honly : ∀ hash entry, waitingElder.orphans.lookup hash = some entry →
      hash = sideNext.hash := by
    intro hash entry hentry
    change ((∅ : OrphanMap).insert sideNext.hash ⟨sideNext, 1⟩).lookup hash = some entry at hentry
    rw [Support.EntryMap.lookup_insert_ite] at hentry
    split at hentry
    · assumption
    · cases hentry
  have hone : Chain.OneAtATime waitingElder side :=
    ⟨fun hash entry hash' entry' hentry hentry' _ _ ↦
      (honly hash entry hentry).trans (honly hash' entry' hentry').symm,
      fun hash entry hash' entry' hentry hentry' _ _ ↦
        (honly hash entry hentry).trans (honly hash' entry' hentry').symm⟩
  have hplace : waitingElder.place side genesisMeta easyWork = (.ok (.connected 1 side.hash),
      waitingElder.extendTip side genesisMeta easyWork) := Chain.place_extended htip
  rw [Chain.deliverAll_cons, Chain.deliverAll_cons, Chain.deliverAll_nil, hfirst,
    Chain.connectBlock_order_eq hordered.coherent hordered.stamped o₂ order fun _ ↦ hone,
    Chain.connectBlock_eq, Chain.connectAlone_eq_place order (hfits.admitted blockWork_easyBits),
    hplace]
  cases hprocess :
      Chain.processOrphans order (waitingElder.extendTip side genesisMeta easyWork) with
  | mk outcome done =>
    rw [hprocess] at hok hwork
    obtain rfl : outcome = .ok () := hok
    simp only [ConnectResult.becameTip, if_true, hprocess]
    exact hwork

theorem deliver_copy : (Chain.connectBlock order sideNextCopy start).2 = holdingCopy :=
  congrArg Prod.snd (Chain.connectBlock_orphaned order holdingCopy_run.1)

theorem deliver_original : (Chain.connectBlock order sideNext holdingCopy).2 = holdingCopy := by
  rw [Chain.connectBlock_eq, Chain.connectAlone_eq, holdingCopy_run.2.1]

theorem holdingCopy_loses :
    (Chain.deliverAll [(order, sideNextCopy), (order, sideNext), (order, side)] start).totalWork =
      easyWork.add easyWork := by
  obtain ⟨-, -, hfits, htip, herror, hwork⟩ := holdingCopy_run
  have hplace : holdingCopy.place side genesisMeta easyWork = (.ok (.connected 1 side.hash),
      holdingCopy.extendTip side genesisMeta easyWork) := Chain.place_extended htip
  rw [Chain.deliverAll_cons, Chain.deliverAll_cons, Chain.deliverAll_cons, Chain.deliverAll_nil,
    deliver_copy, deliver_original, Chain.connectBlock_eq,
    Chain.connectAlone_eq_place order (hfits.admitted blockWork_easyBits), hplace]
  cases hprocess : Chain.processOrphans order (holdingCopy.extendTip side genesisMeta easyWork) with
  | mk outcome done =>
    rw [hprocess] at herror hwork
    obtain rfl : outcome = .error (.error .merkleRootMismatch) := herror
    simp only [ConnectResult.becameTip, if_true, hprocess]
    exact hwork

/-- A copy of a valid block that can never be admitted makes the block itself be refused as
already known, and the chain ends with less work. -/
theorem copy_shadows_block : ¬ ∀ genesis networkTime capacity start valid calls,
    Chain.withJournalCapacities genesis networkTime capacity = .ok start →
    (∃ inOrder : List (OrphanOrder × Block), (inOrder.map Prod.snd).Perm valid ∧
      Chain.AllPlaced inOrder start) →
    ((calls.map Prod.snd).filter fun b ↦ decide (b ∈ valid)).Perm valid →
    (∀ b ∈ calls.map Prod.snd, b ∉ valid → ∀ chain parent work,
      ¬ Chain.Admitted chain b parent work) →
    Chain.DeliverMeets Chain.HasRoom calls start →
    ∃ alone : List (OrphanOrder × Block),
      alone.map Prod.snd = ((calls.map Prod.snd).filter fun b ↦ decide (b ∈ valid)) ∧
        (Chain.deliverAll calls start).totalWork = (Chain.deliverAll alone start).totalWork := by
  intro h
  have hfilter : (([(order, sideNextCopy), (order, sideNext), (order, side)].map Prod.snd).filter
      fun b ↦ decide (b ∈ [side, sideNext])) = [sideNext, side] := by decide +kernel
  have hplaced : Chain.AllPlaced [(order, side), (order, sideNext)] start := by
    refine ⟨⟨.connected 1 side.hash, by rw [side_connects], nofun⟩, ?_, trivial⟩
    rw [side_connects]
    exact ⟨.connected 2 sideNext.hash, by rw [sideNext_connects], nofun⟩
  have hroom : Chain.DeliverMeets Chain.HasRoom
      [(order, sideNextCopy), (order, sideNext), (order, side)] start := by
    refine ⟨fun _ ↦ by decide, ?_⟩
    rw [deliver_copy]
    refine ⟨fun _ ↦ by decide +kernel, ?_⟩
    rw [deliver_original]
    exact ⟨fun _ ↦ by decide +kernel, trivial⟩
  have hcopies : ∀ b ∈ [(order, sideNextCopy), (order, sideNext), (order, side)].map Prod.snd,
      b ∉ [side, sideNext] → ∀ chain parent work, ¬ Chain.Admitted chain b parent work := by
    intro b hb hnot
    rcases List.mem_cons.mp hb with rfl | hb
    · exact sideNextCopy_never_admitted
    · exact (hnot ((List.Perm.swap side sideNext []).mem_iff.mp hb)).elim
  obtain ⟨alone, hblocks, hwork⟩ := h genesis 5000 _ start [side, sideNext]
    [(order, sideNextCopy), (order, sideNext), (order, side)] start_created
    ⟨[(order, side), (order, sideNext)], .refl _, hplaced⟩
    (hfilter ▸ List.Perm.swap side sideNext []) hcopies hroom
  obtain ⟨⟨o₁, _⟩, rest, rfl, rfl, hrest⟩ := List.map_eq_cons_iff.mp (hblocks.trans hfilter)
  obtain ⟨⟨o₂, _⟩, last, rfl, rfl, hlast⟩ := List.map_eq_cons_iff.mp hrest
  obtain rfl := List.map_eq_nil_iff.mp hlast
  rw [holdingCopy_loses, waitingElder_promotes] at hwork
  exact absurd hwork (by decide +kernel)

/-- A block that waits for a parent nobody knows makes no difference. -/
theorem damaged_undisturbing : (∃ alone, Chain.Undisturbed [side, sideNext]
      [(order, damaged), (order, sideNext), (order, side)] alone start) ∧
    ∀ alone : List (OrphanOrder × Block), alone.map Prod.snd =
        (([(order, damaged), (order, sideNext), (order, side)] :
          List (OrphanOrder × Block)).map Prod.snd).filter
            (fun b ↦ decide (b ∈ [side, sideNext])) →
      Chain.DeliverMeets (fun chain block ↦ Chain.Promotes chain block →
        Chain.OneAtATime chain block) alone start →
        Chain.Undisturbed [side, sideNext]
          [(order, damaged), (order, sideNext), (order, side)] alone start := by
  have hwaits : start.admission damaged = .ok none := by decide +kernel
  have hfirst : (Chain.connectBlock order damaged start).2 = waiting :=
    congrArg Prod.snd (Chain.connectBlock_orphaned order hwaits)
  have hsecond : (Chain.connectBlock order sideNext waiting).2 =
      waiting.insertOrphan order sideNext :=
    congrArg Prod.snd (Chain.connectBlock_orphaned order (by decide +kernel))
  refine Chain.invalid_blocks_undisturbing start_created ⟨⟨fun _ ↦ by decide, fun _ ↦ ⟨?_, ?_⟩⟩, ?_⟩
  · intro parent work hadm
    rw [Chain.admission_some_iff.mpr hadm] at hwaits
    cases hwaits
  · exact fun _ ↦ by decide +kernel
  · rw [hfirst]
    refine ⟨⟨fun _ ↦ by decide +kernel, fun hnot ↦ (hnot (by simp)).elim⟩, ?_⟩
    rw [hsecond]
    exact ⟨⟨fun _ ↦ by decide +kernel, fun hnot ↦ (hnot (by simp)).elim⟩, trivial⟩

end Bitrst.Sample
