import Bitrst.MempoolRemaining

/-!
# Replaying events into a synchronised pool

All peers share one pool, and each applies the events of the chain with a cursor
of its own; so a pool that is synchronised meets events that it has met before.
Removing for the connected blocks takes out what these affect, whether or not it
is still good, and revalidating takes out nothing more.  What is restored depends
on the turns of the candidates: `applyChainEvents_unchanged_iff` says when these
bring back the affected residents and nothing else.
-/

namespace Bitrst

open Support

variable [Crypto] [Features]

namespace Mempool

variable {genesis : Block} {chain : Chain} {chainUtxo : UtxoSet} {pool current : Mempool}
  {blocks : List Block} {candidates pending front found : List Transaction}
  {tx parent : Transaction}

/-! ## The turns of the candidates -/

omit [Features] in
/-- A transaction is offered to a pool with room for it. -/
def offer (chainUtxo : UtxoSet) (pool : Mempool) (tx : Transaction) : Mempool :=
  match pool.validateCandidate tx chainUtxo with
  | .error _ => pool
  | .ok (_, candidate) => pool.insertEntry tx.txid candidate

/-- The candidates, as often as the passes can take. -/
def turns (candidates : List Transaction) : List Transaction :=
  (List.replicate (candidates.length + 1) candidates).flatten

omit [Features] in
theorem acceptTx_eq_offer (hlimits : ¬ pool.wouldExceedLimits tx.serializedSize) :
    (pool.acceptTx tx chainUtxo).2 = pool.offer chainUtxo tx := by
  rcases acceptTx_offer hlimits with ⟨e, hrefused, heq⟩ | ⟨fee, candidate, hvalid, heq⟩
  · rw [heq, offer, hrefused]
  · rw [heq, offer, hvalid]

omit [Features] in
theorem offer_refused (h : ∃ e, pool.validateCandidate tx chainUtxo = .error e) :
    pool.offer chainUtxo tx = pool := by
  obtain ⟨e, hrefused⟩ := h
  rw [offer, hrefused]

omit [Features] in
theorem Sound.offer_of_mem (h : Sound pool) (htx : tx ∈ pool.transactions) :
    pool.offer chainUtxo tx = pool := by
  refine offer_refused (validateCandidate_error_iff.mpr fun hfound ↦ ?_)
  exact h.lookup_none_iff.mp (validateCandidate_ok_iff.mp hfound).1 tx htx rfl

omit [Features] in
theorem Sound.offer (h : Sound pool) (tx : Transaction) : Sound (pool.offer chainUtxo tx) := by
  unfold Mempool.offer
  cases hvalid : pool.validateCandidate tx chainUtxo with
  | error e => exact h
  | ok found => exact (validateCandidate_ok hvalid).insert_sound h []

omit [Features] in
theorem Sound.mem_offer_iff (h : Sound pool) {other : Transaction} :
    other ∈ (pool.offer chainUtxo tx).transactions ↔ other ∈ pool.transactions ∨
      other = tx ∧ ∃ found, pool.validateCandidate tx chainUtxo = .ok found := by
  cases hvalid : pool.validateCandidate tx chainUtxo with
  | error e => simp [offer_refused ⟨e, hvalid⟩]
  | ok found =>
      rw [Mempool.offer, hvalid]
      simp [h.transactions_insertEntry hvalid]

omit [Features] in
theorem Sound.offers (h : Sound pool) (txs : List Transaction) :
    Sound (txs.foldl (Mempool.offer chainUtxo) pool) := by
  induction txs generalizing pool with
  | nil => exact h
  | cons tx rest ih => exact ih (h.offer tx)

omit [Features] in
theorem Sound.mem_offers (h : Sound pool) (txs : List Transaction)
    (htx : tx ∈ pool.transactions) :
    tx ∈ (txs.foldl (Mempool.offer chainUtxo) pool).transactions := by
  induction txs generalizing pool with
  | nil => exact htx
  | cons next rest ih => exact ih (h.offer next) (h.mem_offer_iff.mpr (Or.inl htx))

omit [Features] in
/-- Offers of residents can be left out. -/
theorem Sound.offers_filter (h : Sound pool) {keep : Transaction → Bool} (txs : List Transaction)
    (hskip : ∀ tx, keep tx = false → tx ∈ pool.transactions) :
    (txs.filter keep).foldl (Mempool.offer chainUtxo) pool =
      txs.foldl (Mempool.offer chainUtxo) pool := by
  induction txs generalizing pool with
  | nil => rfl
  | cons tx rest ih =>
      cases hkeep : keep tx with
      | true =>
          rw [List.filter_cons_of_pos hkeep]
          exact ih (h.offer tx) fun other hother ↦ h.mem_offer_iff.mpr (Or.inl (hskip other hother))
      | false =>
          rw [List.filter_cons_of_neg (by simp [hkeep]), List.foldl_cons,
            h.offer_of_mem (hskip tx hkeep)]
          exact ih h hskip

omit [Features] in
theorem restorePass_eq_offers
    (hlimits : ∀ offer ∈ passOffers chainUtxo pending pool,
      ¬ offer.1.wouldExceedLimits offer.2.serializedSize) :
    (restorePass chainUtxo pending pool).2 = pending.foldl (offer chainUtxo) pool := by
  induction pending generalizing pool with
  | nil => rfl
  | cons tx rest ih =>
      have hfirst := @acceptTx_eq_offer _ chainUtxo _ _ (hlimits (pool, tx) List.mem_cons_self)
      rw [restorePass_cons, List.foldl_cons, ← hfirst]
      exact ih fun offer hoffer ↦ hlimits offer (List.mem_cons_of_mem _ hoffer)

omit [Features] in
/-- A pass leaves out only what it admits. -/
theorem restorePass_filter (h : Sound pool) {keep : Transaction → Bool}
    (hlimits : ∀ offer ∈ passOffers chainUtxo pending pool,
      ¬ offer.1.wouldExceedLimits offer.2.serializedSize)
    (hkeep : ∀ tx ∈ (restorePass chainUtxo pending pool).2.transactions, keep tx = false) :
    (restorePass chainUtxo pending pool).1.filter keep = pending.filter keep := by
  induction pending generalizing pool with
  | nil => rfl
  | cons tx rest ih =>
      have hlater : ∀ offer ∈ passOffers chainUtxo rest (pool.acceptTx tx chainUtxo).2,
          ¬ offer.1.wouldExceedLimits offer.2.serializedSize :=
        fun offer hoffer ↦ hlimits offer (List.mem_cons_of_mem _ hoffer)
      rw [restorePass_cons] at hkeep
      have hrest := ih (h.acceptTx tx chainUtxo) hlater hkeep
      rcases @acceptTx_offer _ _ chainUtxo _ (hlimits (pool, tx) List.mem_cons_self) with
        ⟨e, -, heq⟩ | ⟨fee, candidate, hvalid, heq⟩
      · rw [heq] at hrest
        simp only [restorePass, heq, List.filter_cons, hrest]
      · have hadmitted : tx ∈ (pool.acceptTx tx chainUtxo).2.transactions := by
          rw [heq]
          simp [h.transactions_insertEntry hvalid]
        have hdropped : keep tx = false := by
          apply hkeep tx
          rw [restorePass_eq_offers hlater]
          exact (h.acceptTx tx chainUtxo).mem_offers rest hadmitted
        rw [heq] at hrest
        rw [List.filter_cons_of_neg (by simp [hdropped]), ← hrest]
        simp only [restorePass, heq]

/-- The transactions that are none of the residents. -/
def missing (pool : Mempool) (txs : List Transaction) : List Transaction :=
  txs.filter fun tx ↦ decide (tx ∉ pool.transactions)

omit [Crypto] [Features] in
theorem missing_missing (h : pool.transactions ⊆ current.transactions) (txs : List Transaction) :
    current.missing (pool.missing txs) = current.missing txs := by
  rw [missing, missing, List.filter_filter]
  refine List.filter_congr fun tx _ ↦ ?_
  by_cases htx : tx ∈ current.transactions
  · simp [htx]
  · have hpool : tx ∉ pool.transactions := fun hmem ↦ htx (h hmem)
    simp [htx, hpool]

omit [Features] in
theorem Sound.offers_missing (h : Sound pool) (txs : List Transaction) :
    (pool.missing txs).foldl (Mempool.offer chainUtxo) pool =
      txs.foldl (Mempool.offer chainUtxo) pool :=
  h.offers_filter txs fun tx hkeep ↦ by simpa using hkeep

omit [Features] in
theorem offers_still {txs : List Transaction}
    (hstill : ∀ tx ∈ txs, pool.offer chainUtxo tx = pool) :
    txs.foldl (offer chainUtxo) pool = pool := by
  induction txs with
  | nil => rfl
  | cons tx rest ih =>
      rw [List.foldl_cons, hstill tx List.mem_cons_self]
      exact ih fun other hother ↦ hstill other (List.mem_cons_of_mem _ hother)

omit [Features] in
/-- The passes are the turns of the candidates, where a resident is offered in vain. -/
theorem restoreLoop_eq_offers (n : ℕ) (h : Sound pool) (hfuel : pending.length < n)
    (hpending : pool.missing pending = pool.missing candidates)
    (hlimits : ∀ offer ∈ loopOffers chainUtxo n pending pool,
      ¬ offer.1.wouldExceedLimits offer.2.serializedSize) :
    restoreLoop chainUtxo n pending pool =
      (List.replicate n candidates).flatten.foldl (offer chainUtxo) pool := by
  induction n generalizing pool pending with
  | zero => omega
  | succ n ih =>
      unfold loopOffers at hlimits
      simp only at hlimits
      have hpass : ∀ offer ∈ passOffers chainUtxo pending pool,
          ¬ offer.1.wouldExceedLimits offer.2.serializedSize :=
        fun offer hoffer ↦ hlimits offer (List.mem_append_left _ hoffer)
      have hoffers : candidates.foldl (offer chainUtxo) pool =
          (restorePass chainUtxo pending pool).2 := by
        rw [restorePass_eq_offers hpass, ← h.offers_missing pending, hpending, h.offers_missing]
      have hdone : Sound (restorePass chainUtxo pending pool).2 := hoffers ▸ h.offers candidates
      have hgrows : pool.transactions ⊆ (restorePass chainUtxo pending pool).2.transactions :=
        fun tx htx ↦ hoffers ▸ h.mem_offers candidates htx
      have hremaining : (restorePass chainUtxo pending pool).2.missing
            (restorePass chainUtxo pending pool).1 =
          (restorePass chainUtxo pending pool).2.missing candidates := by
        rw [missing, restorePass_filter h hpass fun tx htx ↦ by simpa using htx]
        change missing _ pending = _
        rw [← missing_missing hgrows pending, hpending, missing_missing hgrows]
      have hsublist := restorePass_remaining chainUtxo pending pool
      rw [List.replicate_succ, List.flatten_cons, List.foldl_append, hoffers]
      unfold restoreLoop
      simp only
      split
      · rename_i hend
        refine (offers_still fun tx htx ↦ ?_).symm
        have hcandidate : tx ∈ candidates := by
          obtain ⟨turn, hturn, htx⟩ := List.mem_flatten.mp htx
          exact List.eq_of_mem_replicate hturn ▸ htx
        by_cases hadmitted : tx ∈ (restorePass chainUtxo pending pool).2.transactions
        · exact hdone.offer_of_mem hadmitted
        · have hkept : tx ∈ (restorePass chainUtxo pending pool).1 := by
            have hmissing : tx ∈ (restorePass chainUtxo pending pool).2.missing candidates :=
              List.mem_filter.mpr ⟨hcandidate, by simpa using hadmitted⟩
            rw [← hremaining] at hmissing
            exact List.mem_of_mem_filter hmissing
          rcases hend with hlength | hempty
          · obtain ⟨-, -, -, hstuck⟩ :=
              (Restoring.start h).pass h (List.Subset.refl pending) hpass
            obtain ⟨hsame, hrefused⟩ := hstuck hlength
            rw [hsame]
            exact offer_refused (hrefused tx (hsublist.subset hkept))
          · rw [List.isEmpty_iff.mp hempty] at hkept
            cases hkept
      · rename_i hmore
        rw [if_neg hmore] at hlimits
        have hless : (restorePass chainUtxo pending pool).1.length < pending.length :=
          lt_of_le_of_ne hsublist.length_le fun heq ↦ hmore (Or.inl heq)
        exact ih hdone (by omega) hremaining
          fun offer hoffer ↦ hlimits offer (List.mem_append_right _ hoffer)

omit [Features] in
/-- Below the limits a restoration offers the candidates turn by turn. -/
theorem restoreCandidates_eq_offers (h : Sound pool)
    (hlimits : RestoresBelowLimits pool candidates chainUtxo) :
    pool.restoreCandidates candidates chainUtxo =
      (turns candidates).foldl (offer chainUtxo) pool :=
  restoreLoop_eq_offers _ h (Nat.lt_succ_self _) rfl hlimits

/-! ## What the turns bring back -/

/-- The resident is not affected by the blocks, or it was offered after the residents that it
spends from were back. -/
inductive Present (pool : Mempool) (blocks : List Block) : List Transaction → Transaction → Prop
  | unaffected {front : List Transaction} {tx : Transaction} (hresident : tx ∈ pool.transactions)
      (hstays : ¬ Affected pool blocks tx.txid) : Present pool blocks front tx
  | offered {front : List Transaction} {tx : Transaction} (hresident : tx ∈ pool.transactions)
      (hparents : ∀ parent ∈ pool.transactions, SpendsFrom tx parent →
        Present pool blocks front parent) : Present pool blocks (front ++ [tx]) tx
  | later {front : List Transaction} {tx next : Transaction}
      (hpresent : Present pool blocks front tx) : Present pool blocks (front ++ [next]) tx

omit [Features] in
theorem Present.resident (h : Present pool blocks front tx) : tx ∈ pool.transactions := by
  induction h with
  | unaffected hresident _ => exact hresident
  | offered hresident _ _ => exact hresident
  | later _ ih => exact ih

omit [Features] in
theorem present_nil_iff :
    Present pool blocks [] tx ↔ tx ∈ pool.transactions ∧ ¬ Affected pool blocks tx.txid := by
  refine ⟨fun h ↦ ?_, fun ⟨hresident, hstays⟩ ↦ .unaffected hresident hstays⟩
  generalize hnil : ([] : List Transaction) = offers at h
  cases h with
  | unaffected hresident hstays => exact ⟨hresident, hstays⟩
  | offered => simp at hnil
  | later => simp at hnil

omit [Features] in
theorem present_concat_iff {next : Transaction} :
    Present pool blocks (front ++ [next]) tx ↔ Present pool blocks front tx ∨
      tx = next ∧ tx ∈ pool.transactions ∧
        ∀ parent ∈ pool.transactions, SpendsFrom tx parent → Present pool blocks front parent := by
  constructor
  · intro h
    generalize hoffers : front ++ [next] = offers at h
    cases h with
    | unaffected hresident hstays => exact Or.inl (.unaffected hresident hstays)
    | offered hresident hparents =>
        obtain ⟨rfl, heq⟩ := List.append_inj' hoffers rfl
        exact Or.inr ⟨(List.singleton_inj.mp heq).symm, hresident, hparents⟩
    | later hpresent =>
        obtain ⟨rfl, -⟩ := List.append_inj' hoffers rfl
        exact Or.inl hpresent
  · rintro (hpresent | ⟨rfl, hresident, hparents⟩)
    · exact .later hpresent
    · exact .offered hresident hparents

/-- The transaction stands apart from the residents that are present, and is valid behind them. -/
structure Welcome (pool : Mempool) (blocks : List Block) (chainUtxo : UtxoSet)
    (front : List Transaction) (tx : Transaction) : Prop where
  apart : ∀ other, Present pool blocks front other → Apart tx other
  valid : ∃ found, (∀ other, other ∈ found ↔ Present pool blocks front other) ∧
    isValidForView tx (chainUtxo.applyTransactions found) = true

/-- The pool holds the residents that are present after the offers. -/
structure Tracks (pool : Mempool) (blocks : List Block) (front : List Transaction)
    (current : Mempool) : Prop where
  sound : Sound current
  present : ∀ tx, tx ∈ current.transactions ↔ Present pool blocks front tx

omit [Features] in
theorem Synchronised.tracks_remaining (h : Synchronised pool chain) (hbacked : chain.Backed) :
    Tracks pool blocks [] (pool.remaining blocks chain.utxo) :=
  ⟨remaining_sound h.sound, fun _ ↦ (h.mem_remaining_iff hbacked).trans present_nil_iff.symm⟩

omit [Features] in
theorem Tracks.subset (h : Tracks pool blocks front current) :
    current.transactions ⊆ pool.transactions :=
  fun tx htx ↦ ((h.present tx).mp htx).resident

omit [Features] in
/-- The pool admits what is welcome. -/
theorem Tracks.welcome_iff (h : Tracks pool blocks front current)
    (hpool : Synchronised pool chain) (hbacked : chain.Backed) :
    Welcome pool blocks chain.utxo front tx ↔
      ∃ found, current.validateCandidate tx chain.utxo = .ok found := by
  rw [h.sound.admits_iff]
  simp only [h.present]
  constructor
  · rintro ⟨hapart, found, hfound, hvalid⟩
    refine ⟨hapart, isValidForView_mono hvalid fun input hinput entry hentry ↦ ?_⟩
    have hunspent : ∀ other ∈ current.transactions, input.outPoint ∉ other.spentOutPoints :=
      fun other hother hspent ↦ (hapart other ((h.present other).mp hother)).2 input hinput
        (Transaction.mem_spentOutPoints hspent)
    refine (UtxoSet.lookup_applyTransactions_iff hunspent
      ((hpool.none_confirmed.suppliesOnce hpool.sound hbacked _).anti h.subset)).mpr
        ((UtxoSet.supplies_of_lookup hentry).mono fun other hother ↦ ?_)
    exact (h.present other).mpr ((hfound other).mp hother)
  · rintro ⟨hapart, hvalid⟩
    exact ⟨hapart, current.transactions, h.present, hvalid⟩

omit [Features] in
/-- A resident that is not present is welcome when the residents that it spends from are. -/
theorem Tracks.resident_iff (h : Tracks pool blocks front current)
    (hpool : Synchronised pool chain) (hbacked : chain.Backed) (htx : tx ∈ pool.transactions)
    (hnew : tx ∉ current.transactions) :
    (∃ found, current.validateCandidate tx chain.utxo = .ok found) ↔
      ∀ parent ∈ pool.transactions, SpendsFrom tx parent → Present pool blocks front parent := by
  rw [h.sound.admits_iff, hpool.valid_behind_iff hbacked htx h.subset hnew]
  simp only [h.present]
  refine ⟨fun hadmits ↦ hadmits.2, fun hparents ↦ ⟨fun other hother ↦ ?_, hparents⟩⟩
  have hmem := (h.present other).mpr hother
  refine ⟨fun htxid ↦ hnew ?_, fun input hinput hspent ↦ hnew ?_⟩
  · rwa [← hpool.sound.txid_inj (h.subset hmem) htx htxid]
  · rwa [← hpool.sound.spender_unique (h.subset hmem) htx hspent (List.mem_map_of_mem hinput)]

omit [Features] in
/-- An offer keeps track of the residents if it is of a resident or not welcome. -/
theorem Tracks.offer (h : Tracks pool blocks front current)
    (hpool : Synchronised pool chain) (hbacked : chain.Backed)
    (hunwelcome : tx ∉ pool.transactions → ¬ Welcome pool blocks chain.utxo front tx) :
    Tracks pool blocks (front ++ [tx]) (current.offer chain.utxo tx) := by
  refine ⟨h.sound.offer tx, fun other ↦ ?_⟩
  rw [h.sound.mem_offer_iff, h.present, present_concat_iff]
  by_cases htx : tx ∈ pool.transactions
  · by_cases hpresent : tx ∈ current.transactions
    · have hback := (h.present tx).mp hpresent
      constructor
      · rintro (hother | ⟨rfl, -⟩)
        · exact Or.inl hother
        · exact Or.inl hback
      · rintro (hother | ⟨rfl, -⟩)
        · exact Or.inl hother
        · exact Or.inl hback
    · rw [h.resident_iff hpool hbacked htx hpresent]
      refine or_congr_right ⟨?_, ?_⟩
      · rintro ⟨rfl, hparents⟩
        exact ⟨rfl, htx, hparents⟩
      · rintro ⟨rfl, -, hparents⟩
        exact ⟨rfl, hparents⟩
  · rw [← h.welcome_iff hpool hbacked]
    refine or_congr_right ⟨fun ⟨_, hwelcome⟩ ↦ (hunwelcome htx hwelcome).elim, ?_⟩
    rintro ⟨rfl, hresident, -⟩
    exact (htx hresident).elim

/-- No transaction outside the pool is welcome when its turn comes. -/
def Unwelcome (pool : Mempool) (blocks : List Block) (chainUtxo : UtxoSet)
    (offers : List Transaction) : Prop :=
  ∀ front tx, front ++ [tx] <+: offers → tx ∉ pool.transactions →
    ¬ Welcome pool blocks chainUtxo front tx

omit [Features] in
theorem Tracks.offers {offers : List Transaction} (h : Tracks pool blocks [] current)
    (hpool : Synchronised pool chain) (hbacked : chain.Backed)
    (hunwelcome : Unwelcome pool blocks chain.utxo offers) :
    Tracks pool blocks offers (offers.foldl (Mempool.offer chain.utxo) current) := by
  induction offers using List.reverseRecOn with
  | nil => exact h
  | append_singleton front tx ih =>
      rw [List.foldl_append]
      have hfront : Unwelcome pool blocks chain.utxo front := fun before other hbefore ↦
        hunwelcome before other (hbefore.trans (List.prefix_append _ _))
      exact (ih hfront).offer hpool hbacked (hunwelcome front tx (List.prefix_refl _))

omit [Features] in
/-- Where only residents are admitted, nothing else was welcome. -/
theorem Tracks.unwelcome {offers : List Transaction} (h : Tracks pool blocks [] current)
    (hpool : Synchronised pool chain) (hbacked : chain.Backed)
    (honly : (offers.foldl (Mempool.offer chain.utxo) current).transactions ⊆ pool.transactions) :
    Unwelcome pool blocks chain.utxo offers := by
  induction offers using List.reverseRecOn with
  | nil => exact fun front tx hfront ↦ by simp at hfront
  | append_singleton before last ih =>
      rw [List.foldl_append] at honly
      have hsound : Sound (before.foldl (Mempool.offer chain.utxo) current) := h.sound.offers before
      have hbefore := ih fun tx htx ↦ honly (hsound.mem_offers [last] htx)
      intro front tx hfront htx hwelcome
      rcases List.prefix_concat_iff.mp hfront with heq | hfront
      · obtain ⟨rfl, hlast⟩ := List.append_inj' heq rfl
        obtain rfl := List.singleton_inj.mp hlast
        have hadmits := ((h.offers hpool hbacked hbefore).welcome_iff hpool hbacked).mp hwelcome
        exact htx (honly (hsound.mem_offer_iff.mpr (Or.inr ⟨rfl, hadmits⟩)))
      · exact hbefore front tx hfront htx hwelcome

/-! ## The whole replay -/

omit [Features] in
theorem Sound.getTransaction_congr_iff (h : Sound pool) (hcurrent : Sound current) :
    (∀ txid, current.getTransaction txid = pool.getTransaction txid) ↔
      ∀ tx, tx ∈ current.transactions ↔ tx ∈ pool.transactions := by
  constructor
  · intro hsame tx
    rw [hcurrent.mem_transactions_iff, h.mem_transactions_iff, hsame]
  · intro hsame txid
    refine Option.ext fun tx ↦ ?_
    rw [hcurrent.getTransaction_iff, h.getTransaction_iff, hsame]

/-- Every resident that the connected blocks affect is a transaction of a disconnected block, and
no other such transaction is welcome when its turn comes. -/
structure ReplaysInPlace (pool : Mempool) (chain : Chain) (events : List ChainEvent) : Prop where
  offered : ∀ tx ∈ pool.transactions, Affected pool (connectedBlocks chain events) tx.txid →
    tx ∈ restorable (disconnectedBlocks chain events)
  unwelcome : Unwelcome pool (connectedBlocks chain events) chain.utxo
    (turns (restorable (disconnectedBlocks chain events)))

omit [Features] in
/-- If the pool refuses all candidates and the affected residents are candidates, every resident
is back: the first one missing would be admitted. -/
theorem Tracks.all_present (h : Tracks pool blocks front current)
    (hpool : Synchronised pool chain) (hbacked : chain.Backed)
    (hoffered : ∀ tx ∈ pool.transactions, Affected pool blocks tx.txid → tx ∈ candidates)
    (hrefused : ∀ tx ∈ candidates, ∃ e, current.validateCandidate tx chain.utxo = .error e) :
    pool.transactions ⊆ current.transactions := by
  have hall : ∀ n, ∀ entry ∈ pool.ordered, entry.seq = n → entry.tx ∈ current.transactions := by
    intro n
    induction n using Nat.strong_induction_on with
    | _ n ih =>
        rintro entry hentry rfl
        have htx : entry.tx ∈ pool.transactions := List.mem_map_of_mem hentry
        by_contra hnew
        have haffected : Affected pool blocks entry.tx.txid := by
          by_contra hstays
          exact hnew ((h.present _).mpr (.unaffected htx hstays))
        refine validateCandidate_error_iff.mp (hrefused _ (hoffered _ htx haffected))
          ((h.resident_iff hpool hbacked htx hnew).mpr fun parent hparent hspends ↦ ?_)
        obtain ⟨other, hother, rfl⟩ := List.mem_map.mp hparent
        exact (h.present _).mp
          (ih _ (hpool.seq_lt_of_spendsFrom hbacked hentry hother hspends) other hother rfl)
  intro tx htx
  obtain ⟨entry, hentry, rfl⟩ := List.mem_map.mp htx
  exact hall entry.seq entry hentry rfl

/-- Below the limits, applying events to a pool that is synchronised with the chain leaves its
transactions as they are precisely when the replay brings back every affected resident and nothing
else. -/
theorem applyChainEvents_unchanged_iff (hreachable : Chain.Reachable genesis chain)
    (h : Synchronised pool chain) {events : List ChainEvent}
    (hlimits : RestoresBelowLimits (pool.remaining (connectedBlocks chain events) chain.utxo)
      (restorable (disconnectedBlocks chain events)) chain.utxo) :
    (∀ txid, (pool.applyChainEvents events chain).getTransaction txid =
      pool.getTransaction txid) ↔ ReplaysInPlace pool chain events := by
  have hbacked := hreachable.backed
  have hstart : Tracks pool (connectedBlocks chain events) []
      (pool.remaining (connectedBlocks chain events) chain.utxo) :=
    h.tracks_remaining hbacked
  have hturns := restoreCandidates_eq_offers hstart.sound hlimits
  obtain ⟨added, hrestored, hrefused⟩ := restoreCandidates_spec hstart.sound hlimits
  rw [applyChainEvents_eq, h.sound.getTransaction_congr_iff hrestored.sound]
  constructor
  · intro hsame
    refine ⟨fun tx htx haffected ↦ ?_, ?_⟩
    · have hback := (hsame tx).mpr htx
      rw [hrestored.transactions] at hback
      rcases List.mem_append.mp hback with hstays | hadded
      · exact (((h.mem_remaining_iff hbacked).mp hstays).2 haffected).elim
      · exact (hrestored.admissible tx hadded).mem
    · exact hstart.unwelcome h hbacked fun tx htx ↦ (hsame tx).mp (hturns ▸ htx)
  · rintro ⟨hoffered, hunwelcome⟩ tx
    have hdone := hstart.offers h hbacked hunwelcome
    rw [← hturns] at hdone
    exact ⟨fun htx ↦ hdone.subset htx,
      fun htx ↦ hdone.all_present h hbacked hoffered hrefused htx⟩

end Mempool

end Bitrst

namespace Bitrst.Sample

/-- The event of the genesis block, replayed by a cursor at the start of the stream. -/
def genesisReplay : List ChainEvent := [.blockConnected 0 genesisHash 1]

theorem genesisReplay_limits : Mempool.RestoresBelowLimits
    (holding.remaining (Mempool.connectedBlocks start genesisReplay) start.utxo)
      (Mempool.restorable (Mempool.disconnectedBlocks start genesisReplay)) start.utxo := by
  unfold Mempool.RestoresBelowLimits
  decide +kernel

theorem holding_replay_unchanged_iff :
    (∀ txid, (holding.applyChainEvents genesisReplay start).getTransaction txid =
      holding.getTransaction txid) ↔ Mempool.ReplaysInPlace holding start genesisReplay :=
  Mempool.applyChainEvents_unchanged_iff start_reachable holding_synchronised genesisReplay_limits

/-- A replay of the event of the genesis block drops the spend of its coinbase. -/
theorem genesisReplay_drops : ¬ ∀ (chain : Chain) (pool : Mempool) (events : List ChainEvent),
    Chain.Reachable genesis chain → Mempool.Synchronised pool chain →
      events <:+: chain.eventJournal.pushed →
        Mempool.RestoresBelowLimits
            (pool.remaining (Mempool.connectedBlocks chain events) chain.utxo)
            (Mempool.restorable (Mempool.disconnectedBlocks chain events)) chain.utxo →
          ∀ txid, (pool.applyChainEvents events chain).getTransaction txid =
            pool.getTransaction txid := by
  intro h
  have hslice : genesisReplay <:+: start.eventJournal.pushed := by decide +kernel
  have hsame := h start holding genesisReplay start_reachable holding_synchronised hslice
    genesisReplay_limits (spend coinId0 []).txid
  revert hsame
  decide +kernel

end Bitrst.Sample
