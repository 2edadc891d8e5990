import Bitrst.ChainReorg

/-!
# Runs of a chain

A run starts at a genesis block and applies calls that return.  One call of
`connect_block` activates `connect_block_inner` for the delivered block and
then for every orphan it promotes; `activations` lists these with the states
they start from, so that a condition can be put on each of them.
-/

namespace Bitrst

variable [Crypto] [Features]

/-- A call that came back with a value or an error. -/
def Returned {α : Type} (result : ChainResult α) : Prop :=
  result ≠ .error .panic ∧ result ≠ .error .hang

namespace Chain

/-- The activations of the promotion loop, following `processOrphansLoop`. -/
def promotionActivations (order : OrphanOrder) : ℕ → List Block → Chain → List (Chain × Block)
  | 0, _, _ => []
  | _ + 1, [], _ => []
  | n + 1, block :: queue, chain =>
      (chain, block) ::
        match connectAlone order block chain with
        | (.error _, _) => []
        | (.ok _, placed) =>
            promotionActivations order n (placed.enqueueReadyOrphans order queue).2
              (placed.enqueueReadyOrphans order queue).1

/-- The blocks that one call of `connect_block` connects or tries to connect,
each with the state it meets. -/
def activations (order : OrphanOrder) (block : Block) (chain : Chain) : List (Chain × Block) :=
  (chain, block) ::
    match connectAlone order block chain with
    | (.error _, _) => []
    | (.ok result, placed) =>
        if result.becameTip then
          promotionActivations order (placed.orphans.entries.length + 1)
            (placed.enqueueReadyOrphans order []).2 (placed.enqueueReadyOrphans order []).1
        else []

/-- The states of the runs from `genesis` in which every activation meets `cond`. -/
inductive ReachableWith (cond : Chain → Block → Prop) (genesis : Block) : Chain → Prop
  | start {networkTime : UInt32} {capacity : ℕ} {chain : Chain}
      (created : withJournalCapacities genesis networkTime capacity = .ok chain) :
      ReachableWith cond genesis chain
  | connect {chain : Chain} (order : OrphanOrder) (block : Block)
      (run : ReachableWith cond genesis chain)
      (returned : Returned (connectBlock order block chain).1)
      (meets : ∀ a ∈ activations order block chain, cond a.1 a.2) :
      ReachableWith cond genesis (connectBlock order block chain).2
  | setTime {chain : Chain} (networkTime : UInt32) (run : ReachableWith cond genesis chain) :
      ReachableWith cond genesis (setNetworkTime networkTime chain).2
  | takeEvents {chain : Chain} (run : ReachableWith cond genesis chain) :
      ReachableWith cond genesis (Chain.takeEvents chain).2

/-- Every state that some run reaches. -/
def Reachable : Block → Chain → Prop := ReachableWith fun _ _ ↦ True

theorem ReachableWith.reachable {cond : Chain → Block → Prop} {genesis : Block} {chain : Chain}
    (h : ReachableWith cond genesis chain) : Reachable genesis chain := by
  induction h with
  | start created => exact .start created
  | connect order block _ returned _ ih => exact .connect order block ih returned (by simp)
  | setTime networkTime _ ih => exact .setTime networkTime ih
  | takeEvents _ ih => exact .takeEvents ih

/-! ## Taking orphans out of the pool -/

/-- Orphans were only taken out. -/
def FewerOrphans (chain chain' : Chain) : Prop :=
  ∃ orphans, chain' = { chain with orphans := orphans } ∧
    ∀ hash entry, AList.lookup hash orphans = some entry →
      AList.lookup hash chain.orphans = some entry

omit [Crypto] [Features] in
theorem dequeueOrphan_fewer (state : OrphanMap × List Block) (hash key : Hash256)
    (entry : OrphanEntry) (h : (dequeueOrphan state hash).1.lookup key = some entry) :
    state.1.lookup key = some entry := by
  unfold dequeueOrphan at h
  split at h
  · by_cases heq : key = hash
    · rw [heq, AList.lookup_erase] at h
      cases h
    · rwa [AList.lookup_erase_ne heq] at h
  · exact h

omit [Crypto] [Features] in
theorem foldl_dequeueOrphan_fewer (ready : List Hash256) (state : OrphanMap × List Block)
    (key : Hash256) (entry : OrphanEntry)
    (h : (ready.foldl dequeueOrphan state).1.lookup key = some entry) :
    state.1.lookup key = some entry := by
  induction ready generalizing state with
  | nil => exact h
  | cons hash rest ih => exact dequeueOrphan_fewer state hash key entry (ih _ h)

omit [Crypto] [Features] in
theorem enqueueReadyOrphans_fewer (order : OrphanOrder) (chain : Chain) (queue : List Block) :
    FewerOrphans chain (chain.enqueueReadyOrphans order queue).1 :=
  ⟨_, rfl, foldl_dequeueOrphan_fewer _ _⟩

/-! ## Induction over the activations of a call -/

theorem processOrphansLoop_induction (order : OrphanOrder) (P : Chain → Prop)
    (hdrop : ∀ c c', P c → FewerOrphans c c' → P c') :
    ∀ (fuel : ℕ) (queue : List Block) (chain : Chain),
      (∀ c b, P c → (c, b) ∈ promotionActivations order fuel queue chain →
        P (connectAlone order b c).2) →
      P chain → P (processOrphansLoop order fuel queue chain).2 := by
  intro fuel
  induction fuel with
  | zero => exact fun _ _ _ h ↦ h
  | succ fuel ih =>
      intro queue chain hstep h
      cases queue with
      | nil => exact h
      | cons block queue =>
          have hblock := hstep chain block h (by simp [promotionActivations])
          unfold processOrphansLoop
          cases hconnect : connectAlone order block chain with
          | mk result placed =>
            rw [hconnect] at hblock
            cases result with
            | error e => exact hblock
            | ok value =>
                refine ih _ _ ?_ (hdrop _ _ hblock (enqueueReadyOrphans_fewer order placed queue))
                intro c b hc hmem
                apply hstep c b hc
                rw [promotionActivations, hconnect]
                exact List.mem_cons_of_mem _ hmem

/-- A property kept by every activation and by taking orphans out of the pool
is kept by the call. -/
theorem connectBlock_induction (order : OrphanOrder) (block : Block) (chain : Chain)
    (P : Chain → Prop) (hdrop : ∀ c c', P c → FewerOrphans c c' → P c')
    (hstep : ∀ c b, P c → (c, b) ∈ activations order block chain →
      P (connectAlone order b c).2)
    (h : P chain) : P (connectBlock order block chain).2 := by
  have hblock := hstep chain block h List.mem_cons_self
  rw [connectBlock_eq]
  cases hconnect : connectAlone order block chain with
  | mk result placed =>
    rw [hconnect] at hblock
    cases result with
    | error e => exact hblock
    | ok value =>
        simp only
        split
        · rename_i htip
          have hloop := processOrphansLoop_induction order P hdrop
            (placed.orphans.entries.length + 1) (placed.enqueueReadyOrphans order []).2
            (placed.enqueueReadyOrphans order []).1 (by
              intro c b hc hmem
              apply hstep c b hc
              rw [activations, hconnect]
              simp only [htip, if_true]
              exact List.mem_cons_of_mem _ hmem)
            (hdrop _ _ hblock (enqueueReadyOrphans_fewer order placed []))
          change P (processOrphans order placed).2 at hloop
          cases hprocess : processOrphans order placed with
          | mk outcome done =>
            rw [hprocess] at hloop
            cases outcome <;> exact hloop
        · exact hblock

/-- What holds before a promotion loop and is kept by its activations holds at each of them. -/
theorem promotionActivations_invariant (order : OrphanOrder) (P : Chain → Prop)
    (hdrop : ∀ c c', P c → FewerOrphans c c' → P c') :
    ∀ (fuel : ℕ) (queue : List Block) (chain : Chain),
      (∀ c b, P c → (c, b) ∈ promotionActivations order fuel queue chain →
        P (connectAlone order b c).2) →
      P chain → ∀ a ∈ promotionActivations order fuel queue chain, P a.1 := by
  intro fuel
  induction fuel with
  | zero => simp [promotionActivations]
  | succ fuel ih =>
      intro queue chain hstep h
      cases queue with
      | nil => simp [promotionActivations]
      | cons block queue =>
          have hblock := hstep chain block h (by simp [promotionActivations])
          unfold promotionActivations at hstep ⊢
          intro a ha
          rcases List.mem_cons.mp ha with rfl | ha
          · exact h
          · cases hconnect : connectAlone order block chain with
            | mk result placed =>
              rw [hconnect] at hblock hstep ha
              cases result with
              | error e => simp at ha
              | ok value =>
                  refine ih _ _ ?_ (hdrop _ _ hblock
                    (enqueueReadyOrphans_fewer order placed queue)) a ha
                  exact fun c b hc hmem ↦ hstep c b hc (List.mem_cons_of_mem _ hmem)

/-- What holds before a call and is kept by its activations holds at each of them. -/
theorem activations_invariant (order : OrphanOrder) (block : Block) (chain : Chain)
    (P : Chain → Prop) (hdrop : ∀ c c', P c → FewerOrphans c c' → P c')
    (hstep : ∀ c b, P c → (c, b) ∈ activations order block chain →
      P (connectAlone order b c).2)
    (h : P chain) : ∀ a ∈ activations order block chain, P a.1 := by
  have hblock := hstep chain block h List.mem_cons_self
  unfold activations at hstep ⊢
  intro a ha
  rcases List.mem_cons.mp ha with rfl | ha
  · exact h
  · cases hconnect : connectAlone order block chain with
    | mk result placed =>
      rw [hconnect] at hblock hstep ha
      cases result with
      | error e => simp at ha
      | ok value =>
          simp only at ha hstep
          split at ha
          · rename_i htip
            refine promotionActivations_invariant order P hdrop _ _ _ ?_
              (hdrop _ _ hblock (enqueueReadyOrphans_fewer order placed [])) a ha
            intro c b hc hmem
            apply hstep c b hc
            rw [if_pos htip]
            exact List.mem_cons_of_mem _ hmem
          · simp at ha

theorem processOrphansLoop_ok (order : OrphanOrder) :
    ∀ (fuel : ℕ) (queue : List Block) (chain : Chain),
      (processOrphansLoop order fuel queue chain).1 = .ok () →
        ∀ a ∈ promotionActivations order fuel queue chain,
          ∃ result, (connectAlone order a.2 a.1).1 = .ok result := by
  intro fuel
  induction fuel with
  | zero => simp [promotionActivations]
  | succ fuel ih =>
      intro queue chain hok
      cases queue with
      | nil => simp [promotionActivations]
      | cons block queue =>
          unfold processOrphansLoop at hok
          unfold promotionActivations
          intro a ha
          cases hconnect : connectAlone order block chain with
          | mk result placed =>
            rw [hconnect] at hok ha
            cases result with
            | error stop => cases hok
            | ok value =>
                rcases List.mem_cons.mp ha with rfl | ha
                · exact ⟨value, by rw [hconnect]⟩
                · exact ih _ _ hok a ha

/-- A call that succeeds activates nothing that fails. -/
theorem connectBlock_ok (order : OrphanOrder) (block : Block) (chain : Chain)
    {result : ConnectResult} (hok : (connectBlock order block chain).1 = .ok result) :
    ∀ a ∈ activations order block chain,
      ∃ result, (connectAlone order a.2 a.1).1 = .ok result := by
  rw [connectBlock_eq] at hok
  unfold activations
  intro a ha
  cases hconnect : connectAlone order block chain with
  | mk outcome placed =>
    rw [hconnect] at hok ha
    cases outcome with
    | error stop => cases hok
    | ok value =>
        rcases List.mem_cons.mp ha with rfl | ha
        · exact ⟨value, by rw [hconnect]⟩
        · simp only at hok ha
          split at ha
          · rename_i htip
            rw [if_pos htip] at hok
            refine processOrphansLoop_ok order _ _ _ ?_ a ha
            change (processOrphans order placed).1 = .ok ()
            cases hprocess : processOrphans order placed with
            | mk promoted done =>
              rw [hprocess] at hok
              cases promoted with
              | error stop => cases hok
              | ok _ => rfl
          · cases ha

/-- An invariant of runs: it holds at the start, every activation that meets
the condition keeps it, and it does not depend on the network time, on the
wallet mark of the journal or on orphans leaving the pool. -/
theorem ReachableWith.invariant {cond : Chain → Block → Prop} {genesis : Block}
    (P : Chain → Prop)
    (hstart : ∀ networkTime capacity chain,
      withJournalCapacities genesis networkTime capacity = .ok chain → P chain)
    (hdrop : ∀ c c', P c → FewerOrphans c c' → P c')
    (hstep : ∀ order c b, P c → cond c b → P (connectAlone order b c).2)
    (htime : ∀ c networkTime, P c → P { c with networkTime := networkTime })
    (htake : ∀ c mark, P c →
      P { c with eventJournal := { c.eventJournal with walletHighWater := mark } })
    {chain : Chain} (h : ReachableWith cond genesis chain) : P chain := by
  induction h with
  | start created => exact hstart _ _ _ created
  | connect order block _ _ meets ih =>
      exact connectBlock_induction order block _ P hdrop
        (fun c b hc hmem ↦ hstep order c b hc (meets _ hmem)) ih
  | setTime networkTime _ ih =>
      unfold setNetworkTime
      split
      · exact ih
      · exact htime _ _ ih
  | @takeEvents chain _ ih =>
      have hjournal : ∃ mark, (Chain.takeEvents chain).2 = { chain with
          eventJournal := { chain.eventJournal with walletHighWater := mark } } := by
        simp only [Chain.takeEvents, ChainEventJournal.takeEvents]
        split
        · exact ⟨_, rfl⟩
        · split <;> exact ⟨_, rfl⟩
      obtain ⟨mark, hmark⟩ := hjournal
      rw [hmark]
      exact htake _ _ ih

end Chain

end Bitrst
