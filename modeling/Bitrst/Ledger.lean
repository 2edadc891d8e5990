import Bitrst.ChainUpdates

/-!
# The chain as a stack of blocks

The abstract view of the active chain: a stack of blocks, each kept with the
outputs it was connected on, changed by pushes and pops only.  The chain
follows such a stack; what it announces are the moves of the stack, except
when a reorganisation fails, whose moves are announced and then taken back.
-/

namespace Bitrst

open Support

variable [Crypto] [Features]

def Block.patches (block : Block) : List (Patch OutPoint UtxoEntry) :=
  block.transactions.map Transaction.patch

/-- The active blocks, each with the outputs below it. -/
abbrev Ledger := UndoStack Block OutPoint UtxoEntry

omit [Features] in
/-- Every block of the stack was validated on the outputs recorded below it. -/
def Ledger.Validated (ledger : Ledger) : Prop :=
  ∀ frame ∈ ledger.frames,
    Chain.validateBlockTransactionsForUtxo frame.item frame.before = .ok ()

namespace Ledger.Validated

variable {ledger : Ledger}

omit [Features] in
theorem push (h : ledger.Validated) {block : Block}
    (hvalid : Chain.validateBlockTransactionsForUtxo block ledger.state = .ok ()) :
    Ledger.Validated (ledger.push Block.patches block) := by
  intro frame hframe
  rcases List.mem_append.mp hframe with hold | hlast
  · exact h frame hold
  · obtain rfl := List.mem_singleton.mp hlast
    exact hvalid

omit [Features] in
theorem unwind {keep post : List (Frame Block OutPoint UtxoEntry)} {state : UtxoSet}
    (h : Ledger.Validated ⟨keep ++ post, state⟩) :
    Ledger.Validated (UndoStack.unwind Block.patches keep post state) :=
  fun frame hframe ↦ h frame (List.mem_append_left _ hframe)

end Ledger.Validated

namespace Chain

variable {genesis : Block} {chain chain' : Chain} {ledger : Ledger}

/-- All moves that were announced, in order. -/
def announced (chain : Chain) : List (Move Hash256) :=
  chain.eventJournal.pushed.filterMap ChainEvent.move?

/-- The chain is at the state of the stack, and its index has the undo data of every frame. -/
structure Follows (chain : Chain) (ledger : Ledger) : Prop where
  blocks : chain.blocks = ledger.items
  utxo : chain.utxo = ledger.state
  undo : ∀ frame ∈ ledger.frames,
    chain.undoOf frame.item.hash = frame.undos Block.patches

/-! ## One move -/

omit [Features] in
theorem announced_pushTip (chain : Chain) (block : Block) (height : ℕ) (work : ChainWork) :
    (chain.pushTip block height work).announced =
      chain.announced ++ [.push height block.hash] := by
  rw [announced, pushTip_eventJournal, ChainEventJournal.push_pushed, List.filterMap_append]
  rfl

omit [Features] in
theorem announced_popTip (chain : Chain) (block : Block) :
    (chain.popTip block).announced =
      chain.announced ++ [.pop (chain.blocks.dropLast.length - 1 + 1) block.hash] := by
  change (chain.eventJournal.pushed ++ [_]).filterMap ChainEvent.move? = _
  rw [List.filterMap_append]
  rfl

namespace Follows

omit [Features] in
/-- Only the index entries of the active blocks matter. -/
theorem congr (h : Follows chain ledger) (hblocks : chain'.blocks = chain.blocks)
    (hutxo : chain'.utxo = chain.utxo)
    (hknown : ∀ b ∈ chain.blocks, chain'.known.lookup b.hash = chain.known.lookup b.hash) :
    Follows chain' ledger where
  blocks := hblocks.trans h.blocks
  utxo := hutxo.trans h.utxo
  undo := by
    intro frame hframe
    have hmem : frame.item ∈ chain.blocks := by
      rw [h.blocks]
      exact List.mem_map_of_mem hframe
    rw [undoOf, hknown _ hmem]
    exact h.undo frame hframe

omit [Features] in
theorem pushTip (h : Follows chain ledger) {block : Block}
    (hnew : ∀ b ∈ chain.blocks, b.hash ≠ block.hash) (height : ℕ) (work : ChainWork) :
    Follows (chain.pushTip block height work) (ledger.push Block.patches block) where
  blocks := by rw [pushTip_blocks, UndoStack.items_push, h.blocks]
  utxo := by
    rw [pushTip_utxo, UtxoSet.applyTransactions_eq_applyAll, h.utxo]
    rfl
  undo := by
    intro frame hframe
    rw [undoOf, pushTip_known]
    rcases List.mem_append.mp hframe with hold | hlast
    · have hmem : frame.item ∈ chain.blocks := by
        rw [h.blocks]
        exact List.mem_map_of_mem hold
      rw [if_neg (hnew _ hmem)]
      exact h.undo frame hold
    · obtain rfl := List.mem_singleton.mp hlast
      rw [if_pos rfl, Option.map_some, Option.getD_some, UtxoSet.transactionUndos_eq_undos, h.utxo]
      rfl

omit [Features] in
theorem popTip {frames : List (Frame Block OutPoint UtxoEntry)}
    {frame : Frame Block OutPoint UtxoEntry} {state : UtxoSet}
    (h : Follows chain ⟨frames ++ [frame], state⟩) :
    Follows (chain.popTip frame.item) (UndoStack.popped Block.patches frames frame state) where
  blocks := by
    rw [popTip_blocks, h.blocks, UndoStack.items_mk, List.map_append]
    exact List.dropLast_concat
  utxo := by
    change revertAll (chain.undoOf frame.item.hash) chain.utxo = _
    rw [h.undo frame (by simp), h.utxo]
    rfl
  undo := fun below hbelow ↦ h.undo below (List.mem_append_left _ hbelow)

omit [Features] in
theorem rewind {keep post : List (Frame Block OutPoint UtxoEntry)} {state : UtxoSet}
    (h : Follows chain ⟨keep ++ post, state⟩) :
    Follows (rewind (post.map Frame.item) chain)
      (UndoStack.unwind Block.patches keep post state) := by
  induction post generalizing keep with
  | nil => simpa [UndoStack.unwind] using h
  | cons frame post ih =>
      have hrest : Follows (Chain.rewind (post.map Frame.item) chain)
          (UndoStack.unwind Block.patches (keep ++ [frame]) post state) := ih (by simpa using h)
      have hpop := hrest.popTip
      simpa [UndoStack.unwind, UndoStack.popped, revertAll_append] using hpop

omit [Features] in
theorem announced_rewind {keep post : List Block} (hblocks : chain.blocks = keep ++ post)
    (hkeep : keep ≠ []) :
    (Chain.rewind post chain).announced =
      chain.announced ++ (UndoStack.popMoves keep.length post).map (Move.map Block.hash) := by
  induction post generalizing keep with
  | nil => simp [UndoStack.popMoves]
  | cons block post ih =>
      have hrest : chain.blocks = (keep ++ [block]) ++ post := by simpa using hblocks
      have hlength : keep.length - 1 + 1 = keep.length :=
        Nat.succ_pred_eq_of_pos (List.length_pos_iff.mpr hkeep)
      rw [rewind_cons, announced_popTip, ih hrest (by simp), rewind_blocks hrest,
        List.dropLast_concat, hlength, UndoStack.popMoves, List.map_append, List.append_assoc,
        List.length_append, List.length_singleton]
      rfl

end Follows

/-! ## A fork path -/

/-- Connecting a fork path pushes its blocks, each validated on what is below it. -/
theorem ConnectsPath.follows {path : List Block} {done : Chain}
    (hconnects : ConnectsPath path chain done) (h : Indexed genesis chain)
    (hp : PathReady genesis chain path) (hfollows : Follows chain ledger) :
    Follows done (ledger.pushAll Block.patches path) ∧
      (ledger.Validated → Ledger.Validated (ledger.pushAll Block.patches path)) ∧
        done.announced = chain.announced ++
          (UndoStack.pushMoves chain.blocks.length path).map (Move.map Block.hash) := by
  induction hconnects generalizing ledger with
  | nil => exact ⟨hfollows, id, by simp [UndoStack.pushMoves]⟩
  | @cons current done block rest work valid _ ih =>
      have hnew : ∀ b ∈ current.blocks, b.hash ≠ block.hash :=
        fun b hb ↦ h.ne_of_mem_of_pushable (hp.pushable h) hb
      obtain ⟨hdone, hvalidated, hannounced⟩ := ih (hp.pushForkBlock_indexed h work)
        (hp.tail work) (hfollows.pushTip hnew _ _)
      refine ⟨hdone, fun hledger ↦ hvalidated (hledger.push ?_), ?_⟩
      · rw [← hfollows.utxo]
        exact (validateBlockForParent_ok_iff.mp valid.1).2
      rw [hannounced, pushForkBlock, announced_pushTip, PathReady.height_add_one h,
        pushTip_blocks, List.length_append, List.length_singleton, UndoStack.pushMoves,
        List.map_cons, List.append_assoc]
      rfl

/-! ## Placing a block -/

/-- Every block that is pushed is indexed with the depth it is pushed at. -/
def PushesIndexed (chain : Chain) (moves : List (Move Block)) : Prop :=
  ∀ depth item, Move.push depth item ∈ moves → ∃ entry,
    chain.known.lookup item.hash = some entry ∧ entry.block = item ∧ entry.height = depth

omit [Features] in
theorem PushesIndexed.keep {moves : List (Move Block)} (h : PushesIndexed chain moves)
    (hstable : KeepsIndex chain chain') : PushesIndexed chain' moves := by
  intro depth item hmem
  obtain ⟨entry, hentry, rfl, rfl⟩ := h depth item hmem
  exact hstable _ entry hentry

omit [Features] in
/-- Blocks pushed onto the active list are indexed. -/
theorem Indexed.pushesIndexed (h : Indexed genesis chain) {front path : List Block}
    (hblocks : chain.blocks = front ++ path) :
    PushesIndexed chain (UndoStack.pushMoves front.length path) := by
  intro depth item hmem
  obtain ⟨i, rfl, hi⟩ := UndoStack.mem_pushMoves.mp hmem
  apply h.active_known _ item
  rw [hblocks, List.getElem?_append_right (Nat.le_add_right _ _), Nat.add_sub_cancel_left, hi]

/-- The chain goes on from one stack to another, announcing the moves between
them, validating every block pushed and indexing it at its depth. -/
structure Moved (chain chain' : Chain) (ledger ledger' : Ledger) (moves : List (Move Block)) :
    Prop where
  run : UndoStack.Run Block.patches ledger moves ledger'
  follows : Follows chain' ledger'
  validated : ledger.Validated → ledger'.Validated
  announced : chain'.announced = chain.announced ++ moves.map (Move.map Block.hash)
  stable : KeepsIndex chain chain'
  indexed : PushesIndexed chain' moves

omit [Features] in
/-- The chain changes, but not the active blocks, their undo data and what was announced. -/
theorem Moved.still (hfollows : Follows chain' ledger)
    (hannounced : chain'.announced = chain.announced)
    (hstable : KeepsIndex chain chain') : Moved chain chain' ledger ledger [] where
  run := .nil ledger
  follows := hfollows
  validated := id
  announced := by rw [hannounced, List.map_nil, List.append_nil]
  stable := hstable
  indexed := by simp [PushesIndexed]

omit [Features] in
theorem Moved.refl (h : Follows chain ledger) : Moved chain chain ledger ledger [] :=
  .still h rfl (.refl chain)

omit [Crypto] [Features] in
theorem announced_pushEvent (chain : Chain) {event : ChainEvent} (hmove : event.move? = none) :
    (chain.pushEvent event).announced = chain.announced := by
  change (chain.eventJournal.pushed ++ [event]).filterMap ChainEvent.move? = _
  rw [List.filterMap_append, List.filterMap_cons_none hmove]
  exact List.append_nil _

omit [Features] in
theorem Moved.trans {chain'' : Chain} {ledger' ledger'' : Ledger} {moves moves' : List (Move Block)}
    (h : Moved chain chain' ledger ledger' moves)
    (h' : Moved chain' chain'' ledger' ledger'' moves') :
    Moved chain chain'' ledger ledger'' (moves ++ moves') where
  run := h.run.append h'.run
  follows := h'.follows
  validated := h'.validated ∘ h.validated
  announced := by rw [h'.announced, h.announced, List.map_append, List.append_assoc]
  stable := h.stable.trans h'.stable
  indexed := by
    intro depth item hmem
    rcases List.mem_append.mp hmem with hmem | hmem
    · exact h.indexed.keep h'.stable depth item hmem
    · exact h'.indexed depth item hmem

omit [Features] in
/-- The frames of the stack split where the active list does. -/
theorem Follows.split (h : Follows chain ledger) {keep post : List Block}
    (hblocks : chain.blocks = keep ++ post) :
    ∃ keepFrames postFrames, ledger.frames = keepFrames ++ postFrames ∧
      keepFrames.map Frame.item = keep ∧ postFrames.map Frame.item = post := by
  have hitems : ledger.frames.map Frame.item = keep ++ post := h.blocks.symm.trans hblocks
  obtain ⟨keepFrames, postFrames, hframes, hkeep, hpost⟩ := List.map_eq_append_iff.mp hitems
  exact ⟨keepFrames, postFrames, hframes, hkeep, hpost⟩

/-- A successful reorganisation pops the blocks above the fork and pushes the path. -/
theorem ForkPoint.moved (h : Indexed genesis chain) {block : Block}
    {path keep post : List Block} {fork : Block} {done : Chain}
    {parent : BlockMeta} {work : ChainWork} (hadm : Admitted chain block parent work)
    (hf : ForkPoint chain block path keep fork post)
    (hconnects : ConnectsPath path (Chain.rewind post chain) done)
    {keepFrames postFrames : List (Frame Block OutPoint UtxoEntry)} {state : UtxoSet}
    (hfollows : Follows chain ⟨keepFrames ++ postFrames, state⟩)
    (hkeep : keepFrames.map Frame.item = keep ++ [fork])
    (hpost : postFrames.map Frame.item = post) :
    Moved chain done ⟨keepFrames ++ postFrames, state⟩
      ((UndoStack.unwind Block.patches keepFrames postFrames state).pushAll Block.patches path)
      (UndoStack.popMoves keepFrames.length post ++
        UndoStack.pushMoves keepFrames.length path) := by
  have hrewound : Follows (Chain.rewind post chain)
      (UndoStack.unwind Block.patches keepFrames postFrames state) := by
    rw [← hpost]
    exact hfollows.rewind
  have hlength : keepFrames.length = (keep ++ [fork]).length := by
    rw [← hkeep, List.length_map]
  obtain ⟨hdone, hvalidated, hannounced⟩ := hconnects.follows (hf.rewind_indexed h)
    (hf.pathReady h hadm.unknown) hrewound
  have hpath := (List.append_nil path).symm
  refine ⟨?_, hdone, fun hledger ↦ hvalidated hledger.unwind, ?_,
    (keepsIndex_kept chain).connects h hadm hf hpath hconnects (.refl chain), ?_⟩
  · have hpop := UndoStack.Run.unwind Block.patches keepFrames postFrames state
    rw [hpost] at hpop
    exact hpop.append (UndoStack.Run.pushAll Block.patches _ path)
  · rw [hannounced, Follows.announced_rewind hf.split' (by simp), rewind_blocks hf.split',
      ← hlength, List.map_append, List.append_assoc]
  · intro depth item hmem
    have hblocks : done.blocks = (keep ++ [fork]) ++ path := by
      rw [hconnects.blocks_eq, rewind_blocks hf.split']
    rw [hlength] at hmem
    exact (hf.connects_indexed h hadm.unknown hpath hconnects).pushesIndexed hblocks depth item
      ((List.mem_append.mp hmem).resolve_left UndoStack.push_notMem_popMoves)

omit [Features] in
/-- Storing an orphan does not move the active chain. -/
theorem insertOrphan_moved (hfollows : Follows chain ledger) (order : OrphanOrder)
    (block : Block) : Moved chain (chain.insertOrphan order block) ledger ledger [] := by
  have hinsert : ∀ base : Chain, Follows base ledger → ∀ orphans seq event,
      ChainEvent.move? event = none →
        Moved base { base with
          orphans := orphans
          orphanReceiveSeq := seq
          eventJournal := base.eventJournal.push event } ledger ledger [] := by
    intro base hbase orphans seq event hmove
    exact .still (hbase.congr rfl rfl fun _ _ ↦ rfl) (announced_pushEvent base hmove)
      fun _ entry h ↦ ⟨entry, h, rfl, rfl⟩
  unfold insertOrphan evictOldestOrphan
  split
  · split
    · exact hinsert chain hfollows _ _ (.orphanAdded _ _) rfl
    · rename_i evicted _
      have hevicted := hinsert chain hfollows (chain.orphans.erase evicted.1)
        chain.orphanReceiveSeq (.orphanEvicted evicted.1 .poolFull) rfl
      exact hevicted.trans (hinsert _ hevicted.follows _ _ (.orphanAdded _ _) rfl)
  · exact hinsert chain hfollows _ _ (.orphanAdded _ _) rfl

theorem Admitted.hash_ne (h : Indexed genesis chain) {block : Block} {parent : BlockMeta}
    {work : ChainWork} (hadm : Admitted chain block parent work) {b : Block}
    (hb : b ∈ chain.blocks) : b.hash ≠ block.hash := fun heq ↦
  hadm.notMem_active h ((h.active_iff _).mpr ⟨b, hb, heq⟩)

theorem extendTip_moved (h : Indexed genesis chain) {block : Block} {parent : BlockMeta}
    {work : ChainWork} (hadm : Admitted chain block parent work)
    (htip : block.header.prevBlockhash = chain.tipHash) (hfollows : Follows chain ledger) :
    Moved chain (chain.extendTip block parent work) ledger (ledger.push Block.patches block)
      [.push ledger.frames.length block] where
  run := .push block (.nil _)
  follows := (hfollows.pushTip (fun _ hb ↦ hadm.hash_ne h hb) (parent.height + 1)
    (parent.work.add work)).congr rfl rfl fun _ _ ↦ rfl
  validated := fun hledger ↦
    hledger.push (hfollows.utxo ▸ (validateBlockForParent_ok_iff.mp hadm.valid).2)
  announced := by
    have hlength : ledger.frames.length = parent.height + 1 := by
      rw [hadm.height_eq h htip, hfollows.blocks, UndoStack.items, List.length_map]
    rw [hlength]
    exact announced_pushTip chain block _ (parent.work.add work)
  stable := by
    have hstable := KeepsIndex.pushTip (Indexed.Pushable.mk htip (by simp [hadm.unknown]))
      (parent.work.add work)
    rwa [← hadm.height_eq h htip] at hstable
  indexed := by
    have hblocks : (chain.extendTip block parent work).blocks = chain.blocks ++ [block] := rfl
    have hlength : ledger.frames.length = chain.blocks.length := by
      rw [hfollows.blocks, UndoStack.items, List.length_map]
    rw [hlength]
    exact (extendTip_indexed h hadm htip).pushesIndexed hblocks

theorem storeSide_follows (h : Indexed genesis chain) {block : Block} {parent : BlockMeta}
    {work : ChainWork} (hadm : Admitted chain block parent work)
    (hfollows : Follows chain ledger) : Follows (chain.storeSide block parent work) ledger :=
  hfollows.congr rfl rfl fun b hb ↦ by
    rw [storeSide_known, if_neg (hadm.hash_ne h hb)]

theorem restoreActive_follows (h : Indexed genesis chain) {block next : Block}
    {path keep post front back : List Block} {fork : Block} {reached : Chain}
    (hf : ForkPoint chain block path keep fork post)
    (hunknown : chain.known.lookup block.hash = none) (hparts : path = front ++ next :: back)
    (hconnects : ConnectsPath front (Chain.rewind post chain) reached)
    (hfollows : Follows chain ledger) : Follows (chain.restoreActive reached) ledger := by
  refine hfollows.congr rfl rfl ?_
  intro b hb
  refine (hconnects.known_eq ?_).trans (by rw [rewind_known])
  intro stored hstored heq
  exact hf.notMem_active h hunknown (hparts ▸ List.mem_append_left _ hstored)
    ((h.active_iff _).mpr ⟨b, hb, heq.symm⟩)

/-- A block placed without an error moves the stack; a failed reorganisation
leaves it where it was. -/
theorem Placement.moved (h : Indexed genesis chain) {block : Block} {parent : BlockMeta}
    {work : ChainWork} (hadm : Admitted chain block parent work)
    {outcome : ChainResult ConnectResult × Chain}
    (hplace : Placement chain block parent work outcome) (hfollows : Follows chain ledger) :
    (∃ moves ledger', Moved chain outcome.2 ledger ledger' moves) ∨
      (∃ e, outcome.1 = .error e) ∧ Follows outcome.2 ledger := by
  cases hplace with
  | extended tip => exact Or.inl ⟨_, _, extendTip_moved h hadm tip hfollows⟩
  | side _ _ =>
      exact Or.inl ⟨[], ledger, .still (storeSide_follows h hadm hfollows) rfl (.storeSide hadm)⟩
  | reorganized _ _ forks connects =>
      obtain ⟨keepFrames, postFrames, hframes, hkeep, hpost⟩ := hfollows.split forks.split'
      obtain ⟨frames, state⟩ := ledger
      obtain rfl : frames = keepFrames ++ postFrames := hframes
      have hmoved := forks.moved h hadm connects hfollows hkeep hpost
      exact Or.inl ⟨_, _, hmoved.run, hmoved.follows.congr rfl rfl fun _ _ ↦ rfl,
        hmoved.validated, (announced_pushEvent _ rfl).trans hmoved.announced, hmoved.stable,
        hmoved.indexed⟩
  | failed e _ _ _ forks _ parts connects =>
      exact Or.inr ⟨⟨e, rfl⟩, (restoreActive_follows h forks hadm.unknown parts connects
        hfollows).congr rfl rfl fun _ _ ↦ rfl⟩

/-! ## Calls and runs -/

/-- An activation that does not fail moves the stack. -/
theorem connectAlone_moved (h : Indexed genesis chain) (order : OrphanOrder) (block : Block)
    (hfollows : Follows chain ledger) :
    (∃ moves ledger', Moved chain (connectAlone order block chain).2 ledger ledger' moves) ∨
      (∃ e, (connectAlone order block chain).1 = .error e) ∧
        Follows (connectAlone order block chain).2 ledger := by
  rw [connectAlone_eq]
  cases hadm : chain.admission block with
  | error e => exact Or.inl ⟨[], ledger, .refl hfollows⟩
  | ok found =>
      cases found with
      | none => exact Or.inl ⟨[], ledger, insertOrphan_moved hfollows order block⟩
      | some pair =>
          have hadmitted := admission_some_iff.mp hadm
          exact (place_placement h hadmitted).moved h hadmitted hfollows

/-- A call that succeeds moves the stack. -/
theorem connectBlock_moved (h : Coherent genesis chain) (order : OrphanOrder) (block : Block)
    {result : ConnectResult} (hok : (connectBlock order block chain).1 = .ok result)
    (hfollows : Follows chain ledger) :
    ∃ moves ledger', Moved chain (connectBlock order block chain).2 ledger ledger' moves := by
  refine (connectBlock_induction order block chain (fun c ↦ Coherent genesis c ∧
    ∃ moves ledger', Moved chain c ledger ledger' moves) ?_ ?_ ⟨h, [], ledger, .refl hfollows⟩).2
  · rintro c _ ⟨hc, moves, ledger', hmoved⟩ hfewer
    refine ⟨hfewer.coherent hc, ?_⟩
    obtain ⟨orphans, rfl, -⟩ := hfewer
    exact ⟨moves, ledger', hmoved.run, hmoved.follows.congr rfl rfl fun _ _ ↦ rfl,
      hmoved.validated, hmoved.announced, hmoved.stable, hmoved.indexed⟩
  · rintro c b ⟨hc, moves, ledger', hmoved⟩ hmem
    refine ⟨connectAlone_coherent hc order b, ?_⟩
    rcases connectAlone_moved hc.indexed order b hmoved.follows with
      ⟨moves', ledger'', hnext⟩ | ⟨⟨e, herror⟩, -⟩
    · exact ⟨moves ++ moves', ledger'', hmoved.trans hnext⟩
    · obtain ⟨value, hvalue⟩ := connectBlock_ok order block chain hok (c, b) hmem
      rw [herror] at hvalue
      cases hvalue

/-- The stack of a genesis chain. -/
def genesisLedger (genesis : Block) : Ledger := UndoStack.push Block.patches ⟨[], ∅⟩ genesis

theorem withJournalCapacities_follows {networkTime : UInt32} {capacity : ℕ}
    (h : withJournalCapacities genesis networkTime capacity = .ok chain) :
    Follows chain (genesisLedger genesis) ∧ chain.announced = [.push 0 genesis.hash] := by
  obtain ⟨work, -, rfl⟩ := withJournalCapacities_spec h
  have hblank : Follows (blank networkTime capacity) ⟨[], ∅⟩ := by
    refine ⟨rfl, rfl, ?_⟩
    intro frame hframe
    cases hframe
  exact ⟨(hblank.pushTip (by simp) 0 work).congr rfl rfl fun _ _ ↦ rfl, rfl⟩

end Chain

end Bitrst
