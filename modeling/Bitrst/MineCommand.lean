import Bitrst.EventDelivery
import Bitrst.FileStore
import Bitrst.LinearRun
import Bitrst.Mining

/-!
# Mining from the command line

`cli/chain.rs` and `cli/mine.rs`: a command mines blocks on a chain of its own,
which no other thread sees.  Lines are the output without the line ends, and a
write that fails, which ends a command with an error, is left out.  The clock is
the number of seconds since the epoch, or nothing if it stands before.
-/

namespace Bitrst

open Support

def genesisTime : UInt32 := 1231006505

def defaultBits : UInt32 := 0x1f00ffff

def defaultCoinbaseValue : UInt64 := 5000000000

def ephemeralNotice : String := "(ephemeral in-memory chain — changes are not persisted to disk)"

/-- The errors of commands that make chains.  `ChainError` has the errors of a call and those of
an event cursor. -/
inductive CliError
  | invalidNetworkTime
  | systemTimeUnavailable
  | chain (stop : Stop)
  | eventCursor (e : ChainEventCursorError)
  | mine (e : MineError)
  | invalidInput (text : String)
  deriving DecidableEq

/-- `hex::encode`. -/
def hexString (bytes : Bytes) : String :=
  String.ofList ((FileBlockStore.encodeHex bytes).map fun digit ↦ Char.ofNat digit.toNat)

/-- The hash as `{:?}` shows it. -/
def debugHash (hash : Hash256) : String :=
  "[" ++ ", ".intercalate (hash.toList.map fun byte ↦ toString byte.toNat) ++ "]"

def ConnectResult.debug : ConnectResult → String
  | .connected height hash =>
      "Connected \x7b height: " ++ toString height ++ ", hash: " ++ debugHash hash ++ " \x7d"
  | .orphaned hash => "Orphaned \x7b hash: " ++ debugHash hash ++ " \x7d"
  | .reorganized oldTip newTip =>
      "Reorganized \x7b old_tip: " ++ debugHash oldTip ++ ", new_tip: " ++ debugHash newTip ++
        " \x7d"
  | .sideChain height hash =>
      "SideChain \x7b height: " ++ toString height ++ ", hash: " ++ debugHash hash ++ " \x7d"

def currentUnixTime (clock : Option ℕ) : Except CliError UInt32 :=
  match clock with
  | none => .error .systemTimeUnavailable
  | some seconds => .ok (UInt32.ofNat (min seconds 0xffffffff))

def resolveNetworkTime (explicit : Option UInt32) (clock : Option ℕ) : Except CliError UInt32 :=
  match explicit with
  | some value => if value = 0 then .error .invalidNetworkTime else .ok value
  | none => currentUnixTime clock

section

variable [Crypto]

/-- `Block::coinbase`: the Merkle root of the header is set when there is one. -/
def Block.coinbase (header : BlockHeader) (height : UInt32) (reward : UInt64) : Block :=
  let transactions := [Transaction.coinbase height reward]
  match Block.merkleRootFromTransactions transactions with
  | some root => ⟨{ header with merkleRoot := root }, transactions⟩
  | none => ⟨header, transactions⟩

def invalidBitsText (bits : UInt32) : String :=
  "invalid compact bits 0x" ++ hexString (u32ToLeBytes bits).reverse

def mineHeader (header : BlockHeader) (bits : UInt32) : Except CliError Unit × BlockHeader :=
  match Target.fromBits bits with
  | none => (.error (.invalidInput (invalidBitsText bits)), header)
  | some target =>
      match mine header target with
      | (.error e, header) => (.error (.mine e), header)
      | (.ok _, header) => (.ok (), header)

/-- `mine_header` for tests, with fewer attempts. -/
def mineHeaderBounded (header : BlockHeader) (bits : UInt32) (maxAttempts : ℕ) :
    Except CliError Unit × BlockHeader :=
  match Target.fromBits bits with
  | none => (.error (.invalidInput (invalidBitsText bits)), header)
  | some target =>
      match searchNonce target (min maxAttempts maxNonceAttempts) header with
      | (some _, header) => (.ok (), header)
      | (none, header) => (.error (.mine .attemptsExceeded), header)

/-- Enough attempts make no difference. -/
theorem mineHeaderBounded_eq (header : BlockHeader) (bits : UInt32) {maxAttempts : ℕ}
    (h : maxNonceAttempts ≤ maxAttempts) :
    mineHeaderBounded header bits maxAttempts = mineHeader header bits := by
  unfold mineHeaderBounded mineHeader mine
  rw [min_eq_right h]
  cases Target.fromBits bits with
  | none => rfl
  | some target =>
      dsimp only
      rcases searchNonce target maxNonceAttempts header with ⟨_ | hash, after⟩ <;> rfl

def minedGenesis (bits : UInt32) : Except CliError Block :=
  let block := Block.coinbase ⟨1, zeroHash, zeroHash, genesisTime, bits, 0⟩ 0 defaultCoinbaseValue
  match mineHeader block.header bits with
  | (.error e, _) => .error e
  | (.ok (), header) => .ok { block with header := header }

/-- The event of the genesis block is taken from the journal. -/
def ephemeralChain [Features] (networkTime bits : UInt32) : Except CliError Chain :=
  match minedGenesis bits with
  | .error e => .error e
  | .ok genesis =>
      match Chain.newGenesis genesis networkTime with
      | .error stop => .error (.chain stop)
      | .ok chain =>
          match chain.takeEvents with
          | (.error e, _) => .error (.eventCursor e)
          | (.ok _, chain) => .ok chain

structure MineArgs where
  count : UInt32 := 1
  value : UInt64 := defaultCoinbaseValue
  time : Option UInt32 := none
  bits : UInt32 := defaultBits
  networkTime : Option UInt32 := none

structure MinedBlockInfo where
  height : ℕ
  hash : Hash256
  nonce : UInt32
  deriving DecidableEq

namespace MineCommand

def buildCoinbaseBlock (chain : Chain) (height time : UInt32) (value : UInt64) (bits : UInt32) :
    Except CliError Block :=
  let block := Block.coinbase ⟨1, chain.tipHash, zeroHash, time, bits, 0⟩ height value
  match Block.merkleRootFromTransactions block.transactions with
  | none => .error (.invalidInput "unable to compute merkle root for coinbase block")
  | some root => .ok { block with header := { block.header with merkleRoot := root } }

def line (height : ℕ) (hash : Hash256) (nonce : UInt32) : String :=
  "mined block height=" ++ toString height ++ " hash=" ++ hexString hash.toList ++ " nonce=" ++
    toString nonce.toNat

/-- Later blocks come 600 seconds after each other. -/
def blockTime (baseTime index : UInt32) : UInt32 :=
  saturatingAddU32 baseTime (saturatingMulU32 index 600)

/-- One turn of the loop. -/
def mineBlock [Features] (order : OrphanOrder) (args : MineArgs) (baseTime index : UInt32)
    (chain : Chain) : Except CliError (MinedBlockInfo × String × Chain) :=
  let height := index + 1
  match buildCoinbaseBlock chain height (blockTime baseTime index) args.value args.bits with
  | .error e => .error e
  | .ok block =>
      match mineHeader block.header args.bits with
      | (.error e, _) => .error e
      | (.ok (), header) =>
          let block := { block with header := header }
          match chain.connectBlock order block with
          | (.error stop, _) => .error (.chain stop)
          | (.ok (.connected connected connectedHash), chain) =>
              match chain.takeEvents with
              | (.error e, _) => .error (.eventCursor e)
              | (.ok _, chain) =>
                  .ok (⟨connected, connectedHash, header.nonce⟩,
                    line connected block.hash header.nonce, chain)
          | (.ok other, _) =>
              .error (.invalidInput ("unexpected connect result while mining height " ++
                toString height.toNat ++ ": " ++ other.debug))

def mineLoop [Features] (order : OrphanOrder) (args : MineArgs) (baseTime : UInt32) :
    List UInt32 → Chain → Except CliError (List MinedBlockInfo) × List String
  | [], _ => (.ok [], [])
  | index :: rest, chain =>
      match mineBlock order args baseTime index chain with
      | .error e => (.error e, [])
      | .ok (info, line, chain) =>
          match mineLoop order args baseTime rest chain with
          | (.error e, lines) => (.error e, line :: lines)
          | (.ok mined, lines) => (.ok (info :: mined), line :: lines)

def indices (start count : ℕ) : List UInt32 := (List.range' start count).map UInt32.ofNat

/-- The result with the lines that were written before. -/
def run [Features] (order : OrphanOrder) (args : MineArgs) (clock : Option ℕ) :
    Except CliError (List MinedBlockInfo) × List String :=
  if args.count = 0 then (.error (.invalidInput "count must be at least 1"), [])
  else
    match resolveNetworkTime args.networkTime clock with
    | .error e => (.error e, [])
    | .ok networkTime =>
        match ephemeralChain networkTime args.bits with
        | .error e => (.error e, [])
        | .ok chain =>
            let baseTime := args.time.getD (max networkTime genesisTime)
            match mineLoop order args baseTime (indices 0 args.count.toNat) chain with
            | (.error e, lines) => (.error e, lines)
            | (.ok mined, lines) => (.ok mined, lines ++ [ephemeralNotice])

end MineCommand

omit [Crypto] in
theorem toNat_saturatingAddU32 (x y : UInt32) :
    (saturatingAddU32 x y).toNat = min (x.toNat + y.toNat) (2 ^ 32 - 1) := by
  unfold saturatingAddU32
  split
  · rename_i h
    rw [UInt32.toNat_add, Nat.mod_eq_of_lt h]
    omega
  · rename_i h
    have hmax : (0xffffffff : UInt32).toNat = 2 ^ 32 - 1 := rfl
    rw [hmax]
    omega

/-! ## Blocks on the tip -/

section

variable [Features]

namespace Chain

variable {genesis : Block} {chain : Chain} {block : Block}

omit [Crypto] in
/-- The bits of the next block are known, or an error says why not. -/
theorem expectedBits_next {bits : UInt32} {stop : Stop}
    (h : chain.expectedBits chain.blocks.length bits = .error stop) : ∃ e, stop = .error e := by
  unfold expectedBits at h
  split at h
  · cases h
  · rename_i hpos
    split at h
    · split at h
      · exact ⟨_, (Except.error.inj h).symm⟩
      · cases h
    · simp only at h
      split at h
      · cases h
      · rename_i hstart
        have hlast : chain.blocks.length - 1 < chain.blocks.length :=
          Nat.sub_lt (Nat.pos_of_ne_zero hpos) Nat.one_pos
        rw [List.getElem?_eq_getElem (Nat.not_le.mp hstart), List.getElem?_eq_getElem hlast] at h
        simp only at h
        split at h
        · exact ⟨_, (Except.error.inj h).symm⟩
        · cases h

theorem validateBlockForParent_next {parent : Option Block} {parentHash : Option Hash256}
    {stop : Stop} (h : chain.validateBlockForParent block parent parentHash chain.blocks.length =
      .error stop) : ∃ e, stop = .error e := by
  rcases validateBlockForParent_error_cases h with hfault | ⟨found, -, rfl⟩
  · cases hfault with
    | demanded hbits => exact expectedBits_next hbits
    | _ => exact ⟨_, rfl⟩
  · exact ⟨_, rfl⟩

/-- A block on the tip of a chain without orphans is connected there, or there is an error. -/
theorem connectBlock_on_tip (h : Indexed genesis chain) (hnone : chain.orphans = ∅)
    (order : OrphanOrder) (hprev : block.header.prevBlockhash = chain.tipHash) :
    (∃ e, (chain.connectBlock order block).1 = .error (.error e)) ∨
      ∃ parent work, Admitted chain block parent work ∧ chain.connectBlock order block =
        (.ok (.connected chain.blocks.length block.hash), chain.extendTip block parent work) := by
  obtain ⟨keep, tip, entry, hblocks, htip, hentry, -, hheight⟩ := h.exists_tip
  have hlength : entry.height + 1 = chain.blocks.length := by
    rw [hblocks, hheight, List.length_append, List.length_singleton]
  have hparent : chain.known.lookup block.header.prevBlockhash = some entry := by
    rw [hprev, htip, hentry]
  cases hadmission : chain.admission block with
  | error stop =>
      have herror : (chain.connectBlock order block).1 = .error stop := by
        rw [connectBlock_eq, connectAlone_eq, hadmission]
      obtain ⟨e, rfl⟩ : ∃ e, stop = .error e := by
        unfold admission at hadmission
        split at hadmission
        · exact ⟨_, (Except.error.inj hadmission).symm⟩
        · split at hadmission
          · exact ⟨_, (Except.error.inj hadmission).symm⟩
          · simp only [hparent] at hadmission
            split at hadmission
            · rename_i found hvalid
              obtain rfl := Except.error.inj hadmission
              rw [hlength] at hvalid
              exact validateBlockForParent_next hvalid
            · split at hadmission
              · exact ⟨_, (Except.error.inj hadmission).symm⟩
              · cases hadmission
      exact .inl ⟨e, herror⟩
  | ok admitted =>
      cases admitted with
      | none =>
          have hunknown := (admission_none_iff.mp hadmission).2.2.2
          rw [hparent] at hunknown
          cases hunknown
      | some found =>
          obtain ⟨parent, work⟩ := found
          have hadm := admission_some_iff.mp hadmission
          obtain rfl := Option.some.inj (hadm.parent_known.symm.trans hparent)
          refine .inr ⟨parent, work, hadm, ?_⟩
          rw [connectBlock_eq_place h hnone order hadm, place_extended hprev, hlength]

omit [Crypto] [Features] in
/-- One event after the last time that they were taken, the events are all there. -/
theorem takeEvents_after_push {journal : ChainEventJournal} (h : journal.Aligned)
    (htaken : journal.walletHighWater = journal.pushed.length) (event : ChainEvent) :
    ∃ events, (journal.push event).takeEvents = (.ok events,
      { journal.push event with walletHighWater := (journal.push event).pushed.length }) := by
  have hlength : (journal.push event).pushed.length = journal.pushed.length + 1 := by
    rw [ChainEventJournal.push_pushed, List.length_append, List.length_singleton]
  have hentries : 0 < (journal.push event).entries.length := by
    rw [ChainEventJournal.push, List.length_append]
    exact Nat.succ_pos _
  have hserved : ¬ (journal.push event).walletHighWater < (journal.push event).evicted := by
    rw [ChainEventJournal.push_walletHighWater, htaken, ChainEventJournal.evicted, hlength]
    omega
  refine ⟨_, ((h.push event).takeEvents_cases ?_).trans (if_neg hserved)⟩
  rw [ChainEventJournal.push_walletHighWater, htaken, hlength]
  exact Nat.le_succ _

end Chain

namespace MineCommand

/-- The errors that a command can end with. -/
inductive Fault (args : MineArgs) : CliError → Prop
  | invalidNetworkTime : args.networkTime = some 0 → Fault args .invalidNetworkTime
  | systemTimeUnavailable : args.networkTime = none → Fault args .systemTimeUnavailable
  | noCount : args.count = 0 → Fault args (.invalidInput "count must be at least 1")
  | invalidBits : Target.fromBits args.bits = none →
      Fault args (.invalidInput (invalidBitsText args.bits))
  | attemptsExceeded : Fault args (.mine .attemptsExceeded)
  | chain (e : ChainError) : Fault args (.chain (.error e))

/-- A block that the command mines behind so many others. -/
structure MinedAs (args : MineArgs) (baseTime networkTime : UInt32) (index : ℕ) (block : Block) :
    Prop where
  transactions : block.transactions = [.coinbase (UInt32.ofNat (index + 1)) args.value]
  bits : block.header.bits = args.bits
  pow : Chain.meetsTarget block = true
  time : block.header.time = blockTime baseTime (UInt32.ofNat index)
  inTime : block.header.time ≤ saturatingAddU32 networkTime maxFutureBlockTime

/-- The chain of a command with the blocks that it has mined so far. -/
structure Grown (args : MineArgs) (baseTime networkTime : UInt32) (genesis : Block)
    (blocks : List Block) (chain : Chain) : Prop where
  reachable : Chain.Reachable genesis chain
  orphans : chain.orphans = ∅
  active : chain.blocks = genesis :: blocks
  clock : chain.networkTime = networkTime
  taken : chain.eventJournal.walletHighWater = chain.eventJournal.pushed.length
  mined : ∀ i block, blocks[i]? = some block → MinedAs args baseTime networkTime i block

variable {args : MineArgs} {baseTime networkTime : UInt32} {genesis : Block} {blocks : List Block}
  {chain : Chain}

omit [Features] in
theorem buildCoinbaseBlock_eq (chain : Chain) (height time : UInt32) (value : UInt64)
    (bits : UInt32) :
    buildCoinbaseBlock chain height time value bits =
      .ok ⟨⟨1, chain.tipHash, (Transaction.coinbase height value).txid, time, bits, 0⟩,
        [.coinbase height value]⟩ := rfl

omit [Features] in
/-- Mining gives a header with another nonce whose hash meets the target. -/
theorem mineHeader_cases (header : BlockHeader) (bits : UInt32) :
    (∃ e after, mineHeader header bits = (.error e, after) ∧
      (e = .mine .attemptsExceeded ∨
        Target.fromBits bits = none ∧ e = .invalidInput (invalidBitsText bits))) ∨
    ∃ n target, Target.fromBits bits = some target ∧
      mineHeader header bits = (.ok (), header.advance n) ∧
      target.meets (header.advance n).hash = true := by
  cases htarget : Target.fromBits bits with
  | none =>
      refine .inl ⟨_, header, ?_, .inr ⟨rfl, rfl⟩⟩
      simp only [mineHeader, htarget]
  | some target =>
      rcases searchNonce_spec target maxNonceAttempts header with
        ⟨n, -, hsearch, hmeets, -⟩ | ⟨hsearch, -⟩
      · refine .inr ⟨n, target, rfl, ?_, hmeets⟩
        simp only [mineHeader, htarget, mine, hsearch]
      · refine .inl ⟨_, header.advance maxNonceAttempts, ?_, .inl rfl⟩
        simp only [mineHeader, htarget, mine, hsearch]

/-- One turn mines a block on the tip, or ends the command with one of the errors. -/
theorem Grown.mineBlock (h : Grown args baseTime networkTime genesis blocks chain)
    (order : OrphanOrder) :
    (∃ e, MineCommand.mineBlock order args baseTime (UInt32.ofNat blocks.length) chain =
      .error e ∧ Fault args e) ∨
    ∃ block next, MineCommand.mineBlock order args baseTime (UInt32.ofNat blocks.length) chain =
        .ok (⟨blocks.length + 1, block.hash, block.header.nonce⟩,
          line (blocks.length + 1) block.hash block.header.nonce, next) ∧
      Grown args baseTime networkTime genesis (blocks ++ [block]) next := by
  have hindexed := (Chain.ReachableWith.coherent h.reachable).indexed
  have hheight : UInt32.ofNat blocks.length + 1 = UInt32.ofNat (blocks.length + 1) :=
    (UInt32.ofNat_add _ _).symm
  generalize hheader : (⟨1, chain.tipHash,
    (Transaction.coinbase (UInt32.ofNat (blocks.length + 1)) args.value).txid,
    blockTime baseTime (UInt32.ofNat blocks.length), args.bits, 0⟩ : BlockHeader) = header
  have hbuild : buildCoinbaseBlock chain (UInt32.ofNat blocks.length + 1)
      (blockTime baseTime (UInt32.ofNat blocks.length)) args.value args.bits =
        .ok ⟨header, [.coinbase (UInt32.ofNat (blocks.length + 1)) args.value]⟩ := by
    rw [hheight, buildCoinbaseBlock_eq, hheader]
  rcases mineHeader_cases header args.bits with
    ⟨e, after, hmine, hfault⟩ | ⟨n, target, htarget, hmine, hmeets⟩
  · refine .inl ⟨e, ?_, ?_⟩
    · simp only [MineCommand.mineBlock, hbuild, hmine]
    · rcases hfault with rfl | ⟨hbits, rfl⟩
      · exact .attemptsExceeded
      · exact .invalidBits hbits
  · generalize hblock : (⟨header.advance n,
      [.coinbase (UInt32.ofNat (blocks.length + 1)) args.value]⟩ : Block) = block
    have hfields : block.header = header.advance n ∧
        block.transactions = [.coinbase (UInt32.ofNat (blocks.length + 1)) args.value] := by
      rw [← hblock]
      exact ⟨rfl, rfl⟩
    obtain ⟨hheaders, htransactions⟩ := hfields
    have hprev : block.header.prevBlockhash = chain.tipHash := by
      rw [hheaders, ← hheader]
      rfl
    rcases Chain.connectBlock_on_tip hindexed h.orphans order hprev with
      ⟨e, herror⟩ | ⟨parent, work, hadm, hconnect⟩
    · refine .inl ⟨.chain (.error e), ?_, .chain e⟩
      cases hcall : chain.connectBlock order block with
      | mk result failed =>
        rw [hcall] at herror
        obtain rfl : result = .error (.error e) := herror
        simp only [MineCommand.mineBlock, hbuild, hmine, hblock, hcall]
    · have hchecked := (Chain.validateBlockForParent_ok_iff.mp hadm.valid).1
      have hlength : chain.blocks.length = blocks.length + 1 := by
        rw [h.active, List.length_cons]
      have hpushed : (chain.extendTip block parent work).eventJournal = chain.eventJournal.push
          (.blockConnected (parent.height + 1) block.hash block.transactions.length) := rfl
      obtain ⟨events, htake⟩ := Chain.takeEvents_after_push
        (Chain.Reachable.journaled h.reachable).events h.taken
        (.blockConnected (parent.height + 1) block.hash block.transactions.length)
      rw [← hpushed] at htake
      have hmined : MinedAs args baseTime networkTime blocks.length block := by
        refine ⟨htransactions, ?_, hchecked.pow, ?_, ?_⟩
        · rw [hheaders, ← hheader]
          rfl
        · rw [hheaders, ← hheader]
          rfl
        · have htime := hchecked.time _ _ rfl rfl
          rw [validBlockTime, Bool.and_eq_true, decide_eq_true_eq, decide_eq_true_eq, h.clock]
            at htime
          exact htime.2
      refine .inr ⟨block, (chain.extendTip block parent work).takeEvents.2, ?_, ?_⟩
      · simp only [MineCommand.mineBlock, hbuild, hmine, hblock, hconnect, hlength,
          Chain.takeEvents, htake, hheaders]
      · have hnext := (Chain.Extension.cons hadm hprev (.nil _)).reachable order h.orphans
          h.reachable
        refine ⟨.takeEvents hnext, h.orphans, ?_, h.clock, ?_, ?_⟩
        · change chain.blocks ++ [block] = _
          rw [h.active, List.cons_append]
        · simp only [Chain.takeEvents, htake]
        · intro i found hfound
          rcases getElem?_concat_cases hfound with hbefore | ⟨rfl, rfl⟩
          · exact h.mined i found hbefore
          · exact hmined

def infoAt (below i : ℕ) (block : Block) : MinedBlockInfo :=
  ⟨below + i + 1, block.hash, block.header.nonce⟩

def lineAt (below i : ℕ) (block : Block) : String :=
  line (below + i + 1) block.hash block.header.nonce

omit [Features] in
theorem infoAt_succ (below : ℕ) : (fun i ↦ infoAt below (i + 1)) = infoAt (below + 1) := by
  funext i block
  rw [infoAt, infoAt, Nat.add_right_comm below 1 i, Nat.add_assoc below i 1]

omit [Features] in
theorem lineAt_succ (below : ℕ) : (fun i ↦ lineAt below (i + 1)) = lineAt (below + 1) := by
  funext i block
  rw [lineAt, lineAt, Nat.add_right_comm below 1 i, Nat.add_assoc below i 1]

/-- The loop mines one block after another, up to the first error. -/
theorem Grown.mineLoop (h : Grown args baseTime networkTime genesis blocks chain)
    (order : OrphanOrder) (count : ℕ) :
    ∃ mined next result, Grown args baseTime networkTime genesis (blocks ++ mined) next ∧
      MineCommand.mineLoop order args baseTime (indices blocks.length count) chain =
        (result, mined.mapIdx (lineAt blocks.length)) ∧
      (result = .ok (mined.mapIdx (infoAt blocks.length)) ∧ mined.length = count ∨
        ∃ e, result = .error e ∧ Fault args e) := by
  induction count generalizing blocks chain with
  | zero => exact ⟨[], chain, .ok [], by rwa [List.append_nil], rfl, .inl ⟨rfl, rfl⟩⟩
  | succ count ih =>
      have hindices : indices blocks.length (count + 1) =
          UInt32.ofNat blocks.length :: indices (blocks.length + 1) count := rfl
      rw [hindices]
      rcases h.mineBlock order with ⟨e, hblock, hfault⟩ | ⟨block, next, hblock, hgrown⟩
      · refine ⟨[], chain, .error e, by rwa [List.append_nil], ?_, .inr ⟨e, rfl, hfault⟩⟩
        simp only [MineCommand.mineLoop, hblock, List.mapIdx_nil]
      · obtain ⟨mined, last, result, hlast, hloop, hresult⟩ := ih hgrown
        rw [List.length_append, List.length_singleton] at hloop hresult
        rw [List.append_assoc, List.singleton_append] at hlast
        rcases hresult with ⟨rfl, hcount⟩ | ⟨e, rfl, hfault⟩
        · refine ⟨block :: mined, last, .ok ((block :: mined).mapIdx (infoAt blocks.length)),
            hlast, ?_, .inl ⟨rfl, by rw [List.length_cons, hcount]⟩⟩
          rw [List.mapIdx_cons, List.mapIdx_cons, infoAt_succ, lineAt_succ]
          simp only [MineCommand.mineLoop, hblock, hloop]
          rfl
        · refine ⟨block :: mined, last, .error e, hlast, ?_, .inr ⟨e, rfl, hfault⟩⟩
          rw [List.mapIdx_cons, lineAt_succ]
          simp only [MineCommand.mineLoop, hblock, hloop]
          rfl

omit [Features] in
theorem minedGenesis_cases (args : MineArgs) :
    (∃ e, minedGenesis args.bits = .error e ∧ Fault args e) ∨
    ∃ genesis, minedGenesis args.bits = .ok genesis := by
  rcases mineHeader_cases (Block.coinbase ⟨1, zeroHash, zeroHash, genesisTime, args.bits, 0⟩ 0
    defaultCoinbaseValue).header args.bits with ⟨e, after, hmine, hfault⟩ | ⟨n, _, -, hmine, -⟩
  · refine .inl ⟨e, ?_, ?_⟩
    · simp only [minedGenesis, hmine]
    · rcases hfault with rfl | ⟨hbits, rfl⟩
      · exact .attemptsExceeded
      · exact .invalidBits hbits
  · cases hblock : minedGenesis args.bits with
    | ok genesis => exact .inr ⟨genesis, rfl⟩
    | error e =>
        simp only [minedGenesis, hmine] at hblock
        cases hblock

theorem newGenesis_error {stop : Stop} (h : Chain.newGenesis genesis networkTime = .error stop) :
    ∃ e, stop = .error e := by
  unfold Chain.newGenesis Chain.withJournalCapacities at h
  split at h
  · exact ⟨_, (Except.error.inj h).symm⟩
  · simp only at h
    split at h
    · exact ⟨_, (Except.error.inj h).symm⟩
    · split at h
      · rename_i hvalid
        obtain rfl := Except.error.inj h
        exact Chain.validateBlockForParent_next hvalid
      · split at h
        · exact ⟨_, (Except.error.inj h).symm⟩
        · cases h

/-- The chain of a command starts with its genesis block and without events. -/
theorem ephemeralChain_cases (args : MineArgs) (baseTime networkTime : UInt32) :
    (∃ e, ephemeralChain networkTime args.bits = .error e ∧ Fault args e) ∨
    ∃ genesis chain, ephemeralChain networkTime args.bits = .ok chain ∧
      Grown args baseTime networkTime genesis [] chain := by
  rcases minedGenesis_cases args with ⟨e, hmined, hfault⟩ | ⟨genesis, hmined⟩
  · exact .inl ⟨e, by simp only [ephemeralChain, hmined], hfault⟩
  · cases hnew : Chain.newGenesis genesis networkTime with
    | error stop =>
        obtain ⟨e, rfl⟩ := newGenesis_error hnew
        exact .inl ⟨_, by simp only [ephemeralChain, hmined, hnew], .chain e⟩
    | ok chain =>
        have hstart : Chain.Reachable genesis chain := .start hnew
        obtain ⟨work, -, hchain⟩ := Chain.withJournalCapacities_spec hnew
        have hpushed : chain.eventJournal =
            (ChainEventJournal.withCapacity defaultChainEventJournalCapacity).push
              (.blockConnected 0 genesis.hash genesis.transactions.length) := by
          rw [hchain]
          rfl
        obtain ⟨events, htake⟩ := Chain.takeEvents_after_push
          (ChainEventJournal.withCapacity_aligned defaultChainEventJournalCapacity) rfl
          (.blockConnected 0 genesis.hash genesis.transactions.length)
        rw [← hpushed] at htake
        refine .inr ⟨genesis, chain.takeEvents.2, ?_, .takeEvents hstart, ?_, ?_, ?_, ?_, ?_⟩
        · simp only [ephemeralChain, hmined, hnew, Chain.takeEvents, htake]
        · rw [hchain]
          rfl
        · rw [hchain]
          rfl
        · rw [hchain]
          rfl
        · simp only [Chain.takeEvents, htake]
        · intro i block hblock
          cases hblock

omit [Crypto] [Features] in
theorem resolveNetworkTime_fault {clock : Option ℕ} {e : CliError}
    (h : resolveNetworkTime args.networkTime clock = .error e) : Fault args e := by
  unfold resolveNetworkTime at h
  split at h
  · rename_i value htime
    split at h
    · rename_i hzero
      obtain rfl := Except.error.inj h
      exact .invalidNetworkTime (by rw [htime, hzero])
    · cases h
  · rename_i htime
    unfold currentUnixTime at h
    split at h
    · obtain rfl := Except.error.inj h
      exact .systemTimeUnavailable htime
    · cases h

/-- Block times move on from a base that is not before the network time: at most 13 of them
are in time. -/
theorem Grown.length_le (h : Grown args baseTime networkTime genesis blocks chain)
    (hbase : networkTime ≤ baseTime) (hclock : networkTime.toNat + 7200 < 2 ^ 32 - 1) :
    blocks.length ≤ 13 := by
  by_contra hmany
  have hlast : 13 < blocks.length := Nat.not_le.mp hmany
  have hmined := h.mined 13 blocks[13] (List.getElem?_eq_getElem hlast)
  have htime := hmined.inTime
  have hstep : saturatingMulU32 (UInt32.ofNat 13) 600 = 7800 := by decide
  rw [hmined.time, blockTime, hstep, UInt32.le_iff_toNat_le, toNat_saturatingAddU32,
    toNat_saturatingAddU32] at htime
  have hfuture : maxFutureBlockTime.toNat = 7200 := rfl
  have hspan : (7800 : UInt32).toNat = 7800 := rfl
  have := UInt32.le_iff_toNat_le.mp hbase
  omega

/-- What `mine` does, whatever its arguments and the clock: it writes a line for each block that
it mines, one on the other on a chain of its own, and where it does not mine all of them it ends
with an error that is not a panic. -/
theorem mine_run (order : OrphanOrder) (args : MineArgs) (clock : Option ℕ) :
    ∃ blocks result, run order args clock =
        (result, blocks.mapIdx (lineAt 0) ++ if result.isOk then [ephemeralNotice] else []) ∧
      (result = .ok (blocks.mapIdx (infoAt 0)) ∧ blocks.length = args.count.toNat ∨
        ∃ e, result = .error e ∧ Fault args e) ∧
      (blocks = [] ∨ ∃ networkTime genesis chain,
        resolveNetworkTime args.networkTime clock = .ok networkTime ∧
        Grown args (args.time.getD (max networkTime genesisTime)) networkTime genesis blocks
          chain ∧
        (args.time = none → networkTime.toNat + 7200 < 2 ^ 32 - 1 → blocks.length ≤ 13)) := by
  by_cases hcount : args.count = 0
  · refine ⟨[], .error (.invalidInput "count must be at least 1"), ?_, ?_, .inl rfl⟩
    · rw [run, if_pos hcount]
      rfl
    · exact .inr ⟨_, rfl, .noCount hcount⟩
  · cases htime : resolveNetworkTime args.networkTime clock with
    | error e =>
        refine ⟨[], .error e, ?_, .inr ⟨e, rfl, ?_⟩, .inl rfl⟩
        · simp only [run, if_neg hcount, htime]
          rfl
        · exact resolveNetworkTime_fault htime
    | ok networkTime =>
        rcases ephemeralChain_cases args (args.time.getD (max networkTime genesisTime))
          networkTime with ⟨e, hchain, hfault⟩ | ⟨genesis, chain, hchain, hgrown⟩
        · refine ⟨[], .error e, ?_, .inr ⟨e, rfl, hfault⟩, .inl rfl⟩
          simp only [run, if_neg hcount, htime, hchain]
          rfl
        · obtain ⟨blocks, last, result, hlast, hloop, hresult⟩ :=
            hgrown.mineLoop order args.count.toNat
          rw [List.length_nil] at hloop hresult
          refine ⟨blocks, result, ?_, hresult, .inr ⟨networkTime, genesis, last, rfl, hlast, ?_⟩⟩
          · simp only [run, if_neg hcount, htime, hchain, hloop]
            rcases hresult with ⟨rfl, -⟩ | ⟨e, rfl, -⟩
            · rfl
            · simp [Except.isOk, Except.toBool]
          · intro hnone hclock
            refine hlast.length_le ?_ hclock
            rw [hnone, Option.getD_none]
            change networkTime ≤ if networkTime ≤ genesisTime then genesisTime else networkTime
            split
            · assumption
            · exact UInt32.le_refl _

end MineCommand

end

end

end Bitrst
