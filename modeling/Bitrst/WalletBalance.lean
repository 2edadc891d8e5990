import Bitrst.ValueConservation
import Bitrst.WalletReplay

/-!
# The balance of the wallet

`Wallet::balance` adds the values of the wallet's outputs up in a `u64`.  A
block may pay any amount out of nothing, as `MAX_MONEY` is used nowhere, and
only the outputs of one transaction are added with a check.  The balance is
exact as long as the outputs are worth less than `2 ^ 64` together; they are
worth at most what the stored blocks pay to the watched hashes, and for a wallet
in step with the chain at most what the active coinbases pay.
-/

namespace Bitrst

open Support

/-! ## The sum of the values -/

namespace Wallet

/-- The sum of the values of all outputs of the wallet, in exact arithmetic. -/
def value (wallet : Wallet) : ℕ := wallet.utxos.total fun utxo ↦ utxo.value.toNat

/-- Adding up in a `u64` gives the sum up to multiples of `2 ^ 64`. -/
theorem toNat_fold_add (values : Multiset UInt64) :
    (values.fold (· + ·) 0 : UInt64).toNat = (values.map UInt64.toNat).sum % 2 ^ 64 := by
  induction values using Multiset.induction with
  | empty => simp
  | cons value rest ih =>
      rw [Multiset.fold_cons_left, UInt64.toNat_add, ih, Multiset.map_cons, Multiset.sum_cons,
        Nat.add_mod_mod]

theorem toNat_balance (wallet : Wallet) : wallet.balance.toNat = wallet.value % 2 ^ 64 := by
  rw [balance, toNat_fold_add, Multiset.map_map, value, HashMap.total_eq_sum_entries]
  rfl

theorem balance_eq_value_iff (wallet : Wallet) :
    wallet.balance.toNat = wallet.value ↔ wallet.value < 2 ^ 64 := by
  rw [toNat_balance]
  constructor
  · intro h
    rw [← h]
    exact Nat.mod_lt _ (by decide)
  · exact Nat.mod_eq_of_lt

end Wallet

/-! ## What pays a watched hash -/

/-- The values of the outputs that pay a watched hash. -/
def watchedValue (watched : Finset Hash160) (outputs : List TxOutput) : ℕ :=
  (outputs.map fun output ↦
    if Wallet.isWatched watched output.scriptPubkey then output.value.toNat else 0).sum

def Block.watchedValue (watched : Finset Hash160) (block : Block) : ℕ :=
  (block.transactions.map fun tx ↦ Bitrst.watchedValue watched tx.outputs).sum

/-- The value of the unspent outputs that pay a watched hash. -/
def UtxoSet.watchedValue (watched : Finset Hash160) (utxo : UtxoSet) : ℕ :=
  utxo.total fun entry ↦
    if Wallet.isWatched watched entry.scriptPubkey then entry.value.toNat else 0

theorem UtxoSet.watchedValue_le (watched : Finset Hash160) (utxo : UtxoSet) :
    utxo.watchedValue watched ≤ utxo.value := by
  apply HashMap.total_le_total
  intro entry
  split
  · exact Nat.le_refl _
  · exact Nat.zero_le _

variable [Crypto]

/-- The outputs of the block that pay a watched hash, as a wallet keeps them. -/
def Block.watchedOutputs (watched : Finset Hash160) (block : Block) :
    List (OutPoint × WalletUtxo) :=
  (block.walletPatches watched).flatMap Patch.writes

theorem Transaction.mem_walletWrites {watched : Finset Hash160} {tx : Transaction}
    {outpoint : OutPoint} {utxo : WalletUtxo}
    (h : (outpoint, utxo) ∈ (tx.walletPatch watched).writes) : utxo.outpoint = outpoint := by
  obtain ⟨created, -, hcreated⟩ := List.mem_filterMap.mp h
  obtain ⟨entry, hentry, hpair⟩ := Option.map_eq_some_iff.mp hcreated
  obtain ⟨rfl, rfl⟩ := Prod.mk.inj hpair
  unfold watchedEntry at hentry
  split at hentry
  · rw [← Option.some.inj hentry]
  · cases hentry

theorem Transaction.sum_walletWrites (watched : Finset Hash160) (tx : Transaction) :
    ((tx.walletPatch watched).writes.map fun binding ↦ binding.2.value.toNat).sum =
      Bitrst.watchedValue watched tx.outputs := by
  have hsum : ∀ outputs : List (TxOutput × ℕ),
      (((outputs.map fun indexed ↦ ((⟨tx.txid, UInt32.ofNat indexed.2⟩ : OutPoint),
          (⟨indexed.1.value, indexed.1.scriptPubkey⟩ : UtxoEntry))).filterMap fun created ↦
        (watchedEntry watched created.1 created.2).map fun utxo ↦ (created.1, utxo)).map
          fun binding ↦ binding.2.value.toNat).sum =
        Bitrst.watchedValue watched (outputs.map Prod.fst) := by
    intro outputs
    induction outputs with
    | nil => rfl
    | cons indexed rest ih =>
        by_cases hwatched : Wallet.isWatched watched indexed.1.scriptPubkey
        · simpa [watchedEntry, Bitrst.watchedValue, hwatched] using ih
        · simpa [watchedEntry, Bitrst.watchedValue, hwatched] using ih
  have houtputs := hsum tx.outputs.zipIdx
  rw [List.zipIdx_map_fst] at houtputs
  exact houtputs

theorem Block.sum_watchedOutputs (watched : Finset Hash160) (block : Block) :
    ((block.watchedOutputs watched).map fun binding ↦ binding.2.value.toNat).sum =
      block.watchedValue watched := by
  simp only [watchedOutputs, walletPatches, List.flatMap_def, List.map_flatten, List.sum_flatten,
    List.map_map, Function.comp_def, Transaction.sum_walletWrites, Block.watchedValue]

/-! ## Outputs come from stored blocks -/

variable [Features]

namespace Wallet

variable {genesis : Block} {chain chain' : Chain} {wallet : Wallet} {hashes : List Hash160}

/-- An indexed block pays the output to a watched hash. -/
def Drawn (chain : Chain) (watched : Finset Hash160) (outpoint : OutPoint) (utxo : WalletUtxo) :
    Prop :=
  ∃ hash entry, chain.known.lookup hash = some entry ∧
    (outpoint, utxo) ∈ entry.block.watchedOutputs watched

/-- All outputs of the wallet, and those it could bring back, were paid by indexed blocks. -/
structure Sourced (chain : Chain) (wallet : Wallet) : Prop where
  utxos : OfKind (Drawn chain wallet.watched) wallet.utxos
  removed : ∀ hash undo, wallet.blockUndo.lookup hash = some undo →
    ∀ utxo ∈ undo.removed, Drawn chain wallet.watched utxo.outpoint utxo

omit [Features] in
theorem Drawn.keep (hkeeps : Chain.KeepsIndex chain chain') {watched : Finset Hash160}
    {outpoint : OutPoint} {utxo : WalletUtxo} (h : Drawn chain watched outpoint utxo) :
    Drawn chain' watched outpoint utxo := by
  obtain ⟨hash, entry, hentry, hmem⟩ := h
  obtain ⟨entry', hentry', hblock, -⟩ := hkeeps hash entry hentry
  exact ⟨hash, entry', hentry', hblock ▸ hmem⟩

omit [Features] in
theorem Sourced.keep (h : Sourced chain wallet) (hkeeps : Chain.KeepsIndex chain chain') :
    Sourced chain' wallet :=
  ⟨h.utxos.mono fun _ _ hdrawn ↦ hdrawn.keep hkeeps,
    fun hash undo hundo utxo hutxo ↦ (h.removed hash undo hundo utxo hutxo).keep hkeeps⟩

omit [Features] in
theorem Drawn.outpoint_eq {watched : Finset Hash160} {outpoint : OutPoint} {utxo : WalletUtxo}
    (h : Drawn chain watched outpoint utxo) : utxo.outpoint = outpoint := by
  obtain ⟨hash, entry, -, hmem⟩ := h
  obtain ⟨patch, hpatch, hwrite⟩ := List.mem_flatMap.mp hmem
  obtain ⟨tx, -, rfl⟩ := List.mem_map.mp hpatch
  exact Transaction.mem_walletWrites hwrite

omit [Features] in
theorem Sourced.connectBlock (h : Sourced chain wallet) {block : Block}
    (hknown : ∃ hash entry, chain.known.lookup hash = some entry ∧ entry.block = block) :
    Sourced chain (wallet.connectBlock block) := by
  obtain ⟨hash, entry, hentry, rfl⟩ := hknown
  have hwrites : ∀ patch ∈ entry.block.walletPatches wallet.watched,
      ∀ binding ∈ patch.writes, Drawn chain wallet.watched binding.1 binding.2 :=
    fun patch hpatch binding hbinding ↦
      ⟨hash, entry, hentry, List.mem_flatMap.mpr ⟨patch, hpatch, hbinding⟩⟩
  rw [connectBlock_eq]
  refine ⟨h.utxos.applyAll hwrites, fun hash' undo hundo utxo hutxo ↦ ?_⟩
  simp only [HashMap.lookup_insert_ite] at hundo
  split at hundo
  · obtain rfl := Option.some.inj hundo
    obtain ⟨⟨outpoint, removed⟩, hmem, rfl⟩ := List.mem_map.mp hutxo
    have hdrawn := h.utxos.jointUndo_removed hwrites _ hmem
    rwa [hdrawn.outpoint_eq]
  · exact h.removed hash' undo hundo utxo hutxo

omit [Crypto] [Features] in
theorem foldl_insert_removed (removed : List WalletUtxo) (utxos : HashMap OutPoint WalletUtxo) :
    removed.foldl (fun utxos utxo ↦ Finmap.insert utxo.outpoint utxo utxos) utxos =
      utxos.insertAll (removed.map fun utxo ↦ (utxo.outpoint, utxo)) := by
  rw [HashMap.insertAll, List.foldl_map]

omit [Features] in
theorem Sourced.disconnectBlock (h : Sourced chain wallet) (hash : Hash256) :
    Sourced chain (wallet.disconnectBlock hash) := by
  unfold Wallet.disconnectBlock
  cases hundo : wallet.blockUndo.lookup hash with
  | none => exact h
  | some undo =>
      simp only [foldl_insert_removed]
      refine ⟨(h.utxos.eraseAll undo.created).insertAll ?_, fun hash' undo' hundo' ↦ ?_⟩
      · intro binding hbinding
        obtain ⟨utxo, hutxo, rfl⟩ := List.mem_map.mp hbinding
        exact h.removed hash undo hundo utxo hutxo
      · simp only [HashMap.lookup_erase_ite] at hundo'
        split at hundo'
        · cases hundo'
        · exact h.removed hash' undo' hundo'

omit [Features] in
theorem Sourced.applyEvents (hindexed : Chain.Indexed genesis chain) (events : List ChainEvent)
    (h : Sourced chain wallet) : Sourced chain (applyEvents chain events wallet).2 := by
  induction events generalizing wallet with
  | nil => exact h
  | cons event rest ih =>
      cases event with
      | blockConnected height hash count =>
          rw [Wallet.applyEvents]
          cases hblock : chain.activeBlockAt height with
          | none => exact h
          | some block =>
              obtain ⟨entry, hentry, hentryBlock, -⟩ := hindexed.active_known _ _ hblock
              exact ih (h.connectBlock ⟨_, entry, hentry, hentryBlock⟩)
      | blockDisconnected height hash => exact ih (h.disconnectBlock hash)
      | chainReorg depth oldTip newTip => exact ih h
      | orphanAdded added size => exact ih h
      | orphanEvicted evicted reason => exact ih h

theorem SyncRun.sourced {cond : Chain → List ChainEvent → Wallet → Prop}
    (h : SyncRun cond genesis hashes chain wallet) :
    Sourced chain wallet ∧ wallet.watched = hashes.toFinset := by
  induction h with
  | start created =>
      refine ⟨?_, watching_watched hashes⟩
      rw [watching_eq]
      exact ⟨fun _ _ hnone ↦ (nomatch hnone), fun _ _ hnone ↦ (nomatch hnone)⟩
  | @connect chain wallet order block result run connected ih =>
      have hcoherent := Chain.ReachableWith.coherent run.reachable
      have hkept : Chain.KeptByUpdates genesis (Chain.KeepsIndex chain) :=
        Chain.keepsIndex_kept chain
      exact ⟨ih.1.keep (hkept.connectBlock hcoherent order block (.refl chain)).2, ih.2⟩
  | @setTime chain wallet networkTime run ih =>
      refine ⟨ih.1.keep ?_, ih.2⟩
      unfold Chain.setNetworkTime
      split
      · exact .refl chain
      · exact fun hash entry hentry ↦ ⟨entry, hentry, rfl, rfl⟩
  | @sync chain wallet events run taken meets ih =>
      have hindexed := (Chain.ReachableWith.coherent (.takeEvents run.reachable)).indexed
      have hkeeps : Chain.KeepsIndex chain chain.takeEvents.2 :=
        fun hash entry hentry ↦ ⟨entry, hentry, rfl, rfl⟩
      refine ⟨(ih.1.keep hkeeps).applyEvents hindexed events, ?_⟩
      rw [applyEvents_watched, ih.2]

/-- The outputs of the wallet are worth at most what the indexed blocks pay to the watched
hashes. -/
theorem SyncRun.value_le {cond : Chain → List ChainEvent → Wallet → Prop}
    (h : SyncRun cond genesis hashes chain wallet) {blocks : List Block}
    (hblocks : ∀ hash entry, chain.known.lookup hash = some entry → entry.block ∈ blocks) :
    wallet.value ≤ (blocks.map (Block.watchedValue hashes.toFinset)).sum := by
  obtain ⟨hsourced, hwatched⟩ := h.sourced
  have hmem : ∀ outpoint utxo, wallet.utxos.lookup outpoint = some utxo →
      (outpoint, utxo) ∈ blocks.flatMap (Block.watchedOutputs hashes.toFinset) := by
    intro outpoint utxo hutxo
    obtain ⟨hash, entry, hentry, hwrite⟩ := hsourced.utxos outpoint utxo hutxo
    rw [hwatched] at hwrite
    exact List.mem_flatMap.mpr ⟨entry.block, hblocks hash entry hentry, hwrite⟩
  have hle : wallet.value ≤ ((blocks.flatMap (Block.watchedOutputs hashes.toFinset)).map
      fun binding ↦ binding.2.value.toNat).sum := HashMap.total_le_sum_of_mem hmem
  simpa only [List.flatMap_def, List.map_flatten, List.sum_flatten, List.map_map,
    Function.comp_def, Block.sum_watchedOutputs] using hle

/-! ## A wallet in step with the chain -/

/-- Where nothing is left to take, the outputs of the wallet are worth what the chain's unspent
outputs for the watched hashes are. -/
theorem SyncRun.value_eq (h : SyncRun BatchOk genesis hashes chain wallet)
    (taken : chain.takeEvents.1 = .ok []) :
    wallet.value = chain.utxo.watchedValue hashes.toFinset := by
  apply HashMap.total_congr
  intro outpoint
  rw [HashMap.weightAt, HashMap.weightAt, h.lookup_utxos taken outpoint]
  cases chain.utxo.lookup outpoint with
  | none => rfl
  | some entry =>
      rw [Option.bind_some, watchedEntry]
      split <;> simp_all

/-- Active coinbases that pay less than `2 ^ 64` in all are enough. -/
theorem balance_exact_of_coinbases (h : SyncRun BatchOk genesis hashes chain wallet)
    (taken : chain.takeEvents.1 = .ok [])
    (hsum : (chain.blocks.map Block.coinbaseValue).sum < 2 ^ 64) :
    wallet.balance.toNat = wallet.value := by
  have hbound : UtxoSet.value chain.utxo ≤ (chain.blocks.map Block.coinbaseValue).sum :=
    Chain.reachable_value_le h.reachable
  rw [wallet.balance_eq_value_iff, h.value_eq taken]
  exact (UtxoSet.watchedValue_le hashes.toFinset chain.utxo).trans_lt (hbound.trans_lt hsum)

end Wallet

end Bitrst

namespace Bitrst.Sample

open Support Wallet

/-- Pays `2 ^ 63` satoshis to the key. -/
def richCoin (n : UInt8) : Transaction where
  version := 1
  inputs := [⟨zeroHash, 0xffffffff, [n, 0, 0, 0], 0xffffffff⟩]
  outputs := [⟨0x8000000000000000, [0x76, 0xa9, 20] ++ publicKeyHash.toList ++ [0x88, 0xac]⟩]
  lockTime := 0

def richCoinId1 : Hash256 := beVector 32
  0x9c04130824e33571b7d573367fd11a60770a6e2cab77d1e1357f746b8e567eea

def richCoinId2 : Hash256 := beVector 32
  0xa4de640c6940a5f781a96d1d4fee5622e02b4e1846616086e3da9db013a47de1

def richHash : Hash256 := beVector 32
  0x721fc6e113509480002892384e5560135a343aa3f1844d3dbb80eaa5b9697449

/-- In the place of `first`. -/
def rich : Block := ⟨header genesisHash richCoinId1 1001 0, [richCoin 1]⟩

def richer : Block := ⟨header richHash richCoinId2 1002 0, [richCoin 2]⟩

def richMeta : BlockMeta :=
  ⟨rich, 1, easyWork.add easyWork, UtxoSet.transactionUndos start.utxo [richCoin 1]⟩

/-- The chain of two blocks that pay the key. -/
def richest : Chain := (grown rich).extendTip richer richMeta easyWork

def richEvents : List ChainEvent :=
  [.blockConnected 0 genesisHash 1, .blockConnected 1 richHash 1,
    .blockConnected 2 richer.hash 1]

def richWallet : Wallet := (applyEvents richest.takeEvents.2 richEvents payee).2

theorem richest_run : Opens rich ∧ Chain.Fits (grown rich) richer richMeta ∧
    richer.header.prevBlockhash = (grown rich).tipHash ∧
      richest.takeEvents.1 = .ok richEvents := by
  decide +kernel

theorem richest_syncRun :
    SyncRun (fun _ _ _ ↦ True) genesis [publicKeyHash] richest.takeEvents.2 richWallet := by
  obtain ⟨hopens, hfits, htip, htaken⟩ := richest_run
  have hgrown : SyncRun (fun _ _ _ ↦ True) genesis [publicKeyHash] (grown rich) payee :=
    opened_syncRun hopens
  have hricher := Chain.connectBlock_eq_place hgrown.reachable.coherent.indexed rfl order
    (hfits.admitted blockWork_easyBits)
  rw [Chain.place_extended htip] at hricher
  have hrun := hgrown.connect order richer (congrArg Prod.fst hricher)
  rw [hricher] at hrun
  exact hrun.sync htaken trivial

end Bitrst.Sample
