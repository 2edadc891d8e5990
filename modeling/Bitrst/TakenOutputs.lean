import Bitrst.MempoolViews

/-!
# What a block takes from a set of outputs

The transactions of a block are checked on the view that those before them leave, so the
set the block meets is only read at the outputs that it takes: those it spends without
creating them first.  Two sets that agree there judge the block alike.
-/

namespace Bitrst

open Support

variable [Crypto]

namespace Transaction

variable {tx : Transaction} {txs : List Transaction} {view : UtxoSet}

/-- A valid transaction finds what it spends. -/
theorem ValidOn.held (h : tx.ValidOn view) :
    ∀ outpoint ∈ tx.spentOutPoints, (view.lookup outpoint).isSome := by
  intro outpoint hspent
  unfold spentOutPoints at hspent
  split at hspent
  · cases hspent
  · rename_i hcoinbase
    obtain ⟨input, hinput, rfl⟩ := List.mem_map.mp hspent
    exact UtxoSet.validateTransaction_inputs (Bool.eq_false_iff.mpr hcoinbase) h.1 input hinput

/-- Valid transactions find what they take. -/
theorem AllValidOn.held (h : AllValidOn txs view) :
    ∀ outpoint ∈ takenOutPoints txs, (view.lookup outpoint).isSome := by
  induction txs generalizing view with
  | nil => simp [takenOutPoints]
  | cons tx rest ih =>
      intro outpoint htaken
      rcases List.mem_append.mp htaken with hspent | hrest
      · exact h.1.held outpoint hspent
      · obtain ⟨hrest, hwrite⟩ := List.mem_filter.mp hrest
        have hfound := ih h.2 outpoint hrest
        simp only [UtxoSet.applyTransaction,
          Patch.lookup_apply_of_notMem _ _ (of_decide_eq_true hwrite)] at hfound
        split at hfound
        · cases hfound
        · exact hfound

/-- An outpoint that is spent before any transaction writes it is taken. -/
theorem mem_takenOutPoints_of_not_clobbers {outpoint : OutPoint}
    (hspent : ∃ tx ∈ txs, outpoint ∈ tx.spentOutPoints)
    (hclobbers : ¬ Clobbers (txs.map patch) outpoint) : outpoint ∈ takenOutPoints txs := by
  induction txs with
  | nil => simp at hspent
  | cons tx rest ih =>
      by_cases hfirst : outpoint ∈ tx.spentOutPoints
      · exact List.mem_append_left _ hfirst
      · have hwrite : outpoint ∉ tx.patch.writes.map Prod.fst :=
          fun hw ↦ hclobbers ⟨hfirst, Or.inl hw⟩
        obtain ⟨spender, hspender, hspends⟩ := hspent
        have hlater : spender ∈ rest := by
          rcases List.mem_cons.mp hspender with rfl | hlater
          · exact (hfirst hspends).elim
          · exact hlater
        have hrest := ih ⟨spender, hlater, hspends⟩ fun hc ↦ hclobbers ⟨hfirst, Or.inr hc⟩
        exact List.mem_append_right _ (List.mem_filter.mpr ⟨hrest, decide_eq_true hwrite⟩)

end Transaction

namespace Block

variable {block : Block} {view view' : UtxoSet} {created : Set Transaction}

/-- The outputs that the block needs to find. -/
def takenOutPoints (block : Block) : List OutPoint :=
  Transaction.takenOutPoints block.transactions

/-- The block finds what it takes. -/
def HeldBy (block : Block) (view : UtxoSet) : Prop :=
  ∀ outpoint ∈ block.takenOutPoints, (view.lookup outpoint).isSome

/-- The transactions of the block pass wherever they find what they take among the outputs of
`created`: nothing but a missing output can make them fail. -/
def SoundAmong (created : Set Transaction) (block : Block) : Prop :=
  ∀ view : UtxoSet, view.CreatedBy created → block.HeldBy view →
    Chain.validateBlockTransactionsForUtxo block view = .ok ()

theorem validate_held (h : Chain.validateBlockTransactionsForUtxo block view = .ok ()) :
    block.HeldBy view :=
  (Chain.validateBlockTransactionsForUtxo_ok_iff.mp h).2.held

/-- Sets that agree on what the block takes judge it alike. -/
theorem validate_congr_taken (h : Chain.validateBlockTransactionsForUtxo block view = .ok ())
    (hview : ∀ outpoint ∈ block.takenOutPoints, view.lookup outpoint = view'.lookup outpoint) :
    Chain.validateBlockTransactionsForUtxo block view' = .ok () := by
  obtain ⟨hdistinct, hvalid⟩ := Chain.validateBlockTransactionsForUtxo_ok_iff.mp h
  exact Chain.validateBlockTransactionsForUtxo_ok_iff.mpr ⟨hdistinct, hvalid.congr_taken hview⟩

end Block

namespace UtxoSet

variable {created : Set Transaction} {view view' : UtxoSet}

/-- Transactions with ids of their own leave one entry under an outpoint. -/
theorem CreatedBy.eq_of_isSome (h : view.CreatedBy created) (h' : view'.CreatedBy created)
    (hinj : Set.InjOn Transaction.txid created) {outpoint : OutPoint}
    (hfound : (view.lookup outpoint).isSome) (hfound' : (view'.lookup outpoint).isSome) :
    view.lookup outpoint = view'.lookup outpoint := by
  obtain ⟨entry, hentry⟩ := Option.isSome_iff_exists.mp hfound
  obtain ⟨entry', hentry'⟩ := Option.isSome_iff_exists.mp hfound'
  obtain ⟨tx', htx', houtput'⟩ := h' outpoint entry' hentry'
  have honce : view.SuppliesOnce [tx'] outpoint := by
    refine h.suppliesOnce (hinj.mono ?_) outpoint
    rintro tx (htx | htx)
    · exact htx
    · rwa [List.mem_singleton.mp htx]
  rw [hentry, hentry', honce entry entry' (Or.inl hentry)
    (Or.inr ⟨tx', List.mem_singleton_self tx', houtput'⟩)]

end UtxoSet

/-- Among transactions with ids of their own, a block that passes once is sound. -/
theorem Block.soundAmong_of_validate {created : Set Transaction} {block : Block} {view : UtxoSet}
    (hinj : Set.InjOn Transaction.txid created) (hview : view.CreatedBy created)
    (h : Chain.validateBlockTransactionsForUtxo block view = .ok ()) :
    block.SoundAmong created := by
  intro view' hview' hheld
  apply Block.validate_congr_taken h
  intro outpoint htaken
  exact hview.eq_of_isSome hview' hinj (Block.validate_held h outpoint htaken)
    (hheld outpoint htaken)

end Bitrst
