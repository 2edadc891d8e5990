import Bitrst.Chain
import Mathlib.Algebra.Order.BigOperators.Group.List

/-!
# What the transaction checks of a block establish

A list of transactions passes the checks of a block exactly when no outpoint is
spent twice and every transaction is valid on the view left by those before it.
Whether that is so depends on the view only at the outpoints that are spent.
-/

namespace Bitrst

open Support

variable [Crypto]

/-! ## Checked sums -/

omit [Crypto] in
theorem checkedAddU64_eq_some_iff {x y z : UInt64} :
    checkedAddU64 x y = some z ↔ z.toNat = x.toNat + y.toNat := by
  unfold checkedAddU64
  split
  · rename_i hfits
    rw [Option.some.injEq, ← UInt64.toNat_inj, UInt64.toNat_add, Nat.mod_eq_of_lt hfits, eq_comm]
  · rename_i hover
    have hlt := z.toNat_lt
    simp only [reduceCtorEq, false_iff]
    omega

/-- The value of the outputs, in exact arithmetic. -/
def outputsValue (outputs : List TxOutput) : ℕ :=
  (outputs.map fun output ↦ output.value.toNat).sum

namespace UtxoSet

/-- The value of an unspent output, zero where there is none. -/
def valueAt (utxo : UtxoSet) (outpoint : OutPoint) : ℕ :=
  ((utxo.getValue outpoint).map UInt64.toNat).getD 0

omit [Crypto] in
/-- The checked sum of the outputs is the exact one. -/
theorem outputSumLoop_eq_ok_iff {outputs : List TxOutput} {sum total : UInt64} :
    outputSumLoop outputs sum = .ok total ↔ total.toNat = sum.toNat + outputsValue outputs := by
  induction outputs generalizing sum with
  | nil => simp [outputSumLoop, outputsValue, ← UInt64.toNat_inj, eq_comm]
  | cons output rest ih =>
      simp only [outputSumLoop, outputsValue, List.map_cons, List.sum_cons, ← Nat.add_assoc]
      cases hadd : checkedAddU64 sum output.value with
      | some next =>
          simp only [ih, ← checkedAddU64_eq_some_iff.mp hadd]
          rfl
      | none =>
          simp only [reduceCtorEq, false_iff]
          intro heq
          have hlt := total.toNat_lt
          have hnext : checkedAddU64 sum output.value = some (sum + output.value) := by
            simp only [checkedAddU64]
            exact if_pos (by omega)
          rw [hnext] at hadd
          cases hadd

omit [Crypto] in
/-- The checked sum of the inputs is the exact one. -/
theorem inputSum_toNat {utxo : UtxoSet} {inputs : List TxInput} {sum total : UInt64}
    (h : utxo.inputSum inputs sum = .ok total) :
    total.toNat = sum.toNat + (inputs.map fun input ↦ utxo.valueAt input.outPoint).sum := by
  induction inputs generalizing sum with
  | nil =>
      obtain rfl := Except.ok.inj h
      simp
  | cons input rest ih =>
      unfold inputSum at h
      split at h
      · cases h
      · rename_i value hvalue
        split at h
        · cases h
        · rename_i next hadd
          rw [ih h, checkedAddU64_eq_some_iff.mp hadd, List.map_cons, List.sum_cons, valueAt,
            hvalue]
          exact Nat.add_assoc _ _ _

omit [Crypto] in
/-- A coinbase is valid when its outputs can be summed. -/
theorem validateTransaction_coinbase_iff {utxo : UtxoSet} {tx : Transaction}
    (hcoinbase : tx.isCoinbase = true) :
    utxo.validateTransaction tx = .ok () ↔ outputsValue tx.outputs < 2 ^ 64 := by
  unfold validateTransaction outputSum
  rw [if_pos hcoinbase]
  cases hsum : outputSumLoop tx.outputs 0 with
  | error e =>
      have hnot : ¬ outputsValue tx.outputs < 2 ^ 64 := by
        intro hlt
        have hok : outputSumLoop tx.outputs 0 = .ok (UInt64.ofNat (outputsValue tx.outputs)) := by
          rw [outputSumLoop_eq_ok_iff, UInt64.toNat_ofNat_of_lt' hlt]
          exact (Nat.zero_add _).symm
        rw [hok] at hsum
        cases hsum
      exact iff_of_false (by rintro ⟨⟩) hnot
  | ok total =>
      have htotal := outputSumLoop_eq_ok_iff.mp hsum
      rw [UInt64.toNat_zero, Nat.zero_add] at htotal
      exact iff_of_true rfl (htotal ▸ total.toNat_lt)

omit [Crypto] in
/-- A valid transaction other than a coinbase pays no more than it spends. -/
theorem validateTransaction_pays {utxo : UtxoSet} {tx : Transaction}
    (hcoinbase : tx.isCoinbase = false) (h : utxo.validateTransaction tx = .ok ()) :
    outputsValue tx.outputs ≤ (tx.inputs.map fun input ↦ utxo.valueAt input.outPoint).sum := by
  unfold validateTransaction outputSum at h
  rw [hcoinbase, if_neg Bool.false_ne_true] at h
  cases hin : utxo.inputSum tx.inputs 0 with
  | error e =>
      rw [hin] at h
      cases h
  | ok sumIn =>
      cases hout : outputSumLoop tx.outputs 0 with
      | error e =>
          rw [hin, hout] at h
          cases h
      | ok sumOut =>
          rw [hin, hout] at h
          have hle : ¬ sumIn < sumOut := by
            intro hlt
            change (if sumIn < sumOut then _ else _) = _ at h
            rw [if_pos hlt] at h
            cases h
          rw [UInt64.lt_iff_toNat_lt, not_lt, inputSum_toNat hin,
            outputSumLoop_eq_ok_iff.mp hout, UInt64.toNat_zero, Nat.zero_add, Nat.zero_add] at hle
          exact hle

end UtxoSet

/-! ## Views that agree on what is spent -/

/-- A patch keeps two views equal at a key. -/
theorem UtxoSet.applyTransaction_congr {view view' : UtxoSet} {outpoint : OutPoint}
    (h : view.lookup outpoint = view'.lookup outpoint) (tx : Transaction) :
    (view.applyTransaction tx).lookup outpoint = (view'.applyTransaction tx).lookup outpoint := by
  by_cases hwrite : outpoint ∈ tx.patch.writes.map Prod.fst
  · exact HashMap.lookup_insertAll_eq _ _ _ hwrite
  · simp only [UtxoSet.applyTransaction, Patch.lookup_apply_of_notMem _ _ hwrite, h]

omit [Crypto] in
theorem UtxoSet.inputSum_congr {view view' : UtxoSet} {inputs : List TxInput}
    (h : ∀ input ∈ inputs, view.lookup input.outPoint = view'.lookup input.outPoint)
    (sum : UInt64) : view.inputSum inputs sum = view'.inputSum inputs sum := by
  induction inputs generalizing sum with
  | nil => rfl
  | cons input rest ih =>
      have hrest := ih fun other hother ↦ h other (List.mem_cons_of_mem _ hother)
      simp only [UtxoSet.inputSum, UtxoSet.getValue, h input List.mem_cons_self]
      cases (view'.lookup input.outPoint).map UtxoEntry.value with
      | none => rfl
      | some value =>
          simp only
          cases checkedAddU64 sum value with
          | none => rfl
          | some total => exact hrest total

omit [Crypto] in
theorem Chain.prevScripts_congr {view view' : UtxoSet} {inputs : List TxInput}
    (h : ∀ input ∈ inputs, view.lookup input.outPoint = view'.lookup input.outPoint) :
    Chain.prevScripts view inputs = Chain.prevScripts view' inputs := by
  induction inputs with
  | nil => rfl
  | cons input rest ih =>
      simp only [Chain.prevScripts, h input List.mem_cons_self,
        ih fun other hother ↦ h other (List.mem_cons_of_mem _ hother)]

namespace Transaction

/-- Every spent script that is not empty accepts. -/
def ScriptsPass (tx : Transaction) (view : UtxoSet) : Prop :=
  ∃ scripts, Chain.prevScripts view tx.inputs = .ok scripts ∧
    Chain.verifyInputs tx scripts 0 (tx.inputs.zip scripts) = .ok ()

/-- The transaction is valid on the view; the scripts of a coinbase are not run. -/
def ValidOn (tx : Transaction) (view : UtxoSet) : Prop :=
  view.validateTransaction tx = .ok () ∧ (tx.isCoinbase = false → tx.ScriptsPass view)

/-- What is spent has to be the same on both views. -/
theorem ValidOn.congr {tx : Transaction} {view view' : UtxoSet} (h : tx.ValidOn view)
    (hview : ∀ outpoint ∈ tx.spentOutPoints, view.lookup outpoint = view'.lookup outpoint) :
    tx.ValidOn view' := by
  obtain ⟨hvalid, hscripts⟩ := h
  cases hcoinbase : tx.isCoinbase with
  | true =>
      refine ⟨?_, fun hnot ↦ absurd (hcoinbase.symm.trans hnot) (by simp)⟩
      simp only [UtxoSet.validateTransaction, hcoinbase, if_true] at hvalid ⊢
      exact hvalid
  | false =>
      have hinputs : ∀ input ∈ tx.inputs,
          view.lookup input.outPoint = view'.lookup input.outPoint := by
        intro input hinput
        apply hview
        simp only [spentOutPoints, hcoinbase]
        exact List.mem_map_of_mem hinput
      constructor
      · simp only [UtxoSet.validateTransaction, UtxoSet.inputSum_congr hinputs] at hvalid ⊢
        exact hvalid
      · intro hnot
        obtain ⟨scripts, hread, hverify⟩ := hscripts hnot
        exact ⟨scripts, Chain.prevScripts_congr hinputs ▸ hread, hverify⟩

/-- Every transaction of the list is valid on the view that those before it leave. -/
def AllValidOn : List Transaction → UtxoSet → Prop
  | [], _ => True
  | tx :: rest, view => tx.ValidOn view ∧ AllValidOn rest (view.applyTransaction tx)

theorem AllValidOn.append_iff {txs txs' : List Transaction} {view : UtxoSet} :
    AllValidOn (txs ++ txs') view ↔
      AllValidOn txs view ∧ AllValidOn txs' (view.applyTransactions txs) := by
  induction txs generalizing view with
  | nil => simp [AllValidOn, UtxoSet.applyTransactions]
  | cons tx rest ih =>
      simp only [List.cons_append, AllValidOn, ih, and_assoc]
      rfl

/-- The outpoints that the transactions spend and that none before the spender creates. -/
def takenOutPoints : List Transaction → List OutPoint
  | [] => []
  | tx :: rest =>
      tx.spentOutPoints ++ (takenOutPoints rest).filter fun outpoint ↦
        outpoint ∉ tx.patch.writes.map Prod.fst

theorem takenOutPoints_subset (txs : List Transaction) :
    takenOutPoints txs ⊆ txs.flatMap spentOutPoints := by
  induction txs with
  | nil => exact List.Subset.refl _
  | cons tx rest ih =>
      intro outpoint htaken
      rw [List.flatMap_cons]
      rcases List.mem_append.mp htaken with hspent | hrest
      · exact List.mem_append_left _ hspent
      · exact List.mem_append_right _ (ih (List.mem_filter.mp hrest).1)

/-- Views that agree on what a list takes still do so after its first transaction. -/
theorem lookup_applyTransaction_taken {tx : Transaction} {rest : List Transaction}
    {view view' : UtxoSet}
    (hview : ∀ outpoint ∈ takenOutPoints (tx :: rest),
      view.lookup outpoint = view'.lookup outpoint) :
    ∀ outpoint ∈ takenOutPoints rest,
      (view.applyTransaction tx).lookup outpoint = (view'.applyTransaction tx).lookup outpoint := by
  intro outpoint htaken
  by_cases hwrite : outpoint ∈ tx.patch.writes.map Prod.fst
  · exact HashMap.lookup_insertAll_eq _ _ _ hwrite
  · apply UtxoSet.applyTransaction_congr
    apply hview
    exact List.mem_append_right _ (List.mem_filter.mpr ⟨htaken, decide_eq_true hwrite⟩)

/-- Only what the transactions take has to be the same on both views. -/
theorem AllValidOn.congr_taken {txs : List Transaction} {view view' : UtxoSet}
    (h : AllValidOn txs view)
    (hview : ∀ outpoint ∈ takenOutPoints txs, view.lookup outpoint = view'.lookup outpoint) :
    AllValidOn txs view' := by
  induction txs generalizing view view' with
  | nil => trivial
  | cons tx rest ih =>
      refine ⟨h.1.congr fun outpoint hspent ↦ ?_, ih h.2 (lookup_applyTransaction_taken hview)⟩
      exact hview outpoint (List.mem_append_left _ hspent)

theorem AllValidOn.congr {txs : List Transaction} {view view' : UtxoSet} (h : AllValidOn txs view)
    (hview : ∀ outpoint ∈ txs.flatMap spentOutPoints,
      view.lookup outpoint = view'.lookup outpoint) : AllValidOn txs view' :=
  h.congr_taken fun outpoint htaken ↦ hview outpoint (takenOutPoints_subset txs htaken)

end Transaction

/-! ## The loop over the transactions -/

namespace Chain

omit [Crypto] in
/-- The loop collects the outpoints unless one comes twice. -/
theorem spendOnce_ok_iff {inputs : List TxInput} {spent spent' : List OutPoint} :
    spendOnce inputs spent = .ok spent' ↔
      (inputs.map TxInput.outPoint).Nodup ∧
        (∀ outpoint ∈ inputs.map TxInput.outPoint, outpoint ∉ spent) ∧
          spent' = (inputs.map TxInput.outPoint).reverse ++ spent := by
  induction inputs generalizing spent with
  | nil =>
      simp only [spendOnce, Except.ok.injEq, List.map_nil, List.nodup_nil, List.reverse_nil,
        List.nil_append, true_and]
      constructor
      · rintro rfl
        exact ⟨by simp, rfl⟩
      · rintro ⟨-, rfl⟩
        rfl
  | cons input rest ih =>
      unfold spendOnce
      split
      · rename_i hmem
        constructor
        · intro h
          cases h
        · rintro ⟨-, hnew, -⟩
          exact (hnew input.outPoint (by simp) hmem).elim
      · rename_i hmem
        rw [ih]
        simp only [List.map_cons, List.nodup_cons, List.mem_cons, forall_eq_or_imp,
          List.reverse_cons, List.append_assoc, List.singleton_append, not_or]
        constructor
        · rintro ⟨hnodup, hnew, rfl⟩
          exact ⟨⟨fun hin ↦ (hnew _ hin).1 rfl, hnodup⟩, ⟨hmem, fun o ho ↦ (hnew o ho).2⟩, rfl⟩
        · rintro ⟨⟨hfirst, hnodup⟩, ⟨-, hnew⟩, rfl⟩
          exact ⟨hnodup, fun o ho ↦ ⟨fun heq ↦ hfirst (heq ▸ ho), hnew o ho⟩, rfl⟩

/-- One turn of the loop. -/
theorem validateBlockTransaction_ok_iff {tx : Transaction} {view : UtxoSet}
    {spent spent' : List OutPoint} :
    validateBlockTransaction tx view spent = .ok spent' ↔
      tx.spentOutPoints.Nodup ∧ (∀ outpoint ∈ tx.spentOutPoints, outpoint ∉ spent) ∧
        tx.ValidOn view ∧ spent' = tx.spentOutPoints.reverse ++ spent := by
  unfold validateBlockTransaction Transaction.ValidOn Transaction.spentOutPoints
  cases hcoinbase : tx.isCoinbase with
  | true =>
      cases view.validateTransaction tx with
      | error e => simp
      | ok _ => simp [eq_comm]
  | false =>
      simp only [Bool.false_eq_true, if_false]
      cases honce : spendOnce tx.inputs spent with
      | error e =>
          simp only [reduceCtorEq, false_iff]
          rintro ⟨hnodup, hnew, -, -⟩
          rw [spendOnce_ok_iff.mpr ⟨hnodup, hnew, rfl⟩] at honce
          cases honce
      | ok collected =>
          obtain ⟨hnodup, hnew, rfl⟩ := spendOnce_ok_iff.mp honce
          cases view.validateTransaction tx with
          | error e => simp
          | ok _ =>
              simp only [Transaction.ScriptsPass]
              cases prevScripts view tx.inputs with
              | error e => simp
              | ok scripts =>
                  simp only [Except.ok.injEq, exists_eq_left', true_and, true_imp_iff]
                  cases verifyInputs tx scripts 0 (tx.inputs.zip scripts) with
                  | error e => simp
                  | ok _ =>
                      simp only [Except.ok.injEq, true_and]
                      exact ⟨fun heq ↦ ⟨hnodup, hnew, heq.symm⟩, fun h ↦ h.2.2.symm⟩

theorem validateBlockTransactionsLoop_ok_iff {txs : List Transaction} {view : UtxoSet}
    {spent : List OutPoint} :
    validateBlockTransactionsLoop txs view spent = .ok () ↔
      (txs.flatMap Transaction.spentOutPoints).Nodup ∧
        (∀ outpoint ∈ txs.flatMap Transaction.spentOutPoints, outpoint ∉ spent) ∧
          Transaction.AllValidOn txs view := by
  induction txs generalizing view spent with
  | nil => simp [validateBlockTransactionsLoop, Transaction.AllValidOn]
  | cons tx rest ih =>
      simp only [validateBlockTransactionsLoop, List.flatMap_cons, List.nodup_append,
        List.mem_append, Transaction.AllValidOn]
      cases hturn : validateBlockTransaction tx view spent with
      | error e =>
          simp only [reduceCtorEq, false_iff]
          rintro ⟨⟨hnodup, -, -⟩, hnew, hvalid, -⟩
          rw [validateBlockTransaction_ok_iff.mpr
            ⟨hnodup, fun o ho ↦ hnew o (Or.inl ho), hvalid, rfl⟩] at hturn
          cases hturn
      | ok spent' =>
          obtain ⟨hnodup, hnew, hvalid, rfl⟩ := validateBlockTransaction_ok_iff.mp hturn
          simp only [ih, List.mem_append, List.mem_reverse, not_or]
          constructor
          · rintro ⟨hrest, hapart, hall⟩
            refine ⟨⟨hnodup, hrest, ?_⟩, ?_, hvalid, hall⟩
            · rintro o ho o' ho' rfl
              exact (hapart o ho').1 ho
            · rintro o (ho | ho)
              · exact hnew o ho
              · exact (hapart o ho).2
          · rintro ⟨⟨-, hrest, hapart⟩, hall, -, hvalidRest⟩
            refine ⟨hrest, fun o ho ↦ ⟨fun hfirst ↦ hapart o hfirst o ho rfl, ?_⟩, hvalidRest⟩
            exact hall o (Or.inr ho)

/-- The transaction checks of a block pass exactly when no outpoint is spent twice and the
transactions are valid one after the other. -/
theorem validateBlockTransactionsForUtxo_ok_iff {block : Block} {utxo : UtxoSet} :
    validateBlockTransactionsForUtxo block utxo = .ok () ↔
      (block.transactions.flatMap Transaction.spentOutPoints).Nodup ∧
        Transaction.AllValidOn block.transactions utxo := by
  apply validateBlockTransactionsLoop_ok_iff.trans
  simp

omit [Crypto] in
/-- The limits that a block is checked against. -/
theorem validateBlockLimits_ok_iff {block : Block} :
    validateBlockLimits block = .ok () ↔
      block.serializedSize ≤ maxBlockSerializedSize ∧
        block.transactions.length ≤ maxTransactionsPerBlock ∧
          ∀ tx ∈ block.transactions,
            (∀ input ∈ tx.inputs, input.scriptSig.length ≤ maxScriptSize) ∧
              ∀ output ∈ tx.outputs, output.scriptPubkey.length ≤ maxScriptSize := by
  unfold validateBlockLimits
  split
  · rename_i hsize
    simp only [reduceCtorEq, false_iff, not_and]
    omega
  · rename_i hsize
    split
    · rename_i hcount
      simp only [reduceCtorEq, false_iff, not_and]
      omega
    · rename_i hcount
      rw [not_lt] at hsize hcount
      split
      · rename_i hscripts
        simp only [hsize, hcount, true_and, reduceCtorEq, false_iff, not_forall]
        simp only [List.any_eq_true, Bool.or_eq_true, decide_eq_true_eq] at hscripts
        obtain ⟨tx, htx, hlong⟩ := hscripts
        refine ⟨tx, htx, ?_⟩
        rintro ⟨hinputs, houtputs⟩
        rcases hlong with ⟨input, hinput, hlong⟩ | ⟨output, houtput, hlong⟩
        · exact absurd (hinputs input hinput) (not_le.mpr hlong)
        · exact absurd (houtputs output houtput) (not_le.mpr hlong)
      · rename_i hscripts
        simp only [hsize, hcount, true_and, true_iff]
        simp only [List.any_eq_true, Bool.or_eq_true, decide_eq_true_eq, not_exists, not_and,
          not_or, not_lt] at hscripts
        exact hscripts

omit [Crypto] in
/-- No transaction of a block within the limits is larger than a block may be. -/
theorem serializedSize_le_of_limits {block : Block} (hlimits : validateBlockLimits block = .ok ())
    {tx : Transaction} (htx : tx ∈ block.transactions) :
    tx.serializedSize ≤ maxBlockSerializedSize := by
  have hsize := (validateBlockLimits_ok_iff.mp hlimits).1
  have htxSize : tx.serializedSize ≤ (block.transactions.map Transaction.serializedSize).sum :=
    List.le_sum_of_mem (List.mem_map_of_mem htx)
  rw [Block.serializedSize] at hsize
  omega

end Chain

end Bitrst
