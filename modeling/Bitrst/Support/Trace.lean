import Bitrst.Support.Transition
import Mathlib.Order.Nat

/-!
# Infinite runs

A trace is a run that never ends, though it may stand still at any time.  Work
that nothing undoes is done in the end on a trace on which it is always taken
up again.
-/

namespace Support

variable {σ ℓ : Type*} {step : σ → ℓ → Option σ}

structure Trace (step : σ → ℓ → Option σ) where
  state : ℕ → σ
  label : ℕ → Option ℓ
  next : ∀ n, (label n = none ∧ state (n + 1) = state n) ∨
    ∃ action, label n = some action ∧ step (state n) action = some (state (n + 1))

namespace Trace

theorem step_eq (trace : Trace step) {n : ℕ} {action : ℓ} (h : trace.label n = some action) :
    step (trace.state n) action = some (trace.state (n + 1)) := by
  rcases trace.next n with ⟨hnone, -⟩ | ⟨other, hother, hstep⟩
  · cases hnone.symm.trans h
  · obtain rfl := Option.some.inj (h.symm.trans hother)
    exact hstep

theorem state_eq (trace : Trace step) {n : ℕ} (h : trace.label n = none) :
    trace.state (n + 1) = trace.state n := by
  rcases trace.next n with ⟨-, hsame⟩ | ⟨action, haction, -⟩
  · exact hsame
  · cases h.symm.trans haction

end Trace

theorem execute_take_succ {s t : σ} {labels : List ℓ} (h : execute step s labels = some t)
    {n : ℕ} (hn : n < labels.length) : ∃ before after,
      execute step s (labels.take n) = some before ∧ step before labels[n] = some after ∧
        execute step s (labels.take (n + 1)) = some after := by
  induction labels generalizing s n with
  | nil => exact (Nat.not_lt_zero n hn).elim
  | cons label labels ih =>
      obtain ⟨next, hnext, hrest⟩ := Option.bind_eq_some_iff.mp h
      cases n with
      | zero =>
          refine ⟨s, next, rfl, hnext, ?_⟩
          rw [List.take_succ_cons, List.take_zero, execute, hnext]
          rfl
      | succ n =>
          obtain ⟨before, after, hbefore, hstep, hafter⟩ := ih hrest (Nat.lt_of_succ_lt_succ hn)
          refine ⟨before, after, ?_, hstep, ?_⟩
          · rw [List.take_succ_cons, execute, hnext]
            exact hbefore
          · rw [List.take_succ_cons, execute, hnext]
            exact hafter

/-- The steps of a list, and then none any more. -/
def Trace.ofExecution {s t : σ} {labels : List ℓ} (h : execute step s labels = some t) :
    Trace step where
  state n := (execute step s (labels.take n)).getD t
  label n := labels[n]?
  next n := by
    by_cases hn : n < labels.length
    · obtain ⟨before, after, hbefore, hstep, hafter⟩ := execute_take_succ h hn
      refine .inr ⟨labels[n], List.getElem?_eq_getElem hn, ?_⟩
      rw [hbefore, hafter]
      exact hstep
    · have hle := Nat.le_of_not_lt hn
      refine .inl ⟨List.getElem?_eq_none hle, ?_⟩
      rw [List.take_of_length_le hle, List.take_of_length_le (hle.trans (Nat.le_succ n))]

namespace Trace

variable {s t : σ} {labels : List ℓ}

theorem ofExecution_done (h : execute step s labels = some t) {n : ℕ} (hn : labels.length ≤ n) :
    (ofExecution h).state n = t := by
  simp only [ofExecution, List.take_of_length_le hn, h, Option.getD_some]

/-- What the steps of the list meet, the steps of its trace meet. -/
theorem ofExecution_along (h : execute step s labels = some t) {cond : σ → ℓ → Prop}
    (halong : Along step cond s labels) {n : ℕ} {action : ℓ}
    (haction : (ofExecution h).label n = some action) :
    cond ((ofExecution h).state n) action := by
  induction labels generalizing s n with
  | nil => cases haction
  | cons label labels ih =>
      obtain ⟨next, hnext, hrest⟩ := Option.bind_eq_some_iff.mp h
      obtain ⟨hcond, halong⟩ := halong next hnext
      cases n with
      | zero =>
          obtain rfl := Option.some.inj haction
          exact hcond
      | succ n =>
          have hstate : (ofExecution h).state (n + 1) = (ofExecution hrest).state n := by
            simp only [ofExecution, List.take_succ_cons, execute, hnext, Option.bind_some]
          rw [hstate]
          exact ih hrest halong haction

end Trace

/-- Work that is never undone, and is taken up again and again, comes to its end. -/
theorem exists_not_of_measure (busy : ℕ → Prop) (left : ℕ → ℕ)
    (hkeep : ∀ n, busy n → busy (n + 1) → left (n + 1) ≤ left n)
    (hwork : ∀ n, busy n → ∃ m, n ≤ m ∧ (busy m → busy (m + 1) → left (m + 1) < left m))
    (n : ℕ) : ∃ m, n ≤ m ∧ ¬ busy m := by
  by_contra hnever
  have hbusy : ∀ m, n ≤ m → busy m := by
    intro m hle
    by_contra hidle
    exact hnever ⟨m, hle, hidle⟩
  have hmono : ∀ m k, n ≤ m → left (m + k) ≤ left m := by
    intro m k hle
    induction k with
    | zero => exact le_rfl
    | succ k ih =>
        have hreach := hle.trans (Nat.le_add_right m k)
        exact (hkeep (m + k) (hbusy _ hreach) (hbusy _ (hreach.trans (Nat.le_succ _)))).trans ih
  -- what is left would grow smaller without end
  have hsmaller : ∀ bound m, n ≤ m → bound ≤ left m := by
    intro bound
    induction bound with
    | zero => exact fun _ _ ↦ Nat.zero_le _
    | succ bound ih =>
        intro m hle
        obtain ⟨later, hlater, hdone⟩ := hwork m (hbusy m hle)
        obtain ⟨k, rfl⟩ := Nat.exists_eq_add_of_le hlater
        have hreach := hle.trans hlater
        have hless := hdone (hbusy _ hreach) (hbusy _ (hreach.trans (Nat.le_succ _)))
        have hbound := ih (m + k + 1) (hreach.trans (Nat.le_succ _))
        exact (Nat.succ_le_of_lt (hbound.trans_lt hless)).trans (hmono m k hle)
  exact Nat.not_succ_le_self _ (hsmaller (left n + 1) n le_rfl)

end Support
