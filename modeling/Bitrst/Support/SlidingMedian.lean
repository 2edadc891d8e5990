import Mathlib.Data.List.Sort
import Mathlib.Order.BoundedOrder.Basic

/-!
# The median of a sliding window

The entry in the middle of the sorted list, the upper one where there are two.
It is at least a bound exactly when at most half of the list is below the bound,
so a window that takes in nothing below its median never lowers it.
-/

namespace Support

variable {α : Type*} [LinearOrder α]

/-- Position `i` of a sorted list is at least `x` exactly when no more than `i` entries are
below `x`. -/
theorem le_getElem_iff_countP_lt {l : List α} (hsorted : l.Pairwise (· ≤ ·)) {i : ℕ}
    (hi : i < l.length) (x : α) : x ≤ l[i] ↔ l.countP (fun y ↦ decide (y < x)) ≤ i := by
  induction l generalizing i with
  | nil => cases hi
  | cons first rest ih =>
      obtain ⟨hfirst, hrest⟩ := List.pairwise_cons.mp hsorted
      by_cases hlow : first < x
      · rw [List.countP_cons_of_pos (by simpa using hlow)]
        cases i with
        | zero =>
            simp only [List.getElem_cons_zero]
            exact iff_of_false (not_le.mpr hlow) (Nat.not_succ_le_zero _)
        | succ i =>
            rw [List.getElem_cons_succ, ih hrest (Nat.lt_of_succ_lt_succ hi)]
            exact (Nat.succ_le_succ_iff).symm
      · have hnone : rest.countP (fun y ↦ decide (y < x)) = 0 := by
          rw [List.countP_eq_zero]
          intro y hy
          simpa using (not_lt.mp hlow).trans (hfirst y hy)
        rw [List.countP_cons_of_neg (by simpa using hlow), hnone]
        refine iff_of_true ?_ (Nat.zero_le _)
        have hmem : (first :: rest)[i] ∈ first :: rest := List.getElem_mem hi
        rcases List.mem_cons.mp hmem with heq | hmem
        · rw [heq]
          exact not_lt.mp hlow
        · exact (not_lt.mp hlow).trans (hfirst _ hmem)

variable [OrderBot α]

/-- The upper median, the bottom element for the empty list. -/
def upperMedian (l : List α) : α :=
  (l.insertionSort (· ≤ ·)).getD (l.length / 2) ⊥

theorem le_upperMedian_iff {l : List α} (hne : l ≠ []) (x : α) :
    x ≤ upperMedian l ↔ l.countP (fun y ↦ decide (y < x)) ≤ l.length / 2 := by
  have hpos := List.length_pos_iff.mpr hne
  have hi : l.length / 2 < (l.insertionSort (· ≤ ·)).length := by
    rw [List.length_insertionSort]
    omega
  rw [upperMedian, ← List.getElem_eq_getD (h := hi),
    le_getElem_iff_countP_lt (List.pairwise_insertionSort _ l) hi,
    (List.perm_insertionSort _ l).countP_eq]

/-- A window that slides on to an entry not below its median keeps the median or raises it. -/
theorem upperMedian_take_le {width : ℕ} (hwidth : 0 < width) {l : List α} {x : α}
    (hx : upperMedian (l.take width) ≤ x) :
    upperMedian (l.take width) ≤ upperMedian ((x :: l).take width) := by
  obtain ⟨rest, rfl⟩ := Nat.exists_eq_succ_of_ne_zero hwidth.ne'
  cases hl : l with
  | nil => exact bot_le
  | cons first below =>
      rw [← hl]
      have hold := (le_upperMedian_iff (l := l.take (rest + 1)) (by simp [hl]) _).mp le_rfl
      generalize upperMedian (l.take (rest + 1)) = median at hx hold ⊢
      have hfewer : (l.take rest).countP (fun y ↦ decide (y < median)) ≤
          (l.take (rest + 1)).countP (fun y ↦ decide (y < median)) :=
        (List.take_sublist_take_left (Nat.le_succ rest)).countP_le
      rw [le_upperMedian_iff (by simp), List.take_succ_cons,
        List.countP_cons_of_neg (by simpa using hx)]
      refine hfewer.trans (hold.trans (Nat.div_le_div_right ?_))
      rw [List.length_cons, List.length_take, List.length_take]
      omega

end Support
