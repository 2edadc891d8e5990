import Mathlib.Data.List.Basic
import Mathlib.Order.MinMax

/-!
# Bounded journals

A journal keeps the last items of a stream, at most `capacity` of them.  A
derived journal keeps the last images of some of the items, with the positions
of the items: as long as the first journal covers the positions after a mark,
so does the derived one.
-/

namespace Support

variable {α β : Type*}

/-- What stands at a position of a stream that got one more item. -/
theorem getElem?_concat_cases {stream : List α} {x y : α} {i : ℕ}
    (h : (stream ++ [x])[i]? = some y) :
    stream[i]? = some y ∨ i = stream.length ∧ y = x := by
  rcases lt_trichotomy i stream.length with hi | rfl | hi
  · exact .inl (by rwa [List.getElem?_append_left hi] at h)
  · rw [List.getElem?_concat_length] at h
    exact .inr ⟨rfl, (Option.some.inj h).symm⟩
  · rw [List.getElem?_eq_none (by rw [List.length_append, List.length_singleton]; omega)] at h
    cases h

/-! ## Numbered streams -/

/-- The images of a stream, each with the position of its item, from `n` on. -/
def numbered (f : α → Option β) : ℕ → List α → List (β × ℕ)
  | _, [] => []
  | n, x :: rest =>
      match f x with
      | some y => (y, n) :: numbered f (n + 1) rest
      | none => numbered f (n + 1) rest

variable {f : α → Option β}

theorem numbered_cons (n : ℕ) (x : α) (rest : List α) : numbered f n (x :: rest) =
    match f x with
    | some y => (y, n) :: numbered f (n + 1) rest
    | none => numbered f (n + 1) rest := rfl

theorem numbered_append (n : ℕ) (stream rest : List α) :
    numbered f n (stream ++ rest) = numbered f n stream ++ numbered f (n + stream.length) rest := by
  induction stream generalizing n with
  | nil => rfl
  | cons x stream ih =>
      have hnext : n + (x :: stream).length = n + 1 + stream.length := by
        rw [List.length_cons]
        omega
      rw [List.cons_append, numbered_cons, numbered_cons, hnext, ih]
      cases f x <;> rfl

theorem numbered_snd {n : ℕ} {stream : List α} {item : β × ℕ} (h : item ∈ numbered f n stream) :
    n ≤ item.2 ∧ item.2 < n + stream.length := by
  induction stream generalizing n with
  | nil => cases h
  | cons x stream ih =>
      rw [numbered_cons] at h
      rw [List.length_cons]
      cases hx : f x with
      | none =>
          rw [hx] at h
          have := ih h
          omega
      | some y =>
          rw [hx] at h
          rcases List.mem_cons.mp h with rfl | h
          · omega
          · have := ih h
            omega

theorem numbered_pairwise (n : ℕ) (stream : List α) :
    (numbered f n stream).Pairwise fun item item' ↦ item.2 < item'.2 := by
  induction stream generalizing n with
  | nil => exact List.Pairwise.nil
  | cons x stream ih =>
      rw [numbered_cons]
      cases f x with
      | none => exact ih _
      | some y => exact List.Pairwise.cons (fun _ h ↦ (numbered_snd h).1) (ih _)

/-- The images stand at the positions of their items. -/
theorem mem_numbered_of_some {n m : ℕ} {stream : List α} {x : α} {y : β}
    (hmem : (x, m) ∈ numbered some n stream) (hx : f x = some y) :
    (y, m) ∈ numbered f n stream := by
  induction stream generalizing n with
  | nil => cases hmem
  | cons first stream ih =>
      rw [numbered_cons]
      rcases List.mem_cons.mp hmem with heq | hrest
      · obtain ⟨rfl, rfl⟩ := Prod.mk.inj heq
        simp only [hx]
        exact List.mem_cons_self
      · cases f first with
        | none => exact ih hrest
        | some _ => exact List.mem_cons_of_mem _ (ih hrest)

theorem numbered_length_le (n : ℕ) (stream : List α) :
    (numbered f n stream).length ≤ stream.length := by
  induction stream generalizing n with
  | nil => exact Nat.le_refl _
  | cons x stream ih =>
      rw [numbered_cons, List.length_cons]
      cases f x with
      | none => exact Nat.le_succ_of_le (ih _)
      | some y => exact Nat.succ_le_succ (ih _)

theorem numbered_some_length (n : ℕ) (stream : List α) :
    (numbered some n stream).length = stream.length := by
  induction stream generalizing n with
  | nil => rfl
  | cons x stream ih => exact congrArg _ (ih _)

/-- The images after the position `mark` are those of the items after it. -/
theorem filter_numbered (mark n : ℕ) (stream : List α) :
    ((numbered f n stream).filter fun item ↦ decide (mark < item.2)) =
      numbered f (max n (mark + 1)) (stream.drop (mark + 1 - n)) := by
  induction stream generalizing n with
  | nil =>
      rw [List.drop_nil]
      rfl
  | cons x stream ih =>
      by_cases hmark : mark < n
      · have hdrop : mark + 1 - n = 0 := by omega
        have hmax : max n (mark + 1) = n := by omega
        rw [hdrop, hmax, List.drop_zero]
        refine List.filter_eq_self.mpr fun item hitem ↦ ?_
        have := numbered_snd hitem
        exact decide_eq_true (by omega)
      · have hdrop : mark + 1 - n = mark + 1 - (n + 1) + 1 := by omega
        have hmax : max n (mark + 1) = max (n + 1) (mark + 1) := by omega
        rw [hdrop, hmax, List.drop_succ_cons, ← ih, numbered_cons]
        cases f x with
        | none => rfl
        | some y => simp only [List.filter_cons, hmark, decide_false, Bool.false_eq_true, if_false]

theorem map_fst_numbered (n : ℕ) (stream : List α) :
    (numbered f n stream).map Prod.fst = stream.filterMap f := by
  induction stream generalizing n with
  | nil => rfl
  | cons x stream ih =>
      rw [numbered_cons, List.filterMap_cons]
      cases f x with
      | none => exact ih _
      | some y => exact congrArg _ (ih _)

/-! ## Keeping the last items -/

/-- The item is added behind the others; the first one makes place for it. -/
def keepLast (capacity : ℕ) (kept : List α) (item : α) : List α :=
  (if capacity ≤ kept.length then kept.drop 1 else kept) ++ [item]

/-- The kept items are the last ones of the stream; none was dropped before
there were `capacity` of them. -/
structure Retains (capacity : ℕ) (stream kept : List α) : Prop where
  length_le : kept.length ≤ capacity
  suffix : ∃ dropped, stream = dropped ++ kept ∧ (dropped ≠ [] → kept.length = capacity)

namespace Retains

variable {capacity : ℕ} {stream kept : List α}

theorem nil (capacity : ℕ) : Retains capacity ([] : List α) [] :=
  ⟨Nat.zero_le _, [], rfl, fun h ↦ (h rfl).elim⟩

theorem keepLast (h : Retains capacity stream kept) (hcapacity : 0 < capacity) (item : α) :
    Retains capacity (stream ++ [item]) (keepLast capacity kept item) := by
  obtain ⟨hlength, dropped, rfl, hfull⟩ := h
  unfold Support.keepLast
  split
  · rename_i hle
    cases kept with
    | nil => simp only [List.length_nil] at hle; omega
    | cons first kept =>
        simp only [List.length_cons] at hlength hle
        refine ⟨?_, dropped ++ [first], by simp, fun _ ↦ ?_⟩ <;>
          simp only [List.drop_succ_cons, List.drop_zero, List.length_append,
            List.length_singleton] <;> omega
  · rename_i hlt
    refine ⟨?_, dropped, by simp, fun hdropped ↦ ?_⟩
    · simp only [List.length_append, List.length_singleton]
      omega
    · exact (hlt (hfull hdropped ▸ Nat.le_refl _)).elim

theorem eq_nil (h : Retains capacity stream []) (hcapacity : 0 < capacity) : stream = [] := by
  obtain ⟨-, dropped, rfl, hfull⟩ := h
  by_contra hne
  rw [List.append_nil] at hne
  exact hcapacity.ne (hfull hne)

/-- The last item kept is the last one of the stream. -/
theorem last_position {kept : List (α × ℕ)} (h : Retains capacity (numbered some 1 stream) kept)
    (last : α × ℕ) (hlast : kept.getLast? = some last) : last.2 = stream.length := by
  obtain ⟨-, dropped, hsplit, -⟩ := h
  have hend : (numbered some 1 stream).getLast? = some last := by
    rw [hsplit, List.getLast?_append, hlast]
    rfl
  rcases List.eq_nil_or_concat' stream with rfl | ⟨front, x, rfl⟩
  · cases hend
  · rw [numbered_append, numbered, List.getLast?_append] at hend
    rw [← Option.some.inj hend, List.length_append, List.length_singleton, Nat.add_comm]
    rfl

/-- What a journal of the stream itself keeps, with the number of items dropped. -/
theorem kept_eq {kept : List (α × ℕ)} (h : Retains capacity (numbered some 1 stream) kept) :
    ∃ count, kept = numbered some (1 + count) (stream.drop count) ∧ count ≤ stream.length ∧
      (count ≠ 0 → kept.length = capacity) := by
  obtain ⟨-, dropped, hsplit, hfull⟩ := h
  have hlength : stream.length = dropped.length + kept.length := by
    rw [← numbered_some_length 1 stream, hsplit, List.length_append]
  have hle : dropped.length ≤ stream.length := by omega
  refine ⟨dropped.length, ?_, hle, fun hne ↦ hfull (List.ne_nil_of_length_pos (by omega))⟩
  have htake : (stream.take dropped.length).length = dropped.length := by
    rw [List.length_take, min_eq_left hle]
  have hparts := numbered_append (f := some) 1 (stream.take dropped.length)
    (stream.drop dropped.length)
  rw [List.take_append_drop, hsplit, htake] at hparts
  exact (List.append_inj hparts (by rw [numbered_some_length, htake])).2

/-- A journal whose first item is at most one after the mark has all items after
the mark, and there are at most `capacity` of them. -/
theorem after_mark {kept : List (α × ℕ)} {mark : ℕ}
    (h : Retains capacity (numbered some 1 stream) kept) (hcapacity : 0 < capacity)
    (hcovers : ∀ first ∈ kept.head?, first.2 ≤ mark + 1) :
    (kept.filter fun item ↦ decide (mark < item.2)).map Prod.fst = stream.drop mark ∧
      stream.length ≤ mark + capacity := by
  have hbound := h.length_le
  obtain ⟨count, rfl, hcount, hfull⟩ := h.kept_eq
  rw [numbered_some_length, List.length_drop] at hbound hfull
  have hmark : count ≤ mark := by
    by_cases hzero : count = 0
    · omega
    · have hlt : count < stream.length := by
        have := hfull hzero
        omega
      rw [List.drop_eq_getElem_cons hlt, numbered] at hcovers
      have := hcovers (stream[count], 1 + count) rfl
      omega
  refine ⟨?_, by omega⟩
  have hdrop : count + (mark + 1 - (1 + count)) = mark := by omega
  rw [filter_numbered, map_fst_numbered, List.filterMap_some, List.drop_drop, hdrop]

/-- As long as at most `capacity` items of the stream follow the mark, a
derived journal has the images of all of them, with their positions. -/
theorem derived_numbered {kept : List (β × ℕ)} {mark : ℕ}
    (h : Retains capacity (numbered f 1 stream) kept)
    (hlength : stream.length ≤ mark + capacity) :
    (kept.filter fun item ↦ decide (mark < item.2)) =
      numbered f (1 + mark) (stream.drop mark) := by
  obtain ⟨-, dropped, hsplit, hfull⟩ := h
  have hall := filter_numbered (f := f) mark 1 stream
  have hmax : max 1 (mark + 1) = 1 + mark := by omega
  rw [hmax, Nat.add_sub_cancel] at hall
  have hdropped : dropped.filter (fun item ↦ decide (mark < item.2)) = [] := by
    refine List.filter_eq_nil_iff.mpr fun item hitem hlate ↦ ?_
    -- Everything kept comes after a dropped item, which makes too many after the mark.
    have hlate : mark < item.2 := of_decide_eq_true hlate
    have hpairwise := numbered_pairwise (f := f) 1 stream
    rw [hsplit] at hpairwise
    have hkept : kept.filter (fun item ↦ decide (mark < item.2)) = kept :=
      List.filter_eq_self.mpr fun later hlater ↦
        decide_eq_true
          (hlate.trans ((List.pairwise_append.mp hpairwise).2.2 item hitem later hlater))
    have hmem : item ∈ dropped.filter (fun item ↦ decide (mark < item.2)) :=
      List.mem_filter.mpr ⟨hitem, decide_eq_true hlate⟩
    have hcount := congrArg List.length hall
    rw [hsplit, List.filter_append, List.length_append, hkept,
      hfull (List.ne_nil_of_mem hitem)] at hcount
    have hpos := List.length_pos_of_mem hmem
    have hfew := numbered_length_le (f := f) (1 + mark) (stream.drop mark)
    rw [List.length_drop] at hfew
    omega
  rwa [hsplit, List.filter_append, hdropped, List.nil_append] at hall

theorem derived_after_mark {kept : List (β × ℕ)} {mark : ℕ}
    (h : Retains capacity (numbered f 1 stream) kept)
    (hlength : stream.length ≤ mark + capacity) :
    (kept.filter fun item ↦ decide (mark < item.2)).map Prod.fst =
      (stream.drop mark).filterMap f := by
  rw [h.derived_numbered hlength, map_fst_numbered]

/-- Where a journal of the stream still has an item, a derived journal of the same capacity has
its image. -/
theorem derived_mem {kept : List (α × ℕ)} {derived : List (β × ℕ)}
    (h : Retains capacity (numbered some 1 stream) kept)
    (hderived : Retains capacity (numbered f 1 stream) derived) {x : α} {n : ℕ} {y : β}
    (hmem : (x, n) ∈ kept) (hx : f x = some y) : (y, n) ∈ derived := by
  have hbound := h.length_le
  obtain ⟨count, rfl, hcount, -⟩ := h.kept_eq
  rw [numbered_some_length, List.length_drop] at hbound
  have himage := mem_numbered_of_some hmem hx
  have hroom : stream.length ≤ count + capacity := by omega
  rw [← hderived.derived_numbered hroom] at himage
  exact List.mem_of_mem_filter himage

end Retains

end Support
