import Bitrst.Support.Transition
import Mathlib.Data.Nat.Init

/-!
# What a system can reach

`Reaches step A s t` says that steps with labels in `A` lead from `s` to
`t`.  A goal is reached when, short of it, an invariant always leaves a way to
a state of lower rank.
-/

namespace Support

variable {σ ℓ : Type*} {step : σ → ℓ → Option σ}

theorem execute_append {s t : σ} {labels : List ℓ} (h : execute step s labels = some t)
    (more : List ℓ) : execute step s (labels ++ more) = execute step t more := by
  induction labels generalizing s with
  | nil =>
      obtain rfl := Option.some.inj h
      rfl
  | cons label labels ih =>
      obtain ⟨next, hnext, hrest⟩ := Option.bind_eq_some_iff.mp h
      rw [List.cons_append, execute, hnext, Option.bind_some, ih hrest]

variable (step) in
def Reaches (A : ℓ → Prop) (s t : σ) : Prop :=
  ∃ labels, (∀ label ∈ labels, A label) ∧ execute step s labels = some t

namespace Reaches

variable {A : ℓ → Prop} {s t u : σ}

theorem refl (s : σ) : Reaches step A s s := ⟨[], (fun _ h ↦ nomatch h), rfl⟩

theorem single {label : ℓ} (hallowed : A label) (h : step s label = some t) :
    Reaches step A s t := by
  refine ⟨[label], fun other hother ↦ ?_, ?_⟩
  · rwa [List.mem_singleton.mp hother]
  · rw [execute, h]
    rfl

theorem trans (h : Reaches step A s t) (hnext : Reaches step A t u) :
    Reaches step A s u := by
  obtain ⟨labels, hlabels, hrun⟩ := h
  obtain ⟨more, hmore, hrest⟩ := hnext
  refine ⟨labels ++ more, fun label hlabel ↦ ?_, (execute_append hrun more).trans hrest⟩
  exact (List.mem_append.mp hlabel).elim (hlabels label) (hmore label)

/-- What every step with such a label keeps holds wherever they lead. -/
theorem invariant {I : σ → Prop}
    (hstep : ∀ s label s', I s → A label → step s label = some s' → I s')
    (h : Reaches step A s t) (hs : I s) : I t := by
  obtain ⟨labels, hlabels, hrun⟩ := h
  induction labels generalizing s with
  | nil =>
      obtain rfl := Option.some.inj hrun
      exact hs
  | cons label labels ih =>
      obtain ⟨next, hnext, hrest⟩ := Option.bind_eq_some_iff.mp hrun
      exact ih (hstep s label next hs (hlabels _ List.mem_cons_self) hnext)
        (fun other hother ↦ hlabels other (List.mem_cons_of_mem _ hother)) hrest

/-- An invariant that never leaves a run without a way down leads to the goal. -/
theorem descend {I G : σ → Prop} (rank : σ → ℕ)
    (hdown : ∀ s, I s → ¬ G s → ∃ t, Reaches step A s t ∧ I t ∧ rank t < rank s)
    (hs : I s) : ∃ t, Reaches step A s t ∧ I t ∧ G t := by
  induction hrank : rank s using Nat.strong_induction_on generalizing s with
  | _ bound ih =>
      by_cases hgoal : G s
      · exact ⟨s, refl s, hs, hgoal⟩
      · obtain ⟨t, hst, ht, hlt⟩ := hdown s hs hgoal
        obtain ⟨u, htu, hu, hgoal⟩ := ih (rank t) (hrank ▸ hlt) ht rfl
        exact ⟨u, hst.trans htu, hu, hgoal⟩

end Reaches

/-- Where every step lowers a rank by one and none is left at the bottom, a run is at the rank
that its length leaves. -/
theorem execute_ranked {I : ℕ → σ → Prop}
    (hstep : ∀ n s label t, I (n + 1) s → step s label = some t → I n t)
    (hstop : ∀ s label, I 0 s → step s label = none) {n : ℕ} {s t : σ} {labels : List ℓ}
    (hs : I n s) (h : execute step s labels = some t) : ∃ k, labels.length + k = n ∧ I k t := by
  induction labels generalizing s n with
  | nil =>
      obtain rfl := Option.some.inj h
      exact ⟨n, Nat.zero_add n, hs⟩
  | cons label labels ih =>
      obtain ⟨next, hnext, hrest⟩ := Option.bind_eq_some_iff.mp h
      cases n with
      | zero =>
          rw [hstop s label hs] at hnext
          cases hnext
      | succ n =>
          obtain ⟨k, hlength, hreached⟩ := ih (hstep n s label next hs hnext) hrest
          exact ⟨k, by rw [List.length_cons]; omega, hreached⟩

/-- Where every step lowers a rank, a run is no longer than the rank it starts from. -/
theorem execute_falls {I : ℕ → σ → Prop}
    (hstep : ∀ n s label t, I n s → step s label = some t → ∃ m < n, I m t) {n : ℕ} {s t : σ}
    {labels : List ℓ} (hs : I n s) (h : execute step s labels = some t) :
    ∃ m, labels.length + m ≤ n ∧ I m t := by
  induction labels generalizing s n with
  | nil =>
      obtain rfl := Option.some.inj h
      exact ⟨n, Nat.le_of_eq (Nat.zero_add n), hs⟩
  | cons label labels ih =>
      obtain ⟨next, hnext, hrest⟩ := Option.bind_eq_some_iff.mp h
      obtain ⟨m, hlt, hm⟩ := hstep n s label next hs hnext
      obtain ⟨k, hlength, hk⟩ := ih hm hrest
      exact ⟨k, by rw [List.length_cons]; omega, hk⟩

end Support
