import Mathlib.Data.Nat.Notation
import Mathlib.Data.Option.Basic

/-!
# Runs of a labelled transition system

A system is a partial step function on states and labels.  A run is given by
the labels of its steps.  `Along` asks a condition of every step that a run
takes, and `Throughout` a property of every state that it visits.
-/

namespace Support

variable {σ ℓ : Type*} (step : σ → ℓ → Option σ)

/-- The state after a list of steps, when each of them can be taken. -/
def execute (s : σ) : List ℓ → Option σ
  | [] => some s
  | label :: labels => (step s label).bind fun s' ↦ execute s' labels

/-- Every step that is taken is taken in a state where `cond` allows it. -/
def Along (cond : σ → ℓ → Prop) (s : σ) : List ℓ → Prop
  | [] => True
  | label :: labels => ∀ s', step s label = some s' → cond s label ∧ Along cond s' labels

/-- Every state that the steps lead through has the property. -/
def Throughout (P : σ → Prop) (s : σ) : List ℓ → Prop
  | [] => P s
  | label :: labels => P s ∧ ∀ s', step s label = some s' → Throughout P s' labels

variable {step}

theorem along_cons {cond : σ → ℓ → Prop} {s s' : σ} {label : ℓ} (h : step s label = some s')
    (labels : List ℓ) :
    Along step cond s (label :: labels) ↔ cond s label ∧ Along step cond s' labels :=
  ⟨fun hrest ↦ hrest s' h, fun hrest _ ht ↦ Option.some.inj (h.symm.trans ht) ▸ hrest⟩

theorem throughout_cons {P : σ → Prop} {s s' : σ} {label : ℓ} (h : step s label = some s')
    (labels : List ℓ) :
    Throughout step P s (label :: labels) ↔ P s ∧ Throughout step P s' labels :=
  and_congr_right fun _ ↦
    ⟨fun hrest ↦ hrest s' h, fun hrest _ ht ↦ Option.some.inj (h.symm.trans ht) ▸ hrest⟩

theorem Along.mono {cond allowed : σ → ℓ → Prop} (h : ∀ s label, cond s label → allowed s label)
    {s : σ} {labels : List ℓ} (halong : Along step cond s labels) :
    Along step allowed s labels := by
  induction labels generalizing s with
  | nil => trivial
  | cons label labels ih =>
      intro next hnext
      obtain ⟨hcond, hrest⟩ := halong next hnext
      exact ⟨h s label hcond, ih hrest⟩

/-- A quantity that each counted step raises by one, and no other step, stays below a limit
during a run that takes few of them. -/
theorem along_of_countP (Within : ℕ → σ → Prop) {cond : σ → ℓ → Prop} {counted : ℓ → Bool}
    {limit : ℕ}
    (hstep : ∀ n s label s', Within n s → step s label = some s' →
      Within (n + (counted label).toNat) s')
    (hcond : ∀ n s label, Within n s → n < limit → cond s label)
    {n : ℕ} {s : σ} {labels : List ℓ} (hs : Within n s) (hfew : n + labels.countP counted < limit) :
    Along step cond s labels := by
  induction labels generalizing n s with
  | nil => trivial
  | cons label labels ih =>
      intro next hnext
      have hcount : (label :: labels).countP counted =
          (counted label).toNat + labels.countP counted := by
        rw [List.countP_cons, Nat.add_comm]
        cases counted label <;> rfl
      rw [hcount] at hfew
      refine ⟨hcond n s label hs (by omega), ih (hstep n s label next hs hnext) ?_⟩
      rwa [Nat.add_assoc]

/-- Whether the steps are allowed can be found out by taking them. -/
instance decidableAlong (cond : σ → ℓ → Prop) [∀ s label, Decidable (cond s label)] (s : σ)
    (labels : List ℓ) : Decidable (Along step cond s labels) :=
  match labels with
  | [] => .isTrue trivial
  | label :: labels =>
      match hnext : step s label with
      | none => .isTrue fun _ h ↦ nomatch hnext.symm.trans h
      | some next =>
          have := decidableAlong cond next labels
          decidable_of_iff _ (along_cons hnext labels).symm

theorem Throughout.start {P : σ → Prop} {s : σ} {labels : List ℓ}
    (h : Throughout step P s labels) : P s := by
  cases labels with
  | nil => exact h
  | cons _ _ => exact h.1

/-- What the allowed steps keep holds after every run that takes only such steps. -/
theorem Along.invariant {cond : σ → ℓ → Prop} {Inv : σ → Prop}
    (hstep : ∀ s label s', Inv s → cond s label → step s label = some s' → Inv s')
    {s t : σ} {labels : List ℓ} (halong : Along step cond s labels) (hs : Inv s)
    (hrun : execute step s labels = some t) : Inv t := by
  induction labels generalizing s with
  | nil =>
      obtain rfl := Option.some.inj hrun
      exact hs
  | cons label labels ih =>
      obtain ⟨next, hnext, hrest⟩ := Option.bind_eq_some_iff.mp hrun
      obtain ⟨hcond, halong⟩ := halong next hnext
      exact ih halong (hstep s label next hs hcond hnext) hrest

/-- A property that a step keeps exactly when its condition allows it holds
throughout just the runs all of whose steps are allowed. -/
theorem throughout_iff_along {cond : σ → ℓ → Prop} {P : σ → Prop}
    (hstep : ∀ s label s', P s → step s label = some s' → (P s' ↔ cond s label))
    {s : σ} (hs : P s) (labels : List ℓ) :
    Throughout step P s labels ↔ Along step cond s labels := by
  induction labels generalizing s with
  | nil => exact iff_of_true hs trivial
  | cons label labels ih =>
      cases hnext : step s label with
      | none =>
          exact iff_of_true ⟨hs, fun next h ↦ nomatch hnext.symm.trans h⟩
            fun next h ↦ nomatch hnext.symm.trans h
      | some next =>
          rw [throughout_cons hnext, along_cons hnext, ← hstep s label next hs hnext]
          constructor
          · rintro ⟨-, h⟩
            exact ⟨h.start, (ih h.start).mp h⟩
          · rintro ⟨hnextP, h⟩
            exact ⟨hs, (ih hnextP).mpr h⟩

end Support
