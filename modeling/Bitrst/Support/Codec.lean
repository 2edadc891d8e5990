import Mathlib.Control.Monad.Basic
import Mathlib.Data.List.Basic

/-!
# Readers of written values

A reader takes a value off the front of a list of symbols or fails.  `Reads`
says that it accepts exactly what is written for the values of a domain, and
takes off exactly that.  The rules follow the shape of a reader: a value that
costs nothing, one reader after another, and a counted list.  A reader for which
they hold gives a format of whole inputs that is a bijection and in which no
accepted input starts another.
-/

namespace Support

variable {σ ε α β γ : Type}

abbrev Reader (σ ε α : Type) := StateT (List σ) (Except ε) α

/-- The reader accepts what is written for the valid values, and nothing else. -/
structure Reads (valid : α → Prop) (write : α → List σ) (read : Reader σ ε α) : Prop where
  complete : ∀ a rest, valid a → read.run (write a ++ rest) = .ok (a, rest)
  sound : ∀ input a rest, read.run input = .ok (a, rest) → valid a ∧ input = write a ++ rest

namespace Reads

theorem congr {valid valid' : α → Prop} {write write' : α → List σ} {read : Reader σ ε α}
    (h : Reads valid write read) (hvalid : ∀ a, valid' a ↔ valid a)
    (hwrite : ∀ a, valid' a → write' a = write a) : Reads valid' write' read where
  complete a rest ha := by
    rw [hwrite a ha]
    exact h.complete a rest ((hvalid a).mp ha)
  sound input a rest hread := by
    obtain ⟨ha, hinput⟩ := h.sound input a rest hread
    have ha' := (hvalid a).mpr ha
    exact ⟨ha', (hwrite a ha').symm ▸ hinput⟩

/-- A value that is already determined takes nothing off. -/
theorem pure {valid : α → Prop} {value : α} (h : ∀ a, valid a ↔ a = value) :
    Reads valid (fun _ ↦ ([] : List σ)) (Pure.pure value : Reader σ ε α) where
  complete a rest ha := by
    obtain rfl := (h a).mp ha
    rfl
  sound input a rest hread := by
    obtain ⟨rfl, rfl⟩ := Prod.mk.inj (Except.ok.inj hread)
    exact ⟨(h _).mpr rfl, rfl⟩

/-- A failure, where no value is valid. -/
theorem throw {valid : α → Prop} {write : α → List σ} {e : ε} (h : ∀ a, ¬ valid a) :
    Reads valid write (MonadExcept.throw e : Reader σ ε α) where
  complete a _ ha := (h a ha).elim
  sound _ _ _ hread := by cases hread

theorem run_bind_ok {read : Reader σ ε α} {next : α → Reader σ ε β} {input rest : List σ} {b : β}
    (h : (read >>= next).run input = .ok (b, rest)) :
    ∃ a between, read.run input = .ok (a, between) ∧ (next a).run between = .ok (b, rest) := by
  rw [StateT.run_bind] at h
  cases hfirst : read.run input with
  | error e =>
      rw [hfirst] at h
      cases h
  | ok found =>
      rw [hfirst] at h
      exact ⟨found.1, found.2, rfl, h⟩

/-- A part of the value is read first, and the rest knowing it. -/
theorem bind {part : α → Prop} {writePart : α → List σ} {read : Reader σ ε α}
    {valid : γ → Prop} {writeRest : γ → List σ} {next : α → Reader σ ε γ} (project : γ → α)
    (hread : Reads part writePart read) (hproject : ∀ c, valid c → part (project c))
    (hnext : ∀ a, part a → Reads (fun c ↦ valid c ∧ project c = a) writeRest (next a)) :
    Reads valid (fun c ↦ writePart (project c) ++ writeRest c) (read >>= next) where
  complete c rest hc := by
    have hpart := hproject c hc
    rw [List.append_assoc, StateT.run_bind, hread.complete _ _ hpart]
    exact (hnext _ hpart).complete c rest ⟨hc, rfl⟩
  sound input c rest h := by
    obtain ⟨a, between, hfirst, hsecond⟩ := run_bind_ok h
    obtain ⟨ha, rfl⟩ := hread.sound _ _ _ hfirst
    obtain ⟨⟨hc, rfl⟩, rfl⟩ := (hnext a ha).sound _ _ _ hsecond
    exact ⟨hc, (List.append_assoc _ _ _).symm⟩

/-- What follows a valid value is read by what follows in the reader. -/
theorem run_bind {valid : α → Prop} {write : α → List σ} {read : Reader σ ε α}
    (h : Reads valid write read) {a : α} (ha : valid a) (next : α → Reader σ ε β)
    (rest : List σ) : (read >>= next).run (write a ++ rest) = (next a).run rest := by
  rw [StateT.run_bind, h.complete a rest ha]
  rfl

end Reads

/-- The value is read, and then the rest of a number of values. -/
def readMany (read : Reader σ ε α) : ℕ → Reader σ ε (List α)
  | 0 => pure []
  | n + 1 => do
      let first ← read
      let rest ← readMany read n
      pure (first :: rest)

/-- A counted list of values. -/
theorem Reads.many {valid : α → Prop} {write : α → List σ} {read : Reader σ ε α}
    (h : Reads valid write read) (n : ℕ) :
    Reads (fun values ↦ values.length = n ∧ ∀ a ∈ values, valid a)
      (fun values ↦ values.flatMap write) (readMany read n) := by
  induction n with
  | zero =>
      refine (Reads.pure fun values : List α ↦ Iff.rfl).congr (fun values ↦ ?_) ?_
      · constructor
        · exact fun hvalues ↦ List.eq_nil_of_length_eq_zero hvalues.1
        · rintro rfl
          exact ⟨rfl, by simp⟩
      · rintro values ⟨hvalues, -⟩
        rw [List.eq_nil_of_length_eq_zero hvalues]
        rfl
  | succ n ih =>
      constructor
      · rintro values rest ⟨hlength, hvalid⟩
        obtain ⟨first, others, rfl⟩ := List.exists_cons_of_length_eq_add_one hlength
        have hfirst := h.complete first (others.flatMap write ++ rest) (hvalid first (by simp))
        have hothers := ih.complete others rest ⟨Nat.succ.inj hlength, fun a ha ↦
          hvalid a (List.mem_cons_of_mem _ ha)⟩
        simp only [readMany, List.flatMap_cons, List.append_assoc, StateT.run_bind]
        rw [hfirst]
        change (readMany read n).run (others.flatMap write ++ rest) >>= _ = _
        rw [hothers]
        rfl
      · intro input values rest hread
        obtain ⟨first, between, hfirst, hread⟩ := run_bind_ok hread
        obtain ⟨others, between', hothers, hread⟩ := run_bind_ok hread
        obtain ⟨rfl, rfl⟩ := Prod.mk.inj (Except.ok.inj hread)
        obtain ⟨hvalid, rfl⟩ := h.sound _ _ _ hfirst
        obtain ⟨⟨hlength, hall⟩, rfl⟩ := ih.sound _ _ _ hothers
        refine ⟨⟨congrArg Nat.succ hlength, ?_⟩, (List.append_assoc _ _ _).symm⟩
        intro a ha
        rcases List.mem_cons.mp ha with rfl | ha
        · exact hvalid
        · exact hall a ha

/-! ## Unique readability -/

/-- What is written determines the value and where it ends. -/
def Unique (valid : α → Prop) (write : α → List σ) : Prop :=
  ∀ a b rest rest', valid a → valid b → write a ++ rest = write b ++ rest' → a = b ∧ rest = rest'

theorem Reads.unique {valid : α → Prop} {write : α → List σ} {read : Reader σ ε α}
    (h : Reads valid write read) : Unique valid write := by
  intro a b rest rest' ha hb heq
  have hread := h.complete a rest ha
  rw [heq, h.complete b rest' hb] at hread
  obtain ⟨rfl, rfl⟩ := Prod.mk.inj (Except.ok.inj hread)
  exact ⟨rfl, rfl⟩

/-- Lists of one length. -/
theorem Unique.many {valid : α → Prop} {write : α → List σ} (h : Unique valid write)
    {as bs : List α} {rest rest' : List σ} (hlength : as.length = bs.length)
    (ha : ∀ a ∈ as, valid a) (hb : ∀ b ∈ bs, valid b)
    (heq : as.flatMap write ++ rest = bs.flatMap write ++ rest') : as = bs ∧ rest = rest' := by
  induction as generalizing bs with
  | nil =>
      obtain rfl := List.eq_nil_of_length_eq_zero hlength.symm
      exact ⟨rfl, heq⟩
  | cons a as ih =>
      obtain ⟨b, bs, rfl⟩ := List.exists_cons_of_length_eq_add_one hlength.symm
      simp only [List.flatMap_cons, List.append_assoc] at heq
      obtain ⟨rfl, hrest⟩ := h a b _ _ (ha a List.mem_cons_self) (hb b List.mem_cons_self) heq
      obtain ⟨rfl, hend⟩ := ih (Nat.succ.inj hlength)
        (fun x hx ↦ ha x (List.mem_cons_of_mem _ hx))
        (fun x hx ↦ hb x (List.mem_cons_of_mem _ hx)) hrest
      exact ⟨rfl, hend⟩

/-! ## Whole inputs -/

/-- A format of whole inputs: what is written is accepted, what is accepted was written, in the
size foretold, and no accepted input starts another. -/
structure Format (valid : α → Prop) (write : α → List σ) (size : α → ℕ)
    (accept : List σ → Except ε α) : Prop where
  round_trip : ∀ a, valid a → accept (write a) = .ok a
  written : ∀ input a, accept input = .ok a → valid a ∧ write a = input ∧ size a = input.length
  prefix_free : ∀ input a other, accept input = .ok a → other ≠ input →
    (other <+: input ∨ input <+: other) → ∀ b, accept other ≠ .ok b

/-- A reader that has to use up its input is a format. -/
theorem Reads.format {valid within : α → Prop} {write : α → List σ} {size : α → ℕ}
    {read : Reader σ ε α} {accept : List σ → Except ε α} (h : Reads within write read)
    (hsize : ∀ a, size a = (write a).length)
    (haccept : ∀ input a, accept input = .ok a ↔
      valid a ∧ read.run input = .ok (a, [])) (hvalid : ∀ a, valid a → within a) :
    Format valid write size accept := by
  have hwritten : ∀ input a, accept input = .ok a → valid a ∧ write a = input := by
    intro input a hinput
    obtain ⟨ha, hread⟩ := (haccept input a).mp hinput
    obtain ⟨-, rfl⟩ := h.sound _ _ _ hread
    exact ⟨ha, (List.append_nil _).symm⟩
  -- What follows an accepted input is left over.
  have hextend : ∀ input extra a b, accept input = .ok a → accept (input ++ extra) = .ok b →
      extra = [] := by
    intro input extra a b hinput hlonger
    obtain ⟨ha, rfl⟩ := hwritten input a hinput
    have hread := ((haccept _ b).mp hlonger).2
    rw [h.complete a extra (hvalid a ha)] at hread
    exact (Prod.mk.inj (Except.ok.inj hread)).2
  refine ⟨fun a ha ↦ ?_, fun input a hinput ↦ ?_, ?_⟩
  · have hread := h.complete a [] (hvalid a ha)
    rw [List.append_nil] at hread
    exact (haccept _ a).mpr ⟨ha, hread⟩
  · obtain ⟨ha, hwrite⟩ := hwritten input a hinput
    exact ⟨ha, hwrite, hwrite ▸ hsize a⟩
  · rintro input a other hinput hne (⟨extra, rfl⟩ | ⟨extra, rfl⟩) b hother
    · obtain rfl := hextend other extra b a hother hinput
      exact hne (List.append_nil other).symm
    · obtain rfl := hextend input extra a b hinput hother
      exact hne (List.append_nil input)

end Support
