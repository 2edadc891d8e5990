import Bitrst.Support.Reachability
import Mathlib.Logic.Function.Basic

/-!
# Optimistic updates of a shared value

Threads update a value by a loop: they load it, work out the new value or give
up, and exchange the two if the value is still the one that they loaded, else
they begin again.  An exchange may also fail for no reason.  Beside them the
value is changed at once by other operations.  Every interleaving has the
answers of one order of whole updates, and a thread only begins again because
another one got on, or for no reason.
-/

namespace Support

variable {V τ ι : Type*}

/-- What is done to the value.  An attempt that gives nothing is given up, and a change that gives
nothing cannot be made. -/
structure SharedValue (V ι : Type*) where
  attempt : V → Option V
  change : ι → V → Option V

namespace SharedValue

/-- Where the loop of a thread is. -/
inductive Call (V : Type*)
  | idle
  | begun
  | loaded (seen next : V)

inductive Action (τ ι : Type*)
  | call (t : τ)
  | load (t : τ)
  | exchange (t : τ) (spurious : Bool)
  | change (i : ι)
  deriving DecidableEq

/-- What has been done. -/
inductive Entry (τ ι : Type*)
  | update (t : τ)
  | giveUp (t : τ)
  | change (i : ι)
  deriving DecidableEq

structure State (V τ ι : Type*) where
  value : V
  call : τ → Call V
  log : List (Entry τ ι)

variable (shared : SharedValue V ι)

/-- The whole updates, one after the other. -/
def apply (value : V) : Entry τ ι → Option V
  | .update _ => shared.attempt value
  | .giveUp _ => if (shared.attempt value).isNone then some value else none
  | .change i => shared.change i value

variable [DecidableEq V] [DecidableEq τ]

def start (value : V) : State V τ ι := ⟨value, fun _ ↦ .idle, []⟩

def State.setCall (s : State V τ ι) (t : τ) (call : Call V) : State V τ ι :=
  { s with call := Function.update s.call t call }

def step (s : State V τ ι) : Action τ ι → Option (State V τ ι)
  | .call t =>
      match s.call t with
      | .idle => some (s.setCall t .begun)
      | _ => none
  | .load t =>
      match s.call t with
      | .begun =>
          match shared.attempt s.value with
          | none => some { s.setCall t .idle with log := s.log ++ [.giveUp t] }
          | some next => some (s.setCall t (.loaded s.value next))
      | _ => none
  | .exchange t spurious =>
      match s.call t with
      | .loaded seen next =>
          if s.value = seen ∧ spurious = false then
            some { s.setCall t .idle with value := next, log := s.log ++ [.update t] }
          else some (s.setCall t .begun)
      | _ => none
  | .change i =>
      (shared.change i s.value).map fun next ↦
        { s with value := next, log := s.log ++ [.change i] }

/-- One if the thread has loaded another value than there is now. -/
def State.stale (t : τ) (s : State V τ ι) : ℕ :=
  match s.call t with
  | .loaded seen _ => if s.value = seen then 0 else 1
  | _ => 0

/-- One if the step is an exchange of the thread that fails for a reason. -/
def State.missed (t : τ) (s : State V τ ι) : Action τ ι → ℕ
  | .exchange u false => if u = t then s.stale t else 0
  | _ => 0

/-- How often the thread begins again in a run because it missed. -/
def misses (t : τ) (s : State V τ ι) : List (Action τ ι) → ℕ
  | [] => 0
  | action :: actions =>
      s.missed t action + ((shared.step s action).map fun next ↦ misses t next actions).getD 0

/-- The thread is in a call. -/
def State.pending (t : τ) (s : State V τ ι) : ℕ :=
  match s.call t with
  | .idle => 0
  | _ => 1

/-- The end of a call of the thread. -/
def Entry.answers (t : τ) : Entry τ ι → Bool
  | .update u | .giveUp u => u = t
  | .change _ => false

/-- A change of the value that is not the thread's. -/
def Entry.disturbs (t : τ) : Entry τ ι → Bool
  | .update u => u ≠ t
  | .giveUp _ => false
  | .change _ => true

def Action.begins (t : τ) : Action τ ι → Bool
  | .call u => u = t
  | _ => false

/-- What a thread is about to exchange is what it has worked out. -/
def Sound (s : State V τ ι) : Prop :=
  ∀ t seen next, s.call t = .loaded seen next → shared.attempt seen = some next

variable {shared} {s next : State V τ ι} {action : Action τ ι}

omit [DecidableEq V] in
@[simp] theorem setCall_self (t : τ) (call : Call V) : (s.setCall t call).call t = call :=
  Function.update_self ..

omit [DecidableEq V] in
theorem setCall_of_ne {t u : τ} (h : u ≠ t) (call : Call V) :
    (s.setCall t call).call u = s.call u :=
  Function.update_of_ne h ..

omit [DecidableEq V] in
theorem Sound.setCall (h : shared.Sound s) (t : τ) (call : Call V)
    (hcall : ∀ seen next, call = .loaded seen next → shared.attempt seen = some next)
    {value : V} {log : List (Entry τ ι)} :
    shared.Sound { s.setCall t call with value := value, log := log } := by
  intro u seen next hloaded
  by_cases hu : u = t
  · subst hu
    exact hcall seen next ((setCall_self (s := s) u call).symm.trans hloaded)
  · exact h u seen next ((setCall_of_ne hu call).symm.trans hloaded)

/-- A step of one thread, or a change. -/
theorem step_cases (h : shared.step s action = some next) :
    (∃ t, action = .call t ∧ s.call t = .idle ∧ next = s.setCall t .begun) ∨
    (∃ t, action = .load t ∧ s.call t = .begun ∧ shared.attempt s.value = none ∧
      next = { s.setCall t .idle with log := s.log ++ [.giveUp t] }) ∨
    (∃ t found, action = .load t ∧ s.call t = .begun ∧ shared.attempt s.value = some found ∧
      next = s.setCall t (.loaded s.value found)) ∨
    (∃ t found, action = .exchange t false ∧ s.call t = .loaded s.value found ∧
      next = { s.setCall t .idle with value := found, log := s.log ++ [.update t] }) ∨
    (∃ t spurious seen found, action = .exchange t spurious ∧ s.call t = .loaded seen found ∧
      (s.value = seen → spurious = true) ∧ next = s.setCall t .begun) ∨
    ∃ i found, action = .change i ∧ shared.change i s.value = some found ∧
      next = { s with value := found, log := s.log ++ [.change i] } := by
  cases action with
  | call t =>
      simp only [step] at h
      split at h
      · rename_i hcall
        exact .inl ⟨t, rfl, hcall, (Option.some.inj h).symm⟩
      · cases h
  | load t =>
      simp only [step] at h
      split at h
      · rename_i hcall
        split at h
        · rename_i hattempt
          exact .inr (.inl ⟨t, rfl, hcall, hattempt, (Option.some.inj h).symm⟩)
        · rename_i found hattempt
          exact .inr (.inr (.inl ⟨t, found, rfl, hcall, hattempt, (Option.some.inj h).symm⟩))
      · cases h
  | exchange t spurious =>
      simp only [step] at h
      split at h
      · rename_i seen found hcall
        split at h
        · rename_i hboth
          obtain ⟨rfl, rfl⟩ := hboth
          exact .inr (.inr (.inr (.inl ⟨t, found, rfl, hcall, (Option.some.inj h).symm⟩)))
        · rename_i hnot
          refine .inr (.inr (.inr (.inr (.inl ⟨t, spurious, seen, found, rfl, hcall,
            fun hvalue ↦ ?_, (Option.some.inj h).symm⟩))))
          by_contra hspurious
          exact hnot ⟨hvalue, Bool.eq_false_iff.mpr hspurious⟩
      · cases h
  | change i =>
      obtain ⟨found, hfound, rfl⟩ := Option.map_eq_some_iff.mp h
      exact .inr (.inr (.inr (.inr (.inr ⟨i, found, rfl, hfound, rfl⟩))))

/-- A step adds one whole update to what has been done, or nothing. -/
theorem Sound.step (hs : shared.Sound s) (h : shared.step s action = some next) :
    shared.Sound next ∧ ((next.value = s.value ∧ next.log = s.log) ∨
      ∃ entry, next.log = s.log ++ [entry] ∧ shared.apply s.value entry = some next.value ∧
        ∀ i, entry = .change i → action = .change i) := by
  rcases step_cases h with ⟨t, rfl, hcall, rfl⟩ | ⟨t, rfl, hcall, hattempt, rfl⟩ |
    ⟨t, found, rfl, hcall, hattempt, rfl⟩ | ⟨t, found, rfl, hcall, rfl⟩ |
    ⟨t, spurious, seen, found, rfl, hcall, hspurious, rfl⟩ | ⟨i, found, rfl, hchange, rfl⟩
  · exact ⟨hs.setCall t .begun (fun _ _ h ↦ nomatch h), .inl ⟨rfl, rfl⟩⟩
  · refine ⟨hs.setCall t .idle (fun _ _ h ↦ nomatch h),
      .inr ⟨.giveUp t, rfl, ?_, fun _ h ↦ nomatch h⟩⟩
    simp only [apply, hattempt]
    rfl
  · refine ⟨hs.setCall t _ fun seen next hloaded ↦ ?_, .inl ⟨rfl, rfl⟩⟩
    obtain ⟨rfl, rfl⟩ := Call.loaded.inj hloaded
    exact hattempt
  · exact ⟨hs.setCall t .idle (fun _ _ h ↦ nomatch h),
      .inr ⟨.update t, rfl, hs t _ _ hcall, fun _ h ↦ nomatch h⟩⟩
  · exact ⟨hs.setCall t .begun (fun _ _ h ↦ nomatch h), .inl ⟨rfl, rfl⟩⟩
  · exact ⟨hs, .inr ⟨.change i, rfl, hchange, fun j hj ↦ by rw [Entry.change.inj hj]⟩⟩

/-! ## Calls -/

omit [DecidableEq V] in
@[simp] theorem setCall_value (t : τ) (call : Call V) : (s.setCall t call).value = s.value := rfl

omit [DecidableEq V] in
@[simp] theorem setCall_log (t : τ) (call : Call V) : (s.setCall t call).log = s.log := rfl

/-- Every call has one answer once it ends. -/
theorem step_answers (t : τ) (h : shared.step s action = some next) :
    next.log.countP (·.answers t) + next.pending t =
      s.log.countP (·.answers t) + s.pending t + if action.begins t then 1 else 0 := by
  rcases step_cases h with ⟨u, rfl, hcall, rfl⟩ | ⟨u, rfl, hcall, -, rfl⟩ |
    ⟨u, found, rfl, hcall, -, rfl⟩ | ⟨u, found, rfl, hcall, rfl⟩ |
    ⟨u, spurious, seen, found, rfl, hcall, -, rfl⟩ | ⟨i, found, rfl, -, rfl⟩
  case inr.inr.inr.inr.inr => simp [Entry.answers, Action.begins, State.pending]
  all_goals
    by_cases hu : u = t
    · subst hu
      simp [State.pending, Entry.answers, Action.begins, hcall]
    · have hother := fun call ↦ setCall_of_ne (s := s) (Ne.symm hu) call
      simp [State.pending, Entry.answers, Action.begins, hu, hother]

omit [DecidableEq τ] in
theorem stale_le (t : τ) (s : State V τ ι) : s.stale t ≤ 1 := by
  rw [State.stale]
  split
  · split <;> decide
  · exact Nat.zero_le _

/-- A step of a thread that leaves the value: the thread has now loaded nothing else, and what the
others have loaded is as stale as before. -/
theorem stale_setCall (u : τ) (call : Call V)
    (hseen : ∀ seen found, call = .loaded seen found → s.value = seen)
    (log : List (Entry τ ι)) (t : τ) :
    State.stale t { s.setCall u call with log := log } = if u = t then 0 else s.stale t := by
  by_cases hu : u = t
  · subst hu
    rw [if_pos rfl, State.stale]
    simp only [setCall_self]
    cases call with
    | loaded seen found => exact if_pos (hseen seen found rfl)
    | _ => rfl
  · rw [if_neg hu, State.stale]
    simp only [setCall_of_ne (Ne.symm hu)]
    rfl

/-- A thread begins again for a reason no more often than the value has been changed by others. -/
theorem step_misses (t : τ) (h : shared.step s action = some next) :
    s.missed t action + next.stale t + s.log.countP (·.disturbs t) ≤
      next.log.countP (·.disturbs t) + s.stale t := by
  have hsplit : ∀ u : τ, (if u = t then 0 else s.stale t) ≤ s.stale t := fun u ↦ by
    split
    · exact Nat.zero_le _
    · exact Nat.le_refl _
  rcases step_cases h with ⟨u, rfl, hcall, hnext⟩ | ⟨u, rfl, hcall, -, hnext⟩ |
    ⟨u, found, rfl, hcall, -, hnext⟩ | ⟨u, found, rfl, hcall, hnext⟩ |
    ⟨u, spurious, seen, found, rfl, hcall, hreason, hnext⟩ | ⟨i, found, rfl, -, hnext⟩
  · have hstale : (s.setCall u .begun).stale t = _ :=
      stale_setCall u .begun (fun _ _ h ↦ nomatch h) s.log t
    have hlog : next.log = s.log := by rw [hnext, setCall_log]
    have hle := hsplit u
    rw [← hnext] at hstale
    simp only [State.missed, hlog]
    omega
  · have hstale := stale_setCall (s := s) u .idle (fun _ _ h ↦ nomatch h) (s.log ++ [.giveUp u]) t
    have hle := hsplit u
    rw [← hnext] at hstale
    have hlog : next.log = s.log ++ [.giveUp u] := by rw [hnext]
    simp only [State.missed, hlog, List.countP_append, List.countP_singleton, Entry.disturbs,
      Bool.false_eq_true, if_false]
    omega
  · have hstale : (s.setCall u (.loaded s.value found)).stale t = _ :=
      stale_setCall u (.loaded s.value found) (fun _ _ h ↦ (Call.loaded.inj h).1) s.log t
    have hlog : next.log = s.log := by rw [hnext, setCall_log]
    have hle := hsplit u
    rw [← hnext] at hstale
    simp only [State.missed, hlog]
    omega
  · have hlog : next.log = s.log ++ [.update u] := by rw [hnext]
    have hle := stale_le t next
    by_cases hu : u = t
    · subst hu
      have hnow : s.stale u = 0 := by
        rw [State.stale, hcall]
        exact if_pos rfl
      have hidle : next.stale u = 0 := by
        rw [hnext, State.stale]
        simp only [setCall_self]
      simp only [State.missed, if_true, hlog, List.countP_append]
      omega
    · -- Another thread gets its exchange through.
      simp only [State.missed, hlog, List.countP_append, List.countP_singleton,
        Entry.disturbs, hu, ne_eq, not_false_eq_true, decide_true, if_true, if_false]
      omega
  · have hstale : (s.setCall u .begun).stale t = _ :=
      stale_setCall u .begun (fun _ _ h ↦ nomatch h) s.log t
    have hlog : next.log = s.log := by rw [hnext, setCall_log]
    rw [← hnext] at hstale
    have hmissed : s.missed t (.exchange u spurious) ≤ if u = t then s.stale t else 0 := by
      cases spurious
      · exact Nat.le_refl _
      · exact Nat.zero_le _
    rw [hlog]
    by_cases hu : u = t
    · rw [if_pos hu] at hmissed hstale
      omega
    · rw [if_neg hu] at hmissed hstale
      omega
  · have hlog : next.log = s.log ++ [.change i] := by rw [hnext]
    have hle := stale_le t next
    simp only [State.missed, hlog, List.countP_append, List.countP_singleton, Entry.disturbs,
      if_true]
    omega

theorem run_answers (t : τ) {actions : List (Action τ ι)}
    (hrun : execute shared.step s actions = some next) :
    next.log.countP (·.answers t) + next.pending t =
      s.log.countP (·.answers t) + s.pending t + actions.countP (·.begins t) := by
  induction actions generalizing s with
  | nil =>
      obtain rfl := Option.some.inj hrun
      rfl
  | cons action actions ih =>
      obtain ⟨after, hstep, hrest⟩ := Option.bind_eq_some_iff.mp hrun
      rw [ih hrest, step_answers t hstep, List.countP_cons]
      omega

theorem run_misses (t : τ) {actions : List (Action τ ι)}
    (hrun : execute shared.step s actions = some next) :
    shared.misses t s actions + next.stale t + s.log.countP (·.disturbs t) ≤
      next.log.countP (·.disturbs t) + s.stale t := by
  induction actions generalizing s with
  | nil =>
      obtain rfl := Option.some.inj hrun
      simp only [misses]
      omega
  | cons action actions ih =>
      obtain ⟨after, hstep, hrest⟩ := Option.bind_eq_some_iff.mp hrun
      have hone := step_misses t hstep
      have hmore := ih hrest
      rw [misses, hstep, Option.map_some, Option.getD_some]
      omega

end SharedValue

end Support
