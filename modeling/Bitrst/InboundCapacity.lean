import Bitrst.PeerManager
import Bitrst.Support.OptimisticUpdate

/-!
# Inbound slots

`inbound_capacity.rs`: a counter that tasks on any number of threads take slots
from and give them back to.  A step is one atomic operation on the counter.
Every interleaving behaves as a counter on which each call is one step, which is
what the peer manager's model takes it for.
-/

namespace Bitrst

open Support

/-- `try_acquire` and `release` on the counter; `fetch_sub` wraps around. -/
def InboundCapacity.shared (max : UInt64) : SharedValue UInt64 Unit where
  attempt current := if max ≤ current then none else some (current + 1)
  change _ current := some (current - 1)

namespace InboundCapacity

variable {τ : Type} [DecidableEq τ] {max : UInt64}

abbrev State (τ : Type) := SharedValue.State UInt64 τ Unit

abbrev Action (τ : Type) := SharedValue.Action τ Unit

abbrev Entry (τ : Type) := SharedValue.Entry τ Unit

def Entry.acquires : Entry τ → Bool
  | .update _ => true
  | _ => false

def Entry.releases : Entry τ → Bool
  | .change _ => true
  | _ => false

/-- The guards that have been handed out and not dropped. -/
def guards (s : State τ) : ℕ :=
  s.log.countP Entry.acquires - s.log.countP Entry.releases

def new : State τ := SharedValue.start 0

def reserved (s : State τ) : UInt64 := s.value

/-- Only a guard that there is can be dropped. -/
def step (max : UInt64) (s : State τ) (action : Action τ) : Option (State τ) :=
  if action = .change () ∧ guards s = 0 then none else (shared max).step s action

/-! ## One step for each call -/

/-- A bounded number of slots: taking one is refused just when none is left. -/
def slots (bound : ℕ) (n : ℕ) : Entry τ → Option ℕ
  | .update _ => if n < bound then some (n + 1) else none
  | .giveUp _ => if n < bound then none else some n
  | .change _ => if 0 < n then some (n - 1) else none

/-- The counter holds the number of guards. -/
structure Counted (max : UInt64) (s : State τ) : Prop where
  sound : (shared max).Sound s
  released : s.log.countP Entry.releases ≤ s.log.countP Entry.acquires
  value : s.value.toNat = guards s
  slots : execute (slots max.toNat) 0 s.log = some s.value.toNat
  bounded : s.value.toNat ≤ max.toNat

omit [DecidableEq τ] in
theorem new_counted : Counted max (new : State τ) where
  sound _ _ _ h := nomatch h
  released := Nat.le_refl _
  value := rfl
  slots := rfl
  bounded := Nat.zero_le _

theorem Counted.step {s next : State τ} {action : Action τ} (h : Counted max s)
    (hstep : InboundCapacity.step max s action = some next) : Counted max next := by
  unfold InboundCapacity.step at hstep
  split at hstep
  · cases hstep
  · rename_i hguard
    obtain ⟨hsound, ⟨hvalue, hlog⟩ | ⟨entry, hlog, hentry, haction⟩⟩ := h.sound.step hstep
    · refine ⟨hsound, hlog ▸ h.released, ?_, ?_, hvalue ▸ h.bounded⟩
      · rw [hvalue, guards, hlog]
        exact h.value
      · rw [hvalue, hlog]
        exact h.slots
    · have hcount := h.value
      rw [guards] at hcount
      have hreleased := h.released
      have hslots : execute (InboundCapacity.slots max.toNat) 0 next.log =
          InboundCapacity.slots max.toNat s.value.toNat entry := by
        rw [hlog, execute_append h.slots, execute]
        cases InboundCapacity.slots max.toNat s.value.toNat entry <;> rfl
      have hbounded := h.bounded
      have hmax := max.toNat_lt
      cases entry with
      | update t =>
          simp only [SharedValue.apply, shared] at hentry
          split at hentry
          · cases hentry
          · rename_i hroom
            have hlt : s.value.toNat < max.toNat :=
              UInt64.lt_iff_toNat_lt.mp (UInt64.not_le.mp hroom)
            have hnext : next.value.toNat = s.value.toNat + 1 := by
              rw [← Option.some.inj hentry, UInt64.toNat_add, UInt64.toNat_one]
              exact Nat.mod_eq_of_lt (by omega)
            refine ⟨hsound, ?_, ?_, ?_, ?_⟩
            · simp only [hlog, List.countP_append, List.countP_singleton, Entry.acquires,
                Entry.releases, Bool.false_eq_true, if_false, if_true]
              omega
            · simp only [guards, hlog, List.countP_append, List.countP_singleton, Entry.acquires,
                Entry.releases, Bool.false_eq_true, if_false, if_true]
              omega
            · rw [hslots, hnext]
              exact if_pos hlt
            · omega
      | giveUp t =>
          have hfull : max ≤ s.value ∧ s.value = next.value := by
            simp only [SharedValue.apply, shared] at hentry
            by_cases hfull : max ≤ s.value
            · simp only [if_pos hfull, Option.isNone_none, if_true] at hentry
              exact ⟨hfull, Option.some.inj hentry⟩
            · simp only [if_neg hfull, Option.isNone_some, Bool.false_eq_true, if_false] at hentry
              cases hentry
          obtain ⟨hfull, hsame⟩ := hfull
          have hle := UInt64.le_iff_toNat_le.mp hfull
          refine ⟨hsound, ?_, ?_, ?_, ?_⟩
          · simp only [hlog, List.countP_append, List.countP_singleton, Entry.acquires,
              Entry.releases, Bool.false_eq_true, if_false]
            omega
          · rw [← hsame]
            simp only [guards, hlog, List.countP_append, List.countP_singleton, Entry.acquires,
              Entry.releases, Bool.false_eq_true, if_false]
            omega
          · rw [hslots, ← hsame]
            exact if_neg hle.not_gt
          · rwa [← hsame]
      | change i =>
          have hsome : 0 < guards s := Nat.pos_of_ne_zero fun hzero ↦ hguard ⟨haction i rfl, hzero⟩
          have hnext : next.value.toNat = s.value.toNat - 1 := by
            rw [← Option.some.inj hentry]
            refine UInt64.toNat_sub_of_le _ _ (UInt64.le_iff_toNat_le.mpr ?_)
            rw [UInt64.toNat_one, h.value]
            exact hsome
          refine ⟨hsound, ?_, ?_, ?_, ?_⟩
          · simp only [hlog, List.countP_append, List.countP_singleton, Entry.acquires,
              Entry.releases, Bool.false_eq_true, if_false, if_true]
            rw [guards] at hsome
            omega
          · rw [guards] at hsome
            simp only [guards, hlog, List.countP_append, List.countP_singleton, Entry.acquires,
              Entry.releases, Bool.false_eq_true, if_false, if_true]
            omega
          · rw [hslots, hnext]
            exact if_pos (h.value ▸ hsome)
          · omega

theorem step_shared {s next : State τ} {action : Action τ}
    (h : InboundCapacity.step max s action = some next) :
    (shared max).step s action = some next := by
  unfold InboundCapacity.step at h
  split at h
  · cases h
  · exact h

theorem run_shared {s next : State τ} {actions : List (Action τ)}
    (hrun : execute (InboundCapacity.step max) s actions = some next) :
    execute (shared max).step s actions = some next := by
  induction actions generalizing s with
  | nil => exact hrun
  | cons action actions ih =>
      obtain ⟨after, hstep, hrest⟩ := Option.bind_eq_some_iff.mp hrun
      rw [execute, step_shared hstep, Option.bind_some, ih hrest]

/-- Whatever the order of the atomic operations, the counter is the number of guards, which never
exceeds the maximum; taking a slot is refused only at a moment when all are taken; each call is
answered once; and a thread only tries again because another one has taken or given back a slot
meanwhile, or because an exchange failed for no reason. -/
theorem inbound_slots_linear {s : State τ} {actions : List (Action τ)}
    (hrun : execute (InboundCapacity.step max) new actions = some s) :
    (reserved s).toNat = guards s ∧ guards s ≤ max.toNat ∧
    execute (slots max.toNat) 0 s.log = some (guards s) ∧
    ∀ t, actions.countP (·.begins t) = s.log.countP (·.answers t) + s.pending t ∧
      (shared max).misses t new actions ≤ s.log.countP (·.disturbs t) := by
  have h : Counted max s :=
    Reaches.invariant (A := fun _ ↦ True) (fun _ _ _ hs _ hstep ↦ hs.step hstep)
      ⟨actions, fun _ _ ↦ trivial, hrun⟩ new_counted
  refine ⟨h.value, h.value ▸ h.bounded, h.value ▸ h.slots, fun t ↦ ?_⟩
  have hshared := run_shared hrun
  have hanswers := SharedValue.run_answers t hshared
  have hmisses := SharedValue.run_misses t hshared
  have hnew : (new : State τ).log = [] ∧ (new : State τ).pending t = 0 ∧
      (new : State τ).stale t = 0 := ⟨rfl, rfl, rfl⟩
  obtain ⟨hlog, hpending, hstale⟩ := hnew
  rw [hlog, hpending, List.countP_nil] at hanswers
  rw [hlog, hstale, List.countP_nil] at hmisses
  exact ⟨(hanswers.trans (Nat.zero_add _)).symm, (Nat.le_add_right _ _).trans hmisses⟩

end InboundCapacity

/-! ## The acceptor takes a slot in one step -/

/-- The acceptor's `try_acquire` is one of the calls that the counter puts in order. -/
theorem PeerSystem.accept_slots {α τ : Type} [DecidableEq α] [DecidableEq τ]
    {config : PeerManagerConfig} {addr : α} {s next : PeerSystem α} (t : τ)
    (h : s.accept config addr = some next) :
    ∃ entry : InboundCapacity.Entry τ, entry.answers t = true ∧
      InboundCapacity.slots config.maxInbound s.inboundReserved entry =
        some next.inboundReserved := by
  unfold PeerSystem.accept at h
  split at h
  · cases h
  · split at h
    · rename_i hroom
      refine ⟨.update t, decide_eq_true rfl, ?_⟩
      rw [← Option.some.inj h, InboundCapacity.slots, if_pos hroom]
      simp only [PeerSystem.inboundReserved, PeerSystem.spawnPeer, List.countP_append]
      rfl
    · rename_i hfull
      refine ⟨.giveUp t, decide_eq_true rfl, ?_⟩
      rw [← Option.some.inj h, InboundCapacity.slots, if_neg hfull]

end Bitrst

namespace Bitrst.Sample

open Support InboundCapacity

/-- Two threads take the only slot at once: one of them misses, and is refused when it has loaded
again. -/
def contended : List (InboundCapacity.Action Bool) :=
  [.call true, .call false, .load true, .load false, .exchange true false, .exchange false false,
    .load false, .change ()]

theorem contended_slots : ∃ s, execute (InboundCapacity.step 1) new contended = some s ∧
    s.log = [.update true, .giveUp false, .change ()] ∧
    (reserved s).toNat = guards s ∧ guards s ≤ (1 : UInt64).toNat ∧
    execute (slots (1 : UInt64).toNat) 0 s.log = some (guards s) ∧
    ∀ t, contended.countP (·.begins t) = s.log.countP (·.answers t) + s.pending t ∧
      (shared 1).misses t new contended ≤ s.log.countP (·.disturbs t) := by
  obtain ⟨s, hrun, hlog⟩ : ∃ s, execute (InboundCapacity.step 1) new contended = some s ∧
      s.log = [.update true, .giveUp false, .change ()] := ⟨_, rfl, rfl⟩
  exact ⟨s, hrun, hlog, inbound_slots_linear hrun⟩

end Bitrst.Sample
