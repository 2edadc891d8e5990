import Bitrst.Support.UndoLog

/-!
# Filtered views of a finite map

A view keeps, under the same keys, what a filter lets through of another map.
It is changed by patches of its own, one for each patch of the map, and it
undoes a whole sequence of them with one joint record: remove everything that
was created, then put back everything that was removed.

All rules are about one key.  Going forward the view stays right there, or
becomes right where it is touched, as long as no patch writes a filtered-out
binding over one it has; going back, as long as the record has the bindings that
were spent and nothing that was written was spent in the same sequence.
-/

namespace Support

variable {κ ν μ : Type*} [DecidableEq κ]

/-! ## Joint undo records -/

/-- One record for a sequence of patches. -/
def jointUndo (ps : List (Patch κ ν)) (m : HashMap κ ν) : Undo κ ν where
  removed := (undos ps m).flatMap Undo.removed
  created := (undos ps m).flatMap Undo.created

/-- Some patch writes `k` and a later one spends it. -/
def SpendsWritten : List (Patch κ ν) → κ → Prop
  | [], _ => False
  | p :: ps, k => (k ∈ p.writes.map Prod.fst ∧ ∃ q ∈ ps, k ∈ q.spends) ∨ SpendsWritten ps k

omit [DecidableEq κ] in
theorem SpendsWritten.touched {ps : List (Patch κ ν)} {k : κ} (h : SpendsWritten ps k) :
    Touched ps k := by
  induction ps with
  | nil => exact h.elim
  | cons p ps ih =>
      rcases h with ⟨hwrite, -⟩ | hlater
      · exact ⟨p, List.mem_cons_self, Or.inr hwrite⟩
      · obtain ⟨q, hq, hk⟩ := ih hlater
        exact ⟨q, List.mem_cons_of_mem _ hq, hk⟩

theorem mem_jointUndo_created {ps : List (Patch κ ν)} {m : HashMap κ ν} {k : κ} :
    k ∈ (jointUndo ps m).created ↔ ∃ p ∈ ps, k ∈ p.writes.map Prod.fst := by
  induction ps generalizing m with
  | nil => simp [jointUndo]
  | cons p ps ih =>
      have hsplit : (jointUndo (p :: ps) m).created =
          p.writes.map Prod.fst ++ (jointUndo ps (p.apply m)).created := rfl
      rw [hsplit, List.mem_append, ih]
      simp only [List.mem_cons, exists_eq_or_imp]

theorem spent_of_mem_jointUndo_removed {ps : List (Patch κ ν)} {m : HashMap κ ν} {k : κ} {v : ν}
    (h : (k, v) ∈ (jointUndo ps m).removed) : ∃ p ∈ ps, k ∈ p.spends := by
  induction ps generalizing m with
  | nil => simp [jointUndo] at h
  | cons p ps ih =>
      have hsplit : (jointUndo (p :: ps) m).removed =
          recorded m p.spends ++ (jointUndo ps (p.apply m)).removed := rfl
      rw [hsplit] at h
      rcases List.mem_append.mp h with hfirst | hlater
      · exact ⟨p, List.mem_cons_self, (mem_keys_recorded.mp (List.mem_map_of_mem hfirst)).1⟩
      · obtain ⟨q, hq, hspend⟩ := ih hlater
        exact ⟨q, List.mem_cons_of_mem _ hq, hspend⟩

/-! ## Maps of one kind of bindings -/

/-- All bindings of the map are of a kind. -/
def OfKind (kind : κ → ν → Prop) (m : HashMap κ ν) : Prop :=
  ∀ k v, m.lookup k = some v → kind k v

namespace OfKind

variable {kind kind' : κ → ν → Prop} {m : HashMap κ ν}

theorem mono (h : OfKind kind m) (himp : ∀ k v, kind k v → kind' k v) : OfKind kind' m :=
  fun k v hv ↦ himp k v (h k v hv)

theorem eraseAll (h : OfKind kind m) (keys : List κ) : OfKind kind (m.eraseAll keys) := by
  intro k v hv
  rw [HashMap.lookup_eraseAll] at hv
  split at hv
  · cases hv
  · exact h k v hv

theorem insertAll (h : OfKind kind m) {bindings : List (κ × ν)}
    (hbindings : ∀ binding ∈ bindings, kind binding.1 binding.2) :
    OfKind kind (m.insertAll bindings) := by
  intro k v hv
  by_cases hk : k ∈ bindings.map Prod.fst
  · obtain ⟨w, hmem, hw⟩ := HashMap.lookup_insertAll_of_mem m bindings hk
    rw [hv] at hw
    obtain rfl := Option.some.inj hw
    exact hbindings _ hmem
  · rw [HashMap.lookup_insertAll_of_notMem m bindings hk] at hv
    exact h k v hv

theorem applyAll {ps : List (Patch κ ν)} (h : OfKind kind m)
    (hwrites : ∀ p ∈ ps, ∀ binding ∈ p.writes, kind binding.1 binding.2) :
    OfKind kind (applyAll ps m) := by
  induction ps generalizing m with
  | nil => exact h
  | cons p ps ih =>
      exact ih ((h.eraseAll p.spends).insertAll (hwrites p List.mem_cons_self))
        fun q hq ↦ hwrites q (List.mem_cons_of_mem _ hq)

/-- What patches remove was there before or one of them wrote it. -/
theorem jointUndo_removed {ps : List (Patch κ ν)} (h : OfKind kind m)
    (hwrites : ∀ p ∈ ps, ∀ binding ∈ p.writes, kind binding.1 binding.2) :
    ∀ binding ∈ (jointUndo ps m).removed, kind binding.1 binding.2 := by
  induction ps generalizing m with
  | nil => simp [jointUndo]
  | cons p ps ih =>
      have hsplit : (jointUndo (p :: ps) m).removed =
          recorded m p.spends ++ (jointUndo ps (p.apply m)).removed := rfl
      have happly : OfKind kind (p.apply m) :=
        (h.eraseAll p.spends).insertAll (hwrites p List.mem_cons_self)
      intro binding hbinding
      rw [hsplit] at hbinding
      rcases List.mem_append.mp hbinding with hfirst | hlater
      · exact h _ _ (lookup_of_mem_recorded hfirst)
      · exact ih happly (fun q hq ↦ hwrites q (List.mem_cons_of_mem _ hq)) binding hlater

end OfKind

/-! ## Views -/

/-- `w` has under `k` exactly what the filter lets through of `m`. -/
def Sees (f : κ → ν → Option μ) (m : HashMap κ ν) (w : HashMap κ μ) (k : κ) : Prop :=
  w.lookup k = (m.lookup k).bind (f k)

/-- `q` does to a view what `p` does to the map; it may spend keys besides that
are never seen. -/
structure Watches (f : κ → ν → Option μ) (p : Patch κ ν) (q : Patch κ μ) : Prop where
  writes : q.writes = p.writes.filterMap fun kv ↦ (f kv.1 kv.2).map fun u ↦ (kv.1, u)
  distinct : ∀ k v v', (k, v) ∈ p.writes → (k, v') ∈ p.writes → v = v'
  spends : p.spends ⊆ q.spends
  unseen : ∀ k ∈ q.spends, k ∉ p.spends → ∀ v, f k v = none

/-- Some patch writes a binding that is filtered out over one that the view has. -/
def Overwrites : List (Patch κ ν × Patch κ μ) → HashMap κ μ → Prop
  | [], _ => False
  | (p, q) :: rest, w =>
      (∃ k ∈ p.writes.map Prod.fst, k ∉ q.writes.map Prod.fst ∧
        (w.eraseAll q.spends).lookup k ≠ none) ∨ Overwrites rest (q.apply w)

instance decidableOverwrites : ∀ (pairs : List (Patch κ ν × Patch κ μ)) (w : HashMap κ μ),
    Decidable (Overwrites pairs w)
  | [], _ => inferInstanceAs (Decidable False)
  | (_, q) :: rest, w =>
      have := decidableOverwrites rest (q.apply w)
      inferInstanceAs (Decidable (_ ∨ _))

namespace Watches

variable {f : κ → ν → Option μ} {p : Patch κ ν} {q : Patch κ μ} {k : κ}

omit [DecidableEq κ] in
theorem mem_writes (h : Watches f p q) {u : μ} :
    (k, u) ∈ q.writes ↔ ∃ v, (k, v) ∈ p.writes ∧ f k v = some u := by
  rw [h.writes, List.mem_filterMap]
  constructor
  · rintro ⟨⟨k', v⟩, hmem, heq⟩
    obtain ⟨u', hu', hpair⟩ := Option.map_eq_some_iff.mp heq
    obtain ⟨rfl, rfl⟩ := Prod.mk.inj hpair
    exact ⟨v, hmem, hu'⟩
  · rintro ⟨v, hmem, heq⟩
    exact ⟨(k, v), hmem, by simp [heq]⟩

omit [DecidableEq κ] in
theorem written (h : Watches f p q) (hk : k ∈ q.writes.map Prod.fst) :
    k ∈ p.writes.map Prod.fst := by
  obtain ⟨⟨k', u⟩, hmem, rfl⟩ := List.mem_map.mp hk
  obtain ⟨v, hv, -⟩ := h.mem_writes.mp hmem
  exact List.mem_map_of_mem hv

/-- A binding written where the view writes nothing is filtered out. -/
theorem unseen_of_written (h : Watches f p q) {v : ν} (hv : p.written k = some v)
    (hk : k ∉ q.writes.map Prod.fst) : f k v = none := by
  cases hf : f k v with
  | none => rfl
  | some u =>
      exact (hk (List.mem_map_of_mem
        (h.mem_writes.mpr ⟨v, Patch.mem_writes_of_written hv, hf⟩))).elim

/-- A patch keeps a view under a key, or makes it one by touching the key. -/
theorem sees_apply (h : Watches f p q) {m : HashMap κ ν} {w : HashMap κ μ}
    (hseen : Sees f m w k ∨ k ∈ q.spends ∨ k ∈ q.writes.map Prod.fst)
    (hover : k ∈ p.writes.map Prod.fst → k ∉ q.writes.map Prod.fst →
      (w.eraseAll q.spends).lookup k = none) :
    Sees f (p.apply m) (q.apply w) k := by
  unfold Sees
  by_cases hwrite : k ∈ p.writes.map Prod.fst
  · obtain ⟨v, hv, hlookup⟩ := p.lookup_apply_of_mem m hwrite
    rw [hlookup, Option.bind_some]
    by_cases hshown : k ∈ q.writes.map Prod.fst
    · obtain ⟨u, hu, hlookup'⟩ := q.lookup_apply_of_mem w hshown
      obtain ⟨v', hv', hf⟩ := h.mem_writes.mp hu
      rw [hlookup', ← hf, h.distinct k v v' hv hv']
    · rw [Patch.apply, HashMap.lookup_insertAll_of_notMem _ _ hshown, hover hwrite hshown]
      cases hf : f k v with
      | none => rfl
      | some u => exact (hshown (List.mem_map_of_mem (h.mem_writes.mpr ⟨v, hv, hf⟩))).elim
  · have hhidden : k ∉ q.writes.map Prod.fst := fun hk ↦ hwrite (h.written hk)
    rw [p.lookup_apply_of_notMem _ hwrite, q.lookup_apply_of_notMem _ hhidden]
    by_cases hspend : k ∈ p.spends
    · rw [if_pos hspend, if_pos (h.spends hspend), Option.bind_none]
    · rw [if_neg hspend]
      split
      · rename_i hq
        cases m.lookup k with
        | none => rfl
        | some v => exact (h.unseen k hq hspend v).symm
      · rename_i hq
        exact hseen.resolve_right fun htouched ↦ htouched.elim hq hhidden

end Watches

/-- A record puts back under `k` what the patches of the map spent there, if it is in view, and
removes there what those of the view wrote. -/
structure RestoresAt (f : κ → ν → Option μ) (pairs : List (Patch κ ν × Patch κ μ))
    (m : HashMap κ ν) (u : Undo κ μ) (k : κ) : Prop where
  created : k ∈ u.created ↔ ∃ pair ∈ pairs, k ∈ pair.2.writes.map Prod.fst
  spent : ∀ x, (k, x) ∈ u.removed → ∃ pair ∈ pairs, k ∈ pair.1.spends
  removed : (∃ pair ∈ pairs, k ∈ pair.1.spends) → ∀ v, Supplied (pairs.map Prod.fst) m k v →
    ∀ x, (k, x) ∈ u.removed ↔ f k v = some x

section Sequences

variable {f : κ → ν → Option μ} {pairs : List (Patch κ ν × Patch κ μ)} {m m' : HashMap κ ν}
  {w w' : HashMap κ μ} {k : κ}

/-- Going forward, a view stays one where it was one, and becomes one where it is touched. -/
theorem sees_applyAll (hpairs : ∀ pair ∈ pairs, Watches f pair.1 pair.2)
    (hover : ¬ Overwrites pairs w) (hseen : Sees f m w k ∨ Touched (pairs.map Prod.snd) k) :
    Sees f (applyAll (pairs.map Prod.fst) m) (applyAll (pairs.map Prod.snd) w) k := by
  induction pairs generalizing m w with
  | nil => exact hseen.resolve_right fun ⟨q, hq, _⟩ ↦ by simp at hq
  | cons pair rest ih =>
      obtain ⟨p, q⟩ := pair
      have hrest := ih (m := p.apply m) (w := q.apply w)
        (fun pair hpair ↦ hpairs pair (List.mem_cons_of_mem _ hpair)) fun h ↦ hover (Or.inr h)
      by_cases hlater : Touched (rest.map Prod.snd) k
      · exact hrest (Or.inr hlater)
      · refine hrest (Or.inl ((hpairs (p, q) List.mem_cons_self).sees_apply ?_ ?_))
        · apply hseen.imp_right
          rintro ⟨q', hq', hk⟩
          rcases List.mem_cons.mp hq' with rfl | hq'
          · exact hk
          · exact (hlater ⟨q', hq', hk⟩).elim
        · intro hwrite hhidden
          by_contra hne
          exact hover (Or.inl ⟨k, hwrite, hhidden, hne⟩)

/-- A view that holds a key out of reach of its own patches is overwritten where the map writes. -/
theorem overwrites_of_written (hwrites : ∃ pair ∈ pairs, k ∈ pair.1.writes.map Prod.fst)
    (htouched : ¬ Touched (pairs.map Prod.snd) k) (hk : w.lookup k ≠ none) :
    Overwrites pairs w := by
  induction pairs generalizing w with
  | nil => simp at hwrites
  | cons pair rest ih =>
      obtain ⟨p, q⟩ := pair
      have hq : k ∉ q.spends ∧ k ∉ q.writes.map Prod.fst :=
        not_or.mp fun h ↦ htouched ⟨q, List.mem_cons_self, h⟩
      by_cases hwrite : k ∈ p.writes.map Prod.fst
      · refine Or.inl ⟨k, hwrite, hq.2, ?_⟩
        rwa [HashMap.lookup_eraseAll, if_neg hq.1]
      · refine Or.inr (ih ?_ (fun ⟨q', hq', h⟩ ↦ htouched ⟨q', List.mem_cons_of_mem _ hq', h⟩) ?_)
        · obtain ⟨pair, hpair, h⟩ := hwrites
          rcases List.mem_cons.mp hpair with rfl | hpair
          · exact (hwrite h).elim
          · exact ⟨pair, hpair, h⟩
        · rwa [q.lookup_apply_of_notMem _ hq.2, if_neg hq.1]

omit [DecidableEq κ] in
theorem Clobbers.touched {ps : List (Patch κ ν)} (h : Clobbers ps k) : Touched ps k := by
  obtain ⟨p, hp, hk⟩ := h.written
  exact ⟨p, hp, Or.inr hk⟩

/-- What the map has after patches under a key that they touch is filtered out, unless the view
writes it. -/
theorem lookup_eq_none_of_touched (hpairs : ∀ pair ∈ pairs, Watches f pair.1 pair.2)
    (hsub : Submap m' (applyAll (pairs.map Prod.fst) m)) (hseen : Sees f m' w' k)
    (htouched : Touched (pairs.map Prod.fst) k)
    (hhidden : ¬ ∃ pair ∈ pairs, k ∈ pair.2.writes.map Prod.fst) : w'.lookup k = none := by
  rw [hseen]
  cases hm' : m'.lookup k with
  | none => rfl
  | some v =>
      obtain ⟨p, hp, hwritten⟩ := exists_written_of_touched htouched (hsub k v hm')
      obtain ⟨pair, hpair, rfl⟩ := List.mem_map.mp hp
      exact (hpairs pair hpair).unseen_of_written hwritten fun hk ↦ hhidden ⟨pair, hpair, hk⟩

omit [DecidableEq κ] in
theorem exists_spends_of_not_clobbers {ps : List (Patch κ ν)} (h : Touched ps k)
    (hk : ¬ Clobbers ps k) : ∃ p ∈ ps, k ∈ p.spends := by
  induction ps with
  | nil => exact (h.elim fun p hp ↦ by simp at hp)
  | cons p ps ih =>
      by_cases hspend : k ∈ p.spends
      · exact ⟨p, List.mem_cons_self, hspend⟩
      · have hwrite : k ∉ p.writes.map Prod.fst := fun hw ↦ hk ⟨hspend, Or.inl hw⟩
        obtain ⟨q, hq, hqk⟩ := h
        rcases List.mem_cons.mp hq with rfl | hq
        · exact (hqk.elim hspend hwrite).elim
        · obtain ⟨r, hr, hrk⟩ := ih ⟨q, hq, hqk⟩ fun hc ↦ hk ⟨hspend, Or.inr hc⟩
          exact ⟨r, List.mem_cons_of_mem _ hr, hrk⟩

/-- A key that is written first and spent later was written out of sight, if the view spends
nothing of its own. -/
theorem exists_unseen_of_clobbers (hpairs : ∀ pair ∈ pairs, Watches f pair.1 pair.2)
    (hown : ¬ SpendsWritten (pairs.map Prod.snd) k) (hclobbers : Clobbers (pairs.map Prod.fst) k)
    (hspent : ∃ pair ∈ pairs, k ∈ pair.1.spends) :
    ∃ pair ∈ pairs, ∃ v, pair.1.written k = some v ∧ f k v = none := by
  induction pairs with
  | nil => exact hclobbers.elim
  | cons pair rest ih =>
      obtain ⟨p, q⟩ := pair
      have hpq := hpairs (p, q) List.mem_cons_self
      have hlater : ∃ pair ∈ rest, k ∈ pair.1.spends := by
        obtain ⟨pair, hpair, hk⟩ := hspent
        rcases List.mem_cons.mp hpair with rfl | hpair
        · exact (hclobbers.1 hk).elim
        · exact ⟨pair, hpair, hk⟩
      by_cases hwrite : k ∈ p.writes.map Prod.fst
      · obtain ⟨v, hv⟩ := Option.isSome_iff_exists.mp (Patch.written_isSome_iff.mpr hwrite)
        refine ⟨(p, q), List.mem_cons_self, v, hv, hpq.unseen_of_written hv fun hshown ↦ ?_⟩
        obtain ⟨pair, hpair, hk⟩ := hlater
        exact hown (Or.inl ⟨hshown, pair.2, List.mem_map_of_mem hpair,
          (hpairs pair (List.mem_cons_of_mem _ hpair)).spends hk⟩)
      · obtain ⟨pair, hpair, hrest⟩ := ih
          (fun pair hpair ↦ hpairs pair (List.mem_cons_of_mem _ hpair)) (fun h ↦ hown (Or.inr h))
          (hclobbers.2.resolve_left hwrite) hlater
        exact ⟨pair, List.mem_cons_of_mem _ hpair, hrest⟩

/-- Going back, a view stays one under a key that its record restores: the map reverts patch by
patch on top of a part of the map after the sequence, the view with its joint record. -/
theorem sees_revertAll (hpairs : ∀ pair ∈ pairs, Watches f pair.1 pair.2)
    (hsub : Submap m' (applyAll (pairs.map Prod.fst) m)) (hseen : Sees f m' w' k) {u : Undo κ μ}
    (hrestores : RestoresAt f pairs m u k) (hown : ¬ SpendsWritten (pairs.map Prod.snd) k)
    (hheld : (∃ pair ∈ pairs, k ∈ pair.1.spends) → ¬ Clobbers (pairs.map Prod.fst) k →
      (m.lookup k).isSome) :
    Sees f (revertAll (undos (pairs.map Prod.fst) m) m') (u.revert w') k := by
  have hcleared : Touched (pairs.map Prod.fst) k → (∀ x, (k, x) ∉ u.removed) →
      (u.revert w').lookup k = none := by
    intro htouched hremoved
    rw [Undo.revert, HashMap.lookup_insertAll_of_notMem, HashMap.lookup_eraseAll]
    · split
      · rfl
      · rename_i hcreated
        apply lookup_eq_none_of_touched hpairs hsub hseen htouched
        exact fun hshown ↦ hcreated (hrestores.created.mpr hshown)
    · intro hk
      obtain ⟨⟨k', x⟩, hx, rfl⟩ := List.mem_map.mp hk
      exact hremoved x hx
  unfold Sees
  by_cases hclobbers : Clobbers (pairs.map Prod.fst) k
  · rw [lookup_revertAll_of_clobbers _ _ _ hclobbers, Option.bind_none]
    apply hcleared hclobbers.touched
    intro x hx
    obtain ⟨pair, hpair, v, hwritten, hf⟩ :=
      exists_unseen_of_clobbers hpairs hown hclobbers (hrestores.spent x hx)
    rw [hrestores.removed (hrestores.spent x hx) v
      (Or.inr ⟨pair.1, List.mem_map_of_mem hpair, hwritten⟩) x, hf] at hx
    cases hx
  · by_cases htouched : Touched (pairs.map Prod.fst) k
    · have hfirst : ∃ pair ∈ pairs, k ∈ pair.1.spends := by
        obtain ⟨p, hp, hk⟩ := exists_spends_of_not_clobbers htouched hclobbers
        obtain ⟨pair, hpair, rfl⟩ := List.mem_map.mp hp
        exact ⟨pair, hpair, hk⟩
      obtain ⟨v, hv⟩ := Option.isSome_iff_exists.mp (hheld hfirst hclobbers)
      have hremoved := hrestores.removed hfirst v (Or.inl hv)
      rw [lookup_revertAll_of_spent _ hsub htouched hclobbers, hv, Option.bind_some]
      cases hf : f k v with
      | none =>
          apply hcleared htouched
          intro x hx
          rw [hremoved x, hf] at hx
          cases hx
      | some x =>
          have hx : (k, x) ∈ u.removed := (hremoved x).mpr hf
          obtain ⟨y, hy, hlookup⟩ := HashMap.lookup_insertAll_of_mem (w'.eraseAll u.created)
            u.removed (List.mem_map_of_mem hx)
          rw [Undo.revert, hlookup, ← hf, (hremoved y).mp hy]
    · have hcreated : k ∉ u.created := by
        intro hk
        obtain ⟨pair, hpair, hshown⟩ := hrestores.created.mp hk
        exact htouched ⟨pair.1, List.mem_map_of_mem hpair,
          Or.inr ((hpairs pair hpair).written hshown)⟩
      rw [lookup_revertAll_of_not_touched _ _ _ htouched, ← hseen]
      apply u.lookup_revert_of_notMem w' hcreated
      intro hk
      obtain ⟨⟨k', x⟩, hx, rfl⟩ := List.mem_map.mp hk
      obtain ⟨pair, hpair, hspend⟩ := hrestores.spent x hx
      exact htouched ⟨pair.1, List.mem_map_of_mem hpair, Or.inl hspend⟩

/-- Patches that are applied and taken back below others lose nothing that is in view, if they
clobber nothing there. -/
theorem sees_revertAll_applyAll {us : List (Undo κ ν)} {ps : List (Patch κ ν)}
    (hseen : Sees f (revertAll us m) w k) (hfresh : Clobbers ps k → w.lookup k = none) :
    Sees f (revertAll us (revertAll (undos ps m) (applyAll ps m))) w k := by
  by_cases hclobbers : Clobbers ps k
  · rw [Sees, hfresh hclobbers]
    have hback : (revertAll (undos ps m) (applyAll ps m)).lookup k = none := by
      rw [revertAll_lookup, if_pos hclobbers]
    cases hkept : (revertAll us (revertAll (undos ps m) (applyAll ps m))).lookup k with
    | none => rfl
    | some v =>
        have hv : (revertAll us m).lookup k = some v := by
          refine lookup_revertAll_mono us (fun v hv ↦ ?_) hkept
          rw [hback] at hv
          cases hv
        rw [Sees, hv, hfresh hclobbers] at hseen
        exact hseen
  · have hback : (revertAll (undos ps m) (applyAll ps m)).lookup k = m.lookup k := by
      rw [revertAll_lookup, if_neg hclobbers]
    rw [Sees, lookup_revertAll_congr us hback]
    exact hseen

end Sequences

end Support
