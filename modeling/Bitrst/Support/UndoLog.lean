import Bitrst.Support.HashMap

/-!
# Undo records of finite maps

A patch spends some keys and then writes some bindings; its undo record keeps
the spent bindings and the written keys, but not what a write replaced.
`revertAll_lookup` computes exactly what reverting a sequence of patches loses:
the keys whose first touch is a write.
-/

namespace Support

variable {κ ν : Type*} [DecidableEq κ]

structure Patch (κ ν : Type*) where
  spends : List κ
  writes : List (κ × ν)

/-- What one patch leaves behind for its reversal. -/
structure Undo (κ ν : Type*) where
  removed : List (κ × ν)
  created : List κ
  deriving DecidableEq

/-- The bindings found under `keys` while removing them one after the other. -/
def recorded (m : HashMap κ ν) : List κ → List (κ × ν)
  | [] => []
  | k :: rest =>
      match m.lookup k with
      | some v => (k, v) :: recorded (Finmap.erase k m) rest
      | none => recorded m rest

namespace Patch

def apply (p : Patch κ ν) (m : HashMap κ ν) : HashMap κ ν :=
  (m.eraseAll p.spends).insertAll p.writes

def undo (p : Patch κ ν) (m : HashMap κ ν) : Undo κ ν where
  removed := recorded m p.spends
  created := p.writes.map Prod.fst

end Patch

/-- Remove what was created, then put back what was removed. -/
def Undo.revert (u : Undo κ ν) (m : HashMap κ ν) : HashMap κ ν :=
  (m.eraseAll u.created).insertAll u.removed

def applyAll (ps : List (Patch κ ν)) (m : HashMap κ ν) : HashMap κ ν :=
  ps.foldl (fun acc p ↦ p.apply acc) m

/-- The undo records of a sequence of patches, in order of application. -/
def undos : List (Patch κ ν) → HashMap κ ν → List (Undo κ ν)
  | [], _ => []
  | p :: ps, m => p.undo m :: undos ps (p.apply m)

/-- Revert the last patch first. -/
def revertAll (us : List (Undo κ ν)) (m : HashMap κ ν) : HashMap κ ν :=
  us.foldr (fun u acc ↦ u.revert acc) m

@[simp] theorem applyAll_nil (m : HashMap κ ν) : applyAll [] m = m := rfl

@[simp] theorem applyAll_cons (p : Patch κ ν) (ps : List (Patch κ ν)) (m : HashMap κ ν) :
    applyAll (p :: ps) m = applyAll ps (p.apply m) := rfl

theorem applyAll_append (ps qs : List (Patch κ ν)) (m : HashMap κ ν) :
    applyAll (ps ++ qs) m = applyAll qs (applyAll ps m) := List.foldl_append

@[simp] theorem undos_nil (m : HashMap κ ν) : undos [] m = [] := rfl

@[simp] theorem undos_cons (p : Patch κ ν) (ps : List (Patch κ ν)) (m : HashMap κ ν) :
    undos (p :: ps) m = p.undo m :: undos ps (p.apply m) := rfl

theorem undos_append (ps qs : List (Patch κ ν)) (m : HashMap κ ν) :
    undos (ps ++ qs) m = undos ps m ++ undos qs (applyAll ps m) := by
  induction ps generalizing m with
  | nil => rfl
  | cons p ps ih => simp [ih]

@[simp] theorem revertAll_nil (m : HashMap κ ν) : revertAll [] m = m := rfl

@[simp] theorem revertAll_cons (u : Undo κ ν) (us : List (Undo κ ν)) (m : HashMap κ ν) :
    revertAll (u :: us) m = u.revert (revertAll us m) := rfl

theorem revertAll_append (us vs : List (Undo κ ν)) (m : HashMap κ ν) :
    revertAll (us ++ vs) m = revertAll us (revertAll vs m) := List.foldr_append

/-! ## The recorded bindings -/

theorem mem_keys_recorded {m : HashMap κ ν} {keys : List κ} {k : κ} :
    k ∈ (recorded m keys).map Prod.fst ↔ k ∈ keys ∧ m.lookup k ≠ none := by
  induction keys generalizing m with
  | nil => simp [recorded]
  | cons a rest ih =>
      unfold recorded
      cases ha : m.lookup a with
      | none =>
          simp only [ih, List.mem_cons]
          constructor
          · exact fun h ↦ ⟨Or.inr h.1, h.2⟩
          · rintro ⟨rfl | h, hk⟩
            · exact (hk ha).elim
            · exact ⟨h, hk⟩
      | some v =>
          simp only [List.map_cons, List.mem_cons, ih, HashMap.lookup_erase_ite]
          by_cases hka : k = a
          · subst hka
            simp [ha]
          · simp [hka]

theorem lookup_of_mem_recorded {m : HashMap κ ν} {keys : List κ} {k : κ} {v : ν}
    (h : (k, v) ∈ recorded m keys) : m.lookup k = some v := by
  induction keys generalizing m with
  | nil => simp [recorded] at h
  | cons a rest ih =>
      unfold recorded at h
      cases ha : m.lookup a with
      | none =>
          rw [ha] at h
          exact ih h
      | some w =>
          rw [ha] at h
          rcases List.mem_cons.mp h with heq | hrest
          · obtain ⟨rfl, rfl⟩ := Prod.mk.inj heq
            exact ha
          · have := ih hrest
            rw [HashMap.lookup_erase_ite] at this
            split at this
            · simp at this
            · exact this

/-! ## Applying and reverting one patch -/

namespace Patch

theorem lookup_apply_of_notMem (p : Patch κ ν) (m : HashMap κ ν) {k : κ}
    (hwrite : k ∉ p.writes.map Prod.fst) :
    (p.apply m).lookup k = if k ∈ p.spends then none else m.lookup k := by
  rw [apply, HashMap.lookup_insertAll_of_notMem _ _ hwrite, HashMap.lookup_eraseAll]

theorem lookup_apply_of_mem (p : Patch κ ν) (m : HashMap κ ν) {k : κ}
    (hwrite : k ∈ p.writes.map Prod.fst) :
    ∃ v, (k, v) ∈ p.writes ∧ (p.apply m).lookup k = some v :=
  HashMap.lookup_insertAll_of_mem _ _ hwrite

end Patch

/-- A key spent by the patch gets its old binding back. -/
theorem Patch.lookup_revert_of_recorded (p : Patch κ ν) (m m' : HashMap κ ν) {k : κ}
    (hspend : k ∈ p.spends) (hk : m.lookup k ≠ none) :
    ((p.undo m).revert m').lookup k = m.lookup k := by
  obtain ⟨v, hv, hlookup⟩ := HashMap.lookup_insertAll_of_mem
    (m'.eraseAll (p.undo m).created) (recorded m p.spends)
    (mem_keys_recorded.mpr ⟨hspend, hk⟩)
  exact hlookup.trans (lookup_of_mem_recorded hv).symm

/-- Any other key is removed if it was created and untouched otherwise. -/
theorem Patch.lookup_revert_of_not_recorded (p : Patch κ ν) (m m' : HashMap κ ν) {k : κ}
    (hk : k ∈ p.spends → m.lookup k = none) :
    ((p.undo m).revert m').lookup k =
      if k ∈ p.writes.map Prod.fst then none else m'.lookup k := by
  have hnot : k ∉ (recorded m p.spends).map Prod.fst := by
    rw [mem_keys_recorded]
    exact fun h ↦ h.2 (hk h.1)
  change ((m'.eraseAll _).insertAll (recorded m p.spends)).lookup k = _
  rw [HashMap.lookup_insertAll_of_notMem _ _ hnot, HashMap.lookup_eraseAll]
  rfl

/-! ## Reverting a sequence -/

/-- The first patch that touches `k` writes it without having spent it. -/
def Clobbers : List (Patch κ ν) → κ → Prop
  | [], _ => False
  | p :: ps, k => k ∉ p.spends ∧ (k ∈ p.writes.map Prod.fst ∨ Clobbers ps k)

omit [DecidableEq κ] in
theorem Clobbers.written {ps : List (Patch κ ν)} {k : κ} (h : Clobbers ps k) :
    ∃ p ∈ ps, k ∈ p.writes.map Prod.fst := by
  induction ps with
  | nil => exact h.elim
  | cons p ps ih =>
      rcases h.2 with hwrite | hlater
      · exact ⟨p, List.mem_cons_self, hwrite⟩
      · obtain ⟨q, hq, hk⟩ := ih hlater
        exact ⟨q, List.mem_cons_of_mem _ hq, hk⟩

instance decidableClobbers : (ps : List (Patch κ ν)) → (k : κ) → Decidable (Clobbers ps k)
  | [], _ => inferInstanceAs (Decidable False)
  | p :: ps, k =>
      have := decidableClobbers ps k
      inferInstanceAs (Decidable (k ∉ p.spends ∧ (k ∈ p.writes.map Prod.fst ∨ Clobbers ps k)))

/-- Reverting a sequence of patches restores every key except those clobbered,
which it removes. -/
theorem revertAll_lookup (ps : List (Patch κ ν)) (m : HashMap κ ν) (k : κ) :
    (revertAll (undos ps m) (applyAll ps m)).lookup k =
      if Clobbers ps k then none else m.lookup k := by
  induction ps generalizing m with
  | nil => simp [Clobbers]
  | cons p ps ih =>
      rw [undos_cons, revertAll_cons, applyAll_cons]
      by_cases hspend : k ∈ p.spends
      · rw [if_neg (fun h ↦ h.1 hspend)]
        by_cases hk : m.lookup k = none
        · rw [Patch.lookup_revert_of_not_recorded _ _ _ (fun _ ↦ hk), hk]
          split
          · rfl
          · rename_i hwrite
            rw [ih, Patch.lookup_apply_of_notMem _ _ hwrite, if_pos hspend, ite_self]
        · exact Patch.lookup_revert_of_recorded _ _ _ hspend hk
      · rw [Patch.lookup_revert_of_not_recorded _ _ _ (fun h ↦ (hspend h).elim)]
        by_cases hwrite : k ∈ p.writes.map Prod.fst
        · rw [if_pos hwrite, if_pos ⟨hspend, Or.inl hwrite⟩]
        · rw [if_neg hwrite, ih, Patch.lookup_apply_of_notMem _ _ hwrite, if_neg hspend]
          simp [Clobbers, hspend, hwrite]

/-- Reverting is exact precisely when no key in use was clobbered. -/
theorem revertAll_eq_iff (ps : List (Patch κ ν)) (m : HashMap κ ν) :
    revertAll (undos ps m) (applyAll ps m) = m ↔
      ∀ k, Clobbers ps k → m.lookup k = none := by
  constructor
  · intro h k hk
    rw [← h, revertAll_lookup, if_pos hk]
  · intro h
    apply Finmap.ext_lookup
    intro k
    rw [revertAll_lookup]
    split
    · rename_i hk
      exact (h k hk).symm
    · rfl

/-! ## Reverting on top of a part of the map -/

/-- Every binding of `m` is one of `m'`. -/
def Submap (m m' : HashMap κ ν) : Prop :=
  ∀ k v, m.lookup k = some v → m'.lookup k = some v

theorem Submap.refl (m : HashMap κ ν) : Submap m m := fun _ _ h ↦ h

theorem Submap.trans {m₁ m₂ m₃ : HashMap κ ν} (h₁₂ : Submap m₁ m₂) (h₂₃ : Submap m₂ m₃) :
    Submap m₁ m₃ := fun k v h ↦ h₂₃ k v (h₁₂ k v h)

theorem Patch.revert_submap (p : Patch κ ν) {m m' : HashMap κ ν} (h : Submap m' (p.apply m)) :
    Submap ((p.undo m).revert m') m := by
  intro k v hv
  by_cases hspend : k ∈ p.spends ∧ m.lookup k ≠ none
  · rwa [p.lookup_revert_of_recorded _ _ hspend.1 hspend.2] at hv
  · have hk : k ∈ p.spends → m.lookup k = none := by simpa using hspend
    rw [p.lookup_revert_of_not_recorded _ _ hk] at hv
    split at hv
    · cases hv
    · rename_i hwrite
      have happlied := h k v hv
      rw [p.lookup_apply_of_notMem _ hwrite] at happlied
      split at happlied
      · cases happlied
      · exact happlied

/-- Reverting loses bindings but never makes one up. -/
theorem revertAll_submap (ps : List (Patch κ ν)) {m m' : HashMap κ ν}
    (h : Submap m' (applyAll ps m)) : Submap (revertAll (undos ps m) m') m := by
  induction ps generalizing m with
  | nil => exact h
  | cons p ps ih => exact p.revert_submap (ih h)

/-- Some patch spends or writes `k`. -/
def Touched (ps : List (Patch κ ν)) (k : κ) : Prop :=
  ∃ p ∈ ps, k ∈ p.spends ∨ k ∈ p.writes.map Prod.fst

theorem lookup_applyAll_of_not_touched (ps : List (Patch κ ν)) (m : HashMap κ ν) {k : κ}
    (hk : ¬ Touched ps k) : (applyAll ps m).lookup k = m.lookup k := by
  induction ps generalizing m with
  | nil => rfl
  | cons p ps ih =>
      have hp : k ∉ p.spends ∧ k ∉ p.writes.map Prod.fst :=
        not_or.mp fun h ↦ hk ⟨p, List.mem_cons_self, h⟩
      rw [applyAll_cons, ih _ fun ⟨q, hq, h⟩ ↦ hk ⟨q, List.mem_cons_of_mem _ hq, h⟩,
        p.lookup_apply_of_notMem m hp.2, if_neg hp.1]

theorem lookup_revertAll_of_not_touched (ps : List (Patch κ ν)) (m m' : HashMap κ ν) {k : κ}
    (hk : ¬ Touched ps k) : (revertAll (undos ps m) m').lookup k = m'.lookup k := by
  induction ps generalizing m with
  | nil => rfl
  | cons p ps ih =>
      have hp : k ∉ p.spends ∧ k ∉ p.writes.map Prod.fst :=
        not_or.mp fun h ↦ hk ⟨p, List.mem_cons_self, h⟩
      rw [undos_cons, revertAll_cons,
        p.lookup_revert_of_not_recorded _ _ (fun h ↦ (hp.1 h).elim), if_neg hp.2]
      exact ih _ fun ⟨q, hq, h⟩ ↦ hk ⟨q, List.mem_cons_of_mem _ hq, h⟩

/-- A clobbered key is removed, also on top of another map. -/
theorem lookup_revertAll_of_clobbers (ps : List (Patch κ ν)) (m m' : HashMap κ ν) {k : κ}
    (hk : Clobbers ps k) : (revertAll (undos ps m) m').lookup k = none := by
  induction ps generalizing m with
  | nil => exact hk.elim
  | cons p ps ih =>
      rw [undos_cons, revertAll_cons,
        p.lookup_revert_of_not_recorded _ _ (fun h ↦ (hk.1 h).elim)]
      split
      · rfl
      · rename_i hwrite
        exact ih _ (hk.2.resolve_left hwrite)

/-- A key whose first touch spends it reads back as before. -/
theorem lookup_revertAll_of_spent (ps : List (Patch κ ν)) {m m' : HashMap κ ν} {k : κ}
    (h : Submap m' (applyAll ps m)) (htouched : Touched ps k) (hk : ¬ Clobbers ps k) :
    (revertAll (undos ps m) m').lookup k = m.lookup k := by
  induction ps generalizing m with
  | nil => exact (htouched.elim fun p hp ↦ by simp at hp)
  | cons p ps ih =>
      by_cases hnone : m.lookup k = none
      · cases hlookup : (revertAll (undos (p :: ps) m) m').lookup k with
        | none => rw [hnone]
        | some v => rw [revertAll_submap (p :: ps) h k v hlookup]
      · rw [undos_cons, revertAll_cons]
        by_cases hspend : k ∈ p.spends
        · exact p.lookup_revert_of_recorded _ _ hspend hnone
        · have hwrite : k ∉ p.writes.map Prod.fst := fun hw ↦ hk ⟨hspend, Or.inl hw⟩
          have hrest : ¬ Clobbers ps k := fun hc ↦ hk ⟨hspend, Or.inr hc⟩
          have htail : Touched ps k := by
            obtain ⟨q, hq, hqk⟩ := htouched
            rcases List.mem_cons.mp hq with rfl | hq
            · exact (hqk.elim hspend hwrite).elim
            · exact ⟨q, hq, hqk⟩
          rw [p.lookup_revert_of_not_recorded _ _ (fun hs ↦ (hspend hs).elim), if_neg hwrite,
            ih h htail hrest, p.lookup_apply_of_notMem _ hwrite, if_neg hspend]

theorem Undo.lookup_revert_of_notMem (u : Undo κ ν) (m : HashMap κ ν) {k : κ}
    (hcreated : k ∉ u.created) (hremoved : k ∉ u.removed.map Prod.fst) :
    (u.revert m).lookup k = m.lookup k := by
  rw [revert, HashMap.lookup_insertAll_of_notMem _ _ hremoved, HashMap.lookup_eraseAll,
    if_neg hcreated]

/-- Reverting on top of less leaves less. -/
theorem Undo.lookup_revert_mono (u : Undo κ ν) {m m' : HashMap κ ν} {k : κ}
    (h : ∀ v, m.lookup k = some v → m'.lookup k = some v) {v : ν}
    (hv : (u.revert m).lookup k = some v) : (u.revert m').lookup k = some v := by
  unfold revert at hv ⊢
  by_cases hremoved : k ∈ u.removed.map Prod.fst
  · rw [← hv]
    exact HashMap.lookup_insertAll_eq _ _ _ hremoved
  · rw [HashMap.lookup_insertAll_of_notMem _ _ hremoved, HashMap.lookup_eraseAll] at hv ⊢
    split at hv
    · cases hv
    · rw [if_neg ‹_›]
      exact h v hv

theorem lookup_revertAll_mono (us : List (Undo κ ν)) {m m' : HashMap κ ν} {k : κ}
    (h : ∀ v, m.lookup k = some v → m'.lookup k = some v) {v : ν}
    (hv : (revertAll us m).lookup k = some v) : (revertAll us m').lookup k = some v := by
  induction us generalizing v with
  | nil => exact h v hv
  | cons u us ih => exact u.lookup_revert_mono (fun _ ↦ ih) hv

/-- A key reads back as itself says, whatever else is there. -/
theorem lookup_revertAll_congr (us : List (Undo κ ν)) {m m' : HashMap κ ν} {k : κ}
    (h : m.lookup k = m'.lookup k) : (revertAll us m).lookup k = (revertAll us m').lookup k := by
  apply Option.ext
  intro v
  constructor
  · exact lookup_revertAll_mono us fun w hw ↦ h ▸ hw
  · exact lookup_revertAll_mono us fun w hw ↦ h ▸ hw

/-! ## What patches write -/

/-- The value that a patch leaves under a key that it writes. -/
def Patch.written (p : Patch κ ν) (k : κ) : Option ν := (p.apply ∅).lookup k

theorem Patch.written_isSome_iff {p : Patch κ ν} {k : κ} :
    (p.written k).isSome ↔ k ∈ p.writes.map Prod.fst := by
  constructor
  · intro h
    by_contra hwrite
    rw [written, p.lookup_apply_of_notMem _ hwrite, Finmap.lookup_empty, ite_self] at h
    cases h
  · intro hwrite
    obtain ⟨v, -, hv⟩ := p.lookup_apply_of_mem ∅ hwrite
    rw [written, hv]
    rfl

theorem Patch.lookup_apply_of_written {p : Patch κ ν} {k : κ} {v : ν}
    (h : p.written k = some v) (m : HashMap κ ν) : (p.apply m).lookup k = some v := by
  have hwrite : k ∈ p.writes.map Prod.fst := written_isSome_iff.mp (by rw [h]; rfl)
  rw [← h]
  exact HashMap.lookup_insertAll_eq _ _ _ hwrite

/-- A binding after some patches was there before or one of them wrote it. -/
theorem lookup_applyAll_written (ps : List (Patch κ ν)) (m : HashMap κ ν) {k : κ} {v : ν}
    (h : (applyAll ps m).lookup k = some v) :
    m.lookup k = some v ∨ ∃ p ∈ ps, p.written k = some v := by
  induction ps generalizing m with
  | nil => exact Or.inl h
  | cons p ps ih =>
      rcases ih _ h with hp | ⟨q, hq, hwritten⟩
      · cases hwritten : p.written k with
        | some w =>
            rw [p.lookup_apply_of_written hwritten] at hp
            exact Or.inr ⟨p, List.mem_cons_self, hwritten.trans hp⟩
        | none =>
            have hwrite : k ∉ p.writes.map Prod.fst := by
              rw [← Patch.written_isSome_iff, hwritten]
              simp
            rw [p.lookup_apply_of_notMem _ hwrite] at hp
            split at hp
            · cases hp
            · exact Or.inl hp
      · exact Or.inr ⟨q, List.mem_cons_of_mem _ hq, hwritten⟩

theorem Patch.mem_writes_of_written {p : Patch κ ν} {k : κ} {v : ν} (h : p.written k = some v) :
    (k, v) ∈ p.writes := by
  have hwrite : k ∈ p.writes.map Prod.fst := written_isSome_iff.mp (by rw [h]; rfl)
  obtain ⟨w, hw, hlookup⟩ := p.lookup_apply_of_mem ∅ hwrite
  rw [written, hlookup] at h
  rwa [← Option.some.inj h]

/-- A binding left under a key that is touched was written there. -/
theorem exists_written_of_touched {ps : List (Patch κ ν)} {m : HashMap κ ν} {k : κ} {v : ν}
    (htouched : Touched ps k) (h : (applyAll ps m).lookup k = some v) :
    ∃ p ∈ ps, p.written k = some v := by
  induction ps generalizing m with
  | nil => exact htouched.elim fun p hp ↦ by simp at hp
  | cons p ps ih =>
      by_cases hlater : Touched ps k
      · obtain ⟨q, hq, hwritten⟩ := ih hlater h
        exact ⟨q, List.mem_cons_of_mem _ hq, hwritten⟩
      · rw [applyAll_cons, lookup_applyAll_of_not_touched _ _ hlater] at h
        have hp : k ∈ p.spends ∨ k ∈ p.writes.map Prod.fst := by
          obtain ⟨q, hq, hk⟩ := htouched
          rcases List.mem_cons.mp hq with rfl | hq
          · exact hk
          · exact (hlater ⟨q, hq, hk⟩).elim
        refine ⟨p, List.mem_cons_self, ?_⟩
        cases hwritten : p.written k with
        | some w => rw [← h, p.lookup_apply_of_written hwritten]
        | none =>
            have hwrite : k ∉ p.writes.map Prod.fst := by
              rw [← Patch.written_isSome_iff, hwritten]
              simp
            rw [p.lookup_apply_of_notMem _ hwrite, if_pos (hp.resolve_right hwrite)] at h
            cases h

/-- A binding after some patches was there before or one of them wrote its key. -/
theorem lookup_applyAll_cases (ps : List (Patch κ ν)) (m : HashMap κ ν) {k : κ} {v : ν}
    (h : (applyAll ps m).lookup k = some v) :
    m.lookup k = some v ∨ ∃ p ∈ ps, k ∈ p.writes.map Prod.fst := by
  apply (lookup_applyAll_written ps m h).imp_right
  rintro ⟨p, hp, hwritten⟩
  exact ⟨p, hp, Patch.written_isSome_iff.mp (by rw [hwritten]; rfl)⟩

/-- A key that no patch spends stays bound, and is bound when a patch writes it. -/
theorem lookup_applyAll_isSome (ps : List (Patch κ ν)) (m : HashMap κ ν) {k : κ}
    (hspends : ∀ p ∈ ps, k ∉ p.spends)
    (h : (m.lookup k).isSome ∨ ∃ p ∈ ps, (p.written k).isSome) :
    ((applyAll ps m).lookup k).isSome := by
  induction ps generalizing m with
  | nil => simpa using h
  | cons p ps ih =>
      apply ih (p.apply m) (fun q hq ↦ hspends q (List.mem_cons_of_mem _ hq))
      by_cases hwritten : (p.written k).isSome
      · obtain ⟨v, hv⟩ := Option.isSome_iff_exists.mp hwritten
        exact Or.inl (by rw [p.lookup_apply_of_written hv]; rfl)
      · have hwrite : k ∉ p.writes.map Prod.fst := fun hk ↦
          hwritten (Patch.written_isSome_iff.mpr hk)
        rcases h with hold | ⟨q, hq, hlater⟩
        · rw [p.lookup_apply_of_notMem _ hwrite, if_neg (hspends p List.mem_cons_self)]
          exact Or.inl hold
        · rcases List.mem_cons.mp hq with rfl | hq
          · exact (hwritten hlater).elim
          · exact Or.inr ⟨q, hq, hlater⟩

/-- A value that is there under the key or that a patch writes there. -/
def Supplied (ps : List (Patch κ ν)) (m : HashMap κ ν) (k : κ) (v : ν) : Prop :=
  m.lookup k = some v ∨ ∃ p ∈ ps, p.written k = some v

/-- Under a key that no patch spends and that has one value throughout, the patches leave what
is supplied, whatever their order. -/
theorem lookup_applyAll_iff {ps : List (Patch κ ν)} {m : HashMap κ ν} {k : κ}
    (hspends : ∀ p ∈ ps, k ∉ p.spends)
    (hsame : ∀ v w, Supplied ps m k v → Supplied ps m k w → v = w) {v : ν} :
    (applyAll ps m).lookup k = some v ↔ Supplied ps m k v := by
  refine ⟨lookup_applyAll_written ps m, fun h ↦ ?_⟩
  have hbound : ((applyAll ps m).lookup k).isSome := by
    apply lookup_applyAll_isSome ps m hspends
    rcases h with hold | ⟨p, hp, hwritten⟩
    · exact Or.inl (by rw [hold]; rfl)
    · exact Or.inr ⟨p, hp, by rw [hwritten]; rfl⟩
  obtain ⟨w, hw⟩ := Option.isSome_iff_exists.mp hbound
  rw [hw, hsame v w h (lookup_applyAll_written ps m hw)]

end Support
