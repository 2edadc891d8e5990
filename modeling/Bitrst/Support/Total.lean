import Bitrst.Support.UndoStack
import Mathlib.Algebra.Order.BigOperators.Group.Finset
import Mathlib.Algebra.BigOperators.Ring.Finset

/-!
# Totals over finite maps

Every value of a map has a weight, and the total is the sum of the weights of
its bindings.  A part of a map has at most its total, and a patch that removes
distinct bindings adds at most what it writes and takes away what it removes.
Over an undo stack this bounds the total by what the items on the stack gain.
-/

namespace Support

variable {κ ν : Type*} [DecidableEq κ]

namespace HashMap

/-- The weight of the binding of a key, zero where there is none. -/
def weightAt (weight : ν → ℕ) (m : HashMap κ ν) (k : κ) : ℕ := ((m.lookup k).map weight).getD 0

/-- The sum of the weights of all bindings. -/
def total (weight : ν → ℕ) (m : HashMap κ ν) : ℕ := ∑ k ∈ m.keys, m.weightAt weight k

variable {weight : ν → ℕ}

@[simp] theorem total_empty : total weight (∅ : HashMap κ ν) = 0 := rfl

theorem weightAt_of_notMem {m : HashMap κ ν} {k : κ} (hk : k ∉ m.keys) :
    m.weightAt weight k = 0 := by
  rw [weightAt, Finmap.lookup_eq_none.mpr (mt Finmap.mem_keys.mpr hk)]
  rfl

/-- The total is a sum over any set of keys that has all keys in use. -/
theorem total_eq_sum {m : HashMap κ ν} {keys : Finset κ} (hkeys : m.keys ⊆ keys) :
    m.total weight = ∑ k ∈ keys, m.weightAt weight k :=
  Finset.sum_subset hkeys fun _ _ hnot ↦ weightAt_of_notMem hnot

/-- The total as the sum over the stored entries. -/
theorem total_eq_sum_entries (m : HashMap κ ν) :
    m.total weight = (m.entries.map fun entry ↦ weight entry.2).sum := by
  have hkeys : m.keys.val = m.entries.map Sigma.fst := rfl
  rw [total, Finset.sum_eq_multiset_sum, hkeys, Multiset.map_map]
  apply congrArg
  apply Multiset.map_congr rfl
  intro entry hentry
  have hlookup : m.lookup entry.1 = some entry.2 := Finmap.mem_lookup_iff.mpr hentry
  simp only [Function.comp_apply, weightAt, hlookup, Option.map_some, Option.getD_some]

/-- Two maps that weigh the same under every key. -/
theorem total_congr {μ : Type*} {weight' : μ → ℕ} {m : HashMap κ ν} {m' : HashMap κ μ}
    (h : ∀ k, m.weightAt weight k = m'.weightAt weight' k) : m.total weight = m'.total weight' := by
  have hleft : m.keys ⊆ m.keys ∪ m'.keys := Finset.subset_union_left
  have hright : m'.keys ⊆ m.keys ∪ m'.keys := Finset.subset_union_right
  rw [total_eq_sum hleft, total_eq_sum hright]
  exact Finset.sum_congr rfl fun k _ ↦ h k

theorem total_le_total {weight' : ν → ℕ} (m : HashMap κ ν) (h : ∀ v, weight v ≤ weight' v) :
    m.total weight ≤ m.total weight' := by
  apply Finset.sum_le_sum
  intro k _
  unfold weightAt
  cases m.lookup k with
  | none => exact Nat.le_refl _
  | some v => exact h v

theorem total_mono {m m' : HashMap κ ν} (h : Submap m m') : m.total weight ≤ m'.total weight := by
  have hkeys : m.keys ⊆ m'.keys := by
    intro k hk
    obtain ⟨v, hv⟩ := Finmap.mem_iff.mp (Finmap.mem_keys.mp hk)
    exact Finmap.mem_keys.mpr (Finmap.mem_iff.mpr ⟨v, h k v hv⟩)
  rw [total_eq_sum hkeys, total]
  apply Finset.sum_le_sum
  intro k _
  unfold weightAt
  cases hv : m.lookup k with
  | none => exact Nat.zero_le _
  | some v => rw [h k v hv]

theorem total_insert_le (m : HashMap κ ν) (k : κ) (v : ν) :
    total weight (Finmap.insert k v m) ≤ m.total weight + weight v := by
  have hkeys : (Finmap.insert k v m).keys ⊆ insert k m.keys := by
    intro key hkey
    rcases Finmap.mem_insert.mp (Finmap.mem_keys.mp hkey) with rfl | hold
    · exact Finset.mem_insert_self _ _
    · exact Finset.mem_insert_of_mem (Finmap.mem_keys.mpr hold)
  rw [total_eq_sum hkeys, total_eq_sum (Finset.subset_insert k m.keys),
    ← Finset.add_sum_erase _ _ (Finset.mem_insert_self k m.keys),
    ← Finset.add_sum_erase _ (fun key ↦ m.weightAt weight key) (Finset.mem_insert_self k m.keys)]
  have hnew : weightAt weight (Finmap.insert k v m) k = weight v := by
    rw [weightAt, Finmap.lookup_insert]
    rfl
  have hold : ∀ key ∈ (insert k m.keys).erase k,
      weightAt weight (Finmap.insert k v m) key = m.weightAt weight key := by
    intro key hkey
    rw [weightAt, lookup_insert_ite, if_neg (Finset.ne_of_mem_erase hkey), weightAt]
  rw [hnew, Finset.sum_congr rfl hold, Nat.add_comm]
  exact Nat.add_le_add_right (Nat.le_add_left _ _) _

theorem total_erase_add (m : HashMap κ ν) (k : κ) :
    total weight (Finmap.erase k m) + m.weightAt weight k = m.total weight := by
  have hrest : ∀ key ∈ m.keys.erase k,
      weightAt weight (Finmap.erase k m) key = m.weightAt weight key := by
    intro key hkey
    rw [weightAt, lookup_erase_ite, if_neg (Finset.ne_of_mem_erase hkey), weightAt]
  rw [total, Finmap.keys_erase, Finset.sum_congr rfl hrest]
  by_cases hk : k ∈ m.keys
  · exact Finset.sum_erase_add _ _ hk
  · rw [Finset.erase_eq_of_notMem hk, weightAt_of_notMem hk]
    rfl

theorem total_insertAll_le (m : HashMap κ ν) (bindings : List (κ × ν)) :
    total weight (m.insertAll bindings) ≤
      m.total weight + (bindings.map fun binding ↦ weight binding.2).sum := by
  induction bindings generalizing m with
  | nil => exact Nat.le_refl _
  | cons binding rest ih =>
      have hrest := ih (Finmap.insert binding.1 binding.2 m)
      have hfirst : total weight (Finmap.insert binding.1 binding.2 m) ≤
          m.total weight + weight binding.2 := total_insert_le m binding.1 binding.2
      rw [insertAll_cons, List.map_cons, List.sum_cons]
      omega

/-- A map whose bindings all occur in a list is worth at most what the list is. -/
theorem total_le_sum_of_mem {m : HashMap κ ν} {bindings : List (κ × ν)}
    (h : ∀ k v, m.lookup k = some v → (k, v) ∈ bindings) :
    m.total weight ≤ (bindings.map fun binding ↦ weight binding.2).sum := by
  induction bindings generalizing m with
  | nil =>
      obtain rfl : m = ∅ := by
        apply Finmap.ext_lookup
        intro k
        rw [Finmap.lookup_empty]
        by_contra hne
        obtain ⟨v, hv⟩ := Option.ne_none_iff_exists'.mp hne
        exact List.not_mem_nil (h k v hv)
      exact Nat.zero_le _
  | cons binding rest ih =>
      obtain ⟨key, value⟩ := binding
      rw [List.map_cons, List.sum_cons]
      by_cases hkey : m.lookup key = some value
      · -- Without the first key, all bindings occur in the rest.
        have hrest : total weight (Finmap.erase key m) ≤ _ := ih fun k v hv ↦ by
          rw [lookup_erase_ite] at hv
          split at hv
          · cases hv
          · rename_i hne
            rcases List.mem_cons.mp (h k v hv) with heq | hmem
            · exact absurd (Prod.mk.inj heq).1 hne
            · exact hmem
        have herase : total weight (Finmap.erase key m) + m.weightAt weight key =
            m.total weight := total_erase_add m key
        rw [weightAt, hkey, Option.map_some, Option.getD_some] at herase
        rw [← herase, Nat.add_comm]
        exact Nat.add_le_add_left hrest _
      · have hrest : m.total weight ≤ _ := ih fun k v hv ↦ by
          rcases List.mem_cons.mp (h k v hv) with heq | hmem
          · obtain ⟨rfl, rfl⟩ := Prod.mk.inj heq
            exact absurd hv hkey
          · exact hmem
        exact hrest.trans (Nat.le_add_left _ _)

/-- Erasing distinct keys takes their weights away. -/
theorem total_eraseAll_add (m : HashMap κ ν) {keys : List κ} (hkeys : keys.Nodup) :
    total weight (m.eraseAll keys) + (keys.map (m.weightAt weight)).sum = m.total weight := by
  induction keys generalizing m with
  | nil => rfl
  | cons k rest ih =>
      obtain ⟨hk, hrest⟩ := List.nodup_cons.mp hkeys
      have hsame : rest.map (weightAt weight (Finmap.erase k m)) =
          rest.map (m.weightAt weight) := by
        apply List.map_congr_left
        intro key hkey
        rw [weightAt, lookup_erase_ite, if_neg (fun heq : key = k ↦ hk (heq ▸ hkey)), weightAt]
      have herased := ih (Finmap.erase k m) hrest
      have hfirst : total weight (Finmap.erase k m) + m.weightAt weight k = m.total weight :=
        total_erase_add m k
      rw [hsame] at herased
      rw [eraseAll_cons, List.map_cons, List.sum_cons]
      omega

end HashMap

/-- A patch that spends distinct keys. -/
theorem Patch.total_apply_add_le (p : Patch κ ν) (m : HashMap κ ν) {weight : ν → ℕ}
    (hspends : p.spends.Nodup) :
    (p.apply m).total weight + (p.spends.map (m.weightAt weight)).sum ≤
      m.total weight + (p.writes.map fun binding ↦ weight binding.2).sum := by
  have hinsert : (p.apply m).total weight ≤ (m.eraseAll p.spends).total weight +
      (p.writes.map fun binding ↦ weight binding.2).sum :=
    HashMap.total_insertAll_le (m.eraseAll p.spends) p.writes
  have herase : (m.eraseAll p.spends).total weight +
      (p.spends.map (m.weightAt weight)).sum = m.total weight :=
    HashMap.total_eraseAll_add m hspends
  omega

/-- Where every item adds at most its gain, the state of a stack that stands on the empty map
has at most the gains of the items. -/
theorem UndoStack.Grounded.total_le {α : Type*} {patches : α → List (Patch κ ν)}
    {stack : UndoStack α κ ν} (h : UndoStack.Grounded patches stack) (weight : ν → ℕ) (gain : α → ℕ)
    (hgain : ∀ frame ∈ stack.frames,
      (frame.after patches).total weight ≤ frame.before.total weight + gain frame.item) :
    stack.state.total weight ≤ (stack.items.map gain).sum := by
  obtain ⟨frames, state⟩ := stack
  induction frames using List.reverseRecOn generalizing state with
  | nil =>
      obtain rfl : state = ∅ := h.empty rfl
      exact Nat.zero_le _
  | append_singleton frames frame ih =>
      have hbelow := ih frame.before h.below fun below hmem ↦
        hgain below (List.mem_append_left _ hmem)
      have htop : state.total weight ≤ (frame.after patches).total weight :=
        HashMap.total_mono h.nested.top
      have hframe := hgain frame (by simp)
      have hsum : ((UndoStack.mk (frames ++ [frame]) state).items.map gain).sum =
          ((UndoStack.mk frames frame.before).items.map gain).sum + gain frame.item := by
        simp
      rw [hsum]
      exact htop.trans (hframe.trans (Nat.add_le_add_right hbelow _))

end Support
