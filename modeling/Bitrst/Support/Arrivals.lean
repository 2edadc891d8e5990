import Bitrst.Support.HashMap

/-!
# Entries in the order of their arrival

The entries of a map carry stamps.  A list has the keys in the order of the
stamps when it has every key in use once, the one with the least stamp first.
It stays so when entries leave and when an entry with a new greatest stamp joins
at the end.
-/

namespace Support

variable {κ ν : Type*} [DecidableEq κ]

/-- The keys of the map in the order of the stamps. -/
structure Arrivals (stamp : ν → ℕ) (m : EntryMap κ ν) (waiting : List κ) : Prop where
  mem_iff : ∀ k, k ∈ waiting ↔ (m.lookup k).isSome
  sorted : waiting.Pairwise fun k k' ↦ ∀ v v', m.lookup k = some v → m.lookup k' = some v' →
    stamp v < stamp v'

namespace Arrivals

variable {stamp : ν → ℕ} {m m' : EntryMap κ ν} {waiting : List κ}

theorem empty : Arrivals stamp (∅ : EntryMap κ ν) [] where
  mem_iff k := by simp
  sorted := .nil

theorem exists_lookup (h : Arrivals stamp m waiting) {k : κ} (hk : k ∈ waiting) :
    ∃ v, m.lookup k = some v := Option.isSome_iff_exists.mp ((h.mem_iff k).mp hk)

theorem nodup (h : Arrivals stamp m waiting) : waiting.Nodup := by
  apply List.Pairwise.imp_of_mem _ h.sorted
  rintro k k' hk - hless rfl
  obtain ⟨v, hv⟩ := h.exists_lookup hk
  exact Nat.lt_irrefl _ (hless v v hv hv)

theorem length_eq (h : Arrivals stamp m waiting) : waiting.length = m.entries.length := by
  have hperm : waiting.Perm m.keys := by
    refine (List.perm_ext_iff_of_nodup h.nodup m.nodupKeys).mpr fun k ↦ ?_
    exact (h.mem_iff k).trans (AList.lookup_isSome.trans AList.mem_keys)
  rw [hperm.length_eq]
  exact List.length_map _

/-- The entry with the least stamp is the first. -/
theorem head_eq (h : Arrivals stamp m waiting) {k : κ} {v : ν} (hk : m.lookup k = some v)
    (hleast : ∀ k' v', m.lookup k' = some v' → stamp v ≤ stamp v') :
    waiting.head? = some k := by
  have hmem : k ∈ waiting := (h.mem_iff k).mpr (by rw [hk]; rfl)
  have hsorted := h.sorted
  cases waiting with
  | nil => cases hmem
  | cons first rest =>
      rcases List.mem_cons.mp hmem with rfl | hrest
      · rfl
      · obtain ⟨w, hw⟩ := h.exists_lookup List.mem_cons_self
        have hless := List.rel_of_pairwise_cons hsorted hrest w v hw hk
        exact absurd (hleast first w hw) (Nat.not_le_of_lt hless)

/-- The entries that are still there are listed in the same order. -/
theorem keep (h : Arrivals stamp m waiting)
    (hfewer : ∀ k v, m'.lookup k = some v → m.lookup k = some v) :
    Arrivals stamp m' (waiting.filter fun k ↦ (m'.lookup k).isSome) where
  mem_iff k := by
    rw [List.mem_filter]
    refine ⟨And.right, fun hk ↦ ⟨(h.mem_iff k).mpr ?_, hk⟩⟩
    obtain ⟨v, hv⟩ := Option.isSome_iff_exists.mp hk
    rw [hfewer k v hv]
    rfl
  sorted := by
    apply List.Pairwise.filter
    exact h.sorted.imp fun hless v v' hv hv' ↦
      hless v v' (hfewer _ v hv) (hfewer _ v' hv')

/-- A new entry with the greatest stamp comes last. -/
theorem join (h : Arrivals stamp m waiting) {k : κ} {v : ν} (hk : m.lookup k = none)
    (hnew : ∀ k' v', m.lookup k' = some v' → stamp v' < stamp v) :
    Arrivals stamp (m.insert k v) (waiting ++ [k]) where
  mem_iff k' := by
    rw [List.mem_append, List.mem_singleton, h.mem_iff, EntryMap.lookup_insert_ite]
    by_cases heq : k' = k
    · simp [heq]
    · simp [heq]
  sorted := by
    have hold : ∀ k' ∈ waiting, (m.insert k v).lookup k' = m.lookup k' := by
      intro k' hk'
      rw [EntryMap.lookup_insert_ite, if_neg]
      rintro rfl
      rw [h.mem_iff, hk] at hk'
      cases hk'
    refine List.pairwise_append.mpr ⟨?_, List.pairwise_singleton _ _, ?_⟩
    · apply List.Pairwise.imp_of_mem _ h.sorted
      intro a b ha hb hless w w' hw hw'
      rw [hold a ha] at hw
      rw [hold b hb] at hw'
      exact hless w w' hw hw'
    · intro a ha b hb w w' hw hw'
      obtain rfl := List.mem_singleton.mp hb
      rw [hold a ha] at hw
      rw [EntryMap.lookup_insert_ite, if_pos rfl] at hw'
      obtain rfl := Option.some.inj hw'
      exact hnew a w hw

end Arrivals

end Support
