import Mathlib.Data.Finmap

/-!
# Finite maps with a constant value type

Mathlib's `Finmap` is dependently typed.  This module fixes the value type and
states the lookups after an update as single conditional equations, the form
in which every state record of a program keyed by hashes is reasoned about.
-/

namespace Support

/-- A finite map from keys to values of one fixed type. -/
abbrev HashMap (κ : Type*) (ν : Type*) := Finmap fun _ : κ ↦ ν

namespace HashMap

variable {κ ν : Type*} [DecidableEq κ]

theorem lookup_insert_ite (m : HashMap κ ν) (a k : κ) (v : ν) :
    (Finmap.insert a v m).lookup k = if k = a then some v else m.lookup k := by
  by_cases h : k = a
  · subst h
    simp
  · rw [if_neg h, Finmap.lookup_insert_of_ne _ h]

theorem lookup_erase_ite (m : HashMap κ ν) (a k : κ) :
    (Finmap.erase a m).lookup k = if k = a then none else m.lookup k := by
  by_cases h : k = a
  · subst h
    simp
  · rw [if_neg h, Finmap.lookup_erase_ne h]

/-- Writing a list of bindings from left to right. -/
def insertAll (m : HashMap κ ν) (bindings : List (κ × ν)) : HashMap κ ν :=
  bindings.foldl (fun acc kv ↦ Finmap.insert kv.1 kv.2 acc) m

/-- Removing a list of keys from left to right. -/
def eraseAll (m : HashMap κ ν) (keys : List κ) : HashMap κ ν :=
  keys.foldl (fun acc k ↦ Finmap.erase k acc) m

@[simp] theorem insertAll_nil (m : HashMap κ ν) : m.insertAll [] = m := rfl

@[simp] theorem insertAll_cons (m : HashMap κ ν) (kv : κ × ν) (rest : List (κ × ν)) :
    m.insertAll (kv :: rest) = insertAll (Finmap.insert kv.1 kv.2 m) rest := rfl

@[simp] theorem eraseAll_nil (m : HashMap κ ν) : m.eraseAll [] = m := rfl

@[simp] theorem eraseAll_cons (m : HashMap κ ν) (k : κ) (rest : List κ) :
    m.eraseAll (k :: rest) = eraseAll (Finmap.erase k m) rest := rfl

theorem lookup_eraseAll (m : HashMap κ ν) (keys : List κ) (k : κ) :
    (m.eraseAll keys).lookup k = if k ∈ keys then none else m.lookup k := by
  induction keys generalizing m with
  | nil => simp
  | cons a rest ih =>
      rw [eraseAll_cons, ih, lookup_erase_ite]
      by_cases hka : k = a <;> by_cases hrest : k ∈ rest <;> simp [hka, hrest]

theorem lookup_insertAll_of_notMem (m : HashMap κ ν) (bindings : List (κ × ν)) {k : κ}
    (hk : k ∉ bindings.map Prod.fst) : (m.insertAll bindings).lookup k = m.lookup k := by
  induction bindings generalizing m with
  | nil => rfl
  | cons kv rest ih =>
      rw [List.map_cons, List.mem_cons, not_or] at hk
      rw [insertAll_cons, ih _ hk.2, lookup_insert_ite, if_neg hk.1]

/-- After a bulk write every written key is bound to one of its written values. -/
theorem lookup_insertAll_of_mem (m : HashMap κ ν) (bindings : List (κ × ν)) {k : κ}
    (hk : k ∈ bindings.map Prod.fst) :
    ∃ v, (k, v) ∈ bindings ∧ (m.insertAll bindings).lookup k = some v := by
  induction bindings generalizing m with
  | nil => simp at hk
  | cons kv rest ih =>
      rw [insertAll_cons]
      by_cases hrest : k ∈ rest.map Prod.fst
      · obtain ⟨v, hv, hlookup⟩ := ih (Finmap.insert kv.1 kv.2 m) hrest
        exact ⟨v, List.mem_cons_of_mem _ hv, hlookup⟩
      · have hkv : k = kv.1 := by
          rcases List.mem_cons.mp (by simpa using hk : k ∈ kv.1 :: rest.map Prod.fst) with h | h
          · exact h
          · exact (hrest h).elim
        refine ⟨kv.2, ?_, ?_⟩
        · rw [hkv]
          exact List.mem_cons_self
        · rw [lookup_insertAll_of_notMem _ _ hrest, lookup_insert_ite, if_pos hkv]

/-- A bulk write reads back independently of the map it is applied to. -/
theorem lookup_insertAll_eq (m m' : HashMap κ ν) (bindings : List (κ × ν)) {k : κ}
    (hk : k ∈ bindings.map Prod.fst) :
    (m.insertAll bindings).lookup k = (m'.insertAll bindings).lookup k := by
  induction bindings generalizing m m' with
  | nil => simp at hk
  | cons kv rest ih =>
      rw [insertAll_cons, insertAll_cons]
      by_cases hrest : k ∈ rest.map Prod.fst
      · exact ih _ _ hrest
      · have hkv : k = kv.1 := by
          rcases List.mem_cons.mp (by simpa using hk : k ∈ kv.1 :: rest.map Prod.fst) with h | h
          · exact h
          · exact (hrest h).elim
        rw [lookup_insertAll_of_notMem _ _ hrest, lookup_insertAll_of_notMem _ _ hrest,
          lookup_insert_ite, lookup_insert_ite, if_pos hkv, if_pos hkv]

/-! ### Counting -/

theorem entries_insert (m : HashMap κ ν) (a : κ) (v : ν) :
    (Finmap.insert a v m).entries = ⟨a, v⟩ ::ₘ (Finmap.erase a m).entries :=
  Finmap.induction_on m fun _ ↦ congrArg _ AList.entries_insert

/-- The number of entries whose value satisfies a predicate. -/
def count (p : ν → Prop) [DecidablePred p] (m : HashMap κ ν) : ℕ :=
  m.entries.countP fun entry ↦ p entry.2

variable {p : ν → Prop} [DecidablePred p]

theorem count_insert (m : HashMap κ ν) (a : κ) (v : ν) :
    count p (Finmap.insert a v m) = count p (Finmap.erase a m) + if p v then 1 else 0 := by
  rw [count, entries_insert, Multiset.countP_cons]
  rfl

/-- What an entry counts for is what its removal takes away. -/
theorem count_erase_of_lookup {m : HashMap κ ν} {a : κ} {v : ν} (h : m.lookup a = some v) :
    m.count p = count p (Finmap.erase a m) + if p v then 1 else 0 := by
  have hsame : Finmap.insert a v m = m := by
    apply Finmap.ext_lookup
    intro k
    rw [lookup_insert_ite]
    split
    · rename_i hk
      rw [hk, h]
    · rfl
  rw [← count_insert, hsame]

theorem count_erase_of_lookup_none {m : HashMap κ ν} {a : κ} (h : m.lookup a = none) :
    count p (Finmap.erase a m) = m.count p := by
  have hsame : Finmap.erase a m = m := by
    apply Finmap.ext_lookup
    intro k
    rw [lookup_erase_ite]
    split
    · rename_i hk
      rw [hk, h]
    · rfl
  rw [hsame]

end HashMap

/-! ## Maps that are iterated -/

/-- A finite map with an order of its entries, for code that iterates a map. -/
abbrev EntryMap (κ : Type*) (ν : Type*) := AList fun _ : κ ↦ ν

namespace EntryMap

variable {κ ν : Type*} [DecidableEq κ]

/-- The entries that satisfy `keep`. -/
def retain (keep : κ → ν → Bool) (m : EntryMap κ ν) : EntryMap κ ν where
  entries := m.entries.filter fun entry ↦ keep entry.1 entry.2
  nodupKeys := m.nodupKeys.sublist List.filter_sublist

theorem mem_entries_iff {m : EntryMap κ ν} {k : κ} {v : ν} :
    (⟨k, v⟩ : Sigma fun _ : κ ↦ ν) ∈ m.entries ↔ m.lookup k = some v :=
  AList.mem_lookup_iff.symm

theorem lookup_retain {keep : κ → ν → Bool} {m : EntryMap κ ν} {k : κ} {v : ν} :
    (m.retain keep).lookup k = some v ↔ m.lookup k = some v ∧ keep k v := by
  rw [← mem_entries_iff, ← mem_entries_iff]
  exact List.mem_filter

theorem lookup_insert_ite (m : EntryMap κ ν) (a k : κ) (v : ν) :
    AList.lookup k (AList.insert a v m) = if k = a then some v else AList.lookup k m := by
  by_cases h : k = a
  · rw [if_pos h, h, AList.lookup_insert]
  · rw [if_neg h, AList.lookup_insert_ne h]

theorem lookup_erase_ite (m : EntryMap κ ν) (a k : κ) :
    AList.lookup k (AList.erase a m) = if k = a then none else AList.lookup k m := by
  by_cases h : k = a
  · rw [if_pos h, h, AList.lookup_erase]
  · rw [if_neg h, AList.lookup_erase_ne h]

theorem length_erase_add_one {m : EntryMap κ ν} {k : κ} {v : ν} (h : m.lookup k = some v) :
    (m.erase k).entries.length + 1 = m.entries.length := by
  have hmem : k ∈ m.entries.keys := List.mem_keys_of_mem (mem_entries_iff.mpr h)
  obtain ⟨found, front, back, -, hsplit, herase⟩ := List.exists_of_kerase hmem
  have hentries : (m.erase k).entries = front ++ back := herase
  rw [hentries, hsplit, List.length_append, List.length_append, List.length_cons]
  omega

/-- Keys are unique, so erasing the first entry of a key erases all of it. -/
theorem entries_erase (m : EntryMap κ ν) (a : κ) :
    (AList.erase a m).entries = m.entries.filter fun entry ↦ decide (entry.1 ≠ a) := by
  change List.kerase a m.entries = _
  have hkeys := m.nodupKeys
  generalize m.entries = entries at hkeys ⊢
  induction entries with
  | nil => rfl
  | cons entry rest ih =>
      obtain ⟨hnew, hrest⟩ := List.nodupKeys_cons.mp hkeys
      by_cases heq : a = entry.1
      · rw [List.kerase_cons_eq heq, List.filter_cons_of_neg (by simp [heq])]
        symm
        apply List.filter_eq_self.mpr
        intro other hother
        have hne : other.1 ≠ a := by
          intro hsame
          exact hnew (heq ▸ hsame ▸ List.mem_keys_of_mem hother)
        simpa using hne
      · rw [List.kerase_cons_ne heq, List.filter_cons_of_pos (by simpa using Ne.symm heq),
          ih hrest]

end EntryMap

end Support
