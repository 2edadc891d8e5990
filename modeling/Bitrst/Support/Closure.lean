import Mathlib.Data.List.Basic

/-!
# Closures computed by loops

Two loops that compute a closed set: a work list over labelled edges, where a
target is pushed once, when it is collected; and passes over a list of items
that are repeated until one adds nothing.  For both, the length of the list is
fuel enough.
-/

namespace Support

variable {ι α : Type*} [DecidableEq α]

/-! ## Work lists -/

section Worklist

variable (source target : ι → α)

/-- One turn: the targets of the edges from `current` that are not collected
yet are collected and pushed. -/
def visitEdges (current : α) : List ι → List α × List α → List α × List α
  | [], state => state
  | edge :: rest, (collected, stack) =>
      if source edge = current ∧ target edge ∉ collected then
        visitEdges current rest (target edge :: collected, target edge :: stack)
      else visitEdges current rest (collected, stack)

/-- `while let Some(current) = stack.pop()`. -/
def worklistLoop (edges : List ι) : ℕ → List α × List α → List α
  | 0, state => state.1
  | _ + 1, (collected, []) => collected
  | n + 1, (collected, current :: stack) =>
      worklistLoop edges n (visitEdges source target current edges (collected, stack))

/-- Everything the edges lead to from `root`. -/
def reachableFrom (edges : List ι) (root : α) : List α :=
  worklistLoop source target edges (edges.length + 2) ([], [root])

/-- The edges whose target is not collected yet. -/
def uncollected (edges : List ι) (collected : List α) : ℕ :=
  edges.countP fun edge ↦ target edge ∉ collected

theorem uncollected_cons (edge : ι) (rest : List ι) (collected : List α) :
    uncollected target (edge :: rest) collected =
      uncollected target rest collected + if target edge ∈ collected then 0 else 1 := by
  unfold uncollected
  rw [List.countP_cons]
  by_cases hedge : target edge ∈ collected <;> simp [hedge]

theorem uncollected_anti (edges : List ι) {collected collected' : List α}
    (h : collected ⊆ collected') :
    uncollected target edges collected' ≤ uncollected target edges collected := by
  induction edges with
  | nil => exact Nat.le_refl _
  | cons edge rest ih =>
      rw [uncollected_cons, uncollected_cons]
      by_cases hedge : target edge ∈ collected
      · rw [if_pos hedge, if_pos (h hedge)]
        exact ih
      · rw [if_neg hedge]
        split <;> omega

/-- Collecting a new target leaves fewer edges. -/
theorem uncollected_cons_lt {edges : List ι} {collected : List α} {edge : ι} (hedge : edge ∈ edges)
    (hnew : target edge ∉ collected) :
    uncollected target edges (target edge :: collected) < uncollected target edges collected := by
  induction edges with
  | nil => simp at hedge
  | cons first rest ih =>
      rw [uncollected_cons, uncollected_cons]
      rcases List.mem_cons.mp hedge with rfl | hrest
      · have hle := uncollected_anti target rest (List.subset_cons_self (target edge) collected)
        rw [if_pos List.mem_cons_self, if_neg hnew]
        omega
      · have hlt := ih hrest
        by_cases hfirst : target first ∈ collected
        · rw [if_pos hfirst, if_pos (List.mem_cons_of_mem _ hfirst)]
          omega
        · rw [if_neg hfirst]
          split <;> omega

/-- What one turn does to the collected set and the stack. -/
structure Visited (edges : List ι) (current : α) (rest : List ι) (before after : List α × List α) :
    Prop where
  collected : before.1 ⊆ after.1
  stack : before.2 ⊆ after.2
  pushed : ∀ a ∈ after.1, a ∈ before.1 ∨ a ∈ after.2
  targets : ∀ edge ∈ rest, source edge = current → target edge ∈ after.1
  measure : after.2.length + uncollected target edges after.1 ≤
    before.2.length + uncollected target edges before.1

theorem visitEdges_visited (edges : List ι) (current : α) (rest : List ι)
    (hrest : rest ⊆ edges) (state : List α × List α) :
    Visited source target edges current rest state
      (visitEdges source target current rest state) := by
  induction rest generalizing state with
  | nil =>
      exact ⟨List.Subset.refl _, List.Subset.refl _, fun _ ha ↦ Or.inl ha, by simp, Nat.le_refl _⟩
  | cons edge rest ih =>
      obtain ⟨collected, stack⟩ := state
      have htail : rest ⊆ edges := fun e he ↦ hrest (List.mem_cons_of_mem _ he)
      unfold visitEdges
      split
      · rename_i hedge
        have hnext := ih htail (target edge :: collected, target edge :: stack)
        have hlt := uncollected_cons_lt target (hrest List.mem_cons_self) hedge.2
        refine ⟨fun a ha ↦ hnext.collected (List.mem_cons_of_mem _ ha),
          fun a ha ↦ hnext.stack (List.mem_cons_of_mem _ ha), ?_, ?_, ?_⟩
        · intro a ha
          rcases hnext.pushed a ha with hbefore | hafter
          · rcases List.mem_cons.mp hbefore with rfl | hold
            · exact Or.inr (hnext.stack List.mem_cons_self)
            · exact Or.inl hold
          · exact Or.inr hafter
        · intro e he hsource
          rcases List.mem_cons.mp he with rfl | he
          · exact hnext.collected List.mem_cons_self
          · exact hnext.targets e he hsource
        · have hmeasure := hnext.measure
          simp only [List.length_cons] at hmeasure ⊢
          omega
      · rename_i hedge
        have hnext := ih htail (collected, stack)
        refine ⟨hnext.collected, hnext.stack, hnext.pushed, ?_, hnext.measure⟩
        intro e he hsource
        rcases List.mem_cons.mp he with rfl | he
        · have hold : target e ∈ collected := by
            by_contra hnew
            exact hedge ⟨hsource, hnew⟩
          exact hnext.collected hold
        · exact hnext.targets e he hsource

/-- With fuel enough, the loop ends with a set closed under the edges. -/
theorem worklistLoop_closed (edges : List ι) :
    ∀ (n : ℕ) (done : List α) (state : List α × List α),
      state.2.length + uncollected target edges state.1 < n →
      (∀ a ∈ state.1, a ∈ done ∨ a ∈ state.2) →
      (∀ a ∈ done, ∀ edge ∈ edges, source edge = a → target edge ∈ state.1) →
      state.1 ⊆ worklistLoop source target edges n state ∧
        ∀ a, a ∈ done ∨ a ∈ state.2 ∨ a ∈ worklistLoop source target edges n state →
          ∀ edge ∈ edges, source edge = a →
            target edge ∈ worklistLoop source target edges n state := by
  intro n
  induction n with
  | zero => omega
  | succ n ih =>
      rintro done ⟨collected, stack⟩ hfuel hcollected hdone
      cases stack with
      | nil =>
          refine ⟨List.Subset.refl _, ?_⟩
          intro a ha edge hedge hsource
          rcases ha with ha | ha | ha
          · exact hdone a ha edge hedge hsource
          · cases ha
          · rcases hcollected a ha with hold | hnone
            · exact hdone a hold edge hedge hsource
            · cases hnone
      | cons current stack =>
          have hvisit := visitEdges_visited source target edges current edges
            (List.Subset.refl _) (collected, stack)
          have hmeasure := hvisit.measure
          simp only [List.length_cons] at hfuel hmeasure
          obtain ⟨hsub, hclosed⟩ := ih (current :: done)
            (visitEdges source target current edges (collected, stack)) (by omega)
            (by
              intro a ha
              rcases hvisit.pushed a ha with hbefore | hafter
              · rcases hcollected a hbefore with hold | hstack
                · exact Or.inl (List.mem_cons_of_mem _ hold)
                · rcases List.mem_cons.mp hstack with rfl | hstack
                  · exact Or.inl List.mem_cons_self
                  · exact Or.inr (hvisit.stack hstack)
              · exact Or.inr hafter)
            (by
              intro a ha edge hedge hsource
              rcases List.mem_cons.mp ha with rfl | ha
              · exact hvisit.targets edge hedge hsource
              · exact hvisit.collected (hdone a ha edge hedge hsource))
          refine ⟨fun a ha ↦ hsub (hvisit.collected ha), ?_⟩
          intro a ha
          apply hclosed a
          rcases ha with ha | ha | ha
          · exact Or.inl (List.mem_cons_of_mem _ ha)
          · rcases List.mem_cons.mp ha with rfl | ha
            · exact Or.inl List.mem_cons_self
            · exact Or.inr (Or.inl (hvisit.stack ha))
          · exact Or.inr (Or.inr ha)

/-- The targets of edges from the root or from what is reachable are reachable. -/
theorem reachableFrom_closed {edges : List ι} {root : α} {edge : ι} (hedge : edge ∈ edges)
    (hsource : source edge = root ∨ source edge ∈ reachableFrom source target edges root) :
    target edge ∈ reachableFrom source target edges root := by
  have hfuel : uncollected target edges [] ≤ edges.length := List.countP_le_length
  obtain ⟨-, hclosed⟩ := worklistLoop_closed source target edges (edges.length + 2) [] ([], [root])
    (by simp only [List.length_singleton]; omega) (by simp) (by simp)
  rcases hsource with rfl | hmem
  · exact hclosed _ (Or.inr (Or.inl List.mem_cons_self)) edge hedge rfl
  · exact hclosed _ (Or.inr (Or.inr hmem)) edge hedge rfl

/-- A turn collects and pushes only targets of edges from the current source. -/
theorem visitEdges_subset {found : List α} {current : α} {rest : List ι}
    (hrest : ∀ edge ∈ rest, source edge = current → target edge ∈ found)
    {state : List α × List α} (hcollected : state.1 ⊆ found) {allowed : List α}
    (hstack : state.2 ⊆ allowed) (hfound : found ⊆ allowed) :
    (visitEdges source target current rest state).1 ⊆ found ∧
      (visitEdges source target current rest state).2 ⊆ allowed := by
  induction rest generalizing state with
  | nil => exact ⟨hcollected, hstack⟩
  | cons edge rest ih =>
      obtain ⟨collected, stack⟩ := state
      have htail : ∀ e ∈ rest, source e = current → target e ∈ found :=
        fun e he ↦ hrest e (List.mem_cons_of_mem _ he)
      unfold visitEdges
      split
      · rename_i hedge
        have hnew := hrest edge List.mem_cons_self hedge.1
        apply ih htail
        · exact List.cons_subset.mpr ⟨hnew, hcollected⟩
        · exact List.cons_subset.mpr ⟨hfound hnew, hstack⟩
      · exact ih htail hcollected hstack

/-- What is reachable lies in every set that the edges do not leave. -/
theorem reachableFrom_subset {edges : List ι} {root : α} {found : List α}
    (hclosed : ∀ edge ∈ edges, source edge = root ∨ source edge ∈ found → target edge ∈ found) :
    reachableFrom source target edges root ⊆ found := by
  have hloop : ∀ (n : ℕ) (state : List α × List α), state.1 ⊆ found → state.2 ⊆ root :: found →
      worklistLoop source target edges n state ⊆ found := by
    intro n
    induction n with
    | zero => exact fun _ hcollected _ ↦ hcollected
    | succ n ih =>
        rintro ⟨collected, stack⟩ hcollected hstack
        cases stack with
        | nil => exact hcollected
        | cons current stack =>
            obtain ⟨hcurrent, hstack⟩ := List.cons_subset.mp hstack
            have hedges : ∀ edge ∈ edges, source edge = current → target edge ∈ found :=
              fun edge hedge hsource ↦ hclosed edge hedge (hsource ▸ List.mem_cons.mp hcurrent)
            have hvisit := visitEdges_subset source target hedges
              (show (collected, stack).1 ⊆ found from hcollected) hstack
              (List.subset_cons_self root found)
            exact ih _ hvisit.1 hvisit.2
  exact hloop _ _ (List.nil_subset _) (List.cons_subset.mpr ⟨List.mem_cons_self, List.nil_subset _⟩)

end Worklist

/-! ## Saturation -/

section Saturation

variable (key : ι → α) (hit : List α → ι → Bool)

/-- One pass: the key of every item that is hit is added. -/
def saturatePass : List ι → List α → List α
  | [], found => found
  | item :: rest, found =>
      if key item ∉ found ∧ hit found item then saturatePass rest (key item :: found)
      else saturatePass rest found

/-- Passes until one adds nothing. -/
def saturateLoop (items : List ι) : ℕ → List α → List α
  | 0, found => found
  | n + 1, found =>
      let next := saturatePass key hit items found
      if next.length = found.length then next else saturateLoop items n next

/-- The keys found at the start, and those of items hit by keys found. -/
inductive Saturated (items : List ι) (start : List α) : α → Prop
  | start {a : α} (ha : a ∈ start) : Saturated items start a
  | item {x : ι} {found : List α} (hfound : ∀ a ∈ found, Saturated items start a)
      (hx : x ∈ items) (hhit : hit found x) : Saturated items start (key x)

variable {key hit}

theorem subset_saturatePass (rest : List ι) (found : List α) :
    found ⊆ saturatePass key hit rest found := by
  induction rest generalizing found with
  | nil => exact List.Subset.refl _
  | cons item rest ih =>
      unfold saturatePass
      split
      · exact fun a ha ↦ ih _ (List.mem_cons_of_mem _ ha)
      · exact ih _

theorem saturatePass_sound {items start : List _} (rest : List ι) (hrest : rest ⊆ items)
    (found : List α) (hfound : ∀ a ∈ found, Saturated key hit items start a) :
    ∀ a ∈ saturatePass key hit rest found, Saturated key hit items start a := by
  induction rest generalizing found with
  | nil => exact hfound
  | cons item rest ih =>
      have htail : rest ⊆ items := fun e he ↦ hrest (List.mem_cons_of_mem _ he)
      unfold saturatePass
      split
      · rename_i hitem
        apply ih htail _
        intro a ha
        rcases List.mem_cons.mp ha with rfl | ha
        · exact .item hfound (hrest List.mem_cons_self) hitem.2
        · exact hfound a ha
      · exact ih htail _ hfound

/-- A pass either adds nothing, and then no new item is hit, or shortens the
list of items whose key is not found. -/
theorem saturatePass_cases (items rest : List ι) (hrest : rest ⊆ items) (found : List α) :
    (saturatePass key hit rest found = found ∧ ∀ x ∈ rest, hit found x → key x ∈ found) ∨
      found.length < (saturatePass key hit rest found).length ∧
        uncollected key items (saturatePass key hit rest found) <
          uncollected key items found := by
  have hgrows : ∀ (rest : List ι), rest ⊆ items → ∀ found : List α,
      found.length ≤ (saturatePass key hit rest found).length ∧
        uncollected key items (saturatePass key hit rest found) ≤
          uncollected key items found := by
    intro rest
    induction rest with
    | nil => exact fun _ found ↦ ⟨Nat.le_refl _, Nat.le_refl _⟩
    | cons item rest ih =>
        intro hrest found
        have htail : rest ⊆ items := fun e he ↦ hrest (List.mem_cons_of_mem _ he)
        unfold saturatePass
        split
        · rename_i hitem
          have hnext := ih htail (key item :: found)
          have hlt := uncollected_cons_lt key (hrest List.mem_cons_self) hitem.1
          simp only [List.length_cons] at hnext
          omega
        · exact ih htail found
  induction rest with
  | nil => exact Or.inl ⟨rfl, by simp⟩
  | cons item rest ih =>
      have htail : rest ⊆ items := fun e he ↦ hrest (List.mem_cons_of_mem _ he)
      unfold saturatePass
      split
      · rename_i hitem
        have hnext := hgrows rest htail (key item :: found)
        have hlt := uncollected_cons_lt key (hrest List.mem_cons_self) hitem.1
        simp only [List.length_cons] at hnext
        exact Or.inr ⟨by omega, by omega⟩
      · rename_i hitem
        apply (ih htail).imp_left
        rintro ⟨hsame, hclosed⟩
        refine ⟨hsame, ?_⟩
        intro x hx hhit
        rcases List.mem_cons.mp hx with rfl | hx
        · by_contra hnew
          exact hitem ⟨hnew, hhit⟩
        · exact hclosed x hx hhit

theorem saturateLoop_closed (items : List ι) :
    ∀ (n : ℕ) (found : List α), uncollected key items found < n →
      found ⊆ saturateLoop key hit items n found ∧
        ∀ x ∈ items, hit (saturateLoop key hit items n found) x →
          key x ∈ saturateLoop key hit items n found := by
  intro n
  induction n with
  | zero => omega
  | succ n ih =>
      intro found hfuel
      unfold saturateLoop
      simp only
      rcases saturatePass_cases items items (List.Subset.refl _) found with
        ⟨hsame, hclosed⟩ | ⟨hlength, hless⟩
      · rw [hsame, if_pos rfl]
        exact ⟨List.Subset.refl _, hclosed⟩
      · rw [if_neg (by omega)]
        obtain ⟨hsub, hclosed⟩ := ih _ (by omega : uncollected key items
          (saturatePass key hit items found) < n)
        exact ⟨fun a ha ↦ hsub (subset_saturatePass items found ha), hclosed⟩

theorem saturateLoop_sound (items start : List _) :
    ∀ (n : ℕ) (found : List α), (∀ a ∈ found, Saturated key hit items start a) →
      ∀ a ∈ saturateLoop key hit items n found, Saturated key hit items start a := by
  intro n
  induction n with
  | zero => exact fun _ hfound ↦ hfound
  | succ n ih =>
      intro found hfound
      have hpass := saturatePass_sound items (List.Subset.refl _) found hfound
      unfold saturateLoop
      simp only
      split
      · exact hpass
      · exact ih _ hpass

/-- The loop finds exactly the saturated keys. -/
theorem mem_saturateLoop_iff
    (hmono : ∀ found found' x, found ⊆ found' → hit found x → hit found' x)
    {items : List ι} {start : List α} {a : α} :
    a ∈ saturateLoop key hit items (items.length + 1) start ↔ Saturated key hit items start a := by
  have hfuel : uncollected key items start < items.length + 1 :=
    Nat.lt_succ_of_le List.countP_le_length
  obtain ⟨hsub, hclosed⟩ : start ⊆ saturateLoop key hit items (items.length + 1) start ∧ _ :=
    saturateLoop_closed items (items.length + 1) start hfuel
  refine ⟨saturateLoop_sound items start _ start (fun _ ha ↦ .start ha) a, ?_⟩
  intro ha
  induction ha with
  | start ha => exact hsub ha
  | item _ hx hhit ih => exact hclosed _ hx (hmono _ _ _ ih hhit)

end Saturation

end Support
