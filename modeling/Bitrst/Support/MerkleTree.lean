import Mathlib.Data.List.Basic
import Mathlib.Data.List.Duplicate
import Mathlib.Tactic.Common

/-!
# Binary trees over a list that duplicate an odd last node

A level joins the nodes below in pairs, an odd last one with itself, until one
node is left.  Lists of different lengths can have one root.  Where no two of
the pairs that are joined collide, lists of one length with one root are equal;
lists of different lengths with one root repeat a node, unless the first node of
one is a joined pair of the other.
-/

namespace Support

namespace MerkleTree

variable {α : Type*} (node : α → α → α)

/-- The pairs that one level joins. -/
def pairs : List α → List (α × α)
  | left :: right :: rest => (left, right) :: pairs rest
  | [left] => [(left, left)]
  | [] => []

def level (nodes : List α) : List α := (pairs nodes).map fun pair ↦ node pair.1 pair.2

/-- The node that is left after joining level by level. -/
inductive Root : List α → α → Prop
  | leaf (x : α) : Root [x] x
  | join {nodes : List α} {root : α} (hlength : 1 < nodes.length)
      (h : Root (level node nodes) root) :
      Root nodes root

/-- A pair that is joined on some level. -/
inductive Joined : List α → α × α → Prop
  | here {nodes : List α} {pair : α × α} (hlength : 1 < nodes.length) (h : pair ∈ pairs nodes) :
      Joined nodes pair
  | above {nodes : List α} {pair : α × α} (hlength : 1 < nodes.length)
      (h : Joined (level node nodes) pair) : Joined nodes pair

/-- No two different pairs of the two trees are joined to one node. -/
def Apart (nodes nodes' : List α) : Prop :=
  ∀ pair pair', (Joined node nodes pair ∨ Joined node nodes' pair) →
    (Joined node nodes pair' ∨ Joined node nodes' pair') →
      node pair.1 pair.2 = node pair'.1 pair'.2 → pair = pair'

/-! ## Pairs -/

theorem length_pairs (nodes : List α) : (pairs nodes).length = (nodes.length + 1) / 2 := by
  induction nodes using pairs.induct with
  | case1 left right rest ih =>
      simp only [pairs, List.length_cons, ih]
      omega
  | case2 left => simp [pairs]
  | case3 => simp [pairs]

@[simp] theorem length_level (nodes : List α) :
    (level node nodes).length = (nodes.length + 1) / 2 := by
  rw [level, List.length_map, length_pairs]

theorem mem_of_mem_pairs {nodes : List α} {pair : α × α} (h : pair ∈ pairs nodes) :
    pair.1 ∈ nodes ∧ pair.2 ∈ nodes := by
  induction nodes using pairs.induct with
  | case1 left right rest ih =>
      rcases List.mem_cons.mp h with rfl | hrest
      · simp
      · exact ⟨by simp [(ih hrest).1], by simp [(ih hrest).2]⟩
  | case2 left =>
      obtain rfl := List.mem_singleton.mp h
      simp
  | case3 => cases h

/-- Lists of one length are determined by their pairs. -/
theorem pairs_injective {nodes nodes' : List α} (hlength : nodes.length = nodes'.length)
    (h : pairs nodes = pairs nodes') : nodes = nodes' := by
  induction nodes using pairs.induct generalizing nodes' with
  | case1 left right rest ih =>
      obtain ⟨left', right', rest', rfl⟩ :
          ∃ left' right' rest', nodes' = left' :: right' :: rest' := by
        match nodes', hlength with
        | left' :: right' :: rest', _ => exact ⟨left', right', rest', rfl⟩
      simp only [pairs, List.cons.injEq, Prod.mk.injEq] at h
      obtain ⟨⟨rfl, rfl⟩, hrest⟩ := h
      rw [ih (by simpa using hlength) hrest]
  | case2 left =>
      obtain ⟨left', rfl⟩ := List.length_eq_one_iff.mp hlength.symm
      simp only [pairs, List.cons.injEq, Prod.mk.injEq] at h
      rw [h.1.1]
  | case3 => exact (List.eq_nil_of_length_eq_zero hlength.symm).symm

/-- A longer list with the same pairs repeats its last node. -/
theorem duplicate_of_pairs_eq {nodes nodes' : List α} (hlength : nodes.length < nodes'.length)
    (h : pairs nodes = pairs nodes') : ∃ x, List.Duplicate x nodes' := by
  induction nodes using pairs.induct generalizing nodes' with
  | case1 left right rest ih =>
      obtain ⟨left', right', rest', rfl⟩ :
          ∃ left' right' rest', nodes' = left' :: right' :: rest' := by
        match nodes', hlength with
        | left' :: right' :: rest', _ => exact ⟨left', right', rest', rfl⟩
      simp only [pairs, List.cons.injEq] at h
      obtain ⟨x, hx⟩ := ih (by simpa using hlength) h.2
      exact ⟨x, (hx.duplicate_cons _).duplicate_cons _⟩
  | case2 left =>
      obtain ⟨left', right', rest', rfl⟩ :
          ∃ left' right' rest', nodes' = left' :: right' :: rest' := by
        match nodes', hlength with
        | left' :: right' :: rest', _ => exact ⟨left', right', rest', rfl⟩
      simp only [pairs, List.cons.injEq, Prod.mk.injEq] at h
      obtain ⟨⟨rfl, rfl⟩, -⟩ := h
      exact ⟨_, List.mem_cons_self.duplicate_cons_self⟩
  | case3 =>
      match nodes', hlength with
      | [left'], _ => cases h
      | left' :: right' :: rest', _ => cases h

/-- A pair that is joined twice has its nodes twice. -/
theorem duplicate_of_pairs {nodes : List α} {pair : α × α} (h : List.Duplicate pair (pairs nodes)) :
    ∃ x, List.Duplicate x nodes := by
  induction nodes using pairs.induct with
  | case1 left right rest ih =>
      rcases List.duplicate_cons_iff.mp h with ⟨rfl, hrest⟩ | hrest
      · exact ⟨left, (List.mem_cons_of_mem right (mem_of_mem_pairs hrest).1).duplicate_cons_self⟩
      · obtain ⟨x, hx⟩ := ih hrest
        exact ⟨x, (hx.duplicate_cons _).duplicate_cons _⟩
  | case2 left => exact absurd h (List.not_duplicate_singleton _ _)
  | case3 => exact absurd h (List.not_duplicate_nil _)

/-- Values that are apart on a list repeat only if their arguments do. -/
theorem duplicate_of_map {β γ : Type*} {f : β → γ} {xs : List β} {y : γ}
    (hinj : ∀ a ∈ xs, ∀ b ∈ xs, f a = f b → a = b) (h : List.Duplicate y (xs.map f)) :
    ∃ x, List.Duplicate x xs := by
  induction xs with
  | nil => exact absurd h (List.not_duplicate_nil _)
  | cons first rest ih =>
      rcases List.duplicate_cons_iff.mp h with ⟨rfl, hrest⟩ | hrest
      · obtain ⟨other, hother, heq⟩ := List.mem_map.mp hrest
        obtain rfl := hinj other (List.mem_cons_of_mem _ hother) first List.mem_cons_self heq
        exact ⟨_, hother.duplicate_cons_self⟩
      · obtain ⟨x, hx⟩ := ih (fun a ha b hb ↦
          hinj a (List.mem_cons_of_mem _ ha) b (List.mem_cons_of_mem _ hb)) hrest
        exact ⟨x, hx.duplicate_cons _⟩

/-- Lists on which a function is injective are equal when their images are. -/
theorem map_injective_on {β γ : Type*} {f : β → γ} {xs ys : List β}
    (hinj : ∀ a ∈ xs, ∀ b ∈ ys, f a = f b → a = b) (h : xs.map f = ys.map f) : xs = ys := by
  induction xs generalizing ys with
  | nil => exact (List.map_eq_nil_iff.mp h.symm).symm
  | cons x xs ih =>
      cases ys with
      | nil => cases h
      | cons y ys =>
          simp only [List.map_cons, List.cons.injEq] at h
          rw [hinj x List.mem_cons_self y List.mem_cons_self h.1,
            ih (fun a ha b hb ↦ hinj a (List.mem_cons_of_mem _ ha) b (List.mem_cons_of_mem _ hb))
              h.2]

/-! ## One root -/

variable {node} {nodes nodes' : List α} {root : α}

theorem Apart.symm (h : Apart node nodes nodes') : Apart node nodes' nodes :=
  fun pair pair' hpair hpair' ↦ h pair pair' hpair.symm hpair'.symm

/-- The levels above are apart, too. -/
theorem Apart.level (h : Apart node nodes nodes') (hlength : 1 < nodes.length)
    (hlength' : 1 < nodes'.length) :
    Apart node (MerkleTree.level node nodes) (MerkleTree.level node nodes') :=
  fun pair pair' hpair hpair' ↦ h pair pair' (hpair.imp (.above hlength) (.above hlength'))
    (hpair'.imp (.above hlength) (.above hlength'))

theorem Apart.pairs_eq (h : Apart node nodes nodes') (hlength : 1 < nodes.length)
    (hlength' : 1 < nodes'.length)
    (heq : MerkleTree.level node nodes = MerkleTree.level node nodes') :
    pairs nodes = pairs nodes' :=
  map_injective_on (fun pair hpair pair' hpair' ↦
    h pair pair' (Or.inl (.here hlength hpair)) (Or.inr (.here hlength' hpair'))) heq

/-- Lists of one length with one root are equal. -/
theorem Root.unique (h : Root node nodes root) (h' : Root node nodes' root)
    (hlength : nodes.length = nodes'.length) (hapart : Apart node nodes nodes') :
    nodes = nodes' := by
  induction h generalizing nodes' with
  | leaf x =>
      cases h' with
      | leaf => rfl
      | join hlong _ => exact absurd hlong (by simp [← hlength])
  | @join nodes _ hlong _ ih =>
      cases h' with
      | leaf => exact absurd hlong (by simp [hlength])
      | join hlong' hroot' =>
          have hlevel := ih hroot' (by simp [hlength]) (hapart.level hlong hlong')
          exact pairs_injective hlength (hapart.pairs_eq hlong hlong' hlevel)

/-- The first node of one list is what a pair of the other is joined to. -/
def Confused (node : α → α → α) (nodes nodes' : List α) : Prop :=
  ∃ x pair, nodes.head? = some x ∧ Joined node nodes' pair ∧ x = node pair.1 pair.2

theorem Root.eq_of_singleton {x : α} (h : Root node nodes root) (hx : nodes = [x]) : root = x := by
  cases h with
  | leaf y => exact (List.cons.inj hx).1
  | join hlong _ =>
      subst hx
      simp at hlong

theorem mem_level {x : α} (h : x ∈ level node nodes) :
    ∃ pair ∈ pairs nodes, x = node pair.1 pair.2 := by
  obtain ⟨pair, hpair, rfl⟩ := List.mem_map.mp h
  exact ⟨pair, hpair, rfl⟩

/-- The root of several nodes is a joined pair. -/
theorem Root.joined (h : Root node nodes root) (hlong : 1 < nodes.length) :
    ∃ pair, Joined node nodes pair ∧ root = node pair.1 pair.2 := by
  induction h with
  | leaf x => simp at hlong
  | @join nodes root hlength hroot ih =>
      by_cases hmore : 1 < (MerkleTree.level node nodes).length
      · obtain ⟨pair, hpair, heq⟩ := ih hmore
        exact ⟨pair, .above hlength hpair, heq⟩
      · have hone : (MerkleTree.level node nodes).length = 1 := by
          rw [length_level] at hmore ⊢
          omega
        obtain ⟨x, hx⟩ := List.length_eq_one_iff.mp hone
        obtain ⟨pair, hpair, heq⟩ := mem_level (hx ▸ List.mem_singleton_self x)
        exact ⟨pair, .here hlength hpair, (hroot.eq_of_singleton hx).trans heq⟩

/-- A node above the lowest level is a joined pair. -/
theorem Joined.node_of_level {pair : α × α} (h : Joined node (MerkleTree.level node nodes) pair)
    (hlong : 1 < nodes.length) :
    ∃ below, Joined node nodes below ∧ pair.1 = node below.1 below.2 := by
  generalize hlevel : MerkleTree.level node nodes = above at h
  induction h generalizing nodes with
  | here _ hpair =>
      subst hlevel
      obtain ⟨below, hbelow, heq⟩ := mem_level (mem_of_mem_pairs hpair).1
      exact ⟨below, .here hlong hbelow, heq⟩
  | above hlength _ ih =>
      subst hlevel
      obtain ⟨below, hbelow, heq⟩ := ih hlength rfl
      exact ⟨below, .above hlong hbelow, heq⟩

/-- A confusion one level up is one between the lists. -/
theorem Confused.of_level
    (h : Confused node (MerkleTree.level node nodes) (MerkleTree.level node nodes'))
    (hlong : 1 < nodes.length) (hlong' : 1 < nodes'.length) (hapart : Apart node nodes nodes') :
    Confused node nodes nodes' := by
  obtain ⟨x, pair, hx, hpair, rfl⟩ := h
  obtain ⟨left, right, rest, rfl⟩ : ∃ left right rest, nodes = left :: right :: rest := by
    match nodes, hlong with
    | left :: right :: rest, _ => exact ⟨left, right, rest, rfl⟩
  have hfirst : (left, right) ∈ pairs (left :: right :: rest) := List.mem_cons_self
  have heq : (left, right) = pair := hapart _ _ (Or.inl (.here hlong hfirst))
    (Or.inr (.above hlong' hpair)) (Option.some.inj hx)
  obtain ⟨below, hbelow, hnode⟩ := hpair.node_of_level hlong'
  exact ⟨left, below, rfl, hbelow, (congrArg Prod.fst heq).trans hnode⟩

/-- A level repeats a node only if the one below does. -/
theorem Apart.duplicate_of_level (hapart : Apart node nodes nodes') (hlong : 1 < nodes.length)
    {x : α} (h : List.Duplicate x (MerkleTree.level node nodes)) :
    ∃ x, List.Duplicate x nodes := by
  obtain ⟨pair, hpair⟩ := duplicate_of_map (fun pair hpair pair' hpair' ↦
    hapart pair pair' (Or.inl (.here hlong hpair)) (Or.inl (.here hlong hpair'))) h
  exact duplicate_of_pairs hpair

/-- Lists of different lengths with one root repeat a node or are confused. -/
theorem Root.duplicate_or_confused (h : Root node nodes root) (h' : Root node nodes' root)
    (hlength : nodes.length ≠ nodes'.length) (hapart : Apart node nodes nodes') :
    (∃ x, List.Duplicate x nodes) ∨ (∃ x, List.Duplicate x nodes') ∨
      Confused node nodes nodes' ∨ Confused node nodes' nodes := by
  induction h generalizing nodes' with
  | leaf x =>
      cases h' with
      | leaf => exact absurd rfl hlength
      | join hlong' hroot' =>
          obtain ⟨pair, hpair, heq⟩ := (Root.join hlong' hroot').joined hlong'
          exact Or.inr (Or.inr (Or.inl ⟨x, pair, rfl, hpair, heq⟩))
  | @join nodes root hlong hroot ih =>
      cases h' with
      | leaf =>
          obtain ⟨pair, hpair, heq⟩ := (Root.join hlong hroot).joined hlong
          exact Or.inr (Or.inr (Or.inr ⟨root, pair, rfl, hpair, heq⟩))
      | join hlong' hroot' =>
          have hlevels := hapart.level hlong hlong'
          by_cases hsame : (MerkleTree.level node nodes).length =
              (MerkleTree.level node nodes').length
          · -- The levels are equal, and the lists differ in a repeated last node.
            have hpairs := hapart.pairs_eq hlong hlong' (hroot.unique hroot' hsame hlevels)
            rcases Nat.lt_or_gt_of_ne hlength with hshorter | hlonger
            · exact Or.inr (Or.inl (duplicate_of_pairs_eq hshorter hpairs))
            · exact Or.inl (duplicate_of_pairs_eq hlonger hpairs.symm)
          · rcases ih hroot' hsame hlevels with ⟨x, hx⟩ | ⟨x, hx⟩ | hconfused | hconfused
            · exact Or.inl (hapart.duplicate_of_level hlong hx)
            · exact Or.inr (Or.inl (hapart.symm.duplicate_of_level hlong' hx))
            · exact Or.inr (Or.inr (Or.inl (hconfused.of_level hlong hlong' hapart)))
            · exact Or.inr (Or.inr (Or.inr (hconfused.of_level hlong' hlong hapart.symm)))

end MerkleTree

end Support
