import Bitrst.Support.UndoLog

/-!
# Stacks of patches with undo logs

A finite map is changed by pushing items, each of which applies its patches,
and by popping the last item, which reverts them with the undo records made
when it was pushed.  A frame keeps the item and the map it was pushed on.

Since reverting may lose clobbered keys, the map found after a pop is in
general only a part of the map below; `Nested` says this for every frame.
-/

namespace Support

variable {α β κ ν : Type*}

structure Frame (α κ ν : Type*) where
  item : α
  before : HashMap κ ν

structure UndoStack (α κ ν : Type*) where
  frames : List (Frame α κ ν)
  state : HashMap κ ν

/-! ## Moves -/

/-- One change of the stack: the depth below the item, and the item. -/
inductive Move (α : Type*)
  | push (depth : ℕ) (item : α)
  | pop (depth : ℕ) (item : α)
  deriving DecidableEq

namespace Move

def map (f : α → β) : Move α → Move β
  | .push depth item => .push depth (f item)
  | .pop depth item => .pop depth (f item)

variable [DecidableEq α] [DecidableEq β]

/-- A move made on a list of items at exactly its depth; a pop has to name the last item. -/
def replay (items : List α) : Move α → Option (List α)
  | .push depth item => if items.length = depth then some (items ++ [item]) else none
  | .pop depth item =>
      if items.length = depth + 1 ∧ items.getLast? = some item then some items.dropLast
      else none

def replayAll : List (Move α) → List α → Option (List α)
  | [], items => some items
  | move :: moves, items => (replay items move).bind (replayAll moves)

theorem replay_map (f : α → β) {items items' : List α} {move : Move α}
    (h : replay items move = some items') :
    replay (items.map f) (move.map f) = some (items'.map f) := by
  cases move with
  | push depth item =>
      simp only [replay, map, List.length_map] at h ⊢
      split at h
      · rename_i hlength
        rw [if_pos hlength, ← Option.some.inj h, List.map_append]
        rfl
      · cases h
  | pop depth item =>
      simp only [replay, map, List.length_map, List.getLast?_map] at h ⊢
      split at h
      · rename_i hlast
        rw [if_pos ⟨hlast.1, by rw [hlast.2, Option.map_some]⟩, ← Option.some.inj h,
          List.map_dropLast]
      · cases h

theorem replayAll_map (f : α → β) {moves : List (Move α)} {items items' : List α}
    (h : replayAll moves items = some items') :
    replayAll (moves.map (map f)) (items.map f) = some (items'.map f) := by
  induction moves generalizing items with
  | nil => exact congrArg some (congrArg _ (Option.some.inj h))
  | cons move moves ih =>
      obtain ⟨between, hmove, hrest⟩ := Option.bind_eq_some_iff.mp h
      rw [List.map_cons, replayAll, replay_map f hmove, Option.bind_some, ih hrest]

end Move

variable [DecidableEq κ] (patches : α → List (Patch κ ν))

namespace Frame

/-- The map after the item of the frame was pushed. -/
def after (frame : Frame α κ ν) : HashMap κ ν := applyAll (patches frame.item) frame.before

/-- The undo records made when the item was pushed. -/
def undos (frame : Frame α κ ν) : List (Undo κ ν) :=
  Support.undos (patches frame.item) frame.before

end Frame

namespace UndoStack

def items (stack : UndoStack α κ ν) : List α := stack.frames.map Frame.item

def push (stack : UndoStack α κ ν) (item : α) : UndoStack α κ ν where
  frames := stack.frames ++ [⟨item, stack.state⟩]
  state := applyAll (patches item) stack.state

/-- The stack left when `frame` is popped off `frames`. -/
def popped (frames : List (Frame α κ ν)) (frame : Frame α κ ν) (state : HashMap κ ν) :
    UndoStack α κ ν where
  frames := frames
  state := revertAll (frame.undos patches) state

omit [DecidableEq κ] in
@[simp] theorem items_mk (frames : List (Frame α κ ν)) (state : HashMap κ ν) :
    (UndoStack.mk frames state).items = frames.map Frame.item := rfl

@[simp] theorem items_push (stack : UndoStack α κ ν) (item : α) :
    (stack.push patches item).items = stack.items ++ [item] := by
  simp [push, items]

/-- The stack goes through a sequence of moves. -/
inductive Run : UndoStack α κ ν → List (Move α) → UndoStack α κ ν → Prop
  | nil (stack : UndoStack α κ ν) : Run stack [] stack
  | push {stack done : UndoStack α κ ν} {moves : List (Move α)} (item : α)
      (rest : Run (stack.push patches item) moves done) :
      Run stack (.push stack.frames.length item :: moves) done
  | pop {frames : List (Frame α κ ν)} {frame : Frame α κ ν} {state : HashMap κ ν}
      {done : UndoStack α κ ν} {moves : List (Move α)}
      (rest : Run (popped patches frames frame state) moves done) :
      Run ⟨frames ++ [frame], state⟩ (.pop frames.length frame.item :: moves) done

namespace Run

variable {patches} {stack between done : UndoStack α κ ν} {moves rest : List (Move α)}

theorem append (h : Run patches stack moves between) (hrest : Run patches between rest done) :
    Run patches stack (moves ++ rest) done := by
  induction h with
  | nil => exact hrest
  | push item _ ih => exact .push item (ih hrest)
  | pop _ ih => exact .pop (ih hrest)

/-- Replaying the moves of a run on the items never gets stuck. -/
theorem replay [DecidableEq α] (h : Run patches stack moves done) :
    Move.replayAll moves stack.items = some done.items := by
  induction h with
  | nil => rfl
  | push item _ ih =>
      rename_i current _ _ _
      have hlength : current.items.length = current.frames.length := List.length_map _
      rw [Move.replayAll, Move.replay, if_pos hlength, Option.bind_some, ← items_push patches, ih]
  | pop _ ih =>
      rename_i frames frame _ _ _ _
      have hitems : (frames ++ [frame]).map Frame.item =
          frames.map Frame.item ++ [frame.item] := List.map_append
      rw [Move.replayAll, Move.replay, items_mk, hitems, if_pos ⟨by simp, by simp⟩,
        Option.bind_some, List.dropLast_concat]
      exact ih

/-- A property kept by every push and every pop is kept by a run. -/
theorem invariant (P : UndoStack α κ ν → Prop)
    (hpush : ∀ stack item, P stack → P (stack.push patches item))
    (hpop : ∀ frames frame state, P ⟨frames ++ [frame], state⟩ →
      P (popped patches frames frame state))
    (h : Run patches stack moves done) (hstack : P stack) : P done := by
  induction h with
  | nil => exact hstack
  | push item _ ih => exact ih (hpush _ item hstack)
  | pop _ ih => exact ih (hpop _ _ _ hstack)

end Run

/-! ## Pushing and popping several items -/

/-- The moves that push the items above `depth`. -/
def pushMoves : ℕ → List α → List (Move α)
  | _, [] => []
  | depth, item :: rest => .push depth item :: pushMoves (depth + 1) rest

/-- The moves that pop the items above `depth`, the last one first. -/
def popMoves : ℕ → List α → List (Move α)
  | _, [] => []
  | depth, item :: rest => popMoves (depth + 1) rest ++ [.pop depth item]

omit [DecidableEq κ] in
theorem mem_pushMoves {depth at' : ℕ} {items : List α} {item : α} :
    Move.push at' item ∈ pushMoves depth items ↔ ∃ i, at' = depth + i ∧ items[i]? = some item := by
  induction items generalizing depth with
  | nil => simp [pushMoves]
  | cons first rest ih =>
      rw [pushMoves, List.mem_cons, ih]
      constructor
      · rintro (heq | ⟨i, rfl, hi⟩)
        · obtain ⟨rfl, rfl⟩ := Move.push.inj heq
          exact ⟨0, rfl, rfl⟩
        · exact ⟨i + 1, by omega, hi⟩
      · rintro ⟨i, rfl, hi⟩
        cases i with
        | zero => exact Or.inl (by simpa using hi.symm)
        | succ i => exact Or.inr ⟨i, by omega, hi⟩

theorem push_notMem_popMoves {depth at' : ℕ} {items : List α} {item : α} :
    Move.push at' item ∉ popMoves depth items := by
  induction items generalizing depth with
  | nil => simp [popMoves]
  | cons first rest ih => simp [popMoves, ih]

def pushAll (stack : UndoStack α κ ν) (items : List α) : UndoStack α κ ν :=
  items.foldl (push patches) stack

/-- The stack left when the frames `post` are popped. -/
def unwind (keep post : List (Frame α κ ν)) (state : HashMap κ ν) : UndoStack α κ ν where
  frames := keep
  state := revertAll (post.flatMap (Frame.undos patches)) state

theorem Run.pushAll (stack : UndoStack α κ ν) (items : List α) :
    Run patches stack (pushMoves stack.frames.length items) (stack.pushAll patches items) := by
  induction items generalizing stack with
  | nil => exact .nil stack
  | cons item rest ih =>
      have hlength : (stack.push patches item).frames.length = stack.frames.length + 1 :=
        List.length_append
      have hrest := ih (stack.push patches item)
      rw [hlength] at hrest
      exact .push item hrest

theorem Run.unwind (keep post : List (Frame α κ ν)) (state : HashMap κ ν) :
    Run patches ⟨keep ++ post, state⟩ (popMoves keep.length (post.map Frame.item))
      (unwind patches keep post state) := by
  induction post generalizing keep with
  | nil =>
      rw [List.append_nil]
      exact .nil _
  | cons frame post ih =>
      have hrest := ih (keep ++ [frame])
      rw [List.append_assoc, List.length_append, List.length_singleton] at hrest
      have hunwind : popped patches keep frame (UndoStack.unwind patches (keep ++ [frame]) post
          state).state = UndoStack.unwind patches keep (frame :: post) state := by
        simp only [popped, UndoStack.unwind, List.flatMap_cons, revertAll_append]
      exact hrest.append (.pop (hunwind ▸ .nil _))

/-! ## Replayed stacks -/

/-- The map after the patches of all items. -/
def replayItems (items : List α) : HashMap κ ν := applyAll (items.flatMap patches) ∅

theorem replayItems_append (items rest : List α) :
    replayItems patches (items ++ rest) =
      applyAll (rest.flatMap patches) (replayItems patches items) := by
  rw [replayItems, List.flatMap_append, applyAll_append]
  rfl

/-- Every map of the stack is the replay of the items below it. -/
structure Exact (stack : UndoStack α κ ν) : Prop where
  state : stack.state = replayItems patches stack.items
  before : ∀ front frame back, stack.frames = front ++ frame :: back →
    frame.before = replayItems patches (front.map Frame.item)

namespace Exact

variable {patches} {stack : UndoStack α κ ν}

theorem push (h : Exact patches stack) (item : α) : Exact patches (stack.push patches item) where
  state := by
    rw [items_push, replayItems_append, ← h.state, List.flatMap_singleton]
    rfl
  before := by
    intro front frame back hsplit
    rcases List.eq_nil_or_concat' back with rfl | ⟨back, last, rfl⟩
    · obtain ⟨rfl, hlast⟩ := List.append_inj' hsplit rfl
      obtain rfl : _ = frame := (List.cons.inj hlast).1
      exact h.state
    · rw [← List.cons_append, ← List.append_assoc] at hsplit
      exact h.before front frame back (List.append_inj' hsplit rfl).1

theorem before_eq (h : Exact patches stack) {i : ℕ} (hi : i < stack.frames.length) :
    stack.frames[i].before = replayItems patches (stack.items.take i) := by
  have hsplit :
      stack.frames = stack.frames.take i ++ stack.frames[i] :: stack.frames.drop (i + 1) := by
    rw [List.getElem_cons_drop, List.take_append_drop]
  rw [h.before _ _ _ hsplit, items, List.map_take]

/-- An exact stack is fixed by its items. -/
theorem ext {stack' : UndoStack α κ ν} (h : Exact patches stack) (h' : Exact patches stack')
    (hitems : stack'.items = stack.items) : stack' = stack := by
  have hlength : stack'.frames.length = stack.frames.length := by
    simpa [items] using congrArg List.length hitems
  have hframes : stack'.frames = stack.frames := by
    refine List.ext_getElem hlength fun i hi' hi ↦ ?_
    have hitem : stack'.frames[i].item = stack.frames[i].item := by
      have hmap : (stack'.frames.map Frame.item)[i]? = (stack.frames.map Frame.item)[i]? :=
        congrArg (·[i]?) hitems
      rw [List.getElem?_map, List.getElem?_map, List.getElem?_eq_getElem hi',
        List.getElem?_eq_getElem hi] at hmap
      exact Option.some.inj hmap
    have hbefore : stack'.frames[i].before = stack.frames[i].before := by
      rw [h'.before_eq hi', h.before_eq hi, hitems]
    calc stack'.frames[i] = ⟨stack'.frames[i].item, stack'.frames[i].before⟩ := rfl
      _ = stack.frames[i] := by rw [hitem, hbefore]
  have hstate : stack'.state = stack.state := by rw [h'.state, h.state, hitems]
  calc stack' = ⟨stack'.frames, stack'.state⟩ := rfl
    _ = stack := by rw [hframes, hstate]

/-- The undo records of the upper frames, joined, undo the patches of their items. -/
theorem undos_eq (h : Exact patches stack) {keep post : List (Frame α κ ν)}
    (hframes : stack.frames = keep ++ post) :
    post.flatMap (Frame.undos patches) =
      undos ((post.map Frame.item).flatMap patches)
        (replayItems patches (keep.map Frame.item)) := by
  induction post generalizing keep with
  | nil => rfl
  | cons frame post ih =>
      have hrest : stack.frames = (keep ++ [frame]) ++ post := by simpa using hframes
      rw [List.flatMap_cons, ih hrest, List.map_cons, List.flatMap_cons, undos_append,
        Frame.undos, h.before keep frame post hframes, List.map_append, replayItems_append]
      simp

theorem pushAll (h : Exact patches stack) (items : List α) :
    Exact patches (stack.pushAll patches items) := by
  induction items generalizing stack with
  | nil => exact h
  | cons item rest ih => exact ih (h.push item)

/-- Unwinding reads back the replay of the kept items precisely when no key in
use there is clobbered. -/
theorem unwind_state_iff {keep post : List (Frame α κ ν)} {state : HashMap κ ν}
    (h : Exact patches ⟨keep ++ post, state⟩) :
    (unwind patches keep post state).state = replayItems patches (keep.map Frame.item) ↔
      ∀ k, Clobbers ((post.map Frame.item).flatMap patches) k →
        (replayItems patches (keep.map Frame.item)).lookup k = none := by
  have hstate : state = applyAll ((post.map Frame.item).flatMap patches)
      (replayItems patches (keep.map Frame.item)) := by
    rw [← replayItems_append, ← List.map_append]
    exact h.state
  simp only [UndoStack.unwind]
  rw [h.undos_eq rfl, hstate, revertAll_eq_iff]

theorem unwind {keep post : List (Frame α κ ν)} {state : HashMap κ ν}
    (h : Exact patches ⟨keep ++ post, state⟩)
    (hexact : ∀ k, Clobbers ((post.map Frame.item).flatMap patches) k →
      (replayItems patches (keep.map Frame.item)).lookup k = none) :
    Exact patches (unwind patches keep post state) where
  state := h.unwind_state_iff.mpr hexact
  before := by
    intro front frame back hsplit
    have hkeep : keep = front ++ frame :: back := hsplit
    apply h.before front frame (back ++ post)
    rw [hkeep, List.append_assoc]
    rfl

end Exact

/-! ## Nested stacks -/

/-- The frames, top first, below a map: the map on top of a frame is a part of
the map after its item. -/
def NestedBelow : List (Frame α κ ν) → HashMap κ ν → Prop
  | [], _ => True
  | frame :: rest, above => Submap above (frame.after patches) ∧ NestedBelow rest frame.before

/-- Every map of the stack is a part of the map after the item below it. -/
def Nested (stack : UndoStack α κ ν) : Prop := NestedBelow patches stack.frames.reverse stack.state

namespace Nested

variable {patches} {stack : UndoStack α κ ν}

theorem push (h : Nested patches stack) (item : α) : Nested patches (stack.push patches item) := by
  unfold Nested UndoStack.push
  rw [List.reverse_append]
  exact ⟨Submap.refl _, h⟩

theorem top {frames : List (Frame α κ ν)} {frame : Frame α κ ν} {state : HashMap κ ν}
    (h : Nested patches ⟨frames ++ [frame], state⟩) : Submap state (frame.after patches) := by
  unfold Nested at h
  rw [List.reverse_append] at h
  exact h.1

theorem popped {frames : List (Frame α κ ν)} {frame : Frame α κ ν} {state : HashMap κ ν}
    (h : Nested patches ⟨frames ++ [frame], state⟩) :
    Nested patches (UndoStack.popped patches frames frame state) := by
  have hbefore : Submap (revertAll (frame.undos patches) state) frame.before :=
    revertAll_submap (patches frame.item) h.top
  unfold Nested at h ⊢
  rw [List.reverse_append] at h
  unfold UndoStack.popped
  cases hframes : frames.reverse with
  | nil => trivial
  | cons below rest =>
      have hrest : NestedBelow patches frames.reverse frame.before := h.2
      rw [hframes] at hrest
      exact ⟨hbefore.trans hrest.1, hrest.2⟩

end Nested

/-- A nested stack that stands on the empty map. -/
structure Grounded (stack : UndoStack α κ ν) : Prop where
  nested : Nested patches stack
  bottom : ∀ frame ∈ stack.frames.head?, frame.before = ∅
  empty : stack.frames = [] → stack.state = ∅

namespace Grounded

variable {patches} {stack : UndoStack α κ ν}

theorem nil : Grounded patches (⟨[], ∅⟩ : UndoStack α κ ν) := ⟨trivial, by simp, fun _ ↦ rfl⟩

theorem push (h : Grounded patches stack) (item : α) :
    Grounded patches (stack.push patches item) where
  nested := h.nested.push item
  bottom := by
    intro frame hframe
    have hframes : (stack.push patches item).frames = stack.frames ++ [⟨item, stack.state⟩] := rfl
    rw [hframes] at hframe
    by_cases hnil : stack.frames = []
    · rw [hnil] at hframe
      rw [← Option.some.inj hframe]
      exact h.empty hnil
    · rw [List.head?_append_of_ne_nil _ hnil] at hframe
      exact h.bottom frame hframe
  empty := fun hnil ↦ by simp [UndoStack.push] at hnil

theorem popped {frames : List (Frame α κ ν)} {frame : Frame α κ ν} {state : HashMap κ ν}
    (h : Grounded patches ⟨frames ++ [frame], state⟩) :
    Grounded patches (UndoStack.popped patches frames frame state) where
  nested := h.nested.popped
  bottom := by
    intro below hbelow
    have hne : frames ≠ [] := by
      rintro rfl
      cases hbelow
    exact h.bottom below (by rwa [List.head?_append_of_ne_nil _ hne])
  empty := by
    rintro (rfl : frames = [])
    have hsub : Submap (UndoStack.popped patches [] frame state).state frame.before :=
      revertAll_submap (patches frame.item) h.nested.top
    rw [h.bottom frame rfl] at hsub
    refine Finmap.ext_lookup fun k ↦ ?_
    rw [Finmap.lookup_empty]
    by_contra hne
    obtain ⟨v, hv⟩ := Option.ne_none_iff_exists'.mp hne
    cases hsub k v hv

theorem run {done : UndoStack α κ ν} {moves : List (Move α)} (h : Grounded patches stack)
    (hrun : Run patches stack moves done) : Grounded patches done :=
  hrun.invariant (Grounded patches) (fun _ item h ↦ h.push item) (fun _ _ _ h ↦ h.popped) h

/-- The stack below the top frame, with the map recorded there. -/
theorem below {frames : List (Frame α κ ν)} {frame : Frame α κ ν} {state : HashMap κ ν}
    (h : Grounded patches ⟨frames ++ [frame], state⟩) :
    Grounded patches ⟨frames, frame.before⟩ := by
  have hnested := h.nested
  unfold Nested at hnested
  rw [List.reverse_append] at hnested
  refine ⟨hnested.2, fun below hbelow ↦ ?_, ?_⟩
  · have hne : frames ≠ [] := by
      rintro rfl
      cases hbelow
    exact h.bottom below (by rwa [List.head?_append_of_ne_nil _ hne])
  · rintro (rfl : frames = [])
    exact h.bottom frame rfl

/-- Every binding was written by an item of the stack. -/
theorem written (h : Grounded patches stack) {k : κ} {v : ν}
    (hk : stack.state.lookup k = some v) :
    ∃ item ∈ stack.items, ∃ p ∈ patches item, p.written k = some v := by
  obtain ⟨frames, state⟩ := stack
  induction frames using List.reverseRecOn generalizing state with
  | nil =>
      obtain rfl : state = ∅ := h.empty rfl
      cases hk
  | append_singleton frames frame ih =>
      rcases lookup_applyAll_written _ _ (h.nested.top k v hk) with hold | ⟨p, hp, hwritten⟩
      · obtain ⟨item, hitem, hrest⟩ := ih frame.before h.below hold
        refine ⟨item, ?_, hrest⟩
        rw [items_mk, List.map_append]
        exact List.mem_append_left _ hitem
      · exact ⟨frame.item, by simp, p, hp, hwritten⟩

end Grounded

end UndoStack

end Support
