import Mathlib.Data.List.Perm.Basic
import Mathlib.Data.List.Infix

/-!
# Bounded channels with queued senders

A channel holds a bounded number of permits.  A sender asks for one, waits for
it in the order of the requests, and puts its message into the channel when it
holds one; taking a message out passes the permit on to the first that waits.
-/

namespace Support

structure BoundedChannel (capacity : ℕ) (μ : Type*) where
  messages : List μ
  /-- Messages whose senders hold a permit and have not yet used it. -/
  granted : List μ
  /-- Messages whose senders wait for a permit, the first to be served in front. -/
  waiters : List μ
  length_le : messages.length + granted.length ≤ capacity
  full_of_waiting : waiters ≠ [] → messages.length + granted.length = capacity

namespace BoundedChannel

variable {capacity : ℕ} {μ : Type*}

/-- The channel that serves as many waiting senders as there are permits. -/
def serve (messages granted waiters : List μ)
    (hle : messages.length + granted.length ≤ capacity) : BoundedChannel capacity μ where
  messages := messages
  granted := granted ++ waiters.take (capacity - (messages.length + granted.length))
  waiters := waiters.drop (capacity - (messages.length + granted.length))
  length_le := by
    rw [List.length_append, List.length_take]
    omega
  full_of_waiting hne := by
    have hlt := not_le.mp fun hshort ↦ hne (List.drop_eq_nil_of_le hshort)
    rw [List.length_append, List.length_take]
    omega

def empty : BoundedChannel capacity μ := serve [] [] [] (Nat.zero_le _)

/-- Every message that is in the channel or on its way into it. -/
def contents (channel : BoundedChannel capacity μ) : List μ :=
  channel.messages ++ (channel.granted ++ channel.waiters)

/-- No permit is left. -/
def Full (channel : BoundedChannel capacity μ) : Prop :=
  channel.messages.length + channel.granted.length = capacity

instance (channel : BoundedChannel capacity μ) : Decidable channel.Full :=
  inferInstanceAs (Decidable (_ = _))

def request (channel : BoundedChannel capacity μ) (message : μ) : BoundedChannel capacity μ :=
  serve channel.messages channel.granted (channel.waiters ++ [message]) channel.length_le

/-- The sender of a granted message uses its permit. -/
def deliver (channel : BoundedChannel capacity μ) (index : ℕ) :
    Option (BoundedChannel capacity μ) :=
  if hindex : index < channel.granted.length then
    some {
      messages := channel.messages ++ [channel.granted[index]]
      granted := channel.granted.eraseIdx index
      waiters := channel.waiters
      length_le := by
        have hle := channel.length_le
        rw [List.length_append, List.length_eraseIdx_of_lt hindex, List.length_singleton]
        omega
      full_of_waiting := fun hne ↦ by
        have hfull := channel.full_of_waiting hne
        rw [List.length_append, List.length_eraseIdx_of_lt hindex, List.length_singleton]
        omega }
  else none

/-- Put a message into the channel if there is a permit, or drop it. -/
def trySend (channel : BoundedChannel capacity μ) (message : μ) : BoundedChannel capacity μ :=
  if hroom : channel.messages.length + channel.granted.length < capacity then
    { messages := channel.messages ++ [message]
      granted := channel.granted
      waiters := channel.waiters
      length_le := by
        rw [List.length_append, List.length_singleton]
        omega
      full_of_waiting := fun hne ↦ absurd (channel.full_of_waiting hne) hroom.ne }
  else channel

def receive (channel : BoundedChannel capacity μ) : Option (μ × BoundedChannel capacity μ) :=
  match hmessages : channel.messages with
  | [] => none
  | message :: rest =>
      some (message, serve rest channel.granted channel.waiters (by
        have hle := channel.length_le
        rw [hmessages, List.length_cons] at hle
        omega))

/-- Give up the messages not yet in the channel that `gone` holds of. -/
def cancel (channel : BoundedChannel capacity μ) (gone : μ → Bool) : BoundedChannel capacity μ :=
  serve channel.messages (channel.granted.filter fun message ↦ !gone message)
    (channel.waiters.filter fun message ↦ !gone message)
    ((Nat.add_le_add_left (List.length_filter_le _ _) _).trans channel.length_le)

@[simp] theorem contents_empty : (empty : BoundedChannel capacity μ).contents = [] := by
  simp [empty, serve, contents]

theorem contents_serve (messages granted waiters : List μ)
    (hle : messages.length + granted.length ≤ capacity) :
    (serve messages granted waiters hle).contents = messages ++ (granted ++ waiters) := by
  simp only [contents, serve, List.append_assoc, List.take_append_drop]

theorem contents_request (channel : BoundedChannel capacity μ) (message : μ) :
    (channel.request message).contents = channel.contents ++ [message] := by
  rw [request, contents_serve, contents, List.append_assoc, List.append_assoc]

theorem contents_deliver {channel next : BoundedChannel capacity μ} {index : ℕ}
    (h : channel.deliver index = some next) : next.contents.Perm channel.contents := by
  unfold deliver at h
  split at h
  · rename_i hindex
    obtain rfl := Option.some.inj h
    have hperm := (List.getElem_cons_eraseIdx_perm hindex).append_right channel.waiters
    simp only [contents, List.append_assoc, List.singleton_append]
    exact hperm.append_left channel.messages
  · cases h

theorem contents_receive {channel next : BoundedChannel capacity μ} {message : μ}
    (h : channel.receive = some (message, next)) : channel.contents = message :: next.contents := by
  unfold receive at h
  split at h
  · cases h
  · rename_i first rest hmessages
    obtain ⟨rfl, rfl⟩ := Prod.mk.inj (Option.some.inj h)
    rw [contents_serve, contents, hmessages, List.cons_append]

theorem head_of_receive {channel next : BoundedChannel capacity μ} {message : μ}
    (h : channel.receive = some (message, next)) : channel.messages.head? = some message := by
  unfold receive at h
  split at h
  · cases h
  · rename_i first rest hmessages
    rw [← (Prod.mk.inj (Option.some.inj h)).1, hmessages]
    rfl

/-- A request waits exactly when no permit is left. -/
theorem mem_waiters_request {channel : BoundedChannel capacity μ} {message other : μ} :
    other ∈ (channel.request message).waiters ↔
      other ∈ channel.waiters ∨ (other = message ∧ channel.Full) := by
  have hle := channel.length_le
  by_cases hfull : channel.Full
  · have hnone : capacity - (channel.messages.length + channel.granted.length) = 0 := by
      rw [hfull, Nat.sub_self]
    simp only [request, serve, hnone, List.drop_zero, List.mem_append, List.mem_singleton, hfull,
      and_true]
  · have hwaiters : channel.waiters = [] := by
      by_contra hne
      exact hfull (channel.full_of_waiting hne)
    have hsome : 1 ≤ capacity - (channel.messages.length + channel.granted.length) := by
      have hlt := lt_of_le_of_ne hle hfull
      omega
    have hdrop := @List.drop_eq_nil_of_le μ [message] _ hsome
    simp only [request, serve, hwaiters, List.nil_append, hdrop, List.not_mem_nil, hfull, and_false,
      or_false]

theorem waiters_deliver {channel next : BoundedChannel capacity μ} {index : ℕ}
    (h : channel.deliver index = some next) : next.waiters = channel.waiters := by
  unfold deliver at h
  split at h
  · rw [← Option.some.inj h]
  · cases h

end BoundedChannel

end Support
