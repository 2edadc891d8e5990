import Bitrst.Journals

/-!
# Recovery from the journal of disconnected blocks

The journal keeps the last records of a run.  Its check against the oldest record
kept is that of a journal without gaps: where the sequence numbers are sparse it
also reports a lag when nothing after the cursor was evicted.  With at least the
capacity of the event journal it has the block of every disconnect event that a
reader can still be handed.
-/

namespace Bitrst

open Support

namespace DisconnectedBlockJournal

/-- The journal after a run of `record` calls. -/
def recorded (capacity : ℕ) (records : List DisconnectedEntry) : DisconnectedBlockJournal :=
  records.foldl (fun journal entry ↦ journal.record entry.eventSeq entry.block)
    (withCapacity capacity)

/-- The records that a run pushes out of the journal. -/
def evicted (capacity : ℕ) (records : List DisconnectedEntry) : List DisconnectedEntry :=
  records.take (records.length - max capacity 1)

/-- The records that a run leaves in the journal. -/
def retained (capacity : ℕ) (records : List DisconnectedEntry) : List DisconnectedEntry :=
  records.drop (records.length - max capacity 1)

variable {capacity since : ℕ} {records : List DisconnectedEntry}

theorem record_entries (journal : DisconnectedBlockJournal) (entry : DisconnectedEntry) :
    (journal.record entry.eventSeq entry.block).entries =
      keepLast journal.capacity journal.entries entry := rfl

/-- The journal retains the last records. -/
theorem recorded_retains (capacity : ℕ) (records : List DisconnectedEntry) :
    (recorded capacity records).capacity = max capacity 1 ∧
      Retains (max capacity 1) records (recorded capacity records).entries := by
  have hcapacity : 0 < max capacity 1 := Nat.lt_of_lt_of_le Nat.one_pos (Nat.le_max_right _ _)
  induction records using List.reverseRecOn with
  | nil => exact ⟨rfl, .nil _⟩
  | append_singleton records entry ih =>
      have hstep : recorded capacity (records ++ [entry]) =
          (recorded capacity records).record entry.eventSeq entry.block := by
        unfold recorded
        rw [List.foldl_append, List.foldl_cons, List.foldl_nil]
      rw [hstep]
      refine ⟨ih.1, ?_⟩
      rw [record_entries, ih.1]
      exact ih.2.keepLast hcapacity entry

theorem recorded_entries (capacity : ℕ) (records : List DisconnectedEntry) :
    (recorded capacity records).entries = retained capacity records := by
  obtain ⟨hlength, dropped, hsplit, hfull⟩ := (recorded_retains capacity records).2
  have hcount : dropped.length = records.length - max capacity 1 := by
    have htotal := congrArg List.length hsplit
    rw [List.length_append] at htotal
    rcases List.eq_nil_or_concat' dropped with rfl | ⟨front, last, rfl⟩
    · rw [List.length_nil] at htotal ⊢
      omega
    · have := hfull (by simp)
      omega
  rw [retained, ← hcount]
  conv_rhs => rw [hsplit]
  exact List.drop_left.symm

theorem evicted_append_retained (capacity : ℕ) (records : List DisconnectedEntry) :
    evicted capacity records ++ retained capacity records = records := List.take_append_drop _ _

/-- The blocks recorded after the cursor. -/
def blocksAfter (records : List DisconnectedEntry) (since : ℕ) : List Block :=
  (records.filter fun entry ↦ since < entry.eventSeq).map DisconnectedEntry.block

/-- Recovery reports the blocks after the cursor when none of them was evicted,
and a lag exactly when one was. -/
def RecoversExactly (capacity : ℕ) (records : List DisconnectedEntry) (since : ℕ) : Prop :=
  ((∀ entry ∈ evicted capacity records, ¬ since < entry.eventSeq) →
    (recorded capacity records).blocksSince since = .ok (blocksAfter records since)) ∧
  ((∃ error, (recorded capacity records).blocksSince since = .error error) ↔
    ∃ entry ∈ evicted capacity records, since < entry.eventSeq)

/-- The oldest record kept, if any, is not past the one after the cursor. -/
def Covers (capacity : ℕ) (records : List DisconnectedEntry) (since : ℕ) : Prop :=
  ∀ oldest ∈ (retained capacity records).head?, oldest.eventSeq ≤ since + 1

theorem blocksSince_of_covers (h : Covers capacity records since) :
    (recorded capacity records).blocksSince since =
      .ok (blocksAfter (retained capacity records) since) := by
  unfold blocksSince
  rw [recorded_entries]
  cases hhead : (retained capacity records).head? with
  | none => rfl
  | some oldest =>
      have hle := h oldest hhead
      exact if_neg (by omega)

theorem blocksSince_of_not_covers (h : ¬ Covers capacity records since) :
    ∃ error, (recorded capacity records).blocksSince since = .error error := by
  unfold Covers at h
  push Not at h
  obtain ⟨oldest, hhead, hlate⟩ := h
  unfold blocksSince
  rw [recorded_entries, Option.mem_def.mp hhead]
  exact ⟨_, if_pos (by omega)⟩

/-- An evicted record after the cursor is older than all records kept, so these
do not cover the cursor. -/
theorem not_covers_of_evicted
    (hincreasing : records.Pairwise fun entry later ↦ entry.eventSeq < later.eventSeq)
    {entry : DisconnectedEntry} (hevicted : entry ∈ evicted capacity records)
    (hlate : since < entry.eventSeq) : ¬ Covers capacity records since := by
  intro hcovers
  have hlength := List.length_pos_of_mem hevicted
  rw [evicted, List.length_take] at hlength
  have hne : retained capacity records ≠ [] := by
    apply List.ne_nil_of_length_pos
    rw [retained, List.length_drop]
    omega
  obtain ⟨oldest, rest, hkept⟩ := List.exists_cons_of_ne_nil hne
  have hle := hcovers oldest (by rw [hkept]; rfl)
  rw [← evicted_append_retained capacity records, hkept] at hincreasing
  have hlt := (List.pairwise_append.mp hincreasing).2.2 entry hevicted oldest List.mem_cons_self
  omega

/-- Recovery is exact exactly when something after the cursor was evicted, or
the records kept start at most one after the cursor. -/
theorem blocksSince_exact_iff (capacity since : ℕ)
    (hincreasing : records.Pairwise fun entry later ↦ entry.eventSeq < later.eventSeq) :
    RecoversExactly capacity records since ↔
      (∃ entry ∈ evicted capacity records, since < entry.eventSeq) ∨
        Covers capacity records since := by
  constructor
  · rintro ⟨-, hlag⟩
    by_cases hcovers : Covers capacity records since
    · exact Or.inr hcovers
    · exact Or.inl (hlag.mp (blocksSince_of_not_covers hcovers))
  · rintro (⟨entry, hevicted, hlate⟩ | hcovers)
    · have hlag := blocksSince_of_not_covers (not_covers_of_evicted hincreasing hevicted hlate)
      exact ⟨fun hnone ↦ (hnone entry hevicted hlate).elim,
        iff_of_true hlag ⟨entry, hevicted, hlate⟩⟩
    · have hok := blocksSince_of_covers hcovers
      have hnone : ¬ ∃ entry ∈ evicted capacity records, since < entry.eventSeq := by
        rintro ⟨entry, hevicted, hlate⟩
        exact not_covers_of_evicted hincreasing hevicted hlate hcovers
      constructor
      · intro hkept
        have hearly : (evicted capacity records).filter (fun entry ↦ since < entry.eventSeq) = [] :=
          List.filter_eq_nil_iff.mpr fun entry hentry hlate ↦
            hkept entry hentry (of_decide_eq_true hlate)
        have hall : blocksAfter records since =
            blocksAfter (retained capacity records) since := by
          unfold blocksAfter
          conv_lhs => rw [← evicted_append_retained capacity records]
          rw [List.filter_append, hearly, List.nil_append]
        rw [hok, hall]
      · refine iff_of_false ?_ hnone
        rintro ⟨error, herror⟩
        rw [hok] at herror
        cases herror

end DisconnectedBlockJournal

/-- A disconnect event that the event journal still has stands for a block that the journal of
disconnected blocks still has, under the sequence number of the event. -/
theorem Chain.disconnects_covered [Crypto] [Features] {genesis : Block} {chain : Chain}
    (h : Reachable genesis chain) {event : EventEntry} (hkept : event ∈ chain.eventJournal.entries)
    {height : ℕ} {hash : Hash256} (hevent : event.event = .blockDisconnected height hash) :
    ∃ entry ∈ chain.disconnectedJournal.entries,
      entry.eventSeq = event.seq ∧ entry.block.hash = hash := by
  have hjournaled := h.journaled
  have hmem : (event.event, event.seq) ∈
      chain.eventJournal.entries.map fun entry ↦ (entry.event, entry.seq) :=
    List.mem_map_of_mem hkept
  have hhash : event.event.disconnected? = some hash := by
    rw [hevent, ChainEvent.disconnected?]
  have hrecorded := hjournaled.events.entries.derived_mem hjournaled.disconnects hmem hhash
  obtain ⟨entry, hentry, heq⟩ := List.mem_map.mp hrecorded
  obtain ⟨rfl, hseq⟩ := Prod.mk.inj heq
  exact ⟨entry, hentry, hseq, rfl⟩

namespace Sample

open DisconnectedBlockJournal

/-- A journal that has pushed out its first record. -/
theorem overrun_recovers :
    RecoversExactly 1 [⟨2, genesis⟩, ⟨5, first⟩] 0 ↔
      (∃ entry ∈ evicted 1 [⟨2, genesis⟩, ⟨5, first⟩], 0 < entry.eventSeq) ∨
        Covers 1 [⟨2, genesis⟩, ⟨5, first⟩] 0 :=
  blocksSince_exact_iff 1 0 (by simp)

/-- Nothing was evicted, and yet the first record is reported as lost. -/
theorem sparse_not_recovered : ¬ ∀ capacity records since,
    records.Pairwise (fun entry later : DisconnectedEntry ↦ entry.eventSeq < later.eventSeq) →
      RecoversExactly capacity records since := by
  intro h
  have hrecovered := (h 4 [⟨2, genesis⟩] 0 (List.pairwise_singleton _ _)).2.mp ⟨⟨0, 2⟩, rfl⟩
  obtain ⟨entry, hevicted, -⟩ := hrecovered
  cases hevicted

/-- A reorganisation, with the event of the block that it disconnected. -/
theorem switched_covered :
    ∃ entry ∈ (switched (grown first) first sideNext).disconnectedJournal.entries,
      entry.eventSeq = 3 ∧ entry.block.hash = first.hash := by
  have hkept : ⟨3, .blockDisconnected 1 first.hash⟩ ∈
      (switched (grown first) first sideNext).eventJournal.entries := by
    decide +kernel
  have hrun : Chain.Reachable genesis (switched (grown first) first sideNext) :=
    switched_reachable trivial trivial trivial
  exact Chain.disconnects_covered hrun hkept rfl

end Sample

end Bitrst
