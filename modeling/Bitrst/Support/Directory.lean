import Bitrst.Support.HashMap
import Mathlib.Data.List.Basic

/-!
# A directory that survives crashes

The files of one directory, as the calls of a running program see them, and the
entries that the last sync of the directory has made lasting.  A crash may bring back
the lasting entry of any name, and may leave anything at all in a file that was not
synced, in particular any part of what was written to it.
-/

namespace Support

variable {κ α : Type*} [DecidableEq κ]

/-- The contents of a file, and whether they have reached the disk. -/
structure File (α : Type*) where
  bytes : List α
  synced : Bool

structure Disk (κ α : Type*) where
  seen : HashMap κ (File α)
  settled : HashMap κ (File α)

/-- The calls that change a directory. -/
inductive DirCall (κ α : Type*)
  /-- Open for writing, made empty if it exists. -/
  | create (name : κ)
  | append (name : κ) (bytes : List α)
  | sync (name : κ)
  | rename (source target : κ)
  | remove (name : κ)
  | syncDir

namespace DirCall

/-- The names whose entries the call may change. -/
def touched : DirCall κ α → List κ
  | create name => [name]
  | append name _ => [name]
  | sync name => [name]
  | rename source target => [source, target]
  | remove name => [name]
  | syncDir => []

/-- What a call that succeeds does. -/
def perform (disk : Disk κ α) : DirCall κ α → Disk κ α
  | create name => { disk with seen := Finmap.insert name ⟨[], false⟩ disk.seen }
  | append name bytes =>
      match disk.seen.lookup name with
      | none => disk
      | some file => { disk with seen := Finmap.insert name ⟨file.bytes ++ bytes, false⟩ disk.seen }
  | sync name =>
      match disk.seen.lookup name with
      | none => disk
      | some file => { disk with seen := Finmap.insert name ⟨file.bytes, true⟩ disk.seen }
  | rename source target =>
      match disk.seen.lookup source with
      | none => disk
      | some file =>
          { disk with seen := Finmap.insert target file (Finmap.erase source disk.seen) }
  | remove name => { disk with seen := Finmap.erase name disk.seen }
  | syncDir => { disk with settled := disk.seen }

/-- What a call that fails may have done: nothing, or a part of the write. -/
def Unfinished (call : DirCall κ α) (disk disk' : Disk κ α) : Prop :=
  disk' = disk ∨ ∃ name bytes part, call = append name bytes ∧ part <+: bytes ∧
    disk' = perform disk (append name part)

/-- The calls leave the entries of other names alone. -/
theorem lookup_perform {call : DirCall κ α} {name : κ} (hname : name ∉ call.touched)
    (disk : Disk κ α) : (call.perform disk).seen.lookup name = disk.seen.lookup name := by
  cases call with
  | create other =>
      rw [perform, HashMap.lookup_insert_ite, if_neg (by simpa [touched] using hname)]
  | append other bytes =>
      rw [perform]
      split
      · rfl
      · rw [HashMap.lookup_insert_ite, if_neg (by simpa [touched] using hname)]
  | sync other =>
      rw [perform]
      split
      · rfl
      · rw [HashMap.lookup_insert_ite, if_neg (by simpa [touched] using hname)]
  | rename source target =>
      simp only [touched, List.mem_cons, List.not_mem_nil, or_false, not_or] at hname
      rw [perform]
      split
      · rfl
      · rw [HashMap.lookup_insert_ite, if_neg hname.2, HashMap.lookup_erase_ite, if_neg hname.1]
  | remove other =>
      rw [perform, HashMap.lookup_erase_ite, if_neg (by simpa [touched] using hname)]
  | syncDir => rfl

theorem settled_perform (call : DirCall κ α) (disk : Disk κ α) :
    (call.perform disk).settled = disk.settled ∨
      (call.perform disk).settled = disk.seen ∧ (call.perform disk).seen = disk.seen := by
  cases call with
  | create _ => exact Or.inl rfl
  | append _ _ => rw [perform]; split <;> exact Or.inl rfl
  | sync _ => rw [perform]; split <;> exact Or.inl rfl
  | rename _ _ => rw [perform]; split <;> exact Or.inl rfl
  | remove _ => exact Or.inl rfl
  | syncDir => exact Or.inr ⟨rfl, rfl⟩

end DirCall

namespace Disk

/-- What a crash may leave. -/
structure Crashed (disk disk' : Disk κ α) : Prop where
  settled : disk'.settled = disk'.seen
  file : ∀ name file, disk'.seen.lookup name = some file → file.synced = true ∧
    ∃ old, (disk.seen.lookup name = some old ∨ disk.settled.lookup name = some old) ∧
      (old.synced = true → file.bytes = old.bytes)
  lost : ∀ name, disk'.seen.lookup name = none →
    disk.seen.lookup name = none ∨ disk.settled.lookup name = none

/-- Entries may become lasting at any time, each on its own. -/
structure Flushed (disk disk' : Disk κ α) : Prop where
  seen : disk'.seen = disk.seen
  settled : ∀ name, disk'.settled.lookup name = disk.settled.lookup name ∨
    disk'.settled.lookup name = disk.seen.lookup name

/-- Whatever is found under the name, now or after a crash, is complete and satisfies `P`. -/
def Stable (disk : Disk κ α) (name : κ) (P : List α → Prop) : Prop :=
  ∀ file, disk.seen.lookup name = some file ∨ disk.settled.lookup name = some file →
    file.synced = true ∧ P file.bytes

/-- The name is there, now and after a crash. -/
def Kept (disk : Disk κ α) (name : κ) : Prop :=
  disk.seen.lookup name ≠ none ∧ disk.settled.lookup name ≠ none

variable {disk disk' : Disk κ α} {call : DirCall κ α} {name : κ} {P : List α → Prop}

theorem Stable.mono {Q : List α → Prop} (h : disk.Stable name P)
    (himp : ∀ bytes, P bytes → Q bytes) : disk.Stable name Q :=
  fun file hfile ↦ ⟨(h file hfile).1, himp _ (h file hfile).2⟩

/-- A call that does not touch the name keeps it stable. -/
theorem Stable.perform (h : disk.Stable name P) (hname : name ∉ call.touched) :
    (call.perform disk).Stable name P := by
  intro file hfile
  rw [DirCall.lookup_perform hname] at hfile
  rcases hfile with hseen | hsettled
  · exact h file (Or.inl hseen)
  · rcases call.settled_perform disk with heq | ⟨heq, -⟩
    · exact h file (Or.inr (heq ▸ hsettled))
    · exact h file (Or.inl (heq ▸ hsettled))

theorem Kept.perform (h : disk.Kept name) (hname : name ∉ call.touched) :
    (call.perform disk).Kept name := by
  refine ⟨?_, ?_⟩
  · rw [DirCall.lookup_perform hname]
    exact h.1
  · rcases call.settled_perform disk with heq | ⟨heq, -⟩
    · rw [heq]
      exact h.2
    · rw [heq]
      exact h.1

/-- A complete file moved to the name keeps it stable. -/
theorem Stable.rename (h : disk.Stable name P) {source : κ} {file : File α}
    (hsource : disk.seen.lookup source = some file) (hsynced : file.synced = true)
    (hfile : P file.bytes) : ((DirCall.rename source name).perform disk).Stable name P := by
  intro found hfound
  rw [DirCall.perform, hsource] at hfound
  rcases hfound with hseen | hsettled
  · simp only [HashMap.lookup_insert_ite, if_true] at hseen
    rw [← Option.some.inj hseen]
    exact ⟨hsynced, hfile⟩
  · exact h found (Or.inr hsettled)

theorem lookup_rename {source target : κ} {file : File α}
    (hsource : disk.seen.lookup source = some file) :
    ((DirCall.rename source target).perform disk).seen.lookup target = some file := by
  rw [DirCall.perform, hsource]
  simp only [HashMap.lookup_insert_ite, if_true]

/-- A rename loses no name that was kept, unless it moves it away. -/
theorem Kept.rename (h : disk.Kept name) {source target : κ} (hname : name ≠ source) :
    ((DirCall.rename source target).perform disk).Kept name := by
  by_cases htarget : name = target
  · refine ⟨?_, ?_⟩
    · rw [DirCall.perform]
      split
      · exact h.1
      · simp only [HashMap.lookup_insert_ite, if_pos htarget]
        exact Option.some_ne_none _
    · rcases (DirCall.rename source target).settled_perform disk with heq | ⟨heq, -⟩
      · rw [heq]
        exact h.2
      · rw [heq]
        exact h.1
  · exact h.perform (by simp [DirCall.touched, hname, htarget])

theorem kept_syncDir (hname : disk.seen.lookup name ≠ none) :
    (DirCall.syncDir.perform disk).Kept name := ⟨hname, hname⟩

theorem Stable.flush (h : disk.Stable name P) (hflush : Flushed disk disk') :
    disk'.Stable name P := by
  intro file hfile
  rw [hflush.seen] at hfile
  rcases hflush.settled name with heq | heq
  · exact h file (heq ▸ hfile)
  · rw [heq, or_self] at hfile
    exact h file (Or.inl hfile)

theorem Kept.flush (h : disk.Kept name) (hflush : Flushed disk disk') : disk'.Kept name := by
  refine ⟨hflush.seen ▸ h.1, ?_⟩
  rcases hflush.settled name with heq | heq
  · exact heq ▸ h.2
  · exact heq ▸ h.1

theorem Stable.crash (h : disk.Stable name P) (hcrash : Crashed disk disk') :
    disk'.Stable name P := by
  intro file hfile
  rw [hcrash.settled, or_self] at hfile
  obtain ⟨hsynced, old, hold, hbytes⟩ := hcrash.file name file hfile
  obtain ⟨holdSynced, hP⟩ := h old hold
  exact ⟨hsynced, by rwa [hbytes holdSynced]⟩

theorem Kept.crash (h : disk.Kept name) (hcrash : Crashed disk disk') : disk'.Kept name := by
  have hseen : disk'.seen.lookup name ≠ none := by
    intro hnone
    rcases hcrash.lost name hnone with hlost | hlost
    · exact h.1 hlost
    · exact h.2 hlost
  exact ⟨hseen, by rwa [hcrash.settled]⟩

/-- A failed call writes at most to the file it appends to. -/
theorem Stable.unfinished (h : disk.Stable name P) (hname : ∀ bytes, call ≠ .append name bytes)
    (hcall : call.Unfinished disk disk') : disk'.Stable name P := by
  rcases hcall with rfl | ⟨other, bytes, part, rfl, -, rfl⟩
  · exact h
  · apply h.perform
    rw [DirCall.touched, List.mem_singleton]
    rintro rfl
    exact hname bytes rfl

theorem Kept.unfinished (h : disk.Kept name) (hname : ∀ bytes, call ≠ .append name bytes)
    (hcall : call.Unfinished disk disk') : disk'.Kept name := by
  rcases hcall with rfl | ⟨other, bytes, part, rfl, -, rfl⟩
  · exact h
  · apply h.perform
    rw [DirCall.touched, List.mem_singleton]
    rintro rfl
    exact hname bytes rfl

end Disk

end Support
