import Bitrst.ChainCoherence
import Bitrst.FileStore

/-!
# Crashes of the file store

A put touches the name of its block only when it renames the temporary file, and by
then that file is complete and synced.  So a crash between any two calls, or within a
write, leaves under the name of a block nothing or a block that was put.  The cleanup
on open removes no such name, and a put that returned has synced the directory.
-/

namespace Bitrst

open Support

namespace FileBlockStore

variable [Crypto]

/-- What every directory of a reachable session holds. -/
structure Holds (disk : StoreDisk) (put stored : List Block) : Prop where
  decodable : ∀ block ∈ put, block.Decodable
  whole : ∀ hash, disk.Stable (blockPath hash) fun bytes ↦
    ∃ block ∈ put, block.hash = hash ∧ bytes = block.serialize
  kept : ∀ block ∈ stored, disk.Kept (blockPath block.hash) ∧ block ∈ put

/-- How far a put has come: the calls that are left, and what the earlier ones achieved. -/
inductive Underway (disk : StoreDisk) (block : Block) : List StoreCall → Prop
  | begun : Underway disk block (putBlock block)
  | created (h : disk.seen.lookup (tempPath block.hash) = some ⟨[], false⟩) :
      Underway disk block [.append (tempPath block.hash) block.serialize,
        .sync (tempPath block.hash), .rename (tempPath block.hash) (blockPath block.hash), .syncDir]
  | written (h : disk.seen.lookup (tempPath block.hash) = some ⟨block.serialize, false⟩) :
      Underway disk block [.sync (tempPath block.hash),
        .rename (tempPath block.hash) (blockPath block.hash), .syncDir]
  | synced (h : disk.seen.lookup (tempPath block.hash) = some ⟨block.serialize, true⟩) :
      Underway disk block [.rename (tempPath block.hash) (blockPath block.hash), .syncDir]
  | renamed (h : disk.seen.lookup (blockPath block.hash) ≠ none) : Underway disk block [.syncDir]
  | done (h : disk.Kept (blockPath block.hash)) : Underway disk block []

/-- What the calls still to be made are. -/
def Activity.Proper (disk : StoreDisk) (put : List Block) : Activity → Prop
  | .closed => True
  | .opening calls => ∀ call ∈ calls, ∃ name, call = .remove name ∧ isResidue name = true
  | .idle => True
  | .working calls => ∀ call ∈ calls, call = .syncDir
  | .putting block calls => block ∈ put ∧ Underway disk block calls

/-- The call leaves the names of all blocks alone. -/
def Harmless (call : StoreCall) : Prop := ∀ hash, blockPath hash ∉ call.touched

variable {disk disk' : StoreDisk} {put stored : List Block} {block : Block} {call : StoreCall}
  {calls : List StoreCall}

/-! ## Single calls -/

omit [Crypto] in
theorem harmless_syncDir : Harmless .syncDir := fun _ ↦ List.not_mem_nil

omit [Crypto] in
theorem harmless_remove {name : FileName} (hresidue : isResidue name = true) :
    Harmless (.remove name) := by
  intro hash hmem
  obtain rfl := List.mem_singleton.mp hmem
  rw [isResidue_blockPath] at hresidue
  cases hresidue

theorem Holds.perform (h : Holds disk put stored) (hcall : Harmless call) :
    Holds (call.perform disk) put stored where
  decodable := h.decodable
  whole hash := (h.whole hash).perform (hcall hash)
  kept block hblock := ⟨(h.kept block hblock).1.perform (hcall _), (h.kept block hblock).2⟩

theorem Holds.flush (h : Holds disk put stored) (hflush : Disk.Flushed disk disk') :
    Holds disk' put stored where
  decodable := h.decodable
  whole hash := (h.whole hash).flush hflush
  kept block hblock := ⟨(h.kept block hblock).1.flush hflush, (h.kept block hblock).2⟩

theorem Holds.crash (h : Holds disk put stored) (hcrash : Disk.Crashed disk disk') :
    Holds disk' put stored where
  decodable := h.decodable
  whole hash := (h.whole hash).crash hcrash
  kept block hblock := ⟨(h.kept block hblock).1.crash hcrash, (h.kept block hblock).2⟩

/-- The rename puts a complete file under the name of the block. -/
theorem Holds.rename (h : Holds disk put stored) (hput : block ∈ put)
    (hfile : disk.seen.lookup (tempPath block.hash) = some ⟨block.serialize, true⟩) :
    Holds ((DirCall.rename (tempPath block.hash) (blockPath block.hash)).perform disk)
      put stored where
  decodable := h.decodable
  whole hash := by
    by_cases hhash : hash = block.hash
    · rw [hhash]
      exact (h.whole _).rename hfile rfl ⟨block, hput, rfl, rfl⟩
    · apply (h.whole hash).perform
      simp only [DirCall.touched, List.mem_cons, List.not_mem_nil, or_false, not_or]
      exact ⟨blockPath_ne_tempPath _ _, fun hpath ↦ hhash (blockPath_injective hpath)⟩
  kept stored hstored := ⟨(h.kept stored hstored).1.rename (blockPath_ne_tempPath _ _),
    (h.kept stored hstored).2⟩

/-- A call of a put is harmless, or it is the rename and the temporary file is complete. -/
theorem Underway.call_cases (h : Underway disk block (call :: calls)) : Harmless call ∨
    call = .rename (tempPath block.hash) (blockPath block.hash) ∧
      disk.seen.lookup (tempPath block.hash) = some ⟨block.serialize, true⟩ := by
  have htemp : ∀ hash, blockPath hash ∉ [tempPath block.hash] :=
    fun hash hmem ↦ blockPath_ne_tempPath _ _ (List.mem_singleton.mp hmem)
  cases h with
  | begun => exact Or.inl htemp
  | created _ => exact Or.inl htemp
  | written _ => exact Or.inl htemp
  | synced hfile => exact Or.inr ⟨rfl, hfile⟩
  | renamed _ => exact Or.inl harmless_syncDir

/-- Each call brings the put one stage further. -/
theorem Underway.next (h : Underway disk block (call :: calls)) :
    Underway (call.perform disk) block calls := by
  cases h with
  | begun =>
      apply Underway.created
      rw [DirCall.perform, HashMap.lookup_insert_ite, if_pos rfl]
  | created hfile =>
      apply Underway.written
      rw [DirCall.perform, hfile]
      exact (HashMap.lookup_insert_ite ..).trans (if_pos rfl)
  | written hfile =>
      apply Underway.synced
      rw [DirCall.perform, hfile]
      exact (HashMap.lookup_insert_ite ..).trans (if_pos rfl)
  | synced hfile =>
      apply Underway.renamed
      rw [Disk.lookup_rename hfile]
      exact Option.some_ne_none _
  | renamed hfile => exact Underway.done (Disk.kept_syncDir hfile)

theorem Activity.Proper.flush {activity : Activity} (h : activity.Proper disk put)
    (hflush : Disk.Flushed disk disk') : activity.Proper disk' put := by
  cases activity with
  | closed => trivial
  | opening _ => exact h
  | idle => trivial
  | working _ => exact h
  | putting block calls =>
      refine ⟨h.1, ?_⟩
      cases h.2 with
      | begun => exact Underway.begun
      | created hfile => exact Underway.created (hflush.seen ▸ hfile)
      | written hfile => exact Underway.written (hflush.seen ▸ hfile)
      | synced hfile => exact Underway.synced (hflush.seen ▸ hfile)
      | renamed hfile => exact Underway.renamed (hflush.seen ▸ hfile)
      | done hkept => exact Underway.done (hkept.flush hflush)

theorem Holds.unfinished (h : Holds disk put stored)
    (hunderway : Underway disk block (call :: calls)) (hcall : call.Unfinished disk disk') :
    Holds disk' put stored := by
  have hname : ∀ hash bytes, call ≠ .append (blockPath hash) bytes := by
    rintro hash bytes rfl
    rcases hunderway.call_cases with hharmless | ⟨hrename, -⟩
    · exact hharmless hash (List.mem_singleton_self _)
    · cases hrename
  exact {
    decodable := h.decodable
    whole := fun hash ↦ (h.whole hash).unfinished (hname hash) hcall
    kept := fun block hblock ↦
      ⟨(h.kept block hblock).1.unfinished (hname _) hcall, (h.kept block hblock).2⟩ }

theorem Holds.begin (h : Holds disk put stored) (hdecodable : block.Decodable) :
    Holds disk (block :: put) stored where
  decodable := List.forall_mem_cons.mpr ⟨hdecodable, h.decodable⟩
  whole hash := (h.whole hash).mono fun _ ⟨found, hfound, hrest⟩ ↦
    ⟨found, List.mem_cons_of_mem _ hfound, hrest⟩
  kept block hblock := ⟨(h.kept block hblock).1, List.mem_cons_of_mem _ (h.kept block hblock).2⟩

/-! ## Runs -/

/-- The directory of the session and the calls that are left fit together. -/
def Session.Sound (session : Session) : Prop :=
  Holds session.disk session.put session.stored ∧
    session.activity.Proper session.disk session.put

theorem Fresh.sound {session : Session} (h : Fresh session) : session.Sound := by
  obtain ⟨hclosed, hput, hstored, hempty⟩ := h
  rw [Session.Sound, hclosed, hput, hstored]
  refine ⟨⟨List.forall_mem_nil _, ?_, List.forall_mem_nil _⟩, trivial⟩
  intro hash file hfile
  rw [(hempty hash).1, (hempty hash).2, or_self] at hfile
  cases hfile

theorem Step.sound {session session' : Session} (hstep : Step session session')
    (h : session.Sound) : session'.Sound := by
  obtain ⟨hholds, hproper⟩ := h
  cases hstep with
  | opens names _ =>
      refine ⟨hholds, fun call hcall ↦ ?_⟩
      obtain ⟨name, hname, rfl⟩ := List.mem_map.mp hcall
      exact ⟨name, rfl, (List.mem_filter.mp hname).2⟩
  | cleans call calls =>
      obtain ⟨name, rfl, hresidue⟩ := hproper call List.mem_cons_self
      exact ⟨hholds.perform (harmless_remove hresidue),
        fun call hcall ↦ hproper call (List.mem_cons_of_mem _ hcall)⟩
  | skips name calls _ =>
      exact ⟨hholds, fun call hcall ↦ hproper call (List.mem_cons_of_mem _ hcall)⟩
  | opened => exact ⟨hholds, trivial⟩
  | refused _ => exact ⟨hholds, trivial⟩
  | begins block decodable =>
      exact ⟨hholds.begin decodable, List.mem_cons_self, Underway.begun⟩
  | writes block call calls =>
      obtain ⟨hput, hunderway⟩ := hproper
      refine ⟨?_, hput, hunderway.next⟩
      rcases hunderway.call_cases with hharmless | ⟨rfl, hfile⟩
      · exact hholds.perform hharmless
      · exact hholds.rename hput hfile
  | returns block =>
      obtain ⟨hput, hunderway⟩ := hproper
      cases hunderway with
      | done hkept =>
          exact ⟨⟨hholds.decodable, hholds.whole,
            List.forall_mem_cons.mpr ⟨⟨hkept, hput⟩, hholds.kept⟩⟩, trivial⟩
  | fails block call calls unfinished =>
      exact ⟨hholds.unfinished hproper.2 unfinished, trivial⟩
  | commits => exact ⟨hholds, fun call hcall ↦ List.mem_singleton.mp hcall⟩
  | works call calls =>
      obtain rfl := hproper call List.mem_cons_self
      exact ⟨hholds.perform harmless_syncDir,
        fun call hcall ↦ hproper call (List.mem_cons_of_mem _ hcall)⟩
  | worked _ => exact ⟨hholds, trivial⟩
  | flushes flushed => exact ⟨hholds.flush flushed, hproper.flush flushed⟩
  | crash crashed => exact ⟨hholds.crash crashed, trivial⟩
  | exits => exact ⟨hholds, trivial⟩

theorem Reachable.sound {session : Session} (h : Reachable session) : session.Sound := by
  obtain ⟨start, hfresh, hrun⟩ := h
  induction hrun with
  | refl => exact hfresh.sound
  | tail _ hstep ih => exact hstep.sound ih

/-- A file that holds what was written for a block is read back as that block. -/
theorem getBlock_of_lookup {files : HashMap FileName (File UInt8)} {file : File UInt8}
    (hfile : files.lookup (blockPath block.hash) = some file)
    (hbytes : file.bytes = block.serialize) (hdecodable : block.Decodable) :
    getBlock files block.hash = .ok (some block) := by
  rw [getBlock, hfile]
  simp only [hbytes, Block.format.round_trip block hdecodable, ne_eq, not_true_eq_false, if_false]

/-- In every session, whatever crashes and failures came before and whatever is under way,
a hash leads to nothing or to a block that was put, and to a block if a put of one
with that hash has returned. -/
theorem crash_consistent {session : Session} (hreach : Reachable session) (hash : Hash256) :
    (getBlock session.disk.seen hash = .ok none ∧
        ∀ block ∈ session.stored, block.hash ≠ hash) ∨
      ∃ block ∈ session.put, block.hash = hash ∧
        getBlock session.disk.seen hash = .ok (some block) := by
  obtain ⟨hholds, -⟩ := hreach.sound
  cases hfile : session.disk.seen.lookup (blockPath hash) with
  | none =>
      refine Or.inl ⟨by rw [getBlock, hfile], ?_⟩
      rintro block hstored rfl
      exact (hholds.kept block hstored).1.1 hfile
  | some file =>
      obtain ⟨-, block, hput, rfl, hbytes⟩ := hholds.whole hash file (Or.inl hfile)
      exact Or.inr ⟨block, hput, rfl,
        getBlock_of_lookup hfile hbytes (hholds.decodable block hput)⟩

/-! ## Reopening -/

theorem run_writes (block : Block) (calls : List StoreCall) (disk : StoreDisk)
    (put stored : List Block) :
    Relation.ReflTransGen Step ⟨disk, .putting block calls, put, stored⟩
      ⟨calls.foldl DirCall.perform disk, .putting block [], put, stored⟩ := by
  induction calls generalizing disk with
  | nil => exact .refl
  | cons call calls ih => exact .head (Step.writes block call calls) (ih _)

theorem run_cleanup (calls : List StoreCall) (disk : StoreDisk) (put stored : List Block) :
    Relation.ReflTransGen Step ⟨disk, .opening calls, put, stored⟩
      ⟨calls.foldl DirCall.perform disk, .idle, put, stored⟩ := by
  induction calls generalizing disk with
  | nil => exact .single Step.opened
  | cons call calls ih => exact .head (Step.cleans call calls) (ih _)

/-- Every directory can be opened, after a crash as well. -/
theorem run_open (disk : StoreDisk) (put stored : List Block) : ∃ names,
    (∀ name, name ∈ names ↔ disk.seen.lookup name ≠ none) ∧
      Relation.ReflTransGen Step ⟨disk, .closed, put, stored⟩
        ⟨(cleanupTempFiles names).foldl DirCall.perform disk, .idle, put, stored⟩ := by
  have hlisted : ∀ name, name ∈ disk.seen.keys.toList ↔ disk.seen.lookup name ≠ none := by
    intro name
    rw [Finset.mem_toList, Finmap.mem_keys, ne_eq, Finmap.lookup_eq_none, not_not]
  exact ⟨_, hlisted, .head (Step.opens _ hlisted) (run_cleanup _ _ _ _)⟩

/-- The entries of a directory that holds a single block. -/
def filed (block : Block) : HashMap FileName (File UInt8) :=
  Finmap.insert (blockPath block.hash) ⟨block.serialize, true⟩ ∅

/-- A put into an empty directory leaves the file of the block and nothing else. -/
theorem foldl_putBlock (block : Block) :
    (putBlock block).foldl DirCall.perform ⟨∅, ∅⟩ = ⟨filed block, filed block⟩ := by
  have hpath : tempPath block.hash ≠ blockPath block.hash := (blockPath_ne_tempPath _ _).symm
  have hseen : ((putBlock block).foldl DirCall.perform ⟨∅, ∅⟩).seen = filed block := by
    apply Finmap.ext_lookup
    intro name
    simp only [putBlock, List.foldl_cons, List.foldl_nil, DirCall.perform, filed,
      HashMap.lookup_insert_ite, HashMap.lookup_erase_ite, if_true, List.nil_append]
    by_cases htemp : name = tempPath block.hash
    · simp only [htemp, hpath, if_true, if_false, Finmap.lookup_empty]
    · simp only [htemp, if_false]
  exact congrArg₂ Disk.mk hseen hseen

/-- One put into an empty directory, a crash, and the store is opened again. -/
theorem reachable_filed (hdecodable : block.Decodable) :
    Reachable ⟨⟨filed block, filed block⟩, .idle, [block], [block]⟩ := by
  have hput := run_writes block (putBlock block) ⟨∅, ∅⟩ [block] []
  rw [foldl_putBlock] at hput
  have hfound : ∀ {name file}, (filed block).lookup name = some file →
      name = blockPath block.hash ∧ file = ⟨block.serialize, true⟩ := by
    intro name file hfile
    rw [filed, HashMap.lookup_insert_ite] at hfile
    by_cases hname : name = blockPath block.hash
    · rw [if_pos hname] at hfile
      exact ⟨hname, (Option.some.inj hfile).symm⟩
    · rw [if_neg hname] at hfile
      cases hfile
  have hcrash : Disk.Crashed ⟨filed block, filed block⟩ ⟨filed block, filed block⟩ :=
    { settled := rfl
      file := by
        intro name file hfile
        obtain ⟨rfl, rfl⟩ := hfound hfile
        exact ⟨rfl, _, Or.inl hfile, fun _ ↦ rfl⟩
      lost := fun name hlost ↦ Or.inl hlost }
  obtain ⟨names, hnames, hopen⟩ := run_open ⟨filed block, filed block⟩ [block] [block]
  have hclean : cleanupTempFiles names = [] := by
    rw [cleanupTempFiles, List.map_eq_nil_iff, List.filter_eq_nil_iff]
    intro name hname
    obtain ⟨file, hfile⟩ := Option.ne_none_iff_exists'.mp ((hnames name).mp hname)
    rw [(hfound hfile).1, isResidue_blockPath]
    exact Bool.false_ne_true
  rw [hclean] at hopen
  refine ⟨⟨⟨∅, ∅⟩, .closed, [], []⟩, ⟨rfl, rfl, rfl, fun _ ↦ ⟨rfl, rfl⟩⟩, ?_⟩
  calc
    Relation.ReflTransGen Step ⟨⟨∅, ∅⟩, .closed, [], []⟩ ⟨⟨∅, ∅⟩, .idle, [], []⟩ :=
      .head (Step.opens [] fun _ ↦ by simp) (run_cleanup _ _ _ _)
    Relation.ReflTransGen Step _ ⟨⟨filed block, filed block⟩, .putting block [], [block], []⟩ :=
      .head (Step.begins block hdecodable) hput
    Relation.ReflTransGen Step _ ⟨⟨filed block, filed block⟩, .closed, [block], [block]⟩ :=
      .head (Step.returns block) (.single (Step.crash hcrash))
    Relation.ReflTransGen Step _ _ := hopen

end FileBlockStore

namespace Sample

theorem genesis_decodable : genesis.Decodable :=
  (Block.format.written genesis.serialize genesis (by decide +kernel)).1

theorem genesis_survives :
    FileBlockStore.getBlock (FileBlockStore.filed genesis) genesis.hash = .ok (some genesis) := by
  rcases FileBlockStore.crash_consistent
    (FileBlockStore.reachable_filed genesis_decodable) genesis.hash with ⟨-, hnone⟩ | hsome
  · exact absurd rfl (hnone genesis (List.mem_singleton_self _))
  · obtain ⟨block, hput, -, hfound⟩ := hsome
    obtain rfl := List.mem_singleton.mp hput
    exact hfound

end Sample

end Bitrst
