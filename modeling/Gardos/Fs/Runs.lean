import Gardos.Fs.Descriptors
import Gardos.Fs.Format
import Gardos.Fs.Names
import Gardos.Fs.Unlink

/-!
# Runs of calls

A run is a sequence of file system calls by any tasks, from a partition that has been formatted and
mounted. `RunOk` is its invariant: the state holds a tree, and every holder of an open inode is
accounted for, as the root directory, a slot of the file table, a directory handed out by
`sys_opendir`, or a directory that `sys_open` has left open for good. It is kept by every call that
is `Admissible` (`RunOk.step`):

* paths are within the limits of the source;
* a new object finds an inode number below 256 and room in the direct blocks of its directory;
* a file does not outgrow what can be read back, nor the free blocks;
* the path given to `sys_rmdir` does not end in `"."`, and an empty directory that it names is not
  open;
* `sys_closedir` is given a directory that `sys_opendir` has returned.
-/

namespace Gardos.Fs

open Bytes Outcome Function

/-! ## Calls -/

/-- The file system calls, with the task that makes them where it matters. -/
inductive Call
  | open (pid : ℕ) (path : List UInt8) (flags : ℕ)
  | close (pid fd : ℕ)
  | write (pid fd : ℕ) (buf : Buf) (count : ℕ)
  | read (pid fd count : ℕ)
  | unlink (path : List UInt8)
  | mkdir (path : List UInt8)
  | rmdir (path : List UInt8)
  | opendir (path : List UInt8)
  | closedir (dir : DirPtr)
  | stat (path : List UInt8)
  | chdir (path : List UInt8)

/-- The file system, and the directories that have been handed out and not yet closed. -/
structure FsRun where
  fs : FileSys
  dirs : List DirPtr

/-- Make a call. The first result is whether it succeeds. -/
def exec (uninit : Uninit) (x : FsRun) : Call → Outcome (Bool × FsRun)
  | .open pid path flags => do
    let (fd, s) ← sysOpen x.fs uninit pid path flags
    return (fd.isSome, { x with fs := s })
  | .close pid fd => do
    let (done, s) ← sysClose x.fs pid fd
    return (done, { x with fs := s })
  | .write pid fd buf count => do
    let (n, s) ← sysWrite x.fs pid fd buf count
    return (n.isSome, { x with fs := s })
  | .read pid fd count => do
    let (n, _, s) ← sysRead x.fs pid fd count
    return (n.isSome, { x with fs := s })
  | .unlink path => do
    let (done, s) ← sysUnlink x.fs uninit path
    return (done, { x with fs := s })
  | .mkdir path => do
    let (done, s) ← sysMkdir x.fs uninit path
    return (done, { x with fs := s })
  | .rmdir path => do
    let (done, s) ← sysRmdir x.fs uninit path
    return (done, { x with fs := s })
  | .opendir path => do
    let (dir, s) ← sysOpendir x.fs uninit path
    return (dir.isSome, { fs := s, dirs := dir.toList ++ x.dirs })
  | .closedir dir =>
    let (done, s) := sysClosedir x.fs (some dir)
    return (done, { fs := s, dirs := x.dirs.erase dir })
  | .stat path => do
    let (st, s) ← sysStat x.fs uninit path
    return (st.isSome, { x with fs := s })
  | .chdir path => do
    let (n, s) ← sysChdir x.fs uninit path
    return (n.isSome, { x with fs := s })

/-- If the call makes an object, there is a free inode number that fits in a byte, and the directory
that gets the new entry has fewer than 252 entries. -/
structure RoomToMake (s : FileSys) (path : List UInt8) : Prop where
  number : ∀ t, Represents s.part.vol t → ∀ d c, NewName t path d c →
    ∃ m < 256, s.part.vol.allocated m = false
  entry : ∀ t, Represents s.part.vol t → ∀ d c, NewName t path d c →
    (s.part.vol.inode d).iSize < 6048

/-- The directory that the path names is not open, if it is empty. Others are not removed. -/
def NamesNoOpenDir (s : FileSys) (path : List UInt8) : Prop :=
  ∀ t, Represents s.part.vol t → ∀ n, n ≠ 0 → (t.resolve path).found = some (n, .dir) →
    (∀ c, t.child n c = none) → findInode s n = none

/-- The conditions under which a call keeps the file system well formed. -/
def Admissible (x : FsRun) : Call → Prop
  | .open _ path flags => PathArg path ∧ (4 ≤ flags → RoomToMake x.fs path)
  | .close _ _ => True
  | .write pid fd _ count => ∀ q, fdInode x.fs pid fd = some q →
      WriteRoom x.fs.part.vol (x.fs.inodes q) count
  | .read _ _ _ => True
  | .unlink path => PathArg path
  | .mkdir path => PathArg path ∧ RoomToMake x.fs path
  | .rmdir path => PathArg path ∧ (components path).getLast? ≠ some dot ∧ NamesNoOpenDir x.fs path
  | .opendir path => PathArg path
  | .closedir dir => dir ∈ x.dirs
  | .stat path => PathArg path
  | .chdir path => PathArg path

/-! ## Holders -/

/-- The inode that a directory in the heap holds. -/
def DirPtr.cell : DirPtr → Option ℕ
  | .rootDir => none
  | .heap q => some q

/-- The inodes that the slots of the file table hold. -/
def slotCells (s : FileSys) : List ℕ := (List.range 32).filterMap fun i => (s.fileTable i).fdInode

/-- The inodes that are held, once for each holder. The last ones are held for good. -/
def heldCells (x : FsRun) (leak : List ℕ) : List ℕ :=
  x.fs.rootInode :: (slotCells x.fs ++ (x.dirs.filterMap DirPtr.cell ++ leak))

/-- The number of holders of each inode. -/
def holders (l : List ℕ) : ℕ → ℕ := fun q => l.count q

theorem hold_holders (l : List ℕ) (q : ℕ) : hold (holders l) q = holders (q :: l) := by
  funext q'
  by_cases h : q' = q
  · rw [h, hold_self, holders, holders, List.count_cons_self]
  · rw [hold_of_ne _ h, holders, holders, List.count_cons_of_ne (Ne.symm h)]

theorem holdDir_holders (l : List ℕ) (dir : DirPtr) :
    holdDir (holders l) dir = holders (dir.cell.toList ++ l) := by
  cases dir with
  | rootDir => rfl
  | heap q => exact hold_holders l q

theorem holders_perm {l l' : List ℕ} (h : l.Perm l') : holders l = holders l' :=
  funext fun q => h.count_eq q

variable {q : ℕ} {s s' : FileSys}

theorem holders_pos {l : List ℕ} : 0 < holders l q ↔ q ∈ l := List.count_pos_iff

/-- Taking a free slot. -/
theorem slotCells_take {g : ℕ} {file : File} (hg : g < 32) (hfree : (s.fileTable g).fdInode = none)
    (hfile : file.fdInode = some q) (hs : s'.fileTable = update s.fileTable g file) :
    (slotCells s').Perm (q :: slotCells s) := by
  unfold slotCells
  rw [List.filterMap_eq_flatMap_toList, List.filterMap_eq_flatMap_toList]
  refine perm_cons_flatMap_range hg (fun i _ hi => ?_) ?_
  · rw [hs, update_of_ne hi]
  · rw [hs, update_self, hfile, hfree]
    exact List.Perm.refl _

theorem slotCells_congr (h : ∀ i, (s'.fileTable i).fdInode = (s.fileTable i).fdInode) :
    slotCells s' = slotCells s := by
  unfold slotCells
  simp only [h]

theorem mem_slotCells : q ∈ slotCells s ↔ ∃ i < 32, (s.fileTable i).fdInode = some q := by
  simp [slotCells]

/-! ## The invariant -/

/-- The state of a run holds the tree `t`; the directories in `leak` are held for good. -/
structure RunOk (x : FsRun) (t : Tree ℕ (List UInt8)) (leak : List ℕ) : Prop where
  fs : FsOk x.fs t (holders (heldCells x leak))
  small : ∀ n, t.kind n ≠ none → n < 256
  high : ∀ i, 32 ≤ i → (x.fs.fileTable i).fdInode = none
  flags : ∀ i, (x.fs.fileTable i).fdFlag ≠ pipeFlag
  files : ∀ q ∈ slotCells x.fs, t.kind (x.fs.inodes q).iNo = some .file
  dirs : ∀ q ∈ x.dirs.filterMap DirPtr.cell ++ leak, t.kind (x.fs.inodes q).iNo = some .dir

section Invariant

variable {x x' : FsRun} {s' : FileSys} {t t' : Tree ℕ (List UInt8)} {leak leak' : List ℕ}
  {path : List UInt8} {uninit : Uninit} {q : ℕ} {d n : ℕ} {c : List UInt8} {k : Kind}

theorem RunOk.mem_open (h : RunOk x t leak) (hq : q ∈ heldCells x leak) : q ∈ x.fs.openInodes :=
  (h.fs.cache.mem q).2 (holders_pos.2 hq)

theorem RunOk.held_of_open (h : RunOk x t leak) (hq : q ∈ x.fs.openInodes) :
    q ∈ heldCells x leak := holders_pos.1 ((h.fs.cache.mem q).1 hq)

theorem mem_heldCells_slot (hq : q ∈ slotCells x.fs) : q ∈ heldCells x leak :=
  List.mem_cons_of_mem _ (List.mem_append_left _ hq)

theorem mem_heldCells_dir (hq : q ∈ x.dirs.filterMap DirPtr.cell ++ leak) :
    q ∈ heldCells x leak :=
  List.mem_cons_of_mem _ (List.mem_append_right _ hq)

/-- What a call has to show: the cells that are held already keep their numbers and kinds. -/
theorem RunOk.of_cells (h : RunOk x t leak) (hcells : Cells x.fs x'.fs)
    (h' : FsOk x'.fs t' (holders (heldCells x' leak'))) (hsmall : ∀ n, t'.kind n ≠ none → n < 256)
    (hhigh : ∀ i, 32 ≤ i → (x'.fs.fileTable i).fdInode = none)
    (hflags : ∀ i, (x'.fs.fileTable i).fdFlag ≠ pipeFlag)
    (hkind : ∀ q ∈ x.fs.openInodes, t'.kind (x.fs.inodes q).iNo = t.kind (x.fs.inodes q).iNo)
    (hslots : ∀ q ∈ slotCells x'.fs,
      q ∈ slotCells x.fs ∨ t'.kind (x'.fs.inodes q).iNo = some .file)
    (hdirs : ∀ q ∈ x'.dirs.filterMap DirPtr.cell ++ leak',
      q ∈ x.dirs.filterMap DirPtr.cell ++ leak ∨ t'.kind (x'.fs.inodes q).iNo = some .dir) :
    RunOk x' t' leak' := by
  have hkeep : ∀ q ∈ x.fs.openInodes,
      t'.kind (x'.fs.inodes q).iNo = t.kind (x.fs.inodes q).iNo := fun q hq => by
    rw [hcells.iNo q (h.fs.cache.lt_brk q hq), hkind q hq]
  refine ⟨h', hsmall, hhigh, hflags, fun q hq => ?_, fun q hq => ?_⟩
  · rcases hslots q hq with hold | hnew
    · rw [hkeep q (h.mem_open (mem_heldCells_slot hold))]
      exact h.files q hold
    · exact hnew
  · rcases hdirs q hq with hold | hnew
    · rw [hkeep q (h.mem_open (mem_heldCells_dir hold))]
      exact h.dirs q hold
    · exact hnew

theorem heldCells_of_frame (hs : Frame x.fs s') :
    heldCells { x with fs := s' } leak = heldCells x leak := by
  unfold heldCells
  rw [slotCells_congr (s := x.fs) fun i => by rw [hs.fileTable], hs.rootInode]

/-- A call that leaves the file table alone. -/
theorem RunOk.of_frame_dirs (h : RunOk x t leak) (hs : Frame x.fs x'.fs)
    (h' : FsOk x'.fs t' (holders (heldCells x' leak'))) (hsmall : ∀ n, t'.kind n ≠ none → n < 256)
    (hkind : ∀ q ∈ x.fs.openInodes, t'.kind (x.fs.inodes q).iNo = t.kind (x.fs.inodes q).iNo)
    (hdirs : ∀ q ∈ x'.dirs.filterMap DirPtr.cell ++ leak',
      q ∈ x.dirs.filterMap DirPtr.cell ++ leak ∨ t'.kind (x'.fs.inodes q).iNo = some .dir) :
    RunOk x' t' leak' := by
  refine h.of_cells hs.cells h' hsmall (fun i hi => ?_) (fun i => ?_) hkind (fun q hq => Or.inl ?_)
    hdirs
  · rw [hs.fileTable]
    exact h.high i hi
  · rw [hs.fileTable]
    exact h.flags i
  · rwa [slotCells_congr (s := x.fs) fun i => by rw [hs.fileTable]] at hq

/-- A call that leaves the directories alone, too. -/
theorem RunOk.of_frame (h : RunOk x t leak) (hs : Frame x.fs s')
    (h' : FsOk s' t' (holders (heldCells x leak))) (hsmall : ∀ n, t'.kind n ≠ none → n < 256)
    (hkind : ∀ q ∈ x.fs.openInodes, t'.kind (x.fs.inodes q).iNo = t.kind (x.fs.inodes q).iNo) :
    RunOk { x with fs := s' } t' leak :=
  h.of_frame_dirs hs (by rwa [heldCells_of_frame hs]) hsmall hkind fun _ hq => Or.inl hq

theorem RunOk.of_cacheStep (h : RunOk x t leak) (hs : CacheStep x.fs s')
    (h' : FsOk s' t (holders (heldCells x leak))) : RunOk { x with fs := s' } t leak :=
  h.of_frame hs.frame h' h.small fun _ _ => rfl

/-- A call that changes positions in files at most. -/
theorem RunOk.of_sameFiles (h : RunOk x t leak) (hcells : Cells x.fs s') (hs : SameFiles x.fs s')
    (h' : FsOk s' t (holders (heldCells x leak))) : RunOk { x with fs := s' } t leak := by
  have hslots : slotCells s' = slotCells x.fs := slotCells_congr hs.fdInode
  refine h.of_cells hcells ?_ h.small (fun i hi => ?_) (fun i => ?_) (fun _ _ => rfl)
    (fun q hq => Or.inl ?_) fun q hq => Or.inl hq
  · unfold heldCells at h' ⊢
    rw [hslots, hcells.rootInode]
    exact h'
  · rw [hs.fdInode]
    exact h.high i hi
  · rw [hs.fdFlag]
    exact h.flags i
  · rwa [hslots] at hq

/-- The directory in which a search stops. -/
theorem RunOk.resolve_dir_lt (h : RunOk x t leak) (hp : PathArg path) :
    (t.resolve path).dir < 256 := by
  obtain ⟨record, s₁, -, hs⟩ := h.fs.search hp ⟨0, false⟩
  exact h.small _ (ne_none_of_eq_some hs.kind)

/-- A new object has a new number. -/
theorem RunOk.kind_insert (h : RunOk x t leak) (hn : t.kind n = none) (hq : q ∈ x.fs.openInodes) :
    (t.insert d c n k).kind (x.fs.inodes q).iNo = t.kind (x.fs.inodes q).iNo := by
  refine Tree.kind_insert_of_ne fun hqn => h.fs.opened q hq ?_
  rw [hqn, hn]

theorem RunOk.small_insert (h : RunOk x t leak) (hn : n < 256) (m : ℕ)
    (hm : (t.insert d c n k).kind m ≠ none) : m < 256 := by
  by_cases hmn : m = n
  · rw [hmn]
    exact hn
  · rw [Tree.kind_insert_of_ne hmn] at hm
    exact h.small m hm

/-- An object that has been removed is not open. -/
theorem kind_remove_of_open {s : FileSys} {r : ℕ → ℕ} (h : FsOk s t r) (hs : Frame s s')
    (h' : FsOk s' (t.remove d c n) r) (hq : q ∈ s.openInodes) :
    (t.remove d c n).kind (s.inodes q).iNo = t.kind (s.inodes q).iNo := by
  have hopen := h'.opened q ((h'.cache.mem q).2 ((h.cache.mem q).1 hq))
  rw [hs.iNo q (h.cache.lt_brk q hq)] at hopen
  refine Tree.kind_remove_of_ne fun hqn => hopen ?_
  rw [hqn]
  exact update_self ..

theorem RunOk.small_remove (h : RunOk x t leak) (m : ℕ) (hm : (t.remove d c n).kind m ≠ none) :
    m < 256 := by
  by_cases hmn : m = n
  · rw [hmn] at hm
    exact absurd (by simp [Tree.remove]) hm
  · rw [Tree.kind_remove_of_ne hmn] at hm
    exact h.small m hm

/-- A file that is in no slot is not open: the other holders hold directories. -/
theorem RunOk.closed_of_not_inFileTable (h : RunOk x t leak) (hk : t.kind n = some .file)
    (hfree : inFileTable x.fs n = false) : findInode x.fs n = none := by
  refine findInode_eq_none.2 fun q hq hno => ?_
  have hheld := h.held_of_open hq
  rw [heldCells, List.mem_cons, List.mem_append] at hheld
  rcases hheld with rfl | hslot | hdir
  · rw [h.fs.cache.root_iNo] at hno
    rw [← hno, h.fs.rep.root_kind] at hk
    cases hk
  · obtain ⟨i, hi, hfd⟩ := mem_slotCells.1 hslot
    have hin : inFileTable x.fs n = true := by
      unfold inFileTable
      refine List.any_eq_true.2 ⟨i, List.mem_range.2 hi, ?_⟩
      rw [hfd]
      exact decide_eq_true hno
    rw [hin] at hfree
    exact Bool.noConfusion hfree
  · have hd := h.dirs q hdir
    rw [hno, hk] at hd
    cases hd

end Invariant

/-! ## One call -/

section Calls

variable {x x' : FsRun} {s' : FileSys} {t t' : Tree ℕ (List UInt8)} {leak leak' : List ℕ}
  {path : List UInt8} {uninit : Uninit} {q : ℕ} {done : Bool} {n : Option ℕ}
  {pid flags fd count : ℕ} {bytes : List UInt8}

/-- The entry that names the file at which a search stops. -/
theorem FsOk.exists_child_of_found {s : FileSys} {r : ℕ → ℕ} (h : FsOk s t r) (hp : PathArg path)
    {n : ℕ} (hf : (t.resolve path).found = some (n, .file)) :
    ∃ c, t.child (t.resolve path).dir c = some n := by
  unfold Tree.resolve at hf ⊢
  by_cases hr : isRootPath path = true
  · rw [if_pos hr] at hf
    cases (Prod.mk.inj (Option.some.inj hf)).2
  rw [if_neg hr] at hf ⊢
  obtain ⟨-, hne⟩ := hp.resolve_left hr
  obtain ⟨init, c, -, -, -, hk, hfound, -⟩ := @Tree.search_spec t (components path) 0 0
    h.rep.root_kind hne
  rw [hfound] at hf
  exact ⟨c, (h.rep.wf.child_of_entries hk hf).2.2⟩

/-- `file_read` changes the position only. -/
theorem fileRead_file {d : Disk} {file file' : File} {ino : Inode}
    (h : fileRead d file ino count = .ok (n, bytes, file')) :
    file'.fdInode = file.fdInode ∧ file'.fdFlag = file.fdFlag := by
  unfold fileRead at h
  extract_lets exceeds size start stop at h
  by_cases hz : exceeds ∧ size = 0
  · rw [if_pos hz] at h
    obtain rfl := (Prod.mk.inj (ok_pair h).2).2
    exact ⟨rfl, rfl⟩
  · rw [if_neg hz] at h
    obtain ⟨_, -, h⟩ := bind_eq_ok.1 h
    obtain ⟨blocks, -, h⟩ := bind_eq_ok.1 h
    obtain rfl := (Prod.mk.inj (ok_pair h).2).2
    exact ⟨rfl, rfl⟩

variable (h : RunOk x t leak)

include h

theorem RunOk.mkdir (hp : PathArg path) (hroom : RoomToMake x.fs path)
    (hrun : sysMkdir x.fs uninit path = .ok (done, s')) :
    ∃ t', RunOk { x with fs := s' } t' leak := by
  cases h.fs.mkdir hp (h.resolve_dir_lt hp) ⟨hroom.number t h.fs.rep, hroom.entry t h.fs.rep⟩
    hrun with
  | refused hs h' => exact ⟨t, h.of_frame hs h' h.small fun _ _ => rfl⟩
  | made hs _ hn hlt h' =>
    exact ⟨_, h.of_frame hs h' (h.small_insert hlt) fun q hq => h.kind_insert hn hq⟩

/-- `sys_unlink` takes one file out of the tree, or none. -/
theorem RunOk.unlink (hp : PathArg path)
    (hrun : sysUnlink x.fs uninit path = .ok (done, s')) :
    ∃ t', RunOk { x with fs := s' } t' leak ∧
      (done = true → ∃ d c n, t.child d c = some n ∧ t' = t.remove d c n) := by
  cases h.fs.unlinked hp hrun with
  | refused hs h' => exact ⟨t, h.of_cacheStep hs h', fun hdone => Bool.noConfusion hdone⟩
  | @removed n _ _ _ _ _ _ _ hf hfree _ _ =>
    obtain ⟨c, hc⟩ := h.fs.exists_child_of_found hp hf
    have hclosed := h.closed_of_not_inFileTable (h.fs.kind_of_found hp hf) hfree
    obtain ⟨s₁, hrun₁, hs, -, h'⟩ := h.fs.unlink_file hp uninit hf hfree hc (h.resolve_dir_lt hp)
    rw [hrun₁] at hrun
    obtain rfl := (ok_pair hrun).2
    exact ⟨_, h.of_frame hs (h' hclosed) h.small_remove fun q hq =>
      kind_remove_of_open h.fs hs (h' hclosed) hq, fun _ => ⟨_, c, n, hc, rfl⟩⟩

/-- `sys_rmdir` takes one directory out of the tree, or none. -/
theorem RunOk.rmdir (hp : PathArg path)
    (hlast : (components path).getLast? ≠ some dot)
    (hclosed : ∀ n, n ≠ 0 → (t.resolve path).found = some (n, .dir) → (∀ c, t.child n c = none) →
      findInode x.fs n = none)
    (hrun : sysRmdir x.fs uninit path = .ok (done, s')) :
    ∃ t', RunOk { x with fs := s' } t' leak ∧
      (done = true → ∃ d c n, t.child d c = some n ∧ t' = t.remove d c n) := by
  cases h.fs.rmdir hp hlast (h.resolve_dir_lt hp) hclosed hrun with
  | refused hs h' => exact ⟨t, h.of_cacheStep hs h', fun hdone => Bool.noConfusion hdone⟩
  | removed hs _ hc _ h' =>
    exact ⟨_, h.of_frame hs h' h.small_remove fun q hq => kind_remove_of_open h.fs hs h' hq,
      fun _ => ⟨_, _, _, hc, rfl⟩⟩

/-- A slot of the file table is taken. -/
theorem RunOk.takesSlot {g : ℕ} {fd : Option ℕ} (hcells : Cells x.fs s')
    (hslot : TakesSlot x.fs s' pid g q flags fd) (hflags : flags ≤ 7)
    (h' : FsOk s' t' (holders (leak' ++ q :: heldCells x leak)))
    (hsmall : ∀ n, t'.kind n ≠ none → n < 256)
    (hkind : ∀ q ∈ x.fs.openInodes, t'.kind (x.fs.inodes q).iNo = t.kind (x.fs.inodes q).iNo)
    (hfile : t'.kind (s'.inodes q).iNo = some .file)
    (hleak : ∀ q ∈ leak', t'.kind (s'.inodes q).iNo = some .dir) :
    RunOk { x with fs := s' } t' (leak' ++ leak) := by
  have hperm : (slotCells s').Perm (q :: slotCells x.fs) :=
    slotCells_take hslot.lt hslot.free rfl hslot.fileTable
  have htable : ∀ i, s'.fileTable i = if i = g then ⟨0, flags, some q⟩ else x.fs.fileTable i :=
    fun i => by rw [hslot.fileTable, update_apply]
  have hheld : (heldCells { x with fs := s' } (leak' ++ leak)).Perm
      (leak' ++ q :: heldCells x leak) := by
    unfold heldCells
    rw [hcells.rootInode]
    refine (((hperm.append_right _).cons _).trans ?_)
    rw [List.perm_iff_count]
    intro a
    simp only [List.count_cons, List.count_append]
    omega
  refine h.of_cells hcells (by rwa [holders_perm hheld]) hsmall (fun i hi => ?_) (fun i => ?_) hkind
    (fun a ha => ?_) fun a ha => ?_
  · rw [htable, if_neg (by have := hslot.lt; omega)]
    exact h.high i hi
  · rw [htable]
    split
    · change flags ≠ pipeFlag
      unfold pipeFlag
      omega
    · exact h.flags i
  · rcases List.mem_cons.1 (hperm.mem_iff.1 ha) with rfl | ha
    · exact Or.inr hfile
    · exact Or.inl ha
  · rw [List.mem_append, List.mem_append] at ha
    rcases ha with ha | ha | ha
    · exact Or.inl (List.mem_append_left _ ha)
    · exact Or.inr (hleak a ha)
    · exact Or.inl (List.mem_append_right _ ha)

/-- `sys_open`. It leaves at most one directory open, and none with `O_CREAT`. -/
theorem RunOk.open (hp : PathArg path) {fd : Option ℕ}
    (hroom : 4 ≤ flags → RoomToMake x.fs path)
    (hrun : sysOpen x.fs uninit pid path flags = .ok (fd, s')) :
    ∃ t' new, RunOk { x with fs := s' } t' (new ++ leak) ∧ new.length ≤ 1 ∧
      (4 ≤ flags → new = []) := by
  have hone : ∀ dir : DirPtr, dir.cell.toList.length ≤ 1 := fun dir => by
    cases dir with
    | rootDir => exact Nat.zero_le 1
    | heap q => exact le_rfl
  have hcell : ∀ {dir : DirPtr}, t.kind (s'.inodes (s'.dirInode dir)).iNo = some .dir →
      ∀ a ∈ dir.cell.toList, t.kind (s'.inodes a).iNo = some .dir := by
    intro dir hdir a ha
    cases dir with
    | rootDir => cases ha
    | heap q =>
      obtain rfl := List.mem_singleton.1 ha
      exact hdir
  obtain ⟨t', r', hopens⟩ := h.fs.open hp (h.resolve_dir_lt hp)
    (fun h4 => ⟨(hroom h4).number t h.fs.rep, (hroom h4).entry t h.fs.rep⟩) hrun
  cases hopens with
  | refused hs h' =>
    exact ⟨t, [], h.of_frame hs h' h.small fun _ _ => rfl, Nat.zero_le 1, fun _ => rfl⟩
  | @leaked _ dir hflags hs hdir h' =>
    rw [holdDir_holders] at h'
    refine ⟨t, dir.cell.toList, h.of_frame_dirs hs ?_ h.small (fun _ _ => rfl)
      (fun a ha => ?_), hone dir, fun h4 => absurd hflags (not_lt.2 h4)⟩
    · have hperm : (heldCells { x with fs := s' } (dir.cell.toList ++ leak)).Perm
          (dir.cell.toList ++ heldCells x leak) := by
        unfold heldCells
        rw [slotCells_congr (s := x.fs) fun i => by rw [hs.fileTable], hs.rootInode,
          List.perm_iff_count]
        intro a
        simp only [List.count_cons, List.count_append]
        omega
      rwa [holders_perm hperm]
    · rw [List.mem_append, List.mem_append] at ha
      rcases ha with ha | ha | ha
      · exact Or.inl (List.mem_append_left _ ha)
      · exact Or.inr (hcell hdir a ha)
      · exact Or.inl (List.mem_append_right _ ha)
  | @opened _ dir q g _ hflags hs hslot hdir hk h' =>
    rw [hold_holders, holdDir_holders] at h'
    exact ⟨t, dir.cell.toList, h.takesSlot hs hslot (by omega) h' h.small (fun _ _ => rfl) hk
      (hcell hdir), hone dir, fun h4 => absurd hflags (not_lt.2 h4)⟩
  | @created _ d c n q g _ hflags hs hslot _ hn hlt hno h' =>
    rw [hold_holders] at h'
    refine ⟨_, [], h.takesSlot hs hslot hflags.2 h' (h.small_insert hlt)
      (fun q hq => h.kind_insert hn hq) ?_ (fun a ha => by cases ha), Nat.zero_le 1, fun _ => rfl⟩
    rw [hno]
    exact update_self ..

/-- `sys_close`. -/
theorem RunOk.close (hrun : sysClose x.fs pid fd = .ok (done, s')) :
    RunOk { x with fs := s' } t leak := by
  rcases sysClose_cases h.flags hrun with ⟨-, rfl⟩ | ⟨-, -, i, q, hc⟩
  · exact h
  have htable : s'.fileTable =
      update x.fs.fileTable i { x.fs.fileTable i with fdInode := none } := by
    rw [hc.state]
  have hback : x.fs.fileTable = update s'.fileTable i (x.fs.fileTable i) := by
    rw [htable, update_idem, update_eq_self]
  have hfree : (s'.fileTable i).fdInode = none := by
    rw [htable, update_self]
  have hperm := slotCells_take hc.lt hfree hc.slot hback
  have hheld : (heldCells x leak).Perm
      (q :: x.fs.rootInode :: (slotCells s' ++ (x.dirs.filterMap DirPtr.cell ++ leak))) :=
    ((hperm.append_right _).cons _).trans (List.Perm.swap _ _ _)
  have hfs := h.fs
  rw [holders_perm hheld, ← hold_holders] at hfs
  obtain ⟨h', hcells⟩ := hfs.close (holders_pos.2 List.mem_cons_self) hc
  refine h.of_cells hcells ?_ h.small (fun j hj => ?_) (fun j => ?_) (fun _ _ => rfl)
    (fun a ha => Or.inl (hperm.mem_iff.2 (List.mem_cons_of_mem _ ha))) fun a ha => Or.inl ha
  · unfold heldCells
    rw [hcells.rootInode]
    exact h'
  · rw [htable, update_of_ne (by have := hc.lt; omega)]
    exact h.high j hj
  · rw [htable, update_apply]
    split
    · exact h.flags i
    · exact h.flags j

theorem RunOk.fdInode_mem (hq : fdInode x.fs pid fd = some q) :
    q ∈ slotCells x.fs := by
  unfold fdInode at hq
  split at hq
  · refine mem_slotCells.2 ⟨(x.fs.fdTable pid fd).toNat, ?_, hq⟩
    by_contra hge
    rw [h.high _ (not_lt.1 hge)] at hq
    cases hq
  · cases hq

theorem RunOk.write {buf : Buf}
    (hroom : ∀ q, fdInode x.fs pid fd = some q → WriteRoom x.fs.part.vol (x.fs.inodes q) count)
    (hrun : sysWrite x.fs pid fd buf count = .ok (n, s')) :
    RunOk { x with fs := s' } t leak := by
  obtain ⟨h', hcells, hs⟩ := h.fs.write (fun q hq => by
    have hslot := h.fdInode_mem hq
    have hk := h.files q hslot
    exact ⟨holders_pos.2 (mem_heldCells_slot hslot), hk, h.small _ (ne_none_of_eq_some hk),
      hroom q hq⟩) hrun
  exact h.of_sameFiles hcells hs h'

theorem RunOk.read (hrun : sysRead x.fs pid fd count = .ok (n, bytes, s')) :
    RunOk { x with fs := s' } t leak := by
  obtain ⟨i, q, file, -, rfl, hread⟩ := sysRead_eq_ok hrun
  obtain ⟨hin, hflag⟩ := fileRead_file hread
  have hfile := fileTable_update hin hflag
  refine h.of_sameFiles ⟨rfl, le_rfl, fun _ _ => rfl⟩
    ⟨rfl, fun j => (hfile j).1, fun j => (hfile j).2⟩ ?_
  refine h.fs.withFiles x.fs.fdTable fun j q' hj => h.fs.files j q' ?_
  rw [← hj]
  exact (hfile j).1.symm

/-- `sys_opendir` hands out a directory. -/
theorem RunOk.opendir (hp : PathArg path) {dir : Option DirPtr}
    (hrun : sysOpendir x.fs uninit path = .ok (dir, s')) :
    RunOk { fs := s', dirs := dir.toList ++ x.dirs } t leak := by
  by_cases hpath : path = [slash]
  · unfold sysOpendir at hrun
    rw [assert, if_pos hp.length_lt, ok_bind, if_pos hpath] at hrun
    obtain ⟨rfl, rfl⟩ := ok_pair hrun
    exact ⟨h.fs, h.small, h.high, h.flags, h.files, h.dirs⟩
  obtain ⟨dir', s₁, hrun₁, hs, hres⟩ := h.fs.opendir hp hpath uninit
  rw [hrun₁] at hrun
  obtain ⟨rfl, rfl⟩ := ok_pair hrun
  cases hf : (t.resolve path).found with
  | none =>
    rw [hf] at hres
    rw [hres.1]
    exact h.of_cacheStep hs hres.2
  | some e =>
    obtain ⟨n, k⟩ := e
    rw [hf] at hres
    cases k with
    | file =>
      rw [hres.1]
      exact h.of_cacheStep hs hres.2
    | dir =>
      obtain ⟨q, rfl, hno, h'⟩ := hres
      rw [hold_holders] at h'
      have hslots : slotCells s₁ = slotCells x.fs := slotCells_congr fun i => by rw [hs.fileTable]
      refine h.of_frame_dirs hs.frame ?_ h.small (fun _ _ => rfl) fun a ha => ?_
      · have hperm : (heldCells { fs := s₁, dirs := .heap q :: x.dirs } leak).Perm
            (q :: heldCells x leak) := by
          unfold heldCells
          rw [hslots, hs.rootInode, List.filterMap_cons_some (f := DirPtr.cell) rfl,
            List.perm_iff_count]
          intro a
          simp only [List.count_cons, List.count_append]
          omega
        exact (holders_perm hperm).symm ▸ h'
      · rcases List.mem_cons.1 ha with rfl | ha
        · rw [hno]
          exact Or.inr (h.fs.kind_of_found hp hf)
        · exact Or.inl ha

/-- `sys_closedir` takes a directory back. -/
theorem RunOk.closedir {dir : DirPtr} (hdir : dir ∈ x.dirs) :
    RunOk { fs := dirClose x.fs dir, dirs := x.dirs.erase dir } t leak := by
  have hs := cacheStep_dirClose x.fs dir
  have hslots : slotCells (dirClose x.fs dir) = slotCells x.fs :=
    slotCells_congr fun i => by rw [hs.fileTable]
  have hperm := (List.perm_cons_erase hdir).filterMap DirPtr.cell
  have hcell : (dir :: x.dirs.erase dir).filterMap DirPtr.cell =
      dir.cell.toList ++ (x.dirs.erase dir).filterMap DirPtr.cell := by
    cases dir with
    | rootDir => rfl
    | heap q => rfl
  rw [hcell] at hperm
  have hheld : (heldCells x leak).Perm (dir.cell.toList ++
      heldCells { fs := dirClose x.fs dir, dirs := x.dirs.erase dir } leak) := by
    unfold heldCells
    rw [hslots, hs.rootInode]
    refine ((((hperm.append_right _).append_left _).cons _).trans ?_)
    rw [List.perm_iff_count]
    intro a
    simp only [List.count_cons, List.count_append]
    omega
  have hfs := h.fs
  rw [holders_perm hheld, ← holdDir_holders] at hfs
  have h' := hfs.close_dir (holders_pos.2 (by rw [← hs.rootInode]; exact List.mem_cons_self))
  refine h.of_frame_dirs hs.frame h' h.small (fun _ _ => rfl) fun a ha => Or.inl ?_
  rcases List.mem_append.1 ha with ha | ha
  · exact List.mem_append_left _ (hperm.mem_iff.2 (List.mem_append_right _ ha))
  · exact List.mem_append_right _ ha

/-- **Every admissible call keeps the invariant.** -/
theorem RunOk.step {c : Call} (hc : Admissible x c)
    (hrun : exec uninit x c = .ok (done, x')) : ∃ t' leak', RunOk x' t' leak' ∧
      x'.dirs.length + leak'.length ≤ x.dirs.length + leak.length + 1 := by
  cases c with
  | «open» pid path flags =>
    obtain ⟨⟨fd, s'⟩, hcall, -, rfl⟩ := bind_pair_eq_ok hrun
    obtain ⟨t', new, h', hone, -⟩ := h.open hc.1 hc.2 hcall
    refine ⟨t', new ++ leak, h', ?_⟩
    rw [List.length_append, Nat.add_assoc, Nat.add_comm new.length]
    exact Nat.add_le_add_left (Nat.add_le_add_left hone _) _
  | close pid fd =>
    obtain ⟨⟨_, s'⟩, hcall, -, rfl⟩ := bind_pair_eq_ok hrun
    exact ⟨t, leak, h.close hcall, Nat.le_succ _⟩
  | write pid fd buf count =>
    obtain ⟨⟨_, s'⟩, hcall, -, rfl⟩ := bind_pair_eq_ok hrun
    exact ⟨t, leak, h.write hc hcall, Nat.le_succ _⟩
  | read pid fd count =>
    obtain ⟨⟨_, _, s'⟩, hcall, -, rfl⟩ := bind_pair_eq_ok hrun
    exact ⟨t, leak, h.read hcall, Nat.le_succ _⟩
  | unlink path =>
    obtain ⟨⟨_, s'⟩, hcall, -, rfl⟩ := bind_pair_eq_ok hrun
    obtain ⟨t', h', -⟩ := h.unlink hc hcall
    exact ⟨t', leak, h', Nat.le_succ _⟩
  | mkdir path =>
    obtain ⟨⟨_, s'⟩, hcall, -, rfl⟩ := bind_pair_eq_ok hrun
    obtain ⟨t', h'⟩ := h.mkdir hc.1 hc.2 hcall
    exact ⟨t', leak, h', Nat.le_succ _⟩
  | rmdir path =>
    obtain ⟨⟨_, s'⟩, hcall, -, rfl⟩ := bind_pair_eq_ok hrun
    obtain ⟨t', h', -⟩ := h.rmdir hc.1 hc.2.1 (hc.2.2 t h.fs.rep) hcall
    exact ⟨t', leak, h', Nat.le_succ _⟩
  | opendir path =>
    obtain ⟨⟨dir, s'⟩, hcall, -, rfl⟩ := bind_pair_eq_ok hrun
    refine ⟨t, leak, h.opendir hc hcall, ?_⟩
    have hone : dir.toList.length ≤ 1 := by cases dir <;> simp
    rw [List.length_append, Nat.add_right_comm]
    dsimp only
    omega
  | closedir dir =>
    obtain rfl := (ok_pair hrun).2
    exact ⟨t, leak, h.closedir hc, (Nat.add_le_add_right List.length_erase_le _).trans
      (Nat.le_succ _)⟩
  | stat path =>
    obtain ⟨⟨_, s'⟩, hcall, -, rfl⟩ := bind_pair_eq_ok hrun
    obtain ⟨s₁, hrun₁, hs, h'⟩ := h.fs.stat hc uninit
    rw [hrun₁] at hcall
    obtain rfl := (ok_pair hcall).2
    exact ⟨t, leak, h.of_cacheStep hs h', Nat.le_succ _⟩
  | chdir path =>
    obtain ⟨⟨_, s'⟩, hcall, -, rfl⟩ := bind_pair_eq_ok hrun
    obtain ⟨s₁, hrun₁, hs, h'⟩ := h.fs.chdir hc uninit
    rw [hrun₁] at hcall
    obtain rfl := (ok_pair hcall).2
    exact ⟨t, leak, h.of_cacheStep hs h', Nat.le_succ _⟩

end Calls

end Gardos.Fs
