import Gardos.Fs.RefusedOpen

/-!
# Creations that fail

With assertions compiled out, `bitmap_scan` returns `-1` for a full bitmap, and `file_create` and
`sys_mkdir` have to undo what they have done so far. Most of their failures leave no trace, and some
do:

* `file_create` without an inode number does not free its buffer;
* `file_create` without a descriptor for the task has made the file already;
* `sys_mkdir` without room for the entry keeps the block of the new directory;
* `sync_dir_entry` with one block left, where it needs a table and a block, marks it on disk, and
  takes it back in memory only.

`leavesAsIs_iff` has the exact condition for both calls.
-/

namespace Gardos.Fs

open Bytes Outcome Function

/-! ## When `sync_dir_entry` fails -/

/-- No block of the partition is free. -/
def NoBlock (p : Partition) : Prop := ∀ i < p.blockBitmap.bitLen, p.blockBitmap.bit i = true

/-- Block `b` of the partition is the only one that is free. -/
structure OneBlock (p : Partition) (b : ℕ) : Prop where
  lt : b < p.blockBitmap.bitLen
  clear : p.blockBitmap.bit b = false
  others : ∀ i < p.blockBitmap.bitLen, i ≠ b → p.blockBitmap.bit i = true

/-- The partition after block `b` has been marked, written to the bitmap on disk, and taken back. -/
def triedBlock (p : Partition) (b : ℕ) : Partition :=
  { p with disk := (bitmapSync { p with blockBitmap := p.blockBitmap.set b true } b
      .blockBitmap).disk }

/-- How `sync_dir_entry` fails, without assertions: there is no block for the entry, or there is one
where a table is needed, too. -/
inductive SyncFails (p : Partition) (ino : Inode) : Partition → Inode → Prop
  | noBlock {k : ℕ} (hk : NeedsBlock p ino k) (hno : NoBlock p) : SyncFails p ino p ino
  | oneBlock {b : ℕ} (hk : NeedsBlock p ino 12) (hb : OneBlock p b) :
      SyncFails p ino (triedBlock p b) (ino.setSector 12 0)

/-- The blocks that a new entry needs are there. -/
def BlocksLeft (p : Partition) (ino : Inode) : Prop :=
  ∀ k, NeedsBlock p ino k → ¬ NoBlock p ∧ (k = 12 → ∀ b, ¬ OneBlock p b)

section Sync

variable {p p' : Partition} {ino ino' : Inode} {e : DirEntry} {k b : ℕ} {done : Bool}

theorem NeedsBlock.unique {k' : ℕ} (h : NeedsBlock p ino k) (h' : NeedsBlock p ino k') :
    k = k' := by
  rcases lt_trichotomy k k' with hlt | rfl | hlt
  · exact absurd (h.missing (hlt.trans_le h'.le)) (h'.full k hlt).1
  · rfl
  · exact absurd (h'.missing (hlt.trans_le h.le)) (h.full k' hlt).1

theorem not_noBlock {i : ℕ} (hi : i < p.blockBitmap.bitLen) (hc : p.blockBitmap.bit i = false) :
    ¬ NoBlock p := fun h => by
  rw [h i hi] at hc
  cases hc

theorem OneBlock.eq (h : OneBlock p b) {i : ℕ} (hi : i < p.blockBitmap.bitLen)
    (hc : p.blockBitmap.bit i = false) : i = b := by
  by_contra hne
  rw [h.others i hi hne] at hc
  cases hc

theorem blockBitmapAlloc_eq_none (h : blockBitmapAlloc p = .ok (none, p')) :
    NoBlock p ∧ p' = p := by
  refine ⟨fun i hi => ?_, ?_⟩
  · by_contra hset
    obtain ⟨c, -, hc⟩ := Partition.blockBitmapAlloc_of_clear hi (Bool.eq_false_iff.2 hset)
    cases (ok_pair (h.symm.trans hc)).1
  · obtain ⟨o, -, h⟩ := bind_eq_ok.1 h
    cases o with
    | none => exact (ok_pair h).2.symm
    | some c => cases (ok_pair h).1

/-- **How `sync_dir_entry` ends**, with the blocks that were free. -/
theorem syncDirEntry_cases (hL : p.Layout) (h : syncDirEntry p ino e = .ok (done, p', ino')) :
    (done = true ∧ BlocksLeft p ino) ∨ (done = false ∧ SyncFails p ino p' ino') := by
  cases EntrySynced.of_syncDirEntry h with
  | @slot k _ hfull hk hne hfree =>
    refine .inl ⟨rfl, fun k' hneed => ?_⟩
    -- a block with room stops the search, so none is needed
    rcases lt_trichotomy k k' with hlt | rfl | hlt
    · rw [(hneed.full k hlt).2] at hfree
      cases hfree
    · exact absurd (hneed.missing hk) hne
    · exact absurd (hneed.missing (hlt.trans hk)) (hfull k' hlt).1
  | block hk hneed halloc =>
    obtain ⟨c, hc, -, -⟩ := Partition.blockBitmapAlloc_eq_some halloc
    refine .inl ⟨rfl, fun k' hneed' => ⟨not_noBlock hc.lt hc.clear, fun h12 => ?_⟩⟩
    exact absurd ((hneed.unique hneed').trans h12) hk.ne
  | noBlock hneed halloc =>
    obtain ⟨hno, rfl⟩ := blockBitmapAlloc_eq_none halloc
    exact .inr ⟨rfl, .noBlock hneed hno⟩
  | table _ halloc halloc₂ =>
    obtain ⟨c, hc, rfl, rfl⟩ := Partition.blockBitmapAlloc_eq_some halloc
    obtain ⟨c₂, hc₂, -, -⟩ := Partition.blockBitmapAlloc_eq_some halloc₂
    refine .inl ⟨rfl, fun k' _ => ⟨not_noBlock hc.lt hc.clear, fun _ b' hone => ?_⟩⟩
    -- the second block was free besides the first
    obtain rfl := hone.eq hc.lt hc.clear
    have hclear : (p.blockBitmap.set c true).bit c₂ = false := hc₂.clear
    rw [Bitmap.set_bit] at hclear
    split at hclear
    · cases hclear
    · rw [hone.others c₂ hc₂.lt ‹_›] at hclear
      cases hclear
  | noTable hneed halloc halloc₂ =>
    obtain ⟨c, hc, rfl, rfl⟩ := Partition.blockBitmapAlloc_eq_some halloc
    obtain ⟨hno, rfl⟩ := blockBitmapAlloc_eq_none halloc₂
    have hone : OneBlock p c := ⟨hc.lt, hc.clear, fun i hi hne => by
      have hset : (p.blockBitmap.set c true).bit i = true := hno i hi
      rwa [Bitmap.set_bit, if_neg hne] at hset⟩
    have hidx := Partition.blockBitmapIdx_taken hL hc.lt
    have hset : (ino.setSector 12 (p.sb.dataStartLba + c)).setSector 12 0 = ino.setSector 12 0 := by
      unfold Inode.setSector
      dsimp only
      rw [update_idem]
    refine .inr ⟨rfl, ?_⟩
    rw [hset, Partition.blockSynced, hidx]
    change SyncFails p ino { p with
      disk := _
      blockBitmap := (p.blockBitmap.set c true).set
        (blockBitmapIdx { p with blockBitmap := p.blockBitmap.set c true } _) false } _
    rw [hidx, Bitmap.set_set_of_clear hc.clear]
    exact .oneBlock hneed hone

end Sync

/-! ## The calls -/

/-- The answers of the calls of `sys_malloc` whose results are checked: for the buffer, and for the
inode of a new file. -/
structure HeapAnswers where
  ioBuf : Bool
  inode : Bool

/-- `file_create`, with the number of blocks of the heap that are lost. Without an inode number,
the buffer is not freed. -/
def fileCreateWith (heap : HeapAnswers) (s : FileSys) (pid : ℕ) (parentDir : DirPtr)
    (filename : List UInt8) (flag : ℕ) : Outcome (Option ℕ × FileSys × ℕ) := do
  if heap.ioBuf = false then
    return (none, s, 0)
  match ← inodeBitmapAlloc s.part with
  | (none, _) => return (none, s, 1)
  | (some inodeNo, p) =>
    if heap.inode = false then
      return (none, FileSys.setInodeBit { s with part := p } inodeNo false, 0)
    -- with both, the call goes on as `fileCreate`, which takes the same number
    let (fd, s) ← fileCreate s pid parentDir filename flag
    return (fd, s, 0)

/-- `sys_open`, with the number of blocks of the heap that are lost. -/
def sysOpenWith (heap : HeapAnswers) (s : FileSys) (uninit : Uninit) (pid : ℕ)
    (pathname : List UInt8) (flags : ℕ) : Outcome (Option ℕ × FileSys × ℕ) := do
  access (pathname ≠ [])
  if pathname.getLast? = some slash then
    return (none, s, 0)
  assert (flags ≤ 7)
  let pathnameDepth ← pathDepthCnt uninit pathname
  let (inodeNo, record, s) ← searchFile s uninit pathname
  if record.fileType = .directory then
    return (none, dirClose s record.parentDir, 0)
  let pathSearchedDepth ← pathDepthCnt uninit record.searchedPath
  if pathnameDepth ≠ pathSearchedDepth then
    return (none, dirClose s record.parentDir, 0)
  match inodeNo, decide (4 ≤ flags) with
  | none, false => return (none, dirClose s record.parentDir, 0)
  | some _, true => return (none, dirClose s record.parentDir, 0)
  | none, true =>
    let (fd, s, lost) ← fileCreateWith heap s pid record.parentDir (afterLastSlash pathname) flags
    return (fd, dirClose s record.parentDir, lost)
  | some inodeNo, false =>
    let (fd, s) ← fileOpen s pid inodeNo flags
    return (fd, s, 0)

/-- `sys_mkdir`, which frees its buffer on every way out. -/
def sysMkdirWith (ioBuf : Bool) (s : FileSys) (uninit : Uninit) (pathname : List UInt8) :
    Outcome (Bool × FileSys) :=
  if ioBuf = false then pure (false, s) else sysMkdir s uninit pathname

/-! ## What has to stay -/

/-- The bitmaps in memory and on disk, the inodes on disk, and the blocks in use are as before. -/
structure PartKept (p p' : Partition) : Prop where
  inodeBitmap : p'.inodeBitmap = p.inodeBitmap
  blockBitmap : p'.blockBitmap = p.blockBitmap
  onDisk : ∀ l < p.sb.inodeTableLba, ∀ i < 512, p'.disk l i = p.disk l i
  inode : p'.vol.inode = p.vol.inode
  data : ∀ l, p.vol.used l = true → p'.vol.data l = p.vol.data l

/-- What a failed creation has to leave as it was, `lost` being the number of blocks of the heap
that nothing refers to any more. The inodes in memory are blocks of the heap, too. -/
structure LeavesAsIs (s s' : FileSys) (lost : ℕ) : Prop where
  part : PartKept s.part s'.part
  opened : ∀ q ∈ s.openInodes, (s'.inodes q).Same (s.inodes q)
  fileTable : s'.fileTable = s.fileTable
  heap : ∀ q, q ∈ s'.openInodes ↔ q ∈ s.openInodes
  lost : lost = 0

/-- The state holds the directories of the tree `t`, and assertions are compiled out. -/
structure TreeState (s : FileSys) (t : Tree ℕ (List UInt8)) (r : ℕ → ℕ) : Prop where
  layout : s.part.Layout
  ndebug : s.part.ndebug = true
  tree : DirTree s.part.vol t
  cache : Cache s r

/-- The path names something, or a directory on the way is missing. -/
def NotNew (t : Tree ℕ (List UInt8)) (path : List UInt8) : Prop :=
  (t.resolve path).found ≠ none ∨ (t.resolve path).path ≠ components path

/-- The bitmap on disk already has block `b` marked, and is otherwise as in memory. -/
def MarkedOnDisk (p : Partition) (b : ℕ) : Prop :=
  ∀ i < 512, p.disk (p.sb.blockBitmapLba + b / 4096) i =
    (p.blockBitmap.set b true).byte (512 * (b / 4096) + i)

/-- There is no block for a new entry of directory `d`, and finding this out changes nothing: there
is none at all, or one block is left for a directory that needs two, and neither the bitmap on disk
nor an inode in memory shows that it has been tried. -/
def NoBlockClean (s : FileSys) (d : ℕ) : Prop :=
  (NoBlock s.part ∧ ∃ k, NeedsBlock s.part (s.part.vol.inode d) k) ∨
  (NeedsBlock s.part (s.part.vol.inode d) 12 ∧ ∃ b, OneBlock s.part b ∧ MarkedOnDisk s.part b ∧
    ((s.part.vol.inode d).iSectors 12 = 0 ∨ findInode s d = none))

/-- When a creation of a file that fails leaves everything as it was. -/
def CreateKeeps (heap : HeapAnswers) (s : FileSys) (t : Tree ℕ (List UInt8)) (path : List UInt8) :
    Prop :=
  path.getLast? = some slash ∨ NotNew t path ∨ heap.ioBuf = false ∨
  (∃ n < s.part.inodeBitmap.bitLen, s.part.inodeBitmap.bit n = false) ∧
    (heap.inode = false ∨ getFreeSlotInGlobal s = none ∨
      ∃ g, getFreeSlotInGlobal s = some g ∧ (s.fileTable g).fdPos = 0 ∧
        (s.fileTable g).fdFlag = 0 ∧ NoBlockClean s (t.resolve path).dir)

/-- When a creation of a directory that fails leaves everything as it was. -/
def MkdirKeeps (ioBuf : Bool) (s : FileSys) (t : Tree ℕ (List UInt8)) (path : List UInt8) : Prop :=
  NotNew t path ∨ ioBuf = false ∨
  (∀ n < s.part.inodeBitmap.bitLen, s.part.inodeBitmap.bit n = true) ∨ NoBlock s.part

/-! ## Up to the search -/

section Search

variable {s s' s₁ s₂ : FileSys} {t : Tree ℕ (List UInt8)} {r : ℕ → ℕ} {path : List UInt8}
  {uninit : Uninit} {heap : HeapAnswers} {pid flags lost : ℕ} {fd : Option ℕ}
  {res : Tree.SearchResult} {record : PathSearchRecord}

/-- What `search_file` leaves behind, as the search in the tree has it. -/
structure Walked (s : FileSys) (r : ℕ → ℕ) (res : Tree.SearchResult) (record : PathSearchRecord)
    (s₁ : FileSys) : Prop where
  step : CacheStep s s₁
  cache : Cache s₁ (holdDir r record.parentDir)
  iNo : (s₁.inodes (s₁.dirInode record.parentDir)).iNo = res.dir
  path : record.searchedPath = joinPath res.path
  type : record.fileType = (res.found.map fun e => Kind.type e.2).getD .unknown

theorem TreeState.root_kind (h : TreeState s t r) : t.kind 0 = some .dir :=
  h.tree.root ▸ h.tree.wf.root_kind

theorem TreeState.root_held (h : TreeState s t r) : 0 < r s.rootInode :=
  (h.cache.mem _).1 h.cache.root

theorem TreeState.search (h : TreeState s t r) (hp : PathArg path) (uninit : Uninit) :
    ∃ record s₁, searchFile s uninit path =
        .ok ((t.resolve path).found.map Prod.fst, record, s₁) ∧
      Walked s r (t.resolve path) record s₁ := by
  unfold Tree.resolve
  by_cases hr : isRootPath path = true
  · rw [if_pos hr]
    refine ⟨{ searchedPath := [], parentDir := .rootDir, fileType := .directory }, s, ?_,
      .refl s, h.cache, h.cache.root_iNo, rfl, rfl⟩
    unfold searchFile
    rw [if_pos hr]
    rfl
  · rw [if_neg hr]
    obtain ⟨hpath, hne⟩ := hp.resolve_left hr
    obtain ⟨record, s₁, hrun, hstep, hc, hino, hsp, htype, -⟩ := exists_searchFile h.tree h.cache
      hpath (Bool.eq_false_iff.2 hr) uninit fun h => absurd h hne
    exact ⟨record, s₁, hrun, hstep, hc, hino, hsp, htype⟩

/-- The directory that the search left open is closed again. -/
theorem Walked.close (hw : Walked s r res record s₁) (h : TreeState s t r) :
    CacheStep s (dirClose s₁ record.parentDir) ∧ Cache (dirClose s₁ record.parentDir) r :=
  ⟨hw.step.trans (cacheStep_dirClose _ _), hw.cache.dirClose (hw.step.rootInode ▸ h.root_held)⟩

/-- A `sys_open` that is to create a file is refused after the search, or is `file_create`. -/
theorem TreeState.openWith_cases (h : TreeState s t r) (hp : PathArg path) (hflags : 4 ≤ flags)
    (hrun : sysOpenWith heap s uninit pid path flags = .ok (fd, s', lost)) :
    ((path.getLast? = some slash ∨ NotNew t path) ∧ lost = 0 ∧ CacheStep s s' ∧ Cache s' r) ∨
    (¬ (path.getLast? = some slash ∨ NotNew t path) ∧ ∃ record s₁ s₂,
      Walked s r (t.resolve path) record s₁ ∧
      fileCreateWith heap s₁ pid record.parentDir (afterLastSlash path) flags =
        .ok (fd, s₂, lost) ∧ s' = dirClose s₂ record.parentDir) := by
  obtain ⟨_, -, hrun⟩ := bind_eq_ok.1 hrun
  by_cases hlast : path.getLast? = some slash
  · rw [if_pos hlast] at hrun
    obtain ⟨-, rfl, rfl⟩ := ok_triple hrun
    exact .inl ⟨.inl hlast, rfl, .refl s, h.cache⟩
  rw [if_neg hlast] at hrun
  obtain ⟨_, -, hrun⟩ := bind_eq_ok.1 hrun
  obtain ⟨depth, hdepth, hrun⟩ := bind_eq_ok.1 hrun
  obtain ⟨record, s₁, hsearch, hw⟩ := h.search hp uninit
  rw [hsearch, ok_bind] at hrun
  dsimp only at hrun
  have hback : NotNew t path → (.ok (none, dirClose s₁ record.parentDir, 0) :
      Outcome (Option ℕ × FileSys × ℕ)) = .ok (fd, s', lost) →
      (path.getLast? = some slash ∨ NotNew t path) ∧ lost = 0 ∧ CacheStep s s' ∧ Cache s' r := by
    intro hnew hend
    obtain ⟨-, rfl, rfl⟩ := ok_triple hend
    exact ⟨.inr hnew, rfl, hw.close h⟩
  by_cases hf : (t.resolve path).found = none
  · obtain ⟨-, hd, hds, hwhole⟩ := resolve_depths h.root_kind hp (by simp [hf]) uninit
    obtain rfl := Except.ok.inj (hdepth.symm.trans hd)
    have htype : record.fileType ≠ .directory := by
      rw [hw.type, hf]
      exact fun h => by cases h
    rw [if_neg htype, hw.path, hds, ok_bind] at hrun
    by_cases hlen : (components path).length = (t.resolve path).path.length
    · rw [if_neg (by simpa using hlen), hf, decide_eq_true hflags] at hrun
      obtain ⟨⟨fd', s₂, lost'⟩, hcreate, hrun⟩ := bind_eq_ok.1 hrun
      obtain ⟨rfl, rfl, rfl⟩ := ok_triple hrun
      refine .inr ⟨?_, record, s₁, s₂, hw, hcreate, rfl⟩
      rintro (hslash | hfound | hpath)
      · exact hlast hslash
      · exact hfound hf
      · exact hpath (hwhole.1 hlen)
    · rw [if_pos hlen] at hrun
      exact .inl (hback (.inr fun heq => hlen (hwhole.2 heq)) hrun)
  · -- with something found, the call is refused whatever the depths are
    split at hrun
    · exact .inl (hback (.inl hf) hrun)
    obtain ⟨depth', -, hrun⟩ := bind_eq_ok.1 hrun
    obtain ⟨e, he⟩ := Option.ne_none_iff_exists'.1 hf
    rw [he, decide_eq_true hflags, Option.map_some] at hrun
    split at hrun <;> exact .inl (hback (.inl hf) hrun)

/-- A `sys_mkdir` is refused after the search, or is `mkdirIn`. -/
theorem TreeState.mkdir_cases (h : TreeState s t r) (hp : PathArg path) {done : Bool}
    (hrun : sysMkdir s uninit path = .ok (done, s')) :
    (NotNew t path ∧ CacheStep s s' ∧ Cache s' r) ∨
    (¬ NotNew t path ∧ ∃ record s₁ s₂, Walked s r (t.resolve path) record s₁ ∧
      mkdirIn s₁ record.parentDir (afterLastSlash record.searchedPath) = .ok (done, s₂) ∧
      s' = dirClose s₂ record.parentDir) := by
  obtain ⟨record, s₁, hsearch, hw⟩ := h.search hp uninit
  unfold sysMkdir at hrun
  rw [hsearch, ok_bind] at hrun
  dsimp only at hrun
  by_cases hf : (t.resolve path).found = none
  · obtain ⟨-, hd, hds, hwhole⟩ := resolve_depths h.root_kind hp (by simp [hf]) uninit
    rw [hf, Option.map_none, if_neg (by simp), hd, ok_bind, hw.path, hds, ok_bind] at hrun
    by_cases hlen : (components path).length = (t.resolve path).path.length
    · rw [if_neg (by simpa using hlen)] at hrun
      obtain ⟨_, -, hrun⟩ := bind_eq_ok.1 hrun
      obtain ⟨⟨done', s₂⟩, hmk, rfl, rfl⟩ := bind_pair_eq_ok hrun
      rw [← hw.path] at hmk
      refine .inr ⟨?_, record, s₁, s₂, hw, hmk, rfl⟩
      rintro (hfound | hpath)
      · exact hfound hf
      · exact hpath (hwhole.1 hlen)
    · rw [if_pos hlen] at hrun
      obtain ⟨-, rfl⟩ := ok_pair hrun
      exact .inl ⟨.inr fun heq => hlen (hwhole.2 heq), hw.close h⟩
  · rw [if_pos (by simpa using hf)] at hrun
    obtain ⟨-, rfl⟩ := ok_pair hrun
    exact .inl ⟨.inl hf, hw.close h⟩

end Search

/-! ## Taking back -/

section Undo

variable {s s' s₁ s₂ : FileSys} {r : ℕ → ℕ} {p : Partition} {b parent lost : ℕ} {dir : DirPtr}

theorem PartKept.refl (p : Partition) : PartKept p p :=
  ⟨rfl, rfl, fun _ _ _ _ => rfl, rfl, fun _ _ => rfl⟩

/-- The block that has been tried shows in its sector of the bitmap, and nowhere else. -/
theorem partKept_triedBlock_iff (hL : p.Layout) (hb : OneBlock p b) :
    PartKept p (triedBlock p b) ↔ MarkedOnDisk p b := by
  have hlt : b / 4096 < p.sb.blockBitmapSects := by
    have h1 := hb.lt
    have h2 := hL.blockBitmap_len
    simp only [Bitmap.bitLen, h2] at h1
    omega
  have h3 := hL.blockBitmap_end
  have h4 := hL.inodeBitmap_end
  have hsector : (triedBlock p b).disk (p.sb.blockBitmapLba + b / 4096) =
      window (p.blockBitmap.set b true).byte (512 * (b / 4096)) := ideWrite_self ..
  have hother : ∀ l, l ≠ p.sb.blockBitmapLba + b / 4096 → (triedBlock p b).disk l = p.disk l :=
    fun l hl => ideWrite_of_ne hl
  constructor
  · intro h i hi
    rw [← h.onDisk _ (by omega) i hi, hsector]
    rfl
  · intro h
    have hvol : (triedBlock p b).vol = p.vol :=
      Partition.vol_eq_of_disk hL fun l hl => hother l (by omega)
    refine ⟨rfl, rfl, fun l _ i hi => ?_, by rw [hvol], fun l _ => by rw [hvol]⟩
    by_cases hl : l = p.sb.blockBitmapLba + b / 4096
    · rw [hl, hsector, h i hi]
      rfl
    · rw [hother l hl]

/-- The cells of the inodes are as before, except for the contents of `parent`. -/
structure CellsKept (s s' : FileSys) (parent : ℕ) : Prop where
  openInodes : s'.openInodes = s.openInodes
  brk : s.brk ≤ s'.brk
  cells : ∀ q < s.brk, q ≠ parent → s'.inodes q = s.inodes q
  cnt : (s'.inodes parent).iOpenCnts = (s.inodes parent).iOpenCnts

theorem CellsKept.refl (s : FileSys) (parent : ℕ) : CellsKept s s parent :=
  ⟨rfl, le_rfl, fun _ _ _ => rfl, rfl⟩

theorem CellsKept.dirClose_openInodes (h : CellsKept s s' (s.dirInode dir)) :
    (dirClose s' dir).openInodes = (dirClose s dir).openInodes := by
  cases dir with
  | rootDir => exact h.openInodes
  | heap q =>
    change (inodeClose s' q).openInodes = (inodeClose s q).openInodes
    rw [inodeClose_openInodes, inodeClose_openInodes, h.openInodes,
      show (s'.inodes q).iOpenCnts = (s.inodes q).iOpenCnts from h.cnt]

theorem CacheStep.same (h : CacheStep s s') {q : ℕ} (hq : q < s.brk) :
    (s'.inodes q).Same (s.inodes q) := by
  rw [h.inodes q hq]
  exact ⟨rfl, rfl, fun _ _ => rfl⟩

theorem leavesAsIs_of_cacheStep (hc : Cache s r) (hstep : CacheStep s s') (hc' : Cache s' r) :
    LeavesAsIs s s' 0 :=
  ⟨hstep.part ▸ .refl _, fun q hq => hstep.same (hc.lt_brk q hq), hstep.fileTable,
    fun q => (hc'.mem q).trans (hc.mem q).symm, rfl⟩

/-- After the search has led to `s₁`, the creation to `s₂`, and the directory has been closed, what
counts are the partition, the inode of the directory, and the file table. -/
theorem leavesAsIs_dirClose_iff (hc : Cache s r) (hstep : CacheStep s s₁)
    (hc₁ : Cache s₁ (holdDir r dir)) (h : CellsKept s₁ s₂ (s₁.dirInode dir)) :
    LeavesAsIs s (dirClose s₂ dir) lost ↔ PartKept s.part s₂.part ∧
      (s₁.dirInode dir ∈ s.openInodes →
        (s₂.inodes (s₁.dirInode dir)).Same (s₁.inodes (s₁.dirInode dir))) ∧
      s₂.fileTable = s.fileTable ∧ lost = 0 := by
  have hclose := cacheStep_dirClose s₂ dir
  have hlt : ∀ q ∈ s.openInodes, q < s₁.brk ∧ q < s₂.brk := fun q hq =>
    have := (hc.lt_brk q hq).trans_le hstep.brk
    ⟨this, this.trans_le h.brk⟩
  have hroot : 0 < r s₁.rootInode := by
    rw [hstep.rootInode]
    exact (hc.mem _).1 hc.root
  constructor
  · intro hl
    refine ⟨hclose.part ▸ hl.part, fun hq => ?_, hclose.fileTable ▸ hl.fileTable, hl.lost⟩
    have hsame := hl.opened _ hq
    exact ((hclose.same (hlt _ hq).2).symm.trans hsame).trans
      (hstep.same (hc.lt_brk _ hq)).symm
  · rintro ⟨hpart, hparent, hft, rfl⟩
    refine ⟨hclose.part ▸ hpart, fun q hq => ?_, hclose.fileTable.trans hft, fun q => ?_, rfl⟩
    · have hsame := (hclose.same (hlt q hq).2)
      refine (hsame.trans ?_).trans (hstep.same (hc.lt_brk q hq))
      by_cases hqp : q = s₁.dirInode dir
      · subst hqp
        exact hparent hq
      · rw [h.cells q (hlt q hq).1 hqp]
        exact .refl _
    · rw [h.dirClose_openInodes, (hc₁.dirClose hroot).mem, hc.mem]

end Undo

/-! ## How the creations fail -/

/-- How `file_create` fails. -/
inductive CreateFails (heap : HeapAnswers) (s : FileSys) (dir : DirPtr) : FileSys → ℕ → Prop
  | noBuffer (hbuf : heap.ioBuf = false) : CreateFails heap s dir s 0
  | noNumber (hbuf : heap.ioBuf = true)
      (hfull : ∀ n < s.part.inodeBitmap.bitLen, s.part.inodeBitmap.bit n = true) :
      CreateFails heap s dir s 1
  | noSlot {s' : FileSys} {n : ℕ} (hn : s.part.inodeBitmap.IsFirstClear n)
      (hwhy : heap.inode = false ∨ getFreeSlotInGlobal s = none)
      (hkept : CellsKept s s' (s.dirInode dir))
      (hsame : s'.inodes (s.dirInode dir) = s.inodes (s.dirInode dir)) (hpart : s'.part = s.part)
      (hft : s'.fileTable = s.fileTable) : CreateFails heap s dir s' 0
  | noEntry {s' : FileSys} {n g : ℕ} {p : Partition} {ino : Inode} (hbuf : heap.ioBuf = true)
      (hinode : heap.inode = true) (hn : s.part.inodeBitmap.IsFirstClear n)
      (hg : getFreeSlotInGlobal s = some g)
      (hsync : SyncFails s.part (s.inodes (s.dirInode dir)) p ino)
      (hkept : CellsKept s s' (s.dirInode dir)) (hino : s'.inodes (s.dirInode dir) = ino)
      (hpart : s'.part = p)
      (hft : s'.fileTable = update s.fileTable g ⟨0, 0, none⟩) :
      CreateFails heap s dir s' 0
  | noDescriptor {s' : FileSys} {g : ℕ} (hbuf : heap.ioBuf = true) (hinode : heap.inode = true)
      (hg : getFreeSlotInGlobal s = some g)
      (hroom : BlocksLeft s.part (s.inodes (s.dirInode dir)))
      (hft : s'.fileTable ≠ s.fileTable) : CreateFails heap s dir s' 0

/-- How `sys_mkdir` fails once the path has been searched. -/
inductive MkdirFails (s : FileSys) : FileSys → Prop
  | noNumber (hfull : ∀ n < s.part.inodeBitmap.bitLen, s.part.inodeBitmap.bit n = true) :
      MkdirFails s s
  | noBlock (hno : NoBlock s.part) : MkdirFails s s
  | noEntry {s' : FileSys} {n : ℕ} (hn : s.part.inodeBitmap.IsFirstClear n)
      (hsome : ¬ NoBlock s.part) (hne : s'.part.blockBitmap ≠ s.part.blockBitmap) : MkdirFails s s'

section Fails

variable {s s' : FileSys} {p p' : Partition} {ino ino' : Inode} {dir : DirPtr} {n pid flag lost : ℕ}
  {name : List UInt8} {heap : HeapAnswers}

/-- An inode number that is taken and given back does not matter to `sync_dir_entry`. -/
theorem SyncFails.giveBack (hn : p.inodeBitmap.IsFirstClear n)
    (h : SyncFails { p with inodeBitmap := p.inodeBitmap.set n true } ino p' ino') :
    SyncFails p ino { p' with inodeBitmap := p'.inodeBitmap.set n false } ino' := by
  cases h with
  | noBlock hk hno =>
    change SyncFails p ino { p with inodeBitmap := (p.inodeBitmap.set n true).set n false } ino
    rw [Bitmap.set_set_of_clear hn.clear]
    exact .noBlock ⟨hk.le, hk.full, hk.missing⟩ hno
  | @oneBlock b hk hb =>
    change SyncFails p ino { triedBlock p b with
      inodeBitmap := (p.inodeBitmap.set n true).set n false } _
    rw [Bitmap.set_set_of_clear hn.clear]
    exact .oneBlock ⟨hk.le, hk.full, hk.missing⟩ ⟨hb.lt, hb.clear, hb.others⟩

theorem inodeBitmapAlloc_full (h : inodeBitmapAlloc p = .ok (none, p')) :
    ∀ n < p.inodeBitmap.bitLen, p.inodeBitmap.bit n = true := by
  intro n hn
  by_contra hc
  obtain ⟨k, hk, -⟩ := bitmapScan_one_of_clear (d := p.ndebug) hn (Bool.eq_false_iff.2 hc)
  rw [inodeBitmapAlloc, hk] at h
  cases h

theorem SyncFails.iOpenCnts (h : SyncFails p ino p' ino') : ino'.iOpenCnts = ino.iOpenCnts := by
  cases h <;> rfl

/-- The steps of `file_create` from the slot of the file table on. -/
theorem fileCreate_failed (hL : s.part.Layout)
    (hparent : s.dirInode dir < s.brk) (hbuf : heap.ioBuf = true) (hinode : heap.inode = true)
    (hn : s.part.inodeBitmap.IsFirstClear n)
    (halloc : inodeBitmapAlloc s.part =
      .ok (some n, { s.part with inodeBitmap := s.part.inodeBitmap.set n true }))
    (hrun : fileCreate s pid dir name flag = .ok (none, s')) : CreateFails heap s dir s' 0 := by
  have hcell : ∀ q < s.brk, s.newInodes n q = s.inodes q := fun q => FileSys.newInodes_of_lt
  have hL' : ({ s.part with inodeBitmap := s.part.inodeBitmap.set n true } : Partition).Layout :=
    hL.of_geometry rfl
  cases FileCreated.of_fileCreate hrun with
  | noNumber halloc' => cases halloc.symm.trans halloc'
  | noSlot halloc' hg =>
    obtain ⟨hno, rfl⟩ := ok_pair (halloc.symm.trans halloc')
    obtain rfl := Option.some.inj hno
    refine .noSlot hn (.inr hg) ⟨rfl, Nat.le_succ _, fun q hq _ => hcell q hq,
      congrArg Inode.iOpenCnts (hcell _ hparent)⟩ (hcell _ hparent) ?_ rfl
    dsimp only
    rw [Bitmap.set_set_of_clear hn.clear]
  | noEntry halloc' hg hsync =>
    obtain ⟨hno, rfl⟩ := ok_pair (halloc.symm.trans halloc')
    obtain rfl := Option.some.inj hno
    rw [hcell _ hparent] at hsync
    obtain ⟨hdone, -⟩ | ⟨-, hfails⟩ := syncDirEntry_cases hL' hsync
    · cases hdone
    refine .noEntry hbuf hinode hn hg (hfails.giveBack hn)
      ⟨rfl, Nat.le_succ _, fun q hq hne => ?_, ?_⟩ (update_self ..) rfl rfl
    · exact (update_of_ne hne _ _).trans (hcell q hq)
    · exact (congrArg Inode.iOpenCnts (update_self ..)).trans hfails.iOpenCnts
  | created halloc' hg _ hsync _ _ hinst =>
    obtain ⟨hno, rfl⟩ := ok_pair (halloc.symm.trans halloc')
    obtain rfl := Option.some.inj hno
    rw [hcell _ hparent] at hsync
    obtain ⟨-, hleft⟩ | ⟨hdone, -⟩ := syncDirEntry_cases hL' hsync
    · refine .noDescriptor hbuf hinode hg (fun k hk => ?_) fun hft => ?_
      · obtain ⟨hno, hone⟩ := hleft k ⟨hk.le, hk.full, hk.missing⟩
        exact ⟨hno, fun h12 b hb => hone h12 b ⟨hb.lt, hb.clear, hb.others⟩⟩
      -- the file is in its slot, and nothing takes it out
      have hslot := (getFreeSlotInGlobal_eq_some hg).2.2
      rw [← hft, pcbFdInstall_frame hinst.symm] at hslot
      cases (congrArg File.fdInode (update_self ..)).symm.trans hslot
    · cases hdone

theorem fileCreateWith_failed (hL : s.part.Layout) (hparent : s.dirInode dir < s.brk)
    (hrun : fileCreateWith heap s pid dir name flag = .ok (none, s', lost)) :
    CreateFails heap s dir s' lost := by
  unfold fileCreateWith at hrun
  by_cases hbuf : heap.ioBuf = false
  · rw [if_pos hbuf] at hrun
    obtain ⟨-, rfl, rfl⟩ := ok_triple hrun
    exact .noBuffer hbuf
  rw [if_neg hbuf] at hrun
  replace hbuf : heap.ioBuf = true := by simpa using hbuf
  obtain ⟨⟨o, p⟩, halloc, hrun⟩ := bind_eq_ok.1 hrun
  cases o with
  | none =>
    obtain ⟨-, rfl, rfl⟩ := ok_triple hrun
    exact .noNumber hbuf (inodeBitmapAlloc_full halloc)
  | some n =>
    obtain ⟨hn, rfl⟩ := Partition.inodeBitmapAlloc_eq_some halloc
    dsimp only at hrun
    by_cases hinode : heap.inode = false
    · rw [if_pos hinode] at hrun
      obtain ⟨-, rfl, rfl⟩ := ok_triple hrun
      have hback : (FileSys.setInodeBit { s with part := { s.part with
          inodeBitmap := s.part.inodeBitmap.set n true } } n false).part = s.part := by
        change { s.part with inodeBitmap := (s.part.inodeBitmap.set n true).set n false } = s.part
        rw [Bitmap.set_set_of_clear hn.clear]
      exact .noSlot hn (.inl hinode) ⟨rfl, le_rfl, fun _ _ _ => rfl, rfl⟩ rfl hback rfl
    · rw [if_neg hinode] at hrun
      obtain ⟨⟨fd, s₁⟩, hcreate, hrun⟩ := bind_eq_ok.1 hrun
      obtain ⟨rfl, rfl, rfl⟩ := ok_triple hrun
      exact fileCreate_failed hL hparent hbuf (by simpa using hinode) hn halloc hcreate

theorem SyncFails.blockBitmap (h : SyncFails p ino p' ino') : p'.blockBitmap = p.blockBitmap := by
  cases h <;> rfl

theorem mkdirIn_failed (hL : s.part.Layout)
    (hrun : mkdirIn s dir name = .ok (false, s')) : MkdirFails s s' := by
  unfold mkdirIn at hrun
  obtain ⟨⟨o, p⟩, halloc, hrun⟩ := bind_eq_ok.1 hrun
  cases o with
  | none =>
    obtain ⟨-, rfl⟩ := ok_pair hrun
    exact .noNumber (inodeBitmapAlloc_full halloc)
  | some n =>
    obtain ⟨hn, rfl⟩ := Partition.inodeBitmapAlloc_eq_some halloc
    obtain ⟨⟨o, p⟩, hblock, hrun⟩ := bind_eq_ok.1 hrun
    cases o with
    | none =>
      obtain ⟨hno, rfl⟩ := blockBitmapAlloc_eq_none hblock
      obtain ⟨-, rfl⟩ := ok_pair hrun
      have hback : FileSys.setInodeBit { s with part := { s.part with
          inodeBitmap := s.part.inodeBitmap.set n true } } n false = s := by
        change { s with part := { s.part with
          inodeBitmap := (s.part.inodeBitmap.set n true).set n false } } = s
        rw [Bitmap.set_set_of_clear hn.clear]
      rw [hback]
      exact .noBlock hno
    | some lba =>
      obtain ⟨b, hb, -, rfl⟩ := Partition.blockBitmapAlloc_eq_some hblock
      have hclear : s.part.blockBitmap.bit b = false := hb.clear
      obtain ⟨_, -, hrun⟩ := bind_eq_ok.1 hrun
      obtain ⟨e, -, hrun⟩ := bind_eq_ok.1 hrun
      obtain ⟨⟨done, p, ino⟩, hsync, hrun⟩ := bind_eq_ok.1 hrun
      dsimp only at hrun
      have hends := fun hL₂ => syncDirEntry_cases hL₂ hsync
      rcases hends (hL.of_geometry rfl) with ⟨rfl, -⟩ | ⟨rfl, hfails⟩
      · rw [if_neg (by simp)] at hrun
        obtain ⟨p₁, -, hrun⟩ := bind_eq_ok.1 hrun
        obtain ⟨p₂, -, hrun⟩ := bind_eq_ok.1 hrun
        cases (ok_pair hrun).1
      · rw [if_pos rfl] at hrun
        obtain ⟨-, rfl⟩ := ok_pair hrun
        refine .noEntry hn (not_noBlock hb.lt hclear) fun heq => ?_
        -- the block of the new directory is still marked
        have hmarked : p.blockBitmap = s.part.blockBitmap.set b true := hfails.blockBitmap
        have hbit := congrArg (fun m : Bitmap => m.bit b) (hmarked.symm.trans heq)
        simp [hclear] at hbit

end Fails

/-! ## When a failed creation leaves everything as it was -/

section Keeps

variable {s s' s₁ s₂ : FileSys} {t : Tree ℕ (List UInt8)} {r : ℕ → ℕ} {path : List UInt8}
  {record : PathSearchRecord} {heap : HeapAnswers} {res : Tree.SearchResult} {lost k : ℕ}
  {p p' : Partition} {ino ino' : Inode}

theorem NeedsBlock.congr (h : NeedsBlock p ino k) (hs : ino.Same ino') : NeedsBlock p ino' k where
  le := h.le
  full j hj := by
    have := h.le
    rw [← hs.iSectors j (by omega)]
    exact h.full j hj
  missing hk := by
    rw [← hs.iSectors k (by omega)]
    exact h.missing hk

/-- The inode of the directory that the search left open is the one on disk. -/
theorem Walked.same (hw : Walked s r res record s₁) :
    (s₁.inodes (s₁.dirInode record.parentDir)).Same (s.part.vol.inode res.dir) := by
  have h := hw.cache.same _ hw.cache.dirInode_mem
  rwa [hw.iNo, hw.step.part] at h

/-- The directory was open before the search if and only if its inode was in the list. -/
theorem Walked.mem_iff (hw : Walked s r res record s₁) (hc : Cache s r) :
    s₁.dirInode record.parentDir ∈ s.openInodes ↔ findInode s res.dir ≠ none := by
  constructor
  · intro hmem hnone
    have hino := hw.iNo
    rw [hw.step.iNo (hc.lt_brk _ hmem)] at hino
    exact findInode_eq_none.1 hnone _ hmem hino
  · intro hne
    obtain ⟨q, hq⟩ := Option.ne_none_iff_exists'.1 hne
    obtain ⟨hmem, hino⟩ := findInode_eq_some hq
    have hmem₁ : q ∈ s₁.openInodes := (hw.cache.mem q).2 <|
      ((hc.mem q).1 hmem).trans_le (le_holdDir r record.parentDir q)
    have heq := hw.cache.inj q hmem₁ _ hw.cache.dirInode_mem <| by
      rw [hw.step.iNo (hc.lt_brk q hmem), hino, hw.iNo]
    rwa [← heq]

theorem same_setSector_iff : (ino.setSector 12 0).Same ino ↔ ino.iSectors 12 = 0 := by
  have hself : (ino.setSector 12 0).iSectors 12 = 0 := by simp [Inode.setSector]
  constructor
  · intro h
    rw [← h.iSectors 12 (by omega), hself]
  · intro h
    refine ⟨rfl, rfl, fun k _ => ?_⟩
    by_cases hk : k = 12
    · rw [hk, hself, h]
    · simp [Inode.setSector, hk]

theorem OneBlock.unique {b b' : ℕ} (h : OneBlock p b) (h' : OneBlock p b') : b = b' :=
  h'.eq h.lt h.clear

theorem not_noBlockClean (hw : Walked s r res record s₁)
    (hleft : BlocksLeft s.part (s₁.inodes (s₁.dirInode record.parentDir))) :
    ¬ NoBlockClean s res.dir := by
  rintro (⟨hno, k, hk⟩ | ⟨hk, b, hb, -⟩)
  · exact (hleft k (hk.congr hw.same.symm)).1 hno
  · exact (hleft 12 (hk.congr hw.same.symm)).2 rfl b hb

/-- A `sync_dir_entry` that fails changes nothing if and only if it fails clean. -/
theorem SyncFails.clean_iff (hw : Walked s r res record s₁) (hc : Cache s r) (hL : s.part.Layout)
    (h : SyncFails s.part (s₁.inodes (s₁.dirInode record.parentDir)) p' ino') :
    (PartKept s.part p' ∧ (s₁.dirInode record.parentDir ∈ s.openInodes →
      ino'.Same (s₁.inodes (s₁.dirInode record.parentDir)))) ↔ NoBlockClean s res.dir := by
  cases h with
  | noBlock hk hno =>
    exact iff_of_true ⟨.refl _, fun _ => .refl _⟩ (.inl ⟨hno, _, hk.congr hw.same⟩)
  | @oneBlock b hk hb =>
    rw [partKept_triedBlock_iff hL hb, hw.mem_iff hc, same_setSector_iff,
      hw.same.iSectors 12 (by omega)]
    constructor
    · rintro ⟨hdisk, hcell⟩
      refine .inr ⟨hk.congr hw.same, b, hb, hdisk, ?_⟩
      by_cases hf : findInode s res.dir = none
      · exact .inr hf
      · exact .inl (hcell hf)
    · rintro (⟨hno, -⟩ | ⟨-, b', hb', hdisk, hcell⟩)
      · exact absurd hno (not_noBlock hb.lt hb.clear)
      · rw [hb.unique hb']
        exact ⟨hdisk, fun hf => hcell.resolve_right hf⟩

theorem update_file_eq_self_iff {f : ℕ → File} {g : ℕ} (hg : (f g).fdInode = none) :
    update f g ⟨0, 0, none⟩ = f ↔ (f g).fdPos = 0 ∧ (f g).fdFlag = 0 := by
  rw [update_eq_self_iff]
  constructor
  · intro h
    rw [← h]
    exact ⟨rfl, rfl⟩
  · rintro ⟨hpos, hflag⟩
    cases hf : f g
    rw [hf] at hg hpos hflag
    dsimp only at hg hpos hflag
    rw [hg, hpos, hflag]

theorem createKeeps_iff (hnew : ¬ (path.getLast? = some slash ∨ NotNew t path))
    (hbuf : heap.ioBuf = true) : CreateKeeps heap s t path ↔
      (∃ n < s.part.inodeBitmap.bitLen, s.part.inodeBitmap.bit n = false) ∧
        (heap.inode = false ∨ getFreeSlotInGlobal s = none ∨
          ∃ g, getFreeSlotInGlobal s = some g ∧ (s.fileTable g).fdPos = 0 ∧
            (s.fileTable g).fdFlag = 0 ∧ NoBlockClean s (t.resolve path).dir) := by
  constructor
  · rintro (hlast | hnot | hfalse | h)
    · exact absurd (.inl hlast) hnew
    · exact absurd (.inr hnot) hnew
    · rw [hbuf] at hfalse
      cases hfalse
    · exact h
  · exact fun h => .inr (.inr (.inr h))

theorem CreateFails.keeps_iff (h : TreeState s t r)
    (hw : Walked s r (t.resolve path) record s₁)
    (hnew : ¬ (path.getLast? = some slash ∨ NotNew t path))
    (hf : CreateFails heap s₁ record.parentDir s₂ lost) :
    LeavesAsIs s (dirClose s₂ record.parentDir) lost ↔ CreateKeeps heap s t path := by
  have hpart := hw.step.part
  have hft := hw.step.fileTable
  have hslot := getFreeSlotInGlobal_congr hft
  cases hf with
  | noBuffer hbuf =>
    refine iff_of_true ?_ (.inr (.inr (.inl hbuf)))
    rw [leavesAsIs_dirClose_iff h.cache hw.step hw.cache (.refl _ _), hpart]
    exact ⟨.refl _, fun _ => .refl _, hft, rfl⟩
  | noNumber hbuf hfull =>
    refine iff_of_false (fun hl => by cases hl.lost) ?_
    rw [createKeeps_iff hnew hbuf]
    rintro ⟨⟨n, hn, hc⟩, -⟩
    rw [hpart] at hfull
    rw [hfull n hn] at hc
    cases hc
  | noSlot hn hwhy hkept hsame hpart₂ hft₂ =>
    rw [hpart] at hn
    rw [hslot] at hwhy
    refine iff_of_true ?_ (.inr (.inr (.inr ⟨⟨_, hn.lt, hn.clear⟩, hwhy.imp id .inl⟩)))
    rw [leavesAsIs_dirClose_iff h.cache hw.step hw.cache hkept, hsame, hpart₂, hpart]
    exact ⟨.refl _, fun _ => .refl _, hft₂.trans hft, rfl⟩
  | @noEntry _ n g _ _ hbuf hinode hn hg hsync hkept hino hpart₂ hft₂ =>
    rw [hpart] at hn hsync
    rw [hslot] at hg
    have hfree := (getFreeSlotInGlobal_eq_some hg).2.2
    rw [leavesAsIs_dirClose_iff h.cache hw.step hw.cache hkept, hino, hpart₂, hft₂, hft,
      createKeeps_iff hnew hbuf, update_file_eq_self_iff hfree,
      ← hsync.clean_iff hw h.cache h.layout]
    constructor
    · rintro ⟨hp, hcell, ⟨hpos, hflag⟩, -⟩
      exact ⟨⟨n, hn.lt, hn.clear⟩, .inr (.inr ⟨g, hg, hpos, hflag, hp, hcell⟩)⟩
    · rintro ⟨-, hfalse | hnone | ⟨g', hg', hpos, hflag, hp, hcell⟩⟩
      · rw [hinode] at hfalse
        cases hfalse
      · rw [hg] at hnone
        cases hnone
      · obtain rfl := Option.some.inj (hg.symm.trans hg')
        exact ⟨hp, hcell, ⟨hpos, hflag⟩, rfl⟩
  | noDescriptor hbuf hinode hg hleft hne =>
    refine iff_of_false (fun hl => hne ?_) ?_
    · rw [← (cacheStep_dirClose s₂ record.parentDir).fileTable, hl.fileTable, hft]
    · rw [createKeeps_iff hnew hbuf]
      rw [hpart] at hleft
      rw [hslot] at hg
      rintro ⟨-, hfalse | hnone | ⟨g', hg', -, -, hclean⟩⟩
      · rw [hinode] at hfalse
        cases hfalse
      · rw [hg] at hnone
        cases hnone
      · exact not_noBlockClean hw hleft hclean

theorem MkdirFails.keeps_iff (h : TreeState s t r)
    (hw : Walked s r (t.resolve path) record s₁) (hnew : ¬ NotNew t path)
    (hf : MkdirFails s₁ s₂) :
    LeavesAsIs s (dirClose s₂ record.parentDir) 0 ↔ MkdirKeeps true s t path := by
  have hpart := hw.step.part
  have hrefl : LeavesAsIs s (dirClose s₁ record.parentDir) 0 :=
    leavesAsIs_of_cacheStep h.cache (hw.close h).1 (hw.close h).2
  cases hf with
  | noNumber hfull =>
    rw [hpart] at hfull
    exact iff_of_true hrefl (.inr (.inr (.inl hfull)))
  | noBlock hno =>
    rw [hpart] at hno
    exact iff_of_true hrefl (.inr (.inr (.inr hno)))
  | noEntry hn hsome hne =>
    rw [hpart] at hn hsome hne
    refine iff_of_false (fun hl => hne ?_) ?_
    · rw [← (cacheStep_dirClose s₂ record.parentDir).part]
      exact hl.part.blockBitmap
    · rintro (hnot | hfalse | hfull | hno)
      · exact hnew hnot
      · cases hfalse
      · have := hfull _ hn.lt
        rw [hn.clear] at this
        cases this
      · exact hsome hno

theorem TreeState.openWith_leavesAsIs_iff (h : TreeState s t r) (hp : PathArg path)
    {uninit : Uninit} {pid flags : ℕ} (hflags : 4 ≤ flags)
    (hrun : sysOpenWith heap s uninit pid path flags = .ok (none, s', lost)) :
    LeavesAsIs s s' lost ↔ CreateKeeps heap s t path := by
  rcases h.openWith_cases hp hflags hrun with
    ⟨hold, rfl, hstep, hc⟩ | ⟨hnew, record, s₁, s₂, hw, hcreate, rfl⟩
  · refine iff_of_true (leavesAsIs_of_cacheStep h.cache hstep hc) ?_
    rcases hold with hlast | hnot
    · exact .inl hlast
    · exact .inr (.inl hnot)
  · have hL₁ : s₁.part.Layout := hw.step.part ▸ h.layout
    have hlt := hw.cache.lt_brk _ hw.cache.dirInode_mem
    exact (fileCreateWith_failed hL₁ hlt hcreate).keeps_iff h hw hnew

theorem TreeState.mkdirWith_leavesAsIs_iff (h : TreeState s t r) (hp : PathArg path)
    {uninit : Uninit} {ioBuf : Bool}
    (hrun : sysMkdirWith ioBuf s uninit path = .ok (false, s')) :
    LeavesAsIs s s' 0 ↔ MkdirKeeps ioBuf s t path := by
  cases ioBuf with
  | false =>
    obtain ⟨-, rfl⟩ := ok_pair hrun
    exact iff_of_true (leavesAsIs_of_cacheStep h.cache (.refl s) h.cache) (.inr (.inl rfl))
  | true =>
    rcases h.mkdir_cases hp hrun with ⟨hnot, hstep, hc⟩ | ⟨hnew, record, s₁, s₂, hw, hmk, rfl⟩
    · exact iff_of_true (leavesAsIs_of_cacheStep h.cache hstep hc) (.inl hnot)
    · have hL₁ : s₁.part.Layout := hw.step.part ▸ h.layout
      exact (mkdirIn_failed hL₁ hmk).keeps_iff h hw hnew

end Keeps

/-- **A creation that fails leaves everything as it was** exactly under `CreateKeeps`, for a file,
and `MkdirKeeps`, for a directory. -/
theorem leavesAsIs_iff {s : FileSys} {t : Tree ℕ (List UInt8)} {r : ℕ → ℕ} {path : List UInt8}
    (h : TreeState s t r) (hp : PathArg path) (uninit : Uninit) :
    (∀ heap pid flags s' lost, 4 ≤ flags →
      sysOpenWith heap s uninit pid path flags = .ok (none, s', lost) →
      (LeavesAsIs s s' lost ↔ CreateKeeps heap s t path)) ∧
    (∀ ioBuf s', sysMkdirWith ioBuf s uninit path = .ok (false, s') →
      (LeavesAsIs s s' 0 ↔ MkdirKeeps ioBuf s t path)) :=
  ⟨fun _ _ _ _ _ hflags hrun => h.openWith_leavesAsIs_iff hp hflags hrun,
    fun _ _ hrun => h.mkdirWith_leavesAsIs_iff hp hrun⟩

/-- The same state with assertions compiled out, and other tables of open files. -/
def withoutAssertions (s : FileSys) (fileTable : ℕ → File) (fdTable : ℕ → ℕ → ℤ) : FileSys :=
  { s with part := { s.part with ndebug := true }, fileTable := fileTable, fdTable := fdTable }

theorem FsOk.withoutAssertions {s : FileSys} {t : Tree ℕ (List UInt8)} {r : ℕ → ℕ}
    (h : FsOk s t r) (fileTable : ℕ → File) (fdTable : ℕ → ℕ → ℤ) :
    TreeState (withoutAssertions s fileTable fdTable) t r := by
  obtain ⟨a, b, c, d, e, f, g, k⟩ := h.layout
  have hD := h.rep.dirTree
  have hc := (h.cache.withFiles fileTable fdTable).withPart (p := { s.part with ndebug := true })
    fun _ _ => .refl _
  exact ⟨⟨a, b, c, d, e, f, g, k⟩, rfl, ⟨hD.wf, hD.root, hD.lt, hD.iNo, fun n hn => by
    obtain ⟨hu, ht, hi, hne⟩ := hD.blocks n hn
    exact ⟨hu, ht, hi, hne⟩, hD.holds⟩, hc⟩

/-- With the file table full, `sys_open` of a new file fails and leaves everything as it was. -/
theorem leavesAsIs_of_fullTable : ∃ s t r s', TreeState s t r ∧
    sysOpenWith ⟨true, true⟩ s noUninit 1 pathA 6 = .ok (none, s', 0) ∧ LeavesAsIs s s' 0 := by
  have h := smallRun_runOk.fs.withoutAssertions fullTable smallRun.fs.fdTable
  obtain ⟨⟨fd, s', lost⟩, hrun, hres⟩ := exists_of_holds
    (o := sysOpenWith ⟨true, true⟩ (withoutAssertions smallRun.fs fullTable smallRun.fs.fdTable)
      noUninit 1 pathA 6) (f := fun r => r.1 = none ∧ r.2.2 = 0) (by decide +kernel)
  obtain ⟨rfl, rfl⟩ : fd = none ∧ lost = 0 := of_decide_eq_true hres
  refine ⟨_, _, _, s', h, hrun, ((leavesAsIs_iff h pathArg_pathA noUninit).1 _ _ _ _ _ (by decide)
    hrun).2 ?_⟩
  exact .inr (.inr (.inr ⟨⟨1, by decide +kernel, by decide +kernel⟩, .inr (.inl rfl)⟩))

/-- A task whose descriptors are all in use makes a file: `sys_open` returns `-1`, and the file has
a slot of the file table. -/
theorem not_leavesAsIs_fullDescriptors : ∃ s t r s', TreeState s t r ∧ PathArg pathA ∧
    sysOpenWith ⟨true, true⟩ s noUninit 1 pathA 6 = .ok (none, s', 0) ∧
    (s.fileTable 3).fdInode = none ∧ (s'.fileTable 3).fdInode = some 1 ∧ ¬ LeavesAsIs s s' 0 := by
  have h := smallRun_runOk.fs.withoutAssertions smallRun.fs.fileTable fun _ _ => 0
  obtain ⟨⟨fd, s', lost⟩, hrun, hres⟩ := exists_of_holds
    (o := sysOpenWith ⟨true, true⟩ (withoutAssertions smallRun.fs smallRun.fs.fileTable
      fun _ _ => 0) noUninit 1 pathA 6)
    (f := fun r => r.1 = none ∧ r.2.2 = 0 ∧ (r.2.1.fileTable 3).fdInode = some 1)
    (by decide +kernel)
  obtain ⟨rfl, rfl, hslot⟩ : fd = none ∧ lost = 0 ∧ (s'.fileTable 3).fdInode = some 1 :=
    of_decide_eq_true hres
  have hfree : ((withoutAssertions smallRun.fs smallRun.fs.fileTable fun _ _ => 0).fileTable
    3).fdInode = none := rfl
  refine ⟨_, _, _, s', h, pathArg_pathA, hrun, hfree, hslot, fun hl => ?_⟩
  rw [hl.fileTable, hfree] at hslot
  cases hslot

end Gardos.Fs
