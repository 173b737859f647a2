import Gardos.Fs.Path
import Gardos.Fs.File

/-!
# The file system calls (`fs/fs.c`, second part) and pipes (`shell/pipe.c`)

Each call takes the state, the values of uninitialised variables where it depends on them, and its
arguments; calls on descriptors also take the `pid` of the running task. A result of `0` or `-1`
is a `Bool`, a number or `-1` an `Option`. Descriptors of the console and of pipes are not files,
and `sysWrite` and `sysRead` are their branches for files.

A pipe is a slot of the file table with `PIPE_FLAG`, the page of its ring buffer in the place of the
inode, and the number of its descriptors in the place of the file position. A page is named like
the inodes in memory, by an address that was never used before. Functions for files that are applied
to a pipe read the page as a `struct inode`. The word at offset 4, `i_size`, is then the byte
`lock.semaphore.value` and padding: 1 if the lock of the ring buffer is free. Of the functions here
only `sys_lseek` reads it.
-/

namespace Gardos.Fs

open Bytes Outcome

/-! ## Files -/

/-- `strrchr(path, '/') + 1`. -/
def afterLastSlash (path : List UInt8) : List UInt8 :=
  (path.reverse.takeWhile (· ≠ slash)).reverse

/-- `sys_open`. When it opens an existing file, the parent directory stays open. -/
def sysOpen (s : FileSys) (uninit : Uninit) (pid : ℕ) (pathname : List UInt8) (flags : ℕ) :
    Outcome (Option ℕ × FileSys) := do
  access (pathname ≠ [])
  if pathname.getLast? = some slash then
    return (none, s)
  assert (flags ≤ 7)
  let pathnameDepth ← pathDepthCnt uninit pathname
  let (inodeNo, record, s) ← searchFile s uninit pathname
  if record.fileType = .directory then
    return (none, dirClose s record.parentDir)
  let pathSearchedDepth ← pathDepthCnt uninit record.searchedPath
  if pathnameDepth ≠ pathSearchedDepth then
    return (none, dirClose s record.parentDir)
  match inodeNo, decide (4 ≤ flags) with
  | none, false => return (none, dirClose s record.parentDir)
  | some _, true => return (none, dirClose s record.parentDir)
  | none, true =>
    let (fd, s) ← fileCreate s pid record.parentDir (afterLastSlash pathname) flags
    return (fd, dirClose s record.parentDir)
  | some inodeNo, false => fileOpen s pid inodeNo flags

/-- The search has gone as deep as the path. -/
def SearchedAll (uninit : Uninit) (path : List UInt8) (record : PathSearchRecord) : Prop :=
  ∃ d, pathDepthCnt uninit path = .ok d ∧ pathDepthCnt uninit record.searchedPath = .ok d

/-- The runs of `sys_open` that return: it refuses the path, gives up after the search, creates the
file, or opens it. -/
inductive OpenRun (s : FileSys) (uninit : Uninit) (pid : ℕ) (path : List UInt8) (flags : ℕ) :
    Option ℕ → FileSys → Prop
  | slash (hlast : path.getLast? = some slash) : OpenRun s uninit pid path flags none s
  | refused {no : Option ℕ} {record : PathSearchRecord} {s₁ : FileSys}
      (hsearch : searchFile s uninit path = .ok (no, record, s₁))
      (hno : record.fileType ≠ .directory → SearchedAll uninit path record →
        (no = none ↔ flags < 4)) :
      OpenRun s uninit pid path flags none (dirClose s₁ record.parentDir)
  | created {record : PathSearchRecord} {s₁ s₂ : FileSys} {fd : Option ℕ}
      (hlast : path.getLast? ≠ some slash) (hcreat : 4 ≤ flags) (hflags : flags ≤ 7)
      (hsearch : searchFile s uninit path = .ok (none, record, s₁))
      (htype : record.fileType ≠ .directory) (hall : SearchedAll uninit path record)
      (hrun : fileCreate s₁ pid record.parentDir (afterLastSlash path) flags = .ok (fd, s₂)) :
      OpenRun s uninit pid path flags fd (dirClose s₂ record.parentDir)
  | opened {record : PathSearchRecord} {s₁ s' : FileSys} {fd : Option ℕ} {n : ℕ}
      (hlast : path.getLast? ≠ some slash) (hcreat : flags < 4)
      (hsearch : searchFile s uninit path = .ok (some n, record, s₁))
      (htype : record.fileType ≠ .directory) (hall : SearchedAll uninit path record)
      (hrun : fileOpen s₁ pid n flags = .ok (fd, s')) : OpenRun s uninit pid path flags fd s'

theorem openRun_of_sysOpen {s s' : FileSys} {uninit : Uninit} {pid flags : ℕ} {path : List UInt8}
    {fd : Option ℕ} (hrun : sysOpen s uninit pid path flags = .ok (fd, s')) :
    OpenRun s uninit pid path flags fd s' := by
  unfold sysOpen at hrun
  obtain ⟨_, -, hrun⟩ := bind_eq_ok.1 hrun
  by_cases hlast : path.getLast? = some slash
  · rw [if_pos hlast] at hrun
    obtain ⟨rfl, rfl⟩ := ok_pair hrun
    exact .slash hlast
  rw [if_neg hlast] at hrun
  obtain ⟨_, hflags, hrun⟩ := bind_eq_ok.1 hrun
  obtain ⟨d, hd, hrun⟩ := bind_eq_ok.1 hrun
  obtain ⟨⟨no, record, s₁⟩, hsearch, hrun⟩ := bind_eq_ok.1 hrun
  dsimp only at hrun
  by_cases htype : record.fileType = .directory
  · rw [if_pos htype] at hrun
    obtain ⟨rfl, rfl⟩ := ok_pair hrun
    exact .refused hsearch fun h => absurd htype h
  rw [if_neg htype] at hrun
  obtain ⟨d', hd', hrun⟩ := bind_eq_ok.1 hrun
  by_cases hdepth : d = d'
  swap
  · rw [if_pos hdepth] at hrun
    obtain ⟨rfl, rfl⟩ := ok_pair hrun
    refine .refused hsearch fun _ ⟨e, he, he'⟩ => absurd ?_ hdepth
    exact (Except.ok.inj (hd.symm.trans he)).trans (Except.ok.inj (hd'.symm.trans he')).symm
  subst hdepth
  rw [if_neg (not_not.2 rfl)] at hrun
  by_cases h4 : 4 ≤ flags
  · rw [decide_eq_true h4] at hrun
    cases no with
    | none =>
      obtain ⟨⟨fd', s₂⟩, hcreate, rfl, rfl⟩ := bind_pair_eq_ok hrun
      exact .created hlast h4 (assert_eq_ok.1 hflags) hsearch htype ⟨d, hd, hd'⟩ hcreate
    | some n =>
      obtain ⟨rfl, rfl⟩ := ok_pair hrun
      exact .refused hsearch fun _ _ => iff_of_false (fun h => nomatch h) (not_lt.2 h4)
  · rw [decide_eq_false h4] at hrun
    cases no with
    | none =>
      obtain ⟨rfl, rfl⟩ := ok_pair hrun
      exact .refused hsearch fun _ _ => iff_of_true rfl (not_le.1 h4)
    | some n => exact .opened hlast (not_le.1 h4) hsearch htype ⟨d, hd, hd'⟩ hrun

/-- `fd_local2global`. -/
def fdLocal2Global (s : FileSys) (pid fd : ℕ) : Outcome ℕ := do
  access (fd < 8)
  let globalFd := s.fdTable pid fd
  assert (0 ≤ globalFd ∧ globalFd < 32)
  return globalFd.toNat

/-- `PIPE_FLAG`, the `fd_flag` of a pipe. -/
def pipeFlag : ℕ := 65535

/-- The end of a pipe is closed: its `fd_pos` counts the descriptors. -/
def pipeClose (s : FileSys) (i : ℕ) : FileSys :=
  let file := s.fileTable i
  let fdPos := (file.fdPos + 4294967295) % 4294967296
  s.setFile i { file with fdPos := fdPos, fdInode := if fdPos = 0 then none else file.fdInode }

/-- `sys_close`. -/
def sysClose (s : FileSys) (pid fd : ℕ) : Outcome (Bool × FileSys) := do
  if fd ≤ 2 then
    return (false, s)
  let globalFd ← fdLocal2Global s pid fd
  let s ← if (s.fileTable globalFd).fdFlag = pipeFlag then .ok (pipeClose s globalFd)
    else fileClose s globalFd
  return (true, { s with
    fdTable := Function.update s.fdTable pid (Function.update (s.fdTable pid) fd (-1)) })

/-- Whether `sys_write` accepts a descriptor with these flags. -/
def canWrite (flag : ℕ) : Bool := flag % 2 = 1 || flag / 2 % 2 = 1

/-- `sys_write`, on the descriptor of a file. -/
def sysWrite (s : FileSys) (pid fd : ℕ) (buf : Buf) (count : ℕ) :
    Outcome (Option ℕ × FileSys) := do
  let globalFd ← fdLocal2Global s pid fd
  let file := s.fileTable globalFd
  if canWrite file.fdFlag then
    match file.fdInode with
    | none => throw .fault
    | some q =>
      let (n, p, file, inode) ← fileWrite s.part file (s.inodes q) buf count
      return (n, { (s.setInode q inode).setFile globalFd file with part := p })
  else
    return (none, s)

/-- `sys_read`, on the descriptor of a file. -/
def sysRead (s : FileSys) (pid fd count : ℕ) : Outcome (Option ℕ × List UInt8 × FileSys) := do
  let globalFd ← fdLocal2Global s pid fd
  let file := s.fileTable globalFd
  match file.fdInode with
  | none => throw .fault
  | some q =>
    let (n, bytes, file) ← fileRead s.part.disk file (s.inodes q) count
    return (n, bytes, s.setFile globalFd file)

/-- Whether a file with number `inodeNo` is in the file table. -/
def inFileTable (s : FileSys) (inodeNo : ℕ) : Bool :=
  (List.range 32).any fun i =>
    match (s.fileTable i).fdInode with
    | none => false
    | some q => (s.inodes q).iNo = inodeNo

/-- `sys_unlink`. -/
def sysUnlink (s : FileSys) (uninit : Uninit) (pathname : List UInt8) :
    Outcome (Bool × FileSys) := do
  assert (pathname.length < 512)
  let (inodeNo, record, s) ← searchFile s uninit pathname
  assert (inodeNo ≠ some 0)
  match inodeNo with
  | none => return (false, dirClose s record.parentDir)
  | some inodeNo =>
    if record.fileType = .directory then
      return (false, dirClose s record.parentDir)
    if inFileTable s inodeNo then
      return (false, dirClose s record.parentDir)
    let parent := s.dirInode record.parentDir
    let (_, p, parentInode) ← deleteDirEntry s.part (s.inodes parent) inodeNo
    let s ← inodeRelease { s.setInode parent parentInode with part := p } inodeNo
    return (true, dirClose s record.parentDir)

/-! ## Directories -/

/-- The first block of a new directory: `"."` and `".."`. -/
def newDirSector (inodeNo parentNo : ℕ) : Buf :=
  setEntry (setEntry zero 0 (.ofName dot inodeNo .directory)) 1 (.ofName dotDot parentNo .directory)

/-- What `sys_mkdir` does once the path has been searched: make the directory `dirname` in
`parentDir`. When the new entry finds no place, the block of the new directory stays marked. -/
def mkdirIn (s : FileSys) (parentDir : DirPtr) (dirname : List UInt8) :
    Outcome (Bool × FileSys) := do
  match ← inodeBitmapAlloc s.part with
  | (none, _) => return (false, s)
  | (some inodeNo, p) =>
    match ← blockBitmapAlloc p with
    | (none, p) => return (false, FileSys.setInodeBit { s with part := p } inodeNo false)
    | (some blockLba, p) =>
      assert (blockBitmapIdx p blockLba ≠ 0)
      let p := bitmapSync p (blockBitmapIdx p blockLba) .blockBitmap
      let parent := s.dirInode parentDir
      let ioBuf := newDirSector inodeNo (s.inodes parent).iNo
      let p := { p with disk := ideWrite p.disk blockLba ioBuf }
      let newDirInode := { (inodeInit inodeNo).setSector 0 blockLba with iSize := 48 }
      let newDirEntry ← createDirEntry dirname inodeNo .directory
      let (done, p, parentInode) ← syncDirEntry p (s.inodes parent) newDirEntry
      let s := { s.setInode parent parentInode with part := p }
      if done = false then
        return (false, s.setInodeBit inodeNo false)
      let p ← inodeSync s.part (s.inodes parent)
      let p ← inodeSync p newDirInode
      return (true, { s with part := bitmapSync p inodeNo .inodeBitmap })

/-- `sys_mkdir`. -/
def sysMkdir (s : FileSys) (uninit : Uninit) (pathname : List UInt8) :
    Outcome (Bool × FileSys) := do
  let (inodeNo, record, s) ← searchFile s uninit pathname
  if inodeNo ≠ none then
    return (false, dirClose s record.parentDir)
  let pathnameDepth ← pathDepthCnt uninit pathname
  let pathSearchedDepth ← pathDepthCnt uninit record.searchedPath
  if pathnameDepth ≠ pathSearchedDepth then
    return (false, dirClose s record.parentDir)
  access (slash ∈ record.searchedPath)
  let (done, s) ← mkdirIn s record.parentDir (afterLastSlash record.searchedPath)
  return (done, dirClose s record.parentDir)

/-- `sys_opendir`. -/
def sysOpendir (s : FileSys) (uninit : Uninit) (name : List UInt8) :
    Outcome (Option DirPtr × FileSys) := do
  assert (name.length < 512)
  if name = [slash] then
    return (some .rootDir, s)
  let (inodeNo, record, s) ← searchFile s uninit name
  match inodeNo, record.fileType with
  | some inodeNo, .directory =>
    let (dir, s) ← dirOpen s inodeNo
    return (some dir, dirClose s record.parentDir)
  | _, _ => return (none, dirClose s record.parentDir)

/-- `sys_closedir`. -/
def sysClosedir (s : FileSys) : Option DirPtr → Bool × FileSys
  | none => (false, s)
  | some dir => (true, dirClose s dir)

/-- `sys_rmdir`. -/
def sysRmdir (s : FileSys) (uninit : Uninit) (pathname : List UInt8) :
    Outcome (Bool × FileSys) := do
  let (inodeNo, record, s) ← searchFile s uninit pathname
  assert (inodeNo ≠ some 0)
  match inodeNo with
  | none => return (false, dirClose s record.parentDir)
  | some inodeNo =>
    if record.fileType = .regular then
      return (false, dirClose s record.parentDir)
    let (dir, s) ← dirOpen s inodeNo
    if dirIsEmpty (s.inodes (s.dirInode dir)) then
      let s ← dirRemove s (s.dirInode record.parentDir) (s.dirInode dir)
      return (true, dirClose (dirClose s dir) record.parentDir)
    else
      return (false, dirClose (dirClose s dir) record.parentDir)

/-- `sys_chdir`: the new `cwd_inode_nr`, if it changes. -/
def sysChdir (s : FileSys) (uninit : Uninit) (path : List UInt8) :
    Outcome (Option ℕ × FileSys) := do
  let (inodeNo, record, s) ← searchFile s uninit path
  let s := dirClose s record.parentDir
  if record.fileType = .directory then
    return (inodeNo, s)
  else
    return (none, s)

/-- `struct stat`. -/
structure Stat where
  stIno : ℕ
  stSize : ℕ
  stFiletype : FileTypes
  deriving DecidableEq

/-- `sys_stat`: the content of the buffer, or `none` for `-1`. -/
def sysStat (s : FileSys) (uninit : Uninit) (path : List UInt8) :
    Outcome (Option Stat × FileSys) := do
  if isRootPath path then
    let stSize := (s.inodes s.rootInode).iSize
    return (some { stIno := 0, stSize := stSize, stFiletype := .directory }, s)
  let (inodeNo, record, s) ← searchFile s uninit path
  match inodeNo with
  | none => return (none, dirClose s record.parentDir)
  | some inodeNo =>
    let (q, s) ← inodeOpen s inodeNo
    let stSize := (s.inodes q).iSize
    return (some { stIno := inodeNo, stSize := stSize, stFiletype := record.fileType },
      dirClose (inodeClose s q) record.parentDir)

/-! ## Positions -/

/-- A word as an `int32_t`. -/
def toInt32 (n : ℤ) : ℤ := n.bmod 4294967296

/-- The position that `sys_lseek` computes. -/
def seekPos (fileSize fdPos offset : ℤ) (whence : ℕ) : ℤ :=
  if whence = 1 then offset
  else if whence = 2 then toInt32 (toInt32 fdPos + offset)
  else toInt32 (fileSize + offset)

/-- `sys_lseek`; `SEEK_SET`, `SEEK_CUR` and `SEEK_END` are 1, 2 and 3. -/
def sysLseek (s : FileSys) (pid fd : ℕ) (offset : ℤ) (whence : ℕ) :
    Outcome (Option ℕ × FileSys) := do
  assert (0 < whence ∧ whence < 4)
  let globalFd ← fdLocal2Global s pid fd
  let pf := s.fileTable globalFd
  match pf.fdInode with
  | none => throw .fault
  | some q =>
    let fileSize := toInt32 (s.inodes q).iSize
    let newPos := seekPos fileSize pf.fdPos offset whence
    if newPos < 0 ∨ toInt32 (fileSize - 1) < newPos then
      return (none, s)
    return (some newPos.toNat, s.setFile globalFd { pf with fdPos := newPos.toNat })

/-! ## Pipes -/

/-- `is_pipe`. -/
def isPipe (s : FileSys) (pid fd : ℕ) : Outcome Bool := do
  let globalFd ← fdLocal2Global s pid fd
  return (s.fileTable globalFd).fdFlag = pipeFlag

/-- The page of a new ring buffer, read as a `struct inode`; its lock is free. -/
def ioqueuePage : Inode where
  iNo := 0
  iSize := 1
  iOpenCnts := 0
  writeDeny := false
  iSectors _ := 0

/-- `sys_pipe`: the two descriptors, with `none` for `-1`. Without a free slot the function works on
`file_table[-1]`, and without a page on the address 0. -/
def sysPipe (s : FileSys) (pid : ℕ) : Outcome ((Option ℕ × Option ℕ) × FileSys) := do
  match getFreeSlotInGlobal s with
  | none => throw .fault
  | some globalFd =>
    let s := (s.newCell ioqueuePage).setFile globalFd
      { fdPos := 2, fdFlag := pipeFlag, fdInode := some s.brk }
    let (fd0, s) := pcbFdInstall s pid globalFd
    let (fd1, s) := pcbFdInstall s pid globalFd
    return ((fd0, fd1), s)

end Gardos.Fs
