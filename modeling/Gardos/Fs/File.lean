import Gardos.Fs.Dir
import Gardos.Fs.IoBuf

/-!
# Open files and their content (`fs/file.c`)

A descriptor of a task is an index into its `fd_table`; the value there is a slot of the global
`file_table`, whose `fd_inode` is the inode. `fileCreate`, `fileOpen` and `fileClose` manage these
tables; `fileWrite` appends to a file and `fileRead` reads from the position of the descriptor.

The three loops of `file_write` that allocate new blocks differ only in the tests that their range
makes superfluous: the one for the step from direct to indirect blocks, `allocBlocks`, does on
indices below 12 what the first does, and on the others what the third does.
-/

namespace Gardos.Fs

open Bytes Outcome Function

/-! ## Descriptors -/

/-- `get_free_slot_in_global`. -/
def getFreeSlotInGlobal (s : FileSys) : Option ℕ :=
  let fdIdx := skipWhile (fun i => (s.fileTable i).fdInode.isSome) 29 3
  if fdIdx = 32 then none else some fdIdx

/-- `pcb_fd_install`, for the task `pid`. -/
def pcbFdInstall (s : FileSys) (pid globalFdIdx : ℕ) : Option ℕ × FileSys :=
  let localFdIdx := skipWhile (fun i => s.fdTable pid i ≠ -1) 5 3
  if localFdIdx = 8 then (none, s)
  else
    (some localFdIdx, { s with
      fdTable := update s.fdTable pid
        (update (s.fdTable pid) localFdIdx globalFdIdx) })

/-- Overwrite slot `i` of the file table. -/
def FileSys.setFile (s : FileSys) (i : ℕ) (f : File) : FileSys :=
  { s with fileTable := update s.fileTable i f }

/-- The bit of an inode number, set in memory only. -/
def FileSys.setInodeBit (s : FileSys) (inodeNo : ℕ) (value : Bool) : FileSys :=
  { s with part := { s.part with inodeBitmap := s.part.inodeBitmap.set inodeNo value } }

/-- A new cell of the kernel heap for an inode. -/
def FileSys.newCell (s : FileSys) (inode : Inode) : FileSys :=
  { s.setInode s.brk inode with brk := s.brk + 1 }

/-- The part of `file_create` that writes to the disk: the entry in the parent directory, the
inode of the parent, the new inode, and the inode bitmap. The new inode is at `newFileInode`, its
slot in the file table is `fdIdx`. -/
def fileCreateSync (s : FileSys) (pid : ℕ) (parentDir : DirPtr) (filename : List UInt8)
    (inodeNo newFileInode fdIdx : ℕ) : Outcome (Option ℕ × FileSys) := do
  let newDirEntry ← createDirEntry filename inodeNo .regular
  let parent := s.dirInode parentDir
  let (done, p, parentInode) ← syncDirEntry s.part (s.inodes parent) newDirEntry
  let s := { s.setInode parent parentInode with part := p }
  if done = false then
    let s := s.setFile fdIdx { fdPos := 0, fdFlag := 0, fdInode := none }
    return (none, s.setInodeBit inodeNo false)
  let p ← inodeSync s.part (s.inodes parent)
  let p ← inodeSync p (s.inodes newFileInode)
  let p := bitmapSync p inodeNo .inodeBitmap
  let newInode := { s.inodes newFileInode with iOpenCnts := 1 }
  let s := { s.setInode newFileInode newInode with
    part := p, openInodes := newFileInode :: s.openInodes }
  return pcbFdInstall s pid fdIdx

/-- `file_create`. When a step fails, those before it are undone. -/
def fileCreate (s : FileSys) (pid : ℕ) (parentDir : DirPtr) (filename : List UInt8) (flag : ℕ) :
    Outcome (Option ℕ × FileSys) := do
  match ← inodeBitmapAlloc s.part with
  | (none, _) => return (none, s)
  | (some inodeNo, p) =>
    let newFileInode := s.brk
    let s := FileSys.newCell { s with part := p } (inodeInit inodeNo)
    match getFreeSlotInGlobal s with
    | none => return (none, s.setInodeBit inodeNo false)
    | some fdIdx =>
      let s := s.setFile fdIdx { fdPos := 0, fdFlag := flag, fdInode := some newFileInode }
      fileCreateSync s pid parentDir filename inodeNo newFileInode fdIdx

/-- `file_open`. A file that is opened for writing and is busy is refused, with its slot of the
file table taken. -/
def fileOpen (s : FileSys) (pid inodeNo flag : ℕ) : Outcome (Option ℕ × FileSys) := do
  match getFreeSlotInGlobal s with
  | none => return (none, s)
  | some fdIdx =>
    let (q, s) ← inodeOpen s inodeNo
    let s := s.setFile fdIdx { fdPos := 0, fdFlag := flag, fdInode := some q }
    if flag = 1 ∨ flag = 2 then
      if (s.inodes q).writeDeny then
        return (none, s)
      return pcbFdInstall (s.setInode q { s.inodes q with writeDeny := true }) pid fdIdx
    return pcbFdInstall s pid fdIdx

/-- `file_close`, on slot `i` of the file table. -/
def fileClose (s : FileSys) (i : ℕ) : Outcome FileSys := do
  match (s.fileTable i).fdInode with
  | none => throw .fault
  | some q =>
    let s := inodeClose (s.setInode q { s.inodes q with writeDeny := false }) q
    return s.setFile i { s.fileTable i with fdInode := none }

/-! ## Writing -/

/-- The loops of `file_write` that allocate the blocks from `blockIdx` on. -/
def allocBlocks (p : Partition) (inode : Inode) (blocks : ℕ → ℕ) :
    (todo blockIdx : ℕ) → Outcome (Bool × Partition × Inode × (ℕ → ℕ))
  | 0, _ => return (true, p, inode, blocks)
  | todo + 1, blockIdx => do
    match ← blockBitmapAlloc p with
    | (none, p) => return (false, p, inode, blocks)
    | (some blockLba, p) =>
      let blocks := update blocks blockIdx blockLba
      let p' := bitmapSync p (blockBitmapIdx p blockLba) .blockBitmap
      if blockIdx < 12 then
        assert (inode.iSectors blockIdx = 0)
        allocBlocks p' (inode.setSector blockIdx blockLba) blocks todo (blockIdx + 1)
      else
        allocBlocks p' inode blocks todo (blockIdx + 1)

/-- The addresses in the indirect table of an inode, from index 12 on. -/
def tableBlocks (d : Disk) (inode : Inode) : ℕ → ℕ := fun k =>
  if 12 ≤ k then getLe32 (window (ideRead d (inode.iSectors 12)) (4 * (k - 12))) else 0

/-- The addresses that `file_write` collects for a file of `has` blocks that will have `will`, with
the blocks it allocates. The first component is false if it runs out of blocks. -/
def collectWrite (p : Partition) (inode : Inode) (has will : ℕ) :
    Outcome (Bool × Partition × Inode × (ℕ → ℕ)) := do
  let last : ℕ → ℕ := update (fun _ => 0) (has - 1) (inode.iSectors (has - 1))
  if will = has then
    if has ≤ 12 then
      return (true, p, inode, last)
    else
      assert (inode.iSectors 12 ≠ 0)
      return (true, p, inode, tableBlocks p.disk inode)
  else if will ≤ 12 then
    assert (inode.iSectors (has - 1) ≠ 0)
    allocBlocks p inode last (will - has) has
  else if has ≤ 12 then
    -- the indirect table is allocated first, and written when all its blocks are
    match ← blockBitmapAlloc p with
    | (none, p) => return (false, p, inode, last)
    | (some blockLba, p) =>
      assert (inode.iSectors 12 = 0)
      let (done, p, inode, blocks) ←
        allocBlocks p (inode.setSector 12 blockLba) last (will - has) has
      if done = false then
        return (false, p, inode, blocks)
      return (true, { p with disk := ideWrite p.disk blockLba (tableSector blocks) }, inode, blocks)
  else
    assert (inode.iSectors 12 ≠ 0)
    let (done, p, inode, blocks) ←
      allocBlocks p inode (tableBlocks p.disk inode) (will - has) has
    if done = false then
      return (false, p, inode, blocks)
    let p := { p with disk := ideWrite p.disk (inode.iSectors 12) (tableSector blocks) }
    return (true, p, inode, blocks)

/-- The loop of `file_write` over the sectors. Only the first is read before it is written. The
counter `fuel` bounds the rounds; each writes at least one byte. -/
def writeLoop (blocks : ℕ → ℕ) (src : Buf) : (fuel : ℕ) → Partition → Inode →
    (fdPos bytesWritten sizeLeft : ℕ) → Bool → Partition × Inode × ℕ
  | 0, p, inode, fdPos, _, _, _ => (p, inode, fdPos)
  | fuel + 1, p, inode, fdPos, bytesWritten, sizeLeft, firstWriteBlock =>
    if sizeLeft = 0 then (p, inode, fdPos)
    else
      let secLba := blocks (inode.iSize / 512)
      let secOffBytes := inode.iSize % 512
      let chunkSize := min sizeLeft (512 - secOffBytes)
      let ioBuf := if firstWriteBlock then ideRead p.disk secLba else zero
      let ioBuf := memcpy ioBuf secOffBytes (window src bytesWritten) chunkSize
      writeLoop blocks src fuel { p with disk := ideWrite p.disk secLba ioBuf }
        { inode with iSize := (inode.iSize + chunkSize) % 4294967296 }
        ((fdPos + chunkSize) % 4294967296) (bytesWritten + chunkSize) (sizeLeft - chunkSize) false

/-- The first block of a file that is written for the first time. -/
def firstBlock (p : Partition) (inode : Inode) : Outcome (Bool × Partition × Inode) := do
  if inode.iSectors 0 ≠ 0 then
    return (true, p, inode)
  match ← blockBitmapAlloc p with
  | (none, p) => return (false, p, inode)
  | (some blockLba, p) =>
    assert (blockBitmapIdx p blockLba ≠ 0)
    return (true, bitmapSync p (blockBitmapIdx p blockLba) .blockBitmap,
      inode.setSector 0 blockLba)

/-- `file_write`: append `count` bytes of `buf`. The result is `none` for `-1`. The buffer for
`inode_sync` is the one for the data, of 512 bytes. -/
def fileWrite (p : Partition) (file : File) (inode : Inode) (buf : Buf) (count : ℕ) :
    Outcome (Option ℕ × Partition × File × Inode) := do
  if 71680 < (inode.iSize + count) % 4294967296 then
    return (none, p, file, inode)
  let (done, p, inode) ← firstBlock p inode
  if done = false then
    return (none, p, file, inode)
  let fileHasUsedBlocks := inode.iSize / 512 + 1
  let fileWillUseBlocks := (inode.iSize + count) % 4294967296 / 512 + 1
  assert (fileWillUseBlocks ≤ 140)
  let (done, p, inode, blocks) ← collectWrite p inode fileHasUsedBlocks fileWillUseBlocks
  if done = false then
    return (none, p, file, inode)
  let fdPos := (inode.iSize + 4294967295) % 4294967296
  let (p, inode, fdPos) := writeLoop blocks buf count p inode fdPos 0 count true
  let p ← inodeSyncIn 512 p inode
  return (some count, p, { file with fdPos := fdPos }, inode)

/-! ## Reading -/

/-- The addresses that `file_read` collects for the blocks from `start` to `last`. -/
def collectRead (d : Disk) (inode : Inode) (start last : ℕ) : Outcome (ℕ → ℕ) := do
  if start = last then
    if last < 12 then
      return update (fun _ => 0) last (inode.iSectors last)
    else
      return tableBlocks d inode
  else if last < 12 then
    return fun k => if start ≤ k ∧ k ≤ last then inode.iSectors k else 0
  else if start < 12 then
    assert (inode.iSectors 12 ≠ 0)
    return fun k => if 12 ≤ k then tableBlocks d inode k
      else if start ≤ k then inode.iSectors k else 0
  else
    assert (inode.iSectors 12 ≠ 0)
    return tableBlocks d inode

/-- The loop of `file_read` over the sectors: the bytes delivered and the new position. -/
def readLoop (d : Disk) (blocks : ℕ → ℕ) : (fuel fdPos sizeLeft : ℕ) → List UInt8 × ℕ
  | 0, fdPos, _ => ([], fdPos)
  | fuel + 1, fdPos, sizeLeft =>
    if sizeLeft = 0 then ([], fdPos)
    else
      let secOffBytes := fdPos % 512
      let chunkSize := min sizeLeft (512 - secOffBytes)
      let ioBuf := ideRead d (blocks (fdPos / 512))
      let chunk := (List.range chunkSize).map (window ioBuf secOffBytes)
      let (rest, pos) :=
        readLoop d blocks fuel ((fdPos + chunkSize) % 4294967296) (sizeLeft - chunkSize)
      (chunk ++ rest, pos)

/-- `file_read`: the number of bytes read (`none` for `-1`), the bytes, and the file with its new
position. -/
def fileRead (d : Disk) (file : File) (inode : Inode) (count : ℕ) :
    Outcome (Option ℕ × List UInt8 × File) := do
  let exceeds := inode.iSize < (file.fdPos + count) % 4294967296
  let size := if exceeds then (inode.iSize + (4294967296 - file.fdPos)) % 4294967296 else count
  if exceeds ∧ size = 0 then
    return (none, [], file)
  let blockReadStartIdx := file.fdPos / 512
  let blockReadEndIdx := (file.fdPos + size) % 4294967296 / 512
  assert (blockReadStartIdx < 139 ∧ blockReadEndIdx < 139)
  let blocks ← collectRead d inode blockReadStartIdx blockReadEndIdx
  let (bytes, fdPos) := readLoop d blocks size file.fdPos size
  return (some size, bytes, { file with fdPos := fdPos })

end Gardos.Fs
