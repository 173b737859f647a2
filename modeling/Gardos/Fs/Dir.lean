import Gardos.Fs.Inode

/-!
# Directories (`fs/dir.c`)

A directory is a file whose blocks hold 21 entries of 24 bytes each. Three routines read it
through the 140 addresses of `allBlocks`: `searchDirEntry`, `deleteDirEntry` and `dirRead`.
`syncDirEntry`, which adds an entry, builds its own array and fills in the direct blocks only, so
it never sees the blocks that the table at `iSectors 12` lists.

The loops over the blocks do nothing in the blocks they pass over, so each is a `skipWhile`.
-/

namespace Gardos.Fs

open Bytes Outcome Function

/-! ## Looking up a name -/

/-- The first entry of a sector with a name. The type of the entry is not looked at. -/
def searchSector (sec : Buf) (name : List UInt8) : Option DirEntry :=
  ((List.range 21).find? fun k => strEq (window sec (24 * k)) name).map (getEntry sec)

/-- `search_dir_entry`. -/
def searchDirEntry (d : Disk) (inode : Inode) (name : List UInt8) : Option DirEntry :=
  (List.range 140).findSome? fun k =>
    let lba := allBlocks d inode k
    if lba = 0 then none else searchSector (ideRead d lba) name

/-! ## Opening and closing -/

/-- `dir_open`. -/
def dirOpen (s : FileSys) (inodeNo : ℕ) : Outcome (DirPtr × FileSys) := do
  let (q, s) ← inodeOpen s inodeNo
  return (.heap q, s)

/-- `dir_close`. The root directory stays open. -/
def dirClose (s : FileSys) : DirPtr → FileSys
  | .rootDir => s
  | .heap q => inodeClose s q

/-! ## Adding an entry -/

/-- A cleared entry into which a name, a number and a type have been written. -/
def DirEntry.ofName (filename : List UInt8) (inodeNo : ℕ) (fileType : FileTypes) : DirEntry where
  filename i := filename.getD i 0
  iNo := inodeNo
  fType := fileType.code

/-- `create_dir_entry`, on an entry that the caller has cleared. -/
def createDirEntry (filename : List UInt8) (inodeNo : ℕ) (fileType : FileTypes) :
    Outcome DirEntry := do
  assert (filename.length ≤ 16)
  return .ofName filename inodeNo fileType

/-- The first entry of a sector that is not in use. -/
def freeEntry (sec : Buf) : Option ℕ :=
  (List.range 21).find? fun k => (getEntry sec k).fType = FileTypes.unknown.code

/-- The bytes of the indirect table in an array of 140 block addresses. -/
def tableSector (blocks : ℕ → ℕ) : Buf := fun i => le32 (blocks (12 + i / 4)) (i % 4)

/-- The block addresses as `sync_dir_entry` collects them: the direct ones. -/
def directBlocks (inode : Inode) : ℕ → ℕ := fun k => if k < 12 then inode.iSectors k else 0

/-- An inode with entry `k` of `iSectors` overwritten. -/
def Inode.setSector (inode : Inode) (k lba : ℕ) : Inode :=
  { inode with iSectors := update inode.iSectors k lba }

/-- The end of `sync_dir_entry`: sector `lba` is written, and the directory has one entry more. -/
def syncWrite (p : Partition) (dirInode : Inode) (lba : ℕ) (ioBuf : Buf) :
    Outcome (Bool × Partition × Inode) :=
  return (true, { p with disk := ideWrite p.disk lba ioBuf },
    { dirInode with iSize := (dirInode.iSize + 24) % 4294967296 })

/-- The branch of `sync_dir_entry` for a block `k` that does not exist yet: allocate it, enter it
in the inode or in the indirect table, and make the entry its first. -/
def syncNewBlock (p : Partition) (dirInode : Inode) (e : DirEntry) (blocks : ℕ → ℕ) (k : ℕ) :
    Outcome (Bool × Partition × Inode) := do
  match ← blockBitmapAlloc p with
  | (none, p) => return (false, p, dirInode)
  | (some blockLba, p) =>
    assert (blockBitmapIdx p blockLba ≠ 4294967295)
    let p := bitmapSync p (blockBitmapIdx p blockLba) .blockBitmap
    if k < 12 then
      syncWrite p (dirInode.setSector k blockLba) blockLba (setEntry zero 0 e)
    else if k = 12 then
      -- no indirect block yet, as far as `blocks` tells: the block becomes the table
      let dirInode := dirInode.setSector 12 blockLba
      match ← blockBitmapAlloc p with
      | (none, p) =>
        return (false,
          { p with blockBitmap := p.blockBitmap.set (blockBitmapIdx p blockLba) false },
          dirInode.setSector 12 0)
      | (some lba, p) =>
        assert (blockBitmapIdx p lba ≠ 4294967295)
        let p := bitmapSync p (blockBitmapIdx p lba) .blockBitmap
        let blocks := update blocks 12 lba
        let p := { p with disk := ideWrite p.disk (dirInode.iSectors 12) (tableSector blocks) }
        syncWrite p dirInode lba (setEntry zero 0 e)
    else
      let blocks := update blocks k blockLba
      let p := { p with disk := ideWrite p.disk (dirInode.iSectors 12) (tableSector blocks) }
      syncWrite p dirInode blockLba (setEntry zero 0 e)

/-- Whether block `k` exists and has no free entry. -/
def blockFull (d : Disk) (blocks : ℕ → ℕ) (k : ℕ) : Bool :=
  blocks k ≠ 0 && (freeEntry (ideRead d (blocks k))).isNone

/-- `sync_dir_entry`: the entry goes to the first free place, or to a new block at the first
address that is zero. -/
def syncDirEntry (p : Partition) (dirInode : Inode) (e : DirEntry) :
    Outcome (Bool × Partition × Inode) := do
  assert (dirInode.iSize % 24 = 0)
  let blocks := directBlocks dirInode
  let blockIdx := skipWhile (blockFull p.disk blocks) 140 0
  if blockIdx = 140 then
    return (false, p, dirInode)
  if blocks blockIdx = 0 then
    syncNewBlock p dirInode e blocks blockIdx
  else
    let ioBuf := ideRead p.disk (blocks blockIdx)
    match freeEntry ioBuf with
    | some dirEntryIdx =>
      syncWrite p dirInode (blocks blockIdx) (setEntry ioBuf dirEntryIdx e)
    | none => return (false, p, dirInode)

/-! ## Deleting an entry -/

/-- `"."`. -/
def dot : List UInt8 := [46]

/-- `".."`. -/
def dotDot : List UInt8 := [46, 46]

/-- Entry `j` of a sector is in use and called `"."`. -/
def isDot (sec : Buf) (j : ℕ) : Bool :=
  (getEntry sec j).Live && strEq (window sec (24 * j)) dot

/-- Entry `j` of a sector is in use and called neither `"."` nor `".."`. -/
def isNamed (sec : Buf) (j : ℕ) : Bool :=
  (getEntry sec j).Live && !strEq (window sec (24 * j)) dot && !strEq (window sec (24 * j)) dotDot

/-- The entries of a sector that name inode `inodeNo`. -/
def foundEntries (sec : Buf) (inodeNo : ℕ) : List ℕ :=
  (List.range 21).filter fun j => isNamed sec j && (getEntry sec j).iNo = inodeNo

/-- The number of entries of a sector other than `"."` and `".."`. -/
def dirEntryCnt (sec : Buf) : ℕ := ((List.range 21).filter (isNamed sec)).length

/-- Whether a sector is the first of its directory. -/
def isDirFirstBlock (sec : Buf) : Bool := (List.range 21).any (isDot sec)

/-- Whether block `k` holds no entry for inode `inodeNo`. -/
def blockMisses (d : Disk) (blocks : ℕ → ℕ) (inodeNo k : ℕ) : Bool :=
  blocks k = 0 || (foundEntries (ideRead d (blocks k)) inodeNo).isEmpty

/-- Take entry `j` of block `k` out of its directory. A block other than the first that loses its
last entry is given back. For a block of the indirect table the source then counts the blocks of
the table in a loop that does not advance its index. -/
def removeEntry (p : Partition) (dirInode : Inode) (blocks : ℕ → ℕ) (k j : ℕ) :
    Outcome (Partition × Inode) :=
  let ioBuf := ideRead p.disk (blocks k)
  if dirEntryCnt ioBuf = 1 ∧ isDirFirstBlock ioBuf = false then
    if k < 12 then return (blockBitmapFree p (blocks k), dirInode.setSector k 0)
    else throw .hang
  else
    return ({ p with disk := ideWrite p.disk (blocks k) (clearEntry ioBuf j) }, dirInode)

/-- `delete_dir_entry`. -/
def deleteDirEntry (p : Partition) (dirInode : Inode) (inodeNo : ℕ) :
    Outcome (Bool × Partition × Inode) := do
  let blocks := allBlocks p.disk dirInode
  let blockIdx := skipWhile (blockMisses p.disk blocks inodeNo) 140 0
  if blockIdx = 140 then
    return (false, p, dirInode)
  match foundEntries (ideRead p.disk (blocks blockIdx)) inodeNo with
  | [dirEntryIdx] =>
    let (p, dirInode) ← removeEntry p dirInode blocks blockIdx dirEntryIdx
    assert (24 ≤ dirInode.iSize)
    let dirInode := { dirInode with iSize := dirInode.iSize - 24 }
    let p ← inodeSync p dirInode
    return (true, p, dirInode)
  | _ => throw .assert

/-- `dir_is_empty`: only `"."` and `".."` are left. -/
def dirIsEmpty (dirInode : Inode) : Bool := dirInode.iSize = 48

/-- `dir_remove`, on the addresses of the two inodes. The result of `delete_dir_entry` is not
looked at. -/
def dirRemove (s : FileSys) (parent child : ℕ) : Outcome FileSys := do
  let childInode := s.inodes child
  assert ((List.range 12).all fun k => childInode.iSectors (k + 1) = 0)
  let (_, p, parentInode) ← deleteDirEntry s.part (s.inodes parent) childInode.iNo
  inodeRelease ({ s with part := p }.setInode parent parentInode) childInode.iNo

/-! ## Listing -/

/-- The loop of `dir_read` over the entries of a sector, from entry `j` on. `cur` is
`cur_dir_entry_pos`, which counts the entries in use that have been passed. It returns the entry at
which it stops, and `cur`. -/
def readSector (sec : Buf) (dirPos : ℕ) : (left j cur : ℕ) → Outcome (Option DirEntry × ℕ)
  | 0, _, cur => return (none, cur)
  | left + 1, j, cur =>
    if (getEntry sec j).fType = FileTypes.unknown.code then readSector sec dirPos left (j + 1) cur
    else if cur < dirPos then readSector sec dirPos left (j + 1) (cur + 24)
    else do
      assert (cur = dirPos)
      return (some (getEntry sec j), cur)

/-- The loop of `dir_read` over the blocks, from block `k` on. -/
def readBlocks (d : Disk) (iSize : ℕ) (blocks : ℕ → ℕ) (dirPos : ℕ) :
    (left k cur : ℕ) → Outcome (Option DirEntry)
  | 0, _, _ => return none
  | left + 1, k, cur =>
    if iSize ≤ dirPos then return none
    else if blocks k = 0 then readBlocks d iSize blocks dirPos left (k + 1) cur
    else do
      let (e, cur) ← readSector (ideRead d (blocks k)) dirPos 21 0 cur
      match e with
      | some e => return some e
      | none => readBlocks d iSize blocks dirPos left (k + 1) cur

/-- `dir_read`, at the position `dirPos` of the directory. It returns the entry, `none` for `NULL`,
and the new position. The array of addresses has 140 elements, but without a table only 12 of
them are looked at. -/
def dirRead (d : Disk) (inode : Inode) (dirPos : ℕ) : Outcome (Option DirEntry × ℕ) := do
  let blockCnt := if inode.iSectors 12 ≠ 0 then 140 else 12
  let e ← readBlocks d inode.iSize (allBlocks d inode) dirPos blockCnt 0 0
  return (e, if e.isSome then (dirPos + 24) % 4294967296 else dirPos)

end Gardos.Fs
