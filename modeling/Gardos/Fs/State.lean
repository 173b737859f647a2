import Gardos.Foundations.Bytes
import Gardos.Kernel.Bitmap

/-!
# The state of the file system

The structures of `fs/*.h` and `device/ide.h`, with their layout on disk, and the state that the
functions of `fs/*.c` work on.

A disk is its sectors. `ide_read` and `ide_write` are taken to transfer exactly the sectors they
name, and `sys_malloc` to return zeroed memory; a buffer obtained from it is a `Bytes.Buf`, and
nothing is recorded about the memory behind it. The structs `inode` that live in the kernel heap
and are linked into `open_inodes` are cells of `FileSys.inodes`, named by their address. A cell that
is given back is not handed out again.

`PANIC` and `ASSERT` stop the machine (`Stop.assert`); `ndebug` records whether the assertion of
`bitmap_scan` is compiled out.
-/

namespace Gardos.Fs

open Bytes Outcome Function

/-! ## Disks -/

/-- The content of a disk, sector by sector. The bytes of a sector are those at offsets below
512. -/
abbrev Disk := ℕ → Buf

/-- `ide_read` of one sector. -/
def ideRead (d : Disk) (lba : ℕ) : Buf := d lba

/-- `ide_read` of several sectors. -/
def ideReadMany (d : Disk) (lba : ℕ) : Buf := fun i => d (lba + i / 512) (i % 512)

/-- `ide_write` of one sector. -/
def ideWrite (d : Disk) (lba : ℕ) (buf : Buf) : Disk := update d lba buf

/-- `ide_write` of `secCnt` sectors. -/
def ideWriteMany (d : Disk) (lba : ℕ) (buf : Buf) (secCnt : ℕ) : Disk := fun l =>
  if lba ≤ l ∧ l < lba + secCnt then window buf (512 * (l - lba)) else d l

/-! ## Structures on disk -/

/-- `enum file_types`. -/
inductive FileTypes
  | unknown
  | regular
  | directory
  deriving DecidableEq, Repr

/-- The value of an enumerator. -/
def FileTypes.code : FileTypes → ℕ
  | unknown => 0
  | regular => 1
  | directory => 2

/-- `struct dir_entry`. The type is the word found on disk. -/
structure DirEntry where
  filename : Fin 16 → UInt8
  iNo : ℕ
  fType : ℕ
  deriving DecidableEq

namespace DirEntry

/-- The 24 bytes of an entry. -/
def bytes (e : DirEntry) : Buf := fun i =>
  if h : i < 16 then e.filename ⟨i, h⟩
  else if i < 20 then le32 e.iNo (i - 16)
  else le32 e.fType (i - 20)

/-- The entry whose bytes start a buffer. -/
def ofBytes (b : Buf) : DirEntry where
  filename i := b i
  iNo := getLe32 (window b 16)
  fType := getLe32 (window b 20)

/-- An entry whose words are 32-bit words. -/
def Fits (e : DirEntry) : Prop := e.iNo < 4294967296 ∧ e.fType < 4294967296

/-- An entry in use: its type is not `FT_UNKNOWN`. -/
def Live (e : DirEntry) : Prop := e.fType ≠ FileTypes.unknown.code

instance (e : DirEntry) : Decidable e.Live := inferInstanceAs (Decidable (_ ≠ _))

/-- The name of an entry: the bytes before the first NUL. -/
def name (e : DirEntry) : List UInt8 := (List.ofFn e.filename).takeWhile (· ≠ 0)

end DirEntry

/-- Entry `k` of a directory sector. -/
def getEntry (sec : Buf) (k : ℕ) : DirEntry := DirEntry.ofBytes (window sec (24 * k))

/-- A directory sector with entry `k` overwritten. -/
def setEntry (sec : Buf) (k : ℕ) (e : DirEntry) : Buf :=
  memcpy sec (24 * k) e.bytes 24

/-- A directory sector with the bytes of entry `k` set to zero. -/
def clearEntry (sec : Buf) (k : ℕ) : Buf := memcpy sec (24 * k) zero 24

/-- `struct inode`, less its list node. Entries `0` to `12` of `iSectors` are meaningful.
`iOpenCnts` is a `uint32_t` that is not cut here: a call adds at most a few openers, so that only
a run of hundreds of millions of calls could wrap it. -/
structure Inode where
  iNo : ℕ
  iSize : ℕ
  iOpenCnts : ℕ
  writeDeny : Bool
  iSectors : ℕ → ℕ

namespace Inode

/-- The 76 bytes of an inode, with a cleared list node. -/
def bytes (ino : Inode) : Buf := fun i =>
  if i < 4 then le32 ino.iNo i
  else if i < 8 then le32 ino.iSize (i - 4)
  else if i < 12 then le32 ino.iOpenCnts (i - 8)
  else if i < 16 then le32 (if ino.writeDeny then 1 else 0) (i - 12)
  else if i < 68 then le32 (ino.iSectors ((i - 16) / 4)) ((i - 16) % 4)
  else 0

/-- The inode whose bytes start a buffer. -/
def ofBytes (b : Buf) : Inode where
  iNo := getLe32 b
  iSize := getLe32 (window b 4)
  iOpenCnts := getLe32 (window b 8)
  writeDeny := getLe32 (window b 12) ≠ 0
  iSectors k := if k < 13 then getLe32 (window b (16 + 4 * k)) else 0

/-- An inode whose words are 32-bit words. -/
structure Fits (ino : Inode) : Prop where
  iNo : ino.iNo < 4294967296
  iSize : ino.iSize < 4294967296
  iSectors : ∀ k < 13, ino.iSectors k < 4294967296

end Inode

/-! ## Partitions -/

/-- `struct super_block`, without the padding. -/
structure SuperBlock where
  magic : ℕ
  secCnt : ℕ
  inodeCnt : ℕ
  partLbaBase : ℕ
  blockBitmapLba : ℕ
  blockBitmapSects : ℕ
  inodeBitmapLba : ℕ
  inodeBitmapSects : ℕ
  inodeTableLba : ℕ
  inodeTableSects : ℕ
  dataStartLba : ℕ
  rootInodeNo : ℕ
  dirEntrySize : ℕ

/-- `struct partition`, with the disk it lies on. The list `open_inodes` is a field of `FileSys`. -/
structure Partition where
  startLba : ℕ
  secCnt : ℕ
  sb : SuperBlock
  disk : Disk
  blockBitmap : Bitmap
  inodeBitmap : Bitmap
  ndebug : Bool

/-- `DIV_ROUND_UP`. -/
def divRoundUp (x step : ℕ) : ℕ := (x + step - 1) / step

/-- `free_sects` of `partition_format`: what the boot sector, the super block, the inode bitmap
and the inode table leave of a partition. -/
@[irreducible] def freeSects (secCnt : ℕ) : ℕ := (secCnt + 4294967296 - 611) % 4294967296

/-- `block_bitmap_bit_len` of `partition_format`: the number of data blocks of a partition. -/
def blockBitmapBitLen (secCnt : ℕ) : ℕ := freeSects secCnt - divRoundUp (freeSects secCnt) 4096

/-- `enum bitmap_type`. -/
inductive BitmapType
  | inodeBitmap
  | blockBitmap
  deriving DecidableEq

/-- The regions of a mounted partition follow each other: block bitmap, inode bitmap, inode table
of 608 sectors, data blocks. -/
structure Partition.Layout (p : Partition) : Prop where
  blockBitmap_len : p.blockBitmap.btmpBytesLen = 512 * p.sb.blockBitmapSects
  inodeBitmap_len : p.inodeBitmap.btmpBytesLen = 512 * p.sb.inodeBitmapSects
  inodeBitmap_sects : p.sb.inodeBitmapSects = 1
  blockBitmap_end : p.sb.blockBitmapLba + p.sb.blockBitmapSects ≤ p.sb.inodeBitmapLba
  inodeBitmap_end : p.sb.inodeBitmapLba + p.sb.inodeBitmapSects ≤ p.sb.inodeTableLba
  inodeTable_end : p.sb.inodeTableLba + 608 ≤ p.sb.dataStartLba
  data_end : p.sb.dataStartLba + 4096 * p.sb.blockBitmapSects ≤ 2147483648
  data_start : p.sb.dataStartLba ≤ p.startLba + p.secCnt

/-! ## Open files -/

/-- `struct file`. The inode is the address of its cell, `none` for `NULL`. -/
structure File where
  fdPos : ℕ
  fdFlag : ℕ
  fdInode : Option ℕ

/-- A `struct dir *`: the static `root_dir`, or a struct in the heap with its inode. -/
inductive DirPtr
  | rootDir
  | heap (inode : ℕ)
  deriving DecidableEq

/-- The state of the file system: the mounted partition `cur_part`, the inodes in the kernel heap
(`brk` is the first address never used), the list `open_inodes`, the file table, and the
descriptor tables of the tasks, by pid. -/
structure FileSys where
  part : Partition
  inodes : ℕ → Inode
  brk : ℕ
  openInodes : List ℕ
  rootInode : ℕ
  fileTable : ℕ → File
  fdTable : ℕ → ℕ → ℤ

/-- The inode of a directory. -/
def FileSys.dirInode (s : FileSys) : DirPtr → ℕ
  | .rootDir => s.rootInode
  | .heap q => q

/-- An update keeps what the new value has in common with the old one. -/
theorem apply_update_eq {α β : Type} {f : ℕ → α} {a : ℕ} {b : α} (g : α → β) (h : g b = g (f a))
    (x : ℕ) : g (update f a b x) = g (f x) := by
  by_cases hx : x = a
  · rw [hx, update_self, h]
  · rw [update_of_ne hx]

/-- Overwrite the inode at address `q`. -/
def FileSys.setInode (s : FileSys) (q : ℕ) (ino : Inode) : FileSys :=
  { s with inodes := update s.inodes q ino }

@[simp] theorem FileSys.setInode_inodes_self (s : FileSys) (q : ℕ) (ino : Inode) :
    (s.setInode q ino).inodes q = ino := update_self ..

theorem FileSys.setInode_inodes_of_ne (s : FileSys) {q q' : ℕ} (ino : Inode) (h : q' ≠ q) :
    (s.setInode q ino).inodes q' = s.inodes q' := update_of_ne h _ _

/-! ## Transfers -/

variable {d : Disk} {lba l k j : ℕ} {buf sec : Buf} {e : DirEntry}

@[simp] theorem ideRead_apply (d : Disk) (lba : ℕ) : ideRead d lba = d lba := rfl

@[simp] theorem ideWrite_self (d : Disk) (lba : ℕ) (buf : Buf) : ideWrite d lba buf lba = buf := by
  simp [ideWrite]

theorem ideWrite_of_ne (h : l ≠ lba) : ideWrite d lba buf l = d l := by
  simp [ideWrite, h]

theorem ideWriteMany_of_notMem {n : ℕ} (h : l < lba ∨ lba + n ≤ l) :
    ideWriteMany d lba buf n l = d l := by
  rw [ideWriteMany, if_neg (by omega)]

/-! ## Directory entries in a sector -/

namespace DirEntry

theorem ofBytes_congr {a b : Buf} (h : ∀ i < 24, a i = b i) : ofBytes a = ofBytes b := by
  have h1 : getLe32 (window a 16) = getLe32 (window b 16) :=
    getLe32_congr fun i hi => h _ (by omega)
  have h2 : getLe32 (window a 20) = getLe32 (window b 20) :=
    getLe32_congr fun i hi => h _ (by omega)
  simp only [ofBytes, h1, h2, mk.injEq, and_self, and_true]
  funext i
  exact h i (by have := i.isLt; omega)

theorem ofBytes_bytes {e : DirEntry} (h : e.Fits) : ofBytes e.bytes = e := by
  have h1 : getLe32 (window e.bytes 16) = e.iNo := by
    rw [← getLe32_le32_of_lt h.1]
    refine getLe32_congr fun i hi => ?_
    simp only [window_apply, bytes]
    rw [dif_neg (by omega), if_pos (by omega), Nat.add_sub_cancel_left]
  have h2 : getLe32 (window e.bytes 20) = e.fType := by
    rw [← getLe32_le32_of_lt h.2]
    refine getLe32_congr fun i hi => ?_
    simp only [window_apply, bytes]
    rw [dif_neg (by omega), if_neg (by omega), Nat.add_sub_cancel_left]
  obtain ⟨fn, n, t⟩ := e
  simp only [ofBytes, h1, h2, mk.injEq, and_self, and_true]
  funext i
  simp only [bytes]
  rw [dif_pos i.isLt]

theorem not_live_ofBytes_zero : ¬ (ofBytes zero).Live := by decide

end DirEntry

@[simp] theorem getEntry_setEntry_self (h : e.Fits) :
    getEntry (setEntry sec k e) k = e := by
  rw [← DirEntry.ofBytes_bytes h, getEntry, DirEntry.ofBytes_bytes h]
  refine (DirEntry.ofBytes_congr fun i hi => ?_).trans (DirEntry.ofBytes_bytes h)
  exact memcpy_of_mem hi

theorem getEntry_setEntry_of_ne (h : j ≠ k) : getEntry (setEntry sec k e) j = getEntry sec j := by
  refine DirEntry.ofBytes_congr fun i hi => memcpy_of_notMem ?_
  omega

@[simp] theorem getEntry_clearEntry_self (sec : Buf) (k : ℕ) :
    getEntry (clearEntry sec k) k = DirEntry.ofBytes zero :=
  DirEntry.ofBytes_congr fun _ hi => memcpy_of_mem hi

theorem getEntry_clearEntry_of_ne (h : j ≠ k) : getEntry (clearEntry sec k) j = getEntry sec j := by
  refine DirEntry.ofBytes_congr fun i hi => memcpy_of_notMem ?_
  omega

@[simp] theorem getEntry_zero (k : ℕ) : getEntry zero k = DirEntry.ofBytes zero := rfl

/-! ## Inodes in a buffer -/

namespace Inode

theorem ofBytes_congr {a b : Buf} (h : ∀ i < 76, a i = b i) : ofBytes a = ofBytes b := by
  have hw : ∀ k, k + 4 ≤ 76 → getLe32 (window a k) = getLe32 (window b k) := fun k hk =>
    getLe32_congr fun i hi => h _ (by omega)
  simp only [ofBytes, show getLe32 a = getLe32 b from hw 0 (by omega), hw 4 (by omega),
    hw 8 (by omega), hw 12 (by omega), mk.injEq, true_and]
  funext k
  split
  · exact hw _ (by omega)
  · rfl

variable {ino : Inode} (h : ino.Fits)
include h

theorem iNo_ofBytes_bytes : (ofBytes ino.bytes).iNo = ino.iNo := by
  refine (getLe32_congr fun i hi => ?_).trans (getLe32_le32_of_lt h.iNo)
  simp only [bytes, if_pos hi]

theorem iSize_ofBytes_bytes : (ofBytes ino.bytes).iSize = ino.iSize := by
  refine (getLe32_congr fun i hi => ?_).trans (getLe32_le32_of_lt h.iSize)
  simp only [window_apply, bytes]
  rw [if_neg (by omega), if_pos (by omega), Nat.add_sub_cancel_left]

theorem iSectors_ofBytes_bytes {k : ℕ} (hk : k < 13) :
    (ofBytes ino.bytes).iSectors k = ino.iSectors k := by
  simp only [ofBytes, if_pos hk]
  refine (getLe32_congr fun i hi => ?_).trans (getLe32_le32_of_lt (h.iSectors k hk))
  simp only [window_apply, bytes]
  rw [if_neg (by omega), if_neg (by omega), if_neg (by omega), if_neg (by omega),
    if_pos (by omega), show (16 + 4 * k + i - 16) / 4 = k by omega,
    show (16 + 4 * k + i - 16) % 4 = i by omega]

end Inode

theorem Inode.writeDeny_ofBytes_bytes (ino : Inode) :
    (ofBytes ino.bytes).writeDeny = ino.writeDeny := by
  have : getLe32 (window ino.bytes 12) = if ino.writeDeny then 1 else 0 := by
    refine (getLe32_congr fun i hi => ?_).trans (getLe32_le32_of_lt (by split <;> omega))
    simp only [window_apply, bytes]
    rw [if_neg (by omega), if_neg (by omega), if_neg (by omega), if_pos (by omega),
      Nat.add_sub_cancel_left]
  simp only [ofBytes, this]
  cases ino.writeDeny <;> rfl

end Gardos.Fs
