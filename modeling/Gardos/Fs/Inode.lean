import Gardos.Fs.State

/-!
# Inodes (`fs/inode.c`) and the bitmaps of a partition (`fs/file.c`)

Inode `n` occupies the 76 bytes at offset `76 * n` of the inode table, which may lie in two
sectors. `inodeSync` and `inodeDelete` read the sector or the two sectors, overwrite the slot and
write back; on the table as one byte string this is a `memcpy` (`tableBytes_patchInode`).

`inode_sync` keeps the inode number in a `uint8_t`, so it writes to slot `i_no % 256`.
-/

namespace Gardos.Fs

open Bytes Outcome

/-! ## Bitmaps -/

/-- `block_bitmap_alloc`: the address of a free block, marked as used. -/
def blockBitmapAlloc (p : Partition) : Outcome (Option ℕ × Partition) := do
  match ← bitmapScan p.ndebug p.blockBitmap 1 with
  | none => return (none, p)
  | some bitIdx =>
    return (some (p.sb.dataStartLba + bitIdx),
      { p with blockBitmap := p.blockBitmap.set bitIdx true })

/-- `inode_bitmap_alloc`. -/
def inodeBitmapAlloc (p : Partition) : Outcome (Option ℕ × Partition) := do
  match ← bitmapScan p.ndebug p.inodeBitmap 1 with
  | none => return (none, p)
  | some bitIdx => return (some bitIdx, { p with inodeBitmap := p.inodeBitmap.set bitIdx true })

/-- `bitmap_sync`: the sector of a bitmap that holds bit `bitIdx`, written to disk. -/
def bitmapSync (p : Partition) (bitIdx : ℕ) (btmpType : BitmapType) : Partition :=
  let offSec := bitIdx / 4096
  match btmpType with
  | .inodeBitmap =>
    let bitmapOff := window p.inodeBitmap.byte (512 * offSec)
    { p with disk := ideWrite p.disk (p.sb.inodeBitmapLba + offSec) bitmapOff }
  | .blockBitmap =>
    let bitmapOff := window p.blockBitmap.byte (512 * offSec)
    { p with disk := ideWrite p.disk (p.sb.blockBitmapLba + offSec) bitmapOff }

/-- The index in the block bitmap of the block at `lba`, in 32-bit arithmetic. -/
def blockBitmapIdx (p : Partition) (lba : ℕ) : ℕ :=
  (lba + (4294967296 - p.sb.dataStartLba)) % 4294967296

/-- Mark the block at `lba` as free, in memory and on disk. -/
def blockBitmapFree (p : Partition) (lba : ℕ) : Partition :=
  let blockBitmapIdx := blockBitmapIdx p lba
  bitmapSync { p with blockBitmap := p.blockBitmap.set blockBitmapIdx false } blockBitmapIdx
    .blockBitmap

/-! ## Slots of the inode table -/

/-- `struct inode_position`. -/
structure InodePosition where
  twoSec : Bool
  secLba : ℕ
  offSize : ℕ

/-- `inode_locate`. -/
def inodeLocate (p : Partition) (inodeNo : ℕ) : Outcome InodePosition := do
  assert (inodeNo < 4096)
  let offSize := inodeNo * 76
  return {
    twoSec := 512 - offSize % 512 < 76
    secLba := p.sb.inodeTableLba + offSize / 512
    offSize := offSize % 512 }

/-- Read the sectors of a slot of the inode table, overwrite its 76 bytes, and write them back. -/
def patchInode (p : Partition) (pos : InodePosition) (src : Buf) : Partition :=
  if pos.twoSec then
    let inodeBuf := memcpy (ideReadMany p.disk pos.secLba) pos.offSize src 76
    { p with disk := ideWriteMany p.disk pos.secLba inodeBuf 2 }
  else
    let inodeBuf := memcpy (ideRead p.disk pos.secLba) pos.offSize src 76
    { p with disk := ideWrite p.disk pos.secLba inodeBuf }

/-- An inode without the fields that only matter in memory. -/
def Inode.pure (ino : Inode) : Inode := { ino with iOpenCnts := 0, writeDeny := false }

/-- `inode_sync`. The number is cut to a byte. -/
def inodeSync (p : Partition) (inode : Inode) : Outcome Partition := do
  let inodeNo := inode.iNo % 256
  let inodePos ← inodeLocate p inodeNo
  assert (inodePos.secLba ≤ p.startLba + p.secCnt)
  return patchInode p inodePos inode.pure.bytes

/-- `inode_delete`. -/
def inodeDelete (p : Partition) (inodeNo : ℕ) : Outcome Partition := do
  assert (inodeNo < 4096)
  let inodePos ← inodeLocate p inodeNo
  assert (inodePos.secLba ≤ p.startLba + p.secCnt)
  return patchInode p inodePos zero

/-- `inode_init`. -/
def inodeInit (inodeNo : ℕ) : Inode where
  iNo := inodeNo
  iSize := 0
  iOpenCnts := 0
  writeDeny := false
  iSectors _ := 0

/-! ## The inodes in memory -/

/-- The first inode with a number on the list `open_inodes`. -/
def findInode (s : FileSys) (inodeNo : ℕ) : Option ℕ :=
  s.openInodes.find? fun q => (s.inodes q).iNo = inodeNo

/-- `inode_open`: an inode that is on the list is shared; otherwise it is read from the disk into
a new cell, which goes to the front of the list. -/
def inodeOpen (s : FileSys) (inodeNo : ℕ) : Outcome (ℕ × FileSys) := do
  match findInode s inodeNo with
  | some q =>
    let inodeFound := s.inodes q
    return (q, s.setInode q { inodeFound with iOpenCnts := inodeFound.iOpenCnts + 1 })
  | none =>
    let inodePos ← inodeLocate s.part inodeNo
    let inodeBuf :=
      if inodePos.twoSec then ideReadMany s.part.disk inodePos.secLba
      else ideRead s.part.disk inodePos.secLba
    let inodeFound := Inode.ofBytes (window inodeBuf inodePos.offSize)
    return (s.brk, { s.setInode s.brk { inodeFound with iOpenCnts := 1 } with
      brk := s.brk + 1, openInodes := s.brk :: s.openInodes })

/-- `inode_close`: the last user takes the inode off the list. -/
def inodeClose (s : FileSys) (q : ℕ) : FileSys :=
  let inode := s.inodes q
  let s := s.setInode q { inode with iOpenCnts := inode.iOpenCnts - 1 }
  if inode.iOpenCnts = 1 then { s with openInodes := s.openInodes.erase q } else s

/-- The 140 block addresses of a file or directory: twelve direct blocks, then those of the table
at `iSectors 12` if there is one. -/
def allBlocks (d : Disk) (inode : Inode) : ℕ → ℕ := fun k =>
  if k < 12 then inode.iSectors k
  else if inode.iSectors 12 ≠ 0 then
    getLe32 (window (ideRead d (inode.iSectors 12)) (4 * (k - 12)))
  else 0

/-- Give back a block of an inode that is being released. -/
def releaseBlock (p : Partition) (lba : ℕ) : Outcome Partition := do
  assert (0 < blockBitmapIdx p lba)
  return blockBitmapFree p lba

/-- `inode_release`: give back the blocks of an inode and its number, and clear its slot. -/
def inodeRelease (s : FileSys) (inodeNo : ℕ) : Outcome FileSys := do
  let (q, s) ← inodeOpen s inodeNo
  let inodeToDel := s.inodes q
  assert (inodeToDel.iNo = inodeNo)
  let blocks := allBlocks s.part.disk inodeToDel
  let table := inodeToDel.iSectors 12
  let p ← if table ≠ 0 then releaseBlock s.part table else .ok s.part
  let blockCnt := if table ≠ 0 then 140 else 12
  let p ← (List.range blockCnt).foldlM
    (fun p k => if blocks k ≠ 0 then releaseBlock p (blocks k) else .ok p) p
  let p := bitmapSync { p with inodeBitmap := p.inodeBitmap.set inodeNo false } inodeNo .inodeBitmap
  let p ← inodeDelete p inodeNo
  return inodeClose { s with part := p } q

/-! ## The inode table as a byte string -/

/-- The bytes of the inode table. -/
def tableBytes (p : Partition) : Buf := ideReadMany p.disk p.sb.inodeTableLba

/-- The inode in slot `n` of the inode table. -/
def slot (p : Partition) (n : ℕ) : Inode := Inode.ofBytes (window (tableBytes p) (76 * n))

/-- Where `inode_locate` finds an inode. -/
def inodePosition (p : Partition) (n : ℕ) : InodePosition where
  twoSec := 512 - n * 76 % 512 < 76
  secLba := p.sb.inodeTableLba + n * 76 / 512
  offSize := n * 76 % 512

variable {p : Partition} {n m : ℕ} {s : FileSys} {ino : Inode}

theorem inodeLocate_eq (h : n < 4096) : inodeLocate p n = .ok (inodePosition p n) := by
  simp only [inodeLocate, bind_eq_ok, assert_eq_ok, pure_eq_ok]
  exact ⟨(), h, rfl⟩

@[simp] theorem patchInode_sb (p : Partition) (pos : InodePosition) (src : Buf) :
    (patchInode p pos src).sb = p.sb := by
  unfold patchInode
  split <;> rfl

/-- Overwriting a slot is a `memcpy` into the inode table. -/
theorem tableBytes_patchInode (p : Partition) (n : ℕ) (src : Buf) :
    tableBytes (patchInode p (inodePosition p n) src) =
      memcpy (tableBytes p) (76 * n) src 76 := by
  funext i
  simp only [tableBytes, patchInode_sb, ideReadMany, memcpy]
  by_cases htwo : 512 - n * 76 % 512 < 76
  · have hp : (patchInode p (inodePosition p n) src).disk =
        ideWriteMany p.disk (p.sb.inodeTableLba + n * 76 / 512)
          (memcpy (ideReadMany p.disk (p.sb.inodeTableLba + n * 76 / 512)) (n * 76 % 512) src 76)
          2 := by
      simp [patchInode, inodePosition, htwo]
    rw [hp, ideWriteMany]
    by_cases hi : n * 76 / 512 ≤ i / 512 ∧ i / 512 < n * 76 / 512 + 2
    · rw [if_pos (by omega)]
      simp only [window_apply, memcpy, ideReadMany,
        show p.sb.inodeTableLba + i / 512 - (p.sb.inodeTableLba + n * 76 / 512) =
          i / 512 - n * 76 / 512 by omega]
      set o := 512 * (i / 512 - n * 76 / 512) + i % 512
      by_cases hc : 76 * n ≤ i ∧ i < 76 * n + 76
      · rw [if_pos (by omega), if_pos hc, show o - n * 76 % 512 = i - 76 * n by omega]
      · rw [if_neg (by omega), if_neg hc, show o / 512 = i / 512 - n * 76 / 512 by omega,
          show o % 512 = i % 512 by omega,
          show p.sb.inodeTableLba + n * 76 / 512 + (i / 512 - n * 76 / 512) =
            p.sb.inodeTableLba + i / 512 by omega]
    · rw [if_neg (by omega), if_neg (by omega)]
  · have hp : (patchInode p (inodePosition p n) src).disk =
        ideWrite p.disk (p.sb.inodeTableLba + n * 76 / 512)
          (memcpy (p.disk (p.sb.inodeTableLba + n * 76 / 512)) (n * 76 % 512) src 76) := by
      simp [patchInode, inodePosition, htwo]
    rw [hp]
    by_cases hi : i / 512 = n * 76 / 512
    · rw [hi, ideWrite_self, memcpy]
      by_cases hc : 76 * n ≤ i ∧ i < 76 * n + 76
      · rw [if_pos (by omega), if_pos hc, show i % 512 - n * 76 % 512 = i - 76 * n by omega]
      · rw [if_neg (by omega), if_neg hc]
    · rw [ideWrite_of_ne (by omega), if_neg (by omega)]

/-- Overwriting a slot leaves the sectors outside the inode table alone. -/
theorem patchInode_disk_of_notMem {l : ℕ} (src : Buf) (hn : n < 4096)
    (hl : l < p.sb.inodeTableLba ∨ p.sb.inodeTableLba + 608 ≤ l) :
    (patchInode p (inodePosition p n) src).disk l = p.disk l := by
  unfold patchInode
  split
  · rename_i htwo
    simp only [inodePosition, decide_eq_true_eq] at htwo
    exact ideWriteMany_of_notMem (by simp only [inodePosition]; omega)
  · exact ideWrite_of_ne (by simp only [inodePosition]; omega)

/-- What `inode_open` reads from the disk is the slot of the number. -/
theorem ofBytes_read_eq_slot (p : Partition) (n : ℕ) :
    Inode.ofBytes (window (if (inodePosition p n).twoSec
      then ideReadMany p.disk (inodePosition p n).secLba
      else ideRead p.disk (inodePosition p n).secLba) (inodePosition p n).offSize) =
      slot p n := by
  refine Inode.ofBytes_congr fun i hi => ?_
  have hpos : (inodePosition p n).secLba = p.sb.inodeTableLba + n * 76 / 512 := rfl
  have hoff : (inodePosition p n).offSize = n * 76 % 512 := rfl
  by_cases htwo : (inodePosition p n).twoSec = true
  · rw [if_pos htwo]
    simp only [window_apply, tableBytes, ideReadMany, hpos, hoff]
    rw [show p.sb.inodeTableLba + n * 76 / 512 + (n * 76 % 512 + i) / 512 =
      p.sb.inodeTableLba + (76 * n + i) / 512 by omega,
      show (n * 76 % 512 + i) % 512 = (76 * n + i) % 512 by omega]
  · rw [if_neg htwo]
    simp only [inodePosition, decide_eq_true_eq] at htwo
    simp only [window_apply, tableBytes, ideReadMany, ideRead, hpos, hoff]
    rw [show n * 76 / 512 = (76 * n + i) / 512 by omega,
      show n * 76 % 512 + i = (76 * n + i) % 512 by omega]

/-- `inode_sync` overwrites slot `i_no % 256`, and nothing else stops it. -/
theorem inodeSync_eq (hL : p.Layout) (ino : Inode) :
    inodeSync p ino = .ok (patchInode p (inodePosition p (ino.iNo % 256)) ino.pure.bytes) := by
  have hlt : ino.iNo % 256 < 256 := Nat.mod_lt _ (by omega)
  have h1 := hL.inodeTable_end
  have h2 := hL.data_start
  simp only [inodeSync, bind_eq_ok, assert_eq_ok, pure_eq_ok]
  refine ⟨_, inodeLocate_eq (by omega), (), ?_, rfl⟩
  simp only [inodePosition]
  omega

theorem inodeDelete_eq (hL : p.Layout) (hn : n < 4096) :
    inodeDelete p n = .ok (patchInode p (inodePosition p n) zero) := by
  have h1 := hL.inodeTable_end
  have h2 := hL.data_start
  simp only [inodeDelete, bind_eq_ok, assert_eq_ok, pure_eq_ok]
  refine ⟨(), hn, _, inodeLocate_eq hn, (), ?_, rfl⟩
  simp only [inodePosition]
  omega

/-- Slots of different numbers do not overlap. -/
theorem window_tableBytes_patchInode_of_ne (src : Buf) (h : m ≠ n) {i : ℕ} (hi : i < 76) :
    tableBytes (patchInode p (inodePosition p n) src) (76 * m + i) = tableBytes p (76 * m + i) := by
  rw [tableBytes_patchInode]
  exact memcpy_of_notMem (by omega)

theorem slot_patchInode_of_ne (src : Buf) (h : m ≠ n) :
    slot (patchInode p (inodePosition p n) src) m = slot p m :=
  Inode.ofBytes_congr fun _ hi => window_tableBytes_patchInode_of_ne src h hi

theorem slot_patchInode_self (p : Partition) (n : ℕ) (src : Buf) :
    slot (patchInode p (inodePosition p n) src) n = Inode.ofBytes src := by
  refine Inode.ofBytes_congr fun i hi => ?_
  simp only [window_apply, tableBytes_patchInode]
  exact memcpy_of_mem hi

/-! ## Opening an inode -/

/-- The state after an inode that is not on the list has been read from its slot. -/
def loadInode (s : FileSys) (n : ℕ) : FileSys :=
  { s.setInode s.brk { slot s.part n with iOpenCnts := 1 } with
    brk := s.brk + 1, openInodes := s.brk :: s.openInodes }

theorem inodeOpen_of_none (hn : n < 4096) (h : findInode s n = none) :
    inodeOpen s n = .ok (s.brk, loadInode s n) := by
  simp only [inodeOpen, h, bind_eq_ok, inodeLocate_eq hn, pure_eq_ok]
  refine ⟨_, rfl, ?_⟩
  rw [ofBytes_read_eq_slot]
  rfl

/-- The state after an inode on the list has been opened once more. -/
def shareInode (s : FileSys) (q : ℕ) : FileSys :=
  s.setInode q { s.inodes q with iOpenCnts := (s.inodes q).iOpenCnts + 1 }

theorem inodeOpen_of_some {q : ℕ} (h : findInode s n = some q) :
    inodeOpen s n = .ok (q, shareInode s q) := by
  simp only [inodeOpen, h]
  rfl

/-! ## Round trip through the table -/

/-- The fields of an inode that the table keeps, as read back. -/
structure SameOnDisk (ino found : Inode) : Prop where
  iNo : found.iNo = ino.iNo
  iSize : found.iSize = ino.iSize
  iSectors : ∀ k < 13, found.iSectors k = ino.iSectors k
  writeDeny : found.writeDeny = false

/-- After `inode_sync`, `inode_open` of the number returns the inode, and the slots of all other
numbers hold the bytes they held before. -/
def SyncRoundTrip (s : FileSys) (ino : Inode) : Prop :=
  ∃ p', inodeSync s.part ino = .ok p' ∧
    (∃ q s', inodeOpen { s with part := p' } ino.iNo = .ok (q, s') ∧
      SameOnDisk ino (s'.inodes q)) ∧
    ∀ m < 4096, m ≠ ino.iNo → ∀ i < 76, tableBytes p' (76 * m + i) = tableBytes s.part (76 * m + i)

/-- The table holds an inode already, in its own slot and at the number cut to a byte. -/
structure AlreadySynced (p : Partition) (ino : Inode) : Prop where
  cut : ∀ i < 76, tableBytes p (76 * (ino.iNo % 256) + i) = ino.pure.bytes i
  own : SameOnDisk ino (slot p ino.iNo)

theorem Inode.fits_pure (h : ino.Fits) : ino.pure.Fits :=
  ⟨h.iNo, h.iSize, h.iSectors⟩

theorem sameOnDisk_ofBytes_pure (h : ino.Fits) :
    SameOnDisk ino (Inode.ofBytes ino.pure.bytes) where
  iNo := Inode.iNo_ofBytes_bytes (Inode.fits_pure h)
  iSize := Inode.iSize_ofBytes_bytes (Inode.fits_pure h)
  iSectors _ hk := Inode.iSectors_ofBytes_bytes (Inode.fits_pure h) hk
  writeDeny := Inode.writeDeny_ofBytes_bytes _

/-- The inode that `inode_open` returns for a number off the list is the one in its slot. -/
theorem exists_inodeOpen_iff (hn : n < 4096) (h : findInode s n = none) :
    (∃ q s', inodeOpen s n = .ok (q, s') ∧ SameOnDisk ino (s'.inodes q)) ↔
      SameOnDisk ino (slot s.part n) := by
  have hload : (loadInode s n).inodes s.brk = { slot s.part n with iOpenCnts := 1 } := by
    simp [loadInode, FileSys.setInode]
  rw [inodeOpen_of_none hn h]
  constructor
  · rintro ⟨q, s', heq, hs⟩
    obtain ⟨rfl, rfl⟩ := ok_pair heq
    rw [hload] at hs
    exact ⟨hs.1, hs.2, hs.3, hs.4⟩
  · intro hs
    refine ⟨s.brk, loadInode s n, rfl, ?_⟩
    rw [hload]
    exact ⟨hs.1, hs.2, hs.3, hs.4⟩

/-- The round trip in terms of the table alone. -/
theorem syncRoundTrip_iff_slot (hL : s.part.Layout) (hn : ino.iNo < 4096)
    (hc : findInode s ino.iNo = none) :
    SyncRoundTrip s ino ↔
      SameOnDisk ino (slot (patchInode s.part (inodePosition s.part (ino.iNo % 256))
        ino.pure.bytes) ino.iNo) ∧
      ∀ m < 4096, m ≠ ino.iNo → ∀ i < 76,
        tableBytes (patchInode s.part (inodePosition s.part (ino.iNo % 256)) ino.pure.bytes)
          (76 * m + i) = tableBytes s.part (76 * m + i) := by
  simp only [SyncRoundTrip, inodeSync_eq hL, Except.ok.injEq, exists_eq_left']
  have hfind : ∀ p', findInode { s with part := p' } ino.iNo = none := fun _ => hc
  rw [exists_inodeOpen_iff hn (hfind _)]

/-- For a number below 256 the round trip succeeds. -/
theorem syncRoundTrip_of_lt (hL : s.part.Layout) (hfit : ino.Fits) (hn : ino.iNo < 256)
    (hc : findInode s ino.iNo = none) : SyncRoundTrip s ino := by
  rw [syncRoundTrip_iff_slot hL (by omega) hc, Nat.mod_eq_of_lt hn, slot_patchInode_self]
  exact ⟨sameOnDisk_ofBytes_pure hfit, fun m _ hne i hi =>
    window_tableBytes_patchInode_of_ne _ hne hi⟩

/-- For a larger number it needs the table to hold the inode already. -/
theorem syncRoundTrip_iff_of_le (hL : s.part.Layout) (hn : ino.iNo < 4096) (hge : 256 ≤ ino.iNo)
    (hc : findInode s ino.iNo = none) :
    SyncRoundTrip s ino ↔ AlreadySynced s.part ino := by
  have hlt : ino.iNo % 256 < 256 := Nat.mod_lt _ (by omega)
  have hne : ino.iNo ≠ ino.iNo % 256 := by omega
  rw [syncRoundTrip_iff_slot hL hn hc, slot_patchInode_of_ne _ hne]
  constructor
  · rintro ⟨hown, hkept⟩
    refine ⟨fun i hi => ?_, hown⟩
    rw [← hkept _ (by omega) hne.symm i hi, tableBytes_patchInode]
    exact memcpy_of_mem hi
  · rintro ⟨hcut, hown⟩
    refine ⟨hown, fun m _ _ i hi => ?_⟩
    by_cases hm : m = ino.iNo % 256
    · rw [hm, hcut i hi, tableBytes_patchInode]
      exact memcpy_of_mem hi
    · exact window_tableBytes_patchInode_of_ne _ hm hi

/-- **The round trip of an inode through the table** succeeds exactly for the numbers that fit in
a byte, and for inodes that the table happens to hold already, both in their own slot and in the
slot of the number cut to a byte. -/
theorem inodeSync_roundTrip_iff (s : FileSys) (hL : s.part.Layout) (ino : Inode) (hfit : ino.Fits)
    (hn : ino.iNo < 4096) (hc : findInode s ino.iNo = none) :
    SyncRoundTrip s ino ↔ ino.iNo < 256 ∨ AlreadySynced s.part ino := by
  by_cases hlt : ino.iNo < 256
  · exact iff_of_true (syncRoundTrip_of_lt hL hfit hlt hc) (Or.inl hlt)
  · rw [syncRoundTrip_iff_of_le hL hn (not_lt.1 hlt) hc]
    simp [hlt]

/-- A partition of 4000 sectors with an all-zero disk. -/
def blankPartition : Partition where
  startLba := 0
  secCnt := 4000
  sb := {
    magic := 0x19590318
    secCnt := 4000
    inodeCnt := 4096
    partLbaBase := 0
    blockBitmapLba := 2
    blockBitmapSects := 1
    inodeBitmapLba := 3
    inodeBitmapSects := 1
    inodeTableLba := 4
    inodeTableSects := 608
    dataStartLba := 612
    rootInodeNo := 0
    dirEntrySize := 24 }
  disk _ := zero
  blockBitmap := { btmpBytesLen := 512, bit := fun i => i = 0 }
  inodeBitmap := { btmpBytesLen := 512, bit := fun i => i = 0 }
  ndebug := false

theorem blankPartition_layout : blankPartition.Layout := by
  constructor <;> decide

/-- A state on `blankPartition` with nothing open. -/
def blankFs : FileSys where
  part := blankPartition
  inodes _ := inodeInit 0
  brk := 1
  openInodes := []
  rootInode := 0
  fileTable _ := { fdPos := 0, fdFlag := 0, fdInode := none }
  fdTable _ _ := -1

theorem inodeInit_fits (h : n < 4294967296) : (inodeInit n).Fits :=
  ⟨h, by simp [inodeInit], fun _ _ => by simp [inodeInit]⟩

theorem inodeSync_roundTrip_seven : SyncRoundTrip blankFs (inodeInit 7) :=
  (inodeSync_roundTrip_iff blankFs blankPartition_layout (inodeInit 7) (inodeInit_fits (by decide))
    (by decide) rfl).2 (Or.inl (by decide))

/-- Inode 256 is written to slot 0, and its own slot stays empty. -/
theorem not_syncRoundTrip_256 :
    blankFs.part.Layout ∧ (inodeInit 256).Fits ∧ (inodeInit 256).iNo < 4096 ∧
      findInode blankFs (inodeInit 256).iNo = none ∧ ¬ SyncRoundTrip blankFs (inodeInit 256) := by
  refine ⟨blankPartition_layout, inodeInit_fits (by decide), by decide, rfl, fun h => ?_⟩
  have hown := ((syncRoundTrip_iff_of_le blankPartition_layout (by decide) (by decide) rfl).1 h).own
  exact absurd hown.iNo (by decide)

end Gardos.Fs
