import Mathlib.Data.List.GetD
import Gardos.Fs.Lookup

/-!
# Formatting and mounting (`fs/fs.c`)

`partitionFormat` lays an empty file system out on a partition, `mountPartition` reads its super
block and bitmaps back, and `filesysInit` does both for the partition it mounts and opens the root
directory.

The block bitmap is filled up with ones behind its last valid bit, and then the bits of the byte in
which the valid ones end are cleared again, one bit too many and, in a bitmap of fewer than eight
bits, the bit of the root directory with them. With at least eight data blocks, mounting a freshly
formatted partition gives a state that holds the tree with only a root directory
(`freshFs_fsOk`).
-/

namespace Gardos.Fs

open Bytes Outcome Function

/-! ## The super block -/

namespace SuperBlock

/-- The fields in the order of the struct. -/
def words (sb : SuperBlock) : List ℕ :=
  [sb.magic, sb.secCnt, sb.inodeCnt, sb.partLbaBase, sb.blockBitmapLba, sb.blockBitmapSects,
    sb.inodeBitmapLba, sb.inodeBitmapSects, sb.inodeTableLba, sb.inodeTableSects, sb.dataStartLba,
    sb.rootInodeNo, sb.dirEntrySize]

/-- The 512 bytes of a super block. The padding is not set by the source. -/
def bytes (sb : SuperBlock) (pad : Buf) : Buf := fun i =>
  if i < 52 then le32 (sb.words.getD (i / 4) 0) (i % 4) else pad (i - 52)

/-- The super block whose bytes start a buffer. -/
def ofBytes (b : Buf) : SuperBlock where
  magic := getLe32 (window b 0)
  secCnt := getLe32 (window b 4)
  inodeCnt := getLe32 (window b 8)
  partLbaBase := getLe32 (window b 12)
  blockBitmapLba := getLe32 (window b 16)
  blockBitmapSects := getLe32 (window b 20)
  inodeBitmapLba := getLe32 (window b 24)
  inodeBitmapSects := getLe32 (window b 28)
  inodeTableLba := getLe32 (window b 32)
  inodeTableSects := getLe32 (window b 36)
  dataStartLba := getLe32 (window b 40)
  rootInodeNo := getLe32 (window b 44)
  dirEntrySize := getLe32 (window b 48)

theorem getLe32_bytes {sb : SuperBlock} (h : ∀ w ∈ sb.words, w < 4294967296) (pad : Buf) {k : ℕ}
    (hk : k < 13) : getLe32 (window (sb.bytes pad) (4 * k)) = sb.words.getD k 0 := by
  have hlen : k < sb.words.length := hk
  have hmem : sb.words.getD k 0 ∈ sb.words := by
    rw [List.getD_eq_getElem _ _ hlen]
    exact List.getElem_mem hlen
  rw [← getLe32_le32_of_lt (h _ hmem)]
  refine getLe32_congr fun i hi => ?_
  rw [window_apply, bytes, if_pos (by omega), show (4 * k + i) / 4 = k by omega,
    show (4 * k + i) % 4 = i by omega]

/-- A super block read back is the one written. -/
theorem ofBytes_bytes {sb : SuperBlock} (h : ∀ w ∈ sb.words, w < 4294967296) (pad : Buf) :
    ofBytes (sb.bytes pad) = sb := by
  have hw := fun k (hk : k < 13) => getLe32_bytes h pad hk
  obtain ⟨a, b, c, d, e, f, g, i, j, k, l, m, n⟩ := sb
  simp only [ofBytes, mk.injEq]
  exact ⟨hw 0 (by omega), hw 1 (by omega), hw 2 (by omega), hw 3 (by omega), hw 4 (by omega),
    hw 5 (by omega), hw 6 (by omega), hw 7 (by omega), hw 8 (by omega), hw 9 (by omega),
    hw 10 (by omega), hw 11 (by omega), hw 12 (by omega)⟩

end SuperBlock

/-! ## The functions of the source -/

/-- The super block that `partition_format` writes. The bitmap of 4096 inodes takes one sector,
and the table of 4096 inodes of 76 bytes takes 608. -/
def formatSuperBlock (startLba secCnt : ℕ) : SuperBlock :=
  let blockBitmapSects := divRoundUp (blockBitmapBitLen secCnt) 4096
  { magic := 0x19590318
    secCnt := secCnt
    inodeCnt := 4096
    partLbaBase := startLba
    blockBitmapLba := startLba + 2
    blockBitmapSects := blockBitmapSects
    inodeBitmapLba := startLba + 2 + blockBitmapSects
    inodeBitmapSects := 1
    inodeTableLba := startLba + 2 + blockBitmapSects + 1
    inodeTableSects := 608
    dataStartLba := startLba + 2 + blockBitmapSects + 1 + 608
    rootInodeNo := 0
    dirEntrySize := 24 }

/-- The block bitmap that `partition_format` writes for `bitLen` blocks. -/
def formatBlockBitmap (bitLen : ℕ) : Buf :=
  let buf := update zero 0 (zero 0 ||| 1)
  let lastByte := bitLen / 8
  let lastBit := bitLen % 8
  let lastSize := 512 - lastByte % 512
  let buf := memcpy buf lastByte (fun _ => 0xff) lastSize
  (List.range (lastBit + 1)).foldl (fun buf bitIdx =>
    update buf lastByte (buf lastByte &&& ~~~(1 <<< UInt8.ofNat bitIdx))) buf

/-- The inode bitmap that `partition_format` writes. -/
def formatInodeBitmap : Buf := update zero 0 (zero 0 ||| 1)

/-- The inode table that `partition_format` writes: the root directory in slot 0. -/
def formatInodeTable (sb : SuperBlock) : Buf :=
  memcpy zero 0 (Inode.bytes {
    iNo := 0
    iSize := sb.dirEntrySize * 2
    iOpenCnts := 0
    writeDeny := false
    iSectors := fun k => if k = 0 then sb.dataStartLba else 0 }) 76

/-- The first block of the root directory. -/
def formatRootDir : Buf :=
  setEntry (setEntry zero 0 (.ofName dot 0 .directory)) 1 (.ofName dotDot 0 .directory)

/-- `partition_format`. -/
def partitionFormat (startLba secCnt : ℕ) (pad : Buf) (hd : Disk) : Disk :=
  let sb := formatSuperBlock startLba secCnt
  let hd := ideWrite hd (startLba + 1) (sb.bytes pad)
  let hd := ideWriteMany hd sb.blockBitmapLba (formatBlockBitmap (blockBitmapBitLen secCnt))
    sb.blockBitmapSects
  let hd := ideWriteMany hd sb.inodeBitmapLba formatInodeBitmap sb.inodeBitmapSects
  let hd := ideWriteMany hd sb.inodeTableLba (formatInodeTable sb) sb.inodeTableSects
  ideWrite hd sb.dataStartLba formatRootDir

/-- A bitmap whose bytes are those of a buffer. -/
def bitmapOfBytes (len : ℕ) (b : Buf) : Bitmap where
  btmpBytesLen := len
  bit k := (b (k / 8)).toNat.testBit (k % 8)

/-- `mount_partition`. -/
def mountPartition (startLba secCnt : ℕ) (hd : Disk) : Partition :=
  let sb := SuperBlock.ofBytes (ideRead hd (startLba + 1))
  { startLba := startLba
    secCnt := secCnt
    sb := sb
    disk := hd
    blockBitmap := bitmapOfBytes (sb.blockBitmapSects * 512) (ideReadMany hd sb.blockBitmapLba)
    inodeBitmap := bitmapOfBytes (sb.inodeBitmapSects * 512) (ideReadMany hd sb.inodeBitmapLba)
    ndebug := false }

/-- The descriptors that `init_thread` gives to a task. -/
def initFdTable (fd : ℕ) : ℤ := if fd < 3 then fd else -1

/-- `filesys_init`, for the partition that is mounted: a partition without the magic number is
formatted first. -/
def filesysInit (startLba secCnt : ℕ) (pad : Buf) (hd : Disk) : Outcome FileSys := do
  let hd :=
    if (SuperBlock.ofBytes (ideRead hd (startLba + 1))).magic = 0x19590318 then hd
    else partitionFormat startLba secCnt pad hd
  let part := mountPartition startLba secCnt hd
  let s : FileSys := {
    part := part
    inodes := fun _ => inodeInit 0
    brk := 0
    openInodes := []
    rootInode := 0
    fileTable := fun _ => { fdPos := 0, fdFlag := 0, fdInode := none }
    fdTable := fun _ => initFdTable }
  let (root, s) ← inodeOpen s part.sb.rootInodeNo
  return { s with
    rootInode := root
    fileTable := fun i => { s.fileTable i with fdInode := none } }

/-! ## The layout -/

/-- A partition with at least eight data blocks, on a disk of the size that the driver supports
(`max_lba`). -/
structure Formattable (startLba secCnt : ℕ) : Prop where
  blocks : 620 ≤ secCnt
  disk : startLba + secCnt ≤ 163840

section Layout

variable {startLba secCnt : ℕ} (h : Formattable startLba secCnt)

include h

theorem Formattable.freeSects_eq :
    freeSects secCnt = secCnt - 611 := by
  have h1 := h.blocks
  have h2 := h.disk
  unfold freeSects
  omega

theorem Formattable.le_bitLen :
    8 ≤ blockBitmapBitLen secCnt := by
  have h1 := h.blocks
  unfold blockBitmapBitLen divRoundUp
  rw [h.freeSects_eq]
  omega

/-- The bitmap, with its last sector filled up, and what it describes fit into the partition. -/
theorem Formattable.sects :
    blockBitmapBitLen secCnt ≤ 4096 * divRoundUp (blockBitmapBitLen secCnt) 4096 ∧
      4096 * divRoundUp (blockBitmapBitLen secCnt) 4096 < blockBitmapBitLen secCnt + 4096 ∧
      divRoundUp (blockBitmapBitLen secCnt) 4096 + blockBitmapBitLen secCnt + 611 ≤ secCnt := by
  have h1 := h.blocks
  unfold blockBitmapBitLen divRoundUp
  rw [h.freeSects_eq]
  omega

theorem Formattable.words_lt :
    ∀ w ∈ (formatSuperBlock startLba secCnt).words, w < 4294967296 := by
  have h1 := h.blocks
  have h2 := h.disk
  obtain ⟨-, -, h3⟩ := h.sects
  simp only [SuperBlock.words, formatSuperBlock, List.forall_mem_cons, List.not_mem_nil,
    false_imp_iff, implies_true, and_true]
  omega

end Layout

/-! ## The block bitmap -/

/-- A loop that works on one byte of a buffer. -/
theorem foldl_update (f : UInt8 → ℕ → UInt8) (k : ℕ) (l : List ℕ) (buf : Buf) :
    l.foldl (fun buf i => update buf k (f (buf k) i)) buf =
      update buf k (l.foldl f (buf k)) := by
  induction l generalizing buf with
  | nil => rw [List.foldl_nil, List.foldl_nil, update_eq_self]
  | cons i l ih =>
    rw [List.foldl_cons, List.foldl_cons, ih, update_self, update_idem]

/-- The byte in which the valid bits end, after the loop that clears them. -/
theorem testBit_lastByte : ∀ b < 8, ∀ j < 8,
    ((List.range (b + 1)).foldl (fun x i => x &&& ~~~(1 <<< UInt8.ofNat i))
      (0xff : UInt8)).toNat.testBit j = decide (b < j) := by
  decide

theorem testBit_full : ∀ j < 8, (0xff : UInt8).toNat.testBit j = true := by decide

/-- **The block bitmap of a new partition**: the first bit is set for the root directory, and of
the bits behind the valid ones all but one. -/
theorem testBit_formatBlockBitmap {bitLen : ℕ} (h : 8 ≤ bitLen) (k : ℕ) :
    (formatBlockBitmap bitLen (k / 8)).toNat.testBit (k % 8) =
      decide (k = 0 ∨ bitLen < k ∧ k / 8 < bitLen / 8 + (512 - bitLen / 8 % 512)) := by
  have hk : k % 8 < 8 := Nat.mod_lt _ (by omega)
  unfold formatBlockBitmap
  rw [foldl_update fun x i => x &&& ~~~(1 <<< UInt8.ofNat i)]
  by_cases hlast : k / 8 = bitLen / 8
  · rw [hlast, update_self, memcpy, if_pos ⟨le_rfl, by omega⟩,
      testBit_lastByte _ (Nat.mod_lt _ (by omega)) _ hk]
    refine decide_eq_decide.2 ⟨fun hlt => Or.inr ⟨by omega, by omega⟩, ?_⟩
    rintro (rfl | ⟨hlt, -⟩) <;> omega
  · rw [update_of_ne hlast]
    by_cases hmem : bitLen / 8 ≤ k / 8 ∧ k / 8 < bitLen / 8 + (512 - bitLen / 8 % 512)
    · rw [memcpy, if_pos hmem, testBit_full _ hk]
      exact (decide_eq_true (Or.inr ⟨by omega, hmem.2⟩)).symm
    · rw [memcpy, if_neg hmem]
      by_cases h0 : k / 8 = 0
      · rw [h0, update_self]
        have hbit : ∀ j < 8, (zero 0 ||| 1 : UInt8).toNat.testBit j = decide (j = 0) := by decide
        rw [hbit _ hk]
        refine decide_eq_decide.2 ⟨fun hj => Or.inl (by omega), ?_⟩
        rintro (rfl | ⟨hlt, -⟩) <;> omega
      · rw [update_of_ne h0, Bytes.zero_apply]
        refine (Nat.zero_testBit _).trans (decide_eq_false ?_).symm
        rintro (rfl | ⟨hlt, hin⟩)
        · exact h0 rfl
        · exact hmem ⟨by omega, hin⟩

/-! ## The disk -/

section Disk

variable {startLba secCnt : ℕ} {pad : Buf} {hd : Disk}

theorem ideReadMany_of_eq {d : Disk} {lba n : ℕ} {buf : Buf}
    (h : ∀ l, lba ≤ l → l < lba + n → d l = window buf (512 * (l - lba))) {i : ℕ}
    (hi : i < 512 * n) : ideReadMany d lba i = buf i := by
  rw [ideReadMany, h _ (by omega) (by omega), window_apply, Nat.add_sub_cancel_left,
    Nat.div_add_mod]

theorem partitionFormat_super :
    partitionFormat startLba secCnt pad hd (startLba + 1) =
      (formatSuperBlock startLba secCnt).bytes pad := by
  unfold partitionFormat formatSuperBlock
  dsimp only
  rw [ideWrite_of_ne (by omega), ideWriteMany_of_notMem (by omega),
    ideWriteMany_of_notMem (by omega), ideWriteMany_of_notMem (by omega), ideWrite_self]

theorem partitionFormat_blockBitmap {i : ℕ}
    (hi : i < 512 * (formatSuperBlock startLba secCnt).blockBitmapSects) :
    ideReadMany (partitionFormat startLba secCnt pad hd)
      (formatSuperBlock startLba secCnt).blockBitmapLba i =
      formatBlockBitmap (blockBitmapBitLen secCnt) i := by
  refine ideReadMany_of_eq (fun l h1 h2 => ?_) hi
  unfold partitionFormat
  dsimp only [formatSuperBlock] at h1 h2 ⊢
  rw [ideWrite_of_ne (by omega), ideWriteMany_of_notMem (by omega),
    ideWriteMany_of_notMem (by omega), ideWriteMany, if_pos ⟨h1, h2⟩]

theorem partitionFormat_inodeBitmap {i : ℕ} (hi : i < 512) :
    ideReadMany (partitionFormat startLba secCnt pad hd)
      (formatSuperBlock startLba secCnt).inodeBitmapLba i = formatInodeBitmap i := by
  refine ideReadMany_of_eq (n := 1) (fun l h1 h2 => ?_) hi
  unfold partitionFormat
  dsimp only [formatSuperBlock] at h1 h2 ⊢
  rw [ideWrite_of_ne (by omega), ideWriteMany_of_notMem (by omega), ideWriteMany,
    if_pos ⟨h1, h2⟩]

theorem partitionFormat_inodeTable {i : ℕ} (hi : i < 512 * 608) :
    ideReadMany (partitionFormat startLba secCnt pad hd)
      (formatSuperBlock startLba secCnt).inodeTableLba i =
      formatInodeTable (formatSuperBlock startLba secCnt) i := by
  refine ideReadMany_of_eq (fun l h1 h2 => ?_) hi
  unfold partitionFormat
  dsimp only [formatSuperBlock] at h1 h2 ⊢
  rw [ideWrite_of_ne (by omega), ideWriteMany, if_pos ⟨h1, h2⟩]

theorem partitionFormat_rootDir :
    partitionFormat startLba secCnt pad hd (formatSuperBlock startLba secCnt).dataStartLba =
      newDirSector 0 0 := ideWrite_self ..

end Disk

/-! ## The mounted partition -/

section Mount

variable {startLba secCnt : ℕ} {pad : Buf} {hd : Disk}

/-- A partition that has been formatted and mounted. -/
def freshPartition (startLba secCnt : ℕ) (pad : Buf) (hd : Disk) : Partition :=
  mountPartition startLba secCnt (partitionFormat startLba secCnt pad hd)

theorem freshPartition_disk :
    (freshPartition startLba secCnt pad hd).disk = partitionFormat startLba secCnt pad hd := rfl

/-- The entries of the root directory of an empty tree. -/
theorem entries_single : (Tree.single 0 : Tree ℕ (List UInt8)).entries 0 = newEntries 0 0 := by
  have hk : (Tree.single 0 : Tree ℕ (List UInt8)).kind 0 = some .dir := Tree.kind_single_self 0
  funext c
  unfold Tree.entries newEntries stepOf
  by_cases hdot : c = dot
  · rw [if_pos hdot, if_pos hdot, Tree.look_self hk]
    rfl
  · rw [if_neg hdot, if_neg hdot]
    by_cases hdd : c = dotDot
    · rw [if_pos hdd, if_pos hdd, Tree.look_up hk]
      rfl
    · rw [if_neg hdd, if_neg hdd, Tree.look_down hk]
      rfl

/-- A directory in the first block that holds only `"."` and `".."`. -/
theorem dirOk_rootBlock {p : Partition} (hL : p.Layout)
    (hused : p.vol.used p.sb.dataStartLba = true)
    (hdata : p.vol.data p.sb.dataStartLba = newDirSector 0 0) :
    DirOk p.vol (newDirInode 0 p.sb.dataStartLba) (newEntries 0 0) := by
  set ds := p.sb.dataStartLba
  -- the volume is what making a directory in the first block would leave
  have hv : ((p.vol.setUsed ds false).setUsed ds true).write ds (newDirSector 0 0) = p.vol := by
    refine Volume.ext rfl ?_ rfl rfl ?_
    · change update (update p.vol.used ds false) ds true = p.vol.used
      rw [update_idem, ← hused, update_eq_self]
    · change update p.vol.data ds (newDirSector 0 0) = p.vol.data
      rw [← hdata, update_eq_self]
  have ha : (p.vol.setUsed ds false).Addressable := ⟨hL.addressable.pos, hL.addressable.lt⟩
  have hbits := (Partition.used_iff.1 hused).2.1
  have hfree : (p.vol.setUsed ds false).Free ds := by
    refine ⟨le_rfl, ?_, update_self ..⟩
    change ds < p.sb.dataStartLba + p.blockBitmap.bitLen
    omega
  have hdir := dirOk_newDir ha hfree (n := 0) (by omega) (show 0 < 4096 by omega)
  rwa [hv] at hdir

/-- A volume on which only inode 0 is taken, a directory in the first block. -/
theorem represents_single {v : Volume} (halloc : ∀ n, v.allocated n = true ↔ n = 0)
    (hno : (v.inode 0).iNo = 0)
    (hfirst : (v.inode 0).iSectors 0 = v.geometry.sb.dataStartLba)
    (hdir : DirOk v (v.inode 0) (newEntries 0 0))
    (hused : ∀ b < v.geometry.dataEnd, v.used b = true → b = v.geometry.sb.dataStartLba) :
    Represents v (Tree.single 0) := by
  have hown : OwnsBlock v.data (v.inode 0) v.geometry.sb.dataStartLba := by
    have h0 : allBlocks v.data (v.inode 0) 0 = v.geometry.sb.dataStartLba := by
      rw [allBlocks_of_lt (by omega), hfirst]
    rw [← h0]
    exact ownsBlock_allBlocks (by omega) (by rw [h0, ← hfirst]; exact hdir.first)
  have hkind : ∀ n, (Tree.single 0 : Tree ℕ (List UInt8)).kind n ≠ none ↔ n = 0 := fun n =>
    Tree.kind_single
  refine ⟨Tree.wf_single 0, rfl, ⟨fun n hn => ?_, fun n => ?_, fun n hn => ?_, fun n k hn => ?_,
    fun n hn => ?_, fun b hend hb => ⟨0, (hkind 0).2 rfl, hused b hend hb ▸ hown⟩,
    fun m n b hm hn _ _ => ((hkind m).1 hm).trans ((hkind n).1 hn).symm⟩,
    fun d c n hc => absurd hc (Option.some_ne_none n).symm, hfirst⟩
  · rw [(hkind n).1 hn]
    omega
  · rw [halloc, hkind]
  · rw [(hkind n).1 hn]
    exact hno
  · obtain rfl := (hkind n).1 (ne_none_of_eq_some hn)
    rw [Tree.kind_single_self, Option.some.injEq] at hn
    subst hn
    rw [entries_single]
    exact hdir
  · rw [(hkind n).1 hn]
    exact hdir.blocks

variable (h : Formattable startLba secCnt)

include h

theorem freshPartition_sb :
    (freshPartition startLba secCnt pad hd).sb = formatSuperBlock startLba secCnt := by
  unfold freshPartition mountPartition
  dsimp only
  rw [ideRead_apply, partitionFormat_super, SuperBlock.ofBytes_bytes h.words_lt]

theorem freshPartition_blockBitmap :
    (freshPartition startLba secCnt pad hd).blockBitmap =
      bitmapOfBytes ((formatSuperBlock startLba secCnt).blockBitmapSects * 512)
        (ideReadMany (partitionFormat startLba secCnt pad hd)
          (formatSuperBlock startLba secCnt).blockBitmapLba) := by
  unfold freshPartition mountPartition
  dsimp only
  rw [ideRead_apply, partitionFormat_super, SuperBlock.ofBytes_bytes h.words_lt]

theorem freshPartition_inodeBitmap :
    (freshPartition startLba secCnt pad hd).inodeBitmap =
      bitmapOfBytes 512 (ideReadMany (partitionFormat startLba secCnt pad hd)
          (formatSuperBlock startLba secCnt).inodeBitmapLba) := by
  unfold freshPartition mountPartition
  dsimp only
  rw [ideRead_apply, partitionFormat_super, SuperBlock.ofBytes_bytes h.words_lt]
  dsimp only [formatSuperBlock]

theorem freshPartition_layout :
    (freshPartition startLba secCnt pad hd).Layout := by
  have h2 := h.disk
  obtain ⟨-, h3, h4⟩ := h.sects
  refine ⟨?_, ?_, ?_, ?_, ?_, ?_, ?_, ?_⟩ <;>
    simp only [freshPartition_sb h, freshPartition_blockBitmap h, freshPartition_inodeBitmap h,
      bitmapOfBytes, formatSuperBlock]
  · omega
  · omega
  · omega
  · omega
  · omega
  · change _ ≤ startLba + secCnt
    omega

/-- The blocks in use: the first one, and the padding of the bitmap. -/
theorem freshPartition_used (b : ℕ) :
    (freshPartition startLba secCnt pad hd).vol.used b = true ↔
      b = (formatSuperBlock startLba secCnt).dataStartLba ∨
      (freshPartition startLba secCnt pad hd).vol.geometry.dataEnd < b ∧
        b < (formatSuperBlock startLba secCnt).dataStartLba +
          4096 * (formatSuperBlock startLba secCnt).blockBitmapSects := by
  have hL := h.le_bitLen
  obtain ⟨h3, h4, -⟩ := h.sects
  rw [Partition.used_iff, Partition.vol_geometry, Geometry.dataEnd]
  change _ ↔ _ ∨ (freshPartition startLba secCnt pad hd).sb.dataStartLba + _ < b ∧ _
  rw [freshPartition_sb h, freshPartition_blockBitmap h]
  have hsects : (formatSuperBlock startLba secCnt).blockBitmapSects =
      divRoundUp (blockBitmapBitLen secCnt) 4096 := rfl
  rw [← hsects] at h3 h4
  set ds := (formatSuperBlock startLba secCnt).dataStartLba
  change _ ∧ b - ds < 8 * ((formatSuperBlock startLba secCnt).blockBitmapSects * 512) ∧
    (ideReadMany _ _ ((b - ds) / 8)).toNat.testBit ((b - ds) % 8) = _ ↔
      _ ∨ ds + blockBitmapBitLen secCnt < b ∧ _
  have hbit : b - ds < 8 * ((formatSuperBlock startLba secCnt).blockBitmapSects * 512) →
      (ideReadMany (partitionFormat startLba secCnt pad hd)
        (formatSuperBlock startLba secCnt).blockBitmapLba ((b - ds) / 8)).toNat.testBit
          ((b - ds) % 8) = decide (b - ds = 0 ∨ blockBitmapBitLen secCnt < b - ds ∧
            (b - ds) / 8 < blockBitmapBitLen secCnt / 8 +
              (512 - blockBitmapBitLen secCnt / 8 % 512)) := fun hlt => by
    rw [partitionFormat_blockBitmap (by omega), testBit_formatBlockBitmap hL]
  constructor
  · rintro ⟨hle, hlt, hset⟩
    rw [hbit hlt, decide_eq_true_eq] at hset
    omega
  · intro hb
    have hle : ds ≤ b ∧
        b - ds < 8 * ((formatSuperBlock startLba secCnt).blockBitmapSects * 512) := by
      omega
    refine ⟨hle.1, hle.2, ?_⟩
    rw [hbit hle.2, decide_eq_true_eq]
    omega

theorem freshPartition_allocated (n : ℕ) :
    (freshPartition startLba secCnt pad hd).vol.allocated n = true ↔ n = 0 := by
  have hbit : ∀ j < 8, (zero 0 ||| 1 : UInt8).toNat.testBit j = decide (j = 0) := by decide
  have hval : n < 4096 → (freshPartition startLba secCnt pad hd).inodeBitmap.bit n =
      decide (n = 0) := fun hn => by
    rw [freshPartition_inodeBitmap h]
    change (ideReadMany _ _ (n / 8)).toNat.testBit (n % 8) = _
    rw [partitionFormat_inodeBitmap (by omega), formatInodeBitmap]
    by_cases h0 : n / 8 = 0
    · rw [h0, update_self, hbit _ (Nat.mod_lt _ (by omega))]
      exact decide_eq_decide.2 (by omega)
    · rw [update_of_ne h0, Bytes.zero_apply]
      exact (Nat.zero_testBit _).trans (decide_eq_false (by omega)).symm
  change (decide (n < 4096) && (freshPartition startLba secCnt pad hd).inodeBitmap.bit n) = true ↔ _
  constructor
  · intro hn
    obtain ⟨h1, h2⟩ := Bool.and_eq_true_iff.1 hn
    rw [hval (of_decide_eq_true h1)] at h2
    exact of_decide_eq_true h2
  · rintro rfl
    rw [hval (by omega)]
    rfl

/-- Slot 0 of the inode table is the root directory. -/
theorem freshPartition_root :
    ((freshPartition startLba secCnt pad hd).vol.inode 0).Same
      (newDirInode 0 (formatSuperBlock startLba secCnt).dataStartLba) := by
  set sb := formatSuperBlock startLba secCnt with hsb
  set root : Inode := {
    iNo := 0
    iSize := sb.dirEntrySize * 2
    iOpenCnts := 0
    writeDeny := false
    iSectors := fun k => if k = 0 then sb.dataStartLba else 0 } with hroot
  have hds : sb.dataStartLba < 4294967296 := h.words_lt _ (by simp [SuperBlock.words, hsb])
  have hfit : root.Fits := by
    refine ⟨Nat.zero_lt_succ _, show 24 * 2 < 4294967296 by omega, fun k _ => ?_⟩
    simp only [hroot]
    split
    · exact hds
    · exact Nat.zero_lt_succ _
  have hslot : (freshPartition startLba secCnt pad hd).vol.inode 0 = .ofBytes root.bytes := by
    rw [Partition.vol_inode (by omega), slot, tableBytes, freshPartition_sb h]
    refine Inode.ofBytes_congr fun i hi => ?_
    rw [window_apply]
    change ideReadMany (partitionFormat startLba secCnt pad hd) _ _ = _
    rw [partitionFormat_inodeTable (by omega), formatInodeTable, Nat.mul_zero, memcpy_of_mem hi]
  rw [hslot]
  refine ⟨Inode.iNo_ofBytes_bytes hfit, Inode.iSize_ofBytes_bytes hfit, fun k hk => ?_⟩
  rw [Inode.iSectors_ofBytes_bytes hfit hk, newDirInode_iSectors]

theorem freshPartition_dataStart :
    (freshPartition startLba secCnt pad hd).sb.dataStartLba =
      (formatSuperBlock startLba secCnt).dataStartLba :=
  congrArg SuperBlock.dataStartLba (freshPartition_sb h)

/-- The root directory of a new partition is well formed. -/
theorem freshPartition_dirOk :
    DirOk (freshPartition startLba secCnt pad hd).vol
      ((freshPartition startLba secCnt pad hd).vol.inode 0) (newEntries 0 0) := by
  have hsb := @freshPartition_dataStart startLba secCnt pad hd h
  have hdir := dirOk_rootBlock (@freshPartition_layout startLba secCnt pad hd h)
    ((freshPartition_used h _).2 (Or.inl hsb)) (by
      rw [Partition.vol_data le_rfl, hsb, freshPartition_disk, partitionFormat_rootDir])
  rw [hsb] at hdir
  exact hdir.congr rfl rfl (freshPartition_root h)

/-- **A new partition** holds the tree with only a root directory. -/
theorem freshPartition_represents :
    Represents (freshPartition startLba secCnt pad hd).vol (Tree.single 0) := by
  have hroot := @freshPartition_root startLba secCnt pad hd h
  have hsb := @freshPartition_dataStart startLba secCnt pad hd h
  refine represents_single (freshPartition_allocated h) hroot.iNo
    ((hroot.iSectors 0 (by omega)).trans hsb.symm) (freshPartition_dirOk h) fun b hend hb => ?_
  rcases (freshPartition_used h b).1 hb with hb | ⟨hb, -⟩
  · exact hb.trans hsb.symm
  · exact absurd hend (not_lt.2 hb.le)

end Mount

/-! ## The initial state -/

/-- Nobody holds an inode. -/
def noHolders : ℕ → ℕ := fun _ => 0

/-- The state that `filesys_init` leaves when it has formatted the partition. -/
def freshFs (startLba secCnt : ℕ) (pad : Buf) (hd : Disk) : FileSys where
  part := freshPartition startLba secCnt pad hd
  inodes := update (fun _ => inodeInit 0) 0
    { slot (freshPartition startLba secCnt pad hd) 0 with iOpenCnts := 1 }
  brk := 1
  openInodes := [0]
  rootInode := 0
  fileTable _ := { fdPos := 0, fdFlag := 0, fdInode := none }
  fdTable _ := initFdTable

section Init

variable {startLba secCnt : ℕ} {pad : Buf} {hd : Disk}

theorem filesysInit_eq (h : Formattable startLba secCnt)
    (hmagic : (SuperBlock.ofBytes (hd (startLba + 1))).magic ≠ 0x19590318) :
    filesysInit startLba secCnt pad hd = .ok (freshFs startLba secCnt pad hd) := by
  unfold filesysInit
  rw [ideRead_apply, if_neg hmagic]
  dsimp only
  rw [show (mountPartition startLba secCnt (partitionFormat startLba secCnt pad hd)).sb.rootInodeNo
    = 0 from congrArg SuperBlock.rootInodeNo (freshPartition_sb h),
    inodeOpen_of_none (by omega) rfl, ok_bind]
  rfl

/-- **The initial state** holds the tree with only a root directory, and only the root directory is
open. -/
theorem freshFs_fsOk (h : Formattable startLba secCnt) :
    FsOk (freshFs startLba secCnt pad hd) (Tree.single 0) (hold noHolders 0) := by
  have hrep := @freshPartition_represents startLba secCnt pad hd h
  have hroot : (freshFs startLba secCnt pad hd).inodes 0 =
      { slot (freshPartition startLba secCnt pad hd) 0 with iOpenCnts := 1 } := by
    simp only [freshFs, update_self]
  have hslot : slot (freshPartition startLba secCnt pad hd) 0 =
      (freshPartition startLba secCnt pad hd).vol.inode 0 :=
    (Partition.vol_inode (by omega)).symm
  have hno : ((freshFs startLba secCnt pad hd).inodes 0).iNo = 0 := by
    rw [hroot, hslot]
    exact hrep.contents.iNo 0 (Tree.kind_single.2 rfl)
  have hopen : ∀ q, q ∈ (freshFs startLba secCnt pad hd).openInodes ↔ q = 0 := fun q =>
    List.mem_singleton
  refine ⟨freshPartition_layout h, rfl, hrep, ⟨List.nodup_singleton 0, fun q => ?_, fun q hq => ?_,
    fun q hq => ?_, fun q hq q' hq' _ => ?_, fun q hq => ?_, fun q hq => ?_, (hopen 0).2 rfl, hno⟩,
    fun q hq => ?_, fun i q hq => by cases hq⟩
  · rw [hopen, hold_pos]
    exact ⟨Or.inl, fun hq => hq.resolve_right (lt_irrefl 0)⟩
  · rw [(hopen q).1 hq]
    exact Nat.zero_lt_one
  · rw [(hopen q).1 hq, hroot, hold_self]
    rfl
  · rw [(hopen q).1 hq, (hopen q').1 hq']
  · rw [(hopen q).1 hq, hno]
    omega
  · rw [(hopen q).1 hq, hno, hroot, hslot]
    exact ⟨rfl, rfl, fun _ _ => rfl⟩
  · rw [(hopen q).1 hq, hno]
    exact Tree.kind_single.2 rfl

end Init

end Gardos.Fs
