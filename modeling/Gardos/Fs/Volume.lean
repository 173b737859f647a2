import Gardos.Fs.Inode

/-!
# The volume behind a partition

The functions of `fs/*.c` reach a partition through its two bitmaps, the slots of the inode table
and the data blocks. A `Volume` is these four, without the sectors they are stored in, and
`Partition.vol` reads it off a partition. Each primitive operation is one update of the volume:

* writing a data block is `Volume.write` (`vol_write`);
* changing a bit of a bitmap is `Volume.setUsed` or `Volume.setAllocated`, and writing the bitmap
  to its sectors changes nothing (`vol_bitmapSync_block`, `vol_bitmapSync_inode`);
* `inode_sync` and `inode_delete` are `Volume.setInode` (`vol_inodeSync`, `exists_inodeDelete`);
* allocating a block or an inode number takes one that was free (`blockBitmapAlloc_eq_some`,
  `inodeBitmapAlloc_eq_some`).
-/

namespace Gardos.Fs

open Bytes Outcome Function

/-- What never changes on a mounted partition. -/
structure Geometry where
  startLba : ℕ
  secCnt : ℕ
  sb : SuperBlock
  blockBytes : ℕ
  inodeBytes : ℕ
  ndebug : Bool

/-- A partition as the operations see it. A block or an inode number is in use when its bit in
the bitmap is set. -/
@[ext] structure Volume where
  geometry : Geometry
  used : ℕ → Bool
  allocated : ℕ → Bool
  inode : ℕ → Inode
  data : Disk

namespace Volume

/-- Mark the block at `lba`. -/
def setUsed (v : Volume) (lba : ℕ) (b : Bool) : Volume :=
  { v with used := update v.used lba b }

/-- Mark inode number `n`. -/
def setAllocated (v : Volume) (n : ℕ) (b : Bool) : Volume :=
  { v with allocated := update v.allocated n b }

/-- Overwrite slot `n` of the inode table. -/
def setInode (v : Volume) (n : ℕ) (ino : Inode) : Volume :=
  { v with inode := update v.inode n ino }

/-- Overwrite the block at `lba`. -/
def write (v : Volume) (lba : ℕ) (buf : Buf) : Volume :=
  { v with data := update v.data lba buf }

@[simp] theorem write_data_self (v : Volume) (lba : ℕ) (buf : Buf) :
    (v.write lba buf).data lba = buf := update_self ..

@[simp] theorem setInode_inode_self (v : Volume) (n : ℕ) (ino : Inode) :
    (v.setInode n ino).inode n = ino := update_self ..

theorem setInode_inode_of_ne (v : Volume) {m n : ℕ} (ino : Inode) (h : m ≠ n) :
    (v.setInode n ino).inode m = v.inode m := update_of_ne h _ _

end Volume

/-- The unchanging part of a partition. -/
def Partition.geometry (p : Partition) : Geometry where
  startLba := p.startLba
  secCnt := p.secCnt
  sb := p.sb
  blockBytes := p.blockBitmap.btmpBytesLen
  inodeBytes := p.inodeBitmap.btmpBytesLen
  ndebug := p.ndebug

/-- The volume of a partition. Sectors that hold no data block read as zero. -/
def Partition.vol (p : Partition) : Volume where
  geometry := p.geometry
  used lba := p.sb.dataStartLba ≤ lba && lba - p.sb.dataStartLba < p.blockBitmap.bitLen &&
    p.blockBitmap.bit (lba - p.sb.dataStartLba)
  allocated n := n < 4096 && p.inodeBitmap.bit n
  inode n := if n < 4096 then slot p n else inodeInit n
  data l := if p.sb.dataStartLba ≤ l then p.disk l else zero

namespace Partition

variable {p p' : Partition} {lba l n i b : ℕ}

theorem Layout.of_geometry (hL : p.Layout) (h : p'.geometry = p.geometry) : p'.Layout := by
  obtain ⟨h1, h2, h3, h4, h5, h6⟩ := Geometry.mk.inj h
  obtain ⟨a, b, c, d, e, f, g, k⟩ := hL
  refine ⟨?_, ?_, ?_, ?_, ?_, ?_, ?_, ?_⟩ <;> simp only [h1, h2, h3, h4, h5] <;> assumption

@[simp] theorem vol_geometry (p : Partition) : p.vol.geometry = p.geometry := rfl

theorem used_iff : p.vol.used lba = true ↔ p.sb.dataStartLba ≤ lba ∧
    lba - p.sb.dataStartLba < p.blockBitmap.bitLen ∧
    p.blockBitmap.bit (lba - p.sb.dataStartLba) = true := by
  simp [vol, and_assoc]

theorem dataStart_le_of_used (h : p.vol.used lba = true) : p.sb.dataStartLba ≤ lba :=
  (used_iff.1 h).1

theorem vol_data (h : p.sb.dataStartLba ≤ l) : p.vol.data l = p.disk l := if_pos h

theorem disk_of_used (h : p.vol.used lba = true) : p.disk lba = p.vol.data lba :=
  (vol_data (dataStart_le_of_used h)).symm

theorem vol_inode (h : n < 4096) : p.vol.inode n = slot p n := if_pos h

/-- Two partitions with the same bitmaps, of which the second has been written to outside the
inode table and the data blocks. -/
theorem vol_eq_of_disk {d : Disk} (hL : p.Layout)
    (h : ∀ l, p.sb.inodeTableLba ≤ l → d l = p.disk l) : { p with disk := d }.vol = p.vol := by
  have hend := hL.inodeTable_end
  refine Volume.ext rfl rfl rfl ?_ ?_
  · funext n
    simp only [vol, slot, tableBytes]
    split
    · refine Inode.ofBytes_congr fun i hi => ?_
      simp only [window_apply, ideReadMany]
      rw [h _ (by omega)]
    · rfl
  · funext l
    simp only [vol]
    split
    · exact h l (by omega)
    · rfl

/-! ## Bitmaps -/

theorem vol_bitmapSync_block (hL : p.Layout) (hi : i < p.blockBitmap.bitLen) :
    (bitmapSync p i .blockBitmap).vol = p.vol := by
  have h1 := hL.blockBitmap_len
  have h2 := hL.blockBitmap_end
  have h3 := hL.inodeBitmap_end
  refine vol_eq_of_disk hL fun l hl => ideWrite_of_ne ?_
  simp only [Bitmap.bitLen, h1] at hi
  omega

theorem vol_bitmapSync_inode (hL : p.Layout) (hi : i < 4096) :
    (bitmapSync p i .inodeBitmap).vol = p.vol := by
  have h1 := hL.inodeBitmap_sects
  have h2 := hL.inodeBitmap_end
  refine vol_eq_of_disk hL fun l hl => ideWrite_of_ne ?_
  omega

theorem vol_setBlockBit (hb : b < p.blockBitmap.bitLen) (v : Bool) :
    { p with blockBitmap := p.blockBitmap.set b v }.vol =
      p.vol.setUsed (p.sb.dataStartLba + b) v := by
  refine Volume.ext rfl ?_ rfl rfl rfl
  funext l
  simp only [vol, Volume.setUsed, update_apply, Bitmap.set_bit, Bitmap.set_bitLen]
  by_cases hl : l = p.sb.dataStartLba + b
  · subst hl
    simp [hb]
  · rw [if_neg hl]
    by_cases hs : p.sb.dataStartLba ≤ l
    · rw [if_neg (by omega)]
      rfl
    · simp [hs]

theorem vol_setInodeBit (hn : n < 4096) (v : Bool) :
    { p with inodeBitmap := p.inodeBitmap.set n v }.vol = p.vol.setAllocated n v := by
  refine Volume.ext rfl rfl ?_ rfl rfl
  funext m
  simp only [vol, Volume.setAllocated, update_apply, Bitmap.set_bit]
  by_cases hm : m = n
  · subst hm
    simp [hn]
  · simp [hm]

theorem blockBitmapIdx_add (hL : p.Layout) (hb : b < p.blockBitmap.bitLen) :
    blockBitmapIdx p (p.sb.dataStartLba + b) = b := by
  have h1 := hL.data_end
  have h2 := hL.blockBitmap_len
  simp only [Bitmap.bitLen, h2] at hb
  simp only [blockBitmapIdx]
  omega

theorem blockBitmapIdx_taken (hL : p.Layout) (hb : b < p.blockBitmap.bitLen) :
    blockBitmapIdx { p with blockBitmap := p.blockBitmap.set b true } (p.sb.dataStartLba + b) = b :=
  (blockBitmapIdx_add hL hb :)

/-- Changing a bit and writing it to disk. -/
theorem vol_bitmapSync_setBlockBit (hL : p.Layout) (hb : b < p.blockBitmap.bitLen) (v : Bool) :
    (bitmapSync { p with blockBitmap := p.blockBitmap.set b v } b .blockBitmap).vol =
      p.vol.setUsed (p.sb.dataStartLba + b) v := by
  have hL' : ({ p with blockBitmap := p.blockBitmap.set b v } : Partition).Layout :=
    hL.of_geometry rfl
  rw [vol_bitmapSync_block hL' (by rwa [Bitmap.set_bitLen]), vol_setBlockBit hb]

theorem vol_bitmapSync_setInodeBit (hL : p.Layout) (hn : n < 4096) (v : Bool) :
    (bitmapSync { p with inodeBitmap := p.inodeBitmap.set n v } n .inodeBitmap).vol =
      p.vol.setAllocated n v := by
  have hL' : ({ p with inodeBitmap := p.inodeBitmap.set n v } : Partition).Layout :=
    hL.of_geometry rfl
  rw [vol_bitmapSync_inode hL' hn, vol_setInodeBit hn]

/-- Freeing a block that is in use. -/
theorem vol_blockBitmapFree (hL : p.Layout) (hu : p.vol.used lba = true) :
    (blockBitmapFree p lba).vol = p.vol.setUsed lba false := by
  obtain ⟨h1, h2, -⟩ := used_iff.1 hu
  obtain ⟨b, rfl⟩ := Nat.exists_eq_add_of_le h1
  rw [Nat.add_sub_cancel_left] at h2
  simp only [blockBitmapFree, blockBitmapIdx_add hL h2]
  exact vol_bitmapSync_setBlockBit hL h2 false

/-- A block that `block_bitmap_alloc` hands out was free. -/
theorem blockBitmapAlloc_eq_some (h : blockBitmapAlloc p = .ok (some lba, p')) :
    ∃ b, p.blockBitmap.IsFirstClear b ∧ lba = p.sb.dataStartLba + b ∧
      p' = { p with blockBitmap := p.blockBitmap.set b true } := by
  simp only [blockBitmapAlloc, bind_eq_ok] at h
  obtain ⟨o, ho, h⟩ := h
  cases o with
  | none => simp at h
  | some b =>
    simp only [pure_eq_ok, Prod.mk.injEq, Option.some.injEq] at h
    exact ⟨b, bitmapScan_one_eq_some ho, h.1.symm, h.2.symm⟩

theorem blockBitmapAlloc_of_clear (hi : i < p.blockBitmap.bitLen)
    (hc : p.blockBitmap.bit i = false) : ∃ b, p.blockBitmap.IsFirstClear b ∧
      blockBitmapAlloc p = .ok (some (p.sb.dataStartLba + b),
        { p with blockBitmap := p.blockBitmap.set b true }) := by
  obtain ⟨b, hb, hfirst⟩ := bitmapScan_one_of_clear (d := p.ndebug) hi hc
  refine ⟨b, hfirst, ?_⟩
  simp only [blockBitmapAlloc, hb, bind_eq_ok]
  exact ⟨_, rfl, rfl⟩

theorem blockBitmapAlloc_ne_none (hd : p.ndebug = false) :
    blockBitmapAlloc p ≠ .ok (none, p') := by
  intro h
  simp only [blockBitmapAlloc, bind_eq_ok] at h
  obtain ⟨o, ho, h⟩ := h
  cases o with
  | none => exact bitmapScan_one_ne_none (hd ▸ ho)
  | some b => simp at h

theorem inodeBitmapAlloc_eq_some (h : inodeBitmapAlloc p = .ok (some n, p')) :
    p.inodeBitmap.IsFirstClear n ∧
      p' = { p with inodeBitmap := p.inodeBitmap.set n true } := by
  simp only [inodeBitmapAlloc, bind_eq_ok] at h
  obtain ⟨o, ho, h⟩ := h
  cases o with
  | none => simp at h
  | some b =>
    simp only [pure_eq_ok, Prod.mk.injEq, Option.some.injEq] at h
    obtain ⟨rfl, rfl⟩ := h
    exact ⟨bitmapScan_one_eq_some ho, rfl⟩

/-- The partition after `block_bitmap_alloc` has handed out block `b` and its bit is on disk. -/
def takeBlock (p : Partition) (b : ℕ) : Partition :=
  bitmapSync { p with blockBitmap := p.blockBitmap.set b true } b .blockBitmap

theorem vol_takeBlock (hL : p.Layout) (hb : b < p.blockBitmap.bitLen) :
    (p.takeBlock b).vol = p.vol.setUsed (p.sb.dataStartLba + b) true :=
  vol_bitmapSync_setBlockBit hL hb true

theorem not_used_of_clear (hc : p.blockBitmap.bit b = false) :
    p.vol.used (p.sb.dataStartLba + b) = false := by
  simp [vol, hc]

/-! ## Sectors -/

theorem vol_write (hL : p.Layout) (hl : p.sb.dataStartLba ≤ l) (buf : Buf) :
    { p with disk := ideWrite p.disk l buf }.vol = p.vol.write l buf := by
  have hend := hL.inodeTable_end
  refine Volume.ext rfl rfl rfl ?_ ?_
  · funext n
    simp only [vol, Volume.write, slot, tableBytes]
    split
    · refine Inode.ofBytes_congr fun i hi => ?_
      simp only [window_apply, ideReadMany]
      rw [ideWrite_of_ne (by omega)]
    · rfl
  · funext m
    simp only [vol, Volume.write, update_apply, ideWrite]
    by_cases hm : m = l
    · subst hm
      simp [hl]
    · simp [hm]

theorem vol_patchInode (hL : p.Layout) (hn : n < 4096) (src : Buf) :
    (patchInode p (inodePosition p n) src).vol = p.vol.setInode n (Inode.ofBytes src) := by
  have hend := hL.inodeTable_end
  have hmeta : ∀ q, (patchInode p q src).geometry = p.geometry ∧
      (patchInode p q src).blockBitmap = p.blockBitmap ∧
      (patchInode p q src).inodeBitmap = p.inodeBitmap := by
    intro q
    unfold patchInode
    split <;> exact ⟨rfl, rfl, rfl⟩
  obtain ⟨h1, h2, h3⟩ := hmeta (inodePosition p n)
  refine Volume.ext h1 ?_ ?_ ?_ ?_
  · funext l
    simp only [vol, Volume.setInode, patchInode_sb, h2]
  · funext m
    simp only [vol, Volume.setInode, h3]
  · funext m
    simp only [vol, Volume.setInode, update_apply]
    by_cases hm : m = n
    · subst hm
      simp only [hn, if_true, slot_patchInode_self]
    · simp only [hm, if_false, slot_patchInode_of_ne src hm]
  · funext l
    simp only [vol, Volume.setInode, patchInode_sb]
    split
    · exact patchInode_disk_of_notMem src hn (Or.inr (by omega))
    · rfl

end Partition

/-- An inode as it is read back from the table. -/
def Inode.stored (ino : Inode) : Inode :=
  { ino.pure with iSectors := fun k => if k < 13 then ino.iSectors k else 0 }

theorem Inode.ofBytes_pure_bytes {ino : Inode} (h : ino.Fits) :
    ofBytes ino.pure.bytes = ino.stored := by
  have hs := sameOnDisk_ofBytes_pure h
  have hc : (ofBytes ino.pure.bytes).iOpenCnts = 0 := by
    refine (getLe32_congr fun i hi => ?_).trans (getLe32_le32_of_lt (by omega))
    simp only [window_apply, bytes]
    rw [if_neg (by omega), if_neg (by omega), if_pos (by omega), Nat.add_sub_cancel_left]
    rfl
  have hsec : (ofBytes ino.pure.bytes).iSectors = ino.stored.iSectors := by
    funext k
    by_cases hk : k < 13
    · rw [hs.iSectors k hk]
      simp [stored, hk]
    · simp [stored, ofBytes, hk]
  exact Inode.mk.injEq .. ▸ ⟨hs.iNo, hs.iSize, hc, hs.writeDeny, hsec⟩

namespace Partition

variable {p : Partition}

/-- `inode_sync` stores the inode in slot `i_no % 256`. -/
theorem exists_inodeSync (hL : p.Layout) {ino : Inode} (hf : ino.Fits) :
    ∃ p', inodeSync p ino = .ok p' ∧ p'.vol = p.vol.setInode (ino.iNo % 256) ino.stored := by
  refine ⟨_, inodeSync_eq hL ino, ?_⟩
  rw [vol_patchInode hL (by omega), Inode.ofBytes_pure_bytes hf]

theorem vol_inodeSync (hL : p.Layout) {ino : Inode} (hf : ino.Fits) {p' : Partition}
    (h : inodeSync p ino = .ok p') : p'.vol = p.vol.setInode (ino.iNo % 256) ino.stored := by
  obtain ⟨_, h', hv⟩ := exists_inodeSync hL hf
  rw [h] at h'
  rwa [Except.ok.inj h']

/-- `inode_delete` clears a slot. -/
theorem exists_inodeDelete (hL : p.Layout) {n : ℕ} (hn : n < 4096) :
    ∃ p', inodeDelete p n = .ok p' ∧ p'.vol = p.vol.setInode n (Inode.ofBytes zero) :=
  ⟨_, inodeDelete_eq hL hn, vol_patchInode hL hn zero⟩

end Partition

end Gardos.Fs
