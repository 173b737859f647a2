import Gardos.Fs.Safety

/-!
# The bitmaps in memory and on disk

`bitmap_sync` writes the sector of a bitmap that holds one bit. `Synced` says that the bitmaps in
memory are what mounting the partition would read back, and `SyncStep` is what the functions do that
write to the disk: they leave the inode bitmap alone, and bring every sector of the block bitmap
that they change to the disk.

One allocation is not followed by a `bitmap_sync`: that of the indirect table in `file_write`. The
bit still reaches the disk when the next block, a data block, has its bit in the same sector
(`TableSynced`).

* `synced_of_run`: in every run of admissible calls whose writes are `TableSynced`, the bitmaps on
  disk are those in memory.
* `not_synced_write`: a write for which the table is the last block of a sector of the bitmap.
-/

namespace Gardos

/-- The bits of a byte of a bitmap. -/
theorem Bitmap.testBit_byte (b : Bitmap) (i : ℕ) {j : ℕ} (hj : j < 8) :
    (b.byte i).toNat.testBit j = b.bit (8 * i + j) := by
  have key : ∀ f : Fin 8 → Bool, ∀ j : Fin 8, (UInt8.ofNat ((List.finRange 8).map fun k =>
      if f k then 2 ^ k.val else 0).sum).toNat.testBit j.val = f j := by decide +kernel
  have h := key (fun k => b.bit (8 * i + k.val)) ⟨j, hj⟩
  rw [← h, byte]
  rfl

end Gardos

namespace Gardos.Fs

open Bytes Outcome Function

/-! ## Bitmaps on disk -/

/-- Bit `i` of the bitmap at `lba`, as `mount_partition` reads it. -/
def diskBit (d : Disk) (lba i : ℕ) : Bool := (bitmapOfBytes 0 (ideReadMany d lba)).bit i

/-- The bitmap at `lba` on disk is the one in memory. -/
def OnDisk (d : Disk) (lba : ℕ) (b : Bitmap) : Prop := ∀ i < b.bitLen, diskBit d lba i = b.bit i

/-- The bitmaps in memory are what mounting the partition would read back. -/
structure Synced (p : Partition) : Prop where
  block : OnDisk p.disk p.sb.blockBitmapLba p.blockBitmap
  inode : OnDisk p.disk p.sb.inodeBitmapLba p.inodeBitmap

/-- A partition that has just been mounted. -/
theorem synced_mountPartition (startLba secCnt : ℕ) (hd : Disk) :
    Synced (mountPartition startLba secCnt hd) := ⟨fun _ _ => rfl, fun _ _ => rfl⟩

theorem diskBit_congr {d d' : Disk} {lba i : ℕ} (h : d' (lba + i / 4096) = d (lba + i / 4096)) :
    diskBit d' lba i = diskBit d lba i := by
  simp only [diskBit, bitmapOfBytes, ideReadMany, Nat.div_div_eq_div_mul, Nat.reduceMul, h]

/-- A sector of a bitmap that has been written holds the bits of the bitmap. -/
theorem diskBit_write (d : Disk) (lba : ℕ) (b : Bitmap) {n i : ℕ} (hi : i / 4096 = n) :
    diskBit (ideWrite d (lba + n) (window b.byte (512 * n))) lba i = b.bit i := by
  simp only [diskBit, bitmapOfBytes, ideReadMany, Nat.div_div_eq_div_mul, Nat.reduceMul, hi,
    ideWrite_self, window_apply]
  rw [Bitmap.testBit_byte _ _ (Nat.mod_lt _ (by omega))]
  congr 1
  omega

/-- Writing the sector of bit `n` brings a bitmap to the disk that differed in that sector only. -/
theorem onDisk_write {d : Disk} {lba n : ℕ} {b : Bitmap}
    (h : ∀ i < b.bitLen, i / 4096 ≠ n / 4096 → diskBit d lba i = b.bit i) :
    OnDisk (ideWrite d (lba + n / 4096) (window b.byte (512 * (n / 4096)))) lba b := fun i hi => by
  by_cases hs : i / 4096 = n / 4096
  · exact diskBit_write d lba b hs
  · rw [diskBit_congr (ideWrite_of_ne (by omega)), h i hi hs]

/-! ## What the functions do -/

/-- A partition with assertions on. -/
structure Ready (p : Partition) : Prop where
  layout : p.Layout
  ndebug : p.ndebug = false

/-- From `p` to `p'` the inode bitmap has been left alone, in memory and on disk, and what has
changed of the block bitmap has been written. -/
structure SyncStep (p p' : Partition) : Prop where
  geometry : p'.geometry = p.geometry
  inodeBitmap : p'.inodeBitmap = p.inodeBitmap
  inodeDisk : ∀ l, p.sb.inodeBitmapLba ≤ l → l < p.sb.inodeTableLba → p'.disk l = p.disk l
  block : OnDisk p.disk p.sb.blockBitmapLba p.blockBitmap →
    OnDisk p'.disk p'.sb.blockBitmapLba p'.blockBitmap

namespace SyncStep

variable {p p' p'' : Partition}

theorem refl (p : Partition) : SyncStep p p := ⟨rfl, rfl, fun _ _ _ => rfl, id⟩

theorem sb (h : SyncStep p p') : p'.sb = p.sb := congrArg Geometry.sb h.geometry

theorem trans (h : SyncStep p p') (h' : SyncStep p' p'') : SyncStep p p'' where
  geometry := h'.geometry.trans h.geometry
  inodeBitmap := h'.inodeBitmap.trans h.inodeBitmap
  inodeDisk l h1 h2 := by
    rw [h'.inodeDisk l (by rwa [h.sb]) (by rwa [h.sb]), h.inodeDisk l h1 h2]
  block hp := h'.block (h.block hp)

theorem ready (h : SyncStep p p') (hr : Ready p) : Ready p' :=
  ⟨hr.layout.of_geometry h.geometry, (congrArg Geometry.ndebug h.geometry).trans hr.ndebug⟩

theorem inode (h : SyncStep p p') (hL : p.Layout)
    (hp : OnDisk p.disk p.sb.inodeBitmapLba p.inodeBitmap) :
    OnDisk p'.disk p'.sb.inodeBitmapLba p'.inodeBitmap := fun i hi => by
  rw [h.inodeBitmap] at hi ⊢
  have h1 := hL.inodeBitmap_len
  have h2 := hL.inodeBitmap_end
  have h3 : i < 8 * p.inodeBitmap.btmpBytesLen := hi
  rw [h.sb, diskBit_congr (h.inodeDisk _ (by omega) (by omega)), hp i hi]

theorem synced (h : SyncStep p p') (hL : p.Layout) (hp : Synced p) : Synced p' :=
  ⟨h.block hp.block, h.inode hL hp.inode⟩

end SyncStep

section Primitives

variable {p p' : Partition} {lba : ℕ} {n : ℕ}

/-- A write behind the bitmaps. -/
theorem syncStep_disk (hL : p.Layout) {d : Disk} (h : ∀ l < p.sb.inodeTableLba, d l = p.disk l) :
    SyncStep p { p with disk := d } := by
  have h1 := hL.blockBitmap_len
  have h2 := hL.blockBitmap_end
  have h3 := hL.inodeBitmap_end
  refine ⟨rfl, rfl, fun l _ hl => h l hl, fun hp i hi => ?_⟩
  have h4 : i < 8 * p.blockBitmap.btmpBytesLen := hi
  have h5 : p.sb.blockBitmapLba + i / 4096 < p.sb.inodeTableLba := by omega
  exact (diskBit_congr (h _ h5)).trans (hp i hi)

theorem syncStep_write (hL : p.Layout) (hl : p.sb.dataStartLba ≤ lba) (buf : Buf) :
    SyncStep p { p with disk := ideWrite p.disk lba buf } := by
  have h1 := hL.inodeTable_end
  exact syncStep_disk hL fun l hl' => ideWrite_of_ne (by omega)

theorem syncStep_patchInode (hL : p.Layout) (hn : n < 4096) (src : Buf) :
    SyncStep p (patchInode p (inodePosition p n) src) := by
  have hd : patchInode p (inodePosition p n) src =
      { p with disk := (patchInode p (inodePosition p n) src).disk } := by
    unfold patchInode
    split <;> rfl
  rw [hd]
  exact syncStep_disk hL fun l hl => patchInode_disk_of_notMem src hn (Or.inl hl)

theorem syncStep_inodeSync (hL : p.Layout) {ino : Inode} (h : inodeSync p ino = .ok p') :
    SyncStep p p' := by
  rw [inodeSync_eq hL] at h
  obtain rfl := Except.ok.inj h
  exact syncStep_patchInode hL (by omega) _

theorem syncStep_inodeDelete (hL : p.Layout) (h : inodeDelete p n = .ok p') : SyncStep p p' := by
  unfold inodeDelete at h
  obtain ⟨_, hn, h⟩ := bind_eq_ok.1 h
  have hn := assert_eq_ok.1 hn
  rw [inodeLocate_eq hn, ok_bind] at h
  obtain ⟨_, -, h⟩ := bind_eq_ok.1 h
  obtain rfl := Except.ok.inj h
  exact syncStep_patchInode hL hn _

/-- Changing bits of the block bitmap in one sector, and writing the sector. -/
theorem syncStep_setBits (hL : p.Layout) (hn : n < p.blockBitmap.bitLen) {b : Bitmap}
    (hlen : b.btmpBytesLen = p.blockBitmap.btmpBytesLen)
    (hb : ∀ i, i / 4096 ≠ n / 4096 → b.bit i = p.blockBitmap.bit i) :
    SyncStep p (bitmapSync { p with blockBitmap := b } n .blockBitmap) := by
  have h1 := hL.blockBitmap_len
  have h2 := hL.blockBitmap_end
  have h3 : n < 8 * p.blockBitmap.btmpBytesLen := hn
  refine ⟨?_, rfl, fun l hl _ => ideWrite_of_ne ?_, fun hp => onDisk_write fun i hi hs => ?_⟩
  · change Geometry.mk _ _ _ b.btmpBytesLen _ _ = _
    rw [hlen]
    rfl
  · change l ≠ p.sb.blockBitmapLba + n / 4096
    omega
  · rw [hb i hs]
    refine hp i ?_
    rwa [Bitmap.bitLen, ← hlen]

/-- A block is marked as used or free, and the bit written. -/
theorem syncStep_setBlockBit (hL : p.Layout) (hn : n < p.blockBitmap.bitLen) (v : Bool) :
    SyncStep p (bitmapSync { p with blockBitmap := p.blockBitmap.set n v } n .blockBitmap) :=
  syncStep_setBits hL hn rfl fun i hi => by
    rw [Bitmap.set_bit, if_neg fun h => hi (by rw [h])]

theorem syncStep_alloc (hL : p.Layout) (h : blockBitmapAlloc p = .ok (some lba, p')) :
    SyncStep p (bitmapSync p' (blockBitmapIdx p' lba) .blockBitmap) := by
  obtain ⟨b, hb, rfl, rfl⟩ := Partition.blockBitmapAlloc_eq_some h
  rw [Partition.blockBitmapIdx_taken hL hb.lt]
  exact syncStep_setBlockBit hL hb.lt true

/-- A block of the partition has this address. -/
structure InData (p : Partition) (lba : ℕ) : Prop where
  start : p.sb.dataStartLba ≤ lba
  lt : lba - p.sb.dataStartLba < p.blockBitmap.bitLen

theorem inData_of_used (hu : p.vol.used lba = true) : InData p lba :=
  ⟨(Partition.used_iff.1 hu).1, (Partition.used_iff.1 hu).2.1⟩

theorem InData.of_step (h : InData p lba) (hs : SyncStep p p') : InData p' lba := by
  have hlen : p'.blockBitmap.bitLen = p.blockBitmap.bitLen :=
    congrArg (fun g => 8 * g.blockBytes) hs.geometry
  exact ⟨by rw [hs.sb]; exact h.start, by rw [hs.sb, hlen]; exact h.lt⟩

theorem syncStep_free (hL : p.Layout) (hl : InData p lba) : SyncStep p (blockBitmapFree p lba) := by
  obtain ⟨h1, h2⟩ := hl
  obtain ⟨b, rfl⟩ := Nat.exists_eq_add_of_le h1
  rw [Nat.add_sub_cancel_left] at h2
  unfold blockBitmapFree
  rw [Partition.blockBitmapIdx_add hL h2]
  exact syncStep_setBlockBit hL h2 false

/-- Writing the inode bitmap, which has one sector. -/
theorem synced_syncInode (hL : p.Layout) (hn : n < 4096)
    (hp : OnDisk p.disk p.sb.blockBitmapLba p.blockBitmap) :
    Synced (bitmapSync p n .inodeBitmap) := by
  have h1 := hL.blockBitmap_len
  have h2 := hL.blockBitmap_end
  have h3 := hL.inodeBitmap_len
  have h4 := hL.inodeBitmap_sects
  refine ⟨fun i hi => ?_, onDisk_write fun i hi hs => ?_⟩
  · have h5 : i < 8 * p.blockBitmap.btmpBytesLen := hi
    have h6 : p.sb.blockBitmapLba + i / 4096 ≠ p.sb.inodeBitmapLba + n / 4096 := by omega
    exact (diskBit_congr (ideWrite_of_ne h6)).trans (hp i hi)
  · have h5 : i < 8 * p.inodeBitmap.btmpBytesLen := hi
    omega

/-- A number that is taken and, on failure, given back in memory only. -/
theorem SyncStep.undo {p₁ : Partition}
    (hs : SyncStep { p with inodeBitmap := p.inodeBitmap.set n true } p₁) (hL : p.Layout)
    (hn : p.inodeBitmap.bit n = false) (hp : Synced p) :
    Synced { p₁ with inodeBitmap := p₁.inodeBitmap.set n false } := by
  have hback : (p.inodeBitmap.set n true).set n false = p.inodeBitmap := by
    simp only [Bitmap.set, update_idem]
    rw [← hn, update_eq_self]
  have hstep : SyncStep p { p₁ with inodeBitmap := p.inodeBitmap } := by
    refine ⟨?_, rfl, hs.inodeDisk, hs.block⟩
    have hgeo := hs.geometry
    have hbits : p₁.inodeBitmap.btmpBytesLen = p.inodeBitmap.btmpBytesLen :=
      congrArg Geometry.inodeBytes hgeo
    rw [← show p₁.geometry = p.geometry from hgeo, Partition.geometry, Partition.geometry, hbits]
  rw [hs.inodeBitmap, hback]
  exact hstep.synced hL hp

end Primitives

/-! ## Directories -/

section Directories

variable {p p' : Partition} {ino ino' : Inode} {e : DirEntry} {done : Bool}

theorem dataStart_le_of_alloc {lba : ℕ} (h : blockBitmapAlloc p = .ok (some lba, p')) :
    p.sb.dataStartLba ≤ lba := by
  obtain ⟨b, -, rfl, -⟩ := Partition.blockBitmapAlloc_eq_some h
  exact Nat.le_add_right _ _

/-- A block is taken, and a block written. -/
theorem syncStep_allocWrite (hr : Ready p) {lba l : ℕ}
    (halloc : blockBitmapAlloc p = .ok (some lba, p')) (hl : p.sb.dataStartLba ≤ l) (buf : Buf) :
    SyncStep p { p'.blockSynced lba with disk := ideWrite (p'.blockSynced lba).disk l buf } ∧
      (p'.blockSynced lba).sb = p.sb := by
  have hs := syncStep_alloc hr.layout halloc
  exact ⟨hs.trans (syncStep_write (hs.ready hr).layout (by rwa [hs.sb]) buf), hs.sb⟩

theorem syncStep_syncDirEntry (hr : Ready p) (hB : BlocksOk p.vol ino)
    (h : syncDirEntry p ino e = .ok (done, p', ino')) : SyncStep p p' := by
  cases EntrySynced.of_syncDirEntry h with
  | slot _ hk hne _ =>
    exact syncStep_write hr.layout (Partition.dataStart_le_of_used (iSectors_used hB hk hne)) _
  | block _ _ halloc => exact (syncStep_allocWrite hr halloc (dataStart_le_of_alloc halloc) _).1
  | noBlock _ halloc => exact absurd halloc (Partition.blockBitmapAlloc_ne_none hr.ndebug)
  | table _ halloc halloc₂ =>
    have hs := syncStep_alloc hr.layout halloc
    have ht := dataStart_le_of_alloc halloc
    have hlba := dataStart_le_of_alloc halloc₂
    rw [← hs.sb] at ht
    obtain ⟨hs₂, hsb⟩ := syncStep_allocWrite (hs.ready hr) halloc₂ ht _
    rw [← hsb] at hlba
    exact (hs.trans hs₂).trans (syncStep_write (hs₂.ready (hs.ready hr)).layout hlba _)
  | noTable _ halloc halloc₂ =>
    have hr₁ := (syncStep_alloc hr.layout halloc).ready hr
    exact absurd halloc₂ (Partition.blockBitmapAlloc_ne_none hr₁.ndebug)

theorem syncStep_deleteDirEntry (hr : Ready p) (hB : BlocksOk p.vol ino) {n : ℕ}
    (h : deleteDirEntry p ino n = .ok (done, p', ino')) : SyncStep p p' := by
  unfold deleteDirEntry at h
  dsimp only at h
  generalize hk : skipWhile (blockMisses p.disk (allBlocks p.disk ino) n) 140 0 = k at h
  by_cases h140 : k = 140
  · rw [if_pos h140] at h
    obtain ⟨-, rfl, -⟩ := ok_triple h
    exact SyncStep.refl p
  rw [if_neg h140] at h
  have hlt : k < 140 := by
    have := skipWhile_le (p := blockMisses p.disk (allBlocks p.disk ino) n) (n := 140) (i := 0)
    omega
  -- the block at which the search stops exists
  have hfound : blockMisses p.disk (allBlocks p.disk ino) n k = false := by
    rw [← hk]
    exact skipWhile_fails (by rw [hk]; omega)
  have h0 : allBlocks p.disk ino k ≠ 0 := fun h0 => by
    rw [blockMisses, h0, decide_eq_true rfl, Bool.true_or] at hfound
    exact Bool.noConfusion hfound
  have hused : p.vol.used (allBlocks p.disk ino k) = true := by
    rw [hB.allBlocks_vol] at h0 ⊢
    exact hB.used k hlt h0
  generalize foundEntries (ideRead p.disk (allBlocks p.disk ino k)) n = found at h
  rcases found with _ | ⟨j, _ | ⟨j', rest⟩⟩
  · cases h
  · obtain ⟨⟨p1, ino1⟩, hrem, h⟩ := bind_eq_ok.1 h
    obtain ⟨_, -, h⟩ := bind_eq_ok.1 h
    obtain ⟨p2, hsync, h⟩ := bind_eq_ok.1 h
    obtain ⟨-, rfl, -⟩ := ok_triple h
    have hs : SyncStep p p1 := by
      unfold removeEntry at hrem
      dsimp only at hrem
      split at hrem
      · split at hrem
        · obtain ⟨rfl, -⟩ := ok_pair hrem
          exact syncStep_free hr.layout (inData_of_used hused)
        · cases hrem
      · obtain ⟨rfl, -⟩ := ok_pair hrem
        exact syncStep_write hr.layout (Partition.dataStart_le_of_used hused) _
    exact hs.trans (syncStep_inodeSync (hs.ready hr).layout hsync)
  · cases h

end Directories

/-! ## Making and releasing objects -/

section Objects

variable {s s' : FileSys} {dir : DirPtr} {name : List UInt8} {n : ℕ} {done : Bool}

theorem Synced.mkdirIn (hp : Synced s.part) (hd : DirReady s dir)
    (h : mkdirIn s dir name = .ok (done, s')) : Synced s'.part := by
  unfold Fs.mkdirIn at h
  obtain ⟨⟨o, p1⟩, halloc, h⟩ := bind_eq_ok.1 h
  cases o with
  | none =>
    obtain ⟨rfl, rfl⟩ := ok_pair h
    exact hp
  | some n =>
    obtain ⟨hno, hv1⟩ := vol_inodeBitmapAlloc hd.layout halloc
    obtain ⟨hn, rfl⟩ := Partition.inodeBitmapAlloc_eq_some halloc
    set p1 : Partition := { s.part with inodeBitmap := s.part.inodeBitmap.set n true }
    have hr1 : Ready p1 := ⟨hd.layout.of_geometry rfl, hd.ndebug⟩
    obtain ⟨⟨o2, p2⟩, halloc2, h⟩ := bind_eq_ok.1 h
    cases o2 with
    | none => exact absurd halloc2 (Partition.blockBitmapAlloc_ne_none hr1.ndebug)
    | some lba =>
      obtain ⟨_, -, h⟩ := bind_eq_ok.1 h
      obtain ⟨e, -, h⟩ := bind_eq_ok.1 h
      obtain ⟨⟨ok, p4, ino⟩, hsync, h⟩ := bind_eq_ok.1 h
      -- the block of the new directory, and what is written to it
      have hs2 := syncStep_alloc hr1.layout halloc2
      have hr2 := hs2.ready hr1
      have hlba := dataStart_le_of_alloc halloc2
      rw [← hs2.sb] at hlba
      have hs3 := syncStep_write hr2.layout hlba (newDirSector n (s.inodes (s.dirInode dir)).iNo)
      have hr3 := hs3.ready hr2
      have hv3 := Partition.vol_write hr2.layout hlba
        (newDirSector n (s.inodes (s.dirInode dir)).iNo)
      obtain ⟨hfree, hv2⟩ := exists_takeBlock hr1.layout halloc2
      rw [hv2, hv1] at hv3
      rw [hv1] at hfree
      have hB := (Volume.Extends.newDir (v := s.part.vol) ⟨hfree.1, hfree.2, hfree.3⟩ n
        (s.inodes (s.dirInode dir)).iNo).blocksOk hd.blocks
      have hs4 := syncStep_syncDirEntry hr3 (by rw [hv3]; exact hB) hsync
      have hr4 := hs4.ready hr3
      have hs := (hs2.trans hs3).trans hs4
      cases ok with
      | false =>
        obtain ⟨rfl, rfl⟩ := ok_pair h
        exact hs.undo hd.layout hn.clear hp
      | true =>
        obtain ⟨p5, h5, h⟩ := bind_eq_ok.1 h
        obtain ⟨p6, h6, rfl, rfl⟩ := bind_pair_eq_ok h
        have hs5 := syncStep_inodeSync hr4.layout h5
        have hr5 := hs5.ready hr4
        have hs6 := syncStep_inodeSync hr5.layout h6
        exact synced_syncInode (hs6.ready hr5).layout hno.lt
          (((hs.trans hs5).trans hs6).block hp.block)

theorem Synced.fileCreate (hp : Synced s.part) (hd : DirReady s dir) {pid flag : ℕ} {r : Option ℕ}
    (h : fileCreate s pid dir name flag = .ok (r, s')) : Synced s'.part := by
  have hstep : ∀ {n p1 e done p2 ino}, inodeBitmapAlloc s.part = .ok (some n, p1) →
      syncDirEntry p1 (s.newInodes n (s.dirInode dir)) e = .ok (done, p2, ino) →
      Ready p1 ∧ SyncStep p1 p2 := fun {n} _ _ _ _ _ halloc hsync => by
    obtain ⟨-, hv1⟩ := vol_inodeBitmapAlloc hd.layout halloc
    obtain ⟨-, rfl⟩ := Partition.inodeBitmapAlloc_eq_some halloc
    rw [FileSys.newInodes_of_lt hd.lt_brk] at hsync
    have hr1 : Ready { s.part with inodeBitmap := s.part.inodeBitmap.set n true } :=
      ⟨hd.layout.of_geometry rfl, hd.ndebug⟩
    refine ⟨hr1, syncStep_syncDirEntry hr1 ?_ hsync⟩
    rw [hv1]
    exact (Volume.Extends.setAllocated _ n true).blocksOk hd.blocks
  cases FileCreated.of_fileCreate h with
  | noNumber => exact hp
  | noSlot halloc =>
    obtain ⟨hn, rfl⟩ := Partition.inodeBitmapAlloc_eq_some halloc
    exact (SyncStep.refl _).undo hd.layout hn.clear hp
  | noEntry halloc _ hsync =>
    obtain ⟨-, hs2⟩ := hstep halloc hsync
    obtain ⟨hn, rfl⟩ := Partition.inodeBitmapAlloc_eq_some halloc
    exact hs2.undo hd.layout hn.clear hp
  | created halloc _ _ hsync h3 h4 hinst =>
    obtain ⟨hr1, hs2⟩ := hstep halloc hsync
    obtain ⟨hno, -⟩ := vol_inodeBitmapAlloc hd.layout halloc
    obtain ⟨hn, rfl⟩ := Partition.inodeBitmapAlloc_eq_some halloc
    have hr2 := hs2.ready hr1
    have hs3 := syncStep_inodeSync hr2.layout h3
    have hr3 := hs3.ready hr2
    have hs4 := syncStep_inodeSync hr3.layout h4
    rw [pcbFdInstall_frame hinst.symm]
    exact synced_syncInode (hs4.ready hr3).layout hno.lt
      (((hs2.trans hs3).trans hs4).block hp.block)

theorem syncStep_releaseBlock {p p' : Partition} {lba : ℕ} (hL : p.Layout) (hl : InData p lba)
    (h : releaseBlock p lba = .ok p') : SyncStep p p' := by
  unfold releaseBlock at h
  obtain ⟨_, -, h⟩ := bind_eq_ok.1 h
  obtain rfl := Except.ok.inj h
  exact syncStep_free hL hl

/-- The loop of `inode_release` over the blocks. -/
theorem syncStep_releaseLoop {blocks : ℕ → ℕ} {ks : List ℕ} : ∀ {p p' : Partition}, Ready p →
    (∀ k ∈ ks, blocks k ≠ 0 → InData p (blocks k)) →
    ks.foldlM (fun p k => if blocks k ≠ 0 then releaseBlock p (blocks k) else .ok p) p = .ok p' →
    SyncStep p p' := by
  induction ks with
  | nil =>
    intro p p' _ _ h
    obtain rfl := Except.ok.inj h
    exact SyncStep.refl p
  | cons k ks ih =>
    intro p p' hr hin h
    rw [List.foldlM_cons] at h
    obtain ⟨p1, h1, h⟩ := bind_eq_ok.1 h
    have hs : SyncStep p p1 := by
      split at h1
      · rename_i h0
        exact syncStep_releaseBlock hr.layout (hin k List.mem_cons_self h0) h1
      · obtain rfl := Except.ok.inj h1
        exact SyncStep.refl p
    exact hs.trans (ih (hs.ready hr)
      (fun i hi h0 => (hin i (List.mem_cons_of_mem _ hi) h0).of_step hs) h)

theorem Synced.inodeRelease (hp : Synced s.part) (hr : Ready s.part) (hn : n < 4096) {q : ℕ}
    {s₁ : FileSys} (hopen : inodeOpen s n = .ok (q, s₁)) (hpart : s₁.part = s.part)
    (hB : BlocksOk s.part.vol (s₁.inodes q)) (h : inodeRelease s n = .ok s') :
    Synced s'.part := by
  unfold Fs.inodeRelease at h
  rw [hopen, ok_bind] at h
  dsimp only at h
  obtain ⟨_, -, h⟩ := bind_eq_ok.1 h
  rw [hpart] at h
  generalize hcnt : (if (s₁.inodes q).iSectors 12 ≠ 0 then 140 else 12) = cnt at h
  have hcnt : cnt ≤ 140 := by
    rw [← hcnt]
    split <;> omega
  obtain ⟨p1, hs1, h⟩ : ∃ p1, SyncStep s.part p1 ∧ ((List.range cnt).foldlM
      (fun p k => if allBlocks s.part.disk (s₁.inodes q) k ≠ 0 then
        releaseBlock p (allBlocks s.part.disk (s₁.inodes q) k) else .ok p) p1 >>= fun p =>
      inodeDelete (bitmapSync { p with inodeBitmap := p.inodeBitmap.set n false } n .inodeBitmap)
        n >>= fun p => pure (inodeClose { s₁ with part := p } q)) = .ok s' := by
    by_cases ht : (s₁.inodes q).iSectors 12 ≠ 0
    · rw [if_pos ht] at h
      obtain ⟨p1, h1, h⟩ := bind_eq_ok.1 h
      exact ⟨p1, syncStep_releaseBlock hr.layout (inData_of_used (hB.table_used ht)) h1, h⟩
    · rw [if_neg ht] at h
      exact ⟨s.part, SyncStep.refl _, h⟩
  obtain ⟨p2, h2, h⟩ := bind_eq_ok.1 h
  obtain ⟨p3, h3, h⟩ := bind_eq_ok.1 h
  obtain rfl := Except.ok.inj h
  have hr1 := hs1.ready hr
  have hs2 := syncStep_releaseLoop hr1 (fun k hk h0 => by
    have hk : k < 140 := (List.mem_range.1 hk).trans_le hcnt
    rw [hB.allBlocks_vol] at h0 ⊢
    exact (inData_of_used (hB.used k hk h0)).of_step hs1) h2
  have hr2 := hs2.ready hr1
  have hL : ({ p2 with inodeBitmap := p2.inodeBitmap.set n false } : Partition).Layout :=
    hr2.layout.of_geometry rfl
  have hsync := synced_syncInode hL hn ((hs1.trans hs2).block hp.block)
  have hL' : (bitmapSync { p2 with inodeBitmap := p2.inodeBitmap.set n false } n
      .inodeBitmap).Layout := hL.of_geometry rfl
  have hs3 := syncStep_inodeDelete hL' h3
  have hclose : (inodeClose { s₁ with part := p3 } q).part = p3 := by
    rw [inodeClose_withPart]
  rw [hclose]
  exact hs3.synced hL' hsync

end Objects

/-! ## Writing to a file -/

/-- A write that gives a file its table takes the next two blocks, after the first block of a file
that has none, for the table and for data; their bits lie in the same sector of the bitmap. -/
def TableSynced (p : Partition) (ino : Inode) (count : ℕ) : Prop :=
  ino.iSize / 512 < 12 → 12 ≤ (ino.iSize + count) / 512 →
    let b := if ino.iSectors 0 = 0 then p.blockBitmap.set p.blockBitmap.bitIdxStart true
      else p.blockBitmap
    b.bitIdxStart / 4096 = (b.set b.bitIdxStart true).bitIdxStart / 4096

section Write

variable {p p' : Partition} {ino ino' : Inode} {done : Bool} {blocks blocks' : ℕ → ℕ} {todo k : ℕ}

/-- `block_bitmap_alloc` takes the first clear bit. -/
theorem blockBitmapAlloc_bitIdxStart {lba : ℕ} (h : blockBitmapAlloc p = .ok (some lba, p')) :
    p.blockBitmap.bitIdxStart < p.blockBitmap.bitLen ∧
      lba = p.sb.dataStartLba + p.blockBitmap.bitIdxStart ∧
      p' = { p with blockBitmap := p.blockBitmap.set p.blockBitmap.bitIdxStart true } := by
  obtain ⟨b, hb, rfl, rfl⟩ := Partition.blockBitmapAlloc_eq_some h
  obtain rfl := hb.unique
    (Bitmap.bitIdxStart_isFirstClear (Bitmap.idxByte_lt_of_clear hb.lt hb.clear))
  exact ⟨hb.lt, rfl, rfl⟩

theorem syncStep_firstBlock (hr : Ready p) (h : firstBlock p ino = .ok (done, p', ino')) :
    SyncStep p p' ∧ p'.blockBitmap = if ino.iSectors 0 = 0
      then p.blockBitmap.set p.blockBitmap.bitIdxStart true else p.blockBitmap := by
  unfold firstBlock at h
  by_cases h0 : ino.iSectors 0 = 0
  · rw [if_neg (not_not.2 h0)] at h
    rw [if_pos h0]
    obtain ⟨⟨o, p1⟩, halloc, h⟩ := bind_eq_ok.1 h
    cases o with
    | none => exact absurd halloc (Partition.blockBitmapAlloc_ne_none hr.ndebug)
    | some lba =>
      obtain ⟨_, -, h⟩ := bind_eq_ok.1 h
      obtain ⟨-, rfl, -⟩ := ok_triple h
      refine ⟨syncStep_alloc hr.layout halloc, ?_⟩
      obtain ⟨-, -, rfl⟩ := blockBitmapAlloc_bitIdxStart halloc
      rfl
  · rw [if_pos h0] at h
    rw [if_neg h0]
    obtain ⟨-, rfl, -⟩ := ok_triple h
    exact ⟨SyncStep.refl p, rfl⟩

/-- One round of the loop that allocates blocks. -/
theorem allocBlocks_succ (hr : Ready p)
    (h : allocBlocks p ino blocks (todo + 1) k = .ok (done, p', ino', blocks')) :
    ∃ lba p1 ino1 blocks1, blockBitmapAlloc p = .ok (some lba, p1) ∧
      ino1.iSectors 12 = ino.iSectors 12 ∧
      allocBlocks (bitmapSync p1 (blockBitmapIdx p1 lba) .blockBitmap) ino1 blocks1 todo (k + 1) =
        .ok (done, p', ino', blocks') := by
  rw [allocBlocks] at h
  obtain ⟨⟨o, p1⟩, halloc, h⟩ := bind_eq_ok.1 h
  cases o with
  | none => exact absurd halloc (Partition.blockBitmapAlloc_ne_none hr.ndebug)
  | some lba =>
    dsimp only at h
    split at h
    · rename_i hk
      obtain ⟨_, -, h⟩ := bind_eq_ok.1 h
      refine ⟨lba, p1, _, _, halloc, ?_, h⟩
      rw [setSector_iSectors, if_neg (by omega)]
    · exact ⟨lba, p1, _, _, halloc, rfl, h⟩

theorem syncStep_allocBlocks : ∀ {p : Partition} {ino : Inode} {blocks blocks' : ℕ → ℕ}
    {k : ℕ}, Ready p → allocBlocks p ino blocks todo k = .ok (done, p', ino', blocks') →
    SyncStep p p' ∧ ino'.iSectors 12 = ino.iSectors 12 := by
  induction todo with
  | zero =>
    intro p ino blocks blocks' k _ h
    obtain ⟨-, rfl, rfl, -⟩ := ok_quad h
    exact ⟨SyncStep.refl p, rfl⟩
  | succ todo ih =>
    intro p ino blocks blocks' k hr h
    obtain ⟨lba, p1, ino1, blocks1, halloc, h12, h⟩ := allocBlocks_succ hr h
    have hs := syncStep_alloc hr.layout halloc
    obtain ⟨hs', h12'⟩ := ih (hs.ready hr) h
    exact ⟨hs.trans hs', h12'.trans h12⟩

/-- The table takes a block, and the next block reaches the disk together with it. -/
theorem syncStep_allocTable (hr : Ready p) {t : ℕ} {p1 : Partition}
    (hsector : p.blockBitmap.bitIdxStart / 4096 =
      (p.blockBitmap.set p.blockBitmap.bitIdxStart true).bitIdxStart / 4096)
    (halloc : blockBitmapAlloc p = .ok (some t, p1)) (htodo : 0 < todo)
    (h : allocBlocks p1 ino blocks todo k = .ok (done, p', ino', blocks')) :
    SyncStep p p' ∧ ino'.iSectors 12 = ino.iSectors 12 := by
  obtain ⟨todo, rfl⟩ := Nat.exists_eq_add_of_le' htodo
  obtain ⟨-, -, rfl⟩ := blockBitmapAlloc_bitIdxStart halloc
  set b := p.blockBitmap.bitIdxStart
  set p1 : Partition := { p with blockBitmap := p.blockBitmap.set b true }
  have hr1 : Ready p1 := ⟨hr.layout.of_geometry rfl, hr.ndebug⟩
  obtain ⟨lba, p2, ino1, blocks1, halloc1, h12, h⟩ := allocBlocks_succ hr1 h
  obtain ⟨hlt, rfl, rfl⟩ := blockBitmapAlloc_bitIdxStart halloc1
  set b' := p1.blockBitmap.bitIdxStart
  rw [Partition.blockBitmapIdx_taken hr1.layout hlt] at h
  have hs : SyncStep p (bitmapSync { p1 with blockBitmap := p1.blockBitmap.set b' true } b'
      .blockBitmap) := syncStep_setBits hr.layout hlt rfl fun i hi => by
    have hi' : i / 4096 ≠ b / 4096 := by rwa [hsector]
    rw [Bitmap.set_bit, if_neg fun h => hi (by rw [h])]
    exact (Bitmap.set_bit ..).trans (if_neg fun h => hi' (by rw [h]))
  obtain ⟨hs', h12'⟩ := syncStep_allocBlocks (hs.ready hr) h
  exact ⟨hs.trans hs', h12'.trans h12⟩

theorem syncStep_collectWrite (hr : Ready p) {has will : ℕ}
    (htable : ino.iSectors 12 ≠ 0 → p.sb.dataStartLba ≤ ino.iSectors 12)
    (hsector : has ≤ 12 → 12 < will → p.blockBitmap.bitIdxStart / 4096 =
      (p.blockBitmap.set p.blockBitmap.bitIdxStart true).bitIdxStart / 4096) (hle : has ≤ will)
    (h : collectWrite p ino has will = .ok (done, p', ino', blocks)) : SyncStep p p' := by
  unfold collectWrite at h
  dsimp only at h
  by_cases heq : will = has
  · rw [if_pos heq] at h
    by_cases h12 : has ≤ 12
    · rw [if_pos h12] at h
      obtain ⟨-, rfl, -⟩ := ok_triple h
      exact SyncStep.refl p
    · rw [if_neg h12] at h
      obtain ⟨_, -, h⟩ := bind_eq_ok.1 h
      obtain ⟨-, rfl, -⟩ := ok_triple h
      exact SyncStep.refl p
  rw [if_neg heq] at h
  by_cases hw : will ≤ 12
  · rw [if_pos hw] at h
    obtain ⟨_, -, h⟩ := bind_eq_ok.1 h
    exact (syncStep_allocBlocks hr h).1
  rw [if_neg hw] at h
  by_cases hh : has ≤ 12
  · rw [if_pos hh] at h
    obtain ⟨⟨o, p1⟩, halloc, h⟩ := bind_eq_ok.1 h
    cases o with
    | none => exact absurd halloc (Partition.blockBitmapAlloc_ne_none hr.ndebug)
    | some t =>
      obtain ⟨_, -, h⟩ := bind_eq_ok.1 h
      obtain ⟨⟨ok, p2, ino2, blocks2⟩, hrun, h⟩ := bind_eq_ok.1 h
      obtain ⟨hs, -⟩ := syncStep_allocTable hr (hsector hh (by omega)) halloc (by omega) hrun
      cases ok with
      | false =>
        obtain ⟨-, rfl, -⟩ := ok_triple h
        exact hs
      | true =>
        obtain ⟨-, rfl, -⟩ := ok_triple h
        refine hs.trans (syncStep_write (hs.ready hr).layout ?_ _)
        rw [hs.sb]
        exact dataStart_le_of_alloc halloc
  · rw [if_neg hh] at h
    obtain ⟨_, ht, h⟩ := bind_eq_ok.1 h
    obtain ⟨⟨ok, p2, ino2, blocks2⟩, hrun, h⟩ := bind_eq_ok.1 h
    obtain ⟨hs, h12⟩ := syncStep_allocBlocks hr hrun
    cases ok with
    | false =>
      obtain ⟨-, rfl, -⟩ := ok_triple h
      exact hs
    | true =>
      obtain ⟨-, rfl, -⟩ := ok_triple h
      refine hs.trans (syncStep_write (hs.ready hr).layout ?_ _)
      rw [hs.sb, h12]
      exact htable (assert_eq_ok.1 ht)

theorem syncStep_writeLoop {src : Buf} {fuel : ℕ} :
    ∀ {p : Partition} {ino : Inode} {pos off left : ℕ} {first : Bool}, Ready p →
    ino.iSize + left < 4294967296 →
    (∀ k, ino.iSize / 512 ≤ k → k * 512 < ino.iSize + left → p.sb.dataStartLba ≤ blocks k) →
    SyncStep p (writeLoop blocks src fuel p ino pos off left first).1 := by
  induction fuel with
  | zero => exact fun _ _ _ => SyncStep.refl _
  | succ fuel ih =>
    intro p ino pos off left first hr hlt haddr
    by_cases h0 : left = 0
    · rw [writeLoop, if_pos h0]
      exact SyncStep.refl p
    rw [writeLoop, if_neg h0]
    dsimp only
    generalize hchunk : min left (512 - ino.iSize % 512) = chunk
    have hsec := haddr (ino.iSize / 512) le_rfl (by omega)
    generalize memcpy _ (ino.iSize % 512) (window src off) chunk = sec
    have hs := syncStep_write hr.layout hsec sec
    rw [Nat.mod_eq_of_lt (show ino.iSize + chunk < 4294967296 by omega)]
    refine hs.trans (ih (hs.ready hr) ?_ fun k h1 h2 => haddr k ?_ ?_)
    · change ino.iSize + chunk + (left - chunk) < _
      omega
    · exact le_trans (Nat.div_le_div_right (Nat.le_add_right _ _)) h1
    · change k * 512 < ino.iSize + chunk + (left - chunk) at h2
      omega

/-- **`file_write`** keeps the bitmaps on disk up to date, if the table does not straddle. -/
theorem syncStep_fileWrite (hr : Ready p) (hroot : p.vol.used p.sb.dataStartLba = true)
    (hf : ino.Fits) (hok : FileOk p.vol ino) {file file' : File} {buf : Buf} {count : ℕ}
    {n : Option ℕ} (hroom : WriteRoom p.vol ino count) (hsector : TableSynced p ino count)
    (h : fileWrite p file ino buf count = .ok (n, p', file', ino')) : SyncStep p p' := by
  have hlt := hroom.size
  have hcard := hroom.blocks
  have hmod : (ino.iSize + count) % 4294967296 = ino.iSize + count := Nat.mod_eq_of_lt (by omega)
  -- with room to write, the blocks are found
  obtain ⟨p1, ino1, hfirst, hg1, hH1, hcard1⟩ := exists_firstBlock hr.layout hok hroot fun h0 => by
    rw [blocksHeld, if_pos h0, blockCost] at hcard
    omega
  obtain ⟨hs1, hbits⟩ := syncStep_firstBlock hr hfirst
  have hr1 := hs1.ready hr
  have hsize1 : ino1.iSize = ino.iSize := by rw [hg1.inode]
  have hno1 : ino1.iNo = ino.iNo := by rw [hg1.inode]
  have hf1 : ino1.Fits := hg1.blocks.fits hr1.layout (hno1 ▸ hf.iNo) (hsize1 ▸ hf.iSize)
  obtain ⟨p2, ino2, blocks, hcol, hC⟩ := exists_collectWrite hr1.layout hg1.blocks hf1 hH1 rfl
    (show ino1.iSize / 512 + 1 ≤ (ino.iSize + count) / 512 + 1 by omega) (by omega) (by omega)
  have hs2 : SyncStep p1 p2 := by
    refine syncStep_collectWrite hr1
      (fun ht => Partition.dataStart_le_of_used (hg1.blocks.table_used ht)) (fun h1 h2 => ?_)
      (by omega) hcol
    rw [hbits]
    exact hsector (by omega) (by omega)
  have hr2 := hs2.ready hr1
  have hsize2 : ino2.iSize = ino.iSize := by rw [hC.grows.inode, hsize1]
  have hs3 : SyncStep p2 (writeLoop blocks buf count p2 ino2
      ((ino2.iSize + 4294967295) % 4294967296) 0 count true).1 := by
    refine syncStep_writeLoop hr2 (by omega) fun k h1 h2 => ?_
    rw [hsize2] at h1 h2
    rw [hC.addr k (hsize1 ▸ h1) (by omega)]
    exact Partition.dataStart_le_of_used
      (hC.grows.blocks.used k (by omega) ((hC.iff k (by omega)).2 (by omega)))
  unfold fileWrite at h
  rw [hmod, if_neg (by omega), hfirst, ok_bind] at h
  simp only [Bool.true_eq_false, if_false, hsize1, hmod] at h
  rw [hsize1] at hcol
  rw [assert, if_pos (by omega), ok_bind, hcol, ok_bind] at h
  simp only [Bool.true_eq_false, if_false] at h
  obtain ⟨p4, hsync, h⟩ := bind_eq_ok.1 h
  obtain ⟨-, rfl, -⟩ := ok_triple h
  exact ((hs1.trans hs2).trans hs3).trans (syncStep_inodeSync (hs3.ready hr2).layout
    (inodeSync_of_inodeSyncIn hsync))

end Write

/-! ## Calls -/

section Calls

variable {x x' : FsRun} {s' : FileSys} {t : Tree ℕ (List UInt8)} {leak : List ℕ}
  {path : List UInt8} {uninit : Uninit} {q : ℕ} {done : Bool} {s : FileSys} {r : ℕ → ℕ}

theorem FsOk.ready (h : FsOk s t r) : Ready s.part := ⟨h.layout, h.ndebug⟩

theorem part_dirClose (s : FileSys) (dir : DirPtr) : (dirClose s dir).part = s.part :=
  (cacheStep_dirClose s dir).part

theorem Synced.of_part {p p' : Partition} (h : Synced p) (he : p' = p) : Synced p' := he ▸ h

theorem Synced.sysMkdir (hp : Synced x.fs.part) (h : RunOk x t leak) (hpath : PathArg path)
    (hrun : sysMkdir x.fs uninit path = .ok (done, s')) : Synced s'.part := by
  obtain ⟨record, s₁, hsearch, hs⟩ := h.fs.search hpath uninit
  have hp₁ : Synced s₁.part := hp.of_part hs.step.part
  have hclose : Synced (dirClose s₁ record.parentDir).part := hp₁.of_part (part_dirClose _ _)
  unfold Fs.sysMkdir at hrun
  rw [hsearch, ok_bind] at hrun
  dsimp only at hrun
  split at hrun
  · obtain ⟨-, rfl⟩ := ok_pair hrun
    exact hclose
  obtain ⟨_, -, hrun⟩ := bind_eq_ok.1 hrun
  obtain ⟨_, -, hrun⟩ := bind_eq_ok.1 hrun
  split at hrun
  · obtain ⟨-, rfl⟩ := ok_pair hrun
    exact hclose
  obtain ⟨_, -, hrun⟩ := bind_eq_ok.1 hrun
  obtain ⟨⟨ok, s₂⟩, hmk, -, rfl⟩ := bind_pair_eq_ok hrun
  exact (hp₁.mkdirIn (hs.ok.dirReady (by rw [hs.iNo]; exact hs.kind)) hmk).of_part
    (part_dirClose _ _)

theorem inodeOpen_part {s₁ : FileSys} {n : ℕ} (h : inodeOpen s n = .ok (q, s₁)) :
    s₁.part = s.part :=
  (cacheStep_inodeOpen h).part

theorem Synced.sysOpen (hp : Synced x.fs.part) (h : RunOk x t leak) (hpath : PathArg path)
    {pid flags : ℕ} {fd : Option ℕ}
    (hrun : sysOpen x.fs uninit pid path flags = .ok (fd, s')) : Synced s'.part := by
  cases openRun_of_sysOpen hrun with
  | slash => exact hp
  | refused hsearch =>
    have hs := (h.fs.searched hpath hsearch).2
    exact hp.of_part ((part_dirClose _ _).trans hs.step.part)
  | created _ _ _ hsearch _ _ hcreate =>
    have hs := (h.fs.searched hpath hsearch).2
    exact ((hp.of_part hs.step.part).fileCreate hs.dirReady hcreate).of_part (part_dirClose _ _)
  | opened _ _ hsearch _ _ hopen =>
    have hs := (h.fs.searched hpath hsearch).2
    rcases fileOpen_cases hopen with ⟨-, rfl, -⟩ | ⟨g, q, s₂, hopens⟩
    · exact hp.of_part hs.step.part
    · rw [hopens.state]
      exact hp.of_part ((inodeOpen_part hopens.open_inode).trans hs.step.part)

theorem Synced.sysWrite (hp : Synced x.fs.part) (h : RunOk x t leak) {pid fd count : ℕ} {buf : Buf}
    {n : Option ℕ} (hroom : ∀ q, fdInode x.fs pid fd = some q →
      WriteRoom x.fs.part.vol (x.fs.inodes q) count)
    (hsector : ∀ q, fdInode x.fs pid fd = some q → TableSynced x.fs.part (x.fs.inodes q) count)
    (hrun : sysWrite x.fs pid fd buf count = .ok (n, s')) : Synced s'.part := by
  obtain rfl | ⟨i, q, p, file, ino, hfd, -, rfl, hw⟩ := sysWrite_eq_ok hrun
  · exact hp
  have hslot := h.fdInode_mem hfd
  have hk := h.files q hslot
  have hsame := h.fs.cache.same q (h.mem_open (mem_heldCells_slot hslot))
  have hok : FileOk x.fs.part.vol (x.fs.inodes q) := (h.fs.rep.fileOk hk).congr rfl rfl hsame
  have hsize := (hroom q hfd).size
  have hno := h.small _ (ne_none_of_eq_some hk)
  have hstart : x.fs.part.vol.used x.fs.part.sb.dataStartLba = true :=
    (h.fs.rep.dirOk h.fs.rep.root_kind).blocks.used_of_owns h.fs.rep.owns_start
  exact (syncStep_fileWrite h.fs.ready hstart (hok.blocks.fits h.fs.layout (by omega)
    (by omega)) hok (hroom q hfd) (hsector q hfd) hw).synced h.fs.layout hp

/-- Removing a child: its entry is deleted, and its inode released. -/
theorem FsOk.synced_removeChild {parent d n : ℕ} {c : List UInt8} (h : FsOk s t r)
    (hp : Synced s.part) (hq : parent ∈ s.openInodes) (hd : (s.inodes parent).iNo = d)
    (hlt : d < 256) (hc : t.child d c = some n) (hleaf : ∀ c', t.child n c' = none) {p : Partition}
    {ino : Inode} (hdel : deleteDirEntry s.part (s.inodes parent) n = .ok (done, p, ino))
    (hrel : inodeRelease { s.setInode parent ino with part := p } n = .ok s') :
    Synced s'.part := by
  have hdir := h.rep.wf.child_dir hc
  have hdn : d ≠ n := fun hdn => by rw [hdn, hleaf] at hc; cases hc
  obtain ⟨e, v, ino', p', hrun, -, hrem, hv⟩ := h.exists_deleteDirEntry hq hd hc
  rw [hrun] at hdel
  obtain ⟨-, rfl, rfl⟩ := ok_triple hdel
  have hs := syncStep_deleteDirEntry h.ready (h.dirOk_cell hq (by rwa [hd])).blocks hrun
  have hd' := h.deleted hq hd hlt hc hdn hrem hv
  have hn := h.rep.contents.lt n (h.rep.wf.child_kind hc)
  obtain ⟨q, s₁, hopen, hstep, hc₁, hqn, -⟩ := hd'.cache.exists_inodeOpen hn hd'.iNo
  have hsame := hc₁.same q ((hc₁.mem q).2 (hold_pos.2 (Or.inl rfl)))
  rw [hqn, hstep.part] at hsame
  exact (hs.synced h.layout hp).inodeRelease (hs.ready h.ready) hn hopen hstep.part
    (hd'.blocks.congr rfl (hsame.iSectors 12 (by omega)) fun _ _ =>
      allBlocks_congr hsame.iSectors fun _ => rfl) hrel

theorem Synced.sysUnlink (hp : Synced x.fs.part) (h : RunOk x t leak) (hpath : PathArg path)
    (hrun : sysUnlink x.fs uninit path = .ok (done, s')) : Synced s'.part := by
  cases h.fs.unlinked hpath hrun with
  | refused hs _ => exact hp.of_part hs.part
  | removed hs hf _ hdelete hrelease =>
    obtain ⟨c, hc⟩ := h.fs.exists_child_of_found hpath hf
    have hk := h.fs.kind_of_found hpath hf
    exact (hs.ok.synced_removeChild (hp.of_part hs.step.part) hs.ok.cache.dirInode_mem hs.iNo
      (h.resolve_dir_lt hpath) hc (h.fs.rep.wf.child_eq_none (by rw [hk]; decide)) hdelete
      hrelease).of_part (part_dirClose _ _)

theorem Synced.sysRmdir (hp : Synced x.fs.part) (h : RunOk x t leak) (hpath : PathArg path)
    (hlast : (components path).getLast? ≠ some dot)
    (hrun : sysRmdir x.fs uninit path = .ok (done, s')) : Synced s'.part := by
  cases h.fs.rmdirEnds hpath hrun with
  | refused hs _ _ => exact hp.of_part hs.part
  | removed hs hstep h₂ hf hn0 hempty hdelete hrelease =>
    have hleaf := h.fs.rep.child_eq_none (h.fs.kind_of_found hpath hf) (of_decide_eq_true hempty)
    obtain ⟨c, hc⟩ := h.fs.child_of_empty hpath hn0 hlast hf hleaf
    obtain ⟨hmem, hpno⟩ := hs.parent_open hstep h₂
    exact (h₂.synced_removeChild (hp.of_part (hs.step.trans hstep).part) hmem hpno
      (h.resolve_dir_lt hpath) hc hleaf hdelete hrelease).of_part
      ((part_dirClose _ _).trans (part_dirClose _ _))

/-- A write that gives a file its table finds the table and the next block in one sector. -/
def KeepsSync (x : FsRun) : Call → Prop
  | .write pid fd _ count => ∀ q, fdInode x.fs pid fd = some q →
      TableSynced x.fs.part (x.fs.inodes q) count
  | _ => True

/-- **One call** leaves the bitmaps on disk as they are in memory. -/
theorem Synced.step (hp : Synced x.fs.part) (h : RunOk x t leak) {c : Call} (hc : Admissible x c)
    (hsync : KeepsSync x c) (hrun : exec uninit x c = .ok (done, x')) : Synced x'.fs.part := by
  cases c with
  | «open» pid path flags =>
    obtain ⟨⟨fd, s'⟩, hcall, -, rfl⟩ := bind_pair_eq_ok hrun
    exact hp.sysOpen h hc.1 hcall
  | close pid fd =>
    obtain ⟨⟨_, s'⟩, hcall, -, rfl⟩ := bind_pair_eq_ok hrun
    rcases sysClose_cases h.flags hcall with ⟨-, rfl⟩ | ⟨-, -, i, q, hclose⟩
    · exact hp
    · rw [hclose.state]
      exact hp.of_part (cacheStep_inodeClose _ _).part
  | write pid fd buf count =>
    obtain ⟨⟨_, s'⟩, hcall, -, rfl⟩ := bind_pair_eq_ok hrun
    exact hp.sysWrite h hc hsync hcall
  | read pid fd count =>
    obtain ⟨⟨_, _, s'⟩, hcall, -, rfl⟩ := bind_pair_eq_ok hrun
    obtain ⟨i, q, file, -, rfl, -⟩ := sysRead_eq_ok hcall
    exact hp
  | unlink path =>
    obtain ⟨⟨_, s'⟩, hcall, -, rfl⟩ := bind_pair_eq_ok hrun
    exact hp.sysUnlink h hc hcall
  | mkdir path =>
    obtain ⟨⟨_, s'⟩, hcall, -, rfl⟩ := bind_pair_eq_ok hrun
    exact hp.sysMkdir h hc.1 hcall
  | rmdir path =>
    obtain ⟨⟨_, s'⟩, hcall, -, rfl⟩ := bind_pair_eq_ok hrun
    exact hp.sysRmdir h hc.1 hc.2.1 hcall
  | opendir path =>
    obtain ⟨⟨_, s'⟩, hcall, -, rfl⟩ := bind_pair_eq_ok hrun
    by_cases hroot : path = [slash]
    · unfold sysOpendir at hcall
      rw [assert, if_pos hc.length_lt, ok_bind, if_pos hroot] at hcall
      obtain ⟨-, rfl⟩ := ok_pair hcall
      exact hp
    · obtain ⟨dir, s₁, hrun₁, hs, -⟩ := h.fs.opendir hc hroot uninit
      rw [hrun₁] at hcall
      obtain rfl := (ok_pair hcall).2
      exact hp.of_part hs.part
  | closedir dir =>
    obtain rfl := (ok_pair hrun).2
    exact hp.of_part (part_dirClose _ _)
  | stat path =>
    obtain ⟨⟨_, s'⟩, hcall, -, rfl⟩ := bind_pair_eq_ok hrun
    obtain ⟨s₁, hrun₁, hs, -⟩ := h.fs.stat hc uninit
    rw [hrun₁] at hcall
    obtain rfl := (ok_pair hcall).2
    exact hp.of_part hs.part
  | chdir path =>
    obtain ⟨⟨_, s'⟩, hcall, -, rfl⟩ := bind_pair_eq_ok hrun
    obtain ⟨s₁, hrun₁, hs, -⟩ := h.fs.chdir hc uninit
    rw [hrun₁] at hcall
    obtain rfl := (ok_pair hcall).2
    exact hp.of_part hs.part

end Calls

/-! ## Runs -/

/-- **Memory and disk bitmaps agree.** In every run of admissible calls in which no write puts the
table of a file last in a sector of the bitmap, the bitmaps on disk are those in memory. -/
theorem synced_of_run (x₀ : FsRun) (t₀ : Tree ℕ (List UInt8)) (leak₀ : List ℕ)
    (h₀ : RunOk x₀ t₀ leak₀) (hp : Synced x₀.fs.part) (x : FsRun)
    (hx : Relation.ReflTransGen (CallStep fun x c => Admissible x c ∧ KeepsSync x c) x₀ x) :
    Synced x.fs.part := by
  have hinv : (∃ t leak, RunOk x t leak) ∧ Synced x.fs.part := by
    refine reach_invariant (I := fun x => (∃ t leak, RunOk x t leak) ∧ Synced x.fs.part) hx
      ⟨⟨t₀, leak₀, h₀⟩, hp⟩ ?_
    rintro x x' ⟨⟨t, leak, h⟩, hp⟩ ⟨c, uninit, done, ⟨hc, hsync⟩, hrun⟩
    obtain ⟨t', leak', h', -⟩ := h.step hc hrun
    exact ⟨⟨t', leak', h'⟩, hp.step h hc hsync hrun⟩
  exact hinv.2

/-- A directory is made on a partition that has just been formatted and mounted. -/
theorem synced_mkdir_pathA : ∃ x, exec noUninit smallRun (.mkdir pathA) = .ok (true, x) ∧
    Synced x.fs.part := by
  obtain ⟨⟨done, x⟩, hmk, hdone⟩ := exists_of_holds (o := exec noUninit smallRun (.mkdir pathA))
    (f := fun r => r.1) (by decide +kernel)
  dsimp only at hdone
  subst hdone
  exact ⟨x, hmk, synced_of_run smallRun _ _ smallRun_runOk (synced_mountPartition ..) x
    (.single ⟨.mkdir pathA, noUninit, true, ⟨⟨pathArg_pathA, roomToMake_smallRun⟩, trivial⟩, hmk⟩)⟩

/-! ## A table that straddles -/

/-- The number of data blocks of file `i` on the disk below, which has the files `1` to `31`. -/
def fullBlocks (i : ℕ) : ℕ := if i < 30 then 139 else if i = 30 then 12 else 20

/-- The first block of file `i`. Each file has a table behind its twelfth block, but for file 30,
which has twelve blocks. -/
def fullStart (i : ℕ) : ℕ := if i ≤ 30 then 615 + 140 * (i - 1) else 4687

/-- The address of block `k` of file `i`. -/
def fullAddr (i k : ℕ) : ℕ :=
  if fullBlocks i ≤ k then 0 else if k < 12 then fullStart i + k else fullStart i + k + 1

/-- The inode of file `i`; the root directory has two blocks. -/
def fullInode (i : ℕ) : Inode where
  iNo := i
  iSize := if i = 0 then 792 else if i = 30 then 6143 else 512 * (fullBlocks i - 1)
  iOpenCnts := 0
  writeDeny := false
  iSectors k :=
    if i = 0 then if k < 2 then 613 + k else 0
    else if k < 12 then fullAddr i k
    else if i = 30 then 0 else fullStart i + 12

/-- Entry `m` of the root directory. -/
def fullEntry (m : ℕ) : DirEntry :=
  if m = 0 then .ofName dot 0 .directory
  else if m = 1 then .ofName dotDot 0 .directory
  else .ofName [UInt8.ofNat (64 + m)] (m - 1) .regular

/-- A disk whose 8192 sectors are one partition, with 31 files in the root directory. Of the data
blocks the first 4095 are in use, one fewer than the bits of a sector. -/
def fullDisk : Disk := fun l =>
  if l = 2 then fun i => if i < 511 then 255 else 127
  else if l = 4 then fun i => if i < 4 then 255 else 0
  else if 5 ≤ l ∧ l < 613 then fun i =>
    let j := 512 * (l - 5) + i
    if j / 76 < 32 then (fullInode (j / 76)).bytes (j % 76) else 0
  else if l = 613 ∨ l = 614 then fun i =>
    let m := 21 * (l - 613) + i / 24
    if i < 504 ∧ m < 33 then (fullEntry m).bytes (i % 24) else 0
  else match (List.range 32).find? fun i => i ≠ 0 && i ≠ 30 && l = fullStart i + 12 with
    | some i => tableSector (fullAddr i)
    | none => partitionFormat 0 8192 zero (fun _ => zero) l

/-- The partition that `filesys_init` mounts. -/
theorem filesysInit_part {startLba secCnt : ℕ} {pad : Buf} {hd : Disk} {s : FileSys}
    (h : filesysInit startLba secCnt pad hd = .ok s) :
    s.part = mountPartition startLba secCnt s.part.disk := by
  unfold filesysInit at h
  dsimp only at h
  obtain ⟨⟨q, s₁⟩, hopen, h⟩ := bind_eq_ok.1 h
  obtain rfl := Except.ok.inj h
  have hpart := inodeOpen_part hopen
  dsimp only at hpart ⊢
  rw [hpart]
  rfl

/-- File 30 is opened and a byte is appended to its 6143. Its table takes the last block of the
first sector of the bitmap, and the byte goes to the first block of the second sector. Mounted
again, the partition has the block of the table free. -/
theorem not_synced_write : ∃ s x y, filesysInit 0 8192 zero fullDisk = .ok s ∧ Synced s.part ∧
    exec noUninit { fs := s, dirs := [] } (.open 1 [47, 95] 1) = .ok (true, x) ∧
    exec noUninit x (.write 1 3 zero 1) = .ok (true, y) ∧ ¬ Synced y.fs.part ∧
    y.fs.part.blockBitmap.bit 4095 = true ∧
    (mountPartition 0 8192 y.fs.part.disk).blockBitmap.bit 4095 = false := by
  obtain ⟨s, hs, hrun⟩ := exists_of_holds (o := filesysInit 0 8192 zero fullDisk)
    (f := fun s => holds (exec noUninit { fs := s, dirs := [] } (.open 1 [47, 95] 1)) fun x =>
      x.1 && holds (exec noUninit x.2 (.write 1 3 zero 1)) fun y =>
        y.1 && decide (4095 < y.2.fs.part.blockBitmap.bitLen) && y.2.fs.part.blockBitmap.bit 4095 &&
          !diskBit y.2.fs.part.disk y.2.fs.part.sb.blockBitmapLba 4095 &&
          !(mountPartition 0 8192 y.2.fs.part.disk).blockBitmap.bit 4095) (by decide +kernel)
  obtain ⟨⟨opened, x⟩, hx, hrun⟩ := exists_of_holds hrun
  obtain ⟨rfl, hrun⟩ := Bool.and_eq_true_iff.1 hrun
  obtain ⟨⟨written, y⟩, hy, hbits⟩ := exists_of_holds hrun
  simp only [Bool.and_eq_true, decide_eq_true_eq, Bool.not_eq_true'] at hbits
  obtain ⟨⟨⟨⟨rfl, hlt⟩, hbit⟩, hdisk⟩, hmount⟩ := hbits
  refine ⟨s, x, y, hs, ?_, hx, hy, fun hsync => ?_, hbit, hmount⟩
  · rw [filesysInit_part hs]
    exact synced_mountPartition ..
  · rw [hsync.block 4095 hlt, hbit] at hdisk
    exact Bool.noConfusion hdisk

end Gardos.Fs
