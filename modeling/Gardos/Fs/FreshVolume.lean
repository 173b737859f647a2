import Gardos.Device.Partitions
import Gardos.Fs.Listing
import Mathlib.Order.CompletePartialOrder

/-!
# A freshly formatted partition

What `partition_format` leaves on a disk, as the rest of the file system sees it.

* `layoutFits_format`: the regions that the super block describes follow each other and fit into the
  partition, and the slots of the inode table lie side by side in its sectors.
* `offersDataBlocks_iff`: the loop that clears the valid bits of the last byte of the block bitmap
  clears one bit too many, so block `bit_len`, which is behind the data area, can be handed out. The
  bitmap is right only if the bits fill whole sectors.
* `emptyMount_format`: a partition that is mounted after it was formatted holds an empty root
  directory, whatever the disk held before.
-/

namespace Gardos.Fs

open Bytes Outcome Device

variable {startLba secCnt : ℕ} {pad : Buf} {hd : Disk} {rs : List Region} {k lba : ℕ} {d : Disk}
  {ino : Inode} {name : List UInt8}

theorem formattable_of_le (hsize : 1024 ≤ secCnt) (hdisk : startLba + secCnt ≤ maxLba + 1) :
    Formattable startLba secCnt :=
  ⟨by omega, hdisk⟩

/-- The second rounding of the size of the block bitmap gives back at most one of the sectors that
the first took. -/
theorem Formattable.le_sects_add (h : Formattable startLba secCnt) :
    secCnt ≤ divRoundUp (blockBitmapBitLen secCnt) 4096 + blockBitmapBitLen secCnt + 612 := by
  obtain ⟨hbits, -, -⟩ := h.sects
  have h1 := h.blocks
  have h2 := h.disk
  generalize divRoundUp (blockBitmapBitLen secCnt) 4096 = sects at hbits ⊢
  unfold blockBitmapBitLen divRoundUp at hbits ⊢
  rw [h.freeSects_eq] at hbits ⊢
  have hle : secCnt - 611 ≤ 4096 * ((secCnt - 611 + 4096 - 1) / 4096) := by omega
  have hlt : 4096 * ((secCnt - 611 + 4096 - 1) / 4096) < secCnt - 611 + 4096 := by omega
  generalize (secCnt - 611 + 4096 - 1) / 4096 = first at hbits hle hlt ⊢
  omega

/-- The super block that is found on a formatted partition. -/
theorem ofBytes_partitionFormat (h : Formattable startLba secCnt) :
    SuperBlock.ofBytes (ideRead (partitionFormat startLba secCnt pad hd) (startLba + 1)) =
      formatSuperBlock startLba secCnt := by
  rw [ideRead_apply, partitionFormat_super, SuperBlock.ofBytes_bytes h.words_lt]

/-! ## Regions -/

/-- Consecutive sectors of a disk. -/
structure Region where
  first : ℕ
  count : ℕ

/-- The sectors of a region. -/
def Region.sectors (r : Region) : Set ℕ := Set.Ico r.first (r.first + r.count)

/-- The regions that a super block describes: boot sector, super block, block bitmap, inode bitmap,
inode table, and a data area of `bitLen` blocks. -/
def SuperBlock.regions (sb : SuperBlock) (bitLen : ℕ) : List Region :=
  [⟨sb.partLbaBase, 1⟩, ⟨sb.partLbaBase + 1, 1⟩, ⟨sb.blockBitmapLba, sb.blockBitmapSects⟩,
    ⟨sb.inodeBitmapLba, sb.inodeBitmapSects⟩, ⟨sb.inodeTableLba, sb.inodeTableSects⟩,
    ⟨sb.dataStartLba, bitLen⟩]

theorem sum_regions (sb : SuperBlock) (bitLen : ℕ) :
    ((sb.regions bitLen).map Region.count).sum =
      2 + sb.blockBitmapSects + (sb.inodeBitmapSects + sb.inodeTableSects) + bitLen := by
  simp only [SuperBlock.regions, List.map_cons, List.map_nil, List.sum_cons, List.sum_nil]
  omega

/-- Each region starts where the one before ends. -/
def Consecutive (rs : List Region) : Prop :=
  rs.IsChain fun a b => b.first = a.first + a.count

/-- A region behind the first of consecutive ones starts behind its end. -/
theorem Consecutive.le_first {a : Region} (h : Consecutive (a :: rs)) :
    ∀ b ∈ rs, a.first + a.count ≤ b.first := by
  induction rs generalizing a with
  | nil => exact fun b hb => absurd hb List.not_mem_nil
  | cons c rs ih =>
    obtain ⟨hac, hrest⟩ := List.isChain_cons_cons.1 h
    intro b hb
    rcases List.mem_cons.1 hb with rfl | hb
    · exact hac.ge
    · have := ih hrest b hb
      omega

/-- Consecutive regions have no sector in common. -/
theorem Consecutive.pairwise (h : Consecutive rs) :
    rs.Pairwise fun a b => Disjoint a.sectors b.sectors := by
  induction rs with
  | nil => exact .nil
  | cons a rs ih =>
    refine List.pairwise_cons.2 ⟨fun b hb => ?_, ih h.tail⟩
    exact Set.Ico_disjoint_Ico.2
      ((min_le_left _ _).trans ((h.le_first b hb).trans (le_max_right _ _)))

/-- The bytes of the disk, counted from its start, that an inode position names. -/
def InodePosition.bytes (pos : InodePosition) : Set ℕ :=
  Set.Ico (512 * pos.secLba + pos.offSize) (512 * pos.secLba + pos.offSize + 76)

/-- The bytes of the disk that make up a region. -/
def Region.bytes (r : Region) : Set ℕ := Set.Ico (512 * r.first) (512 * (r.first + r.count))

/-- The regions of a super block fit into the partition, and the inodes into the inode table. -/
structure LayoutFits (startLba secCnt bitLen : ℕ) (sb : SuperBlock) : Prop where
  consecutive : Consecutive (sb.regions bitLen)
  apart : (sb.regions bitLen).Pairwise fun a b => Disjoint a.sectors b.sectors
  inside : ∀ r ∈ sb.regions bitLen, r.sectors ⊆ Set.Ico startLba (startLba + secCnt)
  unused : secCnt ≤ ((sb.regions bitLen).map Region.count).sum + 1
  bits : bitLen ≤ 4096 * sb.blockBitmapSects
  /-- Every inode number below 4096 has its 76 bytes in the table. -/
  locate : ∀ p : Partition, p.sb = sb → ∀ n < 4096, ∃ pos, inodeLocate p n = .ok pos ∧
    pos.bytes ⊆ Region.bytes ⟨sb.inodeTableLba, sb.inodeTableSects⟩ ∧
    (pos.twoSec = true ↔ ∃ i ∈ pos.bytes, ∃ j ∈ pos.bytes, i / 512 ≠ j / 512) ∧
    ∀ m < 4096, m ≠ n → ∃ pos', inodeLocate p m = .ok pos' ∧ Disjoint pos.bytes pos'.bytes

theorem disjoint_bytes_inodePosition (p : Partition) {m n : ℕ} (h : m ≠ n) :
    Disjoint (inodePosition p n).bytes (inodePosition p m).bytes := by
  refine Set.Ico_disjoint_Ico.2 ?_
  simp only [inodePosition]
  omega

/-- `two_sec` says that two bytes of the inode lie in different sectors. -/
theorem twoSec_inodePosition (p : Partition) (n : ℕ) : (inodePosition p n).twoSec = true ↔
    ∃ i ∈ (inodePosition p n).bytes, ∃ j ∈ (inodePosition p n).bytes, i / 512 ≠ j / 512 := by
  simp only [InodePosition.bytes, inodePosition, decide_eq_true_eq, Set.mem_Ico]
  have hlt : n * 76 % 512 < 512 := Nat.mod_lt _ (by omega)
  generalize p.sb.inodeTableLba + n * 76 / 512 = lba
  generalize n * 76 % 512 = off at hlt ⊢
  constructor
  · intro h
    exact ⟨512 * lba + off, by omega, 512 * lba + off + 75, by omega, by omega⟩
  · rintro ⟨i, hi, j, hj, hne⟩
    omega

/-- **The layout of a formatted partition** is disjoint and fits: in every partition of at least
1024 sectors on the supported disk the regions follow each other, at most one sector is left over,
and `inode_locate` maps the inode numbers to disjoint slots of the inode table. -/
theorem layoutFits_format (startLba secCnt : ℕ) (pad : Buf) (hd : Disk) (hsize : 1024 ≤ secCnt)
    (hdisk : startLba + secCnt ≤ maxLba + 1) :
    LayoutFits startLba secCnt (blockBitmapBitLen secCnt) (SuperBlock.ofBytes
      (ideRead (partitionFormat startLba secCnt pad hd) (startLba + 1))) := by
  have hF := formattable_of_le hsize hdisk
  rw [ofBytes_partitionFormat hF]
  set sb := formatSuperBlock startLba secCnt with hsb
  obtain ⟨hbits, -, hfit⟩ := hF.sects
  have hchain : Consecutive (sb.regions (blockBitmapBitLen secCnt)) := by
    simp only [Consecutive, SuperBlock.regions, List.isChain_cons_cons, List.isChain_singleton,
      and_true, true_and]
    exact ⟨rfl, rfl, rfl, rfl⟩
  refine ⟨hchain, hchain.pairwise, fun r hr => ?_, ?_, ?_, fun p hp n hn => ?_⟩
  · refine Set.Ico_subset_Ico ?_ ?_ <;>
      simp only [SuperBlock.regions, List.mem_cons, List.not_mem_nil, or_false] at hr <;>
      rcases hr with rfl | rfl | rfl | rfl | rfl | rfl <;>
      simp only [hsb, formatSuperBlock] <;> omega
  · have hleft := hF.le_sects_add
    have htable : sb.inodeBitmapSects + sb.inodeTableSects = 609 := rfl
    have hmap : sb.blockBitmapSects = divRoundUp (blockBitmapBitLen secCnt) 4096 := rfl
    rw [sum_regions, hmap]
    omega
  · simpa only [hsb, formatSuperBlock] using hbits
  · refine ⟨_, inodeLocate_eq hn, ?_, twoSec_inodePosition p n, fun m hm hne =>
      ⟨_, inodeLocate_eq hm, disjoint_bytes_inodePosition p hne⟩⟩
    refine Set.Ico_subset_Ico ?_ ?_ <;>
      simp only [inodePosition, hp, hsb, formatSuperBlock] <;> omega

/-- A partition of the smallest size. -/
theorem layoutFits_small : LayoutFits 2048 1024 (blockBitmapBitLen 1024) (SuperBlock.ofBytes
    (ideRead (partitionFormat 2048 1024 zero fun _ => zero) (2048 + 1))) :=
  layoutFits_format 2048 1024 zero (fun _ => zero) (by decide) (by decide)

/-! ## The blocks that can be handed out -/

/-- The block bitmap as it lies on the disk of a formatted partition. -/
def writtenBlockBitmap (startLba secCnt : ℕ) (pad : Buf) (hd : Disk) : Bitmap :=
  let sb := formatSuperBlock startLba secCnt
  bitmapOfBytes (sb.blockBitmapSects * 512)
    (ideReadMany (partitionFormat startLba secCnt pad hd) sb.blockBitmapLba)

/-- The uses of the block bitmap: a block is handed out, a block that is held is given back, a
sector of the bitmap is written to disk. The set holds the blocks in use. -/
inductive BlockStep : Partition × Set ℕ → Partition × Set ℕ → Prop
  | alloc {p p' : Partition} {held : Set ℕ} {lba : ℕ}
      (h : blockBitmapAlloc p = .ok (some lba, p')) : BlockStep (p, held) (p', insert lba held)
  | free {p : Partition} {held : Set ℕ} {lba : ℕ} (h : lba ∈ held) :
      BlockStep (p, held) (blockBitmapFree p lba, held \ {lba})
  | sync {p : Partition} {held : Set ℕ} (bitIdx : ℕ) :
      BlockStep (p, held) (bitmapSync p bitIdx .blockBitmap, held)

/-- A run on a partition that has just been formatted and mounted, on which only the block of the
root directory is in use. -/
def FreshRun (startLba secCnt : ℕ) (pad : Buf) (hd : Disk) (x : Partition × Set ℕ) : Prop :=
  Relation.ReflTransGen BlockStep (freshPartition startLba secCnt pad hd,
    {(formatSuperBlock startLba secCnt).dataStartLba}) x

/-- The fresh block bitmap offers exactly the data blocks. -/
structure OffersDataBlocks (startLba secCnt : ℕ) (pad : Buf) (hd : Disk) : Prop where
  root : (writtenBlockBitmap startLba secCnt pad hd).bit 0 = true
  data : ∀ k, 1 ≤ k → k < blockBitmapBitLen secCnt →
    (writtenBlockBitmap startLba secCnt pad hd).bit k = false
  tail : ∀ k, blockBitmapBitLen secCnt ≤ k →
    k < (writtenBlockBitmap startLba secCnt pad hd).bitLen →
    (writtenBlockBitmap startLba secCnt pad hd).bit k = true
  inside : ∀ p held lba p', FreshRun startLba secCnt pad hd (p, held) →
    blockBitmapAlloc p = .ok (some lba, p') →
    (formatSuperBlock startLba secCnt).dataStartLba ≤ lba ∧ lba < startLba + secCnt

theorem bitLen_writtenBlockBitmap : (writtenBlockBitmap startLba secCnt pad hd).bitLen =
    4096 * divRoundUp (blockBitmapBitLen secCnt) 4096 := by
  simp only [writtenBlockBitmap, bitmapOfBytes, Bitmap.bitLen, formatSuperBlock]
  omega

/-- Of the bits on the disk the first is set, and those from `bit_len + 1` on. -/
theorem bit_writtenBlockBitmap (h : Formattable startLba secCnt)
    (hk : k < (writtenBlockBitmap startLba secCnt pad hd).bitLen) :
    (writtenBlockBitmap startLba secCnt pad hd).bit k =
      decide (k = 0 ∨ blockBitmapBitLen secCnt < k) := by
  rw [bitLen_writtenBlockBitmap] at hk
  obtain ⟨h1, h2, -⟩ := h.sects
  change (ideReadMany _ _ (k / 8)).toNat.testBit (k % 8) = _
  rw [partitionFormat_blockBitmap (by simp only [formatSuperBlock]; omega),
    testBit_formatBlockBitmap h.le_bitLen]
  exact decide_eq_decide.2 (by omega)

/-- When the bits fill whole sectors. -/
theorem bitLen_mod_iff (h : Formattable startLba secCnt) (hsize : 1024 ≤ secCnt) :
    blockBitmapBitLen secCnt % 4096 = 0 ↔ secCnt % 4097 = 612 := by
  have h2 := h.disk
  unfold blockBitmapBitLen divRoundUp
  rw [h.freeSects_eq]
  have hle : secCnt - 611 ≤ 4096 * ((secCnt - 611 + 4096 - 1) / 4096) := by omega
  have hlt : 4096 * ((secCnt - 611 + 4096 - 1) / 4096) < secCnt - 611 + 4096 := by omega
  generalize (secCnt - 611 + 4096 - 1) / 4096 = c at hle hlt ⊢
  constructor
  · intro hmod
    obtain ⟨m, hm⟩ := Nat.dvd_of_mod_eq_zero hmod
    clear hmod
    obtain rfl : c = m + 1 := by omega
    rw [show secCnt = 612 + 4097 * m by omega, Nat.add_mul_mod_self_left]
  · intro hmod
    obtain ⟨m, hm⟩ : ∃ m, secCnt = 612 + 4097 * m :=
      ⟨secCnt / 4097, by rw [← hmod, Nat.mod_add_div]⟩
    clear hmod
    obtain rfl : c = m + 1 := by omega
    rw [show secCnt - 611 - (m + 1) = 4096 * m by omega, Nat.mul_mod_right]

/-- What no use of the block bitmap changes. -/
theorem BlockStep.geometry {x y : Partition × Set ℕ} (h : BlockStep x y) :
    y.1.sb = x.1.sb ∧ y.1.blockBitmap.bitLen = x.1.blockBitmap.bitLen := by
  cases h with
  | alloc h =>
    obtain ⟨b, -, -, rfl⟩ := Partition.blockBitmapAlloc_eq_some h
    exact ⟨rfl, rfl⟩
  | free h => exact ⟨rfl, rfl⟩
  | sync i => exact ⟨rfl, rfl⟩

theorem FreshRun.geometry {x : Partition × Set ℕ} (h : FreshRun startLba secCnt pad hd x)
    (hF : Formattable startLba secCnt) : x.1.sb = formatSuperBlock startLba secCnt ∧
      x.1.blockBitmap.bitLen = (writtenBlockBitmap startLba secCnt pad hd).bitLen := by
  refine reach_invariant (I := fun x => x.1.sb = formatSuperBlock startLba secCnt ∧
    x.1.blockBitmap.bitLen = (writtenBlockBitmap startLba secCnt pad hd).bitLen) h ?_ ?_
  · rw [freshPartition_sb hF, freshPartition_blockBitmap hF]
    exact ⟨rfl, rfl⟩
  · rintro x y ⟨h1, h2⟩ hstep
    exact ⟨hstep.geometry.1.trans h1, hstep.geometry.2.trans h2⟩

/-- **Which blocks a new partition offers.** The bitmap that `partition_format` writes is the one of
the data area, and only data blocks are ever handed out, exactly if the data blocks fill whole
sectors of the bitmap. -/
theorem offersDataBlocks_iff (startLba secCnt : ℕ) (pad : Buf) (hd : Disk) (hsize : 1024 ≤ secCnt)
    (hdisk : startLba + secCnt ≤ maxLba + 1) :
    OffersDataBlocks startLba secCnt pad hd ↔ secCnt % 4097 = 612 := by
  have hF := formattable_of_le hsize hdisk
  have hlen := @bitLen_writtenBlockBitmap startLba secCnt pad hd
  have h8 := hF.le_bitLen
  obtain ⟨h1, h2, h3⟩ := hF.sects
  rw [← bitLen_mod_iff hF hsize]
  constructor
  · intro h
    by_contra hmod
    -- the first bit behind the data area is inside the last sector, and clear
    have hlt : blockBitmapBitLen secCnt < (writtenBlockBitmap startLba secCnt pad hd).bitLen := by
      rw [hlen]
      omega
    have hset := h.tail _ le_rfl hlt
    rw [bit_writtenBlockBitmap hF hlt, decide_eq_true_eq] at hset
    omega
  · intro hmod
    refine ⟨?_, fun k hk hlt => ?_, fun k hle hlt => ?_, fun p held lba p' hrun halloc => ?_⟩
    · rw [bit_writtenBlockBitmap hF (by omega)]
      rfl
    · rw [bit_writtenBlockBitmap hF (by omega)]
      exact decide_eq_false (by omega)
    · omega
    · obtain ⟨hsb, hbits⟩ := hrun.geometry hF
      obtain ⟨b, hb, rfl, -⟩ := Partition.blockBitmapAlloc_eq_some halloc
      have hlt := hb.lt
      dsimp only at hsb hbits
      rw [hsb]
      simp only [formatSuperBlock]
      omega

/-- A partition whose 4096 data blocks fill one sector of the bitmap. -/
theorem offersDataBlocks_full : OffersDataBlocks 2048 4709 zero fun _ => zero :=
  (offersDataBlocks_iff 2048 4709 zero (fun _ => zero) (by decide) (by decide)).2 (by decide)

/-- Allocating often enough hands out every block that is free. The number `n` bounds how many
clear bits lie before that of the block. -/
theorem exists_run_alloc {k : ℕ} : ∀ {n : ℕ} {p : Partition} {held : Set ℕ},
    (∀ i, i + n < k → p.blockBitmap.bit i = true) → k < p.blockBitmap.bitLen →
    p.blockBitmap.bit k = false →
    ∃ x p', Relation.ReflTransGen BlockStep (p, held) x ∧
      blockBitmapAlloc x.1 = .ok (some (p.sb.dataStartLba + k), p') := by
  intro n
  induction n with
  | zero =>
    intro p held hset hk hclear
    obtain ⟨b, hb, halloc⟩ := Partition.blockBitmapAlloc_of_clear hk hclear
    obtain rfl : b = k := hb.unique ⟨hk, hclear, hset⟩
    exact ⟨_, _, .refl, halloc⟩
  | succ n ih =>
    intro p held hset hk hclear
    obtain ⟨b, hb, halloc⟩ := Partition.blockBitmapAlloc_of_clear hk hclear
    by_cases hbk : b = k
    · subst hbk
      exact ⟨_, _, .refl, halloc⟩
    · -- the first clear bit lies before `k`, and is set now
      have hset' : ∀ i, i + n < k → (p.blockBitmap.set b true).bit i = true := by
        intro i hi
        rw [Bitmap.set_bit]
        by_cases hib : i = b
        · rw [if_pos hib]
        · rw [if_neg hib]
          refine hb.before i (lt_of_le_of_ne (not_lt.1 fun hlt => ?_) hib)
          have hbset := hset b (by omega)
          rw [hb.clear] at hbset
          cases hbset
      have hclear' : (p.blockBitmap.set b true).bit k = false := by
        rw [Bitmap.set_bit, if_neg (Ne.symm hbk)]
        exact hclear
      obtain ⟨x, p', hrun, hlast⟩ := @ih { p with blockBitmap := p.blockBitmap.set b true }
        (insert (p.sb.dataStartLba + b) held) hset' hk hclear'
      exact ⟨x, p', hrun.head (.alloc halloc), hlast⟩

/-- If a bit is left in the last sector of the bitmap, and no sector of the partition, then the
first sector behind the partition is handed out when the data blocks are used up. -/
theorem exists_run_next (h : Formattable startLba secCnt)
    (hbits : blockBitmapBitLen secCnt < 4096 * divRoundUp (blockBitmapBitLen secCnt) 4096)
    (hleft : divRoundUp (blockBitmapBitLen secCnt) 4096 + blockBitmapBitLen secCnt + 611 = secCnt) :
    ∃ x p', FreshRun startLba secCnt pad hd x ∧
      blockBitmapAlloc x.1 = .ok (some (startLba + secCnt), p') := by
  have h8 := h.le_bitLen
  have hlt : blockBitmapBitLen secCnt < (writtenBlockBitmap startLba secCnt pad hd).bitLen := by
    rw [bitLen_writtenBlockBitmap]
    exact hbits
  have hclear : (writtenBlockBitmap startLba secCnt pad hd).bit (blockBitmapBitLen secCnt) =
      false := by
    rw [bit_writtenBlockBitmap h hlt]
    exact decide_eq_false (by omega)
  have hmap : (freshPartition startLba secCnt pad hd).blockBitmap =
      writtenBlockBitmap startLba secCnt pad hd := freshPartition_blockBitmap h
  obtain ⟨x, p', hrun, halloc⟩ := @exists_run_alloc (blockBitmapBitLen secCnt)
    (blockBitmapBitLen secCnt) (freshPartition startLba secCnt pad hd)
    {(formatSuperBlock startLba secCnt).dataStartLba} (fun i hi => by omega)
    (by rw [hmap]; exact hlt) (by rw [hmap]; exact hclear)
  refine ⟨x, p', hrun, ?_⟩
  rw [halloc, freshPartition_sb h]
  have hlba : (formatSuperBlock startLba secCnt).dataStartLba + blockBitmapBitLen secCnt =
      startLba + secCnt := by
    simp only [formatSuperBlock]
    omega
  rw [hlba]

/-- The smallest partition hands out the sector behind its end. -/
theorem not_offersDataBlocks_small : ¬ OffersDataBlocks 2048 1024 zero (fun _ => zero) ∧
    ∃ x p', FreshRun 2048 1024 zero (fun _ => zero) x ∧
      blockBitmapAlloc x.1 = .ok (some (2048 + 1024), p') := by
  have hF : Formattable 2048 1024 := formattable_of_le (by decide) (by decide)
  have hlen : blockBitmapBitLen 1024 = 412 := by
    rw [blockBitmapBitLen, hF.freeSects_eq]
    decide
  have hnext := @exists_run_next 2048 1024 zero (fun _ => zero) hF (by rw [hlen]; decide)
    (by rw [hlen]; decide)
  refine ⟨fun h => ?_, hnext⟩
  obtain ⟨x, p', hrun, halloc⟩ := hnext
  exact absurd (h.inside x.1 x.2 _ p' hrun halloc).2 (lt_irrefl _)

/-! ## Mounting a fresh partition -/

/-- The two entries of the root directory. -/
def rootEntries : List DirEntry := [.ofName dot 0 .directory, .ofName dotDot 0 .directory]

/-- An inode number 0 of a directory that holds `"."` and `".."` only, as `search_dir_entry` and
`dir_read` find it. -/
structure EmptyRoot (d : Disk) (ino : Inode) : Prop where
  iNo : ino.iNo = 0
  iSize : ino.iSize = 48
  search : ∀ name, name ≠ [] → 0 ∉ name → searchDirEntry d ino name =
    if name = dot then some (.ofName dot 0 .directory)
    else if name = dotDot then some (.ofName dotDot 0 .directory) else none
  list : ∀ n, ∃ dirPos, dirReads d ino n 0 =
    .ok ((List.range n).map fun k => rootEntries[k]?, dirPos)

/-- What is found in a mounted partition that was formatted right before, with `sb` and the bitmaps
as they were written. -/
structure EmptyMount (startLba secCnt : ℕ) (hd : Disk) (p : Partition) : Prop where
  sb : p.sb = formatSuperBlock startLba secCnt
  blockBitmap_len : p.blockBitmap.btmpBytesLen =
    (formatSuperBlock startLba secCnt).blockBitmapSects * 512
  blockBitmap : ∀ k < p.blockBitmap.bitLen, p.blockBitmap.bit k =
    (bitmapOfBytes p.blockBitmap.btmpBytesLen (formatBlockBitmap (blockBitmapBitLen secCnt))).bit k
  inodeBitmap_len : p.inodeBitmap.btmpBytesLen = 512
  inodeBitmap : ∀ k < p.inodeBitmap.bitLen, p.inodeBitmap.bit k =
    (bitmapOfBytes 512 formatInodeBitmap).bit k
  root : ∀ s : FileSys, s.part = p → s.openInodes = [] → ∃ q s',
    inodeOpen s p.sb.rootInodeNo = .ok (q, s') ∧ EmptyRoot s'.part.disk (s'.inodes q)
  outside : ∀ l, l < startLba ∨ startLba + secCnt ≤ l → p.disk l = hd l

/-- A lookup in a directory of one block. -/
theorem searchDirEntry_of_single (h0 : lba ≠ 0)
    (hall : ∀ k, allBlocks d ino k = if k = 0 then lba else 0) (name : List UInt8) :
    searchDirEntry d ino name = searchSector (d lba) name := by
  have hrest : ∀ k ∈ (List.range 139).map Nat.succ,
      (if allBlocks d ino k = 0 then none else searchSector (ideRead d (allBlocks d ino k)) name) =
        none := by
    intro k hk
    obtain ⟨j, -, rfl⟩ := List.mem_map.1 hk
    rw [hall, if_neg (Nat.succ_ne_zero j), if_pos rfl]
  rw [searchDirEntry, List.range_succ_eq_map, List.findSome?_cons, hall, if_pos rfl, if_neg h0,
    List.findSome?_eq_none_iff.2 hrest, ideRead_apply]
  cases searchSector (d lba) name <;> rfl

/-- The places of the root directory hold one name each. -/
theorem strEq_rootDir (hne : name ≠ []) (hnul : 0 ∉ name)
    (h : strEq (window (newDirSector 0 0) (24 * k)) name = true) : name = dot ∨ name = dotDot := by
  by_cases h0 : k = 0
  · subst h0
    exact Or.inl (strEq_unique h (by decide +kernel) hnul isName_dot.nul)
  by_cases h1 : k = 1
  · subst h1
    exact Or.inr (strEq_unique h (by decide +kernel) hnul isName_dotDot.nul)
  · have hempty : strEq (window (newDirSector 0 0) (24 * k)) [] = true := by
      rw [strEq, window_apply, newDirSector, setEntry, setEntry, memcpy, if_neg (by omega), memcpy,
        if_neg (by omega)]
      rfl
    exact absurd (strEq_unique h hempty hnul List.not_mem_nil) hne

theorem searchSector_rootDir (hne : name ≠ []) (hnul : 0 ∉ name) :
    searchSector (newDirSector 0 0) name =
      if name = dot then some (.ofName dot 0 .directory)
      else if name = dotDot then some (.ofName dotDot 0 .directory) else none := by
  have hget := @getEntry_newDirSector 0 0 (by omega) (by omega)
  by_cases hdot : name = dot
  · have hfind : (List.range 21).find? (fun k => strEq (window (newDirSector 0 0) (24 * k)) dot) =
        some 0 := by decide +kernel
    rw [if_pos hdot, hdot, searchSector, hfind, Option.map_some, hget, if_pos rfl]
  rw [if_neg hdot]
  by_cases hdd : name = dotDot
  · have hfind : (List.range 21).find?
        (fun k => strEq (window (newDirSector 0 0) (24 * k)) dotDot) = some 1 := by decide +kernel
    rw [if_pos hdd, hdd, searchSector, hfind, Option.map_some, hget, if_neg (by omega), if_pos rfl]
  · rw [if_neg hdd, searchSector, List.find?_eq_none.2, Option.map_none]
    intro k _ hk
    rcases strEq_rootDir hne hnul hk with h | h
    · exact hdot h
    · exact hdd h

theorem liveIn_rootDir : liveIn (newDirSector 0 0) = rootEntries := by
  have hget := @getEntry_newDirSector 0 0 (by omega) (by omega)
  have hrange : List.range 21 = 0 :: 1 :: List.range' 2 19 := by decide
  have hrest : ∀ j ∈ List.range' 2 19, (if (getEntry (newDirSector 0 0) j).Live
      then [getEntry (newDirSector 0 0) j] else []) = [] := by
    intro j hj
    obtain ⟨hle, -⟩ := List.mem_range'_1.1 hj
    have hzero : getEntry (newDirSector 0 0) j = .ofBytes zero := by
      rw [hget, if_neg (by omega), if_neg (by omega)]
    rw [hzero, if_neg DirEntry.not_live_ofBytes_zero]
  rw [liveIn, hrange, List.flatMap_cons, List.flatMap_cons, List.flatMap_eq_nil_iff.2 hrest, hget,
    hget, if_pos rfl, if_neg Nat.one_ne_zero, if_pos rfl, if_pos (ofName_live (by decide)),
    if_pos (ofName_live (by decide))]
  rfl

/-- A directory in one block, which holds a new root directory. -/
theorem emptyRoot_of_block (h0 : lba ≠ 0) (hino : ino.Same (newDirInode 0 lba))
    (hsec : d lba = newDirSector 0 0) : EmptyRoot d ino := by
  have hall : ∀ k, allBlocks d ino k = if k = 0 then lba else 0 := fun k =>
    (allBlocks_congr hino.iSectors fun _ => rfl).trans (allBlocks_newDirInode d 0 lba k)
  have hlive : liveEntries d ino = rootEntries := by
    rw [liveEntries_congr hino.iSectors (fun _ => rfl) fun _ _ _ => rfl,
      liveEntries_newDirInode d 0 h0, hsec, liveIn_rootDir]
  refine ⟨hino.iNo, hino.iSize, fun name hname hnul => ?_, fun n => ?_⟩
  · rw [searchDirEntry_of_single h0 hall, hsec, searchSector_rootDir hname hnul]
  · have hsize : ino.iSize = 24 * (liveEntries d ino).length := by
      rw [hlive]
      exact hino.iSize
    obtain ⟨dirPos, hlist⟩ := dirReads_eq hsize n
    exact ⟨dirPos, by rw [hlist, hlive]⟩

/-- **Formatting and mounting give an empty file system**, whatever the disk held before. -/
theorem emptyMount_format (startLba secCnt : ℕ) (pad : Buf) (hd : Disk) (hsize : 1024 ≤ secCnt)
    (hdisk : startLba + secCnt ≤ maxLba + 1) :
    EmptyMount startLba secCnt hd
      (mountPartition startLba secCnt (partitionFormat startLba secCnt pad hd)) := by
  have hF := formattable_of_le hsize hdisk
  change EmptyMount startLba secCnt hd (freshPartition startLba secCnt pad hd)
  set p := freshPartition startLba secCnt pad hd with hp
  have hsb : p.sb = formatSuperBlock startLba secCnt := freshPartition_sb hF
  refine ⟨hsb, ?_, fun k hk => ?_, ?_, fun k hk => ?_, fun s hs hopen => ?_, fun l hl =>
    partitionFormat_outside (by omega) hdisk hl⟩
  · rw [hp, freshPartition_blockBitmap hF]
    rfl
  · rw [hp, freshPartition_blockBitmap hF] at hk ⊢
    change (ideReadMany _ _ (k / 8)).toNat.testBit (k % 8) = _
    rw [partitionFormat_blockBitmap (by simp only [Bitmap.bitLen, bitmapOfBytes] at hk; omega)]
    rfl
  · rw [hp, freshPartition_inodeBitmap hF]
    rfl
  · rw [hp, freshPartition_inodeBitmap hF] at hk ⊢
    change (ideReadMany _ _ (k / 8)).toNat.testBit (k % 8) = _
    rw [partitionFormat_inodeBitmap (by simp only [Bitmap.bitLen, bitmapOfBytes] at hk; omega)]
    rfl
  · have hnone : findInode s 0 = none := by
      rw [findInode, hopen]
      rfl
    have hno : p.sb.rootInodeNo = 0 := congrArg SuperBlock.rootInodeNo hsb
    refine ⟨s.brk, loadInode s 0, by rw [hno, inodeOpen_of_none (by omega) hnone], ?_⟩
    have hcell : (loadInode s 0).inodes s.brk = { slot p 0 with iOpenCnts := 1 } := by
      rw [← hs]
      exact FileSys.setInode_inodes_self ..
    have hpart : (loadInode s 0).part.disk = p.disk := congrArg Partition.disk hs
    rw [hcell, hpart]
    have hslot : (slot p 0).Same
        (newDirInode 0 (formatSuperBlock startLba secCnt).dataStartLba) := by
      rw [← Partition.vol_inode (by omega)]
      exact freshPartition_root hF
    have hsec : p.disk (formatSuperBlock startLba secCnt).dataStartLba = newDirSector 0 0 := by
      rw [hp, freshPartition_disk, partitionFormat_rootDir]
    refine emptyRoot_of_block ?_ ⟨hslot.iNo, hslot.iSize, hslot.iSectors⟩ hsec
    simp only [formatSuperBlock]
    omega

/-- A partition of the smallest size on a disk full of ones. -/
theorem emptyMount_small : EmptyMount 2048 1024 (fun _ _ => 0xff)
    (mountPartition 2048 1024 (partitionFormat 2048 1024 zero fun _ _ => 0xff)) :=
  emptyMount_format 2048 1024 zero (fun _ _ => 0xff) (by decide) (by decide)

end Gardos.Fs
