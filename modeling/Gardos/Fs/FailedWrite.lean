import Gardos.Fs.FileLimits
import Gardos.Kernel.BitmapScan
import Gardos.Memory.Paging

/-!
# Writes that fail, and full bitmaps

`file_write` returns `-1` when the block bitmap is full, provided the assertion of `bitmap_scan` is
compiled out (`ndebug`). By then it has taken two buffers from the heap, and maybe blocks, which it
keeps: `failsClean_iff` says for which requests a failure leaves nothing behind.

A full bitmap is never reported (`not_reportsFull`): the loop over the bytes reads the one behind
the bitmap, and the assertion stands before the `return -1` that it makes superfluous.
-/

namespace Gardos.Fs

open Bytes Outcome Function

/-! ## The buffers of `file_write` -/

/-- `file_write` with its buffers. `heap` are the blocks of the heap in use, and `ioBuf` and
`allBlocks` what `sys_malloc` returns, `none` for `NULL`. Between the two ends it is `fileWrite`. -/
def fileWriteHeap (ioBuf allBlocks : Option ℕ) (heap : List ℕ) (p : Partition) (file : File)
    (inode : Inode) (buf : Buf) (count : ℕ) :
    Outcome (Option ℕ × Partition × File × Inode × List ℕ) :=
  if 71680 < (inode.iSize + count) % 4294967296 then
    return (none, p, file, inode, heap)
  else
    match ioBuf, allBlocks with
    | none, _ => return (none, p, file, inode, heap)
    | some a, none => return (none, p, file, inode, a :: heap)
    | some a, some b => do
      let (n, p, file, inode) ← fileWrite p file inode buf count
      match n with
      | none => return (none, p, file, inode, b :: a :: heap)
      | some n => return (some n, p, file, inode, ((b :: a :: heap).erase b).erase a)

/-- A failed write changes nothing: the inode, the block bitmap in memory and on disk and the heap
are as before, and a smaller write, in any later state `q` of the partition, fails an assertion only
if it would have failed it on the file as it was. -/
def FailsClean (ioBuf allBlocks : Option ℕ) (heap : List ℕ) (p : Partition) (file : File)
    (ino : Inode) (buf : Buf) (count : ℕ) : Prop :=
  ∀ p' file' ino' heap', fileWriteHeap ioBuf allBlocks heap p file ino buf count =
      .ok (none, p', file', ino', heap') →
    ino'.iSize = ino.iSize ∧ ino'.iSectors = ino.iSectors ∧ p'.blockBitmap = p.blockBitmap ∧
    (∀ l, p.sb.blockBitmapLba ≤ l → l < p.sb.blockBitmapLba + p.sb.blockBitmapSects →
      p'.disk l = p.disk l) ∧
    heap' = heap ∧
    ∀ q buf' n, n < count → fileWrite q file' ino' buf' n = .error .assert →
      fileWrite q file ino buf' n = .error .assert

/-- The number of blocks that a write takes: the first one of the file, those for the bytes, and the
indirect table. -/
def blocksNeeded (ino : Inode) (count : ℕ) : ℕ :=
  (if ino.iSectors 0 = 0 then 1 else 0) +
    ((ino.iSize + count) % 4294967296 / 512 + 1 - (ino.iSize / 512 + 1)) +
    if ino.iSize / 512 + 1 ≤ 12 ∧ 12 < (ino.iSize + count) % 4294967296 / 512 + 1 then 1 else 0

/-- The blocks do not suffice for a write. A write of more than 140 blocks stops before it takes any
but the first. -/
def RunsOut (p : Partition) (ino : Inode) (count : ℕ) : Prop :=
  p.vol.freeBlocks.card = 0 ∧ ino.iSectors 0 = 0 ∨
    (ino.iSize + count) % 4294967296 / 512 + 1 ≤ 140 ∧
    p.vol.freeBlocks.card < blocksNeeded ino count

/-! ## Running out of blocks -/

section

variable {p p' : Partition} {ino ino' : Inode} {file : File} {buf : Buf} {count : ℕ}

theorem blockBitmapAlloc_of_full (hd : p.ndebug = true) (h : p.vol.freeBlocks.card = 0) :
    blockBitmapAlloc p = .ok (none, p) := by
  have hfull : ∀ i < p.blockBitmap.bitLen, p.blockBitmap.bit i = true := by
    intro i hi
    by_contra hb
    rw [Finset.card_eq_zero] at h
    have hmem : i ∈ p.vol.freeBlocks := Finset.mem_filter.2 ⟨Finset.mem_range.2 hi,
      Partition.not_used_of_clear (Bool.not_eq_true _ ▸ hb)⟩
    rw [h] at hmem
    exact absurd hmem (Finset.notMem_empty i)
  unfold blockBitmapAlloc
  rw [hd, bitmapScan_true_of_full hfull, ok_bind]
  rfl

/-- The loops that allocate blocks give up when there are too few. -/
theorem allocBlocks_of_lt {todo : ℕ} : ∀ {p : Partition} {ino : Inode} (blocks : ℕ → ℕ) (k : ℕ),
    p.Layout → p.ndebug = true → p.vol.freeBlocks.card < todo →
    (∀ i, k ≤ i → i < k + todo → i < 12 → ino.iSectors i = 0) →
    ∃ r, allocBlocks p ino blocks todo k = .ok (false, r) := by
  induction todo with
  | zero =>
    intro p ino blocks k _ _ hlt _
    omega
  | succ todo ih =>
    intro p ino blocks k hL hd hlt hz
    by_cases hfree : p.vol.freeBlocks.card = 0
    · exact ⟨_, bind_eq_ok.2 ⟨_, blockBitmapAlloc_of_full hd hfree, rfl⟩⟩
    · obtain ⟨lba, p₁, halloc, hlba, -, -, hvol⟩ := exists_alloc hL (Nat.pos_of_ne_zero hfree)
      set p₂ := bitmapSync p₁ (blockBitmapIdx p₁ lba) .blockBitmap
      have hgeo : p₂.geometry = p.geometry := congrArg Volume.geometry hvol
      have hcard := Volume.card_freeBlocks_setUsed hlba
      have hlt' : p₂.vol.freeBlocks.card < todo := by
        rw [hvol]
        omega
      have hd' : p₂.ndebug = true := (congrArg Geometry.ndebug hgeo).trans hd
      by_cases hk : k < 12
      · obtain ⟨r, hr⟩ := @ih p₂ (ino.setSector k lba) (update blocks k lba) (k + 1)
          (hL.of_geometry hgeo) hd' hlt' fun i hi hi' h12 => by
            rw [setSector_iSectors, if_neg (by omega)]
            exact hz i (by omega) (by omega) h12
        refine ⟨r, bind_eq_ok.2 ⟨_, halloc, ?_⟩⟩
        simp only [hk, if_true]
        exact bind_eq_ok.2 ⟨(), assert_eq_ok.2 (hz k le_rfl (by omega) hk), hr⟩
      · obtain ⟨r, hr⟩ := @ih p₂ ino (update blocks k lba) (k + 1)
          (hL.of_geometry hgeo) hd' hlt' fun i hi hi' h12 => by omega
        refine ⟨r, bind_eq_ok.2 ⟨_, halloc, ?_⟩⟩
        simp only [hk, if_false]
        exact hr

theorem collectWrite_of_lt {has will : ℕ} (hL : p.Layout) (hd : p.ndebug = true)
    (hH : HasBlocks p.vol.data ino) (hhas : has = ino.iSize / 512 + 1) (h140 : will ≤ 140)
    (hlt : p.vol.freeBlocks.card < will - has + if has ≤ 12 ∧ 12 < will then 1 else 0) :
    ∃ r, collectWrite p ino has will = .ok (false, r) := by
  have hzero : ∀ i, has ≤ i → i < 12 → ino.iSectors i = 0 := fun i hi h12 =>
    hH.iSectors_eq_zero (by omega) h12
  have hne : has ≠ will := by
    rintro rfl
    rw [if_neg (by omega)] at hlt
    omega
  simp only [collectWrite]
  rw [if_neg (Ne.symm hne)]
  by_cases h12 : will ≤ 12
  · rw [if_neg (by omega)] at hlt
    have hlast : ino.iSectors (has - 1) ≠ 0 := by
      rw [← allBlocks_of_lt (d := p.vol.data) (show has - 1 < 12 by omega)]
      exact (hH.iff _ (by omega)).2 (by omega)
    obtain ⟨r, hr⟩ := allocBlocks_of_lt (update (fun _ => 0) (has - 1)
      (ino.iSectors (has - 1))) has hL hd hlt fun i hi _ => hzero i hi
    rw [if_pos h12]
    exact ⟨r, bind_eq_ok.2 ⟨(), assert_eq_ok.2 hlast, hr⟩⟩
  · rw [if_neg h12]
    by_cases hhas12 : has ≤ 12
    · rw [if_pos (by omega)] at hlt
      rw [if_pos hhas12]
      by_cases hfree : p.vol.freeBlocks.card = 0
      · exact ⟨_, bind_eq_ok.2 ⟨_, blockBitmapAlloc_of_full hd hfree, rfl⟩⟩
      · obtain ⟨lba, p₁, halloc, hlba, hvol, -⟩ := exists_alloc hL (Nat.pos_of_ne_zero hfree)
        have hgeo : p₁.geometry = p.geometry := congrArg Volume.geometry hvol
        have hcard := Volume.card_freeBlocks_setUsed hlba
        have htable : ino.iSectors 12 = 0 := by
          by_contra ht
          have := hH.table.1 ht
          omega
        obtain ⟨⟨q, i', b'⟩, hr⟩ := @allocBlocks_of_lt (will - has) p₁ (ino.setSector 12 lba)
          (update (fun _ => 0) (has - 1) (ino.iSectors (has - 1))) has
          (hL.of_geometry hgeo) ((congrArg Geometry.ndebug hgeo).trans hd)
          (by rw [hvol]; omega) fun i hi _ h12' => by
            rw [setSector_iSectors, if_neg (by omega)]
            exact hzero i hi h12'
        exact ⟨_, bind_eq_ok.2 ⟨_, halloc, bind_eq_ok.2 ⟨(), assert_eq_ok.2 htable,
          bind_eq_ok.2 ⟨_, hr, rfl⟩⟩⟩⟩
    · rw [if_neg (by omega)] at hlt
      rw [if_neg hhas12]
      have htable : ino.iSectors 12 ≠ 0 := hH.table.2 (by omega)
      obtain ⟨⟨q, i', b'⟩, hr⟩ := allocBlocks_of_lt (tableBlocks p.disk ino) has hL hd hlt
        fun i hi _ => hzero i hi
      exact ⟨_, bind_eq_ok.2 ⟨(), assert_eq_ok.2 htable, bind_eq_ok.2 ⟨_, hr, rfl⟩⟩⟩

/-- The first block, when there is one to be had. -/
theorem firstBlock_spec (hL : p.Layout) (hd : p.ndebug = true) (hok : FileOk p.vol ino)
    (hroot : p.vol.used p.sb.dataStartLba = true)
    (hfree : ino.iSectors 0 = 0 → 0 < p.vol.freeBlocks.card) :
    ∃ p' ino', firstBlock p ino = .ok (true, p', ino') ∧ p'.Layout ∧ p'.ndebug = true ∧
      BlocksOk p'.vol ino' ∧ HasBlocks p'.vol.data ino' ∧ ino'.iSize = ino.iSize ∧
      ino'.iNo = ino.iNo ∧
      p'.vol.freeBlocks.card + (if ino.iSectors 0 = 0 then 1 else 0) = p.vol.freeBlocks.card := by
  obtain ⟨p', ino', hrun, hg, hH, hcard⟩ := exists_firstBlock hL hok hroot hfree
  have hgeo : p'.geometry = p.geometry := congrArg Volume.geometry hg.vol
  have hsize : ino'.iSize = ino.iSize := by rw [hg.inode]
  refine ⟨p', ino', hrun, hL.of_geometry hgeo, (congrArg Geometry.ndebug hgeo).trans hd, hg.blocks,
    hH, hsize, by rw [hg.inode], ?_⟩
  rw [hsize, blocksHeld] at hcard
  by_cases h0 : ino.iSectors 0 = 0
  · -- a file without blocks is empty
    have hzero : ino.iSize = 0 := by
      rcases hok.shape with h | h
      · exact h.1
      · exact absurd ((allBlocks_of_lt (Nat.succ_pos 11)).trans h0)
          ((h.iff 0 (by omega)).2 (Nat.zero_le _))
    rw [if_pos h0, hzero] at hcard
    rw [if_pos h0]
    simpa [blockCost] using hcard
  · rw [if_neg h0] at hcard ⊢
    omega

/-- A write returns `-1` when it runs out of blocks. -/
theorem fileWrite_of_runsOut (hL : p.Layout) (hd : p.ndebug = true)
    (hroot : p.vol.used p.sb.dataStartLba = true) (hok : FileOk p.vol ino)
    (hguard : ¬ 71680 < (ino.iSize + count) % 4294967296) (h : RunsOut p ino count) :
    ∃ r, fileWrite p file ino buf count = .ok (none, r) := by
  unfold fileWrite
  rw [if_neg hguard]
  by_cases hnone : p.vol.freeBlocks.card = 0 ∧ ino.iSectors 0 = 0
  · have hfirst : firstBlock p ino = .ok (false, p, ino) := by
      unfold firstBlock
      rw [if_neg (by simpa using hnone.2), blockBitmapAlloc_of_full hd hnone.1, ok_bind]
      rfl
    exact ⟨_, bind_eq_ok.2 ⟨_, hfirst, rfl⟩⟩
  · obtain ⟨h140, hlt⟩ := h.resolve_left hnone
    obtain ⟨p₁, ino₁, hfirst, hL₁, hd₁, -, hH₁, hsize, -, hcard⟩ :=
      firstBlock_spec hL hd hok hroot fun h0 => Nat.pos_of_ne_zero fun hz => hnone ⟨hz, h0⟩
    unfold blocksNeeded at hlt
    rw [← hsize] at h140 hlt
    obtain ⟨⟨q, i', b'⟩, hr⟩ := collectWrite_of_lt hL₁ hd₁ hH₁ rfl h140 (by omega)
    exact ⟨_, bind_eq_ok.2 ⟨_, hfirst, bind_eq_ok.2 ⟨(), assert_eq_ok.2 h140,
      bind_eq_ok.2 ⟨_, hr, rfl⟩⟩⟩⟩

/-- A write that does not run out of blocks does not return `-1`. -/
theorem runsOut_of_fileWrite (hL : p.Layout) (hd : p.ndebug = true)
    (hroot : p.vol.used p.sb.dataStartLba = true) (hok : FileOk p.vol ino) (hf : ino.Fits)
    (hguard : ¬ 71680 < (ino.iSize + count) % 4294967296) {r : Partition × File × Inode}
    (h : fileWrite p file ino buf count = .ok (none, r)) : RunsOut p ino count := by
  by_contra hout
  obtain ⟨hfirst0, hneed⟩ := not_or.1 hout
  obtain ⟨p₁, ino₁, hfirst, hL₁, hd₁, hB₁, hH₁, hsize, hno, hcard⟩ :=
    firstBlock_spec hL hd hok hroot fun h0 => Nat.pos_of_ne_zero fun hz => hfirst0 ⟨hz, h0⟩
  unfold fileWrite at h
  rw [if_neg hguard, hfirst, ok_bind] at h
  obtain ⟨_, h140, h⟩ := bind_eq_ok.1 h
  have h140 := assert_eq_ok.1 h140
  obtain ⟨⟨done, p₂, ino₂, blocks⟩, hcol, h⟩ := bind_eq_ok.1 h
  cases done with
  | true =>
    obtain ⟨p3, -, h⟩ := bind_eq_ok.1 h
    cases h
  | false =>
    rw [← hsize] at hneed
    have hneed := not_lt.1 fun hlt => hneed ⟨h140, hlt⟩
    rw [blocksNeeded, ← hsize] at hneed
    by_cases hle : (ino₁.iSize + count) % 4294967296 / 512 + 1 ≤ ino₁.iSize / 512 + 1
    · exact collectWrite_ne_false hle hcol
    · have hf₁ : ino₁.Fits := hB₁.fits hL₁ (hno ▸ hf.iNo) (hsize ▸ hf.iSize)
      obtain ⟨p', ino', b', hcol', -⟩ := exists_collectWrite hL₁ hB₁ hf₁ hH₁ rfl
        (not_le.1 hle).le h140 (by
          generalize (if ino.iSectors 0 = 0 then 1 else 0) = first at hneed hcard
          unfold blockCost
          split_ifs at hneed ⊢ <;> omega)
      rw [hcol'] at hcol
      cases hcol

/-- **Clean failures.** When the assertion of `bitmap_scan` is compiled out, a failed write leaves
everything as it was for exactly the requests that are refused before a buffer has been taken, and
for those that do not run out of memory or blocks. -/
theorem failsClean_iff (hL : p.Layout) (hd : p.ndebug = true)
    (hroot : p.vol.used p.sb.dataStartLba = true) (hf : ino.Fits) (hok : FileOk p.vol ino)
    (ioBuf allBlocks : Option ℕ) (heap : List ℕ) (file : File) (buf : Buf) (count : ℕ) :
    FailsClean ioBuf allBlocks heap p file ino buf count ↔
      71680 < (ino.iSize + count) % 4294967296 ∨ ioBuf = none ∨
        allBlocks ≠ none ∧ ¬ RunsOut p ino count := by
  by_cases hguard : 71680 < (ino.iSize + count) % 4294967296
  · refine iff_of_true (fun p' file' ino' heap' h => ?_) (.inl hguard)
    unfold fileWriteHeap at h
    rw [if_pos hguard] at h
    obtain ⟨-, rfl, rfl, rfl, rfl⟩ := by simpa only [Prod.mk.injEq] using Except.ok.inj h
    exact ⟨rfl, rfl, rfl, fun _ _ _ => rfl, rfl, fun _ _ _ _ => id⟩
  · cases ioBuf with
    | none =>
      refine iff_of_true (fun p' file' ino' heap' h => ?_) (.inr (.inl rfl))
      rw [fileWriteHeap, if_neg hguard] at h
      obtain ⟨-, rfl, rfl, rfl, rfl⟩ := by simpa only [Prod.mk.injEq] using Except.ok.inj h
      exact ⟨rfl, rfl, rfl, fun _ _ _ => rfl, rfl, fun _ _ _ _ => id⟩
    | some a =>
      cases allBlocks with
      | none =>
        refine iff_of_false (fun h => ?_) (by simp [hguard])
        have hheap := (h p file ino (a :: heap) (by
          rw [fileWriteHeap, if_neg hguard]
          rfl)).2.2.2.2.1
        simp at hheap
      | some b =>
        rw [or_iff_right hguard, or_iff_right (by simp), and_iff_right (by simp)]
        constructor
        · intro h hout
          obtain ⟨⟨p', file', ino'⟩, hrun⟩ :=
            @fileWrite_of_runsOut p ino file buf count hL hd hroot hok hguard hout
          have hheap := (h p' file' ino' (b :: a :: heap) (by
            rw [fileWriteHeap, if_neg hguard]
            exact bind_eq_ok.2 ⟨_, hrun, rfl⟩)).2.2.2.2.1
          have hlen := congrArg List.length hheap
          simp only [List.length_cons] at hlen
          omega
        · intro hout p' file' ino' heap' h
          rw [fileWriteHeap, if_neg hguard] at h
          obtain ⟨⟨n, q, f, i⟩, hrun, h⟩ := bind_eq_ok.1 h
          cases n with
          | none => exact absurd (runsOut_of_fileWrite hL hd hroot hok hf hguard hrun) hout
          | some n => cases h

/-- `blankPartition` without the assertion and with two free blocks, 613 and 614. -/
def tightPartition : Partition :=
  { blankPartition with
    ndebug := true
    blockBitmap := { btmpBytesLen := 512, bit := fun i => i ≠ 1 && i ≠ 2 } }

theorem tightPartition_layout : tightPartition.Layout := by
  constructor <;> decide

/-- Without memory for the buffer, a write to a new file fails and leaves everything as it was. -/
theorem failsClean_noBuffer :
    let file : File := { fdPos := 0, fdFlag := 2, fdInode := none }
    fileWriteHeap none (some 1) [2] tightPartition file (inodeInit 1) zero 1024 =
        .ok (none, tightPartition, file, inodeInit 1, [2]) ∧
      FailsClean none (some 1) [2] tightPartition file (inodeInit 1) zero 1024 :=
  ⟨by rw [fileWriteHeap, if_neg (by decide)]; rfl, (failsClean_iff tightPartition_layout rfl rfl
    (inodeInit_fits (by decide)) (fileOk_inodeInit _ 1) _ _ _ _ zero 1024).2 (.inr (.inl rfl))⟩

/-- The partition after the blocks 617 and 618 have been released. -/
def roomAgain (p : Partition) : Partition :=
  { p with blockBitmap := (p.blockBitmap.set 5 false).set 6 false }

/-- A write of 1024 bytes with two free blocks returns `-1`. The two buffers and the two blocks are
lost, and once blocks are free again a write of 512 bytes fails an assertion. -/
theorem not_failsClean_tight : tightPartition.Layout ∧ tightPartition.ndebug = true ∧
    tightPartition.vol.used tightPartition.sb.dataStartLba = true ∧ (inodeInit 1).Fits ∧
    FileOk tightPartition.vol (inodeInit 1) ∧
    (∃ p' file' ino', fileWriteHeap (some 0) (some 1) [] tightPartition
        { fdPos := 0, fdFlag := 2, fdInode := none } (inodeInit 1) zero 1024 =
          .ok (none, p', file', ino', [1, 0]) ∧
      ino'.iSectors 1 = 614 ∧ p'.blockBitmap.bit 2 = true ∧
      fileWrite (roomAgain p') file' ino' zero 512 = .error .assert ∧
      ∃ r, fileWrite (roomAgain p') file' (inodeInit 1) zero 512 = .ok r) ∧
    ¬ FailsClean (some 0) (some 1) [] tightPartition
      { fdPos := 0, fdFlag := 2, fdInode := none } (inodeInit 1) zero 1024 := by
  obtain ⟨⟨n, p', file', ino', heap'⟩, hrun, hres⟩ := exists_of_holds
    (f := fun r => r.1 = none ∧ r.2.2.2.2 = [1, 0] ∧ r.2.2.2.1.iSectors 1 = 614 ∧
      r.2.1.blockBitmap.bit 2 = true ∧
      (fileWrite (roomAgain r.2.1) r.2.2.1 r.2.2.2.1 zero 512).map (fun _ => ()) =
        .error .assert ∧
      holds (fileWrite (roomAgain r.2.1) r.2.2.1 (inodeInit 1) zero 512) (fun _ => true) = true)
    (o := fileWriteHeap (some 0) (some 1) [] tightPartition
      { fdPos := 0, fdFlag := 2, fdInode := none } (inodeInit 1) zero 1024) (by decide +kernel)
  obtain ⟨rfl, rfl, hsector, hbit, hlater, hroom⟩ := of_decide_eq_true hres
  obtain ⟨r, hr, -⟩ := exists_of_holds hroom
  refine ⟨tightPartition_layout, rfl, rfl, inodeInit_fits (by decide), fileOk_inodeInit _ 1,
    ⟨p', file', ino', hrun, hsector, hbit, map_eq_error.1 hlater, r, hr⟩, fun h => ?_⟩
  cases (h p' file' ino' _ hrun).2.2.2.2.1

end

/-! ## Full bitmaps -/

/-- A full bitmap is reported: the search returns `-1` without testing a bit outside, and the
functions that take one bit return `NULL` or `-1` with their bitmap unchanged. -/
structure ReportsFull (ndebug : Bool) (b : Bitmap) (cnt : ℕ) : Prop where
  scan : bitmapScan ndebug b cnt = .ok none
  inside : ∀ i ∈ b.tests cnt, i < b.bitLen
  palloc : ∀ p : Paging.Pool, p.poolBitmap = b → Paging.palloc ndebug p = .ok (none, p)
  inode : ∀ p : Partition, p.ndebug = ndebug → p.inodeBitmap = b →
    inodeBitmapAlloc p = .ok (none, p)
  block : ∀ p : Partition, p.ndebug = ndebug → p.blockBitmap = b →
    blockBitmapAlloc p = .ok (none, p)

/-- The assertion fails in the search, and with it in the functions that take one bit. -/
structure AssertsFull (b : Bitmap) (cnt : ℕ) : Prop where
  scan : bitmapScan false b cnt = .error .assert
  palloc : ∀ p : Paging.Pool, p.poolBitmap = b → Paging.palloc false p = .error .assert
  inode : ∀ p : Partition, p.ndebug = false → p.inodeBitmap = b →
    inodeBitmapAlloc p = .error .assert
  block : ∀ p : Partition, p.ndebug = false → p.blockBitmap = b →
    blockBitmapAlloc p = .error .assert

theorem assertsFull {b : Bitmap} (h : ∀ i < b.bitLen, b.bit i = true) (cnt : ℕ) :
    AssertsFull b cnt where
  scan := bitmapScan_of_full h
  palloc p hp := by
    rw [Paging.palloc, hp, bitmapScan_of_full h]
    rfl
  inode p hd hp := by
    rw [inodeBitmapAlloc, hd, hp, bitmapScan_of_full h]
    rfl
  block p hd hp := by
    rw [blockBitmapAlloc, hd, hp, bitmapScan_of_full h]
    rfl

theorem not_reportsFull_of_tests {b : Bitmap} (h : ∀ i < b.bitLen, b.bit i = true) (ndebug : Bool)
    (cnt : ℕ) : ¬ ReportsFull ndebug b cnt := fun hr =>
  lt_irrefl _ (hr.inside _ (mem_tests_of_full h cnt))

/-- **No full bitmap is reported**: the assertion fails, and without assertions the search reads
behind the bitmap. -/
theorem not_reportsFull (b : Bitmap) (cnt : ℕ) (h : ∀ i < b.bitLen, b.bit i = true) :
    AssertsFull b cnt ∧ ∀ ndebug, ¬ ReportsFull ndebug b cnt :=
  ⟨assertsFull h cnt, fun ndebug => not_reportsFull_of_tests h ndebug cnt⟩

/-- A sector of ones. -/
theorem not_reportsFull_sector : AssertsFull ⟨512, fun _ => true⟩ 1 ∧
    ∀ ndebug, ¬ ReportsFull ndebug ⟨512, fun _ => true⟩ 1 :=
  not_reportsFull ⟨512, fun _ => true⟩ 1 fun _ _ => rfl

/-- A pool of eight frames, all in use: `palloc` does not return. -/
theorem palloc_asserts : Paging.palloc false ⟨⟨1, fun _ => true⟩, 0⟩ = .error .assert ∧
    ¬ ReportsFull false ⟨1, fun _ => true⟩ 1 :=
  ⟨(assertsFull (fun _ _ => rfl) 1).palloc _ rfl, not_reportsFull_of_tests (fun _ _ => rfl) false 1⟩

end Gardos.Fs
