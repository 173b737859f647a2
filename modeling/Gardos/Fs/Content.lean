import Gardos.Fs.FileBlocks

/-!
# Files as byte strings

The content of a file is the concatenation of its blocks, cut to `i_size` bytes. `file_write`
appends to it, `file_read` returns a part of it.
-/

namespace Gardos.Fs

open Bytes Outcome

/-! ## Content -/

/-- The blocks `0` to `i_size / 512` of a file, one after the other, cut to `i_size` bytes. -/
def content (d : Disk) (ino : Inode) : List UInt8 :=
  ((List.range (ino.iSize / 512 + 1)).flatMap fun k =>
    (List.range 512).map (d (allBlocks d ino k))).take ino.iSize

/-- Byte `i` of a file. -/
def fileByte (d : Disk) (ino : Inode) (i : ℕ) : UInt8 := d (allBlocks d ino (i / 512)) (i % 512)

theorem content_eq_map (d : Disk) (ino : Inode) :
    content d ino = (List.range ino.iSize).map (fileByte d ino) := by
  have hle : ino.iSize ≤ 512 * (ino.iSize / 512 + 1) := by omega
  rw [content, flatMap_range_map (fun k => d (allBlocks d ino k)) (by omega), ← List.map_take,
    List.take_range, min_eq_left hle]
  rfl

theorem content_length (d : Disk) (ino : Inode) : (content d ino).length = ino.iSize := by
  rw [content_eq_map, List.length_map, List.length_range]

/-! ## Reading -/

section Read

variable {d : Disk} {ino : Inode} {file : File}

/-- The bytes that the loop of `file_read` delivers. -/
theorem readLoop_eq {blocks : ℕ → ℕ} {fuel pos left : ℕ} (hfuel : left ≤ fuel)
    (hpos : pos + left < 4294967296) : readLoop d blocks fuel pos left =
      ((List.range left).map fun i => d (blocks ((pos + i) / 512)) ((pos + i) % 512),
        pos + left) := by
  induction fuel generalizing pos left with
  | zero =>
    obtain rfl : left = 0 := by omega
    rfl
  | succ fuel ih =>
    rw [readLoop]
    by_cases h0 : left = 0
    · subst h0
      rfl
    · rw [if_neg h0]
      dsimp only
      generalize hchunk : min left (512 - pos % 512) = chunk
      have hc1 : 1 ≤ chunk := by omega
      have hc2 : chunk ≤ left := by omega
      have hc3 : pos % 512 + chunk ≤ 512 := by omega
      rw [Nat.mod_eq_of_lt (show pos + chunk < 4294967296 by omega), ih (by omega) (by omega)]
      refine Prod.ext ?_ (by simp only; omega)
      -- the first chunk lies in one sector; the rest is the same list from `pos + chunk` on
      obtain ⟨rest, rfl⟩ := Nat.exists_eq_add_of_le hc2
      rw [Nat.add_sub_cancel_left, List.range_add, List.map_append, List.map_map]
      refine congrArg₂ _ (List.map_congr_left fun i hi => ?_) (List.map_congr_left fun i _ => ?_)
      · have hi := List.mem_range.1 hi
        rw [window_apply, ideRead_apply, show (pos + i) / 512 = pos / 512 by omega,
          show (pos + i) % 512 = pos % 512 + i by omega]
      · rw [Function.comp_apply, add_assoc]

/-- The addresses that `file_read` collects are those of the file. -/
theorem exists_collectRead (hH : HasBlocks d ino) {start last : ℕ} (hsl : start ≤ last)
    (hlast : last ≤ ino.iSize / 512) :
    ∃ blocks, collectRead d ino start last = .ok blocks ∧
      ∀ k, start ≤ k → k ≤ last → blocks k = allBlocks d ino k := by
  have htab : ∀ k, 12 ≤ k → 12 ≤ last → tableBlocks d ino k = allBlocks d ino k := by
    intro k hk hl
    have ht : ino.iSectors 12 ≠ 0 := hH.table.2 (by omega)
    simp [tableBlocks, allBlocks, hk, ht, not_lt.2 hk]
  unfold collectRead
  by_cases heq : start = last
  · rw [if_pos heq]
    by_cases hl : last < 12
    · rw [if_pos hl]
      refine ⟨_, rfl, fun k h1 h2 => ?_⟩
      obtain rfl : k = last := by omega
      rw [Function.update_self, allBlocks_of_lt hl]
    · rw [if_neg hl]
      exact ⟨_, rfl, fun k h1 h2 => htab k (by omega) (by omega)⟩
  · rw [if_neg heq]
    by_cases hl : last < 12
    · rw [if_pos hl]
      refine ⟨_, rfl, fun k h1 h2 => ?_⟩
      rw [if_pos ⟨h1, h2⟩, allBlocks_of_lt (by omega)]
    · have ht : ino.iSectors 12 ≠ 0 := hH.table.2 (by omega)
      rw [if_neg hl]
      by_cases hs : start < 12
      · rw [if_pos hs, assert, if_pos ht]
        refine ⟨_, rfl, fun k h1 h2 => ?_⟩
        by_cases hk : 12 ≤ k
        · rw [if_pos hk, htab k hk (by omega)]
        · rw [if_neg hk, if_pos h1, allBlocks_of_lt (by omega)]
      · rw [if_neg hs, assert, if_pos ht]
        exact ⟨_, rfl, fun k h1 h2 => htab k (by omega) (by omega)⟩

/-- **Reading inside the file** returns the bytes from the position on, as many as there are. -/
theorem fileRead_of_lt (hH : HasBlocks d ino) (hsize : ino.iSize < 71168)
    (hpos : file.fdPos < ino.iSize) {n : ℕ} (hn : 1 ≤ n) (hlt : file.fdPos + n < 4294967296) :
    fileRead d file ino n = .ok (some (min n (ino.iSize - file.fdPos)),
      ((content d ino).drop file.fdPos).take (min n (ino.iSize - file.fdPos)),
      { file with fdPos := file.fdPos + min n (ino.iSize - file.fdPos) }) := by
  set m := min n (ino.iSize - file.fdPos)
  have hm1 : file.fdPos + m ≤ ino.iSize := by omega
  have hsz : (if ino.iSize < (file.fdPos + n) % 4294967296
      then (ino.iSize + (4294967296 - file.fdPos)) % 4294967296 else n) = m := by
    rw [Nat.mod_eq_of_lt hlt]
    split <;> omega
  have hsl : file.fdPos / 512 ≤ (file.fdPos + m) / 512 := by omega
  obtain ⟨blocks, hcol, hblk⟩ := exists_collectRead hH hsl (by omega)
  unfold fileRead
  simp only [hsz]
  rw [if_neg (by omega), Nat.mod_eq_of_lt (show file.fdPos + m < 4294967296 by omega), assert,
    if_pos (by omega), ok_bind, hcol, ok_bind, readLoop_eq le_rfl (by omega)]
  refine congrArg (fun l => Except.ok (some m, l, { file with fdPos := file.fdPos + m })) ?_
  rw [content_eq_map, ← List.map_drop, ← List.map_take, take_drop_range hm1, List.map_map]
  refine List.map_congr_left fun i hi => ?_
  have hi := List.mem_range.1 hi
  rw [Function.comp_apply, fileByte, hblk _ (by omega) (by omega)]

/-- **Reading at the end** returns `-1`. -/
theorem fileRead_of_eq (hpos : file.fdPos = ino.iSize) {n : ℕ} (hn : 1 ≤ n)
    (hlt : file.fdPos + n < 4294967296) : fileRead d file ino n = .ok (none, [], file) := by
  unfold fileRead
  simp only [Nat.mod_eq_of_lt hlt]
  have h1 : ino.iSize < file.fdPos + n := by omega
  have h2 : (ino.iSize + (4294967296 - file.fdPos)) % 4294967296 = 0 := by
    rw [hpos, show ino.iSize + (4294967296 - ino.iSize) = 4294967296 by omega]
  simp only [h1, if_true, h2, and_self]
  rfl

end Read

/-! ## Writing the bytes -/

/-- The bytes from `lo` to `hi` have been written to the blocks of a file, and the bytes before
`lo` in the same block have been kept. -/
structure Writes (d d' : Disk) (blocks : ℕ → ℕ) (src : Buf) (off lo hi : ℕ) : Prop where
  frame : ∀ b, (∀ k, lo / 512 ≤ k → k * 512 < hi → b ≠ blocks k) → d' b = d b
  byte : ∀ i, lo - lo % 512 ≤ i → i < hi → d' (blocks (i / 512)) (i % 512) =
    if i < lo then d (blocks (i / 512)) (i % 512) else src (off + (i - lo))

/-- One sector of the loop, then the rest. -/
theorem Writes.step {d d' : Disk} {blocks : ℕ → ℕ} {src : Buf} {off lo hi chunk : ℕ} {base : Buf}
    (hc : 0 < chunk) (hc' : lo % 512 + chunk ≤ 512) (hle : lo + chunk ≤ hi)
    (hend : lo + chunk = hi ∨ lo % 512 + chunk = 512)
    (hbase : lo % 512 ≠ 0 → base = d (blocks (lo / 512)))
    (hinj : ∀ k, lo / 512 < k → k * 512 < hi → blocks k ≠ blocks (lo / 512))
    (h : Writes (ideWrite d (blocks (lo / 512)) (memcpy base (lo % 512) (window src off) chunk))
      d' blocks src (off + chunk) (lo + chunk) hi) : Writes d d' blocks src off lo hi := by
  set sec := blocks (lo / 512) with hsec
  set d₁ := ideWrite d sec (memcpy base (lo % 512) (window src off) chunk) with hd₁
  have hself : d₁ sec = memcpy base (lo % 512) (window src off) chunk := ideWrite_self _ _ _
  refine ⟨fun b hb => ?_, fun i h1 h2 => ?_⟩
  · rw [h.frame b fun k hk hk' => hb k (by omega) hk', hd₁,
      ideWrite_of_ne (hb _ le_rfl (by omega))]
  · by_cases hi : i < lo + chunk
    · -- the byte lies in the sector just written, and the rest does not touch it
      have hsame : i / 512 = lo / 512 := by omega
      have hkept : d' (blocks (i / 512)) (i % 512) = d₁ sec (i % 512) := by
        by_cases hin : lo + chunk - (lo + chunk) % 512 ≤ i
        · rw [h.byte i hin (by omega), if_pos hi, hsame]
        · rw [hsame, ← hsec, h.frame sec fun k hk hk' => (hinj k (by omega) hk').symm]
      rw [hkept, hself]
      by_cases hlo : i < lo
      · rw [if_pos hlo, memcpy_of_notMem (by omega), hbase (by omega), hsame]
      · rw [if_neg hlo, show i % 512 = lo % 512 + (i - lo) by omega,
          memcpy_of_mem (show i - lo < chunk by omega), window_apply]
    · have hnext : lo % 512 + chunk = 512 := by omega
      rw [h.byte i (by omega) h2, if_neg hi, if_neg (by omega),
        show off + chunk + (i - (lo + chunk)) = off + (i - lo) by omega]

theorem Writes.refl (d : Disk) (blocks : ℕ → ℕ) (src : Buf) (off lo : ℕ) :
    Writes d d blocks src off lo lo where
  frame _ _ := rfl
  byte _ _ h := by rw [if_pos h]

theorem writeLoop_zero (blocks : ℕ → ℕ) (src : Buf) (fuel : ℕ) (p : Partition) (ino : Inode)
    (pos off : ℕ) (first : Bool) :
    writeLoop blocks src fuel p ino pos off 0 first = (p, ino, pos) := by
  cases fuel with
  | zero => rfl
  | succ fuel => rw [writeLoop, if_pos rfl]

/-- The loop of `file_write` writes the bytes it is given behind the end of the file. -/
theorem exists_writeLoop {blocks : ℕ → ℕ} {src : Buf} {fuel : ℕ} :
    ∀ {p : Partition} {ino : Inode} {pos off left : ℕ} {first : Bool}, p.Layout →
    left ≤ fuel → ino.iSize + left < 4294967296 → pos < 4294967296 →
    (∀ k, ino.iSize / 512 ≤ k → k * 512 < ino.iSize + left → p.sb.dataStartLba ≤ blocks k) →
    (∀ j k, ino.iSize / 512 ≤ j → j * 512 < ino.iSize + left → ino.iSize / 512 ≤ k →
      k * 512 < ino.iSize + left → blocks j = blocks k → j = k) →
    (first = true ∨ ino.iSize % 512 = 0 ∨ left = 0) →
    ∃ p', writeLoop blocks src fuel p ino pos off left first =
        (p', { ino with iSize := ino.iSize + left }, (pos + left) % 4294967296) ∧
      p'.vol = { p.vol with data := p'.vol.data } ∧
      Writes p.vol.data p'.vol.data blocks src off ino.iSize (ino.iSize + left) := by
  induction fuel with
  | zero =>
    intro p ino pos off left first _ hfuel _ hpos _ _ _
    obtain rfl : left = 0 := by omega
    refine ⟨p, ?_, rfl, Writes.refl _ _ _ _ _⟩
    rw [writeLoop_zero, add_zero, add_zero, Nat.mod_eq_of_lt hpos]
  | succ fuel ih =>
    intro p ino pos off left first hL hfuel hhi hpos haddr hinj hfirst
    by_cases h0 : left = 0
    · subst h0
      refine ⟨p, ?_, rfl, Writes.refl _ _ _ _ _⟩
      rw [writeLoop_zero, add_zero, add_zero, Nat.mod_eq_of_lt hpos]
    · rw [writeLoop, if_neg h0]
      dsimp only
      generalize hchunk : min left (512 - ino.iSize % 512) = chunk
      have hc1 : 0 < chunk := by omega
      have hc2 : chunk ≤ left := by omega
      have hlt : ino.iSize / 512 * 512 < ino.iSize + left := by omega
      have hsec : p.sb.dataStartLba ≤ blocks (ino.iSize / 512) := haddr _ le_rfl hlt
      set base := if first then ideRead p.disk (blocks (ino.iSize / 512)) else zero with hbase
      set sec := memcpy base (ino.iSize % 512) (window src off) chunk
      have hv1 := Partition.vol_write hL hsec sec
      set p1 : Partition := { p with disk := ideWrite p.disk (blocks (ino.iSize / 512)) sec }
      rw [Nat.mod_eq_of_lt (show ino.iSize + chunk < 4294967296 by omega)]
      obtain ⟨rest, rfl⟩ := Nat.exists_eq_add_of_le hc2
      rw [Nat.add_sub_cancel_left]
      have hsum : ino.iSize + chunk + rest = ino.iSize + (chunk + rest) := by omega
      have hend : chunk = chunk + rest ∨ ino.iSize % 512 + chunk = 512 := by omega
      have hfit : ino.iSize % 512 + chunk ≤ 512 := by omega
      have hpos' : (pos + chunk) % 4294967296 < 4294967296 := Nat.mod_lt _ (Nat.succ_pos _)
      obtain ⟨p', hrun, hv', hw⟩ := @ih p1 { ino with iSize := ino.iSize + chunk }
        ((pos + chunk) % 4294967296) (off + chunk) rest false (hL.of_geometry rfl)
        (by omega) (by rw [hsum]; exact hhi) hpos'
        (fun k h1 h2 => haddr k (le_trans (Nat.div_le_div_right (Nat.le_add_right _ _)) h1)
          (by rw [← hsum]; exact h2))
        (fun j k h1 h2 h3 h4 => hinj j k
          (le_trans (Nat.div_le_div_right (Nat.le_add_right _ _)) h1) (by rw [← hsum]; exact h2)
          (le_trans (Nat.div_le_div_right (Nat.le_add_right _ _)) h3) (by rw [← hsum]; exact h4))
        (Or.inr (by change (ino.iSize + chunk) % 512 = 0 ∨ rest = 0; omega))
      refine ⟨p', ?_, ?_, ?_⟩
      · rw [hrun]
        have : ((pos + chunk) % 4294967296 + rest) % 4294967296 =
            (pos + (chunk + rest)) % 4294967296 := by omega
        rw [this, ← hsum]
      · rw [hv', hv1]
        rfl
      · change Writes p1.vol.data _ _ _ _ (ino.iSize + chunk) (ino.iSize + chunk + rest) at hw
        rw [hsum, hv1] at hw
        refine Writes.step hc1 hfit (by omega) (by omega) (fun h => ?_) (fun k h1 h2 heq => ?_) hw
        · have : first = true := by
            rcases hfirst with h' | h' | h'
            · exact h'
            · exact absurd h' h
            · exact absurd h' h0
          rw [hbase, if_pos this, Partition.vol_data hsec]
          rfl
        · exact absurd (hinj k _ h1.le h2 le_rfl hlt heq) h1.ne'

/-! ## Appending -/

/-- Bytes have been appended to a file. The file keeps its blocks, the blocks it is given were
free, and the blocks of everybody else hold what they held. -/
structure Appends (v : Volume) (ino : Inode) (bytes : List UInt8) (v' : Volume) (ino' : Inode) :
    Prop where
  inode : ino' = { ino with iSize := ino.iSize + bytes.length, iSectors := ino'.iSectors }
  vol : v' = { v.setInode (ino.iNo % 256) ino'.stored with used := v'.used, data := v'.data }
  file : FileOk v' ino'
  content : content v'.data ino' = content v.data ino ++ bytes
  used : ∀ b, v'.used b = true ↔ v.used b = true ∨ OwnsBlock v'.data ino' b
  owns : ∀ b, OwnsBlock v.data ino b → OwnsBlock v'.data ino' b
  fresh : ∀ b, OwnsBlock v'.data ino' b → OwnsBlock v.data ino b ∨ v.used b = false
  frame : ∀ b, v.used b = true → ¬ OwnsBlock v.data ino b → v'.data b = v.data b
  card : v'.freeBlocks.card + blocksHeld ino' = v.freeBlocks.card + blocksHeld ino

section Append

variable {p : Partition} {ino : Inode}

/-- What the loop has written is the old content and the new bytes. -/
theorem content_of_writes {v v₂ : Volume} {ino₂ : Inode} {blocks : ℕ → ℕ} {buf : Buf} {count : ℕ}
    {d : Disk} (hok : FileOk v ino) (hg : Grows v ino v₂ ino₂)
    (hw : Writes v₂.data d blocks buf 0 ino.iSize (ino.iSize + count))
    (hlt : ino.iSize + count < 71168)
    (haddr : ∀ k, ino.iSize / 512 ≤ k → k * 512 < ino.iSize + count →
      blocks k = allBlocks v₂.data ino₂ k) {ino₃ : Inode}
    (hino : ino₃.iSize = ino.iSize + count)
    (hall : ∀ k < 140, allBlocks d ino₃ k = allBlocks v₂.data ino₂ k) :
    content d ino₃ = content v.data ino ++ (List.range count).map buf := by
  rw [content_eq_map, content_eq_map, hino, List.range_add, List.map_append, List.map_map]
  refine congrArg₂ _ (List.map_congr_left fun i hi => ?_) (List.map_congr_left fun i hi => ?_)
  · have hi := List.mem_range.1 hi
    have hH := hok.shape.resolve_left fun h => by omega
    have h0 : allBlocks v.data ino (i / 512) ≠ 0 := (hH.iff _ (by omega)).2 (by omega)
    have hkept := hg.kept _ (by omega) h0
    have hold : v₂.data (allBlocks v.data ino (i / 512)) =
      v.data (allBlocks v.data ino (i / 512)) :=
      hg.frame _ (hok.blocks.used _ (by omega) h0) fun h =>
        hok.blocks.ne_table _ (by omega) (h ▸ h0) h
    rw [fileByte, fileByte, hall _ (by omega), hkept, ← hold]
    by_cases hblk : i / 512 = ino.iSize / 512
    · have hb := hw.byte i (by omega) (by omega)
      rwa [if_pos hi, haddr _ (by omega) (by omega), hkept] at hb
    · -- an earlier block of the file is none of those written
      refine congrFun (hw.frame _ fun k h1 h2 heq => ?_) _
      rw [haddr k h1 h2, ← hkept] at heq
      have := hg.blocks.inj _ (by omega) k (by omega) (by rwa [hkept]) heq
      omega
  · have hi := List.mem_range.1 hi
    have hb := hw.byte (ino.iSize + i) (by omega) (by omega)
    rw [if_neg (by omega), haddr _ (by omega) (by omega)] at hb
    rw [Function.comp_apply, fileByte, hall _ (by omega), hb]
    congr 1
    omega

/-- There is room for `count` more bytes in a file: below the largest size that can be read back,
and enough free blocks. -/
structure WriteRoom (v : Volume) (ino : Inode) (count : ℕ) : Prop where
  size : ino.iSize + count < 71168
  blocks : blockCost ((ino.iSize + count) / 512 + 1) ≤ blocksHeld ino + v.freeBlocks.card

/-- **`file_write` appends.** With enough free blocks it returns the number of bytes, unless the
slot of the inode does not fit into the buffer. -/
theorem exists_fileWrite (hL : p.Layout) (hroot : p.vol.used p.sb.dataStartLba = true)
    (hf : ino.Fits) (hok : FileOk p.vol ino) (file : File) (buf : Buf) (count : ℕ)
    (hroom : WriteRoom p.vol ino count) : ∃ p' pos ino', fileWrite p file ino buf count =
        (if ino.OneSector then .ok (some count, p', { file with fdPos := pos }, ino')
          else .error .fault) ∧
      Appends p.vol ino ((List.range count).map buf) p'.vol ino' := by
  obtain ⟨hlt, hcard⟩ := hroom
  have hmod : (ino.iSize + count) % 4294967296 = ino.iSize + count := Nat.mod_eq_of_lt (by omega)
  obtain ⟨p1, ino1, hfirst, hg1, hH1, hcard1⟩ := exists_firstBlock hL hok hroot fun h0 => by
    rw [blocksHeld, if_pos h0, blockCost] at hcard
    omega
  have hL1 := hL.of_geometry (congrArg Volume.geometry hg1.vol)
  have hsize1 : ino1.iSize = ino.iSize := by rw [hg1.inode]
  have hno1 : ino1.iNo = ino.iNo := by rw [hg1.inode]
  have hf1 : ino1.Fits := hg1.blocks.fits hL1 (hno1 ▸ hf.iNo) (hsize1 ▸ hf.iSize)
  obtain ⟨p2, ino2, blocks, hcol, hC⟩ := exists_collectWrite hL1 hg1.blocks hf1 hH1 rfl
    (show ino1.iSize / 512 + 1 ≤ (ino.iSize + count) / 512 + 1 by omega) (by omega) (by omega)
  have hg2 := hg1.trans hC.grows
  have hL2 := hL.of_geometry (congrArg Volume.geometry hg2.vol)
  have hsize2 : ino2.iSize = ino.iSize := by rw [hg2.inode]
  have hno2 : ino2.iNo = ino.iNo := by rw [hg2.inode]
  have haddr : ∀ k, ino.iSize / 512 ≤ k → k * 512 < ino.iSize + count →
      blocks k = allBlocks p2.vol.data ino2 k ∧ allBlocks p2.vol.data ino2 k ≠ 0 ∧ k < 140 :=
    fun k h1 h2 => ⟨hC.addr k (hsize1 ▸ h1) (by omega), (hC.iff k (by omega)).2 (by omega),
      by omega⟩
  obtain ⟨p3, hloop, hv3, hw⟩ := @exists_writeLoop blocks buf count p2 ino2
    ((ino2.iSize + 4294967295) % 4294967296) 0 count true hL2 le_rfl (by omega)
    (Nat.mod_lt _ (Nat.succ_pos _))
    (fun k h1 h2 => by
      rw [hsize2] at h1 h2
      rw [(haddr k h1 h2).1]
      exact Partition.dataStart_le_of_used
        (hg2.blocks.used k (haddr k h1 h2).2.2 (haddr k h1 h2).2.1))
    (fun j k h1 h2 h3 h4 heq => by
      rw [hsize2] at h1 h2 h3 h4
      rw [(haddr j h1 h2).1, (haddr k h3 h4).1] at heq
      exact hg2.blocks.inj j (haddr j h1 h2).2.2 k (haddr k h3 h4).2.2 (haddr j h1 h2).2.1 heq)
    (Or.inl rfl)
  rw [hsize2] at hloop hw
  set ino3 : Inode := { ino2 with iSize := ino.iSize + count } with hino3
  -- the table is none of the blocks written, so the file keeps its addresses
  have hused3 : p3.vol.used = p2.vol.used := by rw [hv3]
  have hL3 := hL2.of_geometry (congrArg Volume.geometry hv3)
  have hall : ∀ k < 140, allBlocks p3.vol.data ino3 k = allBlocks p2.vol.data ino2 k := by
    intro k hk
    refine allBlocks_congr (fun _ _ => rfl) fun h0 => hw.frame _ fun j h1 h2 heq => ?_
    rw [(haddr j h1 h2).1] at heq
    exact hg2.blocks.ne_table j (haddr j h1 h2).2.2 h0 heq.symm
  have hB3 : BlocksOk p3.vol ino3 := hg2.blocks.congr hused3 rfl hall
  have hf3 : ino3.Fits := hB3.fits hL3 (hno2 ▸ hf.iNo) (by simp only [hino3]; omega)
  obtain ⟨p4, hsync, hv4⟩ := Partition.exists_inodeSync hL3 hf3
  have hd4 : p4.vol.data = p3.vol.data := by rw [hv4]; rfl
  have hu4 : p4.vol.used = p2.vol.used := by rw [hv4, ← hused3]; rfl
  have howns : ∀ b, OwnsBlock p4.vol.data ino3 b ↔ OwnsBlock p2.vol.data ino2 b := fun b => by
    rw [hd4]
    exact OwnsBlock.congr rfl hall b
  refine ⟨p4, ((ino.iSize + 4294967295) % 4294967296 + count) % 4294967296, ino3, ?_, ?_⟩
  · unfold fileWrite
    rw [hmod, if_neg (by omega), hfirst, ok_bind]
    simp only [Bool.true_eq_false, if_false, hsize1, hmod]
    rw [hsize1] at hcol
    rw [assert, if_pos (by omega), ok_bind, hcol, ok_bind]
    simp only [Bool.true_eq_false, if_false, hsize2, hloop]
    have hone : ino3.OneSector ↔ ino.OneSector := by
      simp only [Inode.OneSector, hino3, hno2]
    rw [inodeSyncIn_eq_inodeSync hL3, hsync]
    simp only [slotSectors_le_iff, hone]
    split <;> rfl
  · have hlen : ((List.range count).map buf).length = count := by simp
    refine ⟨?_, ?_, ⟨hB3.congr (hu4.trans hused3.symm) rfl fun k _ => by rw [hd4],
      Or.inr ⟨fun k hk => ?_, ?_⟩⟩, ?_, fun b => ?_, fun b hb => (howns b).2 (hg2.owns hb),
      fun b hb => hg2.fresh b ((howns b).1 hb), fun b hb hne => ?_, ?_⟩
    · rw [hlen, hino3, hg2.inode]
    · rw [hv4, hv3, hg2.vol, ← hno2]
      rfl
    · rw [hd4, hall k hk, hC.iff k hk]
      exact Nat.lt_succ_iff
    · exact hC.table.trans Nat.lt_succ_iff
    · rw [hd4]
      exact content_of_writes hok hg2 hw hlt (fun k h1 h2 => (haddr k h1 h2).1) rfl hall
    · rw [howns, hu4]
      exact hg2.used b
    · have hb0 : b ≠ 0 := by
        have h1 : p.sb.dataStartLba ≤ b := Partition.dataStart_le_of_used hb
        have h2 : 0 < p.sb.dataStartLba := hL.addressable.pos
        omega
      have hne2 : ¬ OwnsBlock p2.vol.data ino2 b := fun h => by
        rcases hg2.fresh b h with h | h
        · exact hne h
        · rw [h] at hb
          exact Bool.noConfusion hb
      have hw3 := hw.frame b fun k h1 h2 heq =>
        hne2 ⟨hb0, Or.inr ⟨k, (haddr k h1 h2).2.2, by rw [heq, (haddr k h1 h2).1]⟩⟩
      rw [hd4, hw3, hg2.frame b hb fun h => hne ⟨hb0, Or.inl h⟩]
    · have h0 : ino3.iSectors 0 ≠ 0 := by
        have := (hC.iff 0 (by omega)).2 (by omega)
        rwa [allBlocks_of_lt (by omega)] at this
      have hfree : p4.vol.freeBlocks = p2.vol.freeBlocks := by
        rw [hv4, hv3]
        rfl
      have h1 := hC.card
      rw [hfree, blocksHeld, if_neg h0, ← hcard1]
      exact h1

end Append

/-! ## Several writes and several reads -/

/-- A byte string as the argument of a call. -/
def bufOf (bytes : List UInt8) : Buf := fun i => bytes.getD i 0

theorem map_bufOf (bytes : List UInt8) : (List.range bytes.length).map (bufOf bytes) = bytes := by
  refine List.ext_getElem (by simp) fun i h1 h2 => ?_
  simp [bufOf, h2]

/-- One `file_write` for each byte string of a list. -/
def writeAll (p : Partition) (file : File) (inode : Inode) :
    List (List UInt8) → Outcome (List (Option ℕ) × Partition × File × Inode)
  | [] => return ([], p, file, inode)
  | bytes :: rest => do
    let (res, p, file, inode) ← fileWrite p file inode (bufOf bytes) bytes.length
    let (ress, p, file, inode) ← writeAll p file inode rest
    return (res :: ress, p, file, inode)

/-- One `file_read` for each count of a list, and all bytes delivered. -/
def readAll (d : Disk) (file : File) (inode : Inode) : List ℕ → Outcome (List UInt8)
  | [] => return []
  | n :: rest => do
    let (_, bytes, file) ← fileRead d file inode n
    return bytes ++ (← readAll d file inode rest)

theorem blockCost_mono {m n : ℕ} (h : m ≤ n) : blockCost m ≤ blockCost n := by
  unfold blockCost
  split <;> split <;> omega

theorem WriteRoom.zero {v : Volume} {ino : Inode} {count : ℕ} (h : WriteRoom v ino count) :
    WriteRoom v ino 0 :=
  ⟨lt_of_le_of_lt (Nat.add_le_add_left (Nat.zero_le _) _) h.size,
    (blockCost_mono (by omega)).trans h.blocks⟩

theorem exists_writeAll {ws : List (List UInt8)} : ∀ {p : Partition} {ino : Inode} (file : File),
    p.Layout → p.vol.used p.sb.dataStartLba = true → ino.Fits → FileOk p.vol ino → ino.OneSector →
    ino.iSize + ws.flatten.length < 71168 →
    blockCost ((ino.iSize + ws.flatten.length) / 512 + 1) ≤
      blocksHeld ino + p.vol.freeBlocks.card →
    ∃ p' file' ino', writeAll p file ino ws = .ok (ws.map fun w => some w.length, p', file', ino') ∧
      FileOk p'.vol ino' ∧ content p'.vol.data ino' = content p.vol.data ino ++ ws.flatten := by
  induction ws with
  | nil =>
    intro p ino file _ _ _ hok _ _ _
    exact ⟨p, file, ino, rfl, hok, (List.append_nil _).symm⟩
  | cons w ws ih =>
    intro p ino file hL hroot hf hok hone hlt hcard
    rw [List.flatten_cons, List.length_append] at hlt hcard
    obtain ⟨p1, pos, ino1, hrun, happ⟩ := exists_fileWrite hL hroot hf hok file (bufOf w)
      w.length ⟨by omega, le_trans (blockCost_mono (by omega)) hcard⟩
    rw [map_bufOf] at happ
    rw [if_pos hone] at hrun
    have hsize : ino1.iSize = ino.iSize + w.length := by rw [happ.inode]
    have hL1 := hL.of_geometry (congrArg Volume.geometry happ.vol)
    have hsb : p1.sb = p.sb := congrArg (·.geometry.sb) happ.vol
    have hf1 : ino1.Fits := happ.file.blocks.fits hL1 (by rw [happ.inode]; exact hf.iNo) (by omega)
    obtain ⟨p2, file2, ino2, hrun2, hok2, hc2⟩ := ih { file with fdPos := pos } hL1
      (by rw [hsb]; exact (happ.used _).2 (Or.inl hroot)) hf1 happ.file
      (by rw [happ.inode]; exact hone) (by omega)
      (by rw [hsize, add_assoc, add_comm (blocksHeld _), happ.card, add_comm _ (blocksHeld _)]
          exact hcard)
    refine ⟨p2, file2, ino2, ?_, hok2, ?_⟩
    · rw [writeAll, hrun, ok_bind]
      simp only [hrun2, List.map_cons]
      rfl
    · rw [hc2, happ.content, List.append_assoc, List.flatten_cons]

theorem readAll_eq {d : Disk} {ino : Inode} (hsize : ino.iSize < 71168)
    (hH : ino.iSize = 0 ∨ HasBlocks d ino) {ns : List ℕ} : ∀ {file : File},
    file.fdPos ≤ ino.iSize → (∀ n ∈ ns, 1 ≤ n ∧ ino.iSize + n < 4294967296) →
    readAll d file ino ns = .ok (((content d ino).drop file.fdPos).take ns.sum) := by
  induction ns with
  | nil =>
    intro file _ _
    rw [readAll, List.sum_nil, List.take_zero]
    rfl
  | cons n ns ih =>
    intro file hpos hns
    have hn := hns n (List.mem_cons_self ..)
    have hns' := fun m hm => hns m (List.mem_cons_of_mem _ hm)
    have hlen := content_length d ino
    rw [readAll, List.sum_cons]
    rcases hpos.eq_or_lt with heq | hlt
    · rw [fileRead_of_eq heq hn.1 (by omega), ok_bind]
      simp only [ih hpos hns', ok_bind]
      rw [List.drop_of_length_le (by omega), List.take_nil, List.take_nil]
      rfl
    · have hH' := hH.resolve_left (by omega)
      rw [fileRead_of_lt hH' hsize hlt hn.1 (by omega), ok_bind]
      simp only
      rw [ih (by simp only; omega) hns', ok_bind, ← List.drop_drop]
      refine congrArg Except.ok (take_append_take_drop ?_)
      rw [List.length_drop]
      omega

/-! ## Append-only files -/

/-- On the blocks of a file a partition and its volume agree. -/
theorem FileOk.content_vol {p : Partition} {ino : Inode} (hok : FileOk p.vol ino)
    (hsize : ino.iSize < 71168) : content p.disk ino = content p.vol.data ino := by
  rw [content_eq_map, content_eq_map]
  refine List.map_congr_left fun i hi => ?_
  have hi := List.mem_range.1 hi
  have hH := hok.shape.resolve_left fun h => by omega
  have h0 := (hH.iff (i / 512) (by omega)).2 (by omega)
  rw [fileByte, fileByte, hok.blocks.allBlocks_vol, Partition.vol_data
    (Partition.dataStart_le_of_used (hok.blocks.used _ (by omega) h0))]

theorem FileOk.hasBlocks_disk {p : Partition} {ino : Inode} (hok : FileOk p.vol ino) :
    ino.iSize = 0 ∨ HasBlocks p.disk ino := by
  rcases hok.shape with h | h
  · exact Or.inl h.1
  · exact Or.inr ⟨fun k hk => by rw [hok.blocks.allBlocks_vol]; exact h.iff k hk, h.table⟩

theorem FileOk.ownsBlock_disk {p : Partition} {ino : Inode} (hok : FileOk p.vol ino) (b : ℕ) :
    OwnsBlock p.disk ino b ↔ OwnsBlock p.vol.data ino b :=
  OwnsBlock.congr rfl (fun _ _ => hok.blocks.allBlocks_vol) b

/-- A new inode is well formed. -/
theorem fileOk_inodeInit (v : Volume) (n : ℕ) : FileOk v (inodeInit n) :=
  ⟨blocksOk_inodeInit v n, Or.inl ⟨rfl, fun _ _ => rfl⟩⟩

/-- The file is an append-only byte string. `file_write` appends the bytes it is given, `file_read`
returns the bytes at its position, and so what several writes append is what several reads return,
however the string is split. -/
structure AppendOnly (p : Partition) (ino : Inode) (file : File) : Prop where
  write : ∀ (buf : Buf) (count : ℕ), WriteRoom p.vol ino count →
    ∃ p' pos ino', fileWrite p file ino buf count =
        .ok (some count, p', { file with fdPos := pos }, ino') ∧
      FileOk p'.vol ino' ∧ ino'.iSize = ino.iSize + count ∧
      content p'.disk ino' = content p.disk ino ++ (List.range count).map buf ∧
      ∀ b, p.vol.used b = true → ¬ OwnsBlock p.disk ino b →
        p'.vol.used b = true ∧ p'.disk b = p.disk b
  read : ino.iSize < 71168 → ∀ n, 1 ≤ n → file.fdPos + n < 4294967296 →
    (file.fdPos < ino.iSize →
      fileRead p.disk file ino n = .ok (some (min n (ino.iSize - file.fdPos)),
        ((content p.disk ino).drop file.fdPos).take (min n (ino.iSize - file.fdPos)),
        { file with fdPos := file.fdPos + min n (ino.iSize - file.fdPos) })) ∧
    (file.fdPos = ino.iSize → fileRead p.disk file ino n = .ok (none, [], file))
  splits : ∀ ws : List (List UInt8), WriteRoom p.vol ino ws.flatten.length →
    ∃ p' file' ino',
      writeAll p file ino ws = .ok (ws.map fun w => some w.length, p', file', ino') ∧
      ∀ ns : List ℕ, (∀ n ∈ ns, 1 ≤ n ∧ ino.iSize + ws.flatten.length + n < 4294967296) →
        readAll p'.disk { file' with fdPos := 0 } ino' ns =
          .ok ((content p.disk ino ++ ws.flatten).take ns.sum)

/-- **Files are append-only byte strings** if and only if the slot of the inode lies in one sector,
or no write is possible at all. -/
theorem appendOnly_iff {p : Partition} {ino : Inode} (hL : p.Layout)
    (hroot : p.vol.used p.sb.dataStartLba = true) (hf : ino.Fits) (hok : FileOk p.vol ino)
    (file : File) : AppendOnly p ino file ↔ (WriteRoom p.vol ino 0 → ino.OneSector) := by
  refine ⟨fun h hroom => ?_, fun h => ⟨fun buf count hroom => ?_,
    fun hsize n hn hpos => ⟨fun hlt => ?_, fun heq => ?_⟩, fun ws hroom => ?_⟩⟩
  · by_contra hone
    obtain ⟨p', pos, ino', hrun, -⟩ := h.write zero 0 hroom
    obtain ⟨_, _, _, hrun', -⟩ := exists_fileWrite hL hroot hf hok file zero 0 hroom
    rw [hrun', if_neg hone] at hrun
    cases hrun
  · obtain ⟨p', pos, ino', hrun, happ⟩ := exists_fileWrite hL hroot hf hok file buf count hroom
    rw [if_pos (h hroom.zero)] at hrun
    have hlt := hroom.size
    have hsize : ino'.iSize = ino.iSize + count := by rw [happ.inode]; simp
    refine ⟨p', pos, ino', hrun, happ.file, hsize, ?_, fun b hb hne => ?_⟩
    · rw [happ.file.content_vol (by omega), happ.content, hok.content_vol (by omega)]
    · have hb' := (happ.used b).2 (Or.inl hb)
      refine ⟨hb', ?_⟩
      rw [Partition.disk_of_used hb', happ.frame b hb ((hok.ownsBlock_disk b).not.1 hne),
        Partition.disk_of_used hb]
  · exact fileRead_of_lt (hok.hasBlocks_disk.resolve_left (by omega)) hsize hlt hn hpos
  · exact fileRead_of_eq heq hn hpos
  · have hlt := hroom.size
    obtain ⟨p', file', ino', hrun, hok', hcont⟩ :=
      exists_writeAll file hL hroot hf hok (h hroom.zero) hlt hroom.blocks
    have hsize : ino'.iSize = ino.iSize + ws.flatten.length := by
      rw [← content_length p'.vol.data, hcont, List.length_append, content_length]
    refine ⟨p', file', ino', hrun, fun ns hns => ?_⟩
    rw [← hsize] at hns
    rw [readAll_eq (by omega) hok'.hasBlocks_disk (Nat.zero_le _) hns, List.drop_zero,
      hok'.content_vol (by omega), hcont, hok.content_vol (by omega)]

theorem writeRoom_blank {count : ℕ} (hcount : count < 512) (n : ℕ) :
    WriteRoom blankPartition.vol (inodeInit n) count := by
  have hcard : 1 ≤ blankPartition.vol.freeBlocks.card :=
    Finset.card_pos.2 ⟨1, Finset.mem_filter.2 ⟨Finset.mem_range.2 (by decide), rfl⟩⟩
  have hsize : (inodeInit n).iSize + count = count := Nat.zero_add count
  refine ⟨by omega, ?_⟩
  rw [hsize, Nat.div_eq_of_lt hcount]
  exact le_trans hcard (Nat.le_add_left _ _)

/-- A new file on a blank partition: "ab" and "c" are written and read back in two pieces. -/
theorem appendOnly_abc :
    AppendOnly blankPartition (inodeInit 1) { fdPos := 0, fdFlag := 2, fdInode := none } ∧
    ∃ p' file' ino', writeAll blankPartition { fdPos := 0, fdFlag := 2, fdInode := none }
        (inodeInit 1) [[97, 98], [99]] = .ok ([some 2, some 1], p', file', ino') ∧
      readAll p'.disk { file' with fdPos := 0 } ino' [1, 5] = .ok [97, 98, 99] := by
  have h := (appendOnly_iff blankPartition_layout rfl (inodeInit_fits (by decide))
    (fileOk_inodeInit _ 1) { fdPos := 0, fdFlag := 2, fdInode := none }).2 fun _ => by decide
  obtain ⟨p', file', ino', hw, hr⟩ := h.splits [[97, 98], [99]] (writeRoom_blank (by decide) 1)
  exact ⟨h, p', file', ino', hw, hr [1, 5] (by decide)⟩

/-- A new file with the inode number 6, whose slot lies in two sectors: `inode_sync` transfers them
through the buffer for one. -/
theorem not_appendOnly_six : blankPartition.Layout ∧
    blankPartition.vol.used blankPartition.sb.dataStartLba = true ∧ (inodeInit 6).Fits ∧
    FileOk blankPartition.vol (inodeInit 6) ∧ WriteRoom blankPartition.vol (inodeInit 6) 3 ∧
    ∀ file, (∀ buf, fileWrite blankPartition file (inodeInit 6) buf 3 = .error .fault) ∧
      ¬ AppendOnly blankPartition (inodeInit 6) file := by
  have hroom := writeRoom_blank (show 3 < 512 by decide) 6
  have hfault : ∀ file buf,
      fileWrite blankPartition file (inodeInit 6) buf 3 = .error .fault := fun file buf => by
    obtain ⟨_, _, _, hrun, -⟩ := exists_fileWrite blankPartition_layout rfl
      (inodeInit_fits (by decide)) (fileOk_inodeInit _ 6) file buf 3 hroom
    rwa [if_neg (by decide)] at hrun
  refine ⟨blankPartition_layout, rfl, inodeInit_fits (by decide), fileOk_inodeInit _ 6, hroom,
    fun file => ⟨hfault file, fun h => ?_⟩⟩
  obtain ⟨_, _, _, hrun, -⟩ := h.write zero 3 hroom
  rw [hfault] at hrun
  cases hrun

end Gardos.Fs
