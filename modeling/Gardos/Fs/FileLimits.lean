import Gardos.Fs.Content

/-!
# The limits of files

`file_write` refuses what would make a file longer than 71680 bytes, that is 140 blocks, and
`file_read` what lies behind the end. Both add a size and a count as 32-bit words.

* A file of `n` bytes is taken to use `n / 512 + 1` blocks, one more than it needs when `n` is a
  multiple of 512. `file_write` asserts that these are at most 140, and `file_read` that the last
  block it looks at has an index below 139. What is left are the files below 71168 bytes
  (`works_iff`).
* With a sum that wraps around, both guards let the request pass (`boundsHold_iff`).
-/

namespace Gardos.Fs

open Bytes Outcome

section

variable {p p' : Partition} {ino ino' : Inode} {file : File} {buf : Buf} {count : ℕ}

/-! ## The size of a file that is written -/

theorem firstBlock_iSize {done : Bool} (h : firstBlock p ino = .ok (done, p', ino')) :
    ino'.iSize = ino.iSize := by
  unfold firstBlock at h
  split at h
  · obtain ⟨-, -, rfl⟩ := ok_triple h
    rfl
  · obtain ⟨⟨b, q⟩, -, h⟩ := bind_eq_ok.1 h
    cases b with
    | none =>
      obtain ⟨-, -, rfl⟩ := ok_triple h
      rfl
    | some lba =>
      obtain ⟨-, -, h⟩ := bind_eq_ok.1 h
      obtain ⟨-, -, rfl⟩ := ok_triple h
      rfl

theorem allocBlocks_iSize {todo : ℕ} : ∀ {p : Partition} {ino : Inode} {blocks blocks' : ℕ → ℕ}
    {k : ℕ} {done : Bool}, allocBlocks p ino blocks todo k = .ok (done, p', ino', blocks') →
    ino'.iSize = ino.iSize := by
  induction todo with
  | zero =>
    intro p ino blocks blocks' k done h
    obtain ⟨-, -, rfl, -⟩ := ok_quad h
    rfl
  | succ todo ih =>
    intro p ino blocks blocks' k done h
    obtain ⟨⟨b, q⟩, -, h⟩ := bind_eq_ok.1 h
    cases b with
    | none =>
      obtain ⟨-, -, rfl, -⟩ := ok_quad h
      rfl
    | some lba =>
      by_cases hk : k < 12
      · simp only [hk, if_true] at h
        obtain ⟨-, -, h⟩ := bind_eq_ok.1 h
        exact (ih h).trans rfl
      · simp only [hk, if_false] at h
        exact ih h

theorem collectWrite_iSize {has will : ℕ} {done : Bool} {blocks : ℕ → ℕ}
    (h : collectWrite p ino has will = .ok (done, p', ino', blocks)) : ino'.iSize = ino.iSize := by
  simp only [collectWrite] at h
  split at h
  · split at h
    · obtain ⟨-, -, rfl, -⟩ := ok_quad h
      rfl
    · obtain ⟨-, -, h⟩ := bind_eq_ok.1 h
      obtain ⟨-, -, rfl, -⟩ := ok_quad h
      rfl
  · split at h
    · obtain ⟨-, -, h⟩ := bind_eq_ok.1 h
      exact allocBlocks_iSize h
    · split at h
      · obtain ⟨⟨b, q⟩, -, h⟩ := bind_eq_ok.1 h
        cases b with
        | none =>
          obtain ⟨-, -, rfl, -⟩ := ok_quad h
          rfl
        | some lba =>
          obtain ⟨-, -, h⟩ := bind_eq_ok.1 h
          obtain ⟨⟨d, q', i', b'⟩, hall, h⟩ := bind_eq_ok.1 h
          have hsize := allocBlocks_iSize hall
          cases d <;>
          · obtain ⟨-, -, rfl, -⟩ := ok_quad h
            exact hsize
      · obtain ⟨-, -, h⟩ := bind_eq_ok.1 h
        obtain ⟨⟨d, q', i', b'⟩, hall, h⟩ := bind_eq_ok.1 h
        have hsize := allocBlocks_iSize hall
        cases d <;>
        · obtain ⟨-, -, rfl, -⟩ := ok_quad h
          exact hsize

/-- The loop writes all that is left, as long as each round writes something. -/
theorem writeLoop_sizes {blocks : ℕ → ℕ} {src : Buf} {fuel : ℕ} :
    ∀ {p : Partition} {ino : Inode} {pos off left : ℕ} {first : Bool}, left ≤ fuel →
    (writeLoop blocks src fuel p ino pos off left first).2.1.iSize % 4294967296 =
        (ino.iSize + left) % 4294967296 ∧
      (writeLoop blocks src fuel p ino pos off left first).2.2 % 4294967296 =
        (pos + left) % 4294967296 := by
  induction fuel with
  | zero =>
    intro p ino pos off left first h
    obtain rfl : left = 0 := by omega
    exact ⟨rfl, rfl⟩
  | succ fuel ih =>
    intro p ino pos off left first h
    rw [writeLoop]
    by_cases hl : left = 0
    · rw [if_pos hl, hl]
      exact ⟨rfl, rfl⟩
    · rw [if_neg hl]
      simp only
      generalize hchunk : min left (512 - ino.iSize % 512) = chunk
      have hpos : 0 < chunk := by omega
      refine ⟨(ih (by omega)).1.trans ?_, (ih (by omega)).2.trans ?_⟩
      · simp only
        omega
      · omega

/-- A write that returns has made the file longer by the bytes it was given. -/
theorem fileWrite_iSize {n : ℕ} {file' : File} (hsize : ino.iSize + count < 4294967296)
    (h : fileWrite p file ino buf count = .ok (some n, p', file', ino')) :
    ino'.iSize % 4294967296 = ino.iSize + count := by
  unfold fileWrite at h
  split at h
  · cases h
  · obtain ⟨⟨done, p1, ino1⟩, hfirst, h⟩ := bind_eq_ok.1 h
    have h1 := firstBlock_iSize hfirst
    cases done with
    | false => cases h
    | true =>
      obtain ⟨-, -, h⟩ := bind_eq_ok.1 h
      obtain ⟨⟨done, p2, ino2, blocks⟩, hcol, h⟩ := bind_eq_ok.1 h
      have h2 := collectWrite_iSize hcol
      cases done with
      | false => cases h
      | true =>
        obtain ⟨p3, -, h⟩ := bind_eq_ok.1 h
        obtain ⟨-, -, -, rfl⟩ := ok_quad h
        rw [(writeLoop_sizes le_rfl).1, h2, h1, Nat.mod_eq_of_lt hsize]

/-! ## Sizes that the guard admits -/

/-- `file_write` returns `count`, and no read of the file it leaves fails an assertion. -/
def Works (p : Partition) (file : File) (ino : Inode) (buf : Buf) (count : ℕ) : Prop :=
  ∃ p' file' ino', fileWrite p file ino buf count = .ok (some count, p', file', ino') ∧
    ∀ pos n, pos ≤ ino'.iSize → pos + n < 4294967296 →
      ∃ r, fileRead p'.disk { file' with fdPos := pos } ino' n = .ok r

/-- A read of no bytes: the block at the position is looked up all the same. -/
theorem fileRead_zero {d : Disk} (hpos : file.fdPos ≤ ino.iSize)
    (hlt : file.fdPos < 4294967296) : fileRead d file ino 0 = (do
      assert (file.fdPos / 512 < 139)
      return (some 0, [], file)) := by
  have hcol : ∃ blocks, collectRead d ino (file.fdPos / 512) (file.fdPos / 512) = .ok blocks := by
    unfold collectRead
    rw [if_pos rfl]
    split <;> exact ⟨_, rfl⟩
  obtain ⟨blocks, hcol⟩ := hcol
  have hnot : ¬ ino.iSize < file.fdPos := by omega
  unfold fileRead
  simp only [Nat.add_zero, Nat.mod_eq_of_lt hlt, hnot, if_false, false_and, and_self, hcol, ok_bind]
  rfl

/-- A file below 71168 bytes can be read at every position. -/
theorem exists_fileRead {d : Disk} (hH : ino.iSize = 0 ∨ HasBlocks d ino)
    (hsize : ino.iSize < 71168) (hpos : file.fdPos ≤ ino.iSize)
    (hlt : file.fdPos + count < 4294967296) : ∃ r, fileRead d file ino count = .ok r := by
  by_cases hcount : count = 0
  · subst hcount
    rw [fileRead_zero hpos hlt]
    exact ⟨_, bind_eq_ok.2 ⟨(), assert_eq_ok.2 (by omega), rfl⟩⟩
  · rcases Nat.lt_or_eq_of_le hpos with hlt' | heq
    · exact ⟨_, fileRead_of_lt (hH.resolve_left (by omega)) hsize hlt' (by omega) hlt⟩
    · exact ⟨_, fileRead_of_eq heq (by omega) hlt⟩

/-- A read of no bytes at the end of a longer file fails the assertion on block indices. -/
theorem not_works (hle : 71168 ≤ ino.iSize + count) (hmax : ino.iSize + count ≤ 71680) :
    ¬ Works p file ino buf count := by
  rintro ⟨p', file', ino', hw, hr⟩
  have hsize := fileWrite_iSize (by omega) hw
  obtain ⟨r, hr⟩ := hr (ino'.iSize % 4294967296) 0 (Nat.mod_le ..) (by omega)
  rw [fileRead_zero (Nat.mod_le ..) (Nat.mod_lt _ (by omega))] at hr
  obtain ⟨_, hassert, -⟩ := bind_eq_ok.1 hr
  have := assert_eq_ok.1 hassert
  simp only at this
  omega

/-- **Sizes that work.** For a well-formed file and a count that the guard of `file_write` admits,
with enough free blocks, the write and all reads after it go through exactly when the file stays
below 139 blocks and the slot of its inode lies in one sector. -/
theorem works_iff (hL : p.Layout) (hroot : p.vol.used p.sb.dataStartLba = true) (hf : ino.Fits)
    (hok : FileOk p.vol ino) (file : File) (buf : Buf) (count : ℕ)
    (hmax : ino.iSize + count ≤ 71680)
    (hcard : blockCost ((ino.iSize + count) / 512 + 1) ≤ blocksHeld ino + p.vol.freeBlocks.card) :
    Works p file ino buf count ↔ ino.iSize + count < 71168 ∧ ino.OneSector := by
  by_cases hlt : ino.iSize + count < 71168
  swap
  · exact iff_of_false (not_works (by omega) hmax) fun h => hlt h.1
  obtain ⟨p', pos, ino', hrun, happ⟩ :=
    exists_fileWrite hL hroot hf hok file buf count ⟨hlt, hcard⟩
  constructor
  · rintro ⟨_, _, _, hw, -⟩
    refine ⟨hlt, ?_⟩
    by_contra hone
    rw [hrun, if_neg hone] at hw
    cases hw
  · rintro ⟨-, hone⟩
    rw [if_pos hone] at hrun
    have hsize : ino'.iSize = ino.iSize + count := by rw [happ.inode]; simp
    exact ⟨p', _, ino', hrun, fun pos n hpos hn =>
      exists_fileRead happ.file.hasBlocks_disk (by omega) hpos hn⟩

/-- Three bytes on a blank partition. -/
theorem works_three : Works blankPartition { fdPos := 0, fdFlag := 2, fdInode := none }
    (inodeInit 1) zero 3 :=
  (works_iff blankPartition_layout rfl (inodeInit_fits (by decide)) (fileOk_inodeInit _ 1)
    _ zero 3 (by decide) (writeRoom_blank (by decide) 1).blocks).2 ⟨by decide, by decide⟩

theorem blankPartition_free {b : ℕ} (h0 : 1 ≤ b) (h1 : b < 4096) :
    b ∈ blankPartition.vol.freeBlocks := by
  refine Finset.mem_filter.2 ⟨Finset.mem_range.2 h1, ?_⟩
  rw [← Bool.not_eq_true]
  intro hused
  obtain ⟨-, -, hbit⟩ := Partition.used_iff.1 hused
  rw [Partition.vol_geometry, Partition.geometry, Nat.add_sub_cancel_left] at hbit
  have : b = 0 := of_decide_eq_true hbit
  omega

/-- The documented maximum of 140 blocks, written to a new file. -/
theorem not_works_max : blankPartition.Layout ∧
    blankPartition.vol.used blankPartition.sb.dataStartLba = true ∧ (inodeInit 1).Fits ∧
    FileOk blankPartition.vol (inodeInit 1) ∧ (inodeInit 1).iSize + 71680 ≤ 71680 ∧
    blockCost (((inodeInit 1).iSize + 71680) / 512 + 1) ≤
      blocksHeld (inodeInit 1) + blankPartition.vol.freeBlocks.card ∧
    ¬ Works blankPartition { fdPos := 0, fdFlag := 2, fdInode := none } (inodeInit 1) zero
      71680 := by
  have hsub : Finset.Ico 1 143 ⊆ blankPartition.vol.freeBlocks := fun b hb => by
    rw [Finset.mem_Ico] at hb
    exact blankPartition_free hb.1 (by omega)
  have hcard := Finset.card_le_card hsub
  rw [Nat.card_Ico] at hcard
  refine ⟨blankPartition_layout, rfl, inodeInit_fits (by decide), fileOk_inodeInit _ 1, by decide,
    ?_, not_works (by decide) (by decide)⟩
  exact le_trans (show blockCost (((inodeInit 1).iSize + 71680) / 512 + 1) ≤ 142 by decide)
    (hcard.trans (Nat.le_add_left ..))

/-! ## Counts of 32 bits -/

/-- What the guards are for: a write that would make the file longer than 71680 bytes is refused and
nothing changes, and a read stays inside the file. -/
structure BoundsHold (p : Partition) (file : File) (ino : Inode) (buf : Buf)
    (count : ℕ) : Prop where
  write : 71680 < ino.iSize + count →
    fileWrite p file ino buf count = .ok (none, p, file, ino)
  read : ∀ n bytes file', fileRead p.disk file ino count = .ok (some n, bytes, file') →
    n ≤ ino.iSize - file.fdPos ∧ bytes.length = n ∧ file'.fdPos ≤ ino.iSize
  readEnd : ∀ bytes file', fileRead p.disk file ino count = .ok (none, bytes, file') →
    file'.fdPos ≤ ino.iSize

theorem fileRead_bounds {d : Disk} {r : Option ℕ} {bytes : List UInt8} {file' : File}
    (hpos : file.fdPos ≤ ino.iSize) (hlt : file.fdPos + count < 4294967296)
    (hsize : ino.iSize < 4294967296) (h : fileRead d file ino count = .ok (r, bytes, file')) :
    (∀ n, r = some n → n ≤ ino.iSize - file.fdPos ∧ bytes.length = n) ∧
      file'.fdPos ≤ ino.iSize := by
  unfold fileRead at h
  simp only [Nat.mod_eq_of_lt hlt] at h
  generalize hsz : (if ino.iSize < file.fdPos + count then
    (ino.iSize + (4294967296 - file.fdPos)) % 4294967296 else count) = size at h
  have hle : size ≤ ino.iSize - file.fdPos := by
    rw [← hsz]
    split <;> omega
  split at h
  · obtain ⟨rfl, -, rfl⟩ := ok_triple h
    exact ⟨fun n hn => (by cases hn), hpos⟩
  · obtain ⟨-, -, h⟩ := bind_eq_ok.1 h
    obtain ⟨blocks, -, h⟩ := bind_eq_ok.1 h
    rw [readLoop_eq le_rfl (by omega)] at h
    obtain ⟨rfl, rfl, rfl⟩ := ok_triple h
    refine ⟨fun n hn => ?_, by simp only; omega⟩
    obtain rfl := Option.some.inj hn
    exact ⟨hle, by rw [List.length_map, List.length_range]⟩

/-- No block is allocated for a file that does not get more blocks. -/
theorem collectWrite_ne_false {has will : ℕ} (hle : will ≤ has)
    {r : Partition × Inode × (ℕ → ℕ)} : collectWrite p ino has will ≠ .ok (false, r) := by
  intro h
  simp only [collectWrite] at h
  split at h
  · split at h
    · cases h
    · obtain ⟨-, -, h⟩ := bind_eq_ok.1 h
      cases h
  · rw [Nat.sub_eq_zero_of_le hle] at h
    split at h
    · obtain ⟨-, -, h⟩ := bind_eq_ok.1 h
      cases h
    · split at h
      · omega
      · obtain ⟨-, -, h⟩ := bind_eq_ok.1 h
        obtain ⟨⟨d, q', i', b'⟩, hall, h⟩ := bind_eq_ok.1 h
        obtain ⟨rfl, -⟩ := ok_pair hall
        cases h

/-- With a sum that wraps around, `file_write` does not refuse. -/
theorem fileWrite_ne_none (hd : p.ndebug = false) (hsize : ino.iSize ≤ 71680)
    (hcount : count < 4294967296) (hwrap : 4294967296 ≤ ino.iSize + count)
    (r : Partition × File × Inode) : fileWrite p file ino buf count ≠ .ok (none, r) := by
  intro h
  unfold fileWrite at h
  rw [if_neg (by omega)] at h
  obtain ⟨⟨done, p1, ino1⟩, hfirst, h⟩ := bind_eq_ok.1 h
  have h1 := firstBlock_iSize hfirst
  cases done with
  | false =>
    -- the first block is only missing when the bitmap is full, and then `bitmap_scan` stops
    unfold firstBlock at hfirst
    split at hfirst
    · cases hfirst
    · obtain ⟨⟨b, q⟩, halloc, hfirst⟩ := bind_eq_ok.1 hfirst
      cases b with
      | none => exact Partition.blockBitmapAlloc_ne_none hd halloc
      | some lba =>
        obtain ⟨-, -, hfirst⟩ := bind_eq_ok.1 hfirst
        cases hfirst
  | true =>
    obtain ⟨-, -, h⟩ := bind_eq_ok.1 h
    obtain ⟨⟨done, p2, ino2, blocks⟩, hcol, h⟩ := bind_eq_ok.1 h
    cases done with
    | true =>
      obtain ⟨p3, -, h⟩ := bind_eq_ok.1 h
      cases h
    | false =>
      -- the file seems to get shorter, so that no block is needed
      exact collectWrite_ne_false (by omega) hcol

/-- **Bounds for all counts.** The guards keep to the size of the file for exactly those counts
whose sum with it is below `2 ^ 32`. -/
theorem boundsHold_iff (hd : p.ndebug = false) (file : File) (ino : Inode) (buf : Buf) (count : ℕ)
    (hpos : file.fdPos ≤ ino.iSize) (hsize : ino.iSize ≤ 71680) (hcount : count < 4294967296) :
    BoundsHold p file ino buf count ↔ ino.iSize + count < 4294967296 := by
  constructor
  · intro h
    by_contra hwrap
    exact fileWrite_ne_none hd hsize hcount (by omega) _ (h.write (by omega))
  · intro hlt
    refine ⟨fun hexc => ?_, fun n bytes file' hr => ?_, fun bytes file' hr => ?_⟩
    · unfold fileWrite
      rw [if_pos (by omega)]
      rfl
    · obtain ⟨hn, hpos'⟩ := fileRead_bounds hpos (by omega) (by omega) hr
      exact ⟨(hn n rfl).1, (hn n rfl).2, hpos'⟩
    · exact (fileRead_bounds hpos (by omega) (by omega) hr).2

/-- A hundred bytes on a file of three. -/
theorem boundsHold_hundred : BoundsHold blankPartition { fdPos := 1, fdFlag := 2, fdInode := none }
    { inodeInit 1 with iSize := 3 } zero 100 :=
  (boundsHold_iff rfl _ _ zero 100 (by decide) (by decide) (by decide)).2 (by decide)

/-- With a file of one byte, a count of `2 ^ 32 - 1` passes for a sum of zero. -/
theorem not_boundsHold_wrap :
    ¬ BoundsHold blankPartition { fdPos := 0, fdFlag := 2, fdInode := none }
      { inodeInit 1 with iSize := 1 } zero 4294967295 := fun h =>
  fileWrite_ne_none rfl (by decide) (by decide) (by decide) _ (h.write (by decide))

end

end Gardos.Fs
