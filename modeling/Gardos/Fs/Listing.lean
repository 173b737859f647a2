import Gardos.Fs.Insert

/-!
# Listing a directory

`dir_read` starts at the first block on every call and passes over as many entries as it has
returned before, while the end of the directory is known from `i_size` alone. `dirReads_eq`: if
`i_size` agrees with the entries there are, a sequence of calls lists them in the order in which
they lie on the disk, and then returns `NULL` for ever.
-/

namespace Gardos.Fs

open Bytes Outcome

/-- Several calls of `dir_read` in a row: what they return, and the position they end at. -/
def dirReads (d : Disk) (inode : Inode) : (n dirPos : ℕ) → Outcome (List (Option DirEntry) × ℕ)
  | 0, dirPos => return ([], dirPos)
  | n + 1, dirPos => do
    let (e, dirPos) ← dirRead d inode dirPos
    let (es, dirPos) ← dirReads d inode n dirPos
    return (e :: es, dirPos)

/-! ## One call -/

section

variable {d : Disk} {ino : Inode}

/-- The entries in use of a sector from `j` on. -/
def liveFrom (sec : Buf) (left j : ℕ) : List DirEntry :=
  (List.range' j left).flatMap fun i => if (getEntry sec i).Live then [getEntry sec i] else []

/-- Those of the blocks from `k` on. -/
def liveBlocks (d : Disk) (blocks : ℕ → ℕ) (left k : ℕ) : List DirEntry :=
  (List.range' k left).flatMap fun i => liveAt d (blocks i)

theorem liveFrom_succ (sec : Buf) (left j : ℕ) : liveFrom sec (left + 1) j =
    (if (getEntry sec j).Live then [getEntry sec j] else []) ++ liveFrom sec left (j + 1) := by
  rw [liveFrom, List.range'_succ, List.flatMap_cons]
  rfl

theorem liveBlocks_succ (d : Disk) (blocks : ℕ → ℕ) (left k : ℕ) :
    liveBlocks d blocks (left + 1) k = liveAt d (blocks k) ++ liveBlocks d blocks left (k + 1) := by
  rw [liveBlocks, List.range'_succ, List.flatMap_cons]
  rfl

theorem liveFrom_zero (sec : Buf) : liveFrom sec 21 0 = liveIn sec := by
  rw [liveFrom, liveIn, List.range_eq_range']

/-- With `a` entries passed, the loop over a sector stops at the one that makes `a + b + 1`, if
there is one, and otherwise passes all. -/
theorem readSector_eq {sec : Buf} {a b left j : ℕ} :
    readSector sec (24 * (a + b)) left j (24 * a) = .ok ((liveFrom sec left j)[b]?,
      24 * (a + min b (liveFrom sec left j).length)) := by
  induction left generalizing a b j with
  | zero => simp [readSector, liveFrom, pure, Except.pure]
  | succ left ih =>
    rw [readSector, liveFrom_succ]
    by_cases hl : (getEntry sec j).Live
    · rw [if_neg hl, if_pos hl]
      cases b with
      | zero =>
        rw [if_neg (by omega)]
        exact bind_eq_ok.2 ⟨(), assert_eq_ok.2 rfl, by simp [pure, Except.pure]⟩
      | succ b =>
        have hnext := @ih (a + 1) b (j + 1)
        rw [if_pos (by omega), show 24 * a + 24 = 24 * (a + 1) by ring,
          show 24 * (a + (b + 1)) = 24 * (a + 1 + b) by ring, hnext]
        simp only [List.singleton_append, List.getElem?_cons_succ, List.length_cons,
          Nat.add_min_add_right]
        rw [show a + 1 + min b (liveFrom sec left (j + 1)).length =
          a + (min b (liveFrom sec left (j + 1)).length + 1) by ring]
    · rw [if_pos (not_not.1 hl), if_neg hl, List.nil_append]
      exact ih

/-- The loop over the blocks, before the end of the directory. -/
theorem readBlocks_eq {iSize : ℕ} {blocks : ℕ → ℕ} {a b left k : ℕ} (hlt : 24 * (a + b) < iSize) :
    readBlocks d iSize blocks (24 * (a + b)) left k (24 * a) =
      .ok (liveBlocks d blocks left k)[b]? := by
  induction left generalizing a b k with
  | zero => simp [readBlocks, liveBlocks, pure, Except.pure]
  | succ left ih =>
    rw [readBlocks, if_neg (not_le.2 hlt), liveBlocks_succ]
    by_cases h0 : blocks k = 0
    · rw [if_pos h0, liveAt, if_pos h0, List.nil_append]
      exact ih hlt
    · rw [if_neg h0, liveAt_of_ne h0, readSector_eq, ok_bind, liveFrom_zero, ideRead_apply]
      by_cases hb : b < (liveIn (d (blocks k))).length
      · -- the entry lies in this block
        rw [List.getElem?_append_left hb, List.getElem?_eq_getElem hb]
        rfl
      · obtain ⟨c, rfl⟩ := Nat.exists_eq_add_of_le (not_lt.1 hb)
        rw [List.getElem?_append_right (Nat.le_add_right ..), Nat.add_sub_cancel_left,
          List.getElem?_eq_none (Nat.le_add_right ..), min_eq_right (Nat.le_add_right ..)]
        rw [← Nat.add_assoc] at hlt ⊢
        exact ih hlt

/-- The blocks that `dir_read` looks at hold all the entries. -/
theorem liveBlocks_allBlocks (d : Disk) (ino : Inode) :
    liveBlocks d (allBlocks d ino) (if ino.iSectors 12 ≠ 0 then 140 else 12) 0 =
      liveEntries d ino := by
  rw [liveBlocks, ← List.range_eq_range']
  by_cases ht : ino.iSectors 12 = 0
  · rw [if_neg (not_not.2 ht), liveEntries_eq_append, liveIndirect_of_no_table ht, List.append_nil,
      liveDirect]
    exact flatMap_range_congr fun k hk => by rw [allBlocks_of_lt hk]
  · rw [if_pos ht]
    rfl

theorem readBlocks_of_le {iSize dirPos left k cur : ℕ} {blocks : ℕ → ℕ} (h : iSize ≤ dirPos) :
    readBlocks d iSize blocks dirPos left k cur = .ok none := by
  cases left with
  | zero => rfl
  | succ left =>
    rw [readBlocks, if_pos h]
    rfl

/-- One call returns the next entry. -/
theorem dirRead_eq (hsize : ino.iSize = 24 * (liveEntries d ino).length) (b : ℕ) :
    dirRead d ino (24 * b) = .ok ((liveEntries d ino)[b]?,
      if b < (liveEntries d ino).length then 24 * (b + 1) else 24 * b) := by
  unfold dirRead
  by_cases hb : b < (liveEntries d ino).length
  · have hrun := @readBlocks_eq d ino.iSize (allBlocks d ino) 0 b
      (if ino.iSectors 12 ≠ 0 then 140 else 12) 0 (by omega)
    rw [Nat.zero_add, liveBlocks_allBlocks] at hrun
    refine bind_eq_ok.2 ⟨_, hrun, ?_⟩
    have hmax := length_liveEntries_le d ino
    rw [List.getElem?_eq_getElem hb, if_pos hb, Nat.mod_eq_of_lt (by omega)]
    rfl
  · refine bind_eq_ok.2 ⟨none, readBlocks_of_le (by omega), ?_⟩
    rw [List.getElem?_eq_none (not_lt.1 hb), if_neg hb]
    rfl

/-! ## Several calls -/

theorem dirReads_from (hsize : ino.iSize = 24 * (liveEntries d ino).length) (n b : ℕ) :
    ∃ dirPos, dirReads d ino n (24 * b) =
      .ok ((List.range n).map fun k => (liveEntries d ino)[b + k]?, dirPos) := by
  induction n generalizing b with
  | zero => exact ⟨24 * b, rfl⟩
  | succ n ih =>
    -- past the last entry the position stays where it is
    obtain ⟨c, hpos, hnext⟩ : ∃ c,
        (if b < (liveEntries d ino).length then 24 * (b + 1) else 24 * b) = 24 * c ∧
        ∀ k, (liveEntries d ino)[c + k]? = (liveEntries d ino)[b + (k + 1)]? := by
      by_cases hb : b < (liveEntries d ino).length
      · exact ⟨b + 1, if_pos hb, fun k => by rw [Nat.add_assoc, Nat.add_comm 1 k]⟩
      · refine ⟨b, if_neg hb, fun k => ?_⟩
        rw [List.getElem?_eq_none (by omega), List.getElem?_eq_none (by omega)]
    obtain ⟨dirPos, hrest⟩ := ih c
    refine ⟨dirPos, bind_eq_ok.2 ⟨_, dirRead_eq hsize b, ?_⟩⟩
    rw [hpos]
    refine bind_eq_ok.2 ⟨_, hrest, ?_⟩
    simp only [List.range_succ_eq_map, List.map_cons, List.map_map, Nat.add_zero, hnext]
    rfl

/-- **Listing is complete.** If `i_size` is 24 times the number of entries in use, then the calls of
`dir_read` after a rewind return these entries one by one, in the order of blocks and places, and
`NULL` from then on, and no assertion fails. -/
theorem dirReads_eq (hsize : ino.iSize = 24 * (liveEntries d ino).length) (n : ℕ) :
    ∃ dirPos, dirReads d ino n 0 =
      .ok ((List.range n).map fun k => (liveEntries d ino)[k]?, dirPos) := by
  obtain ⟨dirPos, h⟩ := dirReads_from hsize n 0
  exact ⟨dirPos, by simpa only [Nat.zero_add] using h⟩

theorem length_liveEntries_crowd : (liveEntries crowdPartition.disk crowdInode).length = 253 := by
  rw [← List.length_map (f := DirEntry.iNo), liveEntries_crowd, List.length_range]

/-- Two hundred and fifty-five calls on a directory of 253 entries, one of them in a block of the
table. -/
theorem dirReads_crowd :
    crowdInode.iSize = 24 * (liveEntries crowdPartition.disk crowdInode).length ∧
    ∃ dirPos, dirReads crowdPartition.disk crowdInode 255 0 = .ok ((List.range 255).map fun k =>
      (liveEntries crowdPartition.disk crowdInode)[k]?, dirPos) := by
  have hsize : crowdInode.iSize = 24 * (liveEntries crowdPartition.disk crowdInode).length := by
    rw [length_liveEntries_crowd]
    rfl
  exact ⟨hsize, dirReads_eq hsize 255⟩

end

end Gardos.Fs
