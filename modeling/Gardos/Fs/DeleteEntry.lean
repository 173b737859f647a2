import Gardos.Fs.Insert

/-!
# Deleting an entry from a directory of any size

`delete_dir_entry` finds an entry in the direct blocks and in those of the indirect table alike, and
clears it where other entries are left in the block. What it does with a block that holds nothing
more depends on where the block lies: a direct block is given back, but for one of the table the
loop that counts the blocks of the table never ends. `deletes_iff` says that this is the one case in
which a deletion fails.
-/

namespace Gardos.Fs

open Bytes Outcome Function

/-- The entry names inode `n` and is neither `"."` nor `".."`. -/
def NamesInode (n : ℕ) (e : DirEntry) : Prop := e.iNo = n ∧ e.name ≠ dot ∧ e.name ≠ dotDot

instance (n : ℕ) (e : DirEntry) : Decidable (NamesInode n e) :=
  inferInstanceAs (Decidable (_ ∧ _ ∧ _))

/-- What the deletion of `e` is to do. -/
structure EntryDeleted (p : Partition) (ino : Inode) (e : DirEntry) (p' : Partition)
    (ino' : Inode) : Prop where
  live : (liveEntries p.vol.data ino).Perm (e :: liveEntries p'.vol.data ino')
  size : ino'.iSize + 24 = ino.iSize
  /-- The block of the entry is given back in the bitmap if and only if it holds no other entry and
  is not the first one, -/
  used : ∀ k < 140, e ∈ liveAt p.vol.data (allBlocks p.vol.data ino k) →
    (p'.vol.used (allBlocks p.vol.data ino k) = false ↔
      liveAt p.vol.data (allBlocks p.vol.data ino k) = [e] ∧ k ≠ 0)
  /-- and only then its address is dropped. -/
  address : ∀ k < 140, e ∈ liveAt p.vol.data (allBlocks p.vol.data ino k) →
    (allBlocks p'.vol.data ino' k = 0 ↔
      liveAt p.vol.data (allBlocks p.vol.data ino k) = [e] ∧ k ≠ 0)
  /-- The table is given back if and only if it no longer lists a block. -/
  table : ino.iSectors 12 ≠ 0 → (p'.vol.used (ino.iSectors 12) = false ↔
    (∃ i < 140, 12 ≤ i ∧ allBlocks p.vol.data ino i ≠ 0) ∧
      ∀ i < 140, 12 ≤ i → allBlocks p'.vol.data ino' i = 0)

section

variable {p : Partition} {v : Volume} {ino : Inode} {e : DirEntry} {n k j : ℕ}

/-- An entry that is the only one of its kind has one place. -/
theorem pos_unique_of_filter {q : DirEntry → Prop} [DecidablePred q] (hB : BlocksOk v ino)
    (hone : (liveEntries v.data ino).filter q = [e]) (hk : k < 140)
    (hne : allBlocks v.data ino k ≠ 0) (hj : j < 21)
    (hl : (getEntry (v.data (allBlocks v.data ino k)) j).Live)
    (hq : q (getEntry (v.data (allBlocks v.data ino k)) j)) {k' j' : ℕ} (hk' : k' < 140)
    (hne' : allBlocks v.data ino k' ≠ 0) (hj' : j' < 21)
    (hl' : (getEntry (v.data (allBlocks v.data ino k')) j').Live)
    (hq' : q (getEntry (v.data (allBlocks v.data ino k')) j')) : k' = k ∧ j' = j := by
  by_contra hpos
  have hmem := mem_liveEntries_clear hB hk hk' hne' hj' hl' hpos
  have hperm := (perm_of_clear hB hk hne hj hl).filter (fun x => decide (q x))
  rw [hone, List.filter_cons_of_pos (by simpa using hq)] at hperm
  have hlen := hperm.length_eq
  rw [List.length_singleton, List.length_cons] at hlen
  have hrest := List.length_pos_of_mem (List.mem_filter (p := fun x => decide (q x)).2
    ⟨hmem, decide_eq_true hq'⟩)
  omega

/-- The places at which `delete_dir_entry` finds an entry for inode `n`. -/
theorem named_iff_of_filter (hB : BlocksOk v ino)
    (hone : (liveEntries v.data ino).filter (NamesInode n) = [e]) (hk : k < 140)
    (hne : allBlocks v.data ino k ≠ 0) (hj : j < 21)
    (hej : getEntry (v.data (allBlocks v.data ino k)) j = e) (i : ℕ) (hi : i < 140)
    (hi0 : allBlocks v.data ino i ≠ 0) (j' : ℕ) (hj' : j' < 21) :
    (isNamed (v.data (allBlocks v.data ino i)) j' = true ∧
      (getEntry (v.data (allBlocks v.data ino i)) j').iNo = n) ↔ i = k ∧ j' = j := by
  have hmem : e ∈ (liveEntries v.data ino).filter (NamesInode n) := by
    rw [hone]
    exact List.mem_singleton.2 rfl
  obtain ⟨helive, heq⟩ := List.mem_filter.1 hmem
  have hq : NamesInode n e := of_decide_eq_true heq
  obtain ⟨-, -, -, -, -, -, hl⟩ := mem_liveEntries.1 helive
  rw [isNamed_iff]
  constructor
  · rintro ⟨⟨hl', hn1, hn2⟩, hno⟩
    exact pos_unique_of_filter hB hone hk hne hj (hej ▸ hl) (hej ▸ hq) hi hi0 hj' hl'
      ⟨hno, hn1, hn2⟩
  · rintro ⟨rfl, rfl⟩
    rw [hej]
    exact ⟨⟨hl, hq.2⟩, hq.1⟩

/-- An entry that is alone in its block. -/
theorem liveIn_eq_singleton_iff {sec : Buf} (hj : j < 21) (hl : (getEntry sec j).Live) :
    liveIn sec = [getEntry sec j] ↔ liveIn (clearEntry sec j) = [] := by
  have hperm := liveIn_clearEntry hj hl
  constructor
  · intro h
    rw [h] at hperm
    exact List.perm_nil.1 ((List.perm_cons _).1 hperm).symm
  · intro h
    rw [h] at hperm
    exact List.perm_singleton.1 hperm

end

section

variable {p : Partition} {ino : Inode} {e : DirEntry} {n k j : ℕ}

/-- What a deletion does to the volume, by what is left in the block. -/
theorem deleteDirEntry_cases (hL : p.Layout) (hf : ino.Fits) (hD : DirShape p.vol ino)
    (hone : (liveEntries p.vol.data ino).filter (NamesInode n) = [e]) (hk : k < 140)
    (hne : allBlocks p.vol.data ino k ≠ 0) (hj : j < 21)
    (hej : getEntry (p.vol.data (allBlocks p.vol.data ino k)) j = e) :
    (liveAt p.vol.data (allBlocks p.vol.data ino k) = [e] → k < 12 → ∃ p' ino',
      deleteDirEntry p ino n = .ok (true, p', ino') ∧ ino' = (ino.setSector k 0).shrink ∧
      p'.vol.data = p.vol.data ∧
      p'.vol.used = update p.vol.used (allBlocks p.vol.data ino k) false) ∧
    (liveAt p.vol.data (allBlocks p.vol.data ino k) = [e] → 12 ≤ k →
      deleteDirEntry p ino n = .error .hang) ∧
    (liveAt p.vol.data (allBlocks p.vol.data ino k) ≠ [e] → ∃ p',
      deleteDirEntry p ino n = .ok (true, p', ino.shrink) ∧ p'.vol.used = p.vol.used ∧
      p'.vol.data = (p.vol.write (allBlocks p.vol.data ino k)
        (clearEntry (p.vol.data (allBlocks p.vol.data ino k)) j)).data) := by
  have hpos := named_iff_of_filter hD.blocks hone hk hne hj hej
  have hnamed := ((hpos k hk hne j hj).2 ⟨rfl, rfl⟩).1
  have hl := (isNamed_iff.1 hnamed).1
  have hsole := hD.sole_iff hk hne hj hnamed
  have halone : liveAt p.vol.data (allBlocks p.vol.data ino k) = [e] ↔
      liveIn (clearEntry (p.vol.data (allBlocks p.vol.data ino k)) j) = [] := by
    rw [liveAt_of_ne hne, ← hej]
    exact liveIn_eq_singleton_iff hj hl
  have hused := hD.blocks.used k hk hne
  have hstart := Partition.dataStart_le_of_used hused
  have hread := Partition.disk_of_used hused
  have hsize : 24 ≤ ino.iSize := by
    have := List.length_pos_of_mem (mem_liveEntries.2 ⟨k, hk, hne, j, hj, rfl, hl⟩)
    rw [hD.size]
    omega
  have hrun := deleteDirEntry_eq (p := p) hD.blocks hk hne hj hpos
  unfold removeEntry at hrun
  simp only [ideRead_apply, hread] at hrun
  refine ⟨fun h1 hk12 => ?_, fun h1 hk12 => ?_, fun h1 => ?_⟩
  · rw [if_pos (hsole.2 (halone.1 h1)), if_pos hk12] at hrun
    have hv := Partition.vol_blockBitmapFree hL hused
    have hfits : (ino.setSector k 0).shrink.Fits :=
      (DirRemove.block (v := p.vol) k hk12 (by rwa [allBlocks_of_lt hk12] at hne)
        (by rw [← allBlocks_of_lt (d := p.vol.data) hk12, ← liveAt_of_ne hne, h1])).fits hf
    obtain ⟨p2, hsync, hv2⟩ := Partition.exists_inodeSync
      (hL.of_geometry (congrArg Volume.geometry hv)) hfits
    refine ⟨p2, _, ?_, rfl, ?_, ?_⟩
    · rw [hrun]
      exact bind_eq_ok.2 ⟨(_, _), rfl, bind_eq_ok.2 ⟨(), assert_eq_ok.2 hsize,
        bind_eq_ok.2 ⟨_, hsync, rfl⟩⟩⟩
    · rw [hv2, hv]
      rfl
    · rw [hv2, hv]
      rfl
  · rw [if_pos (hsole.2 (halone.1 h1)), if_neg (by omega)] at hrun
    exact hrun
  · rw [if_neg (fun h => h1 (halone.2 (hsole.1 h)))] at hrun
    have hv := Partition.vol_write hL hstart
      (clearEntry (p.vol.data (allBlocks p.vol.data ino k)) j)
    have hfits : ino.shrink.Fits := ⟨hf.iNo, (Nat.sub_le _ _).trans_lt hf.iSize, hf.iSectors⟩
    obtain ⟨p2, hsync, hv2⟩ := Partition.exists_inodeSync
      (hL.of_geometry (congrArg Volume.geometry hv)) hfits
    refine ⟨p2, ?_, ?_, ?_⟩
    · rw [hrun]
      exact bind_eq_ok.2 ⟨(_, _), rfl, bind_eq_ok.2 ⟨(), assert_eq_ok.2 hsize,
        bind_eq_ok.2 ⟨_, hsync, rfl⟩⟩⟩
    · rw [hv2, hv]
      rfl
    · rw [hv2, hv]
      rfl

/-- The block of the entry is the one it was found in. -/
theorem eq_of_mem_liveAt (hB : BlocksOk p.vol ino)
    (hone : (liveEntries p.vol.data ino).filter (NamesInode n) = [e]) (hk : k < 140)
    (hne : allBlocks p.vol.data ino k ≠ 0) (hj : j < 21)
    (hej : getEntry (p.vol.data (allBlocks p.vol.data ino k)) j = e) {i : ℕ} (hi : i < 140)
    (hi0 : e ∈ liveAt p.vol.data (allBlocks p.vol.data ino i)) : i = k := by
  obtain ⟨hne', j', hj', hej', -⟩ := mem_liveAt.1 hi0
  obtain ⟨hnamed, hno⟩ :=
    (named_iff_of_filter hB hone hk hne hj hej k hk hne j hj).2 ⟨rfl, rfl⟩
  refine ((named_iff_of_filter hB hone hk hne hj hej i hi hne' j' hj').1 ⟨?_, ?_⟩).1
  · rw [isNamed_iff] at hnamed ⊢
    rwa [hej', ← hej]
  · rw [hej', ← hej, hno]

/-- A direct block that holds nothing more is given back. -/
theorem entryDeleted_of_block {p' : Partition} (hD : DirShape p.vol ino)
    (hone : (liveEntries p.vol.data ino).filter (NamesInode n) = [e]) (hk : k < 12)
    (hne : allBlocks p.vol.data ino k ≠ 0) (hj : j < 21)
    (hej : getEntry (p.vol.data (allBlocks p.vol.data ino k)) j = e)
    (halone : liveAt p.vol.data (allBlocks p.vol.data ino k) = [e])
    (hdata : p'.vol.data = p.vol.data)
    (hused : p'.vol.used = update p.vol.used (allBlocks p.vol.data ino k) false)
    (hsize : 24 ≤ ino.iSize) : EntryDeleted p ino e p' (ino.setSector k 0).shrink := by
  have hlba : allBlocks p.vol.data ino k = ino.iSectors k := allBlocks_of_lt hk
  have hB := hD.blocks
  have hblock : ∀ i < 140, e ∈ liveAt p.vol.data (allBlocks p.vol.data ino i) → i = k :=
    fun i hi => eq_of_mem_liveAt hB hone (by omega) hne hj hej hi
  have hrem : DirRemove p.vol ino e (p.vol.setUsed (ino.iSectors k) false)
      (ino.setSector k 0).shrink :=
    .block k hk (hlba ▸ hne) (by rw [← hlba, ← liveAt_of_ne hne, halone])
  have haddr : ∀ i, allBlocks p'.vol.data (ino.setSector k 0).shrink i =
      if i = k then 0 else allBlocks p.vol.data ino i := fun i => by
    rw [hdata]
    exact allBlocks_shrink_setSector ino p.vol.data hk i
  -- the first block holds `"."`
  have hk0 : k ≠ 0 := by
    rintro rfl
    have hmem : getEntry (p.vol.data (ino.iSectors 0)) 0 ∈
        liveAt p.vol.data (allBlocks p.vol.data ino 0) := by
      rw [hlba]
      exact mem_liveAt.2 ⟨hD.first, 0, by omega, rfl, hD.live_dot⟩
    rw [halone, List.mem_singleton] at hmem
    have hmem' : e ∈ (liveEntries p.vol.data ino).filter (NamesInode n) := by
      rw [hone]
      exact List.mem_singleton.2 rfl
    have hq : NamesInode n e := of_decide_eq_true (List.mem_filter.1 hmem').2
    exact hq.2.1 (hmem ▸ hD.entry_dot)
  refine ⟨by rw [hdata]; exact hrem.perm hB, Nat.sub_add_cancel hsize, fun i hi hmem => ?_,
    fun i hi hmem => ?_, fun ht => ?_⟩
  · obtain rfl := hblock i hi hmem
    exact iff_of_true (by rw [hused, update_self]) ⟨halone, hk0⟩
  · obtain rfl := hblock i hi hmem
    exact iff_of_true (by rw [haddr, if_pos rfl]) ⟨halone, hk0⟩
  · refine iff_of_false ?_ fun ⟨⟨i, hi, h12, hi0⟩, hall⟩ => hi0 ?_
    · rw [hused, update_of_ne (hB.ne_table k (by omega) ht).symm, hB.table_used ht]
      decide
    · have := hall i hi h12
      rwa [haddr, if_neg (by omega)] at this

/-- An entry with others in its block is cleared. -/
theorem entryDeleted_of_slot {p' : Partition} (hD : DirShape p.vol ino)
    (hone : (liveEntries p.vol.data ino).filter (NamesInode n) = [e]) (hk : k < 140)
    (hne : allBlocks p.vol.data ino k ≠ 0) (hj : j < 21)
    (hej : getEntry (p.vol.data (allBlocks p.vol.data ino k)) j = e)
    (halone : liveAt p.vol.data (allBlocks p.vol.data ino k) ≠ [e])
    (hused : p'.vol.used = p.vol.used)
    (hdata : p'.vol.data = (p.vol.write (allBlocks p.vol.data ino k)
      (clearEntry (p.vol.data (allBlocks p.vol.data ino k)) j)).data)
    (hsize : 24 ≤ ino.iSize) : EntryDeleted p ino e p' ino.shrink := by
  have hB := hD.blocks
  have hblock : ∀ i < 140, e ∈ liveAt p.vol.data (allBlocks p.vol.data ino i) → i = k :=
    fun i hi => eq_of_mem_liveAt hB hone hk hne hj hej hi
  have hl := (isNamed_iff.1
    ((named_iff_of_filter hB hone hk hne hj hej k hk hne j hj).2 ⟨rfl, rfl⟩).1).1
  have haddr : ∀ i, allBlocks p'.vol.data ino.shrink i = allBlocks p.vol.data ino i := fun i => by
    rw [hdata]
    exact allBlocks_write hB hk _ i
  refine ⟨?_, Nat.sub_add_cancel hsize, fun i hi hmem => ?_, fun i hi hmem => ?_, fun ht => ?_⟩
  · rw [hdata, ← hej]
    exact perm_of_clear hB hk hne hj hl
  · obtain rfl := hblock i hi hmem
    refine iff_of_false ?_ fun h => halone h.1
    rw [hused, hB.used i hk hne]
    decide
  · obtain rfl := hblock i hi hmem
    exact iff_of_false (by rwa [haddr]) fun h => halone h.1
  · refine iff_of_false ?_ fun ⟨⟨i, hi, h12, hi0⟩, hall⟩ => hi0 ?_
    · rw [hused, hB.table_used ht]
      decide
    · rw [← haddr]
      exact hall i hi h12

/-- **Deletions.** In a directory with one entry for an inode, `delete_dir_entry` returns and does
what it is to do if and only if the entry is not alone in a block of the indirect table. -/
theorem deletes_iff (hL : p.Layout) (hf : ino.Fits) (hD : DirShape p.vol ino)
    (hone : (liveEntries p.vol.data ino).filter (NamesInode n) = [e]) :
    (∃ p' ino', deleteDirEntry p ino n = .ok (true, p', ino') ∧ EntryDeleted p ino e p' ino') ↔
      ∀ k < 140, 12 ≤ k → liveAt p.vol.data (allBlocks p.vol.data ino k) ≠ [e] := by
  have hmem : e ∈ (liveEntries p.vol.data ino).filter (NamesInode n) := by
    rw [hone]
    exact List.mem_singleton.2 rfl
  obtain ⟨k, hk, hne, j, hj, hej, -⟩ := mem_liveEntries.1 (List.mem_filter.1 hmem).1
  obtain ⟨hblock, hhang, hslot⟩ := deleteDirEntry_cases hL hf hD hone hk hne hj hej
  have hsize : 24 ≤ ino.iSize := by
    have := List.length_pos_of_mem (List.mem_filter.1 hmem).1
    rw [hD.size]
    omega
  constructor
  · rintro ⟨p', ino', hrun, -⟩ i hi h12 halone
    have hik : i = k := eq_of_mem_liveAt hD.blocks hone hk hne hj hej hi
      (by rw [halone]; exact List.mem_singleton.2 rfl)
    rw [hhang (hik ▸ halone) (hik ▸ h12)] at hrun
    cases hrun
  · intro h
    by_cases halone : liveAt p.vol.data (allBlocks p.vol.data ino k) = [e]
    · have hk12 : k < 12 := by
        by_contra hge
        exact h k hk (not_lt.1 hge) halone
      obtain ⟨p', ino', hrun, rfl, hdata, hused⟩ := hblock halone hk12
      exact ⟨p', _, hrun, entryDeleted_of_block hD hone hk12 hne hj hej halone hdata hused hsize⟩
    · obtain ⟨p', hrun, hused, hdata⟩ := hslot halone
      exact ⟨p', _, hrun, entryDeleted_of_slot hD hone hk hne hj hej halone hused hdata hsize⟩

end

/-! ## A directory with a table -/

/-- A partition with a directory of four entries: `"."`, `".."` and `"b"` in its first block, and
`"a"` in a block of the table. -/
def tallPartition : Partition :=
  { blankPartition with
    disk := fun l =>
      if l = 612 then setEntry (newDirSector 0 0) 2 (.ofName [98] 2 .regular)
      else if l = 613 then tableSector fun k => if k = 12 then 614 else 0
      else if l = 614 then setEntry zero 0 (.ofName [97] 1 .regular)
      else zero
    blockBitmap := { btmpBytesLen := 512, bit := fun i => i < 3 } }

/-- Its inode. -/
def tallInode : Inode where
  iNo := 0
  iSize := 96
  iOpenCnts := 1
  writeDeny := false
  iSectors k := if k = 0 then 612 else if k = 12 then 613 else 0

theorem tallPartition_layout : tallPartition.Layout := by
  constructor <;> decide

theorem tallInode_fits : tallInode.Fits := ⟨by decide, by decide, by decide⟩

theorem allBlocks_tall (k : ℕ) : allBlocks tallPartition.vol.data tallInode k =
    if k = 0 then 612 else if k = 12 then 614 else 0 := by
  by_cases hk : k < 12
  · rw [allBlocks_of_lt hk, if_neg (by omega : ¬ k = 12)]
    change (if k = 0 then 612 else if k = 12 then 613 else 0) = _
    rw [if_neg (by omega : ¬ k = 12)]
  · obtain ⟨i, rfl⟩ := Nat.exists_eq_add_of_le (not_lt.1 hk)
    rw [allBlocks_of_table (by decide)]
    change getLe32 (window (tableSector fun k => if k = 12 then 614 else 0) (4 * i)) = _
    rw [getLe32_tableSector, if_neg (by omega : ¬ 12 + i = 0)]
    split <;> rfl

theorem liveIn_tall : liveIn (tallPartition.vol.data 612) =
    [.ofName dot 0 .directory, .ofName dotDot 0 .directory, .ofName [98] 2 .regular] := by
  have hentry : ∀ j, getEntry (tallPartition.vol.data 612) j =
      if j = 2 then .ofName [98] 2 .regular else getEntry (newDirSector 0 0) j := fun j => by
    change getEntry (setEntry (newDirSector 0 0) 2 (.ofName [98] 2 .regular)) j = _
    by_cases hj : j = 2
    · rw [if_pos hj, hj, getEntry_setEntry_self (ofName_fits (by decide))]
    · rw [if_neg hj, getEntry_setEntry_of_ne hj]
  rw [liveIn, flatMap_range_congr (g := fun j => if j = 2 then [.ofName [98] 2 .regular]
    else if j = 0 then [.ofName dot 0 .directory]
    else if j = 1 then [.ofName dotDot 0 .directory] else []) fun j _ => ?_]
  · rfl
  · rw [hentry, getEntry_newDirSector (by decide) (by decide)]
    split
    · exact if_pos (ofName_live (by decide))
    · split
      · exact if_pos (ofName_live (by decide))
      · split
        · exact if_pos (ofName_live (by decide))
        · exact if_neg DirEntry.not_live_ofBytes_zero

theorem liveIn_tall_indirect : liveIn (tallPartition.vol.data 614) = [.ofName [97] 1 .regular] :=
  List.perm_singleton.1 (liveIn_newSector (ofName_live (by decide)) (ofName_fits (by decide)))

theorem liveEntries_tall : liveEntries tallPartition.vol.data tallInode =
    [.ofName dot 0 .directory, .ofName dotDot 0 .directory, .ofName [98] 2 .regular,
      .ofName [97] 1 .regular] := by
  rw [liveEntries, flatMap_range_congr (g := fun k => if k = 0 then
    liveIn (tallPartition.vol.data 612) else if k = 12 then liveIn (tallPartition.vol.data 614)
    else []) fun k _ => ?_]
  · rw [liveIn_tall, liveIn_tall_indirect]
    rfl
  · rw [allBlocks_tall]
    split
    · exact liveAt_of_ne (by decide)
    · split
      · exact liveAt_of_ne (by decide)
      · rfl

theorem dirShape_tall : DirShape tallPartition.vol tallInode := by
  have hused : ∀ i < 3, tallPartition.vol.used (612 + i) = true := by decide
  have h12 : tallInode.iSectors 12 = 613 := rfl
  have hblocks : BlocksOk tallPartition.vol tallInode := by
    refine ⟨fun k hk => ?_, fun _ => hused 1 (by decide), fun j hj k hk => ?_, fun k hk => ?_⟩ <;>
      simp only [allBlocks_tall]
    · split
      · exact fun _ => hused 0 (by decide)
      · split
        · exact fun _ => hused 2 (by decide)
        · exact fun h => absurd rfl h
    · split <;> split <;> (try split) <;> (try split) <;> omega
    · rw [h12]
      split <;> (try split) <;> omega
  refine dirShape_of_nodup hblocks ?_ ?_ (by decide) (by decide +kernel) (by decide +kernel)
    (by decide +kernel)
  · rw [liveEntries_tall]
    decide +kernel
  · rw [liveEntries_tall]
    rfl

/-- `"b"` shares its block with `"."`, and is removed. -/
theorem deletes_tall_direct : ∃ p' ino',
    deleteDirEntry tallPartition tallInode 2 = .ok (true, p', ino') ∧
      EntryDeleted tallPartition tallInode (.ofName [98] 2 .regular) p' ino' := by
  refine (deletes_iff tallPartition_layout tallInode_fits dirShape_tall
    (by rw [liveEntries_tall]; rfl)).2 fun k _ h12 h => ?_
  rw [allBlocks_tall, if_neg (by omega)] at h
  split at h
  · rw [liveAt_of_ne (by decide), liveIn_tall_indirect] at h
    exact absurd (congrArg DirEntry.iNo (List.singleton_inj.1 h)) (by decide)
  · cases h

/-- `"a"` is alone in a block of the table, and its removal does not return. -/
theorem deletes_tall_indirect : tallPartition.Layout ∧ tallInode.Fits ∧
    DirShape tallPartition.vol tallInode ∧
    (liveEntries tallPartition.vol.data tallInode).filter (NamesInode 1) =
      [.ofName [97] 1 .regular] ∧
    deleteDirEntry tallPartition tallInode 1 = .error .hang := by
  refine ⟨tallPartition_layout, tallInode_fits, dirShape_tall,
    by rw [liveEntries_tall]; rfl, ?_⟩
  have hrun : (deleteDirEntry tallPartition tallInode 1).map (fun _ => ()) = .error .hang := by
    decide +kernel
  exact map_eq_error.1 hrun

end Gardos.Fs
