import Gardos.Foundations.Lists
import Gardos.Fs.Volume
import Gardos.Fs.Dir

/-!
# The entries of a directory

The live entries of a directory, read the way `search_dir_entry`, `dir_read` and
`delete_dir_entry` read it: through the direct blocks and the table at `iSectors 12`.

`DirInsert` lists what `sync_dir_entry` can do to a volume when it reports success: fill a free
place of a direct block, start a new direct block, or start a new table. The first two add the
entry to the directory (`perm_of_slot`, `perm_of_block`). The last one is right for a directory
without a table; otherwise it replaces the table, and what the old one listed is gone
(`perm_of_table`).

Main result:

* `syncDirEntry_addsEntry_iff`: after `sync_dir_entry` reports success the directory holds its old
  entries and the new one exactly if a direct block had room, or there was no table, or the table
  listed no live entry.
-/

namespace Gardos.Fs

open Bytes Outcome Function

/-! ## Live entries -/

/-- The live entries of a sector. -/
def liveIn (sec : Buf) : List DirEntry :=
  (List.range 21).flatMap fun j => if (getEntry sec j).Live then [getEntry sec j] else []

/-- The live entries of the block at `lba`; address 0 stands for no block. -/
def liveAt (d : Disk) (lba : ℕ) : List DirEntry := if lba = 0 then [] else liveIn (d lba)

/-- The live entries of a directory. -/
def liveEntries (d : Disk) (ino : Inode) : List DirEntry :=
  (List.range 140).flatMap fun k => liveAt d (allBlocks d ino k)

/-- Those in the direct blocks. -/
def liveDirect (d : Disk) (ino : Inode) : List DirEntry :=
  (List.range 12).flatMap fun k => liveAt d (ino.iSectors k)

/-- Those in the blocks of the table. -/
def liveIndirect (d : Disk) (ino : Inode) : List DirEntry :=
  (List.range 128).flatMap fun i => liveAt d (allBlocks d ino (12 + i))

variable {d d' : Disk} {ino ino' : Inode} {k lba j b : ℕ} {sec : Buf} {e : DirEntry} {v : Volume}
  {p : Partition}

theorem allBlocks_of_lt (hk : k < 12) : allBlocks d ino k = ino.iSectors k := by
  simp [allBlocks, hk]

theorem allBlocks_of_no_table (h : ino.iSectors 12 = 0) (hk : 12 ≤ k) : allBlocks d ino k = 0 := by
  simp [allBlocks, h, not_lt.2 hk]

theorem allBlocks_of_table (h : ino.iSectors 12 ≠ 0) (i : ℕ) :
    allBlocks d ino (12 + i) = getLe32 (window (d (ino.iSectors 12)) (4 * i)) := by
  simp [allBlocks, h]

theorem liveEntries_eq_append (d : Disk) (ino : Inode) :
    liveEntries d ino = liveDirect d ino ++ liveIndirect d ino := by
  rw [liveEntries, show (140 : ℕ) = 12 + 128 by rfl, List.range_add, List.flatMap_append,
    List.flatMap_map]
  rw [liveDirect, flatMap_range_congr fun k hk => by rw [allBlocks_of_lt hk]]
  rfl

theorem liveIndirect_of_no_table (h : ino.iSectors 12 = 0) : liveIndirect d ino = [] := by
  rw [liveIndirect, flatMap_range_congr (g := fun _ => []) fun i _ => by
    rw [allBlocks_of_no_table h (by omega), liveAt, if_pos rfl]]
  simp

theorem liveAt_of_ne (h : lba ≠ 0) : liveAt d lba = liveIn (d lba) := if_neg h

theorem mem_liveIn : e ∈ liveIn sec ↔ ∃ j < 21, getEntry sec j = e ∧ e.Live := by
  simp only [liveIn, List.mem_flatMap, List.mem_range]
  constructor
  · rintro ⟨j, hj, he⟩
    split at he
    · rename_i hl
      obtain rfl := List.mem_singleton.1 he
      exact ⟨j, hj, rfl, hl⟩
    · simp at he
  · rintro ⟨j, hj, rfl, hl⟩
    exact ⟨j, hj, by rw [if_pos hl]; exact List.mem_singleton.2 rfl⟩

theorem mem_liveAt : e ∈ liveAt d lba ↔ lba ≠ 0 ∧ ∃ j < 21, getEntry (d lba) j = e ∧ e.Live := by
  by_cases h : lba = 0
  · simp [liveAt, h]
  · rw [liveAt_of_ne h, mem_liveIn]
    simp [h]

theorem mem_liveEntries :
    e ∈ liveEntries d ino ↔ ∃ k < 140, allBlocks d ino k ≠ 0 ∧
      ∃ j < 21, getEntry (d (allBlocks d ino k)) j = e ∧ e.Live := by
  simp only [liveEntries, List.mem_flatMap, List.mem_range, mem_liveAt]

theorem liveIn_zero : liveIn zero = [] := by
  rw [liveIn, flatMap_range_congr (g := fun _ => []) fun j _ => by
    rw [getEntry_zero, if_neg DirEntry.not_live_ofBytes_zero]]
  simp

/-- Filling a free place adds one live entry. -/
theorem liveIn_setEntry (hj : j < 21) (hfree : ¬ (getEntry sec j).Live) (hl : e.Live)
    (hf : e.Fits) : (liveIn (setEntry sec j e)).Perm (e :: liveIn sec) := by
  refine perm_cons_flatMap_range hj (fun i _ hne => ?_) ?_
  · simp only [getEntry_setEntry_of_ne hne]
  · simp only [getEntry_setEntry_self hf, if_pos hl, if_neg hfree]
    exact List.Perm.refl _

/-- Clearing a live entry removes it and no other. -/
theorem liveIn_clearEntry (hj : j < 21) (hl : (getEntry sec j).Live) :
    (liveIn sec).Perm (getEntry sec j :: liveIn (clearEntry sec j)) := by
  refine perm_cons_flatMap_range hj (fun i _ hne => ?_) ?_
  · simp only [getEntry_clearEntry_of_ne hne]
  · simp only [getEntry_clearEntry_self, if_pos hl, if_neg DirEntry.not_live_ofBytes_zero]
    exact List.Perm.refl _

theorem liveIn_newSector (hl : e.Live) (hf : e.Fits) : (liveIn (setEntry zero 0 e)).Perm [e] := by
  have hfree : ¬ (getEntry zero 0).Live := DirEntry.not_live_ofBytes_zero
  have := liveIn_setEntry (by omega) hfree hl hf
  rwa [liveIn_zero] at this

/-! ## Blocks of an inode -/

/-- The blocks of a file or directory are in use, and no two of them are the same. -/
structure BlocksOk (v : Volume) (ino : Inode) : Prop where
  used : ∀ k < 140, allBlocks v.data ino k ≠ 0 → v.used (allBlocks v.data ino k) = true
  table_used : ino.iSectors 12 ≠ 0 → v.used (ino.iSectors 12) = true
  inj : ∀ j < 140, ∀ k < 140, allBlocks v.data ino j ≠ 0 →
    allBlocks v.data ino j = allBlocks v.data ino k → j = k
  ne_table : ∀ k < 140, ino.iSectors 12 ≠ 0 → allBlocks v.data ino k ≠ ino.iSectors 12

/-- The block at `b` belongs to the file or directory: it is the table or one of the blocks. -/
def OwnsBlock (d : Disk) (ino : Inode) (b : ℕ) : Prop :=
  b ≠ 0 ∧ (b = ino.iSectors 12 ∨ ∃ k < 140, allBlocks d ino k = b)

theorem BlocksOk.used_of_owns (h : BlocksOk v ino) (hb : OwnsBlock v.data ino b) :
    v.used b = true := by
  rcases hb with ⟨hb0, rfl | ⟨k, hk, rfl⟩⟩
  · exact h.table_used hb0
  · exact h.used k hk hb0

theorem iSectors_used (hB : BlocksOk v ino) (hk : k < 12) (hne : ino.iSectors k ≠ 0) :
    v.used (ino.iSectors k) = true := by
  have := hB.used k (by omega) (by rwa [allBlocks_of_lt hk])
  rwa [allBlocks_of_lt hk] at this

theorem OwnsBlock.congr (ht : ino'.iSectors 12 = ino.iSectors 12)
    (hall : ∀ k < 140, allBlocks d' ino' k = allBlocks d ino k) (b : ℕ) :
    OwnsBlock d' ino' b ↔ OwnsBlock d ino b := by
  simp only [OwnsBlock, ht]
  exact and_congr_right fun _ => or_congr_right
    (exists_congr fun k => and_congr_right fun hk => by rw [hall k hk])

theorem BlocksOk.congr {v' : Volume} (hB : BlocksOk v ino) (hused : v'.used = v.used)
    (ht : ino'.iSectors 12 = ino.iSectors 12)
    (hall : ∀ k < 140, allBlocks v'.data ino' k = allBlocks v.data ino k) : BlocksOk v' ino' where
  used k hk h0 := by
    rw [hall k hk] at h0 ⊢
    rw [hused]
    exact hB.used k hk h0
  table_used h0 := by
    rw [ht] at h0 ⊢
    rw [hused]
    exact hB.table_used h0
  inj j hj k hk h0 heq := by
    rw [hall j hj] at h0 heq
    rw [hall k hk] at heq
    exact hB.inj j hj k hk h0 heq
  ne_table k hk h0 := by
    rw [ht] at h0 ⊢
    rw [hall k hk]
    exact hB.ne_table k hk h0

theorem allBlocks_inodeInit (d : Disk) (n k : ℕ) : allBlocks d (inodeInit n) k = 0 := by
  simp [allBlocks, inodeInit]

theorem blocksOk_inodeInit (v : Volume) (n : ℕ) : BlocksOk v (inodeInit n) where
  used k _ h := absurd (allBlocks_inodeInit _ n k) h
  table_used h := absurd rfl h
  inj j _ _ _ h := absurd (allBlocks_inodeInit _ n j) h
  ne_table _ _ h := absurd rfl h

/-- A block that `block_bitmap_alloc` may hand out. -/
structure Volume.Free (v : Volume) (lba : ℕ) : Prop where
  start : v.geometry.sb.dataStartLba ≤ lba
  lt : lba < v.geometry.sb.dataStartLba + 8 * v.geometry.blockBytes
  free : v.used lba = false

theorem Volume.Free.ne_of_used (h : v.Free lba) (hb : v.used b = true) : b ≠ lba := by
  rintro rfl
  rw [h.free] at hb
  exact Bool.noConfusion hb

section Congr

variable {d d' : Disk} {ino ino' : Inode}

theorem allBlocks_congr (hs : ∀ k < 13, ino'.iSectors k = ino.iSectors k)
    (ht : ino.iSectors 12 ≠ 0 → d' (ino.iSectors 12) = d (ino.iSectors 12)) {k : ℕ} :
    allBlocks d' ino' k = allBlocks d ino k := by
  have h12 := hs 12 (by omega)
  simp only [allBlocks, h12, ideRead_apply]
  split
  · exact hs k (by omega)
  · split
    · rename_i h
      rw [ht h]
    · rfl

theorem liveAt_congr {lba : ℕ} (h : lba ≠ 0 → d' lba = d lba) : liveAt d' lba = liveAt d lba := by
  simp only [liveAt]
  split
  · rfl
  · rename_i hne
    rw [h hne]

/-- The live entries only depend on the addresses in the inode, the table and the blocks. -/
theorem liveEntries_congr (hs : ∀ k < 13, ino'.iSectors k = ino.iSectors k)
    (ht : ino.iSectors 12 ≠ 0 → d' (ino.iSectors 12) = d (ino.iSectors 12))
    (hb : ∀ k < 140, allBlocks d ino k ≠ 0 → d' (allBlocks d ino k) = d (allBlocks d ino k)) :
    liveEntries d' ino' = liveEntries d ino :=
  flatMap_range_congr fun k hk => by
    rw [allBlocks_congr hs ht]
    exact liveAt_congr (hb k hk)

end Congr

/-- On the blocks of an inode a partition and its volume agree. -/
theorem BlocksOk.allBlocks_vol (h : BlocksOk p.vol ino) :
    allBlocks p.disk ino k = allBlocks p.vol.data ino k :=
  allBlocks_congr (fun _ _ => rfl) fun ht =>
    Partition.disk_of_used (h.table_used ht)

theorem BlocksOk.liveEntries_vol (h : BlocksOk p.vol ino) :
    liveEntries p.disk ino = liveEntries p.vol.data ino :=
  liveEntries_congr (fun _ _ => rfl)
    (fun ht => Partition.disk_of_used (h.table_used ht))
    fun k hk hne => Partition.disk_of_used (h.used k hk hne)

/-- The second volume has taken further blocks, and the blocks of the first hold what they
held. -/
structure Volume.Extends (v v' : Volume) : Prop where
  used : ∀ b, v.used b = true → v'.used b = true
  data : ∀ b, v.used b = true → v'.data b = v.data b

namespace Volume.Extends

variable {v v' v'' : Volume} {ino : Inode}

theorem trans (h : v.Extends v') (h' : v'.Extends v'') : v.Extends v'' :=
  ⟨fun b hb => h'.used b (h.used b hb), fun b hb => (h'.data b (h.used b hb)).trans (h.data b hb)⟩

theorem setAllocated (v : Volume) (n : ℕ) (b : Bool) : v.Extends (v.setAllocated n b) :=
  ⟨fun _ h => h, fun _ _ => rfl⟩

theorem setInode (v : Volume) (n : ℕ) (m : Inode) : v.Extends (v.setInode n m) :=
  ⟨fun _ h => h, fun _ _ => rfl⟩

/-- A free block is taken and written. -/
theorem write_free {lba : ℕ} (h : v.Free lba) (buf : Buf) :
    v.Extends ((v.setUsed lba true).write lba buf) where
  used b hb := by simp [Volume.write, Volume.setUsed, update_apply, hb]
  data b hb := by simp [Volume.write, Volume.setUsed, h.ne_of_used hb]

theorem allBlocks_eq (h : v.Extends v') (hB : BlocksOk v ino) (k : ℕ) :
    allBlocks v'.data ino k = allBlocks v.data ino k :=
  allBlocks_congr (fun _ _ => rfl) fun ht => h.data _ (hB.table_used ht)

theorem blocksOk (h : v.Extends v') (hB : BlocksOk v ino) : BlocksOk v' ino := by
  refine ⟨fun i hi => ?_, fun ht => h.used _ (hB.table_used ht), ?_, ?_⟩ <;>
    simp only [h.allBlocks_eq hB]
  · exact fun hne => h.used _ (hB.used i hi hne)
  · exact hB.inj
  · exact hB.ne_table

theorem liveEntries_eq (h : v.Extends v') (hB : BlocksOk v ino) :
    liveEntries v'.data ino = liveEntries v.data ino :=
  liveEntries_congr (fun _ _ => rfl) (fun ht => h.data _ (hB.table_used ht))
    fun k hk hne => h.data _ (hB.used k hk hne)

end Volume.Extends

/-! ## What `sync_dir_entry` does -/

/-- An inode whose size counts one entry more. -/
def Inode.grow (ino : Inode) : Inode := { ino with iSize := (ino.iSize + 24) % 4294967296 }

/-- The direct blocks before `k` exist and are full, and block `k` does not exist; `12` stands for
the blocks in the table, which `sync_dir_entry` does not look at. -/
structure NeedsBlock (p : Partition) (ino : Inode) (k : ℕ) : Prop where
  le : k ≤ 12
  full : ∀ j < k, ino.iSectors j ≠ 0 ∧ freeEntry (p.disk (ino.iSectors j)) = none
  missing : k < 12 → ino.iSectors k = 0

/-- The bit of the block at `lba` written to disk. -/
abbrev Partition.blockSynced (p : Partition) (lba : ℕ) : Partition :=
  bitmapSync p (blockBitmapIdx p lba) .blockBitmap

/-- How `sync_dir_entry` ends: whether it reports success, the partition and the inode. -/
inductive EntrySynced (p : Partition) (ino : Inode) (e : DirEntry) :
    Bool → Partition → Inode → Prop
  /-- Place `j` of direct block `k` is free. -/
  | slot {k j : ℕ}
      (hfull : ∀ i < k, ino.iSectors i ≠ 0 ∧ freeEntry (p.disk (ino.iSectors i)) = none)
      (hk : k < 12) (hne : ino.iSectors k ≠ 0)
      (hfree : freeEntry (p.disk (ino.iSectors k)) = some j) :
      EntrySynced p ino e true { p with
        disk := ideWrite p.disk (ino.iSectors k) (setEntry (p.disk (ino.iSectors k)) j e) }
        ino.grow
  /-- Direct block `k` does not exist; block `lba` becomes it. -/
  | block {k lba : ℕ} {p₁ : Partition} (hk : k < 12) (hneed : NeedsBlock p ino k)
      (halloc : blockBitmapAlloc p = .ok (some lba, p₁)) :
      EntrySynced p ino e true { p₁.blockSynced lba with
        disk := ideWrite (p₁.blockSynced lba).disk lba (setEntry zero 0 e) }
        (ino.setSector k lba).grow
  /-- A block is needed and there is none. -/
  | noBlock {k : ℕ} {p₁ : Partition} (hneed : NeedsBlock p ino k)
      (halloc : blockBitmapAlloc p = .ok (none, p₁)) : EntrySynced p ino e false p₁ ino
  /-- No direct block has room; block `t` becomes the table and `lba` the first block in it. -/
  | table {t lba : ℕ} {p₁ p₂ : Partition} (hneed : NeedsBlock p ino 12)
      (halloc : blockBitmapAlloc p = .ok (some t, p₁))
      (halloc₂ : blockBitmapAlloc (p₁.blockSynced t) = .ok (some lba, p₂)) :
      EntrySynced p ino e true { p₂.blockSynced lba with
        disk := ideWrite (ideWrite (p₂.blockSynced lba).disk t
          (tableSector (update (directBlocks ino) 12 lba))) lba (setEntry zero 0 e) }
        (ino.setSector 12 t).grow
  /-- There is a block for the table, and no other. -/
  | noTable {t : ℕ} {p₁ p₂ : Partition} (hneed : NeedsBlock p ino 12)
      (halloc : blockBitmapAlloc p = .ok (some t, p₁))
      (halloc₂ : blockBitmapAlloc (p₁.blockSynced t) = .ok (none, p₂)) :
      EntrySynced p ino e false
        { p₂ with blockBitmap := p₂.blockBitmap.set (blockBitmapIdx p₂ t) false }
        ((ino.setSector 12 t).setSector 12 0)

namespace Volume

/-- Place `j` of the block at `lba` filled with an entry. -/
def storeSlot (v : Volume) (lba j : ℕ) (e : DirEntry) : Volume :=
  v.write lba (setEntry (v.data lba) j e)

/-- The block at `lba` taken for a single entry. -/
def storeBlock (v : Volume) (lba : ℕ) (e : DirEntry) : Volume :=
  (v.setUsed lba true).write lba (setEntry zero 0 e)

/-- The block at `t` taken for a table that lists the block at `lba`, and that one for a single
entry. -/
def storeTable (v : Volume) (ino : Inode) (t lba : ℕ) (e : DirEntry) : Volume :=
  (((v.setUsed t true).setUsed lba true).write t
    (tableSector (update (directBlocks ino) 12 lba))).write lba (setEntry zero 0 e)

end Volume

/-- The ways in which `sync_dir_entry` stores an entry in a volume. -/
inductive DirInsert (v : Volume) (ino : Inode) (e : DirEntry) : Volume → Inode → Prop
  /-- Place `j` of direct block `k` is free. -/
  | slot (k j : ℕ) (hk : k < 12) (hj : j < 21) (hne : ino.iSectors k ≠ 0)
      (hfree : ¬ (getEntry (v.data (ino.iSectors k)) j).Live) :
      DirInsert v ino e (v.storeSlot (ino.iSectors k) j e) ino.grow
  /-- Direct block `k` does not exist; block `lba` becomes it. -/
  | block (k lba : ℕ) (hk : k < 12) (hz : ino.iSectors k = 0) (hfree : v.Free lba) :
      DirInsert v ino e (v.storeBlock lba e) (ino.setSector k lba).grow
  /-- No direct block has room; block `t` becomes the table and `lba` the first block in it. -/
  | table (t lba : ℕ) (hne : ∀ k < 12, ino.iSectors k ≠ 0)
      (hfull : ∀ k < 12, ∀ j < 21, (getEntry (v.data (ino.iSectors k)) j).Live)
      (ht : v.Free t) (hfree : (v.setUsed t true).Free lba) :
      DirInsert v ino e (v.storeTable ino t lba e) (ino.setSector 12 t).grow

theorem freeEntry_eq_some (h : freeEntry sec = some j) : j < 21 ∧ ¬ (getEntry sec j).Live := by
  have h1 := List.mem_of_find?_eq_some h
  have h2 := List.find?_some h
  simp only [decide_eq_true_eq] at h2
  exact ⟨List.mem_range.1 h1, fun hl => hl h2⟩

theorem freeEntry_eq_none (h : freeEntry sec = none) (hj : j < 21) : (getEntry sec j).Live := by
  have := List.find?_eq_none.1 h j (List.mem_range.2 hj)
  simpa [DirEntry.Live] using this

section Sync

variable {p p' : Partition} {ino ino' : Inode} {e : DirEntry} {lba k i : ℕ} {done : Bool}

theorem free_of_isFirstClear {b : ℕ} (h : p.blockBitmap.IsFirstClear b) :
    p.vol.Free (p.sb.dataStartLba + b) where
  start := Nat.le_add_right _ _
  lt := Nat.add_lt_add_left h.lt _
  free := Partition.not_used_of_clear h.clear

/-- Allocating a block and writing the bitmap. -/
theorem exists_takeBlock (hL : p.Layout) (h : blockBitmapAlloc p = .ok (some lba, p')) :
    p.vol.Free lba ∧
      (bitmapSync p' (blockBitmapIdx p' lba) .blockBitmap).vol = p.vol.setUsed lba true := by
  obtain ⟨b, hb, rfl, rfl⟩ := Partition.blockBitmapAlloc_eq_some h
  have hidx := Partition.blockBitmapIdx_taken hL hb.lt
  refine ⟨free_of_isFirstClear hb, ?_⟩
  rw [hidx]
  exact Partition.vol_takeBlock hL hb.lt

theorem directBlocks_of_lt (hk : k < 12) : directBlocks ino k = ino.iSectors k := if_pos hk

theorem directBlocks_of_le (ino : Inode) (hk : 12 ≤ k) : directBlocks ino k = 0 := if_neg (by omega)

/-- A direct block is read from the volume. -/
theorem disk_eq_data (hB : BlocksOk p.vol ino) (hk : k < 12) (hne : ino.iSectors k ≠ 0) :
    p.disk (ino.iSectors k) = p.vol.data (ino.iSectors k) :=
  Partition.disk_of_used (iSectors_used hB hk hne)

/-- How the search of `sync_dir_entry` for a block ends: at block 12 at the latest, and at a block
that is missing or has a free place. -/
theorem skipWhile_blockFull (d : Disk) (ino : Inode) :
    ∃ k ≤ 12, skipWhile (blockFull d (directBlocks ino)) 140 0 = k ∧
      blockFull d (directBlocks ino) k = false ∧
      ∀ i < k, ino.iSectors i ≠ 0 ∧ freeEntry (d (ino.iSectors i)) = none := by
  have h12 : skipWhile (blockFull d (directBlocks ino)) 140 0 ≤ 12 :=
    skipWhile_le_of_fails (Nat.zero_le _) (by simp [blockFull, directBlocks_of_le ino le_rfl])
  refine ⟨_, h12, rfl, skipWhile_fails (by omega), fun i hi => ?_⟩
  have := skipWhile_holds (Nat.zero_le i) hi
  simpa [blockFull, directBlocks_of_lt (hi.trans_le h12)] using this

/-- **What `sync_dir_entry` does**: its five ends. -/
theorem EntrySynced.of_syncDirEntry (h : syncDirEntry p ino e = .ok (done, p', ino')) :
    EntrySynced p ino e done p' ino' := by
  obtain ⟨k, h12, hk, hstop, hfull⟩ := skipWhile_blockFull p.disk ino
  obtain ⟨_, -, h⟩ := bind_eq_ok.1 h
  dsimp only at h
  rw [hk, if_neg (by omega)] at h
  by_cases hz : directBlocks ino k = 0
  · rw [if_pos hz] at h
    have hneed : NeedsBlock p ino k :=
      ⟨h12, hfull, fun hlt => by rwa [directBlocks_of_lt hlt] at hz⟩
    obtain ⟨⟨o, p₁⟩, halloc, h⟩ := bind_eq_ok.1 h
    cases o with
    | none =>
      obtain ⟨rfl, rfl, rfl⟩ := ok_triple h
      exact .noBlock hneed halloc
    | some lba =>
      obtain ⟨_, -, h⟩ := bind_eq_ok.1 h
      dsimp only at h
      rcases h12.lt_or_eq with hlt | rfl
      · rw [if_pos hlt] at h
        obtain ⟨rfl, rfl, rfl⟩ := ok_triple h
        exact .block hlt hneed halloc
      rw [if_neg (lt_irrefl 12), if_pos rfl] at h
      obtain ⟨⟨o, p₂⟩, halloc₂, h⟩ := bind_eq_ok.1 h
      cases o with
      | none =>
        obtain ⟨rfl, rfl, rfl⟩ := ok_triple h
        exact .noTable hneed halloc halloc₂
      | some lba₂ =>
        obtain ⟨_, -, h⟩ := bind_eq_ok.1 h
        obtain ⟨rfl, rfl, rfl⟩ := ok_triple h
        rw [show (ino.setSector 12 lba).iSectors 12 = lba by simp [Inode.setSector]]
        exact .table hneed halloc halloc₂
  · rw [if_neg hz] at h
    have hlt : k < 12 := by
      by_contra hge
      exact hz (directBlocks_of_le ino (not_lt.1 hge))
    rw [directBlocks_of_lt hlt] at hz h
    rw [ideRead_apply] at h
    cases hf : freeEntry (p.disk (ino.iSectors k)) with
    | none => simp [blockFull, directBlocks_of_lt hlt, hz, hf] at hstop
    | some j =>
      rw [hf] at h
      obtain ⟨rfl, rfl, rfl⟩ := ok_triple h
      exact .slot hfull hlt hz hf

/-- A block that was taken and then written. -/
theorem vol_taken_write (hL : p.Layout) (h : blockBitmapAlloc p = .ok (some lba, p'))
    {i : ℕ} (hi : p.sb.dataStartLba ≤ i) (buf : Buf) :
    { p'.blockSynced lba with disk := ideWrite (p'.blockSynced lba).disk i buf }.vol =
      (p.vol.setUsed lba true).write i buf := by
  obtain ⟨-, hv⟩ := exists_takeBlock hL h
  have hgeo := congrArg Volume.geometry hv
  have hsb : (p'.blockSynced lba).sb = p.sb := congrArg Geometry.sb hgeo
  rw [Partition.vol_write (hL.of_geometry hgeo) (hsb ▸ hi), hv]

/-- **What `sync_dir_entry` does to the volume** when it reports success. -/
theorem syncDirEntry_eq_true (hL : p.Layout) (hB : BlocksOk p.vol ino)
    (h : syncDirEntry p ino e = .ok (true, p', ino')) : DirInsert p.vol ino e p'.vol ino' := by
  cases EntrySynced.of_syncDirEntry h with
  | slot hfull hk hne hfree =>
    rw [disk_eq_data hB hk hne] at hfree ⊢
    obtain ⟨hj, hl⟩ := freeEntry_eq_some hfree
    rw [Partition.vol_write hL (Partition.dataStart_le_of_used (iSectors_used hB hk hne))]
    exact .slot _ _ hk hj hne hl
  | block hk hneed halloc =>
    obtain ⟨hfree, -⟩ := exists_takeBlock hL halloc
    rw [vol_taken_write hL halloc hfree.start]
    exact .block _ _ hk (hneed.missing hk) hfree
  | @table t lba p₁ p₂ hneed halloc halloc₂ =>
    obtain ⟨ht, hv₁⟩ := exists_takeBlock hL halloc
    have hL₁ := hL.of_geometry (congrArg Volume.geometry hv₁)
    have hsb₁ : (p₁.blockSynced t).sb = p.sb := congrArg (·.geometry.sb) hv₁
    have ht₁ : (p₁.blockSynced t).sb.dataStartLba ≤ t := by
      rw [hsb₁]
      exact ht.start
    obtain ⟨hfree, -⟩ := exists_takeBlock hL₁ halloc₂
    have hv₂ := vol_taken_write hL₁ halloc₂ ht₁
      (tableSector (update (directBlocks ino) 12 lba))
    rw [hv₁] at hfree hv₂
    have hgeo := congrArg Volume.geometry hv₂
    have hsb₂ : (p₂.blockSynced lba).sb = p.sb := congrArg (·.geometry.sb) hv₂
    have hlba₂ : (p₂.blockSynced lba).sb.dataStartLba ≤ lba := by
      rw [hsb₂]
      exact hfree.start
    have hv₃ := Partition.vol_write (hL.of_geometry hgeo) hlba₂ (setEntry zero 0 e)
    rw [hv₃, hv₂]
    refine .table t lba (fun i hi => (hneed.full i hi).1) (fun i hi j hj => ?_) ht hfree
    rw [← disk_eq_data hB hi (hneed.full i hi).1]
    exact freeEntry_eq_none (hneed.full i hi).2 hj

/-- With its assertions compiled in, `sync_dir_entry` does not report failure: `bitmap_scan` stops
the machine before it runs out of blocks. -/
theorem syncDirEntry_ne_false (hd : p.ndebug = false) :
    syncDirEntry p ino e ≠ .ok (false, p', ino') := by
  intro h
  cases EntrySynced.of_syncDirEntry h with
  | noBlock _ halloc => exact Partition.blockBitmapAlloc_ne_none hd halloc
  | noTable _ halloc halloc₂ =>
    obtain ⟨b, -, -, rfl⟩ := Partition.blockBitmapAlloc_eq_some halloc
    exact Partition.blockBitmapAlloc_ne_none (by exact hd) halloc₂

/-- An allocation from a bitmap with a clear bit. -/
theorem exists_blockBitmapAlloc (hL : p.Layout) (hi : i < p.blockBitmap.bitLen)
    (hc : p.blockBitmap.bit i = false) : ∃ b, p.blockBitmap.IsFirstClear b ∧
      blockBitmapAlloc p = .ok (some (p.sb.dataStartLba + b),
        { p with blockBitmap := p.blockBitmap.set b true }) ∧
      blockBitmapIdx { p with blockBitmap := p.blockBitmap.set b true }
        (p.sb.dataStartLba + b) ≠ 4294967295 := by
  obtain ⟨b, hb, halloc⟩ := Partition.blockBitmapAlloc_of_clear hi hc
  have hidx := Partition.blockBitmapIdx_taken hL hb.lt
  refine ⟨b, hb, halloc, ?_⟩
  have h1 := hb.lt
  have h2 := hL.data_end
  have h3 := hL.blockBitmap_len
  simp only [Bitmap.bitLen] at h1
  omega

/-- `sync_dir_entry` after its search for a block. -/
theorem syncDirEntry_eq (ino : Inode) (e : DirEntry) (hsize : ino.iSize % 24 = 0) :
    ∃ k ≤ 12, k = skipWhile (blockFull p.disk (directBlocks ino)) 140 0 ∧
      (directBlocks ino k = 0 ∧ syncDirEntry p ino e = syncNewBlock p ino e (directBlocks ino) k ∨
        directBlocks ino k ≠ 0 ∧ ∃ p' ino', syncDirEntry p ino e = .ok (true, p', ino')) := by
  obtain ⟨k, h12, hk, hstop, -⟩ := skipWhile_blockFull p.disk ino
  have heq : syncDirEntry p ino e =
      if directBlocks ino k = 0 then syncNewBlock p ino e (directBlocks ino) k
      else (freeEntry (ideRead p.disk (directBlocks ino k))).elim (pure (false, p, ino))
        fun m => syncWrite p ino (directBlocks ino k)
          (setEntry (ideRead p.disk (directBlocks ino k)) m e) := by
    simp only [syncDirEntry, assert, if_pos hsize, hk]
    refine (ok_bind _ _).trans ((if_neg (by omega : ¬k = 140)).trans ?_)
    cases freeEntry (ideRead p.disk (directBlocks ino k)) <;> rfl
  refine ⟨k, h12, hk.symm, ?_⟩
  by_cases hz : directBlocks ino k = 0
  · exact .inl ⟨hz, by rw [heq, if_pos hz]⟩
  · rw [heq, if_neg hz]
    cases hf : freeEntry (ideRead p.disk (directBlocks ino k)) with
    | none =>
      rw [ideRead_apply] at hf
      simp [blockFull, hz, hf] at hstop
    | some m => exact .inr ⟨hz, _, _, rfl⟩

/-- With two free blocks `sync_dir_entry` succeeds. -/
theorem exists_syncDirEntry (ino : Inode) (e : DirEntry) (hL : p.Layout)
    (hsize : ino.iSize % 24 = 0) {j : ℕ} (hij : i ≠ j) (hi : i < p.blockBitmap.bitLen)
    (hj : j < p.blockBitmap.bitLen) (hci : p.blockBitmap.bit i = false)
    (hcj : p.blockBitmap.bit j = false) :
    ∃ p' ino', syncDirEntry p ino e = .ok (true, p', ino') := by
  obtain ⟨k, h12, -, ⟨-, heq⟩ | ⟨-, h⟩⟩ := syncDirEntry_eq (p := p) ino e hsize
  · rw [heq]
    obtain ⟨b, hb, halloc, hidx⟩ := exists_blockBitmapAlloc hL hi hci
    simp only [syncNewBlock, halloc, ok_bind, assert, if_pos hidx]
    rcases h12.lt_or_eq with hlt | h
    · rw [if_pos hlt]
      exact ⟨_, _, rfl⟩
    · -- one of the two free blocks is left for the table
      rw [if_neg (by omega), if_pos h]
      set p1 : Partition := bitmapSync { p with blockBitmap := p.blockBitmap.set b true }
        (blockBitmapIdx { p with blockBitmap := p.blockBitmap.set b true } (p.sb.dataStartLba + b))
        .blockBitmap
      have hL1 : p1.Layout := hL.of_geometry rfl
      have hbit : ∀ m, p1.blockBitmap.bit m = if m = b then true else p.blockBitmap.bit m :=
        fun m => Bitmap.set_bit _ _ _ _
      obtain ⟨m, hm, hcm⟩ : ∃ m < p1.blockBitmap.bitLen, p1.blockBitmap.bit m = false := by
        by_cases hib : i = b
        · exact ⟨j, hj, by rw [hbit, if_neg (by omega), hcj]⟩
        · exact ⟨i, hi, by rw [hbit, if_neg hib, hci]⟩
      obtain ⟨c, -, halloc2, hidx2⟩ := exists_blockBitmapAlloc hL1 hm hcm
      simp only [halloc2, ok_bind, if_pos hidx2]
      exact ⟨_, _, rfl⟩
  · exact h

/-- With room in the direct blocks, one free block suffices. -/
theorem exists_syncDirEntry_of_room (ino : Inode) (e : DirEntry) (hL : p.Layout)
    (hsize : ino.iSize % 24 = 0) (hi : i < p.blockBitmap.bitLen) (hci : p.blockBitmap.bit i = false)
    (hroom : ∃ k < 12, ino.iSectors k = 0 ∨
      ∃ j < 21, ¬ (getEntry (p.disk (ino.iSectors k)) j).Live) :
    ∃ p' ino', syncDirEntry p ino e = .ok (true, p', ino') := by
  obtain ⟨k, -, hk, ⟨-, heq⟩ | ⟨-, h⟩⟩ := syncDirEntry_eq (p := p) ino e hsize
  · have hlt : k < 12 := by
      obtain ⟨r, hr, hfree⟩ := hroom
      refine lt_of_le_of_lt (hk ▸ skipWhile_le_of_fails (Nat.zero_le _) ?_) hr
      rw [blockFull, directBlocks_of_lt hr, ideRead_apply]
      rcases hfree with h0 | ⟨j, hj, hl⟩
      · simp [h0]
      · cases hf : freeEntry (p.disk (ino.iSectors r)) with
        | none => exact absurd (freeEntry_eq_none hf hj) hl
        | some m => simp
    obtain ⟨b, hb, halloc, hidx⟩ := exists_blockBitmapAlloc hL hi hci
    rw [heq]
    simp only [syncNewBlock, halloc, ok_bind, assert, if_pos hidx, if_pos hlt]
    exact ⟨_, _, rfl⟩
  · exact h

end Sync

/-! ## The entries afterwards -/

/-- Data blocks have nonzero 32-bit addresses. -/
structure Volume.Addressable (v : Volume) : Prop where
  pos : 0 < v.geometry.sb.dataStartLba
  lt : v.geometry.sb.dataStartLba + 8 * v.geometry.blockBytes ≤ 2147483648

theorem Partition.Layout.addressable (hL : p.Layout) : p.vol.Addressable where
  pos := by
    have := hL.inodeTable_end
    simp only [vol_geometry, geometry]
    omega
  lt := by
    have h1 := hL.data_end
    have h2 := hL.blockBitmap_len
    simp only [vol_geometry, geometry]
    omega

theorem Volume.Free.ne_zero (h : v.Free lba) (ha : v.Addressable) : lba ≠ 0 := by
  have := h.start
  have := ha.pos
  omega

theorem Volume.Free.lt_word (h : v.Free lba) (ha : v.Addressable) : lba < 4294967296 := by
  have := h.lt
  have := ha.lt
  omega

theorem getLe32_tableSector (blocks : ℕ → ℕ) (i : ℕ) :
    getLe32 (window (tableSector blocks) (4 * i)) = blocks (12 + i) % 4294967296 := by
  refine (getLe32_congr fun j hj => ?_).trans (getLe32_le32 _)
  simp only [window_apply, tableSector]
  rw [show (4 * i + j) / 4 = i by omega, show (4 * i + j) % 4 = j by omega]

section Insert

variable {v v' : Volume} {ino ino' : Inode} {e : DirEntry} {k lba j b t : ℕ}

theorem grow_iSectors (ino : Inode) (k : ℕ) : ino.grow.iSectors k = ino.iSectors k := rfl

theorem setSector_iSectors (ino : Inode) (k lba i : ℕ) :
    (ino.setSector k lba).iSectors i = if i = k then lba else ino.iSectors i := by
  simp only [Inode.setSector, update_apply]

/-- A new direct block changes one of the 140 addresses. -/
theorem allBlocks_setSector {d d' : Disk} (hk : k < 12)
    (ht : ino.iSectors 12 ≠ 0 → d' (ino.iSectors 12) = d (ino.iSectors 12)) (i : ℕ) :
    allBlocks d' (ino.setSector k lba).grow i = if i = k then lba else allBlocks d ino i := by
  have h12 : (ino.setSector k lba).iSectors 12 = ino.iSectors 12 := by
    rw [setSector_iSectors, if_neg (by omega)]
  simp only [allBlocks, grow_iSectors, h12, ideRead_apply, setSector_iSectors]
  by_cases hi : i < 12
  · simp only [hi, if_true]
  · rw [if_neg hi, if_neg hi, if_neg (show i ≠ k by omega)]
    split
    · rename_i h
      rw [ht h]
    · rfl

theorem storeSlot_data_self (lba j : ℕ) :
    (v.storeSlot lba j e).data lba = setEntry (v.data lba) j e := by
  simp [Volume.storeSlot, Volume.write]

theorem storeSlot_data_of_ne (h : b ≠ lba) : (v.storeSlot lba j e).data b = v.data b := by
  simp [Volume.storeSlot, Volume.write, h]

theorem storeBlock_data_self (lba : ℕ) : (v.storeBlock lba e).data lba = setEntry zero 0 e := by
  simp [Volume.storeBlock, Volume.write]

theorem storeBlock_data_of_ne (h : b ≠ lba) : (v.storeBlock lba e).data b = v.data b := by
  simp [Volume.storeBlock, Volume.write, Volume.setUsed, h]

theorem storeBlock_used (lba b : ℕ) :
    (v.storeBlock lba e).used b = if b = lba then true else v.used b := by
  simp [Volume.storeBlock, Volume.write, Volume.setUsed, update_apply]

theorem storeTable_data_lba (t lba : ℕ) :
    (v.storeTable ino t lba e).data lba = setEntry zero 0 e := by
  simp [Volume.storeTable, Volume.write]

theorem storeTable_data_table (h : t ≠ lba) : (v.storeTable ino t lba e).data t =
    tableSector (update (directBlocks ino) 12 lba) := by
  simp [Volume.storeTable, Volume.write, h]

theorem storeTable_data_of_ne (ht : b ≠ t) (hl : b ≠ lba) :
    (v.storeTable ino t lba e).data b = v.data b := by
  simp [Volume.storeTable, Volume.write, Volume.setUsed, ht, hl]

theorem storeTable_used (t lba b : ℕ) :
    (v.storeTable ino t lba e).used b = if b = lba ∨ b = t then true else v.used b := by
  simp only [Volume.storeTable, Volume.write, Volume.setUsed, update_apply]
  by_cases h1 : b = lba <;> by_cases h2 : b = t <;> simp [h1, h2]

/-- Two blocks taken one after the other differ. -/
theorem Volume.Free.ne_of_setUsed (h : (v.setUsed t true).Free lba) : t ≠ lba :=
  h.ne_of_used (by simp [Volume.setUsed])

theorem Volume.Free.of_setUsed (h : (v.setUsed t true).Free lba) : v.Free lba where
  start := h.start
  lt := h.lt
  free := by
    simpa [Volume.setUsed, h.ne_of_setUsed.symm] using h.free

theorem iSectors_ne_table (hB : BlocksOk v ino) (hk : k < 12) (ht : ino.iSectors 12 ≠ 0) :
    ino.iSectors k ≠ ino.iSectors 12 := by
  have := hB.ne_table k (by omega) ht
  rwa [allBlocks_of_lt hk] at this

/-! The addresses afterwards, case by case. -/

theorem allBlocks_storeSlot (hB : BlocksOk v ino) (hk : k < 12) (j i : ℕ) :
    allBlocks (v.storeSlot (ino.iSectors k) j e).data ino.grow i = allBlocks v.data ino i :=
  allBlocks_congr (fun _ _ => rfl) fun ht => storeSlot_data_of_ne (iSectors_ne_table hB hk ht).symm

theorem allBlocks_storeBlock (hB : BlocksOk v ino) (hk : k < 12) (hfree : v.Free lba) (i : ℕ) :
    allBlocks (v.storeBlock lba e).data (ino.setSector k lba).grow i =
      if i = k then lba else allBlocks v.data ino i :=
  allBlocks_setSector hk (fun ht => storeBlock_data_of_ne (hfree.ne_of_used (hB.table_used ht))) i

theorem setSector_table (t : ℕ) : (ino.setSector 12 t).grow.iSectors 12 = t := by
  simp [Inode.setSector, Inode.grow]

theorem allBlocks_storeTable (ha : v.Addressable) (ht : v.Free t)
    (hfree : (v.setUsed t true).Free lba) (i : ℕ) :
    allBlocks (v.storeTable ino t lba e).data (ino.setSector 12 t).grow i =
      if i < 12 then ino.iSectors i else if i = 12 then lba else 0 := by
  by_cases hi : i < 12
  · rw [allBlocks_of_lt hi, if_pos hi, grow_iSectors, setSector_iSectors, if_neg (by omega)]
  · obtain ⟨i, rfl⟩ := Nat.exists_eq_add_of_le (not_lt.1 hi)
    rw [allBlocks_of_table (by rw [setSector_table]; exact ht.ne_zero ha), setSector_table,
      storeTable_data_table hfree.ne_of_setUsed, getLe32_tableSector, if_neg hi]
    by_cases h0 : i = 0
    · subst h0
      simp [Nat.mod_eq_of_lt (hfree.of_setUsed.lt_word ha)]
    · simp [h0, directBlocks_of_le]

/-! The entries afterwards, case by case. -/

theorem perm_of_slot (hB : BlocksOk v ino) (hl : e.Live) (hf : e.Fits) (hk : k < 12) (hj : j < 21)
    (hne : ino.iSectors k ≠ 0) (hfree : ¬ (getEntry (v.data (ino.iSectors k)) j).Live) :
    (liveEntries (v.storeSlot (ino.iSectors k) j e).data ino.grow).Perm
      (e :: liveEntries v.data ino) := by
  refine perm_cons_flatMap_range (k := k) (by omega) (fun i hi hik => ?_) ?_
  · simp only [allBlocks_storeSlot hB hk]
    refine liveAt_congr fun hi0 => storeSlot_data_of_ne fun heq => hik ?_
    exact hB.inj i hi k (by omega) hi0 (heq.trans (allBlocks_of_lt hk).symm)
  · simp only [allBlocks_storeSlot hB hk, allBlocks_of_lt hk, liveAt_of_ne hne,
      storeSlot_data_self]
    exact liveIn_setEntry hj hfree hl hf

theorem perm_of_block (ha : v.Addressable) (hB : BlocksOk v ino) (hl : e.Live) (hf : e.Fits)
    (hk : k < 12) (hz : ino.iSectors k = 0) (hfree : v.Free lba) :
    (liveEntries (v.storeBlock lba e).data (ino.setSector k lba).grow).Perm
      (e :: liveEntries v.data ino) := by
  refine perm_cons_flatMap_range (k := k) (by omega) (fun i hi hik => ?_) ?_
  · simp only [allBlocks_storeBlock hB hk hfree, if_neg hik]
    exact liveAt_congr fun hi0 => storeBlock_data_of_ne (hfree.ne_of_used (hB.used i hi hi0))
  · simp only [allBlocks_storeBlock hB hk hfree, if_true, allBlocks_of_lt hk, hz,
      liveAt_of_ne (hfree.ne_zero ha), storeBlock_data_self]
    exact liveIn_newSector hl hf

/-- A new table lists one block, which holds the new entry; the direct blocks are as before. -/
theorem perm_of_table (ha : v.Addressable) (hB : BlocksOk v ino) (hl : e.Live) (hf : e.Fits)
    (ht : v.Free t) (hfree : (v.setUsed t true).Free lba) :
    (liveEntries (v.storeTable ino t lba e).data (ino.setSector 12 t).grow).Perm
      (e :: liveDirect v.data ino) := by
  have hdir : liveDirect (v.storeTable ino t lba e).data (ino.setSector 12 t).grow =
      liveDirect v.data ino := by
    refine flatMap_range_congr fun k hk => ?_
    rw [grow_iSectors, setSector_iSectors, if_neg (by omega)]
    refine liveAt_congr fun hne => ?_
    have hu := iSectors_used hB hk hne
    exact storeTable_data_of_ne (ht.ne_of_used hu) (hfree.of_setUsed.ne_of_used hu)
  have hind : (liveIndirect (v.storeTable ino t lba e).data (ino.setSector 12 t).grow).Perm
      [e] := by
    refine (perm_cons_flatMap_range (f := fun _ => []) (k := 0) (x := e) (by omega)
      (fun i _ hi => ?_) ?_).trans (by simp)
    · simp only [allBlocks_storeTable ha ht hfree]
      rw [if_neg (by omega), if_neg (by omega), liveAt, if_pos rfl]
    · simp only [allBlocks_storeTable ha ht hfree, add_zero, lt_irrefl, if_false, if_true,
        liveAt_of_ne (hfree.of_setUsed.ne_zero ha), storeTable_data_lba]
      exact liveIn_newSector hl hf
  rw [liveEntries_eq_append, hdir]
  exact (hind.append_left _).trans List.perm_append_comm

/-! The blocks afterwards, case by case. -/

theorem blocksOk_of_slot (hB : BlocksOk v ino) (hk : k < 12) (j : ℕ) :
    BlocksOk (v.storeSlot (ino.iSectors k) j e) ino.grow := by
  refine ⟨?_, hB.table_used, ?_, ?_⟩ <;> simp only [allBlocks_storeSlot hB hk]
  · exact hB.used
  · exact hB.inj
  · exact hB.ne_table

theorem blocksOk_of_block (hB : BlocksOk v ino) (hk : k < 12) (hfree : v.Free lba) :
    BlocksOk (v.storeBlock lba e) (ino.setSector k lba).grow := by
  have h12 : (ino.setSector k lba).grow.iSectors 12 = ino.iSectors 12 := by
    rw [grow_iSectors, setSector_iSectors, if_neg (by omega)]
  refine ⟨fun i hi => ?_, ?_, fun i hi j hj => ?_, fun i hi => ?_⟩
  · rw [allBlocks_storeBlock hB hk hfree, storeBlock_used]
    by_cases hik : i = k
    · simp [hik]
    · rw [if_neg hik]
      intro hne
      rw [if_neg (hfree.ne_of_used (hB.used i hi hne))]
      exact hB.used i hi hne
  · rw [h12, storeBlock_used]
    intro ht
    rw [if_neg (hfree.ne_of_used (hB.table_used ht))]
    exact hB.table_used ht
  · -- the new address differs from the old ones, which were in use
    rw [allBlocks_storeBlock hB hk hfree, allBlocks_storeBlock hB hk hfree]
    by_cases hik : i = k <;> by_cases hjk : j = k
    · omega
    · rw [if_pos hik, if_neg hjk]
      intro hne heq
      exact absurd heq.symm (hfree.ne_of_used (hB.used j hj (heq ▸ hne)))
    · rw [if_neg hik, if_pos hjk]
      intro hne heq
      exact absurd heq (hfree.ne_of_used (hB.used i hi hne))
    · rw [if_neg hik, if_neg hjk]
      exact hB.inj i hi j hj
  · rw [allBlocks_storeBlock hB hk hfree, h12]
    intro ht
    split
    · exact (hfree.ne_of_used (hB.table_used ht)).symm
    · exact hB.ne_table i hi ht

theorem blocksOk_of_table (ha : v.Addressable) (hB : BlocksOk v ino)
    (hne : ∀ k < 12, ino.iSectors k ≠ 0) (ht : v.Free t) (hfree : (v.setUsed t true).Free lba) :
    BlocksOk (v.storeTable ino t lba e) (ino.setSector 12 t).grow := by
  have hdir : ∀ i < 12, v.used (ino.iSectors i) = true := fun i hi =>
    iSectors_used hB hi (hne i hi)
  have hdl : ∀ i < 12, ino.iSectors i ≠ lba := fun i hi =>
    hfree.of_setUsed.ne_of_used (hdir i hi)
  have hcase : ∀ i, i < 12 ∨ i = 12 ∨ 12 < i := fun i => by omega
  refine ⟨fun i hi => ?_, fun _ => ?_, fun i hi j hj => ?_, fun i hi _ => ?_⟩
  · rw [allBlocks_storeTable ha ht hfree, storeTable_used]
    rcases hcase i with h | rfl | h
    · simp [h, hdir i h]
    · simp
    · simp [not_lt.2 h.le, h.ne']
  · rw [setSector_table, storeTable_used]
    simp
  · rw [allBlocks_storeTable ha ht hfree, allBlocks_storeTable ha ht hfree]
    rcases hcase i with h1 | rfl | h1 <;> rcases hcase j with h2 | rfl | h2
    · have := hB.inj i hi j hj
      rw [allBlocks_of_lt h1, allBlocks_of_lt h2] at this
      rwa [if_pos h1, if_pos h2]
    · simp [h1, hdl i h1]
    · simp [h1, not_lt.2 h2.le, h2.ne', hne i h1]
    · simp [h2, (hdl j h2).symm]
    · exact fun _ _ => rfl
    · simp [not_lt.2 h2.le, h2.ne', hfree.of_setUsed.ne_zero ha]
    all_goals simp [not_lt.2 h1.le, h1.ne']
  · rw [allBlocks_storeTable ha ht hfree, setSector_table]
    rcases hcase i with h | rfl | h
    · simp only [h, if_true]
      exact ht.ne_of_used (hdir i h)
    · simpa using hfree.ne_of_setUsed.symm
    · simpa [not_lt.2 h.le, h.ne'] using (ht.ne_zero ha).symm

/-- Storing an entry keeps the blocks of the directory apart. -/
theorem DirInsert.blocksOk (h : DirInsert v ino e v' ino') (ha : v.Addressable)
    (hB : BlocksOk v ino) : BlocksOk v' ino' := by
  cases h with
  | slot k j hk => exact blocksOk_of_slot hB hk j
  | block k lba hk _ hfree => exact blocksOk_of_block hB hk hfree
  | table t lba hne _ ht hfree => exact blocksOk_of_table ha hB hne ht hfree

theorem DirInsert.geometry (h : DirInsert v ino e v' ino') : v'.geometry = v.geometry := by
  cases h <;> rfl

theorem DirInsert.inode (h : DirInsert v ino e v' ino') : v'.inode = v.inode := by
  cases h <;> rfl

theorem DirInsert.iNo (h : DirInsert v ino e v' ino') : ino'.iNo = ino.iNo := by
  cases h <;> rfl

theorem fits_setSector_grow (hf : ino.Fits) (hlba : lba < 4294967296) :
    (ino.setSector k lba).grow.Fits where
  iNo := hf.iNo
  iSize := Nat.mod_lt _ (by omega)
  iSectors i hi := by
    rw [grow_iSectors, setSector_iSectors]
    split
    · exact hlba
    · exact hf.iSectors i hi

theorem DirInsert.fits (h : DirInsert v ino e v' ino') (ha : v.Addressable) (hf : ino.Fits) :
    ino'.Fits := by
  cases h with
  | slot => exact ⟨hf.iNo, Nat.mod_lt _ (by omega), hf.iSectors⟩
  | block k lba _ _ hfree => exact fits_setSector_grow hf (hfree.lt_word ha)
  | table t _ _ _ ht => exact fits_setSector_grow hf (ht.lt_word ha)

end Insert

/-! ## No entry is lost while there is room -/

/-- Some direct block is missing or has a free place. -/
def DirectRoom (d : Disk) (ino : Inode) : Prop :=
  ∃ k < 12, ino.iSectors k = 0 ∨ ∃ j < 21, ¬ (getEntry (d (ino.iSectors k)) j).Live

/-- Where `sync_dir_entry` finds room for an entry without giving up others: in the direct blocks,
or in a new table that does not replace one with live entries. -/
def RoomForEntry (d : Disk) (ino : Inode) : Prop :=
  DirectRoom d ino ∨ ino.iSectors 12 = 0 ∨ liveIndirect d ino = []

/-- The second directory holds the entries of the first, and `e`. -/
def AddsEntry (d : Disk) (ino : Inode) (e : DirEntry) (d' : Disk) (ino' : Inode) : Prop :=
  ∀ x, x ∈ liveEntries d' ino' ↔ x ∈ liveEntries d ino ∨ x = e

theorem AddsEntry.of_perm (h : (liveEntries d' ino').Perm (e :: liveEntries d ino)) :
    AddsEntry d ino e d' ino' := by
  intro x
  rw [h.mem_iff, List.mem_cons, or_comm]

section Room

variable {v v' : Volume} {ino ino' : Inode} {e : DirEntry}

theorem not_directRoom {d : Disk} (hne : ∀ k < 12, ino.iSectors k ≠ 0)
    (hfull : ∀ k < 12, ∀ j < 21, (getEntry (d (ino.iSectors k)) j).Live) :
    ¬ DirectRoom d ino := by
  rintro ⟨k, hk, hz | ⟨j, hj, hf⟩⟩
  · exact hne k hk hz
  · exact hf (hfull k hk j hj)

theorem liveIndirect_of_room {d : Disk} (hr : RoomForEntry d ino) (hn : ¬ DirectRoom d ino) :
    liveIndirect d ino = [] := by
  rcases hr with h | h | h
  · exact absurd h hn
  · exact liveIndirect_of_no_table h
  · exact h

/-- With room, the entry is added and nothing is lost. -/
theorem DirInsert.perm (h : DirInsert v ino e v' ino') (ha : v.Addressable) (hB : BlocksOk v ino)
    (hl : e.Live) (hf : e.Fits) (hr : RoomForEntry v.data ino) :
    (liveEntries v'.data ino').Perm (e :: liveEntries v.data ino) := by
  cases h with
  | slot k j hk hj hne hfree => exact perm_of_slot hB hl hf hk hj hne hfree
  | block k lba hk hz hfree => exact perm_of_block ha hB hl hf hk hz hfree
  | table t lba hne hfull ht hfree =>
    have := perm_of_table ha hB hl hf ht hfree
    rwa [liveEntries_eq_append v.data, liveIndirect_of_room hr (not_directRoom hne hfull),
      List.append_nil]

/-- A table that replaces one with live entries loses them. -/
theorem DirInsert.room (h : DirInsert v ino e v' ino') (ha : v.Addressable) (hB : BlocksOk v ino)
    (hl : e.Live) (hf : e.Fits) (hnd : (liveEntries v.data ino).Nodup)
    (hnew : e ∉ liveEntries v.data ino) (hadd : AddsEntry v.data ino e v'.data ino') :
    RoomForEntry v.data ino := by
  cases h with
  | slot k j hk hj _ hfree => exact Or.inl ⟨k, hk, Or.inr ⟨j, hj, hfree⟩⟩
  | block k lba hk hz _ => exact Or.inl ⟨k, hk, Or.inl hz⟩
  | table t lba hne hfull ht hfree =>
    refine Or.inr (Or.inr (List.eq_nil_iff_forall_not_mem.2 fun x hx => ?_))
    rw [liveEntries_eq_append] at hnd hnew
    have hx' : x ∈ liveEntries v.data ino := by
      rw [liveEntries_eq_append]
      exact List.mem_append_right _ hx
    have hmem := (hadd x).2 (Or.inl hx')
    rw [(perm_of_table ha hB hl hf ht hfree).mem_iff, List.mem_cons] at hmem
    rcases hmem with rfl | hdir
    · exact hnew (List.mem_append_right _ hx)
    · exact List.disjoint_of_nodup_append hnd hdir hx

end Room

/-- Whether there is room only depends on the table and the blocks. -/
theorem roomForEntry_congr (ht : ino.iSectors 12 ≠ 0 → d' (ino.iSectors 12) = d (ino.iSectors 12))
    (hb : ∀ k < 140, allBlocks d ino k ≠ 0 → d' (allBlocks d ino k) = d (allBlocks d ino k)) :
    RoomForEntry d' ino ↔ RoomForEntry d ino := by
  have hdir : DirectRoom d' ino ↔ DirectRoom d ino := by
    refine exists_congr fun k => and_congr_right fun hk => ?_
    by_cases hz : ino.iSectors k = 0
    · simp [hz]
    · have := hb k (by omega)
      rw [allBlocks_of_lt hk] at this
      rw [this hz]
  have hind : liveIndirect d' ino = liveIndirect d ino := by
    refine flatMap_range_congr fun i hi => ?_
    rw [allBlocks_congr (fun _ _ => rfl) ht]
    exact liveAt_congr (hb _ (by omega))
  rw [RoomForEntry, RoomForEntry, hdir, hind]

theorem BlocksOk.roomForEntry_vol (h : BlocksOk p.vol ino) :
    RoomForEntry p.disk ino ↔ RoomForEntry p.vol.data ino :=
  roomForEntry_congr
    (fun ht => Partition.disk_of_used (h.table_used ht))
    fun k hk hne => Partition.disk_of_used (h.used k hk hne)

/-- **Adding an entry to a directory.** When `sync_dir_entry` reports success, the directory holds
its old entries and the new one exactly if there was room for it. -/
theorem syncDirEntry_addsEntry_iff {p' : Partition} (hL : p.Layout) (hB : BlocksOk p.vol ino)
    (hnd : (liveEntries p.disk ino).Nodup) (hl : e.Live) (hf : e.Fits)
    (hnew : e ∉ liveEntries p.disk ino) (h : syncDirEntry p ino e = .ok (true, p', ino')) :
    AddsEntry p.disk ino e p'.disk ino' ↔ RoomForEntry p.disk ino := by
  have hins := syncDirEntry_eq_true hL hB h
  have hB' := hins.blocksOk hL.addressable hB
  rw [AddsEntry, hB.liveEntries_vol, hB'.liveEntries_vol, hB.roomForEntry_vol]
  rw [hB.liveEntries_vol] at hnd hnew
  exact ⟨hins.room hL.addressable hB hl hf hnd hnew,
    fun hr => AddsEntry.of_perm (hins.perm hL.addressable hB hl hf hr)⟩

end Gardos.Fs
