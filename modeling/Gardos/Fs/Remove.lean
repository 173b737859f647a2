import Gardos.Fs.DirContent

/-!
# Removing an entry from a directory

`DirRemove` lists what `delete_dir_entry` does to a volume when it finds the entry: it clears the
entry, or gives back the block that held nothing else. The first block of a directory, which holds
`"."` and `".."`, is never given back (`DirOk`).
-/

namespace Gardos.Fs

open Bytes Outcome Function

/-! ## Well-formed directories -/

/-- A directory within its direct blocks that maps names as `f` does. Its first block starts with
`"."` and `".."`. -/
structure DirOk (v : Volume) (ino : Inode) (f : List UInt8 → Option (ℕ × Kind)) : Prop where
  blocks : BlocksOk v ino
  table : ino.iSectors 12 = 0
  holds : HoldsEntries v.data ino f
  size : ino.iSize = 24 * (liveEntries v.data ino).length
  first : ino.iSectors 0 ≠ 0
  entry_dot : (getEntry (v.data (ino.iSectors 0)) 0).name = dot
  entry_dotDot : (getEntry (v.data (ino.iSectors 0)) 1).name = dotDot

section Clear

variable {v : Volume} {ino : Inode} {k j : ℕ}

/-- Clearing an entry leaves the addresses of the directory alone. -/
theorem allBlocks_write (hB : BlocksOk v ino) (hk : k < 140) (buf : Buf) (i : ℕ) :
    allBlocks (v.write (allBlocks v.data ino k) buf).data ino i = allBlocks v.data ino i :=
  allBlocks_congr (fun _ _ => rfl) fun ht =>
    update_of_ne (hB.ne_table k hk ht).symm _ _

theorem write_data_of_ne (hB : BlocksOk v ino) (hk : k < 140) {i : ℕ} (hi : i < 140) (hik : i ≠ k)
    (hne : allBlocks v.data ino i ≠ 0) (buf : Buf) :
    (v.write (allBlocks v.data ino k) buf).data (allBlocks v.data ino i) =
      v.data (allBlocks v.data ino i) :=
  update_of_ne (fun h => hik (hB.inj i hi k hk hne h)) _ _

/-- Clearing a live entry takes it out of the directory. -/
theorem perm_of_clear (hB : BlocksOk v ino) (hk : k < 140) (hne : allBlocks v.data ino k ≠ 0)
    (hj : j < 21) (hl : (getEntry (v.data (allBlocks v.data ino k)) j).Live) :
    (liveEntries v.data ino).Perm (getEntry (v.data (allBlocks v.data ino k)) j ::
      liveEntries (v.write (allBlocks v.data ino k)
        (clearEntry (v.data (allBlocks v.data ino k)) j)).data ino) := by
  refine perm_cons_flatMap_range hk (fun i hi hik => ?_) ?_
  · rw [allBlocks_write hB hk]
    exact (liveAt_congr fun h => write_data_of_ne hB hk hi hik h _).symm
  · rw [allBlocks_write hB hk, liveAt_of_ne hne, liveAt_of_ne hne, Volume.write_data_self]
    exact liveIn_clearEntry hj hl

/-- The entry at another place is still there when one has been cleared. -/
theorem mem_liveEntries_clear (hB : BlocksOk v ino) (hk : k < 140) {k' j' : ℕ} (hk' : k' < 140)
    (hne' : allBlocks v.data ino k' ≠ 0) (hj' : j' < 21)
    (hl' : (getEntry (v.data (allBlocks v.data ino k')) j').Live) (hpos : ¬ (k' = k ∧ j' = j)) :
    getEntry (v.data (allBlocks v.data ino k')) j' ∈ liveEntries
      (v.write (allBlocks v.data ino k) (clearEntry (v.data (allBlocks v.data ino k)) j)).data
      ino := by
  set v' := v.write (allBlocks v.data ino k) (clearEntry (v.data (allBlocks v.data ino k)) j)
    with hv'
  have hkeep : getEntry (v'.data (allBlocks v.data ino k')) j' =
      getEntry (v.data (allBlocks v.data ino k')) j' := by
    by_cases hkk : k' = k
    · subst hkk
      rw [hv', Volume.write_data_self]
      exact getEntry_clearEntry_of_ne fun h => hpos ⟨rfl, h⟩
    · rw [hv', write_data_of_ne hB hk hk' hkk hne']
  refine mem_liveEntries.2 ⟨k', hk', ?_, j', hj', ?_, hl'⟩
  · rwa [hv', allBlocks_write hB hk]
  · rw [hv', allBlocks_write hB hk, ← hv', hkeep]

/-- When the names of the live entries are distinct, a name has one place. -/
theorem pos_unique_of_nodup (hnd : ((liveEntries v.data ino).map DirEntry.name).Nodup)
    (hB : BlocksOk v ino) (hk : k < 140) (hne : allBlocks v.data ino k ≠ 0) (hj : j < 21)
    (hl : (getEntry (v.data (allBlocks v.data ino k)) j).Live) {k' j' : ℕ} (hk' : k' < 140)
    (hne' : allBlocks v.data ino k' ≠ 0) (hj' : j' < 21)
    (hl' : (getEntry (v.data (allBlocks v.data ino k')) j').Live)
    (hname : (getEntry (v.data (allBlocks v.data ino k')) j').name =
      (getEntry (v.data (allBlocks v.data ino k)) j).name) : k' = k ∧ j' = j := by
  by_contra hpos
  have hmem := mem_liveEntries_clear hB hk hk' hne' hj' hl' hpos
  rw [((perm_of_clear hB hk hne hj hl).map DirEntry.name).nodup_iff, List.map_cons,
    List.nodup_cons] at hnd
  exact hnd.1 (List.mem_map.2 ⟨_, hmem, hname⟩)

end Clear

/-! ## What `delete_dir_entry` does -/

/-- A directory with one entry less. -/
def Inode.shrink (ino : Inode) : Inode := { ino with iSize := ino.iSize - 24 }

/-- The ways in which `delete_dir_entry` removes an entry from a directory within its direct
blocks. -/
inductive DirRemove (v : Volume) (ino : Inode) (e : DirEntry) : Volume → Inode → Prop
  /-- Place `j` of block `k` is cleared. -/
  | slot (k j : ℕ) (hk : k < 12) (hj : j < 21) (hne : ino.iSectors k ≠ 0)
      (he : getEntry (v.data (ino.iSectors k)) j = e) (hl : e.Live) :
      DirRemove v ino e
        (v.write (ino.iSectors k) (clearEntry (v.data (ino.iSectors k)) j)) ino.shrink
  /-- Block `k` holds no other entry and is given back. -/
  | block (k : ℕ) (hk : k < 12) (hne : ino.iSectors k ≠ 0)
      (he : (liveIn (v.data (ino.iSectors k))).Perm [e]) :
      DirRemove v ino e (v.setUsed (ino.iSectors k) false) (ino.setSector k 0).shrink

theorem isNamed_iff {sec : Buf} {j : ℕ} : isNamed sec j = true ↔
    (getEntry sec j).Live ∧ (getEntry sec j).name ≠ dot ∧ (getEntry sec j).name ≠ dotDot := by
  have hdot := strEq_bytes_iff (e := getEntry sec j) isName_dot.length_le isName_dot.nul
  have hdotDot := strEq_bytes_iff (e := getEntry sec j) isName_dotDot.length_le isName_dotDot.nul
  simp only [isNamed, Bool.and_eq_true, Bool.not_eq_true', decide_eq_true_eq, and_assoc,
    strEq_window_getEntry isName_dot.length_le, strEq_window_getEntry isName_dotDot.length_le,
    ne_eq, ← hdot, ← hdotDot, Bool.not_eq_true]

theorem isDot_iff {sec : Buf} {j : ℕ} : isDot sec j = true ↔
    (getEntry sec j).Live ∧ (getEntry sec j).name = dot := by
  simp only [isDot, Bool.and_eq_true, decide_eq_true_eq,
    strEq_window_getEntry isName_dot.length_le, strEq_bytes_iff isName_dot.length_le isName_dot.nul]

section Delete

variable {p : Partition} {v : Volume} {ino : Inode} {f : List UInt8 → Option (ℕ × Kind)} {k j m : ℕ}
  {c : List UInt8}

theorem DirOk.allBlocks_eq (hd : DirOk v ino f) :
    allBlocks v.data ino k = if k < 12 then ino.iSectors k else 0 := by
  split
  · rename_i hk
    exact allBlocks_of_lt hk
  · rename_i hk
    exact allBlocks_of_no_table hd.table (not_lt.1 hk)

/-- An entry that is not in use has no name, so one with a name is in use. -/
theorem HoldsEntries.live_of_name {d : Disk} (h : HoldsEntries d ino f) (hk : k < 140)
    (hne : allBlocks d ino k ≠ 0) (hj : j < 21)
    (hname : (getEntry (d (allBlocks d ino k)) j).name = c) (hc : c ≠ []) :
    (getEntry (d (allBlocks d ino k)) j).Live := by
  by_contra hl
  exact hc (hname ▸ (h.cleared k hk hne j hj hl).1)

theorem DirOk.live_first (hd : DirOk v ino f) (hj : j < 21)
    (hname : (getEntry (v.data (ino.iSectors 0)) j).name = c) (hc : c ≠ []) :
    (getEntry (v.data (ino.iSectors 0)) j).Live := by
  have h0 : allBlocks v.data ino 0 = ino.iSectors 0 := allBlocks_of_lt (by omega)
  rw [← h0] at hname ⊢
  exact hd.holds.live_of_name (by omega) (by rw [h0]; exact hd.first) hj hname hc

/-- A directory, with or without a table, whose first block starts with `"."` and `".."`, which no
other block holds. -/
structure DirShape (v : Volume) (ino : Inode) : Prop where
  blocks : BlocksOk v ino
  size : ino.iSize = 24 * (liveEntries v.data ino).length
  first : ino.iSectors 0 ≠ 0
  live_dot : (getEntry (v.data (ino.iSectors 0)) 0).Live
  entry_dot : (getEntry (v.data (ino.iSectors 0)) 0).name = dot
  live_dotDot : (getEntry (v.data (ino.iSectors 0)) 1).Live
  entry_dotDot : (getEntry (v.data (ino.iSectors 0)) 1).name = dotDot
  only : ∀ k < 140, allBlocks v.data ino k ≠ 0 → ∀ j < 21,
    (getEntry (v.data (allBlocks v.data ino k)) j).Live →
    (getEntry (v.data (allBlocks v.data ino k)) j).name = dot ∨
      (getEntry (v.data (allBlocks v.data ino k)) j).name = dotDot → k = 0

/-- Distinct names make `"."` and `".."` unique. -/
theorem dirShape_of_nodup (hB : BlocksOk v ino)
    (hnd : ((liveEntries v.data ino).map DirEntry.name).Nodup)
    (hsize : ino.iSize = 24 * (liveEntries v.data ino).length) (h0 : ino.iSectors 0 ≠ 0)
    (hl : ∀ j < 2, (getEntry (v.data (ino.iSectors 0)) j).Live)
    (hdot : (getEntry (v.data (ino.iSectors 0)) 0).name = dot)
    (hdotDot : (getEntry (v.data (ino.iSectors 0)) 1).name = dotDot) : DirShape v ino := by
  have hlba : allBlocks v.data ino 0 = ino.iSectors 0 := allBlocks_of_lt (by omega)
  refine ⟨hB, hsize, h0, hl 0 (by omega), hdot, hl 1 (by omega), hdotDot,
    fun k hk hne j hj hlive hname => ?_⟩
  rcases hname with hname | hname
  · refine (pos_unique_of_nodup hnd hB (k := 0) (j := 0) (by omega) (by rwa [hlba]) (by omega) ?_ hk
      hne hj hlive ?_).1
    · rw [hlba]
      exact hl 0 (by omega)
    · rw [hlba, hname, hdot]
  · refine (pos_unique_of_nodup hnd hB (k := 0) (j := 1) (by omega) (by rwa [hlba]) (by omega) ?_ hk
      hne hj hlive ?_).1
    · rw [hlba]
      exact hl 1 (by omega)
    · rw [hlba, hname, hdotDot]

theorem DirOk.shape (hd : DirOk v ino f) : DirShape v ino := by
  refine dirShape_of_nodup hd.blocks hd.holds.nodup hd.size hd.first (fun j hj => ?_) hd.entry_dot
    hd.entry_dotDot
  obtain rfl | rfl : j = 0 ∨ j = 1 := by omega
  · exact hd.live_first (by omega) hd.entry_dot (by decide)
  · exact hd.live_first (by omega) hd.entry_dotDot (by decide)

/-- The test for a block to give back: it is not the first of its directory and has one entry other
than `"."` and `".."`. It says that without this entry nothing is left in the block. -/
theorem DirShape.sole_iff (hD : DirShape v ino) (hk : k < 140) (hne : allBlocks v.data ino k ≠ 0)
    (hj : j < 21) (hnamed : isNamed (v.data (allBlocks v.data ino k)) j = true) :
    (dirEntryCnt (v.data (allBlocks v.data ino k)) = 1 ∧
      isDirFirstBlock (v.data (allBlocks v.data ino k)) = false) ↔
      liveIn (clearEntry (v.data (allBlocks v.data ino k)) j) = [] := by
  have hlba : allBlocks v.data ino 0 = ino.iSectors 0 := allBlocks_of_lt (by omega)
  set sec := v.data (allBlocks v.data ino k) with hsec
  have hclear : liveIn (clearEntry sec j) = [] ↔ ∀ j' < 21, (getEntry sec j').Live → j' = j := by
    rw [List.eq_nil_iff_forall_not_mem]
    constructor
    · intro h j' hj' hl'
      by_contra hjj
      exact h _ (mem_liveIn.2 ⟨j', hj', getEntry_clearEntry_of_ne hjj, hl'⟩)
    · intro h e he
      obtain ⟨j', hj', rfl, hl'⟩ := mem_liveIn.1 he
      by_cases hjj : j' = j
      · rw [hjj, getEntry_clearEntry_self] at hl'
        exact DirEntry.not_live_ofBytes_zero hl'
      · rw [getEntry_clearEntry_of_ne hjj] at hl'
        exact hjj (h j' hj' hl')
  rw [hclear]
  constructor
  · rintro ⟨hcnt, hfirst⟩ j' hj' hl'
    have hnotdot : ∀ i < 21, ¬ isDot sec i = true := fun i hi =>
      List.any_eq_false.1 hfirst i (List.mem_range.2 hi)
    have h1 : (getEntry sec j').name ≠ dot := fun h => hnotdot j' hj' (isDot_iff.2 ⟨hl', h⟩)
    have h2 : (getEntry sec j').name ≠ dotDot := fun h => by
      -- then the block is the first one, which starts with `"."`
      have hk0 := hD.only k hk hne j' hj' hl' (.inr h)
      refine hnotdot 0 (by omega) (isDot_iff.2 ?_)
      rw [hsec, hk0, hlba]
      exact ⟨hD.live_dot, hD.entry_dot⟩
    -- so it counts, and so does entry `j`
    obtain ⟨i, hi⟩ := List.length_eq_one_iff.1 hcnt
    have hmem : ∀ i' < 21, isNamed sec i' = true → i' = i := fun i' h hn => by
      have : i' ∈ (List.range 21).filter (isNamed sec) :=
        List.mem_filter.2 ⟨List.mem_range.2 h, hn⟩
      rw [hi] at this
      exact List.mem_singleton.1 this
    exact (hmem j' hj' (isNamed_iff.2 ⟨hl', h1, h2⟩)).trans (hmem j hj hnamed).symm
  · intro h
    constructor
    · have : (List.range 21).filter (isNamed sec) = [j] :=
        filter_range_eq_singleton hj fun j' hj' =>
        ⟨fun hn => h j' hj' (isNamed_iff.1 hn).1, fun hjj => by rw [hjj]; exact hnamed⟩
      rw [dirEntryCnt, this]
      rfl
    · refine List.any_eq_false.2 fun j' hj' hdot => ?_
      obtain ⟨hl', hname⟩ := isDot_iff.1 hdot
      rw [h j' (List.mem_range.1 hj') hl'] at hname
      exact (isNamed_iff.1 hnamed).2.1 hname

/-- Taking an entry out of a direct block. A block that holds nothing more is given back. -/
theorem exists_removeEntry (hL : p.Layout) (hD : DirShape p.vol ino) (hk : k < 12)
    (hne : ino.iSectors k ≠ 0) (hj : j < 21)
    (hnamed : isNamed (p.vol.data (ino.iSectors k)) j = true) {blocks : ℕ → ℕ}
    (hblk : blocks k = ino.iSectors k) :
    ∃ p' ino', removeEntry p ino blocks k j = .ok (p', ino') ∧
      DirRemove p.vol ino (getEntry (p.vol.data (ino.iSectors k)) j) p'.vol ino'.shrink ∧
      ino'.iSize = ino.iSize ∧ ino'.iNo = ino.iNo ∧
      ∀ i < 12, ino'.iSectors i ≠ 0 → liveAt p'.vol.data (ino'.iSectors i) = [] →
        liveAt p.vol.data (ino.iSectors i) = [] := by
  have hused := iSectors_used hD.blocks hk hne
  have hstart := Partition.dataStart_le_of_used hused
  have hread := Partition.disk_of_used hused
  have hlba : allBlocks p.vol.data ino k = ino.iSectors k := allBlocks_of_lt hk
  have hsole := hD.sole_iff (j := j) (show k < 140 by omega) (by rwa [hlba]) hj (by rwa [hlba])
  rw [hlba] at hsole
  unfold removeEntry
  simp only [hblk, ideRead_apply, hread]
  split
  · rename_i h
    refine ⟨_, _, rfl, ?_, rfl, rfl, fun i hi hi0 hempty => ?_⟩
    · rw [Partition.vol_blockBitmapFree hL hused]
      have hperm := liveIn_clearEntry hj (isNamed_iff.1 hnamed).1
      rw [hsole.1 h] at hperm
      exact .block k hk hne hperm
    · rw [Partition.vol_blockBitmapFree hL hused] at hempty
      rw [setSector_iSectors] at hi0 hempty
      split at hi0
      · exact absurd rfl hi0
      · rename_i hik
        rwa [if_neg hik] at hempty
  · rename_i h
    refine ⟨_, _, rfl, ?_, rfl, rfl, fun i hi hi0 hempty => ?_⟩
    · rw [Partition.vol_write hL hstart]
      exact .slot k j hk hj hne rfl (isNamed_iff.1 hnamed).1
    · rw [Partition.vol_write hL hstart, liveAt_of_ne hi0] at hempty
      by_cases hik : i = k
      · subst hik
        rw [Volume.write_data_self] at hempty
        exact absurd (hsole.2 hempty) h
      · rw [← allBlocks_of_lt (d := p.vol.data) hi] at hi0
        have := write_data_of_ne hD.blocks (show k < 140 by omega) (show i < 140 by omega) hik hi0
          (clearEntry (p.vol.data (ino.iSectors k)) j)
        rw [hlba, allBlocks_of_lt hi] at this
        rw [this] at hempty
        rw [liveAt]
        split
        · rfl
        · exact hempty

section Removed

theorem allBlocks_shrink_setSector (ino : Inode) (d : Disk) {k : ℕ} (hk : k < 12) (i : ℕ) :
    allBlocks d (ino.setSector k 0).shrink i = if i = k then 0 else allBlocks d ino i :=
  allBlocks_setSector hk (fun _ => rfl) i

theorem blank_ofBytes_zero : (DirEntry.ofBytes zero).Blank := ⟨by decide, by decide⟩

section Slot

variable {k j : ℕ}

theorem allBlocks_clearSlot (hB : BlocksOk v ino) (hk : k < 12) (buf : Buf) (i : ℕ) :
    allBlocks (v.write (ino.iSectors k) buf).data ino.shrink i = allBlocks v.data ino i := by
  have := allBlocks_write hB (show k < 140 by omega) buf i
  rwa [allBlocks_of_lt hk] at this

theorem clearSlot_data_of_ne (hB : BlocksOk v ino) (hk : k < 12) {i : ℕ} (hi : i < 140)
    (h0 : allBlocks v.data ino i ≠ 0) (hik : i ≠ k) (buf : Buf) :
    (v.write (ino.iSectors k) buf).data (allBlocks v.data ino i) =
      v.data (allBlocks v.data ino i) := by
  have := write_data_of_ne hB (show k < 140 by omega) hi hik h0 buf
  rwa [allBlocks_of_lt hk] at this

end Slot

variable {e : DirEntry} {v' : Volume} {ino' : Inode} (h : DirRemove v ino e v' ino')

include h

theorem DirRemove.geometry : v'.geometry = v.geometry := by
  cases h <;> rfl

theorem DirRemove.inode : v'.inode = v.inode := by
  cases h <;> rfl

theorem DirRemove.iNo : ino'.iNo = ino.iNo := by
  cases h <;> rfl

theorem DirRemove.fits (hf : ino.Fits) : ino'.Fits := by
  cases h with
  | slot k j => exact ⟨hf.iNo, (Nat.sub_le _ _).trans_lt hf.iSize, hf.iSectors⟩
  | block k =>
    refine ⟨hf.iNo, (Nat.sub_le _ _).trans_lt hf.iSize, fun i hi => ?_⟩
    change (ino.setSector k 0).iSectors i < _
    rw [setSector_iSectors]
    split
    · omega
    · exact hf.iSectors i hi

/-- The directory has lost the entry and no other. -/
theorem DirRemove.perm (hB : BlocksOk v ino) :
    (liveEntries v.data ino).Perm (e :: liveEntries v'.data ino') := by
  cases h with
  | slot k j hk hj hne he hl =>
    have hlba : allBlocks v.data ino k = ino.iSectors k := allBlocks_of_lt hk
    subst he
    have := perm_of_clear (k := k) hB (by omega) (by rwa [hlba]) hj (by rwa [hlba])
    rwa [hlba] at this
  | block k hk hne he =>
    refine perm_cons_flatMap_range (k := k) (by omega) (fun i hi hik => ?_) ?_
    · rw [allBlocks_shrink_setSector _ _ hk, if_neg hik]
      rfl
    · rw [allBlocks_shrink_setSector _ _ hk, if_pos rfl, allBlocks_of_lt hk, liveAt_of_ne hne]
      exact he

theorem DirRemove.blocksOk (hB : BlocksOk v ino) :
    BlocksOk v' ino' := by
  cases h with
  | slot k j hk hj hne he hl =>
    have hlba : allBlocks v.data ino k = ino.iSectors k := allBlocks_of_lt hk
    refine hB.congr rfl rfl fun i _ => ?_
    have := allBlocks_write hB (show k < 140 by omega)
      (clearEntry (v.data (ino.iSectors k)) j) i
    rwa [hlba] at this
  | block k hk hne he =>
    have ht : (ino.setSector k 0).shrink.iSectors 12 = ino.iSectors 12 := by
      change (ino.setSector k 0).iSectors 12 = _
      rw [setSector_iSectors, if_neg (by omega)]
    have hall := allBlocks_shrink_setSector ino v.data hk
    have hne' : ∀ i < 140, i ≠ k → allBlocks v.data ino i ≠ 0 →
        allBlocks v.data ino i ≠ ino.iSectors k := fun i hi hik h0 heq =>
      hik (hB.inj i hi k (by omega) h0 (heq.trans (allBlocks_of_lt hk).symm))
    have hused : ∀ b, b ≠ ino.iSectors k → v.used b = true →
        (v.setUsed (ino.iSectors k) false).used b = true := fun b hb h =>
      (update_of_ne hb _ _).trans h
    refine ⟨fun i hi h0 => ?_, fun h0 => ?_, fun i hi j hj h0 heq => ?_, fun i hi h0 => ?_⟩
    · change allBlocks v.data _ i ≠ 0 at h0
      change (v.setUsed _ false).used (allBlocks v.data _ i) = true
      rw [hall] at h0 ⊢
      split at h0
      · exact absurd rfl h0
      · rename_i hik
        rw [if_neg hik]
        exact hused _ (hne' i hi hik h0) (hB.used i hi h0)
    · rw [ht] at h0 ⊢
      refine hused _ (fun heq => ?_) (hB.table_used h0)
      exact hB.ne_table k (by omega) h0 ((allBlocks_of_lt hk).trans heq.symm)
    · change allBlocks v.data _ i ≠ 0 at h0
      change allBlocks v.data _ i = allBlocks v.data _ j at heq
      rw [hall] at h0 heq
      rw [hall] at heq
      split at h0
      · exact absurd rfl h0
      · rename_i hik
        rw [if_neg hik] at heq
        split at heq
        · exact absurd heq h0
        · exact hB.inj i hi j hj h0 heq
    · change allBlocks v.data _ i ≠ _
      rw [ht] at h0 ⊢
      rw [hall]
      split
      · exact h0.symm
      · exact hB.ne_table i hi h0

/-- The first block of a directory, with `"."` in it, stays. -/
theorem DirRemove.iSectors_zero (hD : DirShape v ino)
    (hdot : e.name ≠ dot) : ino'.iSectors 0 = ino.iSectors 0 := by
  cases h with
  | slot => rfl
  | block k hk hne he =>
    have hk0 : k ≠ 0 := by
      rintro rfl
      have hmem := mem_liveIn.2 ⟨0, by omega, rfl, hD.live_dot⟩
      rw [he.mem_iff, List.mem_singleton] at hmem
      exact hdot (by rw [← hmem, hD.entry_dot])
    change (ino.setSector k 0).iSectors 0 = _
    rw [setSector_iSectors, if_neg (Ne.symm hk0)]

theorem DirRemove.no_table (ht : ino.iSectors 12 = 0) :
    ino'.iSectors 12 = 0 := by
  cases h with
  | slot => exact ht
  | block k hk hne he =>
    change (ino.setSector k 0).iSectors 12 = 0
    rw [setSector_iSectors, if_neg (by omega), ht]

/-- No block changes its place. -/
theorem DirRemove.iSectors_eq {i : ℕ} (hi : ino'.iSectors i ≠ 0) :
    ino'.iSectors i = ino.iSectors i := by
  cases h with
  | slot => rfl
  | block k hk hne he =>
    change (ino.setSector k 0).iSectors i ≠ 0 at hi
    change (ino.setSector k 0).iSectors i = _
    rw [setSector_iSectors] at hi ⊢
    split at hi
    · exact absurd rfl hi
    · rename_i hik
      exact if_neg hik

theorem DirRemove.iSize (hD : DirShape v ino) :
    ino'.iSize = 24 * (liveEntries v'.data ino').length := by
  have hlen := (h.perm hD.blocks).length_eq
  have hold := hD.size
  rw [List.length_cons] at hlen
  have : ino'.iSize = ino.iSize - 24 := by cases h <;> rfl
  omega

/-- The first block keeps the entries other than the one that is removed. -/
theorem DirRemove.getEntry_first (hD : DirShape v ino) {j : ℕ}
    (hn : (getEntry (v.data (ino.iSectors 0)) j).name ≠ e.name) :
    getEntry (v'.data (ino.iSectors 0)) j = getEntry (v.data (ino.iSectors 0)) j := by
  cases h with
  | slot k j' hk hj' hne he hl =>
    by_cases hk0 : k = 0
    · subst hk0
      rw [Volume.write_data_self, getEntry_clearEntry_of_ne]
      rintro rfl
      exact hn (by rw [he])
    · have h0 : allBlocks v.data ino 0 = ino.iSectors 0 := allBlocks_of_lt (by omega)
      have := clearSlot_data_of_ne hD.blocks hk (show 0 < 140 by omega) (by rw [h0]; exact hD.first)
        (Ne.symm hk0) (clearEntry (v.data (ino.iSectors k)) j')
      rw [h0] at this
      rw [this]
  | block => rfl

theorem DirRemove.freeEntries (hB : BlocksOk v ino)
    {P : DirEntry → Prop} (hP : P (.ofBytes zero)) (hcl : FreeEntries P v.data ino) :
    FreeEntries P v'.data ino' := by
  cases h with
  | slot k j hk hj hne he hl =>
    intro i hi h0 j' hj' hl'
    have hlba : allBlocks v.data ino k = ino.iSectors k := allBlocks_of_lt hk
    rw [allBlocks_clearSlot hB hk] at h0 hl' ⊢
    by_cases hik : i = k
    · subst hik
      rw [hlba, Volume.write_data_self] at hl' ⊢
      by_cases hjj : j' = j
      · subst hjj
        rwa [getEntry_clearEntry_self]
      · rw [getEntry_clearEntry_of_ne hjj] at hl' ⊢
        rw [← hlba] at hl' ⊢
        exact hcl i hi h0 j' hj' hl'
    · rw [clearSlot_data_of_ne hB hk hi h0 hik] at hl' ⊢
      exact hcl i hi h0 j' hj' hl'
  | block k hk hne he =>
    intro i hi h0 j' hj' hl'
    change allBlocks v.data _ i ≠ 0 at h0
    change ¬ (getEntry (v.data (allBlocks v.data _ i)) j').Live at hl'
    change P (getEntry (v.data (allBlocks v.data _ i)) j')
    rw [allBlocks_shrink_setSector _ _ hk] at h0 hl' ⊢
    split at h0
    · exact absurd rfl h0
    · rename_i hik
      rw [if_neg hik] at hl' ⊢
      exact hcl i hi h0 j' hj' hl'

/-- Without the entry the directory is well formed. -/
theorem DirRemove.dirOk (hd : DirOk v ino f) (hdot : e.name ≠ dot)
    (hdotDot : e.name ≠ dotDot) : DirOk v' ino' (update f e.name none) := by
  have hs0 := h.iSectors_zero hd.shape hdot
  refine ⟨h.blocksOk hd.blocks, h.no_table hd.table, hd.holds.erase (h.perm hd.blocks)
    (h.freeEntries hd.blocks blank_ofBytes_zero hd.holds.cleared), h.iSize hd.shape, ?_, ?_, ?_⟩
  · rw [hs0]
    exact hd.first
  · rw [hs0, h.getEntry_first hd.shape (by rw [hd.entry_dot]; exact hdot.symm), hd.entry_dot]
  · rw [hs0, h.getEntry_first hd.shape (by rw [hd.entry_dotDot]; exact hdotDot.symm),
      hd.entry_dotDot]

end Removed

/-- `delete_dir_entry` finds the one entry for an inode other than `"."` and `".."`. -/
theorem deleteDirEntry_eq (hB : BlocksOk p.vol ino) (hk : k < 140)
    (hne : allBlocks p.vol.data ino k ≠ 0) (hj : j < 21)
    (hpos : ∀ i < 140, allBlocks p.vol.data ino i ≠ 0 → ∀ j' < 21,
      ((isNamed (p.vol.data (allBlocks p.vol.data ino i)) j' = true ∧
        (getEntry (p.vol.data (allBlocks p.vol.data ino i)) j').iNo = m) ↔ i = k ∧ j' = j)) :
    deleteDirEntry p ino m = (do
      let (p, dirInode) ← removeEntry p ino (allBlocks p.vol.data ino) k j
      assert (24 ≤ dirInode.iSize)
      let p ← inodeSync p dirInode.shrink
      return (true, p, dirInode.shrink)) := by
  -- the blocks are read from the disk as the volume has them
  have hread : ∀ i < 140, allBlocks p.vol.data ino i ≠ 0 →
      p.disk (allBlocks p.vol.data ino i) = p.vol.data (allBlocks p.vol.data ino i) :=
    fun i hi h => Partition.disk_of_used (hB.used i hi h)
  have hall : allBlocks p.disk ino = allBlocks p.vol.data ino := funext fun i => hB.allBlocks_vol
  have hfound : ∀ i < 140, allBlocks p.vol.data ino i ≠ 0 →
      foundEntries (p.vol.data (allBlocks p.vol.data ino i)) m = if i = k then [j] else [] := by
    intro i hi hi0
    by_cases hik : i = k
    · rw [if_pos hik]
      refine filter_range_eq_singleton hj fun j' hj' => ?_
      rw [Bool.and_eq_true, decide_eq_true_eq, hpos i hi hi0 j' hj']
      exact ⟨fun h => h.2, fun h => ⟨hik, h⟩⟩
    · rw [if_neg hik]
      refine List.filter_eq_nil_iff.2 fun j' hj' h => ?_
      rw [Bool.and_eq_true, decide_eq_true_eq, hpos i hi hi0 j' (List.mem_range.1 hj')] at h
      exact hik h.1
  have hidx : skipWhile (blockMisses p.disk (allBlocks p.vol.data ino) m) 140 0 = k := by
    refine skipWhile_eq_of_fails (Nat.zero_le _) (by omega) ?_ fun i _ hi => ?_
    · rw [blockMisses, ideRead_apply, hread k hk hne, hfound k hk hne, if_pos rfl]
      simp [hne]
    · by_cases hi0 : allBlocks p.vol.data ino i = 0
      · simp [blockMisses, hi0]
      · rw [blockMisses, ideRead_apply, hread i (by omega) hi0, hfound i (by omega) hi0,
          if_neg hi.ne]
        simp
  unfold deleteDirEntry
  simp only [hall, hidx]
  rw [if_neg (by omega), ideRead_apply, hread k hk hne, hfound k hk hne, if_pos rfl]
  rfl

/-- What it does with an entry of a direct block. -/
theorem DirShape.exists_delete (hL : p.Layout) (hf : ino.Fits) (hD : DirShape p.vol ino)
    (hk : k < 12) (hne : ino.iSectors k ≠ 0) (hj : j < 21)
    (hpos : ∀ i < 140, allBlocks p.vol.data ino i ≠ 0 → ∀ j' < 21,
      ((isNamed (p.vol.data (allBlocks p.vol.data ino i)) j' = true ∧
        (getEntry (p.vol.data (allBlocks p.vol.data ino i)) j').iNo = m) ↔ i = k ∧ j' = j)) :
    ∃ v' ino' p', deleteDirEntry p ino m = .ok (true, p', ino') ∧
      DirRemove p.vol ino (getEntry (p.vol.data (ino.iSectors k)) j) v' ino' ∧
      p'.vol = v'.setInode (ino.iNo % 256) ino'.stored ∧
      ∀ i < 12, ino'.iSectors i ≠ 0 → liveAt v'.data (ino'.iSectors i) = [] →
        liveAt p.vol.data (ino.iSectors i) = [] := by
  have hlba : allBlocks p.vol.data ino k = ino.iSectors k := allBlocks_of_lt hk
  have hne' : allBlocks p.vol.data ino k ≠ 0 := by rwa [hlba]
  have hnamed := ((hpos k (by omega) hne' j hj).2 ⟨rfl, rfl⟩).1
  obtain ⟨p1, ino1, hrem, hv1, hsize1, hno1, hkept⟩ := exists_removeEntry hL hD hk hne hj
    (hlba ▸ hnamed) hlba
  have hsize : 24 ≤ ino1.iSize := by
    have := List.length_pos_of_mem (mem_liveEntries.2
      ⟨k, by omega, hne', j, hj, rfl, (isNamed_iff.1 hnamed).1⟩)
    rw [hsize1, hD.size]
    omega
  obtain ⟨p2, hsync, hv2⟩ := Partition.exists_inodeSync (hL.of_geometry hv1.geometry) (hv1.fits hf)
  refine ⟨p1.vol, ino1.shrink, p2, ?_, hv1, by rw [hv2, ← hno1]; rfl, hkept⟩
  rw [deleteDirEntry_eq hD.blocks (by omega) hne' hj hpos]
  exact bind_eq_ok.2 ⟨_, hrem, bind_eq_ok.2 ⟨(), assert_eq_ok.2 hsize,
    bind_eq_ok.2 ⟨_, hsync, rfl⟩⟩⟩

/-- **`delete_dir_entry`** finds the one entry for an inode other than `"."` and `".."`, and removes
it. -/
theorem exists_deleteDirEntry (hL : p.Layout) (hf : ino.Fits) (hd : DirOk p.vol ino f) {κ : Kind}
    (hc : f c = some (m, κ)) (hdot : c ≠ dot) (hdotDot : c ≠ dotDot)
    (huniq : ∀ c' κ', f c' = some (m, κ') → c' = dot ∨ c' = dotDot ∨ c' = c) :
    ∃ e v' ino' p', deleteDirEntry p ino m = .ok (true, p', ino') ∧ e.name = c ∧
      DirRemove p.vol ino e v' ino' ∧ p'.vol = v'.setInode (ino.iNo % 256) ino'.stored := by
  obtain ⟨e, he, hname⟩ := hd.holds.find c (by rw [hc]; exact Option.some_ne_none _)
  obtain ⟨k, hk, hne, j, hj, rfl, hl⟩ := mem_liveEntries.1 he
  have hk12 : k < 12 := by
    by_contra h
    rw [hd.allBlocks_eq, if_neg h] at hne
    exact hne rfl
  have hlba : allBlocks p.vol.data ino k = ino.iSectors k := allBlocks_of_lt hk12
  obtain ⟨κ', hκ', -⟩ := hd.holds.mem _ he
  rw [hname, hc] at hκ'
  have hno : (getEntry (p.vol.data (allBlocks p.vol.data ino k)) j).iNo = m :=
    (Prod.mk.inj (Option.some.inj hκ')).1.symm
  obtain ⟨v', ino', p', hdel, hrem, hv, -⟩ := hd.shape.exists_delete (j := j) (m := m) hL hf hk12
    (hlba ▸ hne) hj fun i hi hi0 j' hj' => by
      rw [isNamed_iff]
      constructor
      · rintro ⟨⟨hl', hn1, hn2⟩, hno'⟩
        obtain ⟨κ'', hκ'', -⟩ := hd.holds.mem _ (mem_liveEntries.2 ⟨i, hi, hi0, j', hj', rfl, hl'⟩)
        rw [hno'] at hκ''
        rcases huniq _ _ hκ'' with h | h | h
        · exact absurd h hn1
        · exact absurd h hn2
        · exact pos_unique_of_nodup hd.holds.nodup hd.blocks hk hne hj hl hi hi0 hj' hl'
            (h.trans hname.symm)
      · rintro ⟨rfl, rfl⟩
        exact ⟨⟨hl, by rwa [hname], by rwa [hname]⟩, hno⟩
  exact ⟨_, v', ino', p', hdel, by rw [← hlba]; exact hname, hrem, hv⟩

end Delete

end Gardos.Fs
