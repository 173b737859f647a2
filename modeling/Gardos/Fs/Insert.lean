import Gardos.Fs.Ownership

/-!
# Well-formed directories grow

The counterpart of `Gardos.Fs.Remove`: adding an entry to a well-formed directory with room in its
direct blocks gives a well-formed directory (`DirInsert.dirOk`), and so does making a new one
(`dirOk_newDir`). A directory has room as long as its size is below that of 252 entries
(`DirOk.directRoom`).
-/

namespace Gardos.Fs

open Bytes Outcome

/-! ## Counting entries -/

theorem length_liveIn_le (sec : Buf) : (liveIn sec).length ≤ 21 := by
  refine length_flatMap_range_le (n := 21) (k := 1) fun j _ => ?_
  split <;> simp

theorem length_liveAt_le (d : Disk) (lba : ℕ) : (liveAt d lba).length ≤ 21 := by
  unfold liveAt
  split
  · simp
  · exact length_liveIn_le _

theorem length_liveEntries_le (d : Disk) (ino : Inode) : (liveEntries d ino).length ≤ 2940 :=
  length_flatMap_range_le (n := 140) (k := 21) fun _ _ => length_liveAt_le d _

theorem length_liveIn_of_full {sec : Buf} (h : ∀ j < 21, (getEntry sec j).Live) :
    (liveIn sec).length = 21 := by
  refine length_flatMap_range_eq (n := 21) (k := 1) fun j hj => ?_
  rw [if_pos (h j hj)]
  rfl

/-- A directory with fewer than 252 entries has room in its direct blocks. -/
theorem directRoom_of_length_lt {d : Disk} {ino : Inode} (h : (liveEntries d ino).length < 252) :
    DirectRoom d ino := by
  by_contra hn
  simp only [DirectRoom, not_exists, not_and, not_or, not_not] at hn
  have hdir : (liveDirect d ino).length = 12 * 21 := length_flatMap_range_eq fun k hk => by
    obtain ⟨hne, hfull⟩ := hn k hk
    rw [liveAt_of_ne hne]
    exact length_liveIn_of_full fun j hj => hfull j hj
  rw [liveEntries_eq_append, List.length_append, hdir] at h
  omega

section Insert

variable {v v' : Volume} {ino ino' : Inode} {e : DirEntry}
  {f : List UInt8 → Option (ℕ × Kind)}

theorem DirOk.directRoom (hd : DirOk v ino f) (h : ino.iSize < 6048) : DirectRoom v.data ino :=
  directRoom_of_length_lt (by have := hd.size; omega)

/-! ## Adding an entry -/

theorem freeEntries_of_slot (hB : BlocksOk v ino) {P : DirEntry → Prop}
    (hcl : FreeEntries P v.data ino) (hl : e.Live) (hf : e.Fits) {k j : ℕ} (hk : k < 12) :
    FreeEntries P (v.storeSlot (ino.iSectors k) j e).data ino.grow := by
  intro i hi h0 j' hj' hl'
  have hlba : allBlocks v.data ino k = ino.iSectors k := allBlocks_of_lt hk
  rw [allBlocks_storeSlot hB hk] at h0 hl' ⊢
  by_cases hik : i = k
  · subst hik
    rw [hlba, storeSlot_data_self] at hl' ⊢
    by_cases hjj : j' = j
    · subst hjj
      rw [getEntry_setEntry_self hf] at hl'
      exact absurd hl hl'
    · rw [getEntry_setEntry_of_ne hjj] at hl' ⊢
      rw [← hlba] at hl' ⊢
      exact hcl i hi h0 j' hj' hl'
  · have hne : allBlocks v.data ino i ≠ ino.iSectors k := fun heq =>
      hik (hB.inj i hi k (by omega) h0 (heq.trans hlba.symm))
    rw [storeSlot_data_of_ne hne] at hl' ⊢
    exact hcl i hi h0 j' hj' hl'

theorem getEntry_newSector_of_free (hl : e.Live) (hf : e.Fits) {j : ℕ}
    (h : ¬ (getEntry (setEntry zero 0 e) j).Live) :
    getEntry (setEntry zero 0 e) j = .ofBytes zero := by
  by_cases hj : j = 0
  · subst hj
    rw [getEntry_setEntry_self hf] at h
    exact absurd hl h
  · rw [getEntry_setEntry_of_ne hj, getEntry_zero]

theorem freeEntries_of_block (hB : BlocksOk v ino) {P : DirEntry → Prop} (hP : P (.ofBytes zero))
    (hcl : FreeEntries P v.data ino) (hl : e.Live) (hf : e.Fits) {k lba : ℕ} (hk : k < 12)
    (hfree : v.Free lba) : FreeEntries P (v.storeBlock lba e).data (ino.setSector k lba).grow := by
  intro i hi h0 j hj hl'
  rw [allBlocks_storeBlock hB hk hfree] at h0 hl' ⊢
  by_cases hik : i = k
  · rw [if_pos hik, storeBlock_data_self] at hl' ⊢
    rwa [getEntry_newSector_of_free hl hf hl']
  · rw [if_neg hik] at h0 hl' ⊢
    rw [storeBlock_data_of_ne (hfree.ne_of_used (hB.used i hi h0))] at hl' ⊢
    exact hcl i hi h0 j hj hl'

/-- The first block of a directory keeps the entries it has. -/
theorem DirInsert.getEntry_first (h : DirInsert v ino e v' ino') (hB : BlocksOk v ino)
    (hfirst : ino.iSectors 0 ≠ 0) (hroom : DirectRoom v.data ino) {j : ℕ}
    (hl : (getEntry (v.data (ino.iSectors 0)) j).Live) : ino'.iSectors 0 = ino.iSectors 0 ∧
      getEntry (v'.data (ino.iSectors 0)) j = getEntry (v.data (ino.iSectors 0)) j := by
  have h0 : allBlocks v.data ino 0 = ino.iSectors 0 := allBlocks_of_lt (by omega)
  cases h with
  | slot k j' hk hj' hne hfree =>
    refine ⟨rfl, ?_⟩
    by_cases hk0 : k = 0
    · subst hk0
      rw [storeSlot_data_self, getEntry_setEntry_of_ne]
      rintro rfl
      exact hfree hl
    · rw [storeSlot_data_of_ne]
      intro heq
      refine hk0 (hB.inj 0 (by omega) k (by omega) (by rwa [h0]) ?_).symm
      rw [h0, heq, allBlocks_of_lt hk]
  | block k lba hk hz hfree =>
    have hk0 : k ≠ 0 := fun h => hfirst (h ▸ hz)
    refine ⟨?_, ?_⟩
    · change (ino.setSector k lba).iSectors 0 = _
      rw [setSector_iSectors, if_neg (Ne.symm hk0)]
    · rw [storeBlock_data_of_ne (hfree.ne_of_used (iSectors_used hB (by omega) hfirst))]
  | table t lba hne hfull ht hfree => exact absurd hroom (not_directRoom hne hfull)

theorem DirInsert.iSize (h : DirInsert v ino e v' ino') :
    ino'.iSize = (ino.iSize + 24) % 4294967296 := by
  cases h <;> rfl

theorem DirInsert.no_table (h : DirInsert v ino e v' ino') (ht : ino.iSectors 12 = 0)
    (hroom : DirectRoom v.data ino) : ino'.iSectors 12 = 0 := by
  cases h with
  | slot => exact ht
  | block k lba hk hz hfree =>
    change (ino.setSector k lba).iSectors 12 = 0
    rw [setSector_iSectors, if_neg (by omega), ht]
  | table t lba hne hfull ht hfree => exact absurd hroom (not_directRoom hne hfull)

theorem DirInsert.freeEntries (h : DirInsert v ino e v' ino') (hB : BlocksOk v ino)
    {P : DirEntry → Prop} (hP : P (.ofBytes zero)) (hcl : FreeEntries P v.data ino) (hl : e.Live)
    (hf : e.Fits) (hroom : DirectRoom v.data ino) : FreeEntries P v'.data ino' := by
  cases h with
  | slot k j hk => exact freeEntries_of_slot hB hcl hl hf hk
  | block k lba hk hz hfree => exact freeEntries_of_block hB hP hcl hl hf hk hfree
  | table t lba hne hfull ht hfree => exact absurd hroom (not_directRoom hne hfull)

/-- **Adding an entry** to a well-formed directory with room in its direct blocks. -/
theorem DirInsert.dirOk (h : DirInsert v ino e v' ino') (ha : v.Addressable) (hd : DirOk v ino f)
    (hroom : DirectRoom v.data ino) (hl : e.Live) (hf : e.Fits) (hnew : f e.name = none)
    {k : Kind} (hk : e.fType = (Kind.type k).code) :
    DirOk v' ino' (Function.update f e.name (some (e.iNo, k))) := by
  have hperm := h.perm ha hd.blocks hl hf (Or.inl hroom)
  obtain ⟨hs0, hdot⟩ := h.getEntry_first hd.blocks hd.first hroom
    (hd.live_first (by omega) hd.entry_dot (by decide))
  obtain ⟨-, hdotDot⟩ := h.getEntry_first hd.blocks hd.first hroom
    (hd.live_first (by omega) hd.entry_dotDot (by decide))
  refine ⟨h.blocksOk ha hd.blocks, h.no_table hd.table hroom,
    hd.holds.insert hperm (h.freeEntries hd.blocks blank_ofBytes_zero hd.holds.cleared hl hf hroom)
      hnew hk, ?_, ?_, ?_, ?_⟩
  · have hlen := length_liveEntries_le v.data ino
    rw [h.iSize, hd.size, hperm.length_eq, List.length_cons]
    omega
  · rw [hs0]
    exact hd.first
  · rw [hs0, hdot]
    exact hd.entry_dot
  · rw [hs0, hdotDot]
    exact hd.entry_dotDot

end Insert

/-! ## A new directory -/

section NewDir

/-- The entries of a new directory. -/
def newEntries (n parentNo : ℕ) : List UInt8 → Option (ℕ × Kind) := fun c =>
  if c = dot then some (n, .dir) else if c = dotDot then some (parentNo, .dir) else none

variable {n parentNo lba : ℕ} {v : Volume}

theorem getEntry_newDirSector (hn : n < 4096) (hp : parentNo < 4096) (j : ℕ) :
    getEntry (newDirSector n parentNo) j =
      if j = 0 then .ofName dot n .directory
      else if j = 1 then .ofName dotDot parentNo .directory else .ofBytes zero := by
  unfold newDirSector
  by_cases h1 : j = 1
  · subst h1
    rw [getEntry_setEntry_self (ofName_fits hp)]
    rfl
  · rw [getEntry_setEntry_of_ne h1]
    by_cases h0 : j = 0
    · subst h0
      rw [getEntry_setEntry_self (ofName_fits hn)]
      rfl
    · rw [getEntry_setEntry_of_ne h0, if_neg h0, if_neg h1, getEntry_zero]

theorem liveIn_newDirSector (hn : n < 4096) (hp : parentNo < 4096) :
    (liveIn (newDirSector n parentNo)).Perm
      [.ofName dotDot parentNo .directory, .ofName dot n .directory] := by
  unfold newDirSector
  have hfree : ¬ (getEntry (setEntry zero 0 (.ofName dot n .directory)) 1).Live := by
    rw [getEntry_setEntry_of_ne (by omega), getEntry_zero]
    exact DirEntry.not_live_ofBytes_zero
  refine (liveIn_setEntry (by omega) hfree (ofName_live (by decide)) (ofName_fits hp)).trans ?_
  exact (liveIn_newSector (ofName_live (by decide)) (ofName_fits hn)).cons _

theorem liveEntries_newDirInode (d : Disk) (n : ℕ) (h0 : lba ≠ 0) :
    liveEntries d (newDirInode n lba) = liveIn (d lba) := by
  have hrest : ∀ k, k ≠ 0 → liveAt d (allBlocks d (newDirInode n lba) k) = [] := fun k hk => by
    rw [allBlocks_newDirInode, if_neg hk]
    exact if_pos rfl
  rw [liveEntries, List.range_succ_eq_map, List.flatMap_cons, allBlocks_newDirInode, if_pos rfl,
    liveAt_of_ne h0, List.flatMap_map, List.flatMap_eq_nil_iff.2, List.append_nil]
  intro k _
  exact hrest _ (Nat.succ_ne_zero k)

/-- **A new directory** is well formed. -/
theorem dirOk_newDir (ha : v.Addressable) (hfree : v.Free lba) (hn : n < 4096)
    (hp : parentNo < 4096) :
    DirOk ((v.setUsed lba true).write lba (newDirSector n parentNo)) (newDirInode n lba)
      (newEntries n parentNo) := by
  set v' := (v.setUsed lba true).write lba (newDirSector n parentNo)
  have hsec : v'.data lba = newDirSector n parentNo := Volume.write_data_self ..
  have h0 := hfree.ne_zero ha
  have hlive : (liveEntries v'.data (newDirInode n lba)).Perm
      [.ofName dotDot parentNo .directory, .ofName dot n .directory] := by
    rw [liveEntries_newDirInode _ _ h0, hsec]
    exact liveIn_newDirSector hn hp
  have hs0 : (newDirInode n lba).iSectors 0 = lba := newDirInode_iSectors n lba 0
  refine ⟨(ownerStep_newDir ha hfree n _).blocks, newDirInode_iSectors n lba 12,
    ⟨?_, fun e he => ?_, fun c hc => ?_, fun k hk hk0 j hj hl => ?_⟩, ?_, ?_, ?_, ?_⟩
  · rw [(hlive.map _).nodup_iff, List.map_cons, List.map_cons, name_ofName isName_dot,
      name_ofName isName_dotDot]
    decide
  · rw [hlive.mem_iff, List.mem_cons, List.mem_singleton] at he
    rcases he with rfl | rfl
    · exact ⟨.dir, by rw [name_ofName isName_dotDot]; rfl, rfl⟩
    · exact ⟨.dir, by rw [name_ofName isName_dot]; rfl, rfl⟩
  · unfold newEntries at hc
    split at hc
    · rename_i h
      exact ⟨_, hlive.mem_iff.2 (List.mem_cons_of_mem _ List.mem_cons_self),
        by rw [name_ofName isName_dot, h]⟩
    · split at hc
      · rename_i h
        exact ⟨_, hlive.mem_iff.2 List.mem_cons_self, by rw [name_ofName isName_dotDot, h]⟩
      · exact absurd rfl hc
  · rw [allBlocks_newDirInode] at hk0 hl ⊢
    split at hk0
    · rename_i hk'
      rw [if_pos hk', hsec, getEntry_newDirSector hn hp] at hl ⊢
      split at hl
      · exact absurd (ofName_live (by decide)) hl
      · rename_i hj0
        rw [if_neg hj0]
        split at hl
        · exact absurd (ofName_live (by decide)) hl
        · rename_i hj1
          rw [if_neg hj1]
          exact blank_ofBytes_zero
    · exact absurd rfl hk0
  · rw [hlive.length_eq]
    rfl
  · rwa [hs0]
  · rw [hs0, hsec, getEntry_newDirSector hn hp, if_pos rfl, name_ofName isName_dot]
  · rw [hs0, hsec, getEntry_newDirSector hn hp, if_neg (by omega), if_pos rfl,
      name_ofName isName_dotDot]

end NewDir

end Gardos.Fs
