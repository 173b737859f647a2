import Mathlib.Data.List.TakeWhile
import Gardos.Fs.Insert

/-!
# Small directories are finite maps

As long as a directory needs no indirect table it is a finite map from names to entries, `dirMap`,
whatever holes deletions have left in its blocks (`compact_finiteMap`). `Compact` is the invariant
that carries this: a block other than the first is kept only while an entry lies in it, and a free
place is all zero, so that `search_dir_entry`, which looks at names, and `sync_dir_entry`, which
looks at types, agree on what is free.
-/

namespace Gardos.Fs

open Bytes Outcome Function

/-- The map that a directory is: a name to the entry in use with this name. -/
def dirMap (d : Disk) (ino : Inode) : List UInt8 → Option DirEntry := fun c =>
  (liveEntries d ino).find? fun e => e.name = c

/-- A directory without a table and without waste. -/
structure Compact (v : Volume) (ino : Inode) : Prop where
  /-- The blocks of the directory are marked in the block bitmap. -/
  used : ∀ k < 12, ino.iSectors k ≠ 0 → v.used (ino.iSectors k) = true
  table : ino.iSectors 12 = 0
  first : ino.iSectors 0 ≠ 0
  live_dot : (getEntry (v.data (ino.iSectors 0)) 0).Live
  entry_dot : (getEntry (v.data (ino.iSectors 0)) 0).name = dot
  live_dotDot : (getEntry (v.data (ino.iSectors 0)) 1).Live
  entry_dotDot : (getEntry (v.data (ino.iSectors 0)) 1).name = dotDot
  /-- Every other block holds an entry. -/
  occupied : ∀ k < 12, k ≠ 0 → ino.iSectors k ≠ 0 → liveAt v.data (ino.iSectors k) ≠ []
  names : ∀ e ∈ liveEntries v.data ino, IsName e.name
  nodup : ((liveEntries v.data ino).map DirEntry.name).Nodup
  zeroed : FreeEntries (· = .ofBytes zero) v.data ino
  size : ino.iSize = 24 * (liveEntries v.data ino).length

section

variable {p : Partition} {v v' : Volume} {d : Disk} {ino ino' : Inode} {e : DirEntry}

/-! ## Blocks -/

theorem lt_of_no_table (ht : ino.iSectors 12 = 0) {k : ℕ} (h : allBlocks d ino k ≠ 0) : k < 12 := by
  by_contra hk
  exact h (allBlocks_of_no_table ht (not_lt.1 hk))

/-- Distinct names in occupied blocks make the blocks distinct. -/
theorem Compact.blocks (hC : Compact v ino) : BlocksOk v ino := by
  have hocc : ∀ k < 12, ino.iSectors k ≠ 0 → ∃ x, x ∈ liveAt v.data (ino.iSectors k) := by
    intro k hk hne
    by_cases hk0 : k = 0
    · subst hk0
      exact ⟨_, mem_liveAt.2 ⟨hne, 0, by omega, rfl, hC.live_dot⟩⟩
    · exact List.exists_mem_of_ne_nil _ (hC.occupied k hk hk0 hne)
  refine ⟨fun k _ hne => ?_, fun h => absurd hC.table h, fun j hj k hk hne heq => ?_,
    fun k _ h => absurd hC.table h⟩
  · have hk := lt_of_no_table hC.table hne
    rw [allBlocks_of_lt hk] at hne ⊢
    exact hC.used k hk hne
  · have hj12 := lt_of_no_table hC.table hne
    obtain ⟨x, hx⟩ := hocc j hj12 (by rwa [allBlocks_of_lt hj12] at hne)
    rw [← allBlocks_of_lt (d := v.data) hj12] at hx
    exact eq_of_mem_flatMap_range (List.Nodup.of_map _ hC.nodup) hj hk hx (heq ▸ hx)

theorem Compact.shape (hC : Compact v ino) : DirShape v ino := by
  refine dirShape_of_nodup hC.blocks hC.nodup hC.size hC.first (fun j hj => ?_) hC.entry_dot
    hC.entry_dotDot
  obtain rfl | rfl : j = 0 ∨ j = 1 := by omega
  · exact hC.live_dot
  · exact hC.live_dotDot

/-- The table of inodes is not part of a directory. -/
theorem Compact.setInode (hC : Compact v ino) (n : ℕ) (x : Inode) :
    Compact (v.setInode n x) ino :=
  ⟨hC.used, hC.table, hC.first, hC.live_dot, hC.entry_dot, hC.live_dotDot, hC.entry_dotDot,
    hC.occupied, hC.names, hC.nodup, hC.zeroed, hC.size⟩

/-! ## Searching -/

/-- `strcmp` against a name that ends inside its field, for a string of any length. -/
theorem strEq_window_iff {sec : Buf} {j : ℕ} {name : List UInt8}
    (hshort : (getEntry sec j).name.length ≤ 15) (hnul : 0 ∉ name) :
    strEq (window sec (24 * j)) name = true ↔ (getEntry sec j).name = name := by
  by_cases hlen : name.length ≤ 15
  · rw [strEq_window_getEntry hlen, strEq_bytes_iff hlen hnul]
  · refine iff_of_false (fun h => ?_) (fun h => hlen (h ▸ hshort))
    -- then the first 16 bytes are those of the string, and none is NUL
    have hall : ∀ x ∈ List.ofFn (getEntry sec j).filename, decide (x ≠ 0) = true := by
      intro x hx
      obtain ⟨i, rfl⟩ := List.mem_ofFn.1 hx
      have hi := (strEq_iff.1 h).1 i (by omega)
      refine decide_eq_true fun h0 => hnul ?_
      rw [show (0 : UInt8) = name[i.val] from h0.symm.trans hi]
      exact List.getElem_mem _
    rw [DirEntry.name, List.takeWhile_eq_self_iff.2 hall, List.length_ofFn] at hshort
    omega

theorem searchDirEntry_vol (hB : BlocksOk p.vol ino) (c : List UInt8) :
    searchDirEntry p.disk ino c = searchDirEntry p.vol.data ino c := by
  unfold searchDirEntry
  refine findSome?_congr fun k hk => ?_
  simp only [hB.allBlocks_vol, ideRead_apply]
  split
  · rfl
  · rename_i hne
    rw [Partition.vol_data (Partition.dataStart_le_of_used
      (hB.used k (List.mem_range.1 hk) hne))]

/-- **Searching** a compact directory is looking up the map. -/
theorem Compact.search (hC : Compact v ino) {c : List UInt8} (hc : c ≠ []) (hnul : 0 ∉ c) :
    searchDirEntry v.data ino c = dirMap v.data ino c := by
  have hshort : ∀ k < 140, allBlocks v.data ino k ≠ 0 → ∀ j < 21,
      (getEntry (v.data (allBlocks v.data ino k)) j).name.length ≤ 15 := by
    intro k hk hne j hj
    by_cases hl : (getEntry (v.data (allBlocks v.data ino k)) j).Live
    · exact (hC.names _ (mem_liveEntries.2 ⟨k, hk, hne, j, hj, rfl, hl⟩)).length_le
    · rw [hC.zeroed k hk hne j hj hl, blank_ofBytes_zero.1]
      exact Nat.zero_le _
  have hfound : ∀ x, searchDirEntry v.data ino c = some x →
      x ∈ liveEntries v.data ino ∧ x.name = c := by
    intro x h
    obtain ⟨k, hk, h⟩ := List.exists_of_findSome?_eq_some h
    have hk := List.mem_range.1 hk
    dsimp only at h
    split at h
    · cases h
    · rename_i hne
      obtain ⟨j, hj, rfl⟩ := Option.map_eq_some_iff.1 h
      have hj21 := List.mem_range.1 (List.mem_of_find?_eq_some hj)
      have hname := (strEq_window_iff (hshort k hk hne j hj21) hnul).1 (by
        simpa only [ideRead_apply] using List.find?_some hj)
      refine ⟨mem_liveEntries.2 ⟨k, hk, hne, j, hj21, rfl, ?_⟩, hname⟩
      by_contra hl
      rw [hC.zeroed k hk hne j hj21 hl, blank_ofBytes_zero.1] at hname
      exact hc hname.symm
  refine Option.ext fun x => ?_
  rw [dirMap, find?_key_eq_some_iff hC.nodup]
  refine ⟨hfound x, fun ⟨hx, hname⟩ => ?_⟩
  have hc' : IsName c := hname ▸ hC.names x hx
  obtain ⟨y, hy⟩ := Option.isSome_iff_exists.1 (searchDirEntry_isSome hc'.length_le hx
    ((strEq_bytes_iff hc'.length_le hnul).2 hname))
  obtain ⟨hylive, hyname⟩ := hfound y hy
  rw [hy, List.inj_on_of_nodup_map hC.nodup hylive hx (hyname.trans hname.symm)]

/-! ## Adding an entry -/

theorem liveAt_setEntry_ne_nil {lba j : ℕ} (h0 : lba ≠ 0) (hl : e.Live) (hf : e.Fits) (hj : j < 21)
    {sec : Buf} (hsec : d lba = setEntry sec j e) : liveAt d lba ≠ [] := by
  rw [liveAt_of_ne h0, hsec]
  exact List.ne_nil_of_mem (mem_liveIn.2 ⟨j, hj, getEntry_setEntry_self hf, hl⟩)

/-- The entry goes to a block that is occupied or empty before, and occupied afterwards. -/
theorem DirInsert.occupied (h : DirInsert v ino e v' ino') (ha : v.Addressable)
    (hB : BlocksOk v ino) (hl : e.Live) (hf : e.Fits) (hroom : DirectRoom v.data ino)
    (hocc : ∀ k < 12, k ≠ 0 → ino.iSectors k ≠ 0 → liveAt v.data (ino.iSectors k) ≠ []) :
    ∀ k < 12, k ≠ 0 → ino'.iSectors k ≠ 0 → liveAt v'.data (ino'.iSectors k) ≠ [] := by
  intro i hi hi0 hne
  cases h with
  | slot k j hk hj hnek hfree =>
    change ino.iSectors i ≠ 0 at hne
    change liveAt _ (ino.iSectors i) ≠ []
    by_cases hik : i = k
    · subst hik
      exact liveAt_setEntry_ne_nil hne hl hf hj (storeSlot_data_self ..)
    · have hne' : allBlocks v.data ino i ≠ ino.iSectors k := fun heq =>
        hik (hB.inj i (by omega) k (by omega) (by rwa [allBlocks_of_lt hi])
          (heq.trans (allBlocks_of_lt hk).symm))
      rw [allBlocks_of_lt hi] at hne'
      rw [liveAt_congr fun _ => storeSlot_data_of_ne hne']
      exact hocc i hi hi0 hne
  | block k lba hk hz hfree =>
    change (ino.setSector k lba).iSectors i ≠ 0 at hne
    change liveAt _ ((ino.setSector k lba).iSectors i) ≠ []
    rw [setSector_iSectors] at hne ⊢
    by_cases hik : i = k
    · rw [if_pos hik]
      exact liveAt_setEntry_ne_nil (hfree.ne_zero ha) hl hf (by omega) (storeBlock_data_self _)
    · rw [if_neg hik] at hne ⊢
      rw [liveAt_congr fun _ => storeBlock_data_of_ne (hfree.ne_of_used (iSectors_used hB hi hne))]
      exact hocc i hi hi0 hne
  | table t lba hnet hfull ht hfree => exact absurd hroom (not_directRoom hnet hfull)

theorem DirInsert.compact (h : DirInsert v ino e v' ino') (ha : v.Addressable)
    (hC : Compact v ino) (hroom : DirectRoom v.data ino) (hl : e.Live) (hf : e.Fits)
    (hname : IsName e.name) (hnew : dirMap v.data ino e.name = none) :
    Compact v' ino' ∧ dirMap v'.data ino' = update (dirMap v.data ino) e.name (some e) := by
  have hB := hC.blocks
  have hB' := h.blocksOk ha hB
  have hperm := h.perm ha hB hl hf (.inl hroom)
  obtain ⟨hs0, hdot⟩ := h.getEntry_first hB hC.first hroom hC.live_dot
  obtain ⟨-, hdotDot⟩ := h.getEntry_first hB hC.first hroom hC.live_dotDot
  have hnd : ((liveEntries v'.data ino').map DirEntry.name).Nodup := by
    rw [(hperm.map _).nodup_iff, List.map_cons, List.nodup_cons]
    refine ⟨fun hmem => ?_, hC.nodup⟩
    obtain ⟨x, hx, hxe⟩ := List.mem_map.1 hmem
    rw [dirMap, (find?_key_eq_some_iff hC.nodup).2 ⟨hx, hxe⟩] at hnew
    cases hnew
  refine ⟨⟨fun k hk hne => iSectors_used hB' hk hne, h.no_table hC.table hroom,
    by rw [hs0]; exact hC.first, ?_, ?_, ?_, ?_, h.occupied ha hB hl hf hroom hC.occupied,
    fun x hx => ?_, hnd, h.freeEntries hB rfl hC.zeroed hl hf hroom, ?_⟩, ?_⟩
  · rw [hs0, hdot]
    exact hC.live_dot
  · rw [hs0, hdot]
    exact hC.entry_dot
  · rw [hs0, hdotDot]
    exact hC.live_dotDot
  · rw [hs0, hdotDot]
    exact hC.entry_dotDot
  · rcases List.mem_cons.1 (hperm.mem_iff.1 hx) with rfl | hx
    · exact hname
    · exact hC.names x hx
  · have hlen := length_liveEntries_le v.data ino
    rw [h.iSize, hC.size, hperm.length_eq, List.length_cons]
    omega
  · funext c
    rw [dirMap, find?_key_perm hperm hnd]
    exact congrFun (find?_key_cons e) c

/-- **Adding an entry** extends the map. -/
theorem Compact.exists_sync (hL : p.Layout) (hC : Compact p.vol ino) (hl : e.Live) (hf : e.Fits)
    (hname : IsName e.name) (hnew : dirMap p.vol.data ino e.name = none)
    (hlen : (liveEntries p.vol.data ino).length < 252) (hfree : 0 < p.vol.freeBlocks.card) :
    ∃ p' ino', syncDirEntry p ino e = .ok (true, p', ino') ∧ Compact p'.vol ino' ∧
      dirMap p'.vol.data ino' = update (dirMap p.vol.data ino) e.name (some e) := by
  have hroom := directRoom_of_length_lt hlen
  obtain ⟨i, hi, hclear⟩ := exists_clear hfree
  obtain ⟨p', ino', hrun⟩ := exists_syncDirEntry_of_room ino e hL (by rw [hC.size]; omega) hi hclear
    (by
      obtain ⟨k, hk, hz | ⟨j, hj, hl'⟩⟩ := hroom
      · exact ⟨k, hk, .inl hz⟩
      · by_cases hne : ino.iSectors k = 0
        · exact ⟨k, hk, .inl hne⟩
        · exact ⟨k, hk, .inr ⟨j, hj, by rwa [disk_eq_data hC.blocks hk hne]⟩⟩)
  have hins := syncDirEntry_eq_true hL hC.blocks hrun
  exact ⟨p', ino', hrun, hins.compact hL.addressable hC hroom hl hf hname hnew⟩

/-! ## Removing an entry -/

theorem DirRemove.compact (h : DirRemove v ino e v' ino') (hC : Compact v ino)
    (hdot : e.name ≠ dot) (hdotDot : e.name ≠ dotDot)
    (hkept : ∀ i < 12, ino'.iSectors i ≠ 0 → liveAt v'.data (ino'.iSectors i) = [] →
      liveAt v.data (ino.iSectors i) = []) :
    Compact v' ino' ∧ dirMap v'.data ino' = update (dirMap v.data ino) e.name none := by
  have hB := hC.blocks
  have hB' := h.blocksOk hB
  have hperm := h.perm hB
  have hs0 := h.iSectors_zero hC.shape hdot
  have hfirst := h.getEntry_first (j := 0) hC.shape (by rw [hC.entry_dot]; exact hdot.symm)
  have hsecond := h.getEntry_first (j := 1) hC.shape (by rw [hC.entry_dotDot]; exact hdotDot.symm)
  have hnd := (hperm.map DirEntry.name).nodup_iff.1 hC.nodup
  rw [List.map_cons, List.nodup_cons] at hnd
  refine ⟨⟨fun k hk hne => iSectors_used hB' hk hne, h.no_table hC.table,
    by rw [hs0]; exact hC.first, ?_, ?_, ?_, ?_, fun k hk hk0 hne hempty => ?_,
    fun x hx => hC.names x (hperm.mem_iff.2 (List.mem_cons_of_mem _ hx)), hnd.2,
    h.freeEntries hB rfl hC.zeroed, h.iSize hC.shape⟩, ?_⟩
  · rw [hs0, hfirst]
    exact hC.live_dot
  · rw [hs0, hfirst]
    exact hC.entry_dot
  · rw [hs0, hsecond]
    exact hC.live_dotDot
  · rw [hs0, hsecond]
    exact hC.entry_dotDot
  · have hold := h.iSectors_eq hne
    exact hC.occupied k hk hk0 (by rwa [← hold]) (hkept k hk hne hempty)
  · -- the map with the entry, less the entry
    have hnone : dirMap v'.data ino' e.name = none := by
      refine List.find?_eq_none.2 fun x hx hxe => hnd.1 (List.mem_map.2 ⟨x, hx, ?_⟩)
      exact of_decide_eq_true hxe
    have hcons : dirMap v.data ino = update (dirMap v'.data ino') e.name (some e) := by
      funext c
      rw [dirMap, find?_key_perm hperm hC.nodup]
      exact congrFun (find?_key_cons e) c
    rw [hcons, update_idem, ← hnone, update_eq_self]

/-- **Removing an entry** takes it out of the map. -/
theorem Compact.exists_delete (hL : p.Layout) (hf : ino.Fits) (hC : Compact p.vol ino)
    (he : e ∈ liveEntries p.vol.data ino) (hdot : e.name ≠ dot) (hdotDot : e.name ≠ dotDot)
    (huniq : ∀ x ∈ liveEntries p.vol.data ino, x.iNo = e.iNo → x.name ≠ dot → x.name ≠ dotDot →
      x = e) :
    ∃ p' ino', deleteDirEntry p ino e.iNo = .ok (true, p', ino') ∧ Compact p'.vol ino' ∧
      dirMap p'.vol.data ino' = update (dirMap p.vol.data ino) e.name none := by
  obtain ⟨k, hk, hne, j, hj, hej, hl⟩ := mem_liveEntries.1 he
  have hk12 := lt_of_no_table hC.table hne
  have hlba : allBlocks p.vol.data ino k = ino.iSectors k := allBlocks_of_lt hk12
  obtain ⟨v', ino', p', hdel, hrem, hv, hkept⟩ := hC.shape.exists_delete (j := j) (m := e.iNo) hL hf
    hk12 (hlba ▸ hne) hj fun i hi hi0 j' hj' => by
      rw [isNamed_iff]
      constructor
      · rintro ⟨⟨hl', hn1, hn2⟩, hno⟩
        have hx := huniq _ (mem_liveEntries.2 ⟨i, hi, hi0, j', hj', rfl, hl'⟩) hno hn1 hn2
        exact pos_unique_of_nodup hC.nodup hC.blocks hk hne hj (hej ▸ hl) hi hi0 hj' hl'
          (by rw [hx, hej])
      · rintro ⟨rfl, rfl⟩
        rw [hej]
        exact ⟨⟨hl, hdot, hdotDot⟩, rfl⟩
  rw [← hlba, hej] at hrem
  obtain ⟨hC', hmap⟩ := hrem.compact hC hdot hdotDot hkept
  exact ⟨p', ino', hdel, by rw [hv]; exact hC'.setInode _ _, by rw [hv]; exact hmap⟩

/-! ## Empty directories -/

/-- A directory with nothing but `"."` and `".."` has one block. -/
theorem Compact.iSectors_of_empty (hC : Compact v ino) (h : dirIsEmpty ino = true) :
    ((List.range 12).all fun k => ino.iSectors (k + 1) = 0) = true := by
  have hlen : (liveEntries v.data ino).length = 2 := by
    have h48 : ino.iSize = 48 := of_decide_eq_true h
    have := hC.size
    omega
  rw [List.all_eq_true]
  intro k hk
  have hk := List.mem_range.1 hk
  by_contra hne
  have hne : ino.iSectors (k + 1) ≠ 0 := by simpa using hne
  have hk11 : k + 1 < 12 := by
    by_contra hge
    exact hne (by rw [show k + 1 = 12 by omega]; exact hC.table)
  have h0 : allBlocks v.data ino 0 = ino.iSectors 0 := allBlocks_of_lt (by omega)
  have hlba : allBlocks v.data ino (k + 1) = ino.iSectors (k + 1) := allBlocks_of_lt hk11
  -- three entries: the first two, and one in the other block
  obtain ⟨x, hx⟩ := List.exists_mem_of_ne_nil _ (hC.occupied (k + 1) hk11 (by omega) hne)
  obtain ⟨-, j, hj, hxj, hl⟩ := mem_liveAt.1 hx
  have hmem : x ∈ liveEntries v.data ino :=
    mem_liveEntries.2 ⟨k + 1, by omega, by rwa [hlba], j, hj, by rwa [hlba], hl⟩
  have honly := hC.shape.only (k + 1) (by omega) (by rwa [hlba]) j hj (by rwa [hlba, hxj])
  rw [hlba, hxj] at honly
  have hn1 : x.name ≠ dot := fun h => absurd (honly (.inl h)) (by omega)
  have hn2 : x.name ≠ dotDot := fun h => absurd (honly (.inr h)) (by omega)
  have hdot : dot ∈ (liveEntries v.data ino).map DirEntry.name := List.mem_map.2
    ⟨_, mem_liveEntries.2 ⟨0, by omega, by rw [h0]; exact hC.first, 0, by omega, by rw [h0],
      hC.live_dot⟩, hC.entry_dot⟩
  have hdotDot : dotDot ∈ (liveEntries v.data ino).map DirEntry.name := List.mem_map.2
    ⟨_, mem_liveEntries.2 ⟨0, by omega, by rw [h0]; exact hC.first, 1, by omega, by rw [h0],
      hC.live_dotDot⟩, hC.entry_dotDot⟩
  have hsub : [dot, dotDot, x.name] ⊆ (liveEntries v.data ino).map DirEntry.name := by
    intro c hc
    simp only [List.mem_cons, List.not_mem_nil, or_false] at hc
    rcases hc with rfl | rfl | rfl
    · exact hdot
    · exact hdotDot
    · exact List.mem_map_of_mem hmem
  have hnd : [dot, dotDot, x.name].Nodup := by
    simp [Ne.symm hn1, Ne.symm hn2, show dot ≠ dotDot by decide]
  have hle := (List.subperm_of_subset hnd hsub).length_le
  rw [List.length_map, hlen] at hle
  simp at hle

/-- **Small directories are finite maps.** In a compact directory a search looks the map up, for a
string of any length; adding an entry with a new name extends the map, and removing the entry of a
number that occurs once takes it out, and both leave a compact directory; and a directory that
`dir_is_empty` takes for empty passes the assertion of `dir_remove`. -/
theorem compact_finiteMap (hL : p.Layout) (hf : ino.Fits) (hC : Compact p.vol ino) :
    (∀ c, c ≠ [] → 0 ∉ c → searchDirEntry p.disk ino c = dirMap p.vol.data ino c) ∧
    (∀ e : DirEntry, e.Live → e.Fits → IsName e.name → dirMap p.vol.data ino e.name = none →
      (liveEntries p.vol.data ino).length < 252 → 0 < p.vol.freeBlocks.card →
      ∃ p' ino', syncDirEntry p ino e = .ok (true, p', ino') ∧ Compact p'.vol ino' ∧
        dirMap p'.vol.data ino' = Function.update (dirMap p.vol.data ino) e.name (some e)) ∧
    (∀ e ∈ liveEntries p.vol.data ino, e.name ≠ dot → e.name ≠ dotDot →
      (∀ x ∈ liveEntries p.vol.data ino, x.iNo = e.iNo → x.name ≠ dot → x.name ≠ dotDot → x = e) →
      ∃ p' ino', deleteDirEntry p ino e.iNo = .ok (true, p', ino') ∧ Compact p'.vol ino' ∧
        dirMap p'.vol.data ino' = Function.update (dirMap p.vol.data ino) e.name none) ∧
    (dirIsEmpty ino = true → ((List.range 12).all fun k => ino.iSectors (k + 1) = 0) = true) :=
  ⟨fun c hc hnul => (searchDirEntry_vol hC.blocks c).trans (hC.search hc hnul),
    fun _ hl he hname hnew hlen hfree => hC.exists_sync hL hl he hname hnew hlen hfree,
    fun _ he hdot hdotDot huniq => hC.exists_delete hL hf he hdot hdotDot huniq,
    hC.iSectors_of_empty⟩

/-- A new directory is compact. -/
theorem compact_newDir {n parentNo lba : ℕ} (hn : n < 4096) (hp : parentNo < 4096) (h0 : lba ≠ 0)
    (hused : v.used lba = true) (hdata : v.data lba = newDirSector n parentNo) :
    Compact v (newDirInode n lba) := by
  have hlive : (liveEntries v.data (newDirInode n lba)).Perm
      [.ofName dotDot parentNo .directory, .ofName dot n .directory] := by
    rw [liveEntries_newDirInode _ _ h0, hdata]
    exact liveIn_newDirSector hn hp
  have hsector : ∀ k, (newDirInode n lba).iSectors k = if k = 0 then lba else 0 :=
    newDirInode_iSectors n lba
  have hentry : ∀ j, getEntry (v.data ((newDirInode n lba).iSectors 0)) j =
      if j = 0 then .ofName dot n .directory
      else if j = 1 then .ofName dotDot parentNo .directory else .ofBytes zero := fun j => by
    rw [hsector, if_pos rfl, hdata, getEntry_newDirSector hn hp]
  have hname : (DirEntry.ofName dot n .directory).name = dot := name_ofName isName_dot _ _
  have hname' : (DirEntry.ofName dotDot parentNo .directory).name = dotDot :=
    name_ofName isName_dotDot _ _
  refine ⟨fun k _ hk => ?_, hsector 12, by rwa [hsector, if_pos rfl], ?_, ?_, ?_, ?_,
    fun k _ hk0 hk => ?_, fun x hx => ?_, ?_, fun k _ hk j _ hl => ?_, ?_⟩
  · rw [hsector] at hk ⊢
    split at hk
    · rename_i hk0
      rwa [if_pos hk0]
    · exact absurd rfl hk
  · rw [hentry, if_pos rfl]
    exact ofName_live (by decide)
  · rw [hentry, if_pos rfl, hname]
  · rw [hentry, if_neg (by decide), if_pos rfl]
    exact ofName_live (by decide)
  · rw [hentry, if_neg (by decide), if_pos rfl, hname']
  · rw [hsector, if_neg hk0] at hk
    exact absurd rfl hk
  · rcases List.mem_cons.1 (hlive.mem_iff.1 hx) with rfl | hx
    · rw [hname']
      exact isName_dotDot
    · rw [List.mem_singleton.1 hx, hname]
      exact isName_dot
  · rw [(hlive.map DirEntry.name).nodup_iff, List.map_cons, List.map_singleton, hname, hname']
    decide
  · rw [allBlocks_newDirInode] at hk hl ⊢
    split at hk
    · rename_i hk0
      rw [if_pos hk0] at hl ⊢
      have hj := hentry j
      rw [hsector, if_pos rfl] at hj
      rw [hj] at hl ⊢
      split at hl
      · exact absurd (ofName_live (by decide)) hl
      · rename_i hj0
        rw [if_neg hj0]
        split at hl
        · exact absurd (ofName_live (by decide)) hl
        · rename_i hj1
          exact if_neg hj1
    · exact absurd rfl hk
  · rw [hlive.length_eq]
    rfl

/-- `blankPartition` with the root directory in its first block. -/
def rootPartition : Partition :=
  { blankPartition with disk := fun l => if l = 612 then newDirSector 0 0 else zero }

theorem rootPartition_compact : Compact rootPartition.vol (newDirInode 0 612) :=
  compact_newDir (by decide) (by decide) (by decide) rfl rfl

/-- In the root directory of a new partition, `".."` is there and `"a"` is not, and `"a"` can be
added. -/
theorem compact_finiteMap_root :
    (searchDirEntry rootPartition.disk (newDirInode 0 612) dotDot).isSome = true ∧
    searchDirEntry rootPartition.disk (newDirInode 0 612) [97] = none ∧
    ∃ p' ino', syncDirEntry rootPartition (newDirInode 0 612) (.ofName [97] 1 .regular) =
      .ok (true, p', ino') ∧ Compact p'.vol ino' := by
  have hL : rootPartition.Layout := by constructor <;> decide
  obtain ⟨hsearch, hsync, -, -⟩ := compact_finiteMap hL (newDirInode_fits (by decide) (by decide))
    rootPartition_compact
  have hnone : searchDirEntry rootPartition.disk (newDirInode 0 612) [97] = none := by
    decide +kernel
  have hname : (DirEntry.ofName [97] 1 .regular).name = [97] := by decide
  obtain ⟨p', ino', hrun, hC, -⟩ := hsync (.ofName [97] 1 .regular) (ofName_live (by decide))
    (ofName_fits (by decide)) (by rw [hname]; exact ⟨by decide, by decide, by decide⟩)
    (by rw [hname, ← hsearch _ (by decide) (by decide), hnone])
    (by have := rootPartition_compact.size; change 48 = _ at this; omega)
    (Finset.card_pos.2 ⟨1, Finset.mem_filter.2 ⟨Finset.mem_range.2 (by decide), rfl⟩⟩)
  exact ⟨by decide +kernel, hnone, p', ino', hrun, hC⟩

end

end Gardos.Fs
