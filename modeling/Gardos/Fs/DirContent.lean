import Gardos.Foundations.Tree
import Gardos.Fs.DirEntries

/-!
# The names in a directory

A directory maps names to inode numbers and types. `HoldsEntries` says that the live entries of a
directory are those of such a map, and that entries which are not in use carry no name, so that
`search_dir_entry`, which compares names only, never finds one of them.
-/

namespace Gardos.Fs

open Bytes Outcome Function

/-! ## Names -/

/-- A name as the lookup routines take it: 1 to 15 bytes, none of them NUL. -/
structure IsName (c : List UInt8) : Prop where
  ne_nil : c ≠ []
  length_le : c.length ≤ 15
  nul : 0 ∉ c

variable {name c : List UInt8} {e : DirEntry} {n : ℕ} {t : FileTypes} {d : Disk} {ino : Inode}

theorem strEq_window_getEntry {sec : Buf} {j : ℕ} (h : name.length ≤ 15) :
    strEq (window sec (24 * j)) name = strEq (getEntry sec j).bytes name := by
  refine strEq_congr fun i hi => ?_
  simp only [getEntry, DirEntry.bytes, DirEntry.ofBytes, dif_pos (show i < 16 by omega)]

/-- What `strcmp` compares is the name of an entry. -/
theorem strEq_bytes_iff (hlen : c.length ≤ 15) (hnul : 0 ∉ c) :
    strEq e.bytes c = true ↔ e.name = c := by
  refine strEq_iff_takeWhile (by simp only [List.length_ofFn]; omega) (fun i hi => ?_) hnul
  have hi : i < 16 := by omega
  rw [DirEntry.bytes, dif_pos hi, List.getD_eq_getElem?_getD, List.getElem?_ofFn, dif_pos hi]
  rfl

theorem strEq_ofName (h : name.length ≤ 15) (n : ℕ) (t : FileTypes) :
    strEq (DirEntry.ofName name n t).bytes name = true := by
  refine strEq_iff.2 ⟨fun i hi => ?_, ?_⟩
  · simp [DirEntry.bytes, DirEntry.ofName, show i < 16 by omega, hi]
  · simp [DirEntry.bytes, DirEntry.ofName, show name.length < 16 by omega]

theorem name_ofName (hc : IsName c) (n : ℕ) (t : FileTypes) : (DirEntry.ofName c n t).name = c :=
  (strEq_bytes_iff hc.length_le hc.nul).1 (strEq_ofName hc.length_le n t)

theorem ofName_live (ht : t ≠ .unknown) : (DirEntry.ofName name n t).Live := by
  cases t <;> first | exact absurd rfl ht | exact fun h => nomatch h

theorem ofName_fits (hn : n < 4096) : (DirEntry.ofName name n t).Fits := by
  refine ⟨?_, ?_⟩
  · simp only [DirEntry.ofName]
    omega
  · cases t <;> simp [DirEntry.ofName, FileTypes.code]

theorem isName_dot : IsName dot := ⟨by decide, by decide, by decide⟩

theorem isName_dotDot : IsName dotDot := ⟨by decide, by decide, by decide⟩

/-! ## Looking up a name -/

/-- A name that some live entry carries is found. -/
theorem searchDirEntry_isSome (hlen : name.length ≤ 15) (he : e ∈ liveEntries d ino)
    (hname : strEq e.bytes name = true) :
    (searchDirEntry d ino name).isSome = true := by
  obtain ⟨k, hk, hne, j, hj, rfl, -⟩ := mem_liveEntries.1 he
  rw [searchDirEntry, List.findSome?_isSome_iff]
  refine ⟨k, List.mem_range.2 hk, ?_⟩
  simp only [hne, if_false, searchSector, ideRead_apply, Option.isSome_map]
  rw [List.find?_isSome]
  exact ⟨j, List.mem_range.2 hj, by rwa [strEq_window_getEntry hlen]⟩

/-- What is found is an entry with the name, in use or not. -/
theorem searchDirEntry_eq_some (hc : IsName c) (h : searchDirEntry d ino c = some e) :
    e.name = c ∧ ∃ k < 140, allBlocks d ino k ≠ 0 ∧
      ∃ j < 21, e = getEntry (d (allBlocks d ino k)) j := by
  obtain ⟨k, hk, h⟩ := List.exists_of_findSome?_eq_some h
  dsimp only at h
  split at h
  · cases h
  · rename_i hne
    obtain ⟨j, hj, rfl⟩ := Option.map_eq_some_iff.1 h
    have hname := List.find?_some hj
    rw [strEq_window_getEntry hc.length_le, strEq_bytes_iff hc.length_le hc.nul] at hname
    exact ⟨hname, k, List.mem_range.1 hk, hne, j, List.mem_range.1 (List.mem_of_find?_eq_some hj),
      rfl⟩

/-- The type of an object, as entries record it. -/
def Kind.type : Kind → FileTypes
  | .file => .regular
  | .dir => .directory

/-- An entry without a name and a number. -/
def DirEntry.Blank (e : DirEntry) : Prop := e.name = [] ∧ e.iNo = 0

/-- The entries of a directory that are not in use have the property `P`. -/
def FreeEntries (P : DirEntry → Prop) (d : Disk) (ino : Inode) : Prop :=
  ∀ k < 140, allBlocks d ino k ≠ 0 → ∀ j < 21, ¬ (getEntry (d (allBlocks d ino k)) j).Live →
    P (getEntry (d (allBlocks d ino k)) j)

/-- The directory `ino` maps names to inode numbers and types as `f` does. -/
structure HoldsEntries (d : Disk) (ino : Inode) (f : List UInt8 → Option (ℕ × Kind)) : Prop where
  nodup : ((liveEntries d ino).map DirEntry.name).Nodup
  mem : ∀ e ∈ liveEntries d ino, ∃ k, f e.name = some (e.iNo, k) ∧ e.fType = (Kind.type k).code
  find : ∀ c, f c ≠ none → ∃ e ∈ liveEntries d ino, e.name = c
  cleared : FreeEntries DirEntry.Blank d ino

theorem HoldsEntries.congr {d' : Disk} {ino' : Inode} {f : List UInt8 → Option (ℕ × Kind)}
    (h : HoldsEntries d ino f) (hall : ∀ k < 140, allBlocks d' ino' k = allBlocks d ino k)
    (hdata : ∀ k < 140, allBlocks d ino k ≠ 0 → d' (allBlocks d ino k) = d (allBlocks d ino k)) :
    HoldsEntries d' ino' f := by
  have hlive : liveEntries d' ino' = liveEntries d ino := flatMap_range_congr fun k hk => by
    rw [hall k hk]
    exact liveAt_congr (hdata k hk)
  refine ⟨by rw [hlive]; exact h.nodup, by rw [hlive]; exact h.mem, by rw [hlive]; exact h.find,
    fun k hk hne j hj hl => ?_⟩
  rw [hall k hk] at hne hl ⊢
  rw [hdata k hk hne] at hl ⊢
  exact h.cleared k hk hne j hj hl

section Update

variable {d d' : Disk} {ino ino' : Inode} {f : List UInt8 → Option (ℕ × Kind)} {e : DirEntry}

/-- A directory with one entry less. -/
theorem HoldsEntries.erase (h : HoldsEntries d ino f)
    (hperm : (liveEntries d ino).Perm (e :: liveEntries d' ino'))
    (hcl : FreeEntries DirEntry.Blank d' ino') : HoldsEntries d' ino' (update f e.name none) := by
  have hnd := (hperm.map DirEntry.name).nodup_iff.1 h.nodup
  rw [List.map_cons, List.nodup_cons] at hnd
  refine ⟨hnd.2, fun x hx => ?_, fun c hc => ?_, hcl⟩
  · have hne : x.name ≠ e.name := fun heq => hnd.1 (heq ▸ List.mem_map_of_mem hx)
    rw [update_of_ne hne]
    exact h.mem x (hperm.mem_iff.2 (List.mem_cons_of_mem _ hx))
  · have hne : c ≠ e.name := fun heq => hc (by rw [heq, update_self])
    rw [update_of_ne hne] at hc
    obtain ⟨x, hx, hname⟩ := h.find c hc
    refine ⟨x, ?_, hname⟩
    rcases List.mem_cons.1 (hperm.mem_iff.1 hx) with rfl | hx
    · exact absurd hname.symm hne
    · exact hx

/-- A directory that lists less has fewer entries. -/
theorem HoldsEntries.length_lt (h : HoldsEntries d ino f) {g : List UInt8 → Option (ℕ × Kind)}
    (h' : HoldsEntries d' ino' g) (hsub : ∀ c, g c ≠ none → f c ≠ none) {c : List UInt8}
    (hf : f c ≠ none) (hg : g c = none) :
    (liveEntries d' ino').length < (liveEntries d ino).length := by
  have hmem : ∀ x ∈ (liveEntries d' ino').map DirEntry.name,
      x ∈ ((liveEntries d ino).map DirEntry.name).erase c := by
    intro x hx
    obtain ⟨e, he, rfl⟩ := List.mem_map.1 hx
    obtain ⟨k, hk, -⟩ := h'.mem e he
    have hne : e.name ≠ c := fun heq => by rw [heq, hg] at hk; cases hk
    obtain ⟨e', he', hname⟩ := h.find e.name (hsub _ (by rw [hk]; exact Option.some_ne_none _))
    exact (List.mem_erase_of_ne hne).2 (List.mem_map.2 ⟨e', he', hname⟩)
  obtain ⟨e, he, hname⟩ := h.find c hf
  have hc : c ∈ (liveEntries d ino).map DirEntry.name := List.mem_map.2 ⟨e, he, hname⟩
  have hle := (List.subperm_of_subset h'.nodup hmem).length_le
  have hpos := List.length_pos_of_mem hc
  rw [List.length_erase_of_mem hc] at hle
  simp only [List.length_map] at hle hpos
  omega

/-- A directory with one entry more. -/
theorem HoldsEntries.insert (h : HoldsEntries d ino f) {k : Kind}
    (hperm : (liveEntries d' ino').Perm (e :: liveEntries d ino))
    (hcl : FreeEntries DirEntry.Blank d' ino')
    (hf : f e.name = none) (hk : e.fType = (Kind.type k).code) :
    HoldsEntries d' ino' (update f e.name (some (e.iNo, k))) := by
  have hnew : ∀ x ∈ liveEntries d ino, x.name ≠ e.name := fun x hx heq => by
    obtain ⟨k', hk', -⟩ := h.mem x hx
    rw [heq, hf] at hk'
    cases hk'
  refine ⟨(hperm.map DirEntry.name).nodup_iff.2 ?_, fun x hx => ?_, fun c hc => ?_, hcl⟩
  · rw [List.map_cons, List.nodup_cons]
    refine ⟨fun hmem => ?_, h.nodup⟩
    obtain ⟨x, hx, heq⟩ := List.mem_map.1 hmem
    exact hnew x hx heq
  · rcases List.mem_cons.1 (hperm.mem_iff.1 hx) with rfl | hx
    · exact ⟨k, by rw [update_self], hk⟩
    · rw [update_of_ne (hnew x hx)]
      exact h.mem x hx
  · by_cases hce : c = e.name
    · exact ⟨e, hperm.mem_iff.2 (List.mem_cons_self ..), hce.symm⟩
    · rw [update_of_ne hce] at hc
      obtain ⟨x, hx, hname⟩ := h.find c hc
      exact ⟨x, hperm.mem_iff.2 (List.mem_cons_of_mem _ hx), hname⟩

end Update

section Search

variable {d : Disk} {ino : Inode} {f : List UInt8 → Option (ℕ × Kind)} {c : List UInt8}

theorem HoldsEntries.live_of_search (h : HoldsEntries d ino f) (hc : IsName c) {e : DirEntry}
    (he : searchDirEntry d ino c = some e) : e ∈ liveEntries d ino ∧ e.name = c := by
  obtain ⟨hname, k, hk, hne, j, hj, rfl⟩ := searchDirEntry_eq_some hc he
  refine ⟨mem_liveEntries.2 ⟨k, hk, hne, j, hj, rfl, ?_⟩, hname⟩
  by_contra hl
  rw [(h.cleared k hk hne j hj hl).1] at hname
  exact hc.ne_nil hname.symm

/-- `search_dir_entry` does not find a name that is not there. -/
theorem HoldsEntries.search_none (h : HoldsEntries d ino f) (hc : IsName c) (hf : f c = none) :
    searchDirEntry d ino c = none := by
  by_contra hne
  obtain ⟨e, he⟩ := Option.ne_none_iff_exists'.1 hne
  obtain ⟨hlive, hname⟩ := h.live_of_search hc he
  obtain ⟨k, hk, -⟩ := h.mem e hlive
  rw [hname, hf] at hk
  cases hk

/-- `search_dir_entry` finds the entry of a name. -/
theorem HoldsEntries.search_some (h : HoldsEntries d ino f) (hc : IsName c) {n : ℕ} {k : Kind}
    (hf : f c = some (n, k)) :
    ∃ e, searchDirEntry d ino c = some e ∧ e.iNo = n ∧ e.fType = (Kind.type k).code := by
  obtain ⟨e, he, hname⟩ := h.find c (by rw [hf]; exact Option.some_ne_none _)
  have hsome := searchDirEntry_isSome hc.length_le he
    ((strEq_bytes_iff hc.length_le hc.nul).2 hname)
  obtain ⟨e', he'⟩ := Option.isSome_iff_exists.1 hsome
  obtain ⟨hlive', hname'⟩ := h.live_of_search hc he'
  obtain ⟨k', hk', htype⟩ := h.mem e' hlive'
  rw [hname', hf] at hk'
  obtain ⟨rfl, rfl⟩ := Prod.mk.inj (Option.some.inj hk')
  exact ⟨e', he', rfl, htype⟩

end Search

end Gardos.Fs
