import Gardos.Foundations.Outcome
import Gardos.Fs.Safety

/-!
# The working directory (`fs/fs.c`, third part)

A process has its working directory as a bare inode number. `sys_getcwd` climbs from it to the root
by the entries `".."`, looks up in each parent the name that goes with the number of the child, and
collects the names in reverse.

`FsOk.sysGetcwd` says that this yields the canonical path of the directory.

The number is counted nowhere, so nothing keeps a process from removing the working directory of
another one (`cwd_invalid_of_rmdir`). `cwdValid_of_run` says that the numbers stay valid in every
run in which this does not happen.
-/

namespace Gardos.Fs

open Bytes Outcome Function

/-! ## `sys_getcwd` -/

/-- What stands before the last slash. -/
def beforeLastSlash (path : List UInt8) : List UInt8 :=
  (path.reverse.dropWhile (· ≠ slash)).tail.reverse

/-- `get_parent_dir_inode_nr`. -/
def getParentDirInodeNr (s : FileSys) (childInodeNr : ℕ) : Outcome (ℕ × FileSys) := do
  let (q, s) ← inodeOpen s childInodeNr
  let blockLba := (s.inodes q).iSectors 0
  assert (s.part.sb.dataStartLba ≤ blockLba)
  let s := inodeClose s q
  let dirE := getEntry (ideRead s.part.disk blockLba) 1
  assert (dirE.iNo < 4096 ∧ dirE.fType = FileTypes.directory.code)
  return (dirE.iNo, s)

/-- The first entry with number `cInodeNr` in a list of blocks, whatever its type. -/
def findEntryNo (d : Disk) (blocks : ℕ → ℕ) (blockCnt cInodeNr : ℕ) : Option DirEntry :=
  (List.range blockCnt).findSome? fun k =>
    if blocks k = 0 then none
    else ((List.range 21).map (getEntry (ideRead d (blocks k)))).find? (·.iNo = cInodeNr)

/-- `get_child_dir_name`: the path with the name appended, or `none` for `-1`. The buffer of the
path has 512 bytes. -/
def getChildDirName (s : FileSys) (pInodeNr cInodeNr : ℕ) (path : List UInt8) :
    Outcome (Option (List UInt8) × FileSys) := do
  let (q, s) ← inodeOpen s pInodeNr
  let blocks := allBlocks s.part.disk (s.inodes q)
  let blockCnt := if (s.inodes q).iSectors 12 ≠ 0 then 140 else 12
  let s := inodeClose s q
  match findEntryNo s.part.disk blocks blockCnt cInodeNr with
  | none => return (none, s)
  | some dirE =>
    access (dirE.name.length < 16 ∧ path.length + 1 + dirE.name.length < 512)
    return (some (path ++ slash :: dirE.name), s)

/-- The loop of `sys_getcwd` that climbs to the root. Each round lengthens the path. -/
def cwdLoop : (fuel : ℕ) → FileSys → (childInodeNr : ℕ) → (fullPathReverse : List UInt8) →
    Outcome (Option (List UInt8) × FileSys)
  | 0, _, _, _ => throw .hang
  | fuel + 1, s, childInodeNr, fullPathReverse => do
    if childInodeNr = 0 then
      return (some fullPathReverse, s)
    let (parentInodeNr, s) ← getParentDirInodeNr s childInodeNr
    match ← getChildDirName s parentInodeNr childInodeNr fullPathReverse with
    | (none, s) => return (none, s)
    | (some fullPathReverse, s) => cwdLoop fuel s parentInodeNr fullPathReverse

/-- The loop of `sys_getcwd` that puts the names into `buf` in the right order. -/
def reverseLoop : (fuel : ℕ) → (buf fullPathReverse : List UInt8) → List UInt8
  | 0, buf, _ => buf
  | fuel + 1, buf, fullPathReverse =>
    if slash ∈ fullPathReverse then
      reverseLoop fuel (buf ++ slash :: afterLastSlash fullPathReverse)
        (beforeLastSlash fullPathReverse)
    else buf

/-- `sys_getcwd` of a task with working directory `cwdInodeNr`: the string in `buf`, or `none` for
`NULL`. -/
def sysGetcwd (s : FileSys) (cwdInodeNr size : ℕ) : Outcome (Option (List UInt8) × FileSys) := do
  assert (cwdInodeNr < 4096)
  if cwdInodeNr = 0 then
    return (some [slash], s)
  match ← cwdLoop 513 s cwdInodeNr [] with
  | (none, s) => return (none, s)
  | (some fullPathReverse, s) =>
    assert (fullPathReverse.length ≤ size)
    return (some (reverseLoop fullPathReverse.length [] fullPathReverse), s)

/-! ## Turning a path round -/

/-- A path of names; `"/"` if there are none. -/
def absPath (cs : List (List UInt8)) : List UInt8 := if cs = [] then [slash] else joinPath cs

theorem joinPath_append (cs cs' : List (List UInt8)) :
    joinPath (cs ++ cs') = joinPath cs ++ joinPath cs' := List.flatMap_append

theorem joinPath_concat (cs : List (List UInt8)) (c : List UInt8) :
    joinPath (cs ++ [c]) = joinPath cs ++ slash :: c := by
  rw [joinPath_append, joinPath_cons]
  exact congrArg _ (List.append_nil _)

theorem afterLastSlash_append {u c : List UInt8} (hc : slash ∉ c) :
    afterLastSlash (u ++ slash :: c) = c := by
  have hrev : (u ++ slash :: c).reverse = c.reverse ++ slash :: u.reverse := by simp
  have htake : (c.reverse ++ slash :: u.reverse).takeWhile (· ≠ slash) = c.reverse := by
    rw [List.takeWhile_append_of_pos fun x hx => ?_, List.takeWhile_cons_of_neg (by simp),
      List.append_nil]
    simpa using fun he : x = slash => hc (he ▸ List.mem_reverse.1 hx)
  rw [afterLastSlash, hrev, htake, List.reverse_reverse]

theorem beforeLastSlash_append {u c : List UInt8} (hc : slash ∉ c) :
    beforeLastSlash (u ++ slash :: c) = u := by
  have hrev : (u ++ slash :: c).reverse = c.reverse ++ slash :: u.reverse := by simp
  have hdrop : (c.reverse ++ slash :: u.reverse).dropWhile (· ≠ slash) = slash :: u.reverse := by
    rw [List.dropWhile_append_of_pos fun x hx => ?_, List.dropWhile_cons_of_neg (by simp)]
    simpa using fun he : x = slash => hc (he ▸ List.mem_reverse.1 hx)
  rw [beforeLastSlash, hrev, hdrop, List.tail_cons, List.reverse_reverse]

theorem length_le_joinPath (cs : List (List UInt8)) : cs.length ≤ (joinPath cs).length := by
  induction cs with
  | nil => exact le_rfl
  | cons c cs ih =>
    rw [joinPath_cons, List.length_append, List.length_cons, List.length_cons]
    omega

theorem length_joinPath_reverse (cs : List (List UInt8)) :
    (joinPath cs.reverse).length = (joinPath cs).length := by
  induction cs with
  | nil => rfl
  | cons c cs ih =>
    rw [List.reverse_cons, joinPath_concat, joinPath_cons, List.length_append,
      List.length_append, ih]
    omega

/-- The names come out in reverse order. -/
theorem reverseLoop_joinPath {cs : List (List UInt8)} (hcs : ∀ c ∈ cs, slash ∉ c) :
    ∀ {fuel : ℕ} {buf : List UInt8}, cs.length ≤ fuel →
      reverseLoop fuel buf (joinPath cs) = buf ++ joinPath cs.reverse := by
  induction cs using List.reverseRecOn with
  | nil =>
    intro fuel buf _
    cases fuel with
    | zero => exact (List.append_nil buf).symm
    | succ fuel => exact (if_neg List.not_mem_nil).trans (List.append_nil buf).symm
  | append_singleton cs c ih =>
    intro fuel buf hfuel
    rw [List.length_append, List.length_singleton] at hfuel
    obtain ⟨fuel, rfl⟩ : ∃ k, fuel = k + 1 := ⟨fuel - 1, by omega⟩
    have hc := hcs c (List.mem_append_right _ (List.mem_singleton_self c))
    rw [reverseLoop, joinPath_concat, if_pos (List.mem_append_right _ (List.mem_cons_self ..)),
      afterLastSlash_append hc, beforeLastSlash_append hc,
      ih (fun c hc => hcs c (List.mem_append_left _ hc)) (by omega), List.reverse_concat,
      joinPath_cons, List.append_assoc]

/-! ## Climbing -/

/-- The search by number finds an entry with the number if there is one. -/
theorem exists_findEntryNo {d : Disk} {blocks : ℕ → ℕ} {cnt n k j : ℕ} (hk : k < cnt)
    (hne : blocks k ≠ 0) (hj : j < 21) (hno : (getEntry (d (blocks k)) j).iNo = n) :
    ∃ k < cnt, blocks k ≠ 0 ∧ ∃ j < 21, (getEntry (d (blocks k)) j).iNo = n ∧
      findEntryNo d blocks cnt n = some (getEntry (d (blocks k)) j) := by
  cases h : findEntryNo d blocks cnt n with
  | none =>
    have hnone := List.findSome?_eq_none_iff.1 h k (List.mem_range.2 hk)
    rw [if_neg hne, List.find?_eq_none] at hnone
    simp only [List.mem_map, List.mem_range, decide_eq_true_eq, forall_exists_index, and_imp,
      forall_apply_eq_imp_iff₂] at hnone
    exact absurd hno (hnone j hj)
  | some e =>
    obtain ⟨k, hk, he⟩ := List.exists_of_findSome?_eq_some h
    split at he
    · cases he
    · next hne =>
      obtain ⟨j, hj, rfl⟩ := List.mem_map.1 (List.mem_of_find?_eq_some he)
      have hno := List.find?_some he
      exact ⟨k, List.mem_range.1 hk, hne, j, List.mem_range.1 hj, of_decide_eq_true hno, rfl⟩

section Climb

variable {s : FileSys} {t : Tree ℕ (List UInt8)} {r : ℕ → ℕ} {d n : ℕ} {c : List UInt8}

/-- **`get_parent_dir_inode_nr`** returns the parent. -/
theorem FsOk.getParentDirInodeNr (h : FsOk s t r) (hk : t.kind n = some .dir) :
    ∃ s', getParentDirInodeNr s n = .ok (t.parent n, s') ∧ CacheStep s s' ∧ FsOk s' t r := by
  obtain ⟨q, s₁, hopen, hstep, h₁, hno, -⟩ := h.open_inode (ne_none_of_eq_some hk)
  have hdir := h₁.rep.dirOk hk
  have hsame := h₁.same (hold_pos.2 (Or.inl rfl))
  rw [hno] at hsame
  have hsec : (s₁.inodes q).iSectors 0 = (s₁.part.vol.inode n).iSectors 0 :=
    hsame.iSectors 0 (by omega)
  have hlba : s₁.part.sb.dataStartLba ≤ (s₁.part.vol.inode n).iSectors 0 :=
    Partition.dataStart_le_of_used (iSectors_used hdir.blocks (by omega) hdir.first)
  -- the second entry of the first block is the one for the parent
  set e := getEntry (s₁.part.disk ((s₁.part.vol.inode n).iSectors 0)) 1 with he
  have hvol := Partition.vol_data hlba
  have hent : t.entries n dotDot = some (t.parent n, .dir) :=
    Tree.entries_eq_some.2 ⟨by
      rw [show stepOf dotDot = .up from rfl, Tree.look_up hk], h.rep.wf.parent_kind hk⟩
  have hname : e.name = dotDot := by
    rw [he, ← hvol]
    exact hdir.entry_dotDot
  have hlive : e ∈ liveEntries s₁.part.vol.data (s₁.part.vol.inode n) := by
    have h0 : allBlocks s₁.part.vol.data (s₁.part.vol.inode n) 0 =
        (s₁.part.vol.inode n).iSectors 0 := allBlocks_of_lt (by omega)
    refine mem_liveEntries.2 ⟨0, by omega, by rw [h0]; exact hdir.first, 1, by omega, ?_, ?_⟩
    · rw [h0, hvol]
    · rw [he, ← hvol]
      exact hdir.live_first (by omega) hdir.entry_dotDot (by decide)
  obtain ⟨k, hf, htype⟩ := hdir.holds.mem e hlive
  rw [hname, hent] at hf
  obtain ⟨hpar, rfl⟩ := Prod.mk.inj (Option.some.inj hf)
  have hlt : e.iNo < 4096 := by
    rw [← hpar]
    exact h.rep.contents.lt _ (ne_none_of_eq_some (h.rep.wf.parent_kind hk))
  refine ⟨Fs.inodeClose s₁ q, ?_, hstep.trans (cacheStep_inodeClose s₁ q),
    h₁.close_inode (by rw [hstep.rootInode]; exact h.root_held)⟩
  unfold Fs.getParentDirInodeNr
  rw [hopen, ok_bind]
  dsimp only
  rw [hsec, assert, if_pos hlba, ok_bind, (cacheStep_inodeClose s₁ q).part]
  change (do
    assert (e.iNo < 4096 ∧ e.fType = FileTypes.directory.code)
    return (e.iNo, _)) = _
  rw [assert, if_pos ⟨hlt, htype⟩, ok_bind, hpar]
  rfl

/-- **`get_child_dir_name`** appends the name of the child. -/
theorem FsOk.getChildDirName (h : FsOk s t r) (hc : t.child d c = some n)
    (hk : t.kind n = some .dir) (path : List UInt8) (hlen : path.length + 1 + c.length < 512) :
    ∃ s', getChildDirName s d n path = .ok (some (path ++ slash :: c), s') ∧ CacheStep s s' ∧
      FsOk s' t r := by
  have hd := h.rep.wf.child_dir hc
  obtain ⟨q, s₁, hopen, hstep, h₁, hno, -⟩ := h.open_inode (ne_none_of_eq_some hd)
  have hq : q ∈ s₁.openInodes := (h₁.cache.mem q).2 (hold_pos.2 (Or.inl rfl))
  have hholds := h₁.rep.dirTree.holds_cell h₁.cache hq (by rw [hno]; exact hd)
  rw [hno] at hholds
  have htable : (s₁.inodes q).iSectors 12 = 0 := by
    have hsame := h₁.same (hold_pos.2 (Or.inl rfl))
    rw [hno] at hsame
    rw [hsame.iSectors 12 (by omega)]
    exact (h₁.rep.dirOk hd).table
  obtain ⟨hname, hdot, hdotDot⟩ := h.rep.names d c n hc
  have hent : t.entries d c = some (n, .dir) := Tree.entries_eq_some.2
    ⟨by rw [Tree.stepOf_of_ne hdot hdotDot, Tree.look_down hd, hc], hk⟩
  -- the entry that names the child has its number, and it is in a direct block
  obtain ⟨e, he, hec⟩ := hholds.find c (ne_none_of_eq_some hent)
  have heno : e.iNo = n := by
    obtain ⟨k, hf, -⟩ := hholds.mem e he
    rw [hec, hent] at hf
    exact (Prod.mk.inj (Option.some.inj hf)).1.symm
  obtain ⟨k, -, hne, j, hj, rfl, -⟩ := mem_liveEntries.1 he
  have hk12 : k < 12 := by
    by_contra hk12
    exact hne (allBlocks_of_no_table htable (not_lt.1 hk12))
  obtain ⟨k', hk', hne', j', hj', hno', hfound⟩ := exists_findEntryNo hk12 hne hj heno
  set e' := getEntry (s₁.part.disk (allBlocks s₁.part.disk (s₁.inodes q) k')) j' with he'
  -- whatever entry is found has the same name
  have hname' : e'.name = c := by
    have hlive : e'.Live := by
      by_contra hl
      have h0 := (hholds.cleared k' (by omega) hne' j' hj' hl).2
      have hn0 : n = 0 := hno'.symm.trans h0
      exact h.rep.wf.child_ne_root hc (hn0.trans h.rep.root.symm)
    obtain ⟨kind, hf, -⟩ := hholds.mem e'
      (mem_liveEntries.2 ⟨k', by omega, hne', j', hj', he'.symm, hlive⟩)
    rw [hno'] at hf
    exact h.rep.wf.name_of_entries hc hf
  refine ⟨Fs.inodeClose s₁ q, ?_, hstep.trans (cacheStep_inodeClose s₁ q),
    h₁.close_inode (by rw [hstep.rootInode]; exact h.root_held)⟩
  unfold Fs.getChildDirName
  rw [hopen, ok_bind]
  dsimp only
  rw [htable, if_neg (not_not.2 rfl), (cacheStep_inodeClose s₁ q).part, hfound]
  dsimp only
  have hle := hname.length_le
  rw [hname', access, if_pos ⟨by omega, by omega⟩, ok_bind]
  rfl

/-- The loop climbs the names of the canonical path. -/
theorem FsOk.cwdLoop {cs : List (List UInt8)} : ∀ {fuel : ℕ} {s : FileSys} {n : ℕ}
    (path : List UInt8), FsOk s t r → t.At cs n → t.kind n = some .dir → cs.length < fuel →
      path.length + (joinPath cs).length < 512 →
      ∃ s', cwdLoop fuel s n path = .ok (some (path ++ joinPath cs.reverse), s') ∧ CacheStep s s' ∧
        FsOk s' t r := by
  induction cs using List.reverseRecOn with
  | nil =>
    intro fuel s n path h hn _ hfuel _
    obtain ⟨fuel, rfl⟩ : ∃ k, fuel = k + 1 := ⟨fuel - 1, by omega⟩
    have h0 : n = 0 := (Tree.at_nil.1 hn).symm.trans h.rep.root
    refine ⟨s, ?_, CacheStep.refl s, h⟩
    rw [Fs.cwdLoop, if_pos h0, List.reverse_nil, show joinPath [] = [] from rfl, List.append_nil]
    rfl
  | append_singleton cs c ih =>
    intro fuel s n path h hn hk hfuel hlen
    obtain ⟨fuel, rfl⟩ : ∃ k, fuel = k + 1 := ⟨fuel - 1, by omega⟩
    obtain ⟨d, hd, hc⟩ := h.rep.wf.at_concat.1 hn
    have hn0 : n ≠ 0 := fun h0 => h.rep.wf.child_ne_root hc (h0.trans h.rep.root.symm)
    rw [List.length_append, List.length_singleton] at hfuel
    rw [joinPath_concat, List.length_append, List.length_cons] at hlen
    obtain ⟨s₁, hparent, hstep₁, h₁⟩ := h.getParentDirInodeNr hk
    rw [h.rep.wf.parent_eq hc hk] at hparent
    obtain ⟨s₂, hname, hstep₂, h₂⟩ := h₁.getChildDirName hc hk path (by omega)
    obtain ⟨s₃, hloop, hstep₃, h₃⟩ := ih (path ++ slash :: c) h₂ hd (h.rep.wf.child_dir hc)
      (show cs.length < fuel by omega) (by rw [List.length_append, List.length_cons]; omega)
    refine ⟨s₃, ?_, (hstep₁.trans hstep₂).trans hstep₃, h₃⟩
    rw [Fs.cwdLoop, if_neg hn0, hparent, ok_bind]
    dsimp only
    rw [hname, ok_bind]
    dsimp only
    rw [hloop, List.reverse_concat, joinPath_cons, List.append_assoc]

/-- **`sys_getcwd`** returns the canonical path of the working directory. -/
theorem FsOk.sysGetcwd (h : FsOk s t r) {cs : List (List UInt8)} (hn : t.At cs n)
    (hk : t.kind n = some .dir) (hcs : ∀ c ∈ cs, slash ∉ c) (hlen : (joinPath cs).length < 512)
    {size : ℕ} (hsize : (joinPath cs).length ≤ size) :
    ∃ s', sysGetcwd s n size = .ok (some (absPath cs), s') ∧ CacheStep s s' ∧ FsOk s' t r := by
  unfold Fs.sysGetcwd
  rw [assert, if_pos (h.rep.contents.lt n (ne_none_of_eq_some hk)), ok_bind]
  by_cases h0 : n = 0
  · have hnil : cs = [] := h.rep.wf.at_unique hn (Tree.at_nil.2 (h.rep.root.trans h0.symm))
    rw [if_pos h0, hnil]
    exact ⟨s, rfl, CacheStep.refl s, h⟩
  have hne : cs ≠ [] := by
    rintro rfl
    exact h0 ((Tree.at_nil.1 hn).symm.trans h.rep.root)
  have hcnt : cs.length ≤ (joinPath cs).length := length_le_joinPath cs
  have hrev : (joinPath cs.reverse).length = (joinPath cs).length := length_joinPath_reverse cs
  obtain ⟨s', hloop, hstep, h'⟩ := Fs.FsOk.cwdLoop [] h hn hk (show cs.length < 513 by omega)
    (by rw [List.length_nil]; omega)
  refine ⟨s', ?_, hstep, h'⟩
  rw [if_neg h0, hloop, ok_bind, List.nil_append]
  dsimp only
  rw [assert, if_pos (by omega), ok_bind, reverseLoop_joinPath
    (fun c hc => hcs c (List.mem_reverse.1 hc)) (length_le_joinPath cs.reverse),
    List.reverse_reverse, absPath, if_neg hne]
  rfl

end Climb

/-! ## The canonical path of a path -/

/-- The names that are left of a path when `"."` and `".."` have been carried out. -/
def canonical (path : List UInt8) : List (List UInt8) :=
  Tree.canon [] ((components path).map stepOf)

section Canonical

variable {s s' : FileSys} {t : Tree ℕ (List UInt8)} {r : ℕ → ℕ} {path : List UInt8} {n : ℕ}

theorem pathOk_of_pathArg (hp : PathArg path) : PathOk path := by
  rcases hp with hr | ⟨hp, -⟩
  · simp only [isRootPath, Bool.or_eq_true, decide_eq_true_eq] at hr
    rcases hr with (rfl | rfl) | rfl <;> exact ⟨rfl, by decide, by decide, by decide⟩
  · exact hp

/-- The canonical path is not longer than the path. -/
theorem length_joinPath_canon {cs : List (List UInt8)} : ∀ {acc : List (List UInt8)},
    (joinPath (Tree.canon acc (cs.map stepOf))).length ≤
      (joinPath acc).length + (joinPath cs).length := by
  induction cs with
  | nil => exact Nat.le_add_right _ _
  | cons c cs ih =>
    intro acc
    rw [joinPath_cons, List.length_append, List.length_cons, List.map_cons]
    by_cases hdot : c = dot
    · rw [hdot]
      have := @ih acc
      change (joinPath (Tree.canon acc (cs.map stepOf))).length ≤ _
      omega
    by_cases hdotDot : c = dotDot
    · rw [hdotDot]
      have := @ih acc.dropLast
      have hdrop : (joinPath acc.dropLast).length ≤ (joinPath acc).length := by
        rcases List.eq_nil_or_concat acc with rfl | ⟨acc, a, rfl⟩
        · exact le_rfl
        · rw [List.concat_eq_append, List.dropLast_concat, joinPath_concat, List.length_append]
          omega
      change (joinPath (Tree.canon acc.dropLast (cs.map stepOf))).length ≤ _
      omega
    · rw [Tree.stepOf_of_ne hdot hdotDot]
      have := @ih (acc ++ [c])
      rw [joinPath_concat, List.length_append, List.length_cons] at this
      change (joinPath (Tree.canon (acc ++ [c]) (cs.map stepOf))).length ≤ _
      omega

/-- The names of a canonical path are components of the path. -/
theorem mem_canon_components {c : List UInt8}
    (hc : c ∈ canonical path) : c ∈ components path ∧ c ≠ dot ∧ c ≠ dotDot := by
  obtain ⟨c', hc', hstep⟩ := List.mem_map.1 ((Tree.mem_canon hc).resolve_left List.not_mem_nil)
  unfold stepOf at hstep
  split at hstep
  · cases hstep
  · split at hstep
    · cases hstep
    · next hdot hdotDot =>
      cases hstep
      exact ⟨hc', hdot, hdotDot⟩

/-- The directory that `search_file` finds is at the canonical path. -/
theorem FsOk.at_canon (h : FsOk s t r) (hp : PathArg path)
    (hf : (t.resolve path).found = some (n, .dir)) :
    t.At (canonical path) n := by
  have hroot : t.At [] 0 := Tree.at_nil.2 h.rep.root
  unfold Tree.resolve at hf
  split at hf
  · next hr =>
    obtain ⟨rfl, -⟩ := Prod.mk.inj (Option.some.inj hf)
    simp only [isRootPath, Bool.or_eq_true, decide_eq_true_eq] at hr
    rcases hr with (rfl | rfl) | rfl <;> exact hroot
  · next hr =>
    obtain ⟨-, hne⟩ := hp.resolve_left hr
    obtain ⟨init, c, -, -, hwalk, -, hfound, hend⟩ := @Tree.search_spec t (components path) 0 0
      h.rep.root_kind hne
    rw [hf] at hfound
    refine h.rep.wf.at_canon hroot ?_
    rw [← hend n hf, List.map_append, Tree.walk_append, hwalk, Option.bind_some, List.map_singleton,
      Tree.walk, (Tree.entries_eq_some.1 hfound.symm).1]
    rfl

theorem length_canonical_lt (hp : PathArg path) : (joinPath (canonical path)).length < 512 := by
  have hlt := hp.length_lt
  have hhead := (pathOk_of_pathArg hp).head
  cases path with
  | nil => cases hhead
  | cons x rest =>
    obtain rfl := Option.some.inj hhead
    have hle := length_joinPath_le (le_refl rest.length)
    have hcanon := @length_joinPath_canon (components (slash :: rest)) []
    rw [components_slash] at hcanon
    rw [List.length_cons] at hlt
    unfold canonical
    rw [components_slash]
    change _ ≤ 0 + _ at hcanon
    omega

/-- **`sys_chdir`** moves to the directory at the canonical path. -/
theorem FsOk.chdir_at (h : FsOk s t r) (hp : PathArg path) {uninit : Uninit}
    (hrun : sysChdir s uninit path = .ok (some n, s')) :
    FsOk s' t r ∧ t.kind n = some .dir ∧ t.At (canonical path) n := by
  obtain ⟨s₁, hrun₁, -, h₁⟩ := h.chdir hp uninit
  obtain ⟨hres, rfl⟩ := ok_pair (hrun.symm.trans hrun₁)
  have hf : (t.resolve path).found = some (n, .dir) := by
    split at hres
    · next m hf =>
      rw [hf, Option.some.inj hres]
    · cases hres
  exact ⟨h₁, h.kind_of_found hp hf, h.at_canon hp hf⟩

theorem isName_of_mem_canonical (hp : PathArg path) {c : List UInt8} (hc : c ∈ canonical path) :
    IsName c ∧ slash ∉ c :=
  have hmem := (mem_canon_components hc).1
  ⟨(pathOk_of_pathArg hp).isName c hmem, slash_notMem_of_mem_components hmem⟩

theorem components_absPath (hp : PathArg path) :
    components (absPath (canonical path)) = canonical path := by
  unfold absPath
  split
  · next h => rw [h]; rfl
  · exact components_joinPath fun c hc =>
      ⟨(isName_of_mem_canonical hp hc).1.ne_nil, (isName_of_mem_canonical hp hc).2⟩

/-- The calls accept a canonical path. -/
theorem pathArg_absPath (hp : PathArg path) : PathArg (absPath (canonical path)) := by
  have hcomp := components_absPath hp
  by_cases hnil : canonical path = []
  · rw [hnil]
    exact Or.inl rfl
  refine Or.inr ⟨⟨?_, ?_, ?_, ?_⟩, by rw [hcomp]; exact hnil⟩
  · obtain ⟨c, cs, hcs⟩ := List.exists_cons_of_ne_nil hnil
    rw [hcs]
    rfl
  · rw [absPath, if_neg hnil]
    exact length_canonical_lt hp
  · rw [absPath, if_neg hnil]
    intro h0
    obtain ⟨c, hc, h0⟩ := List.mem_flatMap.1 h0
    rcases List.mem_cons.1 h0 with h0 | h0
    · exact absurd h0 (by decide)
    · exact (isName_of_mem_canonical hp hc).1.nul h0
  · rw [hcomp]
    exact fun c hc => (isName_of_mem_canonical hp hc).1.length_le

/-- A search for the canonical path finds the directory. -/
theorem FsOk.resolve_absPath (h : FsOk s t r) (hp : PathArg path) (hat : t.At (canonical path) n)
    (hk : t.kind n = some .dir) : (t.resolve (absPath (canonical path))).found =
    some (n, .dir) := by
  have hroot := h.rep.root
  unfold Tree.resolve
  split
  · next hr =>
    have hnil : canonical path = [] := by
      have hcomp := components_absPath hp
      simp only [isRootPath, Bool.or_eq_true, decide_eq_true_eq] at hr
      rcases hr with (hr | hr) | hr
      · rw [hr] at hcomp
        exact hcomp.symm
      · have hmem : dot ∈ canonical path := by
          rw [← hcomp, hr]
          exact List.mem_singleton_self dot
        exact absurd rfl (mem_canon_components hmem).2.1
      · have hmem : dotDot ∈ canonical path := by
          rw [← hcomp, hr]
          exact List.mem_singleton_self dotDot
        exact absurd rfl (mem_canon_components hmem).2.2
    rw [hnil] at hat
    rw [← hroot, Tree.at_nil.1 hat]
  · rw [components_absPath hp]
    have hsteps : (canonical path).map stepOf = (canonical path).map PathStep.down :=
      List.map_congr_left fun c hc => Tree.stepOf_of_ne (mem_canon_components hc).2.1
        (mem_canon_components hc).2.2
    have hwalk : t.walk 0 ((canonical path).map stepOf) = some n := by
      rw [hsteps, ← hroot]
      exact hat
    rw [Tree.search_found_eq h.rep.wf h.rep.root_kind, hwalk]
    · change (t.kind n).map _ = _
      rw [hk]
      rfl
    · rintro ⟨pre, suf, m, hcs, hsuf, hpre, hm⟩
      rw [hcs, List.map_append, Tree.walk_append, hpre, Option.bind_some,
        Tree.walk_of_file hm (by simpa using hsuf)] at hwalk
      cases hwalk

end Canonical

/-! ## Processes with working directories -/

/-- The file system, and `cwd_inode_nr` of the processes that have not exited. -/
structure CwdSys where
  run : FsRun
  cwd : ℕ → Option ℕ

/-- What processes do with directories. -/
inductive CwdCall
  | chdir (pid : ℕ) (path : List UInt8)
  | mkdir (path : List UInt8)
  | rmdir (path : List UInt8)
  | getcwd (pid size : ℕ)
  | fork (pid child : ℕ)
  | exit (pid : ℕ)

/-- Make a call. The process control block of a child is a copy of its parent's. -/
def CwdCall.exec (x : CwdSys) : Uninit × CwdCall → Outcome CwdSys
  | (uninit, .chdir pid path) => do
    access ((x.cwd pid).isSome)
    let (inodeNo, s) ← sysChdir x.run.fs uninit path
    return { run := { x.run with fs := s }, cwd := update x.cwd pid (inodeNo <|> x.cwd pid) }
  | (uninit, .mkdir path) => do
    let (_, run) ← Fs.exec uninit x.run (.mkdir path)
    return { x with run := run }
  | (uninit, .rmdir path) => do
    let (_, run) ← Fs.exec uninit x.run (.rmdir path)
    return { x with run := run }
  | (_, .getcwd pid size) => do
    match x.cwd pid with
    | none => throw .fault
    | some cwdInodeNr =>
      let (_, s) ← sysGetcwd x.run.fs cwdInodeNr size
      return { x with run := { x.run with fs := s } }
  | (_, .fork pid child) => return { x with cwd := update x.cwd child (x.cwd pid) }
  | (_, .exit pid) => return { x with cwd := update x.cwd pid none }

/-- A call that meets the condition `P`. -/
def CwdStep (P : CwdSys → CwdCall → Prop) (x x' : CwdSys) : Prop :=
  ∃ uninit c, P x c ∧ CwdCall.exec x (uninit, c) = .ok x'

/-- No process works in the directory that the path names, if it is empty. -/
def NamesNoCwd (x : CwdSys) (path : List UInt8) : Prop :=
  ∀ t, Represents x.run.fs.part.vol t → ∀ n, n ≠ 0 → (t.resolve path).found = some (n, .dir) →
    (∀ c, t.child n c = none) → ∀ pid, x.cwd pid ≠ some n

/-- The conditions under which working directories stay valid. -/
def CwdSafe (x : CwdSys) : CwdCall → Prop
  | .chdir _ path => PathArg path
  | .mkdir path => PathArg path ∧ RoomToMake x.run.fs path
  | .rmdir path => PathArg path ∧ (components path).getLast? ≠ some dot ∧ NamesNoCwd x path
  | .getcwd _ size => 511 ≤ size
  | .fork _ _ => True
  | .exit _ => True

/-- The number is that of an allocated directory that can be reached from the root, and
`sys_getcwd` returns its path. -/
structure CwdValid (x : CwdSys) (n : ℕ) : Prop where
  allocated : x.run.fs.part.inodeBitmap.bit n = true
  reach : ReachDir x.run.fs.part.vol n
  getcwd : ∀ size, 511 ≤ size → ∃ path s', sysGetcwd x.run.fs n size = .ok (some path, s')

/-- Directory `n` is at a path that `sys_getcwd` can return. -/
structure WorksAt (t : Tree ℕ (List UInt8)) (n : ℕ) (cs : List (List UInt8)) : Prop where
  at_path : t.At cs n
  kind : t.kind n = some .dir
  names : ∀ c ∈ cs, slash ∉ c
  length_lt : (joinPath cs).length < 512

/-- The invariant: only the root directory is open, and every process works in a directory. -/
structure CwdOk (x : CwdSys) (t : Tree ℕ (List UInt8)) : Prop where
  run : RunOk x.run t []
  slots : slotCells x.run.fs = []
  dirs : x.run.dirs = []
  cwd : ∀ pid n, x.cwd pid = some n → ∃ cs, WorksAt t n cs

section Cwd

variable {x x' : CwdSys} {s' : FileSys} {t t' : Tree ℕ (List UInt8)} {path : List UInt8} {n : ℕ}
  {uninit : Uninit} {c : CwdCall}

theorem CwdOk.of_frame (h : CwdOk x t) (hs : Frame x.run.fs s')
    (hrun : RunOk { x.run with fs := s' } t' []) {cwd : ℕ → Option ℕ}
    (hcwd : ∀ pid n, cwd pid = some n → ∃ cs, WorksAt t' n cs) :
    CwdOk { run := { x.run with fs := s' }, cwd := cwd } t' :=
  ⟨hrun, (slotCells_congr fun i => by rw [hs.fileTable]).trans h.slots, h.dirs, hcwd⟩

theorem CwdOk.of_cwd (h : CwdOk x t) {cwd : ℕ → Option ℕ}
    (hcwd : ∀ pid n, cwd pid = some n → ∃ cs, WorksAt t n cs) : CwdOk { x with cwd := cwd } t :=
  ⟨h.run, h.slots, h.dirs, hcwd⟩

/-- No directory but the root is open. -/
theorem CwdOk.closed (h : CwdOk x t) (hn : n ≠ 0) : findInode x.run.fs n = none := by
  refine findInode_eq_none.2 fun q hq hno => ?_
  have hheld := h.run.held_of_open hq
  rw [heldCells, h.slots, h.dirs] at hheld
  rw [List.mem_singleton.1 hheld, h.run.fs.cache.root_iNo] at hno
  exact hn hno.symm

theorem WorksAt.root (h : t.Wf) (hroot : t.root = 0) : WorksAt t 0 [] :=
  ⟨Tree.at_nil.2 hroot, hroot ▸ h.root_kind, fun _ hc => absurd hc List.not_mem_nil, by decide⟩

/-- **One call** keeps the invariant. -/
theorem CwdOk.step (h : CwdOk x t) (hc : CwdSafe x c) (hrun : CwdCall.exec x (uninit, c) = .ok x') :
    ∃ t', CwdOk x' t' := by
  have hwf := h.run.fs.rep.wf
  cases c with
  | chdir pid path =>
    obtain ⟨_, -, hrun⟩ := bind_eq_ok.1 hrun
    obtain ⟨⟨no, s'⟩, hchdir, hrun⟩ := bind_eq_ok.1 hrun
    obtain rfl := Except.ok.inj hrun
    obtain ⟨s₁, hrun₁, hstep, h₁⟩ := h.run.fs.chdir hc uninit
    obtain ⟨-, rfl⟩ := ok_pair (hrun₁.symm.trans hchdir)
    refine ⟨t, h.of_frame hstep.frame (h.run.of_cacheStep hstep h₁) fun pid' n hn => ?_⟩
    by_cases hpid : pid' = pid
    · rw [hpid, update_self] at hn
      cases no with
      | none => exact h.cwd pid n hn
      | some m =>
        obtain rfl := Option.some.inj hn
        obtain ⟨-, hk, hat⟩ := h.run.fs.chdir_at hc hchdir
        exact ⟨_, hat, hk, fun c hc' => (isName_of_mem_canonical hc hc').2, length_canonical_lt hc⟩
    · rw [update_of_ne hpid] at hn
      exact h.cwd pid' n hn
  | mkdir path =>
    obtain ⟨⟨done, run⟩, hexec, hrun⟩ := bind_eq_ok.1 hrun
    obtain rfl := Except.ok.inj hrun
    obtain ⟨⟨done', s'⟩, hmkdir, -, rfl⟩ := bind_pair_eq_ok hexec
    cases h.run.fs.mkdir hc.1 (h.run.resolve_dir_lt hc.1)
      ⟨hc.2.number t h.run.fs.rep, hc.2.entry t h.run.fs.rep⟩ hmkdir with
    | refused hs h' =>
      exact ⟨t, h.of_frame hs (h.run.of_frame hs h' h.run.small fun _ _ => rfl) h.cwd⟩
    | made hs hname hn hlt h' =>
      refine ⟨_, h.of_frame hs (h.run.of_frame hs h' (h.run.small_insert hlt) fun q hq =>
        h.run.kind_insert hn hq) fun pid m hm => ?_⟩
      obtain ⟨cs, hw⟩ := h.cwd pid m hm
      have hmn : m ≠ _ := fun he => ne_none_of_eq_some hw.kind (he ▸ hn)
      exact ⟨cs, hwf.at_insert h'.rep.wf hname.child hw.at_path,
        (Tree.kind_insert_of_ne hmn).trans hw.kind, hw.names, hw.length_lt⟩
  | rmdir path =>
    obtain ⟨⟨done, run⟩, hexec, hrun⟩ := bind_eq_ok.1 hrun
    obtain rfl := Except.ok.inj hrun
    obtain ⟨⟨done', s'⟩, hrmdir, -, rfl⟩ := bind_pair_eq_ok hexec
    obtain ⟨hp, hlast, hcwd⟩ := hc
    cases h.run.fs.rmdir hp hlast (h.run.resolve_dir_lt hp) (fun n hn _ _ => h.closed hn)
      hrmdir with
    | refused hs h' => exact ⟨t, h.of_frame hs.frame (h.run.of_cacheStep hs h') h.cwd⟩
    | removed hs hf hchild hleaf h' =>
      refine ⟨_, h.of_frame hs (h.run.of_frame hs h' h.run.small_remove fun q hq =>
        kind_remove_of_open h.run.fs hs h' hq) fun pid m hm => ?_⟩
      obtain ⟨cs, hw⟩ := h.cwd pid m hm
      have hn0 := hwf.child_ne_root hchild
      rw [h.run.fs.rep.root] at hn0
      have hmn : m ≠ _ := fun he => hcwd t h.run.fs.rep _ hn0 hf hleaf pid
        (hm.trans (congrArg some he))
      exact ⟨cs, hwf.at_remove h'.rep.wf hchild hleaf hw.at_path hmn,
        (Tree.kind_remove_of_ne hmn).trans hw.kind, hw.names, hw.length_lt⟩
  | getcwd pid size =>
    unfold CwdCall.exec at hrun
    dsimp only at hrun
    split at hrun
    · cases hrun
    · next n hn =>
      obtain ⟨⟨res, s'⟩, hgetcwd, hrun⟩ := bind_eq_ok.1 hrun
      obtain rfl := Except.ok.inj hrun
      obtain ⟨cs, hw⟩ := h.cwd pid n hn
      have hlen := hw.length_lt
      have hsize : 511 ≤ size := hc
      obtain ⟨s₁, hrun₁, hstep, h₁⟩ := h.run.fs.sysGetcwd hw.at_path hw.kind hw.names hw.length_lt
        (show _ ≤ size by omega)
      obtain ⟨-, rfl⟩ := ok_pair (hrun₁.symm.trans hgetcwd)
      exact ⟨t, h.of_frame hstep.frame (h.run.of_cacheStep hstep h₁) h.cwd⟩
  | fork pid child =>
    obtain rfl := Except.ok.inj hrun
    refine ⟨t, h.of_cwd fun pid' n hn => ?_⟩
    by_cases hpid : pid' = child
    · rw [hpid, update_self] at hn
      exact h.cwd pid n hn
    · rw [update_of_ne hpid] at hn
      exact h.cwd pid' n hn
  | exit pid =>
    obtain rfl := Except.ok.inj hrun
    refine ⟨t, h.of_cwd fun pid' n hn => ?_⟩
    by_cases hpid : pid' = pid
    · rw [hpid, update_self] at hn
      cases hn
    · rw [update_of_ne hpid] at hn
      exact h.cwd pid' n hn

theorem CwdOk.valid (h : CwdOk x t) {pid : ℕ} (hn : x.cwd pid = some n) : CwdValid x n := by
  obtain ⟨cs, hw⟩ := h.cwd pid n hn
  have hrep := h.run.fs.rep
  refine ⟨Partition.bit_of_allocated ((hrep.contents.alloc n).2 (ne_none_of_eq_some hw.kind)),
    hrep.reachDir_iff.2 hw.kind, fun size hsize => ?_⟩
  have hlen := hw.length_lt
  obtain ⟨s', hrun, -⟩ := h.run.fs.sysGetcwd hw.at_path hw.kind hw.names hw.length_lt
    (show _ ≤ size by omega)
  exact ⟨_, s', hrun⟩

/-- **Working directories stay valid** in every run in which no process removes the working
directory of a process. The run starts with all processes in the root directory and nothing else
open. -/
theorem cwdValid_of_run (x₀ : CwdSys) (t₀ : Tree ℕ (List UInt8)) (h₀ : RunOk x₀.run t₀ [])
    (hslots : slotCells x₀.run.fs = []) (hdirs : x₀.run.dirs = [])
    (hcwd : ∀ pid n, x₀.cwd pid = some n → n = 0) (x : CwdSys)
    (hx : Relation.ReflTransGen (CwdStep CwdSafe) x₀ x) (pid n : ℕ) (hn : x.cwd pid = some n) :
    CwdValid x n := by
  have hstart : CwdOk x₀ t₀ := ⟨h₀, hslots, hdirs, fun pid n hn =>
    ⟨[], hcwd pid n hn ▸ WorksAt.root h₀.fs.rep.wf h₀.fs.rep.root⟩⟩
  obtain ⟨t, h⟩ := reach_invariant (I := fun x => ∃ t, CwdOk x t) hx ⟨t₀, hstart⟩
    fun ⟨_, h⟩ ⟨_, _, hc, hrun⟩ => h.step hc hrun
  exact h.valid hn

end Cwd

/-- A small file system, with one process in the root directory. -/
def smallCwd : CwdSys where
  run := smallRun
  cwd pid := if pid = 1 then some 0 else none

/-- A process moves to a new directory. -/
theorem cwdValid_of_chdir : ∃ x, Relation.ReflTransGen (CwdStep CwdSafe) smallCwd x ∧
    x.cwd 1 = some 1 ∧ CwdValid x 1 := by
  obtain ⟨x₁, hmk, hx⟩ := exists_of_holds (o := CwdCall.exec smallCwd (noUninit, .mkdir pathA))
    (f := fun x => holds (CwdCall.exec x (noUninit, .chdir 1 pathA)) fun x => x.cwd 1 = some 1)
    (by decide +kernel)
  obtain ⟨x, hcd, hx⟩ := exists_of_holds hx
  have hcwd := of_decide_eq_true hx
  have hrun : Relation.ReflTransGen (CwdStep CwdSafe) smallCwd x :=
    (Relation.ReflTransGen.single
      ⟨noUninit, .mkdir pathA, ⟨pathArg_pathA, roomToMake_smallRun⟩, hmk⟩).tail
      ⟨noUninit, .chdir 1 pathA, pathArg_pathA, hcd⟩
  refine ⟨x, hrun, hcwd, cwdValid_of_run smallCwd _ smallRun_runOk (by decide +kernel) rfl
    (fun pid n hn => ?_) x hrun 1 1 hcwd⟩
  change (if pid = 1 then some 0 else none) = some n at hn
  split at hn
  · exact (Option.some.inj hn).symm
  · cases hn

/-- A process moves to `"/a"`, and the directory is removed. Its number is free then, and
`sys_getcwd` does not return. -/
theorem cwd_invalid_of_rmdir : ∃ x x',
    runAll (fun _ _ => true) CwdCall.exec smallCwd
      [(noUninit, .mkdir pathA), (noUninit, .chdir 1 pathA)] = .ok x ∧
    CwdCall.exec x (noUninit, .rmdir pathA) = .ok x' ∧ x'.cwd 1 = some 1 ∧
    x'.run.fs.part.inodeBitmap.bit 1 = false ∧ sysGetcwd x'.run.fs 1 512 = .error .assert := by
  obtain ⟨x, hrun, hx⟩ := exists_of_holds (o := runAll (fun _ _ => true) CwdCall.exec smallCwd
      [(noUninit, .mkdir pathA), (noUninit, .chdir 1 pathA)])
    (f := fun x => holds (CwdCall.exec x (noUninit, .rmdir pathA)) fun x' =>
      decide (x'.cwd 1 = some 1) && !x'.run.fs.part.inodeBitmap.bit 1 &&
      decide ((sysGetcwd x'.run.fs 1 512).map (fun _ => ()) = .error .assert)) (by decide +kernel)
  obtain ⟨x', hrm, hx'⟩ := exists_of_holds hx
  simp only [Bool.and_eq_true, decide_eq_true_eq, Bool.not_eq_true'] at hx'
  obtain ⟨⟨hcwd, hbit⟩, hget⟩ := hx'
  exact ⟨x, x', hrun, hrm, hcwd, hbit, map_eq_error.1 hget⟩

end Gardos.Fs
