import Gardos.Fs.Lookup

/-!
# Removing an object

`sys_unlink` and `sys_rmdir` share one pattern: `delete_dir_entry` takes the entry out of the
parent directory, which the search has left open, and `inode_release` gives the object back.
`FsOk.exists_removeChild` is this pattern, on an object without children; the parent's number has
to fit in a byte, since `delete_dir_entry` ends with an `inode_sync`.
-/

namespace Gardos.Fs

open Bytes Outcome

section Remove

variable {s : FileSys} {t : Tree ℕ (List UInt8)} {r : ℕ → ℕ} {parent d n : ℕ} {c : List UInt8}
  {v : Volume} {ino : Inode} {e : DirEntry} {p : Partition}

theorem DirRemove.iOpenCnts {v' : Volume} {ino' : Inode} (h : DirRemove v ino e v' ino') :
    ino'.iOpenCnts = ino.iOpenCnts := by
  cases h <;> rfl

/-- The entry of a child is deleted from its directory. -/
theorem FsOk.exists_deleteDirEntry (h : FsOk s t r) (hq : parent ∈ s.openInodes)
    (hd : (s.inodes parent).iNo = d) (hc : t.child d c = some n) :
    ∃ e v ino p, deleteDirEntry s.part (s.inodes parent) n = .ok (true, p, ino) ∧ e.name = c ∧
      DirRemove s.part.vol (s.inodes parent) e v ino ∧
      p.vol = v.setInode (d % 256) ino.stored := by
  subst hd
  have hdir := h.rep.wf.child_dir hc
  obtain ⟨-, hdot, hdotDot⟩ := h.rep.names _ c n hc
  obtain ⟨k, hk⟩ := Option.ne_none_iff_exists'.1 (h.rep.wf.child_kind hc)
  refine Fs.exists_deleteDirEntry h.layout (h.fits_cell hq hdir) (h.dirOk_cell hq hdir) (κ := k)
    (Tree.entries_eq_some.2 ⟨?_, hk⟩) hdot hdotDot fun c' κ' hc' => ?_
  · rw [Tree.stepOf_of_ne hdot hdotDot, Tree.look_down hdir, hc]
  · by_contra hne
    simp only [not_or] at hne
    have hlook := (Tree.entries_eq_some.1 hc').1
    rw [Tree.stepOf_of_ne hne.1 hne.2.1, Tree.look_down hdir] at hlook
    exact hne.2.2 (h.rep.wf.unique hlook hc).2

/-- The child `c` of `d`, inode `n`, has been removed: `s'` is the state but for the partition,
which is `p`. -/
structure Removed (s : FileSys) (t : Tree ℕ (List UInt8)) (r : ℕ → ℕ) (d : ℕ) (c : List UInt8)
    (n : ℕ) (s' : FileSys) (p : Partition) : Prop where
  frame : Frame s s'
  cache : Cache s' r
  rep : Represents p.vol (t.remove d c n)
  geometry : p.vol.geometry = s.part.vol.geometry
  inode : ∀ m, m ≠ n → p.vol.inode m = s'.part.vol.inode m

/-- The deletion of an entry leaves the blocks of all other objects alone. -/
theorem FsOk.blocks_kept (h : FsOk s t r) (hq : parent ∈ s.openInodes)
    (hd : (s.inodes parent).iNo = d) (hdir : t.kind d = some .dir) (hn : t.kind n ≠ none)
    (hdn : d ≠ n) (hn0 : n ≠ 0) {x : Inode} {m : ℕ}
    (hrem : DirRemove s.part.vol (s.inodes parent) e v ino) (hv : p.vol = v.setInode m x) :
    BlocksOk p.vol (s.part.vol.inode n) ∧
      ¬ OwnsBlock p.vol.data (s.part.vol.inode n) p.sb.dataStartLba := by
  have hdirOk := h.dirOk_cell hq (by rwa [hd])
  have hsame := h.cache.same parent hq
  rw [hd] at hsame
  have hunt : Untouched s.part.vol v (s.part.vol.inode n) :=
    h.rep.contents.owned.untouched (ne_none_of_eq_some hdir)
      (hrem.ownerStep hdirOk.blocks hdirOk.table) hsame.iSectors hn hdn.symm
  have hgeo : p.vol.geometry = s.part.vol.geometry := by
    rw [hv]
    exact hrem.geometry
  rw [show p.sb.dataStartLba = s.part.vol.geometry.sb.dataStartLba from
    congrArg (fun g => g.sb.dataStartLba) hgeo, hv]
  refine ⟨(hunt.blocksOk (h.rep.contents.owned.blocks n hn)).congr rfl rfl fun _ _ => rfl, ?_⟩
  change ¬ OwnsBlock v.data _ _
  rw [hunt.ownsBlock_iff]
  exact h.rep.not_owns_start hn hn0

/-- The entry of `n` has been deleted from the directory in cell `parent`: the cache is in order,
and `n` can be released. -/
structure Deleted (s : FileSys) (r : ℕ → ℕ) (parent n : ℕ) (p : Partition) (ino : Inode) :
    Prop where
  cache : Cache { s.setInode parent ino with part := p } r
  geometry : p.vol.geometry = s.part.vol.geometry
  iNo : (p.vol.inode n).iNo = n
  blocks : BlocksOk p.vol (p.vol.inode n)
  start : ¬ OwnsBlock p.vol.data (p.vol.inode n) p.sb.dataStartLba

theorem FsOk.deleted (h : FsOk s t r) (hq : parent ∈ s.openInodes) (hd : (s.inodes parent).iNo = d)
    (hlt : d < 256) (hc : t.child d c = some n) (hdn : d ≠ n)
    (hrem : DirRemove s.part.vol (s.inodes parent) e v ino)
    (hv : p.vol = v.setInode (d % 256) ino.stored) : Deleted s r parent n p ino := by
  rw [Nat.mod_eq_of_lt hlt] at hv
  have hn := h.rep.wf.child_kind hc
  have hn0 : n ≠ 0 := h.rep.root ▸ h.rep.wf.child_ne_root hc
  have hino : ino.iNo = d := hrem.iNo.trans hd
  have hother : ∀ m, m ≠ d → p.vol.inode m = s.part.vol.inode m := fun m hm => by
    rw [hv, Volume.setInode_inode_of_ne _ _ hm, hrem.inode]
  obtain ⟨hB, hstart⟩ := h.blocks_kept hq hd (h.rep.wf.child_dir hc) hn hdn hn0 hrem hv
  rw [← hother n hdn.symm] at hB hstart
  refine ⟨?_, ?_, ?_, hB, hstart⟩
  · -- the cell of the parent and its slot have changed together
    refine h.cache.sync hq hrem.iNo hrem.iOpenCnts ?_ fun q' _ hm => hother _ (hino ▸ hm)
    rw [hino, hv, Volume.setInode_inode_self]
    exact (Inode.same_stored ino).symm
  · rw [hv]
    exact hrem.geometry
  · rw [hother n hdn.symm]
    exact h.rep.contents.iNo n hn

/-- **Removing a child**: its entry is deleted, and its inode released. -/
theorem FsOk.exists_removeChild (h : FsOk s t r) (hq : parent ∈ s.openInodes)
    (hd : (s.inodes parent).iNo = d) (hlt : d < 256) (hc : t.child d c = some n)
    (hleaf : ∀ c', t.child n c' = none) :
    ∃ p ino s' p', deleteDirEntry s.part (s.inodes parent) n = .ok (true, p, ino) ∧
      inodeRelease { s.setInode parent ino with part := p } n = .ok { s' with part := p' } ∧
      Removed s t r d c n s' p' := by
  obtain ⟨e, v, ino, p, hrun, he, hrem, hv⟩ := h.exists_deleteDirEntry hq hd hc
  have hdn : d ≠ n := fun hdn => by rw [hdn, hleaf] at hc; cases hc
  have hsame : (s.inodes parent).Same (s.part.vol.inode d) := by
    rw [← hd]
    exact h.cache.same parent hq
  have hdel := h.deleted hq hd hlt hc hdn hrem hv
  obtain ⟨s', p', v', hrel, hstep, hc', hrels, hv'⟩ := hdel.cache.exists_inodeRelease
    (h.layout.of_geometry hdel.geometry) (h.rep.contents.lt n (h.rep.wf.child_kind hc)) hdel.iNo
    hdel.blocks hdel.start
  refine ⟨p, ino, s', p', hrun, hrel, (frame_setInode s p hrem.iNo).trans hstep.frame, hc', ?_, ?_,
    fun m hm => ?_⟩
  · rw [Nat.mod_eq_of_lt hlt] at hv
    rw [hv']
    exact h.rep.remove hc hleaf hsame hrem he hv hrels
  · rw [hv']
    change v'.geometry = _
    rw [hrels.vol]
    exact hdel.geometry
  · rw [hv', hstep.part, Volume.drop, Volume.setInode_inode_of_ne _ _ hm]
    change v'.inode m = p.vol.inode m
    rw [hrels.vol]

/-- Once nobody holds the inode that has been removed, the invariant holds again. -/
theorem Removed.fsOk {s' s'' : FileSys} {r' : ℕ → ℕ} (hr : Removed s t r d c n s' p)
    (h : FsOk s t r) (hs : CacheStep s' s'') (hc : Cache s'' r')
    (hopen : ∀ q, 0 < r' q → q ∈ s.openInodes ∧ (s.inodes q).iNo ≠ n) :
    FsOk { s'' with part := p } (t.remove d c n) r' := by
  have hframe := hr.frame.trans hs.frame
  have hno : ∀ q ∈ s''.openInodes, q ∈ s.openInodes ∧ (s''.inodes q).iNo = (s.inodes q).iNo ∧
      (s''.inodes q).iNo ≠ n := fun q hq => by
    obtain ⟨hq', hn⟩ := hopen q ((hc.mem q).1 hq)
    have := hframe.iNo q (h.cache.lt_brk q hq')
    exact ⟨hq', this, by rwa [this]⟩
  refine ⟨h.layout.of_geometry hr.geometry, ?_, hr.rep, hc.withPart fun q hq => ?_,
    fun q hq => ?_, fun i q hq => ?_⟩
  · exact (congrArg Geometry.ndebug hr.geometry).trans h.ndebug
  · rw [hr.inode _ (hno q hq).2.2, hs.part]
    exact Inode.Same.refl _
  · obtain ⟨hq', heq, hne⟩ := hno q hq
    change (t.remove d c n).kind (s''.inodes q).iNo ≠ none
    rw [Tree.kind_remove_of_ne hne, heq]
    exact h.opened q hq'
  · change (s''.fileTable i).fdInode = some q at hq
    rw [hframe.fileTable] at hq
    exact (h.files i q hq).trans_le hframe.brk

end Remove

/-! ## `sys_unlink` -/

section Unlink

variable {s s' : FileSys} {t : Tree ℕ (List UInt8)} {r : ℕ → ℕ} {path : List UInt8} {n : ℕ}

theorem CacheStep.inFileTable_eq (hs : CacheStep s s') (h : FsOk s t r) (n : ℕ) :
    inFileTable s' n = inFileTable s n := by
  unfold inFileTable
  rw [hs.fileTable]
  congr 1
  funext i
  cases hq : (s.fileTable i).fdInode with
  | none => rfl
  | some q => simp only [hs.iNo (h.files i q hq)]

/-- How `sys_unlink` ends. It refuses what is not there, what is a directory, and what is open. -/
inductive Unlinked (s : FileSys) (t : Tree ℕ (List UInt8)) (r : ℕ → ℕ) (path : List UInt8) :
    Bool → FileSys → Prop
  | refused {s' : FileSys} (hs : CacheStep s s') (h : FsOk s' t r) : Unlinked s t r path false s'
  | removed {n : ℕ} {record : PathSearchRecord} {s₁ s₂ : FileSys} {found : Bool} {p : Partition}
      {ino : Inode} (hs : Searched s t r (t.resolve path) record s₁)
      (hf : (t.resolve path).found = some (n, .file)) (hfree : inFileTable s n = false)
      (hdelete : deleteDirEntry s₁.part (s₁.inodes (s₁.dirInode record.parentDir)) n =
        .ok (found, p, ino))
      (hrelease : inodeRelease
        { s₁.setInode (s₁.dirInode record.parentDir) ino with part := p } n = .ok s₂) :
      Unlinked s t r path true (dirClose s₂ record.parentDir)

theorem FsOk.unlinked (h : FsOk s t r) (hp : PathArg path) {uninit : Uninit} {done : Bool}
    (hrun : sysUnlink s uninit path = .ok (done, s')) : Unlinked s t r path done s' := by
  obtain ⟨record, s₁, hsearch, hs⟩ := h.search hp uninit
  obtain ⟨hstep, hclosed⟩ := hs.close h
  have htype := hs.type
  obtain ⟨_, -, hrun⟩ := bind_eq_ok.1 hrun
  rw [hsearch, ok_bind] at hrun
  obtain ⟨_, -, hrun⟩ := bind_eq_ok.1 hrun
  cases hf : (t.resolve path).found with
  | none =>
    rw [hf] at hrun
    obtain ⟨rfl, rfl⟩ := ok_pair hrun
    exact .refused hstep hclosed
  | some e =>
    obtain ⟨n, k⟩ := e
    rw [hf] at hrun htype
    dsimp only [Option.map_some] at hrun
    split at hrun
    · obtain ⟨rfl, rfl⟩ := ok_pair hrun
      exact .refused hstep hclosed
    rename_i hdir
    split at hrun
    · obtain ⟨rfl, rfl⟩ := ok_pair hrun
      exact .refused hstep hclosed
    rename_i hopen
    obtain ⟨⟨_, p, ino⟩, hdelete, hrun⟩ := bind_eq_ok.1 hrun
    obtain ⟨s₂, hrelease, rfl, rfl⟩ := bind_pair_eq_ok hrun
    cases k with
    | dir => exact absurd htype hdir
    | file =>
      rw [hs.step.inFileTable_eq h, Bool.not_eq_true] at hopen
      exact .removed hs hf hopen hdelete hrelease

/-- **`sys_unlink`** removes a file that is not open. -/
theorem FsOk.unlink_file (h : FsOk s t r) (hp : PathArg path) (uninit : Uninit)
    (hf : (t.resolve path).found = some (n, .file)) (hfree : inFileTable s n = false)
    {c : List UInt8} (hc : t.child (t.resolve path).dir c = some n)
    (hlt : (t.resolve path).dir < 256) :
    ∃ s', sysUnlink s uninit path = .ok (true, s') ∧ Frame s s' ∧
      Represents s'.part.vol (t.remove (t.resolve path).dir c n) ∧
      (findInode s n = none → FsOk s' (t.remove (t.resolve path).dir c n) r) := by
  obtain ⟨record, s₁, hrun, hs⟩ := h.search hp uninit
  have htype := hs.type
  rw [hf] at htype
  rw [hf, Option.map_some] at hrun
  have hk := h.kind_of_found hp hf
  have hn0 : n ≠ 0 := h.rep.root ▸ h.rep.wf.child_ne_root hc
  obtain ⟨p, ino, s₂, p', hdel, hrel, hrem⟩ := hs.ok.exists_removeChild hs.ok.cache.dirInode_mem
    hs.iNo hlt hc (h.rep.wf.child_eq_none (by rw [hk]; decide))
  refine ⟨{ dirClose s₂ record.parentDir with part := p' }, ?_, ?_, hrem.rep, fun hnone => ?_⟩
  · unfold sysUnlink
    rw [assert, if_pos hp.length_lt, ok_bind, hrun, ok_bind]
    dsimp only
    rw [assert, if_pos (by simpa using hn0), ok_bind, show record.fileType = .regular from htype,
      if_neg (by decide), (hs.step.inFileTable_eq h n).trans hfree, if_neg Bool.false_ne_true,
      hdel, ok_bind]
    dsimp only
    rw [hrel, ok_bind, dirClose_withPart]
    rfl
  · have hframe := (hs.step.frame.trans hrem.frame).trans
      (cacheStep_dirClose s₂ record.parentDir).frame
    exact ⟨hframe.rootInode, hframe.fileTable, hframe.fdTable, hframe.brk, hframe.iNo⟩
  · refine hrem.fsOk hs.ok (cacheStep_dirClose s₂ _) (hrem.cache.dirClose ?_) fun q hq => ?_
    · rw [hrem.frame.rootInode]
      exact hs.root_held h
    · have hq₁ := (h.cache.mem q).2 hq
      refine ⟨(hs.ok.cache.mem q).2 (hq.trans_le (le_holdDir r _ q)), ?_⟩
      rw [hs.step.iNo (h.cache.lt_brk q hq₁)]
      exact findInode_eq_none.1 hnone q hq₁

end Unlink

/-! ## `sys_rmdir` -/

section Rmdir

variable {s s' : FileSys} {t : Tree ℕ (List UInt8)} {r : ℕ → ℕ} {path : List UInt8} {n d : ℕ}
  {res : Tree.SearchResult} {record : PathSearchRecord} {done : Bool}

/-- A directory of size 48 has no entries besides `"."` and `".."`. -/
theorem Represents.child_eq_none {v : Volume} (h : Represents v t) (hn : t.kind n = some .dir)
    (hsize : (v.inode n).iSize = 48) (c : List UInt8) : t.child n c = none := by
  have hdir := h.dirOk hn
  by_contra hc
  obtain ⟨m, hm⟩ := Option.ne_none_iff_exists'.1 hc
  obtain ⟨-, hdot, hdotDot⟩ := h.names n c m hm
  have hname : ∀ x, t.entries n x ≠ none →
      x ∈ (liveEntries v.data (v.inode n)).map DirEntry.name := fun x hx => by
    obtain ⟨e, he, hname⟩ := hdir.holds.find x hx
    exact List.mem_map.2 ⟨e, he, hname⟩
  have hentry : ∀ x y, t.look n (stepOf x) = some y → t.entries n x ≠ none := fun x y hy => by
    rw [Ne, h.wf.entries_eq_none, hy]
    exact Option.some_ne_none _
  -- three different names in a list of length two
  have hsub : [dot, dotDot, c] ⊆ (liveEntries v.data (v.inode n)).map DirEntry.name := by
    intro x hx
    simp only [List.mem_cons, List.not_mem_nil, or_false] at hx
    rcases hx with rfl | rfl | rfl
    · exact hname _ (hentry _ _ (Tree.look_self hn))
    · exact hname _ (hentry _ _ (Tree.look_up hn))
    · refine hname _ (hentry _ m ?_)
      rw [Tree.stepOf_of_ne hdot hdotDot, Tree.look_down hn, hm]
  have hnd : [dot, dotDot, c].Nodup := by
    simp only [List.nodup_cons, List.mem_cons, List.not_mem_nil, or_false, not_or]
    exact ⟨⟨by decide, hdot.symm⟩, hdotDot.symm, not_false, List.nodup_nil⟩
  have hle := (List.subperm_of_subset hnd hsub).length_le
  have hsize' := hdir.size
  simp only [List.length_map, List.length_cons, List.length_nil] at hle
  omega

/-- An empty directory that the search finds under a name other than `"."` is a child of the
directory that it leaves open. -/
theorem FsOk.child_of_empty (h : FsOk s t r) (hp : PathArg path) (hn0 : n ≠ 0)
    (hlast : (components path).getLast? ≠ some dot)
    (hf : (t.resolve path).found = some (n, .dir)) (hleaf : ∀ c, t.child n c = none) :
    ∃ c, t.child (t.resolve path).dir c = some n := by
  unfold Tree.resolve at hf ⊢
  by_cases hr : isRootPath path = true
  · rw [if_pos hr] at hf
    exact absurd (Prod.mk.inj (Option.some.inj hf)).1.symm hn0
  rw [if_neg hr] at hf ⊢
  obtain ⟨-, hne⟩ := hp.resolve_left hr
  obtain ⟨init, c, -, -, -, hk, hfound, hend⟩ := @Tree.search_spec t (components path) 0 0
    h.rep.root_kind hne
  have hcs := hend n hf
  rw [hfound] at hf
  obtain ⟨hlook, hkn⟩ := Tree.entries_eq_some.1 hf
  refine ⟨c, ?_⟩
  cases hs : stepOf c with
  | self =>
    refine absurd ?_ hlast
    rw [← hcs, List.getLast?_concat]
    unfold stepOf at hs
    split at hs
    · rename_i hdot
      rw [hdot]
    · split at hs <;> cases hs
  | up =>
    -- a directory above another one is not empty
    rw [hs, Tree.look_up hk] at hlook
    set x := (t.search 0 0 (components path)).dir
    have hxroot : x ≠ t.root := fun hroot => by
      rw [hroot, h.rep.wf.root_parent, h.rep.root] at hlook
      exact hn0 (Option.some.inj hlook).symm
    obtain ⟨d', c', hc'⟩ := h.rep.wf.exists_child (ne_none_of_eq_some hk) hxroot
    rw [h.rep.wf.parent_eq hc' hk, Option.some.injEq] at hlook
    rw [hlook, hleaf] at hc'
    cases hc'
  | down c' =>
    obtain rfl := Tree.stepOf_eq_down hs
    rwa [hs, Tree.look_down hk] at hlook

/-- What `sys_rmdir` does: nothing, or it removes the directory that was found, which is empty. -/
inductive Rmdirs (s : FileSys) (t : Tree ℕ (List UInt8)) (r : ℕ → ℕ) (found : Option (ℕ × Kind)) :
    Bool → FileSys → Prop
  | refused {s' : FileSys} (hs : CacheStep s s') (h : FsOk s' t r) : Rmdirs s t r found false s'
  | removed {s' : FileSys} {d : ℕ} {c : List UInt8} {n : ℕ} (hs : Frame s s')
      (hf : found = some (n, .dir)) (hc : t.child d c = some n) (hleaf : ∀ c', t.child n c' = none)
      (h : FsOk s' (t.remove d c n) r) : Rmdirs s t r found true s'

/-- The parent directory is still open when the directory itself has been opened. -/
theorem Searched.parent_open {s₁ s₂ : FileSys} {q : ℕ} (hs : Searched s t r res record s₁)
    (hstep : CacheStep s₁ s₂) (h₂ : FsOk s₂ t (hold (holdDir r record.parentDir) q)) :
    s₂.dirInode record.parentDir ∈ s₂.openInodes ∧
      (s₂.inodes (s₂.dirInode record.parentDir)).iNo = res.dir := by
  constructor
  · refine Cache.dirInode_mem (r := hold r q) ?_
    rw [← hold_holdDir]
    exact h₂.cache
  · rw [← hs.iNo, show s₂.dirInode record.parentDir = s₁.dirInode record.parentDir from
      hstep.dirInode_eq _, hstep.iNo (hs.ok.cache.lt_brk _ hs.ok.cache.dirInode_mem)]

/-- How `sys_rmdir` ends. It refuses what is not there, a file, and a directory with entries. -/
inductive RmdirEnds (s : FileSys) (t : Tree ℕ (List UInt8)) (r : ℕ → ℕ) (path : List UInt8) :
    Bool → FileSys → Prop
  | refused {s' : FileSys} (hs : CacheStep s s') (h : FsOk s' t r)
      (hfull : ∀ n, (t.resolve path).found = some (n, .dir) →
        dirIsEmpty (s.part.vol.inode n) = false) : RmdirEnds s t r path false s'
  | removed {n q : ℕ} {record : PathSearchRecord} {s₁ s₂ s₃ : FileSys} {found : Bool}
      {p : Partition} {ino : Inode} (hs : Searched s t r (t.resolve path) record s₁)
      (hstep : CacheStep s₁ s₂) (h₂ : FsOk s₂ t (hold (holdDir r record.parentDir) q))
      (hf : (t.resolve path).found = some (n, .dir)) (hn0 : n ≠ 0)
      (hempty : dirIsEmpty (s.part.vol.inode n) = true)
      (hdelete : deleteDirEntry s₂.part (s₂.inodes (s₂.dirInode record.parentDir)) n =
        .ok (found, p, ino))
      (hrelease : inodeRelease
        { s₂.setInode (s₂.dirInode record.parentDir) ino with part := p } n = .ok s₃) :
      RmdirEnds s t r path true (dirClose (dirClose s₃ (.heap q)) record.parentDir)

theorem FsOk.rmdirEnds (h : FsOk s t r) (hp : PathArg path) {uninit : Uninit}
    (hrun : sysRmdir s uninit path = .ok (done, s')) : RmdirEnds s t r path done s' := by
  obtain ⟨record, s₁, hsearch, hs⟩ := h.search hp uninit
  obtain ⟨hstep₁, hclosed⟩ := hs.close h
  have htype := hs.type
  unfold sysRmdir at hrun
  rw [hsearch, ok_bind] at hrun
  obtain ⟨_, hassert, hrun⟩ := bind_eq_ok.1 hrun
  have h0 := assert_eq_ok.1 hassert
  cases hf : (t.resolve path).found with
  | none =>
    rw [hf] at hrun
    obtain ⟨rfl, rfl⟩ := ok_pair hrun
    exact .refused hstep₁ hclosed fun n hn => by rw [hf] at hn; cases hn
  | some e =>
    obtain ⟨n, k⟩ := e
    rw [hf] at hrun htype h0
    dsimp only [Option.map_some] at hrun
    cases k with
    | file =>
      rw [if_pos (show record.fileType = .regular from htype)] at hrun
      obtain ⟨rfl, rfl⟩ := ok_pair hrun
      exact .refused hstep₁ hclosed fun n hn => by rw [hf] at hn; cases hn
    | dir =>
      rw [show record.fileType = .directory from htype, if_neg (by decide)] at hrun
      have hk := h.kind_of_found hp hf
      obtain ⟨q, s₂, hopen, hstep, h₂, hno, -⟩ := hs.ok.open_dirInode (ne_none_of_eq_some hk)
      have hstep₂ := hs.step.trans hstep
      -- the directory in memory has as many entries as the one on disk
      have hsize : dirIsEmpty (s₂.inodes q) = dirIsEmpty (s.part.vol.inode n) := by
        have hsame := (h₂.same (hold_pos.2 (Or.inl rfl))).iSize
        rw [hno, hstep₂.part] at hsame
        unfold dirIsEmpty
        rw [hsame]
      rw [hopen, ok_bind] at hrun
      change (if dirIsEmpty (s₂.inodes q) = true then _ else _) = _ at hrun
      rw [hsize] at hrun
      by_cases hempty : dirIsEmpty (s.part.vol.inode n) = true
      · rw [if_pos hempty] at hrun
        obtain ⟨s₃, hremove, rfl, rfl⟩ := bind_pair_eq_ok hrun
        obtain ⟨_, -, hremove⟩ := bind_eq_ok.1 hremove
        obtain ⟨⟨found, p, ino⟩, hdelete, hrelease⟩ := bind_eq_ok.1 hremove
        change deleteDirEntry s₂.part (s₂.inodes (s₂.dirInode record.parentDir))
          (s₂.inodes q).iNo = _ at hdelete
        change inodeRelease { s₂.setInode (s₂.dirInode record.parentDir) ino with part := p }
          (s₂.inodes q).iNo = _ at hrelease
        rw [hno] at hdelete hrelease
        exact .removed hs hstep h₂ hf (fun hn => h0 (by rw [hn]; rfl)) hempty hdelete hrelease
      · rw [if_neg hempty] at hrun
        obtain ⟨rfl, rfl⟩ := ok_pair hrun
        have h₃ := h₂.close_inode (q := q) (by
          rw [hstep₂.rootInode]
          exact h.root_held.trans_le (le_holdDir r _ _))
        have hstep₃ := hstep₂.trans (cacheStep_inodeClose s₂ q)
        refine .refused (hstep₃.trans (cacheStep_dirClose _ _))
          (h₃.close_dir (by rw [hstep₃.rootInode]; exact h.root_held)) fun m hm => ?_
        obtain ⟨rfl, -⟩ := Prod.mk.inj (Option.some.inj (hf.symm.trans hm))
        exact Bool.eq_false_iff.2 hempty

/-- **`sys_rmdir`** removes an empty directory, if it is not open and the path does not end in
`"."`. -/
theorem FsOk.rmdir (h : FsOk s t r) (hp : PathArg path) {uninit : Uninit}
    (hlast : (components path).getLast? ≠ some dot) (hlt : (t.resolve path).dir < 256)
    (hopen : ∀ n, n ≠ 0 → (t.resolve path).found = some (n, .dir) → (∀ c, t.child n c = none) →
      findInode s n = none) (hrun : sysRmdir s uninit path = .ok (done, s')) :
    Rmdirs s t r (t.resolve path).found done s' := by
  cases h.rmdirEnds hp hrun with
  | refused hs h' _ => exact .refused hs h'
  | @removed n q record s₁ s₂ s₃ _ p ino hs hstep h₂ hf hn0 hempty hdelete hrelease =>
    have hstep₂ := hs.step.trans hstep
    have hheld : ∀ q, 0 < r q → 0 < holdDir r record.parentDir q := fun q hq =>
      hq.trans_le (le_holdDir r _ q)
    -- the directory is a leaf of the tree
    have hleaf := h.rep.child_eq_none (h.kind_of_found hp hf) (of_decide_eq_true hempty)
    obtain ⟨c, hc⟩ := h.child_of_empty hp hn0 hlast hf hleaf
    -- its parent is open, and its entry can be deleted
    obtain ⟨hmem, hpno⟩ := hs.parent_open hstep h₂
    obtain ⟨p₁, ino₁, s₄, p', hdelete', hrelease', hrem⟩ :=
      h₂.exists_removeChild hmem hpno hlt hc hleaf
    obtain ⟨-, rfl, rfl⟩ := ok_triple (hdelete.symm.trans hdelete')
    obtain rfl := Except.ok.inj (hrelease.symm.trans hrelease')
    rw [dirClose_withPart s₄ p' (.heap q),
      dirClose_withPart (dirClose s₄ (.heap q)) p' record.parentDir]
    have hroot₄ : 0 < r s₄.rootInode := by
      rw [hrem.frame.rootInode]
      rw [hstep₂.rootInode]
      exact h.root_held
    have hc₅ : Cache (dirClose s₄ (.heap q)) (holdDir r record.parentDir) :=
      Cache.close hrem.cache (hheld _ hroot₄)
    have hc₆ := hc₅.dirClose (r := r) (by rw [(cacheStep_dirClose s₄ _).rootInode]; exact hroot₄)
    have hstep₆ := (cacheStep_dirClose s₄ (.heap q)).trans
      (cacheStep_dirClose (dirClose s₄ (.heap q)) record.parentDir)
    have hframe := (hstep₂.frame.trans hrem.frame).trans hstep₆.frame
    refine .removed ⟨hframe.rootInode, hframe.fileTable, hframe.fdTable, hframe.brk, hframe.iNo⟩ hf
      hc hleaf (hrem.fsOk h₂ hstep₆ hc₆ fun q' hq' => ?_)
    have hq := (h.cache.mem q').2 hq'
    refine ⟨(h₂.cache.mem q').2 (hold_pos.2 (Or.inr (hheld q' hq'))), ?_⟩
    rw [hstep₂.iNo (h.cache.lt_brk q' hq)]
    exact findInode_eq_none.1 (hopen n hn0 hf hleaf) q' hq

end Rmdir

end Gardos.Fs
