import Gardos.Fs.Safety

/-!
# What a path names

`ResolvesPath` is what one expects of the calls that take a path: they act on the object that is
reached by walking all components of the path from the root. `pathResolution_iff` says for which
paths they do. Three things can go wrong:

* the path consists of slashes, and `search_file` returns a number it has not initialised;
* a regular file stands in the middle of the path, and `search_file` returns that file;
* `sys_unlink` changes a directory whose number does not fit in a byte.
-/

namespace Gardos.Fs

open Bytes Outcome Function

/-! ## Directories with large numbers -/

section Large

variable {s s' : FileSys} {t : Tree ℕ (List UInt8)} {r : ℕ → ℕ} {path c : List UInt8} {n : ℕ}

/-- The inode of a child that `inode_release` opens, after its entry has been deleted. -/
theorem FsOk.inodeOpen_child (h : FsOk s t r) {parent d : ℕ} (hq : parent ∈ s.openInodes)
    (hd : (s.inodes parent).iNo = d) (hdn : d ≠ n) (hn : t.kind n ≠ none) {p : Partition}
    {ino : Inode} (hino : ino.iNo = d)
    (hp : ∀ m, m ≠ d % 256 → p.vol.inode m = s.part.vol.inode m)
    (hcut : p.vol.inode (d % 256) = ino.stored) {s₂ : FileSys}
    (hrel : inodeRelease { s.setInode parent ino with part := p } n = .ok s₂) :
    ∃ q s₁, inodeOpen { s.setInode parent ino with part := p } n = .ok (q, s₁) ∧ s₁.part = p ∧
      (s₁.inodes q).iNo = n ∧
      ∀ k < 13, (s₁.inodes q).iSectors k = (s.part.vol.inode n).iSectors k := by
  have hlt := h.rep.contents.lt n hn
  cases hfind : findInode { s.setInode parent ino with part := p } n with
  | some q =>
    -- it is open already, in a cell that the deletion has not touched
    obtain ⟨hq', hno⟩ := findInode_eq_some hfind
    change ((s.setInode parent ino).inodes q).iNo = n at hno
    have hne : q ≠ parent := by
      rintro rfl
      rw [FileSys.setInode_inodes_self] at hno
      exact hdn (hino.symm.trans hno)
    rw [FileSys.setInode_inodes_of_ne _ _ hne] at hno
    have hsame := h.cache.same q hq'
    rw [hno] at hsame
    have hcell : (shareInode { s.setInode parent ino with part := p } q).inodes q =
        { s.inodes q with iOpenCnts := (s.inodes q).iOpenCnts + 1 } := by
      rw [shareInode, FileSys.setInode_inodes_self]
      change { (s.setInode parent ino).inodes q with
        iOpenCnts := ((s.setInode parent ino).inodes q).iOpenCnts + 1 } = _
      rw [FileSys.setInode_inodes_of_ne _ _ hne]
    refine ⟨q, _, inodeOpen_of_some hfind, rfl, ?_, fun k hk => ?_⟩
    · rw [hcell]
      exact hno
    · rw [hcell]
      exact hsame.iSectors k hk
  | none =>
    have hopen := inodeOpen_of_none hlt hfind
    have hcell : ∀ s : FileSys, (loadInode s n).inodes s.brk =
        { slot s.part n with iOpenCnts := 1 } := fun s => update_self ..
    have hno := iNo_of_inodeRelease hopen hrel
    refine ⟨_, _, hopen, rfl, hno, fun k hk => ?_⟩
    rw [hcell] at hno ⊢
    change (slot p n).iNo = n at hno
    change (slot p n).iSectors k = _
    rw [← Partition.vol_inode hlt] at hno ⊢
    rw [hp n fun hcut' => hdn ?_]
    rw [hcut', hcut] at hno
    exact hino.symm.trans (hno.trans hcut'.symm)

/-- `sys_unlink` does not store the inode of a directory with a large number. -/
theorem FsOk.unlink_inode_of_le (h : FsOk s t r) (hp : PathArg path) {uninit : Uninit}
    (hf : (t.resolve path).found = some (n, .file))
    (hc : t.child (t.resolve path).dir c = some n) (hge : 256 ≤ (t.resolve path).dir)
    {done : Bool} (hrun : sysUnlink s uninit path = .ok (done, s')) :
    s'.part.vol.inode (t.resolve path).dir = s.part.vol.inode (t.resolve path).dir := by
  cases h.unlinked hp hrun with
  | refused hs _ => rw [hs.part]
  | @removed n' record s₁ s₂ _ p ino hs hf' _ hdelete hrelease =>
    obtain rfl : n = n' := congrArg Prod.fst (Option.some.inj (hf.symm.trans hf'))
    set d := (t.resolve path).dir
    have hk := h.kind_of_found hp hf
    have hn := ne_none_of_eq_some hk
    have hn0 : n ≠ 0 := h.rep.root ▸ h.rep.wf.child_ne_root hc
    have hdk := h.rep.wf.child_dir hc
    have hdn : d ≠ n := fun hdn => by rw [hdn, hk] at hdk; cases hdk
    have hmem := hs.ok.cache.dirInode_mem
    obtain ⟨e, v, ino', p', hdelete', he, hrem, hv⟩ := hs.ok.exists_deleteDirEntry hmem hs.iNo hc
    obtain ⟨-, rfl, rfl⟩ := ok_triple (hdelete.symm.trans hdelete')
    have hother : ∀ m, m ≠ d % 256 → p.vol.inode m = s₁.part.vol.inode m := fun m hm => by
      rw [hv, Volume.setInode_inode_of_ne _ _ hm, hrem.inode]
    obtain ⟨q, s₃, hopen, hpart, hno, hsec⟩ := hs.ok.inodeOpen_child hmem hs.iNo hdn hn
      (hrem.iNo.trans hs.iNo) hother (by rw [hv, Volume.setInode_inode_self]) hrelease
    obtain ⟨hB, hstart⟩ := hs.ok.blocks_kept hmem hs.iNo hdk hn hdn hn0 hrem hv
    have hgeo : p.vol.geometry = s₁.part.vol.geometry := by
      rw [hv]
      exact hrem.geometry
    obtain ⟨p₁, v₁, hrel, hrels, hv₁⟩ := inodeRelease_of_open hopen hpart hno
      (hs.ok.layout.of_geometry hgeo) (h.rep.contents.lt n hn)
      (hB.congr rfl (hsec 12 (by omega)) fun _ _ => allBlocks_congr hsec fun _ => rfl)
      (by rwa [OwnsBlock.of_same hsec])
    rw [hrel] at hrelease
    obtain rfl := Except.ok.inj hrelease
    rw [(cacheStep_dirClose _ _).part]
    change p₁.vol.inode d = _
    rw [hv₁, Volume.drop, Volume.setInode_inode_of_ne _ _ hdn]
    change v₁.inode d = _
    rw [hrels.vol]
    change p.vol.inode d = _
    rw [hother d (by omega), hs.step.part]

/-- So the volume does not hold the tree without the file. -/
theorem FsOk.not_represents_of_le (h : FsOk s t r) (hp : PathArg path) {uninit : Uninit}
    (hf : (t.resolve path).found = some (n, .file))
    (hc : t.child (t.resolve path).dir c = some n) (hge : 256 ≤ (t.resolve path).dir)
    {done : Bool} (hrun : sysUnlink s uninit path = .ok (done, s')) :
    ¬ Represents s'.part.vol (t.remove (t.resolve path).dir c n) := by
  intro hrep
  have hino := h.unlink_inode_of_le hp hf hc hge hrun
  set d := (t.resolve path).dir
  have hk := h.kind_of_found hp hf
  have hdk := h.rep.wf.child_dir hc
  have hdn : d ≠ n := fun hdn => by rw [hdn, hk] at hdk; cases hdk
  obtain ⟨-, hdot, hdotDot⟩ := h.rep.names d c n hc
  have hdir := h.rep.dirOk hdk
  have hdir' := hrep.dirOk (d := d) (by rwa [Tree.kind_remove_of_ne hdn])
  rw [h.rep.wf.entries_remove hc (h.rep.wf.child_eq_none (by rw [hk]; decide)) hdot hdotDot hdk hdn,
    if_pos rfl, hino] at hdir'
  have hlt := hdir.holds.length_lt hdir'.holds (c := c) (fun c' hc' => ?_) ?_
    (update_self ..)
  · have h1 := hdir.size
    have h2 := hdir'.size
    omega
  · by_cases hcc : c' = c
    · rw [hcc, update_self] at hc'
      exact absurd rfl hc'
    · rwa [update_of_ne hcc] at hc'
  · rw [Ne, h.rep.wf.entries_eq_none, Tree.stepOf_of_ne hdot hdotDot, Tree.look_down hdk, hc]
    exact Option.some_ne_none _

end Large

/-! ## What the calls should do -/

/-- The object that a path names: all its components are walked, from the root. -/
def walkPath (t : Tree ℕ (List UInt8)) (path : List UInt8) : Option ℕ :=
  t.walk 0 ((components path).map stepOf)

/-- The path names the file `n`: its last component is `c`, the ones before it lead to the
directory `d`, and `n` is the child `c` of `d`. -/
structure NamesFile (t : Tree ℕ (List UInt8)) (path : List UInt8) (d : ℕ) (c : List UInt8) (n : ℕ) :
    Prop where
  last : ∃ init, components path = init ++ [c] ∧ t.walk 0 (init.map stepOf) = some d
  child : t.child d c = some n
  file : t.kind n = some .file

/-- The calls act on the object that the whole path names. -/
structure ResolvesPath (s : FileSys) (t : Tree ℕ (List UInt8)) (path : List UInt8) : Prop where
  /-- `search_file` returns its number, its type, and the directory of its last component. -/
  search : ∀ uninit, ∃ res record s', searchFile s uninit path = .ok (res, record, s') ∧
    (∀ i, res = some i ↔ walkPath t path = some i) ∧
    ∀ i, res = some i → (t.kind i).map Kind.type = some record.fileType ∧
      t.walk 0 ((components path).dropLast.map stepOf) =
        some (s'.inodes (s'.dirInode record.parentDir)).iNo
  stat : ∀ uninit, ∃ s', sysStat s uninit path = .ok ((walkPath t path).bind fun n =>
    (t.kind n).map fun k => { stIno := n, stSize := (s.part.vol.inode n).iSize,
                              stFiletype := Kind.type k }, s')
  opendir : ∀ uninit, ∃ dir s', sysOpendir s uninit path = .ok (dir, s') ∧
    dir.map (fun dir => (s'.inodes (s'.dirInode dir)).iNo) =
      (walkPath t path).filter fun n => t.kind n = some .dir
  chdir : ∀ uninit, ∃ s', sysChdir s uninit path =
    .ok ((walkPath t path).filter fun n => t.kind n = some .dir, s')
  /-- `sys_unlink` removes a file that is not open, and nothing else. -/
  unlink : ∀ d c n, NamesFile t path d c n → inFileTable s n = false → ∀ uninit,
    ∃ s', sysUnlink s uninit path = .ok (true, s') ∧ Represents s'.part.vol (t.remove d c n)
  unlink_only : ∀ uninit s', sysUnlink s uninit path = .ok (true, s') →
    ∃ d c n, NamesFile t path d c n ∧ Represents s'.part.vol (t.remove d c n)
  unlink_not : ∀ uninit s', sysUnlink s uninit path = .ok (false, s') → s'.part = s.part

section Resolve

variable {s : FileSys} {t : Tree ℕ (List UInt8)} {r : ℕ → ℕ} {path : List UInt8}

theorem resolve_of_not_root (hr : isRootPath path = false) :
    t.resolve path = t.search 0 0 (components path) := by
  unfold Tree.resolve
  rw [hr, if_neg Bool.false_ne_true]

theorem FsOk.found_eq (h : FsOk s t r) (hr : isRootPath path = false)
    (hmid : ¬ t.FileMidway 0 (components path)) : (t.resolve path).found =
      (walkPath t path).bind fun n => (t.kind n).map fun k => (n, k) := by
  rw [resolve_of_not_root hr]
  exact Tree.search_found_eq h.rep.wf h.rep.root_kind hmid

/-- Where the file that a path names is found. -/
theorem FsOk.exists_last (h : FsOk s t r) (hr : isRootPath path = false)
    (hne : components path ≠ []) (hmid : ¬ t.FileMidway 0 (components path)) {e : ℕ × Kind}
    (hf : (t.resolve path).found = some e) :
    ∃ init c, components path = init ++ [c] ∧
      t.walk 0 (init.map stepOf) = some (t.resolve path).dir ∧
      t.kind (t.resolve path).dir = some .dir ∧ t.entries (t.resolve path).dir c = some e := by
  rw [resolve_of_not_root hr] at hf ⊢
  exact Tree.exists_search_last h.rep.wf h.rep.root_kind hne hmid hf

theorem FsOk.namesFile_of_found (h : FsOk s t r) (hr : isRootPath path = false)
    (hne : components path ≠ []) (hmid : ¬ t.FileMidway 0 (components path)) {n : ℕ}
    (hf : (t.resolve path).found = some (n, .file)) :
    ∃ c, NamesFile t path (t.resolve path).dir c n := by
  obtain ⟨init, c, hcs, hwalk, hk, he⟩ := h.exists_last hr hne hmid hf
  exact ⟨c, ⟨init, hcs, hwalk⟩, (h.rep.wf.child_of_entries hk he).2.2,
    (Tree.entries_eq_some.1 he).2⟩

theorem FsOk.found_of_namesFile (h : FsOk s t r) (hr : isRootPath path = false)
    (hmid : ¬ t.FileMidway 0 (components path)) {d n : ℕ} {c : List UInt8}
    (hn : NamesFile t path d c n) :
    (t.resolve path).found = some (n, .file) ∧ (t.resolve path).dir = d := by
  obtain ⟨⟨init, hcs, hwalk⟩, hc, hk⟩ := hn
  obtain ⟨-, hdot, hdotDot⟩ := h.rep.names d c n hc
  have hd := h.rep.wf.child_dir hc
  have hfound : (t.resolve path).found = some (n, .file) := by
    rw [h.found_eq hr hmid, walkPath, hcs, List.map_append, Tree.walk_append, hwalk,
      Option.bind_some, List.map_singleton, Tree.walk, Tree.stepOf_of_ne hdot hdotDot,
      Tree.look_down hd, hc]
    change (t.kind n).map _ = _
    rw [hk]
    rfl
  refine ⟨hfound, ?_⟩
  obtain ⟨init', c', hcs', hwalk', -, -⟩ := h.exists_last hr (by rw [hcs]; simp) hmid hfound
  obtain ⟨rfl, -⟩ := List.append_inj' (hcs'.symm.trans hcs) rfl
  exact Option.some.inj (hwalk'.symm.trans hwalk)

/-- A path without a component: the number is the one found in `dir_e`. -/
theorem searchFile_of_no_component (h : FsOk s t r) (hp : PathOk path)
    (hr : isRootPath path = false) (hne : components path = []) (uninit : Uninit) :
    ∃ record s', searchFile s uninit path = .ok (retNo uninit.iNo, record, s') := by
  obtain ⟨c, sub, hparse, -, hcomp, -, -, -⟩ := exists_pathParse path
  have hc : c = [] := by
    by_contra hc
    rw [hne, if_neg hc] at hcomp
    cases hcomp
  subst hc
  have hlen : 1 < path.length := by
    obtain ⟨tail, rfl⟩ : ∃ tail, path = slash :: tail := List.head?_eq_some_iff.1 hp.head
    cases tail with
    | nil => exact Bool.noConfusion hr
    | cons => simp
  obtain ⟨q, s', hopen, -⟩ := h.rep.dirTree.exists_dirOpen h.cache
    (ne_none_of_eq_some h.rep.root_kind)
  refine ⟨{ searchedPath := [], parentDir := .heap q, fileType := .directory }, s', ?_⟩
  unfold searchFile
  rw [hr, if_neg Bool.false_ne_true, assert, if_pos ⟨hp.head, hlen, hp.length_lt⟩, ok_bind, hparse]
  dsimp only
  rw [access, if_pos (by decide), ok_bind]
  unfold searchLoop
  rw [if_pos rfl]
  change (dirOpen s 0 >>= fun x => _) = _
  rw [hopen]
  rfl

/-! ## When they do it -/

/-- The three conditions under which a path is resolved as it should be. -/
structure Resolvable (s : FileSys) (t : Tree ℕ (List UInt8)) (path : List UInt8) : Prop where
  component : components path ≠ []
  midway : ¬ t.FileMidway 0 (components path)
  small : ∀ d c n, NamesFile t path d c n → inFileTable s n = false → d < 256

/-- What `sys_unlink` does under these conditions. -/
theorem FsOk.unlink_of_resolvable (h : FsOk s t r) (hp : PathOk path) (hr : isRootPath path = false)
    (hc : Resolvable s t path) {d n : ℕ} {c : List UInt8} (hn : NamesFile t path d c n)
    (hfree : inFileTable s n = false) (uninit : Uninit) :
    ∃ s', sysUnlink s uninit path = .ok (true, s') ∧ Represents s'.part.vol (t.remove d c n) := by
  obtain ⟨hf, hd⟩ := h.found_of_namesFile hr hc.midway hn
  have hchild := hn.child
  have hlt := hc.small d c n hn hfree
  rw [← hd] at hchild hlt ⊢
  obtain ⟨s', hrun, -, hrep, -⟩ := h.unlink_file (Or.inr ⟨hp, hc.component⟩) uninit hf hfree
    hchild hlt
  exact ⟨s', hrun, hrep⟩

/-- If `sys_unlink` returns, it removes the file that the path names or leaves the disk alone. -/
theorem FsOk.unlink_cases (h : FsOk s t r) (hp : PathOk path) (hr : isRootPath path = false)
    (hc : Resolvable s t path) {uninit : Uninit} {done : Bool} {s' : FileSys}
    (hrun : sysUnlink s uninit path = .ok (done, s')) :
    (done = true ∧ ∃ d c n, NamesFile t path d c n ∧ Represents s'.part.vol (t.remove d c n)) ∨
      done = false ∧ s'.part = s.part := by
  have hp' : PathArg path := Or.inr ⟨hp, hc.component⟩
  cases h.unlinked hp' hrun with
  | refused hs _ => exact Or.inr ⟨rfl, hs.part⟩
  | @removed n _ _ _ _ _ _ _ hf hfree _ _ =>
    obtain ⟨c, hn⟩ := h.namesFile_of_found hr hc.component hc.midway hf
    obtain ⟨s₁, hrun₁, hrep⟩ := h.unlink_of_resolvable hp hr hc hn hfree uninit
    rw [hrun₁] at hrun
    obtain rfl := (ok_pair hrun).2
    exact Or.inl ⟨rfl, _, c, n, hn, hrep⟩

theorem FsOk.search_of_resolvable (h : FsOk s t r) (hp : PathOk path)
    (hr : isRootPath path = false) (hc : Resolvable s t path) (uninit : Uninit) :
    ∃ res record s', searchFile s uninit path = .ok (res, record, s') ∧
      (∀ i, res = some i ↔ walkPath t path = some i) ∧
      ∀ i, res = some i → (t.kind i).map Kind.type = some record.fileType ∧
        t.walk 0 ((components path).dropLast.map stepOf) =
          some (s'.inodes (s'.dirInode record.parentDir)).iNo := by
  have hfound := h.found_eq hr hc.midway
  obtain ⟨record, s', hrun, hs⟩ := h.search (Or.inr ⟨hp, hc.component⟩) uninit
  refine ⟨_, record, s', hrun, fun i => ?_, fun i hi => ?_⟩
  · rw [hfound]
    cases hw : walkPath t path with
    | none => exact Iff.rfl
    | some n =>
      obtain ⟨k, hk⟩ := Option.ne_none_iff_exists'.1 (h.rep.wf.kind_of_walk
        (by rw [h.rep.root_kind]; exact Option.some_ne_none _) hw)
      rw [Option.bind_some, hk]
      exact Iff.rfl
  · obtain ⟨⟨n, k⟩, hf, rfl⟩ := Option.map_eq_some_iff.1 hi
    obtain ⟨init, c, hcs, hwalk, -, he⟩ := h.exists_last hr hc.component hc.midway hf
    refine ⟨?_, ?_⟩
    · change (t.kind n).map _ = _
      rw [(Tree.entries_eq_some.1 he).2, hs.type, hf]
      rfl
    · rw [hcs, List.dropLast_concat, hwalk, hs.iNo]

theorem FsOk.resolvesPath (h : FsOk s t r) (hp : PathOk path) (hr : isRootPath path = false)
    (hc : Resolvable s t path) : ResolvesPath s t path := by
  have hfound := h.found_eq hr hc.midway
  have harg : PathArg path := Or.inr ⟨hp, hc.component⟩
  have hkind : ∀ n, walkPath t path = some n → ∃ k, t.kind n = some k := fun n hw =>
    Option.ne_none_iff_exists'.1 (h.rep.wf.kind_of_walk
      (by rw [h.rep.root_kind]; exact Option.some_ne_none _) hw)
  refine ⟨h.search_of_resolvable hp hr hc, fun uninit => ?_, fun uninit => ?_, fun uninit => ?_,
    fun d c n => h.unlink_of_resolvable hp hr hc, fun uninit s' hrun => ?_,
    fun uninit s' hrun => ?_⟩
  · obtain ⟨s', hrun, -⟩ := h.stat harg uninit
    refine ⟨s', ?_⟩
    rw [hrun, hfound]
    cases hw : walkPath t path with
    | none => rfl
    | some n =>
      obtain ⟨k, hk⟩ := hkind n hw
      rw [Option.bind_some, Option.bind_some, hk]
      rfl
  · obtain ⟨dir, s', hrun, -, hdir⟩ := h.opendir harg
      (by rintro rfl; exact Bool.noConfusion hr) uninit
    refine ⟨dir, s', hrun, ?_⟩
    rw [hfound] at hdir
    cases hw : walkPath t path with
    | none =>
      rw [hw] at hdir
      rw [hdir.1]
      rfl
    | some n =>
      obtain ⟨k, hk⟩ := hkind n hw
      rw [hw, Option.bind_some, hk] at hdir
      cases k with
      | file =>
        rw [hdir.1]
        simp [Option.filter, hk]
      | dir =>
        obtain ⟨q, rfl, hno, -⟩ := hdir
        simp [Option.filter, hk, FileSys.dirInode, hno]
  · obtain ⟨s', hrun, -⟩ := h.chdir harg uninit
    refine ⟨s', ?_⟩
    rw [hrun, hfound]
    cases hw : walkPath t path with
    | none => rfl
    | some n =>
      obtain ⟨k, hk⟩ := hkind n hw
      rw [Option.bind_some, hk]
      cases k <;> simp [Option.filter, hk]
  · exact (h.unlink_cases hp hr hc hrun).elim (fun h => h.2) fun h => Bool.noConfusion h.1
  · exact (h.unlink_cases hp hr hc hrun).elim (fun h => Bool.noConfusion h.1) fun h => h.2

/-- Each condition is needed. -/
theorem ResolvesPath.resolvable (hres : ResolvesPath s t path) (h : FsOk s t r) (hp : PathOk path)
    (hr : isRootPath path = false) : Resolvable s t path := by
  have hne : components path ≠ [] := fun hne => by
    obtain ⟨record, s', hrun⟩ := searchFile_of_no_component h hp hr hne ⟨1, false⟩
    obtain ⟨res, record', s'', hrun', hiff, -⟩ := hres.search ⟨1, false⟩
    rw [hrun] at hrun'
    obtain ⟨rfl, -⟩ := ok_pair hrun'
    have := (hiff 1).1 rfl
    rw [walkPath, hne] at this
    cases this
  have hmid : ¬ t.FileMidway 0 (components path) := fun hmid => by
    obtain ⟨⟨n, hf⟩, -⟩ := (@Tree.fileMidway_iff t h.rep.wf _ 0 0 h.rep.root_kind).1 hmid
    obtain ⟨record, s', hrun, -⟩ := h.search (Or.inr ⟨hp, hne⟩) ⟨0, false⟩
    obtain ⟨res, record', s'', hrun', hiff, -⟩ := hres.search ⟨0, false⟩
    rw [hrun, resolve_of_not_root hr, hf] at hrun'
    obtain ⟨rfl, -⟩ := ok_pair hrun'
    obtain ⟨pre, suf, m, hcs, hsuf, hwalk, hm⟩ := hmid
    have := (hiff n).1 rfl
    rw [walkPath, hcs, List.map_append, Tree.walk_append, hwalk, Option.bind_some,
      Tree.walk_of_file hm (by simpa using hsuf)] at this
    cases this
  refine ⟨hne, hmid, fun d c n hn hfree => ?_⟩
  by_contra hlt
  obtain ⟨hf, hd⟩ := h.found_of_namesFile hr hmid hn
  obtain ⟨s', hrun, hrep⟩ := hres.unlink d c n hn hfree ⟨0, false⟩
  have hchild := hn.child
  rw [← hd] at hchild hlt hrep
  exact h.not_represents_of_le (Or.inr ⟨hp, hne⟩) hf hchild (not_lt.1 hlt) hrun hrep

/-- **Path resolution.** On every well-formed tree, the calls act on the object that the whole path
names exactly if the path has a component, has no regular file in a middle position, and, for a
file that `sys_unlink` removes, the number of its directory fits in a byte. -/
theorem pathResolution_iff (s : FileSys) (t : Tree ℕ (List UInt8)) (r : ℕ → ℕ) (h : FsOk s t r)
    (path : List UInt8) (hp : PathOk path) (hr : isRootPath path = false) :
    ResolvesPath s t path ↔ Resolvable s t path :=
  ⟨fun hres => hres.resolvable h hp hr, h.resolvesPath hp hr⟩

end Resolve

/-! ## A run -/

/-- The file `"/a"` has been made and closed. -/
theorem exists_fileA : ∃ x t leak,
    execAll noUninit smallRun [.open 1 pathA 4, .close 1 3] = .ok x ∧ RunOk x t leak ∧
      holds (searchFile x.fs noUninit (pathA ++ [47, 120])) (fun r => r.1 = some 1 &&
        (r.2.2.inodes (r.2.2.dirInode r.2.1.parentDir)).iNo = 0) = true ∧
      holds (sysUnlink x.fs noUninit (pathA ++ [47, 120])) (fun r => r.1) = true := by
  obtain ⟨x, hrun, hreach, hx⟩ := exists_run [.open 1 pathA 4, .close 1 3]
    (fun x => holds (searchFile x.fs noUninit (pathA ++ [47, 120])) (fun r => r.1 = some 1 &&
        (r.2.2.inodes (r.2.2.dirInode r.2.1.parentDir)).iNo = 0) &&
      holds (sysUnlink x.fs noUninit (pathA ++ [47, 120])) (fun r => r.1)) (by decide +kernel)
  obtain ⟨t, leak, h⟩ := smallRun_runOk.reach hreach.reach
  exact ⟨x, t, leak, hrun, h, Bool.and_eq_true_iff.1 hx⟩

/-- A path with one component is resolved as it should be. -/
theorem pathResolution_pathA : ∃ x t r,
    execAll noUninit smallRun [.open 1 pathA 4, .close 1 3] = .ok x ∧ FsOk x.fs t r ∧
      ResolvesPath x.fs t pathA := by
  obtain ⟨x, t, leak, hrun, h, -, -⟩ := exists_fileA
  refine ⟨x, t, _, hrun, h.fs, (pathResolution_iff x.fs t _ h.fs pathA
    ⟨rfl, by decide, by decide, by decide⟩ rfl).2 ⟨by decide, ?_, ?_⟩⟩
  · rintro ⟨pre, suf, m, hcs, hsuf, hwalk, hm⟩
    have hone : (components pathA).length = 1 := by decide
    have hpos := List.length_pos_iff.2 hsuf
    rw [hcs, List.length_append] at hone
    obtain rfl : pre = [] := List.eq_nil_of_length_eq_zero (by omega)
    obtain rfl := Option.some.inj hwalk
    rw [h.fs.rep.root_kind] at hm
    cases hm
  · intro d c n hn _
    obtain ⟨init, hcs, hwalk⟩ := hn.last
    have hone : (components pathA).length = 1 := by decide
    rw [hcs, List.length_append] at hone
    obtain rfl : init = [] := List.eq_nil_of_length_eq_zero (Nat.succ.inj hone)
    obtain rfl := Option.some.inj hwalk
    omega

/-- `unlink("/a/x")` removes the file `"/a"`. -/
theorem not_resolvesPath_file_midway : ∃ x t r,
    execAll noUninit smallRun [.open 1 pathA 4, .close 1 3] = .ok x ∧ FsOk x.fs t r ∧
      PathOk (pathA ++ [47, 120]) ∧ isRootPath (pathA ++ [47, 120]) = false ∧
      (∃ s', sysUnlink x.fs noUninit (pathA ++ [47, 120]) = .ok (true, s')) ∧
      ¬ ResolvesPath x.fs t (pathA ++ [47, 120]) := by
  obtain ⟨x, t, leak, hrun, h, hsearch, hunlink⟩ := exists_fileA
  obtain ⟨⟨done, s'⟩, hun, hdone⟩ := exists_of_holds hunlink
  obtain rfl : done = true := hdone
  refine ⟨x, t, _, hrun, h.fs, ⟨rfl, by decide, by decide, by decide⟩, rfl, ⟨s', hun⟩,
    fun hres => ?_⟩
  obtain ⟨⟨res, record, s₁⟩, hs, hx⟩ := exists_of_holds hsearch
  simp only [Bool.and_eq_true, decide_eq_true_eq] at hx
  obtain ⟨rfl, hno⟩ := hx
  obtain ⟨res', record', s₂, hs', -, hlast⟩ := hres.search noUninit
  rw [hs] at hs'
  obtain ⟨rfl, rfl, rfl⟩ : some 1 = res' ∧ record = record' ∧ s₁ = s₂ := by simpa using hs'
  -- the search stops in the root directory, so `"a"` would have to name the root
  obtain ⟨-, hwalk⟩ := hlast 1 rfl
  rw [hno] at hwalk
  have hstep : t.look 0 (stepOf [97]) = some 0 := by
    have hcs : (components (pathA ++ [47, 120])).dropLast.map stepOf = [stepOf [97]] := by decide
    rw [hcs] at hwalk
    cases hl : t.look 0 (stepOf [97]) with
    | none =>
      rw [Tree.walk, hl] at hwalk
      cases hwalk
    | some m =>
      rw [Tree.walk, hl] at hwalk
      exact hwalk
  rw [Tree.stepOf_of_ne (by decide) (by decide), Tree.look_down h.fs.rep.root_kind] at hstep
  exact h.fs.rep.wf.child_ne_root hstep h.fs.rep.root.symm

end Gardos.Fs
