import Gardos.Fs.Lookup

/-!
# Making an object

`sys_mkdir` and `sys_open` with `O_CREAT` look the path up, and go on when everything but its last
component exists. `NewName` says what they know then. A new object needs an inode number below 256,
since the inode is stored with `inode_sync`, and room in the direct blocks of its directory.
-/

namespace Gardos.Fs

open Bytes Outcome

/-! ## The last component of a path -/

section LastComponent

variable {path c : List UInt8} {init : List (List UInt8)}

theorem exists_afterLastSlash (h : slash ∈ path) :
    ∃ pre, path = pre ++ slash :: afterLastSlash path ∧ slash ∉ afterLastSlash path := by
  have hsplit := List.takeWhile_append_dropWhile (p := (· ≠ slash)) (l := path.reverse)
  have hrest : path.reverse.dropWhile (· ≠ slash) ≠ [] := by
    rw [Ne, List.dropWhile_eq_nil_iff]
    intro hall
    simpa using hall slash (List.mem_reverse.2 h)
  obtain ⟨x, rest, hx⟩ := List.exists_cons_of_ne_nil hrest
  have hxs : x = slash := by
    have := List.head?_dropWhile_not (p := (· ≠ slash)) (l := path.reverse)
    rw [hx] at this
    simpa using this
  refine ⟨rest.reverse, ?_, fun hs => ?_⟩
  · rw [hx, hxs] at hsplit
    have := congrArg List.reverse hsplit
    rw [List.reverse_append, List.reverse_cons, List.reverse_reverse] at this
    rw [afterLastSlash, ← List.singleton_append, ← List.append_assoc]
    exact this.symm
  · exact slash_notMem_takeWhile path.reverse (List.mem_reverse.1 hs)

theorem afterLastSlash_eq (hs : slash ∈ path) (hlast : path.getLast? ≠ some slash)
    (hcs : components path = init ++ [c]) : afterLastSlash path = c := by
  obtain ⟨pre, hpath, hno⟩ := exists_afterLastSlash hs
  have hne : afterLastSlash path ≠ [] := fun hnil => by
    rw [hnil] at hpath
    rw [hpath, List.getLast?_concat] at hlast
    exact hlast rfl
  have hcs' := components_append_slash pre (afterLastSlash path)
  rw [← hpath, components_single hno hne] at hcs'
  exact (List.append_inj' (hcs'.symm.trans hcs) rfl).2 |> List.singleton_inj.1

theorem afterLastSlash_joinPath (h : ∀ x ∈ init ++ [c], x ≠ [] ∧ slash ∉ x) :
    slash ∈ joinPath (init ++ [c]) ∧ afterLastSlash (joinPath (init ++ [c])) = c := by
  have hjoin : joinPath (init ++ [c]) = joinPath init ++ slash :: c := by
    simp [joinPath]
  have hs : slash ∈ joinPath (init ++ [c]) := by
    rw [hjoin]
    simp
  refine ⟨hs, afterLastSlash_eq hs ?_ (components_joinPath h)⟩
  obtain ⟨hne, hno⟩ := h c (by simp)
  obtain ⟨l, x, rfl⟩ := (List.eq_nil_or_concat c).resolve_left hne
  rw [hjoin, List.concat_eq_append, ← List.cons_append, ← List.append_assoc, List.getLast?_concat]
  exact fun hx => hno (by simp [Option.some.inj hx])

end LastComponent

/-! ## Where the new object goes -/

/-- The last component `c` of a path names nothing yet in the directory `d`, to which the other
components lead. -/
structure NewName (t : Tree ℕ (List UInt8)) (path : List UInt8) (d : ℕ)
    (c : List UInt8) : Prop where
  last : ∃ init, components path = init ++ [c] ∧ t.walk 0 (init.map stepOf) = some d
  dir : t.kind d = some .dir
  child : t.child d c = none
  name : IsName c
  ne_dot : c ≠ dot
  ne_dotDot : c ≠ dotDot

section NewName

variable {s s' : FileSys} {t : Tree ℕ (List UInt8)} {r : ℕ → ℕ} {path : List UInt8}

theorem pathDepthCnt_of_pathOk (hp : PathOk path) (hne : components path ≠ []) (uninit : Uninit) :
    pathDepthCnt uninit path = .ok (components path).length :=
  pathDepthCnt_eq uninit hne fun c hc => (hp.components c hc).trans (by omega)

theorem isName_of_isPrefix (hp : PathOk path) {cs : List (List UInt8)}
    (hpre : cs <+: components path) : ∀ c ∈ cs, IsName c ∧ slash ∉ c := fun c hc =>
  ⟨hp.isName c (hpre.subset hc), slash_notMem_of_mem_components (hpre.subset hc)⟩

/-- What the search has covered is the beginning of the path. -/
theorem Tree.resolve_isPrefix (hk : t.kind 0 = some .dir) (hr : isRootPath path = false)
    (hne : components path ≠ []) : (t.resolve path).path ≠ [] ∧
      (t.resolve path).path <+: components path := by
  unfold Tree.resolve
  rw [hr, if_neg Bool.false_ne_true]
  obtain ⟨init, c, hpath, hpre, -, -, -, -⟩ := @Tree.search_spec t (components path) 0 0 hk hne
  rw [hpath]
  exact ⟨by simp, hpre⟩

theorem pathDepthCnt_resolve (hk : t.kind 0 = some .dir) (hp : PathOk path)
    (hr : isRootPath path = false) (hne : components path ≠ []) (uninit : Uninit) :
    pathDepthCnt uninit (joinPath (t.resolve path).path) = .ok (t.resolve path).path.length := by
  obtain ⟨hcov, hpre⟩ := Tree.resolve_isPrefix hk hr hne
  have hsplit := isName_of_isPrefix hp hpre
  have hcomp := components_joinPath fun c hc => ⟨(hsplit c hc).1.ne_nil, (hsplit c hc).2⟩
  have hdepth := @pathDepthCnt_eq (joinPath (t.resolve path).path) uninit (by rwa [hcomp])
    fun c hc => by
      rw [hcomp] at hc
      exact (hsplit c hc).1.length_le.trans (by omega)
  rwa [hcomp] at hdepth

/-- Unless a directory is found, the depths that are compared tell whether the search has covered
the whole path. -/
theorem resolve_depths (hk : t.kind 0 = some .dir) (hp : PathArg path)
    (hdir : ∀ n, (t.resolve path).found ≠ some (n, .dir)) (uninit : Uninit) :
    (isRootPath path = false ∧ PathOk path ∧ components path ≠ []) ∧
      pathDepthCnt uninit path = .ok (components path).length ∧
      pathDepthCnt uninit (joinPath (t.resolve path).path) = .ok (t.resolve path).path.length ∧
      ((components path).length = (t.resolve path).path.length ↔
        (t.resolve path).path = components path) := by
  have hr : isRootPath path = false := by
    by_contra hr
    refine hdir 0 ?_
    unfold Tree.resolve
    rw [if_pos (by simpa using hr)]
  obtain ⟨hok, hne⟩ := hp.resolve_left (by simp [hr])
  refine ⟨⟨hr, hok, hne⟩, pathDepthCnt_of_pathOk hok hne uninit,
    pathDepthCnt_resolve hk hok hr hne uninit, fun hlen => ?_, fun heq => by rw [heq]⟩
  exact (Tree.resolve_isPrefix hk hr hne).2.eq_of_length hlen.symm

/-- So a search has gone as deep as the path if it covered it. -/
theorem searchedAll_iff (hk : t.kind 0 = some .dir) (hp : PathArg path) {record : PathSearchRecord}
    (hdir : ∀ n, (t.resolve path).found ≠ some (n, .dir))
    (hpath : record.searchedPath = joinPath (t.resolve path).path) (uninit : Uninit) :
    isRootPath path = false ∧ PathOk path ∧ components path ≠ [] ∧
      (SearchedAll uninit path record ↔ (t.resolve path).path = components path) := by
  obtain ⟨⟨hr, hok, hne⟩, hd, hd', hiff⟩ := resolve_depths hk hp hdir uninit
  rw [← hpath] at hd'
  refine ⟨hr, hok, hne, fun ⟨d, h, h'⟩ => hiff.1 ?_, fun heq => ⟨_, hd, ?_⟩⟩
  · exact (Except.ok.inj (hd.symm.trans h)).trans (Except.ok.inj (hd'.symm.trans h')).symm
  · rw [hd', heq]

/-- The same, for a file system. -/
theorem Searched.searchedAll_iff {record : PathSearchRecord} {s₁ : FileSys}
    (hs : Searched s t r (t.resolve path) record s₁) (h : FsOk s t r) (hp : PathArg path)
    (htype : record.fileType ≠ .directory) (uninit : Uninit) :
    isRootPath path = false ∧ PathOk path ∧ components path ≠ [] ∧
      (SearchedAll uninit path record ↔ (t.resolve path).path = components path) :=
  Fs.searchedAll_iff h.rep.root_kind hp (fun n hf => htype (hs.type.trans (by rw [hf]; rfl)))
    hs.path uninit

/-- When the whole path has been covered and nothing found, its last component is a new name. -/
theorem FsOk.newName (h : FsOk s t r) (hp : PathOk path) (hr : isRootPath path = false)
    (hne : components path ≠ []) (hf : (t.resolve path).found = none)
    (hdepth : (components path).length = (t.resolve path).path.length) :
    (t.resolve path).path = components path ∧
      ∃ init c, components path = init ++ [c] ∧ NewName t path (t.resolve path).dir c := by
  unfold Tree.resolve at hf hdepth ⊢
  rw [hr, if_neg Bool.false_ne_true] at hf hdepth ⊢
  obtain ⟨init, c, hpath, hpre, hwalk, hk, hfound, -⟩ := @Tree.search_spec t (components path) 0 0
    h.rep.root_kind hne
  have hcs : init ++ [c] = components path := hpre.eq_of_length (by rw [hdepth, hpath])
  rw [hfound, h.rep.wf.entries_eq_none] at hf
  have hdot : c ≠ dot := by
    rintro rfl
    rw [show stepOf dot = .self from rfl, Tree.look_self hk] at hf
    cases hf
  have hdotDot : c ≠ dotDot := by
    rintro rfl
    rw [show stepOf dotDot = .up from rfl, Tree.look_up hk] at hf
    cases hf
  rw [Tree.stepOf_of_ne hdot hdotDot, Tree.look_down hk] at hf
  exact ⟨hpath.trans hcs, init, c, hcs.symm, ⟨init, hcs.symm, hwalk⟩, hk, hf,
    hp.isName c (by rw [← hcs]; simp), hdot, hdotDot⟩

end NewName

/-! ## `sys_mkdir` -/

section Mkdir

variable {s s' : FileSys} {t : Tree ℕ (List UInt8)} {r : ℕ → ℕ} {path c : List UInt8} {d n : ℕ}

theorem DirInsert.iOpenCnts {v v' : Volume} {ino ino' : Inode} {e : DirEntry}
    (h : DirInsert v ino e v' ino') : ino'.iOpenCnts = ino.iOpenCnts := by
  cases h <;> rfl

/-- A new object is in the tree once the inode of its directory, in the cell `parent` and on disk,
and its own are stored. -/
theorem FsOk.inserted (h : FsOk s t r) {parent : ℕ} (hq : parent ∈ s.openInodes)
    (hd : (s.inodes parent).iNo = d) (hdk : t.kind d = some .dir) (hn : t.kind n = none)
    {v₀ v : Volume} {e : DirEntry} {ino x : Inode} (hins : DirInsert v₀ (s.inodes parent) e v ino)
    (hg : v₀.geometry = s.part.vol.geometry) (hi : v₀.inode = s.part.vol.inode) {p : Partition}
    (hv : p.vol = (v.setInode d ino.stored).setInode n x) {k : Kind}
    (hrep : Represents p.vol (t.insert d c n k)) :
    FsOk { s.setInode parent ino with part := p } (t.insert d c n k) r := by
  have hdn : d ≠ n := fun hdn => by rw [hdn, hn] at hdk; cases hdk
  have hgeo : p.vol.geometry = s.part.vol.geometry := by
    rw [hv]
    exact hins.geometry.trans hg
  have hino : ino.iNo = d := hins.iNo.trans hd
  have hne : ∀ q ∈ s.openInodes, (s.inodes q).iNo ≠ n := fun q hq hqn => by
    have := h.opened q hq
    rw [hqn] at this
    exact this hn
  have hframe := frame_setInode s p hins.iNo
  refine ⟨h.layout.of_geometry hgeo, (congrArg Geometry.ndebug hgeo).trans h.ndebug, hrep,
    h.cache.sync hq hins.iNo hins.iOpenCnts ?_ (fun q hq' hqd => ?_), fun q hq' => ?_, h.files⟩
  · rw [hino, hv, Volume.setInode_inode_of_ne _ _ hdn, Volume.setInode_inode_self]
    exact (Inode.same_stored ino).symm
  · rw [hino] at hqd
    rw [hv, Volume.setInode_inode_of_ne _ _ (hne q hq'), Volume.setInode_inode_of_ne _ _ hqd,
      hins.inode, hi]
  · rw [hframe.iNo q (h.cache.lt_brk q hq'), Tree.kind_insert_of_ne (hne q hq')]
    exact h.opened q hq'

/-- For a new object there is a free number that fits in a byte, and room in its directory. -/
structure RoomFor (s : FileSys) (t : Tree ℕ (List UInt8)) (path : List UInt8) : Prop where
  number : ∀ d c, NewName t path d c → ∃ m < 256, s.part.vol.allocated m = false
  entry : ∀ d c, NewName t path d c → (s.part.vol.inode d).iSize < 6048

theorem RoomFor.lt {v : Volume} (hr : ∃ m < 256, v.allocated m = false) (hn : v.FreeNo n) :
    n < 256 := by
  obtain ⟨m, hm, hfree⟩ := hr
  by_contra h
  rw [hn.before m (by omega)] at hfree
  exact Bool.noConfusion hfree

theorem FsOk.kind_of_free (h : FsOk s t r) (hn : s.part.vol.allocated n = false) :
    t.kind n = none := by
  by_contra hk
  rw [(h.rep.contents.alloc n).2 hk] at hn
  exact Bool.noConfusion hn

/-- What `sys_mkdir` does: nothing, or it adds a directory to the tree. -/
inductive Mkdirs (s : FileSys) (t : Tree ℕ (List UInt8)) (r : ℕ → ℕ) (path : List UInt8) :
    Bool → FileSys → Prop
  | refused {s' : FileSys} (hs : Frame s s') (h : FsOk s' t r) : Mkdirs s t r path false s'
  | made {s' : FileSys} {d : ℕ} {c : List UInt8} {n : ℕ} (hs : Frame s s')
      (hname : NewName t path d c) (hn : t.kind n = none) (hlt : n < 256)
      (h : FsOk s' (t.insert d c n .dir) r) : Mkdirs s t r path true s'

/-- The part of `sys_mkdir` that follows the search. -/
theorem Searched.mkdirIn {res : Tree.SearchResult} {record : PathSearchRecord} {s₁ : FileSys}
    (hs : Searched s t r res record s₁) (h : FsOk s t r) (hname : NewName t path res.dir c)
    (hlt : res.dir < 256) (hroom : RoomFor s t path) {done : Bool} {s₂ : FileSys}
    (hrun : mkdirIn s₁ record.parentDir c = .ok (done, s₂)) :
    Mkdirs s t r path done (dirClose s₂ record.parentDir) := by
  have hmem := hs.ok.cache.dirInode_mem
  have hready := hs.dirReady
  rcases mkdirIn_cases hready hrun with ⟨rfl, rfl⟩ |
    ⟨n, lba, v, ino, p, rfl, hno, hfree, -, hins, hv, rfl⟩
  · exact .refused (hs.close h).1.frame (hs.close h).2
  rw [hs.step.part] at hno
  have hn256 := RoomFor.lt (hroom.number _ _ hname) hno
  have hn := h.kind_of_free hno.free
  have hsame := hs.ok.cache.same _ hmem
  rw [hs.iNo] at hins hsame
  rw [hins.iNo, hs.iNo, Nat.mod_eq_of_lt hlt, Nat.mod_eq_of_lt hn256] at hv
  have hsize : (s₁.inodes (s₁.dirInode record.parentDir)).iSize < 6048 := by
    rw [hsame.iSize, hs.step.part]
    exact hroom.entry _ _ hname
  have hrep := hs.ok.rep.mkdir hname.dir hs.ok.layout.addressable hname.child hname.name
    hname.ne_dot hname.ne_dotDot hn hno.lt hsame hsize hfree hins
  rw [← hv] at hrep
  have h₂ := hs.ok.inserted hmem hs.iNo hname.dir hn hins rfl rfl hv hrep
  have hframe := hs.step.frame.trans (frame_setInode s₁ p hins.iNo)
  refine .made (hframe.trans (cacheStep_dirClose _ _).frame) hname hn hn256 (h₂.close_dir ?_)
  rw [hframe.rootInode]
  exact h.root_held

/-- **`sys_mkdir`** adds a directory to the tree. -/
theorem FsOk.mkdir (h : FsOk s t r) (hp : PathArg path) {uninit : Uninit}
    (hlt : (t.resolve path).dir < 256) (hroom : RoomFor s t path) {done : Bool}
    (hrun : sysMkdir s uninit path = .ok (done, s')) : Mkdirs s t r path done s' := by
  obtain ⟨record, s₁, hsearch, hs⟩ := h.search hp uninit
  unfold sysMkdir at hrun
  rw [hsearch, ok_bind] at hrun
  dsimp only at hrun
  by_cases hf : (t.resolve path).found = none
  · obtain ⟨⟨hr, hpath, hne⟩, hd, hds, -⟩ := resolve_depths h.rep.root_kind hp (by simp [hf]) uninit
    rw [hf, Option.map_none, if_neg (by simp), hd, ok_bind, hs.path, hds, ok_bind] at hrun
    by_cases hdepth : (components path).length = (t.resolve path).path.length
    · obtain ⟨hcs, init, c, hlast, hname⟩ := h.newName hpath hr hne hf hdepth
      have hsplit := isName_of_isPrefix hpath (List.prefix_refl _)
      rw [hlast] at hsplit
      obtain ⟨hslash, hafter⟩ := afterLastSlash_joinPath fun x hx =>
        ⟨(hsplit x hx).1.ne_nil, (hsplit x hx).2⟩
      rw [if_neg (by simpa using hdepth), hcs, hlast, access, if_pos hslash, ok_bind, hafter]
        at hrun
      obtain ⟨⟨done', s₂⟩, hmk, rfl, rfl⟩ := bind_pair_eq_ok hrun
      exact hs.mkdirIn h hname hlt hroom hmk
    · rw [if_pos hdepth] at hrun
      obtain ⟨rfl, rfl⟩ := ok_pair hrun
      exact .refused (hs.close h).1.frame (hs.close h).2
  · rw [if_pos (by simpa using hf)] at hrun
    obtain ⟨rfl, rfl⟩ := ok_pair hrun
    exact .refused (hs.close h).1.frame (hs.close h).2

end Mkdir

end Gardos.Fs
