import Gardos.Fs.Represents
import Gardos.Fs.Calls

/-!
# Calls that look an object up

`FsOk s t r` is the invariant of the mounted file system: its partition holds the tree `t`, and
its cache of open inodes has the holders `r`. On such a state `search_file` does on the disk what
`Tree.resolve` does on the tree, and leaves open the directory it stopped in
(`FsOk.search`).
-/

namespace Gardos

open Fs

/-- Where the search for a path stops. The three names of the root directory are not walked. -/
def Tree.resolve (t : Tree ℕ (List UInt8)) (path : List UInt8) : Tree.SearchResult :=
  if isRootPath path then ⟨some (0, .dir), 0, []⟩ else t.search 0 0 (components path)

namespace Fs

open Bytes Outcome

/-! ## The invariant -/

/-- The state holds the tree `t`, with `r q` holders of the inode in cell `q`. -/
structure FsOk (s : FileSys) (t : Tree ℕ (List UInt8)) (r : ℕ → ℕ) : Prop where
  layout : s.part.Layout
  ndebug : s.part.ndebug = false
  rep : Represents s.part.vol t
  cache : Cache s r
  opened : ∀ q ∈ s.openInodes, t.kind (s.inodes q).iNo ≠ none
  files : ∀ i q, (s.fileTable i).fdInode = some q → q < s.brk

/-- What no call on directories changes: the tables of open files, and the numbers of the inodes
in memory. -/
structure Frame (s s' : FileSys) : Prop where
  rootInode : s'.rootInode = s.rootInode
  fileTable : s'.fileTable = s.fileTable
  fdTable : s'.fdTable = s.fdTable
  brk : s.brk ≤ s'.brk
  iNo : ∀ q < s.brk, (s'.inodes q).iNo = (s.inodes q).iNo

theorem CacheStep.frame {s s' : FileSys} (h : CacheStep s s') : Frame s s' :=
  ⟨h.rootInode, h.fileTable, h.fdTable, h.brk, fun _ hq => h.iNo hq⟩

theorem Frame.trans {s₁ s₂ s₃ : FileSys} (h : Frame s₁ s₂) (h' : Frame s₂ s₃) : Frame s₁ s₃ :=
  ⟨h'.rootInode.trans h.rootInode, h'.fileTable.trans h.fileTable, h'.fdTable.trans h.fdTable,
    h.brk.trans h'.brk, fun q hq => (h'.iNo q (hq.trans_le h.brk)).trans (h.iNo q hq)⟩

section Invariant

variable {s s' : FileSys} {t : Tree ℕ (List UInt8)} {r r' : ℕ → ℕ} {dir : DirPtr}

theorem FsOk.root_held (h : FsOk s t r) : 0 < r s.rootInode := (h.cache.mem _).1 h.cache.root

/-- Opening and closing inodes of the tree keeps the invariant. -/
theorem FsOk.of_cacheStep (h : FsOk s t r) (hs : CacheStep s s') (hc : Cache s' r')
    (hopen : ∀ q, 0 < r' q → 0 < r q ∨ t.kind (s'.inodes q).iNo ≠ none) : FsOk s' t r' := by
  refine ⟨by rw [hs.part]; exact h.layout, by rw [hs.part]; exact h.ndebug,
    by rw [hs.part]; exact h.rep, hc, fun q hq => ?_, fun i q hq => ?_⟩
  · rcases hopen q ((hc.mem q).1 hq) with hr | hk
    · have hq' := (h.cache.mem q).2 hr
      rw [hs.iNo (h.cache.lt_brk q hq')]
      exact h.opened q hq'
    · exact hk
  · rw [hs.fileTable] at hq
    exact (h.files i q hq).trans_le hs.brk

theorem FsOk.open_dir (h : FsOk s t r) (hs : CacheStep s s') (hc : Cache s' (holdDir r dir))
    (hk : t.kind (s'.inodes (s'.dirInode dir)).iNo ≠ none) : FsOk s' t (holdDir r dir) := by
  refine h.of_cacheStep hs hc fun q hq => ?_
  cases dir with
  | rootDir => exact Or.inl hq
  | heap q' =>
    rcases hold_pos.1 hq with rfl | hr
    · exact Or.inr hk
    · exact Or.inl hr

theorem FsOk.close_dir (h : FsOk s t (holdDir r dir)) (hroot : 0 < r s.rootInode) :
    FsOk (dirClose s dir) t r :=
  h.of_cacheStep (cacheStep_dirClose s dir) (h.cache.dirClose hroot) fun q hq =>
    Or.inl (hq.trans_le (le_holdDir r dir q))

theorem FsOk.close_inode {q : ℕ} (h : FsOk s t (hold r q)) (hroot : 0 < r s.rootInode) :
    FsOk (inodeClose s q) t r :=
  FsOk.close_dir (show FsOk s t (holdDir r (.heap q)) from h) hroot

end Invariant

/-! ## Open directories -/

section Cells

variable {s : FileSys} {t : Tree ℕ (List UInt8)} {r : ℕ → ℕ} {parent : ℕ}

/-- An open directory of the tree is well formed. -/
theorem FsOk.dirOk_cell (h : FsOk s t r) (hq : parent ∈ s.openInodes)
    (hd : t.kind (s.inodes parent).iNo = some .dir) :
    DirOk s.part.vol (s.inodes parent) (t.entries (s.inodes parent).iNo) :=
  (h.rep.dirOk hd).congr rfl rfl (h.cache.same parent hq)

theorem FsOk.fits_cell (h : FsOk s t r) (hq : parent ∈ s.openInodes)
    (hd : t.kind (s.inodes parent).iNo = some .dir) : (s.inodes parent).Fits := by
  have hdir := h.dirOk_cell hq hd
  have hlen := length_liveEntries_le s.part.vol.data (s.inodes parent)
  have hlt := h.cache.lt parent hq
  exact hdir.blocks.fits h.layout (by omega) (by rw [hdir.size]; omega)

/-- Changing the inode in a cell, but not its number. -/
theorem frame_setInode (s : FileSys) {q : ℕ} {ino : Inode} (p : Partition)
    (h : ino.iNo = (s.inodes q).iNo) : Frame s { s.setInode q ino with part := p } := by
  refine ⟨rfl, rfl, rfl, le_rfl, fun q' _ => ?_⟩
  exact apply_update_eq Inode.iNo h q'

theorem FsOk.dirReady {dir : DirPtr} (h : FsOk s t (holdDir r dir))
    (hk : t.kind (s.inodes (s.dirInode dir)).iNo = some .dir) : DirReady s dir :=
  ⟨h.layout, h.ndebug, (h.dirOk_cell h.cache.dirInode_mem hk).blocks,
    h.fits_cell h.cache.dirInode_mem hk, h.cache.lt_brk _ h.cache.dirInode_mem⟩

end Cells

/-! ## Searching -/

/-- A path that the calls accept: one of the names of the root, or an absolute path with a
component, within the limits of the source. -/
def PathArg (path : List UInt8) : Prop :=
  isRootPath path = true ∨ PathOk path ∧ components path ≠ []

theorem PathArg.length_lt {path : List UInt8} (hp : PathArg path) : path.length < 512 := by
  rcases hp with hr | ⟨hp, -⟩
  · simp only [isRootPath, Bool.or_eq_true, decide_eq_true_eq] at hr
    rcases hr with (rfl | rfl) | rfl <;> decide
  · exact hp.length_lt

section Search

variable {s : FileSys} {t : Tree ℕ (List UInt8)} {r : ℕ → ℕ} {path : List UInt8}
  {record : PathSearchRecord} {s' : FileSys} {res : Tree.SearchResult} {n : ℕ}

/-- What `search_file` returns and leaves behind, as the search in the tree has it. -/
structure Searched (s : FileSys) (t : Tree ℕ (List UInt8)) (r : ℕ → ℕ) (res : Tree.SearchResult)
    (record : PathSearchRecord) (s' : FileSys) : Prop where
  step : CacheStep s s'
  ok : FsOk s' t (holdDir r record.parentDir)
  iNo : (s'.inodes (s'.dirInode record.parentDir)).iNo = res.dir
  kind : t.kind res.dir = some .dir
  path : record.searchedPath = joinPath res.path
  type : record.fileType = (res.found.map fun e => Kind.type e.2).getD .unknown
  /-- Only a file in the root directory, named without a detour, is found in `root_dir`. -/
  inRoot : ∀ n, res.found = some (n, .file) → (record.parentDir = .rootDir ↔ res.path.length = 1)

theorem Searched.root (h : FsOk s t r) :
    Searched s t r ⟨some (0, .dir), 0, []⟩
      { searchedPath := [], parentDir := .rootDir, fileType := .directory } s :=
  ⟨CacheStep.refl s, h, h.cache.root_iNo, h.rep.root_kind, rfl, rfl, fun _ hf => nomatch hf⟩

/-- **`search_file`** walks the tree. -/
theorem FsOk.search (h : FsOk s t r) (hp : PathArg path) (uninit : Uninit) :
    ∃ record s', searchFile s uninit path =
        .ok ((t.resolve path).found.map Prod.fst, record, s') ∧
      Searched s t r (t.resolve path) record s' := by
  unfold Tree.resolve
  by_cases hr : isRootPath path = true
  · rw [if_pos hr]
    refine ⟨_, s, ?_, Searched.root h⟩
    unfold searchFile
    rw [if_pos hr]
    rfl
  · rw [if_neg hr]
    obtain ⟨hpath, hne⟩ := hp.resolve_left hr
    obtain ⟨record, s', hrun, hstep, hc, hino, hsp, htype, hheap⟩ :=
      exists_searchFile h.rep.dirTree h.cache
      hpath (Bool.eq_false_iff.2 hr) uninit fun h => absurd h hne
    obtain ⟨init, c, -, -, -, hk, -, -⟩ := @Tree.search_spec t (components path) 0 0
      h.rep.root_kind hne
    refine ⟨record, s', hrun, hstep, h.open_dir hstep hc ?_, hino, hk, hsp, htype, hheap⟩
    rw [hino, hk]
    exact Option.some_ne_none _

/-- The same, for a search that has returned. -/
theorem FsOk.searched (h : FsOk s t r) (hp : PathArg path) {uninit : Uninit} {no : Option ℕ}
    (hrun : searchFile s uninit path = .ok (no, record, s')) :
    (t.resolve path).found.map Prod.fst = no ∧ Searched s t r (t.resolve path) record s' := by
  obtain ⟨record', s₁, hrun', hs⟩ := h.search hp uninit
  obtain ⟨rfl, rfl, rfl⟩ := ok_triple (hrun'.symm.trans hrun)
  exact ⟨rfl, hs⟩

theorem Searched.dirReady (hs : Searched s t r res record s') : DirReady s' record.parentDir :=
  hs.ok.dirReady (by rw [hs.iNo]; exact hs.kind)

/-- What has been found, if it is not a directory. -/
theorem Searched.found_file (hs : Searched s t r res record s')
    (hno : res.found.map Prod.fst = some n) (htype : record.fileType ≠ .directory) :
    res.found = some (n, .file) := by
  obtain ⟨⟨n, k⟩, hf, rfl⟩ := Option.map_eq_some_iff.1 hno
  have hty := hs.type
  rw [hf] at hty
  cases k with
  | dir => exact absurd hty htype
  | file => exact hf

theorem Searched.root_held (hs : Searched s t r res record s') (h : FsOk s t r) :
    0 < r s'.rootInode := by
  rw [hs.step.rootInode]
  exact h.root_held

/-- Closing the directory that the search left open. -/
theorem Searched.close (hs : Searched s t r res record s') (h : FsOk s t r) :
    CacheStep s (dirClose s' record.parentDir) ∧ FsOk (dirClose s' record.parentDir) t r :=
  ⟨hs.step.trans (cacheStep_dirClose _ _), hs.ok.close_dir (hs.root_held h)⟩

/-- What the search finds is in the tree. -/
theorem FsOk.kind_of_found (h : FsOk s t r) (hp : PathArg path) {k : Kind}
    (hf : (t.resolve path).found = some (n, k)) : t.kind n = some k := by
  unfold Tree.resolve at hf
  by_cases hr : isRootPath path = true
  · rw [if_pos hr] at hf
    obtain ⟨rfl, rfl⟩ := Prod.mk.inj (Option.some.inj hf)
    exact h.rep.root_kind
  · rw [if_neg hr] at hf
    obtain ⟨-, hne⟩ := hp.resolve_left hr
    obtain ⟨init, c, -, -, -, -, hfound, -⟩ := @Tree.search_spec t (components path) 0 0
      h.rep.root_kind hne
    rw [hfound] at hf
    exact (Tree.entries_eq_some.1 hf).2

end Search

/-! ## Opening an object -/

section Calls

variable {s : FileSys} {t : Tree ℕ (List UInt8)} {r : ℕ → ℕ} {path : List UInt8} {n : ℕ}

theorem FsOk.open_inode (h : FsOk s t r) (hn : t.kind n ≠ none) :
    ∃ q s', inodeOpen s n = .ok (q, s') ∧ CacheStep s s' ∧ FsOk s' t (hold r q) ∧
      (s'.inodes q).iNo = n ∧ (findInode s n = none → r q = 0) := by
  obtain ⟨q, s', hrun, hstep, hc, hno, hr⟩ :=
    h.cache.exists_inodeOpen (h.rep.contents.lt n hn) (h.rep.contents.iNo n hn)
  refine ⟨q, s', hrun, hstep, h.of_cacheStep hstep hc fun q' hq' => ?_, hno, hr⟩
  rcases hold_pos.1 hq' with rfl | hr'
  · rw [hno]
    exact Or.inr hn
  · exact Or.inl hr'

theorem FsOk.open_dirInode (h : FsOk s t r) (hn : t.kind n ≠ none) :
    ∃ q s', dirOpen s n = .ok (.heap q, s') ∧ CacheStep s s' ∧ FsOk s' t (hold r q) ∧
      (s'.inodes q).iNo = n ∧ (findInode s n = none → r q = 0) := by
  obtain ⟨q, s', hrun, hrest⟩ := h.open_inode hn
  refine ⟨q, s', ?_, hrest⟩
  unfold dirOpen
  rw [hrun]
  rfl

/-- An open inode is the one on disk. -/
theorem FsOk.same (h : FsOk s t r) {q : ℕ} (hq : 0 < r q) :
    (s.inodes q).Same (s.part.vol.inode (s.inodes q).iNo) :=
  h.cache.same q ((h.cache.mem q).2 hq)

/-- **`sys_stat`** describes what the search finds. -/
theorem FsOk.stat (h : FsOk s t r) (hp : PathArg path) (uninit : Uninit) :
    ∃ s', sysStat s uninit path = .ok ((t.resolve path).found.map fun e =>
        { stIno := e.1, stSize := (s.part.vol.inode e.1).iSize, stFiletype := Kind.type e.2 }, s') ∧
      CacheStep s s' ∧ FsOk s' t r := by
  unfold sysStat
  by_cases hr : isRootPath path = true
  · have hsize := (h.same h.root_held).iSize
    rw [h.cache.root_iNo] at hsize
    refine ⟨s, ?_, CacheStep.refl s, h⟩
    unfold Tree.resolve
    rw [if_pos hr, if_pos hr, hsize]
    rfl
  · obtain ⟨record, s₁, hrun, hs⟩ := h.search hp uninit
    rw [if_neg hr, hrun, ok_bind]
    have htype := hs.type
    cases hf : (t.resolve path).found with
    | none => exact ⟨_, rfl, hs.close h⟩
    | some e =>
      obtain ⟨n, k⟩ := e
      rw [hf] at htype
      have hk := h.kind_of_found hp hf
      obtain ⟨q, s₂, hopen, hstep, h₂, hno, -⟩ := hs.ok.open_inode (ne_none_of_eq_some hk)
      have hsize := (h₂.same (hold_pos.2 (Or.inl rfl))).iSize
      rw [hno, hstep.part, hs.step.part] at hsize
      have hheld : 0 < holdDir r record.parentDir s₂.rootInode := by
        rw [hstep.rootInode]
        exact hs.ok.root_held
      have h₃ := h₂.close_inode hheld
      have hstep₃ := hs.step.trans (hstep.trans (cacheStep_inodeClose s₂ q))
      refine ⟨_, ?_, hstep₃.trans (cacheStep_dirClose _ _),
        h₃.close_dir (by rw [hstep₃.rootInode]; exact h.root_held)⟩
      change ((inodeOpen s₁ n).bind fun x => _) = _
      rw [hopen]
      change Except.ok (some (Stat.mk n (s₂.inodes q).iSize record.fileType), _) = _
      rw [hsize, htype]
      rfl

/-- **`sys_opendir`** opens the directory that the search finds. -/
theorem FsOk.opendir (h : FsOk s t r) (hp : PathArg path) (hpath : path ≠ [slash])
    (uninit : Uninit) :
    ∃ dir s', sysOpendir s uninit path = .ok (dir, s') ∧ CacheStep s s' ∧
      match (t.resolve path).found with
      | some (n, .dir) => ∃ q, dir = some (.heap q) ∧ (s'.inodes q).iNo = n ∧ FsOk s' t (hold r q)
      | _ => dir = none ∧ FsOk s' t r := by
  obtain ⟨record, s₁, hrun, hs⟩ := h.search hp uninit
  have htype := hs.type
  unfold sysOpendir
  rw [assert, if_pos hp.length_lt, ok_bind, if_neg hpath, hrun, ok_bind]
  cases hf : (t.resolve path).found with
  | none =>
    obtain ⟨hstep, hok⟩ := hs.close h
    exact ⟨none, _, rfl, hstep, rfl, hok⟩
  | some e =>
    obtain ⟨n, k⟩ := e
    rw [hf] at htype
    have hk := h.kind_of_found hp hf
    cases k with
    | file =>
      obtain ⟨hstep, hok⟩ := hs.close h
      refine ⟨none, _, ?_, hstep, rfl, hok⟩
      obtain ⟨searched, parent, type⟩ := record
      obtain rfl : type = .regular := htype
      rfl
    | dir =>
      obtain ⟨q, s₂, hrun₂, hstep, h₂, hno, -⟩ := hs.ok.open_dirInode (ne_none_of_eq_some hk)
      rw [hold_holdDir] at h₂
      have hheld : 0 < hold r q s₂.rootInode := by
        rw [hstep.rootInode]
        exact hold_pos.2 (Or.inr (hs.root_held h))
      have hq : q < s₂.brk := h₂.cache.lt_brk q
        ((h₂.cache.mem q).2 ((hold_pos.2 (Or.inl rfl)).trans_le (le_holdDir _ _ q)))
      refine ⟨some (.heap q), dirClose s₂ record.parentDir, ?_,
        hs.step.trans (hstep.trans (cacheStep_dirClose _ _)), q, rfl, ?_, h₂.close_dir hheld⟩
      · obtain ⟨searched, parent, type⟩ := record
        obtain rfl : type = .directory := htype
        change ((dirOpen s₁ n).bind fun x => _) = _
        rw [hrun₂]
        rfl
      · rw [(cacheStep_dirClose _ _).iNo hq, hno]

/-- **`sys_chdir`** goes to the directory that the search finds. -/
theorem FsOk.chdir (h : FsOk s t r) (hp : PathArg path) (uninit : Uninit) :
    ∃ s', sysChdir s uninit path = .ok (match (t.resolve path).found with
        | some (n, .dir) => some n
        | _ => none, s') ∧ CacheStep s s' ∧ FsOk s' t r := by
  obtain ⟨record, s₁, hrun, hs⟩ := h.search hp uninit
  refine ⟨_, ?_, hs.close h⟩
  have htype := hs.type
  unfold sysChdir
  rw [hrun, ok_bind]
  dsimp only
  rw [htype]
  rcases (t.resolve path).found with _ | ⟨n, k⟩
  · rfl
  · cases k <;> rfl

end Calls

end Fs

end Gardos
