import Gardos.Fs.Make

/-!
# Calls on descriptors

`sys_open` takes a slot of the file table and a descriptor of the task for an inode (`TakesSlot`),
`sys_close` gives both back, `sys_write` appends to the file behind them. On the invariant `FsOk`,
an open file is one more holder of its inode. When `sys_open` opens a file that exists, the
directory of the file stays open too, with a holder that is never taken away.
-/

namespace Gardos.Fs

open Bytes Outcome Function

/-! ## Slots and descriptors -/

/-- The cells of the inodes in memory keep their numbers. -/
structure Cells (s s' : FileSys) : Prop where
  rootInode : s'.rootInode = s.rootInode
  brk : s.brk ≤ s'.brk
  iNo : ∀ q < s.brk, (s'.inodes q).iNo = (s.inodes q).iNo

theorem Frame.cells {s s' : FileSys} (h : Frame s s') : Cells s s' := ⟨h.rootInode, h.brk, h.iNo⟩

theorem Cells.trans {s₁ s₂ s₃ : FileSys} (h : Cells s₁ s₂) (h' : Cells s₂ s₃) : Cells s₁ s₃ :=
  ⟨h'.rootInode.trans h.rootInode, h.brk.trans h'.brk,
    fun q hq => (h'.iNo q (hq.trans_le h.brk)).trans (h.iNo q hq)⟩

/-- Task `pid` may have been given a descriptor for slot `g`. -/
def Installs (s s' : FileSys) (pid g : ℕ) (fd : Option ℕ) : Prop :=
  (fd = none ∧ s'.fdTable = s.fdTable) ∨
    ∃ i, fd = some i ∧ 3 ≤ i ∧ i < 8 ∧ s.fdTable pid i = -1 ∧
      s'.fdTable = update s.fdTable pid (update (s.fdTable pid) i g)

/-- Slot `g` of the file table has been taken for the inode in cell `q`. -/
structure TakesSlot (s s' : FileSys) (pid g q flag : ℕ) (fd : Option ℕ) : Prop where
  le : 3 ≤ g
  lt : g < 32
  free : (s.fileTable g).fdInode = none
  fileTable : s'.fileTable =
    update s.fileTable g { fdPos := 0, fdFlag := flag, fdInode := some q }
  fd : Installs s s' pid g fd

section Tables

variable {s s' s₁ : FileSys} {pid g q flag : ℕ} {fd : Option ℕ}

/-- A step of the cache before a slot is taken, or after it. -/
theorem TakesSlot.of_step (hs : CacheStep s s₁) (h : TakesSlot s₁ s' pid g q flag fd) :
    TakesSlot s s' pid g q flag fd := by
  obtain ⟨hle, hlt, hfree, htable, hfd⟩ := h
  unfold Installs at hfd
  rw [hs.fileTable] at hfree htable
  rw [hs.fdTable] at hfd
  exact ⟨hle, hlt, hfree, htable, hfd⟩

theorem TakesSlot.trans_step (h : TakesSlot s s₁ pid g q flag fd) (hs : CacheStep s₁ s') :
    TakesSlot s s' pid g q flag fd := by
  obtain ⟨hle, hlt, hfree, htable, hfd⟩ := h
  unfold Installs at hfd
  rw [← hs.fileTable] at htable
  rw [← hs.fdTable] at hfd
  exact ⟨hle, hlt, hfree, htable, hfd⟩

theorem getFreeSlotInGlobal_eq_some (h : getFreeSlotInGlobal s = some g) :
    3 ≤ g ∧ g < 32 ∧ (s.fileTable g).fdInode = none := by
  unfold getFreeSlotInGlobal at h
  dsimp only at h
  split at h
  · cases h
  · rename_i hne
    obtain rfl := Option.some.inj h
    have hle := skipWhile_le (p := fun i => (s.fileTable i).fdInode.isSome) (n := 29) (i := 3)
    refine ⟨le_skipWhile, by omega, ?_⟩
    simpa using skipWhile_fails (p := fun i => (s.fileTable i).fdInode.isSome) (n := 29) (i := 3)
      (by omega)

/-- What `pcb_fd_install` does. -/
theorem pcbFdInstall_installs (h : pcbFdInstall s pid g = (fd, s')) :
    s' = { s with fdTable := s'.fdTable } ∧ Installs s s' pid g fd := by
  unfold pcbFdInstall at h
  dsimp only at h
  split at h
  · obtain ⟨rfl, rfl⟩ := Prod.mk.inj h
    exact ⟨rfl, Or.inl ⟨rfl, rfl⟩⟩
  · rename_i hne
    obtain ⟨rfl, rfl⟩ := Prod.mk.inj h
    have hle := skipWhile_le (p := fun i => decide (s.fdTable pid i ≠ -1)) (n := 5) (i := 3)
    have hfail := skipWhile_fails (p := fun i => decide (s.fdTable pid i ≠ -1)) (n := 5) (i := 3)
      (by omega)
    exact ⟨rfl, Or.inr ⟨_, rfl, le_skipWhile, by omega, by simpa using hfail, rfl⟩⟩

end Tables

/-! ## The invariant and the file table -/

section Invariant

variable {s : FileSys} {t : Tree ℕ (List UInt8)} {r : ℕ → ℕ} {q : ℕ}

theorem FsOk.withFiles (h : FsOk s t r) {fileTable : ℕ → File} (fdTable : ℕ → ℕ → ℤ)
    (hf : ∀ i q, (fileTable i).fdInode = some q → q < s.brk) :
    FsOk { s with fileTable := fileTable, fdTable := fdTable } t r :=
  ⟨h.layout, h.ndebug, h.rep, h.cache.withFiles _ _, h.opened, hf⟩

/-- Taking a slot for an open inode. -/
theorem FsOk.takeSlot (h : FsOk s t r) (hq : q < s.brk) (g : ℕ) (file : File)
    (hfile : file.fdInode = some q ∨ file.fdInode = none) (fdTable : ℕ → ℕ → ℤ) :
    FsOk { s with fileTable := update s.fileTable g file, fdTable := fdTable } t r := by
  refine h.withFiles fdTable fun i q' hi => ?_
  by_cases hig : i = g
  · rw [hig, update_self] at hi
    rcases hfile with hf | hf
    · rw [hf] at hi
      rwa [← Option.some.inj hi]
    · rw [hf] at hi
      cases hi
  · rw [update_of_ne hig] at hi
    exact h.files i q' hi

theorem FsOk.setDeny (h : FsOk s t r) (hq : 0 < r q) (b : Bool) :
    FsOk (s.setInode q { s.inodes q with writeDeny := b }) t r := by
  have hmem := (h.cache.mem q).2 hq
  have hframe : Frame s { s.setInode q { s.inodes q with writeDeny := b } with part := s.part } :=
    frame_setInode s s.part rfl
  have hsame := h.cache.same q hmem
  refine ⟨h.layout, h.ndebug, h.rep, h.cache.sync (p := s.part) hmem rfl rfl
    ⟨hsame.iNo, hsame.iSize, hsame.iSectors⟩ fun _ _ _ => rfl, fun q' hq' => ?_, h.files⟩
  have hno := hframe.iNo q' (h.cache.lt_brk q' hq')
  dsimp only at hno
  rw [hno]
  exact h.opened q' hq'

/-- A new cell for an inode of the tree. -/
theorem FsOk.push (h : FsOk s t r) {ino : Inode} (hcnt : ino.iOpenCnts = 1)
    (hnew : ∀ q ∈ s.openInodes, (s.inodes q).iNo ≠ ino.iNo) (hk : t.kind ino.iNo ≠ none)
    (hsame : ino.Same (s.part.vol.inode ino.iNo)) :
    FsOk { s.setInode s.brk ino with brk := s.brk + 1, openInodes := s.brk :: s.openInodes } t
      (hold r s.brk) := by
  have hc := h.cache.push hcnt (h.rep.contents.lt _ hk) hnew hsame
  refine ⟨h.layout, h.ndebug, h.rep, hc, fun q hq => ?_, fun i q hq =>
    (h.files i q hq).trans (Nat.lt_succ_self _)⟩
  change t.kind ((s.setInode s.brk ino).inodes q).iNo ≠ none
  rcases List.mem_cons.1 hq with rfl | hq
  · rwa [FileSys.setInode_inodes_self]
  · rw [FileSys.setInode_inodes_of_ne _ _ (h.cache.lt_brk q hq).ne]
    exact h.opened q hq

end Invariant

/-! ## `sys_open` -/

/-- What `sys_open` does: nothing; or it opens a file that exists, leaving its directory open; or it
makes a file. -/
inductive Opens (s : FileSys) (t : Tree ℕ (List UInt8)) (r : ℕ → ℕ) (pid : ℕ) (path : List UInt8)
    (flags : ℕ) : Option ℕ → FileSys → Tree ℕ (List UInt8) → (ℕ → ℕ) → Prop
  | refused {s' : FileSys} (hs : Frame s s') (h : FsOk s' t r) :
    Opens s t r pid path flags none s' t r
  | leaked {s' : FileSys} {dir : DirPtr} (hflags : flags < 4) (hs : Frame s s')
      (hdir : t.kind (s'.inodes (s'.dirInode dir)).iNo = some .dir)
      (h : FsOk s' t (holdDir r dir)) : Opens s t r pid path flags none s' t (holdDir r dir)
  | opened {s' : FileSys} {dir : DirPtr} {q g : ℕ} {fd : Option ℕ} (hflags : flags < 4)
      (hs : Cells s s') (hslot : TakesSlot s s' pid g q flags fd)
      (hdir : t.kind (s'.inodes (s'.dirInode dir)).iNo = some .dir)
      (hk : t.kind (s'.inodes q).iNo = some .file) (h : FsOk s' t (holdDir (hold r q) dir)) :
      Opens s t r pid path flags fd s' t (holdDir (hold r q) dir)
  | created {s' : FileSys} {d : ℕ} {c : List UInt8} {n q g : ℕ} {fd : Option ℕ}
      (hflags : 4 ≤ flags ∧ flags ≤ 7) (hs : Cells s s') (hslot : TakesSlot s s' pid g q flags fd)
      (hname : NewName t path d c) (hn : t.kind n = none) (hlt : n < 256)
      (hno : (s'.inodes q).iNo = n) (h : FsOk s' (t.insert d c n .file) (hold r q)) :
      Opens s t r pid path flags fd s' (t.insert d c n .file) (hold r q)

section Open

variable {s s' : FileSys} {t : Tree ℕ (List UInt8)} {r : ℕ → ℕ} {pid flags : ℕ}
  {path c : List UInt8} {fd : Option ℕ}

/-- What `file_open` does when there is a slot: it opens the inode, takes the slot, sets
`write_deny` for a writer, and installs a descriptor unless the file is busy. -/
structure FileOpens (s : FileSys) (pid n flags g q : ℕ) (s₁ : FileSys) (fd : Option ℕ)
    (s' : FileSys) : Prop where
  slot : getFreeSlotInGlobal s = some g
  open_inode : inodeOpen s n = .ok (q, s₁)
  state : s' =
    { s₁.setInode q { s₁.inodes q with
        writeDeny := decide (flags = 1 ∨ flags = 2) || (s₁.inodes q).writeDeny } with
      fileTable := update s₁.fileTable g
        { fdPos := 0, fdFlag := flags, fdInode := some q }
      fdTable := s'.fdTable }
  installs : Installs s₁ s' pid g fd
  busy : flags = 1 ∨ flags = 2 → (s₁.inodes q).writeDeny = true → fd = none

theorem FileSys.setInode_self (s : FileSys) (q : ℕ) : s.setInode q (s.inodes q) = s := by
  unfold FileSys.setInode
  rw [update_eq_self]

theorem fileOpen_cases {n : ℕ} (hrun : fileOpen s pid n flags = .ok (fd, s')) :
    (fd = none ∧ s' = s ∧ getFreeSlotInGlobal s = none) ∨
      ∃ g q s₁, FileOpens s pid n flags g q s₁ fd s' := by
  unfold fileOpen at hrun
  cases hslot : getFreeSlotInGlobal s with
  | none =>
    rw [hslot] at hrun
    obtain ⟨rfl, rfl⟩ := ok_pair hrun
    exact Or.inl ⟨rfl, rfl, rfl⟩
  | some g =>
    rw [hslot] at hrun
    obtain ⟨⟨q, s₁⟩, hopen, hrun⟩ := bind_eq_ok.1 hrun
    refine Or.inr ⟨g, q, s₁, ?_⟩
    dsimp only at hrun
    by_cases hw : flags = 1 ∨ flags = 2
    · rw [if_pos hw] at hrun
      change (if (s₁.inodes q).writeDeny = true then _ else _) = _ at hrun
      by_cases hdeny : (s₁.inodes q).writeDeny = true
      · rw [if_pos hdeny] at hrun
        obtain ⟨rfl, rfl⟩ := ok_pair hrun
        refine ⟨hslot, hopen, ?_, Or.inl ⟨rfl, rfl⟩, fun _ _ => rfl⟩
        rw [hdeny, Bool.or_true, ← hdeny, FileSys.setInode_self]
        rfl
      · rw [if_neg hdeny] at hrun
        obtain ⟨hs', hinst⟩ := pcbFdInstall_installs (Except.ok.inj hrun)
        refine ⟨hslot, hopen, ?_, hinst, fun _ h => absurd h hdeny⟩
        rw [decide_eq_true hw, Bool.true_or]
        exact hs'
    · rw [if_neg hw] at hrun
      obtain ⟨hs', hinst⟩ := pcbFdInstall_installs (Except.ok.inj hrun)
      refine ⟨hslot, hopen, ?_, hinst, fun h => absurd h hw⟩
      rw [decide_eq_false hw, Bool.false_or, FileSys.setInode_self]
      exact hs'

/-- Opening a file that exists. -/
theorem FsOk.fileOpen (path : List UInt8) {dir : DirPtr} {n : ℕ} (h : FsOk s t (holdDir r dir))
    (hdir : t.kind (s.inodes (s.dirInode dir)).iNo = some .dir) (hk : t.kind n = some .file)
    (hflags : flags < 4) (hrun : fileOpen s pid n flags = .ok (fd, s')) :
    ∃ r', Opens s t r pid path flags fd s' t r' := by
  rcases fileOpen_cases hrun with ⟨rfl, rfl, -⟩ | ⟨g, q, s₁, ho⟩
  · exact ⟨_, .leaked hflags (CacheStep.refl _).frame hdir h⟩
  obtain ⟨h3, h32, hfree⟩ := getFreeSlotInGlobal_eq_some ho.slot
  obtain ⟨q', s₁', hopen, hstep, h₁, hno, -⟩ := h.open_inode (ne_none_of_eq_some hk)
  obtain ⟨rfl, rfl⟩ := ok_pair (hopen.symm.trans ho.open_inode)
  set deny := decide (flags = 1 ∨ flags = 2) || (s₁'.inodes q').writeDeny
  have hq : 0 < hold (holdDir r dir) q' q' := hold_pos.2 (Or.inl rfl)
  have hbrk := h₁.cache.lt_brk q' ((h₁.cache.mem q').2 hq)
  have h₂ := (h₁.setDeny hq deny).takeSlot hbrk g
    { fdPos := 0, fdFlag := flags, fdInode := some q' } (Or.inl rfl) s'.fdTable
  have hframe : Frame s₁' { s₁'.setInode q' { s₁'.inodes q' with writeDeny := deny } with
    part := s₁'.part } := frame_setInode s₁' s₁'.part rfl
  have hstate := ho.state
  have hcells : Cells s₁' s' := by
    rw [hstate]
    exact ⟨hframe.rootInode, hframe.brk, hframe.iNo⟩
  have hdir' : s'.dirInode dir = s.dirInode dir := by
    cases dir with
    | rootDir => exact hcells.rootInode.trans hstep.rootInode
    | heap => rfl
  have hcells' := hstep.frame.cells.trans hcells
  rw [hold_holdDir] at h₂
  refine ⟨_, .opened (r := r) (q := q') (g := g) hflags hcells'
    (.of_step hstep ⟨h3, h32, by rw [hstep.fileTable]; exact hfree, by rw [hstate], ho.installs⟩)
    (hdir' ▸ (hcells'.iNo _ (h.cache.lt_brk _ h.cache.dirInode_mem)).symm ▸ hdir) ?_ ?_⟩
  · rw [hcells.iNo q' hbrk, hno]
    exact hk
  · rw [hstate]
    exact h₂

/-- A call that fails leaves the invariant alone. -/
theorem FsOk.of_unchanged (h : FsOk s t r) (hu : Unchanged s s') : FsOk s' t r ∧ Frame s s' := by
  have hino : ∀ q ∈ s'.openInodes, q ∈ s.openInodes ∧ s'.inodes q = s.inodes q := fun q hq => by
    rw [hu.openInodes] at hq
    exact ⟨hq, hu.inodes q (h.cache.lt_brk q hq)⟩
  have hc := h.cache
  refine ⟨⟨h.layout.of_geometry (congrArg Volume.geometry hu.vol), hu.ndebug.trans h.ndebug,
    by rw [hu.vol]; exact h.rep, ⟨by rw [hu.openInodes]; exact hc.nodup,
      fun q => by rw [hu.openInodes]; exact hc.mem q, fun q hq => ?_, fun q hq => ?_,
      fun q hq q' hq' heq => ?_, fun q hq => ?_, fun q hq => ?_, ?_, ?_⟩, fun q hq => ?_,
    fun i q hq => ?_⟩, hu.rootInode, hu.fileTable, hu.fdTable, hu.brk, fun q hq => by
      rw [hu.inodes q hq]⟩
  · exact (hc.lt_brk q (hino q hq).1).trans_le hu.brk
  · rw [(hino q hq).2]
    exact hc.cnt q (hino q hq).1
  · rw [(hino q hq).2, (hino q' hq').2] at heq
    exact hc.inj q (hino q hq).1 q' (hino q' hq').1 heq
  · rw [(hino q hq).2]
    exact hc.lt q (hino q hq).1
  · rw [(hino q hq).2, hu.vol]
    exact hc.same q (hino q hq).1
  · rw [hu.rootInode, hu.openInodes]
    exact hc.root
  · rw [hu.rootInode, hu.inodes _ (hc.lt_brk _ hc.root)]
    exact hc.root_iNo
  · rw [(hino q hq).2]
    exact h.opened q (hino q hq).1
  · rw [hu.fileTable] at hq
    exact (h.files i q hq).trans_le hu.brk

/-- The part of `sys_open` that makes a file, once the path has been searched. -/
theorem Searched.fileCreate {res : Tree.SearchResult} {record : PathSearchRecord} {s₁ s₂ : FileSys}
    (hs : Searched s t r res record s₁) (h : FsOk s t r) (hname : NewName t path res.dir c)
    (hlt : res.dir < 256) (hroom : RoomFor s t path) (hflags : 4 ≤ flags ∧ flags ≤ 7)
    (hrun : fileCreate s₁ pid record.parentDir c flags = .ok (fd, s₂)) :
    ∃ t' r', Opens s t r pid path flags fd (dirClose s₂ record.parentDir) t' r' := by
  have hmem := hs.ok.cache.dirInode_mem
  have hready := hs.dirReady
  rcases fileCreate_cases hready hrun with ⟨rfl, hu⟩ |
    ⟨n, g, v, ino, p, hno, hslot, -, hins, hv, hinst⟩
  · obtain ⟨h₂, hframe⟩ := hs.ok.of_unchanged hu
    have hframe₂ := hs.step.frame.trans hframe
    refine ⟨t, r, .refused (hframe₂.trans (cacheStep_dirClose _ _).frame) (h₂.close_dir ?_)⟩
    rw [hframe₂.rootInode]
    exact h.root_held
  rw [hs.step.part] at hno
  have hn256 := RoomFor.lt (hroom.number _ _ hname) hno
  have hn := h.kind_of_free hno.free
  have hsame := hs.ok.cache.same _ hmem
  rw [hs.iNo] at hsame
  rw [hins.iNo, hs.iNo, Nat.mod_eq_of_lt hlt, Nat.mod_eq_of_lt hn256] at hv
  have hsize : (s₁.inodes (s₁.dirInode record.parentDir)).iSize < 6048 := by
    rw [hsame.iSize, hs.step.part]
    exact hroom.entry _ _ hname
  have hrep := hs.ok.rep.create hname.dir hs.ok.layout.addressable hname.child hname.name
    hname.ne_dot hname.ne_dotDot hn hno.lt hsame hsize hins
  rw [← hv] at hrep
  have h₂ := hs.ok.inserted hmem hs.iNo hname.dir hn hins rfl rfl hv hrep
  -- the new inode is on the list, and in the slot
  have hframe := frame_setInode s₁ p hins.iNo
  have hkn : (t.insert res.dir c n .file).kind n = some .file := update_self ..
  have h₃ := h₂.push (show { inodeInit n with iOpenCnts := 1 }.iOpenCnts = 1 from rfl)
    (fun q hq => by
      rw [hframe.iNo q (hs.ok.cache.lt_brk q hq)]
      intro hqn
      exact hs.ok.opened q hq (by rw [hqn]; exact hn)) (ne_none_of_eq_some hkn) (by
      change Inode.Same _ (p.vol.inode n)
      rw [hv, Volume.setInode_inode_self]
      exact ⟨rfl, rfl, fun _ _ => rfl⟩)
  obtain ⟨hs₂, hinst⟩ := pcbFdInstall_installs hinst.symm
  have h₄ : FsOk s₂ (t.insert res.dir c n .file) (hold (holdDir r record.parentDir) s₁.brk) := by
    rw [hs₂]
    exact h₃.takeSlot (Nat.lt_succ_self s₁.brk) g
      { fdPos := 0, fdFlag := flags, fdInode := some s₁.brk } (Or.inl rfl) s₂.fdTable
  rw [hold_holdDir] at h₄
  obtain ⟨h3, h32, hfree⟩ := getFreeSlotInGlobal_eq_some hslot
  have hclose := cacheStep_dirClose s₂ record.parentDir
  have hcells : Cells s₁ s₂ := by
    rw [hs₂]
    refine ⟨rfl, Nat.le_succ _, fun q hq => ?_⟩
    have hq' := hframe.iNo q hq
    change (update (update s₁.inodes (s₁.dirInode record.parentDir) ino) s₁.brk _
      q).iNo = _
    rw [update_of_ne hq.ne]
    exact hq'
  have hcells' := hs.step.frame.cells.trans hcells
  have hbrk : s₁.brk < s₂.brk := by
    rw [hs₂]
    exact Nat.lt_succ_self _
  refine ⟨_, _, .created (q := s₁.brk) (g := g) hflags (hcells'.trans hclose.frame.cells)
    (.of_step hs.step (.trans_step ⟨h3, h32, hfree, by rw [hs₂]; rfl, hinst⟩ hclose))
    hname hn hn256 ?_
    (h₄.close_dir (hold_pos.2 (Or.inr ?_)))⟩
  · rw [hclose.iNo hbrk, hs₂]
    exact congrArg Inode.iNo (createdState_inodes_brk s₁ _ n g flags p ino)
  · rw [hcells'.rootInode]
    exact h.root_held

/-- An outcome of opening on the state after the search, seen from the state before it. -/
theorem Opens.of_step {s₁ : FileSys} {r' : ℕ → ℕ} {t' : Tree ℕ (List UInt8)}
    (hstep : CacheStep s s₁) (ho : Opens s₁ t r pid path flags fd s' t' r') :
    Opens s t r pid path flags fd s' t' r' := by
  cases ho with
  | refused hs h => exact .refused (hstep.frame.trans hs) h
  | leaked hflags hs hdir h => exact .leaked hflags (hstep.frame.trans hs) hdir h
  | opened hflags hs hsl hdir hk h =>
    exact .opened hflags (hstep.frame.cells.trans hs) (hsl.of_step hstep) hdir hk h
  | created hflags hs hsl hname hn hlt hno h =>
    exact .created hflags (hstep.frame.cells.trans hs) (hsl.of_step hstep) hname hn hlt hno h

/-- **`sys_open`** opens a file that exists, or makes one. -/
theorem FsOk.open (h : FsOk s t r) (hp : PathArg path) {uninit : Uninit}
    (hlt : (t.resolve path).dir < 256) (hroom : 4 ≤ flags → RoomFor s t path)
    (hrun : sysOpen s uninit pid path flags = .ok (fd, s')) :
    ∃ t' r', Opens s t r pid path flags fd s' t' r' := by
  cases openRun_of_sysOpen hrun with
  | slash => exact ⟨t, r, .refused (CacheStep.refl _).frame h⟩
  | refused hsearch =>
    have hs := (h.searched hp hsearch).2
    exact ⟨t, r, .refused (hs.close h).1.frame (hs.close h).2⟩
  | created hlast hcreat hflags hsearch htype hall hcreate =>
    obtain ⟨hf, hs⟩ := h.searched hp hsearch
    obtain ⟨hr, hpath, hne, hiff⟩ := hs.searchedAll_iff h hp htype uninit
    obtain ⟨-, init, c, hcs, hname⟩ := h.newName hpath hr hne (Option.map_eq_none_iff.1 hf)
      (congrArg List.length (hiff.1 hall).symm)
    have hslash : slash ∈ path := by
      obtain ⟨tail, rfl⟩ := List.head?_eq_some_iff.1 hpath.head
      exact List.mem_cons_self
    rw [afterLastSlash_eq hslash hlast hcs] at hcreate
    exact hs.fileCreate h hname hlt (hroom hcreat) ⟨hcreat, hflags⟩ hcreate
  | opened _ hcreat hsearch htype _ hopen =>
    obtain ⟨hno, hs⟩ := h.searched hp hsearch
    have hk := h.kind_of_found hp (hs.found_file hno htype)
    obtain ⟨r', ho⟩ := hs.ok.fileOpen path (by rw [hs.iNo]; exact hs.kind) hk hcreat hopen
    exact ⟨t, r', ho.of_step hs.step⟩

end Open

/-! ## `sys_close` and `sys_write` -/

section Close

variable {s s' : FileSys} {t : Tree ℕ (List UInt8)} {r : ℕ → ℕ} {pid fd i q : ℕ}

theorem fdLocal2Global_eq_ok (h : fdLocal2Global s pid fd = .ok i) :
    fd < 8 ∧ i < 32 ∧ s.fdTable pid fd = i := by
  unfold fdLocal2Global at h
  obtain ⟨_, hlt, h⟩ := bind_eq_ok.1 h
  obtain ⟨_, hrange, h⟩ := bind_eq_ok.1 h
  have hlt := access_eq_ok.1 hlt
  have hrange := assert_eq_ok.1 hrange
  have := Except.ok.inj h
  omega

/-- What `sys_close` does on the descriptor of a file: it gives back the slot and the descriptor. -/
structure Closes (s : FileSys) (pid fd i q : ℕ) (s' : FileSys) : Prop where
  lt : i < 32
  fd_eq : s.fdTable pid fd = i
  slot : (s.fileTable i).fdInode = some q
  state : s' = { inodeClose (s.setInode q { s.inodes q with writeDeny := false }) q with
    fileTable := update s.fileTable i { s.fileTable i with fdInode := none }
    fdTable := update s.fdTable pid (update (s.fdTable pid) fd (-1)) }

theorem sysClose_cases {done : Bool} (hpipe : ∀ i, (s.fileTable i).fdFlag ≠ pipeFlag)
    (hrun : sysClose s pid fd = .ok (done, s')) :
    (fd ≤ 2 ∧ s' = s) ∨ 3 ≤ fd ∧ fd < 8 ∧ ∃ i q, Closes s pid fd i q s' := by
  unfold sysClose at hrun
  by_cases hfd : fd ≤ 2
  · rw [if_pos hfd] at hrun
    obtain ⟨-, rfl⟩ := ok_pair hrun
    exact Or.inl ⟨hfd, rfl⟩
  rw [if_neg hfd] at hrun
  obtain ⟨i, hi, hrun⟩ := bind_eq_ok.1 hrun
  obtain ⟨h8, h32, heq⟩ := fdLocal2Global_eq_ok hi
  rw [if_neg (hpipe i)] at hrun
  obtain ⟨s₁, hclose, -, rfl⟩ := bind_pair_eq_ok hrun
  unfold fileClose at hclose
  refine Or.inr ⟨by omega, h8, i, ?_⟩
  cases hq : (s.fileTable i).fdInode with
  | none =>
    rw [hq] at hclose
    cases hclose
  | some q =>
    rw [hq] at hclose
    obtain rfl := Except.ok.inj hclose
    have hstep := cacheStep_inodeClose (s.setInode q { s.inodes q with writeDeny := false }) q
    refine ⟨q, h32, heq, hq, ?_⟩
    simp only [FileSys.setFile, hstep.fileTable, hstep.fdTable]
    rfl

/-- **`sys_close`** takes away the holder that the descriptor was. -/
theorem FsOk.close (h : FsOk s t (hold r q)) (hroot : 0 < r s.rootInode)
    (hc : Closes s pid fd i q s') : FsOk s' t r ∧ Cells s s' := by
  have hq : 0 < hold r q q := hold_pos.2 (Or.inl rfl)
  have h₁ := (h.setDeny hq false).close_inode (q := q) hroot
  have hbrk := h.cache.lt_brk q ((h.cache.mem q).2 hq)
  have hstep := cacheStep_inodeClose (s.setInode q { s.inodes q with writeDeny := false }) q
  have hframe : Frame s { s.setInode q { s.inodes q with writeDeny := false } with
    part := s.part } := frame_setInode s s.part rfl
  have h₂ := h₁.takeSlot (hbrk.trans_le hstep.brk) i { s.fileTable i with fdInode := none }
    (Or.inr rfl) (update s.fdTable pid (update (s.fdTable pid) fd (-1)))
  have hcells := hframe.cells.trans hstep.frame.cells
  rw [hc.state]
  rw [hstep.fileTable] at h₂
  exact ⟨h₂, hcells.rootInode, hcells.brk, hcells.iNo⟩

/-- The inode behind a descriptor. -/
def fdInode (s : FileSys) (pid fd : ℕ) : Option ℕ :=
  if 0 ≤ s.fdTable pid fd then (s.fileTable (s.fdTable pid fd).toNat).fdInode else none

theorem fdInode_of_local (h : fdLocal2Global s pid fd = .ok i) :
    fdInode s pid fd = (s.fileTable i).fdInode := by
  obtain ⟨-, -, heq⟩ := fdLocal2Global_eq_ok h
  unfold fdInode
  rw [heq, if_pos (Int.natCast_nonneg i), Int.toNat_natCast]

/-- A `sys_read` that returns has read an open file. -/
theorem sysRead_eq_ok {count : ℕ} {res : Option ℕ} {bytes : List UInt8}
    (h : sysRead s pid fd count = .ok (res, bytes, s')) :
    ∃ i q file, (s.fileTable i).fdInode = some q ∧ s' = s.setFile i file ∧
      fileRead s.part.disk (s.fileTable i) (s.inodes q) count = .ok (res, bytes, file) := by
  obtain ⟨i, -, h⟩ := bind_eq_ok.1 h
  cases hi : (s.fileTable i).fdInode with
  | none =>
    simp only [hi] at h
    cases h
  | some q =>
    simp only [hi] at h
    obtain ⟨⟨n, bytes', file⟩, hread, h⟩ := bind_eq_ok.1 h
    obtain ⟨rfl, rfl, rfl⟩ := ok_triple h
    exact ⟨i, q, file, hi, rfl, hread⟩

/-- A `sys_write` that returns has refused the descriptor or written to its file. -/
theorem sysWrite_eq_ok {buf : Buf} {count : ℕ} {res : Option ℕ}
    (h : sysWrite s pid fd buf count = .ok (res, s')) :
    s' = s ∨ ∃ i q p file ino, fdInode s pid fd = some q ∧ (s.fileTable i).fdInode = some q ∧
      s' = { (s.setInode q ino).setFile i file with part := p } ∧
      fileWrite s.part (s.fileTable i) (s.inodes q) buf count = .ok (res, p, file, ino) := by
  obtain ⟨i, hlocal, h⟩ := bind_eq_ok.1 h
  dsimp only at h
  split at h
  · cases hi : (s.fileTable i).fdInode with
    | none =>
      simp only [hi] at h
      cases h
    | some q =>
      simp only [hi] at h
      obtain ⟨⟨n, p, file, ino⟩, hw, rfl, rfl⟩ := bind_pair_eq_ok h
      exact .inr ⟨i, q, p, file, ino, (fdInode_of_local hlocal).trans hi, hi, rfl, hw⟩
  · exact .inl (ok_pair h).2.symm

/-- A slot is set to what it held, up to the position. -/
theorem fileTable_update {file : File} (hin : file.fdInode = (s.fileTable i).fdInode)
    (hflag : file.fdFlag = (s.fileTable i).fdFlag) (j : ℕ) :
    (update s.fileTable i file j).fdInode = (s.fileTable j).fdInode ∧
      (update s.fileTable i file j).fdFlag = (s.fileTable j).fdFlag := by
  by_cases hj : j = i
  · rw [hj, update_self]
    exact ⟨hin, hflag⟩
  · rw [update_of_ne hj]
    exact ⟨rfl, rfl⟩

/-- The tables of open files are the same, up to the positions. -/
structure SameFiles (s s' : FileSys) : Prop where
  fdTable : s'.fdTable = s.fdTable
  fdInode : ∀ i, (s'.fileTable i).fdInode = (s.fileTable i).fdInode
  fdFlag : ∀ i, (s'.fileTable i).fdFlag = (s.fileTable i).fdFlag

/-- Appending to an open file. -/
theorem FsOk.fileWrite (h : FsOk s t r) (hq : 0 < r q)
    (hk : t.kind (s.inodes q).iNo = some .file) (hlt : (s.inodes q).iNo < 256) {buf : Buf}
    {count : ℕ} (hroom : WriteRoom s.part.vol (s.inodes q) count) {file file' : File}
    {res : Option ℕ} {p : Partition} {ino : Inode}
    (hrun : fileWrite s.part file (s.inodes q) buf count = .ok (res, p, file', ino)) :
    FsOk { s.setInode q ino with part := p } t r ∧ Frame s { s.setInode q ino with part := p } ∧
      file'.fdInode = file.fdInode ∧ file'.fdFlag = file.fdFlag := by
  have hmem := (h.cache.mem q).2 hq
  have hsame := h.cache.same q hmem
  have hok : FileOk s.part.vol (s.inodes q) := (h.rep.fileOk hk).congr rfl rfl hsame
  have hsize := hroom.size
  have hfits := hok.blocks.fits h.layout (by omega) (by omega)
  have hstart : s.part.vol.used s.part.sb.dataStartLba = true :=
    (h.rep.dirOk h.rep.root_kind).blocks.used_of_owns h.rep.owns_start
  obtain ⟨p', pos, ino', hrun', happ⟩ := exists_fileWrite h.layout hstart hfits hok file buf count
    hroom
  rw [hrun'] at hrun
  split at hrun
  swap
  · cases hrun
  obtain ⟨-, rfl, rfl, rfl⟩ : some count = res ∧ p' = p ∧ { file with fdPos := pos } = file' ∧
    ino' = ino := by simpa using hrun
  have hno : ino'.iNo = (s.inodes q).iNo := by rw [happ.inode]
  have hcnt : ino'.iOpenCnts = (s.inodes q).iOpenCnts := by rw [happ.inode]
  have hslot : ∀ m, p'.vol.inode m =
      ((s.part.vol.setInode (s.inodes q).iNo ino'.stored).inode m) := fun m => by
    rw [happ.vol, Nat.mod_eq_of_lt hlt]
  have hgeo : p'.vol.geometry = s.part.vol.geometry := by rw [happ.vol]; rfl
  have hframe := frame_setInode s p' hno
  refine ⟨⟨h.layout.of_geometry hgeo, (congrArg Geometry.ndebug hgeo).trans h.ndebug,
    h.rep.append hk hlt hsame happ, h.cache.sync hmem hno hcnt ?_ fun q' _ hne => ?_,
    fun q' hq' => ?_, h.files⟩, hframe, rfl, rfl⟩
  · rw [hno, hslot, Volume.setInode_inode_self]
    exact (Inode.same_stored ino').symm
  · rw [hslot, Volume.setInode_inode_of_ne _ _ (hno ▸ hne)]
  · rw [hframe.iNo q' (h.cache.lt_brk q' hq')]
    exact h.opened q' hq'

/-- **`sys_write`** leaves the tree alone. -/
theorem FsOk.write (h : FsOk s t r) {buf : Buf} {count : ℕ} {res : Option ℕ}
    (hfile : ∀ q, fdInode s pid fd = some q → 0 < r q ∧ t.kind (s.inodes q).iNo = some .file ∧
      (s.inodes q).iNo < 256 ∧ WriteRoom s.part.vol (s.inodes q) count)
    (hrun : sysWrite s pid fd buf count = .ok (res, s')) :
    FsOk s' t r ∧ Cells s s' ∧ SameFiles s s' := by
  obtain rfl | ⟨i, q, p, file, ino, hfd, hq, rfl, hw⟩ := sysWrite_eq_ok hrun
  · exact ⟨h, (CacheStep.refl s').frame.cells, rfl, fun _ => rfl, fun _ => rfl⟩
  obtain ⟨hr, hk, hlt, hroom⟩ := hfile q hfd
  obtain ⟨h', hframe, hin, hflag⟩ := h.fileWrite hr hk hlt hroom hw
  have hbrk := h.cache.lt_brk q ((h.cache.mem q).2 hr)
  have hfiles := fileTable_update hin hflag
  exact ⟨h'.takeSlot hbrk i file (Or.inl (hin.trans hq)) s.fdTable,
    ⟨hframe.rootInode, hframe.brk, hframe.iNo⟩, rfl, fun j => (hfiles j).1, fun j => (hfiles j).2⟩

end Close

end Gardos.Fs
