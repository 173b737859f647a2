import Gardos.Fs.Descriptors

/-!
# Open files without a look at the disk

What `sys_open` and `sys_close` do to the file table and to the counts of the inodes in memory, for
every content of the disk. `Holds` says that the cells with a known holder are on `open_inodes`,
with a count that is large enough for the known holders; nothing is said about directories and
blocks. `sysOpen_effect` is the effect of `sys_open`: it fails, or takes one free slot of the file
table for a cell that is new or that carries the number which the path names.
-/

namespace Gardos.Fs

open Bytes Outcome Function

section Inodes

variable {s s' : FileSys} {r r' : ℕ → ℕ} {n q : ℕ} {ino : Inode} {dir : DirPtr}

theorem Holds.mono (h : Holds s r) (hr : ∀ q, r' q ≤ r q) : Holds s r' :=
  ⟨h.lt_brk, h.root_lt, fun q hq => h.mem q (hq.trans_le (hr q)), fun q => (hr q).trans (h.le q)⟩

theorem Holds.setInode (h : Holds s r) (hcnt : ino.iOpenCnts = (s.inodes q).iOpenCnts) :
    Holds (s.setInode q ino) r := by
  exact h.of_eq rfl le_rfl rfl fun q' _ => apply_update_eq Inode.iOpenCnts hcnt q'

/-- A cell with a holder is in use. -/
theorem Holds.lt_of_hold (h : Holds s (hold r q)) : q < s.brk :=
  h.lt_brk q (h.mem q (hold_pos.2 (Or.inl rfl)))

theorem Holds.of_hold (h : Holds s (hold r q)) : Holds s r := by
  refine h.mono fun q' => ?_
  by_cases hq : q' = q
  · rw [hq, hold_self]
    exact Nat.le_succ _
  · rw [hold_of_ne r hq]

/-- **`inode_open`** adds a holder. The cell is new, or it was on the list with the number. -/
theorem Holds.inodeOpen (h : Holds s r) (hrun : inodeOpen s n = .ok (q, s')) :
    Holds s' (hold r q) ∧ CacheStep s s' ∧ (s.brk ≤ q ∨ (s.inodes q).iNo = n) := by
  rcases inodeOpen_cases hrun with ⟨hf, rfl⟩ | ⟨-, -, rfl, rfl⟩
  · obtain ⟨hmem, hno⟩ := findInode_eq_some hf
    exact ⟨h.share hmem, cacheStep_shareInode s q, Or.inr hno⟩
  · exact ⟨h.push (pushes_setInode rfl), cacheStep_loadInode s n, Or.inl le_rfl⟩

theorem Holds.dirClose (h : Holds s (holdDir r dir)) : Holds (dirClose s dir) r := by
  cases dir with
  | rootDir => exact h
  | heap q => exact Holds.inodeClose h

theorem Holds.dirOpen (h : Holds s r) (hrun : dirOpen s n = .ok (dir, s')) :
    Holds s' (holdDir r dir) ∧ CacheStep s s' := by
  obtain ⟨⟨q, s₁⟩, hopen, rfl, rfl⟩ := bind_pair_eq_ok hrun
  obtain ⟨hh, hstep, -⟩ := h.inodeOpen hopen
  exact ⟨hh, hstep⟩

theorem Holds.dirInode_lt (h : Holds s (holdDir r dir)) : s.dirInode dir < s.brk := by
  cases dir with
  | rootDir => exact h.root_lt
  | heap q => exact Holds.lt_of_hold h

end Inodes

/-! ## Searching -/

section Search

variable {r : ℕ → ℕ} {no : Option ℕ} {record' : PathSearchRecord} {s' : FileSys}

/-- `search_file` ends with the directory in the record open. -/
theorem Holds.searchFile {s : FileSys} {uninit : Uninit} {path : List UInt8} (h : Holds s r)
    (hrun : searchFile s uninit path = .ok (no, record', s')) :
    Holds s' (holdDir r record'.parentDir) ∧ CacheStep s s' := by
  refine searchFile_rule (I := fun s₁ dir => Holds s₁ (holdDir r dir) ∧ CacheStep s s₁) ?_
    ⟨h, CacheStep.refl s⟩ hrun
  rintro s₁ dir n dir' s₂ ⟨hh, hs⟩ hopen
  obtain ⟨hh', hs'⟩ := hh.dirClose.dirOpen hopen
  exact ⟨hh', (hs.trans (cacheStep_dirClose s₁ dir)).trans hs'⟩

end Search

/-! ## Opening a file -/

/-- An inode with another size and other blocks. -/
structure Inode.SameUse (a b : Inode) : Prop where
  iNo : b.iNo = a.iNo
  iOpenCnts : b.iOpenCnts = a.iOpenCnts

variable {p p' : Partition} {ino ino' : Inode} {done : Bool} {e : DirEntry}

/-- `ino'` is the inode of a directory with the inode `ino`, after the write of an entry. -/
structure Inode.Entered (ino ino' : Inode) : Prop extends ino.SameUse ino' where
  iSize : ino'.iSize = ino.iSize ∨ ino'.iSize = (ino.iSize + 24) % 4294967296

theorem Inode.Entered.refl (ino : Inode) : ino.Entered ino := ⟨⟨rfl, rfl⟩, Or.inl rfl⟩

/-- `sync_dir_entry` leaves the number and the count of the directory alone, and makes it longer by
24 bytes. -/
theorem syncDirEntry_entered (h : syncDirEntry p ino e = .ok (done, p', ino')) :
    ino.Entered ino' := by
  cases EntrySynced.of_syncDirEntry h with
  | slot => exact ⟨⟨rfl, rfl⟩, Or.inr rfl⟩
  | block => exact ⟨⟨rfl, rfl⟩, Or.inr rfl⟩
  | noBlock => exact .refl _
  | table => exact ⟨⟨rfl, rfl⟩, Or.inr rfl⟩
  | noTable => exact ⟨⟨rfl, rfl⟩, Or.inl rfl⟩

/-- The cells in use keep their numbers and counts when `file_create` enters its new inode. -/
theorem newInodes_sameUse {s : FileSys} {d n q : ℕ}
    (h : syncDirEntry p (s.newInodes n d) e = .ok (done, p', ino')) (hq : q < s.brk) :
    (s.inodes q).SameUse (update (s.newInodes n) d ino' q) := by
  by_cases hqd : q = d
  · subst hqd
    rw [FileSys.newInodes_of_lt hq] at h
    rw [update_self]
    exact (syncDirEntry_entered h).toSameUse
  · rw [update_of_ne hqd, FileSys.newInodes_of_lt hq]
    exact ⟨rfl, rfl⟩

/-- The slots in use stay as they are, and no slot is taken. -/
structure KeepsSlots (s s' : FileSys) : Prop where
  occupied : ∀ i, (s.fileTable i).fdInode ≠ none → s'.fileTable i = s.fileTable i
  free : ∀ i, (s.fileTable i).fdInode = none → (s'.fileTable i).fdInode = none ∧
    ((s'.fileTable i).fdFlag = (s.fileTable i).fdFlag ∨ (s'.fileTable i).fdFlag = 0)

theorem KeepsSlots.of_eq {s s' : FileSys} (h : s'.fileTable = s.fileTable) : KeepsSlots s s' :=
  ⟨fun i _ => by rw [h], fun i hi => ⟨by rw [h, hi], Or.inl (by rw [h])⟩⟩

theorem KeepsSlots.trans {s s₁ s' : FileSys} (h : KeepsSlots s s₁) (h' : KeepsSlots s₁ s') :
    KeepsSlots s s' := by
  refine ⟨fun i hi => ?_, fun i hi => ?_⟩
  · have h₁ := h.occupied i hi
    rw [h'.occupied i (by rwa [h₁]), h₁]
  · obtain ⟨h₁, hflag⟩ := h.free i hi
    obtain ⟨h₂, hflag'⟩ := h'.free i h₁
    exact ⟨h₂, hflag'.elim (fun heq => by rwa [heq]) Or.inr⟩

/-- The inode number that a path names. -/
def namedInode (s : FileSys) (uninit : Uninit) (path : List UInt8) : Option ℕ :=
  match searchFile s uninit path with
  | .ok (no, _, _) => no
  | .error _ => none

section Effect

variable {s s' : FileSys} {uninit : Uninit} {r : ℕ → ℕ} {pid flags : ℕ} {path : List UInt8}
  {fd : Option ℕ} {dir : DirPtr} {s₁ : FileSys}

/-- A call that leaves the tables of open files alone. -/
structure Refuses (s s' : FileSys) (r : ℕ → ℕ) (fd : Option ℕ) : Prop where
  fd : fd = none
  slots : KeepsSlots s s'
  fds : s'.fdTable = s.fdTable
  holds : Holds s' r

/-- `file_create` takes a slot for a new cell. -/
theorem Holds.fileCreate {name : List UInt8} (h : Holds s r)
    (hrun : fileCreate s pid dir name flags = .ok (fd, s')) :
    Cells s s' ∧ (Refuses s s' r fd ∨ ∃ g, TakesSlot s s' pid g s.brk flags fd ∧
      Holds s' (hold r s.brk)) := by
  cases FileCreated.of_fileCreate hrun with
  | noNumber => exact ⟨⟨rfl, le_rfl, fun _ _ => rfl⟩, Or.inl ⟨rfl, .of_eq rfl, rfl, h⟩⟩
  | @noSlot n =>
    have hcell : ∀ q < s.brk, s.newInodes n q = s.inodes q := fun q => FileSys.newInodes_of_lt
    exact ⟨⟨rfl, Nat.le_succ _, fun q hq => congrArg Inode.iNo (hcell q hq)⟩,
      Or.inl ⟨rfl, .of_eq rfl, rfl, h.of_eq rfl (Nat.le_succ _) rfl
        fun q hq => congrArg Inode.iOpenCnts (hcell q hq)⟩⟩
  | @noEntry n g _ _ _ _ hslot hsync =>
    obtain ⟨-, -, hfree⟩ := getFreeSlotInGlobal_eq_some hslot
    refine ⟨⟨rfl, Nat.le_succ _, fun q hq => (newInodes_sameUse hsync hq).iNo⟩,
      Or.inl ⟨rfl, ?_, rfl,
      h.of_eq rfl (Nat.le_succ _) rfl fun q hq => (newInodes_sameUse hsync hq).iOpenCnts⟩⟩
    constructor
    · intro i hi
      have hig : i ≠ g := fun hig => hi (hig ▸ hfree)
      exact update_of_ne hig _ _
    · intro i hi
      dsimp only
      by_cases hig : i = g
      · rw [hig, update_self]
        exact ⟨rfl, Or.inr rfl⟩
      · rw [update_of_ne hig]
        exact ⟨hi, Or.inl rfl⟩
  | created _ hslot _ hsync _ _ hinst =>
    obtain ⟨hle, hlt, hfree⟩ := getFreeSlotInGlobal_eq_some hslot
    obtain ⟨hs', hinst⟩ := pcbFdInstall_installs hinst
    have hcells : ∀ q < s.brk, (s.inodes q).SameUse (s'.inodes q) := fun q hq => by
      rw [hs']
      dsimp only
      rw [update_of_ne hq.ne]
      exact newInodes_sameUse hsync hq
    have hself : (s'.inodes s.brk).iOpenCnts = 1 := by
      rw [hs']
      dsimp only
      rw [update_self]
    refine ⟨⟨by rw [hs'], by rw [hs']; exact Nat.le_succ _, fun q hq => (hcells q hq).iNo⟩,
      Or.inr ⟨_, ⟨hle, hlt, hfree, by rw [hs'], hinst⟩, ?_⟩⟩
    exact h.push ⟨by rw [hs'], by rw [hs'], by rw [hs'], hself,
      fun q hq => (hcells q hq).iOpenCnts⟩

/-- `file_open` takes a slot for a cell that is new or has the number. -/
theorem Holds.fileOpen {n : ℕ} (h : Holds s r) (hrun : fileOpen s pid n flags = .ok (fd, s')) :
    Cells s s' ∧ (Refuses s s' r fd ∨ ∃ g q, TakesSlot s s' pid g q flags fd ∧
      Holds s' (hold r q) ∧ (s.brk ≤ q ∨ (s.inodes q).iNo = n)) := by
  rcases fileOpen_cases hrun with ⟨rfl, rfl, -⟩ | ⟨g, q, s₁, hopens⟩
  · exact ⟨⟨rfl, le_rfl, fun _ _ => rfl⟩, Or.inl ⟨rfl, .of_eq rfl, rfl, h⟩⟩
  · obtain ⟨hh, hstep, hcell⟩ := h.inodeOpen hopens.open_inode
    obtain ⟨hle, hlt, hfree⟩ := getFreeSlotInGlobal_eq_some hopens.slot
    have hno : ∀ p, (s'.inodes p).iNo = (s₁.inodes p).iNo := by
      rw [hopens.state]
      exact apply_update_eq Inode.iNo rfl
    have hcnt : ∀ p, (s'.inodes p).iOpenCnts = (s₁.inodes p).iOpenCnts := by
      rw [hopens.state]
      exact apply_update_eq Inode.iOpenCnts rfl
    have hbrk : s'.brk = s₁.brk := by rw [hopens.state]; rfl
    have hroot : s'.rootInode = s₁.rootInode := by rw [hopens.state]; rfl
    refine ⟨⟨hroot.trans hstep.rootInode, hbrk ▸ hstep.brk, fun p hp => ?_⟩,
      Or.inr ⟨g, q, .of_step hstep ⟨hle, hlt, by rw [hstep.fileTable]; exact hfree,
        by rw [hopens.state], hopens.installs⟩, ?_, hcell⟩⟩
    · rw [hno, hstep.iNo hp]
    · exact hh.of_eq (by rw [hopens.state]; rfl) hbrk.ge hroot fun p _ => hcnt p

theorem Refuses.dirClose (h : Refuses s s₁ (holdDir r dir) fd) :
    Refuses s (dirClose s₁ dir) r fd := by
  have hstep := cacheStep_dirClose s₁ dir
  exact ⟨h.fd, h.slots.trans (.of_eq hstep.fileTable), hstep.fdTable.trans h.fds,
    h.holds.dirClose⟩

theorem Refuses.of_step (hs : CacheStep s s₁) (h : Refuses s₁ s' r fd) : Refuses s s' r fd :=
  ⟨h.fd, (KeepsSlots.of_eq hs.fileTable).trans h.slots, h.fds.trans hs.fdTable, h.holds⟩

theorem CacheStep.cells (h : CacheStep s s₁) : Cells s s₁ := h.frame.cells

/-- **What `sys_open` does**, whatever is on the disk: it fails, or it takes a free slot for a cell
that is new or that carries the number of the path. -/
theorem sysOpen_effect (h : Holds s r) (hrun : sysOpen s uninit pid path flags = .ok (fd, s')) :
    Cells s s' ∧ (Refuses s s' r fd ∨ flags ≤ 7 ∧ ∃ g q, TakesSlot s s' pid g q flags fd ∧
      Holds s' (hold r q) ∧ (s.brk ≤ q ∨ flags < 4 ∧
        namedInode s uninit path = some (s.inodes q).iNo)) := by
  cases openRun_of_sysOpen hrun with
  | slash => exact ⟨⟨rfl, le_rfl, fun _ _ => rfl⟩, Or.inl ⟨rfl, .of_eq rfl, rfl, h⟩⟩
  | refused hsearch =>
    obtain ⟨hh, hstep⟩ := h.searchFile hsearch
    exact ⟨(hstep.trans (cacheStep_dirClose _ _)).cells, Or.inl (Refuses.dirClose ⟨rfl,
      .of_eq hstep.fileTable, hstep.fdTable, hh⟩)⟩
  | created _ _ hflags hsearch _ _ hcreate =>
    obtain ⟨hh, hstep⟩ := h.searchFile hsearch
    obtain ⟨hcells, hres⟩ := hh.fileCreate hcreate
    refine ⟨(hstep.cells.trans hcells).trans (cacheStep_dirClose _ _).cells, ?_⟩
    rcases hres with hr | ⟨g, htakes, hh₂⟩
    · exact Or.inl (hr.of_step hstep).dirClose
    · rw [hold_holdDir] at hh₂
      exact Or.inr ⟨hflags, g, _, (htakes.of_step hstep).trans_step (cacheStep_dirClose _ _),
        hh₂.dirClose, Or.inl hstep.brk⟩
  | @opened _ _ _ _ n _ hcreat hsearch _ _ hopen =>
    obtain ⟨hh, hstep⟩ := h.searchFile hsearch
    obtain ⟨hcells, hres⟩ := hh.fileOpen hopen
    refine ⟨hstep.cells.trans hcells, ?_⟩
    rcases hres with hr | ⟨g, q, htakes, hh₂, hcell⟩
    · have hr' := hr.of_step hstep
      exact Or.inl ⟨hr'.fd, hr'.slots, hr'.fds, hr'.holds.mono (le_holdDir r _)⟩
    · rw [hold_holdDir] at hh₂
      refine Or.inr ⟨by omega, g, q, htakes.of_step hstep, hh₂.mono (le_holdDir _ _), ?_⟩
      rcases Nat.lt_or_ge q s.brk with hq | hq
      · have hno : (s.inodes q).iNo = n := by
          rcases hcell with hge | hno
          · exact absurd (hq.trans_le hstep.brk) (not_lt.2 hge)
          · rw [← hno, hstep.iNo hq]
        refine Or.inr ⟨hcreat, ?_⟩
        unfold namedInode
        rw [hsearch, hno]
      · exact Or.inl hq

end Effect

end Gardos.Fs
