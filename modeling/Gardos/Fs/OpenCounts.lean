import Gardos.Fs.Holders
import Gardos.Fs.Safety

/-!
# Open directories across a call

A call on a path opens the directories on its way and has to close each of them again, on every
way out. `Counts s r` says that cell `q` has exactly `r q` users: it is on `open_inodes` if there is
one, with that count. Each function that works on open inodes is followed with `Counts`, whatever it
does to the disk, so that a call which gives up in the middle is covered too.

`dirsBalanced_iff` says which calls leave the directories open as often as before: all but a
`sys_open` of an existing file below the root directory, an `sys_rmdir` of a directory that is open,
and `sys_opendir("/")`.
-/

namespace Gardos.Fs

open Bytes Outcome Function

/-! ## Exact counts -/

/-- `i_open_cnts` of the inode in cell `q` if it is on `open_inodes`. -/
def openCnts (s : FileSys) (q : ℕ) : Option ℕ :=
  if q ∈ s.openInodes then some (s.inodes q).iOpenCnts else none

/-- The same for the number of users. -/
def usersOf (n : ℕ) : Option ℕ := if 0 < n then some n else none

section Inodes

variable {s s' : FileSys} {r : ℕ → ℕ} {n q : ℕ} {dir : DirPtr}

theorem Counts.openCnts_eq (h : Counts s r) (q : ℕ) : openCnts s q = usersOf (r q) := by
  unfold openCnts usersOf
  by_cases hq : q ∈ s.openInodes
  · rw [if_pos hq, if_pos ((h.mem q).1 hq), h.cnt q hq]
  · rw [if_neg hq, if_neg fun hr => hq ((h.mem q).2 hr)]

theorem Counts.withPart (h : Counts s r) (p : Partition) : Counts { s with part := p } r :=
  h.of_eq rfl le_rfl rfl fun _ _ => rfl

/-- **`inode_open`** adds a user. -/
theorem Counts.inodeOpen (h : Counts s r) (hrun : inodeOpen s n = .ok (q, s')) :
    Counts s' (hold r q) := by
  rcases inodeOpen_cases hrun with ⟨hf, rfl⟩ | ⟨-, -, rfl, rfl⟩
  · exact h.share (findInode_eq_some hf).1
  · exact h.push (pushes_setInode rfl)

theorem Counts.dirClose (h : Counts s (holdDir r dir)) : Counts (dirClose s dir) r := by
  cases dir with
  | rootDir => exact h
  | heap q => exact Counts.inodeClose h

end Inodes

/-! ## Functions on open inodes -/

section Functions

variable {s s' : FileSys} {r : ℕ → ℕ} {pid flags n : ℕ} {dir : DirPtr} {name : List UInt8}
  {fd : Option ℕ}

/-- `delete_dir_entry` leaves the number and the count of the directory alone. -/
theorem deleteDirEntry_sameUse {p p' : Partition} {ino ino' : Inode} {done : Bool}
    (h : deleteDirEntry p ino n = .ok (done, p', ino')) : ino.SameUse ino' := by
  unfold deleteDirEntry at h
  dsimp only at h
  split at h
  · obtain ⟨-, hrest⟩ := ok_pair h
    exact (Prod.mk.inj hrest).2 ▸ ⟨rfl, rfl⟩
  split at h
  · obtain ⟨⟨p₁, ino₁⟩, hremove, h⟩ := bind_eq_ok.1 h
    obtain ⟨_, -, h⟩ := bind_eq_ok.1 h
    obtain ⟨p₂, -, -, hrest⟩ := bind_pair_eq_ok h
    have hino : ino.SameUse ino₁ := by
      unfold removeEntry at hremove
      dsimp only at hremove
      split at hremove
      · split at hremove
        · exact (ok_pair hremove).2 ▸ ⟨rfl, rfl⟩
        · cases hremove
      · exact (ok_pair hremove).2 ▸ ⟨rfl, rfl⟩
    rw [← (Prod.mk.inj hrest).2]
    exact ⟨hino.iNo, hino.iOpenCnts⟩
  · cases h

theorem cells_withPart (s : FileSys) (p : Partition) : Cells s { s with part := p } :=
  ⟨rfl, le_rfl, fun _ _ => rfl⟩

/-- **`inode_release`** closes the inode that it opens. -/
theorem Counts.inodeRelease (h : Counts s r) (hrun : inodeRelease s n = .ok s') :
    Counts s' r ∧ Cells s s' := by
  obtain ⟨⟨q, s₁⟩, hopen, hrun⟩ := bind_eq_ok.1 hrun
  have hcells := (h.holds.inodeOpen hopen).2.1.cells
  have hclose : ∀ p, Counts (Fs.inodeClose { s₁ with part := p } q) r ∧
      Cells s (Fs.inodeClose { s₁ with part := p } q) := fun p =>
    ⟨((h.inodeOpen hopen).withPart p).inodeClose, (hcells.trans (cells_withPart s₁ p)).trans
      (cacheStep_inodeClose _ q).cells⟩
  obtain ⟨_, -, hrun⟩ := bind_eq_ok.1 hrun
  dsimp only at hrun
  split at hrun
  · obtain ⟨_, -, hrun⟩ := bind_eq_ok.1 hrun
    obtain ⟨_, -, hrun⟩ := bind_eq_ok.1 hrun
    obtain ⟨p, -, hrun⟩ := bind_eq_ok.1 hrun
    exact pure_eq_ok.1 hrun ▸ hclose p
  · obtain ⟨_, -, hrun⟩ := bind_eq_ok.1 hrun
    obtain ⟨_, -, hrun⟩ := bind_eq_ok.1 hrun
    obtain ⟨p, -, hrun⟩ := bind_eq_ok.1 hrun
    exact pure_eq_ok.1 hrun ▸ hclose p

/-- `sys_mkdir` builds the new directory without opening it. -/
theorem Counts.mkdirIn (h : Counts s r) {done : Bool} (hrun : mkdirIn s dir name = .ok (done, s')) :
    Counts s' r := by
  obtain ⟨⟨no, p⟩, -, hrun⟩ := bind_eq_ok.1 hrun
  cases no with
  | none => exact (ok_pair hrun).2 ▸ h
  | some n =>
    obtain ⟨⟨lba, p₁⟩, -, hrun⟩ := bind_eq_ok.1 hrun
    cases lba with
    | none => exact (ok_pair hrun).2 ▸ h.withPart _
    | some lba =>
      obtain ⟨_, -, hrun⟩ := bind_eq_ok.1 hrun
      dsimp only at hrun
      obtain ⟨e, -, hrun⟩ := bind_eq_ok.1 hrun
      obtain ⟨⟨synced, p₂, ino⟩, hsync, hrun⟩ := bind_eq_ok.1 hrun
      have hset : Counts { s.setInode (s.dirInode dir) ino with part := p₂ } r :=
        h.setInode (syncDirEntry_entered hsync).iOpenCnts
      dsimp only at hrun
      split at hrun
      · exact (ok_pair hrun).2 ▸ hset.withPart _
      · obtain ⟨p₃, -, hrun⟩ := bind_eq_ok.1 hrun
        obtain ⟨p₄, -, hrun⟩ := bind_eq_ok.1 hrun
        exact (ok_pair hrun).2 ▸ hset.withPart _

/-- **`file_open`** fails, or it opens the inode. -/
theorem Counts.fileOpen (h : Counts s r) (hrun : fileOpen s pid n flags = .ok (fd, s')) :
    Counts s' r ∨ ∃ q s₁, Fs.inodeOpen s n = .ok (q, s₁) ∧ (s'.inodes q).iNo = (s₁.inodes q).iNo ∧
      Counts s' (hold r q) := by
  rcases fileOpen_cases hrun with ⟨rfl, rfl, -⟩ | ⟨g, q, s₁, hopens⟩
  · exact Or.inl h
  · have h₁ := h.inodeOpen hopens.open_inode
    refine Or.inr ⟨q, s₁, hopens.open_inode, ?_, ?_⟩ <;> rw [hopens.state]
    · exact apply_update_eq Inode.iNo (by rfl) q
    · exact h₁.of_eq rfl le_rfl rfl fun p _ => apply_update_eq Inode.iOpenCnts (by rfl) p

/-- **`file_create`** fails, or the new inode is open with a number that was free. -/
theorem Counts.fileCreate (h : Counts s r) (hdir : s.dirInode dir < s.brk)
    (hrun : fileCreate s pid dir name flags = .ok (fd, s')) :
    Counts s' r ∨ (Counts s' (hold r s.brk) ∧ ∃ p,
      inodeBitmapAlloc s.part = .ok (some (s'.inodes s.brk).iNo, p)) := by
  cases FileCreated.of_fileCreate hrun with
  | noNumber => exact Or.inl h
  | noSlot =>
    exact Or.inl (h.of_eq rfl (Nat.le_succ _) rfl
      fun q hq => congrArg Inode.iOpenCnts (FileSys.newInodes_of_lt hq))
  | noEntry _ _ hsync =>
    exact Or.inl (h.of_eq rfl (Nat.le_succ _) rfl
      fun q hq => (newInodes_sameUse hsync hq).iOpenCnts)
  | @created n _ p _ _ _ ino _ _ halloc _ _ hsync _ _ hinst =>
    obtain ⟨hs', -⟩ := pcbFdInstall_installs hinst
    rw [FileSys.update_newInodes_brk hdir] at hs'
    have hnew : s'.inodes s.brk = { inodeInit n with iOpenCnts := 1 } := by
      rw [hs']
      exact update_self ..
    refine Or.inr ⟨h.push ⟨by rw [hs'], by rw [hs'], by rw [hs'], by rw [hnew],
      fun q hq => ?_⟩, p, by rw [hnew]; exact halloc⟩
    rw [hs']
    dsimp only
    rw [update_of_ne hq.ne]
    exact (newInodes_sameUse hsync hq).iOpenCnts

end Functions

/-! ## Calls -/

section Calls

variable {s s' : FileSys} {t : Tree ℕ (List UInt8)} {r : ℕ → ℕ} {path : List UInt8}
  {uninit : Uninit} {done : Bool}

/-- The calls that are given a path. -/
def Call.onPath : Call → Option (List UInt8)
  | .open _ path _ => some path
  | .unlink path => some path
  | .mkdir path => some path
  | .rmdir path => some path
  | .opendir path => some path
  | .stat path => some path
  | .chdir path => some path
  | _ => none

/-- The directory that a successful `sys_opendir` has returned. -/
def Call.added (x' : FsRun) (done : Bool) : Call → Option ℕ
  | .opendir _ => if done then x'.dirs.head?.map x'.fs.dirInode else none
  | _ => none

/-- The number of the directory that a successful `sys_rmdir` has deleted. -/
def Call.gone (t : Tree ℕ (List UInt8)) (done : Bool) : Call → Option ℕ
  | .rmdir path => if done then (t.resolve path).found.map Prod.fst else none
  | _ => none

/-- Every directory inode is open as often as before the call: `sys_opendir` adds one to the
directory that it returns, and the directory that `sys_rmdir` deletes is not open any more. For
`sys_mkdir` this is about all inodes, so that it includes the new directory. -/
def DirsBalanced (t : Tree ℕ (List UInt8)) (c : Call) (x x' : FsRun) (done : Bool) : Prop :=
  ∀ q, t.kind (x'.fs.inodes q).iNo = some .dir ∨ (∃ path, c = .mkdir path) →
    openCnts x'.fs q =
      if c.gone t done = some (x'.fs.inodes q).iNo then none
      else if c.added x' done = some q then some ((openCnts x.fs q).getD 0 + 1)
      else openCnts x.fs q

/-- The calls that do not balance: `sys_open` of an existing regular file, unless the path is its
name in the root directory; `sys_opendir("/")`, which returns the static `root_dir` uncounted;
`sys_rmdir` of an empty directory that is open. -/
def Call.Leaks (s : FileSys) (t : Tree ℕ (List UInt8)) : Call → Prop
  | .open _ path flags => flags < 4 ∧ path.getLast? ≠ some slash ∧
      (∃ n, (t.resolve path).found = some (n, .file)) ∧ (t.resolve path).path = components path ∧
      2 ≤ (components path).length
  | .opendir path => path = [slash]
  | .rmdir path => ∃ n, (t.resolve path).found = some (n, .dir) ∧
      dirIsEmpty (s.part.vol.inode n) = true ∧ findInode s n ≠ none
  | _ => False

theorem balanced_of_counts {x x' : FsRun} {c : Call} (h : Counts x.fs r) (h' : Counts x'.fs r)
    (hgone : c.gone t done = none) (hadded : c.added x' done = none) :
    DirsBalanced t c x x' done := fun q _ => by
  rw [hgone, if_neg nofun, hadded, if_neg nofun, h.openCnts_eq, h'.openCnts_eq]

/-- **`sys_unlink`** closes what it opens. -/
theorem FsOk.unlink_counts (h : FsOk s t r) (hp : PathArg path)
    (hrun : sysUnlink s uninit path = .ok (done, s')) : Counts s' r := by
  cases h.unlinked hp hrun with
  | refused _ h' => exact h'.cache.counts
  | removed hs _ _ hdelete hrelease =>
    have huse := deleteDirEntry_sameUse hdelete
    exact ((hs.ok.cache.counts.setInode huse.iOpenCnts).inodeRelease hrelease).1.dirClose

/-- **`sys_mkdir`** closes what it opens. -/
theorem FsOk.mkdir_counts (h : FsOk s t r) (hp : PathArg path)
    (hrun : sysMkdir s uninit path = .ok (done, s')) : Counts s' r := by
  obtain ⟨record, s₁, hsearch, hs⟩ := h.search hp uninit
  have h₁ : Counts s₁ (holdDir r record.parentDir) := hs.ok.cache.counts
  unfold sysMkdir at hrun
  rw [hsearch, ok_bind] at hrun
  dsimp only at hrun
  split at hrun
  · exact (ok_pair hrun).2 ▸ h₁.dirClose
  obtain ⟨_, -, hrun⟩ := bind_eq_ok.1 hrun
  obtain ⟨_, -, hrun⟩ := bind_eq_ok.1 hrun
  split at hrun
  · exact (ok_pair hrun).2 ▸ h₁.dirClose
  obtain ⟨_, -, hrun⟩ := bind_eq_ok.1 hrun
  obtain ⟨⟨made, s₂⟩, hmk, hrun⟩ := bind_eq_ok.1 hrun
  exact (ok_pair hrun).2 ▸ (h₁.mkdirIn hmk).dirClose

/-- **`sys_rmdir`** closes what it opens, and succeeds on an empty directory only. -/
theorem FsOk.rmdir_counts (h : FsOk s t r) (hp : PathArg path)
    (hrun : sysRmdir s uninit path = .ok (done, s')) : Counts s' r ∧ Cells s s' ∧
      (done = true ↔ ∃ n, (t.resolve path).found = some (n, .dir) ∧
        dirIsEmpty (s.part.vol.inode n) = true) := by
  cases h.rmdirEnds hp hrun with
  | refused hs h' hfull =>
    refine ⟨h'.cache.counts, hs.cells, iff_of_false Bool.false_ne_true fun ⟨n, hn, hempty⟩ => ?_⟩
    rw [hfull n hn] at hempty
    cases hempty
  | @removed n q record s₁ s₂ s₃ _ p ino hs hstep h₂ hf _ hempty hdelete hrelease =>
    have huse := deleteDirEntry_sameUse hdelete
    obtain ⟨h₃, hcells⟩ := (h₂.cache.counts.setInode (p := p) huse.iOpenCnts).inodeRelease hrelease
    have h₃ : Counts s₃ (holdDir (holdDir r record.parentDir) (.heap q)) := h₃
    have hcells₃ := (frame_setInode s₂ p huse.iNo).cells.trans hcells
    exact ⟨h₃.dirClose.dirClose, (((hs.step.trans hstep).cells.trans hcells₃).trans
      (cacheStep_dirClose _ _).cells).trans (cacheStep_dirClose _ _).cells,
      iff_of_true rfl ⟨n, hf, hempty⟩⟩

/-- What **`sys_open`** leaves open: nothing new, the file, or the directory in which it found the
file as well. -/
inductive OpenLeaves (s' : FileSys) (t : Tree ℕ (List UInt8)) (r : ℕ → ℕ) : Prop
  | nothing (h : Counts s' r)
  | file (f : ℕ) (h : Counts s' (hold r f)) (hf : t.kind (s'.inodes f).iNo ≠ some .dir)

theorem FsOk.open_counts (h : FsOk s t r) (hp : PathArg path) {pid flags : ℕ} {fd : Option ℕ}
    (hrun : sysOpen s uninit pid path flags = .ok (fd, s')) :
    (¬(Call.open pid path flags).Leaks s t ∧ OpenLeaves s' t r) ∨
      ((Call.open pid path flags).Leaks s t ∧ ∃ q, t.kind (s'.inodes q).iNo = some .dir ∧
        OpenLeaves s' t (hold r q)) := by
  cases openRun_of_sysOpen hrun with
  | slash hlast => exact Or.inl ⟨fun hl => hl.2.1 hlast, .nothing h.cache.counts⟩
  | refused hsearch hno =>
    obtain ⟨hf, hs⟩ := h.searched hp hsearch
    refine Or.inl ⟨fun ⟨hlt, _, ⟨n, hn⟩, hall, _⟩ => ?_, .nothing hs.ok.cache.counts.dirClose⟩
    -- a file that is there would have been opened
    have hreg := hs.type
    rw [hn] at hf hreg
    have htype : _ ≠ FileTypes.directory := fun hd => FileTypes.noConfusion (hreg.symm.trans hd)
    have hnone := (hno htype ((hs.searchedAll_iff h hp htype uninit).2.2.2.2 hall)).2 hlt
    rw [← hf] at hnone
    cases hnone
  | created _ hcreat _ hsearch _ _ hcreate =>
    obtain ⟨-, hs⟩ := h.searched hp hsearch
    have h₁ := hs.ok.cache.counts
    refine Or.inl ⟨fun hl => absurd hl.1 (not_lt.2 hcreat), ?_⟩
    rcases h₁.fileCreate h₁.holds.dirInode_lt hcreate with h₂ | ⟨h₂, p, halloc⟩
    · exact .nothing h₂.dirClose
    · have hmem := (h₂.mem _).2 (hold_pos.2 (Or.inl rfl))
      have hfree := (vol_inodeBitmapAlloc hs.ok.layout halloc).1.free
      rw [hold_holdDir] at h₂
      refine .file _ h₂.dirClose fun hk => ?_
      rw [(cacheStep_dirClose _ _).iNo (h₂.lt_brk _ hmem), hs.ok.kind_of_free hfree] at hk
      cases hk
  | @opened record s₁ _ _ n hlast hcreat hsearch htype hall hopen =>
    obtain ⟨hno, hs⟩ := h.searched hp hsearch
    have h₁ := hs.ok.cache.counts
    have hf := hs.found_file hno htype
    have hk := h.kind_of_found hp hf
    obtain ⟨-, -, hne, hiff⟩ := hs.searchedAll_iff h hp htype uninit
    have hall := hiff.1 hall
    have hleaves : OpenLeaves s' t (holdDir r record.parentDir) := by
      rcases h₁.fileOpen hopen with h₂ | ⟨q, s₂, hopen', hno, h₂⟩
      · exact .nothing h₂
      · obtain ⟨q', s₂', hopen'', -, -, hno', -⟩ := hs.ok.open_inode (ne_none_of_eq_some hk)
        obtain ⟨rfl, rfl⟩ := ok_pair (hopen''.symm.trans hopen')
        refine .file q' h₂ fun hd => ?_
        rw [hno, hno', hk] at hd
        cases hd
    have hroot := hs.inRoot n hf
    cases hpar : record.parentDir with
    | rootDir =>
      rw [hpar] at hleaves
      have hone := hroot.1 hpar
      exact Or.inl ⟨fun ⟨_, _, _, _, h2⟩ => by rw [hall] at hone; omega, hleaves⟩
    | heap q =>
      have hlen : (components path).length ≠ 1 := fun h1 => by
        have hr' := hroot.2 (by rw [hall, h1])
        rw [hpar] at hr'
        cases hr'
      have hpos := List.length_pos_of_ne_nil hne
      have hq : q < s₁.brk := by
        have hlt := h₁.holds.dirInode_lt
        rw [hpar] at hlt
        exact hlt
      have hdir : (s₁.inodes q).iNo = (t.resolve path).dir := by
        rw [← hs.iNo, hpar]
        rfl
      rw [hpar] at hleaves
      refine Or.inr ⟨⟨hcreat, hlast, ⟨n, hf⟩, hall, by omega⟩, q, ?_, hleaves⟩
      rw [(h₁.holds.fileOpen hopen).1.iNo q hq, hdir]
      exact hs.kind

/-- **Open directories across a call.** For every well-formed state, every path and every flag, a
call that returns leaves the directories open as often as before exactly if it is none of the calls
that `Call.Leaks` lists. -/
theorem dirsBalanced_iff {x x' : FsRun} {c : Call} (h : FsOk x.fs t r) (hc : c.onPath = some path)
    (hp : PathArg path) (hrun : exec uninit x c = .ok (done, x')) :
    DirsBalanced t c x x' done ↔ ¬c.Leaks x.fs t := by
  have hcnt := h.cache.counts
  cases c with
  | «open» pid p flags =>
    obtain rfl : p = path := Option.some.inj hc
    obtain ⟨⟨fd, s'⟩, hopen, -, rfl⟩ := bind_pair_eq_ok hrun
    rcases h.open_counts hp hopen with ⟨hno, hleaves⟩ | ⟨hleak, q, hq, hleaves⟩
    · refine iff_of_true (fun q hq => ?_) hno
      have hq : t.kind (s'.inodes q).iNo = some .dir := hq.resolve_right fun ⟨_, hm⟩ => nomatch hm
      change openCnts s' q = openCnts x.fs q
      rw [hcnt.openCnts_eq]
      cases hleaves with
      | nothing h' => rw [h'.openCnts_eq]
      | file f h' hf => rw [h'.openCnts_eq, hold_of_ne r fun hqf : q = f => hf (hqf ▸ hq)]
    · refine iff_of_false (fun hbal => ?_) (not_not.2 hleak)
      have hcnts : openCnts s' q = openCnts x.fs q := hbal q (Or.inl hq)
      have hsome : openCnts s' q = some (r q + 1) := by
        cases hleaves with
        | nothing h' => rw [h'.openCnts_eq, hold_self, usersOf, if_pos (Nat.succ_pos _)]
        | file f h' hf =>
          rw [h'.openCnts_eq, hold_of_ne _ fun hqf : q = f => hf (hqf ▸ hq), hold_self, usersOf,
            if_pos (Nat.succ_pos _)]
      rw [hcnt.openCnts_eq, hsome, usersOf] at hcnts
      split at hcnts
      · have := Option.some.inj hcnts
        omega
      · cases hcnts
  | unlink p =>
    obtain rfl : p = path := Option.some.inj hc
    obtain ⟨⟨d, s'⟩, hcall, -, rfl⟩ := bind_pair_eq_ok hrun
    exact iff_of_true (balanced_of_counts hcnt (h.unlink_counts hp hcall) rfl rfl) fun hl => hl
  | mkdir p =>
    obtain rfl : p = path := Option.some.inj hc
    obtain ⟨⟨d, s'⟩, hcall, -, rfl⟩ := bind_pair_eq_ok hrun
    exact iff_of_true (balanced_of_counts hcnt (h.mkdir_counts hp hcall) rfl rfl) fun hl => hl
  | stat p =>
    obtain rfl : p = path := Option.some.inj hc
    obtain ⟨⟨st, s'⟩, hcall, -, rfl⟩ := bind_pair_eq_ok hrun
    obtain ⟨s₁, hrun₁, -, h₁⟩ := h.stat hp uninit
    obtain ⟨-, rfl⟩ := ok_pair (hrun₁.symm.trans hcall)
    exact iff_of_true (balanced_of_counts hcnt h₁.cache.counts rfl rfl) fun hl => hl
  | chdir p =>
    obtain rfl : p = path := Option.some.inj hc
    obtain ⟨⟨st, s'⟩, hcall, -, rfl⟩ := bind_pair_eq_ok hrun
    obtain ⟨s₁, hrun₁, -, h₁⟩ := h.chdir hp uninit
    obtain ⟨-, rfl⟩ := ok_pair (hrun₁.symm.trans hcall)
    exact iff_of_true (balanced_of_counts hcnt h₁.cache.counts rfl rfl) fun hl => hl
  | opendir p =>
    obtain rfl : p = path := Option.some.inj hc
    obtain ⟨⟨dir, s'⟩, hcall, rfl, rfl⟩ := bind_pair_eq_ok hrun
    by_cases hslash : p = [slash]
    · refine iff_of_false (fun hbal => ?_) (not_not.2 hslash)
      obtain ⟨_, -, hcall⟩ := bind_eq_ok.1 hcall
      rw [if_pos hslash] at hcall
      obtain ⟨rfl, rfl⟩ := ok_pair hcall
      have hroot := hbal x.fs.rootInode (Or.inl (by
        rw [h.cache.root_iNo]
        exact h.rep.root_kind))
      have hroot : openCnts x.fs x.fs.rootInode =
          some ((openCnts x.fs x.fs.rootInode).getD 0 + 1) := hroot.trans (if_pos rfl)
      rw [hcnt.openCnts_eq, usersOf, if_pos h.root_held] at hroot
      have := Option.some.inj hroot
      rw [Option.getD_some] at this
      omega
    · refine iff_of_true ?_ hslash
      obtain ⟨dir', s₁, hrun₁, -, hres⟩ := h.opendir hp hslash uninit
      obtain ⟨rfl, rfl⟩ := ok_pair (hrun₁.symm.trans hcall)
      split at hres
      · obtain ⟨q, rfl, -, h₁⟩ := hres
        have h₁ := h₁.cache.counts
        intro q' _
        change openCnts s₁ q' = if some q = some q' then _ else openCnts x.fs q'
        rw [h₁.openCnts_eq, hcnt.openCnts_eq]
        by_cases hq : q = q'
        · subst hq
          rw [if_pos rfl, hold_self, usersOf, if_pos (Nat.succ_pos _), usersOf]
          split
          · rfl
          · next h0 => rw [Nat.eq_zero_of_not_pos h0]; rfl
        · rw [if_neg fun he => hq (Option.some.inj he), hold_of_ne r (Ne.symm hq)]
      · obtain ⟨rfl, h₁⟩ := hres
        exact balanced_of_counts hcnt h₁.cache.counts rfl rfl
  | rmdir p =>
    obtain rfl : p = path := Option.some.inj hc
    obtain ⟨⟨d, s'⟩, hcall, rfl, rfl⟩ := bind_pair_eq_ok hrun
    obtain ⟨h', hcells, hdone⟩ := h.rmdir_counts hp hcall
    cases d with
    | false =>
      exact iff_of_true (balanced_of_counts hcnt h' rfl rfl) fun ⟨n, hf, he, _⟩ =>
        Bool.false_ne_true (hdone.2 ⟨n, hf, he⟩)
    | true =>
      obtain ⟨n, hf, he⟩ := hdone.1 rfl
      have hgone : (Call.rmdir p).gone t true = some n := by
        change (t.resolve p).found.map Prod.fst = some n
        rw [hf]
        rfl
      have hleaks : (Call.rmdir p).Leaks x.fs t ↔ findInode x.fs n ≠ none := by
        refine ⟨fun ⟨m, hm, _, hopen⟩ => ?_, fun hopen => ⟨n, hf, he, hopen⟩⟩
        obtain ⟨rfl, -⟩ := Prod.mk.inj (Option.some.inj (hf.symm.trans hm))
        exact hopen
      have hbal : ∀ q, openCnts s' q = openCnts x.fs q := fun q => by
        rw [h'.openCnts_eq, hcnt.openCnts_eq]
      rw [hleaks, not_not]
      constructor
      · -- an open inode of the directory would have to be gone
        intro hb
        refine findInode_eq_none.2 fun q hq hno => ?_
        have hno' : (s'.inodes q).iNo = n := (hcells.iNo q (h.cache.lt_brk q hq)).trans hno
        have hq' := hb q (Or.inl (by rw [hno']; exact h.kind_of_found hp hf))
        change openCnts s' q = _ at hq'
        rw [hgone, hno', if_pos rfl, hbal, openCnts, if_pos hq] at hq'
        cases hq'
      · intro hnone q _
        change openCnts s' q = if _ = some (s'.inodes q).iNo then none else openCnts x.fs q
        rw [hgone, hbal]
        split
        · next hno =>
          refine if_neg fun hq => findInode_eq_none.1 hnone q hq ?_
          rw [← hcells.iNo q (h.cache.lt_brk q hq)]
          exact (Option.some.inj hno).symm
        · rfl
  | close | write | read | closedir => cases hc

end Calls

/-- Making `"/a/b"` closes `"/a"` again. -/
theorem dirsBalanced_mkdir_sub : ∃ x t r x', execAll noUninit smallRun [.mkdir pathA] = .ok x ∧
    FsOk x.fs t r ∧ exec noUninit x (.mkdir [47, 97, 47, 98]) = .ok (true, x') ∧
    DirsBalanced t (.mkdir [47, 97, 47, 98]) x x' true := by
  obtain ⟨x, hrun, hreach, hx⟩ := exists_run [.mkdir pathA]
    (fun x => holds (exec noUninit x (.mkdir [47, 97, 47, 98])) (·.1)) (by decide +kernel)
  obtain ⟨⟨done, x'⟩, hmk, rfl⟩ := exists_of_holds hx
  obtain ⟨t, leak, h⟩ := smallRun_runOk.reach hreach.reach
  exact ⟨x, t, _, x', hrun, h.fs, hmk, (dirsBalanced_iff h.fs rfl
    (Or.inr ⟨⟨rfl, by decide, by decide, by decide⟩, by decide⟩) hmk).2 fun hl => hl⟩

/-- The file `"/a"` has been made and closed. `open("/./a")` without `O_CREAT` then leaves the root
directory open once more than before. -/
theorem not_dirsBalanced_open : ∃ x t r x',
    execAll noUninit smallRun [.open 1 pathA 4, .close 1 3] = .ok x ∧ FsOk x.fs t r ∧
      exec noUninit x (.open 1 [47, 46, 47, 97] 0) = .ok (true, x') ∧
      ¬ DirsBalanced t (.open 1 [47, 46, 47, 97] 0) x x' true := by
  obtain ⟨x, hrun, hreach, hx⟩ := exists_run [.open 1 pathA 4, .close 1 3]
    (fun x => decide (openCnts x.fs 0 = some 1) &&
      holds (exec noUninit x (.open 1 [47, 46, 47, 97] 0)) fun r =>
        r.1 && decide ((r.2.fs.inodes 0).iNo = 0) && decide (openCnts r.2.fs 0 = some 2))
    (by decide +kernel)
  obtain ⟨hbefore, hagain⟩ := Bool.and_eq_true_iff.1 hx
  obtain ⟨⟨done, x'⟩, hrun', hx'⟩ := exists_of_holds hagain
  simp only [Bool.and_eq_true, decide_eq_true_eq] at hbefore hx'
  obtain ⟨⟨rfl, hno⟩, hafter⟩ := hx'
  obtain ⟨t, leak, h⟩ := smallRun_runOk.reach hreach.reach
  refine ⟨x, t, _, x', hrun, h.fs, hrun', fun hbal => ?_⟩
  have hroot : openCnts x'.fs 0 = openCnts x.fs 0 :=
    hbal 0 (Or.inl (by rw [hno]; exact h.fs.rep.root_kind))
  rw [hbefore, hafter] at hroot
  cases hroot

end Gardos.Fs
