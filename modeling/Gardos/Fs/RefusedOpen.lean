import Gardos.Fs.Writers

/-!
# Opens that are refused

`file_open` takes a slot of the file table, counts the inode and sets `write_deny` before it learns
whether the file is busy and whether the task has a free descriptor, and it undoes none of this
when it refuses. `noTrace_iff`: an open of an existing file that is refused leaves no trace exactly
if it is refused because the file table is full, and then neither do any number of further tries.
-/

namespace Gardos.Fs

open Bytes Outcome

/-- `i_open_cnts` and `write_deny` of the inode with number `n`, if it is in memory. -/
def openState (s : FileSys) (n : ℕ) : Option (ℕ × Bool) :=
  (findInode s n).map fun q => ((s.inodes q).iOpenCnts, (s.inodes q).writeDeny)

/-- What a refused open of inode `n` by task `pid` has to leave as it was. -/
structure NoTrace (s s' : FileSys) (pid n : ℕ) : Prop where
  fileTable : s'.fileTable = s.fileTable
  inode : openState s' n = openState s n
  fdTable : s'.fdTable pid = s.fdTable pid

/-- The path names the regular file `n`. -/
structure PathToFile (t : Tree ℕ (List UInt8)) (path : List UInt8) (n : ℕ) : Prop where
  last : path.getLast? ≠ some slash
  found : (t.resolve path).found = some (n, .file)
  whole : (t.resolve path).path = components path

/-- A try of task `pid` to open a file that is refused. -/
def RefusedTry (pid : ℕ) (path : List UInt8) (flags : ℕ) (s s' : FileSys) : Prop :=
  ∃ uninit, sysOpen s uninit pid path flags = .ok (none, s')

section

variable {s s' : FileSys} {t : Tree ℕ (List UInt8)} {r : ℕ → ℕ} {path : List UInt8}
  {pid flags n : ℕ} {fd : Option ℕ}

theorem NoTrace.trans {s₁ s₂ s₃ : FileSys} (h : NoTrace s₁ s₂ pid n) (h' : NoTrace s₂ s₃ pid n) :
    NoTrace s₁ s₃ pid n :=
  ⟨h'.fileTable.trans h.fileTable, h'.inode.trans h.inode, h'.fdTable.trans h.fdTable⟩

theorem getFreeSlotInGlobal_congr (h : s'.fileTable = s.fileTable) :
    getFreeSlotInGlobal s' = getFreeSlotInGlobal s := by
  unfold getFreeSlotInGlobal
  rw [h]

/-- `sys_open` of a file that exists is `file_open` after the search. -/
theorem FsOk.open_file (h : FsOk s t r) (hp : PathArg path) (hf : PathToFile t path n)
    (hflags : flags < 4) {uninit : Uninit} (hrun : sysOpen s uninit pid path flags = .ok (fd, s')) :
    ∃ record s₁, Searched s t r (t.resolve path) record s₁ ∧
      Fs.fileOpen s₁ pid n flags = .ok (fd, s') := by
  cases openRun_of_sysOpen hrun with
  | slash hlast => exact absurd hlast hf.last
  | refused hsearch hno =>
    obtain ⟨hfound, hs⟩ := h.searched hp hsearch
    have hreg := hs.type
    rw [hf.found] at hfound hreg
    have htype : _ ≠ FileTypes.directory := fun hd => FileTypes.noConfusion (hreg.symm.trans hd)
    obtain ⟨-, -, -, hiff⟩ := hs.searchedAll_iff h hp htype uninit
    have hnone := (hno htype (hiff.2 hf.whole)).2 hflags
    rw [← hfound] at hnone
    cases hnone
  | created _ hcreat => exact absurd hflags (not_lt.2 hcreat)
  | opened _ _ hsearch _ _ hopen =>
    obtain ⟨hfound, hs⟩ := h.searched hp hsearch
    rw [hf.found] at hfound
    obtain rfl := Option.some.inj hfound
    exact ⟨_, _, hs, hopen⟩

/-- The search for a file leaves its inode alone. -/
theorem Searched.openState_eq {res : Tree.SearchResult} {record : PathSearchRecord}
    (hs : Searched s t r res record s') (h : FsOk s t r) (hk : t.kind n = some .file) :
    openState s' n = openState s n := by
  have hc := h.cache
  have hc' := hs.ok.cache
  -- the directory that the search holds is not the file
  have hcount : ∀ q, (s'.inodes q).iNo = n → holdDir r record.parentDir q = r q := by
    intro q hq
    cases hdir : record.parentDir with
    | rootDir => rfl
    | heap d =>
      refine hold_of_ne r fun heq => ?_
      have hiNo := hs.iNo
      rw [hdir] at hiNo
      change (s'.inodes d).iNo = _ at hiNo
      rw [← heq, hq] at hiNo
      rw [hiNo, hs.kind] at hk
      cases hk
  unfold openState
  cases hfind : findInode s n with
  | some q =>
    obtain ⟨hq, hno⟩ := findInode_eq_some hfind
    have hlt := hc.lt_brk q hq
    have hno' : (s'.inodes q).iNo = n := (hs.step.iNo hlt).trans hno
    have hq' : q ∈ s'.openInodes := by
      rw [hc'.mem, hcount q hno']
      exact (hc.mem q).1 hq
    have hfind' := hc'.findInode_eq hq'
    rw [hno'] at hfind'
    rw [hfind', Option.map_some, Option.map_some, hc'.cnt q hq', hc.cnt q hq, hcount q hno',
      hs.step.inodes q hlt]
  | none =>
    have hfind' : findInode s' n = none := by
      refine findInode_eq_none.2 fun q hq hno => ?_
      have hpos := (hc'.mem q).1 hq
      rw [hcount q hno, ← hc.mem] at hpos
      exact findInode_eq_none.1 hfind q hpos ((hs.step.iNo (hc.lt_brk q hpos)).symm.trans hno)
    rw [hfind', Option.map_none, Option.map_none]

/-- With a full file table, an open is refused right after the search. -/
theorem FsOk.refused_of_full (h : FsOk s t r) (hp : PathArg path) (hf : PathToFile t path n)
    (hflags : flags < 4) (hfull : getFreeSlotInGlobal s = none)
    (htry : RefusedTry pid path flags s s') : NoTrace s s' pid n ∧ ∃ r', FsOk s' t r' := by
  obtain ⟨uninit, hrun⟩ := htry
  obtain ⟨record, s₁, hs, hopen⟩ := h.open_file hp hf hflags hrun
  have hfull₁ := (getFreeSlotInGlobal_congr hs.step.fileTable).trans hfull
  unfold Fs.fileOpen at hopen
  rw [hfull₁] at hopen
  obtain ⟨-, rfl⟩ := ok_pair hopen
  exact ⟨⟨hs.step.fileTable, hs.openState_eq h (h.kind_of_found hp hf.found),
    congrFun hs.step.fdTable pid⟩, _, hs.ok⟩

/-- **Which refused opens leave no trace.** An open of an existing file that returns `-1`, and any
number of further tries after it, leave the file table, the counters of the inode and the
descriptors as they were exactly if the file table has no free slot: a file that is busy and a task
without a free descriptor are refused after the slot has been taken. -/
theorem noTrace_iff (h : FsOk s t r) (hp : PathArg path) (hf : PathToFile t path n)
    (hflags : flags < 4) {uninit : Uninit}
    (hrun : sysOpen s uninit pid path flags = .ok (none, s')) :
    (∀ s'', Relation.ReflTransGen (RefusedTry pid path flags) s' s'' → NoTrace s s'' pid n) ↔
      getFreeSlotInGlobal s = none := by
  constructor
  · intro htrace
    obtain ⟨record, s₁, hs, hopen⟩ := h.open_file hp hf hflags hrun
    have htab := (htrace s' .refl).fileTable
    rcases fileOpen_cases hopen with ⟨-, -, hfull⟩ | ⟨g, q, s₂, ho⟩
    · rw [← hfull, getFreeSlotInGlobal_congr hs.step.fileTable]
    · -- the slot that was free holds the inode now
      obtain ⟨-, -, hfree⟩ := getFreeSlotInGlobal_eq_some ho.slot
      have hslot : (s'.fileTable g).fdInode = some q := by
        rw [ho.state]
        simp only [Function.update_self]
      rw [htab, ← hs.step.fileTable, hfree] at hslot
      cases hslot
  · intro hfull s'' htries
    obtain ⟨hfirst, hok⟩ := h.refused_of_full hp hf hflags hfull ⟨uninit, hrun⟩
    refine (reach_invariant (I := fun x => NoTrace s x pid n ∧ ∃ r', FsOk x t r') htries
      ⟨hfirst, hok⟩ ?_).1
    rintro x y ⟨hx, r', hx'⟩ htry
    have hfull' := (getFreeSlotInGlobal_congr hx.fileTable).trans hfull
    obtain ⟨hy, hy'⟩ := hx'.refused_of_full hp hf hflags hfull' htry
    exact ⟨hx.trans hy, hy'⟩

/-- What the search returns for `"/a"` tells whether it is a file. -/
theorem FsOk.pathToFile_pathA (h : FsOk s t r) {record : PathSearchRecord}
    (hsearch : searchFile s noUninit pathA = .ok (some n, record, s'))
    (htype : record.fileType = .regular) : PathToFile t pathA n := by
  obtain ⟨record', s₁, hsearch', hs⟩ := h.search pathArg_pathA noUninit
  obtain ⟨hfound, hrecord⟩ := ok_pair (hsearch'.symm.trans hsearch)
  obtain ⟨rfl, rfl⟩ := Prod.mk.inj hrecord
  obtain ⟨⟨m, k⟩, hm, rfl⟩ := Option.map_eq_some_iff.1 hfound
  have hk := hs.type
  rw [hm, htype] at hk
  refine ⟨by decide, ?_, ?_⟩
  · cases k with
    | file => exact hm
    | dir => cases hk
  · unfold Tree.resolve
    rw [if_neg (by decide)]
    obtain ⟨init, c, hpc, hpre, -⟩ := @Tree.search_spec t (components pathA) 0 0
      h.rep.root_kind (by decide)
    have hone : (components pathA).length = 1 := by decide
    rw [← hpc] at hpre
    refine hpre.eq_of_length (le_antisymm hpre.length_le ?_)
    rw [hone, hpc, List.length_append, List.length_singleton]
    omega

end

/-- The file table in which every slot is taken. -/
def fullTable : ℕ → File := fun _ => { fdPos := 0, fdFlag := 0, fdInode := some 0 }

/-- A file has been made, and the file table is full. -/
theorem noTrace_of_full : ∃ s t r s', FsOk s t r ∧ PathToFile t pathA 1 ∧
    getFreeSlotInGlobal s = none ∧ sysOpen s noUninit 2 pathA 2 = .ok (none, s') ∧
    NoTrace s s' 2 1 := by
  obtain ⟨x, -, hreach, hx⟩ := exists_run [.open 1 pathA 6] (fun x => decide (0 < x.fs.brk) &&
      holds (searchFile { x.fs with fileTable := fullTable } noUninit pathA) (fun r =>
        decide (r.1 = some 1 ∧ r.2.1.fileType = .regular)) &&
      holds (sysOpen { x.fs with fileTable := fullTable } noUninit 2 pathA 2) fun r =>
        decide (r.1 = none)) (by decide +kernel)
  simp only [Bool.and_eq_true, decide_eq_true_eq] at hx
  obtain ⟨⟨hbrk, hsearch⟩, hopen⟩ := hx
  obtain ⟨⟨res, record, s₁⟩, hsearch, hres⟩ := exists_of_holds hsearch
  obtain ⟨⟨fd, s'⟩, hopen, hfd⟩ := exists_of_holds hopen
  obtain ⟨rfl, htype⟩ := of_decide_eq_true hres
  obtain rfl : fd = none := of_decide_eq_true hfd
  obtain ⟨t, leak, h⟩ := smallRun_runOk.reach hreach.reach
  have hs : FsOk { x.fs with fileTable := fullTable } t _ :=
    h.fs.withFiles x.fs.fdTable fun i q hq => Option.some.inj hq ▸ hbrk
  have hname := hs.pathToFile_pathA hsearch htype
  have hfull : getFreeSlotInGlobal { x.fs with fileTable := fullTable } = none := rfl
  exact ⟨_, t, _, s', hs, hname, hfull, hopen,
    (noTrace_iff hs pathArg_pathA hname (by decide) hopen).2 hfull s' .refl⟩

/-- Process 1 has made a file and process 2 writes it. The open of process 3 for writing is refused,
and slot 5 of the file table is taken. -/
theorem trace_of_busy : ∃ s t r s', FsOk s t r ∧ PathToFile t pathA 1 ∧
    sysOpen s noUninit 3 pathA 2 = .ok (none, s') ∧ (s.fileTable 5).fdInode = none ∧
    (s'.fileTable 5).fdInode = some 1 ∧ ¬ NoTrace s s' 3 1 := by
  obtain ⟨x, -, hreach, hx⟩ := exists_run [.open 1 pathA 6, .open 2 pathA 2]
    (fun x => decide ((x.fs.fileTable 5).fdInode = none) &&
      holds (searchFile x.fs noUninit pathA) (fun r =>
        decide (r.1 = some 1 ∧ r.2.1.fileType = .regular)) &&
      holds (sysOpen x.fs noUninit 3 pathA 2) fun r =>
        decide (r.1 = none ∧ (r.2.fileTable 5).fdInode = some 1)) (by decide +kernel)
  simp only [Bool.and_eq_true, decide_eq_true_eq] at hx
  obtain ⟨⟨hfree, hsearch⟩, hopen⟩ := hx
  obtain ⟨⟨res, record, s₁⟩, hsearch, hres⟩ := exists_of_holds hsearch
  obtain ⟨⟨fd, s'⟩, hopen, hfd⟩ := exists_of_holds hopen
  obtain ⟨rfl, htype⟩ := of_decide_eq_true hres
  obtain ⟨rfl, htaken⟩ : fd = none ∧ (s'.fileTable 5).fdInode = some 1 := of_decide_eq_true hfd
  obtain ⟨t, leak, h⟩ := smallRun_runOk.reach hreach.reach
  refine ⟨x.fs, t, _, s', h.fs, h.fs.pathToFile_pathA hsearch htype, hopen, hfree, htaken,
    fun htrace => ?_⟩
  rw [htrace.fileTable, hfree] at htaken
  cases htaken

end Gardos.Fs
