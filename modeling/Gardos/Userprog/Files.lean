import Gardos.Foundations.Outcome
import Gardos.Foundations.Table
import Gardos.Fs.Writers

/-!
# Descriptors across `fork` and `exit` (`userprog/fork.c`, `userprog/wait_exit.c`)

`sys_fork` copies the descriptor table and counts the child among the users of each inode or pipe;
`sys_exit` closes what is open. The slot of the file table itself has no count, so the two tables
share it.

The system of this module is any number of processes that open and close regular files, fork and
exit, and of kernel threads. `file_create` takes the inode from the heap of the task that runs
(`Gardos.Fs.Pools`), where no other task finds it if the task is a process. The model has one memory
for inodes, so it is a model of the runs in which only kernel threads create files.

`FdsValid` says that every descriptor still names the inode on which it was opened.
`fdsValid_of_run` shows it for runs in which a process closes only descriptors whose slot no other
descriptor names, and `dangling_of_child_close` that a child which closes a file takes it away from
its parent.
-/

namespace Gardos.Userprog

open Outcome Fs Function

/-! ## The files of a process -/

/-- The descriptors of a process for files. -/
def localFds : List ℕ := [3, 4, 5, 6, 7]

/-- One round of the loop of `update_inode_open_cnts`. The test `is_pipe` looks at the table of the
parent, which runs. -/
def updateInodeOpenCnt (parent child : ℕ) (s : FileSys) (fd : ℕ) : Outcome FileSys := do
  let globalFd := s.fdTable child fd
  assert (globalFd < 32)
  if globalFd = -1 then
    return s
  let file := s.fileTable globalFd.toNat
  if ← isPipe s parent fd then
    return s.setFile globalFd.toNat { file with fdPos := (file.fdPos + 1) % 4294967296 }
  else
    match file.fdInode with
    | none => throw .fault
    | some q => return s.setInode q { s.inodes q with iOpenCnts := (s.inodes q).iOpenCnts + 1 }

/-- `sys_fork` copies the table and runs `update_inode_open_cnts`. -/
def forkFiles (s : FileSys) (parent child : ℕ) : Outcome FileSys :=
  localFds.foldlM (updateInodeOpenCnt parent child)
    { s with fdTable := update s.fdTable child (s.fdTable parent) }

/-- One round of the last loop of `release_prog_resource`. -/
def releaseFd (pid : ℕ) (s : FileSys) (fd : ℕ) : Outcome FileSys :=
  if s.fdTable pid fd = -1 then pure s
  else do
    if ← isPipe s pid fd then
      let globalFd ← fdLocal2Global s pid fd
      return pipeClose s globalFd
    else
      let (_, s) ← sysClose s pid fd
      return s

/-- The files that `sys_exit` releases. -/
def releaseFiles (s : FileSys) (pid : ℕ) : Outcome FileSys := localFds.foldlM (releaseFd pid) s

/-! ## The system -/

/-- The file system, the tasks that have not exited, those of them that are kernel threads, and on
which inode each of their descriptors was opened. -/
structure FdSys where
  fs : FileSys
  live : Finset ℕ
  kernel : Finset ℕ
  opened : ℕ → ℕ → Option ℕ

/-- The calls of a task. -/
inductive FdCall
  | open (pid : ℕ) (path : List UInt8) (flags : ℕ)
  | close (pid fd : ℕ)
  | fork (parent child : ℕ)
  | exit (pid : ℕ)

namespace FdCall

/-- The call, with what it finds in uninitialised variables. -/
def exec (x : FdSys) : Uninit × FdCall → Outcome FdSys
  | (uninit, .open pid path flags) => do
    let (fd, s) ← sysOpen x.fs uninit pid path flags
    match fd with
    | none => return { x with fs := s }
    | some fd =>
      return { x with
        fs := s
        opened := update x.opened pid
          (update (x.opened pid) fd (fdInode s pid fd)) }
  | (_, .close pid fd) => do
    let (_, s) ← sysClose x.fs pid fd
    return { x with fs := s }
  | (_, .fork parent child) => do
    let s ← forkFiles x.fs parent child
    return { x with
      fs := s
      live := insert child x.live
      opened := update x.opened child (x.opened parent) }
  | (_, .exit pid) => do
    let s ← releaseFiles x.fs pid
    return { x with fs := s, live := x.live.erase pid }

/-- A call is made by a task that has not exited. Processes fork and exit, and a child is a new
process; kernel threads call `sys_open` with `O_CREAT`. -/
def Enabled (x : FdSys) : FdCall → Prop
  | .open pid _ flags => pid ∈ x.live ∧ (4 ≤ flags → pid ∈ x.kernel)
  | .close pid _ => pid ∈ x.live
  | .fork parent child => parent ∈ x.live \ x.kernel ∧ child ∉ x.live ∪ x.kernel
  | .exit pid => pid ∈ x.live \ x.kernel

end FdCall

/-- No other descriptor names the slot of the descriptor. -/
def Unshared (s : FileSys) (live : Finset ℕ) (pid fd : ℕ) : Prop :=
  ∀ p ∈ live, ∀ i ∈ localFds, (p, i) ≠ (pid, fd) → s.fdTable p i ≠ s.fdTable pid fd

/-- What a process closes is not shared. -/
def FdCall.ClosesOwn (x : FdSys) : FdCall → Prop
  | .close pid fd => Unshared x.fs x.live pid fd
  | .exit pid => ∀ fd ∈ localFds, x.fs.fdTable pid fd ≠ -1 → Unshared x.fs x.live pid fd
  | _ => True

/-- A step that meets the condition `P`. -/
def FdStep (P : FdSys → FdCall → Prop) (x x' : FdSys) : Prop :=
  ∃ c, c.2.Enabled x ∧ P x c.2 ∧ FdCall.exec x c = .ok x'

/-- Every descriptor of a process that has not exited names a slot of the file table for the inode
on which it was opened, and the inode is still in memory. -/
def FdsValid (x : FdSys) : Prop :=
  ∀ pid ∈ x.live, ∀ fd ∈ localFds, x.fs.fdTable pid fd ≠ -1 →
    0 ≤ x.fs.fdTable pid fd ∧ x.fs.fdTable pid fd < 32 ∧
    ∃ q, fdInode x.fs pid fd = some q ∧ x.opened pid fd = some q ∧ q ∈ x.fs.openInodes

/-! ## The invariant -/

/-- The number of descriptors for the inode in cell `q`. -/
def fdUses (s : FileSys) (live : Finset ℕ) (q : ℕ) : ℕ :=
  uses live localFds.toFinset (fdInode s) (some q)

/-- The invariant: the descriptors name the inodes on which they were opened, and these are counted
for each of them. -/
structure FdOk (x : FdSys) : Prop where
  range : ∀ pid ∈ x.live, ∀ fd ∈ localFds, x.fs.fdTable pid fd ≠ -1 →
    0 ≤ x.fs.fdTable pid fd ∧ x.fs.fdTable pid fd < 32
  opened : ∀ pid ∈ x.live, ∀ fd ∈ localFds, x.fs.fdTable pid fd ≠ -1 →
    (fdInode x.fs pid fd).isSome = true ∧ x.opened pid fd = fdInode x.fs pid fd
  not_pipe : ∀ i, (x.fs.fileTable i).fdFlag ≠ pipeFlag
  holds : Holds x.fs (fdUses x.fs x.live)

theorem FdOk.fdsValid {x : FdSys} (h : FdOk x) : FdsValid x := by
  intro pid hpid fd hfd hne
  obtain ⟨h0, h32⟩ := h.range pid hpid fd hfd hne
  obtain ⟨hsome, hopened⟩ := h.opened pid hpid fd hfd hne
  obtain ⟨q, hq⟩ := Option.isSome_iff_exists.1 hsome
  refine ⟨h0, h32, q, hq, hopened.trans hq, h.holds.mem q ?_⟩
  exact uses_pos.2 ⟨pid, hpid, fd, List.mem_toFinset.2 hfd, hq⟩

section Steps

variable {s s' : FileSys} {x x' : FdSys} {pid fd p i : ℕ}

theorem fdInode_of_neg (h : s.fdTable pid fd = -1) : fdInode s pid fd = none := by
  unfold fdInode
  rw [h]
  rfl

theorem fdInode_of_nonneg (h : 0 ≤ s.fdTable pid fd) :
    fdInode s pid fd = (s.fileTable (s.fdTable pid fd).toNat).fdInode := if_pos h

/-- The entry of a descriptor and its slot determine its inode. -/
theorem fdInode_congr (hfd : s'.fdTable p i = s.fdTable p i)
    (hslot : s.fdTable p i ≠ -1 → 0 ≤ s.fdTable p i →
      (s'.fileTable (s.fdTable p i).toNat).fdInode = (s.fileTable (s.fdTable p i).toNat).fdInode) :
    fdInode s' p i = fdInode s p i := by
  by_cases hneg : s.fdTable p i = -1
  · rw [fdInode_of_neg hneg, fdInode_of_neg (hfd.trans hneg)]
  · unfold fdInode
    rw [hfd]
    split
    · next h0 => exact hslot hneg h0
    · rfl

theorem fdUses_congr {live : Finset ℕ}
    (h : ∀ p ∈ live, ∀ i ∈ localFds, fdInode s' p i = fdInode s p i) (q : ℕ) :
    fdUses s' live q = fdUses s live q :=
  uses_congr (fun p hp i hi => h p hp i (List.mem_toFinset.1 hi)) _

/-- One descriptor changes. -/
theorem fdUses_set {live : Finset ℕ} {k : ℕ} (hpid : pid ∈ live) (hk : k ∈ localFds)
    (hkeep : ∀ p ∈ live, ∀ i ∈ localFds, (p, i) ≠ (pid, k) → fdInode s' p i = fdInode s p i)
    (q : ℕ) : fdUses s' live q + (if fdInode s pid k = some q then 1 else 0) =
      fdUses s live q + if fdInode s' pid k = some q then 1 else 0 := by
  have hrow : fdUses s' live q = uses live localFds.toFinset (update (fdInode s) pid
      (update (fdInode s pid) k (fdInode s' pid k))) (some q) := by
    refine uses_congr (fun p hp i hi => ?_) _
    by_cases heq : (p, i) = (pid, k)
    · obtain ⟨rfl, rfl⟩ := Prod.mk.inj heq
      rw [table_set_self]
    · rw [table_set_of_ne heq]
      exact hkeep p hp i (List.mem_toFinset.1 hi) heq
  rw [hrow, uses_set hpid (List.mem_toFinset.2 hk)]
  rfl

/-- A call that leaves the descriptors alone, and the slots that they name. -/
theorem FdOk.congr (h : FdOk x) (hfd : s'.fdTable = x.fs.fdTable)
    (hslot : ∀ i, (x.fs.fileTable i).fdInode ≠ none →
      (s'.fileTable i).fdInode = (x.fs.fileTable i).fdInode)
    (hpipe : ∀ i, (s'.fileTable i).fdFlag ≠ pipeFlag)
    (hh : Holds s' (fdUses x.fs x.live)) : FdOk { x with fs := s' } := by
  have hsame : ∀ p ∈ x.live, ∀ i ∈ localFds, fdInode s' p i = fdInode x.fs p i := by
    intro p hp i hi
    refine fdInode_congr (by rw [hfd]) fun hne h0 => hslot _ ?_
    have hsome := (h.opened p hp i hi hne).1
    rw [fdInode_of_nonneg h0] at hsome
    exact Option.isSome_iff_ne_none.1 hsome
  refine ⟨fun p hp i hi hne => ?_, fun p hp i hi hne => ?_, hpipe, ?_⟩
  · have hne : x.fs.fdTable p i ≠ -1 := hfd ▸ hne
    change 0 ≤ s'.fdTable p i ∧ s'.fdTable p i < 32
    rw [hfd]
    exact h.range p hp i hi hne
  · have hne : x.fs.fdTable p i ≠ -1 := hfd ▸ hne
    change (fdInode s' p i).isSome = true ∧ x.opened p i = fdInode s' p i
    rw [hsame p hp i hi]
    exact h.opened p hp i hi hne
  · exact hh.mono fun q => (fdUses_congr hsame q).le

/-- **`sys_open`** adds at most one descriptor, for the inode that it has opened. -/
theorem FdOk.takesSlot {g q flags : ℕ} {fd : Option ℕ} (h : FdOk x) (hpid : pid ∈ x.live)
    (ht : TakesSlot x.fs s' pid g q flags fd) (hflags : flags ≤ 7)
    (hh : Holds s' (hold (fdUses x.fs x.live) q)) :
    FdOk (match fd with
      | none => { x with fs := s' }
      | some fd => { x with
          fs := s'
          opened := update x.opened pid
            (update (x.opened pid) fd (fdInode s' pid fd)) }) := by
  have hslot : ∀ i, (x.fs.fileTable i).fdInode ≠ none →
      (s'.fileTable i).fdInode = (x.fs.fileTable i).fdInode := fun i hi => by
    have hig : i ≠ g := fun hig => hi (by rw [hig]; exact ht.free)
    rw [ht.fileTable, update_of_ne hig]
  have hpipe : ∀ i, (s'.fileTable i).fdFlag ≠ pipeFlag := fun i => by
    rw [ht.fileTable]
    by_cases hig : i = g
    · rw [hig, update_self]
      change flags ≠ 65535
      omega
    · rw [update_of_ne hig]
      exact h.not_pipe i
  rcases ht.fd with ⟨rfl, hfds⟩ | ⟨k, rfl, h3, h8, hfree, hfds⟩
  · exact h.congr hfds hslot hpipe hh.of_hold
  have hk : k ∈ localFds := by
    simp only [localFds, List.mem_cons, List.not_mem_nil, or_false]
    omega
  have hself : s'.fdTable pid k = g := by rw [hfds, table_set_self]
  have hother : ∀ p i, (p, i) ≠ (pid, k) → s'.fdTable p i = x.fs.fdTable p i := fun p i hne => by
    rw [hfds, table_set_of_ne hne]
  have hnew : fdInode s' pid k = some q := by
    rw [fdInode_of_nonneg (by rw [hself]; exact Int.natCast_nonneg g), hself, Int.toNat_natCast,
      ht.fileTable, update_self]
  have hkeep : ∀ p ∈ x.live, ∀ i ∈ localFds, (p, i) ≠ (pid, k) →
      fdInode s' p i = fdInode x.fs p i := by
    intro p hp i hi hne
    refine fdInode_congr (hother p i hne) fun hneg h0 => hslot _ ?_
    have hsome := (h.opened p hp i hi hneg).1
    rw [fdInode_of_nonneg h0] at hsome
    exact Option.isSome_iff_ne_none.1 hsome
  have huses : ∀ q', fdUses s' x.live q' = hold (fdUses x.fs x.live) q q' := by
    intro q'
    have hset := fdUses_set hpid hk hkeep q'
    rw [hnew, fdInode_of_neg hfree, if_neg (Option.some_ne_none _).symm, Nat.add_zero] at hset
    rw [hset]
    by_cases hq : q' = q
    · rw [hq, hold_self, if_pos rfl]
    · rw [hold_of_ne _ hq, if_neg fun heq => hq (Option.some.inj heq).symm, Nat.add_zero]
  refine ⟨fun p hp i hi hne => ?_, fun p hp i hi hne => ?_, hpipe, hh.mono fun q' => (huses q').le⟩
  · by_cases heq : (p, i) = (pid, k)
    · obtain ⟨rfl, rfl⟩ := Prod.mk.inj heq
      change 0 ≤ s'.fdTable p i ∧ s'.fdTable p i < 32
      have := ht.lt
      rw [hself]
      omega
    · change 0 ≤ s'.fdTable p i ∧ s'.fdTable p i < 32
      have hne : s'.fdTable p i ≠ -1 := hne
      rw [hother p i heq] at hne ⊢
      exact h.range p hp i hi hne
  · by_cases heq : (p, i) = (pid, k)
    · obtain ⟨rfl, rfl⟩ := Prod.mk.inj heq
      change (fdInode s' p i).isSome = true ∧
        update x.opened p (update (x.opened p) i (fdInode s' p i)) p i = _
      rw [table_set_self, hnew]
      exact ⟨rfl, rfl⟩
    · have hne : s'.fdTable p i ≠ -1 := hne
      rw [hother p i heq] at hne
      change (fdInode s' p i).isSome = true ∧ update x.opened pid _ p i = fdInode s' p i
      rw [table_set_of_ne heq, hkeep p hp i hi heq]
      exact h.opened p hp i hi hne

/-- **`sys_close`** of a descriptor whose slot no other descriptor names. -/
theorem FdOk.closes {i₀ q₀ : ℕ} (h : FdOk x) (hpid : pid ∈ x.live) (hfd : fd ∈ localFds)
    (hc : Closes x.fs pid fd i₀ q₀ s') (hown : Unshared x.fs x.live pid fd) :
    FdOk { x with fs := s' } := by
  have hfds : s'.fdTable =
      update x.fs.fdTable pid (update (x.fs.fdTable pid) fd (-1)) := by
    rw [hc.state]
  have hfiles : s'.fileTable =
      update x.fs.fileTable i₀ { x.fs.fileTable i₀ with fdInode := none } := by
    rw [hc.state]
  have hself : s'.fdTable pid fd = -1 := by rw [hfds, table_set_self]
  have hother : ∀ p i, (p, i) ≠ (pid, fd) → s'.fdTable p i = x.fs.fdTable p i := fun p i hne => by
    rw [hfds, table_set_of_ne hne]
  have hkeep : ∀ p ∈ x.live, ∀ i ∈ localFds, (p, i) ≠ (pid, fd) →
      fdInode s' p i = fdInode x.fs p i := by
    intro p hp i hi hne
    refine fdInode_congr (hother p i hne) fun _ h0 => ?_
    -- the slot that is given up is another one
    have hslot : (x.fs.fdTable p i).toNat ≠ i₀ := fun heq => by
      refine hown p hp i hi hne ?_
      rw [hc.fd_eq, ← heq, Int.toNat_of_nonneg h0]
    rw [hfiles, update_of_ne hslot]
  have hold₀ : fdInode x.fs pid fd = some q₀ := by
    rw [fdInode_of_nonneg (by rw [hc.fd_eq]; exact Int.natCast_nonneg i₀), hc.fd_eq,
      Int.toNat_natCast, hc.slot]
  have huses : ∀ q, hold (fdUses s' x.live) q₀ q = fdUses x.fs x.live q := by
    intro q
    have hset := fdUses_set hpid hfd hkeep q
    rw [hold₀, fdInode_of_neg hself, if_neg (Option.some_ne_none _).symm, Nat.add_zero] at hset
    rw [← hset]
    by_cases hq : q = q₀
    · rw [hq, hold_self, if_pos rfl]
    · rw [hold_of_ne _ hq, if_neg fun heq => hq (Option.some.inj heq).symm, Nat.add_zero]
  have hh : Holds (inodeClose (x.fs.setInode q₀ { x.fs.inodes q₀ with writeDeny := false }) q₀)
      (fdUses s' x.live) := by
    refine Holds.inodeClose (Holds.setInode (h.holds.mono fun q => (huses q).le) rfl)
  refine ⟨fun p hp i hi hne => ?_, fun p hp i hi hne => ?_, fun i => ?_, ?_⟩
  · have hne : s'.fdTable p i ≠ -1 := hne
    have heq : (p, i) ≠ (pid, fd) := fun heq => hne (by
      obtain ⟨rfl, rfl⟩ := Prod.mk.inj heq
      exact hself)
    change 0 ≤ s'.fdTable p i ∧ s'.fdTable p i < 32
    rw [hother p i heq] at hne ⊢
    exact h.range p hp i hi hne
  · have hne : s'.fdTable p i ≠ -1 := hne
    have heq : (p, i) ≠ (pid, fd) := fun heq => hne (by
      obtain ⟨rfl, rfl⟩ := Prod.mk.inj heq
      exact hself)
    change (fdInode s' p i).isSome = true ∧ x.opened p i = fdInode s' p i
    rw [hother p i heq] at hne
    rw [hkeep p hp i hi heq]
    exact h.opened p hp i hi hne
  · change (s'.fileTable i).fdFlag ≠ pipeFlag
    rw [hfiles]
    by_cases hi : i = i₀
    · rw [hi, update_self]
      exact h.not_pipe i₀
    · rw [update_of_ne hi]
      exact h.not_pipe i
  · refine hh.of_eq ?_ ?_ ?_ fun q _ => ?_ <;> rw [hc.state]

theorem mem_localFds : fd ∈ localFds ↔ 3 ≤ fd ∧ fd < 8 := by
  simp only [localFds, List.mem_cons, List.not_mem_nil, or_false]
  omega

theorem FdOk.close {done : Bool} (h : FdOk x) (hpid : pid ∈ x.live)
    (hown : Unshared x.fs x.live pid fd) (hrun : sysClose x.fs pid fd = .ok (done, s')) :
    FdOk { x with fs := s' } := by
  rcases sysClose_cases h.not_pipe hrun with ⟨-, rfl⟩ | ⟨h3, h8, i, q, hc⟩
  · exact h
  · exact h.closes hpid (mem_localFds.2 ⟨h3, h8⟩) hc hown

/-! ### `sys_fork` -/

/-- A round of `update_inode_open_cnts` for a file: one more user of its inode. -/
theorem updateInodeOpenCnt_file {parent child : ℕ} {r : ℕ → ℕ}
    (hpipe : ∀ i, (s.fileTable i).fdFlag ≠ pipeFlag) (hh : Holds s r)
    (hrun : updateInodeOpenCnt parent child s fd = .ok s') (hvalid : s.fdTable child fd ≠ -1 →
      0 ≤ s.fdTable child fd ∧ ∀ q, fdInode s child fd = some q → 0 < r q) :
    s'.fileTable = s.fileTable ∧ s'.fdTable = s.fdTable ∧
      Holds s' fun q => r q + if fdInode s child fd = some q then 1 else 0 := by
  obtain ⟨_, _, hrun⟩ := bind_eq_ok.1 hrun
  dsimp only at hrun
  split at hrun
  · next hneg =>
    obtain rfl := Except.ok.inj hrun
    refine ⟨rfl, rfl, hh.mono fun q => ?_⟩
    rw [fdInode_of_neg hneg, if_neg (Option.some_ne_none _).symm, Nat.add_zero]
  · next hne =>
    obtain ⟨b, hb, hrun⟩ := bind_eq_ok.1 hrun
    obtain ⟨g, _, hb⟩ := bind_eq_ok.1 hb
    have hfalse : b = false := by
      rw [← Except.ok.inj hb]
      exact decide_eq_false (hpipe g)
    rw [hfalse, if_neg Bool.false_ne_true] at hrun
    obtain ⟨h0, hpos⟩ := hvalid hne
    have hinode := fdInode_of_nonneg h0
    split at hrun
    · cases hrun
    · next q hq =>
      obtain rfl := Except.ok.inj hrun
      rw [hq] at hinode
      refine ⟨rfl, rfl, hh.lt_brk, hh.root_lt, fun q' hq' => ?_, fun q' => ?_⟩
      · rw [hinode] at hq'
        by_cases hqq : q' = q
        · rw [hqq]
          exact hh.mem q (hpos q hinode)
        · rw [if_neg fun heq => hqq (Option.some.inj heq).symm, Nat.add_zero] at hq'
          exact hh.mem q' hq'
      · rw [hinode]
        by_cases hqq : q' = q
        · rw [hqq, if_pos rfl, FileSys.setInode_inodes_self]
          exact Nat.succ_le_succ (hh.le q)
        · rw [if_neg fun heq => hqq (Option.some.inj heq).symm, Nat.add_zero,
            FileSys.setInode_inodes_of_ne _ _ hqq]
          exact hh.le q'

/-- The whole loop: each inode has one more user for every descriptor of the child. -/
theorem forkLoop_files {parent child : ℕ} {l : List ℕ} : ∀ {s : FileSys} {r : ℕ → ℕ},
    (∀ i, (s.fileTable i).fdFlag ≠ pipeFlag) → Holds s r →
    (∀ fd ∈ l, s.fdTable child fd ≠ -1 →
      0 ≤ s.fdTable child fd ∧ ∀ q, fdInode s child fd = some q → 0 < r q) →
    l.foldlM (updateInodeOpenCnt parent child) s = .ok s' →
    s'.fileTable = s.fileTable ∧ s'.fdTable = s.fdTable ∧
      Holds s' fun q => r q + l.countP fun fd => fdInode s child fd = some q := by
  induction l with
  | nil =>
    intro s r _ hh _ hrun
    obtain rfl := Except.ok.inj hrun
    exact ⟨rfl, rfl, hh⟩
  | cons fd l ih =>
    intro s r hpipe hh hvalid hrun
    obtain ⟨s₁, hround, hrun⟩ := bind_eq_ok.1 hrun
    obtain ⟨hfiles, hfds, hh₁⟩ := updateInodeOpenCnt_file hpipe hh hround
      (hvalid fd List.mem_cons_self)
    have hsame : ∀ i, fdInode s₁ child i = fdInode s child i := fun i => by
      unfold fdInode
      rw [hfiles, hfds]
    obtain ⟨hfiles', hfds', hh'⟩ := ih (by rw [hfiles]; exact hpipe) hh₁ (fun i hi hne => by
      rw [hfds] at hne ⊢
      obtain ⟨h0, hpos⟩ := hvalid i (List.mem_cons_of_mem _ hi) hne
      refine ⟨h0, fun q hq => ?_⟩
      rw [hsame] at hq
      exact Nat.lt_of_lt_of_le (hpos q hq) (Nat.le_add_right _ _)) hrun
    refine ⟨hfiles'.trans hfiles, hfds'.trans hfds, hh'.mono fun q => ?_⟩
    simp only [hsame]
    rw [List.countP_cons]
    split <;> rename_i heq
    · rw [if_pos (of_decide_eq_true heq)]
      omega
    · rw [if_neg fun h => heq (decide_eq_true h)]
      omega

/-- **`sys_fork`**: the child has the descriptors of its parent. -/
theorem FdOk.fork {parent child : ℕ} (h : FdOk x) (hparent : parent ∈ x.live)
    (hchild : child ∉ x.live) (hrun : forkFiles x.fs parent child = .ok s') :
    FdOk { x with
      fs := s'
      live := insert child x.live
      opened := update x.opened child (x.opened parent) } := by
  set s₁ : FileSys := { x.fs with
    fdTable := update x.fs.fdTable child (x.fs.fdTable parent) } with hs₁
  have hrow : ∀ i, s₁.fdTable child i = x.fs.fdTable parent i := fun i =>
    congrFun (update_self ..) i
  have hother : ∀ p, p ≠ child → s₁.fdTable p = x.fs.fdTable p := fun p hp =>
    update_of_ne hp ..
  have hinode : ∀ i, fdInode s₁ child i = fdInode x.fs parent i := fun i => by
    unfold fdInode
    rw [hrow]
  have hinode' : ∀ p ∈ x.live, ∀ i, fdInode s₁ p i = fdInode x.fs p i := fun p hp i => by
    unfold fdInode
    rw [hother p fun hpc => hchild (hpc ▸ hp)]
  have hh₁ : Holds s₁ (fdUses x.fs x.live) := h.holds.of_eq rfl le_rfl rfl fun _ _ => rfl
  have hpipe₁ : ∀ i, (s₁.fileTable i).fdFlag ≠ pipeFlag := h.not_pipe
  obtain ⟨hfiles, hfds, hh'⟩ := forkLoop_files hpipe₁ hh₁ (fun fd hfd hne => by
    rw [hrow] at hne ⊢
    refine ⟨(h.range parent hparent fd hfd hne).1, fun q hq => ?_⟩
    rw [hinode] at hq
    exact uses_pos.2 ⟨parent, hparent, fd, List.mem_toFinset.2 hfd, hq⟩) hrun
  have hsame : ∀ p i, fdInode s' p i = fdInode s₁ p i := fun p i => by
    unfold fdInode
    rw [hfiles, hfds]
  have huses : ∀ q, fdUses s' (insert child x.live) q ≤
      fdUses x.fs x.live q + localFds.countP fun fd => fdInode s₁ child fd = some q := by
    intro q
    unfold fdUses
    rw [uses_insert hchild, rowUses_toFinset (by decide)]
    refine Nat.add_le_add (le_of_eq (uses_congr (fun p hp i _ => ?_) _)) (le_of_eq ?_)
    · rw [hsame, hinode' p hp]
    · simp only [hsame]
  refine ⟨fun p hp i hi hne => ?_, fun p hp i hi hne => ?_, ?_, hh'.mono huses⟩
  · change 0 ≤ s'.fdTable p i ∧ s'.fdTable p i < 32
    have hne : s'.fdTable p i ≠ -1 := hne
    rw [hfds] at hne ⊢
    rcases Finset.mem_insert.1 hp with rfl | hp
    · rw [hrow] at hne ⊢
      exact h.range parent hparent i hi hne
    · rw [hother p fun hpc => hchild (hpc ▸ hp)] at hne ⊢
      exact h.range p hp i hi hne
  · change (fdInode s' p i).isSome = true ∧ update x.opened child _ p i = fdInode s' p i
    have hne : s'.fdTable p i ≠ -1 := hne
    rw [hfds] at hne
    rw [hsame]
    rcases Finset.mem_insert.1 hp with rfl | hp
    · rw [hrow] at hne
      rw [hinode, update_self]
      exact h.opened parent hparent i hi hne
    · have hpc : p ≠ child := fun hpc => hchild (hpc ▸ hp)
      rw [hother p hpc] at hne
      rw [hinode' p hp, update_of_ne hpc]
      exact h.opened p hp i hi hne
  · intro i
    change (s'.fileTable i).fdFlag ≠ pipeFlag
    rw [hfiles]
    exact h.not_pipe i

/-! ### `sys_exit` -/

/-- A round of the loop that closes the files of a process. -/
theorem FdOk.releaseFd (h : FdOk x) (hpid : pid ∈ x.live) (hfd : fd ∈ localFds)
    (hown : x.fs.fdTable pid fd ≠ -1 → Unshared x.fs x.live pid fd)
    (hrun : releaseFd pid x.fs fd = .ok s') : FdOk { x with fs := s' } ∧
      s'.fdTable = update x.fs.fdTable pid
        (update (x.fs.fdTable pid) fd (-1)) := by
  unfold Userprog.releaseFd at hrun
  split at hrun
  · next hneg =>
    obtain rfl := Except.ok.inj hrun
    refine ⟨h, ?_⟩
    rw [← hneg, update_eq_self, update_eq_self]
  · next hne =>
    obtain ⟨b, hb, hrun⟩ := bind_eq_ok.1 hrun
    obtain ⟨g, _, hb⟩ := bind_eq_ok.1 hb
    have hfalse : b = false := by
      rw [← Except.ok.inj hb]
      exact decide_eq_false (h.not_pipe g)
    rw [hfalse, if_neg Bool.false_ne_true] at hrun
    obtain ⟨⟨done, s₁⟩, hclose, hrun⟩ := bind_eq_ok.1 hrun
    obtain rfl := Except.ok.inj hrun
    rcases sysClose_cases h.not_pipe hclose with ⟨h2, -⟩ | ⟨-, -, i, q, hc⟩
    · have := (mem_localFds.1 hfd).1
      omega
    · refine ⟨h.closes hpid hfd hc (hown hne), ?_⟩
      rw [hc.state]

/-- The whole loop: all descriptors of the process are gone. -/
theorem FdOk.releaseLoop {l : List ℕ} : ∀ {x : FdSys}, FdOk x → pid ∈ x.live →
    (∀ fd ∈ l, fd ∈ localFds) →
    (∀ fd ∈ l, x.fs.fdTable pid fd ≠ -1 → Unshared x.fs x.live pid fd) →
    l.foldlM (Userprog.releaseFd pid) x.fs = .ok s' → FdOk { x with fs := s' } ∧
      (∀ fd ∈ l, s'.fdTable pid fd = -1) ∧
      ∀ p fd, s'.fdTable p fd = x.fs.fdTable p fd ∨ s'.fdTable p fd = -1 := by
  induction l with
  | nil =>
    intro x h _ _ _ hrun
    obtain rfl := Except.ok.inj hrun
    exact ⟨h, fun _ hfd => absurd hfd List.not_mem_nil, fun _ _ => Or.inl rfl⟩
  | cons fd l ih =>
    intro x h hpid hl hown hrun
    obtain ⟨s₁, hround, hrun⟩ := bind_eq_ok.1 hrun
    obtain ⟨h₁, hfds⟩ := h.releaseFd hpid (hl fd List.mem_cons_self) (hown fd List.mem_cons_self)
      hround
    have hentry : ∀ p i, s₁.fdTable p i = x.fs.fdTable p i ∨ s₁.fdTable p i = -1 := fun p i => by
      rw [hfds]
      by_cases heq : (p, i) = (pid, fd)
      · obtain ⟨rfl, rfl⟩ := Prod.mk.inj heq
        exact Or.inr table_set_self
      · exact Or.inl (table_set_of_ne heq)
    -- what was not shared before is not shared now
    have hown₁ : ∀ i ∈ l, s₁.fdTable pid i ≠ -1 → Unshared s₁ x.live pid i := by
      intro i hi hne p hp j hj hpj heq
      have hi₁ := (hentry pid i).resolve_right hne
      have hj₁ := (hentry p j).resolve_right (heq ▸ hne)
      rw [hi₁] at hne
      exact hown i (List.mem_cons_of_mem _ hi) hne p hp j hj hpj (hj₁.symm.trans (heq.trans hi₁))
    obtain ⟨h', hgone, hrest⟩ := ih (x := { x with fs := s₁ }) h₁ hpid
      (fun i hi => hl i (List.mem_cons_of_mem _ hi)) hown₁ hrun
    refine ⟨h', fun i hi => ?_, fun p i => ?_⟩
    · rcases List.mem_cons.1 hi with rfl | hi
      · rcases hrest pid i with heq | heq
        · rw [heq, hfds, table_set_self]
        · exact heq
      · exact hgone i hi
    · rcases hrest p i with heq | heq
      · rw [heq]
        exact hentry p i
      · exact Or.inr heq

/-- **`sys_exit`** of a process that shares no slot. -/
theorem FdOk.exit (h : FdOk x) (hpid : pid ∈ x.live)
    (hown : ∀ fd ∈ localFds, x.fs.fdTable pid fd ≠ -1 → Unshared x.fs x.live pid fd)
    (hrun : releaseFiles x.fs pid = .ok s') :
    FdOk { x with fs := s', live := x.live.erase pid } := by
  obtain ⟨h', hgone, -⟩ := h.releaseLoop hpid (fun _ hfd => hfd) hown hrun
  have huses : ∀ q, fdUses s' (x.live.erase pid) q ≤ fdUses s' x.live q := fun q => by
    unfold fdUses
    rw [← uses_erase hpid]
    exact Nat.le_add_right _ _
  exact ⟨fun p hp => h'.range p (Finset.mem_of_mem_erase hp),
    fun p hp => h'.opened p (Finset.mem_of_mem_erase hp), h'.not_pipe, h'.holds.mono huses⟩

/-- **One step.** -/
theorem FdOk.step (h : FdOk x) (hstep : FdStep FdCall.ClosesOwn x x') : FdOk x' := by
  obtain ⟨⟨uninit, c⟩, hen, hown, hrun⟩ := hstep
  cases c with
  | «open» pid path flags =>
    obtain ⟨⟨fd, s₁⟩, hopen, hrun⟩ := bind_eq_ok.1 hrun
    obtain ⟨-, hres⟩ := sysOpen_effect h.holds hopen
    rcases hres with hr | ⟨hflags, g, q, ht, hh, -⟩
    · obtain rfl := hr.fd
      obtain rfl := Except.ok.inj hrun
      refine h.congr hr.fds (fun i hi => by rw [hr.slots.occupied i hi]) (fun i => ?_) hr.holds
      by_cases hfree : (x.fs.fileTable i).fdInode = none
      · rcases (hr.slots.free i hfree).2 with hflag | hflag <;> rw [hflag]
        · exact h.not_pipe i
        · decide
      · rw [hr.slots.occupied i hfree]
        exact h.not_pipe i
    · have hok := h.takesSlot hen.1 ht hflags hh
      cases fd with
      | none => exact Except.ok.inj hrun ▸ hok
      | some fd => exact Except.ok.inj hrun ▸ hok
  | close pid fd =>
    obtain ⟨⟨done, s₁⟩, hclose, hrun⟩ := bind_eq_ok.1 hrun
    obtain rfl := Except.ok.inj hrun
    exact h.close hen hown hclose
  | fork parent child =>
    obtain ⟨s₁, hfork, hrun⟩ := bind_eq_ok.1 hrun
    obtain rfl := Except.ok.inj hrun
    exact h.fork (Finset.mem_sdiff.1 hen.1).1
      (fun hlive => hen.2 (Finset.mem_union_left _ hlive)) hfork
  | exit pid =>
    obtain ⟨s₁, hexit, hrun⟩ := bind_eq_ok.1 hrun
    obtain rfl := Except.ok.inj hrun
    exact h.exit (Finset.mem_sdiff.1 hen).1 hown hexit

end Steps

/-! ## Runs -/

/-- The start: no file is open. -/
structure FdStart (x : FdSys) : Prop where
  fds : ∀ pid ∈ x.live, ∀ fd ∈ localFds, x.fs.fdTable pid fd = -1
  slots : ∀ i, (x.fs.fileTable i).fdInode = none ∧ (x.fs.fileTable i).fdFlag ≠ pipeFlag
  holds : Holds x.fs fun _ => 0

theorem FdStart.fdOk {x : FdSys} (h : FdStart x) : FdOk x := by
  refine ⟨fun p hp i hi hne => absurd (h.fds p hp i hi) hne,
    fun p hp i hi hne => absurd (h.fds p hp i hi) hne, fun i => (h.slots i).2,
    h.holds.mono fun q => le_of_eq ?_⟩
  refine Nat.eq_zero_of_not_pos fun hpos => ?_
  obtain ⟨p, hp, i, hi, hq⟩ := uses_pos.1 hpos
  rw [fdInode_of_neg (h.fds p hp i (List.mem_toFinset.1 hi))] at hq
  cases hq

/-- **Descriptors of different processes.** In every run of opens, closes, forks and exits by any
number of tasks in which only kernel threads create files and a task closes, by `sys_close` or
`sys_exit`, only descriptors whose slot no other descriptor names, every descriptor names the inode
on which it was opened. -/
theorem fdsValid_of_run {x₀ x : FdSys} (h₀ : FdStart x₀)
    (hrun : Relation.ReflTransGen (FdStep FdCall.ClosesOwn) x₀ x) : FdsValid x :=
  (reach_invariant hrun h₀.fdOk fun h hstep => h.step hstep).fdsValid

/-- A partition, freshly formatted, a kernel thread and a process. -/
def startFds : FdSys := ⟨smallRun.fs, {0, 1}, {0}, fun _ _ => none⟩

theorem startFds_start : FdStart startFds where
  fds := by decide
  slots := (freshFs_filesClosed 0 4000 _ _).slots
  holds := (freshFs_filesClosed 0 4000 _ _).holds

instance (x : FdSys) (c : FdCall) : Decidable (c.Enabled x) :=
  match c with
  | .open pid _ flags => inferInstanceAs (Decidable (pid ∈ x.live ∧ (4 ≤ flags → pid ∈ x.kernel)))
  | .close pid _ => inferInstanceAs (Decidable (pid ∈ x.live))
  | .fork parent child =>
    inferInstanceAs (Decidable (parent ∈ x.live \ x.kernel ∧ child ∉ x.live ∪ x.kernel))
  | .exit pid => inferInstanceAs (Decidable (pid ∈ x.live \ x.kernel))

instance (s : FileSys) (live : Finset ℕ) (pid fd : ℕ) : Decidable (Unshared s live pid fd) :=
  inferInstanceAs (Decidable (∀ p ∈ live, ∀ i ∈ localFds, (p, i) ≠ (pid, fd) →
    s.fdTable p i ≠ s.fdTable pid fd))

instance (x : FdSys) (c : FdCall) : Decidable (c.ClosesOwn x) :=
  match c with
  | .open _ _ _ => inferInstanceAs (Decidable True)
  | .close pid fd => inferInstanceAs (Decidable (Unshared x.fs x.live pid fd))
  | .fork _ _ => inferInstanceAs (Decidable True)
  | .exit pid => inferInstanceAs (Decidable (∀ fd ∈ localFds, x.fs.fdTable pid fd ≠ -1 →
      Unshared x.fs x.live pid fd))

/-- Tests for the steps of the runs below. -/
def FdCall.enabled (x : FdSys) (c : Uninit × FdCall) : Bool := decide (c.2.Enabled x)

@[inherit_doc FdCall.enabled]
def FdCall.checked (x : FdSys) (c : Uninit × FdCall) : Bool :=
  decide (c.2.Enabled x ∧ c.2.ClosesOwn x)

/-- A kernel thread makes a file and closes it; process 1 opens it and forks. -/
def openAndFork : List (Uninit × FdCall) :=
  [(noUninit, .open 0 pathA 6), (noUninit, .close 0 3), (noUninit, .open 1 pathA 2),
    (noUninit, .fork 1 2)]

/-- The child has the descriptor of its parent. -/
theorem fdsValid_of_fork : ∃ x,
    runAll FdCall.checked FdCall.exec startFds openAndFork = .ok x ∧
    x.fs.fdTable 2 3 = 3 ∧ FdsValid x := by
  obtain ⟨x, hrun, hx⟩ := exists_of_holds
    (o := runAll FdCall.checked FdCall.exec startFds openAndFork)
    (f := fun x => x.fs.fdTable 2 3 = 3) (by decide +kernel)
  have hreach : Relation.ReflTransGen (FdStep FdCall.ClosesOwn) startFds x :=
    reach_of_runAll (fun {_ _ c} hc hexec => by
      obtain ⟨hen, hown⟩ := of_decide_eq_true hc
      exact ⟨c, hen, hown, hexec⟩) hrun
  exact ⟨x, hrun, of_decide_eq_true hx, fdsValid_of_run startFds_start hreach⟩

/-- **A child takes the file away.** Process 1 opens an existing file and forks; the child closes
its descriptor, and the descriptor of the parent names a slot without an inode. -/
theorem dangling_of_child_close : ∃ x,
    Relation.ReflTransGen (FdStep fun _ _ => True) startFds x ∧ 1 ∈ x.live ∧
    x.fs.fdTable 1 3 = 3 ∧ (x.fs.fileTable 3).fdInode = none ∧ ¬ FdsValid x := by
  obtain ⟨x, hrun, hx⟩ := exists_of_holds
    (o := runAll FdCall.enabled FdCall.exec startFds (openAndFork ++ [(noUninit, .close 2 3)]))
    (f := fun x => 1 ∈ x.live ∧ x.fs.fdTable 1 3 = 3 ∧
      (x.fs.fileTable 3).fdInode = none) (by decide +kernel)
  obtain ⟨hlive, hfd, hslot⟩ := of_decide_eq_true hx
  refine ⟨x, reach_of_runAll (fun {_ _ c} hc hexec => by
    have hen := of_decide_eq_true hc
    exact ⟨c, hen, trivial, hexec⟩) hrun, hlive, hfd, hslot, fun hvalid => ?_⟩
  obtain ⟨h0, -, q, hq, -⟩ := hvalid 1 hlive 3 (by decide) (by rw [hfd]; decide)
  rw [fdInode_of_nonneg h0, hfd] at hq
  exact absurd (hq.symm.trans hslot) (Option.some_ne_none q)

end Gardos.Userprog
