import Gardos.Foundations.Outcome
import Gardos.Fs.Holders
import Gardos.Fs.Safety

/-!
# The memory of open inodes

All processes share the inodes on `open_inodes`, so their memory has to come from the kernel's heap.
`sys_malloc` and `sys_free` look at `pgdir` of the running task to choose the pool; `inode_open` and
`inode_close` set it to `NULL` around the call, and `file_create` does not.

`PoolSys` is the file system with the pool that the memory of each inode has come from, and
`poolExec` is a call by a given task on it. `kernelInodes_of_run` says that all open inodes are the
kernel's, and that no `ASSERT` of `sys_free` fails, in every run in which only kernel threads create
files; `userInode_of_create` shows what happens when a process does.
-/

namespace Gardos.Fs

open Bytes Outcome

/-! ## Pools -/

/-- `enum pool_flags`. -/
inductive PoolFlags
  | kernel
  | user
  deriving DecidableEq

/-- The running task. A kernel thread has no page directory. -/
structure PoolTask where
  pid : ℕ
  pgdir : Option ℕ

/-- The pool that `sys_malloc` and `sys_free` choose. -/
def PoolTask.pool (cur : PoolTask) : PoolFlags := if cur.pgdir = none then .kernel else .user

/-- The file system, with the pool that the memory of each inode has come from. -/
structure PoolSys where
  fs : FileSys
  pool : ℕ → PoolFlags

/-- The state `s` comes after `x`; the memory of the inodes that are new in it is from `pool`. -/
def PoolSys.grow (x : PoolSys) (pool : PoolFlags) (s : FileSys) : PoolSys where
  fs := s
  pool q := if x.fs.brk ≤ q ∧ q < s.brk then pool else x.pool q

section Calls

variable {α : Type}

/-- A part `f` of a call that gets inodes by `inode_open` and gives them back by `inode_close`. Both
set `pgdir` to `NULL`, and `sys_free` asserts that the memory it is given then is the kernel's. -/
def viaInodes (cur : PoolTask) (f : FileSys → Outcome (α × FileSys)) (x : PoolSys) :
    Outcome (α × PoolSys) := do
  let cur := { cur with pgdir := none }
  let (a, s) ← f x.fs
  let x' := x.grow cur.pool s
  assert (∀ q < s.brk, q ∈ x.fs.openInodes ∨ x.fs.brk ≤ q → q ∉ s.openInodes →
    x'.pool q = cur.pool)
  return (a, x')

/-- `dir_close`. -/
def poolDirClose (cur : PoolTask) (x : PoolSys) (dir : DirPtr) : Outcome PoolSys := do
  let (_, x) ← viaInodes cur (fun s => .ok ((), dirClose s dir)) x
  return x

/-- `file_create`: the memory of the new inode is taken with the caller's `pgdir`. -/
def poolFileCreate (cur : PoolTask) (x : PoolSys) (parentDir : DirPtr) (filename : List UInt8)
    (flag : ℕ) : Outcome (Option ℕ × PoolSys) := do
  let (fd, s) ← fileCreate x.fs cur.pid parentDir filename flag
  return (fd, x.grow cur.pool s)

/-- `sys_open`. -/
def poolSysOpen (cur : PoolTask) (x : PoolSys) (uninit : Uninit) (pathname : List UInt8)
    (flags : ℕ) : Outcome (Option ℕ × PoolSys) := do
  access (pathname ≠ [])
  if pathname.getLast? = some slash then
    return (none, x)
  assert (flags ≤ 7)
  let pathnameDepth ← pathDepthCnt uninit pathname
  let ((inodeNo, record), x) ← viaInodes cur (fun s => do
    let (inodeNo, record, s) ← searchFile s uninit pathname
    return ((inodeNo, record), s)) x
  if record.fileType = .directory then
    return (none, ← poolDirClose cur x record.parentDir)
  let pathSearchedDepth ← pathDepthCnt uninit record.searchedPath
  if pathnameDepth ≠ pathSearchedDepth then
    return (none, ← poolDirClose cur x record.parentDir)
  match inodeNo, decide (4 ≤ flags) with
  | none, false => return (none, ← poolDirClose cur x record.parentDir)
  | some _, true => return (none, ← poolDirClose cur x record.parentDir)
  | none, true =>
    let (fd, x) ← poolFileCreate cur x record.parentDir (afterLastSlash pathname) flags
    return (fd, ← poolDirClose cur x record.parentDir)
  | some inodeNo, false => viaInodes cur (fun s => fileOpen s cur.pid inodeNo flags) x

end Calls

/-- The calls that open and close inodes. -/
inductive InodeCall
  | open (path : List UInt8) (flags : ℕ)
  | close (fd : ℕ)
  | stat (path : List UInt8)
  | opendir (path : List UInt8)
  | closedir (dir : DirPtr)

/-- The call without its result, on the file system alone. -/
def InodeCall.exec (uninit : Uninit) (pid : ℕ) (s : FileSys) : InodeCall → Outcome (Unit × FileSys)
  | .open path flags => do
    let (_, s) ← sysOpen s uninit pid path flags
    return ((), s)
  | .close fd => do
    let (_, s) ← sysClose s pid fd
    return ((), s)
  | .stat path => do
    let (_, s) ← sysStat s uninit path
    return ((), s)
  | .opendir path => do
    let (_, s) ← sysOpendir s uninit path
    return ((), s)
  | .closedir dir => return ((), (sysClosedir s (some dir)).2)

/-- The call by the task `cur`. All but `sys_open` leave memory to `inode_open` and
`inode_close`. -/
def poolExec (x : PoolSys) (c : PoolTask × Uninit × InodeCall) : Outcome PoolSys := do
  match c with
  | (cur, uninit, .open path flags) =>
    let (_, x) ← poolSysOpen cur x uninit path flags
    return x
  | (cur, uninit, c) =>
    let (_, x) ← viaInodes cur (fun s => c.exec uninit cur.pid s) x
    return x

/-- A call that meets the condition `P`. -/
def PoolStep (P : PoolSys → PoolTask × Uninit × InodeCall → Prop) (x x' : PoolSys) : Prop :=
  ∃ c, P x c ∧ poolExec x c = .ok x'

/-- Every inode on `open_inodes` is in the kernel's heap. -/
def KernelInodes (x : PoolSys) : Prop := ∀ q ∈ x.fs.openInodes, x.pool q = .kernel

/-- Only a kernel thread opens with `O_CREAT` a path that names nothing. -/
def KernelCreates (x : PoolSys) : PoolTask × Uninit × InodeCall → Prop
  | (cur, uninit, .open path flags) =>
      4 ≤ flags → namedInode x.fs uninit path = none → cur.pgdir = none
  | _ => True

/-! ## What a call adds to the list -/

/-- The inodes on the list in `s'` were there before, or are new. -/
structure OpensMore (s s' : FileSys) : Prop where
  brk : s.brk ≤ s'.brk
  mem : ∀ q ∈ s'.openInodes, q ∈ s.openInodes ∨ s.brk ≤ q ∧ q < s'.brk

section OpensMore

variable {s s₁ s' : FileSys} {n q : ℕ} {dir : DirPtr} {uninit : Uninit} {path : List UInt8}
  {pid flag : ℕ} {fd : Option ℕ}

theorem OpensMore.of_eq (hopen : s'.openInodes = s.openInodes) (hbrk : s'.brk = s.brk) :
    OpensMore s s' :=
  ⟨hbrk.ge, fun _ hq => Or.inl (hopen ▸ hq)⟩

theorem OpensMore.refl (s : FileSys) : OpensMore s s := .of_eq rfl rfl

theorem OpensMore.trans (h : OpensMore s s₁) (h' : OpensMore s₁ s') : OpensMore s s' := by
  refine ⟨h.brk.trans h'.brk, fun q hq => ?_⟩
  rcases h'.mem q hq with hq | ⟨hle, hlt⟩
  · exact (h.mem q hq).imp_right fun hq => ⟨hq.1, hq.2.trans_le h'.brk⟩
  · exact Or.inr ⟨h.brk.trans hle, hlt⟩

theorem opensMore_inodeOpen (hrun : inodeOpen s n = .ok (q, s')) : OpensMore s s' := by
  rcases inodeOpen_cases hrun with ⟨-, rfl⟩ | ⟨-, -, -, rfl⟩
  · exact .of_eq rfl rfl
  · refine ⟨Nat.le_succ _, fun q hq => ?_⟩
    rcases List.mem_cons.1 hq with rfl | hq
    · exact Or.inr ⟨le_rfl, Nat.lt_succ_self _⟩
    · exact Or.inl hq

theorem opensMore_inodeClose (s : FileSys) (q : ℕ) : OpensMore s (inodeClose s q) := by
  refine ⟨(cacheStep_inodeClose s q).brk, fun p hp => Or.inl ?_⟩
  rw [inodeClose_openInodes] at hp
  split at hp
  · exact List.mem_of_mem_erase hp
  · exact hp

theorem opensMore_dirOpen (hrun : dirOpen s n = .ok (dir, s')) : OpensMore s s' := by
  obtain ⟨⟨q, s₁⟩, hopen, -, rfl⟩ := bind_pair_eq_ok hrun
  exact opensMore_inodeOpen hopen

theorem opensMore_dirClose (s : FileSys) (dir : DirPtr) : OpensMore s (dirClose s dir) := by
  cases dir with
  | rootDir => exact .refl s
  | heap q => exact opensMore_inodeClose s q

theorem opensMore_searchFile {res : Option ℕ} {record : PathSearchRecord}
    (hrun : searchFile s uninit path = .ok (res, record, s')) : OpensMore s s' :=
  searchFile_rule (I := fun s₁ _ => OpensMore s s₁)
    (fun h hopen => (h.trans (opensMore_dirClose _ _)).trans (opensMore_dirOpen hopen))
    (.refl s) hrun

theorem opensMore_pcbFdInstall {g : ℕ} (h : pcbFdInstall s pid g = (fd, s')) : OpensMore s s' := by
  rw [(pcbFdInstall_installs h).1]
  exact .of_eq rfl rfl

theorem opensMore_fileOpen (hrun : fileOpen s pid n flag = .ok (fd, s')) : OpensMore s s' := by
  rcases fileOpen_cases hrun with ⟨-, rfl, -⟩ | ⟨g, q, s₁, ho⟩
  · exact .refl s'
  · rw [ho.state]
    exact (opensMore_inodeOpen ho.open_inode).trans (.of_eq rfl rfl)

theorem opensMore_fileCreate {name : List UInt8}
    (hrun : fileCreate s pid dir name flag = .ok (fd, s')) : OpensMore s s' := by
  cases FileCreated.of_fileCreate hrun with
  | noNumber => exact .refl s
  | noSlot => exact ⟨Nat.le_succ _, fun _ hq => Or.inl hq⟩
  | noEntry => exact ⟨Nat.le_succ _, fun _ hq => Or.inl hq⟩
  | created _ _ _ _ _ _ hinst =>
    refine OpensMore.trans ⟨Nat.le_succ _, fun q hq => ?_⟩ (opensMore_pcbFdInstall hinst)
    rcases List.mem_cons.1 hq with rfl | hq
    · exact Or.inr ⟨le_rfl, Nat.lt_succ_self _⟩
    · exact Or.inl hq

theorem opensMore_sysClose {fd : ℕ} {done : Bool} (hrun : sysClose s pid fd = .ok (done, s')) :
    OpensMore s s' := by
  unfold sysClose at hrun
  split at hrun
  · obtain ⟨-, rfl⟩ := ok_pair hrun
    exact .refl s
  obtain ⟨i, -, hrun⟩ := bind_eq_ok.1 hrun
  split at hrun
  · obtain ⟨s₁, hs₁, -, rfl⟩ := bind_pair_eq_ok hrun
    obtain rfl := Except.ok.inj hs₁
    exact .of_eq rfl rfl
  · obtain ⟨s₁, hclose, -, rfl⟩ := bind_pair_eq_ok hrun
    unfold fileClose at hclose
    split at hclose
    · cases hclose
    · next q _ =>
      obtain rfl := Except.ok.inj hclose
      have hdeny : OpensMore s (s.setInode q { s.inodes q with writeDeny := false }) :=
        .of_eq rfl rfl
      exact (hdeny.trans (opensMore_inodeClose _ q)).trans (.of_eq rfl rfl)

theorem opensMore_sysStat {st : Option Stat} (hrun : sysStat s uninit path = .ok (st, s')) :
    OpensMore s s' := by
  unfold sysStat at hrun
  split at hrun
  · obtain ⟨-, rfl⟩ := ok_pair hrun
    exact .refl s
  obtain ⟨⟨res, record, s₁⟩, hsearch, hrun⟩ := bind_eq_ok.1 hrun
  have h₁ := opensMore_searchFile hsearch
  cases res with
  | none =>
    obtain ⟨-, rfl⟩ := ok_pair hrun
    exact h₁.trans (opensMore_dirClose s₁ record.parentDir)
  | some n =>
    obtain ⟨⟨q, s₂⟩, hopen, -, rfl⟩ := bind_pair_eq_ok hrun
    exact (h₁.trans (opensMore_inodeOpen hopen)).trans
      ((opensMore_inodeClose s₂ q).trans (opensMore_dirClose _ record.parentDir))

theorem opensMore_sysOpendir {res : Option DirPtr}
    (hrun : sysOpendir s uninit path = .ok (res, s')) : OpensMore s s' := by
  unfold sysOpendir at hrun
  obtain ⟨_, -, hrun⟩ := bind_eq_ok.1 hrun
  split at hrun
  · obtain ⟨-, rfl⟩ := ok_pair hrun
    exact .refl s
  obtain ⟨⟨no, record, s₁⟩, hsearch, hrun⟩ := bind_eq_ok.1 hrun
  have h₁ := opensMore_searchFile hsearch
  dsimp only at hrun
  split at hrun
  · obtain ⟨⟨dir, s₂⟩, hopen, -, rfl⟩ := bind_pair_eq_ok hrun
    exact (h₁.trans (opensMore_dirOpen hopen)).trans (opensMore_dirClose s₂ record.parentDir)
  · obtain ⟨-, rfl⟩ := ok_pair hrun
    exact h₁.trans (opensMore_dirClose s₁ record.parentDir)

theorem opensMore_sysOpen {flags : ℕ} (hrun : sysOpen s uninit pid path flags = .ok (fd, s')) :
    OpensMore s s' := by
  cases openRun_of_sysOpen hrun with
  | slash => exact .refl s
  | refused hsearch => exact (opensMore_searchFile hsearch).trans (opensMore_dirClose _ _)
  | created _ _ _ hsearch _ _ hcreate =>
    exact ((opensMore_searchFile hsearch).trans (opensMore_fileCreate hcreate)).trans
      (opensMore_dirClose _ _)
  | opened _ _ hsearch _ _ hopen =>
    exact (opensMore_searchFile hsearch).trans (opensMore_fileOpen hopen)

theorem InodeCall.opensMore {c : InodeCall} {u : Unit} (hrun : c.exec uninit pid s = .ok (u, s')) :
    OpensMore s s' := by
  cases c with
  | «open» path flags =>
    obtain ⟨⟨_, s₁⟩, hcall, hrun⟩ := bind_eq_ok.1 hrun
    exact (ok_pair hrun).2 ▸ opensMore_sysOpen hcall
  | close fd =>
    obtain ⟨⟨_, s₁⟩, hcall, hrun⟩ := bind_eq_ok.1 hrun
    exact (ok_pair hrun).2 ▸ opensMore_sysClose hcall
  | stat path =>
    obtain ⟨⟨_, s₁⟩, hcall, hrun⟩ := bind_eq_ok.1 hrun
    exact (ok_pair hrun).2 ▸ opensMore_sysStat hcall
  | opendir path =>
    obtain ⟨⟨_, s₁⟩, hcall, hrun⟩ := bind_eq_ok.1 hrun
    exact (ok_pair hrun).2 ▸ opensMore_sysOpendir hcall
  | closedir dir => exact (ok_pair hrun).2 ▸ opensMore_dirClose s dir

end OpensMore

/-! ## Kernel memory only -/

section Pools

variable {x : PoolSys} {s s' : FileSys} {cur : PoolTask} {uninit : Uninit}

theorem KernelInodes.grow (h : KernelInodes x) (hs : OpensMore x.fs s) :
    KernelInodes (x.grow .kernel s) := fun q hq => by
  change (if _ then _ else _) = _
  split
  · rfl
  · next hnew => exact h q ((hs.mem q hq).resolve_right hnew)

theorem PoolSys.grow_grow (pool : PoolFlags) (hs : x.fs.brk ≤ s.brk) (hs' : s.brk ≤ s'.brk) :
    (x.grow pool s).grow pool s' = x.grow pool s' := by
  have hpool : ∀ q, ((x.grow pool s).grow pool s').pool q = (x.grow pool s').pool q := fun q => by
    change (if s.brk ≤ q ∧ q < s'.brk then pool else if x.fs.brk ≤ q ∧ q < s.brk then pool
      else x.pool q) = if x.fs.brk ≤ q ∧ q < s'.brk then pool else x.pool q
    split_ifs <;> first | rfl | omega
  unfold PoolSys.grow
  exact congrArg (PoolSys.mk s') (funext hpool)

theorem PoolSys.grow_self (x : PoolSys) (pool : PoolFlags) : x.grow pool x.fs = x := by
  have hpool : ∀ q, (x.grow pool x.fs).pool q = x.pool q := fun q => if_neg (by omega)
  exact congrArg (PoolSys.mk x.fs) (funext hpool)

theorem kernelThread_pool (pid : ℕ) : PoolTask.pool ⟨pid, none⟩ = .kernel := rfl

/-- The outcome of a call, with the memory of its new inodes from the kernel's pool. -/
def withKernel {α : Type} (x : PoolSys) (o : Outcome (α × FileSys)) : Outcome (α × PoolSys) :=
  o.map fun r => (r.1, x.grow .kernel r.2)

/-- **No `ASSERT` fails** in a part that leaves memory to `inode_open` and `inode_close`, as long as
all inodes are the kernel's. -/
theorem KernelInodes.viaInodes {α : Type} {f : FileSys → Outcome (α × FileSys)}
    (h : KernelInodes x) : viaInodes cur f x = withKernel x (f x.fs) := by
  unfold Fs.viaInodes withKernel
  cases f x.fs with
  | error e => rfl
  | ok r =>
    rw [ok_bind]
    have hfree : ∀ q < r.2.brk, q ∈ x.fs.openInodes ∨ x.fs.brk ≤ q → q ∉ r.2.openInodes →
        (x.grow .kernel r.2).pool q = .kernel := fun q hq hold _ => by
      change (if _ then _ else _) = _
      split
      · rfl
      · next hnew => exact h q (hold.resolve_right fun hle => hnew ⟨hle, hq⟩)
    dsimp only
    rw [kernelThread_pool, assert, if_pos hfree, ok_bind]
    rfl

theorem grow_fs (pool : PoolFlags) : (x.grow pool s).fs = s := rfl

theorem withKernel_grow {α : Type} {o : Outcome (α × FileSys)} (hs : x.fs.brk ≤ s.brk)
    (ho : ∀ {a s'}, o = .ok (a, s') → s.brk ≤ s'.brk) :
    withKernel (x.grow .kernel s) o = withKernel x o := by
  cases o with
  | error e => rfl
  | ok r => exact congrArg (fun x => Except.ok (r.1, x)) (PoolSys.grow_grow .kernel hs (ho rfl))

theorem poolFileCreate_eq (hc : cur.pgdir = none) (dir : DirPtr) (name : List UInt8) (flags : ℕ) :
    poolFileCreate cur x dir name flags =
      withKernel x (fileCreate x.fs cur.pid dir name flags) := by
  have hpool : cur.pool = .kernel := if_pos hc
  unfold poolFileCreate withKernel
  rw [hpool]
  cases fileCreate x.fs cur.pid dir name flags with
  | error e => rfl
  | ok r => rfl

theorem KernelInodes.poolDirClose (h : KernelInodes x) (dir : DirPtr) :
    poolDirClose cur x dir = .ok (x.grow .kernel (dirClose x.fs dir)) := by
  unfold Fs.poolDirClose
  rw [h.viaInodes]
  rfl

theorem KernelInodes.sysOpen (h : KernelInodes x) {path : List UInt8} {flags : ℕ}
    (hc : 4 ≤ flags → namedInode x.fs uninit path = none → cur.pgdir = none) :
    poolSysOpen cur x uninit path flags =
      withKernel x (sysOpen x.fs uninit cur.pid path flags) := by
  unfold poolSysOpen Fs.sysOpen
  cases access (path ≠ []) with
  | error e => rfl
  | ok _ =>
  rw [ok_bind, ok_bind]
  by_cases hlast : path.getLast? = some slash
  · rw [if_pos hlast, if_pos hlast]
    exact congrArg (fun x => Except.ok (none, x)) (x.grow_self .kernel).symm
  rw [if_neg hlast, if_neg hlast]
  cases assert (flags ≤ 7) with
  | error e => rfl
  | ok _ =>
  cases pathDepthCnt uninit path with
  | error e => rfl
  | ok depth =>
  rw [ok_bind, ok_bind, ok_bind, ok_bind, h.viaInodes]
  cases hsearch : searchFile x.fs uninit path with
  | error e => rfl
  | ok res =>
  obtain ⟨no, record, s⟩ := res
  have hs := opensMore_searchFile hsearch
  have h₁ := h.grow hs
  have hclose : (do return (none, ← Fs.poolDirClose cur (x.grow .kernel s) record.parentDir) :
      Outcome (Option ℕ × PoolSys)) = withKernel x (.ok (none, dirClose s record.parentDir)) := by
    rw [h₁.poolDirClose, ok_bind]
    exact congrArg (fun x => Except.ok (none, x))
      (PoolSys.grow_grow .kernel hs.brk (opensMore_dirClose s record.parentDir).brk)
  change (if record.fileType = .directory then _ else _) =
    withKernel x (if record.fileType = .directory then _ else _)
  by_cases hdir : record.fileType = .directory
  · rw [if_pos hdir, if_pos hdir]
    exact hclose
  rw [if_neg hdir, if_neg hdir]
  cases pathDepthCnt uninit record.searchedPath with
  | error e => rfl
  | ok depth' =>
  rw [ok_bind, ok_bind]
  by_cases hdepth : depth ≠ depth'
  · rw [if_pos hdepth, if_pos hdepth]
    exact hclose
  rw [if_neg hdepth, if_neg hdepth]
  by_cases h4 : 4 ≤ flags
  · rw [decide_eq_true h4]
    cases no with
    | some no => exact hclose
    | none =>
      dsimp only
      rw [poolFileCreate_eq (hc h4 (by rw [namedInode, hsearch])), grow_fs,
        withKernel_grow hs.brk fun hr => (opensMore_fileCreate hr).brk]
      cases hcreate : fileCreate s cur.pid record.parentDir (afterLastSlash path) flags with
      | error e => rfl
      | ok r =>
        have hr := hs.trans (opensMore_fileCreate hcreate)
        change (do return (r.1, ← Fs.poolDirClose cur (x.grow .kernel r.2) record.parentDir)) = _
        rw [(h.grow hr).poolDirClose, ok_bind]
        exact congrArg (fun x => Except.ok (r.1, x))
          (PoolSys.grow_grow .kernel hr.brk (opensMore_dirClose r.2 record.parentDir).brk)
  · rw [decide_eq_false h4]
    cases no with
    | none => exact hclose
    | some no =>
      dsimp only
      rw [h₁.viaInodes]
      exact withKernel_grow hs.brk fun hr => (opensMore_fileOpen hr).brk

theorem KernelInodes.poolExec (h : KernelInodes x) {c : InodeCall}
    (hc : KernelCreates x (cur, uninit, c)) :
    poolExec x (cur, uninit, c) =
      (c.exec uninit cur.pid x.fs).map fun r => x.grow .kernel r.2 := by
  have hvia : (do
      let (_, x) ← Fs.viaInodes cur (fun s => c.exec uninit cur.pid s) x
      return x : Outcome PoolSys) =
        (c.exec uninit cur.pid x.fs).map fun r => x.grow .kernel r.2 := by
    rw [h.viaInodes]
    cases c.exec uninit cur.pid x.fs with
    | error e => rfl
    | ok r => rfl
  cases c with
  | «open» path flags =>
    unfold Fs.poolExec InodeCall.exec
    dsimp only
    rw [h.sysOpen hc]
    cases Fs.sysOpen x.fs uninit cur.pid path flags with
    | error e => rfl
    | ok r => rfl
  | close | stat | opendir | closedir => exact hvia

/-- **Open inodes are the kernel's.** In every run in which only kernel threads create files, all
inodes on `open_inodes` are in the kernel's heap, and the next such call does exactly what it does
without looking at pools: no `ASSERT` of `sys_free` fails. -/
theorem kernelInodes_of_run (x₀ : PoolSys) (h₀ : KernelInodes x₀) (x : PoolSys)
    (hx : Relation.ReflTransGen (PoolStep KernelCreates) x₀ x) :
    KernelInodes x ∧ ∀ cur uninit c, KernelCreates x (cur, uninit, c) →
      (poolExec x (cur, uninit, c)).map PoolSys.fs = (c.exec uninit cur.pid x.fs).map Prod.snd := by
  have hk : KernelInodes x := reach_invariant hx h₀ fun h ⟨⟨cur, uninit, c⟩, hc, hstep⟩ => by
    rw [h.poolExec hc] at hstep
    cases hcall : c.exec uninit cur.pid _ with
    | error e =>
      rw [hcall] at hstep
      cases hstep
    | ok r =>
      rw [hcall] at hstep
      exact Except.ok.inj hstep ▸ h.grow (InodeCall.opensMore hcall)
  refine ⟨hk, fun cur uninit c hc => ?_⟩
  rw [hk.poolExec hc]
  cases c.exec uninit cur.pid x.fs with
  | error e => rfl
  | ok r => rfl

end Pools

/-- A small file system; the root inode has been opened when the partition was mounted. -/
def smallPools : PoolSys := ⟨smallRun.fs, fun _ => .kernel⟩

/-- A kernel thread creates a file. -/
theorem kernelInodes_of_kernelThread : ∃ x,
    poolExec smallPools (⟨1, none⟩, noUninit, .open pathA 4) = .ok x ∧ KernelInodes x := by
  obtain ⟨x, hrun, -⟩ := exists_of_holds
    (o := poolExec smallPools (⟨1, none⟩, noUninit, .open pathA 4)) (f := fun _ => true)
    (by decide +kernel)
  have hc : KernelCreates smallPools (⟨1, none⟩, noUninit, .open pathA 4) := fun _ _ => rfl
  exact ⟨x, hrun, (kernelInodes_of_run smallPools (fun _ _ => rfl) x (.single ⟨_, hc, hrun⟩)).1⟩

/-- A process creates a file: its inode is on the list and in the process's heap. When the process
closes the file, the `ASSERT` of `sys_free` fails. -/
theorem userInode_of_create : ∃ x,
    poolExec smallPools (⟨1, some 0⟩, noUninit, .open pathA 4) = .ok x ∧
      (∃ q ∈ x.fs.openInodes, x.pool q = .user) ∧
      (∃ s, (InodeCall.close 3).exec noUninit 1 x.fs = .ok ((), s)) ∧
      ∀ x', poolExec x (⟨1, some 0⟩, noUninit, .close 3) ≠ .ok x' := by
  obtain ⟨x, hrun, hx⟩ := exists_of_holds
    (o := poolExec smallPools (⟨1, some 0⟩, noUninit, .open pathA 4))
    (f := fun x => decide (∃ q ∈ x.fs.openInodes, x.pool q = .user) &&
      (holds ((InodeCall.close 3).exec noUninit 1 x.fs) fun _ => true) &&
      !holds (poolExec x (⟨1, some 0⟩, noUninit, .close 3)) fun _ => true) (by decide +kernel)
  simp only [Bool.and_eq_true, decide_eq_true_eq, Bool.not_eq_true'] at hx
  obtain ⟨⟨huser, hclose⟩, hassert⟩ := hx
  obtain ⟨⟨_, s⟩, hs, -⟩ := exists_of_holds hclose
  refine ⟨x, hrun, huser, ⟨s, hs⟩, fun x' hx' => ?_⟩
  rw [hx'] at hassert
  cases hassert

end Gardos.Fs
