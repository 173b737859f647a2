import Gardos.Memory.FailedPages
import Gardos.Memory.MallocSizes
import Gardos.Userprog.Process

/-!
# `sys_fork` and memory (`userprog/fork.c`, `userprog/process.c`)

A process is known by the page of its `task_struct`, which is also the page that `sys_fork` takes
for the child. The child gets a copy of the bitmap of virtual pages in pages of its own, a page
directory with the kernel's entries, and a copy of each page that the bitmap has, through a buffer
page and with a switch of the page directory for each page.

The content of the kernel stack and of the descriptors of the heap, and the counts of open files are
not part of this model (`Gardos.Userprog.ForkHeap`, `Gardos.Userprog.Files`).

* `sysFork_sched`: what the call does to the tasks is `Userprog.sysFork`.
* `givesBack_iff`: with assertions compiled out, a failed `malloc_page` or `sys_fork` gives
  everything back iff it fails for want of virtual pages before it has got anything.
-/

namespace Gardos.Userprog

open Outcome Bytes Thread Paging Function

/-- Memory, the tasks, and where each process has its bitmap of virtual pages. -/
structure ProcState where
  mem : Machine
  sched : Sched
  /-- The first page of `userprog_vaddr.vaddr_bitmap.bits`. -/
  bits : ℕ → ℕ

/-! ## Pages -/

/-- `memset` with zero of whole pages. A page of zeros is also an empty page table. -/
def clearPages : (cnt v : ℕ) → Machine → Outcome Machine
  | 0, _, s => return s
  | cnt + 1, v, s =>
    match s.walk s.cr3 v with
    | none => throw .fault
    | some f => clearPages cnt ((v + 1) % pageCount)
      { s with
        ram := update s.ram f zero
        table := update s.table f fun _ => ⟨false, 0⟩ }

/-- `get_kernel_pages`. -/
def getKernelPages (ndebug : Bool) (s : Machine) (pgCnt : ℕ) : Outcome (Option ℕ × Machine) := do
  match ← mallocPage ndebug s .kernel pgCnt with
  | (none, s) => return (none, s)
  | (some v, s) =>
    let s ← clearPages pgCnt v s
    return (some v, s)

/-- `memcpy` of a whole page. -/
def copyPage (s : Machine) (dst src : ℕ) : Outcome Machine :=
  match s.walk s.cr3 dst, s.walk s.cr3 src with
  | some g, some f => pure { s with ram := update s.ram g (s.ram f) }
  | _, _ => throw .fault

/-- `memcpy` of several pages. -/
def copyPages : (cnt dst src : ℕ) → Machine → Outcome Machine
  | 0, _, _, s => return s
  | cnt + 1, dst, src, s => do
    let s ← copyPage s dst src
    copyPages cnt ((dst + 1) % pageCount) ((src + 1) % pageCount) s

/-- `create_page_dir`: the kernel's entries of the current directory, and the last entry for the
directory itself. -/
def createPageDir (ndebug : Bool) (s : Machine) : Outcome (Option ℕ × Machine) := do
  match ← getKernelPages ndebug s 1 with
  | (none, s) => return (none, s)
  | (some v, s) =>
    let f ← addrV2p s v
    return (some v, { s with table := update s.table f fun i =>
      if i = 1023 then ⟨true, f⟩ else if 768 ≤ i then s.table s.cr3 i else s.table f i })

/-! ## The child -/

/-- `fork_pid`. Without assertions, a full bitmap makes `bitmap_set` write far outside. -/
def forkPid (ndebug : Bool) (s : Sched) : Outcome (ℕ × Sched) := do
  match ← bitmapScan ndebug s.pidBitmap 1 with
  | some i => return (i + 1, { s with pidBitmap := s.pidBitmap.set i true })
  | none => throw .fault

/-- The number of pages of a bitmap of virtual pages, `bitmap_pg_cnt`. -/
def bitmapPgCnt : ℕ := ((0xc0000000 - 0x8048000) / 4096 / 8 + 4096 - 1) / 4096

/-- `copy_pcb_vaddrbitmap_stack0`; `false` is `-1`. -/
def copyPcbVaddrbitmapStack0 (ndebug : Bool) (x : ProcState) (child : ℕ) :
    Outcome (Bool × ProcState) := do
  let parent := x.mem.cur
  let mem ← copyPage x.mem child parent
  let (pid, sched) ← forkPid ndebug x.sched
  let sched := sched.setTask child
    { sched.tasks parent with
      pid := pid
      elapsedTicks := 0
      status := .ready
      ticks := (sched.tasks parent).priority
      parentPid := some (sched.tasks parent).pid }
  let mem := { mem with tasks := update mem.tasks child (mem.tasks parent) }
  match ← getKernelPages ndebug mem bitmapPgCnt with
  | (none, mem) => return (false, ⟨mem, sched, update x.bits child (x.bits parent)⟩)
  | (some vaddrBtmp, mem) =>
    let mem ← copyPages bitmapPgCnt vaddrBtmp (x.bits parent) mem
    return (true, ⟨mem, sched, update x.bits child vaddrBtmp⟩)

/-- The page directory of a task, `pgdir`. -/
def setPgdir (s : Machine) (t pgdir : ℕ) : Machine :=
  { s with tasks := update s.tasks t { s.tasks t with pgdir := some pgdir } }

/-- The copy of page `v`, through the buffer. What `get_a_page_without_opvaddrbitmap` returns is not
checked. -/
def copyUserPage (ndebug : Bool) (child buf v : ℕ) (s : Machine) : Outcome Machine := do
  let s ← copyPage s buf v
  let s ← pageDirActivate s child
  let (_, s) ← getAPageWithoutOpvaddrbitmap ndebug s .user v
  let s ← copyPage s v buf
  pageDirActivate s s.cur

/-- The inner loop of `copy_body_stack3`, over the bits of a byte of the bitmap. -/
def copyBits (ndebug : Bool) (child buf : ℕ) (va : VirtualAddr) (idxByte : ℕ) :
    (left idxBit : ℕ) → Machine → Outcome Machine
  | 0, _, s => return s
  | left + 1, idxBit, s => do
    let s ← if va.vaddrBitmap.bit (8 * idxByte + idxBit) then
        copyUserPage ndebug child buf ((8 * idxByte + idxBit + va.vaddrStart) % pageCount) s
      else pure s
    copyBits ndebug child buf va idxByte left (idxBit + 1) s

/-- The outer loop of `copy_body_stack3`, over the bytes of the bitmap. -/
def copyBytes (ndebug : Bool) (child buf : ℕ) (va : VirtualAddr) :
    (left idxByte : ℕ) → Machine → Outcome Machine
  | 0, _, s => return s
  | left + 1, idxByte, s => do
    let s ← if (List.range 8).any (fun j => va.vaddrBitmap.bit (8 * idxByte + j)) then
        copyBits ndebug child buf va idxByte 8 0 s
      else pure s
    copyBytes ndebug child buf va left (idxByte + 1) s

/-- `copy_body_stack3`. -/
def copyBodyStack3 (ndebug : Bool) (child buf : ℕ) (s : Machine) : Outcome Machine :=
  let va := s.running.userprogVaddr
  copyBytes ndebug child buf va va.vaddrBitmap.btmpBytesLen 0 s

/-- `copy_process`. -/
def copyProcess (ndebug : Bool) (x : ProcState) (child : ℕ) : Outcome (Bool × ProcState) := do
  match ← getKernelPages ndebug x.mem 1 with
  | (none, mem) => return (false, { x with mem := mem })
  | (some buf, mem) =>
    match ← copyPcbVaddrbitmapStack0 ndebug { x with mem := mem } child with
    | (false, x) => return (false, x)
    | (true, x) =>
      match ← createPageDir ndebug x.mem with
      | (none, mem) => return (false, { x with mem := mem })
      | (some pgdir, mem) =>
        let mem ← copyBodyStack3 ndebug child buf (setPgdir mem child pgdir)
        let mem ← mfreePage ndebug mem .kernel buf 1
        return (true, { x with mem := mem })

/-- The child is put on the two lists. -/
def enlist (ndebug : Bool) (s : Sched) (t : ℕ) : Outcome Sched := do
  assert (ndebug = true ∨ t ∉ s.threadReadyList)
  assert (ndebug = true ∨ t ∉ s.threadAllList)
  return { s with
    threadReadyList := s.threadReadyList ++ [t]
    threadAllList := s.threadAllList ++ [t] }

namespace ProcState

/-- `sys_fork`; `none` is `-1`. -/
def sysFork (ndebug : Bool) (x : ProcState) : Outcome (Option ℕ × ProcState) := do
  match ← getKernelPages ndebug x.mem 1 with
  | (none, mem) => return (none, { x with mem := mem })
  | (some child, mem) =>
    assert (ndebug = true ∨ mem.running.pgdir ≠ none)
    match ← copyProcess ndebug { x with mem := mem } child with
    | (false, x) => return (none, x)
    | (true, x) =>
      let sched ← enlist ndebug x.sched child
      return (some (sched.tasks child).pid, { x with sched := sched })

end ProcState

variable {d : Bool} {s s' : Machine} {x x' : ProcState} {child v n : ℕ} {dst src pid : ℕ}
  {r : Option ℕ}

/-! ## Virtual pages of the kernel -/

/-- The virtual pages of the kernel that are marked stay so. -/
def KeepsMarks (s s' : Machine) : Prop :=
  ∀ i, s.kernelVaddr.vaddrBitmap.bit i = true → s'.kernelVaddr.vaddrBitmap.bit i = true

theorem KeepsMarks.of_eq (h : s'.kernelVaddr = s.kernelVaddr) : KeepsMarks s s' := fun i hi => by
  rw [h]
  exact hi

theorem KeepsMarks.trans {s₁ : Machine} (h : KeepsMarks s s₁) (h' : KeepsMarks s₁ s') :
    KeepsMarks s s' := fun i hi => h' i (h i hi)

theorem clearPages_sameSpaces (h : clearPages n v s = .ok s') : SameSpaces s s' := by
  induction n generalizing v s with
  | zero =>
    obtain rfl := pure_eq_ok.1 h
    exact ⟨rfl, rfl, rfl⟩
  | succ n ih =>
    rw [clearPages] at h
    split at h
    · cases h
    · have hrest := ih h
      exact ⟨hrest.kernelVaddr, hrest.tasks, hrest.cur⟩

theorem copyPage_sameSpaces (h : copyPage s dst src = .ok s') : SameSpaces s s' := by
  unfold copyPage at h
  split at h
  · obtain rfl := pure_eq_ok.1 h
    exact ⟨rfl, rfl, rfl⟩
  · cases h

theorem copyPages_sameSpaces (h : copyPages n dst src s = .ok s') : SameSpaces s s' := by
  induction n generalizing dst src s with
  | zero =>
    obtain rfl := pure_eq_ok.1 h
    exact ⟨rfl, rfl, rfl⟩
  | succ n ih =>
    obtain ⟨s₁, hcopy, h⟩ := bind_eq_ok.1 h
    exact (copyPage_sameSpaces hcopy).trans (ih h)

/-- `get_kernel_pages` returns without any virtual page, or it has marked a run of them. -/
theorem getKernelPages_cases (h : getKernelPages d s n = .ok (r, s')) :
    (bitmapScan d s.kernelVaddr.vaddrBitmap n = .ok none ∧ r = none ∧ s' = s) ∨
    ∃ i, bitmapScan d s.kernelVaddr.vaddrBitmap n = .ok (some i) ∧
      SameSpaces { s with kernelVaddr := s.kernelVaddr.mark i n true } s' := by
  obtain ⟨⟨v, s₁⟩, hmalloc, h⟩ := bind_eq_ok.1 h
  have hclear : SameSpaces s₁ s' ∧ (v = none → r = none ∧ s' = s₁) := by
    cases v with
    | none =>
      obtain ⟨rfl, rfl⟩ := ok_pair h
      exact ⟨⟨rfl, rfl, rfl⟩, fun _ => ⟨rfl, rfl⟩⟩
    | some v =>
      obtain ⟨s₂, hclear, rfl, rfl⟩ := bind_pair_eq_ok h
      exact ⟨clearPages_sameSpaces hclear, fun hv => by cases hv⟩
  rcases mallocPage_cases hmalloc with ⟨hscan, hv, rfl⟩ | ⟨i, done, hscan, hmap, -⟩
  · exact .inl ⟨hscan, hclear.2 hv⟩
  · exact .inr ⟨i, hscan, (mapPages_sameSpaces hmap).trans hclear.1⟩

theorem getKernelPages_tasks (h : getKernelPages d s n = .ok (r, s')) :
    s'.tasks = s.tasks ∧ s'.cur = s.cur := by
  rcases getKernelPages_cases h with ⟨-, -, rfl⟩ | ⟨i, -, hsame⟩
  · exact ⟨rfl, rfl⟩
  · exact ⟨hsame.tasks, hsame.cur⟩

theorem getKernelPages_keepsMarks (h : getKernelPages d s n = .ok (r, s')) : KeepsMarks s s' := by
  rcases getKernelPages_cases h with ⟨-, -, rfl⟩ | ⟨i, -, hsame⟩
  · exact fun _ hi => hi
  · intro j hj
    rw [hsame.kernelVaddr, VirtualAddr.mark, setRun_bit]
    split
    · rfl
    · exact hj

theorem createPageDir_keepsMarks (h : createPageDir d s = .ok (none, s')) : KeepsMarks s s' := by
  obtain ⟨⟨v, s₁⟩, hget, h⟩ := bind_eq_ok.1 h
  cases v with
  | none =>
    obtain ⟨-, rfl⟩ := ok_pair h
    exact getKernelPages_keepsMarks hget
  | some v =>
    obtain ⟨f, -, h⟩ := bind_eq_ok.1 h
    cases (ok_pair h).1

theorem copyPcb_keepsMarks {done : Bool}
    (h : copyPcbVaddrbitmapStack0 d x child = .ok (done, x')) : KeepsMarks x.mem x'.mem := by
  obtain ⟨mem, hcopy, h⟩ := bind_eq_ok.1 h
  obtain ⟨⟨pid, sched⟩, -, h⟩ := bind_eq_ok.1 h
  obtain ⟨⟨v, mem₁⟩, hget, h⟩ := bind_eq_ok.1 h
  have hkeep : KeepsMarks x.mem mem₁ :=
    (KeepsMarks.of_eq (copyPage_sameSpaces hcopy).kernelVaddr).trans
      fun i hi => getKernelPages_keepsMarks hget i hi
  cases v with
  | none =>
    obtain ⟨-, rfl⟩ := ok_pair h
    exact hkeep
  | some v =>
    obtain ⟨mem₂, hcopies, -, rfl⟩ := bind_pair_eq_ok h
    exact hkeep.trans (.of_eq (copyPages_sameSpaces hcopies).kernelVaddr)

/-- A failed `copy_process` keeps what it has got. -/
theorem copyProcess_keepsMarks (h : copyProcess d x child = .ok (false, x')) :
    KeepsMarks x.mem x'.mem := by
  obtain ⟨⟨buf, mem⟩, hget, h⟩ := bind_eq_ok.1 h
  have hkeep := getKernelPages_keepsMarks hget
  cases buf with
  | none =>
    obtain ⟨-, rfl⟩ := ok_pair h
    exact hkeep
  | some buf =>
    obtain ⟨⟨done, x₁⟩, hpcb, h⟩ := bind_eq_ok.1 h
    have hkeep₁ : KeepsMarks x.mem x₁.mem := hkeep.trans (copyPcb_keepsMarks hpcb)
    cases done with
    | false =>
      obtain ⟨-, rfl⟩ := ok_pair h
      exact hkeep₁
    | true =>
      obtain ⟨⟨pgdir, mem₁⟩, hdir, h⟩ := bind_eq_ok.1 h
      cases pgdir with
      | none =>
        obtain ⟨-, rfl⟩ := ok_pair h
        exact hkeep₁.trans (createPageDir_keepsMarks hdir)
      | some pgdir =>
        obtain ⟨mem₂, -, h⟩ := bind_eq_ok.1 h
        obtain ⟨mem₃, -, h⟩ := bind_eq_ok.1 h
        cases (ok_pair h).1

/-! ## The tasks -/

theorem forkPid_false (s : Sched) : forkPid false s = s.allocatePid := rfl

theorem enlist_false (s : Sched) (t : ℕ) : enlist false s t = s.enlist t := by
  unfold enlist Sched.enlist
  simp only [Bool.false_eq_true, false_or]

theorem enlist_tasks {s s' : Sched} {t : ℕ} (h : s.enlist t = .ok s') : s'.tasks = s.tasks := by
  obtain ⟨_, -, h⟩ := bind_eq_ok.1 h
  obtain ⟨_, -, h⟩ := bind_eq_ok.1 h
  rw [← pure_eq_ok.1 h]

theorem forkPid_cur {s s' : Sched} (h : forkPid d s = .ok (pid, s')) : s'.cur = s.cur := by
  obtain ⟨r, -, h⟩ := bind_eq_ok.1 h
  cases r with
  | none => cases h
  | some i => rw [← (ok_pair h).2]

/-- The `task_struct` of a child of `parent`. -/
def childTask (s : Sched) (parent pid : ℕ) : TaskStruct :=
  { s.tasks parent with
    pid := pid
    elapsedTicks := 0
    status := .ready
    ticks := (s.tasks parent).priority
    parentPid := some (s.tasks parent).pid }

theorem copyPcb_sched (h : copyPcbVaddrbitmapStack0 d x child = .ok (true, x')) :
    ∃ pid sched, forkPid d x.sched = .ok (pid, sched) ∧
      x'.sched = sched.setTask child (childTask sched x.mem.cur pid) := by
  obtain ⟨mem, -, h⟩ := bind_eq_ok.1 h
  obtain ⟨⟨pid, sched⟩, hpid, h⟩ := bind_eq_ok.1 h
  obtain ⟨⟨v, mem₁⟩, -, h⟩ := bind_eq_ok.1 h
  cases v with
  | none => cases (ok_pair h).1
  | some v =>
    obtain ⟨mem₂, -, -, rfl⟩ := bind_pair_eq_ok h
    exact ⟨pid, sched, hpid, rfl⟩

theorem copyProcess_sched (h : copyProcess d x child = .ok (true, x')) :
    ∃ pid sched, forkPid d x.sched = .ok (pid, sched) ∧
      x'.sched = sched.setTask child (childTask sched x.mem.cur pid) := by
  obtain ⟨⟨buf, mem⟩, hget, h⟩ := bind_eq_ok.1 h
  cases buf with
  | none => cases (ok_pair h).1
  | some buf =>
    obtain ⟨⟨done, x₁⟩, hpcb, h⟩ := bind_eq_ok.1 h
    cases done with
    | false => cases (ok_pair h).1
    | true =>
      obtain ⟨⟨pgdir, mem₁⟩, -, h⟩ := bind_eq_ok.1 h
      cases pgdir with
      | none => cases (ok_pair h).1
      | some pgdir =>
        obtain ⟨mem₂, -, h⟩ := bind_eq_ok.1 h
        obtain ⟨mem₃, -, -, rfl⟩ := bind_pair_eq_ok h
        obtain ⟨pid, sched, hpid, hsched⟩ := copyPcb_sched hpcb
        exact ⟨pid, sched, hpid, (getKernelPages_tasks hget).2 ▸ hsched⟩

/-- **The tasks after a fork** are those of `Userprog.sysFork`. -/
theorem sysFork_sched (hcur : x.mem.cur = x.sched.cur)
    (hproc : (x.sched.tasks x.sched.cur).pgdir = true) (h : x.sysFork false = .ok (some pid, x')) :
    ∃ child, Userprog.sysFork x.sched child = .ok (pid, x'.sched) := by
  obtain ⟨⟨child, mem⟩, hget, h⟩ := bind_eq_ok.1 h
  cases child with
  | none => cases (ok_pair h).1
  | some child =>
    obtain ⟨_, -, h⟩ := bind_eq_ok.1 h
    obtain ⟨⟨done, x₁⟩, hcopy, h⟩ := bind_eq_ok.1 h
    cases done with
    | false => cases (ok_pair h).1
    | true =>
      obtain ⟨sched, hlist, hpid, rfl⟩ := bind_pair_eq_ok h
      obtain ⟨pid', sched₁, halloc, hsched⟩ := copyProcess_sched hcopy
      have hparent : mem.cur = sched₁.cur := by
        rw [(getKernelPages_tasks hget).2, hcur, forkPid_cur halloc]
      rw [enlist_false, hsched, hparent] at hlist
      have hpid' : (sched.tasks child).pid = pid' := by
        rw [enlist_tasks hlist]
        change (update sched₁.tasks child _ child).pid = pid'
        rw [update_self]
        rfl
      refine ⟨child, bind_eq_ok.2 ⟨(), assert_eq_ok.2 hproc, bind_eq_ok.2 ⟨_, halloc,
        bind_eq_ok.2 ⟨sched, hlist, ?_⟩⟩⟩⟩
      rw [← Option.some.inj hpid, hpid']
      rfl

/-! ## A failed fork -/

/-- The bitmaps and the lists of tasks are as before. -/
structure ForkUnchanged (x x' : ProcState) : Prop where
  kernelPool : x'.mem.kernelPool = x.mem.kernelPool
  userPool : x'.mem.userPool = x.mem.userPool
  kernelVaddr : x'.mem.kernelVaddr = x.mem.kernelVaddr
  pidBitmap : x'.sched.pidBitmap = x.sched.pidBitmap
  threadReadyList : x'.sched.threadReadyList = x.sched.threadReadyList
  threadAllList : x'.sched.threadAllList = x.sched.threadAllList

/-- No virtual page of the kernel is free. -/
def NoKernelPage (s : Machine) : Prop :=
  ∀ i < s.kernelVaddr.vaddrBitmap.bitLen, s.kernelVaddr.vaddrBitmap.bit i = true

/-- A first page that could not be had leaves no trace only if there was no virtual page for it. -/
theorem scan_none_iff (h : bitmapScan true s.kernelVaddr.vaddrBitmap 1 = .ok r) :
    r = none ↔ NoKernelPage s := by
  constructor
  · rintro rfl i hi
    by_contra hbit
    obtain ⟨k, hk, -⟩ := bitmapScan_one_of_clear (d := true) hi (Bool.eq_false_iff.2 hbit)
    cases h.symm.trans hk
  · intro hfull
    exact (Except.ok.inj ((bitmapScan_true_of_full hfull).symm.trans h)).symm

/-- **A failed `sys_fork`** gives everything back iff the kernel had no virtual page for it. -/
theorem forkUnchanged_iff (h : x.sysFork true = .ok (none, x')) :
    ForkUnchanged x x' ↔ NoKernelPage x.mem := by
  obtain ⟨⟨child, mem⟩, hget, h⟩ := bind_eq_ok.1 h
  have hkeep : KeepsMarks mem x'.mem ∧ (child = none → x' = { x with mem := mem }) := by
    cases child with
    | none =>
      obtain ⟨-, rfl⟩ := ok_pair h
      exact ⟨fun _ hi => hi, fun _ => rfl⟩
    | some child =>
      obtain ⟨_, -, h⟩ := bind_eq_ok.1 h
      obtain ⟨⟨done, x₁⟩, hcopy, h⟩ := bind_eq_ok.1 h
      cases done with
      | false =>
        obtain ⟨-, rfl⟩ := ok_pair h
        exact ⟨copyProcess_keepsMarks hcopy, fun hc => by cases hc⟩
      | true =>
        obtain ⟨sched, -, h⟩ := bind_eq_ok.1 h
        cases (ok_pair h).1
  rcases getKernelPages_cases hget with ⟨hscan, hnone, rfl⟩ | ⟨i, hscan, hsame⟩
  · rw [hkeep.2 hnone]
    exact iff_of_true ⟨rfl, rfl, rfl, rfl, rfl, rfl⟩ ((scan_none_iff hscan).1 rfl)
  · refine iff_of_false (fun hu => ?_) fun hfull => ?_
    · -- the virtual page was free, was marked, and is marked at the end
      have hfirst := bitmapScan_one_eq_some hscan
      have hset : x'.mem.kernelVaddr.vaddrBitmap.bit i = true := by
        refine hkeep.1 i ?_
        rw [hsame.kernelVaddr, VirtualAddr.mark, setRun_bit, if_pos (by omega)]
      rw [hu.kernelVaddr, hfirst.clear] at hset
      cases hset
    · cases (scan_none_iff hscan).2 hfull

/-- **Failures give everything back** only for want of virtual pages: `malloc_page` when it finds no
run of them, `sys_fork` when there is none at all. -/
theorem givesBack_iff (s : Machine) (pf : PoolFlags) (n : ℕ) (x : ProcState) :
    (∀ s', mallocPage true s pf n = .ok (none, s') →
      (Unchanged s s' ↔ n = 0 ∨ (s.vaddr pf).vaddrBitmap.reach n = ∅)) ∧
    ∀ x', x.sysFork true = .ok (none, x') → (ForkUnchanged x x' ↔ NoKernelPage x.mem) :=
  ⟨fun _ h => unchanged_iff_of_failed h, fun _ h => forkUnchanged_iff h⟩

/-- A process in a machine with 4 MB. Its `task_struct`, bitmap and page directory are the first 25
pages of the kernel; `clear` says which frames of the kernel are free. -/
def procMachine (clear : ℕ → Bool) (marked : ℕ → Bool) : Machine where
  kernelPool := ⟨⟨32, fun k => !clear k⟩, 512⟩
  userPool := ⟨⟨32, fun k => decide (k = 0)⟩, 768⟩
  kernelVaddr := ⟨⟨32, marked⟩, 0xc0100⟩
  tasks _ := ⟨some 0xc0118, ⟨⟨94199, fun k => decide (k = 753591)⟩, 0x8048⟩⟩
  cur := 0xc0100
  cr3 := 536
  table t i :=
    if t = 536 then
      if i = 1023 then ⟨true, 536⟩
      else if 768 ≤ i then bootTable kernelDir i
      else if i = 767 then ⟨true, 537⟩
      else ⟨false, 0⟩
    else if t = 537 ∧ i = 1023 then ⟨true, 768⟩
    else if t = 0x101 ∧ 256 ≤ i ∧ i < 281 then ⟨true, 512 + (i - 256)⟩
    else bootTable t i
  ram _ _ := 0

/-- The process is alone. -/
def procState (clear : ℕ → Bool) (marked : ℕ → Bool) : ProcState where
  mem := procMachine clear marked
  sched :=
    { tasks := fun _ => ⟨1, .running, 31, 31, 0, true, none, 0⟩
      threadAllList := [0xc0100]
      threadReadyList := []
      cur := 0xc0100
      mainThread := 0
      idleThread := 0
      pidBitmap := ⟨128, fun k => decide (k = 0)⟩
      semas := fun _ => ⟨1, []⟩
      ticks := 0 }
  bits _ := 0xc0101

/-- A process with one page, for its stack. -/
def stackProc : ProcState :=
  { procState (26 ≤ ·) (· < 25) with
    mem.tasks := fun _ => ⟨some 0xc0118, ⟨⟨1, (· = 7)⟩, 0xbfff8⟩⟩ }

theorem sysFork_stackProc : ∃ pid x, stackProc.sysFork false = .ok (some pid, x) ∧
    ∃ child, Userprog.sysFork stackProc.sched child = .ok (pid, x.sched) := by
  obtain ⟨⟨r, x⟩, h, hr⟩ := exists_of_holds (o := stackProc.sysFork false)
    (f := (·.1.isSome)) (by decide +kernel)
  obtain ⟨pid, rfl⟩ := Option.isSome_iff_exists.1 hr
  exact ⟨pid, x, h, sysFork_sched rfl rfl h⟩

/-- Frames, but no virtual pages: both calls fail and leave no trace. -/
theorem givesBack_of_noKernelPage :
    (∃ s', mallocPage true (procMachine (fun _ => true) fun _ => true) .kernel 1 =
        .ok (none, s') ∧ Unchanged (procMachine (fun _ => true) fun _ => true) s') ∧
      ∃ x', (procState (fun _ => true) fun _ => true).sysFork true = .ok (none, x') ∧
        ForkUnchanged (procState (fun _ => true) fun _ => true) x' := by
  obtain ⟨⟨r, s'⟩, hm, hr⟩ := exists_of_holds
    (o := mallocPage true (procMachine (fun _ => true) fun _ => true) .kernel 1)
    (f := fun r => r.1 = none) (by decide +kernel)
  obtain rfl : r = none := of_decide_eq_true hr
  obtain ⟨⟨r, x'⟩, hf, hr⟩ := exists_of_holds
    (o := (procState (fun _ => true) fun _ => true).sysFork true)
    (f := fun r => r.1 = none) (by decide +kernel)
  obtain rfl : r = none := of_decide_eq_true hr
  have h := givesBack_iff (procMachine (fun _ => true) fun _ => true) .kernel 1
    (procState (fun _ => true) fun _ => true)
  refine ⟨⟨s', hm, (h.1 s' hm).2 (.inr ?_)⟩, x', hf, (h.2 x' hf).2 fun _ _ => rfl⟩
  exact Set.eq_empty_of_forall_notMem fun i hi => Bool.noConfusion (hi.1 0 (by decide))

/-- With one free frame, two pages are too many: one frame and the virtual pages stay marked. A fork
gets a page for the child and none for the buffer. -/
theorem not_givesBack_oneFrame :
    (∃ s', mallocPage true (procMachine (· = 100) (· < 25)) .kernel 2 = .ok (none, s') ∧
      s'.kernelPool.poolBitmap.bit 100 = true ∧ s'.kernelVaddr.vaddrBitmap.bit 26 = true ∧
      ¬ Unchanged (procMachine (· = 100) (· < 25)) s') ∧
    ∃ x', (procState (· = 100) (· < 25)).sysFork true = .ok (none, x') ∧
      x'.mem.kernelPool.poolBitmap.bit 100 = true ∧
      ¬ ForkUnchanged (procState (· = 100) (· < 25)) x' := by
  constructor
  · obtain ⟨⟨r, s'⟩, hm, hr⟩ := exists_of_holds
      (o := mallocPage true (procMachine (· = 100) (· < 25)) .kernel 2)
      (f := fun r => decide (r.1 = none) && (r.2.kernelPool.poolBitmap.bit 100 &&
        r.2.kernelVaddr.vaddrBitmap.bit 26)) (by decide +kernel)
    obtain ⟨hr, hframe, hpage⟩ := (Bool.and_eq_true_iff.1 hr).imp_right Bool.and_eq_true_iff.1
    obtain rfl : r = none := of_decide_eq_true hr
    refine ⟨s', hm, hframe, hpage, fun hu => ?_⟩
    rw [hu.kernelPool] at hframe
    cases hframe
  · obtain ⟨⟨r, x'⟩, hf, hr⟩ := exists_of_holds
      (o := (procState (· = 100) (· < 25)).sysFork true)
      (f := fun r => decide (r.1 = none) && r.2.mem.kernelPool.poolBitmap.bit 100)
      (by decide +kernel)
    obtain ⟨hr, hframe⟩ := Bool.and_eq_true_iff.1 hr
    obtain rfl : r = none := of_decide_eq_true hr
    refine ⟨x', hf, hframe, fun hu => ?_⟩
    rw [hu.kernelPool] at hframe
    cases hframe

end Gardos.Userprog
