import Gardos.Foundations.Bytes
import Gardos.Kernel.Bitmap

/-!
# Paging (`kernel/memory.c`)

Pages and page frames go by their numbers: an address is `4096 * v + offset`. A machine has the two
pools of frames, the bitmaps of virtual pages of the kernel and of each task, and physical memory.
Physical memory is seen in two ways, as page tables of 1024 entries and as bytes; that no frame is
used in both ways at once is part of what is proved about the allocators.

The directory that `cr3` points to maps its own tables through entry 1023. `pde_ptr` and `pte_ptr`
are the addresses of entries in that window, and the model reads the entries themselves:
`Machine.pde` and `Machine.pte`. A frame number is cut off from the attribute bits of an entry, of
which only the bit `P` is ever cleared.

The functions with assertions have the build as a parameter: `ndebug` if they are compiled out.
-/

namespace Gardos.Paging

open Outcome Bytes Function

/-! ## The machine -/

/-- An entry of a page table or page directory. -/
structure Entry where
  present : Bool
  frame : ℕ
  deriving DecidableEq

/-- The frame that an entry leads to. -/
def Entry.target (e : Entry) : Option ℕ := if e.present then some e.frame else none

/-- `struct pool`. -/
structure Pool where
  poolBitmap : Bitmap
  phyAddrStart : ℕ

/-- `struct virtual_addr`. -/
structure VirtualAddr where
  vaddrBitmap : Bitmap
  vaddrStart : ℕ

/-- `enum pool_flags`. -/
inductive PoolFlags
  | kernel
  | user
  deriving DecidableEq

/-- What memory management needs of `struct task_struct`. The page directory of a user process is a
page of the kernel; a kernel thread has none. -/
structure Task where
  pgdir : Option ℕ
  userprogVaddr : VirtualAddr

/-- Memory, the bookkeeping for it, and the running task. -/
structure Machine where
  kernelPool : Pool
  userPool : Pool
  kernelVaddr : VirtualAddr
  tasks : ℕ → Task
  cur : ℕ
  cr3 : ℕ
  table : ℕ → ℕ → Entry
  ram : ℕ → Buf

/-- The number of pages of an address space. -/
def pageCount : ℕ := 1048576

/-- The page directory that the kernel starts with, at 1 MB. -/
def kernelDir : ℕ := 0x100

/-- The bitmap with the bits of a run changed. -/
def VirtualAddr.mark (va : VirtualAddr) (i n : ℕ) (value : Bool) : VirtualAddr :=
  { va with vaddrBitmap := setRun va.vaddrBitmap i value n }

namespace Machine

/-- The task that runs. -/
def running (s : Machine) : Task := s.tasks s.cur

/-- `pf & PF_KERNEL ? &kernel_pool : &user_pool`. -/
def pool (s : Machine) : PoolFlags → Pool
  | .kernel => s.kernelPool
  | .user => s.userPool

def setPool (s : Machine) (p : Pool) : PoolFlags → Machine
  | .kernel => { s with kernelPool := p }
  | .user => { s with userPool := p }

def setUserVaddr (s : Machine) (va : VirtualAddr) : Machine :=
  { s with tasks := update s.tasks s.cur { s.running with userprogVaddr := va } }

/-- The bitmap of virtual pages that a request consults. -/
def vaddr (s : Machine) : PoolFlags → VirtualAddr
  | .kernel => s.kernelVaddr
  | .user => s.running.userprogVaddr

def setVaddr (s : Machine) (va : VirtualAddr) : PoolFlags → Machine
  | .kernel => { s with kernelVaddr := va }
  | .user => s.setUserVaddr va

/-- Entry `i` of the table in frame `t`. -/
def setEntry (s : Machine) (t i : ℕ) (e : Entry) : Machine :=
  { s with table := update s.table t (update (s.table t) i e) }

/-- The entry `*pde_ptr(vaddr)`. -/
def pde (s : Machine) (v : ℕ) : Entry := s.table s.cr3 (v / 1024)

/-- The entry `*pte_ptr(vaddr)`, for a page whose directory entry is present. -/
def pte (s : Machine) (v : ℕ) : Entry := s.table (s.pde v).frame (v % 1024)

/-- The frame of page `v` in the address space with directory `d`. -/
def walk (s : Machine) (d v : ℕ) : Option ℕ :=
  (s.table d (v / 1024)).target.bind fun t => (s.table t (v % 1024)).target

end Machine

open Machine

/-! ## Allocating -/

/-- `vaddr_get`. The last page below 3 GB is the stack of a process. -/
def vaddrGet (ndebug : Bool) (s : Machine) (pf : PoolFlags) (pgCnt : ℕ) :
    Outcome (Option ℕ × Machine) := do
  let va := s.vaddr pf
  match ← bitmapScan ndebug va.vaddrBitmap pgCnt with
  | none => return (none, s)
  | some i =>
    let v := (va.vaddrStart + i) % pageCount
    assert (ndebug = true ∨ pf = .kernel ∨ v < 0xbffff)
    return (some v, s.setVaddr (va.mark i pgCnt true) pf)

/-- `palloc`. -/
def palloc (ndebug : Bool) (p : Pool) : Outcome (Option ℕ × Pool) := do
  match ← bitmapScan ndebug p.poolBitmap 1 with
  | none => return (none, p)
  | some i => return (some (i + p.phyAddrStart), { p with poolBitmap := p.poolBitmap.set i true })

/-- `page_table_add`. Behind the first assertion there is a `PANIC` with the same condition. What
`palloc` returns for a new page table is not checked; `NULL` would put the table into frame 0. -/
def pageTableAdd (ndebug : Bool) (s : Machine) (v frame : ℕ) : Outcome Machine := do
  if (s.pde v).present then
    assert ((s.pte v).present = false)
    return s.setEntry (s.pde v).frame (v % 1024) ⟨true, frame⟩
  else
    let (t, p) ← palloc ndebug s.kernelPool
    let t := t.getD 0
    let s := { s with kernelPool := p }.setEntry s.cr3 (v / 1024) ⟨true, t⟩
    let s := { s with table := update s.table t fun _ => ⟨false, 0⟩ }
    assert (ndebug = true ∨ (s.pte v).present = false)
    return s.setEntry t (v % 1024) ⟨true, frame⟩

/-- The loop of `malloc_page`: map `cnt` pages from `v` on. It gives up when there is no frame. -/
def mapPages (ndebug : Bool) (pf : PoolFlags) : (cnt v : ℕ) → Machine → Outcome (Bool × Machine)
  | 0, _, s => return (true, s)
  | cnt + 1, v, s => do
    let (frame, p) ← palloc ndebug (s.pool pf)
    match frame with
    | none => return (false, s.setPool p pf)
    | some frame =>
      let s ← pageTableAdd ndebug (s.setPool p pf) v frame
      mapPages ndebug pf cnt ((v + 1) % pageCount) s

/-- `malloc_page`. -/
def mallocPage (ndebug : Bool) (s : Machine) (pf : PoolFlags) (pgCnt : ℕ) :
    Outcome (Option ℕ × Machine) := do
  assert (ndebug = true ∨ 0 < pgCnt ∧ pgCnt < 3840)
  match ← vaddrGet ndebug s pf pgCnt with
  | (none, s) => return (none, s)
  | (some v, s) =>
    let (done, s) ← mapPages ndebug pf pgCnt v s
    return (if done then some v else none, s)

/-- `get_a_page_without_opvaddrbitmap`. -/
def getAPageWithoutOpvaddrbitmap (ndebug : Bool) (s : Machine) (pf : PoolFlags) (v : ℕ) :
    Outcome (Option ℕ × Machine) := do
  let (frame, p) ← palloc ndebug (s.pool pf)
  match frame with
  | none => return (none, s.setPool p pf)
  | some frame =>
    let s ← pageTableAdd ndebug (s.setPool p pf) v frame
    return (some v, s)

/-! ## Freeing -/

/-- `addr_v2p`: the frame in the entry of page `v`, present or not. -/
def addrV2p (s : Machine) (v : ℕ) : Outcome ℕ := do
  access ((s.pde v).present = true)
  return (s.pte v).frame

/-- `pfree`, and `free_a_phy_page`: the pool is told by the address. -/
def pfree (s : Machine) (frame : ℕ) : Machine :=
  if s.userPool.phyAddrStart ≤ frame then
    let i := frame - s.userPool.phyAddrStart
    s.setPool { s.userPool with poolBitmap := s.userPool.poolBitmap.set i false } .user
  else
    let i := (frame + (pageCount - s.kernelPool.phyAddrStart)) % pageCount
    s.setPool { s.kernelPool with poolBitmap := s.kernelPool.poolBitmap.set i false } .kernel

/-- `page_table_pte_remove`, as far as the page table goes. -/
def pageTablePteRemove (s : Machine) (v : ℕ) : Outcome Machine := do
  access ((s.pde v).present = true)
  return s.setEntry (s.pde v).frame (v % 1024) { s.pte v with present := false }

/-- The number of the bit for page `v`, a difference of 32-bit addresses. -/
def VirtualAddr.bitIdx (va : VirtualAddr) (v : ℕ) : ℕ :=
  (v + (pageCount - va.vaddrStart)) % pageCount

/-- `vaddr_remove`. -/
def vaddrRemove (s : Machine) (pf : PoolFlags) (v pgCnt : ℕ) : Machine :=
  match pf with
  | .kernel =>
    let va := s.kernelVaddr
    { s with kernelVaddr :=
      { va with vaddrBitmap := setRun va.vaddrBitmap (va.bitIdx v) false pgCnt } }
  | .user =>
    let va := s.running.userprogVaddr
    s.setUserVaddr { va with vaddrBitmap := setRun va.vaddrBitmap (va.bitIdx v) false pgCnt }

/-- The assertion of `mfree_page` on each frame: the run belongs to one pool. -/
def inPool (s : Machine) (pf : PoolFlags) (frame : ℕ) : Prop :=
  match pf with
  | .user => s.userPool.phyAddrStart ≤ frame
  | .kernel => s.kernelPool.phyAddrStart ≤ frame ∧ frame < s.userPool.phyAddrStart

instance (s : Machine) (pf : PoolFlags) (frame : ℕ) : Decidable (inPool s pf frame) := by
  unfold inPool
  cases pf <;> infer_instance

/-- The loops of `mfree_page`, for a run whose first frame is in the pool `pool`. -/
def freePages (ndebug : Bool) (pool : PoolFlags) : (cnt v : ℕ) → Machine → Outcome Machine
  | 0, _, s => return s
  | cnt + 1, v, s => do
    let frame ← addrV2p s v
    assert (ndebug = true ∨ inPool s pool frame)
    let s ← pageTablePteRemove (pfree s frame) v
    freePages ndebug pool cnt ((v + 1) % pageCount) s

/-- `mfree_page`. The pool of frames is told by the first frame, the bitmap of virtual pages by
`pf`. -/
def mfreePage (ndebug : Bool) (s : Machine) (pf : PoolFlags) (v pgCnt : ℕ) :
    Outcome Machine := do
  assert (ndebug = true ∨ 1 ≤ pgCnt)
  let frame ← addrV2p s v
  assert (ndebug = true ∨ 0x102 ≤ frame)
  let pool := if s.userPool.phyAddrStart ≤ frame then .user else .kernel
  let s ← freePages ndebug pool pgCnt v s
  return vaddrRemove s pf v pgCnt

/-- `page_dir_activate` (`userprog/process.c`): the page directory of task `t`. -/
def pageDirActivate (s : Machine) (t : ℕ) : Outcome Machine :=
  match (s.tasks t).pgdir with
  | none => return { s with cr3 := kernelDir }
  | some p => do
    let d ← addrV2p s p
    return { s with cr3 := d }

end Gardos.Paging
