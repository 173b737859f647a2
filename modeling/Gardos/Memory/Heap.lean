import Gardos.Foundations.Search
import Gardos.Kernel.List

/-!
# The heap: `sys_malloc` and `sys_free` (`kernel/memory.c`)

Blocks of up to 1024 bytes come in seven sizes. A page is cut into blocks of one size; it starts
with a `struct arena` (12 bytes), and its blocks are linked in the free list of the
`struct mem_block_desc` for the size. Anything larger gets pages of its own, with a `struct arena`
in front.

The functions here work on the words of memory, with the layout of the structures:

* `struct mem_block_desc` (24 bytes): `block_size` at 0, `blocks_per_arena` at 4, `free_list` at 8;
* `struct arena` (12 bytes): `desc` at 0, `cnt` at 4, `large` at 8.

All addresses that the functions use are multiples of four. `malloc_page` is not part of this model:
a call is given the pages that `malloc_page` would return. The locks of the pools are left out.
-/

namespace Gardos.Memory

open Outcome Function

/-- Memory, and the runs of pages (address and number of pages) that `malloc_page` has handed out
and `mfree_page` has not taken back. -/
structure Heap where
  mem : Words
  runs : Finset (ℕ × ℕ)

/-- The pages that `malloc_page` returns, with whatever they contain. -/
structure Grant where
  addr : ℕ
  content : Words

/-- What the functions look up in the running thread: whether it is a kernel thread, the array of
descriptors, and the size of the pool. -/
structure Task where
  kernel : Bool
  descs : ℕ
  poolSize : ℕ

/-- `memset` with zero. -/
def memset (m : Words) (dst size : ℕ) : Words := fun x =>
  if dst ≤ x ∧ x < dst + size then 0 else m x

/-- `malloc_page`. -/
def mallocPage (x : Heap) (grant : Option Grant) (pgCnt : ℕ) : Option (ℕ × Heap) :=
  match grant with
  | none => none
  | some g => some (g.addr,
      { mem := fun w => if g.addr ≤ w ∧ w < g.addr + 4096 * pgCnt then g.content w else x.mem w
        runs := insert (g.addr, pgCnt) x.runs })

/-- `mfree_page`, which must be given a whole run. -/
def mfreePage (x : Heap) (vaddr pgCnt : ℕ) : Outcome Heap := do
  access ((vaddr, pgCnt) ∈ x.runs)
  return { x with runs := x.runs.erase (vaddr, pgCnt) }

/-! ## Descriptors and arenas -/

/-- The address of `descs[i]`. -/
def descAddr (descs i : ℕ) : ℕ := descs + 24 * i

/-- The loop of `block_desc_init`. -/
def blockDescLoop : (left : ℕ) → Words → (desc blockSize : ℕ) → Words
  | 0, m, _, _ => m
  | left + 1, m, desc, blockSize =>
    let m := update m desc blockSize
    let m := update m (desc + 4) ((4096 - 12) / blockSize)
    let m := listInit m (desc + 8)
    blockDescLoop left m (desc + 24) (blockSize * 2 % 65536)

/-- `block_desc_init`. -/
def blockDescInit (m : Words) (descArray : ℕ) : Words := blockDescLoop 7 m descArray 16

/-- `arena2block`. -/
def arena2block (m : Words) (a idx : ℕ) : ℕ := a + 12 + idx * m (m a)

/-- `block2arena`. -/
def block2arena (b : ℕ) : ℕ := b / 4096 * 4096

/-! ## `sys_malloc` -/

/-- The loop that cuts a new arena into blocks. -/
def splitArena (a : ℕ) : (left blockIdx : ℕ) → Words → Outcome Words
  | 0, _, m => pure m
  | left + 1, blockIdx, m => do
    let b := arena2block m a blockIdx
    let found ← elemFind m (m a + 8) b
    assert (found = false)
    splitArena a left (blockIdx + 1) (listAppend m (m a + 8) b)

/-- The header of an arena. -/
def setArena (m : Words) (a desc cnt large : ℕ) : Words :=
  update (update (update m a desc) (a + 4) cnt) (a + 8) large

/-- With an empty free list, `sys_malloc` first makes a new arena; `none` if there is no page. -/
def refill (x : Heap) (desc : ℕ) (grant : Option Grant) : Outcome (Option Heap) :=
  if listEmpty x.mem (desc + 8) then
    match mallocPage x grant 1 with
    | none => pure none
    | some (a, x) => do
      let m := memset x.mem a 4096
      let m := setArena m a desc (m (desc + 4)) 0
      let m ← splitArena a (m (desc + 4)) 0 m
      return some { x with mem := m }
  else pure (some x)

/-- A block is taken from the free list. -/
def takeBlock (x : Heap) (desc : ℕ) : ℕ × Heap :=
  let (b, m) := listPop x.mem (desc + 8)
  let m := memset m b (m desc)
  let a := block2arena b
  (b, { x with mem := update m (a + 4) ((m (a + 4) + 4294967295) % 4294967296) })

/-- `sys_malloc`, with 0 for `NULL`. -/
def sysMalloc (t : Task) (x : Heap) (size : ℕ) (grant : Option Grant) : Outcome (ℕ × Heap) :=
  if ¬ (0 < size ∧ size < t.poolSize) then pure (0, x)
  else if 1024 < size then
    let pageCnt := (size + 12 + 4096 - 1) / 4096
    match mallocPage x grant pageCnt with
    | none => pure (0, x)
    | some (a, x) =>
      let m := memset x.mem a (pageCnt * 4096)
      pure (a + 12, { x with mem := setArena m a 0 pageCnt 1 })
  else do
    let descIdx := skipWhile (fun i => x.mem (descAddr t.descs i) < size) 7 0
    match ← refill x (descAddr t.descs descIdx) grant with
    | none => return (0, x)
    | some x => return takeBlock x (descAddr t.descs descIdx)

/-! ## `sys_free` -/

/-- The loop that takes the blocks of an arena off the free list. -/
def mergeArena (a : ℕ) : (left blockIdx : ℕ) → Words → Outcome Words
  | 0, _, m => pure m
  | left + 1, blockIdx, m => do
    let b := arena2block m a blockIdx
    let found ← elemFind m (m a + 8) b
    assert (found = true)
    mergeArena a left (blockIdx + 1) (listRemove m b)

/-- A block goes back to its arena; with the last one the page is released. -/
def freeBlock (x : Heap) (a b : ℕ) : Outcome Heap := do
  let m := listAppend x.mem (x.mem a + 8) b
  let m := update m (a + 4) ((m (a + 4) + 1) % 4294967296)
  if m (a + 4) = m (m a + 4) then
    let m ← mergeArena a (m (m a + 4)) 0 m
    mfreePage { x with mem := m } a 1
  else
    return { x with mem := m }

/-- `sys_free`. -/
def sysFree (t : Task) (x : Heap) (ptr : ℕ) : Outcome Heap := do
  assert (ptr ≠ 0)
  assert (t.kernel = true → 0xc0100000 ≤ ptr)
  let a := block2arena ptr
  assert (x.mem (a + 8) = 0 ∨ x.mem (a + 8) = 1)
  if x.mem a = 0 ∧ x.mem (a + 8) = 1 then
    mfreePage x a (x.mem (a + 4))
  else
    freeBlock x a ptr

end Gardos.Memory
