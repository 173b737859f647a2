import Gardos.Kernel.BitmapScan
import Gardos.Memory.HeapRuns
import Gardos.Memory.FrameRuns

/-!
# Which sizes `sys_malloc` answers

`sys_malloc` compares the size with the size of the pool. Whatever passes goes to `malloc_page`,
which has limits of its own: less than 3840 pages, a bitmap of virtual pages that is not full, and a
frame for each page and each missing page table. All of them are assertions.

* `answers_iff`: `sys_malloc` returns iff the request needs no new pages or these limits are kept.
* `asserts_large`: with 64 MB, a size below the size of the pool fails the assertion on the pages.
-/

namespace Gardos.Paging

open Outcome Machine

/-! ## `mem_pool_init` -/

/-- The globals that `mem_pool_init` sets. -/
structure PoolSetup where
  kernelPool : Pool
  userPool : Pool
  kernelPoolSize : ℕ
  userPoolSize : ℕ
  kernelVaddr : VirtualAddr

/-- A bitmap after `bitmap_init`. -/
def bitmapInit (btmpBytesLen : ℕ) : Bitmap := ⟨btmpBytesLen, fun _ => false⟩

/-- `mem_pool_init`. The numbers of pages are 16-bit numbers, and the bitmaps are rounded down to
whole bytes. -/
def memPoolInit (allMem : ℕ) : PoolSetup :=
  let pageTableSize := 4096 * 256
  let usedMem := pageTableSize + 0x100000
  let freeMem := (allMem + (4294967296 - usedMem)) % 4294967296
  let allFreePages := freeMem / 4096 % 65536
  let kernelFreePages := allFreePages / 2
  let userFreePages := allFreePages - kernelFreePages
  let kbmLength := kernelFreePages / 8
  let ubmLength := userFreePages / 8
  let kpStart := usedMem
  let upStart := kpStart + kernelFreePages * 4096
  { kernelPool := ⟨bitmapInit kbmLength, kpStart / 4096⟩
    userPool := ⟨bitmapInit ubmLength, upStart / 4096⟩
    kernelPoolSize := kernelFreePages * 4096
    userPoolSize := userFreePages * 4096
    kernelVaddr := ⟨bitmapInit kbmLength, 0xc0100⟩ }

/-- The number of frames above 2 MB that `mem_pool_init` works with. -/
def countedFrames (allMem : ℕ) : ℕ := (allMem / 4096 - 512) % 65536

/-- The setup in numbers of frames. -/
theorem memPoolInit_eq {allMem : ℕ} (hlo : 0x200000 ≤ allMem) (hhi : allMem < 0x100000000) :
    memPoolInit allMem =
      { kernelPool := ⟨bitmapInit (countedFrames allMem / 2 / 8), 512⟩
        userPool := ⟨bitmapInit ((countedFrames allMem - countedFrames allMem / 2) / 8),
          512 + countedFrames allMem / 2⟩
        kernelPoolSize := countedFrames allMem / 2 * 4096
        userPoolSize := (countedFrames allMem - countedFrames allMem / 2) * 4096
        kernelVaddr := ⟨bitmapInit (countedFrames allMem / 2 / 8), 0xc0100⟩ } := by
  have hcount : (allMem + (4294967296 - (4096 * 256 + 0x100000))) % 4294967296 / 4096 % 65536 =
      countedFrames allMem := by
    unfold countedFrames
    omega
  unfold memPoolInit
  dsimp only
  rw [hcount]
  generalize countedFrames allMem = p
  rw [show (4096 * 256 + 0x100000 + p / 2 * 4096) / 4096 = 512 + p / 2 by omega]

/-- From 4 MB to 256 MB. -/
def MemoryRange (allMem : ℕ) : Prop := 0x400000 ≤ allMem ∧ allMem ≤ 0x10000000

theorem MemoryRange.memPoolInit_eq {allMem : ℕ} (h : MemoryRange allMem) :
    ∃ p ≤ 65024, memPoolInit allMem =
      { kernelPool := ⟨bitmapInit (p / 2 / 8), 512⟩
        userPool := ⟨bitmapInit ((p - p / 2) / 8), 512 + p / 2⟩
        kernelPoolSize := p / 2 * 4096
        userPoolSize := (p - p / 2) * 4096
        kernelVaddr := ⟨bitmapInit (p / 2 / 8), 0xc0100⟩ } := by
  obtain ⟨hlo, hhi⟩ := h
  refine ⟨countedFrames allMem, ?_, Paging.memPoolInit_eq (by omega) (by omega)⟩
  unfold countedFrames
  omega

theorem MemoryRange.kernelVaddr_le {allMem : ℕ} (h : MemoryRange allMem) :
    (memPoolInit allMem).kernelVaddr.vaddrBitmap.bitLen ≤ 32512 := by
  obtain ⟨p, hp, heq⟩ := h.memPoolInit_eq
  rw [heq]
  change 8 * (p / 2 / 8) ≤ 32512
  omega

/-! ## The call -/

/-- The pool that `sys_malloc` uses. -/
def poolFlags (t : Memory.Task) : PoolFlags := if t.kernel then .kernel else .user

/-- The number of pages that `sys_malloc` asks `malloc_page` for, if it does. -/
def pagesWanted (t : Memory.Task) (x : Memory.Heap) (size : ℕ) : Option ℕ :=
  if ¬ (0 < size ∧ size < t.poolSize) then none
  else if 1024 < size then some ((size + 12 + 4096 - 1) / 4096)
  else
    let descIdx := skipWhile (fun i => x.mem (Memory.descAddr t.descs i) < size) 7 0
    if listEmpty x.mem (Memory.descAddr t.descs descIdx + 8) then some 1 else none

/-- `sys_malloc`, with the pages from `malloc_page`. A new page has whatever content its frame
has. -/
def sysMalloc (s : Machine) (t : Memory.Task) (x : Memory.Heap) (size : ℕ) (content : Words) :
    Outcome (ℕ × Machine × Memory.Heap) :=
  match pagesWanted t x size with
  | none => do
    let (p, x) ← Memory.sysMalloc t x size none
    return (p, s, x)
  | some pgCnt => do
    let (v, s) ← mallocPage false s (poolFlags t) pgCnt
    let (p, x) ← Memory.sysMalloc t x size (v.map fun v => ⟨4096 * v, content⟩)
    return (p, s, x)

/-! ## The states -/

/-- The search for free pages does not return page `v`. -/
def VirtualAddr.Taken (va : VirtualAddr) (v : ℕ) : Prop :=
  va.vaddrStart ≤ v → v ≤ va.vaddrStart + va.vaddrBitmap.bitLen →
    va.vaddrBitmap.bit (v - va.vaddrStart) = true

/-- A state of memory after `mem_pool_init`, and the heap of the running thread. Any of the frames
and of the virtual pages may be in use. -/
structure Serving (allMem : ℕ) (dir : ℕ → Option ℕ) (s : Machine) (t : Memory.Task)
    (x : Memory.Heap) : Prop where
  memory : MemoryRange allMem
  frames : FramesOk dir s
  kernelPool : s.kernelPool.phyAddrStart = (memPoolInit allMem).kernelPool.phyAddrStart ∧
    s.kernelPool.poolBitmap.bitLen = (memPoolInit allMem).kernelPool.poolBitmap.bitLen
  userPool : s.userPool.phyAddrStart = (memPoolInit allMem).userPool.phyAddrStart ∧
    s.userPool.poolBitmap.bitLen = (memPoolInit allMem).userPool.poolBitmap.bitLen
  kernelVaddr : s.kernelVaddr.vaddrStart = (memPoolInit allMem).kernelVaddr.vaddrStart ∧
    s.kernelVaddr.vaddrBitmap.bitLen = (memPoolInit allMem).kernelVaddr.vaddrBitmap.bitLen
  /-- The bitmap of a process ends at 3 GB, and its last page is the stack. -/
  userVaddr : t.kernel = false → s.running.userprogVaddr.vaddrStart = 0x8048 ∧
    s.running.userprogVaddr.vaddrBitmap.bitLen = 753592 ∧
    s.running.userprogVaddr.Taken 0xbffff
  kernel : t.kernel = s.running.pgdir.isNone
  poolSize : t.poolSize =
    if t.kernel then (memPoolInit allMem).kernelPoolSize else (memPoolInit allMem).userPoolSize
  /-- The descriptors of a kernel thread are data of the kernel, those of a process are in its
  PCB. -/
  descs : if t.kernel then t.descs + 168 ≤ 0xc0100000 else 0xc0000000 ≤ t.descs
  heap : ∃ foreign g held, Memory.HeapOk t.descs foreign g x held
  mapped : ∀ v f, own dir s (here s v) = some f → (s.vaddr (poolFlags t)).Taken v
  runs : ∀ r ∈ x.runs, ∀ v, r.1 ≤ 4096 * v → 4096 * v < r.1 + 4096 * r.2 →
    (s.vaddr (poolFlags t)).Taken v

/-- `malloc_page` can serve `n` pages: the limit on their number, the virtual pages, and the frames
for the first run of virtual pages, with a frame for each page table that is missing there. -/
def Serves (dir : ℕ → Option ℕ) (s : Machine) (pf : PoolFlags) (n : ℕ) : Prop :=
  n < 3840 ∧
  (∃ i < (s.vaddr pf).vaddrBitmap.bitLen, (s.vaddr pf).vaddrBitmap.bit i = false) ∧
  ∀ i, IsLeast ((s.vaddr pf).vaddrBitmap.reach n) i →
    Room s pf n (missingTables dir s
      (Finset.Ico ((s.vaddr pf).vaddrStart + i) ((s.vaddr pf).vaddrStart + i + n))).card

variable {allMem n i : ℕ} {dir : ℕ → Option ℕ} {s s' : Machine} {t : Memory.Task}
  {x : Memory.Heap} {pf : PoolFlags}

/-! ## The virtual pages of a run -/

/-- A run that the search can return: all its pages can be mapped, and none is. -/
structure FreeRun (dir : ℕ → Option ℕ) (s : Machine) (t : Memory.Task) (x : Memory.Heap)
    (v n : ℕ) : Prop where
  lt : v < pageCount
  stack : poolFlags t = .user → v < 0xbffff
  managed : ManagedRun dir s v n
  unmapped : ∀ k < n, own dir s (here s (v + k)) = none
  fresh : Memory.Fresh t.descs x.runs (4096 * v) n

theorem VirtualAddr.not_taken (va : VirtualAddr) {i n k : ℕ} (hi : i ∈ va.vaddrBitmap.reach n)
    (hk : k < n) : ¬ va.Taken (va.vaddrStart + i + k) := by
  intro htaken
  have hend := hi.2.2
  have hset := htaken (by omega) (by omega)
  rw [show va.vaddrStart + i + k - va.vaddrStart = i + k by omega, hi.1 k hk] at hset
  exact Bool.noConfusion hset

/-- The bounds of a run: above the first megabyte of the kernel and below the page tables, or below
the stack of the process. -/
theorem Serving.run_bounds (h : Serving allMem dir s t x)
    (hi : i ∈ (s.vaddr (poolFlags t)).vaddrBitmap.reach n) :
    (t.kernel = true → 0xc0100 ≤ (s.vaddr (poolFlags t)).vaddrStart + i ∧
      (s.vaddr (poolFlags t)).vaddrStart + i + n ≤ 0xffc00) ∧
    (t.kernel = false → 0 < (s.vaddr (poolFlags t)).vaddrStart ∧
      (s.vaddr (poolFlags t)).vaddrStart + i + n ≤ 0xbffff) := by
  have hend := hi.2
  constructor
  · intro hk
    have hpf : poolFlags t = .kernel := if_pos hk
    rw [hpf] at hend ⊢
    have hle := h.memory.kernelVaddr_le
    have hstart : s.kernelVaddr.vaddrStart = 0xc0100 := h.kernelVaddr.1
    rw [← h.kernelVaddr.2] at hle
    change i < s.kernelVaddr.vaddrBitmap.bitLen ∧
      i + n ≤ s.kernelVaddr.vaddrBitmap.bitLen + 1 at hend
    change 0xc0100 ≤ s.kernelVaddr.vaddrStart + i ∧ s.kernelVaddr.vaddrStart + i + n ≤ 0xffc00
    omega
  · intro hk
    have hpf : poolFlags t = .user := if_neg (by rw [hk]; decide)
    rw [hpf] at hi hend ⊢
    obtain ⟨hstart, hlen, hstack⟩ := h.userVaddr hk
    change i < s.running.userprogVaddr.vaddrBitmap.bitLen ∧ _ at hend
    change 0 < s.running.userprogVaddr.vaddrStart ∧
      s.running.userprogVaddr.vaddrStart + i + n ≤ 0xbffff
    refine ⟨by omega, ?_⟩
    -- a longer run would contain the page of the stack
    by_contra hout
    refine VirtualAddr.not_taken s.running.userprogVaddr (k := 753591 - i) hi (by omega) ?_
    rw [hstart, show 0x8048 + i + (753591 - i) = 0xbffff by omega]
    exact hstack

theorem Serving.isSome_dir (h : Serving allMem dir s t x) (hk : t.kernel = false) :
    (dir s.cur).isSome = true := by
  refine h.frames.dir_isSome s.cur ?_
  have := h.kernel
  rw [hk] at this
  cases hpg : s.running.pgdir with
  | none => simp [hpg] at this
  | some p => exact (congrArg Option.isSome hpg).trans rfl

theorem Serving.fresh (h : Serving allMem dir s t x) {v : ℕ} (hn : 0 < n)
    (hker : t.kernel = true → 0xc0100 ≤ v ∧ v + n ≤ 0xffc00)
    (husr : t.kernel = false → 0 < v ∧ v + n ≤ 0xbffff)
    (hfree : ∀ k < n, ¬ (s.vaddr (poolFlags t)).Taken (v + k)) :
    Memory.Fresh t.descs x.runs (4096 * v) n := by
  obtain ⟨foreign, g, held, hok⟩ := h.heap
  have hdescs := h.descs
  have hbounds : 0 < v ∧ v + n ≤ 0xffc00 := by
    cases hk : t.kernel with
    | true => exact ⟨by have := hker hk; omega, (hker hk).2⟩
    | false => exact ⟨(husr hk).1, by have := husr hk; omega⟩
  refine ⟨by omega, by omega, hn, by omega, fun r hr => ?_, ?_⟩
  · obtain ⟨hpage, -, hcnt, -⟩ := hok.shaped.run r hr
    by_contra hout
    -- the first page of the later of the two runs is in both
    refine hfree (max v (r.1 / 4096) - v) (by omega) (h.runs r hr _ ?_ ?_)
    · omega
    · omega
  · cases hk : t.kernel with
    | true =>
      rw [if_pos hk] at hdescs
      have := hker hk
      omega
    | false =>
      rw [if_neg (by rw [hk]; decide)] at hdescs
      have := husr hk
      omega

theorem Serving.freeRun (h : Serving allMem dir s t x)
    (hi : i ∈ (s.vaddr (poolFlags t)).vaddrBitmap.reach n) (hn : 0 < n) :
    FreeRun dir s t x ((s.vaddr (poolFlags t)).vaddrStart + i) n := by
  obtain ⟨hker, husr⟩ := h.run_bounds hi
  have hfree := fun k (hk : k < n) => VirtualAddr.not_taken (s.vaddr (poolFlags t)) hi hk
  replace husr : t.kernel = false → 0 < (s.vaddr (poolFlags t)).vaddrStart + i ∧
      (s.vaddr (poolFlags t)).vaddrStart + i + n ≤ 0xbffff := fun hk => by
    have := husr hk
    omega
  generalize (s.vaddr (poolFlags t)).vaddrStart + i = v at hker husr hfree
  refine ⟨?_, fun hpf => ?_, fun k hk => ?_, fun k hk => ?_, h.fresh hn hker husr hfree⟩
  · unfold pageCount
    cases hk : t.kernel with
    | true => have := hker hk; omega
    | false => have := husr hk; omega
  · cases hk : t.kernel with
    | true =>
      rw [poolFlags, if_pos hk] at hpf
      cases hpf
    | false => have := husr hk; omega
  · cases hkern : t.kernel with
    | true =>
      have := hker hkern
      exact .inr ⟨by omega, by omega⟩
    | false =>
      have := husr hkern
      exact .inl ⟨by unfold userPages; omega, h.isSome_dir hkern⟩
  · cases hown : own dir s (here s (v + k)) with
    | none => rfl
    | some f => exact absurd (h.mapped _ f hown) (hfree k hk)

/-! ## `malloc_page` -/

theorem vaddrGet_of_full
    (hfull : ¬ ∃ i < (s.vaddr pf).vaddrBitmap.bitLen, (s.vaddr pf).vaddrBitmap.bit i = false) :
    vaddrGet false s pf n = .error .assert := by
  have hscan : bitmapScan false (s.vaddr pf).vaddrBitmap n = .error .assert := by
    refine bitmapScan_of_full fun i hi => ?_
    cases hbit : (s.vaddr pf).vaddrBitmap.bit i with
    | true => rfl
    | false => exact absurd ⟨i, hi, hbit⟩ hfull
  rw [vaddrGet, hscan]
  rfl

theorem vaddrGet_of_none (hscan : bitmapScan false (s.vaddr pf).vaddrBitmap n = .ok none) :
    vaddrGet false s pf n = .ok (none, s) :=
  bind_eq_ok.2 ⟨_, hscan, rfl⟩

theorem vaddrGet_of_some (hscan : bitmapScan false (s.vaddr pf).vaddrBitmap n = .ok (some i))
    (hlt : (s.vaddr pf).vaddrStart + i < pageCount)
    (hstack : pf = .user → (s.vaddr pf).vaddrStart + i < 0xbffff) :
    vaddrGet false s pf n = .ok (some ((s.vaddr pf).vaddrStart + i),
      s.setVaddr ((s.vaddr pf).mark i n true) pf) := by
  refine bind_eq_ok.2 ⟨_, hscan, ?_⟩
  dsimp only
  rw [Nat.mod_eq_of_lt hlt]
  refine bind_eq_ok.2 ⟨(), assert_eq_ok.2 (.inr ?_), rfl⟩
  cases pf with
  | kernel => exact .inl rfl
  | user => exact .inr (hstack rfl)

/-- The bitmap of virtual pages says nothing about frames. -/
theorem room_setVaddr (va : VirtualAddr) {a b : ℕ} :
    Room (s.setVaddr va pf) pf a b ↔ Room s pf a b := by
  cases pf <;> rfl

theorem missingTables_setVaddr (va : VirtualAddr) (vs : Finset ℕ) :
    missingTables dir (s.setVaddr va pf) vs = missingTables dir s vs := by
  have hcur : (s.setVaddr va pf).cur = s.cur := (setVaddr_shape s va pf).cur
  unfold missingTables
  rw [hcur, own_congr (setVaddr_table s va pf)]

theorem Serving.exists_mallocPage (h : Serving allMem dir s t x) (hn : 0 < n)
    (hs : Serves dir s (poolFlags t) n) : ∃ v s', mallocPage false s (poolFlags t) n = .ok (v, s') ∧
      ∀ a, v = some a → Memory.Fresh t.descs x.runs (4096 * a) n := by
  obtain ⟨hlimit, hclear, hroom⟩ := hs
  obtain ⟨res, hscan, hleast⟩ := Bitmap.exists_bitmapScan_isLeast (d := false) hn hclear
  cases res with
  | none =>
    refine ⟨none, s, ?_, fun a ha => by cases ha⟩
    exact bind_eq_ok.2 ⟨(), assert_eq_ok.2 (.inr ⟨hn, hlimit⟩),
      bind_eq_ok.2 ⟨_, vaddrGet_of_none hscan, rfl⟩⟩
  | some i =>
    have hi := (hleast i).1 rfl
    have hfree := h.freeRun hi.1 hn
    have hget := vaddrGet_of_some hscan hfree.lt hfree.stack
    obtain ⟨s', hmap⟩ := FramesOk.exists_mapPages (h.frames.setVaddr
      ((s.vaddr (poolFlags t)).mark i n true) (poolFlags t))
      (v := (s.vaddr (poolFlags t)).vaddrStart + i) (n := n)
      (fun k hk => ((setVaddr_shape s _ _).managed).2 (hfree.managed k hk))
      (fun k hk => by
        rw [own_congr (setVaddr_table s _ _), here_congr (setVaddr_shape s _ _).cur]
        exact hfree.unmapped k hk)
      (by
        rw [room_setVaddr, missingTables_setVaddr]
        exact hroom i hi)
    refine ⟨_, s', ?_, fun a ha => Option.some.inj ha ▸ hfree.fresh⟩
    exact bind_eq_ok.2 ⟨(), assert_eq_ok.2 (.inr ⟨hn, hlimit⟩), bind_eq_ok.2 ⟨_, hget,
      bind_eq_ok.2 ⟨_, hmap, rfl⟩⟩⟩

theorem Serving.serves (h : Serving allMem dir s t x) {r : Option ℕ × Machine}
    (hok : mallocPage false s (poolFlags t) n = .ok r) : Serves dir s (poolFlags t) n := by
  obtain ⟨_, hlimit, hok⟩ := bind_eq_ok.1 hok
  obtain ⟨hn, hlimit⟩ := (assert_eq_ok.1 hlimit).resolve_left Bool.false_ne_true
  obtain ⟨⟨v, s₁⟩, hget, hok⟩ := bind_eq_ok.1 hok
  have hclear : ∃ i < (s.vaddr (poolFlags t)).vaddrBitmap.bitLen,
      (s.vaddr (poolFlags t)).vaddrBitmap.bit i = false := by
    by_contra hfull
    rw [vaddrGet_of_full hfull] at hget
    cases hget
  refine ⟨hlimit, hclear, fun i hi => ?_⟩
  obtain ⟨res, hscan, hleast⟩ := Bitmap.exists_bitmapScan_isLeast (d := false) hn hclear
  rw [(hleast i).2 hi] at hscan
  have hfree := h.freeRun hi.1 hn
  rw [vaddrGet_of_some hscan hfree.lt hfree.stack] at hget
  obtain ⟨rfl, rfl⟩ := ok_pair hget
  obtain ⟨⟨done, s₂⟩, hmap, -⟩ := bind_eq_ok.1 hok
  have hroom := (h.frames.setVaddr _ _).room_of_mapPages
    (fun k hk => ((setVaddr_shape s _ _).managed).2 (hfree.managed k hk)) hmap
  rwa [room_setVaddr, missingTables_setVaddr] at hroom

/-! ## The machine after boot -/

/-- The page tables that the loader makes. The first megabyte is mapped at 0 and at 3 GB, by one
table, and the kernel has 254 more tables; the last entry is the directory itself. -/
def bootTable (t i : ℕ) : Entry :=
  if t = kernelDir then
    if i = 0 then ⟨true, 0x101⟩
    else if 768 ≤ i ∧ i < 1023 then ⟨true, 0x101 + (i - 768)⟩
    else if i = 1023 then ⟨true, kernelDir⟩
    else ⟨false, 0⟩
  else if t = 0x101 ∧ i < 256 then ⟨true, i⟩
  else ⟨false, 0⟩

/-- The machine after `mem_pool_init`, in the main thread of the kernel. -/
def bootMachine (allMem : ℕ) : Machine where
  kernelPool := (memPoolInit allMem).kernelPool
  userPool := (memPoolInit allMem).userPool
  kernelVaddr := (memPoolInit allMem).kernelVaddr
  tasks _ := ⟨none, ⟨bitmapInit 0, 0⟩⟩
  cur := 0
  cr3 := kernelDir
  table := bootTable
  ram _ _ := 0

theorem bootTable_dir {i : ℕ} (hlo : 768 ≤ i) (hhi : i < 1023) :
    bootTable kernelDir i = ⟨true, 0x101 + (i - 768)⟩ := by
  rw [bootTable, if_pos rfl, if_neg (by omega), if_pos ⟨hlo, hhi⟩]

theorem bootMachine_table : (bootMachine allMem).table = bootTable := rfl

/-- No page that the kernel can allocate is mapped. -/
theorem own_bootMachine (o : Owner) : own (fun _ => none) (bootMachine allMem) o = none := by
  cases o with
  | table t i => exact ite_self none
  | page t v => exact ite_self none
  | kernel v =>
    rw [own]
    split
    case isFalse => rfl
    case isTrue hv =>
      obtain ⟨hlo, hhi⟩ := hv
      rw [walk, bootMachine_table, bootTable_dir (by omega) (by omega), target_mk_true,
        Option.bind_some, bootTable, if_neg (by unfold kernelDir; omega), if_neg (by omega),
        target_mk_false]

theorem framesOk_bootMachine (h : MemoryRange allMem) :
    FramesOk (fun _ => none) (bootMachine allMem) where
  layout := by
    obtain ⟨p, hp, heq⟩ := h.memPoolInit_eq
    have hkernel : (bootMachine allMem).kernelPool = ⟨bitmapInit (p / 2 / 8), 512⟩ :=
      congrArg PoolSetup.kernelPool heq
    have huser : (bootMachine allMem).userPool = ⟨bitmapInit ((p - p / 2) / 8), 512 + p / 2⟩ :=
      congrArg PoolSetup.userPool heq
    refine ⟨?_, ?_, ?_, fun i hlo hhi => ?_, fun i hlo hhi => ?_, fun i hlo hhi => ?_,
      fun i j hi hi' hj hj' heq => ?_, fun t d hd => by cases hd⟩
    · rw [hkernel, huser]
      change 512 + 8 * (p / 2 / 8) ≤ 512 + p / 2
      omega
    · rw [huser]
      change 512 + p / 2 + 8 * ((p - p / 2) / 8) ≤ pageCount
      unfold pageCount
      omega
    · rw [hkernel]
      change 0x100 + 2 ≤ 512
      decide
    · change (bootTable kernelDir i).present = true
      rw [bootTable_dir hlo hhi]
    · rw [hkernel]
      change (bootTable kernelDir i).frame < 512
      rw [bootTable_dir hlo hhi]
      change 0x101 + (i - 768) < 512
      omega
    · change (bootTable kernelDir i).frame ≠ 0x100
      rw [bootTable_dir hlo hhi]
      change 0x101 + (i - 768) ≠ _
      omega
    · change (bootTable kernelDir i).frame = (bootTable kernelDir j).frame at heq
      rw [bootTable_dir hi hi', bootTable_dir hj hj'] at heq
      change 0x101 + (i - 768) = 0x101 + (j - 768) at heq
      omega
  exclusive a b f ha := by
    rw [own_bootMachine] at ha
    cases ha
  backed o f ho := by
    rw [own_bootMachine] at ho
    cases ho
  dirs t d hd := by cases hd
  dir_inj a b f ha := by cases ha
  dir_isSome t ht := by cases ht
  cr3 := rfl

/-- The main thread, with the descriptors of the kernel and an empty heap. -/
def mainTask (allMem : ℕ) : Memory.Task := ⟨true, 0xc0009000, (memPoolInit allMem).kernelPoolSize⟩

theorem serving_bootMachine (h : MemoryRange allMem) :
    Serving allMem (fun _ => none) (bootMachine allMem) (mainTask allMem)
      ⟨Memory.blockDescInit (fun _ => 0) 0xc0009000, ∅⟩ where
  memory := h
  frames := framesOk_bootMachine h
  kernelPool := ⟨rfl, rfl⟩
  userPool := ⟨rfl, rfl⟩
  kernelVaddr := ⟨rfl, rfl⟩
  userVaddr hk := by cases hk
  kernel := rfl
  poolSize := rfl
  descs := by
    change 0xc0009000 + 168 ≤ 0xc0100000
    decide
  heap := ⟨∅, _, _, Memory.heapOk_blockDescInit (Nat.succ_pos _)⟩
  mapped v f hf := by
    rw [own_bootMachine] at hf
    cases hf
  runs r hr := absurd hr (Finset.notMem_empty r)

theorem freeFrames_bitmapInit (len start : ℕ) :
    Pool.freeFrames ⟨bitmapInit len, start⟩ = 8 * len := by
  simp [Pool.freeFrames, bitmapInit, Bitmap.bitLen]

/-- The kernel has all its page tables from the start. -/
theorem missingTables_kernel {v w : ℕ} (hv : 0xc0000 ≤ v) :
    missingTables dir s (Finset.Ico v w) = ∅ := by
  refine Finset.eq_empty_of_forall_notMem fun i hi => ?_
  obtain ⟨⟨u, hu, rfl⟩, hlt, -⟩ := mem_missingTables.1 hi
  have := (Finset.mem_Ico.1 hu).1
  omega

/-! ## `sys_malloc` -/

theorem pagesWanted_eq_some {size : ℕ} (h : pagesWanted t x size = some n) :
    n = Memory.pagesFor size ∧ 0 < n := by
  unfold pagesWanted at h
  unfold Memory.pagesFor
  split at h
  · cases h
  · split at h
    · rw [if_pos ‹_›]
      obtain rfl := Option.some.inj h
      exact ⟨rfl, by omega⟩
    · rw [if_neg ‹_›]
      dsimp only at h
      split at h
      · obtain rfl := Option.some.inj h
        exact ⟨rfl, Nat.one_pos⟩
      · cases h

/-- The heap's own assertions hold, with fresh pages or without. -/
theorem Serving.exists_heap (h : Serving allMem dir s t x) (size : ℕ) (grant : Option Memory.Grant)
    (hgrant : ∀ gr, grant = some gr →
      Memory.Fresh t.descs x.runs gr.addr (Memory.pagesFor size)) :
    ∃ r, Memory.sysMalloc t x size grant = .ok r := by
  obtain ⟨foreign, g, held, hok⟩ := h.heap
  rcases hok.sysMalloc hgrant with hnull | ⟨p, y, g', hblock, -⟩
  · exact ⟨_, hnull⟩
  · exact ⟨_, hblock⟩

/-- **The sizes that are answered.** `sys_malloc` returns a block or `NULL` iff `malloc_page` can
serve the pages that it asks for. -/
theorem answers_iff (h : Serving allMem dir s t x) (size : ℕ) (content : Words) :
    (∃ r, sysMalloc s t x size content = .ok r) ↔
      ∀ n, pagesWanted t x size = some n → Serves dir s (poolFlags t) n := by
  unfold sysMalloc
  cases hwant : pagesWanted t x size with
  | none =>
    refine ⟨fun _ n hn => (by cases hn), fun _ => ?_⟩
    obtain ⟨r, hr⟩ := h.exists_heap size none fun gr hgr => by cases hgr
    exact ⟨_, bind_eq_ok.2 ⟨r, hr, rfl⟩⟩
  | some n =>
    obtain ⟨hfor, hn⟩ := pagesWanted_eq_some hwant
    constructor
    · rintro ⟨r, hr⟩ m hm
      obtain ⟨⟨v, s'⟩, hpage, -⟩ := bind_eq_ok.1 hr
      exact Option.some.inj hm ▸ h.serves hpage
    · intro hs
      obtain ⟨v, s', hpage, hfresh⟩ := h.exists_mallocPage hn (hs n rfl)
      obtain ⟨r, hr⟩ := h.exists_heap size (v.map fun v => ⟨4096 * v, content⟩) fun gr hgr => by
          obtain ⟨a, ha, rfl⟩ := Option.map_eq_some_iff.1 hgr
          exact hfor ▸ hfresh a ha
      exact ⟨_, bind_eq_ok.2 ⟨_, hpage, bind_eq_ok.2 ⟨r, hr, rfl⟩⟩⟩

/-- The first block of a machine with 4 MB. -/
theorem answers_first : ∃ r, sysMalloc (bootMachine 0x400000) (mainTask 0x400000)
    ⟨Memory.blockDescInit (fun _ => 0) 0xc0009000, ∅⟩ 1000 (fun _ => 7) = .ok r := by
  refine (answers_iff (serving_bootMachine ⟨by decide, by decide⟩) 1000 _).2 fun n hn => ?_
  obtain rfl : n = 1 := (pagesWanted_eq_some hn).1
  refine ⟨by decide, ⟨0, by decide, rfl⟩, fun i _ => ?_⟩
  change 1 + Finset.card _ ≤ Pool.freeFrames ⟨bitmapInit 32, 512⟩
  rw [missingTables_kernel (Nat.le_add_right_of_le (by decide)), freeFrames_bitmapInit]
  decide

/-- With 64 MB, the largest size that passes the comparison with the pool needs 7937 pages. -/
theorem asserts_large :
    Serving 0x4000000 (fun _ => none) (bootMachine 0x4000000) (mainTask 0x4000000)
      ⟨Memory.blockDescInit (fun _ => 0) 0xc0009000, ∅⟩ ∧
    32505855 < (mainTask 0x4000000).poolSize ∧
    sysMalloc (bootMachine 0x4000000) (mainTask 0x4000000)
      ⟨Memory.blockDescInit (fun _ => 0) 0xc0009000, ∅⟩ 32505855 (fun _ => 0) =
        .error .assert := by
  refine ⟨serving_bootMachine ⟨by decide, by decide⟩, by decide, ?_⟩
  have hwant : pagesWanted (mainTask 0x4000000)
      ⟨Memory.blockDescInit (fun _ => 0) 0xc0009000, ∅⟩ 32505855 = some 7937 := by decide
  rw [sysMalloc, hwant]
  rfl

end Gardos.Paging
