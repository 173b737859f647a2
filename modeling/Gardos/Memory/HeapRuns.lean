import Gardos.Foundations.Outcome
import Gardos.Memory.HeapFree

/-!
# Runs of the heap

A thread calls `sys_malloc` and `sys_free`, and writes to the blocks that it holds. The pages come
from `malloc_page`, which returns pages that are not in use, with any content. `heap_correct` is for
every run: the blocks in use do not overlap and lie in pages of the heap behind the headers, the
counts of the arenas and the free lists agree, and the next call returns; what `sys_malloc` returns
is filled with zeros.
-/

namespace Gardos.Memory

open Outcome Function

/-! ## The system -/

/-- The heap, and the blocks that the thread holds, with the sizes that it asked for. -/
structure HeapSys where
  heap : Heap
  held : ℕ → Option ℕ

/-- The calls, and a write to the word at an address. -/
inductive HeapCall
  | malloc (size : ℕ) (grant : Option Grant)
  | free (ptr : ℕ)
  | write (addr value : ℕ)

/-- The run of pages is not in use; kernel threads get pages from `K_HEAP_START` on. -/
def Grantable (t : Task) (runs : Finset (ℕ × ℕ)) (a n : ℕ) : Prop :=
  Fresh t.descs runs a n ∧ (t.kernel = true → 0xc0100000 ≤ a)

namespace HeapCall

def exec (t : Task) (x : HeapSys) : HeapCall → Outcome HeapSys
  | .malloc size grant => do
    let (p, h) ← sysMalloc t x.heap size grant
    return ⟨h, if p = 0 then x.held else update x.held p (some size)⟩
  | .free ptr => do
    let h ← sysFree t x.heap ptr
    return ⟨h, update x.held ptr none⟩
  | .write addr value =>
    return ⟨{ x.heap with mem := update x.heap.mem addr value }, x.held⟩

/-- `malloc_page` returns pages that are not in use, only blocks that are held are freed, and a
thread writes to its blocks. -/
def Enabled (t : Task) (x : HeapSys) : HeapCall → Prop
  | .malloc size grant =>
    ∀ gr, grant = some gr → Grantable t x.heap.runs gr.addr (pagesFor size)
  | .free ptr => x.held ptr ≠ none
  | .write addr _ => ∃ p s, x.held p = some s ∧ p ≤ addr ∧ addr < p + s

end HeapCall

def HeapStep (t : Task) (x x' : HeapSys) : Prop :=
  ∃ c : HeapCall, c.Enabled t x ∧ c.exec t x = .ok x'

/-- The start: `block_desc_init` has been called, and there are no pages yet. -/
structure HeapStart (t : Task) (x : HeapSys) : Prop where
  descs : 0 < t.descs
  mem : ∃ m, x.heap.mem = blockDescInit m t.descs
  runs : x.heap.runs = ∅
  held : ∀ p, x.held p = none

/-- What holds in every state. -/
structure HeapCorrect (x : HeapSys) : Prop where
  /-- A held block lies in pages of the heap, behind the header. -/
  within : ∀ p s, x.held p = some s → ∃ r ∈ x.heap.runs, r.1 + 12 ≤ p ∧ p + s ≤ r.1 + 4096 * r.2
  /-- Held blocks do not overlap. -/
  apart : ∀ p s q s', x.held p = some s → x.held q = some s' → p ≠ q → p + s ≤ q ∨ q + s' ≤ p
  /-- The count of a small arena is the number of its blocks in the free list, and no block is in
  the list twice or held. -/
  count : ∀ r ∈ x.heap.runs, x.heap.mem (r.1 + 8) = 0 →
    ∃ xs, IsList x.heap.mem (x.heap.mem r.1 + 8) xs ∧ xs.Nodup ∧ (∀ b ∈ xs, x.held b = none) ∧
      x.heap.mem (r.1 + 4) = xs.countP fun b => block2arena b = r.1

/-- The next call returns, and `sys_malloc` returns `NULL` or zeros. -/
structure CallsReturn (t : Task) (x : HeapSys) : Prop where
  malloc : ∀ size grant, (HeapCall.malloc size grant).Enabled t x →
    ∃ p h, sysMalloc t x.heap size grant = .ok (p, h) ∧
      (p ≠ 0 → x.held p = none ∧ ∀ w, p ≤ w → w < p + size → h.mem w = 0)
  free : ∀ ptr, x.held ptr ≠ none → ∃ h, sysFree t x.heap ptr = .ok h

/-! ## The invariant -/

/-- The invariant of the runs: all arenas are the thread's own. -/
structure SysOk (t : Task) (x : HeapSys) : Prop where
  shape : ∃ g, HeapOk t.descs ∅ g x.heap x.held
  low : t.kernel = true → ∀ r ∈ x.heap.runs, 0xc0100000 ≤ r.1

variable {t : Task} {x x' : HeapSys}

theorem SysOk.heapCorrect (h : SysOk t x) : HeapCorrect x := by
  obtain ⟨g, hok⟩ := h.shape
  refine ⟨fun p s hp => ?_, fun p s q s' hp hq hne => ?_, fun r hr hsmall => ?_⟩
  · obtain ⟨r, hr, n, hreg, hs⟩ := hok.region p s hp
    have hin := hok.shaped.regionIn_bounds hr hreg
    exact ⟨r, hr, hin.1, by omega⟩
  · obtain ⟨r, hr, n, hreg, hs⟩ := hok.region p s hp
    obtain ⟨r', hr', n', hreg', hs'⟩ := hok.region q s' hq
    have := hok.shaped.region_apart hr hr' hreg hreg' hne
    omega
  · cases hcls : g.cls r.1 with
    | none =>
      rw [(hok.large r hr hcls).2.2] at hsmall
      cases hsmall
    | some i =>
      obtain ⟨hi, hdesc, -⟩ := hok.small r hr i hcls
      have hown : g.owner r.1 = t.descs :=
        (hok.owner r hr (by rw [hcls]; exact Option.some_ne_none i)).resolve_right
          (Finset.notMem_empty _)
      rw [hown] at hdesc
      rw [hdesc]
      exact ⟨g.free i, hok.list i hi, (hok.list i hi).nodup, fun b hb => (hok.free i hi b hb).1,
        hok.count r hr i hcls hown⟩

/-- A held block, seen from the thread. -/
theorem SysOk.sysFree {ptr : ℕ} (h : SysOk t x) (hp : x.held ptr ≠ none) :
    ∃ y, sysFree t x.heap ptr = .ok y ∧ SysOk t ⟨y, update x.held ptr none⟩ := by
  obtain ⟨g, hok⟩ := h.shape
  obtain ⟨s, hs⟩ := Option.ne_none_iff_exists'.1 hp
  obtain ⟨r, hr, n, hreg, -⟩ := hok.region ptr s hs
  have hin := hok.shaped.regionIn_bounds hr hreg
  obtain ⟨y, g', hrun, hok', hruns, -⟩ := hok.sysFree hp
    (fun hk => (h.low hk r hr).trans (by omega)) fun hcls => by
      -- the arena of the block is the run it is in
      obtain ⟨hnone, hptr, -⟩ | ⟨i, hi, k, hk, hcls', hptr, -⟩ := hreg
      · rw [block2arena_of_mem (hok.shaped.run r hr).1 (by omega) (by omega)] at hcls
        exact absurd hnone hcls
      · rw [hptr, block2arena_block (hok.shaped.run r hr).1 hi hk] at hcls ⊢
        exact (hok.owner r hr hcls).resolve_right (Finset.notMem_empty _)
  exact ⟨y, hrun, ⟨g', hok'⟩, fun hk r' hr' => h.low hk r' (hruns r' hr')⟩

theorem SysOk.sysMalloc {size : ℕ} {grant : Option Grant} (h : SysOk t x)
    (hen : (HeapCall.malloc size grant).Enabled t x) :
    sysMalloc t x.heap size grant = .ok (0, x.heap) ∨
    ∃ p y, sysMalloc t x.heap size grant = .ok (p, y) ∧ 0 < p ∧ x.held p = none ∧
      SysOk t ⟨y, update x.held p (some size)⟩ ∧
      ∀ w, p ≤ w → w < p + size → y.mem w = 0 := by
  obtain ⟨g, hok⟩ := h.shape
  refine (hok.sysMalloc fun gr hgr => (hen gr hgr).1).imp_right ?_
  rintro ⟨p, y, g', hrun, hpos, hnone, hok', hzero, hruns, -⟩
  refine ⟨p, y, hrun, hpos, hnone, ⟨⟨g', hok'⟩, fun hk r hr => ?_⟩, hzero⟩
  rcases hruns r hr with hr | ⟨gr, hgr, rfl⟩
  · exact h.low hk r hr
  · exact (hen gr hgr).2 hk

theorem SysOk.callsReturn (h : SysOk t x) : CallsReturn t x where
  malloc size grant hen := by
    rcases h.sysMalloc hen with hrun | ⟨p, y, hrun, -, hnone, -, hzero⟩
    · exact ⟨0, x.heap, hrun, fun hp => absurd rfl hp⟩
    · exact ⟨p, y, hrun, fun _ => ⟨hnone, hzero⟩⟩
  free ptr hp := by
    obtain ⟨y, hrun, -⟩ := h.sysFree hp
    exact ⟨y, hrun⟩

/-- One call. -/
theorem SysOk.step (h : SysOk t x) (hstep : HeapStep t x x') : SysOk t x' := by
  obtain ⟨c, hen, hrun⟩ := hstep
  cases c with
  | malloc size grant =>
    obtain ⟨⟨q, z⟩, hcall, hrun⟩ := bind_eq_ok.1 hrun
    obtain rfl := Except.ok.inj hrun
    rcases h.sysMalloc hen with hnull | ⟨p, y, hok, hpos, -, hsys, -⟩
    · obtain ⟨rfl, rfl⟩ := ok_pair (hnull.symm.trans hcall)
      exact h
    · obtain ⟨rfl, rfl⟩ := ok_pair (hok.symm.trans hcall)
      rw [if_neg hpos.ne']
      exact hsys
  | free ptr =>
    obtain ⟨z, hcall, hrun⟩ := bind_eq_ok.1 hrun
    obtain rfl := Except.ok.inj hrun
    obtain ⟨y, hok, hsys⟩ := h.sysFree hen
    obtain rfl := Except.ok.inj (hok.symm.trans hcall)
    exact hsys
  | write addr value =>
    obtain rfl := Except.ok.inj hrun
    obtain ⟨p, s, hp, hle, hlt⟩ := hen
    obtain ⟨g, hok⟩ := h.shape
    exact ⟨⟨g, hok.write hp hle hlt value⟩, h.low⟩

/-! ## The start -/

theorem listInit_of_notMem {m : Words} {l w : ℕ} (h : w < l ∨ l + 16 ≤ w) :
    listInit m l w = m w := by
  unfold listInit
  rw [update_of_ne (by omega), update_of_ne (by omega),
    update_of_ne (by omega), update_of_ne (by omega)]

theorem blockSize_succ {i : ℕ} (hi : i < 7) : blockSize i * 2 % 65536 = blockSize (i + 1) := by
  have hbound := blockSize_bounds hi
  have hsucc : blockSize (i + 1) = blockSize i * 2 := by
    unfold blockSize
    rw [Nat.pow_succ, Nat.mul_assoc]
  rw [hsucc]
  omega

/-- The loop of `block_desc_init`, from class `c` on. -/
theorem blockDescLoop_spec {n : ℕ} : ∀ {m : Words} {d c : ℕ}, c + n ≤ 7 →
    (∀ i < n, blockDescLoop n m d (blockSize c) (d + 24 * i) = blockSize (c + i) ∧
      blockDescLoop n m d (blockSize c) (d + 24 * i + 4) = blocksPerArena (c + i) ∧
      IsList (blockDescLoop n m d (blockSize c)) (d + 24 * i + 8) []) ∧
    ∀ w, w < d ∨ d + 24 * n ≤ w → blockDescLoop n m d (blockSize c) w = m w := by
  induction n with
  | zero => exact fun _ => ⟨fun i hi => by omega, fun _ _ => rfl⟩
  | succ n ih =>
    intro m d c hc
    set m₁ := listInit (update (update m d (blockSize c)) (d + 4)
      ((4096 - 12) / blockSize c)) (d + 8) with hm₁
    have hstep : blockDescLoop (n + 1) m d (blockSize c) =
        blockDescLoop n m₁ (d + 24) (blockSize (c + 1)) := by
      rw [← blockSize_succ (by omega)]
      rfl
    obtain ⟨hdesc, hframe⟩ := ih (m := m₁) (d := d + 24) (c := c + 1) (by omega)
    rw [hstep]
    refine ⟨fun i hi => ?_, fun w hw => ?_⟩
    · cases i with
      | zero =>
        rw [hframe _ (by omega), hframe _ (by omega), Nat.mul_zero, Nat.add_zero, Nat.add_zero]
        have hlist : IsList m₁ (d + 8) [] := isList_listInit _ (d + 8)
        refine ⟨?_, ?_, hlist.congr fun w hw => ?_⟩
        · rw [hm₁, listInit_of_notMem (by omega), update_of_ne (by omega),
            update_self]
        · rw [hm₁, listInit_of_notMem (by omega), update_self]
          rfl
        · rcases mem_listNodes.1 hw with hw | hw | hw
          · exact ⟨hframe w (by omega), hframe (w + 4) (by omega)⟩
          · cases hw
          · exact ⟨hframe w (by omega), hframe (w + 4) (by omega)⟩
      | succ i =>
        have hnext := hdesc i (by omega)
        rw [show d + 24 + 24 * i = d + 24 * (i + 1) by omega,
          show c + 1 + i = c + (i + 1) by omega] at hnext
        exact hnext
    · rw [hframe w (by omega), hm₁, listInit_of_notMem (by omega), update_of_ne (by omega),
        update_of_ne (by omega)]

/-- **`block_desc_init`** makes seven descriptors with empty free lists. -/
theorem blockDescInit_spec (m : Words) (descs : ℕ) {i : ℕ} (hi : i < 7) :
    blockDescInit m descs (descAddr descs i) = blockSize i ∧
      blockDescInit m descs (descAddr descs i + 4) = blocksPerArena i ∧
      IsList (blockDescInit m descs) (descAddr descs i + 8) [] := by
  have h := (blockDescLoop_spec (n := 7) (m := m) (d := descs) (c := 0) le_rfl).1 i hi
  rw [Nat.zero_add] at h
  exact h

theorem blockDescInit_of_notMem {m : Words} {descs w : ℕ} (h : w < descs ∨ descs + 168 ≤ w) :
    blockDescInit m descs w = m w :=
  (blockDescLoop_spec (n := 7) (m := m) (d := descs) (c := 0) le_rfl).2 w h

/-- An empty heap with new descriptors. -/
theorem heapOk_blockDescInit {m : Words} {descs : ℕ} {foreign : Finset ℕ} (hpos : 0 < descs) :
    HeapOk descs foreign ⟨fun _ => 0, fun _ => none, fun _ => []⟩ ⟨blockDescInit m descs, ∅⟩
      fun _ => none where
  descs_pos := hpos
  shaped := ⟨fun r hr => absurd hr (Finset.notMem_empty r), fun r hr => absurd hr
    (Finset.notMem_empty r), fun r hr => absurd hr (Finset.notMem_empty r)⟩
  descs_apart r hr := absurd hr (Finset.notMem_empty r)
  region p s hp := by cases hp
  large r hr := absurd hr (Finset.notMem_empty r)
  small r hr := absurd hr (Finset.notMem_empty r)
  owner r hr := absurd hr (Finset.notMem_empty r)
  count r hr := absurd hr (Finset.notMem_empty r)
  desc i hi := ⟨(blockDescInit_spec m descs hi).1, (blockDescInit_spec m descs hi).2.1⟩
  list i hi := (blockDescInit_spec m descs hi).2.2
  free i hi b hb := absurd hb List.not_mem_nil

theorem HeapStart.sysOk (h : HeapStart t x) : SysOk t x := by
  obtain ⟨m, hm⟩ := h.mem
  have hheap : x.heap = ⟨blockDescInit m t.descs, ∅⟩ := by rw [← hm, ← h.runs]
  have hheld : x.held = fun _ => none := funext h.held
  refine ⟨⟨⟨fun _ => 0, fun _ => none, fun _ => []⟩, ?_⟩, fun _ r hr => ?_⟩
  · rw [hheap, hheld]
    exact heapOk_blockDescInit h.descs
  · rw [h.runs] at hr
    exact absurd hr (Finset.notMem_empty r)

/-- **The heap is correct in every run.** -/
theorem heap_correct {x₀ : HeapSys} (hstart : HeapStart t x₀)
    (hrun : Relation.ReflTransGen (HeapStep t) x₀ x) : HeapCorrect x ∧ CallsReturn t x := by
  have hok : SysOk t x := reach_invariant hrun hstart.sysOk fun h hstep => h.step hstep
  exact ⟨hok.heapCorrect, hok.callsReturn⟩

/-- A kernel thread with a new heap. -/
def kernelTask : Task := ⟨true, 0xc0009000, 0x1000000⟩

@[inherit_doc kernelTask]
def startHeap : HeapSys := ⟨⟨blockDescInit (fun _ => 0) 0xc0009000, ∅⟩, fun _ => none⟩

/-- The first page of the kernel heap, with some content. -/
def firstPage : Grant := ⟨0xc0100000, fun _ => 7⟩

theorem startHeap_start : HeapStart kernelTask startHeap := ⟨by decide, ⟨_, rfl⟩, rfl, fun _ => rfl⟩

/-- A first block of 1000 bytes. -/
theorem heap_correct_first : ∃ h, sysMalloc kernelTask startHeap.heap 1000
      (some firstPage) = .ok (0xc010000c, h) ∧
    HeapCorrect ⟨h, Function.update startHeap.held 0xc010000c (some 1000)⟩ ∧
    CallsReturn kernelTask ⟨h, Function.update startHeap.held 0xc010000c (some 1000)⟩ := by
  obtain ⟨⟨p, h⟩, hrun, hp⟩ := exists_of_holds
    (o := sysMalloc kernelTask startHeap.heap 1000 (some firstPage))
    (f := fun r => r.1 = 0xc010000c) (by decide +kernel)
  obtain rfl : p = 0xc010000c := of_decide_eq_true hp
  have hfresh : Fresh kernelTask.descs startHeap.heap.runs 0xc0100000 (pagesFor 1000) :=
    ⟨by decide, by decide, by decide, by decide, fun r hr => absurd hr (Finset.notMem_empty r),
      by decide⟩
  refine ⟨h, hrun, heap_correct startHeap_start
    (.single ⟨.malloc 1000 (some firstPage), fun gr hgr => ?_, ?_⟩)⟩
  · exact Option.some.inj hgr ▸ ⟨hfresh, fun _ => le_rfl⟩
  · change sysMalloc kernelTask _ _ _ >>= _ = _
    rw [hrun]
    rfl

end Gardos.Memory
