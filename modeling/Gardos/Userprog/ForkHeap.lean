import Gardos.Memory.HeapRuns

/-!
# The heaps of a process and its child

`sys_fork` copies the memory of the parent, arenas included, and makes new descriptors for the
child. User memory is separate from then on, but the descriptors of both processes are in kernel
memory, and the arenas that the child inherits still point to the descriptors of the parent.

The system of this module is a process that uses its heap, forks, and goes on together with its
child. When the child frees a small block that it inherited, `sys_free` works on the free list of
the parent (`freed_by_child`). `heapIsolation_of_run` is for the runs in which this does not happen.
-/

namespace Gardos.Userprog

open Outcome Memory Function

/-! ## The system -/

/-- Memory as a process sees it: its own below 3 GB, and the kernel's. -/
def view (kern user : Words) : Words := fun w => if w < 0xc0000000 then user w else kern w

/-- The heap of a process, in its address space. -/
def inSpace (kern : Words) (p : HeapSys) : HeapSys := ⟨⟨view kern p.heap.mem, p.heap.runs⟩, p.held⟩

/-- Where the arrays `u_block_desc` of the two processes are, and the size of the user pool. -/
structure Pcbs where
  parent : ℕ
  child : ℕ
  poolSize : ℕ
  parent_le : 0xc0000000 ≤ parent
  child_le : 0xc0000000 ≤ child
  apart : parent + 168 ≤ child ∨ child + 168 ≤ parent

/-- A user process with its descriptors at `descs`. -/
def Pcbs.task (pcbs : Pcbs) (descs : ℕ) : Task := ⟨false, descs, pcbs.poolSize⟩

/-- Kernel memory, and the two processes with their user memory. -/
structure ForkSys where
  kern : Words
  parent : HeapSys
  child : Option HeapSys

inductive ForkAct
  | fork
  | parent (c : HeapCall)
  | child (c : HeapCall)

namespace ForkAct

variable (pcbs : Pcbs)

def exec (x : ForkSys) : ForkAct → Outcome ForkSys
  | .fork => return ⟨blockDescInit x.kern pcbs.child, x.parent, some x.parent⟩
  | .parent c => do
    let p ← c.exec (pcbs.task pcbs.parent) (inSpace x.kern x.parent)
    return ⟨p.heap.mem, p, x.child⟩
  | .child c =>
    match x.child with
    | none => throw .fault
    | some p => do
      let p ← c.exec (pcbs.task pcbs.child) (inSpace x.kern p)
      return ⟨p.heap.mem, x.parent, some p⟩

/-- A call is allowed for the process, and the pages it gets are user pages. -/
def CallEnabled (descs : ℕ) (p : HeapSys) (c : HeapCall) : Prop :=
  c.Enabled (pcbs.task descs) p ∧ ∀ size gr, c = .malloc size (some gr) →
    gr.addr + 4096 * pagesFor size ≤ 0xc0000000

def Enabled (x : ForkSys) : ForkAct → Prop
  | .fork => x.child = none
  | .parent c => CallEnabled pcbs pcbs.parent (inSpace x.kern x.parent) c
  | .child c => ∀ p, x.child = some p → CallEnabled pcbs pcbs.child (inSpace x.kern p) c

/-- A block that is freed is large, or its arena belongs to the process. -/
def FreesOwn (descs : ℕ) (p : HeapSys) : HeapCall → Prop
  | .free ptr => p.heap.mem (block2arena ptr) = 0 ∨
      descs ≤ p.heap.mem (block2arena ptr) ∧ p.heap.mem (block2arena ptr) < descs + 168
  | _ => True

def OwnBlocks (x : ForkSys) : ForkAct → Prop
  | .fork => True
  | .parent c => FreesOwn pcbs.parent (inSpace x.kern x.parent) c
  | .child c => ∀ p, x.child = some p → FreesOwn pcbs.child (inSpace x.kern p) c

end ForkAct

/-- A step that meets the condition `P`. -/
def ForkStep (pcbs : Pcbs) (P : ForkSys → ForkAct → Prop) (x x' : ForkSys) : Prop :=
  ∃ a : ForkAct, a.Enabled pcbs x ∧ P x a ∧ a.exec pcbs x = .ok x'

/-- The array of descriptors at `descs` is as before. -/
def Untouched (descs : ℕ) (x x' : ForkSys) : Prop :=
  ∀ w, descs ≤ w → w < descs + 168 → x'.kern w = x.kern w

/-- A call of one process leaves the memory and the descriptors of the other alone. -/
structure Isolated (pcbs : Pcbs) (x : ForkSys) (a : ForkAct) (x' : ForkSys) : Prop where
  parent : ∀ c, a = .child c → x'.parent = x.parent ∧ Untouched pcbs.parent x x'
  child : ∀ c, a = .parent c → x'.child = x.child ∧ Untouched pcbs.child x x'

/-- `sys_malloc` never returns a block that overlaps one in use. -/
def NoOverlap (t : Task) (p : HeapSys) : Prop :=
  ∀ size grant, (∀ gr, grant = some gr → Grantable t p.heap.runs gr.addr (pagesFor size)) →
    ∀ ptr h, sysMalloc t p.heap size grant = .ok (ptr, h) → ptr ≠ 0 →
      ∀ q s, p.held q = some s → ptr + size ≤ q ∨ q + s ≤ ptr

/-! ## The invariant -/

/-- The heap of one process: its arenas belong to it, or to `foreign`; all pages are user pages. -/
structure ProcHeap (descs : ℕ) (foreign : Finset ℕ) (p : HeapSys) : Prop where
  shape : ∃ g, HeapOk descs foreign g p.heap p.held
  low : ∀ r ∈ p.heap.runs, r.1 + 4096 * r.2 ≤ 0xc0000000

structure ForkOk (pcbs : Pcbs) (x : ForkSys) : Prop where
  parent : ProcHeap pcbs.parent ∅ (inSpace x.kern x.parent)
  child : ∀ p, x.child = some p → ProcHeap pcbs.child {pcbs.parent} (inSpace x.kern p)

section Invariant

variable {pcbs : Pcbs} {descs w : ℕ} {foreign : Finset ℕ} {p p' : HeapSys} {kern kern' : Words}
  {x x' : ForkSys}

theorem view_of_lt {user : Words} (h : w < 0xc0000000) : view kern user w = user w := if_pos h

theorem view_of_le {user : Words} (h : 0xc0000000 ≤ w) : view kern user w = kern w :=
  if_neg (Nat.not_lt.2 h)

/-- Other kernel memory does not matter. -/
theorem ProcHeap.congr (h : ProcHeap descs foreign (inSpace kern p)) (hdescs : 0xc0000000 ≤ descs)
    (hkern : ∀ w, descs ≤ w → w < descs + 168 → kern' w = kern w) :
    ProcHeap descs foreign (inSpace kern' p) := by
  obtain ⟨g, hok⟩ := h.shape
  have hlow : ∀ r ∈ p.heap.runs, r.1 + 4096 * r.2 ≤ 0xc0000000 := h.low
  refine ⟨⟨g, hok.congr rfl (fun w hw hw' => ?_) (fun r hr w hw hw' => ?_) fun i hi b hb => ?_⟩,
    h.low⟩
  · change view kern' _ w = view kern _ w
    rw [view_of_le (by omega), view_of_le (by omega), hkern w hw hw']
  · have hpos := (hok.shaped.run r hr).2.2.1
    have := hlow r hr
    change view kern' _ w = view kern _ w
    rw [view_of_lt (by omega), view_of_lt (by omega)]
  · obtain ⟨r, hr, hreg⟩ := hok.free_region hi hb
    have hin := hok.shaped.regionIn_bounds hr hreg
    have hsize := (blockSize_bounds hi).1
    have := hlow r hr
    change view kern' _ b = view kern _ b ∧ view kern' _ (b + 4) = view kern _ (b + 4)
    rw [view_of_lt (by omega), view_of_lt (by omega), view_of_lt (by omega), view_of_lt (by omega)]
    exact ⟨rfl, rfl⟩

/-- A heap in its address space is seen as it is. -/
theorem view_self (m : Words) : view m m = m := funext fun _ => ite_self _

theorem inSpace_self (p : HeapSys) : inSpace p.heap.mem p = p := by
  unfold inSpace
  rw [view_self]

theorem ProcHeap.noOverlap {t : Task} (h : ProcHeap t.descs foreign p) : NoOverlap t p := by
  obtain ⟨g, hok⟩ := h.shape
  intro size grant hgrant ptr y hrun hptr q s hq
  rcases hok.sysMalloc fun gr hgr => (hgrant gr hgr).1 with hnull |
    ⟨p', y', g', hrun', -, hnone, hok', -⟩
  · rw [hnull] at hrun
    exact absurd (ok_pair hrun).1.symm hptr
  · obtain ⟨rfl, rfl⟩ := ok_pair (hrun'.symm.trans hrun)
    have hne : q ≠ p' := fun heq => by
      rw [heq, hnone] at hq
      cases hq
    obtain ⟨r, hr, n, hreg, hs⟩ := hok'.region p' size (update_self ..)
    obtain ⟨r', hr', n', hreg', hs'⟩ := hok'.region q s ((update_of_ne hne ..).trans hq)
    have := hok'.shaped.region_apart hr hr' hreg hreg' hne.symm
    omega

/-- The arena of a held block, in its run. -/
theorem arena_of_held {g : Shape} {y : Heap} {held : ℕ → Option ℕ} {ptr : ℕ}
    (h : HeapOk descs foreign g y held) (hp : held ptr ≠ none) :
    ∃ r ∈ y.runs, block2arena ptr = r.1 := by
  obtain ⟨s, hs⟩ := Option.ne_none_iff_exists'.1 hp
  obtain ⟨r, hr, n, hreg, -⟩ := h.region ptr s hs
  refine ⟨r, hr, ?_⟩
  obtain ⟨-, hptr, -⟩ | ⟨i, hi, k, hk, -, hptr, -⟩ := hreg
  · exact block2arena_of_mem (h.shaped.run r hr).1 (by omega) (by omega)
  · rw [hptr]
    exact block2arena_block (h.shaped.run r hr).1 hi hk

/-- **One call**: the invariant is kept, and kernel memory outside the descriptors. -/
theorem ProcHeap.step {c : HeapCall} (h : ProcHeap descs foreign p)
    (hforeign : ∀ d ∈ foreign, 0 < d ∧ (d + 168 ≤ descs ∨ descs + 168 ≤ d))
    (hen : ForkAct.CallEnabled pcbs descs p c) (hown : ForkAct.FreesOwn descs p c)
    (hrun : c.exec (pcbs.task descs) p = .ok p') :
    ProcHeap descs foreign p' ∧ ∀ w, 0xc0000000 ≤ w → w < descs ∨ descs + 168 ≤ w →
      p'.heap.mem w = p.heap.mem w := by
  obtain ⟨g, hok⟩ := h.shape
  obtain ⟨hen, huser⟩ := hen
  -- memory outside the heap is kept
  have hkeeps : ∀ {y : Heap}, KeepsOutside descs p.heap y →
      (∀ r ∈ y.runs, r.1 + 4096 * r.2 ≤ 0xc0000000) → ∀ w, 0xc0000000 ≤ w →
      w < descs ∨ descs + 168 ≤ w → y.mem w = p.heap.mem w := fun {y} hk hlow w hw hout =>
    hk w hout (fun r hr => by have := h.low r hr; omega) fun r hr => by have := hlow r hr; omega
  cases c with
  | malloc size grant =>
    obtain ⟨⟨q, z⟩, hcall, hrun⟩ := bind_eq_ok.1 hrun
    obtain rfl := Except.ok.inj hrun
    rcases hok.sysMalloc (t := pcbs.task descs) fun gr hgr => (hen gr hgr).1 with
      hnull | ⟨ptr, y, g', hret, hpos, -, hok', -, hruns, hkeep⟩
    · obtain ⟨rfl, rfl⟩ := ok_pair (hnull.symm.trans hcall)
      exact ⟨h, fun _ _ _ => rfl⟩
    · obtain ⟨rfl, rfl⟩ := ok_pair (hret.symm.trans hcall)
      rw [if_neg hpos.ne']
      have hlow : ∀ r ∈ y.runs, r.1 + 4096 * r.2 ≤ 0xc0000000 := fun r hr => by
        rcases hruns r hr with hr | ⟨gr, hgr, rfl⟩
        · exact h.low r hr
        · exact huser size gr (by rw [hgr])
      exact ⟨⟨⟨g', hok'⟩, hlow⟩, hkeeps hkeep hlow⟩
  | free ptr =>
    obtain ⟨z, hcall, hrun⟩ := bind_eq_ok.1 hrun
    obtain rfl := Except.ok.inj hrun
    obtain ⟨y, g', hret, hok', hruns, hkeep⟩ := hok.sysFree (t := pcbs.task descs) hen
      (fun hk => by cases hk) fun hcls => by
        -- the header of the arena names its owner
        obtain ⟨r, hr, harena⟩ := arena_of_held hok hen
        rw [harena] at hcls ⊢
        obtain ⟨i, hcls'⟩ := Option.ne_none_iff_exists'.1 hcls
        obtain ⟨hi, hdesc, -⟩ := hok.small r hr i hcls'
        change p.heap.mem (block2arena ptr) = 0 ∨ descs ≤ p.heap.mem (block2arena ptr) ∧
          p.heap.mem (block2arena ptr) < descs + 168 at hown
        rw [harena, hdesc] at hown
        refine (hok.owner r hr hcls).resolve_right fun hmem => ?_
        obtain ⟨hpos, hapart⟩ := hforeign _ hmem
        have hd := descAddr_bounds (g.owner r.1) hi
        omega
    obtain rfl := Except.ok.inj (hret.symm.trans hcall)
    have hlow : ∀ r ∈ y.runs, r.1 + 4096 * r.2 ≤ 0xc0000000 := fun r hr => h.low r (hruns r hr)
    exact ⟨⟨⟨g', hok'⟩, hlow⟩, hkeeps hkeep hlow⟩
  | write addr value =>
    obtain rfl := Except.ok.inj hrun
    obtain ⟨q, s, hq, hle, hlt⟩ := hen
    refine ⟨⟨⟨g, hok.write hq hle hlt value⟩, h.low⟩, fun w hw _ => update_of_ne ?_ ..⟩
    obtain ⟨r, hr, n, hreg, hs⟩ := hok.region q s hq
    have hin := hok.shaped.regionIn_bounds hr hreg
    have := h.low r hr
    omega

/-- **The fork**: the arenas of the child belong to the descriptors of the parent. -/
theorem ProcHeap.fork (h : ProcHeap pcbs.parent ∅ (inSpace kern p)) :
    ProcHeap pcbs.child {pcbs.parent} (inSpace (blockDescInit kern pcbs.child) p) := by
  obtain ⟨g, hok⟩ := h.shape
  have hchild := pcbs.child_le
  have hapart := pcbs.apart
  have hlow : ∀ r ∈ p.heap.runs, r.1 + 4096 * r.2 ≤ 0xc0000000 := h.low
  have hword : ∀ r ∈ p.heap.runs, ∀ k < 12,
      view (blockDescInit kern pcbs.child) p.heap.mem (r.1 + k) =
      view kern p.heap.mem (r.1 + k) := fun r hr k hk => by
    have hpos := (hok.shaped.run r hr).2.2.1
    have := hlow r hr
    rw [view_of_lt (by omega), view_of_lt (by omega)]
  have hdesc : ∀ w, pcbs.child ≤ w →
      view (blockDescInit kern pcbs.child) p.heap.mem w = blockDescInit kern pcbs.child w :=
    fun w hw => view_of_le (by omega)
  have howner : ∀ r ∈ p.heap.runs, g.cls r.1 ≠ none → g.owner r.1 = pcbs.parent := fun r hr hcls =>
    (hok.owner r hr hcls).resolve_right (Finset.notMem_empty _)
  refine ⟨⟨⟨g.owner, g.cls, fun _ => []⟩, ?_⟩, h.low⟩
  refine ⟨by omega, hok.shaped, fun r hr => ?_, hok.region, fun r hr hcls => ?_,
    fun r hr i hcls => ?_, fun r hr hcls => ?_, fun r hr i hcls hown => ?_, fun i hi => ?_,
    fun i hi => ?_, fun i hi b hb => absurd hb List.not_mem_nil⟩
  · have := hlow r hr
    omega
  · exact ⟨(hword r hr 0 (by omega)).trans (hok.large r hr hcls).1,
      (hword r hr 4 (by omega)).trans (hok.large r hr hcls).2.1,
      (hword r hr 8 (by omega)).trans (hok.large r hr hcls).2.2⟩
  · obtain ⟨hi, hd, hl⟩ := hok.small r hr i hcls
    exact ⟨hi, (hword r hr 0 (by omega)).trans hd, (hword r hr 8 (by omega)).trans hl⟩
  · exact Or.inr (Finset.mem_singleton.2 (howner r hr hcls))
  · have heq := howner r hr (by rw [hcls]; exact Option.some_ne_none i)
    change g.owner r.1 = pcbs.child at hown
    omega
  · have hd := descAddr_bounds pcbs.child hi
    obtain ⟨hsize, hper, -⟩ := blockDescInit_spec kern pcbs.child hi
    exact ⟨(hdesc _ (by omega)).trans hsize, (hdesc _ (by omega)).trans hper⟩
  · have hd := descAddr_bounds pcbs.child hi
    refine (blockDescInit_spec kern pcbs.child hi).2.2.congr fun w hw => ?_
    rcases mem_listNodes.1 hw with hw | hw | hw
    · exact ⟨hdesc w (by omega), hdesc (w + 4) (by omega)⟩
    · cases hw
    · exact ⟨hdesc w (by omega), hdesc (w + 4) (by omega)⟩

/-- One step. -/
theorem ForkOk.step {a : ForkAct} (h : ForkOk pcbs x) (hen : a.Enabled pcbs x)
    (hown : a.OwnBlocks pcbs x) (hrun : a.exec pcbs x = .ok x') :
    ForkOk pcbs x' ∧ Isolated pcbs x a x' := by
  have hparent := pcbs.parent_le
  have hchild := pcbs.child_le
  have hapart := pcbs.apart
  cases a with
  | fork =>
    obtain rfl := Except.ok.inj hrun
    have hkern : ∀ w, pcbs.parent ≤ w → w < pcbs.parent + 168 →
        blockDescInit x.kern pcbs.child w = x.kern w := fun w hw hw' =>
      blockDescInit_of_notMem (by omega)
    refine ⟨⟨h.parent.congr hparent hkern, fun p hp => ?_⟩, fun c hc => ?_, fun c hc => ?_⟩
    · exact Option.some.inj hp ▸ h.parent.fork
    · cases hc
    · cases hc
  | parent c =>
    obtain ⟨p', hcall, hrun⟩ := bind_eq_ok.1 hrun
    obtain rfl := Except.ok.inj hrun
    obtain ⟨hok, hkeep⟩ := h.parent.step (fun d hd => absurd hd (Finset.notMem_empty d))
      hen hown hcall
    have hkern : ∀ w, pcbs.child ≤ w → w < pcbs.child + 168 → p'.heap.mem w = x.kern w :=
      fun w hw hw' => (hkeep w (by omega) (by omega)).trans (view_of_le (by omega))
    refine ⟨⟨?_, fun p hp => (h.child p hp).congr hchild hkern⟩, fun c hc => ?_,
      fun c hc => ⟨rfl, hkern⟩⟩
    · change ProcHeap _ _ (inSpace p'.heap.mem p')
      rw [inSpace_self]
      exact hok
    · cases hc
  | child c =>
    cases hsome : x.child with
    | none =>
      unfold ForkAct.exec at hrun
      rw [hsome] at hrun
      cases hrun
    | some p =>
      unfold ForkAct.exec at hrun
      rw [hsome] at hrun
      obtain ⟨p', hcall, hrun⟩ := bind_eq_ok.1 hrun
      obtain rfl := Except.ok.inj hrun
      obtain ⟨hok, hkeep⟩ := (h.child p hsome).step (fun d hd => by
        rw [Finset.mem_singleton.1 hd]
        omega) (hen p hsome) (hown p hsome) hcall
      have hkern : ∀ w, pcbs.parent ≤ w → w < pcbs.parent + 168 → p'.heap.mem w = x.kern w :=
        fun w hw hw' => (hkeep w (by omega) (by omega)).trans (view_of_le (by omega))
      refine ⟨⟨h.parent.congr hparent hkern, fun q hq => ?_⟩, fun c hc => ⟨rfl, hkern⟩,
        fun c hc => ?_⟩
      · obtain rfl := Option.some.inj hq
        change ProcHeap _ _ (inSpace p'.heap.mem p')
        rw [inSpace_self]
        exact hok
      · cases hc

end Invariant

/-! ## Runs -/

/-- The start: a process with new descriptors and an empty heap. -/
structure ForkStart (pcbs : Pcbs) (x : ForkSys) : Prop where
  kern : ∃ m, x.kern = blockDescInit m pcbs.parent
  runs : x.parent.heap.runs = ∅
  held : ∀ p, x.parent.held p = none
  child : x.child = none

theorem ForkStart.forkOk {pcbs : Pcbs} {x : ForkSys} (h : ForkStart pcbs x) : ForkOk pcbs x := by
  obtain ⟨m, hm⟩ := h.kern
  have hparent := pcbs.parent_le
  have hheld : x.parent.held = fun _ => none := funext h.held
  refine ⟨⟨⟨⟨fun _ => 0, fun _ => none, fun _ => []⟩, ?_⟩, fun r hr => ?_⟩, fun p hp => ?_⟩
  · change HeapOk _ _ _ ⟨view x.kern x.parent.heap.mem, x.parent.heap.runs⟩ x.parent.held
    rw [hheld, h.runs]
    refine (heapOk_blockDescInit (m := m) (by omega)).congr rfl (fun w hw hw' => ?_)
      (fun r hr => absurd hr (Finset.notMem_empty r)) fun i hi b hb => absurd hb List.not_mem_nil
    change view x.kern _ w = _
    rw [view_of_le (by omega), hm]
  · change r ∈ x.parent.heap.runs at hr
    rw [h.runs] at hr
    exact absurd hr (Finset.notMem_empty r)
  · rw [h.child] at hp
    cases hp

/-- **The heaps of parent and child.** In every run in which no process frees a small block of an
arena that belongs to the other, each call leaves the heap of the other process alone, and
`sys_malloc` returns no block that overlaps one in use. -/
theorem heapIsolation_of_run {pcbs : Pcbs} {x₀ x : ForkSys} (hstart : ForkStart pcbs x₀)
    (hrun : Relation.ReflTransGen (ForkStep pcbs (ForkAct.OwnBlocks pcbs)) x₀ x) :
    (∀ (a : ForkAct) x', a.Enabled pcbs x → a.OwnBlocks pcbs x → a.exec pcbs x = .ok x' →
      Isolated pcbs x a x') ∧
    NoOverlap (pcbs.task pcbs.parent) (inSpace x.kern x.parent) ∧
    ∀ p, x.child = some p → NoOverlap (pcbs.task pcbs.child) (inSpace x.kern p) := by
  have hok : ForkOk pcbs x := reach_invariant hrun hstart.forkOk fun h hstep => by
    obtain ⟨a, hen, hown, hexec⟩ := hstep
    exact (h.step hen hown hexec).1
  exact ⟨fun a x' hen hown hexec => (hok.step hen hown hexec).2, hok.parent.noOverlap,
    fun p hp => (hok.child p hp).noOverlap⟩

/-- Two places for the descriptors. -/
def somePcbs : Pcbs := ⟨0xc0110000, 0xc0120000, 0x1000000, by decide, by decide, by decide⟩

/-- A new process. -/
def newProcess : ForkSys :=
  ⟨blockDescInit (fun _ => 0) 0xc0110000, ⟨⟨fun _ => 0, ∅⟩, fun _ => none⟩, none⟩

theorem newProcess_start : ForkStart somePcbs newProcess :=
  ⟨⟨_, rfl⟩, rfl, fun _ => rfl, rfl⟩

/-- A page for the heap. -/
def heapPage : Grant := ⟨0x8050000, fun _ => 0⟩

/-- The process asks for 1024 bytes and gets the first block of a page. -/
theorem exists_parent_malloc : ∃ x, ForkAct.exec somePcbs newProcess
      (.parent (.malloc 1024 (some heapPage))) = .ok x ∧ x.child = none ∧
    x.parent.held 0x805000c = some 1024 ∧
    ForkAct.Enabled somePcbs newProcess (.parent (.malloc 1024 (some heapPage))) := by
  obtain ⟨x, hrun, hx⟩ := exists_of_holds
    (o := ForkAct.exec somePcbs newProcess (.parent (.malloc 1024 (some heapPage))))
    (f := fun x => x.parent.held 0x805000c = some 1024) (by decide +kernel)
  have hchild : x.child = none := by
    obtain ⟨p, -, hx⟩ := bind_eq_ok.1 hrun
    rw [← Except.ok.inj hx]
    rfl
  refine ⟨x, hrun, hchild, of_decide_eq_true hx, fun gr hgr => ?_, fun size gr hgr => ?_⟩
  · obtain rfl := Option.some.inj hgr
    exact ⟨⟨by decide, by decide, by decide, by decide,
      fun r hr => absurd hr (Finset.notMem_empty r), by decide⟩, fun hk => by cases hk⟩
  · obtain ⟨rfl, hpage⟩ := HeapCall.malloc.inj hgr
    obtain rfl := Option.some.inj hpage
    decide

/-- A process asks for memory and forks. -/
theorem heapIsolation_of_fork : ∃ x, x.child ≠ none ∧
    Relation.ReflTransGen (ForkStep somePcbs (ForkAct.OwnBlocks somePcbs)) newProcess x ∧
    (∀ (a : ForkAct) x', a.Enabled somePcbs x → a.OwnBlocks somePcbs x →
      a.exec somePcbs x = .ok x' → Isolated somePcbs x a x') ∧
    NoOverlap (somePcbs.task somePcbs.parent) (inSpace x.kern x.parent) ∧
    ∀ p, x.child = some p → NoOverlap (somePcbs.task somePcbs.child) (inSpace x.kern p) := by
  obtain ⟨x, hrun, hchild, -, hen⟩ := exists_parent_malloc
  have hreach : Relation.ReflTransGen (ForkStep somePcbs (ForkAct.OwnBlocks somePcbs)) newProcess
      ⟨blockDescInit x.kern somePcbs.child, x.parent, some x.parent⟩ :=
    (Relation.ReflTransGen.single ⟨_, hen, trivial, hrun⟩).tail ⟨.fork, hchild, trivial, rfl⟩
  exact ⟨_, Option.some_ne_none _, hreach, heapIsolation_of_run newProcess_start hreach⟩

/-- The three calls: the parent asks for 1024 bytes, forks, and the child frees the block. -/
def freeInherited : Outcome (ForkSys × ForkSys × ForkSys) := do
  let x₁ ← ForkAct.exec somePcbs newProcess (.parent (.malloc 1024 (some heapPage)))
  let x₂ ← ForkAct.exec somePcbs x₁ .fork
  let x₃ ← ForkAct.exec somePcbs x₂ (.child (.free 0x805000c))
  return (x₁, x₂, x₃)

/-- **The child empties the free list of the parent.** The parent asks for 1024 bytes and forks, and
the child frees the block that it inherited: the first free block of the parent was in the arena,
and now its list is empty. -/
theorem freed_by_child : ∃ x x', Relation.ReflTransGen (ForkStep somePcbs fun _ _ => True)
    newProcess x ∧ ForkAct.Enabled somePcbs x (.child (.free 0x805000c)) ∧
    ForkAct.exec somePcbs x (.child (.free 0x805000c)) = .ok x' ∧
    listEmpty x.kern (descAddr somePcbs.parent 6 + 8) = false ∧
    listEmpty x'.kern (descAddr somePcbs.parent 6 + 8) = true ∧
    ¬ Isolated somePcbs x (.child (.free 0x805000c)) x' := by
  obtain ⟨⟨x₁, x₂, x₃⟩, hrun, hx⟩ := exists_of_holds (o := freeInherited)
    (f := fun r => !listEmpty r.2.1.kern (descAddr somePcbs.parent 6 + 8) &&
      listEmpty r.2.2.kern (descAddr somePcbs.parent 6 + 8)) (by decide +kernel)
  obtain ⟨hbefore, hafter⟩ := Bool.and_eq_true_iff.1 hx
  rw [Bool.not_eq_true'] at hbefore
  obtain ⟨y₁, h₁, hrun⟩ := bind_eq_ok.1 hrun
  obtain ⟨y₂, h₂, hrun⟩ := bind_eq_ok.1 hrun
  obtain ⟨y₃, h₃, hrun⟩ := bind_eq_ok.1 hrun
  obtain ⟨rfl, rfl, rfl⟩ := ok_triple hrun
  obtain ⟨x, hx₁, hchild, hheld, hen⟩ := exists_parent_malloc
  obtain rfl := Except.ok.inj (h₁.symm.trans hx₁)
  have hreach : Relation.ReflTransGen (ForkStep somePcbs fun _ _ => True) newProcess y₂ :=
    (Relation.ReflTransGen.single ⟨_, hen, trivial, h₁⟩).tail ⟨.fork, hchild, trivial, h₂⟩
  obtain rfl := Except.ok.inj h₂
  refine ⟨_, y₃, hreach, fun p hp => ⟨?_, fun size gr hgr => by cases hgr⟩, h₃, hbefore, hafter,
    fun hiso => ?_⟩
  · obtain rfl := Option.some.inj hp
    change y₁.parent.held _ ≠ none
    rw [hheld]
    exact Option.some_ne_none _
  · have hsame := (hiso.parent _ rfl).2 (descAddr somePcbs.parent 6 + 8 + 4) (by decide) (by decide)
    have hempty : listEmpty y₃.kern (descAddr somePcbs.parent 6 + 8) =
        listEmpty (blockDescInit y₁.kern somePcbs.child) (descAddr somePcbs.parent 6 + 8) := by
      unfold listEmpty
      rw [hsame]
    have hbad := hafter.symm.trans (hempty.trans hbefore)
    cases hbad

end Gardos.Userprog
