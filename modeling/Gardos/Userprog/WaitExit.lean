import Gardos.Foundations.Outcome
import Gardos.Userprog.Family

/-!
# The wait/exit protocol

To say which `sys_wait` collects which process, the system carries a history that the code does not
have: a serial number for every process, since pages and pids are used again, the parent of each,
what each process passed to `sys_exit`, and what each `sys_wait` received.

`HistoryOk` is the invariant of the history, and `waitExit_of_run` says what holds in every run.
-/

namespace Gardos.Userprog

open Outcome Thread Function

/-! ## The system -/

/-- A child that a `sys_wait` has collected: the serial numbers of the child, of the caller and of
the child's parent at that time, and the status that the caller got. -/
structure Reap where
  child : ℕ
  waiter : ℕ
  parent : ℕ
  status : ℤ

/-- The tasks, and the history of the processes. -/
structure ProcSys where
  sched : Sched
  /-- The serial number of the process whose `task_struct` is on the page; `init` has 0. -/
  serial : ℕ → ℕ
  /-- The serial number of its parent. -/
  parent : ℕ → ℕ
  /-- The serial number of the next process. -/
  born : ℕ
  /-- What the processes have passed to `sys_exit`. -/
  exits : List (ℕ × ℤ)
  reaps : List Reap

namespace ProcSys

/-- The system after `thread_init`. -/
def start (s : Sched) (init idle : ℕ) : ProcSys where
  sched := s
  serial t := if t = init then 0 else if t = idle then 2 else 1
  parent _ := 0
  born := 3
  exits := []
  reaps := []

/-- The running process has a new child on page `t`. -/
def forked (x : ProcSys) (s : Sched) (t : ℕ) : ProcSys :=
  { x with
    sched := s
    serial := update x.serial t x.born
    parent := update x.parent t (x.serial x.sched.cur)
    born := x.born + 1 }

/-- The running process has passed `status` to `sys_exit`; its children go to `init`. -/
def exited (x : ProcSys) (s : Sched) (status : ℤ) : ProcSys :=
  { x with
    sched := s
    parent := fun t => if x.parent t = x.serial x.sched.cur then 0 else x.parent t
    exits := x.exits ++ [(x.serial x.sched.cur, status)] }

/-- What `sys_wait` adds to the history. -/
def reapOf (x : ProcSys) : WaitResult → List Reap
  | .reaped t _ status => [⟨x.serial t, x.serial x.sched.cur, x.parent t, status⟩]
  | _ => []

end ProcSys

/-- The steps of the processes, and of the rest of the system. -/
inductive ProcAct
  | fork (t : ℕ)
  | exit (status : ℤ)
  | wait
  | other (c : SchedCall)

namespace ProcAct

def exec (x : ProcSys) : ProcAct → Outcome ProcSys
  | .fork t => do
    let (_, s) ← sysFork x.sched t
    return x.forked s t
  | .exit status => do
    let s ← sysExit x.sched status
    return x.exited s status
  | .wait => do
    let (r, s) ← sysWait x.sched
    return { x with sched := s, reaps := x.reaps ++ x.reapOf r }
  | .other c => do
    let s ← c.exec x.sched
    return { x with sched := s }

/-- The three calls are made by user processes, `sys_fork` with a new page. The rest of the
system blocks and wakes up threads for other reasons. -/
def Enabled (x : ProcSys) : ProcAct → Prop
  | .fork t => (x.sched.tasks x.sched.cur).pgdir = true ∧ t ∉ x.sched.threadAllList
  | .exit _ => (x.sched.tasks x.sched.cur).pgdir = true
  | .wait => (x.sched.tasks x.sched.cur).pgdir = true
  | .other c => c.Admissible x.sched ∧ c.Neutral x.sched

end ProcAct

/-- A step of the system. -/
def ProcStep (x x' : ProcSys) : Prop := ∃ a : ProcAct, a.Enabled x ∧ a.exec x = .ok x'

variable {s s' : Sched} {init t : ℕ}

/-! ## The history -/

/-- The invariant of the history: it tells the processes apart, the code's `parent_pid` names the
parent of the history, exactly the hanging processes on the list have exited, and the processes
that were collected have left the list. -/
structure HistoryOk (x : ProcSys) (init : ℕ) : Prop where
  serial_lt : ∀ t ∈ x.sched.threadAllList, x.serial t < x.born
  serial_inj : ∀ t ∈ x.sched.threadAllList, ∀ u ∈ x.sched.threadAllList,
    x.serial t = x.serial u → t = u
  serial_init : x.serial init = 0
  parent : ∀ t ∈ x.sched.threadAllList, ∀ u ∈ x.sched.threadAllList,
    (x.sched.tasks t).parentPid = some (x.sched.tasks u).pid → x.parent t = x.serial u
  exits_lt : ∀ e ∈ x.exits, e.1 < x.born
  exits_nodup : (x.exits.map Prod.fst).Nodup
  exited : ∀ t ∈ x.sched.threadAllList, ∀ e ∈ x.exits, e.1 = x.serial t →
    x.sched.status t = .hanging
  hanging : ∀ t ∈ x.sched.threadAllList, x.sched.status t = .hanging →
    ∃ status, (x.serial t, status) ∈ x.exits ∧ (x.sched.tasks t).exitStatus = status.bmod 256
  reaps_nodup : (x.reaps.map Reap.child).Nodup
  reaped_gone : ∀ r ∈ x.reaps, ∀ t ∈ x.sched.threadAllList, x.serial t ≠ r.child
  reaped : ∀ r ∈ x.reaps, r.waiter = r.parent ∧
    ∃ status, (r.child, status) ∈ x.exits ∧ r.status = status.bmod 256

variable {x x' : ProcSys}

/-- A step that leaves the processes alone. -/
theorem HistoryOk.congr (h : HistoryOk x init)
    (hall : s'.threadAllList = x.sched.threadAllList)
    (hfields : ∀ t, (s'.tasks t).pid = (x.sched.tasks t).pid ∧
      (s'.tasks t).parentPid = (x.sched.tasks t).parentPid ∧
      (s'.tasks t).exitStatus = (x.sched.tasks t).exitStatus)
    (hhang : ∀ t, s'.status t = .hanging ↔ x.sched.status t = .hanging) :
    HistoryOk { x with sched := s' } init := by
  have hpid : ∀ t, (s'.tasks t).pid = (x.sched.tasks t).pid := fun t => (hfields t).1
  have hparent : ∀ t, (s'.tasks t).parentPid = (x.sched.tasks t).parentPid :=
    fun t => (hfields t).2.1
  have hexit : ∀ t, (s'.tasks t).exitStatus = (x.sched.tasks t).exitStatus :=
    fun t => (hfields t).2.2
  constructor <;> simp only [hall, hpid, hparent, hexit, hhang]
  case serial_lt => exact h.serial_lt
  case serial_inj => exact h.serial_inj
  case serial_init => exact h.serial_init
  case parent => exact h.parent
  case exits_lt => exact h.exits_lt
  case exits_nodup => exact h.exits_nodup
  case exited => exact h.exited
  case hanging => exact h.hanging
  case reaps_nodup => exact h.reaps_nodup
  case reaped_gone => exact h.reaped_gone
  case reaped => exact h.reaped

theorem HistoryOk.sameLife (h : HistoryOk x init) (hs : SameLife x.sched s') :
    HistoryOk { x with sched := s' } init := by
  refine h.congr hs.all (fun t => ?_) hs.hanging
  obtain ⟨hpid, -, hparent, hexit⟩ := hs.fields t
  exact ⟨hpid, hparent, hexit⟩

theorem HistoryOk.forked (h : HistoryOk x init) (hf : FamilyOk x.sched init)
    (hok : SchedOk x.sched) (ht : t ∉ x.sched.threadAllList) {k : ℕ}
    (hk : x.sched.pidBitmap.IsFirstClear k) :
    HistoryOk (x.forked (childSched x.sched t k) t) init := by
  have hold : ∀ u ∈ x.sched.threadAllList, (childSched x.sched t k).tasks u = x.sched.tasks u :=
    fun u hu => tasks_childSched_of_mem ht hu
  have hself := tasks_childSched_self x.sched t k
  have hst : ∀ u ∈ x.sched.threadAllList,
      (childSched x.sched t k).status u = x.sched.status u := fun u hu =>
    status_childSched_of_mem ht hu
  have hready := status_childSched_self x.sched t k
  have hne : ∀ u ∈ x.sched.threadAllList, u ≠ t := fun u hu hut => ht (hut ▸ hu)
  have hser : ∀ u ∈ x.sched.threadAllList,
      update x.serial t x.born u = x.serial u := fun u hu =>
    update_of_ne (hne u hu) ..
  have hser' : update x.serial t x.born t = x.born := update_self ..
  constructor <;> simp only [ProcSys.forked, mem_childSched]
  case serial_lt =>
    rintro u (hu | rfl)
    · rw [hser u hu]
      exact (h.serial_lt u hu).trans (Nat.lt_succ_self _)
    · rw [hser']
      exact Nat.lt_succ_self _
  case serial_inj =>
    rintro u (hu | hut) v (hv | hvt) huv
    · rw [hser u hu, hser v hv] at huv
      exact h.serial_inj u hu v hv huv
    · rw [hser u hu, hvt, hser'] at huv
      exact absurd huv (h.serial_lt u hu).ne
    · rw [hut, hser', hser v hv] at huv
      exact absurd huv.symm (h.serial_lt v hv).ne
    · rw [hut, hvt]
  case serial_init => rw [hser init hf.init_mem, h.serial_init]
  case parent =>
    rintro u (hu | hut) v (hv | hvt) hp
    · rw [hold u hu, hold v hv] at hp
      rw [update_of_ne (hne u hu), hser v hv]
      exact h.parent u hu v hv hp
    · -- the new pid is the pid of no task, so of no parent
      rw [hold u hu, hvt, hself] at hp
      obtain ⟨w, hw, hpid⟩ := hf.parent_mem u hu _ hp
      exact absurd hpid (hf.pid_ne hk.clear hw)
    · rw [hut, hself, hold v hv] at hp
      rw [hut, update_self, hser v hv, hf.pid_inj _ hok.cur_mem v hv (Option.some.inj hp)]
    · rw [hut, hvt, hself] at hp
      exact absurd (Option.some.inj hp) (hf.pid_ne hk.clear hok.cur_mem)
  case exits_lt => exact fun e he => (h.exits_lt e he).trans (Nat.lt_succ_self _)
  case exits_nodup => exact h.exits_nodup
  case exited =>
    rintro u (hu | rfl) e he heq
    · rw [hser u hu] at heq
      rw [hst u hu]
      exact h.exited u hu e he heq
    · rw [hser'] at heq
      exact absurd heq (h.exits_lt e he).ne
  case hanging =>
    rintro u (hu | rfl) hhang
    · rw [hst u hu] at hhang
      rw [hser u hu, hold u hu]
      exact h.hanging u hu hhang
    · rw [hready] at hhang
      cases hhang
  case reaps_nodup => exact h.reaps_nodup
  case reaped_gone =>
    rintro r hr u (hu | rfl)
    · rw [hser u hu]
      exact h.reaped_gone r hr u hu
    · obtain ⟨-, status, hmem, -⟩ := h.reaped r hr
      rw [hser']
      exact (h.exits_lt _ hmem).ne'
  case reaped => exact h.reaped

theorem HistoryOk.exit {status : ℤ} (h : HistoryOk x init) (hf : FamilyOk x.sched init)
    (hok : SchedOk x.sched) (he : Exited x.sched s' status) :
    HistoryOk (x.exited s' status) init := by
  have hfresh : ∀ e ∈ x.exits, e.1 ≠ x.serial x.sched.cur := by
    intro e hmem heq
    have hhang := h.exited _ hok.cur_mem e hmem heq
    rw [hok.status_cur] at hhang
    cases hhang
  constructor <;> simp only [ProcSys.exited, he.all, he.pid]
  case serial_lt => exact h.serial_lt
  case serial_inj => exact h.serial_inj
  case serial_init => exact h.serial_init
  case parent =>
    intro t ht u hu hp
    rw [he.parentPid t ht] at hp
    by_cases hc : (x.sched.tasks t).parentPid = some (x.sched.tasks x.sched.cur).pid
    · -- adopted: the parent is `init` now
      rw [if_pos hc] at hp
      rw [if_pos (h.parent t ht _ hok.cur_mem hc)]
      have hu1 : (x.sched.tasks u).pid = (x.sched.tasks init).pid :=
        (Option.some.inj hp).symm.trans hf.init_pid.symm
      rw [hf.pid_inj u hu init hf.init_mem hu1, h.serial_init]
    · rw [if_neg hc] at hp
      have hparent := h.parent t ht u hu hp
      have hne : x.parent t ≠ x.serial x.sched.cur := fun heq => by
        rw [h.serial_inj u hu _ hok.cur_mem (hparent.symm.trans heq)] at hp
        exact hc hp
      rw [if_neg hne, hparent]
  case exits_lt =>
    intro e hmem
    rcases List.mem_append.1 hmem with hmem | hmem
    · exact h.exits_lt e hmem
    · rw [List.mem_singleton.1 hmem]
      exact h.serial_lt _ hok.cur_mem
  case exits_nodup =>
    rw [List.map_append, List.map_singleton]
    refine nodup_append_singleton h.exits_nodup fun hn => ?_
    obtain ⟨e, hmem, heq⟩ := List.mem_map.1 hn
    exact hfresh e hmem heq
  case exited =>
    intro t ht e hmem heq
    rw [he.hanging]
    rcases List.mem_append.1 hmem with hmem | hmem
    · exact Or.inr (h.exited t ht e hmem heq)
    · rw [List.mem_singleton.1 hmem] at heq
      exact Or.inl (h.serial_inj t ht _ hok.cur_mem heq.symm)
  case hanging =>
    intro t ht hhang
    rw [he.exitStatus]
    rcases (he.hanging t).1 hhang with hcur | hold
    · rw [if_pos hcur, hcur]
      exact ⟨status, List.mem_append_right _ (List.mem_singleton.2 rfl), rfl⟩
    · have hne : t ≠ x.sched.cur := fun hcur => by
        rw [hcur, hok.status_cur] at hold
        cases hold
      rw [if_neg hne]
      obtain ⟨st, hmem, hst⟩ := h.hanging t ht hold
      exact ⟨st, List.mem_append_left _ hmem, hst⟩
  case reaps_nodup => exact h.reaps_nodup
  case reaped_gone => exact h.reaped_gone
  case reaped =>
    intro r hr
    obtain ⟨hw, st, hmem, hst⟩ := h.reaped r hr
    exact ⟨hw, st, List.mem_append_left _ hmem, hst⟩

theorem HistoryOk.reap (h : HistoryOk x init) (hok : SchedOk x.sched)
    (ht : t ∈ x.sched.threadAllList) (hhang : x.sched.status t = .hanging)
    (hp : (x.sched.tasks t).parentPid = some (x.sched.tasks x.sched.cur).pid) :
    HistoryOk { x with
      sched := threadExit x.sched t
      reaps := x.reaps ++ [⟨x.serial t, x.serial x.sched.cur, x.parent t,
        (x.sched.tasks t).exitStatus⟩] } init := by
  have htask := tasks_threadExit x.sched t
  constructor <;> simp only [SchedOk.mem_threadExit hok]
  case serial_lt => exact fun u hu => h.serial_lt u hu.2
  case serial_inj => exact fun u hu v hv => h.serial_inj u hu.2 v hv.2
  case serial_init => exact h.serial_init
  case parent =>
    intro u hu v hv hpuv
    rw [htask, htask v] at hpuv
    exact h.parent u hu.2 v hv.2 hpuv
  case exits_lt => exact h.exits_lt
  case exits_nodup => exact h.exits_nodup
  case exited =>
    intro u hu e he heq
    rw [status_threadExit_of_ne hu.1]
    exact h.exited u hu.2 e he heq
  case hanging =>
    intro u hu hh
    rw [status_threadExit_of_ne hu.1] at hh
    rw [htask]
    exact h.hanging u hu.2 hh
  case reaps_nodup =>
    rw [List.map_append, List.map_singleton]
    refine nodup_append_singleton h.reaps_nodup fun hn => ?_
    obtain ⟨r, hr, heq⟩ := List.mem_map.1 hn
    exact h.reaped_gone r hr t ht heq.symm
  case reaped_gone =>
    intro r hr u hu
    rcases List.mem_append.1 hr with hr | hr
    · exact h.reaped_gone r hr u hu.2
    · rw [List.mem_singleton.1 hr]
      exact fun heq => hu.1 (h.serial_inj u hu.2 t ht heq)
  case reaped =>
    intro r hr
    rcases List.mem_append.1 hr with hr | hr
    · exact h.reaped r hr
    · rw [List.mem_singleton.1 hr]
      exact ⟨(h.parent t ht _ hok.cur_mem hp).symm, h.hanging t ht hhang⟩

/-! ## Runs -/

/-- The invariant of the system. -/
structure ProcOk (x : ProcSys) (init : ℕ) : Prop where
  sched : SchedOk x.sched
  family : FamilyOk x.sched init
  history : HistoryOk x init

/-- What stops the system: all pids are used up, `init` exits, or an assertion of a semaphore. -/
def ProcAct.Refused (x : ProcSys) (init : ℕ) : ProcAct → Prop
  | .fork _ => ¬ PidFree x.sched
  | .exit _ => x.sched.cur = init
  | .wait => False
  | .other c => c.Refused x.sched

theorem ProcOk.cur_ne_idle (h : ProcOk x init)
    (hproc : (x.sched.tasks x.sched.cur).pgdir = true) : x.sched.cur ≠ x.sched.idleThread := by
  intro hc
  rw [hc, h.family.idle_pgdir] at hproc
  cases hproc

/-- A round of `sys_wait`. -/
theorem ProcOk.wait (h : ProcOk x init) (hproc : (x.sched.tasks x.sched.cur).pgdir = true) :
    ∃ x', ProcAct.wait.exec x = .ok x' ∧ ProcOk x' init := by
  change ∃ x', (sysWait x.sched >>= _) = _ ∧ _
  unfold sysWait
  cases hfind : findHangingChild x.sched (x.sched.tasks x.sched.cur).pid with
  | some t =>
    obtain ⟨ht, hp, hhang⟩ := findHangingChild_some hfind
    have hmain : t ≠ x.sched.mainThread := fun hm =>
      h.family.hanging_parent t ht hhang (hm ▸ h.family.main_parent)
    exact ⟨_, rfl, SchedOk.threadExit h.sched hhang hmain,
      h.family.threadExit h.sched ht hhang, h.history.reap h.sched ht hhang hp⟩
  | none =>
    dsimp only
    cases findChild x.sched (x.sched.tasks x.sched.cur).pid with
    | none =>
      refine ⟨_, rfl, h.sched, h.family, ?_⟩
      rw [show x.reapOf .noChild = [] from rfl, List.append_nil]
      exact h.history
    | some u =>
      obtain ⟨s', hrun, hok', hsw⟩ := h.sched.threadBlock .waiting
        (Or.inr (Or.inl rfl)) fun hc => absurd hc (h.cur_ne_idle hproc)
      refine ⟨{ x with sched := s' }, ?_, hok',
        (h.family.sleep h.sched hfind).sameLife hsw.toSameLife, ?_⟩
      · dsimp only
        rw [hrun]
        change Except.ok { x with sched := s', reaps := x.reaps ++ [] } = _
        rw [List.append_nil]
      · refine h.history.congr hsw.all (fun t => ?_) fun t => ?_
        · obtain ⟨hpid, -, hparent, hexit⟩ := hsw.fields t
          rw [hpid, hparent, hexit, tasks_setStatus]
          exact ⟨rfl, rfl, rfl⟩
        · rw [hsw.hanging, Sched.status_setStatus]
          split
          · next hc =>
            rw [hc, h.sched.status_cur]
            decide
          · exact Iff.rfl

/-- **One step**: the invariant is kept. -/
theorem ProcOk.exec (h : ProcOk x init) {a : ProcAct} (ha : a.Enabled x)
    (hr : ¬ a.Refused x init) : ∃ x', a.exec x = .ok x' ∧ ProcOk x' init := by
  cases a with
  | fork t =>
    obtain ⟨hproc, ht⟩ := ha
    obtain ⟨k, hk, hrun⟩ := sysFork_eq h.sched hproc ht (not_not.1 hr)
    refine ⟨x.forked (childSched x.sched t k) t, ?_, SchedOk.childSched h.sched ht k,
      h.family.childSched h.sched ht hk, h.history.forked h.family h.sched ht hk⟩
    change (sysFork x.sched t >>= _) = _
    rw [hrun]
    rfl
  | exit status =>
    obtain ⟨s', hrun, hok, hf, hexit⟩ := sysExit_ok h.sched h.family ha hr status
    refine ⟨x.exited s' status, ?_, hok, hf, h.history.exit h.family h.sched hexit⟩
    change (sysExit x.sched status >>= _) = _
    rw [hrun]
    rfl
  | wait => exact h.wait ha
  | other c =>
    obtain ⟨s', hrun, hok, -, -, hlife⟩ := h.sched.exec ha.1 hr
    have hs := hlife ha.2
    refine ⟨{ x with sched := s' }, ?_, hok, h.family.sameLife hs, h.history.sameLife hs⟩
    change (c.exec x.sched >>= _) = _
    rw [hrun]
    rfl

theorem ProcAct.exec_of_refused (h : ProcOk x init) {a : ProcAct} (hr : a.Refused x init) :
    a.exec x ≠ .ok x' := by
  intro hrun
  cases a with
  | fork t =>
    obtain ⟨_, hfork, _⟩ := bind_eq_ok.1 hrun
    exact hr (pidFree_of_sysFork hfork)
  | exit status =>
    obtain ⟨_, hexit, _⟩ := bind_eq_ok.1 hrun
    rw [sysExit_init h.family hr] at hexit
    cases hexit
  | wait => exact hr
  | other c =>
    obtain ⟨_, hcall, _⟩ := bind_eq_ok.1 hrun
    rw [c.exec_of_refused hr] at hcall
    cases hcall

theorem ProcOk.step (h : ProcOk x init) (hstep : ProcStep x x') : ProcOk x' init := by
  obtain ⟨a, ha, hrun⟩ := hstep
  by_cases hr : a.Refused x init
  · exact absurd hrun (a.exec_of_refused h hr)
  · obtain ⟨x₁, hrun₁, hok⟩ := h.exec ha hr
    rw [hrun₁] at hrun
    exact Except.ok.inj hrun ▸ hok

/-! ### The start -/

section Start

variable {idle : ℕ}

/-- At the start no task has a parent, and none hangs or waits. -/
theorem started_alone (h : BootPages s init idle)
    (ht : t ∈ (s.started init idle).threadAllList) :
    ((s.started init idle).tasks t).parentPid = none ∧
      (s.started init idle).status t ≠ .hanging ∧ (s.started init idle).status t ≠ .waiting := by
  obtain ⟨hi, hc, hd⟩ := h.tasks_started
  unfold Sched.status
  rcases (mem_started s init idle t).1 ht with rfl | rfl | rfl
  · rw [hi]; decide
  · rw [hc]; decide
  · rw [hd]; decide

theorem BootPages.familyOk (h : BootPages s init idle) : FamilyOk (s.started init idle) init := by
  obtain ⟨hi, hc, hd⟩ := h.tasks_started
  have hmem := mem_started s init idle
  have hbit : ∀ i, (s.started init idle).pidBitmap.bit i = decide (i < 3) := fun i => by
    change ((((⟨128, fun _ => false⟩ : Bitmap).set 0 true).set 1 true).set 2 true).bit i = _
    simp only [Bitmap.set_bit]
    split_ifs <;> simp <;> omega
  constructor
  case bitLen => rfl
  case pid_bit =>
    intro t ht
    rcases (hmem t).1 ht with rfl | rfl | rfl
    · rw [hi, hbit]; decide
    · rw [hc, hbit]; decide
    · rw [hd, hbit]; decide
  case pid_inj =>
    intro t ht u hu
    rcases (hmem t).1 ht with rfl | rfl | rfl <;> rcases (hmem u).1 hu with rfl | rfl | rfl <;>
      simp [hi, hc, hd]
  case bit_pid =>
    intro i _ hset
    rw [hbit, decide_eq_true_eq] at hset
    obtain rfl | rfl | rfl : i = 0 ∨ i = 1 ∨ i = 2 := by omega
    · exact ⟨init, (hmem _).2 (Or.inl rfl), by rw [hi]⟩
    · exact ⟨s.cur, (hmem _).2 (Or.inr (Or.inl rfl)), by rw [hc]⟩
    · exact ⟨idle, (hmem _).2 (Or.inr (Or.inr rfl)), by rw [hd]⟩
  case init_mem => exact (hmem _).2 (Or.inl rfl)
  case init_pid => rw [hi]
  case init_parent => rw [hi]
  case main_parent => exact congrArg TaskStruct.parentPid hc
  case idle_pgdir => exact congrArg TaskStruct.pgdir hd
  case parent =>
    intro t ht hproc hne
    rcases (hmem t).1 ht with rfl | rfl | rfl
    · exact absurd rfl hne
    · rw [hc] at hproc
      cases hproc
    · rw [hd] at hproc
      cases hproc
  case parent_mem =>
    intro t ht p hp
    rw [(started_alone h ht).1] at hp
    cases hp
  case hanging_parent =>
    exact fun t ht hhang => absurd hhang (started_alone h ht).2.1
  case hanging_childless =>
    exact fun t ht hhang => absurd hhang (started_alone h ht).2.1
  case waiting => exact fun t ht _ hwait => absurd hwait (started_alone h ht).2.2

theorem BootPages.historyOk (h : BootPages s init idle) :
    HistoryOk (ProcSys.start (s.started init idle) init idle) init := by
  have hser : ∀ t, (ProcSys.start (s.started init idle) init idle).serial t =
      if t = init then 0 else if t = idle then 2 else 1 := fun t => rfl
  have hall := fun t => (mem_started s init idle t).1
  constructor
  case serial_lt =>
    intro t _
    rw [hser]
    change _ < 3
    split_ifs <;> decide
  case serial_inj =>
    intro t ht u hu
    have h1 := h.init_cur
    have h2 := h.idle_cur
    have h3 := h.idle_init
    rw [hser, hser]
    rcases hall t ht with rfl | rfl | rfl <;> rcases hall u hu with rfl | rfl | rfl <;>
      simp [h1, h1.symm, h2, h2.symm, h3, h3.symm]
  case serial_init => exact if_pos rfl
  case parent =>
    intro t ht u _ hp
    exact absurd (hp.symm.trans (started_alone h ht).1) (Option.some_ne_none _)
  case exits_lt => exact nofun
  case exits_nodup => exact List.nodup_nil
  case exited => exact fun _ _ _ he => absurd he List.not_mem_nil
  case hanging => exact fun t ht hhang => absurd hhang (started_alone h ht).2.1
  case reaps_nodup => exact List.nodup_nil
  case reaped_gone => exact fun _ hr => absurd hr List.not_mem_nil
  case reaped => exact fun _ hr => absurd hr List.not_mem_nil

end Start

/-- The protocol of `fork`, `exit` and `wait`. -/
structure WaitExit (x : ProcSys) (init : ℕ) : Prop where
  pids_distinct : ∀ t ∈ x.sched.threadAllList, ∀ u ∈ x.sched.threadAllList,
    (x.sched.tasks t).pid = (x.sched.tasks u).pid → t = u
  /-- The parent of every process but `init` is there, and `pid2thread` finds it. -/
  parent : ∀ t ∈ x.sched.threadAllList, (x.sched.tasks t).pgdir = true → t ≠ init →
    ∃ u ∈ x.sched.threadAllList, (x.sched.tasks t).parentPid = some (x.sched.tasks u).pid ∧
      pid2thread x.sched (x.sched.tasks t).parentPid = some u
  waiting : ∀ t ∈ x.sched.threadAllList, t ≠ init → x.sched.status t = .waiting →
    ∀ u ∈ x.sched.threadAllList,
      (x.sched.tasks u).parentPid = some (x.sched.tasks t).pid → x.sched.status u ≠ .hanging
  exits_once : (x.exits.map Prod.fst).Nodup
  reaped_once : (x.reaps.map Reap.child).Nodup
  reaped_by_parent : ∀ r ∈ x.reaps, r.waiter = r.parent
  reaped_status : ∀ r ∈ x.reaps, ∃ status, (r.child, status) ∈ x.exits ∧
    r.status = status.bmod 256
  /-- `-1` means that there is no child. -/
  noChild : ∀ s', sysWait x.sched = .ok (.noChild, s') → ∀ u ∈ x.sched.threadAllList,
    (x.sched.tasks u).parentPid ≠ some (x.sched.tasks x.sched.cur).pid
  /-- The calls go through. -/
  fork_ok : ∀ t, (ProcAct.fork t).Enabled x → x.sched.threadAllList.length < 1024 →
    ∃ x', (ProcAct.fork t).exec x = .ok x'
  exit_ok : ∀ status, (ProcAct.exit status).Enabled x → x.sched.cur ≠ init →
    ∃ x', (ProcAct.exit status).exec x = .ok x'
  wait_ok : ProcAct.wait.Enabled x → ∃ x', ProcAct.wait.exec x = .ok x'

theorem sysWait_noChild (h : sysWait s = .ok (.noChild, s')) (ht : t ∈ s.threadAllList) :
    (s.tasks t).parentPid ≠ some (s.tasks s.cur).pid := by
  unfold sysWait at h
  split at h
  · cases h
  · split at h
    · next hfind => exact findChild_none hfind ht
    · obtain ⟨_, _, h⟩ := bind_eq_ok.1 h
      cases h

theorem ProcOk.waitExit (h : ProcOk x init) : WaitExit x init where
  pids_distinct := h.family.pid_inj
  parent t ht hproc hne := by
    obtain ⟨u, hu, hpid, hfind⟩ := h.family.pid2thread ht (h.family.parent t ht hproc hne)
    exact ⟨u, hu, hpid.symm, hfind⟩
  waiting := h.family.waiting
  exits_once := h.history.exits_nodup
  reaped_once := h.history.reaps_nodup
  reaped_by_parent r hr := (h.history.reaped r hr).1
  reaped_status r hr := (h.history.reaped r hr).2
  noChild _ hwait _ hu := sysWait_noChild hwait hu
  fork_ok t ha hlen := by
    obtain ⟨x', hrun, -⟩ := h.exec ha (not_not.2 (h.family.pidFree hlen))
    exact ⟨x', hrun⟩
  exit_ok status ha hne := by
    obtain ⟨x', hrun, -⟩ := h.exec ha hne
    exact ⟨x', hrun⟩
  wait_ok ha := by
    obtain ⟨x', hrun, -⟩ := h.exec ha id
    exact ⟨x', hrun⟩

/-- **The wait/exit protocol.** In every state that a run from `thread_init` reaches, the pids are
distinct and every process but `init` has its parent on the list, no process but `init` waits
beside a child that hangs, every process that exited is collected at most once, by its parent,
which gets the status reduced to a signed byte, and `sys_wait` returns `-1` only without a child. -/
theorem waitExit_of_run {init idle : ℕ} {s₀ s₁ : Sched} (hpages : BootPages s₀ init idle)
    (hw : ∀ i, (s₀.semas i).waiters = []) (hinit : s₀.threadInit init idle = .ok s₁)
    (hrun : Relation.ReflTransGen ProcStep (ProcSys.start s₁ init idle) x) :
    WaitExit x init := by
  rw [hpages.threadInit] at hinit
  obtain rfl := Except.ok.inj hinit
  have hok : ProcOk x init := reach_invariant (I := fun x => ProcOk x init) hrun
    ⟨hpages.schedOk hw, BootPages.familyOk hpages, BootPages.historyOk hpages⟩
    fun h hstep => h.step hstep
  exact hok.waitExit

/-- A test that a step is one of the system. -/
def ProcAct.checked (x : ProcSys) : ProcAct → Bool
  | .fork t => (x.sched.tasks x.sched.cur).pgdir ∧ t ∉ x.sched.threadAllList
  | .exit _ => (x.sched.tasks x.sched.cur).pgdir
  | .wait => (x.sched.tasks x.sched.cur).pgdir
  | .other .threadYield => x.sched.cur ≠ x.sched.idleThread
  | .other (.threadBlock .blocked) => true
  | .other _ => false

theorem ProcAct.enabled_of_checked {a : ProcAct} (h : a.checked x = true) : a.Enabled x := by
  unfold ProcAct.checked at h
  split at h
  · have h := of_decide_eq_true h
    exact h
  · exact h
  · exact h
  · have h := of_decide_eq_true h
    exact ⟨h, trivial⟩
  · exact ⟨⟨Or.inl rfl, fun _ => rfl⟩, rfl⟩
  · cases h

/-- `init` forks a child and waits; the child exits with 300, and `init` gets 44. -/
theorem waitExit_of_fork : ∃ s₁ x, bootSched.threadInit 2 3 = .ok s₁ ∧
    runAll ProcAct.checked ProcAct.exec (ProcSys.start s₁ 2 3)
      [.other .threadYield, .fork 4, .wait, .other (.threadBlock .blocked), .other .threadYield,
        .exit 300, .wait] = .ok x ∧
    x.reaps.map Reap.status = [44] ∧ WaitExit x 2 := by
  have hpages : BootPages bootSched 2 3 := ⟨by decide, by decide, by decide, by decide⟩
  obtain ⟨x, hrun, hx⟩ := exists_of_holds
    (o := runAll ProcAct.checked ProcAct.exec (ProcSys.start (bootSched.started 2 3) 2 3)
      [.other .threadYield, .fork 4, .wait, .other (.threadBlock .blocked), .other .threadYield,
        .exit 300, .wait])
    (f := fun x => x.reaps.map Reap.status = [44]) (by decide +kernel)
  have hreach : Relation.ReflTransGen ProcStep (ProcSys.start (bootSched.started 2 3) 2 3) x :=
    reach_of_runAll (fun {_ _ a} hc hexec => ⟨a, a.enabled_of_checked hc, hexec⟩) hrun
  exact ⟨_, x, hpages.threadInit, hrun, of_decide_eq_true hx,
    waitExit_of_run hpages (fun _ => rfl) hpages.threadInit hreach⟩

end Gardos.Userprog
