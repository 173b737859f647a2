import Gardos.Kernel.Bitmap
import Mathlib.Data.List.Nodup

/-!
# Threads, the scheduler and semaphores (`thread/thread.c`, `thread/sync.c`, `device/timer.c`)

A task is known by the address of its `task_struct`. The lists `thread_ready_list`,
`thread_all_list` and the `waiters` of a semaphore are linked through nodes inside the
`task_struct`s; here they are lists of addresses. One node, `general_tag`, serves the ready list
and all waiters lists, so a task must be on at most one of them at a time (`Gardos.Thread.Queues`
shows that it is).

A function that gives up the processor ends, in the model, with the switch to the next thread:
`cur` is then another thread, and what the caller does when it is scheduled again is a step of its
own. So `semaDown` is one round of the loop of `sema_down`, from the test to the switch or to
the end.
-/

namespace Gardos.Thread

open Outcome

/-- `enum task_status`. -/
inductive TaskStatus
  | running
  | ready
  | blocked
  | waiting
  | hanging
  | died
  deriving DecidableEq, Repr

/-- The states in which a thread does not get the processor: the ones `thread_block` accepts. -/
def TaskStatus.Stopped (st : TaskStatus) : Prop := st = .blocked ∨ st = .waiting ∨ st = .hanging

instance (st : TaskStatus) : Decidable st.Stopped :=
  inferInstanceAs (Decidable (_ ∨ _))

/-- The fields of `struct task_struct` that scheduling and the life of a process depend on. -/
structure TaskStruct where
  pid : ℕ
  status : TaskStatus
  priority : ℕ
  ticks : ℕ
  elapsedTicks : ℕ
  /-- `pgdir` is not `NULL`: the task is a user process. -/
  pgdir : Bool
  /-- `none` is `-1`. -/
  parentPid : Option ℕ
  exitStatus : ℤ

/-- `struct semaphore`. -/
structure Semaphore where
  value : ℕ
  waiters : List ℕ

/-- The globals of `thread.c`, the semaphores of the system, and the thread on the processor. -/
structure Sched where
  tasks : ℕ → TaskStruct
  threadAllList : List ℕ
  threadReadyList : List ℕ
  /-- `running_thread()`: the page that the stack pointer is in. -/
  cur : ℕ
  mainThread : ℕ
  idleThread : ℕ
  pidBitmap : Bitmap
  semas : ℕ → Semaphore
  /-- The clock ticks since the start. -/
  ticks : ℕ

namespace Sched

def status (s : Sched) (t : ℕ) : TaskStatus := (s.tasks t).status

def setTask (s : Sched) (t : ℕ) (task : TaskStruct) : Sched :=
  { s with tasks := Function.update s.tasks t task }

def setStatus (s : Sched) (t : ℕ) (st : TaskStatus) : Sched :=
  s.setTask t { s.tasks t with status := st }

def setSema (s : Sched) (i : ℕ) (sema : Semaphore) : Sched :=
  { s with semas := Function.update s.semas i sema }

/-! ## Scheduling -/

/-- `thread_unblock`: the thread goes to the front of the ready list. -/
def threadUnblock (s : Sched) (t : ℕ) : Outcome Sched := do
  assert (s.status t).Stopped
  if s.status t ≠ .ready then
    assert (t ∉ s.threadReadyList)
    return { s.setStatus t .ready with threadReadyList := t :: s.threadReadyList }
  return s

/-- The first part of `schedule`: a thread that has only used up its time slice goes to the end
of the ready list. -/
def requeue (s : Sched) : Outcome Sched :=
  if s.status s.cur = .running then do
    assert (s.cur ∉ s.threadReadyList)
    return { s.setTask s.cur
        { s.tasks s.cur with ticks := (s.tasks s.cur).priority, status := .ready } with
      threadReadyList := s.threadReadyList ++ [s.cur] }
  else
    pure s

/-- The last part of `schedule`: the first thread of the ready list gets the processor. -/
def switchTo (s : Sched) : Outcome Sched :=
  match s.threadReadyList with
  | [] => throw .assert
  | next :: rest => pure { s.setStatus next .running with threadReadyList := rest, cur := next }

/-- `schedule`. -/
def schedule (s : Sched) : Outcome Sched := do
  let s ← s.requeue
  let s ← if s.threadReadyList = [] then s.threadUnblock s.idleThread else pure s
  s.switchTo

/-- `thread_block`. -/
def threadBlock (s : Sched) (stat : TaskStatus) : Outcome Sched := do
  assert stat.Stopped
  (s.setStatus s.cur stat).schedule

/-- `thread_yield`. -/
def threadYield (s : Sched) : Outcome Sched := do
  assert (s.cur ∉ s.threadReadyList)
  schedule { s.setStatus s.cur .ready with threadReadyList := s.threadReadyList ++ [s.cur] }

/-- The counters that `intr_timer_handler` moves on first. -/
def countTick (s : Sched) : Sched :=
  { s.setTask s.cur
      { s.tasks s.cur with elapsedTicks := ((s.tasks s.cur).elapsedTicks + 1) % 2 ^ 32 } with
    ticks := (s.ticks + 1) % 2 ^ 32 }

/-- `intr_timer_handler`. -/
def intrTimerHandler (s : Sched) : Outcome Sched :=
  if (s.tasks s.cur).ticks = 0 then s.countTick.schedule
  else pure (s.countTick.setTask s.cur
    { s.countTick.tasks s.cur with ticks := (s.tasks s.cur).ticks - 1 })

/-! ## Semaphores -/

/-- One round of the loop of `sema_down`: `true` if the semaphore was taken, `false` if the
caller went to sleep among the waiters. A thread that is woken up there runs another round. -/
def semaDown (s : Sched) (i : ℕ) : Outcome (Bool × Sched) :=
  if (s.semas i).value = 0 then do
    assert (s.cur ∉ (s.semas i).waiters)
    let s ← (s.setSema i
      { s.semas i with waiters := (s.semas i).waiters ++ [s.cur] }).threadBlock .blocked
    return (false, s)
  else do
    assert ((s.semas i).value - 1 = 0)
    return (true, s.setSema i { s.semas i with value := (s.semas i).value - 1 })

/-- `sema_up` pops the first waiter, if there is one. -/
def popWaiter (s : Sched) (i : ℕ) : Outcome Sched :=
  match (s.semas i).waiters with
  | [] => pure s
  | t :: rest => (s.setSema i { s.semas i with waiters := rest }).threadUnblock t

/-- `sema_up`. -/
def semaUp (s : Sched) (i : ℕ) : Outcome Sched := do
  assert ((s.semas i).value = 0)
  let s ← s.popWaiter i
  assert ((s.semas i).value + 1 = 1)
  return s.setSema i { s.semas i with value := (s.semas i).value + 1 }

/-! ## The life of a thread -/

/-- `allocate_pid`. -/
def allocatePid (s : Sched) : Outcome (ℕ × Sched) := do
  match ← bitmapScan false s.pidBitmap 1 with
  | some i => return (i + 1, { s with pidBitmap := s.pidBitmap.set i true })
  -- `bitmap_set` far outside the bitmap
  | none => throw .fault

/-- `release_pid`. -/
def releasePid (s : Sched) (pid : ℕ) : Sched :=
  { s with pidBitmap := s.pidBitmap.set (pid - 1) false }

/-- `init_thread`. -/
def initThread (s : Sched) (t prio : ℕ) : Outcome Sched := do
  let (pid, s) ← s.allocatePid
  return s.setTask t {
    pid := pid
    status := if t = s.mainThread then .running else .ready
    priority := prio % 256
    ticks := prio % 256
    elapsedTicks := 0
    pgdir := false
    parentPid := none
    exitStatus := 0 }

/-- A new task is put on the ready list and on the list of all tasks. -/
def enlist (s : Sched) (t : ℕ) : Outcome Sched := do
  assert (t ∉ s.threadReadyList)
  assert (t ∉ s.threadAllList)
  return { s with
    threadReadyList := s.threadReadyList ++ [t]
    threadAllList := s.threadAllList ++ [t] }

/-- `thread_start` with the page `t` for the `task_struct`. -/
def threadStart (s : Sched) (t prio : ℕ) : Outcome Sched := do
  let s ← s.initThread t prio
  s.enlist t

/-- `process_execute` with the page `t` for the `task_struct`; `31` is `default_prio`. -/
def processExecute (s : Sched) (t : ℕ) : Outcome Sched := do
  let s ← s.initThread t 31
  (s.setTask t { s.tasks t with pgdir := true }).enlist t

/-- `make_main_thread`. -/
def makeMainThread (s : Sched) : Outcome Sched := do
  let s ← { s with mainThread := s.cur }.initThread s.cur 31
  assert (s.cur ∉ s.threadAllList)
  return { s with threadAllList := s.threadAllList ++ [s.cur] }

/-- `thread_init`, with the pages for the `task_struct`s of `init` and of the idle thread. -/
def threadInit (s : Sched) (init idle : ℕ) : Outcome Sched := do
  let s := { s with
    threadReadyList := []
    threadAllList := []
    mainThread := 0
    -- `pid_pool_init`
    pidBitmap := ⟨128, fun _ => false⟩ }
  let s ← s.processExecute init
  let s ← s.makeMainThread
  let s ← s.threadStart idle 10
  return { s with idleThread := idle }

end Sched

end Gardos.Thread
