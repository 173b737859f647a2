import Gardos.Thread.Queues

/-!
# `fork`, `exit` and `wait` (`userprog/fork.c`, `userprog/wait_exit.c`)

What the three calls do to the tasks and their lists. `sys_fork`, `sys_exit` and a round of the loop
of `sys_wait` run with interrupts off, so each is one step. The memory and the files that they
copy and release are not part of this model; `thread_exit` reads the pid of the task when its page
is free already, and gets what was there.
-/

namespace Gardos.Userprog

open Outcome Thread

/-- `pid2thread`; `none` is `-1` as a pid and `NULL` as a result. -/
def pid2thread (s : Sched) (pid : Option ℕ) : Option ℕ :=
  s.threadAllList.find? fun t => some (s.tasks t).pid = pid

/-- `find_child` over the list of all tasks. -/
def findChild (s : Sched) (ppid : ℕ) : Option ℕ :=
  s.threadAllList.find? fun t => (s.tasks t).parentPid = some ppid

/-- `find_hanging_child` over the list of all tasks. -/
def findHangingChild (s : Sched) (ppid : ℕ) : Option ℕ :=
  s.threadAllList.find? fun t => (s.tasks t).parentPid = some ppid ∧ s.status t = .hanging

/-- `init_adopt_a_child` over the list of all tasks. -/
def initAdopt (s : Sched) (pid : ℕ) : Sched :=
  { s with tasks := fun t =>
      if t ∈ s.threadAllList ∧ (s.tasks t).parentPid = some pid then
        { s.tasks t with parentPid := some 1 }
      else s.tasks t }

/-- `thread_exit` on a task that does not run. -/
def threadExit (s : Sched) (t : ℕ) : Sched :=
  { s.setStatus t .died with
    threadReadyList := s.threadReadyList.erase t
    threadAllList := s.threadAllList.erase t }.releasePid (s.tasks t).pid

/-- `sys_fork`, with the page `t` for the child's `task_struct`. -/
def sysFork (s : Sched) (t : ℕ) : Outcome (ℕ × Sched) := do
  assert ((s.tasks s.cur).pgdir = true)
  let (pid, s) ← s.allocatePid
  let s ← (s.setTask t
    { s.tasks s.cur with
      pid := pid
      elapsedTicks := 0
      status := .ready
      ticks := (s.tasks s.cur).priority
      parentPid := some (s.tasks s.cur).pid }).enlist t
  return (pid, s)

/-- `sys_exit` wakes up a parent that waits. -/
def wakeWaiting (s : Sched) (parent : ℕ) : Outcome Sched :=
  if s.status parent = .waiting then s.threadUnblock parent else pure s

/-- The part of `sys_exit` that wakes up the parent and hangs the caller. -/
def hang (s : Sched) : Outcome Sched :=
  match pid2thread s (s.tasks s.cur).parentPid with
  | none => throw .fault
  | some parent => do
    let s ← wakeWaiting s parent
    s.threadBlock .hanging

/-- The running process notes its exit status, a signed byte. -/
def setExitStatus (s : Sched) (status : ℤ) : Sched :=
  s.setTask s.cur { s.tasks s.cur with exitStatus := status.bmod 256 }

/-- `sys_exit`. -/
def sysExit (s : Sched) (status : ℤ) : Outcome Sched := do
  let s := setExitStatus s status
  -- `PANIC`
  assert ((s.tasks s.cur).parentPid ≠ none)
  hang (initAdopt s (s.tasks s.cur).pid)

/-- How a round of `sys_wait` ends. -/
inductive WaitResult
  /-- The child on page `t` is gone; its pid and its exit status are returned. -/
  | reaped (t pid : ℕ) (status : ℤ)
  /-- `-1` is returned. -/
  | noChild
  /-- The caller sleeps, and goes round again when it is woken up. -/
  | asleep
  deriving DecidableEq

/-- A round of the loop of `sys_wait`. -/
def sysWait (s : Sched) : Outcome (WaitResult × Sched) :=
  match findHangingChild s (s.tasks s.cur).pid with
  | some t => pure (.reaped t (s.tasks t).pid (s.tasks t).exitStatus, threadExit s t)
  | none =>
    match findChild s (s.tasks s.cur).pid with
    | none => pure (.noChild, s)
    | some _ => do
      let s ← s.threadBlock .waiting
      return (.asleep, s)

end Gardos.Userprog
