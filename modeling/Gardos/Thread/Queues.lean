import Gardos.Foundations.Outcome
import Gardos.Thread.Scheduler

/-!
# The scheduler's queues

`SchedOk` says how the lists and the states of the threads belong together between two steps: one
thread runs, the ready list holds the ready threads, and a thread that waits for a semaphore is
blocked and on one waiters list only. Inside `schedule` no thread runs; that is `Parked`.

* `Parked.schedule`: from there `schedule` comes to its end, with a thread running again.
* `SchedOk.exec`: what each call of the scheduler does to the invariant.
* `queueInvariant_of_run`: the invariant in every run from `thread_init` on, in which none of the
  scheduler's assertions fails.
-/

namespace Gardos.Thread

open Outcome Sched Function

variable {s s' : Sched} {t i : ℕ} {st stat : TaskStatus} {s'' : Sched} {task : TaskStruct}
  {c : SchedCall} {init idle : ℕ}

@[simp] theorem Sched.status_setStatus (s : Sched) (t u : ℕ) (st : TaskStatus) :
    (s.setStatus t st).status u = if u = t then st else s.status u := by
  unfold Sched.status setStatus setTask
  dsimp only
  by_cases h : u = t
  · rw [h, update_self, if_pos rfl]
  · rw [update_of_ne h, if_neg h]

theorem Sched.semas_setSema (s : Sched) (i j : ℕ) (sema : Semaphore) :
    (s.setSema i sema).semas j = if j = i then sema else s.semas j :=
  update_apply ..

theorem nodup_append_singleton {l : List ℕ} (h : l.Nodup) (ht : t ∉ l) : (l ++ [t]).Nodup :=
  List.concat_eq_append ▸ h.concat ht

/-- The lists and the states of the threads belong together, whichever thread runs. -/
structure Queues (s : Sched) : Prop where
  all_nodup : s.threadAllList.Nodup
  ready_iff : ∀ t, t ∈ s.threadReadyList ↔ t ∈ s.threadAllList ∧ s.status t = .ready
  ready_nodup : s.threadReadyList.Nodup
  waiter : ∀ i, ∀ t ∈ (s.semas i).waiters, t ∈ s.threadAllList ∧ s.status t = .blocked
  waiters_nodup : ∀ i, (s.semas i).waiters.Nodup
  waiters_disjoint : ∀ i j t, t ∈ (s.semas i).waiters → t ∈ (s.semas j).waiters → i = j
  cur_mem : s.cur ∈ s.threadAllList
  main_mem : s.mainThread ∈ s.threadAllList
  idle_mem : s.idleThread ∈ s.threadAllList
  idle_awake : ∀ i, s.idleThread ∉ (s.semas i).waiters
  idle_status : s.status s.idleThread = .running ∨ s.status s.idleThread = .ready ∨
    s.status s.idleThread = .blocked

/-- Between two steps: the lists are in order and exactly the current thread runs. -/
structure SchedOk (s : Sched) : Prop extends Queues s where
  running_iff : ∀ t ∈ s.threadAllList, s.status t = .running ↔ t = s.cur

/-- Inside `schedule`: the lists are in order and no thread runs. -/
structure Parked (s : Sched) : Prop extends Queues s where
  not_running : ∀ t ∈ s.threadAllList, s.status t ≠ .running

/-- What the life of a process depends on stays as it is: threads only move between running, ready
and blocked. -/
structure SameLife (s s' : Sched) : Prop where
  all : s'.threadAllList = s.threadAllList
  idle : s'.idleThread = s.idleThread
  main : s'.mainThread = s.mainThread
  pids : s'.pidBitmap = s.pidBitmap
  fields : ∀ t, (s'.tasks t).pid = (s.tasks t).pid ∧ (s'.tasks t).pgdir = (s.tasks t).pgdir ∧
    (s'.tasks t).parentPid = (s.tasks t).parentPid ∧
    (s'.tasks t).exitStatus = (s.tasks t).exitStatus
  waiting : ∀ t, s'.status t = .waiting ↔ s.status t = .waiting
  hanging : ∀ t, s'.status t = .hanging ↔ s.status t = .hanging

/-- What the scheduler leaves alone when it passes the processor on. -/
structure Switched (s s' : Sched) : Prop extends SameLife s s' where
  semas : s'.semas = s.semas

theorem SameLife.trans (h : SameLife s s') (h' : SameLife s' s'') :
    SameLife s s'' where
  all := h'.all.trans h.all
  idle := h'.idle.trans h.idle
  main := h'.main.trans h.main
  pids := h'.pids.trans h.pids
  fields t := by
    obtain ⟨h1, h2, h3, h4⟩ := h.fields t
    obtain ⟨h1', h2', h3', h4'⟩ := h'.fields t
    exact ⟨h1'.trans h1, h2'.trans h2, h3'.trans h3, h4'.trans h4⟩
  waiting t := (h'.waiting t).trans (h.waiting t)
  hanging t := (h'.hanging t).trans (h.hanging t)

theorem Switched.trans (h : Switched s s') (h' : Switched s' s'') :
    Switched s s'' where
  toSameLife := h.toSameLife.trans h'.toSameLife
  semas := h'.semas.trans h.semas

/-- One task gets another state and another time slice. -/
theorem SameLife.of_task (htasks : s'.tasks = update s.tasks t task)
    (hall : s'.threadAllList = s.threadAllList) (hidle : s'.idleThread = s.idleThread)
    (hmain : s'.mainThread = s.mainThread) (hpids : s'.pidBitmap = s.pidBitmap)
    (hfields : task.pid = (s.tasks t).pid ∧ task.pgdir = (s.tasks t).pgdir ∧
      task.parentPid = (s.tasks t).parentPid ∧ task.exitStatus = (s.tasks t).exitStatus)
    (hold : s.status t = .running ∨ s.status t = .ready ∨ s.status t = .blocked)
    (hnew : task.status = .running ∨ task.status = .ready ∨ task.status = .blocked) :
    SameLife s s' := by
  have hstatus : ∀ u, s'.status u = if u = t then task.status else s.status u := fun u => by
    unfold Sched.status
    rw [htasks, update_apply]
    split <;> rfl
  have hiff : ∀ st : TaskStatus, st = .waiting ∨ st = .hanging →
      ∀ u, s'.status u = st ↔ s.status u = st := by
    intro st hst u
    rw [hstatus]
    split
    · next h =>
      rw [h]
      refine iff_of_false ?_ ?_
      · rcases hnew with h' | h' | h' <;> rw [h'] <;> rcases hst with rfl | rfl <;> decide
      · rcases hold with h' | h' | h' <;> rw [h'] <;> rcases hst with rfl | rfl <;> decide
    · exact Iff.rfl
  refine ⟨hall, hidle, hmain, hpids, fun u => ?_, hiff .waiting (Or.inl rfl),
    hiff .hanging (Or.inr rfl)⟩
  rw [htasks, update_apply]
  split
  · next h => rw [h]; exact hfields
  · exact ⟨rfl, rfl, rfl, rfl⟩

/-- One thread gets another state and is put on the list that belongs to it. -/
theorem Queues.move (h : Queues s) (ht : t ∈ s.threadAllList)
    (htasks : s'.tasks = update s.tasks t task) (hall : s'.threadAllList = s.threadAllList)
    (hidle : s'.idleThread = s.idleThread) (hmain : s'.mainThread = s.mainThread)
    (hcur : s'.cur ∈ s.threadAllList)
    (hready : ∀ u, u ≠ t → (u ∈ s'.threadReadyList ↔ u ∈ s.threadReadyList))
    (hreadyt : t ∈ s'.threadReadyList ↔ task.status = .ready) (hnodup : s'.threadReadyList.Nodup)
    (hwait : ∀ i, ∀ u, u ≠ t → u ∈ (s'.semas i).waiters → u ∈ (s.semas i).waiters)
    (hwaitt : ∀ i, t ∈ (s'.semas i).waiters → task.status = .blocked ∧ t ≠ s.idleThread)
    (hwaits : ∀ i j, t ∈ (s'.semas i).waiters → t ∈ (s'.semas j).waiters → i = j)
    (hwnodup : ∀ i, (s'.semas i).waiters.Nodup)
    (hidlet : t = s.idleThread → task.status = .running ∨ task.status = .ready ∨
      task.status = .blocked) : Queues s' := by
  have hself : s'.status t = task.status := by
    unfold Sched.status
    rw [htasks, update_self]
  have hother : ∀ u, u ≠ t → s'.status u = s.status u := fun u hu => by
    unfold Sched.status
    rw [htasks, update_of_ne hu]
  constructor
  case all_nodup => rw [hall]; exact h.all_nodup
  case ready_iff =>
    intro u
    rw [hall]
    by_cases hu : u = t
    · rw [hu, hreadyt, hself]
      exact ⟨fun hs => ⟨ht, hs⟩, fun hs => hs.2⟩
    · rw [hready u hu, hother u hu]
      exact h.ready_iff u
  case ready_nodup => exact hnodup
  case waiter =>
    intro i u hu
    rw [hall]
    by_cases hut : u = t
    · rw [hut, hself]
      exact ⟨ht, (hwaitt i (hut ▸ hu)).1⟩
    · rw [hother u hut]
      exact h.waiter i u (hwait i u hut hu)
  case waiters_nodup => exact hwnodup
  case waiters_disjoint =>
    intro i j u hi hj
    by_cases hut : u = t
    · exact hwaits i j (hut ▸ hi) (hut ▸ hj)
    · exact h.waiters_disjoint i j u (hwait i u hut hi) (hwait j u hut hj)
  case cur_mem => rw [hall]; exact hcur
  case main_mem => rw [hall, hmain]; exact h.main_mem
  case idle_mem => rw [hall, hidle]; exact h.idle_mem
  case idle_awake =>
    intro i hi
    rw [hidle] at hi
    by_cases hit : s.idleThread = t
    · exact (hwaitt i (hit ▸ hi)).2 hit.symm
    · exact h.idle_awake i (hwait i _ hit hi)
  case idle_status =>
    rw [hidle]
    by_cases hit : s.idleThread = t
    · rw [hit, hself]
      exact hidlet hit.symm
    · rw [hother _ hit]
      exact h.idle_status

theorem Queues.not_mem_ready (h : Queues s) (ht : s.status t ≠ .ready) :
    t ∉ s.threadReadyList := fun hr => ht ((h.ready_iff t).1 hr).2

theorem Queues.not_mem_waiters (h : Queues s) (ht : s.status t ≠ .blocked) (i : ℕ) :
    t ∉ (s.semas i).waiters := fun hw => ht (h.waiter i t hw).2

theorem SchedOk.status_cur (h : SchedOk s) : s.status s.cur = .running :=
  (h.running_iff s.cur h.cur_mem).2 rfl

theorem SchedOk.cur_not_mem_ready (h : SchedOk s) : s.cur ∉ s.threadReadyList :=
  h.not_mem_ready (by rw [h.status_cur]; decide)

theorem SchedOk.cur_not_mem_waiters (h : SchedOk s) (i : ℕ) : s.cur ∉ (s.semas i).waiters :=
  h.not_mem_waiters (by rw [h.status_cur]; decide) i

theorem TaskStatus.Stopped.ne_ready (h : st.Stopped) : st ≠ .ready := by
  rcases h with rfl | rfl | rfl <;> decide

theorem TaskStatus.Stopped.ne_running (h : st.Stopped) : st ≠ .running := by
  rcases h with rfl | rfl | rfl <;> decide

/-! ## Waking up, switching and going to sleep -/

/-- The state after `thread_unblock`. -/
def Sched.woken (s : Sched) (t : ℕ) : Sched :=
  { s.setStatus t .ready with threadReadyList := t :: s.threadReadyList }

theorem Sched.status_woken (s : Sched) (t u : ℕ) :
    (s.woken t).status u = if u = t then .ready else s.status u :=
  s.status_setStatus t u .ready

theorem Sched.threadUnblock_eq (hst : (s.status t).Stopped) (hr : t ∉ s.threadReadyList) :
    s.threadUnblock t = .ok (s.woken t) := by
  unfold Sched.threadUnblock
  rw [assert, if_pos hst, ok_bind, if_pos hst.ne_ready, assert, if_pos hr, ok_bind]
  rfl

theorem Queues.threadUnblock (h : Queues s) (hst : (s.status t).Stopped) :
    s.threadUnblock t = .ok (s.woken t) :=
  threadUnblock_eq hst (h.not_mem_ready hst.ne_ready)

theorem Queues.woken (h : Queues s) (ht : t ∈ s.threadAllList) (hst : (s.status t).Stopped)
    (hw : ∀ i, t ∉ (s.semas i).waiters) : Queues (s.woken t) := by
  refine h.move ht rfl rfl rfl rfl h.cur_mem (fun u hu => ?_) ?_ ?_ (fun i u _ hu => hu)
    (fun i hi => absurd hi (hw i)) (fun i j hi _ => absurd hi (hw i)) h.waiters_nodup
    (fun _ => Or.inr (Or.inl rfl))
  · change u ∈ t :: s.threadReadyList ↔ _
    rw [List.mem_cons]
    exact or_iff_right hu
  · exact iff_of_true List.mem_cons_self rfl
  · exact List.nodup_cons.2 ⟨h.not_mem_ready hst.ne_ready, h.ready_nodup⟩

theorem SchedOk.woken (h : SchedOk s) (ht : t ∈ s.threadAllList) (hst : (s.status t).Stopped)
    (hw : ∀ i, t ∉ (s.semas i).waiters) : SchedOk (s.woken t) where
  toQueues := h.toQueues.woken ht hst hw
  running_iff u hu := by
    rw [s.status_woken]
    split
    · next hut =>
      refine iff_of_false (by decide) fun hcur => ?_
      have hcur : u = s.cur := hcur
      rw [← hut, hcur, h.status_cur] at hst
      exact hst.ne_running rfl
    · exact h.running_iff u hu

theorem Parked.woken (h : Parked s) (ht : t ∈ s.threadAllList) (hst : (s.status t).Stopped)
    (hw : ∀ i, t ∉ (s.semas i).waiters) : Parked (s.woken t) where
  toQueues := h.toQueues.woken ht hst hw
  not_running u hu := by
    rw [s.status_woken]
    split
    · decide
    · exact h.not_running u hu

/-- The last part of `schedule` puts the first ready thread on the processor. -/
theorem Parked.switchTo (h : Parked s) (hne : s.threadReadyList ≠ []) :
    ∃ s', s.switchTo = .ok s' ∧ SchedOk s' ∧ Switched s s' := by
  obtain ⟨next, rest, hl⟩ : ∃ next rest, s.threadReadyList = next :: rest :=
    List.exists_cons_of_ne_nil hne
  obtain ⟨hmem, hstatus⟩ := (h.ready_iff next).1 (by rw [hl]; exact List.mem_cons_self)
  have hnd := h.ready_nodup
  rw [hl, List.nodup_cons] at hnd
  have hw : ∀ i, next ∉ (s.semas i).waiters := h.not_mem_waiters (by rw [hstatus]; decide)
  refine ⟨{ s.setStatus next .running with threadReadyList := rest, cur := next },
    by unfold Sched.switchTo; rw [hl]; rfl, ⟨?_, fun u hu => ?_⟩, ?_⟩
  · refine h.toQueues.move hmem rfl rfl rfl rfl hmem (fun u hu => ?_) ?_ hnd.2 (fun i u _ hu => hu)
      (fun i hi => absurd hi (hw i)) (fun i j hi _ => absurd hi (hw i)) h.waiters_nodup
      (fun _ => Or.inl rfl)
    · rw [hl, List.mem_cons]
      exact (or_iff_right hu).symm
    · exact iff_of_false hnd.1 (fun hst => nomatch hst)
  · change (s.setStatus next .running).status u = .running ↔ u = next
    rw [status_setStatus]
    split
    · next hu => exact iff_of_true rfl hu
    · next hun => exact iff_of_false (h.not_running u hu) hun
  · exact ⟨.of_task rfl rfl rfl rfl rfl ⟨rfl, rfl, rfl, rfl⟩ (Or.inr (Or.inl hstatus))
      (Or.inl rfl), rfl⟩

/-- **`schedule` comes to its end** when the current thread has given up the processor: if no
thread is ready, the idle thread is blocked and can be woken up. -/
theorem Parked.schedule (h : Parked s) :
    ∃ s', s.schedule = .ok s' ∧ SchedOk s' ∧ Switched s s' := by
  have hreq : s.requeue = .ok s := by
    unfold Sched.requeue
    rw [if_neg (h.not_running _ h.cur_mem)]
    rfl
  unfold Sched.schedule
  rw [hreq, ok_bind]
  by_cases hl : s.threadReadyList = []
  · have hidle : s.status s.idleThread = .blocked := by
      rcases h.idle_status with hst | hst | hst
      · exact absurd hst (h.not_running _ h.idle_mem)
      · have := (h.ready_iff _).2 ⟨h.idle_mem, hst⟩
        rw [hl] at this
        cases this
      · exact hst
    have hst : (s.status s.idleThread).Stopped := Or.inl hidle
    obtain ⟨s', hrun, hok, hsw⟩ := (h.woken h.idle_mem hst h.idle_awake).switchTo
      (List.cons_ne_nil _ _)
    refine ⟨s', ?_, hok, Switched.trans ?_ hsw⟩
    · rw [if_pos hl, h.threadUnblock hst, ok_bind]
      exact hrun
    · exact ⟨.of_task rfl rfl rfl rfl rfl ⟨rfl, rfl, rfl, rfl⟩ (Or.inr (Or.inr hidle))
        (Or.inr (Or.inl rfl)), rfl⟩
  · obtain ⟨s', hrun, hok, hsw⟩ := h.switchTo hl
    refine ⟨s', ?_, hok, hsw⟩
    rw [if_neg hl]
    exact hrun

/-- The current thread goes to the end of the ready list. -/
theorem SchedOk.park_ready (h : SchedOk s) (htask : task.status = .ready) :
    Parked { s.setTask s.cur task with threadReadyList := s.threadReadyList ++ [s.cur] } := by
  have hw := h.cur_not_mem_waiters
  refine ⟨?_, fun u hu => ?_⟩
  · refine h.toQueues.move h.cur_mem rfl rfl rfl rfl h.cur_mem (fun u hu => ?_) ?_ ?_
      (fun i u _ hu => hu) (fun i hi => absurd hi (hw i)) (fun i j hi _ => absurd hi (hw i))
      h.waiters_nodup (fun _ => Or.inr (Or.inl htask))
    · change u ∈ s.threadReadyList ++ [s.cur] ↔ _
      rw [List.mem_append, List.mem_singleton]
      exact or_iff_left hu
    · exact iff_of_true (List.mem_append_right _ List.mem_cons_self) htask
    · exact nodup_append_singleton h.ready_nodup h.cur_not_mem_ready
  · change ((update s.tasks s.cur task) u).status ≠ _
    rw [update_apply]
    split
    · rw [htask]
      decide
    · next huc => exact fun hrun => huc ((h.running_iff u hu).1 hrun)

/-- The current thread stops. -/
theorem SchedOk.park_stopped (h : SchedOk s) (hst : stat.Stopped)
    (hidle : s.cur = s.idleThread → stat = .blocked) : Parked (s.setStatus s.cur stat) := by
  have hw := h.cur_not_mem_waiters
  refine ⟨?_, fun u hu => ?_⟩
  · exact h.toQueues.move h.cur_mem rfl rfl rfl rfl h.cur_mem (fun u _ => Iff.rfl)
      (iff_of_false h.cur_not_mem_ready hst.ne_ready) h.ready_nodup (fun i u _ hu => hu)
      (fun i hi => absurd hi (hw i)) (fun i j hi _ => absurd hi (hw i)) h.waiters_nodup
      (fun hc => Or.inr (Or.inr (hidle hc)))
  · rw [status_setStatus]
    split
    · exact hst.ne_running
    · next huc => exact fun hrun => huc ((h.running_iff u hu).1 hrun)

/-- The state in which a thread that found the semaphore `i` taken calls `schedule`. -/
def Sched.queued (s : Sched) (i : ℕ) : Sched :=
  (s.setSema i { s.semas i with waiters := (s.semas i).waiters ++ [s.cur] }).setStatus s.cur
    .blocked

theorem Sched.semas_queued (s : Sched) (i j : ℕ) : (s.queued i).semas j =
    if j = i then { s.semas i with waiters := (s.semas i).waiters ++ [s.cur] } else s.semas j :=
  s.semas_setSema i j _

/-- The current thread stops among the waiters of a semaphore. -/
theorem SchedOk.park_queued (h : SchedOk s) (hidle : s.cur ≠ s.idleThread) (i : ℕ) :
    Parked (s.queued i) := by
  have hw := h.cur_not_mem_waiters
  have hmem : ∀ j u, u ∈ ((s.queued i).semas j).waiters →
      u ∈ (s.semas j).waiters ∨ u = s.cur ∧ j = i := fun j u hu => by
    rw [semas_queued] at hu
    split at hu
    · next hj =>
      rcases List.mem_append.1 hu with hu | hu
      · exact Or.inl (hj ▸ hu)
      · exact Or.inr ⟨List.mem_singleton.1 hu, hj⟩
    · exact Or.inl hu
  have honly : ∀ j, s.cur ∈ ((s.queued i).semas j).waiters → j = i := fun j hj =>
    ((hmem j _ hj).resolve_left (hw j)).2
  refine ⟨?_, fun u hu => ?_⟩
  · refine h.toQueues.move h.cur_mem rfl rfl rfl rfl h.cur_mem (fun u _ => Iff.rfl)
      (iff_of_false h.cur_not_mem_ready (fun hst => nomatch hst)) h.ready_nodup
      (fun j u hu hj => (hmem j u hj).resolve_right fun hc => hu hc.1) (fun j _ => ⟨rfl, hidle⟩)
      (fun j k hj hk => (honly j hj).trans (honly k hk).symm) (fun j => ?_)
      (fun hc => absurd hc hidle)
    rw [semas_queued]
    split
    · exact nodup_append_singleton (h.waiters_nodup i) (hw i)
    · exact h.waiters_nodup j
  · change ((s.setSema i _).setStatus s.cur .blocked).status u ≠ _
    rw [status_setStatus]
    split
    · decide
    · next huc => exact fun hrun => huc ((h.running_iff u hu).1 hrun)

/-! ## The calls -/

theorem SchedOk.threadBlock (h : SchedOk s) (stat : TaskStatus) (hst : stat.Stopped)
    (hidle : s.cur = s.idleThread → stat = .blocked) :
    ∃ s', s.threadBlock stat = .ok s' ∧ SchedOk s' ∧ Switched (s.setStatus s.cur stat) s' := by
  obtain ⟨s', hrun, hok⟩ := (h.park_stopped hst hidle).schedule
  refine ⟨s', ?_, hok⟩
  unfold Sched.threadBlock
  rw [assert, if_pos hst, ok_bind, hrun]

/-- The current thread has used up its time slice. -/
theorem SchedOk.schedule (h : SchedOk s) : ∃ s', s.schedule = .ok s' ∧ SchedOk s' ∧
    Switched s s' := by
  set s₁ : Sched := { s.setTask s.cur
      { s.tasks s.cur with ticks := (s.tasks s.cur).priority, status := .ready } with
    threadReadyList := s.threadReadyList ++ [s.cur] }
  have hpark : Parked s₁ := h.park_ready rfl
  have hsw : Switched s s₁ := ⟨.of_task rfl rfl rfl rfl rfl ⟨rfl, rfl, rfl, rfl⟩
    (Or.inl h.status_cur) (Or.inr (Or.inl rfl)), rfl⟩
  obtain ⟨s', hrun, hok, hsw'⟩ := hpark.schedule
  refine ⟨s', ?_, hok, hsw.trans hsw'⟩
  have hreq : s.requeue = .ok s₁ := by
    unfold Sched.requeue
    rw [if_pos h.status_cur, assert, if_pos h.cur_not_mem_ready, ok_bind]
    rfl
  have hreq' : s₁.requeue = .ok s₁ := by
    unfold Sched.requeue
    rw [if_neg (hpark.not_running _ hpark.cur_mem)]
    rfl
  unfold Sched.schedule at hrun ⊢
  rw [hreq', ok_bind] at hrun
  rw [hreq, ok_bind, hrun]

theorem SchedOk.threadYield (h : SchedOk s) : ∃ s', s.threadYield = .ok s' ∧ SchedOk s' ∧
    Switched s s' := by
  have hpark : Parked { s.setStatus s.cur .ready with
      threadReadyList := s.threadReadyList ++ [s.cur] } := h.park_ready rfl
  obtain ⟨s', hrun, hok, hsw⟩ := hpark.schedule
  refine ⟨s', ?_, hok, Switched.trans ?_ hsw⟩
  · unfold Sched.threadYield
    rw [assert, if_pos h.cur_not_mem_ready, ok_bind, hrun]
  · exact ⟨.of_task rfl rfl rfl rfl rfl ⟨rfl, rfl, rfl, rfl⟩ (Or.inl h.status_cur)
      (Or.inr (Or.inl rfl)), rfl⟩

/-- The invariant only looks at the lists and the states, and a waiter may be taken away. -/
theorem SchedOk.congr (h : SchedOk s) (hstatus : ∀ t, s'.status t = s.status t)
    (hall : s'.threadAllList = s.threadAllList) (hready : s'.threadReadyList = s.threadReadyList)
    (hcur : s'.cur = s.cur) (hidle : s'.idleThread = s.idleThread)
    (hmain : s'.mainThread = s.mainThread)
    (hw : ∀ i, (s'.semas i).waiters.Sublist (s.semas i).waiters) : SchedOk s' := by
  constructor
  case toQueues =>
    constructor
    case all_nodup => rw [hall]; exact h.all_nodup
    case ready_iff => intro t; rw [hready, hall, hstatus]; exact h.ready_iff t
    case ready_nodup => rw [hready]; exact h.ready_nodup
    case waiter => intro i t ht; rw [hall, hstatus]; exact h.waiter i t ((hw i).subset ht)
    case waiters_nodup => exact fun i => (hw i).nodup (h.waiters_nodup i)
    case waiters_disjoint =>
      exact fun i j t hi hj => h.waiters_disjoint i j t ((hw i).subset hi) ((hw j).subset hj)
    case cur_mem => rw [hcur, hall]; exact h.cur_mem
    case main_mem => rw [hmain, hall]; exact h.main_mem
    case idle_mem => rw [hidle, hall]; exact h.idle_mem
    case idle_awake => intro i hi; rw [hidle] at hi; exact h.idle_awake i ((hw i).subset hi)
    case idle_status => rw [hidle, hstatus]; exact h.idle_status
  case running_iff => intro t; rw [hall, hstatus, hcur]; exact h.running_iff t

/-- Another count of the ticks. -/
theorem SchedOk.setTicks (h : SchedOk s) (hst : task.status = (s.tasks s.cur).status)
    (hfields : task.pid = (s.tasks s.cur).pid ∧ task.pgdir = (s.tasks s.cur).pgdir ∧
      task.parentPid = (s.tasks s.cur).parentPid ∧
      task.exitStatus = (s.tasks s.cur).exitStatus) (n : ℕ) :
    SchedOk { s.setTask s.cur task with ticks := n } ∧
      Switched s { s.setTask s.cur task with ticks := n } := by
  refine ⟨h.congr (fun t => ?_) rfl rfl rfl rfl rfl fun _ => .refl _, ?_⟩
  · change (update s.tasks s.cur task t).status = (s.tasks t).status
    rw [update_apply]
    split
    · next ht => rw [ht, hst]
    · rfl
  · have hrun : (s.tasks s.cur).status = .running := h.status_cur
    exact ⟨.of_task rfl rfl rfl rfl rfl hfields (Or.inl hrun) (Or.inl (hst.trans hrun)), rfl⟩

theorem SchedOk.intrTimerHandler (h : SchedOk s) : ∃ s', s.intrTimerHandler = .ok s' ∧
    SchedOk s' ∧ Switched s s' := by
  obtain ⟨hok, hsw⟩ : SchedOk s.countTick ∧ Switched s s.countTick :=
    h.setTicks (by rfl) (by exact ⟨rfl, rfl, rfl, rfl⟩) _
  unfold Sched.intrTimerHandler
  by_cases h0 : (s.tasks s.cur).ticks = 0
  · rw [if_pos h0]
    obtain ⟨s', hrun, hok', hsw'⟩ := hok.schedule
    exact ⟨s', hrun, hok', hsw.trans hsw'⟩
  · rw [if_neg h0]
    set s₁ := s.countTick.setTask s.cur
      { s.countTick.tasks s.cur with ticks := (s.tasks s.cur).ticks - 1 }
    have h₁ : SchedOk s₁ ∧ Switched s.countTick s₁ :=
      hok.setTicks (by rfl) (by exact ⟨rfl, rfl, rfl, rfl⟩) _
    exact ⟨s₁, rfl, h₁.1, hsw.trans h₁.2⟩

/-- Another value of a semaphore, with waiters taken away. -/
theorem SchedOk.setSema (h : SchedOk s) (i n : ℕ) {ws : List ℕ}
    (hws : ws.Sublist (s.semas i).waiters) : SchedOk (s.setSema i ⟨n, ws⟩) := by
  refine h.congr (fun _ => rfl) rfl rfl rfl rfl rfl fun j => ?_
  rw [semas_setSema]
  split
  · next hj => exact hj ▸ hws
  · exact .refl _

theorem SchedOk.setValue (h : SchedOk s) (i n : ℕ) :
    SchedOk (s.setSema i { s.semas i with value := n }) := h.setSema i n (.refl _)

/-- `sema_down` on a semaphore that is taken. -/
theorem SchedOk.semaDown_zero (h : SchedOk s) (hidle : s.cur ≠ s.idleThread)
    (hv : (s.semas i).value = 0) :
    ∃ s', s.semaDown i = .ok (false, s') ∧ SchedOk s' ∧ Switched (s.queued i) s' := by
  obtain ⟨s', hrun, hok, hsw⟩ := (h.park_queued hidle i).schedule
  refine ⟨s', ?_, hok, hsw⟩
  have hblock : (s.setSema i { s.semas i with
      waiters := (s.semas i).waiters ++ [s.cur] }).threadBlock .blocked = .ok s' := by
    unfold Sched.threadBlock
    rw [assert, if_pos (show TaskStatus.blocked.Stopped from Or.inl rfl), ok_bind]
    exact hrun
  unfold Sched.semaDown
  rw [if_pos hv, assert, if_pos (h.cur_not_mem_waiters i), ok_bind, hblock, ok_bind]
  rfl

/-- `sema_down` on a semaphore that is free. -/
theorem Sched.semaDown_one (hv : (s.semas i).value = 1) :
    s.semaDown i = .ok (true, s.setSema i { s.semas i with value := 0 }) := by
  unfold Sched.semaDown
  rw [if_neg (by omega), hv, assert, if_pos rfl, ok_bind]
  rfl

/-- The assertion of `sema_down` on a semaphore that counts beyond one. -/
theorem Sched.semaDown_many (hv : 1 < (s.semas i).value) :
    s.semaDown i = .error .assert := by
  unfold Sched.semaDown
  rw [if_neg (by omega), assert, if_neg (by omega)]
  rfl

theorem Sched.semaUp_ne_zero (hv : (s.semas i).value ≠ 0) : s.semaUp i = .error .assert := by
  unfold Sched.semaUp
  rw [assert, if_neg hv]
  rfl

/-- `sema_up` without waiters. -/
theorem Sched.semaUp_nil (hv : (s.semas i).value = 0) (hw : (s.semas i).waiters = []) :
    s.semaUp i = .ok (s.setSema i { s.semas i with value := 1 }) := by
  have hpop : s.popWaiter i = .ok s := by
    unfold Sched.popWaiter
    rw [hw]
    rfl
  unfold Sched.semaUp
  rw [assert, if_pos hv, ok_bind, hpop, ok_bind, hv, assert, if_pos rfl, ok_bind]
  rfl

/-- The state after `sema_up` has woken up the first waiter `t`. -/
def Sched.handed (s : Sched) (i t : ℕ) (rest : List ℕ) : Sched :=
  (s.woken t).setSema i ⟨1, rest⟩

theorem Sched.semas_handed (s : Sched) (i t j : ℕ) (rest : List ℕ) :
    (s.handed i t rest).semas j = if j = i then ⟨1, rest⟩ else s.semas j :=
  (s.woken t).semas_setSema i j _

/-- `sema_up` with a waiter. -/
theorem SchedOk.semaUp_cons (h : SchedOk s) (hv : (s.semas i).value = 0) {rest : List ℕ}
    (hw : (s.semas i).waiters = t :: rest) :
    s.semaUp i = .ok (s.handed i t rest) ∧ SchedOk (s.handed i t rest) := by
  have hmem : t ∈ (s.semas i).waiters := by
    rw [hw]
    exact List.mem_cons_self
  obtain ⟨hall, hst⟩ := h.waiter i t hmem
  have hnd := h.waiters_nodup i
  rw [hw, List.nodup_cons] at hnd
  set s₁ := s.setSema i { s.semas i with waiters := rest }
  have h₁ : SchedOk s₁ := h.setSema i _ (hw ▸ List.sublist_cons_self t rest)
  have hout : ∀ j, t ∉ (s₁.semas j).waiters := fun j hj => by
    rw [semas_setSema] at hj
    split at hj
    · exact hnd.1 hj
    · next hji => exact hji (h.waiters_disjoint j i t hj hmem)
  have h₂ : SchedOk (s₁.woken t) := h₁.woken hall (Or.inl hst) hout
  have hhanded : (s₁.woken t).setSema i ⟨1, rest⟩ = s.handed i t rest :=
    congrArg (fun f => { s.woken t with semas := f }) (update_idem ..)
  have hself : (s₁.woken t).semas i = ⟨0, rest⟩ := by
    rw [← hv]
    exact update_self ..
  constructor
  · have hpop : s.popWaiter i = .ok (s₁.woken t) := by
      unfold Sched.popWaiter
      rw [hw]
      exact h₁.threadUnblock (Or.inl hst)
    unfold Sched.semaUp
    rw [assert, if_pos hv, ok_bind, hpop, ok_bind, hself, assert, if_pos rfl, ok_bind]
    exact congrArg Except.ok hhanded
  · rw [← hhanded]
    exact h₂.setSema i 1 (by rw [hself])

/-- `sema_up` leaves the value at one and takes at most one waiter away. -/
theorem SchedOk.semaUp_done (h : SchedOk s) (hv : (s.semas i).value = 0)
    (hrun : s.semaUp i = .ok s') : (s'.semas i).value = 1 ∧
      ∀ t ∈ (s'.semas i).waiters, t ∈ (s.semas i).waiters := by
  cases hw : (s.semas i).waiters with
  | nil =>
    obtain rfl := Except.ok.inj ((semaUp_nil hv hw).symm.trans hrun)
    rw [semas_setSema, if_pos rfl, ← hw]
    exact ⟨rfl, fun t ht => ht⟩
  | cons u rest =>
    obtain rfl := Except.ok.inj ((h.semaUp_cons hv hw).1.symm.trans hrun)
    rw [semas_handed, if_pos rfl]
    exact ⟨rfl, fun t ht => List.mem_cons_of_mem _ ht⟩

/-- A new task, ready to run, comes to the end of the lists. -/
theorem SchedOk.enlisted (h : SchedOk s) (ht : t ∉ s.threadAllList) (htask : task.status = .ready)
    (htasks : s'.tasks = update s.tasks t task)
    (hall : s'.threadAllList = s.threadAllList ++ [t])
    (hready : s'.threadReadyList = s.threadReadyList ++ [t]) (hcur : s'.cur = s.cur)
    (hidle : s'.idleThread = s.idleThread) (hmain : s'.mainThread = s.mainThread)
    (hsemas : s'.semas = s.semas) : SchedOk s' := by
  have hself : s'.status t = .ready := by
    unfold Sched.status
    rw [htasks, update_self, htask]
  have hother : ∀ u, u ∈ s.threadAllList → s'.status u = s.status u := fun u hu => by
    have hut : u ≠ t := fun hut => ht (hut ▸ hu)
    unfold Sched.status
    rw [htasks, update_of_ne hut]
  have hmem : ∀ u, u ∈ s.threadAllList → u ∈ s'.threadAllList := fun u hu => by
    rw [hall]
    exact List.mem_append_left _ hu
  constructor
  case toQueues =>
    constructor
    case all_nodup =>
      rw [hall]
      exact nodup_append_singleton h.all_nodup ht
    case ready_iff =>
      intro u
      rw [hready, hall, List.mem_append, List.mem_append, List.mem_singleton]
      by_cases hut : u = t
      · rw [hut, hself]
        exact iff_of_true (Or.inr rfl) ⟨Or.inr rfl, rfl⟩
      · rw [or_iff_left hut, or_iff_left hut, h.ready_iff u]
        exact and_congr_right fun hu => by rw [hother u hu]
    case ready_nodup =>
      rw [hready]
      exact nodup_append_singleton h.ready_nodup fun hr => ht ((h.ready_iff t).1 hr).1
    case waiter =>
      intro i u hu
      rw [hsemas] at hu
      obtain ⟨hu, hst⟩ := h.waiter i u hu
      exact ⟨hmem u hu, (hother u hu).trans hst⟩
    case waiters_nodup => rw [hsemas]; exact h.waiters_nodup
    case waiters_disjoint => rw [hsemas]; exact h.waiters_disjoint
    case cur_mem => rw [hcur]; exact hmem _ h.cur_mem
    case main_mem => rw [hmain]; exact hmem _ h.main_mem
    case idle_mem => rw [hidle]; exact hmem _ h.idle_mem
    case idle_awake => rw [hidle, hsemas]; exact h.idle_awake
    case idle_status => rw [hidle, hother _ h.idle_mem]; exact h.idle_status
  case running_iff =>
    intro u hu
    rw [hall, List.mem_append, List.mem_singleton] at hu
    rw [hcur]
    rcases hu with hu | hu
    · rw [hother u hu]
      exact h.running_iff u hu
    · rw [hu, hself]
      exact iff_of_false (by decide) fun hc => ht (hc ▸ h.cur_mem)

/-- A pid is free. -/
def PidFree (s : Sched) : Prop := ∃ i < s.pidBitmap.bitLen, s.pidBitmap.bit i = false

theorem PidFree.allocatePid (h : PidFree s) : ∃ k, s.pidBitmap.IsFirstClear k ∧
    s.allocatePid = .ok (k + 1, { s with pidBitmap := s.pidBitmap.set k true }) := by
  obtain ⟨i, hi, hc⟩ := h
  obtain ⟨k, hscan, hk⟩ := bitmapScan_one_of_clear (d := false) hi hc
  refine ⟨k, hk, ?_⟩
  unfold Sched.allocatePid
  rw [hscan]
  rfl

theorem Sched.initThread_eq {prio k : ℕ} {b : Bitmap} (hb : s.pidBitmap = b)
    (hscan : bitmapScan false b 1 = .ok (some k)) : s.initThread t prio =
      .ok ({ s with pidBitmap := b.set k true }.setTask t
        ⟨k + 1, if t = s.mainThread then .running else .ready, prio % 256, prio % 256, 0, false,
          none, 0⟩) := by
  unfold Sched.initThread allocatePid
  rw [hb, hscan]
  rfl

theorem Sched.enlist_eq (hr : t ∉ s.threadReadyList) (ha : t ∉ s.threadAllList) :
    s.enlist t = .ok { s with
      threadReadyList := s.threadReadyList ++ [t]
      threadAllList := s.threadAllList ++ [t] } := by
  unfold enlist
  rw [assert, if_pos hr, ok_bind, assert, if_pos ha, ok_bind]
  rfl

/-- A new thread, on a page that no task has. -/
theorem SchedOk.threadStart (h : SchedOk s) (ht : t ∉ s.threadAllList) (hpid : PidFree s)
    (prio : ℕ) : ∃ s', s.threadStart t prio = .ok s' ∧ SchedOk s' ∧ s'.semas = s.semas ∧
      s'.idleThread = s.idleThread := by
  obtain ⟨k, -, halloc⟩ := hpid.allocatePid
  have hmain : t ≠ s.mainThread := fun hm => ht (hm ▸ h.main_mem)
  set s₁ : Sched := { s with
    pidBitmap := s.pidBitmap.set k true
    tasks := update s.tasks t
      ⟨k + 1, .ready, prio % 256, prio % 256, 0, false, none, 0⟩
    threadAllList := s.threadAllList ++ [t]
    threadReadyList := s.threadReadyList ++ [t] }
  have hok : SchedOk s₁ := h.enlisted ht rfl rfl rfl rfl rfl rfl rfl rfl
  refine ⟨s₁, ?_, hok, rfl, rfl⟩
  unfold Sched.threadStart initThread
  rw [halloc, ok_bind]
  dsimp only
  rw [if_neg hmain]
  exact enlist_eq (fun hr => ht ((h.ready_iff t).1 hr).1) ht

/-! ## Runs of the scheduler -/

/-- The steps of the running thread and of the interrupt handlers. -/
inductive SchedCall
  | tick
  | threadYield
  | threadBlock (stat : TaskStatus)
  | threadUnblock (t : ℕ)
  | threadStart (t prio : ℕ)
  | semaDown (i : ℕ)
  | semaUp (i : ℕ)

def SchedCall.exec (s : Sched) : SchedCall → Outcome Sched
  | .tick => s.intrTimerHandler
  | .threadYield => s.threadYield
  | .threadBlock stat => s.threadBlock stat
  | .threadUnblock t => s.threadUnblock t
  | .threadStart t prio => s.threadStart t prio
  | .semaDown i => do
    let (_, s) ← s.semaDown i
    return s
  | .semaUp i => s.semaUp i

/-- The calls that the kernel makes: `thread_block` with a state in which a thread is stopped,
`thread_unblock` on a stopped thread that waits for no semaphore, `thread_start` with a page that
no task has; and the idle thread only runs its loop. -/
def SchedCall.Admissible (s : Sched) : SchedCall → Prop
  | .tick => True
  | .threadYield => s.cur ≠ s.idleThread
  | .threadBlock stat => stat.Stopped ∧ (s.cur = s.idleThread → stat = .blocked)
  | .threadUnblock t => t ∈ s.threadAllList ∧ (s.status t).Stopped ∧ ∀ i, t ∉ (s.semas i).waiters
  | .threadStart t _ => s.cur ≠ s.idleThread ∧ t ∉ s.threadAllList
  | .semaDown _ => s.cur ≠ s.idleThread
  | .semaUp _ => True

/-- The assertions outside the scheduler: those of `sema_down` and `sema_up` about the value, and
the one of `bitmap_scan` when the pids are used up. -/
def SchedCall.Refused (s : Sched) : SchedCall → Prop
  | .semaDown i => 1 < (s.semas i).value
  | .semaUp i => (s.semas i).value ≠ 0
  | .threadStart _ _ => ¬ PidFree s
  | _ => False

theorem SchedCall.exec_semaDown {r : Bool × Sched} (h : s.semaDown i = .ok r) :
    (SchedCall.semaDown i).exec s = .ok r.2 := by
  change (s.semaDown i >>= _) = _
  rw [h]
  rfl

/-- The call works on the semaphore `i`. -/
def SchedCall.Uses (i : ℕ) : SchedCall → Prop
  | .semaDown j => j = i
  | .semaUp j => j = i
  | _ => False

theorem sameLife_setSema (s : Sched) (i : ℕ) (sema : Semaphore) :
    SameLife s (s.setSema i sema) :=
  ⟨rfl, rfl, rfl, rfl, fun _ => ⟨rfl, rfl, rfl, rfl⟩, fun _ => Iff.rfl, fun _ => Iff.rfl⟩

/-- The call leaves the life of processes alone. -/
def SchedCall.Neutral (s : Sched) : SchedCall → Prop
  | .threadBlock stat => stat = .blocked
  | .threadUnblock t => s.status t = .blocked
  | .threadStart _ _ => False
  | _ => True

/-- **One call**: the invariant is kept, no assertion of the scheduler fails, the semaphores that
the call does not work on stay as they are, and a neutral call leaves the processes alone. -/
theorem SchedOk.exec (h : SchedOk s) (hc : c.Admissible s) (hr : ¬ c.Refused s) :
    ∃ s', c.exec s = .ok s' ∧ SchedOk s' ∧ s'.idleThread = s.idleThread ∧
      (∀ i, ¬ c.Uses i → s'.semas i = s.semas i) ∧ (c.Neutral s → SameLife s s') := by
  cases c with
  | tick =>
    obtain ⟨s', hrun, hok, hsw⟩ := h.intrTimerHandler
    exact ⟨s', hrun, hok, hsw.idle, fun i _ => congrFun hsw.semas i, fun _ => hsw.toSameLife⟩
  | threadYield =>
    obtain ⟨s', hrun, hok, hsw⟩ := h.threadYield
    exact ⟨s', hrun, hok, hsw.idle, fun i _ => congrFun hsw.semas i, fun _ => hsw.toSameLife⟩
  | threadBlock stat =>
    obtain ⟨s', hrun, hok, hsw⟩ := h.threadBlock _ hc.1 hc.2
    refine ⟨s', hrun, hok, hsw.idle, fun i _ => congrFun hsw.semas i, fun hn => ?_⟩
    have hpark : SameLife s (s.setStatus s.cur stat) :=
      .of_task rfl rfl rfl rfl rfl ⟨rfl, rfl, rfl, rfl⟩ (Or.inl h.status_cur) (Or.inr (Or.inr hn))
    exact hpark.trans hsw.toSameLife
  | threadUnblock t =>
    obtain ⟨ht, hst, hw⟩ := hc
    refine ⟨_, h.threadUnblock hst, h.woken ht hst hw, rfl, fun i _ => rfl, fun hn => ?_⟩
    exact .of_task rfl rfl rfl rfl rfl ⟨rfl, rfl, rfl, rfl⟩ (Or.inr (Or.inr hn))
      (Or.inr (Or.inl rfl))
  | threadStart t prio =>
    obtain ⟨s', hrun, hok, hsemas, hidle⟩ := h.threadStart hc.2 (not_not.1 hr) prio
    exact ⟨s', hrun, hok, hidle, fun i _ => congrFun hsemas i, False.elim⟩
  | semaDown j =>
    by_cases hv : (s.semas j).value = 0
    · obtain ⟨s', hrun, hok, hsw⟩ := h.semaDown_zero hc hv
      refine ⟨s', SchedCall.exec_semaDown hrun, hok, hsw.idle, fun i hi => ?_, fun _ => ?_⟩
      · rw [hsw.semas, semas_queued, if_neg (Ne.symm hi)]
      · have hpark : SameLife s (s.queued j) := .of_task rfl rfl rfl rfl rfl
          ⟨rfl, rfl, rfl, rfl⟩ (Or.inl h.status_cur) (Or.inr (Or.inr rfl))
        exact hpark.trans hsw.toSameLife
    · have hv : (s.semas j).value = 1 := by
        have := not_lt.1 hr
        omega
      refine ⟨_, SchedCall.exec_semaDown (semaDown_one hv), h.setValue j 0, rfl, fun i hi => ?_,
        fun _ => sameLife_setSema ..⟩
      rw [semas_setSema, if_neg (Ne.symm hi)]
  | semaUp j =>
    have hv := not_not.1 hr
    cases hw : (s.semas j).waiters with
    | nil =>
      refine ⟨_, semaUp_nil hv hw, h.setValue j 1, rfl, fun i hi => ?_,
        fun _ => sameLife_setSema ..⟩
      rw [semas_setSema, if_neg (Ne.symm hi)]
    | cons t rest =>
      obtain ⟨hrun, hok⟩ := h.semaUp_cons hv hw
      have hst : s.status t = .blocked := (h.waiter j t (by rw [hw]; exact List.mem_cons_self)).2
      refine ⟨_, hrun, hok, rfl, fun i hi => ?_, fun _ => ?_⟩
      · rw [semas_handed, if_neg (Ne.symm hi)]
      · exact .of_task rfl rfl rfl rfl rfl ⟨rfl, rfl, rfl, rfl⟩ (Or.inr (Or.inr hst))
          (Or.inr (Or.inl rfl))

/-- An assertion that fails is not one of the scheduler. -/
theorem SchedCall.exec_of_refused (hr : c.Refused s) : c.exec s = .error .assert := by
  cases c with
  | semaDown i =>
    change (s.semaDown i >>= _) = _
    rw [semaDown_many hr]
    rfl
  | semaUp i => exact semaUp_ne_zero hr
  | threadStart t prio =>
    have hscan : bitmapScan false s.pidBitmap 1 = .error .assert := bitmapScan_of_full
      fun i hi => Bool.not_eq_false _ ▸ fun hc => hr ⟨i, hi, hc⟩
    change s.threadStart t prio = _
    unfold Sched.threadStart initThread allocatePid
    rw [hscan]
    rfl
  | _ => exact hr.elim

/-- The call that goes through is the one of `SchedOk.exec`. -/
theorem SchedOk.of_exec (h : SchedOk s) (hc : c.Admissible s) (hrun : c.exec s = .ok s') :
    SchedOk s' ∧ (c.Neutral s → SameLife s s') := by
  by_cases hr : c.Refused s
  · rw [c.exec_of_refused hr] at hrun
    cases hrun
  · obtain ⟨s₁, hrun₁, hok, -, -, hlife⟩ := h.exec hc hr
    obtain rfl := Except.ok.inj (hrun₁.symm.trans hrun)
    exact ⟨hok, hlife⟩

/-- A step of the system. -/
def SchedStep (s s' : Sched) : Prop := ∃ c : SchedCall, c.Admissible s ∧ c.exec s = .ok s'

theorem SchedOk.step (h : SchedOk s) (hstep : SchedStep s s') : SchedOk s' := by
  obtain ⟨c, hc, hrun⟩ := hstep
  exact (h.of_exec hc hrun).1

/-! ## The start -/

/-- The three `task_struct`s of the start are on different pages, and `0` is no page. -/
structure BootPages (s : Sched) (init idle : ℕ) : Prop where
  init_pos : init ≠ 0
  init_cur : init ≠ s.cur
  idle_cur : idle ≠ s.cur
  idle_init : idle ≠ init

/-- The state after `thread_init`: `init` has the pid 1, the main thread 2, the idle thread 3. -/
def Sched.started (s : Sched) (init idle : ℕ) : Sched :=
  { s with
    threadAllList := [init, s.cur, idle]
    threadReadyList := [init, idle]
    mainThread := s.cur
    idleThread := idle
    pidBitmap := (((⟨128, fun _ => false⟩ : Bitmap).set 0 true).set 1 true).set 2 true
    tasks := update
      (update (update s.tasks init ⟨1, .ready, 31, 31, 0, true, none, 0⟩)
        s.cur ⟨2, .running, 31, 31, 0, false, none, 0⟩)
      idle ⟨3, .ready, 10, 10, 0, false, none, 0⟩ }

theorem mem_started (s : Sched) (init idle t : ℕ) :
    t ∈ (s.started init idle).threadAllList ↔ t = init ∨ t = s.cur ∨ t = idle := by
  change t ∈ [init, s.cur, idle] ↔ _
  simp

theorem BootPages.tasks_started (h : BootPages s init idle) :
    (s.started init idle).tasks init = ⟨1, .ready, 31, 31, 0, true, none, 0⟩ ∧
    (s.started init idle).tasks s.cur = ⟨2, .running, 31, 31, 0, false, none, 0⟩ ∧
    (s.started init idle).tasks idle = ⟨3, .ready, 10, 10, 0, false, none, 0⟩ := by
  refine ⟨?_, ?_, update_self ..⟩
  · simp only [Sched.started, update_of_ne h.idle_init.symm, update_of_ne h.init_cur, update_self]
  · simp only [Sched.started, update_of_ne h.idle_cur.symm, update_self]

theorem BootPages.threadInit (h : BootPages s init idle) :
    s.threadInit init idle = .ok (s.started init idle) := by
  set s₀ : Sched := { s with
    threadReadyList := []
    threadAllList := []
    mainThread := 0
    pidBitmap := ⟨128, fun _ => false⟩ }
  set b₀ : Bitmap := ⟨128, fun _ => false⟩
  have hscan₀ : bitmapScan false b₀ 1 = .ok (some 0) := by decide
  have hscan₁ : bitmapScan false (b₀.set 0 true) 1 = .ok (some 1) := by decide
  have hscan₂ : bitmapScan false ((b₀.set 0 true).set 1 true) 1 = .ok (some 2) := by decide
  set s₁ : Sched := { s₀ with
    pidBitmap := b₀.set 0 true
    tasks := update s.tasks init ⟨1, .ready, 31, 31, 0, true, none, 0⟩
    threadReadyList := [init]
    threadAllList := [init] }
  have h₁ : s₀.processExecute init = .ok s₁ := by
    unfold processExecute
    rw [initThread_eq rfl hscan₀, ok_bind, if_neg h.init_pos, enlist_eq List.not_mem_nil
      List.not_mem_nil]
    simp only [setTask, update_self, update_idem]
    rfl
  set s₂ : Sched := { s₁ with
    mainThread := s.cur
    pidBitmap := (b₀.set 0 true).set 1 true
    tasks := update s₁.tasks s.cur ⟨2, .running, 31, 31, 0, false, none, 0⟩
    threadAllList := [init, s.cur] }
  have h₂ : s₁.makeMainThread = .ok s₂ := by
    have hcur : s.cur ∉ [init] := fun hc => h.init_cur (List.mem_singleton.1 hc).symm
    unfold makeMainThread
    rw [initThread_eq rfl hscan₁, ok_bind, if_pos rfl]
    change (assert (s.cur ∉ [init]) >>= fun _ => _) = _
    rw [assert, if_pos hcur, ok_bind]
    rfl
  have h₃ : s₂.threadStart idle 10 = .ok { s₂ with
      pidBitmap := ((b₀.set 0 true).set 1 true).set 2 true
      tasks := update s₂.tasks idle ⟨3, .ready, 10, 10, 0, false, none, 0⟩
      threadReadyList := [init, idle]
      threadAllList := [init, s.cur, idle] } := by
    have hr : idle ∉ [init] := fun hc => h.idle_init (List.mem_singleton.1 hc)
    have ha : idle ∉ [init, s.cur] := by
      rw [List.mem_cons, List.mem_singleton]
      exact not_or.2 ⟨h.idle_init, h.idle_cur⟩
    unfold Sched.threadStart
    rw [initThread_eq rfl hscan₂, ok_bind, if_neg h.idle_cur, enlist_eq hr ha]
    rfl
  unfold Sched.threadInit
  dsimp only
  rw [h₁, ok_bind, h₂, ok_bind, h₃, ok_bind]
  rfl

theorem BootPages.schedOk (h : BootPages s init idle) (hw : ∀ i, (s.semas i).waiters = []) :
    SchedOk (s.started init idle) := by
  obtain ⟨hi, hc, hd⟩ := h.tasks_started
  have hidle : (s.started init idle).status idle = .ready := congrArg TaskStruct.status hd
  have hcur : (s.started init idle).status s.cur = .running := congrArg TaskStruct.status hc
  have hinit : (s.started init idle).status init = .ready := congrArg TaskStruct.status hi
  have hmem := mem_started s init idle
  have hnone : ∀ i t, t ∉ ((s.started init idle).semas i).waiters := fun i t => by
    change t ∉ (s.semas i).waiters
    rw [hw]
    exact List.not_mem_nil
  constructor
  case toQueues =>
    constructor
    case all_nodup =>
      change [init, s.cur, idle].Nodup
      simp [h.init_cur, h.idle_cur.symm, h.idle_init.symm]
    case ready_iff =>
      intro t
      change t ∈ [init, idle] ↔ _
      rw [hmem, List.mem_cons, List.mem_singleton]
      constructor
      · rintro (rfl | rfl)
        · exact ⟨Or.inl rfl, hinit⟩
        · exact ⟨Or.inr (Or.inr rfl), hidle⟩
      · rintro ⟨rfl | rfl | rfl, hst⟩
        · exact Or.inl rfl
        · rw [hcur] at hst
          cases hst
        · exact Or.inr rfl
    case ready_nodup =>
      change [init, idle].Nodup
      simp [h.idle_init.symm]
    case waiter => exact fun i t ht => absurd ht (hnone i t)
    case waiters_nodup => exact fun i => (hw i).symm ▸ List.nodup_nil
    case waiters_disjoint => exact fun i j t ht => absurd ht (hnone i t)
    case cur_mem => exact List.mem_cons_of_mem _ List.mem_cons_self
    case main_mem => exact List.mem_cons_of_mem _ List.mem_cons_self
    case idle_mem => exact List.mem_cons_of_mem _ (List.mem_cons_of_mem _ List.mem_cons_self)
    case idle_awake => exact fun i => hnone i idle
    case idle_status => exact Or.inr (Or.inl hidle)
  case running_iff =>
    intro t ht
    rcases (hmem t).1 ht with rfl | rfl | rfl
    · rw [hinit]
      exact iff_of_false (by decide) h.init_cur
    · exact iff_of_true hcur rfl
    · rw [hidle]
      exact iff_of_false (by decide) h.idle_cur

/-- One thread runs and is on no list, the ready list holds exactly the ready threads, a thread
that waits for a semaphore is blocked and on no other list, and with an empty ready list the idle
thread can be woken up (or runs itself). -/
structure QueueInvariant (s : Sched) : Prop where
  one_running : ∃! t, t ∈ s.threadAllList ∧ s.status t = .running
  running_off : ∀ t ∈ s.threadAllList, s.status t = .running →
    t ∉ s.threadReadyList ∧ ∀ i, t ∉ (s.semas i).waiters
  ready_nodup : s.threadReadyList.Nodup
  ready_iff : ∀ t, t ∈ s.threadReadyList ↔ t ∈ s.threadAllList ∧ s.status t = .ready
  waiter : ∀ i, ∀ t ∈ (s.semas i).waiters, t ∈ s.threadAllList ∧ s.status t = .blocked ∧
    t ∉ s.threadReadyList ∧ (s.semas i).waiters.count t = 1 ∧
    ∀ j, j ≠ i → t ∉ (s.semas j).waiters
  idle : s.threadReadyList = [] → s.cur = s.idleThread ∨ s.status s.idleThread = .blocked

theorem SchedOk.queueInvariant (h : SchedOk s) : QueueInvariant s where
  one_running := ⟨s.cur, ⟨h.cur_mem, h.status_cur⟩, fun t ht => (h.running_iff t ht.1).1 ht.2⟩
  running_off t ht hst := by
    rw [(h.running_iff t ht).1 hst]
    exact ⟨h.cur_not_mem_ready, h.cur_not_mem_waiters⟩
  ready_nodup := h.ready_nodup
  ready_iff := h.ready_iff
  waiter i t ht := by
    obtain ⟨hall, hst⟩ := h.waiter i t ht
    refine ⟨hall, hst, h.not_mem_ready (by rw [hst]; decide),
      List.count_eq_one_of_mem (h.waiters_nodup i) ht, fun j hj htj => ?_⟩
    exact hj (h.waiters_disjoint j i t htj ht)
  idle hnil := by
    rcases h.idle_status with hst | hst | hst
    · exact Or.inl ((h.running_iff _ h.idle_mem).1 hst).symm
    · have := (h.ready_iff _).2 ⟨h.idle_mem, hst⟩
      rw [hnil] at this
      cases this
    · exact Or.inr hst

/-- **The scheduler's queues.** In every state that a run from `thread_init` reaches, the queues
are in order, and every further call goes through: the only assertions that can fail are those of
the semaphores about their value and of the pid bitmap. -/
theorem queueInvariant_of_run {init idle : ℕ} {s₀ s₁ : Sched} (hpages : BootPages s₀ init idle)
    (hw : ∀ i, (s₀.semas i).waiters = []) (hinit : s₀.threadInit init idle = .ok s₁)
    (hrun : Relation.ReflTransGen SchedStep s₁ s) :
    QueueInvariant s ∧ ∀ c : SchedCall, c.Admissible s → ¬ c.Refused s →
      ∃ s', c.exec s = .ok s' := by
  rw [hpages.threadInit] at hinit
  obtain rfl := Except.ok.inj hinit
  have hok : SchedOk s := reach_invariant hrun (hpages.schedOk hw) fun h hstep => h.step hstep
  refine ⟨hok.queueInvariant, fun c hc hr => ?_⟩
  obtain ⟨s', hexec, -⟩ := hok.exec hc hr
  exact ⟨s', hexec⟩

/-- A boot state with the main thread on page 1. -/
def bootSched : Sched where
  tasks _ := ⟨0, .died, 0, 0, 0, false, none, 0⟩
  threadAllList := []
  threadReadyList := []
  cur := 1
  mainThread := 0
  idleThread := 0
  pidBitmap := ⟨128, fun _ => false⟩
  semas _ := ⟨1, []⟩
  ticks := 0

/-- The main thread takes a semaphore and yields. -/
theorem queueInvariant_of_semaDown : ∃ s₁ s₂ s₃,
    bootSched.threadInit 2 3 = .ok s₁ ∧ (SchedCall.semaDown 0).exec s₁ = .ok s₂ ∧
    SchedCall.threadYield.exec s₂ = .ok s₃ ∧ QueueInvariant s₃ := by
  have hpages : BootPages bootSched 2 3 := ⟨by decide, by decide, by decide, by decide⟩
  have hok := hpages.schedOk fun _ => rfl
  have h₂ : (SchedCall.semaDown 0).exec (bootSched.started 2 3) =
      .ok ((bootSched.started 2 3).setSema 0 ⟨0, []⟩) :=
    SchedCall.exec_semaDown (semaDown_one rfl)
  obtain ⟨s₃, h₃, -⟩ := (hok.setValue 0 0).threadYield
  have hidle : (1 : ℕ) ≠ 3 := by decide
  have step₂ : SchedStep (bootSched.started 2 3) ((bootSched.started 2 3).setSema 0 ⟨0, []⟩) :=
    ⟨.semaDown 0, hidle, h₂⟩
  have step₃ : SchedStep ((bootSched.started 2 3).setSema 0 ⟨0, []⟩) s₃ :=
    ⟨.threadYield, hidle, h₃⟩
  have hrun := (Relation.ReflTransGen.single step₂).tail step₃
  exact ⟨_, _, s₃, hpages.threadInit, h₂, h₃,
    (queueInvariant_of_run hpages (fun _ => rfl) hpages.threadInit hrun).1⟩

end Gardos.Thread
