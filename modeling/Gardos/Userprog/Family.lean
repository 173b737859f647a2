import Gardos.Userprog.Process
import Mathlib.Data.Finset.Card

/-!
# The tree of processes

`FamilyOk` is the invariant of the tree of processes: the pids in use are those of the tasks on the
list, every process but `init` has its parent on the list, a process that hangs has no children,
and no process but `init` waits beside a child that hangs. `sys_fork`, `sys_exit` and a round of
`sys_wait` go through in a state with the invariant (`sysFork_eq`, `sysExit_ok`) and keep it.
-/

namespace Gardos.Userprog

open Outcome Thread Function

variable {s s' : Sched} {init t : ℕ}

/-- The invariant of the tree of processes. -/
structure FamilyOk (s : Sched) (init : ℕ) : Prop where
  bitLen : s.pidBitmap.bitLen = 1024
  pid_bit : ∀ t ∈ s.threadAllList,
    0 < (s.tasks t).pid ∧ s.pidBitmap.bit ((s.tasks t).pid - 1) = true
  pid_inj : ∀ t ∈ s.threadAllList, ∀ u ∈ s.threadAllList, (s.tasks t).pid = (s.tasks u).pid → t = u
  bit_pid : ∀ i < 1024, s.pidBitmap.bit i = true → ∃ t ∈ s.threadAllList, (s.tasks t).pid = i + 1
  init_mem : init ∈ s.threadAllList
  init_pid : (s.tasks init).pid = 1
  init_parent : (s.tasks init).parentPid = none
  main_parent : (s.tasks s.mainThread).parentPid = none
  idle_pgdir : (s.tasks s.idleThread).pgdir = false
  parent : ∀ t ∈ s.threadAllList, (s.tasks t).pgdir = true → t ≠ init →
    (s.tasks t).parentPid ≠ none
  parent_mem : ∀ t ∈ s.threadAllList, ∀ p, (s.tasks t).parentPid = some p →
    ∃ u ∈ s.threadAllList, (s.tasks u).pid = p
  hanging_parent : ∀ t ∈ s.threadAllList, s.status t = .hanging → (s.tasks t).parentPid ≠ none
  hanging_childless : ∀ t ∈ s.threadAllList, s.status t = .hanging →
    ∀ u ∈ s.threadAllList, (s.tasks u).parentPid ≠ some (s.tasks t).pid
  waiting : ∀ t ∈ s.threadAllList, t ≠ init → s.status t = .waiting →
    ∀ u ∈ s.threadAllList, (s.tasks u).parentPid = some (s.tasks t).pid → s.status u ≠ .hanging

/-- Only the states of the tasks change: a task that now hangs has a parent and no child, and does
not hang beside a parent that waits. -/
theorem FamilyOk.restate (h : FamilyOk s init) (hall : s'.threadAllList = s.threadAllList)
    (hidle : s'.idleThread = s.idleThread) (hmain : s'.mainThread = s.mainThread)
    (hpids : s'.pidBitmap = s.pidBitmap)
    (hfields : ∀ t, (s'.tasks t).pid = (s.tasks t).pid ∧ (s'.tasks t).pgdir = (s.tasks t).pgdir ∧
      (s'.tasks t).parentPid = (s.tasks t).parentPid)
    (hhang : ∀ t ∈ s.threadAllList, s'.status t = .hanging → (s.tasks t).parentPid ≠ none ∧
      ∀ u ∈ s.threadAllList, (s.tasks u).parentPid ≠ some (s.tasks t).pid)
    (hwait : ∀ t ∈ s.threadAllList, t ≠ init → s'.status t = .waiting →
      ∀ u ∈ s.threadAllList, (s.tasks u).parentPid = some (s.tasks t).pid →
        s'.status u ≠ .hanging) : FamilyOk s' init := by
  have hpid : ∀ t, (s'.tasks t).pid = (s.tasks t).pid := fun t => (hfields t).1
  have hparent : ∀ t, (s'.tasks t).parentPid = (s.tasks t).parentPid := fun t => (hfields t).2.2
  have hpgdir : ∀ t, (s'.tasks t).pgdir = (s.tasks t).pgdir := fun t => (hfields t).2.1
  constructor <;> simp only [hall, hidle, hmain, hpids, hpid, hparent, hpgdir]
  case bitLen => exact h.bitLen
  case pid_bit => exact h.pid_bit
  case pid_inj => exact h.pid_inj
  case bit_pid => exact h.bit_pid
  case init_mem => exact h.init_mem
  case init_pid => exact h.init_pid
  case init_parent => exact h.init_parent
  case main_parent => exact h.main_parent
  case idle_pgdir => exact h.idle_pgdir
  case parent => exact h.parent
  case parent_mem => exact h.parent_mem
  case hanging_parent => exact fun t ht hst => (hhang t ht hst).1
  case hanging_childless => exact fun t ht hst => (hhang t ht hst).2
  case waiting => exact hwait

theorem FamilyOk.sameLife (h : FamilyOk s init) (hs : SameLife s s') : FamilyOk s' init := by
  refine h.restate hs.all hs.idle hs.main hs.pids (fun t => ?_) (fun t ht hst => ?_)
    fun t ht hne hst u hu hp => ?_
  · obtain ⟨hpid, hpgdir, hparent, -⟩ := hs.fields t
    exact ⟨hpid, hpgdir, hparent⟩
  · have hst := (hs.hanging t).1 hst
    exact ⟨h.hanging_parent t ht hst, h.hanging_childless t ht hst⟩
  · rw [Ne, hs.hanging u]
    exact h.waiting t ht hne ((hs.waiting t).1 hst) u hu hp

/-! ## `sys_fork` -/

/-- A clear bit is the pid of no task. -/
theorem FamilyOk.pid_ne (h : FamilyOk s init) {k : ℕ} (hk : s.pidBitmap.bit k = false)
    (ht : t ∈ s.threadAllList) : (s.tasks t).pid ≠ k + 1 := by
  intro hpid
  obtain ⟨-, hbit⟩ := h.pid_bit t ht
  rw [hpid, Nat.add_sub_cancel, hk] at hbit
  cases hbit

/-- With fewer than 1024 tasks a pid is free. -/
theorem FamilyOk.pidFree (h : FamilyOk s init) (hlen : s.threadAllList.length < 1024) :
    PidFree s := by
  by_contra hfull
  have hsub : Finset.range 1024 ⊆ (s.threadAllList.map fun t => (s.tasks t).pid - 1).toFinset := by
    intro i hi
    have hi : i < 1024 := Finset.mem_range.1 hi
    have hbit : s.pidBitmap.bit i = true := by
      by_contra hc
      exact hfull ⟨i, h.bitLen ▸ hi, Bool.not_eq_true _ ▸ hc⟩
    obtain ⟨t, ht, hpid⟩ := h.bit_pid i hi hbit
    rw [List.mem_toFinset, List.mem_map]
    exact ⟨t, ht, by rw [hpid, Nat.add_sub_cancel]⟩
  have hcard := (Finset.card_le_card hsub).trans (List.toFinset_card_le _)
  rw [Finset.card_range, List.length_map] at hcard
  exact absurd hlen (not_lt.2 hcard)

/-- The state after `sys_fork`, with the pid `k + 1` for the child. -/
def childSched (s : Sched) (t k : ℕ) : Sched :=
  { s with
    pidBitmap := s.pidBitmap.set k true
    tasks := update s.tasks t
      { s.tasks s.cur with
        pid := k + 1
        elapsedTicks := 0
        status := .ready
        ticks := (s.tasks s.cur).priority
        parentPid := some (s.tasks s.cur).pid }
    threadReadyList := s.threadReadyList ++ [t]
    threadAllList := s.threadAllList ++ [t] }

theorem tasks_childSched_of_mem {k u : ℕ} (ht : t ∉ s.threadAllList) (hu : u ∈ s.threadAllList) :
    (childSched s t k).tasks u = s.tasks u :=
  update_of_ne (fun hut : u = t => ht (hut ▸ hu)) ..

theorem tasks_childSched_self (s : Sched) (t k : ℕ) : (childSched s t k).tasks t =
    { s.tasks s.cur with
      pid := k + 1
      elapsedTicks := 0
      status := .ready
      ticks := (s.tasks s.cur).priority
      parentPid := some (s.tasks s.cur).pid } := update_self ..

theorem status_childSched_of_mem {k u : ℕ} (ht : t ∉ s.threadAllList) (hu : u ∈ s.threadAllList) :
    (childSched s t k).status u = s.status u :=
  congrArg TaskStruct.status (tasks_childSched_of_mem ht hu)

theorem status_childSched_self (s : Sched) (t k : ℕ) : (childSched s t k).status t = .ready :=
  congrArg TaskStruct.status (tasks_childSched_self s t k)

theorem mem_childSched {k u : ℕ} :
    u ∈ (childSched s t k).threadAllList ↔ u ∈ s.threadAllList ∨ u = t := by
  change u ∈ s.threadAllList ++ [t] ↔ _
  rw [List.mem_append, List.mem_singleton]

theorem SchedOk.childSched (h : SchedOk s) (ht : t ∉ s.threadAllList) (k : ℕ) :
    SchedOk (childSched s t k) :=
  h.enlisted ht rfl rfl rfl rfl rfl rfl rfl rfl

theorem sysFork_eq (h : SchedOk s) (hproc : (s.tasks s.cur).pgdir = true)
    (ht : t ∉ s.threadAllList) (hpid : PidFree s) : ∃ k, s.pidBitmap.IsFirstClear k ∧
      sysFork s t = .ok (k + 1, childSched s t k) := by
  obtain ⟨k, hk, halloc⟩ := hpid.allocatePid
  have hr : t ∉ s.threadReadyList := fun hr => ht ((h.ready_iff t).1 hr).1
  refine ⟨k, hk, ?_⟩
  unfold sysFork
  rw [assert, if_pos hproc, ok_bind, halloc, ok_bind]
  dsimp only
  rw [Sched.enlist_eq]
  · rfl
  · exact hr
  · exact ht

/-- `sys_fork` returns only if a pid was free. -/
theorem pidFree_of_sysFork {r : ℕ × Sched} (h : sysFork s t = .ok r) : PidFree s := by
  obtain ⟨_, _, h⟩ := bind_eq_ok.1 h
  obtain ⟨_, halloc, _⟩ := bind_eq_ok.1 h
  by_contra hfull
  have hscan : bitmapScan false s.pidBitmap 1 = .error .assert := bitmapScan_of_full
    fun i hi => Bool.not_eq_false _ ▸ fun hc => hfull ⟨i, hi, hc⟩
  unfold Sched.allocatePid at halloc
  rw [hscan] at halloc
  cases halloc

theorem FamilyOk.childSched (h : FamilyOk s init) (hok : SchedOk s) (ht : t ∉ s.threadAllList)
    {k : ℕ} (hk : s.pidBitmap.IsFirstClear k) : FamilyOk (childSched s t k) init := by
  have hold : ∀ u ∈ s.threadAllList, (Userprog.childSched s t k).tasks u = s.tasks u := fun u hu =>
    tasks_childSched_of_mem ht hu
  have hself := tasks_childSched_self s t k
  have hst : ∀ u ∈ s.threadAllList, (Userprog.childSched s t k).status u = s.status u :=
    fun u hu => status_childSched_of_mem ht hu
  have hready := status_childSched_self s t k
  have hmain : (Userprog.childSched s t k).mainThread = s.mainThread := rfl
  have hidle : (Userprog.childSched s t k).idleThread = s.idleThread := rfl
  have hbit : ∀ i, (Userprog.childSched s t k).pidBitmap.bit i =
      if i = k then true else s.pidBitmap.bit i := fun i => s.pidBitmap.set_bit k true i
  constructor
  case bitLen => exact h.bitLen
  case pid_bit =>
    intro u hu
    rw [hbit]
    rcases mem_childSched.1 hu with hu | rfl
    · rw [hold u hu]
      refine ⟨(h.pid_bit u hu).1, ?_⟩
      split
      · rfl
      · exact (h.pid_bit u hu).2
    · rw [hself]
      exact ⟨Nat.succ_pos k, if_pos (Nat.add_sub_cancel ..)⟩
  case pid_inj =>
    intro u hu v hv huv
    rcases mem_childSched.1 hu with hu | hut <;> rcases mem_childSched.1 hv with hv | hvt
    · rw [hold u hu, hold v hv] at huv
      exact h.pid_inj u hu v hv huv
    · rw [hold u hu, hvt, hself] at huv
      exact absurd huv (h.pid_ne hk.clear hu)
    · rw [hut, hself, hold v hv] at huv
      exact absurd huv.symm (h.pid_ne hk.clear hv)
    · rw [hut, hvt]
  case bit_pid =>
    intro i hi hset
    rw [hbit] at hset
    by_cases hik : i = k
    · refine ⟨t, mem_childSched.2 (Or.inr rfl), ?_⟩
      rw [hself, hik]
    · rw [if_neg hik] at hset
      obtain ⟨u, hu, hpid⟩ := h.bit_pid i hi hset
      exact ⟨u, mem_childSched.2 (Or.inl hu), by rw [hold u hu, hpid]⟩
  case init_mem => exact mem_childSched.2 (Or.inl h.init_mem)
  case init_pid => rw [hold init h.init_mem, h.init_pid]
  case init_parent => rw [hold init h.init_mem, h.init_parent]
  case main_parent => rw [hmain, hold _ hok.main_mem, h.main_parent]
  case idle_pgdir => rw [hidle, hold _ hok.idle_mem, h.idle_pgdir]
  case parent =>
    intro u hu hproc hne
    rcases mem_childSched.1 hu with hu | rfl
    · rw [hold u hu] at hproc ⊢
      exact h.parent u hu hproc hne
    · rw [hself]
      exact Option.some_ne_none _
  case parent_mem =>
    intro u hu p hp
    rcases mem_childSched.1 hu with hu | rfl
    · rw [hold u hu] at hp
      obtain ⟨v, hv, hpid⟩ := h.parent_mem u hu p hp
      exact ⟨v, mem_childSched.2 (Or.inl hv), by rw [hold v hv, hpid]⟩
    · rw [hself] at hp
      refine ⟨s.cur, mem_childSched.2 (Or.inl hok.cur_mem), ?_⟩
      rw [hold _ hok.cur_mem]
      exact Option.some.inj hp
  case hanging_parent =>
    intro u hu hhang
    rcases mem_childSched.1 hu with hu | rfl
    · rw [hst u hu] at hhang
      rw [hold u hu]
      exact h.hanging_parent u hu hhang
    · rw [hready] at hhang
      cases hhang
  case hanging_childless =>
    intro u hu hhang v hv
    rcases mem_childSched.1 hu with hu | rfl
    · rw [hst u hu] at hhang
      rw [hold u hu]
      rcases mem_childSched.1 hv with hv | hvt
      · rw [hold v hv]
        exact h.hanging_childless u hu hhang v hv
      · -- the child's parent runs, so it does not hang
        rw [hvt, hself]
        intro hp
        obtain rfl := h.pid_inj _ hok.cur_mem u hu (Option.some.inj hp)
        rw [hok.status_cur] at hhang
        cases hhang
    · rw [hready] at hhang
      cases hhang
  case waiting =>
    intro u hu hne hwait v hv hp
    rcases mem_childSched.1 hv with hv | rfl
    · rcases mem_childSched.1 hu with hu | rfl
      · rw [hst u hu] at hwait
        rw [hold u hu, hold v hv] at hp
        rw [hst v hv]
        exact h.waiting u hu hne hwait v hv hp
      · rw [hready] at hwait
        cases hwait
    · rw [hready]
      decide

/-! ## `sys_exit` -/

/-- `init` can adopt the children of any process. -/
theorem FamilyOk.initAdopt (h : FamilyOk s init) (pid : ℕ) : FamilyOk (initAdopt s pid) init := by
  set s₁ := Userprog.initAdopt s pid
  have htask : ∀ t, s₁.tasks t = if t ∈ s.threadAllList ∧ (s.tasks t).parentPid = some pid then
      { s.tasks t with parentPid := some 1 } else s.tasks t := fun t => rfl
  have hpid : ∀ t, (s₁.tasks t).pid = (s.tasks t).pid := fun t => by rw [htask]; split <;> rfl
  have hpgdir : ∀ t, (s₁.tasks t).pgdir = (s.tasks t).pgdir := fun t => by
    rw [htask]; split <;> rfl
  have hst : ∀ t, s₁.status t = s.status t := fun t => by
    unfold Sched.status; rw [htask]; split <;> rfl
  -- a parent is the one it was, or `init`
  have hparent : ∀ t, (s₁.tasks t).parentPid = (s.tasks t).parentPid ∨
      (s.tasks t).parentPid ≠ none ∧ (s₁.tasks t).parentPid = some 1 := fun t => by
    rw [htask]
    split
    · next hp => exact Or.inr ⟨by rw [hp.2]; exact Option.some_ne_none _, rfl⟩
    · exact Or.inl rfl
  have hnone : ∀ t, (s₁.tasks t).parentPid = none ↔ (s.tasks t).parentPid = none := fun t => by
    rcases hparent t with hp | ⟨hp, hp'⟩
    · rw [hp]
    · rw [hp']
      exact iff_of_false (Option.some_ne_none _) hp
  have hinit : ∀ t ∈ s.threadAllList, (s.tasks t).pid = 1 → t = init := fun t ht hp =>
    h.pid_inj t ht init h.init_mem (hp.trans h.init_pid.symm)
  constructor
  case bitLen => exact h.bitLen
  case pid_bit => simp only [hpid]; exact h.pid_bit
  case pid_inj => simp only [hpid]; exact h.pid_inj
  case bit_pid => simp only [hpid]; exact h.bit_pid
  case init_mem => exact h.init_mem
  case init_pid => rw [hpid, h.init_pid]
  case init_parent => exact (hnone init).2 h.init_parent
  case main_parent => exact (hnone _).2 h.main_parent
  case idle_pgdir => rw [hpgdir]; exact h.idle_pgdir
  case parent => simp only [hpgdir, Ne, hnone]; exact h.parent
  case parent_mem =>
    intro t ht p hp
    simp only [hpid]
    rcases hparent t with hp' | ⟨-, hp'⟩
    · exact h.parent_mem t ht p (hp'.symm.trans hp)
    · exact ⟨init, h.init_mem, h.init_pid.trans (Option.some.inj (hp'.symm.trans hp))⟩
  case hanging_parent => simp only [hst, Ne, hnone]; exact h.hanging_parent
  case hanging_childless =>
    intro t ht hhang u hu
    rw [hst] at hhang
    rw [hpid]
    rcases hparent u with hp | ⟨-, hp⟩ <;> rw [hp]
    · exact h.hanging_childless t ht hhang u hu
    · intro hpid1
      obtain rfl := hinit t ht (Option.some.inj hpid1).symm
      exact h.hanging_parent t ht hhang h.init_parent
  case waiting =>
    intro t ht hne hwait u hu hp
    rw [hst] at hwait ⊢
    rw [hpid] at hp
    rcases hparent u with hp' | ⟨-, hp'⟩ <;> rw [hp'] at hp
    · exact h.waiting t ht hne hwait u hu hp
    · exact absurd (hinit t ht (Option.some.inj hp).symm) hne

/-- `init` adopts every child of the process `pid`. -/
theorem parentPid_initAdopt (s : Sched) (pid : ℕ) (ht : t ∈ s.threadAllList) :
    ((initAdopt s pid).tasks t).parentPid =
      if (s.tasks t).parentPid = some pid then some 1 else (s.tasks t).parentPid := by
  change (if _ then _ else _ : TaskStruct).parentPid = _
  by_cases hp : (s.tasks t).parentPid = some pid
  · rw [if_pos ⟨ht, hp⟩, if_pos hp]
  · rw [if_neg fun h => hp h.2, if_neg hp]

/-- `pid2thread` finds the parent of every task that has one. -/
theorem FamilyOk.pid2thread (h : FamilyOk s init) (ht : t ∈ s.threadAllList)
    (hp : (s.tasks t).parentPid ≠ none) : ∃ u ∈ s.threadAllList,
      some (s.tasks u).pid = (s.tasks t).parentPid ∧
      pid2thread s (s.tasks t).parentPid = some u := by
  obtain ⟨p, hp⟩ := Option.ne_none_iff_exists'.1 hp
  obtain ⟨v, hv, hpid⟩ := h.parent_mem t ht p hp
  have hsome : (Userprog.pid2thread s (s.tasks t).parentPid).isSome = true := by
    unfold Userprog.pid2thread
    rw [List.find?_isSome]
    exact ⟨v, hv, by rw [hp, hpid]; exact decide_eq_true rfl⟩
  obtain ⟨u, hu⟩ := Option.isSome_iff_exists.1 hsome
  have hfound := List.find?_some hu
  exact ⟨u, List.mem_of_find?_eq_some hu, of_decide_eq_true hfound, hu⟩

/-- What an exit does to the tasks on the list. -/
structure Hung (s s' : Sched) : Prop where
  all : s'.threadAllList = s.threadAllList
  fields : ∀ t, (s'.tasks t).pid = (s.tasks t).pid ∧
    (s'.tasks t).parentPid = (s.tasks t).parentPid ∧
    (s'.tasks t).exitStatus = (s.tasks t).exitStatus
  hanging : ∀ t, s'.status t = .hanging ↔ t = s.cur ∨ s.status t = .hanging

/-- A parent that waits is woken up. -/
def wakeParent (s : Sched) (u : ℕ) : Sched := if s.status u = .waiting then s.woken u else s

theorem wakeParent_cases (s : Sched) (u : ℕ) : s.status u = .waiting ∧ wakeParent s u = s.woken u ∨
    s.status u ≠ .waiting ∧ wakeParent s u = s := by
  unfold wakeParent
  split
  · next hw => exact Or.inl ⟨hw, rfl⟩
  · next hw => exact Or.inr ⟨hw, rfl⟩

theorem SchedOk.wakeParent {u : ℕ} (h : SchedOk s) (hu : u ∈ s.threadAllList) :
    SchedOk (wakeParent s u) ∧ wakeWaiting s u = .ok (wakeParent s u) := by
  unfold wakeWaiting
  rcases wakeParent_cases s u with ⟨hw, heq⟩ | ⟨hw, heq⟩ <;> rw [heq]
  · have hstop : (s.status u).Stopped := Or.inr (Or.inl hw)
    have hfree := h.not_mem_waiters (t := u) (by rw [hw]; decide)
    rw [if_pos hw]
    exact ⟨h.woken hu hstop hfree, h.threadUnblock hstop⟩
  · rw [if_neg hw]
    exact ⟨h, rfl⟩

theorem tasks_woken (s : Sched) (u v : ℕ) : (s.woken u).tasks v =
    { s.tasks v with status := (s.woken u).status v } := by
  change update s.tasks u _ v = _
  by_cases hvu : v = u
  · rw [s.status_woken, if_pos hvu, hvu, update_self]
  · rw [s.status_woken, if_neg hvu, update_of_ne hvu]
    rfl

theorem tasks_setStatus (s : Sched) (u v : ℕ) (st : TaskStatus) : (s.setStatus u st).tasks v =
    { s.tasks v with status := (s.setStatus u st).status v } := by
  change update s.tasks u _ v = _
  by_cases hvu : v = u
  · rw [s.status_setStatus, if_pos hvu, hvu, update_self]
  · rw [s.status_setStatus, if_neg hvu, update_of_ne hvu]
    rfl

/-- `wakeParent` changes nothing but that the parent does not wait any more. -/
theorem wakeParent_spec (s : Sched) (u : ℕ) : (wakeParent s u).cur = s.cur ∧
    (wakeParent s u).threadAllList = s.threadAllList ∧
    (wakeParent s u).idleThread = s.idleThread ∧ (wakeParent s u).mainThread = s.mainThread ∧
    (wakeParent s u).pidBitmap = s.pidBitmap ∧
    (∀ v, (wakeParent s u).tasks v =
      { s.tasks v with status := (wakeParent s u).status v }) ∧
    (∀ v, (wakeParent s u).status v = .hanging ↔ s.status v = .hanging) ∧
    (∀ v, (wakeParent s u).status v = .waiting ↔ s.status v = .waiting ∧ v ≠ u) := by
  rcases wakeParent_cases s u with ⟨hw, heq⟩ | ⟨hw, heq⟩ <;> rw [heq]
  · refine ⟨rfl, rfl, rfl, rfl, rfl, tasks_woken s u, fun v => ?_, fun v => ?_⟩ <;>
      rw [s.status_woken] <;> split
    · next hvu =>
      rw [hvu, hw]
      decide
    · exact Iff.rfl
    · next hvu => exact iff_of_false (by decide) fun h => h.2 hvu
    · next hvu => exact (and_iff_left hvu).symm
  · refine ⟨rfl, rfl, rfl, rfl, rfl, fun _ => rfl, fun _ => Iff.rfl, fun v => ?_⟩
    refine ⟨fun hv => ⟨hv, fun hvu => hw (hvu ▸ hv)⟩, fun hv => hv.1⟩

/-- A process with a parent and without children hangs. -/
theorem hang_ok (hok : SchedOk s) (h : FamilyOk s init) (hproc : (s.tasks s.cur).pgdir = true)
    (hparent : (s.tasks s.cur).parentPid ≠ none)
    (hchild : ∀ u ∈ s.threadAllList, (s.tasks u).parentPid ≠ some (s.tasks s.cur).pid) :
    ∃ s', hang s = .ok s' ∧ SchedOk s' ∧ FamilyOk s' init ∧ Hung s s' := by
  obtain ⟨u, hu, hpid, hfind⟩ := h.pid2thread hok.cur_mem hparent
  obtain ⟨hok₁, hwake⟩ := SchedOk.wakeParent hok hu
  obtain ⟨hcur, hall, hidle, hmain, hpids, htasks, hhang, hwait⟩ := wakeParent_spec s u
  set s₁ := wakeParent s u
  have hne : s₁.cur ≠ s₁.idleThread := by
    rw [hcur, hidle]
    intro hc
    rw [hc, h.idle_pgdir] at hproc
    cases hproc
  obtain ⟨s', hrun, hok', hsw⟩ := hok₁.threadBlock .hanging (Or.inr (Or.inr rfl))
    fun hc => absurd hc hne
  have hst : ∀ v, (s₁.setStatus s₁.cur .hanging).status v =
      if v = s.cur then .hanging else s₁.status v := fun v => by rw [s₁.status_setStatus, hcur]
  have hhang' : ∀ v, (s₁.setStatus s₁.cur .hanging).status v = .hanging ↔
      v = s.cur ∨ s.status v = .hanging := fun v => by
    rw [hst]
    split
    · next hv => exact iff_of_true rfl (Or.inl hv)
    · next hv => rw [hhang, or_iff_right hv]
  have hfields : ∀ v, (s₁.setStatus s₁.cur .hanging).tasks v =
      { s.tasks v with status := (s₁.setStatus s₁.cur .hanging).status v } := fun v => by
    rw [tasks_setStatus, htasks]
  refine ⟨s', ?_, hok', FamilyOk.sameLife ?_ hsw.toSameLife, hsw.all.trans hall, fun v => ?_,
    fun v => (hsw.hanging v).trans (hhang' v)⟩
  · unfold hang
    rw [hfind]
    dsimp only
    rw [hwake, ok_bind, hrun]
  · refine h.restate hall hidle hmain hpids (fun v => ?_) (fun v hv hst' => ?_)
      fun v hv hvne hw w hw' hp => ?_
    · rw [hfields]
      exact ⟨rfl, rfl, rfl⟩
    · rcases (hhang' v).1 hst' with rfl | hold
      · exact ⟨hparent, hchild⟩
      · exact ⟨h.hanging_parent v hv hold, h.hanging_childless v hv hold⟩
    · -- the parent of the process does not wait any more
      rw [hst] at hw
      split at hw
      · cases hw
      obtain ⟨hwv, hvu⟩ := (hwait v).1 hw
      rw [Ne, hhang']
      rintro (rfl | hh)
      · exact hvu (h.pid_inj v hv u hu (Option.some.inj (hp.symm.trans hpid.symm)))
      · exact h.waiting v hv hvne hwv w hw' hp hh
  · obtain ⟨h1, -, h3, h4⟩ := hsw.fields v
    rw [h1, h3, h4, hfields]
    exact ⟨rfl, rfl, rfl⟩

/-- What `sys_exit` does. -/
structure Exited (s s' : Sched) (status : ℤ) : Prop where
  all : s'.threadAllList = s.threadAllList
  pid : ∀ t, (s'.tasks t).pid = (s.tasks t).pid
  parentPid : ∀ t ∈ s.threadAllList, (s'.tasks t).parentPid =
    if (s.tasks t).parentPid = some (s.tasks s.cur).pid then some 1 else (s.tasks t).parentPid
  exitStatus : ∀ t, (s'.tasks t).exitStatus =
    if t = s.cur then status.bmod 256 else (s.tasks t).exitStatus
  hanging : ∀ t, s'.status t = .hanging ↔ t = s.cur ∨ s.status t = .hanging

/-- **`sys_exit` by a process other than `init`** goes through: `pid2thread` finds the parent. -/
theorem sysExit_ok (hok : SchedOk s) (h : FamilyOk s init)
    (hproc : (s.tasks s.cur).pgdir = true) (hne : s.cur ≠ init) (status : ℤ) :
    ∃ s', sysExit s status = .ok s' ∧ SchedOk s' ∧ FamilyOk s' init ∧ Exited s s' status := by
  set s₁ := setExitStatus s status
  have htask₁ : ∀ t, s₁.tasks t = { s.tasks t with
      exitStatus := if t = s.cur then status.bmod 256 else (s.tasks t).exitStatus } := fun t => by
    change update s.tasks s.cur _ t = _
    by_cases ht : t = s.cur
    · rw [if_pos ht, ht, update_self]
    · rw [if_neg ht, update_of_ne ht]
  have hst₁ : ∀ t, s₁.status t = s.status t := fun t => by unfold Sched.status; rw [htask₁]
  have hok₁ : SchedOk s₁ := hok.congr hst₁ rfl rfl rfl rfl rfl fun _ => .refl _
  have h₁ : FamilyOk s₁ init := by
    refine h.restate rfl rfl rfl rfl (fun t => by rw [htask₁]; exact ⟨rfl, rfl, rfl⟩)
      (fun t ht hhang => ?_) fun t ht hne hw u hu hp => ?_
    · rw [hst₁] at hhang
      exact ⟨h.hanging_parent t ht hhang, h.hanging_childless t ht hhang⟩
    · rw [hst₁] at hw ⊢
      exact h.waiting t ht hne hw u hu hp
  set p := (s₁.tasks s₁.cur).pid with hp
  have hpid : p = (s.tasks s.cur).pid := by rw [hp, htask₁]; rfl
  have hparent₁ : (s₁.tasks s₁.cur).parentPid ≠ none := h₁.parent _ hok₁.cur_mem
    (by rw [htask₁]; exact hproc) hne
  have hne1 : p ≠ 1 := fun h1 => hne (h₁.pid_inj _ hok₁.cur_mem init h₁.init_mem
    (h1.trans h₁.init_pid.symm))
  set s₂ := initAdopt s₁ p
  have htask₂ : ∀ t, s₂.tasks t = { s₁.tasks t with parentPid := (s₂.tasks t).parentPid } :=
    fun t => by
      have htask : s₂.tasks t = if t ∈ s₁.threadAllList ∧ (s₁.tasks t).parentPid = some p then
          { s₁.tasks t with parentPid := some 1 } else s₁.tasks t := rfl
      rw [htask]
      split <;> rfl
  have hst₂ : ∀ t, s₂.status t = s.status t := fun t => by
    rw [← hst₁]; unfold Sched.status; rw [htask₂]
  have hok₂ : SchedOk s₂ := hok.congr hst₂ rfl rfl rfl rfl rfl fun _ => .refl _
  have hpar₂ : ∀ t ∈ s.threadAllList, (s₂.tasks t).parentPid =
      if (s₁.tasks t).parentPid = some p then some 1 else (s₁.tasks t).parentPid :=
    fun t ht => parentPid_initAdopt s₁ p ht
  have hparent₂ : (s₂.tasks s.cur).parentPid ≠ none := by
    rw [hpar₂ _ hok.cur_mem]
    split
    · exact Option.some_ne_none _
    · exact hparent₁
  have hpid₂ : ∀ t, (s₂.tasks t).pid = (s₁.tasks t).pid := fun t => by rw [htask₂]
  -- all children of the process are adopted
  have hchild : ∀ u ∈ s₂.threadAllList, (s₂.tasks u).parentPid ≠ some (s₂.tasks s₂.cur).pid := by
    intro u hu hc
    rw [hpar₂ u hu, hpid₂] at hc
    split at hc
    · exact hne1 (Option.some.inj hc).symm
    · next hu' => exact hu' hc
  obtain ⟨s', hrun, hok', h', hung⟩ := hang_ok hok₂ (h₁.initAdopt p)
    (by rw [htask₂, htask₁]; exact hproc) hparent₂ hchild
  refine ⟨s', ?_, hok', h', hung.all, fun t => ?_, fun t ht => ?_, fun t => ?_, fun t => ?_⟩
  · unfold sysExit
    dsimp only
    rw [assert, if_pos hparent₁, ok_bind, hrun]
  · rw [(hung.fields t).1, hpid₂, htask₁]
  · rw [(hung.fields t).2.1, hpar₂ t ht, htask₁, hpid]
  · rw [(hung.fields t).2.2, htask₂, htask₁]
  · rw [hung.hanging, hst₂]
    rfl

/-- `init` has no parent and must not exit. -/
theorem sysExit_init (h : FamilyOk s init) (hcur : s.cur = init) (status : ℤ) :
    sysExit s status = .error .assert := by
  have hparent : ((setExitStatus s status).tasks (setExitStatus s status).cur).parentPid =
      none := by
    change (update s.tasks s.cur _ s.cur).parentPid = none
    rw [update_self, hcur]
    exact h.init_parent
  unfold sysExit
  dsimp only
  rw [assert, if_neg (not_not.2 hparent)]
  rfl

/-! ## `sys_wait` -/

theorem findHangingChild_some {p : ℕ} (h : findHangingChild s p = some t) :
    t ∈ s.threadAllList ∧ (s.tasks t).parentPid = some p ∧ s.status t = .hanging := by
  have hfound := List.find?_some h
  exact ⟨List.mem_of_find?_eq_some h, of_decide_eq_true hfound⟩

theorem findHangingChild_none {p : ℕ} (h : findHangingChild s p = none) (ht : t ∈ s.threadAllList)
    (hp : (s.tasks t).parentPid = some p) : s.status t ≠ .hanging := fun hst =>
  List.find?_eq_none.1 h t ht (decide_eq_true ⟨hp, hst⟩)

theorem findChild_none {p : ℕ} (h : findChild s p = none) (ht : t ∈ s.threadAllList) :
    (s.tasks t).parentPid ≠ some p := fun hp =>
  List.find?_eq_none.1 h t ht (decide_eq_true hp)

/-- A caller without a hanging child goes to sleep. -/
theorem FamilyOk.sleep (h : FamilyOk s init) (hok : SchedOk s)
    (hnone : findHangingChild s (s.tasks s.cur).pid = none) :
    FamilyOk (s.setStatus s.cur .waiting) init := by
  have hst : ∀ t, (s.setStatus s.cur .waiting).status t = .hanging ↔ s.status t = .hanging :=
    fun t => by
      rw [s.status_setStatus]
      split
      · next ht =>
        rw [ht, hok.status_cur]
        decide
      · exact Iff.rfl
  refine h.restate rfl rfl rfl rfl (fun t => by rw [tasks_setStatus]; exact ⟨rfl, rfl, rfl⟩)
    (fun t ht hhang => ?_) fun t ht hne hw u hu hp => ?_
  · rw [hst] at hhang
    exact ⟨h.hanging_parent t ht hhang, h.hanging_childless t ht hhang⟩
  · rw [Ne, hst]
    rw [s.status_setStatus] at hw
    split at hw
    · next htc =>
      rw [htc] at hp
      exact findHangingChild_none hnone hu hp
    · exact h.waiting t ht hne hw u hu hp

theorem SchedOk.mem_threadExit (h : SchedOk s) (t u : ℕ) :
    u ∈ (threadExit s t).threadAllList ↔ u ≠ t ∧ u ∈ s.threadAllList := h.all_nodup.mem_erase_iff

theorem tasks_threadExit (s : Sched) (t u : ℕ) :
    (threadExit s t).tasks u = { s.tasks u with status := (threadExit s t).status u } :=
  tasks_setStatus s t u .died

theorem status_threadExit_of_ne {u : ℕ} (hu : u ≠ t) : (threadExit s t).status u = s.status u :=
  (s.status_setStatus t u .died).trans (if_neg hu)

theorem SchedOk.threadExit (h : SchedOk s) (ht : s.status t = .hanging)
    (hmain : t ≠ s.mainThread) : SchedOk (threadExit s t) := by
  have hready : s.threadReadyList.erase t = s.threadReadyList :=
    List.erase_of_not_mem (h.not_mem_ready (by rw [ht]; decide))
  have hmem := SchedOk.mem_threadExit h t
  have hne : ∀ u, s.status u ≠ .hanging → u ≠ t := fun u hu hut => hu (hut ▸ ht)
  have hidle : s.idleThread ≠ t := hne _ (by
    rcases h.idle_status with hst | hst | hst <;> rw [hst] <;> decide)
  constructor
  case toQueues =>
    constructor
    case all_nodup => exact h.all_nodup.erase t
    case ready_iff =>
      intro u
      change u ∈ s.threadReadyList.erase t ↔ _
      rw [hready, hmem, h.ready_iff]
      constructor
      · rintro ⟨hu, hst⟩
        have hut := hne u (by rw [hst]; decide)
        exact ⟨⟨hut, hu⟩, (status_threadExit_of_ne hut).trans hst⟩
      · rintro ⟨⟨hut, hu⟩, hst⟩
        exact ⟨hu, (status_threadExit_of_ne hut).symm.trans hst⟩
    case ready_nodup => exact h.ready_nodup.erase t
    case waiter =>
      intro i u hu
      obtain ⟨hall, hst⟩ := h.waiter i u hu
      have hut := hne u (by rw [hst]; decide)
      exact ⟨(hmem u).2 ⟨hut, hall⟩, (status_threadExit_of_ne hut).trans hst⟩
    case waiters_nodup => exact h.waiters_nodup
    case waiters_disjoint => exact h.waiters_disjoint
    case cur_mem =>
      have hcur : s.cur ≠ t := hne _ (by rw [h.status_cur]; decide)
      exact (hmem _).2 ⟨hcur, h.cur_mem⟩
    case main_mem => exact (hmem _).2 ⟨hmain.symm, h.main_mem⟩
    case idle_mem => exact (hmem _).2 ⟨hidle, h.idle_mem⟩
    case idle_awake => exact h.idle_awake
    case idle_status =>
      have hi : (Userprog.threadExit s t).idleThread = s.idleThread := rfl
      rw [hi, status_threadExit_of_ne hidle]
      exact h.idle_status
  case running_iff =>
    intro u hu
    obtain ⟨hut, hu⟩ := (hmem u).1 hu
    rw [status_threadExit_of_ne hut]
    exact h.running_iff u hu

/-- A hanging child goes, and its pid is free again. -/
theorem FamilyOk.threadExit (h : FamilyOk s init) (hok : SchedOk s) (ht : t ∈ s.threadAllList)
    (hhang : s.status t = .hanging) : FamilyOk (threadExit s t) init := by
  set s₁ := Userprog.threadExit s t
  have hmem := SchedOk.mem_threadExit hok t
  have htask := tasks_threadExit s t
  have hst : ∀ u, u ≠ t → s₁.status u = s.status u := fun u => status_threadExit_of_ne
  have hbit : ∀ i, s₁.pidBitmap.bit i =
      if i = (s.tasks t).pid - 1 then false else s.pidBitmap.bit i := fun i =>
    s.pidBitmap.set_bit _ false i
  -- two pids that are not 0 differ if and only if their bits do
  have hpid : ∀ u ∈ s.threadAllList, u ≠ t → (s.tasks u).pid - 1 ≠ (s.tasks t).pid - 1 := by
    intro u hu hut heq
    have hpos := (h.pid_bit u hu).1
    have hpos' := (h.pid_bit t ht).1
    exact hut (h.pid_inj u hu t ht (by omega))
  have hinit : init ≠ t := fun hi => h.hanging_parent t ht hhang (hi ▸ h.init_parent)
  constructor
  case bitLen => exact h.bitLen
  case pid_bit =>
    intro u hu
    obtain ⟨hut, hu⟩ := (hmem u).1 hu
    rw [hbit, htask, if_neg (hpid u hu hut)]
    exact h.pid_bit u hu
  case pid_inj =>
    intro u hu v hv huv
    rw [htask, htask] at huv
    exact h.pid_inj u ((hmem u).1 hu).2 v ((hmem v).1 hv).2 huv
  case bit_pid =>
    intro i hi hset
    rw [hbit] at hset
    split at hset
    · cases hset
    · next hne =>
      obtain ⟨u, hu, hpidu⟩ := h.bit_pid i hi hset
      have hut : u ≠ t := fun hut => hne (by rw [← hut, hpidu, Nat.add_sub_cancel])
      exact ⟨u, (hmem u).2 ⟨hut, hu⟩, by rw [htask]; exact hpidu⟩
  case init_mem => exact (hmem init).2 ⟨hinit, h.init_mem⟩
  case init_pid => rw [htask]; exact h.init_pid
  case init_parent => rw [htask]; exact h.init_parent
  case main_parent => rw [htask]; exact h.main_parent
  case idle_pgdir => rw [htask]; exact h.idle_pgdir
  case parent =>
    intro u hu hproc hne
    rw [htask] at hproc ⊢
    exact h.parent u ((hmem u).1 hu).2 hproc hne
  case parent_mem =>
    intro u hu p hp
    rw [htask] at hp
    have hu := ((hmem u).1 hu).2
    obtain ⟨v, hv, hpidv⟩ := h.parent_mem u hu p hp
    -- the one that goes has no children
    have hvt : v ≠ t := fun hvt => h.hanging_childless t ht hhang u hu
      (by rw [← hvt, hpidv]; exact hp)
    exact ⟨v, (hmem v).2 ⟨hvt, hv⟩, by rw [htask]; exact hpidv⟩
  case hanging_parent =>
    intro u hu hh
    obtain ⟨hut, hu⟩ := (hmem u).1 hu
    rw [hst u hut] at hh
    rw [htask]
    exact h.hanging_parent u hu hh
  case hanging_childless =>
    intro u hu hh v hv
    obtain ⟨hut, hu⟩ := (hmem u).1 hu
    rw [hst u hut] at hh
    rw [htask, htask]
    exact h.hanging_childless u hu hh v ((hmem v).1 hv).2
  case waiting =>
    intro u hu hne hw v hv hp
    obtain ⟨hut, hu⟩ := (hmem u).1 hu
    obtain ⟨hvt, hv⟩ := (hmem v).1 hv
    rw [hst u hut] at hw
    rw [htask, htask u] at hp
    rw [hst v hvt]
    exact h.waiting u hu hne hw v hv hp

end Gardos.Userprog
