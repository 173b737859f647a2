import Gardos.Thread.Queues

/-!
# Recursive locks (`thread/sync.c`)

`lock_acquire` and `lock_release` run with interrupts on, apart from `sema_down` and `sema_up`
inside them, so a thread can lose the processor between any two of their statements. `LockPc` lists
the points at which it can, and `LockAct.exec` is the step from each to the next. A thread that
wakes up inside `sema_down` has interrupts off until it has tested the value again, so there the
only next step is that test.

The semaphore is owned from the end of `sema_down` to `sema_up`. `LockOk` says of every point
in between what the owner has written to the lock by then (`LockPc.view`), and
`lockSafe_of_run` draws the consequences for every run.
-/

namespace Gardos.Thread

open Outcome Sched Function

/-- `struct lock`; `semaphore` is the index of its semaphore in the system. -/
structure Lock where
  holder : Option ℕ
  semaphore : ℕ
  holderRepeatNr : ℕ

/-- Where a thread is in `lock_acquire` or `lock_release`: before the statement that is named. -/
inductive LockPc
  | outside
  /-- `sema_down` is next. -/
  | down
  /-- Asleep in `sema_down`, or woken up there and not yet back. -/
  | asleep
  /-- `plock->holder = running_thread()` is next. -/
  | own
  /-- `ASSERT(plock->holder_repeat_nr == 0)` is next. -/
  | marked
  /-- `plock->holder_repeat_nr = 1` is next. -/
  | checked
  /-- `plock->holder_repeat_nr++` is next. -/
  | again
  /-- `plock->holder_repeat_nr++` has read `n`. -/
  | bump (n : ℕ)
  /-- `if (plock->holder_repeat_nr > 1)` is next. -/
  | release
  /-- `plock->holder_repeat_nr--` is next. -/
  | dec
  /-- `plock->holder_repeat_nr--` has read `n`. -/
  | drop (n : ℕ)
  /-- `ASSERT(plock->holder_repeat_nr == 1)` is next. -/
  | last
  /-- `plock->holder = NULL` is next. -/
  | clear
  /-- `plock->holder_repeat_nr = 0` is next. -/
  | zero
  /-- `sema_up` is next. -/
  | up
  deriving DecidableEq

/-- The scheduler, one lock, and for each thread its place in the code and the number of its
calls of `lock_acquire` that are not matched yet. -/
structure LockSys where
  sched : Sched
  lock : Lock
  pc : ℕ → LockPc
  depth : ℕ → ℕ

namespace LockSys

def cur (x : LockSys) : ℕ := x.sched.cur

def sema (x : LockSys) : Semaphore := x.sched.semas x.lock.semaphore

/-- The current thread goes on to `pc`, with nesting depth `depth`, and has written `lock`. -/
def goto (x : LockSys) (pc : LockPc) (depth : ℕ) (lock : Lock) : LockSys :=
  { x with
    pc := update x.pc x.cur pc
    depth := update x.depth x.cur depth
    lock := lock }

/-- A round of `sema_down` in `lock_acquire`. -/
def tryDown (x : LockSys) : Outcome LockSys := do
  let (got, s) ← x.sched.semaDown x.lock.semaphore
  return { x.goto (if got then .own else .asleep) (x.depth x.cur) x.lock with sched := s }

/-- The next statement of the current thread in `lock_acquire` or `lock_release`. -/
def run (x : LockSys) : Outcome LockSys :=
  let d := x.depth x.cur
  match x.pc x.cur with
  | .outside => pure x
  | .down => x.tryDown
  | .asleep => x.tryDown
  | .own => pure (x.goto .marked d { x.lock with holder := some x.cur })
  | .marked => do
    assert (x.lock.holderRepeatNr = 0)
    return x.goto .checked d x.lock
  | .checked => pure (x.goto .outside (d + 1) { x.lock with holderRepeatNr := 1 })
  | .again => pure (x.goto (.bump x.lock.holderRepeatNr) d x.lock)
  | .bump n => pure (x.goto .outside (d + 1) { x.lock with holderRepeatNr := (n + 1) % 2 ^ 32 })
  | .release => pure (x.goto (if 1 < x.lock.holderRepeatNr then .dec else .last) d x.lock)
  | .dec => pure (x.goto (.drop x.lock.holderRepeatNr) d x.lock)
  | .drop n => pure (x.goto .outside (d - 1) { x.lock with holderRepeatNr := n - 1 })
  | .last => do
    assert (x.lock.holderRepeatNr = 1)
    return x.goto .clear d x.lock
  | .clear => pure (x.goto .zero d { x.lock with holder := none })
  | .zero => pure (x.goto .up d { x.lock with holderRepeatNr := 0 })
  | .up => do
    let s ← x.sched.semaUp x.lock.semaphore
    return { x.goto .outside (d - 1) x.lock with sched := s }

end LockSys

/-- The steps: a call of `lock_acquire` or `lock_release` up to the first interruption, the next
statement inside, or something that has nothing to do with the lock. -/
inductive LockAct
  | acquire
  | release
  | run
  | other (c : SchedCall)

namespace LockAct

def exec (x : LockSys) : LockAct → Outcome LockSys
  | .acquire =>
    pure (x.goto (if x.lock.holder ≠ some x.cur then .down else .again) (x.depth x.cur) x.lock)
  | .release => do
    assert (x.lock.holder = some x.cur)
    return x.goto .release (x.depth x.cur) x.lock
  | .run => x.run
  | .other c => do
    let s ← c.exec x.sched
    return { x with sched := s }

/-- The threads call `lock_acquire` and `lock_release` in matched pairs. The rest of the system
does what it likes whenever interrupts are on, on other semaphores; the idle thread only runs its
loop. -/
def Enabled (x : LockSys) : LockAct → Prop
  | .acquire => x.pc x.cur = .outside ∧ x.cur ≠ x.sched.idleThread
  | .release => x.pc x.cur = .outside ∧ 0 < x.depth x.cur
  | .run => x.pc x.cur ≠ .outside
  | .other c => x.pc x.cur ≠ .asleep ∧ c.Admissible x.sched ∧ ¬ c.Refused x.sched ∧
      ¬ c.Uses x.lock.semaphore

/-- The lock is not acquired again when its counter is at its maximum. -/
def Countable (x : LockSys) : LockAct → Prop
  | .acquire => x.lock.holder = some x.cur → x.lock.holderRepeatNr ≠ 2 ^ 32 - 1
  | _ => True

end LockAct

/-! ## Calls in one go

With interrupts off nothing comes between the statements. `lock_acquire` then ends with the lock
taken, or with the caller asleep in `sema_down`. -/

/-- `lock_acquire` from `sema_down` on; `false` if the caller sleeps there. -/
def lockDown (s : Sched) (l : Lock) : Outcome (Bool × Sched × Lock) := do
  let (got, s') ← s.semaDown l.semaphore
  if got then
    assert (l.holderRepeatNr = 0)
    return (true, s', { l with holder := some s.cur, holderRepeatNr := 1 })
  else
    return (false, s', l)

/-- `lock_acquire` with interrupts off. -/
def lockAcquire (s : Sched) (l : Lock) : Outcome (Bool × Sched × Lock) :=
  if l.holder ≠ some s.cur then lockDown s l
  else pure (true, s, { l with holderRepeatNr := (l.holderRepeatNr + 1) % 2 ^ 32 })

/-- `lock_release` with interrupts off. -/
def lockRelease (s : Sched) (l : Lock) : Outcome (Sched × Lock) := do
  assert (l.holder = some s.cur)
  if 1 < l.holderRepeatNr then
    return (s, { l with holderRepeatNr := l.holderRepeatNr - 1 })
  assert (l.holderRepeatNr = 1)
  let s ← s.semaUp l.semaphore
  return (s, { l with holder := none, holderRepeatNr := 0 })

/-! ## The invariant -/

/-- What the owner of the semaphore has written to the lock at a point of the code: whether
`holder` is the owner, and `holder_repeat_nr`. `none` if the thread does not own the semaphore. -/
def LockPc.view : LockPc → ℕ → Option (Bool × ℕ)
  | .outside, 0 => none
  | .down, _ => none
  | .asleep, _ => none
  | .own, _ => some (false, 0)
  | .marked, _ => some (true, 0)
  | .checked, _ => some (true, 0)
  | .zero, d => some (false, d)
  | .up, _ => some (false, 0)
  | _, d => some (true, d)

/-- The nesting depth with which a thread can be at a point of the code. -/
def LockPc.Fits (d : ℕ) : LockPc → Prop
  | .outside => d < 2 ^ 32
  | .again => 1 ≤ d ∧ d + 1 < 2 ^ 32
  | .bump n => n = d ∧ 1 ≤ d ∧ d + 1 < 2 ^ 32
  | .release => 1 ≤ d ∧ d < 2 ^ 32
  | .dec => 2 ≤ d ∧ d < 2 ^ 32
  | .drop n => n = d ∧ 2 ≤ d ∧ d < 2 ^ 32
  | .last => d = 1
  | .clear => d = 1
  | .zero => d = 1
  | .up => d = 1
  | _ => d = 0

namespace LockSys

/-- What the thread `t` has written to the lock, if it owns the semaphore. -/
def view (x : LockSys) (t : ℕ) : Option (Bool × ℕ) := (x.pc t).view (x.depth t)

/-- The lock as its owner `t` left it. -/
structure OwnedBy (x : LockSys) (t : ℕ) : Prop where
  value : x.sema.value = 0
  only : ∀ u, x.view u ≠ none → u = t
  written : ∃ b n, x.view t = some (b, n) ∧ x.lock.holder = (if b then some t else none) ∧
    x.lock.holderRepeatNr = n

/-- The lock that nobody has. -/
structure Free (x : LockSys) : Prop where
  value : x.sema.value = 1
  none_owns : ∀ t, x.view t = none
  holder : x.lock.holder = none
  holderRepeatNr : x.lock.holderRepeatNr = 0

end LockSys

/-- The invariant of a lock. -/
structure LockOk (x : LockSys) : Prop where
  sched : SchedOk x.sched
  fits : ∀ t, (x.pc t).Fits (x.depth t)
  owner : (∃ t, x.OwnedBy t) ∨ x.Free
  asleep : ∀ t ∈ x.sema.waiters, x.pc t = .asleep
  /-- No wake-up is lost. -/
  wake : x.sema.value = 1 → x.sema.waiters ≠ [] → ∃ t, x.pc t = .asleep ∧ t ∉ x.sema.waiters
  idle : x.pc x.sched.idleThread = .outside ∧ x.depth x.sched.idleThread = 0

variable {x x' : LockSys} {pc : LockPc} {d : ℕ} {l : Lock} {s : Sched} {t : ℕ}

theorem LockSys.pc_goto (x : LockSys) (pc : LockPc) (d : ℕ) (l : Lock) (t : ℕ) :
    (x.goto pc d l).pc t = if t = x.cur then pc else x.pc t :=
  update_apply ..

theorem LockSys.depth_goto (x : LockSys) (pc : LockPc) (d : ℕ) (l : Lock) (t : ℕ) :
    (x.goto pc d l).depth t = if t = x.cur then d else x.depth t :=
  update_apply ..

theorem LockSys.view_goto (x : LockSys) (pc : LockPc) (d : ℕ) (l : Lock) (t : ℕ) :
    (x.goto pc d l).view t = if t = x.cur then pc.view d else x.view t := by
  unfold view
  rw [pc_goto, depth_goto]
  split <;> rfl

/-- The thread that owns the semaphore is the one that the invariant names. -/
theorem LockOk.ownedBy (h : LockOk x) (ht : x.view t ≠ none) : x.OwnedBy t := by
  rcases h.owner with ⟨u, hu⟩ | hfree
  · rw [hu.only t ht]
    exact hu
  · exact absurd (hfree.none_owns t) ht

theorem LockOk.written (h : LockOk x) {b : Bool} {n : ℕ} (ht : x.view t = some (b, n)) :
    x.lock.holder = (if b then some t else none) ∧ x.lock.holderRepeatNr = n := by
  obtain ⟨b', n', hv, hh, hn⟩ := (h.ownedBy (ht ▸ Option.some_ne_none _)).written
  obtain ⟨rfl, rfl⟩ := Prod.mk.inj (Option.some.inj (hv.symm.trans ht))
  exact ⟨hh, hn⟩

/-- A thread that `holder` names owns the semaphore. -/
theorem LockOk.view_of_holder (h : LockOk x) (ht : x.lock.holder = some t) :
    x.view t = some (true, x.lock.holderRepeatNr) := by
  rcases h.owner with ⟨u, hu⟩ | hfree
  · obtain ⟨b, n, hv, hh, hn⟩ := hu.written
    rw [ht] at hh
    cases b with
    | true =>
      obtain rfl := Option.some.inj hh
      rw [hn]
      exact hv
    | false => cases hh
  · rw [hfree.holder] at ht
    cases ht

/-- The waiters do not notice what the current thread does. -/
theorem LockOk.pc_goto_waiter (h : LockOk x) (ht : t ∈ x.sema.waiters) (pc : LockPc) (d : ℕ)
    (l : Lock) : (x.goto pc d l).pc t = .asleep := by
  rw [x.pc_goto, if_neg fun htc => h.sched.cur_not_mem_waiters _ (htc ▸ ht)]
  exact h.asleep t ht

theorem LockOk.fits_goto (h : LockOk x) (hfits : pc.Fits d) (l : Lock) (t : ℕ) :
    ((x.goto pc d l).pc t).Fits ((x.goto pc d l).depth t) := by
  rw [x.pc_goto, x.depth_goto]
  split
  · exact hfits
  · exact h.fits t

theorem LockOk.idle_goto (h : LockOk x) (hidle : x.cur ≠ x.sched.idleThread) (pc : LockPc)
    (d : ℕ) (l : Lock) : (x.goto pc d l).pc x.sched.idleThread = .outside ∧
      (x.goto pc d l).depth x.sched.idleThread = 0 := by
  rw [x.pc_goto, x.depth_goto, if_neg hidle.symm, if_neg hidle.symm]
  exact h.idle

/-- The owner goes on to another point at which it owns the semaphore. -/
theorem LockOk.moveOwner (h : LockOk x) (hcur : x.view x.cur ≠ none) {b : Bool} {n : ℕ}
    (hidle : x.cur ≠ x.sched.idleThread) (hview : pc.view d = some (b, n)) (hfits : pc.Fits d)
    (hsema : l.semaphore = x.lock.semaphore)
    (hholder : l.holder = if b then some x.cur else none) (hnr : l.holderRepeatNr = n) :
    LockOk (x.goto pc d l) := by
  have hown := h.ownedBy hcur
  have hs : (x.goto pc d l).sema = x.sema := congrArg x.sched.semas hsema
  have hself : (x.goto pc d l).view x.cur = some (b, n) := by
    rw [x.view_goto, if_pos rfl, hview]
  constructor
  case sched => exact h.sched
  case fits => exact h.fits_goto hfits l
  case owner =>
    refine Or.inl ⟨x.cur, ⟨by rw [hs]; exact hown.value, fun u hu => ?_, b, n, hself, hholder,
      hnr⟩⟩
    by_contra hne
    rw [x.view_goto, if_neg hne] at hu
    exact hne (hown.only u hu)
  case asleep =>
    intro t ht
    rw [hs] at ht
    exact h.pc_goto_waiter ht pc d l
  case wake =>
    rw [hs]
    intro hv _
    rw [hown.value] at hv
    cases hv
  case idle => exact h.idle_goto hidle pc d l

/-- The owner stays the owner when another thread moves without touching the lock. -/
theorem LockSys.OwnedBy.congr (h : x.OwnedBy t) (hlock : x'.lock = x.lock)
    (hvalue : x'.sema.value = x.sema.value) (hview : ∀ u, x'.view u = x.view u) :
    x'.OwnedBy t := by
  refine ⟨hvalue.trans h.value, fun u hu => h.only u (hview u ▸ hu), ?_⟩
  rw [hview, hlock]
  exact h.written

theorem LockSys.Free.congr (h : x.Free) (hlock : x'.lock = x.lock)
    (hvalue : x'.sema.value = x.sema.value) (hview : ∀ u, x'.view u = x.view u) : x'.Free := by
  refine ⟨hvalue.trans h.value, fun u => (hview u).trans (h.none_owns u), ?_, ?_⟩
  · rw [hlock]
    exact h.holder
  · rw [hlock]
    exact h.holderRepeatNr

/-- A step that does not touch the lock and the owner leaves the ownership as it is. -/
theorem LockOk.owner_congr (h : LockOk x) (hlock : x'.lock = x.lock)
    (hvalue : x'.sema.value = x.sema.value) (hview : ∀ u, x'.view u = x.view u) :
    (∃ t, x'.OwnedBy t) ∨ x'.Free :=
  h.owner.imp (fun ⟨t, ht⟩ => ⟨t, ht.congr hlock hvalue hview⟩)
    fun hfree => hfree.congr hlock hvalue hview

/-- A thread calls `lock_acquire` and finds another holder. -/
theorem LockOk.enter (h : LockOk x) (hidle : x.cur ≠ x.sched.idleThread)
    (hpc : x.pc x.cur = .outside) (hd : x.depth x.cur = 0) :
    LockOk (x.goto .down (x.depth x.cur) x.lock) := by
  have hview : ∀ u, (x.goto .down (x.depth x.cur) x.lock).view u = x.view u := fun u => by
    rw [x.view_goto]
    split
    · next hu =>
      unfold LockSys.view
      rw [hu, hpc, hd]
      rfl
    · rfl
  have hawake : ∀ u, x.pc u = .asleep → (x.goto .down (x.depth x.cur) x.lock).pc u = .asleep := by
    intro u hu
    rw [x.pc_goto, if_neg fun huc => ?_]
    · exact hu
    · rw [huc, hpc] at hu
      cases hu
  constructor
  case sched => exact h.sched
  case fits => exact h.fits_goto (show LockPc.down.Fits _ from hd) x.lock
  case owner => exact h.owner_congr rfl rfl hview
  case asleep => exact fun t ht => hawake t (h.asleep t ht)
  case wake =>
    intro hv hw
    obtain ⟨t, ht, hmem⟩ := h.wake hv hw
    exact ⟨t, hawake t ht, hmem⟩
  case idle => exact h.idle_goto hidle _ _ _

/-- What is known of a thread in `sema_down`. -/
theorem LockOk.inDown (h : LockOk x) (hpc : x.pc x.cur = .down ∨ x.pc x.cur = .asleep) :
    x.cur ≠ x.sched.idleThread ∧ x.depth x.cur = 0 ∧ x.view x.cur = none := by
  have hfits := h.fits x.cur
  refine ⟨fun hc => ?_, ?_, ?_⟩
  · have := h.idle.1
    rw [← hc] at this
    rcases hpc with hp | hp <;> rw [hp] at this <;> cases this
  · rcases hpc with hp | hp <;> rw [hp] at hfits <;> exact hfits
  · unfold LockSys.view
    rcases hpc with hp | hp <;> rw [hp] <;> rfl

/-- `sema_down` takes the semaphore. -/
theorem LockOk.take (h : LockOk x) (hpc : x.pc x.cur = .down ∨ x.pc x.cur = .asleep)
    (hv : x.sema.value = 1) :
    LockOk { x.goto .own (x.depth x.cur) x.lock with
      sched := x.sched.setSema x.lock.semaphore { x.sema with value := 0 } } := by
  obtain ⟨hidle, hd, hview⟩ := h.inDown hpc
  set x' : LockSys := { x.goto .own (x.depth x.cur) x.lock with
    sched := x.sched.setSema x.lock.semaphore { x.sema with value := 0 } }
  have hsema : x'.sema = { x.sema with value := 0 } := update_self ..
  have hviews : ∀ u, x'.view u = if u = x.cur then some (false, 0) else x.view u :=
    x.view_goto .own (x.depth x.cur) x.lock
  have hfree : x.Free := by
    rcases h.owner with ⟨t, ht⟩ | hfree
    · rw [ht.value] at hv
      cases hv
    · exact hfree
  constructor
  case sched => exact h.sched.setValue _ 0
  case fits => exact h.fits_goto (show LockPc.own.Fits _ from hd) x.lock
  case owner =>
    refine Or.inl ⟨x.cur, by rw [hsema], fun u hu => ?_, false, 0, ?_, hfree.holder,
      hfree.holderRepeatNr⟩
    · by_contra hne
      rw [hviews, if_neg hne] at hu
      exact hu (hfree.none_owns u)
    · rw [hviews, if_pos rfl]
  case asleep =>
    intro t ht
    rw [hsema] at ht
    exact h.pc_goto_waiter ht .own (x.depth x.cur) x.lock
  case wake =>
    rw [hsema]
    intro hz _
    cases hz
  case idle => exact h.idle_goto hidle .own (x.depth x.cur) x.lock

/-- `sema_down` puts the thread to sleep. -/
theorem LockOk.sleep (h : LockOk x) (hpc : x.pc x.cur = .down ∨ x.pc x.cur = .asleep)
    (hv : x.sema.value = 0) (hs : SchedOk s)
    (hsw : Switched (x.sched.queued x.lock.semaphore) s) :
    LockOk { x.goto .asleep (x.depth x.cur) x.lock with sched := s } := by
  obtain ⟨hidle, hd, hview⟩ := h.inDown hpc
  set x' : LockSys := { x.goto .asleep (x.depth x.cur) x.lock with sched := s }
  have hsema : x'.sema = { x.sema with waiters := x.sema.waiters ++ [x.cur] } := by
    change s.semas x.lock.semaphore = _
    rw [hsw.semas, semas_queued, if_pos rfl]
    rfl
  have hviews : ∀ u, x'.view u = x.view u := fun u => by
    refine (x.view_goto .asleep (x.depth x.cur) x.lock u).trans ?_
    split
    · next hu => rw [hu, hview]; rfl
    · rfl
  constructor
  case sched => exact hs
  case fits => exact h.fits_goto (show LockPc.asleep.Fits _ from hd) x.lock
  case owner => exact h.owner_congr rfl (by rw [hsema]) hviews
  case asleep =>
    intro t ht
    change (x.goto .asleep (x.depth x.cur) x.lock).pc t = _
    rw [hsema] at ht
    rcases List.mem_append.1 ht with ht | ht
    · exact h.pc_goto_waiter ht .asleep _ _
    · rw [x.pc_goto, if_pos (List.mem_singleton.1 ht)]
  case wake =>
    rw [hsema]
    intro hz _
    rw [hv] at hz
    cases hz
  case idle =>
    have hid : s.idleThread = x.sched.idleThread := hsw.idle
    change (x.goto .asleep (x.depth x.cur) x.lock).pc s.idleThread = _ ∧
      (x.goto .asleep (x.depth x.cur) x.lock).depth s.idleThread = _
    rw [hid]
    exact h.idle_goto hidle _ _ _

/-- `sema_up` gives the semaphore back; `rest` are the waiters it leaves. -/
theorem LockOk.giveUp (h : LockOk x) (hpc : x.pc x.cur = .up) (hs : SchedOk s)
    (hidle : s.idleThread = x.sched.idleThread) {rest : List ℕ}
    (hsema : s.semas x.lock.semaphore = ⟨1, rest⟩) (hsub : ∀ t ∈ rest, t ∈ x.sema.waiters)
    (hwake : rest ≠ [] → ∃ t ∈ x.sema.waiters, t ∉ rest) :
    LockOk { x.goto .outside (x.depth x.cur - 1) x.lock with sched := s } := by
  have hd : x.depth x.cur = 1 := by
    have := h.fits x.cur
    rw [hpc] at this
    exact this
  have hview : x.view x.cur = some (false, 0) := by
    unfold LockSys.view
    rw [hpc]
    rfl
  have hown := h.ownedBy (t := x.cur) (by rw [hview]; exact Option.some_ne_none _)
  obtain ⟨hholder, hnr⟩ := h.written hview
  have hne : x.cur ≠ x.sched.idleThread := fun hc => by
    have := h.idle.1
    rw [← hc, hpc] at this
    cases this
  set x' : LockSys := { x.goto .outside (x.depth x.cur - 1) x.lock with sched := s }
  have hx's : x'.sema = ⟨1, rest⟩ := hsema
  have hpc' : ∀ t, t ∈ x.sema.waiters → x'.pc t = .asleep := fun t ht =>
    h.pc_goto_waiter ht .outside (x.depth x.cur - 1) x.lock
  constructor
  case sched => exact hs
  case fits =>
    refine h.fits_goto (show LockPc.outside.Fits _ from ?_) x.lock
    change x.depth x.cur - 1 < 2 ^ 32
    omega
  case owner =>
    refine Or.inr ⟨by rw [hx's], fun t => ?_, hholder, hnr⟩
    refine (x.view_goto .outside (x.depth x.cur - 1) x.lock t).trans ?_
    split
    · rw [hd]
      rfl
    · next htc =>
      by_contra hv
      exact htc (hown.only t hv)
  case asleep =>
    rw [hx's]
    exact fun t ht => hpc' t (hsub t ht)
  case wake =>
    rw [hx's]
    intro _ hr
    obtain ⟨t, ht, hrest⟩ := hwake hr
    exact ⟨t, hpc' t ht, hrest⟩
  case idle =>
    change (x.goto .outside (x.depth x.cur - 1) x.lock).pc s.idleThread = _ ∧
      (x.goto .outside (x.depth x.cur - 1) x.lock).depth s.idleThread = _
    rw [hidle]
    exact h.idle_goto hne _ _ _

/-! ## Steps -/

/-- A round of `sema_down`. -/
theorem LockOk.tryDown (h : LockOk x) (hpc : x.pc x.cur = .down ∨ x.pc x.cur = .asleep) :
    ∃ x', x.tryDown = .ok x' ∧ LockOk x' := by
  obtain ⟨hidle, -, -⟩ := h.inDown hpc
  have hvalue : x.sema.value = 0 ∨ x.sema.value = 1 := by
    rcases h.owner with ⟨t, ht⟩ | hfree
    · exact Or.inl ht.value
    · exact Or.inr hfree.value
  unfold LockSys.tryDown
  rcases hvalue with hv | hv
  · obtain ⟨s, hrun, hs, hsw⟩ := h.sched.semaDown_zero hidle hv
    rw [hrun]
    exact ⟨_, rfl, h.sleep hpc hv hs hsw⟩
  · have hrun : x.sched.semaDown x.lock.semaphore = _ := semaDown_one hv
    rw [hrun]
    exact ⟨_, rfl, h.take hpc hv⟩

/-- `sema_up` in `lock_release`. -/
theorem LockOk.up (h : LockOk x) (hpc : x.pc x.cur = .up) :
    ∃ s, x.sched.semaUp x.lock.semaphore = .ok s ∧
      LockOk { x.goto .outside (x.depth x.cur - 1) x.lock with sched := s } := by
  have hview : x.view x.cur ≠ none := by
    unfold LockSys.view
    rw [hpc]
    exact Option.some_ne_none _
  have hv : (x.sched.semas x.lock.semaphore).value = 0 := (h.ownedBy hview).value
  cases hw : (x.sched.semas x.lock.semaphore).waiters with
  | nil =>
    refine ⟨_, semaUp_nil hv hw, h.giveUp hpc (h.sched.setValue _ 1) rfl
      ((semas_setSema ..).trans ((if_pos rfl).trans (congrArg (Semaphore.mk 1) hw)))
      (fun t ht => by cases ht) (fun hr => absurd rfl hr)⟩
  | cons t rest =>
    obtain ⟨hrun, hs⟩ := h.sched.semaUp_cons hv hw
    have hnd := h.sched.waiters_nodup x.lock.semaphore
    rw [hw, List.nodup_cons] at hnd
    refine ⟨_, hrun, h.giveUp hpc hs rfl ((semas_handed ..).trans (if_pos rfl)) (fun u hu => ?_)
      fun _ => ⟨t, ?_, hnd.1⟩⟩
    · unfold LockSys.sema
      rw [hw]
      exact List.mem_cons_of_mem _ hu
    · unfold LockSys.sema
      rw [hw]
      exact List.mem_cons_self

theorem LockSys.view_eq (hp : x.pc t = pc) : x.view t = pc.view (x.depth t) := by
  unfold view
  rw [hp]

/-- What is known at a point at which the current thread owns the semaphore, and what it has to see
to at the next one. -/
theorem LockOk.atOwner {p : LockPc} {b : Bool} {n : ℕ} (h : LockOk x)
    (hidle : x.cur ≠ x.sched.idleThread) (hp : x.pc x.cur = p)
    (hv : p.view (x.depth x.cur) = some (b, n)) : p.Fits (x.depth x.cur) ∧
      x.lock.holder = (if b then some x.cur else none) ∧ x.lock.holderRepeatNr = n ∧
      ∀ {pc d l} b n, pc.view d = some (b, n) → pc.Fits d → l.semaphore = x.lock.semaphore →
        l.holder = (if b then some x.cur else none) → l.holderRepeatNr = n →
        LockOk (x.goto pc d l) := by
  have hview := (LockSys.view_eq hp).trans hv
  obtain ⟨hholder, hnr⟩ := h.written hview
  exact ⟨hp ▸ h.fits x.cur, hholder, hnr,
    fun b n => h.moveOwner (hview ▸ Option.some_ne_none _) hidle⟩

/-- The next statement of a thread inside `lock_acquire` or `lock_release`. -/
theorem LockOk.run (h : LockOk x) (hpc : x.pc x.cur ≠ .outside) :
    ∃ x', x.run = .ok x' ∧ LockOk x' := by
  have hidle : x.cur ≠ x.sched.idleThread := fun hc => hpc (by rw [hc]; exact h.idle.1)
  unfold LockSys.run
  cases hp : x.pc x.cur with
  | outside => exact absurd hp hpc
  | down => exact h.tryDown (Or.inl hp)
  | asleep => exact h.tryDown (Or.inr hp)
  | up =>
    obtain ⟨s, hrun, hok⟩ := h.up hp
    dsimp only
    rw [hrun]
    exact ⟨_, rfl, hok⟩
  | own =>
    obtain ⟨hfits, -, hnr, hmove⟩ := h.atOwner hidle hp rfl
    exact ⟨_, rfl, hmove true _ rfl hfits rfl rfl hnr⟩
  | marked =>
    obtain ⟨hfits, hholder, hnr, hmove⟩ := h.atOwner hidle hp rfl
    refine ⟨_, bind_eq_ok.2 ⟨(), assert_eq_ok.2 hnr, rfl⟩, hmove true _ rfl hfits rfl hholder hnr⟩
  | checked =>
    obtain ⟨hfits, hholder, -, hmove⟩ := h.atOwner hidle hp rfl
    have hd : x.depth x.cur = 0 := hfits
    rw [hd]
    exact ⟨_, rfl, hmove true 1 rfl (show 0 + 1 < 2 ^ 32 by omega) rfl hholder rfl⟩
  | again =>
    obtain ⟨hfits, hholder, hnr, hmove⟩ := h.atOwner hidle hp rfl
    exact ⟨_, rfl, hmove true _ rfl ⟨hnr, hfits⟩ rfl hholder hnr⟩
  | bump n =>
    obtain ⟨⟨hn, -, hlt⟩, hholder, -, hmove⟩ := h.atOwner hidle hp rfl
    refine ⟨_, rfl, hmove true _ rfl hlt rfl hholder ?_⟩
    rw [hn]
    exact Nat.mod_eq_of_lt hlt
  | release =>
    obtain ⟨⟨h1, hlt⟩, hholder, hnr, hmove⟩ := h.atOwner hidle hp rfl
    dsimp only
    by_cases hgt : 1 < x.lock.holderRepeatNr
    · rw [if_pos hgt]
      exact ⟨_, rfl, hmove true _ rfl ⟨by omega, hlt⟩ rfl hholder hnr⟩
    · rw [if_neg hgt]
      have hd : x.depth x.cur = 1 := by omega
      exact ⟨_, rfl, hmove true _ rfl hd rfl hholder hnr⟩
  | dec =>
    obtain ⟨hfits, hholder, hnr, hmove⟩ := h.atOwner hidle hp rfl
    exact ⟨_, rfl, hmove true _ rfl ⟨hnr, hfits⟩ rfl hholder hnr⟩
  | drop n =>
    obtain ⟨⟨hn, h2, hlt⟩, hholder, -, hmove⟩ := h.atOwner hidle hp rfl
    obtain ⟨k, hk⟩ : ∃ k, x.depth x.cur = k + 2 := ⟨x.depth x.cur - 2, by omega⟩
    refine ⟨_, rfl, hmove true (x.depth x.cur - 1) ?_
      (show x.depth x.cur - 1 < 2 ^ 32 by omega) rfl hholder ?_⟩
    · rw [hk]
      rfl
    · rw [hn]
  | last =>
    obtain ⟨hd, hholder, hnr, hmove⟩ := h.atOwner hidle hp rfl
    refine ⟨_, bind_eq_ok.2 ⟨(), assert_eq_ok.2 (hnr.trans hd), rfl⟩,
      hmove true _ rfl hd rfl hholder hnr⟩
  | clear =>
    obtain ⟨hfits, -, hnr, hmove⟩ := h.atOwner hidle hp rfl
    exact ⟨_, rfl, hmove false _ rfl hfits rfl rfl hnr⟩
  | zero =>
    obtain ⟨hfits, hholder, -, hmove⟩ := h.atOwner hidle hp rfl
    exact ⟨_, rfl, hmove false _ rfl hfits rfl hholder rfl⟩

/-- A call of the rest of the system. -/
theorem LockOk.other (h : LockOk x) (hs : SchedOk s)
    (hidle : s.idleThread = x.sched.idleThread)
    (hsema : s.semas x.lock.semaphore = x.sema) : LockOk { x with sched := s } := by
  have hx' : LockSys.sema { x with sched := s } = x.sema := hsema
  constructor
  case sched => exact hs
  case fits => exact h.fits
  case owner => exact h.owner_congr rfl (by rw [hx']) fun _ => rfl
  case asleep => rw [hx']; exact h.asleep
  case wake => rw [hx']; exact h.wake
  case idle =>
    change x.pc s.idleThread = _ ∧ x.depth s.idleThread = _
    rw [hidle]
    exact h.idle

/-- **One step**: no assertion fails, and the invariant is kept unless the counter of the lock
runs over. -/
theorem LockOk.exec (h : LockOk x) {a : LockAct} (ha : a.Enabled x) :
    ∃ x', a.exec x = .ok x' ∧ (a.Countable x → LockOk x') := by
  cases a with
  | acquire =>
    obtain ⟨hpc, hidle⟩ := ha
    refine ⟨_, rfl, fun hc => ?_⟩
    by_cases hh : x.lock.holder = some x.cur
    · rw [if_neg (not_not.2 hh)]
      have hview := h.view_of_holder hh
      have hd : 1 ≤ x.depth x.cur ∧ x.lock.holderRepeatNr = x.depth x.cur := by
        rw [LockSys.view_eq hpc] at hview
        cases hd : x.depth x.cur with
        | zero => rw [hd] at hview; cases hview
        | succ k =>
          rw [hd] at hview
          exact ⟨by omega, (Prod.mk.inj (Option.some.inj hview)).2.symm⟩
      have hfits := h.fits x.cur
      rw [hpc] at hfits
      have hlt : x.depth x.cur < 2 ^ 32 := hfits
      have hmax := hc hh
      refine h.moveOwner (by rw [hview]; exact Option.some_ne_none _) hidle (b := true) rfl
        ⟨hd.1, by omega⟩ rfl hh hd.2
    · rw [if_pos hh]
      refine h.enter hidle hpc ?_
      by_contra hd
      obtain ⟨k, hk⟩ := Nat.exists_eq_succ_of_ne_zero hd
      have hview : x.view x.cur = some (true, k + 1) := by
        rw [LockSys.view_eq hpc, hk]
        rfl
      exact hh (h.written hview).1
  | release =>
    obtain ⟨hpc, hd⟩ := ha
    obtain ⟨k, hk⟩ := Nat.exists_eq_succ_of_ne_zero (Nat.pos_iff_ne_zero.1 hd)
    have hview : x.view x.cur = some (true, k + 1) := by
      rw [LockSys.view_eq hpc, hk]
      rfl
    obtain ⟨hholder, hnr⟩ := h.written hview
    have hidle : x.cur ≠ x.sched.idleThread := fun hc => by
      have := h.idle.2
      rw [← hc] at this
      omega
    have hfits := h.fits x.cur
    rw [hpc] at hfits
    refine ⟨x.goto .release (x.depth x.cur) x.lock, ?_, fun _ => h.moveOwner
      (by rw [hview]; exact Option.some_ne_none _) hidle (b := true) rfl ⟨hd, hfits⟩ rfl hholder
      (hnr.trans hk.symm)⟩
    have hh : x.lock.holder = some x.cur := hholder
    unfold LockAct.exec
    dsimp only
    rw [assert, if_pos hh, ok_bind]
    rfl
  | run =>
    obtain ⟨x', hrun, hok⟩ := h.run ha
    exact ⟨x', hrun, fun _ => hok⟩
  | other c =>
    obtain ⟨-, hadm, href, huses⟩ := ha
    obtain ⟨s, hrun, hs, hidle, hsemas, -⟩ := h.sched.exec hadm href
    refine ⟨{ x with sched := s }, ?_, fun _ => h.other hs hidle (hsemas _ huses)⟩
    unfold LockAct.exec
    dsimp only
    rw [hrun]
    rfl

/-! ## Runs -/

/-- The lock after `lock_init`, with every thread outside. -/
structure LockSys.Initial (x : LockSys) : Prop where
  sched : SchedOk x.sched
  sema : x.sema = ⟨1, []⟩
  holder : x.lock.holder = none
  holderRepeatNr : x.lock.holderRepeatNr = 0
  outside : ∀ t, x.pc t = .outside ∧ x.depth t = 0

theorem LockSys.Initial.lockOk (h : x.Initial) : LockOk x := by
  constructor
  case sched => exact h.sched
  case fits =>
    intro t
    rw [(h.outside t).1, (h.outside t).2]
    exact Nat.two_pow_pos 32
  case owner =>
    refine Or.inr ⟨by rw [h.sema], fun t => ?_, h.holder, h.holderRepeatNr⟩
    rw [LockSys.view_eq (h.outside t).1, (h.outside t).2]
    rfl
  case asleep =>
    rw [h.sema]
    exact fun t ht => by cases ht
  case wake =>
    rw [h.sema]
    exact fun _ hw => absurd rfl hw
  case idle => exact h.outside _

/-- A step of the system. -/
def LockStep (x x' : LockSys) : Prop := ∃ a : LockAct, a.Enabled x ∧ a.exec x = .ok x'

/-- A step at which the counter of the lock does not run over. -/
def CountableStep (x x' : LockSys) : Prop :=
  ∃ a : LockAct, a.Enabled x ∧ a.Countable x ∧ a.exec x = .ok x'

/-- The thread `t` is between the end of its `sema_down` and its `sema_up`. -/
def LockSys.Owns (x : LockSys) (t : ℕ) : Prop := x.view t ≠ none

/-- What the lock promises. -/
structure LockSafe (x : LockSys) : Prop where
  exclusion : ∀ t u, x.Owns t → x.Owns u → t = u
  /-- From the end of the outermost `lock_acquire` to the matching `lock_release`. -/
  inside : ∀ t, 0 < x.depth t → x.Owns t
  /-- Until the outermost `lock_release` has cleared the holder. -/
  holder : ∀ t, 0 < x.depth t → x.pc t ≠ .zero → x.pc t ≠ .up →
    x.lock.holder = some t ∧ x.lock.holderRepeatNr = x.depth t
  value : x.sema.value = 0 ∨ x.sema.value = 1
  asserts : ∀ a : LockAct, a.Enabled x → ∃ x', a.exec x = .ok x'
  wake : x.sema.value = 1 → x.sema.waiters ≠ [] → ∃ t, x.pc t = .asleep ∧ t ∉ x.sema.waiters

/-- The view of a thread that has the lock and has not begun to give it back. -/
theorem LockPc.Fits.view (h : pc.Fits d) (hd : 0 < d) (hzero : pc ≠ .zero) (hup : pc ≠ .up) :
    pc.view d = some (true, d) := by
  cases pc with
  | outside =>
    obtain ⟨k, rfl⟩ := Nat.exists_eq_succ_of_ne_zero (Nat.pos_iff_ne_zero.1 hd)
    rfl
  | zero => exact absurd rfl hzero
  | up => exact absurd rfl hup
  | down | asleep | own | marked | checked => exact absurd h (Nat.pos_iff_ne_zero.1 hd)
  | again | bump | release | dec | drop | last | clear => rfl

theorem LockOk.lockSafe (h : LockOk x) : LockSafe x where
  exclusion t u ht hu := (h.ownedBy hu).only t ht
  inside t hd := by
    unfold LockSys.Owns LockSys.view
    by_cases hzero : x.pc t = .zero
    · rw [hzero]
      exact Option.some_ne_none _
    by_cases hup : x.pc t = .up
    · rw [hup]
      exact Option.some_ne_none _
    rw [(h.fits t).view hd hzero hup]
    exact Option.some_ne_none _
  holder t hd hzero hup := h.written ((h.fits t).view hd hzero hup)
  value := by
    rcases h.owner with ⟨t, ht⟩ | hfree
    · exact Or.inl ht.value
    · exact Or.inr hfree.value
  asserts a ha := by
    obtain ⟨x', hrun, -⟩ := h.exec ha
    exact ⟨x', hrun⟩
  wake := h.wake

/-- **Lock safety.** In every run of any number of threads, interrupted anywhere, in which the
counter of the lock does not run over, the lock keeps its promises in every state. -/
theorem lockSafe_of_run {x₀ : LockSys} (h₀ : x₀.Initial)
    (hrun : Relation.ReflTransGen CountableStep x₀ x) : LockSafe x := by
  have hok : LockOk x := reach_invariant hrun h₀.lockOk fun {x x'} h hstep => by
    obtain ⟨a, ha, hc, hexec⟩ := hstep
    obtain ⟨y, hy, hok⟩ := h.exec ha
    rw [hexec] at hy
    exact Except.ok.inj hy ▸ hok hc
  exact hok.lockSafe

/-! ## What a statement leaves alone -/

/-- The other threads, the other semaphores and the idle thread stay as they are. -/
structure LockFrame (x x' : LockSys) : Prop where
  semaphore : x'.lock.semaphore = x.lock.semaphore
  idle : x'.sched.idleThread = x.sched.idleThread
  pc : ∀ t, t ≠ x.cur → x'.pc t = x.pc t
  depth : ∀ t, t ≠ x.cur → x'.depth t = x.depth t
  semas : ∀ i, i ≠ x.lock.semaphore → x'.sched.semas i = x.sched.semas i

theorem LockSys.frame_goto (x : LockSys) (pc : LockPc) (d : ℕ) {l : Lock}
    (hsema : l.semaphore = x.lock.semaphore) : LockFrame x (x.goto pc d l) where
  semaphore := hsema
  idle := rfl
  pc t ht := (x.pc_goto pc d l t).trans (if_neg ht)
  depth t ht := (x.depth_goto pc d l t).trans (if_neg ht)
  semas _ _ := rfl

/-- A call on the lock's semaphore by the current thread. -/
theorem LockOk.frame_sched (h : LockOk x) {c : SchedCall} (hc : c.Admissible x.sched)
    (hr : ¬c.Refused x.sched) (huses : ∀ i, c.Uses i → i = x.lock.semaphore)
    (hrun : c.exec x.sched = .ok s) (pc : LockPc) (d : ℕ) :
    LockFrame x { x.goto pc d x.lock with sched := s } := by
  obtain ⟨s₁, hrun₁, -, hidle, hsemas, -⟩ := h.sched.exec hc hr
  obtain rfl := Except.ok.inj (hrun₁.symm.trans hrun)
  have hframe := x.frame_goto pc d (l := x.lock) rfl
  exact ⟨rfl, hidle, hframe.pc, hframe.depth, fun i hi => hsemas i fun hu => hi (huses i hu)⟩

theorem LockOk.value_le (h : LockOk x) : x.sema.value ≤ 1 := by
  rcases h.owner with ⟨t, ht⟩ | hfree
  · rw [ht.value]
    exact Nat.zero_le _
  · rw [hfree.value]

theorem LockOk.tryDown_frame (h : LockOk x) (hidle : x.cur ≠ x.sched.idleThread)
    (hrun : x.tryDown = .ok x') : LockFrame x x' ∧
    (x'.pc x.cur = .own ∨ x'.pc x.cur = .asleep) := by
  obtain ⟨⟨got, s⟩, hdown, hrun⟩ := bind_eq_ok.1 hrun
  obtain rfl := pure_eq_ok.1 hrun
  refine ⟨h.frame_sched (c := .semaDown x.lock.semaphore) hidle (not_lt.2 h.value_le)
    (fun i hi => Eq.symm hi) (SchedCall.exec_semaDown hdown) _ _, ?_⟩
  have hself := (x.pc_goto (if got then .own else .asleep) (x.depth x.cur) x.lock x.cur).trans
    (if_pos rfl)
  cases got
  · exact Or.inr hself
  · exact Or.inl hself

theorem LockOk.run_frame (h : LockOk x) (hpc : x.pc x.cur ≠ .outside) (hrun : x.run = .ok x') :
    LockFrame x x' := by
  have hidle : x.cur ≠ x.sched.idleThread := fun hc => hpc (by rw [hc]; exact h.idle.1)
  unfold LockSys.run at hrun
  cases hp : x.pc x.cur with
  | outside => exact absurd hp hpc
  | down | asleep =>
    rw [hp] at hrun
    exact (h.tryDown_frame hidle hrun).1
  | marked | last =>
    rw [hp] at hrun
    obtain ⟨_, -, hrun⟩ := bind_eq_ok.1 hrun
    exact pure_eq_ok.1 hrun ▸ x.frame_goto _ _ rfl
  | up =>
    rw [hp] at hrun
    obtain ⟨s, hup, hrun⟩ := bind_eq_ok.1 hrun
    have hv : x.sema.value = 0 := (h.ownedBy (t := x.cur) (by
      rw [LockSys.view_eq hp]
      exact Option.some_ne_none _)).value
    exact pure_eq_ok.1 hrun ▸ h.frame_sched (c := .semaUp x.lock.semaphore) trivial
      (not_not.2 hv) (fun i hi => Eq.symm hi) hup _ _
  | own | checked | again | bump | release | dec | drop | clear | zero =>
    rw [hp] at hrun
    exact pure_eq_ok.1 hrun ▸ x.frame_goto _ _ rfl

/-! ## The calls in one go are runs -/

theorem LockSys.goto_goto (x : LockSys) (pc pc' : LockPc) (d d' : ℕ) (l l' : Lock) :
    (x.goto pc d l).goto pc' d' l' = x.goto pc' d' l' := by
  have hpc : update (update x.pc x.cur pc) x.cur pc' =
    update x.pc x.cur pc' := update_idem ..
  have hd : update (update x.depth x.cur d) x.cur d' =
    update x.depth x.cur d' := update_idem ..
  change LockSys.mk x.sched l' (update (update x.pc x.cur pc) x.cur pc')
    (update (update x.depth x.cur d) x.cur d') = _
  rw [hpc, hd]
  rfl

theorem LockSys.pc_goto_cur (x : LockSys) (pc : LockPc) (d : ℕ) (l : Lock) :
    (x.goto pc d l).pc (x.goto pc d l).cur = pc :=
  (x.pc_goto pc d l x.cur).trans (if_pos rfl)

theorem LockSys.depth_goto_cur (x : LockSys) (pc : LockPc) (d : ℕ) (l : Lock) :
    (x.goto pc d l).depth (x.goto pc d l).cur = d :=
  (x.depth_goto pc d l x.cur).trans (if_pos rfl)

/-- A statement that leaves the scheduler alone. -/
theorem lockStep_goto {pc' : LockPc} {d' : ℕ} {l' : Lock} (hpc : pc ≠ .outside)
    (h : ∀ y : LockSys, y.cur = x.cur → y.lock = l → y.pc y.cur = pc → y.depth y.cur = d →
      y.run = .ok (y.goto pc' d' l')) : LockStep (x.goto pc d l) (x.goto pc' d' l') := by
  have hpc' := x.pc_goto_cur pc d l
  have hrun := h (x.goto pc d l) rfl rfl hpc' (x.depth_goto_cur pc d l)
  rw [x.goto_goto] at hrun
  exact ⟨.run, fun hout => hpc (hpc'.symm.trans hout), hrun⟩

/-- `lock_acquire` from the end of `sema_down` on. -/
theorem own_steps (hnr : l.holderRepeatNr = 0) :
    Relation.ReflTransGen LockStep (x.goto .own d l) (x.goto .outside (d + 1)
      { l with holder := some x.cur, holderRepeatNr := 1 }) := by
  have h1 : LockStep (x.goto .own d l) (x.goto .marked d { l with holder := some x.cur }) := by
    exact lockStep_goto (by simp) (by simp +contextual [LockSys.run])
  have h2 : LockStep (x.goto .marked d { l with holder := some x.cur })
      (x.goto .checked d { l with holder := some x.cur }) := by
    exact lockStep_goto (by simp) (by simp +contextual [LockSys.run, assert, hnr])
  have h3 : LockStep (x.goto .checked d { l with holder := some x.cur })
      (x.goto .outside (d + 1) { l with holder := some x.cur, holderRepeatNr := 1 }) := by
    exact lockStep_goto (by simp) (by simp +contextual [LockSys.run])
  exact ((Relation.ReflTransGen.single h1).tail h2).tail h3

theorem Sched.semaDown_eq_true {s' : Sched} {i : ℕ} (h : s.semaDown i = .ok (true, s')) :
    (s.semas i).value ≠ 0 ∧ s' = s.setSema i { s.semas i with value := 0 } := by
  unfold Sched.semaDown at h
  split at h
  · obtain ⟨-, -, h⟩ := bind_eq_ok.1 h
    obtain ⟨s₁, -, h⟩ := bind_eq_ok.1 h
    cases pure_eq_ok.1 h
  · next hne =>
    obtain ⟨_, hv, h⟩ := bind_eq_ok.1 h
    rw [assert_eq_ok] at hv
    rw [hv] at h
    exact ⟨hne, (ok_pair h).2.symm⟩

/-- **`lock_acquire` in one go** is a run of its statements that nothing interrupts. -/
theorem lockAcquire_steps {got : Bool} (hpc : x.pc x.cur = .outside)
    (hidle : x.cur ≠ x.sched.idleThread)
    (h : lockAcquire x.sched x.lock = .ok (got, s, l)) :
    Relation.ReflTransGen LockStep x
      { x.goto (if got then .outside else .asleep) (x.depth x.cur + if got then 1 else 0) l with
        sched := s } := by
  unfold lockAcquire at h
  split at h
  · next hh =>
    have h1 : LockStep x (x.goto .down (x.depth x.cur) x.lock) := by
      refine ⟨.acquire, ⟨hpc, hidle⟩, ?_⟩
      change Except.ok (x.goto (if x.lock.holder ≠ some x.cur then .down else .again) _ _) = _
      rw [if_pos (show x.lock.holder ≠ some x.cur from hh)]
    unfold lockDown at h
    obtain ⟨⟨got', s'⟩, hdown, h⟩ := bind_eq_ok.1 h
    have h2 : LockStep (x.goto .down (x.depth x.cur) x.lock)
        { x.goto (if got' then .own else .asleep) (x.depth x.cur) x.lock with sched := s' } := by
      refine ⟨.run, ?_, ?_⟩
      · change (x.goto .down (x.depth x.cur) x.lock).pc _ ≠ .outside
        rw [x.pc_goto_cur]
        simp
      · change (x.goto .down (x.depth x.cur) x.lock).run = _
        unfold LockSys.run
        rw [x.pc_goto_cur]
        dsimp only
        unfold LockSys.tryDown
        rw [x.depth_goto_cur]
        change (x.sched.semaDown x.lock.semaphore >>= _) = _
        rw [hdown]
        exact congrArg (fun y : LockSys => Except.ok { y with sched := s' }) (x.goto_goto ..)
    cases got' with
    | false =>
      obtain ⟨rfl, rfl, rfl⟩ : false = got ∧ s' = s ∧ x.lock = l := by
        simpa using h
      exact (Relation.ReflTransGen.single h1).tail h2
    | true =>
      obtain ⟨_, hnr, h⟩ := bind_eq_ok.1 h
      rw [assert_eq_ok] at hnr
      obtain ⟨rfl, rfl, rfl⟩ : true = got ∧ s' = s ∧ _ = l := by
        simpa using h
      obtain ⟨-, rfl⟩ := semaDown_eq_true hdown
      -- from here on the scheduler stays as it is
      have h3 := own_steps (x := { x with
        sched := x.sched.setSema x.lock.semaphore { x.sema with value := 0 } })
        (d := x.depth x.cur) hnr
      exact ((Relation.ReflTransGen.single h1).tail h2).trans h3
  · next hh =>
    have hh : x.lock.holder = some x.cur := not_not.1 hh
    obtain ⟨rfl, rfl, rfl⟩ : true = got ∧ x.sched = s ∧ _ = l := by
      simpa using h
    have h1 : LockStep x (x.goto .again (x.depth x.cur) x.lock) := by
      refine ⟨.acquire, ⟨hpc, hidle⟩, ?_⟩
      change Except.ok (x.goto (if x.lock.holder ≠ some x.cur then .down else .again) _ _) = _
      rw [if_neg (not_not.2 hh)]
    have h2 : LockStep (x.goto .again (x.depth x.cur) x.lock)
        (x.goto (.bump x.lock.holderRepeatNr) (x.depth x.cur) x.lock) := by
      exact lockStep_goto (by simp) (by simp +contextual [LockSys.run])
    have h3 : LockStep (x.goto (.bump x.lock.holderRepeatNr) (x.depth x.cur) x.lock)
        (x.goto .outside (x.depth x.cur + 1)
          { x.lock with holderRepeatNr := (x.lock.holderRepeatNr + 1) % 2 ^ 32 }) := by
      exact lockStep_goto (by simp) (by simp +contextual [LockSys.run])
    exact ((Relation.ReflTransGen.single h1).tail h2).tail h3

/-- **`lock_release` in one go** is a run of its statements that nothing interrupts. -/
theorem lockRelease_steps (hpc : x.pc x.cur = .outside) (hd : 0 < x.depth x.cur)
    (h : lockRelease x.sched x.lock = .ok (s, l)) :
    Relation.ReflTransGen LockStep x
      { x.goto .outside (x.depth x.cur - 1) l with sched := s } := by
  unfold lockRelease at h
  obtain ⟨_, hh, h⟩ := bind_eq_ok.1 h
  rw [assert_eq_ok] at hh
  have h1 : LockStep x (x.goto .release (x.depth x.cur) x.lock) := by
    refine ⟨.release, ⟨hpc, hd⟩, ?_⟩
    change (assert (x.lock.holder = some x.cur) >>= _) = _
    rw [assert, if_pos (show x.lock.holder = some x.cur from hh)]
    rfl
  have h2 : LockStep (x.goto .release (x.depth x.cur) x.lock)
      (x.goto (if 1 < x.lock.holderRepeatNr then .dec else .last) (x.depth x.cur) x.lock) := by
    exact lockStep_goto (by simp) (by simp +contextual [LockSys.run])
  have h12 := (Relation.ReflTransGen.single h1).tail h2
  split at h
  · next hgt =>
    rw [if_pos hgt] at h12
    obtain ⟨rfl, rfl⟩ : x.sched = s ∧ _ = l := by
      simpa using h
    have h3 : LockStep (x.goto .dec (x.depth x.cur) x.lock)
        (x.goto (.drop x.lock.holderRepeatNr) (x.depth x.cur) x.lock) := by
      exact lockStep_goto (by simp) (by simp +contextual [LockSys.run])
    have h4 : LockStep (x.goto (.drop x.lock.holderRepeatNr) (x.depth x.cur) x.lock)
        (x.goto .outside (x.depth x.cur - 1)
          { x.lock with holderRepeatNr := x.lock.holderRepeatNr - 1 }) := by
      exact lockStep_goto (by simp) (by simp +contextual [LockSys.run])
    exact (h12.tail h3).tail h4
  · next hle =>
    rw [if_neg hle] at h12
    obtain ⟨_, hnr, h⟩ := bind_eq_ok.1 h
    rw [assert_eq_ok] at hnr
    obtain ⟨s', hup, h⟩ := bind_eq_ok.1 h
    obtain ⟨rfl, rfl⟩ : s' = s ∧ _ = l := by
      simpa using h
    have h3 : LockStep (x.goto .last (x.depth x.cur) x.lock)
        (x.goto .clear (x.depth x.cur) x.lock) := by
      exact lockStep_goto (by simp) (by simp +contextual [LockSys.run, assert, hnr])
    have h4 : LockStep (x.goto .clear (x.depth x.cur) x.lock)
        (x.goto .zero (x.depth x.cur) { x.lock with holder := none }) := by
      exact lockStep_goto (by simp) (by simp +contextual [LockSys.run])
    have h5 : LockStep (x.goto .zero (x.depth x.cur) { x.lock with holder := none })
        (x.goto .up (x.depth x.cur) { x.lock with holder := none, holderRepeatNr := 0 }) := by
      exact lockStep_goto (by simp) (by simp +contextual [LockSys.run])
    have h6 : LockStep
        (x.goto .up (x.depth x.cur) { x.lock with holder := none, holderRepeatNr := 0 })
        { x.goto .outside (x.depth x.cur - 1)
            { x.lock with holder := none, holderRepeatNr := 0 } with sched := s' } := by
      refine ⟨.run, ?_, ?_⟩
      · change (x.goto .up _ _).pc (x.goto .up _ _).cur ≠ .outside
        rw [x.pc_goto_cur]
        simp
      · change (x.goto .up (x.depth x.cur)
          { x.lock with holder := none, holderRepeatNr := 0 }).run = _
        unfold LockSys.run
        rw [x.pc_goto_cur, x.depth_goto_cur]
        change (x.sched.semaUp x.lock.semaphore >>= _) = _
        rw [hup]
        exact congrArg (fun y : LockSys => Except.ok { y with sched := s' }) (x.goto_goto ..)
    exact (((h12.tail h3).tail h4).tail h5).tail h6

/-! ## A nesting that is too deep -/

/-- A lock right after the start of the system. -/
def startLock : LockSys where
  sched := bootSched.started 2 3
  lock := ⟨none, 0, 0⟩
  pc _ := .outside
  depth _ := 0

theorem startLock_initial : startLock.Initial where
  sched := BootPages.schedOk ⟨by decide, by decide, by decide, by decide⟩ fun _ => rfl
  sema := rfl
  holder := rfl
  holderRepeatNr := rfl
  outside _ := ⟨rfl, rfl⟩

/-- The conditions on a call of `lock_acquire` and on a statement inside, as a test. -/
def LockAct.checked (x : LockSys) : LockAct → Bool
  | .acquire => x.pc x.cur = .outside ∧ x.cur ≠ x.sched.idleThread ∧
      x.lock.holderRepeatNr ≠ 2 ^ 32 - 1
  | .run => x.pc x.cur ≠ .outside
  | _ => false

/-- The main thread acquires the lock, and acquires it again. -/
theorem lockSafe_of_acquire : ∃ x, Relation.ReflTransGen CountableStep startLock x ∧
    x.pc 1 = .outside ∧ x.depth 1 = 2 ∧ x.lock.holderRepeatNr = 2 ∧ LockSafe x := by
  obtain ⟨x, hrun, hx⟩ := exists_of_holds (o := runAll LockAct.checked LockAct.exec startLock
      [.acquire, .run, .run, .run, .run, .acquire, .run, .run])
    (f := fun x => x.pc 1 = .outside ∧ x.depth 1 = 2 ∧ x.lock.holderRepeatNr = 2)
    (by decide +kernel)
  have hreach : Relation.ReflTransGen CountableStep startLock x :=
    reach_of_runAll (fun {x _ a} hc hexec => by
      cases a with
      | acquire =>
        obtain ⟨hpc, hidle, hnr⟩ := of_decide_eq_true hc
        exact ⟨.acquire, ⟨hpc, hidle⟩, fun _ => hnr, hexec⟩
      | run => exact ⟨.run, of_decide_eq_true (p := x.pc x.cur ≠ .outside) hc, trivial, hexec⟩
      | release | other c => cases hc) hrun
  obtain ⟨hpc, hd, hnr⟩ := of_decide_eq_true hx
  exact ⟨x, hreach, hpc, hd, hnr, lockSafe_of_run startLock_initial hreach⟩

/-- The semaphore of the lock is taken. -/
def takenLock : LockSys :=
  { startLock with sched := (bootSched.started 2 3).setSema 0 ⟨0, []⟩ }

/-- The main thread has acquired the lock `n` times. -/
def nestedLock (n : ℕ) : LockSys := takenLock.goto .outside n ⟨some 1, 0, n % 2 ^ 32⟩

theorem lockRelease_nestedLock : Relation.ReflTransGen LockStep (nestedLock 2)
    ((nestedLock 2).goto .outside 1 ⟨some 1, 0, 1⟩) :=
  lockRelease_steps rfl (by decide) rfl

theorem nestedLock_steps (n : ℕ) :
    Relation.ReflTransGen LockStep startLock (nestedLock (n + 1)) := by
  have hidle : (1 : ℕ) ≠ 3 := by decide
  induction n with
  | zero =>
    have hacq : lockAcquire startLock.sched startLock.lock =
        .ok (true, (bootSched.started 2 3).setSema 0 ⟨0, []⟩, ⟨some 1, 0, 1⟩) := by
      unfold lockAcquire lockDown
      rw [if_pos nofun, semaDown_one rfl]
      rfl
    exact lockAcquire_steps (x := startLock) rfl hidle hacq
  | succ n ih =>
    refine ih.trans ?_
    have hacq : lockAcquire (nestedLock (n + 1)).sched (nestedLock (n + 1)).lock =
        .ok (true, (nestedLock (n + 1)).sched, ⟨some 1, 0, ((n + 1) % 2 ^ 32 + 1) % 2 ^ 32⟩) := by
      have hh : (nestedLock (n + 1)).lock.holder = some (nestedLock (n + 1)).sched.cur := rfl
      unfold lockAcquire
      rw [if_neg (not_not.2 hh)]
      rfl
    have hsteps := lockAcquire_steps (takenLock.pc_goto_cur .outside (n + 1) _) hidle hacq
    rw [Nat.mod_add_mod] at hsteps
    change Relation.ReflTransGen LockStep _ ((takenLock.goto .outside (n + 1) _).goto .outside
      ((nestedLock (n + 1)).depth (nestedLock (n + 1)).cur + 1) _) at hsteps
    rw [takenLock.goto_goto, nestedLock, takenLock.depth_goto_cur] at hsteps
    exact hsteps

/-- **The counter of the lock runs over.** A thread that has acquired the lock `2 ^ 32` times finds
the counter at zero, and the assertion in `lock_release` fails. -/
theorem assert_of_overflow : ∃ x, Relation.ReflTransGen LockStep startLock x ∧
    x.depth 1 = 2 ^ 32 ∧ x.lock.holderRepeatNr = 0 ∧ LockAct.run.Enabled x ∧
    LockAct.run.exec x = .error .assert := by
  set l : Lock := ⟨some 1, 0, 0⟩ with hl
  have h0 := nestedLock_steps (2 ^ 32 - 1)
  have hnest : nestedLock (2 ^ 32 - 1 + 1) = takenLock.goto .outside (2 ^ 32) l := by
    unfold nestedLock
    rw [show 2 ^ 32 - 1 + 1 = 2 ^ 32 from rfl, Nat.mod_self]
  rw [hnest] at h0
  have h1 : LockStep (takenLock.goto .outside (2 ^ 32) l)
      (takenLock.goto .release (2 ^ 32) l) := by
    refine ⟨.release, ⟨takenLock.pc_goto_cur .., ?_⟩, ?_⟩
    · rw [takenLock.depth_goto_cur]
      exact Nat.two_pow_pos 32
    · change Except.ok ((takenLock.goto .outside (2 ^ 32) l).goto .release _ l) = _
      rw [takenLock.goto_goto, takenLock.depth_goto_cur]
  have h2 : LockStep (takenLock.goto .release (2 ^ 32) l) (takenLock.goto .last (2 ^ 32) l) := by
    exact lockStep_goto (by simp) (by simp +contextual [LockSys.run, hl])
  refine ⟨_, (h0.tail h1).tail h2, takenLock.depth_goto_cur .., rfl, ?_, ?_⟩
  · change (takenLock.goto .last (2 ^ 32) l).pc _ ≠ .outside
    rw [takenLock.pc_goto_cur]
    simp
  · change (takenLock.goto .last (2 ^ 32) l).run = _
    unfold LockSys.run
    rw [takenLock.pc_goto_cur]
    rfl

end Gardos.Thread
