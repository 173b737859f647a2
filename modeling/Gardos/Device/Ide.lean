import Gardos.Thread.Lock

/-!
# The disk driver's channel protocol (`device/ide.c`)

`ide_read` and `ide_write` run with interrupts on. A call takes the lock of the channel, and for
each group of at most 256 sectors it sets `expecting_intr`, sends the command and waits for
`disk_done`, which the interrupt handler counts up if the flag is set. `IdePc` lists the points
between the statements of the two functions, `IdeAct` the steps: a call, the next statement of the
running thread, a disk interrupt, and whatever else the system does. The disk decides what the
status register shows and when it interrupts, so an interrupt can come at any time and as often as
it likes.

`IdeOk` ties the flag and the semaphore to the thread that has sent a command (`Handshake`); that
there is at most one comes from the lock. `channelSafe_of_run` is the protocol's safety in every
run.
-/

namespace Gardos.Device

open Outcome Thread Sched

inductive IdeOp
  | read
  | write
  deriving DecidableEq

/-- The arguments of `ide_read` or `ide_write`, and `secs_done`. Which of the two disks of the
channel is meant only decides what is written to the device register. -/
structure Transfer where
  op : IdeOp
  lba : ℕ
  secCnt : ℕ
  secsDone : ℕ
  deriving DecidableEq

/-- `max_lba`. -/
def maxLba : ℕ := 80 * 1024 * 1024 / 512 - 1

/-- `secs_op`: the sectors of the next command. -/
def Transfer.secsOp (c : Transfer) : ℕ :=
  if (c.secsDone + 256) % 2 ^ 32 ≤ c.secCnt then 256 else c.secCnt - c.secsDone

/-- `secs_done += secs_op`. -/
def Transfer.advance (c : Transfer) (secsOp : ℕ) : Transfer :=
  { c with secsDone := (c.secsDone + secsOp) % 2 ^ 32 }

/-- Where a thread is in `ide_read` or `ide_write`: before the statement that is named. -/
inductive IdePc
  | outside
  /-- In `lock_acquire`, or just back from it. -/
  | acquire (c : Transfer)
  /-- `while(secs_done < sec_cnt)` is next. -/
  | loop (c : Transfer)
  /-- `channel->expecting_intr = true` in `cmd_out` is next. -/
  | command (c : Transfer) (secsOp : ℕ)
  /-- `outb` of the command is next. -/
  | out (c : Transfer) (secsOp : ℕ)
  /-- `sema_down(&hd->my_channel->disk_done)` is next. -/
  | down (c : Transfer) (secsOp : ℕ)
  /-- Asleep in `sema_down`, or woken up there and not yet back. -/
  | asleep (c : Transfer) (secsOp : ℕ)
  /-- The loop of `busy_wait`, with `time_limit`. -/
  | busy (c : Transfer) (secsOp timeLimit : ℕ)
  /-- The loop of `ticks_to_sleep` in `busy_wait`, with `start_tick`. -/
  | sleep (c : Transfer) (secsOp timeLimit startTick : ℕ)
  /-- `read_from_sector` or `write2sector` is next. -/
  | copy (c : Transfer) (secsOp : ℕ)
  /-- In `lock_release`, or just back from it. -/
  | release
  deriving DecidableEq

/-- Where a thread goes on that has come out of `sema_down`. -/
def Transfer.afterDown (c : Transfer) (secsOp : ℕ) : IdePc :=
  match c.op with
  | .read => .busy c secsOp 30000
  | .write => .loop (c.advance secsOp)

/-- One channel: its lock with the scheduler, `expecting_intr`, the index of the semaphore
`disk_done`, and for each thread its place in the code. -/
structure IdeSys where
  locks : LockSys
  expectingIntr : Bool
  diskDone : ℕ
  pc : ℕ → IdePc

namespace IdeSys

def sched (x : IdeSys) : Sched := x.locks.sched

def cur (x : IdeSys) : ℕ := x.sched.cur

/-- `channel->disk_done`. -/
def done (x : IdeSys) : Semaphore := x.sched.semas x.diskDone

/-- The current thread goes on to `pc`. -/
def goto (x : IdeSys) (pc : IdePc) : IdeSys := { x with pc := Function.update x.pc x.cur pc }

def setSched (x : IdeSys) (s : Sched) : IdeSys := { x with locks := { x.locks with sched := s } }

/-- A round of `sema_down(&hd->my_channel->disk_done)`. -/
def waitDone (x : IdeSys) (c : Transfer) (secsOp : ℕ) : Outcome IdeSys := do
  let (got, s) ← x.sched.semaDown x.diskDone
  return (x.goto (if got then c.afterDown secsOp else .asleep c secsOp)).setSched s

/-- One round of the loop of `busy_wait`. `10 >= 0` is 1, so `time_limit -= 10 >= 0` counts down by
one. A disk that is not ready in the end makes the caller panic. -/
def busyWait (x : IdeSys) (c : Transfer) (secsOp timeLimit : ℕ) (bsy drq : Bool) :
    Outcome IdeSys :=
  let timeLimit := (timeLimit + 65535) % 65536
  if timeLimit = 0 then throw .assert
  else if !bsy then
    if drq then pure (x.goto (.copy c secsOp)) else throw .assert
  else pure (x.goto (.sleep c secsOp timeLimit x.sched.ticks))

/-- The next statement of the current thread in `ide_read` or `ide_write`; `bsy` and `drq` are what
the status register shows. -/
def run (x : IdeSys) (bsy drq : Bool) : Outcome IdeSys :=
  match x.pc x.cur with
  | .outside => pure x
  | .acquire c =>
    if x.locks.pc x.cur ≠ .outside then do
      let l ← x.locks.run
      return { x with locks := l }
    else pure (x.goto (.loop c))
  | .loop c =>
    if c.secsDone < c.secCnt then do
      -- `select_sector`
      assert ((c.lba + c.secsDone) % 2 ^ 32 ≤ maxLba)
      return x.goto (.command c c.secsOp)
    else do
      let l ← LockAct.release.exec x.locks
      return { x.goto .release with locks := l }
  | .command c n => pure { x.goto (.out c n) with expectingIntr := true }
  | .out c n =>
    match c.op with
    | .read => pure (x.goto (.down c n))
    | .write => pure (x.goto (.busy c n 30000))
  | .down c n => x.waitDone c n
  | .asleep c n => x.waitDone c n
  | .busy c n limit => x.busyWait c n limit bsy drq
  | .sleep c n limit start =>
    -- 10 milliseconds are one tick
    if (x.sched.ticks + 2 ^ 32 - start) % 2 ^ 32 < 1 then do
      let s ← x.sched.threadYield
      return x.setSched s
    else pure (x.goto (.busy c n limit))
  | .copy c n =>
    match c.op with
    | .read => pure (x.goto (.loop (c.advance n)))
    | .write => pure (x.goto (.down c n))
  | .release =>
    if x.locks.pc x.cur ≠ .outside then do
      let l ← x.locks.run
      return { x with locks := l }
    else pure (x.goto .outside)

/-- `intr_hd_handler` for this channel. -/
def intrHdHandler (x : IdeSys) : Outcome IdeSys :=
  if x.expectingIntr then do
    let s ← x.sched.semaUp x.diskDone
    return { x.setSched s with expectingIntr := false }
  else
    pure x

/-- An interrupt can come: the current thread is not inside `sema_down`. -/
def Interruptible (x : IdeSys) : Prop :=
  x.locks.pc x.cur ≠ .asleep ∧ ∀ c n, x.pc x.cur ≠ .asleep c n

end IdeSys

inductive IdeAct
  | call (op : IdeOp) (lba secCnt : ℕ)
  | run (bsy drq : Bool)
  | interrupt
  | other (c : SchedCall)

namespace IdeAct

def exec (x : IdeSys) : IdeAct → Outcome IdeSys
  | .call op lba secCnt => do
    assert (lba ≤ maxLba)
    assert (0 < secCnt)
    let l ← LockAct.acquire.exec x.locks
    return { x.goto (.acquire ⟨op, lba, secCnt, 0⟩) with locks := l }
  | .run bsy drq => x.run bsy drq
  | .interrupt => x.intrHdHandler
  | .other c => do
    let s ← c.exec x.sched
    return x.setSched s

/-- Every thread but the idle thread may call `ide_read` and `ide_write`, with any `uint32_t`
arguments. The rest of the system does what it likes whenever interrupts are on, on other
semaphores. -/
def Enabled (x : IdeSys) : IdeAct → Prop
  | .call _ lba secCnt => x.pc x.cur = .outside ∧ x.cur ≠ x.sched.idleThread ∧
      lba < 2 ^ 32 ∧ secCnt < 2 ^ 32
  | .run _ _ => x.pc x.cur ≠ .outside
  | .interrupt => x.Interruptible
  | .other c => x.Interruptible ∧ c.Admissible x.sched ∧ ¬ c.Refused x.sched ∧
      ¬ c.Uses x.locks.lock.semaphore ∧ ¬ c.Uses x.diskDone

end IdeAct

/-! ## The invariant -/

/-- The thread has the lock of the channel. -/
def IdePc.Locked : IdePc → Prop
  | .outside => False
  | .acquire _ => False
  | .release => False
  | _ => True

/-- The thread has sent a command (or is about to, with the flag set) and has not yet taken
`disk_done` for it. -/
def IdePc.Issued : IdePc → Prop
  | .out _ _ => True
  | .down _ _ => True
  | .asleep _ _ => True
  | .busy c _ _ => c.op = .write
  | .sleep c _ _ _ => c.op = .write
  | .copy c _ => c.op = .write
  | _ => False

/-- Where a thread can be in `lock_acquire` or `lock_release`, and whether it has the lock. -/
def IdePc.Fits (lp : LockPc) (d : ℕ) : IdePc → Prop
  | .outside => lp = .outside ∧ d = 0
  | .acquire _ => (lp = .outside ∧ d = 1) ∨ lp = .down ∨ lp = .asleep ∨ lp = .own ∨ lp = .marked ∨
      lp = .checked
  | .release => (lp = .outside ∧ d = 0) ∨ (lp = .release ∧ d = 1) ∨ lp = .last ∨ lp = .clear ∨
      lp = .zero ∨ lp = .up
  | _ => lp = .outside ∧ d = 1

/-- The flag and the semaphore: a command that has been sent waits either for its interrupt or to be
taken; without one both are down. -/
structure Handshake (x : IdeSys) : Prop where
  issued : ∀ t, (x.pc t).Issued → x.done.value = if x.expectingIntr then 0 else 1
  quiet : (∀ t, ¬(x.pc t).Issued) → x.expectingIntr = false ∧ x.done.value = 0

/-- The invariant of a channel. -/
structure IdeOk (x : IdeSys) : Prop where
  lock : LockOk x.locks
  apart : x.diskDone ≠ x.locks.lock.semaphore
  fits : ∀ t, (x.pc t).Fits (x.locks.pc t) (x.locks.depth t)
  handshake : Handshake x
  waiters : ∀ t ∈ x.done.waiters, ∃ c n, x.pc t = .asleep c n
  idle : x.pc x.sched.idleThread = .outside

variable {x x' : IdeSys} {pc : IdePc} {s : Sched} {t : ℕ} {c : Transfer} {n : ℕ}

theorem IdeSys.pc_goto (x : IdeSys) (pc : IdePc) (t : ℕ) :
    (x.goto pc).pc t = if t = x.cur then pc else x.pc t :=
  Function.update_apply ..

theorem IdePc.Issued.locked (h : pc.Issued) : pc.Locked := by
  cases pc <;> first | exact trivial | exact h.elim

theorem IdePc.Locked.fits (h : pc.Locked) {lp : LockPc} {d : ℕ} :
    pc.Fits lp d ↔ lp = .outside ∧ d = 1 := by
  cases pc <;> first | exact Iff.rfl | exact h.elim

theorem IdeOk.fits_locked (h : IdeOk x) (ht : (x.pc t).Locked) :
    x.locks.pc t = .outside ∧ x.locks.depth t = 1 :=
  ht.fits.1 (h.fits t)

/-- The lock admits one thread. -/
theorem IdeOk.locked_unique (h : IdeOk x) {t u : ℕ} (ht : (x.pc t).Locked)
    (hu : (x.pc u).Locked) : t = u := by
  have hsafe := h.lock.lockSafe
  have howns : ∀ v, (x.pc v).Locked → x.locks.Owns v := fun v hv =>
    hsafe.inside v (by rw [(h.fits_locked hv).2]; exact Nat.one_pos)
  exact hsafe.exclusion t u (howns t ht) (howns u hu)

theorem IdeOk.cur_ne_idle (h : IdeOk x) (hpc : x.pc x.cur ≠ .outside) :
    x.cur ≠ x.sched.idleThread := fun hc => hpc (by rw [hc]; exact h.idle)

/-- A step of the current thread: the others stay where they are. -/
structure IdeFrame (x x' : IdeSys) : Prop where
  diskDone : x'.diskDone = x.diskDone
  pc : ∀ t, t ≠ x.cur → x'.pc t = x.pc t
  semaphore : x'.locks.lock.semaphore = x.locks.lock.semaphore
  idle : x'.sched.idleThread = x.sched.idleThread
  lockPc : ∀ t, t ≠ x.cur → x'.locks.pc t = x.locks.pc t
  depth : ∀ t, t ≠ x.cur → x'.locks.depth t = x.locks.depth t

theorem IdeFrame.of_lock (hf : LockFrame x.locks x'.locks) (hdone : x'.diskDone = x.diskDone)
    (hpc : ∀ t, t ≠ x.cur → x'.pc t = x.pc t) : IdeFrame x x' :=
  ⟨hdone, hpc, hf.semaphore, hf.idle, hf.pc, hf.depth⟩

theorem IdeOk.of_frame (h : IdeOk x) (hf : IdeFrame x x') (hlock : LockOk x'.locks)
    (hfits : (x'.pc x.cur).Fits (x'.locks.pc x.cur) (x'.locks.depth x.cur))
    (hshake : Handshake x') (hwait : ∀ t ∈ x'.done.waiters, ∃ c n, x'.pc t = .asleep c n)
    (hidle : x.cur ≠ x.sched.idleThread) : IdeOk x' where
  lock := hlock
  apart := by
    rw [hf.diskDone, hf.semaphore]
    exact h.apart
  fits t := by
    by_cases ht : t = x.cur
    · rw [ht]
      exact hfits
    · rw [hf.pc t ht, hf.lockPc t ht, hf.depth t ht]
      exact h.fits t
  handshake := hshake
  waiters := hwait
  idle := by
    rw [hf.idle, hf.pc _ hidle.symm]
    exact h.idle

/-- The waiters do not notice what the current thread does. -/
theorem IdeOk.waiters_frame (h : IdeOk x) (hpc : ∀ t, t ≠ x.cur → x'.pc t = x.pc t)
    (hw : x'.done.waiters = x.done.waiters) (t : ℕ) (ht : t ∈ x'.done.waiters) :
    ∃ c n, x'.pc t = .asleep c n := by
  rw [hw] at ht
  rw [hpc t fun htc => h.lock.sched.cur_not_mem_waiters _ (htc ▸ ht)]
  exact h.waiters t ht

theorem Handshake.congr (h : Handshake x) (hpc : ∀ t, (x'.pc t).Issued ↔ (x.pc t).Issued)
    (hexp : x'.expectingIntr = x.expectingIntr) (hval : x'.done.value = x.done.value) :
    Handshake x' := by
  refine ⟨fun t ht => ?_, fun hq => ?_⟩
  · rw [hval, hexp]
    exact h.issued t ((hpc t).1 ht)
  · rw [hval, hexp]
    exact h.quiet fun t ht => hq t ((hpc t).2 ht)

/-- What the flag and the semaphore say about the current thread's command. -/
theorem IdeOk.quiet_of_locked (h : IdeOk x) (hcur : (x.pc x.cur).Locked)
    (hni : ¬(x.pc x.cur).Issued) : x.expectingIntr = false ∧ x.done.value = 0 :=
  h.handshake.quiet fun _ ht => hni (h.locked_unique ht.locked hcur ▸ ht)

/-- The thread that has the lock goes on to `pc`, and leaves the scheduler and the flag as `s` and
`expecting`. Only its own command counts. -/
theorem IdeOk.move_locked {p : IdePc} {expecting : Bool} (h : IdeOk x) (hp : x.pc x.cur = p)
    (hcur : p.Locked) (hpc : pc.Locked) (hs : SchedOk s)
    (hidle : s.idleThread = x.sched.idleThread)
    (hlock : s.semas x.locks.lock.semaphore = x.locks.sema)
    (hissued : pc.Issued → (s.semas x.diskDone).value = if expecting then 0 else 1)
    (hquiet : ¬pc.Issued → expecting = false ∧ (s.semas x.diskDone).value = 0)
    (hwait : ∀ t ∈ (s.semas x.diskDone).waiters,
      t ∈ x.done.waiters ∨ t = x.cur ∧ ∃ c n, pc = .asleep c n) :
    IdeOk { (x.goto pc).setSched s with expectingIntr := expecting } := by
  have hcur : (x.pc x.cur).Locked := hp ▸ hcur
  have hne : x.cur ≠ x.sched.idleThread := h.cur_ne_idle fun hc => by rw [hc] at hcur; exact hcur
  have hself : (x.goto pc).pc x.cur = pc := (x.pc_goto pc _).trans (if_pos rfl)
  have hother : ∀ t, t ≠ x.cur → (x.goto pc).pc t = x.pc t := fun t ht =>
    (x.pc_goto pc t).trans (if_neg ht)
  refine h.of_frame ⟨rfl, hother, rfl, hidle, fun _ _ => rfl, fun _ _ => rfl⟩
    (h.lock.other hs hidle hlock) ?_ ⟨fun t ht => ?_, fun hq => hquiet (hself ▸ hq x.cur)⟩
    (fun t ht => ?_) hne
  · change ((x.goto pc).pc x.cur).Fits _ _
    rw [hself]
    exact hpc.fits.2 (h.fits_locked hcur)
  · change ((x.goto pc).pc t).Issued at ht
    by_cases htc : t = x.cur
    · rw [htc, hself] at ht
      exact hissued ht
    · rw [hother t htc] at ht
      exact absurd (h.locked_unique ht.locked hcur) htc
  · change ∃ c n, (x.goto pc).pc t = .asleep c n
    rcases hwait t ht with hmem | ⟨htc, hasleep⟩
    · rw [hother t fun htc => h.lock.sched.cur_not_mem_waiters _ (htc ▸ hmem)]
      exact h.waiters t hmem
    · rw [htc, hself]
      exact hasleep

/-- The thread that has the lock goes on, with or without a command that has been sent. -/
theorem IdeOk.goto_locked {p : IdePc} (h : IdeOk x) (hp : x.pc x.cur = p) (hcur : p.Locked)
    (hpc : pc.Locked) (hiff : pc.Issued ↔ p.Issued) : IdeOk (x.goto pc) :=
  h.move_locked hp hcur hpc h.lock.sched rfl rfl
    (fun hi => h.handshake.issued x.cur (hp ▸ hiff.1 hi))
    (fun hni => h.quiet_of_locked (hp ▸ hcur) fun hi => hni (hiff.2 (hp ▸ hi)))
    fun _ ht => .inl ht

/-! ## Steps -/

/-- The points of `lock_acquire` for a thread that does not have the lock follow one another. -/
theorem fits_acquire_run {l l' : LockSys} (h : LockOk l) (hpc : l.pc l.cur ≠ .outside)
    (hfits : (IdePc.acquire c).Fits (l.pc l.cur) (l.depth l.cur)) (hrun : l.run = .ok l') :
    (IdePc.acquire c).Fits (l'.pc l.cur) (l'.depth l.cur) := by
  have hidle : l.cur ≠ l.sched.idleThread := fun hc => hpc (by rw [hc]; exact h.idle.1)
  have hd := h.fits l.cur
  unfold LockSys.run at hrun
  rcases hfits with ⟨hp, -⟩ | hp | hp | hp | hp | hp
  · exact absurd hp hpc
  · rw [hp] at hrun
    obtain ⟨-, hown | hsleep⟩ := h.tryDown_frame hidle hrun
    · exact Or.inr (Or.inr (Or.inr (Or.inl hown)))
    · exact Or.inr (Or.inr (Or.inl hsleep))
  · rw [hp] at hrun
    obtain ⟨-, hown | hsleep⟩ := h.tryDown_frame hidle hrun
    · exact Or.inr (Or.inr (Or.inr (Or.inl hown)))
    · exact Or.inr (Or.inr (Or.inl hsleep))
  · rw [hp] at hrun
    obtain rfl := pure_eq_ok.1 hrun
    exact Or.inr (Or.inr (Or.inr (Or.inr (Or.inl ((l.pc_goto ..).trans (if_pos rfl))))))
  · rw [hp] at hrun
    obtain ⟨_, -, hrun⟩ := bind_eq_ok.1 hrun
    obtain rfl := pure_eq_ok.1 hrun
    exact Or.inr (Or.inr (Or.inr (Or.inr (Or.inr ((l.pc_goto ..).trans (if_pos rfl))))))
  · rw [hp] at hrun hd
    obtain rfl := pure_eq_ok.1 hrun
    have hd : l.depth l.cur = 0 := hd
    refine Or.inl ⟨(l.pc_goto ..).trans (if_pos rfl), (l.depth_goto ..).trans ?_⟩
    rw [if_pos rfl, hd]

/-- The points of `lock_release` for a thread that has the lock once follow one another. -/
theorem fits_release_run {l l' : LockSys} (h : LockOk l) (hpc : l.pc l.cur ≠ .outside)
    (hfits : IdePc.release.Fits (l.pc l.cur) (l.depth l.cur)) (hrun : l.run = .ok l') :
    IdePc.release.Fits (l'.pc l.cur) (l'.depth l.cur) := by
  have hd := h.fits l.cur
  unfold LockSys.run at hrun
  rcases hfits with ⟨hp, -⟩ | ⟨hp, hone⟩ | hp | hp | hp | hp
  · exact absurd hp hpc
  · have hnr : l.lock.holderRepeatNr = l.depth l.cur := (h.written (LockSys.view_eq hp)).2
    rw [hp] at hrun
    obtain rfl := pure_eq_ok.1 hrun
    refine Or.inr (Or.inr (Or.inl ((l.pc_goto ..).trans ?_)))
    rw [if_pos rfl, if_neg (by omega)]
  · rw [hp] at hrun
    obtain ⟨_, -, hrun⟩ := bind_eq_ok.1 hrun
    obtain rfl := pure_eq_ok.1 hrun
    exact Or.inr (Or.inr (Or.inr (Or.inl ((l.pc_goto ..).trans (if_pos rfl)))))
  · rw [hp] at hrun
    obtain rfl := pure_eq_ok.1 hrun
    exact Or.inr (Or.inr (Or.inr (Or.inr (Or.inl ((l.pc_goto ..).trans (if_pos rfl))))))
  · rw [hp] at hrun
    obtain rfl := pure_eq_ok.1 hrun
    exact Or.inr (Or.inr (Or.inr (Or.inr (Or.inr ((l.pc_goto ..).trans (if_pos rfl))))))
  · rw [hp] at hrun hd
    obtain ⟨s, -, hrun⟩ := bind_eq_ok.1 hrun
    obtain rfl := pure_eq_ok.1 hrun
    have hd : l.depth l.cur = 1 := hd
    refine Or.inl ⟨(l.pc_goto .outside (l.depth l.cur - 1) l.lock l.cur).trans (if_pos rfl),
      (l.depth_goto .outside (l.depth l.cur - 1) l.lock l.cur).trans ?_⟩
    rw [if_pos rfl, hd]

/-- A statement inside `lock_acquire` or `lock_release`. -/
theorem IdeOk.lockRun (h : IdeOk x) (hpc : x.locks.pc x.cur ≠ .outside)
    (hcur : (∃ c, x.pc x.cur = .acquire c) ∨ x.pc x.cur = .release) :
    ∃ l, x.locks.run = .ok l ∧ IdeOk { x with locks := l } := by
  obtain ⟨l, hrun, hok⟩ := h.lock.run hpc
  have hf := h.lock.run_frame hpc hrun
  have hdone : IdeSys.done { x with locks := l } = x.done := hf.semas _ h.apart
  have hne : x.pc x.cur ≠ .outside := by
    rcases hcur with ⟨c, hc⟩ | hc <;> simp [hc]
  refine ⟨l, hrun, h.of_frame (.of_lock hf rfl fun _ _ => rfl) hok ?_
    (h.handshake.congr (fun _ => Iff.rfl) rfl (congrArg Semaphore.value hdone))
    (h.waiters_frame (fun _ _ => rfl) (congrArg Semaphore.waiters hdone)) (h.cur_ne_idle hne)⟩
  have hfits := h.fits x.cur
  change (x.pc x.cur).Fits (l.pc x.cur) (l.depth x.cur)
  rcases hcur with ⟨c, hc⟩ | hc
  · rw [hc] at hfits ⊢
    exact fits_acquire_run h.lock hpc hfits hrun
  · rw [hc] at hfits ⊢
    exact fits_release_run h.lock hpc hfits hrun

/-- The call of `lock_acquire`, or of `lock_release`, or the return from one. -/
theorem IdeOk.enter (h : IdeOk x) {l : LockSys} (hok : LockOk l) (hf : LockFrame x.locks l)
    (hidle : x.cur ≠ x.sched.idleThread) (hsemas : l.sched.semas = x.sched.semas)
    (hfits : pc.Fits (l.pc x.cur) (l.depth x.cur)) (hni : ¬(x.pc x.cur).Issued)
    (hni' : ¬pc.Issued) : IdeOk { x.goto pc with locks := l } := by
  have hdone : IdeSys.done { x.goto pc with locks := l } = x.done := congrFun hsemas _
  have hself : (x.goto pc).pc x.cur = pc := (x.pc_goto pc _).trans (if_pos rfl)
  have hother : ∀ t, t ≠ x.cur → (x.goto pc).pc t = x.pc t := fun t ht =>
    (x.pc_goto pc t).trans (if_neg ht)
  refine h.of_frame (.of_lock hf rfl hother) hok ?_ (h.handshake.congr (fun t => ?_) rfl
    (congrArg Semaphore.value hdone))
    (h.waiters_frame hother (congrArg Semaphore.waiters hdone)) hidle
  · change ((x.goto pc).pc x.cur).Fits _ _
    rw [hself]
    exact hfits
  · change ((x.goto pc).pc t).Issued ↔ _
    by_cases ht : t = x.cur
    · rw [ht, hself]
      exact iff_of_false hni' hni
    · rw [hother t ht]

/-- A call of the rest of the system, or one of the current thread on the semaphore `disk_done`
that leaves everybody where they are. -/
theorem IdeOk.other (h : IdeOk x) (hs : SchedOk s) (hidle : s.idleThread = x.sched.idleThread)
    (hsema : s.semas x.locks.lock.semaphore = x.locks.sema)
    (hdone : s.semas x.diskDone = x.done) : IdeOk (x.setSched s) where
  lock := h.lock.other hs hidle hsema
  apart := h.apart
  fits := h.fits
  handshake := h.handshake.congr (fun _ => Iff.rfl) rfl (congrArg Semaphore.value hdone)
  waiters := by
    have heq : (x.setSched s).done = x.done := hdone
    rw [heq]
    exact h.waiters
  idle := by
    change x.pc s.idleThread = _
    rw [hidle]
    exact h.idle

theorem Transfer.afterDown_quiet (c : Transfer) (n : ℕ) :
    (c.afterDown n).Locked ∧ ¬(c.afterDown n).Issued := by
  unfold Transfer.afterDown
  cases hop : c.op with
  | read => exact ⟨trivial, fun hi : c.op = .write => by rw [hop] at hi; cases hi⟩
  | write => exact ⟨trivial, fun hi => hi⟩

/-- A round of `sema_down` on `disk_done`: no assertion fails. -/
theorem IdeOk.waitDone (h : IdeOk x)
    (hpc : x.pc x.cur = .down c n ∨ x.pc x.cur = .asleep c n) :
    ∃ x', x.waitDone c n = .ok x' ∧ IdeOk x' := by
  have hissued : (x.pc x.cur).Issued := by
    rcases hpc with hp | hp <;> rw [hp] <;> exact trivial
  have hidle : x.cur ≠ x.sched.idleThread :=
    h.cur_ne_idle fun hc => by rw [hc] at hissued; exact hissued
  have hval := h.handshake.issued x.cur hissued
  unfold IdeSys.waitDone
  cases hexp : x.expectingIntr with
  | true =>
    rw [hexp, if_pos rfl] at hval
    obtain ⟨s, hrun, hs, hsw⟩ := h.lock.sched.semaDown_zero hidle hval
    rw [show x.sched.semaDown x.diskDone = .ok (false, s) from hrun]
    have hdone : s.semas x.diskDone = { x.done with waiters := x.done.waiters ++ [x.cur] } := by
      rw [hsw.semas]
      exact (semas_queued ..).trans (if_pos rfl)
    have hlock : s.semas x.locks.lock.semaphore = x.locks.sema := by
      rw [hsw.semas]
      exact (semas_queued ..).trans (if_neg h.apart.symm)
    refine ⟨_, rfl, h.move_locked rfl hissued.locked trivial hs hsw.idle hlock (fun _ => ?_)
      (fun hni => absurd trivial hni) fun t ht => ?_⟩
    · rw [hdone]
      exact h.handshake.issued x.cur hissued
    · rw [hdone] at ht
      exact (List.mem_append.1 ht).imp_right fun ht => ⟨List.mem_singleton.1 ht, c, n, rfl⟩
  | false =>
    rw [hexp, if_neg Bool.false_ne_true] at hval
    rw [show x.sched.semaDown x.diskDone = _ from semaDown_one hval]
    obtain ⟨hlocked, hni⟩ := c.afterDown_quiet n
    refine ⟨_, rfl, h.move_locked rfl hissued.locked hlocked (h.lock.sched.setValue _ 0) rfl
      ((semas_setSema ..).trans (if_neg h.apart.symm)) (fun hi => absurd hi hni)
      (fun _ => ⟨hexp, ?_⟩) fun t ht => .inl ?_⟩
    · rw [semas_setSema, if_pos rfl]
    · rw [semas_setSema, if_pos rfl] at ht
      exact ht

/-- `intr_hd_handler`: no assertion fails. -/
theorem IdeOk.intrHdHandler (h : IdeOk x) : ∃ x', x.intrHdHandler = .ok x' ∧ IdeOk x' := by
  unfold IdeSys.intrHdHandler
  cases hexp : x.expectingIntr with
  | false => exact ⟨x, rfl, h⟩
  | true =>
    rw [if_pos rfl]
    obtain ⟨t, ht⟩ : ∃ t, (x.pc t).Issued := by
      by_contra hno
      have hq := (h.handshake.quiet fun t ht => hno ⟨t, ht⟩).1
      rw [hexp] at hq
      cases hq
    have hval := h.handshake.issued t ht
    rw [hexp, if_pos rfl] at hval
    obtain ⟨s, hrun, hs, hidle, hsemas, -⟩ := h.lock.sched.exec (c := .semaUp x.diskDone) trivial
      (not_not.2 hval)
    have hup := h.lock.sched.semaUp_done hval hrun
    rw [show x.sched.semaUp x.diskDone = .ok s from hrun]
    refine ⟨_, rfl, ?_⟩
    change IdeOk { x.setSched s with expectingIntr := false }
    refine ⟨h.lock.other hs hidle (hsemas _ h.apart), h.apart, h.fits, ⟨fun _ _ => hup.1,
      fun hq => absurd ht (hq t)⟩, fun u hu => h.waiters u (hup.2 u hu), ?_⟩
    change x.pc s.idleThread = _
    rw [hidle]
    exact h.idle

/-- The next statement of the current thread, if it does not stop at an assertion about the sector
number or at a disk that is not ready. -/
theorem IdeOk.run (h : IdeOk x) {bsy drq : Bool} (hpc : x.pc x.cur ≠ .outside)
    (hrun : x.run bsy drq = .ok x') : IdeOk x' := by
  have hidle := h.cur_ne_idle hpc
  have hfits := h.fits x.cur
  unfold IdeSys.run at hrun
  cases hp : x.pc x.cur with
  | outside => exact absurd hp hpc
  | acquire c =>
    rw [hp] at hrun hfits
    dsimp only at hrun
    split at hrun
    · next hl =>
      obtain ⟨l, hl', hok⟩ := h.lockRun hl (Or.inl ⟨c, hp⟩)
      rw [hl'] at hrun
      exact pure_eq_ok.1 hrun ▸ hok
    · next hl =>
      have hl : x.locks.pc x.cur = .outside := not_not.1 hl
      rw [hl] at hfits
      have hone : x.locks.depth x.cur = 1 := by
        rcases hfits with ⟨-, hd⟩ | hf | hf | hf | hf | hf
        · exact hd
        all_goals cases hf
      exact pure_eq_ok.1 hrun ▸ h.enter h.lock
        ⟨rfl, rfl, fun _ _ => rfl, fun _ _ => rfl, fun _ _ => rfl⟩ hidle rfl ⟨hl, hone⟩
        (by rw [hp]; exact fun hi => hi) fun hi => hi
  | loop c =>
    have hlocked : (x.pc x.cur).Locked := by rw [hp]; trivial
    obtain ⟨hl, hd⟩ := h.fits_locked hlocked
    rw [hp] at hrun
    dsimp only at hrun
    split at hrun
    · obtain ⟨_, -, hrun⟩ := bind_eq_ok.1 hrun
      exact pure_eq_ok.1 hrun ▸ h.goto_locked hp trivial trivial Iff.rfl
    · have hen : LockAct.release.Enabled x.locks := ⟨hl, by
        change 0 < x.locks.depth x.cur
        omega⟩
      obtain ⟨l, hl', hrun⟩ := bind_eq_ok.1 hrun
      obtain ⟨l₁, hl₁, hok⟩ := h.lock.exec hen
      obtain rfl := Except.ok.inj (hl₁.symm.trans hl')
      obtain ⟨_, -, hl'⟩ := bind_eq_ok.1 hl'
      obtain rfl := pure_eq_ok.1 hl'
      refine pure_eq_ok.1 hrun ▸ h.enter (hok trivial) (x.locks.frame_goto _ _ rfl) hidle rfl ?_
        (by rw [hp]; exact fun hi => hi) fun hi => hi
      exact Or.inr (Or.inl ⟨x.locks.pc_goto_cur .., (x.locks.depth_goto_cur ..).trans hd⟩)
  | command c n =>
    have hq := h.quiet_of_locked (by rw [hp]; trivial) (by rw [hp]; exact fun hi => hi)
    rw [hp] at hrun
    exact pure_eq_ok.1 hrun ▸ h.move_locked hp trivial trivial h.lock.sched rfl rfl (fun _ => hq.2)
      (fun hni => absurd trivial hni) fun _ ht => .inl ht
  | out c n =>
    rw [hp] at hrun
    dsimp only at hrun
    split at hrun
    · exact pure_eq_ok.1 hrun ▸ h.goto_locked hp trivial trivial Iff.rfl
    · next hop =>
      exact pure_eq_ok.1 hrun ▸ h.goto_locked hp trivial trivial
        (iff_of_true hop trivial)
  | down c n =>
    rw [hp] at hrun
    obtain ⟨x₁, h₁, hok⟩ := h.waitDone (Or.inl hp)
    exact Except.ok.inj (h₁.symm.trans hrun) ▸ hok
  | asleep c n =>
    rw [hp] at hrun
    obtain ⟨x₁, h₁, hok⟩ := h.waitDone (Or.inr hp)
    exact Except.ok.inj (h₁.symm.trans hrun) ▸ hok
  | busy c n limit =>
    rw [hp] at hrun
    dsimp only [IdeSys.busyWait] at hrun
    split at hrun
    · cases hrun
    split at hrun
    · split at hrun
      · exact pure_eq_ok.1 hrun ▸ h.goto_locked hp trivial trivial Iff.rfl
      · cases hrun
    · exact pure_eq_ok.1 hrun ▸ h.goto_locked hp trivial trivial Iff.rfl
  | sleep c n limit start =>
    rw [hp] at hrun
    dsimp only at hrun
    split at hrun
    · obtain ⟨s, hs, hrun⟩ := bind_eq_ok.1 hrun
      obtain ⟨s₁, hs₁, hok, hid, hsemas, -⟩ :=
        h.lock.sched.exec (c := .threadYield) hidle fun hr => hr
      obtain rfl := Except.ok.inj (hs₁.symm.trans hs)
      exact pure_eq_ok.1 hrun ▸ h.other hok hid (hsemas _ fun hu => hu) (hsemas _ fun hu => hu)
    · exact pure_eq_ok.1 hrun ▸ h.goto_locked hp trivial trivial Iff.rfl
  | copy c n =>
    rw [hp] at hrun
    dsimp only at hrun
    split at hrun
    · next hop =>
      exact pure_eq_ok.1 hrun ▸ h.goto_locked hp trivial trivial
        (iff_of_false (fun hi => hi) fun hi : c.op = .write => by rw [hop] at hi; cases hi)
    · next hop =>
      exact pure_eq_ok.1 hrun ▸ h.goto_locked hp trivial trivial
        (iff_of_true trivial hop)
  | release =>
    rw [hp] at hrun hfits
    dsimp only at hrun
    split at hrun
    · next hl =>
      obtain ⟨l, hl', hok⟩ := h.lockRun hl (Or.inr hp)
      rw [hl'] at hrun
      exact pure_eq_ok.1 hrun ▸ hok
    · next hl =>
      have hl : x.locks.pc x.cur = .outside := not_not.1 hl
      rw [hl] at hfits
      have hzero : x.locks.depth x.cur = 0 := by
        rcases hfits with ⟨-, hd⟩ | ⟨hf, -⟩ | hf | hf | hf | hf
        · exact hd
        all_goals cases hf
      exact pure_eq_ok.1 hrun ▸ h.enter h.lock
        ⟨rfl, rfl, fun _ _ => rfl, fun _ _ => rfl, fun _ _ => rfl⟩ hidle rfl ⟨hl, hzero⟩
        (by rw [hp]; exact fun hi => hi) fun hi => hi

/-! ## Runs -/

/-- A step of the system. -/
def IdeStep (x x' : IdeSys) : Prop := ∃ a : IdeAct, a.Enabled x ∧ a.exec x = .ok x'

theorem IdeOk.step (h : IdeOk x) (hstep : IdeStep x x') : IdeOk x' := by
  obtain ⟨a, ha, hrun⟩ := hstep
  cases a with
  | call op lba secCnt =>
    obtain ⟨hpc, hidle, -, -⟩ := ha
    have hfits := h.fits x.cur
    rw [hpc] at hfits
    obtain ⟨hl, hd⟩ := hfits
    obtain ⟨_, -, hrun⟩ := bind_eq_ok.1 hrun
    obtain ⟨_, -, hrun⟩ := bind_eq_ok.1 hrun
    obtain ⟨l, hl', hrun⟩ := bind_eq_ok.1 hrun
    obtain ⟨l₁, hl₁, hok⟩ := h.lock.exec (a := .acquire) ⟨hl, hidle⟩
    obtain rfl := Except.ok.inj (hl₁.symm.trans hl')
    have hholder : x.locks.lock.holder ≠ some x.cur := fun hh => by
      have hview := h.lock.view_of_holder hh
      rw [LockSys.view_eq hl, hd] at hview
      cases hview
    obtain rfl := pure_eq_ok.1 hl'
    refine pure_eq_ok.1 hrun ▸ h.enter (hok fun hh => absurd hh hholder)
      (x.locks.frame_goto _ _ rfl) hidle rfl (Or.inr (Or.inl ?_)) (by rw [hpc]; exact fun hi => hi)
      fun hi => hi
    exact (x.locks.pc_goto_cur ..).trans (if_pos hholder)
  | run bsy drq => exact h.run ha hrun
  | interrupt =>
    obtain ⟨x₁, h₁, hok⟩ := h.intrHdHandler
    exact Except.ok.inj (h₁.symm.trans hrun) ▸ hok
  | other c =>
    obtain ⟨-, hadm, href, huses, huses'⟩ := ha
    obtain ⟨s, hs, hrun⟩ := bind_eq_ok.1 hrun
    obtain ⟨s₁, hs₁, hok, hid, hsemas, -⟩ := h.lock.sched.exec hadm href
    obtain rfl := Except.ok.inj (hs₁.symm.trans hs)
    exact pure_eq_ok.1 hrun ▸ h.other hok hid (hsemas _ huses) (hsemas _ huses')

/-- The channel after its part of `ide_init`, with every thread outside. -/
structure IdeSys.Initial (x : IdeSys) : Prop where
  locks : x.locks.Initial
  apart : x.diskDone ≠ x.locks.lock.semaphore
  expectingIntr : x.expectingIntr = false
  done : x.done = ⟨0, []⟩
  outside : ∀ t, x.pc t = .outside

theorem IdeSys.Initial.ideOk (h : x.Initial) : IdeOk x where
  lock := h.locks.lockOk
  apart := h.apart
  fits t := by
    rw [h.outside t]
    exact h.locks.outside t
  handshake := by
    refine ⟨fun t ht => ?_, fun _ => ⟨h.expectingIntr, by rw [h.done]⟩⟩
    rw [h.outside t] at ht
    exact ht.elim
  waiters t ht := by
    rw [h.done] at ht
    cases ht
  idle := h.outside _

/-- What the protocol promises. -/
structure ChannelSafe (x : IdeSys) : Prop where
  /-- One call at a time is between its `lock_acquire` and its `lock_release`. -/
  one_command : ∀ t u, (x.pc t).Locked → (x.pc u).Locked → t = u
  value : x.done.value = 0 ∨ x.done.value = 1
  expecting : x.expectingIntr = true → x.done.value = 0
  handler : ∃ x', x.intrHdHandler = .ok x'
  waiting : ∀ c n, x.pc x.cur = .down c n ∨ x.pc x.cur = .asleep c n →
    ∃ x', x.waitDone c n = .ok x'
  waiter : ∀ t ∈ x.done.waiters, (x.pc t).Issued
  issuer : ∀ t u, t ∈ x.done.waiters → (x.pc u).Issued → t = u

theorem IdeOk.channelSafe (h : IdeOk x) : ChannelSafe x := by
  have hwaiter : ∀ t ∈ x.done.waiters, (x.pc t).Issued := fun t ht => by
    obtain ⟨c, n, hp⟩ := h.waiters t ht
    rw [hp]
    trivial
  have hcases : x.done.value = (if x.expectingIntr then 0 else 1) ∨
      x.expectingIntr = false ∧ x.done.value = 0 := by
    by_cases hi : ∃ t, (x.pc t).Issued
    · obtain ⟨t, ht⟩ := hi
      exact Or.inl (h.handshake.issued t ht)
    · exact Or.inr (h.handshake.quiet fun t ht => hi ⟨t, ht⟩)
  constructor
  case one_command => exact fun t u ht hu => h.locked_unique ht hu
  case value =>
    rcases hcases with hv | ⟨-, hv⟩
    · rw [hv]
      cases x.expectingIntr
      · exact Or.inr rfl
      · exact Or.inl rfl
    · exact Or.inl hv
  case expecting =>
    intro hexp
    rcases hcases with hv | ⟨hf, -⟩
    · rw [hv, hexp]
      rfl
    · rw [hexp] at hf
      cases hf
  case handler =>
    obtain ⟨x', hrun, -⟩ := h.intrHdHandler
    exact ⟨x', hrun⟩
  case waiting =>
    intro c n hp
    obtain ⟨x', hrun, -⟩ := h.waitDone hp
    exact ⟨x', hrun⟩
  case waiter => exact hwaiter
  case issuer => exact fun t u ht hu => h.locked_unique (hwaiter t ht).locked hu.locked

/-- **The disk channel protocol.** Whatever the threads read and write, and whenever and however
often the disk interrupts, in every state of every run one command at a time is in progress, the
assertions about `disk_done` hold, and only the thread that sent the command waits for it. -/
theorem channelSafe_of_run {x₀ : IdeSys} (h₀ : x₀.Initial)
    (hrun : Relation.ReflTransGen IdeStep x₀ x) : ChannelSafe x := by
  have hok : IdeOk x := reach_invariant hrun h₀.ideOk fun h hstep => h.step hstep
  exact hok.channelSafe

/-- A channel right after the start of the system. -/
def startIde : IdeSys where
  locks := { startLock with sched := (bootSched.started 2 3).setSema 1 ⟨0, []⟩ }
  expectingIntr := false
  diskDone := 1
  pc _ := .outside

theorem startIde_initial : startIde.Initial where
  locks :=
    { sched := (BootPages.schedOk ⟨by decide, by decide, by decide, by decide⟩
        fun _ => rfl).setValue
        1 0
      sema := rfl
      holder := rfl
      holderRepeatNr := rfl
      outside := fun _ => ⟨rfl, rfl⟩ }
  apart := by decide
  expectingIntr := rfl
  done := rfl
  outside _ := rfl

/-- The enabled steps that the run below is made of. -/
def IdeAct.checked (x : IdeSys) : IdeAct → Bool
  | .call _ lba secCnt => x.pc x.cur = .outside ∧ x.cur ≠ x.sched.idleThread ∧ lba < 2 ^ 32 ∧
      secCnt < 2 ^ 32
  | .run _ _ => x.pc x.cur ≠ .outside
  | .interrupt => x.pc x.cur = .outside ∧ x.locks.pc x.cur = .outside
  | .other _ => false

theorem IdeAct.enabled_of_checked {a : IdeAct} (h : a.checked x = true) : a.Enabled x := by
  cases a with
  | call op lba secCnt =>
    have h := of_decide_eq_true h
    exact h
  | run bsy drq =>
    have h := of_decide_eq_true h
    exact h
  | interrupt =>
    obtain ⟨hpc, hl⟩ := of_decide_eq_true h
    exact ⟨by rw [hl]; simp, fun c n => by rw [hpc]; simp⟩
  | other c => cases h

/-- Thread 1 reads a sector and waits for the disk, thread 2 waits for the lock, and an interrupt
wakes thread 1. -/
theorem channelSafe_of_read : ∃ x, Relation.ReflTransGen IdeStep startIde x ∧
    x.pc 1 = .asleep ⟨.read, 0, 1, 0⟩ 1 ∧ x.pc 2 = .acquire ⟨.write, 5, 300, 0⟩ ∧
    x.done.value = 1 ∧ ChannelSafe x := by
  obtain ⟨x, hrun, hx⟩ := exists_of_holds
    (o := runAll (fun x a => IdeAct.checked x a) IdeAct.exec startIde
      ([.call .read 0 1] ++ List.replicate 9 (.run false true) ++
        [.call .write 5 300, .run false true, .interrupt]))
    (f := fun x => x.pc 1 = .asleep ⟨.read, 0, 1, 0⟩ 1 ∧
      x.pc 2 = .acquire ⟨.write, 5, 300, 0⟩ ∧ x.done.value = 1) (by decide +kernel)
  have hreach : Relation.ReflTransGen IdeStep startIde x := reach_of_runAll
    (fun {_ _ a} hc hexec => ⟨a, IdeAct.enabled_of_checked hc, hexec⟩) hrun
  obtain ⟨h1, h2, hv⟩ := of_decide_eq_true hx
  exact ⟨x, hreach, h1, h2, hv, channelSafe_of_run startIde_initial hreach⟩

end Gardos.Device
