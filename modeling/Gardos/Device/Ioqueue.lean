import Gardos.Foundations.Ring
import Gardos.Thread.Lock

/-!
# The ring buffer between producers and consumers (`device/ioqueue.c`, `shell/pipe.c`)

`ioq_getchar` and `ioq_putchar` run with interrupts off, so a thread inside them keeps the
processor until it goes to sleep: in `lock_acquire`, or in `ioq_wait` with the lock held. `IoqPc`
has these points, and the ones at which nothing else can come in between. The keyboard handler
stores its characters from an interrupt, and only when the queue is not full.

The system carries two lists that the code does not have: the bytes that all puts have stored
and the bytes that all gets have returned, in the order in which they did.

* `fifoChannel_of_run`: what is in the queue is what was stored and not yet returned, in order.
* `asleep_next_to_data` and `empty_of_consumer`: a reader that had to wait for the lock goes to
  sleep without looking at the queue again; if the queue is empty whenever such a reader gets the
  lock, no reader sleeps next to data.
-/

namespace Gardos.Device

open Outcome Thread Function

/-- `bufsize`. -/
def bufsize : ℕ := 2048

/-- `struct ioqueue`. -/
structure Ioqueue where
  lock : Lock
  producer : Option ℕ
  consumer : Option ℕ
  buf : ℕ → UInt8
  head : ℕ
  tail : ℕ

/-- `next_pos`. -/
def nextPos (pos : ℕ) : ℕ := (pos + 1) % bufsize

namespace Ioqueue

/-- `ioq_full`. -/
def Full (q : Ioqueue) : Prop := nextPos q.head = q.tail

/-- `ioq_empty`. -/
def Empty (q : Ioqueue) : Prop := q.head = q.tail

instance (q : Ioqueue) : Decidable q.Full := inferInstanceAs (Decidable (_ = _))

instance (q : Ioqueue) : Decidable q.Empty := inferInstanceAs (Decidable (_ = _))

/-- `ioq_length`. -/
def length (q : Ioqueue) : ℕ :=
  if q.tail ≤ q.head then q.head - q.tail else bufsize - (q.tail - q.head)

/-- The bytes in the queue, from `tail` to `head`. -/
def content (q : Ioqueue) : List UInt8 := Ring.content bufsize q.buf q.head q.tail

end Ioqueue

/-- What a thread in `ioq_getchar` or `ioq_putchar` still has to do: `get left` reads a byte and
`left` more after it, `put byte rest` writes `byte` and then `rest`. -/
inductive IoqOp
  | get (left : ℕ)
  | put (byte : UInt8) (rest : List UInt8)
  deriving DecidableEq

namespace IoqOp

/-- The condition of the loop in `ioq_getchar` and `ioq_putchar`. -/
def Blocked (q : Ioqueue) : IoqOp → Prop
  | .get _ => q.Empty
  | .put _ _ => q.Full

instance (q : Ioqueue) (op : IoqOp) : Decidable (op.Blocked q) :=
  match op with
  | .get _ => inferInstanceAs (Decidable q.Empty)
  | .put _ _ => inferInstanceAs (Decidable q.Full)

/-- `consumer` or `producer`. -/
def waiter (q : Ioqueue) : IoqOp → Option ℕ
  | .get _ => q.consumer
  | .put _ _ => q.producer

def setWaiter (q : Ioqueue) (t : ℕ) : IoqOp → Ioqueue
  | .get _ => { q with consumer := some t }
  | .put _ _ => { q with producer := some t }

end IoqOp

/-- Where a thread is. -/
inductive IoqPc
  | outside
  /-- At the test of the loop. -/
  | loop (op : IoqOp)
  /-- Asleep in `lock_acquire`, or woken up there and not yet back. -/
  | locking (op : IoqOp)
  /-- The lock is taken, `ioq_wait` is next. -/
  | locked (op : IoqOp)
  /-- Asleep in `ioq_wait`, or woken up there and not yet back. -/
  | waiting (op : IoqOp)
  deriving DecidableEq

/-- What a thread inside the queue's code has to do. -/
def IoqPc.pending : IoqPc → Option IoqOp
  | .outside => none
  | .loop op => some op
  | .locking op => some op
  | .locked op => some op
  | .waiting op => some op

/-- The thread sleeps in `lock_acquire`, or is on its way back from there. -/
def IoqPc.isLocking : IoqPc → Bool
  | .locking _ => true
  | _ => false

/-- The scheduler, one queue, the place of each thread in the code, and what all puts have stored
and all gets have returned. -/
structure IoqSys where
  sched : Sched
  ioq : Ioqueue
  pc : ℕ → IoqPc
  stored : List UInt8
  returned : List UInt8

namespace IoqSys

def cur (x : IoqSys) : ℕ := x.sched.cur

def goto (x : IoqSys) (pc : IoqPc) : IoqSys := { x with pc := update x.pc x.cur pc }

/-- `if (waiter != NULL) wakeup(&waiter)`. -/
def wakeup (s : Sched) : Option ℕ → Outcome Sched
  | none => pure s
  | some t => s.threadUnblock t

/-- The end of `ioq_getchar`. -/
def take (x : IoqSys) : Outcome IoqSys := do
  let s ← wakeup x.sched x.ioq.producer
  return { x with
    sched := s
    ioq := { x.ioq with tail := nextPos x.ioq.tail, producer := none }
    returned := x.returned ++ [x.ioq.buf x.ioq.tail] }

/-- The end of `ioq_putchar`. -/
def store (x : IoqSys) (byte : UInt8) : Outcome IoqSys := do
  let s ← wakeup x.sched x.ioq.consumer
  return { x with
    sched := s
    ioq := { x.ioq with
      buf := update x.ioq.buf x.ioq.head byte
      head := nextPos x.ioq.head
      consumer := none }
    stored := x.stored ++ [byte] }

/-- The end of `ioq_getchar` or `ioq_putchar`, and on to the next byte. -/
def transfer (x : IoqSys) : IoqOp → Outcome IoqSys
  | .get 0 => (x.goto .outside).take
  | .get (left + 1) => (x.goto (.loop (.get left))).take
  | .put byte [] => (x.goto .outside).store byte
  | .put byte (next :: rest) => (x.goto (.loop (.put next rest))).store byte

/-- `lock_acquire` by a thread that has to wait. -/
def acquire (x : IoqSys) (op : IoqOp) (lock : Sched → Lock → Outcome (Bool × Sched × Lock)) :
    Outcome IoqSys := do
  let (got, s, l) ← lock x.sched x.ioq.lock
  return { x.goto (if got then .locked op else .locking op) with
    sched := s
    ioq := { x.ioq with lock := l } }

/-- `ioq_wait`. -/
def wait (x : IoqSys) (op : IoqOp) : Outcome IoqSys := do
  assert (op.waiter x.ioq = none)
  let s ← x.sched.threadBlock .blocked
  return { x.goto (.waiting op) with sched := s, ioq := op.setWaiter x.ioq x.cur }

/-- `lock_release` by a thread that has waited, back to the test of the loop. -/
def release (x : IoqSys) (op : IoqOp) : Outcome IoqSys := do
  let (s, l) ← lockRelease x.sched x.ioq.lock
  return { x.goto (.loop op) with sched := s, ioq := { x.ioq with lock := l } }

/-- The next step of the current thread inside `ioq_getchar` or `ioq_putchar`. -/
def run (x : IoqSys) : Outcome IoqSys :=
  match x.pc x.cur with
  | .outside => pure x
  | .loop op => if op.Blocked x.ioq then x.acquire op lockAcquire else x.transfer op
  -- another round of `sema_down`
  | .locking op => x.acquire op lockDown
  | .locked op => x.wait op
  | .waiting op => x.release op

end IoqSys

/-- The steps: a call, the next step of the thread inside one, the keyboard interrupt, or something
that has nothing to do with the queue. -/
inductive IoqAct
  | getchar
  | putchar (byte : UInt8)
  /-- `sys_read` from the keyboard. -/
  | sysRead (count : ℕ)
  | pipeRead (count : ℕ)
  | pipeWrite (buf : List UInt8)
  | run
  | keyboard (byte : UInt8)
  | other (c : SchedCall)

namespace IoqAct

/-- Reading `count` bytes. -/
def startGet (x : IoqSys) : ℕ → IoqSys
  | 0 => x
  | left + 1 => x.goto (.loop (.get left))

/-- Writing `buf`. -/
def startPut (x : IoqSys) : List UInt8 → IoqSys
  | [] => x
  | byte :: rest => x.goto (.loop (.put byte rest))

def exec (x : IoqSys) : IoqAct → Outcome IoqSys
  | .getchar => pure (startGet x 1)
  | .putchar byte => pure (startPut x [byte])
  | .sysRead count => pure (startGet x count)
  | .pipeRead count =>
    let size := if count < x.ioq.length then count else x.ioq.length
    pure (startGet x size)
  | .pipeWrite buf =>
    let ioqLeft := bufsize - x.ioq.length
    let size := if buf.length < ioqLeft then buf.length else ioqLeft
    pure (startPut x (buf.take size))
  | .run => x.run
  | .keyboard byte => if x.ioq.Full then pure x else x.store byte
  | .other c => do
    let s ← c.exec x.sched
    return { x with sched := s }

/-- Calls and interrupts come when the current thread is outside; only the queue wakes up a
thread that sleeps in it. -/
def Enabled (x : IoqSys) : IoqAct → Prop
  | .run => x.pc x.cur ≠ .outside
  | .keyboard _ => x.pc x.cur = .outside
  | .other c => x.pc x.cur = .outside ∧ c.Admissible x.sched ∧
      ¬ c.Uses x.ioq.lock.semaphore ∧ ∀ t, c = .threadUnblock t → x.pc t = .outside
  | _ => x.pc x.cur = .outside ∧ x.cur ≠ x.sched.idleThread

end IoqAct

/-- A step of the system. -/
def IoqStep (x x' : IoqSys) : Prop := ∃ a : IoqAct, a.Enabled x ∧ a.exec x = .ok x'

/-- The only producer is the keyboard handler. -/
def IoqAct.Reader : IoqAct → Prop
  | .putchar _ => False
  | .pipeWrite _ => False
  | _ => True

/-- A step of the readers and the keyboard. -/
def ReaderStep (x x' : IoqSys) : Prop :=
  ∃ a : IoqAct, a.Reader ∧ a.Enabled x ∧ a.exec x = .ok x'

/-! ## The channel -/

variable {x x' : IoqSys} {op : IoqOp} {byte : UInt8}
  {lock : Sched → Lock → Outcome (Bool × Sched × Lock)} {s s' : Sched} {l l' : Lock} {got : Bool}

/-- The cursors are in range, and the queue holds what was stored and not yet returned. -/
structure Fifo (x : IoqSys) : Prop where
  head_lt : x.ioq.head < bufsize
  tail_lt : x.ioq.tail < bufsize
  stored_eq : x.stored = x.returned ++ x.ioq.content

/-- The step moves no data. -/
structure SameData (x x' : IoqSys) : Prop where
  buf : x'.ioq.buf = x.ioq.buf
  head : x'.ioq.head = x.ioq.head
  tail : x'.ioq.tail = x.ioq.tail
  stored : x'.stored = x.stored
  returned : x'.returned = x.returned

theorem Fifo.congr (h : Fifo x) (hs : SameData x x') : Fifo x' := by
  refine ⟨by rw [hs.head]; exact h.head_lt, by rw [hs.tail]; exact h.tail_lt, ?_⟩
  rw [hs.stored, hs.returned, h.stored_eq]
  unfold Ioqueue.content
  rw [hs.buf, hs.head, hs.tail]

theorem Fifo.take (h : Fifo x) (hne : ¬ x.ioq.Empty) (hrun : x.take = .ok x') : Fifo x' := by
  obtain ⟨s, -, hrun⟩ := bind_eq_ok.1 hrun
  obtain rfl := pure_eq_ok.1 hrun
  refine ⟨h.head_lt, Ring.next_lt h.tail_lt, ?_⟩
  change x.stored = x.returned ++ [x.ioq.buf x.ioq.tail] ++
    Ring.content bufsize x.ioq.buf x.ioq.head (Ring.next bufsize x.ioq.tail)
  rw [h.stored_eq, List.append_assoc, List.singleton_append,
    ← Ring.content_get _ h.head_lt h.tail_lt hne]
  rfl

theorem Fifo.store (h : Fifo x) (hne : ¬ x.ioq.Full) (hrun : x.store byte = .ok x') :
    Fifo x' := by
  obtain ⟨s, -, hrun⟩ := bind_eq_ok.1 hrun
  obtain rfl := pure_eq_ok.1 hrun
  refine ⟨Ring.next_lt h.head_lt, h.tail_lt, ?_⟩
  change x.stored ++ [byte] = x.returned ++ Ring.content bufsize
    (update x.ioq.buf x.ioq.head byte) (Ring.next bufsize x.ioq.head) x.ioq.tail
  rw [h.stored_eq, List.append_assoc, Ring.content_put _ _ h.head_lt h.tail_lt hne]
  rfl

theorem sameData_goto (x : IoqSys) (pc : IoqPc) : SameData x (x.goto pc) :=
  ⟨rfl, rfl, rfl, rfl, rfl⟩

theorem Fifo.transfer (h : Fifo x) (hne : ¬ op.Blocked x.ioq)
    (hrun : x.transfer op = .ok x') : Fifo x' := by
  unfold IoqSys.transfer at hrun
  split at hrun
  · exact (h.congr (sameData_goto x _)).take hne hrun
  · exact (h.congr (sameData_goto x _)).take hne hrun
  · exact (h.congr (sameData_goto x _)).store hne hrun
  · exact (h.congr (sameData_goto x _)).store hne hrun

theorem sameData_acquire (hrun : x.acquire op lock = .ok x') : SameData x x' := by
  obtain ⟨⟨got, s, l⟩, -, hrun⟩ := bind_eq_ok.1 hrun
  obtain rfl := pure_eq_ok.1 hrun
  exact ⟨rfl, rfl, rfl, rfl, rfl⟩

theorem sameData_wait (hrun : x.wait op = .ok x') : SameData x x' := by
  obtain ⟨_, -, hrun⟩ := bind_eq_ok.1 hrun
  obtain ⟨s, -, hrun⟩ := bind_eq_ok.1 hrun
  obtain rfl := pure_eq_ok.1 hrun
  cases op <;> exact ⟨rfl, rfl, rfl, rfl, rfl⟩

theorem sameData_release (hrun : x.release op = .ok x') : SameData x x' := by
  obtain ⟨⟨s, l⟩, -, hrun⟩ := bind_eq_ok.1 hrun
  obtain rfl := pure_eq_ok.1 hrun
  exact ⟨rfl, rfl, rfl, rfl, rfl⟩

theorem sameData_startGet (x : IoqSys) (n : ℕ) : SameData x (IoqAct.startGet x n) := by
  cases n <;> exact ⟨rfl, rfl, rfl, rfl, rfl⟩

theorem sameData_startPut (x : IoqSys) (buf : List UInt8) :
    SameData x (IoqAct.startPut x buf) := by
  cases buf <;> exact ⟨rfl, rfl, rfl, rfl, rfl⟩

theorem Fifo.run (h : Fifo x) (hrun : x.run = .ok x') : Fifo x' := by
  unfold IoqSys.run at hrun
  cases hpc : x.pc x.cur with
  | outside =>
    rw [hpc] at hrun
    exact pure_eq_ok.1 hrun ▸ h
  | loop op =>
    rw [hpc] at hrun
    dsimp only at hrun
    split at hrun
    · exact h.congr (sameData_acquire hrun)
    · next hne => exact h.transfer hne hrun
  | locking op =>
    rw [hpc] at hrun
    exact h.congr (sameData_acquire hrun)
  | locked op =>
    rw [hpc] at hrun
    exact h.congr (sameData_wait hrun)
  | waiting op =>
    rw [hpc] at hrun
    exact h.congr (sameData_release hrun)

/-- **One step** keeps the channel in order. -/
theorem Fifo.step (h : Fifo x) (hstep : IoqStep x x') : Fifo x' := by
  obtain ⟨a, -, hrun⟩ := hstep
  cases a with
  | getchar => exact pure_eq_ok.1 hrun ▸ h.congr (sameData_startGet x 1)
  | putchar byte => exact pure_eq_ok.1 hrun ▸ h.congr (sameData_startPut x [byte])
  | sysRead count => exact pure_eq_ok.1 hrun ▸ h.congr (sameData_startGet x count)
  | pipeRead count => exact pure_eq_ok.1 hrun ▸ h.congr (sameData_startGet x _)
  | pipeWrite buf => exact pure_eq_ok.1 hrun ▸ h.congr (sameData_startPut x _)
  | run => exact h.run hrun
  | keyboard byte =>
    unfold IoqAct.exec at hrun
    dsimp only at hrun
    split at hrun
    · exact pure_eq_ok.1 hrun ▸ h
    · next hne => exact h.store hne hrun
  | other c =>
    obtain ⟨s, -, hrun⟩ := bind_eq_ok.1 hrun
    exact pure_eq_ok.1 hrun ▸ h.congr ⟨rfl, rfl, rfl, rfl, rfl⟩

/-- The queue after `ioqueue_init`, with every thread outside. -/
structure IoqSys.Initial (x : IoqSys) : Prop where
  producer : x.ioq.producer = none
  consumer : x.ioq.consumer = none
  head : x.ioq.head = 0
  tail : x.ioq.tail = 0
  outside : ∀ t, x.pc t = .outside
  stored : x.stored = []
  returned : x.returned = []

theorem IoqSys.Initial.fifo (h : x.Initial) : Fifo x := by
  refine ⟨by rw [h.head]; decide, by rw [h.tail]; decide, ?_⟩
  rw [h.stored, h.returned, Ioqueue.content, h.head, h.tail, Ring.content_self]
  rfl

/-- The queue of the keyboard right after the start of the system. -/
def startIoq : IoqSys where
  sched := bootSched.started 2 3
  ioq := ⟨⟨none, 0, 0⟩, none, none, fun _ => 0, 0, 0⟩
  pc _ := .outside
  stored := []
  returned := []

theorem startIoq_initial : startIoq.Initial := ⟨rfl, rfl, rfl, rfl, fun _ => rfl, rfl, rfl⟩

/-- The enabled steps that the runs below are made of. -/
def IoqAct.checked (x : IoqSys) : IoqAct → Bool
  | .getchar => x.pc x.cur = .outside ∧ x.cur ≠ x.sched.idleThread
  | .run => x.pc x.cur ≠ .outside
  | .keyboard _ => x.pc x.cur = .outside
  | .other .threadYield => x.pc x.cur = .outside ∧ x.cur ≠ x.sched.idleThread
  | .other (.threadBlock .blocked) => x.pc x.cur = .outside
  | _ => false

theorem IoqAct.enabled_of_checked {a : IoqAct} (h : a.checked x = true) :
    a.Reader ∧ a.Enabled x := by
  unfold IoqAct.checked at h
  split at h
  · have h := of_decide_eq_true h
    exact ⟨trivial, h⟩
  · have h := of_decide_eq_true h
    exact ⟨trivial, h⟩
  · have h := of_decide_eq_true h
    exact ⟨trivial, h⟩
  · obtain ⟨hpc, hidle⟩ := of_decide_eq_true h
    exact ⟨trivial, hpc, hidle, fun hu => hu, nofun⟩
  · exact ⟨trivial, of_decide_eq_true h, ⟨Or.inl rfl, fun _ => rfl⟩, fun hu => hu, nofun⟩
  · cases h

/-- The queue is a channel: the cursors are in range, at most 2047 bytes are in the queue, as many
as `ioq_length` says, and they are what was stored and not yet returned, in order. -/
structure FifoChannel (x : IoqSys) : Prop where
  head_lt : x.ioq.head < 2048
  tail_lt : x.ioq.tail < 2048
  content_le : x.ioq.content.length ≤ 2047
  length_eq : x.ioq.length = x.stored.length - x.returned.length
  returned_prefix : x.returned <+: x.stored
  stored_eq : x.stored = x.returned ++ x.ioq.content

/-- **The ring buffer is a FIFO channel**, in every run of any number of producers and consumers,
on a pipe or on the keyboard's queue. -/
theorem fifoChannel_of_run {x₀ : IoqSys} (h₀ : x₀.Initial)
    (hrun : Relation.ReflTransGen IoqStep x₀ x) : FifoChannel x := by
  have h : Fifo x := reach_invariant hrun h₀.fifo fun h hstep => h.step hstep
  have hlen : x.ioq.content.length = x.ioq.length := Ring.length_content _
  have hlt : x.ioq.length < bufsize := Ring.length_lt h.head_lt
  refine ⟨h.head_lt, h.tail_lt, ?_, ?_, ?_, h.stored_eq⟩
  · rw [hlen]
    exact Nat.le_of_lt_succ hlt
  · rw [h.stored_eq, List.length_append, hlen, Nat.add_sub_cancel_left]
  · rw [h.stored_eq]
    exact List.prefix_append ..

/-- Three keys are pressed and two read; the third is in the queue. -/
theorem fifoChannel_of_keys : ∃ x, Relation.ReflTransGen IoqStep startIoq x ∧
    x.returned = [97, 98] ∧ x.ioq.content = [99] ∧ FifoChannel x := by
  obtain ⟨x, hrun, hx⟩ := exists_of_holds
    (o := runAll IoqAct.checked IoqAct.exec startIoq
      [.keyboard 97, .keyboard 98, .getchar, .run, .keyboard 99, .getchar, .run])
    (f := fun x => x.returned = [97, 98] ∧ x.ioq.content = [99]) (by decide +kernel)
  have hreach : Relation.ReflTransGen IoqStep startIoq x := reach_of_runAll
    (fun {_ _ a} hc hexec => ⟨a, (IoqAct.enabled_of_checked hc).2, hexec⟩) hrun
  obtain ⟨hret, hcontent⟩ := of_decide_eq_true hx
  exact ⟨x, hreach, hret, hcontent, fifoChannel_of_run startIoq_initial hreach⟩

/-! ## Readers that sleep -/

/-- When a reader that had to wait for the lock gets it, the queue is empty. -/
def IoqAct.QueueEmpty (x : IoqSys) : IoqAct → Prop
  | .run => (x.pc x.cur).isLocking = true →
      (x.sched.semas x.ioq.lock.semaphore).value ≠ 0 → x.ioq.Empty
  | _ => True

instance (x : IoqSys) (a : IoqAct) : Decidable (a.QueueEmpty x) :=
  match a with
  | .run => inferInstanceAs (Decidable (_ → _ → _))
  | .getchar | .putchar _ | .sysRead _ | .pipeRead _ | .pipeWrite _ | .keyboard _ | .other _ =>
    inferInstanceAs (Decidable True)

/-- No reader sleeps next to data, or is about to. -/
structure Quiet (x : IoqSys) : Prop where
  consumer : ∀ t, x.ioq.consumer = some t → x.ioq.Empty
  locked : ∀ t op, x.pc t = .locked op → t = x.cur ∧ x.ioq.Empty
  readers : ∀ t op, (x.pc t).pending = some op → ∃ n, op = .get n

/-- The current thread goes on to another point. -/
theorem Quiet.move (h : Quiet x) {pc : IoqPc} (hpc : x'.pc = update x.pc x.cur pc)
    (hop : ∀ op, pc.pending = some op → ∃ n, op = .get n)
    (hcons : ∀ t, x'.ioq.consumer = some t → x'.ioq.Empty)
    (hlocked : ∀ op, pc = .locked op → x'.cur = x.cur ∧ x'.ioq.Empty) : Quiet x' := by
  refine ⟨hcons, fun t op ht => ?_, fun t op ht => ?_⟩
  · rw [hpc, update_apply] at ht
    split at ht
    · next htc => exact ⟨htc.trans (hlocked op ht).1.symm, (hlocked op ht).2⟩
    · next htc => exact absurd (h.locked t op ht).1 htc
  · rw [hpc, update_apply] at ht
    split at ht
    · exact hop op ht
    · exact h.readers t op ht

/-- A step of the rest of the system while the current thread is outside. -/
theorem Quiet.other (h : Quiet x) (hcur : x.pc x.cur = .outside) (hpc : x'.pc = x.pc)
    (hcons : ∀ t, x'.ioq.consumer = some t → x'.ioq.Empty) : Quiet x' := by
  refine ⟨hcons, fun t op ht => ?_, by rw [hpc]; exact h.readers⟩
  rw [hpc] at ht
  rw [(h.locked t op ht).1, hcur] at ht
  cases ht

theorem Quiet.startGet (h : Quiet x) (n : ℕ) :
    Quiet (IoqAct.startGet x n) := by
  cases n with
  | zero => exact h
  | succ left =>
    exact h.move rfl (fun op hop => ⟨left, (Option.some.inj hop).symm⟩) h.consumer nofun

/-- Taking the lock after `sema_down` keeps the processor. -/
theorem lockDown_eq_ok (h : lockDown s l = .ok (got, s', l')) (hgot : got = true) :
    s'.cur = s.cur ∧ (s.semas l.semaphore).value ≠ 0 := by
  obtain ⟨⟨got', s₁⟩, hdown, h⟩ := bind_eq_ok.1 h
  dsimp only at h
  split at h
  · next hg =>
    obtain ⟨_, -, h⟩ := bind_eq_ok.1 h
    obtain ⟨-, rfl, -⟩ : true = got ∧ s₁ = s' ∧ _ = l' := by simpa using h
    rw [hg] at hdown
    obtain ⟨hv, rfl⟩ := Sched.semaDown_eq_true hdown
    exact ⟨rfl, hv⟩
  · obtain ⟨rfl, -⟩ : false = got ∧ _ := by simpa using h
    cases hgot

theorem lockAcquire_cur (h : lockAcquire s l = .ok (got, s', l')) (hgot : got = true) :
    s'.cur = s.cur := by
  unfold lockAcquire at h
  split at h
  · exact (lockDown_eq_ok h hgot).1
  · obtain ⟨-, rfl, -⟩ : true = got ∧ s = s' ∧ _ = l' := by simpa using h
    rfl

/-- A reader goes for the lock; if it gets it, the queue is empty. -/
theorem Quiet.acquire (h : Quiet x) {n : ℕ} (hrun : x.acquire (.get n) lock = .ok x')
    (hcur : ∀ s l, lock x.sched x.ioq.lock = .ok (true, s, l) → s.cur = x.cur ∧ x.ioq.Empty) :
    Quiet x' := by
  obtain ⟨⟨got, s, l⟩, hlock, hrun⟩ := bind_eq_ok.1 hrun
  obtain rfl := pure_eq_ok.1 hrun
  refine h.move rfl (fun op hop => ?_) h.consumer (fun op hop => ?_)
  · refine ⟨n, ?_⟩
    cases got <;> exact (Option.some.inj hop).symm
  · cases got with
    | true => exact hcur s l hlock
    | false => cases hop

theorem Quiet.take (h : Quiet x) (pc : IoqPc) (hne : ¬ x.ioq.Empty)
    (hop : ∀ op, pc.pending = some op → ∃ n, op = .get n) (hpc : ∀ op, pc ≠ .locked op)
    (hrun : (x.goto pc).take = .ok x') : Quiet x' := by
  obtain ⟨s, -, hrun⟩ := bind_eq_ok.1 hrun
  obtain rfl := pure_eq_ok.1 hrun
  refine h.move rfl hop (fun t ht => ?_) (fun op ho => absurd ho (hpc op))
  -- a consumer that slept would have found the queue empty
  exact absurd (h.consumer t ht) hne

theorem Quiet.run (h : Quiet x) (hempty : IoqAct.run.QueueEmpty x) (hrun : x.run = .ok x') :
    Quiet x' := by
  unfold IoqSys.run at hrun
  have hget : ∀ op, (x.pc x.cur).pending = some op → ∃ n, op = .get n := h.readers x.cur
  cases hpc : x.pc x.cur with
  | outside =>
    rw [hpc] at hrun
    exact pure_eq_ok.1 hrun ▸ h
  | loop op =>
    rw [hpc] at hrun hget
    obtain ⟨n, rfl⟩ := hget op rfl
    dsimp only at hrun
    split at hrun
    · next hb => exact h.acquire hrun fun s l hl => ⟨lockAcquire_cur hl rfl, hb⟩
    · next hne =>
      cases n with
      | zero => exact h.take .outside hne nofun nofun hrun
      | succ left =>
        exact h.take (.loop (.get left)) hne
          (fun op hop => ⟨left, (Option.some.inj hop).symm⟩) nofun hrun
  | locking op =>
    unfold IoqAct.QueueEmpty at hempty
    rw [hpc] at hrun hget hempty
    obtain ⟨n, rfl⟩ := hget op rfl
    exact h.acquire hrun fun s l hl =>
      ⟨(lockDown_eq_ok hl rfl).1, hempty rfl (lockDown_eq_ok hl rfl).2⟩
  | locked op =>
    rw [hpc] at hrun hget
    obtain ⟨n, rfl⟩ := hget op rfl
    obtain ⟨_, -, hrun⟩ := bind_eq_ok.1 hrun
    obtain ⟨s, -, hrun⟩ := bind_eq_ok.1 hrun
    obtain rfl := pure_eq_ok.1 hrun
    exact h.move rfl (fun op hop => ⟨n, (Option.some.inj hop).symm⟩)
      (fun t _ => (h.locked x.cur _ hpc).2) nofun
  | waiting op =>
    rw [hpc] at hrun hget
    obtain ⟨n, rfl⟩ := hget op rfl
    obtain ⟨⟨s, l⟩, -, hrun⟩ := bind_eq_ok.1 hrun
    obtain rfl := pure_eq_ok.1 hrun
    exact h.move rfl (fun op hop => ⟨n, (Option.some.inj hop).symm⟩) h.consumer nofun

/-- A step at which a reader that had to wait for the lock finds the queue empty. -/
def QuietStep (x x' : IoqSys) : Prop :=
  ∃ a : IoqAct, a.Reader ∧ a.Enabled x ∧ a.QueueEmpty x ∧ a.exec x = .ok x'

theorem Quiet.step (h : Quiet x) (hstep : QuietStep x x') : Quiet x' := by
  obtain ⟨a, hreader, hen, hempty, hrun⟩ := hstep
  cases a with
  | getchar => exact pure_eq_ok.1 hrun ▸ h.startGet 1
  | putchar byte => exact hreader.elim
  | sysRead count => exact pure_eq_ok.1 hrun ▸ h.startGet count
  | pipeRead count => exact pure_eq_ok.1 hrun ▸ h.startGet _
  | pipeWrite buf => exact hreader.elim
  | run => exact h.run hempty hrun
  | keyboard byte =>
    unfold IoqAct.exec at hrun
    dsimp only at hrun
    split at hrun
    · exact pure_eq_ok.1 hrun ▸ h
    · obtain ⟨s, -, hrun⟩ := bind_eq_ok.1 hrun
      exact pure_eq_ok.1 hrun ▸ h.other hen rfl nofun
  | other c =>
    obtain ⟨s, -, hrun⟩ := bind_eq_ok.1 hrun
    exact pure_eq_ok.1 hrun ▸ h.other hen.1 rfl h.consumer

/-- **No reader sleeps next to data**, in every run of any number of readers and the keyboard in
which the queue is empty whenever a reader that had to wait for the lock gets it. -/
theorem empty_of_consumer {x₀ : IoqSys} (h₀ : x₀.Initial)
    (hrun : Relation.ReflTransGen QuietStep x₀ x) (t : ℕ) (ht : x.ioq.consumer = some t) :
    x.ioq.Empty := by
  have hq : Quiet x₀ := by
    refine ⟨fun t ht => ?_, fun t op ht => ?_, fun t op ht => ?_⟩
    · rw [h₀.consumer] at ht
      cases ht
    · rw [h₀.outside t] at ht
      cases ht
    · rw [h₀.outside t] at ht
      cases ht
  have h : Quiet x := reach_invariant hrun hq fun h hstep => h.step hstep
  exact h.consumer t ht

/-- The main thread waits for a key. -/
theorem empty_of_getchar : ∃ x, Relation.ReflTransGen QuietStep startIoq x ∧
    x.ioq.consumer = some 1 ∧ x.ioq.Empty := by
  obtain ⟨x, hrun, hx⟩ := exists_of_holds
    (o := runAll (fun x a => IoqAct.checked x a && decide (a.QueueEmpty x)) IoqAct.exec startIoq
      [.getchar, .run, .run])
    (f := fun x => x.ioq.consumer = some 1) (by decide +kernel)
  have hreach : Relation.ReflTransGen QuietStep startIoq x :=
    reach_of_runAll (fun {x x' a} hc hexec => by
      rw [Bool.and_eq_true] at hc
      obtain ⟨hreader, hen⟩ := IoqAct.enabled_of_checked hc.1
      exact ⟨a, hreader, hen, of_decide_eq_true hc.2, hexec⟩) hrun
  have hcons := of_decide_eq_true hx
  exact ⟨x, hreach, hcons, empty_of_consumer startIoq_initial hreach 1 hcons⟩

/-- **A reader asleep next to data.** Thread 1 waits for a key with the lock held, thread 2 waits
for the lock, two keys are pressed, thread 1 takes the first and thread 2 gets the lock: it goes to
sleep without looking at the queue, which holds the second key. -/
theorem asleep_next_to_data : ∃ x, Relation.ReflTransGen ReaderStep startIoq x ∧
    x.ioq.consumer = some 2 ∧ x.sched.status 2 = .blocked ∧ x.ioq.content = [98] := by
  obtain ⟨x, hrun, hx⟩ := exists_of_holds
    (o := runAll IoqAct.checked IoqAct.exec startIoq
      [.getchar, .run, .run, .getchar, .run, .keyboard 97, .keyboard 98,
        .other (.threadBlock .blocked), .run, .run, .other .threadYield, .run, .run])
    (f := fun x => x.ioq.consumer = some 2 ∧ x.sched.status 2 = .blocked ∧
      x.ioq.content = [98]) (by decide +kernel)
  have hreach : Relation.ReflTransGen ReaderStep startIoq x := reach_of_runAll
    (fun {_ _ a} hc hexec => ⟨a, (IoqAct.enabled_of_checked hc).1,
      (IoqAct.enabled_of_checked hc).2, hexec⟩) hrun
  exact ⟨x, hreach, of_decide_eq_true hx⟩

end Gardos.Device
