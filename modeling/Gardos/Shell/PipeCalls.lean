import Gardos.Device.Ioqueue

/-!
# Reading and writing a pipe (`shell/pipe.c`)

`pipe_read` and `pipe_write` cut the count down "to avoid blocking" before they call `ioq_getchar`
and `ioq_putchar` byte by byte. `pipe_read` takes what `ioq_length` says, and never waits.
`pipe_write` takes `bufsize - ioq_length`, but one cell of the ring always stays empty: a write that
would fill the ring goes to sleep in front of its last byte. `atOnce_iff` has the exact condition.
-/

namespace Gardos.Shell

open Outcome Device Thread Function

/-! ## Calls that do not wait -/

/-- `Returns x n x'`: the current thread of `x` is back from its call in `x'`, after `n` rounds of
the loop of `pipe_read` or `pipe_write`. In no round did it have to wait. -/
inductive Returns : IoqSys → ℕ → IoqSys → Prop
  | done {x : IoqSys} (hpc : x.pc x.cur = .outside) : Returns x 0 x
  | round {x x' x'' : IoqSys} {op : IoqOp} {n : ℕ} (hpc : x.pc x.cur = .loop op)
      (hgo : ¬ op.Blocked x.ioq) (hrun : x.run = .ok x') (h : Returns x' n x'') :
      Returns x (n + 1) x''

/-- Whoever is entered as waiting for the ring buffer is asleep. -/
def Asleep (s : Sched) (waiter : Option ℕ) : Prop :=
  ∀ t, waiter = some t → (s.status t).Stopped ∧ t ∉ s.threadReadyList

/-- A state of a ring buffer in which the current thread calls `pipe_read` or `pipe_write`. -/
structure RingState (x : IoqSys) : Prop where
  head_lt : x.ioq.head < bufsize
  tail_lt : x.ioq.tail < bufsize
  producer : Asleep x.sched x.ioq.producer
  consumer : Asleep x.sched x.ioq.consumer
  outside : x.pc x.cur = .outside

/-- The two calls; the bytes to write are `buf`, as many as `count` says. -/
inductive PipeIo
  | read (count : ℕ)
  | write (buf : List UInt8)

/-- The bytes that the ring buffer can still take. -/
def freeSpace (q : Ioqueue) : ℕ := bufsize - 1 - q.length

/-- The call moves as many bytes as it can, returns their number, and does not wait. -/
def AtOnce (x : IoqSys) : PipeIo → Prop
  | .read count => ∃ x₁ x', (IoqAct.pipeRead count).exec x = .ok x₁ ∧
      Returns x₁ (min count x.ioq.length) x' ∧
      x'.returned = x.returned ++ x.ioq.content.take (min count x.ioq.length) ∧
      x'.ioq.content = x.ioq.content.drop (min count x.ioq.length)
  | .write buf => ∃ x₁ x', (IoqAct.pipeWrite buf).exec x = .ok x₁ ∧
      Returns x₁ (min buf.length (freeSpace x.ioq)) x' ∧
      x'.stored = x.stored ++ buf.take (min buf.length (freeSpace x.ioq)) ∧
      x'.ioq.content = x.ioq.content ++ buf.take (min buf.length (freeSpace x.ioq))

section Ring

variable {q : Ioqueue}

theorem length_content (q : Ioqueue) : q.content.length = q.length := Ring.length_content q.buf

theorem not_full_iff (hh : q.head < bufsize) (ht : q.tail < bufsize) :
    ¬ q.Full ↔ q.length + 1 < bufsize := by
  change Ring.next bufsize q.head ≠ q.tail ↔ Ring.length bufsize q.head q.tail + 1 < bufsize
  rw [Ring.next_eq hh]
  unfold Ring.length
  split_ifs <;> omega

theorem not_empty_iff (ht : q.tail < bufsize) : ¬ q.Empty ↔ 0 < q.length := by
  change q.head ≠ q.tail ↔ 0 < Ring.length bufsize q.head q.tail
  unfold Ring.length
  split_ifs <;> omega

end Ring

section Wakeup

variable {s s' : Sched} {w : Option ℕ}

theorem exists_wakeup (h : Asleep s w) : ∃ s', IoqSys.wakeup s w = .ok s' := by
  cases w with
  | none => exact ⟨s, rfl⟩
  | some t =>
    obtain ⟨hst, hready⟩ := h t rfl
    exact ⟨s.woken t, Sched.threadUnblock_eq hst hready⟩

theorem cur_of_wakeup (hrun : IoqSys.wakeup s w = .ok s') : s'.cur = s.cur := by
  cases w with
  | none => exact congrArg Sched.cur (pure_eq_ok.1 hrun).symm
  | some t =>
    obtain ⟨_, -, hrun⟩ := bind_eq_ok.1 hrun
    split at hrun
    · obtain ⟨_, -, hrun⟩ := bind_eq_ok.1 hrun
      obtain rfl := pure_eq_ok.1 hrun
      rfl
    · obtain rfl := pure_eq_ok.1 hrun
      rfl

end Wakeup

/-! ## One round -/

section Rounds

variable {x x' x'' : IoqSys} {byte : UInt8} {n : ℕ}

/-- Where a thread is that still has to write `buf`. -/
def putPc : List UInt8 → IoqPc
  | [] => .outside
  | byte :: rest => .loop (.put byte rest)

/-- Where a thread is that still has to read `count` bytes. -/
def getPc : ℕ → IoqPc
  | 0 => .outside
  | left + 1 => .loop (.get left)

theorem run_put {rest : List UInt8} (hpc : x.pc x.cur = .loop (.put byte rest))
    (hfull : ¬ x.ioq.Full) : x.run = (x.goto (putPc rest)).store byte := by
  unfold IoqSys.run
  rw [hpc]
  refine (if_neg hfull).trans ?_
  cases rest <;> rfl

theorem run_get {left : ℕ} (hpc : x.pc x.cur = .loop (.get left)) (hempty : ¬ x.ioq.Empty) :
    x.run = (x.goto (getPc left)).take := by
  unfold IoqSys.run
  rw [hpc]
  refine (if_neg hempty).trans ?_
  cases left <;> rfl

/-- What a put has done. -/
structure Put (x : IoqSys) (pc : IoqPc) (byte : UInt8) (x' : IoqSys) : Prop where
  pc : x'.pc x'.cur = pc
  head_lt : x'.ioq.head < bufsize
  tail_lt : x'.ioq.tail < bufsize
  consumer : x'.ioq.consumer = none
  stored : x'.stored = x.stored ++ [byte]
  content : x'.ioq.content = x.ioq.content ++ [byte]

/-- What a get has done. -/
structure Got (x : IoqSys) (pc : IoqPc) (x' : IoqSys) : Prop where
  pc : x'.pc x'.cur = pc
  head_lt : x'.ioq.head < bufsize
  tail_lt : x'.ioq.tail < bufsize
  producer : x'.ioq.producer = none
  moved : ∃ byte, x'.returned = x.returned ++ [byte] ∧ x.ioq.content = byte :: x'.ioq.content

theorem Put.of_store {pc : IoqPc} (hh : x.ioq.head < bufsize) (ht : x.ioq.tail < bufsize)
    (hfull : ¬ x.ioq.Full) (hrun : (x.goto pc).store byte = .ok x') : Put x pc byte x' := by
  obtain ⟨s, hwake, hrun⟩ := bind_eq_ok.1 hrun
  have hcur : s.cur = x.cur := cur_of_wakeup hwake
  obtain rfl := pure_eq_ok.1 hrun
  refine ⟨?_, Ring.next_lt hh, ht, rfl, rfl, Ring.content_put _ _ hh ht hfull⟩
  change update x.pc x.cur pc s.cur = pc
  rw [hcur, update_self]

theorem Got.of_take {pc : IoqPc} (hh : x.ioq.head < bufsize) (ht : x.ioq.tail < bufsize)
    (hempty : ¬ x.ioq.Empty) (hrun : (x.goto pc).take = .ok x') : Got x pc x' := by
  obtain ⟨s, hwake, hrun⟩ := bind_eq_ok.1 hrun
  have hcur : s.cur = x.cur := cur_of_wakeup hwake
  obtain rfl := pure_eq_ok.1 hrun
  refine ⟨?_, hh, Ring.next_lt ht, rfl, _, rfl, Ring.content_get _ hh ht hempty⟩
  change update x.pc x.cur pc s.cur = pc
  rw [hcur, update_self]

theorem exists_store (pc : IoqPc) (byte : UInt8) (hw : Asleep x.sched x.ioq.consumer) :
    ∃ x', (x.goto pc).store byte = .ok x' := by
  obtain ⟨s, hwake⟩ := exists_wakeup hw
  exact ⟨_, bind_eq_ok.2 ⟨s, hwake, rfl⟩⟩

theorem exists_take (pc : IoqPc) (hw : Asleep x.sched x.ioq.producer) :
    ∃ x', (x.goto pc).take = .ok x' := by
  obtain ⟨s, hwake⟩ := exists_wakeup hw
  exact ⟨_, bind_eq_ok.2 ⟨s, hwake, rfl⟩⟩

theorem asleep_none (s : Sched) : Asleep s none := fun _ ht => nomatch ht

/-! ## All rounds -/

/-- A write that leaves one cell empty returns. -/
theorem exists_returns_put {buf : List UInt8} : ∀ {x : IoqSys}, x.pc x.cur = putPc buf →
    x.ioq.head < bufsize → x.ioq.tail < bufsize → Asleep x.sched x.ioq.consumer →
    x.ioq.length + buf.length < bufsize →
    ∃ x', Returns x buf.length x' ∧ x'.stored = x.stored ++ buf ∧
      x'.ioq.content = x.ioq.content ++ buf := by
  induction buf with
  | nil =>
    intro x hpc _ _ _ _
    exact ⟨x, .done hpc, (List.append_nil _).symm, (List.append_nil _).symm⟩
  | cons byte rest ih =>
    intro x hpc hh ht hw hroom
    rw [List.length_cons] at hroom
    have hfull : ¬ x.ioq.Full := (not_full_iff hh ht).2 (by omega)
    obtain ⟨x₁, hstore⟩ := exists_store (putPc rest) byte hw
    have hput := Put.of_store hh ht hfull hstore
    have hlen : x₁.ioq.length = x.ioq.length + 1 := by
      rw [← length_content, hput.content, List.length_append, length_content,
        List.length_singleton]
    obtain ⟨x₂, hreturns, hstored, hcontent⟩ := ih hput.pc hput.head_lt hput.tail_lt
      (hput.consumer ▸ asleep_none _) (by omega)
    refine ⟨x₂, .round hpc hfull ((run_put hpc hfull).trans hstore) hreturns, ?_, ?_⟩
    · rw [hstored, hput.stored, List.append_assoc, List.singleton_append]
    · rw [hcontent, hput.content, List.append_assoc, List.singleton_append]

/-- A read of what is there returns. -/
theorem exists_returns_get {count : ℕ} : ∀ {x : IoqSys}, x.pc x.cur = getPc count →
    x.ioq.head < bufsize → x.ioq.tail < bufsize → Asleep x.sched x.ioq.producer →
    count ≤ x.ioq.length →
    ∃ x', Returns x count x' ∧ x'.returned = x.returned ++ x.ioq.content.take count ∧
      x'.ioq.content = x.ioq.content.drop count := by
  induction count with
  | zero =>
    intro x hpc _ _ _ _
    exact ⟨x, .done hpc, (List.append_nil _).symm, rfl⟩
  | succ left ih =>
    intro x hpc hh ht hw hle
    have hempty : ¬ x.ioq.Empty := (not_empty_iff ht).2 (by omega)
    obtain ⟨x₁, htake⟩ := exists_take (getPc left) hw
    have hgot := Got.of_take hh ht hempty htake
    obtain ⟨byte, hbyte, hcons⟩ := hgot.moved
    have hlen : x.ioq.length = x₁.ioq.length + 1 := by
      rw [← length_content, hcons, List.length_cons, length_content]
    obtain ⟨x₂, hreturns, hreturned, hcontent⟩ := ih hgot.pc hgot.head_lt hgot.tail_lt
      (hgot.producer ▸ asleep_none _) (by omega)
    refine ⟨x₂, .round hpc hempty ((run_get hpc hempty).trans htake) hreturns, ?_, ?_⟩
    · rw [hreturned, hbyte, hcons, List.take_succ_cons, List.append_assoc, List.singleton_append]
    · rw [hcontent, hcons, List.drop_succ_cons]

/-- A write that returns has left one cell empty. -/
theorem length_lt_of_returns {buf : List UInt8} : ∀ {x : IoqSys} {n : ℕ},
    x.pc x.cur = putPc buf → x.ioq.head < bufsize → x.ioq.tail < bufsize → Returns x n x'' →
    x.ioq.length + buf.length < bufsize := by
  induction buf with
  | nil => exact fun _ hh _ _ => Ring.length_lt hh
  | cons byte rest ih =>
    intro x n hpc hh ht hreturns
    cases hreturns with
    | done hpc' => exact absurd (hpc.symm.trans hpc') (by simp [putPc])
    | round hpc' hgo hrun h =>
      obtain rfl := IoqPc.loop.inj (hpc.symm.trans hpc')
      have hput := Put.of_store hh ht hgo ((run_put hpc hgo).symm.trans hrun)
      have hlt := ih hput.pc hput.head_lt hput.tail_lt h
      rw [← length_content, hput.content, List.length_append, length_content,
        List.length_singleton] at hlt
      rw [List.length_cons]
      omega

end Rounds

/-! ## The calls -/

section Calls

variable {x : IoqSys}

theorem goto_outside (hpc : x.pc x.cur = .outside) : x.goto .outside = x := by
  unfold IoqSys.goto
  rw [← hpc, update_eq_self]

theorem startPut_eq (hpc : x.pc x.cur = .outside) (buf : List UInt8) :
    IoqAct.startPut x buf = x.goto (putPc buf) := by
  cases buf with
  | nil => exact (goto_outside hpc).symm
  | cons byte rest => rfl

theorem startGet_eq (hpc : x.pc x.cur = .outside) (count : ℕ) :
    IoqAct.startGet x count = x.goto (getPc count) := by
  cases count with
  | zero => exact (goto_outside hpc).symm
  | succ left => rfl

theorem pc_goto (x : IoqSys) (pc : IoqPc) : (x.goto pc).pc (x.goto pc).cur = pc :=
  update_self ..

theorem exec_pipeRead (hpc : x.pc x.cur = .outside) (count : ℕ) :
    (IoqAct.pipeRead count).exec x = .ok (x.goto (getPc (min count x.ioq.length))) := by
  unfold IoqAct.exec
  dsimp only
  rw [startGet_eq hpc, min_def]
  congr 3
  split_ifs <;> omega

theorem exec_pipeWrite (hpc : x.pc x.cur = .outside) (buf : List UInt8) :
    (IoqAct.pipeWrite buf).exec x =
      .ok (x.goto (putPc (buf.take (min buf.length (bufsize - x.ioq.length))))) := by
  unfold IoqAct.exec
  dsimp only
  rw [startPut_eq hpc, min_def]
  congr 4
  split_ifs <;> omega

theorem RingState.atOnce_read (h : RingState x) (count : ℕ) : AtOnce x (.read count) := by
  obtain ⟨x', hreturns, hreturned, hcontent⟩ := exists_returns_get (pc_goto x _) h.head_lt h.tail_lt
    h.producer (Nat.min_le_right count x.ioq.length)
  exact ⟨_, x', exec_pipeRead h.outside count, hreturns, hreturned, hcontent⟩

theorem RingState.atOnce_write (h : RingState x) {buf : List UInt8}
    (hroom : buf.length + x.ioq.length < bufsize) : AtOnce x (.write buf) := by
  have hfree : min buf.length (freeSpace x.ioq) = buf.length := by
    unfold freeSpace
    omega
  have hsize : min buf.length (bufsize - x.ioq.length) = buf.length := by omega
  have hexec := exec_pipeWrite h.outside buf
  rw [hsize, List.take_length] at hexec
  obtain ⟨x', hreturns, hstored, hcontent⟩ := exists_returns_put (pc_goto x (putPc buf)) h.head_lt
    h.tail_lt h.consumer (show x.ioq.length + buf.length < bufsize by omega)
  refine ⟨_, x', hexec, ?_⟩
  rw [hfree, List.take_length]
  exact ⟨hreturns, hstored, hcontent⟩

theorem RingState.room_of_atOnce (h : RingState x) {buf : List UInt8}
    (hwrite : AtOnce x (.write buf)) : buf.length + x.ioq.length < bufsize := by
  obtain ⟨x₁, x', hexec, hreturns, -⟩ := hwrite
  rw [exec_pipeWrite h.outside] at hexec
  obtain rfl := Except.ok.inj hexec
  have hlt := length_lt_of_returns (pc_goto x _) h.head_lt h.tail_lt hreturns
  change x.ioq.length + _ < bufsize at hlt
  rw [List.length_take] at hlt
  omega

/-- **A pipe call does not wait exactly if it is a read, or a write that does not fill the
ring.** -/
theorem atOnce_iff (x : IoqSys) (h : RingState x) (c : PipeIo) :
    AtOnce x c ↔ ∀ buf, c = .write buf → buf.length + x.ioq.length < bufsize := by
  constructor
  · rintro hc buf rfl
    exact h.room_of_atOnce hc
  · intro hc
    cases c with
    | read count => exact h.atOnce_read count
    | write buf => exact h.atOnce_write (hc buf rfl)

theorem startIoq_ringState : RingState startIoq where
  head_lt := by decide
  tail_lt := by decide
  producer := asleep_none _
  consumer := asleep_none _
  outside := rfl

/-- One byte into an empty pipe. -/
theorem atOnce_byte : AtOnce startIoq (.write [104]) :=
  (atOnce_iff startIoq startIoq_ringState (.write [104])).2 fun buf hbuf => by
    obtain rfl := PipeIo.write.inj hbuf
    decide

/-- A write of 2048 bytes into an empty pipe: the caller waits in front of the last one. -/
theorem not_atOnce_fill :
    RingState startIoq ∧ ¬ AtOnce startIoq (.write (List.replicate 2048 0)) := by
  refine ⟨startIoq_ringState, fun hwrite => ?_⟩
  have hlt := startIoq_ringState.room_of_atOnce hwrite
  rw [List.length_replicate] at hlt
  exact absurd hlt (by decide)

end Calls

end Gardos.Shell
