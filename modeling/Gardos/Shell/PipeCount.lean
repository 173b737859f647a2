import Gardos.Userprog.Files

/-!
# The reference count of a pipe

`fd_pos` of a pipe counts its descriptors. `sys_pipe` sets it to 2, `sys_fork` adds the descriptors
of the child, `sys_close` and `sys_exit` take one away for each descriptor that goes, and give the
page of the ring buffer back when none is left.

The system of this module is any number of processes that make pipes, fork, exit, and read, write,
seek and close descriptors. `PipeCounts` says that the count is right. `sys_lseek` does not know
pipes and overwrites the count, and `sys_pipe` counts descriptors that it could not install;
`pipeCounts_of_run` is for the runs without these two.
-/

namespace Gardos.Shell

open Outcome Fs Userprog Function

/-! ## The system -/

/-- The file system, and the processes that have not exited. -/
structure PipeSys where
  fs : FileSys
  live : Finset ℕ

/-- The calls of a process. Reading and writing a pipe works on the ring buffer; seen from here,
only the semaphore of its lock changes, to the value `lock`. -/
inductive PipeCall
  | pipe (pid : ℕ)
  | fork (parent child : ℕ)
  | close (pid fd : ℕ)
  | exit (pid : ℕ)
  | read (pid fd count lock : ℕ)
  | write (pid fd : ℕ) (buf : Bytes.Buf) (count lock : ℕ)
  | lseek (pid fd : ℕ) (offset : ℤ) (whence : ℕ)

/-- `pipe_read` and `pipe_write`, as far as the page of the ring buffer is read as an inode. -/
def useRing (s : FileSys) (pid fd lock : ℕ) : Outcome FileSys := do
  let globalFd ← fdLocal2Global s pid fd
  match (s.fileTable globalFd).fdInode with
  | none => throw .fault
  | some q => return s.setInode q { s.inodes q with iSize := lock }

namespace PipeCall

/-- `sys_read`: descriptors 1 and 2 cannot be read, 0 is the keyboard unless it is a pipe. -/
def execRead (s : FileSys) (pid fd count lock : ℕ) : Outcome FileSys :=
  if fd = 1 ∨ fd = 2 then pure s
  else do
    if ← isPipe s pid fd then
      useRing s pid fd lock
    else if fd = 0 then
      return s
    else
      let (_, _, s) ← sysRead s pid fd count
      return s

/-- `sys_write`: descriptor 1 is the console unless it is a pipe. -/
def execWrite (s : FileSys) (pid fd : ℕ) (buf : Bytes.Buf) (count lock : ℕ) : Outcome FileSys := do
  if ← isPipe s pid fd then
    useRing s pid fd lock
  else if fd = 1 then
    return s
  else
    let (_, s) ← sysWrite s pid fd buf count
    return s

def exec (x : PipeSys) : PipeCall → Outcome PipeSys
  | .pipe pid => do
    let (_, s) ← sysPipe x.fs pid
    return { x with fs := s }
  | .fork parent child => do
    let s ← forkFiles x.fs parent child
    return ⟨s, insert child x.live⟩
  | .close pid fd => do
    let (_, s) ← sysClose x.fs pid fd
    return { x with fs := s }
  | .exit pid => do
    let s ← releaseFiles x.fs pid
    return ⟨s, x.live.erase pid⟩
  | .read pid fd count lock => do
    let s ← execRead x.fs pid fd count lock
    return { x with fs := s }
  | .write pid fd buf count lock => do
    let s ← execWrite x.fs pid fd buf count lock
    return { x with fs := s }
  | .lseek pid fd offset whence => do
    let (_, s) ← sysLseek x.fs pid fd offset whence
    return { x with fs := s }

/-- A call is made by a process that has not exited, a child gets a pid that is not in use, a
semaphore has the value 0 or 1, and an offset is an `int32_t`. -/
def Enabled (x : PipeSys) : PipeCall → Prop
  | .pipe pid => pid ∈ x.live
  | .fork parent child => parent ∈ x.live ∧ child ∉ x.live ∧ child ≤ 1024
  | .close pid _ => pid ∈ x.live
  | .exit pid => pid ∈ x.live
  | .read pid _ _ lock => pid ∈ x.live ∧ lock ≤ 1
  | .write pid _ _ _ lock => pid ∈ x.live ∧ lock ≤ 1
  | .lseek pid _ offset _ => pid ∈ x.live ∧ -2147483648 ≤ offset ∧ offset < 2147483648

/-- `sys_pipe` finds two free descriptors, and `sys_lseek` on a pipe with a free lock does not go to
position 0. -/
def Sound (x : PipeSys) : PipeCall → Prop
  | .pipe pid => 2 ≤ localFds.countP fun fd => x.fs.fdTable pid fd = -1
  | .lseek pid fd offset whence => ∀ g : ℕ, x.fs.fdTable pid fd = g →
      (x.fs.fileTable g).fdFlag = pipeFlag → ∀ q, (x.fs.fileTable g).fdInode = some q →
      (x.fs.inodes q).iSize = 0 ∨ ((whence = 1 → offset ≠ 0) ∧
        (whence = 2 → offset ≠ -(x.fs.fileTable g).fdPos) ∧ (whence = 3 → offset ≠ -1))
  | _ => True

end PipeCall

/-- A step that meets the condition `P`. -/
def PipeStep (P : PipeSys → PipeCall → Prop) (x x' : PipeSys) : Prop :=
  ∃ c : PipeCall, c.Enabled x ∧ P x c ∧ c.exec x = .ok x'

/-- The number of descriptors, of processes that have not exited, for the slot `g`. -/
def slotUses (x : PipeSys) (g : ℕ) : ℕ := uses x.live localFds.toFinset x.fs.fdTable (g : ℤ)

/-- The count of every pipe is right. -/
def PipeCounts (x : PipeSys) : Prop :=
  ∀ g < 32, (x.fs.fileTable g).fdFlag = pipeFlag → (x.fs.fileTable g).fdInode ≠ none →
    (x.fs.fileTable g).fdPos = slotUses x g

/-- The page of a pipe is given back exactly by the step that takes the last descriptor away. -/
def FreedWithLast (x x' : PipeSys) : Prop :=
  ∀ g < 32, (x.fs.fileTable g).fdFlag = pipeFlag → (x.fs.fileTable g).fdInode ≠ none →
    ((x'.fs.fileTable g).fdInode = none ↔ slotUses x' g = 0)

/-! ## The invariant -/

/-- The invariant: all open files are pipes, with the right count, and descriptors are for pipes. -/
structure PipeOk (x : PipeSys) : Prop where
  live_le : ∀ pid ∈ x.live, pid ≤ 1024
  entry : ∀ pid ∈ x.live, ∀ fd ∈ localFds, x.fs.fdTable pid fd ≠ -1 →
    ∃ g : ℕ, g < 32 ∧ x.fs.fdTable pid fd = g ∧ (x.fs.fileTable g).fdInode ≠ none
  flag : ∀ g < 32, (x.fs.fileTable g).fdInode ≠ none → (x.fs.fileTable g).fdFlag = pipeFlag
  count : ∀ g < 32, (x.fs.fileTable g).fdInode ≠ none →
    (x.fs.fileTable g).fdPos = slotUses x g ∧ 0 < slotUses x g
  lock : ∀ g < 32, ∀ q, (x.fs.fileTable g).fdInode = some q →
    q < x.fs.brk ∧ (x.fs.inodes q).iSize ≤ 1

section Steps

variable {x x' : PipeSys} {s s' : FileSys} {pid fd g : ℕ} {f : ℕ → ℤ} {n offset : ℤ} {l : List ℕ}
  {parent child lock count whence : ℕ}

theorem PipeOk.pipeCounts (h : PipeOk x) : PipeCounts x := fun g hg _ hq => (h.count g hg hq).1

/-- A free slot has no descriptors. -/
theorem PipeOk.slotUses_of_free (h : PipeOk x) (hfree : (x.fs.fileTable g).fdInode = none) :
    slotUses x g = 0 := by
  refine Nat.eq_zero_of_not_pos fun hpos => ?_
  obtain ⟨p, hp, i, hi, heq⟩ := uses_pos.1 hpos
  obtain ⟨g', -, heq', hocc⟩ := h.entry p hp i (List.mem_toFinset.1 hi) (by rw [heq]; omega)
  have hgg : g' = g := Int.ofNat_inj.1 (heq'.symm.trans heq)
  exact hocc (hgg ▸ hfree)

/-- The slot of a descriptor is in use. -/
theorem PipeOk.slot_of_pos (h : PipeOk x) (hpid : pid ∈ x.live)
    (hpos : 0 < localFds.countP fun fd => x.fs.fdTable pid fd = (g : ℤ)) :
    g < 32 ∧ (x.fs.fileTable g).fdInode ≠ none := by
  obtain ⟨fd, hfd, heq⟩ := List.countP_pos_iff.1 hpos
  have heq := of_decide_eq_true heq
  obtain ⟨g', hg', heq', hocc⟩ := h.entry pid hpid fd hfd (by rw [heq]; omega)
  obtain rfl : g' = g := Int.ofNat_inj.1 (heq'.symm.trans heq)
  exact ⟨hg', hocc⟩

/-- The number of descriptors is far from overflowing. -/
theorem PipeOk.slotUses_le (h : PipeOk x) (g : ℕ) : slotUses x g ≤ 5125 := by
  have hsub : x.live ⊆ Finset.range 1025 := fun p hp =>
    Finset.mem_range.2 (Nat.lt_succ_of_le (h.live_le p hp))
  have hcard := Finset.card_le_card hsub
  rw [Finset.card_range] at hcard
  calc slotUses x g ≤ (x.live ×ˢ localFds.toFinset).card := Finset.card_filter_le ..
    _ = x.live.card * 5 := Finset.card_product ..
    _ ≤ 1025 * 5 := Nat.mul_le_mul_right 5 hcard

/-- A file with `n` descriptors less; with the last one the page goes. -/
def dropUses (n : ℕ) (f : File) : File :=
  { f with fdPos := f.fdPos - n, fdInode := if 0 < n ∧ f.fdPos = n then none else f.fdInode }

theorem dropUses_zero (f : File) : dropUses 0 f = f := by
  unfold dropUses
  rw [if_neg fun h => lt_irrefl 0 h.1]
  rfl

theorem dropUses_dropUses {f : File} {m : ℕ} (h : m + 1 ≤ f.fdPos) :
    dropUses m (dropUses 1 f) = dropUses (m + 1) f := by
  unfold dropUses
  dsimp only
  congr 1
  · omega
  · by_cases hm : m = 0
    · rw [hm, if_neg fun h => lt_irrefl 0 h.1]
    · by_cases hpos : f.fdPos = m + 1
      · rw [if_pos (by omega), if_pos (by omega)]
      · rw [if_neg (by omega), if_neg (by omega), if_neg (by omega)]

/-- `sys_close` and `release_prog_resource` take one descriptor away. -/
theorem pipeClose_eq (h0 : 0 < (s.fileTable g).fdPos) (hlt : (s.fileTable g).fdPos < 4294967296) :
    pipeClose s g = s.setFile g (dropUses 1 (s.fileTable g)) := by
  have hmod : ((s.fileTable g).fdPos + 4294967295) % 4294967296 = (s.fileTable g).fdPos - 1 := by
    omega
  have hinode : (if (s.fileTable g).fdPos - 1 = 0 then none else (s.fileTable g).fdInode) =
      if 0 < 1 ∧ (s.fileTable g).fdPos = 1 then none else (s.fileTable g).fdInode := by
    by_cases h1 : (s.fileTable g).fdPos = 1
    · rw [if_pos (by omega), if_pos ⟨Nat.one_pos, h1⟩]
    · rw [if_neg (by omega), if_neg fun h => h1 h.2]
  unfold pipeClose dropUses
  simp only [hmod, hinode]

/-- Descriptors go: those that stay name what they named, and the files are counted down. -/
theorem PipeOk.drop {n : ℕ → ℕ} (h : PipeOk x) (hlive : x'.live ⊆ x.live)
    (hentry : ∀ p ∈ x'.live, ∀ i ∈ localFds, x'.fs.fdTable p i ≠ -1 →
      x'.fs.fdTable p i = x.fs.fdTable p i)
    (hfile : ∀ g < 32, x'.fs.fileTable g = dropUses (n g) (x.fs.fileTable g))
    (huses : ∀ g, slotUses x' g + n g = slotUses x g)
    (hbrk : x'.fs.brk = x.fs.brk) (hcells : x'.fs.inodes = x.fs.inodes) :
    PipeOk x' ∧ FreedWithLast x x' := by
  -- a file stays open as long as it has a descriptor
  have hopen : ∀ g < 32, (x.fs.fileTable g).fdInode ≠ none →
      ((x'.fs.fileTable g).fdInode = none ↔ slotUses x' g = 0) := by
    intro g hg hocc
    obtain ⟨hpos, hlt⟩ := h.count g hg hocc
    have hsum := huses g
    rw [hfile g hg]
    change (if _ then _ else _) = none ↔ _
    by_cases hall : 0 < n g ∧ (x.fs.fileTable g).fdPos = n g
    · rw [if_pos hall]
      exact iff_of_true rfl (by omega)
    · rw [if_neg hall]
      exact iff_of_false hocc (by omega)
  have hocc : ∀ g < 32, (x'.fs.fileTable g).fdInode ≠ none →
      (x.fs.fileTable g).fdInode ≠ none ∧
        (x'.fs.fileTable g).fdInode = (x.fs.fileTable g).fdInode := by
    intro g hg hq
    rw [hfile g hg] at hq ⊢
    change (if _ then _ else _) ≠ none at hq
    change _ ∧ (if _ then _ else _) = _
    split at hq
    · exact absurd rfl hq
    · next hn => exact ⟨hq, if_neg hn⟩
  refine ⟨⟨fun p hp => h.live_le p (hlive hp), fun p hp i hi hne => ?_, fun g hg hq => ?_,
    fun g hg hq => ?_, fun g hg q hq => ?_⟩, fun g hg _ hq => hopen g hg hq⟩
  · have heq := hentry p hp i hi hne
    rw [heq] at hne ⊢
    obtain ⟨g, hg, heq', hq⟩ := h.entry p (hlive hp) i hi hne
    refine ⟨g, hg, heq', fun hnone => ?_⟩
    have hzero := (hopen g hg hq).1 hnone
    refine Nat.ne_of_gt (uses_pos.2 ⟨p, hp, i, List.mem_toFinset.2 hi, ?_⟩) hzero
    rw [heq, heq']
  · rw [hfile g hg]
    exact h.flag g hg (hocc g hg hq).1
  · obtain ⟨hpos, -⟩ := h.count g hg (hocc g hg hq).1
    have hsum := huses g
    refine ⟨?_, Nat.pos_of_ne_zero fun hzero => hq ((hopen g hg (hocc g hg hq).1).2 hzero)⟩
    rw [hfile g hg]
    change (x.fs.fileTable g).fdPos - n g = _
    omega
  · have hq' := (hocc g hg (by rw [hq]; exact Option.some_ne_none q)).2
    rw [hbrk, hcells]
    exact h.lock g hg q (hq'.symm.trans hq)

/-- The tables of open files are as before. -/
theorem FreedWithLast.of_same (h : PipeOk x)
    (hfile : ∀ g < 32, (x.fs.fileTable g).fdInode ≠ none →
      (x'.fs.fileTable g).fdInode = (x.fs.fileTable g).fdInode)
    (huses : ∀ g, slotUses x g ≤ slotUses x' g) : FreedWithLast x x' := by
  intro g hg _ hocc
  rw [hfile g hg hocc]
  exact iff_of_false hocc (Nat.ne_of_gt ((h.count g hg hocc).2.trans_le (huses g)))

/-- **`sys_close`.** -/
theorem PipeOk.close {done : Bool} (h : PipeOk x) (hpid : pid ∈ x.live)
    (hrun : sysClose x.fs pid fd = .ok (done, s')) :
    PipeOk { x with fs := s' } ∧ FreedWithLast x { x with fs := s' } := by
  unfold sysClose at hrun
  by_cases hfd : fd ≤ 2
  · rw [if_pos hfd] at hrun
    obtain ⟨-, rfl⟩ := ok_pair hrun
    exact ⟨h, .of_same h (fun _ _ _ => rfl) fun _ => le_rfl⟩
  rw [if_neg hfd] at hrun
  obtain ⟨g, hg, hrun⟩ := bind_eq_ok.1 hrun
  obtain ⟨h8, h32, heq⟩ := fdLocal2Global_eq_ok hg
  have hmem : fd ∈ localFds := mem_localFds.2 ⟨by omega, h8⟩
  obtain ⟨g', -, heq', hocc⟩ := h.entry pid hpid fd hmem (by rw [heq]; omega)
  obtain rfl : g = g' := Int.ofNat_inj.1 (heq.symm.trans heq')
  obtain ⟨hpos, huse⟩ := h.count g h32 hocc
  have hle := h.slotUses_le g
  rw [if_pos (h.flag g h32 hocc), pipeClose_eq (by omega) (by omega)] at hrun
  obtain ⟨-, rfl⟩ := ok_pair hrun
  refine h.drop (n := fun i => if i = g then 1 else 0) (fun _ hp => hp) (fun p hp i hi hne => ?_)
    (fun i hi => ?_) (fun i => ?_) rfl rfl
  · change update x.fs.fdTable pid _ p i ≠ -1 at hne
    refine table_set_of_ne fun heq => hne ?_
    obtain ⟨rfl, rfl⟩ := Prod.mk.inj heq
    exact table_set_self
  · change update x.fs.fileTable g _ i = _
    by_cases hig : i = g
    · rw [hig, update_self, if_pos rfl]
    · rw [update_of_ne hig, if_neg hig, dropUses_zero]
  · have hset := uses_set (f := x.fs.fdTable) (a := (i : ℤ)) (b := -1) hpid
      (List.mem_toFinset.2 hmem)
    rw [if_neg (by omega : (-1 : ℤ) ≠ i), Nat.add_zero, heq] at hset
    change uses x.live localFds.toFinset _ (i : ℤ) + _ = uses x.live localFds.toFinset _ (i : ℤ)
    rw [← hset]
    congr 1
    by_cases hig : i = g
    · rw [if_pos hig, hig, if_pos rfl]
    · rw [if_neg hig, if_neg fun hgi => hig (Int.ofNat_inj.1 hgi).symm]

theorem countP_cons_closed (h : f fd = -1) (g : ℕ) :
    ((fd :: l).countP fun i => f i = (g : ℤ)) = l.countP fun i => f i = (g : ℤ) := by
  refine List.countP_cons_of_neg fun heq => ?_
  have heq := of_decide_eq_true heq
  omega

theorem countP_cons_open (h : f fd = (g : ℤ)) (i : ℕ) :
    ((fd :: l).countP fun j => f j = (i : ℤ)) =
      (l.countP fun j => f j = (i : ℤ)) + if i = g then 1 else 0 := by
  rw [List.countP_cons, h]
  by_cases hi : i = g
  · rw [if_pos hi, hi, if_pos (decide_eq_true rfl)]
  · rw [if_neg hi, if_neg fun heq => hi (Int.ofNat_inj.1 (of_decide_eq_true heq)).symm]

/-- A loop over the descriptors of a process that does the same to the file of each of them, all
pipes: `change n` is what `n` rounds do to a file that is fit for them. -/
theorem foldlM_pipes {round : FileSys → ℕ → Outcome FileSys} (change : ℕ → File → File)
    (fit : ℕ → File → Prop) {fds : ℕ → ℕ → ℤ} (hzero : ∀ f, change 0 f = f)
    (hsucc : ∀ n f, fit (n + 1) f → change n (change 1 f) = change (n + 1) f ∧ fit n (change 1 f))
    (hflag : ∀ f, (change 1 f).fdFlag = f.fdFlag)
    (hclosed : ∀ s fd s', s.fdTable = fds → fds pid fd = -1 → round s fd = .ok s' → s' = s)
    (hopen : ∀ s fd s' n, ∀ g : ℕ, s.fdTable = fds → fds pid fd = g →
      (s.fileTable g).fdFlag = pipeFlag → fit (n + 1) (s.fileTable g) → round s fd = .ok s' →
      s' = s.setFile g (change 1 (s.fileTable g))) : ∀ {s : FileSys}, s.fdTable = fds →
    (∀ fd ∈ l, fds pid fd ≠ -1 → ∃ g : ℕ, fds pid fd = g ∧ (s.fileTable g).fdFlag = pipeFlag) →
    (∀ g : ℕ, 0 < (l.countP fun fd => fds pid fd = (g : ℤ)) →
      fit (l.countP fun fd => fds pid fd = (g : ℤ)) (s.fileTable g)) →
    l.foldlM round s = .ok s' → s' = { s with fileTable := s'.fileTable } ∧
      ∀ g : ℕ, s'.fileTable g =
        change (l.countP fun fd => fds pid fd = (g : ℤ)) (s.fileTable g) := by
  induction l with
  | nil =>
    intro s _ _ _ hrun
    obtain rfl := Except.ok.inj hrun
    exact ⟨rfl, fun g => (hzero _).symm⟩
  | cons fd l ih =>
    intro s hfds hpipe hfit hrun
    obtain ⟨s₁, hround, hrest⟩ := bind_eq_ok.1 hrun
    by_cases hneg : fds pid fd = -1
    · obtain rfl := hclosed _ _ _ hfds hneg hround
      simp only [countP_cons_closed hneg] at hfit ⊢
      exact ih hfds (fun i hi => hpipe i (List.mem_cons_of_mem _ hi)) hfit hrest
    obtain ⟨g, heq, hg⟩ := hpipe fd List.mem_cons_self hneg
    have hcons := countP_cons_open (l := l) heq
    have hhead := hfit g (by rw [hcons, if_pos rfl]; omega)
    rw [hcons, if_pos rfl] at hhead
    obtain ⟨hnext, hfit₁⟩ := hsucc _ _ hhead
    obtain rfl := hopen _ _ _ _ _ hfds heq hg hhead hround
    have hself : (s.setFile g (change 1 (s.fileTable g))).fileTable g = change 1 (s.fileTable g) :=
      update_self ..
    have hother : ∀ i, i ≠ g → (s.setFile g (change 1 (s.fileTable g))).fileTable i =
        s.fileTable i := fun i hi => update_of_ne hi ..
    obtain ⟨hs', hfile⟩ := ih (s := s.setFile g (change 1 (s.fileTable g))) hfds
      (fun i hi hnei => by
        obtain ⟨g', heq', hg'⟩ := hpipe i (List.mem_cons_of_mem _ hi) hnei
        refine ⟨g', heq', ?_⟩
        by_cases hgg : g' = g
        · rw [hgg, hself, hflag]
          exact hg
        · rw [hother g' hgg]
          exact hg') (fun i hpos => by
        by_cases hig : i = g
        · rw [hig, hself]
          exact hfit₁
        · have hi := hfit i (by rw [hcons]; omega)
          rw [hcons, if_neg hig, Nat.add_zero] at hi
          rw [hother i hig]
          exact hi) hrest
    refine ⟨hs', fun i => ?_⟩
    rw [hfile i, hcons]
    by_cases hig : i = g
    · rw [if_pos hig, hig, hself, hnext]
    · rw [if_neg hig, Nat.add_zero, hother i hig]

/-- The loop of `release_prog_resource` counts the descriptors of the process down. -/
theorem releaseLoop_pipes
    (hpipe : ∀ fd ∈ l, s.fdTable pid fd ≠ -1 → ∃ g : ℕ, s.fdTable pid fd = g ∧
      (s.fileTable g).fdFlag = pipeFlag)
    (hcount : ∀ g : ℕ, 0 < (l.countP fun fd => s.fdTable pid fd = (g : ℤ)) →
      (l.countP fun fd => s.fdTable pid fd = (g : ℤ)) ≤ (s.fileTable g).fdPos ∧
      (s.fileTable g).fdPos < 4294967296)
    (hrun : l.foldlM (releaseFd pid) s = .ok s') : s' = { s with fileTable := s'.fileTable } ∧
      ∀ g : ℕ, s'.fileTable g =
        dropUses (l.countP fun fd => s.fdTable pid fd = (g : ℤ)) (s.fileTable g) := by
  refine foldlM_pipes dropUses (fun n f => n ≤ f.fdPos ∧ f.fdPos < 4294967296) dropUses_zero
    (fun n f hf => ⟨dropUses_dropUses hf.1, ?_⟩) (fun _ => rfl) (fun s fd s₁ hfds hneg hround => ?_)
    (fun s fd s₁ n g hfds heq hflag hf hround => ?_) rfl hpipe hcount hrun
  · exact ⟨Nat.le_sub_of_add_le hf.1, (Nat.sub_le ..).trans_lt hf.2⟩
  · unfold releaseFd at hround
    rw [hfds, if_pos hneg] at hround
    exact (Except.ok.inj hround).symm
  · unfold releaseFd at hround
    rw [hfds, if_neg (by rw [heq]; omega)] at hround
    obtain ⟨b, hb, hround⟩ := bind_eq_ok.1 hround
    obtain ⟨g₁, hg₁, hb⟩ := bind_eq_ok.1 hb
    obtain rfl : g₁ = g := Int.ofNat_inj.1 ((fdLocal2Global_eq_ok hg₁).2.2.symm.trans (hfds ▸ heq))
    have htrue : b = true := by
      rw [← Except.ok.inj hb]
      exact decide_eq_true hflag
    rw [htrue, if_pos rfl, hg₁, ok_bind, pipeClose_eq (by omega) hf.2] at hround
    exact (Except.ok.inj hround).symm

/-- **`sys_exit`.** -/
theorem PipeOk.exit (h : PipeOk x) (hpid : pid ∈ x.live)
    (hrun : releaseFiles x.fs pid = .ok s') :
    PipeOk ⟨s', x.live.erase pid⟩ ∧ FreedWithLast x ⟨s', x.live.erase pid⟩ := by
  set n : ℕ → ℕ := fun g => localFds.countP fun fd => x.fs.fdTable pid fd = (g : ℤ)
  have hrow : ∀ g : ℕ, n g = rowUses localFds.toFinset (x.fs.fdTable pid) (g : ℤ) := fun g =>
    (rowUses_toFinset (by decide) _ _).symm
  have hsum : ∀ g : ℕ, uses (x.live.erase pid) localFds.toFinset x.fs.fdTable (g : ℤ) + n g =
      slotUses x g := fun g => by
    rw [hrow]
    exact uses_erase hpid
  obtain ⟨hs', hfile⟩ := releaseLoop_pipes (l := localFds) (fun fd hfd hne => by
      obtain ⟨g, hg, heq, hocc⟩ := h.entry pid hpid fd hfd hne
      exact ⟨g, heq, h.flag g hg hocc⟩) (fun g hpos => by
      obtain ⟨hg, hocc⟩ := h.slot_of_pos hpid hpos
      have hle := hsum g
      have hbound := h.slotUses_le g
      rw [(h.count g hg hocc).1]
      change n g ≤ _ ∧ _
      omega) hrun
  refine h.drop (n := n) (Finset.erase_subset ..) (fun p _ i _ _ => by rw [hs'])
    (fun g hg => ?_) (fun g => ?_) (by rw [hs']) (by rw [hs'])
  · exact hfile g
  · change uses (x.live.erase pid) localFds.toFinset s'.fdTable (g : ℤ) + n g = _
    rw [hs']
    exact hsum g

/-- The loop of `update_inode_open_cnts` counts the descriptors of the child. -/
theorem forkLoop_pipes (hrow : s.fdTable child = s.fdTable parent)
    (hpipe : ∀ fd ∈ l, s.fdTable child fd ≠ -1 → ∃ g : ℕ, s.fdTable child fd = g ∧
      (s.fileTable g).fdFlag = pipeFlag)
    (hcount : ∀ g : ℕ, 0 < (l.countP fun fd => s.fdTable child fd = (g : ℤ)) →
      (s.fileTable g).fdPos + (l.countP fun fd => s.fdTable child fd = (g : ℤ)) < 4294967296)
    (hrun : l.foldlM (updateInodeOpenCnt parent child) s = .ok s') :
    s' = { s with fileTable := s'.fileTable } ∧ ∀ g : ℕ, s'.fileTable g = { s.fileTable g with
      fdPos := (s.fileTable g).fdPos + l.countP fun fd => s.fdTable child fd = (g : ℤ) } := by
  refine foldlM_pipes (fun n f => { f with fdPos := f.fdPos + n })
    (fun n f => f.fdPos + n < 4294967296) (fun _ => rfl) (fun n f hf => ?_) (fun _ => rfl)
    (fun s fd s₁ hfds hneg hround => ?_) (fun s fd s₁ n g hfds heq hflag hf hround => ?_) rfl
    hpipe hcount hrun
  · dsimp only
    rw [Nat.add_assoc, Nat.add_comm 1 n]
    exact ⟨rfl, hf⟩
  · obtain ⟨-, -, hround⟩ := bind_eq_ok.1 hround
    rw [hfds, if_pos hneg] at hround
    exact (Except.ok.inj hround).symm
  · obtain ⟨-, -, hround⟩ := bind_eq_ok.1 hround
    rw [hfds, if_neg (by rw [heq]; omega)] at hround
    obtain ⟨b, hb, hround⟩ := bind_eq_ok.1 hround
    obtain ⟨g₁, hg₁, hb⟩ := bind_eq_ok.1 hb
    obtain rfl : g₁ = g := Int.ofNat_inj.1 ((fdLocal2Global_eq_ok hg₁).2.2.symm.trans
      (hfds ▸ hrow ▸ heq))
    have htrue : b = true := by
      rw [← Except.ok.inj hb]
      exact decide_eq_true hflag
    rw [htrue, if_pos rfl, heq, Int.toNat_natCast, Nat.mod_eq_of_lt (by omega)] at hround
    exact (Except.ok.inj hround).symm

/-- **`sys_fork`.** -/
theorem PipeOk.fork (h : PipeOk x) (hparent : parent ∈ x.live) (hchild : child ∉ x.live)
    (hpid : child ≤ 1024) (hrun : forkFiles x.fs parent child = .ok s') :
    PipeOk ⟨s', insert child x.live⟩ ∧ FreedWithLast x ⟨s', insert child x.live⟩ := by
  set t : FileSys := { x.fs with
    fdTable := update x.fs.fdTable child (x.fs.fdTable parent) }
  have hrow : t.fdTable child = x.fs.fdTable parent := update_self ..
  have hrows : ∀ p ∈ x.live, t.fdTable p = x.fs.fdTable p := fun p hp =>
    update_of_ne (fun heq : p = child => hchild (heq ▸ hp)) ..
  set n : ℕ → ℕ := fun g => localFds.countP fun fd => t.fdTable child fd = (g : ℤ)
  have hle : ∀ g : ℕ, n g ≤ 5 := fun g => List.countP_le_length
  have hsum : ∀ g : ℕ, uses (insert child x.live) localFds.toFinset t.fdTable (g : ℤ) =
      slotUses x g + n g := fun g => by
    rw [uses_insert hchild, rowUses_toFinset (by decide)]
    exact congrArg (· + _) (uses_congr (fun p hp i _ => by rw [hrows p hp]) _)
  obtain ⟨hs', hfile⟩ := forkLoop_pipes (l := localFds) (s := t)
    (hrow.trans (hrows parent hparent).symm) (fun fd hfd hentry => by
      rw [hrow] at hentry ⊢
      obtain ⟨g, hg, heq, hocc⟩ := h.entry parent hparent fd hfd hentry
      exact ⟨g, heq, h.flag g hg hocc⟩) (fun g hpos => by
      rw [hrow] at hpos
      obtain ⟨hg, hocc⟩ := h.slot_of_pos hparent hpos
      have hcount := (h.count g hg hocc).1
      have hbound := h.slotUses_le g
      have hfive := hle g
      change (x.fs.fileTable g).fdPos + n g < _
      omega) hrun
  have huses : ∀ g, slotUses ⟨s', insert child x.live⟩ g = slotUses x g + n g := fun g => by
    rw [← hsum g, hs']
    rfl
  have hinode : ∀ g, (s'.fileTable g).fdInode = (x.fs.fileTable g).fdInode := fun g => by
    rw [hfile g]
  have htable : s'.fdTable = t.fdTable := by rw [hs']
  refine ⟨⟨fun p hp => ?_, fun p hp i hi hentry => ?_, fun g hg hq => ?_, fun g hg hq => ?_,
    fun g hg q hq => ?_⟩, .of_same h (fun g _ _ => hinode g) fun g => ?_⟩
  · rcases Finset.mem_insert.1 hp with hp | hp
    · exact hp ▸ hpid
    · exact h.live_le p hp
  · change s'.fdTable p i ≠ -1 at hentry
    change ∃ g : ℕ, g < 32 ∧ s'.fdTable p i = g ∧ (s'.fileTable g).fdInode ≠ none
    rw [htable] at hentry ⊢
    simp only [hinode]
    rcases Finset.mem_insert.1 hp with hp | hp
    · rw [hp, hrow] at hentry ⊢
      exact h.entry parent hparent i hi hentry
    · rw [hrows p hp] at hentry ⊢
      exact h.entry p hp i hi hentry
  · change (s'.fileTable g).fdInode ≠ none at hq
    rw [hinode] at hq
    exact (congrArg File.fdFlag (hfile g)).trans (h.flag g hg hq)
  · change (s'.fileTable g).fdInode ≠ none at hq
    rw [hinode] at hq
    obtain ⟨hcount, hpos⟩ := h.count g hg hq
    rw [huses, ← hcount]
    exact ⟨congrArg File.fdPos (hfile g), by omega⟩
  · change (s'.fileTable g).fdInode = some q at hq
    rw [hinode] at hq
    change q < s'.brk ∧ (s'.inodes q).iSize ≤ 1
    rw [hs']
    exact h.lock g hg q hq
  · rw [huses]
    exact Nat.le_add_right ..

/-- `pcb_fd_install` finds a free descriptor if there is one. -/
theorem pcbFdInstall_of_free (s : FileSys) (pid g : ℕ)
    (hfree : ∃ i ∈ localFds, s.fdTable pid i = -1) :
    ∃ i ∈ localFds, s.fdTable pid i = -1 ∧ pcbFdInstall s pid g = (some i, { s with
      fdTable := update s.fdTable pid (update (s.fdTable pid) i (g : ℤ)) }) := by
  obtain ⟨j, hj, hneg⟩ := hfree
  obtain ⟨h3, h8⟩ := mem_localFds.1 hj
  have hle := skipWhile_le_of_fails (p := fun i => decide (s.fdTable pid i ≠ -1)) (n := 5) h3
    (by rw [hneg]; rfl)
  have hfail := skipWhile_fails (p := fun i => decide (s.fdTable pid i ≠ -1)) (n := 5) (i := 3)
    (by omega)
  refine ⟨_, mem_localFds.2 ⟨le_skipWhile, hle.trans_lt h8⟩, by simpa using hfail, ?_⟩
  unfold pcbFdInstall
  dsimp only
  rw [if_neg (hle.trans_lt h8).ne]

/-- A new descriptor for the slot `g`. -/
theorem slotUses_install {i : ℕ} (x x' : PipeSys) (hpid : pid ∈ x.live) (hi : i ∈ localFds)
    (hneg : x.fs.fdTable pid i = -1)
    (hlive : x'.live = x.live) (htable : x'.fs.fdTable =
      update x.fs.fdTable pid (update (x.fs.fdTable pid) i (g : ℤ))) (g' : ℕ) :
    slotUses x' g' = slotUses x g' + if g' = g then 1 else 0 := by
  have hset := uses_set (f := x.fs.fdTable) (a := (g' : ℤ)) (b := (g : ℤ)) hpid
    (List.mem_toFinset.2 hi)
  rw [hneg, if_neg (by omega : (-1 : ℤ) ≠ g'), Nat.add_zero, ← htable, ← hlive] at hset
  unfold slotUses
  rw [hset, hlive]
  congr 1
  by_cases hg : g' = g
  · rw [if_pos hg, hg, if_pos rfl]
  · rw [if_neg hg, if_neg fun h => hg (Int.ofNat_inj.1 h).symm]

/-- **`sys_pipe`**, when two descriptors are free. -/
theorem PipeOk.pipe {r : Option ℕ × Option ℕ} (h : PipeOk x) (hpid : pid ∈ x.live)
    (hfree : 2 ≤ localFds.countP fun fd => x.fs.fdTable pid fd = -1)
    (hrun : sysPipe x.fs pid = .ok (r, s')) :
    PipeOk { x with fs := s' } ∧ FreedWithLast x { x with fs := s' } := by
  unfold sysPipe at hrun
  cases hslot : getFreeSlotInGlobal x.fs with
  | none => rw [hslot] at hrun; cases hrun
  | some g =>
    rw [hslot] at hrun
    obtain ⟨-, hg, hgfree⟩ := getFreeSlotInGlobal_eq_some hslot
    set t : FileSys := (x.fs.newCell ioqueuePage).setFile g
      { fdPos := 2, fdFlag := pipeFlag, fdInode := some x.fs.brk }
    -- both descriptors can be installed
    obtain ⟨i, hi, hineg, hinst⟩ := pcbFdInstall_of_free t pid g (by
      obtain ⟨i, hi, heq⟩ := List.countP_pos_iff.1 (Nat.lt_of_lt_of_le Nat.two_pos hfree)
      exact ⟨i, hi, of_decide_eq_true heq⟩)
    have hineg : x.fs.fdTable pid i = -1 := hineg
    set t₁ : FileSys := { t with
      fdTable := update t.fdTable pid (update (t.fdTable pid) i (g : ℤ)) } with ht₁
    have hrow : t₁.fdTable pid = update (x.fs.fdTable pid) i (g : ℤ) :=
      update_self ..
    have hone : 0 < localFds.countP fun fd => t₁.fdTable pid fd = -1 := by
      have hset := rowUses_set (h := x.fs.fdTable pid) (a := -1) (b := (g : ℤ))
        (List.mem_toFinset.2 hi)
      rw [if_pos hineg, if_neg (by omega : (g : ℤ) ≠ -1)] at hset
      rw [← rowUses_toFinset (by decide)] at hfree ⊢
      rw [hrow]
      omega
    obtain ⟨j, hj, hjneg, hinst'⟩ := pcbFdInstall_of_free t₁ pid g (by
      obtain ⟨j, hj, heq⟩ := List.countP_pos_iff.1 hone
      exact ⟨j, hj, of_decide_eq_true heq⟩)
    dsimp only at hrun
    rw [hinst, hinst'] at hrun
    obtain ⟨-, rfl⟩ := ok_pair hrun
    set x' : PipeSys := { x with fs := { t₁ with
      fdTable := update t₁.fdTable pid (update (t₁.fdTable pid) j (g : ℤ)) } }
      with hx'
    have huses : ∀ g', slotUses x' g' = slotUses x g' + if g' = g then 2 else 0 := by
      intro g'
      have h₁ := slotUses_install x { x with fs := t₁ } hpid hi hineg rfl rfl g'
      have h₂ := slotUses_install { x with fs := t₁ } x' hpid hj hjneg rfl rfl g'
      rw [h₂, h₁]
      split <;> rfl
    have hself : x'.fs.fileTable g =
        { fdPos := 2, fdFlag := pipeFlag, fdInode := some x.fs.brk } := update_self ..
    have hother : ∀ g', g' ≠ g → x'.fs.fileTable g' = x.fs.fileTable g' := fun g' hne =>
      update_of_ne hne ..
    have hold : ∀ g', (x.fs.fileTable g').fdInode ≠ none → g' ≠ g := fun g' hocc heq =>
      hocc (heq ▸ hgfree)
    have hentry : ∀ p k, x'.fs.fdTable p k = x.fs.fdTable p k ∨ x'.fs.fdTable p k = g := by
      intro p k
      by_cases hj' : (p, k) = (pid, j)
      · obtain ⟨rfl, rfl⟩ := Prod.mk.inj hj'
        exact Or.inr table_set_self
      by_cases hi' : (p, k) = (pid, i)
      · obtain ⟨rfl, rfl⟩ := Prod.mk.inj hi'
        exact Or.inr ((table_set_of_ne hj').trans table_set_self)
      · exact Or.inl ((table_set_of_ne hj').trans (table_set_of_ne hi'))
    refine ⟨⟨h.live_le, fun p hp k hk hne => ?_, fun g' hg' hq => ?_, fun g' hg' hq => ?_,
      fun g' hg' q hq => ?_⟩, .of_same h (fun g' _ hocc => by rw [hother g' (hold g' hocc)])
        fun g' => by rw [huses]; exact Nat.le_add_right ..⟩
    · rcases hentry p k with heq | heq
      · rw [heq] at hne ⊢
        obtain ⟨g', hg', heq', hocc⟩ := h.entry p hp k hk hne
        exact ⟨g', hg', heq', by rw [hother g' (hold g' hocc)]; exact hocc⟩
      · exact ⟨g, hg, heq, by rw [hself]; exact Option.some_ne_none _⟩
    · by_cases hgg : g' = g
      · rw [hgg, hself]
      · rw [hother g' hgg] at hq ⊢
        exact h.flag g' hg' hq
    · rw [huses]
      by_cases hgg : g' = g
      · rw [hgg, hself, if_pos rfl, h.slotUses_of_free hgfree]
        exact ⟨rfl, Nat.two_pos⟩
      · rw [hother g' hgg] at hq ⊢
        rw [if_neg hgg]
        exact h.count g' hg' hq
    · by_cases hgg : g' = g
      · rw [hgg, hself] at hq
        obtain rfl := Option.some.inj hq
        refine ⟨Nat.lt_succ_self _, ?_⟩
        change (update x.fs.inodes x.fs.brk ioqueuePage x.fs.brk).iSize ≤ 1
        rw [update_self]
        exact le_rfl
      · rw [hother g' hgg] at hq
        obtain ⟨hlt, hsize⟩ := h.lock g' hg' q hq
        refine ⟨Nat.lt_succ_of_lt hlt, ?_⟩
        change (update x.fs.inodes x.fs.brk ioqueuePage q).iSize ≤ 1
        rw [update_of_ne hlt.ne]
        exact hsize

/-- Nothing but the word of a lock changes. -/
theorem PipeOk.useRing (h : PipeOk x) (hlock : lock ≤ 1)
    (hrun : Shell.useRing x.fs pid fd lock = .ok s') :
    PipeOk { x with fs := s' } ∧ FreedWithLast x { x with fs := s' } := by
  obtain ⟨g, -, hrun⟩ := bind_eq_ok.1 hrun
  split at hrun
  · cases hrun
  · next q _ =>
    obtain rfl := Except.ok.inj hrun
    refine ⟨⟨h.live_le, h.entry, h.flag, h.count, fun g' hg' q' hq' => ?_⟩,
      .of_same h (fun _ _ _ => rfl) fun _ => le_rfl⟩
    obtain ⟨hlt, hsize⟩ := h.lock g' hg' q' hq'
    refine ⟨hlt, ?_⟩
    by_cases hqq : q' = q
    · rw [hqq, FileSys.setInode_inodes_self]
      exact hlock
    · rw [FileSys.setInode_inodes_of_ne _ _ hqq]
      exact hsize

/-- A call that returns without having changed anything. -/
theorem PipeOk.unchanged (h : PipeOk x) :
    PipeOk { x with fs := x.fs } ∧ FreedWithLast x { x with fs := x.fs } :=
  ⟨h, .of_same h (fun _ _ _ => rfl) fun _ => le_rfl⟩

/-- A descriptor that is not for a pipe leads to a free slot. -/
theorem PipeOk.free_of_not_pipe {b : Bool} (h : PipeOk x) (hb : isPipe x.fs pid fd = .ok b)
    (hnot : ¬ b = true) :
    ∃ g, fdLocal2Global x.fs pid fd = .ok g ∧ (x.fs.fileTable g).fdInode = none := by
  obtain ⟨g, hg, hb⟩ := bind_eq_ok.1 hb
  refine ⟨g, hg, not_not.1 fun hocc => hnot ?_⟩
  rw [← Except.ok.inj hb]
  exact decide_eq_true (h.flag g (fdLocal2Global_eq_ok hg).2.1 hocc)

/-- **`sys_read`.** -/
theorem PipeOk.read (h : PipeOk x) (hlock : lock ≤ 1)
    (hrun : PipeCall.execRead x.fs pid fd count lock = .ok s') :
    PipeOk { x with fs := s' } ∧ FreedWithLast x { x with fs := s' } := by
  unfold PipeCall.execRead at hrun
  split at hrun
  · obtain rfl := Except.ok.inj hrun
    exact h.unchanged
  obtain ⟨b, hb, hrun⟩ := bind_eq_ok.1 hrun
  split at hrun
  · exact h.useRing hlock hrun
  · next hnot =>
    split at hrun
    · obtain rfl := Except.ok.inj hrun
      exact h.unchanged
    obtain ⟨g, hg, hfree⟩ := h.free_of_not_pipe hb hnot
    unfold sysRead at hrun
    rw [hg, ok_bind] at hrun
    dsimp only at hrun
    rw [hfree] at hrun
    cases hrun

/-- **`sys_write`.** -/
theorem PipeOk.write {buf : Bytes.Buf} (h : PipeOk x) (hlock : lock ≤ 1)
    (hrun : PipeCall.execWrite x.fs pid fd buf count lock = .ok s') :
    PipeOk { x with fs := s' } ∧ FreedWithLast x { x with fs := s' } := by
  obtain ⟨b, hb, hrun⟩ := bind_eq_ok.1 hrun
  split at hrun
  · exact h.useRing hlock hrun
  · next hnot =>
    split at hrun
    · obtain rfl := Except.ok.inj hrun
      exact h.unchanged
    obtain ⟨g, hg, hfree⟩ := h.free_of_not_pipe hb hnot
    obtain ⟨v, hwrite, hrun⟩ := bind_eq_ok.1 hrun
    unfold sysWrite at hwrite
    rw [hg, ok_bind] at hwrite
    dsimp only at hwrite
    rw [hfree] at hwrite
    split at hwrite
    · cases hwrite
    · obtain rfl := Except.ok.inj hwrite
      obtain rfl := Except.ok.inj hrun
      exact h.unchanged

theorem toInt32_eq_zero (hlow : -4294967296 < n) (hhigh : n < 4294967296) :
    toInt32 n = 0 ↔ n = 0 := by
  unfold toInt32 Int.bmod
  dsimp only
  split <;> omega

/-- On a pipe with a free lock, `sys_lseek` moves to position 0 or fails. -/
theorem seekPos_ne_zero (hn : 0 ≤ n) (hn' : n ≤ 5125) (hlow : -2147483648 ≤ offset)
    (hhigh : offset < 2147483648) (hset : whence = 1 → offset ≠ 0) (hcur : whence = 2 → offset ≠ -n)
    (hend : whence = 3 → offset ≠ -1) (hw : 0 < whence ∧ whence < 4) :
    seekPos 1 n offset whence ≠ 0 := by
  have hid : toInt32 n = n := by
    unfold toInt32 Int.bmod
    dsimp only
    split <;> omega
  unfold seekPos
  split
  · next h => exact hset h
  split
  · next h =>
    rw [hid, Ne, toInt32_eq_zero (by omega) (by omega)]
    have hne := hcur h
    omega
  · rw [Ne, toInt32_eq_zero (by omega) (by omega)]
    have hne := hend (by omega)
    omega

/-- **`sys_lseek`**, when it does not go to position 0 of a pipe. -/
theorem PipeOk.lseek {r : Option ℕ} (h : PipeOk x) (hlow : -2147483648 ≤ offset)
    (hhigh : offset < 2147483648) (hsound : PipeCall.Sound x (.lseek pid fd offset whence))
    (hrun : sysLseek x.fs pid fd offset whence = .ok (r, s')) :
    PipeOk { x with fs := s' } ∧ FreedWithLast x { x with fs := s' } := by
  obtain ⟨_, hw, hrun⟩ := bind_eq_ok.1 hrun
  have hw := assert_eq_ok.1 hw
  obtain ⟨g, hg, hrun⟩ := bind_eq_ok.1 hrun
  obtain ⟨-, h32, heq⟩ := fdLocal2Global_eq_ok hg
  dsimp only at hrun
  split at hrun
  · cases hrun
  next q hq =>
  have hocc : (x.fs.fileTable g).fdInode ≠ none := by rw [hq]; exact Option.some_ne_none q
  have hpos := (h.count g h32 hocc).1
  have hbound := h.slotUses_le g
  have hrefused : ∀ newPos, newPos = seekPos (toInt32 (x.fs.inodes q).iSize)
      (x.fs.fileTable g).fdPos offset whence →
      newPos < 0 ∨ toInt32 (toInt32 (x.fs.inodes q).iSize - 1) < newPos := by
    intro newPos hnew
    rcases Nat.le_one_iff_eq_zero_or_eq_one.1 (h.lock g h32 q hq).2 with hsize | hsize
    · rw [hsize, show toInt32 (toInt32 (0 : ℕ) - 1) = -1 by decide]
      omega
    · rw [hsize, show toInt32 (1 : ℕ) = 1 by decide] at hnew
      rw [hsize, show toInt32 (toInt32 (1 : ℕ) - 1) = 0 by decide]
      rcases hsound g heq (h.flag g h32 hocc) q hq with hzero | ⟨hset, hcur, hend⟩
      · rw [hsize] at hzero
        cases hzero
      have hne := seekPos_ne_zero (Int.natCast_nonneg (x.fs.fileTable g).fdPos) (by omega) hlow
        hhigh hset hcur hend hw
      rw [← hnew] at hne
      omega
  rw [if_pos (hrefused _ rfl)] at hrun
  obtain ⟨-, rfl⟩ := ok_pair hrun
  exact h.unchanged

/-- One call. -/
theorem PipeOk.step (h : PipeOk x) (hstep : PipeStep PipeCall.Sound x x') :
    PipeOk x' ∧ FreedWithLast x x' := by
  obtain ⟨c, hen, hsound, hrun⟩ := hstep
  cases c with
  | pipe pid =>
    obtain ⟨⟨r, s⟩, hcall, hrun⟩ := bind_eq_ok.1 hrun
    exact Except.ok.inj hrun ▸ h.pipe hen hsound hcall
  | fork parent child =>
    obtain ⟨s, hcall, hrun⟩ := bind_eq_ok.1 hrun
    exact Except.ok.inj hrun ▸ h.fork hen.1 hen.2.1 hen.2.2 hcall
  | close pid fd =>
    obtain ⟨⟨r, s⟩, hcall, hrun⟩ := bind_eq_ok.1 hrun
    exact Except.ok.inj hrun ▸ h.close hen hcall
  | exit pid =>
    obtain ⟨s, hcall, hrun⟩ := bind_eq_ok.1 hrun
    exact Except.ok.inj hrun ▸ h.exit hen hcall
  | read pid fd count lock =>
    obtain ⟨s, hcall, hrun⟩ := bind_eq_ok.1 hrun
    exact Except.ok.inj hrun ▸ h.read hen.2 hcall
  | write pid fd buf count lock =>
    obtain ⟨s, hcall, hrun⟩ := bind_eq_ok.1 hrun
    exact Except.ok.inj hrun ▸ h.write hen.2 hcall
  | lseek pid fd offset whence =>
    obtain ⟨⟨r, s⟩, hcall, hrun⟩ := bind_eq_ok.1 hrun
    exact Except.ok.inj hrun ▸ h.lseek hen.2.1 hen.2.2 hsound hcall

end Steps

/-! ## Runs -/

/-- The start: no process has a descriptor, and no file is open. -/
structure PipeStart (x : PipeSys) : Prop where
  live_le : ∀ pid ∈ x.live, pid ≤ 1024
  fdTable : ∀ pid ∈ x.live, ∀ fd ∈ localFds, x.fs.fdTable pid fd = -1
  fileTable : ∀ g < 32, (x.fs.fileTable g).fdInode = none

theorem PipeStart.pipeOk {x : PipeSys} (h : PipeStart x) : PipeOk x where
  live_le := h.live_le
  entry p hp i hi hne := absurd (h.fdTable p hp i hi) hne
  flag g hg hocc := absurd (h.fileTable g hg) hocc
  count g hg hocc := absurd (h.fileTable g hg) hocc
  lock g hg q hq := by
    rw [h.fileTable g hg] at hq
    cases hq

/-- **The count of every pipe is right in every state of a run**, and the page of a pipe goes with
its last descriptor, if `sys_pipe` always finds two free descriptors and `sys_lseek` never goes to
position 0 of a pipe. -/
theorem pipeCounts_of_run {x₀ x : PipeSys} (hstart : PipeStart x₀)
    (hrun : Relation.ReflTransGen (PipeStep PipeCall.Sound) x₀ x) :
    PipeCounts x ∧ ∀ x', PipeStep PipeCall.Sound x x' → FreedWithLast x x' := by
  have hok : PipeOk x := reach_invariant hrun hstart.pipeOk fun h hstep => (h.step hstep).1
  exact ⟨hok.pipeCounts, fun x' hstep => (hok.step hstep).2⟩

/-- A partition, freshly formatted, and one process. -/
def startPipes : PipeSys := ⟨smallRun.fs, {1}⟩

theorem startPipes_start : PipeStart startPipes where
  live_le := by decide
  fdTable := by decide
  fileTable g _ := ((freshFs_filesClosed 0 4000 _ _).slots g).1

instance (x : PipeSys) (c : PipeCall) : Decidable (c.Enabled x) :=
  match c with
  | .pipe pid => inferInstanceAs (Decidable (pid ∈ x.live))
  | .fork parent child =>
    inferInstanceAs (Decidable (parent ∈ x.live ∧ child ∉ x.live ∧ child ≤ 1024))
  | .close pid _ => inferInstanceAs (Decidable (pid ∈ x.live))
  | .exit pid => inferInstanceAs (Decidable (pid ∈ x.live))
  | .read pid _ _ lock => inferInstanceAs (Decidable (pid ∈ x.live ∧ lock ≤ 1))
  | .write pid _ _ _ lock => inferInstanceAs (Decidable (pid ∈ x.live ∧ lock ≤ 1))
  | .lseek pid _ offset _ =>
    inferInstanceAs (Decidable (pid ∈ x.live ∧ -2147483648 ≤ offset ∧ offset < 2147483648))

/-- Tests for the steps of the runs below. -/
def PipeCall.enabled (x : PipeSys) (c : PipeCall) : Bool := decide (c.Enabled x)

/-- A test for `PipeCall.Sound` that never admits `sys_lseek`. -/
def PipeCall.soundNoSeek (x : PipeSys) : PipeCall → Bool
  | .pipe pid => decide (2 ≤ localFds.countP fun fd => x.fs.fdTable pid fd = -1)
  | .lseek _ _ _ _ => false
  | _ => true

theorem PipeCall.sound_of_soundNoSeek {x : PipeSys} {c : PipeCall}
    (h : c.soundNoSeek x = true) : c.Sound x := by
  cases c with
  | pipe pid =>
    have h := of_decide_eq_true h
    exact h
  | lseek pid fd offset whence => cases h
  | _ => trivial

@[inherit_doc PipeCall.enabled]
def PipeCall.checked (x : PipeSys) (c : PipeCall) : Bool := c.enabled x && c.soundNoSeek x

/-- Process 1 makes a pipe and forks, and its child closes one of its two descriptors. -/
theorem pipeCounts_of_fork : ∃ x,
    runAll PipeCall.checked PipeCall.exec startPipes [.pipe 1, .fork 1 2, .close 2 3] = .ok x ∧
    (x.fs.fileTable 3).fdPos = 3 ∧ PipeCounts x ∧
    ∀ x', PipeStep PipeCall.Sound x x' → FreedWithLast x x' := by
  obtain ⟨x, hrun, hx⟩ := exists_of_holds
    (o := runAll PipeCall.checked PipeCall.exec startPipes [.pipe 1, .fork 1 2, .close 2 3])
    (f := fun x => (x.fs.fileTable 3).fdPos = 3) (by decide +kernel)
  have hreach : Relation.ReflTransGen (PipeStep PipeCall.Sound) startPipes x :=
    reach_of_runAll (fun {_ _ c} hc hexec => by
      obtain ⟨hen, hsound⟩ := Bool.and_eq_true_iff.1 hc
      exact ⟨c, of_decide_eq_true hen, PipeCall.sound_of_soundNoSeek hsound, hexec⟩) hrun
  exact ⟨x, hrun, of_decide_eq_true hx, pipeCounts_of_run startPipes_start hreach⟩

/-- **`sys_lseek` overwrites the count.** A pipe is made, and its reading end moved to position 0:
the count is 0 while both ends are open. -/
theorem miscount_of_lseek : ∃ x,
    Relation.ReflTransGen (PipeStep fun _ _ => True) startPipes x ∧
    (x.fs.fileTable 3).fdPos = 0 ∧ slotUses x 3 = 2 ∧ ¬ PipeCounts x := by
  obtain ⟨x, hrun, hx⟩ := exists_of_holds
    (o := runAll PipeCall.enabled PipeCall.exec startPipes [.pipe 1, .lseek 1 3 0 1])
    (f := fun x => (x.fs.fileTable 3).fdPos = 0 ∧ slotUses x 3 = 2 ∧
      (x.fs.fileTable 3).fdFlag = pipeFlag ∧ (x.fs.fileTable 3).fdInode ≠ none)
    (by decide +kernel)
  obtain ⟨hpos, huses, hflag, hocc⟩ := of_decide_eq_true hx
  refine ⟨x, reach_of_runAll (fun {_ _ c} hc hexec =>
    ⟨c, of_decide_eq_true hc, trivial, hexec⟩) hrun, hpos, huses, fun hcounts => ?_⟩
  have hcount := hcounts 3 (by decide) hflag hocc
  rw [hpos, huses] at hcount
  cases hcount

end Gardos.Shell
