import Gardos.Foundations.Outcome
import Gardos.Fs.Holders
import Gardos.Fs.Safety

/-!
# Writers of a file

`file_open` lets one writer in at a time: it tests and sets `write_deny` in the inode. This module
looks at the slots of the file table that `sys_write` accepts (`SingleWriter`) along every
interleaving of `sys_open` and `sys_close` by any number of processes.

The flag does not keep its promise. `file_create` leaves it clear, the flags `O_WRONLY | O_RDWR` are
not among those that `file_open` tests, every `file_close` clears it, and an open that is refused
leaves its slot behind. `singleWriter_of_run` says that processes which do not try to open a file
for writing twice are safe, and `two_writers_of_create` shows two writers.
-/

namespace Gardos.Fs

open Bytes Outcome Function

/-- `sys_open` and `sys_close`. -/
inductive FileCall
  | open (pid : ℕ) (path : List UInt8) (flags : ℕ)
  | close (pid fd : ℕ)

/-- The call, with what it finds in uninitialised variables. -/
def FileCall.exec (s : FileSys) : Uninit × FileCall → Outcome FileSys
  | (uninit, .open pid path flags) => do
    let (_, s) ← sysOpen s uninit pid path flags
    return s
  | (_, .close pid fd) => do
    let (_, s) ← sysClose s pid fd
    return s

/-- A call that meets the condition `P`. -/
def FileStep (P : FileSys → Uninit × FileCall → Prop) (s s' : FileSys) : Prop :=
  ∃ c, P s c ∧ FileCall.exec s c = .ok s'

/-- No two slots of the file table that `sys_write` accepts refer to one inode. -/
def SingleWriter (s : FileSys) : Prop :=
  ∀ i < 32, ∀ j < 32, ∀ q, (s.fileTable i).fdInode = some q → (s.fileTable j).fdInode = some q →
    canWrite (s.fileTable i).fdFlag = true → canWrite (s.fileTable j).fdFlag = true → i = j

/-- The call does not open a file for writing that a slot for writing refers to, unless the file
table is full. -/
def NoSecondWriter (s : FileSys) : Uninit × FileCall → Prop
  | (uninit, .open _ path flags) => canWrite flags = true → flags < 4 →
      (∃ g < 32, (s.fileTable g).fdInode = none) → ∀ i < 32, ∀ q,
      (s.fileTable i).fdInode = some q → canWrite (s.fileTable i).fdFlag = true →
        namedInode s uninit path ≠ some (s.inodes q).iNo
  | (_, .close _ _) => True

/-- No file is open. -/
structure FilesClosed (s : FileSys) : Prop where
  slots : ∀ i, (s.fileTable i).fdInode = none ∧ (s.fileTable i).fdFlag ≠ pipeFlag
  holds : Holds s fun _ => 0

/-- Every slot of the file table in use is one for a file, whose inode is in a cell in use. -/
structure TableOk (s : FileSys) : Prop where
  lt_brk : ∀ i q, (s.fileTable i).fdInode = some q → q < s.brk
  not_pipe : ∀ i, (s.fileTable i).fdFlag ≠ pipeFlag
  holds : Holds s fun _ => 0

/-- The invariant: single writers, and slots for files in cells that are in use. -/
structure WritersOk (s : FileSys) : Prop extends TableOk s where
  single : SingleWriter s

variable {s s' : FileSys} {pid g q flags i : ℕ} {fd : Option ℕ}

theorem FilesClosed.tableOk (h : FilesClosed s) : TableOk s where
  lt_brk i q hi := by
    rw [(h.slots i).1] at hi
    cases hi
  not_pipe i := (h.slots i).2
  holds := h.holds

/-! ## The file table -/

theorem TakesSlot.eq_self (h : TakesSlot s s' pid g q flags fd) :
    s'.fileTable g = ⟨0, flags, some q⟩ := by
  rw [h.fileTable, update_self]

theorem TakesSlot.eq_of_ne (h : TakesSlot s s' pid g q flags fd) (hi : i ≠ g) :
    s'.fileTable i = s.fileTable i := by
  rw [h.fileTable, update_of_ne hi]

theorem TableOk.takesSlot (h : TableOk s) (ht : TakesSlot s s' pid g q flags fd)
    (hbrk : s.brk ≤ s'.brk) (hflags : flags ≤ 7) (hh : Holds s' (hold (fun _ => 0) q)) :
    TableOk s' := by
  refine ⟨fun i p hi => ?_, fun i => ?_, hh.of_hold⟩
  · by_cases hig : i = g
    · rw [hig, ht.eq_self] at hi
      obtain rfl := Option.some.inj hi
      exact hh.lt_of_hold
    · rw [ht.eq_of_ne hig] at hi
      exact (h.lt_brk i p hi).trans_le hbrk
  · by_cases hig : i = g
    · rw [hig, ht.eq_self]
      change flags ≠ 65535
      omega
    · rw [ht.eq_of_ne hig]
      exact h.not_pipe i

/-- A call that takes no slot leaves the slots in use as they are. -/
theorem KeepsSlots.eq_of_some (h : KeepsSlots s s') (hi : (s'.fileTable i).fdInode = some q) :
    s'.fileTable i = s.fileTable i := by
  refine h.occupied i fun hnone => ?_
  rw [(h.free i hnone).1] at hi
  cases hi

theorem TableOk.refuses {r : ℕ → ℕ} (h : TableOk s) (hr : Refuses s s' r fd)
    (hbrk : s.brk ≤ s'.brk) : TableOk s' := by
  refine ⟨fun i q hi => ?_, fun i => ?_, hr.holds.mono fun _ => Nat.zero_le _⟩
  · rw [hr.slots.eq_of_some hi] at hi
    exact (h.lt_brk i q hi).trans_le hbrk
  · by_cases hfree : (s.fileTable i).fdInode = none
    · rcases (hr.slots.free i hfree).2 with hflag | hflag <;> rw [hflag]
      · exact h.not_pipe i
      · decide
    · rw [hr.slots.occupied i hfree]
      exact h.not_pipe i

/-- The slots that are in use after `sys_close` are as before. -/
theorem Closes.eq_of_some {fd i₀ q₀ : ℕ} (hc : Closes s pid fd i₀ q₀ s')
    (hi : (s'.fileTable i).fdInode = some q) : s'.fileTable i = s.fileTable i := by
  rw [hc.state] at hi ⊢
  change (update s.fileTable i₀ _ i).fdInode = _ at hi
  by_cases hi₀ : i = i₀
  · rw [hi₀, update_self] at hi
    cases hi
  · exact update_of_ne hi₀ ..

theorem TableOk.closes {fd i₀ q₀ : ℕ} (h : TableOk s) (hc : Closes s pid fd i₀ q₀ s') :
    TableOk s' := by
  have hstep := cacheStep_inodeClose
    (s.setInode q₀ { s.inodes q₀ with writeDeny := false }) q₀
  have hbrk : s.brk ≤ s'.brk := by
    rw [hc.state]
    exact hstep.brk
  refine ⟨fun i q hi => ?_, fun i => ?_, ?_⟩
  · rw [hc.eq_of_some hi] at hi
    exact (h.lt_brk i q hi).trans_le hbrk
  · rw [hc.state]
    change (update s.fileTable i₀ _ i).fdFlag ≠ _
    by_cases hi₀ : i = i₀
    · rw [hi₀, update_self]
      exact h.not_pipe i₀
    · rw [update_of_ne hi₀]
      exact h.not_pipe i
  · refine ⟨fun p hp => ?_, ?_, fun _ hp => absurd hp (lt_irrefl 0), fun _ => Nat.zero_le _⟩
    · refine (h.holds.lt_brk p ?_).trans_le hbrk
      rw [hc.state] at hp
      have hp : p ∈ (inodeClose (s.setInode q₀ { s.inodes q₀ with writeDeny := false })
        q₀).openInodes := hp
      rw [inodeClose_openInodes] at hp
      split at hp
      · exact List.mem_of_mem_erase hp
      · exact hp
    · rw [hc.state]
      change (inodeClose (s.setInode q₀ { s.inodes q₀ with writeDeny := false }) q₀).rootInode <
        (inodeClose (s.setInode q₀ { s.inodes q₀ with writeDeny := false }) q₀).brk
      rw [hstep.rootInode]
      exact h.holds.root_lt.trans_le hstep.brk

/-! ## Single writers -/

theorem FilesClosed.writersOk (h : FilesClosed s) : WritersOk s :=
  ⟨h.tableOk, fun i _ j _ q hi => by
    rw [(h.slots i).1] at hi
    cases hi⟩

/-- A slot is taken for a cell that no slot for writing refers to. -/
theorem WritersOk.takesSlot (h : WritersOk s) (ht : TakesSlot s s' pid g q flags fd)
    (hbrk : s.brk ≤ s'.brk) (hflags : flags ≤ 7) (hh : Holds s' (hold (fun _ => 0) q))
    (hone : canWrite flags = true → ∀ i < 32, (s.fileTable i).fdInode = some q →
      canWrite (s.fileTable i).fdFlag = true → False) : WritersOk s' := by
  refine ⟨h.toTableOk.takesSlot ht hbrk hflags hh, fun i hi j hj p hip hjp hwi hwj => ?_⟩
  by_cases hig : i = g <;> by_cases hjg : j = g
  · rw [hig, hjg]
  · rw [hig, ht.eq_self] at hip hwi
    obtain rfl := Option.some.inj hip
    rw [ht.eq_of_ne hjg] at hjp hwj
    exact (hone hwi j hj hjp hwj).elim
  · rw [hjg, ht.eq_self] at hjp hwj
    obtain rfl := Option.some.inj hjp
    rw [ht.eq_of_ne hig] at hip hwi
    exact (hone hwj i hi hip hwi).elim
  · rw [ht.eq_of_ne hig] at hip hwi
    rw [ht.eq_of_ne hjg] at hjp hwj
    exact h.single i hi j hj p hip hjp hwi hwj

/-- Slots that are as before do not make a second writer. -/
theorem SingleWriter.of_slots (h : SingleWriter s)
    (hslot : ∀ {i q}, (s'.fileTable i).fdInode = some q → s'.fileTable i = s.fileTable i) :
    SingleWriter s' := by
  intro i hi j hj q hiq hjq
  have heqi := hslot hiq
  have heqj := hslot hjq
  rw [heqi] at hiq ⊢
  rw [heqj] at hjq ⊢
  exact h i hi j hj q hiq hjq

/-- `sys_open` that asks for no second writer. -/
theorem WritersOk.open {uninit : Uninit} {path : List UInt8} (h : WritersOk s)
    (hc : NoSecondWriter s (uninit, .open pid path flags))
    (hrun : sysOpen s uninit pid path flags = .ok (fd, s')) : WritersOk s' := by
  obtain ⟨hcells, hres⟩ := sysOpen_effect h.holds hrun
  rcases hres with hr | ⟨hflags, g, q, ht, hh, hcell⟩
  · exact ⟨h.toTableOk.refuses hr hcells.brk, h.single.of_slots hr.slots.eq_of_some⟩
  · refine h.takesSlot ht hcells.brk hflags hh fun hw i hi hq hwi => ?_
    rcases hcell with hge | ⟨hlt, hnamed⟩
    · exact absurd (h.lt_brk i q hq) (not_lt.2 hge)
    · exact hc hw hlt ⟨g, ht.lt, ht.free⟩ i hi q hq hwi hnamed

/-- `sys_close` gives up a slot. -/
theorem WritersOk.close {fd : ℕ} {done : Bool} (h : WritersOk s)
    (hrun : sysClose s pid fd = .ok (done, s')) : WritersOk s' := by
  rcases sysClose_cases h.not_pipe hrun with ⟨-, rfl⟩ | ⟨-, -, i₀, q₀, hc⟩
  · exact h
  · exact ⟨h.toTableOk.closes hc, h.single.of_slots hc.eq_of_some⟩

theorem WritersOk.step (h : WritersOk s) (hstep : FileStep NoSecondWriter s s') : WritersOk s' := by
  obtain ⟨⟨uninit, c⟩, hc, hrun⟩ := hstep
  cases c with
  | «open» pid path flags =>
    obtain ⟨⟨fd, s₁⟩, hopen, hrun⟩ := bind_eq_ok.1 hrun
    obtain rfl := Except.ok.inj hrun
    exact h.open hc hopen
  | close pid fd =>
    obtain ⟨⟨done, s₁⟩, hclose, hrun⟩ := bind_eq_ok.1 hrun
    obtain rfl := Except.ok.inj hrun
    exact h.close hclose

/-- **Single writer.** From a state without open files, after any calls of `sys_open` and
`sys_close` by any processes in which no one opens a file for writing that a slot for writing
refers to, no two slots for writing refer to one inode. -/
theorem singleWriter_of_run {s₀ : FileSys} (h₀ : FilesClosed s₀)
    (hrun : Relation.ReflTransGen (FileStep NoSecondWriter) s₀ s) : SingleWriter s :=
  (reach_invariant hrun h₀.writersOk fun h hstep => h.step hstep).single

theorem freshFs_filesClosed (startLba secCnt : ℕ) (pad : Buf) (hd : Disk) :
    FilesClosed (freshFs startLba secCnt pad hd) where
  slots _ := ⟨rfl, show 0 ≠ pipeFlag by decide⟩
  holds := by
    refine ⟨fun q hq => ?_, Nat.one_pos, fun _ hp => absurd hp (lt_irrefl 0),
      fun _ => Nat.zero_le _⟩
    rw [List.mem_singleton.1 hq]
    exact Nat.one_pos

/-- A test for calls that open no file a second time for writing. -/
def FileCall.opensNoWriter (_ : FileSys) : Uninit × FileCall → Bool
  | (_, .open _ _ flags) => !canWrite flags || 4 ≤ flags
  | (_, .close _ _) => true

theorem FileCall.noSecondWriter {c : Uninit × FileCall} (h : opensNoWriter s c = true) :
    NoSecondWriter s c := by
  obtain ⟨uninit, c⟩ := c
  cases c with
  | «open» pid path flags =>
    intro hw hlt
    rcases Bool.or_eq_true_iff.1 h with h | h
    · rw [hw] at h
      cases h
    · exact absurd hlt (not_lt.2 (of_decide_eq_true h))
  | close pid fd => trivial

/-- Process 1 makes a file and process 2 reads it. -/
theorem singleWriter_of_reader : ∃ s, runAll FileCall.opensNoWriter FileCall.exec smallRun.fs
    [(noUninit, .open 1 pathA 6), (noUninit, .open 2 pathA 0)] = .ok s ∧
    (s.fileTable 3).fdInode = some 1 ∧ (s.fileTable 4).fdInode = some 1 ∧ SingleWriter s := by
  obtain ⟨s, hrun, hs⟩ := exists_of_holds
    (o := runAll FileCall.opensNoWriter FileCall.exec smallRun.fs
      [(noUninit, .open 1 pathA 6), (noUninit, .open 2 pathA 0)])
    (f := fun s => (s.fileTable 3).fdInode = some 1 ∧ (s.fileTable 4).fdInode = some 1)
    (by decide +kernel)
  obtain ⟨h3, h4⟩ := of_decide_eq_true hs
  have hreach : Relation.ReflTransGen (FileStep NoSecondWriter) smallRun.fs s :=
    reach_of_runAll (fun {_ _ c} hc hexec => ⟨c, FileCall.noSecondWriter hc, hexec⟩) hrun
  exact ⟨s, hrun, h3, h4, singleWriter_of_run (freshFs_filesClosed 0 4000 _ _) hreach⟩

/-- **Two writers.** Process 1 makes a file with `O_CREAT | O_RDWR`, process 2 opens it with
`O_RDWR`: both get a descriptor that `sys_write` accepts. -/
theorem two_writers_of_create : ∃ s,
    Relation.ReflTransGen (FileStep fun _ _ => True) smallRun.fs s ∧
    s.fdTable 1 3 = 3 ∧ s.fdTable 2 3 = 4 ∧ ¬ SingleWriter s := by
  obtain ⟨s, hrun, hs⟩ := exists_of_holds
    (o := runAll (fun _ _ => true) FileCall.exec smallRun.fs
      [(noUninit, .open 1 pathA 6), (noUninit, .open 2 pathA 2)])
    (f := fun s => s.fdTable 1 3 = 3 ∧ s.fdTable 2 3 = 4 ∧
      (s.fileTable 3).fdInode = some 1 ∧ (s.fileTable 4).fdInode = some 1 ∧
      canWrite (s.fileTable 3).fdFlag = true ∧ canWrite (s.fileTable 4).fdFlag = true)
    (by decide +kernel)
  obtain ⟨h1, h2, h3, h4, hw3, hw4⟩ := of_decide_eq_true hs
  refine ⟨s, reach_of_runAll (fun {_ _ c} _ hexec => ⟨c, trivial, hexec⟩) hrun, h1, h2,
    fun hsingle => ?_⟩
  exact absurd (hsingle 3 (by decide) 4 (by decide) 1 h3 h4 hw3 hw4) (by decide)

end Gardos.Fs
