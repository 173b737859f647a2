import Gardos.Fs.Safety

/-!
# The calls on descriptors (`fs/fs.c`)

`sys_close`, `sys_write`, `sys_read` and `sys_lseek` as a process calls them: each takes an
`int32_t` and first finds out what it stands for, the console or the keyboard, a pipe or a file.
Each has a test of its own for a descriptor it does not take, and for all others relies on
`fd_local2global`, which stops the machine instead of refusing. `refused_iff`: a descriptor that is
not open is refused if and only if it is negative.
-/

namespace Gardos.Fs

open Bytes Outcome

/-- What lies behind the descriptors that are not files: the ring buffers of the pipes, and the
keyboard. -/
structure Streams where
  pipeRead : FileSys → ℕ → ℕ → Outcome (List UInt8 × FileSys)
  pipeWrite : FileSys → ℕ → Buf → ℕ → Outcome (ℕ × FileSys)
  kbdBuf : ℕ → List UInt8

/-! ## The calls -/

/-- `sys_close`, for every `fd`. -/
def sysCloseFd (s : FileSys) (pid : ℕ) (fd : ℤ) : Outcome (Bool × FileSys) :=
  if fd > 2 then sysClose s pid fd.toNat
  else return (false, s)

/-- `sys_write`, for every `fd`. The console takes its text from a buffer of 1024 bytes. -/
def sysWriteFd (io : Streams) (s : FileSys) (pid : ℕ) (fd : ℤ) (buf : Buf) (count : ℕ) :
    Outcome (Option ℕ × FileSys) := do
  if fd < 0 then
    return (none, s)
  let pipe ← isPipe s pid fd.toNat
  if pipe then
    let (n, s) ← io.pipeWrite s fd.toNat buf count
    return (some n, s)
  if fd = 1 then
    access (count ≤ 1024)
    return (some count, s)
  sysWrite s pid fd.toNat buf count

/-- `sys_read`, for every `fd`. -/
def sysReadFd (io : Streams) (s : FileSys) (pid : ℕ) (fd : ℤ) (count : ℕ) :
    Outcome (Option ℕ × List UInt8 × FileSys) := do
  if fd < 0 ∨ fd = 1 ∨ fd = 2 then
    return (none, [], s)
  let pipe ← isPipe s pid fd.toNat
  if pipe then
    let (bytes, s) ← io.pipeRead s fd.toNat count
    return (some bytes.length, bytes, s)
  if fd = 0 then
    return (if count = 0 then none else some count, io.kbdBuf count, s)
  sysRead s pid fd.toNat count

/-- `sys_lseek`, for every `fd`. -/
def sysLseekFd (s : FileSys) (pid : ℕ) (fd offset : ℤ) (whence : ℕ) :
    Outcome (Option ℕ × FileSys) :=
  if fd < 0 then return (none, s)
  else sysLseek s pid fd.toNat offset whence

/-! ## Descriptors that are not open -/

/-- The descriptor is open: it has a slot of `fd_table`, and the slot is in use. -/
def FdOpen (s : FileSys) (pid : ℕ) (fd : ℤ) : Prop := 0 ≤ fd ∧ fd < 8 ∧ s.fdTable pid fd.toNat ≠ -1

/-- The four calls return `-1` and change nothing. -/
structure Refused (io : Streams) (s : FileSys) (pid : ℕ) (fd : ℤ) : Prop where
  close : sysCloseFd s pid fd = .ok (false, s)
  write : ∀ buf count, sysWriteFd io s pid fd buf count = .ok (none, s)
  read : ∀ count, sysReadFd io s pid fd count = .ok (none, [], s)
  lseek : ∀ offset whence, 0 < whence → whence < 4 →
    sysLseekFd s pid fd offset whence = .ok (none, s)

/-- `fd_local2global` does not return for a descriptor that is not open: below 8 its assertion
fails, and from 8 on it reads behind the table. -/
theorem fdLocal2Global_of_not_open {s : FileSys} {pid : ℕ} {fd : ℤ} (h0 : 0 ≤ fd)
    (h : ¬ FdOpen s pid fd) :
    fdLocal2Global s pid fd.toNat = .error (if fd < 8 then .assert else .fault) := by
  unfold fdLocal2Global
  by_cases h8 : fd < 8
  · have hclosed : s.fdTable pid fd.toNat = -1 := by
      by_contra hne
      exact h ⟨h0, h8, hne⟩
    rw [if_pos h8, access, if_pos (by omega), hclosed]
    rfl
  · rw [if_neg h8, access, if_neg (by omega)]
    rfl

/-- **Invalid descriptors.** In every state, a descriptor that is not open is refused by the four
calls if and only if it is negative. -/
theorem refused_iff (io : Streams) (s : FileSys) (pid : ℕ) (fd : ℤ) (h : ¬ FdOpen s pid fd) :
    Refused io s pid fd ↔ fd < 0 := by
  constructor
  · intro hr
    by_contra hfd
    have hlseek := hr.lseek 0 1 (by omega) (by omega)
    rw [sysLseekFd, if_neg hfd, sysLseek] at hlseek
    obtain ⟨-, -, hlseek⟩ := bind_eq_ok.1 hlseek
    obtain ⟨_, hglobal, -⟩ := bind_eq_ok.1 hlseek
    rw [fdLocal2Global_of_not_open (not_lt.1 hfd) h] at hglobal
    cases hglobal
  · intro hfd
    refine ⟨?_, fun buf count => ?_, fun count => ?_, fun offset whence _ _ => ?_⟩
    · rw [sysCloseFd, if_neg (by omega)]
      rfl
    · rw [sysWriteFd, if_pos hfd]
      rfl
    · rw [sysReadFd, if_pos (.inl hfd)]
      rfl
    · rw [sysLseekFd, if_pos hfd]
      rfl

/-- Streams without data. -/
def noStreams : Streams where
  pipeRead s _ _ := .ok ([], s)
  pipeWrite s _ _ _ := .ok (0, s)
  kbdBuf _ := []

/-- `-1`, the result of a failed `open`. -/
theorem refused_negative : ¬ FdOpen smallRun.fs 1 (-1) ∧ Refused noStreams smallRun.fs 1 (-1) := by
  have h : ¬ FdOpen smallRun.fs 1 (-1) := fun h => absurd h.1 (by decide)
  exact ⟨h, (refused_iff noStreams smallRun.fs 1 (-1) h).2 (by decide)⟩

/-- A process that has opened nothing: the calls on descriptor 3 fail an assertion, and those on
descriptor 8 read behind `fd_table`. -/
theorem not_refused_closed :
    ¬ FdOpen smallRun.fs 1 3 ∧ sysCloseFd smallRun.fs 1 3 = .error .assert ∧
    (∀ buf count, sysWriteFd noStreams smallRun.fs 1 3 buf count = .error .assert) ∧
    (∀ count, sysReadFd noStreams smallRun.fs 1 3 count = .error .assert) ∧
    sysLseekFd smallRun.fs 1 3 0 1 = .error .assert ∧
    ¬ FdOpen smallRun.fs 1 8 ∧ sysCloseFd smallRun.fs 1 8 = .error .fault := by
  have h3 : ¬ FdOpen smallRun.fs 1 3 := fun h => h.2.2 rfl
  have h8 : ¬ FdOpen smallRun.fs 1 8 := fun h => absurd h.2.1 (by decide)
  have hg3 := fdLocal2Global_of_not_open (by decide) h3
  have hg8 := fdLocal2Global_of_not_open (by decide) h8
  refine ⟨h3, ?_, fun buf count => ?_, fun count => ?_, ?_, h8, ?_⟩
  · simp only [sysCloseFd, sysClose, hg3]
    rfl
  · simp only [sysWriteFd, isPipe, hg3]
    rfl
  · simp only [sysReadFd, isPipe, hg3]
    rfl
  · simp only [sysLseekFd, sysLseek, hg3]
    rfl
  · simp only [sysCloseFd, sysClose, hg8]
    rfl

end Gardos.Fs
