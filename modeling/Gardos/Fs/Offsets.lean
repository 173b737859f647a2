import Gardos.Fs.FileLimits
import Gardos.Fs.Writers

/-!
# Offsets of open files

`fd_pos` is meant to stay inside the file. `file_read` and `sys_lseek` look at `i_size` first;
`file_write` sets the offset to `i_size - 1` and adds what it writes. `offsets_of_run` says that the
offsets stay inside along every run of `sys_open`, `sys_close`, `sys_read`, `sys_write` and
`sys_lseek`, as long as nobody writes 0 bytes to an empty file, where `i_size - 1` is `2^32 - 1`
(`offset_of_empty_write`), and the sizes stay below `2^32`.
-/

namespace Gardos.Fs

open Bytes Outcome Function

/-! ## Reading and writing -/

section ReadWrite

variable {p p' : Partition} {file file' : File} {ino ino' : Inode} {buf : Buf} {count : ℕ}

/-- The loop of `file_read` moves the offset by what is left, modulo `2^32`. -/
theorem readLoop_pos {d : Disk} {blocks : ℕ → ℕ} {fuel : ℕ} : ∀ {pos left : ℕ}, left ≤ fuel →
    pos < 4294967296 → (readLoop d blocks fuel pos left).2 = (pos + left) % 4294967296 := by
  induction fuel with
  | zero =>
    intro pos left h hpos
    obtain rfl : left = 0 := by omega
    exact (Nat.mod_eq_of_lt hpos).symm
  | succ fuel ih =>
    intro pos left h hpos
    rw [readLoop]
    by_cases hl : left = 0
    · rw [if_pos hl, hl]
      exact (Nat.mod_eq_of_lt hpos).symm
    · rw [if_neg hl]
      simp only
      generalize hchunk : min left (512 - pos % 512) = chunk
      have hchunk0 : 0 < chunk := by omega
      rw [ih (by omega) (by omega)]
      omega

/-- A read leaves the offset inside the file, however many bytes it asks for. -/
theorem fileRead_pos {d : Disk} {r : Option ℕ} {bytes : List UInt8}
    (hpos : file.fdPos ≤ ino.iSize) (hsize : ino.iSize < 4294967296)
    (h : fileRead d file ino count = .ok (r, bytes, file')) :
    file'.fdPos ≤ ino.iSize ∧ file'.fdFlag = file.fdFlag ∧ file'.fdInode = file.fdInode := by
  unfold fileRead at h
  simp only at h
  generalize hsz : (if ino.iSize < (file.fdPos + count) % 4294967296 then
    (ino.iSize + (4294967296 - file.fdPos)) % 4294967296 else count) = size at h
  have hend : (file.fdPos + size) % 4294967296 ≤ ino.iSize := by
    rw [← hsz]
    split <;> omega
  split at h
  · obtain ⟨-, -, rfl⟩ := ok_triple h
    exact ⟨hpos, rfl, rfl⟩
  · obtain ⟨-, -, h⟩ := bind_eq_ok.1 h
    obtain ⟨blocks, -, h⟩ := bind_eq_ok.1 h
    obtain ⟨-, -, rfl⟩ := ok_triple h
    exact ⟨by rw [readLoop_pos le_rfl (by omega)]; exact hend, rfl, rfl⟩

/-- The loop of `file_write` keeps its counters below `2^32`. -/
theorem writeLoop_lt {blocks : ℕ → ℕ} {src : Buf} {fuel : ℕ} :
    ∀ {p : Partition} {ino : Inode} {pos off left : ℕ} {first : Bool}, ino.iSize < 4294967296 →
    pos < 4294967296 → (writeLoop blocks src fuel p ino pos off left first).2.1.iSize < 4294967296 ∧
      (writeLoop blocks src fuel p ino pos off left first).2.2 < 4294967296 := by
  induction fuel with
  | zero => exact fun hsize hpos => ⟨hsize, hpos⟩
  | succ fuel ih =>
    intro p ino pos off left first hsize hpos
    rw [writeLoop]
    by_cases hl : left = 0
    · rw [if_pos hl]
      exact ⟨hsize, hpos⟩
    · rw [if_neg hl]
      exact ih (Nat.mod_lt _ (by omega)) (Nat.mod_lt _ (by omega))

/-- A write that leaves the offset inside the file: one that is refused for its size, or that is not
of 0 bytes to an empty file, and not past `2^32`. -/
def WriteInside (size count : ℕ) : Prop :=
  (size + count) % 4294967296 ≤ 71680 → (size ≠ 0 ∨ count ≠ 0) ∧ size + count < 4294967296

/-- Such a write makes the file longer, and ends on its last byte; a write that fails leaves size
and offset alone. -/
theorem fileWrite_pos {n : Option ℕ} (hw : WriteInside ino.iSize count)
    (hs : ino.iSize < 4294967296) (hpos : file.fdPos ≤ ino.iSize)
    (h : fileWrite p file ino buf count = .ok (n, p', file', ino')) :
    (ino.iSize ≤ ino'.iSize ∧ ino'.iSize < 4294967296) ∧ file'.fdPos ≤ ino'.iSize ∧
      file'.fdFlag = file.fdFlag ∧ file'.fdInode = file.fdInode := by
  have hfail : ∀ {ino₁ : Inode}, ino₁.iSize = ino.iSize →
      (ino.iSize ≤ ino₁.iSize ∧ ino₁.iSize < 4294967296) ∧ file.fdPos ≤ ino₁.iSize ∧
        file.fdFlag = file.fdFlag ∧ file.fdInode = file.fdInode := fun hsize => by
    rw [hsize]
    exact ⟨⟨le_rfl, by omega⟩, hpos, rfl, rfl⟩
  unfold fileWrite at h
  split at h
  · obtain ⟨-, -, rfl, rfl⟩ := ok_quad h
    exact hfail rfl
  obtain ⟨hne, hlt⟩ := hw (not_lt.1 ‹_›)
  obtain ⟨⟨done, p1, ino1⟩, hfirst, h⟩ := bind_eq_ok.1 h
  have h1 := firstBlock_iSize hfirst
  cases done with
  | false =>
    obtain ⟨-, -, rfl, rfl⟩ := ok_quad h
    exact hfail h1
  | true =>
    obtain ⟨-, -, h⟩ := bind_eq_ok.1 h
    obtain ⟨⟨done, p2, ino2, blocks⟩, hcol, h⟩ := bind_eq_ok.1 h
    have h2 := (collectWrite_iSize hcol).trans h1
    cases done with
    | false =>
      obtain ⟨-, -, rfl, rfl⟩ := ok_quad h
      exact hfail h2
    | true =>
      obtain ⟨p3, -, h⟩ := bind_eq_ok.1 h
      obtain ⟨-, -, rfl, rfl⟩ := ok_quad h
      obtain ⟨hsize, hoff⟩ := @writeLoop_sizes blocks buf count p2 ino2
        ((ino2.iSize + 4294967295) % 4294967296) 0 count true le_rfl
      obtain ⟨hsize', hoff'⟩ := @writeLoop_lt blocks buf count p2 ino2
        ((ino2.iSize + 4294967295) % 4294967296) 0 count true (by omega) (by omega)
      rw [Nat.mod_eq_of_lt hsize'] at hsize
      rw [Nat.mod_eq_of_lt hoff'] at hoff
      refine ⟨⟨?_, hsize'⟩, ?_, rfl, rfl⟩
      · rw [hsize]
        omega
      · change _ ≤ (writeLoop _ _ _ _ _ _ _ _ _).2.1.iSize
        rw [hsize]
        change (writeLoop _ _ _ _ _ _ _ _ _).2.2 ≤ _
        rw [hoff]
        omega

end ReadWrite

/-! ## Sizes of the inodes in memory -/

/-- No inode in memory changes its size, and those that are new have a size below `2^32`. -/
structure SizesKept (s s' : FileSys) : Prop where
  brk : s.brk ≤ s'.brk
  old : ∀ q < s.brk, (s'.inodes q).iSize = (s.inodes q).iSize
  new : ∀ q, s.brk ≤ q → q < s'.brk → (s'.inodes q).iSize < 4294967296

section Sizes

variable {s s₁ s' : FileSys} {n q : ℕ} {dir : DirPtr} {uninit : Uninit} {path : List UInt8}
  {ino ino' : Inode} {p p' : Partition} {done : Bool} {e : DirEntry} {pid flags : ℕ} {fd : Option ℕ}

theorem SizesKept.of_eq (hbrk : s'.brk = s.brk)
    (h : ∀ q, (s'.inodes q).iSize = (s.inodes q).iSize) : SizesKept s s' :=
  ⟨hbrk.ge, fun q _ => h q, fun _ hq hlt => absurd (hbrk ▸ hlt) (not_lt.2 hq)⟩

theorem SizesKept.refl (s : FileSys) : SizesKept s s := .of_eq rfl fun _ => rfl

theorem SizesKept.trans (h : SizesKept s s₁) (h' : SizesKept s₁ s') : SizesKept s s' := by
  refine ⟨h.brk.trans h'.brk, fun q hq => ?_, fun q hq hlt => ?_⟩
  · rw [h'.old q (hq.trans_le h.brk), h.old q hq]
  · by_cases hq₁ : q < s₁.brk
    · rw [h'.old q hq₁]
      exact h.new q hq hq₁
    · exact h'.new q (not_lt.1 hq₁) hlt

theorem sizesKept_inodeOpen (hrun : inodeOpen s n = .ok (q, s')) : SizesKept s s' := by
  rcases inodeOpen_cases hrun with ⟨-, rfl⟩ | ⟨-, -, -, rfl⟩
  · exact .of_eq rfl (apply_update_eq Inode.iSize rfl)
  · refine ⟨Nat.le_succ _, fun p hp => ?_, fun p hle hlt => ?_⟩
    · exact congrArg Inode.iSize (update_of_ne hp.ne ..)
    · obtain rfl : p = s.brk := Nat.le_antisymm (Nat.lt_succ_iff.1 hlt) hle
      change (update s.inodes s.brk _ s.brk).iSize < _
      rw [update_self]
      exact getLe32_lt _

theorem sizesKept_inodeClose (s : FileSys) (q : ℕ) : SizesKept s (inodeClose s q) := by
  refine .of_eq ?_ ?_
  · unfold inodeClose
    dsimp only
    split <;> rfl
  · rw [inodeClose_inodes]
    exact apply_update_eq Inode.iSize rfl

theorem sizesKept_dirClose (s : FileSys) (dir : DirPtr) : SizesKept s (dirClose s dir) := by
  cases dir with
  | rootDir => exact .refl s
  | heap q => exact sizesKept_inodeClose s q

theorem sizesKept_dirOpen (hrun : dirOpen s n = .ok (dir, s')) : SizesKept s s' := by
  obtain ⟨⟨q, s₁⟩, hopen, -, rfl⟩ := bind_pair_eq_ok hrun
  exact sizesKept_inodeOpen hopen

theorem sizesKept_searchFile {no : Option ℕ} {record : PathSearchRecord}
    (hrun : searchFile s uninit path = .ok (no, record, s')) : SizesKept s s' :=
  searchFile_rule (I := fun s₁ _ => SizesKept s s₁)
    (fun h hopen => (h.trans (sizesKept_dirClose _ _)).trans (sizesKept_dirOpen hopen))
    (.refl s) hrun

/-- Under the condition `creates`, an inode in memory may have grown by an entry. -/
structure SizesGrow (creates : Prop) (s s' : FileSys) : Prop where
  brk : s.brk ≤ s'.brk
  old : ∀ q < s.brk, (s'.inodes q).iSize = (s.inodes q).iSize ∨
    creates ∧ (s'.inodes q).iSize = ((s.inodes q).iSize + 24) % 4294967296
  new : ∀ q, s.brk ≤ q → q < s'.brk → (s'.inodes q).iSize < 4294967296

variable {creates : Prop}

theorem SizesGrow.of_eq (hbrk : s'.brk = s.brk)
    (h : ∀ q, (s'.inodes q).iSize = (s.inodes q).iSize ∨
      creates ∧ (s'.inodes q).iSize = ((s.inodes q).iSize + 24) % 4294967296) :
    SizesGrow creates s s' :=
  ⟨hbrk.ge, fun q _ => h q, fun _ hq hlt => absurd (hbrk ▸ hlt) (not_lt.2 hq)⟩

theorem SizesKept.grow (h : SizesKept s s') : SizesGrow creates s s' :=
  ⟨h.brk, fun q hq => Or.inl (h.old q hq), h.new⟩

theorem SizesKept.trans_grow (h : SizesKept s s₁) (h' : SizesGrow creates s₁ s') :
    SizesGrow creates s s' := by
  refine ⟨h.brk.trans h'.brk, fun q hq => ?_, fun q hq hlt => ?_⟩
  · rw [← h.old q hq]
    exact h'.old q (hq.trans_le h.brk)
  · by_cases hq₁ : q < s₁.brk
    · have hold := h.new q hq hq₁
      rcases h'.old q hq₁ with heq | ⟨-, heq⟩
      · rw [heq]
        exact hold
      · rw [heq]
        exact Nat.mod_lt _ (by omega)
    · exact h'.new q (not_lt.1 hq₁) hlt

theorem SizesGrow.trans_kept (h : SizesGrow creates s s₁) (h' : SizesKept s₁ s') :
    SizesGrow creates s s' := by
  refine ⟨h.brk.trans h'.brk, fun q hq => ?_, fun q hq hlt => ?_⟩
  · rw [h'.old q (hq.trans_le h.brk)]
    exact h.old q hq
  · by_cases hq₁ : q < s₁.brk
    · rw [h'.old q hq₁]
      exact h.new q hq hq₁
    · exact h'.new q (not_lt.1 hq₁) hlt

/-- `file_create` makes a new cell, and the directory longer. -/
theorem sizesGrow_fileCreate {name : List UInt8}
    (hrun : fileCreate s pid dir name flags = .ok (fd, s')) (hc : creates) :
    SizesGrow creates s s' := by
  -- the new cell first, then the inode of the directory, with or without the new entry
  have hcell : ∀ n, SizesKept s { s with inodes := s.newInodes n, brk := s.brk + 1 } := fun n => by
    refine ⟨Nat.le_succ _, fun q hq => ?_, fun q hle hlt => ?_⟩
    · exact congrArg Inode.iSize (FileSys.newInodes_of_lt hq)
    · obtain rfl : q = s.brk := Nat.le_antisymm (Nat.lt_succ_iff.1 hlt) hle
      change (update s.inodes s.brk _ s.brk).iSize < _
      rw [update_self]
      exact Nat.succ_pos _
  have hgrow : ∀ {n p e done p' ino'},
      syncDirEntry p (s.newInodes n (s.dirInode dir)) e = .ok (done, p', ino') → ∀ q,
      (update (s.newInodes n) (s.dirInode dir) ino' q).iSize = (s.newInodes n q).iSize ∨
        creates ∧ (update (s.newInodes n) (s.dirInode dir) ino' q).iSize =
          ((s.newInodes n q).iSize + 24) % 4294967296 := fun hsync q => by
    by_cases hq : q = s.dirInode dir
    · rw [hq, update_self]
      exact (syncDirEntry_entered hsync).iSize.imp_right fun h => ⟨hc, h⟩
    · rw [update_of_ne hq]
      exact Or.inl rfl
  cases FileCreated.of_fileCreate hrun with
  | noNumber => exact (SizesKept.refl _).grow
  | @noSlot n => exact (hcell n).trans_grow (SizesKept.grow (.of_eq rfl fun _ => rfl))
  | @noEntry n _ _ _ _ _ _ hsync => exact (hcell n).trans_grow (.of_eq rfl (hgrow hsync))
  | @created n _ _ _ _ _ ino _ _ _ _ _ hsync _ _ hinst =>
    obtain ⟨hs', -⟩ := pcbFdInstall_installs hinst
    refine (hcell n).trans_grow (.of_eq (by rw [hs']) fun q => ?_)
    have hsize : (s'.inodes q).iSize =
        (update (s.newInodes n) (s.dirInode dir) ino q).iSize := by
      rw [hs']
      exact apply_update_eq Inode.iSize (by rfl) q
    rw [hsize]
    exact hgrow hsync q

/-- What `sys_open` does to the sizes of the inodes in memory. -/
theorem sysOpen_sizes (hrun : sysOpen s uninit pid path flags = .ok (fd, s')) :
    SizesGrow (4 ≤ flags) s s' := by
  cases openRun_of_sysOpen hrun with
  | slash => exact (SizesKept.refl _).grow
  | refused hsearch => exact ((sizesKept_searchFile hsearch).trans (sizesKept_dirClose _ _)).grow
  | created _ hcreat _ hsearch _ _ hcreate =>
    exact ((sizesKept_searchFile hsearch).trans_grow
      (sizesGrow_fileCreate hcreate hcreat)).trans_kept (sizesKept_dirClose _ _)
  | opened _ _ hsearch _ _ hopen =>
    have hkept := sizesKept_searchFile hsearch
    rcases fileOpen_cases hopen with ⟨-, rfl, -⟩ | ⟨g, q, s₂, hopens⟩
    · exact hkept.grow
    · refine (hkept.trans (sizesKept_inodeOpen hopens.open_inode)).grow.trans_kept ?_
      rw [hopens.state]
      refine .of_eq ?_ fun p => ?_
      · rfl
      · exact apply_update_eq Inode.iSize (by rfl) p

end Sizes

/-! ## Runs -/

/-- The calls on files, by the task `pid`. -/
inductive IoCall
  | open (pid : ℕ) (path : List UInt8) (flags : ℕ)
  | close (pid fd : ℕ)
  | read (pid fd count : ℕ)
  | write (pid fd : ℕ) (buf : Buf) (count : ℕ)
  | lseek (pid fd : ℕ) (offset : ℤ) (whence : ℕ)

/-- The call, with what it finds in uninitialised variables. -/
def IoCall.exec (s : FileSys) : Uninit × IoCall → Outcome FileSys
  | (uninit, .open pid path flags) => do
    let (_, s) ← sysOpen s uninit pid path flags
    return s
  | (_, .close pid fd) => do
    let (_, s) ← sysClose s pid fd
    return s
  | (_, .read pid fd count) => do
    let (_, _, s) ← sysRead s pid fd count
    return s
  | (_, .write pid fd buf count) => do
    let (_, s) ← sysWrite s pid fd buf count
    return s
  | (_, .lseek pid fd offset whence) => do
    let (_, s) ← sysLseek s pid fd offset whence
    return s

/-- A call that meets the condition `P`. -/
def IoStep (P : FileSys → Uninit × IoCall → Prop) (s s' : FileSys) : Prop :=
  ∃ c, P s c ∧ IoCall.exec s c = .ok s'

/-- The offset of every open file is inside the file. -/
def OffsetsInside (s : FileSys) : Prop :=
  ∀ i q, (s.fileTable i).fdInode = some q → (s.fileTable i).fdPos ≤ (s.inodes q).iSize

/-- A write is not of 0 bytes to an empty file, and no size passes `2^32`: that of a file which is
written, or that of a directory which gets an entry. -/
def StaysInside (s : FileSys) : Uninit × IoCall → Prop
  | (_, .write pid fd _ count) => ∀ q, fdInode s pid fd = some q →
      WriteInside (s.inodes q).iSize count
  | (_, .open _ _ flags) => 4 ≤ flags → ∀ i q, (s.fileTable i).fdInode = some q →
      (s.inodes q).iSize + 24 < 4294967296
  | _ => True

/-- The invariant: the offsets are inside, and every size is a 32-bit number. -/
structure OffsetsOk (s : FileSys) : Prop where
  table : TableOk s
  inside : OffsetsInside s
  fits : ∀ q < s.brk, (s.inodes q).iSize < 4294967296

section Steps

variable {s s' : FileSys} {uninit : Uninit} {pid fd : ℕ} {res : Option ℕ} {i count : ℕ}

/-- The slots are as before or at offset 0, and the inodes are not shorter. -/
theorem OffsetsInside.of_slots (h : OffsetsInside s)
    (hsize : ∀ i q, (s.fileTable i).fdInode = some q →
      (s.inodes q).iSize ≤ (s'.inodes q).iSize)
    (hslot : ∀ i q, (s'.fileTable i).fdInode = some q →
      (s'.fileTable i).fdPos = 0 ∨ s'.fileTable i = s.fileTable i) : OffsetsInside s' := by
  intro i q hi
  rcases hslot i q hi with h0 | heq
  · rw [h0]
    exact Nat.zero_le _
  · rw [heq] at hi ⊢
    exact (h i q hi).trans (hsize i q hi)

theorem OffsetsOk.open {path : List UInt8} {flags : ℕ} (h : OffsetsOk s)
    (hc : StaysInside s (uninit, .open pid path flags))
    (hrun : sysOpen s uninit pid path flags = .ok (res, s')) : OffsetsOk s' := by
  have hgrow := sysOpen_sizes hrun
  have hfits : ∀ q < s'.brk, (s'.inodes q).iSize < 4294967296 := fun q hq => by
    by_cases hqs : q < s.brk
    · rcases hgrow.old q hqs with heq | ⟨-, heq⟩
      · rw [heq]
        exact h.fits q hqs
      · rw [heq]
        exact Nat.mod_lt _ (by omega)
    · exact hgrow.new q (not_lt.1 hqs) hq
  have hsize : ∀ i q, (s.fileTable i).fdInode = some q →
      (s.inodes q).iSize ≤ (s'.inodes q).iSize := fun i q hi => by
    rcases hgrow.old q (h.table.lt_brk i q hi) with heq | ⟨hcreat, heq⟩
    · exact heq.ge
    · rw [heq, Nat.mod_eq_of_lt (hc hcreat i q hi)]
      exact Nat.le_add_right _ _
  obtain ⟨hcells, hr | ⟨hflags, g, q, ht, hh, -⟩⟩ := sysOpen_effect h.table.holds hrun
  · exact ⟨h.table.refuses hr hcells.brk, h.inside.of_slots hsize fun i q hi =>
      Or.inr (hr.slots.eq_of_some hi), hfits⟩
  · refine ⟨h.table.takesSlot ht hcells.brk hflags hh, h.inside.of_slots hsize
      fun i q hi => ?_, hfits⟩
    by_cases hig : i = g
    · rw [hig, ht.eq_self]
      exact Or.inl rfl
    · exact Or.inr (ht.eq_of_ne hig)

theorem OffsetsOk.close {done : Bool} (h : OffsetsOk s)
    (hrun : sysClose s pid fd = .ok (done, s')) : OffsetsOk s' := by
  rcases sysClose_cases h.table.not_pipe hrun with ⟨-, rfl⟩ | ⟨-, -, i₀, q₀, hc⟩
  · exact h
  have hkept : SizesKept s s' := by
    have hdeny : SizesKept s (s.setInode q₀ { s.inodes q₀ with writeDeny := false }) :=
      .of_eq rfl fun q => apply_update_eq Inode.iSize (by rfl) q
    have hclose := hdeny.trans (sizesKept_inodeClose _ q₀)
    rw [hc.state]
    exact ⟨hclose.brk, hclose.old, hclose.new⟩
  refine ⟨h.table.closes hc, h.inside.of_slots (fun i q hi => ?_) fun i q hi =>
    Or.inr (hc.eq_of_some hi), fun q hq => ?_⟩
  · exact (hkept.old q (h.table.lt_brk i q hi)).ge
  · by_cases hqs : q < s.brk
    · rw [hkept.old q hqs]
      exact h.fits q hqs
    · exact hkept.new q (not_lt.1 hqs) hq

/-- A call that sets the offset of slot `i`, and may make its inode longer. -/
theorem OffsetsOk.setFile {q : ℕ} (h : OffsetsOk s) (hi : (s.fileTable i).fdInode = some q)
    (file : File) (ino : Inode) (p : Partition)
    (hsize : (s.inodes q).iSize ≤ ino.iSize ∧ ino.iSize < 4294967296)
    (hpos : file.fdPos ≤ ino.iSize) (hflag : file.fdFlag = (s.fileTable i).fdFlag)
    (hino : file.fdInode = (s.fileTable i).fdInode) :
    OffsetsOk { (s.setInode q ino).setFile i file with part := p } := by
  have hself : update s.fileTable i file i = file := update_self ..
  have hother : ∀ j, j ≠ i → update s.fileTable i file j = s.fileTable j := fun j hj =>
    update_of_ne hj ..
  have hslot : ∀ j, (update s.fileTable i file j).fdInode = (s.fileTable j).fdInode := by
    intro j
    by_cases hj : j = i
    · rw [hj, hself, hino]
    · rw [hother j hj]
  have hcell : ∀ q', (s.inodes q').iSize ≤ (update s.inodes q ino q').iSize := by
    intro q'
    by_cases hq : q' = q
    · rw [hq, update_self]
      exact hsize.1
    · rw [update_of_ne hq]
  refine ⟨⟨fun j q' hj => h.table.lt_brk j q' ((hslot j).symm.trans hj), fun j => ?_,
    h.table.holds.lt_brk, h.table.holds.root_lt, fun _ hp => absurd hp (lt_irrefl 0),
    fun _ => Nat.zero_le _⟩, fun j q' hj => ?_, fun q' hq' => ?_⟩
  · change (update s.fileTable i file j).fdFlag ≠ _
    by_cases hj : j = i
    · rw [hj, hself, hflag]
      exact h.table.not_pipe i
    · rw [hother j hj]
      exact h.table.not_pipe j
  · change (update s.fileTable i file j).fdPos ≤ (update s.inodes q ino q').iSize
    have hj : (s.fileTable j).fdInode = some q' := (hslot j).symm.trans hj
    by_cases hji : j = i
    · rw [hji, hi] at hj
      rw [hji, hself, ← Option.some.inj hj, update_self]
      exact hpos
    · rw [hother j hji]
      exact (h.inside j q' hj).trans (hcell q')
  · change (update s.inodes q ino q').iSize < _
    by_cases hq : q' = q
    · rw [hq, update_self]
      exact hsize.2
    · rw [update_of_ne hq]
      exact h.fits q' hq'

theorem OffsetsOk.read {bytes : List UInt8} (h : OffsetsOk s)
    (hrun : sysRead s pid fd count = .ok (res, bytes, s')) : OffsetsOk s' := by
  obtain ⟨i, q, file, hi, rfl, hread⟩ := sysRead_eq_ok hrun
  have hlt := h.fits q (h.table.lt_brk i q hi)
  obtain ⟨hpos, hflag, hino⟩ := fileRead_pos (h.inside i q hi) hlt hread
  have hset := h.setFile hi file _ s.part ⟨le_rfl, hlt⟩ hpos hflag hino
  rwa [FileSys.setInode_self] at hset

theorem OffsetsOk.write {buf : Buf} (h : OffsetsOk s)
    (hc : StaysInside s (uninit, .write pid fd buf count))
    (hrun : sysWrite s pid fd buf count = .ok (res, s')) : OffsetsOk s' := by
  obtain rfl | ⟨i, q, p, file, ino, hfd, hi, rfl, hwrite⟩ := sysWrite_eq_ok hrun
  · exact h
  obtain ⟨hsize, hpos, hflag, hino⟩ := fileWrite_pos (hc q hfd)
    (h.fits q (h.table.lt_brk i q hi)) (h.inside i q hi) hwrite
  exact h.setFile hi file ino p hsize hpos hflag hino

/-- What `sys_lseek` accepts is before the end of the file. -/
theorem toNat_le_of_seek {size : ℕ} {pos : ℤ} (hsize : size < 4294967296)
    (hpos : ¬ (pos < 0 ∨ toInt32 (toInt32 size - 1) < pos)) : pos.toNat ≤ size := by
  simp only [toInt32, Int.bmod_def] at hpos
  split at hpos <;> split at hpos <;> omega

theorem OffsetsOk.lseek {offset : ℤ} {whence : ℕ} (h : OffsetsOk s)
    (hrun : sysLseek s pid fd offset whence = .ok (res, s')) : OffsetsOk s' := by
  obtain ⟨_, -, hrun⟩ := bind_eq_ok.1 hrun
  obtain ⟨i, -, hrun⟩ := bind_eq_ok.1 hrun
  cases hi : (s.fileTable i).fdInode with
  | none =>
    simp only [hi] at hrun
    cases hrun
  | some q =>
    simp only [hi] at hrun
    have hlt := h.fits q (h.table.lt_brk i q hi)
    generalize seekPos _ _ offset whence = pos at hrun
    split at hrun
    · obtain ⟨-, rfl⟩ := ok_pair hrun
      exact h
    · next hpos =>
      obtain ⟨-, rfl⟩ := ok_pair hrun
      have hset := h.setFile hi ⟨pos.toNat, (s.fileTable i).fdFlag, some q⟩ _ s.part ⟨le_rfl, hlt⟩
        (toNat_le_of_seek hlt hpos) rfl hi.symm
      rwa [FileSys.setInode_self] at hset

/-- One call that meets the condition. -/
theorem OffsetsOk.step (h : OffsetsOk s) (hstep : IoStep StaysInside s s') : OffsetsOk s' := by
  obtain ⟨⟨uninit, c⟩, hc, hrun⟩ := hstep
  cases c with
  | «open» pid path flags =>
    obtain ⟨⟨fd, s₁⟩, hcall, hrun⟩ := bind_eq_ok.1 hrun
    obtain rfl := Except.ok.inj hrun
    exact h.open hc hcall
  | close pid fd =>
    obtain ⟨⟨done, s₁⟩, hcall, hrun⟩ := bind_eq_ok.1 hrun
    obtain rfl := Except.ok.inj hrun
    exact h.close hcall
  | read pid fd count =>
    obtain ⟨⟨n, bytes, s₁⟩, hcall, hrun⟩ := bind_eq_ok.1 hrun
    obtain rfl := Except.ok.inj hrun
    exact h.read hcall
  | write pid fd buf count =>
    obtain ⟨⟨n, s₁⟩, hcall, hrun⟩ := bind_eq_ok.1 hrun
    obtain rfl := Except.ok.inj hrun
    exact h.write hc hcall
  | lseek pid fd offset whence =>
    obtain ⟨⟨n, s₁⟩, hcall, hrun⟩ := bind_eq_ok.1 hrun
    obtain rfl := Except.ok.inj hrun
    exact h.lseek hcall

end Steps

/-- **Offsets stay inside.** From a state without open files, along every run of `sys_open`,
`sys_close`, `sys_read`, `sys_write` and `sys_lseek` by any processes whose calls stay inside, the
offset of every open file is at most its size. -/
theorem offsets_of_run {s₀ s : FileSys} (h₀ : FilesClosed s₀)
    (hfits : ∀ q < s₀.brk, (s₀.inodes q).iSize < 4294967296)
    (hrun : Relation.ReflTransGen (IoStep StaysInside) s₀ s) : OffsetsInside s := by
  have hinside : OffsetsInside s₀ := fun i q hi => by
    rw [(h₀.slots i).1] at hi
    cases hi
  have hok : OffsetsOk s := reach_invariant hrun ⟨h₀.tableOk, hinside, hfits⟩ OffsetsOk.step
  exact hok.inside

theorem smallRun_fits : ∀ q < smallRun.fs.brk, (smallRun.fs.inodes q).iSize < 4294967296 := by
  decide +kernel

/-- A file is made and 100 bytes are written: the offset is 99. -/
theorem offsets_hundred : ∃ s₁ s₂, IoCall.exec smallRun.fs (noUninit, .open 1 pathA 6) = .ok s₁ ∧
    IoCall.exec s₁ (noUninit, .write 1 3 zero 100) = .ok s₂ ∧
    (s₂.fileTable 3).fdPos = 99 ∧ OffsetsInside s₂ := by
  have hclosed := freshFs_filesClosed 0 4000 zero fun _ => zero
  obtain ⟨s₁, hopen, hs₁⟩ := exists_of_holds
    (o := IoCall.exec smallRun.fs (noUninit, .open 1 pathA 6))
    (f := fun s => decide (fdInode s 1 3 = some 1 ∧ (s.inodes 1).iSize = 0) &&
      holds (IoCall.exec s (noUninit, .write 1 3 zero 100)) fun s' => (s'.fileTable 3).fdPos = 99)
    (by decide +kernel)
  obtain ⟨hs₁, hwrite⟩ := Bool.and_eq_true_iff.1 hs₁
  obtain ⟨hfd, hsize⟩ := of_decide_eq_true hs₁
  obtain ⟨s₂, hwrite, hpos⟩ := exists_of_holds hwrite
  have hstep₁ : IoStep StaysInside smallRun.fs s₁ := by
    refine ⟨(noUninit, .open 1 pathA 6), fun _ i q hi => ?_, hopen⟩
    rw [show (smallRun.fs.fileTable i).fdInode = none from (hclosed.slots i).1] at hi
    cases hi
  have hstep₂ : IoStep StaysInside s₁ s₂ := by
    refine ⟨(noUninit, .write 1 3 zero 100), fun q hq => ?_, hwrite⟩
    rw [hfd] at hq
    rw [← Option.some.inj hq, hsize]
    exact fun _ => ⟨Or.inr (by omega), by omega⟩
  exact ⟨s₁, s₂, hopen, hwrite, of_decide_eq_true hpos,
    offsets_of_run hclosed smallRun_fits ((Relation.ReflTransGen.single hstep₁).tail hstep₂)⟩

/-- **An offset outside.** A file is made and 0 bytes are written to it: its size is 0 and the
offset is `2^32 - 1`. -/
theorem offset_of_empty_write : ∃ s,
    Relation.ReflTransGen (IoStep fun _ _ => True) smallRun.fs s ∧ ¬ OffsetsInside s := by
  obtain ⟨s, hrun, hs⟩ := exists_of_holds
    (o := runAll (fun _ _ => true) IoCall.exec smallRun.fs
      [(noUninit, .open 1 pathA 6), (noUninit, .write 1 3 zero 0)])
    (f := fun s => (s.fileTable 3).fdInode = some 1 ∧ (s.inodes 1).iSize = 0 ∧
      (s.fileTable 3).fdPos = 4294967295) (by decide +kernel)
  obtain ⟨hino, hsize, hpos⟩ := of_decide_eq_true hs
  refine ⟨s, reach_of_runAll (fun {_ _ c} _ hexec => ⟨c, trivial, hexec⟩) hrun, fun h => ?_⟩
  have hle := h 3 1 hino
  rw [hsize, hpos] at hle
  exact absurd hle (by decide)

end Gardos.Fs
