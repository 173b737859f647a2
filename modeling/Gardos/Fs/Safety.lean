import Gardos.Foundations.Outcome
import Gardos.Fs.Runs

/-!
# What holds in every run of the file system

Three properties of the file system, each in all states that a run of admissible calls reaches, and
for each a run that breaks it:

* `removal_exact`: a removal takes away exactly one name, and leaves no entry that names a free
  inode. `sys_rmdir` of a path that ends in `"."` releases the inode and keeps the entry.
* `ownership_exact`: the bits of the two bitmaps are those of the blocks and inodes in use. On a
  partition of fewer than eight data blocks the block of the root directory is marked free.
* `cache_fresh`: the inodes in memory are those on disk. `sys_rmdir` of a directory that is open
  leaves its inode in memory.
-/

namespace Gardos.Fs

open Bytes Outcome

/-! ## Runs -/

/-- A call that meets the condition `P`. -/
def CallStep (P : FsRun → Call → Prop) (x x' : FsRun) : Prop :=
  ∃ c uninit done, P x c ∧ exec uninit x c = .ok (done, x')

/-- Make the calls of a list, one after another. -/
def execAll (uninit : Uninit) : FsRun → List Call → Outcome FsRun :=
  runAll (fun _ _ => true) fun x c => (exec uninit x c).map Prod.snd

/-- The start of a run on a partition that has just been formatted and mounted. -/
def freshRun (startLba secCnt : ℕ) (pad : Buf) (hd : Disk) : FsRun where
  fs := freshFs startLba secCnt pad hd
  dirs := []

theorem freshRun_runOk {startLba secCnt : ℕ} {pad : Buf} {hd : Disk}
    (h : Formattable startLba secCnt) :
    RunOk (freshRun startLba secCnt pad hd) (Tree.single 0) [] := by
  have hslots : slotCells (freshFs startLba secCnt pad hd) = [] := by
    simp [slotCells, freshFs]
  refine ⟨?_, fun n hn => ?_, fun _ _ => rfl, fun _ => show 0 ≠ 65535 by omega, fun q hq => ?_,
    fun q hq => by cases hq⟩
  · have hheld : heldCells (freshRun startLba secCnt pad hd) [] = [0] := by
      simp only [heldCells, freshRun, hslots, List.filterMap_nil, List.append_nil]
      rfl
    rw [hheld, ← hold_holders]
    exact freshFs_fsOk h
  · rw [Tree.kind_single.1 hn]
    omega
  · change q ∈ slotCells (freshFs startLba secCnt pad hd) at hq
    rw [hslots] at hq
    cases hq

/-- The invariant along a run of admissible calls. -/
theorem RunOk.reach {x₀ x : FsRun} {t₀ : Tree ℕ (List UInt8)} {leak₀ : List ℕ}
    (h₀ : RunOk x₀ t₀ leak₀) (hx : Relation.ReflTransGen (CallStep Admissible) x₀ x) :
    ∃ t leak, RunOk x t leak := by
  refine reach_invariant (I := fun x => ∃ t leak, RunOk x t leak) hx ⟨t₀, leak₀, h₀⟩ ?_
  rintro x x' ⟨t, leak, h⟩ ⟨c, uninit, done, hc, hrun⟩
  obtain ⟨t', leak', h', -⟩ := h.step hc hrun
  exact ⟨t', leak', h'⟩

/-! ## Removals -/

/-- No directory entry names an inode whose bit is clear. -/
def NoDangling (p : Partition) : Prop :=
  ∀ d, ReachDir p.vol d → ∀ e ∈ liveEntries p.vol.data (p.vol.inode d),
    p.inodeBitmap.bit e.iNo = true

/-- The names after a step are those before it, less one. -/
def LosesOneName (p p' : Partition) : Prop :=
  ∃ d c n, NameEntry p.vol d c n ∧ ∀ d' c' n', NameEntry p'.vol d' c' n' ↔
    NameEntry p.vol d' c' n' ∧ ¬ (d' = d ∧ c' = c ∧ n' = n)

variable {p : Partition} {n d : ℕ} {t : Tree ℕ (List UInt8)} {c : List UInt8} {s : FileSys}

theorem Partition.bit_of_allocated (h : p.vol.allocated n = true) :
    p.inodeBitmap.bit n = true := (Bool.and_eq_true_iff.1 h).2

theorem Represents.noDangling (h : Represents p.vol t) : NoDangling p := fun _ hd _ he =>
  Partition.bit_of_allocated (h.entry_allocated hd he)

theorem Represents.losesOneName {p' : Partition} (h : Represents p.vol t)
    (hc : t.child d c = some n) (h' : Represents p'.vol (t.remove d c n)) : LosesOneName p p' := by
  refine ⟨d, c, n, h.nameEntry_iff.2 hc, fun d' c' n' => ?_⟩
  rw [h.nameEntry_iff, h'.nameEntry_iff, Tree.child_remove]
  by_cases hdc : d' = d ∧ c' = c
  · rw [if_pos hdc, hdc.1, hdc.2, hc]
    constructor
    · intro hn
      cases hn
    · rintro ⟨hn, hne⟩
      exact absurd ⟨rfl, rfl, (Option.some.inj hn).symm⟩ hne
  · rw [if_neg hdc]
    exact ⟨fun hn => ⟨hn, fun hall => hdc ⟨hall.1, hall.2.1⟩⟩, fun hn => hn.1⟩

/-- **Removals are exact.** In every run of admissible calls, an admissible `sys_rmdir` or
`sys_unlink` that succeeds leaves no dangling entry and takes away exactly one name. -/
theorem removal_exact (x₀ : FsRun) (t₀ : Tree ℕ (List UInt8)) (leak₀ : List ℕ)
    (h₀ : RunOk x₀ t₀ leak₀) (x : FsRun)
    (hx : Relation.ReflTransGen (CallStep Admissible) x₀ x) (path : List UInt8) (c : Call)
    (hc : c = .rmdir path ∨ c = .unlink path) (hadm : Admissible x c) (uninit : Uninit) (x' : FsRun)
    (hrun : exec uninit x c = .ok (true, x')) :
    NoDangling x'.fs.part ∧ LosesOneName x.fs.part x'.fs.part := by
  obtain ⟨t, leak, h⟩ := h₀.reach hx
  have hremoved : ∃ t', RunOk x' t' leak ∧ ∃ d c n, t.child d c = some n ∧ t' = t.remove d c n := by
    rcases hc with rfl | rfl
    · obtain ⟨⟨done, s'⟩, hcall, rfl, rfl⟩ := bind_pair_eq_ok hrun
      obtain ⟨t', h', hdone⟩ := h.rmdir hadm.1 hadm.2.1 (hadm.2.2 t h.fs.rep) hcall
      exact ⟨t', h', hdone rfl⟩
    · obtain ⟨⟨done, s'⟩, hcall, rfl, rfl⟩ := bind_pair_eq_ok hrun
      obtain ⟨t', h', hdone⟩ := h.unlink hadm hcall
      exact ⟨t', h', hdone rfl⟩
  obtain ⟨t', h', d, c, n, hchild, rfl⟩ := hremoved
  exact ⟨h'.fs.rep.noDangling, h.fs.rep.losesOneName hchild h'.fs.rep⟩

/-- A small partition, formatted and mounted. -/
def smallRun : FsRun := freshRun 0 4000 zero fun _ => zero

/-- The values of the uninitialised variables in the runs below. -/
def noUninit : Uninit := ⟨0, false⟩

/-- `"/a"`. -/
def pathA : List UInt8 := [47, 97]

theorem smallRun_runOk : RunOk smallRun (Tree.single 0) [] := freshRun_runOk ⟨by omega, by omega⟩

theorem pathArg_pathA : PathArg pathA :=
  Or.inr ⟨⟨rfl, by decide, by decide, by decide⟩, by decide⟩

/-- A path with one component makes an object in the root directory. -/
theorem NewName.root (h : NewName t path d c) (hone : (components path).length = 1) : d = 0 := by
  obtain ⟨init, hcs, hwalk⟩ := h.last
  have hinit : init = [] := by
    rw [hcs, List.length_append] at hone
    exact List.eq_nil_of_length_eq_zero (Nat.succ.inj hone)
  rw [hinit] at hwalk
  exact (Option.some.inj hwalk).symm

theorem roomToMake_root (hone : (components path).length = 1) {m : ℕ} (hm : m < 256)
    (hfree : s.part.vol.allocated m = false) (hsize : (s.part.vol.inode 0).iSize < 6048) :
    RoomToMake s path := by
  refine ⟨fun _ _ _ _ _ => ⟨m, hm, hfree⟩, fun _ _ d c hname => ?_⟩
  rw [hname.root hone]
  exact hsize

theorem roomToMake_smallRun : RoomToMake smallRun.fs pathA := by
  have hfmt : Formattable 0 4000 := ⟨by omega, by omega⟩
  refine roomToMake_root (by decide) (show 1 < 256 by decide) (Bool.eq_false_iff.2 fun h => ?_) ?_
  · exact absurd ((freshPartition_allocated hfmt 1).1 h) (by omega)
  · change ((freshPartition 0 4000 zero fun _ => zero).vol.inode 0).iSize < 6048
    rw [(freshPartition_root hfmt).iSize]
    change 48 < 6048
    omega

/-- `"/b"`. -/
def pathB : List UInt8 := [47, 98]

/-- A test for the calls in runs on fixed inputs, on `"/a"` and `"/b"`. -/
def Call.checked (x : FsRun) : Call → Bool
  | .open _ path flags => decide (path = pathA ∨ path = pathB) &&
      (flags < 4 || !x.fs.part.vol.allocated 9 && (x.fs.part.vol.inode 0).iSize < 6048)
  | .mkdir path => decide (path = pathA ∨ path = pathB) &&
      (!x.fs.part.vol.allocated 9 && (x.fs.part.vol.inode 0).iSize < 6048)
  | .opendir path => decide (path = pathA ∨ path = pathB)
  | .close _ _ => true
  | _ => false

theorem Call.admissible_of_checked {x : FsRun} {c : Call} (h : c.checked x = true) :
    Admissible x c := by
  have hpath : ∀ {path}, path = pathA ∨ path = pathB →
      PathArg path ∧ (components path).length = 1 := by
    rintro path (rfl | rfl)
    · exact ⟨pathArg_pathA, by decide⟩
    · exact ⟨Or.inr ⟨⟨rfl, by decide, by decide, by decide⟩, by decide⟩, by decide⟩
  unfold checked at h
  split at h
  · simp only [Bool.and_eq_true, Bool.or_eq_true, Bool.not_eq_true', decide_eq_true_eq] at h
    obtain ⟨hp, hone⟩ := hpath h.1
    refine ⟨hp, fun h4 => ?_⟩
    obtain ⟨hfree, hsize⟩ := h.2.resolve_left (not_lt.2 h4)
    exact roomToMake_root hone (by omega) hfree hsize
  · simp only [Bool.and_eq_true, Bool.not_eq_true', decide_eq_true_eq] at h
    obtain ⟨hp, hone⟩ := hpath h.1
    exact ⟨hp, roomToMake_root hone (by omega) h.2.1 h.2.2⟩
  · exact (hpath (of_decide_eq_true h)).1
  · exact trivial
  · cases h

/-- A run from `smallRun` that passes the tests. -/
theorem exists_run (cs : List Call) (f : FsRun → Bool)
    (h : holds (runAll Call.checked (fun x c => (exec noUninit x c).map Prod.snd) smallRun cs) f =
      true) :
    ∃ x, execAll noUninit smallRun cs = .ok x ∧
      RunIn (CallStep Admissible) cs.length smallRun x ∧ f x = true := by
  obtain ⟨x, hrun, hx⟩ := exists_of_holds h
  refine ⟨x, runAll_unchecked hrun, runIn_of_runAll (fun {x x' c} hc hexec => ?_) hrun, hx⟩
  cases hcall : exec noUninit x c with
  | error e =>
    rw [hcall] at hexec
    cases hexec
  | ok r =>
    rw [hcall] at hexec
    obtain rfl := Except.ok.inj hexec
    exact ⟨c, noUninit, r.1, Call.admissible_of_checked hc, hcall⟩

/-- A directory is made and removed again. -/
theorem removal_exact_pathA : ∃ x x', exec noUninit smallRun (.mkdir pathA) = .ok (true, x) ∧
    exec noUninit x (.rmdir pathA) = .ok (true, x') ∧
    NoDangling x'.fs.part ∧ LosesOneName x.fs.part x'.fs.part := by
  obtain ⟨⟨done, x⟩, hmk, hx⟩ := exists_of_holds (o := exec noUninit smallRun (.mkdir pathA))
    (f := fun r => r.1 && r.2.fs.openInodes = [0] && (r.2.fs.inodes 0).iNo = 0 &&
      holds (exec noUninit r.2 (.rmdir pathA)) fun r' => r'.1) (by decide +kernel)
  simp only [Bool.and_eq_true, decide_eq_true_eq] at hx
  obtain ⟨⟨⟨rfl, hopen⟩, hno⟩, hrm⟩ := hx
  obtain ⟨⟨done', x'⟩, hrun, hdone⟩ := exists_of_holds hrm
  obtain rfl : done' = true := hdone
  have hadm : Admissible x (.rmdir pathA) := by
    refine ⟨pathArg_pathA, by decide, fun t _ n hn _ _ => findInode_eq_none.2 fun q hq hqn => ?_⟩
    rw [hopen, List.mem_singleton] at hq
    rw [hq, hno] at hqn
    exact hn hqn.symm
  exact ⟨x, x', hmk, hrun, removal_exact smallRun _ _ smallRun_runOk x
    (.single ⟨.mkdir pathA, noUninit, true, ⟨pathArg_pathA, roomToMake_smallRun⟩, hmk⟩) pathA _
    (Or.inl rfl) hadm noUninit x' hrun⟩

/-- `rmdir("/a/.")` frees the inode of `"/a"`, and the entry in the root directory stays. -/
theorem dangling_of_rmdir_dot : ∃ x x', exec noUninit smallRun (.mkdir pathA) = .ok (true, x) ∧
    exec noUninit x (.rmdir (pathA ++ [47, 46])) = .ok (true, x') ∧ ¬ NoDangling x'.fs.part := by
  obtain ⟨⟨done, x⟩, hmk, hx⟩ := exists_of_holds (o := exec noUninit smallRun (.mkdir pathA))
    (f := fun r => r.1 && holds (exec noUninit r.2 (.rmdir (pathA ++ [47, 46]))) fun r' =>
      r'.1 && (liveEntries r'.2.fs.part.vol.data (r'.2.fs.part.vol.inode 0)).any fun e =>
        !r'.2.fs.part.inodeBitmap.bit e.iNo) (by decide +kernel)
  obtain ⟨hdone, hrm⟩ := Bool.and_eq_true_iff.1 hx
  obtain rfl : done = true := hdone
  obtain ⟨⟨done', x'⟩, hrun, hx'⟩ := exists_of_holds hrm
  obtain ⟨hdone', hany⟩ := Bool.and_eq_true_iff.1 hx'
  obtain rfl : done' = true := hdone'
  refine ⟨x, x', hmk, hrun, fun hno => ?_⟩
  obtain ⟨e, he, hbit⟩ := List.any_eq_true.1 hany
  rw [hno 0 .root e he] at hbit
  exact Bool.noConfusion hbit

/-! ## Ownership -/

/-- The bits of the bitmaps are those of the blocks and inodes in use. -/
structure OwnershipExact (p : Partition) : Prop where
  /-- The bit of a data block is set iff one allocated inode uses the block. -/
  blocks : ∀ i < blockBitmapBitLen p.secCnt, i < p.blockBitmap.bitLen →
    (p.blockBitmap.bit i = true ↔
      ∃! n, (n < 4096 ∧ p.inodeBitmap.bit n = true) ∧
        OwnsBlock p.vol.data (slot p n) (p.sb.dataStartLba + i))
  /-- No inode uses a block twice. -/
  once : ∀ n < 4096, p.inodeBitmap.bit n = true →
    (∀ j < 140, ∀ k < 140, allBlocks p.vol.data (slot p n) j ≠ 0 →
      allBlocks p.vol.data (slot p n) j = allBlocks p.vol.data (slot p n) k → j = k) ∧
    ((slot p n).iSectors 12 ≠ 0 → ∀ k < 140,
      allBlocks p.vol.data (slot p n) k ≠ (slot p n).iSectors 12)
  /-- The bit of an inode is set iff it is the root, or one entry of one directory names it. -/
  inodes : ∀ n < 4096, (p.inodeBitmap.bit n = true ↔ n = 0 ∨ ∃ d, ReachDir p.vol d ∧
    (∃ e, (namesIn p.vol d).filter (fun e => e.iNo = n) = [e]) ∧
    ∀ d', ReachDir p.vol d' → d' ≠ d → ∀ e ∈ namesIn p.vol d', e.iNo ≠ n)

theorem Partition.allocated_iff :
    p.vol.allocated n = true ↔ n < 4096 ∧ p.inodeBitmap.bit n = true := by
  simp [vol]

/-- **A volume that holds a tree** has exact bitmaps. -/
theorem Represents.ownershipExact (h : Represents p.vol t) : OwnershipExact p := by
  have howned := h.contents.owned
  have hkind : ∀ n, n < 4096 ∧ p.inodeBitmap.bit n = true ↔ t.kind n ≠ none := fun n => by
    rw [← Partition.allocated_iff, h.contents.alloc]
  refine ⟨fun i hi hlen => ?_, fun n hn hbit => ?_, fun n hn => ?_⟩
  · have hused : p.vol.used (p.sb.dataStartLba + i) = true ↔ p.blockBitmap.bit i = true := by
      rw [Partition.used_iff, Nat.add_sub_cancel_left]
      exact ⟨fun hb => hb.2.2, fun hb => ⟨Nat.le_add_right _ _, hlen, hb⟩⟩
    rw [← hused]
    constructor
    · intro hb
      obtain ⟨n, hn, hown⟩ := howned.owner _ (Nat.add_lt_add_left hi _) hb
      refine ⟨n, ⟨(hkind n).2 hn, ?_⟩, fun m hm => ?_⟩
      · rwa [← Partition.vol_inode ((hkind n).2 hn).1]
      · obtain ⟨hmk, hmo⟩ := hm
        rw [← Partition.vol_inode hmk.1] at hmo
        exact howned.disjoint m n _ ((hkind m).1 hmk) hn hmo hown
    · rintro ⟨n, ⟨hn, hown⟩, -⟩
      rw [← Partition.vol_inode hn.1] at hown
      exact (howned.blocks n ((hkind n).1 hn)).used_of_owns hown
  · have hB := howned.blocks n ((hkind n).1 ⟨hn, hbit⟩)
    rw [← Partition.vol_inode hn]
    exact ⟨hB.inj, fun ht k hk => hB.ne_table k hk ht⟩
  · rw [← h.named, Partition.allocated_iff]
    exact (and_iff_right hn).symm

/-- The calls of one task on paths without `"."` and `".."`, which exhaust nothing. -/
def Canonical (pid : ℕ) (x : FsRun) : Call → Prop
  | .open pid' path flags => pid' = pid ∧ flags = 6 ∧
      (PathArg path ∧ dot ∉ components path ∧ dotDot ∉ components path) ∧ RoomToMake x.fs path
  | .write pid' fd _ count => pid' = pid ∧ ∀ q, fdInode x.fs pid fd = some q →
      WriteRoom x.fs.part.vol (x.fs.inodes q) count
  | .close pid' _ => pid' = pid
  | .unlink path => PathArg path ∧ dot ∉ components path ∧ dotDot ∉ components path
  | .mkdir path =>
      (PathArg path ∧ dot ∉ components path ∧ dotDot ∉ components path) ∧ RoomToMake x.fs path
  | .rmdir path => PathArg path ∧ dot ∉ components path ∧ dotDot ∉ components path
  | _ => False

/-- When no directory has been handed out or left open, only the root and files are open. -/
theorem RunOk.namesNoOpenDir {x : FsRun} (h : RunOk x t []) (hdirs : x.dirs = []) (hn : n ≠ 0)
    (hk : t.kind n = some .dir) :
    findInode x.fs n = none := by
  refine findInode_eq_none.2 fun q hq hqn => ?_
  have hheld := h.held_of_open hq
  rw [heldCells, hdirs, List.mem_cons, List.mem_append] at hheld
  rcases hheld with rfl | hslot | hnil
  · exact hn (hqn.symm.trans h.fs.cache.root_iNo)
  · have hfile := h.files q hslot
    rw [hqn, hk] at hfile
    cases hfile
  · cases hnil

/-- Such a call leaves no directory open. -/
theorem RunOk.canonical {x x' : FsRun} {pid : ℕ} {uninit : Uninit} {done : Bool} (h : RunOk x t [])
    (hdirs : x.dirs = []) {c : Call} (hc : Canonical pid x c)
    (hrun : exec uninit x c = .ok (done, x')) : (∃ t', RunOk x' t' []) ∧ x'.dirs = [] := by
  cases c with
  | «open» pid' path flags =>
    obtain ⟨⟨fd, s'⟩, hcall, -, rfl⟩ := bind_pair_eq_ok hrun
    obtain ⟨-, rfl, ⟨hp, -⟩, hroom⟩ := hc
    obtain ⟨t', new, h', -, hnew⟩ := h.open hp (fun _ => hroom) hcall
    obtain rfl := hnew (by omega)
    exact ⟨⟨t', h'⟩, hdirs⟩
  | close pid' fd =>
    obtain ⟨⟨_, s'⟩, hcall, -, rfl⟩ := bind_pair_eq_ok hrun
    exact ⟨⟨t, h.close hcall⟩, hdirs⟩
  | write pid' fd buf count =>
    obtain ⟨⟨_, s'⟩, hcall, -, rfl⟩ := bind_pair_eq_ok hrun
    obtain ⟨rfl, hroom⟩ := hc
    exact ⟨⟨t, h.write hroom hcall⟩, hdirs⟩
  | unlink path =>
    obtain ⟨⟨_, s'⟩, hcall, -, rfl⟩ := bind_pair_eq_ok hrun
    obtain ⟨t', h', -⟩ := h.unlink hc.1 hcall
    exact ⟨⟨t', h'⟩, hdirs⟩
  | mkdir path =>
    obtain ⟨⟨_, s'⟩, hcall, -, rfl⟩ := bind_pair_eq_ok hrun
    obtain ⟨t', h'⟩ := h.mkdir hc.1.1 hc.2 hcall
    exact ⟨⟨t', h'⟩, hdirs⟩
  | rmdir path =>
    obtain ⟨⟨_, s'⟩, hcall, -, rfl⟩ := bind_pair_eq_ok hrun
    obtain ⟨hp, hdot, -⟩ := hc
    have hlast : (components path).getLast? ≠ some dot := fun hl =>
      hdot (List.mem_of_getLast? hl)
    obtain ⟨t', h', -⟩ := h.rmdir hp hlast
      (fun n hn hf _ => h.namesNoOpenDir hdirs hn (h.fs.kind_of_found hp hf)) hcall
    exact ⟨⟨t', h'⟩, hdirs⟩
  | read => exact absurd hc not_false
  | opendir => exact absurd hc not_false
  | closedir => exact absurd hc not_false
  | stat => exact absurd hc not_false
  | chdir => exact absurd hc not_false

/-- **Ownership is exact.** On a partition with at least eight data blocks that has just been
formatted and mounted, the bitmaps are exact after every run of `sys_open` with `O_CREAT|O_RDWR`,
`sys_write`, `sys_close`, `sys_unlink`, `sys_mkdir` and `sys_rmdir` by one task. -/
theorem ownership_exact (startLba secCnt : ℕ) (hfmt : Formattable startLba secCnt) (pad : Buf)
    (hd : Disk) (hmagic : (SuperBlock.ofBytes (hd (startLba + 1))).magic ≠ 0x19590318) (s : FileSys)
    (hs : filesysInit startLba secCnt pad hd = .ok s) (pid : ℕ) (x : FsRun)
    (hx : Relation.ReflTransGen (CallStep (Canonical pid)) { fs := s, dirs := [] } x) :
    OwnershipExact x.fs.part := by
  rw [filesysInit_eq hfmt hmagic] at hs
  obtain rfl := Except.ok.inj hs
  have hinv : (∃ t, RunOk x t []) ∧ x.dirs = [] := by
    refine reach_invariant (I := fun x => (∃ t, RunOk x t []) ∧ x.dirs = []) hx
      ⟨⟨_, freshRun_runOk hfmt⟩, rfl⟩ ?_
    rintro x x' ⟨⟨t, h⟩, hdirs⟩ ⟨c, uninit, done, hc, hrun⟩
    exact h.canonical hdirs hc hrun
  obtain ⟨⟨t, h⟩, -⟩ := hinv
  exact h.fs.rep.ownershipExact

/-- A file is made. -/
theorem ownership_exact_pathA : ∃ s x, filesysInit 0 4000 zero (fun _ => zero) = .ok s ∧
    exec noUninit { fs := s, dirs := [] } (.open 1 pathA 6) = .ok (true, x) ∧
    OwnershipExact x.fs.part := by
  have hfmt : Formattable 0 4000 := ⟨by omega, by omega⟩
  have hmagic : (SuperBlock.ofBytes (zero : Buf)).magic ≠ 0x19590318 := by decide
  have hinit := @filesysInit_eq _ _ zero (fun _ => zero) hfmt hmagic
  obtain ⟨⟨done, x⟩, hrun, hdone⟩ := exists_of_holds (o := exec noUninit smallRun (.open 1 pathA 6))
    (f := fun r => r.1) (by decide +kernel)
  obtain rfl : done = true := hdone
  have hc : Canonical 1 smallRun (.open 1 pathA 6) :=
    ⟨rfl, rfl, ⟨pathArg_pathA, by decide, by decide⟩, roomToMake_smallRun⟩
  exact ⟨_, x, hinit, hrun, ownership_exact 0 4000 hfmt zero (fun _ => zero) hmagic _ hinit 1 x
    (.single ⟨_, noUninit, true, hc, hrun⟩)⟩

/-- On a partition of 615 sectors, with three data blocks, the bit of the first block is clear. -/
theorem not_ownershipExact_615 : ∃ s x, filesysInit 0 615 zero (fun _ => zero) = .ok s ∧
    Canonical 1 { fs := s, dirs := [] } (.open 1 pathA 6) ∧
    exec noUninit { fs := s, dirs := [] } (.open 1 pathA 6) = .ok (true, x) ∧
    ¬ OwnershipExact x.fs.part := by
  obtain ⟨s, hs, hx⟩ := exists_of_holds (o := filesysInit 0 615 zero fun _ => zero)
    (f := fun s => !s.part.vol.allocated 1 && (s.part.vol.inode 0).iSize < 6048 &&
      holds (exec noUninit { fs := s, dirs := [] } (.open 1 pathA 6)) fun r =>
        r.1 && r.2.fs.part.secCnt = 615 && r.2.fs.part.blockBitmap.btmpBytesLen = 512 &&
        !r.2.fs.part.blockBitmap.bit 0 && r.2.fs.part.inodeBitmap.bit 0 &&
        (slot r.2.fs.part 0).iSectors 0 = r.2.fs.part.sb.dataStartLba &&
        r.2.fs.part.sb.dataStartLba = 612 &&
        ((List.range 13).all fun k => (slot r.2.fs.part 1).iSectors k = 0) &&
        (List.range 4096).all fun n => n = 0 || n = 1 || !r.2.fs.part.inodeBitmap.bit n)
    (by decide +kernel)
  simp only [Bool.and_eq_true, Bool.not_eq_true', decide_eq_true_eq] at hx
  obtain ⟨⟨hfree, hsize⟩, hx⟩ := hx
  obtain ⟨⟨done, x⟩, hrun, hx⟩ := exists_of_holds hx
  simp only [Bool.and_eq_true, Bool.not_eq_true', decide_eq_true_eq, List.all_eq_true,
    List.mem_range, Bool.or_eq_true] at hx
  obtain ⟨⟨⟨⟨⟨⟨⟨⟨rfl, hsec⟩, hlen⟩, hbit⟩, hroot⟩, hfirst⟩, hds⟩, hempty⟩, hothers⟩ := hx
  refine ⟨s, x, hs, ⟨rfl, rfl, ⟨pathArg_pathA, by decide, by decide⟩,
    roomToMake_root (by decide) (show 1 < 256 by decide) hfree hsize⟩, hrun, fun hexact => ?_⟩
  have hblock := (hexact.blocks 0 (by rw [hsec]; decide +kernel)
    (by rw [Bitmap.bitLen, hlen]; omega)).2 ⟨0, ⟨⟨by omega, hroot⟩, ?_⟩, ?_⟩
  · rw [hbit] at hblock
    exact Bool.noConfusion hblock
  · have h0 : allBlocks x.fs.part.vol.data (slot x.fs.part 0) 0 = x.fs.part.sb.dataStartLba := by
      rw [allBlocks_of_lt (by omega), hfirst]
    change OwnsBlock _ _ x.fs.part.sb.dataStartLba
    rw [← h0]
    exact ownsBlock_allBlocks (by omega) (by rw [h0, hds]; omega)
  · rintro n ⟨⟨hn, hbitn⟩, hown⟩
    rcases hothers n hn with (h0 | h1) | hclear
    · exact h0
    · rw [h1] at hown
      exact absurd hown (not_ownsBlock_of_zero hempty _)
    · rw [hbitn] at hclear
      exact Bool.noConfusion hclear

/-! ## The cache of inodes -/

/-- The inodes in memory are those on disk. -/
structure CacheFresh (s : FileSys) : Prop where
  nodup : s.openInodes.Nodup
  distinct : ∀ q ∈ s.openInodes, ∀ q' ∈ s.openInodes,
    (s.inodes q).iNo = (s.inodes q').iNo → q = q'
  allocated : ∀ q ∈ s.openInodes, s.part.inodeBitmap.bit (s.inodes q).iNo = true
  same : ∀ q ∈ s.openInodes, (s.inodes q).iSize = (slot s.part (s.inodes q).iNo).iSize ∧
    ∀ k < 13, (s.inodes q).iSectors k = (slot s.part (s.inodes q).iNo).iSectors k
  /-- Whether it finds the inode in memory or reads the disk, `inode_open` returns what is on the
  disk. -/
  reopen : ∀ n q s', inodeOpen s n = .ok (q, s') → (s'.inodes q).iSize = (slot s.part n).iSize ∧
    ∀ k < 13, (s'.inodes q).iSectors k = (slot s.part n).iSectors k

theorem FsOk.cacheFresh {r : ℕ → ℕ} (h : FsOk s t r) : CacheFresh s := by
  have hsame : ∀ q ∈ s.openInodes, (s.inodes q).iSize = (slot s.part (s.inodes q).iNo).iSize ∧
      ∀ k < 13, (s.inodes q).iSectors k = (slot s.part (s.inodes q).iNo).iSectors k := by
    intro q hq
    have hs := h.cache.same q hq
    rw [Partition.vol_inode (h.cache.lt q hq)] at hs
    exact ⟨hs.iSize, hs.iSectors⟩
  refine ⟨h.cache.nodup, h.cache.inj, fun q hq => ?_, hsame, fun n q s' hrun => ?_⟩
  · exact Partition.bit_of_allocated ((h.rep.contents.alloc _).2 (h.opened q hq))
  · rcases inodeOpen_cases hrun with ⟨hf, rfl⟩ | ⟨-, -, rfl, rfl⟩
    · obtain ⟨hq, hno⟩ := findInode_eq_some hf
      rw [shareInode, FileSys.setInode_inodes_self, ← hno]
      exact hsame q hq
    · have hcell : (loadInode s n).inodes s.brk = { slot s.part n with iOpenCnts := 1 } :=
        Function.update_self ..
      rw [hcell]
      exact ⟨rfl, fun _ _ => rfl⟩

/-- **The cache is fresh.** In every state that a run of admissible calls reaches, the inodes in
memory are those on disk. -/
theorem cache_fresh (x₀ : FsRun) (t₀ : Tree ℕ (List UInt8)) (leak₀ : List ℕ)
    (h₀ : RunOk x₀ t₀ leak₀) (x : FsRun)
    (hx : Relation.ReflTransGen (CallStep Admissible) x₀ x) : CacheFresh x.fs := by
  obtain ⟨t, leak, h⟩ := h₀.reach hx
  exact h.fs.cacheFresh

/-- A directory is made and opened. -/
theorem cache_fresh_pathA : ∃ x, execAll noUninit smallRun [.mkdir pathA, .opendir pathA] = .ok x ∧
    CacheFresh x.fs := by
  obtain ⟨x, hrun, hreach, -⟩ := exists_run [.mkdir pathA, .opendir pathA] (fun _ => true)
    (by decide +kernel)
  exact ⟨x, hrun, cache_fresh smallRun _ _ smallRun_runOk x hreach.reach⟩

/-- A directory that is open is removed: its inode stays in memory with its bit clear. -/
theorem not_cacheFresh_rmdir : ∃ x,
    execAll noUninit smallRun [.mkdir pathA, .opendir pathA, .rmdir pathA] = .ok x ∧
      ¬ CacheFresh x.fs := by
  obtain ⟨x, hx, hstale⟩ := exists_of_holds
    (o := execAll noUninit smallRun [.mkdir pathA, .opendir pathA, .rmdir pathA])
    (f := fun x => x.fs.openInodes.any fun q => !x.fs.part.inodeBitmap.bit (x.fs.inodes q).iNo)
    (by decide +kernel)
  refine ⟨x, hx, fun hfresh => ?_⟩
  obtain ⟨q, hq, hbit⟩ := List.any_eq_true.1 hstale
  rw [hfresh.allocated q hq] at hbit
  exact Bool.noConfusion hbit

/-- The invariant along a run of `k` calls: each leaves at most one more directory open. -/
theorem RunOk.reachIn {x₀ x : FsRun} {t₀ : Tree ℕ (List UInt8)} {k : ℕ} (h₀ : RunOk x₀ t₀ [])
    (hdirs : x₀.dirs = []) (hx : RunIn (CallStep Admissible) k x₀ x) :
    ∃ t leak, RunOk x t leak ∧ x.dirs.length + leak.length ≤ k := by
  have hinv := hx.invariant
    (I := fun k x => ∃ t leak, RunOk x t leak ∧ x.dirs.length + leak.length ≤ k) (k := 0) ?_
    ⟨t₀, [], h₀, by simp [hdirs]⟩
  · rwa [Nat.zero_add] at hinv
  · rintro k x x' ⟨t, leak, h, hle⟩ ⟨c, uninit, done, hc, hrun⟩
    obtain ⟨t', leak', h', hle'⟩ := h.step hc hrun
    exact ⟨t', leak', h', by omega⟩

/-- **A held inode is not freed**, in every run on a fresh partition: it is in `open_inodes` with a
count that covers its holders. The count does not wrap around: the run would have to be longer. -/
theorem held_open {lba n k : ℕ} {pad : Buf} {hd : Disk} {x : FsRun} (h : Formattable lba n)
    (hx : RunIn (CallStep Admissible) k (freshRun lba n pad hd) x) (hk : k + 33 < 4294967296) :
    ∀ q ∈ heldCells x [], q ∈ x.fs.openInodes ∧
      (heldCells x []).count q ≤ (x.fs.inodes q).iOpenCnts ∧
      (x.fs.inodes q).iOpenCnts < 4294967296 := by
  obtain ⟨t, leak, h, hle⟩ := (freshRun_runOk h).reachIn rfl hx
  have hsub : (heldCells x []).Sublist (heldCells x leak) := by simp [heldCells]
  have hlen : (heldCells x leak).length ≤ k + 33 := by
    have hslots := List.length_filterMap_le (fun i => (x.fs.fileTable i).fdInode) (List.range 32)
    have hdirs := List.length_filterMap_le DirPtr.cell x.dirs
    rw [List.length_range] at hslots
    simp only [heldCells, slotCells, List.length_cons, List.length_append]
    omega
  intro q hq
  have hopen := h.mem_open (hsub.mem hq)
  rw [h.fs.cache.cnt q hopen]
  exact ⟨hopen, hsub.count_le q, (List.count_le_length.trans hlen).trans_lt hk⟩

/-- A directory is made and opened, and a file is made: the root, the file and the directory. -/
theorem held_three : ∃ x,
    execAll noUninit smallRun [.mkdir pathA, .opendir pathA, .open 1 pathB 4] = .ok x ∧
    heldCells x [] = [0, 3, 2] ∧ ∀ q ∈ [0, 3, 2], q ∈ x.fs.openInodes ∧
      1 ≤ (x.fs.inodes q).iOpenCnts ∧ (x.fs.inodes q).iOpenCnts < 4294967296 := by
  obtain ⟨x, hrun, hreach, hx⟩ := exists_run [.mkdir pathA, .opendir pathA, .open 1 pathB 4]
    (fun x => heldCells x [] = [0, 3, 2]) (by decide +kernel)
  have hcells := of_decide_eq_true hx
  have h := held_open ⟨by omega, by omega⟩ hreach (by decide)
  rw [hcells] at h
  refine ⟨x, hrun, hcells, fun q hq => ?_⟩
  obtain ⟨hopen, hcount, hlt⟩ := h q hq
  exact ⟨hopen, (List.count_pos_iff.2 hq).trans_le hcount, hlt⟩

end Gardos.Fs
