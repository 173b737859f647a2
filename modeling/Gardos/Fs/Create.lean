import Gardos.Fs.DirContent
import Gardos.Fs.Calls

/-!
# Creating files and directories

What `file_create` and the second half of `sys_mkdir` do to the volume and to the state, for the
directory `parentDir` they are called on. Both take an inode number, add one entry to the directory
with `sync_dir_entry`, and write the inode of the directory and the new inode to their slots.
-/

namespace Gardos.Fs

open Bytes Outcome Function

section Create

variable {s s' : FileSys} {pid flag : ℕ} {dir : DirPtr} {name : List UInt8} {r : Option ℕ}
  {p p1 : Partition} {n lba : ℕ} {v : Volume}

/-- What the calls that add an entry to a directory rely on. -/
structure DirReady (s : FileSys) (dir : DirPtr) : Prop where
  layout : s.part.Layout
  ndebug : s.part.ndebug = false
  blocks : BlocksOk s.part.vol (s.inodes (s.dirInode dir))
  fits : (s.inodes (s.dirInode dir)).Fits
  lt_brk : s.dirInode dir < s.brk

/-- The first inode number that is free. -/
structure Volume.FreeNo (v : Volume) (n : ℕ) : Prop where
  lt : n < 4096
  free : v.allocated n = false
  before : ∀ m < n, v.allocated m = true

theorem vol_inodeBitmapAlloc {p' : Partition} (hL : p.Layout)
    (h : inodeBitmapAlloc p = .ok (some n, p')) :
    p.vol.FreeNo n ∧ p'.vol = p.vol.setAllocated n true := by
  obtain ⟨hn, rfl⟩ := Partition.inodeBitmapAlloc_eq_some h
  have hlt : n < 4096 := by
    have h1 := hn.lt
    have h2 := hL.inodeBitmap_len
    have h3 := hL.inodeBitmap_sects
    simp only [Bitmap.bitLen] at h1
    omega
  refine ⟨⟨hlt, by simp [Partition.vol, hn.clear], fun m hm => ?_⟩,
    Partition.vol_setInodeBit hlt true⟩
  simp [Partition.vol, hn.before m hm, hm.trans hlt]

theorem createDirEntry_eq_ok {t : FileTypes} {e : DirEntry} (h : createDirEntry name n t = .ok e) :
    name.length ≤ 16 ∧ e = .ofName name n t := by
  simp only [createDirEntry, bind_eq_ok, assert_eq_ok, pure_eq_ok] at h
  obtain ⟨-, hlen, rfl⟩ := h
  exact ⟨hlen, rfl⟩

/-- The two `inode_sync`s that end a creation. -/
theorem vol_inodeSync_inodeSync {p2 : Partition} {ino new : Inode} (hL : p.Layout) (hn : n < 4096)
    (hv : p.vol = v) (hf : ino.Fits) (hf' : new.Fits) (h1 : inodeSync p ino = .ok p1)
    (h2 : inodeSync p1 new = .ok p2) :
    (bitmapSync p2 n .inodeBitmap).vol =
      (v.setInode (ino.iNo % 256) ino.stored).setInode (new.iNo % 256) new.stored := by
  have hv1 := Partition.vol_inodeSync hL hf h1
  have hL1 := hL.of_geometry (congrArg Volume.geometry hv1)
  have hv2 := Partition.vol_inodeSync hL1 hf' h2
  have hL2 := hL1.of_geometry (congrArg Volume.geometry hv2)
  rw [Partition.vol_bitmapSync_inode hL2 hn, hv2, hv1, hv]

/-- The inodes in memory with a new cell for inode `n`. -/
def FileSys.newInodes (s : FileSys) (n : ℕ) : ℕ → Inode := update s.inodes s.brk (inodeInit n)

theorem FileSys.newInodes_of_lt {q : ℕ} (hq : q < s.brk) : s.newInodes n q = s.inodes q :=
  update_of_ne hq.ne _ _

/-- The cell of the new inode, once the directory has the inode `ino`. -/
theorem FileSys.update_newInodes_brk (hdir : s.dirInode dir < s.brk) (ino : Inode) :
    update (s.newInodes n) (s.dirInode dir) ino s.brk = inodeInit n :=
  (update_of_ne hdir.ne' _ _).trans (update_self ..)

/-- **How a run of `file_create` ends**, and the state it leaves. -/
inductive FileCreated (s : FileSys) (pid : ℕ) (dir : DirPtr) (name : List UInt8) (flag : ℕ) :
    Option ℕ → FileSys → Prop
  | noNumber {p : Partition} : inodeBitmapAlloc s.part = .ok (none, p) →
      FileCreated s pid dir name flag none s
  | noSlot {n : ℕ} {p : Partition} : inodeBitmapAlloc s.part = .ok (some n, p) →
      getFreeSlotInGlobal s = none →
      FileCreated s pid dir name flag none { s with
        part := { p with inodeBitmap := p.inodeBitmap.set n false }
        inodes := s.newInodes n
        brk := s.brk + 1 }
  | noEntry {n g : ℕ} {p p' : Partition} {ino : Inode} :
      inodeBitmapAlloc s.part = .ok (some n, p) → getFreeSlotInGlobal s = some g →
      syncDirEntry p (s.newInodes n (s.dirInode dir)) (.ofName name n .regular) =
        .ok (false, p', ino) →
      FileCreated s pid dir name flag none { s with
        part := { p' with inodeBitmap := p'.inodeBitmap.set n false }
        inodes := update (s.newInodes n) (s.dirInode dir) ino
        brk := s.brk + 1
        fileTable := update s.fileTable g ⟨0, 0, none⟩ }
  | created {n g : ℕ} {p p₁ p₂ p₃ : Partition} {ino : Inode} {r : Option ℕ} {s' : FileSys} :
      inodeBitmapAlloc s.part = .ok (some n, p) → getFreeSlotInGlobal s = some g →
      name.length ≤ 16 →
      syncDirEntry p (s.newInodes n (s.dirInode dir)) (.ofName name n .regular) =
        .ok (true, p₁, ino) →
      inodeSync p₁ ino = .ok p₂ →
      inodeSync p₂ (update (s.newInodes n) (s.dirInode dir) ino s.brk) = .ok p₃ →
      pcbFdInstall { s with
        part := bitmapSync p₃ n .inodeBitmap
        inodes := update (update (s.newInodes n) (s.dirInode dir) ino) s.brk
          { update (s.newInodes n) (s.dirInode dir) ino s.brk with iOpenCnts := 1 }
        brk := s.brk + 1
        openInodes := s.brk :: s.openInodes
        fileTable := update s.fileTable g ⟨0, flag, some s.brk⟩ } pid g = (r, s') →
      FileCreated s pid dir name flag r s'

theorem FileCreated.of_fileCreate (h : fileCreate s pid dir name flag = .ok (r, s')) :
    FileCreated s pid dir name flag r s' := by
  obtain ⟨⟨o, p⟩, halloc, h⟩ := bind_eq_ok.1 h
  cases o with
  | none =>
    obtain ⟨rfl, rfl⟩ := ok_pair h
    exact .noNumber halloc
  | some n =>
    dsimp only at h
    have hslot : getFreeSlotInGlobal (FileSys.newCell { s with part := p } (inodeInit n)) =
        getFreeSlotInGlobal s := rfl
    rw [hslot] at h
    cases hg : getFreeSlotInGlobal s with
    | none =>
      rw [hg] at h
      obtain ⟨rfl, rfl⟩ := ok_pair h
      exact .noSlot halloc hg
    | some g =>
      rw [hg] at h
      obtain ⟨e, he, h⟩ := bind_eq_ok.1 h
      obtain ⟨hlen, rfl⟩ := createDirEntry_eq_ok he
      obtain ⟨⟨done, p₁, ino⟩, hsync, h⟩ := bind_eq_ok.1 h
      cases done with
      | false =>
        obtain ⟨rfl, rfl⟩ := ok_pair h
        have hend := @FileCreated.noEntry _ pid _ _ flag _ _ _ _ _ halloc hg hsync
        rwa [← update_idem (⟨0, flag, some s.brk⟩ : File) _ s.fileTable] at hend
      | true =>
        obtain ⟨p₂, hsync₁, h⟩ := bind_eq_ok.1 h
        obtain ⟨p₃, hsync₂, h⟩ := bind_eq_ok.1 h
        have hino : update (s.newInodes n) (s.dirInode dir) ino (s.dirInode dir) = ino :=
          update_self ..
        exact .created halloc hg hlen hsync (hino ▸ hsync₁) hsync₂ (Except.ok.inj h)

theorem inodeInit_stored (n : ℕ) : (inodeInit n).stored = inodeInit n := by
  simp [Inode.stored, Inode.pure, inodeInit]

/-- A number that is taken and given back. -/
theorem vol_setInodeBit_setInodeBit (hn : n < 4096) (hfree : p.vol.allocated n = false)
    (hv : p1.vol = p.vol.setAllocated n true) :
    { p1 with inodeBitmap := p1.inodeBitmap.set n false }.vol = p.vol := by
  rw [Partition.vol_setInodeBit hn, hv]
  refine Volume.ext rfl rfl ?_ rfl rfl
  simp only [Volume.setAllocated, update_idem]
  rw [← hfree, update_eq_self]

/-- A call that found no free number or slot: at most a cell that nothing refers to is used. -/
structure Unchanged (s s' : FileSys) : Prop where
  vol : s'.part.vol = s.part.vol
  ndebug : s'.part.ndebug = s.part.ndebug
  inodes : ∀ q < s.brk, s'.inodes q = s.inodes q
  brk : s.brk ≤ s'.brk
  openInodes : s'.openInodes = s.openInodes
  rootInode : s'.rootInode = s.rootInode
  fileTable : s'.fileTable = s.fileTable
  fdTable : s'.fdTable = s.fdTable

theorem Unchanged.refl (s : FileSys) : Unchanged s s :=
  ⟨rfl, rfl, fun _ _ => rfl, le_rfl, rfl, rfl, rfl, rfl⟩

/-- The state after `file_create` has entered file `n`, before its descriptor is installed. -/
def createdState (s : FileSys) (q n g flag : ℕ) (p : Partition) (dirInode : Inode) : FileSys :=
  { part := p
    inodes := update (update s.inodes q dirInode) s.brk
      { inodeInit n with iOpenCnts := 1 }
    brk := s.brk + 1
    openInodes := s.brk :: s.openInodes
    rootInode := s.rootInode
    fileTable := update s.fileTable g
      { fdPos := 0, fdFlag := flag, fdInode := some s.brk }
    fdTable := s.fdTable }

theorem createdState_inodes_brk (s : FileSys) (q n g flag : ℕ) (p : Partition) (dirInode : Inode) :
    (createdState s q n g flag p dirInode).inodes s.brk = { inodeInit n with iOpenCnts := 1 } :=
  update_self ..

/-- **What `file_create` does**: nothing, if it finds no inode number or no slot of the file
table; otherwise it takes a number, adds an entry to the directory and stores both inodes. -/
theorem fileCreate_cases (hd : DirReady s dir)
    (h : fileCreate s pid dir name flag = .ok (r, s')) :
    (r = none ∧ Unchanged s s') ∨
    ∃ n g v ino p, s.part.vol.FreeNo n ∧ getFreeSlotInGlobal s = some g ∧
      name.length ≤ 16 ∧
      DirInsert (s.part.vol.setAllocated n true) (s.inodes (s.dirInode dir))
        (.ofName name n .regular) v ino ∧
      p.vol = (v.setInode (ino.iNo % 256) ino.stored).setInode (n % 256) (inodeInit n) ∧
      (r, s') = pcbFdInstall (createdState s (s.dirInode dir) n g flag p ino) pid g := by
  cases FileCreated.of_fileCreate h with
  | noNumber => exact Or.inl ⟨rfl, Unchanged.refl s⟩
  | @noSlot n p1 halloc =>
    obtain ⟨hno, hv1⟩ := vol_inodeBitmapAlloc hd.layout halloc
    exact Or.inl ⟨rfl, vol_setInodeBit_setInodeBit hno.lt hno.free hv1,
      congrArg (·.geometry.ndebug) hv1, fun q => FileSys.newInodes_of_lt, Nat.le_succ _, rfl, rfl,
      rfl, rfl⟩
  | noEntry halloc _ hsync =>
    obtain ⟨-, hv1⟩ := vol_inodeBitmapAlloc hd.layout halloc
    exact absurd hsync (syncDirEntry_ne_false ((congrArg (·.geometry.ndebug) hv1).trans hd.ndebug))
  | @created n g p1 _ _ p3 ino _ _ halloc hslot hlen hsync h1 h2 hinst =>
    obtain ⟨hno, hv1⟩ := vol_inodeBitmapAlloc hd.layout halloc
    have hL := hd.layout.of_geometry (congrArg Volume.geometry hv1)
    have hB : BlocksOk p1.vol (s.inodes (s.dirInode dir)) :=
      hv1 ▸ (Volume.Extends.setAllocated _ n true).blocksOk hd.blocks
    rw [FileSys.newInodes_of_lt hd.lt_brk] at hsync
    rw [FileSys.update_newInodes_brk hd.lt_brk] at h2 hinst
    have hins := syncDirEntry_eq_true hL hB hsync
    have hv := vol_inodeSync_inodeSync (hL.of_geometry hins.geometry) hno.lt rfl
      (hins.fits hL.addressable hd.fits) (inodeInit_fits (by have := hno.lt; omega)) h1 h2
    rw [inodeInit_stored] at hv
    rw [hv1] at hins
    refine Or.inr ⟨n, g, _, ino, _, hno, hslot, hlen, hins, hv, ?_⟩
    rw [← hinst, FileSys.newInodes, update_comm hd.lt_brk.ne', update_idem]
    rfl

/-- The inode of a new directory with its first block. -/
def newDirInode (n lba : ℕ) : Inode := { (inodeInit n).setSector 0 lba with iSize := 48 }

/-- A volume on which number `n` and block `lba` have been taken for a new directory in directory
`parentNo`. -/
def Volume.newDir (v : Volume) (n lba parentNo : ℕ) : Volume :=
  ((v.setAllocated n true).setUsed lba true).write lba (newDirSector n parentNo)

theorem newDirInode_fits (hn : n < 4096) (hl : lba < 4294967296) :
    (newDirInode n lba).Fits where
  iNo := by simp only [newDirInode, Inode.setSector, inodeInit]; omega
  iSize := by simp [newDirInode]
  iSectors k _ := by
    simp only [newDirInode, setSector_iSectors, inodeInit]
    split <;> omega

theorem Volume.Extends.newDir (hfree : v.Free lba) (n parentNo : ℕ) :
    v.Extends (v.newDir n lba parentNo) := by
  have hfree' : (v.setAllocated n true).Free lba := ⟨hfree.1, hfree.2, hfree.3⟩
  exact (Volume.Extends.setAllocated v n true).trans (.write_free hfree' _)

/-- **What the second half of `sys_mkdir` does**: it takes a number and a block for the new
directory, writes `"."` and `".."`, adds an entry to the parent, and stores both inodes. -/
theorem mkdirIn_cases (hd : DirReady s dir) {done : Bool}
    (h : mkdirIn s dir name = .ok (done, s')) :
    (done = false ∧ s' = s) ∨
    ∃ n lba v ino p, done = true ∧ s.part.vol.FreeNo n ∧
      s.part.vol.Free lba ∧ name.length ≤ 16 ∧
      DirInsert (s.part.vol.newDir n lba (s.inodes (s.dirInode dir)).iNo)
        (s.inodes (s.dirInode dir)) (.ofName name n .directory) v ino ∧
      p.vol = (v.setInode (ino.iNo % 256) ino.stored).setInode (n % 256)
        (newDirInode n lba).stored ∧
      s' = { s.setInode (s.dirInode dir) ino with part := p } := by
  obtain ⟨⟨o, p1⟩, halloc, h⟩ := bind_eq_ok.1 h
  cases o with
  | none =>
    obtain ⟨rfl, rfl⟩ := ok_pair h
    exact Or.inl ⟨rfl, rfl⟩
  | some n =>
    obtain ⟨hno, hv1⟩ := vol_inodeBitmapAlloc hd.layout halloc
    have hn := hno.lt
    have hnd1 : p1.ndebug = false := (congrArg (·.geometry.ndebug) hv1).trans hd.ndebug
    have hL1 := hd.layout.of_geometry (congrArg Volume.geometry hv1)
    obtain ⟨⟨o2, p2⟩, halloc2, h⟩ := bind_eq_ok.1 h
    cases o2 with
    | none => exact absurd halloc2 (Partition.blockBitmapAlloc_ne_none hnd1)
    | some lba =>
      obtain ⟨-, -, h⟩ := bind_eq_ok.1 h
      obtain ⟨hlba, hv2⟩ := exists_takeBlock hL1 halloc2
      rw [hv1] at hlba hv2
      replace hlba : s.part.vol.Free lba := ⟨hlba.1, hlba.2, hlba.3⟩
      obtain ⟨e, he, h⟩ := bind_eq_ok.1 h
      obtain ⟨hlen, rfl⟩ := createDirEntry_eq_ok he
      obtain ⟨⟨ok, p4, ino⟩, hsync, h⟩ := bind_eq_ok.1 h
      set p3 := bitmapSync p2 (blockBitmapIdx p2 lba) .blockBitmap
      have hgeo3 := congrArg Volume.geometry hv2
      have hsb3 : p3.sb = s.part.sb := congrArg Geometry.sb hgeo3
      have hL3 : p3.Layout := hd.layout.of_geometry hgeo3
      have hle : p3.sb.dataStartLba ≤ lba := by
        rw [hsb3]
        exact hlba.start
      set sec := newDirSector n (s.inodes (s.dirInode dir)).iNo
      have hv3 := Partition.vol_write hL3 hle sec
      rw [hv2] at hv3
      set p3' : Partition := { p3 with disk := ideWrite p3.disk lba sec }
      have hL3' : p3'.Layout := hL3.of_geometry rfl
      have hnd3 : p3'.ndebug = false := (congrArg (·.geometry.ndebug) hv2).trans hd.ndebug
      have hB3 : BlocksOk p3'.vol (s.inodes (s.dirInode dir)) := by
        rw [hv3]
        exact (Volume.Extends.newDir hlba n _).blocksOk hd.blocks
      cases ok with
      | false => exact absurd hsync (syncDirEntry_ne_false hnd3)
      | true =>
        have hins := syncDirEntry_eq_true hL3' hB3 hsync
        have hL4 := hL3'.of_geometry hins.geometry
        obtain ⟨p5, h1, h⟩ := bind_eq_ok.1 h
        obtain ⟨p6, h2, h⟩ := bind_eq_ok.1 h
        simp only [FileSys.setInode, update_self] at h h1
        have hv := vol_inodeSync_inodeSync hL4 hn rfl (hins.fits hL3'.addressable hd.fits)
          (newDirInode_fits hn (hlba.lt_word hd.layout.addressable)) h1 h2
        obtain ⟨rfl, rfl⟩ := ok_pair h
        rw [hv3] at hins
        exact Or.inr ⟨n, lba, _, ino, _, rfl, hno, hlba, hlen, hins, hv, rfl⟩

end Create

/-! ## Finding what has been created -/

/-- A call of `file_create`, or of the second half of `sys_mkdir`, in a directory. -/
inductive DirCall
  | create (pid : ℕ) (name : List UInt8) (flag : ℕ)
  | mkdir (name : List UInt8)

/-- The name a call creates. -/
def DirCall.name : DirCall → List UInt8
  | create _ name _ => name
  | mkdir name => name

/-- The call, with whether it reports success. -/
def DirCall.exec (s : FileSys) (dir : DirPtr) : DirCall → Outcome (Bool × FileSys)
  | create pid name flag => do
    let (fd, s) ← fileCreate s pid dir name flag
    return (fd.isSome, s)
  | mkdir name => mkdirIn s dir name

/-- A call in directory `dir` that finds room for its entry and has a name of at most 15 bytes,
the length that leaves space for the NUL. -/
def DirCall.Admissible (s : FileSys) (dir : DirPtr) (c : DirCall) : Prop :=
  RoomForEntry s.part.disk (s.inodes (s.dirInode dir)) ∧ c.name.length ≤ 15

/-- A run of admissible calls in directory `dir`, with the names created so far. -/
inductive DirRun (dir : DirPtr) (s₀ : FileSys) : List (List UInt8) → FileSys → Prop
  | start : DirRun dir s₀ [] s₀
  | step {names : List (List UInt8)} {s s' : FileSys} {c : DirCall} {done : Bool}
      (h : DirRun dir s₀ names s) (ha : c.Admissible s dir) (hc : c.exec s dir = .ok (done, s')) :
      DirRun dir s₀ (if done then c.name :: names else names) s'

section Run

variable {s s' : FileSys} {dir : DirPtr}

/-- A directory keeps its entries from `s` to `s'`. -/
structure DirKept (s s' : FileSys) (dir : DirPtr) : Prop where
  ready : DirReady s' dir
  kept : ∀ e ∈ liveEntries s.part.disk (s.inodes (s.dirInode dir)),
    e ∈ liveEntries s'.part.disk (s'.inodes (s'.dirInode dir))

theorem DirKept.of_unchanged (hd : DirReady s dir) (h : Unchanged s s') : DirKept s s' dir := by
  have hdir : s'.dirInode dir = s.dirInode dir := by
    cases dir with
    | rootDir => exact h.rootInode
    | heap q => rfl
  have hino : s'.inodes (s'.dirInode dir) = s.inodes (s.dirInode dir) := by
    rw [hdir]
    exact h.inodes _ hd.lt_brk
  have hready : DirReady s' dir := by
    refine ⟨hd.layout.of_geometry (congrArg Volume.geometry h.vol), h.ndebug.trans hd.ndebug,
      ?_, ?_, ?_⟩
    · rw [hino, h.vol]
      exact hd.blocks
    · rw [hino]
      exact hd.fits
    · rw [hdir]
      exact hd.lt_brk.trans_le h.brk
  refine ⟨hready, fun e he => ?_⟩
  rw [hready.blocks.liveEntries_vol, hino, h.vol]
  rwa [hd.blocks.liveEntries_vol] at he

/-- A state in which an entry has been stored in the directory. -/
theorem DirKept.of_insert (s' : FileSys) (hd : DirReady s dir) {v₁ v : Volume} {ino : Inode}
    {e : DirEntry} (hr : RoomForEntry s.part.disk (s.inodes (s.dirInode dir))) (hl : e.Live)
    (hf : e.Fits) (hx : s.part.vol.Extends v₁) (hgeo : v₁.geometry = s.part.vol.geometry)
    (hins : DirInsert v₁ (s.inodes (s.dirInode dir)) e v ino)
    (hx' : v.Extends s'.part.vol) (hgeo' : s'.part.vol.geometry = v.geometry)
    (hbrk : s.brk ≤ s'.brk) (hdir : s'.dirInode dir = s.dirInode dir)
    (hino : s'.inodes (s.dirInode dir) = ino) :
    DirKept s s' dir ∧ e ∈ liveEntries s'.part.disk (s'.inodes (s'.dirInode dir)) := by
  have hgeo'' : s'.part.geometry = s.part.geometry := (hgeo'.trans hins.geometry).trans hgeo
  have ha : v₁.Addressable :=
    ⟨hgeo ▸ hd.layout.addressable.pos, hgeo ▸ hd.layout.addressable.lt⟩
  have hB := hx.blocksOk hd.blocks
  have hroom : RoomForEntry v₁.data (s.inodes (s.dirInode dir)) := by
    rw [hd.blocks.roomForEntry_vol] at hr
    exact (roomForEntry_congr (fun ht => hx.data _ (hd.blocks.table_used ht))
      fun k hk hne => hx.data _ (hd.blocks.used k hk hne)).2 hr
  have hB' := hins.blocksOk ha hB
  have hready : DirReady s' dir := by
    refine ⟨hd.layout.of_geometry hgeo'', (congrArg Geometry.ndebug hgeo'').trans hd.ndebug,
      ?_, ?_, ?_⟩
    · rw [hdir, hino]
      exact hx'.blocksOk hB'
    · rw [hdir, hino]
      exact hins.fits ha hd.fits
    · rw [hdir]
      exact hd.lt_brk.trans_le hbrk
  have hperm : (liveEntries s'.part.disk (s'.inodes (s'.dirInode dir))).Perm
      (e :: liveEntries s.part.disk (s.inodes (s.dirInode dir))) := by
    rw [hready.blocks.liveEntries_vol, hd.blocks.liveEntries_vol, hdir, hino,
      hx'.liveEntries_eq hB', ← hx.liveEntries_eq hd.blocks]
    exact hins.perm ha hB hl hf hroom
  exact ⟨⟨hready, fun x hx => hperm.mem_iff.2 (List.mem_cons_of_mem _ hx)⟩,
    hperm.mem_iff.2 List.mem_cons_self⟩

theorem pcbFdInstall_frame {pid g : ℕ} {r : Option ℕ} (h : (r, s') = pcbFdInstall s pid g) :
    s' = { s with fdTable := s'.fdTable } := by
  simp only [pcbFdInstall] at h
  split at h <;> (obtain ⟨-, rfl⟩ := Prod.mk.inj h; rfl)

/-- **One call** keeps the entries of the directory, and enters its name if it succeeds. -/
theorem DirCall.exec_kept (hd : DirReady s dir) {c : DirCall} {done : Bool}
    (ha : c.Admissible s dir) (h : c.exec s dir = .ok (done, s')) :
    DirKept s s' dir ∧ (done = true → ∃ e ∈ liveEntries s'.part.disk (s'.inodes (s'.dirInode dir)),
      strEq e.bytes c.name = true) := by
  obtain ⟨hr, hlen⟩ := ha
  cases c with
  | create pid name flag =>
    obtain ⟨⟨fd, s1⟩, hc, rfl, rfl⟩ := bind_pair_eq_ok h
    rcases fileCreate_cases hd hc with ⟨rfl, hu⟩ |
      ⟨n, g, v, ino, p, ⟨hn, -, -⟩, -, -, hins, hv, hinst⟩
    · exact ⟨DirKept.of_unchanged hd hu, fun h => nomatch h⟩
    · have hframe := pcbFdInstall_frame hinst
      have hpart : s1.part = p := by rw [hframe]; rfl
      have hx : v.Extends s1.part.vol := by
        rw [hpart, hv]
        exact (Volume.Extends.setInode _ _ _).trans (.setInode _ _ _)
      obtain ⟨hkept, hmem⟩ := DirKept.of_insert s1 hd hr
        (ofName_live (by decide)) (ofName_fits hn) (.setAllocated _ n true) rfl hins hx
        (by rw [hpart, hv]; rfl) (by rw [hframe]; exact Nat.le_succ _)
        (by rw [hframe]; cases dir <;> rfl)
        (by rw [hframe]; simp [createdState, hd.lt_brk.ne])
      exact ⟨hkept, fun _ => ⟨_, hmem, strEq_ofName hlen _ _⟩⟩
  | mkdir name =>
    rcases mkdirIn_cases hd h with ⟨rfl, rfl⟩ |
      ⟨n, lba, v, ino, p, rfl, ⟨hn, -, -⟩, hlba, -, hins, hv, rfl⟩
    · exact ⟨DirKept.of_unchanged hd (Unchanged.refl _), fun h => nomatch h⟩
    · obtain ⟨hkept, hmem⟩ := DirKept.of_insert
        { s.setInode (s.dirInode dir) ino with part := p } hd hr
        (ofName_live (by decide)) (ofName_fits hn) (.newDir hlba n _) rfl hins
        (by rw [hv]; exact (Volume.Extends.setInode _ _ _).trans (.setInode _ _ _))
        (by rw [hv]; rfl) le_rfl (by cases dir <;> rfl)
        (by simp [FileSys.setInode])
      exact ⟨hkept, fun _ => ⟨_, hmem, strEq_ofName hlen _ _⟩⟩

/-- **A run of calls** in one directory: every name that was created is found. -/
theorem DirRun.found {s₀ : FileSys} (hd : DirReady s₀ dir) {names : List (List UInt8)}
    (h : DirRun dir s₀ names s) : DirReady s dir ∧ ∀ name ∈ names, name.length ≤ 15 ∧
      ∃ e ∈ liveEntries s.part.disk (s.inodes (s.dirInode dir)), strEq e.bytes name = true := by
  induction h with
  | start => exact ⟨hd, fun _ h => nomatch h⟩
  | @step names s s' c done h ha hc ih =>
    obtain ⟨hready, hold⟩ := ih
    obtain ⟨hkept, hnew⟩ := DirCall.exec_kept hready ha hc
    refine ⟨hkept.ready, fun name hmem => ?_⟩
    have hcase : name ∈ names ∨ (done = true ∧ name = c.name) := by
      cases done with
      | false => exact Or.inl hmem
      | true => exact (List.mem_cons.1 hmem).symm.imp_right fun h => ⟨rfl, h⟩
    rcases hcase with hmem | ⟨hdone, rfl⟩
    · obtain ⟨hlen, e, he, hname⟩ := hold name hmem
      exact ⟨hlen, e, hkept.kept e he, hname⟩
    · exact ⟨ha.2, hnew hdone⟩

/-- **Directory entries and creations.** When `sync_dir_entry` reports success on a well-formed
directory, the directory afterwards holds its old entries and the new one exactly if there was
room for it. And in every run of creations that each find room, every created name is found. -/
theorem dirEntries_kept_iff_room (p p' : Partition) (ino ino' : Inode) (e : DirEntry)
    (s₀ s : FileSys) (dir : DirPtr) (names : List (List UInt8)) :
    (p.Layout → BlocksOk p.vol ino → (liveEntries p.disk ino).Nodup → e.Live → e.Fits →
      e ∉ liveEntries p.disk ino → syncDirEntry p ino e = .ok (true, p', ino') →
      (AddsEntry p.disk ino e p'.disk ino' ↔ RoomForEntry p.disk ino)) ∧
    (DirReady s₀ dir → DirRun dir s₀ names s → ∀ name ∈ names,
      (searchDirEntry s.part.disk (s.inodes (s.dirInode dir)) name).isSome = true) := by
  refine ⟨fun hL hB hnd hl hf hnew h => syncDirEntry_addsEntry_iff hL hB hnd hl hf hnew h,
    fun hd hrun name hmem => ?_⟩
  obtain ⟨-, hall⟩ := hrun.found hd
  obtain ⟨hlen, e, he, hname⟩ := hall name hmem
  exact searchDirEntry_isSome hlen he hname

/-- A file and a directory are made, and an entry is added next to that of the file. -/
theorem dirEntries_kept_two : ∃ s₁ s₂ p ino, DirRun .rootDir blankFs [[97]] s₁ ∧
    DirRun .rootDir blankFs [[98], [97]] s₂ ∧
    syncDirEntry s₁.part (s₁.inodes s₁.rootInode) (.ofName [99] 3 .regular) = .ok (true, p, ino) ∧
    AddsEntry s₁.part.disk (s₁.inodes s₁.rootInode) (.ofName [99] 3 .regular) p.disk ino ∧
    ∀ name ∈ [[98], [97]],
      (searchDirEntry s₂.part.disk (s₂.inodes s₂.rootInode) name).isSome = true := by
  obtain ⟨⟨done₁, s₁⟩, h₁, hx⟩ := exists_of_holds
    (o := DirCall.exec blankFs .rootDir (.create 1 [97] 4))
    (f := fun r => r.1 && decide ((r.2.inodes r.2.rootInode).iSectors 12 = 0 ∧
        (liveEntries r.2.part.disk (r.2.inodes r.2.rootInode)).map DirEntry.iNo = [1]) &&
      holds (syncDirEntry r.2.part (r.2.inodes r.2.rootInode) (.ofName [99] 3 .regular)) (·.1) &&
      holds (DirCall.exec r.2 .rootDir (.mkdir [98])) (·.1)) (by decide +kernel)
  simp only [Bool.and_eq_true, decide_eq_true_eq] at hx
  obtain ⟨⟨⟨rfl, h12, hnos⟩, hsync⟩, hmk⟩ := hx
  obtain ⟨⟨done, p, ino⟩, hsync, rfl⟩ := exists_of_holds hsync
  obtain ⟨⟨done₂, s₂⟩, h₂, rfl⟩ := exists_of_holds hmk
  have hd : DirReady blankFs .rootDir := ⟨blankPartition_layout, rfl, blocksOk_inodeInit _ 0,
    inodeInit_fits (by decide), by decide⟩
  have hroom : RoomForEntry s₁.part.disk (s₁.inodes s₁.rootInode) := .inr (.inl h12)
  have hrun₁ : DirRun .rootDir blankFs [[97]] s₁ :=
    .step .start ⟨.inr (.inl rfl), by decide⟩ h₁
  have hrun₂ : DirRun .rootDir blankFs [[98], [97]] s₂ := .step hrun₁ ⟨hroom, by decide⟩ h₂
  have hready := (hrun₁.found hd).1
  obtain ⟨hadds, hfound⟩ := dirEntries_kept_iff_room s₁.part p (s₁.inodes s₁.rootInode) ino
    (.ofName [99] 3 .regular) blankFs s₂ .rootDir [[98], [97]]
  refine ⟨s₁, s₂, p, ino, hrun₁, hrun₂, hsync, (hadds hready.layout hready.blocks ?_
    (ofName_live (by decide)) (ofName_fits (by decide)) (fun hmem => ?_) hsync).2 hroom,
    hfound hd hrun₂⟩
  · exact List.Nodup.of_map _ (hnos ▸ List.nodup_singleton 1)
  · have := List.mem_map_of_mem (f := DirEntry.iNo) hmem
    rw [hnos] at this
    exact absurd this (by decide)

end Run

/-! ## A directory that loses an entry -/

/-- Entry `m` of a crowded directory: file `m`, with a name of two letters. -/
def crowdEntry (m : ℕ) : DirEntry :=
  .ofName [UInt8.ofNat (97 + m / 21), UInt8.ofNat (97 + m % 21)] m .regular

/-- A sector with the entries from `21 * b` on. -/
def crowdSector (b : ℕ) : Buf := fun i => (crowdEntry (21 * b + i / 24)).bytes (i % 24)

/-- A partition with a directory of 253 entries: twelve full direct blocks, and a table that lists
one block with one entry. -/
def crowdPartition : Partition :=
  { blankPartition with
    disk := fun l =>
      if 612 ≤ l ∧ l < 624 then crowdSector (l - 612)
      else if l = 624 then tableSector fun k => if k = 12 then 625 else 0
      else if l = 625 then setEntry zero 0 (crowdEntry 252)
      else zero
    blockBitmap := { btmpBytesLen := 512, bit := fun i => i < 14 } }

/-- Its inode. -/
def crowdInode : Inode where
  iNo := 0
  iSize := 6072
  iOpenCnts := 1
  writeDeny := false
  iSectors k := if k < 13 then 612 + k else 0

theorem crowdPartition_layout : crowdPartition.Layout := by
  constructor <;> decide

theorem crowdEntry_live (m : ℕ) : (crowdEntry m).Live := ofName_live (by decide)

theorem crowdEntry_fits {m : ℕ} (h : m < 4096) : (crowdEntry m).Fits := ofName_fits h

theorem getEntry_crowdSector {b j : ℕ} (hb : b < 12) (hj : j < 21) :
    getEntry (crowdSector b) j = crowdEntry (21 * b + j) := by
  refine (DirEntry.ofBytes_congr fun i hi => ?_).trans
    (DirEntry.ofBytes_bytes (crowdEntry_fits (by omega)))
  simp only [window_apply, crowdSector]
  rw [show (24 * j + i) / 24 = j by omega, show (24 * j + i) % 24 = i by omega]

theorem allBlocks_crowd (k : ℕ) : allBlocks crowdPartition.disk crowdInode k =
    if k < 12 then 612 + k else if k = 12 then 625 else 0 := by
  by_cases hk : k < 12
  · simp [allBlocks, hk, crowdInode, show k < 13 by omega]
  · obtain ⟨i, rfl⟩ := Nat.exists_eq_add_of_le (not_lt.1 hk)
    rw [allBlocks_of_table (by decide)]
    change getLe32 (window (tableSector fun k => if k = 12 then 625 else 0) (4 * i)) = _
    rw [getLe32_tableSector, if_neg hk]
    split <;> rfl

theorem liveIn_crowdSector {b : ℕ} (hb : b < 12) :
    liveIn (crowdSector b) = (List.range 21).map fun j => crowdEntry (21 * b + j) := by
  rw [List.map_eq_flatMap]
  refine flatMap_range_congr fun j hj => ?_
  rw [getEntry_crowdSector hb hj, if_pos (crowdEntry_live _)]

theorem blocksOk_crowd : BlocksOk crowdPartition.vol crowdInode := by
  have hall : ∀ k, allBlocks crowdPartition.vol.data crowdInode k =
      if k < 12 then 612 + k else if k = 12 then 625 else 0 := fun k => by
    rw [← allBlocks_crowd k]
    exact allBlocks_congr (fun _ _ => rfl) fun _ => Partition.vol_data (by decide)
  have hused : ∀ i < 14, crowdPartition.vol.used (612 + i) = true := by decide
  have h12 : crowdInode.iSectors 12 = 624 := rfl
  refine ⟨fun k hk => ?_, fun _ => hused 12 (by decide), fun j hj k hk => ?_, fun k hk => ?_⟩ <;>
    simp only [hall]
  · split
    · exact fun _ => hused k (by omega)
    · split
      · exact fun _ => hused 13 (by decide)
      · exact fun h => absurd rfl h
  · split <;> split <;> (try split) <;> (try split) <;> omega
  · rw [h12]
    split
    · omega
    · split <;> omega

theorem crowdPartition_disk {k : ℕ} (hk : k < 12) :
    crowdPartition.disk (612 + k) = crowdSector k := by
  change (if 612 ≤ 612 + k ∧ 612 + k < 624 then crowdSector (612 + k - 612) else _) = _
  rw [if_pos (by omega), Nat.add_sub_cancel_left]

theorem liveAt_crowd (k : ℕ) :
    liveAt crowdPartition.disk (allBlocks crowdPartition.disk crowdInode k) =
      if k < 12 then (List.range 21).map fun j => crowdEntry (21 * k + j)
      else if k = 12 then [crowdEntry 252] else [] := by
  rw [allBlocks_crowd]
  split
  · rename_i hk
    rw [liveAt_of_ne (by omega), crowdPartition_disk hk, liveIn_crowdSector hk]
  · split
    · exact List.perm_singleton.1 (liveIn_newSector (crowdEntry_live 252)
        (crowdEntry_fits (by decide)))
    · rfl

theorem liveEntries_crowd :
    (liveEntries crowdPartition.disk crowdInode).map DirEntry.iNo = List.range 253 := by
  rw [liveEntries, List.map_flatMap,
    flatMap_range_congr (g := fun k => if k < 12 then (List.range 21).map fun j => 21 * k + j
      else if k = 12 then [252] else []) fun k _ => ?_]
  · decide +kernel
  · rw [liveAt_crowd]
    split
    · rw [List.map_map]
      rfl
    · split <;> rfl

theorem not_roomForEntry_crowd : ¬ RoomForEntry crowdPartition.disk crowdInode := by
  rintro (⟨k, hk, hz | ⟨j, hj, hf⟩⟩ | h | h)
  · simp only [crowdInode, if_pos (show k < 13 by omega)] at hz
    omega
  · have hsec : crowdInode.iSectors k = 612 + k := if_pos (by omega)
    rw [hsec, crowdPartition_disk hk, getEntry_crowdSector hk hj] at hf
    exact hf (crowdEntry_live _)
  · exact absurd h (by decide)
  · have hmem : crowdEntry 252 ∈ liveIndirect crowdPartition.disk crowdInode := by
      refine List.mem_flatMap.2 ⟨0, by decide, ?_⟩
      rw [liveAt_crowd]
      decide
    rw [h] at hmem
    exact List.not_mem_nil hmem

/-- Adding an entry to the crowded directory replaces its table, and entry 252 is gone. -/
theorem not_addsEntry_crowd :
    crowdPartition.Layout ∧ BlocksOk crowdPartition.vol crowdInode ∧
      (liveEntries crowdPartition.disk crowdInode).Nodup ∧ (crowdEntry 253).Live ∧
      (crowdEntry 253).Fits ∧ crowdEntry 253 ∉ liveEntries crowdPartition.disk crowdInode ∧
      ∃ p' ino', syncDirEntry crowdPartition crowdInode (crowdEntry 253) = .ok (true, p', ino') ∧
        ¬ AddsEntry crowdPartition.disk crowdInode (crowdEntry 253) p'.disk ino' := by
  have hnd : (liveEntries crowdPartition.disk crowdInode).Nodup :=
    List.Nodup.of_map _ (liveEntries_crowd ▸ List.nodup_range)
  have hnew : crowdEntry 253 ∉ liveEntries crowdPartition.disk crowdInode := by
    intro h
    have := List.mem_map_of_mem (f := DirEntry.iNo) h
    rw [liveEntries_crowd] at this
    exact absurd this (by decide)
  obtain ⟨p', ino', h⟩ := exists_syncDirEntry crowdInode (crowdEntry 253)
    crowdPartition_layout rfl (i := 14) (j := 15) (by decide) (by decide) (by decide) rfl rfl
  refine ⟨crowdPartition_layout, blocksOk_crowd, hnd, crowdEntry_live _,
    crowdEntry_fits (by decide), hnew, p', ino', h, fun hadd => ?_⟩
  exact not_roomForEntry_crowd ((syncDirEntry_addsEntry_iff crowdPartition_layout blocksOk_crowd
    hnd (crowdEntry_live _) (crowdEntry_fits (by decide)) hnew h).1 hadd)

end Gardos.Fs
