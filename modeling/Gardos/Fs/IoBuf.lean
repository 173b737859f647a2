import Gardos.Fs.Inode
import Gardos.Memory.HeapShape

/-!
# The buffers for the slots of the inode table

`inode_sync` and `inode_delete` read the sectors of a slot into `io_buf`, which the caller has
allocated, change the 76 bytes of the inode there, and write the sectors back. A slot lies in one
sector or in two, depending on the number of the inode. `patchInodeIn` is `patchInode` with the
limits of a buffer, and `SlotCall` has the callers with the buffers that they allocate.

All of them allocate two sectors, except `file_write`, which allocates one: `inBuffer_iff`.
-/

namespace Gardos.Fs

open Bytes Outcome

/-! ## Calls with a buffer -/

/-- `patchInode` in a buffer of `size` bytes. -/
def patchInodeIn (size : ℕ) (p : Partition) (pos : InodePosition) (src : Buf) :
    Outcome Partition := do
  -- `ide_read` fills and `ide_write` reads one sector or two
  access ((if pos.twoSec then 2 else 1) * 512 ≤ size)
  -- `memcpy` or `memset`
  access (pos.offSize + 76 ≤ size)
  return patchInode p pos src

/-- `inode_sync` with a buffer of `size` bytes. -/
def inodeSyncIn (size : ℕ) (p : Partition) (inode : Inode) : Outcome Partition := do
  let inodeNo := inode.iNo % 256
  let inodePos ← inodeLocate p inodeNo
  assert (inodePos.secLba ≤ p.startLba + p.secCnt)
  patchInodeIn size p inodePos inode.pure.bytes

/-- `inode_delete` with a buffer of `size` bytes. -/
def inodeDeleteIn (size : ℕ) (p : Partition) (inodeNo : ℕ) : Outcome Partition := do
  assert (inodeNo < 4096)
  let inodePos ← inodeLocate p inodeNo
  assert (inodePos.secLba ≤ p.startLba + p.secCnt)
  patchInodeIn size p inodePos zero

/-- The size of the block that `sys_malloc` takes for a size up to 1024: the first class that is
large enough. -/
def mallocBlock (size : ℕ) : ℕ :=
  Memory.blockSize (skipWhile (fun i => Memory.blockSize i < size) 7 0)

/-- The calls of `inode_sync` and `inode_delete`, by caller. `delete_dir_entry` gets its buffer from
`sys_unlink` or from `dir_remove`. -/
inductive SlotCall
  | fileCreate (inode : Inode)
  | fileWrite (inode : Inode)
  | sysMkdir (inode : Inode)
  | sysUnlink (dirInode : Inode)
  | dirRemove (dirInode : Inode)
  | inodeRelease (inodeNo : ℕ)

namespace SlotCall

/-- The size of `io_buf` in the call of `sys_malloc`. -/
def ioBufSize : SlotCall → ℕ
  | .fileCreate _ => 1024
  | .fileWrite _ => 512
  | .sysMkdir _ => 512 * 2
  | .sysUnlink _ => 512 + 512
  | .dirRemove _ => 512 * 2
  | .inodeRelease _ => 1024

def inodeNo : SlotCall → ℕ
  | .fileCreate inode => inode.iNo
  | .fileWrite inode => inode.iNo
  | .sysMkdir inode => inode.iNo
  | .sysUnlink dirInode => dirInode.iNo
  | .dirRemove dirInode => dirInode.iNo
  | .inodeRelease inodeNo => inodeNo

/-- The slot that the call works on: `inode_sync` cuts the number to a byte. -/
def slotNo : SlotCall → ℕ
  | .inodeRelease inodeNo => inodeNo
  | c => c.inodeNo % 256

def exec (p : Partition) (c : SlotCall) : Outcome Partition :=
  let size := mallocBlock c.ioBufSize
  match c with
  | .fileCreate inode => inodeSyncIn size p inode
  | .fileWrite inode => inodeSyncIn size p inode
  | .sysMkdir inode => inodeSyncIn size p inode
  | .sysUnlink dirInode => inodeSyncIn size p dirInode
  | .dirRemove dirInode => inodeSyncIn size p dirInode
  | .inodeRelease inodeNo => inodeDeleteIn size p inodeNo

/-- The call touches no byte outside of the block of its buffer. -/
def InBuffer (p : Partition) (c : SlotCall) : Prop := c.exec p ≠ .error .fault

end SlotCall

/-! ## How much of the buffer is used -/

section Sectors

variable {p : Partition} {size n : ℕ}

/-- The number of sectors that slot `n` lies in. -/
def slotSectors (n : ℕ) : ℕ := if n * 76 % 512 + 76 ≤ 512 then 1 else 2

/-- A buffer is large enough if it holds the sectors; the slot lies inside of them. -/
theorem patchInodeIn_eq (p : Partition) (size n : ℕ) (src : Buf) :
    patchInodeIn size p (inodePosition p n) src =
      if slotSectors n * 512 ≤ size then .ok (patchInode p (inodePosition p n) src)
      else .error .fault := by
  have hsectors : (if (inodePosition p n).twoSec then 2 else 1) = slotSectors n := by
    unfold slotSectors inodePosition
    by_cases hone : n * 76 % 512 + 76 ≤ 512
    · rw [if_pos hone, if_neg (by simp only [decide_eq_true_eq]; omega)]
    · rw [if_neg hone, if_pos (by simp only [decide_eq_true_eq]; omega)]
  have hslot : (inodePosition p n).offSize + 76 ≤ slotSectors n * 512 := by
    change n * 76 % 512 + 76 ≤ slotSectors n * 512
    unfold slotSectors
    split <;> omega
  unfold patchInodeIn
  rw [hsectors]
  by_cases hfits : slotSectors n * 512 ≤ size
  · rw [access, if_pos hfits, ok_bind, access, if_pos (hslot.trans hfits), ok_bind, if_pos hfits]
    rfl
  · rw [access, if_neg hfits, if_neg hfits]
    rfl

theorem inodeSyncIn_eq (hL : p.Layout) (size : ℕ) (ino : Inode) :
    inodeSyncIn size p ino =
      patchInodeIn size p (inodePosition p (ino.iNo % 256)) ino.pure.bytes := by
  have hlt : ino.iNo % 256 < 256 := Nat.mod_lt _ (by omega)
  have htable := hL.inodeTable_end
  have hdata := hL.data_start
  unfold inodeSyncIn
  dsimp only
  rw [inodeLocate_eq (by omega), ok_bind, assert, if_pos, ok_bind]
  change p.sb.inodeTableLba + ino.iNo % 256 * 76 / 512 ≤ p.startLba + p.secCnt
  omega

theorem inodeDeleteIn_eq (hL : p.Layout) (size : ℕ) (hn : n < 4096) :
    inodeDeleteIn size p n = patchInodeIn size p (inodePosition p n) zero := by
  have htable := hL.inodeTable_end
  have hdata := hL.data_start
  unfold inodeDeleteIn
  rw [assert, if_pos hn, ok_bind, inodeLocate_eq hn, ok_bind, assert, if_pos, ok_bind]
  change p.sb.inodeTableLba + n * 76 / 512 ≤ p.startLba + p.secCnt
  omega

/-- In a large enough buffer, `inode_sync` is `inodeSync`; in a smaller one it faults. -/
theorem inodeSyncIn_eq_inodeSync (hL : p.Layout) (size : ℕ) (ino : Inode) :
    inodeSyncIn size p ino =
      if slotSectors (ino.iNo % 256) * 512 ≤ size then inodeSync p ino else .error .fault := by
  rw [inodeSyncIn_eq hL, patchInodeIn_eq, inodeSync_eq hL]

theorem inodeSync_of_inodeSyncIn {p' : Partition} {ino : Inode}
    (h : inodeSyncIn size p ino = .ok p') : inodeSync p ino = .ok p' := by
  obtain ⟨pos, hpos, h⟩ := bind_eq_ok.1 h
  obtain ⟨u, hu, h⟩ := bind_eq_ok.1 h
  obtain ⟨-, -, h⟩ := bind_eq_ok.1 h
  obtain ⟨-, -, h⟩ := bind_eq_ok.1 h
  exact bind_eq_ok.2 ⟨pos, hpos, bind_eq_ok.2 ⟨u, hu, h⟩⟩

/-- The slot of the inode lies in one sector. -/
def Inode.OneSector (ino : Inode) : Prop := ino.iNo % 256 * 76 % 512 + 76 ≤ 512

instance (ino : Inode) : Decidable ino.OneSector := inferInstanceAs (Decidable (_ ≤ _))

theorem slotSectors_le_iff (ino : Inode) :
    slotSectors (ino.iNo % 256) * 512 ≤ 512 ↔ ino.OneSector := by
  unfold slotSectors Inode.OneSector
  split <;> omega

end Sectors

/-! ## The callers -/

namespace SlotCall

variable {p : Partition} {c : SlotCall}

theorem exec_eq (hL : p.Layout) (hn : c.inodeNo < 4096) :
    ∃ src, c.exec p = patchInodeIn (mallocBlock c.ioBufSize) p (inodePosition p c.slotNo) src := by
  cases c with
  | fileCreate ino => exact ⟨_, inodeSyncIn_eq hL _ ino⟩
  | fileWrite ino => exact ⟨_, inodeSyncIn_eq hL _ ino⟩
  | sysMkdir ino => exact ⟨_, inodeSyncIn_eq hL _ ino⟩
  | sysUnlink ino => exact ⟨_, inodeSyncIn_eq hL _ ino⟩
  | dirRemove ino => exact ⟨_, inodeSyncIn_eq hL _ ino⟩
  | inodeRelease no => exact ⟨_, inodeDeleteIn_eq hL _ hn⟩

theorem inBuffer_iff_sectors (hL : p.Layout) (hn : c.inodeNo < 4096) :
    c.InBuffer p ↔ slotSectors c.slotNo * 512 ≤ mallocBlock c.ioBufSize := by
  obtain ⟨src, hexec⟩ := exec_eq hL hn
  unfold InBuffer
  rw [hexec, patchInodeIn_eq]
  split
  · next hfits => exact iff_of_true (fun h => nomatch h) hfits
  · next hfits => exact iff_of_false (fun h => h rfl) hfits

theorem slotSectors_le (n : ℕ) : slotSectors n ≤ 2 := by
  unfold slotSectors
  split <;> omega

theorem mallocBlock_two : mallocBlock 1024 = 1024 := by decide

theorem mallocBlock_one : mallocBlock 512 = 512 := by decide

/-- Every caller but `file_write` has room for two sectors. -/
theorem mallocBlock_ioBufSize (c : SlotCall) :
    mallocBlock c.ioBufSize = 1024 ∨ ∃ ino, c = .fileWrite ino := by
  cases c with
  | fileWrite ino => exact Or.inr ⟨ino, rfl⟩
  | _ => exact Or.inl mallocBlock_two

/-- **Which calls stay inside of their buffers**: all, except that `file_write` overruns its buffer
when the slot lies in two sectors. -/
theorem inBuffer_iff (p : Partition) (hL : p.Layout) (c : SlotCall) (hn : c.inodeNo < 4096) :
    c.InBuffer p ↔ ∀ ino, c = .fileWrite ino → ino.iNo % 256 * 76 % 512 + 76 ≤ 512 := by
  rw [inBuffer_iff_sectors hL hn]
  have htwo := slotSectors_le c.slotNo
  rcases mallocBlock_ioBufSize c with hlarge | ⟨ino, rfl⟩
  · rw [hlarge]
    refine iff_of_true (by omega) ?_
    rintro ino rfl
    exact absurd (mallocBlock_one.symm.trans hlarge) (by decide)
  · change slotSectors (ino.iNo % 256) * 512 ≤ mallocBlock 512 ↔ _
    rw [mallocBlock_one]
    unfold slotSectors
    constructor
    · rintro hle ino' hino
      obtain rfl := fileWrite.inj hino
      by_contra hone
      rw [if_neg hone] at hle
      omega
    · intro hone
      rw [if_pos (hone ino rfl)]

/-- `file_write` to the file with inode 1. -/
theorem inBuffer_first : (fileWrite (inodeInit 1)).InBuffer blankPartition :=
  (inBuffer_iff blankPartition blankPartition_layout (.fileWrite (inodeInit 1)) (by decide)).2
    fun ino hino => by
      obtain rfl := fileWrite.inj hino
      decide

/-- The slot of inode 6 starts 456 bytes into its sector. -/
theorem not_inBuffer_six : ¬ (fileWrite (inodeInit 6)).InBuffer blankPartition := by
  rw [inBuffer_iff_sectors blankPartition_layout (by decide)]
  decide

end SlotCall

end Gardos.Fs
