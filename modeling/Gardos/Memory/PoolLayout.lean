import Gardos.Memory.MallocSizes

/-!
# How `mem_pool_init` divides the memory (`kernel/memory.c`)

`mem_pool_init` gives one half of the frames above 2 MB to the kernel and the other half to the
processes, and puts the bitmaps of both, and the bitmap of the kernel's virtual pages, one behind
the other from `MEM_BITMAP_BASE` on. The comment there promises 512 MB. The number of frames is kept
in a `uint16_t`, and from 65536 frames on all but the remainder is lost: `poolsPartition_iff`.
-/

namespace Gardos.Paging

/-- `MEM_BITMAP_BASE`. -/
def memBitmapBase : ℕ := 0xc009a000

/-- The address of the PCB of the main thread. -/
def mainPcb : ℕ := 0xc009e000

/-- Where `mem_pool_init` puts the bits of the three bitmaps. -/
structure BitmapBits where
  kernelPool : ℕ
  userPool : ℕ
  kernelVaddr : ℕ

/-- The `bits` of the bitmaps after `mem_pool_init`. -/
def bitmapBits (p : PoolSetup) : BitmapBits :=
  let kbmLength := p.kernelPool.poolBitmap.btmpBytesLen
  let ubmLength := p.userPool.poolBitmap.btmpBytesLen
  { kernelPool := memBitmapBase
    userPool := memBitmapBase + kbmLength
    kernelVaddr := memBitmapBase + kbmLength + ubmLength }

/-- The bytes of the three bitmaps. -/
def bitmapBytes (p : PoolSetup) : List (Finset ℕ) :=
  let bytes (bits : ℕ) (b : Bitmap) : Finset ℕ := Finset.Ico bits (bits + b.btmpBytesLen)
  [bytes (bitmapBits p).kernelPool p.kernelPool.poolBitmap,
    bytes (bitmapBits p).userPool p.userPool.poolBitmap,
    bytes (bitmapBits p).kernelVaddr p.kernelVaddr.vaddrBitmap]

/-- The frames that a pool can hand out, one for each bit. -/
def poolFrames (p : Pool) : Finset ℕ :=
  Finset.Ico p.phyAddrStart (p.phyAddrStart + p.poolBitmap.bitLen)

/-- The whole frames from 2 MB to the end of the memory. -/
def wholeFrames (allMem : ℕ) : Finset ℕ := Finset.Ico 512 (allMem / 4096)

/-- The pools divide the memory above 2 MB, up to fewer than 17 frames, and their bitmaps lie one
behind the other below the PCB of the main thread. -/
structure PoolsPartition (allMem : ℕ) : Prop where
  disjoint : Disjoint (poolFrames (memPoolInit allMem).kernelPool)
    (poolFrames (memPoolInit allMem).userPool)
  inside : poolFrames (memPoolInit allMem).kernelPool ∪ poolFrames (memPoolInit allMem).userPool ⊆
    wholeFrames allMem
  leftOut : (wholeFrames allMem \ (poolFrames (memPoolInit allMem).kernelPool ∪
    poolFrames (memPoolInit allMem).userPool)).card < 17
  bitmaps : (bitmapBytes (memPoolInit allMem)).Pairwise Disjoint
  bitmaps_end : ∀ bytes ∈ bitmapBytes (memPoolInit allMem), ∀ a ∈ bytes, a < mainPcb

variable {allMem : ℕ}

section Frames

variable (hlo : 0x200000 ≤ allMem) (hhi : allMem < 0x100000000)

include hlo hhi

theorem kernelFrames_eq : poolFrames (memPoolInit allMem).kernelPool =
    Finset.Ico 512 (512 + 8 * (countedFrames allMem / 2 / 8)) := by
  rw [memPoolInit_eq hlo hhi]
  rfl

theorem userFrames_eq : poolFrames (memPoolInit allMem).userPool =
    Finset.Ico (512 + countedFrames allMem / 2) (512 + countedFrames allMem / 2 +
      8 * ((countedFrames allMem - countedFrames allMem / 2) / 8)) := by
  rw [memPoolInit_eq hlo hhi]
  rfl

theorem frames_disjoint : Disjoint (poolFrames (memPoolInit allMem).kernelPool)
    (poolFrames (memPoolInit allMem).userPool) := by
  rw [kernelFrames_eq hlo hhi, userFrames_eq hlo hhi, Finset.disjoint_left]
  intro f hk hu
  rw [Finset.mem_Ico] at hk hu
  omega

theorem frames_inside : poolFrames (memPoolInit allMem).kernelPool ∪
    poolFrames (memPoolInit allMem).userPool ⊆ wholeFrames allMem := by
  rw [kernelFrames_eq hlo hhi, userFrames_eq hlo hhi]
  have hle : countedFrames allMem ≤ allMem / 4096 - 512 := Nat.mod_le _ _
  intro f hf
  rw [Finset.mem_union, Finset.mem_Ico, Finset.mem_Ico] at hf
  rw [wholeFrames, Finset.mem_Ico]
  omega

/-- What the two roundings to whole bytes and the `uint16_t` leave out. -/
theorem card_leftOut : (wholeFrames allMem \ (poolFrames (memPoolInit allMem).kernelPool ∪
      poolFrames (memPoolInit allMem).userPool)).card =
    allMem / 4096 - 512 - (8 * (countedFrames allMem / 2 / 8) +
      8 * ((countedFrames allMem - countedFrames allMem / 2) / 8)) := by
  rw [Finset.card_sdiff_of_subset (frames_inside hlo hhi),
    Finset.card_union_of_disjoint (frames_disjoint hlo hhi), kernelFrames_eq hlo hhi,
    userFrames_eq hlo hhi, wholeFrames, Nat.card_Ico, Nat.card_Ico, Nat.card_Ico]
  omega

theorem bitmapBytes_eq : bitmapBytes (memPoolInit allMem) =
    let k := countedFrames allMem / 2 / 8
    let u := (countedFrames allMem - countedFrames allMem / 2) / 8
    [Finset.Ico memBitmapBase (memBitmapBase + k),
      Finset.Ico (memBitmapBase + k) (memBitmapBase + k + u),
      Finset.Ico (memBitmapBase + k + u) (memBitmapBase + k + u + k)] := by
  rw [memPoolInit_eq hlo hhi]
  rfl

theorem bitmaps_disjoint : (bitmapBytes (memPoolInit allMem)).Pairwise Disjoint := by
  rw [bitmapBytes_eq hlo hhi]
  dsimp only
  rw [List.pairwise_cons]
  constructor
  · intro bytes hbytes
    rw [Finset.disjoint_left]
    intro a ha ha'
    rw [Finset.mem_Ico] at ha
    rcases List.mem_pair.1 hbytes with rfl | rfl <;> rw [Finset.mem_Ico] at ha' <;> omega
  · exact List.pairwise_pair.2 (Finset.Ico_disjoint_Ico_consecutive ..)

theorem bitmaps_lt : ∀ bytes ∈ bitmapBytes (memPoolInit allMem), ∀ a ∈ bytes, a < mainPcb := by
  rw [bitmapBytes_eq hlo hhi]
  -- three bitmaps of at most 4 KB each
  have hlt : countedFrames allMem < 65536 := Nat.mod_lt _ (by decide)
  intro bytes hbytes a ha
  unfold mainPcb
  rcases List.mem_cons.1 hbytes with rfl | hbytes
  · rw [Finset.mem_Ico, memBitmapBase] at ha
    omega
  rcases List.mem_pair.1 hbytes with rfl | rfl
  · rw [Finset.mem_Ico, memBitmapBase] at ha
    omega
  · rw [Finset.mem_Ico, memBitmapBase] at ha
    omega

end Frames

theorem not_poolsPartition (hlo : 0x200000 ≤ allMem) (hhi : allMem < 0x100000000)
    (hmany : 65536 ≤ allMem / 4096 - 512) : ¬ PoolsPartition allMem := by
  intro h
  have hleft := h.leftOut
  rw [card_leftOut hlo hhi] at hleft
  have hlt : countedFrames allMem < 65536 := Nat.mod_lt _ (by decide)
  have hmod : allMem / 4096 - 512 = 65536 * ((allMem / 4096 - 512) / 65536) +
      countedFrames allMem := (Nat.div_add_mod _ _).symm
  omega

/-- **The pools divide the memory exactly if the number of its frames fits into 16 bits.** -/
theorem poolsPartition_iff (allMem : ℕ) (hlo : 0x400000 ≤ allMem) (hhi : allMem ≤ 0x20000000) :
    PoolsPartition allMem ↔ allMem / 4096 - 512 < 65536 := by
  have hlo' : 0x200000 ≤ allMem := by omega
  have hhi' : allMem < 0x100000000 := by omega
  constructor
  · intro h
    by_contra hmany
    exact not_poolsPartition hlo' hhi' (Nat.not_lt.1 hmany) h
  · intro hfew
    refine ⟨frames_disjoint hlo' hhi', frames_inside hlo' hhi', ?_, bitmaps_disjoint hlo' hhi',
      bitmaps_lt hlo' hhi'⟩
    rw [card_leftOut hlo' hhi', countedFrames, Nat.mod_eq_of_lt hfew]
    omega

/-- A machine with 32 MB. -/
theorem poolsPartition_small : PoolsPartition 0x2000000 :=
  (poolsPartition_iff 0x2000000 (by decide) (by decide)).2 (by decide)

/-- With 512 MB, half of the frames are in neither pool. -/
theorem not_poolsPartition_large : ¬ PoolsPartition 0x20000000 :=
  not_poolsPartition (by decide) (by decide) (by decide)

end Gardos.Paging
