import Gardos.Fs.DirEntries
import Gardos.Fs.File

/-!
# The blocks of a file

A file that has been written has the blocks `0` to `i_size / 512`: when its size is a multiple of
512 the last one is empty, allocated one ahead (`FileOk`). `file_write` and `file_read` count
blocks by this convention.

- `exists_firstBlock`: the first step of `file_write` gives a new file its first block.
- `exists_collectWrite`: with enough free blocks `file_write` provides for a file of any size, in
  each of its four cases.
- `Grows`: what the file and the volume look like afterwards.
-/

namespace Gardos.Fs

open Bytes Outcome Function

/-- The file has exactly the blocks `0` to `i_size / 512`, those from 12 on through the table. -/
structure HasBlocks (d : Disk) (ino : Inode) : Prop where
  iff : ∀ k < 140, allBlocks d ino k ≠ 0 ↔ k ≤ ino.iSize / 512
  table : ino.iSectors 12 ≠ 0 ↔ 12 ≤ ino.iSize / 512

/-- A well-formed inode of a regular file: one that has never been written, or one with exactly
the blocks that its size asks for. The blocks and the table are in use and differ from each
other. -/
structure FileOk (v : Volume) (ino : Inode) : Prop where
  blocks : BlocksOk v ino
  shape : (ino.iSize = 0 ∧ ∀ k < 13, ino.iSectors k = 0) ∨ HasBlocks v.data ino

variable {p : Partition} {ino ino' : Inode} {v v' : Volume} {lba k n b : ℕ} {addr : ℕ → ℕ}

/-- The addresses of a file lie in 32 bits. -/
theorem BlocksOk.fits (hL : p.Layout) (hB : BlocksOk p.vol ino) (hno : ino.iNo < 4294967296)
    (hsize : ino.iSize < 4294967296) : ino.Fits := by
  have hword : ∀ b, p.vol.used b = true → b < 4294967296 := by
    intro b hb
    have h1 := Partition.used_iff.1 hb
    have h2 := hL.addressable.lt
    simp only [Partition.vol_geometry, Partition.geometry] at h2
    have h3 : p.blockBitmap.bitLen = 8 * p.blockBitmap.btmpBytesLen := rfl
    omega
  refine ⟨hno, hsize, fun k hk => ?_⟩
  by_cases h0 : ino.iSectors k = 0
  · omega
  · by_cases h12 : k < 12
    · refine hword _ ?_
      have := hB.used k (by omega)
      rw [allBlocks_of_lt h12] at this
      exact this h0
    · obtain rfl : k = 12 := by omega
      exact hword _ (hB.table_used h0)

/-! ## Free blocks -/

/-- The indices of the free blocks. -/
def Volume.freeBlocks (v : Volume) : Finset ℕ :=
  (Finset.range (8 * v.geometry.blockBytes)).filter fun b =>
    v.used (v.geometry.sb.dataStartLba + b) = false

theorem Volume.card_freeBlocks_setUsed (h : v.Free lba) :
    (v.setUsed lba true).freeBlocks.card + 1 = v.freeBlocks.card := by
  obtain ⟨b, rfl⟩ := Nat.exists_eq_add_of_le h.start
  have hmem : b ∈ v.freeBlocks := by
    have := h.lt
    simp only [freeBlocks, Finset.mem_filter, Finset.mem_range]
    exact ⟨by omega, h.free⟩
  have herase : (v.setUsed (v.geometry.sb.dataStartLba + b) true).freeBlocks =
      v.freeBlocks.erase b := by
    ext c
    simp only [freeBlocks, setUsed, Finset.mem_filter, Finset.mem_range, Finset.mem_erase,
      update_apply, Nat.add_left_cancel_iff]
    by_cases hc : c = b <;> simp [hc]
  rw [herase, Finset.card_erase_add_one hmem]

/-- With a free block left, `block_bitmap_alloc` takes one. -/
theorem exists_clear (h : 0 < p.vol.freeBlocks.card) :
    ∃ i < p.blockBitmap.bitLen, p.blockBitmap.bit i = false := by
  obtain ⟨i, hi⟩ := Finset.card_pos.1 h
  simp only [Volume.freeBlocks, Finset.mem_filter, Finset.mem_range] at hi
  have hlen : i < p.blockBitmap.bitLen := hi.1
  refine ⟨i, hlen, ?_⟩
  have := hi.2
  simpa [Partition.vol, Partition.geometry, hlen] using this

theorem exists_alloc (hL : p.Layout) (h : 0 < p.vol.freeBlocks.card) :
    ∃ lba p', blockBitmapAlloc p = .ok (some lba, p') ∧ p.vol.Free lba ∧
      p'.vol = p.vol.setUsed lba true ∧
      blockBitmapIdx p' lba = lba - p.sb.dataStartLba ∧
      (bitmapSync p' (blockBitmapIdx p' lba) .blockBitmap).vol = p.vol.setUsed lba true := by
  obtain ⟨i, hlen, hclear⟩ := exists_clear h
  obtain ⟨b, hb, halloc⟩ := Partition.blockBitmapAlloc_of_clear hlen hclear
  obtain ⟨hfree, hv⟩ := exists_takeBlock hL halloc
  refine ⟨_, _, halloc, hfree, Partition.vol_setBlockBit hb.lt true, ?_, hv⟩
  rw [Nat.add_sub_cancel_left]
  exact Partition.blockBitmapIdx_taken hL hb.lt

/-- The second volume differs from the first in that the blocks `addr k`, ..., `addr (n - 1)`,
which were free, have been taken. -/
structure Takes (v v' : Volume) (k n : ℕ) (addr : ℕ → ℕ) : Prop where
  eq : v' = { v with used := v'.used }
  free : ∀ i, k ≤ i → i < n → v.Free (addr i)
  inj : ∀ i j, k ≤ i → i < n → k ≤ j → j < n → addr i = addr j → i = j
  used : ∀ b, v'.used b = true ↔ v.used b = true ∨ ∃ i, k ≤ i ∧ i < n ∧ b = addr i
  card : v'.freeBlocks.card + (n - k) = v.freeBlocks.card

theorem Takes.refl (v : Volume) (k : ℕ) (addr : ℕ → ℕ) : Takes v v k k addr where
  eq := rfl
  free i h1 h2 := absurd h2 (not_lt.2 h1)
  inj i _ h1 h2 := absurd h2 (not_lt.2 h1)
  used b := ⟨Or.inl, fun h => h.resolve_right fun ⟨i, h1, h2, _⟩ => absurd h2 (not_lt.2 h1)⟩
  card := by omega

/-- One block and then the others. -/
theorem Takes.step {v v' : Volume} {k n lba : ℕ} {addr : ℕ → ℕ} (hkn : k < n)
    (hlba : v.Free lba) (h : Takes (v.setUsed lba true) v' (k + 1) n addr) :
    Takes v v' k n (update addr k lba) := by
  have hlater : ∀ i, k ≤ i → i ≠ k → update addr k lba i = addr i ∧ k + 1 ≤ i :=
    fun i h1 h2 => ⟨update_of_ne h2 _ _, by omega⟩
  refine ⟨?_, fun i h1 h2 => ?_, fun i j h1 h2 h3 h4 heq => ?_, fun b => ?_, ?_⟩
  · rw [h.eq]
    rfl
  · by_cases hik : i = k
    · subst hik
      rwa [update_self]
    · rw [(hlater i h1 hik).1]
      exact (h.free i (hlater i h1 hik).2 h2).of_setUsed
  · -- a later block was free when `lba` was taken already
    by_cases hik : i = k <;> by_cases hjk : j = k
    · omega
    · rw [hik, update_self, (hlater j h3 hjk).1] at heq
      exact absurd heq (h.free j (hlater j h3 hjk).2 h4).ne_of_setUsed
    · rw [hjk, update_self, (hlater i h1 hik).1] at heq
      exact absurd heq.symm (h.free i (hlater i h1 hik).2 h2).ne_of_setUsed
    · rw [(hlater i h1 hik).1, (hlater j h3 hjk).1] at heq
      exact h.inj i j (hlater i h1 hik).2 h2 (hlater j h3 hjk).2 h4 heq
  · rw [h.used b]
    simp only [Volume.setUsed, update_apply]
    constructor
    · rintro (hb | ⟨i, h1, h2, rfl⟩)
      · by_cases hbl : b = lba
        · exact Or.inr ⟨k, le_rfl, hkn, by simp [hbl]⟩
        · rw [if_neg hbl] at hb
          exact Or.inl hb
      · exact Or.inr ⟨i, by omega, h2, by rw [if_neg (by omega)]⟩
    · rintro (hb | ⟨i, h1, h2, rfl⟩)
      · left
        split
        · rfl
        · exact hb
      · by_cases hik : i = k
        · simp [hik]
        · rw [if_neg hik]
          exact Or.inr ⟨i, by omega, h2, rfl⟩
  · have h1 := h.card
    have h2 := Volume.card_freeBlocks_setUsed hlba
    omega

theorem Takes.layout {p' : Partition} (h : Takes p.vol p'.vol k n addr) (hL : p.Layout) :
    p'.Layout := hL.of_geometry (congrArg Volume.geometry h.eq)

/-- An array of addresses with the indices from `k` to `n - 1` overwritten. -/
def setBlocks (blocks : ℕ → ℕ) (k n : ℕ) (addr : ℕ → ℕ) : ℕ → ℕ := fun i =>
  if k ≤ i ∧ i < n then addr i else blocks i

/-- An inode with the direct blocks among these overwritten. -/
def Inode.setSectors (ino : Inode) (k n : ℕ) (addr : ℕ → ℕ) : Inode :=
  { ino with iSectors := fun i => if i < 12 then setBlocks ino.iSectors k n addr i
      else ino.iSectors i }

theorem setBlocks_self (blocks : ℕ → ℕ) (k : ℕ) (addr : ℕ → ℕ) :
    setBlocks blocks k k addr = blocks := by
  funext i
  rw [setBlocks, if_neg (by omega)]

theorem setBlocks_update {blocks : ℕ → ℕ} (hkn : k < n) :
    setBlocks (update blocks k lba) (k + 1) n addr =
      setBlocks blocks k n (update addr k lba) := by
  funext i
  simp only [setBlocks, update_apply]
  by_cases hik : i = k
  · rw [if_neg (by omega), if_pos hik, if_pos (by omega), if_pos hik]
  · rw [if_neg hik, if_neg hik]
    by_cases h : k + 1 ≤ i ∧ i < n
    · rw [if_pos h, if_pos (by omega)]
    · rw [if_neg h, if_neg (by omega)]

theorem setSectors_update (hkn : k < n) :
    (if k < 12 then ino.setSector k lba else ino).setSectors (k + 1) n addr =
      ino.setSectors k n (update addr k lba) := by
  have hsec : (if k < 12 then ino.setSector k lba else ino) =
      { ino with iSectors := (if k < 12 then ino.setSector k lba else ino).iSectors } := by
    split <;> rfl
  rw [hsec]
  simp only [Inode.setSectors, ← setBlocks_update hkn, Inode.mk.injEq, true_and]
  funext i
  by_cases hk : k < 12
  · rw [if_pos hk]
    by_cases hi : i < 12
    · simp only [hi, if_true, Inode.setSector]
    · rw [if_neg hi, if_neg hi, setSector_iSectors, if_neg (by omega)]
  · rw [if_neg hk]
    by_cases hi : i < 12
    · simp only [hi, if_true, setBlocks]
      rw [if_neg (by omega), if_neg (by omega), update_of_ne (by omega)]
    · rw [if_neg hi, if_neg hi]

/-- With enough free blocks the loop of `file_write` allocates all it needs. -/
theorem exists_allocBlocks {todo : ℕ} : ∀ {p : Partition} {ino : Inode} (blocks : ℕ → ℕ) (k : ℕ),
    p.Layout → todo ≤ p.vol.freeBlocks.card →
    (∀ i, k ≤ i → i < k + todo → i < 12 → ino.iSectors i = 0) →
    ∃ p' addr, allocBlocks p ino blocks todo k = .ok (true, p', ino.setSectors k (k + todo) addr,
        setBlocks blocks k (k + todo) addr) ∧ Takes p.vol p'.vol k (k + todo) addr := by
  induction todo with
  | zero =>
    intro p ino blocks k _ _ _
    refine ⟨p, fun _ => 0, ?_, Takes.refl _ _ _⟩
    simp only [allocBlocks, Inode.setSectors, add_zero, setBlocks_self, ite_self]
    rfl
  | succ todo ih =>
    intro p ino blocks k hL hcard hz
    obtain ⟨lba, p1, halloc, hlba, -, -, hv⟩ := exists_alloc hL (by omega)
    have hL1 := hL.of_geometry (congrArg Volume.geometry hv)
    have hcard1 := Volume.card_freeBlocks_setUsed hlba
    set p2 := bitmapSync p1 (blockBitmapIdx p1 lba) .blockBitmap with hp2
    have hcard2 : todo ≤ p2.vol.freeBlocks.card := by
      rw [hv]
      omega
    set ino1 := if k < 12 then ino.setSector k lba else ino with hino1
    have hrec : allocBlocks p ino blocks (todo + 1) k =
        allocBlocks p2 ino1 (update blocks k lba) todo (k + 1) := by
      rw [allocBlocks, halloc, ok_bind, hino1]
      by_cases hk : k < 12
      · simp only [hk, if_true, assert, hz k le_rfl (by omega) hk, ok_bind, hp2]
      · simp only [hk, if_false, hp2]
    have hz1 : ∀ i, k + 1 ≤ i → i < k + 1 + todo → i < 12 → ino1.iSectors i = 0 := by
      intro i h1 h2 h3
      rw [hino1]
      split
      · rw [setSector_iSectors, if_neg (by omega)]
        exact hz i (by omega) (by omega) h3
      · exact hz i (by omega) (by omega) h3
    obtain ⟨p', addr, hrun, htakes⟩ := ih (update blocks k lba) (k + 1) hL1 hcard2 hz1
    rw [hv] at htakes
    have hend : k + 1 + todo = k + (todo + 1) := by omega
    rw [hend] at hrun htakes
    refine ⟨p', update addr k lba, ?_, htakes.step (by omega) hlba⟩
    rw [hrec, hrun, hino1, setSectors_update (by omega), setBlocks_update (by omega)]

/-! ## Giving a file more blocks -/

/-- The file has been given further blocks: those it had are where they were and hold what they
held, and so do the blocks of everybody else. -/
structure Grows (v : Volume) (ino : Inode) (v' : Volume) (ino' : Inode) : Prop where
  inode : ino' = { ino with iSectors := ino'.iSectors }
  vol : v' = { v with used := v'.used, data := v'.data }
  blocks : BlocksOk v' ino'
  used : ∀ b, v'.used b = true ↔ v.used b = true ∨ OwnsBlock v'.data ino' b
  table : ino'.iSectors 12 = ino.iSectors 12 ∨
    ino.iSectors 12 = 0 ∧ v.used (ino'.iSectors 12) = false
  frame : ∀ b, v.used b = true → b ≠ ino.iSectors 12 → v'.data b = v.data b
  kept : ∀ k < 140, allBlocks v.data ino k ≠ 0 →
    allBlocks v'.data ino' k = allBlocks v.data ino k
  fresh : ∀ b, OwnsBlock v'.data ino' b → OwnsBlock v.data ino b ∨ v.used b = false

theorem Grows.owns (h : Grows v ino v' ino') (hb : OwnsBlock v.data ino b) :
    OwnsBlock v'.data ino' b := by
  rcases hb with ⟨hb0, rfl | ⟨k, hk, rfl⟩⟩
  · rcases h.table with ht | ⟨ht, -⟩
    · exact ⟨hb0, Or.inl ht.symm⟩
    · exact absurd ht hb0
  · exact ⟨hb0, Or.inr ⟨k, hk, h.kept k hk hb0⟩⟩

theorem Grows.not_used (h : Grows v ino v' ino') (hb : v'.used b = false) : v.used b = false := by
  by_contra hu
  rw [(h.used b).2 (Or.inl (Bool.eq_true_of_not_eq_false hu))] at hb
  exact Bool.noConfusion hb

theorem Grows.refl (hB : BlocksOk v ino) : Grows v ino v ino where
  inode := rfl
  vol := rfl
  blocks := hB
  used _ := ⟨Or.inl, fun h => h.elim id hB.used_of_owns⟩
  table := Or.inl rfl
  frame _ _ _ := rfl
  kept _ _ _ := rfl
  fresh _ := Or.inl

theorem Grows.trans {v₁ v₂ : Volume} {ino₁ ino₂ : Inode} (h₁ : Grows v ino v₁ ino₁)
    (h₂ : Grows v₁ ino₁ v₂ ino₂) : Grows v ino v₂ ino₂ where
  inode := by rw [h₂.inode, h₁.inode]
  vol := by rw [h₂.vol, h₁.vol]
  blocks := h₂.blocks
  used b := by
    rw [h₂.used, h₁.used, or_assoc]
    exact or_congr_right ⟨fun h => h.elim h₂.owns id, Or.inr⟩
  table := by
    rcases h₂.table with h | ⟨h0, h⟩
    · rw [h]
      exact h₁.table
    · rcases h₁.table with h' | ⟨h', -⟩
      · exact Or.inr ⟨h' ▸ h0, h₁.not_used h⟩
      · exact Or.inr ⟨h', h₁.not_used h⟩
  frame b hb hne := by
    rw [h₂.frame b ((h₁.used b).2 (Or.inl hb)) ?_, h₁.frame b hb hne]
    rcases h₁.table with h | ⟨-, h⟩
    · rwa [h]
    · rintro rfl
      rw [h] at hb
      exact Bool.noConfusion hb
  kept k hk h0 := by
    have h := h₁.kept k hk h0
    rw [h₂.kept k hk (by rwa [h]), h]
  fresh b hb := (h₂.fresh b hb).elim (h₁.fresh b) fun h => Or.inr (h₁.not_used h)

section Grow

variable {v v' : Volume} {ino ino' : Inode} {k n : ℕ}

/-- Blocks `k` to `n - 1` are new, at free addresses, and perhaps the table. -/
theorem grows_of_addr (addr : ℕ → ℕ) (ha : v.Addressable) (hB : BlocksOk v ino) (hn : n ≤ 140)
    (hz : ∀ i, k ≤ i → i < 140 → allBlocks v.data ino i = 0)
    (hino : ino' = { ino with iSectors := ino'.iSectors })
    (hv : v' = { v with used := v'.used, data := v'.data })
    (htab : ino'.iSectors 12 = ino.iSectors 12 ∨ ino.iSectors 12 = 0 ∧
      v.Free (ino'.iSectors 12) ∧ ∀ i, k ≤ i → i < n → addr i ≠ ino'.iSectors 12)
    (hall : ∀ i < 140, allBlocks v'.data ino' i = setBlocks (allBlocks v.data ino) k n addr i)
    (hfree : ∀ i, k ≤ i → i < n → v.Free (addr i))
    (hinj : ∀ i j, k ≤ i → i < n → k ≤ j → j < n → addr i = addr j → i = j)
    (hused : ∀ b, v'.used b = true ↔ v.used b = true ∨ (b ≠ 0 ∧ b = ino'.iSectors 12) ∨
      ∃ i, k ≤ i ∧ i < n ∧ b = addr i)
    (hdata : ∀ b, v.used b = true → b ≠ ino.iSectors 12 → v'.data b = v.data b) :
    Grows v ino v' ino' := by
  have hnew : ∀ i, k ≤ i → i < n → allBlocks v'.data ino' i = addr i := fun i h1 h2 => by
    rw [hall i (by omega), setBlocks, if_pos ⟨h1, h2⟩]
  have hold : ∀ i < 140, ¬ (k ≤ i ∧ i < n) → allBlocks v'.data ino' i = allBlocks v.data ino i :=
    fun i hi h => by rw [hall i hi, setBlocks, if_neg h]
  have hne_old : ∀ i j, k ≤ i → i < n → j < 140 → allBlocks v.data ino j ≠ 0 →
      allBlocks v.data ino j ≠ addr i := fun i j h1 h2 hj hj0 =>
    (hfree i h1 h2).ne_of_used (hB.used j hj hj0)
  -- a block that is not new lies before `k`
  have hlt : ∀ i < 140, ¬ (k ≤ i ∧ i < n) → allBlocks v'.data ino' i ≠ 0 →
      allBlocks v.data ino i ≠ 0 := fun i hi h h0 => by rwa [hold i hi h] at h0
  refine ⟨hino, hv, ⟨fun i hi h0 => ?_, fun h0 => ?_, fun i hi j hj h0 heq => ?_,
    fun i hi h0 heq => ?_⟩, fun b => ?_, htab.imp_right fun h => ⟨h.1, h.2.1.free⟩, hdata,
    fun i hi h0 => ?_, fun b hb => ?_⟩
  · rw [hused]
    by_cases h : k ≤ i ∧ i < n
    · exact Or.inr (Or.inr ⟨i, h.1, h.2, hnew i h.1 h.2⟩)
    · rw [hold i hi h] at h0 ⊢
      exact Or.inl (hB.used i hi h0)
  · rw [hused]
    exact Or.inr (Or.inl ⟨h0, rfl⟩)
  · by_cases h1 : k ≤ i ∧ i < n <;> by_cases h2 : k ≤ j ∧ j < n
    · rw [hnew i h1.1 h1.2, hnew j h2.1 h2.2] at heq
      exact hinj i j h1.1 h1.2 h2.1 h2.2 heq
    · have hj0 := hlt j hj h2 (heq ▸ h0)
      rw [hnew i h1.1 h1.2, hold j hj h2] at heq
      exact absurd heq.symm (hne_old i j h1.1 h1.2 hj hj0)
    · have hi0 := hlt i hi h1 h0
      rw [hold i hi h1, hnew j h2.1 h2.2] at heq
      exact absurd heq (hne_old j i h2.1 h2.2 hi hi0)
    · rw [hold i hi h1] at h0 heq
      rw [hold j hj h2] at heq
      exact hB.inj i hi j hj h0 heq
  · by_cases h : k ≤ i ∧ i < n
    · rw [hnew i h.1 h.2] at heq
      rcases htab with ht | ⟨-, -, ht⟩
      · rw [ht] at h0 heq
        exact (hfree i h.1 h.2).ne_of_used (hB.table_used h0) heq.symm
      · exact ht i h.1 h.2 heq
    · rw [hold i hi h] at heq
      rcases htab with ht | ⟨-, ht, -⟩
      · rw [ht] at h0 heq
        exact hB.ne_table i hi h0 heq
      · exact ht.ne_of_used (hB.used i hi (heq ▸ h0)) heq
  · rw [hused, OwnsBlock]
    constructor
    · rintro (hb | ⟨hb0, hb⟩ | ⟨i, h1, h2, rfl⟩)
      · exact Or.inl hb
      · exact Or.inr ⟨hb0, Or.inl hb⟩
      · exact Or.inr ⟨(hfree i h1 h2).ne_zero ha, Or.inr ⟨i, by omega, hnew i h1 h2⟩⟩
    · rintro (hb | ⟨hb0, rfl | ⟨i, hi, rfl⟩⟩)
      · exact Or.inl hb
      · exact Or.inr (Or.inl ⟨hb0, rfl⟩)
      · by_cases h : k ≤ i ∧ i < n
        · exact Or.inr (Or.inr ⟨i, h.1, h.2, hnew i h.1 h.2⟩)
        · rw [hold i hi h] at hb0 ⊢
          exact Or.inl (hB.used i hi hb0)
  · exact hold i hi fun h => h0 (hz i h.1 hi)
  · rcases hb with ⟨hb0, rfl | ⟨i, hi, rfl⟩⟩
    · rcases htab with ht | ⟨-, ht, -⟩
      · exact Or.inl ⟨hb0, Or.inl ht⟩
      · exact Or.inr ht.free
    · by_cases h : k ≤ i ∧ i < n
      · rw [hnew i h.1 h.2]
        exact Or.inr (hfree i h.1 h.2).free
      · rw [hold i hi h] at hb0 ⊢
        exact Or.inl ⟨hb0, Or.inr ⟨i, hi, rfl⟩⟩

end Grow

/-- The number of blocks of a file with `m` blocks of data, the table included. -/
def blockCost (m : ℕ) : ℕ := m + if 12 < m then 1 else 0

/-- `file_write` has provided for a file of `will` blocks. -/
structure Collected (p : Partition) (ino : Inode) (will : ℕ) (p' : Partition) (ino' : Inode)
    (blocks : ℕ → ℕ) : Prop where
  grows : Grows p.vol ino p'.vol ino'
  iff : ∀ k < 140, allBlocks p'.vol.data ino' k ≠ 0 ↔ k < will
  table : ino'.iSectors 12 ≠ 0 ↔ 12 < will
  addr : ∀ k, ino.iSize / 512 ≤ k → k < will → blocks k = allBlocks p'.vol.data ino' k
  card : p'.vol.freeBlocks.card + blockCost will =
    p.vol.freeBlocks.card + blockCost (ino.iSize / 512 + 1)

section Collect

variable {p : Partition} {ino : Inode} {will : ℕ} {d : Disk} {k i n has : ℕ} {addr blocks : ℕ → ℕ}

theorem allBlocks_lt_word (hf : ino.Fits) (k : ℕ) : allBlocks d ino k < 4294967296 := by
  unfold allBlocks
  split
  · exact hf.iSectors k (by omega)
  · split
    · exact getLe32_lt _
    · omega

/-- The table as `file_write` reads it. -/
theorem tableBlocks_eq (hB : BlocksOk p.vol ino) (ht : ino.iSectors 12 ≠ 0) (hk : 12 ≤ k) :
    tableBlocks p.disk ino k = allBlocks p.vol.data ino k := by
  rw [← hB.allBlocks_vol]
  simp [tableBlocks, allBlocks, hk, ht, not_lt.2 hk]

theorem HasBlocks.eq_zero (hH : HasBlocks p.vol.data ino) (hi : ino.iSize / 512 + 1 ≤ i)
    (h140 : i < 140) : allBlocks p.vol.data ino i = 0 := by
  by_contra h
  have := (hH.iff i h140).1 h
  omega

theorem HasBlocks.iSectors_eq_zero (hH : HasBlocks p.vol.data ino) (hi : ino.iSize / 512 + 1 ≤ i)
    (h12 : i < 12) : ino.iSectors i = 0 := by
  rw [← hH.eq_zero hi (by omega), allBlocks_of_lt h12]

/-- Nothing to allocate. -/
theorem collectWrite_same (hB : BlocksOk p.vol ino) (hH : HasBlocks p.vol.data ino) :
    ∃ blocks, collectWrite p ino (ino.iSize / 512 + 1) (ino.iSize / 512 + 1) =
        .ok (true, p, ino, blocks) ∧ Collected p ino (ino.iSize / 512 + 1) p ino blocks := by
  have hrest : ∀ blocks : ℕ → ℕ,
      blocks (ino.iSize / 512) = allBlocks p.vol.data ino (ino.iSize / 512) →
      Collected p ino (ino.iSize / 512 + 1) p ino blocks := fun blocks h =>
    { grows := Grows.refl hB
      iff := fun k hk => (hH.iff k hk).trans Nat.lt_succ_iff.symm
      table := hH.table.trans Nat.lt_succ_iff.symm
      addr := fun k h1 h2 => by
        obtain rfl : k = ino.iSize / 512 := by omega
        exact h
      card := rfl }
  unfold collectWrite
  simp only [if_true, Nat.add_sub_cancel]
  by_cases h12 : ino.iSize / 512 + 1 ≤ 12
  · rw [if_pos h12]
    exact ⟨_, rfl, hrest _ (by rw [update_self, allBlocks_of_lt (by omega)])⟩
  · have ht : ino.iSectors 12 ≠ 0 := hH.table.2 (by omega)
    rw [if_neg h12, assert, if_pos ht]
    exact ⟨_, rfl, hrest _ (tableBlocks_eq hB ht (by omega))⟩

theorem setSectors_iSectors_of_le (hi : 12 ≤ i) :
    (ino.setSectors k n addr).iSectors i = ino.iSectors i := by
  simp only [Inode.setSectors, if_neg (not_lt.2 hi)]

theorem setSectors_iSectors_of_lt (hi : i < 12) :
    (ino.setSectors k n addr).iSectors i = setBlocks ino.iSectors k n addr i := by
  simp only [Inode.setSectors, if_pos hi]

/-- The blocks from `has` on are new. -/
theorem collected_of_addr (addr : ℕ → ℕ) {p' : Partition} {ino' : Inode} (hL : p.Layout)
    (hB : BlocksOk p.vol ino) (hH : HasBlocks p.vol.data ino) (hhas : has = ino.iSize / 512 + 1)
    (hle : has ≤ will) (h140 : will ≤ 140) (hino : ino' = { ino with iSectors := ino'.iSectors })
    (hv : p'.vol = { p.vol with used := p'.vol.used, data := p'.vol.data })
    (htab : ino'.iSectors 12 = ino.iSectors 12 ∨ ino.iSectors 12 = 0 ∧
      p.vol.Free (ino'.iSectors 12) ∧ ∀ i, has ≤ i → i < will → addr i ≠ ino'.iSectors 12)
    (hall : ∀ i < 140, allBlocks p'.vol.data ino' i =
      setBlocks (allBlocks p.vol.data ino) has will addr i)
    (hfree : ∀ i, has ≤ i → i < will → p.vol.Free (addr i))
    (hinj : ∀ i j, has ≤ i → i < will → has ≤ j → j < will → addr i = addr j → i = j)
    (hused : ∀ b, p'.vol.used b = true ↔ p.vol.used b = true ∨ (b ≠ 0 ∧ b = ino'.iSectors 12) ∨
      ∃ i, has ≤ i ∧ i < will ∧ b = addr i)
    (hdata : ∀ b, p.vol.used b = true → b ≠ ino.iSectors 12 → p'.vol.data b = p.vol.data b)
    (htable : ino'.iSectors 12 ≠ 0 ↔ 12 < will) (hblk : ∀ i, ino.iSize / 512 ≤ i → i < will →
      blocks i = setBlocks (allBlocks p.vol.data ino) has will addr i)
    (hcard : p'.vol.freeBlocks.card + blockCost will = p.vol.freeBlocks.card + blockCost has) :
    Collected p ino will p' ino' blocks := by
  have hz : ∀ i, has ≤ i → i < 140 → allBlocks p.vol.data ino i = 0 := fun i h1 h2 =>
    hH.eq_zero (hhas ▸ h1) h2
  refine ⟨grows_of_addr addr hL.addressable hB h140 hz hino hv htab hall hfree hinj hused hdata,
    fun i hi => ?_, htable, fun i h1 h2 => ?_, hhas ▸ hcard⟩
  · rw [hall i hi, setBlocks]
    by_cases h : has ≤ i ∧ i < will
    · rw [if_pos h]
      exact iff_of_true ((hfree i h.1 h.2).ne_zero hL.addressable) h.2
    · rw [if_neg h, hH.iff i hi]
      omega
  · rw [hblk i h1 h2, hall i (by omega)]

/-- All new blocks are direct blocks. -/
theorem collectWrite_direct (hL : p.Layout) (hB : BlocksOk p.vol ino)
    (hH : HasBlocks p.vol.data ino) (hhas : has = ino.iSize / 512 + 1) (hlt : has < will)
    (h12 : will ≤ 12) (hcard : will ≤ has + p.vol.freeBlocks.card) :
    ∃ p' ino' blocks, collectWrite p ino has will = .ok (true, p', ino', blocks) ∧
      Collected p ino will p' ino' blocks := by
  have hlast : ino.iSectors (has - 1) ≠ 0 := by
    have := (hH.iff (has - 1) (by omega)).2 (by omega)
    rwa [allBlocks_of_lt (by omega)] at this
  have ht : ino.iSectors 12 = 0 := by
    by_contra h
    have := hH.table.1 h
    omega
  obtain ⟨p', addr, hrun, htakes⟩ := exists_allocBlocks
    (update (fun _ => 0) (has - 1) (ino.iSectors (has - 1))) has hL
    (show will - has ≤ p.vol.freeBlocks.card by omega)
    fun i h1 _ h3 => hH.iSectors_eq_zero (hhas ▸ h1) h3
  rw [show has + (will - has) = will by omega] at hrun htakes
  have hdata : p'.vol.data = p.vol.data := by rw [htakes.eq]
  have ht' : (ino.setSectors has will addr).iSectors 12 = 0 := by
    rw [setSectors_iSectors_of_le le_rfl, ht]
  have hcol : collectWrite p ino has will = allocBlocks p ino
      (update (fun _ => 0) (has - 1) (ino.iSectors (has - 1))) (will - has) has := by
    unfold collectWrite
    rw [if_neg (by omega), if_pos h12, assert, if_pos hlast, ok_bind]
  refine ⟨p', _, _, hcol.trans hrun, collected_of_addr addr hL hB hH hhas hlt.le
    (by omega) rfl (by rw [htakes.eq]) (Or.inl (ht'.trans ht.symm)) (fun i hi => ?_) htakes.free
    htakes.inj (fun b => ?_) (fun b _ _ => by rw [hdata]) ?_ (fun i h1 h2 => ?_) ?_⟩
  · by_cases h : i < 12
    · rw [allBlocks_of_lt h, setSectors_iSectors_of_lt h, setBlocks, setBlocks, allBlocks_of_lt h]
    · rw [allBlocks_of_no_table ht' (not_lt.1 h), setBlocks, if_neg (by omega),
        allBlocks_of_no_table ht (not_lt.1 h)]
  · rw [htakes.used, ht']
    refine or_congr_right ⟨Or.inr, fun h => h.resolve_left fun h => h.1 h.2⟩
  · rw [ht']
    exact iff_of_false (fun h => h rfl) (by omega)
  · rw [setBlocks, setBlocks]
    split
    · rfl
    · obtain rfl : i = has - 1 := by omega
      rw [update_self, allBlocks_of_lt (by omega)]
  · have := htakes.card
    simp only [blockCost, if_neg (show ¬ 12 < will by omega), if_neg (show ¬ 12 < has by omega)]
    omega

/-- A table that has been written is read back. -/
theorem allBlocks_of_tableSector (h12 : ino.iSectors 12 ≠ 0)
    (hd : d (ino.iSectors 12) = tableSector blocks) (hi : 12 ≤ i) (hlt : blocks i < 4294967296) :
    allBlocks d ino i = blocks i := by
  obtain ⟨i, rfl⟩ := Nat.exists_eq_add_of_le hi
  rw [allBlocks_of_table h12, hd, getLe32_tableSector, Nat.mod_eq_of_lt hlt]

/-- The file crosses from direct blocks to the table. -/
theorem collectWrite_cross (hL : p.Layout) (hB : BlocksOk p.vol ino) (hH : HasBlocks p.vol.data ino)
    (hhas : has = ino.iSize / 512 + 1) (h12 : has ≤ 12) (hlt : 12 < will) (h140 : will ≤ 140)
    (hcard : will + 1 ≤ has + p.vol.freeBlocks.card) :
    ∃ p' ino' blocks, collectWrite p ino has will = .ok (true, p', ino', blocks) ∧
      Collected p ino will p' ino' blocks := by
  have ht : ino.iSectors 12 = 0 := by
    by_contra h
    have := hH.table.1 h
    omega
  obtain ⟨t, p1, halloc, htfree, hv1, -, -⟩ := exists_alloc hL (by omega)
  have hL1 := hL.of_geometry (congrArg Volume.geometry hv1)
  have hcard1 := Volume.card_freeBlocks_setUsed htfree
  have hz : ∀ i, has ≤ i → i < has + (will - has) → i < 12 →
      (ino.setSector 12 t).iSectors i = 0 := fun i h1 _ h3 => by
    rw [setSector_iSectors, if_neg (by omega)]
    exact hH.iSectors_eq_zero (hhas ▸ h1) h3
  set last := update (fun _ => 0) (has - 1) (ino.iSectors (has - 1)) with hlast
  obtain ⟨p2, addr, hrun, htakes⟩ := exists_allocBlocks last has hL1
    (show will - has ≤ p1.vol.freeBlocks.card by rw [hv1]; omega) hz
  rw [show has + (will - has) = will by omega] at hrun htakes
  have hL2 := htakes.layout hL1
  rw [hv1] at htakes
  set blocks := setBlocks last has will addr with hblocks
  set ino' := (ino.setSector 12 t).setSectors has will addr with hino'
  set p' : Partition := { p2 with disk := ideWrite p2.disk t (tableSector blocks) } with hp'
  have hsb : p2.sb = p.sb := congrArg (·.geometry.sb) htakes.eq
  have hv' : p'.vol = p2.vol.write t (tableSector blocks) :=
    Partition.vol_write hL2 (by rw [hsb]; exact htfree.start) _
  have hcol : collectWrite p ino has will = .ok (true, p', ino', blocks) := by
    unfold collectWrite
    rw [if_neg (by omega), if_neg (by omega), if_pos h12, halloc, ok_bind]
    simp only [assert, if_pos ht, ok_bind, ← hlast, hrun]
    rfl
  have ht0 : t ≠ 0 := htfree.ne_zero hL.addressable
  have ht' : ino'.iSectors 12 = t := by
    rw [hino', setSectors_iSectors_of_le le_rfl, setSector_iSectors, if_pos rfl]
  have haddr : ∀ i, has ≤ i → i < will → p.vol.Free (addr i) ∧ addr i ≠ t := fun i h1 h2 =>
    ⟨(htakes.free i h1 h2).of_setUsed, (htakes.free i h1 h2).ne_of_setUsed.symm⟩
  have hbig : ∀ i, 12 ≤ i → blocks i = setBlocks (allBlocks p.vol.data ino) has will addr i := by
    intro i hi
    rw [hblocks, setBlocks, setBlocks]
    split
    · rfl
    · rw [hlast, update_of_ne (by omega), allBlocks_of_no_table ht hi]
  refine ⟨p', ino', blocks, hcol, collected_of_addr addr hL hB hH hhas (by omega) h140 rfl ?_
    (Or.inr ⟨ht, by rw [ht']; exact htfree, fun i h1 h2 => by rw [ht']; exact (haddr i h1 h2).2⟩)
    (fun i hi => ?_) (fun i h1 h2 => (haddr i h1 h2).1) htakes.inj (fun b => ?_) (fun b hb _ => ?_)
    ?_ (fun i h1 h2 => ?_) ?_⟩
  · rw [hv', htakes.eq]
    rfl
  · by_cases h : i < 12
    · rw [allBlocks_of_lt h, hino', setSectors_iSectors_of_lt h, setBlocks, setBlocks,
        setSector_iSectors, if_neg (show i ≠ 12 by omega), allBlocks_of_lt h]
    · rw [← hbig i (not_lt.1 h)]
      refine allBlocks_of_tableSector (by rwa [ht']) ?_ (not_lt.1 h) ?_
      · rw [ht', hv']
        simp [Volume.write]
      · rw [hbig i (not_lt.1 h), setBlocks]
        split
        · rename_i h'
          exact (haddr i h'.1 h'.2).1.lt_word hL.addressable
        · rw [allBlocks_of_no_table ht (not_lt.1 h)]
          omega
  · rw [hv']
    change p2.vol.used b = true ↔ _
    rw [htakes.used, ht']
    simp only [Volume.setUsed, update_apply]
    constructor
    · rintro (hb | hb)
      · by_cases hbt : b = t
        · exact Or.inr (Or.inl ⟨hbt ▸ ht0, hbt⟩)
        · rw [if_neg hbt] at hb
          exact Or.inl hb
      · exact Or.inr (Or.inr hb)
    · rintro (hb | ⟨-, rfl⟩ | hb)
      · left
        split
        · rfl
        · exact hb
      · simp
      · exact Or.inr hb
  · rw [hv', htakes.eq]
    simp [Volume.write, Volume.setUsed, htfree.ne_of_used hb]
  · rw [ht']
    exact iff_of_true ht0 hlt
  · by_cases h : 12 ≤ i
    · exact hbig i h
    · rw [hblocks, setBlocks, setBlocks]
      split
      · rfl
      · obtain rfl : i = has - 1 := by omega
        rw [hlast, update_self, allBlocks_of_lt (by omega)]
  · have h1 := htakes.card
    have h2 : p'.vol.freeBlocks = p2.vol.freeBlocks := by rw [hv']; rfl
    rw [h2]
    simp only [blockCost, if_pos hlt, if_neg (show ¬ 12 < has by omega)]
    omega

/-- All new blocks are listed in the table. -/
theorem collectWrite_indirect (hL : p.Layout) (hB : BlocksOk p.vol ino) (hf : ino.Fits)
    (hH : HasBlocks p.vol.data ino) (hhas : has = ino.iSize / 512 + 1) (h12 : 12 < has)
    (hlt : has < will) (h140 : will ≤ 140) (hcard : will ≤ has + p.vol.freeBlocks.card) :
    ∃ p' ino' blocks, collectWrite p ino has will = .ok (true, p', ino', blocks) ∧
      Collected p ino will p' ino' blocks := by
  have ht : ino.iSectors 12 ≠ 0 := hH.table.2 (by omega)
  obtain ⟨p2, addr, hrun, htakes⟩ := exists_allocBlocks (tableBlocks p.disk ino) has hL
    (show will - has ≤ p.vol.freeBlocks.card by omega)
    fun i h1 _ h3 => by omega
  rw [show has + (will - has) = will by omega] at hrun htakes
  have hL2 := htakes.layout hL
  set blocks := setBlocks (tableBlocks p.disk ino) has will addr with hblocks
  set ino' := ino.setSectors has will addr with hino'
  have ht' : ino'.iSectors 12 = ino.iSectors 12 := setSectors_iSectors_of_le le_rfl
  set p' : Partition :=
    { p2 with disk := ideWrite p2.disk (ino'.iSectors 12) (tableSector blocks) }
  have hsb : p2.sb = p.sb := congrArg (·.geometry.sb) htakes.eq
  have hv' : p'.vol = p2.vol.write (ino'.iSectors 12) (tableSector blocks) := by
    refine Partition.vol_write hL2 ?_ _
    rw [hsb, ht']
    exact Partition.dataStart_le_of_used (hB.table_used ht)
  have hcol : collectWrite p ino has will = .ok (true, p', ino', blocks) := by
    unfold collectWrite
    rw [if_neg (by omega), if_neg (by omega), if_neg (by omega), assert, if_pos ht, ok_bind, hrun]
    rfl
  have hbig : ∀ i, 12 ≤ i → blocks i = setBlocks (allBlocks p.vol.data ino) has will addr i := by
    intro i hi
    rw [hblocks, setBlocks, setBlocks, tableBlocks_eq hB ht hi]
  refine ⟨p', ino', blocks, hcol, collected_of_addr addr hL hB hH hhas hlt.le h140 rfl ?_
    (Or.inl ht') (fun i hi => ?_) htakes.free htakes.inj (fun b => ?_) (fun b hb hne => ?_)
    ?_ (fun i h1 h2 => hbig i (by omega)) ?_⟩
  · rw [hv', htakes.eq]
    rfl
  · by_cases h : i < 12
    · rw [allBlocks_of_lt h, hino', setSectors_iSectors_of_lt h, setBlocks, setBlocks,
        allBlocks_of_lt h]
    · rw [← hbig i (not_lt.1 h)]
      refine allBlocks_of_tableSector (by rwa [ht']) ?_ (not_lt.1 h) ?_
      · rw [hv']
        simp [Volume.write]
      · rw [hbig i (not_lt.1 h), setBlocks]
        split
        · rename_i h'
          exact (htakes.free i h'.1 h'.2).lt_word hL.addressable
        · exact allBlocks_lt_word hf i
  · rw [hv']
    change p2.vol.used b = true ↔ _
    rw [htakes.used, ht']
    constructor
    · rintro (hb | hb)
      · exact Or.inl hb
      · exact Or.inr (Or.inr hb)
    · rintro (hb | ⟨-, rfl⟩ | hb)
      · exact Or.inl hb
      · exact Or.inl (hB.table_used ht)
      · exact Or.inr hb
  · rw [hv', htakes.eq, ht']
    simp [Volume.write, hne]
  · rw [ht']
    exact iff_of_true ht (by omega)
  · have h1 := htakes.card
    have h2 : p'.vol.freeBlocks = p2.vol.freeBlocks := by rw [hv']; rfl
    rw [h2]
    simp only [blockCost, if_pos h12, if_pos (h12.trans hlt)]
    omega

/-- **Providing the blocks**: with enough free blocks `file_write` collects the addresses of a
file of `will` blocks. -/
theorem exists_collectWrite (hL : p.Layout) (hB : BlocksOk p.vol ino) (hf : ino.Fits)
    (hH : HasBlocks p.vol.data ino) (hhas : has = ino.iSize / 512 + 1) (hle : has ≤ will)
    (h140 : will ≤ 140) (hcard : blockCost will ≤ blockCost has + p.vol.freeBlocks.card) :
    ∃ p' ino' blocks, collectWrite p ino has will = .ok (true, p', ino', blocks) ∧
      Collected p ino will p' ino' blocks := by
  unfold blockCost at hcard
  rcases hle.eq_or_lt with rfl | hlt
  · subst hhas
    obtain ⟨blocks, h1, h2⟩ := collectWrite_same hB hH
    exact ⟨p, ino, blocks, h1, h2⟩
  · by_cases h12 : will ≤ 12
    · refine collectWrite_direct hL hB hH hhas hlt h12 ?_
      rw [if_neg (by omega), if_neg (by omega)] at hcard
      omega
    · rw [if_pos (by omega)] at hcard
      by_cases hhas12 : has ≤ 12
      · refine collectWrite_cross hL hB hH hhas hhas12 (by omega) h140 ?_
        rw [if_neg (by omega)] at hcard
        omega
      · refine collectWrite_indirect hL hB hf hH hhas (by omega) hlt h140 ?_
        rw [if_pos (by omega)] at hcard
        omega

/-- The number of blocks of a file, the table included. -/
def blocksHeld (ino : Inode) : ℕ :=
  if ino.iSectors 0 = 0 then 0 else blockCost (ino.iSize / 512 + 1)

/-- After the first step of `file_write` the file has its first block. -/
theorem exists_firstBlock (hL : p.Layout) (hok : FileOk p.vol ino)
    (hroot : p.vol.used p.sb.dataStartLba = true)
    (hcard : ino.iSectors 0 = 0 → 0 < p.vol.freeBlocks.card) :
    ∃ p' ino', firstBlock p ino = .ok (true, p', ino') ∧ Grows p.vol ino p'.vol ino' ∧
      HasBlocks p'.vol.data ino' ∧
      p'.vol.freeBlocks.card + blockCost (ino'.iSize / 512 + 1) =
        p.vol.freeBlocks.card + blocksHeld ino := by
  unfold firstBlock blocksHeld
  by_cases h0 : ino.iSectors 0 = 0
  · rw [if_neg (not_not.2 h0), if_pos h0]
    -- a file without its first block has never been written
    obtain ⟨hsize, hz⟩ : ino.iSize = 0 ∧ ∀ k < 13, ino.iSectors k = 0 := by
      refine hok.shape.resolve_right fun hH => ?_
      have := (hH.iff 0 (by omega)).2 (Nat.zero_le _)
      rw [allBlocks_of_lt (by omega)] at this
      exact this h0
    have hall : ∀ k, allBlocks p.vol.data ino k = 0 := by
      intro k
      by_cases hk : k < 12
      · rw [allBlocks_of_lt hk, hz k (by omega)]
      · rw [allBlocks_of_no_table (hz 12 (by omega)) (not_lt.1 hk)]
    obtain ⟨lba, p1, halloc, hfree, -, hidx, hv⟩ := exists_alloc hL (hcard h0)
    set p2 := bitmapSync p1 (blockBitmapIdx p1 lba) .blockBitmap with hp2
    have hidx0 : blockBitmapIdx p1 lba ≠ 0 := by
      have h1 : lba ≠ p.sb.dataStartLba := (hfree.ne_of_used hroot).symm
      have h2 : p.sb.dataStartLba ≤ lba := hfree.start
      omega
    have ht : (ino.setSector 0 lba).iSectors 12 = ino.iSectors 12 := by
      rw [setSector_iSectors, if_neg (by omega)]
    have hall' : ∀ i, allBlocks p2.vol.data (ino.setSector 0 lba) i = if i = 0 then lba else 0 := by
      intro i
      by_cases hi : i < 12
      · rw [allBlocks_of_lt hi, setSector_iSectors, hz i (by omega)]
      · rw [allBlocks_of_no_table (ht.trans (hz 12 (by omega))) (not_lt.1 hi), if_neg (by omega)]
    have hlba0 : lba ≠ 0 := hfree.ne_zero hL.addressable
    refine ⟨p2, ino.setSector 0 lba, ?_, ?_, ⟨fun k hk => ?_, ?_⟩, ?_⟩
    · rw [halloc, ok_bind]
      simp only [assert, if_pos hidx0, ok_bind, ← hp2]
      rfl
    · refine grows_of_addr (k := 0) (n := 1) (fun _ => lba) hL.addressable hok.blocks (by omega)
        (fun i _ _ => hall i) rfl (by rw [hv]; rfl) (Or.inl ht) (fun i _ => ?_)
        (fun _ _ _ => hfree) (fun i j _ _ _ _ _ => by omega) (fun b => ?_) (fun b _ _ => ?_)
      · rw [hall', setBlocks, hall]
        simp only [Nat.zero_le, true_and, Nat.lt_one_iff]
      · rw [hv, ht, hz 12 (by omega)]
        simp only [Volume.setUsed, update_apply]
        by_cases hb : b = lba
        · simp only [hb, if_true, true_iff]
          exact Or.inr (Or.inr ⟨0, le_rfl, by omega, trivial⟩)
        · rw [if_neg hb]
          refine ⟨Or.inl, ?_⟩
          rintro (h | ⟨h1, h2⟩ | ⟨_, _, _, h⟩)
          · exact h
          · exact absurd h2 h1
          · exact absurd h hb
      · rw [hv]
        rfl
    · rw [hall']
      change _ ↔ k ≤ ino.iSize / 512
      rw [hsize]
      by_cases hk0 : k = 0
      · simp [hk0, hlba0]
      · simp [hk0]
    · rw [ht, hz 12 (by omega)]
      change _ ↔ 12 ≤ ino.iSize / 512
      simp [hsize]
    · have := Volume.card_freeBlocks_setUsed hfree
      rw [hv]
      change _ + blockCost (ino.iSize / 512 + 1) = _
      rw [hsize]
      exact this
  · rw [if_pos h0, if_neg h0]
    refine ⟨p, ino, rfl, Grows.refl hok.blocks, hok.shape.resolve_left fun h => ?_, rfl⟩
    exact h0 (h.2 0 (by omega))

end Collect

end Gardos.Fs
