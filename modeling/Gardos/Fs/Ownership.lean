import Gardos.Fs.Remove
import Gardos.Fs.Content
import Gardos.Fs.Create

/-!
# Who owns which block

Every call that changes the blocks of a file or directory changes those of one inode at a time:
the blocks it takes were free, the blocks it gives back become free, and it writes to no block of
another inode. `OwnerStep` says this once for all of them, and `Owned` is the invariant that every
block in use belongs to exactly one inode. The bits behind the last data block, which
`partition_format` sets to fill up the bitmap, are not blocks.

* `DirInsert.ownerStep`, `DirRemove.ownerStep`, `Appends.ownerStep`, `ownerStep_newDir`,
  `Releases.ownerStep`: the steps of the calls.
* `Owned.step`: a step keeps the invariant.
-/

namespace Gardos.Fs

open Bytes Outcome Function

/-! ## Steps -/

/-- The blocks of one inode change. -/
structure OwnerStep (v : Volume) (ino : Inode) (v' : Volume) (ino' : Inode) : Prop where
  vol : v' = { v with used := v'.used, data := v'.data }
  blocks : BlocksOk v' ino'
  fresh : ∀ b, OwnsBlock v'.data ino' b → OwnsBlock v.data ino b ∨ v.used b = false
  taken : ∀ b, v'.used b = true → v.used b = true ∨ OwnsBlock v'.data ino' b
  freed : ∀ b, OwnsBlock v.data ino b → v'.used b = true → OwnsBlock v'.data ino' b
  kept : ∀ b, v.used b = true → ¬ OwnsBlock v.data ino b →
    v'.used b = true ∧ v'.data b = v.data b

/-- The blocks of an inode that a step does not touch. -/
def Untouched (v v' : Volume) (ino : Inode) : Prop :=
  ∀ b, OwnsBlock v.data ino b → v'.used b = true ∧ v'.data b = v.data b

section Untouched

variable {v v' : Volume} {ino : Inode}

theorem ownsBlock_allBlocks {d : Disk} {k : ℕ} (hk : k < 140) (h0 : allBlocks d ino k ≠ 0) :
    OwnsBlock d ino (allBlocks d ino k) := ⟨h0, Or.inr ⟨k, hk, rfl⟩⟩

theorem Untouched.allBlocks_eq (h : Untouched v v' ino) (k : ℕ) :
    allBlocks v'.data ino k = allBlocks v.data ino k :=
  allBlocks_congr (fun _ _ => rfl) fun ht => (h _ ⟨ht, Or.inl rfl⟩).2

theorem Untouched.data_eq (h : Untouched v v' ino) {k : ℕ} (hk : k < 140)
    (h0 : allBlocks v.data ino k ≠ 0) :
    v'.data (allBlocks v.data ino k) = v.data (allBlocks v.data ino k) :=
  (h _ (ownsBlock_allBlocks hk h0)).2

theorem Untouched.ownsBlock_iff (h : Untouched v v' ino) (b : ℕ) :
    OwnsBlock v'.data ino b ↔ OwnsBlock v.data ino b :=
  OwnsBlock.congr rfl (fun k _ => h.allBlocks_eq k) b

theorem Untouched.blocksOk (h : Untouched v v' ino) (hB : BlocksOk v ino) : BlocksOk v' ino where
  used k hk h0 := by
    rw [h.allBlocks_eq] at h0 ⊢
    exact (h _ (ownsBlock_allBlocks hk h0)).1
  table_used h0 := (h _ ⟨h0, Or.inl rfl⟩).1
  inj j hj k hk h0 heq := by
    rw [h.allBlocks_eq] at h0 heq
    rw [h.allBlocks_eq] at heq
    exact hB.inj j hj k hk h0 heq
  ne_table k hk h0 := by
    rw [h.allBlocks_eq]
    exact hB.ne_table k hk h0

theorem Untouched.liveEntries_eq (h : Untouched v v' ino) :
    liveEntries v'.data ino = liveEntries v.data ino :=
  flatMap_range_congr fun k hk => by
    rw [h.allBlocks_eq]
    exact liveAt_congr (h.data_eq hk)

theorem Untouched.dirOk (h : Untouched v v' ino) {f : List UInt8 → Option (ℕ × Kind)}
    (hd : DirOk v ino f) : DirOk v' ino f := by
  have h0 : allBlocks v.data ino 0 = ino.iSectors 0 := allBlocks_of_lt (by omega)
  have hdata : v'.data (ino.iSectors 0) = v.data (ino.iSectors 0) := by
    rw [← h0]
    exact h.data_eq (by omega) (by rw [h0]; exact hd.first)
  refine ⟨h.blocksOk hd.blocks, hd.table,
    hd.holds.congr (fun k _ => h.allBlocks_eq k) fun k hk => h.data_eq hk, ?_, hd.first, ?_, ?_⟩
  · rw [h.liveEntries_eq]
    exact hd.size
  · rw [hdata]
    exact hd.entry_dot
  · rw [hdata]
    exact hd.entry_dotDot

theorem Untouched.fileOk (h : Untouched v v' ino) (hf : FileOk v ino) : FileOk v' ino :=
  ⟨h.blocksOk hf.blocks, hf.shape.imp_right fun hH =>
    ⟨fun k hk => by rw [h.allBlocks_eq]; exact hH.iff k hk, hH.table⟩⟩

theorem OwnerStep.untouched {x x' : Inode} (hs : OwnerStep v x v' x') (hB : BlocksOk v ino)
    (hdis : ∀ b, OwnsBlock v.data ino b → ¬ OwnsBlock v.data x b) : Untouched v v' ino :=
  fun b hb => hs.kept b (hB.used_of_owns hb) (hdis b hb)

end Untouched

/-! ## The invariant -/

/-- The blocks at the addresses below this one are data blocks. -/
def Geometry.dataEnd (g : Geometry) : ℕ := g.sb.dataStartLba + blockBitmapBitLen g.secCnt

/-- Every block in use belongs to exactly one of the inodes in `S`. -/
structure Owned (v : Volume) (S : ℕ → Prop) : Prop where
  blocks : ∀ n, S n → BlocksOk v (v.inode n)
  owner : ∀ b < v.geometry.dataEnd, v.used b = true →
    ∃ n, S n ∧ OwnsBlock v.data (v.inode n) b
  disjoint : ∀ m n b, S m → S n → OwnsBlock v.data (v.inode m) b →
    OwnsBlock v.data (v.inode n) b → m = n

/-- Inodes with the same addresses own the same blocks. -/
theorem OwnsBlock.of_same {d : Disk} {a b : Inode} (h : ∀ k < 13, a.iSectors k = b.iSectors k)
    (x : ℕ) : OwnsBlock d a x ↔ OwnsBlock d b x :=
  OwnsBlock.congr (h 12 (by omega)) (fun _ _ => allBlocks_congr h fun _ => rfl) x

section Step

variable {v v' : Volume} {S : ℕ → Prop} {n : ℕ} {ino ino' x : Inode}

theorem OwnerStep.inode_eq (hs : OwnerStep v ino v' ino') : v'.inode = v.inode := by rw [hs.vol]

/-- The other inodes keep their blocks. -/
theorem Owned.untouched (h : Owned v S) (hn : S n) (hs : OwnerStep v ino v' ino')
    (hino : ∀ k < 13, ino.iSectors k = (v.inode n).iSectors k) {m : ℕ} (hm : S m) (hmn : m ≠ n) :
    Untouched v v' (v.inode m) :=
  hs.untouched (h.blocks m hm) fun b hb hb' =>
    hmn (h.disjoint m n b hm hn hb ((OwnsBlock.of_same hino b).1 hb'))

/-- **A step keeps the ownership exact.** -/
theorem Owned.step (h : Owned v S) (hn : S n) (hs : OwnerStep v ino v' ino')
    (hino : ∀ k < 13, ino.iSectors k = (v.inode n).iSectors k)
    (hx : ∀ k < 13, x.iSectors k = ino'.iSectors k) : Owned (v'.setInode n x) S := by
  have hother : ∀ m, m ≠ n → (v'.setInode n x).inode m = v.inode m := fun m hm => by
    rw [Volume.setInode_inode_of_ne _ _ hm, hs.inode_eq]
  have hown : ∀ b, OwnsBlock v'.data x b ↔ OwnsBlock v'.data ino' b := OwnsBlock.of_same hx
  have hunt : ∀ m, S m → m ≠ n → Untouched v v' (v.inode m) := fun m => h.untouched hn hs hino
  -- a block of the changed inode is not a block of another one
  have hdis : ∀ m b, S m → m ≠ n → OwnsBlock v'.data x b → ¬ OwnsBlock v'.data (v.inode m) b := by
    intro m b hm hmn hb hb'
    rw [(hunt m hm hmn).ownsBlock_iff] at hb'
    rcases hs.fresh b ((hown b).1 hb) with hold | hfree
    · exact hmn (h.disjoint m n b hm hn hb' ((OwnsBlock.of_same hino b).1 hold))
    · rw [(h.blocks m hm).used_of_owns hb'] at hfree
      exact Bool.noConfusion hfree
  refine ⟨fun m hm => ?_, fun b hend hb => ?_, fun m₁ m₂ b h₁ h₂ hb₁ hb₂ => ?_⟩
  · by_cases hmn : m = n
    · subst hmn
      rw [Volume.setInode_inode_self]
      exact hs.blocks.congr rfl (hx 12 (by omega)) fun _ _ => allBlocks_congr hx fun _ => rfl
    · rw [hother m hmn]
      exact ((hunt m hm hmn).blocksOk (h.blocks m hm)).congr rfl rfl fun _ _ => rfl
  · have hself : OwnsBlock v'.data ino' b →
        ∃ m, S m ∧ OwnsBlock (v'.setInode n x).data ((v'.setInode n x).inode m) b := fun ho =>
      ⟨n, hn, by rw [Volume.setInode_inode_self]; exact (hown b).2 ho⟩
    rcases hs.taken b hb with hold | hnew
    · obtain ⟨m, hm, ho⟩ := h.owner b (by rw [hs.vol] at hend; exact hend) hold
      by_cases hmn : m = n
      · subst hmn
        exact hself (hs.freed b ((OwnsBlock.of_same hino b).2 ho) hb)
      · refine ⟨m, hm, ?_⟩
        rw [hother m hmn]
        exact ((hunt m hm hmn).ownsBlock_iff b).2 ho
    · exact hself hnew
  · by_cases hm₁ : m₁ = n <;> by_cases hm₂ : m₂ = n
    · rw [hm₁, hm₂]
    · subst hm₁
      rw [Volume.setInode_inode_self] at hb₁
      rw [hother m₂ hm₂] at hb₂
      exact absurd hb₂ (hdis m₂ b h₂ hm₂ hb₁)
    · subst hm₂
      rw [Volume.setInode_inode_self] at hb₂
      rw [hother m₁ hm₁] at hb₁
      exact absurd hb₁ (hdis m₁ b h₁ hm₁ hb₂)
    · rw [hother m₁ hm₁] at hb₁
      rw [hother m₂ hm₂] at hb₂
      exact h.disjoint m₁ m₂ b h₁ h₂ (((hunt m₁ h₁ hm₁).ownsBlock_iff b).1 hb₁)
        (((hunt m₂ h₂ hm₂).ownsBlock_iff b).1 hb₂)

end Step

/-! ## The steps of the calls -/

section Instances

variable {v v' : Volume} {ino ino' : Inode} {e : DirEntry}

/-- Writing to a block of an inode, without a change of its addresses. -/
theorem ownerStep_write (hB : BlocksOk v ino) {k : ℕ} (hk : k < 12) (hne : ino.iSectors k ≠ 0)
    (buf : Buf) (hx : ∀ i, ino'.iSectors i = ino.iSectors i) :
    OwnerStep v ino (v.write (ino.iSectors k) buf) ino' := by
  have hlba : allBlocks v.data ino k = ino.iSectors k := allBlocks_of_lt hk
  have hall : ∀ i, allBlocks (v.write (ino.iSectors k) buf).data ino' i =
      allBlocks v.data ino i := fun i => by
    have := allBlocks_write hB (show k < 140 by omega) buf i
    rw [hlba] at this
    rw [← this]
    exact allBlocks_congr (fun i _ => hx i) fun _ => rfl
  have hown : ∀ b, OwnsBlock (v.write (ino.iSectors k) buf).data ino' b ↔
      OwnsBlock v.data ino b := OwnsBlock.congr (hx 12) fun i _ => hall i
  refine ⟨rfl, hB.congr rfl (hx 12) fun i _ => hall i, fun b hb => Or.inl ((hown b).1 hb),
    fun b hb => Or.inl hb, fun b hb _ => (hown b).2 hb, fun b hb hnot => ⟨hb, ?_⟩⟩
  refine update_of_ne (fun h => hnot ?_) _ _
  rw [h, ← hlba]
  exact ownsBlock_allBlocks (by omega) (by rwa [hlba])

/-- The blocks of an inode without a table. -/
theorem ownsBlock_of_no_table (d : Disk) (ht : ino.iSectors 12 = 0) (b : ℕ) :
    OwnsBlock d ino b ↔ b ≠ 0 ∧ ∃ i < 12, ino.iSectors i = b := by
  refine and_congr_right fun hb => ⟨?_, ?_⟩
  · rintro (h | ⟨i, hi, h⟩)
    · exact absurd (h.trans ht) hb
    · by_cases h12 : i < 12
      · exact ⟨i, h12, by rwa [allBlocks_of_lt h12] at h⟩
      · rw [allBlocks_of_no_table ht (not_lt.1 h12)] at h
        exact absurd h.symm hb
  · rintro ⟨i, hi, h⟩
    exact Or.inr ⟨i, by omega, by rwa [allBlocks_of_lt hi]⟩

/-- Two inodes without a table that differ in address `k` at most. -/
theorem ownsBlock_setSector {d : Disk} {k lba : ℕ} (hk : k < 12) (ht : ino.iSectors 12 = 0)
    (hx : ino'.iSectors = (ino.setSector k lba).iSectors) (b : ℕ) :
    OwnsBlock d ino' b ↔ b ≠ 0 ∧ (b = lba ∨ ∃ i < 12, i ≠ k ∧ ino.iSectors i = b) := by
  have hsec : ∀ i, ino'.iSectors i = if i = k then lba else ino.iSectors i := fun i => by
    rw [hx, setSector_iSectors]
  rw [ownsBlock_of_no_table _ (by rw [hsec, if_neg (by omega), ht])]
  refine and_congr_right fun _ => ⟨?_, ?_⟩
  · rintro ⟨i, hi, h⟩
    rw [hsec] at h
    split at h
    · exact Or.inl h.symm
    · rename_i hik
      exact Or.inr ⟨i, hi, hik, h⟩
  · rintro (h | ⟨i, hi, hik, h⟩)
    · exact ⟨k, hk, by rw [hsec, if_pos rfl, h]⟩
    · exact ⟨i, hi, by rw [hsec, if_neg hik, h]⟩

theorem DirRemove.ownerStep (h : DirRemove v ino e v' ino') (hB : BlocksOk v ino)
    (ht : ino.iSectors 12 = 0) : OwnerStep v ino v' ino' := by
  have hB' := h.blocksOk hB
  cases h with
  | slot k j hk hj hne he hl => exact ownerStep_write hB hk hne _ fun _ => rfl
  | block k hk hne he =>
    have hown : ∀ b, OwnsBlock v.data (ino.setSector k 0).shrink b ↔
        OwnsBlock v.data ino b ∧ b ≠ ino.iSectors k := by
      intro b
      rw [ownsBlock_setSector hk ht (show (ino.setSector k 0).shrink.iSectors = _ from rfl),
        ownsBlock_of_no_table _ ht]
      constructor
      · rintro ⟨hb, h | ⟨i, hi, hik, rfl⟩⟩
        · exact absurd h hb
        · refine ⟨⟨hb, i, hi, rfl⟩, fun h => hik (hB.inj i (by omega) k (by omega) ?_ ?_)⟩
          · rwa [allBlocks_of_lt hi]
          · rwa [allBlocks_of_lt hi, allBlocks_of_lt hk]
      · rintro ⟨⟨hb, i, hi, rfl⟩, hne'⟩
        exact ⟨hb, Or.inr ⟨i, hi, fun h => hne' (by rw [h]), rfl⟩⟩
    have hused : ∀ b, (v.setUsed (ino.iSectors k) false).used b =
        if b = ino.iSectors k then false else v.used b := fun b => update_apply ..
    refine ⟨rfl, hB', fun b hb => Or.inl ((hown b).1 hb).1, fun b hb => ?_, fun b hb hb' => ?_,
      fun b hb hnot => ⟨?_, rfl⟩⟩
    · rw [hused] at hb
      split at hb
      · exact Bool.noConfusion hb
      · exact Or.inl hb
    · rw [hused] at hb'
      split at hb'
      · exact Bool.noConfusion hb'
      · rename_i hbk
        exact (hown b).2 ⟨hb, hbk⟩
    · rw [hused, if_neg]
      · exact hb
      · rintro rfl
        exact hnot ((ownsBlock_of_no_table _ ht _).2 ⟨hne, k, hk, rfl⟩)

/-- There is room in the direct blocks, so no table is made. -/
theorem DirInsert.ownerStep (h : DirInsert v ino e v' ino') (ha : v.Addressable)
    (hB : BlocksOk v ino) (ht : ino.iSectors 12 = 0) (hroom : DirectRoom v.data ino) :
    OwnerStep v ino v' ino' := by
  have hB' := h.blocksOk ha hB
  cases h with
  | slot k j hk hj hne hfree => exact ownerStep_write hB hk hne _ fun _ => rfl
  | block k lba hk hz hfree =>
    have hown : ∀ b, OwnsBlock (v.storeBlock lba e).data (ino.setSector k lba).grow b ↔
        OwnsBlock v.data ino b ∨ b = lba := by
      intro b
      rw [ownsBlock_setSector hk ht (show (ino.setSector k lba).grow.iSectors = _ from rfl),
        ownsBlock_of_no_table _ ht]
      constructor
      · rintro ⟨hb, rfl | ⟨i, hi, -, rfl⟩⟩
        · exact Or.inr rfl
        · exact Or.inl ⟨hb, i, hi, rfl⟩
      · rintro (⟨hb, i, hi, rfl⟩ | rfl)
        · exact ⟨hb, Or.inr ⟨i, hi, fun h => hb (by rw [h, hz]), rfl⟩⟩
        · exact ⟨hfree.ne_zero ha, Or.inl rfl⟩
    refine ⟨rfl, hB', fun b hb => ?_, fun b hb => ?_, fun b hb _ => (hown b).2 (Or.inl hb),
      fun b hb _ => ⟨?_, storeBlock_data_of_ne (hfree.ne_of_used hb)⟩⟩
    · rcases (hown b).1 hb with h | rfl
      · exact Or.inl h
      · exact Or.inr hfree.free
    · rw [storeBlock_used] at hb
      split at hb
      · rename_i h
        exact Or.inr ((hown b).2 (Or.inr h))
      · exact Or.inl hb
    · rw [storeBlock_used, if_neg (hfree.ne_of_used hb)]
      exact hb
  | table t lba hne hfull ht hfree => exact absurd hroom (not_directRoom hne hfull)

theorem newDirInode_iSectors (n lba i : ℕ) :
    (newDirInode n lba).iSectors i = if i = 0 then lba else 0 := by
  change ((inodeInit n).setSector 0 lba).iSectors i = _
  rw [setSector_iSectors]
  rfl

theorem allBlocks_newDirInode (d : Disk) (n lba i : ℕ) :
    allBlocks d (newDirInode n lba) i = if i = 0 then lba else 0 := by
  by_cases hi : i < 12
  · rw [allBlocks_of_lt hi, newDirInode_iSectors]
  · rw [allBlocks_of_no_table (newDirInode_iSectors n lba 12) (not_lt.1 hi), if_neg (by omega)]

/-- A new directory takes a free block. -/
theorem ownerStep_newDir (ha : v.Addressable) {lba : ℕ} (hfree : v.Free lba) (n : ℕ) (buf : Buf) :
    OwnerStep v (inodeInit n) ((v.setUsed lba true).write lba buf) (newDirInode n lba) := by
  have hown : ∀ b, OwnsBlock ((v.setUsed lba true).write lba buf).data (newDirInode n lba) b ↔
      b = lba := by
    intro b
    rw [ownsBlock_of_no_table _ (newDirInode_iSectors n lba 12)]
    constructor
    · rintro ⟨hb, i, -, h⟩
      rw [newDirInode_iSectors] at h
      split at h
      · exact h.symm
      · exact absurd h.symm hb
    · rintro rfl
      exact ⟨hfree.ne_zero ha, 0, by omega, newDirInode_iSectors n b 0⟩
  have hused : ∀ b, ((v.setUsed lba true).write lba buf).used b =
      if b = lba then true else v.used b := fun b => update_apply ..
  have hnone : ∀ b, ¬ OwnsBlock v.data (inodeInit n) b := by
    rintro b ⟨hb, h | ⟨i, -, h⟩⟩
    · exact hb h
    · exact hb (by rw [← h, allBlocks_inodeInit])
  refine ⟨rfl, ⟨fun i hi h0 => ?_, fun h0 => ?_, fun i hi j hj h0 heq => ?_, fun i hi h0 => ?_⟩,
    fun b hb => Or.inr ?_, fun b hb => ?_, fun b hb => absurd hb (hnone b), fun b hb _ => ⟨?_, ?_⟩⟩
  · rw [allBlocks_newDirInode] at h0 ⊢
    split at h0
    · rename_i hi0
      rw [if_pos hi0, hused, if_pos rfl]
    · exact absurd rfl h0
  · exact absurd (newDirInode_iSectors n lba 12) h0
  · rw [allBlocks_newDirInode] at h0 heq
    rw [allBlocks_newDirInode] at heq
    split at h0
    · rename_i hi0
      rw [if_pos hi0] at heq
      split at heq
      · omega
      · exact absurd heq h0
    · exact absurd rfl h0
  · exact absurd (newDirInode_iSectors n lba 12) h0
  · rw [(hown b).1 hb]
    exact hfree.free
  · rw [hused] at hb
    split at hb
    · rename_i h
      exact Or.inr ((hown b).2 h)
    · exact Or.inl hb
  · rw [hused, if_neg (hfree.ne_of_used hb)]
    exact hb
  · exact update_of_ne (hfree.ne_of_used hb) _ _

/-- What an append does to the blocks. -/
theorem Appends.ownerStep {bytes : List UInt8} (h : Appends v ino bytes v' ino') :
    OwnerStep v ino { v with used := v'.used, data := v'.data } ino' := by
  refine ⟨rfl, h.file.blocks.congr rfl rfl fun _ _ => rfl, h.fresh, fun b hb => (h.used b).1 hb,
    fun b hb _ => h.owns b hb, fun b hb hnot => ⟨(h.used b).2 (Or.inl hb), h.frame b hb hnot⟩⟩

/-- All blocks of an inode have been given back. -/
structure Releases (v : Volume) (ino : Inode) (v' : Volume) : Prop where
  vol : v' = { v with used := v'.used }
  used : ∀ b, v'.used b = true ↔ v.used b = true ∧ ¬ OwnsBlock v.data ino b

theorem not_ownsBlock_of_zero {d : Disk} (hz : ∀ k < 13, ino.iSectors k = 0) (b : ℕ) :
    ¬ OwnsBlock d ino b := by
  rw [ownsBlock_of_no_table _ (hz 12 (by omega))]
  rintro ⟨hb, i, hi, h⟩
  exact hb (by rw [← h, hz i (by omega)])

theorem Releases.ownerStep (h : Releases v ino v') (hz : ∀ k < 13, ino'.iSectors k = 0) :
    OwnerStep v ino v' ino' := by
  have hall : ∀ i, allBlocks v'.data ino' i = 0 := fun i => by
    by_cases hi : i < 12
    · rw [allBlocks_of_lt hi, hz i (by omega)]
    · rw [allBlocks_of_no_table (hz 12 (by omega)) (not_lt.1 hi)]
  refine ⟨?_, ⟨fun i _ h0 => absurd (hall i) h0, fun h0 => absurd (hz 12 (by omega)) h0,
    fun i _ _ _ h0 => absurd (hall i) h0, fun _ _ h0 => absurd (hz 12 (by omega)) h0⟩,
    fun b hb => absurd hb (not_ownsBlock_of_zero hz b), fun b hb => Or.inl ((h.used b).1 hb).1,
    fun b hb hb' => absurd hb ((h.used b).1 hb').2, fun b hb hnot => ⟨(h.used b).2 ⟨hb, hnot⟩, ?_⟩⟩
  · rw [h.vol]
  · rw [h.vol]

end Instances

end Gardos.Fs
