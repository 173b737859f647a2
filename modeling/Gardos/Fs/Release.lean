import Gardos.Fs.Cache
import Gardos.Fs.Ownership

/-!
# Releasing an inode

`inode_release` gives back the indirect table, then every block whose address is not zero, then
the inode number, and clears the slot. When the blocks of the inode are in use and distinct, what
is given back is exactly what the inode owns (`exists_releaseBlocks`), and on the cache of open
inodes the call has no effect (`Cache.exists_inodeRelease`).
-/

namespace Gardos.Fs

open Bytes Outcome Function

/-! ## Giving blocks back -/

section Blocks

variable {p : Partition} {lba b : ℕ} {v : Volume}

/-- The block may be given back: it is in use, and it is not the first data block, for which
`inode_release` stops. -/
structure Releasable (v : Volume) (lba : ℕ) : Prop where
  used : v.used lba = true
  ne_start : lba ≠ v.geometry.sb.dataStartLba

theorem exists_releaseBlock (hL : p.Layout) (h : Releasable p.vol lba) :
    ∃ p', releaseBlock p lba = .ok p' ∧ p'.vol = p.vol.setUsed lba false := by
  refine ⟨blockBitmapFree p lba, ?_, Partition.vol_blockBitmapFree hL h.used⟩
  obtain ⟨h1, h2, -⟩ := Partition.used_iff.1 h.used
  have hne : lba ≠ p.sb.dataStartLba := h.ne_start
  have hidx : blockBitmapIdx p lba = lba - p.sb.dataStartLba := by
    have := Partition.blockBitmapIdx_add hL h2
    rwa [Nat.add_sub_cancel' h1] at this
  rw [releaseBlock, hidx, assert, if_pos (by omega), ok_bind]
  rfl

/-- The volume after the blocks of a list have been given back. -/
def Volume.giveBack (v : Volume) (bs : List ℕ) : Volume :=
  { v with used := fun b => v.used b && decide (b ∉ bs) }

theorem giveBack_used {bs : List ℕ} : (v.giveBack bs).used b = true ↔ v.used b = true ∧ b ∉ bs := by
  simp [Volume.giveBack]

theorem giveBack_nil (v : Volume) : v.giveBack [] = v := by
  simp [Volume.giveBack]

theorem giveBack_cons (v : Volume) (b : ℕ) (bs : List ℕ) :
    v.giveBack (b :: bs) = (v.setUsed b false).giveBack bs := by
  refine Volume.ext rfl ?_ rfl rfl rfl
  funext x
  change (v.used x && decide (x ∉ b :: bs)) = (update v.used b false x && _)
  rw [update_apply]
  by_cases h : x = b
  · simp [h]
  · simp [h]

theorem Releasable.setUsed (h : Releasable v lba) (hne : lba ≠ b) :
    Releasable (v.setUsed b false) lba :=
  ⟨(update_of_ne hne _ _).trans h.used, h.ne_start⟩

/-- The loop over the addresses gives back those that are not zero. -/
theorem exists_foldlM_release {blocks : ℕ → ℕ} {ks : List ℕ} : ∀ {p : Partition}, p.Layout →
    ((ks.map blocks).filter (· ≠ 0)).Nodup →
    (∀ b ∈ (ks.map blocks).filter (· ≠ 0), Releasable p.vol b) →
    ∃ p', ks.foldlM (fun p k => if blocks k ≠ 0 then releaseBlock p (blocks k) else .ok p) p =
        .ok p' ∧ p'.vol = p.vol.giveBack ((ks.map blocks).filter (· ≠ 0)) := by
  induction ks with
  | nil =>
    intro p _ _ _
    exact ⟨p, rfl, (giveBack_nil _).symm⟩
  | cons k ks ih =>
    intro p hL hnd hrel
    by_cases h0 : blocks k = 0
    · simp only [List.map_cons, h0, ne_eq, not_true_eq_false, decide_false, Bool.false_eq_true,
        not_false_eq_true, List.filter_cons_of_neg] at hnd hrel ⊢
      obtain ⟨p', hrun, hv⟩ := ih hL hnd hrel
      refine ⟨p', ?_, hv⟩
      rw [List.foldlM_cons, if_neg (by simp [h0])]
      exact hrun
    · rw [List.map_cons, List.filter_cons_of_pos (by simpa using h0)] at hnd hrel ⊢
      obtain ⟨hnot, hnd⟩ := List.nodup_cons.1 hnd
      obtain ⟨p₁, hrun₁, hv₁⟩ := exists_releaseBlock hL (hrel _ List.mem_cons_self)
      have hL₁ : p₁.Layout := hL.of_geometry (congrArg Volume.geometry hv₁)
      -- the blocks that follow are other blocks, so they are still in use
      obtain ⟨p', hrun, hv⟩ := ih hL₁ hnd fun b hb => by
        rw [hv₁]
        exact (hrel b (List.mem_cons_of_mem _ hb)).setUsed fun h => hnot (h ▸ hb)
      refine ⟨p', ?_, ?_⟩
      · rw [List.foldlM_cons, if_pos h0, hrun₁, ok_bind]
        exact hrun
      · rw [hv, hv₁, ← giveBack_cons]

end Blocks

/-! ## The blocks of an inode -/

section Release

variable {p : Partition} {ino : Inode} {blocks : ℕ → ℕ} {cnt b : ℕ}

/-- The addresses that are not zero among the first `cnt`. -/
def blockList (blocks : ℕ → ℕ) (cnt : ℕ) : List ℕ := ((List.range cnt).map blocks).filter (· ≠ 0)

theorem mem_blockList : b ∈ blockList blocks cnt ↔ b ≠ 0 ∧ ∃ k < cnt, blocks k = b := by
  simp only [blockList, ne_eq, decide_not, List.mem_filter, List.mem_map, List.mem_range,
    Bool.not_eq_eq_eq_not, Bool.not_true, decide_eq_false_iff_not]
  exact and_comm

theorem nodup_blockList (h : ∀ j < cnt, ∀ k < cnt, blocks j ≠ 0 → blocks j = blocks k → j = k) :
    (blockList blocks cnt).Nodup := by
  rw [blockList, List.filter_map]
  refine List.Nodup.map_on (fun j hj k hk heq => ?_) (List.nodup_range.filter _)
  simp only [Function.comp_def, List.mem_filter, List.mem_range, decide_eq_true_eq] at hj hk
  exact h j hj.1 k hk.1 hj.2 heq

theorem releasable_of_owns (hB : BlocksOk p.vol ino)
    (hs : ¬ OwnsBlock p.vol.data ino p.sb.dataStartLba) (hb : OwnsBlock p.vol.data ino b) :
    Releasable p.vol b :=
  ⟨hB.used_of_owns hb, fun h => hs (h ▸ hb)⟩

/-- The two parts of `inode_release` that give blocks back: the table, and the blocks that are
listed. Together they are what the inode owns. -/
theorem exists_releaseBlocks (hL : p.Layout) (hB : BlocksOk p.vol ino)
    (hs : ¬ OwnsBlock p.vol.data ino p.sb.dataStartLba) (hblk : blocks = allBlocks p.disk ino) :
    ∃ p₁ p₂, (if ino.iSectors 12 ≠ 0 then releaseBlock p (ino.iSectors 12) else .ok p) = .ok p₁ ∧
      (List.range (if ino.iSectors 12 ≠ 0 then 140 else 12)).foldlM
        (fun p k => if blocks k ≠ 0 then releaseBlock p (blocks k) else .ok p) p₁ = .ok p₂ ∧
      Releases p.vol ino p₂.vol := by
  have hb : blocks = allBlocks p.vol.data ino := by
    rw [hblk]
    funext k
    exact hB.allBlocks_vol
  subst hb
  have hinj : ∀ cnt ≤ 140, (blockList (allBlocks p.vol.data ino) cnt).Nodup := fun cnt hcnt =>
    nodup_blockList fun j hj k hk => hB.inj j (by omega) k (by omega)
  by_cases ht : ino.iSectors 12 = 0
  · have hmem : ∀ b, b ∈ blockList (allBlocks p.vol.data ino) 12 ↔ OwnsBlock p.vol.data ino b := by
      intro b
      rw [mem_blockList, ownsBlock_of_no_table _ ht]
      refine and_congr_right fun _ => exists_congr fun k => and_congr_right fun hk => ?_
      rw [allBlocks_of_lt hk]
    obtain ⟨p₂, hrun, hv⟩ := exists_foldlM_release hL (hinj 12 (by omega)) fun b hb =>
      releasable_of_owns hB hs ((hmem b).1 hb)
    refine ⟨p, p₂, if_neg (by simp [ht]), ?_, ?_, fun b => ?_⟩
    · rw [if_neg (by simp [ht])]
      exact hrun
    · rw [hv]
      rfl
    · rw [hv, giveBack_used]
      exact and_congr_right fun _ => not_congr (hmem b)
  · have hmem : ∀ b, b ∈ ino.iSectors 12 :: blockList (allBlocks p.vol.data ino) 140 ↔
        OwnsBlock p.vol.data ino b := by
      intro b
      rw [List.mem_cons, mem_blockList]
      constructor
      · rintro (rfl | ⟨hb, h⟩)
        · exact ⟨ht, Or.inl rfl⟩
        · exact ⟨hb, Or.inr h⟩
      · rintro ⟨hb, h | h⟩
        · exact Or.inl h
        · exact Or.inr ⟨hb, h⟩
    obtain ⟨p₁, hrun₁, hv₁⟩ := exists_releaseBlock hL
      (releasable_of_owns hB hs ((hmem _).1 List.mem_cons_self))
    have hL₁ : p₁.Layout := hL.of_geometry (congrArg Volume.geometry hv₁)
    obtain ⟨p₂, hrun, hv⟩ := exists_foldlM_release hL₁ (hinj 140 le_rfl) fun b hb => by
      rw [hv₁]
      refine (releasable_of_owns hB hs ((hmem b).1 (List.mem_cons_of_mem _ hb))).setUsed ?_
      obtain ⟨-, k, hk, rfl⟩ := mem_blockList.1 hb
      exact hB.ne_table k hk ht
    have hv' : p₂.vol = p.vol.giveBack
        (ino.iSectors 12 :: blockList (allBlocks p.vol.data ino) 140) := by
      rw [hv, hv₁, ← giveBack_cons]
      rfl
    refine ⟨p₁, p₂, (if_pos ht).trans hrun₁, ?_, ?_, fun b => ?_⟩
    · rw [if_pos ht]
      exact hrun
    · rw [hv']
      rfl
    · rw [hv', giveBack_used]
      exact and_congr_right fun _ => not_congr (hmem b)

end Release

/-! ## The whole call -/

section Call

variable {s : FileSys} {r : ℕ → ℕ} {n : ℕ}

/-- The volume after inode `n` has been released, where `v` has its blocks back already. -/
def Volume.drop (v : Volume) (n : ℕ) : Volume :=
  (v.setAllocated n false).setInode n (Inode.ofBytes zero)

theorem inodeClose_withPart (s : FileSys) (p : Partition) (q : ℕ) :
    inodeClose { s with part := p } q = { inodeClose s q with part := p } := by
  unfold inodeClose
  dsimp only
  split <;> rfl

theorem dirClose_withPart (s : FileSys) (p : Partition) (dir : DirPtr) :
    dirClose { s with part := p } dir = { dirClose s dir with part := p } := by
  cases dir with
  | rootDir => rfl
  | heap q => exact inodeClose_withPart s p q

/-- `inode_release`, once the inode is open. -/
theorem inodeRelease_of_open {s₁ : FileSys} {q : ℕ} (hopen : inodeOpen s n = .ok (q, s₁))
    (hpart : s₁.part = s.part) (hno : (s₁.inodes q).iNo = n) (hL : s.part.Layout) (hn : n < 4096)
    (hB : BlocksOk s.part.vol (s₁.inodes q))
    (hs : ¬ OwnsBlock s.part.vol.data (s₁.inodes q) s.part.sb.dataStartLba) :
    ∃ p v, inodeRelease s n = .ok { inodeClose s₁ q with part := p } ∧
      Releases s.part.vol (s₁.inodes q) v ∧ p.vol = v.drop n := by
  rw [← hpart] at hL hB hs ⊢
  obtain ⟨p₁, p₂, hrun₁, hrun₂, hrel⟩ := exists_releaseBlocks hL hB hs rfl
  have hL₂ : p₂.Layout := hL.of_geometry (congrArg Volume.geometry hrel.vol)
  set p₃ := bitmapSync { p₂ with inodeBitmap := p₂.inodeBitmap.set n false } n .inodeBitmap with hp₃
  have hv₃ : p₃.vol = p₂.vol.setAllocated n false :=
    Partition.vol_bitmapSync_setInodeBit hL₂ hn false
  have hL₃ : p₃.Layout := hL₂.of_geometry (congrArg Volume.geometry hv₃)
  obtain ⟨p₄, hrun₄, hv₄⟩ := Partition.exists_inodeDelete hL₃ hn
  refine ⟨p₄, p₂.vol, ?_, hrel, ?_⟩
  · rw [← inodeClose_withPart]
    unfold inodeRelease
    rw [hopen, ok_bind]
    dsimp only
    rw [assert, if_pos hno, ok_bind]
    by_cases ht : (s₁.inodes q).iSectors 12 ≠ 0
    · rw [if_pos ht] at hrun₁
      rw [if_pos ht, hrun₁, ok_bind, hrun₂, ok_bind, ← hp₃, hrun₄, ok_bind]
      rfl
    · rw [if_neg ht] at hrun₁
      rw [if_neg ht, hrun₁, ok_bind, hrun₂, ok_bind, ← hp₃, hrun₄, ok_bind]
      rfl
  · rw [hv₄, hv₃]
    rfl

/-- The inode that is open has the number that was asked for, or `inode_release` stops. -/
theorem iNo_of_inodeRelease {s' s₁ : FileSys} {q : ℕ} (hopen : inodeOpen s n = .ok (q, s₁))
    (h : inodeRelease s n = .ok s') : (s₁.inodes q).iNo = n := by
  unfold inodeRelease at h
  rw [hopen, ok_bind] at h
  dsimp only at h
  obtain ⟨_, hassert, -⟩ := bind_eq_ok.1 h
  exact assert_eq_ok.1 hassert

theorem Releases.congr {v v' : Volume} {ino ino' : Inode} (h : Releases v ino v')
    (hsec : ∀ k < 13, ino.iSectors k = ino'.iSectors k) : Releases v ino' v' :=
  ⟨h.vol, fun b => by rw [h.used, OwnsBlock.of_same hsec]⟩

/-- **`inode_release`** gives back what the inode owns, its number and its slot, and leaves the
holders of all inodes as they were. -/
theorem Cache.exists_inodeRelease (hc : Cache s r) (hL : s.part.Layout) (hn : n < 4096)
    (hno : (s.part.vol.inode n).iNo = n) (hB : BlocksOk s.part.vol (s.part.vol.inode n))
    (hs : ¬ OwnsBlock s.part.vol.data (s.part.vol.inode n) s.part.sb.dataStartLba) :
    ∃ s₂ p v, inodeRelease s n = .ok { s₂ with part := p } ∧ CacheStep s s₂ ∧ Cache s₂ r ∧
      Releases s.part.vol (s.part.vol.inode n) v ∧ p.vol = v.drop n := by
  obtain ⟨q, s₁, hopen, hstep, hc₁, hqn, -⟩ := hc.exists_inodeOpen hn hno
  have hq : q ∈ s₁.openInodes := (hc₁.mem q).2 (hold_pos.2 (Or.inl rfl))
  -- the cell holds the inode as it is on disk
  have hsame : (s₁.inodes q).Same (s.part.vol.inode n) := by
    have := hc₁.same q hq
    rwa [hqn, hstep.part] at this
  obtain ⟨p, v, hrun, hrel, hv⟩ := inodeRelease_of_open hopen hstep.part hqn hL hn
    (hB.congr rfl (hsame.iSectors 12 (by omega)) fun _ _ =>
      allBlocks_congr hsame.iSectors fun _ => rfl)
    (by rwa [OwnsBlock.of_same hsame.iSectors])
  refine ⟨inodeClose s₁ q, p, v, hrun, hstep.trans (cacheStep_inodeClose s₁ q), hc₁.close ?_,
    hrel.congr hsame.iSectors, hv⟩
  rw [hstep.rootInode]
  exact (hc.mem _).1 hc.root

end Call

end Gardos.Fs
