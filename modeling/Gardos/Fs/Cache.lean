import Gardos.Fs.Volume
import Gardos.Fs.Dir

/-!
# The cache of open inodes

`inode_open` and `inode_close` count the holders of each inode on the list `open_inodes`. `Cache`
is the invariant of the list, with the number of holders of each cell made explicit: the number is
the count in the inode, an inode is on the list as long as it has a holder, no two of them carry
the same inode number, and each agrees with its slot on disk.

A call that opens and closes inodes changes nothing else (`CacheStep`).
-/

namespace Gardos.Fs

open Bytes Outcome Function

/-! ## The invariant -/

/-- Two inodes with the same number, size and block addresses. -/
structure Inode.Same (a b : Inode) : Prop where
  iNo : a.iNo = b.iNo
  iSize : a.iSize = b.iSize
  iSectors : ∀ k < 13, a.iSectors k = b.iSectors k

theorem Inode.Same.refl (a : Inode) : a.Same a := ⟨rfl, rfl, fun _ _ => rfl⟩

theorem Inode.Same.symm {a b : Inode} (h : a.Same b) : b.Same a :=
  ⟨h.iNo.symm, h.iSize.symm, fun k hk => (h.iSectors k hk).symm⟩

theorem Inode.Same.trans {a b c : Inode} (h : a.Same b) (h' : b.Same c) : a.Same c :=
  ⟨h.iNo.trans h'.iNo, h.iSize.trans h'.iSize, fun k hk =>
    (h.iSectors k hk).trans (h'.iSectors k hk)⟩

theorem Inode.same_stored (a : Inode) : a.stored.Same a :=
  ⟨rfl, rfl, fun _ hk => if_pos hk⟩

/-- The cache, where cell `q` has `r q` holders. -/
structure Cache (s : FileSys) (r : ℕ → ℕ) : Prop where
  nodup : s.openInodes.Nodup
  mem : ∀ q, q ∈ s.openInodes ↔ 0 < r q
  lt_brk : ∀ q ∈ s.openInodes, q < s.brk
  cnt : ∀ q ∈ s.openInodes, (s.inodes q).iOpenCnts = r q
  inj : ∀ q ∈ s.openInodes, ∀ q' ∈ s.openInodes, (s.inodes q).iNo = (s.inodes q').iNo → q = q'
  lt : ∀ q ∈ s.openInodes, (s.inodes q).iNo < 4096
  same : ∀ q ∈ s.openInodes, (s.inodes q).Same (s.part.vol.inode (s.inodes q).iNo)
  root : s.rootInode ∈ s.openInodes
  root_iNo : (s.inodes s.rootInode).iNo = 0

/-- One more holder of cell `q`. -/
def hold (r : ℕ → ℕ) (q : ℕ) : ℕ → ℕ := update r q (r q + 1)

theorem hold_self (r : ℕ → ℕ) (q : ℕ) : hold r q q = r q + 1 := update_self ..

theorem hold_of_ne (r : ℕ → ℕ) {q q' : ℕ} (h : q' ≠ q) : hold r q q' = r q' :=
  update_of_ne h _ _

theorem hold_pos {r : ℕ → ℕ} {q q' : ℕ} : 0 < hold r q q' ↔ q' = q ∨ 0 < r q' := by
  by_cases h : q' = q
  · simp [h, hold_self]
  · simp [h, hold_of_ne r h]

theorem hold_comm (r : ℕ → ℕ) (a b : ℕ) : hold (hold r a) b = hold (hold r b) a := by
  funext q
  by_cases ha : q = a <;> by_cases hb : q = b
  · rw [← ha, ← hb]
  · rw [hold_of_ne _ hb, ha, hold_self, hold_self, hold_of_ne _ (ha ▸ hb)]
  · rw [hold_of_ne _ ha, hb, hold_self, hold_self, hold_of_ne _ (hb ▸ ha)]
  · rw [hold_of_ne _ hb, hold_of_ne _ ha, hold_of_ne _ ha, hold_of_ne _ hb]

/-- What a call changes that opens and closes inodes: counts, cells never used before, and the
list. -/
structure CacheStep (s s' : FileSys) : Prop where
  part : s'.part = s.part
  rootInode : s'.rootInode = s.rootInode
  fileTable : s'.fileTable = s.fileTable
  fdTable : s'.fdTable = s.fdTable
  brk : s.brk ≤ s'.brk
  inodes : ∀ q < s.brk,
    s'.inodes q = { s.inodes q with iOpenCnts := (s'.inodes q).iOpenCnts }

theorem CacheStep.refl (s : FileSys) : CacheStep s s :=
  ⟨rfl, rfl, rfl, rfl, le_rfl, fun _ _ => rfl⟩

theorem CacheStep.trans {s₁ s₂ s₃ : FileSys} (h : CacheStep s₁ s₂) (h' : CacheStep s₂ s₃) :
    CacheStep s₁ s₃ where
  part := h'.part.trans h.part
  rootInode := h'.rootInode.trans h.rootInode
  fileTable := h'.fileTable.trans h.fileTable
  fdTable := h'.fdTable.trans h.fdTable
  brk := h.brk.trans h'.brk
  inodes q hq := by rw [h'.inodes q (lt_of_lt_of_le hq h.brk), h.inodes q hq]

theorem CacheStep.iNo {s s' : FileSys} (h : CacheStep s s') {q : ℕ} (hq : q < s.brk) :
    (s'.inodes q).iNo = (s.inodes q).iNo := by rw [h.inodes q hq]

theorem CacheStep.dirInode_eq {s s' : FileSys} (h : CacheStep s s') (dir : DirPtr) :
    s'.dirInode dir = s.dirInode dir := by
  cases dir with
  | rootDir => exact h.rootInode
  | heap q => rfl

theorem cacheStep_shareInode (s : FileSys) (q : ℕ) : CacheStep s (shareInode s q) := by
  refine ⟨rfl, rfl, rfl, rfl, le_rfl, fun q' _ => ?_⟩
  by_cases hq : q' = q
  · rw [hq]
    simp [shareInode]
  · rw [shareInode, FileSys.setInode_inodes_of_ne _ _ hq]

theorem cacheStep_loadInode (s : FileSys) (n : ℕ) : CacheStep s (loadInode s n) := by
  refine ⟨rfl, rfl, rfl, rfl, Nat.le_succ _, fun q hq => ?_⟩
  rw [show (loadInode s n).inodes q = s.inodes q from FileSys.setInode_inodes_of_ne _ _ hq.ne]

theorem inodeClose_inodes (s : FileSys) (q : ℕ) : (inodeClose s q).inodes =
    update s.inodes q
      { s.inodes q with iOpenCnts := (s.inodes q).iOpenCnts - 1 } := by
  unfold inodeClose
  dsimp only
  split <;> rfl

theorem inodeClose_openInodes (s : FileSys) (q : ℕ) : (inodeClose s q).openInodes =
    if (s.inodes q).iOpenCnts = 1 then s.openInodes.erase q else s.openInodes := by
  unfold inodeClose
  dsimp only
  split <;> rfl

theorem inodeClose_subset (s : FileSys) (q : ℕ) :
    (inodeClose s q).openInodes ⊆ s.openInodes := by
  rw [inodeClose_openInodes]
  split
  · exact List.erase_subset
  · exact List.Subset.refl _

theorem cacheStep_inodeClose (s : FileSys) (q : ℕ) : CacheStep s (inodeClose s q) := by
  refine ⟨?_, ?_, ?_, ?_, ?_, fun q' _ => ?_⟩
  case refine_6 =>
    rw [inodeClose_inodes]
    by_cases h : q' = q
    · subst h
      simp
    · simp [h]
  all_goals
    unfold inodeClose
    dsimp only
    split <;> rfl

section Spec

variable {s s' : FileSys} {r r' : ℕ → ℕ} {n q : ℕ} {ino : Inode}

theorem findInode_eq_some (h : findInode s n = some q) :
    q ∈ s.openInodes ∧ (s.inodes q).iNo = n :=
  ⟨List.mem_of_find?_eq_some h, by simpa using List.find?_some h⟩

theorem findInode_eq_none : findInode s n = none ↔ ∀ q ∈ s.openInodes, (s.inodes q).iNo ≠ n := by
  simp [findInode]

/-- **What `inode_open` does**: it shares an inode on the list, or loads one. -/
theorem inodeOpen_cases (hrun : inodeOpen s n = .ok (q, s')) :
    (findInode s n = some q ∧ s' = shareInode s q) ∨
      (findInode s n = none ∧ n < 4096 ∧ q = s.brk ∧ s' = loadInode s n) := by
  cases hf : findInode s n with
  | some q' =>
    rw [inodeOpen_of_some hf] at hrun
    obtain ⟨rfl, rfl⟩ := ok_pair hrun
    exact Or.inl ⟨rfl, rfl⟩
  | none =>
    have hlt : n < 4096 := by
      unfold inodeOpen at hrun
      rw [hf] at hrun
      obtain ⟨pos, hpos, -⟩ := bind_eq_ok.1 hrun
      obtain ⟨_, hassert, -⟩ := bind_eq_ok.1 hpos
      exact assert_eq_ok.1 hassert
    rw [inodeOpen_of_none hlt hf] at hrun
    obtain ⟨rfl, rfl⟩ := ok_pair hrun
    exact Or.inr ⟨rfl, hlt, rfl, rfl⟩

theorem cacheStep_inodeOpen (hrun : inodeOpen s n = .ok (q, s')) : CacheStep s s' := by
  rcases inodeOpen_cases hrun with ⟨-, rfl⟩ | ⟨-, -, -, rfl⟩
  · exact cacheStep_shareInode s q
  · exact cacheStep_loadInode s n

/-! ## Counts of holders -/

/-- Cell `q` has at least `r q` holders. -/
structure Holds (s : FileSys) (r : ℕ → ℕ) : Prop where
  lt_brk : ∀ q ∈ s.openInodes, q < s.brk
  root_lt : s.rootInode < s.brk
  mem : ∀ q, 0 < r q → q ∈ s.openInodes
  le : ∀ q, r q ≤ (s.inodes q).iOpenCnts

/-- Cell `q` has exactly `r q` users. -/
structure Counts (s : FileSys) (r : ℕ → ℕ) : Prop where
  nodup : s.openInodes.Nodup
  mem : ∀ q, q ∈ s.openInodes ↔ 0 < r q
  lt_brk : ∀ q ∈ s.openInodes, q < s.brk
  root_lt : s.rootInode < s.brk
  cnt : ∀ q ∈ s.openInodes, (s.inodes q).iOpenCnts = r q

theorem counts_iff : Counts s r ↔ Holds s r ∧ s.openInodes.Nodup ∧
    ∀ q ∈ s.openInodes, 0 < r q ∧ (s.inodes q).iOpenCnts = r q := by
  constructor
  · intro h
    refine ⟨⟨h.lt_brk, h.root_lt, fun q => (h.mem q).2, fun q => ?_⟩, h.nodup,
      fun q hq => ⟨(h.mem q).1 hq, h.cnt q hq⟩⟩
    rcases Nat.eq_zero_or_pos (r q) with h0 | hpos
    · rw [h0]
      exact Nat.zero_le _
    · exact (h.cnt q ((h.mem q).2 hpos)).ge
  · rintro ⟨h, hnodup, hcnt⟩
    exact ⟨hnodup, fun q => ⟨fun hq => (hcnt q hq).1, h.mem q⟩, h.lt_brk, h.root_lt,
      fun q hq => (hcnt q hq).2⟩

theorem Counts.holds (h : Counts s r) : Holds s r := (counts_iff.1 h).1

theorem Cache.counts (h : Cache s r) : Counts s r :=
  ⟨h.nodup, h.mem, h.lt_brk, h.lt_brk _ h.root, h.cnt⟩

/-- `Holds` looks at the list and the counts only. -/
theorem Holds.of_eq (h : Holds s r) (hopen : s'.openInodes = s.openInodes) (hbrk : s.brk ≤ s'.brk)
    (hroot : s'.rootInode = s.rootInode)
    (hcnt : ∀ q < s.brk, (s'.inodes q).iOpenCnts = (s.inodes q).iOpenCnts) : Holds s' r := by
  refine ⟨fun q hq => ?_, hroot ▸ h.root_lt.trans_le hbrk, fun q hq => ?_, fun q => ?_⟩
  · rw [hopen] at hq
    exact (h.lt_brk q hq).trans_le hbrk
  · rw [hopen]
    exact h.mem q hq
  · rcases Nat.eq_zero_or_pos (r q) with h0 | hpos
    · rw [h0]
      exact Nat.zero_le _
    · rw [hcnt q (h.lt_brk q (h.mem q hpos))]
      exact h.le q

theorem Counts.of_eq (h : Counts s r) (hopen : s'.openInodes = s.openInodes) (hbrk : s.brk ≤ s'.brk)
    (hroot : s'.rootInode = s.rootInode)
    (hcnt : ∀ q < s.brk, (s'.inodes q).iOpenCnts = (s.inodes q).iOpenCnts) : Counts s' r := by
  refine counts_iff.2 ⟨h.holds.of_eq hopen hbrk hroot hcnt, hopen ▸ h.nodup, fun q hq => ?_⟩
  rw [hopen] at hq
  exact ⟨(h.mem q).1 hq, (hcnt q (h.lt_brk q hq)).trans (h.cnt q hq)⟩

/-- Another inode in cell `q`, with the same users. -/
theorem Counts.setInode (h : Counts s r) {p : Partition}
    (hcnt : ino.iOpenCnts = (s.inodes q).iOpenCnts) :
    Counts { s.setInode q ino with part := p } r :=
  h.of_eq rfl le_rfl rfl fun q' _ => apply_update_eq Inode.iOpenCnts hcnt q'

/-- One more holder of a cell on the list. -/
theorem Holds.share (h : Holds s r) (hq : q ∈ s.openInodes) :
    Holds (shareInode s q) (hold r q) := by
  refine ⟨h.lt_brk, h.root_lt, fun p hp => ?_, fun p => ?_⟩
  · rcases hold_pos.1 hp with rfl | hp
    · exact hq
    · exact h.mem p hp
  · by_cases hp : p = q
    · rw [hp, hold_self, shareInode, FileSys.setInode_inodes_self]
      exact Nat.succ_le_succ (h.le q)
    · rw [hold_of_ne r hp, shareInode, FileSys.setInode_inodes_of_ne _ _ hp]
      exact h.le p

theorem Counts.share (h : Counts s r) (hq : q ∈ s.openInodes) :
    Counts (shareInode s q) (hold r q) := by
  refine counts_iff.2 ⟨h.holds.share hq, h.nodup,
    fun p hp => ⟨hold_pos.2 (Or.inr ((h.mem p).1 hp)), ?_⟩⟩
  by_cases hpq : p = q
  · rw [hpq, hold_self, shareInode, FileSys.setInode_inodes_self]
    exact congrArg (· + 1) (h.cnt q hq)
  · rw [hold_of_ne r hpq, shareInode, FileSys.setInode_inodes_of_ne _ _ hpq]
    exact h.cnt p hp

/-- A new cell is on the list, with one holder. -/
structure Pushes (s s' : FileSys) : Prop where
  openInodes : s'.openInodes = s.brk :: s.openInodes
  brk : s'.brk = s.brk + 1
  rootInode : s'.rootInode = s.rootInode
  self : (s'.inodes s.brk).iOpenCnts = 1
  other : ∀ q < s.brk, (s'.inodes q).iOpenCnts = (s.inodes q).iOpenCnts

theorem pushes_setInode (hcnt : ino.iOpenCnts = 1) : Pushes s
    { s.setInode s.brk ino with brk := s.brk + 1, openInodes := s.brk :: s.openInodes } :=
  ⟨rfl, rfl, rfl, (congrArg Inode.iOpenCnts (update_self ..)).trans hcnt,
    fun _ hq => congrArg Inode.iOpenCnts (update_of_ne hq.ne ..)⟩

theorem Holds.zero_brk (h : Holds s r) : r s.brk = 0 :=
  Nat.eq_zero_of_not_pos fun hpos => lt_irrefl _ (h.lt_brk _ (h.mem _ hpos))

theorem Holds.push (h : Holds s r) (hp : Pushes s s') : Holds s' (hold r s.brk) := by
  refine ⟨fun q hq => ?_, ?_, fun q hq => ?_, fun q => ?_⟩
  · rw [hp.openInodes, List.mem_cons] at hq
    rw [hp.brk]
    rcases hq with rfl | hq
    · exact Nat.lt_succ_self _
    · exact (h.lt_brk q hq).trans (Nat.lt_succ_self _)
  · rw [hp.rootInode, hp.brk]
    exact h.root_lt.trans (Nat.lt_succ_self _)
  · rw [hp.openInodes, List.mem_cons]
    exact (hold_pos.1 hq).imp id (h.mem q)
  · by_cases hq : q = s.brk
    · rw [hq, hold_self, h.zero_brk, hp.self]
    · rw [hold_of_ne r hq]
      rcases Nat.eq_zero_or_pos (r q) with h0 | hpos
      · rw [h0]
        exact Nat.zero_le _
      · rw [hp.other q (h.lt_brk q (h.mem q hpos))]
        exact h.le q

theorem Counts.push (h : Counts s r) (hp : Pushes s s') : Counts s' (hold r s.brk) := by
  refine counts_iff.2 ⟨h.holds.push hp, ?_, fun q hq => ?_⟩
  · rw [hp.openInodes]
    exact List.nodup_cons.2 ⟨fun hm => lt_irrefl _ (h.lt_brk _ hm), h.nodup⟩
  · rw [hp.openInodes, List.mem_cons] at hq
    refine ⟨hold_pos.2 (hq.imp id (h.mem q).1), ?_⟩
    by_cases hqb : q = s.brk
    · rw [hqb, hold_self, h.holds.zero_brk, hp.self]
    · have hq := hq.resolve_left hqb
      rw [hold_of_ne r hqb, hp.other q (h.lt_brk q hq)]
      exact h.cnt q hq

/-- **`inode_close`** takes a holder away. -/
theorem Holds.inodeClose (h : Holds s (hold r q)) : Holds (inodeClose s q) r := by
  have hstep := cacheStep_inodeClose s q
  have hle := h.le q
  rw [hold_self] at hle
  refine ⟨fun p hp => (h.lt_brk p (inodeClose_subset s q hp)).trans_le hstep.brk,
    hstep.rootInode ▸ h.root_lt.trans_le hstep.brk, fun p hp => ?_, fun p => ?_⟩
  · have hmem := h.mem p (hold_pos.2 (Or.inr hp))
    rw [inodeClose_openInodes]
    split
    · next h1 =>
      have hpq : p ≠ q := fun hpq => by
        rw [hpq] at hp
        omega
      exact (List.mem_erase_of_ne hpq).2 hmem
    · exact hmem
  · rw [inodeClose_inodes]
    by_cases hp : p = q
    · rw [hp, update_self]
      change r q ≤ (s.inodes q).iOpenCnts - 1
      omega
    · rw [update_of_ne hp, ← hold_of_ne r hp]
      exact h.le p

theorem Counts.inodeClose (h : Counts s (hold r q)) : Counts (inodeClose s q) r := by
  have hcnt := h.cnt q ((h.mem q).2 (hold_pos.2 (Or.inl rfl)))
  rw [hold_self] at hcnt
  -- the inode leaves the list when it has no user left
  have hpos : ∀ p ∈ (Fs.inodeClose s q).openInodes, 0 < r p := fun p hp => by
    rw [inodeClose_openInodes, hcnt] at hp
    split at hp
    · obtain ⟨hpq, hp⟩ := h.nodup.mem_erase_iff.1 hp
      exact (hold_pos.1 ((h.mem p).1 hp)).resolve_left hpq
    · rcases hold_pos.1 ((h.mem p).1 hp) with rfl | hr
      · omega
      · exact hr
  refine counts_iff.2 ⟨h.holds.inodeClose, ?_, fun p hp => ⟨hpos p hp, ?_⟩⟩
  · rw [inodeClose_openInodes]
    split
    · exact h.nodup.erase q
    · exact h.nodup
  · rw [inodeClose_inodes]
    by_cases hpq : p = q
    · rw [hpq, update_self, hcnt, Nat.add_sub_cancel]
    · rw [update_of_ne hpq, h.cnt p (inodeClose_subset s q hp), hold_of_ne r hpq]

/-! ## The cache -/

/-- The cell of an open inode. -/
theorem Cache.findInode_eq (hc : Cache s r) (hq : q ∈ s.openInodes) :
    findInode s (s.inodes q).iNo = some q := by
  cases h : findInode s (s.inodes q).iNo with
  | none => exact absurd rfl (findInode_eq_none.1 h q hq)
  | some q' =>
    obtain ⟨hq', hno⟩ := findInode_eq_some h
    rw [hc.inj q' hq' q hq hno]

/-- A step that loads no inode keeps the cache, if the counts are right. -/
theorem Cache.of_step (hc : Cache s r) (hs : CacheStep s s') (hcnt : Counts s' r')
    (hsub : s'.openInodes ⊆ s.openInodes) (hroot : 0 < r' s.rootInode) : Cache s' r' := by
  have hlt : ∀ q ∈ s'.openInodes, q < s.brk := fun q hq => hc.lt_brk q (hsub hq)
  have hno : ∀ q ∈ s'.openInodes, (s'.inodes q).iNo = (s.inodes q).iNo := fun q hq =>
    hs.iNo (hlt q hq)
  refine ⟨hcnt.nodup, hcnt.mem, hcnt.lt_brk, hcnt.cnt, fun q hq q' hq' h => ?_, fun q hq => ?_,
    fun q hq => ?_, ?_, ?_⟩
  · rw [hno q hq, hno q' hq'] at h
    exact hc.inj q (hsub hq) q' (hsub hq') h
  · rw [hno q hq]
    exact hc.lt q (hsub hq)
  · have h := hc.same q (hsub hq)
    rw [hno q hq, hs.part, hs.inodes q (hlt q hq)]
    exact ⟨h.iNo, h.iSize, h.iSectors⟩
  · rw [hcnt.mem, hs.rootInode]
    exact hroot
  · rw [hs.rootInode, hs.iNo (hc.lt_brk _ hc.root)]
    exact hc.root_iNo

theorem Cache.share (hc : Cache s r) (hq : q ∈ s.openInodes) :
    Cache (shareInode s q) (hold r q) :=
  hc.of_step (cacheStep_shareInode s q) (hc.counts.share hq) (List.Subset.refl _)
    (hold_pos.2 (Or.inr ((hc.mem _).1 hc.root)))

/-- A new cell goes to the front of the list. -/
theorem Cache.push (hc : Cache s r) (hcnt : ino.iOpenCnts = 1) (hlt : ino.iNo < 4096)
    (hnew : ∀ q ∈ s.openInodes, (s.inodes q).iNo ≠ ino.iNo)
    (hsame : ino.Same (s.part.vol.inode ino.iNo)) :
    Cache { s.setInode s.brk ino with brk := s.brk + 1, openInodes := s.brk :: s.openInodes }
      (hold r s.brk) := by
  have hc' := hc.counts.push (pushes_setInode hcnt)
  set s' : FileSys :=
    { s.setInode s.brk ino with brk := s.brk + 1, openInodes := s.brk :: s.openInodes }
  have hself : s'.inodes s.brk = ino := FileSys.setInode_inodes_self ..
  have hold' : ∀ q ∈ s.openInodes, s'.inodes q = s.inodes q := fun q hq =>
    FileSys.setInode_inodes_of_ne _ _ (hc.lt_brk q hq).ne
  have hmem : ∀ q, q ∈ s'.openInodes ↔ q = s.brk ∨ q ∈ s.openInodes := fun q => List.mem_cons
  refine ⟨hc'.nodup, hc'.mem, hc'.lt_brk, hc'.cnt, fun q hq q' hq' h => ?_, fun q hq => ?_,
    fun q hq => ?_, (hmem _).2 (Or.inr hc.root), ?_⟩
  · rcases (hmem q).1 hq with rfl | hq <;> rcases (hmem q').1 hq' with rfl | hq'
    · rfl
    · rw [hself, hold' q' hq'] at h
      exact absurd h.symm (hnew q' hq')
    · rw [hself, hold' q hq] at h
      exact absurd h (hnew q hq)
    · rw [hold' q hq, hold' q' hq'] at h
      exact hc.inj q hq q' hq' h
  · rcases (hmem q).1 hq with rfl | hq
    · rwa [hself]
    · rw [hold' q hq]
      exact hc.lt q hq
  · rcases (hmem q).1 hq with rfl | hq
    · rw [hself]
      exact hsame
    · rw [hold' q hq]
      exact hc.same q hq
  · exact (congrArg Inode.iNo (hold' _ hc.root)).trans hc.root_iNo

theorem Cache.load (hc : Cache s r) (hn : n < 4096) (hno : (s.part.vol.inode n).iNo = n)
    (hf : findInode s n = none) : Cache (loadInode s n) (hold r s.brk) := by
  have hslot : s.part.vol.inode n = slot s.part n := Partition.vol_inode hn
  have hno' : (slot s.part n).iNo = n := hslot ▸ hno
  refine hc.push rfl ?_ (fun q hq => ?_) ?_
  · exact hno'.trans_lt hn
  · rw [show (_ : Inode).iNo = n from hno']
    exact findInode_eq_none.1 hf q hq
  · change Inode.Same _ (s.part.vol.inode (slot s.part n).iNo)
    rw [hno', hslot]
    exact ⟨rfl, rfl, fun _ _ => rfl⟩

/-- **`inode_open`** finds or loads an inode and gives it one more holder. -/
theorem Cache.exists_inodeOpen (hc : Cache s r) (hn : n < 4096)
    (hno : (s.part.vol.inode n).iNo = n) :
    ∃ q s', inodeOpen s n = .ok (q, s') ∧ CacheStep s s' ∧ Cache s' (hold r q) ∧
      (s'.inodes q).iNo = n ∧ (findInode s n = none → r q = 0) := by
  cases hf : findInode s n with
  | some q =>
    obtain ⟨hq, hqn⟩ := findInode_eq_some hf
    have hstep := cacheStep_shareInode s q
    refine ⟨q, _, inodeOpen_of_some hf, hstep, hc.share hq, ?_,
      fun h => absurd h (Option.some_ne_none _)⟩
    rw [hstep.iNo (hc.lt_brk q hq), hqn]
  | none =>
    refine ⟨s.brk, _, inodeOpen_of_none hn hf, cacheStep_loadInode s n, hc.load hn hno hf, ?_,
      fun _ => hc.counts.holds.zero_brk⟩
    have hnew : (loadInode s n).inodes s.brk = { slot s.part n with iOpenCnts := 1 } :=
      update_self ..
    rw [hnew, ← Partition.vol_inode hn]
    exact hno

/-- **`inode_close`** takes one holder away. -/
theorem Cache.close (hc : Cache s (hold r q)) (hroot : 0 < r s.rootInode) :
    Cache (inodeClose s q) r :=
  hc.of_step (cacheStep_inodeClose s q) hc.counts.inodeClose (inodeClose_subset s q) hroot

/-! ## Changes on disk -/

/-- The cache does not depend on the slots of inodes that are not open. -/
theorem Cache.withPart (hc : Cache s r) {p : Partition}
    (hp : ∀ q ∈ s.openInodes,
      (s.part.vol.inode (s.inodes q).iNo).Same (p.vol.inode (s.inodes q).iNo)) :
    Cache { s with part := p } r :=
  ⟨hc.nodup, hc.mem, hc.lt_brk, hc.cnt, hc.inj, hc.lt, fun q hq => (hc.same q hq).trans (hp q hq),
    hc.root, hc.root_iNo⟩

/-- An open inode and its slot are changed together. -/
theorem Cache.sync (hc : Cache s r) (hq : q ∈ s.openInodes) {p : Partition}
    (hno : ino.iNo = (s.inodes q).iNo) (hcnt : ino.iOpenCnts = (s.inodes q).iOpenCnts)
    (hslot : ino.Same (p.vol.inode ino.iNo))
    (hother : ∀ q' ∈ s.openInodes, (s.inodes q').iNo ≠ ino.iNo →
      p.vol.inode (s.inodes q').iNo = s.part.vol.inode (s.inodes q').iNo) :
    Cache { s.setInode q ino with part := p } r := by
  have hnos : ∀ q', ((s.setInode q ino).inodes q').iNo = (s.inodes q').iNo :=
    apply_update_eq Inode.iNo hno
  refine ⟨hc.nodup, hc.mem, hc.lt_brk, (hc.counts.setInode hcnt).cnt, fun q₁ h₁ q₂ h₂ heq => ?_,
    fun q' hq' => ?_, fun q' hq' => ?_, hc.root, (hnos _).trans hc.root_iNo⟩
  · change ((s.setInode q ino).inodes q₁).iNo = ((s.setInode q ino).inodes q₂).iNo at heq
    rw [hnos, hnos] at heq
    exact hc.inj q₁ h₁ q₂ h₂ heq
  · change ((s.setInode q ino).inodes q').iNo < 4096
    rw [hnos]
    exact hc.lt q' hq'
  · change ((s.setInode q ino).inodes q').Same (p.vol.inode ((s.setInode q ino).inodes q').iNo)
    by_cases h : q' = q
    · rw [h, FileSys.setInode_inodes_self]
      exact hslot
    · have hne : (s.inodes q').iNo ≠ ino.iNo := fun heq => h (hc.inj q' hq' q hq (heq.trans hno))
      rw [FileSys.setInode_inodes_of_ne _ _ h, hother q' hq' hne]
      exact hc.same q' hq'

/-- The cache does not depend on the tables of open files. -/
theorem Cache.withFiles (hc : Cache s r) (fileTable : ℕ → File) (fdTable : ℕ → ℕ → ℤ) :
    Cache { s with fileTable := fileTable, fdTable := fdTable } r :=
  ⟨hc.nodup, hc.mem, hc.lt_brk, hc.cnt, hc.inj, hc.lt, hc.same, hc.root, hc.root_iNo⟩

/-! ## Directories -/

/-- The holders, with a `struct dir *` among them. The static `root_dir` is held for ever. -/
def holdDir (r : ℕ → ℕ) : DirPtr → ℕ → ℕ
  | .rootDir => r
  | .heap q => hold r q

theorem le_holdDir (r : ℕ → ℕ) (dir : DirPtr) (q : ℕ) : r q ≤ holdDir r dir q := by
  cases dir with
  | rootDir => exact le_rfl
  | heap q' =>
    by_cases h : q = q'
    · subst h
      exact (Nat.le_succ _).trans (hold_self r q).ge
    · exact (hold_of_ne r h).ge

theorem hold_holdDir (r : ℕ → ℕ) (dir : DirPtr) (q : ℕ) :
    hold (holdDir r dir) q = holdDir (hold r q) dir := by
  cases dir with
  | rootDir => rfl
  | heap q' => exact hold_comm r q' q

theorem Cache.dirInode_mem {dir : DirPtr} (hc : Cache s (holdDir r dir)) :
    s.dirInode dir ∈ s.openInodes := by
  cases dir with
  | rootDir => exact hc.root
  | heap q => exact (hc.mem q).2 (hold_pos.2 (Or.inl rfl))

theorem Cache.exists_dirOpen (hc : Cache s r) (hn : n < 4096)
    (hno : (s.part.vol.inode n).iNo = n) :
    ∃ q s', dirOpen s n = .ok (.heap q, s') ∧ CacheStep s s' ∧ Cache s' (hold r q) ∧
      (s'.inodes q).iNo = n ∧ (findInode s n = none → r q = 0) := by
  obtain ⟨q, s', h, hrest⟩ := hc.exists_inodeOpen hn hno
  refine ⟨q, s', ?_, hrest⟩
  rw [dirOpen, h]
  rfl

theorem cacheStep_dirClose (s : FileSys) (dir : DirPtr) : CacheStep s (dirClose s dir) := by
  cases dir with
  | rootDir => exact CacheStep.refl s
  | heap q => exact cacheStep_inodeClose s q

theorem Cache.dirClose {dir : DirPtr} (hc : Cache s (holdDir r dir))
    (hroot : 0 < r s.rootInode) : Cache (dirClose s dir) r := by
  cases dir with
  | rootDir => exact hc
  | heap q => exact Cache.close hc hroot

end Spec

end Gardos.Fs
