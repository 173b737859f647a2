import Gardos.Foundations.Table
import Gardos.Memory.Paging

/-!
# Who uses which frame

A frame that has been handed out is a page table of some process, a page of some process, or a page
of the kernel. `own` reads off the page tables which frame each of these has. `FramesOk` says that
no frame is used twice and that each has its bit set in its pool.

The kernel's part of the address space is the same in all of them: the page tables for it are made
at boot, below the pools, and every page directory has the same entries for them.

* `own_setEntry_user`, `own_setEntry_kernel` and `own_newTable`: what one entry changes.
* `FramesOk.give`: a frame that is not in use goes to an owner that has none.
* `FramesOk.pageTableAdd`: a page is mapped to a frame that nobody has.
-/

namespace Gardos.Paging

open Outcome Bytes Machine Function

/-! ## Entries -/

variable {s s' : Machine} {d t i j v f : ℕ} {e : Entry} {p : Pool} {T k : ℕ} {s₁ s₂ s₃ : Machine}

@[simp] theorem target_mk_true (f : ℕ) : Entry.target ⟨true, f⟩ = some f := rfl

@[simp] theorem target_mk_false (f : ℕ) : Entry.target ⟨false, f⟩ = none := rfl

theorem Entry.target_eq_none : e.target = none ↔ e.present = false := by
  cases hp : e.present <;> simp [Entry.target, hp]

theorem Entry.target_of_present (h : e.present = true) : e.target = some e.frame :=
  if_pos h

theorem Entry.target_eq_some : e.target = some f ↔ e.present = true ∧ e.frame = f := by
  cases hp : e.present <;> simp [Entry.target, hp]

theorem setEntry_table_of_ne (h : d ≠ t) : (s.setEntry t i e).table d = s.table d :=
  update_of_ne h _ _

theorem setEntry_table_self : (s.setEntry t i e).table t = update (s.table t) i e :=
  update_self ..

/-- An entry of a table changes the page it is for. -/
theorem walk_setEntry (h : d ≠ t) : (s.setEntry t j e).walk d v =
    if (s.table d (v / 1024)).target = some t ∧ v % 1024 = j then e.target else s.walk d v := by
  unfold walk
  rw [setEntry_table_of_ne h]
  cases hd : (s.table d (v / 1024)).target with
  | none => simp
  | some t' =>
    simp only [Option.bind_some, Option.some.injEq]
    by_cases ht : t' = t
    · subst ht
      rw [setEntry_table_self, update_apply]
      simp only [true_and]
      split <;> rfl
    · rw [setEntry_table_of_ne ht, if_neg fun hc => ht hc.1]

/-! ## Owners -/

/-- What a frame is used for: page table `i` or page `v` of task `t`, or page `v` of the kernel. -/
inductive Owner
  | table (t i : ℕ)
  | page (t v : ℕ)
  | kernel (v : ℕ)
  deriving DecidableEq

/-- The pages below 3 GB. -/
def userPages : ℕ := 0xc0000

/-- The pages that the kernel can allocate: above its first megabyte, and below the page tables. -/
def KernelPage (v : ℕ) : Prop := 0xc0100 ≤ v ∧ v < 0xffc00

instance (v : ℕ) : Decidable (KernelPage v) := inferInstanceAs (Decidable (_ ∧ _))

/-- The frame of each owner; `dir` has the frames of the page directories of the processes. -/
def own (dir : ℕ → Option ℕ) (s : Machine) : Owner → Option ℕ
  | .table t i => if i < 768 then (dir t).bind fun d => (s.table d i).target else none
  | .page t v => if v < userPages then (dir t).bind fun d => s.walk d v else none
  | .kernel v => if KernelPage v then s.walk kernelDir v else none

/-- The frame belongs to the pool and its bit is set. -/
def Pool.InUse (p : Pool) (f : ℕ) : Prop :=
  ∃ k, k < p.poolBitmap.bitLen ∧ f = k + p.phyAddrStart ∧ p.poolBitmap.bit k = true

/-- The frame has its bit set in the pool it belongs to. -/
def Backed (s : Machine) (f : ℕ) : Prop := s.kernelPool.InUse f ∨ s.userPool.InUse f

/-- What does not change while pages come and go. -/
structure Layout (dir : ℕ → Option ℕ) (s : Machine) : Prop where
  pools : s.kernelPool.phyAddrStart + s.kernelPool.poolBitmap.bitLen ≤ s.userPool.phyAddrStart
  frames_le : s.userPool.phyAddrStart + s.userPool.poolBitmap.bitLen ≤ pageCount
  kernelDir_lt : kernelDir + 2 ≤ s.kernelPool.phyAddrStart
  present : ∀ i, 768 ≤ i → i < 1023 → (s.table kernelDir i).present = true
  low : ∀ i, 768 ≤ i → i < 1023 → (s.table kernelDir i).frame < s.kernelPool.phyAddrStart
  ne_kernelDir : ∀ i, 768 ≤ i → i < 1023 → (s.table kernelDir i).frame ≠ kernelDir
  distinct : ∀ i j, 768 ≤ i → i < 1023 → 768 ≤ j → j < 1023 →
    (s.table kernelDir i).frame = (s.table kernelDir j).frame → i = j
  shared : ∀ t d, dir t = some d → ∀ i, 768 ≤ i → i < 1023 → s.table d i = s.table kernelDir i

/-- **The invariant of the frames.** -/
structure FramesOk (dir : ℕ → Option ℕ) (s : Machine) : Prop where
  layout : Layout dir s
  exclusive : Exclusive (own dir s)
  backed : ∀ o f, own dir s o = some f → Backed s f
  dirs : ∀ t d, dir t = some d → ∃ p, (s.tasks t).pgdir = some p ∧ own dir s (.kernel p) = some d
  dir_inj : Exclusive dir
  dir_isSome : ∀ t, (s.tasks t).pgdir.isSome = true → (dir t).isSome = true
  cr3 : s.cr3 = (dir s.cur).getD kernelDir

variable {dir : ℕ → Option ℕ}

theorem own_table (hi : i < 768) (hd : dir t = some d) :
    own dir s (.table t i) = (s.table d i).target := by
  rw [own, if_pos hi, hd, Option.bind_some]

theorem own_page (hv : v < userPages) (hd : dir t = some d) :
    own dir s (.page t v) = s.walk d v := by
  rw [own, if_pos hv, hd, Option.bind_some]

theorem own_kernel (hv : KernelPage v) : own dir s (.kernel v) = s.walk kernelDir v := if_pos hv

theorem own_table_eq_some (h : own dir s (.table t i) = some f) :
    i < 768 ∧ ∃ d, dir t = some d ∧ (s.table d i).target = some f := by
  by_cases hc : i < 768
  · rw [own, if_pos hc] at h
    exact ⟨hc, Option.bind_eq_some_iff.1 h⟩
  · rw [own, if_neg hc] at h
    cases h

theorem own_table_congr (h : ∀ d, dir t = some d → s'.table d i = s.table d i) :
    own dir s' (.table t i) = own dir s (.table t i) := by
  rw [own, own]
  congr 1
  exact Option.bind_congr fun d hd => by rw [h d hd]

theorem own_page_congr (h : ∀ d, v < userPages → dir t = some d → s'.walk d v = s.walk d v) :
    own dir s' (.page t v) = own dir s (.page t v) := by
  rw [own, own]
  split
  · exact Option.bind_congr fun d hd => h d ‹_› hd
  · rfl

theorem own_kernel_congr (h : KernelPage v → s'.walk kernelDir v = s.walk kernelDir v) :
    own dir s' (.kernel v) = own dir s (.kernel v) := by
  rw [own, own]
  split
  · exact h ‹_›
  · rfl

theorem Pool.InUse.le (h : p.InUse f) : p.phyAddrStart ≤ f := by
  obtain ⟨k, -, rfl, -⟩ := h
  exact Nat.le_add_left ..

namespace FramesOk

variable (h : FramesOk dir s)
include h

theorem le_of_backed (hf : Backed s f) : s.kernelPool.phyAddrStart ≤ f := by
  have hp := h.layout.pools
  rcases hf with hf | hf
  · exact hf.le
  · exact le_trans (by omega) hf.le

theorem le_of_own {o : Owner} (ho : own dir s o = some f) : s.kernelPool.phyAddrStart ≤ f :=
  h.le_of_backed (h.backed o f ho)

theorem le_dir (hd : dir t = some d) : s.kernelPool.phyAddrStart ≤ d := by
  obtain ⟨p, -, hp⟩ := h.dirs t d hd
  exact h.le_of_own hp

/-- A page directory is nobody's page table. -/
theorem dir_ne_table {t' i' : ℕ} (hd : dir t = some d)
    (ht : own dir s (.table t' i') = some f) : d ≠ f := by
  rintro rfl
  obtain ⟨p, -, hp⟩ := h.dirs t d hd
  cases h.exclusive ht hp

theorem kernelTable_ne_dir (hi : 768 ≤ i) (hi' : i < 1023) (hd : dir t = some d) :
    d ≠ (s.table kernelDir i).frame := by
  have := h.le_dir hd
  have := h.layout.low i hi hi'
  omega

end FramesOk

/-! ## What one entry changes -/

theorem div_lt_of_lt_userPages (hv : v < userPages) : v / 1024 < 768 := by
  unfold userPages at hv
  omega

theorem KernelPage.div_le (hv : KernelPage v) : 768 ≤ v / 1024 := by
  have := hv.1
  omega

theorem KernelPage.div_lt (hv : KernelPage v) : v / 1024 < 1023 := by
  have := hv.2
  omega

/-- An entry of a page table of a process. -/
theorem FramesOk.own_setEntry_user (h : FramesOk dir s) (hv : v < userPages)
    (hT : own dir s (.table t (v / 1024)) = some T) :
    own dir (s.setEntry T (v % 1024) e) = update (own dir s) (.page t v) e.target := by
  funext o
  cases o with
  | table t' i' =>
    rw [update_of_ne (by simp)]
    exact own_table_congr fun d hd => by rw [setEntry_table_of_ne (h.dir_ne_table hd hT)]
  | page t' v' =>
    by_cases heq : Owner.page t' v' = .page t v
    · obtain ⟨rfl, rfl⟩ := by simpa using heq
      obtain ⟨hi, d, hd, htar⟩ := own_table_eq_some hT
      rw [update_self, own_page hv hd, walk_setEntry (h.dir_ne_table hd hT),
        if_pos ⟨htar, rfl⟩]
    · rw [update_of_ne heq]
      refine own_page_congr fun d hv' hd => ?_
      rw [walk_setEntry (h.dir_ne_table hd hT), if_neg]
      -- another page in the same table would be in the same place
      rintro ⟨htar, hmod⟩
      rw [← own_table (div_lt_of_lt_userPages hv') hd] at htar
      obtain ⟨rfl, hdiv⟩ := by simpa using h.exclusive htar hT
      exact heq (by rw [show v' = v by omega])
  | kernel v' =>
    rw [update_of_ne (by simp)]
    refine own_kernel_congr fun hv' => ?_
    have hlow := h.layout.low (v' / 1024) hv'.div_le hv'.div_lt
    have hle := h.le_of_own hT
    have hk := h.layout.kernelDir_lt
    rw [walk_setEntry (by omega), if_neg]
    rintro ⟨htar, -⟩
    rw [Entry.target_eq_some] at htar
    omega

/-- An entry of a page table of the kernel. -/
theorem FramesOk.own_setEntry_kernel (h : FramesOk dir s) (hv : KernelPage v) :
    own dir (s.setEntry (s.table kernelDir (v / 1024)).frame (v % 1024) e) =
      update (own dir s) (.kernel v) e.target := by
  set T := (s.table kernelDir (v / 1024)).frame with hT
  have hlow := h.layout.low _ hv.div_le hv.div_lt
  have hdir : ∀ t d, dir t = some d → d ≠ T := fun t d hd =>
    h.kernelTable_ne_dir hv.div_le hv.div_lt hd
  have hne := h.layout.ne_kernelDir _ hv.div_le hv.div_lt
  funext o
  cases o with
  | table t' i' =>
    rw [update_of_ne (by simp)]
    exact own_table_congr fun d hd => by rw [setEntry_table_of_ne (hdir t' d hd)]
  | page t' v' =>
    rw [update_of_ne (by simp)]
    refine own_page_congr fun d hv' hd => ?_
    rw [walk_setEntry (hdir t' d hd), if_neg]
    rintro ⟨htar, -⟩
    rw [← own_table (div_lt_of_lt_userPages hv') hd] at htar
    have := h.le_of_own htar
    omega
  | kernel v' =>
    by_cases heq : v' = v
    · subst heq
      have htar := Entry.target_of_present (h.layout.present _ hv.div_le hv.div_lt)
      rw [update_self, own_kernel hv, walk_setEntry (Ne.symm hne), if_pos ⟨htar, rfl⟩]
    · rw [update_of_ne (by simp [heq])]
      refine own_kernel_congr fun hv' => ?_
      rw [walk_setEntry (Ne.symm hne), if_neg]
      rintro ⟨htar, hmod⟩
      have := h.layout.distinct _ _ hv'.div_le hv'.div_lt hv.div_le hv.div_lt
        (Entry.target_eq_some.1 htar).2
      omega

/-- A new page table, empty, in a frame that was not in use. -/
theorem FramesOk.own_newTable (h : FramesOk dir s) (hi : i < 768) (hd : dir t = some d)
    (hnone : own dir s (.table t i) = none) (hfree : Unheld (own dir s) T)
    (hle : s.kernelPool.phyAddrStart ≤ T) (hs' : s'.table = update
      (update s.table d (update (s.table d) i ⟨true, T⟩)) T fun _ => ⟨false, 0⟩) :
    own dir s' = update (own dir s) (.table t i) (some T) := by
  have hk := h.layout.kernelDir_lt
  -- the frame is no directory and no table
  have hdir : ∀ t' d', dir t' = some d' → d' ≠ T := fun t' d' hd' heq => by
    obtain ⟨p, -, hp⟩ := h.dirs t' d' hd'
    exact hfree _ (heq ▸ hp)
  have htab : ∀ t' d' i', dir t' = some d' → ¬ (t' = t ∧ i' = i) →
      s'.table d' i' = s.table d' i' := fun t' d' i' hd' hne => by
    rw [hs', update_of_ne (hdir t' d' hd')]
    by_cases hdd : d' = d
    · subst hdd
      obtain rfl := h.dir_inj hd' hd
      rw [update_self, update_of_ne (fun hi' => hne ⟨rfl, hi'⟩)]
    · rw [update_of_ne hdd]
  have hself : s'.table d i = ⟨true, T⟩ := by
    rw [hs', update_of_ne (hdir t d hd), update_self, update_self]
  have hrest : ∀ T', T' ≠ T → T' ≠ d → s'.table T' = s.table T' := fun T' h1 h2 => by
    rw [hs', update_of_ne h1, update_of_ne h2]
  funext o
  cases o with
  | table t' i' =>
    by_cases heq : t' = t ∧ i' = i
    · obtain ⟨rfl, rfl⟩ := heq
      rw [update_self, own_table hi hd, hself, target_mk_true]
    · rw [update_of_ne (by simpa using heq)]
      exact own_table_congr fun d' hd' => htab t' d' i' hd' heq
  | page t' v' =>
    rw [update_of_ne (by simp)]
    refine own_page_congr fun d' hv' hd' => ?_
    by_cases heq : t' = t ∧ v' / 1024 = i
    · -- no page was mapped through the missing table, and none is through the new one
      obtain ⟨rfl, rfl⟩ := heq
      rw [hd] at hd'
      obtain rfl := Option.some.inj hd'
      rw [own_table hi hd] at hnone
      rw [walk, walk, hself, hnone, target_mk_true, Option.bind_some, hs', update_self]
      rfl
    · rw [walk, walk, htab t' d' _ hd' heq]
      refine Option.bind_congr fun T' hT' => ?_
      rw [← own_table (div_lt_of_lt_userPages hv') hd'] at hT'
      rw [hrest T' (fun hc => hfree _ (hc ▸ hT')) (Ne.symm (h.dir_ne_table hd hT'))]
  | kernel v' =>
    rw [update_of_ne (by simp)]
    refine own_kernel_congr fun hv' => ?_
    have hlow := h.layout.low _ hv'.div_le hv'.div_lt
    have hlt := h.le_dir hd
    rw [walk, walk, hrest kernelDir (by omega) (by omega)]
    refine Option.bind_congr fun T' hT' => ?_
    have := (Entry.target_eq_some.1 hT').2
    rw [hrest T' (by omega) (by omega)]

/-! ## Giving and taking -/

/-- Sizes, starts, page directories and the running task are the same. -/
structure SameShape (s s' : Machine) : Prop where
  kernelStart : s'.kernelPool.phyAddrStart = s.kernelPool.phyAddrStart
  kernelLen : s'.kernelPool.poolBitmap.btmpBytesLen = s.kernelPool.poolBitmap.btmpBytesLen
  userStart : s'.userPool.phyAddrStart = s.userPool.phyAddrStart
  userLen : s'.userPool.poolBitmap.btmpBytesLen = s.userPool.poolBitmap.btmpBytesLen
  cur : s'.cur = s.cur
  cr3 : s'.cr3 = s.cr3
  pgdir : ∀ t, (s'.tasks t).pgdir = (s.tasks t).pgdir

theorem SameShape.trans (h₁ : SameShape s₁ s₂) (h₂ : SameShape s₂ s₃) : SameShape s₁ s₃ :=
  ⟨h₂.kernelStart.trans h₁.kernelStart, h₂.kernelLen.trans h₁.kernelLen,
    h₂.userStart.trans h₁.userStart, h₂.userLen.trans h₁.userLen, h₂.cur.trans h₁.cur,
    h₂.cr3.trans h₁.cr3, fun t => (h₂.pgdir t).trans (h₁.pgdir t)⟩

/-- The kernel's part of the page directories is the same. -/
def SameKernel (dir : ℕ → Option ℕ) (s s' : Machine) : Prop :=
  ∀ d, (d = kernelDir ∨ ∃ t, dir t = some d) → ∀ i, 768 ≤ i → i < 1023 →
    s'.table d i = s.table d i

theorem SameKernel.trans (h₁ : SameKernel dir s₁ s₂) (h₂ : SameKernel dir s₂ s₃) :
    SameKernel dir s₁ s₃ :=
  fun d hd i hi hi' => (h₂ d hd i hi hi').trans (h₁ d hd i hi hi')

theorem Layout.congr (h : Layout dir s) (hsh : SameShape s s') (hk : SameKernel dir s s') :
    Layout dir s' := by
  have hkd : ∀ i, 768 ≤ i → i < 1023 → s'.table kernelDir i = s.table kernelDir i :=
    hk kernelDir (.inl rfl)
  refine ⟨?_, ?_, hsh.kernelStart ▸ h.kernelDir_lt, fun i hi hi' => ?_, fun i hi hi' => ?_,
    fun i hi hi' => ?_, fun i j hi hi' hj hj' heq => ?_, fun t d hd i hi hi' => ?_⟩
  · have := h.pools
    rwa [hsh.kernelStart, hsh.userStart, Bitmap.bitLen, hsh.kernelLen]
  · have := h.frames_le
    rwa [hsh.userStart, Bitmap.bitLen, hsh.userLen]
  · rw [hkd i hi hi']
    exact h.present i hi hi'
  · rw [hkd i hi hi', hsh.kernelStart]
    exact h.low i hi hi'
  · rw [hkd i hi hi']
    exact h.ne_kernelDir i hi hi'
  · rw [hkd i hi hi', hkd j hj hj'] at heq
    exact h.distinct i j hi hi' hj hj' heq
  · rw [hkd i hi hi', hk d (.inr ⟨t, hd⟩) i hi hi']
    exact h.shared t d hd i hi hi'

theorem FramesOk.of_own (h : FramesOk dir s) (hsh : SameShape s s') (hk : SameKernel dir s s')
    (hex : Exclusive (own dir s')) (hback : ∀ o f, own dir s' o = some f → Backed s' f)
    (hdirs : ∀ t d p, dir t = some d → (s.tasks t).pgdir = some p →
      own dir s (.kernel p) = some d → own dir s' (.kernel p) = some d) : FramesOk dir s' := by
  refine ⟨h.layout.congr hsh hk, hex, hback, fun t d hd => ?_, h.dir_inj, fun t ht => ?_, ?_⟩
  · obtain ⟨p, hp, hown⟩ := h.dirs t d hd
    exact ⟨p, (hsh.pgdir t).trans hp, hdirs t d p hd hp hown⟩
  · rw [hsh.pgdir] at ht
    exact h.dir_isSome t ht
  · rw [hsh.cr3, hsh.cur]
    exact h.cr3

/-- A frame that was not in use goes to an owner that had none. -/
theorem FramesOk.give (h : FramesOk dir s) (hsh : SameShape s s') (hk : SameKernel dir s s')
    {o : Owner} (hown : own dir s' = update (own dir s) o (some f))
    (hnone : own dir s o = none) (hfree : Unheld (own dir s) f) (hf : Backed s' f)
    (hmono : ∀ g, Backed s g → Backed s' g) : FramesOk dir s' := by
  refine h.of_own hsh hk (hown ▸ h.exclusive.give hfree o) (fun o' g ho' => ?_)
    fun t d p hd hp hpd => ?_
  · rw [hown] at ho'
    rcases eq_or_eq_of_update ho' with ⟨-, heq⟩ | ⟨-, ho'⟩
    · exact Option.some.inj heq ▸ hf
    · exact hmono g (h.backed o' g ho')
  · rw [hown, update_of_ne, hpd]
    rintro rfl
    rw [hnone] at hpd
    cases hpd

/-! ## A frame from a pool -/

/-- `palloc` takes the first clear bit. -/
theorem palloc_eq_ok {p' : Pool} {r : Option ℕ} (h : palloc false p = .ok (r, p')) :
    ∃ k, p.poolBitmap.IsFirstClear k ∧ r = some (k + p.phyAddrStart) ∧
      p' = { p with poolBitmap := p.poolBitmap.set k true } := by
  unfold palloc at h
  obtain ⟨o, ho, h⟩ := bind_eq_ok.1 h
  cases o with
  | none => exact absurd ho bitmapScan_one_ne_none
  | some k =>
    obtain ⟨rfl, rfl⟩ := ok_pair h
    exact ⟨k, bitmapScan_one_eq_some ho, rfl, rfl⟩

theorem palloc_of_clear (hk : k < p.poolBitmap.bitLen) (hc : p.poolBitmap.bit k = false) :
    ∃ f p', palloc false p = .ok (some f, p') := by
  obtain ⟨k', hscan, -⟩ := bitmapScan_one_of_clear (d := false) hk hc
  exact ⟨_, _, by unfold palloc; rw [hscan, ok_bind]; rfl⟩

/-- What a machine is after a frame has been taken from a pool. -/
structure Allocated (dir : ℕ → Option ℕ) (s : Machine) (f : ℕ) (s' : Machine) : Prop where
  shape : SameShape s s'
  table : s'.table = s.table
  own : own dir s' = own dir s
  unheld : Unheld (Paging.own dir s) f
  backed : Backed s' f
  mono : ∀ g, Backed s g → Backed s' g
  fresh : ¬ Backed s f

theorem own_congr (h : s'.table = s.table) : own dir s' = own dir s := by
  funext o
  cases o <;> simp only [own, walk, h]

theorem Pool.InUse.set_true (h : p.InUse f) :
    Pool.InUse { p with poolBitmap := p.poolBitmap.set k true } f := by
  obtain ⟨j, hj, rfl, hb⟩ := h
  exact ⟨j, hj, rfl, by simp [hb]⟩

theorem Pool.inUse_set_self (hk : k < p.poolBitmap.bitLen) :
    Pool.InUse { p with poolBitmap := p.poolBitmap.set k true } (k + p.phyAddrStart) :=
  ⟨k, hk, rfl, by simp⟩

theorem Pool.not_inUse_of_clear (hc : p.poolBitmap.bit k = false) :
    ¬ p.InUse (k + p.phyAddrStart) := by
  rintro ⟨j, -, heq, hb⟩
  rw [show j = k by omega, hc] at hb
  cases hb

@[simp] theorem setPool_table (s : Machine) (p : Pool) (pf : PoolFlags) :
    (s.setPool p pf).table = s.table := by
  cases pf <;> rfl

/-- **A frame from a pool** was not in use and is now. -/
theorem FramesOk.palloc (h : FramesOk dir s) {pf : PoolFlags} {p' : Pool} {r : Option ℕ}
    (hp : palloc false (s.pool pf) = .ok (r, p')) :
    ∃ f, r = some f ∧ Allocated dir s f (s.setPool p' pf) := by
  obtain ⟨k, hk, rfl, rfl⟩ := palloc_eq_ok hp
  have hpools := h.layout.pools
  refine ⟨_, rfl, ?_⟩
  -- the two pools do not overlap, so the bit in the one pool is the only one for the frame
  have hfresh : ¬ Backed s (k + (s.pool pf).phyAddrStart) := by
    cases pf with
    | kernel =>
      rintro (hb | hb)
      · exact Pool.not_inUse_of_clear hk.clear hb
      · have hle := hb.le
        have hlt : k < s.kernelPool.poolBitmap.bitLen := hk.lt
        simp only [pool] at hle
        omega
    | user =>
      rintro (⟨j, hj, heq, -⟩ | hb)
      · simp only [pool] at heq
        omega
      · exact Pool.not_inUse_of_clear hk.clear hb
  refine ⟨?_, setPool_table .., own_congr (setPool_table ..),
    fun o ho => hfresh (h.backed o _ ho), ?_, fun g hg => ?_, hfresh⟩
  · cases pf <;> exact ⟨rfl, rfl, rfl, rfl, rfl, rfl, fun _ => rfl⟩
  · cases pf with
    | kernel => exact .inl (Pool.inUse_set_self hk.lt)
    | user => exact .inr (Pool.inUse_set_self hk.lt)
  · cases pf with
    | kernel => exact hg.imp_left Pool.InUse.set_true
    | user => exact hg.imp_right Pool.InUse.set_true

theorem Allocated.framesOk (h : FramesOk dir s) (ha : Allocated dir s f s') : FramesOk dir s' := by
  refine h.of_own ha.shape (fun d _ i _ _ => by rw [ha.table]) (ha.own ▸ h.exclusive)
    (fun o g ho => ?_) fun t d p _ _ hpd => by rw [ha.own, hpd]
  rw [ha.own] at ho
  exact ha.mono g (h.backed o g ho)

/-! ## A page in the current address space -/

/-- The owner of page `v` in the current address space. -/
def here (s : Machine) (v : ℕ) : Owner := if v < userPages then .page s.cur v else .kernel v

/-- A page that can be mapped in the current address space: of the process, or of the kernel. -/
def Managed (dir : ℕ → Option ℕ) (s : Machine) (v : ℕ) : Prop :=
  v < userPages ∧ (dir s.cur).isSome = true ∨ KernelPage v

theorem here_user (hv : v < userPages) : here s v = .page s.cur v := if_pos hv

theorem KernelPage.not_lt (hv : KernelPage v) : ¬ v < userPages := by
  have := hv.1
  unfold userPages
  omega

theorem here_kernel (hv : KernelPage v) : here s v = .kernel v := if_neg hv.not_lt

theorem here_ne_table : here s v ≠ .table t i := by
  unfold here
  split <;> simp

/-- The directory entry of a kernel page, in every address space. -/
theorem FramesOk.pde_kernel (h : FramesOk dir s) (hv : KernelPage v) :
    s.pde v = s.table kernelDir (v / 1024) := by
  unfold pde
  rw [h.cr3]
  cases hd : dir s.cur with
  | none => rfl
  | some d => exact h.layout.shared _ d hd _ hv.div_le hv.div_lt

/-- The owner of a page has the frame that the page tables lead to. -/
theorem FramesOk.own_here (h : FramesOk dir s) (hm : Managed dir s v) :
    own dir s (here s v) = s.walk s.cr3 v := by
  rcases hm with ⟨hv, hd⟩ | hv
  · obtain ⟨d, hd⟩ := Option.isSome_iff_exists.1 hd
    rw [here_user hv, Paging.own_page hv hd, h.cr3, hd, Option.getD_some]
  · have hpde := h.pde_kernel hv
    rw [here_kernel hv, own_kernel hv, walk, walk, ← hpde]
    rfl

/-- The page tables after `page_table_add`: a page that was not mapped has a frame now, and its page
table may be new. -/
structure Mapped (dir : ℕ → Option ℕ) (s : Machine) (v f : ℕ) (s' : Machine) : Prop where
  framesOk : FramesOk dir s'
  shape : SameShape s s'
  kernel : SameKernel dir s s'
  ram : s'.ram = s.ram
  kernelVaddr : s'.kernelVaddr = s.kernelVaddr
  tasks : s'.tasks = s.tasks
  userPool : s'.userPool = s.userPool
  mono : ∀ g, Backed s g → Backed s' g
  unmapped : own dir s (here s v) = none
  own_eq : (s'.kernelPool = s.kernelPool ∧
      (v < userPages → own dir s (.table s.cur (v / 1024)) ≠ none) ∧
      own dir s' = update (own dir s) (here s v) (some f)) ∨
    (v < userPages ∧ own dir s (.table s.cur (v / 1024)) = none ∧
      ∃ k, s.kernelPool.poolBitmap.IsFirstClear k ∧
        s'.kernelPool = { s.kernelPool with poolBitmap := s.kernelPool.poolBitmap.set k true } ∧
        own dir s' = update (update (own dir s) (.table s.cur (v / 1024))
          (some (k + s.kernelPool.phyAddrStart))) (here s v) (some f))

theorem FramesOk.sameKernel_setEntry (_h : FramesOk dir s) (hT : T ≠ kernelDir)
    (hdir : ∀ t d, dir t = some d → d ≠ T) : SameKernel dir s (s.setEntry T j e) := by
  rintro d (rfl | ⟨t, hd⟩) i - -
  · rw [setEntry_table_of_ne (Ne.symm hT)]
  · rw [setEntry_table_of_ne (hdir t d hd)]

theorem setEntry_shape (s : Machine) (t i : ℕ) (e : Entry) : SameShape s (s.setEntry t i e) :=
  ⟨rfl, rfl, rfl, rfl, rfl, rfl, fun _ => rfl⟩

/-- The last step of `page_table_add`, for a page of the running process. -/
theorem FramesOk.mapped_user (h : FramesOk dir s) (hv : v < userPages)
    (hT : own dir s (.table s.cur (v / 1024)) = some T) (hnone : own dir s (.page s.cur v) = none)
    (hfree : Unheld (own dir s) f) (hf : Backed s f) :
    Mapped dir s v f (s.setEntry T (v % 1024) ⟨true, f⟩) := by
  have hown := h.own_setEntry_user (e := ⟨true, f⟩) hv hT
  have hle := h.le_of_own hT
  have hk := h.layout.kernelDir_lt
  have hker := h.sameKernel_setEntry (j := v % 1024) (e := ⟨true, f⟩) (T := T) (by omega)
    fun t d hd => h.dir_ne_table hd hT
  refine ⟨h.give (setEntry_shape ..) hker hown hnone hfree hf fun g hg => hg, setEntry_shape ..,
    hker, rfl, rfl, rfl, rfl, fun g hg => hg, ?_, .inl ⟨rfl, fun _ => by simp [hT], ?_⟩⟩
  · rw [here_user hv, hnone]
  · rw [here_user hv, hown]
    rfl

/-- The last step of `page_table_add`, for a page of the kernel. -/
theorem FramesOk.mapped_kernel (h : FramesOk dir s) (hv : KernelPage v)
    (hnone : own dir s (.kernel v) = none) (hfree : Unheld (own dir s) f) (hf : Backed s f) :
    Mapped dir s v f (s.setEntry (s.table kernelDir (v / 1024)).frame (v % 1024) ⟨true, f⟩) := by
  have hown := h.own_setEntry_kernel (e := ⟨true, f⟩) hv
  have hker := h.sameKernel_setEntry (j := v % 1024) (e := ⟨true, f⟩)
    (h.layout.ne_kernelDir _ hv.div_le hv.div_lt)
    fun t d hd => h.kernelTable_ne_dir hv.div_le hv.div_lt hd
  refine ⟨h.give (setEntry_shape ..) hker hown hnone hfree hf fun g hg => hg, setEntry_shape ..,
    hker, rfl, rfl, rfl, rfl, fun g hg => hg, ?_, .inl ⟨rfl, fun hlt => absurd hlt hv.not_lt, ?_⟩⟩
  · rw [here_kernel hv, hnone]
  · rw [here_kernel hv, hown]
    rfl

/-- The machine of `page_table_add` after a new page table has been made. -/
def newTable (s : Machine) (v T : ℕ) (p : Pool) : Machine :=
  { s with
    kernelPool := p
    table := update
      (update s.table s.cr3 (update (s.table s.cr3) (v / 1024) ⟨true, T⟩)) T
      fun _ => ⟨false, 0⟩ }

/-- A new page table for the running process. -/
theorem FramesOk.newTable (h : FramesOk dir s) (hv : v < userPages) (hd : dir s.cur = some d)
    (hnone : own dir s (.table s.cur (v / 1024)) = none)
    (ha : Allocated dir s T (s.setPool p .kernel)) :
    FramesOk dir (newTable s v T p) ∧ SameKernel dir s (Paging.newTable s v T p) ∧
      own dir (Paging.newTable s v T p) =
        update (own dir s) (.table s.cur (v / 1024)) (some T) := by
  have h1 : FramesOk dir (s.setPool p .kernel) := ha.framesOk h
  have hi := div_lt_of_lt_userPages hv
  have hle : s.kernelPool.phyAddrStart ≤ T := by
    have := h1.le_of_backed ha.backed
    rwa [ha.shape.kernelStart] at this
  have hcr3 : s.cr3 = d := by rw [h.cr3, hd, Option.getD_some]
  have htable : (Paging.newTable s v T p).table = update (update s.table d
      (update (s.table d) (v / 1024) ⟨true, T⟩)) T fun _ => ⟨false, 0⟩ := by
    rw [Paging.newTable, hcr3]
  have hown := h.own_newTable hi hd hnone ha.unheld hle htable
  have hker : SameKernel dir s (Paging.newTable s v T p) := by
    have hk := h.layout.kernelDir_lt
    have hlt := h.le_dir hd
    rintro d' (rfl | ⟨t, hd'⟩) i' hi' -
    · rw [Paging.newTable, hcr3]
      simp only
      rw [update_of_ne (by omega), update_of_ne (by omega)]
    · have hne : d' ≠ T := by
        rintro rfl
        obtain ⟨q, -, hq⟩ := h.dirs t d' hd'
        exact ha.unheld _ hq
      rw [Paging.newTable]
      simp only
      rw [update_of_ne hne, update_apply]
      split
      · rw [update_of_ne (by omega), ‹d' = s.cr3›]
      · rfl
  refine ⟨?_, hker, hown⟩
  exact h.give (f := T) (o := .table s.cur (v / 1024))
    ⟨ha.shape.kernelStart, ha.shape.kernelLen, rfl, rfl, rfl, rfl, fun _ => rfl⟩ hker hown hnone
    ha.unheld ha.backed ha.mono

/-- **`page_table_add`**, for a frame that nobody has. -/
theorem FramesOk.pageTableAdd (h : FramesOk dir s) (hm : Managed dir s v)
    (hfree : Unheld (own dir s) f) (hf : Backed s f) (hadd : pageTableAdd false s v f = .ok s') :
    Mapped dir s v f s' := by
  have hwalk := h.own_here hm
  unfold Paging.pageTableAdd at hadd
  by_cases hp : (s.pde v).present = true
  · rw [if_pos hp] at hadd
    obtain ⟨_, hpte, hadd⟩ := bind_eq_ok.1 hadd
    obtain rfl := pure_eq_ok.1 hadd
    have htar : (s.table s.cr3 (v / 1024)).target = some (s.pde v).frame :=
      Entry.target_of_present hp
    rw [walk, htar, Option.bind_some,
      show (s.table (s.pde v).frame (v % 1024)).target = none from
        Entry.target_eq_none.2 (assert_eq_ok.1 hpte)] at hwalk
    rcases hm with ⟨hv, hd⟩ | hv
    · obtain ⟨d, hd⟩ := Option.isSome_iff_exists.1 hd
      rw [here_user hv] at hwalk
      refine h.mapped_user hv ?_ hwalk hfree hf
      rw [own_table (div_lt_of_lt_userPages hv) hd, ← htar, h.cr3, hd, Option.getD_some]
    · rw [here_kernel hv] at hwalk
      rw [h.pde_kernel hv]
      exact h.mapped_kernel hv hwalk hfree hf
  · rw [if_neg hp] at hadd
    obtain ⟨⟨r, p⟩, hpal, hadd⟩ := bind_eq_ok.1 hadd
    obtain ⟨-, -, hadd⟩ := bind_eq_ok.1 hadd
    obtain ⟨T, rfl, ha⟩ := @FramesOk.palloc _ _ h .kernel _ _ hpal
    rcases hm with ⟨hv, hd⟩ | hv
    · obtain ⟨d, hd⟩ := Option.isSome_iff_exists.1 hd
      have hcr3 : s.cr3 = d := by rw [h.cr3, hd, Option.getD_some]
      have hnoT : own dir s (.table s.cur (v / 1024)) = none := by
        rw [own_table (div_lt_of_lt_userPages hv) hd, Entry.target_eq_none, ← hcr3]
        exact Bool.not_eq_true _ ▸ hp
      have hnone : own dir s (.page s.cur v) = none := by
        rw [own_table (div_lt_of_lt_userPages hv) hd] at hnoT
        rw [Paging.own_page hv hd, walk, hnoT, Option.bind_none]
      obtain ⟨hok, hker, hown⟩ := h.newTable hv hd hnoT ha
      -- the state after the new table, and the frame that is still nobody's
      have hfT : T ≠ f := fun heq => ha.fresh (heq ▸ hf)
      have hfree2 : Unheld (own dir (Paging.newTable s v T p)) f := hown ▸ hfree.give hfT _
      have hmap := hok.mapped_user (v := v) (T := T) hv
        (by rw [hown]; exact update_self ..)
        (by rw [hown]; exact (update_of_ne (by simp) ..).trans hnone) hfree2 (ha.mono f hf)
      obtain rfl : _ = s' := pure_eq_ok.1 hadd
      obtain ⟨k, hk, hTk, hpk⟩ := palloc_eq_ok hpal
      obtain rfl : T = k + s.kernelPool.phyAddrStart := Option.some.inj hTk
      have hshape : SameShape s (Paging.newTable s v (k + s.kernelPool.phyAddrStart) p) :=
        ⟨ha.shape.kernelStart, ha.shape.kernelLen, rfl, rfl, rfl, rfl, fun _ => rfl⟩
      refine ⟨hmap.framesOk, hshape.trans hmap.shape, hker.trans hmap.kernel, rfl, rfl, rfl, rfl,
        ha.mono, by rw [here_user hv, hnone], .inr ⟨hv, hnoT, k, hk, hpk, ?_⟩⟩
      rcases hmap.own_eq with ⟨-, -, heq⟩ | ⟨-, hc, -⟩
      · rw [hown] at heq
        exact heq
      · rw [hown] at hc
        exact absurd ((update_self ..).symm.trans hc) (by simp)
    · exact absurd (h.pde_kernel hv ▸ h.layout.present _ hv.div_le hv.div_lt) hp

/-- `page_table_add` goes through for a page without a frame, as long as there is a page table or a
frame for one. -/
theorem FramesOk.exists_pageTableAdd (h : FramesOk dir s) (hm : Managed dir s v)
    (hnone : own dir s (here s v) = none) (f : ℕ)
    (hroom : (s.pde v).present = true ∨
      ∃ k < s.kernelPool.poolBitmap.bitLen, s.kernelPool.poolBitmap.bit k = false) :
    ∃ s', Paging.pageTableAdd false s v f = .ok s' := by
  have hwalk := h.own_here hm
  unfold Paging.pageTableAdd
  by_cases hp : (s.pde v).present = true
  · rw [hnone, walk, show (s.table s.cr3 (v / 1024)).target = some (s.pde v).frame from
      Entry.target_of_present hp, Option.bind_some, eq_comm, Entry.target_eq_none] at hwalk
    rw [if_pos hp]
    exact ⟨_, bind_eq_ok.2 ⟨(), assert_eq_ok.2 hwalk, rfl⟩⟩
  · obtain ⟨k, hk, hc⟩ := hroom.resolve_left hp
    obtain ⟨T, p', hpal⟩ := palloc_of_clear hk hc
    obtain ⟨_, hT, ha⟩ := @FramesOk.palloc _ _ h .kernel _ _ hpal
    obtain rfl := Option.some.inj hT
    -- the frame of the new table is not the page directory
    have hne : s.cr3 ≠ T := by
      rcases hm with ⟨-, hd⟩ | hv
      · obtain ⟨d, hd⟩ := Option.isSome_iff_exists.1 hd
        obtain ⟨q, -, hq⟩ := h.dirs _ d hd
        rw [h.cr3, hd, Option.getD_some]
        rintro rfl
        exact ha.unheld _ hq
      · exact absurd (h.pde_kernel hv ▸ h.layout.present _ hv.div_le hv.div_lt) hp
    have hpde : (Paging.newTable s v T p').pde v = ⟨true, T⟩ := by
      simp only [pde, Paging.newTable]
      rw [update_of_ne hne, update_self, update_self]
    have hpte : ((Paging.newTable s v T p').pte v).present = false := by
      rw [pte, hpde]
      simp only [Paging.newTable]
      rw [update_self]
    rw [if_neg hp]
    exact ⟨_, bind_eq_ok.2 ⟨_, hpal, bind_eq_ok.2 ⟨(), assert_eq_ok.2 (.inr hpte), rfl⟩⟩⟩

end Gardos.Paging
