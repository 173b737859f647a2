import Gardos.Kernel.BitmapScan
import Gardos.Memory.FrameRuns

/-!
# `malloc_page` when the frames run out

With assertions compiled out (`NDEBUG`), `bitmap_scan` returns `-1` for a bitmap without a clear
bit, and the branches of `vaddr_get`, `palloc` and `malloc_page` for this case can be reached.

`malloc_page` marks the virtual pages first. When the pool has too few frames, the marks, the frames
and the page table entries stay; a comment in the source says that giving them back is left for
later. So a failure leaves things as they were only if there was no run of virtual pages
(`unchanged_iff_of_failed`).
-/

namespace Gardos.Paging

open Outcome Machine Function

/-! ## What the loop keeps -/

variable {s s' : Machine} {pf : PoolFlags} {d : Bool} {v f n : ℕ}

/-- The bitmaps of virtual pages and the tasks are as before. -/
structure SameSpaces (s s' : Machine) : Prop where
  kernelVaddr : s'.kernelVaddr = s.kernelVaddr
  tasks : s'.tasks = s.tasks
  cur : s'.cur = s.cur

theorem SameSpaces.trans {s₁ : Machine} (h : SameSpaces s s₁) (h' : SameSpaces s₁ s') :
    SameSpaces s s' :=
  ⟨h'.kernelVaddr.trans h.kernelVaddr, h'.tasks.trans h.tasks, h'.cur.trans h.cur⟩

theorem SameSpaces.vaddr (h : SameSpaces s s') (pf : PoolFlags) : s'.vaddr pf = s.vaddr pf := by
  cases pf with
  | kernel => exact h.kernelVaddr
  | user =>
    change (s'.tasks s'.cur).userprogVaddr = (s.tasks s.cur).userprogVaddr
    rw [h.tasks, h.cur]

theorem setPool_sameSpaces (s : Machine) (p : Pool) (pf : PoolFlags) :
    SameSpaces s (s.setPool p pf) := by
  cases pf <;> exact ⟨rfl, rfl, rfl⟩

theorem pageTableAdd_sameSpaces (h : pageTableAdd d s v f = .ok s') : SameSpaces s s' := by
  unfold pageTableAdd at h
  split at h
  · obtain ⟨_, -, h⟩ := bind_eq_ok.1 h
    obtain rfl := pure_eq_ok.1 h
    exact ⟨rfl, rfl, rfl⟩
  · obtain ⟨⟨t, p⟩, -, h⟩ := bind_eq_ok.1 h
    obtain ⟨_, -, h⟩ := bind_eq_ok.1 h
    obtain rfl := pure_eq_ok.1 h
    exact ⟨rfl, rfl, rfl⟩

theorem mapPages_sameSpaces {done : Bool} (h : mapPages d pf n v s = .ok (done, s')) :
    SameSpaces s s' := by
  induction n generalizing v s with
  | zero =>
    obtain ⟨-, rfl⟩ := ok_pair h
    exact ⟨rfl, rfl, rfl⟩
  | succ n ih =>
    obtain ⟨⟨r, p⟩, -, h⟩ := bind_eq_ok.1 h
    cases r with
    | none =>
      obtain ⟨-, rfl⟩ := ok_pair h
      exact setPool_sameSpaces s p pf
    | some f =>
      obtain ⟨s₁, hadd, h⟩ := bind_eq_ok.1 h
      exact ((setPool_sameSpaces s p pf).trans (pageTableAdd_sameSpaces hadd)).trans (ih h)

/-! ## A failed request -/

/-- The bitmaps and the page tables are as before. -/
structure Unchanged (s s' : Machine) : Prop where
  kernelVaddr : s'.kernelVaddr = s.kernelVaddr
  userVaddr : s'.running.userprogVaddr = s.running.userprogVaddr
  kernelPool : s'.kernelPool = s.kernelPool
  userPool : s'.userPool = s.userPool
  table : s'.table = s.table

theorem Unchanged.refl (s : Machine) : Unchanged s s := ⟨rfl, rfl, rfl, rfl, rfl⟩

theorem vaddr_setVaddr (s : Machine) (va : VirtualAddr) (pf : PoolFlags) :
    (s.setVaddr va pf).vaddr pf = va := by
  cases pf with
  | kernel => rfl
  | user =>
    change (update s.tasks s.cur _ s.cur).userprogVaddr = va
    rw [update_self]

/-- The ways in which `malloc_page` returns: no run of virtual pages, or a run that is marked, with
the first virtual page or without. -/
theorem mallocPage_cases {r : Option ℕ} (h : mallocPage d s pf n = .ok (r, s')) :
    (bitmapScan d (s.vaddr pf).vaddrBitmap n = .ok none ∧ r = none ∧ s' = s) ∨
    ∃ i done, bitmapScan d (s.vaddr pf).vaddrBitmap n = .ok (some i) ∧
      mapPages d pf n (((s.vaddr pf).vaddrStart + i) % pageCount)
        (s.setVaddr ((s.vaddr pf).mark i n true) pf) = .ok (done, s') ∧
      r = if done then some (((s.vaddr pf).vaddrStart + i) % pageCount) else none := by
  obtain ⟨_, -, h⟩ := bind_eq_ok.1 h
  obtain ⟨⟨v, s₁⟩, hget, h⟩ := bind_eq_ok.1 h
  obtain ⟨res, hscan, hget⟩ := bind_eq_ok.1 hget
  cases res with
  | none =>
    obtain ⟨rfl, rfl⟩ := ok_pair hget
    obtain ⟨rfl, rfl⟩ := ok_pair h
    exact .inl ⟨hscan, rfl, rfl⟩
  | some i =>
    obtain ⟨_, -, rfl, rfl⟩ := bind_pair_eq_ok hget
    obtain ⟨⟨done, s₂⟩, hmap, rfl, rfl⟩ := bind_pair_eq_ok h
    exact .inr ⟨i, done, hscan, hmap, rfl⟩

/-- A run in the reach of the search is found, and only then. -/
theorem bitmapScan_eq_none_iff {b : Bitmap} {r : Option ℕ} (hn : 0 < n)
    (h : bitmapScan true b n = .ok r) : r = none ↔ b.reach n = ∅ := by
  by_cases hclear : ∃ i < b.bitLen, b.bit i = false
  · obtain ⟨r', hr', hleast⟩ := Bitmap.exists_bitmapScan_isLeast (d := true) hn hclear
    obtain rfl := Except.ok.inj (h.symm.trans hr')
    constructor
    · rintro rfl
      by_contra hne
      obtain ⟨i, hi⟩ := Set.nonempty_iff_ne_empty.2 hne
      cases (hleast (sInf (b.reach n))).2 ⟨Nat.sInf_mem ⟨i, hi⟩, fun _ hm => Nat.sInf_le hm⟩
    · intro hempty
      cases r with
      | none => rfl
      | some i =>
        have := ((hleast i).1 rfl).1
        rw [hempty] at this
        exact absurd this (Set.notMem_empty i)
  · have hfull : ∀ i < b.bitLen, b.bit i = true := fun i hi => by
      cases hbit : b.bit i with
      | true => rfl
      | false => exact absurd ⟨i, hi, hbit⟩ hclear
    rw [bitmapScan_true_of_full hfull] at h
    refine iff_of_true (Except.ok.inj h).symm (Set.eq_empty_of_forall_notMem fun i hi => ?_)
    exact hclear ⟨i, hi.2.1, by simpa using hi.1 0 hn⟩

/-- A request for no pages fails only before anything has happened. -/
theorem unchanged_of_failed_zero (h : mallocPage d s pf 0 = .ok (none, s')) :
    Unchanged s s' := by
  rcases mallocPage_cases h with ⟨-, -, rfl⟩ | ⟨i, done, -, hmap, hr⟩
  · exact .refl _
  · obtain ⟨rfl, -⟩ := ok_pair hmap
    cases hr

/-- **A failed `malloc_page`** changes nothing iff there was no run of virtual pages. -/
theorem unchanged_iff_of_failed (h : mallocPage true s pf n = .ok (none, s')) :
    Unchanged s s' ↔ n = 0 ∨ (s.vaddr pf).vaddrBitmap.reach n = ∅ := by
  rcases Nat.eq_zero_or_pos n with rfl | hn
  · exact iff_of_true (unchanged_of_failed_zero h) (.inl rfl)
  rw [or_iff_right hn.ne']
  rcases mallocPage_cases h with ⟨hscan, -, rfl⟩ | ⟨i, done, hscan, hmap, -⟩
  · exact iff_of_true (Unchanged.refl _) ((bitmapScan_eq_none_iff hn hscan).1 rfl)
  · refine iff_of_false (fun hu => ?_) fun hempty => ?_
    · -- the first bit of the run was clear, and is set
      have hbit := bitmapScan_eq_some hscan 0 hn
      have hvaddr : s'.vaddr pf = (s.vaddr pf).mark i n true := by
        rw [(mapPages_sameSpaces hmap).vaddr, vaddr_setVaddr]
      have hsame : s'.vaddr pf = s.vaddr pf := by
        cases pf with
        | kernel => exact hu.kernelVaddr
        | user => exact hu.userVaddr
      rw [← hsame, hvaddr, VirtualAddr.mark, setRun_bit, if_pos (by omega)] at hbit
      cases hbit
    · cases (bitmapScan_eq_none_iff hn hscan).2 hempty

end Gardos.Paging
