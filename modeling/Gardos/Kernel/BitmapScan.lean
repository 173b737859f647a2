import Gardos.Kernel.Bitmap
import Mathlib.Order.Bounds.Basic
import Mathlib.Tactic

/-!
# The search in a bitmap, and what its callers rely on

`bitmap_scan` serves the pools of frames, the virtual pages, the inodes and the blocks. The loop
that counts clear bits starts behind the first clear bit, but runs as often as there are bits from
that one on, so its last test is on the bit behind the bitmap.

* `scanInside_iff`: the search stays inside the bitmap iff it finds a run there.
* `firstFit_of_guard`: if the bit behind the bitmap is set, the search is a complete first fit, and
  the runs that it hands out do not overlap.
-/

namespace Gardos

open Outcome

namespace Bitmap

/-! ## The bits that are tested -/

/-- The bits that `scanRun` tests. -/
def scanRunTests (b : Bitmap) (cnt : ℕ) : (bitLeft nextBit count : ℕ) → List ℕ
  | 0, _, _ => []
  | left + 1, next, count =>
    let count := if b.bit next then 0 else count + 1
    if count = cnt then [next] else next :: b.scanRunTests cnt left (next + 1) count

/-- The bits that `bitmap_scan` tests: those of the bytes up to `idxByte`, which is read before it
is compared with the length, and those that the counting loop tests. -/
def tests (b : Bitmap) (cnt : ℕ) : List ℕ :=
  List.range (8 * (b.idxByte + 1)) ++
    if b.idxByte = b.btmpBytesLen ∨ cnt = 1 then []
    else b.scanRunTests cnt (b.bitLen - b.bitIdxStart) (b.bitIdxStart + 1) 1

variable {b : Bitmap} {cnt : ℕ}

/-- The counting loop does not go beyond a run that it can find. -/
theorem lt_of_mem_scanRunTests {n m c s : ℕ} (hcnt : c < cnt) (hcm : c ≤ m)
    (hs : b.ClearRun s cnt) (hle : m - c ≤ s) (hend : s + cnt ≤ m + n) :
    ∀ i ∈ b.scanRunTests cnt n m c, i < s + cnt := by
  induction n generalizing m c with
  | zero => exact fun i hi => by cases hi
  | succ n ih =>
    intro i hi
    rw [scanRunTests] at hi
    by_cases hb : b.bit m = true
    · rw [if_pos hb, if_neg (by omega)] at hi
      -- the run cannot contain the set bit, so it starts behind it
      have hsn : m < s := by
        by_contra hlt
        have := hs (m - s) (by omega)
        rw [show s + (m - s) = m by omega, hb] at this
        exact Bool.noConfusion this
      rcases List.mem_cons.1 hi with rfl | hi
      · omega
      · exact ih (by omega) (by omega) (by omega) (by omega) i hi
    · rw [if_neg hb] at hi
      by_cases he : c + 1 = cnt
      · rw [if_pos he, List.mem_singleton] at hi
        omega
      · rw [if_neg he] at hi
        rcases List.mem_cons.1 hi with rfl | hi
        · omega
        · exact ih (by omega) (by omega) (by omega) (by omega) i hi

/-- Without a run before the last bit of its range, the counting loop comes to this bit. -/
theorem mem_scanRunTests {n m c : ℕ} (hcm : c ≤ m)
    (hc : ∀ j, m - c ≤ j → j < m → b.bit j = false)
    (hnone : ∀ s, m - c ≤ s → s + cnt ≤ m + n → ¬ b.ClearRun s cnt) (hcnt : 1 ≤ cnt) :
    m + n ∈ b.scanRunTests cnt (n + 1) m c := by
  induction n generalizing m c with
  | zero =>
    rw [scanRunTests]
    split <;> split <;> exact List.mem_cons_self ..
  | succ n ih =>
    rw [scanRunTests]
    by_cases hb : b.bit m = true
    · rw [if_pos hb, if_neg (by omega), show m + (n + 1) = m + 1 + n by omega]
      exact List.mem_cons_of_mem _ (ih (by omega) (fun j hj hj' => by omega)
        fun s hs hs' => hnone s (by omega) (by omega))
    · have hc' : ∀ j, m - c ≤ j → j < m + 1 → b.bit j = false := fun j hj hj' => by
        rcases Nat.eq_or_lt_of_le (Nat.lt_succ_iff.1 hj') with rfl | hlt
        · simpa using hb
        · exact hc j hj hlt
      have hne : c + 1 ≠ cnt := fun he =>
        hnone (m + 1 - cnt) (by omega) (by omega) fun j hj => hc' _ (by omega) (by omega)
      rw [if_neg hb, if_neg hne, show m + (n + 1) = m + 1 + n by omega]
      exact List.mem_cons_of_mem _ (ih (by omega) (fun j hj hj' => hc' j (by omega) hj')
        fun s hs hs' => hnone s (by omega) (by omega))

/-- A run of `cnt` clear bits inside the bitmap. -/
def Fits (b : Bitmap) (cnt s : ℕ) : Prop := b.ClearRun s cnt ∧ s + cnt ≤ b.bitLen

theorem tests_of_lt (h : b.idxByte < b.btmpBytesLen) (h1 : cnt ≠ 1) :
    b.tests cnt = List.range (8 * (b.idxByte + 1)) ++
      b.scanRunTests cnt (b.bitLen - b.bitIdxStart) (b.bitIdxStart + 1) 1 := by
  rw [tests, if_neg (by omega)]

theorem bitmapScan_of_lt {d : Bool} (h : b.idxByte < b.btmpBytesLen) (h1 : cnt ≠ 1) :
    bitmapScan d b cnt = .ok (b.scanRun cnt (b.bitLen - b.bitIdxStart) (b.bitIdxStart + 1) 1) := by
  simp only [bitmapScan, bind_eq_ok, assert_eq_ok]
  refine ⟨(), Or.inr h, ?_⟩
  rw [if_neg h.ne, if_neg h1]
  rfl

/-- The search stays inside the bitmap: in what it tests, and in what it returns. -/
def ScanInside (b : Bitmap) (cnt : ℕ) : Prop :=
  (∀ i ∈ b.tests cnt, i < b.bitLen) ∧
    ∀ s, bitmapScan false b cnt = .ok (some s) → s + cnt ≤ b.bitLen ∧ b.ClearRun s cnt

/-- **The bounds of the search.** In a bitmap with a clear bit, and whatever is in the memory behind
it, `bitmap_scan` stays inside the bitmap iff there is a run for it to find. -/
theorem scanInside_iff (b : Bitmap) (cnt : ℕ) (hcnt : 1 ≤ cnt)
    (hclear : ∃ i < b.bitLen, b.bit i = false) : b.ScanInside cnt ↔ ∃ s, b.Fits cnt s := by
  obtain ⟨i, hi, hc⟩ := hclear
  have hlt := idxByte_lt_of_clear hi hc
  have hfirst := bitIdxStart_isFirstClear hlt
  have hrun : ∀ j, b.bitIdxStart + 1 - 1 ≤ j → j < b.bitIdxStart + 1 → b.bit j = false :=
    fun j hj hj' => by
      rw [show j = b.bitIdxStart by omega]
      exact hfirst.clear
  have hstart := hfirst.lt
  constructor
  · intro hin
    by_contra hnone
    push Not at hnone
    have h1 : cnt ≠ 1 := by
      rintro rfl
      refine hnone i ⟨fun j hj => ?_, hi⟩
      rwa [show j = 0 by omega, Nat.add_zero]
    -- the last test of the counting loop is on the bit behind the bitmap
    have hmem := mem_scanRunTests (n := b.bitLen - b.bitIdxStart - 1) (Nat.le_add_left 1 _) hrun
      (fun s _ hs' hs => hnone s ⟨hs, by omega⟩) hcnt
    rw [show b.bitLen - b.bitIdxStart - 1 + 1 = b.bitLen - b.bitIdxStart by omega,
      show b.bitIdxStart + 1 + (b.bitLen - b.bitIdxStart - 1) = b.bitLen by omega] at hmem
    have hlast := hin.1 b.bitLen (by
      rw [tests_of_lt hlt h1]
      exact List.mem_append_right _ hmem)
    exact lt_irrefl _ hlast
  · rintro ⟨s, hs, hend⟩
    have hstart_le : b.bitIdxStart ≤ s := by
      by_contra h
      have := hfirst.before s (by omega)
      rw [show b.bit s = false by simpa using hs 0 (by omega)] at this
      exact Bool.noConfusion this
    refine ⟨fun j hj => ?_, fun r hr => ?_⟩
    · rw [tests, List.mem_append, List.mem_range] at hj
      rcases hj with hj | hj
      · unfold bitLen
        omega
      · split at hj
        · cases hj
        · have := lt_of_mem_scanRunTests (by omega) (Nat.le_add_left 1 _) hs (by omega)
            (by omega) j hj
          omega
    · obtain ⟨r', hr', hle, hclear⟩ := bitmapScan_of_run (d := false) hcnt hs hend
      rw [hr] at hr'
      obtain rfl := Option.some.inj (Except.ok.inj hr')
      exact ⟨by omega, hclear⟩

/-- One byte whose first `n` bits are set, with zeros behind it. -/
def fewClear (n : ℕ) : Bitmap := ⟨1, fun k => decide (k < n)⟩

theorem scanInside_two : (fewClear 6).ScanInside 2 :=
  (scanInside_iff (fewClear 6) 2 (by decide) ⟨6, by decide, by decide⟩).2
    ⟨6, by unfold ClearRun; decide, by decide⟩

/-- The last bit is the only clear one, and the memory behind the bitmap is 0: the search for two
bits returns a run that starts inside and ends outside. -/
theorem not_scanInside_last : (∃ i < (fewClear 7).bitLen, (fewClear 7).bit i = false) ∧
    bitmapScan false (fewClear 7) 2 = .ok (some 7) ∧ ¬ (fewClear 7).ScanInside 2 := by
  have hscan : bitmapScan false (fewClear 7) 2 = .ok (some 7) := by decide
  refine ⟨⟨7, by decide, by decide⟩, hscan, fun h => ?_⟩
  exact absurd (h.2 7 hscan).1 (by decide)

/-! ## First fit -/

/-- The result of a complete first-fit search. -/
def FirstFit (b : Bitmap) (cnt : ℕ) : Option ℕ → Prop
  | some s => IsLeast {s | b.Fits cnt s} s
  | none => ∀ s, ¬ b.Fits cnt s

/-- What the counting loop returns ends in its range. -/
theorem scanRun_end {n m c r : ℕ} (hcm : c ≤ m) (h : b.scanRun cnt n m c = some r) :
    r + cnt ≤ m + n := by
  induction n generalizing m c with
  | zero => cases h
  | succ n ih =>
    rw [scanRun] at h
    generalize hcount : (if b.bit m then 0 else c + 1) = count at h
    have hle : count ≤ m + 1 := by
      rw [← hcount]
      split <;> omega
    split at h
    · obtain rfl := Option.some.inj h
      omega
    · have := ih hle h
      omega

/-- The runs that the search can return: its last test is on the bit behind the bitmap. -/
def reach (b : Bitmap) (cnt : ℕ) : Set ℕ :=
  {s | b.ClearRun s cnt ∧ s < b.bitLen ∧ s + cnt ≤ b.bitLen + 1}

/-- **What the search returns**: the first run in its reach. -/
theorem exists_bitmapScan_isLeast {d : Bool} (hcnt : 1 ≤ cnt)
    (hclear : ∃ i < b.bitLen, b.bit i = false) :
    ∃ res, bitmapScan d b cnt = .ok res ∧ ∀ s, res = some s ↔ IsLeast (b.reach cnt) s := by
  obtain ⟨i, hi, hc⟩ := hclear
  have hlt := idxByte_lt_of_clear hi hc
  have hfirst := bitIdxStart_isFirstClear hlt
  have hstart := hfirst.lt
  -- no run starts before the first clear bit
  have hge : ∀ s ∈ b.reach cnt, b.bitIdxStart ≤ s := fun s hs => by
    by_contra h
    have := hfirst.before s (by omega)
    rw [show b.bit s = false by simpa using hs.1 0 (by omega)] at this
    exact Bool.noConfusion this
  by_cases h1 : cnt = 1
  · subst h1
    obtain ⟨k, hk, hkfirst⟩ := bitmapScan_one_of_clear (d := d) hi hc
    obtain rfl := hkfirst.unique hfirst
    have hleast : IsLeast (b.reach 1) b.bitIdxStart := by
      refine ⟨⟨fun j hj => ?_, hstart, by omega⟩, hge⟩
      rw [show j = 0 by omega, Nat.add_zero]
      exact hfirst.clear
    exact ⟨_, hk, fun s => ⟨fun h => Option.some.inj h ▸ hleast, fun h => by rw [hleast.unique h]⟩⟩
  · have hscan := bitmapScan_of_lt (d := d) hlt h1
    have hrun : ∀ s ∈ b.reach cnt, ∃ r, b.scanRun cnt (b.bitLen - b.bitIdxStart)
        (b.bitIdxStart + 1) 1 = some r ∧ r ≤ s := fun s hs => by
      have hle := hge s hs
      have hend := hs.2.2
      obtain ⟨r, hr, hrs, -⟩ := scanRun_of_run (n := b.bitLen - b.bitIdxStart) (c := 1)
        (m := b.bitIdxStart + 1) (by omega)
        (fun j hj hj' => by
          rw [show j = b.bitIdxStart by omega]
          exact hfirst.clear) (by omega) hs.1 (by omega) (by omega)
      exact ⟨r, hr, hrs⟩
    have hmem : ∀ r, b.scanRun cnt (b.bitLen - b.bitIdxStart) (b.bitIdxStart + 1) 1 = some r →
        r ∈ b.reach cnt := fun r hr => by
      have hend := scanRun_end (Nat.le_add_left 1 _) hr
      rw [hr] at hscan
      exact ⟨bitmapScan_eq_some hscan, by omega, by omega⟩
    refine ⟨_, hscan, fun s => ⟨fun hs => ?_, fun hs => ?_⟩⟩
    · refine ⟨hmem s hs, fun s' hs' => ?_⟩
      obtain ⟨r, hr, hle⟩ := hrun s' hs'
      rwa [Option.some.inj (hs.symm.trans hr)]
    · obtain ⟨r, hr, hle⟩ := hrun s hs.1
      rw [hr, le_antisymm hle (hs.2 (hmem r hr))]

/-- **The search is a first fit**, if the bit behind the bitmap is set. -/
theorem exists_bitmapScan (hcnt : 1 ≤ cnt) (hclear : ∃ i < b.bitLen, b.bit i = false)
    (hguard : b.bit b.bitLen = true) :
    ∃ res, bitmapScan false b cnt = .ok res ∧ b.FirstFit cnt res := by
  obtain ⟨res, hres, hleast⟩ := exists_bitmapScan_isLeast (d := false) hcnt hclear
  have hreach : {s | b.Fits cnt s} = b.reach cnt := by
    refine Set.ext fun s => ⟨fun hs => ⟨hs.1, ?_, hs.2.trans (Nat.le_succ _)⟩,
      fun hs => ⟨hs.1, ?_⟩⟩
    · exact lt_of_lt_of_le (Nat.lt_add_of_pos_right hcnt) hs.2
    -- a run that ends outside contains the bit behind the bitmap
    by_contra hout
    have hend := hs.2.2
    have := hs.1 (b.bitLen - s) (by omega)
    rw [show s + (b.bitLen - s) = b.bitLen by omega, hguard] at this
    exact Bool.noConfusion this
  refine ⟨res, hres, ?_⟩
  cases res with
  | none =>
    intro s hs
    have hmem : s ∈ b.reach cnt := hreach ▸ hs
    have hinf : IsLeast (b.reach cnt) (sInf (b.reach cnt)) :=
      ⟨Nat.sInf_mem ⟨s, hmem⟩, fun _ h => Nat.sInf_le h⟩
    cases (hleast _).2 hinf
  | some s =>
    change IsLeast {s | b.Fits cnt s} s
    rw [hreach]
    exact (hleast s).1 rfl

end Bitmap

open Bitmap

/-- An allocation: a run that the search returns is marked with `bitmap_set`. -/
def AllocStep (b b' : Bitmap) : Prop :=
  ∃ cnt s, bitmapScan false b cnt = .ok (some s) ∧ b' = setRun b s true cnt

/-- Bits that are set stay set. -/
theorem AllocStep.bit {b b' : Bitmap} (h : AllocStep b b') {i : ℕ} (hi : b.bit i = true) :
    b'.bit i = true := by
  obtain ⟨cnt, s, -, rfl⟩ := h
  rw [setRun_bit]
  split
  · rfl
  · exact hi

theorem bit_of_allocs {b b' : Bitmap} (h : Relation.ReflTransGen AllocStep b b') {i : ℕ}
    (hi : b.bit i = true) : b'.bit i = true :=
  reach_invariant (I := fun b => b.bit i = true) h hi fun hb hstep => hstep.bit hb

/-- A run that has been handed out: its bits are set and no others have changed, and no search after
any further allocations returns a run that overlaps it. -/
structure HandedOut (b : Bitmap) (cnt s : ℕ) : Prop where
  inside : ∀ i, s ≤ i → i < s + cnt → (setRun b s true cnt).bit i = true
  outside : ∀ i, i < s ∨ s + cnt ≤ i → (setRun b s true cnt).bit i = b.bit i
  apart : ∀ b', Relation.ReflTransGen AllocStep (setRun b s true cnt) b' → ∀ cnt' s', 1 ≤ cnt' →
    bitmapScan false b' cnt' = .ok (some s') → s' + cnt' ≤ s ∨ s + cnt ≤ s'

theorem handedOut (b : Bitmap) {cnt : ℕ} (hcnt : 1 ≤ cnt) (s : ℕ) : HandedOut b cnt s := by
  have hset : ∀ i, s ≤ i → i < s + cnt → (setRun b s true cnt).bit i = true := fun i h1 h2 => by
    rw [setRun_bit, if_pos ⟨h1, h2⟩]
  refine ⟨hset, fun i hi => ?_, fun b' hrun cnt' s' hcnt' hscan => ?_⟩
  · rw [setRun_bit, if_neg (by omega)]
  · have hclear := bitmapScan_eq_some hscan
    by_contra hoverlap
    have hbit := hclear (max s s' - s') (by omega)
    rw [show s' + (max s s' - s') = max s s' by omega,
      bit_of_allocs hrun (hset _ (by omega) (by omega))] at hbit
    exact Bool.noConfusion hbit

/-- **First fit.** In a bitmap with a clear bit, with the bit behind it set, `bitmap_scan` returns
the least run inside the bitmap or `-1` if there is none, and the run it returns is not handed out
again. -/
theorem firstFit_of_guard (b : Bitmap) (cnt : ℕ) (hcnt : 1 ≤ cnt)
    (hclear : ∃ i < b.bitLen, b.bit i = false) (hguard : b.bit b.bitLen = true) :
    ∃ res, bitmapScan false b cnt = .ok res ∧ b.FirstFit cnt res ∧
      ∀ s, res = some s → HandedOut b cnt s := by
  obtain ⟨res, hscan, hfit⟩ := exists_bitmapScan hcnt hclear hguard
  exact ⟨res, hscan, hfit, fun s _ => handedOut b hcnt s⟩

/-- Two clear bits, at the end of one byte, with ones behind. -/
theorem firstFit_two : ∃ res, bitmapScan false ⟨1, fun k => k ≠ 6 ∧ k ≠ 7⟩ 2 = .ok res ∧
    FirstFit ⟨1, fun k => k ≠ 6 ∧ k ≠ 7⟩ 2 res ∧
      ∀ s, res = some s → HandedOut ⟨1, fun k => k ≠ 6 ∧ k ≠ 7⟩ 2 s :=
  firstFit_of_guard _ 2 (by decide) ⟨6, by decide, by decide⟩ (by decide)

/-- The loop over the bytes of a full bitmap reads the byte behind it. -/
theorem mem_tests_of_full {b : Bitmap} (h : ∀ i < b.bitLen, b.bit i = true) (cnt : ℕ) :
    b.bitLen ∈ b.tests cnt := by
  refine List.mem_append_left _ (List.mem_range.2 ?_)
  rw [idxByte_of_full h, bitLen]
  omega

end Gardos
