import Gardos.Foundations.Outcome
import Gardos.Foundations.Search

/-!
# Bitmaps (`lib/kernel/bitmap.c`)

A bitmap is the memory from `bits` on, bit by bit, together with its length in bytes; the bits
behind the length are whatever the memory holds there. `bitmapScan` is the first-fit search of
the source: it skips full bytes, then set bits in the first byte that is not full, and for a run
of more than one bit counts clear bits from there on.

* `bitmapScan_one_eq_some` and `bitmapScan_one_of_clear` say what the allocators that take one
  bit at a time rely on: the result is the first clear bit.
* `bitmapScan_of_run` is for runs: with a clear run inside the bitmap, the search returns a clear
  run that starts no later.
-/

namespace Gardos

open Outcome Function

/-- `struct bitmap`: bit `k` is bit `k % 8` of the byte `bits[k / 8]`. -/
structure Bitmap where
  btmpBytesLen : ℕ
  bit : ℕ → Bool

namespace Bitmap

/-- The number of bits of the bitmap. -/
def bitLen (b : Bitmap) : ℕ := 8 * b.btmpBytesLen

/-- `bitmap_set`. -/
def set (b : Bitmap) (bitIdx : ℕ) (value : Bool) : Bitmap :=
  { b with bit := update b.bit bitIdx value }

@[simp] theorem set_bit (b : Bitmap) (i : ℕ) (v : Bool) (j : ℕ) :
    (b.set i v).bit j = if j = i then v else b.bit j := by
  simp [set, update_apply]

@[simp] theorem set_bitLen (b : Bitmap) (i : ℕ) (v : Bool) : (b.set i v).bitLen = b.bitLen := rfl

/-- A bit that is set and cleared again. -/
theorem set_set_of_clear {b : Bitmap} {i : ℕ} (h : b.bit i = false) :
    (b.set i true).set i false = b := by
  unfold Bitmap.set
  rw [update_idem, ← h, update_eq_self]

/-- Byte `i` of the bitmap is `0xff`. -/
def byteFull (b : Bitmap) (i : ℕ) : Bool := (List.range 8).all fun j => b.bit (8 * i + j)

theorem byteFull_iff {b : Bitmap} {i : ℕ} :
    b.byteFull i = true ↔ ∀ j < 8, b.bit (8 * i + j) = true := by
  simp [byteFull]

/-- Byte `i` of the bitmap, bit `8 * i` lowest. -/
def byte (b : Bitmap) (i : ℕ) : UInt8 :=
  UInt8.ofNat (((List.range 8).map fun j => if b.bit (8 * i + j) then 2 ^ j else 0).sum)

/-- The loop of `bitmap_scan` that counts clear bits from `nextBit` on, `bitLeft` times. -/
def scanRun (b : Bitmap) (cnt : ℕ) : (bitLeft nextBit count : ℕ) → Option ℕ
  | 0, _, _ => none
  | left + 1, next, count =>
    let count := if b.bit next then 0 else count + 1
    if count = cnt then some (next + 1 - cnt) else b.scanRun cnt left (next + 1) count

/-- The first byte that is not `0xff`, or the length of the bitmap. -/
def idxByte (b : Bitmap) : ℕ := skipWhile b.byteFull b.btmpBytesLen 0

/-- The first clear bit of byte `idxByte`. -/
def bitIdxStart (b : Bitmap) : ℕ :=
  8 * b.idxByte + skipWhile (fun j => b.bit (8 * b.idxByte + j)) 8 0

end Bitmap

/-- `bitmap_scan`: the first run of `cnt` clear bits. A bitmap without a clear bit fails the
assertion; built with `NDEBUG`, the search returns `-1`. -/
def bitmapScan (ndebug : Bool) (b : Bitmap) (cnt : ℕ) : Outcome (Option ℕ) := do
  assert (ndebug = true ∨ b.idxByte < b.btmpBytesLen)
  if b.idxByte = b.btmpBytesLen then
    return none
  if cnt = 1 then
    return some b.bitIdxStart
  return b.scanRun cnt (b.bitLen - b.bitIdxStart) (b.bitIdxStart + 1) 1

namespace Bitmap

/-! ## The first clear bit -/

/-- `i` is the first clear bit of the bitmap. -/
structure IsFirstClear (b : Bitmap) (i : ℕ) : Prop where
  lt : i < b.bitLen
  clear : b.bit i = false
  before : ∀ j < i, b.bit j = true

theorem idxByte_le (b : Bitmap) : b.idxByte ≤ b.btmpBytesLen := by
  have := skipWhile_le (p := b.byteFull) (n := b.btmpBytesLen) (i := 0)
  simpa [idxByte] using this

variable {b : Bitmap} {j i : ℕ}

/-- Every bit of the bytes before `idxByte` is set. -/
theorem bit_of_lt_idxByte (h : j < 8 * b.idxByte) : b.bit j = true := by
  have hlt : j / 8 < skipWhile b.byteFull b.btmpBytesLen 0 := by
    unfold idxByte at h
    omega
  have hf : b.byteFull (j / 8) = true := skipWhile_holds (Nat.zero_le _) hlt
  have := byteFull_iff.1 hf (j % 8) (Nat.mod_lt _ (by omega))
  rwa [Nat.div_add_mod] at this

theorem bitIdxStart_isFirstClear (h : b.idxByte < b.btmpBytesLen) :
    b.IsFirstClear b.bitIdxStart := by
  have hnf : b.byteFull b.idxByte = false := skipWhile_fails (by simpa [idxByte] using h)
  set k := skipWhile (fun j => b.bit (8 * b.idxByte + j)) 8 0 with hk
  have hk8 : k < 8 := by
    -- otherwise the search passed over all eight bits, and the byte is full
    by_contra hge
    have hall : b.byteFull b.idxByte = true := byteFull_iff.2 fun j hj =>
      skipWhile_holds (p := fun j => b.bit (8 * b.idxByte + j)) (Nat.zero_le j) (n := 8)
        (by rw [← hk]; omega)
    rw [hnf] at hall
    exact Bool.noConfusion hall
  have hstart : b.bitIdxStart = 8 * b.idxByte + k := rfl
  refine ⟨by rw [hstart, bitLen]; omega, ?_, fun j hj => ?_⟩
  · rw [hstart]
    exact skipWhile_fails (p := fun j => b.bit (8 * b.idxByte + j)) (by rw [← hk]; omega)
  · by_cases hlt : j < 8 * b.idxByte
    · exact bit_of_lt_idxByte hlt
    · have := skipWhile_holds (p := fun j => b.bit (8 * b.idxByte + j)) (n := 8) (i := 0)
        (Nat.zero_le (j - 8 * b.idxByte)) (by rw [← hk]; omega)
      rwa [show 8 * b.idxByte + (j - 8 * b.idxByte) = j by omega] at this

theorem IsFirstClear.unique (hi : b.IsFirstClear i) (hj : b.IsFirstClear j) : i = j := by
  rcases lt_trichotomy i j with h | h | h
  · exact absurd (hj.before i h) (by simp [hi.clear])
  · exact h
  · exact absurd (hi.before j h) (by simp [hj.clear])

/-- A bitmap with a clear bit has a first byte that is not full. -/
theorem idxByte_lt_of_clear (hi : i < b.bitLen) (hc : b.bit i = false) :
    b.idxByte < b.btmpBytesLen := by
  by_contra h
  rw [bit_of_lt_idxByte (by unfold bitLen at hi; omega)] at hc
  exact Bool.noConfusion hc

/-! ## Runs -/

/-- The `cnt` bits from `s` on are clear. -/
def ClearRun (b : Bitmap) (s cnt : ℕ) : Prop := ∀ j < cnt, b.bit (s + j) = false

/-- The counting loop, entered with the `c` bits before `m` clear: the run it returns is
clear, and it does not miss a run that ends in its range. -/
theorem scanRun_of_run {cnt n m c s : ℕ} (hcnt : c < cnt)
    (hc : ∀ j, m - c ≤ j → j < m → b.bit j = false) (hcn : c ≤ m) (hs : b.ClearRun s cnt)
    (hle : m - c ≤ s) (hend : s + cnt ≤ m + n) :
    ∃ r, b.scanRun cnt n m c = some r ∧ r ≤ s ∧ b.ClearRun r cnt ∧
      m - c ≤ r := by
  induction n generalizing m c with
  | zero => omega
  | succ n ih =>
    simp only [scanRun]
    by_cases hb : b.bit m = true
    · rw [if_pos hb, if_neg (by omega)]
      -- the run cannot contain the set bit, so it starts behind it
      have hsn : m < s := by
        by_contra hlt
        have := hs (m - s) (by omega)
        rw [show s + (m - s) = m by omega, hb] at this
        exact Bool.noConfusion this
      obtain ⟨r, hr, h1, h2, h3⟩ := ih (m := m + 1) (c := 0) (by omega)
        (fun j hj hj' => by omega) (by omega) (by omega) (by omega)
      exact ⟨r, hr, h1, h2, by omega⟩
    · rw [if_neg hb]
      have hc' : ∀ j, m - c ≤ j → j < m + 1 → b.bit j = false := fun j hj hj' => by
        rcases Nat.eq_or_lt_of_le (Nat.lt_succ_iff.1 hj') with rfl | hlt
        · simpa using hb
        · exact hc j hj hlt
      by_cases he : c + 1 = cnt
      · rw [if_pos he]
        refine ⟨m + 1 - cnt, rfl, by omega, fun j hj => hc' _ (by omega) (by omega), by omega⟩
      · rw [if_neg he]
        obtain ⟨r, hr, h1, h2, h3⟩ := ih (m := m + 1) (c := c + 1) (by omega)
          (fun j hj hj' => hc' j (by omega) hj') (by omega) (by omega) (by omega)
        exact ⟨r, hr, h1, h2, by omega⟩

/-- A run that the counting loop returns is clear. -/
theorem clearRun_of_scanRun {cnt n m c r : ℕ} (hc : c ≤ m)
    (hclear : ∀ j, m - c ≤ j → j < m → b.bit j = false) (h : b.scanRun cnt n m c = some r) :
    b.ClearRun r cnt := by
  induction n generalizing m c with
  | zero => cases h
  | succ n ih =>
    simp only [scanRun] at h
    by_cases hb : b.bit m = true
    · rw [if_pos hb] at h
      split at h
      · subst cnt
        exact fun j hj => absurd hj (by omega)
      · exact ih (by omega) (fun j hj hj' => by omega) h
    · rw [if_neg hb] at h
      have hclear' : ∀ j, m - c ≤ j → j < m + 1 → b.bit j = false := fun j hj hj' => by
        rcases Nat.eq_or_lt_of_le (Nat.lt_succ_iff.1 hj') with rfl | hlt
        · simpa using hb
        · exact hclear j hj hlt
      split at h
      · obtain rfl := Option.some.inj h
        exact fun j hj => hclear' _ (by omega) (by omega)
      · exact ih (by omega) (fun j hj hj' => hclear' j (by omega) hj') h

end Bitmap

open Bitmap

variable {d : Bool} {b : Bitmap} {i cnt : ℕ}

/-- The search for one bit returns the first clear one. -/
theorem bitmapScan_one_eq_some (h : bitmapScan d b 1 = .ok (some i)) : b.IsFirstClear i := by
  simp only [bitmapScan, bind_eq_ok, assert_eq_ok, if_true] at h
  obtain ⟨-, -, h⟩ := h
  split at h
  · simp at h
  · rename_i hne
    simp only [pure_eq_ok, Option.some.injEq] at h
    subst h
    exact bitIdxStart_isFirstClear (lt_of_le_of_ne b.idxByte_le hne)

/-- With assertions compiled in, the search for one bit never returns `-1`. -/
theorem bitmapScan_one_ne_none : bitmapScan false b 1 ≠ .ok none := by
  intro h
  simp only [bitmapScan, bind_eq_ok, assert_eq_ok, if_true] at h
  obtain ⟨-, hlt, h⟩ := h
  split at h
  · simp at hlt
    omega
  · simp at h

/-- The search in a full bitmap goes past all its bytes. -/
theorem Bitmap.idxByte_of_full (h : ∀ i < b.bitLen, b.bit i = true) :
    b.idxByte = b.btmpBytesLen := by
  refine le_antisymm b.idxByte_le (not_lt.1 fun hlt => ?_)
  have hfirst := bitIdxStart_isFirstClear hlt
  have := h _ hfirst.lt
  rw [hfirst.clear] at this
  cases this

/-- With assertions compiled in, the search in a full bitmap stops. -/
theorem bitmapScan_of_full (h : ∀ i < b.bitLen, b.bit i = true) :
    bitmapScan false b cnt = .error .assert := by
  unfold bitmapScan
  rw [assert, if_neg (by simp [idxByte_of_full h])]
  rfl

/-- With the assertion compiled out, the search in a full bitmap returns `-1`. -/
theorem bitmapScan_true_of_full (h : ∀ i < b.bitLen, b.bit i = true) :
    bitmapScan true b cnt = .ok none := by
  unfold bitmapScan
  rw [if_pos (idxByte_of_full h)]
  exact bind_eq_ok.2 ⟨(), assert_eq_ok.2 (.inl rfl), rfl⟩

/-- A bitmap with a clear bit yields its first clear bit. -/
theorem bitmapScan_one_of_clear (hi : i < b.bitLen) (hc : b.bit i = false) :
    ∃ k, bitmapScan d b 1 = .ok (some k) ∧ b.IsFirstClear k := by
  have hlt := idxByte_lt_of_clear hi hc
  refine ⟨b.bitIdxStart, ?_, bitIdxStart_isFirstClear hlt⟩
  simp only [bitmapScan, bind_eq_ok, assert_eq_ok, if_true]
  refine ⟨(), Or.inr hlt, ?_⟩
  rw [if_neg (by omega)]
  rfl

/-- With a clear run of `cnt ≥ 1` bits inside the bitmap, the search returns a clear run that
starts no later. -/
theorem bitmapScan_of_run {s : ℕ} (hcnt : 1 ≤ cnt) (hs : b.ClearRun s cnt)
    (hend : s + cnt ≤ b.bitLen) :
    ∃ r, bitmapScan d b cnt = .ok (some r) ∧ r ≤ s ∧ b.ClearRun r cnt := by
  have hc : b.bit s = false := by simpa using hs 0 (by omega)
  have hlt := idxByte_lt_of_clear (by omega) hc
  have hfirst := bitIdxStart_isFirstClear hlt
  have hle : b.bitIdxStart ≤ s := by
    by_contra h
    have := hfirst.before s (by omega)
    rw [hc] at this
    exact Bool.noConfusion this
  by_cases h1 : cnt = 1
  · subst h1
    refine ⟨b.bitIdxStart, ?_, hle, fun j hj => ?_⟩
    · simp only [bitmapScan, bind_eq_ok, assert_eq_ok, if_true]
      exact ⟨(), Or.inr hlt, by rw [if_neg (by omega)]; rfl⟩
    · rw [show j = 0 by omega]
      exact hfirst.clear
  · obtain ⟨r, hr, hrs, hclear, -⟩ := scanRun_of_run (n := b.bitLen - b.bitIdxStart)
      (m := b.bitIdxStart + 1) (c := 1) (by omega)
      (fun j hj hj' => by rw [show j = b.bitIdxStart by omega]; exact hfirst.clear) (by omega)
      hs (by omega) (by omega)
    refine ⟨r, ?_, hrs, hclear⟩
    simp only [bitmapScan, bind_eq_ok, assert_eq_ok]
    refine ⟨(), Or.inr hlt, ?_⟩
    rw [if_neg (by omega), if_neg h1, hr]
    rfl

/-- A run that the search returns is clear. -/
theorem bitmapScan_eq_some {r : ℕ} (h : bitmapScan d b cnt = .ok (some r)) : b.ClearRun r cnt := by
  simp only [bitmapScan, bind_eq_ok, assert_eq_ok] at h
  obtain ⟨-, -, h⟩ := h
  by_cases hidx : b.idxByte = b.btmpBytesLen
  · rw [if_pos hidx] at h
    cases h
  · rw [if_neg hidx] at h
    have hfirst := bitIdxStart_isFirstClear (lt_of_le_of_ne b.idxByte_le hidx)
    split at h
    · subst cnt
      obtain rfl := Option.some.inj (pure_eq_ok.1 h)
      intro j hj
      rw [show j = 0 by omega, Nat.add_zero]
      exact hfirst.clear
    · refine clearRun_of_scanRun (by omega) (fun j hj hj' => ?_) (pure_eq_ok.1 h)
      rw [show j = b.bitIdxStart by omega]
      exact hfirst.clear

/-- The loops of `vaddr_get` and `vaddr_remove`: the `n` bits from `i` on. -/
def setRun (b : Bitmap) (i : ℕ) (value : Bool) : ℕ → Bitmap
  | 0 => b
  | n + 1 => (setRun b i value n).set (i + n) value

theorem setRun_bit (b : Bitmap) (i : ℕ) (value : Bool) (n j : ℕ) :
    (setRun b i value n).bit j = if i ≤ j ∧ j < i + n then value else b.bit j := by
  induction n with
  | zero => rw [setRun, if_neg (by omega)]
  | succ n ih =>
    rw [setRun, Bitmap.set_bit, ih]
    by_cases hj : j = i + n
    · rw [if_pos hj, if_pos (by omega)]
    · rw [if_neg hj]
      exact if_congr (by omega) rfl rfl

end Gardos
