import Mathlib.Tactic

/-!
# Byte buffers and little-endian words

A buffer is a total function from offsets to bytes; a routine that works on the first `n` bytes
of a buffer only looks at offsets below `n`. This module has the few operations that code on
raw memory is made of:

* `memcpy` and `window`, copying into a buffer and looking at it from an offset on;
* `le32` and `getLe32`, the little-endian bytes of a 32-bit word and the word read back
  (`getLe32_le32`);
* `strEq`, the comparison of a NUL-terminated string in memory with a given one.
-/

namespace Gardos.Bytes

/-- A byte buffer, addressed by offset. -/
abbrev Buf := ℕ → UInt8

/-- The buffer of zero bytes. -/
def zero : Buf := fun _ => 0

/-- `n` bytes of `src` copied to offset `off` of `dst`. -/
def memcpy (dst : Buf) (off : ℕ) (src : Buf) (n : ℕ) : Buf := fun i =>
  if off ≤ i ∧ i < off + n then src (i - off) else dst i

/-- The buffer seen from offset `off` on. -/
def window (b : Buf) (off : ℕ) : Buf := fun i => b (off + i)

variable {dst src a b : Buf} {off n i : ℕ} {name : List UInt8}

@[simp] theorem zero_apply (i : ℕ) : zero i = 0 := rfl

@[simp] theorem window_apply (b : Buf) (off i : ℕ) : window b off i = b (off + i) := rfl

theorem memcpy_of_mem (h : i < n) : memcpy dst off src n (off + i) = src i := by
  rw [memcpy, if_pos ⟨by omega, by omega⟩, Nat.add_sub_cancel_left]

theorem memcpy_of_notMem (h : i < off ∨ off + n ≤ i) : memcpy dst off src n i = dst i := by
  rw [memcpy, if_neg (by omega)]

/-! ## Words -/

/-- Byte `i` of the little-endian representation of `n`. -/
def le32 (n : ℕ) : Buf := fun i => UInt8.ofNat (n / 256 ^ i)

/-- The 32-bit word at the start of a buffer. -/
def getLe32 (b : Buf) : ℕ :=
  (b 0).toNat + 256 * (b 1).toNat + 65536 * (b 2).toNat + 16777216 * (b 3).toNat

theorem getLe32_lt (b : Buf) : getLe32 b < 4294967296 := by
  have h0 := (b 0).toNat_lt
  have h1 := (b 1).toNat_lt
  have h2 := (b 2).toNat_lt
  have h3 := (b 3).toNat_lt
  unfold getLe32
  omega

/-- A word read back is the word written, cut to 32 bits. -/
theorem getLe32_le32 (n : ℕ) : getLe32 (le32 n) = n % 4294967296 := by
  simp only [getLe32, le32, UInt8.toNat_ofNat']
  omega

theorem getLe32_le32_of_lt (h : n < 4294967296) : getLe32 (le32 n) = n := by
  rw [getLe32_le32, Nat.mod_eq_of_lt h]

theorem getLe32_congr (h : ∀ i < 4, a i = b i) : getLe32 a = getLe32 b := by
  simp only [getLe32, h 0 (by omega), h 1 (by omega), h 2 (by omega), h 3 (by omega)]

/-! ## Strings -/

/-- Whether the NUL-terminated string at the start of `b` is `name`. -/
def strEq (b : Buf) : List UInt8 → Bool
  | [] => b 0 == 0
  | c :: cs => b 0 == c && strEq (window b 1) cs

theorem strEq_congr (h : ∀ i ≤ name.length, a i = b i) : strEq a name = strEq b name := by
  induction name generalizing a b with
  | nil => simp [strEq, h 0 (by simp)]
  | cons c cs ih =>
    rw [strEq, strEq, h 0 (by omega), ih]
    intro i hi
    simp only [window_apply]
    exact h (1 + i) (by simp only [List.length_cons]; omega)

theorem strEq_iff :
    strEq b name = true ↔
      (∀ i (h : i < name.length), b i = name[i]) ∧ b name.length = 0 := by
  induction name generalizing b with
  | nil => simp [strEq]
  | cons c cs ih =>
    simp only [strEq, Bool.and_eq_true, beq_iff_eq, ih, window_apply, List.length_cons]
    constructor
    · rintro ⟨h0, hs, he⟩
      refine ⟨?_, by rw [← he, Nat.add_comm]⟩
      rintro (_ | i) hi
      · exact h0
      · have := hs i (by omega)
        rw [Nat.add_comm] at this
        simpa using this
    · rintro ⟨hs, he⟩
      refine ⟨by simpa using hs 0 (by omega), ?_, by rw [← he, Nat.add_comm]⟩
      intro i hi
      have := hs (i + 1) (by omega)
      rw [Nat.add_comm]
      simpa using this

/-- A buffer starts with at most one NUL-terminated string. -/
theorem strEq_unique {s t : List UInt8} (hs : strEq b s = true) (ht : strEq b t = true)
    (hs0 : 0 ∉ s) (ht0 : 0 ∉ t) : s = t := by
  induction s generalizing b t with
  | nil =>
    cases t with
    | nil => rfl
    | cons y t =>
      simp only [strEq, Bool.and_eq_true, beq_iff_eq] at hs ht
      exact absurd (List.mem_cons.2 (Or.inl (hs.symm.trans ht.1))) ht0
  | cons x s ih =>
    rw [List.mem_cons, not_or] at hs0
    cases t with
    | nil =>
      simp only [strEq, Bool.and_eq_true, beq_iff_eq] at hs ht
      exact absurd (ht.symm.trans hs.1) hs0.1
    | cons y t =>
      rw [List.mem_cons, not_or] at ht0
      simp only [strEq, Bool.and_eq_true, beq_iff_eq] at hs ht
      rw [ih hs.2 ht.2 hs0.2 ht0.2, ← hs.1, ht.1]

/-- The string that a list of bytes holds ends before the first NUL. -/
theorem strEq_iff_takeWhile {l : List UInt8} (hlen : name.length < l.length)
    (hb : ∀ i ≤ name.length, b i = l.getD i 0) (hnul : 0 ∉ name) :
    strEq b name = true ↔ l.takeWhile (· ≠ 0) = name := by
  induction name generalizing b l with
  | nil =>
    obtain ⟨x, l, rfl⟩ := List.exists_cons_of_length_pos hlen
    have h0 : b 0 = x := hb 0 (Nat.le_refl _)
    by_cases hx : x = 0 <;> simp [strEq, h0, hx]
  | cons c cs ih =>
    obtain ⟨x, l, rfl⟩ := List.exists_cons_of_length_pos (Nat.zero_lt_of_lt hlen)
    have h0 : b 0 = x := hb 0 (Nat.zero_le _)
    rw [List.mem_cons, not_or] at hnul
    have ih := ih (b := window b 1) (l := l) (by simpa using hlen) (fun i hi => ?_) hnul.2
    · rw [strEq, Bool.and_eq_true, ih, beq_iff_eq, h0]
      by_cases hx : x = 0
      · simp only [hx, ne_eq, not_true_eq_false, decide_false, List.takeWhile_cons_of_neg,
          Bool.false_eq_true, not_false_eq_true]
        exact iff_of_false (fun h => hnul.1 h.1) (by simp)
      · simp [hx]
    · rw [window_apply, hb (1 + i) (by simp only [List.length_cons]; omega), Nat.add_comm,
        List.getD_cons_succ]

end Gardos.Bytes
