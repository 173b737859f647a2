import Mathlib.Data.List.TakeWhile
import Gardos.Foundations.Bytes
import Gardos.Foundations.Outcome

/-!
# Strings in memory

A string ends with a NUL. A loop that moves a pointer over its bytes (`scan`) stops at the first
byte outside of a set, at the latest at the NUL (`HoldsString.scan_eq`).
-/

namespace Gardos.Bytes

open Outcome

/-- The pointer `next`, moved on as long as the byte there is in `p`. -/
def scan (p : UInt8 → Bool) (bytes : Buf) : (fuel next : ℕ) → Outcome ℕ
  | 0, _ => throw .hang
  | fuel + 1, next => if p (bytes next) then scan p bytes fuel (next + 1) else return next

/-- The string `s` stands at `a`, with its terminating NUL. -/
def HoldsString (b : Buf) : (a : ℕ) → List UInt8 → Prop
  | a, [] => b a = 0
  | a, c :: s => b a = c ∧ c ≠ 0 ∧ HoldsString b (a + 1) s

instance decidableHoldsString (b : Buf) : ∀ a s, Decidable (HoldsString b a s)
  | a, [] => inferInstanceAs (Decidable (b a = 0))
  | a, c :: s => @instDecidableAnd (b a = c) (c ≠ 0 ∧ HoldsString b (a + 1) s) _
      (@instDecidableAnd (c ≠ 0) (HoldsString b (a + 1) s) _ (decidableHoldsString b (a + 1) s))

variable {b b' : Buf} {a : ℕ} {s : List UInt8} {p : UInt8 → Bool}

theorem HoldsString.apply_eq_zero_iff (h : HoldsString b a s) : b a = 0 ↔ s = [] := by
  cases s with
  | nil => exact iff_of_true h rfl
  | cons c s => exact iff_of_false (h.1 ▸ h.2.1) (List.cons_ne_nil c s)

theorem HoldsString.apply_length (h : HoldsString b a s) : b (a + s.length) = 0 := by
  induction s generalizing a with
  | nil => exact h
  | cons c s ih =>
    have := ih h.2.2
    rwa [Nat.add_right_comm, Nat.add_assoc] at this

theorem HoldsString.ne_zero (h : HoldsString b a s) : ∀ c ∈ s, c ≠ 0 := by
  induction s generalizing a with
  | nil => exact fun _ hc => absurd hc List.not_mem_nil
  | cons c s ih =>
    intro d hd
    rcases List.mem_cons.1 hd with rfl | hd
    · exact h.2.1
    · exact ih h.2.2 d hd

/-- A prefix of a string is a string once a NUL stands behind it. -/
theorem HoldsString.takeWhile (h : HoldsString b a s)
    (hb : ∀ i < (s.takeWhile p).length, b' (a + i) = b (a + i))
    (hz : b' (a + (s.takeWhile p).length) = 0) : HoldsString b' a (s.takeWhile p) := by
  induction s generalizing a with
  | nil => exact hz
  | cons c s ih =>
    by_cases hc : p c = true
    · rw [List.takeWhile_cons_of_pos hc] at hb hz ⊢
      refine ⟨(hb 0 (Nat.succ_pos _)).trans h.1, h.2.1, ih h.2.2 (fun i hi => ?_) ?_⟩
      · have := hb (i + 1) (Nat.succ_lt_succ hi)
        rwa [← Nat.add_assoc, Nat.add_right_comm] at this
      · rwa [List.length_cons, ← Nat.add_assoc, Nat.add_right_comm] at hz
    · rw [List.takeWhile_cons_of_neg hc] at hz ⊢
      exact hz

/-- A string is still there when its bytes are, and its end is still zero. -/
theorem HoldsString.congr (h : HoldsString b a s) (hb : ∀ i < s.length, b' (a + i) = b (a + i))
    (hz : b' (a + s.length) = 0) : HoldsString b' a s := by
  have hall : s.takeWhile (fun _ => true) = s := List.takeWhile_eq_self_iff.2 fun _ _ => rfl
  rw [← hall] at hb hz ⊢
  exact h.takeWhile hb hz

/-- A loop over the bytes of a string stops at the first byte outside of `p`, at the latest at the
NUL. -/
theorem HoldsString.scan_eq (h : HoldsString b a s) (h0 : p 0 = false) {fuel : ℕ}
    (hfuel : s.length < fuel) : scan p b fuel a = .ok (a + (s.takeWhile p).length) ∧
      HoldsString b (a + (s.takeWhile p).length) (s.dropWhile p) := by
  induction s generalizing a fuel with
  | nil =>
    obtain ⟨fuel, rfl⟩ := Nat.exists_eq_succ_of_ne_zero (Nat.ne_zero_of_lt hfuel)
    refine ⟨?_, h⟩
    rw [scan, if_neg (by rw [show b a = 0 from h, h0]; exact Bool.false_ne_true)]
    rfl
  | cons c s ih =>
    obtain ⟨fuel, rfl⟩ := Nat.exists_eq_succ_of_ne_zero (Nat.ne_zero_of_lt hfuel)
    rw [scan]
    by_cases hc : p c = true
    · rw [List.takeWhile_cons_of_pos hc, List.dropWhile_cons_of_pos hc, h.1, if_pos hc,
        List.length_cons, ← Nat.add_assoc, Nat.add_right_comm]
      exact ih h.2.2 (Nat.lt_of_succ_lt_succ hfuel)
    · rw [List.takeWhile_cons_of_neg hc, List.dropWhile_cons_of_neg hc, h.1, if_neg hc]
      exact ⟨rfl, h⟩

end Gardos.Bytes
