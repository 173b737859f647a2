import Mathlib.Tactic

/-!
# Bounded linear search

The loops `while (p(i)) i++` of a kernel have a bound, the end of a table or of a bitmap. A loop
of this kind is `skipWhile p left i`, with `left` the distance to the bound: it stops at the first
index from `i` on at which `p` fails, or at the bound.
-/

namespace Gardos

/-- The first index from `i` on at which `p` fails, at most `left` steps ahead. -/
def skipWhile (p : ℕ → Bool) : (left i : ℕ) → ℕ
  | 0, i => i
  | left + 1, i => if p i then skipWhile p left (i + 1) else i

variable {p : ℕ → Bool} {n i : ℕ}

theorem le_skipWhile : i ≤ skipWhile p n i := by
  induction n generalizing i with
  | zero => exact le_rfl
  | succ n ih =>
    rw [skipWhile]
    split
    · exact (Nat.le_succ i).trans ih
    · exact le_rfl

theorem skipWhile_le : skipWhile p n i ≤ i + n := by
  induction n generalizing i with
  | zero => exact le_rfl
  | succ n ih =>
    rw [skipWhile]
    split
    · have := ih (i := i + 1)
      omega
    · omega

/-- The predicate holds at every index the search passes over. -/
theorem skipWhile_holds {j : ℕ} (hj : i ≤ j) (hj' : j < skipWhile p n i) : p j = true := by
  induction n generalizing i with
  | zero => exact absurd hj' (not_lt.2 hj)
  | succ n ih =>
    rw [skipWhile] at hj'
    split at hj'
    · rename_i hp
      rcases Nat.eq_or_lt_of_le hj with rfl | hlt
      · exact hp
      · exact ih hlt hj'
    · exact absurd hj' (not_lt.2 hj)

/-- The predicate fails where the search stops before its bound. -/
theorem skipWhile_fails (h : skipWhile p n i < i + n) : p (skipWhile p n i) = false := by
  induction n generalizing i with
  | zero => exact absurd h (lt_irrefl _)
  | succ n ih =>
    rw [skipWhile] at h ⊢
    split
    · rename_i hp
      rw [if_pos hp] at h
      exact ih (by omega)
    · rename_i hp
      simpa using hp

/-- The search does not pass over an index at which the predicate fails. -/
theorem skipWhile_le_of_fails {j : ℕ} (hj : i ≤ j) (hp : p j = false) :
    skipWhile p n i ≤ j := by
  by_contra h
  rw [skipWhile_holds hj (not_le.1 h)] at hp
  exact Bool.noConfusion hp

/-- A search that stops before its bound stops at the first failure. -/
theorem skipWhile_eq_of_fails {j : ℕ} (hj : i ≤ j) (hl : j < i + n) (hp : p j = false)
    (hlt : ∀ k, i ≤ k → k < j → p k = true) : skipWhile p n i = j := by
  have hle := skipWhile_le_of_fails (n := n) hj hp
  refine le_antisymm hle (not_lt.1 fun h => ?_)
  have := skipWhile_fails (h.trans hl)
  rw [hlt _ le_skipWhile h] at this
  exact Bool.noConfusion this

end Gardos
