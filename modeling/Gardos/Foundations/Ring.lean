import Mathlib.Data.List.Basic
import Mathlib.Logic.Function.Basic

/-!
# Ring buffers

A ring of `n` cells with two cursors: values go in at `head` and come out at `tail`. One cell
always stays empty, so that equal cursors mean an empty ring. `Ring.content` is the list of
the values from `tail` to `head`. A put appends to it (`content_put`), a get takes its first
value (`content_get`).
-/

namespace Gardos.Ring

open Function

variable {α : Type*} {n head tail : ℕ}

/-- The cell behind `i`. -/
def next (n i : ℕ) : ℕ := (i + 1) % n

/-- The number of cells from `tail` to `head`. -/
def length (n head tail : ℕ) : ℕ := if tail ≤ head then head - tail else n - (tail - head)

/-- The values from `tail` to `head`. -/
def content (n : ℕ) (buf : ℕ → α) (head tail : ℕ) : List α :=
  (List.range (length n head tail)).map fun k => buf ((tail + k) % n)

theorem next_lt (h : head < n) : next n head < n := Nat.mod_lt _ (by omega)

theorem next_eq (h : head < n) : next n head = if head + 1 = n then 0 else head + 1 := by
  unfold next
  split
  · next heq => rw [heq, Nat.mod_self]
  · exact Nat.mod_eq_of_lt (by omega)

/-- A cell of the ring, counted from `tail`. -/
theorem cell_eq {k : ℕ} (ht : tail < n) (hk : k < n) :
    (tail + k) % n = if tail + k < n then tail + k else tail + k - n := by
  split
  · next hlt => exact Nat.mod_eq_of_lt hlt
  · next hge =>
    rw [Nat.mod_eq_sub_mod (by omega)]
    exact Nat.mod_eq_of_lt (by omega)

@[simp] theorem length_content (buf : ℕ → α) :
    (content n buf head tail).length = length n head tail := by
  unfold content
  rw [List.length_map, List.length_range]

theorem length_lt (hh : head < n) : length n head tail < n := by
  unfold length
  split <;> omega

theorem content_self (buf : ℕ → α) : content n buf head head = [] := by
  unfold content length
  rw [if_pos (Nat.le_refl _), Nat.sub_self]
  rfl

/-- A put into a ring that is not full. -/
theorem content_put (buf : ℕ → α) (b : α) (hh : head < n) (ht : tail < n)
    (hfull : next n head ≠ tail) :
    content n (update buf head b) (next n head) tail =
      content n buf head tail ++ [b] := by
  have hlt : length n head tail < n := length_lt hh
  have hlen : length n (next n head) tail = length n head tail + 1 := by
    rw [next_eq hh] at hfull ⊢
    unfold length
    split_ifs at hfull ⊢ <;> omega
  unfold content
  rw [hlen, List.range_succ, List.map_append, List.map_singleton]
  congr 1
  · refine List.map_congr_left fun k hk => update_of_ne ?_ _ _
    rw [List.mem_range] at hk
    rw [cell_eq ht (by omega)]
    unfold length at hk hlt
    split_ifs at hk hlt ⊢ <;> omega
  · have hhead : (tail + length n head tail) % n = head := by
      rw [cell_eq ht hlt]
      unfold length at hlt ⊢
      split_ifs at hlt ⊢ <;> omega
    rw [hhead, update_self]

/-- A get from a ring that is not empty. -/
theorem content_get (buf : ℕ → α) (hh : head < n) (ht : tail < n) (hempty : head ≠ tail) :
    content n buf head tail = buf tail :: content n buf head (next n tail) := by
  have hlen : length n head tail = length n head (next n tail) + 1 := by
    rw [next_eq ht]
    unfold length
    split_ifs <;> omega
  unfold content
  rw [hlen, List.range_succ_eq_map, List.map_cons, List.map_map, Nat.add_zero,
    Nat.mod_eq_of_lt ht]
  congr 1
  refine List.map_congr_left fun k _ => congrArg buf ?_
  change (tail + (k + 1)) % n = ((tail + 1) % n + k) % n
  rw [Nat.mod_add_mod, show tail + (k + 1) = tail + 1 + k by omega]

end Gardos.Ring
