import Mathlib.Tactic
import Mathlib.Data.List.Perm.Basic

/-!
# Lists indexed by an initial segment

A table of `n` cells that each hold a list is read as the concatenation of its cells. Putting an
element into one cell puts it into the whole, up to order (`perm_cons_flatMap_range`). When the
cells all have the same length, position `i` of the whole is position `i % m` of cell `i / m`
(`flatMap_range_map`). A list with distinct keys is a finite map (`find?_key_cons`).
-/

namespace Gardos

variable {α : Type*}

theorem flatMap_range_congr {f g : ℕ → List α} {n : ℕ} (h : ∀ i < n, f i = g i) :
    (List.range n).flatMap f = (List.range n).flatMap g :=
  List.flatMap_congr fun i hi => h i (List.mem_range.1 hi)

theorem findSome?_congr {β : Type*} {l : List β} {f g : β → Option α} (h : ∀ x ∈ l, f x = g x) :
    l.findSome? f = l.findSome? g := by
  induction l with
  | nil => rfl
  | cons x l ih =>
    rw [List.findSome?_cons, List.findSome?_cons, h x List.mem_cons_self,
      ih fun y hy => h y (List.mem_cons_of_mem x hy)]

/-- One more element in cell `k` is one more element in the table. -/
theorem perm_cons_flatMap_range {f g : ℕ → List α} {n k : ℕ} {x : α} (hk : k < n)
    (hne : ∀ i < n, i ≠ k → g i = f i) (hx : (g k).Perm (x :: f k)) :
    ((List.range n).flatMap g).Perm (x :: (List.range n).flatMap f) := by
  induction n with
  | zero => omega
  | succ n ih =>
    simp only [List.range_succ, List.flatMap_append, List.flatMap_cons, List.flatMap_nil,
      List.append_nil]
    by_cases hkn : k = n
    · subst hkn
      rw [flatMap_range_congr fun i hi => hne i (by omega) (by omega)]
      exact (hx.append_left _).trans List.perm_middle
    · rw [hne n (by omega) (Ne.symm hkn)]
      exact (ih (by omega) fun i hi => hne i (by omega)).append_right _

/-- A segment of an initial segment. -/
theorem take_drop_range {n a m : ℕ} (h : a + m ≤ n) :
    ((List.range n).drop a).take m = (List.range m).map (a + ·) := by
  obtain ⟨r, rfl⟩ := Nat.exists_eq_add_of_le h
  rw [List.range_add, List.range_add, List.append_assoc, List.drop_left' List.length_range,
    List.take_left' (by simp)]

/-- `n` cells of `m` elements each, numbered through. -/
theorem flatMap_range_map (f : ℕ → ℕ → α) {m : ℕ} (hm : 0 < m) (n : ℕ) :
    (List.range n).flatMap (fun k => (List.range m).map (f k)) =
      (List.range (m * n)).map fun i => f (i / m) (i % m) := by
  induction n with
  | zero => simp
  | succ n ih =>
    rw [List.range_succ, List.flatMap_append, ih, Nat.mul_succ, List.range_add, List.map_append,
      List.map_map, List.flatMap_singleton]
    congr 1
    refine List.map_congr_left fun i hi => ?_
    have hi := List.mem_range.1 hi
    simp only [Function.comp_apply]
    rw [Nat.mul_add_div hm, Nat.div_eq_of_lt hi, Nat.mul_add_mod, Nat.mod_eq_of_lt hi, add_zero]

/-- A list taken apart at `m`, which is `n` or the end of the list. -/
theorem take_append_take_drop {l : List α} {m n k : ℕ} (h : m = n ∨ l.length = m ∧ m ≤ n) :
    l.take m ++ (l.drop m).take k = l.take (n + k) := by
  rcases h with rfl | ⟨hm, hle⟩
  · rw [List.take_add]
  · rw [← hm, List.take_length, List.drop_length, List.take_nil, List.append_nil,
      List.take_of_length_le (by omega)]

/-- A filter that lets exactly one index through. -/
theorem filter_range_eq_singleton {p : ℕ → Bool} {n j : ℕ} (hj : j < n)
    (h : ∀ i < n, p i = true ↔ i = j) : (List.range n).filter p = [j] := by
  refine List.perm_singleton.1 ((List.perm_ext_iff_of_nodup (List.nodup_range.filter _)
    (List.nodup_singleton j)).2 fun i => ?_)
  rw [List.mem_filter, List.mem_range, List.mem_singleton]
  exact ⟨fun hi => (h i hi.1).1 hi.2, fun hi => ⟨hi ▸ hj, (h i (hi ▸ hj)).2 hi⟩⟩

theorem length_flatMap_range_le {β : Type*} {f : ℕ → List β} {n k : ℕ}
    (h : ∀ i < n, (f i).length ≤ k) : ((List.range n).flatMap f).length ≤ n * k := by
  rw [List.length_flatMap]
  refine (List.sum_le_card_nsmul _ k fun x hx => ?_).trans (by simp)
  obtain ⟨i, hi, rfl⟩ := List.mem_map.1 hx
  exact h i (List.mem_range.1 hi)

theorem length_flatMap_range_eq {β : Type*} {f : ℕ → List β} {n k : ℕ}
    (h : ∀ i < n, (f i).length = k) : ((List.range n).flatMap f).length = n * k := by
  rw [List.length_flatMap, List.map_congr_left fun i hi => h i (List.mem_range.1 hi)]
  simp

/-! ## Lists with distinct keys -/

section Keys

variable {β : Type*} [DecidableEq β] {key : α → β} {l l' : List α} {c : β}

/-- Among distinct keys there is one element to find. -/
theorem find?_key_eq_some_iff (hnd : (l.map key).Nodup) {x : α} :
    l.find? (fun y => key y = c) = some x ↔ x ∈ l ∧ key x = c := by
  constructor
  · intro h
    exact ⟨List.mem_of_find?_eq_some h, by simpa using List.find?_some h⟩
  · rintro ⟨hx, hc⟩
    obtain ⟨y, hy⟩ := Option.isSome_iff_exists.1
      (List.find?_isSome (p := fun y => decide (key y = c)).2 ⟨x, hx, decide_eq_true hc⟩)
    have hyc : key y = c := by simpa using List.find?_some hy
    rw [hy, List.inj_on_of_nodup_map hnd (List.mem_of_find?_eq_some hy) hx (hyc.trans hc.symm)]

theorem find?_key_perm (hp : l.Perm l') (hnd : (l.map key).Nodup) :
    l.find? (fun y => key y = c) = l'.find? (fun y => key y = c) := by
  refine Option.ext fun x => ?_
  rw [find?_key_eq_some_iff hnd, find?_key_eq_some_iff ((hp.map key).nodup_iff.1 hnd), hp.mem_iff]

/-- One more element is one more value of the map. -/
theorem find?_key_cons (x : α) : (fun c => (x :: l).find? (fun y => key y = c)) =
    Function.update (fun c => l.find? (fun y => key y = c)) (key x) (some x) := by
  funext c
  by_cases hc : c = key x
  · subst hc
    simp
  · rw [Function.update_of_ne hc, List.find?_cons_of_neg]
    simpa using Ne.symm hc

end Keys

/-- Cells of a list without repetitions are disjoint. -/
theorem eq_of_mem_flatMap_range {f : ℕ → List α} {n i j : ℕ} {x : α}
    (hnd : ((List.range n).flatMap f).Nodup) (hi : i < n) (hj : j < n) (hxi : x ∈ f i)
    (hxj : x ∈ f j) : i = j := by
  have hdis := List.pairwise_iff_getElem.1 (List.nodup_flatMap.1 hnd).2
  by_contra hne
  rcases Nat.lt_or_gt_of_ne hne with h | h
  · have := hdis i j (by simpa using hi) (by simpa using hj) h
    simp only [List.getElem_range, Function.onFun] at this
    exact this hxi hxj
  · have := hdis j i (by simpa using hj) (by simpa using hi) h
    simp only [List.getElem_range, Function.onFun] at this
    exact this hxj hxi

end Gardos
