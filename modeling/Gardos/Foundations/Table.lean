import Mathlib.Algebra.BigOperators.Group.Finset.Basic
import Mathlib.Algebra.BigOperators.Group.Finset.Sigma
import Mathlib.Algebra.BigOperators.Group.Finset.Piecewise
import Mathlib.Data.Finset.Prod

/-!
# Tables and holders

A table has a row for every user and a column for every handle, such as the descriptor tables of
the processes. `uses rows cols f a` counts the entries with the value `a` in the rows of the users
that are alive. The count follows an assignment to one entry (`uses_set`), a row that is copied for
a new user (`uses_insert`) and a row that goes (`uses_erase`).

Resources are handed out to holders, at most one to each: a partial map from holders to resources.
It is exclusive when no resource has two holders. A resource that nobody holds can be given away
(`Exclusive.give`).
-/

namespace Gardos

open Function

section Uses

variable {ι κ α : Type*} [DecidableEq α] {rows : Finset ι} {cols : Finset κ}
  {f g : ι → κ → α} {i : ι} {k : κ} {a b : α}

omit [DecidableEq α] in
/-- One entry is replaced, and no other. -/
theorem table_set_self [DecidableEq ι] [DecidableEq κ] :
    update f i (update (f i) k b) i k = b := by
  rw [update_self, update_self]

omit [DecidableEq α] in
theorem table_set_of_ne [DecidableEq ι] [DecidableEq κ] {j : ι} {m : κ} (h : (j, m) ≠ (i, k)) :
    update f i (update (f i) k b) j m = f j m := by
  by_cases hj : j = i
  · have hm : m ≠ k := fun hm => h (by rw [hj, hm])
    rw [hj, update_self, update_of_ne hm]
  · rw [update_of_ne hj]

/-- The number of entries with value `a`. -/
def uses (rows : Finset ι) (cols : Finset κ) (f : ι → κ → α) (a : α) : ℕ :=
  ((rows ×ˢ cols).filter fun p => f p.1 p.2 = a).card

/-- The number of entries with value `a` in one row. -/
def rowUses (cols : Finset κ) (f : κ → α) (a : α) : ℕ := (cols.filter fun k => f k = a).card

/-- The columns as a list without repetitions. -/
theorem rowUses_toFinset [DecidableEq κ] {l : List κ} (hl : l.Nodup) (h : κ → α) (a : α) :
    rowUses l.toFinset h a = l.countP fun k => h k = a := by
  have hfilter : (l.toFinset.filter fun k => h k = a) = (l.filter fun k => h k = a).toFinset := by
    ext k
    simp
  unfold rowUses
  rw [hfilter, List.toFinset_card_of_nodup (hl.filter _), List.countP_eq_length_filter]

theorem uses_congr (h : ∀ i ∈ rows, ∀ k ∈ cols, f i k = g i k) (a : α) :
    uses rows cols f a = uses rows cols g a := by
  unfold uses
  congr 1
  refine Finset.filter_congr fun p hp => ?_
  obtain ⟨hi, hk⟩ := Finset.mem_product.1 hp
  rw [h p.1 hi p.2 hk]

theorem uses_pos : 0 < uses rows cols f a ↔ ∃ i ∈ rows, ∃ k ∈ cols, f i k = a := by
  unfold uses
  rw [Finset.card_pos]
  constructor
  · rintro ⟨p, hp⟩
    obtain ⟨hp, ha⟩ := Finset.mem_filter.1 hp
    obtain ⟨hi, hk⟩ := Finset.mem_product.1 hp
    exact ⟨p.1, hi, p.2, hk, ha⟩
  · rintro ⟨i, hi, k, hk, ha⟩
    exact ⟨(i, k), Finset.mem_filter.2 ⟨Finset.mem_product.2 ⟨hi, hk⟩, ha⟩⟩

/-- The rows are counted one by one. -/
theorem uses_eq_sum (rows : Finset ι) (cols : Finset κ) (f : ι → κ → α) (a : α) :
    uses rows cols f a = ∑ i ∈ rows, rowUses cols (f i) a := by
  unfold uses rowUses
  rw [Finset.card_filter, Finset.sum_product]
  exact Finset.sum_congr rfl fun i _ => (Finset.card_filter ..).symm

/-- A new user gets a row. -/
theorem uses_insert [DecidableEq ι] (hi : i ∉ rows) : uses (insert i rows) cols f a =
    uses rows cols f a + rowUses cols (f i) a := by
  rw [uses_eq_sum, uses_eq_sum, Finset.sum_insert hi, Nat.add_comm]

/-- A user goes with its row. -/
theorem uses_erase [DecidableEq ι] (hi : i ∈ rows) :
    uses (rows.erase i) cols f a + rowUses cols (f i) a = uses rows cols f a := by
  rw [uses_eq_sum, uses_eq_sum, Finset.sum_erase_add _ _ hi]

/-- The entries in a row, where the one in column `k` is replaced. -/
theorem rowUses_set [DecidableEq κ] {h : κ → α} (hk : k ∈ cols) :
    rowUses cols (update h k b) a + (if h k = a then 1 else 0) =
      rowUses cols h a + if b = a then 1 else 0 := by
  unfold rowUses
  rw [Finset.card_filter, Finset.card_filter, ← Finset.sum_erase_add _ _ hk,
    ← Finset.sum_erase_add cols _ hk, update_self, Nat.add_right_comm]
  congr 2
  refine Finset.sum_congr rfl fun j hj => ?_
  rw [update_of_ne (Finset.ne_of_mem_erase hj)]

/-- One entry is replaced. -/
theorem uses_set [DecidableEq ι] [DecidableEq κ] (hi : i ∈ rows) (hk : k ∈ cols) :
    uses rows cols (update f i (update (f i) k b)) a +
      (if f i k = a then 1 else 0) = uses rows cols f a + if b = a then 1 else 0 := by
  have hrest : uses (rows.erase i) cols (update f i (update (f i) k b)) a =
      uses (rows.erase i) cols f a := uses_congr (fun j hj m _ => by
    rw [update_of_ne (Finset.ne_of_mem_erase hj)]) a
  rw [← uses_erase hi, ← uses_erase hi, hrest, update_self, Nat.add_assoc,
    rowUses_set hk, Nat.add_assoc]

end Uses

/-! ## Exclusive holders -/

section Holders

variable {α β : Type*} {own own' : α → Option β} {a : α} {f : β}

/-- No resource has two holders. -/
def Exclusive (own : α → Option β) : Prop :=
  ∀ ⦃a b f⦄, own a = some f → own b = some f → a = b

/-- Nobody holds the resource. -/
def Unheld (own : α → Option β) (f : β) : Prop := ∀ a, own a ≠ some f

variable [DecidableEq α]

theorem eq_or_eq_of_update {o : Option β} {b : α} {g : β}
    (h : update own a o b = some g) : b = a ∧ o = some g ∨ b ≠ a ∧ own b = some g := by
  by_cases hb : b = a
  · rw [hb, update_self] at h
    exact .inl ⟨hb, h⟩
  · rw [update_of_ne hb] at h
    exact .inr ⟨hb, h⟩

theorem Exclusive.give (h : Exclusive own) (hf : Unheld own f) (a : α) :
    Exclusive (update own a (some f)) := by
  intro b c g hb hc
  rcases eq_or_eq_of_update hb with ⟨rfl, hg⟩ | ⟨-, hb'⟩
  · rcases eq_or_eq_of_update hc with ⟨rfl, -⟩ | ⟨-, hc'⟩
    · rfl
    · exact absurd (hc'.trans hg.symm) (hf c)
  · rcases eq_or_eq_of_update hc with ⟨rfl, hg⟩ | ⟨-, hc'⟩
    · exact absurd (hb'.trans hg.symm) (hf b)
    · exact h hb' hc'

theorem Unheld.give (h : Unheld own f) {g : β} (hg : g ≠ f) (a : α) :
    Unheld (update own a (some g)) f := by
  intro b hb
  rcases eq_or_eq_of_update hb with ⟨-, he⟩ | ⟨-, hb⟩
  · exact hg (Option.some.inj he)
  · exact h b hb

end Holders

end Gardos
