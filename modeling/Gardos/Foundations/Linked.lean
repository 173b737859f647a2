import Mathlib.Data.List.Chain
import Mathlib.Data.List.Nodup
import Mathlib.Logic.Function.Basic

/-!
# Doubly linked lists in memory

Memory is a function from addresses to words of four bytes. A node at the address `a` has the
address of the node before it in the word `a` and the address of the node behind it in the word
`a + 4`. `Chain m l` says that the nodes `l` are linked one after the other in the memory `m`.

Insertion and removal both join the end of one chain to the start of another (`link`), and
`Chain.splice` is the rule for that. A chain depends on its own words only (`Chain.congr`).
-/

namespace Gardos

open Function

/-- Memory, as the words at its addresses. -/
abbrev Words := ℕ → ℕ

namespace Linked

/-- The nodes `a` and `b` point to each other. -/
def Links (m : Words) (a b : ℕ) : Prop := m (a + 4) = b ∧ m b = a

/-- The nodes `l` are linked one after the other. -/
def Chain (m : Words) (l : List ℕ) : Prop := l.IsChain (Links m)

/-- The nodes are different and do not overlap. -/
structure Apart (l : List ℕ) : Prop where
  nodup : l.Nodup
  apart : ∀ a ∈ l, ∀ b ∈ l, a + 4 ≠ b

/-- The node `b` comes behind the node `a`. -/
def link (m : Words) (a b : ℕ) : Words := update (update m (a + 4) b) b a

variable {m m' : Words} {a b x : ℕ} {l l₁ l₂ : List ℕ}

theorem link_of_ne (ha : x ≠ a + 4) (hb : x ≠ b) : link m a b x = m x := by
  rw [link, update_of_ne hb, update_of_ne ha]

theorem links_link (h : a + 4 ≠ b) : Links (link m a b) a b :=
  ⟨by rw [link, update_of_ne h, update_self], update_self ..⟩

/-- **A chain depends on its own words only.** -/
theorem Chain.congr (h : Chain m l) (hnext : ∀ x ∈ l.dropLast, m' (x + 4) = m (x + 4))
    (hprev : ∀ x ∈ l.tail, m' x = m x) : Chain m' l := by
  refine List.isChain_iff_forall_rel_of_append_cons_cons.2 fun a b l₁ l₂ hl => ?_
  obtain ⟨hab, hba⟩ := List.isChain_iff_forall_rel_of_append_cons_cons.1 h hl
  have ha : a ∈ l.dropLast := by
    rw [hl]
    simp
  have hb : b ∈ l.tail := by
    rw [hl]
    cases l₁ <;> simp
  exact ⟨(hnext a ha).trans hab, (hprev b hb).trans hba⟩

theorem Chain.congr_of_mem (h : Chain m l) (hnode : ∀ x ∈ l, m' x = m x ∧ m' (x + 4) = m (x + 4)) :
    Chain m' l :=
  h.congr (fun x hx => (hnode x (List.dropLast_subset _ hx)).2)
    fun x hx => (hnode x (List.mem_of_mem_tail hx)).1

theorem chain_append_cons_cons : Chain m (l ++ a :: b :: l₂) ↔
    Chain m (l ++ [a]) ∧ Links m a b ∧ Chain m (b :: l₂) :=
  List.isChain_append_cons_cons

theorem chain_singleton : Chain m [a] := List.isChain_singleton a

theorem Apart.sublist (h : Apart l) (hsub : List.Sublist l₁ l) : Apart l₁ :=
  ⟨h.nodup.sublist hsub, fun a ha b hb => h.apart a (hsub.subset ha) b (hsub.subset hb)⟩

/-- Another node that does not overlap the others. -/
theorem Apart.insert {e : ℕ} (h : Apart (l₁ ++ l₂)) (hne : e ∉ l₁ ++ l₂)
    (hbefore : ∀ x ∈ l₁ ++ l₂, x + 4 ≠ e) (hbehind : ∀ x ∈ l₁ ++ l₂, e + 4 ≠ x) :
    Apart (l₁ ++ e :: l₂) := by
  have hmem : ∀ x, x ∈ l₁ ++ e :: l₂ → x = e ∨ x ∈ l₁ ++ l₂ := fun x hx => by
    simp only [List.mem_append, List.mem_cons] at hx ⊢
    tauto
  refine ⟨List.nodup_middle.2 (List.nodup_cons.2 ⟨hne, h.nodup⟩), fun a ha b hb => ?_⟩
  rcases hmem a ha with ha | ha
  · rcases hmem b hb with hb | hb
    · rw [ha, hb]
      omega
    · rw [ha]
      exact hbehind b hb
  · rcases hmem b hb with hb | hb
    · rw [hb]
      exact hbefore a ha
    · exact h.apart a ha b hb

/-- **Joining two chains.** -/
theorem Chain.splice (h₁ : Chain m (l₁ ++ [a])) (h₂ : Chain m (b :: l₂))
    (hl : Apart (l₁ ++ a :: b :: l₂)) : Chain (link m a b) (l₁ ++ a :: b :: l₂) := by
  obtain ⟨-, htail, hcross⟩ := List.nodup_append.1 hl.nodup
  obtain ⟨hab, hb⟩ := List.nodup_cons.1 htail
  have hb := (List.nodup_cons.1 hb).1
  have ha : a ∈ l₁ ++ a :: b :: l₂ := by simp
  have hbm : b ∈ l₁ ++ a :: b :: l₂ := by simp
  refine chain_append_cons_cons.2 ⟨h₁.congr (fun x hx => ?_) fun x hx => ?_,
    links_link (hl.apart a ha b hbm), h₂.congr (fun x hx => ?_) fun x hx => ?_⟩
  · rw [List.dropLast_concat] at hx
    have hxm : x ∈ l₁ ++ a :: b :: l₂ := List.mem_append_left _ hx
    exact link_of_ne (fun heq => hcross x hx a List.mem_cons_self (Nat.add_right_cancel heq))
      (hl.apart x hxm b hbm)
  · have hx := List.mem_of_mem_tail hx
    have hxm : x ∈ l₁ ++ a :: b :: l₂ := by
      rcases List.mem_append.1 hx with hx | hx
      · exact List.mem_append_left _ hx
      · exact List.mem_singleton.1 hx ▸ ha
    refine link_of_ne (fun heq => hl.apart a ha x hxm heq.symm) fun heq => ?_
    rcases List.mem_append.1 hx with hx | hx
    · exact hcross x hx b (by simp) heq
    · exact hab (by rw [← List.mem_singleton.1 hx, heq]; exact List.mem_cons_self)
  · have hx := List.dropLast_subset _ hx
    have hxm : x ∈ l₁ ++ a :: b :: l₂ := List.mem_append_right _ (List.mem_cons_of_mem _ hx)
    exact link_of_ne (fun heq => hab (Nat.add_right_cancel heq ▸ hx)) (hl.apart x hxm b hbm)
  · change x ∈ l₂ at hx
    have hxm : x ∈ l₁ ++ a :: b :: l₂ := by simp [hx]
    exact link_of_ne (fun heq => hl.apart a ha x hxm heq.symm) fun heq => hb (heq ▸ hx)

end Linked

end Gardos
