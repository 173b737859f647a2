import Gardos.Foundations.Linked
import Gardos.Foundations.Outcome
import Mathlib.Data.Finset.Card
import Mathlib.Data.Finset.Range

/-!
# Lists (`lib/kernel/list.c`)

A `struct list_elem` is two pointers, `prev` and `next`. A `struct list` is two such elements,
`head` at offset 0 and `tail` at offset 8; they are always there, and the elements of the list are
linked between them. The functions here work on the words of memory, as the source does.

`IsList m l xs` says that the list at the address `l` has the elements `xs`. The lemmas
`IsList.listInsertBefore`, `IsList.listRemove` and so on say what the functions do with it, and
those on `_of_ne` what they leave alone. `listHeap_calls` puts them together for a heap with any
number of lists.
-/

namespace Gardos

open Outcome Linked Function

/-! ## The functions -/

/-- `list_init`. -/
def listInit (m : Words) (list : ℕ) : Words :=
  update (update (update (update m list 0)
    (list + 4) (list + 8)) (list + 8) list) (list + 12) 0

/-- `list_insert_before`. -/
def listInsertBefore (m : Words) (before elem : ℕ) : Words :=
  let m := update m (m before + 4) elem
  let m := update m elem (m before)
  let m := update m (elem + 4) before
  update m before elem

/-- `list_push`. -/
def listPush (m : Words) (plist elem : ℕ) : Words := listInsertBefore m (m (plist + 4)) elem

/-- `list_append`. -/
def listAppend (m : Words) (plist elem : ℕ) : Words := listInsertBefore m (plist + 8) elem

/-- `list_remove`. -/
def listRemove (m : Words) (pelem : ℕ) : Words :=
  let m := update m (m pelem + 4) (m (pelem + 4))
  update m (m (pelem + 4)) (m pelem)

/-- `list_pop`. -/
def listPop (m : Words) (plist : ℕ) : ℕ × Words :=
  let elem := m (plist + 4)
  (elem, listRemove m elem)

/-- `list_empty`. -/
def listEmpty (m : Words) (plist : ℕ) : Bool := m (plist + 4) = plist + 8

/-- The loop of `elem_find`. -/
def elemFindLoop (m : Words) (tail objElem : ℕ) : (left elem : ℕ) → Outcome Bool
  | 0, _ => throw .hang
  | left + 1, elem =>
    if elem = tail then pure false
    else if elem = objElem then pure true
    else elemFindLoop m tail objElem left (m (elem + 4))

/-- `elem_find`. A walk with more steps than there are addresses never ends. -/
def elemFind (m : Words) (plist objElem : ℕ) : Outcome Bool :=
  elemFindLoop m (plist + 8) objElem 4294967297 (m (plist + 4))

/-- The loop of `list_traversal`. -/
def listTraversalLoop (m : Words) (tail : ℕ) (func : ℕ → ℤ → Bool) (arg : ℤ) :
    (left elem : ℕ) → Outcome (Option ℕ)
  | 0, _ => throw .hang
  | left + 1, elem =>
    if elem = tail then pure none
    else if func elem arg then pure (some elem)
    else listTraversalLoop m tail func arg left (m (elem + 4))

/-- `list_traversal`. -/
def listTraversal (m : Words) (plist : ℕ) (func : ℕ → ℤ → Bool) (arg : ℤ) : Outcome (Option ℕ) :=
  let elem := m (plist + 4)
  if listEmpty m plist then pure none
  else listTraversalLoop m (plist + 8) func arg 4294967297 elem

/-- The loop of `list_len`. -/
def listLenLoop (m : Words) (tail : ℕ) : (left length elem : ℕ) → Outcome ℕ
  | 0, _, _ => throw .hang
  | left + 1, length, elem =>
    if elem = tail then pure length else listLenLoop m tail left (length + 1) (m (elem + 4))

/-- `list_len`. -/
def listLen (m : Words) (plist : ℕ) : Outcome ℕ :=
  listLenLoop m (plist + 8) 4294967297 0 (m (plist + 4))

/-! ## What they do -/

/-- The nodes of a list, with its two ends. -/
def listNodes (l : ℕ) (xs : List ℕ) : List ℕ := l :: xs ++ [l + 8]

/-- The list at the address `l` has the elements `xs`. -/
structure IsList (m : Words) (l : ℕ) (xs : List ℕ) : Prop where
  chain : Chain m (listNodes l xs)
  apart : Apart (listNodes l xs)
  lt : ∀ x ∈ xs, x < 4294967296

variable {m m' : Words} {l e x b : ℕ} {xs ys k : List ℕ}

theorem mem_listNodes : x ∈ listNodes l xs ↔ x = l ∨ x ∈ xs ∨ x = l + 8 := by
  simp [listNodes]

theorem IsList.congr (h : IsList m l xs)
    (hnode : ∀ x ∈ listNodes l xs, m' x = m x ∧ m' (x + 4) = m (x + 4)) : IsList m' l xs :=
  ⟨h.chain.congr_of_mem hnode, h.apart, h.lt⟩

theorem IsList.nodup (h : IsList m l xs) : xs.Nodup :=
  h.apart.nodup.sublist ((List.sublist_append_left xs _).cons l)

theorem IsList.tail_notMem (h : IsList m l xs) : l + 8 ∉ xs := fun hmem =>
  (List.nodup_append.1 h.apart.nodup).2.2 (l + 8) (List.mem_cons_of_mem _ hmem) (l + 8)
    List.mem_cons_self rfl

/-- The node behind the head. -/
theorem IsList.next (h : IsList m l xs) (hb : xs ++ [l + 8] = b :: k) : m (l + 4) = b := by
  have hchain := h.chain
  rw [listNodes, List.cons_append, hb] at hchain
  exact (chain_append_cons_cons (l := []).1 hchain).2.1.1

/-- The last node before the tail. -/
theorem exists_last_node (l : ℕ) (xs : List ℕ) :
    ∃ ys z, l :: xs = ys ++ [z] ∧ listNodes l xs = ys ++ z :: [l + 8] := by
  obtain ⟨ys, z, hys⟩ : ∃ ys z, l :: xs = ys ++ [z] :=
    ⟨(l :: xs).dropLast, (l :: xs).getLast (List.cons_ne_nil _ _),
      (List.dropLast_append_getLast _).symm⟩
  refine ⟨ys, z, hys, ?_⟩
  rw [listNodes, hys, List.append_assoc]
  rfl

theorem listInsertBefore_of_ne (h1 : x ≠ m l + 4) (h2 : x ≠ e) (h3 : x ≠ e + 4) (h4 : x ≠ l) :
    listInsertBefore m l e x = m x := by
  unfold listInsertBefore
  rw [update_of_ne h4, update_of_ne h3, update_of_ne h2,
    update_of_ne h1]

theorem listRemove_of_ne (h1 : x ≠ m e + 4) (h2 : x ≠ m (e + 4)) (hself : m e ≠ e) :
    listRemove m e x = m x := by
  have hnext : e + 4 ≠ m e + 4 := fun h => hself (Nat.add_right_cancel h).symm
  unfold listRemove
  rw [update_of_ne hnext, update_of_ne h2, update_of_ne h1]

/-- The nodes around an element. -/
theorem exists_nodes_around (l : ℕ) (xs : List ℕ) (e : ℕ) (ys : List ℕ) :
    ∃ k₁ a b k₂, listNodes l (xs ++ e :: ys) = k₁ ++ a :: e :: b :: k₂ ∧
      listNodes l (xs ++ ys) = k₁ ++ a :: b :: k₂ ∧ ys ++ [l + 8] = b :: k₂ := by
  obtain ⟨b, k₂, hk₂⟩ : ∃ b k₂, ys ++ [l + 8] = b :: k₂ := List.exists_cons_of_ne_nil (by simp)
  obtain ⟨k₁, a, hk₁, -⟩ := exists_last_node l xs
  refine ⟨k₁, a, b, k₂, ?_, ?_, hk₂⟩
  · calc listNodes l (xs ++ e :: ys) = (l :: xs) ++ e :: (ys ++ [l + 8]) := by simp [listNodes]
      _ = k₁ ++ a :: e :: b :: k₂ := by rw [hk₂, hk₁]; simp
  · calc listNodes l (xs ++ ys) = (l :: xs) ++ (ys ++ [l + 8]) := by simp [listNodes]
      _ = k₁ ++ a :: b :: k₂ := by rw [hk₂, hk₁]; simp

/-- **`list_insert_before`** puts the element before another one, or before the tail. -/
theorem IsList.listInsertBefore (xs : List ℕ) (h : IsList m l (xs ++ ys))
    (hb : ys ++ [l + 8] = b :: k) (he : e < 4294967296)
    (hgap : ∀ x ∈ listNodes l (xs ++ ys), x + 8 ≤ e ∨ e + 8 ≤ x) :
    IsList (listInsertBefore m b e) l (xs ++ e :: ys) := by
  obtain ⟨k₁, a, b', k₂, hnodes', hnodes, hb'⟩ := exists_nodes_around l xs e ys
  obtain ⟨rfl, rfl⟩ := List.cons.inj (hb'.symm.trans hb)
  have hold := hnodes ▸ h.apart
  rw [hnodes] at hgap
  have hapart : Apart (k₁ ++ a :: e :: b' :: k₂) := by
    rw [List.append_cons] at hold hgap ⊢
    refine hold.insert (fun hmem => ?_) (fun x hx => ?_) fun x hx => ?_
    · have := hgap e hmem
      omega
    all_goals
      have := hgap x hx
      omega
  obtain ⟨hinit, ⟨-, hprev⟩, hend⟩ := chain_append_cons_cons.1 (hnodes ▸ h.chain)
  have heq : Gardos.listInsertBefore m b' e = link (link m a e) e b' := by
    have hne : b' ≠ a + 4 := (hold.apart a (by simp) b' (by simp)).symm
    unfold Gardos.listInsertBefore link
    dsimp only
    rw [hprev, update_of_ne hne, hprev]
  obtain ⟨-, hnd, -⟩ := List.nodup_append.1 hapart.nodup
  simp only [List.nodup_cons, List.mem_cons, not_or] at hnd
  have hend' : Chain (link m a e) (b' :: k₂) := hend.congr_of_mem fun x hx => by
    have hxm : x ∈ k₁ ++ a :: e :: b' :: k₂ := by simp [List.mem_cons.1 hx]
    have hxa : x ≠ a := fun hxa => by rcases List.mem_cons.1 hx with rfl | hx <;> simp_all
    have hxe : x ≠ e := fun hxe => by rcases List.mem_cons.1 hx with rfl | hx <;> simp_all
    have hae := hapart.apart a (by simp) x hxm
    have hxe' := hapart.apart x hxm e (by simp)
    exact ⟨link_of_ne hae.symm hxe, link_of_ne (by omega) hxe'⟩
  have hfirst : Chain (link m a e) (k₁ ++ a :: [e]) :=
    hinit.splice chain_singleton (hapart.sublist (by simp))
  refine ⟨?_, hnodes' ▸ hapart, fun x hx => ?_⟩
  · rw [List.append_cons] at hfirst hapart
    rw [heq, hnodes', List.append_cons]
    exact hfirst.splice hend' hapart
  · rcases List.mem_append.1 hx with hx | hx
    · exact h.lt x (by simp [hx])
    · rcases List.mem_cons.1 hx with rfl | hx
      · exact he
      · exact h.lt x (by simp [hx])

/-- **`list_append`** puts the element at the end. -/
theorem IsList.listAppend (h : IsList m l xs) (he : e < 4294967296)
    (hgap : ∀ x ∈ listNodes l xs, x + 8 ≤ e ∨ e + 8 ≤ x) :
    IsList (listAppend m l e) l (xs ++ [e]) :=
  IsList.listInsertBefore xs ((List.append_nil xs).symm ▸ h) rfl he
    ((List.append_nil xs).symm ▸ hgap)

/-- **`list_remove`** takes the element out. -/
theorem IsList.listRemove (xs : List ℕ) (h : IsList m l (xs ++ e :: ys)) :
    IsList (listRemove m e) l (xs ++ ys) := by
  obtain ⟨k₁, a, b, k₂, hnodes, hnodes', -⟩ := exists_nodes_around l xs e ys
  have hchain := hnodes ▸ h.chain
  have hapart := hnodes ▸ h.apart
  obtain ⟨hinit, ⟨-, hprev⟩, hrest⟩ := chain_append_cons_cons.1 hchain
  obtain ⟨-, ⟨hnext, -⟩, hend⟩ := chain_append_cons_cons (l := []).1 hrest
  have hae : a ≠ e := by
    have := (List.nodup_append.1 hapart.nodup).2.1
    simp only [List.nodup_cons, List.mem_cons, not_or] at this
    exact this.1.1
  have heq : Gardos.listRemove m e = link m a b := by
    have hne : e ≠ a + 4 := (hapart.apart a (by simp) e (by simp)).symm
    have hne' : e + 4 ≠ a + 4 := fun heq => hae (Nat.add_right_cancel heq).symm
    unfold Gardos.listRemove link
    dsimp only
    rw [hprev, hnext, update_of_ne hne', update_of_ne hne, hnext, hprev]
  refine ⟨?_, ?_, fun x hx => h.lt x ?_⟩
  · rw [heq, hnodes']
    exact hinit.splice hend (hapart.sublist (by simp))
  · rw [hnodes']
    exact hapart.sublist (by simp)
  · rcases List.mem_append.1 hx with hx | hx <;> simp [hx]

/-- `list_remove` writes to the two nodes around the element. -/
theorem IsList.listRemove_of_ne (xs : List ℕ) (h : IsList m l (xs ++ e :: ys))
    (hx : ∀ y ∈ listNodes l (xs ++ ys), x ≠ y ∧ x ≠ y + 4) :
    Gardos.listRemove m e x = m x := by
  obtain ⟨k₁, a, b, k₂, hnodes, hnodes', -⟩ := exists_nodes_around l xs e ys
  obtain ⟨-, ⟨-, hprev⟩, hrest⟩ := chain_append_cons_cons.1 (hnodes ▸ h.chain)
  obtain ⟨-, ⟨hnext, -⟩, -⟩ := chain_append_cons_cons (l := []).1 hrest
  have ha := hx a (by rw [hnodes']; simp)
  have hb := hx b (by rw [hnodes']; simp)
  refine Gardos.listRemove_of_ne (by rw [hprev]; exact ha.2) (by rw [hnext]; exact hb.1) ?_
  rw [hprev]
  have := (List.nodup_append.1 (hnodes ▸ h.apart.nodup)).2.1
  simp only [List.nodup_cons, List.mem_cons, not_or] at this
  exact this.1.1

/-- `list_insert_before` writes to the two nodes around the element, and to the element. -/
theorem IsList.listInsertBefore_of_ne (xs : List ℕ) (h : IsList m l (xs ++ ys))
    (hb : ys ++ [l + 8] = b :: k) (he : x ≠ e) (he' : x ≠ e + 4)
    (hx : ∀ y ∈ listNodes l (xs ++ ys), x ≠ y ∧ x ≠ y + 4) :
    Gardos.listInsertBefore m b e x = m x := by
  obtain ⟨k₁, a, b', k₂, -, hnodes, hb'⟩ := exists_nodes_around l xs e ys
  obtain ⟨rfl, rfl⟩ := List.cons.inj (hb'.symm.trans hb)
  obtain ⟨-, ⟨-, hprev⟩, -⟩ := chain_append_cons_cons.1 (hnodes ▸ h.chain)
  rw [hnodes] at hx
  refine Gardos.listInsertBefore_of_ne ?_ he he' (hx b' (by simp)).1
  rw [hprev]
  exact (hx a (by simp)).2

theorem IsList.listAppend_of_ne (h : IsList m l xs) (he : x ≠ e) (he' : x ≠ e + 4)
    (hx : ∀ y ∈ listNodes l xs, x ≠ y ∧ x ≠ y + 4) : Gardos.listAppend m l e x = m x :=
  IsList.listInsertBefore_of_ne xs ((List.append_nil xs).symm ▸ h) rfl he he'
    ((List.append_nil xs).symm ▸ hx)

/-- **`list_empty`.** -/
theorem IsList.listEmpty (h : IsList m l xs) : listEmpty m l = true ↔ xs = [] := by
  unfold Gardos.listEmpty
  rw [decide_eq_true_eq]
  cases xs with
  | nil => exact iff_of_true (h.next rfl) rfl
  | cons x xs =>
    refine iff_of_false (fun hempty => h.tail_notMem ?_) (List.cons_ne_nil _ _)
    rw [← hempty, h.next rfl]
    exact List.mem_cons_self

/-- **`list_pop`** takes the first element. -/
theorem IsList.listPop (h : IsList m l (e :: xs)) : listPop m l = (e, Gardos.listRemove m e) := by
  unfold Gardos.listPop
  rw [h.next rfl]

/-- There are not more elements than addresses. -/
theorem IsList.length_lt (h : IsList m l xs) : xs.length < 4294967297 := by
  have hsub : xs.toFinset ⊆ Finset.range 4294967296 := fun y hy =>
    Finset.mem_range.2 (h.lt y (List.mem_toFinset.1 hy))
  have hcard := Finset.card_le_card hsub
  rw [List.toFinset_card_of_nodup h.nodup, Finset.card_range] at hcard
  omega

section Walk

variable {t n : ℕ} {func : ℕ → ℤ → Bool} {arg : ℤ}

theorem listTraversalLoop_of_chain (htail : t ∉ xs) (hlen : xs.length < n)
    (hchain : Chain m (e :: xs ++ [t])) : listTraversalLoop m t func arg n (m (e + 4)) =
      .ok (xs.find? fun x => func x arg) := by
  induction xs generalizing e n with
  | nil =>
    obtain ⟨-, ⟨hnext, -⟩, -⟩ := chain_append_cons_cons (l := []).1 hchain
    obtain ⟨n, rfl⟩ : ∃ k, n = k + 1 := ⟨n - 1, by simp at hlen; omega⟩
    rw [hnext, listTraversalLoop, if_pos rfl]
    rfl
  | cons y xs ih =>
    obtain ⟨-, ⟨hnext, -⟩, hrest⟩ := chain_append_cons_cons (l := []).1 hchain
    rw [List.mem_cons, not_or] at htail
    obtain ⟨n, rfl⟩ : ∃ k, n = k + 1 := ⟨n - 1, by simp at hlen; omega⟩
    rw [hnext, listTraversalLoop, if_neg (Ne.symm htail.1)]
    cases hy : func y arg with
    | true =>
      simp only [List.find?_cons, hy]
      rfl
    | false =>
      simp only [List.find?_cons, hy]
      exact ih htail.2 (by simpa using hlen) hrest

theorem listLenLoop_of_chain {i : ℕ} (htail : t ∉ xs) (hlen : xs.length < n)
    (hchain : Chain m (e :: xs ++ [t])) :
    listLenLoop m t n i (m (e + 4)) = .ok (i + xs.length) := by
  induction xs generalizing e n i with
  | nil =>
    obtain ⟨-, ⟨hnext, -⟩, -⟩ := chain_append_cons_cons (l := []).1 hchain
    obtain ⟨n, rfl⟩ : ∃ k, n = k + 1 := ⟨n - 1, by simp at hlen; omega⟩
    rw [hnext, listLenLoop, if_pos rfl]
    rfl
  | cons y xs ih =>
    obtain ⟨-, ⟨hnext, -⟩, hrest⟩ := chain_append_cons_cons (l := []).1 hchain
    rw [List.mem_cons, not_or] at htail
    obtain ⟨n, rfl⟩ : ∃ k, n = k + 1 := ⟨n - 1, by simp at hlen; omega⟩
    rw [hnext, listLenLoop, if_neg (Ne.symm htail.1), ih htail.2 (by simpa using hlen) hrest,
      List.length_cons, Nat.add_right_comm]
    rfl

/-- `elem_find` is a traversal. -/
theorem elemFindLoop_eq : elemFindLoop m t x n e =
    Option.isSome <$> listTraversalLoop m t (fun y _ => y = x) 0 n e := by
  induction n generalizing e with
  | zero => rfl
  | succ n ih =>
    rw [elemFindLoop, listTraversalLoop]
    by_cases ht : e = t
    · rw [if_pos ht, if_pos ht]
      rfl
    by_cases hx : e = x
    · rw [if_neg ht, if_neg ht, if_pos hx, if_pos (decide_eq_true hx)]
      rfl
    · rw [if_neg ht, if_neg ht, if_neg hx, if_neg (by simpa using hx), ih]

/-- **`elem_find`** returns, and finds the elements of the list. -/
theorem IsList.elemFind (h : IsList m l xs) : elemFind m l x = .ok (decide (x ∈ xs)) := by
  unfold Gardos.elemFind
  rw [elemFindLoop_eq, listTraversalLoop_of_chain h.tail_notMem h.length_lt h.chain]
  refine congrArg Except.ok ?_
  rw [Bool.eq_iff_iff, List.find?_isSome]
  simp

/-- **`list_traversal`** returns the first element that the callback accepts. -/
theorem IsList.listTraversal (h : IsList m l xs) :
    listTraversal m l func arg = .ok (xs.find? fun x => func x arg) := by
  unfold Gardos.listTraversal
  dsimp only
  split
  · next hempty =>
    rw [h.listEmpty.1 hempty]
    rfl
  · exact listTraversalLoop_of_chain h.tail_notMem h.length_lt h.chain

/-- **`list_len`** returns the length. -/
theorem IsList.listLen (h : IsList m l xs) : listLen m l = .ok xs.length :=
  (listLenLoop_of_chain h.tail_notMem h.length_lt h.chain).trans (by rw [Nat.zero_add])

end Walk

theorem isList_listInit (m : Words) (l : ℕ) : IsList (listInit m l) l [] := by
  have h1 : listInit m l (l + 4) = l + 8 := by
    unfold listInit
    rw [update_of_ne (by omega), update_of_ne (by omega), update_self]
  have h2 : listInit m l (l + 8) = l := by
    unfold listInit
    rw [update_of_ne (by omega), update_self]
  refine ⟨chain_append_cons_cons (l := []).2 ⟨chain_singleton, ⟨h1, h2⟩, chain_singleton⟩,
    ⟨by simp [listNodes], fun a ha b hb => ?_⟩, fun x hx => absurd hx List.not_mem_nil⟩
  simp only [listNodes, List.nil_append, List.cons_append, List.mem_cons, List.not_mem_nil,
    or_false] at ha hb
  omega

/-! ## Heaps with many lists -/

/-- A heap of `struct list_elem` nodes. They do not overlap. -/
structure NodeHeap (nodes : Set ℕ) : Prop where
  lt : ∀ x ∈ nodes, x < 4294967296
  apart : ∀ x ∈ nodes, ∀ y ∈ nodes, x = y ∨ x + 8 ≤ y ∨ y + 8 ≤ x

/-- From the head of the list at `l` one comes to its tail through the nodes `xs`, all different,
and `prev` is the inverse of `next`. -/
structure WellFormed (nodes : Set ℕ) (m : Words) (l : ℕ) (xs : List ℕ) : Prop where
  chain : Chain m (listNodes l xs)
  nodup : (listNodes l xs).Nodup
  mem : ∀ x ∈ listNodes l xs, x ∈ nodes

/-- The node `x` is on the list at `l`. -/
def OnList (lists : ℕ → Option (List ℕ)) (x l : ℕ) : Prop :=
  ∃ xs, lists l = some xs ∧ x ∈ listNodes l xs

/-- A heap with the lists `lists`, by their addresses. No two of them have a node in common. -/
structure ListHeap (nodes : Set ℕ) (m : Words) (lists : ℕ → Option (List ℕ)) : Prop
    extends NodeHeap nodes where
  wellFormed : ∀ l xs, lists l = some xs → WellFormed nodes m l xs
  disjoint : ∀ x l l', OnList lists x l → OnList lists x l' → l = l'

variable {nodes : Set ℕ} {lists : ℕ → Option (List ℕ)}

theorem NodeHeap.isList (h : NodeHeap nodes) (hw : WellFormed nodes m l xs) : IsList m l xs := by
  refine ⟨hw.chain, ⟨hw.nodup, fun a ha b hb => ?_⟩, fun x hx => ?_⟩
  · have := h.apart a (hw.mem a ha) b (hw.mem b hb)
    omega
  · exact h.lt x (hw.mem x (mem_listNodes.2 (.inr (.inl hx))))

theorem NodeHeap.ne (h : NodeHeap nodes) (hx : x ∈ nodes) {y : ℕ} (hy : y ∈ nodes) (hne : x ≠ y) :
    (x ≠ y + 4 ∧ x + 4 ≠ y) ∧ x + 4 ≠ y + 4 := by
  have := h.apart x hx y hy
  omega

theorem of_update_eq_some {l' : ℕ} {zs : List ℕ} (h : update lists l (some ys) l' = some zs) :
    l' = l ∧ zs = ys ∨ l' ≠ l ∧ lists l' = some zs := by
  by_cases hl : l' = l
  · rw [hl, update_self] at h
    exact .inl ⟨hl, (Option.some.inj h).symm⟩
  · rw [update_of_ne hl] at h
    exact .inr ⟨hl, h⟩

/-- One list changes: its nodes are some of its old ones and some that were on no list, and memory
changes in them only. -/
theorem ListHeap.setList (h : ListHeap nodes m lists) (hl : lists l = some xs)
    (hnew : IsList m' l ys)
    (hmem : ∀ x ∈ listNodes l ys, x ∈ listNodes l xs ∨ x ∈ nodes ∧ ∀ l', ¬ OnList lists x l')
    (hframe : ∀ x ∈ nodes, x ∉ listNodes l xs → x ∉ listNodes l ys →
      m' x = m x ∧ m' (x + 4) = m (x + 4)) :
    ListHeap nodes m' (update lists l (some ys)) := by
  -- a node of the new list is on no other list
  have hown : ∀ x ∈ listNodes l ys, ∀ l', OnList lists x l' → l' = l := fun x hx l' hon =>
    (hmem x hx).elim (fun hx' => h.disjoint x l' l hon ⟨xs, hl, hx'⟩) fun hx' =>
      absurd hon (hx'.2 l')
  have hon : ∀ {x l'}, OnList (update lists l (some ys)) x l' →
      l' = l ∧ x ∈ listNodes l ys ∨ OnList lists x l' := by
    rintro x l' ⟨zs, hzs, hx⟩
    rcases of_update_eq_some hzs with ⟨rfl, rfl⟩ | ⟨-, hzs⟩
    · exact .inl ⟨rfl, hx⟩
    · exact .inr ⟨zs, hzs, hx⟩
  refine ⟨h.toNodeHeap, fun l' zs hzs => ?_, fun x l₁ l₂ h₁ h₂ => ?_⟩
  · rcases of_update_eq_some hzs with ⟨rfl, rfl⟩ | ⟨hll, hzs⟩
    · refine ⟨hnew.chain, hnew.apart.nodup, fun x hx => ?_⟩
      exact (hmem x hx).elim ((h.wellFormed l' xs hl).mem x) fun hx' => hx'.1
    · have hw := h.wellFormed l' zs hzs
      refine ⟨hw.chain.congr_of_mem fun x hx => ?_, hw.nodup, hw.mem⟩
      exact hframe x (hw.mem x hx) (fun hx' => hll (h.disjoint x l' l ⟨zs, hzs, hx⟩ ⟨xs, hl, hx'⟩))
        fun hx' => hll (hown x hx' l' ⟨zs, hzs, hx⟩)
  · rcases hon h₁ with ⟨h₁, hx₁⟩ | h₁' <;> rcases hon h₂ with ⟨h₂, hx₂⟩ | h₂'
    · rw [h₁, h₂]
    · rw [h₁, hown x hx₁ l₂ h₂']
    · rw [h₂, hown x hx₂ l₁ h₁']
    · exact h.disjoint x l₁ l₂ h₁' h₂'

theorem ListHeap.listInsertBefore (h : ListHeap nodes m lists) (xs : List ℕ)
    (hl : lists l = some (xs ++ ys)) (hb : ys ++ [l + 8] = b :: k) (he : e ∈ nodes)
    (hoff : ∀ l, ¬ OnList lists e l) :
    ListHeap nodes (listInsertBefore m b e) (update lists l (some (xs ++ e :: ys))) := by
  have hw := h.wellFormed l _ hl
  have hlist := h.isList hw
  have hmem : ∀ x, x ∈ listNodes l (xs ++ e :: ys) ↔
      x = e ∨ x ∈ listNodes l (xs ++ ys) := fun x => by
    simp only [mem_listNodes, List.mem_append, List.mem_cons]
    tauto
  refine h.setList hl (hlist.listInsertBefore xs hb (h.lt e he) fun x hx => ?_) (fun x hx => ?_)
    fun x hx hx₁ hx₂ => ?_
  · have := h.apart x (hw.mem x hx) e he
    have hne : x ≠ e := fun hxe => hoff l ⟨_, hl, hxe ▸ hx⟩
    omega
  · exact ((hmem x).1 hx).symm.imp_right fun hxe => by rw [hxe]; exact ⟨he, hoff⟩
  · have hxe : x ≠ e := fun hxe => hx₂ ((hmem x).2 (.inl hxe))
    have hxy : ∀ y ∈ listNodes l (xs ++ ys), x ≠ y := fun y hy hxy => hx₁ (hxy ▸ hy)
    have hne := h.ne hx he hxe
    have hne' := fun y hy => h.ne hx (hw.mem y hy) (hxy y hy)
    exact ⟨hlist.listInsertBefore_of_ne xs hb hxe hne.1.1 fun y hy => ⟨hxy y hy, (hne' y hy).1.1⟩,
      hlist.listInsertBefore_of_ne xs hb hne.1.2 hne.2 fun y hy => ⟨(hne' y hy).1.2, (hne' y hy).2⟩⟩

theorem ListHeap.listRemove (h : ListHeap nodes m lists) (xs : List ℕ)
    (hl : lists l = some (xs ++ e :: ys)) :
    ListHeap nodes (listRemove m e) (update lists l (some (xs ++ ys))) := by
  have hw := h.wellFormed l _ hl
  have hlist := h.isList hw
  have hsub : ∀ x ∈ listNodes l (xs ++ ys), x ∈ listNodes l (xs ++ e :: ys) := fun x => by
    simp only [mem_listNodes, List.mem_append, List.mem_cons]
    tauto
  refine h.setList hl (hlist.listRemove xs) (fun x hx => .inl (hsub x hx)) fun x hx hx₁ _ => ?_
  have hxy : ∀ y ∈ listNodes l (xs ++ ys), x ≠ y := fun y hy hxy => hx₁ (hsub x (hxy ▸ hy))
  have hne := fun y hy => h.ne hx (hw.mem y (hsub y hy)) (hxy y hy)
  exact ⟨hlist.listRemove_of_ne xs fun y hy => ⟨hxy y hy, (hne y hy).1.1⟩,
    hlist.listRemove_of_ne xs fun y hy => ⟨(hne y hy).1.2, (hne y hy).2⟩⟩

/-- **Lists represent sequences.** In a heap with any number of lists that have no node in common,
each function makes of the list at `l` the sequence that it should, and leaves the others alone;
the functions that only look at a list return what the sequence tells. -/
theorem listHeap_calls (h : ListHeap nodes m lists) (hl : lists l = some xs) :
    (∀ e ∈ nodes, (∀ l, ¬ OnList lists e l) →
      ListHeap nodes (listPush m l e) (update lists l (some (e :: xs))) ∧
      ListHeap nodes (listAppend m l e) (update lists l (some (xs ++ [e]))) ∧
      ∀ ys b zs, xs = ys ++ b :: zs → ListHeap nodes (listInsertBefore m b e)
        (update lists l (some (ys ++ e :: b :: zs)))) ∧
    (∀ ys e zs, xs = ys ++ e :: zs →
      ListHeap nodes (listRemove m e) (update lists l (some (ys ++ zs)))) ∧
    (∀ e ys, xs = e :: ys → (listPop m l).1 = e ∧
      ListHeap nodes (listPop m l).2 (update lists l (some ys))) ∧
    (∀ x, elemFind m l x = .ok (decide (x ∈ xs))) ∧ listLen m l = .ok xs.length ∧
    (listEmpty m l = true ↔ xs = []) ∧
    ∀ func arg, listTraversal m l func arg = .ok (xs.find? fun x => func x arg) := by
  have hlist := h.isList (h.wellFormed l xs hl)
  refine ⟨fun e he hoff => ⟨?_, ?_, fun ys b zs hxs => ?_⟩, fun ys e zs hxs => ?_,
    fun e ys hxs => ?_, fun x => hlist.elemFind, hlist.listLen, hlist.listEmpty,
    fun func arg => hlist.listTraversal⟩
  · obtain ⟨b, k, hb⟩ : ∃ b k, xs ++ [l + 8] = b :: k := List.exists_cons_of_ne_nil (by simp)
    rw [listPush, hlist.next hb]
    exact h.listInsertBefore [] hl hb he hoff
  · exact h.listInsertBefore xs (hl.trans (by rw [List.append_nil])) rfl he hoff
  · exact h.listInsertBefore ys (hl.trans (by rw [hxs])) rfl he hoff
  · exact h.listRemove ys (hl.trans (by rw [hxs]))
  · subst hxs
    rw [hlist.listPop]
    exact ⟨rfl, h.listRemove [] hl⟩

/-- A heap without lists. -/
def noLists : ℕ → Option (List ℕ) := fun _ => none

/-- A list at the address 0: two nodes are put on it, and one is taken off. -/
theorem listHeap_calls_two :
    let m := listAppend (listPush (listInit (fun _ => 0) 0) 0 16) 0 24
    listLen m 0 = .ok 2 ∧ (listPop m 0).1 = 16 ∧
      ListHeap {0, 8, 16, 24} (listPop m 0).2 (update noLists 0 (some [24])) := by
  have hsome : ∀ {ys l xs}, update noLists 0 (some ys) l = some xs → l = 0 ∧ xs = ys := fun hxs =>
    (of_update_eq_some hxs).resolve_right fun h => absurd h.2 (Option.some_ne_none _).symm
  have hoff : ∀ {ys e}, e ∉ listNodes 0 ys → ∀ l, ¬ OnList (update noLists 0 (some ys)) e l := by
    rintro ys e he l ⟨xs, hxs, hx⟩
    obtain ⟨rfl, rfl⟩ := hsome hxs
    exact he hx
  have hlist := isList_listInit (fun _ => 0) 0
  have h : ListHeap {0, 8, 16, 24} (listInit (fun _ => 0) 0) (update noLists 0 (some [])) := by
    refine ⟨⟨by simp, by simp⟩, fun l xs hxs => ?_, ?_⟩
    · obtain ⟨rfl, rfl⟩ := hsome hxs
      exact ⟨hlist.chain, hlist.apart.nodup, by simp [listNodes]⟩
    · rintro x l l' ⟨xs, hxs, -⟩ ⟨xs', hxs', -⟩
      rw [(hsome hxs).1, (hsome hxs').1]
  have h₁ := ((listHeap_calls h (update_self ..)).1 16 (by simp) (hoff (by simp [listNodes]))).1
  rw [update_idem] at h₁
  have h₂ := ((listHeap_calls h₁ (update_self ..)).1 24 (by simp) (hoff (by simp [listNodes]))).2.1
  rw [update_idem] at h₂
  obtain ⟨-, -, hpop, -, hlen, -⟩ := listHeap_calls h₂ (update_self ..)
  obtain ⟨hfst, hheap⟩ := hpop 16 [24] rfl
  rw [update_idem] at hheap
  exact ⟨hlen, hfst, hheap⟩

end Gardos
