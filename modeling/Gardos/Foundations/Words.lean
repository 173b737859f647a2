import Mathlib.Tactic

/-!
# Words of a text

A text is cut into words by separators, any number of them between two words, before the first and
after the last. `spans` has the words with the positions where they start. It follows the text from
left to right: a word starts at an element that is no separator and does not continue a word. The
words are the non-empty pieces between separators (`map_snd_spans`).
-/

namespace Gardos

variable {α : Type*} (sep : α → Bool)

/-- The words that start in a text, with their positions from `off` on; `inside` says that a word
goes on from before the text. -/
def spansFrom : (inside : Bool) → (off : ℕ) → List α → List (ℕ × List α)
  | _, _, [] => []
  | inside, off, x :: l =>
    if sep x then spansFrom false (off + 1) l
    else if inside then spansFrom true (off + 1) l
    else (off, x :: l.takeWhile (!sep ·)) :: spansFrom true (off + 1) l

/-- The words of a text, with their positions from `off` on. -/
def spans (off : ℕ) (l : List α) : List (ℕ × List α) := spansFrom sep false off l

variable {off : ℕ} {x : α} {l : List α}

@[simp] theorem spans_nil (off : ℕ) : spans sep off [] = [] := rfl

theorem spans_cons_sep (hx : sep x = true) : spans sep off (x :: l) = spans sep (off + 1) l := by
  rw [spans, spansFrom, if_pos hx, spans]

/-- A word that goes on is passed over. -/
theorem spansFrom_true (off : ℕ) (l : List α) : spansFrom sep true off l =
    spans sep (off + (l.takeWhile (!sep ·)).length) (l.dropWhile (!sep ·)) := by
  induction l generalizing off with
  | nil => rfl
  | cons x l ih =>
    by_cases hx : sep x = true
    · rw [List.takeWhile_cons_of_neg (by simpa using hx),
        List.dropWhile_cons_of_neg (by simpa using hx), spansFrom, if_pos hx, spans, spansFrom,
        if_pos hx]
      rfl
    · rw [List.takeWhile_cons_of_pos (by simpa using hx),
        List.dropWhile_cons_of_pos (by simpa using hx), spansFrom, if_neg hx, if_pos rfl, ih,
        List.length_cons, Nat.add_right_comm, Nat.add_assoc]

/-- The first word of a text that starts with one. -/
theorem spans_cons_word (hx : sep x = false) : spans sep off (x :: l) =
    (off, (x :: l).takeWhile (!sep ·)) ::
      spans sep (off + ((x :: l).takeWhile (!sep ·)).length) ((x :: l).dropWhile (!sep ·)) := by
  have hneg : ¬ sep x = true := by simp [hx]
  rw [List.takeWhile_cons_of_pos (by simpa using hx),
    List.dropWhile_cons_of_pos (by simpa using hx),
    spans, spansFrom, if_neg hneg, if_neg Bool.false_ne_true, spansFrom_true, List.length_cons,
    Nat.add_right_comm, Nat.add_assoc]

/-- Separators at the beginning are passed over. -/
theorem spans_dropWhile (l : List α) : ∀ off : ℕ, spans sep off l =
    spans sep (off + (l.takeWhile sep).length) (l.dropWhile sep) := by
  induction l with
  | nil => exact fun _ => rfl
  | cons x l ih =>
    intro off
    by_cases hx : sep x = true
    · rw [spans_cons_sep sep hx, ih, List.takeWhile_cons_of_pos hx, List.dropWhile_cons_of_pos hx,
        List.length_cons, Nat.add_right_comm, Nat.add_assoc]
    · rw [List.takeWhile_cons_of_neg hx, List.dropWhile_cons_of_neg hx]
      rfl

theorem le_fst_of_mem_spansFrom (l : List α) : ∀ (inside : Bool) (off : ℕ) {w : ℕ × List α},
    w ∈ spansFrom sep inside off l → off ≤ w.1 := by
  induction l with
  | nil => exact fun _ _ _ hw => absurd hw List.not_mem_nil
  | cons x l ih =>
    intro inside off w hw
    rw [spansFrom] at hw
    split at hw
    · exact (Nat.le_succ off).trans (ih _ _ hw)
    split at hw
    · exact (Nat.le_succ off).trans (ih _ _ hw)
    rcases List.mem_cons.1 hw with rfl | hw
    · exact le_rfl
    · exact (Nat.le_succ off).trans (ih _ _ hw)

/-- The first piece ends at the first separator. -/
theorem splitOnP_eq_takeWhile_cons (l : List α) :
    l.splitOnP sep = l.takeWhile (!sep ·) :: (l.splitOnP sep).tail := by
  induction l with
  | nil => rfl
  | cons x l ih =>
    by_cases hx : sep x = true
    · simp [List.splitOnP_cons_eq_if_modifyHead, hx]
    · rw [List.splitOnP_cons_eq_if_modifyHead, if_neg hx, ih]
      simp [hx]

theorem map_snd_spansFrom (l : List α) : ∀ (inside : Bool) (off : ℕ),
    (spansFrom sep inside off l).map Prod.snd =
      ((if inside then (l.splitOnP sep).tail else l.splitOnP sep).filter (!List.isEmpty ·)) := by
  induction l with
  | nil => intro inside off; cases inside <;> rfl
  | cons x l ih =>
    intro inside off
    by_cases hx : sep x = true
    · rw [spansFrom, if_pos hx, ih]
      cases inside <;> simp [List.splitOnP_cons_eq_if_modifyHead, hx]
    · cases inside with
      | true =>
        rw [spansFrom, if_neg hx, if_pos rfl, ih]
        simp [List.splitOnP_cons_eq_if_modifyHead, hx]
      | false =>
        rw [spansFrom, if_neg hx, if_neg Bool.false_ne_true, List.map_cons, ih, if_pos rfl,
          if_neg Bool.false_ne_true, List.splitOnP_cons_eq_if_modifyHead, if_neg hx,
          splitOnP_eq_takeWhile_cons sep l]
        rfl

theorem le_fst_of_mem_spans {w : ℕ × List α} (hw : w ∈ spans sep off l) : off ≤ w.1 :=
  le_fst_of_mem_spansFrom sep l false off hw

/-- **The words are the non-empty pieces** between the separators. -/
theorem map_snd_spans (off : ℕ) (l : List α) :
    (spans sep off l).map Prod.snd = (l.splitOnP sep).filter (!List.isEmpty ·) :=
  map_snd_spansFrom sep l false off

end Gardos
