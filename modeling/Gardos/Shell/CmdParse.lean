import Mathlib.Data.List.TakeWhile
import Gardos.Foundations.Strings
import Gardos.Foundations.Words

/-!
# Command lines (`shell/shell.c`)

`cmd_parse` cuts a command line into words in place: it stores a pointer to each word in `argv` and
writes a NUL behind it. The vector has 16 entries. `cmdParse_words` says that up to 16 words come
out as they stand in the line. The test for too many words comes after the store, and a vector with
16 words has no `NULL` at its end: `vectorSafe_iff` says that 15 words are safe, and no more.
-/

namespace Gardos.Shell

open Bytes Outcome Function

/-! ## The source -/

/-- `MAX_ARG_NR`. -/
def maxArgNr : ℕ := 16

/-- The memory that `cmd_parse` works on: the bytes, the words from `argv` on, where `0` is `NULL`,
and the indices of `argv` that have been stored to. -/
structure ArgMem where
  bytes : Buf
  argv : ℕ → ℕ
  stores : List ℕ

/-- `argv[i] = p`. -/
def ArgMem.setArg (x : ArgMem) (i p : ℕ) : ArgMem :=
  { x with argv := update x.argv i p, stores := x.stores ++ [i] }

/-- `*p = 0`. -/
def ArgMem.cut (x : ArgMem) (p : ℕ) : ArgMem := { x with bytes := update x.bytes p 0 }

/-- `if (*next) *next++ = 0`: the separator behind a word is cut, the end of the text is not. -/
def ArgMem.endWord (x : ArgMem) (next : ℕ) : ArgMem × ℕ :=
  if x.bytes next ≠ 0 then (x.cut next, next + 1) else (x, next)

/-- The loop of `cmd_parse` over the words. -/
def cmdParseLoop (token : UInt8) : (fuel : ℕ) → ArgMem → (next argc : ℕ) → Outcome (ℤ × ArgMem)
  | 0, _, _, _ => throw .hang
  | fuel + 1, x, next, argc => do
    if x.bytes next = 0 then
      return (argc, x)
    let next ← scan (· = token) x.bytes (fuel + 1) next
    if x.bytes next = 0 then
      return (argc, x)
    let x := x.setArg argc next
    let next ← scan (fun b => b ≠ 0 ∧ b ≠ token) x.bytes (fuel + 1) next
    let (x, next) := x.endWord next
    -- too late: `argv[argc]` has been written
    if maxArgNr < argc then
      return (-1, x)
    cmdParseLoop token fuel x next (argc + 1)

/-- The first `n` entries of the vector, set to `NULL`. -/
def ArgMem.clearArgs (x : ArgMem) (n : ℕ) : ArgMem :=
  (List.range n).foldl (fun x argIdx => x.setArg argIdx 0) x

/-- `cmd_parse`. -/
def cmdParse (fuel : ℕ) (x : ArgMem) (cmdStr : ℕ) (token : UInt8) : Outcome (ℤ × ArgMem) := do
  assert (cmdStr ≠ 0)
  cmdParseLoop token fuel (x.clearArgs maxArgNr) cmdStr 0

/-- The loop of `sys_execv` that counts the arguments. To read behind the vector is a fault. -/
def execvArgc (argv : ℕ → ℕ) : (fuel argc : ℕ) → Outcome ℕ
  | 0, _ => throw .hang
  | fuel + 1, argc => do
    access (argc < maxArgNr)
    if argv argc ≠ 0 then execvArgc argv fuel (argc + 1) else return argc

/-! ## One word after the other -/

/-- What `cmd_parse` has done, from `next` and `argc` on, with the words `ws`: it has stored their
addresses and cut them, and has changed nothing else. -/
structure Parsed (x : ArgMem) (next argc : ℕ) (ws : List (ℕ × List UInt8)) (x' : ArgMem) :
    Prop where
  stores : x'.stores = x.stores ++ List.range' argc ws.length
  args : ∀ i (h : i < ws.length), x'.argv (argc + i) = (ws.get ⟨i, h⟩).1
  others : ∀ j, j < argc ∨ argc + ws.length ≤ j → x'.argv j = x.argv j
  strings : ∀ w ∈ ws, HoldsString x'.bytes w.1 w.2
  before : ∀ a < next, x'.bytes a = x.bytes a
  zeros : ∀ a, x.bytes a = 0 → x'.bytes a = 0

section Loop

variable {x x₁ x' : ArgMem} {next next' argc a : ℕ} {w s : List UInt8} {ws : List (ℕ × List UInt8)}
  {token : UInt8}

theorem Parsed.nil (x : ArgMem) (next argc : ℕ) : Parsed x next argc [] x where
  stores := (List.append_nil _).symm
  args _ h := absurd h (Nat.not_lt_zero _)
  others _ _ := rfl
  strings _ h := absurd h List.not_mem_nil
  before _ _ := rfl
  zeros _ h := h

/-- One more word in front: it has been stored and cut, with its bytes before `next'`. -/
theorem Parsed.cons (hargv : x₁.argv = update x.argv argc a)
    (hstores : x₁.stores = x.stores ++ [argc]) (hword : HoldsString x₁.bytes a w)
    (hend : a + w.length ≤ next') (hle : next ≤ next')
    (hbefore : ∀ b < next, x₁.bytes b = x.bytes b)
    (hzeros : ∀ b, x.bytes b = 0 → x₁.bytes b = 0) (hlast : x₁.bytes (a + w.length) = 0)
    (h : Parsed x₁ next' (argc + 1) ws x') : Parsed x next argc ((a, w) :: ws) x' where
  stores := by
    rw [h.stores, hstores, List.append_assoc, List.length_cons, List.range'_succ]
    rfl
  args i hi := by
    cases i with
    | zero =>
      rw [Nat.add_zero, h.others argc (.inl (Nat.lt_succ_self argc)), hargv]
      exact update_self ..
    | succ i =>
      have := h.args i (Nat.lt_of_succ_lt_succ hi)
      rwa [Nat.add_assoc, Nat.add_comm 1 i] at this
  others j hj := by
    rw [List.length_cons] at hj
    rw [h.others j (by omega), hargv]
    exact update_of_ne (by omega) _ _
  strings v hv := by
    rcases List.mem_cons.1 hv with rfl | hv
    · exact hword.congr (fun i hi => h.before _ (by omega)) (h.zeros _ hlast)
    · exact h.strings v hv
  before b hb := (h.before b (by omega)).trans (hbefore b hb)
  zeros b hb := h.zeros b (hzeros b hb)

/-- The second loop tests for the NUL, too, which the text does not contain. -/
theorem takeWhile_word (token : UInt8) (h0 : ∀ c ∈ s, c ≠ 0) :
    s.takeWhile (fun b => decide (b ≠ 0 ∧ b ≠ token)) = s.takeWhile (fun b => !decide (b = token)) ∧
      s.dropWhile (fun b => decide (b ≠ 0 ∧ b ≠ token)) =
        s.dropWhile (fun b => !decide (b = token)) := by
  induction s with
  | nil => exact ⟨rfl, rfl⟩
  | cons c s ih =>
    obtain ⟨htake, hdrop⟩ := ih fun d hd => h0 d (List.mem_cons_of_mem _ hd)
    have hc : decide (c ≠ 0 ∧ c ≠ token) = !decide (c = token) := by
      simp [h0 c (List.mem_cons_self ..)]
    rw [List.takeWhile_cons, List.takeWhile_cons, List.dropWhile_cons, List.dropWhile_cons, hc,
      htake, hdrop]
    exact ⟨rfl, rfl⟩

theorem endWord_argv (x : ArgMem) (next : ℕ) : (x.endWord next).1.argv = x.argv ∧
    (x.endWord next).1.stores = x.stores := by
  unfold ArgMem.endWord
  split <;> exact ⟨rfl, rfl⟩

theorem endWord_bytes (x : ArgMem) (next : ℕ) :
    (x.endWord next).1.bytes = update x.bytes next 0 := by
  unfold ArgMem.endWord
  split
  · rfl
  · next h => exact (update_eq_self_iff.2 (not_not.1 h).symm).symm

theorem le_endWord (x : ArgMem) (next : ℕ) : next ≤ (x.endWord next).2 := by
  unfold ArgMem.endWord
  split
  · exact Nat.le_succ next
  · exact le_rfl

/-- What follows the end of a word is a text with the same words. -/
theorem exists_endWord (hs : HoldsString x.bytes next s)
    (hhead : ∀ c l, s = c :: l → c = token) :
    ∃ l, HoldsString (x.endWord next).1.bytes (x.endWord next).2 l ∧ l.length ≤ s.length ∧
      spans (· = token) (x.endWord next).2 l = spans (· = token) next s := by
  cases s with
  | nil =>
    have hend : x.endWord next = (x, next) := if_neg (not_not.2 hs)
    rw [hend]
    exact ⟨[], hs, le_rfl, rfl⟩
  | cons c l =>
    have hne : x.bytes next ≠ 0 := hs.1 ▸ hs.2.1
    have hend : x.endWord next = (x.cut next, next + 1) := if_pos hne
    rw [hend]
    have hc := hhead c l rfl
    refine ⟨l, ?_, Nat.le_succ _, (spans_cons_sep (· = token) (by simp [hc])).symm⟩
    have hafter : ∀ i, (x.cut next).bytes (next + 1 + i) = x.bytes (next + 1 + i) := fun i =>
      update_of_ne (by omega) _ _
    refine hs.2.2.congr (fun i _ => hafter i) ?_
    rw [hafter]
    exact hs.2.2.apply_length

/-- What `cmd_parse` returns for `n` words, when `argc` words came before. -/
def parseResult (argc n : ℕ) : ℤ := if argc + n ≤ 17 then ((argc + n : ℕ) : ℤ) else -1

theorem parseResult_zero (h : argc ≤ 17) : parseResult argc 0 = argc := if_pos h

/-- One round: the word at `next₁` is stored and cut, and the loop goes on behind it. -/
theorem exists_round {next₁ fuel : ℕ} {c : UInt8} {l : List UInt8} (x : ArgMem) (argc : ℕ)
    (hle : next ≤ next₁) (hs : HoldsString x.bytes next₁ (c :: l)) (hc : c ≠ token)
    (hfuel : (c :: l).length < fuel) :
    ∃ w x₁ next₂ l₂, scan (fun b => b ≠ 0 ∧ b ≠ token) x.bytes fuel next₁ =
        .ok (next₁ + w.length) ∧
      (x.setArg argc next₁).endWord (next₁ + w.length) = (x₁, next₂) ∧
      HoldsString x₁.bytes next₂ l₂ ∧ l₂.length ≤ l.length ∧
      spans (· = token) next₁ (c :: l) = (next₁, w) :: spans (· = token) next₂ l₂ ∧
      ∀ ws x', Parsed x₁ next₂ (argc + 1) ws x' → Parsed x next argc ((next₁, w) :: ws) x' := by
  set w := (c :: l).takeWhile fun b => !decide (b = token) with hw
  set s₂ := (c :: l).dropWhile fun b => !decide (b = token) with hs₂def
  set y := x.setArg argc next₁
  obtain ⟨htake, hdrop⟩ := takeWhile_word token hs.ne_zero
  obtain ⟨hscan, hs₂⟩ := hs.scan_eq (p := fun b => decide (b ≠ 0 ∧ b ≠ token)) (by simp) hfuel
  rw [htake, ← hw] at hscan hs₂
  rw [hdrop, ← hs₂def] at hs₂
  have hlen₂ : s₂.length ≤ l.length := by
    rw [hs₂def, List.dropWhile_cons_of_pos (by simpa using hc)]
    exact (List.dropWhile_sublist _).length_le
  have hhead : ∀ d r, s₂ = d :: r → d = token := fun d r hd => by
    have := List.head?_dropWhile_not (fun b => !decide (b = token)) (c :: l)
    rw [← hs₂def, hd] at this
    simpa using this
  obtain ⟨l₂, hl₂, hlen, hspans⟩ := exists_endWord (x := y) hs₂ hhead
  obtain ⟨hargv, hstores⟩ := endWord_argv y (next₁ + w.length)
  have hbytes := endWord_bytes y (next₁ + w.length)
  have hend := le_endWord y (next₁ + w.length)
  have hsame : ∀ a, a ≠ next₁ + w.length → (y.endWord (next₁ + w.length)).1.bytes a = x.bytes a :=
    fun a ha => by
      rw [hbytes]
      exact update_of_ne ha _ _
  have hlast : (y.endWord (next₁ + w.length)).1.bytes (next₁ + w.length) = 0 := by
    rw [hbytes]
    exact update_self ..
  refine ⟨w, _, _, l₂, hscan, rfl, hl₂, hlen.trans hlen₂, ?_, fun ws x' h => ?_⟩
  · exact (spans_cons_word (· = token) (by simpa using hc)).trans (congrArg _ hspans.symm)
  · refine .cons hargv hstores ?_ hend (by omega) (fun a ha => hsame a (by omega)) (fun a ha => ?_)
      hlast h
    · exact hs.takeWhile (p := fun b => !decide (b = token))
        (fun i (hi : i < w.length) => hsame _ (by omega)) hlast
    · by_cases hne : a = next₁ + w.length
      · rw [hne, hlast]
      · rw [hsame a hne, ha]

/-- **The loop of `cmd_parse`** goes through the words of the text, up to the eighteenth. -/
theorem cmdParseLoop_eq (htok : token ≠ 0) {fuel : ℕ} : ∀ {x : ArgMem} {next argc : ℕ}
    {s : List UInt8}, HoldsString x.bytes next s → s.length < fuel → argc ≤ 17 →
    ∃ x', cmdParseLoop token fuel x next argc =
        .ok (parseResult argc (spans (· = token) next s).length, x') ∧
      Parsed x next argc ((spans (· = token) next s).take (18 - argc)) x' := by
  induction fuel with
  | zero => exact fun _ h => absurd h (Nat.not_lt_zero _)
  | succ fuel ih =>
    intro x next argc s hs hfuel hargc
    rw [cmdParseLoop]
    by_cases hnil : s = []
    · rw [if_pos (hs.apply_eq_zero_iff.2 hnil), hnil, spans_nil, List.take_nil, List.length_nil,
        parseResult_zero hargc]
      exact ⟨x, rfl, .nil x next argc⟩
    rw [if_neg fun h => hnil (hs.apply_eq_zero_iff.1 h)]
    -- the separators before the word
    obtain ⟨hscan, hs₁⟩ := hs.scan_eq (p := (· = token)) (by simpa using htok.symm) hfuel
    have hlen₁ := (List.dropWhile_sublist (· = token) (l := s)).length_le
    rw [hscan, ok_bind, spans_dropWhile]
    have hle₁ : next ≤ next + (s.takeWhile (· = token)).length := Nat.le_add_right ..
    have hhead₁ := List.head?_dropWhile_not (· = token) s
    generalize next + (s.takeWhile (· = token)).length = next₁ at hs₁ hle₁ ⊢
    generalize s.dropWhile (· = token) = s₁ at hs₁ hlen₁ hhead₁ ⊢
    by_cases hnil₁ : s₁ = []
    · rw [if_pos (hs₁.apply_eq_zero_iff.2 hnil₁), hnil₁, spans_nil, List.take_nil, List.length_nil,
        parseResult_zero hargc]
      exact ⟨x, rfl, .nil x next argc⟩
    rw [if_neg fun h => hnil₁ (hs₁.apply_eq_zero_iff.1 h)]
    obtain ⟨c, l, rfl⟩ := List.exists_cons_of_ne_nil hnil₁
    have hc : c ≠ token := by simpa using hhead₁
    obtain ⟨w, x₁, next₂, l₂, hword, hend, hs₂, hlen₂, hspans, hcons⟩ :=
      exists_round x argc hle₁ hs₁ hc (show _ < fuel + 1 by omega)
    have htake : ∀ ws : List (ℕ × List UInt8), ((next₁, w) :: ws).take (18 - argc) =
        (next₁, w) :: ws.take (18 - (argc + 1)) := fun ws => by
      rw [show 18 - argc = 18 - (argc + 1) + 1 by omega, List.take_succ_cons]
    dsimp only
    rw [show (x.setArg argc next₁).bytes = x.bytes from rfl, hword, ok_bind, hend, hspans, htake,
      List.length_cons]
    dsimp only
    by_cases hmany : maxArgNr < argc
    · rw [if_pos hmany]
      unfold maxArgNr at hmany
      rw [parseResult, if_neg (by omega), show 18 - (argc + 1) = 0 by omega,
        List.take_zero]
      exact ⟨x₁, rfl, hcons _ _ (.nil x₁ next₂ _)⟩
    · rw [if_neg hmany]
      unfold maxArgNr at hmany
      rw [List.length_cons] at hlen₁
      obtain ⟨x', hrun, hparsed⟩ := ih hs₂ (by omega) (show argc + 1 ≤ 17 by omega)
      refine ⟨x', ?_, hcons _ _ hparsed⟩
      rw [hrun, parseResult, parseResult, Nat.add_right_comm, Nat.add_assoc]

end Loop

/-! ## Command lines -/

/-- The words of a text: the non-empty pieces between separators. -/
def words (token : UInt8) (s : List UInt8) : List (List UInt8) :=
  (s.splitOnP (· = token)).filter (!List.isEmpty ·)

/-- Memory with the text `s` at `a`, and zeros elsewhere. -/
def textAt (a : ℕ) (s : List UInt8) : ArgMem where
  bytes i := if a ≤ i then s.getD (i - a) 0 else 0
  argv _ := 0
  stores := []

/-- `"ls  -l "`. -/
def lsLine : List UInt8 := [108, 115, 32, 32, 45, 108, 32]

/-- `n` times `"a "`. -/
def aLine (n : ℕ) : List UInt8 := (List.replicate n [97, 32]).flatten

section Results

variable {x x' : ArgMem} {cmdStr fuel : ℕ} {token : UInt8} {s : List UInt8}

theorem clearArgs_eq (x : ArgMem) (n : ℕ) : (x.clearArgs n).bytes = x.bytes ∧
    (x.clearArgs n).stores = x.stores ++ List.range n ∧ ∀ i < n, (x.clearArgs n).argv i = 0 := by
  induction n with
  | zero => exact ⟨rfl, (List.append_nil _).symm, fun _ h => absurd h (Nat.not_lt_zero _)⟩
  | succ n ih =>
    have hstep : x.clearArgs (n + 1) = (x.clearArgs n).setArg n 0 := by
      unfold ArgMem.clearArgs
      rw [List.range_succ, List.foldl_append]
      rfl
    obtain ⟨hbytes, hstores, hargs⟩ := ih
    rw [hstep]
    refine ⟨hbytes, ?_, fun i hi => ?_⟩
    · rw [List.range_succ, ← List.append_assoc, ← hstores]
      rfl
    · change update (x.clearArgs n).argv n 0 i = 0
      by_cases hin : i = n
      · rw [hin, update_self]
      · rw [update_of_ne hin, hargs i (by omega)]

theorem length_words (token : UInt8) (s : List UInt8) (off : ℕ) :
    (spans (· = token) off s).length = (words token s).length := by
  rw [words, ← map_snd_spans (· = token) off s, List.length_map]

/-- **`cmd_parse`** on a NUL-terminated string. -/
theorem exists_cmdParse (hstr : cmdStr ≠ 0) (htok : token ≠ 0) (hs : HoldsString x.bytes cmdStr s)
    (hfuel : s.length < fuel) : ∃ x', cmdParse fuel x cmdStr token =
        .ok (parseResult 0 (words token s).length, x') ∧
      Parsed (x.clearArgs maxArgNr) cmdStr 0 ((spans (· = token) cmdStr s).take 18) x' := by
  have hs' : HoldsString (x.clearArgs maxArgNr).bytes cmdStr s := (clearArgs_eq x _).1.symm ▸ hs
  obtain ⟨x', hrun, hparsed⟩ := cmdParseLoop_eq htok hs' hfuel (Nat.zero_le 17)
  rw [length_words] at hrun
  exact ⟨x', bind_eq_ok.2 ⟨(), assert_eq_ok.2 hstr, hrun⟩, hparsed⟩

/-- **Command lines split into words.** With at most 16 words, `cmd_parse` returns their number,
`argv[i]` points to the `i`-th word of the text, which ends with a NUL now, and the other entries
are `NULL`. -/
theorem cmdParse_words (hstr : cmdStr ≠ 0) (htok : token ≠ 0) (hs : HoldsString x.bytes cmdStr s)
    (hfew : (words token s).length ≤ 16) (hfuel : s.length < fuel) :
    ∃ x', cmdParse fuel x cmdStr token = .ok (((words token s).length : ℤ), x') ∧
      (∀ i (h : i < (words token s).length),
        (spans (· = token) cmdStr s)[i]? = some (x'.argv i, (words token s).get ⟨i, h⟩) ∧
        HoldsString x'.bytes (x'.argv i) ((words token s).get ⟨i, h⟩)) ∧
      ∀ i, (words token s).length ≤ i → i < maxArgNr → x'.argv i = 0 := by
  obtain ⟨x', hrun, hparsed⟩ := exists_cmdParse hstr htok hs hfuel
  have hlen := length_words token s cmdStr
  have hwords := map_snd_spans (· = token) cmdStr s
  rw [List.take_of_length_le (by omega)] at hparsed
  rw [parseResult, if_pos (by omega), Nat.zero_add] at hrun
  refine ⟨x', hrun, fun i hi => ?_, fun i hi hi16 => ?_⟩
  · have hi' : i < (spans (· = token) cmdStr s).length := hlen ▸ hi
    have harg := hparsed.args i hi'
    rw [Nat.zero_add] at harg
    have hword : (words token s).get ⟨i, hi⟩ = ((spans (· = token) cmdStr s).get ⟨i, hi'⟩).2 := by
      simp only [words, ← hwords, List.get_eq_getElem, List.getElem_map]
    rw [harg, hword]
    exact ⟨List.getElem?_eq_getElem hi', hparsed.strings _ (List.get_mem _ _)⟩
  · rw [hparsed.others i (.inr (by omega))]
    exact (clearArgs_eq x maxArgNr).2.2 i hi16

/-- `"ls  -l "` has the words `"ls"` and `"-l"`. -/
theorem cmdParse_words_ls : ∃ x', cmdParse 10 (textAt 1000 lsLine) 1000 32 = .ok (2, x') ∧
    x'.argv 0 = 1000 ∧ x'.argv 1 = 1004 ∧ x'.argv 2 = 0 ∧
    HoldsString x'.bytes 1000 [108, 115] ∧ HoldsString x'.bytes 1004 [45, 108] := by
  obtain ⟨x', hrun, hwords, hnull⟩ := @cmdParse_words (textAt 1000 lsLine) 1000 10 32 lsLine
    (by decide) (by decide) (by decide) (by decide) (by decide)
  obtain ⟨h0, hs0⟩ := hwords 0 (by decide)
  obtain ⟨h1, hs1⟩ := hwords 1 (by decide)
  have ha0 : 1000 = x'.argv 0 := congrArg Prod.fst (Option.some.inj h0)
  have ha1 : 1004 = x'.argv 1 := congrArg Prod.fst (Option.some.inj h1)
  rw [← ha0] at hs0
  rw [← ha1] at hs1
  exact ⟨x', hrun, ha0.symm, ha1.symm, hnull 2 (by decide) (by decide), hs0, hs1⟩

/-! ## The end of the vector -/

/-- What the callers of `cmd_parse` rely on: it stores inside of the vector only, it returns `-1`
when there are more words than entries, and a vector that it returns has a `NULL` inside, so that
`sys_execv` stops counting there. Before, the shell replaces `argv[0]` by the path. -/
structure VectorSafe (count : ℕ) (ret : ℤ) (x' : ArgMem) : Prop where
  stores : ∀ i ∈ x'.stores, i < maxArgNr
  tooMany : maxArgNr < count → ret = -1
  terminated : 0 ≤ ret → ∀ path, ∃ n, execvArgc (update x'.argv 0 path) 17 0 = .ok n

/-- The count ends at a `NULL` inside of the vector. -/
theorem exists_execvArgc {argv : ℕ → ℕ} {j : ℕ} (hj : j < maxArgNr) (hz : argv j = 0) :
    ∀ {fuel i : ℕ}, i ≤ j → j < i + fuel → ∃ n, execvArgc argv fuel i = .ok n := by
  intro fuel
  induction fuel with
  | zero => exact fun hi hf => absurd hi (by omega)
  | succ fuel ih =>
    intro i hi hf
    rw [execvArgc, access, if_pos (by omega), ok_bind]
    by_cases hne : argv i ≠ 0
    · have hij : i ≠ j := fun h => hne (h ▸ hz)
      rw [if_pos hne]
      exact ih (by omega) (by omega)
    · rw [if_neg hne]
      exact ⟨i, rfl⟩

/-- Without one, it runs over the end. -/
theorem execvArgc_fault {argv : ℕ → ℕ} (hne : ∀ i < maxArgNr, argv i ≠ 0) :
    ∀ {fuel i n : ℕ}, execvArgc argv fuel i ≠ .ok n := by
  intro fuel
  induction fuel with
  | zero => exact fun h => nomatch h
  | succ fuel ih =>
    intro i n h
    obtain ⟨_, hin, h⟩ := bind_eq_ok.1 h
    rw [if_pos (hne i (access_eq_ok.1 hin))] at h
    exact ih h

theorem Parsed.vectorSafe (hparsed : Parsed (x.clearArgs maxArgNr) cmdStr 0
    ((spans (· = token) cmdStr s).take 18) x') (hx : x.stores = [])
    (hfew : (words token s).length ≤ 15) :
    VectorSafe (words token s).length (parseResult 0 (words token s).length) x' := by
  have hlen := length_words token s cmdStr
  rw [List.take_of_length_le (by omega)] at hparsed
  obtain ⟨-, hcleared, hargs⟩ := clearArgs_eq x maxArgNr
  refine ⟨fun i hi => ?_, fun h => ?_, fun _ path => ?_⟩
  · rw [hparsed.stores, hcleared, hx, List.nil_append, List.mem_append, List.mem_range,
      List.mem_range'_1] at hi
    unfold maxArgNr at hi ⊢
    omega
  · unfold maxArgNr at h
    omega
  · -- the entry behind the last word, or behind the path when there is no word
    have hj : max 1 (words token s).length < maxArgNr := by
      unfold maxArgNr
      omega
    refine exists_execvArgc hj ?_ (Nat.zero_le _) (by unfold maxArgNr at hj; omega)
    rw [update_of_ne (by omega), hparsed.others _ (.inr (by omega))]
    exact hargs _ hj

theorem Parsed.not_vectorSafe (hparsed : Parsed (x.clearArgs maxArgNr) cmdStr 0
    ((spans (· = token) cmdStr s).take 18) x') (hstr : cmdStr ≠ 0)
    (hmany : 16 ≤ (words token s).length) :
    ¬ VectorSafe (words token s).length (parseResult 0 (words token s).length) x' := by
  have hlen := length_words token s cmdStr
  intro h
  by_cases h16 : (words token s).length = 16
  · rw [List.take_of_length_le (by omega)] at hparsed
    obtain ⟨n, hn⟩ := h.terminated (by rw [h16]; decide) 1
    refine execvArgc_fault (fun i hi => ?_) hn
    by_cases h0 : i = 0
    · rw [h0, update_self]
      exact one_ne_zero
    · unfold maxArgNr at hi
      have hi' : i < (spans (· = token) cmdStr s).length := by omega
      have harg := hparsed.args i hi'
      have hle := le_fst_of_mem_spans (· = token)
        (List.get_mem (spans (· = token) cmdStr s) ⟨i, hi'⟩)
      rw [Nat.zero_add] at harg
      rw [update_of_ne h0, harg]
      omega
  · -- the seventeenth word has been stored before it is noticed
    have hmem : 16 ∈ x'.stores := by
      rw [hparsed.stores, List.mem_append, List.mem_range'_1, List.length_take]
      right
      omega
    exact absurd (h.stores 16 hmem) (lt_irrefl 16)

/-- **Fifteen words are safe**, and no more. -/
theorem vectorSafe_iff (hx : x.stores = []) (hstr : cmdStr ≠ 0) (htok : token ≠ 0)
    (hs : HoldsString x.bytes cmdStr s) (hfuel : s.length < fuel) :
    ∃ ret x', cmdParse fuel x cmdStr token = .ok (ret, x') ∧
      (VectorSafe (words token s).length ret x' ↔ (words token s).length ≤ 15) := by
  obtain ⟨x', hrun, hparsed⟩ := exists_cmdParse hstr htok hs hfuel
  refine ⟨_, x', hrun, fun h => ?_, fun hfew => hparsed.vectorSafe hx hfew⟩
  by_contra hmany
  exact hparsed.not_vectorSafe hstr (by omega) h

end Results

/-- Two words are safe. -/
theorem vectorSafe_ls : ∃ ret x', cmdParse 10 (textAt 1000 lsLine) 1000 32 = .ok (ret, x') ∧
    VectorSafe 2 ret x' := by
  obtain ⟨ret, x', hrun, hiff⟩ := @vectorSafe_iff (textAt 1000 lsLine) 1000 10 32 lsLine rfl
    (by decide) (by decide) (by decide) (by decide)
  exact ⟨ret, x', hrun, hiff.2 (by decide)⟩

/-- With 16 words, the count of `sys_execv` runs over the end of the vector. With 17, `cmd_parse`
stores behind the vector and returns 17. -/
theorem not_vectorSafe_many :
    (∃ x', cmdParse 40 (textAt 1000 (aLine 16)) 1000 32 = .ok (16, x') ∧
      ¬ VectorSafe (words 32 (aLine 16)).length 16 x') ∧
    ∃ x', cmdParse 40 (textAt 1000 (aLine 17)) 1000 32 = .ok (17, x') ∧ 16 ∈ x'.stores ∧
      ¬ VectorSafe (words 32 (aLine 17)).length 17 x' := by
  constructor
  · obtain ⟨⟨ret, x'⟩, hrun, hx⟩ := exists_of_holds
      (o := cmdParse 40 (textAt 1000 (aLine 16)) 1000 32)
      (f := fun r => r.1 = 16 ∧ ∀ i < maxArgNr, update r.2.argv 0 1 i ≠ 0)
      (by decide +kernel)
    obtain ⟨rfl, hne⟩ : ret = 16 ∧ ∀ i < maxArgNr, update x'.argv 0 1 i ≠ 0 :=
      of_decide_eq_true hx
    refine ⟨x', hrun, fun h => ?_⟩
    obtain ⟨n, hn⟩ := h.terminated (by decide) 1
    exact execvArgc_fault hne hn
  · obtain ⟨⟨ret, x'⟩, hrun, hx⟩ := exists_of_holds
      (o := cmdParse 40 (textAt 1000 (aLine 17)) 1000 32)
      (f := fun r => r.1 = 17 ∧ 16 ∈ r.2.stores) (by decide +kernel)
    obtain ⟨rfl, hmem⟩ : ret = 17 ∧ 16 ∈ x'.stores := of_decide_eq_true hx
    exact ⟨x', hrun, hmem, fun h => absurd (h.stores 16 hmem) (lt_irrefl 16)⟩

end Gardos.Shell
