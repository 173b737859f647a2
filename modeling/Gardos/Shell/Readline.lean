import Gardos.Shell.CmdParse

/-!
# The line editor (`shell/shell.c`)

`readline` stores each byte where the next character belongs and looks at it afterwards: the bytes
of the editing keys stand in the buffer for a moment, and what was deleted stays behind the
position. Whether there is something to delete is read off the first byte of the buffer.

* `readline_edits`: what is left at the end of the line is the text that the keys make.
* `contained_iff`: the position is tested after the byte has been stored. A byte that comes when
  the text has 512 characters is stored behind the buffer.
-/

namespace Gardos.Shell

open Bytes Function

/-! ## The source -/

/-- `readline` at work: the memory from `cmd_line` on, the position in it, the offsets that have
been stored to and the buffers that `ctrl+l` has printed. What is echoed is left out. -/
structure Line where
  buf : Buf
  pos : ℕ
  stores : List ℕ
  shown : List Buf

/-- How `readline` stands when there is no more input: it waits for a byte, it has seen the end of
the line, or it has given up. -/
inductive Exit
  | waiting
  | entered
  | full
  deriving DecidableEq

/-- `*pos = byte`. -/
def Line.store (x : Line) (byte : UInt8) : Line :=
  { x with buf := update x.buf x.pos byte, stores := x.stores ++ [x.pos] }

/-- `while (buf != pos) *(pos--) = 0`, with `left` characters to go. -/
def Line.clear : (left : ℕ) → Line → Line
  | 0, x => x
  | left + 1, x => Line.clear left { x.store 0 with pos := x.pos - 1 }

/-- The `switch` of `readline` for a byte that does not end the line. With `pos = buf` the byte has
just been stored at `cmd_line[0]`, so `--pos` does not leave the buffer. -/
def Line.key (x : Line) (byte : UInt8) : Line :=
  if byte = 8 then
    if x.buf 0 ≠ 8 then { x with pos := x.pos - 1 } else x
  else if byte = 11 then
    { x.store 0 with shown := x.shown ++ [(x.store 0).buf] }
  else if byte = 20 then x.clear x.pos
  else { x with pos := x.pos + 1 }

/-- `'\n'` and `'\r'`. -/
def EndsLine (byte : UInt8) : Prop := byte = 10 ∨ byte = 13

instance : DecidablePred EndsLine := fun _ => inferInstanceAs (Decidable (_ ∨ _))

/-- The loop of `readline` on the bytes that come in: `read` stores before `pos` is tested. -/
def readlineLoop (count : ℕ) : Line → List UInt8 → Line × Exit
  | x, [] => (x, .waiting)
  | x, byte :: input =>
    if ¬ x.pos < count then (x.store byte, .full)
    else if EndsLine byte then ((x.store byte).store 0, .entered)
    else readlineLoop count ((x.store byte).key byte) input

/-- `readline`. -/
def readline (buf : Buf) (count : ℕ) (input : List UInt8) : Line × Exit :=
  readlineLoop count ⟨buf, 0, [], []⟩ input

/-! ## The text -/

/-- What a key does to the text. -/
def editKey (text : List UInt8) (byte : UInt8) : List UInt8 :=
  if byte = 8 then text.dropLast else if byte = 11 then text
  else if byte = 20 then [] else text ++ [byte]

/-- The texts at the moments of the keys `ctrl+l`. -/
def reprints : (text keys : List UInt8) → List (List UInt8)
  | _, [] => []
  | text, byte :: keys =>
    if byte = 11 then text :: reprints text keys else reprints (editKey text byte) keys

/-- The text in front of the position. -/
structure Line.Holds (x : Line) (text : List UInt8) : Prop where
  bytes : (List.range x.pos).map x.buf = text
  plain : ∀ c ∈ text, c ≠ 8

variable {x : Line} {text keys input : List UInt8} {byte : UInt8}

namespace Line

theorem stores_store {i : ℕ} (hi : i ∈ x.stores ++ [x.pos]) : i ∈ x.stores ∨ i ≤ x.pos :=
  (List.mem_append.1 hi).imp_right fun h => (List.mem_singleton.1 h).le

theorem clear_eq (left : ℕ) (x : Line) : (x.clear left).pos = x.pos - left ∧
    (x.clear left).shown = x.shown ∧
    ∀ i ∈ (x.clear left).stores, i ∈ x.stores ∨ i ≤ x.pos := by
  induction left generalizing x with
  | zero => exact ⟨rfl, rfl, fun i hi => .inl hi⟩
  | succ left ih =>
    obtain ⟨hpos, hshown, hstores⟩ := ih { x.store 0 with pos := x.pos - 1 }
    refine ⟨hpos.trans (by dsimp only; omega), hshown, fun i hi => ?_⟩
    rcases hstores i hi with hi | hi
    · exact stores_store hi
    · exact .inr (hi.trans (Nat.sub_le ..))

/-- What a byte stores is at the position or in front of it. -/
theorem stores_key {i : ℕ} (hi : i ∈ ((x.store byte).key byte).stores) :
    i ∈ x.stores ∨ i ≤ x.pos := by
  have htwice : ∀ j, j ∈ (x.store byte).stores ∨ j ≤ x.pos → j ∈ x.stores ∨ j ≤ x.pos :=
    fun j hj => hj.elim stores_store .inr
  unfold key at hi
  split_ifs at hi
  · exact stores_store hi
  · exact stores_store hi
  · exact htwice i (stores_store hi)
  · exact htwice i ((clear_eq _ _).2.2 i hi)
  · exact stores_store hi

theorem Holds.length (h : x.Holds text) : text.length = x.pos := by
  rw [← h.bytes, List.length_map, List.length_range]

theorem Holds.store (h : x.Holds text) (byte : UInt8) : (x.store byte).Holds text := by
  refine ⟨(List.map_congr_left fun i hi => ?_).trans h.bytes, h.plain⟩
  exact update_of_ne (List.mem_range.1 hi).ne _ _

/-- The test of the first byte tells whether there is a character to delete. -/
theorem Holds.apply_zero (h : x.Holds text) : (x.store 8).buf 0 = 8 ↔ text = [] := by
  rw [← List.length_eq_zero_iff, h.length]
  constructor
  · intro h8
    by_contra hpos
    have hmem : (x.store 8).buf 0 ∈ text := by
      rw [← (h.store 8).bytes]
      exact List.mem_map_of_mem (List.mem_range.2 (Nat.pos_of_ne_zero hpos))
    exact h.plain _ hmem h8
  · intro hpos
    change update x.buf x.pos 8 0 = 8
    rw [hpos, update_self]

/-- **A key edits the text.** -/
theorem Holds.key (h : x.Holds text) (byte : UInt8) :
    ((x.store byte).key byte).Holds (editKey text byte) := by
  have hs := h.store byte
  unfold Line.key editKey
  split_ifs with hback hstart hl hu
  · refine ⟨?_, fun c hc => h.plain c (List.dropLast_subset _ hc)⟩
    obtain ⟨n, hn⟩ : ∃ n, x.pos = n + 1 := by
      refine Nat.exists_eq_succ_of_ne_zero fun hpos => hstart ?_
      rw [hback]
      exact h.apply_zero.2 (List.length_eq_zero_iff.1 (h.length.trans hpos))
    have hbytes := hs.bytes
    change (List.range x.pos).map _ = text at hbytes
    change (List.range (x.pos - 1)).map _ = _
    rw [hn, List.range_succ, List.map_append] at hbytes
    rw [← hbytes, hn]
    exact List.dropLast_concat.symm
  · rw [hback] at hs hstart ⊢
    rwa [(h.apply_zero.1 (not_not.1 hstart)), List.dropLast_nil,
      ← h.apply_zero.1 (not_not.1 hstart)]
  · exact ⟨(hs.store 0).bytes, h.plain⟩
  · refine ⟨?_, fun c hc => absurd hc List.not_mem_nil⟩
    rw [(clear_eq _ _).1, Nat.sub_self]
    rfl
  · refine ⟨?_, fun c hc => ?_⟩
    · change (List.range (x.pos + 1)).map (x.store byte).buf = _
      rw [List.range_succ, List.map_append]
      exact congrArg₂ (· ++ [·]) hs.bytes (update_self ..)
    · rcases List.mem_append.1 hc with hc | hc
      · exact h.plain c hc
      · rwa [List.mem_singleton.1 hc]

theorem shown_key (x : Line) (byte : UInt8) : ((x.store byte).key byte).shown =
    if byte = 11 then x.shown ++ [((x.store byte).store 0).buf] else x.shown := by
  unfold key
  split_ifs with h8 h11
  all_goals first | rfl | exact (clear_eq _ _).2.1 | simp_all

end Line

/-! ## The results -/

theorem holdsString_range' {b : Buf} {a n : ℕ} (hz : b (a + n) = 0)
    (hne : ∀ c ∈ (List.range' a n).map b, c ≠ 0) : HoldsString b a ((List.range' a n).map b) := by
  induction n generalizing a with
  | zero => exact hz
  | succ n ih =>
    rw [List.range'_succ, List.map_cons] at hne ⊢
    refine ⟨rfl, hne _ List.mem_cons_self, ih ?_ fun c hc => hne c (List.mem_cons_of_mem _ hc)⟩
    rwa [Nat.add_right_comm, Nat.add_assoc]

/-- The text and a NUL at the position are a string. -/
theorem Line.Holds.holdsString (h : x.Holds text) (hne : 0 ∉ text) (byte : UInt8) :
    HoldsString ((x.store byte).store 0).buf 0 text := by
  have hs := (h.store byte).store 0
  have hbytes := hs.bytes
  rw [List.range_eq_range'] at hbytes
  rw [← hbytes]
  refine holdsString_range' ?_ fun c hc hzero => hne (hbytes ▸ hzero ▸ hc)
  rw [Nat.zero_add]
  exact update_self ..

theorem zero_notMem_editKey (hne : 0 ∉ text) (hbyte : byte ≠ 0) : 0 ∉ editKey text byte := by
  unfold editKey
  split_ifs
  · exact fun h => hne (List.dropLast_subset _ h)
  · exact hne
  · exact List.not_mem_nil
  · simp [hne, hbyte.symm]

theorem readlineLoop_edits {e : UInt8} {rest : List UInt8} (he : EndsLine e) :
    ∀ {keys text : List UInt8} {x : Line}, x.Holds text → 0 ∉ text → 0 ∉ keys →
      (∀ c ∈ keys, ¬ EndsLine c) → (∀ t ∈ keys.scanl editKey text, t.length ≤ 511) →
      ∃ y, readlineLoop 512 x (keys ++ e :: rest) = (y, .entered) ∧
        HoldsString y.buf 0 (keys.foldl editKey text) ∧
        ∃ bs, y.shown = x.shown ++ bs ∧ List.Forall₂ (HoldsString · 0) bs (reprints text keys) := by
  intro keys
  induction keys with
  | nil =>
    intro text x h hne _ _ hlen
    have hpos : x.pos < 512 := by
      rw [← h.length]
      exact Nat.lt_succ_of_le (hlen text (by simp))
    refine ⟨_, ?_, h.holdsString hne e, [], (List.append_nil _).symm, .nil⟩
    rw [List.nil_append, readlineLoop, if_neg (not_not.2 hpos), if_pos he]
  | cons byte keys ih =>
    intro text x h hne hkeys hends hlen
    have hpos : x.pos < 512 := by
      rw [← h.length]
      exact Nat.lt_succ_of_le (hlen text (by simp))
    obtain ⟨y, hy, hstr, bs, hshown, hbs⟩ := ih (h.key byte)
      (zero_notMem_editKey hne fun hb => hkeys (hb ▸ List.mem_cons_self))
      (fun hmem => hkeys (List.mem_cons_of_mem _ hmem))
      (fun c hc => hends c (List.mem_cons_of_mem _ hc))
      (fun t ht => hlen t (by rw [List.scanl_cons]; exact List.mem_cons_of_mem _ ht))
    rw [List.cons_append, readlineLoop, if_neg (not_not.2 hpos),
      if_neg (hends byte List.mem_cons_self)]
    refine ⟨y, hy, hstr, ?_⟩
    rw [Line.shown_key] at hshown
    by_cases hl : byte = 11
    · rw [if_pos hl, List.append_assoc] at hshown
      have htext : editKey text byte = text := by rw [hl]; rfl
      rw [reprints, if_pos hl]
      exact ⟨_, hshown, .cons (h.holdsString hne byte) (htext ▸ hbs)⟩
    · rw [if_neg hl] at hshown
      rw [reprints, if_neg hl]
      exact ⟨bs, hshown, hbs⟩

theorem holds_start {buf : Buf} : Line.Holds ⟨buf, 0, [], []⟩ [] :=
  ⟨rfl, fun _ hc => absurd hc List.not_mem_nil⟩

/-- **Line editing.** -/
theorem readline_edits (keys rest : List UInt8) (e : UInt8) (he : EndsLine e) (hkeys : 0 ∉ keys)
    (hends : ∀ c ∈ keys, ¬ EndsLine c) (hlen : ∀ t ∈ keys.scanl editKey [], t.length ≤ 511) :
    ∃ y, readline zero 512 (keys ++ e :: rest) = (y, .entered) ∧
      HoldsString y.buf 0 (keys.foldl editKey []) ∧
      List.Forall₂ (HoldsString · 0) y.shown (reprints [] keys) := by
  obtain ⟨y, hy, hstr, bs, hshown, hbs⟩ :=
    readlineLoop_edits he holds_start List.not_mem_nil hkeys hends hlen
  exact ⟨y, hy, hstr, hshown ▸ hbs⟩

/-- The keys `a`, backspace, `b`, `ctrl+l` and enter. -/
theorem readline_edits_ab : EndsLine 13 ∧
    ∃ y, readline zero 512 [97, 8, 98, 11, 13] = (y, .entered) ∧ HoldsString y.buf 0 [98] ∧
      List.Forall₂ (HoldsString · 0) y.shown [[98]] :=
  ⟨.inr rfl, readline_edits [97, 8, 98, 11] [] 13 (.inr rfl) (by decide) (by decide +kernel)
    (by decide +kernel)⟩

/-- The loop stores inside of the buffer, and what it leaves there is a string when it is done. -/
def Contained (r : Line × Exit) : Prop :=
  (∀ i ∈ r.1.stores, i < 512) ∧
    (r.2 ≠ .waiting → ∃ s, s.length < 512 ∧ HoldsString r.1.buf 0 s)

/-- There is room for each byte when it comes. -/
def Fits : (text input : List UInt8) → Prop
  | _, [] => True
  | text, byte :: input => text.length < 512 ∧ (EndsLine byte ∨ Fits (editKey text byte) input)

theorem exists_holdsString {b : Buf} {n : ℕ} : ∀ {a : ℕ}, b (a + n) = 0 →
    ∃ s, s.length ≤ n ∧ HoldsString b a s := by
  induction n with
  | zero => exact fun hz => ⟨[], le_rfl, hz⟩
  | succ n ih =>
    intro a hz
    by_cases ha : b a = 0
    · exact ⟨[], Nat.zero_le _, ha⟩
    · obtain ⟨s, hs, hstr⟩ := ih (a := a + 1) (by rwa [Nat.add_right_comm, Nat.add_assoc])
      exact ⟨b a :: s, Nat.succ_le_succ hs, rfl, ha, hstr⟩

theorem length_editKey_le (text : List UInt8) (byte : UInt8) :
    (editKey text byte).length ≤ text.length + 1 := by
  unfold editKey
  split_ifs
  all_goals
    simp
    try omega

theorem contained_readlineLoop_iff : ∀ {input text : List UInt8} {x : Line}, x.Holds text →
    text.length ≤ 512 → (∀ i ∈ x.stores, i < 512) →
    (Contained (readlineLoop 512 x input) ↔ Fits text input) := by
  intro input
  induction input with
  | nil => exact fun _ _ hst => iff_of_true ⟨hst, fun hw => absurd rfl hw⟩ trivial
  | cons byte input ih =>
    intro text x h hlen hst
    rw [readlineLoop, Fits]
    by_cases hpos : x.pos < 512
    · rw [if_neg (not_not.2 hpos), h.length]
      by_cases he : EndsLine byte
      · rw [if_pos he]
        refine iff_of_true ⟨fun i hi => ?_, fun _ => ?_⟩ ⟨hpos, .inl he⟩
        · rcases Line.stores_store hi with hi | hi
          · rcases Line.stores_store hi with hi | hi
            · exact hst i hi
            · exact hi.trans_lt hpos
          · exact hi.trans_lt hpos
        · obtain ⟨s, hs, hstr⟩ := exists_holdsString (b := ((x.store byte).store 0).buf)
            (a := 0) (n := x.pos) (by rw [Nat.zero_add]; exact update_self ..)
          exact ⟨s, hs.trans_lt hpos, hstr⟩
      · rw [if_neg he, ih (h.key byte) ?_ fun i hi => ?_]
        · exact ⟨fun hf => ⟨hpos, .inr hf⟩, fun hf => hf.2.resolve_left he⟩
        · have := length_editKey_le text byte
          have := h.length
          omega
        · exact (Line.stores_key hi).elim (hst i) fun hi => hi.trans_lt hpos
    · rw [if_pos hpos, h.length]
      refine iff_of_false (fun hc => ?_) fun hf => hpos hf.1
      exact hpos (hc.1 x.pos (List.mem_append_right _ (List.mem_singleton.2 rfl)))

/-- **Over-long lines are contained exactly if no byte comes in when the text has 512
characters.** -/
theorem contained_iff (buf : Buf) (input : List UInt8) :
    Contained (readline buf 512 input) ↔ Fits [] input :=
  contained_readlineLoop_iff holds_start (by simp)
    fun _ hi => absurd hi List.not_mem_nil

theorem not_fits_replicate {n : ℕ} : ∀ {text : List UInt8}, text.length + n = 512 →
    ¬ Fits text (List.replicate (n + 1) 97) := by
  induction n with
  | zero => exact fun hlen hf => absurd hf.1 hlen.ge.not_gt
  | succ n ih =>
    intro text hlen hf
    have hlen' : (text ++ [97]).length + n = 512 := by simp; omega
    exact ih hlen' (hf.2.resolve_left (by decide))

/-- The byte after 512 characters. -/
theorem not_contained_long : ¬ Contained (readline zero 512 (List.replicate 513 97)) := fun h =>
  not_fits_replicate rfl ((contained_readlineLoop_iff holds_start (by simp)
    fun _ hi => absurd hi List.not_mem_nil).1 h)

end Gardos.Shell
