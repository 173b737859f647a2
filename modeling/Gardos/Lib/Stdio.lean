import Gardos.Foundations.Strings
import Mathlib.Data.Nat.Digits.Lemmas

/-!
# Formatted output (`lib/stdio.c`)

`itoa` writes the digits of a number, the highest first, by writing those of the quotient before its
own. `itoa_eq` says that what it writes is the numeral of the number, which `IsNumeral` describes.

`vsprintf` writes the expansion of the format, but only `%s` puts a NUL behind what it writes:
`expands_iff` says that the result is right if the format ends with `%s`, or if the byte behind the
expansion was zero before.
-/

namespace Gardos.Lib

open Bytes Function Outcome

/-! ## Numerals -/

/-- The character of a digit. -/
def digitChar (m : ℕ) : UInt8 := if m < 10 then UInt8.ofNat (m + 48) else UInt8.ofNat (m - 10 + 65)

/-- The memory and the pointer at which the next character goes. -/
abbrev Out := Buf × ℕ

/-- `*(buf_ptr++) = c`. -/
def Out.put (o : Out) (c : UInt8) : Out := (update o.1 o.2 c, o.2 + 1)

theorem div_lt_self_of_ne_zero {base value : ℕ} (hb : 1 < base) (h : value / base ≠ 0) :
    value / base < value :=
  Nat.div_lt_self (Nat.pos_of_ne_zero fun h0 => h (by rw [h0, Nat.zero_div])) hb

/-- `itoa`. -/
def itoa (base : ℕ) (hb : 1 < base) (value : ℕ) (o : Out) : Out :=
  let o := if value / base ≠ 0 then itoa base hb (value / base) o else o
  o.put (digitChar (value % base))
termination_by value
decreasing_by exact div_lt_self_of_ne_zero hb ‹_›

/-- The numeral of a number: its digits without leading zeros, and one zero for zero. -/
def numeral (base value : ℕ) : List UInt8 :=
  if value = 0 then [digitChar 0] else (Nat.digits base value).reverse.map digitChar

/-- The digits `ds`, the highest first, stand for `value`, and only zero begins with a zero. -/
structure IsNumeral (base value : ℕ) (ds : List ℕ) : Prop where
  lt : ∀ d ∈ ds, d < base
  head : ds.head? ≠ some 0 ∨ ds = [0]
  ne_nil : ds ≠ []
  value : Nat.ofDigits base ds.reverse = value

/-- The digit of a character. -/
def charDigit (c : UInt8) : ℕ := if c < 65 then c.toNat - 48 else c.toNat - 55

/-- A numeral read back. -/
def readNumeral (base : ℕ) (cs : List UInt8) : ℕ :=
  cs.foldl (fun n c => n * base + charDigit c) 0

/-- The characters `cs` written at the pointer, one after the other. -/
def Out.puts (o : Out) (cs : List UInt8) : Out := cs.foldl Out.put o

variable {base value : ℕ} {o : Out}

theorem numeral_of_div_ne_zero (hb : 1 < base) (h : value / base ≠ 0) :
    numeral base value = numeral base (value / base) ++ [digitChar (value % base)] := by
  have h0 : value ≠ 0 := fun h0 => h (by rw [h0, Nat.zero_div])
  unfold numeral
  rw [if_neg h0, if_neg h, Nat.digits_def' hb (Nat.pos_of_ne_zero h0)]
  simp

theorem numeral_of_div_eq_zero (hb : 1 < base) (h : value / base = 0) :
    numeral base value = [digitChar (value % base)] := by
  unfold numeral
  split
  · next h0 => rw [h0, Nat.zero_mod]
  · next h0 => rw [Nat.digits_def' hb (Nat.pos_of_ne_zero h0), h, Nat.digits_zero]; rfl

theorem numeral_ne_nil (hb : 1 < base) (value : ℕ) : numeral base value ≠ [] := by
  by_cases h : value / base = 0
  · simp [numeral_of_div_eq_zero hb h]
  · simp [numeral_of_div_ne_zero hb h]

/-- **`itoa` writes the numeral.** -/
theorem itoa_eq (hb : 1 < base) (value : ℕ) (o : Out) :
    itoa base hb value o = o.puts (numeral base value) := by
  induction value using Nat.strong_induction_on with
  | _ value ih =>
    rw [itoa]
    by_cases h : value / base = 0
    · rw [numeral_of_div_eq_zero hb h, if_neg (not_not.2 h)]
      rfl
    · rw [numeral_of_div_ne_zero hb h, if_pos h, ih _ (div_lt_self_of_ne_zero hb h)]
      exact (List.foldl_concat ..).symm

/-- The characters of the digits `ds` that stand for the number. -/
def Canonical (base value : ℕ) (cs : List UInt8) : Prop :=
  ∃ ds, IsNumeral base value ds ∧ cs = ds.map digitChar

/-- **There is one way to write a number, and it is the numeral.** -/
theorem canonical_iff (hb : 1 < base) (value : ℕ) (cs : List UInt8) :
    Canonical base value cs ↔ cs = numeral base value := by
  have hne : value ≠ 0 → Nat.digits base value ≠ [] := Nat.digits_ne_nil_iff_ne_zero.2
  constructor
  · rintro ⟨ds, h, rfl⟩
    rcases h.head with hhead | rfl
    · have hdigits : Nat.digits base value = ds.reverse := by
        rw [← h.value]
        refine Nat.digits_ofDigits base hb _ (fun d hd => h.lt d (List.mem_reverse.1 hd))
          fun hne => ?_
        rw [List.getLast_reverse]
        exact fun h0 => hhead (by rw [List.head?_eq_some_head h.ne_nil, h0])
      have h0 : value ≠ 0 := fun h0 => h.ne_nil (by simpa [h0] using hdigits.symm)
      rw [numeral, if_neg h0, hdigits, List.reverse_reverse]
    · have h0 : value = 0 := by simpa using h.value.symm
      rw [numeral, if_pos h0]
      rfl
  · rintro rfl
    unfold numeral
    split
    · next h0 => exact ⟨[0], ⟨by simp; omega, .inr rfl, by simp, by simp [h0]⟩, rfl⟩
    · next h0 =>
      refine ⟨_, ⟨fun d hd => Nat.digits_lt_base hb (List.mem_reverse.1 hd), .inl ?_, by
        simpa using hne h0, by rw [List.reverse_reverse, Nat.ofDigits_digits]⟩, rfl⟩
      rw [List.head?_reverse, List.getLast?_eq_some_getLast (hne h0)]
      exact fun h => Nat.getLast_digit_ne_zero base h0 (Option.some.inj h)

theorem charDigit_digitChar : ∀ d < 16, charDigit (digitChar d) = d := by decide

/-- A numeral in base 10 or 16 read back. -/
theorem readNumeral_numeral (hb : 1 < base) (h16 : base ≤ 16) (value : ℕ) :
    readNumeral base (numeral base value) = value := by
  induction value using Nat.strong_induction_on with
  | _ value ih =>
    have hdigit : charDigit (digitChar (value % base)) = value % base :=
      charDigit_digitChar _ ((Nat.mod_lt _ (by omega)).trans_le h16)
    by_cases h : value / base = 0
    · rw [numeral_of_div_eq_zero hb h]
      simpa [readNumeral, hdigit, h] using Nat.mod_add_div value base
    · have hquot := ih _ (div_lt_self_of_ne_zero hb h)
      rw [readNumeral] at hquot
      rw [numeral_of_div_ne_zero hb h, readNumeral, List.foldl_concat, hdigit, hquot]
      exact Nat.div_add_mod' value base

/-! ## Conversions -/

/-- A variable argument: a word, or a pointer to a string outside of the buffer. -/
inductive Arg
  | word (value : UInt32)
  | string (s : List UInt8)

/-- `strcpy(buf_ptr, arg_str)`, which copies the NUL too; `buf_ptr` is left on it. -/
def Out.strcpy (o : Out) (s : List UInt8) : Out := (((o.puts s).put 0).1, (o.puts s).2)

/-- `%d`. The difference wraps around for the least number, which `itoa` takes as an unsigned
one. -/
def Out.putDecimal (o : Out) (argInt : Int32) : Out :=
  if argInt < 0 then itoa 10 (by decide) (0 - argInt).toUInt32.toNat (o.put 45)
  else itoa 10 (by decide) argInt.toUInt32.toNat o

/-- A case of the `switch`, for an argument of the right kind. -/
def Out.convert (o : Out) (indexChar : UInt8) : Arg → Option Out
  | .string s => if indexChar = 115 then some (o.strcpy s) else none
  | .word value =>
    if indexChar = 99 then some (o.put value.toUInt8)
    else if indexChar = 100 then some (o.putDecimal value.toInt32)
    else if indexChar = 120 then some (itoa 16 (by decide) value.toNat o)
    else none

/-- The loop of `vsprintf`, over the characters before the NUL of the format. A character behind `%`
that is no conversion is taken as an ordinary one. -/
def vsprintfLoop : (format : List UInt8) → List Arg → Out → Outcome Out
  | [], _, o => return o
  | indexChar :: format, ap, o =>
    if indexChar ≠ 37 then vsprintfLoop format ap (o.put indexChar)
    else match format with
      | [] => return o
      | indexChar :: rest =>
        if indexChar ∈ ([115, 99, 100, 120] : List UInt8) then
          match ap with
          | [] => throw .fault
          | arg :: ap =>
            match o.convert indexChar arg with
            | none => throw .fault
            | some o => vsprintfLoop rest ap o
        else vsprintfLoop (indexChar :: rest) ap o

/-- `vsprintf`: the length that `strlen` finds at the end, and the buffer. -/
def vsprintf (fuel : ℕ) (str : Buf) (format : List UInt8) (ap : List Arg) : Outcome (ℕ × Buf) := do
  let o ← vsprintfLoop format ap (str, 0)
  let p ← scan (· ≠ 0) o.1 fuel 0
  return (p, o.1)

/-! ## Expansions -/

/-- A piece of a format with its argument. -/
inductive Item
  | ordinary (c : UInt8)
  | string (s : List UInt8)
  | char (value : UInt32)
  | decimal (value : UInt32)
  | hex (value : UInt32)

namespace Item

def format : Item → List UInt8
  | .ordinary c => [c]
  | .string _ => [37, 115]
  | .char _ => [37, 99]
  | .decimal _ => [37, 100]
  | .hex _ => [37, 120]

def args : Item → List Arg
  | .ordinary _ => []
  | .string s => [.string s]
  | .char value | .decimal value | .hex value => [.word value]

/-- What the item stands for: a decimal number with a sign if it is negative. -/
def expansion : Item → List UInt8
  | .ordinary c => [c]
  | .string s => s
  | .char value => [value.toUInt8]
  | .decimal value => (if value.toInt32 < 0 then [45] else []) ++
      numeral 10 value.toInt32.toInt.natAbs
  | .hex value => numeral 16 value.toNat

/-- No character of the item is a NUL. -/
def Ok : Item → Prop
  | .ordinary c => c ≠ 37 ∧ c ≠ 0
  | .string s => 0 ∉ s
  | .char value => value.toUInt8 ≠ 0
  | .decimal _ | .hex _ => True

def isString : Item → Bool
  | .string _ => true
  | _ => false

end Item

/-- The buffer `b` with the characters `cs` at its start, and a NUL behind them. -/
def written (b : Buf) (cs : List UInt8) (nul : Bool) : Buf := fun i =>
  (cs[i]?).getD (if nul ∧ i = cs.length then 0 else b i)

variable {b : Buf} {cs : List UInt8} {nul : Bool} {items : List Item}

theorem written_nil : written b [] false = b := by
  funext i
  simp [written]

theorem written_length : written b cs nul cs.length = if nul then 0 else b cs.length := by
  simp [written]

theorem put_written (c : UInt8) : Out.put (written b cs nul, cs.length) c =
    (written b (cs ++ [c]) false, (cs ++ [c]).length) := by
  refine Prod.ext (funext fun i => ?_) (by simp [Out.put])
  change update (written b cs nul) cs.length c i = written b (cs ++ [c]) false i
  rcases lt_trichotomy i cs.length with h | rfl | h
  · rw [update_of_ne h.ne]
    simp [written, h, List.getElem?_append_left h]
  · rw [update_self]
    simp [written]
  · rw [update_of_ne h.ne', written, written, List.getElem?_eq_none h.le,
      List.getElem?_eq_none (by simpa using h), if_neg fun hc => h.ne' hc.2, if_neg (by simp)]

theorem puts_written (ds : List UInt8) : Out.puts (written b cs nul, cs.length) ds =
    (written b (cs ++ ds) (nul && ds.isEmpty), (cs ++ ds).length) := by
  induction ds generalizing cs nul with
  | nil => simp [Out.puts]
  | cons d ds ih =>
    rw [Out.puts, List.foldl_cons, put_written]
    refine ih.trans ?_
    simp

theorem strcpy_written (s : List UInt8) : Out.strcpy (written b cs nul, cs.length) s =
    (written b (cs ++ s) true, (cs ++ s).length) := by
  unfold Out.strcpy
  rw [puts_written]
  refine Prod.ext (funext fun i => ?_) rfl
  change update (written b (cs ++ s) _) (cs ++ s).length 0 i = written b (cs ++ s) true i
  by_cases h : i = (cs ++ s).length
  · rw [h, update_self, written_length, if_pos rfl]
  · rw [update_of_ne h, written, written, if_neg fun hc => h hc.2, if_neg fun hc => h hc.2]

theorem natAbs_toInt (value : UInt32) : (if value.toInt32 < 0 then (0 - value.toInt32).toUInt32
    else value.toInt32.toUInt32).toNat = value.toInt32.toInt.natAbs := by
  have hlt := value.toNat_lt
  have hint : value.toInt32.toInt = if 2 * value.toNat < 4294967296 then (value.toNat : ℤ)
      else value.toNat - 4294967296 := BitVec.toInt_eq_toNat_cond value.toBitVec
  have hneg : value.toInt32 < 0 ↔ value.toInt32.toInt < 0 := Int32.lt_iff_toInt_lt
  split
  · next h =>
    have hsub : (0 - value.toInt32).toUInt32.toNat = (4294967296 - value.toNat) % 4294967296 :=
      UInt32.toNat_sub 0 value
    rw [hneg] at h
    omega
  · next h =>
    rw [hneg] at h
    change value.toNat = _
    omega

/-- One round of `vsprintf` writes the expansion of an item. -/
theorem vsprintfLoop_item {item : Item} (hok : item.Ok) (format : List UInt8) (ap : List Arg) :
    vsprintfLoop (item.format ++ format) (item.args ++ ap) (written b cs nul, cs.length) =
      vsprintfLoop format ap (written b (cs ++ item.expansion) item.isString,
        (cs ++ item.expansion).length) := by
  have hnum : ∀ base value, (hb : 1 < base) → (numeral base value).isEmpty = false :=
    fun base value hb => List.isEmpty_eq_false_iff.2 (numeral_ne_nil hb value)
  cases item with
  | ordinary c =>
    rw [Item.format, List.singleton_append, vsprintfLoop.eq_def]
    refine (if_pos hok.1).trans ?_
    rw [put_written]
    rfl
  | string s => exact congrArg (vsprintfLoop format ap) (strcpy_written s)
  | char value => exact congrArg (vsprintfLoop format ap) (put_written value.toUInt8)
  | decimal value =>
    change vsprintfLoop format ap (Out.putDecimal (written b cs nul, cs.length) value.toInt32) = _
    have habs := natAbs_toInt value
    unfold Out.putDecimal
    rw [Item.expansion]
    split at habs
    · next h =>
      rw [if_pos h, if_pos h, put_written, itoa_eq, puts_written, habs, hnum _ _ (by decide)]
      simp [Item.isString]
    · next h =>
      rw [if_neg h, if_neg h, itoa_eq, puts_written, habs, hnum _ _ (by decide)]
      simp [Item.isString]
  | hex value =>
    change vsprintfLoop format ap (itoa 16 _ value.toNat (written b cs nul, cs.length)) = _
    rw [itoa_eq, puts_written, hnum _ _ (by decide), Bool.and_false]
    rfl

/-- What the items stand for. -/
def expansion (items : List Item) : List UInt8 := items.flatMap Item.expansion

/-- **The loop of `vsprintf`** writes the expansion; a NUL stands behind it if the last item is a
string. -/
theorem vsprintfLoop_eq (hok : ∀ item ∈ items, item.Ok) :
    vsprintfLoop (items.flatMap Item.format) (items.flatMap Item.args)
        (written b cs nul, cs.length) =
      .ok (written b (cs ++ expansion items) ((items.getLast?.map Item.isString).getD nul),
        (cs ++ expansion items).length) := by
  induction items generalizing cs nul with
  | nil => simp [vsprintfLoop, expansion]
  | cons item items ih =>
    rw [List.flatMap_cons, List.flatMap_cons, vsprintfLoop_item (hok _ List.mem_cons_self),
      ih fun item h => hok item (List.mem_cons_of_mem _ h)]
    rw [List.getLast?_cons]
    cases h : items.getLast? <;> simp [expansion]

/-- `vsprintf` leaves the expansion as a string in the buffer, and returns its length. -/
def Expands (b : Buf) (items : List Item) : Prop :=
  ∃ fuel b', vsprintf fuel b (items.flatMap Item.format) (items.flatMap Item.args) =
    .ok ((expansion items).length, b') ∧ HoldsString b' 0 (expansion items)

theorem holdsString_written {s : List UInt8} (h0 : 0 ∉ s)
    (hnul : written b (cs ++ s) nul (cs ++ s).length = 0) :
    HoldsString (written b (cs ++ s) nul) cs.length s := by
  induction s generalizing cs with
  | nil =>
    rw [List.append_nil] at hnul ⊢
    exact hnul
  | cons c s ih =>
    obtain ⟨hc, h0⟩ := not_or.1 (List.mem_cons.not.1 h0)
    refine ⟨by simp [written], Ne.symm hc, ?_⟩
    have hs := @ih (cs ++ [c]) h0 (by simpa using hnul)
    simpa using hs

/-- No character of a numeral is a NUL or a sign. -/
theorem ne_of_mem_numeral (hb : 1 < base) (h16 : base ≤ 16) {c : UInt8}
    (hc : c ∈ numeral base value) : c ≠ 0 ∧ c ≠ 45 := by
  have hchar : ∀ d < 16, digitChar d ≠ 0 ∧ digitChar d ≠ 45 := by decide
  unfold numeral at hc
  split at hc
  · rw [List.mem_singleton.1 hc]
    exact hchar 0 (by omega)
  · obtain ⟨d, hd, rfl⟩ := List.mem_map.1 hc
    exact hchar d ((Nat.digits_lt_base hb (List.mem_reverse.1 hd)).trans_le h16)

theorem Item.Ok.zero_notMem {item : Item} (h : item.Ok) : 0 ∉ item.expansion := by
  cases item with
  | ordinary c => exact fun h0 => h.2 (List.mem_singleton.1 h0).symm
  | string s => exact h
  | char value => exact fun h0 => h (List.mem_singleton.1 h0).symm
  | decimal value =>
    intro h0
    rcases List.mem_append.1 h0 with h0 | h0
    · split at h0 <;> simp at h0
    · exact (ne_of_mem_numeral (by decide) (by decide) h0).1 rfl
  | hex value => exact fun h0 => (ne_of_mem_numeral (by decide) (by decide) h0).1 rfl

theorem expands_iff_nul (hok : ∀ item ∈ items, item.Ok) : Expands b items ↔
    (items.getLast?.map Item.isString).getD false = true ∨ b (expansion items).length = 0 := by
  have hloop := @vsprintfLoop_eq b [] false items hok
  rw [written_nil, List.nil_append, List.length_nil] at hloop
  set w := written b (expansion items) ((items.getLast?.map Item.isString).getD false) with hw
  have hnul : w (expansion items).length = 0 ↔
      (items.getLast?.map Item.isString).getD false = true ∨ b (expansion items).length = 0 := by
    rw [hw, written_length]
    split <;> simp_all
  rw [← hnul]
  constructor
  · rintro ⟨fuel, b', hrun, hs⟩
    unfold vsprintf at hrun
    rw [hloop, ok_bind] at hrun
    obtain ⟨p, -, -, rfl⟩ := bind_pair_eq_ok hrun
    simpa using hs.apply_length
  · intro h
    have h0 : 0 ∉ expansion items := fun h0 => by
      obtain ⟨item, hitem, h0⟩ := List.mem_flatMap.1 h0
      exact (hok item hitem).zero_notMem h0
    have hs : HoldsString w 0 (expansion items) :=
      @holdsString_written b [] _ _ h0 h
    refine ⟨(expansion items).length + 1, w, ?_, hs⟩
    unfold vsprintf
    have hall : (expansion items).takeWhile (· ≠ 0) = expansion items :=
      List.takeWhile_eq_self_iff.2 fun c hc => decide_eq_true fun hc0 => h0 (hc0 ▸ hc)
    have hlen := (hs.scan_eq (p := (· ≠ 0)) (by decide) (Nat.lt_succ_self _)).1
    rw [hall, Nat.zero_add] at hlen
    rw [hloop, ok_bind, hlen]
    rfl

/-- A decimal number read back. -/
def readDecimal (cs : List UInt8) : ℤ :=
  if cs.head? = some 45 then -(readNumeral 10 cs.tail : ℤ) else readNumeral 10 cs

theorem readDecimal_expansion (value : UInt32) :
    readDecimal (Item.decimal value).expansion = value.toInt32.toInt := by
  have hten : 1 < 10 ∧ 10 ≤ 16 := by decide
  have hread := readNumeral_numeral hten.1 hten.2 value.toInt32.toInt.natAbs
  have hneg : value.toInt32 < 0 ↔ value.toInt32.toInt < 0 := Int32.lt_iff_toInt_lt
  rw [Item.expansion]
  split
  · next h =>
    rw [hneg] at h
    rw [List.singleton_append, readDecimal, if_pos (List.head?_cons ..), List.tail_cons, hread]
    omega
  · next h =>
    rw [hneg] at h
    have hhead : (numeral 10 value.toInt32.toInt.natAbs).head? ≠ some 45 := fun hc =>
      (ne_of_mem_numeral hten.1 hten.2 (List.mem_of_mem_head? hc)).2 rfl
    rw [List.nil_append, readDecimal, if_neg hhead, hread]
    omega

/-- **Formatted output is a string** if the format ends with `%s`, or if the byte behind the
expansion was a NUL before. What `%d` writes reads back as the number. -/
theorem expands_iff (b : Buf) (items : List Item) (hok : ∀ item ∈ items, item.Ok) :
    (Expands b items ↔ (∃ s, items.getLast? = some (.string s)) ∨ b (expansion items).length = 0) ∧
    ∀ value : UInt32, readDecimal (Item.decimal value).expansion = value.toInt32.toInt := by
  refine ⟨?_, readDecimal_expansion⟩
  rw [expands_iff_nul hok]
  refine or_congr_left ?_
  cases items.getLast? with
  | none => simp
  | some item => cases item <;> simp [Item.isString]

/-- `"a%s"` in a buffer without a NUL. -/
theorem expands_string :
    Expands (fun _ => 120) [.ordinary 97, .string [98]] :=
  (expands_iff (fun _ => 120) [.ordinary 97, .string [98]] (by simp [Item.Ok])).1.2
    (Or.inl ⟨[98], rfl⟩)

/-- The string `"xxx"`. -/
def oldText : Buf := fun i => if i < 3 then 120 else 0

/-- `sprintf(buf, "a")` into a buffer with an old string leaves `"axx"` there, and returns 3. -/
theorem not_expands_oldText : ¬ Expands oldText [.ordinary 97] ∧
    ∃ b, vsprintf 4 oldText [97] [] = .ok (3, b) ∧ HoldsString b 0 [97, 120, 120] := by
  constructor
  · rw [expands_iff_nul (by simp [Item.Ok])]
    decide
  · exact ⟨_, rfl, by decide⟩

end Gardos.Lib
