import Gardos.Lib.Stdio

/-!
# Printing numbers (`lib/kernel/print.S`)

`put_int` prints a number in base 16. It fills a buffer of eight characters from the right, skips
the zeros at its start and sends the rest to `put_char`. `putInt_eq_itoa` says that these are the
characters of `itoa`.
-/

namespace Gardos.Kernel

open Bytes Function Lib

/-- The loop `.16based_4bits`, with `ecx` rounds to go. The index `edi` ends at -1. -/
def fillDigits : (ecx : ℕ) → (eax : UInt32) → (edi : ℤ) → Buf → Buf × ℤ
  | 0, _, edi, buf => (buf, edi)
  | ecx + 1, eax, edi, buf =>
    let edx := eax &&& 0xf
    let edx := if 9 < edx then edx - 10 + 65 else edx + 48
    fillDigits ecx (eax >>> 4) (edi - 1) (update buf edi.toNat edx.toUInt8)

/-- The loop `.skip_prefix_0`: the character and the index with which printing begins. -/
def skipPrefix0 (buf : Buf) (edi : ℕ) : UInt8 × ℕ :=
  if 8 ≤ edi then (48, edi)
  else if buf edi = 48 then skipPrefix0 buf (edi + 1)
  else (buf edi, edi)
termination_by 8 - edi

/-- The loop `.put_each_num`: the characters for `put_char`. -/
def putEachNum (buf : Buf) (cl : UInt8) (edi : ℕ) : List UInt8 :=
  cl :: if edi + 1 < 8 then putEachNum buf (buf (edi + 1)) (edi + 1) else []
termination_by 8 - edi

/-- `put_int`, with the buffer as the call before left it. -/
def putInt (buf : Buf) (value : UInt32) : List UInt8 :=
  let filled := fillDigits 8 value 7 buf
  let start := skipPrefix0 filled.1 (filled.2 + 1).toNat
  putEachNum filled.1 start.1 start.2

/-- `n` characters for the lowest `n` digits. -/
def padded : ℕ → ℕ → List UInt8
  | 0, _ => []
  | n + 1, value => padded n (value / 16) ++ [digitChar (value % 16)]

variable {buf : Buf} {edi : ℕ}

theorem digitChar_toUInt8 : ∀ d < 16, (if 9 < UInt32.ofNat d then UInt32.ofNat d - 10 + 65
    else UInt32.ofNat d + 48).toUInt8 = digitChar d := by
  decide

theorem fillDigits_eq (n : ℕ) : ∀ (eax : UInt32) (buf : Buf),
    (fillDigits n eax (n - 1) buf).2 = -1 ∧
    (∀ k, n ≤ k → (fillDigits n eax (n - 1) buf).1 k = buf k) ∧
    (List.range n).map (fillDigits n eax (n - 1) buf).1 = padded n eax.toNat := by
  induction n with
  | zero => exact fun eax buf => ⟨rfl, fun _ _ => rfl, rfl⟩
  | succ n ih =>
    intro eax buf
    have hlow : eax &&& 0xf = UInt32.ofNat (eax.toNat % 16) := by
      rw [← UInt32.toNat_inj, UInt32.toNat_and, UInt32.toNat_ofNat']
      exact (Nat.and_two_pow_sub_one_eq_mod _ 4).trans (by omega)
    have hhigh : (eax >>> 4).toNat = eax.toNat / 16 := by
      rw [UInt32.toNat_shiftRight, Nat.shiftRight_eq_div_pow]
      rfl
    have hedi : ((n + 1 : ℕ) : ℤ) - 1 = n := by omega
    obtain ⟨hneg, hkeep, hfill⟩ :=
      ih (eax >>> 4) (update buf n (digitChar (eax.toNat % 16)))
    rw [hedi, fillDigits, hlow, digitChar_toUInt8 _ (Nat.mod_lt _ (by decide)), Int.toNat_natCast]
    refine ⟨hneg, fun k hk => ?_, ?_⟩
    · rw [hkeep k (by omega), update_of_ne (by omega)]
    · rw [List.range_succ, List.map_append, hfill, hhigh, padded, List.map_singleton,
        hkeep n le_rfl, update_self]

theorem putEachNum_eq (hedi : edi < 8) :
    putEachNum buf (buf edi) edi = (List.range' edi (8 - edi)).map buf := by
  obtain ⟨n, hn⟩ : ∃ n, 8 - edi = n + 1 := ⟨7 - edi, by omega⟩
  induction n generalizing edi with
  | zero => rw [putEachNum, if_neg (by omega), hn]; rfl
  | succ n ih =>
    rw [putEachNum, if_pos (by omega), ih (by omega) (by omega), hn, List.range'_succ,
      show 8 - (edi + 1) = n + 1 by omega]
    rfl

/-- What is printed: the characters from the first that is not a zero on, and one zero if there is
none. -/
theorem putEachNum_skipPrefix0 (buf : Buf) (hedi : edi ≤ 8) :
    putEachNum buf (skipPrefix0 buf edi).1 (skipPrefix0 buf edi).2 =
      let cs := ((List.range' edi (8 - edi)).map buf).dropWhile (· = 48)
      if cs = [] then [48] else cs := by
  induction hedi using Nat.decreasingInduction with
  | self => simp [skipPrefix0, putEachNum]
  | of_succ k hk ih =>
    have hrange : List.range' k (8 - k) = k :: List.range' (k + 1) (8 - (k + 1)) := by
      rw [← List.range'_succ]
      congr 1
      omega
    rw [skipPrefix0, if_neg (not_le.2 hk), hrange, List.map_cons]
    by_cases hzero : buf k = 48
    · rw [if_pos hzero, List.dropWhile_cons_of_pos (by simpa using hzero)]
      exact ih
    · rw [if_neg hzero, List.dropWhile_cons_of_neg (by simpa using hzero), putEachNum_eq hk, hrange]
      rfl

theorem dropWhile_padded (n : ℕ) : ∀ {value : ℕ}, value < 16 ^ n →
    (padded n value).dropWhile (· = 48) = if value = 0 then [] else numeral 16 value := by
  have hzero : ∀ d < 16, digitChar d = 48 ↔ d = 0 := by decide
  induction n with
  | zero => simp [padded]
  | succ n ih =>
    intro value hlt
    have hquot := @ih (value / 16) (by rw [Nat.div_lt_iff_lt_mul (by decide)]; exact hlt)
    have hdigit := hzero (value % 16) (Nat.mod_lt _ (by decide))
    rw [padded, List.dropWhile_append, hquot]
    by_cases h : value / 16 = 0
    · have hv : value % 16 = 0 ↔ value = 0 := by omega
      rw [numeral_of_div_eq_zero (by decide) h, if_pos h]
      simp [hdigit, hv, List.dropWhile_cons]
    · have hv : value ≠ 0 := fun hv => h (by rw [hv])
      rw [if_neg h, if_neg hv, numeral_of_div_ne_zero (by decide) h, if_neg]
      simpa using numeral_ne_nil (by decide) _

theorem putInt_eq (buf : Buf) (value : UInt32) : putInt buf value = numeral 16 value.toNat := by
  obtain ⟨hneg, -, hfill⟩ := fillDigits_eq 8 value buf
  have hseven : ((8 : ℕ) : ℤ) - 1 = 7 := rfl
  rw [hseven] at hneg hfill
  have hprint := putEachNum_skipPrefix0 (fillDigits 8 value 7 buf).1 (Nat.zero_le 8)
  rw [← List.range_eq_range', Nat.sub_zero, hfill, dropWhile_padded 8 value.toNat_lt] at hprint
  have hstart : ((fillDigits 8 value 7 buf).2 + 1).toNat = 0 := by rw [hneg]; rfl
  unfold putInt
  dsimp only
  rw [hstart, hprint]
  by_cases h0 : value.toNat = 0
  · simp [h0, numeral, digitChar]
  · simp [h0, numeral_ne_nil]

/-- **The two printers agree**, and what they print is the one way to write the number. -/
theorem putInt_eq_itoa (buf : Buf) (value : UInt32) (o : Out) :
    itoa 16 (by decide) value.toNat o = o.puts (putInt buf value) ∧
    (∀ cs, Canonical 16 value.toNat cs ↔ cs = putInt buf value) ∧
    ∃ cs, itoa 10 (by decide) value.toNat o = o.puts cs ∧
      (∀ cs', Canonical 10 value.toNat cs' ↔ cs' = cs) ∧ readNumeral 10 cs = value.toNat := by
  rw [putInt_eq]
  exact ⟨itoa_eq _ _ o, canonical_iff (by decide) _, _, itoa_eq _ _ o, canonical_iff (by decide) _,
    readNumeral_numeral (by decide) (by decide) _⟩

end Gardos.Kernel
