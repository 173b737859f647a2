import Gardos.Foundations.Outcome
import Mathlib.Tactic

/-!
# The timer (`device/timer.c`)

`timer_init` programs the counter 0 of the 8253 with 11931, so that an interrupt should come 100
times a second, and `mtime_sleep` counts these interrupts in steps of ten milliseconds.

`frequency_set` casts the counter value to a byte before it shifts the high byte down, so the high
byte it sends is always 0. The counter that `timer_init` leaves in the chip is 155, and the ticks
come 77 times as fast. `sleep_iff` says for which counter values the bytes are right, and that no
sleep is long enough, as it would be with the value that `timer_init` means to set.
-/

namespace Gardos.Device

open Outcome

/-- `INPUT_FREQUENCY`. -/
def inputFrequency : ℕ := 1193180

/-- `COUNTER0_VALUE`. -/
def counter0Value : UInt16 := UInt16.ofNat (inputFrequency / 100)

/-- `frequency_set`: the bytes it sends, each with its port. The operands are promoted to `int`, so
nothing is cut before the cast to a byte. -/
def frequencySet (counterPort counterNo rwl counterMode : UInt8) (counterValue : UInt16) :
    List (UInt8 × UInt8) :=
  [(0x43, (counterNo.toUInt32 <<< 6 ||| rwl.toUInt32 <<< 4 ||| counterMode.toUInt32 <<< 1).toUInt8),
    (counterPort, counterValue.toUInt8),
    (counterPort, (counterValue.toUInt8.toUInt32 >>> 8).toUInt8)]

/-- `timer_init`. -/
def timerInit : List (UInt8 × UInt8) := frequencySet 0x40 0 3 2 counter0Value

/-- The counter in the chip: behind the control word come the low and the high byte. -/
def counterOf : List (UInt8 × UInt8) → ℕ
  | [_, low, high] => low.2.toNat + 256 * high.2.toNat
  | _ => 0

/-- The loop of `ticks_to_sleep`, given the ticks that have passed in each of its rounds. The global
counter is then `startTick` and these ticks, cut to 32 bits. The result is how many had passed when
the loop ended. -/
def ticksToSleep (startTick sleepTicks : UInt32) : (passed : List ℕ) → Option ℕ
  | [] => none
  | n :: passed =>
    if startTick + UInt32.ofNat n - startTick < sleepTicks then
      ticksToSleep startTick sleepTicks passed
    else some n

/-- `mtime_sleep`. -/
def mtimeSleep (startTick mSeconds : UInt32) (passed : List ℕ) : Outcome (Option ℕ) := do
  let sleepTicks := (mSeconds + 10 - 1) / 10
  assert (0 < sleepTicks)
  return ticksToSleep startTick sleepTicks passed

/-- `n` periods of the counter are at least 99 percent of `mSeconds` milliseconds. -/
def LongEnough (counter n mSeconds : ℕ) : Prop :=
  99 * mSeconds * inputFrequency ≤ n * counter * 1000 * 100

variable {startTick sleepTicks mSeconds : UInt32} {passed : List ℕ} {n : ℕ}

/-- The counter that wraps does not matter, since the difference wraps as well. -/
theorem startTick_add_sub : startTick + UInt32.ofNat n - startTick = UInt32.ofNat n := by
  grind

theorem not_lt_of_ticksToSleep (h : ticksToSleep startTick sleepTicks passed = some n) :
    sleepTicks.toNat ≤ n := by
  induction passed with
  | nil => simp [ticksToSleep] at h
  | cons k passed ih =>
    rw [ticksToSleep, startTick_add_sub] at h
    split at h
    · exact ih h
    · next hge =>
      obtain rfl := Option.some.inj h
      rw [UInt32.lt_iff_toNat_lt, UInt32.toNat_ofNat', not_lt] at hge
      exact hge.trans (Nat.mod_le _ _)

theorem ticksToSleep_range' {k : ℕ} (hk : k ≤ sleepTicks.toNat) :
    ticksToSleep startTick sleepTicks (List.range' k (sleepTicks.toNat + 1 - k)) =
      some sleepTicks.toNat := by
  induction hk using Nat.decreasingInduction with
  | self =>
    have hself : UInt32.ofNat sleepTicks.toNat = sleepTicks := UInt32.ofNat_toNat
    rw [Nat.add_sub_cancel_left, List.range'_one, ticksToSleep, startTick_add_sub, hself,
      if_neg (UInt32.lt_irrefl _)]
  | of_succ k hk ih =>
    have hlt : UInt32.ofNat k < sleepTicks := by
      rw [UInt32.lt_iff_toNat_lt, UInt32.toNat_ofNat',
        Nat.mod_eq_of_lt (hk.trans sleepTicks.toNat_lt)]
      exact hk
    rw [Nat.succ_sub hk.le, List.range'_succ, ticksToSleep, startTick_add_sub, if_pos hlt]
    rwa [Nat.add_sub_add_right] at ih

theorem toNat_sleepTicks (h : mSeconds.toNat + 9 < 4294967296) :
    ((mSeconds + 10 - 1) / 10).toNat = (mSeconds.toNat + 9) / 10 := by
  have hadd : mSeconds + 10 - 1 = mSeconds + 9 := by grind
  rw [hadd, UInt32.toNat_div, UInt32.toNat_add]
  exact congrArg (· / 10) (Nat.mod_eq_of_lt h)

/-- The ticks that `mtime_sleep` waits for. -/
theorem mtimeSleep_eq (hm : 1 ≤ mSeconds.toNat) (h : mSeconds.toNat + 9 < 4294967296) :
    mtimeSleep startTick mSeconds passed =
      .ok (ticksToSleep startTick ((mSeconds + 10 - 1) / 10) passed) := by
  have hpos : 0 < (mSeconds + 10 - 1) / 10 := by
    rw [UInt32.lt_iff_toNat_lt, toNat_sleepTicks h]
    change 0 < _
    omega
  exact bind_eq_ok.2 ⟨(), assert_eq_ok.2 hpos, rfl⟩

theorem counterOf_frequencySet (port no rwl mode : UInt8) (v : UInt16) :
    counterOf (frequencySet port no rwl mode v) = v.toNat % 256 := by
  simp only [counterOf, frequencySet, UInt32.toNat_toUInt8, UInt32.toNat_shiftRight,
    UInt8.toNat_toUInt32, UInt16.toNat_toUInt8, Nat.shiftRight_eq_div_pow]
  change v.toNat % 256 + 256 * (v.toNat % 256 / 256 % 256) = v.toNat % 256
  omega

/-- **A counter value decodes to itself if it has one byte only.** A sleep of `mSeconds`
milliseconds, which ends after `n` ticks at the earliest, would be long enough with the counter that
`timer_init` means to set, and is not with the one that it sets. -/
theorem sleep_iff (port no rwl mode : UInt8) (v : UInt16) (startTick mSeconds : UInt32)
    (hm : 1 ≤ mSeconds.toNat) (h : mSeconds.toNat + 9 < 4294967296) :
    (counterOf (frequencySet port no rwl mode v) = v.toNat ↔ v.toNat < 256) ∧
    ∃ n, mtimeSleep startTick mSeconds (List.range (n + 1)) = .ok (some n) ∧
      (∀ passed k, mtimeSleep startTick mSeconds passed = .ok (some k) → n ≤ k) ∧
      LongEnough counter0Value.toNat n mSeconds.toNat ∧
      ¬ LongEnough (counterOf timerInit) n mSeconds.toNat := by
  have hticks := toNat_sleepTicks h
  refine ⟨?_, (mSeconds.toNat + 9) / 10, ?_, fun passed k hrun => ?_, ?_, ?_⟩
  · rw [counterOf_frequencySet]
    omega
  · rw [mtimeSleep_eq hm h, ← hticks, List.range_eq_range']
    exact congrArg _ (ticksToSleep_range' (Nat.zero_le _))
  · rw [mtimeSleep_eq hm h] at hrun
    rw [← hticks]
    exact not_lt_of_ticksToSleep (Except.ok.inj hrun)
  · rw [show counter0Value.toNat = 11931 by decide]
    unfold LongEnough inputFrequency
    omega
  · rw [show counterOf timerInit = 155 by decide]
    unfold LongEnough inputFrequency
    omega

theorem sleep_iff_second : 1 ≤ (1000 : UInt32).toNat ∧
    ∃ n, mtimeSleep 4294967290 1000 (List.range (n + 1)) = .ok (some n) :=
  ⟨by decide, (sleep_iff 0x40 0 3 2 11931 4294967290 1000 (by decide) (by decide)).2.imp
    fun _ h => h.1⟩

/-- A sleep of a second, during which the tick counter wraps, ends after 100 ticks, which are 13
milliseconds. -/
theorem short_second : counterOf timerInit ≠ counter0Value.toNat ∧
    mtimeSleep 4294967290 1000 (List.range 101) = .ok (some 100) ∧
    ¬ LongEnough (counterOf timerInit) 100 1000 := by
  refine ⟨by decide, by decide +kernel, ?_⟩
  unfold LongEnough
  decide

end Gardos.Device
