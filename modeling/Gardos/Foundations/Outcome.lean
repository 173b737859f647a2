import Mathlib.Data.Nat.Notation
import Mathlib.Logic.Basic
import Mathlib.Logic.Relation

/-!
# Computations that can stop, and runs of a system

Kernel code that runs into trouble does not raise an exception. It stops: an assertion prints a
message and spins, an access through a bad pointer faults, a loop never ends. `Outcome` has these
as errors, and `bind_eq_ok` takes a run that did return apart, one call at a time. A closed run can
also be evaluated (`holds`).

A system is a type of states with a step relation, and a run is a chain of steps
(`Relation.ReflTransGen`). An invariant is shown for one step, and then holds along every run
(`reach_invariant`). A run on fixed inputs is computed by `runAll` (`reach_of_runAll`).
-/

namespace Gardos

/-- The ways in which a computation stops without a result. -/
inductive Stop
  /-- A failed assertion. -/
  | assert
  /-- An access outside the object it is meant for. -/
  | fault
  /-- A loop that never ends. -/
  | hang
  deriving DecidableEq, Repr

/-- A computation with a result in `α`, unless it stops. -/
abbrev Outcome (α : Type) := Except Stop α

namespace Outcome

/-- `ASSERT`. -/
def assert (c : Prop) [Decidable c] : Outcome Unit := if c then .ok () else .error .assert

/-- Stop with a fault unless `c`. -/
def access (c : Prop) [Decidable c] : Outcome Unit := if c then .ok () else .error .fault

variable {α β γ : Type}

@[simp] theorem bind_eq_ok {x : Outcome α} {f : α → Outcome β} {b : β} :
    x >>= f = .ok b ↔ ∃ a, x = .ok a ∧ f a = .ok b := by
  cases x with
  | error e => simp [bind, Except.bind]
  | ok a => simp [bind, Except.bind]

@[simp] theorem pure_eq_ok {a b : α} : (pure a : Outcome α) = .ok b ↔ a = b := by
  simp [pure, Except.pure]

@[simp] theorem assert_eq_ok {c : Prop} [Decidable c] {u : Unit} : assert c = .ok u ↔ c := by
  unfold assert
  split <;> simp [*]

@[simp] theorem access_eq_ok {c : Prop} [Decidable c] {u : Unit} : access c = .ok u ↔ c := by
  unfold access
  split <;> simp [*]

theorem ok_pair {a c : α} {b d : β} (h : (.ok (a, b) : Outcome (α × β)) = .ok (c, d)) :
    a = c ∧ b = d :=
  Prod.mk.inj (Except.ok.inj h)

theorem ok_triple {a a' : α} {b b' : β} {c c' : γ}
    (h : (.ok (a, b, c) : Outcome (α × β × γ)) = .ok (a', b', c')) : a = a' ∧ b = b' ∧ c = c' :=
  ⟨(ok_pair h).1, Prod.mk.inj (ok_pair h).2⟩

theorem ok_quad {δ : Type} {a a' : α} {b b' : β} {c c' : γ} {d d' : δ}
    (h : (.ok (a, b, c, d) : Outcome (α × β × γ × δ)) = .ok (a', b', c', d')) :
    a = a' ∧ b = b' ∧ c = c' ∧ d = d' := by
  simpa only [Prod.mk.injEq] using Except.ok.inj h

/-- A call that returns a pair made from the result of another call. -/
theorem bind_pair_eq_ok {x : Outcome α} {f : α → β} {g : α → γ} {b : β} {c : γ}
    (h : (x >>= fun a => .ok (f a, g a)) = .ok (b, c)) : ∃ a, x = .ok a ∧ f a = b ∧ g a = c := by
  obtain ⟨a, ha, h⟩ := bind_eq_ok.1 h
  exact ⟨a, ha, ok_pair h⟩

theorem ok_bind (a : α) (f : α → Outcome β) : ((.ok a : Outcome α) >>= f) = f a := rfl

theorem map_eq_error {o : Outcome α} {f : α → β} {e : Stop} :
    o.map f = .error e ↔ o = .error e := by
  cases o with
  | ok a => exact iff_of_false (fun h => by cases h) (fun h => by cases h)
  | error e' =>
    exact ⟨fun h => congrArg _ (Except.error.inj h), fun h => congrArg _ (Except.error.inj h)⟩

/-- Whether the computation returns a value with the property `f`. -/
def holds (o : Outcome α) (f : α → Bool) : Bool :=
  match o with
  | .ok a => f a
  | .error _ => false

theorem exists_of_holds {o : Outcome α} {f : α → Bool} (h : holds o f = true) :
    ∃ a, o = .ok a ∧ f a = true := by
  cases o with
  | ok a => exact ⟨a, rfl, h⟩
  | error e => cases h

end Outcome

/-! ## Runs -/

variable {σ : Type*} {step : σ → σ → Prop} {x y : σ}

/-- **The invariant rule.** -/
theorem reach_invariant {I : σ → Prop} (hrun : Relation.ReflTransGen step x y) (h0 : I x)
    (hstep : ∀ {x y}, I x → step x y → I y) : I y := by
  induction hrun with
  | refl => exact h0
  | tail _ hxy ih => exact hstep ih hxy

/-- A run of `n` steps. -/
inductive RunIn (step : σ → σ → Prop) : ℕ → σ → σ → Prop
  | refl (x : σ) : RunIn step 0 x x
  | head {n : ℕ} {x y z : σ} (hxy : step x y) (hyz : RunIn step n y z) : RunIn step (n + 1) x z

theorem RunIn.reach {n : ℕ} (h : RunIn step n x y) : Relation.ReflTransGen step x y := by
  induction h with
  | refl x => exact .refl
  | head hxy _ ih => exact .head hxy ih

/-- The invariant rule, with the number of steps. -/
theorem RunIn.invariant {I : ℕ → σ → Prop} {n : ℕ} (hrun : RunIn step n x y)
    (hstep : ∀ {k x y}, I k x → step x y → I (k + 1) y) : ∀ {k}, I k x → I (k + n) y := by
  induction hrun with
  | refl x => exact fun h => h
  | @head n x y z hxy _ ih =>
    intro k h
    rw [← Nat.add_assoc, Nat.add_right_comm]
    exact ih (hstep h hxy)

section RunAll

open Outcome

variable {σ α : Type} {step : σ → σ → Prop} {x y : σ} {check : σ → α → Bool}
  {exec : σ → α → Outcome σ}

/-- The steps one after another, each with the test `check` before it. -/
def runAll (check : σ → α → Bool) (exec : σ → α → Outcome σ) (x : σ) : List α → Outcome σ
  | [] => pure x
  | a :: as => do
    assert (check x a = true)
    let x ← exec x a
    runAll check exec x as

theorem runIn_of_runAll (hstep : ∀ {x x' a}, check x a = true → exec x a = .ok x' → step x x')
    {as : List α} (h : runAll check exec x as = .ok y) : RunIn step as.length x y := by
  induction as generalizing x with
  | nil => exact pure_eq_ok.1 h ▸ .refl x
  | cons a as ih =>
    obtain ⟨_, hc, h⟩ := bind_eq_ok.1 h
    obtain ⟨z, hz, h⟩ := bind_eq_ok.1 h
    exact .head (hstep (assert_eq_ok.1 hc) hz) (ih h)

theorem reach_of_runAll (hstep : ∀ {x x' a}, check x a = true → exec x a = .ok x' → step x x')
    {as : List α} (h : runAll check exec x as = .ok y) : Relation.ReflTransGen step x y :=
  (@runIn_of_runAll σ α step x y check exec hstep as h).reach

/-- The tests do not change a run. -/
theorem runAll_unchecked {as : List α} (h : runAll check exec x as = .ok y) :
    runAll (fun _ _ => true) exec x as = .ok y := by
  induction as generalizing x with
  | nil => exact h
  | cons a as ih =>
    obtain ⟨_, -, h⟩ := bind_eq_ok.1 h
    obtain ⟨z, hz, h⟩ := bind_eq_ok.1 h
    exact bind_eq_ok.2 ⟨(), rfl, bind_eq_ok.2 ⟨z, hz, ih h⟩⟩

end RunAll

end Gardos
