import Mathlib.Algebra.Order.Ring.Int
import Mathlib.Tactic.Common

/-!
# Runs of a transition function

A run applies a list of events to a state. A condition on single steps extends to
runs, and what every allowed step keeps holds after every allowed run.
-/

namespace Runs

variable {σ ε : Type*} (step : σ → ε → σ) (cond : σ → ε → Prop)

/-- Every step of the run from `s` meets the condition. -/
def Each : σ → List ε → Prop
  | _, [] => True
  | s, e :: es => cond s e ∧ Each (step s e) es

variable {step cond}

theorem invariant {P : σ → Prop} (hstep : ∀ s e, P s → cond s e → P (step s e)) {s : σ}
    {es : List ε} (hs : P s) (h : Each step cond s es) : P (es.foldl step s) := by
  induction es generalizing s with
  | nil => exact hs
  | cons e es ih => exact ih (hstep s e hs h.1) h.2

/-- What holds at every allowed step from a state with an invariant holds all along the run. -/
theorem Each.of_invariant {P : σ → Prop} {cond' : σ → ε → Prop}
    (hstep : ∀ s e, P s → cond s e → P (step s e) ∧ cond' s e) {s : σ} {es : List ε} (hs : P s)
    (h : Each step cond s es) : Each step cond' s es := by
  induction es generalizing s with
  | nil => trivial
  | cons e es ih =>
      obtain ⟨hnext, hcond⟩ := hstep s e hs h.1
      exact ⟨hcond, ih hnext h.2⟩

/-- The potential method: work that every step pays for out of a potential and a credit. -/
theorem potential {P : σ → Prop} {work pot : σ → ℤ} {credit : ε → ℤ}
    (hkeep : ∀ s e, P s → P (step s e))
    (hstep : ∀ s e, P s → work (step s e) - pot (step s e) ≤ work s - pot s + credit e)
    {s : σ} (hs : P s) (es : List ε) :
    work (es.foldl step s) - pot (es.foldl step s) ≤ work s - pot s + (es.map credit).sum := by
  induction es generalizing s with
  | nil =>
      rw [List.map_nil, List.sum_nil, Int.add_zero]
      exact Int.le_refl _
  | cons e es ih =>
      have hrest := ih (hkeep s e hs)
      have hfirst := hstep s e hs
      rw [List.foldl_cons, List.map_cons, List.sum_cons]
      omega

theorem keeps {P : σ → Prop} (hstep : ∀ s e, P s → P (step s e)) {s : σ} (hs : P s)
    (es : List ε) : P (es.foldl step s) := by
  induction es generalizing s with
  | nil => exact hs
  | cons e es ih => exact ih (hstep s e hs)

theorem Each.append_iff {s : σ} {pre part : List ε} : Each step cond s (pre ++ part) ↔
    Each step cond s pre ∧ Each step cond (pre.foldl step s) part := by
  induction pre generalizing s with
  | nil => simp [Each]
  | cons e pre ih =>
      rw [List.cons_append, Each, Each, ih, and_assoc]
      rfl

/-- A property that a step keeps exactly when it meets the condition holds all along a run
exactly when every step does. -/
theorem forall_take_iff {P I : σ → Prop} (hI : ∀ s e, I s → I (step s e))
    (hstep : ∀ s e, I s → P s → (P (step s e) ↔ cond s e)) {s : σ} {es : List ε} (hi : I s)
    (hs : P s) : (∀ n, P ((es.take n).foldl step s)) ↔ Each step cond s es := by
  induction es generalizing s with
  | nil => simp [Each, hs]
  | cons e es ih =>
      constructor
      · intro hall
        have hnext : P (step s e) := by simpa using hall 1
        refine ⟨(hstep s e hi hs).mp hnext, (ih (hI s e hi) hnext).mp fun n => ?_⟩
        simpa using hall (n + 1)
      · rintro ⟨hcond, hrest⟩ n
        have hnext := (hstep s e hi hs).mpr hcond
        cases n with
        | zero => simpa using hs
        | succ n => simpa using (ih (hI s e hi) hnext).mpr hrest n

/-- The same for a property that is kept as part of a stronger one. -/
theorem forall_take_iff_of_strong {P Q : σ → Prop} (hQ : ∀ s, Q s → P s)
    (hkeep : ∀ s e, Q s → cond s e → Q (step s e))
    (hbreak : ∀ s e, Q s → P (step s e) → cond s e) {s : σ} {es : List ε} (hs : Q s) :
    (∀ n, P ((es.take n).foldl step s)) ↔ Each step cond s es := by
  induction es generalizing s with
  | nil => simp [Each, hQ s hs]
  | cons e es ih =>
      constructor
      · intro hall
        have hcond := hbreak s e hs (by simpa using hall 1)
        refine ⟨hcond, (ih (hkeep s e hs hcond)).mp fun n => ?_⟩
        simpa using hall (n + 1)
      · rintro ⟨hcond, hrest⟩ n
        cases n with
        | zero => simpa using hQ s hs
        | succ n => simpa using (ih (hkeep s e hs hcond)).mpr hrest n

section Count

variable (step) (p : σ → ε → Prop) [∀ s e, Decidable (p s e)]

/-- The number of steps of the run from `s` at which something happens. -/
def count : σ → List ε → ℕ
  | _, [] => 0
  | s, e :: es => (if p s e then 1 else 0) + count (step s e) es

variable {step p} {q : σ → ε → Prop} [∀ s e, Decidable (q s e)] {P : σ → Prop}

/-- What happens only when a flag is off, and sets it, happens at most once more often than
the flag is cleared. -/
theorem count_le (hoff : ∀ s e, p s e → ¬ P s) (hon : ∀ s e, p s e → P (step s e))
    (hclear : ∀ s e, P s → ¬ q s e → P (step s e)) (s : σ) (es : List ε) :
    count step p s es ≤ count step q s es + 1 ∧
      (P s → count step p s es ≤ count step q s es) := by
  induction es generalizing s with
  | nil => exact ⟨Nat.zero_le _, fun _ => Nat.le_refl _⟩
  | cons e es ih =>
      have hrest := ih (step s e)
      rw [count, count]
      by_cases hp : p s e
      · have hnext := hrest.2 (hon s e hp)
        rw [if_pos hp]
        exact ⟨by omega, fun hs => absurd hs (hoff s e hp)⟩
      · rw [if_neg hp]
        by_cases hq : q s e
        · have hnext := hrest.1
          rw [if_pos hq]
          omega
        · rw [if_neg hq]
          exact ⟨by omega, fun hs => by have := hrest.2 (hclear s e hs hq); omega⟩

end Count

end Runs
