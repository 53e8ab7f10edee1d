import Mathlib.Tactic.Common

/-!
# Loops with fuel

A loop that is written with a number of turns fails when there are too few of them. It halts when
it comes to one result for every number from some number on.
-/

namespace Fuel

variable {α β σ ε : Type*}

/-- The result is `a` with enough fuel. -/
def Halts (f : ℕ → Option α) (a : α) : Prop := ∃ N, ∀ n, N ≤ n → f n = some a

theorem halts_const (a : α) : Halts (fun _ => some a) a := ⟨0, fun _ _ => rfl⟩

variable {f : ℕ → Option α} {a a' : α}

/-- A turn of the loop. -/
theorem Halts.succ (h : Halts (fun n => f (n + 1)) a) : Halts f a := by
  obtain ⟨N, hN⟩ := h
  refine ⟨N + 1, fun n hn => ?_⟩
  obtain ⟨m, rfl⟩ := Nat.exists_eq_add_of_le' (Nat.le_of_add_left_le hn)
  exact hN m (Nat.le_of_succ_le_succ hn)

theorem Halts.bind {g : ℕ → α → Option β} {b : β} (hf : Halts f a)
    (hg : Halts (fun n => g n a) b) : Halts (fun n => (f n).bind (g n)) b := by
  obtain ⟨N, hN⟩ := hf
  obtain ⟨M, hM⟩ := hg
  refine ⟨max N M, fun n hn => ?_⟩
  dsimp only
  rw [hN n (Nat.le_trans (Nat.le_max_left N M) hn)]
  exact hM n (Nat.le_trans (Nat.le_max_right N M) hn)

theorem Halts.map (hf : Halts f a) (g : α → β) : Halts (fun n => (f n).map g) (g a) := by
  obtain ⟨N, hN⟩ := hf
  refine ⟨N, fun n hn => ?_⟩
  dsimp only
  rw [hN n hn]
  rfl

/-- The rule of a list of steps: `P` holds before the steps that are left. -/
theorem halts_foldlM (step : ℕ → σ → ε → Option σ) {P : List ε → σ → Prop}
    (hstep : ∀ e es s, P (e :: es) s → ∃ s', Halts (fun n => step n s e) s' ∧ P es s')
    {es : List ε} {s : σ} (hs : P es s) :
    ∃ s', Halts (fun n => es.foldlM (step n) s) s' ∧ P [] s' := by
  induction es generalizing s with
  | nil => exact ⟨s, halts_const s, hs⟩
  | cons e es ih =>
      obtain ⟨s₁, h₁, hs₁⟩ := hstep e es s hs
      obtain ⟨s₂, h₂, hs₂⟩ := ih hs₁
      exact ⟨s₂, h₁.bind h₂, hs₂⟩

end Fuel
