import Mathlib.Data.List.Perm.Subperm
import Mathlib.Data.List.Nodup
import Mathlib.Data.Nat.ModEq
import Mathlib.Logic.Function.Iterate
import Mathlib.Tactic.Common

/-!
# Counters with a full period

A step that adds one to a value modulo `n`, on states that their values tell apart, runs through
all of them before one comes again. A search that goes on with the next state while the one it has
is taken ends when fewer than `n` of them are.
-/

namespace FullCycle

variable {α β : Type*}

/-- The states that `P` allows are numbered below `n`, and a step goes to the next number. -/
structure Counts (P : α → Prop) (step : α → α) (value : α → ℕ) (n : ℕ) : Prop where
  closed : ∀ x, P x → P (step x)
  lt : ∀ x, P x → value x < n
  step : ∀ x, P x → value (step x) = (value x + 1) % n
  inj : ∀ x y, P x → P y → value x = value y → x = y

namespace Counts

variable {P : α → Prop} {step : α → α} {value : α → ℕ} {n : ℕ} {x y : α}

theorem iterate_closed (h : Counts P step value n) (hx : P x) (k : ℕ) : P (step^[k] x) := by
  induction k with
  | zero => exact hx
  | succ k ih =>
      rw [Function.iterate_succ_apply']
      exact h.closed _ ih

theorem value_iterate (h : Counts P step value n) (hx : P x) (k : ℕ) :
    value (step^[k] x) = (value x + k) % n := by
  induction k with
  | zero => exact (Nat.mod_eq_of_lt (h.lt x hx)).symm
  | succ k ih =>
      rw [Function.iterate_succ_apply', h.step _ (h.iterate_closed hx k), ih, Nat.mod_add_mod,
        Nat.add_assoc]

theorem iterate_inj (h : Counts P step value n) (hx : P x) {j k : ℕ} (hj : j < n) (hk : k < n)
    (heq : step^[j] x = step^[k] x) : j = k := by
  have hvalue : (value x + j) % n = (value x + k) % n := by
    rw [← h.value_iterate hx, ← h.value_iterate hx, heq]
  have hmod : j ≡ k [MOD n] := Nat.ModEq.add_left_cancel' (value x) hvalue
  exact hmod.eq_of_lt_of_lt hj hk

/-- From any state, every state comes exactly once in the next `n` steps. -/
theorem existsUnique_iterate (h : Counts P step value n) (hx : P x) (hy : P y) :
    ∃! k, k < n ∧ step^[k + 1] x = y := by
  have hpos : 0 < n := Nat.lt_of_le_of_lt (Nat.zero_le _) (h.lt x hx)
  have hstep : P (step x) := h.closed x hx
  refine ⟨(value y + n - value (step x)) % n, ⟨Nat.mod_lt _ hpos, ?_⟩, ?_⟩
  · refine h.inj _ _ (h.iterate_closed hx _) hy ?_
    have hle : value (step x) ≤ value y + n :=
      Nat.le_add_left_of_le (Nat.le_of_lt (h.lt _ hstep))
    rw [Function.iterate_succ_apply, h.value_iterate hstep, Nat.add_mod_mod,
      Nat.add_sub_cancel' hle, Nat.add_mod_right, Nat.mod_eq_of_lt (h.lt y hy)]
  · rintro k ⟨hk, rfl⟩
    refine h.iterate_inj hstep hk (Nat.mod_lt _ hpos) ?_
    refine h.inj _ _ (h.iterate_closed hstep _) (h.iterate_closed hstep _) ?_
    have hle : value (step x) ≤ value (step^[k] (step x)) + n :=
      Nat.le_add_left_of_le (Nat.le_of_lt (h.lt _ hstep))
    rw [h.value_iterate hstep ((value (step^[k + 1] x) + n - value (step x)) % n),
      Function.iterate_succ_apply, Nat.add_mod_mod, Nat.add_sub_cancel' hle, Nat.add_mod_right,
      Nat.mod_eq_of_lt (h.lt _ (h.iterate_closed hstep k))]

/-- Fewer than `n` marks leave one of the next `n` states free. -/
theorem exists_free [DecidableEq β] (h : Counts P step value n) (hx : P x) (key : α → β)
    (hkey : ∀ y z, P y → P z → key y = key z → y = z) {marks : List β}
    (hmarks : marks.length < n) : ∃ k < n, key (step^[k + 1] x) ∉ marks := by
  by_contra hnone
  push Not at hnone
  have hnodup : ((List.range n).map fun k => key (step^[k + 1] x)).Nodup := by
    refine List.Nodup.map_on (fun j hj k hk heq => ?_) List.nodup_range
    have hstep : P (step x) := h.closed x hx
    refine h.iterate_inj hstep (List.mem_range.mp hj) (List.mem_range.mp hk) ?_
    exact hkey _ _ (h.iterate_closed hstep j) (h.iterate_closed hstep k) heq
  have hsub : ((List.range n).map fun k => key (step^[k + 1] x)) ⊆ marks := by
    intro y hy
    obtain ⟨k, hk, rfl⟩ := List.mem_map.mp hy
    exact hnone k (List.mem_range.mp hk)
  have hle := (List.subperm_of_subset hnodup hsub).length_le
  rw [List.length_map, List.length_range] at hle
  omega

end Counts

/-- Go on with the next state while the one at hand is taken, for so many states. -/
def search (taken : α → Bool) (step : α → α) : ℕ → α → Option α
  | 0, _ => none
  | n + 1, x => if taken x then search taken step n (step x) else some x

theorem search_of_free {taken : α → Bool} {step : α → α} {n k : ℕ} {x : α} (hk : k < n)
    (hfree : taken (step^[k] x) = false) :
    ∃ y, search taken step n x = some y ∧ taken y = false ∧ ∃ j ≤ k, y = step^[j] x := by
  induction n generalizing k x with
  | zero => exact absurd hk (Nat.not_lt_zero k)
  | succ n ih =>
      rw [search]
      split
      · rename_i htaken
        cases k with
        | zero =>
            rw [Function.iterate_zero_apply, htaken] at hfree
            cases hfree
        | succ k =>
            rw [Function.iterate_succ_apply] at hfree
            obtain ⟨y, hy, hnot, j, hj, rfl⟩ := ih (Nat.lt_of_succ_lt_succ hk) hfree
            exact ⟨_, hy, hnot, j + 1, Nat.succ_le_succ hj, rfl⟩
      · rename_i htaken
        exact ⟨x, rfl, Bool.not_eq_true _ ▸ htaken, 0, Nat.zero_le k, rfl⟩

end FullCycle
