import Mathlib.Data.List.Nodup
import Mathlib.Data.List.Perm.Subperm
import Mathlib.Logic.Function.Iterate
import Mathlib.Order.Nat
import Mathlib.Tactic.Common

/-!
# Trees given by their parents

A tree is a map to the parents that leads from every node to a root, which is its own parent. The
nodes below another one are those that lead to it.
-/

/-- The parents `p` lead from every node to `root`. -/
structure ParentTree {α : Type*} (p : α → α) (root : α) : Prop where
  fixed : p root = root
  reaches : ∀ x, ∃ i, p^[i] x = root

namespace ParentTree

variable {α : Type*} {p q : α → α} {root s x y : α}

/-- `x` is `s` or hangs off it. -/
def Below (p : α → α) (s x : α) : Prop := ∃ i, p^[i] x = s

theorem Below.refl (p : α → α) (x : α) : Below p x x := ⟨0, rfl⟩

theorem Below.of_parent (h : Below p s (p x)) : Below p s x := by
  obtain ⟨i, hi⟩ := h
  exact ⟨i + 1, hi⟩

theorem Below.parent (h : Below p s x) (hne : x ≠ s) : Below p s (p x) := by
  obtain ⟨i, hi⟩ := h
  cases i with
  | zero => exact absurd hi hne
  | succ i => exact ⟨i, hi⟩

theorem Below.trans (hs : Below p s x) (hx : Below p x y) : Below p s y := by
  obtain ⟨i, hi⟩ := hs
  obtain ⟨j, hj⟩ := hx
  exact ⟨i + j, by rw [Function.iterate_add_apply, hj, hi]⟩

/-- Of two nodes with a common node below them one is below the other. -/
theorem below_total (hs : Below p s x) (hy : Below p y x) : Below p s y ∨ Below p y s := by
  obtain ⟨i, rfl⟩ := hs
  obtain ⟨j, rfl⟩ := hy
  rcases Nat.le_total i j with hij | hij
  · obtain ⟨k, rfl⟩ := Nat.exists_eq_add_of_le' hij
    exact .inr ⟨k, (Function.iterate_add_apply p k i x).symm⟩
  · obtain ⟨k, rfl⟩ := Nat.exists_eq_add_of_le' hij
    exact .inl ⟨k, (Function.iterate_add_apply p k j x).symm⟩

section Agree

/-- Parents that agree on a set which they do not leave. -/
theorem iterate_congr {a : α → Prop} (hagree : ∀ x, a x → q x = p x) (hclosed : ∀ x, a x → a (p x))
    (hx : a x) (i : ℕ) : q^[i] x = p^[i] x := by
  induction i generalizing x with
  | zero => rfl
  | succ i ih => rw [Function.iterate_succ_apply, Function.iterate_succ_apply, hagree x hx,
      ih (hclosed x hx)]

theorem below_congr {a : α → Prop} (hagree : ∀ x, a x → q x = p x) (hclosed : ∀ x, a x → a (p x))
    (hx : a x) : Below q s x ↔ Below p s x :=
  exists_congr fun i => by rw [iterate_congr hagree hclosed hx i]

end Agree

section Depth

open scoped Classical

/-- The number of steps to the root. -/
noncomputable def depth (h : ParentTree p root) (x : α) : ℕ := Nat.find (h.reaches x)

variable (h : ParentTree p root)

include h

theorem iterate_root (i : ℕ) : p^[i] root = root := Function.iterate_fixed h.fixed i

theorem not_below_root (hs : s ≠ root) : ¬Below p s root := fun ⟨i, hi⟩ =>
  hs (hi.symm.trans (h.iterate_root i))

theorem depth_eq_zero : h.depth x = 0 ↔ x = root := by
  rw [depth, Nat.find_eq_zero]
  rfl

theorem depth_parent (hx : x ≠ root) : h.depth (p x) + 1 = h.depth x := by
  refine le_antisymm ?_ ?_
  · obtain ⟨n, hn⟩ := Nat.exists_eq_succ_of_ne_zero (fun he => hx ((h.depth_eq_zero).mp he))
    have hfind : p^[h.depth x] x = root := Nat.find_spec (h.reaches x)
    rw [hn] at hfind ⊢
    exact Nat.succ_le_succ (Nat.find_le hfind)
  · have hfind : p^[h.depth (p x)] (p x) = root := Nat.find_spec (h.reaches (p x))
    exact Nat.find_le hfind

theorem depth_parent_le (x : α) : h.depth (p x) ≤ h.depth x := by
  by_cases hx : x = root
  · rw [hx, h.fixed]
  · have := h.depth_parent hx
    omega

theorem depth_le_of_below (hb : Below p s x) : h.depth s ≤ h.depth x := by
  obtain ⟨i, hi⟩ := hb
  induction i generalizing x with
  | zero => exact (congrArg h.depth hi).symm.le
  | succ i ih => exact (ih hi).trans (h.depth_parent_le x)

/-- The parent of a node is not below it. -/
theorem not_below_parent (hs : s ≠ root) : ¬Below p s (p s) := fun hb => by
  have hle := h.depth_le_of_below hb
  have hlt := h.depth_parent hs
  omega

/-- The subtrees of two children of a node are disjoint. -/
theorem not_below_of_parent_eq (hs : s ≠ root) (hne : y ≠ s) (hp : p y = p s) : ¬Below p s y :=
  fun hb => h.not_below_parent hs (hp ▸ hb.parent hne)

theorem depth_iterate {i : ℕ} (hi : i ≤ h.depth x) : h.depth (p^[i] x) + i = h.depth x := by
  induction i with
  | zero => rfl
  | succ i ih =>
      have hrest := ih (Nat.le_of_succ_le hi)
      have hne : p^[i] x ≠ root := fun he => by
        rw [(h.depth_eq_zero).mpr he] at hrest
        omega
      have hparent := h.depth_parent hne
      rw [Function.iterate_succ_apply']
      omega

/-- What has not reached the root is not deeper than the steps taken. -/
theorem lt_depth_of_iterate_ne {i : ℕ} (hi : p^[i] x ≠ root) : i < h.depth x := by
  by_contra hlt
  obtain ⟨k, rfl⟩ := Nat.exists_eq_add_of_le' (Nat.le_of_not_lt hlt)
  have hroot : p^[h.depth x] x = root := by
    have hdepth := h.depth_iterate (x := x) (Nat.le_refl _)
    exact (h.depth_eq_zero).mp (by omega)
  exact hi (by rw [Function.iterate_add_apply, hroot, h.iterate_root])

/-- A list of all that a node leads to is longer than the way to the root. -/
theorem depth_lt_length {l : List α} (hl : ∀ i, p^[i] x ∈ l) : h.depth x < l.length := by
  have hnodup : ((List.range (h.depth x + 1)).map fun i => p^[i] x).Nodup := by
    refine List.Nodup.map_on (fun i hi j hj he => ?_) List.nodup_range
    have hi' := h.depth_iterate (x := x) (Nat.lt_succ_iff.mp (List.mem_range.mp hi))
    have hj' := h.depth_iterate (x := x) (Nat.lt_succ_iff.mp (List.mem_range.mp hj))
    rw [he] at hi'
    omega
  have hsub : ((List.range (h.depth x + 1)).map fun i => p^[i] x) ⊆ l := fun y hy => by
    obtain ⟨i, -, rfl⟩ := List.mem_map.mp hy
    exact hl i
  have hle := (hnodup.subperm hsub).length_le
  rw [List.length_map, List.length_range] at hle
  exact hle

end Depth

end ParentTree
