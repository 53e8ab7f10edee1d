import Mathlib.Algebra.BigOperators.Group.Finset.Piecewise
import Mathlib.Algebra.Order.BigOperators.Group.Finset
import Mathlib.Data.Fintype.Basic
import Mathlib.Data.List.Nodup

/-!
# Reference counts

Finitely many holders have a list of references each. A predicate on references has a number of
references, over all lists, and a number of holders; the two agree when no holder has more than one.
-/

namespace RefCount

open Finset

variable {κ α : Type*}

section Lists

variable [DecidableEq κ] {h : κ → List α} {k j : κ} {a b : α}

def hold (h : κ → List α) (k : κ) (a : α) : κ → List α := Function.update h k (a :: h k)

@[simp] theorem hold_self : hold h k a k = a :: h k := Function.update_self ..

theorem hold_of_ne (hj : j ≠ k) : hold h k a j = h j := Function.update_of_ne hj ..

theorem mem_hold : b ∈ hold h k a j ↔ (j = k ∧ b = a) ∨ b ∈ h j := by
  by_cases hj : j = k
  · subst hj
    simp
  · simp [hold_of_ne hj, hj]

theorem nodup_hold (hn : ∀ k, (h k).Nodup) (ha : a ∉ h k) (j : κ) : (hold h k a j).Nodup := by
  by_cases hj : j = k
  · subst hj
    rw [hold_self]
    exact List.nodup_cons.mpr ⟨ha, hn j⟩
  · rw [hold_of_ne hj]
    exact hn j

variable [DecidableEq α]

def drop (h : κ → List α) (k : κ) (a : α) : κ → List α := Function.update h k ((h k).erase a)

@[simp] theorem drop_self : drop h k a k = (h k).erase a := Function.update_self ..

theorem drop_of_ne (hj : j ≠ k) : drop h k a j = h j := Function.update_of_ne hj ..

theorem mem_of_mem_drop (hb : b ∈ drop h k a j) : b ∈ h j := by
  by_cases hj : j = k
  · subst hj
    rw [drop_self] at hb
    exact List.mem_of_mem_erase hb
  · rwa [drop_of_ne hj] at hb

theorem mem_drop (hn : (h k).Nodup) : b ∈ drop h k a j ↔ b ∈ h j ∧ ¬ (j = k ∧ b = a) := by
  by_cases hj : j = k
  · subst hj
    rw [drop_self, hn.mem_erase_iff]
    tauto
  · rw [drop_of_ne hj]
    simp [hj]

theorem length_drop_le : (drop h k a j).length ≤ (h j).length := by
  by_cases hj : j = k
  · subst hj
    rw [drop_self]
    exact List.length_erase_le
  · rw [drop_of_ne hj]

theorem nodup_drop (hn : ∀ k, (h k).Nodup) (j : κ) : (drop h k a j).Nodup := by
  by_cases hj : j = k
  · subst hj
    rw [drop_self]
    exact (hn j).erase a
  · rw [drop_of_ne hj]
    exact hn j

end Lists

section Counts

variable [Fintype κ] (h : κ → List α) (p : α → Prop) [DecidablePred p]

/-- The number of references that satisfy `p`. -/
def refs : ℕ := ∑ k, (h k).countP fun a => p a

/-- The number of holders with a reference that satisfies `p`. -/
def holders : ℕ := (univ.filter fun k => ∃ a ∈ h k, p a).card

variable {h p} {q : α → Prop} [DecidablePred q] {k : κ} {a : α}

theorem refs_congr (hpq : ∀ k, ∀ a ∈ h k, (p a ↔ q a)) : refs h p = refs h q := by
  refine sum_congr rfl fun k _ => List.countP_congr fun a ha => ?_
  simpa using hpq k a ha

theorem refs_pos_iff : 0 < refs h p ↔ ∃ k, ∃ a ∈ h k, p a := by
  simp [refs, sum_pos_iff, List.countP_pos_iff]

/-- When no holder has more than one reference, there are as many references as holders. -/
theorem refs_eq_holders (hone : ∀ k, (h k).countP (fun a => p a) ≤ 1) : refs h p = holders h p := by
  rw [refs, holders, card_filter]
  refine sum_congr rfl fun k _ => ?_
  by_cases hk : ∃ a ∈ h k, p a
  · rw [if_pos hk]
    have hpos : 0 < (h k).countP fun a => p a := List.countP_pos_iff.mpr (by simpa using hk)
    exact le_antisymm (hone k) hpos
  · rw [if_neg hk]
    exact List.countP_eq_zero.mpr fun a ha => by simpa using fun hp => hk ⟨a, ha, hp⟩

variable [DecidableEq κ]

theorem refs_hold : refs (hold h k a) p = refs h p + if p a then 1 else 0 := by
  have hcons : (hold h k a k).countP (fun a => p a) =
      (h k).countP (fun a => p a) + if p a then 1 else 0 := by
    rw [hold_self, List.countP_cons]
    simp
  have hrest : ∑ j ∈ univ.erase k, (hold h k a j).countP (fun a => p a) =
      ∑ j ∈ univ.erase k, (h j).countP (fun a => p a) :=
    sum_congr rfl fun j hj => by rw [hold_of_ne (ne_of_mem_erase hj)]
  rw [refs, refs, ← add_sum_erase univ _ (mem_univ k), ← add_sum_erase univ _ (mem_univ k), hcons,
    hrest]
  omega

variable [DecidableEq α]

theorem refs_drop (ha : a ∈ h k) : refs (drop h k a) p + (if p a then 1 else 0) = refs h p := by
  have hperm : ((h k).erase a).countP (fun a => p a) + (if p a then 1 else 0) =
      (h k).countP (fun a => p a) := by
    rw [(List.perm_cons_erase ha).countP_eq, List.countP_cons]
    simp
  have hrest : ∑ j ∈ univ.erase k, (drop h k a j).countP (fun a => p a) =
      ∑ j ∈ univ.erase k, (h j).countP (fun a => p a) :=
    sum_congr rfl fun j hj => by rw [drop_of_ne (ne_of_mem_erase hj)]
  rw [refs, refs, ← add_sum_erase univ _ (mem_univ k), ← add_sum_erase univ _ (mem_univ k), hrest,
    drop_self]
  omega

omit [Fintype κ] [DecidableEq κ] in
theorem countP_eq_le_one (hn : (h k).Nodup) : (h k).countP (fun b => b = a) ≤ 1 := by
  have hcount : (h k).countP (fun b => b = a) = (h k).count a :=
    List.countP_congr fun b _ => by simp
  rw [hcount]
  exact List.nodup_iff_count_le_one.mp hn a

end Counts

end RefCount
