import Mathlib.Order.Lattice
import Mathlib.Order.MinMax
import Mathlib.Data.List.Basic

/-!
# Values joined under the lowest stamp

A stamped value yields to any value with a lower stamp and is joined with values
of the same stamp. The result of merging a list depends only on which values
occur in it, and values above the lowest stamp leave no trace.
-/

theorem foldl_sup_le_iff {α : Type*} [SemilatticeSup α] (a : α) (l : List α) (b : α) :
    l.foldl (· ⊔ ·) a ≤ b ↔ a ≤ b ∧ ∀ x ∈ l, x ≤ b := by
  induction l generalizing a with
  | nil => simp
  | cons x l ih =>
      rw [List.foldl_cons, ih, sup_le_iff, List.forall_mem_cons, and_assoc]

theorem foldl_sup_congr {α : Type*} [SemilatticeSup α] (a : α) {l l' : List α}
    (h : ∀ x, x ∈ l ↔ x ∈ l') : l.foldl (· ⊔ ·) a = l'.foldl (· ⊔ ·) a := by
  apply eq_of_forall_ge_iff
  intro b
  simp only [foldl_sup_le_iff, h]

@[ext] structure Stamped (τ μ : Type*) where
  stamp : τ
  value : μ

namespace Stamped

variable {τ μ : Type*} [LinearOrder τ] [SemilatticeSup μ]

def merge (a b : Stamped τ μ) : Stamped τ μ :=
  if a.stamp < b.stamp then a
  else if b.stamp < a.stamp then b
  else ⟨a.stamp, a.value ⊔ b.value⟩

theorem merge_of_lt {a b : Stamped τ μ} (h : a.stamp < b.stamp) : merge a b = a := if_pos h

theorem merge_of_gt {a b : Stamped τ μ} (h : b.stamp < a.stamp) : merge a b = b := by
  rw [merge, if_neg h.not_gt, if_pos h]

theorem merge_of_eq {a b : Stamped τ μ} (h : a.stamp = b.stamp) :
    merge a b = ⟨a.stamp, a.value ⊔ b.value⟩ := by
  rw [merge, if_neg h.not_lt, if_neg h.not_gt]

theorem merge_self (a : Stamped τ μ) : merge a a = a := by
  rw [merge_of_eq rfl, sup_idem]

theorem merge_comm (a b : Stamped τ μ) : merge a b = merge b a := by
  rcases lt_trichotomy a.stamp b.stamp with h | h | h
  · rw [merge_of_lt h, merge_of_gt h]
  · rw [merge_of_eq h, merge_of_eq h.symm, sup_comm, h]
  · rw [merge_of_gt h, merge_of_lt h]

@[simp] theorem stamp_merge (a b : Stamped τ μ) : (merge a b).stamp = min a.stamp b.stamp := by
  rcases lt_trichotomy a.stamp b.stamp with h | h | h
  · rw [merge_of_lt h, min_eq_left h.le]
  · rw [merge_of_eq h, h, min_self]
  · rw [merge_of_gt h, min_eq_right h.le]

theorem merge_assoc (a b c : Stamped τ μ) : merge (merge a b) c = merge a (merge b c) := by
  rcases lt_trichotomy a.stamp b.stamp with hab | hab | hab
  · rw [merge_of_lt hab]
    rcases le_or_gt b.stamp c.stamp with hbc | hbc
    · have hac : a.stamp < c.stamp := hab.trans_le hbc
      rw [merge_of_lt hac, merge_of_lt (by rwa [stamp_merge, min_eq_left hbc])]
    · rw [merge_of_gt hbc]
  · rcases lt_trichotomy b.stamp c.stamp with hbc | hbc | hbc
    · rw [merge_of_lt hbc, merge_of_lt (by rwa [stamp_merge, hab, min_self])]
    · have hac : (⟨a.stamp, a.value ⊔ b.value⟩ : Stamped τ μ).stamp = c.stamp := hab.trans hbc
      have hb : a.stamp = (⟨b.stamp, b.value ⊔ c.value⟩ : Stamped τ μ).stamp := hab
      rw [merge_of_eq hab, merge_of_eq hbc, merge_of_eq hac, merge_of_eq hb, sup_assoc]
    · rw [merge_of_gt hbc, merge_of_gt (by rwa [stamp_merge, hab, min_self]),
        merge_of_gt (hab ▸ hbc)]
  · rw [merge_of_gt hab]
    rcases lt_trichotomy b.stamp c.stamp with hbc | hbc | hbc
    · rw [merge_of_lt hbc, merge_of_gt hab]
    · have hb : (⟨b.stamp, b.value ⊔ c.value⟩ : Stamped τ μ).stamp < a.stamp := hab
      rw [merge_of_eq hbc, merge_of_gt hb]
    · rw [merge_of_gt hbc, merge_of_gt (hbc.trans hab)]

instance : SemilatticeSup (Stamped τ μ) :=
  letI : Max (Stamped τ μ) := ⟨merge⟩
  SemilatticeSup.mk' merge_comm merge_assoc merge_self

theorem sup_def (a b : Stamped τ μ) : a ⊔ b = merge a b := rfl

theorem le_of_stamp_lt {a b : Stamped τ μ} (h : b.stamp < a.stamp) : a ≤ b := by
  rw [← sup_eq_right, sup_def, merge_of_gt h]

/-- The lowest stamp wins. -/
theorem stamp_foldl (a : Stamped τ μ) (l : List (Stamped τ μ)) :
    (l.foldl (· ⊔ ·) a).stamp = (l.map stamp).foldl min a.stamp := by
  induction l generalizing a with
  | nil => rfl
  | cons x l ih => rw [List.foldl_cons, ih, sup_def, stamp_merge, List.map_cons, List.foldl_cons]

theorem exists_stamp_foldl (a : Stamped τ μ) (l : List (Stamped τ μ)) :
    ∃ x ∈ a :: l, x.stamp = (l.foldl (· ⊔ ·) a).stamp := by
  induction l generalizing a with
  | nil => exact ⟨a, List.mem_cons_self, rfl⟩
  | cons y l ih =>
      obtain ⟨x, hx, hs⟩ := ih (a ⊔ y)
      rcases List.mem_cons.mp hx with rfl | hx
      · rw [sup_def, stamp_merge] at hs
        rcases min_choice a.stamp y.stamp with h | h
        · exact ⟨a, List.mem_cons_self, by rw [← h, hs]; rfl⟩
        · exact ⟨y, List.mem_cons_of_mem _ List.mem_cons_self, by rw [← h, hs]; rfl⟩
      · exact ⟨x, List.mem_cons_of_mem _ (List.mem_cons_of_mem _ hx), hs⟩

/-- Values above the lowest stamp can be dropped from the list. -/
theorem foldl_sup_filter (a : Stamped τ μ) (l : List (Stamped τ μ)) (p : Stamped τ μ → Bool)
    (hp : ∀ x ∈ l, p x = false → (l.foldl (· ⊔ ·) a).stamp < x.stamp) :
    (l.filter p).foldl (· ⊔ ·) a = l.foldl (· ⊔ ·) a := by
  apply eq_of_forall_ge_iff
  intro b
  simp only [foldl_sup_le_iff, List.mem_filter, and_imp]
  refine ⟨fun ⟨ha, hl⟩ => ⟨ha, fun x hx => ?_⟩, fun ⟨ha, hl⟩ => ⟨ha, fun x hx _ => hl x hx⟩⟩
  cases hpx : p x with
  | true => exact hl x hx hpx
  | false =>
      obtain ⟨y, hy, hs⟩ := exists_stamp_foldl a l
      have hyx : y.stamp < x.stamp := hs ▸ hp x hx hpx
      have hyb : y ≤ b := by
        rcases List.mem_cons.mp hy with rfl | hy
        · exact ha
        · cases hpy : p y with
          | true => exact hl y hy hpy
          | false => exact absurd (hs ▸ hp y hy hpy) (lt_irrefl _)
      exact (le_of_stamp_lt hyx).trans hyb

end Stamped
