import Mathlib.Algebra.Order.Group.Int
import Mathlib.Data.List.Perm.Subperm
import Mathlib.Tactic.Common

/-!
# Arrays with places in use

An array some of whose places are in use, with the last of these or `-1`. It is kept when a place is
taken or given up and when the array changes its length, and a place is free while there are fewer
owners than places.
-/

namespace SlotArray

variable {β : Type*} (used : β → Bool)

def UsedAt (l : List β) (i : ℕ) : Prop := ∃ x, l[i]? = some x ∧ used x = true

/-- The last place in use, or `-1`. -/
structure IsTop (l : List β) (top : ℤ) : Prop where
  le : ∀ i, UsedAt used l i → (i : ℤ) ≤ top
  attained : top = -1 ∨ ∃ i, UsedAt used l i ∧ top = i

/-- The last place in use below a bound, found from the bound down. -/
def lower (l : List β) : ℕ → ℤ
  | 0 => -1
  | n + 1 => if (l[n]?).any used then n else lower l n

variable {used} {l l' : List β} {top : ℤ} {i n : ℕ}

theorem UsedAt.lt_length (h : UsedAt used l i) : i < l.length := by
  obtain ⟨x, hx, -⟩ := h
  exact (List.getElem?_eq_some_iff.mp hx).1

theorem any_iff_usedAt : (l[i]?).any used = true ↔ UsedAt used l i := Option.any_eq_true _ _

theorem usedAt_modify_of_ne {f : β → β} {j : ℕ} (h : j ≠ i) :
    UsedAt used (l.modify i f) j ↔ UsedAt used l j := by
  rw [UsedAt, UsedAt, List.getElem?_modify_ne f l h.symm]

theorem usedAt_modify_self {f : β → β} :
    UsedAt used (l.modify i f) i ↔ ∃ x, l[i]? = some x ∧ used (f x) = true := by
  rw [UsedAt, List.getElem?_modify_eq, Option.map_eq_map]
  constructor
  · rintro ⟨y, hy, hu⟩
    obtain ⟨x, hx, rfl⟩ := Option.map_eq_some_iff.mp hy
    exact ⟨x, hx, hu⟩
  · rintro ⟨x, hx, hu⟩
    exact ⟨f x, by rw [hx]; rfl, hu⟩

/-- A place is given up. -/
theorem usedAt_modify_free {f : β → β} (hf : ∀ x, used (f x) = false) (j : ℕ) :
    UsedAt used (l.modify i f) j ↔ UsedAt used l j ∧ j ≠ i := by
  by_cases hji : j = i
  · subst hji
    rw [usedAt_modify_self]
    refine iff_of_false ?_ fun h => h.2 rfl
    rintro ⟨x, -, hu⟩
    rw [hf x] at hu
    cases hu
  · rw [usedAt_modify_of_ne hji, and_iff_left hji]

/-- A place is taken. -/
theorem usedAt_modify_take {f : β → β} (hi : i < l.length) (hf : ∀ x, used (f x) = true) (j : ℕ) :
    UsedAt used (l.modify i f) j ↔ UsedAt used l j ∨ j = i := by
  by_cases hji : j = i
  · subst hji
    rw [usedAt_modify_self]
    exact iff_of_true ⟨_, List.getElem?_eq_getElem hi, hf _⟩ (.inr rfl)
  · rw [usedAt_modify_of_ne hji, or_iff_left hji]

/-- A place is used on as before. -/
theorem usedAt_modify_same {f : β → β} (hf : ∀ x, used (f x) = used x) (j : ℕ) :
    UsedAt used (l.modify i f) j ↔ UsedAt used l j := by
  by_cases hji : j = i
  · subst hji
    rw [usedAt_modify_self, UsedAt]
    simp only [hf]
  · exact usedAt_modify_of_ne hji

theorem isTop_lower (h : ∀ i, UsedAt used l i → i < n) : IsTop used l (lower used l n) := by
  induction n with
  | zero => exact ⟨fun i hi => absurd (h i hi) (Nat.not_lt_zero i), .inl rfl⟩
  | succ n ih =>
      rw [lower]
      split
      · rename_i hn
        refine ⟨fun i hi => ?_, .inr ⟨n, any_iff_usedAt.mp hn, rfl⟩⟩
        have := h i hi
        omega
      · rename_i hn
        refine ih fun i hi => ?_
        have hlt := h i hi
        rcases Nat.lt_succ_iff_lt_or_eq.mp hlt with h | rfl
        · exact h
        · exact absurd (any_iff_usedAt.mpr hi) hn

theorem IsTop.congr (h : IsTop used l top) (heq : ∀ i, UsedAt used l' i ↔ UsedAt used l i) :
    IsTop used l' top where
  le i hi := h.le i ((heq i).mp hi)
  attained := h.attained.imp_right fun ⟨i, hi, ht⟩ => ⟨i, (heq i).mpr hi, ht⟩

theorem IsTop.take (h : IsTop used l top)
    (heq : ∀ j, UsedAt used l' j ↔ UsedAt used l j ∨ j = i) :
    IsTop used l' (if (i : ℤ) > top then i else top) := by
  split
  · rename_i hgt
    refine ⟨fun j hj => ?_, .inr ⟨i, (heq i).mpr (.inr rfl), rfl⟩⟩
    rcases (heq j).mp hj with hj | rfl
    · exact (h.le j hj).trans hgt.le
    · exact le_rfl
  · rename_i hle
    refine ⟨fun j hj => ?_, ?_⟩
    · rcases (heq j).mp hj with hj | rfl
      · exact h.le j hj
      · exact not_lt.mp hle
    · exact h.attained.imp_right fun ⟨j, hj, ht⟩ => ⟨j, (heq j).mpr (.inl hj), ht⟩

theorem IsTop.free (h : IsTop used l top)
    (heq : ∀ j, UsedAt used l' j ↔ UsedAt used l j ∧ j ≠ i) :
    IsTop used l' (if top = i then lower used l' (top + 1).toNat else top) := by
  split
  · refine isTop_lower fun j hj => ?_
    have := h.le j ((heq j).mp hj).1
    omega
  · rename_i hne
    refine ⟨fun j hj => h.le j ((heq j).mp hj).1, h.attained.imp_right ?_⟩
    rintro ⟨j, hj, ht⟩
    exact ⟨j, (heq j).mpr ⟨hj, fun heq => hne (heq ▸ ht)⟩, ht⟩

/-- Fewer owners than places. -/
theorem exists_free {κ : Type*} {owners : List κ} {place : κ → ℤ}
    (howned : ∀ i, UsedAt used l i → ∃ o ∈ owners, place o = i)
    (hlt : owners.length < l.length) : ∃ i < l.length, ¬ UsedAt used l i := by
  by_contra hnone
  have hsub : List.range l.length ⊆ owners.map fun o => (place o).toNat := by
    intro i hi
    have hused : UsedAt used l i := by
      by_contra hfree
      exact hnone ⟨i, List.mem_range.mp hi, hfree⟩
    obtain ⟨o, ho, hplace⟩ := howned i hused
    exact List.mem_map.mpr ⟨o, ho, by rw [hplace, Int.toNat_natCast]⟩
  have hle := (List.subperm_of_subset List.nodup_range hsub).length_le
  rw [List.length_map, List.length_range] at hle
  omega

end SlotArray
