import Mathlib.Algebra.Order.Group.Int
import Mathlib.Data.List.Basic

/-!
# Binary search

The search of the C library in an array, with a comparison that need not be an order. It finds
what a linear search finds when everything behind a position that is not below the key is above
it.
-/

namespace BinarySearch

variable {α : Type*} {cmp : α → ℤ} {l : List α}

/-- `bsearch` between two bounds: the place in the middle, and one of the halves. -/
def bsearch (cmp : α → ℤ) (l : List α) : Option α :=
  match h : l.drop (l.length / 2) with
  | [] => none
  | p :: right =>
      if cmp p < 0 then bsearch cmp (l.take (l.length / 2))
      else if 0 < cmp p then bsearch cmp right
      else some p
termination_by l.length
decreasing_by
  · have hlen := congrArg List.length h
    rw [List.length_drop, List.length_cons] at hlen
    rw [List.length_take]
    omega
  · have hlen := congrArg List.length h
    rw [List.length_drop, List.length_cons] at hlen
    omega

theorem mem_of_bsearch {a : α} (h : bsearch cmp l = some a) : a ∈ l := by
  fun_induction bsearch cmp l with
  | case1 => cases h
  | case2 l p right hdrop hp ih => exact List.mem_of_mem_take (ih h)
  | case3 l p right hdrop hp hpos ih =>
      exact List.mem_of_mem_drop (hdrop ▸ List.mem_cons_of_mem p (ih h))
  | case4 l p right hdrop hp hpos =>
      cases h
      exact List.mem_of_mem_drop (hdrop ▸ List.mem_cons_self)

/-- The comparison tells the side on which a key is. -/
def Ordered (cmp : α → ℤ) (l : List α) : Prop := l.Pairwise fun a b => cmp a ≤ 0 → cmp b < 0

theorem find?_eq_none_of_ne (h : ∀ a ∈ l, cmp a ≠ 0) : l.find? (cmp · = 0) = none := by
  rw [List.find?_eq_none]
  intro a ha
  simpa using h a ha

theorem bsearch_eq_find? (h : Ordered cmp l) : bsearch cmp l = l.find? (cmp · = 0) := by
  fun_induction bsearch cmp l with
  | case1 l hdrop =>
      have hlen := congrArg List.length hdrop
      rw [List.length_drop, List.length_nil] at hlen
      rw [List.eq_nil_of_length_eq_zero (l := l) (by omega)]
      rfl
  | case2 l p right hdrop hp ih =>
      have hl := hdrop ▸ List.take_append_drop (l.length / 2) l
      have hpair := List.pairwise_append.mp (hl ▸ h : Ordered cmp _)
      have hright : (p :: right).find? (cmp · = 0) = none := find?_eq_none_of_ne fun a ha => by
        rcases List.mem_cons.mp ha with rfl | ha
        · exact hp.ne
        · exact ((List.pairwise_cons.mp hpair.2.1).1 a ha hp.le).ne
      rw [ih hpair.1]
      conv_rhs => rw [← hl, List.find?_append, hright, Option.or_none]
  | case3 l p right hdrop hp hpos ih =>
      have hl := hdrop ▸ List.take_append_drop (l.length / 2) l
      have hpair := List.pairwise_append.mp (hl ▸ h : Ordered cmp _)
      have hleft : (l.take (l.length / 2)).find? (cmp · = 0) = none :=
        find?_eq_none_of_ne fun a ha h0 =>
          absurd (hpair.2.2 a ha p List.mem_cons_self h0.le) (by omega)
      rw [ih (List.pairwise_cons.mp hpair.2.1).2]
      conv_rhs => rw [← hl, List.find?_append, hleft, Option.none_or,
        List.find?_cons_of_neg (by simpa using hpos.ne')]
  | case4 l p right hdrop hp hpos =>
      have hl := hdrop ▸ List.take_append_drop (l.length / 2) l
      have hpair := List.pairwise_append.mp (hl ▸ h : Ordered cmp _)
      have hzero : cmp p = 0 := by omega
      have hleft : (l.take (l.length / 2)).find? (cmp · = 0) = none :=
        find?_eq_none_of_ne fun a ha h0 =>
          absurd (hpair.2.2 a ha p List.mem_cons_self h0.le) hp
      conv_rhs => rw [← hl, List.find?_append, hleft, Option.none_or,
        List.find?_cons_of_pos (by simpa using hzero)]

end BinarySearch
