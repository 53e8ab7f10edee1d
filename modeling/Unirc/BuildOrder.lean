import Mathlib.Data.List.Induction

/-!
# Lists in which every element builds on those before it

A list grows at its end, and what is put there is admitted by what the list has already. Conditions
that a longer list keeps let several elements be put there at once.
-/

/-- Every element is admitted by the list of those before it. -/
inductive Admitted {α : Type*} (P : List α → α → Prop) : List α → Prop
  | nil : Admitted P []
  | snoc {l : List α} {x : α} : Admitted P l → P l x → Admitted P (l ++ [x])

namespace Admitted

variable {α : Type*} {P Q : List α → α → Prop} {l m : List α} {x : α}

theorem mono (h : Admitted P l) (himp : ∀ k, ∀ x ∈ l, P k x → Q k x) : Admitted Q l := by
  induction h with
  | nil => exact nil
  | snoc _ hx ih =>
      refine (ih fun k y hy => himp k y (List.mem_append_left _ hy)).snoc ?_
      exact himp _ _ (List.mem_append_right _ List.mem_cons_self) hx

theorem append (h : Admitted P l) (hm : ∀ x ∈ m, ∀ k, l <+: k → P k x) : Admitted P (l ++ m) := by
  induction m using List.reverseRecOn with
  | nil => rwa [List.append_nil]
  | append_singleton m x ih =>
      have hrest := ih fun y hy => hm y (List.mem_append_left _ hy)
      have hlast := hm x (List.mem_append_right _ List.mem_cons_self) (l ++ m)
        (List.prefix_append l m)
      rw [← List.append_assoc]
      exact hrest.snoc hlast

end Admitted
