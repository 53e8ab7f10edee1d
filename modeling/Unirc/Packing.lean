import Mathlib.Data.List.Basic
import Mathlib.Tactic.Common

/-!
# Packing items into groups

A list is cut into consecutive groups: an item joins the last group while it fits, and opens
the next one otherwise. Nothing is lost or moved, whatever the test is.
-/

namespace Packing

variable {α : Type*} (fits : List α → α → Prop) [∀ l a, Decidable (fits l a)]

/-- The groups of the items behind those of the current group. -/
def pack : List α → List α → List (List α)
  | cur, [] => [cur]
  | cur, a :: rest => if fits cur a then pack (cur ++ [a]) rest else cur :: pack [a] rest

variable {fits}

theorem flatten_pack (cur rest : List α) : (pack fits cur rest).flatten = cur ++ rest := by
  induction rest generalizing cur with
  | nil => simp [pack]
  | cons a rest ih =>
      rw [pack]
      split
      · rw [ih, List.append_assoc]
        rfl
      · rw [List.flatten_cons, ih]
        rfl

/-- What holds of a single item and of a group with an item that fits holds of all groups. -/
theorem forall_pack {P : List α → Prop} {cur rest : List α} (hcur : P cur)
    (hsingle : ∀ a ∈ rest, P [a]) (hfits : ∀ l, ∀ a ∈ rest, P l → fits l a → P (l ++ [a])) :
    ∀ l ∈ pack fits cur rest, P l := by
  induction rest generalizing cur with
  | nil =>
      intro l hl
      rwa [List.mem_singleton.mp hl]
  | cons a rest ih =>
      have hsingle' : ∀ b ∈ rest, P [b] := fun b hb => hsingle b (List.mem_cons_of_mem a hb)
      have hfits' : ∀ l, ∀ b ∈ rest, P l → fits l b → P (l ++ [b]) :=
        fun l b hb => hfits l b (List.mem_cons_of_mem a hb)
      rw [pack]
      split
      · rename_i hfit
        exact ih (hfits cur a List.mem_cons_self hcur hfit) hsingle' hfits'
      · intro l hl
        rcases List.mem_cons.mp hl with rfl | hl
        · exact hcur
        · exact ih (hsingle a List.mem_cons_self) hsingle' hfits' l hl

theorem pack_ne_nil {cur rest : List α} (hcur : cur ≠ []) : ∀ l ∈ pack fits cur rest, l ≠ [] :=
  forall_pack hcur (fun _ _ => List.cons_ne_nil _ _) fun l a _ _ _ => by simp

theorem pack_map {β : Type*} (f : β → α) (cur rest : List β) :
    pack fits (cur.map f) (rest.map f) =
      (pack (fun l b => fits (l.map f) (f b)) cur rest).map (List.map f) := by
  induction rest generalizing cur with
  | nil => rfl
  | cons b rest ih =>
      have hjoin := ih (cur ++ [b])
      have hopen := ih [b]
      rw [List.map_append, List.map_singleton] at hjoin
      rw [List.map_cons, pack, pack]
      split
      · exact hjoin
      · rw [List.map_cons, ← hopen]
        rfl

end Packing

/-- The words of a text that is written with a separator behind each of them. -/
theorem dropLast_flatMap_append {α : Type*} (x : α) (words : List (List α)) :
    (words.flatMap (· ++ [x])).dropLast = List.intercalate [x] words := by
  induction words with
  | nil => rfl
  | cons w ws ih =>
      cases ws with
      | nil => simp
      | cons v vs =>
          rw [List.flatMap_cons, List.dropLast_append_of_ne_nil (by simp), ih]
          simp
