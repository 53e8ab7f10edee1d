import Mathlib.Algebra.Order.Group.Nat
import Unirc.Packing

/-!
# Lines filled with words

Words are written behind the start of a line, each with a separator behind it, as long as the room
that is reckoned with for the next one is there. The last separator of a line is cut off.
-/

namespace Packing

variable {α σ : Type*} (start : List σ) (sep : σ) (word : α → List σ) (room : α → ℕ) (limit : ℕ)

/-- The words of a group as they are written. -/
def text (g : List α) : List σ := g.flatMap fun a => word a ++ [sep]

def line (g : List α) : List σ := start ++ List.intercalate [sep] (g.map word)

/-- The lines from what is written of the current one and the items that are left. -/
def fill : List σ → List α → List (List σ)
  | t, [] => [t.dropLast]
  | t, a :: rest =>
      if limit < t.length + room a then t.dropLast :: fill (start ++ (word a ++ [sep])) rest
      else fill (t ++ (word a ++ [sep])) rest

variable {start sep word room limit}

theorem fill_map {β : Type*} (f : β → α) (t : List σ) (rest : List β) :
    fill start sep word room limit t (rest.map f) =
      fill start sep (fun b => word (f b)) (fun b => room (f b)) limit t rest := by
  induction rest generalizing t with
  | nil => rfl
  | cons b rest ih => rw [List.map_cons, fill, fill, ih, ih]

theorem text_singleton (a : α) : text sep word [a] = word a ++ [sep] :=
  List.append_nil _

theorem text_append (g : List α) (a : α) :
    text sep word (g ++ [a]) = text sep word g ++ (word a ++ [sep]) := by
  rw [text, List.flatMap_append]
  exact congrArg _ (text_singleton a)

theorem dropLast_text {g : List α} (h : g ≠ []) :
    (start ++ text sep word g).dropLast = line start sep word g := by
  have hne : text sep word g ≠ [] := by
    obtain ⟨a, g, rfl⟩ := List.exists_cons_of_ne_nil h
    rw [text, List.flatMap_cons]
    exact List.append_ne_nil_of_left_ne_nil
      (List.append_ne_nil_of_right_ne_nil _ (List.cons_ne_nil sep [])) _
  rw [List.dropLast_append_of_ne_nil hne, line, ← dropLast_flatMap_append, List.flatMap_map]
  rfl

theorem fill_eq_pack {cur : List α} (hcur : cur ≠ []) (rest : List α) :
    fill start sep word room limit (start ++ text sep word cur) rest =
      (pack (fun g a => ¬ limit < (start ++ text sep word g).length + room a) cur rest).map
        (line start sep word) := by
  induction rest generalizing cur with
  | nil =>
      rw [fill, dropLast_text hcur]
      rfl
  | cons a rest ih =>
      rw [fill, pack]
      split
      · rw [dropLast_text hcur, ← text_singleton,
          ih (List.cons_ne_nil a [])]
        rfl
      · rw [List.append_assoc, ← text_append,
          ih (List.append_ne_nil_of_right_ne_nil _ (List.cons_ne_nil a []))]

/-- When the room that is reckoned with is enough, the lines are those of groups of the items in their
order, and no line is longer than the limit. -/
theorem exists_groups_fill {a : α} {rest : List α}
    (hroom : ∀ b ∈ a :: rest, (word b).length + 1 ≤ room b ∧ start.length + room b ≤ limit) :
    ∃ gs : List (List α), gs.flatten = a :: rest ∧ (∀ g ∈ gs, g ≠ []) ∧
      (∀ g ∈ gs, (line start sep word g).length < limit) ∧
      fill start sep word room limit (start ++ (word a ++ [sep])) rest =
        gs.map (line start sep word) := by
  have hsingle : ∀ b ∈ a :: rest, (start ++ text sep word [b]).length ≤ limit := by
    intro b hb
    obtain ⟨hword, hlimit⟩ := hroom b hb
    rw [text_singleton, List.length_append, List.length_append, List.length_singleton]
    omega
  have hne : ∀ g ∈ pack (fun g a => ¬ limit < (start ++ text sep word g).length + room a) [a] rest,
      g ≠ [] := pack_ne_nil (List.cons_ne_nil a [])
  refine ⟨_, flatten_pack [a] rest, hne, fun g hg => ?_, ?_⟩
  · have hlen := forall_pack (P := fun g => (start ++ text sep word g).length ≤ limit)
      (hsingle a List.mem_cons_self) (fun b hb => hsingle b (List.mem_cons_of_mem a hb))
      (fun l b hb _ hfit => by
        have hword := (hroom b (List.mem_cons_of_mem a hb)).1
        rw [text_append]
        simp only [List.length_append, List.length_singleton] at hfit ⊢
        omega) g hg
    have hpos : 0 < (start ++ text sep word g).length := by
      obtain ⟨b, g, rfl⟩ := List.exists_cons_of_ne_nil (hne g hg)
      rw [text, List.flatMap_cons]
      simp only [List.length_append, List.length_singleton]
      omega
    rw [← dropLast_text (hne g hg), List.length_dropLast]
    omega
  · rw [← text_singleton]
    exact fill_eq_pack (List.cons_ne_nil a []) rest

end Packing
