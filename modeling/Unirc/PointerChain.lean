import Mathlib.Data.Fintype.Card
import Mathlib.Logic.Function.Basic

/-!
# Chains of pointers

Cells that are linked by a field, from the pointer at a head to `none`, and tables whose heads
share the field.
-/

namespace PointerChain

variable {α : Type*}

/-- The cells from one pointer to another. -/
def Segment (next : α → Option α) : Option α → List α → Option α → Prop
  | p, [], q => p = q
  | p, a :: l, q => p = some a ∧ Segment next (next a) l q

/-- The cells from a pointer to the end. -/
abbrev Chain (next : α → Option α) (p : Option α) (l : List α) : Prop := Segment next p l none

variable {next next' : α → Option α} {p q : Option α} {a b x : α} {l l₁ l₂ : List α}

@[simp] theorem segment_nil : Segment next p [] q ↔ p = q := Iff.rfl

@[simp] theorem segment_cons :
    Segment next p (a :: l) q ↔ p = some a ∧ Segment next (next a) l q := Iff.rfl

theorem segment_append :
    Segment next p (l₁ ++ l₂) q ↔ ∃ m, Segment next p l₁ m ∧ Segment next m l₂ q := by
  induction l₁ generalizing p with
  | nil => simp
  | cons a l₁ ih =>
      rw [List.cons_append, segment_cons, ih]
      simp [and_assoc]

theorem Segment.congr (h : ∀ a ∈ l, next' a = next a) (hl : Segment next p l q) :
    Segment next' p l q := by
  induction l generalizing p with
  | nil => exact hl
  | cons a l ih =>
      rw [segment_cons, h a List.mem_cons_self]
      exact ⟨hl.1, ih (fun b hb => h b (List.mem_cons_of_mem a hb)) hl.2⟩

theorem Chain.head (h : Chain next p l) : p = l.head? := by
  cases l with
  | nil => exact h
  | cons a l => exact h.1

theorem Chain.unique (h₁ : Chain next p l₁) (h₂ : Chain next p l₂) : l₁ = l₂ := by
  induction l₁ generalizing p l₂ with
  | nil =>
      cases l₂ with
      | nil => rfl
      | cons b l₂ => exact absurd (h₁.symm.trans h₂.1) nofun
  | cons a l₁ ih =>
      cases l₂ with
      | nil => exact absurd (h₂.symm.trans h₁.1) nofun
      | cons b l₂ =>
          obtain rfl : a = b := Option.some.inj (h₁.1.symm.trans h₂.1)
          rw [ih h₁.2 h₂.2]

/-- A cell that came twice would come again and again. -/
theorem Chain.nodup (h : Chain next p l) : l.Nodup := by
  induction l generalizing p with
  | nil => exact List.nodup_nil
  | cons a l ih =>
      refine List.nodup_cons.mpr ⟨fun ha => ?_, ih h.2⟩
      obtain ⟨l₁, l₂, rfl⟩ := List.append_of_mem ha
      obtain ⟨m, -, hm⟩ := segment_append.mp h.2
      have hlen := congrArg List.length (Chain.unique h.2 hm.2)
      simp only [List.length_append, List.length_cons] at hlen
      omega

theorem Chain.length_le [Fintype α] (h : Chain next p l) : l.length ≤ Fintype.card α :=
  h.nodup.length_le_card

section

variable [DecidableEq α]

theorem Segment.update (h : Segment next p l q) (hx : x ∉ l) (v : Option α) :
    Segment (Function.update next x v) p l q :=
  h.congr fun _ hb => Function.update_of_ne (ne_of_mem_of_not_mem hb hx) v next

theorem Chain.push (h : Chain next p l) (hx : x ∉ l) :
    Chain (Function.update next x p) (some x) (x :: l) :=
  ⟨rfl, by rw [Function.update_self]; exact h.update hx p⟩

/-- The second of two neighbours leaves the chain. -/
theorem Chain.unlink (h : Chain next p (l₁ ++ a :: b :: l₂)) :
    Chain (Function.update next a (next b)) p (l₁ ++ a :: l₂) := by
  have hnd := h.nodup
  obtain ⟨m, h₁, hm, -, h₂⟩ := segment_append.mp h
  rw [List.nodup_append, List.nodup_cons] at hnd
  obtain ⟨-, ⟨ha, -⟩, hdisjoint⟩ := hnd
  have ha₁ : a ∉ l₁ := fun hmem => hdisjoint a hmem a List.mem_cons_self rfl
  refine segment_append.mpr ⟨m, h₁.update ha₁ _, hm, ?_⟩
  rw [Function.update_self]
  exact h₂.update (fun hmem => ha (List.mem_cons_of_mem b hmem)) _

end

/-- The chains of a table. -/
structure Filed {ι : Type*} (next : α → Option α) (heads : ι → Option α) (lists : ι → List α) :
    Prop where
  chain : ∀ i, Chain next (heads i) (lists i)
  disjoint : ∀ {i j a}, a ∈ lists i → a ∈ lists j → i = j

namespace Filed

variable {ι : Type*} [DecidableEq ι] {heads : ι → Option α} {lists : ι → List α} {i : ι}

omit [DecidableEq ι] in
theorem nil : Filed next (fun _ : ι => none) fun _ => [] :=
  ⟨fun _ => rfl, fun h => nomatch h⟩

theorem of_sublist (h : Filed next heads lists) {l : List α} {next' : α → Option α} {p : Option α}
    (hl : ∀ a ∈ l, a ∈ lists i) (hnext : ∀ j, j ≠ i → ∀ a ∈ lists j, next' a = next a)
    (hchain : Chain next' p l) :
    Filed next' (Function.update heads i p) (Function.update lists i l) := by
  have hsub : ∀ {j a}, a ∈ Function.update lists i l j → a ∈ lists j := by
    intro j a ha
    rw [Function.update_apply] at ha
    split at ha
    · rename_i hj
      exact hj ▸ hl a ha
    · exact ha
  refine ⟨fun j => ?_, fun hj hk => h.disjoint (hsub hj) (hsub hk)⟩
  by_cases hji : j = i
  · subst hji
    simp only [Function.update_self]
    exact hchain
  · simp only [Function.update_of_ne hji]
    exact (h.chain j).congr (hnext j hji)

theorem pop (h : Filed next heads lists) (hi : lists i = a :: l) :
    Filed next (Function.update heads i (next a)) (Function.update lists i l) := by
  refine h.of_sublist (fun b hb => hi ▸ List.mem_cons_of_mem a hb) (fun _ _ _ _ => rfl) ?_
  have := h.chain i
  rw [hi] at this
  exact this.2

variable [DecidableEq α]

omit [DecidableEq ι] in
/-- The link of a cell outside. -/
theorem update (h : Filed next heads lists) (hx : ∀ i, x ∉ lists i) (v : Option α) :
    Filed (Function.update next x v) heads lists :=
  ⟨fun i => (h.chain i).update (hx i) v, h.disjoint⟩

theorem push (h : Filed next heads lists) (hx : ∀ i, x ∉ lists i) (i : ι) :
    Filed (Function.update next x (heads i)) (Function.update heads i (some x))
      (Function.update lists i (x :: lists i)) := by
  refine ⟨fun j => ?_, fun {j k a} hj hk => ?_⟩
  · by_cases hji : j = i
    · subst hji
      simp only [Function.update_self]
      exact (h.chain j).push (hx j)
    · simp only [Function.update_of_ne hji]
      exact (h.chain j).update (hx j) _
  · rw [Function.update_apply] at hj hk
    split at hj <;> split at hk
    · rename_i hj' hk'
      rw [hj', hk']
    · rename_i hj' _
      rcases List.mem_cons.mp hj with rfl | hj
      · exact absurd hk (hx k)
      · exact hj'.trans (h.disjoint hj hk)
    · rename_i _ hk'
      rcases List.mem_cons.mp hk with rfl | hk
      · exact absurd hj (hx j)
      · exact (h.disjoint hj hk).trans hk'.symm
    · exact h.disjoint hj hk

theorem unlink (h : Filed next heads lists) (hi : lists i = l₁ ++ a :: b :: l₂) :
    Filed (Function.update next a (next b)) heads (Function.update lists i (l₁ ++ a :: l₂)) := by
  have hchain := h.chain i
  have ha : a ∈ lists i := by simp [hi]
  rw [hi] at hchain
  have hl : ∀ c ∈ l₁ ++ a :: l₂, c ∈ lists i := fun c hc => by
    rw [hi]
    simp at hc ⊢
    tauto
  have hnext : ∀ j, j ≠ i → ∀ c ∈ lists j, Function.update next a (next b) c = next c :=
    fun j hj c hc => Function.update_of_ne
      (ne_of_mem_of_not_mem hc fun hja => hj (h.disjoint hja ha)) _ _
  have := h.of_sublist hl hnext hchain.unlink
  rwa [Function.update_eq_self] at this

end Filed

end PointerChain
