import Mathlib.Data.List.TakeWhile
import Mathlib.Order.Defs.LinearOrder
import Mathlib.Tactic.Common

/-!
# Texts with codes

A code is a character with some of those behind it, by a function of the character and the text
behind it. What is left of a text without its codes is kept with the places, so that two readings
leave the same only if they find the same codes.
-/

/-- What is left of a text, each character with the length of the text that it begins. The number
is how many characters are still to be skipped. -/
def TextCodes.kept (f : Char → List Char → Option ℕ) : ℕ → List Char → List (ℕ × Char)
  | _, [] => []
  | skip + 1, _ :: t => kept f skip t
  | 0, c :: t =>
      match f c t with
      | none => (t.length + 1, c) :: kept f 0 t
      | some k => kept f k t

/-- Two readings of the codes agree on all codes that are found. -/
def TextCodes.Agree (f g : Char → List Char → Option ℕ) : ℕ → List Char → Prop
  | _, [] => True
  | skip + 1, _ :: t => Agree f g skip t
  | 0, c :: t => f c t = g c t ∧ Agree f g ((g c t).getD 0) t

namespace TextCodes

variable {f g : Char → List Char → Option ℕ}

theorem kept_skip (skip : ℕ) (t : List Char) : kept f skip t = kept f 0 (t.drop skip) := by
  induction t generalizing skip with
  | nil => cases skip <;> rfl
  | cons c t ih =>
      cases skip with
      | zero => rfl
      | succ skip => exact ih skip

theorem le_of_mem_kept {skip : ℕ} {t : List Char} {x : ℕ × Char} (h : x ∈ kept f skip t) :
    x.1 ≤ (t.drop skip).length := by
  induction t generalizing skip with
  | nil => cases skip <;> cases h
  | cons c t ih =>
      cases skip with
      | succ skip => exact ih h
      | zero =>
          rw [kept] at h
          rw [List.drop_zero, List.length_cons]
          cases hc : f c t with
          | none =>
              rw [hc] at h
              rcases List.mem_cons.mp h with rfl | h
              · exact le_rfl
              · exact Nat.le_succ_of_le (ih h)
          | some k =>
              rw [hc] at h
              have hle := ih h
              rw [List.length_drop] at hle
              omega

/-- A code ends within the text, and no code begins in it. -/
structure Closed (f g : Char → List Char → Option ℕ) : Prop where
  none_iff : ∀ c t, f c t = none ↔ g c t = none
  within : ∀ c t k, f c t = some k ∨ g c t = some k → k ≤ t.length
  plain : ∀ c t k, f c t = some k ∨ g c t = some k → ∀ x ∈ t.take k, ∀ r, f x r = none

theorem Closed.symm (h : Closed f g) : Closed g f where
  none_iff := fun c t => (h.none_iff c t).symm
  within := fun c t k hk => h.within c t k hk.symm
  plain := fun c t k hk x hx r => (h.none_iff x r).mp (h.plain c t k hk.symm x hx r)

/-- If one code is longer, what it takes away is not found again. -/
theorem kept_ne_of_lt {t : List Char} {k k' : ℕ} (hlt : k < k') (hle : k' ≤ t.length)
    (hplain : ∀ x ∈ t.take k', ∀ r, f x r = none) : kept f k t ≠ kept g k' t := by
  have hk : k < t.length := hlt.trans_le hle
  have hhead : f t[k] (t.drop (k + 1)) = none :=
    hplain _ (List.mem_take_iff_getElem.mpr ⟨k, by omega, rfl⟩) _
  have hfirst : ((t.drop (k + 1)).length + 1, t[k]) ∈ kept f k t := by
    rw [kept_skip, List.drop_eq_getElem_cons hk, kept, hhead]
    exact List.mem_cons_self
  intro heq
  rw [heq] at hfirst
  have hbound := le_of_mem_kept hfirst
  rw [List.length_drop, List.length_drop] at hbound
  omega

/-- The same is left exactly when the readings agree. -/
theorem kept_eq_iff (h : Closed f g) (skip : ℕ) (t : List Char) :
    kept f skip t = kept g skip t ↔ Agree f g skip t := by
  induction t generalizing skip with
  | nil => cases skip <;> exact iff_of_true rfl trivial
  | cons c t ih =>
      cases skip with
      | succ skip => exact ih skip
      | zero =>
          rw [kept, kept, Agree]
          cases hf : f c t with
          | none =>
              rw [(h.none_iff c t).mp hf]
              rw [List.cons_inj_right, ih]
              exact (and_iff_right rfl).symm
          | some k =>
              cases hg : g c t with
              | none =>
                  rw [(h.none_iff c t).mpr hg] at hf
                  cases hf
              | some k' =>
                  dsimp only
                  rw [Option.some.injEq, Option.getD_some]
                  rcases lt_trichotomy k k' with hlt | rfl | hlt
                  · have hne := kept_ne_of_lt (g := g) hlt (h.within c t k' (Or.inr hg))
                      (h.plain c t k' (Or.inr hg))
                    exact iff_of_false hne fun hk => hlt.ne hk.1
                  · rw [ih, and_iff_right rfl]
                  · have hne := kept_ne_of_lt (g := f) hlt (h.within c t k (Or.inl hf))
                      (h.symm.plain c t k (Or.inr hf))
                    exact iff_of_false hne.symm fun hk => hlt.ne' hk.1

/-- As no code begins within another, readings that agree are those that agree everywhere. -/
theorem agree_iff (h : Closed f g) {skip : ℕ} {t : List Char}
    (hskip : ∀ x ∈ t.take skip, ∀ r, f x r = none) :
    Agree f g skip t ↔ ∀ c r, c :: r <:+ t → f c r = g c r := by
  induction t generalizing skip with
  | nil =>
      have hall : ∀ c r, c :: r <:+ [] → f c r = g c r := by
        intro c r hr
        cases List.suffix_nil.mp hr
      cases skip <;> exact iff_of_true trivial hall
  | cons c t ih =>
      have hsplit : (∀ x r, x :: r <:+ c :: t → f x r = g x r) ↔
          f c t = g c t ∧ ∀ x r, x :: r <:+ t → f x r = g x r := by
        constructor
        · intro hall
          exact ⟨hall c t List.suffix_rfl, fun x r hr => hall x r (hr.trans (List.suffix_cons c t))⟩
        · rintro ⟨hhead, htail⟩ x r hr
          rcases List.suffix_cons_iff.mp hr with heq | hr
          · obtain ⟨rfl, rfl⟩ := List.cons.inj heq
            exact hhead
          · exact htail x r hr
      rw [hsplit]
      cases skip with
      | succ skip =>
          have hf : f c t = none := hskip c List.mem_cons_self t
          rw [Agree, ih fun x hx => hskip x (List.mem_cons_of_mem c hx), hf,
            (h.none_iff c t).mp hf]
          exact (and_iff_right rfl).symm
      | zero =>
          rw [Agree]
          refine and_congr_right fun hc => ih fun x hx r => ?_
          cases hg : g c t with
          | none =>
              rw [hg, Option.getD_none, List.take_zero] at hx
              cases hx
          | some k =>
              rw [hg] at hx
              exact h.plain c t k (Or.inr hg) x hx r

theorem length_kept_le (skip : ℕ) (t : List Char) : (kept f skip t).length ≤ t.length := by
  induction t generalizing skip with
  | nil => cases skip <;> exact le_rfl
  | cons c t ih =>
      cases skip with
      | succ skip => exact Nat.le_succ_of_le (ih skip)
      | zero =>
          rw [kept]
          cases f c t with
          | none => exact Nat.succ_le_succ (ih 0)
          | some k => exact Nat.le_succ_of_le (ih k)

/-- A text without codes is left as it is. -/
theorem kept_of_plain {t : List Char} (h : ∀ x ∈ t, ∀ r, f x r = none) :
    (kept f 0 t).map Prod.snd = t := by
  induction t with
  | nil => rfl
  | cons c t ih =>
      rw [kept, h c List.mem_cons_self, List.map_cons,
        ih fun x hx => h x (List.mem_cons_of_mem c hx)]

theorem plain_of_mem_kept (hf : ∀ c t r, f c t = none → f c r = none) {skip : ℕ} {t : List Char}
    {x : ℕ × Char} (h : x ∈ kept f skip t) (r : List Char) : f x.2 r = none := by
  induction t generalizing skip with
  | nil => cases skip <;> cases h
  | cons c t ih =>
      cases skip with
      | succ skip => exact ih h
      | zero =>
          rw [kept] at h
          cases hc : f c t with
          | none =>
              rw [hc] at h
              rcases List.mem_cons.mp h with rfl | h
              · exact hf c t r hc
              · exact ih h
          | some k =>
              rw [hc] at h
              exact ih h

end TextCodes
