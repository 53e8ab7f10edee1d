import Mathlib.Data.List.GetD
import Mathlib.Data.List.Induction
import Unirc.Hostmask

/-!
# The fields of an IPv6 mask

The text of a mask up to its `/` is a list of fields between colons. The scan of
`try_parse_v6_netmask` stores the value of a field when it meets the colon behind it, and
takes an empty field that is not the first as the place of `::`.
-/

namespace Unirc

def isHex (c : Char) : Bool := (hexDigit? c).isSome

def hexValue (g : Str) : ℕ := g.foldl (fun v c => 16 * v + (hexDigit? c).getD 0) 0

@[simp] theorem hexValue_nil : hexValue [] = 0 := rfl

theorem hexValue_append_singleton (g : Str) (c : Char) :
    hexValue (g ++ [c]) = 16 * hexValue g + (hexDigit? c).getD 0 := by
  simp [hexValue]

theorem hexDigit?_lt {c : Char} {v : ℕ} (h : hexDigit? c = some v) : v < 16 := by
  unfold hexDigit? at h
  split at h
  · rename_i hc
    have h₁ : c.toNat ≤ 57 := hc.2
    obtain rfl := Option.some.inj h
    show c.toNat - 48 < 16
    omega
  · split at h
    · rename_i hc
      have h₁ : c.toNat ≤ 70 := hc.2
      obtain rfl := Option.some.inj h
      show c.toNat - 65 + 10 < 16
      omega
    · split at h
      · rename_i hc
        have h₁ : c.toNat ≤ 102 := hc.2
        obtain rfl := Option.some.inj h
        show c.toNat - 97 + 10 < 16
        omega
      · cases h

theorem hexValue_lt {g : Str} : hexValue g < 16 ^ g.length := by
  induction g using List.reverseRecOn with
  | nil => decide
  | append_singleton g c ih =>
      have hc : (hexDigit? c).getD 0 < 16 := by
        cases h : hexDigit? c with
        | none => decide
        | some v => exact hexDigit?_lt h
      rw [hexValue_append_singleton, List.length_append, List.length_singleton, Nat.pow_succ]
      omega

/-- At most four hexadecimal digits. -/
def IsField (f : Str) : Prop := f.length ≤ 4 ∧ ∀ c ∈ f, isHex c = true

instance : DecidablePred IsField := fun f =>
  decidable_of_iff (f.length ≤ 4 ∧ f.all isHex = true) (by rw [IsField, List.all_eq_true])

theorem isField_nil : IsField [] := ⟨Nat.zero_le _, fun _ h => by cases h⟩

theorem IsField.of_append {f g : Str} (h : IsField (f ++ g)) : IsField f :=
  ⟨by have := h.1; rw [List.length_append] at this; omega,
    fun c hc => h.2 c (List.mem_append_left g hc)⟩

/-- The fields with colons between them. -/
def joinColons : List Str → Str
  | [] => []
  | [f] => f
  | f :: g :: fs => f ++ ':' :: joinColons (g :: fs)

theorem joinColons_cons_append (c : Char) (f : Str) (fs : List Str) :
    joinColons ((c :: f) :: fs) = c :: joinColons (f :: fs) := by
  cases fs <;> rfl

namespace ScanV6

/-- The state behind the digits `g` of a field, with the words of the fields before. -/
def within (ws : List ℕ) (finsert : Option ℕ) (g : Str) : ScanV6 where
  d := Function.update (fun i => ws.getD i 0) ws.length (hexValue g <<< (4 * (4 - g.length)))
  dp := ws.length
  nyble := 4 - g.length
  finsert := finsert
  bits := 128

theorem init_eq_within : init = within [] none [] := by
  simp [init, within]

variable {ws : List ℕ} {finsert : Option ℕ} {g rest num : Str} {prev : Option Char} {c : Char}

theorem scan_hex (hg : IsField (g ++ [c])) :
    scan (c :: rest) prev (within ws finsert g) =
      scan rest (some c) (within ws finsert (g ++ [c])) := by
  obtain ⟨hlen, hhex⟩ := hg
  rw [List.length_append, List.length_singleton] at hlen
  obtain ⟨v, hv⟩ := Option.isSome_iff_exists.mp (hhex c (by simp))
  have hnyble : (within ws finsert g).nyble = (3 - g.length) + 1 := by
    show 4 - g.length = _
    omega
  have hword : hexValue g <<< (4 * (4 - g.length)) ||| v <<< (4 * (3 - g.length)) =
      hexValue (g ++ [c]) <<< (4 * (3 - g.length)) := by
    have hsplit : 4 * (4 - g.length) = 4 + 4 * (3 - g.length) := by omega
    have hnibble : hexValue g <<< 4 ||| v = 16 * hexValue g + v := by
      rw [← Nat.shiftLeft_add_eq_or_of_lt (hexDigit?_lt hv), Nat.shiftLeft_eq]
      omega
    rw [hsplit, Nat.shiftLeft_add, ← Nat.shiftLeft_or_distrib, hnibble,
      hexValue_append_singleton, hv, Option.getD_some]
  rw [scan]
  simp only [hv, hnyble, Nat.add_sub_cancel, Nat.succ_ne_zero, if_false]
  congr 1
  simp only [within, List.length_append, List.length_singleton, Function.update_self,
    Function.update_idem, hword, show 4 - (g.length + 1) = 3 - g.length by omega]

theorem scan_field {f : Str} (hf : IsField (g ++ f)) :
    ∃ prev', scan (f ++ rest) prev (within ws finsert g) =
      scan rest prev' (within ws finsert (g ++ f)) ∧ (prev' = some ':' → f = [] ∧ prev = some ':') := by
  induction f generalizing g prev with
  | nil => exact ⟨prev, by rw [List.append_nil, List.nil_append], fun h => ⟨rfl, h⟩⟩
  | cons c f ih =>
      rw [List.append_cons] at hf ⊢
      obtain ⟨prev', hscan, hprev⟩ := @ih _ (some c) hf
      refine ⟨prev', by rw [List.cons_append, scan_hex hf.of_append, hscan], fun h => ?_⟩
      have hc := (hprev h).2
      obtain rfl := Option.some.inj hc
      have hhex := hf.2 ':' (by simp)
      exact absurd hhex (by decide)

theorem align_within :
    { (within ws finsert g).align with dp := ws.length + 1, nyble := 4 } =
      within (ws ++ [hexValue g]) finsert [] := by
  simp only [within, align, List.length_append, List.length_singleton, Function.update_self,
    Function.update_idem, hexValue_nil, Nat.zero_shiftLeft, List.length_nil, Nat.sub_zero,
    Nat.shiftLeft_shiftRight, ScanV6.mk.injEq, and_self, and_true]
  funext i
  rcases Nat.lt_trichotomy i ws.length with h | h | h
  · rw [Function.update_of_ne (by omega), Function.update_of_ne (by omega),
      List.getD_append _ _ _ _ h]
  · subst h
    rw [Function.update_self, Function.update_of_ne (by omega), List.getD_append_right _ _ _ _ le_rfl]
    simp
  · rw [Function.update_of_ne (by omega), List.getD_eq_default _ _ (by omega),
      Function.update_apply, List.getD_eq_default _ _ (by simp; omega), ite_self]

theorem scan_colon (hprev : prev ≠ some ':') :
    scan (':' :: rest) prev (within ws finsert g) =
      if 8 ≤ ws.length + 1 then none
      else scan rest (some ':') (within (ws ++ [hexValue g]) finsert []) := by
  rw [scan, ← align_within]
  simp only [show hexDigit? ':' = none by decide, if_true, if_neg hprev]
  rfl

theorem scan_double : scan (':' :: rest) (some ':') (within ws finsert []) =
    if finsert.isSome then none
    else scan rest (some ':') (within ws (some ws.length) []) := by
  rw [scan]
  simp only [show hexDigit? ':' = none by decide, if_true]
  rfl

/-- What is behind a `/` is taken. -/
def Accepts (finsert : Option ℕ) (words : ℕ) (num : Str) : Prop :=
  0 ≤ toCInt (Decimal.strtoul num).1 ∧ (Decimal.strtoul num).2 = [] ∧
    (toCInt (Decimal.strtoul num).1 ≤ words * 4 ∨
      finsert.isSome ∧ toCInt (Decimal.strtoul num).1 ≤ 128)

instance (finsert : Option ℕ) (words : ℕ) (num : Str) : Decidable (Accepts finsert words num) := by
  unfold Accepts
  infer_instance

theorem scan_slash (s : ScanV6) : scan ('/' :: num) prev s =
    if Accepts s.finsert (s.dp + 1) num then
      some ({ s.align with dp := s.dp + 1, bits := toCInt (Decimal.strtoul num).1 }, false)
    else none := by
  rw [scan]
  simp only [show hexDigit? '/' = none by decide, show ('/' : Char) ≠ ':' by decide,
    show ('/' : Char) ≠ '*' by decide, if_true, if_false]
  by_cases hacc : Accepts s.finsert (s.dp + 1) num
  · obtain ⟨hnonneg, hafter, hlen⟩ := id hacc
    have hvalue : ¬ (toCInt (Decimal.strtoul num).1 < 0 ∨ (Decimal.strtoul num).2 ≠ []) := by
      rintro (hneg | hrest)
      · omega
      · exact hrest hafter
    have hfits : ¬ (((s.dp : ℤ) + 1) * 4 < toCInt (Decimal.strtoul num).1 ∧
        ¬ (s.finsert.isSome = true ∧ toCInt (Decimal.strtoul num).1 ≤ 128)) := by
      rintro ⟨hlong, hshort⟩
      rcases hlen with hlen | hlen
      · omega
      · exact hshort hlen
    rw [if_neg hvalue, if_neg hfits, if_pos hacc]
  · rw [if_neg hacc]
    split
    · rfl
    · rename_i hnonneg
      split
      · rfl
      · rename_i hlen
        refine absurd ⟨by omega, ?_, ?_⟩ hacc
        · exact not_not.mp fun hrest => hnonneg (Or.inr hrest)
        · by_cases hshort : s.finsert.isSome = true ∧ toCInt (Decimal.strtoul num).1 ≤ 128
          · exact Or.inr hshort
          · refine Or.inl (Int.not_lt.mp fun hlong => hlen ⟨?_, hshort⟩)
            omega

/-- The words, the place of `::` and the last field of the fields behind a colon. -/
def layout (ws : List ℕ) (finsert : Option ℕ) : List Str → Option (List ℕ × Option ℕ × Str)
  | [] => none
  | [f] => some (ws, finsert, f)
  | f :: g :: fs =>
      if f = [] then if finsert.isSome then none else layout ws (some ws.length) (g :: fs)
      else if 8 ≤ ws.length + 1 then none
      else layout (ws ++ [hexValue f]) finsert (g :: fs)

/-- The character in front does not matter behind the fields. -/
def Ends (rest : Str) : Prop := ∀ prev s, scan rest prev s = scan rest none s

theorem ends_nil : Ends [] := fun _ _ => rfl

theorem ends_slash : Ends ('/' :: num) := fun prev s => by rw [scan_slash, scan_slash]

theorem scan_joinColons {fs : List Str} (hne : fs ≠ []) (hfs : ∀ f ∈ fs, IsField f)
    (hrest : Ends rest) : scan (joinColons fs ++ rest) (some ':') (within ws finsert []) =
      (layout ws finsert fs).bind fun (ws, finsert, f) => scan rest none (within ws finsert f) := by
  induction fs generalizing ws finsert with
  | nil => exact absurd rfl hne
  | cons f fs ih =>
      have hf : IsField ([] ++ f) := hfs f List.mem_cons_self
      cases fs with
      | nil =>
          obtain ⟨prev', hscan, -⟩ := @scan_field ws finsert [] rest (some ':') f hf
          rw [joinColons, hscan, layout, Option.bind_some, List.nil_append]
          exact hrest _ _
      | cons h fs =>
          have ih := fun ws finsert => @ih ws finsert (List.cons_ne_nil h fs)
            fun f hf => hfs f (List.mem_cons_of_mem _ hf)
          rw [joinColons, List.append_assoc, List.cons_append, layout]
          split
          · rename_i he
            rw [he, List.nil_append, scan_double]
            split
            · rfl
            · exact ih _ _
          · rename_i he
            obtain ⟨prev', hscan, hprev⟩ := @scan_field ws finsert []
              (':' :: (joinColons (h :: fs) ++ rest)) (some ':') f hf
            rw [hscan, List.nil_append, scan_colon fun h => he (hprev h).1]
            split
            · rfl
            · exact ih _ _

/-- The first field may be empty. -/
theorem scan_start {f h : Str} {fs : List Str} (hfs : ∀ f' ∈ f :: h :: fs, IsField f')
    (hrest : Ends rest) : scan (joinColons (f :: h :: fs) ++ rest) none init =
      (layout [hexValue f] none (h :: fs)).bind fun (ws, finsert, f) =>
        scan rest none (within ws finsert f) := by
  have hf : IsField ([] ++ f) := hfs f List.mem_cons_self
  obtain ⟨prev', hscan, hprev⟩ := @scan_field [] none []
    (':' :: (joinColons (h :: fs) ++ rest)) none f hf
  rw [init_eq_within, joinColons, List.append_assoc, List.cons_append, hscan,
    scan_colon fun he => by simpa using (hprev he).2, if_neg (by decide)]
  exact scan_joinColons (by simp) (fun f hf => hfs f (List.mem_cons_of_mem _ hf)) hrest

end ScanV6

end Unirc
